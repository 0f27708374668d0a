import ClockTree.Proofs.Number.Printed

/-!
# Canonical decimals

A decimal has one canonical text: a dash if it is negative, the digits of its whole part, and behind
a point the other digits, of which the last is no zero. A number is written as the canonical text of
the decimal that it rounds to, so two numbers are written alike exactly when they round to the same
decimal.
-/
namespace ClockTree.Number

def signedDecimal? (s : String) : Option ℚ :=
  match s.toList with
  | '-' :: cs => (decimal? (String.ofList cs)).map (- ·)
  | _ => decimal? s

structure CanonicalText (places : Nat) (u : ℚ) (s : String) : Prop where
  denotes : signedDecimal? s = some u
  /-- Digits behind the point, if there are any, end in one that is no zero; the whole part has
  all of its digits and no others. -/
  layout : ∃ fraction, Digits fraction ∧ fraction.length ≤ places ∧ fraction.getLast? ≠ some '0' ∧
    s = String.ofList ((if u < 0 then ['-'] else []) ++
      decimalText (Nat.toDigits 10 ⌊|u|⌋₊) fraction)

/-! ### What a text stands for -/

theorem signedDecimal?_text (negative : Prop) [Decidable negative] {whole fraction : List Char}
    (hwhole : Digits whole) (hne : whole ≠ []) (hfraction : Digits fraction) :
    signedDecimal? (String.ofList ((if negative then ['-'] else []) ++ decimalText whole fraction)) =
      some ((if negative then -1 else 1) *
        ((Nat.ofDigitChars 10 (whole ++ fraction) 0 : ℚ) / 10 ^ fraction.length)) := by
  have hdecimal := decimal?_decimalText hwhole hne hfraction
  unfold signedDecimal?
  rw [String.toList_ofList]
  split_ifs with hnegative
  · simp [hdecimal]
  · obtain ⟨c, cs, rfl⟩ := List.exists_cons_of_ne_nil hne
    have hdash : c ≠ '-' := by
      rintro rfl
      exact absurd (hwhole _ List.mem_cons_self) (by decide)
    rw [List.nil_append, one_mul, ← hdecimal]
    split
    · rename_i heq
      exact absurd (List.cons.inj heq).1 hdash
    · rfl

theorem Trims.canonicalText {places units : Nat} {whole fraction : List Char}
    (h : Trims places units whole fraction) (negative : Bool) :
    CanonicalText places ((if negative then -1 else 1) * (units / 10 ^ places))
      (String.ofList ((if negative ∧ units ≠ 0 then ['-'] else []) ++
        decimalText whole fraction)) := by
  have hplaces := ten_pow_pos places
  obtain ⟨zeros, hlength, -⟩ := h.value
  refine ⟨?_, fraction, h.behind, Nat.le.intro hlength, h.last, ?_⟩
  · rw [signedDecimal?_text _ h.before h.ne_nil h.behind, h.decimal]
    by_cases hunits : units = 0
    · simp [hunits]
    · simp [hunits]
  · have hnonneg : (0 : ℚ) ≤ units / 10 ^ places := by positivity
    have habs : |(if negative then -1 else 1) * (units / 10 ^ places : ℚ)| = units / 10 ^ places := by
      cases negative <;> simp [abs_of_nonneg hnonneg]
    have hneg : (if negative then -1 else 1) * (units / 10 ^ places : ℚ) < 0 ↔
        negative = true ∧ units ≠ 0 := by
      cases negative with
      | false => simpa using hnonneg
      | true =>
        have hpos : (0 : ℚ) < units / 10 ^ places ↔ units ≠ 0 := by
          rw [div_pos_iff_of_pos_right hplaces, Nat.cast_pos, Nat.pos_iff_ne_zero]
        simpa using hpos
    have hfloor : ⌊(units / 10 ^ places : ℚ)⌋₊ = units / 10 ^ places := by
      exact_mod_cast Nat.floor_div_eq_div (K := ℚ) units (10 ^ places)
    rw [habs, hfloor, ← h.eq_toDigits, if_congr hneg rfl rfl]

/-! ### One text for a decimal -/

theorem Digits.eq_of_ofDigitChars {cs ds : List Char} (hcs : Digits cs) (hds : Digits ds)
    (hlength : cs.length = ds.length)
    (h : Nat.ofDigitChars 10 cs 0 = Nat.ofDigitChars 10 ds 0) : cs = ds := by
  induction cs using List.reverseRecOn generalizing ds with
  | nil => exact (List.length_eq_zero_iff.mp hlength.symm).symm
  | append_singleton cs c ih =>
    obtain ⟨ds, d, rfl⟩ := (List.eq_nil_or_concat' ds).resolve_left (by rintro rfl; simp at hlength)
    obtain ⟨hcs, hc⟩ := Digits.append.mp hcs
    obtain ⟨hds, hd⟩ := Digits.append.mp hds
    have hc := isDigit_iff.mp (hc c (by simp))
    have hd := isDigit_iff.mp (hd d (by simp))
    have hzero : '0'.toNat = 48 := rfl
    simp only [Nat.ofDigitChars_append, Nat.ofDigitChars_cons, Nat.ofDigitChars_nil] at h
    have hlast : c = d := Char.toNat_inj.mp (by omega)
    rw [hlast, ih hcs hds (by simpa using hlength) (by omega)]

theorem Digits.length_le {cs ds : List Char} (hds : Digits ds) (hlast : ds.getLast? ≠ some '0')
    (h : Nat.ofDigitChars 10 cs 0 * 10 ^ ds.length = Nat.ofDigitChars 10 ds 0 * 10 ^ cs.length) :
    ds.length ≤ cs.length := by
  by_contra hlt
  obtain ⟨k, hk⟩ := Nat.exists_eq_add_of_lt (Nat.lt_of_not_le hlt)
  have hsome : ds ≠ [] := by
    rintro rfl
    cases hk
  rw [hk, Nat.add_assoc, Nat.pow_add, Nat.mul_comm (10 ^ cs.length), ← Nat.mul_assoc] at h
  have hvalue := Nat.eq_of_mul_eq_mul_right (Nat.pow_pos (by decide)) h
  refine hds.mod_ne hsome hlast 0 ?_
  rw [← hvalue, Nat.pow_succ, ← Nat.mul_assoc, Nat.mul_mod_left]

theorem Digits.eq_of_fraction {cs ds : List Char} (hcs : Digits cs) (hds : Digits ds)
    (hclast : cs.getLast? ≠ some '0') (hdlast : ds.getLast? ≠ some '0')
    (h : Nat.ofDigitChars 10 cs 0 * 10 ^ ds.length = Nat.ofDigitChars 10 ds 0 * 10 ^ cs.length) :
    cs = ds := by
  have hlength := Nat.le_antisymm (hcs.length_le hclast h.symm) (hds.length_le hdlast h)
  rw [hlength] at h
  exact hcs.eq_of_ofDigitChars hds hlength (Nat.eq_of_mul_eq_mul_right (Nat.pow_pos (by decide)) h)

theorem ofDigitChars_point (whole fraction : List Char) :
    (Nat.ofDigitChars 10 (whole ++ fraction) 0 : ℚ) / 10 ^ fraction.length =
      Nat.ofDigitChars 10 whole 0 + Nat.ofDigitChars 10 fraction 0 / 10 ^ fraction.length := by
  rw [Nat.ofDigitChars_append, Nat.ofDigitChars_eq_ofDigitChars_zero]
  push_cast
  rw [add_div, mul_div_cancel_left₀ _ (ten_pow_pos _).ne']

namespace CanonicalText
variable {places places' : Nat} {u v : ℚ} {s t : String}

theorem eq_of_text (h : CanonicalText places u s) (h' : CanonicalText places' v s) : u = v :=
  Option.some.inj (h.denotes.symm.trans h'.denotes)

theorem unique (h : CanonicalText places u s) (h' : CanonicalText places' u t) : s = t := by
  obtain ⟨fraction, hdigits, -, hlast, rfl⟩ := h.layout
  obtain ⟨fraction', hdigits', -, hlast', rfl⟩ := h'.layout
  have hdenotes := h.denotes.trans h'.denotes.symm
  rw [signedDecimal?_text _ (digits_toDigits _) Nat.toDigits_ne_nil hdigits,
    signedDecimal?_text _ (digits_toDigits _) Nat.toDigits_ne_nil hdigits', Option.some_inj] at hdenotes
  have hsign : (if u < 0 then -1 else 1 : ℚ) ≠ 0 := by split_ifs <;> norm_num
  have hvalue := mul_left_cancel₀ hsign hdenotes
  rw [ofDigitChars_point, ofDigitChars_point, add_right_inj,
    div_eq_div_iff (ten_pow_pos _).ne' (ten_pow_pos _).ne'] at hvalue
  rw [hdigits.eq_of_fraction hdigits' hlast hlast' (by exact_mod_cast hvalue)]

theorem ne_dash_zero (h : CanonicalText places u s) : s ≠ "-0" := by
  rintro rfl
  have hread : signedDecimal? "-0" = some 0 := by decide +kernel
  obtain rfl := Option.some.inj (hread.symm.trans h.denotes)
  obtain ⟨fraction, -, -, -, htext⟩ := h.layout
  have hchars := congrArg String.toList htext
  simp [decimalText] at hchars

end CanonicalText

/-! ### Written numbers -/

theorem exists_canonicalText {x : Float} (hx : x.isFinite) (places : Nat) :
    ∃ u, RoundsTo places (value x) u ∧ CanonicalText places u (trimmed places x) := by
  obtain ⟨negative, m, q, hexact⟩ := exists_exact hx
  obtain ⟨whole, fraction, htrims, htext⟩ := exists_text hexact places
  have hvalue : value x = (if negative then -1 else 1) * (m * 2 ^ q) := by rw [value, hexact]; rfl
  refine ⟨_, ?_, htext ▸ htrims.canonicalText negative⟩
  have hrounds := roundsTo_scaledUnits places m q
  rw [hvalue]
  cases negative with
  | false => simpa using hrounds
  | true => simpa using hrounds.neg

/-- The text of a number is canonical, so it tells apart what the numbers round to. -/
theorem trimmed_canonical {x y : Float} (hx : x.isFinite) (hy : y.isFinite) (places : Nat) :
    (∃ u, RoundsTo places (value x) u ∧ CanonicalText places u (trimmed places x)) ∧
      trimmed places x ≠ "-0" ∧
      (trimmed places x = trimmed places y ↔
        ∃ u, RoundsTo places (value x) u ∧ RoundsTo places (value y) u) := by
  obtain ⟨u, hu, hxtext⟩ := exists_canonicalText hx places
  obtain ⟨v, hv, hytext⟩ := exists_canonicalText hy places
  refine ⟨⟨u, hu, hxtext⟩, hxtext.ne_dash_zero, fun hsame => ?_, ?_⟩
  · rw [← hsame] at hytext
    exact ⟨u, hu, hxtext.eq_of_text hytext ▸ hv⟩
  · rintro ⟨w, hxw, hyw⟩
    rw [hu.unique hxw] at hxtext
    rw [hv.unique hyw] at hytext
    exact hxtext.unique hytext

theorem trimmed_canonical_zero :
    let x : Float := -0.04
    let y : Float := 0.03
    x.isFinite ∧ y.isFinite ∧
      (∃ u, RoundsTo 1 (value x) u ∧ CanonicalText 1 u (trimmed 1 x)) ∧ trimmed 1 x ≠ "-0" ∧
      trimmed 1 x = trimmed 1 y ∧ ∃ u, RoundsTo 1 (value x) u ∧ RoundsTo 1 (value y) u := by
  intro x y
  have hx : x.isFinite := by decide +kernel
  have hy : y.isFinite := by decide +kernel
  have hsame : trimmed 1 x = trimmed 1 y := by decide +kernel
  obtain ⟨htext, hdash, hiff⟩ := trimmed_canonical hx hy 1
  exact ⟨hx, hy, htext, hdash, hsame, hiff.mp hsame⟩

end ClockTree.Number
