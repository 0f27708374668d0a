import ClockTree.Proofs.Number.Nearness

/-!
# Integers from numbers and texts

A finite number is an integer exactly when its value is one, and from `2 ^ 53` on every number is an
integer. A text is read as an integer of 64 bits exactly when it is a sign and digits that denote
such an integer.
-/
namespace ClockTree
namespace Number
open Float.Model.UnpackedFloat
open Float.Model.Format (binary64)

theorem signed_cast (negative : Bool) (n : Nat) :
    (signed negative n : ℚ) = (if negative then -1 else 1) * n := by
  cases negative <;> simp [signed]

/-! ### Numbers that are integers -/

theorem dvd_of_value {negative : Bool} {m j : Nat} {k : Int}
    (h : (if negative then -1 else 1) * (m * 2 ^ (-j : ℤ)) = (k : ℚ)) : 2 ^ j ∣ m := by
  have hm : ((m : ℤ) : ℚ) = ((if negative then -k else k) * 2 ^ j : ℤ) := by
    have hone : (2 : ℚ) ^ (-j : ℤ) * 2 ^ (j : ℤ) = 1 := by
      rw [← zpow_add₀ two_ne_zero, neg_add_cancel, zpow_zero]
    rw [zpow_natCast] at hone
    push_cast
    cases negative with
    | false =>
      simp only [Bool.false_eq_true, if_false, one_mul] at h ⊢
      rw [← h, mul_assoc, hone, mul_one]
    | true =>
      simp only [if_true, neg_one_mul] at h ⊢
      rw [← h, neg_neg, mul_assoc, hone, mul_one]
  rw [Int.cast_inj] at hm
  exact_mod_cast Dvd.intro_left _ hm.symm

theorem toInt?_finite_eq_some_iff {negative : Bool} {m : Nat} {q k : Int} :
    (Exact.finite negative m q).toInt? = some k ↔ (Exact.finite negative m q).value = k := by
  unfold Exact.toInt? Exact.value
  dsimp only
  by_cases hq : 0 ≤ q
  · obtain ⟨j, rfl⟩ := Int.eq_ofNat_of_zero_le hq
    rw [if_pos hq, Option.some_inj, ← Int.cast_inj (α := ℚ), signed_cast, Int.toNat_natCast,
      Nat.shiftLeft_eq, Nat.cast_mul, two_pow_cast]
  · obtain ⟨j, rfl⟩ : ∃ j : Nat, q = -j := ⟨q.natAbs, by omega⟩
    rw [if_neg hq, neg_neg, Int.toNat_natCast, Nat.one_shiftLeft, Nat.shiftRight_eq_div_pow]
    by_cases hdvd : 2 ^ j ∣ m
    · obtain ⟨n, rfl⟩ := hdvd
      have hvalue : ((2 ^ j * n : Nat) : ℚ) * 2 ^ (-j : ℤ) = n := by
        rw [Nat.cast_mul, two_pow_cast, mul_right_comm, ← zpow_add₀ two_ne_zero, add_neg_cancel,
          zpow_zero, one_mul]
      rw [if_pos (Nat.mul_mod_right _ _), Nat.mul_div_cancel_left _ (Nat.two_pow_pos j),
        Option.some_inj, ← Int.cast_inj (α := ℚ), signed_cast, hvalue]
    · rw [if_neg (mt Nat.dvd_of_mod_eq_zero hdvd)]
      exact iff_of_false (by simp) (mt dvd_of_value hdvd)

theorem toInt?_eq_some_iff {x : Float} {k : Int} :
    (exact x).toInt? = some k ↔ x.isFinite ∧ value x = k := by
  by_cases hx : x.isFinite
  · obtain ⟨negative, m, q, hexact⟩ := exists_exact hx
    rw [value, hexact, toInt?_finite_eq_some_iff, and_iff_right hx]
  · refine iff_of_false ?_ fun h => hx h.1
    rw [isFinite_eq] at hx
    rw [exact_eq]
    cases hu : unpacked x with
    | notANumber => simp [Exact.ofUnpacked, Exact.toInt?]
    | infinity s => simp [Exact.ofUnpacked, Exact.toInt?]
    | zero s => rw [hu] at hx; exact absurd rfl hx
    | finite s m e hm => rw [hu] at hx; exact absurd rfl hx

theorem exists_int_of_large {x : Float} (hx : x.isFinite) (hlarge : 2 ^ 53 ≤ value x) :
    ∃ k : ℤ, value x = k := by
  obtain ⟨negative, m, q, hexact⟩ := exists_exact hx
  have hcanonical := canonical_of_exact hexact
  rw [value, hexact, Exact.value] at hlarge ⊢
  have hq : 0 ≤ q := by
    by_contra hneg
    have hplace : (2 : ℚ) ^ q ≤ 1 := zpow_le_one_of_nonpos₀ (by norm_num) (by omega)
    have hm : (m : ℚ) < 2 ^ 53 := by exact_mod_cast hcanonical.lt
    have hsize : (m : ℚ) * 2 ^ q ≤ m := mul_le_of_le_one_right (Nat.cast_nonneg m) hplace
    have hpos : (0 : ℚ) ≤ m * 2 ^ q := mul_nonneg (Nat.cast_nonneg m) (two_zpow_pos q).le
    cases negative <;> simp only [if_true, Bool.false_eq_true, if_false] at hlarge <;> linarith
  obtain ⟨j, rfl⟩ := Int.eq_ofNat_of_zero_le hq
  refine ⟨signed negative (m * 2 ^ j), ?_⟩
  rw [signed_cast, Nat.cast_mul, two_pow_cast]

/-! ### Integers of more than 63 bits -/

theorem clamp_of_mem {low high n : Int} (hlow : low ≤ n) (hhigh : n ≤ high) :
    clamp low high n = n := by
  unfold clamp
  omega

theorem clamp_of_lt {low high n : Int} (h : low ≤ high) (hn : high < n) :
    clamp low high n = high := by
  unfold clamp
  omega

theorem normal_ofInt {n : Nat} (hlow : 2 ^ 63 ≤ n) (hhigh : n < 2 ^ 64) :
    ∃ r : Nat, 2 ^ 52 ≤ r ∧ Normal (r * 2 ^ (11 : ℤ)) (unpacked (Float.ofInt n)) := by
  have hform : Float.ofInt n = .ofModel (.pack (ofScientific binary64 n 0)) := by
    change Float.ofScientific n false 0 = _
    rw [Float.ofScientific, dif_neg (by omega)]
    rfl
  have hlog : (n * 2 ^ 53).log2 = 116 := by
    have hne : n * 2 ^ 53 ≠ 0 := by omega
    have hlower := (Nat.le_log2 hne).mpr (by omega : 2 ^ 116 ≤ n * 2 ^ 53)
    have hupper := (Nat.log2_lt hne).mpr (by omega : n * 2 ^ 53 < 2 ^ 117)
    omega
  have hdropped : dropped (n * 2 ^ 53) (-53) = 64 := by
    rw [dropped, hlog]
    decide
  have hbounds := rounded_bounds (n * 2 ^ 53) 64 .exact
  generalize hr :
    (ExtendedMantissa.ofMantissaAndAccuracy (n * 2 ^ 53) .exact >>> 64).roundedMantissa = r at hbounds
  have hnormal := normal_of_rounded hdropped hr (by omega) (by decide)
  refine ⟨r, by omega, ?_⟩
  rw [hform, ofScientific_whole (by omega), Nat.shiftLeft_eq, unpacked_pack hnormal]
  exact hnormal

/-- Rounding does not bring an integer of 64 bits below the first of them. -/
theorem exists_toInt?_ofInt {n : Int} (hlow : maxInt64 < n) (hhigh : n ≤ maxWord64) :
    ∃ k, (exact (Float.ofInt n)).toInt? = some k ∧ maxInt64 < k := by
  unfold maxInt64 maxWord64 at *
  obtain ⟨n, rfl⟩ := Int.eq_ofNat_of_zero_le (by omega : 0 ≤ n)
  obtain ⟨r, hr, hnormal⟩ := normal_ofInt (n := n) (by omega) (by omega)
  refine ⟨r * 2 ^ 11, toInt?_eq_some_iff.mpr ⟨hnormal.isFinite, ?_⟩, by omega⟩
  rw [hnormal.value_eq]
  push_cast
  rfl

/-! ### Texts that are integers -/

inductive DenotesInt : List Char → Int → Prop
  | plain {ds : List Char} (hne : ds ≠ []) (hds : Digits ds) :
    DenotesInt ds (Nat.ofDigitChars 10 ds 0)
  | plus {ds : List Char} (hne : ds ≠ []) (hds : Digits ds) :
    DenotesInt ('+' :: ds) (Nat.ofDigitChars 10 ds 0)
  | minus {ds : List Char} (hne : ds ≠ []) (hds : Digits ds) :
    DenotesInt ('-' :: ds) (-(Nat.ofDigitChars 10 ds 0 : Int))

theorem mapM_digit? {cs : List Char} {ds : List Nat} :
    cs.mapM digit? = some ds ↔ Digits cs ∧ cs.filterMap digit? = ds := by
  induction cs generalizing ds with
  | nil => simp [Digits]
  | cons c cs ih =>
    cases hc : digit? c with
    | none =>
      have hnot : ¬ Digits (c :: cs) := fun h => by
        have hdigit := h c List.mem_cons_self
        rw [isDigit, hc] at hdigit
        cases hdigit
      simp [hc, hnot]
    | some n =>
      have hdigit : isDigit c := by rw [isDigit, hc]; rfl
      have hdigits : Digits (c :: cs) ↔ Digits cs := by simp [Digits, hdigit]
      rw [List.mapM_cons, hc, hdigits, List.filterMap_cons_some hc]
      cases hcs : cs.mapM digit? with
      | none =>
        refine iff_of_false (by simp) fun h => ?_
        rw [ih.mpr ⟨h.1, rfl⟩] at hcs
        cases hcs
      | some ns =>
        obtain ⟨hds, rfl⟩ := ih.mp hcs
        simp [hds]

theorem readNat?_eq_some_iff {cs : List Char} {n : Nat} :
    readNat? cs = some n ↔ cs ≠ [] ∧ Digits cs ∧ Nat.ofDigitChars 10 cs 0 = n := by
  cases cs with
  | nil => simp [readNat?]
  | cons c cs =>
    rw [readNat?, if_neg (by simp), Option.map_eq_some_iff, and_iff_right (List.cons_ne_nil c cs)]
    constructor
    · rintro ⟨ds, hds, rfl⟩
      obtain ⟨hdigits, rfl⟩ := mapM_digit?.mp hds
      exact ⟨hdigits, (digitsValue_filterMap hdigits).symm⟩
    · rintro ⟨hdigits, rfl⟩
      exact ⟨_, mapM_digit?.mpr ⟨hdigits, rfl⟩, digitsValue_filterMap hdigits⟩

theorem Digits.ne_sign {c : Char} {cs : List Char} (h : Digits (c :: cs)) : c ≠ '+' ∧ c ≠ '-' := by
  have hc := h c List.mem_cons_self
  constructor <;> rintro rfl <;> cases hc

theorem DenotesInt.eq_of_digits {cs : List Char} {n : Int} (h : DenotesInt cs n)
    (hcs : Digits cs) : n = Nat.ofDigitChars 10 cs 0 := by
  cases h with
  | plain => rfl
  | plus => exact absurd rfl hcs.ne_sign.1
  | minus => exact absurd rfl hcs.ne_sign.2

theorem DenotesInt.unique {cs : List Char} {m n : Int} (hm : DenotesInt cs m)
    (hn : DenotesInt cs n) : m = n := by
  cases hm with
  | plain hne hds => exact (hn.eq_of_digits hds).symm
  | plus =>
    cases hn with
    | plain _ hds => exact absurd rfl hds.ne_sign.1
    | plus => rfl
  | minus =>
    cases hn with
    | plain _ hds => exact absurd rfl hds.ne_sign.2
    | minus => rfl

theorem DenotesInt.exists_digit {cs : List Char} {n : Int} (h : DenotesInt cs n) :
    ∃ c ∈ cs, isDigit c := by
  cases h with
  | plain hne hds =>
    obtain ⟨c, hc⟩ := List.exists_mem_of_ne_nil _ hne
    exact ⟨c, hc, hds c hc⟩
  | plus hne hds =>
    obtain ⟨c, hc⟩ := List.exists_mem_of_ne_nil _ hne
    exact ⟨c, List.mem_cons_of_mem _ hc, hds c hc⟩
  | minus hne hds =>
    obtain ⟨c, hc⟩ := List.exists_mem_of_ne_nil _ hne
    exact ⟨c, List.mem_cons_of_mem _ hc, hds c hc⟩

theorem readInt64?_eq_some_iff {s : String} {n : Int} :
    readInt64? s = some n ↔ DenotesInt s.toList n ∧ minInt64 ≤ n ∧ n ≤ maxInt64 := by
  have hread : ∀ negative cs, (do
      let n := signed negative (← readNat? cs)
      if minInt64 ≤ n ∧ n ≤ maxInt64 then some n else none) = some n ↔
      (∃ m, (cs ≠ [] ∧ Digits cs ∧ Nat.ofDigitChars 10 cs 0 = m) ∧ signed negative m = n) ∧
        minInt64 ≤ n ∧ n ≤ maxInt64 := by
    intro negative cs
    simp only [← readNat?_eq_some_iff]
    cases readNat? cs with
    | none => simp
    | some m =>
      simp only [Option.bind_eq_bind, Option.bind_some, Option.ite_none_right_eq_some,
        Option.some_inj, exists_eq_left']
      rw [and_comm]
      exact and_congr_right fun h => by rw [h]
  unfold readInt64?
  dsimp only
  split
  · rename_i hs
    rw [hs, hread]
    refine and_congr_left fun _ => ⟨?_, fun h => ?_⟩
    · rintro ⟨m, ⟨hne, hds, rfl⟩, rfl⟩
      exact .plus hne hds
    · cases h with
      | plain _ hds => exact absurd rfl hds.ne_sign.1
      | plus hne hds => exact ⟨_, ⟨hne, hds, rfl⟩, rfl⟩
  · rename_i hs
    rw [hs, hread]
    refine and_congr_left fun _ => ⟨?_, fun h => ?_⟩
    · rintro ⟨m, ⟨hne, hds, rfl⟩, rfl⟩
      exact .minus hne hds
    · cases h with
      | plain _ hds => exact absurd rfl hds.ne_sign.2
      | minus hne hds => exact ⟨_, ⟨hne, hds, rfl⟩, rfl⟩
  · rename_i hplus hminus
    rw [hread]
    refine and_congr_left fun _ => ⟨?_, fun h => ?_⟩
    · rintro ⟨m, ⟨hne, hds, rfl⟩, rfl⟩
      exact .plain hne hds
    · generalize s.toList = cs at *
      cases h with
      | plain hne hds => exact ⟨_, ⟨hne, hds, rfl⟩, rfl⟩
      | plus => exact absurd rfl (hplus _)
      | minus => exact absurd rfl (hminus _)

end Number
end ClockTree
