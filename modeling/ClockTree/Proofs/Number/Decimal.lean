import ClockTree.Proofs.Number.Rounding
import ClockTree.Proofs.Number.Trimmed
import Mathlib.Data.List.DropRight

/-!
# Written numbers are read as finite numbers

A finite number is written as digits before the point and digits after it, of which the last is no
zero. Its digits are those of the number in units of the last written place, and with these bounds
what is read is finite, although it may differ from what was written.
-/
namespace ClockTree.Number

def Digits (cs : List Char) : Prop := ∀ c ∈ cs, isDigit c

def decimalText (whole fraction : List Char) : List Char :=
  whole ++ if fraction = [] then [] else '.' :: fraction

/-! ### Reading digits -/

theorem isDigit_iff {c : Char} : isDigit c ↔ 48 ≤ c.toNat ∧ c.toNat ≤ 57 := by
  have hbounds : ('0' ≤ c ∧ c ≤ '9') ↔ 48 ≤ c.toNat ∧ c.toNat ≤ 57 := Iff.rfl
  unfold isDigit digit?
  split <;> simp_all

theorem digit?_eq {c : Char} (h : isDigit c) : digit? c = some (c.toNat - '0'.toNat) := by
  obtain ⟨hlow, hhigh⟩ := isDigit_iff.mp h
  exact if_pos ⟨hlow, hhigh⟩

theorem mem_digits {c : Char} (h : isDigit c) : c ∈ "0123456789".toList := by
  obtain ⟨hlow, hhigh⟩ := isDigit_iff.mp h
  have hall : ∀ n < 58, 48 ≤ n → Char.ofNat n ∈ "0123456789".toList := by decide
  rw [← Char.ofNat_toNat c]
  exact hall c.toNat (by omega) hlow

theorem Digits.append {cs ds : List Char} : Digits (cs ++ ds) ↔ Digits cs ∧ Digits ds :=
  List.forall_mem_append

theorem digitsValue_filterMap {base : Nat} {cs : List Char} (h : Digits cs) :
    digitsValue base (cs.filterMap digit?) = Nat.ofDigitChars base cs 0 := by
  unfold digitsValue
  rw [Nat.ofDigitChars_eq_foldl]
  generalize 0 = n
  induction cs generalizing n with
  | nil => rfl
  | cons c cs ih =>
    obtain ⟨hc, hcs⟩ := List.forall_mem_cons.mp h
    rw [List.filterMap_cons_some (digit?_eq hc), List.foldl_cons, List.foldl_cons, ih hcs]

theorem spanDigits_append {cs : List Char} (rest : List Char) (h : Digits cs)
    (hrest : ∀ c ∈ rest.head?, isDigit c = false) :
    spanDigits (cs ++ rest) = (cs.filterMap digit?, rest) := by
  have hspan : ∀ cs : List Char, Digits cs →
      (cs ++ rest).takeWhile isDigit = cs ∧ (cs ++ rest).dropWhile isDigit = rest := by
    intro cs h
    induction cs with
    | nil =>
      cases rest with
      | nil => exact ⟨rfl, rfl⟩
      | cons c rest =>
        have hc := hrest c rfl
        simp [hc]
    | cons c cs ih =>
      obtain ⟨hc, hcs⟩ := List.forall_mem_cons.mp h
      simp [hc, ih hcs]
  obtain ⟨htake, hdrop⟩ := hspan cs h
  rw [spanDigits, htake, hdrop]

theorem spanDigits_decimalText {whole fraction : List Char} (hwhole : Digits whole)
    (hfraction : Digits fraction) :
    spanDigits (decimalText whole fraction) = (whole.filterMap digit?, []) ∧ fraction = [] ∨
      spanDigits (decimalText whole fraction) = (whole.filterMap digit?, '.' :: fraction) ∧
        spanDigits fraction = (fraction.filterMap digit?, []) := by
  unfold decimalText
  by_cases hempty : fraction = []
  · rw [if_pos hempty]
    exact Or.inl ⟨spanDigits_append [] hwhole (by simp), hempty⟩
  · have hrest := spanDigits_append [] hfraction (by simp)
    have hpoint : ∀ b ∈ ('.' :: fraction).head?, isDigit b = false := fun b hb => by
      obtain rfl := Option.some.inj hb
      decide
    rw [List.append_nil] at hrest
    rw [if_neg hempty]
    exact Or.inr ⟨spanDigits_append _ hwhole hpoint, hrest⟩

theorem digitsValue_append {whole fraction : List Char} (hwhole : Digits whole)
    (hfraction : Digits fraction) :
    digitsValue 10 (whole.filterMap digit? ++ fraction.filterMap digit?) =
      Nat.ofDigitChars 10 (whole ++ fraction) 0 := by
  rw [← List.filterMap_append, digitsValue_filterMap (Digits.append.mpr ⟨hwhole, hfraction⟩)]

theorem Digits.length_filterMap {cs : List Char} (h : Digits cs) :
    (cs.filterMap digit?).length = cs.length :=
  List.filterMap_length_eq_length.mpr h

theorem readMagnitude?_decimalText {whole fraction : List Char} (hwhole : Digits whole)
    (hne : whole ≠ []) (hfraction : Digits fraction) :
    readMagnitude? (decimalText whole fraction) =
      some (nearest (Nat.ofDigitChars 10 (whole ++ fraction) 0) (-fraction.length)) := by
  obtain ⟨c, cs, rfl⟩ := List.exists_cons_of_ne_nil hne
  have hlower : c.toLower ≠ 'i' ∧ c.toLower ≠ 'n' := by
    have hall : "0123456789".toList.all fun c => c.toLower ≠ 'i' ∧ c.toLower ≠ 'n' := by decide
    exact of_decide_eq_true
      (List.all_eq_true.mp hall c (mem_digits (hwhole c List.mem_cons_self)))
  -- the words for what is not finite begin with letters
  have hword : ∀ w : String, w.toList.head? = some 'i' ∨ w.toList.head? = some 'n' →
      String.ofList ((decimalText (c :: cs) fraction).map Char.toLower) ≠ w := by
    rintro w hw rfl
    simp [decimalText, hlower] at hw
  unfold readMagnitude?
  split <;> rename_i hlist
  · exact absurd hlist (hword _ (by decide))
  · exact absurd hlist (hword _ (by decide))
  · exact absurd hlist (hword _ (by decide))
  · have hsome : ((c :: cs).filterMap digit?).isEmpty = false := by
      rw [List.filterMap_cons_some (digit?_eq (hwhole c List.mem_cons_self))]
      rfl
    have hnearest : some (nearest (digitsValue 10 ((c :: cs).filterMap digit? ++
        fraction.filterMap digit?)) (0 - (fraction.filterMap digit?).length)) =
        some (nearest (Nat.ofDigitChars 10 (c :: cs ++ fraction) 0) (-fraction.length)) := by
      rw [digitsValue_append hwhole hfraction, hfraction.length_filterMap, Int.zero_sub]
    rw [← hnearest]
    obtain ⟨hspan, rfl⟩ | ⟨hspan, hrest⟩ := spanDigits_decimalText hwhole hfraction
    · simp only [hspan, hsome]
      rfl
    · simp only [hspan, hrest, hsome]
      rfl

/-! ### Digits that are written -/

theorem digits_toDigits (n : Nat) : Digits (Nat.toDigits 10 n) := fun _ hc => by
  have hdigit := Nat.isDigit_of_mem_toDigits (by decide) (by decide) hc
  rw [Char.isDigit, Bool.and_eq_true, decide_eq_true_eq, decide_eq_true_eq] at hdigit
  exact isDigit_iff.mpr hdigit

theorem digits_replicate (n : Nat) : Digits (List.replicate n '0') := fun c hc => by
  rw [List.eq_of_mem_replicate hc]
  decide

theorem take_toDigits {n : Nat} (k : Nat) (h : 10 ^ k ≤ n) :
    (Nat.toDigits 10 n).take ((Nat.toDigits 10 n).length - k) = Nat.toDigits 10 (n / 10 ^ k) := by
  induction k generalizing n with
  | zero => simp
  | succ k ih =>
    have hpow : 10 ^ (k + 1) = 10 * 10 ^ k := Nat.pow_succ'
    have hpos : 0 < 10 ^ k := Nat.pow_pos (by decide)
    have hten : 10 ≤ n := by omega
    rw [Nat.toDigits_of_base_le (by decide) hten, List.length_append, List.length_singleton,
      Nat.add_sub_add_right, List.take_append_of_le_length (Nat.sub_le _ _), ih (by omega),
      Nat.div_div_eq_div_mul, hpow]

/-- Digits that are filled up in front to one more than the places: what stands before the places
has no zero too many. -/
theorem take_padded {places units : Nat} {padded : List Char}
    (h : List.replicate (places + 1 - (Nat.toDigits 10 units).length) '0' ++
      Nat.toDigits 10 units = padded) :
    padded.take (padded.length - places) = Nat.toDigits 10 (units / 10 ^ places) := by
  have hpos := Nat.length_toDigits_pos (b := 10) (n := units)
  by_cases hsmall : units < 10 ^ places
  · rw [Nat.div_eq_of_lt hsmall, Nat.toDigits_zero]
    obtain rfl | hplaces := Nat.eq_zero_or_pos places
    · obtain rfl : units = 0 := by omega
      rw [← h]
      rfl
    · have hle := (Nat.length_toDigits_le_iff (by decide) hplaces).mpr hsmall
      obtain ⟨zeros, hzeros⟩ : ∃ zeros, places + 1 - (Nat.toDigits 10 units).length = zeros + 1 :=
        ⟨places - (Nat.toDigits 10 units).length, by omega⟩
      rw [hzeros, List.replicate_succ, List.cons_append] at h
      have hlength := congrArg List.length h
      simp only [List.length_cons, List.length_append, List.length_replicate] at hlength
      rw [show padded.length - places = 1 by omega, ← h]
      rfl
  · have hlt : places < (Nat.toDigits 10 units).length := by
      obtain rfl | hplaces := Nat.eq_zero_or_pos places
      · exact hpos
      · exact Nat.lt_of_not_le (mt (Nat.length_toDigits_le_iff (by decide) hplaces).mp hsmall)
    rw [Nat.sub_eq_zero_of_le hlt, List.replicate_zero, List.nil_append] at h
    rw [← h, take_toDigits places (Nat.le_of_not_lt hsmall)]

theorem exists_pointText (places units : Nat) : ∃ fraction, Digits fraction ∧
    fraction.length = places ∧
    Nat.ofDigitChars 10 (Nat.toDigits 10 (units / 10 ^ places) ++ fraction) 0 = units ∧
    pointText places units = decimalText (Nat.toDigits 10 (units / 10 ^ places)) fraction := by
  unfold pointText
  dsimp only
  rw [Nat.toString_eq_repr, Nat.toList_repr]
  generalize hpadded : List.replicate (places + 1 - (Nat.toDigits 10 units).length) '0' ++
    Nat.toDigits 10 units = padded
  have hlength : places + 1 ≤ padded.length := by
    rw [← hpadded, List.length_append, List.length_replicate]
    omega
  have hdigits : Digits padded := hpadded ▸ Digits.append.mpr ⟨digits_replicate _, digits_toDigits _⟩
  have hvalue : Nat.ofDigitChars 10 padded 0 = units := by
    rw [← hpadded, Nat.ofDigitChars_append, Nat.ofDigitChars_replicate_zero, Nat.mul_zero,
      Nat.ofDigitChars_ten_toDigits]
  have hfraction : (padded.drop (padded.length - places)).length = places := by
    rw [List.length_drop]
    omega
  rw [← take_padded hpadded]
  refine ⟨padded.drop (padded.length - places), fun c hc => hdigits c (List.mem_of_mem_drop hc),
    hfraction, by rw [List.take_append_drop, hvalue], ?_⟩
  have hempty : padded.drop (padded.length - places) = [] ↔ places = 0 := by
    rw [← List.length_eq_zero_iff, hfraction]
  unfold decimalText
  by_cases hplaces : places = 0
  · rw [if_pos hplaces, if_pos (hempty.mpr hplaces), List.append_nil]
  · rw [if_neg hplaces, if_neg (mt hempty.mp hplaces)]

theorem rdropWhile_append {p : Char → Bool} {x : Char} (hx : p x = false) (cs ds : List Char) :
    (cs ++ x :: ds).rdropWhile p = cs ++ x :: ds.rdropWhile p := by
  induction ds using List.reverseRecOn with
  | nil => exact List.rdropWhile_concat_neg _ _ _ (by simp [hx])
  | append_singleton ds y ih =>
    have happend : cs ++ x :: (ds ++ [y]) = (cs ++ x :: ds) ++ [y] := by simp
    rw [happend]
    by_cases hy : p y
    · rw [List.rdropWhile_concat_pos _ _ _ hy, List.rdropWhile_concat_pos _ _ _ hy, ih]
    · rw [List.rdropWhile_concat_neg _ _ _ hy, List.rdropWhile_concat_neg _ _ _ hy, happend]

theorem Digits.rdropWhile_point {cs : List Char} (h : Digits cs) (hne : cs ≠ []) (sign : List Char) :
    (sign ++ cs).rdropWhile (· == '.') = sign ++ cs := by
  obtain ⟨ds, y, rfl⟩ := (List.eq_nil_or_concat' cs).resolve_left hne
  have hy : ¬ (y == '.') = true := fun hpoint => by
    have hdigit := h y (by simp)
    rw [beq_iff_eq.mp hpoint] at hdigit
    exact absurd hdigit (by decide)
  rw [← List.append_assoc]
  exact List.rdropWhile_concat_neg _ _ _ hy

theorem trimPlaces_decimalText {sign whole fraction : List Char} (hsign : '.' ∉ sign)
    (hne : whole ≠ []) (hwhole : Digits whole) (hfraction : Digits fraction) :
    trimPlaces (sign ++ decimalText whole fraction) =
      sign ++ decimalText whole (fraction.rdropWhile (· == '0')) := by
  have hpoint : ∀ {cs : List Char}, Digits cs → '.' ∉ cs := fun h hmem =>
    absurd (h '.' hmem) (by decide)
  unfold trimPlaces
  by_cases hempty : fraction = []
  · subst hempty
    have hnone : (sign ++ decimalText whole []).contains '.' = false := by
      simp [decimalText, hsign, hpoint hwhole]
    rw [hnone]
    rfl
  · have hsome : (sign ++ decimalText whole fraction).contains '.' = true := by
      simp [decimalText, hempty]
    have hzeros : dropEndWhile (· == '0') (sign ++ decimalText whole fraction) =
        sign ++ whole ++ '.' :: fraction.rdropWhile (· == '0') := by
      rw [decimalText, if_neg hempty, ← List.append_assoc]
      exact rdropWhile_append (by decide) _ _
    rw [hsome, if_pos rfl, hzeros]
    change List.rdropWhile _ _ = _
    by_cases hrest : fraction.rdropWhile (· == '0') = []
    · rw [hrest, List.rdropWhile_concat_pos _ _ _ (by decide), hwhole.rdropWhile_point hne,
        decimalText, if_pos rfl, List.append_nil]
    · have hdigits : Digits (fraction.rdropWhile (· == '0')) := fun c hc =>
        hfraction c ((List.rdropWhile_prefix _ _).subset hc)
      have hkept := hdigits.rdropWhile_point hrest (sign ++ whole ++ ['.'])
      rw [decimalText, if_neg hrest]
      simpa using hkept

theorem Digits.mod_ne {cs : List Char} (h : Digits cs) (hne : cs ≠ [])
    (hlast : cs.getLast? ≠ some '0') (n : Nat) : Nat.ofDigitChars 10 cs n % 10 ≠ 0 := by
  obtain ⟨ds, c, rfl⟩ := (List.eq_nil_or_concat' cs).resolve_left hne
  have hdigit := isDigit_iff.mp (h c (by simp))
  have hc : c.toNat ≠ '0'.toNat := fun hzero =>
    hlast (by rw [Char.toNat_inj.mp hzero, List.getLast?_concat])
  have hzero : '0'.toNat = 48 := rfl
  rw [Nat.ofDigitChars_append, Nat.ofDigitChars_cons, Nat.ofDigitChars_nil]
  omega

/-- The digits of a number in units of the last place, without the zeros at their end. -/
structure Trims (places units : Nat) (whole fraction : List Char) : Prop where
  eq_toDigits : whole = Nat.toDigits 10 (units / 10 ^ places)
  behind : Digits fraction
  value : ∃ zeros, fraction.length + zeros = places ∧
    10 ^ zeros * Nat.ofDigitChars 10 (whole ++ fraction) 0 = units
  last : fraction.getLast? ≠ some '0'

namespace Trims
variable {places units : Nat} {whole fraction : List Char}

theorem ne_nil (h : Trims places units whole fraction) : whole ≠ [] :=
  h.eq_toDigits ▸ Nat.toDigits_ne_nil

theorem before (h : Trims places units whole fraction) : Digits whole :=
  h.eq_toDigits ▸ digits_toDigits _

theorem mod_ne (h : Trims places units whole fraction) (hne : fraction ≠ []) :
    Nat.ofDigitChars 10 (whole ++ fraction) 0 % 10 ≠ 0 := by
  rw [Nat.ofDigitChars_append]
  exact h.behind.mod_ne hne h.last _

theorem text_eq_zero_iff (h : Trims places units whole fraction) :
    decimalText whole fraction = ['0'] ↔ units = 0 := by
  obtain ⟨zeros, -, hvalue⟩ := h.value
  constructor
  · intro htext
    obtain ⟨c, cs, hwhole⟩ := List.exists_cons_of_ne_nil h.ne_nil
    unfold decimalText at htext
    rw [hwhole, List.cons_append, List.cons_eq_cons, List.append_eq_nil_iff] at htext
    obtain ⟨rfl, rfl, hrest⟩ := htext
    obtain rfl : fraction = [] := by
      by_contra hne
      rw [if_neg hne] at hrest
      cases hrest
    rw [← hvalue, hwhole]
    rfl
  · rintro rfl
    have hnone : fraction = [] := by
      by_contra hne
      have hzero := (Nat.mul_eq_zero.mp hvalue).resolve_left (Nat.pow_pos (by decide)).ne'
      exact h.mod_ne hne (by rw [hzero])
    rw [hnone, h.eq_toDigits, Nat.zero_div, Nat.toDigits_zero]
    rfl

end Trims

theorem exists_trims (places units : Nat) : ∃ whole fraction, Trims places units whole fraction ∧
    ∀ sign : List Char, '.' ∉ sign →
      trimPlaces (sign ++ pointText places units) = sign ++ decimalText whole fraction := by
  obtain ⟨fraction, hfraction, hlength, hvalue, htext⟩ := exists_pointText places units
  have hsplit := List.rdropWhile_append_rtakeWhile (p := (· == '0')) (l := fraction)
  have hzeros : fraction.rtakeWhile (· == '0') =
      List.replicate (fraction.rtakeWhile (· == '0')).length '0' :=
    List.eq_replicate_of_mem fun c hc => by
      have hzero := List.mem_rtakeWhile_imp hc
      exact beq_iff_eq.mp hzero
  have hdigits : Digits (fraction.rdropWhile (· == '0')) := fun c hc =>
    hfraction c ((List.rdropWhile_prefix _ _).subset hc)
  refine ⟨_, fraction.rdropWhile (· == '0'), ⟨rfl, hdigits,
    ⟨(fraction.rtakeWhile (· == '0')).length, ?_, ?_⟩, fun hrest => ?_⟩, fun sign hsign => ?_⟩
  · rw [← List.length_append, hsplit, hlength]
  · rw [← Nat.ofDigitChars_replicate_zero, ← hzeros, ← Nat.ofDigitChars_append,
      List.append_assoc, hsplit, hvalue]
  · have hne : fraction.rdropWhile (· == '0') ≠ [] := fun hnil => by simp [hnil] at hrest
    rw [List.getLast?_eq_some_getLast hne, Option.some_inj] at hrest
    exact List.rdropWhile_last_not _ _ hne (beq_iff_eq.mpr hrest)
  · rw [htext]
    exact trimPlaces_decimalText hsign Nat.toDigits_ne_nil (digits_toDigits _) hfraction

/-! ### The value that is read -/

theorem halfEven_le (num den : Nat) : halfEven num den ≤ num + 1 := by
  have hdiv : num / den ≤ num := Nat.div_le_self num den
  unfold halfEven
  dsimp only
  split
  · omega
  · split
    · omega
    · omega

theorem halfEven_one (num : Nat) : halfEven num 1 = num := by
  simp [halfEven, Nat.mod_one]

theorem scaledUnits_whole (places m : Nat) {q : Int} (hq : 0 ≤ q) :
    scaledUnits places m q = (m <<< q.toNat) * 10 ^ places := by
  have hone : (1 <<< (-q).toNat) = 1 := by
    rw [Int.toNat_eq_zero.mpr (by omega), Nat.shiftLeft_zero]
  rw [scaledUnits, hone, halfEven_one, Nat.shiftLeft_eq, Nat.shiftLeft_eq, Nat.mul_right_comm]
  rfl

theorem scaledUnits_le (places : Nat) {m : Nat} {q : Int} (hm : m < 2 ^ 53) (hq : q < 0) :
    scaledUnits places m q ≤ 2 ^ 53 * 10 ^ places := by
  have hone : 0 < 10 ^ places := Nat.pow_pos (by decide)
  have hnum : (m * Nat.pow 10 places) <<< q.toNat = m * 10 ^ places := by
    rw [Int.toNat_eq_zero.mpr (by omega), Nat.shiftLeft_zero]
    rfl
  calc scaledUnits places m q ≤ m * 10 ^ places + 1 := by
        rw [scaledUnits, ← hnum]
        exact halfEven_le _ _
    _ ≤ m * 10 ^ places + 10 ^ places := Nat.add_le_add_left hone _
    _ = (m + 1) * 10 ^ places := (Nat.succ_mul m _).symm
    _ ≤ 2 ^ 53 * 10 ^ places := Nat.mul_le_mul_right _ hm

theorem nearest_eq {m places k : Nat} (hm : ¬ (m = 0 ∨ (toString m).length + -(places : Int) < -330))
    (hk : 0 < k ∧ k ≤ 330 + places) (hsize : m < 10 ^ k) : nearest m (-places) =
      if places = 0 then Float.ofScientific m false 0 else Float.ofScientific m true places := by
  have hlength : (toString m).length ≤ k := (Nat.length_repr_le_iff hk.1).mpr hsize
  unfold nearest
  dsimp only
  rw [if_neg hm, if_neg (by omega)]
  by_cases hplaces : places = 0
  · subst hplaces
    rfl
  · rw [if_pos (by omega), if_neg hplaces, Int.natAbs_neg, Int.natAbs_natCast]

theorem isFinite_nearest_of_lt {m : Nat} (places k : Nat) (hk : 0 < k ∧ k ≤ 330 + places)
    (hsize : m < 10 ^ k) (h : if places = 0 then (Float.ofScientific m false 0).isFinite
      else (Float.ofScientific m true places).isFinite) : (nearest m (-places)).isFinite := by
  by_cases hm : m = 0 ∨ (toString m).length + -(places : Int) < -330
  · rw [nearest, if_pos hm]
    decide +kernel
  · rw [nearest_eq hm hk hsize]
    split <;> rename_i hplaces
    · rwa [if_pos hplaces] at h
    · rwa [if_neg hplaces] at h

theorem isFinite_nearest_small {m places : Nat} (h : m ≤ 2 ^ 53 * 10 ^ places) :
    (nearest m (-places)).isFinite := by
  refine isFinite_nearest_of_lt places (16 + places) (by omega) ?_ ?_
  · calc m ≤ 2 ^ 53 * 10 ^ places := h
      _ < 10 ^ 16 * 10 ^ places :=
        Nat.mul_lt_mul_of_pos_right (by decide) (Nat.pow_pos (by decide))
      _ = 10 ^ (16 + places) := (Nat.pow_add 10 16 places).symm
  · split
    · rename_i hplaces
      subst hplaces
      obtain hlt | rfl := Nat.lt_or_eq_of_le (by simpa using h)
      · exact isFinite_whole (n := 0) hlt (by decide)
      · exact isFinite_whole (m := 1) (n := 53) (by decide) (by decide)
    · exact isFinite_places (by omega) h

theorem isFinite_nearest_whole {m n : Nat} (hm : m < 2 ^ 53) (hn : n ≤ 971) :
    (nearest (m <<< n) 0).isFinite := by
  have htens : ∀ k, (10 ^ 33) ^ k = 10 ^ (33 * k) := fun k => (Nat.pow_mul 10 33 k).symm
  refine isFinite_nearest_of_lt 0 (33 * 10) (by decide) ?_ (isFinite_whole hm hn)
  calc m <<< n = m * 2 ^ n := Nat.shiftLeft_eq m n
    _ < 2 ^ 53 * 2 ^ n := Nat.mul_lt_mul_of_pos_right hm (Nat.two_pow_pos n)
    _ = 2 ^ (53 + n) := (Nat.pow_add 2 53 n).symm
    _ ≤ 2 ^ (103 * 10) := Nat.pow_le_pow_right (by decide) (by omega)
    _ = (2 ^ 103) ^ 10 := Nat.pow_mul 2 103 10
    _ ≤ (10 ^ 33) ^ 10 := Nat.pow_le_pow_left (by decide) 10
    _ = 10 ^ (33 * 10) := htens 10

theorem Trims.isFinite {places m : Nat} {q : Int} {whole fraction : List Char} (hm : m < 2 ^ 53)
    (hq : q ≤ 971) (h : Trims places (scaledUnits places m q) whole fraction) :
    (nearest (Nat.ofDigitChars 10 (whole ++ fraction) 0) (-fraction.length)).isFinite := by
  obtain ⟨zeros, rfl, hvalue⟩ := h.value
  have hlast := h.mod_ne
  generalize Nat.ofDigitChars 10 (whole ++ fraction) 0 = value at hvalue hlast
  have hpow : 0 < 10 ^ zeros := Nat.pow_pos (by decide)
  obtain hq | hq' := Int.lt_or_le q 0
  · have hle := scaledUnits_le (fraction.length + zeros) hm hq
    rw [← hvalue, Nat.pow_add, ← Nat.mul_assoc, Nat.mul_comm (10 ^ zeros)] at hle
    exact isFinite_nearest_small (Nat.le_of_mul_le_mul_right hle hpow)
  · rw [scaledUnits_whole _ _ hq', Nat.pow_add, ← Nat.mul_assoc, Nat.mul_comm (10 ^ zeros)] at hvalue
    have hexact := Nat.eq_of_mul_eq_mul_right hpow hvalue
    -- a whole number has no places that are written
    have hnone : fraction = [] := by
      by_contra hsome
      obtain ⟨k, hk⟩ := Nat.exists_eq_succ_of_ne_zero (mt List.length_eq_zero_iff.mp hsome)
      refine hlast hsome ?_
      rw [hexact, hk, Nat.pow_succ, ← Nat.mul_assoc, Nat.mul_mod_left]
    subst hnone
    rw [hexact]
    simpa using isFinite_nearest_whole (n := q.toNat) hm (by omega)

theorem isFinite_neg {x : Float} (h : x.isFinite) : x.neg.isFinite := by
  have hneg : x.neg = .ofModel (.pack (unpacked x).neg) := rfl
  rw [hneg]
  refine isFinite_of_within ?_
  rw [isFinite_eq] at h
  have hexact := exact_eq x
  cases hx : unpacked x with
  | infinity s => rw [hx] at h; cases h
  | notANumber => rw [hx] at h; cases h
  | zero s => trivial
  | finite s m e hm =>
    rw [hx] at hexact
    exact (exact_bounds hexact).2

theorem exists_exact {x : Float} (h : x.isFinite) :
    ∃ negative m q, exact x = .finite negative m q := by
  rw [isFinite_eq] at h
  rw [exact_eq]
  cases hx : unpacked x with
  | infinity s => rw [hx] at h; cases h
  | notANumber => rw [hx] at h; cases h
  | zero s => exact ⟨_, _, _, rfl⟩
  | finite s m e hm => exact ⟨_, _, _, rfl⟩

theorem read?_of_digit {c : Char} (hc : isDigit c) (cs : List Char) :
    read? (String.ofList (c :: cs)) = readMagnitude? (c :: cs) := by
  have hplus : c ≠ '+' := by rintro rfl; exact absurd hc (by decide)
  have hminus : c ≠ '-' := by rintro rfl; exact absurd hc (by decide)
  rw [read?, String.toList_ofList]
  split
  · rename_i heq
    exact absurd (List.cons.inj heq).1 hplus
  · rename_i heq
    exact absurd (List.cons.inj heq).1 hminus
  · rfl

theorem Trims.read?_eq {places units : Nat} {whole fraction : List Char}
    (h : Trims places units whole fraction) : read? (String.ofList (decimalText whole fraction)) =
      some (nearest (Nat.ofDigitChars 10 (whole ++ fraction) 0) (-fraction.length)) := by
  have hread := readMagnitude?_decimalText h.before h.ne_nil h.behind
  obtain ⟨c, cs, rfl⟩ := List.exists_cons_of_ne_nil h.ne_nil
  exact (read?_of_digit (h.before c List.mem_cons_self) _).trans hread

theorem exists_text {x : Float} {negative : Bool} {m : Nat} {q : Int}
    (h : exact x = .finite negative m q) (places : Nat) :
    ∃ whole fraction, Trims places (scaledUnits places m q) whole fraction ∧
      trimmed places x = String.ofList
        ((if negative ∧ scaledUnits places m q ≠ 0 then ['-'] else []) ++
          decimalText whole fraction) := by
  obtain ⟨whole, fraction, htrims, htext⟩ := exists_trims places (scaledUnits places m q)
  have hzero := htrims.text_eq_zero_iff
  refine ⟨whole, fraction, htrims, ?_⟩
  unfold trimmed fixed
  rw [h]
  dsimp only
  rw [String.toList_ofList]
  cases negative with
  | false =>
    have hbody := htext [] (by simp)
    rw [List.nil_append, List.nil_append] at hbody
    obtain ⟨c, cs, rfl⟩ := List.exists_cons_of_ne_nil htrims.ne_nil
    have hc := htrims.before c List.mem_cons_self
    have hminus : decimalText (c :: cs) fraction ≠ ['-', '0'] := by
      intro htext
      obtain ⟨rfl, -⟩ := List.cons.inj htext
      exact absurd hc (by decide)
    simp [hbody, hminus]
  | true =>
    have hbody := htext ['-'] (by simp)
    rw [List.singleton_append] at hbody
    simp only [if_true, hbody, true_and, List.singleton_append, List.cons_eq_cons, hzero]
    by_cases hunits : scaledUnits places m q = 0
    · simp [hunits, hzero.mpr hunits]
    · simp [hunits]

theorem exists_trimmed {x : Float} {m : Nat} {q : Int} (h : exact x = .finite false m q)
    (places : Nat) : ∃ whole fraction, Trims places (scaledUnits places m q) whole fraction ∧
      trimmed places x = String.ofList (decimalText whole fraction) ∧
      read? (trimmed places x) =
        some (nearest (Nat.ofDigitChars 10 (whole ++ fraction) 0) (-fraction.length)) := by
  obtain ⟨whole, fraction, htrims, htext⟩ := exists_text h places
  rw [if_neg fun hneg => Bool.false_ne_true hneg.1, List.nil_append] at htext
  exact ⟨whole, fraction, htrims, htext, htext ▸ htrims.read?_eq⟩

theorem exists_read {x : Float} (h : x.isFinite) (places : Nat) :
    ∃ y, read? (trimmed places x) = some y ∧ y.isFinite := by
  obtain ⟨negative, m, q, hexact⟩ := exists_exact h
  obtain ⟨hm, hq⟩ := exact_bounds hexact
  obtain ⟨whole, fraction, htrims, htext⟩ := exists_text hexact places
  have hfinite := htrims.isFinite hm hq
  rw [htext]
  split
  · refine ⟨_, ?_, isFinite_neg hfinite⟩
    rw [read?, String.toList_ofList]
    simp only [List.singleton_append,
      readMagnitude?_decimalText htrims.before htrims.ne_nil htrims.behind]
    rfl
  · exact ⟨_, htrims.read?_eq, hfinite⟩

end ClockTree.Number
