import ClockTree.Proofs.Number.Nearness

/-!
# The decimals that are written

The text of a number stands for a decimal, apart from how it is read as a number again. This decimal
is the multiple of the last place nearest to the number, and of two that are equally near the even
one. Rounding keeps the order of numbers but may bring different ones together.
-/
namespace ClockTree.Number

def decimal? (s : String) : Option ℚ :=
  let (whole, rest) := spanDigits s.toList
  let (fraction, rest) := match rest with
    | '.' :: rest => spanDigits rest
    | rest => ([], rest)
  if rest.isEmpty && !whole.isEmpty then
    some (digitsValue 10 (whole ++ fraction) / 10 ^ fraction.length)
  else none

theorem decimal?_decimalText {whole fraction : List Char} (hwhole : Digits whole)
    (hne : whole ≠ []) (hfraction : Digits fraction) :
    decimal? (String.ofList (decimalText whole fraction)) =
      some ((Nat.ofDigitChars 10 (whole ++ fraction) 0 : ℚ) / 10 ^ fraction.length) := by
  have hsome : (whole.filterMap digit?).isEmpty = false := by
    obtain ⟨c, cs, rfl⟩ := List.exists_cons_of_ne_nil hne
    rw [List.filterMap_cons_some (digit?_eq (hwhole c List.mem_cons_self))]
    rfl
  have hvalue := digitsValue_append hwhole hfraction
  unfold decimal?
  rw [String.toList_ofList]
  obtain ⟨hspan, rfl⟩ | ⟨hspan, hrest⟩ := spanDigits_decimalText hwhole hfraction
  · rw [List.filterMap_nil] at hvalue
    simp only [hspan, hsome, hvalue]
    rfl
  · simp only [hspan, hrest, hsome, hvalue, hfraction.length_filterMap]
    rfl

/-! ### Rounding to decimal places -/

/-- `u` is the multiple of `10 ^ (-places)` nearest to `t`, and of two that are equally near the even
one. -/
def RoundsTo (places : Nat) (t u : ℚ) : Prop :=
  ∃ n : ℤ, u = n / 10 ^ places ∧ |t * 10 ^ places - n| ≤ 1 / 2 ∧
    (|t * 10 ^ places - n| = 1 / 2 → Even n)

theorem ten_pow_pos (places : Nat) : (0 : ℚ) < 10 ^ places := by positivity

theorem add_unit_le {places : Nat} {m n : ℤ} (h : (m / 10 ^ places : ℚ) < n / 10 ^ places) :
    (m / 10 ^ places + 1 / 10 ^ places : ℚ) ≤ n / 10 ^ places := by
  rw [div_lt_div_iff_of_pos_right (ten_pow_pos places), Int.cast_lt] at h
  rw [← add_div]
  refine div_le_div_of_nonneg_right ?_ (ten_pow_pos places).le
  exact_mod_cast h

namespace RoundsTo
variable {places : Nat} {s t u v : ℚ}

theorem zero (places : Nat) : RoundsTo places 0 0 := ⟨0, by simp, by norm_num, by norm_num⟩

theorem mono (h : RoundsTo places s u) (h' : RoundsTo places t v) (hst : s ≤ t) : u ≤ v := by
  obtain ⟨m, rfl, hm, hmeven⟩ := h
  obtain ⟨n, rfl, hn, hneven⟩ := h'
  have hscaled := mul_le_mul_of_nonneg_right hst (ten_pow_pos places).le
  refine div_le_div_of_nonneg_right ?_ (ten_pow_pos places).le
  by_contra hlt
  have hsucc : ((n : ℚ) + 1) ≤ m := by
    rw [not_le, Int.cast_lt] at hlt
    exact_mod_cast hlt
  have hmlow := (abs_le.mp hm).1
  have hnhigh := (abs_le.mp hn).2
  -- both numbers lie halfway between two neighbours, which are not both even
  have hmtie : s * 10 ^ places - m = -(1 / 2) := by linarith
  have hntie : t * 10 ^ places - n = 1 / 2 := by linarith
  have hm := hmeven (by rw [hmtie]; norm_num)
  have hn := hneven (by rw [hntie]; norm_num)
  have hnext : m = n + 1 := by
    have hcast : (m : ℚ) = n + 1 := by linarith
    exact_mod_cast hcast
  rw [hnext, Int.even_add_one] at hm
  exact hm hn

theorem unique (h : RoundsTo places t u) (h' : RoundsTo places t v) : u = v :=
  le_antisymm (h.mono h' le_rfl) (h'.mono h le_rfl)

theorem neg (h : RoundsTo places t u) : RoundsTo places (-t) (-u) := by
  obtain ⟨n, rfl, hdistance, htie⟩ := h
  have hflip : |-t * 10 ^ places - (-n : ℤ)| = |t * 10 ^ places - n| := by
    rw [← abs_neg, Int.cast_neg]
    congr 1
    ring
  exact ⟨-n, by push_cast; ring, hflip ▸ hdistance, fun h => even_neg.mpr (htie (hflip ▸ h))⟩

theorem nonneg (h : RoundsTo places t u) (ht : 0 ≤ t) : 0 ≤ u := (zero places).mono h ht

theorem abs_sub_le (h : RoundsTo places t u) : |t - u| ≤ 1 / 2 / 10 ^ places := by
  obtain ⟨n, rfl, hn, -⟩ := h
  have hpos := ten_pow_pos places
  have hscale : t - n / 10 ^ places = (t * 10 ^ places - n) / 10 ^ places := by field_simp
  rw [hscale, abs_div, abs_of_pos hpos]
  exact div_le_div_of_nonneg_right hn hpos.le

end RoundsTo

theorem halfEven_spec (num : Nat) {den : Nat} (hden : 0 < den) :
    |(num : ℚ) / den - halfEven num den| ≤ 1 / 2 ∧
      (|(num : ℚ) / den - halfEven num den| = 1 / 2 → Even (halfEven num den)) := by
  have hpos : (0 : ℚ) < den := by exact_mod_cast hden
  obtain ⟨part, hpart⟩ : ∃ part : ℚ, part = (num % den : Nat) / den := ⟨_, rfl⟩
  have hquotient : (num : ℚ) / den = (num / den : Nat) + part := by
    rw [hpart, div_eq_iff hpos.ne', add_mul, div_mul_cancel₀ _ hpos.ne']
    exact_mod_cast (Nat.div_add_mod' num den).symm
  have hnonneg : 0 ≤ part := by rw [hpart]; positivity
  have hlt : 2 * (num % den) < den ↔ 2 * part < 1 := by
    rw [hpart, mul_div_assoc', div_lt_one hpos]
    exact_mod_cast Iff.rfl
  have hgt : den < 2 * (num % den) ↔ 1 < 2 * part := by
    rw [hpart, mul_div_assoc', one_lt_div hpos]
    exact_mod_cast Iff.rfl
  have hone : part < 1 := by
    rw [hpart, div_lt_one hpos]
    exact_mod_cast Nat.mod_lt num hden
  rw [hquotient]
  unfold halfEven
  dsimp only
  rw [if_congr hlt rfl rfl, if_congr hgt rfl rfl]
  split <;> rename_i hlow
  · rw [add_sub_cancel_left, abs_of_nonneg hnonneg]
    exact ⟨by linarith, fun htie => by linarith⟩
  · split <;> rename_i hhigh
    · rw [Nat.cast_add_one, add_sub_add_left_eq_sub, abs_of_nonpos (by linarith)]
      exact ⟨by linarith, fun htie => by linarith⟩
    · -- halfway between two neighbours, of which the even one is taken
      obtain rfl : part = 1 / 2 := by linarith
      have heven : Even (num / den + num / den % 2) := by
        rw [Nat.even_iff]
        omega
      refine ⟨?_, fun _ => heven⟩
      rw [Nat.cast_add, add_sub_add_left_eq_sub]
      obtain hzero | hone := Nat.mod_two_eq_zero_or_one (num / den)
      · rw [hzero]
        norm_num
      · rw [hone]
        norm_num

theorem roundsTo_scaledUnits (places m : Nat) (q : Int) :
    RoundsTo places (m * 2 ^ q) (scaledUnits places m q / 10 ^ places) := by
  have hvalue : (m * 2 ^ q : ℚ) * (10 : ℚ) ^ places =
      (((m * Nat.pow 10 places) <<< q.toNat : Nat) : ℚ) / (1 <<< (-q).toNat : Nat) := by
    have hsplit : q = q.toNat - (-q).toNat := by omega
    have htens : ((Nat.pow 10 places : Nat) : ℚ) = 10 ^ places := by exact_mod_cast rfl
    conv_lhs => rw [hsplit, zpow_sub₀ two_ne_zero]
    rw [Nat.shiftLeft_eq, Nat.one_shiftLeft, Nat.cast_mul, Nat.cast_mul, htens, two_pow_cast,
      two_pow_cast]
    ring
  have hpos : 0 < 1 <<< (-q).toNat := by
    rw [Nat.one_shiftLeft]
    exact Nat.two_pow_pos _
  obtain ⟨hdistance, htie⟩ := halfEven_spec ((m * Nat.pow 10 places) <<< q.toNat) hpos
  rw [← hvalue] at hdistance htie
  exact ⟨scaledUnits places m q, by rw [Int.cast_natCast], by exact_mod_cast hdistance,
    fun h => (Int.even_coe_nat _).mpr (htie (by exact_mod_cast h))⟩

/-! ### Texts -/

theorem Trims.decimal {places units : Nat} {whole fraction : List Char}
    (h : Trims places units whole fraction) :
    (Nat.ofDigitChars 10 (whole ++ fraction) 0 : ℚ) / 10 ^ fraction.length = units / 10 ^ places := by
  obtain ⟨zeros, rfl, rfl⟩ := h.value
  rw [Nat.cast_mul, Nat.cast_pow, Nat.cast_ofNat, pow_add]
  field_simp

theorem approximates_decimal {digits behind places : Nat} (hbehind : behind ≤ places)
    (hplaces : places ≤ 22) (hsize : (digits / 10 ^ behind : ℚ) ≤ 2 ^ 50 / 10 ^ places) :
    Approximates (nearest digits (-behind)) (digits / 10 ^ behind) := by
  refine approximates_nearest ?_ (hbehind.trans hplaces)
  have hpow : (10 : ℚ) ^ behind ≤ 10 ^ places := pow_le_pow_right₀ (by norm_num) hbehind
  have hle : (digits : ℚ) ≤ 2 ^ 50 := by
    rw [div_le_div_iff₀ (ten_pow_pos behind) (ten_pow_pos places)] at hsize
    refine le_of_mul_le_mul_right (hsize.trans ?_) (ten_pow_pos places)
    exact mul_le_mul_of_nonneg_left hpow (by positivity)
  have hnat : digits ≤ 2 ^ 50 := by exact_mod_cast hle
  exact hnat.trans_lt (by decide)

theorem exists_decimal {x : Float} (hx : x.isFinite) (hnonneg : 0 ≤ value x) {places : Nat}
    (hplaces : places ≤ 22) :
    ∃ u y, decimal? (trimmed places x) = some u ∧ RoundsTo places (value x) u ∧
      read? (trimmed places x) = some y ∧ y.isFinite ∧
      (u ≤ 2 ^ 50 / 10 ^ places → Approximates y u) := by
  obtain ⟨y, hy, hfinite⟩ := exists_read hx places
  have hstands := stands_value hx
  have hexact := exact_eq x
  generalize hu : unpacked x = u at hstands hexact
  generalize value x = v at hstands hnonneg ⊢
  cases hstands with
  | zero s =>
    have hdecimal : decimal? "0" = some 0 := by decide +kernel
    have hread : read? "0" = some (nearest 0 (-(0 : Nat))) := rfl
    rw [trimmed_of_zero ⟨s, hu⟩] at hy ⊢
    obtain rfl := Option.some.inj (hread.symm.trans hy)
    refine ⟨0, _, hdecimal, .zero places, hy, hfinite, fun _ => ?_⟩
    simpa using approximates_nearest (n := 0) (k := 0) (by decide) (by decide)
  | @positive m q hm _ =>
    obtain ⟨whole, fraction, htrims, htext, hread⟩ := exists_trimmed hexact places
    have hdecimal := decimal?_decimalText htrims.before htrims.ne_nil htrims.behind
    obtain ⟨zeros, hbehind, -⟩ := htrims.value
    obtain rfl := Option.some.inj (hread.symm.trans hy)
    rw [← htext] at hdecimal
    refine ⟨_, _, hdecimal, ?_, hread, hfinite,
      approximates_decimal (Nat.le.intro hbehind) hplaces⟩
    rw [htrims.decimal]
    exact roundsTo_scaledUnits places m q
  | negative hm _ => exact absurd hnonneg (not_le.mpr (neg_lt_zero.mpr (magnitude_pos hm _)))

end ClockTree.Number
