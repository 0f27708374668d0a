import ClockTree.Proofs.Number.Nearness

/-!
# Rounded sums and exact sums

Rounding does not pass a number: the rounded result is no more than any number that the exact one is
no more than. So what lies below a rounded sum lies below the exact sum, and a valid wave is valid
also in exact arithmetic.
-/
namespace ClockTree
namespace Number
open Float.Model (UnpackedFloat Format)
open Float.Model.UnpackedFloat
open Float.Model.Format (binary64)

/-- A number lies on the grid of the numbers below it that fill their bits. -/
theorem Canonical.exists_multiple {n q : Nat} {f g : Int} (h : Canonical n f) (hq : 2 ^ 52 ≤ q)
    (hle : (q * 2 ^ g : ℚ) ≤ n * 2 ^ f) :
    ∃ k : Nat, (n * 2 ^ f : ℚ) = (n * 2 ^ k : Nat) * 2 ^ g := by
  have hgf : g ≤ f := by
    by_contra hfg
    have hq' : (2 ^ 52 : ℚ) ≤ q := by exact_mod_cast hq
    have hn : (n : ℚ) < 2 ^ 53 := by exact_mod_cast h.lt
    have hlt : (n * 2 ^ f : ℚ) < q * 2 ^ g := by
      calc (n * 2 ^ f : ℚ) < 2 ^ 53 * 2 ^ f := mul_lt_mul_of_pos_right hn (two_zpow_pos f)
        _ = 2 ^ 52 * 2 ^ (f + 1) := by rw [two_zpow_succ]; ring
        _ ≤ q * 2 ^ g :=
          mul_le_mul hq' (two_zpow_le (by omega)) (two_zpow_pos _).le (Nat.cast_nonneg q)
    exact absurd hle (not_le.mpr hlt)
  obtain ⟨k, rfl⟩ : ∃ k : Nat, f = g + k := ⟨(f - g).toNat, by omega⟩
  refine ⟨k, ?_⟩
  rw [Nat.cast_mul, two_pow_cast, zpow_add₀ two_ne_zero]
  ring

theorem rounded_of_multiple (q k : Nat) :
    (ExtendedMantissa.ofMantissaAndAccuracy (q * 2 ^ k) .exact >>> k).roundedMantissa = q := by
  have hshift := shiftRight_shiftLeft q 0 k
  rw [Nat.zero_add, Nat.shiftLeft_zero, Nat.shiftLeft_eq] at hshift
  exact congrArg ExtendedMantissa.roundedMantissa hshift

theorem round_le {m n : Nat} {e f : Int} (hm : 0 < m) (hleast : leastExponent ≤ e)
    (hplace : 52 ≤ m.log2 ∨ e = leastExponent) (h : Canonical n f)
    (hle : (m * 2 ^ e : ℚ) ≤ n * 2 ^ f) :
    ∃ r g, ∃ hr : 0 < r, roundWithAccuracy binary64 .positive m e .exact = .finite .positive r g hr ∧
      Canonical r g ∧ (r * 2 ^ g : ℚ) ≤ n * 2 ^ f := by
  by_cases hlog : 52 ≤ m.log2
  · obtain ⟨k, hk⟩ := Nat.exists_eq_add_of_le hlog
    have hdropped : dropped m e = k := by
      unfold dropped leastExponent at *
      omega
    have hkept := kept_bounds hm.ne' hk
    have hrounded := rounded_bounds m k .exact
    obtain ⟨i, hi⟩ := h.exists_multiple hkept.1 ((shifted_bounds m k e).1.trans hle)
    have hmultiple : m ≤ n * 2 ^ i * 2 ^ k := by
      rw [hi, zpow_add₀ two_ne_zero, mul_comm (2 ^ e : ℚ), ← mul_assoc,
        mul_le_mul_iff_of_pos_right (two_zpow_pos e), ← two_pow_cast] at hle
      exact_mod_cast hle
    generalize n * 2 ^ i = multiple at hi hmultiple
    generalize hr : (ExtendedMantissa.ofMantissaAndAccuracy m .exact >>> k).roundedMantissa = r
      at hrounded
    have hrle : r ≤ multiple := by
      obtain hlt | hge := Nat.lt_or_ge (m / 2 ^ k) multiple
      · omega
      · -- no bits are lost
        have hfloor := (Nat.mul_le_mul_right (2 ^ k) hge).trans (Nat.div_mul_le_self m _)
        rw [← hr, le_antisymm hmultiple hfloor, rounded_of_multiple]
    obtain ⟨s, g, hs, hform, hmantissa, hexponent, hvalue⟩ :=
      exists_rounded hdropped hr (by omega) (by omega)
    refine ⟨s, g, hs, hform, ⟨hmantissa.2, by omega, Or.inr hmantissa.1⟩, ?_⟩
    rw [hvalue, hi]
    exact mul_le_mul_of_nonneg_right (by exact_mod_cast hrle) (two_zpow_pos _).le
  · have he := hplace.resolve_left hlog
    have hlt : m < 2 ^ 52 := (Nat.log2_lt hm.ne').mp (Nat.lt_of_not_le hlog)
    have hnone : dropped m e = 0 := by
      unfold dropped leastExponent at *
      omega
    have hagain : dropped m (e + (0 : Nat)) = 0 := by rw [Nat.cast_zero, add_zero, hnone]
    refine ⟨_, _, _, roundWithAccuracy_eq (r := m) hnone rfl hagain (by omega), ?_⟩
    rw [pow_zero, Nat.div_one, Nat.cast_zero, add_zero, add_zero]
    exact ⟨⟨by omega, hleast, Or.inl he⟩, hle⟩

theorem normalize_le {m n : Nat} {e f : Int} {s : Sign} (hm : 0 < m) (hleast : leastExponent ≤ e)
    (h : Canonical n f) (hle : (m * 2 ^ e : ℚ) ≤ n * 2 ^ f) :
    ∃ r g, ∃ hr : 0 < r, UnpackedFloat.normalize binary64 m e s = .finite .positive r g hr ∧
      Canonical r g ∧ (r * 2 ^ g : ℚ) ≤ n * 2 ^ f := by
  rw [normalize_eq hm]
  dsimp only
  generalize hshift : (e - max (m.log2 + e - 52) (-1074)).toNat = shift
  have hlog := log2_shiftLeft hm.ne' shift
  have hpos : 0 < m <<< shift := by
    rw [Nat.shiftLeft_eq]
    exact Nat.mul_pos hm (Nat.two_pow_pos shift)
  have hvalue : ((m <<< shift : Nat) : ℚ) * 2 ^ (e - shift) = m * 2 ^ e := by
    rw [Nat.shiftLeft_eq, Nat.cast_mul, two_pow_cast, mul_assoc, ← zpow_add₀ two_ne_zero,
      add_sub_cancel]
  unfold leastExponent at hleast
  refine round_le hpos ?_ ?_ h (hvalue.trans_le hle)
  · unfold leastExponent
    omega
  · unfold leastExponent
    omega

theorem add_le {u v : UnpackedFloat} {a b : ℚ} {n : Nat} {f : Int} (hu : Stands u a)
    (hv : Stands v b) (ha : 0 ≤ a) (hb : 0 < b) (h : Canonical n f) (hle : a + b ≤ n * 2 ^ f) :
    ∃ r g, ∃ hr : 0 < r, add binary64 u v = .finite .positive r g hr ∧ Canonical r g ∧
      (r * 2 ^ g : ℚ) ≤ n * 2 ^ f := by
  cases hv with
  | zero s => exact absurd hb (lt_irrefl 0)
  | negative hk _ => exact absurd hb (not_lt.mpr (neg_lt_zero.mpr (magnitude_pos hk _)).le)
  | @positive k g hk hcanonical =>
    cases hu with
    | zero s =>
      rw [zero_add] at hle
      exact ⟨k, g, hk, rfl, hcanonical, hle⟩
    | negative hm _ => exact absurd ha (not_le.mpr (neg_lt_zero.mpr (magnitude_pos hm _)))
    | @positive m e hm hcanonical' =>
      obtain ⟨sum, hsum, hvalue, hadd⟩ := exists_sum (e := e) (f := g) hm hk
      rw [hadd]
      exact normalize_le (by omega) (le_min hcanonical'.least hcanonical.least) h
        (hvalue.trans_le hle)

theorem value_lt_of_lt_add {x y z : Float} (hx : x.isFinite) (hy : y.isFinite) (hz : z.isFinite)
    (hxnonneg : 0 ≤ value x) (hypos : 0 < value y) (h : z < x + y) :
    value z < value x + value y := by
  by_contra hle
  rw [not_lt] at hle
  have hzpos : 0 < value z := (add_pos_of_nonneg_of_pos hxnonneg hypos).trans_le hle
  obtain ⟨n, f, hn, hform⟩ := exists_positive hz hzpos
  have hexact := exact_eq z
  rw [hform] at hexact
  have hcanonical := canonical_of_exact hexact
  rw [value_of_unpacked hform] at hle
  obtain ⟨r, g, hr, hadd, hsum, hrle⟩ :=
    add_le (stands_value hx) (stands_value hy) hxnonneg hypos hcanonical hle
  have hlast : g ≤ 971 := by
    by_contra hlast
    have hf := (exact_bounds hexact).2
    exact absurd hrle (not_le.mpr (hcanonical.value_lt hsum (by omega)))
  have hunpacked : unpacked (x + y) = .finite .positive r g hr := by
    rw [add_eq, hadd, hsum.unpacked_pack hlast]
  rw [lt_iff_value hz (isFinite_of_unpacked hunpacked), value_of_unpacked hunpacked,
    value_of_unpacked hform] at h
  exact absurd hrle (not_le.mpr h)

instance : Scalar ℚ where
  less a b := a < b
  same a b := a == b
  modulo a b := a - b * ⌊a / b⌋
  ofInt n := n
  ofFloat := value
  isFinite _ := true

section
variable {a : ℚ}

theorem positive_iff : Scalar.positive a = true ↔ 0 < a := by
  simp [Scalar.positive, Scalar.less, Scalar.zero, Scalar.ofInt]

theorem atMost_zero_iff : Scalar.atMost a Scalar.zero = true ↔ a ≤ 0 := by
  simp [Scalar.atMost, Scalar.less, Scalar.same, Scalar.zero, Scalar.ofInt, le_iff_lt_or_eq]

theorem less_one_iff : Scalar.less a Scalar.one = true ↔ a < 1 := by
  simp [Scalar.less, Scalar.one, Scalar.ofInt]

theorem same_one_iff : Scalar.same a Scalar.one = true ↔ a = 1 := by
  simp [Scalar.same, Scalar.one, Scalar.ofInt]

end

end Number

namespace Wave
open Number

def values (w : Wave Float) : Wave ℚ := ⟨value w.period, value w.rise, value w.fall⟩

theorem valid_rat_iff {w : Wave ℚ} : w.Valid ↔
    0 < w.period ∧ (0 ≤ w.rise ∧ w.rise < w.period) ∧
      w.rise < w.fall ∧ w.fall < w.rise + w.period := by
  unfold Valid fault?
  rw [none_iff_of_checks]
  simp only [Scalar.positive, Scalar.atMost, Scalar.zero, Scalar.less, Scalar.same, Scalar.isFinite,
    Scalar.ofInt, Int.cast_zero, Bool.true_and, Bool.and_eq_true, Bool.or_eq_true, beq_iff_eq,
    decide_eq_true_eq, le_iff_lt_or_eq]

theorem Valid.values {w : Wave Float} (h : w.Valid) : w.values.Valid := by
  obtain ⟨hperiod, hrise, hfall⟩ := h.finite
  obtain ⟨hpos, ⟨hzero, hbefore⟩, hafter, hlast⟩ := (valid_iff_value hperiod hrise hfall).mp h
  exact valid_rat_iff.mpr ⟨hpos, ⟨hzero, hbefore⟩, hafter,
    value_lt_of_lt_add hrise hperiod hfall hzero hpos hlast⟩

end Wave
end ClockTree
