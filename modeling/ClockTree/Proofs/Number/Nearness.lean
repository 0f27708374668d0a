import ClockTree.Proofs.Number.Decimal
import ClockTree.Proofs.Number.Value

/-!
# How near a rounded result is

A result that is rounded to 53 bits differs from the exact one by at most one unit of its last place,
so by no more than the exact one divided by `2 ^ 52`. This holds for sums, products and quotients of
numbers that fill their 53 bits, and so for a decimal with few digits that is read.
-/
namespace ClockTree
namespace Number
open Float.Model (UnpackedFloat Format totalExponent)
open Float.Model.UnpackedFloat
open Float.Model.Format (binary64)

/-- A positive number that fills its 53 bits, and its value. -/
def Normal (v : ℚ) : UnpackedFloat → Prop
  | .finite .positive m e _ =>
    (2 ^ 52 ≤ m ∧ m < 2 ^ 53) ∧ (leastExponent ≤ e ∧ e ≤ 971) ∧ m * 2 ^ e = v
  | _ => False

/-- The relative error is at most `2 ^ (-52)`. -/
def Near (v t : ℚ) : Prop := |v - t| * 2 ^ 52 ≤ t

theorem Near.refl {t : ℚ} (h : 0 ≤ t) : Near t t := by simpa [Near] using h

theorem Near.bounds {v t : ℚ} (h : Near v t) :
    t * (2 ^ 52 - 1) ≤ v * 2 ^ 52 ∧ v * 2 ^ 52 ≤ t * (2 ^ 52 + 1) := by
  have hlow := neg_abs_le (v - t)
  have hhigh := le_abs_self (v - t)
  unfold Near at h
  constructor <;> linarith

theorem Normal.exists_form {v : ℚ} {u : UnpackedFloat} (h : Normal v u) :
    ∃ m e, ∃ hm : 0 < m, u = .finite .positive m e hm ∧ (2 ^ 52 ≤ m ∧ m < 2 ^ 53) ∧
      (leastExponent ≤ e ∧ e ≤ 971) ∧ m * 2 ^ e = v := by
  cases u with
  | finite s m e hm =>
    cases s with
    | positive => exact ⟨m, e, hm, rfl, h⟩
    | negative => exact h.elim
  | infinity s => exact h.elim
  | notANumber => exact h.elim
  | zero s => exact h.elim

theorem log2_of_normal {m : Nat} (h : 2 ^ 52 ≤ m ∧ m < 2 ^ 53) : m.log2 = 52 := by
  have hm : m ≠ 0 := by omega
  have hlow := (Nat.le_log2 hm).mpr h.1
  have hhigh := (Nat.log2_lt hm).mpr h.2
  omega

theorem Normal.canonical {v : ℚ} {m : Nat} {e : Int} {hm : 0 < m}
    (h : Normal v (.finite .positive m e hm)) : Canonical m e :=
  ⟨h.1.2, h.2.1.1, Or.inr h.1.1⟩

theorem unpacked_pack {v : ℚ} {u : UnpackedFloat} (h : Normal v u) :
    unpacked (.ofModel (.pack u)) = u := by
  obtain ⟨m, e, hm, rfl, -, ⟨-, hlast⟩, -⟩ := h.exists_form
  exact h.canonical.unpacked_pack hlast

theorem Normal.isFinite {v : ℚ} {x : Float} (h : Normal v (unpacked x)) : x.isFinite := by
  obtain ⟨m, e, hm, hform, -⟩ := h.exists_form
  exact isFinite_of_unpacked hform

theorem Normal.value_eq {v : ℚ} {x : Float} (h : Normal v (unpacked x)) : value x = v := by
  obtain ⟨m, e, hm, hform, -, -, rfl⟩ := h.exists_form
  exact value_of_unpacked hform

/-! ### Rounding -/

/-- The result of rounding: `k` bits are dropped, and `j` more if the rest is rounded up to another
bit. -/
theorem roundWithAccuracy_eq {s : Sign} {m k j : Nat} {e : Int} {a : Accuracy} {r : Nat}
    (hk : dropped m e = k)
    (hr : (ExtendedMantissa.ofMantissaAndAccuracy m a >>> k).roundedMantissa = r)
    (hj : dropped r (e + k) = j) (hpos : 0 < r / 2 ^ j) :
    roundWithAccuracy binary64 s m e a = .finite s (r / 2 ^ j) (e + k + j) hpos := by
  have hmantissa : (ExtendedMantissa.ofMantissaAndAccuracy r .exact >>> j).mantissa = r / 2 ^ j := by
    rw [shiftRight_mantissa, mantissa_of_accuracy]
  unfold roundWithAccuracy
  rw [shiftToTargetExponent_eq]
  dsimp only
  rw [hk, hr, shiftToTargetExponent_eq, hj]
  simp only [hmantissa]
  rw [dif_neg hpos.ne']

theorem mantissa_le_rounded (em : ExtendedMantissa) : em.mantissa ≤ em.roundedMantissa := by
  obtain ⟨m, r, s⟩ := em
  cases r <;> cases s <;> simp only [ExtendedMantissa.roundedMantissa, ExtendedMantissa.accuracy,
    Accuracy.roundToNearestEven] <;> omega

theorem exists_rounded {m k r : Nat} {e : Int} {a : Accuracy} (hk : dropped m e = k)
    (hr : (ExtendedMantissa.ofMantissaAndAccuracy m a >>> k).roundedMantissa = r)
    (hfull : 2 ^ 52 ≤ r ∧ r ≤ 2 ^ 53) (he : leastExponent ≤ e + k) :
    ∃ n g, ∃ hn : 0 < n, roundWithAccuracy binary64 .positive m e a = .finite .positive n g hn ∧
      (2 ^ 52 ≤ n ∧ n < 2 ^ 53) ∧ (e + k ≤ g ∧ g ≤ e + k + 1) ∧
      (n * 2 ^ g : ℚ) = r * 2 ^ (e + k) := by
  unfold leastExponent at he
  obtain hlt | rfl : r < 2 ^ 53 ∨ r = 2 ^ 53 := by omega
  · have hnone : dropped r (e + k) = 0 := by
      unfold dropped
      rw [log2_of_normal ⟨hfull.1, hlt⟩]
      omega
    refine ⟨_, _, _, roundWithAccuracy_eq hk hr hnone (by omega), ?_⟩
    simp only [pow_zero, Nat.div_one, Nat.cast_zero, add_zero, and_true]
    omega
  · -- the carry moves the last place by one
    have hone : dropped (2 ^ 53) (e + k) = 1 := by
      unfold dropped
      rw [Nat.log2_two_pow]
      omega
    refine ⟨_, _, _, roundWithAccuracy_eq hk hr hone (by decide), by decide, by omega, ?_⟩
    rw [Nat.cast_one, two_zpow_succ]
    norm_num
    ring

theorem normal_of_rounded {m k r : Nat} {e : Int} {a : Accuracy} (hk : dropped m e = k)
    (hr : (ExtendedMantissa.ofMantissaAndAccuracy m a >>> k).roundedMantissa = r)
    (hfull : 2 ^ 52 ≤ r ∧ r ≤ 2 ^ 53) (he : leastExponent ≤ e + k ∧ e + k ≤ 970) :
    Normal (r * 2 ^ (e + k)) (roundWithAccuracy binary64 .positive m e a) := by
  obtain ⟨n, g, hn, hform, hmantissa, hexponent, hvalue⟩ := exists_rounded hk hr hfull he.1
  rw [hform]
  exact ⟨hmantissa, ⟨he.1.trans hexponent.1, by omega⟩, hvalue⟩

theorem normal_round_exact {m : Nat} {e : Int} (hm : 2 ^ 52 ≤ m ∧ m < 2 ^ 53)
    (he : leastExponent ≤ e ∧ e ≤ 970) :
    Normal (m * 2 ^ e) (roundWithAccuracy binary64 .positive m e .exact) := by
  have hk : dropped m e = 0 := by
    unfold dropped leastExponent at *
    rw [log2_of_normal hm]
    omega
  have hnormal := normal_of_rounded (r := m) (a := .exact) hk rfl ⟨hm.1, hm.2.le⟩ (by simpa using he)
  rwa [Nat.cast_zero, add_zero] at hnormal

theorem shifted_bounds (m k : Nat) (e : Int) :
    ((m / 2 ^ k : Nat) : ℚ) * 2 ^ (e + k) ≤ m * 2 ^ e ∧
      ((m : ℚ) + 1) * 2 ^ e ≤ ((m / 2 ^ k : Nat) + 1) * 2 ^ (e + k) := by
  have hfloor : m / 2 ^ k * 2 ^ k ≤ m := Nat.div_mul_le_self m _
  have hceil : m + 1 ≤ (m / 2 ^ k + 1) * 2 ^ k := by
    have hlt := Nat.lt_div_mul_add (a := m) (Nat.two_pow_pos k)
    rwa [Nat.add_mul, Nat.one_mul]
  have hsplit : (2 : ℚ) ^ (e + k) = 2 ^ k * 2 ^ e := by
    rw [zpow_add₀ two_ne_zero, zpow_natCast, mul_comm]
  have hplace := (two_zpow_pos e).le
  rw [hsplit, ← mul_assoc, ← mul_assoc]
  constructor <;> refine mul_le_mul_of_nonneg_right ?_ hplace
  · exact_mod_cast hfloor
  · exact_mod_cast hceil

theorem near_of_place {q r : Nat} {g : Int} {t : ℚ} (hq : 2 ^ 52 ≤ q) (hr : q ≤ r ∧ r ≤ q + 1)
    (hlow : q * 2 ^ g ≤ t) (hhigh : t ≤ (q + 1) * 2 ^ g) : Near (r * 2 ^ g) t := by
  have hplace := two_zpow_pos g
  have hq' : (2 ^ 52 : ℚ) ≤ q := by exact_mod_cast hq
  have hrlow : (q : ℚ) ≤ r := by exact_mod_cast hr.1
  have hrhigh : (r : ℚ) ≤ q + 1 := by exact_mod_cast hr.2
  have hdistance : |r * 2 ^ g - t| ≤ 2 ^ g := by
    rw [abs_le]
    constructor <;> nlinarith
  calc |r * 2 ^ g - t| * 2 ^ 52 ≤ 2 ^ g * 2 ^ 52 := by gcongr
    _ = 2 ^ 52 * 2 ^ g := mul_comm _ _
    _ ≤ q * 2 ^ g := by gcongr
    _ ≤ t := hlow

theorem kept_bounds {m k : Nat} (hm : m ≠ 0) (hk : m.log2 = 52 + k) :
    2 ^ 52 ≤ m / 2 ^ k ∧ m / 2 ^ k < 2 ^ 53 := by
  have hlow := Nat.log2_self_le hm
  have hhigh := Nat.lt_log2_self (n := m)
  rw [hk] at hlow hhigh
  rw [Nat.le_div_iff_mul_le (Nat.two_pow_pos k), Nat.div_lt_iff_lt_mul (Nat.two_pow_pos k),
    ← Nat.pow_add, ← Nat.pow_add, show 53 + k = 52 + k + 1 by omega]
  exact ⟨hlow, hhigh⟩

theorem rounded_bounds (m k : Nat) (a : Accuracy) :
    m / 2 ^ k ≤ (ExtendedMantissa.ofMantissaAndAccuracy m a >>> k).roundedMantissa ∧
      (ExtendedMantissa.ofMantissaAndAccuracy m a >>> k).roundedMantissa ≤ m / 2 ^ k + 1 := by
  have hle := mantissa_le_rounded (ExtendedMantissa.ofMantissaAndAccuracy m a >>> k)
  have hge := roundedMantissa_le (ExtendedMantissa.ofMantissaAndAccuracy m a >>> k)
  rw [shiftRight_mantissa, mantissa_of_accuracy] at hle hge
  exact ⟨hle, hge⟩

theorem normal_round {m : Nat} {e : Int} {t : ℚ} (a : Accuracy) (hm : 2 ^ 52 ≤ m)
    (hlow : m * 2 ^ e ≤ t) (hhigh : t ≤ (m + 1) * 2 ^ e) (hsmall : 2 ^ (-200 : ℤ) ≤ t)
    (hlarge : t ≤ 2 ^ (200 : ℤ)) :
    ∃ v, Normal v (roundWithAccuracy binary64 .positive m e a) ∧ Near v t := by
  have hne : m ≠ 0 := by omega
  have hlog : 52 ≤ m.log2 := (Nat.le_log2 hne).mpr hm
  have hpow : ∀ k : Nat, ((2 ^ k : Nat) : ℚ) = 2 ^ (k : ℤ) := fun k => by
    rw [Nat.cast_pow, zpow_natCast]; rfl
  -- the leading place of the exact number
  have htop : m.log2 + e ≤ 200 := by
    have hle : ((2 : ℚ) ^ (m.log2 : ℤ)) ≤ m := by
      rw [← hpow]
      exact_mod_cast Nat.log2_self_le hne
    rw [← zpow_le_zpow_iff_right₀ (one_lt_two (α := ℚ)), zpow_add₀ two_ne_zero]
    calc (2 : ℚ) ^ (m.log2 : ℤ) * 2 ^ e ≤ m * 2 ^ e := by gcongr
      _ ≤ t := hlow
      _ ≤ 2 ^ (200 : ℤ) := hlarge
  have hbottom : -200 ≤ m.log2 + 1 + e := by
    have hle : ((m : ℚ) + 1) ≤ 2 ^ ((m.log2 + 1 : Nat) : ℤ) := by
      rw [← hpow]
      exact_mod_cast Nat.lt_log2_self
    rw [← zpow_le_zpow_iff_right₀ (one_lt_two (α := ℚ)), zpow_add₀ two_ne_zero]
    calc (2 : ℚ) ^ (-200 : ℤ) ≤ t := hsmall
      _ ≤ (m + 1) * 2 ^ e := hhigh
      _ ≤ 2 ^ ((m.log2 + 1 : Nat) : ℤ) * 2 ^ e := by gcongr
  obtain ⟨k, hk⟩ := Nat.exists_eq_add_of_le hlog
  have hdropped : dropped m e = k := by
    unfold dropped
    omega
  have hkept := kept_bounds hne hk
  have hrounded := rounded_bounds m k a
  generalize hr : (ExtendedMantissa.ofMantissaAndAccuracy m a >>> k).roundedMantissa = r at hrounded
  obtain ⟨hbelow, habove⟩ := shifted_bounds m k e
  refine ⟨r * 2 ^ (e + k), ?_,
    near_of_place hkept.1 hrounded (hbelow.trans hlow) (hhigh.trans habove)⟩
  exact normal_of_rounded hdropped hr (by omega) (by unfold leastExponent; omega)

/-! ### Operations -/

def Moderate (t : ℚ) : Prop := 2 ^ (-200 : ℤ) ≤ t ∧ t ≤ 2 ^ (200 : ℤ)

theorem quotient_bounds (m : Nat) {n : Nat} (hn : 0 < n) :
    ((m / n : Nat) : ℚ) ≤ m / n ∧ (m : ℚ) / n ≤ (m / n : Nat) + 1 := by
  rw [← Nat.floor_div_eq_div (K := ℚ)]
  exact ⟨Nat.floor_le (by positivity), (Nat.lt_floor_add_one _).le⟩

theorem two_pow_cast (k : Nat) : ((2 ^ k : Nat) : ℚ) = 2 ^ (k : ℤ) := by
  rw [Nat.cast_pow, zpow_natCast, Nat.cast_ofNat]

theorem log2_bounds {m : Nat} (hm : 0 < m) :
    (2 : ℚ) ^ (m.log2 : ℤ) ≤ m ∧ (m : ℚ) ≤ 2 ^ (m.log2 + 1 : ℤ) := by
  have hlow := Nat.log2_self_le hm.ne'
  have hhigh := (Nat.lt_log2_self (n := m)).le
  have hcast : ((m.log2 + 1 : Nat) : ℤ) = m.log2 + 1 := Nat.cast_add_one _
  rw [← hcast, ← two_pow_cast, ← two_pow_cast]
  exact ⟨by exact_mod_cast hlow, by exact_mod_cast hhigh⟩

theorem normal_div {a b : ℚ} {u v : UnpackedFloat} (hu : Normal a u) (hv : Normal b v)
    (hmoderate : Moderate (a / b)) : ∃ c, Normal c (div binary64 u v) ∧ Near c (a / b) := by
  obtain ⟨m, e, hm, rfl, -, -, ha⟩ := hu.exists_form
  obtain ⟨n, f, hn, rfl, -, -, hb⟩ := hv.exists_form
  generalize ht : a / b = t at hmoderate ⊢
  rw [← ha, ← hb] at ht
  have hnf := magnitude_pos hn f
  have hleast : n.log2 + f - 200 ≤ m.log2 + 1 + e := by
    rw [← zpow_le_zpow_iff_right₀ (one_lt_two (α := ℚ)), sub_eq_add_neg, zpow_add₀ two_ne_zero,
      zpow_add₀ two_ne_zero, zpow_add₀ two_ne_zero]
    calc (2 : ℚ) ^ (n.log2 : ℤ) * 2 ^ f * 2 ^ (-200 : ℤ) ≤ n * 2 ^ f * t :=
          mul_le_mul (mul_le_mul_of_nonneg_right (log2_bounds hn).1 (two_zpow_pos f).le)
            hmoderate.1 (two_zpow_pos _).le hnf.le
      _ = m * 2 ^ e := by rw [← ht, mul_div_cancel₀ _ hnf.ne']
      _ ≤ 2 ^ (m.log2 + 1 : ℤ) * 2 ^ e :=
          mul_le_mul_of_nonneg_right (log2_bounds hm).2 (two_zpow_pos e).le
  have htarget : binary64.targetExponent (totalExponent m e - totalExponent n f) =
      m.log2 + e - n.log2 - f - 53 := by
    have hbits : binary64.mantissaBits = 53 := rfl
    have hminimum : binary64.minExponent = -1074 := rfl
    rw [Format.targetExponent, totalExponent, totalExponent, hbits, hminimum]
    omega
  unfold div divCore
  dsimp only
  rw [htarget]
  generalize hshift : (e - f - min (e - f) (m.log2 + e - n.log2 - f - 53)).toNat = shift
  have hplace : min (e - f) (m.log2 + e - n.log2 - f - 53) = e - f - shift := by omega
  have hfull : 2 ^ 52 ≤ m <<< shift / n := by
    rw [Nat.le_div_iff_mul_le hn, Nat.shiftLeft_eq]
    calc 2 ^ 52 * n ≤ 2 ^ 52 * 2 ^ (n.log2 + 1) := Nat.mul_le_mul_left _ Nat.lt_log2_self.le
      _ = 2 ^ (52 + (n.log2 + 1)) := (Nat.pow_add _ _ _).symm
      _ ≤ 2 ^ (m.log2 + shift) := Nat.pow_le_pow_right (by decide) (by omega)
      _ = 2 ^ m.log2 * 2 ^ shift := Nat.pow_add _ _ _
      _ ≤ m * 2 ^ shift := Nat.mul_le_mul_right _ (Nat.log2_self_le hm.ne')
  have hvalue : ((m <<< shift : Nat) : ℚ) / n * 2 ^ (e - f - shift) = t := by
    rw [← ht, Nat.shiftLeft_eq, Nat.cast_mul, two_pow_cast, zpow_sub₀ two_ne_zero,
      zpow_sub₀ two_ne_zero]
    have hpos := two_zpow_pos (shift : ℤ)
    field_simp
  obtain ⟨hlow, hhigh⟩ := quotient_bounds (m <<< shift) hn
  rw [hplace]
  refine normal_round _ hfull ?_ ?_ hmoderate.1 hmoderate.2 <;> rw [← hvalue]
  · exact mul_le_mul_of_nonneg_right hlow (two_zpow_pos _).le
  · exact mul_le_mul_of_nonneg_right hhigh (two_zpow_pos _).le

theorem normal_mul {a b : ℚ} {u v : UnpackedFloat} (hu : Normal a u) (hv : Normal b v)
    (hmoderate : Moderate (a * b)) : ∃ c, Normal c (mul binary64 u v) ∧ Near c (a * b) := by
  obtain ⟨m, e, hm, rfl, hmantissa, -, rfl⟩ := hu.exists_form
  obtain ⟨n, f, hn, rfl, -, -, rfl⟩ := hv.exists_form
  have hvalue : ((m * n : Nat) : ℚ) * 2 ^ (e + f) = m * 2 ^ e * (n * 2 ^ f) := by
    rw [zpow_add₀ two_ne_zero, Nat.cast_mul]
    ring
  have hfull : 2 ^ 52 ≤ m * n := hmantissa.1.trans (Nat.le_mul_of_pos_right m hn)
  refine normal_round .exact hfull hvalue.le ?_ hmoderate.1 hmoderate.2
  rw [← hvalue, add_mul]
  exact le_add_of_nonneg_right (by positivity)

theorem normalize_eq {m : Nat} (hm : 0 < m) (e : Int) (s : Sign) :
    UnpackedFloat.normalize binary64 m e s =
      let shift := (e - max (m.log2 + e - 52) (-1074)).toNat
      roundWithAccuracy binary64 .positive (m <<< shift) (e - shift) .exact := by
  unfold UnpackedFloat.normalize
  rw [compare_gt_iff_gt.mpr (by exact_mod_cast hm), ← targetExponent_eq]
  rfl

theorem exists_sum {m n : Nat} {e f : Int} (hm : 0 < m) (hn : 0 < n) :
    ∃ sum : Nat, m ≤ sum ∧ (sum * 2 ^ min e f : ℚ) = m * 2 ^ e + n * 2 ^ f ∧
      add binary64 (.finite .positive m e hm) (.finite .positive n f hn) =
        UnpackedFloat.normalize binary64 sum (min e f) .positive := by
  generalize hplace : min e f = g
  obtain ⟨i, rfl⟩ : ∃ i : Nat, e = g + i := ⟨(e - g).toNat, by omega⟩
  obtain ⟨j, rfl⟩ : ∃ j : Nat, f = g + j := ⟨(f - g).toNat, by omega⟩
  refine ⟨m <<< i + n <<< j, ?_, ?_, ?_⟩
  · rw [Nat.shiftLeft_eq]
    exact (Nat.le_mul_of_pos_right m (Nat.two_pow_pos i)).trans (Nat.le_add_right _ _)
  · rw [Nat.shiftLeft_eq, Nat.shiftLeft_eq, Nat.cast_add, Nat.cast_mul, Nat.cast_mul, two_pow_cast,
      two_pow_cast, zpow_add₀ two_ne_zero, zpow_add₀ two_ne_zero]
    ring
  · unfold add decreaseExponent
    dsimp only
    rw [hplace, show (g + i - g).toNat = i by omega, show (g + j - g).toNat = j by omega]
    rfl

theorem normal_add {a b : ℚ} {u v : UnpackedFloat} (hu : Normal a u) (hv : Normal b v)
    (hmoderate : Moderate (a + b)) : ∃ c, Normal c (add binary64 u v) ∧ Near c (a + b) := by
  obtain ⟨m, e, hm, rfl, hmantissa, -, rfl⟩ := hu.exists_form
  obtain ⟨n, f, hn, rfl, -, -, rfl⟩ := hv.exists_form
  obtain ⟨sum, hsum, hvalue, hadd⟩ := exists_sum (e := e) (f := f) hm hn
  have hfull : 2 ^ 52 ≤ sum := hmantissa.1.trans hsum
  have hlog : 52 ≤ sum.log2 := (Nat.le_log2 (by omega)).mpr hfull
  have hnone : (min e f - max (sum.log2 + min e f - 52) (-1074)).toNat = 0 := by omega
  rw [← hvalue] at hmoderate ⊢
  rw [hadd, normalize_eq (by omega)]
  simp only [hnone, Nat.shiftLeft_zero, Nat.cast_zero, sub_zero]
  refine normal_round .exact hfull le_rfl ?_ hmoderate.1 hmoderate.2
  exact mul_le_mul_of_nonneg_right (lt_add_one _).le (two_zpow_pos _).le

theorem normal_ofNat {n : Nat} (hpos : 0 < n) (hn : n < 2 ^ 53) : Normal n (.ofNat binary64 n) := by
  have hlog : n.log2 < 53 := (Nat.log2_lt hpos.ne').mpr hn
  obtain ⟨k, hk⟩ := Nat.exists_eq_add_of_le' (Nat.le_of_lt_succ hlog)
  have hfull : 2 ^ 52 ≤ n <<< k ∧ n <<< k < 2 ^ 53 := by
    have hne : n <<< k ≠ 0 := by
      rw [Nat.shiftLeft_eq]
      exact Nat.mul_ne_zero hpos.ne' (Nat.two_pow_pos k).ne'
    have hshifted := log2_shiftLeft hpos.ne' k
    rw [← Nat.le_log2 hne, ← Nat.log2_lt hne]
    omega
  have hshift : (0 - max ((n.log2 : Int) + 0 - 52) (-1074)).toNat = k := by omega
  have hvalue : ((n <<< k : Nat) : ℚ) * 2 ^ (0 - k : ℤ) = n := by
    rw [Nat.shiftLeft_eq, Nat.cast_mul, two_pow_cast, mul_assoc, ← zpow_add₀ two_ne_zero,
      add_sub_cancel, zpow_zero, mul_one]
  have hexact := normal_round_exact (e := 0 - k) hfull (by unfold leastExponent; omega)
  have hround : UnpackedFloat.ofNat binary64 n = _ := normalize_eq hpos 0 .positive
  rw [hshift] at hround
  rw [hvalue] at hexact
  rw [hround]
  exact hexact

def isPower (x : Float) (k : Nat) : Bool :=
  match unpacked x with
  | .finite .positive m e _ =>
    decide ((2 ^ 52 ≤ m ∧ m < 2 ^ 53) ∧ (-52 ≤ e ∧ e ≤ 52) ∧
      m * 2 ^ e.toNat = 10 ^ k * 2 ^ (-e).toNat)
  | _ => false

theorem normal_of_isPower {x : Float} {k : Nat} (h : isPower x k) : Normal (10 ^ k) (unpacked x) := by
  unfold isPower at h
  split at h
  · rename_i m e hm hx
    obtain ⟨hmantissa, hexponent, hvalue⟩ := of_decide_eq_true h
    rw [hx]
    refine ⟨hmantissa, by unfold leastExponent; omega, ?_⟩
    have hcast : (m : ℚ) * 2 ^ (e.toNat : ℤ) = 10 ^ k * 2 ^ ((-e).toNat : ℤ) := by
      rw [← two_pow_cast, ← two_pow_cast]
      exact_mod_cast hvalue
    have hsplit : e = e.toNat - (-e).toNat := by omega
    have hpos := two_zpow_pos ((-e).toNat : ℤ)
    rw [hsplit, zpow_sub₀ two_ne_zero, mul_div_assoc', hcast, mul_div_cancel_right₀ _ hpos.ne']
  · cases h

theorem normal_power {k : Nat} (hk : k < Float.exactlyRepresentablePowersOfTen.size) :
    Normal (10 ^ k) (unpacked Float.exactlyRepresentablePowersOfTen[k]) := by
  have hall : ∀ k, (hk : k < Float.exactlyRepresentablePowersOfTen.size) →
      isPower Float.exactlyRepresentablePowersOfTen[k] k := by decide +kernel
  exact normal_of_isPower (hall k hk)

theorem exists_normal_of_pack {P : ℚ → Prop} {x : Float} {u : UnpackedFloat} (hx : x = .ofModel (.pack u))
    (h : ∃ v, Normal v u ∧ P v) : ∃ v, Normal v (unpacked x) ∧ P v := by
  obtain ⟨v, hv, hp⟩ := h
  exact ⟨v, by rwa [hx, unpacked_pack hv], hp⟩

section
variable {x y : Float} {a b : ℚ}

theorem Normal.div (hx : Normal a (unpacked x)) (hy : Normal b (unpacked y))
    (hmoderate : Moderate (a / b)) : ∃ c, Normal c (unpacked (x / y)) ∧ Near c (a / b) :=
  exists_normal_of_pack rfl (normal_div hx hy hmoderate)

theorem Normal.mul (hx : Normal a (unpacked x)) (hy : Normal b (unpacked y))
    (hmoderate : Moderate (a * b)) : ∃ c, Normal c (unpacked (x * y)) ∧ Near c (a * b) :=
  exists_normal_of_pack rfl (normal_mul hx hy hmoderate)

theorem Normal.add (hx : Normal a (unpacked x)) (hy : Normal b (unpacked y))
    (hmoderate : Moderate (a + b)) : ∃ c, Normal c (unpacked (x + y)) ∧ Near c (a + b) :=
  exists_normal_of_pack (add_eq x y) (normal_add hx hy hmoderate)

end

/-! ### Decimals -/

theorem normal_toFloat {n : Nat} (hpos : 0 < n) (hn : n < 2 ^ 53) :
    Normal n (unpacked n.toUInt64.toFloat) := by
  have hnat : n.toUInt64.toNat = n := by
    rw [Nat.toUInt64, UInt64.toNat_ofNat', Nat.mod_eq_of_lt (by omega)]
  have hform : n.toUInt64.toFloat = .ofModel (.pack (.ofNat binary64 n.toUInt64.toNat)) := rfl
  have hnormal := normal_ofNat hpos hn
  rwa [hform, hnat, unpacked_pack hnormal]

theorem ofScientific_eq {n k : Nat} (hn : n < 2 ^ 53) (hk : k ≤ 22) :
    ∃ power, Normal (10 ^ k) (unpacked power) ∧
      Float.ofScientific n true k = n.toUInt64.toFloat / power ∧
      Float.ofScientific n false k = n.toUInt64.toFloat * power := by
  refine ⟨_, normal_power (k := k) (Nat.lt_succ_of_le hk), ?_, ?_⟩ <;>
    rw [Float.ofScientific, dif_pos ⟨hn, hk⟩] <;> rfl

theorem near_nearest {n k : Nat} (hpos : 0 < n) (hn : n < 2 ^ 53) (hk : k ≤ 22) :
    ∃ v, Normal v (unpacked (nearest n (-k))) ∧ Near v (n / 10 ^ k) := by
  have hsize : n < 10 ^ 16 := hn.trans (by decide)
  have hfloat := normal_toFloat hpos hn
  obtain ⟨power, hpower, hdiv, hmul⟩ := ofScientific_eq hn hk
  have hmoderate : Moderate (n / 10 ^ k) := by
    have hone : (1 : ℚ) ≤ 10 ^ k := one_le_pow₀ (by norm_num)
    have hlow : (1 : ℚ) ≤ n := by exact_mod_cast hpos
    have hhigh : (n : ℚ) ≤ 2 ^ 53 := by exact_mod_cast hn.le
    constructor
    · rw [le_div_iff₀ (by positivity)]
      calc (2 : ℚ) ^ (-200 : ℤ) * 10 ^ k ≤ 2 ^ (-200 : ℤ) * 10 ^ 22 := by gcongr; norm_num
        _ ≤ 1 := by norm_num
        _ ≤ n := hlow
    · calc (n : ℚ) / 10 ^ k ≤ n := div_le_self (Nat.cast_nonneg n) hone
        _ ≤ 2 ^ 53 := hhigh
        _ ≤ 2 ^ (200 : ℤ) := by norm_num
  rw [nearest_eq (by omega) (by omega) hsize]
  split <;> rename_i hplaces
  · subst hplaces
    have hvalue : (n : ℚ) / 10 ^ 0 = n * 10 ^ 0 := by rw [pow_zero, div_one, mul_one]
    rw [hvalue] at hmoderate ⊢
    rw [hmul]
    exact hfloat.mul hpower hmoderate
  · rw [hdiv]
    exact hfloat.div hpower hmoderate

/-- The number is zero for zero, or near to what it stands for. -/
def Approximates (x : Float) (t : ℚ) : Prop :=
  IsZero (unpacked x) ∧ t = 0 ∨ ∃ v, Normal v (unpacked x) ∧ Near v t

theorem approximates_nearest {n k : Nat} (hn : n < 2 ^ 53) (hk : k ≤ 22) :
    Approximates (nearest n (-k)) (n / 10 ^ k) := by
  obtain rfl | hpos := Nat.eq_zero_or_pos n
  · left
    rw [nearest, if_pos (Or.inl rfl), Nat.cast_zero, zero_div]
    exact ⟨⟨.positive, rfl⟩, rfl⟩
  · exact Or.inr (near_nearest hpos hn hk)

namespace Approximates
variable {x y : Float} {s t : ℚ}

theorem isFinite (h : Approximates x t) : x.isFinite := by
  obtain ⟨⟨s, hs⟩, -⟩ | ⟨v, hv, -⟩ := h
  · rw [isFinite_eq, hs]
    rfl
  · exact hv.isFinite

theorem near (h : Approximates x t) : Near (value x) t := by
  obtain ⟨hzero, rfl⟩ | ⟨v, hv, hnear⟩ := h
  · rw [value_of_zero hzero]
    exact .refl le_rfl
  · rwa [hv.value_eq]

theorem normal (h : Approximates x t) (ht : t ≠ 0) : Normal (value x) (unpacked x) := by
  obtain ⟨v, hv, -⟩ := h.resolve_left fun hzero => ht hzero.2
  rwa [hv.value_eq]

theorem add (hx : Approximates x s) (hy : Approximates y t) (ht : t ≠ 0)
    (hmoderate : Moderate (value x + value y)) : Approximates (x + y) (value x + value y) := by
  have hnormal := hy.normal ht
  obtain ⟨⟨sign, hsign⟩, -⟩ | ⟨v, hv, -⟩ := hx
  · -- the sum with a zero is the other number
    have hsum : unpacked (x + y) = unpacked y := by
      obtain ⟨m, e, hm, hform, -⟩ := hnormal.exists_form
      have hadd : Float.Model.UnpackedFloat.add binary64 (unpacked x) (unpacked y) = unpacked y := by
        rw [hsign, hform]
        rfl
      rw [add_eq, hadd, unpacked_pack hnormal]
    have hnonneg : 0 ≤ value x + value y := hmoderate.1.trans' (two_zpow_pos _).le
    rw [value_of_zero ⟨sign, hsign⟩, zero_add] at hnonneg ⊢
    exact Or.inr ⟨value y, by rwa [hsum], .refl hnonneg⟩
  · rw [← hv.value_eq] at hv
    exact Or.inr (hv.add hnormal hmoderate)

end Approximates
end Number

namespace Wave
open Number

/-- A wave is valid if its times are near to those of a valid wave that keep their distances by a
unit, of which there are not too many. -/
theorem valid_of_approximates {w : Wave Float} {period rise fall u : ℚ}
    (hperiod : Approximates w.period period) (hrise : Approximates w.rise rise)
    (hfall : Approximates w.fall fall) (hunit : 2 ^ (-100 : ℤ) ≤ u ∧ u ≤ 1) (hzero : 0 ≤ rise)
    (hbefore : rise + u ≤ period) (hafter : rise + u ≤ fall) (hlast : fall + u ≤ rise + period)
    (hcount : rise + period ≤ 2 ^ 50 * u) : w.Valid := by
  have hu : 0 < u := (two_zpow_pos _).trans_le hunit.1
  have hne : period ≠ 0 := by linarith
  obtain ⟨hplow, hphigh⟩ := hperiod.near.bounds
  obtain ⟨hrlow, hrhigh⟩ := hrise.near.bounds
  obtain ⟨hflow, hfhigh⟩ := hfall.near.bounds
  have hmoderate : Moderate (value w.rise + value w.period) := by
    have hsmall : (2 : ℚ) ^ (-200 : ℤ) ≤ u / 2 :=
      le_trans (by norm_num) (div_le_div_of_nonneg_right hunit.1 zero_le_two)
    have hlarge : (2 : ℚ) ^ 52 ≤ 2 ^ (200 : ℤ) := by norm_num
    have hone := hunit.2
    clear hunit
    exact ⟨hsmall.trans (by linarith), le_trans (by linarith) hlarge⟩
  have hsum := hrise.add hperiod hne hmoderate
  obtain ⟨hslow, -⟩ := hsum.near.bounds
  rw [valid_iff_value hperiod.isFinite hrise.isFinite hfall.isFinite,
    lt_iff_value hfall.isFinite hsum.isFinite]
  refine ⟨?_, ⟨?_, ?_⟩, ?_, ?_⟩ <;> linarith

end Wave
end ClockTree
