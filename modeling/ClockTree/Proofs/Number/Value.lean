import ClockTree.Proofs.Number.Equality
import Mathlib

/-!
# The values of floating point numbers

A finite number stands for a rational number. Its form fills 53 bits as far as the least exponent
allows, so comparing exponents and then mantissas compares the values.
-/
namespace ClockTree
namespace Number
open Float.Model (UnpackedFloat Format)
open Float.Model.UnpackedFloat
open Float.Model.Format (binary64)

/-- The rational number that a finite number stands for; what is not finite has the value zero. -/
def Exact.value : Exact → ℚ
  | .finite negative m q => (if negative then -1 else 1) * (m * 2 ^ q)
  | _ => 0

def value (x : Float) : ℚ := (exact x).value

/-! ### Magnitudes -/

theorem two_zpow_pos (e : ℤ) : (0 : ℚ) < 2 ^ e := zpow_pos (by norm_num) e

theorem two_zpow_le {e f : ℤ} (h : e ≤ f) : (2 : ℚ) ^ e ≤ 2 ^ f :=
  zpow_le_zpow_right₀ (by norm_num) h

theorem two_zpow_succ (e : ℤ) : (2 : ℚ) ^ (e + 1) = 2 * 2 ^ e := by
  rw [zpow_add_one₀ (by norm_num), mul_comm]

/-- The form `m · 2 ^ e` of a number: only at the least exponent are the leading bits zeros. -/
structure Canonical (m : Nat) (e : Int) : Prop where
  lt : m < 2 ^ 53
  least : leastExponent ≤ e
  full : e = leastExponent ∨ 2 ^ 52 ≤ m

theorem canonical_of_exact {x : Float} {negative : Bool} {m : Nat} {e : Int}
    (h : exact x = .finite negative m e) : Canonical m e := by
  unfold exact at h
  dsimp only at h
  have hfraction : x.toBits.toNat % (1 <<< 52) < 2 ^ 52 := Nat.mod_lt _ (by decide)
  have hone : 1 <<< 52 = 2 ^ 52 := by decide
  split at h
  · split at h <;> cases h
  · split at h
    · obtain ⟨-, rfl, rfl⟩ := Exact.finite.inj h
      exact ⟨by omega, le_refl _, Or.inl rfl⟩
    · rename_i hlast hfirst
      obtain ⟨-, rfl, rfl⟩ := Exact.finite.inj h
      refine ⟨by omega, ?_, Or.inr (by omega)⟩
      unfold leastExponent
      omega

namespace Canonical
variable {m n : Nat} {e f : Int}

theorem value_lt (h : Canonical m e) (h' : Canonical n f) (hef : e < f) :
    (m * 2 ^ e : ℚ) < n * 2 ^ f := by
  have hn : (2 ^ 52 : ℚ) ≤ n := by
    have hleast := h.least
    exact_mod_cast h'.full.resolve_left (by omega)
  have hm : (m : ℚ) < 2 ^ 53 := by exact_mod_cast h.lt
  calc (m * 2 ^ e : ℚ) < 2 ^ 53 * 2 ^ e := mul_lt_mul_of_pos_right hm (two_zpow_pos e)
    _ = 2 ^ 52 * 2 ^ (e + 1) := by rw [two_zpow_succ]; ring
    _ ≤ n * 2 ^ f := mul_le_mul hn (two_zpow_le hef) (two_zpow_pos _).le (Nat.cast_nonneg n)

/-- The exponents decide, and where they are the same the mantissas do. -/
theorem compare_eq (h : Canonical m e) (h' : Canonical n f) :
    (compare e f).then (compare m n) = compare (m * 2 ^ e : ℚ) (n * 2 ^ f) := by
  obtain hef | rfl | hfe := lt_trichotomy e f
  · rw [compare_lt_iff_lt.mpr hef, compare_lt_iff_lt.mpr (h.value_lt h' hef)]
    rfl
  · rw [compare_eq_iff_eq.mpr rfl, Ordering.eq_then]
    obtain hmn | rfl | hnm := lt_trichotomy m n
    · have hlt : (m * 2 ^ e : ℚ) < n * 2 ^ e :=
        mul_lt_mul_of_pos_right (by exact_mod_cast hmn) (two_zpow_pos e)
      rw [compare_lt_iff_lt.mpr hmn, compare_lt_iff_lt.mpr hlt]
    · rw [compare_eq_iff_eq.mpr rfl, compare_eq_iff_eq.mpr rfl]
    · have hlt : (n * 2 ^ e : ℚ) < m * 2 ^ e :=
        mul_lt_mul_of_pos_right (by exact_mod_cast hnm) (two_zpow_pos e)
      rw [compare_gt_iff_gt.mpr hnm, compare_gt_iff_gt.mpr hlt]
  · rw [compare_gt_iff_gt.mpr hfe, compare_gt_iff_gt.mpr (h'.value_lt h hfe)]
    rfl

end Canonical

/-! ### Packing -/

theorem Canonical.unpacked_pack {s : Sign} {m : Nat} {e : Int} {hm : 0 < m} (h : Canonical m e)
    (hlast : e ≤ 971) : unpacked (.ofModel (.pack (.finite s m e hm))) = .finite s m e hm := by
  change unpack binary64 (pack binary64 _) = _
  have hleast := h.least
  have hlt := h.lt
  unfold leastExponent at hleast
  generalize hbiased :
    (e + binary64.exponentBias + binary64.mantissaBitsWithoutImplicit).toNat = biased
  have hrange : (biased : Int) = e + 1075 ∧ biased ≤ 2046 := by
    simp only [Format.exponentBias] at hbiased
    omega
  unfold pack
  dsimp only
  rw [hbiased, if_neg (by omega)]
  by_cases hfull : 2 ^ 52 ≤ m
  · have hlog : m.log2 + 1 = binary64.mantissaBits := by
      have hlow := (Nat.le_log2 hm.ne').mpr hfull
      have hhigh := (Nat.log2_lt hm.ne').mpr hlt
      have hbits : binary64.mantissaBits = 53 := rfl
      omega
    have hvec : (BitVec.ofNat 11 biased).toNat = biased := by
      rw [BitVec.toNat_ofNat, Nat.mod_eq_of_lt (by omega)]
    have hones : BitVec.ofNat 11 biased ≠ -1#11 := by
      rw [Ne, ← BitVec.toNat_inj, hvec, show (-1#11).toNat = 2047 by decide]
      omega
    have hzero : BitVec.ofNat 11 biased ≠ 0#11 := by
      rw [Ne, ← BitVec.toNat_inj, hvec, BitVec.toNat_ofNat]
      omega
    have himplicit : (1#1 ++ BitVec.ofNat 52 m).toNat = m := by
      rw [toNat_implicit, BitVec.toNat_ofNat]
      omega
    rw [if_pos hlog]
    unfold unpack
    simp only [unpackMantissa_packComponents, unpackExponent_packComponents,
      unpackSign_packComponents, Sign.ofBitVec_toBitVec, hones, hzero, if_false, hvec, himplicit,
      Format.exponentBias]
    congr 1
    omega
  · -- the leading bits are zeros only at the least exponent
    have he : e = -1074 := h.full.resolve_right hfull
    have hlog : ¬ m.log2 + 1 = binary64.mantissaBits := by
      have hhigh := (Nat.log2_lt hm.ne').mpr (Nat.lt_of_not_le hfull)
      have hbits : binary64.mantissaBits = 53 := rfl
      omega
    have hvec : (BitVec.ofNat 52 m).toNat = m := by
      rw [BitVec.toNat_ofNat, Nat.mod_eq_of_lt (by omega)]
    have hsome : BitVec.ofNat 52 m ≠ 0#52 := by
      rw [Ne, ← BitVec.toNat_inj, hvec, BitVec.toNat_ofNat]
      omega
    have hones : (0#11) ≠ -1#11 := by decide
    rw [if_neg hlog]
    unfold unpack
    simp only [unpackMantissa_packComponents, unpackExponent_packComponents,
      unpackSign_packComponents, Sign.ofBitVec_toBitVec, hones, hsome, if_false, if_true, dif_neg,
      not_false_eq_true, hvec, he]
    rfl

/-! ### Comparing numbers -/

theorem isFinite_of_unpacked {x : Float} {s : Sign} {m : Nat} {e : Int} {hm : 0 < m}
    (h : unpacked x = .finite s m e hm) : x.isFinite := by
  rw [isFinite_eq, h]
  rfl

theorem value_of_unpacked {x : Float} {m : Nat} {e : Int} {hm : 0 < m}
    (h : unpacked x = .finite .positive m e hm) : value x = m * 2 ^ e := by
  rw [value, exact_eq, h, Exact.ofUnpacked, isNegative, Exact.value, if_neg Bool.false_ne_true,
    one_mul]

theorem value_of_zero {x : Float} (h : IsZero (unpacked x)) : value x = 0 := by
  obtain ⟨s, hs⟩ := h
  rw [value, exact_eq, hs, Exact.ofUnpacked, Exact.value, Nat.cast_zero, zero_mul, mul_zero]

inductive Stands : UnpackedFloat → ℚ → Prop where
  | zero (s : Sign) : Stands (.zero s) 0
  | positive {m : Nat} {e : Int} (hm : 0 < m) (h : Canonical m e) :
    Stands (.finite .positive m e hm) (m * 2 ^ e)
  | negative {m : Nat} {e : Int} (hm : 0 < m) (h : Canonical m e) :
    Stands (.finite .negative m e hm) (-(m * 2 ^ e))

theorem stands_value {x : Float} (h : x.isFinite) : Stands (unpacked x) (value x) := by
  rw [isFinite_eq] at h
  have hexact := exact_eq x
  cases hx : unpacked x with
  | infinity s => rw [hx] at h; cases h
  | notANumber => rw [hx] at h; cases h
  | zero s =>
    rw [value_of_zero ⟨s, hx⟩]
    exact .zero s
  | finite s m e hm =>
    rw [hx] at hexact
    have hcanonical := canonical_of_exact hexact
    cases s with
    | positive =>
      rw [value_of_unpacked hx]
      exact .positive hm hcanonical
    | negative =>
      rw [value, hexact, Exact.ofUnpacked, isNegative, Exact.value, if_pos rfl, neg_one_mul]
      exact .negative hm hcanonical

theorem magnitude_pos {m : Nat} (hm : 0 < m) (e : Int) : (0 : ℚ) < m * 2 ^ e :=
  mul_pos (Nat.cast_pos.mpr hm) (two_zpow_pos e)

theorem exists_positive {x : Float} (hx : x.isFinite) (hpos : 0 < value x) :
    ∃ m e, ∃ hm : 0 < m, unpacked x = .finite .positive m e hm := by
  have hstands := stands_value hx
  generalize unpacked x = u at hstands ⊢
  generalize value x = v at hstands hpos
  cases hstands with
  | zero s => exact absurd hpos (lt_irrefl 0)
  | positive hm _ => exact ⟨_, _, hm, rfl⟩
  | negative hm _ => exact absurd hpos (not_lt.mpr (neg_lt_zero.mpr (magnitude_pos hm _)).le)

theorem compare_neg (a b : ℚ) : compare (-a) (-b) = (compare a b).swap := by
  obtain h | rfl | h := lt_trichotomy a b
  · rw [compare_gt_iff_gt.mpr (neg_lt_neg h), compare_lt_iff_lt.mpr h, Ordering.swap_lt]
  · rw [compare_eq_iff_eq.mpr rfl, compare_eq_iff_eq.mpr rfl, Ordering.swap_eq]
  · rw [compare_lt_iff_lt.mpr (neg_lt_neg h), compare_gt_iff_gt.mpr h, Ordering.swap_gt]

namespace Stands

theorem compare_eq {u v : UnpackedFloat} {a b : ℚ} (hu : Stands u a) (hv : Stands v b) :
    u.compare v = some (compare a b) := by
  have hlt : ∀ {a b : ℚ}, a < b → compare a b = .lt := compare_lt_iff_lt.mpr
  have hgt : ∀ {a b : ℚ}, b < a → compare a b = .gt := compare_gt_iff_gt.mpr
  cases hu with
  | zero s =>
    cases hv with
    | zero t => rw [compare_eq_iff_eq.mpr rfl]; rfl
    | positive hn hf => rw [hlt (magnitude_pos hn _)]; rfl
    | negative hn hf => rw [hgt (neg_lt_zero.mpr (magnitude_pos hn _))]; rfl
  | positive hm he =>
    cases hv with
    | zero t => rw [hgt (magnitude_pos hm _)]; rfl
    | positive hn hf => exact congrArg some (he.compare_eq hf)
    | negative hn hf =>
      rw [hgt ((neg_lt_zero.mpr (magnitude_pos hn _)).trans (magnitude_pos hm _))]
      rfl
  | negative hm he =>
    cases hv with
    | zero t => rw [hlt (neg_lt_zero.mpr (magnitude_pos hm _))]; rfl
    | positive hn hf =>
      rw [hlt ((neg_lt_zero.mpr (magnitude_pos hm _)).trans (magnitude_pos hn _))]
      rfl
    | negative hn hf =>
      rw [compare_neg, ← he.compare_eq hf]
      rfl

end Stands

section
variable {x y : Float}

theorem lt_iff_value (hx : x.isFinite) (hy : y.isFinite) : x < y ↔ value x < value y := by
  have hcompare := (stands_value hx).compare_eq (stands_value hy)
  rw [← compare_lt_iff_lt, ← Option.some_inj, ← hcompare, ← beq_iff_eq, ← decide_lt_eq,
    decide_eq_true_iff]

theorem beq_iff_value (hx : x.isFinite) (hy : y.isFinite) : x == y ↔ value x = value y := by
  have hcompare := (stands_value hx).compare_eq (stands_value hy)
  rw [beq_eq, hcompare, beq_iff_eq, Option.some_inj, compare_eq_iff_eq]

end
end Number

namespace Wave
open Number

theorem valid_iff_value {w : Wave Float} (hperiod : w.period.isFinite) (hrise : w.rise.isFinite)
    (hfall : w.fall.isFinite) :
    w.Valid ↔ 0 < value w.period ∧ (0 ≤ value w.rise ∧ value w.rise < value w.period) ∧
      value w.rise < value w.fall ∧ w.fall < w.rise + w.period := by
  have hzero : (0 : Float).isFinite := by decide +kernel
  have hvalue : value 0 = 0 := by
    have hexact : exact 0 = .finite false 0 leastExponent := by decide +kernel
    simp [value, hexact, Exact.value]
  have hnonneg : 0 < w.rise ∨ 0 == w.rise ↔ 0 ≤ value w.rise := by
    rw [lt_iff_value hzero hrise, beq_iff_value hzero hrise, hvalue, le_iff_lt_or_eq]
  have hpos : 0 < w.period ↔ 0 < value w.period := by rw [lt_iff_value hzero hperiod, hvalue]
  rw [← hpos, ← hnonneg, ← lt_iff_value hrise hperiod, ← lt_iff_value hrise hfall]
  unfold Valid fault?
  rw [none_iff_of_checks]
  have hofInt : Float.ofInt 0 = 0 := rfl
  simp only [Scalar.positive, Scalar.atMost, Scalar.zero, Scalar.less, Scalar.same, Scalar.isFinite,
    Scalar.ofInt, hofInt, hperiod, hrise, hfall, Bool.true_and, Bool.and_eq_true, Bool.or_eq_true,
    decide_eq_true_eq]

end Wave
end ClockTree
