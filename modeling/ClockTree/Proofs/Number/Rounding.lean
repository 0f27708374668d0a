import ClockTree.Proofs.Number.Equality
import Mathlib.Algebra.Group.Nat.Defs

/-!
# Finite results of rounding

A result that is rounded to 53 bits is packed as a finite number if the exponent of its last place is
at most 971. Rounding may carry into one more bit, which the exponent of a result far from the limit
has room for; a number whose bits beyond the 53rd are zeros is not changed.
-/
namespace ClockTree.Number
open Float.Model (UnpackedFloat Format totalExponent)
open Float.Model.UnpackedFloat
open Float.Model.Format (binary64)

/-- A finite number whose last place is no more than `2 ^ k`. -/
def Within (k : Int) : UnpackedFloat → Prop
  | .zero _ => True
  | .finite _ _ e _ => e ≤ k
  | _ => False

/-! ### Packing -/

theorem within_unpack {b : BitVec binary64.numBits} {k : Int} (hk : -1074 ≤ k)
    (hones : unpackExponent b ≠ -1#_) (h : (unpackExponent b).toNat - 1075 ≤ k) :
    Within k (unpack binary64 b) := by
  unfold unpack
  dsimp only
  rw [if_neg hones]
  by_cases hzero : unpackExponent b = 0#_
  · rw [if_pos hzero]
    by_cases hempty : unpackMantissa b = 0#_
    · rw [dif_pos hempty]
      trivial
    · rw [dif_neg hempty, hzero]
      exact hk
  · rw [if_neg hzero]
    exact h

theorem within_pack {u : UnpackedFloat} {k : Int} (hk : -1074 ≤ k) (hroom : k ≤ 971)
    (h : Within k u) : Within k (unpacked (.ofModel (.pack u))) := by
  have hzero : (0#11).toNat - 1075 ≤ k := by
    rw [BitVec.toNat_ofNat]
    omega
  have hones : (-1#11 : BitVec 11).toNat = 2047 := by decide
  change Within k (unpack binary64 (pack binary64 u))
  cases u with
  | infinity s => exact h.elim
  | notANumber => exact h.elim
  | zero s =>
    have hpack : pack binary64 (.zero s) = packedZero binary64 s := rfl
    rw [hpack]
    refine within_unpack hk ?_ ?_ <;> rw [packedZero, unpackExponent_packComponents]
    · decide
    · exact hzero
  | finite s m e hm =>
    have he : e ≤ k := h
    generalize hbiased :
      (e + binary64.exponentBias + binary64.mantissaBitsWithoutImplicit).toNat = biased
    have hle : biased ≤ 2046 ∧ biased - 1075 ≤ k := by
      simp only [Format.exponentBias] at hbiased
      omega
    have hsize : 2 ^ binary64.exponentBits = 2048 := rfl
    have hexponent : (BitVec.ofNat binary64.exponentBits biased).toNat = biased := by
      rw [BitVec.toNat_ofNat, Nat.mod_eq_of_lt (by omega)]
    unfold pack
    dsimp only
    rw [hbiased, if_neg (by omega)]
    split
    · refine within_unpack hk ?_ ?_ <;> rw [unpackExponent_packComponents]
      · rw [Ne, ← BitVec.toNat_inj, hones, hexponent]
        omega
      · rw [hexponent]
        exact hle.2
    · refine within_unpack hk ?_ ?_ <;> rw [unpackExponent_packComponents]
      · decide
      · exact hzero

theorem Within.isFinite {k : Int} {u : UnpackedFloat} (h : Within k u) : u.isFinite := by
  cases u with
  | infinity s => exact h.elim
  | notANumber => exact h.elim
  | zero s => rfl
  | finite s m e hm => rfl

theorem isFinite_of_within {u : UnpackedFloat} (h : Within 971 u) :
    (Float.ofModel (.pack u)).isFinite :=
  (within_pack (by decide) (by decide) h).isFinite

theorem exact_bounds {x : Float} {negative : Bool} {m : Nat} {q : Int}
    (h : exact x = .finite negative m q) : m < 2 ^ 53 ∧ q ≤ 971 := by
  unfold exact at h
  dsimp only at h
  have hfraction : x.toBits.toNat % (1 <<< 52) < 2 ^ 52 := Nat.mod_lt _ (by decide)
  split at h
  · split at h <;> cases h
  · split at h
    · obtain ⟨-, rfl, rfl⟩ := Exact.finite.inj h
      exact ⟨by omega, by decide⟩
    · rename_i hlast hfirst
      obtain ⟨-, rfl, rfl⟩ := Exact.finite.inj h
      refine ⟨?_, by omega⟩
      have hone : 1 <<< 52 = 2 ^ 52 := by decide
      omega

/-! ### Rounding -/

theorem log2_le {m b : Nat} (h : m ≤ 2 ^ b) : m.log2 ≤ b := by
  by_cases hm : m = 0
  · simp [hm]
  · have hlt : m < 2 ^ (b + 1) := Nat.lt_of_le_of_lt h (Nat.pow_lt_pow_succ (by decide))
    exact Nat.le_of_lt_succ ((Nat.log2_lt hm).mpr hlt)

theorem shiftRight_mantissa (em : ExtendedMantissa) (n : Nat) :
    (em >>> n).mantissa = em.mantissa / 2 ^ n := by
  change (n.repeat ExtendedMantissa.shiftRightOne em).mantissa = _
  induction n with
  | zero => simp [Nat.repeat]
  | succ n ih =>
    rw [Nat.repeat, Nat.pow_succ, ← Nat.div_div_eq_div_mul, ← ih]
    rfl

theorem roundedMantissa_le (em : ExtendedMantissa) : em.roundedMantissa ≤ em.mantissa + 1 := by
  obtain ⟨m, r, s⟩ := em
  cases r <;> cases s <;> simp only [ExtendedMantissa.roundedMantissa, ExtendedMantissa.accuracy,
    Accuracy.roundToNearestEven] <;> omega

theorem mantissa_of_accuracy (m : Nat) (a : Accuracy) :
    (ExtendedMantissa.ofMantissaAndAccuracy m a).mantissa = m := by
  obtain _ | _ | _ | _ := a <;> rfl

theorem targetExponent_eq (m : Nat) (e : Int) :
    binary64.targetExponent (totalExponent m e) = max (m.log2 + e - 52) (-1074) := by
  have hbits : binary64.mantissaBits = 53 := rfl
  have hleast : binary64.minExponent = -1074 := rfl
  rw [Format.targetExponent, totalExponent, hbits, hleast]
  omega

def dropped (m : Nat) (e : Int) : Nat := (max (m.log2 + e - 52) (-1074) - e).toNat

theorem shiftToTargetExponent_eq (m : Nat) (e : Int) (a : Accuracy) :
    shiftToTargetExponent binary64 m e a =
      (ExtendedMantissa.ofMantissaAndAccuracy m a >>> dropped m e, e + dropped m e) := by
  rw [shiftToTargetExponent, targetExponent_eq]
  rfl

theorem within_roundWithAccuracy {s : Sign} {m r : Nat} {e k : Int} {a : Accuracy}
    (hr : r = (ExtendedMantissa.ofMantissaAndAccuracy m a >>> dropped m e).roundedMantissa)
    (h : e + dropped m e + dropped r (e + dropped m e) ≤ k) :
    Within k (roundWithAccuracy binary64 s m e a) := by
  unfold roundWithAccuracy
  rw [shiftToTargetExponent_eq]
  dsimp only
  rw [← hr, shiftToTargetExponent_eq]
  dsimp only
  by_cases hzero : (ExtendedMantissa.ofMantissaAndAccuracy r .exact >>>
      dropped r (e + dropped m e)).mantissa = 0
  · rw [dif_pos hzero]
    trivial
  · rw [dif_neg hzero]
    exact h

theorem within_round {s : Sign} {m b : Nat} {e k : Int} {a : Accuracy} (hm : m ≤ 2 ^ b)
    (hbound : b + e ≤ k) (hk : -1074 ≤ k) : Within k (roundWithAccuracy binary64 s m e a) := by
  refine within_roundWithAccuracy rfl ?_
  have hlog := log2_le hm
  generalize hn : dropped m e = n
  have hmantissa : (ExtendedMantissa.ofMantissaAndAccuracy m a >>> n).roundedMantissa ≤
      2 ^ (b - n + 1) := by
    have hdiv : m / 2 ^ n ≤ 2 ^ (b - n) := by
      rw [Nat.div_le_iff_le_mul_add_pred (Nat.two_pow_pos n), ← Nat.pow_add]
      have hpow : 2 ^ b ≤ 2 ^ (n + (b - n)) := Nat.pow_le_pow_right (by decide) (by omega)
      omega
    have hcarry := roundedMantissa_le (ExtendedMantissa.ofMantissaAndAccuracy m a >>> n)
    rw [shiftRight_mantissa, mantissa_of_accuracy] at hcarry
    have hone := Nat.one_le_two_pow (n := b - n)
    rw [Nat.pow_succ]
    omega
  have hlog' := log2_le hmantissa
  unfold dropped at hn ⊢
  omega

theorem shiftRight_shiftLeft (m i j : Nat) :
    (ExtendedMantissa.mk (m <<< (i + j)) false false) >>> j = ⟨m <<< i, false, false⟩ := by
  change j.repeat ExtendedMantissa.shiftRightOne _ = _
  induction j generalizing i with
  | zero => rfl
  | succ j ih =>
    rw [Nat.repeat, show i + (j + 1) = i + 1 + j by omega, ih, ExtendedMantissa.shiftRightOne,
      Nat.shiftLeft_succ]
    simp

theorem log2_shiftLeft {m : Nat} (hm : m ≠ 0) (n : Nat) : (m <<< n).log2 = m.log2 + n := by
  induction n with
  | zero => rfl
  | succ n ih =>
    have hne : m <<< n ≠ 0 := by
      rw [Nat.shiftLeft_eq]
      exact Nat.mul_ne_zero hm (Nat.ne_of_gt (Nat.two_pow_pos n))
    rw [Nat.shiftLeft_succ, Nat.log2_two_mul hne, ih, Nat.add_assoc]

theorem within_round_exact {s : Sign} {m n : Nat} {e k : Int} (hpos : m ≠ 0) (hm : m < 2 ^ 53)
    (he : -1074 ≤ e) (hbound : n + e ≤ k) :
    Within k (roundWithAccuracy binary64 s (m <<< n) e .exact) := by
  have hlt : m.log2 < 53 := (Nat.log2_lt hpos).mpr hm
  have hlog := log2_shiftLeft hpos n
  generalize hj : dropped (m <<< n) e = j
  -- no more bits are dropped than there are zeros
  obtain ⟨i, rfl⟩ : ∃ i, n = i + j := Nat.exists_eq_add_of_le' (by unfold dropped at hj; omega)
  have hdropped : (ExtendedMantissa.ofMantissaAndAccuracy (m <<< (i + j)) .exact >>> j).roundedMantissa
      = m <<< i := congrArg ExtendedMantissa.roundedMantissa (shiftRight_shiftLeft m i j)
  have hlog' := log2_shiftLeft hpos i
  refine within_roundWithAccuracy (r := m <<< i) ?_ ?_
  · rw [hj, hdropped]
  · rw [hj]
    unfold dropped at hj ⊢
    omega

/-! ### Operations -/

theorem within_div {s t : Sign} {m n b : Nat} {e f k : Int} {hm : 0 < m} {hn : 0 < n}
    (h : m ≤ 2 ^ b * n) (hbound : b + (e - f) ≤ k) (hk : -1074 ≤ k) :
    Within k (div binary64 (.finite s m e hm) (.finite t n f hn)) := by
  unfold div divCore
  dsimp only
  generalize binary64.targetExponent (totalExponent m e - totalExponent n f) = target
  generalize hshift : (e - f - min (e - f) target).toNat = shift
  have hquotient : m <<< shift / n ≤ 2 ^ (b + shift) := by
    rw [Nat.shiftLeft_eq, Nat.pow_add]
    refine Nat.div_le_of_le_mul ?_
    rw [← Nat.mul_assoc, Nat.mul_comm n]
    exact Nat.mul_le_mul_right _ h
  exact within_round hquotient (by omega) hk

theorem within_ofNat {n b : Nat} (h : n ≤ 2 ^ b) : Within b (.ofNat binary64 n) := by
  unfold ofNat ofInt UnpackedFloat.normalize
  split
  · rename_i hlt
    rw [Int.compare_eq_lt] at hlt
    omega
  · trivial
  · rw [Int.toNat_natCast, UnpackedFloat.round, decreaseExponent]
    dsimp only
    generalize (0 - binary64.targetExponent (totalExponent n 0)).toNat = shift
    refine within_round (b := b + shift) ?_ (by omega) (by omega)
    rw [Nat.shiftLeft_eq, Nat.pow_add]
    exact Nat.mul_le_mul_right _ h

/-- The exact powers of ten have last places near the point. -/
def NearPoint (x : Float) : Bool :=
  match unpacked x with
  | .finite _ _ e _ => decide (-52 ≤ e ∧ e ≤ 52)
  | _ => false

theorem nearPoint_power {i : Nat} (hi : i < Float.exactlyRepresentablePowersOfTen.size) :
    NearPoint Float.exactlyRepresentablePowersOfTen[i] := by
  have hall : Float.exactlyRepresentablePowersOfTen.all NearPoint := by decide +kernel
  rw [Array.all_eq_true_iff_forall_mem] at hall
  exact hall _ (Array.getElem_mem hi)

theorem mantissa_lt {x : Float} {s : Sign} {m : Nat} {e : Int} {hm : 0 < m}
    (h : unpacked x = .finite s m e hm) : m < 2 ^ 53 := by
  have hexact := exact_eq x
  rw [h] at hexact
  exact (exact_bounds hexact).1

theorem within_scaled {x y : Float} (hx : Within 64 (unpacked x)) (hy : NearPoint y) :
    (x / y).isFinite ∧ (x * y).isFinite := by
  have hdiv : x / y = .ofModel (.pack (div binary64 (unpacked x) (unpacked y))) := rfl
  have hmul : x * y = .ofModel (.pack (mul binary64 (unpacked x) (unpacked y))) := rfl
  unfold NearPoint at hy
  cases hv : unpacked y with
  | infinity t => simp [hv] at hy
  | notANumber => simp [hv] at hy
  | zero t => simp [hv] at hy
  | finite t n f hn =>
    rw [hdiv, hmul, hv]
    cases hu : unpacked x with
    | infinity s =>
      rw [hu] at hx
      exact hx.elim
    | notANumber =>
      rw [hu] at hx
      exact hx.elim
    | zero s => exact ⟨isFinite_of_within trivial, isFinite_of_within trivial⟩
    | finite s m e hm =>
      rw [hu] at hx
      have he : e ≤ 64 := hx
      have hf : -52 ≤ f ∧ f ≤ 52 := by
        rw [hv] at hy
        exact of_decide_eq_true hy
      have hm' := Nat.le_of_lt (mantissa_lt hu)
      have hn' := Nat.le_of_lt (mantissa_lt hv)
      have hquotient : m ≤ 2 ^ 53 * n := Nat.le_trans hm' (Nat.le_mul_of_pos_right _ hn)
      have hproduct : m * n ≤ 2 ^ 53 * 2 ^ 53 := Nat.mul_le_mul hm' hn'
      rw [← Nat.pow_add] at hproduct
      exact ⟨isFinite_of_within (within_div hquotient (by omega) (by decide)),
        isFinite_of_within (within_round hproduct (by omega) (by decide))⟩

/-! ### Decimals -/

theorem isFinite_small {m places : Nat} (hm : m < 2 ^ 53) (hplaces : places ≤ 22) (below : Bool) :
    (Float.ofScientific m below places).isFinite := by
  have hconverted : Within 64 (unpacked m.toUInt64.toFloat) := by
    refine within_pack (by decide) (by decide) (within_ofNat (b := 64) ?_)
    exact Nat.le_of_lt m.toUInt64.toNat_lt
  have hsize : Float.exactlyRepresentablePowersOfTen.size = 23 := rfl
  have hpower := nearPoint_power (i := places) (by omega)
  obtain ⟨hdiv, hmul⟩ := within_scaled hconverted hpower
  rw [Float.ofScientific, dif_pos ⟨hm, hplaces⟩]
  cases below
  · exact hmul
  · exact hdiv

theorem within_fraction {m : Nat} {e : Int} (he : e < 0) (h : m ≤ 2 ^ 53 * 10 ^ (-e).toNat) :
    Within 53 (ofScientific binary64 m e) := by
  have hpow : (2 : Int) ^ binary64.exponentBits = 2048 := by decide
  unfold ofScientific
  rw [hpow]
  by_cases hzero : m = 0
  · rw [dif_pos hzero]
    trivial
  · rw [dif_neg hzero, if_neg (by omega)]
    by_cases hsmall : e < -(2048 + (m.log2 : Int))
    · rw [if_pos hsmall]
      trivial
    · rw [if_neg hsmall, if_neg (by omega)]
      exact within_div h (by decide) (by decide)

theorem ofScientific_whole {n : Nat} (hn : n ≠ 0) :
    ofScientific binary64 n 0 = roundWithAccuracy binary64 .positive (n <<< 53) (-53) .exact := by
  have hpow : (2 : Int) ^ binary64.exponentBits = 2048 := by decide
  have hbits : binary64.mantissaBits = 53 := rfl
  have hplace : -((53 : Nat) : Int) + 0 = -53 := by decide
  unfold ofScientific
  rw [hpow, dif_neg hn, if_neg (by decide), if_neg (by omega), if_pos (by decide)]
  unfold mul
  dsimp only
  rw [hbits, hplace, Int.toNat_zero, Nat.pow_zero, Nat.mul_one]
  rfl

theorem within_whole {m n : Nat} (hm : m < 2 ^ 53) (hn : n ≤ 971) :
    Within 971 (ofScientific binary64 (m <<< n) 0) := by
  by_cases hzero : m <<< n = 0
  · rw [ofScientific, dif_pos hzero]
    trivial
  · have hpos : m ≠ 0 := fun hm => hzero (by rw [hm, Nat.zero_shiftLeft])
    rw [ofScientific_whole hzero, ← Nat.shiftLeft_add]
    exact within_round_exact hpos hm (by decide) (by omega)

theorem isFinite_places {m places : Nat} (hplaces : 0 < places) (h : m ≤ 2 ^ 53 * 10 ^ places) :
    (Float.ofScientific m true places).isFinite := by
  by_cases hsmall : m < 2 ^ 53 ∧ places ≤ 22
  · exact isFinite_small hsmall.1 hsmall.2 true
  · rw [Float.ofScientific, dif_neg hsmall]
    obtain ⟨i, rfl⟩ := Nat.exists_eq_add_of_lt hplaces
    have hwithin : Within 53 (ofScientific binary64 m (.negSucc (0 + i))) :=
      within_fraction (Int.negSucc_lt_zero _) h
    exact (within_pack (by decide) (by decide) hwithin).isFinite

theorem isFinite_whole {m n : Nat} (hm : m < 2 ^ 53) (hn : n ≤ 971) :
    (Float.ofScientific (m <<< n) false 0).isFinite := by
  by_cases hsmall : m <<< n < 2 ^ 53 ∧ 0 ≤ 22
  · exact isFinite_small hsmall.1 hsmall.2 false
  · rw [Float.ofScientific, dif_neg hsmall]
    exact isFinite_of_within (within_whole hm hn)

end ClockTree.Number
