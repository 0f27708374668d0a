import ClockTree.Clock.Wave

/-!
# Equality of floating point numbers

Numbers that compare equal are the same except for the sign of a zero. The operations go through the
unpacked form of a number, and a comparison, or a sum with a number other than zero, does not tell
the two zeros apart. So a wave stays valid when its numbers are replaced by equal ones.
-/
namespace ClockTree
namespace Number
open Float.Model (UnpackedFloat)
open Float.Model.UnpackedFloat (Sign unpackMantissa unpackExponent unpackSign)
open Float.Model.Format (binary64)

def unpacked (x : Float) : UnpackedFloat := x.toModel.unpack

def isNegative : Sign → Bool
  | .negative => true
  | .positive => false

def Exact.ofUnpacked : UnpackedFloat → Exact
  | .notANumber => .nan
  | .infinity s => .infinite (isNegative s)
  | .zero s => .finite (isNegative s) 0 leastExponent
  | .finite s m e _ => .finite (isNegative s) m e

section
variable (b : BitVec binary64.numBits)

theorem toNat_unpackMantissa : (unpackMantissa b).toNat = b.toNat % (1 <<< 52) := by
  simp [unpackMantissa, BitVec.extractLsb_toNat]

theorem toNat_unpackExponent : (unpackExponent b).toNat = (b.toNat >>> 52) % 2048 := by
  simp [unpackExponent, BitVec.extractLsb_toNat]

theorem isNegative_unpackSign :
    isNegative (.ofBitVec (unpackSign b)) = decide (1 <<< 63 ≤ b.toNat) := by
  have hb := b.isLt
  have hsign : unpackSign b = 0#1 ↔ b.toNat < 1 <<< 63 := by
    have hbit : (unpackSign b).toNat = (b.toNat >>> 63) % 2 := by
      change ((b.extractLsb 63 63).cast _).toNat = _
      simp [BitVec.extractLsb_toNat]
    rw [← BitVec.toNat_inj, hbit, Nat.shiftRight_eq_div_pow]
    simp only [binary64, Float.Model.Format.numBits] at hb
    simp only [Nat.reducePow, Nat.reduceShiftLeft, BitVec.toNat_ofNat, Nat.reduceMod]
    omega
  unfold Sign.ofBitVec
  split
  · rename_i h
    have hlt := hsign.mp h
    simp only [isNegative, Bool.false_eq, decide_eq_false_iff_not]
    omega
  · rename_i h
    have hle := mt hsign.mpr h
    simp only [isNegative, Bool.true_eq, decide_eq_true_eq]
    omega

theorem unpackExponent_eq_ones_iff : unpackExponent b = -1#_ ↔ (b.toNat >>> 52) % 2048 = 2047 := by
  rw [← BitVec.toNat_inj, toNat_unpackExponent]
  simp

theorem unpackExponent_eq_zero_iff : unpackExponent b = 0#_ ↔ (b.toNat >>> 52) % 2048 = 0 := by
  rw [← BitVec.toNat_inj, toNat_unpackExponent]
  simp

theorem unpackMantissa_eq_zero_iff : unpackMantissa b = 0#_ ↔ b.toNat % (1 <<< 52) = 0 := by
  rw [← BitVec.toNat_inj, toNat_unpackMantissa]
  simp

end

theorem toNat_implicit (f : BitVec 52) : (1#1 ++ f).toNat = (1 <<< 52) + f.toNat := by
  rw [BitVec.toNat_append, ← Nat.shiftLeft_add_eq_or_of_lt f.isLt]
  rfl

/-- The form that is read off the bits is the one in which the operations compute. -/
theorem exact_eq (x : Float) : exact x = .ofUnpacked (unpacked x) := by
  unfold exact unpacked Float.Model.unpack UnpackedFloat.unpack
  rw [show x.toBits.toNat = x.toModel.toBits.toBitVec.toNat from rfl]
  generalize x.toModel.toBits.toBitVec = b
  have he := toNat_unpackExponent b
  have hm := toNat_unpackMantissa b
  have hs := isNegative_unpackSign b
  have hall := unpackExponent_eq_ones_iff b
  have hnone := unpackExponent_eq_zero_iff b
  have hempty := unpackMantissa_eq_zero_iff b
  dsimp only
  by_cases h : (b.toNat >>> 52) % 2048 = 2047
  · rw [if_pos h, if_pos (hall.mpr h)]
    by_cases hf : b.toNat % (1 <<< 52) = 0
    · rw [if_pos hf, if_pos (hempty.mpr hf), ← hs]
      rfl
    · rw [if_neg hf, if_neg (mt hempty.mp hf)]
      rfl
  · rw [if_neg h, if_neg (mt hall.mp h)]
    by_cases h0 : (b.toNat >>> 52) % 2048 = 0
    · rw [if_pos h0, if_pos (hnone.mpr h0)]
      by_cases hf : b.toNat % (1 <<< 52) = 0
      · rw [dif_pos (hempty.mpr hf), ← hs, hf]
        rfl
      · have hsome := mt hempty.mp hf
        rw [dif_neg hsome, ← hs, ← hm, he, h0]
        rfl
    · rw [if_neg h0, if_neg (mt hnone.mp h0), ← hs, ← hm, ← toNat_implicit, he]
      rfl

theorem beq_eq (x y : Float) : (x == y) = ((unpacked x).compare (unpacked y) == some .eq) := rfl

theorem decide_lt_eq (x y : Float) :
    decide (x < y) = ((unpacked x).compare (unpacked y) == some .lt) := by
  rw [Bool.eq_iff_iff, decide_eq_true_iff]
  exact decide_eq_true_iff

theorem isFinite_eq (x : Float) : x.isFinite = (unpacked x).isFinite := rfl

theorem add_eq (x y : Float) :
    x + y = .ofModel (.pack (.add binary64 (unpacked x) (unpacked y))) := rfl

def IsZero (u : UnpackedFloat) : Prop := ∃ s, u = .zero s

/-- Two numbers that differ in the sign of a zero at most. -/
def Alike (u v : UnpackedFloat) : Prop := u = v ∨ IsZero u ∧ IsZero v

theorem alike_of_beq {x y : Float} (h : x == y) : Alike (unpacked x) (unpacked y) := by
  rw [beq_eq, beq_iff_eq] at h
  generalize unpacked x = u at h ⊢
  generalize unpacked y = v at h ⊢
  cases u with
  | notANumber => cases v <;> cases h
  | infinity s =>
    cases v with
    | notANumber => cases h
    | infinity s' =>
      left
      cases s <;> cases s' <;> first | rfl | cases h
    | zero s' => cases s <;> cases h
    | finite s' m e hm => cases s <;> cases h
  | zero s =>
    cases v with
    | notANumber => cases h
    | infinity s' => cases s' <;> cases h
    | zero s' => exact Or.inr ⟨⟨s, rfl⟩, ⟨s', rfl⟩⟩
    | finite s' m e hm => cases s' <;> cases h
  | finite s m e hm =>
    cases v with
    | notANumber => cases s <;> cases h
    | infinity s' => cases s <;> cases s' <;> cases h
    | zero s' => cases s <;> cases h
    | finite s' m' e' hm' =>
      left
      have hsame : (compare e e').then (compare m m') = .eq → e = e' ∧ m = m' := fun h => by
        simpa [Ordering.then_eq_eq] using h
      cases s with
      | negative =>
        cases s' with
        | negative =>
          obtain ⟨rfl, rfl⟩ := hsame (Ordering.swap_eq_eq.mp (Option.some.inj h))
          rfl
        | positive => cases h
      | positive =>
        cases s' with
        | negative => cases h
        | positive =>
          obtain ⟨rfl, rfl⟩ := hsame (Option.some.inj h)
          rfl

namespace Alike
variable {u v : UnpackedFloat}

theorem compare_left (h : Alike u v) (w : UnpackedFloat) : u.compare w = v.compare w := by
  obtain rfl | ⟨⟨s, rfl⟩, ⟨s', rfl⟩⟩ := h
  · rfl
  · cases w with
    | notANumber => rfl
    | infinity t => cases t <;> rfl
    | zero t => rfl
    | finite t m e hm => cases t <;> rfl

theorem compare_right (h : Alike u v) (w : UnpackedFloat) : w.compare u = w.compare v := by
  obtain rfl | ⟨⟨s, rfl⟩, ⟨s', rfl⟩⟩ := h
  · rfl
  · cases w with
    | notANumber => rfl
    | infinity t => cases t <;> rfl
    | zero t => rfl
    | finite t m e hm => cases t <;> rfl

theorem isFinite (h : Alike u v) : u.isFinite = v.isFinite := by
  obtain rfl | ⟨⟨s, rfl⟩, ⟨s', rfl⟩⟩ := h <;> rfl

end Alike

theorem isFinite_of_beq {x y : Float} (h : x == y) : x.isFinite = y.isFinite :=
  (alike_of_beq h).isFinite

theorem add_congr {x x' y y' : Float} (hx : Alike (unpacked x) (unpacked x'))
    (hy : unpacked y = unpacked y') (hne : ¬ IsZero (unpacked y)) : x + y = x' + y' := by
  rw [add_eq, add_eq, ← hy]
  obtain hx | ⟨⟨s, hx⟩, ⟨s', hx'⟩⟩ := hx
  · rw [hx]
  · rw [hx, hx']
    congr 2
    generalize unpacked y = u at hne
    cases u with
    | notANumber => rfl
    | infinity t => rfl
    | zero t => exact absurd ⟨t, rfl⟩ hne
    | finite t m e hm => rfl

end Number

namespace Wave
open Number

theorem none_iff_of_checks {α : Type} {a b c : Bool} {x y z : α} :
    (if !a then some x else if !b then some y else if !c then some z else none) = none ↔
      a = true ∧ b = true ∧ c = true := by
  cases a <;> cases b <;> cases c <;> simp

theorem valid_iff (w : Wave Float) : w.Valid ↔
    ((unpacked w.period).isFinite && (unpacked 0).compare (unpacked w.period) == some .lt) ∧
    ((unpacked w.rise).isFinite
      && ((unpacked 0).compare (unpacked w.rise) == some .lt
        || (unpacked 0).compare (unpacked w.rise) == some .eq)
      && (unpacked w.rise).compare (unpacked w.period) == some .lt) ∧
    ((unpacked w.fall).isFinite && (unpacked w.rise).compare (unpacked w.fall) == some .lt
      && (unpacked w.fall).compare (unpacked (w.rise + w.period)) == some .lt) := by
  unfold Valid fault? Scalar.positive Scalar.atMost Scalar.zero
  rw [none_iff_of_checks]
  simp only [Scalar.less, Scalar.same, Scalar.isFinite, Scalar.ofInt, decide_lt_eq, beq_eq,
    isFinite_eq]
  rfl

theorem Valid.of_beq {w w' : Wave Float} (h : w.Valid) (hperiod : w.period == w'.period)
    (hrise : w.rise == w'.rise) (hfall : w.fall == w'.fall) : w'.Valid := by
  rw [valid_iff] at h ⊢
  have hne : ¬ IsZero (unpacked w.period) := by
    intro hzero
    obtain ⟨s, hs⟩ := hzero
    have hpositive := h.1
    rw [hs, show unpacked 0 = .zero .positive from rfl, Bool.and_eq_true] at hpositive
    exact absurd hpositive.2 Bool.false_ne_true
  have hperiod : unpacked w.period = unpacked w'.period :=
    (alike_of_beq hperiod).resolve_right fun hzero => hne hzero.1
  have hrise := alike_of_beq hrise
  have hfall := alike_of_beq hfall
  have hsum : w.rise + w.period = w'.rise + w'.period := add_congr hrise hperiod hne
  rwa [← hperiod, ← hrise.isFinite, ← hfall.isFinite, ← hsum, ← hrise.compare_right,
    ← hrise.compare_left, ← hrise.compare_left, ← hfall.compare_right, ← hfall.compare_left]

theorem Valid.period_pos {w : Wave Float} (h : w.Valid) : 0 < w.period := by
  have hlt := ((valid_iff w).mp h).1
  rw [Bool.and_eq_true, ← decide_lt_eq, decide_eq_true_iff] at hlt
  exact hlt.2

theorem Valid.finite {w : Wave Float} (h : w.Valid) :
    w.period.isFinite ∧ w.rise.isFinite ∧ w.fall.isFinite := by
  have hw := (valid_iff w).mp h
  simp only [Bool.and_eq_true] at hw
  exact ⟨hw.1.1, hw.2.1.1.1, hw.2.2.1.1⟩

end Wave
end ClockTree
