import ClockTree.Proofs.Number.Printed
import ClockTree.Proofs.Number.Sum
import ClockTree.Proofs.Session.DeclarationLine

/-!
# The waves that are printed

The line of a clock has the three times of its wave, each rounded to decimal places on its own. So
the printed wave may lose its distances: its edges may come together, or reach the end of the period
or pass it by a unit. Otherwise it is valid, and its line is taken as long as the numbers that are
read for its times are a valid wave.
-/
namespace ClockTree
open Number Command Writer

namespace Wave
variable {places : Nat} {w w' : Wave ℚ}

structure RoundsTo (places : Nat) (w w' : Wave ℚ) : Prop where
  period : Number.RoundsTo places w.period w'.period
  rise : Number.RoundsTo places w.rise w'.rise
  fall : Number.RoundsTo places w.fall w'.fall

/-- The times keep their distances by more than rounding to multiples of `u` takes away. -/
structure Spaced (u : ℚ) (w : Wave ℚ) : Prop where
  period : w.rise + u < w.period
  rise : w.rise + u < w.fall
  fall : w.fall + 3 / 2 * u < w.rise + w.period

namespace RoundsTo

theorem weaken (h : w.RoundsTo places w') (hw : w.Valid) :
    (0 ≤ w'.rise ∧ w'.rise ≤ w'.period) ∧ w'.rise ≤ w'.fall ∧
      w'.fall ≤ w'.rise + w'.period + 1 / 10 ^ places := by
  obtain ⟨-, ⟨hzero, hbefore⟩, hafter, hlast⟩ := valid_rat_iff.mp hw
  refine ⟨⟨h.rise.nonneg hzero, h.rise.mono h.period hbefore.le⟩, h.rise.mono h.fall hafter.le, ?_⟩
  obtain ⟨p, hp, hpdistance, -⟩ := h.period
  obtain ⟨r, hr, hrdistance, -⟩ := h.rise
  obtain ⟨f, hf, hfdistance, -⟩ := h.fall
  have hscaled := mul_lt_mul_of_pos_right hlast (ten_pow_pos places)
  rw [add_mul] at hscaled
  have hlt : (f : ℚ) < r + p + 2 := by
    linarith [(abs_le.mp hpdistance).2, (abs_le.mp hrdistance).2, (abs_le.mp hfdistance).1]
  have hle : f ≤ r + p + 1 := by
    have hint : f < r + p + 2 := by exact_mod_cast hlt
    omega
  rw [hp, hr, hf, ← add_div, ← add_div]
  refine div_le_div_of_nonneg_right ?_ (ten_pow_pos places).le
  exact_mod_cast hle

theorem valid_iff (h : w.RoundsTo places w') (hw : w.Valid) :
    w'.Valid ↔ w'.rise ≠ w'.period ∧ w'.rise ≠ w'.fall ∧ w'.fall < w'.rise + w'.period := by
  obtain ⟨⟨hzero, hbefore⟩, hafter, -⟩ := h.weaken hw
  rw [valid_rat_iff]
  constructor
  · rintro ⟨-, ⟨-, hbefore⟩, hafter, hlast⟩
    exact ⟨hbefore.ne, hafter.ne, hlast⟩
  · rintro ⟨hperiod, hfall, hlast⟩
    have hbefore := lt_of_le_of_ne hbefore hperiod
    exact ⟨hzero.trans_lt hbefore, ⟨hzero, hbefore⟩, lt_of_le_of_ne hafter hfall, hlast⟩

theorem valid_of_spaced (h : w.RoundsTo places w') (hw : w.Valid)
    (hspaced : w.Spaced (1 / 10 ^ places)) : w'.Valid := by
  have hperiod := abs_le.mp h.period.abs_sub_le
  have hrise := abs_le.mp h.rise.abs_sub_le
  have hfall := abs_le.mp h.fall.abs_sub_le
  obtain ⟨hbefore, hafter, hlast⟩ := hspaced
  rw [h.valid_iff hw]
  have hhalf : (1 : ℚ) / 2 / 10 ^ places = 1 / 2 * (1 / 10 ^ places) := by ring
  rw [hhalf] at hperiod hrise hfall
  generalize (1 : ℚ) / 10 ^ places = u at hperiod hrise hfall hbefore hafter hlast
  refine ⟨?_, ?_, ?_⟩
  · intro heq
    linarith
  · intro heq
    linarith
  · linarith

theorem valid_of_near (h : w.RoundsTo places w') (hw' : w'.Valid) (hplaces : places ≤ 30)
    (hcount : w'.rise + w'.period ≤ 2 ^ 50 / 10 ^ places) {v : Wave Float}
    (hperiod : w'.period ≤ 2 ^ 50 / 10 ^ places → Approximates v.period w'.period)
    (hrise : w'.rise ≤ 2 ^ 50 / 10 ^ places → Approximates v.rise w'.rise)
    (hfall : w'.fall ≤ 2 ^ 50 / 10 ^ places → Approximates v.fall w'.fall) : v.Valid := by
  obtain ⟨hpos, ⟨hzero, hbefore⟩, hafter, hlast⟩ := valid_rat_iff.mp hw'
  obtain ⟨p, hp, -⟩ := h.period
  obtain ⟨r, hr, -⟩ := h.rise
  obtain ⟨f, hf, -⟩ := h.fall
  have hunit : (2 : ℚ) ^ (-100 : ℤ) ≤ 1 / 10 ^ places ∧ (1 : ℚ) / 10 ^ places ≤ 1 := by
    have hone : (1 : ℚ) ≤ 10 ^ places := one_le_pow₀ (by norm_num)
    have hmost : (10 : ℚ) ^ places ≤ 10 ^ 30 := pow_le_pow_right₀ (by norm_num) hplaces
    exact ⟨(one_div_le_one_div_of_le (ten_pow_pos places) hmost).trans' (by norm_num),
      div_le_one_of_le₀ hone (ten_pow_pos places).le⟩
  refine valid_of_approximates (hperiod (by linarith)) (hrise (by linarith)) (hfall (by linarith))
    hunit hzero ?_ ?_ ?_ (by rwa [mul_one_div])
  · rw [hr, hp] at hbefore ⊢
    exact add_unit_le hbefore
  · rw [hr, hf] at hafter ⊢
    exact add_unit_le hafter
  · have hsum : w'.rise + w'.period = (r + p : ℤ) / 10 ^ places := by
      rw [hr, hp, ← add_div, Int.cast_add]
    rw [hf, hsum] at hlast ⊢
    exact add_unit_le hlast

end RoundsTo
end Wave

namespace Session

/-- The line of the clock has the times `printed` as exact decimals, and `reread` are the numbers that
its times are read as. -/
structure Prints (d : Design) (places : Nat) (c : Clock) (printed : Wave ℚ) (reread : Wave Float) :
    Prop where
  decimals : c.wave.reread? decimal? places = some printed
  numbers : c.wave.reread? read? places = some reread
  rounded : c.wave.values.Valid ∧ c.wave.values.RoundsTo places printed
  weakened : (0 ≤ printed.rise ∧ printed.rise ≤ printed.period) ∧ printed.rise ≤ printed.fall ∧
    printed.fall ≤ printed.rise + printed.period + 1 / 10 ^ places
  valid_iff : printed.Valid ↔ printed.rise ≠ printed.period ∧ printed.rise ≠ printed.fall ∧
    printed.fall < printed.rise + printed.period
  valid : c.wave.values.Spaced (1 / 10 ^ places) → printed.Valid
  reread_valid : printed.Valid → printed.rise + printed.period ≤ 2 ^ 50 / 10 ^ places →
    reread.Valid
  /-- The arguments of the line are taken in every session on the design. -/
  accepted : ∀ (actions : List Action) (q : Query), selectWires d "create_clock" q = .ok c.wires →
    ((CreateClock.run (after d actions)
      ((CreateClock.pieces places c.name c.wave q).map Script.Piece.argument)).2 = .ok () ↔
        reread.Valid)
  /-- Where names are paths, the line itself is carried out. -/
  carried_out : d.Distinct → d.Named → IsPath c.name → ∀ (actions : List Action) (file : Nat),
    (((after d actions).runScript file (declarationLine d places c ++ "\n")).2 = ⟨1, 0, 0⟩ ↔
      reread.Valid)

section
variable {d : Design} {places : Nat} {c : Clock} {w : Wave Float}

theorem accepts_iff {actions : List Action} {q : Query}
    (h : c.wave.reread? read? places = some w) (hfinite : w.period.isFinite) (hne : c.wires ≠ [])
    (hinside : ∀ x ∈ c.wires, (d.wire? x).isSome)
    (hq : selectWires d "create_clock" q = .ok c.wires) :
    (CreateClock.run (after d actions)
      ((CreateClock.pieces places c.name c.wave q).map Script.Piece.argument)).2 = .ok () ↔
        w.Valid := by
  obtain ⟨hdesign, hsound, -⟩ := after_regular d actions
  exact CreateClock.run_written_ok_iff (by rwa [hdesign]) h hfinite (by rwa [hdesign]) hne
    (by rwa [hdesign])

theorem runScript_declarationLine (hnamed : d.Named) (hname : IsPath c.name)
    (h : c.wave.reread? read? places = some w) (hne : c.wires ≠ [])
    (hinside : ∀ x ∈ c.wires, (d.wire? x).isSome) (s : Session) (file : Nat) :
    (s.runScript file (declarationLine d places c ++ "\n")).2 = ⟨1, 0, 0⟩ ↔
      (CreateClock.run s ((CreateClock.pieces places c.name c.wave
        ⟨targetKind d c, d.paths c.wires⟩).map Script.Piece.argument)).2 = .ok () := by
  have hplain := declaration_plain hnamed hname hne hinside h
  obtain ⟨t, hscript, -⟩ :=
    runScript_createClock (Script.Line.single hplain) (Script.Line.readCommand hplain) s file
  rw [String.ofList_toList, declaration_text hnamed hname] at hscript
  rw [hscript]
  dsimp only [declaration]
  cases (CreateClock.run s ((CreateClock.pieces places c.name c.wave
    ⟨targetKind d c, d.paths c.wires⟩).map Script.Piece.argument)).2 with
  | ok u => simp
  | error fault => simp

end

theorem prints_clock (d : Design) (actions : List Action) {c : Clock}
    (hc : c ∈ (after d actions).clocks.clocks) {places : Nat} (hplaces : places ≤ 9) :
    ∃ printed reread, Prints d places c printed reread := by
  obtain ⟨-, hsound, -⟩ := after_regular d actions
  have hvalid := hsound.valid c hc
  obtain ⟨hne, hnodup⟩ := hsound.wires c hc
  have hinside := hsound.inside c hc
  obtain ⟨hpfinite, hrfinite, hffinite⟩ := hvalid.finite
  obtain ⟨hpos, ⟨hzero, hbefore⟩, hafter, hlast⟩ := Wave.valid_rat_iff.mp hvalid.values
  have hmost := hplaces.trans (by decide : 9 ≤ 22)
  obtain ⟨p, p', hp, hpround, hpread, hpfinite', hpnear⟩ := exists_decimal hpfinite hpos.le hmost
  obtain ⟨r, r', hr, hrround, hrread, hrfinite', hrnear⟩ := exists_decimal hrfinite hzero hmost
  obtain ⟨f, f', hf, hfround, hfread, hffinite', hfnear⟩ :=
    exists_decimal hffinite (hzero.trans hafter.le) hmost
  have hround : c.wave.values.RoundsTo places ⟨p, r, f⟩ := ⟨hpround, hrround, hfround⟩
  have hreread : c.wave.reread? read? places = some ⟨p', r', f'⟩ :=
    Wave.reread?_eq_some_iff.mpr ⟨hpread, hrread, hfread⟩
  refine ⟨⟨p, r, f⟩, ⟨p', r', f'⟩, {
    decimals := Wave.reread?_eq_some_iff.mpr ⟨hp, hr, hf⟩
    numbers := hreread
    rounded := ⟨hvalid.values, hround⟩
    weakened := hround.weaken hvalid.values
    valid_iff := hround.valid_iff hvalid.values
    valid := hround.valid_of_spaced hvalid.values
    reread_valid := ?_
    accepted := ?_
    carried_out := ?_ }⟩
  · exact fun hprinted hcount =>
      hround.valid_of_near hprinted (hplaces.trans (by decide)) hcount hpnear hrnear hfnear
  · exact fun actions q hq => accepts_iff hreread hpfinite' hne hinside hq
  · intro hdistinct hnamed hname actions file
    rw [runScript_declarationLine hnamed hname hreread hne hinside]
    exact accepts_iff hreread hpfinite' hne hinside
      (selectWires_declaration hdistinct hnamed hne hnodup hinside)

theorem prints_clock_core :
    coreClock ∈ (after busBench busActions).clocks.clocks ∧ 3 ≤ 9 ∧
      ∃ reread, Prints busBench 3 coreClock ⟨5, 0, 5 / 2⟩ reread ∧ reread.Valid := by
  have hclock : coreClock ∈ (after busBench busActions).clocks.clocks := by decide +kernel
  obtain ⟨printed, reread, h⟩ := prints_clock busBench busActions hclock (by decide : 3 ≤ 9)
  have hdecimals : coreClock.wave.reread? decimal? 3 = some ⟨5, 0, 5 / 2⟩ := by decide +kernel
  obtain rfl := Option.some.inj (h.decimals.symm.trans hdecimals)
  exact ⟨hclock, by decide, reread, h, h.reread_valid (by decide +kernel) (by norm_num)⟩

@[irreducible]
def tinyActions : List Action := [.declare (.explicit "clk" [⟨0, 1⟩] 0.0004 none)]

def tinyClock : Clock := ⟨"clk", [⟨0, 1⟩], .symmetric 0.0004, .explicit⟩

/-- A period of less than half a unit is printed as zero, and the line is not taken. -/
theorem prints_clock_collapses :
    let line := declarationLine busBench 3 tinyClock
    tinyClock ∈ (after busBench tinyActions).clocks.clocks ∧
      line = "create_clock -name clk -period 0 -waveform \x7b0 0\x7d [get_ports \x7bdata3\x7d]" ∧
      tinyClock.wave.reread? decimal? 3 = some ⟨0, 0, 0⟩ ∧ ¬ Wave.Valid (⟨0, 0, 0⟩ : Wave ℚ) ∧
      (({ design := busBench } : Session).runScript 0 (line ++ "\n")).2 = ⟨0, 1, 0⟩ := by
  decide +kernel

end Session
end ClockTree
