import ClockTree.Proofs.Command.Targets
import ClockTree.Proofs.Writer.Selectors

/-!
# The line of a clock on ports

The line that is written for a clock on ports of the top module is read as one command, with the
words of the written port names as patterns. So the clock is declared on its ports again if these
patterns select them, and a name that is more than its characters to a pattern may select others.
-/
namespace ClockTree
open Script Writer Command

namespace Session

/-! ### Carrying out the line -/

section
variable {d : Design} {places : Nat} {c : Clock} {w : Wave Float}

def declarationParts (places : Nat) (c : Clock) (names : List String) : List (List Char × Token) :=
  [plainPart (.word "-name"), ((writeWord c.name).toList, .word c.name.toList),
    plainPart (.word "-period"), plainPart (.word (Number.trimmed places c.wave.period)),
    plainPart (.word "-waveform"),
    plainPart (.list [Number.trimmed places c.wave.rise, Number.trimmed places c.wave.fall]),
    ((selector .ports names).toList, .bracket (queryText .ports (writtenNames names)))]

theorem declarationLine_sentence (hports : ∀ w ∈ c.wires, d.isOuterPort w) :
    (declarationLine d places c).toList =
      sentence .createClock (declarationParts places c (d.paths c.wires)) := by
  have hall : c.wires.all d.isOuterPort := List.all_eq_true.mpr hports
  have hfirst : "create_clock -name ".toList =
      "create_clock".toList ++ ' ' :: "-name".toList ++ [' '] := by decide
  have hperiod : " -period ".toList = ' ' :: "-period".toList ++ [' '] := by decide
  have hwaveform : " -waveform \x7b".toList = ' ' :: "-waveform".toList ++ [' ', '\x7b'] := by decide
  have hblank : " ".toList = [' '] := by decide
  have hlast : "\x7d ".toList = ['\x7d', ' '] := by decide
  have hedges : ∀ x y, (Piece.list [x, y]).text.toList =
      '\x7b' :: (x.toList ++ ' ' :: (y.toList ++ ['\x7d'])) := by simp [Piece.text]
  have hword : ∀ w, (Piece.word w).text = w := fun _ => rfl
  unfold declarationLine
  simp only [hall, if_true, String.toList_append, hfirst, hperiod, hwaveform, hblank, hlast, sentence,
    declarationParts, plainPart, List.map_cons, List.map_nil, List.intercalate_cons_cons,
    List.intercalate_singleton, hword, hedges, Command.name]
  simp only [List.append_assoc, List.cons_append, List.nil_append]

theorem declarationParts_denote (hname : Sheltered c.name) {names : List String}
    (hnames : Queried names) (h : c.wave.ReadsAs places w) :
    ∀ p ∈ declarationParts places c names, Denotes p.1 p.2 := by
  have hplain : ∀ {p : Piece}, p.Plain → Denotes (plainPart p).1 (plainPart p).2 := Piece.denotes
  have hoption : ∀ {o : String}, Script.Plain o → (Piece.word o).Plain := id
  have hedges : (Piece.list [Number.trimmed places c.wave.rise,
      Number.trimmed places c.wave.fall]).Plain :=
    List.forall_mem_cons.mpr ⟨.of_readsAs h.rise, List.forall_mem_singleton.mpr (.of_readsAs h.fall)⟩
  simp only [declarationParts, List.forall_mem_cons]
  exact ⟨hplain (hoption (by decide)), hname.denotes, hplain (hoption (by decide)),
    hplain (hoption (.of_readsAs h.period)), hplain (hoption (by decide)), hplain hedges,
    hnames.denotes .ports, List.forall_mem_nil _⟩

theorem readCommand_declaration (hname : Sheltered c.name) {names : List String}
    (hnames : Queried names) (h : c.wave.ReadsAs places w) :
    readCommand (sentence .createClock (declarationParts places c names)) =
      .ok ("create_clock", (CreateClock.pieces places c.name c.wave
        ⟨.ports, writtenPatterns names⟩).map Piece.argument) := by
  have hword : ∀ w : String, readArgument (.word w.toList) = .ok (.word w) := fun w => by
    rw [readArgument, String.ofList_toList]
  rw [readCommand_sentence fun p hp => (declarationParts_denote hname hnames h p hp).spells]
  simp only [declarationParts, plainPart, Piece.token, List.mapM_cons, List.mapM_nil, hword,
    hnames.readArgument (by decide : ObjectKind.ports ≠ .objects)]
  rfl

theorem runScript_createClock {cs : List Char} {args : List Argument} (hsingle : Single cs)
    (hread : readCommand cs = .ok ("create_clock", args)) (s : Session) (file : Nat) :
    ∃ t, s.runScript file (String.ofList cs ++ "\n") = (t, match (CreateClock.run s args).2 with
        | .ok () => ⟨1, 0, 0⟩
        | .error _ => ⟨0, 1, 0⟩) ∧ t.clocks = (CreateClock.run s args).1.clocks := by
  have hsplit : (split (String.ofList cs ++ "\n")).map (·.text) = [cs] := by
    have hline : ∀ l ∈ [String.ofList cs], Single l.toList :=
      List.forall_mem_singleton.mpr (by rwa [String.toList_ofList])
    simpa using split_join hline
  obtain ⟨st, hst, hcommand⟩ := List.map_eq_singleton_iff.mp hsplit
  rw [runScript, runCommands, hst, List.foldl_cons, List.foldl_nil, advance, runCommand,
    hcommand, hread]
  have hname : Command.ofName? "create_clock" = some .createClock := by decide
  simp only [hname, perform]
  cases hrun : CreateClock.run s args with
  | mk t result =>
    cases result with
    | error fault => exact ⟨_, rfl, rfl⟩
    | ok u => exact ⟨_, rfl, rfl⟩

theorem declare_first {s : Session} (hclocks : s.clocks = {}) {spec : ClockDeclaration}
    (h : Registry.refuse? s.design spec = none) :
    ∃ t, s.declare spec = .ok (spec.clock, t) ∧ t.clocks.clocks = [spec.clock] := by
  have hsound : s.clocks.Sound s.design := hclocks ▸ Registry.Sound.empty
  obtain ⟨fault, hrefused, -⟩ | ⟨transfer, -, hcompletes, -, hadd⟩ := hsound.add_cases spec
  · cases h.symm.trans hrefused
  · have hwires : spec.clock.wires ≠ [] := Registry.clock_wires_ne h
    have hnone : s.clocks.clocks = [] := by rw [hclocks]
    have happend := hcompletes.clocks_append hsound.wires_ne hwires (by simp [hnone])
      (by simp [hnone])
    rw [hnone, List.nil_append] at happend
    exact ⟨_, declare_of_add hadd, happend⟩

/-- The line has been read, and the clock is declared on its wires with the times that are read. -/
def Redeclares (places : Nat) (c : Clock) (k : Session × ScriptReport) : Prop :=
  k.2 = ⟨1, 0, 0⟩ ∧ ∃ c', k.1.clocks.clocks = [c'] ∧ c.ReadsAs places c'

theorem wires_nodup_of_selectWires {command : String} {q : Query} {ws : List WireKey}
    (h : selectWires d command q = .ok ws) : ws.Nodup := by
  unfold selectWires at h
  dsimp only at h
  split at h <;> obtain ⟨ps, -, h⟩ := bind_eq_ok_iff.mp h <;> split at h <;> cases h
  · exact nodup_eraseDups _
  · exact nodup_eraseDups _

theorem declare_restores_iff {s : Session} (hclocks : s.clocks = {}) (hread : w.Valid)
    (hinside : ∀ v ∈ c.wires, (s.design.wire? v).isSome) (h : c.wave.ReadsAs places w)
    {ws : List WireKey} (hne : ws ≠ []) (hws : ws.Nodup) :
    (∃ clock t, s.declare ⟨c.name, ws, w, .explicit⟩ = .ok (clock, t) ∧
      ∃ c', t.clocks.clocks = [c'] ∧ c.ReadsAs places c') ↔ ws = c.wires := by
  have hclock : ClockDeclaration.clock ⟨c.name, ws, w, .explicit⟩ = ⟨c.name, ws, w, .explicit⟩ := by
    rw [ClockDeclaration.clock, eraseDups_of_nodup hws]
  constructor
  · intro found
    obtain ⟨clock, t, hdeclare, c', hc', hreads⟩ := found
    cases hspec : Registry.refuse? s.design ⟨c.name, ws, w, .explicit⟩ with
    | some fault =>
      simp only [declare, Registry.add, Registry.attempt, hspec] at hdeclare
      cases hdeclare
    | none =>
      obtain ⟨t', hdeclare', hfirst⟩ := declare_first hclocks hspec
      cases hdeclare.symm.trans hdeclare'
      rw [hclock] at hfirst
      obtain rfl := List.singleton_inj.mp (hfirst.symm.trans hc')
      exact hreads.wires
  · intro hsame
    have hspec : Registry.refuse? s.design ⟨c.name, ws, w, .explicit⟩ = none :=
      Registry.refuse?_eq_none_iff.mpr ⟨hread, hne, hsame ▸ hinside⟩
    obtain ⟨t, hdeclare, hfirst⟩ := declare_first hclocks hspec
    rw [hclock] at hfirst
    exact ⟨_, t, hdeclare, _, hfirst, ⟨rfl, hsame, rfl, h⟩⟩

theorem redeclares_iff {s : Session} (hdesign : s.design = d) (hclocks : s.clocks = {})
    (hvalid : c.wave.Valid) (hne : c.wires ≠ []) (hinside : ∀ w ∈ c.wires, (d.wire? w).isSome)
    (hports : ∀ w ∈ c.wires, d.isOuterPort w) (h : c.wave.ReadsAs places w)
    (hname : Sheltered c.name) (hnames : Queried (d.paths c.wires)) (file : Nat) :
    Redeclares places c (s.runScript file (declarationLine d places c ++ "\n")) ↔
      selectWires d "create_clock" ⟨.ports, writtenPatterns (d.paths c.wires)⟩ = .ok c.wires ∨
      selectWires d "create_clock" ⟨.ports, writtenPatterns (d.paths c.wires)⟩ = .ok [] ∧
        d.wiresCalled c.name = c.wires := by
  subst hdesign
  have hline : declarationLine s.design places c = String.ofList
      (sentence .createClock (declarationParts places c (s.design.paths c.wires))) := by
    rw [← declarationLine_sentence hports, String.ofList_toList]
  have hdenotes := declarationParts_denote hname hnames h
  obtain ⟨t, hscript, hregistry⟩ := runScript_createClock (single_sentence hdenotes)
    (readCommand_declaration hname hnames h) s file
  rw [hline, hscript]
  clear hline hscript
  have hread := h.valid hvalid
  generalize hselect : selectWires s.design "create_clock"
    ⟨.ports, writtenPatterns (s.design.paths c.wires)⟩ = selected
  cases selected with
  | error fault =>
    rw [CreateClock.run_refused h.reread hread.finite.1 hread.period_pos hselect]
    simp [Redeclares]
  | ok ws =>
    rw [CreateClock.run_selected h.reread hread.finite.1 hread.period_pos hselect] at hregistry ⊢
    have hwires : (if ws.isEmpty then s.design.wiresCalled c.name else ws).Nodup := by
      split
      · exact s.design.wiresCalled_nodup c.name
      · exact wires_nodup_of_selectWires hselect
    have hchosen : (if ws.isEmpty then s.design.wiresCalled c.name else ws) = c.wires ↔
        .ok ws = (.ok c.wires : Except Fault (List WireKey)) ∨
          .ok ws = (.ok [] : Except Fault (List WireKey)) ∧ s.design.wiresCalled c.name = c.wires := by
      cases ws with
      | nil => simp [hne.symm]
      | cons x xs => simp
    rw [← hchosen]
    generalize (if ws.isEmpty then s.design.wiresCalled c.name else ws) = wires at hwires hregistry
    cases wires with
    | nil => simp [Redeclares, hne.symm]
    | cons x xs =>
      rw [← declare_restores_iff hclocks hread hinside h (List.cons_ne_nil x xs) hwires]
      dsimp only at hregistry ⊢
      cases hdeclare : s.declare ⟨c.name, x :: xs, w, .explicit⟩ with
      | error fault => simp [Redeclares]
      | ok out =>
        obtain ⟨clock, t'⟩ := out
        rw [hdeclare] at hregistry
        simp [Redeclares, hregistry]

/-! ### Names that are patterns for themselves -/

/-- No character of the name separates words or means something to a pattern; in braces a comma
does. -/
structure Verbatim (n : String) : Prop where
  chars : ∀ c ∈ n.toList, Text.isBlank c = false ∧ Glob.isMeta c = false
  comma : ',' ∈ n.toList → Script.Plain n

instance : DecidablePred Verbatim := fun n =>
  decidable_of_iff (n.toList.all (fun c => !(Text.isBlank c) && !(Glob.isMeta c)) ∧
      (',' ∈ n.toList → Script.Plain n)) <| by
    simp only [List.all_eq_true, Bool.and_eq_true, Bool.not_eq_true']
    exact ⟨fun h => ⟨h.1, h.2⟩, fun h => ⟨h.chars, h.comma⟩⟩

namespace Verbatim
variable {n : String}

theorem words (h : Verbatim n) (hn : Sheltered n) : Text.words (writeWord n) = [writeWord n] := by
  obtain ⟨hplain, hw⟩ | ⟨-, hw⟩ := hn.plain_or_braced
  · rw [writeWord_of_plain hplain]
    exact Text.runs_of_forall hn.nonempty fun c hc => (h.chars c hc).1
  · refine Text.runs_of_forall (fun hempty => ?_) fun c hc => ?_
    · rw [hempty] at hw
      cases hw
    · rw [hw] at hc
      obtain rfl | hc := List.mem_cons.mp hc
      · decide
      · obtain hc | hc := List.mem_append.mp hc
        · exact (h.chars c hc).1
        · rw [List.mem_singleton.mp hc]
          decide

theorem exists_pattern (h : Verbatim n) (hn : Sheltered n) :
    ∃ p, NamePattern.read (writeWord n) = .ok p ∧ ∀ name, p.accepts name ↔ name = n := by
  obtain ⟨hplain, -⟩ | ⟨hspecial, hw⟩ := hn.plain_or_braced
  · rw [writeWord_of_plain hplain]
    exact ⟨.literal n, NamePattern.read_of_isLiteral ⟨hn.nonempty, fun c hc => (h.chars c hc).2⟩,
      fun _ => NamePattern.literal_accepts⟩
  · have htext : writeWord n = "\x7b" ++ n ++ "\x7d" := by
      refine String.toList_inj.mp (hw.trans ?_)
      simp
    rw [htext]
    refine ⟨.braced n, NamePattern.read_braced fun c hc => ⟨(h.chars c hc).2, ?_⟩,
      fun _ => NamePattern.braced_accepts hn.nonempty⟩
    rintro rfl
    exact hspecial (h.comma hc)

end Verbatim

theorem selectWires_verbatim (hdistinct : d.Distinct) {ws : List WireKey} (command : String)
    (hne : ws ≠ []) (hnodup : ws.Nodup) (hports : ∀ w ∈ ws, d.isOuterPort w)
    (hinside : ∀ w ∈ ws, (d.wire? w).isSome) (hsheltered : ∀ n ∈ d.paths ws, Sheltered n)
    (h : ∀ n ∈ d.paths ws, Verbatim n) :
    selectWires d command ⟨.ports, writtenPatterns (d.paths ws)⟩ = .ok ws := by
  obtain ⟨path, hpath, hpaths⟩ := Design.exists_paths hinside
  have hmem : ∀ w ∈ ws, path w ∈ d.paths ws := fun w hw => Design.mem_paths.mpr ⟨w, hw, hpath w hw⟩
  have hpatterns : writtenPatterns (d.paths ws) = ws.map fun w => writeWord (path w) := by
    have hwords : (ws.map path).map (fun n => Text.words (writeWord n)) =
        (ws.map path).map fun n => [writeWord n] :=
      List.map_congr_left fun n hn => by
        rw [← hpaths] at hn
        exact (h n hn).words (hsheltered n hn)
    rw [writtenPatterns, hpaths, List.flatMap_def, hwords, ← List.flatMap_def, List.flatMap_map]
    exact List.flatMap_pure_eq_map _ _
  have hexists : ∀ w, ∃ p, w ∈ ws → NamePattern.read (writeWord (path w)) = .ok p ∧
      ∀ name, p.accepts name ↔ name = path w := fun w => by
    by_cases hw : w ∈ ws
    · obtain ⟨p, hp⟩ := (h _ (hmem w hw)).exists_pattern (hsheltered _ (hmem w hw))
      exact ⟨p, fun _ => hp⟩
    · exact ⟨.any, fun hw' => absurd hw' hw⟩
  choose pattern hpattern using hexists
  rw [hpatterns]
  exact selectWires_singletons command pattern hne hnodup (fun w hw => (hpattern w hw).1) fun w hw =>
    congrArg some (Design.portsMatching_eq_singleton hdistinct (hports w hw) (hpath w hw)
      (hpattern w hw).2)

/-! ### The line of a registered clock -/

/-- The line that is written for a clock on ports declares it again in a fresh session if and only
if the words of the written names select its ports as patterns, or select nothing while the ports
are the wires with the name of the clock. It does so if the names are patterns for themselves. -/
theorem declarationLine_redeclares (hbuilt : d.Built) (actions : List Action)
    (hc : c ∈ (after d actions).clocks.clocks) (hports : ∀ w ∈ c.wires, d.isOuterPort w)
    (h : c.wave.ReadsAs places w) (hname : Sheltered c.name) (hnames : Queried (d.paths c.wires))
    (engine : Engine) (options : WriterSettings) (file : Nat) :
    let fresh : Session := { design := d, engine, options }
    let k := fresh.runScript file (declarationLine d places c ++ "\n")
    let targets : Query := ⟨.ports, writtenPatterns (d.paths c.wires)⟩
    (Redeclares places c k ↔ selectWires d "create_clock" targets = .ok c.wires ∨
      selectWires d "create_clock" targets = .ok [] ∧ d.wiresCalled c.name = c.wires) ∧
    ((∀ n ∈ d.paths c.wires, Verbatim n) → Redeclares places c k) := by
  obtain ⟨-, hsound, -⟩ := after_regular d actions
  have hvalid := hsound.valid c hc
  obtain ⟨hne, hnodup⟩ := hsound.wires c hc
  have hinside := hsound.inside c hc
  have hiff := redeclares_iff (s := { design := d, engine, options }) rfl rfl hvalid hne hinside hports
    h hname hnames file
  exact ⟨hiff, fun hverbatim => hiff.mpr (Or.inl (selectWires_verbatim hbuilt.distinct _ hne hnodup
    hports hinside hnames.sheltered hverbatim))⟩

end

/-- A bit of a bus beside a port with the name that its pattern stands for, and a port whose name is
written in braces. -/
def busBench : Design :=
  let d := (Design.declareModule {} "top").2
  let d := (d.declareWire 0 "data[3]" 1 (some .input)).2
  let d := (d.declareWire 0 "data3" 1 (some .input)).2
  (d.declareWire 0 "clk;a" 1 (some .input)).2.markTop 0

@[irreducible]
def busActions : List Action := [
  .declare (.explicit "clk" [⟨0, 0⟩] 10 none),
  .declare (.explicit "core clk" [⟨0, 2⟩] 5 none)]

def busClock : Clock := ⟨"clk", [⟨0, 0⟩], .symmetric 10, .explicit⟩
def coreClock : Clock := ⟨"core clk", [⟨0, 2⟩], .symmetric 5, .explicit⟩

theorem declarationLine_redeclares_core :
    coreClock ∈ (after busBench busActions).clocks.clocks ∧
      (∀ n ∈ busBench.paths coreClock.wires, Verbatim n) ∧
      let fresh : Session := { design := busBench }
      let k := fresh.runScript 0 (declarationLine busBench 3 coreClock ++ "\n")
      let targets : Query := ⟨.ports, writtenPatterns (busBench.paths coreClock.wires)⟩
      (Redeclares 3 coreClock k ↔
        selectWires busBench "create_clock" targets = .ok coreClock.wires ∨
        selectWires busBench "create_clock" targets = .ok [] ∧
          busBench.wiresCalled coreClock.name = coreClock.wires) ∧
      ((∀ n ∈ busBench.paths coreClock.wires, Verbatim n) → Redeclares 3 coreClock k) := by
  have hbuilt : busBench.Built :=
    .markTop (.declareWire (.declareWire (.declareWire (.declareModule .empty "top")
      0 "data[3]" 1 (some .input)) 0 "data3" 1 (some .input)) 0 "clk;a" 1 (some .input)) 0
  have hclock : coreClock ∈ (after busBench busActions).clocks.clocks := by decide +kernel
  obtain ⟨period, hperiod⟩ : Number.ReadsBack 3 coreClock.wave.period := by decide +kernel
  obtain ⟨rise, hrise⟩ : Number.ReadsBack 3 coreClock.wave.rise := by decide +kernel
  obtain ⟨fall, hfall⟩ : Number.ReadsBack 3 coreClock.wave.fall := by decide +kernel
  have hwave : coreClock.wave.ReadsAs 3 ⟨period, rise, fall⟩ := ⟨hperiod, hrise, hfall⟩
  refine ⟨hclock, by decide +kernel, ?_⟩
  exact declarationLine_redeclares hbuilt busActions hclock (by decide +kernel) hwave
    (by decide +kernel) (by decide +kernel) .builtin {} 0

theorem declarationLine_misses_bit :
    let line := declarationLine busBench 3 busClock
    let k := ({ design := busBench } : Session).runScript 0 (line ++ "\n")
    busClock ∈ (after busBench busActions).clocks.clocks ∧
      (∀ w ∈ busClock.wires, busBench.isOuterPort w) ∧
      Number.ReadsBack 3 busClock.wave.period ∧ Number.ReadsBack 3 busClock.wave.rise ∧
      Number.ReadsBack 3 busClock.wave.fall ∧
      line = "create_clock -name clk -period 10 -waveform \x7b0 5\x7d" ++
        " [get_ports \x7b\x7bdata[3]\x7d\x7d]" ∧
      k.2 = ⟨1, 0, 0⟩ ∧ k.1.clocks.clocks.map (fun c => (c.name, c.wires)) = [("clk", [⟨0, 1⟩])] := by
  decide +kernel

end Session
end ClockTree
