import ClockTree.Proofs.Command.Reading
import ClockTree.Proofs.Propagation.Growth
import ClockTree.Proofs.Session.Actions
import ClockTree.Proofs.Writer.Lookup

/-!
# Written lines are carried out

A line that is written for a clock declares this clock again, with the times that are read. A line
that is written for an exception records an exception that is written as the same line: its ends are
the objects that the ends of the first one resolved to.
-/
namespace ClockTree

def Endpoints.selections (e : Endpoints) : List Selection :=
  e.start.toList ++ e.through.toList ++ e.stop.toList

theorem Endpoints.mem_selections {e : Endpoints} {s : Selection} :
    s ∈ e.selections ↔ s ∈ e.start ∨ s ∈ e.through ∨ s ∈ e.stop := by
  simp only [selections, List.mem_append, Option.mem_toList, or_assoc, Option.mem_def]

namespace TimingException

def selections : TimingException → List Selection
  | .falsePath ends | .maxDelay _ ends => ends.selections
  | .clockGroups .. => []

def delay? : TimingException → Option Float
  | .maxDelay delay _ => some delay
  | _ => none

end TimingException

namespace Script

def piecesText (ps : List Piece) : String := String.join (ps.map (" " ++ ·.text))

theorem piecesText_append (ps qs : List Piece) :
    piecesText (ps ++ qs) = piecesText ps ++ piecesText qs := by
  rw [piecesText, List.map_append, String.join_append]
  rfl

theorem intercalate_cons (w : String) (ws : List String) :
    " ".intercalate (w :: ws) = w ++ String.join (ws.map (" " ++ ·)) := by
  induction ws generalizing w with
  | nil => simp
  | cons w' ws ih =>
    rw [String.intercalate_cons_cons, ih, List.map_cons, String.join_cons]
    simp only [String.append_assoc]

theorem Line.text_eq (l : Line) : l.text = l.command.name ++ piecesText l.pieces := by
  rw [Line.text, intercalate_cons, List.map_map]
  rfl

end Script

namespace Writer
open Script Command Command.Constrain

namespace View
variable {v : View} {places : Nat}

/-- Pins are named by paths, and a selection that resolves has objects of one kind. -/
structure Uniform (v : View) (s : Selection) : Prop where
  pins : ∀ q ∈ s, q.kind = .pins → ∀ p ∈ q.patterns, IsPath p
  kind : ∀ objects ∈ v.resolve? s, ∀ a ∈ objects, ∀ b ∈ objects, a.1 = b.1

instance : DecidablePred v.Uniform := fun _ =>
  decidable_of_iff (_ ∧ _) ⟨fun h => ⟨h.1, h.2⟩, fun h => ⟨h.pins, h.kind⟩⟩

theorem constraintLine_congr {v' : View} (h : v'.names = v.names) (places : Nat)
    (e : TimingException) : constraintLine v' places e = constraintLine v places e := by
  have hselection : ∀ s, selectionText v' s = selectionText v s := fun s => by
    have hfind : v'.find = v.find := by
      funext q
      rw [find, find, wireAt?_congr h]
    rw [selectionText_eq, selectionText_eq, hfind]
  have hend : ∀ option s, endText v' option s = endText v option s := fun option s => by
    cases s with
    | none => rfl
    | some s => rw [endText, endText, hselection]
  have hends : ∀ ends, endsText v' ends = endsText v ends := fun ends => by
    simp only [endsText, hend]
  have hgroup : groupText v' = groupText v := by
    funext patterns
    rw [groupText, groupText, groupNames?, groupNames?, h]
  cases e with
  | falsePath ends => simp only [constraintLine, hends]
  | maxDelay delay ends => simp only [constraintLine, hends]
  | clockGroups relation groups => simp only [constraintLine, hgroup]

/-- A line that records an exception which is written as this line. -/
structure Restates (v : View) (places : Nat) (l : Line) (e : TimingException) : Prop where
  plain : l.Plain
  performs : ∀ s : Session,
    s.perform l.command (l.pieces.map Piece.argument) = (s.addException e, .ok .nothing)
  writes : constraintLine v places e = .ok l.text

theorem endText_ok (h : v.Plain) {option : String} (hoption : Script.Plain option)
    {s : Option Selection} (huniform : ∀ x ∈ s, v.Uniform x) {text : String}
    (htext : endText v option s = .ok text) :
    ∃ q : Option Query, (∀ p ∈ endPieces option q, p.Plain) ∧
      text = piecesText (endPieces option q) ∧ endText v option (q.map ([·])) = .ok text := by
  cases s with
  | none =>
    cases htext
    exact ⟨none, by simp [endPieces], rfl, rfl⟩
  | some s =>
    have huniform := huniform s rfl
    rw [endText] at htext
    obtain ⟨selected, hs, htext⟩ := bind_eq_ok_iff.mp htext
    obtain rfl := Except.ok.inj htext
    obtain ⟨kind, names, hselects, rfl⟩ := h.selects_of_text huniform.pins huniform.kind hs
    refine ⟨some ⟨kind, names⟩, List.forall_mem_cons.mpr
      ⟨hoption, List.forall_mem_singleton.mpr hselects.plain⟩, ?_, ?_⟩
    · rw [hselects.selector_eq]
      simp [piecesText, endPieces, Piece.text, String.append_assoc]
    · rw [Option.map_some, endText, hselects.text]
      rfl

theorem endsText_ok (h : v.Plain) {ends : Endpoints} (huniform : ∀ s ∈ ends.selections, v.Uniform s)
    {text : String} (htext : endsText v ends = .ok text) :
    ∃ e : QueryEnds, (∀ p ∈ e.pieces, p.Plain) ∧ text = piecesText e.pieces ∧
      endsText v e.endpoints = .ok text := by
  have hstart : ∀ x ∈ ends.start, v.Uniform x := fun x hx =>
    huniform x (Endpoints.mem_selections.mpr (Or.inl hx))
  have hthrough : ∀ x ∈ ends.through, v.Uniform x := fun x hx =>
    huniform x (Endpoints.mem_selections.mpr (Or.inr (Or.inl hx)))
  have hstop : ∀ x ∈ ends.stop, v.Uniform x := fun x hx =>
    huniform x (Endpoints.mem_selections.mpr (Or.inr (Or.inr hx)))
  rw [endsText] at htext
  obtain ⟨first, hfrom, htext⟩ := bind_eq_ok_iff.mp htext
  obtain ⟨second, hmiddle, htext⟩ := bind_eq_ok_iff.mp htext
  obtain ⟨third, hto, htext⟩ := bind_eq_ok_iff.mp htext
  obtain rfl := Except.ok.inj htext
  obtain ⟨q, hq, rfl, hqtext⟩ := endText_ok h (by decide) hstart hfrom
  obtain ⟨q', hq', rfl, hqtext'⟩ := endText_ok h (by decide) hthrough hmiddle
  obtain ⟨q'', hq'', rfl, hqtext''⟩ := endText_ok h (by decide) hstop hto
  refine ⟨⟨q, q', q''⟩, ?_, ?_, ?_⟩
  · exact List.forall_mem_append.mpr ⟨List.forall_mem_append.mpr ⟨hq, hq'⟩, hq''⟩
  · rw [QueryEnds.pieces, piecesText_append, piecesText_append]
  · simp only [endsText, QueryEnds.endpoints, hqtext, hqtext', hqtext'']
    rfl

theorem falsePath_restates (h : v.Plain) {ends : Endpoints}
    (huniform : ∀ s ∈ ends.selections, v.Uniform s) {text : String}
    (htext : constraintLine v places (.falsePath ends) = .ok text) :
    ∃ l e, v.Restates places l e ∧ l.text = text := by
  rw [constraintLine] at htext
  obtain ⟨written, hends, htext⟩ := bind_eq_ok_iff.mp htext
  obtain rfl := Except.ok.inj htext
  obtain ⟨e, hplain, rfl, hagain⟩ := endsText_ok h huniform hends
  have hline := (Line.mk .setFalsePath e.pieces).text_eq
  refine ⟨⟨.setFalsePath, e.pieces⟩, .falsePath e.endpoints, ⟨hplain, fun s => ?_, ?_⟩, hline⟩
  · simp only [Session.perform, falsePath_written, Session.record]
  · rw [hline, constraintLine, hagain]
    rfl

theorem maxDelay_restates (h : v.Plain) {delay y : Float} {ends : Endpoints}
    (hreads : Number.ReadsAs places delay y) (hfinite : delay.isFinite)
    (huniform : ∀ s ∈ ends.selections, v.Uniform s) {text : String}
    (htext : constraintLine v places (.maxDelay delay ends) = .ok text) :
    ∃ l e, v.Restates places l e ∧ l.text = text := by
  rw [constraintLine] at htext
  obtain ⟨written, hends, htext⟩ := bind_eq_ok_iff.mp htext
  obtain rfl := Except.ok.inj htext
  obtain ⟨e, hplain, rfl, hagain⟩ := endsText_ok h huniform hends
  have hline : (Line.mk .setMaxDelay (.word (Number.trimmed places delay) :: e.pieces)).text =
      "set_max_delay" ++ " " ++ Number.trimmed places delay ++ piecesText e.pieces := by
    rw [Line.text_eq]
    simp only [piecesText, List.map_cons, String.join_cons, Piece.text, String.append_assoc,
      Command.name]
  refine ⟨⟨.setMaxDelay, .word (Number.trimmed places delay) :: e.pieces⟩,
    .maxDelay y e.endpoints, ⟨List.forall_mem_cons.mpr ⟨.of_readsAs hreads, hplain⟩,
      fun s => ?_, ?_⟩, hline⟩
  · have hy : y.isFinite := Number.isFinite_of_beq hreads.2 ▸ hfinite
    simp only [Session.perform, maxDelay_written hreads.1 hy, Session.record]
  · rw [hline, constraintLine, hagain, hreads.trimmed_eq]
    rfl

theorem relationPieces_plain (relation : Option GroupRelation) :
    ∀ p ∈ relationPieces relation, p.Plain := by
  intro p hp
  obtain ⟨r, -, rfl⟩ := Option.map_eq_some_iff.mp (Option.mem_toList.mp hp)
  show Script.Plain r.flag
  cases r <;> decide

theorem relationPieces_text (relation : Option GroupRelation) :
    piecesText (relationPieces relation) = match relation with
      | some r => " " ++ r.flag
      | none => "" := by
  cases relation with
  | none => rfl
  | some r => simp [relationPieces, piecesText, Piece.text]

theorem groupPieces_plain {names : List String} (h : ∀ n ∈ names, Script.Plain n) :
    ∀ p ∈ groupPieces names, p.Plain := by
  have hoption : Script.Plain "-group" := by decide
  exact List.forall_mem_cons.mpr ⟨hoption, List.forall_mem_singleton.mpr h⟩

theorem groupPieces_text {names : List String} (h : ∀ n ∈ names, Script.Plain n) :
    piecesText (groupPieces names) = " -group " ++ writeList names := by
  rw [writeList_of_plain h]
  apply String.toList_inj.mp
  simp [piecesText, groupPieces, Piece.text]

theorem piecesText_groups {groups : List (List String)}
    (h : ∀ names ∈ groups, ∀ n ∈ names, Script.Plain n) :
    piecesText (groups.flatMap groupPieces) =
      String.join (groups.map fun names => " -group " ++ writeList names) := by
  induction groups with
  | nil => rfl
  | cons names groups ih =>
    obtain ⟨hnames, hgroups⟩ := List.forall_mem_cons.mp h
    rw [List.flatMap_cons, piecesText_append, groupPieces_text hnames, ih hgroups, List.map_cons,
      String.join_cons]

theorem groupText_ok_iff {patterns : List String} {text : String} :
    groupText v patterns = .ok text ↔
      ∃ names, v.groupNames? patterns = some names ∧ " -group " ++ writeList names = text := by
  unfold groupText
  cases v.groupNames? patterns <;> simp

theorem groups_ok (h : v.Plain) {groups : List (List String)} {texts : List String}
    (htexts : groups.mapM (groupText v) = .ok texts) :
    ∃ found : List (List String), found.length = groups.length ∧
      (∀ names ∈ found, v.Selects .clocks names) ∧ found.mapM (groupText v) = .ok texts ∧
      String.join texts = piecesText (found.flatMap groupPieces) := by
  induction groups generalizing texts with
  | nil =>
    cases htexts
    exact ⟨[], rfl, by simp, rfl, rfl⟩
  | cons patterns groups ih =>
    rw [List.mapM_cons] at htexts
    obtain ⟨first, hfirst, htexts⟩ := bind_eq_ok_iff.mp htexts
    obtain ⟨rest, hrest, htexts⟩ := bind_eq_ok_iff.mp htexts
    obtain rfl := Except.ok.inj htexts
    obtain ⟨names, hnames, rfl⟩ := groupText_ok_iff.mp hfirst
    obtain ⟨found, hlength, hfound, hagain, hjoin⟩ := ih hrest
    obtain ⟨hselects, hself⟩ := h.groupNames hnames
    refine ⟨names :: found, by simp [hlength], List.forall_mem_cons.mpr ⟨hselects, hfound⟩, ?_, ?_⟩
    · rw [List.mapM_cons, hagain, groupText_ok_iff.mpr ⟨names, hself, rfl⟩]
      rfl
    · rw [String.join_cons, hjoin, List.flatMap_cons, piecesText_append,
        groupPieces_text fun n hn => (hselects.stands n hn).plain]

theorem clockGroups_restates (h : v.Plain) {relation : Option GroupRelation}
    {groups : List (List String)} (hne : groups ≠ []) {text : String}
    (htext : constraintLine v places (.clockGroups relation groups) = .ok text) :
    ∃ l e, v.Restates places l e ∧ l.text = text := by
  simp only [constraintLine] at htext
  obtain ⟨texts, htexts, htext⟩ := bind_eq_ok_iff.mp htext
  obtain rfl := Except.ok.inj htext
  obtain ⟨found, hlength, hselects, hagain, hjoin⟩ := groups_ok h htexts
  have hfound : found ≠ [] := by
    rw [← List.length_pos_iff, hlength, List.length_pos_iff]
    exact hne
  have hgroup : ∀ names ∈ found, names ≠ [] ∧ ∀ n ∈ names, Script.Plain n :=
    fun names hnames => ⟨(hselects names hnames).ne_nil,
      fun n hn => ((hselects names hnames).stands n hn).plain⟩
  have hplain : ∀ p ∈ relationPieces relation ++ found.flatMap groupPieces, p.Plain := by
    refine List.forall_mem_append.mpr ⟨relationPieces_plain relation, fun p hp => ?_⟩
    obtain ⟨names, hnames, hp⟩ := List.mem_flatMap.mp hp
    exact groupPieces_plain (hgroup names hnames).2 p hp
  have hline : (Line.mk .setClockGroups (relationPieces relation ++ found.flatMap groupPieces)).text
      = "set_clock_groups" ++ piecesText (relationPieces relation) ++ String.join texts := by
    rw [Line.text_eq, piecesText_append, ← hjoin, ← String.append_assoc]
    rfl
  rw [relationPieces_text] at hline
  refine ⟨⟨.setClockGroups, relationPieces relation ++ found.flatMap groupPieces⟩,
    .clockGroups relation found, ⟨hplain, fun s => ?_, ?_⟩, hline⟩
  · simp only [Session.perform, clockGroups_written relation hfound hgroup, Session.record]
  · rw [hline]
    simp only [constraintLine, hagain]
    rfl

theorem restates (h : v.Plain) {e : TimingException} (hrecorded : e.Recorded)
    (huniform : ∀ s ∈ e.selections, v.Uniform s)
    (hdelay : ∀ x ∈ e.delay?, Number.ReadsBack places x) {text : String}
    (htext : constraintLine v places e = .ok text) :
    ∃ l e', v.Restates places l e' ∧ l.text = text := by
  cases e with
  | falsePath ends => exact falsePath_restates h huniform htext
  | maxDelay delay ends =>
    obtain ⟨y, hreads⟩ := hdelay delay rfl
    exact maxDelay_restates h hreads hrecorded huniform htext
  | clockGroups relation groups => exact clockGroups_restates h hrecorded.1 htext

end View

/-! ### Clocks -/

def targetKind (d : Design) (c : Clock) : ObjectKind :=
  if c.wires.all d.isOuterPort then .ports else .nets

def declaration (d : Design) (places : Nat) (c : Clock) : Line :=
  ⟨.createClock, CreateClock.pieces places c.name c.wave ⟨targetKind d c, d.paths c.wires⟩⟩

section
variable {d : Design} {places : Nat} {c : Clock} {w : Wave Float}

theorem declaration_plain (hnamed : d.Named) (hname : IsPath c.name) (hne : c.wires ≠ [])
    (hinside : ∀ x ∈ c.wires, (d.wire? x).isSome)
    (h : c.wave.reread? Number.read? places = some w) : (declaration d places c).Plain := by
  obtain ⟨hperiod, hrise, hfall⟩ := Wave.reread?_eq_some_iff.mp h
  have hquery : (Piece.query (targetKind d c) (d.paths c.wires)).Plain := by
    obtain ⟨path, -, hpaths⟩ := Design.exists_paths hinside
    refine ⟨by unfold targetKind; split <;> decide, by simpa [hpaths] using hne, fun s hs => ?_⟩
    have hs := hnamed.isPath_of_mem hs
    exact ⟨hs.plain, hs.head?_ne⟩
  have hedges : (Piece.list [Number.trimmed places c.wave.rise,
      Number.trimmed places c.wave.fall]).Plain :=
    List.forall_mem_cons.mpr ⟨.of_read hrise, List.forall_mem_singleton.mpr (.of_read hfall)⟩
  intro p hp
  simp only [declaration, CreateClock.pieces, List.mem_cons, List.not_mem_nil, or_false] at hp
  obtain rfl | rfl | rfl | rfl | rfl | rfl | rfl := hp
  · show Script.Plain "-name"
    decide
  · exact hname.plain
  · show Script.Plain "-period"
    decide
  · exact .of_read hperiod
  · show Script.Plain "-waveform"
    decide
  · exact hedges
  · exact hquery

theorem declaration_text (hnamed : d.Named) (hname : IsPath c.name) :
    (declaration d places c).text = declarationLine d places c := by
  have hplain : ∀ s ∈ d.paths c.wires, Script.Plain s := fun s hs => (hnamed.isPath_of_mem hs).plain
  have hedges : ∀ x y : String, (Piece.list [x, y]).text = "\x7b" ++ x ++ " " ++ y ++ "\x7d" := by
    intro x y
    rw [Piece.text, String.intercalate_cons_cons, String.intercalate_singleton]
    simp only [String.append_assoc]
  have hfirst : "create_clock -name " = "create_clock" ++ " " ++ "-name" ++ " " := by decide
  have hperiod : " -period " = " " ++ "-period" ++ " " := by decide
  have hwaveform : " -waveform \x7b" = " " ++ "-waveform" ++ " " ++ "\x7b" := by decide
  have hlast : "\x7d " = "\x7d" ++ " " := by decide
  rw [Line.text_eq]
  unfold declarationLine
  dsimp only
  rw [writeWord_of_plain hname.plain, selector_of_plain _ hplain, hfirst, hperiod, hwaveform, hlast]
  simp only [declaration, CreateClock.pieces, piecesText, List.map_cons, List.map_nil,
    String.join_cons, String.join_nil, String.append_empty, targetKind, hedges]
  simp only [String.append_assoc, Piece.text, Command.name]

theorem selectWires_declaration (hdistinct : d.Distinct) (hnamed : d.Named) (hne : c.wires ≠ [])
    (hnodup : c.wires.Nodup) (hinside : ∀ x ∈ c.wires, (d.wire? x).isSome) :
    selectWires d "create_clock" ⟨targetKind d c, d.paths c.wires⟩ = .ok c.wires := by
  refine selectWires_paths hdistinct hnamed "create_clock" hne hnodup hinside ?_
  unfold targetKind
  split
  · rename_i hports
    exact Or.inr ⟨rfl, List.all_eq_true.mp hports⟩
  · exact Or.inl rfl

theorem declarationLine_congr {c' : Clock} (hname : c'.name = c.name) (hwires : c'.wires = c.wires)
    (h : c.wave.ReadsAs places c'.wave) : declarationLine d places c' = declarationLine d places c := by
  unfold declarationLine
  rw [hname, hwires, h.period.trimmed_eq, h.rise.trimmed_eq, h.fall.trimmed_eq]

theorem declare_of_add {s : Session} {spec : ClockDeclaration} {clock : Clock} {r : Registry}
    {log : List Diagnostic} (hadd : s.clocks.add s.design spec = .ok (clock, r, log)) :
    s.declare spec =
      .ok (clock, { s with clocks := r }.report (log ++ [Notice.declared clock])) := by
  unfold Session.declare
  rw [hadd]

theorem declaration_performs {s : Session} (hs : s.clocks.Sound s.design)
    (hdistinct : s.design.Distinct) (hnamed : s.design.Named) (hvalid : c.wave.Valid)
    (hne : c.wires ≠ []) (hnodup : c.wires.Nodup)
    (hinside : ∀ x ∈ c.wires, (s.design.wire? x).isSome)
    (hname : ∀ b ∈ s.clocks.clocks, b.name ≠ c.name)
    (hfree : ∀ b ∈ s.clocks.clocks, ∀ x ∈ c.wires, x ∉ b.wires) (h : c.wave.ReadsAs places w) :
    ∃ s' : Session, s.perform .createClock
        ((declaration s.design places c).pieces.map Piece.argument) = (s', .ok .nothing) ∧
      s'.design = s.design ∧ s'.options = s.options ∧ s'.exceptions = s.exceptions ∧
      s'.clocks.Sound s'.design ∧
      s'.clocks.clocks = s.clocks.clocks ++ [⟨c.name, c.wires, w, .explicit⟩] := by
  have hselect := selectWires_declaration hdistinct hnamed hne hnodup hinside
  have hread := h.valid hvalid
  have hrun : CreateClock.run s ((declaration s.design places c).pieces.map Piece.argument) = _ :=
    CreateClock.run_written h.reread hread.finite.1 hread.period_pos hselect hne
  have hspec : Registry.refuse? s.design ⟨c.name, c.wires, w, .explicit⟩ = none :=
    Registry.refuse?_eq_none_iff.mpr ⟨hread, hne, hinside⟩
  have hclock : ClockDeclaration.clock ⟨c.name, c.wires, w, .explicit⟩ =
      ⟨c.name, c.wires, w, .explicit⟩ := by
    rw [ClockDeclaration.clock, eraseDups_of_nodup hnodup]
  obtain ⟨fault, hrefused, -⟩ | ⟨t, -, ht, hsound, hadd⟩ := hs.add_cases ⟨c.name, c.wires, w, .explicit⟩
  · cases hspec.symm.trans hrefused
  · rw [hclock] at ht hadd
    have happend := ht.clocks_append hs.wires_ne hne hname hfree
    obtain ⟨log, hadd⟩ : ∃ log, s.clocks.add s.design ⟨c.name, c.wires, w, .explicit⟩ =
        .ok (⟨c.name, c.wires, w, .explicit⟩, t.registry, log) := ⟨_, hadd⟩
    have hperform : s.perform .createClock
        ((declaration s.design places c).pieces.map Piece.argument) =
        (({ s with clocks := t.registry }).report
          (log ++ [Notice.declared ⟨c.name, c.wires, w, .explicit⟩]), .ok .nothing) := by
      have hdeclare := declare_of_add hadd
      simp only [Session.perform, hrun, hdeclare]
      rfl
    exact ⟨_, hperform, rfl, rfl, rfl, hsound, happend⟩

end
end Writer
end ClockTree
