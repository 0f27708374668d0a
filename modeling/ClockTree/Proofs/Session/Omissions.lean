import ClockTree.Proofs.Notices
import ClockTree.Proofs.Session.References
import ClockTree.Proofs.Writer.Visibility

/-!
# What is written and what is left out

The clocks that are written have a line each, and so have the exceptions of which every reference
resolves, in the order of the store. Each of the other exceptions is reported once, with its
position. Writing the generated clocks besides adds lines and takes none away.
-/
namespace ClockTree

theorem forall₂_filterMap {α β : Type} {f : α → Option β} {p : α → Bool} {R : α → β → Prop}
    {l : List α} (hsome : ∀ a ∈ l, p a → ∃ b, f a = some b ∧ R a b)
    (hnone : ∀ a ∈ l, ¬ p a → f a = none) : List.Forall₂ R (l.filter p) (l.filterMap f) := by
  induction l with
  | nil => exact .nil
  | cons a l ih =>
    obtain ⟨ha, hsome⟩ := List.forall_mem_cons.mp hsome
    obtain ⟨ha', hnone⟩ := List.forall_mem_cons.mp hnone
    have hrest := ih hsome hnone
    by_cases hp : p a
    · obtain ⟨b, hb, hR⟩ := ha hp
      rw [List.filter_cons_of_pos hp, List.filterMap_cons_some hb]
      exact .cons hR hrest
    · rw [List.filter_cons_of_neg hp, List.filterMap_cons_none (ha' hp)]
      exact hrest

theorem Written.total (es : List Writer.Entry) : (Written.ofEntries es).clocks +
    (Written.ofEntries es).exceptions + (Written.ofEntries es).skipped = es.length := by
  simp only [Written.ofEntries]
  induction es with
  | nil => rfl
  | cons e es ih => cases e <;> simp <;> omega

theorem TimingException.Recorded.groups {e : TimingException} (h : e.Recorded) : [] ∉ e.groups := by
  cases e with
  | falsePath ends | maxDelay delay ends => exact List.not_mem_nil
  | clockGroups relation groups => exact h.2

namespace Writer.View
variable {v : View} {places : Nat} {e : TimingException}

theorem constraintLine_ok_iff {line : String} : constraintLine v places e = .ok line ↔
    ∃ e', v.resolve e = .ok e' ∧ line = e'.text places := by
  rw [constraintLine_eq_map]
  cases v.resolve e <;> simp [Except.map, eq_comm]

theorem constraintLine_error_iff {reference : String} :
    constraintLine v places e = .error reference ↔ v.resolve e = .error reference := by
  rw [constraintLine_eq_map]
  cases v.resolve e <;> simp [Except.map]

end Writer.View

namespace Session
open Writer

theorem writtenClocks_eq (s : Session) (g : Bool) :
    s.writtenClocks g = s.clocks.clocks.filter fun c => g || c.origin == .explicit :=
  List.filter_congr fun c _ => by rw [Clock.isGenerated, bne, Bool.not_not]

def seen (s : Session) (includeGenerated : Bool) : View :=
  ⟨s.design, s.writtenClocks includeGenerated⟩

def writes (s : Session) (includeGenerated : Bool) (e : TimingException) : Bool :=
  (constraintLine (s.seen includeGenerated) s.options.precision e).toOption.isSome

def clockLines (s : Session) (includeGenerated : Bool) : List String :=
  (s.writtenClocks includeGenerated).map (declarationLine s.design s.options.precision)

def omissions (s : Session) (includeGenerated : Bool) : List Diagnostic :=
  (s.entries includeGenerated).filterMap (·.notice?)

variable {s : Session} {g : Bool} {e : TimingException}

theorem exists_line_iff :
    (∃ line, constraintLine (s.seen g) s.options.precision e = .ok line) ↔ s.writes g e := by
  rw [writes]
  cases constraintLine (s.seen g) s.options.precision e <;> simp [Except.toOption]

theorem writes_iff : s.writes g e ↔ [] ∉ e.groups ∧ ¬ (s.seen g).Lacks e :=
  exists_line_iff.symm.trans View.exists_constraintLine_iff

theorem write_lines (s : Session) (g : Bool) : (s.write g).1.text =
    String.join ((s.clockLines g ++ s.exceptionLines g).map (· ++ "\n")) := by
  rw [write_text_entries, filterMap_entries, exceptionLines_eq]
  rfl

theorem exceptionLines_forall₂ (s : Session) (g : Bool) :
    List.Forall₂ (fun e line => constraintLine (s.seen g) s.options.precision e = .ok line)
      (s.exceptions.filter (s.writes g)) (s.exceptionLines g) := by
  rw [exceptionLines_eq]
  refine forall₂_filterMap (fun e _ he => ?_) fun e _ he => Option.not_isSome_iff_eq_none.mp he
  obtain ⟨line, hline⟩ := Option.isSome_iff_exists.mp he
  exact ⟨line, hline, eq_ok_of_toOption hline⟩

theorem omissions_eq (s : Session) (g : Bool) : s.omissions g =
    s.exceptions.zipIdx.filterMap fun x =>
      (exceptionEntry (s.seen g) s.options.precision x.1 (x.2 + 1)).notice? :=
  entries_filterMap (fun _ => rfl) s g

theorem omissions_forall₂ (s : Session) (g : Bool) :
    List.Forall₂ (fun x n => ∃ reference, (s.seen g).resolve x.1 = .error reference ∧
        n.TellsSkipped x.1.command (x.2 + 1) reference)
      (s.exceptions.zipIdx.filter fun x => !s.writes g x.1) (s.omissions g) := by
  rw [omissions_eq]
  refine forall₂_filterMap (fun x _ hx => ?_) fun x _ hx => ?_
  · rw [Bool.not_eq_true', Bool.eq_false_iff, Ne, ← exists_line_iff] at hx
    cases hline : constraintLine (s.seen g) s.options.precision x.1 with
    | error reference =>
      exact ⟨_, by rw [exceptionEntry, hline]; rfl, reference,
        View.constraintLine_error_iff.mp hline, Notice.skippedException_tells _ _ _⟩
    | ok line => exact absurd ⟨line, hline⟩ hx
  · rw [Bool.not_eq_true', Bool.not_eq_false, ← exists_line_iff] at hx
    obtain ⟨line, hline⟩ := hx
    rw [exceptionEntry, hline]
    rfl

theorem length_entries (s : Session) (g : Bool) :
    (s.entries g).length = (s.writtenClocks g).length + s.exceptions.length := by
  simp [entries, Writer.entries]

theorem write_counts (s : Session) (g : Bool) : let written := (s.write g).1
    written.clocks = (s.writtenClocks g).length ∧
      written.exceptions = (s.exceptionLines g).length ∧
      written.skipped = (s.omissions g).length ∧
      written.exceptions + written.skipped = s.exceptions.length := by
  have hexceptions : (s.write g).1.exceptions = (s.exceptionLines g).length := by
    rw [exceptionLines, List.length_filterMap_eq_countP]
    exact List.countP_congr fun entry _ => by cases entry <;> rfl
  have hskipped : (s.write g).1.skipped = (s.omissions g).length := by
    rw [omissions, List.length_filterMap_eq_countP]
    exact List.countP_congr fun entry _ => by cases entry <;> rfl
  have hlines := length_lines (s.entries g)
  rw [filterMap_entries, List.length_append, List.length_map, ← exceptionLines_eq] at hlines
  have htotal := Written.total (s.entries g)
  rw [length_entries] at htotal
  simp only [write] at hexceptions hskipped ⊢
  omega

/-- The clocks that are written have a line each, and so has each exception that lacks nothing, in
the order of the store, which keeps no empty group. Each of the others is reported once, with its
position. -/
theorem write_omits (s : Session) (g : Bool) (hgroups : ∀ e ∈ s.exceptions, [] ∉ e.groups) :
    let visible := s.clocks.clocks.filter fun c => g || c.origin == .explicit
    let v : View := ⟨s.design, visible⟩
    let places := s.options.precision
    let (written, s') := s.write g
    ∃ lines notices,
      written.text = String.join ((visible.map
        (fun c => (Statement.ofClock s.design c).text places) ++ lines).map (· ++ "\n")) ∧
      List.Forall₂ (fun e l => ∃ e', v.resolve e = .ok e' ∧ l = e'.text places)
        (s.exceptions.filter (¬ v.Lacks ·)) lines ∧
      s' = { s with log := s'.log } ∧ s'.log.held = s.log.held ++ notices ∧
      List.Forall₂ (fun x n => ∃ reference, v.resolve x.1 = .error reference ∧
          n.TellsSkipped x.1.command (x.2 + 1) reference)
        (s.exceptions.zipIdx.filter (v.Lacks ·.1)) notices ∧
      written.clocks = visible.length ∧ written.exceptions = lines.length ∧
      written.skipped = notices.length ∧
      written.exceptions + written.skipped = s.exceptions.length := by
  rw [← s.writtenClocks_eq g]
  have hwrites : ∀ e ∈ s.exceptions, s.writes g e = decide (¬ (s.seen g).Lacks e) := fun e he => by
    rw [Bool.eq_iff_iff, decide_eq_true_iff, writes_iff, and_iff_right (hgroups e he)]
  -- Positions count what is written too, so the reports are about the numbered store.
  have hskips : ∀ x ∈ s.exceptions.zipIdx, (!s.writes g x.1) = decide ((s.seen g).Lacks x.1) :=
    fun x hx => by simp [hwrites x.1 (List.fst_mem_of_mem_zipIdx hx)]
  have hlines := s.exceptionLines_forall₂ g
  have hnotices := s.omissions_forall₂ g
  rw [List.filter_congr hwrites] at hlines
  rw [List.filter_congr hskips] at hnotices
  exact ⟨_, _, s.write_lines g, hlines.imp fun _ _ => View.constraintLine_ok_iff.mp, rfl,
    s.log.held_putAll _, hnotices, s.write_counts g⟩

theorem write_omits_bench :
    let s := after bench benchActions
    let visible := s.clocks.clocks.filter fun c => false || c.origin == .explicit
    let v : View := ⟨s.design, visible⟩
    let places := s.options.precision
    let (written, s') := s.write false
    (∀ e ∈ s.exceptions, [] ∉ e.groups) ∧
      s.exceptions.map (fun e => decide (v.Lacks e)) = [false, false, false, true] ∧
      ∃ lines notices,
        written.text = String.join ((visible.map
          (fun c => (Statement.ofClock s.design c).text places) ++ lines).map (· ++ "\n")) ∧
        List.Forall₂ (fun e l => ∃ e', v.resolve e = .ok e' ∧ l = e'.text places)
          (s.exceptions.filter (¬ v.Lacks ·)) lines ∧
        s' = { s with log := s'.log } ∧ s'.log.held = s.log.held ++ notices ∧
        List.Forall₂ (fun x n => ∃ reference, v.resolve x.1 = .error reference ∧
            n.TellsSkipped x.1.command (x.2 + 1) reference)
          (s.exceptions.zipIdx.filter (v.Lacks ·.1)) notices ∧
        written.clocks = visible.length ∧ written.exceptions = lines.length ∧
        written.skipped = notices.length ∧
        written.exceptions + written.skipped = s.exceptions.length := by
  have hgroups : ∀ e ∈ (after bench benchActions).exceptions, [] ∉ e.groups := fun e he =>
    ((after_regular bench benchActions).recorded e he).groups
  exact ⟨hgroups, by decide +kernel, write_omits (after bench benchActions) false hgroups⟩

theorem write_with_generated (s : Session) :
    (∀ g, (s.write g).1.text =
          String.join ((s.clockLines g ++ s.exceptionLines g).map (· ++ "\n")) ∧
        List.Forall₂ (fun e line => constraintLine (s.seen g) s.options.precision e = .ok line)
          (s.exceptions.filter (s.writes g)) (s.exceptionLines g)) ∧
      (s.clockLines false).Sublist (s.clockLines true) ∧
      (s.exceptions.filter (s.writes false)).Sublist (s.exceptions.filter (s.writes true)) ∧
      ∀ x : Selection, (∀ q ∈ x, q.kind ∈ [ObjectKind.ports, .nets, .pins]) →
        selectionText (s.seen false) x = selectionText (s.seen true) x := by
  have hclocks : (s.writtenClocks false).Sublist (s.writtenClocks true) :=
    List.monotone_filter_right _ fun _ _ => rfl
  have hextends : (s.seen false).Extends (s.seen true) := ⟨rfl, hclocks.subset⟩
  have hwrites : ∀ e, s.writes false e → s.writes true e := fun e he => by
    obtain ⟨hgroups, hlacks⟩ := writes_iff.mp he
    exact writes_iff.mpr ⟨hgroups, fun hlacks' => hlacks (hlacks'.anti hextends)⟩
  exact ⟨fun g => ⟨s.write_lines g, s.exceptionLines_forall₂ g⟩, hclocks.map _,
    List.monotone_filter_right _ hwrites,
    fun x hx => View.selectionText_of_design hextends.design.symm hx⟩

end Session
end ClockTree
