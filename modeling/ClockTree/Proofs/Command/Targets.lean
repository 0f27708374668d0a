import ClockTree.Proofs.Session.Roundtrip

/-!
# The wires of a declared clock

A target of `create_clock` selects the wires that fit one of its patterns. If the targets select any
wires, these are the wires of the clock. If they select none, the clock is put on the wires that
have its name, whether targets were given or not.
-/
namespace ClockTree

namespace Design
variable {d : Design} {p : NamePattern} {w : WireKey}

/-- The wire is one of those that a query of this kind selects. Only where no port fits do bare
names select other wires. -/
def Selects (d : Design) (p : NamePattern) : ObjectKind → WireKey → Prop
  | .ports, w => d.isOuterPort w ∧ d.Fits p w
  | .nets, w => d.Fits p w
  | .objects, w => d.Fits p w ∧ (d.isOuterPort w ∨ ∀ x, d.isOuterPort x → ¬ d.Fits p x)
  | .clocks, _ | .pins, _ => False

theorem wiresCalled_nodup (d : Design) (name : String) : (d.wiresCalled name).Nodup := by
  have hpositions := List.pairwise_map.mp (List.nodup_zipIdx_map_snd d.modules)
  refine List.pairwise_filterMap.mpr (hpositions.imp fun hne w hw w' hw' same => hne ?_)
  obtain ⟨k, -, rfl⟩ := Option.map_eq_some_iff.mp hw
  obtain ⟨k', -, rfl⟩ := Option.map_eq_some_iff.mp hw'
  exact (WireKey.mk.inj same).1

end Design

namespace Command
variable {d : Design} {p : NamePattern} {w : WireKey}

/-- The wire fits an element of a word, or it is selected by a query. -/
def Hits (d : Design) : Argument → WireKey → Prop
  | .word text, w => ∃ e ∈ (Argument.word text).listItems, ∃ p, NamePattern.read e = .ok p ∧ d.Fits p w
  | .query q, w => ∃ e ∈ q.effective, ∃ p, NamePattern.read e = .ok p ∧ d.Selects p q.kind w

theorem mem_kindWires? {kind : ObjectKind} :
    (∃ ws, kindWires? d p kind = some ws ∧ w ∈ ws) ↔ d.Selects p kind w := by
  cases kind with
  | ports => simp [kindWires?, Design.Selects, Design.mem_portsMatching_iff]
  | nets => simp [kindWires?, Design.Selects, Design.mem_wiresMatching]
  | objects =>
    simp only [kindWires?, Design.Selects, Option.some.injEq, exists_eq_left']
    cases hports : d.portsMatching p with
    | nil =>
      have hnone : ∀ x, d.isOuterPort x → ¬ d.Fits p x := fun x hx hfits => by
        have hmem := Design.mem_portsMatching_iff.mpr ⟨hx, hfits⟩
        rw [hports] at hmem
        cases hmem
      exact Design.mem_wiresMatching.trans ⟨fun hfits => ⟨hfits, Or.inr hnone⟩, And.left⟩
    | cons x xs =>
      obtain ⟨hport, hfits⟩ := Design.mem_portsMatching_iff.mp (hports ▸ List.mem_cons_self)
      rw [if_neg (by simp), ← hports, Design.mem_portsMatching_iff]
      exact ⟨fun hw => ⟨hw.2, Or.inl hw.1⟩,
        fun hw => ⟨hw.2.resolve_right fun hnone => hnone x hport hfits, hw.1⟩⟩
  | clocks | pins => simp [kindWires?, Design.Selects]

theorem mem_flatten_mapM_iff {α β : Type} {f : α → Option (List β)} {xs : List α}
    {ys : List (List β)} (h : xs.mapM f = some ys) {b : β} :
    b ∈ ys.flatten ↔ ∃ x ∈ xs, ∃ l, f x = some l ∧ b ∈ l := by
  induction xs generalizing ys with
  | nil =>
    cases h
    simp
  | cons x xs ih =>
    rw [List.mapM_cons] at h
    obtain ⟨first, hfirst, h⟩ := Option.bind_eq_some_iff.mp h
    obtain ⟨rest, hrest, h⟩ := Option.bind_eq_some_iff.mp h
    obtain rfl := Option.some.inj h
    rw [List.flatten_cons, List.mem_append, ih hrest, List.exists_mem_cons_iff, hfirst]
    simp

theorem mem_readPatterns {patterns : List String} {ps : List NamePattern}
    (h : Session.readPatterns patterns = .ok ps) :
    p ∈ ps ↔ ∃ e ∈ patterns, NamePattern.read e = .ok p := by
  rw [mem_mapM_ok_iff h]
  refine exists_congr fun e => and_congr_right fun _ => ?_
  cases NamePattern.read e <;> simp [Except.mapError]

theorem mem_of_kindWires? {kind : ObjectKind} {ps : List NamePattern} {found : List (List WireKey)}
    (h : ps.mapM (kindWires? d · kind) = some found) :
    w ∈ found.flatten.eraseDups ↔ ∃ p ∈ ps, d.Selects p kind w := by
  rw [List.mem_eraseDups, mem_flatten_mapM_iff h]
  simp only [mem_kindWires?]

theorem mem_selectWires {command : String} {q : Query} {ws : List WireKey}
    (h : selectWires d command q = .ok ws) : w ∈ ws ↔ Hits d (.query q) w := by
  unfold selectWires at h
  dsimp only at h
  rw [Hits, Query.effective]
  split at h <;> rename_i hempty <;> obtain ⟨ps, hps, h⟩ := bind_eq_ok_iff.mp h <;> split at h
  · -- without patterns the query selects as the pattern for everything does
    rename_i found hfound
    obtain rfl := Except.ok.inj h
    obtain rfl := Except.ok.inj hps
    rw [if_pos hempty, mem_of_kindWires? hfound]
    simp only [List.mem_singleton, exists_eq_left]
    constructor
    · exact fun hw => ⟨⟨"*", none⟩, rfl, hw⟩
    · rintro ⟨p, hread, hw⟩
      cases hread
      exact hw
  · cases h
  · rename_i found hfound
    obtain rfl := Except.ok.inj h
    rw [if_neg hempty, mem_of_kindWires? hfound]
    simp only [mem_readPatterns hps]
    constructor
    · rintro ⟨p, ⟨e, he, hread⟩, hw⟩
      exact ⟨e, he, p, hread, hw⟩
    · rintro ⟨e, he, p, hread, hw⟩
      exact ⟨p, ⟨e, he, hread⟩, hw⟩
  · cases h

namespace CreateClock

/-! ### Targets of an argument list -/

def target? : Item → Option Argument
  | .single a => if a.isSwitch then none else some a
  | _ => none

def targets (args : List Argument) : List Argument :=
  (items ["-name", "-period", "-waveform"] args).filterMap target?

theorem add_targets {o o' : Options} {i : Item} (h : o.add i = .ok o') :
    o'.targets = o.targets ++ (target? i).toList := by
  cases i with
  | incomplete name => cases h
  | option name value =>
    have hnone : (target? (.option name value)).toList = [] := rfl
    rw [hnone, List.append_nil]
    simp only [Options.add] at h
    split at h
    · cases h
      rfl
    · split at h <;> obtain ⟨value, -, h⟩ := bind_eq_ok_iff.mp h <;> cases h <;> rfl
  | single a =>
    simp only [Options.add] at h
    split at h
    · rename_i hadd
      cases h
      rw [hadd]
      exact (List.append_nil _).symm
    · split at h <;> rename_i hswitch
      · cases h
      · cases h
        rw [target?, if_neg hswitch]
        rfl

theorem foldlM_targets {o o' : Options} {is : List Item} (h : is.foldlM Options.add o = .ok o') :
    o'.targets = o.targets ++ is.filterMap target? := by
  induction is generalizing o with
  | nil =>
    cases h
    exact (List.append_nil _).symm
  | cons i is ih =>
    rw [List.foldlM_cons] at h
    obtain ⟨o₁, hfirst, h⟩ := bind_eq_ok_iff.mp h
    rw [ih h, add_targets hfirst, List.append_assoc]
    cases hi : target? i <;> simp [hi]

theorem readOptions_targets {args : List Argument} {o : Options} {period : Float}
    (h : readOptions args = .ok (o, period)) : o.targets = targets args := by
  unfold readOptions at h
  obtain ⟨o', hitems, h⟩ := bind_eq_ok_iff.mp h
  obtain ⟨period', -, h⟩ := bind_eq_ok_iff.mp h
  cases h
  exact foldlM_targets hitems

/-! ### What the targets select -/

variable {s t : Session} {a : Argument}

theorem append_of_fault_eq_none {a b : Found} (h : a.fault = none) :
    a.append b = ⟨a.wires ++ b.wires, a.warnings ++ b.warnings, b.fault⟩ := by
  simp [Found.append, h]

theorem fault_eq_none_of_append {a b : Found} (h : (a.append b).fault = none) : a.fault = none := by
  unfold Found.append at h
  split at h
  · exact h
  · rename_i hfault
    exact Option.not_isSome_iff_eq_none.mp hfault

theorem wires_foldr_append {α : Type} {f : α → Found} {xs : List α}
    (h : ((xs.map f).foldr Found.append {}).fault = none) :
    (∀ x ∈ xs, (f x).fault = none) ∧
      ((xs.map f).foldr Found.append {}).wires = xs.flatMap fun x => (f x).wires := by
  induction xs with
  | nil => exact ⟨List.forall_mem_nil _, rfl⟩
  | cons x xs ih =>
    rw [List.map_cons, List.foldr_cons] at h ⊢
    have hfirst := fault_eq_none_of_append h
    rw [append_of_fault_eq_none hfirst] at h ⊢
    obtain ⟨hfaults, hwires⟩ := ih h
    exact ⟨List.forall_mem_cons.mpr ⟨hfirst, hfaults⟩, congrArg ((f x).wires ++ ·) hwires⟩

theorem mem_findPattern {pattern : String} (h : (findPattern s pattern).fault = none) :
    w ∈ (findPattern s pattern).wires ↔
      ∃ p, NamePattern.read pattern = .ok p ∧ s.design.Fits p w := by
  unfold findPattern Session.wiresMatching at h ⊢
  cases hread : NamePattern.read pattern with
  | error reason => simp [hread, Found.ofExcept] at h
  | ok p =>
    simp only [Found.ofExcept, Option.isNone_none, Bool.true_and, Except.ok.injEq, exists_eq_left']
    rw [← Design.mem_wiresMatching]
    split <;> rename_i hempty
    · simp [List.isEmpty_iff.mp hempty]
    · exact Iff.rfl

theorem mem_findTarget (h : (findTarget s a).fault = none) :
    w ∈ (findTarget s a).wires ↔ Hits s.design a w := by
  cases a with
  | word text =>
    rw [findTarget] at h ⊢
    obtain ⟨hfaults, hwires⟩ := wires_foldr_append h
    rw [hwires, List.mem_flatMap, Hits]
    exact exists_congr fun e => and_congr_right fun he => mem_findPattern (hfaults e he)
  | query q =>
    rw [findTarget] at h ⊢
    cases hselect : selectWires s.design "create_clock" q with
    | error reason =>
      rw [hselect] at h
      cases h
    | ok ws => exact mem_selectWires hselect

theorem mem_findTargets {as : List Argument} (h : (findTargets s as).fault = none) :
    w ∈ (findTargets s as).wires ↔ ∃ a ∈ as, Hits s.design a w := by
  unfold findTargets at h ⊢
  obtain ⟨hfaults, hwires⟩ := wires_foldr_append h
  rw [hwires, List.mem_flatMap]
  exact exists_congr fun a => and_congr_right fun ha => mem_findTarget (hfaults a ha)

/-! ### The declared clock -/

theorem spec_wires {o : Options} {period : Float} {found : List WireKey}
    {spec : ClockDeclaration} (h : o.spec d period found = .ok spec) :
    spec.wires = if found.isEmpty then d.wiresCalled spec.name else found := by
  unfold Options.spec at h
  dsimp only at h
  split at h
  · cases h
  · rename_i first rest hwires
    split at h
    · rename_i name hname
      cases h
      dsimp only [ClockDeclaration.explicit]
      split <;> rename_i hempty
      · -- the name was given, or else no wire would have been found
        rw [if_pos hempty] at hwires
        cases hgiven : o.name with
        | none =>
          rw [hgiven] at hwires
          cases hwires
        | some given =>
          rw [hgiven] at hname
          exact congrArg d.wiresCalled (Option.some.inj hname)
      · rfl
    · cases h

theorem run_ok {args : List Argument} (h : run s args = (t, .ok ())) :
    ∃ spec clock found, (s.report found).declare spec = .ok (clock, t) ∧
      (findTargets s (targets args)).fault = none ∧
      spec.wires = if (findTargets s (targets args)).wires.isEmpty then s.design.wiresCalled spec.name
        else (findTargets s (targets args)).wires := by
  unfold run at h
  split at h
  · cases h
  · rename_i o period hoptions
    rw [← readOptions_targets hoptions]
    dsimp only at h
    split at h
    · cases h
    · rename_i hfault
      split at h
      · cases h
      · rename_i out hdeclare
        cases h
        obtain ⟨spec, hspec, hdeclare⟩ := bind_eq_ok_iff.mp hdeclare
        exact ⟨spec, _, _, hdeclare, hfault, spec_wires hspec⟩

end CreateClock
end Command

namespace Session
open Command CreateClock

/-- A clock that is declared by a command is on the wires that the targets select. If they select
none, it is on the wires with its name. -/
theorem createClock_targets (d : Design) (actions : List Action) {args : List Argument}
    {t : Session} {out : Output}
    (h : (after d actions).execute "create_clock" args = (t, .ok out)) :
    ∃ c ∈ t.clocks.clocks, c.wires ≠ [] ∧
      (∃ spec log, (after d actions).clocks.add d spec = .ok (c, t.clocks, log)) ∧
      ((∀ w ∈ c.wires, ∃ a ∈ targets args, Hits d a w) ↔ ∃ w, ∃ a ∈ targets args, Hits d a w) ∧
      ((∃ w, ∃ a ∈ targets args, Hits d a w) →
        ∀ w, w ∈ c.wires ↔ ∃ a ∈ targets args, Hits d a w) ∧
      ((¬ ∃ w, ∃ a ∈ targets args, Hits d a w) → c.wires = d.wiresCalled c.name) := by
  have hs := after_regular d actions
  generalize after d actions = s at hs h
  have hrun : (run s args).1 = t ∧ (run s args).2 = .ok () := by
    change ((run s args).1, (run s args).2.map fun _ => Output.nothing) = (t, .ok out) at h
    obtain ⟨hsession, hresult⟩ := Prod.ext_iff.mp h
    cases hok : (run s args).2 with
    | error fault =>
      rw [hok] at hresult
      cases hresult
    | ok u => exact ⟨hsession, rfl⟩
  obtain ⟨spec, clock, found, hdeclare, hfault, hwires⟩ := run_ok (Prod.ext_iff.mpr hrun)
  have hfound : ∀ w, w ∈ (findTargets s (targets args)).wires ↔ ∃ a ∈ targets args, Hits d a w :=
    fun w => hs.design ▸ mem_findTargets hfault
  rw [hs.design] at hwires
  generalize (findTargets s (targets args)).wires = ws at hwires hfound
  obtain ⟨rfl, hne, hclock, log, hadd⟩ := (hs.report found).registers hdeclare
  have hdeclared : spec.clock.wires = spec.wires.eraseDups := rfl
  have hhit : (∃ w, ∃ a ∈ targets args, Hits d a w) →
      ∀ w, w ∈ spec.clock.wires ↔ ∃ a ∈ targets args, Hits d a w := by
    rintro ⟨x, hx⟩ w
    have hsome : ¬ ws.isEmpty := by simpa using List.ne_nil_of_mem ((hfound x).mpr hx)
    rw [hdeclared, List.mem_eraseDups, hwires, if_neg hsome, hfound]
  refine ⟨spec.clock, hclock, hne, ⟨spec, log, hadd⟩, ⟨fun hall => ?_, fun hsome w hw =>
    (hhit hsome w).mp hw⟩, hhit, fun hnone => ?_⟩
  · obtain ⟨w, hw⟩ := List.exists_mem_of_ne_nil _ hne
    exact ⟨w, hall w hw⟩
  · have hempty : ws.isEmpty := by
      refine List.isEmpty_iff.mpr (List.eq_nil_iff_forall_not_mem.mpr fun w hw => ?_)
      exact hnone ⟨w, (hfound w).mp hw⟩
    rw [hdeclared, hwires, if_pos hempty]
    exact eraseDups_of_nodup (d.wiresCalled_nodup _)

def misspelt : List Argument :=
  [.word "-name", .word "clk", .word "-period", .word "10", .word "rts"]

theorem createClock_targets_misspelt :
    ∃ t, (after bench []).execute "create_clock" misspelt = (t, .ok .nothing) ∧
      ∃ c ∈ t.clocks.clocks, c.wires ≠ [] ∧
        (∃ spec log, (after bench []).clocks.add bench spec = .ok (c, t.clocks, log)) ∧
        ((∀ w ∈ c.wires, ∃ a ∈ targets misspelt, Hits bench a w) ↔
          ∃ w, ∃ a ∈ targets misspelt, Hits bench a w) ∧
        ((∃ w, ∃ a ∈ targets misspelt, Hits bench a w) →
          ∀ w, w ∈ c.wires ↔ ∃ a ∈ targets misspelt, Hits bench a w) ∧
        ((¬ ∃ w, ∃ a ∈ targets misspelt, Hits bench a w) → c.wires = bench.wiresCalled c.name) := by
  have hok : ((after bench []).execute "create_clock" misspelt).2 = .ok .nothing := by
    decide +kernel
  have h : (after bench []).execute "create_clock" misspelt =
      (((after bench []).execute "create_clock" misspelt).1, .ok .nothing) := by rw [← hok]
  exact ⟨_, h, createClock_targets bench [] h⟩

theorem createClock_misses_targets :
    let result := (after bench []).execute "create_clock" misspelt
    result.2 = .ok .nothing ∧ targets misspelt = [.word "rts"] ∧
      result.1.clocks.clocks.map (·.wires) = [[⟨0, 2⟩]] ∧ ¬ Hits bench (.word "rts") ⟨0, 2⟩ := by
  refine ⟨by decide +kernel, by decide +kernel, by decide +kernel, ?_⟩
  rintro ⟨e, he, p, hread, s, hpath, haccepts⟩
  have hitems : (Argument.word "rts").listItems = ["rts"] := by decide +kernel
  obtain rfl := List.mem_singleton.mp (hitems ▸ he)
  have hliteral : NamePattern.read "rts" = .ok (.literal "rts") :=
    NamePattern.read_of_isLiteral (IsPath.isLiteral (by decide))
  obtain rfl := Except.ok.inj (hread.symm.trans hliteral)
  have hclk : bench.path? ⟨0, 2⟩ = some "clk" := by decide +kernel
  obtain rfl := Option.some.inj (hpath.symm.trans hclk)
  exact absurd (NamePattern.literal_accepts.mp haccepts) (by decide)

end Session
end ClockTree
