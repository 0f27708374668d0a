import ClockTree.Proofs.Command.Targets
import ClockTree.Proofs.Writer.Visibility

/-!
# The clocks that a command finds

The patterns of all arguments of `get_clocks` are one list, and a clock is found if it fits one of
them and the options let it through. Without patterns every clock that the options let through is
found. So several arguments find together what each of them finds alone, unless one of them has no
patterns and others have some: alone it stands for every clock, and beside the others for none.
-/
namespace ClockTree

theorem Text.runsFrom_eq_nil_iff {p : Char → Bool} {run cs : List Char} :
    runsFrom p run cs = [] ↔ run = [] ∧ ∀ c ∈ cs, p c := by
  fun_induction runsFrom p run cs with
  | case1 run hrun => simp_all
  | case2 run hrun => simp_all
  | case3 run c cs hc hrun ih => simp_all
  | case4 run c cs hc hrun => simp_all
  | case5 run c cs hc ih => simp_all

namespace Argument

/-- A word of blanks and braces, or a query without patterns. -/
def Patternless : Argument → Prop
  | .word w => ∀ c ∈ w.toList, Text.isBlank c ∨ c = '\x7b' ∨ c = '\x7d'
  | .query q => q.patterns = []

theorem listItems_eq_nil_iff {w : String} : (Argument.word w).listItems = [] ↔
    (Argument.word w).Patternless := by
  rw [listItems, Text.runs, List.map_eq_nil_iff, Text.runsFrom_eq_nil_iff]
  simp [Patternless, or_assoc]

end Argument

namespace Command.Lookup
open CreateClock (target?)

def optionItems (args : List Argument) : List Item :=
  (items ["-of", "-of_objects"] args).filter fun i => (target? i).isNone

def positionals (args : List Argument) : List Argument :=
  (items ["-of", "-of_objects"] args).filterMap target?

def ClockFilter.Admits (f : ClockFilter) (c : Clock) : Prop :=
  (f.includeGenerated ∨ ¬ c.isGenerated) ∧ ∀ ws ∈ f.wires, ∃ w ∈ c.wires, w ∈ ws

/-- The name fits one of the patterns, or there are no patterns. -/
def Fits (patterns : List String) (name : String) : Prop :=
  patterns = [] ∨ ∃ e ∈ patterns, ∃ p, NamePattern.read e = .ok p ∧ p.accepts name

variable {s : Session} {f g : ClockFilter} {a : Argument} {i : Item} {is : List Item}

theorem clockPatterns_nil_iff {ps : List String} (h : clockPatterns a = .ok ps) :
    ps = [] ↔ a.Patternless := by
  cases a with
  | word w =>
    obtain rfl := Except.ok.inj h
    exact Argument.listItems_eq_nil_iff
  | query q =>
    rw [clockPatterns] at h
    split at h
    · obtain rfl := Except.ok.inj h
      exact Iff.rfl
    · cases h

/-! ### Reading the arguments -/

theorem add_given (h : target? i = some a) (f : ClockFilter) : f.add s i = .ok g ↔
    ∃ ps, clockPatterns a = .ok ps ∧ g = { f with patterns := f.patterns ++ ps } := by
  cases i with
  | option name value => cases h
  | incomplete name => cases h
  | single b =>
    rw [target?] at h
    split at h
    · cases h
    · rename_i hswitch
      obtain rfl := Option.some.inj h
      have hflag : b ≠ .word "-include_generated_clocks" := by
        rintro rfl
        exact hswitch (by decide +kernel)
      rw [ClockFilter.add, if_neg hflag, if_neg hswitch]
      cases clockPatterns b <;> simp [eq_comm]

theorem add_option (h : target? i = none) (f : ClockFilter) (ps : List String) :
    ({ f with patterns := ps } : ClockFilter).add s i =
      (f.add s i).map fun g => { g with patterns := ps } := by
  cases i with
  | incomplete name => rfl
  | option name value =>
    rw [ClockFilter.add, ClockFilter.add]
    cases argumentWires s "get_clocks" value <;> rfl
  | single b =>
    have hswitch : b.isSwitch := by
      by_contra hswitch
      simp [target?, hswitch] at h
    rw [ClockFilter.add, ClockFilter.add, if_pos hswitch, if_pos hswitch]
    split <;> rfl

theorem foldlM_options (h : ∀ i ∈ is, target? i = none) (f : ClockFilter) (ps : List String) :
    is.foldlM (ClockFilter.add s) { f with patterns := ps } =
      (is.foldlM (ClockFilter.add s) f).map fun g => { g with patterns := ps } := by
  induction is generalizing f with
  | nil => rfl
  | cons i is ih =>
    obtain ⟨hi, his⟩ := List.forall_mem_cons.mp h
    rw [List.foldlM_cons, List.foldlM_cons, add_option hi]
    cases f.add s i with
    | error e => rfl
    | ok f' => exact ih his f'

theorem foldlM_add_iff {f' : ClockFilter} : is.foldlM (ClockFilter.add s) f = .ok f' ↔
    ∃ g pss, (is.filter fun i => (target? i).isNone).foldlM (ClockFilter.add s) f = .ok g ∧
      (is.filterMap target?).mapM clockPatterns = .ok pss ∧
      f' = { g with patterns := f.patterns ++ pss.flatten } := by
  induction is generalizing f with
  | nil =>
    simp only [List.foldlM_nil, List.filter_nil, List.filterMap_nil, List.mapM_nil, pure, Except.pure,
      Except.ok.injEq]
    constructor
    · rintro rfl
      exact ⟨f, [], rfl, rfl, by simp⟩
    · rintro ⟨g, pss, rfl, rfl, rfl⟩
      simp
  | cons i is ih =>
    rw [List.foldlM_cons, bind_eq_ok_iff]
    cases hi : target? i with
    | none =>
      have hpatterns : ∀ f₁, f.add s i = .ok f₁ → f₁.patterns = f.patterns := by
        intro f₁ hf₁
        have hsame := add_option (s := s) hi f f.patterns
        rw [hf₁] at hsame
        have hf₁ : f₁ = { f₁ with patterns := f.patterns } := by simpa [Except.map] using hsame
        exact (congrArg ClockFilter.patterns hf₁ :)
      rw [List.filter_cons_of_pos (by simp [hi]), List.filterMap_cons_none hi, List.foldlM_cons]
      simp only [bind_eq_ok_iff, ih]
      constructor
      · rintro ⟨f₁, hf₁, g, pss, hg, hpss, rfl⟩
        exact ⟨g, pss, ⟨f₁, hf₁, hg⟩, hpss, by rw [hpatterns f₁ hf₁]⟩
      · rintro ⟨g, pss, ⟨f₁, hf₁, hg⟩, hpss, rfl⟩
        exact ⟨f₁, hf₁, g, pss, hg, hpss, by rw [hpatterns f₁ hf₁]⟩
    | some a =>
      have hoption : ∀ i ∈ is.filter fun i => (target? i).isNone, target? i = none := fun i hi => by
        simpa using (List.mem_filter.mp hi).2
      have hoptions := foldlM_options (s := s) hoption f
      rw [List.filter_cons_of_neg (by simp [hi]), List.filterMap_cons_some hi, List.mapM_cons]
      simp only [bind_eq_ok_iff, add_given hi, ih, pure, Except.pure, Except.ok.injEq]
      constructor
      · rintro ⟨f₁, ⟨ps, hps, rfl⟩, g₁, pss, hg₁, hpss, rfl⟩
        rw [hoptions] at hg₁
        cases hg : (is.filter fun i => (target? i).isNone).foldlM (ClockFilter.add s) f with
        | error e =>
          rw [hg] at hg₁
          cases hg₁
        | ok g =>
          rw [hg] at hg₁
          obtain rfl := Except.ok.inj hg₁
          exact ⟨g, ps :: pss, rfl, ⟨ps, hps, pss, hpss, rfl⟩, by simp⟩
      · rintro ⟨g, _, hg, ⟨ps, hps, pss, hpss, rfl⟩, rfl⟩
        refine ⟨_, ⟨ps, hps, rfl⟩, { g with patterns := f.patterns ++ ps }, pss, ?_, hpss, by simp⟩
        rw [hoptions, hg]
        rfl

theorem readFilter_iff {args : List Argument} : readFilter s args = .ok f ↔
    ∃ g pss, (optionItems args).foldlM (ClockFilter.add s) {} = .ok g ∧
      (positionals args).mapM clockPatterns = .ok pss ∧ f = { g with patterns := pss.flatten } := by
  rw [readFilter, foldlM_add_iff]
  rfl

/-! ### Finding clocks -/

theorem admits_iff {c : Clock} : ((f.includeGenerated || !c.isGenerated) &&
    match f.wires with
      | none => true
      | some ws => c.wires.any ws.contains) ↔ f.Admits c := by
  rw [ClockFilter.Admits]
  cases f.wires <;> simp

open scoped Classical in
theorem selectClocks_eq {ps : List NamePattern} (hps : Session.readPatterns f.patterns = .ok ps) :
    s.selectClocks ps f.includeGenerated f.wires =
      s.clocks.clocks.filter fun c => f.Admits c ∧ Fits f.patterns c.name := by
  have hempty : ps = [] ↔ f.patterns = [] := by
    have hlength := (forall₂_of_mapM_ok hps).length_eq
    rw [← List.length_eq_zero_iff, ← hlength, List.length_eq_zero_iff]
  have hfits : ∀ name, (ps.isEmpty || ps.any fun p => p.accepts name) ↔ Fits f.patterns name := by
    intro name
    rw [Bool.or_eq_true, List.isEmpty_iff, List.any_eq_true, hempty, Fits]
    simp only [mem_readPatterns hps]
    grind
  refine List.filter_congr fun c _ => ?_
  rw [Bool.eq_iff_iff, decide_eq_true_iff, ← hfits, ← admits_iff]
  simp only [Bool.and_eq_true]
  tauto

theorem clocks_ok_iff (hne : s.clocks.isEmpty = false) {args : List Argument} {names : List String} :
    (clocks s args).2 = .ok names ↔ ∃ f ps, readFilter s args = .ok f ∧
      Session.readPatterns f.patterns = .ok ps ∧
      (s.selectClocks ps f.includeGenerated f.wires).map (·.name) = names := by
  rw [clocks]
  cases hf : readFilter s args with
  | error e => simp
  | ok f =>
    simp only [Session.lookUp, hne, Bool.false_eq_true, if_false, Except.ok.injEq, exists_and_left,
      exists_eq_left']
    cases hps : Session.readPatterns f.patterns <;> simp [Except.map]

theorem execute_ok_iff {args : List Argument} {names : List String} :
    (s.execute "get_clocks" args).2 = .ok (.names names) ↔ (clocks s args).2 = .ok names := by
  change ((clocks s args).2.map Output.names) = _ ↔ _
  cases (clocks s args).2 <;> simp [Except.map]

open scoped Classical in
theorem found_eq (hne : s.clocks.isEmpty = false) {args : List Argument} {pss : List (List String)}
    (hg : (optionItems args).foldlM (ClockFilter.add s) {} = .ok g)
    (hpss : (positionals args).mapM clockPatterns = .ok pss) {names : List String}
    (h : (s.execute "get_clocks" args).2 = .ok (.names names)) : names =
      (s.clocks.clocks.filter fun c => g.Admits c ∧ Fits pss.flatten c.name).map (·.name) := by
  obtain ⟨f, ps, hf, hps, rfl⟩ := (clocks_ok_iff hne).mp (execute_ok_iff.mp h)
  obtain ⟨g', pss', hg', hpss', rfl⟩ := readFilter_iff.mp hf
  obtain rfl := Except.ok.inj (hg.symm.trans hg')
  obtain rfl := Except.ok.inj (hpss.symm.trans hpss')
  rw [selectClocks_eq hps]
  rfl

open scoped Classical in
theorem found_single (hne : s.clocks.isEmpty = false) {args : List Argument} {a : Argument}
    {ps : List String} (hone : positionals args = [a])
    (hg : (optionItems args).foldlM (ClockFilter.add s) {} = .ok g) (hps : clockPatterns a = .ok ps)
    {names : List String} (h : (s.execute "get_clocks" args).2 = .ok (.names names)) : names =
      (s.clocks.clocks.filter fun c => g.Admits c ∧ Fits ps c.name).map (·.name) := by
  have hpss : (positionals args).mapM clockPatterns = .ok [ps] := by
    rw [hone, List.mapM_cons, hps]
    rfl
  simpa using found_eq hne hg hpss h

theorem exists_found (hne : s.clocks.isEmpty = false) {args : List Argument} :
    (∃ names, (s.execute "get_clocks" args).2 = .ok (.names names)) ↔
      (∃ g, (optionItems args).foldlM (ClockFilter.add s) {} = .ok g) ∧
        ∀ a ∈ positionals args, ∃ ps, clockPatterns a = .ok ps ∧
          ∀ e ∈ ps, ∃ p, NamePattern.read e = .ok p := by
  have hread : ∀ e, (∃ p, (NamePattern.read e).mapError Fault.pattern = .ok p) ↔
      ∃ p, NamePattern.read e = .ok p := fun e => by
    cases NamePattern.read e <;> simp [Except.mapError]
  simp only [execute_ok_iff, clocks_ok_iff hne, readFilter_iff]
  constructor
  · rintro ⟨names, f, ps, ⟨g, pss, hg, hpss, rfl⟩, hps, -⟩
    refine ⟨⟨g, hg⟩, fun a ha => ?_⟩
    obtain ⟨l, hl⟩ := exists_mapM_ok_iff.mp ⟨pss, hpss⟩ a ha
    refine ⟨l, hl, fun e he => (hread e).mp ?_⟩
    have hmem : e ∈ pss.flatten := List.mem_flatten.mpr ⟨l, (mem_mapM_ok_iff hpss).mpr ⟨a, ha, hl⟩, he⟩
    exact exists_mapM_ok_iff.mp ⟨ps, hps⟩ e hmem
  · rintro ⟨⟨g, hg⟩, hgiven⟩
    obtain ⟨pss, hpss⟩ := exists_mapM_ok_iff.mpr fun a ha => (hgiven a ha).imp fun _ => And.left
    have hall : ∀ e ∈ pss.flatten, ∃ p, NamePattern.read e = .ok p := fun e he => by
      obtain ⟨l, hl, he⟩ := List.mem_flatten.mp he
      obtain ⟨a, ha, hla⟩ := (mem_mapM_ok_iff hpss).mp hl
      obtain ⟨ps, hps, hreads⟩ := hgiven a ha
      obtain rfl := Except.ok.inj (hla.symm.trans hps)
      exact hreads e he
    obtain ⟨ps, hps⟩ := exists_mapM_ok_iff.mpr fun e he => (hread e).mpr (hall e he)
    exact ⟨_, _, ps, ⟨g, pss, hg, hpss, rfl⟩, hps, rfl⟩

theorem flatten_eq_nil_iff {as : List Argument} {pss : List (List String)}
    (h : as.mapM clockPatterns = .ok pss) : pss.flatten = [] ↔ ∀ a ∈ as, a.Patternless := by
  rw [List.flatten_eq_nil_iff]
  constructor
  · intro hnil a ha
    obtain ⟨ps, hps⟩ := exists_mapM_ok_iff.mp ⟨pss, h⟩ a ha
    exact (clockPatterns_nil_iff hps).mp (hnil ps ((mem_mapM_ok_iff h).mpr ⟨a, ha, hps⟩))
  · intro hnil ps hps
    obtain ⟨a, ha, hps⟩ := (mem_mapM_ok_iff h).mp hps
    exact (clockPatterns_nil_iff hps).mpr (hnil a ha)

theorem fits_flatten_iff {as : List Argument} {pss : List (List String)}
    (h : as.mapM clockPatterns = .ok pss) (hsome : ∃ a ∈ as, ¬ a.Patternless) {n : String} :
    Fits pss.flatten n ↔
      ∃ a ∈ as, ¬ a.Patternless ∧ ∃ ps, clockPatterns a = .ok ps ∧ Fits ps n := by
  have hne : pss.flatten ≠ [] := fun hnil => by
    obtain ⟨a, ha, hpatterns⟩ := hsome
    exact hpatterns ((flatten_eq_nil_iff h).mp hnil a ha)
  rw [Fits, or_iff_right hne]
  constructor
  · rintro ⟨e, he, hread⟩
    obtain ⟨ps, hps, he⟩ := List.mem_flatten.mp he
    obtain ⟨a, ha, hps⟩ := (mem_mapM_ok_iff h).mp hps
    have hpatterns := mt (clockPatterns_nil_iff hps).mpr (List.ne_nil_of_mem he)
    exact ⟨a, ha, hpatterns, ps, hps, Or.inr ⟨e, he, hread⟩⟩
  · rintro ⟨a, ha, hpatterns, ps, hps, hfits⟩
    obtain ⟨e, he, hread⟩ := hfits.resolve_left (mt (clockPatterns_nil_iff hps).mp hpatterns)
    exact ⟨e, List.mem_flatten.mpr ⟨ps, (mem_mapM_ok_iff h).mpr ⟨a, ha, hps⟩, he⟩, hread⟩

/-- If what is found together is what those with patterns find, or what each finds where none has
patterns, then it is what all find if and only if those without patterns find no more. -/
theorem union_iff {as : List Argument} {found : Argument → List String} {names : List String}
    (hne : as ≠ []) (hsome : (∃ a ∈ as, ¬ a.Patternless) →
      ∀ n, n ∈ names ↔ ∃ a ∈ as, ¬ a.Patternless ∧ n ∈ found a)
    (hnone : (∀ a ∈ as, a.Patternless) → ∀ a ∈ as, found a = names) :
    (∀ n, n ∈ names ↔ ∃ a ∈ as, n ∈ found a) ↔ ∀ a ∈ as, a.Patternless → found a ⊆ names := by
  refine ⟨fun hunion a ha _ n hn => (hunion n).mpr ⟨a, ha, hn⟩, fun hsubset n => ?_⟩
  by_cases hpatterned : ∃ a ∈ as, ¬ a.Patternless
  · rw [hsome hpatterned]
    constructor
    · exact fun ⟨a, ha, _, hn⟩ => ⟨a, ha, hn⟩
    · rintro ⟨a, ha, hn⟩
      by_cases hpatterns : a.Patternless
      · exact (hsome hpatterned n).mp (hsubset a ha hpatterns hn)
      · exact ⟨a, ha, hpatterns, hn⟩
  · have hsame := hnone (by simpa using hpatterned)
    obtain ⟨b, hb⟩ := List.exists_mem_of_ne_nil as hne
    exact ⟨fun hn => ⟨b, hb, hsame b hb ▸ hn⟩, fun ⟨a, ha, hn⟩ => hsame a ha ▸ hn⟩

end Command.Lookup

namespace Session
open Command Lookup

/-- If each argument is accepted alone with the same options, so are all together, and the clocks
that are found have the order of the registry. They are those that the arguments with patterns find
alone, or, if no argument has patterns, those that each finds. So they are those that the arguments
find alone if and only if no argument without patterns finds more than all together. -/
theorem getClocks_together (d : Design) (actions : List Action) {args : List Argument}
    {alone : Argument → List Argument} {found : Argument → List String}
    (hne : (after d actions).clocks.isEmpty = false) (hgiven : positionals args ≠ [])
    (halone : ∀ a ∈ positionals args, positionals (alone a) = [a] ∧ optionItems (alone a) = optionItems args ∧
      ((after d actions).execute "get_clocks" (alone a)).2 = .ok (.names (found a))) :
    ∃ names, ((after d actions).execute "get_clocks" args).2 = .ok (.names names) ∧
      names.Sublist ((after d actions).clocks.clocks.map (·.name)) ∧ names.Nodup ∧
      ((∃ a ∈ positionals args, ¬ a.Patternless) →
        ∀ n, n ∈ names ↔ ∃ a ∈ positionals args, ¬ a.Patternless ∧ n ∈ found a) ∧
      ((∀ a ∈ positionals args, a.Patternless) → ∀ a ∈ positionals args, found a = names) ∧
      ((∀ n, n ∈ names ↔ ∃ a ∈ positionals args, n ∈ found a) ↔
        ∀ a ∈ positionals args, a.Patternless → found a ⊆ names) := by
  classical
  have hsound := (after_regular d actions).sound
  generalize after d actions = s at *
  have haccepted : ∀ a ∈ positionals args,
      (∃ g, (optionItems args).foldlM (ClockFilter.add s) {} = .ok g) ∧
        ∃ ps, clockPatterns a = .ok ps ∧ ∀ e ∈ ps, ∃ p, NamePattern.read e = .ok p := by
    intro a ha
    obtain ⟨hsingle, hoptions, hfound⟩ := halone a ha
    have hall := (exists_found hne).mp ⟨found a, hfound⟩
    rw [hsingle, hoptions, List.forall_mem_singleton] at hall
    exact hall
  obtain ⟨a₀, ha₀⟩ := List.exists_mem_of_ne_nil _ hgiven
  obtain ⟨g, hg⟩ := (haccepted a₀ ha₀).1
  obtain ⟨names, hnames⟩ := (exists_found hne).mpr ⟨⟨g, hg⟩, fun a ha => (haccepted a ha).2⟩
  obtain ⟨pss, hpss⟩ := exists_mapM_ok_iff.mpr fun a ha => (haccepted a ha).2.imp fun _ => And.left
  have htogether := found_eq hne hg hpss hnames
  have hsingle : ∀ a ∈ positionals args, ∀ ps, clockPatterns a = .ok ps → found a =
      (s.clocks.clocks.filter fun c => g.Admits c ∧ Fits ps c.name).map (·.name) := by
    intro a ha ps hps
    obtain ⟨hone, hoptions, hfound⟩ := halone a ha
    exact found_single hne hone (hoptions ▸ hg) hps hfound
  have hmem : ∀ a ∈ positionals args, ∀ n, n ∈ found a ↔ ∃ c ∈ s.clocks.clocks, c.name = n ∧
      g.Admits c ∧ ∃ ps, clockPatterns a = .ok ps ∧ Fits ps n := by
    intro a ha n
    obtain ⟨ps, hps, -⟩ := (haccepted a ha).2
    rw [hsingle a ha ps hps]
    simp only [List.mem_map, List.mem_filter, decide_eq_true_eq, hps, Except.ok.injEq,
      exists_eq_left']
    grind
  have hpatterned : (∃ a ∈ positionals args, ¬ a.Patternless) →
      ∀ n, n ∈ names ↔ ∃ a ∈ positionals args, ¬ a.Patternless ∧ n ∈ found a := by
    intro hsome n
    simp only [htogether, List.mem_map, List.mem_filter, decide_eq_true_eq,
      fits_flatten_iff hpss hsome]
    grind
  have hpatternless : (∀ a ∈ positionals args, a.Patternless) →
      ∀ a ∈ positionals args, found a = names := by
    intro hnone a ha
    obtain ⟨ps, hps, -⟩ := (haccepted a ha).2
    rw [hsingle a ha ps hps, htogether, (flatten_eq_nil_iff hpss).mpr hnone,
      (clockPatterns_nil_iff hps).mpr (hnone a ha)]
  have hsublist : names.Sublist (s.clocks.clocks.map (·.name)) := by
    rw [htogether]
    exact List.filter_sublist.map _
  exact ⟨names, hnames, hsublist, hsound.names.sublist hsublist, hpatterned, hpatternless,
    union_iff hgiven hpatterned hpatternless⟩

def mixedArguments : List Argument :=
  [.query ⟨.clocks, []⟩, .word "-include_generated_clocks", .word "core*"]

theorem getClocks_together_mixed :
    let s := after bench benchActions
    let alone (a : Argument) : List Argument := [a, .word "-include_generated_clocks"]
    let found (a : Argument) : List String :=
      if a = .word "core*" then ["core/fast"] else ["clk", "core/fast"]
    s.clocks.isEmpty = false ∧ positionals mixedArguments ≠ [] ∧
      (∀ a ∈ positionals mixedArguments, positionals (alone a) = [a] ∧
        optionItems (alone a) = optionItems mixedArguments ∧
        (s.execute "get_clocks" (alone a)).2 = .ok (.names (found a))) ∧
      ∃ names, (s.execute "get_clocks" mixedArguments).2 = .ok (.names names) ∧
        names.Sublist (s.clocks.clocks.map (·.name)) ∧ names.Nodup ∧
        ((∃ a ∈ positionals mixedArguments, ¬ a.Patternless) →
          ∀ n, n ∈ names ↔ ∃ a ∈ positionals mixedArguments, ¬ a.Patternless ∧ n ∈ found a) ∧
        ((∀ a ∈ positionals mixedArguments, a.Patternless) →
          ∀ a ∈ positionals mixedArguments, found a = names) ∧
        ((∀ n, n ∈ names ↔ ∃ a ∈ positionals mixedArguments, n ∈ found a) ↔
          ∀ a ∈ positionals mixedArguments, a.Patternless → found a ⊆ names) := by
  intro s alone found
  have hne : s.clocks.isEmpty = false := by decide +kernel
  have hgiven : positionals mixedArguments ≠ [] := by decide +kernel
  have halone : ∀ a ∈ positionals mixedArguments, positionals (alone a) = [a] ∧
      optionItems (alone a) = optionItems mixedArguments ∧
      (s.execute "get_clocks" (alone a)).2 = .ok (.names (found a)) := by decide +kernel
  exact ⟨hne, hgiven, halone, getClocks_together bench benchActions hne hgiven halone⟩

theorem getClocks_misses_query :
    let run (args : List Argument) := ((after bench benchActions).execute "get_clocks" args).2
    run [.query ⟨.clocks, []⟩] = .ok (.names ["clk", "core/fast"]) ∧
      run [.word "core*"] = .ok (.names ["core/fast"]) ∧
      run [.query ⟨.clocks, []⟩, .word "core*"] = .ok (.names ["core/fast"]) := by
  decide +kernel

end Session
end ClockTree
