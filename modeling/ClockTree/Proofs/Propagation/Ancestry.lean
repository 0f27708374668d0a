import ClockTree.Proofs.Netlist.Built
import ClockTree.Proofs.Propagation.Declarations

/-!
# Lines of descent

When a registry holds explicit clocks only, every clock that a run derives descends from one of them.
A stale clock is replaced by a clock of its own name on its own wire: the names that were refused
when it was derived are still taken by other clocks, so the search for a name ends with its name
again. Its new parent does not descend from it, so no circle is closed.
-/
namespace ClockTree

/-- When each element has one height, and every height is above an element of the next lower one,
there is a line of elements down from any element, and none of them comes twice. -/
theorem exists_line {α : Type} {D : Nat → α → Prop} (hunique : ∀ {m n a}, D m a → D n a → m = n)
    (hlower : ∀ {n a}, D (n + 1) a → ∃ b, D n b) {n : Nat} {a : α} (h : D n a) :
    ∃ l : List α, l.length = n + 1 ∧ l.Nodup ∧ ∀ b ∈ l, ∃ m ≤ n, D m b := by
  induction n generalizing a with
  | zero =>
    refine ⟨[a], rfl, List.nodup_singleton a, fun b hb => ?_⟩
    rw [List.mem_singleton.mp hb]
    exact ⟨0, Nat.le_refl 0, h⟩
  | succ n ih =>
    obtain ⟨b, hb⟩ := hlower h
    obtain ⟨l, hlength, hnodup, hl⟩ := ih hb
    refine ⟨a :: l, by simp [hlength], List.nodup_cons.mpr ⟨fun hmem => ?_, hnodup⟩, fun b hb => ?_⟩
    · obtain ⟨m, hm, hheight⟩ := hl a hmem
      have hsame := hunique h hheight
      omega
    · obtain rfl | hb := List.mem_cons.mp hb
      · exact ⟨n + 1, Nat.le_refl _, h⟩
      · obtain ⟨m, hm, hheight⟩ := hl b hb
        exact ⟨m, by omega, hheight⟩

namespace Registry

def ancestor? (r : Registry) : Nat → String → Option Clock
  | 0, name => r.named? name
  | n + 1, name => do r.ancestor? n (← (← r.named? name).parent?)

/-- Following parents leads from every clock to an explicit one, in fewer steps than there are
clocks. -/
def Rooted (r : Registry) : Prop :=
  ∀ c ∈ r.clocks, ∃ n < r.clocks.length, ∃ b ∈ r.clocks, r.ancestor? n c.name = some b ∧
    b.isGenerated = false

def Retains (r r' : Registry) : Prop :=
  ∀ b ∈ r.clocks, ∃ c ∈ r'.clocks, c.name = b.name ∧ c.wires = b.wires

theorem Retains.refl (r : Registry) : r.Retains r := fun b hb => ⟨b, hb, rfl, rfl⟩

theorem Retains.trans {r r' r'' : Registry} (h : r.Retains r') (h' : r'.Retains r'') :
    r.Retains r'' := by
  intro b hb
  obtain ⟨c, hc, hname, hwires⟩ := h b hb
  obtain ⟨c', hc', hname', hwires'⟩ := h' c hc
  exact ⟨c', hc', hname'.trans hname, hwires'.trans hwires⟩

inductive Descends (r : Registry) : Nat → Clock → Prop where
  | root {c : Clock} (hc : c ∈ r.clocks) (horigin : c.origin = .explicit) : Descends r 0 c
  | child {n : Nat} {c p : Clock} (hc : c ∈ r.clocks) (horigin : c.origin = .generated p.name)
    (hp : Descends r n p) : Descends r (n + 1) c

namespace Descends
variable {r r' : Registry} {m n : Nat} {c : Clock}

theorem mem (h : r.Descends n c) : c ∈ r.clocks := by
  cases h <;> assumption

theorem height_unique (hr : r.Coherent) (h : r.Descends m c) (h' : r.Descends n c) : m = n := by
  induction h generalizing n with
  | root hc horigin =>
    cases h' with
    | root => rfl
    | child hc' horigin' hp' =>
      rw [horigin] at horigin'
      cases horigin'
  | child hc horigin hp ih =>
    cases h' with
    | root hc' horigin' =>
      rw [horigin] at horigin'
      cases horigin'
    | child hc' horigin' hp' =>
      rw [horigin, Origin.generated.injEq] at horigin'
      obtain rfl := hr.eq_of_name hp.mem hp'.mem horigin'
      rw [ih hp']

/-- A line of descent has no repetition, since its clocks are at different distances from the
root. -/
theorem line (hr : r.Coherent) (h : r.Descends n c) : ∃ l : List Clock, l.length = n + 1 ∧
    l.Nodup ∧ ∀ b ∈ l, ∃ m ≤ n, r.Descends m b := by
  refine exists_line (fun h h' => h.height_unique hr h') (fun h => ?_) h
  cases h with
  | child hc horigin hp => exact ⟨_, hp⟩

theorem height_lt (hr : r.Coherent) (h : r.Descends n c) : n < r.clocks.length := by
  obtain ⟨l, hlength, hnodup, hl⟩ := h.line hr
  have hsubset : l ⊆ r.clocks := fun b hb => (hl b hb).elim fun _ hm => hm.2.mem
  have hle := hnodup.length_le_of_subset hsubset
  omega

theorem ancestor (hr : r.Coherent) (h : r.Descends n c) :
    ∃ b ∈ r.clocks, r.ancestor? n c.name = some b ∧ b.isGenerated = false := by
  induction h with
  | root hc horigin =>
    exact ⟨_, hc, hr.named?_eq_some_iff.mpr ⟨hc, rfl⟩, by simp [Clock.isGenerated, horigin]⟩
  | child hc horigin hp ih =>
    obtain ⟨b, hb, hancestor, hexplicit⟩ := ih
    refine ⟨b, hb, ?_, hexplicit⟩
    simp [ancestor?, hr.named?_eq_some_iff.mpr ⟨hc, rfl⟩, Clock.parent?, horigin, Origin.parent?,
      hancestor]

theorem mono (hsub : r.clocks ⊆ r'.clocks) (h : r.Descends n c) : r'.Descends n c := by
  induction h with
  | root hc horigin => exact .root (hsub hc) horigin
  | child hc horigin hp ih => exact .child (hsub hc) horigin ih

theorem of_avoids {a : String} (hr : r.Coherent)
    (hsub : ∀ b ∈ r.clocks, b.name ≠ a → b ∈ r'.clocks) (h : r.Descends n c) (hmn : n < m)
    (hreach : r.reaches a m (some c.name) = false) : r'.Descends n c := by
  induction h generalizing m with
  | @root c hc horigin =>
    obtain ⟨m, rfl⟩ : ∃ k, m = k + 1 := ⟨m - 1, by omega⟩
    simp only [reaches, Bool.or_eq_false_iff, beq_eq_false_iff_ne] at hreach
    exact .root (hsub c hc hreach.1) horigin
  | @child n c p hc horigin hp ih =>
    obtain ⟨m, rfl⟩ : ∃ k, m = k + 1 := ⟨m - 1, by omega⟩
    simp only [reaches, Bool.or_eq_false_iff, beq_eq_false_iff_ne,
      hr.named?_eq_some_iff.mpr ⟨hc, rfl⟩, Option.bind_some, Clock.parent?, horigin,
      Origin.parent?] at hreach
    exact .child (hsub c hc hreach.1) horigin (ih (by omega) hreach.2)

theorem of_replaced {x : Clock} (hx : ∃ m, r'.Descends m x)
    (hmem : ∀ b ∈ r.clocks, b.name ≠ x.name → b ∈ r'.clocks) (h : r.Descends n c) :
    ∃ m, r'.Descends m (if c.name = x.name then x else c) := by
  induction h with
  | root hc horigin =>
    split
    · exact hx
    · rename_i hname
      exact ⟨0, .root (hmem _ hc hname) horigin⟩
  | child hc horigin hp ih =>
    split
    · exact hx
    · rename_i hname
      obtain ⟨m, hm⟩ := ih
      refine ⟨m + 1, .child (hmem _ hc hname) (horigin.trans ?_) hm⟩
      split
      · rename_i hsame
        rw [hsame]
      · rfl

end Descends

/-- A generated clock has the first name that its wire may give, seen from the clocks of `r`. -/
def FirstNamed (d : Design) (r : Registry) (g : Clock) : Prop :=
  ∃ w path n, g.wires = [w] ∧ d.path? w = some path ∧ g.name = candidate path n ∧
    ∀ m < n, ∃ b ∈ r.clocks, b.name = candidate path m ∧ b.wires ≠ [w]

theorem FirstNamed.mono {d : Design} {r r' : Registry} {g : Clock} (h : r.FirstNamed d g)
    (hr : r.Retains r') : r'.FirstNamed d g := by
  obtain ⟨w, path, n, hwires, hpath, hname, hrefused⟩ := h
  refine ⟨w, path, n, hwires, hpath, hname, fun m hm => ?_⟩
  obtain ⟨b, hb, hb', hne⟩ := hrefused m hm
  obtain ⟨c, hc, hcname, hcwires⟩ := hr b hb
  exact ⟨c, hc, hcname.trans hb', hcwires ▸ hne⟩

theorem FirstNamed.freeName_eq {d : Design} {r : Registry} {g : Clock} {w : WireKey} {path : String}
    (h : r.FirstNamed d g) (hr : r.Coherent) (hg : g ∈ r.clocks) (hw : w ∈ g.wires)
    (hpath : d.path? w = some path) : r.freeName path w = g.name := by
  obtain ⟨w', path', n, hwires, hpath', hname, hrefused⟩ := h
  obtain rfl : w = w' := by simpa [hwires] using hw
  obtain rfl : path = path' := Option.some.inj (hpath.symm.trans hpath')
  rw [hname]
  refine Registry.freeName_eq hr ?_ fun m hm => (mayName_eq_false_iff hr).mpr (hrefused m hm)
  have hnamed := hr.named?_eq_some_iff.mpr ⟨hg, rfl⟩
  rw [hname] at hnamed
  simp [mayName, hnamed, hwires]

/-- Every clock descends from an explicit one, and a wire that derives a clock anew gives it the
name that it has. -/
structure Lineal (d : Design) (r : Registry) : Prop where
  sound : r.Sound d
  named : ∀ g ∈ r.clocks, g.isGenerated → r.FirstNamed d g
  descends : ∀ c ∈ r.clocks, ∃ n, r.Descends n c

theorem Lineal.of_explicit {d : Design} {r : Registry} (h : r.Sound d)
    (hexplicit : ∀ c ∈ r.clocks, c.isGenerated = false) : r.Lineal d where
  sound := h
  named g hg hgen := by
    rw [hexplicit g hg] at hgen
    cases hgen
  descends c hc := ⟨0, .root hc (by simpa [Clock.isGenerated] using hexplicit c hc)⟩

theorem Lineal.rooted {d : Design} {r : Registry} (h : r.Lineal d) : r.Rooted := by
  intro c hc
  obtain ⟨n, hn⟩ := h.descends c hc
  exact ⟨n, hn.height_lt h.sound.coherent, hn.ancestor h.sound.coherent⟩

theorem Lineal.parent {d : Design} {r : Registry} (h : r.Lineal d) {g : Clock} (hg : g ∈ r.clocks)
    {p : String} (hp : g.origin = .generated p) : ∃ c ∈ r.clocks, c.name = p := by
  obtain ⟨n, hn⟩ := h.descends g hg
  cases hn with
  | root hc horigin =>
    rw [hp] at horigin
    cases horigin
  | child hc horigin hp' =>
    rw [hp, Origin.generated.injEq] at horigin
    exact ⟨_, hp'.mem, horigin.symm⟩

structure Replaces (r r' : Registry) (c : Clock) : Prop where
  mem : c ∈ r'.clocks
  kept : ∀ b ∈ r.clocks, b.name ≠ c.name → b ∈ r'.clocks
  old : ∀ b ∈ r'.clocks, b = c ∨ b ∈ r.clocks ∧ b.name ≠ c.name

theorem Transfer.Completes.replaces {r : Registry} {c : Clock} {t : Transfer} {w : WireKey}
    (h : t.Completes r c) (hwires : c.wires = [w]) (hne : ∀ b ∈ r.clocks, b.wires ≠ [])
    (hon : ∀ b ∈ r.clocks, w ∈ b.wires → b.name = c.name) : r.Replaces t.registry c := by
  have hkept : ∀ b ∈ r.clocks, b.name ≠ c.name → b.after c.name c.wires = b := by
    intro b hb hname
    rw [hwires, ← List.nil_append [w],
      Clock.after_append_of_notMem (Or.inr fun hw => hname (hon b hb hw)), Clock.after_nil]
  refine ⟨h.mem_new (by simp [hwires]), fun b hb hname => ?_, fun x hx => ?_⟩
  · exact h.mem_clocks.mpr ⟨Or.inr ⟨b, hb, hname, hkept b hb hname⟩, hne b hb⟩
  · obtain ⟨rfl | ⟨b, hb, hname, rfl⟩, -⟩ := h.mem_clocks.mp hx
    · exact Or.inl rfl
    · rw [hkept b hb hname]
      exact Or.inr ⟨hb, hname⟩

section
variable {d : Design} {r r' : Registry} {c s : Clock}

theorem Replaces.retains (h : r.Replaces r' c)
    (hsame : ∀ b ∈ r.clocks, b.name = c.name → b.wires = c.wires) : r.Retains r' := by
  intro b hb
  by_cases hname : b.name = c.name
  · exact ⟨c, h.mem, hname.symm, (hsame b hb hname).symm⟩
  · exact ⟨b, h.kept b hb hname, rfl, rfl⟩

/-- A clock may take the place of another if its parent does not descend from that one. -/
theorem Replaces.lineal (h : r.Replaces r' c) (hr : r.Lineal d) (hsound : r'.Sound d)
    (hsame : ∀ b ∈ r.clocks, b.name = c.name → b.wires = c.wires) (hfirst : r.FirstNamed d c)
    (hs : s ∈ r.clocks) (horigin : c.origin = .generated s.name)
    (hleads : ∀ b ∈ r.clocks, b.name = c.name → r.leadsTo c.name s.name = false) :
    r'.Lineal d := by
  have hcoherent := hr.sound.coherent
  -- the line of the parent does not pass through the clock that goes
  have hparent : ∃ n, r'.Descends n s := by
    obtain ⟨n, hn⟩ := hr.descends s hs
    refine ⟨n, ?_⟩
    by_cases hgone : ∃ b ∈ r.clocks, b.name = c.name
    · obtain ⟨b, hb, hname⟩ := hgone
      exact hn.of_avoids hcoherent h.kept (Nat.lt_succ_of_lt (hn.height_lt hcoherent))
        (hleads b hb hname)
    · exact hn.mono fun b hb => h.kept b hb fun hname => hgone ⟨b, hb, hname⟩
  have hc : ∃ n, r'.Descends n c := by
    obtain ⟨n, hn⟩ := hparent
    exact ⟨n + 1, .child h.mem horigin hn⟩
  refine ⟨hsound, fun g hg hgen => ?_, fun x hx => ?_⟩
  · obtain rfl | ⟨hg, -⟩ := h.old g hg
    · exact hfirst.mono (h.retains hsame)
    · exact (hr.named g hg hgen).mono (h.retains hsame)
  · obtain rfl | ⟨hx, hname⟩ := h.old x hx
    · exact hc
    · obtain ⟨n, hn⟩ := hr.descends x hx
      obtain ⟨m, hm⟩ := hn.of_replaced hc h.kept
      rw [if_neg hname] at hm
      exact ⟨m, hm⟩

end

end Registry

namespace Walk
open Registry
variable {d : Design} {dep : Departure} {k k' : Walk} {target : WireKey}

theorem stale_name (h : k.registry.Lineal d) {path : String} (hpath : d.path? target = some path)
    (hstale : ∀ c, k.registry.carrier? target = some c → k.registry.settles dep c = false)
    {b : Clock} (hb : b ∈ k.registry.clocks) (hw : target ∈ b.wires) :
    b.isGenerated ∧ b.name = k.registry.freeName path target ∧
      k.registry.leadsTo b.name dep.source = false := by
  have hsettles := hstale b (h.sound.coherent.carrier?_eq_some_iff.mpr ⟨hb, hw⟩)
  unfold settles at hsettles
  split at hsettles
  · cases hsettles
  · rename_i parent horigin
    have hgen : b.isGenerated := by simp [Clock.isGenerated, horigin]
    exact ⟨hgen, ((h.named b hb hgen).freeName_eq h.sound.coherent hb hw hpath).symm,
      (Bool.or_eq_false_iff.mp hsettles).2⟩

theorem Answer.lineal {s : Clock} (h : k.registry.Lineal d) (hs : s ∈ k.registry.clocks)
    (hsource : s.name = dep.source) (ha : Answer d dep k target k') :
    k'.registry.Lineal d ∧ k.registry.Retains k'.registry := by
  cases ha with
  | assigned => exact ⟨h, .refl _⟩
  | settled => exact ⟨h, .refl _⟩
  | foreign => exact ⟨h, .refl _⟩
  | derived path t log hnew hstale hpath hadd ht hsound hlog =>
    generalize hc : dep.clock (k.registry.freeName path target) target = c at ht
    have hcname : c.name = k.registry.freeName path target := hc ▸ rfl
    have hcwires : c.wires = [target] := hc ▸ rfl
    have hcorigin : c.origin = .generated s.name := by rw [← hc, hsource]; rfl
    have hon : ∀ b ∈ k.registry.clocks, target ∈ b.wires → b.name = c.name := fun b hb hw =>
      (stale_name h hpath hstale hb hw).2.1.trans hcname.symm
    have hsame : ∀ b ∈ k.registry.clocks, b.name = c.name → b.wires = c.wires := fun b hb hname => by
      rw [hcwires, wires_of_freeName h.sound.coherent hb (hname.trans hcname)]
    have hleads : ∀ b ∈ k.registry.clocks, b.name = c.name →
        k.registry.leadsTo c.name s.name = false := fun b hb hname => by
      have hw : target ∈ b.wires := by
        rw [hsame b hb hname, hcwires]
        exact List.mem_singleton_self target
      rw [← hname, hsource]
      exact (stale_name h hpath hstale hb hw).2.2
    have hfirst : k.registry.FirstNamed d c := by
      obtain ⟨n, hn, hrefused, -⟩ := freeName_first k.registry path target
      exact ⟨target, path, n, hcwires, hpath, hcname.trans hn,
        fun m hm => (mayName_eq_false_iff h.sound.coherent).mp (hrefused m hm)⟩
    have hreplaces := ht.replaces hcwires h.sound.wires_ne hon
    exact ⟨hreplaces.lineal h hsound hsame hfirst hs hcorigin hleads, hreplaces.retains hsame⟩

theorem declares_cases (d : Design) (dep : Departure) (k : Walk) (w : WireKey) :
    declares d dep k w = [] ∨ ∃ spec, declares d dep k w = [spec] := by
  unfold declares
  split
  · exact Or.inl rfl
  · cases d.path? w with
    | none => exact Or.inl rfl
    | some path => exact Or.inr ⟨_, rfl⟩

end Walk

namespace Registry

/-- After the declarations `done`, which led from `r₀` to `r`, the registry is lineal, and it holds
every clock that it held on the way. -/
structure Conserves (d : Design) (r₀ r : Registry) (done : List ClockDeclaration) : Prop where
  lineal : r.Lineal d
  leads : r₀.Leads d done r
  retains : ∀ specs q, specs <+: done → r₀.Leads d specs q → q.Retains r

theorem Conserves.start {d : Design} {r : Registry} (h : r.Lineal d) : Conserves d r r [] where
  lineal := h
  leads := rfl
  retains specs q hprefix hq := by
    obtain rfl := List.prefix_nil.mp hprefix
    obtain rfl : r = q := Except.ok.inj hq
    exact .refl r

theorem Conserves.extend {d : Design} {r₀ r r' : Registry} {done new : List ClockDeclaration}
    (h : Conserves d r₀ r done) (hlineal : r'.Lineal d) (hretains : r.Retains r')
    (hleads : r.Leads d new r') (hnew : new = [] ∨ ∃ spec, new = [spec]) :
    Conserves d r₀ r' (done ++ new) where
  lineal := hlineal
  leads := h.leads.append hleads
  retains specs q hprefix hq := by
    have hstart : specs <+: done → q.Retains r' := fun hold =>
      (h.retains specs q hold hq).trans hretains
    obtain rfl | ⟨spec, rfl⟩ := hnew
    · exact hstart (by simpa using hprefix)
    · obtain rfl | hold := List.prefix_concat_iff.mp hprefix
      · obtain rfl : r' = q := Except.ok.inj ((h.leads.append hleads).symm.trans hq)
        exact .refl r'
      · exact hstart hold

end Registry

namespace Walk
open Registry
variable {d : Design} {r₀ : Registry} {done : List ClockDeclaration} {k : Walk}

theorem visitWire_conserves {rules : RuleSet} (h : Conserves d r₀ k.registry done) (w : WireKey) :
    Conserves d r₀ (visitWire rules d d.fanout k w).registry (done ++ wireDeclares rules d k w) := by
  refine (visitWire_declares (I := fun k' done => Conserves d r₀ k'.registry done ∧
    k.registry.Retains k'.registry) (fun source hsource => ⟨fun _ _ _ _ hk => hk,
      fun k' done o r ho hk => ?_⟩) ⟨h, .refl _⟩).1
  obtain ⟨hconserves, hretains⟩ := hk
  have hlineal := hconserves.lineal
  -- the source may have been derived anew during the visit, but it is there under its name
  obtain ⟨s, hs, hname, -⟩ :=
    hretains source (h.lineal.sound.coherent.carrier?_eq_some_iff.mp hsource).1
  have hdep : s.name = (o.departure r).source := by
    rw [hname, ← (mem_fromWire ho).1]
    rfl
  obtain ⟨hlineal', hretains'⟩ := (offer_answer hlineal.sound ho r).lineal hlineal hs hdep
  exact ⟨hconserves.extend hlineal' hretains' (offer_leads hlineal.sound ho r)
    (declares_cases d _ k' o.target), hretains.trans hretains'⟩

end Walk

namespace Registry

def propagateAll (d : Design) (r : Registry) (es : List Engine) : Registry :=
  es.foldl (fun r e => (Operation.propagate e).apply d r) r

def propagations (d : Design) (r : Registry) (es : List Engine) : List ClockDeclaration :=
  emissions (fun r e => (Operation.propagate e).apply d r) (fun r (e : Engine) => e.declares d r)
    r es

theorem propagateAll_conserves {d : Design} {r : Registry} (h : r.Lineal d) (es : List Engine) :
    Conserves d r (propagateAll d r es) (propagations d r es) :=
  foldl_emissions (I := Conserves d r)
    (fun _ _ _ _ hk => Engine.apply_declares
      (fun _ _ _ _ w hk => Walk.visitWire_conserves hk w) hk) (.start h)

theorem history_ancestry (d : Design) (ops : List Operation) (es : List Engine)
    (hexplicit : ∀ c ∈ (history d ops).clocks, c.isGenerated = false) :
    (∀ g ∈ (propagateAll d (history d ops) es).clocks, ∀ p, g.origin = .generated p →
        ∃ c ∈ (propagateAll d (history d ops) es).clocks, c.name = p) ∧
      (propagateAll d (history d ops) es).Rooted ∧
      (history d ops).Leads d (propagations d (history d ops) es)
        (propagateAll d (history d ops) es) ∧
      ∀ specs q, specs <+: propagations d (history d ops) es → (history d ops).Leads d specs q →
        q.Retains (propagateAll d (history d ops) es) := by
  have hconserves := propagateAll_conserves (.of_explicit (sound_history d ops) hexplicit) es
  exact ⟨fun _ hg _ hp => hconserves.lineal.parent hg hp, hconserves.lineal.rooted,
    hconserves.leads, hconserves.retains⟩

end Registry

def Design.circle : Design :=
  .single [⟨"n0", 1, none⟩, ⟨"n1", 1, none⟩, ⟨"n2", 1, none⟩] [
    { name := "u0", kind := "BUFG", connections := [⟨"I", .input, 0⟩, ⟨"O", .output, 1⟩] },
    { name := "u1", kind := "INV", connections := [⟨"I", .input, 1⟩, ⟨"O", .output, 2⟩] },
    { name := "u2", kind := "INV", connections := [⟨"I", .input, 2⟩, ⟨"O", .output, 1⟩] }]

namespace Registry

def atCircle : List Operation := [.declare (.explicit "clk" [⟨0, 0⟩] 10 none)]

theorem history_ancestry_circle :
    (∀ c ∈ (history .circle atCircle).clocks, c.isGenerated = false) ∧
      (propagateAll .circle (history .circle atCircle) [.builtin, .builtin]).clocks.map (·.name) =
        ["clk", "n1", "n2"] ∧
      (propagateAll .circle (history .circle atCircle) [.builtin, .builtin]).Rooted := by
  have hexplicit : ∀ c ∈ (history .circle atCircle).clocks, c.isGenerated = false := by
    decide +kernel
  obtain ⟨-, hrooted, -, -⟩ := history_ancestry .circle atCircle [.builtin, .builtin] hexplicit
  exact ⟨hexplicit, by decide +kernel, hrooted⟩

end Registry
end ClockTree
