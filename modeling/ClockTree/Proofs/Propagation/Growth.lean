import ClockTree.Proofs.Propagation.Walk

/-!
# Growing registries

While no wire changes hands a walk only appends clocks. Each of them is alone on a wire that carried
none, and this wire is put at the end of the queue. What is looked up in the smaller registry is
found in the larger one, so a wire that once was settled stays settled.
-/
namespace ClockTree

/-- No diagnostic reports that a wire got another clock. -/
def Calm (log : List Diagnostic) : Prop := ∀ n ∈ log, n.code ≠ Notice.wireMoved

theorem calm_append {l m : List Diagnostic} : Calm (l ++ m) ↔ Calm l ∧ Calm m :=
  List.forall_mem_append

namespace Registry

theorem Transfer.Completes.clocks_append {r : Registry} {c : Clock} {t : Transfer}
    (ht : t.Completes r c) (hwires : ∀ b ∈ r.clocks, b.wires ≠ []) (hne : c.wires ≠ [])
    (hname : ∀ b ∈ r.clocks, b.name ≠ c.name)
    (hfree : ∀ b ∈ r.clocks, ∀ w ∈ c.wires, w ∉ b.wires) : t.registry.clocks = r.clocks ++ [c] := by
  have hcede : r.clocks.map c.cede = r.clocks := by
    refine (List.map_congr_left fun b hb => ?_).trans (List.map_id' r.clocks)
    exact Clock.cede_of_disjoint (hname b hb) fun w hw hwc => hfree b hb w hwc hw
  have hany : r.clocks.any (·.name == c.name) = false := by
    simpa [List.any_eq_false] using hname
  have hseated : seated c r.clocks = r.clocks ++ [c] := by simp [seated, hcede, hany]
  rw [ht.clocks, hseated, List.filter_eq_self]
  intro b hb
  obtain hb | hb := List.mem_append.mp hb
  · simpa using hwires b hb
  · rw [List.mem_singleton.mp hb]
    simpa using hne

section
variable {d : Design} {r r' : Registry}

theorem named?_mono (h : r.Sound d) (h' : r'.Sound d) (hsub : r.clocks ⊆ r'.clocks) {name : String}
    {c : Clock} (hc : r.named? name = some c) : r'.named? name = some c := by
  obtain ⟨hmem, hname⟩ := h.coherent.named?_eq_some_iff.mp hc
  exact h'.coherent.named?_eq_some_iff.mpr ⟨hsub hmem, hname⟩

theorem carrier?_mono (h : r.Sound d) (h' : r'.Sound d) (hsub : r.clocks ⊆ r'.clocks) {w : WireKey}
    {c : Clock} (hc : r.carrier? w = some c) : r'.carrier? w = some c := by
  obtain ⟨hmem, hw⟩ := h.coherent.carrier?_eq_some_iff.mp hc
  exact h'.coherent.carrier?_eq_some_iff.mpr ⟨hsub hmem, hw⟩

theorem reaches_mono (h : r.Sound d) (h' : r'.Sound d) (hsub : r.clocks ⊆ r'.clocks)
    {ancestor : String} {m n : Nat} (hmn : m ≤ n) {current : Option String}
    (hr : r.reaches ancestor m current) : r'.reaches ancestor n current := by
  induction m generalizing n current with
  | zero => simp [reaches] at hr
  | succ m ih =>
    obtain ⟨n, rfl⟩ : ∃ k, n = k + 1 := ⟨n - 1, by omega⟩
    cases current with
    | none => simp [reaches] at hr
    | some name =>
      simp only [reaches, Bool.or_eq_true] at hr ⊢
      refine hr.imp_right fun hr => ?_
      cases hc : r.named? name with
      | none =>
        rw [hc] at hr
        cases m <;> simp [reaches] at hr
      | some c =>
        rw [named?_mono h h' hsub hc]
        rw [hc] at hr
        exact ih (by omega) hr

theorem leadsTo_mono (h : r.Sound d) (h' : r'.Sound d) (hext : r.clocks <+: r'.clocks)
    {ancestor clock : String} (hr : r.leadsTo ancestor clock) : r'.leadsTo ancestor clock :=
  reaches_mono h h' hext.subset (Nat.add_le_add_right hext.length_le 1) hr

theorem arriving_mono (h : r.Sound d) (h' : r'.Sound d) (hsub : r.clocks ⊆ r'.clocks)
    {module : Nat} {rule : Rule} {cell : Cell} :
    Walk.arriving r module rule cell ⊆ Walk.arriving r' module rule cell := by
  intro name hname
  obtain ⟨connection, hconnection, hname⟩ := List.mem_filterMap.mp hname
  obtain ⟨c, hc, rfl⟩ := Option.map_eq_some_iff.mp hname
  refine List.mem_filterMap.mpr ⟨connection, hconnection, ?_⟩
  rw [carrier?_mono h h' hsub hc, Option.map_some]

def Settled (r : Registry) (o : Offer) : Prop :=
  ∃ c, r.carrier? o.target = some c ∧ r.settles (o.departure r) c

theorem settled_mono {r₀ : Registry} {o : Offer} {c : Clock} (h₀ : r₀.Sound d) (h : r.Sound d)
    (h' : r'.Sound d) (hsub₀ : r₀.clocks ⊆ r'.clocks) (hext : r.clocks <+: r'.clocks)
    (hc : r.carrier? o.target = some c) (hs : r.settles (o.departure r₀) c) : r'.Settled o := by
  refine ⟨c, carrier?_mono h h' hext.subset hc, ?_⟩
  unfold settles at hs ⊢
  split at hs
  · rfl
  · simp only [Bool.or_eq_true] at hs ⊢
    refine hs.imp (fun harriving => ?_) fun hleads => leadsTo_mono h h' hext hleads
    rw [List.contains_iff_mem] at harriving ⊢
    exact arriving_mono h₀ h' hsub₀ harriving

end
end Registry
namespace Walk
variable {d : Design} {k k' : Walk}

def Grows (k k' : Walk) : Prop :=
  ∃ news : List Clock, k'.registry.clocks = k.registry.clocks ++ news ∧
    k'.queue = k.queue ++ news.flatMap (·.wires)

theorem Grows.refl (k : Walk) : k.Grows k := ⟨[], by simp, by simp⟩

theorem Grows.trans {k'' : Walk} (h : k.Grows k') (h' : k'.Grows k'') : k.Grows k'' := by
  obtain ⟨news, hclocks, hqueue⟩ := h
  obtain ⟨news', hclocks', hqueue'⟩ := h'
  exact ⟨news ++ news', by rw [hclocks', hclocks, List.append_assoc],
    by rw [hqueue', hqueue, List.flatMap_append, List.append_assoc]⟩

theorem Grows.keeps (h : k.Grows k') : k.registry.clocks <+: k'.registry.clocks := by
  obtain ⟨news, hclocks, -⟩ := h
  exact ⟨news, hclocks.symm⟩

theorem Answer.grows {dep : Departure} {target : WireKey} (h : k.registry.Sound d)
    (ha : Answer d dep k target k') (hcalm : Calm k'.log) : Calm k.log ∧ k.Grows k' := by
  cases ha with
  | assigned => exact ⟨hcalm, .refl k⟩
  | settled => exact ⟨hcalm, .refl k⟩
  | foreign => exact ⟨hcalm, .refl k⟩
  | derived path t log hnew hstale hpath hadd ht hsound hlog =>
    obtain ⟨hbefore, hlogcalm⟩ := calm_append.mp hcalm
    have hfree : k.registry.carrier? target = none := by
      rw [← Option.not_isSome_iff_eq_none]
      intro found
      obtain ⟨gone, rfl⟩ := hlog
      obtain ⟨n, hn, hcode⟩ : ∃ n ∈ dep.reports path _ (k.registry.carrier? target) gone,
        n.code = Notice.wireMoved := Departure.reports_moved_iff.mpr found
      exact hlogcalm n hn hcode
    have hunused : ∀ b ∈ k.registry.clocks, target ∉ b.wires :=
      h.coherent.carrier?_eq_none_iff.mp hfree
    refine ⟨hbefore, [_],
      ht.clocks_append h.wires_ne (List.cons_ne_nil target []) (fun b hb hname => ?_)
        (fun b hb w hw => ?_), by simp [Departure.clock]⟩
    · -- a clock with this name would be on this wire, which is free
      have hnamed := h.coherent.named?_eq_some_iff.mpr ⟨hb, hname⟩
      have hwires := Registry.named?_freeName h.coherent path target hnamed
      exact hunused b hb (hwires ▸ List.mem_singleton_self target)
    · rw [List.mem_singleton.mp hw]
      exact hunused b hb

theorem Later.grows {rules : RuleSet} {w : WireKey} {source : Clock}
    (hl : Later rules d w source k k') (h : k.registry.Sound d) (hcalm : Calm k'.log) :
    Calm k.log ∧ k.Grows k' := by
  induction hl with
  | refl => exact ⟨hcalm, .refl k⟩
  | report n hcode hl ih => exact ih (calm_append.mp hcalm).1
  | offer o r ho hl ih =>
    have hsound := hl.sound h
    obtain ⟨hbefore, hgrows⟩ := (offer_answer hsound ho r).grows hsound hcalm
    exact ⟨(ih hbefore).1, (ih hbefore).2.trans hgrows⟩

theorem visitWire_grows {rules : RuleSet} (h : k.registry.Sound d) (w : WireKey)
    (hcalm : Calm (visitWire rules d d.fanout k w).log) :
    Calm k.log ∧ k.Grows (visitWire rules d d.fanout k w) := by
  cases hsource : k.registry.carrier? w with
  | none =>
    rw [visitWire_of_free hsource] at hcalm ⊢
    exact ⟨hcalm, .refl k⟩
  | some source => exact (visitWire_later hsource).grows h hcalm

theorem run_keeps {rules : RuleSet} (n : Nat) (h : k.registry.Sound d)
    (hcalm : Calm (run rules d d.fanout n k).log) :
    Calm k.log ∧ k.registry.clocks <+: (run rules d d.fanout n k).registry.clocks := by
  refine (run_induction (P := fun k' => k'.registry.Sound d ∧
    (Calm k'.log → Calm k.log ∧ k.registry.clocks <+: k'.registry.clocks))
    (fun k' w queue hk' _ => ?_) n ⟨h, fun hcalm => ⟨hcalm, List.prefix_rfl⟩⟩).2 hcalm
  have hpop : ({ k' with queue } : Walk).registry.Sound d := hk'.1
  refine ⟨visitWire_sound hpop w, fun hcalm => ?_⟩
  obtain ⟨hbefore, hgrows⟩ := visitWire_grows hpop w hcalm
  exact ⟨(hk'.2 hbefore).1, (hk'.2 hbefore).2.trans hgrows.keeps⟩

end Walk
end ClockTree
