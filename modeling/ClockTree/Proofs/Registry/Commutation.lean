import ClockTree.Proofs.Netlist.Built
import ClockTree.Proofs.Propagation.Declarations
import ClockTree.Proofs.Registry.Listing

/-!
# Declarations that do not interfere

A registration is known by what it does to a look-up by name: the name of the new clock finds it, and
any other name finds what the new clock leaves of the clock that it found before. Two registrations of
different names on different wires leave the same of every clock in either order, so they lead to the
same look-ups. The list may have another order, as a clock may be replaced where it stands in the one
order and be removed and appended again in the other.
-/
namespace ClockTree

namespace Clock
variable {a b x : Clock}

theorem leaves?_bind (ha : x.name ≠ a.name) (hb : x.name ≠ b.name) :
    (a.leaves? x).bind b.leaves? =
      if x.wires.filter (fun w => w ∉ a.wires ∧ w ∉ b.wires) = [] then none
      else some { x with wires := x.wires.filter fun w => w ∉ a.wires ∧ w ∉ b.wires } := by
  have hboth : (x.wires.filter (· ∉ a.wires)).filter (· ∉ b.wires) =
      x.wires.filter fun w => w ∉ a.wires ∧ w ∉ b.wires := by
    rw [List.filter_filter]
    refine List.filter_congr fun w _ => ?_
    rw [Bool.decide_and, Bool.and_comm]
  rw [leaves?_of_rest ha, ← hboth]
  split <;> rename_i hrest
  · rw [hrest]
    rfl
  · have hname : ({ x with wires := x.wires.filter (· ∉ a.wires) } : Clock).name ≠ b.name := hb
    rw [Option.bind_some, leaves?_of_rest hname]

theorem leaves?_comm (ha : x.name ≠ a.name) (hb : x.name ≠ b.name) :
    (a.leaves? x).bind b.leaves? = (b.leaves? x).bind a.leaves? := by
  rw [leaves?_bind ha hb, leaves?_bind hb ha]
  simp only [and_comm]

end Clock

namespace Registry
variable {d : Design} {r r' : Registry}

theorem Lists.named?_eq {c : Clock} {news : List Diagnostic} (h : Lists d c r r' news)
    (hr : r.Coherent) (hr' : r'.Coherent) (name : String) :
    r'.named? name = if name = c.name then some c else (r.named? name).bind c.leaves? := by
  split
  · rename_i hname
    rw [hr'.named?_eq_some_iff]
    exact ⟨h.mem_new, hname.symm⟩
  · rename_i hname
    refine Option.ext fun x => ?_
    rw [hr'.named?_eq_some_iff, h.clocks, mem_listing, Option.bind_eq_some_iff]
    constructor
    · rintro ⟨rfl | ⟨b, hb, -, hx⟩, rfl⟩
      · exact absurd rfl hname
      · exact ⟨b, hr.named?_eq_some_iff.mpr ⟨hb, (Clock.leaves?_name hx).symm⟩, hx⟩
    · rintro ⟨b, hb, hx⟩
      obtain ⟨hmem, rfl⟩ := hr.named?_eq_some_iff.mp hb
      exact ⟨Or.inr ⟨b, hmem, hname, hx⟩, Clock.leaves?_name hx⟩

theorem Coherent.mem_clocks_congr (h : r.Coherent) (h' : r'.Coherent)
    (hsame : ∀ name, r.named? name = r'.named? name) (c : Clock) :
    c ∈ r.clocks ↔ c ∈ r'.clocks := by
  have hfound : r.named? c.name = some c ↔ c ∈ r.clocks ∧ c.name = c.name :=
    h.named?_eq_some_iff
  rw [hsame, h'.named?_eq_some_iff] at hfound
  simpa using hfound.symm

theorem Coherent.carrier?_congr (h : r.Coherent) (h' : r'.Coherent)
    (hsame : ∀ name, r.named? name = r'.named? name) (w : WireKey) :
    r.carrier? w = r'.carrier? w :=
  Option.ext fun c => by
    rw [h.carrier?_eq_some_iff, h'.carrier?_eq_some_iff, h.mem_clocks_congr h' hsame]

theorem Coherent.clocks_perm (h : r.Coherent) (h' : r'.Coherent)
    (hsame : ∀ name, r.named? name = r'.named? name) : r.clocks.Perm r'.clocks :=
  (List.perm_ext_iff_of_nodup h.names_nodup.of_map h'.names_nodup.of_map).mpr
    (h.mem_clocks_congr h' hsame)

structure Joins (d : Design) (a b : ClockDeclaration) (r r' : Registry) : Prop where
  leads : r.Leads d [a, b] r'
  coherent : r'.Coherent
  first : r'.named? a.name = some a.clock
  second : r'.named? b.name = some b.clock
  others : ∀ name, name ≠ a.name → name ≠ b.name →
    r'.named? name = ((r.named? name).bind a.clock.leaves?).bind b.clock.leaves?

theorem Coherent.joins (h : r.Coherent) (hne : ∀ b ∈ r.clocks, b.wires ≠ [])
    {a b : ClockDeclaration} (ha : ¬ a.Faulty d) (hb : ¬ b.Faulty d) (hname : a.name ≠ b.name)
    (hwires : List.Disjoint a.wires b.wires) : ∃ r', Joins d a b r r' := by
  obtain ⟨hfaulty, -⟩ | ⟨-, r₁, news₁, hadd₁, hr₁, hne₁, hlists₁⟩ := h.add_lists hne d a
  · exact absurd hfaulty ha
  obtain ⟨hfaulty, -⟩ | ⟨-, r₂, news₂, hadd₂, hr₂, -, hlists₂⟩ := hr₁.add_lists hne₁ d b
  · exact absurd hfaulty hb
  have hstep : ∀ name, r₁.named? name = if name = a.name then some a.clock
      else (r.named? name).bind a.clock.leaves? := hlists₁.named?_eq h hr₁
  have hlast : ∀ name, r₂.named? name = if name = b.name then some b.clock
      else (r₁.named? name).bind b.clock.leaves? := hlists₂.named?_eq hr₁ hr₂
  have hapart : List.Disjoint a.clock.wires b.clock.wires := fun w hwa hwb =>
    hwires (List.mem_eraseDups.mp hwa) (List.mem_eraseDups.mp hwb)
  -- the second clock takes nothing from the first
  have hkept : b.clock.leaves? a.clock = some a.clock :=
    Clock.leaves?_of_disjoint hname hapart
      (clock_wires_ne (ClockDeclaration.not_faulty_iff.mp ha))
  refine ⟨r₂, (Leads.of_add hadd₁).append (.of_add hadd₂), hr₂, ?_, ?_, fun name hna hnb => ?_⟩
  · rw [hlast, if_neg hname, hstep, if_pos rfl]
    exact hkept
  · rw [hlast]
    exact if_pos rfl
  · rw [hlast, if_neg hnb, hstep, if_neg hna]

theorem Joins.named?_comm {a b : ClockDeclaration} {ab ba : Registry} (h : Joins d a b r ab)
    (h' : Joins d b a r ba) (hr : r.Coherent) (name : String) : ab.named? name = ba.named? name := by
  by_cases hna : name = a.name
  · rw [hna, h.first, h'.second]
  · by_cases hnb : name = b.name
    · rw [hnb, h.second, h'.first]
    · rw [h.others name hna hnb, h'.others name hnb hna]
      cases hx : r.named? name with
      | none => rfl
      | some x =>
        obtain ⟨-, rfl⟩ := hr.named?_eq_some_iff.mp hx
        exact Clock.leaves?_comm hna hnb

theorem history_add_comm (d₀ d : Design) (ops : List Operation) {a b : ClockDeclaration}
    (ha : ¬ a.Faulty d) (hb : ¬ b.Faulty d) (hname : a.name ≠ b.name)
    (hwires : List.Disjoint a.wires b.wires) :
    ∃ ab ba, (history d₀ ops).Leads d [a, b] ab ∧ (history d₀ ops).Leads d [b, a] ba ∧
      (∀ name, ab.named? name = ba.named? name) ∧ (∀ w, ab.carrier? w = ba.carrier? w) ∧
      ab.clocks.Perm ba.clocks := by
  have hsound := sound_history d₀ ops
  obtain ⟨ab, hab⟩ := hsound.coherent.joins hsound.wires_ne ha hb hname hwires
  obtain ⟨ba, hba⟩ := hsound.coherent.joins hsound.wires_ne hb ha hname.symm
    (fun _ hwb hwa => hwires hwa hwb)
  have hsame := hab.named?_comm hba hsound.coherent
  exact ⟨ab, ba, hab.leads, hba.leads, hsame, hab.coherent.carrier?_congr hba.coherent hsame,
    hab.coherent.clocks_perm hba.coherent hsame⟩

end Registry

def Design.bundle (n : Nat) : Design :=
  .single ((List.range n).map fun i => ⟨"n" ++ toString i, 1, none⟩) []

namespace Registry

def atBundle : List Operation :=
  [.declare (.explicit "third" [⟨0, 0⟩, ⟨0, 1⟩] 8 none),
    .declare (.explicit "b" [⟨0, 4⟩] 6 none),
    .declare (.explicit "a" [⟨0, 2⟩, ⟨0, 3⟩] 4 none)]

/-- The new `a` takes the only wire of the old `b`, the new `b` takes a wire of the old `a`, and each
takes one of the two wires of `third`. -/
theorem history_add_comm_bundle :
    let a : ClockDeclaration := .explicit "a" [⟨0, 0⟩, ⟨0, 4⟩, ⟨0, 0⟩] 10 none
    let b : ClockDeclaration := .explicit "b" [⟨0, 1⟩, ⟨0, 2⟩] 5 none
    ¬ a.Faulty (.bundle 5) ∧ ¬ b.Faulty (.bundle 5) ∧ a.name ≠ b.name ∧
      List.Disjoint a.wires b.wires ∧
      ∃ ab ba, (history (.bundle 5) atBundle).Leads (.bundle 5) [a, b] ab ∧
        (history (.bundle 5) atBundle).Leads (.bundle 5) [b, a] ba ∧
        ab.clocks.map (·.name) = ["a", "b"] ∧ ba.clocks.map (·.name) = ["b", "a"] ∧
        (∀ name, ab.named? name = ba.named? name) ∧ ∀ w, ab.carrier? w = ba.carrier? w := by
  intro a b
  have ha : ¬ a.Faulty (.bundle 5) := ClockDeclaration.not_faulty_iff.mpr (by decide +kernel)
  have hb : ¬ b.Faulty (.bundle 5) := ClockDeclaration.not_faulty_iff.mpr (by decide +kernel)
  have hname : a.name ≠ b.name := by decide
  have hwires : List.Disjoint a.wires b.wires := by
    intro w hwa hwb
    revert w
    decide
  have hordered : ∀ specs ∈ [[a, b], [b, a]], ∀ r, (history (.bundle 5) atBundle).Leads (.bundle 5)
      specs r → r.clocks.map (·.name) = specs.map (·.name) := by
    have hnames : ∀ specs ∈ [[a, b], [b, a]], ∀ r ∈ (specs.foldlM (register (.bundle 5))
        (history (.bundle 5) atBundle)).toOption, r.clocks.map (·.name) = specs.map (·.name) := by
      decide +kernel
    intro specs hspecs r hleads
    exact hnames specs hspecs r (by rw [show _ = _ from hleads]; rfl)
  obtain ⟨ab, ba, hab, hba, hnamed, hcarrier, -⟩ :=
    history_add_comm (.bundle 5) (.bundle 5) atBundle ha hb hname hwires
  exact ⟨ha, hb, hname, hwires, ab, ba, hab, hba, hordered [a, b] (by simp) ab hab,
    hordered [b, a] (by simp) ba hba, hnamed, hcarrier⟩

end Registry
end ClockTree
