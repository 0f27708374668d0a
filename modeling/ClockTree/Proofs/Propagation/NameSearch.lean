import ClockTree.Proofs.Propagation.FreeName
import ClockTree.Proofs.Registry.Commutation
import Mathlib.Order.Bounds.Basic

/-!
# The search for the name of a derived clock

`Searches` is the search as it runs, without a bound, with the number of names that it tries. It ends
in every coherent registry and finds what the bounded search finds. The clock that is then registered
under the name takes the place of none but a clock on the same wire: seen without this wire, the list
of clocks is the same before and after.
-/
namespace ClockTree

def Clock.without? (w : WireKey) (b : Clock) : Option Clock :=
  let rest := b.wires.filter (· ≠ w)
  if rest = [] then none else some { b with wires := rest }

namespace Clock
variable {b c : Clock} {w : WireKey}

theorem without?_of_wires (h : b.wires = [w]) : b.without? w = none := by
  simp [without?, h]

theorem without?_bind (w : WireKey) (b : Clock) :
    (b.without? w).bind (·.without? w) = b.without? w := by
  by_cases hrest : b.wires.filter (· ≠ w) = []
  · simp only [without?, if_pos hrest, Option.bind_none]
  · simp only [without?, if_neg hrest, Option.bind_some, List.filter_filter, Bool.and_self]

theorem leaves?_of_single (hname : b.name ≠ c.name) (hwires : c.wires = [w]) :
    c.leaves? b = b.without? w := by
  simp only [leaves?_of_rest hname, without?, hwires, List.mem_singleton, ne_eq]

end Clock

namespace Registry

def Free (r : Registry) (w : WireKey) (name : String) : Prop :=
  (∀ c ∈ r.clocks, c.name ≠ name) ∨ ∃ c ∈ r.clocks, c.name = name ∧ c.wires = [w]

inductive Searches (r : Registry) (base : String) (w : WireKey) : Nat → Nat → String → Prop
  | given {n : Nat} (h : r.mayName w (candidate base n)) : Searches r base w n 1 (candidate base n)
  | refused {n tries : Nat} {name : String} (h : r.mayName w (candidate base n) = false)
    (hnext : Searches r base w (n + 1) tries name) : Searches r base w n (tries + 1) name

/-- The clocks that are on other wires than `w`, without `w`. -/
def besides (r : Registry) (w : WireKey) : List Clock := r.clocks.filterMap (·.without? w)

section
variable {r r' : Registry} {w : WireKey} {base name : String} {n : Nat}

theorem Coherent.mayName_iff (h : r.Coherent) : r.mayName w name ↔ r.Free w name := by
  rw [← Bool.not_eq_false, mayName_eq_false_iff h]
  constructor
  · intro hname
    by_cases hused : ∃ c ∈ r.clocks, c.name = name
    · obtain ⟨c, hc, hcname⟩ := hused
      refine Or.inr ⟨c, hc, hcname, ?_⟩
      by_contra hwires
      exact hname ⟨c, hc, hcname, hwires⟩
    · exact Or.inl fun c hc hcname => hused ⟨c, hc, hcname⟩
  · intro hfree hrefused
    obtain ⟨b, hb, hbname, hwires⟩ := hrefused
    obtain hunused | ⟨c, hc, hcname, hon⟩ := hfree
    · exact hunused b hb hbname
    · obtain rfl := h.eq_of_name hb hc (hbname.trans hcname.symm)
      exact hwires hon

theorem Searches.unique {tries tries' : Nat} {name' : String}
    (h : r.Searches base w n tries name) (h' : r.Searches base w n tries' name') :
    tries = tries' ∧ name = name' := by
  induction h generalizing tries' with
  | given hgiven =>
    cases h' with
    | given => exact ⟨rfl, rfl⟩
    | refused hrefused =>
      rw [hgiven] at hrefused
      cases hrefused
  | refused hrefused hnext ih =>
    cases h' with
    | given hgiven =>
      rw [hgiven] at hrefused
      cases hrefused
    | refused _ hnext' =>
      obtain ⟨rfl, rfl⟩ := ih hnext'
      exact ⟨rfl, rfl⟩

theorem searches_of_refused {m k : Nat} (hmk : n + k = m)
    (hgiven : r.mayName w (candidate base m))
    (hrefused : ∀ i, n ≤ i → i < m → r.mayName w (candidate base i) = false) :
    r.Searches base w n (k + 1) (candidate base m) := by
  induction k generalizing n with
  | zero =>
    obtain rfl : n = m := hmk
    exact .given hgiven
  | succ k ih =>
    refine .refused (hrefused n (Nat.le_refl n) (by omega)) ?_
    exact ih (by omega) fun i hi => hrefused i (Nat.le_of_succ_le hi)

theorem Coherent.exists_search (h : r.Coherent) (base : String) (w : WireKey) :
    ∃ n ≤ r.clocks.length, r.freeName base w = candidate base n ∧
      IsLeast {m | r.Free w (candidate base m)} n ∧
      r.Searches base w 0 (n + 1) (candidate base n) := by
  obtain ⟨n, hn, hrefused, -⟩ := freeName_first r base w
  have hgiven := mayName_freeName h base w
  rw [hn] at hgiven
  refine ⟨n, le_length_of_refused h hrefused, hn, ⟨h.mayName_iff.mp hgiven, fun m hm => ?_⟩, ?_⟩
  · by_contra hlt
    have hfree := h.mayName_iff.mpr hm
    rw [hrefused m (Nat.not_le.mp hlt)] at hfree
    cases hfree
  · exact searches_of_refused (Nat.zero_add n) hgiven fun i _ hi => hrefused i hi

theorem Lists.besides_eq {d : Design} {c : Clock} {news : List Diagnostic}
    (h : Lists d c r r' news) (hwires : c.wires = [w])
    (hname : ∀ b ∈ r.clocks, b.name = c.name → b.wires = [w]) : r'.besides w = r.besides w := by
  have hnew : (if r.clocks.any (·.name == c.name) then [] else [c]).filterMap (·.without? w) =
      [] := by
    split <;> simp [Clock.without?_of_wires hwires]
  have hold : ∀ b ∈ r.clocks, (c.leaves? b).bind (·.without? w) = b.without? w := by
    intro b hb
    by_cases hsame : b.name = c.name
    -- the clock that is replaced is on the wire alone, as is the one that replaces it
    · rw [Clock.leaves?_of_name hsame, Option.bind_some, Clock.without?_of_wires hwires,
        Clock.without?_of_wires (hname b hb hsame)]
    · rw [Clock.leaves?_of_single hsame hwires, Clock.without?_bind]
  rw [besides, h.clocks, listing, List.filterMap_append, hnew, List.append_nil,
    List.filterMap_filterMap]
  exact List.filterMap_congr hold

end

/-- The search for the name of a derived clock tries at most one name more than there are clocks and
finds the first one that is free. Under this name a clock can be declared on the wire, if nothing
else is wrong with the declaration, and every clock on other wires stays as it is on these. The
declarations that a pass has made so far are a history too, so this holds of every search in it. -/
theorem history_freeName (d : Design) (ops : List Operation) (base : String) (w : WireKey) :
    let r := history d ops
    ∃ n ≤ r.clocks.length,
      (∀ tries name, r.Searches base w 0 tries name ↔
        tries = n + 1 ∧ name = r.freeName base w) ∧
      r.freeName base w = candidate base n ∧ IsLeast {m | r.Free w (candidate base m)} n ∧
      ∀ spec : ClockDeclaration, spec.name = r.freeName base w → spec.clock.wires = [w] →
        (spec.Faulty d ∧ ∃ fault, r.add d spec = .error fault) ∨
        ∃ r' news, r.add d spec = .ok (spec.clock, r', news) ∧
          r'.carrier? w = some spec.clock ∧ r'.besides w = r.besides w := by
  have hsound := sound_history d ops
  dsimp only
  generalize history d ops = r at hsound
  obtain ⟨n, hle, hn, hleast, hsearch⟩ := hsound.coherent.exists_search base w
  refine ⟨n, hle, fun tries name => ⟨fun h => ?_, ?_⟩, hn, hleast, fun spec hname hwires => ?_⟩
  · rw [hn]
    exact h.unique hsearch
  · intro found
    obtain ⟨rfl, rfl⟩ := found
    rwa [hn]
  · obtain hfaulty | ⟨-, r', news, hadd, hr', -, hlists⟩ :=
      hsound.coherent.add_lists hsound.wires_ne d spec
    · exact Or.inl hfaulty
    · refine Or.inr ⟨r', news, hadd, ?_, hlists.besides_eq hwires fun b hb hsame => ?_⟩
      · exact hr'.carrier?_eq_some_iff.mpr ⟨hlists.mem_new, by simp [hwires]⟩
      · exact wires_of_freeName hsound.coherent hb (hsame.trans hname)

def occupiedNames : List Operation := [
  .declare (.explicit "clk" [⟨0, 2⟩] 8 none),
  .declare (.explicit "clk_1" [⟨0, 0⟩, ⟨0, 1⟩] 4 none)]

theorem history_freeName_occupied :
    let r := history (.bundle 3) occupiedNames
    let w : WireKey := ⟨0, 0⟩
    let spec : ClockDeclaration := .generated "clk_2" [w] (.symmetric 8) "clk"
    r.clocks.length = 2 ∧ r.Searches "clk" w 0 3 "clk_2" ∧ spec.name = r.freeName "clk" w ∧
      spec.clock.wires = [w] ∧
      ∃ r' news, r.add (.bundle 3) spec = .ok (spec.clock, r', news) ∧
        r'.carrier? w = some spec.clock ∧ r'.besides w = r.besides w ∧
        (r.besides w).map (fun c => (c.name, c.wires)) =
          [("clk", [⟨0, 2⟩]), ("clk_1", [⟨0, 1⟩])] := by
  intro r w spec
  have hname : spec.name = r.freeName "clk" w := by decide +kernel
  have hclear : ¬ spec.Faulty (.bundle 3) :=
    ClockDeclaration.not_faulty_iff.mpr (by decide +kernel)
  obtain ⟨n, -, hsearch, hn, -, hadd⟩ := history_freeName (.bundle 3) occupiedNames "clk" w
  obtain rfl : 2 = n := by
    refine candidate_injective "clk" ?_
    rw [← hn, ← hname]
    decide
  have hfound := (hsearch 3 "clk_2").mpr ⟨rfl, hname⟩
  obtain ⟨hfaulty, -⟩ | ⟨r', news, hok, hcarrier, hbesides⟩ := hadd spec hname rfl
  · exact absurd hfaulty hclear
  · exact ⟨by decide +kernel, hfound, hname, rfl, r', news, hok, hcarrier, hbesides,
      by decide +kernel⟩

end Registry
end ClockTree
