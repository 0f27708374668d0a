import ClockTree.Propagation.Pass
import ClockTree.Proofs.Registry.Coherence

/-!
# The name of a derived clock

Of the names that are tried each registered clock refuses at most one, and one more is tried than
there are clocks, so the search for a name succeeds.
-/
namespace ClockTree.Registry

theorem candidate_injective (base : String) : Function.Injective (candidate base) := by
  intro m n h
  have hlists := congrArg String.toList h
  unfold candidate at hlists
  have hdigits : ∀ k : Nat, (base ++ "_" ++ toString k).toList =
      base.toList ++ '_' :: Nat.toDigits 10 k := by
    intro k
    simp [Nat.toString_eq_repr, Nat.toList_repr]
  by_cases hm : m = 0 <;> by_cases hn : n = 0 <;>
    simp only [hm, hn, if_true, if_false, hdigits] at hlists
  · rw [hm, hn]
  · simp at hlists
  · simp at hlists
  · have hsame := (List.cons.inj (List.append_cancel_left hlists)).2
    have hvalue := congrArg (fun digits => Nat.ofDigitChars 10 digits 0) hsame
    simpa only [Nat.ofDigitChars_ten_toDigits] using hvalue

variable {r : Registry} {w : WireKey} {base : String}

theorem mayName_eq_false_iff (h : r.Coherent) {name : String} :
    r.mayName w name = false ↔ ∃ c ∈ r.clocks, c.name = name ∧ c.wires ≠ [w] := by
  constructor
  · intro hname
    unfold mayName at hname
    split at hname
    · rename_i c hc
      obtain ⟨hmem, rfl⟩ := h.named?_eq_some_iff.mp hc
      exact ⟨c, hmem, rfl, by simpa using hname⟩
    · cases hname
  · intro found
    obtain ⟨c, hc, hname, hwires⟩ := found
    simpa [mayName, h.named?_eq_some_iff.mpr ⟨hc, hname⟩] using hwires

/-- The search refuses every name before the one that it ends with, and it ends with a name that may
be given or with the last one. -/
theorem freeNameFrom_first (fuel n : Nat) : ∃ k, r.freeNameFrom base w fuel n = candidate base k ∧
    (∀ m, n ≤ m → m < k → r.mayName w (candidate base m) = false) ∧
      (r.mayName w (candidate base k) ∨ k = n + fuel) := by
  induction fuel generalizing n with
  | zero => exact ⟨n, rfl, fun m hm hmn => by omega, Or.inr rfl⟩
  | succ fuel ih =>
    unfold freeNameFrom
    split
    · rename_i hn
      exact ⟨n, rfl, fun m hm hmn => by omega, Or.inl hn⟩
    · rename_i hn
      obtain ⟨k, hk, hrefused, hend⟩ := ih (n + 1)
      refine ⟨k, hk, fun m hm hmk => ?_, hend.imp_right fun hlast => by omega⟩
      rcases Nat.eq_or_lt_of_le hm with rfl | hlt
      · exact Bool.eq_false_iff.mpr hn
      · exact hrefused m hlt hmk

theorem freeName_first (r : Registry) (base : String) (w : WireKey) :
    ∃ n, r.freeName base w = candidate base n ∧
      (∀ m < n, r.mayName w (candidate base m) = false) ∧
      (r.mayName w (candidate base n) ∨ n = r.clocks.length) := by
  obtain ⟨n, hn, hrefused, hend⟩ : ∃ n, r.freeName base w = candidate base n ∧
      (∀ m, 0 ≤ m → m < n → r.mayName w (candidate base m) = false) ∧
      (r.mayName w (candidate base n) ∨ n = 0 + r.clocks.length) :=
    freeNameFrom_first r.clocks.length 0
  exact ⟨n, hn, fun m hm => hrefused m (Nat.zero_le m) hm, by simpa using hend⟩

theorem le_length_of_refused (h : r.Coherent) {n : Nat}
    (hrefused : ∀ m < n, r.mayName w (candidate base m) = false) : n ≤ r.clocks.length := by
  have hnodup : ((List.range n).map (candidate base)).Nodup :=
    List.nodup_range.map (candidate_injective base)
  have hle := length_le_of_names r hnodup fun name hname => by
    obtain ⟨m, hm, rfl⟩ := List.mem_map.mp hname
    obtain ⟨c, hc, hcname, -⟩ := (mayName_eq_false_iff h).mp (hrefused m (List.mem_range.mp hm))
    exact ⟨c, hc, hcname⟩
  simpa only [List.length_map, List.length_range] using hle

theorem mayName_freeName (h : r.Coherent) (base : String) (w : WireKey) :
    r.mayName w (r.freeName base w) := by
  obtain ⟨n, hn, hrefused, hgiven | hlast⟩ := freeName_first r base w
  · rwa [hn]
  · rw [hn]
    by_contra hrefusedLast
    have hall : ∀ m < n + 1, r.mayName w (candidate base m) = false := by
      intro m hm
      rcases Nat.lt_succ_iff_lt_or_eq.mp hm with hlt | rfl
      · exact hrefused m hlt
      · exact Bool.eq_false_iff.mpr hrefusedLast
    have hle := le_length_of_refused h hall
    omega

theorem freeName_eq (h : r.Coherent) {n : Nat} (hn : r.mayName w (candidate base n))
    (hrefused : ∀ m < n, r.mayName w (candidate base m) = false) :
    r.freeName base w = candidate base n := by
  obtain ⟨k, hk, hbefore, -⟩ := freeName_first r base w
  have hgiven := mayName_freeName h base w
  rw [hk] at hgiven ⊢
  rcases Nat.lt_trichotomy k n with hlt | rfl | hlt
  · rw [hrefused k hlt] at hgiven
    cases hgiven
  · rfl
  · rw [hbefore n hlt] at hn
    cases hn

theorem named?_freeName (h : r.Coherent) (base : String) (w : WireKey) {c : Clock}
    (hc : r.named? (r.freeName base w) = some c) : c.wires = [w] := by
  have hname := mayName_freeName h base w
  simpa [mayName, hc] using hname

theorem wires_of_freeName (h : r.Coherent) {c : Clock} (hc : c ∈ r.clocks)
    (hname : c.name = r.freeName base w) : c.wires = [w] :=
  named?_freeName h base w (h.named?_eq_some_iff.mpr ⟨hc, hname⟩)

end ClockTree.Registry
