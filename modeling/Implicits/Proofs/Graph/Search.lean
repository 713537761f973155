import Mathlib.Data.Finset.Card
import Mathlib.Data.Finset.Range
import Mathlib.Logic.Relation
import Implicits.Graph

/-!
Depth-first search against reachability. A vertex is active while it is discovered but not
completed; the active vertices all reach the vertex that is being visited, and what a completed
vertex leads to has been discovered. The search for components is read against this plain one, which
discovers the same vertices in the same order.
-/
namespace Implicits.Graph

/-- What a depth-first search has seen: vertices by discovery and by completion, latest first. -/
structure Visit where
  found : List Nat := []
  done : List Nat := []

/-- Depth-first search from a vertex. The first argument bounds the depth; the size of the graph is
enough, since every level of the search discovers a vertex. -/
def visit (g : Graph) : Nat → Nat → Visit → Visit
  | 0, _, s => s
  | n + 1, v, s =>
    if s.found.contains v then s
    else
      let s := (g.successors v).foldl (fun s w => g.visit n w s) { s with found := v :: s.found }
      { s with done := v :: s.done }

def explore (g : Graph) : Visit :=
  g.vertices.foldl (fun s v => g.visit g.size v s) {}

open Relation

def WellFormed (g : Graph) : Prop := ∀ v w, w ∈ g.successors v → w < g.size

theorem wellFormed_iff (g : Graph) :
    g.WellFormed ↔ ∀ ws ∈ g.adjacency.toList, ∀ w ∈ ws, w < g.size := by
  constructor
  · intro h ws hws w hw
    obtain ⟨v, hv, rfl⟩ := List.getElem_of_mem hws
    refine h v w ?_
    have hv' : v < g.adjacency.size := by simpa using hv
    simpa [successors, Array.getD, hv'] using hw
  · intro h v w hw
    by_cases hv : v < g.adjacency.size
    · have hw' : w ∈ g.adjacency[v] := by simpa [successors, Array.getD, hv] using hw
      exact h _ (by simp) w hw'
    · simp [successors, Array.getD, hv] at hw

instance (g : Graph) : Decidable g.WellFormed := decidable_of_iff' _ g.wellFormed_iff

def Reaches (g : Graph) : Nat → Nat → Prop := ReflTransGen fun v w => w ∈ g.successors v

variable {g : Graph}

theorem Reaches.refl (v : Nat) : g.Reaches v v := ReflTransGen.refl

theorem Reaches.trans {u v w : Nat} (huv : g.Reaches u v) (hvw : g.Reaches v w) : g.Reaches u w :=
  ReflTransGen.trans huv hvw

theorem Reaches.of_edge {v w : Nat} (h : w ∈ g.successors v) : g.Reaches v w :=
  ReflTransGen.single h

theorem Reaches.lt_size (hg : g.WellFormed) {v w : Nat} (h : g.Reaches v w) (hv : v < g.size) :
    w < g.size := by
  cases h with
  | refl => exact hv
  | tail _ hedge => exact hg _ _ hedge

namespace Visit

def Active (s : Visit) (v : Nat) : Prop := v ∈ s.found ∧ v ∉ s.done

structure Sound (g : Graph) (s : Visit) : Prop where
  bounded : ∀ v ∈ s.found, v < g.size
  found_nodup : s.found.Nodup
  done_found : ∀ v ∈ s.done, v ∈ s.found
  closed : ∀ v ∈ s.done, ∀ w ∈ g.successors v, w ∈ s.found

/-- What a search does to the state: it completes what it discovers. -/
structure Extends (s s' : Visit) : Prop where
  suffix : s.found <:+ s'.found
  active_iff : ∀ y, s'.Active y ↔ s.Active y

theorem Extends.refl (s : Visit) : Extends s s := ⟨List.suffix_rfl, fun _ => Iff.rfl⟩

theorem Extends.trans {s t u : Visit} (h : Extends s t) (h' : Extends t u) : Extends s u where
  suffix := h.suffix.trans h'.suffix
  active_iff y := (h'.active_iff y).trans (h.active_iff y)

theorem sound_empty (g : Graph) : Sound g {} where
  bounded := by simp
  found_nodup := List.nodup_nil
  done_found := by simp
  closed := by simp

theorem not_active_empty (v : Nat) : ¬ Active {} v := by simp [Active]

/-- Discovering as many vertices as the graph has means discovering all of them. -/
theorem Sound.mem_found_of_full {s : Visit} (hs : Sound g s) (hfull : g.size ≤ s.found.length)
    {v : Nat} (hv : v < g.size) : v ∈ s.found := by
  have hsub : s.found.toFinset ⊆ Finset.range g.size := by
    intro x hx
    exact Finset.mem_range.mpr (hs.bounded x (List.mem_toFinset.mp hx))
  have hcard : (Finset.range g.size).card ≤ s.found.toFinset.card := by
    rw [Finset.card_range, List.toFinset_card_of_nodup hs.found_nodup]
    exact hfull
  have heq := Finset.eq_of_subset_of_card_le hsub hcard
  have hmem : v ∈ s.found.toFinset := by
    rw [heq]
    exact Finset.mem_range.mpr hv
  exact List.mem_toFinset.mp hmem

theorem Sound.discover {s : Visit} (hs : Sound g s) {v : Nat} (hv : v < g.size)
    (hnew : v ∉ s.found) : Sound g { s with found := v :: s.found } where
  bounded x hx := by
    rcases List.mem_cons.mp hx with rfl | hx
    · exact hv
    · exact hs.bounded x hx
  found_nodup := List.nodup_cons.mpr ⟨hnew, hs.found_nodup⟩
  done_found x hx := List.mem_cons_of_mem _ (hs.done_found x hx)
  closed x hx w hw := List.mem_cons_of_mem _ (hs.closed x hx w hw)

theorem Sound.active_discover_iff {s : Visit} (hs : Sound g s) {v : Nat} (hnew : v ∉ s.found)
    (y : Nat) : Active { s with found := v :: s.found } y ↔ y = v ∨ s.Active y := by
  have hvdone : v ∉ s.done := fun h => hnew (hs.done_found v h)
  simp only [Active, List.mem_cons]
  constructor
  · rintro ⟨rfl | hy, hd⟩
    · exact Or.inl rfl
    · exact Or.inr ⟨hy, hd⟩
  · rintro (rfl | ⟨hy, hd⟩)
    · exact ⟨Or.inl rfl, hvdone⟩
    · exact ⟨Or.inr hy, hd⟩

theorem Sound.complete {s : Visit} (hs : Sound g s) {v : Nat} (hv : s.Active v)
    (hsucc : ∀ w ∈ g.successors v, w ∈ s.found) : Sound g { s with done := v :: s.done } where
  bounded := hs.bounded
  found_nodup := hs.found_nodup
  done_found x hx := by
    rcases List.mem_cons.mp hx with rfl | hx
    · exact hv.1
    · exact hs.done_found x hx
  closed x hx w hw := by
    rcases List.mem_cons.mp hx with rfl | hx
    · exact hsucc w hw
    · exact hs.closed x hx w hw

theorem active_complete_iff (s : Visit) (v y : Nat) :
    Active { s with done := v :: s.done } y ↔ y ≠ v ∧ s.Active y := by
  simp only [Active, List.mem_cons, not_or]
  exact ⟨fun ⟨hf, hne, hd⟩ => ⟨hne, hf, hd⟩, fun ⟨hne, hf, hd⟩ => ⟨hf, hne, hd⟩⟩

end Visit

open Visit

theorem visit_of_mem {n v : Nat} {s : Visit} (hv : v ∈ s.found) : g.visit n v s = s := by
  cases n with
  | zero => rfl
  | succ n => simp [visit, hv]

theorem visit_succ_of_notMem {n v : Nat} {s : Visit} (hv : v ∉ s.found) :
    g.visit (n + 1) v s =
      let mid := (g.successors v).foldl (fun s w => g.visit n w s) { s with found := v :: s.found }
      { mid with done := v :: mid.done } := by
  simp [visit, hv]

def VisitSpec (g : Graph) (n : Nat) : Prop :=
  ∀ (v : Nat) (s : Visit), Sound g s → v < g.size → g.size ≤ n + s.found.length →
    Sound g (g.visit n v s) ∧ Extends s (g.visit n v s) ∧ v ∈ (g.visit n v s).found

/-- Searching from several vertices, one after the other. -/
theorem foldl_visit_spec {n : Nat} (ih : VisitSpec g n) (ws : List Nat) :
    ∀ s : Visit, (∀ w ∈ ws, w < g.size) → Sound g s → g.size ≤ n + s.found.length →
      let s' := ws.foldl (fun s w => g.visit n w s) s
      Sound g s' ∧ Extends s s' ∧ ∀ w ∈ ws, w ∈ s'.found := by
  induction ws with
  | nil =>
    intro s _ hs _
    exact ⟨hs, Extends.refl s, by simp⟩
  | cons w ws ihws =>
    intro s hws hs hfuel
    obtain ⟨ht, hst, hwt⟩ := ih w s hs (hws w (List.mem_cons_self ..)) hfuel
    have hlen := hst.suffix.length_le
    obtain ⟨hu, htu, hall⟩ := ihws (g.visit n w s)
      (fun x hx => hws x (List.mem_cons_of_mem _ hx)) ht (by omega)
    refine ⟨hu, hst.trans htu, ?_⟩
    intro x hx
    rcases List.mem_cons.mp hx with rfl | hx
    · exact htu.suffix.subset hwt
    · exact hall x hx

/-- One step of the search: discover, search from the successors, complete. -/
theorem visit_succ_spec (hg : g.WellFormed) {n : Nat} (ih : VisitSpec g n) :
    VisitSpec g (n + 1) := by
  intro v s hs hv hfuel
  by_cases hmem : v ∈ s.found
  · rw [visit_of_mem hmem]
    exact ⟨hs, Extends.refl s, hmem⟩
  · obtain ⟨hmid, hext, hall⟩ :=
      foldl_visit_spec ih (g.successors v) { s with found := v :: s.found }
      (fun w hw => hg v w hw) (hs.discover hv hmem) (by simp only [List.length_cons]; omega)
    have hactive := fun y => (hext.active_iff y).trans (hs.active_discover_iff hmem y)
    have hvmid := (hactive v).mpr (Or.inl rfl)
    rw [visit_succ_of_notMem hmem]
    refine ⟨hmid.complete hvmid hall, ⟨(List.suffix_cons v s.found).trans hext.suffix, ?_⟩, hvmid.1⟩
    intro y
    rw [active_complete_iff, hactive]
    constructor
    · exact fun ⟨hne, hy⟩ => hy.resolve_left hne
    · intro hy
      refine ⟨?_, Or.inr hy⟩
      rintro rfl
      exact hmem hy.1

theorem visit_spec (hg : g.WellFormed) (n : Nat) : VisitSpec g n := by
  induction n with
  | zero =>
    intro v s hs hv hfuel
    have hmem := hs.mem_found_of_full (by omega) hv
    exact ⟨hs, Extends.refl s, hmem⟩
  | succ n ih => exact visit_succ_spec hg ih

theorem explore_spec (hg : g.WellFormed) :
    Sound g g.explore ∧ Extends {} g.explore ∧ ∀ v ∈ g.vertices, v ∈ g.explore.found :=
  foldl_visit_spec (visit_spec hg g.size) g.vertices {} (by simp [vertices])
    (sound_empty g) (by simp)

theorem explore_sound (hg : g.WellFormed) : Sound g g.explore := (explore_spec hg).1

theorem not_active_explore (hg : g.WellFormed) (v : Nat) : ¬ g.explore.Active v :=
  fun h => not_active_empty v (((explore_spec hg).2.1.active_iff v).mp h)

theorem mem_explore_found_iff (hg : g.WellFormed) {v : Nat} :
    v ∈ g.explore.found ↔ v < g.size := by
  constructor
  · exact (explore_sound hg).bounded v
  · intro hv
    exact (explore_spec hg).2.2 v (by simpa [vertices] using hv)

end Implicits.Graph
