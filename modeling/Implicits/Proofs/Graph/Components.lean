import Mathlib.Data.List.Nodup
import Implicits.Proofs.Graph.LowLinks

/-!
The components of a graph are the classes of mutually reachable vertices, each listed once, and no
vertex of a component reaches a vertex of an earlier one.
-/
namespace Implicits.Graph

open Sweep

variable {g : Graph}

/-- Searching from vertex after vertex, with nothing active in between. -/
theorem foldl_sweep_tracks (hg : g.WellFormed) (vs : List Nat) :
    ∀ (V : Visit) (s : Sweep), (∀ v ∈ vs, v < g.size) → V.Sound g → Tracks g V s →
      (∀ y, ¬ V.Active y) →
      Tracks g (vs.foldl (fun V v => g.visit g.size v V) V)
        (vs.foldl (fun s v => if s.number v = 0 then g.sweep g.size v s else s) s) := by
  induction vs with
  | nil => exact fun _ _ _ _ h _ => h
  | cons v vs ih =>
    intro V s hvs hV h hidle
    have hv := hvs v (List.mem_cons_self ..)
    obtain ⟨hsound, hext, -⟩ := visit_spec hg g.size v V hV hv (by omega)
    have hstep : Tracks g (g.visit g.size v V)
        (if s.number v = 0 then g.sweep g.size v s else s) := by
      by_cases hfound : v ∈ V.found
      · have hnumber : s.number v ≠ 0 := fun hzero => (h.number_eq_zero_iff v).mp hzero hfound
        rw [visit_of_mem hfound, if_neg hnumber]
        exact h
      · rw [if_pos ((h.number_eq_zero_iff v).mpr hfound)]
        exact (sweep_spec hg g.size v V s hV h hv hfound (fun y hy => absurd hy (hidle y))
          (by omega)).tracks
    exact ih (g.visit g.size v V) _ (fun x hx => hvs x (List.mem_cons_of_mem _ hx)) hsound hstep
      (fun y hy => hidle y ((hext.active_iff y).mp hy))

/-- When the search is over, nothing waits. -/
theorem components_complete (hg : g.WellFormed) :
    Classified g g.components ∧ (∀ C ∈ g.components, C.Sublist g.explore.found) ∧
      ∀ v < g.size, v ∈ g.components.flatten := by
  have h := foldl_sweep_tracks hg g.vertices {} (start g.size) (by simp [vertices])
    (Visit.sound_empty g) (tracks_start g) Visit.not_active_empty
  refine ⟨h.classified, h.component_sublist, ?_⟩
  intro v hv
  apply (h.covered v ((mem_explore_found_iff hg).mpr hv)).resolve_left
  intro hwait
  obtain ⟨a, ha, -⟩ := h.returns v hwait
  exact not_active_explore hg a ha

theorem lt_size_of_mem_component (hg : g.WellFormed) {comp : List Nat}
    (hcomp : comp ∈ g.components) {v : Nat} (hv : v ∈ comp) : v < g.size :=
  (mem_explore_found_iff hg).mp (((components_complete hg).2.1 comp hcomp).subset hv)

theorem mem_component_iff (hg : g.WellFormed) {comp : List Nat} (hcomp : comp ∈ g.components)
    {v : Nat} (hv : v ∈ comp) (w : Nat) : w ∈ comp ↔ w < g.size ∧ g.Together v w := by
  rw [(components_complete hg).1.mem_iff comp hcomp v hv w]
  constructor
  · exact fun h => ⟨h.1.lt_size hg (lt_size_of_mem_component hg hcomp hv), h⟩
  · exact fun h => h.2

theorem exists_component (hg : g.WellFormed) {v : Nat} (hv : v < g.size) :
    ∃ comp ∈ g.components, v ∈ comp :=
  List.mem_flatten.mp ((components_complete hg).2.2 v hv)

/-- No vertex reaches a vertex of an earlier component. -/
theorem components_pairwise (hg : g.WellFormed) :
    g.components.Pairwise fun C D => ∀ v ∈ C, ∀ w ∈ D, ¬ g.Reaches w v :=
  (components_complete hg).1.ordered

theorem component_ne_nil (hg : g.WellFormed) {comp : List Nat} (hcomp : comp ∈ g.components) :
    comp ≠ [] :=
  (components_complete hg).1.ne_nil comp hcomp

/-- The first vertex of a component is discovered last. -/
theorem component_head_found (hg : g.WellFormed) {comp : List Nat} (hcomp : comp ∈ g.components)
    {r : Nat} (hr : comp.head? = some r) :
    ∃ before after, g.explore.found = before ++ r :: after ∧ ∀ u ∈ before, u ∉ comp := by
  have hnodup := (explore_sound hg).found_nodup
  obtain ⟨rest, rfl⟩ : ∃ rest, comp = r :: rest := ⟨comp.tail, List.eq_cons_of_mem_head? hr⟩
  obtain ⟨upto, after, hfound, hmem, hrest⟩ :=
    List.cons_sublist_iff.mp ((components_complete hg).2.1 _ hcomp)
  obtain ⟨before, between, rfl⟩ := List.append_of_mem hmem
  have hsplit : g.explore.found = before ++ r :: (between ++ after) := by simp [hfound]
  refine ⟨before, between ++ after, hsplit, ?_⟩
  intro u hu hcomp
  rw [hsplit] at hnodup
  refine (List.disjoint_of_nodup_append hnodup) hu (List.mem_cons.mpr ?_)
  exact (List.mem_cons.mp hcomp).imp id fun h => List.mem_append_right _ (hrest.subset h)

/-- The components list every vertex exactly once. -/
theorem flatten_components_perm (hg : g.WellFormed) : g.components.flatten.Perm g.vertices := by
  have hnodup : g.components.flatten.Nodup := by
    rw [List.nodup_flatten]
    constructor
    · exact fun C hC => ((components_complete hg).2.1 C hC).nodup (explore_sound hg).found_nodup
    · refine (components_pairwise hg).imp ?_
      intro C D hCD v hC hD
      exact hCD v hC v hD (Reaches.refl v)
  rw [vertices, List.perm_ext_iff_of_nodup hnodup List.nodup_range]
  intro v
  rw [List.mem_flatten, List.mem_range]
  constructor
  · rintro ⟨comp, hcomp, hv⟩
    exact lt_size_of_mem_component hg hcomp hv
  · exact exists_component hg

/-- An edge between components goes to a later one. -/
theorem lt_of_edge (hg : g.WellFormed) {i j : Nat} {C D : List Nat} (hC : g.components[i]? = some C)
    (hD : g.components[j]? = some D) (hne : i ≠ j) {u v : Nat} (hu : u ∈ C) (hv : v ∈ D)
    (hedge : v ∈ g.successors u) : i < j := by
  by_contra hle
  obtain ⟨hi, rfl⟩ := List.getElem?_eq_some_iff.mp hC
  obtain ⟨hj, rfl⟩ := List.getElem?_eq_some_iff.mp hD
  have hearlier := List.pairwise_iff_getElem.mp (components_pairwise hg) j i hj hi (by omega)
  exact hearlier v hv u hu (Reaches.of_edge hedge)

/-- The components partition the vertices into the classes of mutual reachability, in topological
order. -/
theorem components_strong_topological (hg : g.WellFormed) :
    g.components.flatten.Perm g.vertices ∧
    (∀ u < g.size, ∀ v < g.size,
      (∃ C ∈ g.components, u ∈ C ∧ v ∈ C) ↔ g.Reaches u v ∧ g.Reaches v u) ∧
    (∀ u v, v ∈ g.successors u → ∀ (i j : Nat) (C D : List Nat), g.components[i]? = some C →
      g.components[j]? = some D → u ∈ C → v ∈ D → i ≠ j → i < j) := by
  refine ⟨flatten_components_perm hg, ?_, ?_⟩
  · intro u hu v hv
    constructor
    · rintro ⟨C, hC, huC, hvC⟩
      exact ((mem_component_iff hg hC huC v).mp hvC).2
    · intro huv
      obtain ⟨C, hC, huC⟩ := exists_component hg hu
      exact ⟨C, hC, huC, (mem_component_iff hg hC huC v).mpr ⟨hv, huv⟩⟩
  · intro u v hedge i j C D hC hD hu hv hne
    exact lt_of_edge hg hC hD hne hu hv hedge

def clusters : Graph :=
  .ofEdges 7 [(0, 0), (1, 2), (2, 3), (3, 1), (3, 0), (3, 4), (4, 5), (5, 4), (2, 5), (5, 0)]

theorem components_strong_topological_clusters :
    clusters.WellFormed ∧ clusters.components = [[6], [3, 2, 1], [5, 4], [0]] ∧
      clusters.components.flatten.Perm clusters.vertices ∧
      (clusters.Reaches 1 3 ∧ clusters.Reaches 3 1) ∧
      ¬ (clusters.Reaches 3 4 ∧ clusters.Reaches 4 3) := by
  have hg : clusters.WellFormed := by decide +kernel
  have heq : clusters.components = [[6], [3, 2, 1], [5, 4], [0]] := by decide +kernel
  obtain ⟨hperm, hsame, -⟩ := components_strong_topological hg
  refine ⟨hg, heq, hperm, (hsame 1 (by decide) 3 (by decide)).mp (by rw [heq]; decide), ?_⟩
  rw [← hsame 3 (by decide) 4 (by decide), heq]
  decide

end Implicits.Graph
