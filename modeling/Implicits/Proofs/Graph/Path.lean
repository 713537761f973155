import Mathlib.Data.List.Chain
import Implicits.Graph.Path
import Implicits.Proofs.Graph.Components

/-!
Breadth-first search against paths. A vertex that has been reached lies one step further from the
start than the vertex before it, and the queue goes up in these distances and spans at most two of
them. A vertex that has been left has all its allowed successors reached, none of them by a detour.
So a path is found if there is one, and no path is shorter. Inside a component there is one between
any two vertices.
-/
namespace Implicits.Graph

open Relation
open Sweep (getD_setIfInBounds)

def Allowed (g : Graph) (within : Nat → Bool) (v w : Nat) : Prop :=
  w ∈ g.successors v ∧ within w = true

/-- A path between two vertices, both listed, whose vertices after the first are allowed. -/
structure IsPath (g : Graph) (within : Nat → Bool) (start goal : Nat) (path : List Nat) : Prop where
  head : path.head? = some start
  last : path.getLast? = some goal
  edges : path.IsChain (g.Allowed within)

variable {g : Graph} {within : Nat → Bool} {start goal : Nat}

theorem IsPath.single (start : Nat) : g.IsPath within start start [start] :=
  ⟨rfl, rfl, List.isChain_singleton start⟩

theorem IsPath.concat {v w : Nat} {path : List Nat} (h : g.IsPath within start v path)
    (hedge : g.Allowed within v w) : g.IsPath within start w (path ++ [w]) where
  head := by rw [List.head?_append, h.head]; rfl
  last := by simp
  edges := by
    refine h.edges.append (List.isChain_singleton w) ?_
    intro x hx y hy
    obtain rfl := Option.some.inj (h.last.symm.trans hx)
    obtain rfl := Option.some.inj hy
    exact hedge

/-- A path with an edge ends in an edge. -/
theorem IsPath.exists_concat {w : Nat} {path : List Nat} {n : Nat}
    (h : g.IsPath within start w path) (hlength : path.length = n + 2) :
    ∃ v before, g.IsPath within start v before ∧ before.length = n + 1 ∧ g.Allowed within v w := by
  have hnonempty : path ≠ [] := List.ne_nil_of_length_eq_add_one hlength
  obtain ⟨before, last, rfl⟩ := (List.eq_nil_or_concat path).resolve_left hnonempty
  rw [List.concat_eq_append] at h hlength
  have hbefore : before.length = n + 1 := by simpa using hlength
  have hne : before ≠ [] := List.ne_nil_of_length_eq_add_one hbefore
  obtain rfl : last = w := by simpa using h.last
  obtain ⟨hedges, -, hlast⟩ := List.isChain_append.mp h.edges
  have hget : before.getLast? = some (before.getLast hne) := List.getLast?_eq_getLast_of_ne_nil hne
  refine ⟨before.getLast hne, before, ⟨?_, hget, hedges⟩, hbefore, hlast _ hget _ rfl⟩
  rw [← h.head, List.head?_append_of_ne_nil _ hne]

theorem exists_isPath (h : ReflTransGen (g.Allowed within) start goal) :
    ∃ path, g.IsPath within start goal path := by
  induction h with
  | refl => exact ⟨_, .single start⟩
  | tail _ hedge ih =>
    obtain ⟨path, hpath⟩ := ih
    exact ⟨_, hpath.concat hedge⟩

namespace Spread

variable {s : Spread} {v w : Nat}

def Reached (s : Spread) (v : Nat) : Prop := (s.previous? v).isSome = true

def pending (s : Spread) : Nat := s.previous.count none + s.queue.length

theorem Reached.lt_size (h : s.Reached v) : v < s.previous.size := by
  by_contra hv
  simp [Reached, previous?, Array.getD, hv] at h

theorem reach_of_new (hnew : ¬ s.Reached w) (hwithin : within w = true) :
    s.reach within v w = ⟨s.previous.setIfInBounds w (some v), s.queue ++ [w]⟩ := by
  have hnone : (s.previous? w).isSome = false := Bool.not_eq_true _ ▸ hnew
  simp [reach, hnone, hwithin]

theorem reach_of_old (hold : s.Reached w ∨ within w = false) : s.reach within v w = s := by
  rw [reach, if_pos]
  rcases hold with hold | hold
  · simp [show (s.previous? w).isSome = true from hold]
  · simp [hold]

/-- Reaching a vertex moves it from the unreached ones to the queue. -/
theorem pending_reach (hw : w < s.previous.size) : (s.reach within v w).pending = s.pending := by
  by_cases hnew : ¬ s.Reached w ∧ within w = true
  · rw [reach_of_new hnew.1 hnew.2]
    have hnone : s.previous[w] = none := by
      simpa [Reached, previous?, Array.getD, hw] using hnew.1
    have hcount : 0 < s.previous.count none :=
      Array.count_pos_iff.mpr (hnone ▸ Array.getElem_mem hw)
    simp only [pending, Array.setIfInBounds, hw, dif_pos, Array.count_set, hnone,
      List.length_append,
      List.length_singleton]
    simp
    omega
  · rw [reach_of_old]
    rw [not_and_or, not_not, Bool.not_eq_true] at hnew
    exact hnew

/-- What reaching the successors of a vertex does: the new ones join the queue, and the vertex
stands before each of them. -/
theorem foldl_reach (within : Nat → Bool) (v : Nat) (ws : List Nat) :
    ∀ s : Spread, (∀ w ∈ ws, w < s.previous.size) →
      ∃ new, (∀ w, w ∈ new ↔ (w ∈ ws ∧ within w = true) ∧ ¬ s.Reached w) ∧
        (ws.foldl (fun s w => s.reach within v w) s).queue = s.queue ++ new ∧
        (∀ w, (ws.foldl (fun s w => s.reach within v w) s).previous? w =
          if w ∈ new then some v else s.previous? w) ∧
        (ws.foldl (fun s w => s.reach within v w) s).previous.size = s.previous.size ∧
        (ws.foldl (fun s w => s.reach within v w) s).pending = s.pending := by
  induction ws with
  | nil => exact fun s _ => ⟨[], by simp⟩
  | cons w ws ih =>
    intro s hws
    have hw := hws w List.mem_cons_self
    rw [List.foldl_cons]
    by_cases hnew : ¬ s.Reached w ∧ within w = true
    · have hstep := reach_of_new (v := v) hnew.1 hnew.2
      have hprevious : ∀ x, (s.reach within v w).previous? x =
          if x = w then some v else s.previous? x := by
        intro x
        rw [hstep]
        exact getD_setIfInBounds hw _ _ _
      have hreached : ∀ x, (s.reach within v w).Reached x ↔ x = w ∨ s.Reached x := by
        intro x
        rw [Reached, hprevious]
        by_cases hx : x = w
        · simp [hx]
        · simp [hx, Reached]
      have hsize : (s.reach within v w).previous.size = s.previous.size := by
        rw [hstep]
        exact Array.size_setIfInBounds
      obtain ⟨new, hmem, hqueue, hprev, hsize', hpending⟩ :=
        ih (s.reach within v w) fun x hx => hsize ▸ hws x (List.mem_cons_of_mem _ hx)
      refine ⟨w :: new, fun x => ?_, ?_, fun x => ?_, hsize'.trans hsize,
        hpending.trans (pending_reach hw)⟩
      · rw [List.mem_cons, hmem, hreached, List.mem_cons]
        by_cases hx : x = w
        · simp [hx, hnew]
        · simp [hx]
      · rw [hqueue, hstep, List.append_assoc, List.singleton_append]
      · rw [hprev, hprevious]
        by_cases hx : x = w
        · simp [hx]
        · simp [hx]
    · have hold : s.Reached w ∨ within w = false := by
        rw [not_and_or, not_not, Bool.not_eq_true] at hnew
        exact hnew
      rw [reach_of_old hold]
      obtain ⟨new, hmem, hrest⟩ := ih s fun x hx => hws x (List.mem_cons_of_mem _ hx)
      refine ⟨new, fun x => ?_, hrest⟩
      rw [hmem, List.mem_cons]
      by_cases hx : x = w
      · subst hx
        rcases hold with hold | hold
        · simp [hold]
        · simp [hold]
      · simp [hx]

structure Leaves (g : Graph) (within : Nat → Bool) (v : Nat) (queue new : List Nat)
    (s s' : Spread) : Prop where
  first : s.queue = v :: queue
  mem_new : ∀ w, w ∈ new ↔ g.Allowed within v w ∧ ¬ s.Reached w
  queue : s'.queue = queue ++ new
  previous : ∀ w, s'.previous? w = if w ∈ new then some v else s.previous? w
  size : s'.previous.size = s.previous.size
  pending : s'.pending + 1 = s.pending

theorem exists_leaves (hg : g.WellFormed) (within : Nat → Bool) (hsize : s.previous.size = g.size)
    {queue : List Nat} (hqueue : s.queue = v :: queue) :
    ∃ new, Leaves g within v queue new s
      ((g.successors v).foldl (fun s w => s.reach within v w) { s with queue }) := by
  obtain ⟨new, hmem, hqueue', hprevious, hsize', hpending⟩ :=
    foldl_reach within v (g.successors v) { s with queue } fun w hw => hsize.symm ▸ hg v w hw
  refine ⟨new, hqueue, hmem, hqueue', hprevious, hsize', ?_⟩
  rw [hpending]
  simp only [pending, hqueue, List.length_cons]
  omega

theorem Leaves.reached_iff {queue new : List Nat} {s' : Spread}
    (h : Leaves g within v queue new s s') (w : Nat) :
    s'.Reached w ↔ w ∈ new ∨ s.Reached w := by
  rw [Reached, h.previous]
  by_cases hw : w ∈ new <;> simp [hw, Reached]

end Spread

/-- What is known during a search, with the distance of each vertex that has been reached. -/
structure Spreads (g : Graph) (within : Nat → Bool) (start goal : Nat) (depth : Nat → Nat)
    (s : Spread) :
    Prop where
  size : s.previous.size = g.size
  start_reached : s.Reached start
  start_depth : depth start = 0
  behind : ∀ w v, s.previous? w = some v → w ≠ start →
    s.Reached v ∧ g.Allowed within v w ∧ depth w = depth v + 1
  queued : ∀ v ∈ s.queue, s.Reached v
  ordered : s.queue.Pairwise fun v w => depth v ≤ depth w
  near : ∀ v ∈ s.queue.head?, ∀ w, s.Reached w → depth w ≤ depth v + 1
  /-- A vertex that has been left is not the goal, and it has been left in all directions. -/
  left : ∀ v, s.Reached v → v ∉ s.queue →
    v ≠ goal ∧ ∀ w, g.Allowed within v w → s.Reached w ∧ depth w ≤ depth v + 1

namespace Spreads

variable {depth : Nat → Nat} {s : Spread}

theorem init (hstart : start < g.size) :
    Spreads g within start goal (fun _ => 0) (.start g.size start) := by
  have hprevious : ∀ w, (Spread.start g.size start).previous? w =
      if w = start then some start else none := by
    intro w
    have hin : start < (Array.replicate g.size (none : Option Nat)).size := by simpa using hstart
    refine (getD_setIfInBounds hin _ _ _).trans ?_
    simp [Array.getD]
  have hreached : ∀ w, (Spread.start g.size start).Reached w ↔ w = start := by
    intro w
    by_cases hw : w = start <;> simp [Spread.Reached, hprevious, hw]
  refine ⟨by simp [Spread.start], (hreached start).mpr rfl, rfl, ?_, ?_, ?_, ?_, ?_⟩
  · intro w v hv hw
    simp [hprevious, hw] at hv
  · intro v hv
    exact (hreached v).mpr (List.mem_singleton.mp hv)
  · exact List.pairwise_singleton _ _
  · simp
  · intro v hv hqueue
    exact absurd (List.mem_singleton.mpr ((hreached v).mp hv)) hqueue

theorem lt_size (h : Spreads g within start goal depth s) {v : Nat} (hv : s.Reached v) :
    v < g.size :=
  h.size ▸ hv.lt_size

def withNew (depth : Nat → Nat) (new : List Nat) (d : Nat) (w : Nat) : Nat :=
  if w ∈ new then d else depth w

section Leave

variable {v : Nat} {queue new : List Nat} {s' : Spread} (h : Spreads g within start goal depth s)
  (hleaves : s.Leaves g within v queue new s')

include hleaves in
theorem withNew_of_reached {w : Nat} (hw : s.Reached w) (d : Nat) :
    withNew depth new d w = depth w :=
  if_neg fun hnew => ((hleaves.mem_new w).mp hnew).2 hw

include h hleaves

theorem first_reached : s.Reached v := h.queued v (by simp [hleaves.first])

theorem rest_reached {w : Nat} (hw : w ∈ queue) : s.Reached w :=
  h.queued w (by simp [hleaves.first, hw])

theorem withNew_le {w : Nat} (hw : s'.Reached w) :
    withNew depth new (depth v + 1) w ≤ depth v + 1 := by
  rcases (hleaves.reached_iff w).mp hw with hnew | hold
  · exact (if_pos hnew).le
  · rw [withNew_of_reached hleaves hold]
    exact h.near v (by simp [hleaves.first]) w hold

theorem le_withNew {w : Nat} (hw : w ∈ s'.queue) : depth v ≤ withNew depth new (depth v + 1) w := by
  have hordered := h.ordered
  rw [hleaves.first, List.pairwise_cons] at hordered
  rw [hleaves.queue] at hw
  rcases List.mem_append.mp hw with hw | hw
  · rw [withNew_of_reached hleaves (h.rest_reached hleaves hw)]
    exact hordered.1 w hw
  · exact (Nat.le_succ _).trans_eq (if_pos hw).symm

theorem behind_leave {w u : Nat} (hu : s'.previous? w = some u) (hw : w ≠ start) :
    s'.Reached u ∧ g.Allowed within u w ∧
      withNew depth new (depth v + 1) w = withNew depth new (depth v + 1) u + 1 := by
  rw [hleaves.previous] at hu
  by_cases hnew : w ∈ new
  · rw [if_pos hnew] at hu
    obtain rfl := Option.some.inj hu
    have hv := h.first_reached hleaves
    refine ⟨(hleaves.reached_iff v).mpr (.inr hv), ((hleaves.mem_new w).mp hnew).1, ?_⟩
    rw [withNew_of_reached hleaves hv]
    exact if_pos hnew
  · rw [if_neg hnew] at hu
    obtain ⟨hureached, hedge, hstep⟩ := h.behind w u hu hw
    refine ⟨(hleaves.reached_iff u).mpr (.inr hureached), hedge, ?_⟩
    rw [withNew_of_reached hleaves hureached, ← hstep]
    exact if_neg hnew

theorem ordered_leave : s'.queue.Pairwise fun a b =>
    withNew depth new (depth v + 1) a ≤ withNew depth new (depth v + 1) b := by
  have hordered := h.ordered
  rw [hleaves.first, List.pairwise_cons] at hordered
  have hlast : ∀ b ∈ new, withNew depth new (depth v + 1) b = depth v + 1 := fun b hb => if_pos hb
  rw [hleaves.queue, List.pairwise_append]
  refine ⟨hordered.2.imp_of_mem fun {a b} ha hb hab => ?_, ?_, fun a ha b hb => ?_⟩
  · rwa [withNew_of_reached hleaves (h.rest_reached hleaves ha),
      withNew_of_reached hleaves (h.rest_reached hleaves hb)]
  · exact List.pairwise_iff_forall_sublist.mpr fun {a b} hab => by
      rw [hlast a (hab.subset (by simp)), hlast b (hab.subset (by simp))]
  · rw [hlast b hb]
    exact h.withNew_le hleaves ((hleaves.reached_iff a).mpr (.inr (h.rest_reached hleaves ha)))

theorem left_leave (hv : v ≠ goal) {u : Nat} (hu : s'.Reached u) (hout : u ∉ s'.queue) :
    u ≠ goal ∧ ∀ w, g.Allowed within u w →
      s'.Reached w ∧ withNew depth new (depth v + 1) w ≤ withNew depth new (depth v + 1) u + 1 := by
  rw [hleaves.queue, List.mem_append, not_or] at hout
  have hureached : s.Reached u := ((hleaves.reached_iff u).mp hu).resolve_left hout.2
  rw [withNew_of_reached hleaves hureached]
  by_cases huv : u = v
  · -- The vertex that is left: its allowed successors were reached before or are new.
    subst huv
    refine ⟨hv, fun w hw => ?_⟩
    have hwreached : s'.Reached w := by
      by_cases hwold : s.Reached w
      · exact (hleaves.reached_iff w).mpr (.inr hwold)
      · exact (hleaves.reached_iff w).mpr (.inl ((hleaves.mem_new w).mpr ⟨hw, hwold⟩))
    exact ⟨hwreached, h.withNew_le hleaves hwreached⟩
  · obtain ⟨hgoal, hall⟩ := h.left u hureached (by simp [hleaves.first, huv, hout.1])
    refine ⟨hgoal, fun w hw => ?_⟩
    obtain ⟨hwreached, hwdepth⟩ := hall w hw
    refine ⟨(hleaves.reached_iff w).mpr (.inr hwreached), ?_⟩
    rwa [withNew_of_reached hleaves hwreached]

/-- Leaving a vertex that is not the goal. The new vertices lie one step behind it, and all others
keep their distance. -/
theorem leave (hv : v ≠ goal) :
    Spreads g within start goal (withNew depth new (depth v + 1)) s' where
  size := hleaves.size.trans h.size
  start_reached := (hleaves.reached_iff start).mpr (.inr h.start_reached)
  start_depth := (withNew_of_reached hleaves h.start_reached _).trans h.start_depth
  behind _ _ := h.behind_leave hleaves
  queued w hw := by
    rw [hleaves.queue] at hw
    rcases List.mem_append.mp hw with hw | hw
    · exact (hleaves.reached_iff w).mpr (.inr (h.rest_reached hleaves hw))
    · exact (hleaves.reached_iff w).mpr (.inl hw)
  ordered := h.ordered_leave hleaves
  near u hu w hw := by
    have hle := h.le_withNew hleaves (List.mem_of_mem_head? hu)
    have hw := h.withNew_le hleaves hw
    omega
  left _ := h.left_leave hleaves hv

end Leave

/-- A search with enough steps for what is left to do ends at the goal or with nothing in the queue.
-/
theorem spread (hg : g.WellFormed) (n : Nat) :
    ∀ depth s, Spreads g within start goal depth s → s.pending ≤ n →
      ∃ depth', Spreads g within start goal depth' (g.spread goal within n s) ∧
        ((g.spread goal within n s).queue = [] ∨
          (g.spread goal within n s).queue.head? = some goal) := by
  induction n with
  | zero =>
    intro depth s h hn
    refine ⟨depth, h, .inl (List.eq_nil_of_length_eq_zero ?_)⟩
    change s.queue.length = 0
    have hle : s.queue.length ≤ s.pending := Nat.le_add_left _ _
    omega
  | succ n ih =>
    intro depth s h hn
    rw [Graph.spread]
    split
    · next hqueue => exact ⟨depth, h, .inl hqueue⟩
    · next v queue hqueue =>
      by_cases hv : v = goal
      · rw [if_pos hv]
        exact ⟨depth, h, .inr (by rw [hqueue, hv]; rfl)⟩
      · rw [if_neg hv]
        obtain ⟨new, hleaves⟩ := Spread.exists_leaves hg within h.size hqueue
        have hpending := hleaves.pending
        exact ih _ _ (h.leave hleaves hv) (by omega)

/-- A path that is no longer than the distances in the queue leads to a vertex that has been
reached, and no detour was made. -/
theorem depth_le_of_isPath (h : Spreads g within start goal depth s) {bound : Nat}
    (hbound : ∀ v ∈ s.queue, bound ≤ depth v) :
    ∀ n w path, g.IsPath within start w path → path.length = n + 1 → n ≤ bound →
      s.Reached w ∧ depth w ≤ n := by
  intro n
  induction n with
  | zero =>
    intro w path hpath hlength _
    obtain ⟨v, rfl⟩ := List.length_eq_one_iff.mp hlength
    obtain rfl : v = start := by simpa using hpath.head
    obtain rfl : v = w := by simpa using hpath.last
    exact ⟨h.start_reached, h.start_depth.le⟩
  | succ n ih =>
    intro w path hpath hlength hn
    obtain ⟨v, before, hbefore, hlength', hedge⟩ := hpath.exists_concat hlength
    obtain ⟨hv, hdepth⟩ := ih v before hbefore hlength' (by omega)
    have hleft : v ∉ s.queue := fun hin => by
      have := hbound v hin
      omega
    obtain ⟨hw, hle⟩ := (h.left v hv hleft).2 w hedge
    exact ⟨hw, by omega⟩

/-- The way back from a vertex goes down in distance one by one. -/
theorem wayBack (h : Spreads g within start goal depth s) (n : Nat) :
    ∀ v, s.Reached v → depth v ≤ n →
      g.IsPath within start v (s.wayBack start n v).reverse ∧
      (s.wayBack start n v).map depth = (List.range (depth v + 1)).reverse ∧
      ∀ u ∈ s.wayBack start n v, s.Reached u := by
  have hstop : g.IsPath within start start [start].reverse ∧
      [start].map depth = (List.range (depth start + 1)).reverse ∧ ∀ u ∈ [start], s.Reached u := by
    refine ⟨.single start, by simp [h.start_depth], by simpa using h.start_reached⟩
  induction n with
  | zero =>
    intro v hv hdepth
    obtain ⟨u, hu⟩ := Option.isSome_iff_exists.mp hv
    have hstart : v = start := by
      by_contra hne
      have := (h.behind v u hu hne).2.2
      omega
    subst hstart
    exact hstop
  | succ n ih =>
    intro v hv hdepth
    rw [Spread.wayBack]
    by_cases hstart : v = start
    · subst hstart
      rw [if_pos rfl]
      exact hstop
    · obtain ⟨u, hu⟩ := Option.isSome_iff_exists.mp hv
      obtain ⟨hureached, hedge, hstep⟩ := h.behind v u hu hstart
      obtain ⟨hpath, hmap, hall⟩ := ih u hureached (by omega)
      simp only [if_neg hstart, hu]
      refine ⟨?_, ?_, List.forall_mem_cons.mpr ⟨hv, hall⟩⟩
      · rw [List.reverse_cons]
        exact hpath.concat hedge
      · rw [List.map_cons, hmap, hstep, List.range_succ (n := depth u + 1), List.reverse_append]
        rfl

theorem nodup_wayBack (h : Spreads g within start goal depth s) {n v : Nat} (hv : s.Reached v)
    (hn : depth v ≤ n) : (s.wayBack start n v).Nodup := by
  apply List.Nodup.of_map depth
  rw [(h.wayBack n v hv hn).2.1]
  exact List.nodup_reverse.mpr List.nodup_range

theorem length_wayBack (h : Spreads g within start goal depth s) {n v : Nat} (hv : s.Reached v)
    (hn : depth v ≤ n) : (s.wayBack start n v).length = depth v + 1 := by
  simpa using congrArg List.length (h.wayBack n v hv hn).2.1

/-- Distances stay below the number of vertices: there are no repetitions on the way back. -/
theorem depth_lt_size (h : Spreads g within start goal depth s) {v : Nat} (hv : s.Reached v) :
    depth v < g.size := by
  have hsub : s.wayBack start (depth v) v ⊆ List.range g.size := fun u hu =>
    List.mem_range.mpr (h.lt_size ((h.wayBack _ v hv (Nat.le_refl _)).2.2 u hu))
  have hle := ((h.nodup_wayBack hv (Nat.le_refl _)).subperm hsub).length_le
  rw [h.length_wayBack hv (Nat.le_refl _), List.length_range] at hle
  exact hle

end Spreads

/-- A search either finds a path that is as short as any and repeats no vertex, or there is no path.
-/
theorem path?_spec (hg : g.WellFormed) (hstart : start < g.size) (goal : Nat)
    (within : Nat → Bool) :
    (g.path? start goal within = none ∧ ∀ path, ¬ g.IsPath within start goal path) ∨
    ∃ path, g.path? start goal within = some path ∧ g.IsPath within start goal path ∧ path.Nodup ∧
      ∀ other, g.IsPath within start goal other → path.length ≤ other.length := by
  have hpending : (Spread.start g.size start).pending ≤ g.size := by
    have hin : start < (Array.replicate g.size (none : Option Nat)).size := by simpa using hstart
    simp only [Spread.start, Spread.pending, Array.setIfInBounds, dif_pos hin, Array.count_set]
    simp
    omega
  have hinit : Spreads g within start goal (fun _ => 0) (.start g.size start) := .init hstart
  obtain ⟨depth, h, hend⟩ := Spreads.spread hg g.size _ _ hinit hpending
  rw [path?]
  generalize g.spread goal within g.size (.start g.size start) = s at h hend
  have hlength : ∀ {path}, g.IsPath within start goal path → ∃ n, path.length = n + 1 := by
    intro path hpath
    refine Nat.exists_eq_add_one.mpr (List.length_pos_iff.mpr ?_)
    rintro rfl
    simpa using hpath.head
  rcases hend with hempty | hgoal
  · -- Everything that was reached has been left, and the goal never is.
    have hout : ∀ v, v ∉ s.queue := by simp [hempty]
    have hunreached : ¬ s.Reached goal := fun hr => (h.left goal hr (hout goal)).1 rfl
    refine .inl ⟨if_neg hunreached, fun path hpath => ?_⟩
    obtain ⟨n, hn⟩ := hlength hpath
    exact hunreached (h.depth_le_of_isPath (fun v hv => absurd hv (hout v)) n goal path hpath hn
      (Nat.le_refl n)).1
  · have hreached : s.Reached goal := h.queued goal (List.mem_of_mem_head? hgoal)
    have hdepth := h.depth_lt_size hreached
    refine .inr ⟨_, if_pos hreached, (h.wayBack g.size goal hreached hdepth.le).1,
      List.nodup_reverse.mpr (h.nodup_wayBack hreached hdepth.le), fun other hother => ?_⟩
    rw [List.length_reverse, h.length_wayBack hreached hdepth.le]
    obtain ⟨n, hn⟩ := hlength hother
    -- The goal is next in the queue, so no distance in the queue is less than its own.
    have hbound : ∀ v ∈ s.queue, depth goal ≤ depth v := by
      obtain ⟨queue, hqueue⟩ := List.head?_eq_some_iff.mp hgoal
      have hordered := h.ordered
      rw [hqueue, List.pairwise_cons] at hordered
      rw [hqueue]
      exact List.forall_mem_cons.mpr ⟨Nat.le_refl _, hordered.1⟩
    by_cases hle : n ≤ depth goal
    · have := (h.depth_le_of_isPath hbound n goal other hother hn hle).2
      omega
    · omega

/-- The search finds shortest paths with restricted vertices; without a restriction every vertex
passes the test. Nothing is found exactly if there is no path. What is found is a path between the
two vertices along edges, with allowed vertices after the first, no vertex occurs twice on it, and
no such path has fewer vertices. -/
theorem path?_shortest (hg : g.WellFormed) (hstart : start < g.size) (goal : Nat)
    (within : Nat → Bool) :
    (g.path? start goal within = none ↔ ¬ ∃ path, g.IsPath within start goal path) ∧
    ∀ path, g.path? start goal within = some path →
      g.IsPath within start goal path ∧ path.Nodup ∧
      ∀ other, g.IsPath within start goal other → path.length ≤ other.length := by
  rcases path?_spec hg hstart goal within with
    ⟨hnone, hno⟩ | ⟨found, hfound, hpath, hnodup, hshortest⟩
  · refine ⟨⟨fun _ => not_exists.mpr hno, fun _ => hnone⟩, fun path h => ?_⟩
    simp [hnone] at h
  · refine ⟨⟨fun h => ?_, fun hno => absurd ⟨found, hpath⟩ hno⟩, fun path h => ?_⟩
    · simp [hfound] at h
    · obtain rfl := Option.some.inj (hfound.symm.trans h)
      exact ⟨hpath, hnodup, hshortest⟩

def twoWays : Graph := .ofEdges 6 [(0, 1), (1, 2), (2, 0), (0, 3), (3, 5), (5, 2), (2, 4)]

/-- With 1 forbidden the longer way is the shortest one, and to 1 itself there is none. -/
theorem path?_shortest_twoWays :
    twoWays.path? 0 4 (· != 1) = some [0, 3, 5, 2, 4] ∧
    (∀ other, twoWays.IsPath (· != 1) 0 4 other → 5 ≤ other.length) ∧
    ¬ ∃ path, twoWays.IsPath (· != 1) 0 1 path := by
  have hg : twoWays.WellFormed := by decide
  have hfound : twoWays.path? 0 4 (· != 1) = some [0, 3, 5, 2, 4] := by decide
  refine ⟨hfound, fun other hother => ?_, ?_⟩
  · exact ((path?_shortest hg (by decide) 4 (· != 1)).2 _ hfound).2.2 other hother
  · exact (path?_shortest hg (by decide) 1 (· != 1)).1.mp (by decide)

/-- A path that is found is a path. -/
theorem isPath_of_path? (hg : g.WellFormed) (hstart : start < g.size) {path : List Nat}
    (h : g.path? start goal within = some path) : g.IsPath within start goal path := by
  rcases path?_spec hg hstart goal within with ⟨hnone, -⟩ | ⟨found, hfound, hpath, -⟩
  · simp [hnone] at h
  · exact Option.some.inj (hfound.symm.trans h) ▸ hpath

/-- A path is found between connected vertices. -/
theorem exists_path? (hg : g.WellFormed) (hstart : start < g.size)
    (h : ReflTransGen (g.Allowed within) start goal) :
    ∃ path, g.path? start goal within = some path := by
  rcases path?_spec hg hstart goal within with ⟨-, hno⟩ | ⟨found, hfound, -⟩
  · obtain ⟨path, hpath⟩ := exists_isPath h
    exact absurd hpath (hno path)
  · exact ⟨found, hfound⟩

/-- Two vertices of a component are connected inside it: a vertex on the way lies on a cycle with
them. -/
theorem connected_within_component (hg : g.WellFormed) {comp : List Nat}
    (hcomp : comp ∈ g.components) {v w : Nat} (hv : v ∈ comp) (hw : w ∈ comp) :
    ReflTransGen (g.Allowed comp.contains) v w := by
  have hvw : g.Reaches v w := ((mem_component_iff hg hcomp hv w).mp hw).2.1
  induction hvw using ReflTransGen.head_induction_on with
  | refl => exact ReflTransGen.refl
  | @head v x hedge hxw ih =>
    have hback : g.Reaches x v := hxw.trans ((mem_component_iff hg hcomp hw v).mp hv).2.1
    have hx : x ∈ comp :=
      (mem_component_iff hg hcomp hv x).mpr ⟨hg v x hedge, Reaches.of_edge hedge, hback⟩
    exact ReflTransGen.head ⟨hedge, by simpa using hx⟩ (ih hx)

end Implicits.Graph
