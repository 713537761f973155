import Implicits.Graph.Components
import Implicits.Proofs.Graph.Search

/-!
The search for components against plain depth-first search. The waiting vertices are those that
still reach an active vertex, discovered no later than they are, and the earlier ones reach the
later ones. When the search leaves a vertex, its low link is the number of a waiting vertex that it
reaches, and no edge from what the search put on the stack goes below it. So a vertex whose low link
is its own number closes a part of the stack from which only complete components can be reached.
-/
namespace Implicits.Graph

def Together (g : Graph) (v w : Nat) : Prop := g.Reaches v w ∧ g.Reaches w v

variable {g : Graph}

theorem Together.symm {v w : Nat} (h : g.Together v w) : g.Together w v := ⟨h.2, h.1⟩

theorem Together.trans {u v w : Nat} (h : g.Together u v) (h' : g.Together v w) :
    g.Together u w := ⟨h.1.trans h'.1, h'.2.trans h.2⟩

/-- A list of classes, latest first: edges from the classes stay among them, and a class does not
lead to a later one. -/
structure Classified (g : Graph) (comps : List (List Nat)) : Prop where
  ne_nil : ∀ C ∈ comps, C ≠ []
  mem_iff : ∀ C ∈ comps, ∀ u ∈ C, ∀ w, w ∈ C ↔ g.Together u w
  closed : ∀ u ∈ comps.flatten, ∀ w ∈ g.successors u, w ∈ comps.flatten
  ordered : comps.Pairwise fun C D => ∀ u ∈ C, ∀ w ∈ D, ¬ g.Reaches w u

namespace Classified

variable {comps : List (List Nat)} {C : List Nat} {u v w : Nat}

theorem nil (g : Graph) : Classified g [] where
  ne_nil := by simp
  mem_iff := by simp
  closed := by simp
  ordered := List.Pairwise.nil

theorem mem_of_reaches (h : Classified g comps) (hu : u ∈ comps.flatten) (huw : g.Reaches u w) :
    w ∈ comps.flatten := by
  induction huw with
  | refl => exact hu
  | @tail b c _ hbc ih => exact h.closed b ih c hbc

theorem reaches_of_closed (h : Classified g comps)
    (hclosed : ∀ u ∈ C, ∀ w ∈ g.successors u, w ∈ C ∨ w ∈ comps.flatten) (hu : u ∈ C)
    (huw : g.Reaches u w) : w ∈ C ∨ w ∈ comps.flatten := by
  induction huw with
  | refl => exact Or.inl hu
  | @tail b c _ hbc ih =>
    rcases ih with hb | hb
    · exact hclosed b hb c hbc
    · exact Or.inr (h.closed b hb c hbc)

/-- A set of vertices on common cycles from which only the classes can be reached is the next class.
-/
theorem cons (h : Classified g comps) (hv : v ∈ C) (htogether : ∀ u ∈ C, g.Together u v)
    (hapart : ∀ u ∈ C, u ∉ comps.flatten)
    (hclosed : ∀ u ∈ C, ∀ w ∈ g.successors u, w ∈ C ∨ w ∈ comps.flatten) :
    Classified g (C :: comps) where
  ne_nil D hD := by
    rcases List.mem_cons.mp hD with rfl | hD
    · exact List.ne_nil_of_mem hv
    · exact h.ne_nil D hD
  mem_iff D hD u hu w := by
    rcases List.mem_cons.mp hD with rfl | hD
    · constructor
      · exact fun hw => (htogether u hu).trans (htogether w hw).symm
      · intro huw
        apply (h.reaches_of_closed hclosed hu huw.1).resolve_right
        exact fun hw => hapart u hu (h.mem_of_reaches hw huw.2)
    · exact h.mem_iff D hD u hu w
  closed u hu w hw := by
    simp only [List.flatten_cons, List.mem_append] at hu ⊢
    rcases hu with hu | hu
    · exact hclosed u hu w hw
    · exact Or.inr (h.closed u hu w hw)
  ordered := by
    refine List.Pairwise.cons ?_ h.ordered
    intro D hD u hu w hw hwu
    exact hapart u hu (h.mem_of_reaches (List.mem_flatten_of_mem hD hw) hwu)

end Classified

namespace Sweep

section Tables

variable {α : Type} {a : Array α} {s : Sweep} {u v k : Nat}

theorem getD_setIfInBounds {i : Nat} (hi : i < a.size) (x d : α) (j : Nat) :
    (a.setIfInBounds i x).getD j d = if j = i then x else a.getD j d := by
  simp only [Array.getD_eq_getD_getElem?, Array.getElem?_setIfInBounds]
  by_cases hij : i = j
  · subst hij
    simp [hi]
  · simp [hij, Ne.symm hij]

theorem size_foldl_setIfInBounds (ws : List Nat) (x : α) :
    ∀ a : Array α, (ws.foldl (fun a w => a.setIfInBounds w x) a).size = a.size := by
  induction ws with
  | nil => exact fun _ => rfl
  | cons w ws ih =>
    intro a
    rw [List.foldl_cons, ih, Array.size_setIfInBounds]

theorem getD_foldl_setIfInBounds (ws : List Nat) (x d : α) (j : Nat) :
    ∀ a : Array α, (∀ w ∈ ws, w < a.size) →
      (ws.foldl (fun a w => a.setIfInBounds w x) a).getD j d =
        if j ∈ ws then x else a.getD j d := by
  induction ws with
  | nil => exact fun _ _ => by simp
  | cons w ws ih =>
    intro a hws
    rw [List.foldl_cons, ih, getD_setIfInBounds (hws w (List.mem_cons_self ..))]
    · by_cases hj : j ∈ ws <;> by_cases hjw : j = w <;> simp [hj, hjw]
    · intro y hy
      rw [Array.size_setIfInBounds]
      exact hws y (List.mem_cons_of_mem _ hy)

structure Fits (g : Graph) (s : Sweep) : Prop where
  numbers : s.numbers.size = g.size
  lowLinks : s.lowLinks.size = g.size
  waiting : s.waiting.size = g.size

theorem fits_start (g : Graph) : Fits g (start g.size) := by
  constructor <;> simp [start]

theorem Fits.discover (h : Fits g s) (v : Nat) : Fits g (s.discover v) := by
  constructor <;> simp [Sweep.discover, h.numbers, h.lowLinks, h.waiting]

theorem Fits.lower (h : Fits g s) (v k : Nat) : Fits g (s.lower v k) := by
  constructor <;> simp [Sweep.lower, h.numbers, h.lowLinks, h.waiting]

theorem Fits.close (h : Fits g s) (v : Nat) : Fits g (s.close v) := by
  constructor <;> simp [Sweep.close, size_foldl_setIfInBounds, h.numbers, h.lowLinks, h.waiting]

@[simp] theorem number_start (n v : Nat) : (start n).number v = 0 := by
  simp [start, number, Array.getD]

@[simp] theorem isWaiting_start (n v : Nat) : (start n).isWaiting v = false := by
  simp [start, isWaiting, Array.getD]

theorem Fits.number_discover (h : Fits g s) (hv : v < g.size) (u : Nat) :
    (s.discover v).number u = if u = v then s.count + 1 else s.number u :=
  getD_setIfInBounds (h.numbers ▸ hv) _ _ _

theorem Fits.lowLink_discover (h : Fits g s) (hv : v < g.size) (u : Nat) :
    (s.discover v).lowLink u = if u = v then s.count + 1 else s.lowLink u :=
  getD_setIfInBounds (h.lowLinks ▸ hv) _ _ _

theorem Fits.isWaiting_discover (h : Fits g s) (hv : v < g.size) (u : Nat) :
    (s.discover v).isWaiting u = if u = v then true else s.isWaiting u :=
  getD_setIfInBounds (h.waiting ▸ hv) _ _ _

theorem Fits.lowLink_lower (h : Fits g s) (hv : v < g.size) (k u : Nat) :
    (s.lower v k).lowLink u = if u = v then min (s.lowLink v) k else s.lowLink u :=
  getD_setIfInBounds (h.lowLinks ▸ hv) _ _ _

theorem popTo_append {newer : List Nat} (hv : v ∉ newer) (rest : List Nat) :
    popTo v (newer ++ v :: rest) = (newer ++ [v], rest) := by
  induction newer with
  | nil => simp [popTo]
  | cons w newer ih =>
    obtain ⟨hwv, hnewer⟩ := not_or.mp (mt List.mem_cons.mpr hv)
    simp [popTo, Ne.symm hwv, ih hnewer]

section Close

variable {newer rest : List Nat} (hstack : s.stack = newer ++ v :: rest) (hv : v ∉ newer)
include hstack hv

theorem stack_close : (s.close v).stack = rest := by
  simp [close, hstack, popTo_append hv]

theorem components_close : (s.close v).components = (newer ++ [v]) :: s.components := by
  simp [close, hstack, popTo_append hv]

theorem Fits.isWaiting_close (h : Fits g s) (hbound : ∀ u ∈ newer ++ [v], u < g.size) (u : Nat) :
    (s.close v).isWaiting u = if u ∈ newer ++ [v] then false else s.isWaiting u := by
  rw [isWaiting, Sweep.close, hstack, popTo_append hv]
  exact getD_foldl_setIfInBounds _ _ _ _ _ fun w hw => h.waiting ▸ hbound w hw

end Close

@[simp] theorem number_close (s : Sweep) (v u : Nat) : (s.close v).number u = s.number u := rfl

end Tables

/-- The state of the search for components beside that of the plain search: numbers in the order of
discovery, a stack of what still reaches an active vertex, and the rest in complete components. -/
structure Tracks (g : Graph) (V : Visit) (s : Sweep) : Prop where
  fits : Fits g s
  number_eq_zero_iff : ∀ u, s.number u = 0 ↔ u ∉ V.found
  number_le : ∀ u, s.number u ≤ s.count
  isWaiting_iff : ∀ u, s.isWaiting u = true ↔ u ∈ s.stack
  stack_sublist : s.stack.Sublist V.found
  active_mem : ∀ u, V.Active u → u ∈ s.stack
  chained : s.stack.Pairwise fun later earlier => g.Reaches earlier later
  returns : ∀ y ∈ s.stack, ∃ a, V.Active a ∧ s.number a ≤ s.number y ∧ g.Reaches y a
  classified : Classified g s.components
  component_sublist : ∀ C ∈ s.components, C.Sublist V.found
  covered : ∀ u ∈ V.found, u ∈ s.stack ∨ u ∈ s.components.flatten
  apart : ∀ u ∈ s.stack, u ∉ s.components.flatten

/-- What a search leaves alone: numbers and low links of what was discovered before, and the stack
below what it puts there. -/
structure Advances (V V' : Visit) (s s' : Sweep) : Prop where
  found_subset : ∀ u ∈ V.found, u ∈ V'.found
  count_le : s.count ≤ s'.count
  number_eq : ∀ u ∈ V.found, s'.number u = s.number u
  lowLink_eq : ∀ u ∈ V.found, s'.lowLink u = s.lowLink u
  lt_number : ∀ u ∈ V'.found, u ∉ V.found → s.count < s'.number u
  suffix : s.stack <:+ s'.stack
  mem_stack : ∀ u ∈ s'.stack, u ∈ V.found → u ∈ s.stack

variable {V U V' : Visit} {s t s' : Sweep} {v w : Nat}

theorem tracks_start (g : Graph) : Tracks g {} (start g.size) where
  fits := fits_start g
  number_eq_zero_iff := by simp
  number_le := by simp
  isWaiting_iff u := by
    rw [isWaiting_start]
    simp [start]
  stack_sublist := List.Sublist.refl _
  active_mem u hu := absurd hu (Visit.not_active_empty u)
  chained := List.Pairwise.nil
  returns := by simp [start]
  classified := Classified.nil g
  component_sublist := by simp [start]
  covered := by simp
  apart := by simp [start]

theorem Advances.trans (h : Advances V U s t) (h' : Advances U V' t s') : Advances V V' s s' where
  found_subset u hu := h'.found_subset u (h.found_subset u hu)
  count_le := Nat.le_trans h.count_le h'.count_le
  number_eq u hu := (h'.number_eq u (h.found_subset u hu)).trans (h.number_eq u hu)
  lowLink_eq u hu := (h'.lowLink_eq u (h.found_subset u hu)).trans (h.lowLink_eq u hu)
  lt_number u hu hnew := by
    by_cases hmid : u ∈ U.found
    · rw [h'.number_eq u hmid]
      exact h.lt_number u hmid hnew
    · exact Nat.lt_of_le_of_lt h.count_le (h'.lt_number u hu hmid)
  suffix := h.suffix.trans h'.suffix
  mem_stack u hu hold := h.mem_stack u (h'.mem_stack u hu (h.found_subset u hold)) hold

/-- The low link of a vertex that was not discovered before is not one of those left alone. -/
theorem Advances.lower (h : Advances V U s t) (hfits : Fits g t) (hv : v < g.size)
    (hnew : v ∉ V.found) (k : Nat) : Advances V U s (t.lower v k) where
  found_subset := h.found_subset
  count_le := h.count_le
  number_eq := h.number_eq
  lowLink_eq u hu := by
    have hne : u ≠ v := fun heq => hnew (heq ▸ hu)
    rw [hfits.lowLink_lower hv, if_neg hne]
    exact h.lowLink_eq u hu
  lt_number := h.lt_number
  suffix := h.suffix
  mem_stack := h.mem_stack

namespace Tracks

theorem lower (h : Tracks g V s) (v k : Nat) : Tracks g V (s.lower v k) :=
  { h with fits := h.fits.lower v k }

theorem discover (h : Tracks g V s) (hV : V.Sound g) (hv : v < g.size) (hnew : v ∉ V.found)
    (hback : ∀ y, V.Active y → g.Reaches y v) :
    Tracks g { V with found := v :: V.found } (s.discover v) where
  fits := h.fits.discover v
  number_eq_zero_iff u := by
    rw [h.fits.number_discover hv, List.mem_cons]
    by_cases hu : u = v
    · simp [hu]
    · simp [hu, h.number_eq_zero_iff u]
  number_le u := by
    rw [h.fits.number_discover hv]
    have hle := h.number_le u
    show _ ≤ s.count + 1
    split <;> omega
  isWaiting_iff u := by
    rw [h.fits.isWaiting_discover hv]
    show _ ↔ u ∈ v :: s.stack
    by_cases hu : u = v
    · simp [hu]
    · simp [hu, h.isWaiting_iff u]
  stack_sublist := h.stack_sublist.cons_cons v
  active_mem u hu := by
    rcases (hV.active_discover_iff hnew u).mp hu with rfl | hu
    · exact List.mem_cons_self ..
    · exact List.mem_cons_of_mem _ (h.active_mem u hu)
  chained := by
    refine List.Pairwise.cons ?_ h.chained
    intro y hy
    obtain ⟨a, ha, _, hya⟩ := h.returns y hy
    exact hya.trans (hback a ha)
  returns y hy := by
    have hactive := hV.active_discover_iff hnew
    rcases List.mem_cons.mp hy with rfl | hy
    · exact ⟨y, (hactive y).mpr (Or.inl rfl), Nat.le_refl _, Reaches.refl y⟩
    · obtain ⟨a, ha, hle, hya⟩ := h.returns y hy
      refine ⟨a, (hactive a).mpr (Or.inr ha), ?_, hya⟩
      have hne : y ≠ v := fun heq => hnew (heq ▸ h.stack_sublist.subset hy)
      have hne' : a ≠ v := fun heq => hnew (heq ▸ ha.1)
      simpa [h.fits.number_discover hv, hne, hne'] using hle
  classified := h.classified
  component_sublist C hC := (h.component_sublist C hC).cons v
  covered u hu := by
    rcases List.mem_cons.mp hu with rfl | hu
    · exact Or.inl (List.mem_cons_self ..)
    · exact (h.covered u hu).imp (List.mem_cons_of_mem _) id
  apart u hu := by
    rcases List.mem_cons.mp hu with rfl | hu
    · intro hmem
      obtain ⟨C, hC, huC⟩ := List.mem_flatten.mp hmem
      exact hnew ((h.component_sublist C hC).subset huC)
    · exact h.apart u hu

end Tracks

theorem advances_discover (h : Tracks g V s) (hv : v < g.size) (hnew : v ∉ V.found) :
    Advances V { V with found := v :: V.found } s (s.discover v) where
  found_subset _ hu := List.mem_cons_of_mem _ hu
  count_le := Nat.le_succ _
  number_eq u hu := by
    have hne : u ≠ v := fun heq => hnew (heq ▸ hu)
    rw [h.fits.number_discover hv, if_neg hne]
  lowLink_eq u hu := by
    have hne : u ≠ v := fun heq => hnew (heq ▸ hu)
    rw [h.fits.lowLink_discover hv, if_neg hne]
  lt_number u hu hold := by
    have heq : u = v := (List.mem_cons.mp hu).resolve_right hold
    rw [h.fits.number_discover hv, if_pos heq]
    exact Nat.lt_succ_self _
  suffix := List.suffix_cons v s.stack
  mem_stack u hu hold := by
    have hne : u ≠ v := fun heq => hnew (heq ▸ hold)
    exact (List.mem_cons.mp hu).resolve_left hne

/-- The state while the search goes through the successors of `v`, after those in `seen`, beside the
state before `v` was discovered. The least number that was met is `low`. -/
structure Scans (g : Graph) (v : Nat) (V : Visit) (s : Sweep) (seen : List Nat)
    (low : Nat) (U : Visit) (t : Sweep) : Prop where
  sound : U.Sound g
  tracks : Tracks g U t
  advances : Advances V U s t
  active_iff : ∀ a, U.Active a ↔ a = v ∨ V.Active a
  suffix : v :: s.stack <:+ t.stack
  number_eq : t.number v = s.count + 1
  low_le : low ≤ t.number v
  low_mem : ∃ y ∈ t.stack, t.number y = low ∧ g.Reaches v y
  crossing : ∀ x ∈ t.stack, x ∉ V.found → x ≠ v → ∀ y ∈ g.successors x, y ∈ s.stack →
    low ≤ t.number y
  seen_found : ∀ y ∈ seen, y ∈ U.found
  seen_crossing : ∀ y ∈ seen, y ∈ s.stack → low ≤ t.number y

/-- What a search from `v` that is over has done: if `v` still waits, its low link is the number of
a waiting vertex that it reaches. -/
structure Swept (g : Graph) (v : Nat) (V : Visit) (s : Sweep) (V' : Visit) (s' : Sweep) : Prop where
  tracks : Tracks g V' s'
  advances : Advances V V' s s'
  lowLink_mem : v ∈ s'.stack → ∃ y ∈ s'.stack, s'.number y = s'.lowLink v ∧ g.Reaches v y
  lowLink_eq : v ∉ s'.stack → s'.lowLink v = s'.number v
  crossing : ∀ x ∈ s'.stack, x ∉ V.found → ∀ y ∈ g.successors x, y ∈ s.stack →
    s'.lowLink v ≤ s'.number y

namespace Scans

variable {seen : List Nat} {low : Nat}

theorem start (hV : V.Sound g) (h : Tracks g V s) (hv : v < g.size) (hnew : v ∉ V.found)
    (hback : ∀ y, V.Active y → g.Reaches y v) :
    Scans g v V s [] ((s.discover v).lowLink v) { V with found := v :: V.found }
      (s.discover v) := by
  have hnumber : (s.discover v).number v = s.count + 1 := by
    rw [h.fits.number_discover hv, if_pos rfl]
  have hlow : (s.discover v).number v = (s.discover v).lowLink v := by
    rw [hnumber, h.fits.lowLink_discover hv, if_pos rfl]
  refine { sound := hV.discover hv hnew, tracks := h.discover hV hv hnew hback,
           advances := advances_discover h hv hnew, active_iff := hV.active_discover_iff hnew,
           suffix := List.suffix_rfl, number_eq := hnumber, low_le := Nat.le_of_eq hlow.symm,
           low_mem := ⟨v, List.mem_cons_self .., hlow, Reaches.refl v⟩, crossing := ?_,
           seen_found := by simp, seen_crossing := by simp }
  intro x hx hxnew hxv
  have hx' : x ∈ s.stack := (List.mem_cons.mp hx).resolve_left hxv
  exact absurd (h.stack_sublist.subset hx') hxnew

theorem mem_found (h : Scans g v V s seen low U t) : v ∈ U.found :=
  ((h.active_iff v).mpr (Or.inl rfl)).1

theorem lower (h : Scans g v V s seen low U t) (hnew : v ∉ V.found) (k : Nat) :
    Scans g v V s seen low U (t.lower v k) :=
  { h with
    tracks := h.tracks.lower v k
    advances := h.advances.lower h.tracks.fits (h.sound.bounded v h.mem_found) hnew k }

/-- An edge to a vertex whose component is complete. -/
theorem pass (h : Scans g v V s seen low U t) (hw : w ∈ U.found) (hout : w ∉ t.stack) :
    Scans g v V s (seen ++ [w]) low U t where
  __ := h
  seen_found y hy := by
    rcases List.mem_append.mp hy with hy | hy
    · exact h.seen_found y hy
    · exact List.mem_singleton.mp hy ▸ hw
  seen_crossing y hy hys := by
    rcases List.mem_append.mp hy with hy | hy
    · exact h.seen_crossing y hy hys
    · obtain rfl := List.mem_singleton.mp hy
      exact absurd (h.advances.suffix.subset hys) hout

/-- An edge to a vertex that waits. -/
theorem meet (h : Scans g v V s seen low U t) (hedge : w ∈ g.successors v) (hw : w ∈ t.stack) :
    Scans g v V s (seen ++ [w]) (min low (t.number w)) U t where
  __ := h
  low_le := Nat.le_trans (Nat.min_le_left ..) h.low_le
  low_mem := by
    rcases Nat.le_total low (t.number w) with hle | hle
    · rw [Nat.min_eq_left hle]
      exact h.low_mem
    · rw [Nat.min_eq_right hle]
      exact ⟨w, hw, rfl, Reaches.of_edge hedge⟩
  crossing x hx hxnew hxv y hxy hys :=
    Nat.le_trans (Nat.min_le_left ..) (h.crossing x hx hxnew hxv y hxy hys)
  seen_found y hy := by
    rcases List.mem_append.mp hy with hy | hy
    · exact h.seen_found y hy
    · exact List.mem_singleton.mp hy ▸ h.tracks.stack_sublist.subset hw
  seen_crossing y hy hys := by
    rcases List.mem_append.mp hy with hy | hy
    · exact Nat.le_trans (Nat.min_le_left ..) (h.seen_crossing y hy hys)
    · obtain rfl := List.mem_singleton.mp hy
      exact Nat.min_le_right ..

/-- An edge to a vertex that is discovered on it, after the search from there. -/
theorem descend (h : Scans g v V s seen low U t) (hedge : w ∈ g.successors v) (hw : w ∉ U.found)
    (hV' : V'.Sound g) (hactive : ∀ a, V'.Active a ↔ U.Active a) (hw' : w ∈ V'.found)
    (hswept : Swept g w U t V' s') :
    Scans g v V s (seen ++ [w]) (min low (s'.lowLink w)) V' s' := by
  have hadv := hswept.advances
  have hstack : ∀ y ∈ s.stack, y ∈ t.stack := fun y hy => h.advances.suffix.subset hy
  have hnumber : ∀ y ∈ t.stack, s'.number y = t.number y :=
    fun y hy => hadv.number_eq y (h.tracks.stack_sublist.subset hy)
  have hnumber_v : s'.number v = t.number v := hadv.number_eq v h.mem_found
  refine { sound := hV', tracks := hswept.tracks, advances := h.advances.trans hadv,
           active_iff := fun a => (hactive a).trans (h.active_iff a),
           suffix := h.suffix.trans hadv.suffix, number_eq := hnumber_v.trans h.number_eq,
           low_le := ?_, low_mem := ?_, crossing := ?_, seen_found := ?_, seen_crossing := ?_ }
  · rw [hnumber_v]
    exact Nat.le_trans (Nat.min_le_left ..) h.low_le
  · rcases Nat.le_total low (s'.lowLink w) with hle | hle
    · obtain ⟨y, hy, hlow, hvy⟩ := h.low_mem
      rw [Nat.min_eq_left hle]
      exact ⟨y, hadv.suffix.subset hy, (hnumber y hy).trans hlow, hvy⟩
    · rw [Nat.min_eq_right hle]
      by_cases hwait : w ∈ s'.stack
      · obtain ⟨y, hy, hlow, hwy⟩ := hswept.lowLink_mem hwait
        exact ⟨y, hy, hlow, (Reaches.of_edge hedge).trans hwy⟩
      · -- the component of `w` is complete, so its low link is later than anything met so far
        have hlate := hadv.lt_number w hw' hw
        have hcount := h.tracks.number_le v
        have hlow := h.low_le
        rw [hswept.lowLink_eq hwait] at hle
        omega
  · intro x hx hxnew hxv y hxy hys
    by_cases hold : x ∈ U.found
    · have hle := h.crossing x (hadv.mem_stack x hx hold) hxnew hxv y hxy hys
      rw [hnumber y (hstack y hys)]
      exact Nat.le_trans (Nat.min_le_left ..) hle
    · exact Nat.le_trans (Nat.min_le_right ..) (hswept.crossing x hx hold y hxy (hstack y hys))
  · intro y hy
    rcases List.mem_append.mp hy with hy | hy
    · exact hadv.found_subset y (h.seen_found y hy)
    · exact List.mem_singleton.mp hy ▸ hw'
  · intro y hy hys
    rcases List.mem_append.mp hy with hy | hy
    · rw [hnumber y (hstack y hys)]
      exact Nat.le_trans (Nat.min_le_left ..) (h.seen_crossing y hy hys)
    · obtain rfl := List.mem_singleton.mp hy
      exact absurd (h.tracks.stack_sublist.subset (hstack y hys)) hw

theorem le_of_edge (h : Scans g v V s (g.successors v) low U t) {x y : Nat} (hx : x ∈ t.stack)
    (hxnew : x ∉ V.found) (hxy : y ∈ g.successors x) (hys : y ∈ s.stack) : low ≤ t.number y := by
  by_cases hxv : x = v
  · exact h.seen_crossing y (hxv ▸ hxy) hys
  · exact h.crossing x hx hxnew hxv y hxy hys

/-- The search leaves `v` on the stack if something discovered earlier can be reached. -/
theorem leave (h : Scans g v V s (g.successors v) (t.lowLink v) U t)
    (hlow : t.lowLink v ≠ t.number v) :
    Swept g v V s { U with done := v :: U.done } t := by
  have hlt : t.lowLink v < t.number v := Nat.lt_of_le_of_ne h.low_le hlow
  -- what reached `v` reaches the active vertex that the low link of `v` leads to
  obtain ⟨z, hz, hzlow, hvz⟩ := h.low_mem
  obtain ⟨b, hb, hbz, hzb⟩ := h.tracks.returns z hz
  have hbv : b ≠ v := by
    rintro rfl
    omega
  have htracks : Tracks g { U with done := v :: U.done } t :=
    { h.tracks with
      active_mem := fun u hu => h.tracks.active_mem u ((Visit.active_complete_iff U v u).mp hu).2
      returns := by
        intro y hy
        obtain ⟨a, ha, hay, hya⟩ := h.tracks.returns y hy
        by_cases hav : a = v
        · subst hav
          refine ⟨b, (Visit.active_complete_iff U a b).mpr ⟨hbv, hb⟩, by omega, ?_⟩
          exact hya.trans (hvz.trans hzb)
        · exact ⟨a, (Visit.active_complete_iff U v a).mpr ⟨hav, ha⟩, hay, hya⟩ }
  have hadv : Advances V { U with done := v :: U.done } s t := { h.advances with }
  refine ⟨htracks, hadv, fun _ => ⟨z, hz, hzlow, hvz⟩, ?_,
    fun x hx hxnew y => h.le_of_edge hx hxnew⟩
  exact fun hout => absurd (h.suffix.subset (List.mem_cons_self ..)) hout

/-- `v` is no longer active, and nothing else has changed about that since before it was discovered.
-/
theorem active_complete_iff (h : Scans g v V s seen low U t) (hnew : v ∉ V.found) (a : Nat) :
    Visit.Active { U with done := v :: U.done } a ↔ V.Active a := by
  rw [Visit.active_complete_iff, h.active_iff]
  constructor
  · exact fun ⟨hne, ha⟩ => ha.resolve_left hne
  · exact fun ha => ⟨fun heq => hnew (heq ▸ ha.1), Or.inr ha⟩

section Newer

variable {newer : List Nat} (hstack : t.stack = newer ++ v :: s.stack)
include hstack

/-! The part `newer` of the stack is what was put there since `v` was discovered. -/

theorem mem_stack_iff (u : Nat) : u ∈ t.stack ↔ u ∈ newer ++ [v] ∨ u ∈ s.stack := by
  rw [hstack]
  simp [or_assoc]

theorem newer_sublist (h : Scans g v V s seen low U t) : (newer ++ [v]).Sublist U.found := by
  refine List.Sublist.trans ?_ h.tracks.stack_sublist
  rw [hstack, List.append_cons newer v s.stack]
  exact List.sublist_append_left ..

theorem notMem_newer (h : Scans g v V s seen low U t) : v ∉ newer := by
  intro hmem
  have hnodup := (h.newer_sublist hstack).nodup h.sound.found_nodup
  exact (List.disjoint_of_nodup_append hnodup) hmem (List.mem_singleton_self v)

theorem notMem_stack_of_newer (h : Scans g v V s seen low U t) {u : Nat} (hu : u ∈ newer ++ [v]) :
    u ∉ s.stack := by
  have hnodup := h.tracks.stack_sublist.nodup h.sound.found_nodup
  rw [hstack, List.append_cons] at hnodup
  exact fun hus => (List.disjoint_of_nodup_append hnodup) hu hus

theorem notMem_found_of_newer (h : Scans g v V s seen low U t) {u : Nat} (hu : u ∈ newer ++ [v]) :
    u ∉ V.found := by
  intro hold
  have hus := (mem_stack_iff hstack u).mpr (Or.inl hu)
  exact h.notMem_stack_of_newer hstack hu (h.advances.mem_stack u hus hold)

theorem together_of_newer (h : Scans g v V s seen low U t) (hback : ∀ y, V.Active y → g.Reaches y v)
    {u : Nat} (hu : u ∈ newer ++ [v]) : g.Together u v := by
  constructor
  · obtain ⟨a, ha, _, hua⟩ := h.tracks.returns u ((mem_stack_iff hstack u).mpr (Or.inl hu))
    rcases (h.active_iff a).mp ha with rfl | ha
    · exact hua
    · exact hua.trans (hback a ha)
  · rcases List.mem_append.mp hu with hu | hu
    · have hchain := h.tracks.chained
      rw [hstack, List.pairwise_append] at hchain
      exact hchain.2.2 u hu v (List.mem_cons_self ..)
    · obtain rfl := List.mem_singleton.mp hu
      exact Reaches.refl u

theorem mem_found_of_edge (h : Scans g v V s (g.successors v) low U t) {u w : Nat}
    (hu : u ∈ newer ++ [v]) (huw : w ∈ g.successors u) : w ∈ U.found := by
  by_cases huv : u = v
  · exact h.seen_found w (huv ▸ huw)
  · have hdone : u ∈ U.done := by
      by_contra hundone
      have hactive : U.Active u := ⟨(h.newer_sublist hstack).subset hu, hundone⟩
      have hold := ((h.active_iff u).mp hactive).resolve_left huv
      exact h.notMem_found_of_newer hstack hu hold.1
    exact h.sound.closed u hdone w huw

/-- If the low link of `v` is its own number, what was put on the stack since `v` was discovered is
its class. -/
theorem classified_cons (h : Scans g v V s (g.successors v) low U t) (hlow : low = t.number v)
    (hbase : Tracks g V s) (hback : ∀ y, V.Active y → g.Reaches y v) :
    Classified g ((newer ++ [v]) :: t.components) := by
  have hmem := mem_stack_iff hstack
  refine h.tracks.classified.cons (v := v) (by simp)
    (fun u => h.together_of_newer hstack hback) ?_ ?_
  · exact fun u hu => h.tracks.apart u ((hmem u).mpr (Or.inl hu))
  · intro u hu w huw
    rcases h.tracks.covered w (h.mem_found_of_edge hstack hu huw) with hw | hw
    · refine Or.inl (((hmem w).mp hw).resolve_right fun hws => ?_)
      -- an edge to what was on the stack before `v` would have lowered the low link
      have hle :=
        h.le_of_edge ((hmem u).mpr (Or.inl hu)) (h.notMem_found_of_newer hstack hu) huw hws
      have hnumber := h.advances.number_eq w (hbase.stack_sublist.subset hws)
      have hcount := hbase.number_le w
      have hv := h.number_eq
      omega
    · exact Or.inr hw

theorem tracks_close (h : Scans g v V s (g.successors v) low U t) (hlow : low = t.number v)
    (hbase : Tracks g V s) (hnew : v ∉ V.found) (hback : ∀ y, V.Active y → g.Reaches y v) :
    Tracks g { U with done := v :: U.done } (t.close v) := by
  have hv := h.notMem_newer hstack
  have hmem := mem_stack_iff hstack
  have hsub := h.newer_sublist hstack
  have hfresh : ∀ u ∈ newer ++ [v], u ∉ s.stack := fun u => h.notMem_stack_of_newer hstack
  have hactive := h.active_complete_iff hnew
  have hstack' := stack_close hstack hv
  have hcomponents := components_close hstack hv
  refine { fits := h.tracks.fits.close v, number_eq_zero_iff := h.tracks.number_eq_zero_iff,
           number_le := h.tracks.number_le, isWaiting_iff := ?waiting, stack_sublist := ?sublist,
           active_mem := ?active, chained := hstack' ▸ hbase.chained, returns := ?returns,
           classified := hcomponents ▸ h.classified_cons hstack hlow hbase hback,
           component_sublist := ?components, covered := ?covered, apart := ?apart }
  case waiting =>
    intro u
    rw [h.tracks.fits.isWaiting_close hstack hv
      fun w hw => h.sound.bounded w (hsub.subset hw), hstack']
    by_cases hu : u ∈ newer ++ [v]
    · rw [if_pos hu]
      simp [hfresh u hu]
    · rw [if_neg hu, h.tracks.isWaiting_iff u, hmem u]
      exact ⟨fun hor => hor.resolve_left hu, Or.inr⟩
  case sublist =>
    rw [hstack']
    exact h.advances.suffix.sublist.trans h.tracks.stack_sublist
  case active =>
    intro u hu
    rw [hstack']
    exact hbase.active_mem u ((hactive u).mp hu)
  case returns =>
    intro y hy
    rw [hstack'] at hy
    obtain ⟨a, ha, hle, hya⟩ := hbase.returns y hy
    refine ⟨a, (hactive a).mpr ha, ?_, hya⟩
    rw [number_close, number_close, h.advances.number_eq a ha.1,
      h.advances.number_eq y (hbase.stack_sublist.subset hy)]
    exact hle
  case components =>
    intro C hC
    rw [hcomponents] at hC
    rcases List.mem_cons.mp hC with rfl | hC
    · exact hsub
    · exact h.tracks.component_sublist C hC
  case covered =>
    intro u hu
    rw [hstack', hcomponents, List.flatten_cons, List.mem_append]
    rcases h.tracks.covered u hu with hu | hu
    · exact ((hmem u).mp hu).symm.imp id Or.inl
    · exact Or.inr (Or.inr hu)
  case apart =>
    intro u hu
    rw [hstack'] at hu
    rw [hcomponents, List.flatten_cons, List.mem_append, not_or]
    exact ⟨fun hin => hfresh u hin hu, h.tracks.apart u (h.advances.suffix.subset hu)⟩

end Newer

/-- The search completes the component of `v` if nothing discovered earlier can be reached. -/
theorem close (h : Scans g v V s (g.successors v) (t.lowLink v) U t)
    (hlow : t.lowLink v = t.number v) (hbase : Tracks g V s) (hnew : v ∉ V.found)
    (hback : ∀ y, V.Active y → g.Reaches y v) :
    Swept g v V s { U with done := v :: U.done } (t.close v) := by
  obtain ⟨newer, hsplit⟩ := h.suffix
  have hstack := hsplit.symm
  have hstack' := stack_close hstack (h.notMem_newer hstack)
  have hadv : Advances V { U with done := v :: U.done } s (t.close v) :=
    { h.advances with
      suffix := hstack' ▸ List.suffix_rfl
      mem_stack := fun u hu _ => hstack' ▸ hu }
  refine ⟨h.tracks_close hstack hlow hbase hnew hback, hadv, ?_, fun _ => hlow, ?_⟩
  · intro hin
    rw [hstack'] at hin
    exact absurd hin (h.notMem_stack_of_newer hstack (by simp))
  · intro x hx hxnew
    rw [hstack'] at hx
    exact absurd (hbase.stack_sublist.subset hx) hxnew

end Scans

end Sweep

open Sweep

def meet (g : Graph) (n v : Nat) (s : Sweep) (w : Nat) : Sweep :=
  if s.number w = 0 then (g.sweep n w s).lower v ((g.sweep n w s).lowLink w)
  else if s.isWaiting w then s.lower v (s.number w)
  else s

theorem sweep_succ (g : Graph) (n v : Nat) (s : Sweep) :
    g.sweep (n + 1) v s =
      let t := (g.successors v).foldl (g.meet n v) (s.discover v)
      if t.lowLink v = t.number v then t.close v else t := rfl

def SweepSpec (g : Graph) (n : Nat) : Prop :=
  ∀ (v : Nat) (V : Visit) (s : Sweep), V.Sound g → Tracks g V s → v < g.size → v ∉ V.found →
    (∀ y, V.Active y → g.Reaches y v) → g.size ≤ n + V.found.length →
    Swept g v V s (g.visit n v V) (g.sweep n v s)

section Loop

variable {n v : Nat} {V : Visit} {s : Sweep}

theorem meet_spec (hg : g.WellFormed) (ih : SweepSpec g n) (hnew : v ∉ V.found)
    (hback : ∀ y, V.Active y → g.Reaches y v) {seen : List Nat} {w : Nat} {U : Visit} {t : Sweep}
    (h : Scans g v V s seen (t.lowLink v) U t) (hw : w ∈ g.successors v)
    (hfuel : g.size ≤ n + U.found.length) :
    Scans g v V s (seen ++ [w]) ((g.meet n v t w).lowLink v) (g.visit n w U) (g.meet n v t w) := by
  have hv : v < g.size := h.sound.bounded v h.mem_found
  by_cases hfound : w ∈ U.found
  · have hnumber : t.number w ≠ 0 := fun hzero => (h.tracks.number_eq_zero_iff w).mp hzero hfound
    rw [visit_of_mem hfound, meet, if_neg hnumber]
    by_cases hwait : t.isWaiting w
    · rw [if_pos hwait, h.tracks.fits.lowLink_lower hv, if_pos rfl]
      exact (h.meet hw ((h.tracks.isWaiting_iff w).mp hwait)).lower hnew _
    · rw [if_neg hwait]
      exact h.pass hfound (mt (h.tracks.isWaiting_iff w).mpr hwait)
  · have hback' : ∀ y, U.Active y → g.Reaches y w := by
      intro y hy
      rcases (h.active_iff y).mp hy with rfl | hy
      · exact Reaches.of_edge hw
      · exact (hback y hy).trans (Reaches.of_edge hw)
    have hswept := ih w U t h.sound h.tracks (hg v w hw) hfound hback' hfuel
    obtain ⟨hsound, hext, hmem⟩ := visit_spec hg n w U h.sound (hg v w hw) hfuel
    rw [meet, if_pos ((h.tracks.number_eq_zero_iff w).mpr hfound),
      hswept.tracks.fits.lowLink_lower hv,
      if_pos rfl, hswept.advances.lowLink_eq v h.mem_found]
    exact (h.descend hw hfound hsound hext.active_iff hmem hswept).lower hnew _

/-- Going through successors of `v`, one after the other. -/
theorem foldl_meet_spec (hg : g.WellFormed) (ih : SweepSpec g n) (hnew : v ∉ V.found)
    (hback : ∀ y, V.Active y → g.Reaches y v) (ws : List Nat) :
    ∀ (seen : List Nat) (U : Visit) (t : Sweep), (∀ w ∈ ws, w ∈ g.successors v) →
      Scans g v V s seen (t.lowLink v) U t → g.size ≤ n + U.found.length →
      let t' := ws.foldl (g.meet n v) t
      Scans g v V s (seen ++ ws) (t'.lowLink v) (ws.foldl (fun U w => g.visit n w U) U) t' := by
  induction ws with
  | nil =>
    intro seen U t _ h _
    rw [List.append_nil]
    exact h
  | cons w ws ihws =>
    intro seen U t hws h hfuel
    have hw := hws w (List.mem_cons_self ..)
    have hlen := (visit_spec hg n w U h.sound (hg v w hw) hfuel).2.1.suffix.length_le
    rw [List.append_cons]
    exact ihws (seen ++ [w]) (g.visit n w U) (g.meet n v t w)
      (fun x hx => hws x (List.mem_cons_of_mem _ hx))
      (meet_spec hg ih hnew hback h hw hfuel) (by omega)

end Loop

theorem sweep_spec (hg : g.WellFormed) (n : Nat) : SweepSpec g n := by
  induction n with
  | zero =>
    intro v V s hV _ hv hnew _ hfuel
    exact absurd (hV.mem_found_of_full (by omega) hv) hnew
  | succ n ih =>
    intro v V s hV h hv hnew hback hfuel
    have hloop := foldl_meet_spec hg ih hnew hback (g.successors v) [] _ _ (fun _ hw => hw)
      (Scans.start hV h hv hnew hback) (by simp only [List.length_cons]; omega)
    rw [visit_succ_of_notMem hnew, sweep_succ]
    dsimp only
    split
    · exact hloop.close ‹_› h hnew hback
    · exact hloop.leave ‹_›

end Implicits.Graph
