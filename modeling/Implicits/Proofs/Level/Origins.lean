import Implicits.Proofs.Level.Consistency

/-!
What the check of level constraints depends on: which levels are related, whether strictly, and in
which order this is first asked for. Origins and repetitions change nothing but the explanation of a
failure.
-/
namespace Implicits

section EraseDups

variable {α : Type} [DecidableEq α]

theorem eraseDups_concat (l : List α) (x : α) :
    (l ++ [x]).eraseDups = l.eraseDups ++ if x ∈ l then [] else [x] := by
  rw [List.eraseDups_append, List.removeAll]
  by_cases hx : x ∈ l
  · simp [hx]
  · simp [hx, List.eraseDups_cons]

theorem eraseDups_filter (p : α → Bool) (l : List α) :
    (l.filter p).eraseDups = l.eraseDups.filter p := by
  induction l using List.reverseRecOn with
  | nil => rfl
  | append_singleton l x ih =>
    rw [List.filter_append, eraseDups_concat, List.filter_append, ← ih]
    by_cases hp : p x = true
    · rw [List.filter_singleton, hp, cond_true, eraseDups_concat]
      by_cases hx : x ∈ l
      · simp [hx, hp]
      · simp [hx, hp]
    · simp [hp, apply_ite]

/-- Elements of a second list count where the first one lacks them. -/
theorem eraseDups_append_eq (l r : List α) :
    (l ++ r).eraseDups = l.eraseDups ++ r.eraseDups.filter fun x => !l.eraseDups.elem x := by
  have hmem : (fun x => !l.eraseDups.elem x) = fun x => !l.elem x := by
    funext x
    simp
  rw [List.eraseDups_append, List.removeAll, eraseDups_filter, hmem]

/-- A fold that ignores what it has met before ignores repetitions. -/
theorem foldl_eraseDups {β : Type} {f : β → α → β} (b : β)
    (hf : ∀ l x, x ∈ l → f (List.foldl f b l) x = List.foldl f b l) (l : List α) :
    l.eraseDups.foldl f b = l.foldl f b := by
  induction l using List.reverseRecOn with
  | nil => rfl
  | append_singleton l x ih =>
    rw [eraseDups_concat, List.foldl_append, ih, List.foldl_append]
    by_cases hx : x ∈ l
    · rw [if_pos hx]
      exact (hf l x hx).symm
    · rw [if_neg hx]

end EraseDups

def Constraint.bare (c : Constraint) : Constraint := { c with origin := "" }

/-- What constraints ask for, each demand once, in the order of their first appearance. -/
def demands (cs : List Constraint) : List Constraint := (cs.map Constraint.bare).eraseDups

section Demands

variable {cs ds cs' ds' : List Constraint}

theorem mem_demands {d : Constraint} : d ∈ demands cs ↔ ∃ c ∈ cs, c.bare = d := by
  rw [demands, List.mem_eraseDups, List.mem_map]

theorem bare_mem_demands {c : Constraint} (hc : c ∈ cs) : c.bare ∈ demands cs :=
  mem_demands.mpr ⟨c, hc, rfl⟩

theorem demands_eq_nil_iff : demands cs = [] ↔ cs = [] := by
  constructor
  · intro h
    cases cs with
    | nil => rfl
    | cons c cs => simpa [h] using bare_mem_demands (List.mem_cons_self (a := c) (l := cs))
  · rintro rfl
    rfl

theorem demands_append (cs ds : List Constraint) :
    demands (cs ++ ds) = demands cs ++ (demands ds).filter fun c => !(demands cs).elem c := by
  rw [demands, List.map_append, eraseDups_append_eq]
  rfl

theorem demands_append_congr (hcs : demands cs = demands cs') (hds : demands ds = demands ds') :
    demands (cs ++ ds) = demands (cs' ++ ds') := by
  rw [demands_append, demands_append, hcs, hds]

theorem demands_filter_isTrivial (cs : List Constraint) :
    demands (cs.filter (!·.isTrivial)) = (demands cs).filter (!·.isTrivial) := by
  rw [demands, demands, ← eraseDups_filter, List.filter_map]
  rfl

/-- A demand that is met already adds nothing. -/
theorem demands_concat_of_mem {c : Constraint} (hc : c.bare ∈ demands cs) :
    demands (cs ++ [c]) = demands cs := by
  rw [demands, List.map_append, List.map_singleton, eraseDups_concat, if_pos, List.append_nil]
  · rfl
  · exact List.mem_eraseDups.mp hc

end Demands

namespace LevelGraph

def Edge.bare (e : Edge) : Edge := { e with constraint := e.constraint.bare }

theorem map_bare_insertEdge (edges : List Edge) (e : Edge) :
    (insertEdge edges e).map Edge.bare = insertEdge (edges.map Edge.bare) e.bare := by
  have hany : (edges.map Edge.bare).any e.bare.sameEnds = edges.any e.sameEnds := by
    rw [List.any_map]
    rfl
  unfold insertEdge
  rw [hany]
  split
  · rw [List.map_map, List.map_map]
    refine List.map_congr_left fun f _ => ?_
    change Edge.bare (if _ then _ else _) = if _ then _ else _
    rw [apply_ite Edge.bare]
    rfl
  · rw [List.map_append, List.map_singleton]

theorem map_bare_foldl_insertEdge (added edges : List Edge) :
    (added.foldl insertEdge edges).map Edge.bare =
      (added.map Edge.bare).foldl insertEdge (edges.map Edge.bare) := by
  induction added generalizing edges with
  | nil => rfl
  | cons e added ih => rw [List.foldl_cons, ih, map_bare_insertEdge, List.map_cons, List.foldl_cons]

/-- An edge list that an edge would not change. -/
structure Covers (edges : List Edge) (e : Edge) : Prop where
  known : edges.any e.sameEnds = true
  strict : ∀ f ∈ edges, e.sameEnds f = true → e.constraint.strict = true →
    f.constraint.strict = true

theorem Covers.insertEdge_eq {edges : List Edge} {e : Edge} (h : Covers edges e) :
    insertEdge edges e = edges := by
  rw [insertEdge, if_pos h.known]
  refine (List.map_congr_left fun f hf => ?_).trans (List.map_id edges)
  rw [if_neg]
  · rfl
  · simp only [Bool.and_eq_true, Bool.not_eq_true', not_and, Bool.not_eq_false]
    exact fun ⟨hends, hstrict⟩ => h.strict f hf hends hstrict

theorem covers_insertEdge (edges : List Edge) (e : Edge) : Covers (insertEdge edges e) e := by
  have hself : e.sameEnds e = true := by simp [Edge.sameEnds]
  unfold insertEdge
  split
  · rename_i hknown
    obtain ⟨f, hf, hends⟩ := List.any_eq_true.mp hknown
    refine ⟨?_, ?_⟩
    · rw [List.any_map]
      refine List.any_eq_true.mpr ⟨f, hf, ?_⟩
      simp only [Function.comp_apply]
      split
      · exact hself
      · exact hends
    · intro g hg hgends hstrict
      obtain ⟨f, -, rfl⟩ := List.mem_map.mp hg
      split
      · exact hstrict
      · rename_i hkept
        rw [if_neg hkept] at hgends
        simpa [hgends, hstrict] using hkept
  · rename_i hknown
    refine ⟨by simp [hself], ?_⟩
    intro f hf hends hstrict
    rcases List.mem_append.mp hf with hf | hf
    · exact absurd (List.any_eq_true.mpr ⟨f, hf, hends⟩) hknown
    · rw [List.mem_singleton.mp hf]
      exact hstrict

/-- Later edges take the place of earlier ones only to be strict. -/
theorem Covers.insertEdge {edges : List Edge} {e : Edge} (h : Covers edges e) (d : Edge) :
    Covers (insertEdge edges d) e := by
  unfold LevelGraph.insertEdge
  split
  · constructor
    · obtain ⟨f, hf, hends⟩ := List.any_eq_true.mp h.known
      refine List.any_eq_true.mpr ⟨_, List.mem_map_of_mem hf, ?_⟩
      split
      · rename_i hreplaced
        simp only [Bool.and_eq_true] at hreplaced
        have hdf := hreplaced.1.1
        simp only [Edge.sameEnds, Bool.and_eq_true, beq_iff_eq] at hends hdf ⊢
        omega
      · exact hends
    · intro g hg hgends hstrict
      obtain ⟨f, hf, rfl⟩ := List.mem_map.mp hg
      split
      · rename_i hreplaced
        simp only [Bool.and_eq_true] at hreplaced
        exact hreplaced.1.2
      · rename_i hkept
        rw [if_neg hkept] at hgends
        exact h.strict f hf hgends hstrict
  · rename_i hnew
    constructor
    · rw [List.any_append, h.known, Bool.true_or]
    · intro f hf hends hstrict
      rcases List.mem_append.mp hf with hf | hf
      · exact h.strict f hf hends hstrict
      · -- The appended edge has ends of its own.
        obtain rfl := List.mem_singleton.mp hf
        obtain ⟨g, hg, hgends⟩ := List.any_eq_true.mp h.known
        refine absurd (List.any_eq_true.mpr ⟨g, hg, ?_⟩) hnew
        simp only [Edge.sameEnds, Bool.and_eq_true, beq_iff_eq] at hends hgends ⊢
        omega

theorem covers_foldl_insertEdge {added edges : List Edge} {e : Edge}
    (h : e ∈ added ∨ Covers edges e) : Covers (added.foldl insertEdge edges) e := by
  induction added generalizing edges with
  | nil => exact h.resolve_left (by simp)
  | cons d added ih =>
    rw [List.foldl_cons]
    apply ih
    rcases h with h | h
    · rcases List.mem_cons.mp h with rfl | h
      · exact .inr (covers_insertEdge edges e)
      · exact .inl h
    · exact .inr (h.insertEdge d)

structure SameDemands (lg lg' : LevelGraph) : Prop where
  nodes : lg'.nodes = lg.nodes
  edges : lg'.edges.map Edge.bare = lg.edges.map Edge.bare

theorem ofConstraints_bare (cs : List Constraint) :
    (ofConstraints cs).SameDemands (ofConstraints (cs.map Constraint.bare)) := by
  have hnodes : (ofConstraints (cs.map Constraint.bare)).nodes = (ofConstraints cs).nodes := by
    simp only [ofConstraints, List.flatMap_map]
    rfl
  refine ⟨hnodes, ?_⟩
  simp only [ofConstraints] at hnodes ⊢
  rw [hnodes, map_bare_foldl_insertEdge, map_bare_foldl_insertEdge]
  simp only [List.map_append, List.map_map]
  rfl

/-- The levels of a constraint list do not depend on repetitions. -/
theorem distinctLevels_eraseDups (cs : List Constraint) :
    distinctLevels cs.eraseDups = distinctLevels cs := by
  unfold distinctLevels
  induction cs using List.reverseRecOn with
  | nil => rfl
  | append_singleton cs c ih =>
    rw [eraseDups_concat, List.flatMap_append, List.flatMap_append, eraseDups_append_eq, ih,
      eraseDups_append_eq (cs.flatMap Constraint.ends)]
    by_cases hc : c ∈ cs
    · have hends : ∀ l ∈ c.ends, l ∈ cs.flatMap Constraint.ends :=
        fun l hl => List.mem_flatMap.mpr ⟨c, hc, hl⟩
      have hold : (([c].flatMap Constraint.ends).eraseDups.filter
          fun l => !(cs.flatMap Constraint.ends).eraseDups.elem l) = [] := by
        rw [List.filter_eq_nil_iff]
        intro l hl
        have hl := hends l (by simpa using List.mem_eraseDups.mp hl)
        simpa [List.elem_eq_mem] using hl
      rw [if_pos hc, hold]
      rfl
    · rw [if_neg hc]

theorem ofConstraints_eraseDups (cs : List Constraint) :
    ofConstraints cs.eraseDups = ofConstraints cs := by
  have hnodes := distinctLevels_eraseDups cs
  unfold distinctLevels at hnodes
  simp only [ofConstraints, hnodes, List.map_append, List.foldl_append]
  congr 2
  rw [List.foldl_map, List.foldl_map]
  refine foldl_eraseDups _ (fun l c hc => ?_) cs
  rw [← List.foldl_map (g := insertEdge)]
  exact (covers_foldl_insertEdge (.inl (List.mem_map_of_mem hc))).insertEdge_eq

namespace SameDemands

variable {lg lg' : LevelGraph}

theorem graph (h : lg.SameDemands lg') : lg'.graph = lg.graph := by
  have hends : ∀ edges : List Edge, edges.map (fun e => (e.source, e.target)) =
      (edges.map Edge.bare).map fun e => (e.source, e.target) := by
    intro edges
    rw [List.map_map]
    rfl
  rw [LevelGraph.graph, LevelGraph.graph, h.nodes, hends, h.edges, ← hends]

theorem exists_edge (h : lg.SameDemands lg') {e : Edge} (he : e ∈ lg'.edges) :
    ∃ f ∈ lg.edges, f.bare = e.bare := by
  have hmem : e.bare ∈ lg.edges.map Edge.bare := h.edges ▸ List.mem_map_of_mem he
  exact List.mem_map.mp hmem

theorem symm (h : lg.SameDemands lg') : lg'.SameDemands lg := ⟨h.nodes.symm, h.edges.symm⟩

end SameDemands

def values (placed : List (Nat × Placement)) : List (Nat × Int64) :=
  placed.map fun x => (x.1, x.2.value)

theorem lookup_values (placed : List (Nat × Placement)) (i : Nat) :
    (values placed).lookup i = (placed.lookup i).map (·.value) := by
  induction placed with
  | nil => rfl
  | cons x placed ih =>
    obtain ⟨j, p⟩ := x
    simp only [values, List.map_cons, List.lookup_cons] at ih ⊢
    cases i == j with
    | true => rfl
    | false => exact ih

def raiseValue (known : List (Nat × Int64)) (value : Int64) (e : Edge) : Int64 :=
  match known.lookup e.source with
  | none => value
  | some v =>
    let lower := if e.constraint.strict then v + 1 else v
    if value < lower then lower else value

theorem raise_eq_raiseValue (placed : List (Nat × Placement)) (bound : Placement) (e : Edge) :
    (raise placed bound e).value = raiseValue (values placed) bound.value e.bare := by
  unfold raise raiseValue
  rw [lookup_values]
  change _ = match (placed.lookup e.source).map (·.value) with
    | none => bound.value
    | some v =>
      let lower := if e.constraint.strict then v + 1 else v
      if bound.value < lower then lower else bound.value
  cases placed.lookup e.source with
  | none => rfl
  | some p =>
    simp only [Option.map_some, apply_ite Placement.value]

theorem value_foldl_raise (placed : List (Nat × Placement)) (edges : List Edge)
    (bound : Placement) :
    (edges.foldl (raise placed) bound).value =
      (edges.map Edge.bare).foldl (raiseValue (values placed)) bound.value := by
  induction edges generalizing bound with
  | nil => rfl
  | cons e edges ih => rw [List.foldl_cons, ih, raise_eq_raiseValue, List.map_cons, List.foldl_cons]

namespace SameDemands

variable {lg lg' : LevelGraph}

theorem incoming (h : lg.SameDemands lg') (comp : List Nat) :
    (comp.flatMap fun v => lg'.edges.filter (·.target == v)).map Edge.bare =
      (comp.flatMap fun v => lg.edges.filter (·.target == v)).map Edge.bare := by
  have hfilter : ∀ (edges : List Edge) (v : Nat), (edges.filter (·.target == v)).map Edge.bare =
      (edges.map Edge.bare).filter (·.target == v) := by
    intro edges v
    rw [List.filter_map]
    rfl
  simp only [List.map_flatMap, hfilter, h.edges]

/-- Components are placed at the same values, or refused alike. -/
theorem place (h : lg.SameDemands lg') {placed placed' : List (Nat × Placement)}
    (hplaced : values placed' = values placed) (comp : List Nat) :
    (lg'.place placed' comp).toOption.map values = (lg.place placed comp).toOption.map values := by
  have hbound : (((comp.flatMap fun v => lg'.edges.filter (·.target == v)).foldl (raise placed')
      ⟨-1, []⟩).value) = ((comp.flatMap fun v => lg.edges.filter (·.target == v)).foldl
        (raise placed) ⟨-1, []⟩).value := by
    rw [value_foldl_raise, value_foldl_raise, h.incoming, hplaced]
  have hfixed : lg'.fixedLevel? comp = lg.fixedLevel? comp := by
    simp only [fixedLevel?, h.nodes]
  have hvalues : ∀ (v : Int64) (chain chain' : List Constraint),
      values (comp.map (·, ⟨v, chain'⟩) ++ placed') =
      values (comp.map (·, ⟨v, chain⟩) ++ placed) := by
    intro v chain chain'
    unfold values at hplaced ⊢
    rw [List.map_append, List.map_append, hplaced, List.map_map, List.map_map]
    rfl
  simp only [LevelGraph.place, hfixed, hbound]
  generalize (if 0 < (_ : Placement).value then _ else 0 : Int64) = least
  cases lg.fixedLevel? comp with
  | none => exact congrArg some (hvalues _ _ _)
  | some k =>
    by_cases hk : k < least
    · simp only [if_pos hk]
      rfl
    · simp only [if_neg hk]
      exact congrArg some (hvalues _ _ _)

theorem foldlM_place (h : lg.SameDemands lg') (comps : List (List Nat))
    {placed placed' : List (Nat × Placement)} (hplaced : values placed' = values placed) :
    (comps.foldlM lg'.place placed').toOption.map values =
      (comps.foldlM lg.place placed).toOption.map values := by
  induction comps generalizing placed placed' with
  | nil => exact congrArg some hplaced
  | cons comp comps ih =>
    have hstep := h.place hplaced comp
    simp only [List.foldlM_cons, bind, Except.bind]
    cases hx : lg.place placed comp with
    | error e =>
      cases hy : lg'.place placed' comp with
      | error e' => rfl
      | ok next' => simp [hx, hy, Except.toOption] at hstep
    | ok next =>
      cases hy : lg'.place placed' comp with
      | error e' => simp [hx, hy, Except.toOption] at hstep
      | ok next' =>
        rw [hx, hy] at hstep
        exact ih (Option.some.inj hstep)

theorem assignment (h : lg.SameDemands lg') (comps : List (List Nat))
    {placed placed' : List (Nat × Placement)} (hplaced : values placed' = values placed) :
    lg'.assignment comps placed' = lg.assignment comps placed := by
  have hlookup : ∀ i, (placed'.lookup i).map (·.value) = (placed.lookup i).map (·.value) := by
    intro i
    rw [← lookup_values, ← lookup_values, hplaced]
  have hrep : ∀ i v, lg'.representative comps i v = lg.representative comps i v := by
    intro i v
    simp only [representative, h.nodes]
  unfold LevelGraph.assignment
  rw [h.nodes]
  congr 2
  funext ⟨l, i⟩
  cases l with
  | const k => rfl
  | var v =>
    have hentry : ∀ p : Option Placement,
        p.map (fun p => (⟨v, p.value, lg.representative comps i v⟩ : Assignment.Entry)) =
          (p.map (·.value)).map fun k => ⟨v, k, lg.representative comps i v⟩ := by
      intro p
      rw [Option.map_map]
      rfl
    simp only [hrep]
    rw [hentry, hlookup, ← hentry]

end SameDemands

end LevelGraph

open LevelGraph

theorem strictCycle?_bare (cs : List Constraint) (comps : List (List Nat)) :
    (ofConstraints (cs.map Constraint.bare)).strictCycle?
        (ofConstraints (cs.map Constraint.bare)).graph comps = none ↔
      (ofConstraints cs).strictCycle? (ofConstraints cs).graph comps = none := by
  have hsame := ofConstraints_bare cs
  have htransfer : ∀ {lg lg' : LevelGraph}, lg.SameDemands lg' →
      (∀ comp ∈ comps, ∀ e ∈ lg.edges, e.source ∈ comp → e.target ∈ comp →
        e.constraint.strict = false) →
      ∀ comp ∈ comps, ∀ e ∈ lg'.edges, e.source ∈ comp → e.target ∈ comp →
        e.constraint.strict = false := by
    intro lg lg' h hloose comp hcomp e he hsource htarget
    obtain ⟨f, hf, hbare⟩ := h.exists_edge he
    have hstrict : f.bare.constraint.strict = e.bare.constraint.strict := by rw [hbare]
    have hends : f.bare.source = e.bare.source ∧ f.bare.target = e.bare.target := by simp [hbare]
    simp only [Edge.bare, Constraint.bare] at hstrict hends
    rw [← hstrict]
    exact hloose comp hcomp f hf (hends.1 ▸ hsource) (hends.2 ▸ htarget)
  rw [strictCycle?_eq_none_iff (ofConstraints_represents _),
    strictCycle?_eq_none_iff (ofConstraints_represents _)]
  exact ⟨htransfer hsame.symm, htransfer hsame⟩

theorem checkLevels_bare (cs : List Constraint) :
    (checkLevels (cs.map Constraint.bare)).toOption = (checkLevels cs).toOption := by
  have hsame := ofConstraints_bare cs
  have hcycle := strictCycle?_bare cs (ofConstraints cs).graph.components
  rw [hsame.graph] at hcycle
  simp only [checkLevels, hsame.graph]
  cases hx : (ofConstraints cs).strictCycle? (ofConstraints cs).graph
      (ofConstraints cs).graph.components with
  | some chain =>
    rw [hx, iff_false_right (by simp)] at hcycle
    obtain ⟨chain', hy⟩ := Option.ne_none_iff_exists'.mp hcycle
    rw [hy]
    rfl
  | none =>
    simp only [hcycle.mpr hx]
    have hplaced := hsame.foldlM_place (ofConstraints cs).graph.components (Eq.refl (values []))
    cases hfold : (ofConstraints cs).graph.components.foldlM (ofConstraints cs).place [] with
    | error e =>
      cases hfold' : (ofConstraints cs).graph.components.foldlM
          (ofConstraints (cs.map Constraint.bare)).place [] with
      | error e' => rfl
      | ok placed' => simp [hfold, hfold', Except.toOption] at hplaced
    | ok placed =>
      cases hfold' : (ofConstraints cs).graph.components.foldlM
          (ofConstraints (cs.map Constraint.bare)).place [] with
      | error e' => simp [hfold, hfold', Except.toOption] at hplaced
      | ok placed' =>
        rw [hfold, hfold'] at hplaced
        exact congrArg some (hsame.assignment _ (Option.some.inj hplaced))

/-- Constraint lists with the same demands have the same assignment, or none. -/
theorem checkLevels_congr {cs ds : List Constraint} (h : demands cs = demands ds) :
    (checkLevels cs).toOption = (checkLevels ds).toOption := by
  have hdemands : ∀ cs, (checkLevels (demands cs)).toOption = (checkLevels cs).toOption := by
    intro cs
    rw [← checkLevels_bare cs, checkLevels, checkLevels, demands, ofConstraints_eraseDups]
  rw [← hdemands cs, h, hdemands ds]

namespace LevelStore

variable {s t : LevelStore}

/-- A store that has every constraint which it would not add again. -/
def Remembers (s : LevelStore) : Prop := ∀ c ∈ s.seen, c ∈ s.constraints

theorem Remembers.add (hs : s.Remembers) (c : Constraint) : (s.add c).Remembers := by
  unfold LevelStore.add
  split
  · exact hs
  · intro d hd
    rcases List.mem_cons.mp hd with rfl | hd
    · simp
    · exact List.mem_append_left _ (hs d hd)

theorem Remembers.demands_add (hs : s.Remembers) (c : Constraint) :
    demands (s.add c).constraints = demands (s.constraints ++ [c].filter (!·.isTrivial)) := by
  unfold LevelStore.add
  cases hc : c.isTrivial with
  | true => simp [hc]
  | false =>
    by_cases hseen : c ∈ s.seen
    · simp [hc, hseen, demands_concat_of_mem (bare_mem_demands (hs c hseen))]
    · simp [hc, hseen]

/-- Constraints that are taken over are asked for unless they are trivial. -/
theorem Remembers.importAll (hs : s.Remembers) (cs : List Constraint) :
    (s.importAll cs).Remembers ∧
      demands (s.importAll cs).constraints =
        demands (s.constraints ++ cs.filter (!·.isTrivial)) := by
  induction cs generalizing s with
  | nil => exact ⟨hs, by simp [LevelStore.importAll]⟩
  | cons c cs ih =>
    obtain ⟨hremembers, hdemands⟩ := ih (hs.add c)
    refine ⟨hremembers, hdemands.trans ?_⟩
    rw [demands_append_congr (hs.demands_add c) rfl, List.append_assoc, ← List.filter_append]
    rfl

structure SameDemands (s t : LevelStore) : Prop where
  owner : t.owner = s.owner
  ofDecl : t.ofDecl = s.ofDecl
  issued : t.issued = s.issued
  demands : demands t.constraints = demands s.constraints
  left : s.Remembers
  right : t.Remembers

/-- The names of variables do not depend on the constraints. -/
theorem importAll_names (s : LevelStore) (cs : List Constraint) : (s.importAll cs).owner = s.owner ∧
    (s.importAll cs).ofDecl = s.ofDecl ∧ (s.importAll cs).issued = s.issued := by
  induction cs generalizing s with
  | nil => exact ⟨rfl, rfl, rfl⟩
  | cons c cs ih =>
    have hadd : (s.add c).owner = s.owner ∧ (s.add c).ofDecl = s.ofDecl ∧
        (s.add c).issued = s.issued := by
      unfold LevelStore.add
      split
      · exact ⟨rfl, rfl, rfl⟩
      · exact ⟨rfl, rfl, rfl⟩
    exact ⟨(ih _).1.trans hadd.1, (ih _).2.1.trans hadd.2.1, (ih _).2.2.trans hadd.2.2⟩

namespace SameDemands

theorem of_empty {s : LevelStore} (hs : s.seen = []) : s.SameDemands s := by
  have hremembers : s.Remembers := by simp [Remembers, hs]
  exact ⟨rfl, rfl, rfl, rfl, hremembers, hremembers⟩

theorem withIssued (h : s.SameDemands t) (issued : List LevelVar) :
    SameDemands { s with issued } { t with issued } :=
  ⟨h.owner, h.ofDecl, rfl, h.demands, h.left, h.right⟩

theorem reset (h : s.SameDemands t) : s.reset.SameDemands t.reset :=
  ⟨h.owner, h.ofDecl, h.issued, rfl, by simp [Remembers, LevelStore.reset],
    by simp [Remembers, LevelStore.reset]⟩

/-- Both stores hand out the same variable. -/
theorem fresh (h : s.SameDemands t) : t.fresh.1 = s.fresh.1 ∧ s.fresh.2.SameDemands t.fresh.2 := by
  have hvar : t.fresh.1 = s.fresh.1 := by
    simp only [LevelStore.fresh, LevelStore.issue, LevelStore.nextId, h.owner, h.ofDecl, h.issued]
  refine ⟨hvar, h.owner, h.ofDecl, ?_, h.demands, h.left, h.right⟩
  change t.fresh.1 :: t.issued = s.fresh.1 :: s.issued
  rw [hvar, h.issued]

/-- Constraints are taken over alike, whatever their origins. -/
theorem importAll (h : s.SameDemands t) {cs ds : List Constraint}
    (hcs : Implicits.demands ds = Implicits.demands cs) :
    (s.importAll cs).SameDemands (t.importAll ds) := by
  obtain ⟨hleft, hdemands⟩ := h.left.importAll cs
  obtain ⟨hright, hdemands'⟩ := h.right.importAll ds
  obtain ⟨howner, hofDecl, hissued⟩ := importAll_names s cs
  obtain ⟨howner', hofDecl', hissued'⟩ := importAll_names t ds
  refine ⟨howner' ▸ howner ▸ h.owner, hofDecl' ▸ hofDecl ▸ h.ofDecl,
    hissued' ▸ hissued ▸ h.issued, ?_, hleft, hright⟩
  rw [hdemands, hdemands']
  refine demands_append_congr h.demands ?_
  rw [demands_filter_isTrivial, demands_filter_isTrivial, hcs]

theorem add (h : s.SameDemands t) (lo hi : Level) (strict : Bool) (origin origin' : String) :
    (s.add ⟨lo, hi, strict, origin⟩).SameDemands (t.add ⟨lo, hi, strict, origin'⟩) := by
  have hdemands : Implicits.demands [⟨lo, hi, strict, origin'⟩] =
      Implicits.demands [⟨lo, hi, strict, origin⟩] := rfl
  exact h.importAll hdemands

end SameDemands

end LevelStore

end Implicits
