import Implicits.Proofs.Level.Placement

/-!
The check of level constraints decides whether they can be satisfied, and the assignment it gives is
the least one that satisfies them.
-/
namespace Implicits

namespace LevelGraph

variable {lg : LevelGraph} {cs : List Constraint}

theorem cycleFrom?_eq_none_iff (h : lg.Represents cs) (g : Graph) (comp : List Nat) {e : Edge}
    (he : e ∈ lg.edges) : lg.cycleFrom? g comp e.source e.target = none ↔
      (e.target ∈ comp → e.constraint.strict = false) := by
  simp only [cycleFrom?, h.constraint?_eq he, Option.bind_eq_bind, Option.bind_some]
  by_cases hcycle : (comp.contains e.target && e.constraint.strict) = true
  · rw [if_pos hcycle]
    simp only [Bool.and_eq_true, List.contains_iff_mem] at hcycle
    simp [hcycle.1, hcycle.2]
  · rw [if_neg hcycle]
    simp only [Bool.and_eq_true, List.contains_iff_mem, not_and, Bool.not_eq_true] at hcycle
    simpa using hcycle

/-- No strict cycle is reported exactly when no strict edge stays inside a component. -/
theorem strictCycle?_eq_none_iff (h : lg.Represents cs) (comps : List (List Nat)) :
    lg.strictCycle? lg.graph comps = none ↔ ∀ comp ∈ comps, ∀ e ∈ lg.edges, e.source ∈ comp →
      e.target ∈ comp → e.constraint.strict = false := by
  simp only [strictCycle?, List.findSome?_eq_none_iff]
  constructor
  · intro hnone comp hcomp e he hsource
    have hsucc : e.target ∈ lg.graph.successors e.source :=
      (h.mem_successors_iff _ _).mpr ⟨e, he, rfl, rfl⟩
    exact (cycleFrom?_eq_none_iff h lg.graph comp he).mp (hnone comp hcomp _ hsource _ hsucc)
  · intro hloose comp hcomp v hv w hw
    obtain ⟨e, he, rfl, rfl⟩ := (h.mem_successors_iff v w).mp hw
    exact (cycleFrom?_eq_none_iff h lg.graph comp he).mpr (hloose comp hcomp e he hv)

/-- A strict edge inside a component contradicts every valuation. -/
theorem loose_of_satisfiable (h : lg.Represents cs) (hsat : Satisfiable cs) :
    ∀ comp ∈ lg.graph.components, ∀ e ∈ lg.edges, e.source ∈ comp → e.target ∈ comp →
      e.constraint.strict = false := by
  intro comp hcomp e he hsource htarget
  obtain ⟨v, hv⟩ := hsat
  obtain ⟨hmem, hlo, hhi⟩ := h.sound e he
  have hback : lg.graph.Reaches e.target e.source :=
    ((Graph.mem_component_iff h.graph_wellFormed hcomp htarget _).mp hsource).2.1
  have hle := h.value_le_of_reaches hv hback hhi hlo
  have hholds := (Constraint.holds_iff_gap v _).mp (hv _ hmem)
  by_contra hstrict
  have hgap : e.constraint.gap = 1 := by simpa [Constraint.gap] using hstrict
  omega

/-- From a concrete level a strict edge leads towards every larger one. -/
theorem exists_strict_edge_towards (h : lg.Represents cs) {nodes : List Level}
    (hnodup : nodes.Nodup) (horder : ∀ c ∈ levelOrder nodes, c ∈ cs) {a b : Int64}
    (ha : Level.const a ∈ nodes) (hb : Level.const b ∈ nodes) (hab : a < b) {i j : Nat}
    (hi : lg.nodes[i]? = some (.const a)) (hj : lg.nodes[j]? = some (.const b)) :
    ∃ e ∈ lg.edges, e.source = i ∧ e.constraint.strict = true ∧
      lg.graph.Reaches e.target j := by
  obtain ⟨a', hnext, hpath⟩ := exists_neighbour (sortedConsts_pairwise hnodup)
    ((mem_sortedConsts nodes a).mpr ha) ((mem_sortedConsts nodes b).mpr hb) hab
  -- Neighbouring concrete levels are joined by a strict edge.
  have hedge : ∀ x y, (x, y) ∈ (sortedConsts nodes).zip (sortedConsts nodes).tail →
      ∃ e ∈ lg.edges, lg.nodes[e.source]? = some (.const x) ∧
        lg.nodes[e.target]? = some (.const y) ∧ e.constraint.strict = true := by
    intro x y hxy
    have hmem : (⟨.const x, .const y, true, "level order"⟩ : Constraint) ∈ levelOrder nodes := by
      rw [levelOrder_eq]
      exact List.mem_map.mpr ⟨(x, y), hxy, rfl⟩
    obtain ⟨e, he, hlo, hhi, hstrict⟩ := h.complete _ (horder _ hmem)
    exact ⟨e, he, hlo, hhi, hstrict rfl⟩
  have hreach : ∀ k, lg.nodes[k]? = some (.const a') → lg.graph.Reaches k j := by
    clear hnext
    induction hpath using Relation.ReflTransGen.head_induction_on with
    | refl =>
      intro k hk
      rw [h.index_unique hk hj]
      exact Graph.Reaches.refl j
    | head hxy _ ih =>
      intro k hk
      obtain ⟨e, he, hlo, hhi, _⟩ := hedge _ _ hxy
      have hek : e.source = k := h.index_unique hlo hk
      have hstep : lg.graph.Reaches k e.target :=
        Graph.Reaches.of_edge ((h.mem_successors_iff _ _).mpr ⟨e, he, hek, rfl⟩)
      exact hstep.trans (ih e.target hhi)
  obtain ⟨e, he, hlo, hhi, hstrict⟩ := hedge _ _ hnext
  exact ⟨e, he, h.index_unique hlo hi, hstrict, hreach e.target hhi⟩

/-- Two concrete levels in one component would leave a strict edge inside it. -/
theorem single_of_loose (h : lg.Represents cs) {nodes : List Level} (hnodup : nodes.Nodup)
    (hnodes : ∀ (i : Nat) l, lg.nodes[i]? = some l → l ∈ nodes)
    (horder : ∀ c ∈ levelOrder nodes, c ∈ cs)
    {comp : List Nat} (hcomp : comp ∈ lg.graph.components)
    (hloose : ∀ e ∈ lg.edges, e.source ∈ comp → e.target ∈ comp → e.constraint.strict = false)
    {i j : Nat} (hi : i ∈ comp) (hj : j ∈ comp) {a b : Int64}
    (ha : lg.nodes[i]? = some (.const a)) (hb : lg.nodes[j]? = some (.const b)) : ¬ a < b := by
  intro hab
  obtain ⟨e, he, rfl, hstrict, hreach⟩ := exists_strict_edge_towards h hnodup horder
    (hnodes i _ ha) (hnodes j _ hb) hab ha hb
  have hback : lg.graph.Reaches j e.source :=
    ((Graph.mem_component_iff h.graph_wellFormed hcomp hj _).mp hi).2.1
  have hforth : lg.graph.Reaches e.source e.target :=
    Graph.Reaches.of_edge ((h.mem_successors_iff _ _).mpr ⟨e, he, rfl, rfl⟩)
  have htarget : e.target ∈ comp :=
    (Graph.mem_component_iff h.graph_wellFormed hcomp hi _).mpr
      ⟨by rw [h.size_graph]; exact h.target_lt he, hforth, hreach.trans hback⟩
  rw [hloose e he hi htarget] at hstrict
  exact absurd hstrict (by simp)

/-- The entry of a level variable is made from a vertex for it. -/
theorem exists_vertex_of_find? {comps : List (List Nat)} {placed : List (Nat × Placement)}
    {x : LevelVar} {e : Assignment.Entry} (he : (lg.assignment comps placed).find? x = some e) :
    ∃ i p, lg.nodes[i]? = some (.var x) ∧ placed.lookup i = some p ∧
      e = ⟨x, p.value, lg.representative comps i x⟩ := by
  have hx : e.levelVar = x := by simpa using List.find?_some he
  obtain ⟨⟨l, i⟩, hli, heq⟩ := List.mem_filterMap.mp (List.mem_of_find?_eq_some he)
  have hi : lg.nodes[i]? = some l := List.mem_zipIdx_iff_getElem?.mp hli
  cases l with
  | const k => simp at heq
  | var y =>
    obtain ⟨p, hp, rfl⟩ := Option.map_eq_some_iff.mp heq
    obtain rfl : y = x := hx
    exact ⟨i, p, hi, hp, rfl⟩

/-- The value of a level variable is that of a vertex for it. -/
theorem exists_vertex_of_level? {comps : List (List Nat)} {placed : List (Nat × Placement)}
    {x : LevelVar} {k : Int64} (hk : (lg.assignment comps placed).level? x = some k) :
    ∃ i p, lg.nodes[i]? = some (.var x) ∧ placed.lookup i = some p ∧ k = p.value := by
  obtain ⟨e, he, rfl⟩ := Option.map_eq_some_iff.mp hk
  obtain ⟨i, p, hi, hp, rfl⟩ := exists_vertex_of_find? he
  exact ⟨i, p, hi, hp, rfl⟩

/-- The entry of a level variable holds the value that its vertex was given. -/
theorem level?_assignment (h : lg.Represents cs) (comps : List (List Nat))
    (placed : List (Nat × Placement)) {i : Nat} {x : LevelVar} {p : Placement}
    (hi : lg.nodes[i]? = some (.var x)) (hp : placed.lookup i = some p) :
    (lg.assignment comps placed).level? x = some p.value := by
  have hmem : ⟨x, p.value, lg.representative comps i x⟩ ∈ (lg.assignment comps placed).entries :=
    List.mem_filterMap.mpr ⟨(.var x, i), List.mem_zipIdx_iff_getElem?.mpr hi, by simp [hp]⟩
  have hsome : ((lg.assignment comps placed).find? x).isSome := by
    rw [Assignment.find?, List.find?_isSome]
    exact ⟨_, hmem, by simp⟩
  obtain ⟨e, he⟩ := Option.isSome_iff_exists.mp hsome
  have hlevel : (lg.assignment comps placed).level? x = some e.value := by
    simp [Assignment.level?, he]
  obtain ⟨j, q, hj, hq, hvalue⟩ := exists_vertex_of_level? hlevel
  have hji : j = i := h.index_unique hj hi
  subst hji
  obtain rfl := Option.some.inj (hq.symm.trans hp)
  rw [hlevel, hvalue]

theorem eval?_assignment (h : lg.Represents cs) {largest : Int} {comps : List (List Nat)}
    {placed : List (Nat × Placement)} (hplaced : Placed lg cs largest lg.graph.components placed)
    {i : Nat} {l : Level} {p : Placement} (hi : lg.nodes[i]? = some l)
    (hp : placed.lookup i = some p) : (lg.assignment comps placed).eval? l = some p.value := by
  cases l with
  | const k => simp [Assignment.eval?, hplaced.concrete i p k hp hi]
  | var x => exact level?_assignment h comps placed hi hp

end LevelGraph

/-- Concrete levels are not negative and leave room for one step per level. -/
structure Moderate (cs : List Constraint) : Prop where
  nonneg : ∀ k, Level.const k ∈ distinctLevels cs → 0 ≤ k
  room : largestLevel cs + (distinctLevels cs).length < 2 ^ 63

theorem moderate_iff {cs : List Constraint} : Moderate cs ↔
    ((distinctLevels cs).filterMap Level.const?).all (fun k => decide (0 ≤ k)) = true ∧
      largestLevel cs + (distinctLevels cs).length < 2 ^ 63 := by
  have hmem : ∀ k, k ∈ (distinctLevels cs).filterMap Level.const? ↔
      Level.const k ∈ distinctLevels cs := by
    intro k
    rw [List.mem_filterMap]
    constructor
    · rintro ⟨l, hl, hk⟩
      cases l with
      | const j => exact Option.some.inj hk ▸ hl
      | var v => cases hk
    · exact fun hk => ⟨.const k, hk, rfl⟩
  simp only [List.all_eq_true, decide_eq_true_eq]
  constructor
  · exact fun h => ⟨fun k hk => h.nonneg k ((hmem k).mp hk), h.room⟩
  · exact fun h => ⟨fun k hk => h.1 k ((hmem k).mpr hk), h.2⟩

instance (cs : List Constraint) : Decidable (Moderate cs) := decidable_of_iff _ moderate_iff.symm

namespace LevelGraph

variable {cs : List Constraint}

theorem satisfies_graphConstraints {v : Valuation} (hv : v.Satisfies cs) :
    v.Satisfies (graphConstraints cs) :=
  hv.append (satisfies_levelOrder (distinctLevels_nodup cs) v)

/-- Without a strict cycle no strict edge stays inside a component, and a component has one concrete
level at most. -/
structure Layered (lg : LevelGraph) (cs : List Constraint) : Prop where
  represents : lg.Represents cs
  loose : ∀ comp ∈ lg.graph.components, ∀ e ∈ lg.edges, e.source ∈ comp → e.target ∈ comp →
    e.constraint.strict = false
  single : ∀ comp ∈ lg.graph.components, ∀ i ∈ comp, ∀ j ∈ comp, ∀ a b,
    lg.nodes[i]? = some (.const a) → lg.nodes[j]? = some (.const b) → a = b

theorem ofConstraints_layered
    (hnone : (ofConstraints cs).strictCycle? (ofConstraints cs).graph
      (ofConstraints cs).graph.components = none) :
    (ofConstraints cs).Layered (graphConstraints cs) := by
  have h := ofConstraints_represents cs
  have hloose := (strictCycle?_eq_none_iff h _).mp hnone
  have hnodes : ∀ i l, (ofConstraints cs).nodes[i]? = some l → l ∈ distinctLevels cs :=
    fun i l hl => List.mem_of_getElem? hl
  have horder : ∀ c ∈ levelOrder (distinctLevels cs), c ∈ graphConstraints cs :=
    fun c hc => List.mem_append_right _ hc
  refine ⟨h, hloose, fun comp hcomp i hi j hj a b ha hb => ?_⟩
  have hab := single_of_loose h (distinctLevels_nodup cs) hnodes horder hcomp
    (hloose comp hcomp) hi hj ha hb
  have hba := single_of_loose h (distinctLevels_nodup cs) hnodes horder hcomp
    (hloose comp hcomp) hj hi hb ha
  rw [Int64.lt_iff_toInt_lt] at hab hba
  exact Int64.toInt_inj.mp (by omega)

theorem ofConstraints_placeable (hcs : Moderate cs)
    (hnone : (ofConstraints cs).strictCycle? (ofConstraints cs).graph
      (ofConstraints cs).graph.components = none) :
    (ofConstraints cs).Placeable (graphConstraints cs) (largestLevel cs) := by
  obtain ⟨h, hloose, hsingle⟩ := ofConstraints_layered hnone
  refine ⟨h, hloose, hsingle, fun k hk => ?_, fun k hk => le_largestLevel hk,
    largestLevel_nonneg cs,
    hcs.room⟩
  exact Int64.le_iff_toInt_le.mp (hcs.nonneg k hk)

/-- In an accepted constraint list there is no strict cycle, and every component has been given a
value. -/
theorem checkLevels_eq_ok {a : Assignment} (hok : checkLevels cs = .ok a) :
    (ofConstraints cs).strictCycle? (ofConstraints cs).graph
        (ofConstraints cs).graph.components = none ∧
      ∃ placed,
        (ofConstraints cs).graph.components.foldlM (ofConstraints cs).place [] = .ok placed ∧
        a = (ofConstraints cs).assignment (ofConstraints cs).graph.components placed := by
  unfold checkLevels at hok
  cases hcycle : (ofConstraints cs).strictCycle? (ofConstraints cs).graph
      (ofConstraints cs).graph.components with
  | some chain => simp [hcycle] at hok
  | none =>
    simp only [hcycle] at hok
    cases hfold : (ofConstraints cs).graph.components.foldlM (ofConstraints cs).place [] with
    | error err =>
      rw [hfold] at hok
      simp [Except.map] at hok
    | ok placed =>
      rw [hfold] at hok
      exact ⟨rfl, placed, rfl, (Except.ok.inj hok).symm⟩

/-- The components of an accepted constraint list were placed. -/
theorem exists_placed_of_checkLevels (hcs : Moderate cs) {a : Assignment}
    (hok : checkLevels cs = .ok a) :
    ∃ placed, Placed (ofConstraints cs) (graphConstraints cs) (largestLevel cs)
        (ofConstraints cs).graph.components placed ∧
      a = (ofConstraints cs).assignment (ofConstraints cs).graph.components placed := by
  obtain ⟨hcycle, placed, hfold, rfl⟩ := checkLevels_eq_ok hok
  exact ⟨placed, ((ofConstraints_placeable hcs hcycle).foldlM_place _ [] []
    (List.nil_append _).symm (placed_nil _ _ _)).1 placed hfold, rfl⟩

/-- Constraints that can be satisfied are accepted. -/
theorem exists_assignment_of_satisfiable (hcs : Moderate cs) (hsat : Satisfiable cs) :
    ∃ a, checkLevels cs = .ok a := by
  have hrep := ofConstraints_represents cs
  have hsat' : Satisfiable (graphConstraints cs) := by
    obtain ⟨v, hv⟩ := hsat
    exact ⟨v, satisfies_graphConstraints hv⟩
  have hcycle := (strictCycle?_eq_none_iff hrep _).mpr (loose_of_satisfiable hrep hsat')
  have h := ofConstraints_placeable hcs hcycle
  obtain ⟨placed, hfold⟩ := (h.foldlM_place (ofConstraints cs).graph.components [] []
    (List.nil_append _).symm (placed_nil _ _ _)).2 hsat'
  refine ⟨(ofConstraints cs).assignment (ofConstraints cs).graph.components placed, ?_⟩
  unfold checkLevels
  simp only [hcycle]
  rw [hfold]
  rfl

theorem exists_placement {placed : List (Nat × Placement)}
    (hplaced : Placed (ofConstraints cs) (graphConstraints cs) (largestLevel cs)
      (ofConstraints cs).graph.components placed) {i : Nat} (hi : i < (distinctLevels cs).length) :
    ∃ p, placed.lookup i = some p := by
  have hrep := ofConstraints_represents cs
  rw [hplaced.domain i, List.mem_flatten]
  exact Graph.exists_component hrep.graph_wellFormed (hrep.size_graph ▸ hi)

/-- Every level of an accepted list has a value, and the values respect the constraints. -/
theorem eval?_of_checkLevels (hcs : Moderate cs) {a : Assignment} (hok : checkLevels cs = .ok a)
    {c : Constraint} (hc : c ∈ cs) :
    ∃ lo hi, a.eval? c.lo = some lo ∧ a.eval? c.hi = some hi ∧ 0 ≤ lo.toInt ∧ 0 ≤ hi.toInt ∧
      lo.toInt + c.gap ≤ hi.toInt := by
  have hrep := ofConstraints_represents cs
  obtain ⟨placed, hplaced, rfl⟩ := exists_placed_of_checkLevels hcs hok
  obtain ⟨e, he, hlo, hhi, hstrict⟩ := hrep.complete c (List.mem_append_left _ hc)
  obtain ⟨p, hp⟩ := exists_placement hplaced (hrep.source_lt he)
  obtain ⟨q, hq⟩ := exists_placement hplaced (hrep.target_lt he)
  refine ⟨p.value, q.value, eval?_assignment hrep hplaced hlo hp,
    eval?_assignment hrep hplaced hhi hq, hplaced.nonneg _ p hp, hplaced.nonneg _ q hq, ?_⟩
  have hrespects := hplaced.respects e he p q hp hq
  have hgap := Constraint.gap_le_gap hstrict
  rw [Edge.lower] at hrespects
  omega

/-- The variables of an accepted list are the ones that have a value. -/
theorem exists_level?_iff (hcs : Moderate cs) {a : Assignment} (hok : checkLevels cs = .ok a)
    (x : LevelVar) : (∃ k, a.level? x = some k) ↔ Level.var x ∈ distinctLevels cs := by
  obtain ⟨placed, hplaced, rfl⟩ := exists_placed_of_checkLevels hcs hok
  constructor
  · intro h
    obtain ⟨k, hk⟩ := h
    obtain ⟨i, p, hi, -, -⟩ := exists_vertex_of_level? hk
    exact List.mem_of_getElem? hi
  · intro hx
    obtain ⟨i, hlt, hi⟩ := List.mem_iff_getElem.mp hx
    obtain ⟨p, hp⟩ := exists_placement hplaced hlt
    have hnode : (ofConstraints cs).nodes[i]? = some (.var x) :=
      List.getElem?_eq_some_iff.mpr ⟨hlt, hi⟩
    exact ⟨p.value, level?_assignment (ofConstraints_represents cs) _ placed hnode hp⟩

/-- No valuation that satisfies an accepted list is below its values. -/
theorem level?_le_of_satisfies (hcs : Moderate cs) {a : Assignment} (hok : checkLevels cs = .ok a)
    {x : LevelVar} {k : Int64} (hk : a.level? x = some k) {v : Valuation} (hv : v.Satisfies cs) :
    0 ≤ k.toInt ∧ k.toInt ≤ v x := by
  obtain ⟨placed, hplaced, rfl⟩ := exists_placed_of_checkLevels hcs hok
  obtain ⟨i, p, hi, hp, rfl⟩ := exists_vertex_of_level? hk
  exact ⟨hplaced.nonneg i p hp, hplaced.least v (satisfies_graphConstraints hv) i p _ hp hi⟩

end LevelGraph

open LevelGraph

def Assignment.valuation (a : Assignment) : Valuation := fun x =>
  ((a.level? x).map fun k => k.toInt.toNat).getD 0

theorem Assignment.value_valuation {a : Assignment} {l : Level} {k : Int64}
    (hk : a.eval? l = some k) (hnonneg : 0 ≤ k.toInt) : l.value a.valuation = k.toInt := by
  cases l with
  | const j =>
    obtain rfl := Option.some.inj hk
    rfl
  | var x =>
    have hx : a.level? x = some k := hk
    simp only [Level.value, Assignment.valuation, hx, Option.map_some, Option.getD_some]
    omega

/-- The valuation of an accepted list satisfies it. -/
theorem Assignment.valuation_satisfies {cs : List Constraint} (hcs : Moderate cs) {a : Assignment}
    (hok : checkLevels cs = .ok a) : a.valuation.Satisfies cs := by
  intro c hc
  obtain ⟨lo, hi, hlo, hhi, hlo0, hhi0, hle⟩ := eval?_of_checkLevels hcs hok hc
  rw [Constraint.holds_iff_gap, Assignment.value_valuation hlo hlo0,
    Assignment.value_valuation hhi hhi0]
  exact hle

/-- The check of a store accepts exactly the stores that some valuation satisfies, and the
assignment it returns satisfies every constraint. -/
theorem checkLevels_decides (s : LevelStore) (hs : Moderate s.constraints) :
    ((∃ a, checkLevels s.constraints = .ok a) ↔ Satisfiable s.constraints) ∧
    ∀ a, checkLevels s.constraints = .ok a → ∀ c ∈ s.constraints,
      ∃ lo hi, a.eval? c.lo = some lo ∧ a.eval? c.hi = some hi ∧
        if c.strict then lo < hi else lo ≤ hi := by
  constructor
  · constructor
    · rintro ⟨a, hok⟩
      exact ⟨a.valuation, a.valuation_satisfies hs hok⟩
    · exact exists_assignment_of_satisfiable hs
  · intro a hok c hc
    obtain ⟨lo, hi, hlo, hhi, _, _, hle⟩ := eval?_of_checkLevels hs hok hc
    refine ⟨lo, hi, hlo, hhi, ?_⟩
    unfold Constraint.gap at hle
    split
    · rename_i hstrict
      rw [if_pos hstrict] at hle
      exact Int64.lt_iff_toInt_lt.mpr (by omega)
    · rename_i hstrict
      rw [if_neg hstrict] at hle
      exact Int64.le_iff_toInt_le.mpr (by omega)

def boundedCycle : LevelStore where
  owner := "unit"
  constraints :=
    [⟨.const 1, .var ⟨"unit", 0, false⟩, true, "first"⟩,
     ⟨.var ⟨"unit", 0, false⟩, .var ⟨"unit", 1, false⟩, false, "second"⟩,
     ⟨.var ⟨"unit", 1, false⟩, .var ⟨"unit", 0, false⟩, false, "third"⟩,
     ⟨.var ⟨"unit", 1, false⟩, .const 3, true, "fourth"⟩]

theorem moderate_boundedCycle : Moderate boundedCycle.constraints := by
  decide +kernel

theorem checkLevels_decides_boundedCycle :
    Moderate boundedCycle.constraints ∧ Satisfiable boundedCycle.constraints ∧
      ∃ a, checkLevels boundedCycle.constraints = .ok a := by
  have hsat : Satisfiable boundedCycle.constraints := ⟨fun _ => 2, by decide⟩
  exact ⟨moderate_boundedCycle, hsat,
    (checkLevels_decides boundedCycle moderate_boundedCycle).1.mpr hsat⟩

/-- The assignment of an accepted store is the least one. It gives values to exactly the variables
of the store, they satisfy the store, and no valuation that satisfies the store gives a smaller one.
-/
theorem checkLevels_least (s : LevelStore) (hs : Moderate s.constraints) (a : Assignment)
    (hok : checkLevels s.constraints = .ok a) :
    (∀ x, (∃ k, a.level? x = some k) ↔ ∃ c ∈ s.constraints, c.lo = .var x ∨ c.hi = .var x) ∧
    a.valuation.Satisfies s.constraints ∧
    ∀ v : Valuation, v.Satisfies s.constraints → ∀ x k, a.level? x = some k →
      0 ≤ k.toInt ∧ k.toInt ≤ v x := by
  refine ⟨fun x => ?_, a.valuation_satisfies hs hok, fun v hv x k hk => ?_⟩
  · rw [exists_level?_iff hs hok, distinctLevels, List.mem_eraseDups, List.mem_flatMap]
    simp only [Constraint.ends, List.mem_cons, List.not_mem_nil, or_false, eq_comm]
  · exact level?_le_of_satisfies hs hok hk hv

/-- Both variables of the cycle get the value between its bounds, the only one that they can have.
-/
theorem checkLevels_least_boundedCycle : ∃ a, checkLevels boundedCycle.constraints = .ok a ∧
    a.level? ⟨"unit", 1, false⟩ = some 2 ∧ a.level? ⟨"unit", 2, false⟩ = none ∧
      ∀ v : Valuation, v.Satisfies boundedCycle.constraints → 2 ≤ v ⟨"unit", 1, false⟩ := by
  have htest : (checkLevels boundedCycle.constraints).toOption.map
      (fun a => a.level? ⟨"unit", 1, false⟩) = some (some 2) := by decide +kernel
  obtain ⟨a, hok, hlevel⟩ := Option.map_eq_some_iff.mp htest
  have hok : checkLevels boundedCycle.constraints = .ok a := by
    generalize checkLevels boundedCycle.constraints = r at hok
    cases r with
    | error e => cases hok
    | ok b => exact congrArg _ (Option.some.inj hok)
  obtain ⟨hdomain, -, hleast⟩ := checkLevels_least boundedCycle moderate_boundedCycle a hok
  refine ⟨a, hok, hlevel, ?_, fun v hv => ?_⟩
  · have hnone : ¬ ∃ c ∈ boundedCycle.constraints,
        c.lo = .var ⟨"unit", 2, false⟩ ∨ c.hi = .var ⟨"unit", 2, false⟩ := by decide
    rw [Option.eq_none_iff_forall_ne_some]
    exact fun k hk => hnone ((hdomain _).mp ⟨k, hk⟩)
  · exact Int.ofNat_le.mp (hleast v hv _ _ hlevel).2

end Implicits
