import Mathlib.Algebra.Group.Int.Defs
import Implicits.Proofs.Level.Graph

/-!
Placing the components of a level graph. Components come in topological order, so the edges into a
component start at vertices that have their value already. The value that a component gets is at
least what these edges ask for and at most what any satisfying valuation gives it; a component with
a concrete level gets exactly that level or is refused.
-/
namespace Implicits.LevelGraph

variable {lg : LevelGraph} {cs : List Constraint}

theorem toInt_add_one {k : Int64} (hroom : k.toInt + 1 < 2 ^ 63) : (k + 1).toInt = k.toInt + 1 := by
  have hlow := k.le_toInt
  rw [Int64.toInt_add]
  have hone : (1 : Int64).toInt = 1 := by decide
  rw [hone, Int.bmod_eq_of_le (by omega) (by omega)]

def Edge.lower (e : Edge) (p : Placement) : Int := p.value.toInt + e.constraint.gap

def Roomy (placed : List (Nat × Placement)) : Prop :=
  ∀ i p, placed.lookup i = some p → p.value.toInt + 1 < 2 ^ 63

theorem raise_spec {placed : List (Nat × Placement)} (hroom : Roomy placed) (b : Placement)
    (e : Edge) :
    b.value.toInt ≤ (raise placed b e).value.toInt ∧
    (∀ p, placed.lookup e.source = some p → e.lower p ≤ (raise placed b e).value.toInt) ∧
    ((raise placed b e).value = b.value ∨
      ∃ p, placed.lookup e.source = some p ∧ (raise placed b e).value.toInt = e.lower p) := by
  unfold raise
  cases hlookup : placed.lookup e.source with
  | none => exact ⟨Int.le_refl _, by simp, Or.inl rfl⟩
  | some p =>
    have hlower : (if e.constraint.strict then p.value + 1 else p.value).toInt = e.lower p := by
      unfold Edge.lower Constraint.gap
      split
      · exact toInt_add_one (hroom e.source p hlookup)
      · simp
    dsimp only
    by_cases hlt : b.value < (if e.constraint.strict then p.value + 1 else p.value)
    · rw [if_pos hlt]
      rw [Int64.lt_iff_toInt_lt, hlower] at hlt
      refine ⟨by rw [hlower]; omega, ?_, Or.inr ⟨p, rfl, hlower⟩⟩
      intro q hq
      obtain rfl := Option.some.inj hq
      exact Int.le_of_eq hlower.symm
    · rw [if_neg hlt]
      rw [Int64.lt_iff_toInt_lt, hlower] at hlt
      refine ⟨Int.le_refl _, ?_, Or.inl rfl⟩
      intro q hq
      obtain rfl := Option.some.inj hq
      omega

theorem foldl_raise_spec {placed : List (Nat × Placement)} (hroom : Roomy placed)
    (es : List Edge) : ∀ b : Placement,
    b.value.toInt ≤ (es.foldl (raise placed) b).value.toInt ∧
    (∀ e ∈ es, ∀ p, placed.lookup e.source = some p →
      e.lower p ≤ (es.foldl (raise placed) b).value.toInt) ∧
    ((es.foldl (raise placed) b).value = b.value ∨ ∃ e ∈ es, ∃ p,
      placed.lookup e.source = some p ∧ (es.foldl (raise placed) b).value.toInt = e.lower p) := by
  induction es with
  | nil =>
    intro b
    exact ⟨Int.le_refl _, by simp, Or.inl rfl⟩
  | cons a es ih =>
    intro b
    obtain ⟨hle, hlower, hattained⟩ := raise_spec hroom b a
    obtain ⟨hle', hlower', hattained'⟩ := ih (raise placed b a)
    refine ⟨Int.le_trans hle hle', ?_, ?_⟩
    · intro e he p hp
      rcases List.mem_cons.mp he with rfl | he
      · exact Int.le_trans (hlower p hp) hle'
      · exact hlower' e he p hp
    · rcases hattained' with heq | ⟨e, he, p, hp, heq⟩
      · rcases hattained with heq' | ⟨p, hp, heq'⟩
        · exact Or.inl (heq.trans heq')
        · refine Or.inr ⟨a, List.mem_cons_self .., p, hp, ?_⟩
          rw [List.foldl_cons, heq, heq']
      · exact Or.inr ⟨e, List.mem_cons_of_mem _ he, p, hp, heq⟩

def incoming (lg : LevelGraph) (comp : List Nat) : List Edge :=
  comp.flatMap fun v => lg.edges.filter (·.target == v)

theorem mem_incoming (lg : LevelGraph) (comp : List Nat) (e : Edge) :
    e ∈ lg.incoming comp ↔ e ∈ lg.edges ∧ e.target ∈ comp := by
  simp only [incoming, List.mem_flatMap, List.mem_filter, beq_iff_eq]
  constructor
  · rintro ⟨v, hv, he, rfl⟩
    exact ⟨he, hv⟩
  · rintro ⟨he, ht⟩
    exact ⟨e.target, ht, he, rfl⟩

def leastValue (lg : LevelGraph) (placed : List (Nat × Placement)) (comp : List Nat) : Int64 :=
  let bound := (lg.incoming comp).foldl (raise placed) ⟨-1, []⟩
  if 0 < bound.value then bound.value else 0

theorem leastValue_spec (lg : LevelGraph) {placed : List (Nat × Placement)} (hroom : Roomy placed)
    (comp : List Nat) :
    0 ≤ (lg.leastValue placed comp).toInt ∧
    (∀ e ∈ lg.edges, e.target ∈ comp → ∀ p, placed.lookup e.source = some p →
      e.lower p ≤ (lg.leastValue placed comp).toInt) ∧
    ((lg.leastValue placed comp).toInt = 0 ∨ ∃ e ∈ lg.edges, e.target ∈ comp ∧ ∃ p,
      placed.lookup e.source = some p ∧ (lg.leastValue placed comp).toInt = e.lower p) := by
  obtain ⟨_, hlower, hattained⟩ := foldl_raise_spec hroom (lg.incoming comp) ⟨-1, []⟩
  have hzero : (0 : Int64).toInt = 0 := by decide
  simp only [leastValue]
  generalize hbound : (lg.incoming comp).foldl (raise placed) ⟨-1, []⟩ = bound at hlower hattained
  by_cases hpos : 0 < bound.value
  · have hpos' := Int64.lt_iff_toInt_lt.mp hpos
    rw [if_pos hpos]
    refine ⟨by omega, ?_, ?_⟩
    · intro e he ht p hp
      exact hlower e ((mem_incoming lg comp e).mpr ⟨he, ht⟩) p hp
    · rcases hattained with heq | ⟨e, he, p, hp, heq⟩
      · rw [heq] at hpos
        exact absurd hpos (by decide)
      · obtain ⟨he', ht⟩ := (mem_incoming lg comp e).mp he
        exact Or.inr ⟨e, he', ht, p, hp, heq⟩
  · have hnonpos : ¬ (0 : Int64).toInt < bound.value.toInt :=
      fun h => hpos (Int64.lt_iff_toInt_lt.mpr h)
    rw [if_neg hpos]
    refine ⟨by omega, ?_, Or.inl hzero⟩
    intro e he ht p hp
    have h := hlower e ((mem_incoming lg comp e).mpr ⟨he, ht⟩) p hp
    omega

/-- A component is given its concrete level if that is large enough, and the least value without
one. -/
theorem place_cases (lg : LevelGraph) (placed : List (Nat × Placement)) (comp : List Nat) :
    (lg.fixedLevel? comp = none ∧ ∃ chain, lg.place placed comp =
      .ok (comp.map (·, ⟨lg.leastValue placed comp, chain⟩) ++ placed)) ∨
    (∃ k, lg.fixedLevel? comp = some k ∧ k < lg.leastValue placed comp ∧
      ∃ err, lg.place placed comp = .error err) ∨
    (∃ k, lg.fixedLevel? comp = some k ∧ ¬ k < lg.leastValue placed comp ∧
      ∃ chain, lg.place placed comp = .ok (comp.map (·, ⟨k, chain⟩) ++ placed)) := by
  cases hfixed : lg.fixedLevel? comp with
  | none =>
    refine Or.inl ⟨rfl, ((lg.incoming comp).foldl (raise placed) ⟨-1, []⟩).chain, ?_⟩
    simp only [place, hfixed]
    rfl
  | some k =>
    by_cases hlt : k < lg.leastValue placed comp
    · refine Or.inr (Or.inl ⟨k, rfl, hlt,
        ⟨((lg.incoming comp).foldl (raise placed) ⟨-1, []⟩).chain.reverse⟩, ?_⟩)
      simp only [place, hfixed]
      exact if_pos hlt
    · refine Or.inr (Or.inr ⟨k, rfl, hlt,
        ((lg.incoming comp).foldl (raise placed) ⟨-1, []⟩).chain, ?_⟩)
      simp only [place, hfixed]
      exact if_neg hlt

theorem lookup_map_const (comp : List Nat) (q : Placement) (i : Nat) :
    (comp.map (·, q)).lookup i = if i ∈ comp then some q else none := by
  induction comp with
  | nil => simp
  | cons v comp ih =>
    rw [List.map_cons, List.lookup_cons, ih]
    by_cases hiv : i = v
    · simp [hiv]
    · have hbeq : (i == v) = false := by simpa using hiv
      simp [hbeq, hiv]

theorem lookup_placed (comp : List Nat) (q : Placement)
    (placed : List (Nat × Placement)) (i : Nat) :
    (comp.map (·, q) ++ placed).lookup i = if i ∈ comp then some q else placed.lookup i := by
  rw [List.lookup_append, lookup_map_const]
  split <;> simp

/-- Levels along a path do not decrease. -/
theorem Represents.value_le_of_reaches (h : lg.Represents cs) {v : Valuation}
    (hv : v.Satisfies cs) {i j : Nat} (hij : lg.graph.Reaches i j) {l m : Level}
    (hl : lg.nodes[i]? = some l) (hm : lg.nodes[j]? = some m) : l.value v ≤ m.value v := by
  induction hij generalizing m with
  | refl =>
    obtain rfl := Option.some.inj (hl.symm.trans hm)
    exact Int.le_refl _
  | @tail b c _ hbc ih =>
    obtain ⟨e, he, rfl, rfl⟩ := (h.mem_successors_iff b c).mp hbc
    obtain ⟨hmem, hlo, hhi⟩ := h.sound e he
    have hholds := (Constraint.holds_iff_gap v _).mp (hv _ hmem)
    have hgap := e.constraint.gap_nonneg
    have hle := ih hlo
    obtain rfl := Option.some.inj (hhi.symm.trans hm)
    omega

/-- The concrete levels of a component. -/
theorem mem_consts_iff {comp : List Nat} {k : Int64} :
    k ∈ (comp.filterMap fun v => lg.nodes[v]?.bind Level.const?) ↔
      ∃ i ∈ comp, lg.nodes[i]? = some (.const k) := by
  rw [List.mem_filterMap]
  constructor
  · rintro ⟨i, hi, hk⟩
    obtain ⟨l, hl, hk⟩ := Option.bind_eq_some_iff.mp hk
    cases l with
    | const a =>
      simp only [Level.const?, Option.some.injEq] at hk
      exact ⟨i, hi, hk ▸ hl⟩
    | var x => simp [Level.const?] at hk
  · rintro ⟨i, hi, hk⟩
    exact ⟨i, hi, by simp [hk, Level.const?]⟩

theorem exists_const_of_fixedLevel? {comp : List Nat} {k : Int64}
    (hk : lg.fixedLevel? comp = some k) :
    ∃ i ∈ comp, lg.nodes[i]? = some (.const k) := by
  unfold fixedLevel? at hk
  rw [Option.filter_eq_some_iff] at hk
  exact mem_consts_iff.mp (List.mem_of_getLast? hk.1)

/-- The only concrete level of a component fixes it, unless it is negative. -/
theorem fixedLevel?_of_const {comp : List Nat}
    (hsingle : ∀ i ∈ comp, ∀ j ∈ comp, ∀ a b, lg.nodes[i]? = some (.const a) →
      lg.nodes[j]? = some (.const b) → a = b)
    {i : Nat} (hi : i ∈ comp) {k : Int64} (hk : lg.nodes[i]? = some (.const k)) (hk0 : 0 ≤ k) :
    lg.fixedLevel? comp = some k := by
  have hne : (comp.filterMap fun v => lg.nodes[v]?.bind Level.const?) ≠ [] :=
    List.ne_nil_of_mem (mem_consts_iff.mpr ⟨i, hi, hk⟩)
  obtain ⟨j, hj, hjnode⟩ := mem_consts_iff.mp (List.getLast_mem hne)
  unfold fixedLevel?
  rw [Option.filter_eq_some_iff, decide_eq_true_eq]
  refine ⟨?_, hk0⟩
  rw [List.getLast?_eq_some_getLast hne, hsingle i hi j hj k _ hk hjnode]

/-- An edge does not lead to an earlier component. -/
theorem Represents.not_reaches_earlier (h : lg.Represents cs) {seen rest : List (List Nat)}
    {comp : List Nat} (hcomps : lg.graph.components = seen ++ comp :: rest) {i j : Nat}
    (hi : i ∈ comp) (hj : j ∈ seen.flatten) : ¬ lg.graph.Reaches i j := by
  have hpair := Graph.components_pairwise h.graph_wellFormed
  rw [hcomps, List.pairwise_append] at hpair
  obtain ⟨C, hC, hjC⟩ := List.mem_flatten.mp hj
  exact hpair.2.2 C hC comp (List.mem_cons_self ..) j hjC i hi

structure Placeable (lg : LevelGraph) (cs : List Constraint) (largest : Int) : Prop where
  represents : lg.Represents cs
  /-- No strict edge has both its ends in one component. -/
  loose : ∀ comp ∈ lg.graph.components, ∀ e ∈ lg.edges, e.source ∈ comp → e.target ∈ comp →
    e.constraint.strict = false
  /-- A component contains at most one concrete level. -/
  single : ∀ comp ∈ lg.graph.components, ∀ i ∈ comp, ∀ j ∈ comp, ∀ a b,
    lg.nodes[i]? = some (.const a) → lg.nodes[j]? = some (.const b) → a = b
  const_nonneg : ∀ k, Level.const k ∈ lg.nodes → 0 ≤ k.toInt
  const_le : ∀ k, Level.const k ∈ lg.nodes → k.toInt ≤ largest
  largest_nonneg : 0 ≤ largest
  room : largest + lg.nodes.length < 2 ^ 63

/-- The vertices of the components in `seen` have values that respect the edges between them, leave
concrete levels as they are, and are at most those of any satisfying valuation. -/
structure Placed (lg : LevelGraph) (cs : List Constraint) (largest : Int) (seen : List (List Nat))
    (placed : List (Nat × Placement)) : Prop where
  domain : ∀ i, (∃ p, placed.lookup i = some p) ↔ i ∈ seen.flatten
  length_eq : placed.length = seen.flatten.length
  nonneg : ∀ i p, placed.lookup i = some p → 0 ≤ p.value.toInt
  bounded : ∀ i p, placed.lookup i = some p → p.value.toInt < largest + placed.length
  respects : ∀ e ∈ lg.edges, ∀ p q, placed.lookup e.source = some p →
    placed.lookup e.target = some q → e.lower p ≤ q.value.toInt
  concrete : ∀ i p k, placed.lookup i = some p → lg.nodes[i]? = some (.const k) → p.value = k
  least : ∀ v : Valuation, v.Satisfies cs → ∀ i p l, placed.lookup i = some p →
    lg.nodes[i]? = some l → p.value.toInt ≤ l.value v

theorem placed_nil (lg : LevelGraph) (cs : List Constraint) (largest : Int) :
    Placed lg cs largest [] [] where
  domain := by simp
  length_eq := rfl
  nonneg := by simp
  bounded := by simp
  respects := by simp
  concrete := by simp
  least := by simp

namespace Placeable

variable {largest : Int}

theorem fixedLevel?_eq_some_iff (h : lg.Placeable cs largest) {comp : List Nat}
    (hcomp : comp ∈ lg.graph.components) (k : Int64) :
    lg.fixedLevel? comp = some k ↔ ∃ i ∈ comp, lg.nodes[i]? = some (.const k) := by
  constructor
  · exact exists_const_of_fixedLevel?
  · rintro ⟨i, hi, hk⟩
    refine fixedLevel?_of_const (h.single comp hcomp) hi hk ?_
    rw [Int64.le_iff_toInt_le]
    exact h.const_nonneg k (List.mem_of_getElem? hk)

theorem roomy (h : lg.Placeable cs largest) {seen : List (List Nat)}
    {placed : List (Nat × Placement)} (hp : Placed lg cs largest seen placed)
    (hlen : placed.length ≤ lg.nodes.length) : Roomy placed := by
  intro i p hi
  have hbound := hp.bounded i p hi
  have hroom := h.room
  omega

theorem flatten_length_le (h : lg.Placeable cs largest) :
    lg.graph.components.flatten.length = lg.nodes.length := by
  rw [(Graph.flatten_components_perm h.represents.graph_wellFormed).length_eq, Graph.vertices,
    List.length_range, h.represents.size_graph]

/-- Inside a component every vertex reaches every other one. -/
theorem reaches_of_mem (h : lg.Placeable cs largest) {comp : List Nat}
    (hcomp : comp ∈ lg.graph.components) {i j : Nat} (hi : i ∈ comp) (hj : j ∈ comp) :
    lg.graph.Reaches i j :=
  ((Graph.mem_component_iff h.represents.graph_wellFormed hcomp hi j).mp hj).2.1

section Step

variable {seen rest : List (List Nat)} {comp : List Nat} {placed : List (Nat × Placement)}

theorem length_le (h : lg.Placeable cs largest)
    (hcomps : lg.graph.components = seen ++ comp :: rest) (hp : Placed lg cs largest seen placed) :
    placed.length + comp.length ≤ lg.nodes.length := by
  have hlen := h.flatten_length_le
  rw [hcomps] at hlen
  simp only [List.flatten_append, List.flatten_cons, List.length_append] at hlen
  rw [hp.length_eq]
  omega

theorem comp_length_pos (h : lg.Placeable cs largest)
    (hcomps : lg.graph.components = seen ++ comp :: rest) : 0 < comp.length := by
  have hcomp : comp ∈ lg.graph.components := by simp [hcomps]
  exact List.length_pos_iff.mpr
    (Graph.component_ne_nil h.represents.graph_wellFormed hcomp)

/-- A valuation that satisfies the constraints gives every vertex of a component at least the value
that the edges into it ask for. -/
theorem leastValue_le (h : lg.Placeable cs largest)
    (hcomps : lg.graph.components = seen ++ comp :: rest) (hp : Placed lg cs largest seen placed)
    {v : Valuation} (hv : v.Satisfies cs) {i : Nat} (hi : i ∈ comp) {l : Level}
    (hl : lg.nodes[i]? = some l) : (lg.leastValue placed comp).toInt ≤ l.value v := by
  have hcomp : comp ∈ lg.graph.components := by simp [hcomps]
  have hlen := h.length_le hcomps hp
  have hroom : Roomy placed := h.roomy hp (by omega)
  rcases (leastValue_spec lg hroom comp).2.2 with hzero | ⟨e, he, ht, p, hsource, heq⟩
  · rw [hzero]
    cases l with
    | const k => exact h.const_nonneg k (List.mem_of_getElem? hl)
    | var x => exact Int.natCast_nonneg _
  · obtain ⟨hmem, hlo, hhi⟩ := h.represents.sound e he
    have hleast := hp.least v hv e.source p _ hsource hlo
    have hholds := (Constraint.holds_iff_gap v _).mp (hv _ hmem)
    have hpath := h.represents.value_le_of_reaches hv (h.reaches_of_mem hcomp ht hi) hhi hl
    rw [heq, Edge.lower]
    omega

theorem leastValue_lt (h : lg.Placeable cs largest)
    (hcomps : lg.graph.components = seen ++ comp :: rest) (hp : Placed lg cs largest seen placed) :
    (lg.leastValue placed comp).toInt < largest + (placed.length + comp.length) := by
  have hlen := h.length_le hcomps hp
  have hpos := h.comp_length_pos hcomps
  have hlargest := h.largest_nonneg
  have hroom : Roomy placed := h.roomy hp (by omega)
  rcases (leastValue_spec lg hroom comp).2.2 with hzero | ⟨e, _, _, p, hsource, heq⟩
  · omega
  · have hbound := hp.bounded e.source p hsource
    have hgap := e.constraint.gap_le_one
    rw [heq, Edge.lower]
    omega

/-- Placing a component at a suitable value keeps the invariant. -/
theorem placed_append (h : lg.Placeable cs largest)
    (hcomps : lg.graph.components = seen ++ comp :: rest) (hp : Placed lg cs largest seen placed)
    (q : Placement) (hlow : (lg.leastValue placed comp).toInt ≤ q.value.toInt)
    (hhigh : q.value.toInt < largest + (placed.length + comp.length))
    (hconcrete : ∀ i ∈ comp, ∀ k, lg.nodes[i]? = some (.const k) → q.value = k)
    (hleast : ∀ v : Valuation, v.Satisfies cs → ∀ i ∈ comp, ∀ l, lg.nodes[i]? = some l →
      q.value.toInt ≤ l.value v) :
    Placed lg cs largest (seen ++ [comp]) (comp.map (·, q) ++ placed) := by
  have hcomp : comp ∈ lg.graph.components := by simp [hcomps]
  have hlen := h.length_le hcomps hp
  have hroom : Roomy placed := h.roomy hp (by omega)
  obtain ⟨hnonneg, hlower, _⟩ := leastValue_spec lg hroom comp
  -- A vertex is in the new component, with the new value, or was placed before.
  have hcases : ∀ i p, (comp.map (·, q) ++ placed).lookup i = some p →
      (i ∈ comp ∧ p = q) ∨ (i ∉ comp ∧ placed.lookup i = some p) := by
    intro i p hlookup
    rw [lookup_placed] at hlookup
    by_cases hi : i ∈ comp
    · rw [if_pos hi] at hlookup
      exact Or.inl ⟨hi, (Option.some.inj hlookup).symm⟩
    · rw [if_neg hi] at hlookup
      exact Or.inr ⟨hi, hlookup⟩
  constructor
  · intro i
    simp only [lookup_placed, List.flatten_append, List.flatten_cons, List.flatten_nil,
      List.append_nil, List.mem_append]
    by_cases hi : i ∈ comp
    · simp [hi]
    · simp only [hi, or_false]
      exact hp.domain i
  · simp only [List.length_append, List.length_map, hp.length_eq, List.flatten_append,
      List.flatten_cons, List.flatten_nil, List.append_nil]
    omega
  · intro i p hi
    rcases hcases i p hi with ⟨_, rfl⟩ | ⟨_, hi⟩
    · omega
    · exact hp.nonneg i p hi
  · intro i p hi
    simp only [List.length_append, List.length_map, Int.natCast_add]
    rcases hcases i p hi with ⟨_, rfl⟩ | ⟨_, hi⟩
    · omega
    · have hbound := hp.bounded i p hi
      omega
  · intro e he p r hsource htarget
    rcases hcases _ p hsource with ⟨hs, rfl⟩ | ⟨_, hs⟩
    · rcases hcases _ r htarget with ⟨ht, rfl⟩ | ⟨_, ht⟩
      · have hloose := h.loose comp hcomp e he hs ht
        simp [Edge.lower, Constraint.gap, hloose]
      · have hedge : lg.graph.Reaches e.source e.target :=
          Graph.Reaches.of_edge ((h.represents.mem_successors_iff _ _).mpr ⟨e, he, rfl, rfl⟩)
        have hseen : e.target ∈ seen.flatten := (hp.domain e.target).mp ⟨r, ht⟩
        exact absurd hedge (h.represents.not_reaches_earlier hcomps hs hseen)
    · rcases hcases _ r htarget with ⟨ht, rfl⟩ | ⟨_, ht⟩
      · exact Int.le_trans (hlower e he ht p hs) hlow
      · exact hp.respects e he p r hs ht
  · intro i p k hi hk
    rcases hcases i p hi with ⟨hmem, rfl⟩ | ⟨_, hi⟩
    · exact hconcrete i hmem k hk
    · exact hp.concrete i p k hi hk
  · intro v hv i p l hi hl
    rcases hcases i p hi with ⟨hmem, rfl⟩ | ⟨_, hi⟩
    · exact hleast v hv i hmem l hl
    · exact hp.least v hv i p l hi hl

/-- Placing one component keeps the invariant, and it succeeds if the constraints can be satisfied.
-/
theorem place_step (h : lg.Placeable cs largest)
    (hcomps : lg.graph.components = seen ++ comp :: rest) (hp : Placed lg cs largest seen placed) :
    (∀ placed', lg.place placed comp = .ok placed' →
      Placed lg cs largest (seen ++ [comp]) placed') ∧
    (Satisfiable cs → ∃ placed', lg.place placed comp = .ok placed') := by
  have hcomp : comp ∈ lg.graph.components := by simp [hcomps]
  rcases place_cases lg placed comp with
    ⟨hfixed, chain, hplace⟩ | ⟨k, hfixed, hlt, err, hplace⟩ | ⟨k, hfixed, hlt, chain, hplace⟩
  · refine ⟨?_, fun _ => ⟨_, hplace⟩⟩
    intro placed' hok
    obtain rfl := Except.ok.inj (hplace.symm.trans hok)
    refine h.placed_append hcomps hp ⟨lg.leastValue placed comp, chain⟩ (Int.le_refl _)
      (h.leastValue_lt hcomps hp) ?_ ?_
    · intro i hi k hk
      rw [(h.fixedLevel?_eq_some_iff hcomp k).mpr ⟨i, hi, hk⟩] at hfixed
      exact absurd hfixed (by simp)
    · intro v hv i hi l hl
      exact h.leastValue_le hcomps hp hv hi hl
  · constructor
    · intro placed' hok
      rw [hplace] at hok
      exact absurd hok (by simp)
    · rintro ⟨v, hv⟩
      obtain ⟨i, hi, hk⟩ := (h.fixedLevel?_eq_some_iff hcomp k).mp hfixed
      have hle := h.leastValue_le hcomps hp hv hi hk
      rw [Int64.lt_iff_toInt_lt] at hlt
      exact absurd hlt (by simpa [Level.value] using hle)
  · refine ⟨?_, fun _ => ⟨_, hplace⟩⟩
    intro placed' hok
    obtain rfl := Except.ok.inj (hplace.symm.trans hok)
    obtain ⟨i, hi, hk⟩ := (h.fixedLevel?_eq_some_iff hcomp k).mp hfixed
    have hpos := h.comp_length_pos hcomps
    have hle := h.const_le k (List.mem_of_getElem? hk)
    rw [Int64.lt_iff_toInt_lt] at hlt
    refine h.placed_append hcomps hp ⟨k, chain⟩ (by dsimp only; omega) (by dsimp only; omega) ?_ ?_
    · intro j hj a ha
      exact h.single comp hcomp i hi j hj k a hk ha
    · intro v hv j hj l hl
      exact h.represents.value_le_of_reaches hv (h.reaches_of_mem hcomp hi hj) hk hl

end Step

/-- Placing the components one after the other. -/
theorem foldlM_place (h : lg.Placeable cs largest) (rest : List (List Nat)) :
    ∀ seen placed, lg.graph.components = seen ++ rest → Placed lg cs largest seen placed →
      (∀ placed', rest.foldlM lg.place placed = .ok placed' →
        Placed lg cs largest lg.graph.components placed') ∧
      (Satisfiable cs → ∃ placed', rest.foldlM lg.place placed = .ok placed') := by
  induction rest with
  | nil =>
    intro seen placed hcomps hp
    rw [List.append_nil] at hcomps
    refine ⟨?_, fun _ => ⟨placed, rfl⟩⟩
    intro placed' hok
    obtain rfl := Except.ok.inj hok
    exact hcomps ▸ hp
  | cons comp rest ih =>
    intro seen placed hcomps hp
    obtain ⟨hkeep, hsucceed⟩ := h.place_step hcomps hp
    have hcomps' : lg.graph.components = (seen ++ [comp]) ++ rest := by simp [hcomps]
    rw [List.foldlM_cons]
    cases hplace : lg.place placed comp with
    | error err =>
      constructor
      · intro placed' hok
        simp [bind, Except.bind] at hok
      · intro hsat
        obtain ⟨placed', hok⟩ := hsucceed hsat
        rw [hplace] at hok
        exact absurd hok (by simp)
    | ok placed' => exact ih (seen ++ [comp]) placed' hcomps' (hkeep placed' hplace)

end Placeable

end Implicits.LevelGraph
