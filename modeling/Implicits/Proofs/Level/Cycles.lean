import Implicits.Proofs.Graph.Path
import Implicits.Proofs.Level.Consistency

/-!
Walks along level constraints. A walk follows constraints from their lower to their upper levels;
besides the constraints of a list it may use the order between neighbouring concrete levels. Walks
are the paths of the graph of the list. A strict constraint on a closed walk stays inside a
component, and the cycle that is then reported is such a walk, with a strict constraint first.
-/
namespace Implicits

structure Neighbours (cs : List Constraint) (a b : Int64) : Prop where
  lower : Level.const a ∈ distinctLevels cs
  upper : Level.const b ∈ distinctLevels cs
  lt : a < b
  between : ∀ k, Level.const k ∈ distinctLevels cs → a < k → ¬ k < b

/-- A constraint of a list, or the order of two neighbouring concrete levels. -/
def Stated (cs : List Constraint) (c : Constraint) : Prop :=
  c ∈ cs ∨ ∃ a b, Neighbours cs a b ∧ c = ⟨.const a, .const b, true, "level order"⟩

def IsWalk (l m : Level) : List Constraint → Prop
  | [] => l = m
  | c :: cs => c.lo = l ∧ IsWalk c.hi m cs

theorem isWalk_append {l m : Level} {xs ys : List Constraint} :
    IsWalk l m (xs ++ ys) ↔ ∃ k, IsWalk l k xs ∧ IsWalk k m ys := by
  induction xs generalizing l with
  | nil => simp [IsWalk]
  | cons c xs ih => simp [IsWalk, ih, and_assoc]

def Leads (cs : List Constraint) (l m : Level) : Prop :=
  ∃ walk, IsWalk l m walk ∧ ∀ c ∈ walk, Stated cs c

theorem Leads.refl (cs : List Constraint) (l : Level) : Leads cs l l := ⟨[], rfl, by simp⟩

theorem Leads.trans {cs : List Constraint} {l m k : Level} (h : Leads cs l m) (h' : Leads cs m k) :
    Leads cs l k := by
  obtain ⟨xs, hxs, hstated⟩ := h
  obtain ⟨ys, hys, hstated'⟩ := h'
  exact ⟨xs ++ ys, isWalk_append.mpr ⟨m, hxs, hys⟩, List.forall_mem_append.mpr ⟨hstated, hstated'⟩⟩

theorem Leads.of_stated {cs : List Constraint} {c : Constraint} (hc : Stated cs c) :
    Leads cs c.lo c.hi := ⟨[c], ⟨rfl, rfl⟩, by simpa using hc⟩

def Tied (cs : List Constraint) (l m : Level) : Prop := Leads cs l m ∧ Leads cs m l

theorem Tied.refl (cs : List Constraint) (l : Level) : Tied cs l l :=
  ⟨Leads.refl cs l, Leads.refl cs l⟩

theorem Tied.symm {cs : List Constraint} {l m : Level} (h : Tied cs l m) : Tied cs m l := ⟨h.2, h.1⟩

theorem Tied.trans {cs : List Constraint} {l m k : Level} (h : Tied cs l m) (h' : Tied cs m k) :
    Tied cs l k := ⟨h.1.trans h'.1, h'.2.trans h.2⟩

def StrictCycle (cs : List Constraint) : Prop :=
  ∃ l cycle, IsWalk l l cycle ∧ (∀ c ∈ cycle, Stated cs c) ∧ ∃ c ∈ cycle, c.strict = true

/-- A strict constraint on a closed walk, and the walk back from its upper to its lower level. -/
theorem StrictCycle.exists_strict {cs : List Constraint} (h : StrictCycle cs) :
    ∃ c, Stated cs c ∧ c.strict = true ∧ Leads cs c.hi c.lo := by
  obtain ⟨l, cycle, hwalk, hstated, c, hc, hstrict⟩ := h
  obtain ⟨xs, ys, rfl⟩ := List.append_of_mem hc
  obtain ⟨k, hxs, hlo, hys⟩ := isWalk_append.mp hwalk
  obtain ⟨hstated₁, hstated₂⟩ := List.forall_mem_append.mp hstated
  obtain ⟨hstatedc, hstated₂⟩ := List.forall_mem_cons.mp hstated₂
  exact ⟨c, hstatedc, hstrict, Leads.trans ⟨ys, hys, hstated₂⟩ ⟨xs, hlo ▸ hxs, hstated₁⟩⟩

namespace LevelGraph

/-- Neighbours in an increasing list have nothing of the list between them. -/
theorem mem_zip_tail_iff {ks : List Int64} (hks : ks.Pairwise (· < ·)) {a b : Int64} :
    (a, b) ∈ ks.zip ks.tail ↔ a ∈ ks ∧ b ∈ ks ∧ a < b ∧ ∀ k ∈ ks, a < k → ¬ k < b := by
  constructor
  · intro hab
    obtain ⟨ha, hb⟩ := List.of_mem_zip hab
    refine ⟨ha, List.mem_of_mem_tail hb, lt_of_mem_zip_tail hks hab, ?_⟩
    clear ha hb
    induction ks with
    | nil => simp at hab
    | cons x ks ih =>
      obtain ⟨hx, htail⟩ := List.pairwise_cons.mp hks
      cases ks with
      | nil => simp at hab
      | cons y ks =>
        intro k hk hak hkb
        rw [List.tail_cons, List.zip_cons_cons] at hab
        rcases List.mem_cons.mp hab with heq | hlater
        · -- The least two of the list: anything else is above the second.
          obtain ⟨rfl, rfl⟩ := Prod.mk.inj heq
          rcases List.mem_cons.mp hk with rfl | hk
          · exact Int64.lt_irrefl hak
          · rcases List.mem_cons.mp hk with rfl | hk
            · exact Int64.lt_irrefl hkb
            · exact Int64.lt_irrefl (Int64.lt_trans hkb ((List.pairwise_cons.mp htail).1 k hk))
        · rcases List.mem_cons.mp hk with rfl | hk
          · exact Int64.lt_irrefl (Int64.lt_trans hak (hx a (List.of_mem_zip hlater).1))
          · exact ih htail hlater k hk hak hkb
  · rintro ⟨ha, hb, hlt, hbetween⟩
    obtain ⟨a', hnext, hpath⟩ := exists_neighbour hks ha hb hlt
    have hle : a' ≤ b := by
      have hedge : ∀ x y, (x, y) ∈ ks.zip ks.tail → x < y := fun x y h => lt_of_mem_zip_tail hks h
      clear hnext
      induction hpath using Relation.ReflTransGen.head_induction_on with
      | refl => exact Int64.le_refl b
      | head hxy _ ih => exact Int64.le_trans (Int64.le_of_lt (hedge _ _ hxy)) ih
    have hmem : a' ∈ ks := List.mem_of_mem_tail (List.of_mem_zip hnext).2
    have hge : ¬ a' < b := hbetween a' hmem (lt_of_mem_zip_tail hks hnext)
    have heq : a' = b := Int64.le_antisymm hle (Int64.not_lt.mp hge)
    exact heq ▸ hnext

/-- The constraints that make up the graph of a list are those that are stated. -/
theorem stated_iff_mem {cs : List Constraint} {c : Constraint} :
    Stated cs c ↔ c ∈ graphConstraints cs := by
  have hsorted := sortedConsts_pairwise (distinctLevels_nodup cs)
  have hneighbours : ∀ a b, Neighbours cs a b ↔
      (a, b) ∈ (sortedConsts (distinctLevels cs)).zip (sortedConsts (distinctLevels cs)).tail := by
    intro a b
    rw [mem_zip_tail_iff hsorted]
    simp only [mem_sortedConsts]
    constructor
    · exact fun h => ⟨h.lower, h.upper, h.lt, h.between⟩
    · exact fun h => ⟨h.1, h.2.1, h.2.2.1, h.2.2.2⟩
  rw [Stated, graphConstraints, List.mem_append, levelOrder_eq, List.mem_map]
  refine or_congr_right ?_
  constructor
  · rintro ⟨a, b, hab, rfl⟩
    exact ⟨(a, b), (hneighbours a b).mp hab, rfl⟩
  · rintro ⟨⟨a, b⟩, hab, rfl⟩
    exact ⟨a, b, (hneighbours a b).mpr hab, rfl⟩

variable {lg : LevelGraph} {cs : List Constraint}

/-- Paths between vertices are walks between their levels. -/
theorem Represents.reaches_iff_leads (h : lg.Represents (graphConstraints cs)) {i j : Nat}
    {l m : Level} (hi : lg.nodes[i]? = some l) (hj : lg.nodes[j]? = some m) :
    lg.graph.Reaches i j ↔ Leads cs l m := by
  constructor
  · intro hij
    induction hij generalizing m with
    | refl =>
      obtain rfl := Option.some.inj (hi.symm.trans hj)
      exact Leads.refl cs l
    | @tail b c _ hbc ih =>
      obtain ⟨e, he, rfl, rfl⟩ := (h.mem_successors_iff b c).mp hbc
      obtain ⟨hmem, hlo, hhi⟩ := h.sound e he
      obtain rfl := Option.some.inj (hhi.symm.trans hj)
      exact (ih hlo).trans (Leads.of_stated (stated_iff_mem.mpr hmem))
  · rintro ⟨walk, hwalk, hstated⟩
    induction walk generalizing i l with
    | nil =>
      obtain rfl : l = m := hwalk
      rw [h.index_unique hi hj]
      exact Graph.Reaches.refl j
    | cons c walk ih =>
      obtain ⟨hc, hstated⟩ := List.forall_mem_cons.mp hstated
      obtain ⟨rfl, hwalk⟩ := hwalk
      obtain ⟨e, he, hlo, hhi, _⟩ := h.complete c (stated_iff_mem.mp hc)
      have hedge : lg.graph.Reaches i e.target := Graph.Reaches.of_edge
        ((h.mem_successors_iff _ _).mpr ⟨e, he, h.index_unique hlo hi, rfl⟩)
      exact hedge.trans (ih hhi hwalk hstated)

/-- The vertices of a component are those of tied levels. -/
theorem Represents.mem_component_iff_tied (h : lg.Represents (graphConstraints cs))
    {comp : List Nat} (hcomp : comp ∈ lg.graph.components) {i j : Nat} (hmem : i ∈ comp)
    {l m : Level} (hi : lg.nodes[i]? = some l) (hj : lg.nodes[j]? = some m) :
    j ∈ comp ↔ Tied cs l m := by
  have hlt : j < lg.graph.size := h.size_graph ▸ (List.getElem?_eq_some_iff.mp hj).1
  rw [Graph.mem_component_iff h.graph_wellFormed hcomp hmem, and_iff_right hlt]
  exact and_congr (h.reaches_iff_leads hi hj) (h.reaches_iff_leads hj hi)

/-- The constraints along a path are a walk between the levels at its ends. -/
theorem Represents.along_isWalk (h : lg.Represents cs) {within : Nat → Bool} (path : List Nat) :
    ∀ {start goal : Nat} {l m : Level}, lg.graph.IsPath within start goal path →
      lg.nodes[start]? = some l → lg.nodes[goal]? = some m →
      IsWalk l m (lg.along path) ∧ ∀ c ∈ lg.along path, c ∈ cs := by
  induction path with
  | nil =>
    intro start goal l m hpath
    simpa using hpath.head
  | cons v path ih =>
    intro start goal l m hpath hl hm
    obtain rfl : v = start := Option.some.inj hpath.head
    cases path with
    | nil =>
      obtain rfl : v = goal := Option.some.inj hpath.last
      exact ⟨Option.some.inj (hl.symm.trans hm), by simp [along]⟩
    | cons w path =>
      obtain ⟨⟨hedge, _⟩, hrest⟩ := List.isChain_cons_cons.mp hpath.edges
      obtain ⟨e, he, rfl, rfl⟩ := (h.mem_successors_iff v w).mp hedge
      obtain ⟨hmem, hlo, hhi⟩ := h.sound e he
      obtain ⟨hwalk, hall⟩ := ih ⟨rfl, hpath.last, hrest⟩ hhi hm
      simp only [along, h.constraint?_eq he, Option.toList_some, List.singleton_append]
      exact ⟨⟨Option.some.inj (hlo.symm.trans hl), hwalk⟩, List.forall_mem_cons.mpr ⟨hmem, hall⟩⟩

/-- A strict edge inside a component is closed to a cycle. -/
theorem Represents.isWalk_of_cycleFrom? (h : lg.Represents cs) {comp : List Nat}
    (hcomp : comp ∈ lg.graph.components) {v w : Nat} (hv : v ∈ comp)
    (hw : w ∈ lg.graph.successors v) {chain : List Constraint}
    (hchain : lg.cycleFrom? lg.graph comp v w = some chain) :
    ∃ c back, chain = c :: back ∧ c.strict = true ∧ IsWalk c.hi c.lo back ∧
      ∀ d ∈ chain, d ∈ cs := by
  have hg := h.graph_wellFormed
  obtain ⟨e, he, rfl, rfl⟩ := (h.mem_successors_iff v w).mp hw
  obtain ⟨hmem, hlo, hhi⟩ := h.sound e he
  simp only [cycleFrom?, h.constraint?_eq he, Option.bind_eq_bind, Option.bind_some] at hchain
  split at hchain
  · rename_i hinside
    obtain ⟨htarget, hstrict⟩ := Bool.and_eq_true_iff.mp hinside
    obtain rfl := Option.some.inj hchain
    refine ⟨e.constraint, _, rfl, hstrict, ?_⟩
    by_cases hloop : e.source = e.target
    · rw [if_pos hloop]
      rw [← hloop] at hhi
      exact ⟨Option.some.inj (hhi.symm.trans hlo), by simpa [along] using hmem⟩
    · rw [if_neg hloop]
      have htarget : e.target ∈ comp := by simpa using htarget
      obtain ⟨path, hpath⟩ :=
        Graph.exists_path? hg (Graph.lt_size_of_mem_component hg hcomp htarget)
        (Graph.connected_within_component hg hcomp htarget hv)
      have hback := Graph.isPath_of_path? hg (Graph.lt_size_of_mem_component hg hcomp htarget) hpath
      obtain ⟨hwalk, hall⟩ := h.along_isWalk path hback hhi hlo
      rw [hpath, Option.getD_some]
      exact ⟨hwalk, List.forall_mem_cons.mpr ⟨hmem, hall⟩⟩
  · cases hchain

/-- What is reported as a strict cycle is one. -/
theorem Represents.isWalk_of_strictCycle? (h : lg.Represents cs) {chain : List Constraint}
    (hchain : lg.strictCycle? lg.graph lg.graph.components = some chain) :
    ∃ c back, chain = c :: back ∧ c.strict = true ∧ IsWalk c.hi c.lo back ∧
      ∀ d ∈ chain, d ∈ cs := by
  obtain ⟨comp, hcomp, hchain⟩ := List.exists_of_findSome?_eq_some hchain
  obtain ⟨v, hv, hchain⟩ := List.exists_of_findSome?_eq_some hchain
  obtain ⟨w, hw, hchain⟩ := List.exists_of_findSome?_eq_some hchain
  exact h.isWalk_of_cycleFrom? hcomp hv hw hchain

/-- A strict cycle is reported exactly if there is one. -/
theorem strictCycle?_eq_none_iff_not_strictCycle :
    (ofConstraints cs).strictCycle? (ofConstraints cs).graph
      (ofConstraints cs).graph.components = none ↔ ¬ StrictCycle cs := by
  have h := ofConstraints_represents cs
  constructor
  · intro hnone hcycle
    obtain ⟨c, hc, hstrict, hback⟩ := hcycle.exists_strict
    obtain ⟨e, he, hlo, hhi, hedge⟩ := h.complete c (stated_iff_mem.mp hc)
    have hsource : e.source < (ofConstraints cs).graph.size := h.size_graph ▸ h.source_lt he
    obtain ⟨comp, hcomp, hmem⟩ := Graph.exists_component h.graph_wellFormed hsource
    have hinside : e.target ∈ comp :=
      (h.mem_component_iff_tied hcomp hmem hlo hhi).mpr ⟨Leads.of_stated hc, hback⟩
    have hloose := (strictCycle?_eq_none_iff h _).mp hnone comp hcomp e he hmem hinside
    rw [hedge hstrict] at hloose
    exact absurd hloose (by simp)
  · intro hcycle
    cases hchain : (ofConstraints cs).strictCycle? (ofConstraints cs).graph
        (ofConstraints cs).graph.components with
    | none => rfl
    | some chain =>
      obtain ⟨c, back, rfl, hstrict, hwalk, hall⟩ := h.isWalk_of_strictCycle? hchain
      exact absurd ⟨c.lo, c :: back, ⟨rfl, hwalk⟩, fun d hd => stated_iff_mem.mpr (hall d hd), c,
        List.mem_cons_self .., hstrict⟩ hcycle

end LevelGraph

open LevelGraph

/-- A store with a cycle through a strict constraint is refused, and what is reported is such a
cycle: it starts with a strict constraint, each constraint leads on to the next and the last one
back to the first, and each is a constraint of the store or the order of two neighbouring concrete
levels of it. -/
theorem strict_cycle_reported (s : LevelStore) (hcycle : StrictCycle s.constraints) :
    ∃ first back, checkLevels s.constraints = .error ⟨first :: back⟩ ∧ first.strict = true ∧
      IsWalk first.lo first.lo (first :: back) ∧ ∀ c ∈ first :: back, Stated s.constraints c := by
  have h := ofConstraints_represents s.constraints
  cases hchain : (ofConstraints s.constraints).strictCycle? (ofConstraints s.constraints).graph
      (ofConstraints s.constraints).graph.components with
  | none => exact absurd hcycle (strictCycle?_eq_none_iff_not_strictCycle.mp hchain)
  | some chain =>
    obtain ⟨first, back, rfl, hstrict, hwalk, hall⟩ := h.isWalk_of_strictCycle? hchain
    refine ⟨first, back, ?_, hstrict, ⟨rfl, hwalk⟩, fun c hc => stated_iff_mem.mpr (hall c hc)⟩
    simp only [checkLevels, hchain]

def pinchedLevel : LevelStore where
  owner := "unit"
  constraints :=
    [⟨.const 2, .var ⟨"unit", 0, false⟩, false, "first"⟩,
     ⟨.var ⟨"unit", 0, false⟩, .var ⟨"unit", 1, false⟩, false, "second"⟩,
     ⟨.var ⟨"unit", 1, false⟩, .const 1, false, "third"⟩]

/-- The cycle goes through the order of the two concrete levels, the only strict constraint on it.
-/
theorem strict_cycle_reported_pinched : StrictCycle pinchedLevel.constraints ∧
    ∃ first back, checkLevels pinchedLevel.constraints = .error ⟨first :: back⟩ ∧
      first.strict = true ∧ IsWalk first.lo first.lo (first :: back) ∧
      ∀ c ∈ first :: back, Stated pinchedLevel.constraints c := by
  have horder : Stated pinchedLevel.constraints ⟨.const 1, .const 2, true, "level order"⟩ :=
    stated_iff_mem.mpr (by decide)
  have hcycle : StrictCycle pinchedLevel.constraints := by
    refine ⟨.const 2, pinchedLevel.constraints ++ [⟨.const 1, .const 2, true, "level order"⟩],
      by simp [pinchedLevel, IsWalk], ?_, _, List.mem_append_right _
      (List.mem_singleton_self _), rfl⟩
    exact List.forall_mem_append.mpr ⟨fun c hc => .inl hc, List.forall_mem_singleton.mpr horder⟩
  exact ⟨hcycle, strict_cycle_reported pinchedLevel hcycle⟩

end Implicits
