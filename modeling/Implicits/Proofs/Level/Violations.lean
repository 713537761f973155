import Implicits.Proofs.Level.Cycles
import Implicits.Proofs.Level.Overflow

/-!
Chains that force a number above its value. A component is given its value by one of the edges into
it, and the chain of a vertex lists the edges that gave the values on the way to it. An edge starts
at some level of a component and the edge before it ends at some level of the same component, so the
chain is a walk up to tied levels. It excludes every valuation under which the levels that it jumps
between agree, and if it jumps nowhere, it excludes all of them.
-/
namespace Implicits

/-- What the constraints of a chain, latest first, leave open at the levels where they meet: the
next one starts no lower than the one before it ends, and no lower than a number that its start is
tied to. -/
structure Bridged (cs : List Constraint) (v : Valuation) (chain : List Constraint) : Prop where
  meet : chain.IsChain fun c d => d.hi.value v ≤ c.lo.value v
  number : ∀ c ∈ chain, ∀ k, Tied cs (.const k) c.lo → k.toInt ≤ c.lo.value v

theorem Bridged.tail {cs : List Constraint} {v : Valuation} {c : Constraint}
    {chain : List Constraint} (h : Bridged cs v (c :: chain)) : Bridged cs v chain :=
  ⟨h.meet.tail, fun d hd => h.number d (List.mem_cons_of_mem _ hd)⟩

namespace LevelGraph

variable {lg : LevelGraph} {cs : List Constraint}

/-- The bound that the edges into a component give, with the constraints that force it. -/
def bound (lg : LevelGraph) (placed : List (Nat × Placement)) (comp : List Nat) : Placement :=
  (lg.incoming comp).foldl (raise placed) ⟨-1, []⟩

theorem leastValue_eq (lg : LevelGraph) (placed : List (Nat × Placement)) (comp : List Nat) :
    lg.leastValue placed comp =
      if 0 < (lg.bound placed comp).value then (lg.bound placed comp).value else 0 := rfl

theorem place_eq (lg : LevelGraph) (placed : List (Nat × Placement)) (comp : List Nat) :
    lg.place placed comp = match lg.fixedLevel? comp with
      | none => .ok
        (comp.map (·, ⟨lg.leastValue placed comp, (lg.bound placed comp).chain⟩) ++ placed)
      | some k =>
        if k < lg.leastValue placed comp then .error ⟨(lg.bound placed comp).chain.reverse⟩
        else .ok (comp.map (·, ⟨k, (lg.bound placed comp).chain⟩) ++ placed) := rfl

theorem raise_cases (placed : List (Nat × Placement)) (b : Placement) (e : Edge) :
    raise placed b e = b ∨ ∃ p, placed.lookup e.source = some p ∧
      raise placed b e = ⟨e.asks p, e.constraint :: p.chain⟩ := by
  cases hlookup : placed.lookup e.source with
  | none => exact .inl (by rw [raise, hlookup])
  | some p =>
    have hraise : raise placed b e =
        if b.value < e.asks p then ⟨e.asks p, e.constraint :: p.chain⟩ else b := by
      rw [raise, hlookup]
      rfl
    rw [hraise]
    split
    · exact .inr ⟨p, rfl, rfl⟩
    · exact .inl rfl

theorem foldl_raise_cases (placed : List (Nat × Placement)) (es : List Edge) (b : Placement) :
    es.foldl (raise placed) b = b ∨ ∃ e ∈ es, ∃ p, placed.lookup e.source = some p ∧
      es.foldl (raise placed) b = ⟨e.asks p, e.constraint :: p.chain⟩ := by
  induction es generalizing b with
  | nil => exact .inl rfl
  | cons a es ih =>
    rw [List.foldl_cons]
    rcases ih (raise placed b a) with heq | ⟨e, he, p, hp, heq⟩
    · rw [heq]
      rcases raise_cases placed b a with hold | ⟨p, hp, hnew⟩
      · exact .inl hold
      · exact .inr ⟨a, List.mem_cons_self .., p, hp, hnew⟩
    · exact .inr ⟨e, List.mem_cons_of_mem _ he, p, hp, heq⟩

/-- A bound is the first one, or one edge into the component gives it. -/
theorem bound_cases (lg : LevelGraph) (placed : List (Nat × Placement)) (comp : List Nat) :
    lg.bound placed comp = ⟨-1, []⟩ ∨ ∃ e ∈ lg.edges, e.target ∈ comp ∧ ∃ p,
      placed.lookup e.source = some p ∧
      lg.bound placed comp = ⟨e.asks p, e.constraint :: p.chain⟩ := by
  rcases foldl_raise_cases placed (lg.incoming comp) ⟨-1, []⟩ with heq | ⟨e, he, p, hp, heq⟩
  · exact .inl heq
  · obtain ⟨hedge, htarget⟩ := (mem_incoming lg comp e).mp he
    exact .inr ⟨e, hedge, htarget, p, hp, heq⟩

theorem toInt_asks {placed : List (Nat × Placement)} (hroom : Roomy placed) {e : Edge}
    {p : Placement} (hp : placed.lookup e.source = some p) : (e.asks p).toInt = e.lower p := by
  unfold Edge.asks Edge.lower Constraint.gap
  split
  · exact toInt_add_one (hroom e.source p hp)
  · simp

/-- A chain, latest first, that leads to a level by stated constraints, up to tied levels. -/
structure LeadsUp (cs : List Constraint) (l : Level) (chain : List Constraint) : Prop where
  stated : ∀ c ∈ chain, Stated cs c
  joined : chain.IsChain fun c d => Tied cs d.hi c.lo
  ends : ∀ c ∈ chain.head?, Tied cs c.hi l

/-- What the chain of a placement shows about a level: it is at least at the value if it is no lower
than the end of the chain and than the numbers that it is tied to. -/
structure Traced (cs : List Constraint) (l : Level) (p : Placement) : Prop
    extends LeadsUp cs l p.chain where
  forced : ∀ v : Valuation, v.Satisfies p.chain → Bridged cs v p.chain →
    (∀ c ∈ p.chain.head?, c.hi.value v ≤ l.value v) →
    (∀ k, Tied cs (.const k) l → k.toInt ≤ l.value v) → p.value.toInt ≤ l.value v

structure Bounds (cs : List Constraint) (l : Level) (b : Placement) : Prop
    extends LeadsUp cs l b.chain where
  forced : ∀ v : Valuation, v.Satisfies b.chain → Bridged cs v b.chain →
    ∀ c ∈ b.chain.head?, b.value.toInt ≤ c.hi.value v
  empty : b.chain = [] → b.value = -1

/-- A positive bound has a constraint that gives it. -/
theorem Bounds.exists_head {l : Level} {b : Placement} (h : Bounds cs l b) (hpos : 0 < b.value) :
    ∃ c, b.chain.head? = some c := by
  cases hchain : b.chain with
  | nil =>
    rw [h.empty hchain] at hpos
    exact absurd hpos (by decide)
  | cons c chain => exact ⟨c, rfl⟩

def AllTraced (lg : LevelGraph) (cs : List Constraint) (placed : List (Nat × Placement)) : Prop :=
  ∀ i p l, placed.lookup i = some p → lg.nodes[i]? = some l → Traced cs l p

/-- The edge that gives a bound prolongs the chain of its source. -/
theorem bounds_bound (h : lg.Represents (graphConstraints cs)) {placed : List (Nat × Placement)}
    (htraced : AllTraced lg cs placed) (hroom : Roomy placed) {comp : List Nat}
    (hcomp : comp ∈ lg.graph.components) {j : Nat} (hmem : j ∈ comp) {m : Level}
    (hj : lg.nodes[j]? = some m) : Bounds cs m (lg.bound placed comp) := by
  rcases bound_cases lg placed comp with heq | ⟨e, he, htarget, p, hp, heq⟩
  · rw [heq]
    exact ⟨⟨by simp, .nil, by simp⟩, by simp, fun _ => rfl⟩
  · obtain ⟨hconstraint, hlo, hhi⟩ := h.sound e he
    have hsource := htraced e.source p _ hp hlo
    rw [heq]
    refine ⟨⟨List.forall_mem_cons.mpr ⟨stated_iff_mem.mpr hconstraint, hsource.stated⟩,
      hsource.joined.cons hsource.ends, ?_⟩, ?_, by simp⟩
    · simpa using (h.mem_component_iff_tied hcomp htarget hhi hj).mp hmem
    · intro v hv hbridged
      obtain ⟨hholds, hrest⟩ := List.forall_mem_cons.mp hv
      have hmeet := (List.isChain_cons.mp hbridged.meet).1
      have hvalue := hsource.forced v hrest hbridged.tail hmeet
        (hbridged.number _ (List.mem_cons_self ..))
      have hgap := (Constraint.holds_iff_gap v _).mp hholds
      simp only [List.head?_cons, Option.mem_some_iff, forall_eq']
      rw [toInt_asks hroom hp, Edge.lower]
      omega

namespace Placeable

variable {largest : Int} {seen rest : List (List Nat)} {comp : List Nat}
  {placed : List (Nat × Placement)}

/-- A level that is tied to the number of its component. -/
theorem tied_fixedLevel? (h : lg.Placeable (graphConstraints cs) largest)
    (hcomp : comp ∈ lg.graph.components) {k : Int64} (hk : lg.fixedLevel? comp = some k) {j : Nat}
    (hmem : j ∈ comp) {m : Level} (hj : lg.nodes[j]? = some m) : Tied cs (.const k) m := by
  obtain ⟨i, hi, hnode⟩ := (h.fixedLevel?_eq_some_iff hcomp k).mp hk
  exact (h.represents.mem_component_iff_tied hcomp hi hnode hj).mp hmem

/-- The chain of a component that has been placed, at its least value or at its number. -/
theorem traced_of_bounds (h : lg.Placeable (graphConstraints cs) largest)
    (hcomp : comp ∈ lg.graph.components) {j : Nat} (hmem : j ∈ comp) {m : Level}
    (hj : lg.nodes[j]? = some m) (hbounds : Bounds cs m (lg.bound placed comp)) {value : Int64}
    (hvalue : value = lg.leastValue placed comp ∨ lg.fixedLevel? comp = some value) :
    Traced cs m ⟨value, (lg.bound placed comp).chain⟩ := by
  refine ⟨hbounds.toLeadsUp, fun v hv hbridged hend hnumber => ?_⟩
  rcases hvalue with rfl | hfixed
  · have hnonneg : 0 ≤ m.value v := by
      cases m with
      | const k => exact h.const_nonneg k (List.mem_of_getElem? hj)
      | var x => exact Int.natCast_nonneg _
    rw [leastValue_eq]
    by_cases hpos : 0 < (lg.bound placed comp).value
    · rw [if_pos hpos]
      obtain ⟨c, hc⟩ := hbounds.exists_head hpos
      exact Int.le_trans (hbounds.forced v hv hbridged c hc) (hend c hc)
    · rw [if_neg hpos]
      exact hnonneg
  · exact hnumber value (h.tied_fixedLevel? hcomp hfixed hmem hj)

/-- Placing a component keeps all chains as they should be. -/
theorem allTraced_step (h : lg.Placeable (graphConstraints cs) largest)
    (hcomps : lg.graph.components = seen ++ comp :: rest)
    (hp : Placed lg (graphConstraints cs) largest seen placed) (htraced : AllTraced lg cs placed)
    {placed' : List (Nat × Placement)} (hok : lg.place placed comp = .ok placed') :
    AllTraced lg cs placed' := by
  have hcomp : comp ∈ lg.graph.components := by simp [hcomps]
  have hlen := h.length_le hcomps hp
  have hroom : Roomy placed := h.roomy hp (by omega)
  -- The new vertices share the chain of the bound; the others keep theirs.
  have hnew : ∀ value, (value = lg.leastValue placed comp ∨ lg.fixedLevel? comp = some value) →
      AllTraced lg cs (comp.map (·, ⟨value, (lg.bound placed comp).chain⟩) ++ placed) := by
    intro value hvalue i p l hlookup hi
    rw [lookup_placed] at hlookup
    by_cases hmem : i ∈ comp
    · rw [if_pos hmem] at hlookup
      obtain rfl := Option.some.inj hlookup
      exact h.traced_of_bounds hcomp hmem hi
        (bounds_bound h.represents htraced hroom hcomp hmem hi) hvalue
    · rw [if_neg hmem] at hlookup
      exact htraced i p l hlookup hi
  rw [place_eq] at hok
  cases hfixed : lg.fixedLevel? comp with
  | none =>
    simp only [hfixed] at hok
    obtain rfl := Except.ok.inj hok
    exact hnew _ (.inl rfl)
  | some k =>
    simp only [hfixed] at hok
    split at hok
    · cases hok
    · obtain rfl := Except.ok.inj hok
      exact hnew k (.inr hfixed)

end Placeable

end LevelGraph

/-- Constraints, in order, that force a number above its value once the levels where they meet are
bridged. -/
structure Overruns (cs : List Constraint) (k : Int64) (chain : List Constraint) : Prop where
  stated : ∀ c ∈ chain, Stated cs c
  joined : chain.IsChain fun c d => Tied cs c.hi d.lo
  last : ∃ c, chain.getLast? = some c ∧ Tied cs c.hi (.const k) ∧
    ∀ v : Valuation, v.Satisfies chain → Bridged cs v chain.reverse → k.toInt < c.hi.value v

namespace LevelGraph.Placeable

variable {lg : LevelGraph} {cs : List Constraint} {largest : Int}

/-- A component that is refused has a number below what its bound forces. -/
theorem overruns_of_place (h : lg.Placeable (graphConstraints cs) largest)
    {seen rest : List (List Nat)} {comp : List Nat} {placed : List (Nat × Placement)}
    (hcomps : lg.graph.components = seen ++ comp :: rest)
    (hp : Placed lg (graphConstraints cs) largest seen placed) (htraced : AllTraced lg cs placed)
    {e : Inconsistency} (herror : lg.place placed comp = .error e) :
    ∃ k, Overruns cs k e.chain := by
  have hcomp : comp ∈ lg.graph.components := by simp [hcomps]
  have hlen := h.length_le hcomps hp
  have hroom : Roomy placed := h.roomy hp (by omega)
  rw [place_eq] at herror
  cases hfixed : lg.fixedLevel? comp with
  | none => simp [hfixed] at herror
  | some k =>
    simp only [hfixed] at herror
    split at herror
    · rename_i hlt
      obtain rfl := Except.error.inj herror
      obtain ⟨i, hmem, hnode⟩ := (h.fixedLevel?_eq_some_iff hcomp k).mp hfixed
      have hbounds := bounds_bound h.represents htraced hroom hcomp hmem hnode
      have hk := h.const_nonneg k (List.mem_of_getElem? hnode)
      have hpos : 0 < (lg.bound placed comp).value := by
        by_contra hpos
        rw [leastValue_eq, if_neg hpos, Int64.lt_iff_toInt_lt] at hlt
        have hzero : (0 : Int64).toInt = 0 := by decide
        omega
      rw [leastValue_eq, if_pos hpos, Int64.lt_iff_toInt_lt] at hlt
      obtain ⟨c, hc⟩ := hbounds.exists_head hpos
      refine ⟨k, by simpa using hbounds.stated, List.isChain_reverse.mpr hbounds.joined,
        c, by rw [List.getLast?_reverse, hc], hbounds.ends c hc, fun v hv hbridged => ?_⟩
      rw [List.reverse_reverse] at hbridged
      have hchain : v.Satisfies (lg.bound placed comp).chain :=
        fun d hd => hv d (List.mem_reverse.mpr hd)
      exact Int.lt_of_lt_of_le hlt (hbounds.forced v hchain hbridged c hc)
    · cases herror

/-- Components that cannot all be placed contain a number that is overrun. -/
theorem overruns_of_foldlM (h : lg.Placeable (graphConstraints cs) largest)
    (rest : List (List Nat)) :
    ∀ seen placed, lg.graph.components = seen ++ rest →
      Placed lg (graphConstraints cs) largest seen placed → AllTraced lg cs placed →
      ∀ e, rest.foldlM lg.place placed = .error e → ∃ k, Overruns cs k e.chain := by
  induction rest with
  | nil =>
    intro seen placed _ _ _ e herror
    cases herror
  | cons comp rest ih =>
    intro seen placed hcomps hp htraced e herror
    rw [List.foldlM_cons] at herror
    cases hplace : lg.place placed comp with
    | error err =>
      rw [hplace] at herror
      obtain rfl := Except.error.inj herror
      exact h.overruns_of_place hcomps hp htraced hplace
    | ok placed' =>
      rw [hplace] at herror
      exact ih (seen ++ [comp]) placed' (by simp [hcomps])
        ((h.place_step hcomps hp).1 placed' hplace)
        (h.allTraced_step hcomps hp htraced hplace) e herror

end LevelGraph.Placeable

open LevelGraph

/-- A list without a strict cycle is refused for a number that is overrun. -/
theorem overruns_of_checkLevels {cs : List Constraint} (hcs : Moderate cs)
    (hcycle : ¬ StrictCycle cs) {e : Inconsistency} (herror : checkLevels cs = .error e) :
    ∃ k, Overruns cs k e.chain := by
  have hnone := strictCycle?_eq_none_iff_not_strictCycle.mpr hcycle
  have h := ofConstraints_placeable hcs hnone
  unfold checkLevels at herror
  simp only [hnone] at herror
  cases hfold : (ofConstraints cs).graph.components.foldlM (ofConstraints cs).place [] with
  | error err =>
    rw [hfold] at herror
    obtain rfl := Except.error.inj herror
    exact h.overruns_of_foldlM _ [] [] (List.nil_append _).symm (placed_nil _ _ _)
      (fun i p l hlookup => by simp at hlookup) err hfold
  | ok placed =>
    rw [hfold] at herror
    cases herror

/-- Constraints of which each leads on to the next are a walk. -/
theorem isWalk_of_isChain {chain : List Constraint} (hchain : chain.IsChain fun c d => c.hi = d.lo)
    {c : Constraint} (hlast : chain.getLast? = some c) : ∃ l, IsWalk l c.hi chain := by
  induction chain with
  | nil => simp at hlast
  | cons d chain ih =>
    cases chain with
    | nil =>
      obtain rfl : d = c := Option.some.inj hlast
      exact ⟨d.lo, rfl, rfl⟩
    | cons d' chain =>
      obtain ⟨heq, hrest⟩ := List.isChain_cons_cons.mp hchain
      obtain ⟨l, hl, hwalk⟩ := ih hrest (by simpa using hlast)
      exact ⟨d.lo, rfl, heq.symm, hwalk⟩

theorem IsWalk.isChain {l m : Level} {chain : List Constraint} (h : IsWalk l m chain) :
    (chain.IsChain fun c d => c.hi = d.lo) ∧ ∀ c ∈ chain.getLast?, c.hi = m := by
  induction chain generalizing l with
  | nil => exact ⟨.nil, by simp⟩
  | cons d chain ih =>
    obtain ⟨-, hrest⟩ := h
    obtain ⟨hchain, hlast⟩ := ih hrest
    cases chain with
    | nil =>
      obtain rfl : d.hi = m := hrest
      exact ⟨.singleton d, by simp⟩
    | cons d' chain => exact ⟨.cons_cons hrest.1.symm hchain, by simpa using hlast⟩

/-- A valuation under which the levels of a chain have the value of every level that they are tied
to. -/
def Levelled (cs : List Constraint) (v : Valuation) (chain : List Constraint) : Prop :=
  ∀ c ∈ chain, ∀ l ∈ c.ends, ∀ m, Tied cs l m → m.value v = l.value v

namespace Overruns

variable {cs : List Constraint} {k : Int64} {chain : List Constraint}

/-- No valuation satisfies the chain and the equalities of tied levels. -/
theorem not_levelled (h : Overruns cs k chain) {v : Valuation} (hv : v.Satisfies chain) :
    ¬ Levelled cs v chain := by
  intro hlevel
  obtain ⟨last, hlast, htied, hforced⟩ := h.last
  have hbridged : Bridged cs v chain.reverse := by
    refine ⟨List.isChain_reverse.mpr (h.joined.imp_of_mem_imp ?_), fun c hc j hj => ?_⟩
    · intro c d hc _ hcd
      exact Int.le_of_eq (hlevel c hc c.hi (by simp [Constraint.ends]) _ hcd).symm
    · have heq := hlevel c (List.mem_reverse.mp hc) c.lo (by simp [Constraint.ends]) _ hj.symm
      exact Int.le_of_eq heq
  have hlt := hforced v hv hbridged
  have heq := hlevel last (List.mem_of_getLast? hlast) last.hi (by simp [Constraint.ends]) _ htied
  rw [← heq] at hlt
  exact Int.lt_irrefl _ hlt

/-- A chain that leads to the number by itself, and that starts at a number where it starts at a
level tied to one, excludes all valuations. -/
theorem not_satisfiable_of_isWalk (h : Overruns cs k chain) {l : Level}
    (hwalk : IsWalk l (.const k) chain)
    (hnumber : ∀ c ∈ chain, ∀ j, Tied cs (.const j) c.lo → c.lo = .const j) :
    ¬ Satisfiable chain := by
  rintro ⟨v, hv⟩
  obtain ⟨last, hlast, -, hforced⟩ := h.last
  obtain ⟨hchain, hend⟩ := hwalk.isChain
  have hbridged : Bridged cs v chain.reverse := by
    refine ⟨List.isChain_reverse.mpr (hchain.imp fun c d hcd => ?_), fun c hc j hj => ?_⟩
    · rw [hcd]
    · rw [hnumber c (List.mem_reverse.mp hc) j hj]
      exact Int.le_refl _
  have hlt := hforced v hv hbridged
  rw [hend last hlast] at hlt
  exact Int.lt_irrefl _ hlt

/-- A chain whose levels are tied to themselves only leads to the number by itself. -/
theorem isWalk_of_untied (h : Overruns cs k chain)
    (huntied : ∀ c ∈ chain, ∀ l ∈ c.ends, ∀ m, Tied cs l m → m = l) :
    ∃ l, IsWalk l (.const k) chain := by
  obtain ⟨last, hlast, htied, -⟩ := h.last
  have hchain : chain.IsChain fun c d => c.hi = d.lo :=
    h.joined.imp_of_mem_imp
      fun c d hc _ hcd => (huntied c hc c.hi (by simp [Constraint.ends]) _ hcd).symm
  have hend := huntied last (List.mem_of_getLast? hlast) last.hi (by simp [Constraint.ends]) _ htied
  rw [hend]
  exact isWalk_of_isChain hchain hlast

end Overruns

/-- A store without a strict cycle is refused for a number that is forced above its value. The
reported constraints are constraints of the store or the order of neighbouring numbers; each leads
on to the next, and the last one to the number, up to levels on a common cycle; and no valuation
satisfies them that gives the levels on a common cycle the same value. They exclude all valuations
by themselves if they lead to the number without such a jump and start at a number wherever they
start at a level tied to one. In particular the chain is connected and cannot be satisfied if none
of its levels is on a cycle with another level. -/
theorem violation_reported (s : LevelStore) (hs : Moderate s.constraints)
    (hcycle : ¬ StrictCycle s.constraints) (e : Inconsistency)
    (herror : checkLevels s.constraints = .error e) :
    ∃ k, (∀ c ∈ e.chain, Stated s.constraints c) ∧
      (e.chain.IsChain fun c d => Tied s.constraints c.hi d.lo) ∧
      (∃ c, e.chain.getLast? = some c ∧ Tied s.constraints c.hi (.const k)) ∧
      (∀ v : Valuation, v.Satisfies e.chain → ¬ Levelled s.constraints v e.chain) ∧
      (∀ l, IsWalk l (.const k) e.chain →
        (∀ c ∈ e.chain, ∀ j, Tied s.constraints (.const j) c.lo → c.lo = .const j) →
        ¬ Satisfiable e.chain) ∧
      ((∀ c ∈ e.chain, ∀ l ∈ c.ends, ∀ m, Tied s.constraints l m → m = l) →
        (∃ l, IsWalk l (.const k) e.chain) ∧ ¬ Satisfiable e.chain) := by
  obtain ⟨k, h⟩ := overruns_of_checkLevels hs hcycle herror
  obtain ⟨last, hlast, htied, -⟩ := h.last
  refine ⟨k, h.stated, h.joined, ⟨last, hlast, htied⟩, fun v hv => h.not_levelled hv,
    fun l hwalk hnumber => h.not_satisfiable_of_isWalk hwalk hnumber, fun huntied => ?_⟩
  obtain ⟨l, hwalk⟩ := h.isWalk_of_untied huntied
  refine ⟨⟨l, hwalk⟩, h.not_satisfiable_of_isWalk hwalk fun c hc j hj => ?_⟩
  exact (huntied c hc c.lo (by simp [Constraint.ends]) _ hj.symm).symm

theorem Leads.mem_distinctLevels {cs : List Constraint} {l m : Level} (h : Leads cs l m)
    (hl : l ∈ distinctLevels cs) : m ∈ distinctLevels cs := by
  obtain ⟨walk, hwalk, hstated⟩ := h
  induction walk generalizing l with
  | nil =>
    obtain rfl : l = m := hwalk
    exact hl
  | cons c walk ih =>
    obtain ⟨hc, hstated⟩ := List.forall_mem_cons.mp hstated
    exact ih (ends_mem_of_mem_graphConstraints (stated_iff_mem.mp hc)).2 hwalk.2 hstated

/-- Where all components are single vertices, no two levels are tied. -/
theorem eq_of_tied {cs : List Constraint}
    (hsingle : ∀ comp ∈ (ofConstraints cs).graph.components, comp.length = 1) {l m : Level}
    (hl : l ∈ distinctLevels cs) (h : Tied cs l m) : m = l := by
  have hrep := ofConstraints_represents cs
  obtain ⟨i, hi⟩ := List.mem_iff_getElem?.mp hl
  obtain ⟨j, hj⟩ := List.mem_iff_getElem?.mp (h.1.mem_distinctLevels hl)
  have hlt : i < (ofConstraints cs).graph.size :=
    hrep.size_graph ▸ (List.getElem?_eq_some_iff.mp hi).1
  obtain ⟨comp, hcomp, hmem⟩ := Graph.exists_component hrep.graph_wellFormed hlt
  have hmem' : j ∈ comp := (hrep.mem_component_iff_tied hcomp hmem hi hj).mpr h
  obtain ⟨x, rfl⟩ := List.length_eq_one_iff.mp (hsingle comp hcomp)
  rw [List.mem_singleton] at hmem hmem'
  rw [hmem', ← hmem, hi] at hj
  exact (Option.some.inj hj).symm

def crowdedLevels : LevelStore where
  owner := "unit"
  constraints :=
    [⟨.const 1, .var ⟨"unit", 0, false⟩, true, "first"⟩,
     ⟨.var ⟨"unit", 0, false⟩, .var ⟨"unit", 1, false⟩, true, "second"⟩,
     ⟨.var ⟨"unit", 1, false⟩, .const 3, true, "third"⟩]

/-- No level is on a cycle, so the reported constraints are a walk and exclude all valuations. -/
theorem violation_reported_crowded : Moderate crowdedLevels.constraints ∧
    ¬ StrictCycle crowdedLevels.constraints ∧
    ∃ e, checkLevels crowdedLevels.constraints = .error e ∧ ∃ l k, IsWalk l (.const k) e.chain ∧
      (∀ c ∈ e.chain, Stated crowdedLevels.constraints c) ∧ ¬ Satisfiable e.chain := by
  have hs : Moderate crowdedLevels.constraints := by decide +kernel
  have hcycle : ¬ StrictCycle crowdedLevels.constraints :=
    strictCycle?_eq_none_iff_not_strictCycle.mp (by decide +kernel)
  have htest : (checkLevels crowdedLevels.constraints).toOption = none := by decide +kernel
  cases hcheck : checkLevels crowdedLevels.constraints with
  | ok a => simp [hcheck, Except.toOption] at htest
  | error e =>
    obtain ⟨k, hstated, -, -, -, -, hunsat⟩ := violation_reported crowdedLevels hs hcycle e hcheck
    have hsingle : ∀ comp ∈ (ofConstraints crowdedLevels.constraints).graph.components,
        comp.length = 1 := by decide +kernel
    obtain ⟨⟨l, hwalk⟩, hsat⟩ := hunsat fun c hc l hl m hm => by
      have hends := ends_mem_of_mem_graphConstraints (stated_iff_mem.mp (hstated c hc))
      refine eq_of_tied hsingle ?_ hm
      simp only [Constraint.ends, List.mem_cons, List.not_mem_nil, or_false] at hl
      rcases hl with rfl | rfl
      · exact hends.1
      · exact hends.2
    exact ⟨hs, hcycle, e, rfl, l, k, hwalk, hstated, hsat⟩

def crossedCycle : LevelStore where
  owner := "unit"
  constraints :=
    [⟨.const 1, .var ⟨"unit", 0, false⟩, true, "first"⟩,
     ⟨.var ⟨"unit", 0, false⟩, .var ⟨"unit", 1, false⟩, false, "second"⟩,
     ⟨.var ⟨"unit", 1, false⟩, .var ⟨"unit", 0, false⟩, false, "third"⟩,
     ⟨.var ⟨"unit", 1, false⟩, .const 2, true, "fourth"⟩]

def reportedChain (constraints : List Constraint) : List Constraint :=
  match checkLevels constraints with
  | .ok _ => []
  | .error e => e.chain

/-- The chain enters the cycle at one level and leaves it at the other. It is not connected, and it
can be satisfied. -/
theorem reported_chain_broken : Moderate crossedCycle.constraints ∧
    ¬ StrictCycle crossedCycle.constraints ∧
    ∃ e, checkLevels crossedCycle.constraints = .error e ∧
      ¬ (e.chain.IsChain fun c d => c.hi = d.lo) ∧ Satisfiable e.chain := by
  refine ⟨by decide +kernel, strictCycle?_eq_none_iff_not_strictCycle.mp (by decide +kernel), ?_⟩
  have htest : reportedChain crossedCycle.constraints =
      crossedCycle.constraints.take 1 ++ crossedCycle.constraints.drop 3 := by
    decide +kernel
  unfold reportedChain at htest
  cases hcheck : checkLevels crossedCycle.constraints with
  | ok a =>
    rw [hcheck] at htest
    simp [crossedCycle] at htest
  | error e =>
    rw [hcheck] at htest
    dsimp only at htest
    refine ⟨e, rfl, ?_, fun x => if x.id = 0 then 2 else 0, ?_⟩
    · rw [htest]
      decide
    · rw [htest]
      decide

end Implicits
