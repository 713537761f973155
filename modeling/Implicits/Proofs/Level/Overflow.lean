import Implicits.Proofs.Level.Consistency
import Implicits.Proofs.Outcome
import Implicits.Session

/-!
Level arithmetic at the ends of the 64-bit range. An accepted constraint can be violated in two ways
only: the increment for a strict constraint wraps around at the last number, and a negative concrete
level bounds nothing. All other accepted constraints hold, whatever their concrete levels are.
-/
namespace Implicits

namespace LevelGraph

variable {lg : LevelGraph} {cs : List Constraint}

/-- What an edge asks of its target in 64-bit arithmetic, where the increment may wrap around. -/
def Edge.asks (e : Edge) (p : Placement) : Int64 :=
  if e.constraint.strict then p.value + 1 else p.value

theorem value_raise {placed : List (Nat × Placement)} {e : Edge} {p : Placement}
    (hp : placed.lookup e.source = some p) (b : Placement) :
    (raise placed b e).value = if b.value < e.asks p then e.asks p else b.value := by
  rw [raise, hp]
  change (if b.value < e.asks p then (⟨e.asks p, _⟩ : Placement) else b).value = _
  split
  · rfl
  · rfl

theorem le_raise (placed : List (Nat × Placement)) (b : Placement) (e : Edge) :
    b.value ≤ (raise placed b e).value ∧
      ∀ p, placed.lookup e.source = some p → e.asks p ≤ (raise placed b e).value := by
  cases hlookup : placed.lookup e.source with
  | none =>
    rw [raise, hlookup]
    exact ⟨Int64.le_refl _, by simp⟩
  | some p =>
    simp only [Option.some.injEq, forall_eq']
    rw [value_raise hlookup]
    by_cases hlt : b.value < e.asks p
    · rw [if_pos hlt]
      exact ⟨Int64.le_of_lt hlt, Int64.le_refl _⟩
    · rw [if_neg hlt]
      exact ⟨Int64.le_refl _, Int64.not_lt.mp hlt⟩

theorem le_foldl_raise (placed : List (Nat × Placement)) (es : List Edge) (b : Placement) :
    b.value ≤ (es.foldl (raise placed) b).value ∧ ∀ e ∈ es, ∀ p, placed.lookup e.source = some p →
      e.asks p ≤ (es.foldl (raise placed) b).value := by
  induction es generalizing b with
  | nil => exact ⟨Int64.le_refl _, by simp⟩
  | cons a es ih =>
    obtain ⟨hle, hasks⟩ := le_raise placed b a
    obtain ⟨hle', hasks'⟩ := ih (raise placed b a)
    refine ⟨Int64.le_trans hle hle', fun e he p hp => ?_⟩
    rcases List.mem_cons.mp he with rfl | he
    · exact Int64.le_trans (hasks p hp) hle'
    · exact hasks' e he p hp

/-- The least value of a component is not negative and is what the edges into it ask for. -/
theorem le_leastValue (lg : LevelGraph) (placed : List (Nat × Placement)) (comp : List Nat) :
    0 ≤ lg.leastValue placed comp ∧ ∀ e ∈ lg.edges, e.target ∈ comp → ∀ p,
      placed.lookup e.source = some p → e.asks p ≤ lg.leastValue placed comp := by
  obtain ⟨_, hasks⟩ := le_foldl_raise placed (lg.incoming comp) ⟨-1, []⟩
  simp only [leastValue]
  generalize (lg.incoming comp).foldl (raise placed) ⟨-1, []⟩ = bound at hasks
  by_cases hpos : 0 < bound.value
  · rw [if_pos hpos]
    exact ⟨Int64.le_of_lt hpos, fun e he ht p hp =>
      hasks e ((mem_incoming lg comp e).mpr ⟨he, ht⟩) p hp⟩
  · rw [if_neg hpos]
    exact ⟨Int64.le_refl _, fun e he ht p hp =>
      Int64.le_trans (hasks e ((mem_incoming lg comp e).mpr ⟨he, ht⟩) p hp) (Int64.not_lt.mp hpos)⟩

/-- The vertices of the components in `seen` have values that are not negative, are what the edges
between them ask for, and leave concrete levels as they are unless these are negative. -/
structure Laid (lg : LevelGraph) (seen : List (List Nat))
    (placed : List (Nat × Placement)) : Prop where
  domain : ∀ i, (∃ p, placed.lookup i = some p) ↔ i ∈ seen.flatten
  nonneg : ∀ i p, placed.lookup i = some p → 0 ≤ p.value
  respects : ∀ e ∈ lg.edges, ∀ p q, placed.lookup e.source = some p →
    placed.lookup e.target = some q → e.asks p ≤ q.value
  concrete : ∀ i p k, placed.lookup i = some p → lg.nodes[i]? = some (.const k) →
    0 ≤ k → p.value = k

theorem laid_nil (lg : LevelGraph) : Laid lg [] [] where
  domain := by simp
  nonneg := by simp
  respects := by simp
  concrete := by simp

namespace Layered

variable {seen rest : List (List Nat)} {comp : List Nat} {placed : List (Nat × Placement)}

/-- A value that is large enough, and that of a concrete level, can be given to the next component.
-/
theorem laid_append (h : lg.Layered cs) (hcomps : lg.graph.components = seen ++ comp :: rest)
    (hlaid : Laid lg seen placed) (q : Placement) (hlow : lg.leastValue placed comp ≤ q.value)
    (hconcrete : ∀ i ∈ comp, ∀ k, lg.nodes[i]? = some (.const k) → 0 ≤ k → q.value = k) :
    Laid lg (seen ++ [comp]) (comp.map (·, q) ++ placed) := by
  have hcomp : comp ∈ lg.graph.components := by simp [hcomps]
  obtain ⟨hnonneg, hasks⟩ := le_leastValue lg placed comp
  -- A vertex is in the new component, with the new value, or was placed before.
  have hcases : ∀ i p, (comp.map (·, q) ++ placed).lookup i = some p →
      (i ∈ comp ∧ p = q) ∨ (i ∉ comp ∧ placed.lookup i = some p) := by
    intro i p hlookup
    rw [lookup_placed] at hlookup
    by_cases hi : i ∈ comp
    · rw [if_pos hi] at hlookup
      exact Or.inl ⟨hi, (Option.some.inj hlookup).symm⟩
    · rw [if_neg hi] at hlookup
      exact Or.inr ⟨hi, hlookup⟩
  constructor
  · intro i
    rw [lookup_placed, List.flatten_append, List.flatten_singleton, List.mem_append]
    by_cases hi : i ∈ comp
    · simp [hi]
    · rw [if_neg hi, hlaid.domain i, or_iff_left hi]
  · intro i p hi
    rcases hcases i p hi with ⟨_, rfl⟩ | ⟨_, hi⟩
    · exact Int64.le_trans hnonneg hlow
    · exact hlaid.nonneg i p hi
  · intro e he p r hsource htarget
    rcases hcases _ p hsource with ⟨hs, rfl⟩ | ⟨_, hs⟩
    · rcases hcases _ r htarget with ⟨ht, rfl⟩ | ⟨_, ht⟩
      · -- Inside the component nothing is strict.
        rw [Edge.asks, h.loose comp hcomp e he hs ht]
        exact Int64.le_refl _
      · have hedge : lg.graph.Reaches e.source e.target :=
          Graph.Reaches.of_edge ((h.represents.mem_successors_iff _ _).mpr ⟨e, he, rfl, rfl⟩)
        have hseen : e.target ∈ seen.flatten := (hlaid.domain e.target).mp ⟨r, ht⟩
        exact absurd hedge (h.represents.not_reaches_earlier hcomps hs hseen)
    · rcases hcases _ r htarget with ⟨ht, rfl⟩ | ⟨_, ht⟩
      · exact Int64.le_trans (hasks e he ht p hs) hlow
      · exact hlaid.respects e he p r hs ht
  · intro i p k hi hk hk0
    rcases hcases i p hi with ⟨hmem, rfl⟩ | ⟨_, hi⟩
    · exact hconcrete i hmem k hk hk0
    · exact hlaid.concrete i p k hi hk hk0

theorem laid_step (h : lg.Layered cs) (hcomps : lg.graph.components = seen ++ comp :: rest)
    (hlaid : Laid lg seen placed) {placed' : List (Nat × Placement)}
    (hok : lg.place placed comp = .ok placed') : Laid lg (seen ++ [comp]) placed' := by
  have hcomp : comp ∈ lg.graph.components := by simp [hcomps]
  rcases place_cases lg placed comp with
    ⟨hfixed, chain, hplace⟩ | ⟨k, _, _, err, hplace⟩ | ⟨k, hfixed, hlt, chain, hplace⟩
  · obtain rfl := Except.ok.inj (hplace.symm.trans hok)
    refine h.laid_append hcomps hlaid ⟨lg.leastValue placed comp, chain⟩ (Int64.le_refl _) ?_
    intro i hi k hk hk0
    rw [fixedLevel?_of_const (h.single comp hcomp) hi hk hk0] at hfixed
    exact absurd hfixed (by simp)
  · exact absurd (hplace.symm.trans hok) (by simp)
  · obtain rfl := Except.ok.inj (hplace.symm.trans hok)
    obtain ⟨i, hi, hk⟩ := exists_const_of_fixedLevel? hfixed
    refine h.laid_append hcomps hlaid ⟨k, chain⟩ (Int64.not_lt.mp hlt) ?_
    exact fun j hj a ha _ => h.single comp hcomp i hi j hj k a hk ha

theorem laid_foldlM (h : lg.Layered cs) (hcomps : lg.graph.components = seen ++ rest)
    (hlaid : Laid lg seen placed) {placed' : List (Nat × Placement)}
    (hok : rest.foldlM lg.place placed = .ok placed') : Laid lg lg.graph.components placed' := by
  induction rest generalizing seen placed with
  | nil =>
    rw [List.append_nil] at hcomps
    obtain rfl := Except.ok.inj hok
    exact hcomps ▸ hlaid
  | cons comp rest ih =>
    rw [List.foldlM_cons] at hok
    cases hplace : lg.place placed comp with
    | error err => simp [hplace, bind, Except.bind] at hok
    | ok next =>
      have hcomps' : lg.graph.components = (seen ++ [comp]) ++ rest := by simp [hcomps]
      rw [hplace] at hok
      exact ih hcomps' (h.laid_step hcomps hlaid hplace) hok

/-- A constraint between concrete levels that is accepted holds, since the levels are ordered among
themselves. -/
theorem const_const (h : (ofConstraints cs).Layered (graphConstraints cs))
    {c : Constraint} (hc : c ∈ cs) {a b : Int64} (hlo : c.lo = .const a) (hhi : c.hi = .const b) :
    if c.strict then a < b else a ≤ b := by
  obtain ⟨e, he, hsource, htarget, hstrict⟩ := h.represents.complete c (List.mem_append_left _ hc)
  rw [hlo] at hsource
  rw [hhi] at htarget
  have hedge : (ofConstraints cs).graph.Reaches e.source e.target :=
    Graph.Reaches.of_edge ((h.represents.mem_successors_iff _ _).mpr ⟨e, he, rfl, rfl⟩)
  obtain ⟨comp, hcomp, hi⟩ := Graph.exists_component h.represents.graph_wellFormed
    (h.represents.size_graph ▸ h.represents.target_lt he)
  have hle : a ≤ b := by
    rw [← Int64.not_lt]
    intro hba
    -- The way from the smaller level to the larger one closes a cycle.
    obtain ⟨f, hf, hfsource, _, hreach⟩ := exists_strict_edge_towards h.represents
      (distinctLevels_nodup cs) (fun d hd => List.mem_append_right _ hd)
      (List.mem_of_getElem? htarget) (List.mem_of_getElem? hsource) hba htarget hsource
    have hback : (ofConstraints cs).graph.Reaches e.target e.source :=
      (Graph.Reaches.of_edge
        ((h.represents.mem_successors_iff _ _).mpr ⟨f, hf, hfsource, rfl⟩)).trans hreach
    have hmem : e.source ∈ comp :=
      (Graph.mem_component_iff h.represents.graph_wellFormed hcomp hi _).mpr
        ⟨by rw [h.represents.size_graph]; exact h.represents.source_lt he, hback, hedge⟩
    rw [h.single comp hcomp _ hmem _ hi a b hsource htarget] at hba
    exact Int64.lt_irrefl hba
  by_cases hs : c.strict = true
  · rw [if_pos hs]
    refine Int64.lt_of_le_of_ne hle fun hab => ?_
    subst hab
    have hloop : e.source = e.target := h.represents.index_unique hsource htarget
    have hloose := h.loose comp hcomp e he (hloop ▸ hi) hi
    rw [hstrict hs] at hloose
    exact absurd hloose (by simp)
  · rw [if_neg hs]
    exact hle

end Layered

end LevelGraph

open LevelGraph

def Assignment.Satisfies (a : Assignment) (c : Constraint) : Prop :=
  ∃ lo hi, a.eval? c.lo = some lo ∧ a.eval? c.hi = some hi ∧ if c.strict then lo < hi else lo ≤ hi

theorem Assignment.satisfies_iff {a : Assignment} {c : Constraint} : a.Satisfies c ↔
    (match a.eval? c.lo, a.eval? c.hi with
      | some lo, some hi => if c.strict then decide (lo < hi) else decide (lo ≤ hi)
      | _, _ => false) = true := by
  unfold Satisfies
  cases a.eval? c.lo with
  | none => simp
  | some lo =>
    cases a.eval? c.hi with
    | none => simp
    | some hi => cases c.strict <;> simp

instance (a : Assignment) (c : Constraint) : Decidable (a.Satisfies c) :=
  decidable_of_iff _ Assignment.satisfies_iff.symm

def Assignment.Wraps (a : Assignment) (c : Constraint) : Prop :=
  c.strict = true ∧ a.eval? c.lo = some Int64.maxValue

instance (a : Assignment) (c : Constraint) : Decidable (a.Wraps c) :=
  inferInstanceAs (Decidable (c.strict = true ∧ a.eval? c.lo = some Int64.maxValue))

def Constraint.boundsBelowZero (c : Constraint) : Bool :=
  match c.lo, c.hi with
  | .var _, .const k => decide (k < 0)
  | _, _ => false

theorem Constraint.boundsBelowZero_iff {c : Constraint} :
    c.boundsBelowZero = true ↔ ∃ x k, c.lo = .var x ∧ c.hi = .const k ∧ k < 0 := by
  unfold boundsBelowZero
  cases c.lo with
  | const j => simp
  | var x =>
    cases c.hi with
    | const k => simp
    | var y => simp

section Accepted

variable {cs : List Constraint} {a : Assignment}

/-- Each level of an accepted list has a vertex with a value, which the assignment gives it unless
the level is a negative number. -/
theorem exists_laid_of_checkLevels (hok : checkLevels cs = .ok a) :
    (ofConstraints cs).Layered (graphConstraints cs) ∧ ∃ placed,
      Laid (ofConstraints cs) (ofConstraints cs).graph.components placed ∧
      (∀ i < (distinctLevels cs).length, ∃ p, placed.lookup i = some p) ∧
      ∀ i l p, (ofConstraints cs).nodes[i]? = some l → placed.lookup i = some p →
        (∀ k, l = .const k → 0 ≤ k) → a.eval? l = some p.value := by
  obtain ⟨hcycle, placed, hfold, rfl⟩ := checkLevels_eq_ok hok
  have h := ofConstraints_layered hcycle
  have hlaid := h.laid_foldlM (List.nil_append _).symm (laid_nil _) hfold
  refine ⟨h, placed, hlaid, fun i hi => ?_, fun i l p hi hp hl => ?_⟩
  · rw [hlaid.domain i, List.mem_flatten]
    exact Graph.exists_component h.represents.graph_wellFormed (h.represents.size_graph ▸ hi)
  · cases l with
    | const k => rw [Assignment.eval?, hlaid.concrete i p k hp hi (hl k rfl)]
    | var x => exact level?_assignment h.represents _ placed hi hp

theorem exists_eval?_of_checkLevels (hok : checkLevels cs = .ok a) {l : Level}
    (hl : l ∈ distinctLevels cs) : ∃ k, a.eval? l = some k := by
  cases l with
  | const k => exact ⟨k, rfl⟩
  | var x =>
    obtain ⟨_, placed, _, hdomain, heval⟩ := exists_laid_of_checkLevels hok
    obtain ⟨i, hlt, hi⟩ := List.mem_iff_getElem.mp hl
    obtain ⟨p, hp⟩ := hdomain i hlt
    exact ⟨p.value, heval i _ p (List.getElem?_eq_some_iff.mpr ⟨hlt, hi⟩) hp (by simp)⟩

theorem lt_add_one_of_ne_maxValue {k : Int64} (hk : k ≠ Int64.maxValue) : k < k + 1 := by
  have hne : k.toInt ≠ 2 ^ 63 - 1 := fun h => hk (Int64.toInt_inj.mp (h.trans (by decide)))
  have hlt := k.toInt_lt
  rw [Int64.lt_iff_toInt_lt, toInt_add_one (by omega)]
  omega

/-- An accepted constraint holds unless a variable is bounded by a negative number or the increment
for a strict constraint between the same levels wraps around. -/
theorem satisfies_of_checkLevels (hok : checkLevels cs = .ok a) {c : Constraint} (hc : c ∈ cs)
    (hbelow : c.boundsBelowZero = false)
    (hwraps : ∀ d ∈ cs, d.lo = c.lo → d.hi = c.hi → ¬ a.Wraps d) : a.Satisfies c := by
  obtain ⟨h, placed, hlaid, hdomain, heval⟩ := exists_laid_of_checkLevels hok
  obtain ⟨e, he, hsource, htarget, hstrict⟩ := h.represents.complete c (List.mem_append_left _ hc)
  obtain ⟨p, hp⟩ := hdomain _ (h.represents.source_lt he)
  obtain ⟨q, hq⟩ := hdomain _ (h.represents.target_lt he)
  obtain ⟨hmem, hlo, hhi⟩ := h.represents.sound e he
  have hloeq : e.constraint.lo = c.lo := Option.some.inj (hlo.symm.trans hsource)
  have hhieq : e.constraint.hi = c.hi := Option.some.inj (hhi.symm.trans htarget)
  by_cases hconst : (∃ k, c.lo = .const k) ∧ ∃ k, c.hi = .const k
  · obtain ⟨⟨k, hk⟩, j, hj⟩ := hconst
    exact ⟨k, j, by rw [hk]; rfl, by rw [hj]; rfl, h.const_const hc hk hj⟩
  · have hown : e.constraint ∈ cs := by
      refine (List.mem_append.mp hmem).resolve_right fun horder => hconst ?_
      rw [levelOrder_eq, List.mem_map] at horder
      obtain ⟨r, _, hr⟩ := horder
      rw [← hloeq, ← hhieq, ← hr]
      exact ⟨⟨r.1, rfl⟩, r.2, rfl⟩
    have hhigh : a.eval? c.hi = some q.value := by
      refine heval _ _ q htarget hq fun k hk => ?_
      cases hvar : c.lo with
      | const j => exact absurd ⟨⟨j, hvar⟩, k, hk⟩ hconst
      | var x =>
        refine Int64.not_lt.mp fun hneg => ?_
        rw [Constraint.boundsBelowZero_iff.mpr ⟨x, k, hvar, hk, hneg⟩] at hbelow
        exact absurd hbelow (by simp)
    by_cases hneg : ∃ k, c.lo = .const k ∧ k < 0
    · -- A negative number is below every value.
      obtain ⟨k, hk, hk0⟩ := hneg
      have hlt : k < q.value := Int64.lt_of_lt_of_le hk0 (hlaid.nonneg _ q hq)
      refine ⟨k, q.value, by rw [hk]; rfl, hhigh, ?_⟩
      split
      · exact hlt
      · exact Int64.le_of_lt hlt
    · have hlow : a.eval? c.lo = some p.value :=
        heval _ _ p hsource hp fun k hk => Int64.not_lt.mp fun hk0 => hneg ⟨k, hk, hk0⟩
      refine ⟨p.value, q.value, hlow, hhigh, ?_⟩
      have hasks := hlaid.respects e he p q hp hq
      unfold Edge.asks at hasks
      by_cases hs : e.constraint.strict = true
      · have hne : p.value ≠ Int64.maxValue := fun hmax =>
          hwraps e.constraint hown hloeq hhieq ⟨hs, by rw [hloeq, hlow, hmax]⟩
        rw [if_pos hs] at hasks
        have hlt : p.value < q.value := Int64.lt_of_lt_of_le (lt_add_one_of_ne_maxValue hne) hasks
        split
        · exact hlt
        · exact Int64.le_of_lt hlt
      · rw [if_neg hs] at hasks
        rw [if_neg fun h => hs (hstrict h)]
        exact hasks

/-- Values of variables are not negative. -/
theorem nonneg_of_checkLevels (hok : checkLevels cs = .ok a) {x : LevelVar} {k : Int64}
    (hk : a.level? x = some k) : 0 ≤ k := by
  obtain ⟨hcycle, placed, hfold, rfl⟩ := checkLevels_eq_ok hok
  have hlaid :=
    (ofConstraints_layered hcycle).laid_foldlM (List.nil_append _).symm (laid_nil _) hfold
  obtain ⟨i, p, _, hp, rfl⟩ := exists_vertex_of_level? hk
  exact hlaid.nonneg i p hp

/-- A constraint that bounds a variable by a negative number, or whose increment wraps around, does
not hold. -/
theorem not_satisfies_of_checkLevels (hok : checkLevels cs = .ok a) {c : Constraint}
    (hc : a.Satisfies c) : c.boundsBelowZero = false ∧ ¬ a.Wraps c := by
  obtain ⟨lo, hi, hlo, hhi, hholds⟩ := hc
  refine ⟨?_, ?_⟩
  · rw [← Bool.not_eq_true, Constraint.boundsBelowZero_iff]
    rintro ⟨x, k, hx, hk, hneg⟩
    rw [hx] at hlo
    rw [hk] at hhi
    obtain rfl := Option.some.inj hhi
    have hlo0 := nonneg_of_checkLevels hok hlo
    have hle : lo ≤ k := by
      split at hholds
      · exact Int64.le_of_lt hholds
      · exact hholds
    exact Int64.lt_irrefl (Int64.lt_of_le_of_lt (Int64.le_trans hlo0 hle) hneg)
  · rintro ⟨hs, hmax⟩
    obtain rfl := Option.some.inj (hlo.symm.trans hmax)
    rw [if_pos hs] at hholds
    exact Int64.not_lt.mpr (Int64.le_maxValue hi) hholds

end Accepted

structure Assignment.Exact (a : Assignment) (cs : List Constraint) : Prop where
  /-- Both levels of every constraint have a value. -/
  evaluates : ∀ c ∈ cs, ∃ lo hi, a.eval? c.lo = some lo ∧ a.eval? c.hi = some hi
  /-- A constraint holds, apart from the two ways in which the arithmetic fails. -/
  holds : ∀ c ∈ cs, c.boundsBelowZero = false →
    (∀ d ∈ cs, d.lo = c.lo → d.hi = c.hi → ¬ a.Wraps d) → a.Satisfies c
  /-- In both of them it does not hold. -/
  fails : ∀ c ∈ cs, a.Satisfies c → c.boundsBelowZero = false ∧ ¬ a.Wraps c

theorem exact_of_checkLevels {cs : List Constraint} {a : Assignment}
    (hok : checkLevels cs = .ok a) :
    a.Exact cs where
  evaluates c hc := by
    obtain ⟨lo, hlo⟩ := exists_eval?_of_checkLevels hok (lo_mem_distinctLevels hc)
    obtain ⟨hi, hhi⟩ := exists_eval?_of_checkLevels hok (hi_mem_distinctLevels hc)
    exact ⟨lo, hi, hlo, hhi⟩
  holds _ hc := satisfies_of_checkLevels hok hc
  fails _ _ := not_satisfies_of_checkLevels hok

namespace Check

theorem checkUniverses_levels (c : Checker) :
    Ends checkUniverses c (fun a c' => checkLevels c'.constraints = .ok a) fun _ _ => True := by
  unfold checkUniverses
  rw [ends_bind, ends_get]
  dsimp only
  split
  · trivial
  · split
    · rename_i a hok
      exact hok
    · trivial

theorem checkDeclarations_levels (outer : Declarations) (unit : SourceUnit) (c : Checker) :
    Ends (checkDeclarations outer unit) c
      (fun checked c' => checkLevels c'.constraints = .ok checked.levels) fun _ _ => True := by
  unfold checkDeclarations
  refine (ends_trivial _ c).andThen fun checked c₁ _ => ?_
  refine (checkUniverses_levels c₁).andThen fun a c₂ hlevels => ?_
  exact hlevels

theorem checkUnit_levels (outer : Declarations) (unit : SourceUnit) (c : Checker) :
    Ends (checkUnit outer unit) c
      (fun checked c' => checkLevels c'.constraints = .ok checked.levels) fun _ _ => True := by
  unfold checkUnit
  rw [ends_bind, ends_tryCatch]
  refine (checkDeclarations_levels outer unit c).mono (fun checked c₁ hlevels => ?_)
    fun _ _ _ => trivial
  rw [ends_bind, ends_get, ends_bind, note, ends_modify, ends_pure]
  split
  · exact hlevels
  · exact hlevels

end Check

/-- An assignment that was given for collected constraints: by the check of a store, by a check of
the universes in a checker, or for a unit that passed. -/
inductive LevelsAccepted : Assignment → List Constraint → Prop
  | store {s : LevelStore} {a : Assignment} (hok : checkLevels s.constraints = .ok a) :
    LevelsAccepted a s.constraints
  | universes {c c' : Checker} {a : Assignment} (hrun : Check.checkUniverses.run c = (.ok a, c')) :
    LevelsAccepted a c'.constraints
  | unit {t : Sessions} {id : SessionId} {c c' : Checker} {u : SourceUnit} {checked : CheckedUnit}
    (hcheck : t.checkUnit id c u = (.ok checked, c')) : LevelsAccepted checked.levels c'.constraints

/-- The levels that are given, whatever 64-bit numbers stand in the constraints. Every collected
constraint holds, unless the increment for a strict constraint between the same levels wraps around
or a level variable is bounded by a negative number. In these two cases the constraint is let
through though it is violated. -/
theorem accepted_levels_exact {a : Assignment} {cs : List Constraint} (h : LevelsAccepted a cs) :
    a.Exact cs := by
  cases h with
  | store hok => exact exact_of_checkLevels hok
  | universes hrun => exact exact_of_checkLevels ((Check.checkUniverses_levels _).of_ok hrun)
  | @unit t id c c' u checked hcheck =>
    unfold Sessions.checkUnit at hcheck
    split at hcheck
    · simp at hcheck
    · split at hcheck
      · simp at hcheck
      · exact exact_of_checkLevels ((Check.checkUnit_levels _ u _).of_ok hcheck)

def boundaryLevels : LevelStore where
  owner := "unit"
  constraints :=
    [⟨.const (Int64.maxValue - 1), .var ⟨"unit", 0, false⟩, true, "first"⟩,
     ⟨.var ⟨"unit", 0, false⟩, .const Int64.maxValue, false, "second"⟩,
     ⟨.const Int64.minValue, .var ⟨"unit", 1, false⟩, true, "third"⟩,
     ⟨.const Int64.minValue, .const (-1), true, "fourth"⟩]

/-- The variable in between gets the last number, and the constraints hold. -/
theorem accepted_levels_exact_boundary : ∃ a, checkLevels boundaryLevels.constraints = .ok a ∧
    a.level? ⟨"unit", 0, false⟩ = some Int64.maxValue ∧
      ∀ c ∈ boundaryLevels.constraints, a.Satisfies c := by
  have htest : (checkLevels boundaryLevels.constraints).toOption.map (fun a =>
      decide (a.level? ⟨"unit", 0, false⟩ = some Int64.maxValue ∧
        ∀ c ∈ boundaryLevels.constraints, ¬ a.Wraps c)) = some true := by decide +kernel
  obtain ⟨a, hok, hvalues⟩ := Option.map_eq_some_iff.mp htest
  have hok : checkLevels boundaryLevels.constraints = .ok a := by
    generalize checkLevels boundaryLevels.constraints = r at hok
    cases r with
    | error e => cases hok
    | ok b => exact congrArg _ (Option.some.inj hok)
  obtain ⟨hlast, hwraps⟩ := of_decide_eq_true hvalues
  have hbelow : ∀ c ∈ boundaryLevels.constraints, c.boundsBelowZero = false := by decide
  exact ⟨a, hok, hlast, fun c hc => (accepted_levels_exact (.store hok)).holds c hc
    (hbelow c hc) fun d hd _ _ => hwraps d hd⟩

def lastUniverse : SourceUnit where
  name := "unit"
  declarations :=
    [{ signature :=
        some { name := "T", params := [], result := .sort (.level (.const Int64.maxValue)) } }]

/-- A unit is accepted though the universe of the last level would have to lie in a larger one, and
a store is accepted though a level variable would have to be negative. -/
theorem violated_levels_accepted :
    (∃ checked c', Sessions.checkUnit {} 0 {} lastUniverse = (.ok checked, c') ∧
      ∃ c ∈ c'.constraints, ¬ checked.levels.Satisfies c) ∧
    ∃ a, checkLevels [⟨.var ⟨"unit", 0, false⟩, .const (-1), false, "bound"⟩] = .ok a ∧
      ¬ a.Satisfies ⟨.var ⟨"unit", 0, false⟩, .const (-1), false, "bound"⟩ := by
  constructor
  · have htest : (match Sessions.checkUnit {} 0 {} lastUniverse with
        | (.error _, _) => false
        | (.ok checked, c') => decide (∃ c ∈ c'.constraints, ¬ checked.levels.Satisfies c)) =
          true := by
      decide +kernel
    rcases hcheck : Sessions.checkUnit {} 0 {} lastUniverse with ⟨_ | checked, c'⟩
    · simp [hcheck] at htest
    · rw [hcheck] at htest
      exact ⟨checked, c', rfl, of_decide_eq_true htest⟩
  · have htest : (checkLevels [⟨.var ⟨"unit", 0, false⟩, .const (-1), false, "bound"⟩]).toOption.any
        (fun a => ¬ a.Satisfies ⟨.var ⟨"unit", 0, false⟩, .const (-1), false, "bound"⟩) = true := by
      decide +kernel
    rcases hcheck : checkLevels [⟨.var ⟨"unit", 0, false⟩, .const (-1), false, "bound"⟩] with _ | a
    · simp [hcheck, Except.toOption] at htest
    · rw [hcheck] at htest
      exact ⟨a, rfl, of_decide_eq_true htest⟩

end Implicits
