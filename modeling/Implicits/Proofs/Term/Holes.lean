import Mathlib.Data.Finset.Card
import Mathlib.Logic.Relation
import Implicits.Term.Holes

/-!
Solved holes without circles. A hole is linked to the holes that its solution shows; where no chain
of links closes, the number of holes bounds every chain, so that expansion reaches exactly the open
holes behind a term and `follow` ends at an open hole or at a term that is none.
-/
namespace Implicits

open Relation

namespace Term

/-- Induction over terms; tactics of parameters are not entered. -/
@[elab_as_elim]
theorem induct {motive : Term → Prop} (missing : motive .missing)
    (const : ∀ name, motive (.const name))
    (lit : ∀ text type, motive type → motive (.lit text type))
    (bound : ∀ name, motive (.bound name)) (hole : ∀ id, motive (.hole id))
    (app : ∀ fn args, motive fn → (∀ a ∈ args, motive a) → motive (.app fn args))
    (pi : ∀ params result, (∀ p ∈ params, motive p.type) → motive result →
      motive (.pi params result))
    (sort : ∀ u, motive (.sort u))
    (eq : ∀ lhs rhs, motive lhs → motive rhs → motive (.eq lhs rhs))
    (refl : ∀ value, motive value → motive (.refl value)) (t : Term) : motive t := by
  refine @Term.rec motive (fun args => ∀ a ∈ args, motive a)
    (fun params => ∀ p ∈ params, motive p.type) (fun p => motive p.type) (fun _ => True)
    (fun _ => True) missing const lit bound hole app pi sort eq refl ?_ ?_ ?_ ?_ ?_ ?_ ?_ ?_ ?_ t
  · simp
  · intro a args ha hargs
    simpa using ⟨ha, hargs⟩
  · simp
  · intro p params hp hparams
    simpa using ⟨hp, hparams⟩
  · intro _ _ _ _ htype _
    exact htype
  all_goals intros; trivial

theorem size_pos (t : Term) : 0 < t.size := by
  cases t <;> simp [size]

theorem sizeArgs_eq_foldr (args : List Term) :
    sizeArgs args = args.foldr (fun a n => a.size + n) 0 := by
  induction args with
  | nil => rfl
  | cons a args ih => rw [sizeArgs, ih, List.foldr_cons]

theorem sizeParams_eq_foldr (params : List (Param Term)) :
    sizeParams params = params.foldr (fun p n => p.type.size + n) 0 := by
  induction params with
  | nil => rfl
  | cons p params ih => rw [sizeParams, ih, List.foldr_cons]

theorem size_le_sizeArgs {args : List Term} {a : Term} (ha : a ∈ args) :
    a.size ≤ sizeArgs args := by
  induction args with
  | nil => simp at ha
  | cons b args ih =>
    rw [sizeArgs]
    rcases List.mem_cons.mp ha with rfl | ha
    · omega
    · have := ih ha
      omega

theorem size_le_sizeParams {params : List (Param Term)} {p : Param Term} (hp : p ∈ params) :
    p.type.size ≤ sizeParams params := by
  induction params with
  | nil => simp at hp
  | cons q params ih =>
    rw [sizeParams]
    rcases List.mem_cons.mp hp with rfl | hp
    · omega
    · have := ih hp
      omega

theorem fillArgs_eq_map (deep : Bool) (f : HoleId → Term) (args : List Term) :
    fillArgs deep f args = args.map (fill deep f) := by
  induction args with
  | nil => rfl
  | cons a args ih => rw [fillArgs, ih, List.map_cons]

theorem fillParams_eq_map (deep : Bool) (f : HoleId → Term) (params : List (Param Term)) :
    fillParams deep f params = params.map fun p => { p with type := p.type.fill deep f } := by
  induction params with
  | nil => rfl
  | cons p params ih => rw [fillParams, ih, List.map_cons]

theorem anyHoleArgs_iff {q : HoleId → Bool} {args : List Term} :
    anyHoleArgs q args = true ↔ ∃ a ∈ args, a.anyHole q = true := by
  induction args with
  | nil => simp [anyHoleArgs]
  | cons a args ih => simp [anyHoleArgs, ih]

theorem anyHoleParams_iff {q : HoleId → Bool} {params : List (Param Term)} :
    anyHoleParams q params = true ↔ ∃ p ∈ params, p.type.anyHole q = true := by
  induction params with
  | nil => simp [anyHoleParams]
  | cons p params ih => simp [anyHoleParams, ih]

theorem anyHoleArgs_eq_false {q : HoleId → Bool} {args : List Term} :
    anyHoleArgs q args = false ↔ ∀ a ∈ args, a.anyHole q = false := by
  rw [← Bool.not_eq_true, anyHoleArgs_iff]
  simp

theorem anyHoleParams_eq_false {q : HoleId → Bool} {params : List (Param Term)} :
    anyHoleParams q params = false ↔ ∀ p ∈ params, p.type.anyHole q = false := by
  rw [← Bool.not_eq_true, anyHoleParams_iff]
  simp

/-- A term shows a hole if the hole occurs in it outside the types of literals. -/
def Shows (t : Term) (i : HoleId) : Prop := t.anyHole (· == i) = true

section Shows

variable {i j : HoleId}

@[simp] theorem not_shows_missing : ¬ missing.Shows i := Bool.false_ne_true

@[simp] theorem not_shows_const {name : String} : ¬ (const name).Shows i := Bool.false_ne_true

@[simp] theorem not_shows_lit {text : String} {type : Term} : ¬ (lit text type).Shows i :=
  Bool.false_ne_true

@[simp] theorem not_shows_bound {name : String} : ¬ (bound name).Shows i := Bool.false_ne_true

@[simp] theorem not_shows_sort {u : Universe} : ¬ (sort u).Shows i := Bool.false_ne_true

@[simp] theorem shows_hole : (hole j).Shows i ↔ j = i := beq_iff_eq

@[simp] theorem shows_app {fn : Term} {args : List Term} :
    (app fn args).Shows i ↔ fn.Shows i ∨ ∃ a ∈ args, a.Shows i :=
  Bool.or_eq_true_iff.trans (or_congr_right anyHoleArgs_iff)

@[simp] theorem shows_pi {params : List (Param Term)} {result : Term} :
    (pi params result).Shows i ↔ (∃ p ∈ params, p.type.Shows i) ∨ result.Shows i :=
  Bool.or_eq_true_iff.trans (or_congr_left anyHoleParams_iff)

@[simp] theorem shows_eq {lhs rhs : Term} : (eq lhs rhs).Shows i ↔ lhs.Shows i ∨ rhs.Shows i :=
  Bool.or_eq_true_iff

@[simp] theorem shows_refl {value : Term} : (refl value).Shows i ↔ value.Shows i := Iff.rfl

end Shows

inductive Part : Term → Term → Prop
  | fn {fn : Term} {args : List Term} : Part fn (.app fn args)
  | arg {fn a : Term} {args : List Term} (ha : a ∈ args) : Part a (.app fn args)
  | param {p : Param Term} {params : List (Param Term)} {result : Term} (hp : p ∈ params) :
    Part p.type (.pi params result)
  | result {params : List (Param Term)} {result : Term} : Part result (.pi params result)
  | lhs {lhs rhs : Term} : Part lhs (.eq lhs rhs)
  | rhs {lhs rhs : Term} : Part rhs (.eq lhs rhs)
  | value {value : Term} : Part value (.refl value)

namespace Part

variable {t u : Term}

theorem size_lt (h : t.Part u) : t.size < u.size := by
  cases h with
  | arg ha =>
    have hle := size_le_sizeArgs ha
    rw [size]
    omega
  | param hp =>
    have hle := size_le_sizeParams hp
    rw [size]
    omega
  | fn | result | lhs | rhs | value =>
    rw [size]
    omega

theorem shows (h : t.Part u) {i : HoleId} (hi : t.Shows i) : u.Shows i := by
  cases h with
  | fn => exact shows_app.mpr (.inl hi)
  | arg ha => exact shows_app.mpr (.inr ⟨_, ha, hi⟩)
  | param hp => exact shows_pi.mpr (.inl ⟨_, hp, hi⟩)
  | result => exact shows_pi.mpr (.inr hi)
  | lhs => exact shows_eq.mpr (.inl hi)
  | rhs => exact shows_eq.mpr (.inr hi)
  | value => exact shows_refl.mpr hi

/-- A part stays a part when all holes are filled alike. -/
theorem fill (h : t.Part u) (f : HoleId → Term) : (t.fill false f).Part (u.fill false f) := by
  cases h with
  | arg ha =>
    rw [Term.fill, fillArgs_eq_map]
    exact .arg (List.mem_map_of_mem ha)
  | param hp =>
    rw [Term.fill, fillParams_eq_map]
    have hmem :=
      List.mem_map_of_mem (f := fun p : Param Term => { p with type := p.type.fill false f }) hp
    exact .param hmem
  | fn => exact .fn
  | result => exact .result
  | lhs => exact .lhs
  | rhs => exact .rhs
  | value => exact .value

end Part

theorem anyHole_iff {q : HoleId → Bool} {t : Term} :
    t.anyHole q = true ↔ ∃ i, t.Shows i ∧ q i = true := by
  induction t using induct with
  | missing | const | lit | bound | sort => simp [anyHole]
  | hole id => simp [anyHole]
  | app fn args ihf ihargs =>
    simp only [anyHole, Bool.or_eq_true, anyHoleArgs_iff, ihf, shows_app, or_and_right, exists_or]
    refine or_congr Iff.rfl ⟨?_, ?_⟩
    · rintro ⟨a, ha, hany⟩
      obtain ⟨i, hi, hq⟩ := (ihargs a ha).mp hany
      exact ⟨i, ⟨a, ha, hi⟩, hq⟩
    · rintro ⟨i, ⟨a, ha, hi⟩, hq⟩
      exact ⟨a, ha, (ihargs a ha).mpr ⟨i, hi, hq⟩⟩
  | pi params result ihparams ihr =>
    simp only [anyHole, Bool.or_eq_true, anyHoleParams_iff, ihr, shows_pi, or_and_right, exists_or]
    refine or_congr ⟨?_, ?_⟩ Iff.rfl
    · rintro ⟨p, hp, hany⟩
      obtain ⟨i, hi, hq⟩ := (ihparams p hp).mp hany
      exact ⟨i, ⟨p, hp, hi⟩, hq⟩
    · rintro ⟨i, ⟨p, hp, hi⟩, hq⟩
      exact ⟨p, hp, (ihparams p hp).mpr ⟨i, hi, hq⟩⟩
  | eq lhs rhs ihl ihr =>
    simp only [anyHole, Bool.or_eq_true, ihl, ihr, shows_eq, or_and_right, exists_or]
  | refl value ih => simpa only [anyHole, shows_refl] using ih

theorem anyHole_fill {q : HoleId → Bool} {f : HoleId → Term} {t : Term} :
    (t.fill false f).anyHole q = true ↔ t.anyHole (fun i => (f i).anyHole q) = true := by
  induction t using induct with
  | missing | const | lit | bound | sort | hole => simp [fill, anyHole]
  | app fn args ihf ihargs =>
    simp only [fill, anyHole, Bool.or_eq_true, fillArgs_eq_map, anyHoleArgs_iff, List.mem_map,
      exists_exists_and_eq_and, ihf]
    exact or_congr Iff.rfl (exists_congr fun a => and_congr_right (ihargs a))
  | pi params result ihparams ihr =>
    simp only [fill, anyHole, Bool.or_eq_true, fillParams_eq_map, anyHoleParams_iff, List.mem_map,
      exists_exists_and_eq_and, ihr]
    exact or_congr (exists_congr fun p => and_congr_right (ihparams p)) Iff.rfl
  | eq lhs rhs ihl ihr => simp only [fill, anyHole, Bool.or_eq_true, ihl, ihr]
  | refl value ih => simpa only [fill, anyHole] using ih

theorem fill_congr {f g : HoleId → Term} {t : Term} (hfg : ∀ i, t.Shows i → f i = g i) :
    t.fill false f = t.fill false g := by
  induction t using induct with
  | missing | const | lit | bound | sort => rfl
  | hole id => exact hfg id (shows_hole.mpr rfl)
  | app fn args ihf ihargs =>
    have hfn := ihf fun i hi => hfg i (shows_app.mpr (.inl hi))
    have hargs : ∀ a ∈ args, a.fill false f = a.fill false g := by
      intro a ha
      exact ihargs a ha fun i hi => hfg i (shows_app.mpr (.inr ⟨a, ha, hi⟩))
    rw [fill, fill, hfn, fillArgs_eq_map, fillArgs_eq_map, List.map_congr_left hargs]
  | pi params result ihparams ihr =>
    have hresult := ihr fun i hi => hfg i (shows_pi.mpr (.inr hi))
    have hparams : ∀ p ∈ params, ({ p with type := p.type.fill false f } : Param Term) =
        { p with type := p.type.fill false g } := by
      intro p hp
      rw [ihparams p hp fun i hi => hfg i (shows_pi.mpr (.inl ⟨p, hp, hi⟩))]
    rw [fill, fill, hresult, fillParams_eq_map, fillParams_eq_map, List.map_congr_left hparams]
  | eq lhs rhs ihl ihr =>
    rw [fill, fill, ihl fun i hi => hfg i (shows_eq.mpr (.inl hi)),
      ihr fun i hi => hfg i (shows_eq.mpr (.inr hi))]
  | refl value ih => rw [fill, fill, ih fun i hi => hfg i (shows_refl.mpr hi)]

theorem fill_hole (t : Term) : t.fill false hole = t := by
  induction t using induct with
  | missing | const | lit | bound | sort | hole => rfl
  | app fn args ihf ihargs =>
    rw [fill, ihf, fillArgs_eq_map, List.map_congr_left ihargs, List.map_id']
  | pi params result ihparams ihr =>
    have hparams : ∀ p ∈ params, ({ p with type := p.type.fill false hole } : Param Term) = p := by
      intro p hp
      rw [ihparams p hp]
    rw [fill, ihr, fillParams_eq_map, List.map_congr_left hparams, List.map_id']
  | eq lhs rhs ihl ihr => rw [fill, ihl, ihr]
  | refl value ih => rw [fill, ih]

/-- A filled term shows what the fillings of its own holes show. -/
theorem shows_fill {f : HoleId → Term} {t : Term} {i : HoleId} :
    (t.fill false f).Shows i ↔ ∃ j, t.Shows j ∧ (f j).Shows i :=
  anyHole_fill.trans anyHole_iff

end Term

namespace Holes

theorem size_setSolution (h : Holes) (id : HoleId) (x : Option Term) :
    (h.setSolution id x).size = h.size := Array.size_modify

theorem solution?_setSolution (h : Holes) (id : HoleId) (x : Option Term) (j : HoleId) :
    (h.setSolution id x).solution? j =
      if id = j then (if j < h.size then x else none) else h.solution? j := by
  simp only [solution?, setSolution, Array.getElem?_modify]
  by_cases hj : id = j
  · subst hj
    by_cases hlt : id < h.size
    · rw [if_pos rfl, if_pos rfl, if_pos hlt, Array.getElem?_eq_getElem hlt]
      rfl
    · rw [if_pos rfl, if_pos rfl, if_neg hlt, Array.getElem?_eq_none (Nat.le_of_not_lt hlt)]
      rfl
  · rw [if_neg hj, if_neg hj]

theorem type_setSolution (h : Holes) (id : HoleId) (x : Option Term) (j : HoleId) :
    (h.setSolution id x).type j = h.type j := by
  simp only [type, setSolution, Array.getElem?_modify]
  by_cases hj : id = j
  · rw [if_pos hj, Option.map_map]
    rfl
  · rw [if_neg hj]

theorem name_setSolution (h : Holes) (id : HoleId) (x : Option Term) (j : HoleId) :
    (h.setSolution id x).name j = h.name j := by
  simp only [name, setSolution, Array.getElem?_modify]
  by_cases hj : id = j
  · rw [if_pos hj, Option.map_map]
    rfl
  · rw [if_neg hj]

/-- Setting back the earlier solution of a hole restores the table. -/
theorem setSolution_setSolution_self (h : Holes) (id : HoleId) (x : Option Term) :
    (h.setSolution id x).setSolution id (h.solution? id) = h := by
  have htable : ((h.setSolution id x).setSolution id (h.solution? id)).table = h.table := by
    apply Array.ext_getElem?
    intro j
    simp only [setSolution, Array.getElem?_modify]
    by_cases hj : id = j
    · subst hj
      rw [if_pos rfl, if_pos rfl, Option.map_map]
      cases hget : h.table[id]? with
      | none => rfl
      | some hole => simp [solution?, hget]
    · rw [if_neg hj, if_neg hj]
  cases h
  exact congrArg Holes.mk htable

theorem lt_size_of_solution? {h : Holes} {i : HoleId} {t : Term} (hi : h.solution? i = some t) :
    i < h.size := by
  by_contra hge
  have hnone : h.table[i]? = none := Array.getElem?_eq_none (Nat.le_of_not_lt hge)
  simp [solution?, hnone] at hi

section Add

variable (h : Holes) (name : String) (number : Int) (type : Term)

theorem size_add : (h.add name number type).size = h.size + 1 := Array.size_push ..

theorem solution?_add (i : HoleId) : (h.add name number type).solution? i = h.solution? i := by
  simp only [solution?, add, Array.getElem?_push]
  by_cases hi : i = h.table.size
  · rw [if_pos hi, Array.getElem?_eq_none (Nat.le_of_eq hi.symm)]
    rfl
  · rw [if_neg hi]

theorem type_add (i : HoleId) :
    (h.add name number type).type i = if i = h.size then type else h.type i := by
  simp only [Holes.type, add, Array.getElem?_push]
  by_cases hi : i = h.size
  · rw [if_pos hi, if_pos (show i = h.table.size from hi)]
    rfl
  · rw [if_neg hi, if_neg (show i ≠ h.table.size from hi)]

end Add

/-- A solved hole is linked to the holes that its solution shows. -/
def Links (h : Holes) (i j : HoleId) : Prop := ∃ t, h.solution? i = some t ∧ t.Shows j

/-- A relation that only leads to later holes has no circle. -/
theorem not_transGen_of_lt {r : HoleId → HoleId → Prop} (hlt : ∀ i j, r i j → i < j) (i : HoleId) :
    ¬ TransGen r i i := by
  intro hi
  have hlt : TransGen (· < ·) i i := TransGen.mono hlt i i hi
  rw [transGen_eq_self] at hlt
  exact Nat.lt_irrefl i hlt

def Grounded (h : Holes) (i : HoleId) : Prop :=
  ∀ j, ReflTransGen h.Links i j → ¬ TransGen h.Links j j

theorem Grounded.of_reach {h : Holes} {i j : HoleId} (hi : h.Grounded i)
    (hij : ReflTransGen h.Links i j) : h.Grounded j :=
  fun k hjk => hi k (hij.trans hjk)

theorem eq_of_reach_of_open {h : Holes} {i j : HoleId} (hi : h.solution? i = none)
    (hij : ReflTransGen h.Links i j) : i = j := by
  rcases hij.cases_head with rfl | ⟨k, ⟨t, ht, _⟩, _⟩
  · rfl
  · simp [hi] at ht

section Rank

open Classical

/-- The number of solved holes to which a relation leads from a hole, itself included. -/
noncomputable def countBehind (h : Holes) (r : HoleId → HoleId → Prop) (i : HoleId) : Nat :=
  ((Finset.range h.size).filter fun j =>
    (h.solution? j).isSome = true ∧ ReflTransGen r i j).card

theorem countBehind_le_size (h : Holes) (r : HoleId → HoleId → Prop) (i : HoleId) :
    h.countBehind r i ≤ h.size := by
  have hcard := Finset.card_filter_le (Finset.range h.size) fun j =>
    (h.solution? j).isSome = true ∧ ReflTransGen r i j
  rwa [Finset.card_range] at hcard

/-- Only an open hole has no solved hole behind it, since it counts itself. -/
theorem open_of_countBehind {h : Holes} {r : HoleId → HoleId → Prop} {i : HoleId}
    (hi : h.countBehind r i ≤ 0) : h.solution? i = none := by
  cases hsol : h.solution? i with
  | none => rfl
  | some t =>
    have hpos : 0 < h.countBehind r i := by
      apply Finset.card_pos.mpr
      refine ⟨i, ?_⟩
      simp [lt_size_of_solution? hsol, hsol, ReflTransGen.refl]
    omega

/-- A hole that does not lie behind itself has more holes behind it than the next one. -/
theorem countBehind_lt {h : Holes} {r : HoleId → HoleId → Prop} {i j : HoleId} {t : Term}
    (ht : h.solution? i = some t) (hi : ¬ TransGen r i i) (hij : r i j) :
    h.countBehind r j < h.countBehind r i := by
  apply Finset.card_lt_card
  rw [Finset.ssubset_iff_of_subset]
  · refine ⟨i, ?_, ?_⟩
    · simp [lt_size_of_solution? ht, ht, ReflTransGen.refl]
    · simp only [Finset.mem_filter, not_and]
      intro _ _ hback
      exact hi (TransGen.head' hij hback)
  · intro k hk
    simp only [Finset.mem_filter] at hk ⊢
    exact ⟨hk.1, hk.2.1, ReflTransGen.head hij hk.2.2⟩

noncomputable def rank (h : Holes) (i : HoleId) : Nat := h.countBehind h.Links i

theorem rank_le_size (h : Holes) (i : HoleId) : h.rank i ≤ h.size := h.countBehind_le_size h.Links i

theorem open_of_rank {h : Holes} {i : HoleId} (hi : h.rank i ≤ 0) : h.solution? i = none :=
  open_of_countBehind hi

theorem rank_lt_of_links {h : Holes} {i j : HoleId} (hi : ¬ TransGen h.Links i i)
    (hij : h.Links i j) : h.rank j < h.rank i := by
  obtain ⟨t, ht, _⟩ := id hij
  exact countBehind_lt ht hi hij

/-- One link brings a solved hole to holes of smaller rank. -/
theorem Grounded.of_shows {h : Holes} {i k : HoleId} {u : Term} {n : Nat}
    (hi : h.Grounded i ∧ h.rank i ≤ n + 1) (hu : h.solution? i = some u) (hk : u.Shows k) :
    h.Grounded k ∧ h.rank k ≤ n := by
  have hlink : h.Links i k := ⟨u, hu, hk⟩
  have hlt := rank_lt_of_links (hi.1 i .refl) hlink
  exact ⟨hi.1.of_reach (.single hlink), by omega⟩

end Rank

/-- Instantiation to a depth that covers the ranks of a term's holes reaches exactly the open holes
behind them. -/
theorem shows_instantiateN {h : Holes} {j : HoleId} {n : Nat} {t : Term}
    (ht : ∀ i, t.Shows i → h.Grounded i ∧ h.rank i ≤ n) :
    (h.instantiateN false n t).Shows j ↔
      h.solution? j = none ∧ ∃ i, t.Shows i ∧ ReflTransGen h.Links i j := by
  induction n generalizing t with
  | zero =>
    have hopen : ∀ i, t.Shows i → h.solution? i = none := fun i hi => open_of_rank (ht i hi).2
    constructor
    · intro hj
      exact ⟨hopen j hj, j, hj, .refl⟩
    · rintro ⟨_, i, hi, hij⟩
      rwa [← eq_of_reach_of_open (hopen i hi) hij]
  | succ n ih =>
    have hstep : ∀ i u, t.Shows i → h.solution? i = some u →
        ∀ k, u.Shows k → h.Grounded k ∧ h.rank k ≤ n :=
      fun i u hi hu k hk => Grounded.of_shows (ht i hi) hu hk
    simp only [instantiateN, Term.shows_fill]
    constructor
    · rintro ⟨i, hi, hj⟩
      cases hsol : h.solution? i with
      | none =>
        rw [hsol] at hj
        obtain rfl := Term.shows_hole.mp hj
        exact ⟨hsol, i, hi, .refl⟩
      | some u =>
        rw [hsol] at hj
        obtain ⟨hopen, k, hk, hkj⟩ := (ih (hstep i u hi hsol)).mp hj
        exact ⟨hopen, i, hi, .head ⟨u, hsol, hk⟩ hkj⟩
    · rintro ⟨hopen, i, hi, hij⟩
      refine ⟨i, hi, ?_⟩
      cases hsol : h.solution? i with
      | none => exact Term.shows_hole.mpr (eq_of_reach_of_open hsol hij)
      | some u =>
        rcases hij.cases_head with rfl | ⟨k, ⟨u', hu', hk⟩, hkj⟩
        · simp [hopen] at hsol
        · obtain rfl : u = u' := Option.some.inj (hsol.symm.trans hu')
          exact (ih (hstep i u hi hsol)).mpr ⟨hopen, k, hk, hkj⟩

/-- An expanded term shows exactly the open holes behind the term. -/
theorem shows_expand {h : Holes} {j : HoleId} {t : Term} (ht : ∀ i, t.Shows i → h.Grounded i) :
    (h.expand t).Shows j ↔ h.solution? j = none ∧ ∃ i, t.Shows i ∧ ReflTransGen h.Links i j :=
  shows_instantiateN fun i hi => ⟨ht i hi, h.rank_le_size i⟩

theorem followN_of_not_hole {h : Holes} {t : Term} (ht : ∀ i, t ≠ .hole i) (n : Nat) :
    h.followN n t = t := by
  cases n with
  | zero => rfl
  | succ n =>
    cases t with
    | hole i => exact absurd rfl (ht i)
    | _ => rfl

theorem reach_of_followN {h : Holes} {i j : HoleId} {n : Nat} (hi : h.Grounded i)
    (hrank : h.rank i ≤ n) (hij : h.followN n (.hole i) = .hole j) :
    h.solution? j = none ∧ ReflTransGen h.Links i j := by
  induction n generalizing i with
  | zero =>
    obtain rfl : i = j := Term.hole.inj hij
    exact ⟨open_of_rank hrank, .refl⟩
  | succ n ih =>
    simp only [followN] at hij
    cases hsol : h.solution? i with
    | none =>
      rw [hsol] at hij
      obtain rfl := Term.hole.inj hij
      exact ⟨hsol, .refl⟩
    | some u =>
      simp only [hsol] at hij
      by_cases hu : ∃ k, u = .hole k
      · obtain ⟨k, rfl⟩ := hu
        have hk : (Term.hole k).Shows k := Term.shows_hole.mpr rfl
        obtain ⟨hground, hle⟩ := Grounded.of_shows ⟨hi, hrank⟩ hsol hk
        obtain ⟨hopen, hreach⟩ := ih hground hle hij
        exact ⟨hopen, .head ⟨_, hsol, hk⟩ hreach⟩
      · rw [followN_of_not_hole (fun k hk => hu ⟨k, hk⟩)] at hij
        exact absurd ⟨j, hij⟩ hu

/-- Following a term ends at an open hole behind it, if at a hole at all. -/
theorem follow_eq_hole {h : Holes} {t : Term} {j : HoleId} (ht : ∀ i, t.Shows i → h.Grounded i)
    (hj : h.follow t = .hole j) :
    h.solution? j = none ∧ ∃ i, t.Shows i ∧ ReflTransGen h.Links i j := by
  by_cases hhole : ∃ i, t = .hole i
  · obtain ⟨i, rfl⟩ := hhole
    have hi : (Term.hole i).Shows i := Term.shows_hole.mpr rfl
    obtain ⟨hopen, hreach⟩ := reach_of_followN (ht i hi) (h.rank_le_size i) hj
    exact ⟨hopen, i, hi, hreach⟩
  · rw [follow, followN_of_not_hole (fun i hi => hhole ⟨i, hi⟩)] at hj
    exact absurd ⟨j, hj⟩ hhole

theorem followN_of_open {h : Holes} {i : HoleId} (hi : h.solution? i = none) (n : Nat) :
    h.followN n (.hole i) = .hole i := by
  cases n with
  | zero => rfl
  | succ n => simp only [followN, hi]

theorem follow_of_open {h : Holes} {i : HoleId} (hi : h.solution? i = none) :
    h.follow (.hole i) = .hole i := followN_of_open hi h.size

/-- Following a term further than the ranks of its holes changes nothing. -/
theorem followN_stable {h : Holes} {n m : Nat} {t : Term}
    (ht : ∀ i, t.Shows i → h.Grounded i ∧ h.rank i ≤ n) (hnm : n ≤ m) :
    h.followN n t = h.followN m t := by
  induction n generalizing m t with
  | zero =>
    by_cases hhole : ∃ i, t = .hole i
    · obtain ⟨i, rfl⟩ := hhole
      have hopen : h.solution? i = none := open_of_rank (ht i (Term.shows_hole.mpr rfl)).2
      cases m with
      | zero => rfl
      | succ m => simp only [followN, hopen]
    · rw [followN_of_not_hole fun i hi => hhole ⟨i, hi⟩,
        followN_of_not_hole fun i hi => hhole ⟨i, hi⟩]
  | succ n ih =>
    by_cases hhole : ∃ i, t = .hole i
    · obtain ⟨i, rfl⟩ := hhole
      obtain ⟨m, rfl⟩ : ∃ l, m = l + 1 := ⟨m - 1, by omega⟩
      simp only [followN]
      cases hsol : h.solution? i with
      | none => rfl
      | some u =>
        have hi := ht i (Term.shows_hole.mpr rfl)
        exact ih (fun j hj => Grounded.of_shows hi hsol hj) (by omega)
    · rw [followN_of_not_hole fun i hi => hhole ⟨i, hi⟩,
        followN_of_not_hole fun i hi => hhole ⟨i, hi⟩]

/-- Where some depth is enough for the holes of a term, a greater depth changes nothing. `P` tells
the places that are read and `Q` what depth is enough for a hole: none only for an open one, and one
less for the holes of its solution. -/
theorem instantiateN_le {h : Holes} {deep : Bool} {P : Term → HoleId → Prop}
    {Q : HoleId → Nat → Prop}
    (hcongr : ∀ {t : Term} {f g : HoleId → Term}, (∀ i, P t i → f i = g i) →
      t.fill deep f = t.fill deep g)
    (hself : ∀ t : Term, t.fill deep .hole = t) (hopen : ∀ i, Q i 0 → h.solution? i = none)
    (hstep : ∀ {i u n}, Q i (n + 1) → h.solution? i = some u → ∀ k, P u k → Q k n)
    {n m : Nat} {t : Term} (ht : ∀ i, P t i → Q i n) (hnm : n ≤ m) :
    h.instantiateN deep n t = h.instantiateN deep m t := by
  induction n generalizing m t with
  | zero =>
    cases m with
    | zero => rfl
    | succ m =>
      rw [instantiateN, instantiateN]
      conv_lhs => rw [← hself t]
      refine hcongr fun i hi => ?_
      rw [hopen i (ht i hi)]
  | succ n ih =>
    obtain ⟨m, rfl⟩ : ∃ k, m = k + 1 := ⟨m - 1, by omega⟩
    rw [instantiateN, instantiateN]
    refine hcongr fun i hi => ?_
    cases hsol : h.solution? i with
    | none => rfl
    | some u => exact ih (hstep (ht i hi) hsol) (by omega)

/-- A greater depth than the ranks of a term's holes changes nothing. -/
theorem instantiateN_stable {h : Holes} {n m : Nat} {t : Term}
    (ht : ∀ i, t.Shows i → h.Grounded i ∧ h.rank i ≤ n) (hnm : n ≤ m) :
    h.instantiateN false n t = h.instantiateN false m t :=
  instantiateN_le (Q := fun i n => h.Grounded i ∧ h.rank i ≤ n) Term.fill_congr Term.fill_hole
    (fun _ hi => open_of_rank hi.2) (fun hi hu _ hk => Grounded.of_shows hi hu hk) ht hnm

/-- A solved hole is read as its solution. -/
theorem expand_hole {h : Holes} {i : HoleId} {u : Term} (hi : h.Grounded i)
    (hu : h.solution? i = some u) : h.expand (.hole i) = h.expand u := by
  have hpos : 0 < h.size := Nat.zero_lt_of_lt (lt_size_of_solution? hu)
  obtain ⟨n, hn⟩ : ∃ k, h.size = k + 1 := ⟨h.size - 1, by omega⟩
  rw [expand, expand, hn, instantiateN, Term.fill]
  simp only [hu]
  have hrank : h.rank i ≤ n + 1 := hn ▸ h.rank_le_size i
  exact instantiateN_stable (fun k hk => Grounded.of_shows ⟨hi, hrank⟩ hu hk) (Nat.le_succ n)

theorem expand_followN {h : Holes} {t : Term} (ht : ∀ i, t.Shows i → h.Grounded i) (n : Nat) :
    h.expand (h.followN n t) = h.expand t := by
  induction n generalizing t with
  | zero => rfl
  | succ n ih =>
    by_cases hhole : ∃ i, t = .hole i
    · obtain ⟨i, rfl⟩ := hhole
      have hi := ht i (Term.shows_hole.mpr rfl)
      simp only [followN]
      cases hsol : h.solution? i with
      | none => rfl
      | some u =>
        have hu : ∀ k, u.Shows k → h.Grounded k := fun k hk => hi.of_reach (.single ⟨u, hsol, hk⟩)
        exact (ih hu).trans (expand_hole hi hsol).symm
    · rw [followN_of_not_hole fun i hi => hhole ⟨i, hi⟩]

/-- Following a term does not change what is read. -/
theorem expand_follow {h : Holes} {t : Term} (ht : ∀ i, t.Shows i → h.Grounded i) :
    h.expand (h.follow t) = h.expand t := expand_followN ht h.size

/-- A term without open holes behind it is read the same when more holes are solved. -/
theorem instantiateN_of_solved {h h' : Holes} {n : Nat} {t : Term}
    (hsolved : ∀ i u, h.solution? i = some u → h'.solution? i = some u)
    (ht : ∀ i j, t.Shows i → ReflTransGen h.Links i j → h.solution? j ≠ none) :
    h'.instantiateN false n t = h.instantiateN false n t := by
  induction n generalizing t with
  | zero => rfl
  | succ n ih =>
    rw [instantiateN, instantiateN]
    refine Term.fill_congr fun i hi => ?_
    obtain ⟨u, hu⟩ := Option.ne_none_iff_exists'.mp (ht i i hi .refl)
    simp only [hu, hsolved i u hu]
    exact ih fun k j hk hkj => ht i j hi (.head ⟨u, hu, hk⟩ hkj)

section Solving

variable {h : Holes} {id : HoleId} {t : Term}

theorem links_setSolution {x : Option Term} {i j : HoleId} (hi : i ≠ id) :
    (h.setSolution id x).Links i j ↔ h.Links i j := by
  simp only [Links, solution?_setSolution, if_neg (Ne.symm hi)]

/-- A chain of links that ends at the solved hole existed before. -/
theorem reach_of_reach_setSolution {x : Option Term} {i : HoleId}
    (hreach : ReflTransGen (h.setSolution id x).Links i id) : ReflTransGen h.Links i id := by
  induction hreach using ReflTransGen.head_induction_on with
  | refl => exact .refl
  | @head i j hij _ ih =>
    by_cases hi : i = id
    · rw [hi]
    · exact .head ((links_setSolution hi).mp hij) ih

/-- A new chain of links either existed before or passes the solved hole. -/
theorem transGen_setSolution {i j : HoleId}
    (hij : TransGen (h.setSolution id (some t)).Links i j) :
    TransGen h.Links i j ∨ (ReflTransGen h.Links i id ∧
      ∃ k, t.Shows k ∧ ReflTransGen (h.setSolution id (some t)).Links k j) := by
  have hfirst : ∀ j, (h.setSolution id (some t)).Links id j → t.Shows j := by
    rintro j ⟨u, hu, hj⟩
    simp only [solution?_setSolution, if_true] at hu
    split at hu
    · exact Option.some.inj hu ▸ hj
    · simp at hu
  induction hij with
  | @single j hij =>
    by_cases hi : i = id
    · subst hi
      exact .inr ⟨.refl, j, hfirst j hij, .refl⟩
    · exact .inl (.single ((links_setSolution hi).mp hij))
  | @tail j k _ hjk ih =>
    rcases ih with hold | ⟨hid, l, hl, hreach⟩
    · by_cases hj : j = id
      · subst hj
        exact .inr ⟨hold.to_reflTransGen, k, hfirst k hjk, .refl⟩
      · exact .inl (.tail hold ((links_setSolution hj).mp hjk))
    · exact .inr ⟨hid, l, hl, hreach.tail hjk⟩

/-- An open hole that does not occur in a term is not behind it. -/
theorem not_behind_of_occurs (hopen : h.solution? id = none)
    (ht : ∀ i, t.Shows i → h.Grounded i) (hocc : h.occurs id t = false) :
    ¬ ∃ i, t.Shows i ∧ ReflTransGen h.Links i id := by
  intro hbehind
  have hoccurs : (h.expand t).Shows id := (shows_expand ht).mpr ⟨hopen, hbehind⟩
  rw [Term.Shows, ← Bool.not_eq_false] at hoccurs
  exact hoccurs hocc

/-- Solving an open hole by a term in which it does not occur closes no circle. -/
theorem not_transGen_setSolution (hopen : h.solution? id = none)
    (ht : ∀ i, t.Shows i → h.Grounded i) (hocc : h.occurs id t = false) {i : HoleId}
    (hi : ¬ TransGen h.Links i i) : ¬ TransGen (h.setSolution id (some t)).Links i i := by
  intro hcircle
  rcases transGen_setSolution hcircle with hold | ⟨hid, k, hk, hreach⟩
  · exact hi hold
  · have hlift : ReflTransGen (h.setSolution id (some t)).Links i id := by
      apply ReflTransGen.mono ?_ _ _ hid
      intro a b hab
      have ha : a ≠ id := by
        rintro rfl
        obtain ⟨u, hu, _⟩ := hab
        simp [hopen] at hu
      exact (links_setSolution ha).mpr hab
    exact not_behind_of_occurs hopen ht hocc
      ⟨k, hk, reach_of_reach_setSolution (hreach.trans hlift)⟩

end Solving

end Holes

end Implicits
