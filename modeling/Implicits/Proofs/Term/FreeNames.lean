import Implicits.Proofs.Term.Subst
import Implicits.Proofs.Term.Unifier

/-!
Free names under substitution. An occurrence of a name is free if none of the parameters in whose
scope it stands has the name. Substitution keeps the free occurrences of the names that it leaves
alone, and puts those of the given terms in the scope of the parameters around the replaced names.
They are free there unless one of these parameters has their name: parameters are not renamed, so
they capture.
-/
namespace Implicits

namespace Term

/-- A free occurrence of a name, with the parameters in whose scope it stands, outermost first. The
scope of a parameter is what stands to its right in the function type. The types of literals and the
tactics of parameters are not places of names. -/
inductive FreeAt (x : String) : List String → Term → Prop
  | bound : FreeAt x [] (.bound x)
  | fn {around : List String} {fn : Term} {args : List Term} (h : FreeAt x around fn) :
    FreeAt x around (.app fn args)
  | arg {around : List String} {fn a : Term} {args : List Term} (ha : a ∈ args)
    (h : FreeAt x around a) : FreeAt x around (.app fn args)
  | type {around : List String} {p : Param Term} {ps : List (Param Term)} {result : Term}
    (h : FreeAt x around p.type) : FreeAt x around (.pi (p :: ps) result)
  | behind {around : List String} {p : Param Term} {ps : List (Param Term)} {result : Term}
    (hp : p.name ≠ x) (h : FreeAt x around (.pi ps result)) :
    FreeAt x (p.name :: around) (.pi (p :: ps) result)
  | result {around : List String} {result : Term} (h : FreeAt x around result) :
    FreeAt x around (.pi [] result)
  | lhs {around : List String} {lhs rhs : Term} (h : FreeAt x around lhs) :
    FreeAt x around (.eq lhs rhs)
  | rhs {around : List String} {lhs rhs : Term} (h : FreeAt x around rhs) :
    FreeAt x around (.eq lhs rhs)
  | value {around : List String} {value : Term} (h : FreeAt x around value) :
    FreeAt x around (.refl value)

def Free (t : Term) (x : String) : Prop := ∃ around, t.FreeAt x around

section Inversion

variable {x : String} {around : List String}

theorem freeAt_bound_iff {n : String} : (bound n).FreeAt x around ↔ n = x ∧ around = [] := by
  constructor
  · intro h
    cases h
    exact ⟨rfl, rfl⟩
  · rintro ⟨rfl, rfl⟩
    exact .bound

theorem freeAt_app_iff {fn : Term} {args : List Term} :
    (app fn args).FreeAt x around ↔ fn.FreeAt x around ∨ ∃ a ∈ args, a.FreeAt x around := by
  constructor
  · intro h
    cases h with
    | fn h => exact .inl h
    | arg ha h => exact .inr ⟨_, ha, h⟩
  · rintro (h | ⟨a, ha, h⟩)
    · exact .fn h
    · exact .arg ha h

theorem freeAt_pi_nil_iff {result : Term} :
    (pi [] result).FreeAt x around ↔ result.FreeAt x around := by
  constructor
  · intro h
    cases h with
    | result h => exact h
  · exact .result

/-- A function type is read from its first parameter on. -/
theorem freeAt_pi_cons_iff {p : Param Term} {ps : List (Param Term)} {result : Term} :
    (pi (p :: ps) result).FreeAt x around ↔
      p.type.FreeAt x around ∨
        p.name ≠ x ∧ ∃ inner, around = p.name :: inner ∧ (pi ps result).FreeAt x inner := by
  constructor
  · intro h
    cases h with
    | type h => exact .inl h
    | behind hp h => exact .inr ⟨hp, _, rfl, h⟩
  · rintro (h | ⟨hp, inner, rfl, h⟩)
    · exact .type h
    · exact .behind hp h

theorem freeAt_eq_iff {lhs rhs : Term} :
    (eq lhs rhs).FreeAt x around ↔ lhs.FreeAt x around ∨ rhs.FreeAt x around := by
  constructor
  · intro h
    cases h with
    | lhs h => exact .inl h
    | rhs h => exact .inr h
  · rintro (h | h)
    · exact .lhs h
    · exact .rhs h

theorem freeAt_refl_iff {value : Term} : (refl value).FreeAt x around ↔ value.FreeAt x around := by
  constructor
  · intro h
    cases h with
    | value h => exact h
  · exact .value

/-- A free occurrence is in the scope of no parameter of its name. -/
theorem FreeAt.notMem {t : Term} (h : t.FreeAt x around) : x ∉ around := by
  induction h with
  | bound => exact List.not_mem_nil
  | behind hp _ ih => exact mt List.mem_cons.mp (not_or.mpr ⟨Ne.symm hp, ih⟩)
  | fn _ ih | arg _ _ ih | type _ ih | result _ ih | lhs _ ih | rhs _ ih | value _ ih => exact ih

theorem free_pi_cons_iff {p : Param Term} {ps : List (Param Term)} {result : Term} :
    (pi (p :: ps) result).Free x ↔ p.type.Free x ∨ p.name ≠ x ∧ (pi ps result).Free x := by
  constructor
  · rintro ⟨around, h⟩
    rcases freeAt_pi_cons_iff.mp h with h | ⟨hp, inner, -, h⟩
    · exact .inl ⟨around, h⟩
    · exact .inr ⟨hp, inner, h⟩
  · rintro (⟨around, h⟩ | ⟨hp, inner, h⟩)
    · exact ⟨around, .type h⟩
    · exact ⟨p.name :: inner, .behind hp h⟩

theorem mentionsArgs_iff {args : List Term} :
    mentionsArgs x args = true ↔ ∃ a ∈ args, a.mentions x = true := by
  induction args with
  | nil => simp [mentionsArgs]
  | cons a args ih => simp [mentionsArgs, ih]

/-- The test for a name finds the free names. -/
theorem mentions_iff_free {t : Term} : t.mentions x = true ↔ t.Free x := by
  induction t using induct with
  | missing | const | lit | hole | sort =>
    simp only [mentions, Bool.false_eq_true, false_iff]
    rintro ⟨_, h⟩
    cases h
  | bound n =>
    simp only [mentions, beq_iff_eq, Free, freeAt_bound_iff, exists_and_left, exists_eq, and_true]
  | app fn args ihf ihargs =>
    simp only [mentions, Bool.or_eq_true, ihf, mentionsArgs_iff, Free, freeAt_app_iff, exists_or]
    refine or_congr_right ?_
    constructor
    · rintro ⟨a, ha, h⟩
      obtain ⟨around, h⟩ := (ihargs a ha).mp h
      exact ⟨around, a, ha, h⟩
    · rintro ⟨around, a, ha, h⟩
      exact ⟨a, ha, (ihargs a ha).mpr ⟨around, h⟩⟩
  | pi params result ihparams ihr =>
    induction params with
    | nil =>
      rw [mentions, mentionsParams, ihr]
      exact exists_congr fun around => freeAt_pi_nil_iff.symm
    | cons p ps ih =>
      have hrest := ih fun q hq => ihparams q (List.mem_cons_of_mem _ hq)
      rw [mentions] at hrest
      simp only [mentions, mentionsParams, Bool.or_eq_true, Bool.and_eq_true, bne_iff_ne, hrest,
        ihparams p (List.mem_cons_self ..), free_pi_cons_iff]
  | eq lhs rhs ihl ihr =>
    simp only [mentions, Bool.or_eq_true, ihl, ihr, Free, freeAt_eq_iff, exists_or]
  | refl value ih => simp only [mentions, ih, Free, freeAt_refl_iff]

instance (t : Term) (x : String) : Decidable (t.Free x) := decidable_of_iff _ mentions_iff_free

end Inversion

section Subst

variable {t u : Term} {sub : Substitution} {x y : String} {around inner : List String}

/-- Substitution goes through a function type parameter by parameter. -/
theorem freeAt_subst_pi_cons_iff {p : Param Term} {ps : List (Param Term)} {result : Term} :
    ((pi (p :: ps) result).subst sub).FreeAt y around ↔
      (p.type.subst sub).FreeAt y around ∨
        p.name ≠ y ∧ ∃ inner, around = p.name :: inner ∧
          ((pi ps result).subst (sub.without p.name)).FreeAt y inner := by
  rw [subst, substParams, freeAt_pi_cons_iff, subst]
  rfl

theorem subst_pi_nil (sub : Substitution) (result : Term) :
    (pi [] result).subst sub = pi [] (result.subst sub) := by
  rw [subst, substParams]
  rfl

/-- A free occurrence of a name that is left alone stays free. -/
theorem FreeAt.subst_of_lookup_eq_none (h : t.FreeAt y around) (hy : sub.lookup y = none) :
    (t.subst sub).FreeAt y around := by
  induction h generalizing sub with
  | bound =>
    rw [subst, hy]
    exact .bound
  | fn _ ih =>
    rw [subst]
    exact .fn (ih hy)
  | arg ha _ ih =>
    rw [subst, substArgs_eq_map]
    exact .arg (List.mem_map_of_mem ha) (ih hy)
  | type _ ih => exact freeAt_subst_pi_cons_iff.mpr (.inl (ih hy))
  | @behind around p _ _ hp _ ih =>
    have hrest : (sub.without p.name).lookup y = none := by
      rw [Substitution.lookup_without, hy, ite_self]
    exact freeAt_subst_pi_cons_iff.mpr (.inr ⟨hp, around, rfl, ih hrest⟩)
  | result _ ih =>
    rw [subst_pi_nil]
    exact .result (ih hy)
  | lhs _ ih =>
    rw [subst]
    exact .lhs (ih hy)
  | rhs _ ih =>
    rw [subst]
    exact .rhs (ih hy)
  | value _ ih =>
    rw [subst]
    exact .value (ih hy)

/-- A free occurrence in a term that is put in stays free if no parameter around it has its name. -/
theorem FreeAt.subst_of_lookup_eq_some (h : t.FreeAt x around) (hx : sub.lookup x = some u)
    (hu : u.FreeAt y inner) (hy : y ∉ around) : (t.subst sub).FreeAt y (around ++ inner) := by
  induction h generalizing sub with
  | bound =>
    rw [subst, hx]
    exact hu
  | fn _ ih =>
    rw [subst]
    exact .fn (ih hx hy)
  | arg ha _ ih =>
    rw [subst, substArgs_eq_map]
    exact .arg (List.mem_map_of_mem ha) (ih hx hy)
  | type _ ih => exact freeAt_subst_pi_cons_iff.mpr (.inl (ih hx hy))
  | @behind around p _ _ hp _ ih =>
    obtain ⟨hyp, hyrest⟩ := not_or.mp (mt List.mem_cons.mpr hy)
    have hrest : (sub.without p.name).lookup x = some u := by
      rw [Substitution.lookup_without, if_neg (Ne.symm hp), hx]
    refine freeAt_subst_pi_cons_iff.mpr (.inr ⟨Ne.symm hyp, around ++ inner, rfl, ?_⟩)
    exact ih hrest hyrest
  | result _ ih =>
    rw [subst_pi_nil]
    exact .result (ih hx hy)
  | lhs _ ih =>
    rw [subst]
    exact .lhs (ih hx hy)
  | rhs _ ih =>
    rw [subst]
    exact .rhs (ih hx hy)
  | value _ ih =>
    rw [subst]
    exact .value (ih hx hy)

/-- Where a free occurrence comes from: it was there before, or it belongs to a term that was put
in. -/
def Arises (t : Term) (sub : Substitution) (y : String) (around : List String) : Prop :=
  (sub.lookup y = none ∧ t.FreeAt y around) ∨
    ∃ x u outer inner, sub.lookup x = some u ∧ t.FreeAt x outer ∧ u.FreeAt y inner ∧ y ∉ outer ∧
      around = outer ++ inner

/-- What arises in a part arises in the whole, if the free occurrences of the part are found in the
whole. -/
theorem Arises.mono {part : Term} (h : part.Arises sub y around)
    (hpart : ∀ z outer, part.FreeAt z outer → t.FreeAt z outer) : t.Arises sub y around := by
  rcases h with ⟨hnone, hfree⟩ | ⟨x, u, outer, inner, hx, hfree, hrest⟩
  · exact .inl ⟨hnone, hpart y around hfree⟩
  · exact .inr ⟨x, u, outer, inner, hx, hpart x outer hfree, hrest⟩

/-- What arises behind a parameter of another name arises in the whole function type: the names that
are replaced there are other names too. -/
theorem Arises.behind {p : Param Term} {ps : List (Param Term)} {result : Term}
    (h : (pi ps result).Arises (sub.without p.name) y around) (hp : p.name ≠ y) :
    (pi (p :: ps) result).Arises sub y (p.name :: around) := by
  rcases h with ⟨hnone, hfree⟩ | ⟨x, u, outer, inner, hx, hfree, hu, hy, rfl⟩
  · rw [Substitution.lookup_without, if_neg (Ne.symm hp)] at hnone
    exact .inl ⟨hnone, .behind hp hfree⟩
  · rw [Substitution.lookup_without] at hx
    by_cases hxp : x = p.name
    · rw [if_pos hxp] at hx
      exact nomatch hx
    · rw [if_neg hxp] at hx
      refine .inr ⟨x, u, p.name :: outer, inner, hx, .behind (Ne.symm hxp) hfree, hu, ?_, rfl⟩
      exact mt List.mem_cons.mp (not_or.mpr ⟨Ne.symm hp, hy⟩)

/-- All free occurrences after a substitution arise in one of the two ways. -/
theorem arises_of_freeAt_subst (h : (t.subst sub).FreeAt y around) : t.Arises sub y around := by
  induction t using induct generalizing sub around with
  | missing | const | lit | hole | sort => exact nomatch h
  | bound n =>
    rw [subst] at h
    cases hn : sub.lookup n with
    | none =>
      rw [hn] at h
      obtain ⟨rfl, -⟩ := freeAt_bound_iff.mp h
      exact .inl ⟨hn, h⟩
    | some u =>
      rw [hn] at h
      exact .inr ⟨n, u, [], around, hn, .bound, h, List.not_mem_nil, rfl⟩
  | app fn args ihf ihargs =>
    rw [subst, substArgs_eq_map] at h
    rcases freeAt_app_iff.mp h with h | ⟨b, hb, h⟩
    · exact (ihf h).mono fun z outer => .fn
    · obtain ⟨a, ha, rfl⟩ := List.mem_map.mp hb
      exact (ihargs a ha h).mono fun z outer => .arg ha
  | pi params result ihparams ihr =>
    induction params generalizing sub around with
    | nil =>
      rw [subst_pi_nil] at h
      exact (ihr (freeAt_pi_nil_iff.mp h)).mono fun z outer => .result
    | cons p ps ih =>
      rcases freeAt_subst_pi_cons_iff.mp h with htype | ⟨hp, rest, rfl, hrest⟩
      · exact (ihparams p (List.mem_cons_self ..) htype).mono fun z outer => .type
      · exact (ih (fun q hq => ihparams q (List.mem_cons_of_mem _ hq)) hrest).behind hp
  | eq lhs rhs ihl ihr =>
    rw [subst] at h
    rcases freeAt_eq_iff.mp h with h | h
    · exact (ihl h).mono fun z outer => .lhs
    · exact (ihr h).mono fun z outer => .rhs
  | refl value ih =>
    rw [subst] at h
    exact (ih (freeAt_refl_iff.mp h)).mono fun z outer => .value

/-- The free occurrences after a substitution. -/
theorem freeAt_subst_iff : (t.subst sub).FreeAt y around ↔ t.Arises sub y around := by
  constructor
  · exact arises_of_freeAt_subst
  · rintro (⟨hnone, hfree⟩ | ⟨x, u, outer, inner, hx, hfree, hu, hy, rfl⟩)
    · exact hfree.subst_of_lookup_eq_none hnone
    · exact hfree.subst_of_lookup_eq_some hx hu hy

end Subst

end Term

namespace Holes

def FreeAt (h : Holes) (t : Term) (y : String) (around : List String) : Prop :=
  (h.expand t).FreeAt y around

def Free (h : Holes) (t : Term) (y : String) : Prop := (h.expand t).Free y

/-- No parameter of a term captures a free name of what is put in for a name in its scope. -/
def CapturesNone (h : Holes) (t : Term) (sub : Substitution) : Prop :=
  ∀ x u y around, sub.lookup x = some u → t.FreeAt x around → h.Free u y → y ∉ around

/-- In a term without holes the terms that are put in can be read beforehand. -/
theorem expand_subst (h : Holes) {t : Term} (ht : t.HoleFree) (sub : Substitution) :
    h.expand (h.subst sub t) = t.subst (sub.mapTerms h.expand) := by
  have hread : h.expand t = t := by rw [expand_eq_fill, Term.fill_of_holeFree ht]
  have hfill : h.expand = Term.fill false fun i => h.expand (.hole i) := funext h.expand_eq_fill
  rw [subst_of_expand hread, expand_eq_fill, ht.fill_subst false, ← hfill]

variable {h : Holes} {t : Term} {sub : Substitution}

theorem freeAt_subst_iff (ht : t.HoleFree) {y : String} {around : List String} :
    h.FreeAt (h.subst sub t) y around ↔
      (sub.lookup y = none ∧ t.FreeAt y around) ∨
        ∃ x u outer inner, sub.lookup x = some u ∧ t.FreeAt x outer ∧ h.FreeAt u y inner ∧
          y ∉ outer ∧ around = outer ++ inner := by
  rw [FreeAt, expand_subst h ht, Term.freeAt_subst_iff, Term.Arises]
  simp only [Substitution.lookup_mapTerms, Option.map_eq_none_iff, Option.map_eq_some_iff]
  refine or_congr_right ?_
  constructor
  · rintro ⟨x, _, outer, inner, ⟨u, hx, rfl⟩, hrest⟩
    exact ⟨x, u, outer, inner, hx, hrest⟩
  · rintro ⟨x, u, outer, inner, hx, hrest⟩
    exact ⟨x, h.expand u, outer, inner, ⟨u, hx, rfl⟩, hrest⟩

/-- Nothing is captured exactly if all that is free in a term is still free where it is put in. -/
theorem capturesNone_iff (ht : t.HoleFree) :
    h.CapturesNone t sub ↔ ∀ x u outer y inner, sub.lookup x = some u → t.FreeAt x outer →
      h.FreeAt u y inner → h.FreeAt (h.subst sub t) y (outer ++ inner) := by
  constructor
  · intro hclear x u outer y inner hx hfree hu
    have hy := hclear x u y outer hx hfree ⟨inner, hu⟩
    exact (freeAt_subst_iff ht).mpr (.inr ⟨x, u, outer, inner, hx, hfree, hu, hy, rfl⟩)
  · rintro hkeep x u y outer hx hfree ⟨inner, hu⟩ hy
    exact (hkeep x u outer y inner hx hfree hu).notMem (List.mem_append_left inner hy)

/-- The free names where nothing is captured. -/
theorem free_subst_iff (ht : t.HoleFree) (hclear : h.CapturesNone t sub) (y : String) :
    h.Free (h.subst sub t) y ↔
      (t.Free y ∧ sub.lookup y = none) ∨
        ∃ x u, t.Free x ∧ sub.lookup x = some u ∧ h.Free u y := by
  constructor
  · rintro ⟨around, hfree⟩
    rcases (freeAt_subst_iff ht).mp hfree with ⟨hnone, hold⟩ | ⟨x, u, outer, inner, hx, hold, hu, -⟩
    · exact .inl ⟨⟨around, hold⟩, hnone⟩
    · exact .inr ⟨x, u, ⟨outer, hold⟩, hx, inner, hu⟩
  · rintro (⟨⟨around, hold⟩, hnone⟩ | ⟨x, u, ⟨outer, hold⟩, hx, inner, hu⟩)
    · exact ⟨around, (freeAt_subst_iff ht).mpr (.inl ⟨hnone, hold⟩)⟩
    · exact ⟨outer ++ inner, (capturesNone_iff ht).mp hclear x u outer y inner hx hold hu⟩

end Holes

/-- What is free after a substitution: the free occurrences of the other names, and those of the
terms that are put in unless a parameter around them has their name. No parameter does exactly if
all that was free in these terms stays free. Then the free names are those of the term that were not
replaced together with those of what replaced the others. -/
theorem Holes.subst_respects_scope (h : Holes) {t : Term} (ht : t.HoleFree) (sub : Substitution) :
    (∀ y around, h.FreeAt (h.subst sub t) y around ↔
      (sub.lookup y = none ∧ t.FreeAt y around) ∨
        ∃ x u outer inner, sub.lookup x = some u ∧ t.FreeAt x outer ∧ h.FreeAt u y inner ∧
          y ∉ outer ∧ around = outer ++ inner) ∧
    (h.CapturesNone t sub ↔ ∀ x u outer y inner, sub.lookup x = some u → t.FreeAt x outer →
      h.FreeAt u y inner → h.FreeAt (h.subst sub t) y (outer ++ inner)) ∧
    (h.CapturesNone t sub → ∀ y, h.Free (h.subst sub t) y ↔
      (t.Free y ∧ sub.lookup y = none) ∨
        ∃ x u, t.Free x ∧ sub.lookup x = some u ∧ h.Free u y) :=
  ⟨fun _ _ => freeAt_subst_iff ht, capturesNone_iff ht, free_subst_iff ht⟩

def solvedByName : Holes := (Holes.add {} "b" 0 .missing).solve 0 (.bound "d")

def pairType : Term :=
  .pi [{ name := "a", type := .sort (.unassigned 0) }]
    (.app (.const "Pair") [.bound "a", .bound "b"])

/-- The parameter hides one of the replaced names; the other one is replaced below it by a hole that
stands for a name of its own. -/
theorem subst_respects_scope_pairType :
    pairType.HoleFree ∧ solvedByName.CapturesNone pairType [("a", .const "Int"), ("b", .hole 0)] ∧
      solvedByName.Free
        (solvedByName.subst [("a", .const "Int"), ("b", .hole 0)] pairType) "d" := by
  have hfree : pairType.HoleFree := by decide
  have hclear : solvedByName.CapturesNone pairType [("a", .const "Int"), ("b", .hole 0)] := by
    intro x u y around hx hat hu
    rcases Term.freeAt_pi_cons_iff.mp hat with htype | ⟨hxa, inner, rfl, hresult⟩
    · exact nomatch htype
    · rcases Term.freeAt_app_iff.mp (Term.freeAt_pi_nil_iff.mp hresult) with hfn | ⟨a, ha, hfree⟩
      · exact nomatch hfn
      · rcases List.mem_pair.mp ha with rfl | rfl
        · exact absurd (Term.freeAt_bound_iff.mp hfree).1 hxa
        · obtain ⟨rfl, rfl⟩ := Term.freeAt_bound_iff.mp hfree
          obtain rfl : Term.hole 0 = u := Option.some.inj hx
          obtain ⟨_, hu⟩ := hu
          obtain ⟨rfl, -⟩ := Term.freeAt_bound_iff.mp hu
          decide
  refine ⟨hfree, hclear, ?_⟩
  refine ((solvedByName.subst_respects_scope hfree _).2.2 hclear "d").mpr (.inr ⟨"b", .hole 0, ?_⟩)
  refine ⟨by decide, rfl, ?_⟩
  change (solvedByName.expand (.hole 0)).Free "d"
  decide

/-- A parameter captures the name that is put in below it: the function type `(y : Int) → x` has no
free name left when `x` is replaced by `y`. -/
theorem subst_captures :
    (Term.pi [{ name := "y", type := .const "Int" }] (.bound "x")).HoleFree ∧
    (Term.pi [{ name := "y", type := .const "Int" }] (.bound "x")).Free "x" ∧
    Holes.Free {} (.bound "y") "y" ∧
    ¬ Holes.Free {} (Holes.subst {} [("x", .bound "y")]
      (Term.pi [{ name := "y", type := .const "Int" }] (.bound "x"))) "y" := by
  refine ⟨by decide, by decide, ?_, ?_⟩
  · change (Holes.expand {} (.bound "y")).Free "y"
    decide
  · change ¬ (Holes.expand {} (Holes.subst {} [("x", .bound "y")] _)).Free "y"
    decide

end Implicits
