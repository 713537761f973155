import Implicits.Proofs.HoleFree
import Implicits.Proofs.Level.Origins
import Implicits.Proofs.Simulation
import Implicits.Proofs.Solver.Rollback
import Implicits.Proofs.Term.Pairing

/-!
Solving in two runs side by side. Nothing that is made since the runs began refers to the holes that
they have found, and solving never asks which level variable it has in hand, so every step on terms
that go together succeeds in both runs or fails in both with the same kind of fault. How far the
runs agree in the constraints and imports that they have collected is left to a `Comparison`: all
that solving asks of it is that new level variables go together, and that it lasts when constraints
are added, imported and undone.
-/
namespace Implicits

open Relation Term

namespace Holes

/-- A table that has grown out of an earlier one: the holes of the earlier one are as they were, and
the new ones refer to new ones only, without circles. -/
structure Later (past h : Holes) : Prop where
  size : past.size ≤ h.size
  before : ∀ i, i < past.size → h.solution? i = past.solution? i
  closed : ∀ i j, past.size ≤ i → h.Links i j → past.size ≤ j
  acyclic : ∀ i, past.size ≤ i → ¬ TransGen h.Links i i

namespace Later

variable {past h : Holes} {t : Term} {id : HoleId}

theorem refl (h : Holes) : h.Later h := by
  have hopen : ∀ i j, h.size ≤ i → ¬ h.Links i j := by
    rintro i j hi ⟨t, ht, -⟩
    exact Nat.not_lt_of_le hi (lt_size_of_solution? ht)
  refine ⟨Nat.le_refl _, fun i _ => rfl, fun i j hi hij => absurd hij (hopen i j hi),
    fun i hi hcircle => ?_⟩
  obtain ⟨j, hij, -⟩ := TransGen.head'_iff.mp hcircle
  exact hopen i j hi hij

theorem grounded (hh : past.Later h) (hi : past.size ≤ id) : h.Grounded id := by
  intro j hij
  have hj : past.size ≤ j := by
    induction hij with
    | refl => exact hi
    | tail _ hlink ih => exact hh.closed _ _ ih hlink
  exact hh.acyclic j hj

theorem add (hh : past.Later h) (name : String) (number : Int) (type : Term) :
    past.Later (h.add name number type) := by
  have hlinks : (h.add name number type).Links = h.Links := by
    funext i j
    simp only [Links, solution?_add]
  refine ⟨?_, fun i hi => ?_, ?_, ?_⟩
  · rw [size_add]
    exact Nat.le_succ_of_le hh.size
  · rw [solution?_add]
    exact hh.before i hi
  · rw [hlinks]
    exact hh.closed
  · rw [hlinks]
    exact hh.acyclic

/-- An open hole is solved by a term that refers to new holes, but not to itself. -/
theorem solve (hh : past.Later h) (hid : past.size ≤ id) (hopen : h.solution? id = none)
    (ht : ∀ i, t.Shows i → past.size ≤ i) (hocc : h.occurs id t = false) :
    past.Later (h.solve id t) := by
  have hground : ∀ i, t.Shows i → h.Grounded i := fun i hi => hh.grounded (ht i hi)
  refine ⟨?_, fun i hi => ?_, fun i j hi hij => ?_, fun i hi => ?_⟩
  · rw [Holes.solve, size_setSolution]
    exact hh.size
  · have hne : id ≠ i := fun heq => Nat.not_lt_of_le hid (heq ▸ hi)
    rw [Holes.solve, solution?_setSolution, if_neg hne]
    exact hh.before i hi
  · by_cases heq : i = id
    · subst heq
      obtain ⟨u, hu, hj⟩ := hij
      simp only [Holes.solve, solution?_setSolution, if_true] at hu
      split at hu
      · cases t with
        | missing => simp [Term.toOption] at hu
        | _ => exact ht j (Option.some.inj hu ▸ hj)
      · simp at hu
    · exact hh.closed i j hi ((links_setSolution heq).mp hij)
  · cases t with
    | missing =>
      -- An empty solution leaves the hole open.
      have hlinks : (h.solve id .missing).Links = h.Links := by
        funext i j
        by_cases hi : id = i
        · simp [Holes.solve, Term.toOption, Links, solution?_setSolution, ← hi, hopen]
        · simp [Holes.solve, Links, solution?_setSolution, hi]
      rw [hlinks]
      exact hh.acyclic i hi
    | _ => exact not_transGen_setSolution hopen hground hocc (hh.acyclic i hi)

end Later

structure Paired (ρ : Pairing) (h h' : Holes) : Prop where
  left : ρ.left.Later h
  right : ρ.right.Later h'
  size : ρ.hole h.size h'.size
  solution : ∀ i j, ρ.hole i j → Option.Rel (Term.Paired ρ) (h.solution? i) (h'.solution? j)
  type : ∀ i j, ρ.hole i j → (h.type i).Paired ρ (h'.type j)

/-- Tables in which no hole has been made since. -/
theorem paired_start {ρ : Pairing} : ρ.left.Paired ρ ρ.right where
  left := .refl _
  right := .refl _
  size := ⟨Nat.le_refl _, Nat.add_comm _ _⟩
  solution i j hij := by
    have hj : ρ.right.size ≤ j := (Pairing.hole_swap.mpr hij).1
    simp only [solution?, Array.getElem?_eq_none hij.1, Array.getElem?_eq_none hj]
    exact .none
  type i j hij := by
    have hj : ρ.right.size ≤ j := (Pairing.hole_swap.mpr hij).1
    simp only [type, Array.getElem?_eq_none hij.1, Array.getElem?_eq_none hj]
    exact .missing

namespace Paired

variable {ρ : Pairing} {h h' : Holes} {t u : Term} {i j : HoleId}

theorem swap (hh : h.Paired ρ h') : h'.Paired ρ.swap h where
  left := hh.right
  right := hh.left
  size := Pairing.hole_swap.mpr hh.size
  solution j i hji := by
    have hsolution := hh.solution i j (Pairing.hole_swap.mp hji)
    generalize h.solution? i = x, h'.solution? j = y at hsolution
    cases hsolution with
    | none => exact .none
    | some hxy => exact .some hxy.swap
  type j i hji := (hh.type i j (Pairing.hole_swap.mp hji)).swap

theorem grounded (hh : h.Paired ρ h') (htu : t.Paired ρ u) (i : HoleId) (hi : t.Shows i) :
    h.Grounded i := hh.left.grounded (htu.left_le hi)

theorem instantiateN (hh : h.Paired ρ h') (deep : Bool) (n : Nat) (htu : t.Paired ρ u) :
    (h.instantiateN deep n t).Paired ρ (h'.instantiateN deep n u) := by
  induction n generalizing t u with
  | zero => exact htu
  | succ n ih =>
    rw [Holes.instantiateN, Holes.instantiateN]
    refine htu.fill fun i j hij => ?_
    have hsolution := hh.solution i j hij
    generalize h.solution? i = x, h'.solution? j = y at hsolution
    cases hsolution with
    | none => exact .hole hij
    | some hxy => exact ih hxy

/-- Reading deeper than there are holes changes nothing. -/
theorem expand_eq (hh : h.Paired ρ h') (htu : t.Paired ρ u) (n : Nat) :
    h.expand t = h.instantiateN false (h.size + n) t :=
  instantiateN_stable (fun i hi => ⟨hh.grounded htu i hi, h.rank_le_size i⟩) (Nat.le_add_right _ _)

theorem expand (hh : h.Paired ρ h') (htu : t.Paired ρ u) : (h.expand t).Paired ρ (h'.expand u) := by
  rw [hh.expand_eq htu h'.size, hh.swap.expand_eq htu.swap h.size, Nat.add_comm]
  exact hh.instantiateN false _ htu

theorem instantiateN_deep (hh : h.Paired ρ h') (n : Nat) (htu : t.Paired ρ u) :
    h.instantiateN true n t = h.instantiateN false n t := by
  induction n generalizing t u with
  | zero => rfl
  | succ n ih =>
    rw [Holes.instantiateN, Holes.instantiateN, htu.fill_deep]
    refine Term.fill_congr fun i hi => ?_
    obtain ⟨j, hij⟩ := htu.exists_partner hi
    have hsolution := hh.solution i j hij
    generalize h.solution? i = x, h'.solution? j = y at hsolution
    cases hsolution with
    | none => rfl
    | some hxy => exact ih hxy

theorem deref_eq (hh : h.Paired ρ h') (htu : t.Paired ρ u) : h.deref t = h.expand t :=
  hh.instantiateN_deep _ htu

theorem deref (hh : h.Paired ρ h') (htu : t.Paired ρ u) : (h.deref t).Paired ρ (h'.deref u) := by
  rw [hh.deref_eq htu, hh.swap.deref_eq htu.swap]
  exact hh.expand htu

theorem followN (hh : h.Paired ρ h') (n : Nat) (htu : t.Paired ρ u) :
    (h.followN n t).Paired ρ (h'.followN n u) := by
  induction n generalizing t u with
  | zero => exact htu
  | succ n ih =>
    by_cases hhole : ∃ i, t = .hole i
    · obtain ⟨i, rfl⟩ := hhole
      cases htu with
      | @hole _ j hij =>
        simp only [Holes.followN]
        have hsolution := hh.solution i j hij
        generalize h.solution? i = x, h'.solution? j = y at hsolution
        cases hsolution with
        | none => exact .hole hij
        | some hxy => exact ih hxy
    · have hother : ∀ j, u ≠ .hole j := by
        rintro j rfl
        cases htu with
        | hole => exact hhole ⟨_, rfl⟩
      rwa [followN_of_not_hole fun i hi => hhole ⟨i, hi⟩, followN_of_not_hole hother]

theorem follow_eq (hh : h.Paired ρ h') (htu : t.Paired ρ u) (n : Nat) :
    h.follow t = h.followN (h.size + n) t :=
  followN_stable (fun i hi => ⟨hh.grounded htu i hi, h.rank_le_size i⟩) (Nat.le_add_right _ _)

theorem follow (hh : h.Paired ρ h') (htu : t.Paired ρ u) : (h.follow t).Paired ρ (h'.follow u) := by
  rw [hh.follow_eq htu h'.size, hh.swap.follow_eq htu.swap h.size, Nat.add_comm]
  exact hh.followN _ htu

theorem subst (hh : h.Paired ρ h') (htu : t.Paired ρ u) {sub sub' : Substitution}
    (hsub : sub.Paired ρ sub') : (h.subst sub t).Paired ρ (h'.subst sub' u) := by
  rw [Holes.subst, Holes.subst, isEmpty_of_forall₂ hsub]
  split
  · exact htu
  · exact (hh.expand htu).subst hsub

theorem occurs_eq (hh : h.Paired ρ h') (htu : t.Paired ρ u) (hij : ρ.hole i j) :
    h'.occurs j u = h.occurs i t := by
  refine (hh.expand htu).anyHole_eq fun k l hkl => ?_
  rw [Bool.eq_iff_iff, beq_iff_eq, beq_iff_eq]
  exact Pairing.hole_iff hij hkl

theorem hasOpen_eq (hh : h.Paired ρ h') (htu : t.Paired ρ u) : h'.hasOpen u = h.hasOpen t :=
  (hh.expand htu).anyHole_eq fun _ _ _ => rfl

theorem depthBound_eq (hh : h.Paired ρ h') (htu : t.Paired ρ u) {v w : Term} (hvw : v.Paired ρ w) :
    Solve.depthBound h' u w = Solve.depthBound h t v := by
  simp only [Solve.depthBound, (hh.expand htu).size_eq, (hh.expand hvw).size_eq]

/-- A new hole. -/
theorem add (hh : h.Paired ρ h') (name : String) (number number' : Int) (htu : t.Paired ρ u) :
    (h.add name number t).Paired ρ (h'.add name number' u) where
  left := hh.left.add name number t
  right := hh.right.add name number' u
  size := by
    obtain ⟨hle, heq⟩ := hh.size
    rw [size_add, size_add]
    exact ⟨by omega, by omega⟩
  solution i j hij := by
    rw [solution?_add, solution?_add]
    exact hh.solution i j hij
  type i j hij := by
    simp only [type_add, Pairing.hole_iff hh.size hij]
    split
    · exact htu
    · exact hh.type i j hij

/-- An open hole is solved by a term in which it does not occur. -/
theorem solve (hh : h.Paired ρ h') (hij : ρ.hole i j) (hopen : h.solution? i = none)
    (htu : t.Paired ρ u) (hocc : h.occurs i t = false) : (h.solve i t).Paired ρ (h'.solve j u) where
  left := hh.left.solve hij.1 hopen (fun _ => htu.left_le) hocc
  right := by
    have hopen' : h'.solution? j = none := by
      have hsolution := hh.solution i j hij
      rw [hopen] at hsolution
      generalize h'.solution? j = y at hsolution
      cases hsolution with
      | none => rfl
    refine hh.right.solve (Pairing.hole_swap.mpr hij).1 hopen' (fun _ => htu.swap.left_le) ?_
    rw [hh.occurs_eq htu hij]
    exact hocc
  size := by
    rw [Holes.solve, Holes.solve, size_setSolution, size_setSolution]
    exact hh.size
  solution k l hkl := by
    have hlt : l < h'.size ↔ k < h.size := by
      obtain ⟨-, hsize⟩ := hh.size
      obtain ⟨-, hkl⟩ := hkl
      omega
    have heq : j = l ↔ i = k := Pairing.hole_iff hkl hij
    simp only [Holes.solve, solution?_setSolution, heq, hlt]
    split
    · split
      · exact htu.toOption
      · exact .none
    · exact hh.solution k l hkl
  type k l hkl := by
    rw [Holes.solve, Holes.solve, type_setSolution, type_setSolution]
    exact hh.type k l hkl

end Paired

end Holes

structure Declarations.ClosedOver (P : LevelVar → Prop) (env : Declarations) : Prop where
  signature : ∀ sig ∈ env.signatures, sig.ClosedOver P
  reduction : ∀ r ∈ env.reductions, r.2.ClosedOver P
  conversion : ∀ entry ∈ env.conversions, entry.2.target.ClosedOver P

theorem Declarations.HoleFree.closedOver {env : Declarations} (henv : env.HoleFree) :
    env.ClosedOver fun _ => True where
  signature sig hsig := (henv.signature sig hsig).closedOver
  reduction r hr := by
    obtain ⟨arity, rules, heq, hrules⟩ := henv.reduction r hr
    exact ⟨arity, rules, heq, fun rule hrule => (hrules rule hrule).closedOver⟩
  conversion entry hentry := (henv.conversion entry hentry).2.closedOver

/-- Signatures that agree in everything but the origins and repetitions of their constraints,
without holes over some level variables. -/
structure Signature.Alike (P : LevelVar → Prop) (sig sig' : Signature) : Prop where
  name : sig'.name = sig.name
  params : sig'.params = sig.params
  result : sig'.result = sig.result
  constraints : demands sig'.constraints = demands sig.constraints
  closed : sig.ClosedOver P

theorem Signature.ClosedOver.alike {P : LevelVar → Prop} {sig : Signature} (h : sig.ClosedOver P) :
    sig.Alike P sig := ⟨rfl, rfl, rfl, rfl, h⟩

theorem Signature.Alike.type_paired {ρ : Pairing} {sig sig' : Signature}
    (h : sig.Alike ρ.known sig') : sig.type.Paired ρ sig'.type := by
  unfold Signature.type Signature.pi
  rw [h.params, h.result]
  split
  · exact h.closed.result.paired
  · exact h.closed.pi.paired

structure Declarations.Paired (ρ : Pairing) (env env' : Declarations) : Prop where
  signatures : List.Forall₂ (Signature.Alike ρ.known) env.signatures env'.signatures
  reductions : env'.reductions = env.reductions
  respects : ∀ r ∈ env.reductions, r.2.Respects ρ

namespace Declarations

variable {ρ : Pairing} {env env' : Declarations}

theorem ClosedOver.paired (henv : env.ClosedOver ρ.known) : env.Paired ρ env where
  signatures := List.forall₂_same.mpr fun sig hsig => (henv.signature sig hsig).alike
  reductions := rfl
  respects r hr := (henv.reduction r hr).respects

theorem signature?_alike {P : LevelVar → Prop}
    (hsigs : List.Forall₂ (Signature.Alike P) env.signatures env'.signatures) (name : String) :
    Option.Rel (Signature.Alike P) (env.signature? name) (env'.signature? name) := by
  unfold signature?
  generalize env.signatures = sigs, env'.signatures = sigs' at hsigs
  induction hsigs with
  | nil => exact .none
  | cons hsig _ ih =>
    rw [List.find?_cons, List.find?_cons, hsig.name]
    split
    · exact .some hsig
    · exact ih

theorem Paired.reduce? (henv : env.Paired ρ env') (name : String) {xs ys : List Term}
    (hargs : List.Forall₂ (Term.Paired ρ) xs ys) :
    Option.Rel (Term.Paired ρ) (env.reduce? name xs) (env'.reduce? name ys) := by
  unfold Declarations.reduce? Declarations.reduction?
  rw [henv.reductions]
  cases hr : env.reductions.lookup name with
  | none => exact .none
  | some r =>
    simp only [Option.bind_some, hargs.length_eq]
    split
    · exact henv.respects (name, r) (mem_of_lookup hr) xs ys hargs
    · exact .none

end Declarations

namespace Holes.Paired

variable {ρ : Pairing} {h h' : Holes} {env env' : Declarations} {t u : Term}

theorem normalizeN (hh : h.Paired ρ h') (henv : env.Paired ρ env') (n : Nat) (htu : t.Paired ρ u)
    (left : Nat) : CountPaired ρ (h.normalizeN env n t left) (h'.normalizeN env' n u left) := by
  induction n generalizing t u left with
  | zero => exact ⟨htu, rfl⟩
  | succ n ih =>
    rw [Holes.normalizeN, Holes.normalizeN]
    refine (hh.expand htu).normalizeWith (fun name xs ys left hargs => ?_) left
    cases left with
    | zero => exact .none
    | succ left =>
      have hreduce := henv.reduce? name hargs
      generalize env.reduce? name xs = x, env'.reduce? name ys = y at hreduce
      cases hreduce with
      | none => exact .none
      | some hxy => exact .some (ih hxy left)

theorem normalize (hh : h.Paired ρ h') (henv : env.Paired ρ env') (htu : t.Paired ρ u) :
    (h.normalize env t).Paired ρ (h'.normalize env' u) :=
  (hh.normalizeN henv _ htu _).1

end Holes.Paired

def Context.Paired (ρ : Pairing) (hyps hyps' : Context) : Prop :=
  List.Forall₂ (fun x y => y.name = x.name ∧ x.type.Paired ρ y.type) hyps.hypotheses
    hyps'.hypotheses

namespace Context

variable {ρ : Pairing} {hyps hyps' : Context}

theorem ClosedOver.paired (h : hyps.ClosedOver ρ.known) : hyps.Paired ρ hyps :=
  List.forall₂_same.mpr fun hyp hhyp => ⟨rfl, (h hyp hhyp).paired⟩

theorem Paired.lookup? (h : hyps.Paired ρ hyps') (name : String) :
    Option.Rel (Term.Paired ρ) (hyps.lookup? name) (hyps'.lookup? name) := by
  unfold Context.lookup?
  unfold Context.Paired at h
  generalize hyps.hypotheses = xs, hyps'.hypotheses = ys at h
  induction h with
  | nil => exact .none
  | cons hxy _ ih =>
    rw [List.find?_cons, List.find?_cons, hxy.1]
    split
    · exact hxy.2.toOption
    · exact ih

theorem Paired.extend (h : hyps.Paired ρ hyps') (name : String) {t u : Term} (htu : t.Paired ρ u) :
    (hyps.extend name t).Paired ρ (hyps'.extend name u) := .cons ⟨rfl, htu⟩ h

end Context

abbrev Solver.collection (s : Solver) : LevelStore × List String := (s.levels, s.imported)

structure Solver.Comparison (ρ : Pairing) where
  collected : LevelStore × List String → LevelStore × List String → Prop
  fresh : ∀ {s t : LevelStore} {xs ys : List String}, collected (s, xs) (t, ys) →
    ρ.level s.fresh.1 t.fresh.1 ∧ collected (s.fresh.2, xs) (t.fresh.2, ys)
  add : ∀ {s t : LevelStore} {xs ys : List String} {lo lo' hi hi' : Level} (strict : Bool)
    (origin origin' : String), collected (s, xs) (t, ys) → lo.Paired ρ lo' → hi.Paired ρ hi' →
    collected (s.add ⟨lo, hi, strict, origin⟩, xs) (t.add ⟨lo', hi', strict, origin'⟩, ys)
  importSignature : ∀ {s t : Solver} {sig sig' : Signature}, collected s.collection t.collection →
    sig.Alike ρ.known sig' →
    collected (s.importSignature sig).collection (t.importSignature sig').collection
  /-- Undoing a step leaves out the constraints, but no variable that was handed out. -/
  undo : ∀ {s s' t t' : LevelStore} {xs xs' ys ys' : List String}, collected (s, xs) (t, ys) →
    collected (s', xs') (t', ys') → s.Grows s' → t.Grows t' →
    collected ({ s with issued := s'.issued }, xs) ({ t with issued := t'.issued }, ys)

/-- Solvers that are in step. What they may undo does not count. -/
structure Solver.Paired {ρ : Pairing} (K : Solver.Comparison ρ) (s t : Solver) : Prop where
  holes : s.holes.Paired ρ t.holes
  collected : K.collected s.collection t.collection

structure Solver.Holding {ρ : Pairing} (K : Solver.Comparison ρ) (h h' : Holes) (s t : Solver) :
    Prop where
  left : s.holes = h
  right : t.holes = h'
  collected : K.collected s.collection t.collection

namespace Solver

variable {ρ : Pairing} {K : Comparison ρ} {h h' : Holes} {s t : Solver}

theorem Paired.holding (hst : s.Paired K t) : Holding K s.holes t.holes s t :=
  ⟨rfl, rfl, hst.collected⟩

theorem Holding.paired (hst : Holding K h h' s t) (hh : h.Paired ρ h') : s.Paired K t := by
  refine ⟨?_, hst.collected⟩
  rw [hst.left, hst.right]
  exact hh

theorem Holding.importSignature (hst : Holding K h h' s t) {sig sig' : Signature}
    (hsig : sig.Alike ρ.known sig') :
    Holding K h h' (s.importSignature sig) (t.importSignature sig') where
  left := (holes_importSignature s sig).trans hst.left
  right := (holes_importSignature t sig').trans hst.right
  collected := K.importSignature hst.collected hsig

theorem Paired.importSignature (hst : s.Paired K t) {sig sig' : Signature}
    (hsig : sig.Alike ρ.known sig') :
    (s.importSignature sig).Paired K (t.importSignature sig') :=
  (hst.holding.importSignature hsig).paired hst.holes

/-- New holes go together. -/
theorem Paired.addHole (hst : s.Paired K t) (name : String) {a b : Term} (hab : a.Paired ρ b) :
    ρ.hole (s.addHole name a).1 (t.addHole name b).1 ∧
      (s.addHole name a).2.Paired K (t.addHole name b).2 :=
  ⟨hst.holes.size, hst.holes.add name _ _ hab, hst.collected⟩

end Solver

/-- A fault without the texts of terms and the names of holes. -/
def Fault.kind : Fault → Fault
  | mismatch _ _ => mismatch "" ""
  | circular _ _ => circular "" ""
  | badSolution _ _ cause => badSolution "" "" cause.kind
  | untypedHole _ => untypedHole ""
  | notApplicable _ _ _ => notApplicable "" "" ""
  | untypable _ => untypable ""
  | unknownUniverse _ => unknownUniverse ""
  | notAType _ => notAType ""
  | fault => fault

namespace Solve

def SameKind (e f : Fault) : Prop := f.kind = e.kind

/-- Steps of two solvers with given tables, which stay as they are. -/
abbrev TypesPaired {α β : Type} {ρ : Pairing} (K : Solver.Comparison ρ) (h h' : Holes)
    (V : α → β → Prop) (x : Solve α) (y : Solve β) : Prop :=
  Simulates (Solver.Holding K h h') V SameKind x y

abbrev SolvesPaired {α β : Type} {ρ : Pairing} (K : Solver.Comparison ρ) (V : α → β → Prop)
    (x : Solve α) (y : Solve β) : Prop :=
  Simulates (Solver.Paired K) V SameKind x y

section Typing

variable {ρ : Pairing} {K : Solver.Comparison ρ} {h h' : Holes} {env env' : Declarations}
  {hyps hyps' : Context} {t u : Term}

theorem TypesPaired.solvesPaired {α β : Type} {V : α → β → Prop} {x : Solve α} {y : Solve β}
    (hxy : ∀ h h', h.Paired ρ h' → TypesPaired K h h' V x y) : SolvesPaired K V x y := by
  intro s t hst
  obtain ⟨houtcome, hholding⟩ := hxy _ _ hst.holes s t hst.holding
  exact ⟨houtcome, hholding.paired hst.holes⟩

theorem holes_paired : TypesPaired K h h' (fun g g' => g = h ∧ g' = h') holes holes :=
  fun _ _ hst => ⟨.ok ⟨hst.left, hst.right⟩, hst⟩

theorem text_paired (t u : Term) : TypesPaired K h h' (fun _ _ => True) (text t) (text u) :=
  fun _ _ hst => ⟨.ok trivial, hst⟩

theorem add_paired {lo lo' hi hi' : Level} (hlo : lo.Paired ρ lo') (hhi : hi.Paired ρ hi')
    (strict : Bool) (origin origin' : String) :
    TypesPaired K h h' (fun _ _ => True) (modifyLevels (·.add ⟨lo, hi, strict, origin⟩))
      (modifyLevels (·.add ⟨lo', hi', strict, origin'⟩)) :=
  .modify fun _ _ hst => ⟨hst.left, hst.right, K.add strict origin origin' hst.collected hlo hhi⟩

theorem freshLevel_paired : TypesPaired K h h' (Level.Paired ρ) freshLevel freshLevel := by
  intro s t hst
  obtain ⟨hvar, hcollected⟩ := K.fresh hst.collected
  exact ⟨.ok (.var hvar), hst.left, hst.right, hcollected⟩

theorem lookupSignature?_paired (henv : env.Paired ρ env') (name : String) :
    TypesPaired K h h' (Option.Rel (Signature.Alike ρ.known)) (lookupSignature? env name)
      (lookupSignature? env' name) := by
  have hsig := Declarations.signature?_alike henv.signatures name
  unfold Solve.lookupSignature?
  generalize env.signature? name = x, env'.signature? name = y at hsig
  cases hsig with
  | none => exact .pure .none
  | some hsig =>
    exact .bind (.modify fun s t hst => hst.importSignature hsig) fun _ _ _ => .pure (.some hsig)

theorem asUniverse_paired (hh : h.Paired ρ h') (henv : env.Paired ρ env') (t t' : Term)
    {type type' : Term} (htype : type.Paired ρ type') :
    TypesPaired K h h' (Level.Paired ρ) (asUniverse env t type) (asUniverse env' t' type') := by
  unfold asUniverse
  refine .bind holes_paired fun _ _ hread => ?_
  obtain ⟨rfl, rfl⟩ := hread
  have hnormal := hh.normalize henv htype
  generalize Holes.normalize _ env type = x, Holes.normalize _ env' type' = y at hnormal
  cases hnormal with
  | sort hu =>
    cases hu with
    | level hl => exact .pure hl
    | unassigned => exact .bind (text_paired _ _) fun _ _ _ => .throw rfl
  | _ => exact .bind (text_paired _ _) fun _ _ _ => .throw rfl

/-- Arguments for the first parameters, as a substitution. -/
theorem zip_paired {ps qs : List (Param Term)} (hparams : List.Forall₂ (Param.Paired ρ) ps qs)
    {xs ys : List Term} (hargs : List.Forall₂ (Term.Paired ρ) xs ys) :
    Substitution.Paired ρ ((ps.map (·.name)).zip xs) ((qs.map (·.name)).zip ys) := by
  induction hparams generalizing xs ys with
  | nil => exact .nil
  | cons hpq _ ih =>
    cases hargs with
    | nil => exact .nil
    | cons hxy hargs => exact .cons ⟨hpq.name, hxy⟩ (ih hargs)

theorem applyType_paired (hh : h.Paired ρ h') (henv : env.Paired ρ env') (fn fn' : Term)
    {type type' : Term} (htype : type.Paired ρ type') {xs ys : List Term}
    (hargs : List.Forall₂ (Term.Paired ρ) xs ys) :
    TypesPaired K h h' (Term.Paired ρ) (applyType env fn type xs)
      (applyType env' fn' type' ys) := by
  have hrefuse : TypesPaired K h h' (Term.Paired ρ)
      (do throw (.notApplicable (← text fn) (← text type) (← text (.app fn xs))))
      (do throw (.notApplicable (← text fn') (← text type') (← text (.app fn' ys)))) :=
    .bind (text_paired _ _) fun _ _ _ => .bind (text_paired _ _) fun _ _ _ =>
      .bind (text_paired _ _) fun _ _ _ => .throw rfl
  unfold applyType
  refine .bind holes_paired fun _ _ hread => ?_
  obtain ⟨rfl, rfl⟩ := hread
  have hnormal := hh.normalize henv htype
  generalize Holes.normalize _ env type = x, Holes.normalize _ env' type' = y at hnormal
  cases hnormal with
  | @pi ps qs r s hlength hshape htypes hresult =>
    have hparams := Term.Paired.params hlength hshape htypes
    simp only [← hlength, ← hargs.length_eq]
    split
    · exact hrefuse
    · have hsub := List.rel_reverse (zip_paired hparams hargs)
      have hrest := List.forall₂_drop xs.length hparams
      refine .pure (hh.subst ?_ hsub)
      rw [isEmpty_of_forall₂ hrest]
      split
      · exact hresult
      · exact .ofParams hrest hresult
  | _ => exact hrefuse

variable {levelOfType levelOfType' : Context → Term → Solve Level}

theorem universeAbove_paired {l m : Level} (hlm : l.Paired ρ m) :
    TypesPaired K h h' (Term.Paired ρ) (universeAbove l) (universeAbove m) := by
  refine .bind freshLevel_paired fun above above' habove => ?_
  exact .bind (add_paired hlm habove true _ _) fun _ _ _ => .pure (.sort (.level habove))

theorem inferBelow_paired (hh : h.Paired ρ h') (henv : env.Paired ρ env') {level level' : Level}
    (hlevel : level.Paired ρ level')
    (htu : TypesPaired K h h' (Term.Paired ρ) (infer env levelOfType hyps t)
      (infer env' levelOfType' hyps' u)) (origin : String → String) :
    TypesPaired K h h' (fun _ _ => True) (inferBelow env levelOfType level hyps t origin)
      (inferBelow env' levelOfType' level' hyps' u origin) := by
  refine .bind htu fun type type' htype => ?_
  refine .bind (asUniverse_paired hh henv t u htype) fun lo lo' hlo => ?_
  exact .bind (text_paired _ _) fun _ _ _ => add_paired hlo hlevel false _ _

def InfersPaired (K : Solver.Comparison ρ) (h h' : Holes) (env env' : Declarations)
    (levelOfType levelOfType' : Context → Term → Solve Level) (t u : Term) : Prop :=
  ∀ hyps hyps' : Context, hyps.Paired ρ hyps' →
    TypesPaired K h h' (Term.Paired ρ) (infer env levelOfType hyps t)
      (infer env' levelOfType' hyps' u)

theorem inferParts_paired (hh : h.Paired ρ h') (henv : env.Paired ρ env') {level level' : Level}
    (hlevel : level.Paired ρ level') {ps qs : List (Param Term)} {r s : Term}
    (hparams : List.Forall₂ (fun p q => ∃ _ : p.Paired ρ q,
      InfersPaired K h h' env env' levelOfType levelOfType' p.type q.type) ps qs)
    (hresult : InfersPaired K h h' env env' levelOfType levelOfType' r s)
    (hhyps : hyps.Paired ρ hyps') :
    TypesPaired K h h' (fun _ _ => True) (inferParts env levelOfType level r hyps ps)
      (inferParts env' levelOfType' level' s hyps' qs) := by
  induction hparams generalizing hyps hyps' with
  | nil => exact inferBelow_paired hh henv hlevel (hresult hyps hyps' hhyps) _
  | @cons p q _ _ hpq _ ih =>
    obtain ⟨hpq, hinfer⟩ := hpq
    simp only [inferParts]
    rw [hpq.name]
    refine .bind (inferBelow_paired hh henv hlevel (hinfer hyps hyps' hhyps) _) fun _ _ _ => ?_
    exact ih (hhyps.extend _ hpq.type)

theorem infer_paired (hh : h.Paired ρ h') (henv : env.Paired ρ env')
    (hlevel : ∀ (hyps hyps' : Context) (t u : Term), hyps.Paired ρ hyps' → t.Paired ρ u →
      TypesPaired K h h' (Level.Paired ρ) (levelOfType hyps t) (levelOfType' hyps' u))
    (htu : t.Paired ρ u) (hhyps : hyps.Paired ρ hyps') :
    TypesPaired K h h' (Term.Paired ρ) (infer env levelOfType hyps t)
      (infer env' levelOfType' hyps' u) := by
  induction htu using Term.Paired.induct generalizing hyps hyps' with
  | missing => exact .bind (text_paired _ _) fun _ _ _ => .throw rfl
  | const name =>
    rw [infer, infer]
    refine .bind (lookupSignature?_paired henv name) fun _ _ hsig => ?_
    cases hsig with
    | none => exact .throw rfl
    | some hsig => exact .pure hsig.type_paired
  | lit text type hclosed =>
    cases type with
    | missing => exact .throw rfl
    | _ => exact .pure hclosed.paired
  | bound name =>
    rw [infer, infer]
    have htype := hhyps.lookup? name
    generalize hyps.lookup? name = x, hyps'.lookup? name = y at htype
    cases htype with
    | none => exact .throw rfl
    | some htype => exact .pure htype
  | hole i j hij =>
    rw [infer, infer]
    refine .bind holes_paired fun _ _ hread => ?_
    obtain ⟨rfl, rfl⟩ := hread
    have htype := hh.type i j hij
    generalize Holes.type _ i = x, Holes.type _ j = y at htype
    have hfound := htype
    cases htype with
    | missing => exact .throw rfl
    | _ => exact .pure hfound
  | app f g xs ys _ ihf ihargs =>
    rw [infer, infer]
    refine .bind (ihf hhyps) fun type type' htype => ?_
    exact applyType_paired hh henv f g htype (ihargs.imp fun _ _ h => h.1)
  | pi ps qs r s _ iht ihr =>
    rw [infer_pi, infer_pi]
    refine .bind freshLevel_paired fun level level' hlevel => ?_
    exact .bind (inferParts_paired hh henv hlevel
      (iht.imp fun _ _ h => ⟨h.1, fun _ _ hhyps => h.2 hhyps⟩) (fun _ _ hhyps => ihr hhyps) hhyps)
      fun _ _ _ => .pure (.sort (.level hlevel))
  | sort u v huv =>
    cases huv with
    | unassigned => exact .throw rfl
    | @level l m hlm =>
      rw [infer_universe, infer_universe]
      cases hlm with
      | var hvw => exact universeAbove_paired (.var hvw)
      | const =>
        split
        · exact universeAbove_paired .const
        · exact .throw rfl
  | eq a b l r hlhs _ ihl _ =>
    rw [infer, infer]
    refine .bind (ihl hhyps) fun type type' htype => ?_
    exact .bind (hlevel _ _ _ _ hhyps htype) fun l m hlm => .pure (.sort (.level hlm))
  | refl a b hvalue _ => exact .pure (.eq hvalue hvalue)

theorem typeOfN_paired (hh : h.Paired ρ h') (henv : env.Paired ρ env') (n : Nat)
    (hhyps : hyps.Paired ρ hyps') (htu : t.Paired ρ u) :
    TypesPaired K h h' (Term.Paired ρ) (typeOfN env n hyps t) (typeOfN env' n hyps' u) := by
  induction n generalizing hyps hyps' t u with
  | zero => exact .throw rfl
  | succ n ih =>
    rw [typeOfN, typeOfN]
    refine .bind holes_paired fun _ _ hread => ?_
    obtain ⟨rfl, rfl⟩ := hread
    refine infer_paired hh henv (fun hyps hyps' t u hhyps htu => ?_) (hh.expand htu) hhyps
    exact .bind (ih hhyps htu) fun type type' htype => asUniverse_paired hh henv t u htype

theorem typeOf_paired (hh : h.Paired ρ h') (henv : env.Paired ρ env') (hhyps : hyps.Paired ρ hyps')
    (htu : t.Paired ρ u) :
    TypesPaired K h h' (Term.Paired ρ) (typeOf env hyps t) (typeOf env' hyps' u) := by
  unfold typeOf
  refine .bind holes_paired fun _ _ hread => ?_
  obtain ⟨rfl, rfl⟩ := hread
  rw [(hh.expand htu).size_eq]
  exact typeOfN_paired hh henv _ hhyps htu

theorem levelOf_paired (hh : h.Paired ρ h') (henv : env.Paired ρ env') (hhyps : hyps.Paired ρ hyps')
    (htu : t.Paired ρ u) :
    TypesPaired K h h' (Level.Paired ρ) (levelOf env hyps t) (levelOf env' hyps' u) :=
  .bind (typeOf_paired hh henv hhyps htu) fun _ _ htype => asUniverse_paired hh henv t u htype

end Typing

section Unify

variable {ρ : Pairing} {K : Solver.Comparison ρ} {h h' : Holes} {env env' : Declarations}
  {hyps hyps' : Context} {a a' b b' : Term}

/-- What a step over given tables says about states that have them. -/
theorem TypesPaired.run {α β : Type} {V : α → β → Prop} {x : Solve α} {y : Solve β}
    (hxy : TypesPaired K h h' V x y) (hh : h.Paired ρ h') {s t : Solver}
    (hst : Solver.Holding K h h' s t) :
    Outcomes V SameKind (x.run s).1 (y.run t).1 ∧ (x.run s).2.Paired K (y.run t).2 :=
  ⟨(hxy s t hst).1, (hxy s t hst).2.paired hh⟩

theorem readHoles_paired : SolvesPaired K (Holes.Paired ρ) holes holes :=
  fun _ _ hst => ⟨.ok hst.holes, hst⟩

theorem mismatch_paired {α β : Type} {V : α → β → Prop} (a b a' b' : Term) :
    SolvesPaired K V (mismatch a b : Solve α) (mismatch a' b' : Solve β) :=
  TypesPaired.solvesPaired fun _ _ _ =>
    .bind (text_paired _ _) fun _ _ _ => .bind (text_paired _ _) fun _ _ _ => .throw rfl

/-- An attempt that fails leaves the tables as they were and the supplies in step. -/
theorem attempt_paired {α β : Type} {V : α → β → Prop} {x : Solve α} {y : Solve β}
    (hxy : SolvesPaired K V x y) (hx : IsRecorded x) (hy : IsRecorded y) :
    SolvesPaired K V (attempt x) (attempt y) := by
  intro s t hst
  have hspeculate : s.speculate.Paired K t.speculate := ⟨hst.holes, hst.collected⟩
  obtain ⟨houtcome, hafter⟩ := hxy _ _ hspeculate
  have hrecorded := hx.run s.speculate
  have hrecorded' := hy.run t.speculate
  rw [run_attempt, run_attempt]
  generalize x.run s.speculate = r, y.run t.speculate = r' at houtcome hafter hrecorded hrecorded'
  obtain ⟨u, s'⟩ := r
  obtain ⟨v, t'⟩ := r'
  cases houtcome with
  | ok hab => exact ⟨.ok hab, hafter.holes, hafter.collected⟩
  | error hef =>
    refine ⟨.error hef, ?_⟩
    dsimp only at hrecorded hrecorded' hafter ⊢
    rw [hrecorded.rollback, hrecorded'.rollback]
    exact ⟨hst.holes, K.undo hst.collected hafter.collected hrecorded.levels hrecorded'.levels⟩

/-- An open hole is solved alike. -/
theorem bind_paired (hh : h.Paired ρ h') (henv : env.Paired ρ env') (hhyps : hyps.Paired ρ hyps')
    {i j : HoleId} (hij : ρ.hole i j) (hopen : h.solution? i = none) (hab : a.Paired ρ b)
    {s t : Solver} (hst : Solver.Holding K h h' s t) :
    Outcomes (fun _ _ => True) SameKind ((bind env hyps i a).run s).1
        ((bind env' hyps' j b).run t).1 ∧
      ((bind env hyps i a).run s).2.Paired K ((bind env' hyps' j b).run t).2 := by
  have hpaired : ∀ s t, Solver.Holding K h h' s t → s.Paired K t := fun s t hst => hst.paired hh
  unfold Solve.bind
  refine holes_paired.bind_at hpaired hst fun g g' s t hread hst => ?_
  obtain ⟨rfl, rfl⟩ := hread
  dsimp only
  rw [hh.occurs_eq hab hij]
  cases hocc : g.occurs i a with
  | true =>
    simp only [if_true]
    refine TypesPaired.run (.bind (text_paired _ _) fun _ _ _ => ?_) hh hst
    exact .throw_bind (by rfl) _ _
  | false =>
    have hsolve : ∀ s t, Solver.Holding K g g' s t → Outcomes (fun _ _ => True) SameKind
        ((modify (·.solve i a) : Solve Unit).run s).1
          ((modify (·.solve j b) : Solve Unit).run t).1 ∧
        ((modify (·.solve i a) : Solve Unit).run s).2.Paired K
          ((modify (·.solve j b) : Solve Unit).run t).2 := by
      intro s t hst
      obtain ⟨rfl, rfl, hcollected⟩ := hst
      exact ⟨.ok trivial, hh.solve hij hopen hab hocc, hcollected⟩
    have htype := (hh.normalize henv (hh.type i j hij)).universeLevel?
    simp only [Bool.false_eq_true, if_false]
    generalize (g.normalize env (g.type i)).universeLevel? = x,
      (g'.normalize env' (g'.type j)).universeLevel? = y at htype
    cases htype with
    | none => exact hsolve s t hst
    | @some l l' hl =>
      have hlevel : TypesPaired K g g' (Level.Paired ρ)
          (tryCatch (levelOf env hyps a) fun e => do throw (.badSolution (g.name i) (← text a) e))
          (tryCatch (levelOf env' hyps' b) fun e => do
            throw (.badSolution (g'.name j) (← text b) e)) := by
        refine .tryCatch (levelOf_paired hh henv hhyps hab) fun e f hef => ?_
        refine .bind (text_paired _ _) fun _ _ _ => .throw ?_
        simp only [SameKind, Fault.kind] at hef ⊢
        rw [hef]
      refine hlevel.bind_at hpaired hst fun level level' s t hlevel hst => ?_
      refine (add_paired hlevel hl false _ _).bind_at hpaired hst ?_
      exact fun _ _ s t _ hst => hsolve s t hst

/-- Universes at levels that go together are compared alike. -/
theorem unifyUniverses_paired {u u' v v' : Universe} (hu : u.Paired ρ u') (hv : v.Paired ρ v') :
    SolvesPaired K (fun _ _ => True) (unifyUniverses u v) (unifyUniverses u' v') := by
  have hequate : ∀ {l l' m m' : Level} (origin origin' : String), l.Paired ρ l' → m.Paired ρ m' →
      SolvesPaired K (fun _ _ => True) (modifyLevels (·.equate l m origin))
        (modifyLevels (·.equate l' m' origin')) := by
    intro l l' m m' origin origin' hl hm
    refine .modify fun s t hst => ⟨hst.holes, ?_⟩
    exact K.add false _ _ (K.add false _ _ hst.collected hl hm) hm hl
  cases hu with
  | unassigned =>
    cases hv with
    | unassigned =>
      simp only [unifyUniverses]
      split
      · exact .pure trivial
      · exact .throw rfl
    | level => exact .throw rfl
  | level hl =>
    cases hv with
    | unassigned =>
      cases hl with
      | const => exact .throw rfl
      | var => exact .throw rfl
    | level hm =>
      cases hl with
      | var hvw => exact hequate _ _ (.var hvw) hm
      | const =>
        cases hm with
        | var hvw => exact hequate _ _ .const (.var hvw)
        | const =>
          simp only [unifyUniverses]
          split
          · exact .pure trivial
          · exact mismatch_paired _ _ _ _

theorem unifyArgs_paired {recur recur' : Term → Term → Solve Unit}
    (hrecur : ∀ a a' b b', a.Paired ρ a' → b.Paired ρ b' →
      SolvesPaired K (fun _ _ => True) (recur a b) (recur' a' b')) {as as' bs bs' : List Term}
    (has : List.Forall₂ (Term.Paired ρ) as as') (hbs : List.Forall₂ (Term.Paired ρ) bs bs') :
    SolvesPaired K (fun _ _ => True) (unifyArgs recur as bs) (unifyArgs recur' as' bs') := by
  induction has generalizing bs bs' with
  | nil => exact .pure trivial
  | cons ha _ ih =>
    cases hbs with
    | nil => exact .pure trivial
    | cons hb hbs => exact .bind (hrecur _ _ _ _ ha hb) fun _ _ _ => ih hbs

section Forms

variable {recur recur' : Context → Term → Term → Solve Unit}
  (hrecur : ∀ (hyps hyps' : Context) (a a' b b' : Term), hyps.Paired ρ hyps' → a.Paired ρ a' →
    b.Paired ρ b' → SolvesPaired K (fun _ _ => True) (recur hyps a b) (recur' hyps' a' b'))
include hrecur

theorem unifyParams_paired {whole whole' : Solve Unit}
    (hwhole : SolvesPaired K (fun _ _ => True) whole whole') {names names' : Substitution}
    {ps ps' qs qs' : List (Param Term)} (hhyps : hyps.Paired ρ hyps')
    (hnames : names.Paired ρ names') (hps : List.Forall₂ (Param.Paired ρ) ps ps')
    (hqs : List.Forall₂ (Param.Paired ρ) qs qs') :
    SolvesPaired K (fun x y => x.1.Paired ρ y.1 ∧ x.2.Paired ρ y.2)
      (unifyParams recur whole hyps names ps qs)
        (unifyParams recur' whole' hyps' names' ps' qs') := by
  induction hps generalizing qs qs' hyps hyps' names names' with
  | nil => exact .pure ⟨hhyps, hnames⟩
  | @cons p p' ps ps' hp _ ih =>
    cases hqs with
    | nil => exact .pure ⟨hhyps, hnames⟩
    | @cons q q' qs qs' hq hqs =>
      have hrest : SolvesPaired K (fun x y => x.1.Paired ρ y.1 ∧ x.2.Paired ρ y.2)
          (do
            recur hyps p.type ((← holes).subst names q.type)
            unifyParams recur whole (hyps.extend p.name p.type) ((q.name, .bound p.name) :: names)
              ps qs)
          (do
            recur' hyps' p'.type ((← holes).subst names' q'.type)
            unifyParams recur' whole' (hyps'.extend p'.name p'.type)
              ((q'.name, .bound p'.name) :: names') ps' qs') := by
        refine .bind readHoles_paired fun h h' hh => ?_
        refine .bind (hrecur _ _ _ _ _ _ hhyps hp.type (hh.subst hq.type hnames)) fun _ _ _ => ?_
        rw [hp.name]
        exact ih (hhyps.extend p.name hp.type) (.cons ⟨hq.name, .bound⟩ hnames) hqs
      rw [unifyParams, unifyParams, hp.plicity, hq.plicity]
      split
      · exact .bind hwhole fun _ _ _ => hrest
      · exact hrest

theorem unifyForms_paired (hhyps : hyps.Paired ρ hyps') (ha : a.Paired ρ a') (hb : b.Paired ρ b') :
    SolvesPaired K (fun _ _ => True) (unifyForms recur hyps a b)
      (unifyForms recur' hyps' a' b') := by
  have hmismatch := mismatch_paired (V := fun (_ _ : Unit) => True) (K := K) a b a' b'
  cases ha with
  | missing =>
    cases hb with
    | missing => exact .pure trivial
    | _ => exact hmismatch
  | const =>
    cases hb with
    | const =>
      simp only [unifyForms]
      split
      · exact .pure trivial
      · exact hmismatch
    | _ => exact hmismatch
  | lit =>
    cases hb with
    | lit =>
      simp only [unifyForms]
      split
      · exact .pure trivial
      · exact hmismatch
    | _ => exact hmismatch
  | bound =>
    cases hb with
    | bound =>
      simp only [unifyForms]
      split
      · exact .pure trivial
      · exact hmismatch
    | _ => exact hmismatch
  | hole =>
    cases hb with
    | _ => exact hmismatch
  | app hf hlength hargs =>
    cases hb with
    | app hg hlength' hargs' =>
      simp only [unifyForms, ← hlength, ← hlength']
      split
      · refine .bind (hrecur _ _ _ _ _ _ hhyps hf hg) fun _ _ _ => ?_
        exact unifyArgs_paired (fun _ _ _ _ => hrecur _ _ _ _ _ _ hhyps)
          (forall₂_of_zip hlength hargs) (forall₂_of_zip hlength' hargs')
      · exact hmismatch
    | _ => exact hmismatch
  | pi hlength hshape htypes hresult =>
    cases hb with
    | pi hlength' hshape' htypes' hresult' =>
      simp only [unifyForms, ← hlength, ← hlength']
      split
      · refine .bind (unifyParams_paired hrecur hmismatch hhyps .nil
          (Term.Paired.params hlength hshape htypes)
          (Term.Paired.params hlength' hshape' htypes')) fun x y hxy => ?_
        refine .bind readHoles_paired fun h h' hh => ?_
        exact hrecur _ _ _ _ _ _ hxy.1 hresult (hh.subst hresult' hxy.2)
      · exact hmismatch
    | _ => exact hmismatch
  | sort hu =>
    cases hb with
    | sort hv => exact unifyUniverses_paired hu hv
    | _ => exact hmismatch
  | eq hl hr =>
    cases hb with
    | eq hl' hr' =>
      exact .bind (hrecur _ _ _ _ _ _ hhyps hl hl') fun _ _ _ => hrecur _ _ _ _ _ _ hhyps hr hr'
    | _ => exact hmismatch
  | refl hx =>
    cases hb with
    | refl hy => exact hrecur _ _ _ _ _ _ hhyps hx hy
    | _ => exact hmismatch

end Forms

theorem unifyHeads_paired (henv : env.Paired ρ env') (hhyps : hyps.Paired ρ hyps')
    {compare compare' : Term → Term → Solve Unit}
    (hcompare : ∀ a a' b b', a.Paired ρ a' → b.Paired ρ b' →
      SolvesPaired K (fun _ _ => True) (compare a b) (compare' a' b'))
    (ha : a.Paired ρ a') (hb : b.Paired ρ b') :
    SolvesPaired K (fun _ _ => True) (unifyHeads env compare hyps a b)
      (unifyHeads env' compare' hyps' a' b') := by
  intro s₀ t₀ hst₀
  have hh := hst₀.holes
  unfold unifyHeads
  refine holes_paired.bind_at (fun s t hst => hst.paired hh) hst₀.holding
    fun g g' s t hread hst => ?_
  obtain ⟨rfl, rfl⟩ := hread
  have hopen : ∀ {t u : Term} {i : HoleId}, t.Paired ρ u → s₀.holes.follow t = .hole i →
      s₀.holes.solution? i = none :=
    fun htu hi => (Holes.follow_eq_hole (hh.grounded htu) hi).1
  have hfa := hh.follow ha
  have hfb := hh.follow hb
  generalize hx : s₀.holes.follow a = x, t₀.holes.follow a' = x' at hfa
  generalize hy : s₀.holes.follow b = y, t₀.holes.follow b' = y' at hfb
  have hleft := hfa
  have hright := hfb
  cases hfa with
  | hole hi =>
    cases hfb with
    | hole hj =>
      simp only [Pairing.hole_iff hj hi]
      split
      · exact ⟨.ok trivial, hst.paired hh⟩
      · exact bind_paired hh henv hhyps hi (hopen ha hx) hright hst
    | _ => exact bind_paired hh henv hhyps hi (hopen ha hx) hright hst
  | _ =>
    cases hfb with
    | hole hj => exact bind_paired hh henv hhyps hj (hopen hb hy) hleft hst
    | _ => exact hcompare _ _ _ _ hleft hright s t (hst.paired hh)

theorem unifyNormalN_paired (henv : env.Paired ρ env') (n : Nat) (hhyps : hyps.Paired ρ hyps')
    (ha : a.Paired ρ a') (hb : b.Paired ρ b') :
    SolvesPaired K (fun _ _ => True) (unifyNormalN env n hyps a b)
      (unifyNormalN env' n hyps' a' b') := by
  induction n generalizing hyps hyps' a a' b b' with
  | zero => exact .throw rfl
  | succ n ih =>
    refine unifyHeads_paired henv hhyps (fun a a' b b' ha hb => ?_) ha hb
    exact unifyForms_paired (fun _ _ _ _ _ _ hhyps ha hb => ih hhyps ha hb) hhyps ha hb

theorem unifyNormal_paired (henv : env.Paired ρ env') (hhyps : hyps.Paired ρ hyps')
    (ha : a.Paired ρ a') (hb : b.Paired ρ b') :
    SolvesPaired K (fun _ _ => True) (unifyNormal env hyps a b) (unifyNormal env' hyps' a' b') := by
  refine .bind readHoles_paired fun h h' hh => ?_
  rw [hh.depthBound_eq ha hb]
  exact unifyNormalN_paired henv _ hhyps ha hb

theorem unifyN_paired (henv : env.Paired ρ env') (n : Nat) (hhyps : hyps.Paired ρ hyps')
    (ha : a.Paired ρ a') (hb : b.Paired ρ b') :
    SolvesPaired K (fun _ _ => True) (unifyN env n hyps a b) (unifyN env' n hyps' a' b') := by
  induction n generalizing hyps hyps' a a' b b' with
  | zero => exact .throw rfl
  | succ n ih =>
    refine unifyHeads_paired henv hhyps (fun a a' b b' ha hb => ?_) ha hb
    have hforms := unifyForms_paired (fun _ _ _ _ _ _ hhyps ha hb => ih hhyps ha hb) hhyps ha hb
    refine .tryCatch (attempt_paired hforms (unifyForms_recorded (unifyN_recorded n) _ _ _)
      (unifyForms_recorded (unifyN_recorded n) _ _ _)) fun _ _ _ => ?_
    refine .bind readHoles_paired fun h h' hh => ?_
    exact unifyNormal_paired henv hhyps (hh.normalize henv ha) (hh.normalize henv hb)

theorem unify_paired (henv : env.Paired ρ env') (hhyps : hyps.Paired ρ hyps') (ha : a.Paired ρ a')
    (hb : b.Paired ρ b') :
    SolvesPaired K (fun _ _ => True) (unify env hyps a b) (unify env' hyps' a' b') := by
  refine .bind readHoles_paired fun h h' hh => ?_
  rw [hh.depthBound_eq ha hb]
  exact unifyN_paired henv _ hhyps ha hb

theorem subsume_paired (henv : env.Paired ρ env') (hhyps : hyps.Paired ρ hyps') (ha : a.Paired ρ a')
    (hb : b.Paired ρ b') :
    SolvesPaired K (fun _ _ => True) (subsume env hyps a b) (subsume env' hyps' a' b') := by
  have hunify := unify_paired (K := K) henv hhyps ha hb
  unfold subsume
  refine .bind readHoles_paired fun h h' hh => ?_
  have hactual := (hh.normalize henv ha).universeLevel?
  have hexpected := (hh.normalize henv hb).universeLevel?
  generalize (h.normalize env a).universeLevel? = x,
    (h'.normalize env' a').universeLevel? = x' at hactual
  generalize (h.normalize env b).universeLevel? = y,
    (h'.normalize env' b').universeLevel? = y' at hexpected
  cases hactual with
  | none => exact hunify
  | some hlo =>
    cases hexpected with
    | none => exact hunify
    | some hhi => exact TypesPaired.solvesPaired fun _ _ _ => add_paired hlo hhi false _ _

theorem tryUnify_paired (henv : env.Paired ρ env') (hhyps : hyps.Paired ρ hyps')
    (ha : a.Paired ρ a') (hb : b.Paired ρ b') :
    SolvesPaired K (fun _ _ => True) (tryUnify env hyps a b) (tryUnify env' hyps' a' b') :=
  attempt_paired (unify_paired henv hhyps ha hb) (unify_recorded _ _ _) (unify_recorded _ _ _)

theorem trySubsume_paired (henv : env.Paired ρ env') (hhyps : hyps.Paired ρ hyps')
    (ha : a.Paired ρ a') (hb : b.Paired ρ b') :
    SolvesPaired K (fun _ _ => True) (trySubsume env hyps a b) (trySubsume env' hyps' a' b') :=
  attempt_paired (subsume_paired henv hhyps ha hb) (subsume_recorded _ _ _) (subsume_recorded _ _ _)

end Unify

end Solve

end Implicits
