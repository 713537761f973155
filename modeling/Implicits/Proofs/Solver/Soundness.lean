import Implicits.Proofs.Solver.State
import Implicits.Proofs.Term.Scope

/-!
Tables of holes whose solutions and types stay within a scope and whose links close no circle.
Reading a term through such a table keeps the scope, and so does solving an open hole after the
check that it does not occur in its solution. A solver is sound if its table is and its constraints
speak of levels that have been made.
-/
namespace Implicits

open Relation Term

def Constraint.Made (σ : Scope) (n : Stage) (c : Constraint) : Prop :=
  c.lo.Made σ n ∧ c.hi.Made σ n

def Signature.ReadyAt (sig : Signature) (σ : Scope) (n : Stage) : Prop :=
  σ.known sig → ∀ c ∈ sig.constraints, c.SeenAt n

theorem Signature.ReadyAt.mono {sig : Signature} {σ : Scope} {n m : Stage} (h : sig.ReadyAt σ n)
    (hnm : n ≤ m) : sig.ReadyAt σ m := fun hknown c hc => (h hknown c hc).mono hnm

/-- A signature whose types, given values and constraints lie within a scope once its constraints
have been seen, and which is the only known one of its name. -/
structure Signature.Within (sig : Signature) (σ : Scope) : Prop where
  pi : ∀ n, sig.ReadyAt σ n → sig.pi.Scoped σ n
  fallback : ∀ p ∈ sig.params, ∀ value, p.fallback = some (.exact value) →
    ∀ n, sig.ReadyAt σ n → value.Scoped σ n
  constraints : ∀ n, (∀ c ∈ sig.constraints, c.SeenAt n) → ∀ c ∈ sig.constraints, c.Made σ n
  only : ∀ other, σ.known other → other.name = sig.name → other = sig

structure Declarations.ReducesWithin (env : Declarations) (σ : Scope) : Prop where
  reduce : ∀ n name args out, (∀ a ∈ args, a.Scoped σ n) → env.reduce? name args = some out →
    out.Scoped σ n
  /-- A constant that reduces could put another term at the head of an application. -/
  firstOrder : σ.firstOrder → ∀ name, env.reduce? name [] = none

structure Declarations.Within (env : Declarations) (σ : Scope) : Prop
    extends Declarations.ReducesWithin env σ where
  signature : ∀ name sig, env.signature? name = some sig → sig.Within σ
  conversion : ∀ entry ∈ env.conversions, ∀ n,
    (∀ sig, env.signature? entry.2.name = some sig → sig.ReadyAt σ n) → entry.2.target.Scoped σ n

theorem Declarations.mem_of_signature? {env : Declarations} {name : String} {sig : Signature}
    (hsig : env.signature? name = some sig) : sig ∈ env.signatures :=
  List.mem_of_find?_eq_some hsig

theorem Declarations.name_of_signature? {env : Declarations} {name : String} {sig : Signature}
    (hsig : env.signature? name = some sig) : sig.name = name := by
  simpa using List.find?_some hsig

structure Holes.Sound (σ : Scope) (n : Stage) (h : Holes) : Prop where
  size : h.size = n.holes
  base : σ.base ≤ n.holes
  solution : ∀ i t, σ.base ≤ i → h.solution? i = some t → t.Scoped σ n
  type : ∀ i, σ.base ≤ i → i < n.holes → (h.type i).Scoped σ n
  acyclic : ∀ i, σ.base ≤ i → ¬ TransGen h.Links i i

namespace Holes.Sound

variable {σ : Scope} {n : Stage} {h : Holes} {t : Term}

theorem base_of_reach (hh : h.Sound σ n) {i j : HoleId} (hi : σ.base ≤ i)
    (hij : ReflTransGen h.Links i j) : σ.base ≤ j := by
  induction hij with
  | refl => exact hi
  | tail _ hlink ih =>
    obtain ⟨t, ht, hj⟩ := hlink
    cases (hh.solution _ t ih ht).hole_of_shows hj with
    | hole hbase _ => exact hbase

theorem grounded (hh : h.Sound σ n) {i : HoleId} (hi : σ.base ≤ i) : h.Grounded i :=
  fun j hij => hh.acyclic j (hh.base_of_reach hi hij)

theorem grounded_of_shows (hh : h.Sound σ n) (ht : t.Scoped σ n) {i : HoleId}
    (hi : t.Shows i) : h.Grounded i := by
  cases ht.hole_of_shows hi with
  | hole hbase _ => exact hh.grounded hbase

theorem instantiateN (hh : h.Sound σ n) (deep : Bool) (k : Nat) (ht : t.Scoped σ n) :
    (h.instantiateN deep k t).Scoped σ n := by
  induction k generalizing t with
  | zero => exact ht
  | succ k ih =>
    refine ht.fill fun i hi => ?_
    cases hsol : h.solution? i with
    | none => exact hi
    | some u =>
      cases hi with
      | hole hbase _ => exact ih (hh.solution i u hbase hsol)

theorem expand (hh : h.Sound σ n) (ht : t.Scoped σ n) : (h.expand t).Scoped σ n :=
  hh.instantiateN false h.size ht

theorem deref (hh : h.Sound σ n) (ht : t.Scoped σ n) : (h.deref t).Scoped σ n :=
  hh.instantiateN true h.size ht

/-- In a sealed scope the types of literals need no reading through the table. -/
theorem deref_eq_expand (hh : h.Sound σ n) (hσ : σ.isSealed) (ht : t.Scoped σ n) :
    h.deref t = h.expand t := by
  have hN : ∀ k t, t.Scoped σ n → h.instantiateN true k t = h.instantiateN false k t := by
    intro k
    induction k with
    | zero => exact fun _ _ => rfl
    | succ k ih =>
      intro t ht
      have hfill : ∀ f, t.fill true f = t.fill false f := fun f => ht.fill_deep hσ
      rw [Holes.instantiateN, Holes.instantiateN, hfill]
      refine fill_congr fun i hi => ?_
      cases hsol : h.solution? i with
      | none => rfl
      | some u =>
        cases ht.hole_of_shows hi with
        | hole hbase _ => exact ih u (hh.solution i u hbase hsol)
  exact hN h.size t ht

/-- What is left in a term that has been read through the table are open holes of the scope. -/
theorem mem_holes_deref (hh : h.Sound σ n) (hσ : σ.isSealed) (ht : t.Scoped σ n) {i : HoleId}
    (hi : i ∈ (h.deref t).holes) : h.solution? i = none ∧ σ.base ≤ i ∧ i < n.holes := by
  have hscoped := hh.deref ht
  have hshows := hscoped.shows_of_mem_holes hσ hi
  rw [hh.deref_eq_expand hσ ht, shows_expand fun j hj => hh.grounded_of_shows ht hj] at hshows
  cases hscoped.hole_of_shows (hscoped.shows_of_mem_holes hσ hi) with
  | hole hbase hmade => exact ⟨hshows.1, hbase, hmade⟩

theorem followN (hh : h.Sound σ n) (k : Nat) (ht : t.Scoped σ n) :
    (h.followN k t).Scoped σ n := by
  induction k generalizing t with
  | zero => exact ht
  | succ k ih =>
    cases ht with
    | @hole i hbase hmade =>
      simp only [Holes.followN]
      cases hsol : h.solution? i with
      | none => exact .hole hbase hmade
      | some u => exact ih (hh.solution i u hbase hsol)
    | missing => exact .missing
    | const => exact .const
    | lit hsealed htype => exact .lit hsealed htype
    | bound => exact .bound
    | app hhead hfn hargs => exact .app hhead hfn hargs
    | pi hnames hsealed htypes hresult => exact .pi hnames hsealed htypes hresult
    | sort hlevel => exact .sort hlevel
    | eq hlhs hrhs => exact .eq hlhs hrhs
    | refl hvalue => exact .refl hvalue

theorem follow (hh : h.Sound σ n) (ht : t.Scoped σ n) : (h.follow t).Scoped σ n :=
  hh.followN h.size ht

theorem isOpen_of_follow (hh : h.Sound σ n) (ht : t.Scoped σ n) {i : HoleId}
    (hi : h.follow t = .hole i) : h.solution? i = none :=
  (follow_eq_hole (fun _ hj => hh.grounded_of_shows ht hj) hi).1

theorem normalizeN {env : Declarations} (henv : env.ReducesWithin σ) (hh : h.Sound σ n)
    (k left : Nat) (ht : t.Scoped σ n) : (h.normalizeN env k t left).1.Scoped σ n := by
  induction k generalizing t left with
  | zero => exact ht
  | succ k ih =>
    refine (hh.expand ht).normalizeWith ?_ ?_ left
    · intro name args left out hargs hout
      cases left with
      | zero => simp at hout
      | succ left =>
        obtain ⟨u, hu, rfl⟩ := Option.map_eq_some_iff.mp hout
        exact ih left (henv.reduce n name args u hargs hu)
    · intro hσ name left
      cases left with
      | zero => rfl
      | succ left => simp [henv.firstOrder hσ name]

theorem normalize {env : Declarations} (henv : env.ReducesWithin σ) (hh : h.Sound σ n)
    (ht : t.Scoped σ n) : (h.normalize env t).Scoped σ n :=
  hh.normalizeN henv _ _ ht

theorem subst (hh : h.Sound σ n) {sub : Substitution} (ht : t.Scoped σ n)
    (hsub : ∀ entry ∈ sub, entry.2.Scoped σ n) : (h.subst sub t).Scoped σ n := by
  unfold Holes.subst
  split
  · exact ht
  · exact (hh.expand ht).subst hsub

/-- Nothing is lost when more level variables have been made. -/
theorem mono (hh : h.Sound σ n) {m : Stage} (hnm : n ≤ m) (hsize : n.holes = m.holes) :
    h.Sound σ m where
  size := hh.size.trans hsize
  base := hsize ▸ hh.base
  solution i t hi ht := (hh.solution i t hi ht).mono hnm
  type i hi hlt := (hh.type i hi (hsize ▸ hlt)).mono hnm
  acyclic := hh.acyclic

/-- Solving an open hole by a term in which it does not occur keeps the table sound. -/
theorem solve (hh : h.Sound σ n) {id : HoleId} (hopen : h.solution? id = none)
    (ht : t.Scoped σ n) (hocc : h.occurs id t = false) : (h.solve id t).Sound σ n := by
  refine ⟨(size_setSolution h id t.toOption).trans hh.size, hh.base, ?_, ?_, ?_⟩
  · intro i u hi hu
    rw [Holes.solve, solution?_setSolution] at hu
    by_cases hid : id = i
    · rw [if_pos hid] at hu
      split at hu
      · cases t with
        | missing => simp [toOption] at hu
        | _ =>
          obtain rfl := Option.some.inj hu
          exact ht
      · simp at hu
    · rw [if_neg hid] at hu
      exact hh.solution i u hi hu
  · intro i hi hlt
    rw [Holes.solve, type_setSolution]
    exact hh.type i hi hlt
  · intro i hi
    cases hsol : t.toOption with
    | none =>
      intro hcircle
      apply hh.acyclic i hi
      refine TransGen.mono ?_ _ _ hcircle
      rintro a b ⟨u, hu, hb⟩
      rw [Holes.solve, hsol, solution?_setSolution] at hu
      by_cases hid : id = a
      · simp [hid] at hu
      · rw [if_neg hid] at hu
        exact ⟨u, hu, hb⟩
    | some u =>
      have hut : u = t := by
        cases t with
        | missing => simp [toOption] at hsol
        | _ => exact (Option.some.inj hsol).symm
      rw [Holes.solve, hsol, hut]
      exact not_transGen_setSolution hopen (fun j hj => hh.grounded_of_shows ht hj) hocc
        (hh.acyclic i hi)

theorem add (hh : h.Sound σ n) {type : Term} (htype : type.Scoped σ n) (name : String)
    (number : Int) : (h.add name number type).Sound σ { n with holes := n.holes + 1 } := by
  have hle : n ≤ { n with holes := n.holes + 1 } :=
    ⟨Nat.le_succ _, Nat.le_refl _, List.Subset.refl _⟩
  have hlinks : (h.add name number type).Links = h.Links := by
    funext i j
    simp only [Links, solution?_add]
  refine ⟨?_, Nat.le_succ_of_le hh.base, ?_, ?_, ?_⟩
  · rw [size_add, hh.size]
  · intro i u hi hu
    rw [solution?_add] at hu
    exact (hh.solution i u hi hu).mono hle
  · intro i hi hlt
    rw [type_add, hh.size]
    by_cases hnew : i = n.holes
    · rw [if_pos hnew]
      exact htype.mono hle
    · rw [if_neg hnew]
      exact (hh.type i hi (Nat.lt_of_le_of_ne (Nat.le_of_lt_succ hlt) hnew)).mono hle
  · rw [hlinks]
    exact hh.acyclic

end Holes.Sound

namespace Solver

def stage (s : Solver) : Stage := ⟨s.holes.size, s.levels.nextId, s.levels.seen⟩

theorem Extends.stage {s s' : Solver} (h : s.Extends s') : s.stage ≤ s'.stage :=
  ⟨Nat.le_of_eq h.size.symm, h.levels.nextId, h.levels.seen.subset⟩

structure Sound (σ : Scope) (s : Solver) : Prop where
  table : s.holes.Sound σ s.stage
  constraints : ∀ c ∈ s.levels.constraints, c.Made σ s.stage
  imports : ∀ sig, σ.known sig → sig.name ∈ s.imported → ∀ c ∈ sig.constraints, c.SeenAt s.stage
  seen : σ.tracksStore → ∀ c ∈ s.levels.seen, c ∈ s.levels.constraints
  proper : σ.tracksStore → ∀ c ∈ s.levels.constraints, c.isTrivial = false
  supply : ∀ id c, ¬ σ.requires ⟨s.levels.owner, id, s.levels.ofDecl⟩ c

end Solver

end Implicits
