import Implicits.Proofs.Solver.Universes

/-!
Inputs as they are given to a unit: without holes and without levels of a unit, with only constants
applied, and with function types that bind only names of a list. Declarations of this kind that
nothing reduces are a rigid setting.
-/
namespace Implicits

open Term

def Level.isGiven : Level → Bool
  | .const _ => true
  | .var v => v.ofDecl

namespace Term

mutual

/-- A term as a declaration or a caller gives it, whose function types bind names of a list. -/
def isGiven (binders : List String) : Term → Bool
  | missing | const _ | bound _ => true
  | lit _ type => type.isGiven binders
  | hole _ => false
  | app (const _) args => givenArgs binders args
  | app _ _ => false
  | pi params result => givenParams binders params && result.isGiven binders
  | sort (.level l) => l.isGiven
  | sort (.unassigned _) => true
  | eq lhs rhs => lhs.isGiven binders && rhs.isGiven binders
  | refl value => value.isGiven binders

def givenArgs (binders : List String) : List Term → Bool
  | [] => true
  | t :: ts => t.isGiven binders && givenArgs binders ts

def givenParams (binders : List String) : List (Param Term) → Bool
  | [] => true
  | ⟨name, type, _, fallback⟩ :: ps =>
    binders.contains name && type.isGiven binders && (holesFallback fallback).isEmpty &&
      givenParams binders ps

end

theorem givenArgs_iff {binders : List String} {args : List Term} :
    givenArgs binders args = true ↔ ∀ a ∈ args, a.isGiven binders = true := by
  induction args with
  | nil => simp [givenArgs]
  | cons a args ih => simp [givenArgs, ih]

theorem givenParams_iff {binders : List String} {params : List (Param Term)} :
    givenParams binders params = true ↔ ∀ p ∈ params, p.name ∈ binders ∧
      p.type.isGiven binders = true ∧ holesFallback p.fallback = [] := by
  induction params with
  | nil => simp [givenParams]
  | cons p params ih => simp [givenParams, ih, and_assoc]

end Term

def Scope.given (base : Nat) (binders : List String) (owner : String) (env : Declarations) :
    Scope where
  base
  binder name := name ∈ binders
  firstOrder := True
  tracksStore := True
  owns v := v.owner = owner ∧ v.ofDecl = false
  known sig := env.signature? sig.name = some sig

section Given

variable {base : Nat} {binders : List String} {owner : String} {env : Declarations}

theorem Level.made_given {l : Level} (hl : l.isGiven = true) (n : Stage) :
    l.Made (.given base binders owner env) n := by
  cases l with
  | const => trivial
  | var v =>
    refine ⟨fun hv => ?_, fun _ hc => hc.elim⟩
    rw [isGiven, hv.2] at hl
    exact absurd hl (by simp)

/-- A given term is in scope before anything has been made. -/
theorem Term.scoped_of_isGiven {t : Term} (ht : t.isGiven binders = true) :
    ∀ n, t.Scoped (.given base binders owner env) n := by
  induction t using induct with
  | missing => exact fun _ => .missing
  | const => exact fun _ => .const
  | bound => exact fun _ => .bound
  | hole => simp [isGiven] at ht
  | lit text type ih =>
    rw [isGiven] at ht
    exact fun n => .lit (fun hσ => (ih ht ⟨0, 0, []⟩).holeFree hσ (Nat.zero_le _)) (ih ht n)
  | sort u =>
    refine fun n => .sort fun l hl => ?_
    subst hl
    rw [isGiven] at ht
    exact Level.made_given ht n
  | app fn args _ ihargs =>
    cases fn with
    | const name =>
      rw [isGiven, givenArgs_iff] at ht
      exact fun n => .app (fun _ => ⟨name, rfl⟩) .const fun a ha => ihargs a ha (ht a ha) n
    | _ => simp [isGiven] at ht
  | pi params result ihparams ihr =>
    rw [isGiven, Bool.and_eq_true, givenParams_iff] at ht
    obtain ⟨hparams, hresult⟩ := ht
    exact fun n => .pi (fun p hp => (hparams p hp).1) (fun _ p hp => (hparams p hp).2.2)
      (fun p hp => ihparams p hp (hparams p hp).2.1 n) (ihr hresult n)
  | eq lhs rhs ihl ihr =>
    rw [isGiven, Bool.and_eq_true] at ht
    exact fun n => .eq (ihl ht.1 n) (ihr ht.2 n)
  | refl value ih =>
    rw [isGiven] at ht
    exact fun n => .refl (ih ht n)

end Given

def Tactic.isGiven (binders : List String) : Tactic Term → Bool
  | .trivial => true
  | .exact value => value.isGiven binders

def Signature.isGiven (binders : List String) (sig : Signature) : Bool :=
  sig.pi.isGiven binders && sig.params.all (·.fallback.all (·.isGiven binders)) &&
    sig.constraints.all fun c => c.lo.isGiven && c.hi.isGiven

def Declarations.isGiven (binders : List String) (env : Declarations) : Bool :=
  env.signatures.all (·.isGiven binders) && env.reductions.isEmpty &&
    env.conversions.all (·.2.target.isGiven binders)

def Context.isGiven (binders : List String) (hyps : Context) : Bool :=
  hyps.hypotheses.all (·.type.isGiven binders)

namespace Expr

mutual

def isGiven (binders : List String) : Expr → Bool
  | missing => true
  | var _ => true
  | type _ => true
  | lit _ t => t.isGiven binders
  | call fn args => fn.isGiven binders && givenArgs binders args
  | term value => value.isGiven binders

def givenArgs (binders : List String) : List (Arg Expr) → Bool
  | [] => true
  | ⟨_, value⟩ :: args => value.isGiven binders && givenArgs binders args

end

theorem givenArgs_iff {binders : List String} {args : List (Arg Expr)} :
    givenArgs binders args = true ↔ ∀ a ∈ args, a.value.isGiven binders = true := by
  induction args with
  | nil => simp [givenArgs]
  | cons a args ih => simp [givenArgs, ih]

end Expr

section Given

variable {base : Nat} {binders : List String} {owner : String} {env : Declarations}

theorem Signature.within_of_isGiven {name : String} {sig : Signature}
    (hname : env.signature? name = some sig) (hsig : sig.isGiven binders = true) :
    sig.Within (.given base binders owner env) := by
  simp only [Signature.isGiven, Bool.and_eq_true, List.all_eq_true] at hsig
  obtain ⟨⟨hpi, hfallback⟩, hconstraints⟩ := hsig
  refine ⟨fun n _ => scoped_of_isGiven hpi n, ?_, ?_, ?_⟩
  · intro p hp value hvalue n _
    have hgiven := hfallback p hp
    rw [hvalue] at hgiven
    exact scoped_of_isGiven hgiven n
  · intro n _ c hc
    exact ⟨Level.made_given (hconstraints c hc).1 n, Level.made_given (hconstraints c hc).2 n⟩
  · intro other hother heq
    have hsame : env.signature? name = some other := by
      rw [← Declarations.name_of_signature? hname, ← heq]
      exact hother
    exact Option.some.inj (hsame.symm.trans hname)

theorem Declarations.pi_scoped_of_isGiven (henv : env.isGiven binders = true) {name : String}
    {sig : Signature} (hsig : env.signature? name = some sig) (n : Stage) :
    sig.pi.Scoped (.given base binders owner env) n := by
  simp only [Declarations.isGiven, Bool.and_eq_true, List.all_eq_true] at henv
  have hgiven := henv.1.1 sig (mem_of_signature? hsig)
  simp only [Signature.isGiven, Bool.and_eq_true] at hgiven
  exact scoped_of_isGiven hgiven.1.1 n

theorem Expr.scoped_of_isGiven {e : Expr} (he : e.isGiven binders = true) :
    e.Scoped (.given base binders owner env) := by
  induction e using induct with
  | missing => exact .missing
  | var => exact .var
  | type => exact .type
  | lit text type =>
    rw [isGiven] at he
    have hlit : (Term.lit text type).isGiven binders = true := by rwa [Term.isGiven]
    exact .lit (Term.scoped_of_isGiven hlit)
  | call fn args _ ihargs =>
    rw [isGiven, Bool.and_eq_true, givenArgs_iff] at he
    exact .call fun a ha => ihargs a ha (he.2 a ha)
  | term value =>
    rw [isGiven] at he
    exact .term (Term.scoped_of_isGiven he)

/-- Given declarations in a given context are a rigid setting. -/
theorem Declarations.rigid_of_isGiven (henv : env.isGiven binders = true) {hyps : Context}
    (hhyps : hyps.isGiven binders = true) : Rigid env (.given base binders owner env) hyps := by
  simp only [Declarations.isGiven, Bool.and_eq_true, List.all_eq_true, List.isEmpty_iff] at henv
  obtain ⟨⟨hsigs, hreductions⟩, hconversions⟩ := henv
  have hirreducible : ∀ name args, env.reduce? name args = none := by
    intro name args
    rw [reduce?, reduction?, hreductions]
    rfl
  have hsignature : ∀ name sig, env.signature? name = some sig →
      sig.Within (.given base binders owner env) := fun name sig hsig =>
    Signature.within_of_isGiven hsig (hsigs sig (mem_of_signature? hsig))
  refine ⟨⟨⟨?_, fun _ name => hirreducible name []⟩, hsignature, ?_⟩, hirreducible, trivial,
    trivial, trivial, ?_, ?_⟩
  · intro n name args out _ hout
    simp [hirreducible] at hout
  · exact fun entry hentry n _ => scoped_of_isGiven (hconversions entry hentry) n
  · intro name sig hsig
    change env.signature? sig.name = some sig
    rwa [name_of_signature? hsig]
  · intro n hyp hhyp
    rw [Context.isGiven, List.all_eq_true] at hhyps
    exact scoped_of_isGiven (hhyps hyp hhyp) n

end Given

end Implicits
