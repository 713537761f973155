import Implicits.Proofs.Checker.Obligations
import Implicits.Conversion

/-!
Imported constraints. A level variable of a declaration means what the constraints of the
declaration say of it. Constraints are complete for some signatures if they have all constraints of
those whose level variables they speak of. This is what a scope asks for in which such a variable
requires the constraints of its signature, and declarations that fit the signatures lie within that
scope.
-/
namespace Implicits

open Term

def LevelVar.BelongsTo (v : LevelVar) (decl : String) : Prop := v.ofDecl = true ∧ v.owner = decl

instance (v : LevelVar) (decl : String) : Decidable (v.BelongsTo decl) :=
  inferInstanceAs (Decidable (_ ∧ _))

def Level.BelongsTo (decl : String) : Level → Prop
  | .const _ => False
  | .var v => v.BelongsTo decl

instance (decl : String) : (l : Level) → Decidable (l.BelongsTo decl)
  | .const _ => inferInstanceAs (Decidable False)
  | .var v => inferInstanceAs (Decidable (v.BelongsTo decl))

def Constraint.Mentions (c : Constraint) (decl : String) : Prop := ∃ l ∈ c.ends, l.BelongsTo decl

instance (c : Constraint) (decl : String) : Decidable (c.Mentions decl) :=
  inferInstanceAs (Decidable (∃ l ∈ c.ends, l.BelongsTo decl))

/-- Constraints together with all constraints of the signatures whose level variables they mention.
-/
def Complete (sigs : List Signature) (cs : List Constraint) : Prop :=
  ∀ sig ∈ sigs, (∃ c ∈ cs, c.Mentions sig.name) → ∀ c ∈ sig.constraints, c ∈ cs

instance (sigs : List Signature) (cs : List Constraint) : Decidable (Complete sigs cs) :=
  inferInstanceAs (Decidable (∀ sig ∈ sigs, (∃ c ∈ cs, c.Mentions sig.name) →
    ∀ c ∈ sig.constraints, c ∈ cs))

theorem Complete.anti {sigs sigs' : List Signature} {cs : List Constraint} (h : Complete sigs cs)
    (hsub : sigs' ⊆ sigs) : Complete sigs' cs := fun sig hsig => h sig (hsub hsig)

theorem complete_nil (sigs : List Signature) : Complete sigs [] := by
  intro sig _ hmentions
  simp at hmentions

def DistinctNames (sigs : List Signature) : Prop :=
  ∀ sig ∈ sigs, ∀ other ∈ sigs, other.name = sig.name → other = sig

theorem distinctNames_singleton (sig : Signature) : DistinctNames [sig] := by
  simp [DistinctNames]

theorem DistinctNames.append {new old : List Signature} (hnew : DistinctNames new)
    (hold : DistinctNames old) (hfresh : ∀ sig ∈ new, ∀ other ∈ old, other.name ≠ sig.name) :
    DistinctNames (new ++ old) := by
  intro sig hsig other hother heq
  rcases List.mem_append.mp hsig with hs | hs
  · rcases List.mem_append.mp hother with ho | ho
    · exact hnew sig hs other ho heq
    · exact absurd heq (hfresh sig hs other ho)
  · rcases List.mem_append.mp hother with ho | ho
    · exact absurd heq.symm (hfresh other ho sig hs)
    · exact hold sig hs other ho heq

structure Orderly (sigs : List Signature) : Prop where
  distinct : DistinctNames sigs
  proper : ∀ sig ∈ sigs, ∀ c ∈ sig.constraints, c.isTrivial = false

theorem Orderly.anti {sigs sigs' : List Signature} (h : Orderly sigs) (hsub : sigs' ⊆ sigs) :
    Orderly sigs' where
  distinct sig hsig other hother := h.distinct sig (hsub hsig) other (hsub hother)
  proper sig hsig := h.proper sig (hsub hsig)

theorem Constraint.made_iff {σ : Scope} {n : Stage} {c : Constraint} :
    c.Made σ n ↔ ∀ l ∈ c.ends, l.Made σ n := by
  simp [Constraint.Made, Constraint.ends]

/-- The scope of a check that began when `base` holes had been made: a level variable of one of the
signatures requires all constraints of the signature. -/
def Scope.importing (base : Nat) (sigs : List Signature) : Scope where
  base
  requires v c := ∃ sig ∈ sigs, v.BelongsTo sig.name ∧ c ∈ sig.constraints
  known sig := sig ∈ sigs
  tracksStore := True

section Importing

variable {base : Nat} {sigs sigs' : List Signature} {sig : Signature}

theorem Scope.IsLoose.importing : (Scope.importing base sigs).IsLoose :=
  ⟨fun _ => trivial, fun h => h⟩

/-- In a sound store nothing is missing of the signatures. -/
theorem Solver.Sound.complete {s : Solver} (hs : s.Sound (.importing base sigs))
    (hsigs : Orderly sigs) : Complete sigs s.levels.constraints := by
  intro sig hsig hmentions d hd
  obtain ⟨c, hc, l, hl, hbelongs⟩ := hmentions
  have hmade : l.Made (.importing base sigs) s.stage :=
    Constraint.made_iff.mp (hs.constraints c hc) l hl
  cases l with
  | const => exact hbelongs.elim
  | var v =>
    rcases hmade.complete d ⟨sig, hsig, hbelongs, hd⟩ with htrivial | hseen
    · simp [hsigs.proper sig hsig d hd] at htrivial
    · exact hs.seen trivial d hseen

/-- A check begins with nothing that could be incomplete. -/
theorem Solver.sound_start_importing (s : Solver) (sigs : List Signature) {levels : LevelStore}
    (hconstraints : levels.constraints = []) (hseen : levels.seen = [])
    (howner : levels.ofDecl = true → ∀ sig ∈ sigs, sig.name ≠ levels.owner) :
    (s.start levels).Sound (.importing s.holes.size sigs) where
  table := s.holes.sound_start rfl levels.nextId
  constraints c hc := by simp [Solver.start, hconstraints] at hc
  imports _ _ himported := by simp [Solver.start] at himported
  seen _ c hc := by simp [Solver.start, hseen] at hc
  proper _ c hc := by simp [Solver.start, hconstraints] at hc
  supply id c hrequires := by
    obtain ⟨sig, hsig, hbelongs, -⟩ := hrequires
    exact howner hbelongs.1 sig hsig hbelongs.2.symm

/-- A signature that brings complete constraints along, whose level variables are its own, and which
is the only one of its name among the signatures. -/
structure Signature.Fits (sig : Signature) (sigs : List Signature) : Prop where
  closed : sig.ClosedOver (·.BelongsTo sig.name)
  complete : Complete sigs sig.constraints
  only : ∀ other ∈ sigs, other.name = sig.name → other = sig

namespace Signature.Fits

variable {n : Stage}

theorem anti (h : sig.Fits sigs) (hsub : sigs' ⊆ sigs) : sig.Fits sigs' :=
  ⟨h.closed, h.complete.anti hsub, fun other hother => h.only other (hsub hother)⟩

/-- Once the signature has been imported, its level variables may occur. -/
theorem made (h : sig.Fits sigs) (hready : sig.ReadyAt (.importing base sigs) n) {v : LevelVar}
    (hv : v.BelongsTo sig.name) : v.Made (.importing base sigs) n := by
  refine ⟨fun howns => howns.elim, fun c hc => ?_⟩
  obtain ⟨other, hother, hbelongs, hc⟩ := hc
  obtain rfl : other = sig := h.only other hother (hbelongs.2.symm.trans hv.2)
  exact hready hother c hc

theorem within (h : sig.Fits sigs) (base : Nat) : sig.Within (.importing base sigs) where
  pi n hready := h.closed.pi.scoped .importing fun v hv => h.made hready hv
  fallback p hp value hvalue n hready :=
    ((h.closed.params p hp).fallback value hvalue).scoped .importing fun v hv => h.made hready hv
  constraints n hseen c hc := by
    refine Constraint.made_iff.mpr fun l hl => ?_
    cases l with
    | const => trivial
    | var v =>
      refine ⟨fun howns => howns.elim, fun d hd => ?_⟩
      obtain ⟨other, hother, hbelongs, hd⟩ := hd
      exact hseen d (h.complete other hother ⟨c, hc, .var v, hl, hbelongs⟩ d hd)
  only other hknown hname := h.only other hknown hname

end Signature.Fits

end Importing

def Scope.over (P : LevelVar → Prop) (base : Nat) : Scope := { base, requires := fun v _ => ¬ P v }

theorem Term.Scoped.closedOver {P : LevelVar → Prop} {base : Nat} {t : Term}
    (ht : t.Scoped (.over P base) ⟨base, 0, []⟩) : t.ClosedOver P := by
  refine ⟨ht.holeFree trivial (Nat.le_refl base), fun v hv => ?_⟩
  by_contra hP
  -- A variable outside of the scope would require a strict constraint, and none has been seen.
  have hseen := (ht.made_of_mem_levels hv).complete ⟨.var v, .var v, true, ""⟩ hP
  simp [Constraint.SeenAt, Constraint.isTrivial] at hseen

/-- Normalization brings no level variables along but those of the reductions. -/
theorem Declarations.normalize_closedOver {P : LevelVar → Prop} {env : Declarations}
    (henv : ∀ r ∈ env.reductions, r.2.ClosedOver P) (h : Holes) {t : Term} (ht : t.ClosedOver P) :
    (h.normalize env t).ClosedOver P := by
  have hloose : (Scope.over P h.size).IsLoose := ⟨fun _ => trivial, fun h => h⟩
  have hmade : ∀ n v, P v → v.Made (.over P h.size) n := fun n v hv =>
    ⟨fun howns => howns.elim, fun c hc => absurd hv hc⟩
  have hreduces : env.ReducesWithin (.over P h.size) :=
    ⟨fun n name args out hargs hout => scoped_of_reduce? henv hloose (hmade n) hargs hout,
      fun hfirst => hfirst.elim⟩
  have htable : h.Sound (.over P h.size) ⟨h.size, 0, []⟩ := h.sound_start rfl 0
  exact (htable.normalize hreduces (ht.scoped hloose (hmade _))).closedOver

/-- Declarations that fit the signatures known to a check: conversions and reductions bring no level
variables along but those of the function that converts. -/
structure Declarations.Fits (env : Declarations) (sigs : List Signature) : Prop where
  signature : ∀ sig ∈ env.signatures, sig.Fits sigs
  conversion : ∀ entry ∈ env.conversions, (∃ sig ∈ env.signatures, sig.name = entry.2.name) ∧
    entry.2.target.ClosedOver (·.BelongsTo entry.2.name)
  reduction : ∀ r ∈ env.reductions, r.2.ClosedOver fun _ => False

namespace Declarations

variable {env own outer : Declarations} {sigs sigs' : List Signature} {sig : Signature}
  {name : String}

theorem signature?_eq_none :
    env.signature? name = none ↔ ∀ sig ∈ env.signatures, sig.name ≠ name := by
  simp [signature?]

namespace Fits

theorem anti (h : env.Fits sigs) (hsub : sigs' ⊆ sigs) : env.Fits sigs' :=
  { h with signature := fun sig hsig => (h.signature sig hsig).anti hsub }

theorem within (h : env.Fits sigs) (base : Nat) : env.Within (.importing base sigs) where
  reduce n name args out hargs hout :=
    scoped_of_reduce? h.reduction .importing (fun _ hv => hv.elim) hargs hout
  firstOrder hfirst := hfirst.elim
  signature name sig hsig := (h.signature sig (mem_of_signature? hsig)).within base
  conversion entry hentry n hready := by
    obtain ⟨⟨sig, hsig, hname⟩, htarget⟩ := h.conversion entry hentry
    cases hfound : env.signature? entry.2.name with
    | none => exact absurd hname (signature?_eq_none.mp hfound sig hsig)
    | some found =>
      have hfits := h.signature found (mem_of_signature? hfound)
      rw [← name_of_signature? hfound] at htarget
      exact htarget.scoped .importing fun v hv => hfits.made (hready found hfound) hv

theorem addSignature (h : env.Fits sigs) (hsig : sig.Fits sigs) :
    (env.addSignature sig).Fits sigs where
  signature := List.forall_mem_cons.mpr ⟨hsig, h.signature⟩
  conversion entry hentry := by
    obtain ⟨⟨other, hother, hname⟩, htarget⟩ := h.conversion entry hentry
    exact ⟨⟨other, List.mem_cons_of_mem sig hother, hname⟩, htarget⟩
  reduction := h.reduction

theorem addSignatures {new : List Signature} (h : env.Fits sigs)
    (hnew : ∀ sig ∈ new, sig.Fits sigs) :
    (new.foldl .addSignature env).Fits sigs := by
  induction new generalizing env with
  | nil => exact h
  | cons sig new ih =>
    exact ih (h.addSignature (hnew sig (by simp))) fun other hother => hnew other (by simp [hother])

theorem addReduction (h : env.Fits sigs) (name : String) {r : Reduction}
    (hr : r.ClosedOver fun _ => False) : (env.addReduction name r).Fits sigs :=
  { h with reduction := List.forall_mem_cons.mpr ⟨hr, h.reduction⟩ }

/-- A conversion has its target from the signature of the function. -/
theorem of_conversion (h : env.Fits sigs) {holes : Holes} {entry : String × Conversion}
    (hentry : env.conversion name holes = .ok entry) :
    (∃ sig ∈ env.signatures, sig.name = entry.2.name) ∧
      entry.2.target.ClosedOver (·.BelongsTo entry.2.name) := by
  obtain ⟨sig, p, hsig, -, rfl⟩ := filed_of_conversion hentry
  have hmem := mem_of_signature? hsig
  refine ⟨⟨sig, hmem, rfl⟩, normalize_closedOver (fun r hr => ?_) holes ?_⟩
  · exact (h.reduction r hr).mono fun _ hv => hv.elim
  · exact (h.signature sig hmem).closed.result

theorem addConversion (h : (own.append outer).Fits sigs) {holes : Holes}
    {entry : String × Conversion} (hentry : (own.append outer).conversion name holes = .ok entry) :
    ((own.addConversion entry).append outer).Fits sigs where
  signature := h.signature
  conversion other hother := by
    simp only [append, Declarations.addConversion, List.mem_append, List.mem_singleton] at hother
    rcases hother with (hother | rfl) | hother
    · exact h.conversion other (List.mem_append_left _ hother)
    · exact h.of_conversion hentry
    · exact h.conversion other (List.mem_append_right _ hother)
  reduction := h.reduction

end Fits

/-- Declarations that fit every orderly list of signatures which has their own: whatever is declared
later, their constraints stay complete. -/
structure Coherent (env : Declarations) : Prop where
  orderly : Orderly env.signatures
  fits : ∀ later, env.signatures ⊆ later → Orderly later → env.Fits later

end Declarations

end Implicits
