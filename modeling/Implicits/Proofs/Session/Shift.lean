import Implicits.Proofs.Checker.Shift
import Implicits.Proofs.Session.Calls
import Implicits.Proofs.Term.Unifier

/-!
Signatures and units with holes that are numbered from a later start. A checked signature has no
holes, so that it comes out the same; the bodies of a checked unit differ only in the numbers of
their holes.
-/
namespace Implicits

open Relation Term

/-- Levels that are given out depend on the store only through its supply. -/
theorem Term.assignLevels_congr (decl : String) (t : Term) : ∀ s s' : LevelStore,
    s'.issued = s.issued →
      ((t.assignLevels decl).run s').1 = ((t.assignLevels decl).run s).1 ∧
      ((t.assignLevels decl).run s').2.issued = ((t.assignLevels decl).run s).2.issued := by
  induction t using induct with
  | missing | const | lit | bound | hole => exact fun s s' h => ⟨rfl, h⟩
  | app fn args ihfn ihargs =>
    have hargs : ∀ s s' : LevelStore, s'.issued = s.issued →
        ((assignLevelsArgs decl args).run s').1 = ((assignLevelsArgs decl args).run s).1 ∧
        ((assignLevelsArgs decl args).run s').2.issued =
          ((assignLevelsArgs decl args).run s).2.issued := by
      induction args with
      | nil => exact fun s s' h => ⟨rfl, h⟩
      | cons a args ih =>
        intro s s' h
        obtain ⟨ha, hnext⟩ := ihargs a (by simp) s s' h
        obtain ⟨hrest, hlast⟩ := ih (fun b hb => ihargs b (by simp [hb])) _ _ hnext
        exact ⟨congrArg₂ List.cons ha hrest, hlast⟩
    intro s s' h
    obtain ⟨hargs, hnext⟩ := hargs s s' h
    obtain ⟨hfn, hlast⟩ := ihfn _ _ hnext
    exact ⟨congrArg₂ Term.app hfn hargs, hlast⟩
  | pi params result ihparams ihresult =>
    have hparams : ∀ s s' : LevelStore, s'.issued = s.issued →
        ((assignLevelsParams decl params).run s').1 = ((assignLevelsParams decl params).run s).1 ∧
        ((assignLevelsParams decl params).run s').2.issued =
          ((assignLevelsParams decl params).run s).2.issued := by
      induction params with
      | nil => exact fun s s' h => ⟨rfl, h⟩
      | cons p params ih =>
        intro s s' h
        obtain ⟨hp, hnext⟩ := ihparams p (by simp) s s' h
        obtain ⟨hrest, hlast⟩ := ih (fun q hq => ihparams q (by simp [hq])) _ _ hnext
        refine ⟨congrArg₂ List.cons ?_ hrest, hlast⟩
        exact congrArg (fun type => (⟨p.name, type, p.plicity, p.fallback⟩ : Param Term)) hp
    intro s s' h
    obtain ⟨hparams, hnext⟩ := hparams s s' h
    obtain ⟨hresult, hlast⟩ := ihresult _ _ hnext
    exact ⟨congrArg₂ Term.pi hparams hresult, hlast⟩
  | sort u =>
    intro s s' h
    cases u with
    | unassigned n =>
      refine ⟨congrArg
        (fun xs : List LevelVar => Term.sort (.level (.var ⟨decl, xs.length, true⟩))) h, ?_⟩
      exact congrArg (fun xs : List LevelVar => ⟨decl, xs.length, true⟩ :: xs) h
    | level l => exact ⟨rfl, h⟩
  | eq lhs rhs ihl ihr =>
    intro s s' h
    obtain ⟨hlhs, hnext⟩ := ihl s s' h
    obtain ⟨hrhs, hlast⟩ := ihr _ _ hnext
    exact ⟨congrArg₂ Term.eq hlhs hrhs, hlast⟩
  | refl value ih =>
    intro s s' h
    obtain ⟨hvalue, hlast⟩ := ih s s' h
    exact ⟨congrArg Term.refl hvalue, hlast⟩

theorem Term.HoleFree.after {t : Term} (h : t.HoleFree) (past : Holes) : t.Paired (.after past) t :=
  h.closedOver.paired

theorem Context.HoleFree.after {hyps : Context} (h : hyps.HoleFree) (past : Holes) :
    hyps.Paired (.after past) hyps :=
  Context.ClosedOver.paired h.closedOver

namespace Check

section Signature

variable {past : Holes} {env env' : Declarations} {hyps : Context}

def SameTerm (t u : Term) : Prop := u = t ∧ t.HoleFree

theorem assignLevels_alike (decl : String) {t : Term} (ht : t.HoleFree) :
    ChecksPaired (.after past) SameTerm (assignLevels decl t) (assignLevels decl t) := by
  refine .modifyGet fun c d hcd => ?_
  obtain ⟨hterm, hissued⟩ := t.assignLevels_congr decl _ _ hcd.solver.collected.1.issued
  obtain ⟨hholes, -, -, new, hstore⟩ := t.assignLevels_spec decl c.solver.levels
  obtain ⟨-, -, -, new', hstore'⟩ := t.assignLevels_spec decl d.solver.levels
  have hlevels : ((t.assignLevels decl).run c.solver.levels).2.SameDemands
      ((t.assignLevels decl).run d.solver.levels).2 := by
    rw [hstore, hstore'] at hissued ⊢
    dsimp only at hissued
    rw [hissued]
    exact hcd.solver.collected.1.withIssued _
  exact ⟨⟨hterm, hholes.trans ht⟩,
    hcd.withSolver ⟨hcd.solver.holes, hlevels, hcd.solver.collected.2⟩⟩

theorem levelOf_alike (henv : env.Alike env') (hhyps : hyps.HoleFree) {t : Term} (ht : t.HoleFree)
    {wrap : Fault → CheckError}
    (hwrap : ∀ e f, Solve.SameKind e f → SameKind (wrap e) (wrap f)) :
    ChecksPaired (.after past) (Level.Paired (.after past))
      (orFail .missing wrap (Solve.levelOf env hyps t))
      (orFail .missing wrap (Solve.levelOf env' hyps t)) :=
  orFail_paired _ hwrap (Solve.TypesPaired.solvesPaired fun _ _ hh =>
    Solve.levelOf_paired hh (henv.paired past) (hhyps.after past) (ht.after past))

theorem checkFallback_alike (henv : env.Alike env') (function : String) (hhyps : hyps.HoleFree)
    {p : Param Term} (hp : p.ClosedOver fun _ => True) :
    ChecksPaired (.after past)
      (fun x y => y = x ∧ Param.ClosedOver (fun _ => True) { p with fallback := x })
      (checkFallback env function hyps p) (checkFallback env' function hyps p) := by
  unfold checkFallback
  split
  · rename_i value hvalue
    refine .bind (assignLevels_alike function (hp.fallback value hvalue).holeFree)
      fun _ value hsame => ?_
    obtain ⟨rfl, hfree⟩ := hsame
    have hfits : Solve.SolvesPaired (.after past) (fun _ _ => True) _ _ :=
      .bind (Solve.TypesPaired.solvesPaired fun _ _ hh =>
        Solve.typeOf_paired hh (henv.paired past) (hhyps.after past) (hfree.after past))
      fun _ _ htype => Solve.subsume_paired (henv.paired past) (hhyps.after past) htype
        (hp.type.holeFree.after past)
    refine .bind (orFail_paired _ (fun e f hef => ?_) hfits) fun _ _ _ => .pure ⟨rfl, hp.type, ?_⟩
    · simp only [SameKind, CheckError.kind]
      rw [hef]
    · intro other hother
      obtain rfl : value = other := by simpa using hother
      exact hfree.closedOver
  · exact .pure ⟨rfl, hp⟩

theorem checkParams_alike (henv : env.Alike env') (function : String) (hhyps : hyps.HoleFree)
    {ps : List (Param Term)} (hps : ∀ p ∈ ps, p.ClosedOver fun _ => True) :
    ChecksPaired (.after past)
      (fun x y => y = x ∧ (∀ p ∈ x.1, p.ClosedOver fun _ => True) ∧ x.2.HoleFree)
      (checkParams env function hyps ps) (checkParams env' function hyps ps) := by
  induction ps generalizing hyps with
  | nil => exact .pure ⟨rfl, by simp, hhyps⟩
  | cons p ps ih =>
    have hp := hps p (by simp)
    rw [checkParams, checkParams]
    refine .bind (assignLevels_alike function hp.type.holeFree) fun _ type hsame => ?_
    obtain ⟨rfl, hfree⟩ := hsame
    refine .bind (levelOf_alike henv hhyps hfree fun e f hef => ?_) fun _ _ _ => ?_
    · simp only [SameKind, CheckError.kind]
      rw [hef]
    have hclosed : Param.ClosedOver (fun _ => True) { p with type } :=
      ⟨hfree.closedOver, hp.fallback⟩
    refine .bind (checkFallback_alike henv function hhyps hclosed) fun _ fallback hsame => ?_
    obtain ⟨rfl, hfallback⟩ := hsame
    have hinner : (hyps.extend p.name type).HoleFree := List.forall_mem_cons.mpr ⟨hfree, hhyps⟩
    refine .bind (ih hinner fun q hq => hps q (by simp [hq])) fun r r' hr => ?_
    obtain ⟨rfl, hrest, hcontext⟩ := hr
    exact .pure ⟨rfl, List.forall_mem_cons.mpr ⟨hfallback, hrest⟩, hcontext⟩

theorem checkSignature_alike (henv : env.Alike env') {sig : Signature} (hsig : sig.HoleFree) :
    ChecksPaired (.after past) (fun x y => y = x ∧ x.HoleFree) (checkSignature env sig)
      (checkSignature env' sig) := by
  have hclosed := hsig.closedOver
  refine .bind requireActive_alike fun _ _ _ => ?_
  split
  · exact fail_paired _ rfl
  · refine .bind (checkParams_alike henv sig.name (by simp [Context.HoleFree]) hclosed.params)
      fun r r' hr => ?_
    obtain ⟨rfl, hparams, hhyps⟩ := hr
    refine .bind (assignLevels_alike sig.name hclosed.result.holeFree) fun _ result hsame => ?_
    obtain ⟨rfl, hfree⟩ := hsame
    refine .bind (levelOf_alike henv hhyps hfree fun e f hef => ?_) fun _ _ _ => ?_
    · simp only [SameKind, CheckError.kind]
      rw [hef]
    have hchecked : Signature.ClosedOver (fun _ => True)
        { name := sig.name, params := r'.1, result } := ⟨hparams, hfree.closedOver⟩
    exact .pure ⟨rfl, hchecked.holeFree⟩

end Signature

end Check

section Conversions

/-- A term that stays the same with its holes numbered after others has none. -/
theorem Term.Paired.holeFree_of_self {past : Holes} (hpast : 0 < past.size) {t : Term}
    (h : t.Paired (.after past) t) : t.HoleFree := by
  suffices hfree : ∀ {a b : Term}, a.Paired (.after past) b → a = b → a.HoleFree from hfree h rfl
  intro a b hab
  induction hab using Term.Paired.induct with
  | missing | const | bound | sort => exact fun _ => rfl
  | lit _ _ hclosed => exact fun _ => hclosed.holeFree
  | hole i j hij =>
    intro heq
    have hlater := Pairing.hole_after.mp hij
    rw [← Term.hole.inj heq] at hlater
    exact absurd hlater (Nat.ne_of_lt (Nat.lt_add_of_pos_right hpast))
  | app f g xs ys _ ihf ihargs =>
    intro heq
    obtain ⟨hfn, rfl⟩ := Term.app.inj heq
    have hargs := List.forall₂_same.mp ihargs
    refine List.append_eq_nil_iff.mpr ⟨ihf hfn, holeFree_args.mpr fun a ha => ?_⟩
    obtain ⟨_, ih⟩ := hargs a ha
    exact ih rfl
  | pi ps qs r s _ ihparams ihr =>
    intro heq
    obtain ⟨rfl, hresult⟩ := Term.pi.inj heq
    have hparams := List.forall₂_same.mp ihparams
    refine List.append_eq_nil_iff.mpr ⟨holeFree_params.mpr fun p hp => ?_, ihr hresult⟩
    obtain ⟨hpaired, ih⟩ := hparams p hp
    exact ⟨ih rfl, hpaired.free⟩
  | eq a b l r _ _ ihl ihr =>
    intro heq
    obtain ⟨hlhs, hrhs⟩ := Term.eq.inj heq
    exact List.append_eq_nil_iff.mpr ⟨ihl hlhs, ihr hrhs⟩
  | refl a b _ ih => exact fun heq => ih (Term.refl.inj heq)

namespace Holes

/-- A table of open holes does not change normal forms. -/
theorem normalize_of_open {h : Holes} (hopen : ∀ i, h.solution? i = none) (env : Declarations)
    (t : Term) : h.normalize env t = ({} : Holes).normalize env t := by
  have hexpand : ∀ t, h.expand t = t := by
    intro t
    have hfill : ∀ i, t.Shows i → h.expand (.hole i) = .hole i :=
      fun i _ => expand_of_open (hopen i)
    rw [expand_eq_fill, fill_congr hfill, fill_hole]
  have hnormal : ∀ n t left, h.normalizeN env n t left = ({} : Holes).normalizeN env n t left := by
    intro n
    induction n with
    | zero => exact fun _ _ => rfl
    | succ n ih =>
      intro t left
      simp only [normalizeN, hexpand, ih]
      rfl
  exact congrArg Prod.fst (hnormal _ t _)

end Holes

namespace Declarations.Alike

variable {env env' : Declarations}

theorem refl_left (henv : env.Alike env') : env.Alike env where
  signatures := by
    refine List.forall₂_same.mpr fun sig hsig => ?_
    obtain ⟨_, -, halike⟩ := exists_of_forall₂ henv.signatures hsig
    exact halike.closed.alike
  reductions := rfl
  conversions := rfl
  uniform := henv.uniform
  free := henv.free

theorem normalize_holeFree (henv : env.Alike env') {t : Term} (ht : t.HoleFree) :
    (({} : Holes).normalize env t).HoleFree := by
  -- A table with one open hole reads the term in the same way, although its next hole has another
  -- number.
  generalize hpast : ({} : Holes).add "" 0 .missing = past
  have hopen : ∀ i, past.solution? i = none := by
    rw [← hpast]
    exact fun i => Holes.solution?_add _ _ _ _ i
  have hself := (Holes.paired_start (ρ := .after past)).normalize (henv.refl_left.paired past)
    (ht.after past)
  change (({} : Holes).normalize env t).Paired (.after past) (past.normalize env t) at hself
  rw [Holes.normalize_of_open hopen] at hself
  exact hself.holeFree_of_self (by rw [← hpast]; decide)

/-- Normal forms of terms without holes do not depend on what holes stand for. -/
theorem normalize_eq (henv : env.Alike env') {t : Term} (ht : t.HoleFree) (h h' : Holes) :
    h'.normalize env' t = h.normalize env t := by
  have hstart : ∀ {env' : Declarations}, env.Alike env' → ∀ past : Holes,
      past.normalize env' t = ({} : Holes).normalize env t := by
    intro env' henv past
    have hpaired :=
      (Holes.paired_start (ρ := .after past)).normalize (henv.paired past) (ht.after past)
    exact (hpaired.eq_of_anyHole (fun _ _ hvw => hvw) (henv.normalize_holeFree ht).anyHole).symm
  rw [hstart henv h', hstart henv.refl_left h]

theorem conversion_eq (henv : env.Alike env') (name : String) (h h' : Holes) :
    env'.conversion name h' = env.conversion name h := by
  have hsig := Declarations.signature?_alike henv.signatures name
  unfold Declarations.conversion
  generalize env.signature? name = x, env'.signature? name = y at hsig
  cases hsig with
  | none => rfl
  | @some sig sig' hsig =>
    dsimp only
    rw [hsig.params, hsig.result]
    cases hparams : sig.params with
    | nil => rfl
    | cons p ps =>
      cases ps with
      | cons q ps => rfl
      | nil =>
        have htype := (hsig.closed.params p (by simp [hparams])).type.holeFree
        have hresult := hsig.closed.result.holeFree
        have hconversions : ∀ key, env'.conversionsAt key = env.conversionsAt key := by
          intro key
          rw [Declarations.conversionsAt, Declarations.conversionsAt, henv.conversions]
        have hnormal : ∀ {t : Term}, t.HoleFree → (h.normalize env t).HoleFree := fun ht => by
          rw [henv.refl_left.normalize_eq ht {} h]
          exact henv.normalize_holeFree ht
        simp only [henv.normalize_eq htype h h', henv.normalize_eq hresult h h', hconversions,
          h.expand_of_holeFree hresult, h'.expand_of_holeFree hresult,
          Check.conversionKey_of_holeFree (hnormal htype) (hnormal hresult) h' h]

theorem conversion_free (henv : env.Alike env') {name : String} {h : Holes}
    {entry : String × Conversion} (hentry : env.conversion name h = .ok entry) :
    entry.2.source.HoleFree ∧ entry.2.target.HoleFree := by
  obtain ⟨sig, p, hsig, ⟨hparams, -, -⟩, rfl⟩ := Declarations.filed_of_conversion hentry
  obtain ⟨_, -, halike⟩ := exists_of_forall₂ henv.signatures (Declarations.mem_of_signature? hsig)
  have hnormal : ∀ {t : Term}, t.HoleFree → (h.normalize env t).HoleFree := fun ht => by
    rw [henv.refl_left.normalize_eq ht {} h]
    exact henv.normalize_holeFree ht
  exact ⟨hnormal (halike.closed.params p (by simp [hparams])).type.holeFree,
    hnormal halike.closed.result.holeFree⟩

end Declarations.Alike

end Conversions

structure CheckedDeclaration.Paired (ρ : Pairing) (d d' : CheckedDeclaration) : Prop where
  signature : d'.signature = d.signature
  free : d.signature.HoleFree
  body : Option.Rel (Term.Paired ρ) d.body d'.body
  implicit : d'.implicit = d.implicit

/-- Units that passed with the same signatures and levels and with bodies and obligations that
differ in the numbers of their holes. -/
structure CheckedUnit.Paired (ρ : Pairing) (u u' : CheckedUnit) : Prop where
  name : u'.name = u.name
  signatures : List.Forall₂ (Signature.Alike ρ.known) u.signatures u'.signatures
  bodies : List.Forall₂ (fun x y => y.1 = x.1 ∧ x.2.Paired ρ y.2) u.bodies u'.bodies
  conversions : u'.conversions = u.conversions
  directives : u'.directives = u.directives
  obligations : List.Forall₂ (Obligation.Paired ρ) u.obligations u'.obligations
  openObligations : List.Forall₂ (Obligation.Paired ρ) u.openObligations u'.openObligations
  levels : u'.levels = u.levels

namespace Check

section Unit

variable {past : Holes} {outer outer' : Declarations}

theorem visible_alike (houter : outer.Alike outer') :
    ChecksPaired (.after past) Declarations.Alike (visible outer) (visible outer') :=
  fun _ _ hcd => ⟨.ok (hcd.standing.own.append houter), hcd⟩

theorem declareOwn_alike (houter : outer.Alike outer') {sig : Signature} (hsig : sig.HoleFree) :
    ChecksPaired (.after past) (fun _ _ => True) (declareOwn outer sig)
      (declareOwn outer' sig) := by
  refine .bind (visible_alike houter) fun env env' henv => ?_
  dsimp only
  rw [Signature.isSome_paired (Declarations.signature?_alike henv.signatures sig.name)]
  split
  · exact fail_bind_paired .missing rfl _ _
  · refine .modify fun c d hcd => { hcd with standing := { hcd.standing with own := ?_ } }
    exact { hcd.standing.own with
      signatures := .cons hsig.closedOver.alike hcd.standing.own.signatures }

theorem declareOwnConversion_alike (houter : outer.Alike outer') (name : String) :
    ChecksPaired (.after past) (fun _ _ => True) (declareOwnConversion outer name)
      (declareOwnConversion outer' name) := by
  refine .bind (visible_alike houter) fun env env' henv => ?_
  refine .bind holes_paired fun h h' _ => ?_
  rw [henv.conversion_eq name h h']
  cases hentry : env.conversion name h with
  | error fault => exact fail_paired .missing rfl
  | ok entry =>
    refine .modify fun c d hcd => { hcd with standing := { hcd.standing with own := ?_ } }
    have hfree : ∀ e ∈ [entry], e.2.source.HoleFree ∧ e.2.target.HoleFree :=
      List.forall_mem_singleton.mpr (henv.conversion_free hentry)
    exact { hcd.standing.own with
      conversions := congrArg (· ++ [entry]) hcd.standing.own.conversions
      free := List.forall_mem_append.mpr ⟨hcd.standing.own.free, hfree⟩ }

theorem checkBody_alike (houter : outer.Alike outer') {sig : Signature} (hsig : sig.HoleFree)
    {body : Expr} (hbody : body.HoleFree) :
    ChecksPaired (.after past) (Option.Rel (Term.Paired (.after past))) (checkBody outer sig body)
      (checkBody outer' sig body) := by
  unfold checkBody
  split
  · exact .pure .none
  · have hclosed := hsig.closedOver
    have hnone : ({} : Context).HoleFree := by simp [Context.HoleFree]
    have hhyps := hnone.params fun p hp => (hclosed.params p hp).type.holeFree
    refine .bind (visible_alike houter) fun env env' henv => ?_
    refine .bind (.tryCatch (elaborateTop_alike henv hbody (hhyps.after past)
      (hclosed.result.holeFree.after past)) fun e f hef => .throw ?_)
        fun x y hxy => .pure (.some hxy.1)
    exact congrArg (CheckError.inBody sig.name) hef

theorem checkDeclaration_alike (houter : outer.Alike outer') {d : Declaration} (hd : d.HoleFree) :
    ChecksPaired (.after past) (CheckedDeclaration.Paired (.after past)) (checkDeclaration outer d)
      (checkDeclaration outer' d) := by
  unfold checkDeclaration
  split
  · exact .throw rfl
  · rename_i sig hsig
    refine .bind (visible_alike houter) fun env env' henv => ?_
    refine .bind (checkSignature_alike henv (hd.signature sig hsig)) fun _ checked hsame => ?_
    obtain ⟨rfl, hfree⟩ := hsame
    have hrest : ChecksPaired (.after past) (CheckedDeclaration.Paired (.after past))
        (do let body ← checkBody outer checked d.body
            return (⟨checked, body, d.implicit⟩ : CheckedDeclaration))
        (do let body ← checkBody outer' checked d.body
            return (⟨checked, body, d.implicit⟩ : CheckedDeclaration)) :=
      .bind (checkBody_alike houter hfree hd.body) fun _ _ hbody => .pure ⟨rfl, hfree, hbody, rfl⟩
    refine .bind (declareOwn_alike houter hfree) fun _ _ _ => ?_
    split
    · exact .bind (declareOwnConversion_alike houter checked.name) fun _ _ _ => hrest
    · exact hrest

/-- Giving all signatures the constraints of the unit. -/
theorem withConstraints_alike {sigs sigs' : List Signature}
    {P : LevelVar → Prop} (hsigs : List.Forall₂ (Signature.Alike P) sigs sigs')
    {cs cs' : List Constraint} (hcs : demands cs' = demands cs) :
    List.Forall₂ (Signature.Alike P) (sigs.map ({ · with constraints := cs }))
      (sigs'.map ({ · with constraints := cs' })) := by
  rw [List.forall₂_map_left_iff, List.forall₂_map_right_iff]
  exact hsigs.imp fun _ _ hsig =>
    ⟨hsig.name, hsig.params, hsig.result, hcs, hsig.closed.params, hsig.closed.result⟩

theorem conversions_alike {ds ds' : List CheckedDeclaration}
    (hds : List.Forall₂ (CheckedDeclaration.Paired (.after past)) ds ds') :
    (ds'.filter (·.implicit)).map (·.signature.name) =
      (ds.filter (·.implicit)).map (·.signature.name) := by
  induction hds with
  | nil => rfl
  | cons hd _ ih =>
    rw [List.filter_cons, List.filter_cons, hd.implicit]
    split
    · rw [List.map_cons, List.map_cons, ih, hd.signature]
    · exact ih

theorem checkDeclarations_alike (houter : outer.Alike outer') {u : SourceUnit}
    (hu : ∀ d ∈ u.declarations, d.HoleFree) :
    ChecksPaired (.after past) (CheckedUnit.Paired (.after past)) (checkDeclarations outer u)
      (checkDeclarations outer' u) := by
  have hall : List.Forall₂ (fun d d' => d' = d ∧ d.HoleFree) u.declarations u.declarations :=
    List.forall₂_same.mpr fun d hd => ⟨rfl, hu d hd⟩
  have hmap : ChecksPaired (.after past) (List.Forall₂ (CheckedDeclaration.Paired (.after past)))
      (u.declarations.mapM (checkDeclaration outer))
        (u.declarations.mapM (checkDeclaration outer')) := by
    refine .mapM hall fun _ d hd => ?_
    obtain ⟨rfl, hfree⟩ := hd
    exact checkDeclaration_alike houter hfree
  refine .bind hmap fun checked checked' hchecked => ?_
  refine .bind checkUniverses_alike fun levels _ hlevels => ?_
  subst hlevels
  refine .bind .get fun c d hcd => ?_
  have hcs := hcd.demands_eq
  refine .bind (.modify fun c d hcd => { hcd with standing := { hcd.standing with own := ?_ } })
    fun _ _ _ => ?_
  · exact { hcd.standing.own with
      signatures := withConstraints_alike hcd.standing.own.signatures hcs }
  refine .bind .get fun c' d' hcd' => .pure ?_
  exact {
    name := rfl
    signatures := by
      rw [List.forall₂_map_left_iff, List.forall₂_map_right_iff]
      refine hchecked.imp fun _ _ hd => ?_
      rw [hd.signature]
      have hclosed := hd.free.closedOver
      exact ⟨rfl, rfl, rfl, hcs, hclosed.params, hclosed.result⟩
    bodies := by
      refine filterMap_paired hchecked fun x y hxy => ?_
      have hbody := hxy.body
      rw [hxy.signature]
      generalize x.body = a, y.body = b at hbody
      cases hbody with
      | none => exact .none
      | some hbody => exact .some ⟨rfl, hbody⟩
    conversions := conversions_alike hchecked
    directives := rfl
    obligations := hcd'.obligations.forall₂
    openObligations := hcd'.openObligations.forall₂
    levels := rfl }

theorem checkUnit_alike (houter : outer.Alike outer') {u : SourceUnit}
    (hu : ∀ d ∈ u.declarations, d.HoleFree) :
    ChecksPaired (.after past) (CheckedUnit.Paired (.after past)) (checkUnit outer u)
      (checkUnit outer' u) := by
  refine .bind (.tryCatch (checkDeclarations_alike houter hu) fun e f hef => ?_)
    fun checked checked' hchecked => ?_
  · refine .bind (.modify fun c d hcd => ?_)
      fun _ _ _ => .throw (congrArg (CheckError.inUnit u.name) hef)
    have hsolver : Solver.Paired (.after past) { c.solver with levels := c.solver.levels.reset }
        { d.solver with levels := d.solver.levels.reset } :=
      ⟨hcd.solver.holes, hcd.solver.collected.1.reset, hcd.solver.collected.2⟩
    have hfailure : Option.Rel SameKind c.failure d.failure := hcd.standing.failure
    refine { hcd with solver := hsolver, standing := { hcd.standing with failure := ?_ } }
    change Option.Rel SameKind (c.failure.or (some e)) (d.failure.or (some f))
    generalize c.failure = x, d.failure = y at hfailure
    cases hfailure with
    | none => exact .some hef
    | some hsame => exact .some hsame
  · exact .bind .get fun _ _ _ => .bind (note_paired _ _) fun _ _ _ => .pure hchecked

end Unit

end Check

end Implicits
