import Implicits.Proofs.Session.Imports
import Implicits.Unit

/-!
The constraints of a check are complete for the declarations it began with. While the declarations
of a unit are checked, their own signatures have no constraints yet; in the end all of them share
those of the unit.
-/
namespace Implicits

open Term

structure Declaration.Closed (d : Declaration) : Prop where
  signature : ∀ sig, d.signature = some sig → sig.ClosedOver fun _ => False
  body : d.body.ClosedOver fun _ => False

def SourceUnit.Closed (unit : SourceUnit) : Prop := ∀ d ∈ unit.declarations, d.Closed

structure Batch (new : List Signature) (cs : List Constraint) : Prop where
  shared : ∀ sig ∈ new, sig.constraints = cs
  closed : ∀ sig ∈ new, sig.ClosedOver (·.BelongsTo sig.name)
  distinct : DistinctNames new
  proper : ∀ c ∈ cs, c.isTrivial = false

theorem Context.ClosedOver.params {P : LevelVar → Prop} {hyps : Context} (h : hyps.ClosedOver P)
    {ps : List (Param Term)} (hps : ∀ p ∈ ps, p.ClosedOver P) :
    (ps.foldl (fun hyps p => hyps.extend p.name p.type) hyps).ClosedOver P := by
  induction ps generalizing hyps with
  | nil => exact h
  | cons p ps ih =>
    exact ih (h.extend (hps p (by simp)).type p.name) fun q hq => hps q (by simp [hq])

namespace Checker

variable {base : Nat} {sigs : List Signature} {c : Checker}

theorem constraints_complete (hc : c.solver.Sound (.importing base sigs)) (hsigs : Orderly sigs) :
    Complete sigs c.constraints := by
  unfold Checker.constraints
  split
  · exact hc.complete hsigs
  · exact complete_nil sigs

theorem constraints_proper (hc : c.solver.Sound (.importing base sigs)) :
    ∀ d ∈ c.constraints, d.isTrivial = false := by
  unfold Checker.constraints
  split
  · exact hc.proper trivial
  · simp

structure Declaring (outer : Declarations) (base : Nat) (sigs : List Signature) (c : Checker) :
    Prop where
  sound : c.solver.Sound (.importing base sigs)
  fits : (c.own.append outer).Fits sigs
  distinct : DistinctNames c.own.signatures
  fresh : ∀ sig ∈ c.own.signatures, outer.signature? sig.name = none

theorem Declaring.continues {outer : Declarations} {c' : Checker} (hc : c.Declaring outer base sigs)
    (hstep : c.Continues c') (hsound : c'.solver.Sound (.importing base sigs)) :
    c'.Declaring outer base sigs := by
  obtain ⟨-, hfits, hdistinct, hfresh⟩ := hc
  rw [← hstep.own] at hfits hdistinct hfresh
  exact ⟨hsound, hfits, hdistinct, hfresh⟩

end Checker

namespace Check

variable {env outer : Declarations} {base : Nat} {sigs : List Signature} {c : Checker}
  {sig : Signature}

/-- The level variables of a declaration that no signature of the scope is about may occur
everywhere. -/
theorem made_of_belongsTo {name : String} (hname : ∀ other ∈ sigs, other.name ≠ name) (v : LevelVar)
    (n : Stage) (hv : v.BelongsTo name) : v.Made (.importing base sigs) n := by
  refine ⟨fun howns => howns.elim, fun d hd => ?_⟩
  obtain ⟨other, hother, hbelongs, -⟩ := hd
  exact absurd (hbelongs.2.symm.trans hv.2) (hname other hother)

/-- A signature is checked to one that fits. -/
theorem checkSignature_ends (henv : env.Fits sigs) (hname : ∀ other ∈ sigs, other.name ≠ sig.name)
    (hsig : sig.ClosedOver fun _ => False) (hc : c.solver.Sound (.importing base sigs)) :
    Ends (checkSignature env sig) c (fun checked c' => c'.solver.Sound (.importing base sigs) ∧
      c.Continues c' ∧ checked.name = sig.name ∧ checked.Fits sigs) fun _ _ => True := by
  have hvalid : (Ledger.empty env (.importing base sigs) {}).Valid c.solver := ⟨hc, trivial⟩
  have hchecks := checkSignature_checks .importing (made_of_belongsTo hname) (henv.within base)
    (fun _ => ⟨rfl, rfl⟩) (hsig.mono fun _ hv => hv.elim) hvalid
  apply Ends.mono hchecks
  · intro checked c' h
    obtain ⟨hvalid', hstep, ⟨hchecked, hnone, hclosed⟩, -⟩ := h
    refine ⟨hvalid'.sound, hstep.toContinues, hchecked, hchecked ▸ hclosed, ?_, ?_⟩
    · rw [hnone]
      exact complete_nil sigs
    · intro other hother heq
      exact absurd (heq.trans hchecked) (hname other hother)
  · exact fun _ _ _ => trivial

/-- A signature that is checked on its own gets the constraints of its check. -/
theorem checkDeclared_ends (henv : env.Fits sigs) (hname : ∀ other ∈ sigs, other.name ≠ sig.name)
    (hsig : sig.ClosedOver fun _ => False) (hc : c.solver.Sound (.importing base sigs)) :
    Ends (checkDeclared env sig) c (fun checked c' => c'.solver.Sound (.importing base sigs) ∧
      checked.name = sig.name ∧ checked.constraints = c'.constraints ∧
        checked.ClosedOver (·.BelongsTo checked.name)) fun _ _ => True := by
  unfold checkDeclared
  refine (checkSignature_ends henv hname hsig hc).andThen fun checked c₁ h => ?_
  obtain ⟨hsound, -, hchecked, hfits⟩ := h
  refine (Checker.checkUniverses_ends c₁).andThen fun _ c₂ heq => ?_
  subst heq
  exact ⟨hsound, hchecked, rfl, hfits.closed.params, hfits.closed.result⟩

theorem ends_visible {Q : Declarations → Checker → Prop} {E : CheckError → Checker → Prop} :
    Ends (visible outer) c Q E ↔ Q (c.own.append outer) c := Iff.rfl

theorem declareOwn_ends (hsig : sig.Fits sigs) (hc : c.Declaring outer base sigs) :
    Ends (declareOwn outer sig) c (fun _ c' => c'.Declaring outer base sigs ∧
      c'.own.signatures = sig :: c.own.signatures) fun _ _ => True := by
  unfold declareOwn
  rw [ends_bind, ends_visible]
  split
  · trivial
  · rename_i hnone
    rw [Option.not_isSome_iff_eq_none, Declarations.signature?_eq_none] at hnone
    refine ⟨⟨hc.sound, hc.fits.addSignature hsig, ?_, ?_⟩, rfl⟩
    · refine (distinctNames_singleton sig).append hc.distinct fun _ hmem other hother => ?_
      rw [List.mem_singleton.mp hmem]
      exact hnone other (List.mem_append_left _ hother)
    · refine List.forall_mem_cons.mpr ⟨?_, hc.fresh⟩
      rw [Declarations.signature?_eq_none]
      exact fun other hother => hnone other (List.mem_append_right _ hother)

theorem declareOwnConversion_ends (name : String) (hc : c.Declaring outer base sigs) :
    Ends (declareOwnConversion outer name) c (fun _ c' => c'.Declaring outer base sigs ∧
      c'.own.signatures = c.own.signatures) fun _ _ => True := by
  unfold declareOwnConversion
  rw [ends_bind, ends_visible, ends_bind, ends_holes]
  split
  · trivial
  · rename_i entry hentry
    exact ⟨⟨hc.sound, hc.fits.addConversion hentry, hc.distinct, hc.fresh⟩, rfl⟩

theorem checkBody_ends (hsig : sig.Fits sigs) (hname : ∀ other ∈ sigs, other.name ≠ sig.name)
    {body : Expr} (hbody : body.ClosedOver fun _ => False) (hc : c.Declaring outer base sigs) :
    Ends (checkBody outer sig body) c (fun _ c' => c'.Declaring outer base sigs ∧
      c'.own.signatures = c.own.signatures) fun _ _ => True := by
  unfold checkBody
  split
  · exact ⟨hc, rfl⟩
  · have hmade : ∀ (v : LevelVar) n, v.BelongsTo sig.name → v.Made (.importing base sigs) n :=
      made_of_belongsTo hname
    have hhyps : (sig.params.foldl (fun (hyps : Context) p => hyps.extend p.name p.type)
        {}).ClosedOver (·.BelongsTo sig.name) := by
      refine Context.ClosedOver.params (fun hyp hhyp => ?_) hsig.closed.params
      simp at hhyp
    have hcarries := elaborateTop_carries (L := .empty _ _ _) (hc.fits.within base)
      (fun n => hhyps.scoped .importing fun v => hmade v n)
      (fun n => hsig.closed.result.scoped .importing fun v => hmade v n)
      (hbody.scoped .importing fun v n hv => hv.elim) ⟨hc.sound, trivial⟩
    rw [ends_bind, ends_visible, ends_bind, ends_tryCatch]
    apply Ends.mono hcarries
    · intro r c' h
      exact ⟨hc.continues h.2 h.1.sound, congrArg Declarations.signatures h.2.own⟩
    · exact fun _ _ _ => trivial

theorem checkDeclaration_ends {d : Declaration} (hd : d.Closed)
    (hnames : ∀ sig, d.signature = some sig → ∀ other ∈ sigs, other.name ≠ sig.name)
    (hc : c.Declaring outer base sigs) :
    Ends (checkDeclaration outer d) c (fun checked c' => c'.Declaring outer base sigs ∧
      c'.own.signatures = checked.signature :: c.own.signatures ∧
        ∀ sig, d.signature = some sig → checked.signature.name = sig.name) fun _ _ => True := by
  unfold checkDeclaration
  split
  · trivial
  · rename_i sig hsig
    have hname := hnames sig hsig
    rw [ends_bind, ends_visible]
    refine (checkSignature_ends hc.fits hname (hd.signature sig hsig) hc.sound).andThen
      fun checked c₁ h => ?_
    obtain ⟨hsound₁, hstep₁, hchecked, hfits⟩ := h
    have hown₁ : c₁.own.signatures = c.own.signatures := congrArg _ hstep₁.own
    refine (declareOwn_ends hfits (hc.continues hstep₁ hsound₁)).andThen fun _ c₂ h => ?_
    obtain ⟨hc₂, hown₂⟩ := h
    -- The body is checked in the same way with the conversion and without it.
    have hbody : ∀ c₃ : Checker, c₃.Declaring outer base sigs →
        c₃.own.signatures = c₂.own.signatures → Ends (do
          let body ← checkBody outer checked d.body
          return (⟨checked, body, d.implicit⟩ : CheckedDeclaration)) c₃ (fun checked c' =>
            c'.Declaring outer base sigs ∧
            c'.own.signatures = checked.signature :: c.own.signatures ∧
            ∀ sig, d.signature = some sig → checked.signature.name = sig.name)
          fun _ _ => True := by
      intro c₃ hc₃ hown₃
      refine (checkBody_ends hfits (hchecked ▸ hname) hd.body hc₃).andThen fun body c₄ h => ?_
      refine ⟨h.1, ?_, fun other hother => ?_⟩
      · rw [h.2, hown₃, hown₂, hown₁]
      · rw [hchecked, Option.some.inj (hsig.symm.trans hother)]
    split
    · exact (declareOwnConversion_ends checked.name hc₂).andThen fun _ c₃ h => hbody c₃ h.1 h.2
    · exact hbody c₂ hc₂ rfl

/-- Each declaration adds its signature to those of the unit. -/
theorem mapM_checkDeclaration_ends {ds : List Declaration} (hds : ∀ d ∈ ds, d.Closed)
    (hnames : ∀ d ∈ ds, ∀ sig, d.signature = some sig → ∀ other ∈ sigs, other.name ≠ sig.name)
    (hc : c.Declaring outer base sigs) :
    Ends (ds.mapM (checkDeclaration outer)) c (fun checked c' => c'.Declaring outer base sigs ∧
      c.own.signatures ⊆ c'.own.signatures ∧
      (∀ d ∈ checked, d.signature ∈ c'.own.signatures) ∧
      ∀ d ∈ ds, ∀ sig, d.signature = some sig → ∃ d' ∈ checked, d'.signature.name = sig.name)
      fun _ _ => True := by
  induction ds generalizing c with
  | nil => exact ⟨hc, List.Subset.refl _, by simp, by simp⟩
  | cons d ds ih =>
    rw [List.mapM_cons]
    refine (checkDeclaration_ends (hds d (by simp)) (hnames d (by simp)) hc).andThen
      fun d' c₁ h => ?_
    obtain ⟨hc₁, hown, hname⟩ := h
    refine (ih (fun e he => hds e (by simp [he])) (fun e he => hnames e (by simp [he])) hc₁).andThen
      fun rest c₂ h => ?_
    obtain ⟨hc₂, hsub, hmem, hrest⟩ := h
    rw [hown, List.cons_subset] at hsub
    refine ⟨hc₂, hsub.2, List.forall_mem_cons.mpr ⟨hsub.1, hmem⟩, ?_⟩
    refine List.forall_mem_cons.mpr ⟨fun sig hsig => ⟨d', by simp, hname sig hsig⟩, ?_⟩
    intro e he sig hsig
    obtain ⟨e', he', heq⟩ := hrest e he sig hsig
    exact ⟨e', by simp [he'], heq⟩

/-- What is known of a unit that passed: its signatures have names that are new, and its constraints
are complete. -/
structure Passed (outer : Declarations) (sigs : List Signature) (unit : SourceUnit)
    (new : List Signature) (cs : List Constraint) : Prop where
  batch : Batch new cs
  fresh : ∀ sig ∈ new, outer.signature? sig.name = none
  named : ∀ d ∈ unit.declarations, ∀ sig, d.signature = some sig →
    ∃ other ∈ new, other.name = sig.name
  complete : Orderly sigs → Complete sigs cs

theorem checkDeclarations_ends {unit : SourceUnit} (hunit : unit.Closed)
    (hnames : ∀ d ∈ unit.declarations, ∀ sig, d.signature = some sig →
      ∀ other ∈ sigs, other.name ≠ sig.name) (hc : c.Declaring outer base sigs) :
    Ends (checkDeclarations outer unit) c
      (fun checked c' => Passed outer sigs unit checked.signatures c'.constraints)
      fun _ _ => True := by
  unfold checkDeclarations
  refine (mapM_checkDeclaration_ends hunit hnames hc).andThen fun checked c₁ h => ?_
  obtain ⟨hc₁, -, hmem, hnamed⟩ := h
  refine (Checker.checkUniverses_ends c₁).andThen fun _ c₂ heq => ?_
  subst heq
  rw [ends_bind, ends_get, ends_bind, ends_modify, ends_bind, ends_get, ends_pure]
  have hfits : ∀ d ∈ checked, d.signature.Fits sigs := fun d hd =>
    hc₁.fits.signature d.signature (List.mem_append_left _ (hmem d hd))
  refine ⟨⟨?_, ?_, ?_, Checker.constraints_proper hc₁.sound⟩, ?_, ?_,
    Checker.constraints_complete hc₁.sound⟩
  · exact List.forall_mem_map.mpr fun _ _ => rfl
  · exact List.forall_mem_map.mpr
      fun d hd => ⟨(hfits d hd).closed.params, (hfits d hd).closed.result⟩
  · refine List.forall_mem_map.mpr fun d hd => List.forall_mem_map.mpr fun d' hd' heq => ?_
    rw [hc₁.distinct d.signature (hmem d hd) d'.signature (hmem d' hd') heq]
  · exact List.forall_mem_map.mpr fun d hd => hc₁.fresh d.signature (hmem d hd)
  · intro d hd sig hsig
    obtain ⟨d', hd', heq⟩ := hnamed d hd sig hsig
    exact ⟨_, List.mem_map_of_mem hd', heq⟩

theorem checkUnit_ends {unit : SourceUnit} (hunit : unit.Closed)
    (hnames : ∀ d ∈ unit.declarations, ∀ sig, d.signature = some sig →
      ∀ other ∈ sigs, other.name ≠ sig.name) (hc : c.Declaring outer base sigs) :
    Ends (checkUnit outer unit) c
      (fun checked c' => Passed outer sigs unit checked.signatures c'.constraints)
      fun _ _ => True := by
  have hchecked : Ends (tryCatch (checkDeclarations outer unit) fun e => do
      modify fun c =>
        { c with
          failure := c.failure.or (some e)
          solver := { c.solver with levels := c.solver.levels.reset } }
      throw (.inUnit unit.name e)) c
      (fun checked c' => Passed outer sigs unit checked.signatures c'.constraints)
      fun _ _ => True := by
    rw [ends_tryCatch]
    exact (checkDeclarations_ends hunit hnames hc).mono (fun _ _ h => h) fun _ _ _ => trivial
  refine hchecked.andThen fun checked c₁ hpassed => ?_
  -- The record of events is apart from the constraints.
  rw [ends_bind, ends_get, ends_bind, note, ends_modify, ends_pure]
  split
  · exact hpassed
  · exact hpassed

end Check

def apartFrom (names : List String) (sigs : List Signature) : List Signature :=
  sigs.filter fun sig => sig.name ∉ names

theorem mem_apartFrom {names : List String} {sigs : List Signature} {sig : Signature} :
    sig ∈ apartFrom names sigs ↔ sig ∈ sigs ∧ sig.name ∉ names := by
  simp [apartFrom]

theorem apartFrom_subset (names : List String) (sigs : List Signature) :
    apartFrom names sigs ⊆ sigs := fun _ hsig => (mem_apartFrom.mp hsig).1

/-- Signatures that were checked together beside those declared by then: for whatever is declared
later under other names, their constraints are complete. -/
structure Group (declared new : List Signature) (cs : List Constraint) :
    Prop extends Batch new cs where
  complete : ∀ later, declared ⊆ later → Orderly later →
    Complete (apartFrom (new.map (·.name)) later) cs

namespace Group

variable {declared declared' new : List Signature} {cs : List Constraint}

theorem mono (h : Group declared new cs) (hsub : declared ⊆ declared') : Group declared' new cs :=
  { h with complete := fun later hlater => h.complete later (List.Subset.trans hsub hlater) }

end Group

namespace Check

variable {outer : Declarations} {c c' : Checker} {session : SessionId}

theorem group_of_checkDeclared (houter : outer.Coherent) {sig checked : Signature}
    (hsig : sig.ClosedOver fun _ => False)
    (hrun : (checkDeclared outer sig).run
      (c.start session (.forDecl sig.name)) = (.ok checked, c')) :
    Group outer.signatures [checked] checked.constraints := by
  have hends : ∀ later, outer.signatures ⊆ later → Orderly later →
      c'.solver.Sound (.importing c.solver.holes.size (apartFrom [sig.name] later)) ∧
      checked.name = sig.name ∧ checked.constraints = c'.constraints ∧
        checked.ClosedOver (·.BelongsTo checked.name) := by
    intro later hsub hlater
    have hname : ∀ other ∈ apartFrom [sig.name] later, other.name ≠ sig.name := by
      simp [mem_apartFrom]
    have hfits := (houter.fits later hsub hlater).anti (apartFrom_subset [sig.name] later)
    refine (checkDeclared_ends hfits hname hsig ?_).of_ok hrun
    exact c.solver.sound_start_importing _ rfl rfl fun _ => hname
  obtain ⟨hsound, hname, hconstraints, hclosed⟩ :=
    hends outer.signatures (List.Subset.refl _) houter.orderly
  refine ⟨⟨by simp, by simpa using hclosed, distinctNames_singleton checked, ?_⟩, ?_⟩
  · rw [hconstraints]
    exact Checker.constraints_proper hsound
  · intro later hsub hlater
    rw [hconstraints, List.map_singleton, hname]
    exact Checker.constraints_complete (hends later hsub hlater).1
      (hlater.anti (apartFrom_subset _ later))

theorem group_of_checkUnit (houter : outer.Coherent) {unit : SourceUnit} (hunit : unit.Closed)
    {checked : CheckedUnit}
    (hrun : (checkUnit outer unit).run
      (c.start session { owner := unit.name }) = (.ok checked, c')) :
    Group outer.signatures checked.signatures c'.constraints ∧
      ∀ sig ∈ checked.signatures, outer.signature? sig.name = none := by
  have hpassed : ∀ sigs, outer.Fits sigs → (∀ d ∈ unit.declarations, ∀ sig, d.signature = some sig →
      ∀ other ∈ sigs, other.name ≠ sig.name) →
      Passed outer sigs unit checked.signatures c'.constraints := by
    intro sigs hfits hnames
    have hstart :
        (c.start session { owner := unit.name }).Declaring outer c.solver.holes.size sigs :=
      ⟨c.solver.sound_start_importing sigs rfl rfl (by simp), hfits,
        fun _ h => by simp [Checker.start, Checker.reset] at h,
        fun _ h => by simp [Checker.start, Checker.reset] at h⟩
    exact (checkUnit_ends hunit hnames hstart).of_ok hrun
  have hfits := houter.fits outer.signatures (List.Subset.refl _) houter.orderly
  obtain ⟨hbatch, hfresh, hnamed, -⟩ := hpassed [] (hfits.anti (by simp)) (by simp)
  refine ⟨⟨hbatch, fun later hsub hlater => ?_⟩, hfresh⟩
  have hapart := apartFrom_subset (checked.signatures.map (·.name)) later
  refine (hpassed _ ((houter.fits later hsub hlater).anti hapart) ?_).complete (hlater.anti hapart)
  -- Each declaration of the unit has left a signature of its name.
  intro d hd sig hsig other hother heq
  obtain ⟨named, hmem, hname⟩ := hnamed d hd sig hsig
  exact (mem_apartFrom.mp hother).2 (List.mem_map.mpr ⟨named, hmem, hname.trans heq.symm⟩)

end Check

end Implicits
