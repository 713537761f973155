import Implicits.Proofs.Session.Unit
import Implicits.Session

/-!
Runs of a root session: signatures, reductions and conversions are declared, units are checked and
committed. What the session declares stays coherent, so that every check against it imports
constraints completely.
-/
namespace Implicits

open Term

namespace Declarations

variable {env : Declarations}

theorem append_empty (env : Declarations) : env.append {} = env := by
  simp [append]

theorem mem_signatures_foldl {new : List Signature} {sig : Signature} :
    sig ∈ (new.foldl addSignature env).signatures ↔ sig ∈ new ++ env.signatures := by
  induction new generalizing env with
  | nil => rfl
  | cons first new ih =>
    rw [List.foldl_cons, ih, List.mem_append, List.mem_append, addSignature]
    simp only [List.mem_cons]
    tauto

namespace Coherent

/-- Declarations stay coherent if no signatures are added. -/
theorem of_fits {env' : Declarations} (h : env.Coherent) (hsigs : env'.signatures = env.signatures)
    (hfits : ∀ sigs, env.Fits sigs → env'.Fits sigs) : env'.Coherent where
  orderly := hsigs ▸ h.orderly
  fits later hsub hlater := hfits later (h.fits later (hsigs ▸ hsub) hlater)

/-- Signatures that were checked together can be declared as long as their names are new. -/
theorem addSignatures (h : env.Coherent) {new : List Signature} {cs : List Constraint}
    (hnew : Group env.signatures new cs)
    (hfresh : ∀ sig ∈ new, env.signature? sig.name = none) :
    (new.foldl addSignature env).Coherent := by
  have hsub : (new.foldl addSignature env).signatures ⊆ new ++ env.signatures :=
    fun sig hsig => mem_signatures_foldl.mp hsig
  refine ⟨Orderly.anti ⟨?_, ?_⟩ hsub, fun later hlater horderly => ?_⟩
  · exact hnew.distinct.append h.orderly.distinct fun sig hsig =>
      signature?_eq_none.mp (hfresh sig hsig)
  · refine List.forall_mem_append.mpr ⟨fun sig hsig => ?_, h.orderly.proper⟩
    rw [hnew.shared sig hsig]
    exact hnew.proper
  · have hall : new ++ env.signatures ⊆ later := fun sig hsig =>
      hlater (mem_signatures_foldl.mpr hsig)
    rw [List.append_subset] at hall
    have hcomplete : Complete later cs := by
      intro sig hsig
      by_cases hname : sig.name ∈ new.map (·.name)
      · -- A signature of the group brings the constraints of the group.
        obtain ⟨other, hother, heq⟩ := List.mem_map.mp hname
        obtain rfl := horderly.distinct sig hsig other (hall.1 hother) heq
        rw [hnew.shared other hother]
        exact fun _ c hc => hc
      · exact hnew.complete later hall.2 horderly sig (mem_apartFrom.mpr ⟨hsig, hname⟩)
    refine (h.fits later hall.2 horderly).addSignatures
      fun sig hsig => ⟨hnew.closed sig hsig, ?_, ?_⟩
    · rwa [hnew.shared sig hsig]
    · exact fun other hother => horderly.distinct sig (hall.1 hsig) other hother

end Coherent

theorem coherent_primitives : Coherent { signatures := Prim.all.map Prim.signature } where
  orderly := by
    have hnames : ∀ p ∈ Prim.all, ∀ q ∈ Prim.all, q.name = p.name → q = p := by decide
    refine ⟨List.forall_mem_map.mpr fun p hp => List.forall_mem_map.mpr fun q hq heq => ?_,
      List.forall_mem_map.mpr fun p _ c hc => ?_⟩
    · rw [hnames p hp q hq heq]
    · simp [Prim.signature] at hc
  fits later hsub hlater := by
    refine ⟨fun sig hsig => ⟨?_, ?_, hlater.distinct sig (hsub hsig)⟩, by simp, by simp⟩
    · obtain ⟨p, -, rfl⟩ := List.mem_map.mp hsig
      exact ⟨by simp [Prim.signature], rfl, by simp [Prim.signature, Term.levels]⟩
    · obtain ⟨p, -, rfl⟩ := List.mem_map.mp hsig
      exact complete_nil later

end Declarations

namespace Sessions

variable {id : SessionId} {t t' : Sessions} {us : List CheckedUnit} {declared : List Signature}

theorem get_update (hid : id < t.table.size) (f : Session → Session) :
    (t.update id f).get id = f (t.get id) := by
  simp [get, update, hid, Array.getElem_modify]

structure Intact (id : SessionId) (declared : List Signature) (t : Sessions)
    (us : List CheckedUnit) :
    Prop where
  size : id < t.table.size
  ancestors : (t.get id).ancestors = []
  coherent : (t.get id).own.Coherent
  declared : declared ⊆ (t.get id).own.signatures
  units : ∀ unit ∈ us, ∃ cs, Group (t.get id).own.signatures unit.signatures cs

namespace Intact

theorem visible (h : t.Intact id declared us) : t.visible id = (t.get id).own := by
  rw [Sessions.visible, lineage, h.ancestors]
  exact Declarations.append_empty _

/-- A step that only adds to the declarations. -/
theorem update (h : t.Intact id declared us) {f : Session → Session}
    (hancestors : (f (t.get id)).ancestors = (t.get id).ancestors)
    (hcoherent : (f (t.get id)).own.Coherent)
    (hsub : (t.get id).own.signatures ⊆ (f (t.get id)).own.signatures) :
    (t.update id f).Intact id declared us := by
  have hget := get_update h.size f
  refine ⟨by simpa [Sessions.update] using h.size, ?_, ?_, ?_, ?_⟩
  · rw [hget, hancestors, h.ancestors]
  · rwa [hget]
  · rw [hget]
    exact List.Subset.trans h.declared hsub
  · intro unit hunit
    obtain ⟨cs, hcs⟩ := h.units unit hunit
    rw [hget]
    exact ⟨cs, hcs.mono hsub⟩

theorem create (t : Sessions) : (t.create none).2.Intact (t.create none).1 [] [] := by
  have hget : (t.create none).2.get (t.create none).1 =
      { own := { signatures := Prim.all.map Prim.signature } } := by
    simp [Sessions.create, get]
  refine ⟨by simp [Sessions.create], ?_, ?_, by simp, by simp⟩
  · rw [hget]
  · rw [hget]
    exact Declarations.coherent_primitives

theorem addSignatures (h : t.Intact id declared us) {new : List Signature} {cs : List Constraint}
    (hnew : Group (t.get id).own.signatures new cs)
    (hfresh : ∀ sig ∈ new, (t.visible id).signature? sig.name = none) :
    (t.update id fun s => { s with own := new.foldl .addSignature s.own }).Intact id
      declared us := by
  rw [h.visible] at hfresh
  refine h.update rfl (h.coherent.addSignatures hnew hfresh) fun sig hsig => ?_
  exact Declarations.mem_signatures_foldl.mpr (List.mem_append_right _ hsig)

end Intact

/-- A signature is declared after a check of its own, if its name is new. -/
theorem declare_eq_ok {h : Holes} {sig checked : Signature}
    (hdeclare : t.declare id sig h = .ok (checked, t')) :
    (∃ c', t.checkDeclared id sig h = (.ok checked, c')) ∧
    (t.visible id).signature? checked.name = none ∧
    t' = t.update id fun s => { s with own := s.own.addSignature checked } := by
  unfold declare at hdeclare
  rcases hrun : t.checkDeclared id sig h with ⟨_ | found, c'⟩
  · simp [hrun, bind, Except.bind] at hdeclare
  · simp only [hrun, bind, Except.bind] at hdeclare
    split at hdeclare
    · simp [throw, throwThe, MonadExceptOf.throw] at hdeclare
    · rename_i hnone
      obtain ⟨rfl, rfl⟩ := Prod.mk.inj (Except.ok.inj hdeclare)
      exact ⟨⟨c', rfl⟩, Option.not_isSome_iff_eq_none.mp hnone, rfl⟩

theorem defineReduction_eq_ok {name : String} {r : Reduction}
    (hdefine : t.defineReduction id name r = .ok t') :
    t' = t.update id fun s => { s with own := s.own.addReduction name r } := by
  unfold defineReduction at hdefine
  split at hdefine
  · simp at hdefine
  · exact (Except.ok.inj hdefine).symm

/-- What each conversion keeps is kept by declaring several of them, however far that gets. -/
theorem declareConversions_induct {P : Sessions → Prop} {h : Holes}
    (hstep : ∀ {t t' : Sessions} {name : String} {conversion : Conversion}, P t →
      t.declareConversion id name h = .ok (conversion, t') → P t')
    (ht : P t) (names : List String) : P (t.declareConversions id h names).2 := by
  induction names generalizing t with
  | nil => exact ht
  | cons name names ih =>
    rw [declareConversions]
    split
    · exact ht
    · rename_i hdeclare
      exact ih (hstep ht hdeclare)

/-- A commit is refused, or adds the signatures, which are new, then conversions as far as it gets,
and at the end the name and the directives of the unit. -/
theorem commit_induct {P : Sessions → Prop} {unit : CheckedUnit} {h : Holes} (ht : P t)
    (hsigs : (∀ sig ∈ unit.signatures, (t.visible id).signature? sig.name = none) →
      P (t.update id fun s => { s with own := unit.signatures.foldl .addSignature s.own }))
    (hstep : ∀ {t t' : Sessions} {name : String} {conversion : Conversion}, P t →
      t.declareConversion id name h = .ok (conversion, t') → P t')
    (hmark : ∀ {t : Sessions}, P t → P (t.update id fun s =>
      { s with directives := s.directives ++ unit.directives, units := unit.name :: s.units })) :
    P (t.commit id unit h).2 := by
  unfold commit
  split
  · exact ht
  · dsimp only
    split
    · exact ht
    · rename_i hnone
      have hconversions := declareConversions_induct hstep (hsigs (by simpa using hnone))
        unit.conversions
      split
      · rename_i hrun
        simpa [hrun] using hconversions
      · rename_i hrun
        simp only [hrun] at hconversions
        exact hmark hconversions

namespace Intact

theorem group_of_declare (h : t.Intact id declared us) {holes : Holes} {sig checked : Signature}
    (hsig : sig.ClosedOver fun _ => False) (hdeclare : t.declare id sig holes = .ok (checked, t')) :
    Group (t.get id).own.signatures [checked] checked.constraints := by
  obtain ⟨⟨c', hrun⟩, -⟩ := declare_eq_ok hdeclare
  rw [checkDeclared, h.visible] at hrun
  exact Check.group_of_checkDeclared h.coherent hsig hrun

theorem declare (h : t.Intact id declared us) {holes : Holes} {sig checked : Signature}
    (hsig : sig.ClosedOver fun _ => False) (hdeclare : t.declare id sig holes = .ok (checked, t')) :
    t'.Intact id declared us := by
  obtain ⟨-, hnone, rfl⟩ := declare_eq_ok hdeclare
  exact h.addSignatures (h.group_of_declare hsig hdeclare) (by simpa using hnone)

theorem defineReduction (h : t.Intact id declared us) {name : String} {r : Reduction}
    (hr : r.ClosedOver fun _ => False) (hdefine : t.defineReduction id name r = .ok t') :
    t'.Intact id declared us := by
  obtain rfl := defineReduction_eq_ok hdefine
  exact h.update rfl (h.coherent.of_fits rfl fun _ hfits => hfits.addReduction name hr)
    (List.Subset.refl _)

theorem declareConversion (h : t.Intact id declared us) {holes : Holes} {name : String}
    {conversion : Conversion}
    (hdeclare : t.declareConversion id name holes = .ok (conversion, t')) :
    t'.Intact id declared us := by
  unfold Sessions.declareConversion at hdeclare
  rw [h.visible] at hdeclare
  split at hdeclare
  · simp at hdeclare
  · rename_i entry hentry
    obtain ⟨-, rfl⟩ := Prod.mk.inj (Except.ok.inj hdeclare)
    refine h.update rfl (h.coherent.of_fits rfl fun sigs hfits => ?_) (List.Subset.refl _)
    rw [← Declarations.append_empty (t.get id).own] at hfits hentry
    rw [← Declarations.append_empty ((t.get id).own.addConversion entry)]
    exact hfits.addConversion hentry

theorem group_of_checkUnit (h : t.Intact id declared us) {c c' : Checker} {unit : SourceUnit}
    {checked : CheckedUnit} (hunit : unit.Closed)
    (hcheck : t.checkUnit id c unit = (.ok checked, c')) :
    Group (t.get id).own.signatures checked.signatures c'.constraints ∧
      ∀ sig ∈ checked.signatures, (t.get id).own.signature? sig.name = none := by
  unfold Sessions.checkUnit at hcheck
  rw [h.visible] at hcheck
  split at hcheck
  · simp at hcheck
  · split at hcheck
    · simp at hcheck
    · exact Check.group_of_checkUnit h.coherent hunit hcheck

theorem checkUnit (h : t.Intact id declared us) {c c' : Checker} {unit : SourceUnit}
    {checked : CheckedUnit} (hunit : unit.Closed)
    (hcheck : t.checkUnit id c unit = (.ok checked, c')) :
    t.Intact id declared (checked :: us) :=
  { h with
    units := List.forall_mem_cons.mpr ⟨⟨_, (h.group_of_checkUnit hunit hcheck).1⟩, h.units⟩ }

theorem commit (h : t.Intact id declared us) {unit : CheckedUnit} (hunit : unit ∈ us)
    (holes : Holes) : (t.commit id unit holes).2.Intact id declared us := by
  obtain ⟨cs, hgroup⟩ := h.units unit hunit
  refine commit_induct (P := fun t => t.Intact id declared us) h (h.addSignatures hgroup)
    (fun ht => ht.declareConversion) fun ht => ?_
  exact ht.update rfl ht.coherent (List.Subset.refl _)

end Intact

/-- One step of work on a session. Checked units are kept until they are committed. Work on other
sessions leaves the session as it is. -/
inductive Step (id : SessionId) : Sessions → List CheckedUnit → Sessions → List CheckedUnit → Prop
  | declare {t t' : Sessions} {us : List CheckedUnit} {h : Holes} {sig checked : Signature}
    (hsig : sig.ClosedOver fun _ => False) (hdeclare : t.declare id sig h = .ok (checked, t')) :
    Step id t us t' us
  | reduction {t t' : Sessions} {us : List CheckedUnit} {name : String} {r : Reduction}
    (hr : r.ClosedOver fun _ => False) (hdefine : t.defineReduction id name r = .ok t') :
    Step id t us t' us
  | conversion {t t' : Sessions} {us : List CheckedUnit} {h : Holes} {name : String}
    {conversion : Conversion} (hdeclare : t.declareConversion id name h = .ok (conversion, t')) :
    Step id t us t' us
  | check {t : Sessions} {us : List CheckedUnit} {c c' : Checker} {unit : SourceUnit}
    {checked : CheckedUnit} (hunit : unit.Closed)
    (hcheck : t.checkUnit id c unit = (.ok checked, c')) : Step id t us t (checked :: us)
  | commit {t : Sessions} {us : List CheckedUnit} {unit : CheckedUnit} (hunit : unit ∈ us)
    (h : Holes) : Step id t us (t.commit id unit h).2 us
  | elsewhere {t t' : Sessions} {us : List CheckedUnit} (hsize : t.table.size ≤ t'.table.size)
    (hget : t'.get id = t.get id) : Step id t us t' us

inductive Run (id : SessionId) : Sessions → List CheckedUnit → Prop
  | create {t : Sessions} (hid : (t.create none).1 = id) : Run id (t.create none).2 []
  | step {t t' : Sessions} {us us' : List CheckedUnit} (hrun : Run id t us)
    (hstep : Step id t us t' us') : Run id t' us'

theorem Intact.step {us' : List CheckedUnit} (h : t.Intact id declared us)
    (hstep : Step id t us t' us') :
    t'.Intact id declared us' := by
  cases hstep with
  | declare hsig hdeclare => exact h.declare hsig hdeclare
  | reduction hr hdefine => exact h.defineReduction hr hdefine
  | conversion hdeclare => exact h.declareConversion hdeclare
  | check hunit hcheck => exact h.checkUnit hunit hcheck
  | commit hunit holes => exact h.commit hunit holes
  | elsewhere hsize hget =>
    refine ⟨Nat.lt_of_lt_of_le h.size hsize, ?_, ?_, ?_, ?_⟩
    · rw [hget]
      exact h.ancestors
    · rw [hget]
      exact h.coherent
    · rw [hget]
      exact h.declared
    · rw [hget]
      exact h.units

theorem Run.intact (hrun : Run id t us) : t.Intact id [] us := by
  induction hrun with
  | @create t hid => exact hid ▸ Intact.create t
  | step _ hstep ih => exact ih.step hstep

/-- The states of a checker that was begun on the session, between its calls and the work on the
session. Calls may fail. -/
inductive Begun (id : SessionId) : Sessions → List CheckedUnit → Checker → Prop
  | start {t : Sessions} {us : List CheckedUnit} (hrun : Run id t us) (c : Checker)
    (owner : String) :
    Begun id t us (c.start id { owner })
  | step {t t' : Sessions} {us us' : List CheckedUnit} {c : Checker} (hc : Begun id t us c)
    (hstep : Step id t us t' us') : Begun id t' us' c
  | elaborate {t : Sessions} {us : List CheckedUnit} {c c' : Checker} {e : Expr} {hyps : Context}
    {expected : Term} {r : Except CheckError (Term × Term)} (hc : Begun id t us c)
    (he : e.ClosedOver fun _ => False) (hhyps : hyps.ClosedOver fun _ => False)
    (hexpected : expected.ClosedOver fun _ => False)
    (hrun : (Check.elaborateTop (t.environment c) e hyps expected).run c = (r, c')) :
    Begun id t us c'
  | resolve {t : Sessions} {us : List CheckedUnit} {c c' : Checker} {sig : Signature}
    {args : List (Arg Expr)} {hyps : Context} {expected : Term} {r : Except CheckError Resolved}
    (hc : Begun id t us c) (hsig : sig ∈ (t.visible id).signatures)
    (hargs : ∀ a ∈ args, a.value.ClosedOver fun _ => False)
    (hhyps : hyps.ClosedOver fun _ => False) (hexpected : expected.ClosedOver fun _ => False)
    (hrun : (Check.resolveTop (t.environment c) sig args hyps expected).run c = (r, c')) :
    Begun id t us c'
  | universes {t : Sessions} {us : List CheckedUnit} {c c' : Checker}
    {r : Except CheckError Assignment} (hc : Begun id t us c)
    (hrun : Check.checkUniverses.run c = (r, c')) : Begun id t us c'

/-- What is known of a begun checker: its constraints stay complete for whatever is declared in the
session. -/
structure Imports (id : SessionId) (t : Sessions) (base : Nat) (c : Checker) : Prop where
  session : c.session = some id
  own : c.own = {}
  sound : ∀ later, (t.get id).own.signatures ⊆ later → Orderly later →
    c.solver.Sound (.importing base later)

namespace Imports

variable {base : Nat} {c c' : Checker}

theorem complete (hc : Imports id t base c) (h : t.Intact id declared us) :
    Complete (t.visible id).signatures c.constraints := by
  rw [h.visible]
  exact Checker.constraints_complete (hc.sound _ (List.Subset.refl _) h.coherent.orderly)
    h.coherent.orderly

theorem start (t : Sessions) (c : Checker) (owner : String) :
    Imports id t c.solver.holes.size (c.start id { owner }) where
  session := rfl
  own := rfl
  sound later _ _ := c.solver.sound_start_importing later rfl rfl (by simp)

/-- Work on the session makes room for more. -/
theorem step {us' : List CheckedUnit} (hc : Imports id t base c) (h : t.Intact id declared us)
    (hstep : Step id t us t' us') : Imports id t' base c := by
  have hnow : t.Intact id (t.get id).own.signatures us := { h with declared := List.Subset.refl _ }
  refine { hc with sound := fun later hsub => hc.sound later ?_ }
  exact List.Subset.trans (hnow.step hstep).declared hsub

/-- A call that carries a sound state along keeps the constraints complete. -/
theorem carry (hc : Imports id t base c) (h : t.Intact id declared us) (outer : Context) {α : Type}
    {x : Check α} {r : Except CheckError α}
    (hx : ∀ later, (t.get id).own.Fits later → c.solver.Sound (.importing base later) →
      (Ledger.empty (t.environment c) (.importing base later) outer).Carries x c)
    (hrun : x.run c = (r, c')) : Imports id t base c' := by
  have hafter : ∀ later, (t.get id).own.signatures ⊆ later → Orderly later →
      c'.solver.Sound (.importing base later) ∧ c.Continues c' := by
    intro later hsub hlater
    have hvalid :=
      (hx later (h.coherent.fits later hsub hlater) (hc.sound later hsub hlater)).of_run
      hrun
    exact ⟨hvalid.1.sound, hvalid.2⟩
  have hstep := (hafter _ (List.Subset.refl _) h.coherent.orderly).2
  exact ⟨hstep.session.trans hc.session, hstep.own.trans hc.own,
    fun later hsub hlater => (hafter later hsub hlater).1⟩

theorem environment (hc : Imports id t base c) (h : t.Intact id declared us) :
    t.environment c = (t.get id).own := by
  rw [Sessions.environment, hc.session, hc.own, ← h.visible]
  rfl

end Imports

theorem Begun.run {c : Checker} (hc : Begun id t us c) : Run id t us := by
  induction hc with
  | start hrun => exact hrun
  | step _ hstep ih => exact ih.step hstep
  | elaborate _ _ _ _ _ ih => exact ih
  | resolve _ _ _ _ _ _ ih => exact ih
  | universes _ _ ih => exact ih

/-- Every call in a begun checker, whether it succeeds or fails, leaves complete constraints. -/
theorem Begun.imports {c : Checker} (hc : Begun id t us c) : ∃ base, Imports id t base c := by
  induction hc with
  | @start t _ _ c owner => exact ⟨c.solver.holes.size, .start t c owner⟩
  | step hc hstep ih =>
    obtain ⟨base, ih⟩ := ih
    exact ⟨base, ih.step hc.run.intact hstep⟩
  | @elaborate _ _ _ _ _ hyps _ _ hc he hhyps hexpected hrun ih =>
    obtain ⟨base, ih⟩ := ih
    have h := hc.run.intact
    refine ⟨base, ih.carry h hyps (fun later hfits hsound => ?_) hrun⟩
    rw [← ih.environment h] at hfits
    exact Check.elaborateTop_carries (hfits.within base)
      (fun n => hhyps.scoped .importing fun _ hv => hv.elim)
      (fun n => hexpected.scoped .importing fun _ hv => hv.elim)
      (he.scoped .importing fun _ _ hv => hv.elim) ⟨hsound, trivial⟩
  | @resolve _ _ _ _ _ _ hyps _ _ hc hsig hargs hhyps hexpected hrun ih =>
    obtain ⟨base, ih⟩ := ih
    have h := hc.run.intact
    rw [h.visible] at hsig
    refine ⟨base, ih.carry h hyps (fun later hfits hsound => ?_) hrun⟩
    have hwithin := (hfits.signature _ hsig).within base
    rw [← ih.environment h] at hfits
    exact Check.resolveTop_carries (hfits.within base)
      (fun n => hhyps.scoped .importing fun _ hv => hv.elim)
      (fun n => hexpected.scoped .importing fun _ hv => hv.elim) hwithin
      (fun a ha => (hargs a ha).scoped .importing fun _ _ hv => hv.elim) ⟨hsound, trivial⟩
  | @universes _ _ c _ _ hc hrun ih =>
    obtain ⟨base, ih⟩ := ih
    refine ⟨base, ih.carry hc.run.intact {} (fun later _ hsound => ?_) hrun⟩
    apply Ends.mono (Checker.checkUniverses_ends c)
    · intro _ c' heq
      rw [heq]
      exact ⟨⟨hsound, trivial⟩, .refl c⟩
    · intro _ c' hstep
      exact ⟨⟨hstep.1 ▸ hsound, trivial⟩, hstep.2⟩

def boxSignature : Signature where
  name := "Box"
  params := [⟨"A", .sort (.unassigned 0), .explicit, none⟩]
  result := .sort (.unassigned 1)

def packSignature : Signature where
  name := "pack"
  params := [⟨"A", .sort (.unassigned 0), .implicit, none⟩, ⟨"x", .bound "A", .explicit, none⟩]
  result := .app (.const "Box") [.bound "A"]

def packUnit : SourceUnit :=
  { name := "lib", declarations := [{ signature := some packSignature }] }

def elaborated (t : Sessions) (c : Checker) (owner : String) (e : Expr) (hyps : Context)
    (expected : Term) : Except CheckError (Term × Term) × Checker :=
  (Check.elaborateTop (t.environment (c.start 0 { owner })) e hyps expected).run
    (c.start 0 { owner })

end Sessions

end Implicits
