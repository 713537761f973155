import Implicits.Proofs.Session.Commit
import Implicits.Proofs.Session.Naming

/-!
Level variables of different checks stay apart. No counter is shared between checks: a variable is
told from the others by the name of the unit or declaration that it belongs to, by which of the two
that is, and by a number that its store gives only once. A store writes down every variable that it
hands out, and nothing strikes one out again, so that its log at the end of a check tells all that
the check has got. Names of units and of declarations are refused when they come again. So the logs
of two checks whose outcome is accepted have nothing in common, in whatever order things are
checked, dropped, declared and committed.
-/
namespace Implicits

open Term

namespace Solve

/-- A new level is the variable that the store writes down. -/
theorem freshLevel_issued (s : Solver) : ∃ v s', freshLevel.run s = (.ok (.var v), s') ∧
    s'.levels.issued = v :: s.levels.issued :=
  ⟨_, _, rfl, rfl⟩

/-- What has been handed out in an attempt stays written down, also when it is undone. -/
theorem attempt_issued {α : Type} (x : Solve α) (s : Solver) :
    ((attempt x).run s).2.levels.issued = (x.run s.speculate).2.levels.issued := by
  rw [run_attempt]
  rcases x.run s.speculate with ⟨_ | _, s'⟩
  · rfl
  · rfl

end Solve

/-- The universes of a term are named by the variables that the store writes down. -/
theorem Term.assignLevels_issued (decl : String) (t : Term) (store : LevelStore) :
    ∃ vars, t.Named vars ((t.assignLevels decl).run store).1 ∧
      ((t.assignLevels decl).run store).2.issued.Perm (vars ++ store.issued) := by
  obtain ⟨vars, hnamed, hdrawn, hcount⟩ := t.assignLevels_named decl store
  refine ⟨vars, hnamed, (hdrawn.issued.perm_of_length_le ?_).symm⟩
  rw [List.length_append, hcount]

namespace Check

variable {env outer : Declarations} {c : Checker} {sig : Signature} {decls : List String}

/-- A checked signature has only level variables that have been handed out. -/
theorem checkSignature_issued (hsig : sig.LevelsIn fun _ => False) (c : Checker) :
    Ends (checkSignature env sig) c (fun checked c' => checked.name = sig.name ∧
      checked.LevelsIn (· ∈ c'.solver.levels.issued)) fun _ _ => True := by
  refine (checkSignature_names sig c).mono (fun checked c' h => ?_) fun _ _ _ => trivial
  obtain ⟨vars, hnamed, hdrawn⟩ := h
  have hlevels : checked.LevelsIn (· ∈ c'.solver.levels.issued) :=
    hnamed.levelsIn (hsig.mono fun _ hv => hv.elim) fun v hv =>
      hdrawn.issued.subset (List.mem_append_left _ hv)
  obtain ⟨-, -⟩ := hnamed
  exact ⟨rfl, hlevels⟩

theorem checkDeclared_issued (hsig : sig.LevelsIn fun _ => False) (c : Checker) :
    Ends (checkDeclared env sig) c (fun checked c' => checked.name = sig.name ∧
      checked.LevelsIn (· ∈ c'.solver.levels.issued)) fun _ _ => True := by
  refine (checkSignature_issued hsig c).andThen fun checked c₁ h₁ => ?_
  refine (Checker.checkUniverses_ends c₁).andThen fun _ c₂ h₂ => ?_
  subst h₂
  obtain ⟨hname, hlevels⟩ := h₁
  exact ⟨hname, hlevels.types, hlevels.values, hlevels.result⟩

theorem checkDeclared_supplying (env : Declarations) (sig : Signature) :
    Supplying [sig.name] (checkDeclared env sig) :=
  .bind (.of_advance (checkSignature_advance List.mem_cons_self)) fun _ =>
    .bind (.of_advance checkUniverses_advance) fun _ =>
      .bind (.of_advance .get) fun _ => .of_advance (.pure _)

/-- The declarations of a unit get level variables that have been handed out. -/
theorem checkDeclaration_issued {d : Declaration}
    (hd : ∀ sig, d.signature = some sig → sig.LevelsIn fun _ => False) (c : Checker) :
    Ends (checkDeclaration outer d) c (fun checked c' =>
      d.signature.map (·.name) = some checked.signature.name ∧
      checked.signature.LevelsIn (· ∈ c'.solver.levels.issued)) fun _ _ => True := by
  unfold checkDeclaration
  split
  · trivial
  · rename_i sig hsig
    rw [ends_bind, ends_visible]
    refine (checkSignature_issued (hd sig hsig) c).andThen fun checked c₁ h₁ => ?_
    obtain ⟨hname, hlevels⟩ := h₁
    -- What follows only adds to the store, with the conversion and without it.
    have hbody : ∀ c₂ : Checker, c₁.Supplies [] c₂ → Ends (do
          let body ← checkBody outer checked d.body
          return (⟨checked, body, d.implicit⟩ : CheckedDeclaration)) c₂ (fun checked c' =>
            d.signature.map (·.name) = some checked.signature.name ∧
            checked.signature.LevelsIn (· ∈ c'.solver.levels.issued)) fun _ _ => True := by
      intro c₂ h₂
      have hsteps : Supplying [] (checkBody outer checked d.body) :=
        .of_advance (checkBody_advance outer checked d.body)
      refine (hsteps c₂).andThen fun body c₃ h₃ => ⟨by rw [hsig, hname]; rfl, ?_⟩
      exact hlevels.mono fun v hv => (h₂.trans h₃).issued.subset hv
    have hown : Supplying [] (declareOwn outer checked) := declareOwn_supplying outer checked
    have hconversion : Supplying [] (declareOwnConversion outer checked.name) :=
      declareOwnConversion_supplying outer checked.name
    refine (hown c₁).andThen fun _ c₂ h₂ => ?_
    split
    · exact (hconversion c₂).andThen fun _ c₃ h₃ => hbody c₃ (h₂.trans h₃)
    · exact hbody c₂ h₂

theorem mapM_checkDeclaration_issued {ds : List Declaration}
    (hnames : ∀ d ∈ ds, ∀ sig, d.signature = some sig → sig.name ∈ decls)
    (hds : ∀ d ∈ ds, ∀ sig, d.signature = some sig → sig.LevelsIn fun _ => False) (c : Checker) :
    Ends (ds.mapM (checkDeclaration outer)) c (fun checked c' =>
      checked.map (·.signature.name) = ds.filterMap (fun d => d.signature.map (·.name)) ∧
      ∀ d ∈ checked, d.signature.LevelsIn (· ∈ c'.solver.levels.issued)) fun _ _ => True := by
  induction ds generalizing c with
  | nil => exact ⟨rfl, by simp⟩
  | cons d ds ih =>
    obtain ⟨-, hnames⟩ := List.forall_mem_cons.mp hnames
    obtain ⟨hd, hds⟩ := List.forall_mem_cons.mp hds
    rw [List.mapM_cons]
    refine (checkDeclaration_issued hd c).andThen fun d' c₁ h₁ => ?_
    obtain ⟨hname, hlevels⟩ := h₁
    have hsteps : Supplying decls (ds.mapM (checkDeclaration outer)) :=
      .mapM fun e he => checkDeclaration_supplying (hnames e he)
    refine ((ih hnames hds c₁).and (hsteps c₁)).andThen fun rest c₂ h₂ => ?_
    obtain ⟨⟨hrestNames, hrest⟩, hsupplies⟩ := h₂
    refine ⟨?_, List.forall_mem_cons.mpr ⟨?_, hrest⟩⟩
    · simp only [List.map_cons, List.filterMap_cons, hname, hrestNames]
    · exact hlevels.mono fun v hv => hsupplies.issued.subset hv

structure LevelsOwned (unit : SourceUnit) (checked : CheckedUnit) (c' : Checker) : Prop where
  name : checked.name = unit.name
  names : checked.signatures.map (·.name) = unit.names
  levels : ∀ sig ∈ checked.signatures, sig.LevelsIn (· ∈ c'.solver.levels.issued)

theorem checkUnit_levelsOwned {unit : SourceUnit}
    (hunit : ∀ d ∈ unit.declarations, ∀ sig, d.signature = some sig → sig.LevelsIn fun _ => False)
    (c : Checker) : Ends (checkUnit outer unit) c (LevelsOwned unit) fun _ _ => True := by
  have hdeclarations : Ends (checkDeclarations outer unit) c (LevelsOwned unit)
      fun _ _ => True := by
    unfold checkDeclarations
    refine (mapM_checkDeclaration_issued (fun d hd sig => SourceUnit.mem_names hd) hunit c).andThen
      fun checked c₁ h₁ => ?_
    obtain ⟨hnames, hlevels⟩ := h₁
    refine (Checker.checkUniverses_ends c₁).andThen fun _ c₂ h₂ => ?_
    subst h₂
    rw [ends_bind, ends_get, ends_bind, ends_modify, ends_bind, ends_get, ends_pure]
    refine ⟨rfl, ?_, List.forall_mem_map.mpr fun d hd => ?_⟩
    · simpa [Function.comp_def, SourceUnit.names] using hnames
    · exact ⟨(hlevels d hd).types, (hlevels d hd).values, (hlevels d hd).result⟩
  refine ends_bind.mpr
    (ends_tryCatch.mpr (hdeclarations.mono (fun checked c₁ h => ?_) fun _ _ _ => trivial))
  rw [ends_bind, ends_get, ends_bind, note, ends_modify, ends_pure]
  split
  · exact ⟨h.name, h.names, h.levels⟩
  · exact h

end Check

/-- A check: all variables that it has got from its store, latest first, and the signatures that
come out. -/
structure CheckingRun where
  issued : List LevelVar
  signatures : List Signature

structure CheckingRun.Proper (r : CheckingRun) : Prop where
  distinct : r.issued.Nodup
  levels : ∀ sig ∈ r.signatures, sig.LevelsIn (· ∈ r.issued)

def CheckedUnit.Owns (unit : CheckedUnit) (v : LevelVar) : Prop :=
  v.owner = unit.name ∧ v.ofDecl = false ∨
    ∃ sig ∈ unit.signatures, v.owner = sig.name ∧ v.ofDecl = true

theorem LevelStore.Draws.nodup {decls : List String} {s s' : LevelStore} (h : s.Draws decls s')
    (hs : s.issued = []) : s'.issued.Nodup := by
  refine (h.numbered ?_).nodup
  rw [hs]
  trivial

/-- All variables of a store that began without any are named as the store may name them. -/
theorem LevelStore.Draws.names_of_nil {decls : List String} {s s' : LevelStore}
    (h : s.Draws decls s') (hs : s.issued = []) {v : LevelVar} (hv : v ∈ s'.issued) :
    s.Names decls v.owner v.ofDecl := by
  refine (h.names v hv).resolve_left ?_
  rw [hs]
  exact List.not_mem_nil

namespace Sessions

variable {t t' : Sessions} {id : SessionId} {us : List (CheckedUnit × CheckingRun)}
  {accepted : List CheckingRun}

/-- What a check of a signature hands out. -/
theorem checkDeclared_draws (t : Sessions) (id : SessionId) (sig : Signature) (h : Holes) :
    (LevelStore.forDecl sig.name).Draws [sig.name] (t.checkDeclared id sig h).2.solver.levels := by
  rcases hrun : t.checkDeclared id sig h with ⟨r, c'⟩
  exact ((Check.checkDeclared_supplying (t.visible id) sig).of_run hrun).draws

/-- What a check of a unit hands out. -/
theorem checkUnit_draws (t : Sessions) (id : SessionId) (c : Checker) {unit : SourceUnit}
    (hname : unit.name ≠ "") (hnew : t.hasUnit id unit.name = false) :
    LevelStore.Draws unit.names { owner := unit.name } (t.checkUnit id c unit).2.solver.levels := by
  rcases hrun : t.checkUnit id c unit with ⟨r, c'⟩
  simp only [checkUnit, if_neg hname, hnew, Bool.false_eq_true, if_false] at hrun
  exact ((Check.checkUnit_supplying (t.visible id) unit).of_run hrun).draws

/-- Work on a root session, in any order: signatures are declared, units are checked, and units that
passed are committed, dropped or refused. A declaration or a check that fails changes nothing. With
the units that passed go the checks that they come from; a check is accepted when its signature is
declared or its unit committed. The tables of holes may be any. -/
inductive History (id : SessionId) :
    Sessions → List (CheckedUnit × CheckingRun) → List CheckingRun → Prop
  | create {t : Sessions} (ht : t.Reached) (hid : (t.create none).1 = id) :
    History id (t.create none).2 [] []
  | declare {t t' : Sessions} {us : List (CheckedUnit × CheckingRun)} {accepted : List CheckingRun}
    {sig checked : Signature} {holes : Holes} {c' : Checker} (h : History id t us accepted)
    (hsig : sig.LevelsIn fun _ => False) (hrun : t.checkDeclared id sig holes = (.ok checked, c'))
    (hdeclare : t.declare id sig holes = .ok (checked, t')) :
    History id t' us (⟨c'.solver.levels.issued, [checked]⟩ :: accepted)
  | check {t : Sessions} {us : List (CheckedUnit × CheckingRun)} {accepted : List CheckingRun}
    {c c' : Checker} {unit : SourceUnit} {checked : CheckedUnit} (h : History id t us accepted)
    (hunit : ∀ d ∈ unit.declarations, ∀ sig, d.signature = some sig → sig.LevelsIn fun _ => False)
    (hcheck : t.checkUnit id c unit = (.ok checked, c')) :
    History id t ((checked, ⟨c'.solver.levels.issued, checked.signatures⟩) :: us) accepted
  | commit {t t' : Sessions} {us : List (CheckedUnit × CheckingRun)} {accepted : List CheckingRun}
    {unit : CheckedUnit} {r : CheckingRun} {holes : Holes} (h : History id t us accepted)
    (hunit : (unit, r) ∈ us) (hcommit : t.commit id unit holes = (.ok (), t')) :
    History id t' us (r :: accepted)
  | refuse {t t' : Sessions} {us : List (CheckedUnit × CheckingRun)} {accepted : List CheckingRun}
    {unit : CheckedUnit} {r : CheckingRun} {holes : Holes} {e : CheckError}
    (h : History id t us accepted) (hunit : (unit, r) ∈ us)
    (hcommit : t.commit id unit holes = (.error e, t')) : History id t' us accepted

def Taken (t : Sessions) (id : SessionId) (v : LevelVar) : Prop :=
  if v.ofDecl then ∃ sig ∈ (t.get id).own.signatures, sig.name = v.owner
  else v.owner ∈ (t.get id).units

/-- What is known of a root session and of the checks made for it. Accepted checks have taken the
names of their variables, each before any other. -/
structure Kept (id : SessionId) (t : Sessions) (us : List (CheckedUnit × CheckingRun))
    (accepted : List CheckingRun) : Prop where
  rooted : t.Rooted
  size : id < t.table.size
  ancestors : (t.get id).ancestors = []
  convertible : ∀ u ∈ us, u.1.Convertible
  checked : ∀ u ∈ us, u.2.Proper ∧ ∀ v ∈ u.2.issued, u.1.Owns v
  proper : ∀ r ∈ accepted, r.Proper
  taken : ∀ r ∈ accepted, ∀ v ∈ r.issued, t.Taken id v
  apart : accepted.Pairwise fun r r' => r.issued.Disjoint r'.issued

namespace Kept

theorem visible (h : Kept id t us accepted) : t.visible id = (t.get id).own := by
  rw [Sessions.visible, lineage, h.ancestors]
  exact Declarations.append_empty _

theorem not_taken_of_signature? (h : Kept id t us accepted) {v : LevelVar} (hv : v.ofDecl = true)
    (hname : (t.visible id).signature? v.owner = none) : ¬ t.Taken id v := by
  rw [h.visible, Declarations.signature?_eq_none] at hname
  rw [Taken, if_pos hv]
  rintro ⟨sig, hsig, heq⟩
  exact hname sig hsig heq

theorem not_taken_of_hasUnit (h : Kept id t us accepted) {v : LevelVar} (hv : v.ofDecl = false)
    (hname : t.hasUnit id v.owner = false) : ¬ t.Taken id v := by
  simpa [hasUnit, lineage, h.ancestors, Taken, hv] using hname

/-- A step that takes nothing out of the session. -/
theorem update (h : Kept id t us accepted) {f : Session → Session}
    (hrooted : (t.update id f).Rooted)
    (hancestors : (f (t.get id)).ancestors = (t.get id).ancestors)
    (hsigs : (t.get id).own.signatures ⊆ (f (t.get id)).own.signatures)
    (hunits : (t.get id).units ⊆ (f (t.get id)).units) : Kept id (t.update id f) us accepted := by
  have hmono : ∀ v, t.Taken id v → (t.update id f).Taken id v := by
    intro v hv
    unfold Taken at hv ⊢
    rw [get_update h.size]
    cases hdecl : v.ofDecl with
    | true =>
      rw [hdecl] at hv
      obtain ⟨sig, hsig, hname⟩ := hv
      exact ⟨sig, hsigs hsig, hname⟩
    | false =>
      rw [hdecl] at hv
      exact hunits hv
  refine { h with
    rooted := hrooted
    size := by simpa [Sessions.update] using h.size
    ancestors := by rw [get_update h.size, hancestors, h.ancestors]
    taken := fun r hr v hv => hmono v (h.taken r hr v hv) }

/-- A check is accepted if the names of its variables are taken by that. -/
theorem accept (h : Kept id t us accepted) {r : CheckingRun} (hr : r.Proper)
    (h' : Kept id t' us accepted) (hnew : ∀ v ∈ r.issued, ¬ t.Taken id v)
    (htaken : ∀ v ∈ r.issued, t'.Taken id v) : Kept id t' us (r :: accepted) :=
  { h' with
    proper := List.forall_mem_cons.mpr ⟨hr, h'.proper⟩
    taken := List.forall_mem_cons.mpr ⟨htaken, h'.taken⟩
    apart := List.pairwise_cons.mpr
      ⟨fun r' hr' v hv hv' => hnew v hv (h.taken r' hr' v hv'), h'.apart⟩ }

theorem create (ht : t.Reached) : Kept (t.create none).1 (t.create none).2 [] [] := by
  refine ⟨ht.rooted.create (by simp), by simp [Sessions.create], ?_, by simp, by simp, by simp,
    by simp, .nil⟩
  exact congrArg Session.ancestors (get_create_self t none)

theorem declare (h : Kept id t us accepted) {sig checked : Signature} {holes : Holes} {c' : Checker}
    (hsig : sig.LevelsIn fun _ => False) (hrun : t.checkDeclared id sig holes = (.ok checked, c'))
    (hdeclare : t.declare id sig holes = .ok (checked, t')) :
    Kept id t' us (⟨c'.solver.levels.issued, [checked]⟩ :: accepted) := by
  have hdraws := t.checkDeclared_draws id sig holes
  rw [hrun] at hdraws
  obtain ⟨hname, hlevels⟩ := (Check.checkDeclared_issued hsig _).of_ok hrun
  have hrooted := h.rooted.declare hdeclare
  obtain ⟨-, hnone, rfl⟩ := declare_eq_ok hdeclare
  have hnames : ∀ v ∈ c'.solver.levels.issued, v.owner = checked.name ∧ v.ofDecl = true := by
    intro v hv
    have hnamed := hdraws.names_of_nil rfl hv
    rw [hname]
    simpa [LevelStore.Names, LevelStore.forDecl] using hnamed
  refine h.accept ⟨hdraws.nodup rfl, List.forall_mem_singleton.mpr hlevels⟩
    (h.update hrooted rfl (List.subset_cons_self _ _) (List.Subset.refl _)) ?_ ?_
  · intro v hv
    obtain ⟨howner, hdecl⟩ := hnames v hv
    exact h.not_taken_of_signature? hdecl (howner ▸ hnone)
  · intro v hv
    obtain ⟨howner, hdecl⟩ := hnames v hv
    simp [Taken, hdecl, howner, get_update h.size, Declarations.addSignature]

theorem check (h : Kept id t us accepted) {c c' : Checker} {unit : SourceUnit}
    {checked : CheckedUnit}
    (hunit : ∀ d ∈ unit.declarations, ∀ sig, d.signature = some sig → sig.LevelsIn fun _ => False)
    (hcheck : t.checkUnit id c unit = (.ok checked, c')) :
    Kept id t ((checked, ⟨c'.solver.levels.issued, checked.signatures⟩) :: us) accepted := by
  have hconvertible := checkUnit_convertible hcheck
  obtain ⟨hname, hnew, hrun⟩ := checkUnit_eq_ok hcheck
  have howned := (Check.checkUnit_levelsOwned hunit _).of_ok hrun
  have hdraws := t.checkUnit_draws id c hname hnew
  rw [hcheck] at hdraws
  refine { h with
    convertible := List.forall_mem_cons.mpr ⟨hconvertible, h.convertible⟩
    checked := List.forall_mem_cons.mpr
      ⟨⟨⟨hdraws.nodup rfl, howned.levels⟩, fun v hv => ?_⟩, h.checked⟩ }
  rcases hdraws.names_of_nil rfl hv with ⟨howner, hdecl⟩ | ⟨hmem, hdecl⟩
  · exact .inl ⟨howner.trans howned.name.symm, hdecl⟩
  · rw [← howned.names] at hmem
    obtain ⟨sig, hsig, hname⟩ := List.mem_map.mp hmem
    exact .inr ⟨sig, hsig, hname.symm, hdecl⟩

theorem commit (h : Kept id t us accepted) {unit : CheckedUnit} {r : CheckingRun} {holes : Holes}
    (hunit : (unit, r) ∈ us) (hcommit : t.commit id unit holes = (.ok (), t')) :
    Kept id t' us (r :: accepted) := by
  obtain ⟨hproper, howns⟩ := h.checked _ hunit
  have hrooted : (t.commit id unit holes).2.Rooted := h.rooted.commit unit holes
  rw [hcommit] at hrooted
  obtain ⟨hname, hnew, entries, rfl, -⟩ :=
    installed_of_commit h.size (h.convertible _ hunit) hcommit
  refine h.accept hproper
    (h.update hrooted rfl (List.subset_append_right _ _) (List.subset_cons_self _ _)) ?_ ?_
  · intro v hv
    rcases howns v hv with ⟨howner, hdecl⟩ | ⟨sig, hsig, howner, hdecl⟩
    · exact h.not_taken_of_hasUnit hdecl (howner ▸ hname)
    · exact h.not_taken_of_signature? hdecl (howner ▸ hnew sig hsig)
  · intro v hv
    rcases howns v hv with ⟨howner, hdecl⟩ | ⟨sig, hsig, howner, hdecl⟩
    · simp [Taken, hdecl, howner, install, get_update h.size]
    · rw [Taken, if_pos hdecl, install, get_update h.size]
      exact ⟨sig, List.mem_append_left _ (List.mem_reverse.mpr hsig), howner.symm⟩

/-- A commit that fails may have installed the signatures. -/
theorem refuse (h : Kept id t us accepted) {unit : CheckedUnit} {holes : Holes} {e : CheckError}
    (hcommit : t.commit id unit holes = (.error e, t')) : Kept id t' us accepted := by
  have hrooted : (t.commit id unit holes).2.Rooted := h.rooted.commit unit holes
  rw [hcommit] at hrooted
  rcases t.known_or_new id unit with hknown | ⟨hname, hnew⟩
  · obtain ⟨e', hrefused⟩ := commit_refused hknown holes
    rw [hrefused] at hcommit
    exact (Prod.mk.inj hcommit).2 ▸ h
  · obtain ⟨entries, ⟨-, hinstall, -⟩ | ⟨_, -, hfailed⟩⟩ := commit_of_new hname hnew holes
    · simp [hcommit] at hinstall
    · obtain ⟨-, rfl⟩ := Prod.mk.inj (hcommit.symm.trans hfailed)
      rw [addConversions, addSignatures, update_update] at hrooted ⊢
      exact h.update hrooted rfl (List.subset_append_right _ _) (List.Subset.refl _)

end Kept

theorem History.kept (h : History id t us accepted) : Kept id t us accepted := by
  induction h with
  | create ht hid => exact hid ▸ .create ht
  | declare _ hsig hrun hdeclare ih => exact ih.declare hsig hrun hdeclare
  | check _ hunit hcheck ih => exact ih.check hunit hcheck
  | commit _ hunit hcommit ih => exact ih.commit hunit hcommit
  | refuse _ hunit hcommit ih => exact ih.refuse hcommit

/-- Level variables of different declarations and units never collide. Whatever is declared,
checked, committed and dropped in a root session, two checks that have been accepted never get the
same variable from their stores, and have no level variables in their signatures but those. Within
one check, of a signature or of a unit, accepted, dropped or failed, no variable is handed out
twice. What a check gets is what the log of its store tells: a new level is the entry that is made
then, the universes of a signature are named by the entries that are made for it, each of them once,
and an attempt that is undone strikes out none. -/
theorem level_variables_apart (h : History id t us accepted) :
    (accepted.Pairwise fun r r' => r.issued.Disjoint r'.issued) ∧
    (∀ r ∈ accepted, r.issued.Nodup ∧ ∀ sig ∈ r.signatures, sig.LevelsIn (· ∈ r.issued)) ∧
    (∀ sig holes, (t.checkDeclared id sig holes).2.solver.levels.issued.Nodup) ∧
    (∀ c unit, unit.name ≠ "" → t.hasUnit id unit.name = false →
      (t.checkUnit id c unit).2.solver.levels.issued.Nodup) ∧
    (∀ s : Solver, ∃ v s', Solve.freshLevel.run s = (.ok (.var v), s') ∧
      s'.levels.issued = v :: s.levels.issued) ∧
    (∀ (decl : String) (u : Term) (store : LevelStore), ∃ vars,
      u.Named vars ((u.assignLevels decl).run store).1 ∧
      ((u.assignLevels decl).run store).2.issued.Perm (vars ++ store.issued)) ∧
    ∀ (α : Type) (x : Solve α) (s : Solver),
      ((Solve.attempt x).run s).2.levels.issued = (x.run s.speculate).2.levels.issued :=
  ⟨h.kept.apart, fun r hr => ⟨(h.kept.proper r hr).distinct, (h.kept.proper r hr).levels⟩,
    fun sig holes => (t.checkDeclared_draws id sig holes).nodup rfl,
    fun c _ hname hnew => (t.checkUnit_draws id c hname hnew).nodup rfl,
    Solve.freshLevel_issued, Term.assignLevels_issued, fun _ => Solve.attempt_issued⟩

def boxUnit : SourceUnit := { packUnit with name := "Box" }

def acceptsBoxes : Bool :=
  match (create {} none).2.checkDeclared 0 boxSignature,
    (create {} none).2.declare 0 boxSignature with
  | (.ok _, c), .ok (_, t) => c.solver.levels.issued.contains ⟨"Box", 1, true⟩ &&
    match t.checkUnit 0 {} boxUnit with
    | (.error _, _) => false
    | (.ok unit, c') => c'.solver.levels.issued.contains ⟨"Box", 1, false⟩ &&
      match t.commit 0 unit with
      | (.error _, _) => false
      | (.ok _, _) => true
  | _, _ => false

/-- A declaration and a unit of the same name, one after the other: both get a variable of number 1
and of the name, and still none in common. -/
theorem level_variables_apart_box : ∃ t us r r', History 0 t us [r', r] ∧
    ⟨"Box", 1, true⟩ ∈ r.issued ∧ ⟨"Box", 1, false⟩ ∈ r'.issued ∧ r'.issued.Disjoint r.issued := by
  have htest : acceptsBoxes = true := by decide +kernel
  unfold acceptsBoxes at htest
  rcases hrun : (create {} none).2.checkDeclared 0 boxSignature with ⟨_ | checked, c⟩
  · simp [hrun] at htest
  rcases hdeclare : (create {} none).2.declare 0 boxSignature with _ | ⟨declared, t⟩
  · simp [hrun, hdeclare] at htest
  rcases hcheck : t.checkUnit 0 {} boxUnit with ⟨_ | unit, c'⟩
  · simp [hrun, hdeclare, hcheck] at htest
  rcases hcommit : t.commit 0 unit with ⟨_ | _, t'⟩
  · simp [hrun, hdeclare, hcheck, hcommit] at htest
  simp only [hrun, hdeclare, hcheck, hcommit, Bool.and_true, Bool.and_eq_true,
    List.contains_iff_mem] at htest
  obtain rfl : checked = declared := by
    obtain ⟨⟨_, hrun'⟩, -⟩ := declare_eq_ok hdeclare
    rw [hrun] at hrun'
    exact Except.ok.inj (Prod.mk.inj hrun').1
  have hbox : boxSignature.LevelsIn fun _ => False :=
    ⟨by simp [boxSignature, Term.levels], by simp [boxSignature],
      by simp [boxSignature, Term.levels]⟩
  have hunit : ∀ d ∈ boxUnit.declarations, ∀ sig, d.signature = some sig →
      sig.LevelsIn fun _ => False := by
    refine List.forall_mem_singleton.mpr fun sig hsig => ?_
    obtain rfl := Option.some.inj hsig
    exact ⟨by simp [packSignature, Term.levels], by simp [packSignature],
      by simp [packSignature, Term.levels, Term.levelsArgs]⟩
  have hchecked := ((History.create .empty rfl).declare hbox hrun hdeclare).check hunit hcheck
  have hhistory := hchecked.commit (List.mem_singleton.mpr rfl) hcommit
  obtain ⟨hapart, -⟩ := level_variables_apart hhistory
  exact ⟨_, _, _, _, hhistory, htest.1, htest.2, (List.pairwise_cons.mp hapart).1 _ (by simp)⟩

end Sessions

end Implicits
