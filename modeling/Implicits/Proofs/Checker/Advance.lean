import Implicits.Proofs.Checker.Signature
import Implicits.Proofs.HoleFree
import Implicits.Proofs.Solver.Rollback
import Implicits.Unit

/-!
What every step of checking keeps, from every state and for all terms: it stays in the unit, leaves
alone what the unit has declared, and only adds to the level store and to the table of holes; an
argument that begins to wait has a hole in the table, and nothing is left open unless it may be
deferred. Nothing is asked of the terms and the declarations, so that this also holds for terms with
holes and level variables of unknown origin. The check of a unit adds to what the unit has declared
and drops the constraints when it fails, but it keeps the rest.
-/
namespace Implicits

namespace LevelStore.Grows

/-- New level variables of a declaration come from the supply of the store. -/
theorem assignLevels (decl : String) (t : Term) (s : LevelStore) :
    s.Grows ((t.assignLevels decl).run s).2 := by
  obtain ⟨-, -, -, new, hstore⟩ := t.assignLevels_spec decl s
  rw [hstore]
  exact ⟨rfl, rfl, List.suffix_append _ _, .refl _ _⟩

end LevelStore.Grows

namespace Checker

/-- A later state of a checker in the same unit, which has declared nothing new. New level variables
are its own or those of the given declarations. -/
structure Advances (decls : List String) (c c' : Checker) : Prop extends Continues c c' where
  levels : c.solver.levels.Grows c'.solver.levels
  draws : c.solver.levels.Draws decls c'.solver.levels
  size : c.solver.holes.size ≤ c'.solver.holes.size
  pending : ∀ p ∈ c'.pending, p ∈ c.pending ∨ p.hole < c'.solver.holes.size
  strict : c.options.deferUnresolved = false → c'.openObligations = c.openObligations

namespace Advances

variable {decls : List String} {c c' c'' : Checker}

theorem refl (c : Checker) : c.Advances decls c :=
  ⟨.refl c, .refl _, .refl _, Nat.le_refl _, fun _ => .inl, fun _ => rfl⟩

theorem trans (h : c.Advances decls c') (h' : c'.Advances decls c'') : c.Advances decls c'' := by
  refine ⟨h.toContinues.trans h'.toContinues, h.levels.trans h'.levels, h.draws.trans h'.draws,
    h.size.trans h'.size, fun p hp => ?_, fun hstrict => ?_⟩
  · rcases h'.pending p hp with hp | hmade
    · exact (h.pending p hp).imp_right fun hmade => Nat.lt_of_lt_of_le hmade h'.size
    · exact .inr hmade
  · rw [h'.strict (h.options ▸ hstrict), h.strict hstrict]

/-- A change of the solver that takes no hole away. -/
theorem of_solver {s : Solver} (hlevels : c.solver.levels.Grows s.levels)
    (hdraws : c.solver.levels.Draws decls s.levels)
    (hsize : c.solver.holes.size ≤ s.holes.size) : c.Advances decls { c with solver := s } :=
  ⟨⟨rfl, rfl, rfl⟩, hlevels, hdraws, hsize, fun _ => .inl, fun _ => rfl⟩

/-- A change of what is only written down. -/
theorem of_records (failure : Option CheckError) (invalid : Expr) (events : List Event) :
    c.Advances decls { c with failure, invalid, events } :=
  ⟨⟨rfl, rfl, rfl⟩, .refl _, .refl _, Nat.le_refl _, fun _ => .inl, fun _ => rfl⟩

theorem of_obligations (obligations : List Obligation) {openObligations : List Obligation}
    (hstrict : c.options.deferUnresolved = false → openObligations = c.openObligations) :
    c.Advances decls { c with obligations, openObligations } :=
  ⟨⟨rfl, rfl, rfl⟩, .refl _, .refl _, Nat.le_refl _, fun _ => .inl, hstrict⟩

end Advances

end Checker

namespace Check

variable {decls : List String}

def AdvancesFrom {α : Type} (decls : List String) (c : Checker) (x : Check α) : Prop :=
  Ends x c (fun _ c' => c.Advances decls c') fun _ c' => c.Advances decls c'

namespace AdvancesFrom

variable {α β : Type} {c : Checker} {x : Check α}

theorem bind {f : α → Check β} (hx : AdvancesFrom decls c x)
    (hf : ∀ a c', c.Advances decls c' → AdvancesFrom decls c' (f a)) :
    AdvancesFrom decls c (x >>= f) := by
  rw [AdvancesFrom, ends_bind]
  apply Ends.mono hx
  · intro a c' hstep
    exact Ends.mono (hf a c' hstep) (fun _ _ h => hstep.trans h) fun _ _ h => hstep.trans h
  · exact fun _ _ h => h

/-- Steps that advance, one after the other, with what is known of each result. -/
theorem mapM_all {Q : α → Prop} {f : β → Check α} {bs : List β}
    (hf : ∀ b ∈ bs, ∀ c', c.Advances decls c' →
      Ends (f b) c' (fun a c'' => c'.Advances decls c'' ∧ Q a) fun _ c'' => c'.Advances decls c'') :
    Ends (bs.mapM f) c (fun as c' => c.Advances decls c' ∧ ∀ a ∈ as, Q a)
      fun _ c' => c.Advances decls c' := by
  induction bs generalizing c with
  | nil => exact ⟨.refl c, by simp⟩
  | cons b bs ih =>
    rw [List.mapM_cons, ends_bind]
    apply Ends.mono (hf b (by simp) c (.refl c))
    · rintro a c₁ ⟨h₁, ha⟩
      rw [ends_bind]
      apply Ends.mono (ih fun b' hb' c₂ h₂ => hf b' (by simp [hb']) c₂ (h₁.trans h₂))
      · rintro as c₂ ⟨h₂, has⟩
        exact ⟨h₁.trans h₂, List.forall_mem_cons.mpr ⟨ha, has⟩⟩
      · exact fun _ _ h₂ => h₁.trans h₂
    · exact fun _ _ h => h

end AdvancesFrom

def IsAdvance {α : Type} (decls : List String) (x : Check α) : Prop :=
  ∀ c : Checker, AdvancesFrom decls c x

namespace IsAdvance

variable {α β : Type} {x : Check α} {env : Declarations}

theorem pure (a : α) : IsAdvance decls (pure a : Check α) := fun c => .refl c

theorem throw (e : CheckError) : IsAdvance decls (throw e : Check α) := fun c => .refl c

theorem get : IsAdvance decls (get : Check Checker) := fun c => .refl c

theorem update {f : Checker → Checker} (hf : ∀ c : Checker, c.Advances decls (f c)) :
    IsAdvance decls (modify f) := hf

theorem holes : IsAdvance decls holes := fun c => .refl c

theorem text (t : Term) : IsAdvance decls (text t) := fun c => .refl c

theorem exprText (e : Expr) : IsAdvance decls (exprText e) := fun c => .refl c

theorem visible (outer : Declarations) : IsAdvance decls (visible outer) := fun c => .refl c

theorem bind {f : α → Check β} (hx : IsAdvance decls x) (hf : ∀ a, IsAdvance decls (f a)) :
    IsAdvance decls (x >>= f) := fun c => (hx c).bind fun a c' _ => hf a c'

theorem tryCatch {f : CheckError → Check α} (hx : IsAdvance decls x)
    (hf : ∀ e, IsAdvance decls (f e)) :
    IsAdvance decls (tryCatch x f) := by
  intro c
  rw [AdvancesFrom, ends_tryCatch]
  apply Ends.mono (hx c)
  · exact fun _ _ h => h
  · intro e c' hstep
    exact Ends.mono (hf e c') (fun _ _ h => hstep.trans h) fun _ _ h => hstep.trans h

theorem forM {f : β → Check PUnit} {bs : List β} (hf : ∀ b ∈ bs, IsAdvance decls (f b)) :
    IsAdvance decls (bs.forM f) := by
  induction bs with
  | nil => exact pure _
  | cons b bs ih => exact bind (hf b (by simp)) fun _ => ih fun b' hb' => hf b' (by simp [hb'])

theorem mapM {f : β → Check α} {bs : List β} (hf : ∀ b ∈ bs, IsAdvance decls (f b)) :
    IsAdvance decls (bs.mapM f) := fun _ =>
  (AdvancesFrom.mapM_all fun b hb c' _ => (hf b hb c').mono (fun _ _ h => ⟨h, trivial⟩)
    fun _ _ h => h).mono (fun _ _ h => h.1) fun _ _ h => h

theorem note (e : Event) : IsAdvance decls (note e) := by
  refine update fun c => ?_
  split
  · exact .of_records _ _ _
  · exact .refl c

theorem fail_ends (site : Expr) (e : CheckError) (c : Checker) :
    Ends (fail site e : Check α) c (fun _ _ => False) fun _ c' => c.Advances decls c' := by
  rw [Check.fail, ends_bind, ends_modify, ends_throw]
  split
  · exact .of_records _ _ _
  · exact .refl c

theorem fail (site : Expr) (e : CheckError) : IsAdvance decls (fail site e : Check α) := fun c =>
  (fail_ends site e c).mono (fun _ _ h => h.elim) fun _ _ h => h

theorem fail_bind (site : Expr) (e : CheckError) (f : α → Check β) :
    IsAdvance decls (Check.fail site e >>= f) := fun c =>
  ends_bind.mpr ((fail_ends site e c).mono (fun _ _ h => h.elim) fun _ _ h => h)

theorem throw_bind (e : CheckError) (f : α → Check β) :
    IsAdvance decls ((MonadExcept.throw e : Check α) >>= f) := fun c => .refl c

theorem requireActive : IsAdvance decls requireActive := by
  refine bind get fun c => ?_
  split
  · exact throw _
  · exact pure _

theorem importSignature (sig : Signature) :
    IsAdvance decls (modify fun c => { c with solver := c.solver.importSignature sig }) :=
  fun c =>
    have hstep := Solver.Admits.tracked.importSignature c.solver sig
    .of_solver hstep.levels (hstep.draws.mono (List.nil_subset _)) (Nat.le_of_eq hstep.size.symm)

theorem lookupSignature? (name : String) : IsAdvance decls (lookupSignature? env name) := by
  unfold Check.lookupSignature?
  split
  · exact pure _
  · exact bind (importSignature _) fun _ => pure _

theorem solve {y : Solve α} (hy : y.IsRecorded) : IsAdvance decls (solve y) :=
  fun c =>
    have hstep := hy.tracked c.solver
    .of_solver hstep.levels (hstep.draws.mono (List.nil_subset _)) (Nat.le_of_eq hstep.size.symm)

theorem orFail (site : Expr) (wrap : Fault → CheckError) {y : Solve α} (hy : y.IsRecorded) :
    IsAdvance decls (orFail site wrap y) := by
  refine bind (solve hy) fun r => ?_
  split
  · exact pure _
  · exact fail site _

end IsAdvance

section Search

variable {env : Declarations} {hyps : Context}

open Search

theorem scan_advance (goal : Term) (seen : List String) (rest : List Hypothesis) :
    IsAdvance decls (scan env hyps goal seen rest) := by
  induction rest generalizing seen with
  | nil => exact .pure _
  | cons hyp rest ih =>
    rw [scan]
    split
    · exact ih seen
    · refine .bind .holes fun h => ?_
      refine .bind (.solve (Solve.unify_recorded hyps _ _).attempt) fun r => ?_
      split
      · exact .pure _
      · exact .bind (ih _) fun _ => .pure _

theorem contextScan_advance (goal : Term) : IsAdvance decls (contextScan env goal hyps) := by
  unfold contextScan
  split
  · exact .pure _
  · exact .bind .holes fun h => scan_advance _ _ _

theorem reflexivity_advance (goal : Term) : IsAdvance decls (reflexivity env goal hyps) := by
  unfold reflexivity
  refine .bind .holes fun h => ?_
  split
  · refine .bind (.solve (Solve.unify_recorded hyps _ _).attempt) fun r => ?_
    split
    · exact .bind (.text _) fun _ => .bind .holes fun _ => .pure _
    · exact .bind (.text _) fun _ => .pure _
  · exact .pure _

theorem givenValue_advance (value goal : Term) (sub : Substitution) :
    IsAdvance decls (givenValue env value goal hyps sub) := by
  unfold givenValue
  refine .bind .holes fun h => .bind (.text _) fun _ => ?_
  refine .bind (.solve (.bind (Solve.typeOf_recorded hyps _) fun type =>
    (Solve.subsume_recorded hyps type goal).attempt)) fun r => ?_
  split
  · exact .pure _
  · exact .pure _

theorem run_advance (tactic : Tactic Term) (goal : Term) (sub : Substitution) :
    IsAdvance decls (run env tactic goal hyps sub) := by
  unfold run
  split
  · exact .bind (givenValue_advance _ _ _) fun _ => .pure _
  · refine .bind (contextScan_advance goal) fun r => ?_
    dsimp only
    split
    · exact .pure _
    · exact .bind (reflexivity_advance goal) fun _ => .pure _

end Search

def AdvancesAlways (decls : List String) (e : Elaborator) : Prop :=
  ∀ nested hyps expected, IsAdvance decls (e nested hyps expected)

section Elaborate

variable {env : Declarations} {hyps : Context} {expected : Term}

theorem convert_advance (site : Expr) (param : String) (term actual expected : Term)
    (cause : Fault) :
    IsAdvance decls (convert env site param hyps term actual expected cause) := by
  unfold convert
  refine .bind .holes fun h => ?_
  dsimp only
  split
  · exact .fail _ _
  · split
    · exact .fail _ _
    · refine .bind (.lookupSignature? _) fun found => ?_
      split
      · exact .fail _ _
      · refine .bind (.solve (Solve.subsume_recorded hyps _ expected).attempt) fun r => ?_
        split
        · exact .fail _ _
        · exact .bind (.text _) fun _ => .bind (.text _) fun _ => .bind (.exprText _) fun _ =>
            .bind (.note _) fun _ => .pure _
    · exact .fail _ _

theorem fitArgument_advance (site : Expr) (param : String) (term actual expected : Term) :
    IsAdvance decls (fitArgument env site param hyps term actual expected) := by
  refine .bind (.solve (Solve.subsume_recorded hyps actual expected).attempt) fun r => ?_
  split
  · exact .pure _
  · exact convert_advance site param term actual expected _

theorem checkArgument_advance {arg : Supplied} (harg : AdvancesAlways decls arg.elaborate)
    (nested : Bool) (param : String) (expected : Term) :
    IsAdvance decls (checkArgument env arg nested param hyps expected) :=
  .bind (harg nested hyps expected) fun r => fitArgument_advance arg.site param r.1 r.2 expected

/-- The holes of a call are in the table. -/
theorem makeHoles_advance (params : List (Param Term)) (sub : Substitution) (c : Checker) :
    Ends (makeHoles params sub) c
      (fun r c' => c.Advances decls c' ∧ ∀ id ∈ r.1, id < c'.solver.holes.size)
        fun _ c' => c.Advances decls c' := by
  induction params generalizing sub c with
  | nil => exact ⟨.refl c, by simp⟩
  | cons p params ih =>
    let added := (c.solver.addHole p.name (c.solver.holes.subst sub p.type)).2
    have hsize : added.holes.size = c.solver.holes.size + 1 := Holes.size_add _ _ _ _
    have hadd : c.Advances decls { c with solver := added } :=
      .of_solver (.refl _) (.refl _) (by omega)
    rw [makeHoles, ends_bind]
    change Ends (modifyGet _ >>= _) c _ _
    rw [ends_bind]
    change Ends (makeHoles params _ >>= _) { c with solver := added } _ _
    rw [ends_bind]
    apply (ih _ _).mono
    · rintro r c' ⟨hstep, hids⟩
      have hfirst : c.solver.holes.size < c'.solver.holes.size :=
        Nat.lt_of_lt_of_le (hsize ▸ Nat.lt_succ_self _) hstep.size
      exact ⟨hadd.trans hstep, List.forall_mem_cons.mpr ⟨hfirst, hids⟩⟩
    · exact fun _ _ h => hadd.trans h

def Slot.Steady (decls : List String) (slot : Slot) : Prop :=
  ∀ arg, slot.supplied = some arg → AdvancesAlways decls arg.elaborate

theorem supply_advance {slot : Slot} (hslot : Slot.Steady decls slot) :
    IsAdvance decls (supply env hyps slot) := by
  unfold supply
  split
  · exact .pure _
  · rename_i arg harg
    refine .bind .holes fun h => .bind (checkArgument_advance (hslot arg harg) _ _ _) fun term => ?_
    refine .bind (.solve (Solve.unify_recorded hyps _ term)) fun r => ?_
    split
    · exact .pure _
    · exact .bind .holes fun h => .fail _ _

theorem isUnsolved_advance (id : HoleId) : IsAdvance decls (isUnsolved id) := by
  refine .bind .holes fun h => ?_
  split
  · exact .pure _
  · exact .pure _

theorem searchSlot_advance (function : String) (sub : Substitution) (slot : Slot) :
    IsAdvance decls (searchSlot env function hyps sub slot) := by
  unfold searchSlot
  split
  · exact .pure _
  · refine .bind (isUnsolved_advance slot.hole) fun unsolved => ?_
    split
    · exact .pure _
    · refine .bind .holes fun h => .bind (run_advance _ _ sub) fun r => ?_
      dsimp only
      split
      · exact .bind (.text _) fun _ => .bind (.note _) fun _ => .pure _
      · refine .bind .holes fun h => .bind (.solve (Solve.unify_recorded hyps _ _)) fun r => ?_
        split
        · exact .bind (.text _) fun _ => .pure _
        · exact .bind (.text _) fun _ => .bind (.note _) fun _ => .pure _

theorem openObligation_advance (function param : String) (id : HoleId) (trace : List Attempt) :
    IsAdvance decls (openObligation function param id hyps trace) :=
  .bind .holes fun _ => .bind (.note _) fun _ => .pure _

/-- A slot that begins to wait needs a hole in the table. One is left open only if this may be
deferred. -/
theorem settle_advance (site : Expr) (function : String) (nested : Bool) {slot : Slot}
    (trace : List Attempt) {c : Checker} (hslot : slot.hole < c.solver.holes.size) :
    Ends (settle site function nested hyps slot trace) c
      (fun ob c' => c.Advances decls c' ∧ (c.options.deferUnresolved = false → ob = none))
      fun _ c' => c.Advances decls c' := by
  unfold settle
  rw [ends_bind]
  apply Ends.mono (isUnsolved_advance slot.hole c)
  · intro unsolved c₁ h₁
    split
    · exact ⟨h₁, fun _ => rfl⟩
    · dsimp only
      split
      · refine ⟨h₁.trans ⟨⟨rfl, rfl, rfl⟩, .refl _, .refl _, Nat.le_refl _, fun p hp => ?_,
          fun _ => rfl⟩, fun _ => rfl⟩
        refine (List.mem_append.mp hp).imp_right fun hp => ?_
        rw [List.mem_singleton.mp hp]
        exact Nat.lt_of_lt_of_le hslot h₁.size
      · rw [ends_bind, ends_get]
        split
        · rename_i hdefer
          have hopen : IsAdvance decls (do
              return some (← openObligation function slot.param.name slot.hole hyps trace)) :=
            .bind (openObligation_advance _ _ _ _) fun _ => .pure _
          refine Ends.mono (hopen c₁) (fun _ _ h => ⟨h₁.trans h, fun hstrict => ?_⟩)
            fun _ _ h => h₁.trans h
          simp [h₁.options, hstrict] at hdefer
        · have hfail : Ends (holes >>= fun h => fail site (.unresolved site function slot.param.name
              (h.deref (h.type slot.hole)) trace) : Check (Option Obligation)) c₁
              (fun _ _ => False) fun _ c' => c₁.Advances decls c' :=
            IsAdvance.fail_ends (α := Option Obligation) _ _ c₁
          exact Ends.mono hfail (fun _ _ h => h.elim) fun _ _ h => h₁.trans h
  · exact fun _ _ h => h

theorem useHint_advance (function : String) (result expected : Term) :
    IsAdvance decls (useHint env function hyps result expected) := by
  unfold useHint
  split
  · exact .pure _
  · refine .bind (.solve (Solve.subsume_recorded hyps result expected).attempt) fun r => ?_
    split
    · exact .pure _
    · exact .bind (.text _) fun _ => .note _

theorem completeSlots_advance (site : Expr) (function : String) (nested : Bool) (sub : Substitution)
    {slots : List Slot} (hslots : ∀ slot ∈ slots, Slot.Steady decls slot) {c : Checker}
    (hmade : ∀ slot ∈ slots, slot.hole < c.solver.holes.size) :
    AdvancesFrom decls c (completeSlots env site function nested hyps sub slots) := by
  have hsupply : IsAdvance decls (slots.forM (supply env hyps)) :=
    .forM fun slot hslot => supply_advance (hslots slot hslot)
  have hsearch : IsAdvance decls (slots.mapM (searchSlot env function hyps sub)) :=
    .mapM fun slot _ => searchSlot_advance function sub slot
  refine (hsupply c).bind fun _ c₁ h₁ => (hsearch c₁).bind fun searched c₂ h₂ => ?_
  have hsettle : ∀ r ∈ slots.zip searched, ∀ c₃ : Checker, c₂.Advances decls c₃ →
      Ends (settle site function nested hyps r.1 r.2.2) c₃
        (fun ob c₄ => c₃.Advances decls c₄ ∧ (c₂.options.deferUnresolved = false → ob = none))
        fun _ c₄ => c₃.Advances decls c₄ := by
    intro r hr c₃ h₃
    have hhole : r.1.hole < c₃.solver.holes.size :=
      Nat.lt_of_lt_of_le (hmade r.1 (List.of_mem_zip hr).1) ((h₁.trans h₂).trans h₃).size
    rw [← h₃.options]
    exact settle_advance site function nested r.2.2 hhole
  rw [AdvancesFrom, ends_bind]
  apply Ends.mono (AdvancesFrom.mapM_all hsettle)
  · rintro settled c₃ ⟨h₃, hsettled⟩
    refine h₃.trans (.of_obligations _ fun hstrict => ?_)
    have hnone : settled.filterMap id = [] :=
      List.filterMap_eq_nil_iff.mpr fun ob hob => hsettled ob hob (h₃.options ▸ hstrict)
    rw [hnone, List.append_nil]
  · exact fun _ _ h => h

theorem resolve_advance (site : Expr) (sig : Signature) {args : List (Arg (Option Supplied))}
    (hargs : ∀ a ∈ args, ∀ arg, a.value = some arg → AdvancesAlways decls arg.elaborate)
    (nested : Bool) (expected : Term) :
    IsAdvance decls (resolve env site sig args nested hyps expected) := by
  refine .bind (.importSignature sig) fun _ => ?_
  split
  · exact .fail _ _
  · rename_i supplied hsupplied
    intro c
    rw [AdvancesFrom, ends_bind]
    apply (makeHoles_advance sig.params [] c).mono
    · rintro ⟨ids, sub⟩ c₁ ⟨h₁, hids⟩
      apply Ends.mono ?_ (fun _ _ h => h₁.trans h) fun _ _ h => h₁.trans h
      refine (IsAdvance.holes c₁).bind fun h c₂ h₂ => ?_
      refine (useHint_advance sig.name _ expected c₂).bind fun _ c₃ h₃ => ?_
      refine (completeSlots_advance _ _ _ _ (fun slot hslot arg harg => ?_)
        fun slot hslot => ?_).bind
        fun _ c₄ _ => .refl c₄
      · -- The arguments of the slots are among those of the call.
        obtain ⟨⟨p, id, given⟩, hzip, rfl⟩ := List.mem_map.mp hslot
        have hgiven := (List.of_mem_zip (List.of_mem_zip hzip).2).2
        rcases (Signature.matchArguments_spec hsupplied).2 given hgiven with hnone | ⟨a, ha, hval⟩
        · simp [hnone] at harg
        · exact hargs a ha arg (hval.symm.trans harg)
      · obtain ⟨⟨p, id, given⟩, hzip, rfl⟩ := List.mem_map.mp hslot
        have hid := (List.of_mem_zip (List.of_mem_zip hzip).2).1
        exact Nat.lt_of_lt_of_le (hids id hid) (h₂.trans h₃).size
    · exact fun _ _ h => h

/-- Elaboration of an expression; one case per form of expression. -/
theorem elaborate_advance (e : Expr) : AdvancesAlways decls (elaborate env e) := by
  induction e using Expr.induct with
  | missing => exact fun _ _ _ => .fail _ _
  | lit s type =>
    intro nested hyps expected
    rw [elaborate]
    split
    · exact .fail _ _
    · exact .pure _
  | var name =>
    intro nested hyps expected
    rw [elaborate]
    dsimp only
    split
    · exact .pure _
    · refine .bind (.lookupSignature? name) fun found => ?_
      split
      · exact .fail _ _
      · split
        · exact .pure _
        · exact .bind (resolve_advance _ _ (by simp) nested expected) fun _ => .pure _
  | call fn args _ ihargs =>
    intro nested hyps expected
    have hsupplied : ∀ a ∈ suppliedArgs env args, ∀ arg, a.value = some arg →
        AdvancesAlways decls arg.elaborate := forall_suppliedArgs (AdvancesAlways decls) ihargs
    rw [elaborate]
    cases fn with
    | var name =>
      dsimp only
      split
      · exact .fail_bind _ _ _
      · refine .bind (.lookupSignature? name) fun found => ?_
        split
        · exact .fail _ _
        · exact .bind (resolve_advance _ _ hsupplied nested expected) fun _ => .pure _
    | _ => exact .fail _ _
  | type level =>
    intro nested hyps expected
    have htype : ∀ l : Level, IsAdvance decls (do
        let type ← orFail (.type level) .typing (Solve.typeOf env hyps (.sort (.level l)))
        return (Term.sort (.level l), type)) := fun l =>
      .bind (.orFail _ _ (Solve.typeOf_recorded hyps _)) fun _ => .pure _
    rw [elaborate]
    dsimp only
    split
    · split
      · exact .fail_bind _ _ _
      · exact htype _
    · exact .bind (.orFail _ _ .freshLevel) fun l => htype l
  | term value =>
    intro nested hyps expected
    rw [elaborate]
    exact .bind (.orFail _ _ (Solve.typeOf_recorded hyps value)) fun _ => .pure _

theorem finishWaiting_advance (p : Pending) : IsAdvance decls (finishWaiting p) := by
  refine .bind (isUnsolved_advance p.hole) fun unsolved => ?_
  split
  · intro c
    rw [AdvancesFrom, ends_bind, ends_get]
    split
    · rename_i hdefer
      refine (openObligation_advance p.function p.param p.hole [] c).bind fun ob c₁ h₁ => ?_
      exact .of_obligations _ fun hstrict => by simp [h₁.options, hdefer] at hstrict
    · exact IsAdvance.bind .holes (fun h => .fail _ _) c
  · exact .pure _

theorem elaborateAgainst_advance (e : Expr) (expected : Term) :
    IsAdvance decls (elaborateAgainst env e hyps expected) := by
  unfold elaborateAgainst
  split
  · exact elaborate_advance e false hyps expected
  · exact .bind (checkArgument_advance (elaborate_advance e) _ _ _) fun _ => .pure _

theorem finishPending_advance : IsAdvance decls finishPending := by
  refine .bind .get fun c => .bind (.update fun c => ?_) fun _ =>
    .forM fun p _ => finishWaiting_advance p
  exact ⟨⟨rfl, rfl, rfl⟩, .refl _, .refl _, Nat.le_refl _, by simp, fun _ => rfl⟩

theorem elaborateTop_advance (e : Expr) (expected : Term) :
    IsAdvance decls (elaborateTop env e hyps expected) := by
  refine .bind .requireActive fun _ => ?_
  split
  · exact .throw_bind _ _
  · exact .bind (elaborateAgainst_advance e expected) fun _ => .bind finishPending_advance fun _ =>
      .bind .holes fun _ => .pure _

theorem resolveTop_advance (sig : Signature) (args : List (Arg Expr)) (expected : Term) :
    IsAdvance decls (resolveTop env sig args hyps expected) := by
  have hargs : ∀ a ∈ suppliedArgs env args, ∀ arg, a.value = some arg →
      AdvancesAlways decls arg.elaborate :=
    forall_suppliedArgs (AdvancesAlways decls) fun a _ => elaborate_advance a.value
  refine .bind .requireActive
    fun _ => .bind (resolve_advance _ sig hargs false expected) fun _ => ?_
  exact .bind finishPending_advance fun _ => .bind .holes fun _ => .pure _

theorem checkUniverses_advance : IsAdvance decls checkUniverses := by
  intro c
  rw [AdvancesFrom, checkUniverses, ends_bind, ends_get]
  dsimp only
  split
  · exact .refl c
  · split
    · exact .refl c
    · exact .of_records _ _ _

end Elaborate

section Signature

variable {env : Declarations}

theorem assignLevels_advance {decl : String} (hdecl : decl ∈ decls) (t : Term) :
    IsAdvance decls (assignLevels decl t) :=
  fun c => .of_solver (.assignLevels decl t c.solver.levels)
    ((t.assignLevels_spec decl c.solver.levels).draws.mono
      (List.cons_subset.mpr ⟨hdecl, List.nil_subset _⟩))
    (Nat.le_refl _)

theorem checkFallback_advance {function : String} (hfunction : function ∈ decls) (hyps : Context)
    (p : Param Term) :
    IsAdvance decls (checkFallback env function hyps p) := by
  unfold checkFallback
  split
  · refine .bind (assignLevels_advance hfunction _) fun value => .bind (.orFail _ _ ?_)
      fun _ => .pure _
    exact .bind (Solve.typeOf_recorded hyps value) fun type => Solve.subsume_recorded hyps type _
  · exact .pure _

theorem checkParams_advance {function : String} (hfunction : function ∈ decls) (hyps : Context)
    (params : List (Param Term)) :
    IsAdvance decls (checkParams env function hyps params) := by
  induction params generalizing hyps with
  | nil => exact .pure _
  | cons p params ih =>
    rw [checkParams]
    refine .bind (assignLevels_advance hfunction _) fun type => ?_
    refine .bind (.orFail _ _ (Solve.levelOf_recorded hyps type)) fun _ => ?_
    exact .bind (checkFallback_advance hfunction _ _) fun _ => .bind (ih _) fun _ => .pure _

theorem checkSignature_advance {sig : Signature} (hsig : sig.name ∈ decls) :
    IsAdvance decls (checkSignature env sig) := by
  refine .bind .requireActive fun _ => ?_
  split
  · exact .fail _ _
  · refine .bind (checkParams_advance hsig _ _) fun r => .bind (assignLevels_advance hsig _)
      fun result => ?_
    exact .bind (.orFail _ _ (Solve.levelOf_recorded _ _)) fun _ => .pure _

theorem checkBody_advance (outer : Declarations) (sig : Signature) (body : Expr) :
    IsAdvance decls (checkBody outer sig body) := by
  unfold checkBody
  split
  · exact .pure _
  · refine .bind (.visible outer) fun env => ?_
    exact .bind (.tryCatch (elaborateTop_advance body sig.result) fun e => .throw _)
      fun _ => .pure _

end Signature

end Check

namespace Checker

/-- A later state of a checker, in which things may have been declared and constraints dropped. -/
structure Supplies (decls : List String) (c c' : Checker) : Prop where
  issued : c.solver.levels.issued <:+ c'.solver.levels.issued
  draws : c.solver.levels.Draws decls c'.solver.levels
  options : c'.options = c.options
  strict : c.options.deferUnresolved = false → c'.openObligations = c.openObligations

namespace Supplies

variable {decls : List String} {c c' c'' : Checker}

theorem of_advances (h : c.Advances decls c') : c.Supplies decls c' :=
  ⟨h.levels.issued, h.draws, h.options, h.strict⟩

theorem of_own (own : Declarations) : c.Supplies decls { c with own } :=
  ⟨List.suffix_rfl, .refl _, rfl, fun _ => rfl⟩

theorem trans (h : c.Supplies decls c') (h' : c'.Supplies decls c'') : c.Supplies decls c'' where
  issued := h.issued.trans h'.issued
  draws := h.draws.trans h'.draws
  options := h'.options.trans h.options
  strict hstrict := (h'.strict (h.options ▸ hstrict)).trans (h.strict hstrict)

end Supplies

end Checker

def SourceUnit.names (unit : SourceUnit) : List String :=
  unit.declarations.filterMap fun d => d.signature.map (·.name)

theorem SourceUnit.mem_names {unit : SourceUnit} {d : Declaration} (hd : d ∈ unit.declarations)
    {sig : Signature} (hsig : d.signature = some sig) : sig.name ∈ unit.names :=
  List.mem_filterMap.mpr ⟨d, hd, by rw [hsig]; rfl⟩

namespace Check

variable {outer : Declarations} {decls : List String}

def Supplying {α : Type} (decls : List String) (x : Check α) : Prop :=
  ∀ c : Checker, Ends x c (fun _ c' => c.Supplies decls c') fun _ c' => c.Supplies decls c'

namespace Supplying

variable {α β : Type} {x : Check α}

theorem of_run (hx : Supplying decls x) {c c' : Checker} {r : Except CheckError α}
    (hrun : x.run c = (r, c')) : c.Supplies decls c' := by
  have hstep := hx c
  rw [Ends, hrun] at hstep
  cases r with
  | ok => exact hstep
  | error => exact hstep

theorem of_advance (hx : IsAdvance decls x) : Supplying decls x := fun c =>
  (hx c).mono (fun _ _ h => .of_advances h) fun _ _ h => .of_advances h

theorem bind {f : α → Check β} (hx : Supplying decls x) (hf : ∀ a, Supplying decls (f a)) :
    Supplying decls (x >>= f) := fun c =>
  ends_bind.mpr ((hx c).mono (fun a c' h => (hf a c').mono (fun _ _ h' => h.trans h')
    fun _ _ h' => h.trans h') fun _ _ h => h)

theorem tryCatch {f : CheckError → Check α} (hx : Supplying decls x)
    (hf : ∀ e, Supplying decls (f e)) : Supplying decls (tryCatch x f) := fun c =>
  ends_tryCatch.mpr ((hx c).mono (fun _ _ h => h) fun e c' h =>
    (hf e c').mono (fun _ _ h' => h.trans h') fun _ _ h' => h.trans h')

theorem mapM {f : β → Check α} {bs : List β} (hf : ∀ b ∈ bs, Supplying decls (f b)) :
    Supplying decls (bs.mapM f) := by
  induction bs with
  | nil => exact of_advance (.pure [])
  | cons b bs ih =>
    rw [List.mapM_cons]
    refine bind (hf b (by simp)) fun a => bind (ih fun b' hb' => hf b' (by simp [hb'])) fun as => ?_
    exact of_advance (.pure (a :: as))

end Supplying

theorem declareOwn_supplying (outer : Declarations) (sig : Signature) :
    Supplying decls (declareOwn outer sig) := by
  refine .bind (.of_advance (.visible outer)) fun env => ?_
  split
  · exact .of_advance (.fail_bind _ _ _)
  · exact fun c => .of_own _

theorem declareOwnConversion_supplying (outer : Declarations) (name : String) :
    Supplying decls (declareOwnConversion outer name) := by
  refine .bind (.of_advance (.visible outer)) fun env => .bind (.of_advance .holes) fun h => ?_
  split
  · exact .of_advance (.fail _ _)
  · exact fun c => .of_own _

theorem checkDeclaration_supplying {d : Declaration}
    (hd : ∀ sig, d.signature = some sig → sig.name ∈ decls) :
    Supplying decls (checkDeclaration outer d) := by
  unfold checkDeclaration
  split
  · exact .of_advance (.throw _)
  · rename_i sig hsig
    refine .bind (.of_advance (.visible outer)) fun env => ?_
    refine .bind (.of_advance (checkSignature_advance (hd sig hsig))) fun checked => ?_
    have hbody : Supplying decls (do
        let body ← checkBody outer checked d.body
        return (⟨checked, body, d.implicit⟩ : CheckedDeclaration)) :=
      .of_advance (.bind (checkBody_advance outer checked d.body) fun _ => .pure _)
    refine .bind (declareOwn_supplying outer checked) fun _ => ?_
    split
    · exact .bind (declareOwnConversion_supplying outer checked.name) fun _ => hbody
    · exact hbody

theorem checkDeclarations_supplying (outer : Declarations) (unit : SourceUnit) :
    Supplying unit.names (checkDeclarations outer unit) := by
  refine .bind (.mapM fun d hd => checkDeclaration_supplying fun sig => SourceUnit.mem_names hd)
    fun checked => .bind (.of_advance checkUniverses_advance)
      fun levels => .bind (.of_advance .get) fun c₁ => ?_
  refine .bind (fun c₂ => .of_own _) fun _ => .bind (.of_advance .get) fun c₃ => ?_
  exact .of_advance (.pure _)

/-- A unit that fails loses its constraints, but not what its store has written down. -/
theorem checkUnit_supplying (outer : Declarations) (unit : SourceUnit) :
    Supplying unit.names (checkUnit outer unit) := by
  refine .bind (.tryCatch (checkDeclarations_supplying outer unit) fun e => ?_) fun checked => ?_
  · refine .bind (fun c => ?_) fun _ => .of_advance (.throw _)
    exact ⟨List.suffix_rfl, ⟨rfl, rfl, id, fun _ => .inl⟩, rfl, fun _ => rfl⟩
  · exact .of_advance (.bind .get fun _ => .bind (.note _) fun _ => .pure _)

end Check

end Implicits
