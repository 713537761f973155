import Implicits.Proofs.Term.Holes
import Implicits.Solver.State

/-!
What a step of solving may change. It solves open holes, adds constraints and imports, and notes in
the stash what a speculative step needs to undo. Undoing a step restores all but the supply of level
variables.
-/
namespace Implicits

section Log

variable {α : Type} {log set log' set' log'' set'' : List α}

/-- New entries of a log, each of which was appended to it and put into the set of what is not to be
entered again. -/
def Entered (log set log' set' : List α) : Prop :=
  ∃ added, log' = log ++ added ∧ set' = added.reverse ++ set ∧ added.Nodup ∧ ∀ x ∈ added, x ∉ set

namespace Entered

theorem refl (log set : List α) : Entered log set log set :=
  ⟨[], by simp, by simp, List.nodup_nil, by simp⟩

theorem single {x : α} (hx : x ∉ set) : Entered log set (log ++ [x]) (x :: set) :=
  ⟨[x], rfl, rfl, List.nodup_singleton x, by simpa using hx⟩

theorem trans (h : Entered log set log' set') (h' : Entered log' set' log'' set'') :
    Entered log set log'' set'' := by
  obtain ⟨added, rfl, rfl, hnodup, hnew⟩ := h
  obtain ⟨added', rfl, rfl, hnodup', hnew'⟩ := h'
  refine ⟨added ++ added', by simp, by simp, ?_, ?_⟩
  · refine List.nodup_append.mpr ⟨hnodup, hnodup', ?_⟩
    rintro x hx _ hx' rfl
    exact hnew' x hx' (by simp [hx])
  · intro x hx
    rcases List.mem_append.mp hx with hx | hx
    · exact hnew x hx
    · exact fun hset => hnew' x hx (by simp [hset])

theorem isPrefix (h : Entered log set log' set') : log <+: log' := by
  obtain ⟨added, rfl, -⟩ := h
  exact List.prefix_append _ _

theorem isSuffix (h : Entered log set log' set') : set <:+ set' := by
  obtain ⟨added, -, rfl, -⟩ := h
  exact List.suffix_append _ _

theorem subset (h : Entered log set log' set') (hset : ∀ x ∈ set, x ∈ log) :
    ∀ x ∈ set', x ∈ log' := by
  obtain ⟨added, rfl, rfl, -⟩ := h
  intro x hx
  rcases List.mem_append.mp hx with hx | hx
  · simp [List.mem_reverse.mp hx]
  · simp [hset x hx]

theorem take_length (h : Entered log set log' set') : log'.take log.length = log :=
  (List.prefix_iff_eq_take.mp h.isPrefix).symm

variable [BEq α] [LawfulBEq α]

theorem foldl_erase (added : List α) (hnodup : added.Nodup) :
    added.foldl List.erase (added.reverse ++ set) = set := by
  induction added with
  | nil => rfl
  | cons x added ih =>
    obtain ⟨hx, hnodup⟩ := List.nodup_cons.mp hnodup
    rw [List.foldl_cons, List.reverse_cons, List.append_assoc,
      List.erase_append_right _ (by simpa using hx), List.singleton_append, List.erase_cons_head]
    exact ih hnodup

/-- Taking the new entries out again leaves the set as it was. -/
theorem erase_drop (h : Entered log set log' set') :
    (log'.drop log.length).foldl List.erase set' = set := by
  obtain ⟨added, rfl, rfl, hnodup, -⟩ := h
  rw [List.drop_left]
  exact foldl_erase added hnodup

end Entered

end Log

namespace LevelStore

/-- Variables, latest first, that are numbered in the order in which they were handed out. -/
def Numbered : List LevelVar → Prop
  | [] => True
  | v :: vs => v.id = vs.length ∧ Numbered vs

theorem Numbered.id_lt {vs : List LevelVar} (h : Numbered vs) : ∀ v ∈ vs, v.id < vs.length := by
  induction vs with
  | nil => simp
  | cons v vs ih =>
    rw [List.length_cons]
    refine List.forall_mem_cons.mpr ⟨?_, fun w hw => ?_⟩
    · have hv := h.1
      omega
    · have hw := ih h.2 w hw
      omega

theorem Numbered.nodup {vs : List LevelVar} (h : Numbered vs) : vs.Nodup := by
  induction vs with
  | nil => exact List.nodup_nil
  | cons v vs ih =>
    refine List.nodup_cons.mpr ⟨fun hmem => ?_, ih h.2⟩
    have hlt := h.2.id_lt v hmem
    rw [h.1] at hlt
    exact Int.lt_irrefl _ hlt

def Names (decls : List String) (s : LevelStore) (owner : String) (ofDecl : Bool) : Prop :=
  owner = s.owner ∧ ofDecl = s.ofDecl ∨ owner ∈ decls ∧ ofDecl = true

structure Grows (s s' : LevelStore) : Prop where
  owner : s'.owner = s.owner
  ofDecl : s'.ofDecl = s.ofDecl
  issued : s.issued <:+ s'.issued
  entered : Entered s.constraints s.seen s'.constraints s'.seen

namespace Grows

theorem nextId {s s' : LevelStore} (h : s.Grows s') : s.nextId ≤ s'.nextId := h.issued.length_le

theorem constraints {s s' : LevelStore} (h : s.Grows s') : s.constraints <+: s'.constraints :=
  h.entered.isPrefix

theorem seen {s s' : LevelStore} (h : s.Grows s') : s.seen <:+ s'.seen :=
  h.entered.isSuffix

theorem refl (s : LevelStore) : s.Grows s :=
  ⟨rfl, rfl, List.suffix_rfl, .refl _ _⟩

theorem trans {s s' s'' : LevelStore} (h : s.Grows s') (h' : s'.Grows s'') : s.Grows s'' where
  owner := h'.owner.trans h.owner
  ofDecl := h'.ofDecl.trans h.ofDecl
  issued := h.issued.trans h'.issued
  entered := h.entered.trans h'.entered

theorem issue (s : LevelStore) (owner : String) (ofDecl : Bool) :
    s.Grows (s.issue owner ofDecl).2 :=
  ⟨rfl, rfl, List.suffix_cons _ _, .refl _ _⟩

theorem fresh (s : LevelStore) : s.Grows s.fresh.2 := issue s _ _

theorem add (s : LevelStore) (c : Constraint) : s.Grows (s.add c) := by
  unfold LevelStore.add
  split
  · exact refl s
  · next h =>
    simp only [Bool.or_eq_true, List.contains_iff_mem, not_or] at h
    exact ⟨rfl, rfl, List.suffix_rfl, .single h.2⟩

theorem le (s : LevelStore) (lo hi : Level) (origin : String) : s.Grows (s.le lo hi origin) :=
  add s _

theorem lt (s : LevelStore) (lo hi : Level) (origin : String) : s.Grows (s.lt lo hi origin) :=
  add s _

theorem equate (s : LevelStore) (a b : Level) (origin : String) : s.Grows (s.equate a b origin) :=
  (le s a b origin).trans (le _ b a origin)

theorem importAll (s : LevelStore) (cs : List Constraint) : s.Grows (s.importAll cs) := by
  unfold LevelStore.importAll
  induction cs generalizing s with
  | nil => exact refl s
  | cons c cs ih => exact (add s c).trans (ih (s.add c))

end Grows

/-- What a store has handed out since: each new variable has the next number, and is the store's own
or that of one of the declarations. Constraints may have come and gone. -/
structure Draws (decls : List String) (s s' : LevelStore) : Prop where
  owner : s'.owner = s.owner
  ofDecl : s'.ofDecl = s.ofDecl
  numbered : Numbered s.issued → Numbered s'.issued
  names : ∀ v ∈ s'.issued, v ∈ s.issued ∨ s.Names decls v.owner v.ofDecl

namespace Draws

variable {decls : List String} {s s' s'' : LevelStore}

theorem refl (s : LevelStore) : s.Draws decls s := ⟨rfl, rfl, id, fun _ => .inl⟩

theorem trans (h : s.Draws decls s') (h' : s'.Draws decls s'') : s.Draws decls s'' where
  owner := h'.owner.trans h.owner
  ofDecl := h'.ofDecl.trans h.ofDecl
  numbered hs := h'.numbered (h.numbered hs)
  names v hv := by
    rcases h'.names v hv with hv | hnamed
    · exact h.names v hv
    · refine .inr ?_
      rwa [Names, h.owner, h.ofDecl] at hnamed

theorem mono {more : List String} (h : s.Draws decls s') (hsub : decls ⊆ more) : s.Draws more s' :=
  { h with names := fun v hv => (h.names v hv).imp_right fun hnamed =>
      hnamed.imp_right fun howner => ⟨hsub howner.1, howner.2⟩ }

theorem issue {owner : String} {ofDecl : Bool} (h : s.Names decls owner ofDecl) :
    s.Draws decls (s.issue owner ofDecl).2 :=
  ⟨rfl, rfl, fun hs => ⟨rfl, hs⟩, List.forall_mem_cons.mpr ⟨.inr h, fun _ => .inl⟩⟩

theorem fresh (s : LevelStore) : s.Draws decls s.fresh.2 := .issue (.inl ⟨rfl, rfl⟩)

theorem add (s : LevelStore) (c : Constraint) : s.Draws decls (s.add c) := by
  unfold LevelStore.add
  split
  · exact refl s
  · exact ⟨rfl, rfl, id, fun _ => .inl⟩

theorem equate (s : LevelStore) (a b : Level) (origin : String) :
    s.Draws decls (s.equate a b origin) := (add s _).trans (add _ _)

theorem importAll (s : LevelStore) (cs : List Constraint) : s.Draws decls (s.importAll cs) := by
  induction cs generalizing s with
  | nil => exact refl s
  | cons c cs ih => exact (add s c).trans (ih (s.add c))

end Draws

end LevelStore

namespace Solver

variable {s s' s'' : Solver}

/-- A later state of the same solver, with all changes on record. In a speculative step the new
entries of the stash lead back to the earlier solutions; outside of one there are none. -/
structure Recorded (s s' : Solver) : Prop where
  size : s'.holes.size = s.holes.size
  name : ∀ i, s'.holes.name i = s.holes.name i
  type : ∀ i, s'.holes.type i = s.holes.type i
  levels : s.levels.Grows s'.levels
  imports : Entered s.importLog s.imported s'.importLog s'.imported
  speculative : s'.speculative = s.speculative
  stash : ∃ saved, s'.stash = saved ++ s.stash ∧
    (s.speculative = true → saved.foldl restore s'.holes = s.holes) ∧
    (s.speculative = false → saved = [])

namespace Recorded

theorem refl (s : Solver) : s.Recorded s where
  size := rfl
  name _ := rfl
  type _ := rfl
  levels := .refl _
  imports := .refl _ _
  speculative := rfl
  stash := ⟨[], rfl, fun _ => rfl, fun _ => rfl⟩

theorem trans (h : s.Recorded s') (h' : s'.Recorded s'') : s.Recorded s'' where
  size := h'.size.trans h.size
  name i := (h'.name i).trans (h.name i)
  type i := (h'.type i).trans (h.type i)
  levels := h.levels.trans h'.levels
  imports := h.imports.trans h'.imports
  speculative := h'.speculative.trans h.speculative
  stash := by
    obtain ⟨saved, hstash, hundo, hnone⟩ := h.stash
    obtain ⟨saved', hstash', hundo', hnone'⟩ := h'.stash
    refine ⟨saved' ++ saved, by rw [hstash', hstash, List.append_assoc], ?_, ?_⟩
    · intro hspec
      rw [List.foldl_append, hundo' (h.speculative.trans hspec), hundo hspec]
    · intro hspec
      rw [hnone' (h.speculative.trans hspec), hnone hspec, List.append_nil]

theorem of_levels {levels : LevelStore} (h : s.levels.Grows levels) :
    s.Recorded { s with levels } :=
  { refl s with levels := h }

theorem importSignature (s : Solver) (sig : Signature) : s.Recorded (s.importSignature sig) := by
  unfold Solver.importSignature
  split
  · exact refl s
  · next h =>
    simp only [Bool.or_eq_true, List.contains_iff_mem, not_or] at h
    exact { refl s with
      levels := .importAll s.levels sig.constraints
      imports := .single h.2 }

theorem solve (s : Solver) (id : HoleId) (t : Term) : s.Recorded (s.solve id t) where
  size := Holes.size_setSolution _ _ _
  name := Holes.name_setSolution _ _ _
  type := Holes.type_setSolution _ _ _
  levels := .refl _
  imports := .refl _ _
  speculative := rfl
  stash := by
    cases hspec : s.speculative with
    | false => exact ⟨[], by simp [Solver.solve, hspec], by simp, by simp⟩
    | true =>
      refine ⟨[⟨id, s.holes.solution? id⟩], by simp [Solver.solve, hspec], fun _ => ?_, by simp⟩
      exact Holes.setSolution_setSolution_self s.holes id t.toOption

/-- Undoing a speculative step restores all but the supply of level variables. -/
theorem rollback (h : s.speculate.Recorded s') :
    s'.rollback s.mark = { s with levels := { s.levels with issued := s'.levels.issued } } := by
  obtain ⟨saved, hstash, hundo, -⟩ := h.stash
  have hcount : s'.stash.length - s.stash.length = saved.length := by
    simp [hstash, speculate]
  have hholes : (s'.stash.take saved.length).foldl restore s'.holes = s.holes := by
    rw [hstash, List.take_left' rfl]
    exact hundo rfl
  have hdrop : s'.stash.drop saved.length = s.stash := by
    rw [hstash, List.drop_left' rfl]
    rfl
  have hlevels : s'.levels.truncate s.levels.size =
      { s.levels with issued := s'.levels.issued } := by
    obtain ⟨howner, hofDecl, -, hentered⟩ := h.levels
    simp only [LevelStore.truncate, LevelStore.size, LevelStore.mk.injEq]
    exact ⟨howner, hofDecl, trivial, hentered.take_length, hentered.erase_drop⟩
  have himported :
      (s'.importLog.drop s.importLog.length).foldl List.erase s'.imported = s.imported :=
    h.imports.erase_drop
  have hlog : s'.importLog.take s.importLog.length = s.importLog := h.imports.take_length
  simp only [Solver.rollback, Solver.mark, hcount, hholes, hdrop, hlevels, himported, hlog]

theorem of_rollback (h : s.speculate.Recorded s') : s.Recorded (s'.rollback s.mark) := by
  rw [h.rollback]
  exact of_levels ⟨rfl, rfl, h.levels.issued, .refl _ _⟩

theorem of_commit (h : s.speculate.Recorded s') : s.Recorded (s'.commit s.mark) := by
  obtain ⟨saved, hstash, hundo, -⟩ := h.stash
  have hstash' : s'.stash = saved ++ s.stash := hstash
  refine ⟨h.size, h.name, h.type, h.levels, h.imports, rfl, ?_⟩
  cases hspec : s.speculative with
  | true =>
    refine ⟨saved, ?_, fun _ => hundo rfl, by simp⟩
    simpa [Solver.commit, Solver.mark, hspec] using hstash'
  | false =>
    refine ⟨[], ?_, by simp, fun _ => rfl⟩
    simp [Solver.commit, Solver.mark, hspec, hstash']

end Recorded

structure Extends (s s' : Solver) : Prop extends Recorded s s' where
  solved : ∀ i t, s.holes.solution? i = some t → s'.holes.solution? i = some t

namespace Extends

theorem refl (s : Solver) : s.Extends s :=
  ⟨.refl s, fun _ _ h => h⟩

theorem trans (h : s.Extends s') (h' : s'.Extends s'') : s.Extends s'' :=
  ⟨h.toRecorded.trans h'.toRecorded, fun i t hi => h'.solved i t (h.solved i t hi)⟩

/-- A hole that is open later was open before. -/
theorem isOpen_of_isOpen (h : s.Extends s') {i : HoleId} (hi : s'.holes.solution? i = none) :
    s.holes.solution? i = none := by
  cases hsol : s.holes.solution? i with
  | none => rfl
  | some t => simp [h.solved i t hsol] at hi

theorem solve {id : HoleId} (hid : s.holes.solution? id = none) (t : Term) :
    s.Extends (s.solve id t) := by
  refine ⟨.solve s id t, fun i u hi => ?_⟩
  have hne : id ≠ i := by
    rintro rfl
    simp [hid] at hi
  simpa [Solver.solve, Holes.solve, Holes.solution?_setSolution, hne] using hi

theorem of_rollback (h : s.speculate.Extends s') : s.Extends (s'.rollback s.mark) := by
  refine ⟨h.toRecorded.of_rollback, fun i t hi => ?_⟩
  rw [h.toRecorded.rollback]
  exact hi

theorem of_commit (h : s.speculate.Extends s') : s.Extends (s'.commit s.mark) :=
  ⟨h.toRecorded.of_commit, h.solved⟩

end Extends

end Solver

end Implicits
