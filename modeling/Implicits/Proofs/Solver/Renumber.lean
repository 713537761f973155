import Implicits.Proofs.Solver.Pairing

/-!
Numbers of level variables. A store hands out its level variables in the order of their numbers, so
a run that begins further on makes the same variables with other numbers. Terms of two runs without
holes become equal when these numbers are left out, and the one is the other renumbered where each
variable has a single partner.
-/
namespace Implicits

def Level.relevel (f : LevelVar → LevelVar) : Level → Level
  | .const value => .const value
  | .var v => .var (f v)

def Universe.relevel (f : LevelVar → LevelVar) : Universe → Universe
  | .unassigned occurrence => .unassigned occurrence
  | .level l => .level (l.relevel f)

namespace Term

mutual

/-- Renames the levels of universes. The types of literals and the tactics of parameters are left
alone. -/
def relevel (f : LevelVar → LevelVar) : Term → Term
  | app fn args => app (fn.relevel f) (relevelArgs f args)
  | pi params result => pi (relevelParams f params) (result.relevel f)
  | sort u => sort (u.relevel f)
  | eq lhs rhs => eq (lhs.relevel f) (rhs.relevel f)
  | refl value => refl (value.relevel f)
  | missing => missing
  | const name => const name
  | lit text type => lit text type
  | bound name => bound name
  | hole id => hole id

def relevelArgs (f : LevelVar → LevelVar) : List Term → List Term
  | [] => []
  | t :: ts => t.relevel f :: relevelArgs f ts

def relevelParams (f : LevelVar → LevelVar) : List (Param Term) → List (Param Term)
  | [] => []
  | ⟨name, type, plicity, fallback⟩ :: ps =>
    ⟨name, type.relevel f, plicity, fallback⟩ :: relevelParams f ps

end

theorem relevelArgs_eq_map (f : LevelVar → LevelVar) (args : List Term) :
    relevelArgs f args = args.map (relevel f) := by
  induction args with
  | nil => rfl
  | cons a args ih => rw [relevelArgs, ih, List.map_cons]

theorem relevelParams_eq_map (f : LevelVar → LevelVar) (params : List (Param Term)) :
    relevelParams f params = params.map fun p => { p with type := p.type.relevel f } := by
  induction params with
  | nil => rfl
  | cons p params ih => rw [relevelParams, ih, List.map_cons]

theorem relevel_id (t : Term) : t.relevel id = t := by
  induction t using induct with
  | missing | const | lit | bound | hole => rfl
  | app fn args ihf ihargs =>
    rw [relevel, ihf, relevelArgs_eq_map, List.map_congr_left ihargs, List.map_id']
  | pi params result ihparams ihr =>
    have hparams : ∀ p ∈ params, { p with type := p.type.relevel id } = p := by
      intro p hp
      rw [ihparams p hp]
    rw [relevel, ihr, relevelParams_eq_map, List.map_congr_left hparams, List.map_id']
  | sort u =>
    cases u with
    | unassigned => rfl
    | level l =>
      cases l with
      | const => rfl
      | var => rfl
  | eq lhs rhs ihl ihr => rw [relevel, ihl, ihr]
  | refl value ih => rw [relevel, ih]

/-- Renamings under which level variables that go together meet make terms without holes equal. -/
theorem Paired.relevel_eq {ρ : Pairing} {f g : LevelVar → LevelVar}
    (hfg : ∀ v w, ρ.level v w → f v = g w) {a b : Term} (h : a.Paired ρ b) (ha : a.HoleFree) :
    a.relevel f = b.relevel g := by
  induction h using Paired.induct with
  | missing | const | lit | bound => rfl
  | hole i j => simp [HoleFree, holes] at ha
  | app fn fn' xs ys _ ihf ihargs =>
    obtain ⟨hfn, hxs⟩ := List.append_eq_nil_iff.mp ha
    have hfree := holeFree_args.mp hxs
    have hargs : xs.map (relevel f) = ys.map (relevel g) := by
      clear ihf ha hxs
      induction ihargs with
      | nil => rfl
      | cons hxy _ ih =>
        obtain ⟨_, hxy⟩ := hxy
        rw [List.map_cons, List.map_cons, hxy (hfree _ (by simp)),
          ih fun x hx => hfree x (by simp [hx])]
    rw [relevel, relevel, ihf hfn, relevelArgs_eq_map, relevelArgs_eq_map, hargs]
  | pi ps qs r s _ iht ihr =>
    obtain ⟨hps, hr⟩ := List.append_eq_nil_iff.mp ha
    have hfree := holeFree_params.mp hps
    have hparams : (ps.map fun p => { p with type := p.type.relevel f }) =
        qs.map fun q => { q with type := q.type.relevel g } := by
      clear ihr ha hps
      induction iht with
      | nil => rfl
      | cons hpq _ ih =>
        obtain ⟨hpq, htype⟩ := hpq
        rw [List.map_cons, List.map_cons, ih fun p hp => hfree p (by simp [hp]),
          htype (hfree _ (by simp)).1, hpq.name, hpq.plicity, hpq.fallback]
    rw [relevel, relevel, ihr hr, relevelParams_eq_map, relevelParams_eq_map, hparams]
  | sort u v huv =>
    cases huv with
    | unassigned => rfl
    | level hlm =>
      cases hlm with
      | const => rfl
      | var hvw => simp only [relevel, Universe.relevel, Level.relevel, hfg _ _ hvw]
  | eq _ _ _ _ _ _ ihl ihr =>
    obtain ⟨hlhs, hrhs⟩ := List.append_eq_nil_iff.mp ha
    rw [relevel, relevel, ihl hlhs, ihr hrhs]
  | refl _ _ _ ih => rw [relevel, relevel, ih ha]

/-- Where each level variable has a single partner, the partner of a term without holes is the term
renamed. -/
theorem Paired.eq_relevel {ρ : Pairing} {f : LevelVar → LevelVar}
    (hf : ∀ v w, ρ.level v w → f v = w) {a b : Term} (h : a.Paired ρ b) (ha : a.HoleFree) :
    b = a.relevel f := by
  have hsame : a.relevel f = b.relevel id := h.relevel_eq hf ha
  rw [hsame, relevel_id]

end Term

namespace LevelStore

def upcoming (s : LevelStore) (n : Nat) : LevelVar := ⟨s.owner, ↑(s.nextId + n), s.ofDecl⟩

theorem upcoming_add (s : LevelStore) (c : Constraint) : (s.add c).upcoming = s.upcoming := by
  unfold LevelStore.add
  split
  · rfl
  · rfl

theorem upcoming_importAll (s : LevelStore) (cs : List Constraint) :
    (s.importAll cs).upcoming = s.upcoming := by
  induction cs generalizing s with
  | nil => rfl
  | cons c cs ih => exact (ih (s.add c)).trans (upcoming_add s c)

theorem upcoming_fresh (s : LevelStore) (n : Nat) : s.fresh.2.upcoming n = s.upcoming (n + 1) := by
  have hnext : s.fresh.2.nextId = s.nextId + 1 := rfl
  simp only [upcoming, hnext, Nat.add_assoc, Nat.add_comm 1 n]
  rfl

def Paired (ρ : Pairing) (s t : LevelStore) : Prop := ∀ n, ρ.level (s.upcoming n) (t.upcoming n)

namespace Paired

variable {ρ : Pairing} {s t : LevelStore}

theorem congr (h : s.Paired ρ t) {s' t' : LevelStore} (hs : s'.upcoming = s.upcoming)
    (ht : t'.upcoming = t.upcoming) : s'.Paired ρ t' := by
  intro n
  rw [hs, ht]
  exact h n

theorem fresh (h : s.Paired ρ t) : ρ.level s.fresh.1 t.fresh.1 ∧ s.fresh.2.Paired ρ t.fresh.2 := by
  refine ⟨h 0, fun n => ?_⟩
  rw [upcoming_fresh, upcoming_fresh]
  exact h (n + 1)

end Paired

end LevelStore

/-- Where a step is undone, the variables that it has used up stay used. -/
theorem LevelStore.Grows.upcoming_undo {s s' : LevelStore} (h : s.Grows s') :
    ({ s with issued := s'.issued } : LevelStore).upcoming = s'.upcoming := by
  funext n
  simp only [LevelStore.upcoming, LevelStore.nextId, h.owner, h.ofDecl]

theorem Solver.upcoming_importSignature (s : Solver) (sig : Signature) :
    (s.importSignature sig).levels.upcoming = s.levels.upcoming := by
  unfold Solver.importSignature
  split
  · rfl
  · exact LevelStore.upcoming_importAll _ _

def Solver.Comparison.supplies (ρ : Pairing) : Solver.Comparison ρ where
  collected x y := x.1.Paired ρ y.1
  fresh h := h.fresh
  add _ _ _ h _ _ := h.congr (LevelStore.upcoming_add _ _) (LevelStore.upcoming_add _ _)
  importSignature h _ :=
    h.congr (Solver.upcoming_importSignature _ _) (Solver.upcoming_importSignature _ _)
  undo _ h hs ht := h.congr hs.upcoming_undo ht.upcoming_undo

namespace LevelStore

def Awaits (s : LevelStore) (v : LevelVar) : Prop := ∃ n, v = s.upcoming n

theorem awaits_iff {s : LevelStore} {v : LevelVar} :
    s.Awaits v ↔ v.owner = s.owner ∧ v.ofDecl = s.ofDecl ∧ s.nextId ≤ v.id := by
  constructor
  · rintro ⟨n, rfl⟩
    exact ⟨rfl, rfl, by simp only [upcoming]; omega⟩
  · obtain ⟨owner, id, ofDecl⟩ := v
    rintro ⟨rfl, rfl, hid⟩
    refine ⟨(id - s.nextId).toNat, ?_⟩
    simp only [upcoming, LevelVar.mk.injEq, true_and, and_true]
    dsimp only at hid
    omega

instance (s : LevelStore) : DecidablePred s.Awaits := fun _ => decidable_of_iff _ awaits_iff.symm

def unnumber (s : LevelStore) (v : LevelVar) : LevelVar := if s.Awaits v then s.upcoming 0 else v

/-- A renaming that gives other numbers to the variables that the store has yet to make, and
confuses none. -/
structure Renumbers (s : LevelStore) (f : LevelVar → LevelVar) : Prop where
  injective : Function.Injective f
  awaited : ∀ v, s.Awaits v → s.Awaits (f v)
  made : ∀ v, ¬ s.Awaits v → f v = v

def renumber (s : LevelStore) (k : Nat) (v : LevelVar) : LevelVar :=
  if s.Awaits v then { v with id := v.id + k } else v

section

variable {s s' : LevelStore} {v : LevelVar}

theorem renumber_upcoming (k n : Nat) : s.renumber k (s.upcoming n) = s.upcoming (n + k) := by
  rw [renumber, if_pos ⟨n, rfl⟩]
  simp only [upcoming, LevelVar.mk.injEq, true_and, and_true]
  omega

theorem renumbers_renumber (s : LevelStore) (k : Nat) : s.Renumbers (s.renumber k) := by
  have hmade : ∀ v, ¬ s.Awaits v → s.renumber k v = v := fun v hv => if_neg hv
  have hawaited : ∀ v, s.Awaits (s.renumber k v) ↔ s.Awaits v := by
    intro v
    by_cases hv : s.Awaits v
    · obtain ⟨n, rfl⟩ := hv
      rw [renumber_upcoming]
      exact iff_of_true ⟨_, rfl⟩ ⟨_, rfl⟩
    · rw [hmade v hv]
  refine ⟨fun v w heq => ?_, fun v => (hawaited v).mpr, hmade⟩
  have hiff : s.Awaits v ↔ s.Awaits w := by rw [← hawaited v, heq, hawaited w]
  by_cases hv : s.Awaits v
  · obtain ⟨m, rfl⟩ := hiff.mp hv
    obtain ⟨n, rfl⟩ := hv
    rw [renumber_upcoming, renumber_upcoming] at heq
    simp only [upcoming, LevelVar.mk.injEq, true_and, and_true] at heq ⊢
    omega
  · rwa [hmade v hv, hmade w fun hw => hv (hiff.mpr hw)] at heq

/-- A store that has gone on makes the same variables later. -/
theorem Grows.upcoming_eq (h : s.Grows s') (n : Nat) :
    s'.upcoming n = s.upcoming (n + (s'.nextId - s.nextId)) := by
  have hnext := h.nextId
  simp only [upcoming, h.owner, h.ofDecl, LevelVar.mk.injEq, true_and, and_true]
  omega

theorem Grows.awaits (h : s.Grows s') (n : Nat) : s.Awaits (s'.upcoming n) :=
  ⟨_, h.upcoming_eq n⟩

end

end LevelStore

end Implicits
