import Implicits.Proofs.Outcome
import Implicits.Proofs.Solver.Equations
import Implicits.Proofs.Solver.Rollback

/-!
Unification of first-order terms computes most general unifiers. Where nothing reduces and no hole
ranges over types, a run only solves holes, and its depth is never used up. Each function that
compares terms solves the equations between them, or fails because no filling satisfies them.
-/
namespace Implicits

open Relation Term

namespace Solve

open Holes

variable {env : Declarations} {hyps : Context} {s : Solver} {a b : Term}
  {eqs eqs' : List (Term × Term)} {enough : Prop}

/-- A step that solves equations, or fails. Where the depth is enough, it fails only if no filling
satisfies the equations. -/
def Decides (env : Declarations) (enough : Prop) (x : Solve Unit) (s : Solver)
    (eqs : List (Term × Term)) : Prop :=
  Ends x s (fun _ s' => Unified env enough s.holes s'.holes eqs)
    fun e _ => enough → e ≠ .tooDeep ∧ s.holes.Clash eqs

namespace Decides

theorem pure (hh : s.holes.Acyclic) (heqs : ∀ f, Holds f eqs) :
    Decides env enough (pure ()) s eqs := Unified.refl hh heqs

theorem mismatch (hclash : s.holes.Clash eqs) (a b : Term) :
    Decides env enough (mismatch a b) s eqs := by
  change enough → Fault.mismatch (s.text a) (s.text b) ≠ .tooDeep ∧ s.holes.Clash eqs
  exact fun _ => ⟨by simp, hclash⟩

theorem mono {enough' : Prop} {x : Solve Unit} (hx : Decides env enough x s eqs)
    (h : enough' → enough) : Decides env enough' x s eqs :=
  Ends.mono hx (fun _ _ hu => hu.mono h) fun _ _ he hen => he (h hen)

/-- Equations that the same fillings satisfy can stand for each other. -/
theorem of_iff {x : Solve Unit} (hx : Decides env enough x s eqs)
    (hiff : ∀ f, s.holes.Agrees f → (Holds f eqs ↔ Holds f eqs'))
    (hwithin : ∀ H : Horizon, H.Bounds s.holes → (∀ e ∈ eqs', H.Within e.1 ∧ H.Within e.2) →
      ∀ e ∈ eqs, H.Within e.1 ∧ H.Within e.2) : Decides env enough x s eqs' := by
  apply Ends.mono hx
  · exact fun _ _ hu => hu.of_iff hiff hwithin
  · intro e _ he hen
    exact ⟨(he hen).1, fun f hf hholds => (he hen).2 f hf ((hiff f hf).mpr hholds)⟩

/-- Equations are solved one after the other. -/
theorem seq {x y : Solve Unit} (hx : Decides env enough x s eqs)
    (hy : ∀ s', Unified env enough s.holes s'.holes eqs → Decides env enough y s' eqs') :
    Decides env enough (x >>= fun _ => y) s (eqs ++ eqs') := by
  rw [Decides, ends_bind]
  apply Ends.mono hx
  · intro _ s' hu
    apply Ends.mono (hy s' hu)
    · exact fun _ _ hu' => hu.trans hu'
    · intro e _ he hen
      refine ⟨(he hen).1, fun f hf hholds => ?_⟩
      obtain ⟨hfirst, hrest⟩ := List.forall_mem_append.mp hholds
      exact (he hen).2 f ((hu.exact f).mpr ⟨hf, hfirst⟩) hrest
  · intro e _ he hen
    refine ⟨(he hen).1, fun f hf hholds => ?_⟩
    exact (he hen).2 f hf (List.forall_mem_append.mp hholds).1

end Decides

/-- An open hole is solved, unless it occurs in the solution. -/
theorem bind_decides (henv : ∀ name args, env.reduce? name args = none) (hh : s.holes.Acyclic)
    {v : HoleId} (hv : s.holes.Plain env (.hole v)) (hopen : s.holes.solution? v = none)
    {t : Term} (ht : s.holes.Plain env t) (hne : s.holes.expand t ≠ .hole v) :
    Decides env enough (bind env hyps v t) s [(.hole v, t)] := by
  have hread : s.holes.expand (.hole v) = .hole v := expand_of_open hopen
  have hshows : (s.holes.expand (.hole v)).Shows v := by
    rw [hread]
    exact shows_hole.mpr rfl
  have huntyped := hv.untyped v hshows
  unfold bind
  rw [Decides, ends_bind, ends_holes]
  dsimp only
  by_cases hocc : s.holes.occurs v t = true
  · rw [if_pos hocc, ends_bind]
    exact fun _ => ⟨by simp, clash_of_occurs hocc hne⟩
  · rw [if_neg hocc, huntyped]
    exact unified_solve henv hh hopen (hv.made v hshows) ht (by simpa using hocc)

def Equates (env : Declarations) (n : Nat) (recur : Context → Term → Term → Solve Unit) : Prop :=
  ∀ s hyps a b, s.holes.Acyclic → s.holes.Plain env a → s.holes.Plain env b →
    Decides env (∃ H passed, s.holes.Fits H passed n a b) (recur hyps a b) s [(a, b)]

section Forms

variable {n : Nat} {recur : Context → Term → Term → Solve Unit}

theorem unifyArgs_decides (hrecur : Equates env n recur) {xs ys : List Term}
    (hlen : xs.length = ys.length) (hh : s.holes.Acyclic) (hxs : ∀ x ∈ xs, s.holes.Plain env x)
    (hys : ∀ y ∈ ys, s.holes.Plain env y) :
    Decides env (∃ H passed, ∀ e ∈ xs.zip ys, s.holes.Fits H passed n e.1 e.2)
      (unifyArgs (recur hyps) xs ys) s (xs.zip ys) := by
  induction xs generalizing ys s with
  | nil => exact .pure hh (by simp [Holds])
  | cons x xs ih =>
    cases ys with
    | nil => simp at hlen
    | cons y ys =>
      rw [List.zip_cons_cons, ← List.singleton_append]
      have hfirst := hrecur s hyps x y hh (hxs x (by simp)) (hys y (by simp))
      refine Decides.seq (hfirst.mono ?_) fun s' hu => ?_
      · intro hen
        obtain ⟨H, passed, hfits⟩ := hen
        exact ⟨H, passed, hfits (x, y) (by simp)⟩
      · refine (ih (by simpa using hlen) hu.acyclic (fun z hz => hu.plain z (hxs z (by simp [hz])))
          fun z hz => hu.plain z (hys z (by simp [hz]))).mono ?_
        intro hen
        obtain ⟨H, passed, hfits⟩ := hen
        have hxy := hfits (x, y) (by simp)
        refine ⟨H, passed, fun e he => (hfits e (by simp [he])).unified hu ⟨H, passed, hfits⟩
          fun e' he' => ?_⟩
        obtain rfl := List.mem_singleton.mp he'
        exact ⟨hxy.left, hxy.right⟩

theorem unifyForms_app_decides (hrecur : Equates env n recur) (hh : s.holes.Acyclic) {f g : Term}
    {xs ys : List Term} (ha : s.holes.Plain env (.app f xs)) (hb : s.holes.Plain env (.app g ys)) :
    Decides env (∃ H passed, s.holes.Fits H passed (n + 1) (.app f xs) (.app g ys))
      (unifyForms recur hyps (.app f xs) (.app g ys)) s [(.app f xs, .app g ys)] := by
  simp only [unifyForms]
  by_cases hlen : xs.length = ys.length
  · rw [if_pos hlen]
    refine Decides.of_iff (Decides.seq
      ((hrecur s hyps f g hh (ha.part .fn) (hb.part .fn)).mono ?_) fun s' hu =>
      (unifyArgs_decides hrecur hlen hu.acyclic (fun x hx => hu.plain x (ha.part (.arg hx)))
        fun y hy => hu.plain y (hb.part (.arg hy))).mono ?_) (fun _ _ => holds_app hlen) ?_
    · intro hen
      obtain ⟨H, passed, hfits⟩ := hen
      exact ⟨H, passed, hfits.part .fn .fn⟩
    · intro hen
      obtain ⟨H, passed, hfits⟩ := hen
      refine ⟨H, passed, fun e he => ?_⟩
      obtain ⟨hx, hy⟩ := List.of_mem_zip he
      refine (hfits.part (.arg hx) (.arg hy)).unified hu ⟨H, passed, hfits⟩ fun e' he' => ?_
      obtain rfl := List.mem_singleton.mp he'
      exact ⟨hfits.left.part .fn, hfits.right.part .fn⟩
    · intro H _ hH e he
      obtain ⟨hleft, hright⟩ := hH _ (List.mem_singleton_self _)
      rcases List.mem_cons.mp he with rfl | he
      · exact ⟨hleft.part .fn, hright.part .fn⟩
      · obtain ⟨hx, hy⟩ := List.of_mem_zip he
        exact ⟨hleft.part (.arg hx), hright.part (.arg hy)⟩
  · rw [if_neg hlen]
    refine .mismatch (clash_of_not_same fun φ hsame => hlen ?_) _ _
    simp only [Same, fill, skeleton, fillArgs_eq_map, skeletonArgs_eq_map, List.map_map,
      app.injEq] at hsame
    simpa using congrArg List.length hsame.2

theorem unifyForms_eq_decides (hrecur : Equates env n recur) (hh : s.holes.Acyclic)
    {l r l' r' : Term} (ha : s.holes.Plain env (.eq l r)) (hb : s.holes.Plain env (.eq l' r')) :
    Decides env (∃ H passed, s.holes.Fits H passed (n + 1) (.eq l r) (.eq l' r'))
      (unifyForms recur hyps (.eq l r) (.eq l' r')) s [(.eq l r, .eq l' r')] := by
  simp only [unifyForms]
  refine Decides.of_iff (Decides.seq
    ((hrecur s hyps l l' hh (ha.part .lhs) (hb.part .lhs)).mono ?_) fun s' hu =>
    (hrecur s' hyps r r' hu.acyclic (hu.plain r (ha.part .rhs)) (hu.plain r' (hb.part .rhs))).mono
      ?_) ?_ ?_
  · intro hen
    obtain ⟨H, passed, hfits⟩ := hen
    exact ⟨H, passed, hfits.part .lhs .lhs⟩
  · intro hen
    obtain ⟨H, passed, hfits⟩ := hen
    refine ⟨H, passed, (hfits.part .rhs .rhs).unified hu ⟨H, passed, hfits⟩ fun e he => ?_⟩
    obtain rfl := List.mem_singleton.mp he
    exact ⟨hfits.left.part .lhs, hfits.right.part .lhs⟩
  · intro φ _
    simp [Holds, Same, fill, skeleton]
  · intro H _ hH e he
    obtain ⟨hleft, hright⟩ := hH _ (List.mem_singleton_self _)
    rcases List.mem_pair.mp he with rfl | rfl
    · exact ⟨hleft.part .lhs, hright.part .lhs⟩
    · exact ⟨hleft.part .rhs, hright.part .rhs⟩

theorem unifyForms_refl_decides (hrecur : Equates env n recur) (hh : s.holes.Acyclic)
    {x y : Term} (ha : s.holes.Plain env (.refl x)) (hb : s.holes.Plain env (.refl y)) :
    Decides env (∃ H passed, s.holes.Fits H passed (n + 1) (.refl x) (.refl y))
      (unifyForms recur hyps (.refl x) (.refl y)) s [(.refl x, .refl y)] := by
  simp only [unifyForms]
  refine Decides.of_iff ((hrecur s hyps x y hh (ha.part .value) (hb.part .value)).mono ?_) ?_ ?_
  · intro hen
    obtain ⟨H, passed, hfits⟩ := hen
    exact ⟨H, passed, hfits.part .value .value⟩
  · intro φ _
    simp [Holds, Same, fill, skeleton]
  · intro H _ hH e he
    obtain rfl := List.mem_singleton.mp he
    obtain ⟨hleft, hright⟩ := hH _ (List.mem_singleton_self _)
    exact ⟨hleft.part .value, hright.part .value⟩

/-- Terms of different forms cannot become the same; those of the same form are compared part by
part. -/
theorem unifyForms_decides (hrecur : Equates env n recur) (hh : s.holes.Acyclic)
    (ha : s.holes.Plain env a) (hb : s.holes.Plain env b) (hna : ∀ i, a ≠ .hole i)
    (hnb : ∀ i, b ≠ .hole i) :
    Decides env (∃ H passed, s.holes.Fits H passed (n + 1) a b) (unifyForms recur hyps a b) s
      [(a, b)] := by
  have hfirst := ha.firstOrder
  have hsecond := hb.firstOrder
  rw [expand_eq_fill] at hfirst hsecond
  -- An atom is compared by its name.
  have hatom : ∀ p : Prop, ∀ [Decidable p],
      (∀ f, (a.fill false f).Same (b.fill false f) ↔ p) →
      Decides env (∃ H passed, s.holes.Fits H passed (n + 1) a b)
        (if p then Pure.pure () else mismatch a b) s [(a, b)] := by
    intro p _ hiff
    by_cases hp : p
    · rw [if_pos hp]
      exact .pure hh fun f => holds_singleton.mpr ((hiff f).mpr hp)
    · rw [if_neg hp]
      exact .mismatch (clash_of_not_same fun f hsame => hp ((hiff f).mp hsame)) _ _
  have hother : (∀ f, ¬ (a.fill false f).Same (b.fill false f)) →
      Decides env (∃ H passed, s.holes.Fits H passed (n + 1) a b) (mismatch a b) s [(a, b)] :=
    fun hne => .mismatch (clash_of_not_same hne) _ _
  cases a with
  | missing => cases hfirst
  | hole i => exact absurd rfl (hna i)
  | pi => cases hfirst
  | sort => cases hfirst
  | const m =>
    cases b with
    | hole i => exact absurd rfl (hnb i)
    | const m' => exact hatom _ fun f => by simp [Same, fill, skeleton]
    | _ => exact hother fun f => by simp [Same, fill, skeleton]
  | lit m =>
    cases b with
    | hole i => exact absurd rfl (hnb i)
    | lit m' => exact hatom _ fun f => by simp [Same, fill, skeleton]
    | _ => exact hother fun f => by simp [Same, fill, skeleton]
  | bound m =>
    cases b with
    | hole i => exact absurd rfl (hnb i)
    | bound m' => exact hatom _ fun f => by simp [Same, fill, skeleton]
    | _ => exact hother fun f => by simp [Same, fill, skeleton]
  | app f xs =>
    cases b with
    | hole i => exact absurd rfl (hnb i)
    | app g ys => exact unifyForms_app_decides hrecur hh ha hb
    | _ => exact hother fun f => by simp [Same, fill, skeleton]
  | eq l r =>
    cases b with
    | hole i => exact absurd rfl (hnb i)
    | eq l' r' => exact unifyForms_eq_decides hrecur hh ha hb
    | _ => exact hother fun f => by simp [Same, fill, skeleton]
  | refl x =>
    cases b with
    | hole i => exact absurd rfl (hnb i)
    | refl y => exact unifyForms_refl_decides hrecur hh ha hb
    | _ => exact hother fun f => by simp [Same, fill, skeleton]

end Forms

/-- Between followed terms, the equation is a solution if one of them is a hole. -/
theorem unifyHeads_followed (henv : ∀ name args, env.reduce? name args = none)
    (hh : s.holes.Acyclic) {compare : Term → Term → Solve Unit}
    (ha : s.holes.Plain env (s.holes.follow a)) (hb : s.holes.Plain env (s.holes.follow b))
    (hcompare : (∀ i, s.holes.follow a ≠ .hole i) → (∀ i, s.holes.follow b ≠ .hole i) →
      Decides env enough (compare (s.holes.follow a) (s.holes.follow b)) s
        [(s.holes.follow a, s.holes.follow b)]) :
    Decides env enough (unifyHeads env compare hyps a b) s
      [(s.holes.follow a, s.holes.follow b)] := by
  have hopen : ∀ t : Term, ∀ i, s.holes.follow t = .hole i → s.holes.solution? i = none :=
    fun t i hi => (follow_eq_hole (fun j _ => hh.grounded j) hi).1
  have hopena := hopen a
  have hopenb := hopen b
  unfold unifyHeads
  rw [Decides, ends_bind, ends_holes]
  generalize s.holes.follow a = a' at *
  generalize s.holes.follow b = b' at *
  by_cases hhole : ∃ v, a' = .hole v
  · obtain ⟨v, rfl⟩ := hhole
    have hbind : s.holes.expand b' ≠ .hole v →
        Decides env enough (bind env hyps v b') s [(.hole v, b')] :=
      fun hne => bind_decides henv hh ha (hopena v rfl) hb hne
    cases b' with
    | hole w =>
      by_cases heq : v = w
      · subst heq
        dsimp only
        rw [if_pos rfl]
        exact Decides.pure hh fun f => holds_singleton.mpr rfl
      · dsimp only
        rw [if_neg heq]
        refine hbind fun hread => heq ?_
        rw [expand_of_open (hopenb w rfl)] at hread
        exact (hole.inj hread).symm
    | _ =>
      refine hbind ?_
      rw [expand_eq_fill]
      exact nofun
  · have hne : ∀ i, a' ≠ .hole i := fun i hi => hhole ⟨i, hi⟩
    by_cases hhole' : ∃ w, b' = .hole w
    · obtain ⟨w, rfl⟩ := hhole'
      have hread : s.holes.expand a' ≠ .hole w := by
        rw [expand_eq_fill]
        cases a' with
        | hole i => exact absurd rfl (hne i)
        | _ => exact nofun
      have hbind : Decides env enough (bind env hyps w a') s [(a', .hole w)] :=
        (bind_decides henv hh hb (hopenb w rfl) ha hread).of_iff (fun _ _ => holds_swap)
          fun H _ heqs e he => by
            obtain rfl := List.mem_singleton.mp he
            exact (heqs _ (List.mem_singleton_self _)).symm
      cases a' with
      | hole i => exact absurd rfl (hne i)
      | _ => exact hbind
    · have hne' : ∀ i, b' ≠ .hole i := fun i hi => hhole' ⟨i, hi⟩
      have hforms := hcompare hne hne'
      split
      · exact absurd rfl (hne _)
      · exact absurd rfl (hne _)
      · exact absurd rfl (hne' _)
      · exact hforms

theorem unifyHeads_decides (henv : ∀ name args, env.reduce? name args = none)
    (hh : s.holes.Acyclic) (ha : s.holes.Plain env a) (hb : s.holes.Plain env b)
    {compare : Term → Term → Solve Unit}
    (hcompare : (∀ i, s.holes.follow a ≠ .hole i) → (∀ i, s.holes.follow b ≠ .hole i) →
      Decides env enough (compare (s.holes.follow a) (s.holes.follow b)) s
        [(s.holes.follow a, s.holes.follow b)]) :
    Decides env enough (unifyHeads env compare hyps a b) s [(a, b)] := by
  have hfollowed : Decides env enough (unifyHeads env compare hyps a b) s
      [(s.holes.follow a, s.holes.follow b)] :=
    unifyHeads_followed henv hh (ha.follow hh) (hb.follow hh) hcompare
  refine hfollowed.of_iff (fun _ hf => holds_congr (hf.fill_follow a) (hf.fill_follow b))
    fun H hH heqs e he => ?_
  obtain rfl := List.mem_singleton.mp he
  obtain ⟨hleft, hright⟩ := heqs _ (List.mem_singleton_self _)
  exact ⟨hH.within_followN hleft _, hH.within_followN hright _⟩

/-- A depth of zero is not enough for any terms. -/
theorem not_fits_zero {h : Holes} : ¬ ∃ H passed, h.Fits H passed 0 a b := by
  intro hen
  obtain ⟨H, passed, hfits⟩ := hen
  have hdepth := hfits.depth
  have hpos := (H.table.expand a).size_pos
  omega

theorem unifyNormalN_decides (henv : ∀ name args, env.reduce? name args = none) (n : Nat) :
    Equates env n (unifyNormalN env n) := by
  induction n with
  | zero =>
    intro s hyps a b _ _ _
    exact fun hen => absurd hen not_fits_zero
  | succ n ih =>
    intro s hyps a b hh ha hb
    refine unifyHeads_decides henv hh ha hb fun hna hnb => ?_
    refine (unifyForms_decides ih hh (ha.follow hh) (hb.follow hh) hna hnb).mono ?_
    intro hen
    obtain ⟨H, passed, hfits⟩ := hen
    obtain ⟨passed', hfits'⟩ := hfits.follow hh
    exact ⟨H, passed', hfits'⟩

/-- Unification of normal forms goes deep enough. -/
theorem unifyNormal_decides (henv : ∀ name args, env.reduce? name args = none)
    (hh : s.holes.Acyclic) (ha : s.holes.Plain env a) (hb : s.holes.Plain env b) :
    Decides env True (unifyNormal env hyps a b) s [(a, b)] := by
  unfold unifyNormal
  rw [Decides, ends_bind, ends_holes]
  exact (unifyNormalN_decides henv _ s hyps a b hh ha hb).mono
    fun _ => (exists_fits_depthBound hh a b).imp fun _ hfits => ⟨_, hfits⟩

/-- Normal forms are compared after a failed attempt, from the same table. -/
theorem attempt_decides (henv : ∀ name args, env.reduce? name args = none) (hh : s.holes.Acyclic)
    (ha : s.holes.Plain env a) (hb : s.holes.Plain env b) {x : Solve Unit}
    (hrecorded : IsRecorded x) (hx : Decides env enough x s.speculate [(a, b)]) :
    Decides env enough (tryCatch (attempt x) fun _ => do
      let h ← holes
      unifyNormal env hyps (h.normalize env a) (h.normalize env b)) s [(a, b)] := by
  rw [Decides, ends_tryCatch, ends_attempt]
  apply (Ends.and hx (hrecorded s.speculate)).mono
  · exact fun _ _ hstep => hstep.1
  · intro e s' hfailed
    obtain ⟨hclash, hstep⟩ := hfailed
    have hholes : (s'.rollback s.mark).holes = s.holes := by rw [hstep.rollback]
    generalize s'.rollback s.mark = s₁ at hholes ⊢
    have hnormal : Decides env True
        (unifyNormal env hyps (s.holes.expand a) (s.holes.expand b)) s₁
        [(s.holes.expand a, s.holes.expand b)] := by
      apply unifyNormal_decides henv
      · rwa [hholes]
      · rw [hholes]
        exact ha.expand hh
      · rw [hholes]
        exact hb.expand hh
    rw [Decides, hholes] at hnormal
    rw [ends_bind, ends_holes, hholes, normalize_eq_expand henv, normalize_eq_expand henv]
    apply hnormal.mono
    · intro _ s'' hu
      -- The normal forms unify only if the attempt did not go deep enough.
      have hexact : ∀ f, s''.holes.Agrees f ↔ s.holes.Agrees f ∧ Holds f [(a, b)] :=
        fun f => (hu.exact f).trans
          (and_congr_right fun hf => holds_congr (hf.fill_expand a) (hf.fill_expand b))
      have hdeep : ¬ enough := by
        intro hen
        obtain ⟨hf, hholds⟩ := (hexact _).mp (through_agrees hu.acyclic .hole)
        exact (hclash hen).2 _ hf hholds
      exact { hu with exact := hexact, bounded := fun hen => absurd hen hdeep }
    · intro e' _ hfailed' _
      obtain ⟨hdeep, hclash'⟩ := hfailed' trivial
      exact ⟨hdeep, fun f hf hholds => hclash' f hf
        ((holds_congr (hf.fill_expand a) (hf.fill_expand b)).mpr hholds)⟩

theorem unifyN_decides (henv : ∀ name args, env.reduce? name args = none) (n : Nat) :
    Equates env n (unifyN env n) := by
  induction n with
  | zero =>
    intro s hyps a b _ _ _
    exact fun hen => absurd hen not_fits_zero
  | succ n ih =>
    intro s hyps a b hh ha hb
    refine unifyHeads_decides henv hh ha hb fun hna hnb => ?_
    have ha' := ha.follow hh
    have hb' := hb.follow hh
    have hforms : Decides env
        (∃ H passed, s.holes.Fits H passed (n + 1) (s.holes.follow a) (s.holes.follow b))
        (unifyForms (unifyN env n) hyps (s.holes.follow a) (s.holes.follow b)) s.speculate
        [(s.holes.follow a, s.holes.follow b)] := unifyForms_decides ih hh ha' hb' hna hnb
    refine attempt_decides henv hh ha' hb' (unifyForms_recorded (unifyN_recorded n) hyps _ _)
      (hforms.mono ?_)
    intro hen
    obtain ⟨H, passed, hfits⟩ := hen
    obtain ⟨passed', hfits'⟩ := hfits.follow hh
    exact ⟨H, passed', hfits'⟩

theorem unify_decides (henv : ∀ name args, env.reduce? name args = none) (hh : s.holes.Acyclic)
    (ha : s.holes.Plain env a) (hb : s.holes.Plain env b) :
    Decides env True (unify env hyps a b) s [(a, b)] := by
  unfold unify
  rw [Decides, ends_bind, ends_holes]
  exact (unifyN_decides henv _ s hyps a b hh ha hb).mono
    fun _ => (exists_fits_depthBound hh a b).imp fun _ hfits => ⟨_, hfits⟩

/-- Unification of first-order terms ends before its depth runs out, succeeds exactly if the terms
have a unifier, and then leaves a most general one in the table. -/
theorem unify_most_general (henv : env.reductions = []) (hh : s.holes.Acyclic)
    (ha : s.holes.Plain env a) (hb : s.holes.Plain env b) (hyps : Context) :
    ∃ outcome s', (unify env hyps a b).run s = (outcome, s') ∧ outcome ≠ .error .tooDeep ∧
      (outcome = .ok () ↔ ∃ f, s.holes.Unifies f a b) ∧
      (outcome = .ok () →
        s'.holes.Acyclic ∧ (∀ i t, s.holes.solution? i = some t → s'.holes.solution? i = some t) ∧
        (s'.holes.expand a).Same (s'.holes.expand b) ∧
        ∀ f, s.holes.Unifies f a b → ∀ i, s.holes.solution? i = none →
          (f i).Same ((s'.holes.expand (.hole i)).fill false f)) := by
  have hreduce : ∀ name args, env.reduce? name args = none := by
    intro name args
    rw [Declarations.reduce?, Declarations.reduction?, henv]
    rfl
  have hdecides : Decides env True (unify env hyps a b) s [(a, b)] := unify_decides hreduce hh ha hb
  rcases hrun : (unify env hyps a b).run s with ⟨e | _, s'⟩
  · obtain ⟨hdeep, hclash⟩ := hdecides.of_error hrun trivial
    refine ⟨_, _, rfl, by simpa using hdeep, ⟨by simp, fun hunifier => ?_⟩, by simp⟩
    obtain ⟨f, hf⟩ := hunifier
    exact absurd (holds_through.mpr hf) (hclash _ (through_agrees hh f))
  · have hu := hdecides.of_ok hrun
    obtain ⟨hf, hholds⟩ := (hu.exact _).mp (through_agrees hu.acyclic .hole)
    refine ⟨_, _, rfl, by simp, ⟨fun _ => ⟨s'.holes.through .hole, ?_⟩, fun _ => rfl⟩, fun _ =>
      ⟨hu.acyclic, hu.solved, ?_, fun f hf i hi => factors_of_unified hh hu hf hi⟩⟩
    · exact holds_singleton.mp ((holds_congr (hf.fill_expand a) (hf.fill_expand b)).mpr hholds)
    · have hsame := holds_singleton.mp hholds
      rwa [fill_through, fill_through, fill_hole, fill_hole] at hsame

def linkedHoles : Solver where
  holes := (((Holes.add {} "x" 0 .missing).add "y" 1 .missing).add "z" 2 .missing).solve 2
    (.refl (.hole 1))

theorem acyclic_linkedHoles : linkedHoles.holes.Acyclic := by
  have hdown : ∀ i j, linkedHoles.holes.Links i j → j < i := by
    intro i j hlink
    obtain ⟨u, hu, hj⟩ := hlink
    match i with
    | 0 => cases hu
    | 1 => cases hu
    | 2 =>
      obtain rfl := Option.some.inj hu
      obtain rfl := shows_hole.mp (shows_refl.mp hj)
      decide
    | k + 3 => cases hu
  have hbehind : ∀ i j, TransGen linkedHoles.holes.Links i j → j < i := by
    intro i j hij
    induction hij with
    | single hlink => exact hdown _ _ hlink
    | tail _ hlink ih => exact (hdown _ _ hlink).trans ih
  exact fun i hi => Nat.lt_irrefl i (hbehind i i hi)

theorem plain_linkedHoles {t u : Term} (hread : linkedHoles.holes.expand t = u)
    (hfirst : u.FirstOrder) (hshows : ∀ i, u.Shows i → i = 0 ∨ i = 1) :
    linkedHoles.holes.Plain {} t := by
  subst hread
  refine ⟨hfirst, fun i hi => ?_, fun i hi => ?_⟩
  · obtain rfl | rfl := hshows i hi <;> decide
  · obtain rfl | rfl := hshows i hi <;> rfl

theorem firstOrder_pair {x y : Term} (hx : x.FirstOrder) (hy : y.FirstOrder) :
    (pair x y).FirstOrder := by
  refine .app .const fun a ha => ?_
  obtain rfl | rfl := List.mem_pair.mp ha
  · exact hx
  · exact hy

/-- The pairs `(x, z)` and `(f y, refl c)`, where `z` stands for `refl y`: the second parts give
`y`, and with it `x`. -/
theorem unify_most_general_linkedHoles :
    ∃ s', (unify {} {} (pair (.hole 0) (.hole 2))
        (pair (.app (.const "f") [.hole 1]) (.refl (.const "c")))).run linkedHoles = (.ok (), s') ∧
      (s'.holes.expand (pair (.hole 0) (.hole 2))).Same
        (s'.holes.expand (pair (.app (.const "f") [.hole 1]) (.refl (.const "c")))) ∧
      ∀ f, linkedHoles.holes.Unifies f (pair (.hole 0) (.hole 2))
          (pair (.app (.const "f") [.hole 1]) (.refl (.const "c"))) →
        ∀ i, linkedHoles.holes.solution? i = none →
          (f i).Same ((s'.holes.expand (.hole i)).fill false f) := by
  have hleft : linkedHoles.holes.Plain {} (pair (.hole 0) (.hole 2)) := by
    refine plain_linkedHoles (u := pair (.hole 0) (.refl (.hole 1))) rfl
      (firstOrder_pair .hole (.refl .hole)) fun i hi => ?_
    simpa [pair, eq_comm] using hi
  have hright : linkedHoles.holes.Plain {}
      (pair (.app (.const "f") [.hole 1]) (.refl (.const "c"))) := by
    refine plain_linkedHoles (u := pair (.app (.const "f") [.hole 1]) (.refl (.const "c"))) rfl
      (firstOrder_pair (.app .const (by simpa using .hole)) (.refl .const)) fun i hi => ?_
    exact .inr (by simpa [pair, eq_comm] using hi)
  obtain ⟨outcome, s', hrun, -, hiff, hmgu⟩ :=
    unify_most_general rfl acyclic_linkedHoles hleft hright {}
  have hok : outcome = .ok () := hiff.mpr
    ⟨fun i => if i = 0 then .app (.const "f") [.const "c"] else .const "c", rfl⟩
  obtain ⟨-, -, hsame, hfactors⟩ := hmgu hok
  exact ⟨s', hok ▸ hrun, hsame, hfactors⟩

end Solve

end Implicits
