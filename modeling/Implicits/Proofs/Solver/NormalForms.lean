import Implicits.Proofs.Solver.Endings

/-!
What a normalization comes to. It reads solved holes and fires rules at the positions that it
enters, and the reductions that it counts down are the rules that it fires. If some are left at the
end, nothing is left to be done: no rule applies and no hole that is shown is solved, so that
normalizing again changes nothing. The rules may loop and need not agree with each other.
-/
namespace Implicits

open Relation Term

namespace Holes

/-- A number of rules is fired on the way from a term to another. Solved holes may be read on the
way, and the types of literals and the tactics of parameters are not entered. -/
inductive Rewrites (h : Holes) (env : Declarations) : Nat → Term → Term → Prop
  | refl (t : Term) : Rewrites h env 0 t t
  | trans {m n : Nat} {t u w : Term} (ht : Rewrites h env m t u) (hu : Rewrites h env n u w) :
    Rewrites h env (m + n) t w
  | read {i : HoleId} {u : Term} (hu : h.solution? i = some u) : Rewrites h env 0 (.hole i) u
  | const {name : String} {u : Term} (hu : env.reduce? name [] = some u) :
    Rewrites h env 1 (.const name) u
  | app {name : String} {args : List Term} {u : Term} (hu : env.reduce? name args = some u) :
    Rewrites h env 1 (.app (.const name) args) u
  | fn {n : Nat} {t u : Term} {args : List Term} (ht : Rewrites h env n t u) :
    Rewrites h env n (.app t args) (.app u args)
  | arg {n : Nat} {f t u : Term} {before after : List Term} (ht : Rewrites h env n t u) :
    Rewrites h env n (.app f (before ++ t :: after)) (.app f (before ++ u :: after))
  | param {n : Nat} {p : Param Term} {u result : Term} {before after : List (Param Term)}
    (ht : Rewrites h env n p.type u) :
    Rewrites h env n (.pi (before ++ p :: after) result)
      (.pi (before ++ { p with type := u } :: after) result)
  | result {n : Nat} {params : List (Param Term)} {t u : Term} (ht : Rewrites h env n t u) :
    Rewrites h env n (.pi params t) (.pi params u)
  | lhs {n : Nat} {t u rhs : Term} (ht : Rewrites h env n t u) :
    Rewrites h env n (.eq t rhs) (.eq u rhs)
  | rhs {n : Nat} {t u lhs : Term} (ht : Rewrites h env n t u) :
    Rewrites h env n (.eq lhs t) (.eq lhs u)
  | value {n : Nat} {t u : Term} (ht : Rewrites h env n t u) : Rewrites h env n (.refl t) (.refl u)

structure IsNormal (h : Holes) (env : Declarations) (t : Term) : Prop where
  holes : ∀ i, ReflTransGen Part (.hole i) t → h.solution? i = none
  consts : ∀ name, ReflTransGen Part (.const name) t → env.reduce? name [] = none
  apps : ∀ name args, ReflTransGen Part (.app (.const name) args) t → env.reduce? name args = none

variable {h : Holes} {env : Declarations} {t u : Term}

namespace IsNormal

theorem part (ht : h.IsNormal env t) (hu : u.Part t) : h.IsNormal env u where
  holes i hi := ht.holes i (hi.tail hu)
  consts name hname := ht.consts name (hname.tail hu)
  apps name args happ := ht.apps name args (happ.tail hu)

theorem of_parts (hparts : ∀ u, u.Part t → h.IsNormal env u)
    (hhole : ∀ i, t = .hole i → h.solution? i = none)
    (hconst : ∀ name, t = .const name → env.reduce? name [] = none)
    (happ : ∀ name args, t = .app (.const name) args → env.reduce? name args = none) :
    h.IsNormal env t where
  holes i hi := by
    rcases hi.cases_tail with heq | ⟨u, hi, hu⟩
    · exact hhole i heq
    · exact (hparts u hu).holes i hi
  consts name hname := by
    rcases hname.cases_tail with heq | ⟨u, hname, hu⟩
    · exact hconst name heq
    · exact (hparts u hu).consts name hname
  apps name args hargs := by
    rcases hargs.cases_tail with heq | ⟨u, hargs, hu⟩
    · exact happ name args heq
    · exact (hparts u hu).apps name args hargs

theorem app {fn : Term} {args : List Term} (hfn : h.IsNormal env fn)
    (hargs : ∀ a ∈ args, h.IsNormal env a)
    (hrule : ∀ name, fn = .const name → env.reduce? name args = none) :
    h.IsNormal env (.app fn args) := by
  refine of_parts (fun u hu => ?_) nofun nofun fun name args' heq => ?_
  · cases hu with
    | fn => exact hfn
    | arg ha => exact hargs _ ha
  · obtain ⟨hconst, rfl⟩ := Term.app.inj heq
    exact hrule name hconst

theorem pi {params : List (Param Term)} {result : Term}
    (hparams : ∀ p ∈ params, h.IsNormal env p.type) (hresult : h.IsNormal env result) :
    h.IsNormal env (.pi params result) := by
  refine of_parts (fun u hu => ?_) nofun nofun nofun
  cases hu with
  | param hp => exact hparams _ hp
  | result => exact hresult

theorem eq {lhs rhs : Term} (hl : h.IsNormal env lhs) (hr : h.IsNormal env rhs) :
    h.IsNormal env (.eq lhs rhs) := by
  refine of_parts (fun u hu => ?_) nofun nofun nofun
  cases hu with
  | lhs => exact hl
  | rhs => exact hr

theorem refl {value : Term} (hv : h.IsNormal env value) : h.IsNormal env (.refl value) := by
  refine of_parts (fun u hu => ?_) nofun nofun nofun
  cases hu
  exact hv

end IsNormal

section Pass

variable {fire : String → List Term → Nat → Option (Term × Nat)}

def Pays (h : Holes) (env : Declarations) (t : Term) (left : Nat) (out : Term × Nat) : Prop :=
  ∃ fired, fired + out.2 = left ∧ h.Rewrites env fired t out.1

namespace Pays

variable {left : Nat} {out out' : Term × Nat}

theorem refl (t : Term) (left : Nat) : h.Pays env t left (t, left) :=
  ⟨0, Nat.zero_add left, .refl t⟩

theorem trans (ht : h.Pays env t left out) (hout : h.Pays env out.1 out.2 out') :
    h.Pays env t left out' := by
  obtain ⟨m, hm, ht⟩ := ht
  obtain ⟨n, hn, hout⟩ := hout
  exact ⟨m + n, by omega, ht.trans hout⟩

/-- What happens at a position happens to the term around it. -/
theorem lift (wrap : Term → Term)
    (hwrap : ∀ n t u, h.Rewrites env n t u → h.Rewrites env n (wrap t) (wrap u))
    (ht : h.Pays env t left out) : h.Pays env (wrap t) left (wrap out.1, out.2) := by
  obtain ⟨n, hn, ht⟩ := ht
  exact ⟨n, hn, hwrap n _ _ ht⟩

theorem of_reads (ht : h.Rewrites env 0 t u) (hu : h.Pays env u left out) :
    h.Pays env t left out := by
  obtain ⟨n, hn, hu⟩ := hu
  exact ⟨n, hn, by simpa using ht.trans hu⟩

theorem of_fires (ht : h.Rewrites env 1 t u) (hu : h.Pays env u left out) :
    h.Pays env t (left + 1) out := by
  obtain ⟨n, hn, hu⟩ := hu
  exact ⟨1 + n, by omega, ht.trans hu⟩

end Pays

/-- Where each outcome is paid for, a pass over a list of arguments is. -/
theorem pays_normalizeArgs {args : List Term}
    (hargs : ∀ a ∈ args, ∀ left, h.Pays env a left (a.normalizeWith fire left)) (fn : Term)
    (before : List Term) (left : Nat) :
    h.Pays env (.app fn (before ++ args)) left
      (.app fn (before ++ (normalizeArgs fire args left).1), (normalizeArgs fire args left).2) := by
  induction args generalizing before left with
  | nil => exact .refl _ _
  | cons a args ih =>
    have hhead := (hargs a (by simp) left).lift (fun t => .app fn (before ++ t :: args))
      fun n t u ht => ht.arg
    have hrest := ih (fun b hb => hargs b (by simp [hb]))
      (before ++ [(a.normalizeWith fire left).1]) (a.normalizeWith fire left).2
    simp only [List.append_assoc, List.singleton_append] at hrest
    exact hhead.trans hrest

theorem pays_normalizeParams {params : List (Param Term)}
    (hparams : ∀ p ∈ params, ∀ left, h.Pays env p.type left (p.type.normalizeWith fire left))
    (result : Term) (before : List (Param Term)) (left : Nat) :
    h.Pays env (.pi (before ++ params) result) left
      (.pi (before ++ (normalizeParams fire params left).1) result,
        (normalizeParams fire params left).2) := by
  induction params generalizing before left with
  | nil => exact .refl _ _
  | cons p params ih =>
    have hhead := (hparams p (by simp) left).lift
      (fun t => .pi (before ++ { p with type := t } :: params) result)
      fun n t u ht => .param (p := { p with type := t }) ht
    have hrest := ih (fun q hq => hparams q (by simp [hq]))
      (before ++ [{ p with type := (p.type.normalizeWith fire left).1 }])
      (p.type.normalizeWith fire left).2
    simp only [List.append_assoc, List.singleton_append] at hrest
    exact hhead.trans hrest

/-- A pass pays for each rule that it fires if each outcome is paid for. -/
theorem pays_normalizeWith
    (hfire : ∀ name args left out, fire name args left = some out →
      ∃ u, env.reduce? name args = some u ∧ ∃ rest, left = rest + 1 ∧ h.Pays env u rest out)
    (t : Term) : ∀ left, h.Pays env t left (t.normalizeWith fire left) := by
  induction t using induct with
  | missing | lit | bound | hole | sort => exact fun left => .refl _ _
  | const name =>
    intro left
    rw [normalizeWith]
    cases hout : fire name [] left with
    | none => exact .refl _ _
    | some out =>
      obtain ⟨u, hu, rest, rfl, hpays⟩ := hfire name [] left out hout
      exact .of_fires (.const hu) hpays
  | app fn args ihf ihargs =>
    intro left
    have hfn := (ihf left).lift (fun t => .app t args) fun n t u ht => ht.fn
    have hargs := pays_normalizeArgs ihargs (fn.normalizeWith fire left).1 []
      (fn.normalizeWith fire left).2
    have hparts := hfn.trans hargs
    simp only [List.nil_append] at hparts
    simp only [normalizeWith]
    split
    · rename_i name hname
      rw [hname] at hparts
      cases hout : fire name (normalizeArgs fire args (fn.normalizeWith fire left).2).1
          (normalizeArgs fire args (fn.normalizeWith fire left).2).2 with
      | none => rw [hname]; exact hparts
      | some out =>
        obtain ⟨u, hu, rest, hrest, hpays⟩ := hfire _ _ _ out hout
        refine hparts.trans ?_
        rw [hrest]
        exact .of_fires (.app hu) hpays
    · exact hparts
  | pi params result ihparams ihr =>
    intro left
    have hparams := pays_normalizeParams ihparams result [] left
    have hresult := (ihr (normalizeParams fire params left).2).lift
      (fun t => .pi (normalizeParams fire params left).1 t) fun n t u ht => ht.result
    exact hparams.trans hresult
  | eq lhs rhs ihl ihr =>
    intro left
    have hl := (ihl left).lift (fun t => .eq t rhs) fun n t u ht => ht.lhs
    have hr := (ihr (lhs.normalizeWith fire left).2).lift
      (fun t => .eq (lhs.normalizeWith fire left).1 t) fun n t u ht => ht.rhs
    exact hl.trans hr
  | refl value ih =>
    exact fun left => (ih left).lift Term.refl fun n t u ht => ht.value

end Pass

section Reading

variable {f : HoleId → Term}

/-- Reading holes fires no rule. -/
theorem rewrites_fill (hf : ∀ i, h.Rewrites env 0 (.hole i) (f i)) (t : Term) :
    h.Rewrites env 0 t (t.fill false f) := by
  induction t using induct with
  | missing | const | lit | bound | sort => exact .refl _
  | hole i => exact hf i
  | app fn args ihf ihargs =>
    have hargs : ∀ before, h.Rewrites env 0 (.app (fn.fill false f) (before ++ args))
        (.app (fn.fill false f) (before ++ args.map (Term.fill false f))) := by
      induction args with
      | nil => exact fun before => .refl _
      | cons a args ih =>
        intro before
        have hrest := ih (fun b hb => ihargs b (by simp [hb])) (before ++ [a.fill false f])
        simp only [List.append_assoc, List.singleton_append] at hrest
        exact (ihargs a (by simp)).arg.trans hrest
    rw [fill, fillArgs_eq_map]
    exact ihf.fn.trans (hargs [])
  | pi params result ihparams ihr =>
    have hparams : ∀ before, h.Rewrites env 0 (.pi (before ++ params) result)
        (.pi (before ++ params.map fun p => { p with type := p.type.fill false f }) result) := by
      induction params with
      | nil => exact fun before => .refl _
      | cons p params ih =>
        intro before
        have hrest := ih (fun q hq => ihparams q (by simp [hq]))
          (before ++ [{ p with type := p.type.fill false f }])
        simp only [List.append_assoc, List.singleton_append] at hrest
        exact (ihparams p (by simp)).param.trans hrest
    rw [fill, fillParams_eq_map]
    exact (hparams []).trans ihr.result
  | eq lhs rhs ihl ihr => exact ihl.lhs.trans ihr.rhs
  | refl value ih => exact ih.value

theorem rewrites_expand (h : Holes) (env : Declarations) (t : Term) :
    h.Rewrites env 0 t (h.expand t) := by
  unfold expand
  generalize h.size = n
  induction n generalizing t with
  | zero => exact .refl t
  | succ n ih =>
    refine rewrites_fill (fun i => ?_) t
    cases hi : h.solution? i with
    | none => exact .refl _
    | some u => exact (Rewrites.read hi).trans (ih u)

end Reading

/-- The reductions that a normalization uses up are the rules that it fires. -/
theorem pays_normalizeN (n : Nat) (t : Term) (left : Nat) :
    h.Pays env t left (h.normalizeN env n t left) := by
  induction n generalizing t left with
  | zero => exact .refl t left
  | succ n ih =>
    rw [normalizeN_succ]
    refine .of_reads (rewrites_expand h env t)
      (pays_normalizeWith (fun name args left out hout => ?_) _ left)
    obtain ⟨u, rest, rfl, hu, rfl⟩ := fireN_eq_some hout
    exact ⟨u, hu, rest, rfl, ih u rest⟩

section Normal

variable {fire : String → List Term → Nat → Option (Term × Nat)} {bound : Nat}

/-- With reductions left, an attempt on a constant either fires, and gives a normal form, or no rule
applies. As the outcomes of rules are normalized with fewer reductions, only so many are asked for.
-/
structure Settles (h : Holes) (env : Declarations) (bound : Nat)
    (fire : String → List Term → Nat → Option (Term × Nat)) : Prop where
  spends : Spends fire
  fired : ∀ name args left out, left ≤ bound → fire name args left = some out → 0 < out.2 →
    h.IsNormal env out.1
  blocked : ∀ name args left, 0 < left → fire name args left = none → env.reduce? name args = none

namespace Settles

theorem getD (hfire : h.Settles env bound fire) {name : String} {args : List Term} {left : Nat}
    (hleft : left ≤ bound) (ht : env.reduce? name args = none → h.IsNormal env t)
    (hpos : 0 < ((fire name args left).getD (t, left)).2) :
    h.IsNormal env ((fire name args left).getD (t, left)).1 := by
  cases hout : fire name args left with
  | none =>
    rw [hout] at hpos
    exact ht (hfire.blocked name args left hpos hout)
  | some out =>
    rw [hout] at hpos
    exact hfire.fired name args left out hleft hout hpos

theorem normalizeArgs (hfire : h.Settles env bound fire) {args : List Term}
    (hargs : ∀ a ∈ args, ∀ left, left ≤ bound → 0 < (a.normalizeWith fire left).2 →
      h.IsNormal env (a.normalizeWith fire left).1) {left : Nat} (hleft : left ≤ bound)
    (hpos : 0 < (normalizeArgs fire args left).2) :
    ∀ a ∈ (normalizeArgs fire args left).1, h.IsNormal env a := by
  induction args generalizing left with
  | nil => nofun
  | cons a args ih =>
    have hmid := hfire.spends.normalizeWith_le a left
    have hend : (Term.normalizeArgs fire args (a.normalizeWith fire left).2).2 ≤ _ :=
      normalizeArgs_le (fun b _ => hfire.spends.normalizeWith_le b) _
    simp only [Term.normalizeArgs] at hpos ⊢
    refine List.forall_mem_cons.mpr ⟨hargs a (by simp) left hleft (by omega), ?_⟩
    exact ih (fun b hb => hargs b (by simp [hb])) (by omega) hpos

theorem normalizeParams (hfire : h.Settles env bound fire) {params : List (Param Term)}
    (hparams : ∀ p ∈ params, ∀ left, left ≤ bound → 0 < (p.type.normalizeWith fire left).2 →
      h.IsNormal env (p.type.normalizeWith fire left).1) {left : Nat} (hleft : left ≤ bound)
    (hpos : 0 < (normalizeParams fire params left).2) :
    ∀ p ∈ (normalizeParams fire params left).1, h.IsNormal env p.type := by
  induction params generalizing left with
  | nil => nofun
  | cons p params ih =>
    have hmid := hfire.spends.normalizeWith_le p.type left
    have hend : (Term.normalizeParams fire params (p.type.normalizeWith fire left).2).2 ≤ _ :=
      normalizeParams_le (fun q _ => hfire.spends.normalizeWith_le q.type) _
    simp only [Term.normalizeParams] at hpos ⊢
    refine List.forall_mem_cons.mpr ⟨hparams p (by simp) left hleft (by omega), ?_⟩
    exact ih (fun q hq => hparams q (by simp [hq])) (by omega) hpos

/-- A pass over a term whose holes are open reaches a normal form if it does not run out of
reductions. -/
theorem normalizeWith (hfire : h.Settles env bound fire) {t : Term}
    (ht : ∀ i, t.Shows i → h.solution? i = none) :
    ∀ left, left ≤ bound → 0 < (t.normalizeWith fire left).2 →
      h.IsNormal env (t.normalizeWith fire left).1 := by
  induction t using induct with
  | missing | lit | bound | sort =>
    exact fun left hleft hpos => .of_parts nofun nofun nofun nofun
  | hole i =>
    intro left hleft hpos
    refine .of_parts nofun (fun j hj => ?_) nofun nofun
    exact ht j (shows_hole.mpr (Term.hole.inj hj))
  | const name =>
    intro left hleft hpos
    refine hfire.getD hleft (fun hnone => ?_) hpos
    exact .of_parts nofun nofun (fun m hm => Term.const.inj hm ▸ hnone) nofun
  | app fn args ihf ihargs =>
    intro left hleft hpos
    have hfn := hfire.spends.normalizeWith_le fn left
    have hargs : (Term.normalizeArgs fire args (fn.normalizeWith fire left).2).2 ≤ _ :=
      normalizeArgs_le (fun a _ => hfire.spends.normalizeWith_le a) _
    have happ (hend : 0 < (Term.normalizeArgs fire args (fn.normalizeWith fire left).2).2) :=
      IsNormal.app (ihf (fun i hi => ht i (by simp [hi])) left hleft (by omega))
        (hfire.normalizeArgs
          (fun a ha => ihargs a ha fun i hi => ht i (shows_app.mpr (.inr ⟨a, ha, hi⟩)))
          (hfn.trans hleft) hend)
    simp only [Term.normalizeWith] at hpos ⊢
    generalize Term.normalizeWith fire fn left = fn' at *
    generalize Term.normalizeArgs fire args fn'.2 = args' at *
    split at hpos
    · rename_i name hname
      have hend := hfire.spends.getD_le name args'.1 args'.2 (.app fn'.1 args'.1)
      refine hfire.getD (by omega) (fun hnone => happ (by omega) fun m hm => ?_) hpos
      obtain rfl := Term.const.inj (hname.symm.trans hm)
      exact hnone
    · rename_i hother
      exact happ hpos fun name hname => (hother name hname).elim
  | pi params result ihparams ihr =>
    intro left hleft hpos
    have hmid : (Term.normalizeParams fire params left).2 ≤ left :=
      normalizeParams_le (fun p _ => hfire.spends.normalizeWith_le p.type) left
    have hend := hfire.spends.normalizeWith_le result (Term.normalizeParams fire params left).2
    simp only [Term.normalizeWith] at hpos ⊢
    refine .pi (hfire.normalizeParams (fun p hp => ihparams p hp fun i hi => ht i ?_) hleft
      (by omega)) ?_
    · exact shows_pi.mpr (.inl ⟨p, hp, hi⟩)
    · exact ihr (fun i hi => ht i (by simp [hi])) _ (by omega) hpos
  | eq lhs rhs ihl ihr =>
    intro left hleft hpos
    have hmid := hfire.spends.normalizeWith_le lhs left
    have hend := hfire.spends.normalizeWith_le rhs (lhs.normalizeWith fire left).2
    simp only [Term.normalizeWith] at hpos ⊢
    exact .eq (ihl (fun i hi => ht i (by simp [hi])) left hleft (by omega))
      (ihr (fun i hi => ht i (by simp [hi])) _ (by omega) hpos)
  | refl value ih =>
    exact fun left hleft hpos => .refl (ih (fun i hi => ht i (by simpa using hi)) left hleft hpos)

end Settles

theorem settles_fireN {n : Nat}
    (hn : ∀ u left, left < bound → 0 < (h.normalizeN env n u left).2 →
      h.IsNormal env (h.normalizeN env n u left).1) : h.Settles env bound (h.fireN env n) where
  spends name args left out hout := by
    obtain ⟨u, rest, rfl, -, rfl⟩ := fireN_eq_some hout
    exact (normalizeN_le n u rest).trans (Nat.le_succ rest)
  fired name args left out hleft hout hpos := by
    obtain ⟨u, rest, rfl, -, rfl⟩ := fireN_eq_some hout
    exact hn u rest hleft hpos
  blocked name args left hpos hout := (fireN_eq_none.mp hout).resolve_left (by omega)

/-- A normalization that is deep enough and does not run out of reductions reaches a normal form. -/
theorem isNormal_normalizeN (hh : h.Acyclic) {n left : Nat} (hn : left < n) (t : Term)
    (hpos : 0 < (h.normalizeN env n t left).2) : h.IsNormal env (h.normalizeN env n t left).1 := by
  induction n generalizing t left with
  | zero => omega
  | succ n ih =>
    have hsettles : h.Settles env left (h.fireN env n) :=
      settles_fireN fun u rest hrest => ih (by omega) u
    rw [normalizeN_succ] at hpos ⊢
    exact hsettles.normalizeWith (fun i hi => open_of_shows_expand hh hi) left
      (Nat.le_refl left) hpos

/-- A pass leaves alone what no rule applies to. -/
theorem IsNormal.normalizeWith_eq_self
    (hfire : ∀ name args left, env.reduce? name args = none → fire name args left = none)
    (ht : h.IsNormal env t) : ∀ left, t.normalizeWith fire left = (t, left) := by
  induction t using induct with
  | missing | lit | bound | hole | sort => exact fun left => rfl
  | const name =>
    intro left
    rw [normalizeWith, hfire name [] left (ht.consts name .refl), Option.getD_none]
  | app fn args ihf ihargs =>
    intro left
    have hargs := normalizeArgs_eq_self (fun a ha => ihargs a ha (ht.part (.arg ha))) left
    simp only [normalizeWith, ihf (ht.part .fn), hargs]
    split
    · rw [hfire _ args left (ht.apps _ args .refl), Option.getD_none]
    · rfl
  | pi params result ihparams ihr =>
    intro left
    have hparams := normalizeParams_eq_self (fun p hp => ihparams p hp (ht.part (.param hp))) left
    simp only [normalizeWith, hparams, ihr (ht.part .result)]
  | eq lhs rhs ihl ihr =>
    intro left
    simp only [normalizeWith, ihl (ht.part .lhs), ihr (ht.part .rhs)]
  | refl value ih =>
    intro left
    simp only [normalizeWith, ih (ht.part .value)]

theorem reflTransGen_part_of_shows {i : HoleId} (hi : t.Shows i) :
    ReflTransGen Part (.hole i) t := by
  induction t using induct with
  | missing | const | lit | bound | sort => simp at hi
  | hole j => exact shows_hole.mp hi ▸ .refl
  | app fn args ihf ihargs =>
    rcases shows_app.mp hi with hi | ⟨a, ha, hi⟩
    · exact (ihf hi).tail .fn
    · exact (ihargs a ha hi).tail (.arg ha)
  | pi params result ihparams ihr =>
    rcases shows_pi.mp hi with ⟨p, hp, hi⟩ | hi
    · exact (ihparams p hp hi).tail (.param hp)
    · exact (ihr hi).tail .result
  | eq lhs rhs ihl ihr =>
    rcases shows_eq.mp hi with hi | hi
    · exact (ihl hi).tail .lhs
    · exact (ihr hi).tail .rhs
  | refl value ih => exact (ih (shows_refl.mp hi)).tail .value

theorem IsNormal.expand_eq_self (ht : h.IsNormal env t) : h.expand t = t :=
  expand_of_shows fun i hi => ht.holes i (reflTransGen_part_of_shows hi)

theorem IsNormal.normalizeN_eq_self (ht : h.IsNormal env t) (n left : Nat) :
    h.normalizeN env n t left = (t, left) := by
  cases n with
  | zero => rfl
  | succ n =>
    rw [normalizeN_succ, ht.expand_eq_self]
    exact ht.normalizeWith_eq_self (fun name args left hnone => fireN_eq_none.mpr (.inr hnone)) left

end Normal

/-- A normalization fires as many rules as its count goes down by, which is at most the bound, and
if it fires fewer, then nothing is left to be done in the outcome and normalizing it again gives it
back. -/
theorem normalize_bounded_and_normal (hh : h.Acyclic) (env : Declarations) (t : Term) :
    ∃ fired, fired ≤ maxReductions ∧ fired + (h.normalizeCount env t).2 = maxReductions ∧
      h.Rewrites env fired t (h.normalize env t) ∧
      (fired < maxReductions → h.IsNormal env (h.normalize env t) ∧
        h.normalize env (h.normalize env t) = h.normalize env t) := by
  obtain ⟨fired, hcount, hrewrites⟩ : h.Pays env t maxReductions (h.normalizeCount env t) :=
    pays_normalizeN _ t _
  refine ⟨fired, by omega, hcount, hrewrites, fun hfew => ?_⟩
  have hpos : 0 < (h.normalizeCount env t).2 := by omega
  have hnormal : h.IsNormal env (h.normalize env t) :=
    isNormal_normalizeN hh (Nat.lt_succ_self _) t hpos
  refine ⟨hnormal, ?_⟩
  rw [normalize, normalizeCount, hnormal.normalizeN_eq_self]

def shortcuts : Declarations where
  reductions :=
    [("same", ⟨0, fun _ => some (.const "id")⟩), ("id", ⟨1, fun args => args.head?⟩)]

def chained : Holes where
  table := #[{ name := "a", number := 0, type := .missing, solution := some (.hole 1) },
    { name := "b", number := 1, type := .missing, solution := some (.app (.hole 2) [.hole 3]) },
    { name := "f", number := 2, type := .missing, solution := some (.const "same") },
    { name := "x", number := 3, type := .missing }]

def chainedType : Term :=
  .pi [⟨"y", .hole 0, .explicit, none⟩] (.eq (.app (.const "same") [.const "c"]) (.hole 3))

def chainedNormal : Term :=
  .pi [⟨"y", .hole 3, .explicit, none⟩] (.eq (.const "c") (.hole 3))

theorem chained_acyclic : chained.Acyclic := by
  refine not_transGen_of_lt fun i j ⟨u, hu, hj⟩ => ?_
  match i, hu with
  | 0, hu =>
    obtain rfl := Option.some.inj hu
    rw [← shows_hole.mp hj]
    decide
  | 1, hu =>
    obtain rfl := Option.some.inj hu
    rcases shows_app.mp hj with hj | ⟨a, ha, hj⟩
    · rw [← shows_hole.mp hj]
      decide
    · obtain rfl := List.mem_singleton.mp ha
      rw [← shows_hole.mp hj]
      decide
  | 2, hu =>
    obtain rfl := Option.some.inj hu
    simp at hj
  | 3, hu | i + 4, hu => cases hu

theorem normalize_bounded_and_normal_chained :
    chained.Acyclic ∧ chained.normalizeCount shortcuts chainedType = (chainedNormal, 4092) ∧
      chained.Rewrites shortcuts 4 chainedType chainedNormal ∧
      chained.IsNormal shortcuts chainedNormal ∧
      chained.normalize shortcuts chainedNormal = chainedNormal := by
  have hcount : chained.normalizeCount shortcuts chainedType = (chainedNormal, 4092) := rfl
  obtain ⟨fired, -, hfired, hrewrites, hnormal⟩ :=
    normalize_bounded_and_normal chained_acyclic shortcuts chainedType
  rw [normalize, hcount] at hrewrites hnormal
  obtain rfl : fired = 4 := by
    rw [hcount, maxReductions] at hfired
    omega
  exact ⟨chained_acyclic, hcount, hrewrites, hnormal (by decide)⟩

end Holes

end Implicits
