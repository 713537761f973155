import Implicits.Proofs.HoleFree
import Implicits.Proofs.Solver.Normalize

/-!
Normal forms of terms that are built of some constants. If the rules for these constants lead to no
others, no other rule matters: declarations with the same rules for them give the same normal forms,
whatever the holes of other terms stand for.
-/
namespace Implicits

open Term

namespace Term

/-- A term without holes whose constants are among some names. The types of literals and the tactics
of parameters, which are not normalized, may have others. -/
inductive BuiltOf (names : String → Prop) : Term → Prop
  | missing : BuiltOf names .missing
  | const {name : String} (hname : names name) : BuiltOf names (.const name)
  | lit {text : String} {type : Term} (htype : type.HoleFree) : BuiltOf names (.lit text type)
  | bound {name : String} : BuiltOf names (.bound name)
  | app {fn : Term} {args : List Term} (hfn : fn.BuiltOf names)
    (hargs : ∀ a ∈ args, a.BuiltOf names) :
    BuiltOf names (.app fn args)
  | pi {params : List (Param Term)} {result : Term} (htypes : ∀ p ∈ params, p.type.BuiltOf names)
    (hfallbacks : ∀ p ∈ params, holesFallback p.fallback = []) (hresult : result.BuiltOf names) :
    BuiltOf names (.pi params result)
  | sort {u : Universe} : BuiltOf names (.sort u)
  | eq {lhs rhs : Term} (hlhs : lhs.BuiltOf names) (hrhs : rhs.BuiltOf names) :
    BuiltOf names (.eq lhs rhs)
  | refl {value : Term} (hvalue : value.BuiltOf names) : BuiltOf names (.refl value)

namespace BuiltOf

variable {names : String → Prop} {t : Term}

theorem name {c : String} (h : (Term.const c).BuiltOf names) : names c := by
  cases h with
  | const hname => exact hname

theorem args {fn : Term} {args : List Term} (h : (Term.app fn args).BuiltOf names) :
    ∀ a ∈ args, a.BuiltOf names := by
  cases h with
  | app _ hargs => exact hargs

theorem holeFree (ht : t.BuiltOf names) : t.HoleFree := by
  induction ht with
  | missing | const | bound | sort => rfl
  | lit htype => exact htype
  | app _ _ ihf ihargs => exact List.append_eq_nil_iff.mpr ⟨ihf, holeFree_args.mpr ihargs⟩
  | pi _ hfallbacks _ ihtypes ihr =>
    refine List.append_eq_nil_iff.mpr ⟨holeFree_params.mpr fun p hp => ?_, ihr⟩
    exact ⟨ihtypes p hp, hfallbacks p hp⟩
  | eq _ _ ihl ihr => exact List.append_eq_nil_iff.mpr ⟨ihl, ihr⟩
  | refl _ ih => exact ih

theorem subst {sub : Substitution} (ht : t.BuiltOf names)
    (hsub : ∀ entry ∈ sub, entry.2.BuiltOf names) :
    (t.subst sub).BuiltOf names := by
  induction ht generalizing sub with
  | missing => exact .missing
  | const hname => exact .const hname
  | lit htype => exact .lit htype
  | @bound name =>
    rw [Term.subst]
    cases hu : sub.lookup name with
    | none => exact .bound
    | some u => exact hsub (name, u) (mem_of_lookup hu)
  | app _ _ ihf ihargs =>
    rw [Term.subst, substArgs_eq_map]
    refine .app (ihf hsub) fun b hb => ?_
    obtain ⟨a, ha, rfl⟩ := List.mem_map.mp hb
    exact ihargs a ha hsub
  | pi _ hfallbacks _ ihtypes ihr =>
    rw [Term.subst]
    refine .pi (fun q hq => ?_) (fun q hq => ?_)
      (ihr fun entry hentry => hsub entry (behind_subset sub _ hentry))
    · obtain ⟨p, hp, sub', hsub', rfl⟩ := mem_substParams hq
      exact ihtypes p hp fun entry hentry => hsub entry (hsub' hentry)
    · obtain ⟨p, hp, -, -, rfl⟩ := mem_substParams hq
      exact hfallbacks p hp
  | sort => exact .sort
  | eq _ _ ihl ihr => exact .eq (ihl hsub) (ihr hsub)
  | refl _ ih => exact .refl (ih hsub)

variable {fire fire' : String → List Term → Nat → Option (Term × Nat)}

/-- Normalization meets none but the given constants where their reductions lead to no others. -/
theorem normalizeWith (ht : t.BuiltOf names)
    (hfire : ∀ name args left out, names name → (∀ a ∈ args, a.BuiltOf names) →
      fire name args left = some out → out.1.BuiltOf names) (left : Nat) :
    (t.normalizeWith fire left).1.BuiltOf names := by
  have hreduce : ∀ name args left (keep : Term × Nat), names name → (∀ a ∈ args, a.BuiltOf names) →
      keep.1.BuiltOf names → ((fire name args left).getD keep).1.BuiltOf names := by
    intro name args left keep hname hargs hkeep
    cases hout : fire name args left with
    | none => exact hkeep
    | some out => exact hfire name args left out hname hargs hout
  induction ht generalizing left with
  | missing => exact .missing
  | const hname => exact hreduce _ _ _ _ hname (by simp) (.const hname)
  | lit htype => exact .lit htype
  | bound => exact .bound
  | @app fn args _ _ ihf ihargs =>
    simp only [Term.normalizeWith]
    have hfn := ihf left
    generalize fn.normalizeWith fire left = nf at hfn ⊢
    have hargs : ∀ b ∈ (normalizeArgs fire args nf.2).1, b.BuiltOf names := by
      intro b hb
      obtain ⟨a, ha, left', rfl⟩ := mem_normalizeArgs hb
      exact ihargs a ha left'
    split
    · rename_i name hhead
      have hname : (Term.const name).BuiltOf names := hhead ▸ hfn
      exact hreduce _ _ _ _ hname.name hargs (.app hfn hargs)
    · exact .app hfn hargs
  | pi _ hfallbacks _ ihtypes ihr =>
    simp only [Term.normalizeWith]
    refine .pi (fun q hq => ?_) (fun q hq => ?_) (ihr _)
    · obtain ⟨p, hp, left', rfl⟩ := mem_normalizeParams hq
      exact ihtypes p hp left'
    · obtain ⟨p, hp, -, rfl⟩ := mem_normalizeParams hq
      exact hfallbacks p hp
  | sort => exact .sort
  | eq _ _ ihl ihr => exact .eq (ihl _) (ihr _)
  | refl _ ih => exact .refl (ih _)

/-- The reductions of other constants do not matter. -/
theorem normalizeWith_congr (ht : t.BuiltOf names)
    (hfire : ∀ name args left out, names name → (∀ a ∈ args, a.BuiltOf names) →
      fire name args left = some out → out.1.BuiltOf names)
    (heq : ∀ name args left, names name → (∀ a ∈ args, a.BuiltOf names) →
      fire' name args left = fire name args left) (left : Nat) :
    t.normalizeWith fire' left = t.normalizeWith fire left := by
  induction ht generalizing left with
  | missing | lit | bound | sort => rfl
  | const hname => rw [Term.normalizeWith, Term.normalizeWith, heq _ _ _ hname (by simp)]
  | @app fn args hfn hargs ihf ihargs =>
    have hhead := hfn.normalizeWith hfire left
    have hnormal : ∀ b ∈ (normalizeArgs fire args (fn.normalizeWith fire left).2).1,
        b.BuiltOf names := by
      intro b hb
      obtain ⟨a, ha, left', rfl⟩ := mem_normalizeArgs hb
      exact (hargs a ha).normalizeWith hfire left'
    simp only [Term.normalizeWith]
    rw [ihf left, normalizeArgs_congr ihargs]
    split
    · rename_i name hname
      rw [hname] at hhead
      rw [heq _ _ _ hhead.name hnormal]
    · rfl
  | pi _ _ _ ihtypes ihr =>
    simp only [Term.normalizeWith]
    rw [normalizeParams_congr ihtypes, ihr]
  | eq _ _ ihl ihr =>
    simp only [Term.normalizeWith]
    rw [ihl, ihr]
  | refl _ ih =>
    simp only [Term.normalizeWith]
    rw [ih]

end BuiltOf

end Term

namespace Declarations

variable {env env' : Declarations} {names : String → Prop}

/-- The rules for some constants lead from terms that are built of them to such terms. -/
def Confines (env : Declarations) (names : String → Prop) : Prop :=
  ∀ name args out, names name → (∀ a ∈ args, a.BuiltOf names) → env.reduce? name args = some out →
    out.BuiltOf names

/-- Rules confine the constants they are for if their right sides are built of them. -/
theorem confines_of_rules (henv : ∀ name r, names name → env.reduction? name = some r →
    ∃ arity rules, r = Reduction.ofRules arity rules ∧ ∀ rule ∈ rules, rule.rhs.BuiltOf names) :
    env.Confines names := by
  intro name args out hname hargs hout
  obtain ⟨r, hr, hout⟩ := Option.bind_eq_some_iff.mp hout
  obtain ⟨arity, rules, rfl, hrules⟩ := henv name r hname hr
  split at hout
  · obtain ⟨rule, hrule, hfire⟩ := List.exists_of_findSome?_eq_some hout
    obtain ⟨sub, hsub, rfl⟩ := Rule.forall_of_fire? (fun _ _ => BuiltOf.args) hargs hfire
    exact (hrules rule hrule).subst hsub
  · simp at hout

/-- The outcomes of the rules and their normal forms are built of the constants. -/
theorem Confines.normalizeN (henv : env.Confines names) (h : Holes) (n : Nat) {t : Term}
    (ht : t.BuiltOf names) (left : Nat) : (h.normalizeN env n t left).1.BuiltOf names := by
  induction n generalizing t left with
  | zero => exact ht
  | succ n ih =>
    rw [Holes.normalizeN_succ, h.expand_of_holeFree ht.holeFree]
    refine ht.normalizeWith (fun name args left out hname hargs hout => ?_) left
    obtain ⟨u, rest, rfl, hu, rfl⟩ := Holes.fireN_eq_some hout
    exact ih (henv name args u hname hargs hu) rest

theorem Confines.normalize (henv : env.Confines names) {t : Term}
    (ht : t.BuiltOf names) (h : Holes) :
    (h.normalize env t).BuiltOf names :=
  henv.normalizeN h _ ht _

/-- The normal forms of terms that are built of some constants depend on the rules for these only.
-/
theorem normalize_of_confines (henv : env.Confines names)
    (hsame : ∀ name, names name → env'.reduction? name = env.reduction? name) {t : Term}
    (ht : t.BuiltOf names) (h h' : Holes) : h'.normalize env' t = h.normalize env t := by
  have hreduce : ∀ name args, names name → env'.reduce? name args = env.reduce? name args := by
    intro name args hname
    rw [reduce?, reduce?, hsame name hname]
  have hnormal : ∀ n t left, t.BuiltOf names →
      h'.normalizeN env' n t left = h.normalizeN env n t left := by
    intro n
    induction n with
    | zero => exact fun _ _ _ => rfl
    | succ n ih =>
      intro t left ht
      have hfire : ∀ name args left (out : Term × Nat), names name → (∀ a ∈ args, a.BuiltOf names) →
          h.fireN env n name args left = some out → out.1.BuiltOf names := by
        intro name args left out hname hargs hout
        obtain ⟨u, rest, rfl, hu, rfl⟩ := Holes.fireN_eq_some hout
        exact henv.normalizeN h n (henv name args u hname hargs hu) rest
      rw [Holes.normalizeN_succ, Holes.normalizeN_succ, h.expand_of_holeFree ht.holeFree,
        h'.expand_of_holeFree ht.holeFree]
      refine ht.normalizeWith_congr hfire ?_ left
      intro name args left hname hargs
      cases left with
      | zero => rfl
      | succ left =>
        simp only [Holes.fireN, hreduce name args hname]
        refine Option.map_congr fun u hu => ?_
        exact ih u left (henv name args u hname hargs hu)
  rw [Holes.normalize, Holes.normalize, Holes.normalizeCount, Holes.normalizeCount,
    hnormal _ t _ ht]

end Declarations

end Implicits
