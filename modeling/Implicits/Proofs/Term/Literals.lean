import Implicits.Proofs.Term.Scope
import Implicits.Proofs.Term.Unifier

/-!
Holes inside the types of literals. Solutions are searched for a hole outside these types only,
while `deref` also replaces the holes inside them. Where they contain no holes, both visit the same
places.
-/
namespace Implicits

open Relation

namespace Term

/-- A hole occurs in a term at a place that `deref` visits. -/
inductive Meets : Term → HoleId → Prop
  | hole {i : HoleId} : Meets (.hole i) i
  | lit {text : String} {type : Term} {i : HoleId} : type.Meets i → Meets (.lit text type) i
  | fn {fn : Term} {args : List Term} {i : HoleId} : fn.Meets i → Meets (.app fn args) i
  | arg {fn a : Term} {args : List Term} {i : HoleId} (ha : a ∈ args) :
    a.Meets i → Meets (.app fn args) i
  | param {p : Param Term} {params : List (Param Term)} {result : Term} {i : HoleId}
    (hp : p ∈ params) : p.type.Meets i → Meets (.pi params result) i
  | result {params : List (Param Term)} {result : Term} {i : HoleId} :
    result.Meets i → Meets (.pi params result) i
  | lhs {lhs rhs : Term} {i : HoleId} : lhs.Meets i → Meets (.eq lhs rhs) i
  | rhs {lhs rhs : Term} {i : HoleId} : rhs.Meets i → Meets (.eq lhs rhs) i
  | value {value : Term} {i : HoleId} : value.Meets i → Meets (.refl value) i

theorem Shows.meets {t : Term} {i : HoleId} (hi : t.Shows i) : t.Meets i := by
  induction t using induct with
  | missing | const | lit | bound | sort => simp at hi
  | hole id =>
    obtain rfl := shows_hole.mp hi
    exact .hole
  | app fn args ihf ihargs =>
    rcases shows_app.mp hi with hi | ⟨a, ha, hi⟩
    · exact .fn (ihf hi)
    · exact .arg ha (ihargs a ha hi)
  | pi params result ihparams ihr =>
    rcases shows_pi.mp hi with ⟨p, hp, hi⟩ | hi
    · exact .param hp (ihparams p hp hi)
    · exact .result (ihr hi)
  | eq lhs rhs ihl ihr =>
    rcases shows_eq.mp hi with hi | hi
    · exact .lhs (ihl hi)
    · exact .rhs (ihr hi)
  | refl value ih => exact .value (ih (shows_refl.mp hi))

inductive Sealed : Term → Prop
  | missing : Sealed .missing
  | const {name : String} : Sealed (.const name)
  | lit {text : String} {type : Term} (htype : ∀ i, ¬ type.Meets i) : Sealed (.lit text type)
  | bound {name : String} : Sealed (.bound name)
  | hole {i : HoleId} : Sealed (.hole i)
  | app {fn : Term} {args : List Term} (hfn : fn.Sealed) (hargs : ∀ a ∈ args, a.Sealed) :
    Sealed (.app fn args)
  | pi {params : List (Param Term)} {result : Term} (hparams : ∀ p ∈ params, p.type.Sealed)
    (hresult : result.Sealed) : Sealed (.pi params result)
  | sort {u : Universe} : Sealed (.sort u)
  | eq {lhs rhs : Term} (hlhs : lhs.Sealed) (hrhs : rhs.Sealed) : Sealed (.eq lhs rhs)
  | refl {value : Term} (hvalue : value.Sealed) : Sealed (.refl value)

namespace Sealed

variable {t : Term} {i : HoleId}

theorem fill {f : HoleId → Term} (ht : t.Sealed) (hf : ∀ i, (f i).Sealed) :
    (t.fill false f).Sealed := by
  induction ht with
  | missing => exact .missing
  | const => exact .const
  | lit htype => exact .lit htype
  | bound => exact .bound
  | hole => exact hf _
  | app _ _ ihf ihargs =>
    rw [Term.fill, fillArgs_eq_map]
    refine .app ihf fun b hb => ?_
    obtain ⟨a, ha, rfl⟩ := List.mem_map.mp hb
    exact ihargs a ha
  | pi _ _ ihparams ihr =>
    rw [Term.fill, fillParams_eq_map]
    refine .pi (fun q hq => ?_) ihr
    obtain ⟨p, hp, rfl⟩ := List.mem_map.mp hq
    exact ihparams p hp
  | sort => exact .sort
  | eq _ _ ihl ihr => exact .eq ihl ihr
  | refl _ ih => exact .refl ih

theorem subst {sub : Substitution} (ht : t.Sealed) (hsub : ∀ entry ∈ sub, entry.2.Sealed) :
    (t.subst sub).Sealed := by
  induction ht generalizing sub with
  | missing => exact .missing
  | const => exact .const
  | lit htype => exact .lit htype
  | @bound name =>
    rw [Term.subst]
    cases hu : sub.lookup name with
    | none => exact .bound
    | some u => exact hsub (name, u) (mem_of_lookup hu)
  | hole => exact .hole
  | app _ _ ihf ihargs =>
    rw [Term.subst, substArgs_eq_map]
    refine .app (ihf hsub) fun b hb => ?_
    obtain ⟨a, ha, rfl⟩ := List.mem_map.mp hb
    exact ihargs a ha hsub
  | pi _ _ ihparams ihr =>
    rw [Term.subst]
    refine .pi (fun q hq => ?_) (ihr fun entry hentry => hsub entry (behind_subset sub _ hentry))
    obtain ⟨p, hp, sub', hsub', rfl⟩ := mem_substParams hq
    exact ihparams p hp fun entry hentry => hsub entry (hsub' hentry)
  | sort => exact .sort
  | eq _ _ ihl ihr => exact .eq (ihl hsub) (ihr hsub)
  | refl _ ih => exact .refl (ih hsub)

theorem normalizeWith {fire : String → List Term → Nat → Option (Term × Nat)} (ht : t.Sealed)
    (hfire : ∀ name args left out, (∀ a ∈ args, a.Sealed) → fire name args left = some out →
      out.1.Sealed) (left : Nat) : (t.normalizeWith fire left).1.Sealed := by
  have hreduce : ∀ name args left (keep : Term × Nat), (∀ a ∈ args, a.Sealed) → keep.1.Sealed →
      ((fire name args left).getD keep).1.Sealed := by
    intro name args left keep hargs hkeep
    cases hout : fire name args left with
    | none => exact hkeep
    | some out => exact hfire name args left out hargs hout
  induction ht generalizing left with
  | missing => exact .missing
  | const => exact hreduce _ _ _ _ (by simp) .const
  | lit htype => exact .lit htype
  | bound => exact .bound
  | hole => exact .hole
  | @app fn args _ _ ihf ihargs =>
    simp only [Term.normalizeWith]
    have hfn := ihf left
    generalize fn.normalizeWith fire left = nf at hfn ⊢
    have hargs : ∀ b ∈ (normalizeArgs fire args nf.2).1, b.Sealed := by
      intro b hb
      obtain ⟨a, ha, left', rfl⟩ := mem_normalizeArgs hb
      exact ihargs a ha left'
    split
    · exact hreduce _ _ _ _ hargs (.app hfn hargs)
    · exact .app hfn hargs
  | pi _ _ ihparams ihr =>
    simp only [Term.normalizeWith]
    refine .pi (fun q hq => ?_) (ihr _)
    obtain ⟨p, hp, left', rfl⟩ := mem_normalizeParams hq
    exact ihparams p hp left'
  | sort => exact .sort
  | eq _ _ ihl ihr => exact .eq (ihl _) (ihr _)
  | refl _ ih => exact .refl (ih _)

end Sealed

theorem fill_deep_congr {f g : HoleId → Term} {t : Term} (hfg : ∀ i, t.Meets i → f i = g i) :
    t.fill true f = t.fill true g := by
  induction t using induct with
  | missing | const | bound | sort => rfl
  | lit text type ih => simp only [fill, if_true, ih fun i hi => hfg i (.lit hi)]
  | hole id => exact hfg id .hole
  | app fn args ihf ihargs =>
    have hargs : ∀ a ∈ args, a.fill true f = a.fill true g := by
      intro a ha
      exact ihargs a ha fun i hi => hfg i (.arg ha hi)
    rw [fill, fill, ihf fun i hi => hfg i (.fn hi), fillArgs_eq_map, fillArgs_eq_map,
      List.map_congr_left hargs]
  | pi params result ihparams ihr =>
    have hparams : ∀ p ∈ params, ({ p with type := p.type.fill true f } : Param Term) =
        { p with type := p.type.fill true g } := by
      intro p hp
      rw [ihparams p hp fun i hi => hfg i (.param hp hi)]
    rw [fill, fill, ihr fun i hi => hfg i (.result hi), fillParams_eq_map, fillParams_eq_map,
      List.map_congr_left hparams]
  | eq lhs rhs ihl ihr =>
    rw [fill, fill, ihl fun i hi => hfg i (.lhs hi), ihr fun i hi => hfg i (.rhs hi)]
  | refl value ih => rw [fill, fill, ih fun i hi => hfg i (.value hi)]

theorem fill_deep_hole (t : Term) : t.fill true hole = t := by
  induction t using induct with
  | missing | const | bound | sort | hole => rfl
  | lit text type ih => simp only [fill, if_true, ih]
  | app fn args ihf ihargs =>
    rw [fill, ihf, fillArgs_eq_map, List.map_congr_left ihargs, List.map_id']
  | pi params result ihparams ihr =>
    have hparams : ∀ p ∈ params, ({ p with type := p.type.fill true hole } : Param Term) = p := by
      intro p hp
      rw [ihparams p hp]
    rw [fill, ihr, fillParams_eq_map, List.map_congr_left hparams, List.map_id']
  | eq lhs rhs ihl ihr => rw [fill, ihl, ihr]
  | refl value ih => rw [fill, ih]

/-- What is met in a term behind a filling of all its holes was met in a filling. -/
theorem meets_of_meets_fill {f : HoleId → Term} {t : Term} {j : HoleId}
    (hj : (t.fill true f).Meets j) : ∃ i, t.Meets i ∧ (f i).Meets j := by
  induction t using induct with
  | missing | const | bound | sort => cases hj
  | lit text type ih =>
    rw [fill, if_pos rfl] at hj
    cases hj with
    | lit hj =>
      obtain ⟨i, hi, hij⟩ := ih hj
      exact ⟨i, .lit hi, hij⟩
  | hole id => exact ⟨id, .hole, hj⟩
  | app fn args ihf ihargs =>
    rw [fill, fillArgs_eq_map] at hj
    cases hj with
    | fn hj =>
      obtain ⟨i, hi, hij⟩ := ihf hj
      exact ⟨i, .fn hi, hij⟩
    | arg hb hj =>
      obtain ⟨a, ha, rfl⟩ := List.mem_map.mp hb
      obtain ⟨i, hi, hij⟩ := ihargs a ha hj
      exact ⟨i, .arg ha hi, hij⟩
  | pi params result ihparams ihr =>
    rw [fill, fillParams_eq_map] at hj
    cases hj with
    | param hq hj =>
      obtain ⟨p, hp, rfl⟩ := List.mem_map.mp hq
      obtain ⟨i, hi, hij⟩ := ihparams p hp hj
      exact ⟨i, .param hp hi, hij⟩
    | result hj =>
      obtain ⟨i, hi, hij⟩ := ihr hj
      exact ⟨i, .result hi, hij⟩
  | eq lhs rhs ihl ihr =>
    cases hj with
    | lhs hj =>
      obtain ⟨i, hi, hij⟩ := ihl hj
      exact ⟨i, .lhs hi, hij⟩
    | rhs hj =>
      obtain ⟨i, hi, hij⟩ := ihr hj
      exact ⟨i, .rhs hi, hij⟩
  | refl value ih =>
    cases hj with
    | value hj =>
      obtain ⟨i, hi, hij⟩ := ih hj
      exact ⟨i, .value hi, hij⟩

end Term

def Declarations.KeepsSealed (env : Declarations) : Prop :=
  ∀ name args out, (∀ a ∈ args, a.Sealed) → env.reduce? name args = some out → out.Sealed

namespace Holes

/-- A solved hole is tied to the holes that `deref` meets in its solution. -/
def Ties (h : Holes) (i j : HoleId) : Prop := ∃ t, h.solution? i = some t ∧ t.Meets j

def Untangled (h : Holes) : Prop := ∀ i, ¬ TransGen h.Ties i i

def Sealed (h : Holes) : Prop := ∀ i t, h.solution? i = some t → t.Sealed

namespace Sealed

variable {h : Holes} {t : Term}

theorem instantiateN (hh : h.Sealed) (n : Nat) (ht : t.Sealed) :
    (h.instantiateN false n t).Sealed := by
  induction n generalizing t with
  | zero => exact ht
  | succ n ih =>
    refine ht.fill fun i => ?_
    cases hsol : h.solution? i with
    | none => exact .hole
    | some u => exact ih (hh i u hsol)

theorem expand (hh : h.Sealed) (ht : t.Sealed) : (h.expand t).Sealed := hh.instantiateN h.size ht

theorem followN (hh : h.Sealed) (n : Nat) (ht : t.Sealed) : (h.followN n t).Sealed := by
  induction n generalizing t with
  | zero => exact ht
  | succ n ih =>
    cases t with
    | hole i =>
      simp only [Holes.followN]
      cases hsol : h.solution? i with
      | none => exact .hole
      | some u => exact ih (hh i u hsol)
    | _ => exact ht

theorem subst (hh : h.Sealed) {sub : Substitution} (ht : t.Sealed)
    (hsub : ∀ entry ∈ sub, entry.2.Sealed) : (h.subst sub t).Sealed := by
  unfold Holes.subst
  split
  · exact ht
  · exact (hh.expand ht).subst hsub

theorem normalizeN (hh : h.Sealed) {env : Declarations} (henv : env.KeepsSealed) (n left : Nat)
    (ht : t.Sealed) : (h.normalizeN env n t left).1.Sealed := by
  induction n generalizing t left with
  | zero => exact ht
  | succ n ih =>
    refine (hh.expand ht).normalizeWith (fun name args left out hargs hout => ?_) left
    cases left with
    | zero => simp at hout
    | succ left =>
      obtain ⟨u, hu, rfl⟩ := Option.map_eq_some_iff.mp hout
      exact ih left (henv name args u hargs hu)

theorem normalize (hh : h.Sealed) {env : Declarations} (henv : env.KeepsSealed) (ht : t.Sealed) :
    (h.normalize env t).Sealed := hh.normalizeN henv _ _ ht

end Sealed

end Holes

end Implicits
