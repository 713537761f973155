import Implicits.Proofs.Solver.Normalize
import Implicits.Proofs.Solver.SameForm
import Implicits.Proofs.Term.Alpha

/-!
Unification of terms without holes. Where nothing reduces, it decides equality up to the names of
parameters, as long as the renaming of parameters captures nothing. Where a new name is captured it
does not.
-/
namespace Implicits

namespace Term

mutual

/-- Whether a term has no holes, no empty places and only universes of concrete levels. What counts
is what unification looks at: not the types of literals, nor the defaults of parameters. -/
def isConcrete : Term → Bool
  | missing | hole _ => false
  | const _ | lit _ _ | bound _ => true
  | app fn args => fn.isConcrete && isConcreteArgs args
  | pi params result => isConcreteParams params && result.isConcrete
  | sort u =>
    match u with
    | .level (.const _) => true
    | _ => false
  | eq lhs rhs => lhs.isConcrete && rhs.isConcrete
  | refl value => value.isConcrete

def isConcreteArgs : List Term → Bool
  | [] => true
  | t :: ts => t.isConcrete && isConcreteArgs ts

def isConcreteParams : List (Param Term) → Bool
  | [] => true
  | ⟨_, type, _, _⟩ :: ps => type.isConcrete && isConcreteParams ps

end

theorem isConcreteArgs_iff {args : List Term} :
    isConcreteArgs args = true ↔ ∀ a ∈ args, a.isConcrete = true := by
  induction args with
  | nil => simp [isConcreteArgs]
  | cons a args ih => simp [isConcreteArgs, ih]

theorem isConcreteParams_iff {params : List (Param Term)} :
    isConcreteParams params = true ↔ ∀ p ∈ params, p.type.isConcrete = true := by
  induction params with
  | nil => simp [isConcreteParams]
  | cons p params ih => simp [isConcreteParams, ih]

theorem not_shows_of_isConcrete {t : Term} (ht : t.isConcrete = true) (i : HoleId) :
    ¬ t.Shows i := by
  induction t using induct with
  | missing | hole => simp [isConcrete] at ht
  | const | lit | bound | sort => simp
  | app fn args ihf ihargs =>
    rw [isConcrete, Bool.and_eq_true, isConcreteArgs_iff] at ht
    rw [shows_app]
    rintro (hi | ⟨a, ha, hi⟩)
    · exact ihf ht.1 hi
    · exact ihargs a ha (ht.2 a ha) hi
  | pi params result ihparams ihr =>
    rw [isConcrete, Bool.and_eq_true, isConcreteParams_iff] at ht
    rw [shows_pi]
    rintro (⟨p, hp, hi⟩ | hi)
    · exact ihparams p hp (ht.1 p hp) hi
    · exact ihr ht.2 hi
  | eq lhs rhs ihl ihr =>
    rw [isConcrete, Bool.and_eq_true] at ht
    rw [shows_eq]
    rintro (hi | hi)
    · exact ihl ht.1 hi
    · exact ihr ht.2 hi
  | refl value ih => exact fun hi => ih ht (shows_refl.mp hi)

theorem expand_of_isConcrete (h : Holes) {t : Term} (ht : t.isConcrete = true) :
    h.expand t = t := by
  rw [Holes.expand_eq_fill, fill_congr fun i hi => absurd hi (not_shows_of_isConcrete ht i),
    fill_hole]

theorem ne_hole_of_isConcrete {t : Term} (ht : t.isConcrete = true) (i : HoleId) : t ≠ .hole i := by
  rintro rfl
  simp [isConcrete] at ht

theorem const_of_isConcrete_sort {u : Universe} (hu : (sort u).isConcrete = true) :
    ∃ k, u = .level (.const k) := by
  cases u with
  | unassigned => simp [isConcrete] at hu
  | level l =>
    cases l with
    | const k => exact ⟨k, rfl⟩
    | var v => simp [isConcrete] at hu

theorem follow_of_isConcrete (h : Holes) {t : Term} (ht : t.isConcrete = true) : h.follow t = t :=
  Holes.followN_of_not_hole (ne_hole_of_isConcrete ht) _

/-- Renaming keeps a term concrete. -/
theorem isConcrete_subst {t : Term} (ht : t.isConcrete = true) {sub : Substitution}
    (hsub : ∀ entry ∈ sub, ∃ name, entry.2 = .bound name) : (t.subst sub).isConcrete = true := by
  induction t using induct generalizing sub with
  | missing | hole => simp [isConcrete] at ht
  | const | lit | sort => exact ht
  | bound name =>
    rw [subst]
    cases hlookup : sub.lookup name with
    | none => rfl
    | some u =>
      obtain ⟨m, hm⟩ := hsub _ (mem_of_lookup hlookup)
      rw [Option.getD_some, show u = .bound m from hm, isConcrete]
  | app fn args ihf ihargs =>
    rw [isConcrete, Bool.and_eq_true, isConcreteArgs_iff] at ht
    rw [subst, isConcrete, Bool.and_eq_true, isConcreteArgs_iff, substArgs_eq_map]
    refine ⟨ihf ht.1 hsub, fun b hb => ?_⟩
    obtain ⟨a, ha, rfl⟩ := List.mem_map.mp hb
    exact ihargs a ha (ht.2 a ha) hsub
  | pi params result ihparams ihr =>
    rw [isConcrete, Bool.and_eq_true, isConcreteParams_iff] at ht
    rw [subst, isConcrete, Bool.and_eq_true, isConcreteParams_iff]
    refine ⟨fun p hp => ?_, ihr ht.2
      fun entry hentry => hsub entry (behind_subset sub params hentry)⟩
    obtain ⟨q, hq, sub', hsub', rfl⟩ := mem_substParams hp
    exact ihparams q hq (ht.1 q hq) fun entry hentry => hsub entry (hsub' hentry)
  | eq lhs rhs ihl ihr =>
    rw [isConcrete, Bool.and_eq_true] at ht
    rw [subst, isConcrete, ihl ht.1 hsub, ihr ht.2 hsub]
    rfl
  | refl value ih => exact ih ht hsub

theorem isConcrete_renamed {t : Term} (ht : t.isConcrete = true) (group : List (String × String)) :
    (t.subst (renameParams group)).isConcrete = true := by
  refine isConcrete_subst ht fun entry hentry => ?_
  obtain ⟨e, _, rfl⟩ := List.mem_map.mp hentry
  exact ⟨e.1, rfl⟩

end Term

namespace Solve

variable {α β : Type}

def Settles (x : Solve α) (test : Bool) : Prop :=
  ∀ s, Ends x s (fun _ _ => test = true) fun _ _ => test = false

namespace Settles

variable {x : Solve α} {p q : Bool}

theorem mismatch {a b : Term} : Settles (mismatch a b : Solve α) false := fun _ => rfl

theorem pure {a : α} : Settles (pure a) true := fun _ => rfl

theorem bind {f : α → Solve β} (hx : Settles x p) (hf : ∀ a, p = true → Settles (f a) q) :
    Settles (x >>= f) (p && q) := by
  intro s
  rw [ends_bind]
  refine (hx s).mono (fun a s' hp => ?_) fun _ _ hp => by rw [hp, Bool.false_and]
  rw [hp, Bool.true_and]
  exact hf a hp s'

theorem ite {c : Prop} [Decidable c] {a b : Term} {u : α} :
    Settles (if c then Pure.pure u else Solve.mismatch a b) (decide c) := by
  by_cases hc : c
  · rw [if_pos hc, decide_eq_true hc]
    exact pure
  · rw [if_neg hc, decide_eq_false hc]
    exact mismatch

/-- A step that fails can be tried in another way that the same test settles. -/
theorem retry {f : Fault → Solve α} (hx : Settles x p) (hf : ∀ e, Settles (f e) p) :
    Settles (tryCatch (attempt x) f) p := by
  intro s
  rw [ends_tryCatch, ends_attempt]
  exact (hx s.speculate).mono (fun _ _ hp => hp) fun e s' _ => hf e _

end Settles

def Matches (recur : Context → Term → Term → Solve Unit) (a : Term) : Prop :=
  ∀ hyps b, a.isConcrete = true → b.isConcrete = true → a.captureFree [] b = true →
    Settles (recur hyps a b) (a.alphaEq [] b)

section Comparison

variable {recur : Context → Term → Term → Solve Unit}

theorem unifyArgs_settles {as bs : List Term} (hrecur : ∀ a ∈ as, Matches recur a)
    (has : ∀ a ∈ as, a.isConcrete = true) (hbs : ∀ b ∈ bs, b.isConcrete = true)
    (hlen : as.length = bs.length) (hfree : Term.captureFreeArgs [] as bs = true) (hyps : Context) :
    Settles (unifyArgs (recur hyps) as bs) (Term.alphaEqArgs [] as bs) := by
  induction as generalizing bs with
  | nil =>
    cases bs with
    | nil => exact .pure
    | cons b bs => simp at hlen
  | cons a as ih =>
    cases bs with
    | nil => simp at hlen
    | cons b bs =>
      rw [Term.captureFreeArgs, Bool.and_eq_true] at hfree
      rw [unifyArgs, Term.alphaEqArgs]
      refine (hrecur a (by simp) hyps b (has a (by simp)) (hbs b (by simp)) hfree.1).bind
        fun _ _ => ?_
      exact ih (fun a ha => hrecur a (by simp [ha])) (fun a ha => has a (by simp [ha]))
        (fun b hb => hbs b (by simp [hb])) (by simpa using hlen) hfree.2

/-- The renaming of parameters grows with their group. -/
theorem unifyParams_settles {a b : Term} {ps qs : List (Param Term)}
    (hrecur : ∀ p ∈ ps, Matches recur p.type) (hps : ∀ p ∈ ps, p.type.isConcrete = true)
    (hqs : ∀ q ∈ qs, q.type.isConcrete = true) (hlen : ps.length = qs.length)
    {group : List (String × String)} (hfree : Term.captureFreeParams [] group ps qs = true)
    (hyps : Context) (s : Solver) :
    Ends (unifyParams recur (mismatch a b) hyps (renameParams group) ps qs) s
      (fun opened _ => Term.alphaEqParams [] group ps qs = true ∧
        opened.2 = renameParams (pairNames group ps qs))
      fun _ _ => Term.alphaEqParams [] group ps qs = false := by
  induction ps generalizing qs group hyps s with
  | nil =>
    cases qs with
    | nil => exact ⟨rfl, rfl⟩
    | cons q qs => simp at hlen
  | cons p ps ih =>
    cases qs with
    | nil => simp at hlen
    | cons q qs =>
      rw [Term.captureFreeParams, Bool.and_eq_true] at hfree
      rw [unifyParams, Term.alphaEqParams]
      by_cases hplicity : p.plicity = q.plicity
      · obtain ⟨hrenamed, hequal⟩ := Term.alphaEq_renamed hfree.1
        rw [if_neg (not_not.mpr hplicity), beq_iff_eq.mpr hplicity, Bool.true_and,
          ends_bind, ends_holes,
          Holes.subst_of_expand (Term.expand_of_isConcrete _ (hqs q (by simp))), ends_bind]
        have htype := hrecur p (by simp) hyps _ (hps p (by simp))
          (Term.isConcrete_renamed (hqs q (by simp)) group) hrenamed s
        rw [← hequal] at htype
        refine htype.mono (fun _ s' heq => ?_) fun _ _ heq => ?_
        · have hrest := ih (fun p hp => hrecur p (by simp [hp])) (fun p hp => hps p (by simp [hp]))
            (fun q hq => hqs q (by simp [hq])) (by simpa using hlen) hfree.2
            (hyps.extend p.name p.type) s'
          rw [show p.type.alphaEq [group] q.type = true from heq, Bool.true_and]
          exact hrest
        · rw [show p.type.alphaEq [group] q.type = false from heq, Bool.false_and]
      · rw [if_pos hplicity, ends_bind]
        have hne : (p.plicity == q.plicity) = false := beq_eq_false_iff_ne.mpr hplicity
        rw [hne]
        exact rfl

theorem unifyForms_app_settles {fn gn : Term} {args brgs : List Term}
    (hrecur : ∀ a, a.Part (.app fn args) → Matches recur a)
    (ha : (Term.app fn args).isConcrete = true) (hb : (Term.app gn brgs).isConcrete = true)
    (hfree : (Term.app fn args).captureFree [] (.app gn brgs) = true) (hyps : Context) :
    Settles (unifyForms recur hyps (.app fn args) (.app gn brgs))
      ((Term.app fn args).alphaEq [] (.app gn brgs)) := by
  rw [Term.isConcrete, Bool.and_eq_true, Term.isConcreteArgs_iff] at ha hb
  rw [Term.captureFree, Bool.and_eq_true] at hfree
  rw [unifyForms, Term.alphaEq]
  by_cases hlen : args.length = brgs.length
  · rw [if_pos hlen]
    exact (hrecur fn .fn hyps gn ha.1 hb.1 hfree.1).bind fun _ _ =>
      unifyArgs_settles (fun x hx => hrecur x (.arg hx)) ha.2 hb.2 hlen hfree.2 hyps
  · rw [if_neg hlen]
    have hdiffer : Term.alphaEqArgs [] args brgs = false := by
      rw [← Bool.not_eq_true]
      exact fun h => hlen (Term.length_eq_of_alphaEqArgs h)
    rw [hdiffer, Bool.and_false]
    exact .mismatch

theorem unifyForms_pi_settles {params params' : List (Param Term)} {result result' : Term}
    (hrecur : ∀ a, a.Part (.pi params result) → Matches recur a)
    (ha : (Term.pi params result).isConcrete = true)
    (hb : (Term.pi params' result').isConcrete = true)
    (hfree : (Term.pi params result).captureFree [] (.pi params' result') = true) (hyps : Context) :
    Settles (unifyForms recur hyps (.pi params result) (.pi params' result'))
      ((Term.pi params result).alphaEq [] (.pi params' result')) := by
  rw [Term.isConcrete, Bool.and_eq_true, Term.isConcreteParams_iff] at ha hb
  rw [unifyForms, Term.alphaEq]
  by_cases hlen : params.length = params'.length
  · rw [Term.captureFree, bne_eq_false_iff_eq.mpr hlen, Bool.false_or, Bool.and_eq_true] at hfree
    rw [if_pos hlen]
    intro s
    rw [ends_bind]
    refine (unifyParams_settles (fun p hp => hrecur p.type (.param hp)) ha.1 hb.1 hlen
      hfree.1 hyps s).mono
      (fun opened s' hopened => ?_) fun _ _ heq => by rw [heq, Bool.false_and]
    obtain ⟨heq, hnames⟩ := hopened
    obtain ⟨hrenamed, hequal⟩ := Term.alphaEq_renamed hfree.2
    rw [ends_bind, ends_holes, hnames,
      Holes.subst_of_expand (Term.expand_of_isConcrete _ hb.2), heq,
      Bool.true_and, hequal]
    exact hrecur result .result opened.1 _ ha.2 (Term.isConcrete_renamed hb.2 _) hrenamed s'
  · rw [if_neg hlen]
    have hdiffer : Term.alphaEqParams [] [] params params' = false := by
      rw [← Bool.not_eq_true]
      exact fun h => hlen (Term.length_eq_of_alphaEqParams h)
    rw [hdiffer, Bool.false_and]
    exact .mismatch

theorem unifyForms_sort_settles {u v : Universe} (ha : (Term.sort u).isConcrete = true)
    (hb : (Term.sort v).isConcrete = true) (hyps : Context) :
    Settles (unifyForms recur hyps (.sort u) (.sort v)) ((Term.sort u).alphaEq [] (.sort v)) := by
  obtain ⟨j, rfl⟩ := Term.const_of_isConcrete_sort ha
  obtain ⟨k, rfl⟩ := Term.const_of_isConcrete_sort hb
  have hequal : (Term.sort (.level (.const j))).alphaEq [] (.sort (.level (.const k))) =
      decide (j = k) := by
    simp [Term.alphaEq, beq_eq_decide]
  rw [unifyForms, unifyUniverses, hequal]
  exact .ite

/-- One step of the comparison. -/
theorem unifyForms_settles {a b : Term} (hrecur : ∀ a', a'.Part a → Matches recur a')
    (ha : a.isConcrete = true) (hb : b.isConcrete = true) (hfree : a.captureFree [] b = true)
    (hyps : Context) : Settles (unifyForms recur hyps a b) (a.alphaEq [] b) := by
  cases a with
  | missing | hole => simp [Term.isConcrete] at ha
  | const name =>
    cases b with
    | const m => exact .ite
    | _ => exact .mismatch
  | lit text type =>
    cases b with
    | lit text' type' => exact .ite
    | _ => exact .mismatch
  | bound name =>
    cases b with
    | bound m => exact .ite
    | _ => exact .mismatch
  | app fn args =>
    cases b with
    | app gn brgs => exact unifyForms_app_settles hrecur ha hb hfree hyps
    | _ => exact .mismatch
  | pi params result =>
    cases b with
    | pi params' result' => exact unifyForms_pi_settles hrecur ha hb hfree hyps
    | _ => exact .mismatch
  | sort u =>
    cases b with
    | sort v => exact unifyForms_sort_settles ha hb hyps
    | _ => exact .mismatch
  | eq lhs rhs =>
    cases b with
    | eq lhs' rhs' =>
      rw [Term.isConcrete, Bool.and_eq_true] at ha hb
      rw [Term.captureFree, Bool.and_eq_true] at hfree
      rw [unifyForms, Term.alphaEq]
      exact (hrecur lhs .lhs hyps lhs' ha.1 hb.1 hfree.1).bind fun _ _ =>
        hrecur rhs .rhs hyps rhs' ha.2 hb.2 hfree.2
    | _ => exact .mismatch
  | refl value =>
    cases b with
    | refl value' =>
      rw [unifyForms, Term.alphaEq]
      exact hrecur value .value hyps value' ha hb hfree
    | _ => exact .mismatch

end Comparison

section Unification

variable {env : Declarations}

theorem unifyHeads_settles {compare : Term → Term → Solve Unit} {a b : Term} {test : Bool}
    (ha : a.isConcrete = true) (hb : b.isConcrete = true) (hcompare : Settles (compare a b) test)
    (hyps : Context) : Settles (unifyHeads env compare hyps a b) test := by
  intro s
  have hha := Term.follow_of_isConcrete s.holes ha
  have hhb := Term.follow_of_isConcrete s.holes hb
  rw [ends_unifyHeads (by rw [hha]; exact Term.ne_hole_of_isConcrete ha)
    (by rw [hhb]; exact Term.ne_hole_of_isConcrete hb), hha, hhb]
  exact hcompare s

theorem unifyNormalN_matches {n : Nat} {a : Term} (hn : a.size ≤ n) :
    Matches (unifyNormalN env n) a := by
  induction n generalizing a with
  | zero => exact absurd a.size_pos (by omega)
  | succ n ih =>
    intro hyps b ha hb hfree
    rw [unifyNormalN]
    refine unifyHeads_settles ha hb ?_ hyps
    refine unifyForms_settles (fun a' hpart => ih ?_) ha hb hfree hyps
    have hsize := hpart.size_lt
    omega

/-- Where nothing reduces, a failed comparison is made once more, with the same terms. -/
theorem unifyN_matches (henv : env.reductions = []) {n : Nat} {a : Term} (hn : a.size ≤ n) :
    Matches (unifyN env n) a := by
  induction n generalizing a with
  | zero => exact absurd a.size_pos (by omega)
  | succ n ih =>
    intro hyps b ha hb hfree
    rw [unifyN]
    refine unifyHeads_settles ha hb (.retry ?_ fun _ s => ?_) hyps
    · refine unifyForms_settles (fun a' hpart => ih ?_) ha hb hfree hyps
      have hsize := hpart.size_lt
      omega
    · have hnormal : ∀ {t : Term}, t.isConcrete = true → s.holes.normalize env t = t := by
        intro t ht
        rw [Holes.normalize_eq_expand (Declarations.reduce?_eq_none henv),
          Term.expand_of_isConcrete _ ht]
      rw [ends_bind, ends_holes, hnormal ha, hnormal hb, unifyNormal, ends_bind, ends_holes]
      exact unifyNormalN_matches (size_le_depthBound _ a b) hyps b ha hb hfree s

/-- Unification is equality up to the names of parameters: free names are equal only to themselves,
plicities agree, literals are compared by their text, and defaults do not count. Parameters of the
second term are renamed to those of the first one by name, and this must capture nothing. -/
theorem unify_iff_alphaEq (henv : env.reductions = []) {a b : Term} (ha : a.isConcrete = true)
    (hb : b.isConcrete = true) (hfree : a.captureFree [] b = true) (hyps : Context) (s : Solver) :
    (∃ s', (unify env hyps a b).run s = (.ok (), s')) ↔ a.alphaEq [] b = true := by
  have hends : Settles (unify env hyps a b) (a.alphaEq [] b) := by
    intro s
    rw [unify, ends_bind, ends_holes]
    exact unifyN_matches henv (size_le_depthBound _ a b) hyps b ha hb hfree s
  constructor
  · rintro ⟨s', hrun⟩
    exact (hends s).of_ok hrun
  · intro hequal
    rcases hrun : (unify env hyps a b).run s with ⟨fault | _, s'⟩
    · have hdiffer := (hends s).of_error hrun
      simp [hequal] at hdiffer
    · exact ⟨s', rfl⟩

def arrow (params : List (String × Term)) (result : Term) : Term :=
  .pi (params.map fun p => { name := p.1, type := p.2 }) result

/-- Parameters that trade their names, next to a repeated name and under a function type whose
parameter has the name of an outer one. -/
theorem unify_iff_alphaEq_swapped :
    ∃ s', (unify {} {} (arrow [("x", .const "A"), ("_", .bound "x"), ("y", .bound "x")]
        (arrow [("y", .const "A")] (.eq (.bound "x") (.bound "y"))))
      (arrow [("y", .const "A"), ("_", .bound "y"), ("x", .bound "y")]
        (arrow [("z", .const "A")] (.eq (.bound "y") (.bound "z"))))).run {} = (.ok (), s') :=
  (unify_iff_alphaEq rfl (by decide) (by decide) (by decide) {} {}).mpr (by decide)

/-- Renaming by name captures. A name that is free on one side becomes equal to a parameter on the
other side, and a parameter is lost under a function type that uses its new name. -/
theorem unify_captures_names :
    ((∃ s', (unify {} {} (arrow [("y", .const "Int")] (.bound "y"))
          (arrow [("x", .const "Int")] (.bound "y"))).run {} = (.ok (), s')) ∧
        (arrow [("y", .const "Int")] (.bound "y")).alphaEq []
          (arrow [("x", .const "Int")] (.bound "y")) = false) ∧
      (∃ fault s',
        (unify {} {} (arrow [("x", .const "Int")] (arrow [("z", .const "Int")] (.bound "x")))
          (arrow [("y", .const "Int")] (arrow [("x", .const "Int")] (.bound "y")))).run {} =
            (.error fault, s')) ∧
        (arrow [("x", .const "Int")] (arrow [("z", .const "Int")] (.bound "x"))).alphaEq []
          (arrow [("y", .const "Int")] (arrow [("x", .const "Int")] (.bound "y"))) = true :=
  ⟨⟨⟨_, rfl⟩, by decide⟩, ⟨_, _, rfl⟩, by decide⟩

end Unification

end Solve

end Implicits
