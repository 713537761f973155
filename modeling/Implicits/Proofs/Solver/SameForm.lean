import Implicits.Proofs.HoleFree
import Implicits.Proofs.Solver.Unify
import Implicits.Proofs.Term.ReadBack
import Implicits.Proofs.Term.Subst
import Implicits.Proofs.Term.Unifier

/-!
Readable terms of the same form unify in every state: their names stand for the same things,
universes are equated by constraints, and bound names are renamed to themselves.
-/
namespace Implicits

namespace Term

theorem holesSubst_self (h : Holes) {sub : Substitution}
    (hsub : ∀ entry ∈ sub, entry.2 = .bound entry.1) {t : Term} (ht : t.HoleFree) :
    h.subst sub t = t := by
  rw [Holes.subst_of_expand (Holes.expand_of_holeFree h ht), subst_self hsub]

end Term

theorem Level.const_text_injective {j k : Int64}
    (h : (Level.const j).text = (Level.const k).text) : j = k := by
  have hread : ∀ n : Nat, Nat.ofDigitChars 10 n.repr.toList 0 = n := fun n => by
    rw [Nat.repr_eq_ofList_toDigits, String.toList_ofList, Nat.ofDigitChars_ten_toDigits]
  have hsame : ∀ {m n : Nat}, m.repr = n.repr → m = n := fun {m n} hmn => by
    rw [← hread m, hmn, hread n]
  -- A sign is not a digit.
  have hsign : ∀ m n : Nat, "-" ++ m.repr ≠ n.repr := by
    intro m n hmn
    have hmem : '-' ∈ Nat.toDigits 10 n := by
      rw [← String.toList_ofList (l := Nat.toDigits 10 n), ← Nat.repr_eq_ofList_toDigits, ← hmn]
      simp
    exact absurd (Nat.isDigit_of_mem_toDigits (by decide) (by decide) hmem) (by decide)
  simp only [Level.text, Int.toString_eq_repr, Int.repr_eq_if] at h
  apply Int64.toInt_inj.mp
  split at h
  · split at h
    · have := hsame h
      omega
    · exact absurd h.symm (hsign _ _)
  · split at h
    · exact absurd h (hsign _ _)
    · have := hsame ((String.append_right_inj "-").mp h)
      omega

namespace Solve

variable {α β : Type}

def Succeeds (x : Solve α) (Q : α → Prop) : Prop :=
  ∀ s, Ends x s (fun a _ => Q a) fun _ _ => False

namespace Succeeds

variable {x : Solve α} {Q : α → Prop} {R : β → Prop}

theorem pure {a : α} (ha : Q a) : Succeeds (pure a) Q := fun _ => ha

theorem bind {f : α → Solve β} (hx : Succeeds x Q) (hf : ∀ a, Q a → Succeeds (f a) R) :
    Succeeds (x >>= f) R := by
  intro s
  rw [ends_bind]
  exact (hx s).mono (fun a s' ha => hf a ha s') fun _ _ h => h

theorem holes : Succeeds holes fun _ => True := fun _ => trivial

theorem modifyLevels (f : LevelStore → LevelStore) : Succeeds (modifyLevels f) fun _ => True :=
  fun _ => trivial

end Succeeds

theorem unifyUniverses_succeeds {l m : Level} (h : l.text = m.text) :
    Succeeds (unifyUniverses (.level l) (.level m)) fun _ => True := by
  cases l with
  | const j =>
    cases m with
    | const k =>
      rw [unifyUniverses, if_pos (Level.const_text_injective h)]
      exact .pure trivial
    | var w =>
      unfold unifyUniverses
      exact .modifyLevels _
  | var v =>
    unfold unifyUniverses
    exact .modifyLevels _

theorem unifyArgs_succeeds {recur : Term → Term → Solve Unit} {as bs : List Term}
    (hrecur : ∀ p ∈ as.zip bs, Succeeds (recur p.1 p.2) fun _ => True) :
    Succeeds (unifyArgs recur as bs) fun _ => True := by
  induction as generalizing bs with
  | nil => exact .pure trivial
  | cons a as ih =>
    cases bs with
    | nil => exact .pure trivial
    | cons b bs =>
      rw [unifyArgs]
      refine (hrecur (a, b) (by simp)).bind fun _ _ => ih fun p hp => hrecur p ?_
      rw [List.zip_cons_cons]
      exact List.mem_cons_of_mem _ hp

theorem unifyParams_succeeds {recur : Context → Term → Term → Solve Unit} (whole : Solve Unit)
    {ps qs : List (Param Term)} {names : Substitution}
    (hnames : ∀ entry ∈ names, entry.2 = .bound entry.1)
    (hparams : ∀ r ∈ ps.zip qs, r.1.name = r.2.name ∧ r.1.plicity = r.2.plicity ∧
      r.2.type.HoleFree ∧
      ∀ hyps, Succeeds (recur hyps r.1.type r.2.type) fun _ => True) (hyps : Context) :
    Succeeds (unifyParams recur whole hyps names ps qs) fun r =>
      ∀ entry ∈ r.2, entry.2 = .bound entry.1 := by
  induction ps generalizing qs names hyps with
  | nil => exact .pure hnames
  | cons p ps ih =>
    cases qs with
    | nil => exact .pure hnames
    | cons q qs =>
      obtain ⟨hname, hplicity, hfree, hrecur⟩ := hparams (p, q) (by simp)
      rw [unifyParams, if_neg (not_not.mpr hplicity)]
      refine Succeeds.holes.bind fun h _ => ?_
      rw [Term.holesSubst_self h hnames hfree]
      refine (hrecur hyps).bind fun _ _ => ih ?_ (fun r hr => hparams r ?_) _
      · intro entry hentry
        rcases List.mem_cons.mp hentry with rfl | hentry
        · exact congrArg Term.bound hname
        · exact hnames entry hentry
      · rw [List.zip_cons_cons]
        exact List.mem_cons_of_mem _ hr

/-- Terms that do not lead to open holes are left to the comparison. -/
theorem ends_unifyHeads {env : Declarations} {compare : Term → Term → Solve Unit} {a b : Term}
    {s : Solver} {Q : Unit → Solver → Prop} {E : Fault → Solver → Prop} {hyps : Context}
    (ha : ∀ i, s.holes.follow a ≠ .hole i) (hb : ∀ i, s.holes.follow b ≠ .hole i) :
    Ends (unifyHeads env compare hyps a b) s Q E ↔
      Ends (compare (s.holes.follow a) (s.holes.follow b)) s Q E := by
  unfold unifyHeads
  rw [ends_bind, ends_holes]
  split
  · exact absurd ‹_› (ha _)
  · exact absurd ‹_› (ha _)
  · exact absurd ‹_› (hb _)
  · rfl

theorem eq_of_mem_zip {α γ : Type} {f : α → γ} {as bs : List α}
    (h : as.map f = bs.map f) {p : α × α} (hp : p ∈ as.zip bs) : f p.1 = f p.2 := by
  induction as generalizing bs with
  | nil => simp at hp
  | cons a as ih =>
    cases bs with
    | nil => simp at hp
    | cons b bs =>
      rw [List.map_cons, List.map_cons, List.cons.injEq] at h
      rcases List.mem_cons.mp hp with rfl | hp
      · exact h.1
      · exact ih h.2 hp

def Accepts (kind : String → NameKind) (recur : Context → Term → Term → Solve Unit) (t : Term) :
    Prop :=
  ∀ hyps u, t.isReadable kind = true → u.isReadable kind = true → u.HoleFree → t.form = u.form →
    Succeeds (recur hyps t u) fun _ => True

section Comparison

variable {kind : String → NameKind} {recur : Context → Term → Term → Solve Unit}

theorem unifyForms_app_accepts {fn : Term} {args : List Term}
    (hrecur : ∀ t, t.Part (.app fn args) → Accepts kind recur t) :
    Accepts kind (unifyForms recur) (.app fn args) := by
  intro hyps u ht hu hfree hform
  cases u with
  | app gn brgs =>
    simp only [Term.form, Form.app.injEq, Term.formArgs_eq_map] at hform
    simp only [Term.isReadable, Bool.and_eq_true, Term.isReadableArgs_iff] at ht hu
    obtain ⟨hg, hbrgs⟩ := List.append_eq_nil_iff.mp hfree
    have hlen : args.length = brgs.length := by simpa using congrArg List.length hform.2
    rw [unifyForms, if_pos hlen]
    refine (hrecur fn .fn hyps gn ht.1.1 hu.1.1 hg hform.1).bind fun _ _ =>
      unifyArgs_succeeds fun p hp => ?_
    obtain ⟨ha, hb⟩ := List.of_mem_zip hp
    exact hrecur p.1 (.arg ha) hyps p.2 (ht.1.2 _ ha) (hu.1.2 _ hb)
      (Term.holeFree_args.mp hbrgs _ hb)
      (eq_of_mem_zip hform.2 hp)
  | _ => simp [Term.form] at hform

theorem unifyForms_pi_accepts {params : List (Param Term)} {result : Term}
    (hrecur : ∀ t, t.Part (.pi params result) → Accepts kind recur t) :
    Accepts kind (unifyForms recur) (.pi params result) := by
  intro hyps u ht hu hfree hform
  cases u with
  | pi params' result' =>
    simp only [Term.form, Form.pi.injEq, Term.formParams_eq_map] at hform
    simp only [Term.isReadable, Bool.and_eq_true, Term.isReadableParams_iff] at ht hu
    obtain ⟨hparams', hresult'⟩ := List.append_eq_nil_iff.mp hfree
    have hlen : params.length = params'.length := by simpa using congrArg List.length hform.1
    rw [unifyForms, if_pos hlen]
    refine (unifyParams_succeeds _ (by simp) ?_ hyps).bind fun opened hnames => ?_
    · intro r hr
      obtain ⟨hp, hq⟩ := List.of_mem_zip hr
      have hfree' := (Term.holeFree_params.mp hparams' _ hq).1
      have hparam := eq_of_mem_zip hform.1 hr
      simp only [Param.mk.injEq] at hparam
      exact ⟨hparam.1, hparam.2.2.1, hfree', fun hyps => hrecur _ (.param hp) hyps _
        (ht.1.1.2 _ hp).2.2.2 (hu.1.1.2 _ hq).2.2.2 hfree' hparam.2.1⟩
    · refine Succeeds.holes.bind fun h _ => ?_
      rw [Term.holesSubst_self h hnames hresult']
      exact hrecur result .result opened.1 result' ht.1.2 hu.1.2 hresult' hform.2
  | _ => simp [Term.form] at hform

/-- One step of the comparison: readable terms of the same form compare parts of the same form. -/
theorem unifyForms_accepts {t : Term} (hrecur : ∀ t', t'.Part t → Accepts kind recur t') :
    Accepts kind (unifyForms recur) t := by
  intro hyps u ht hu hfree hform
  cases t with
  | missing | hole => simp [Term.isReadable] at ht
  | const name =>
    cases u with
    | const m =>
      simp only [Term.form, Form.word.injEq] at hform
      rw [unifyForms, if_pos hform]
      exact .pure trivial
    | _ => simp_all [Term.form, Term.isReadable]
  | lit text type =>
    cases u with
    | lit m _ =>
      simp only [Term.form, Form.word.injEq] at hform
      rw [unifyForms, if_pos hform]
      exact .pure trivial
    | _ => simp_all [Term.form, Term.isReadable]
  | bound name =>
    cases u with
    | bound m =>
      simp only [Term.form, Form.word.injEq] at hform
      rw [unifyForms, if_pos hform]
      exact .pure trivial
    | _ => simp_all [Term.form, Term.isReadable]
  | app fn args => exact unifyForms_app_accepts hrecur hyps u ht hu hfree hform
  | pi params result => exact unifyForms_pi_accepts hrecur hyps u ht hu hfree hform
  | sort l =>
    cases u with
    | sort m =>
      cases l with
      | unassigned => simp [Term.isReadable] at ht
      | level l =>
        cases m with
        | unassigned => simp [Term.isReadable] at hu
        | level m =>
          rw [unifyForms]
          refine unifyUniverses_succeeds ?_
          simpa [Term.form, Universe.level?] using hform
    | _ => simp [Term.form] at hform
  | eq lhs rhs =>
    cases u with
    | eq lhs' rhs' =>
      simp only [Term.form, Form.eq.injEq] at hform
      simp only [Term.isReadable, Bool.and_eq_true] at ht hu
      obtain ⟨hl, hr⟩ := List.append_eq_nil_iff.mp hfree
      rw [unifyForms]
      exact (hrecur lhs .lhs hyps lhs' ht.1 hu.1 hl hform.1).bind fun _ _ =>
        hrecur rhs .rhs hyps rhs' ht.2 hu.2 hr hform.2
    | _ => simp [Term.form] at hform
  | refl value =>
    cases u with
    | refl value' =>
      simp only [Term.form, Form.refl.injEq] at hform
      rw [unifyForms]
      exact hrecur value .value hyps value' ht hu hfree hform
    | _ => simp [Term.form] at hform

/-- Readable terms of the same form unify in every state. -/
theorem unifyNormalN_accepts {env : Declarations} {n : Nat} {t : Term} (hn : t.size ≤ n) :
    Accepts kind (unifyNormalN env n) t := by
  induction n generalizing t with
  | zero => exact absurd t.size_pos (by omega)
  | succ n ih =>
    intro hyps u ht hu hfree hform
    have hhole : ∀ {v : Term}, v.isReadable kind = true → ∀ i, v ≠ .hole i := by
      rintro v hv i rfl
      simp [Term.isReadable] at hv
    intro s
    have hfollow : ∀ {v : Term}, v.isReadable kind = true → s.holes.follow v = v :=
      fun hv => Holes.followN_of_not_hole (hhole hv) _
    rw [unifyNormalN, ends_unifyHeads (by rw [hfollow ht]; exact hhole ht)
      (by rw [hfollow hu]; exact hhole hu), hfollow ht, hfollow hu]
    refine unifyForms_accepts (fun t' hpart => ih ?_) hyps u ht hu hfree hform s
    have hsize := hpart.size_lt
    omega

end Comparison

theorem size_le_depthBound (h : Holes) (a b : Term) : a.size ≤ depthBound h a b := by
  have hread : a.size ≤ (h.expand a).size := by
    rw [Holes.expand_eq_fill]
    exact Term.size_le_size_fill _ a
  have hle : (h.expand a).size + (h.expand b).size + 1 ≤
      ((h.expand a).size + (h.expand b).size + 1) * ((h.expand a).size + (h.expand b).size + 1) :=
    Nat.le_mul_of_pos_left _ (Nat.succ_pos _)
  simp only [depthBound]
  omega

theorem unifyNormal_succeeds {env : Declarations} {kind : String → NameKind} {t u : Term}
    (ht : t.isReadable kind = true) (hu : u.isReadable kind = true) (hfree : u.HoleFree)
    (hform : t.form = u.form) (hyps : Context) :
    Succeeds (unifyNormal env hyps t u) fun _ => True := by
  unfold unifyNormal
  exact Succeeds.holes.bind fun h _ =>
    unifyNormalN_accepts (size_le_depthBound h t u) hyps u ht hu hfree hform

end Solve

end Implicits
