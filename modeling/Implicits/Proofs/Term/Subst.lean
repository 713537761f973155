import Implicits.Conversion
import Implicits.Proofs.Term.Scope

/-!
Substitution depends only on the names that a term mentions, and it can be exchanged with the
filling of holes: what is put in for a name before its holes are solved is read as what is put in
afterwards.
-/
namespace Implicits

namespace Substitution

variable {sub : Substitution} {name : String}

theorem lookup_without (sub : Substitution) (hidden name : String) :
    (sub.without hidden).lookup name = if name = hidden then none else sub.lookup name := by
  induction sub with
  | nil => simp [without]
  | cons entry sub ih =>
    obtain ⟨n, u⟩ := entry
    unfold without at ih ⊢
    by_cases hn : n = hidden
    · rw [List.filter_cons_of_neg (by simp [hn]), ih, List.lookup_cons]
      by_cases hname : name = hidden
      · rw [if_pos hname, if_pos hname]
      · have hne : (name == n) = false := by simp [hn, hname]
        rw [if_neg hname, if_neg hname, hne]
    · rw [List.filter_cons_of_pos (by simp [hn]), List.lookup_cons, ih, List.lookup_cons]
      by_cases hname : name = n
      · simp [hname, hn]
      · have hne : (name == n) = false := by simp [hname]
        rw [hne]

def mapTerms (f : Term → Term) (sub : Substitution) : Substitution :=
  sub.map fun entry => (entry.1, f entry.2)

theorem lookup_mapTerms (f : Term → Term) (sub : Substitution) (name : String) :
    (sub.mapTerms f).lookup name = (sub.lookup name).map f := by
  induction sub with
  | nil => rfl
  | cons entry sub ih =>
    unfold mapTerms at ih ⊢
    rw [List.map_cons, List.lookup_cons, List.lookup_cons, ih]
    by_cases hname : name = entry.1
    · simp [hname]
    · have hne : (name == entry.1) = false := by simp [hname]
      rw [hne]

theorem mapTerms_without (f : Term → Term) (sub : Substitution) (name : String) :
    (sub.mapTerms f).without name = (sub.without name).mapTerms f := by
  simp only [without, mapTerms, List.filter_map]
  rfl

theorem mapTerms_behind (f : Term → Term) (sub : Substitution) (params : List (Param Term)) :
    (sub.mapTerms f).behind params = (sub.behind params).mapTerms f := by
  induction params generalizing sub with
  | nil => rfl
  | cons p params ih =>
    change ((sub.mapTerms f).without p.name).behind params = _
    rw [mapTerms_without, ih]
    rfl

/-- Only the names of parameters count. -/
theorem behind_congr (sub : Substitution) {params params' : List (Param Term)}
    (hnames : params.map (·.name) = params'.map (·.name)) :
    sub.behind params = sub.behind params' := by
  have hfold : ∀ ps : List (Param Term), sub.behind ps =
      (ps.map (·.name)).foldl (fun sub name => sub.without name) sub := by
    intro ps
    rw [List.foldl_map]
    rfl
  rw [hfold, hfold, hnames]

end Substitution

namespace Term

open Substitution

/-- Terms that put the same in for every mentioned name are substituted alike. -/
theorem subst_congr {t : Term} {sub sub' : Substitution}
    (h : ∀ name, t.mentions name = true → sub.lookup name = sub'.lookup name) :
    t.subst sub = t.subst sub' := by
  induction t using induct generalizing sub sub' with
  | missing | const | lit | hole | sort => rfl
  | bound name => rw [subst, subst, h name (by simp [mentions])]
  | app fn args ihf ihargs =>
    have hfn := ihf fun name hname => h name (by simp [mentions, hname])
    have hlist : substArgs sub args = substArgs sub' args := by
      rw [substArgs_eq_map, substArgs_eq_map]
      refine List.map_congr_left fun a ha => ihargs a ha fun name hname => h name ?_
      have hargs : ∀ args : List Term, a ∈ args → mentionsArgs name args = true := by
        intro args ha
        induction args with
        | nil => simp at ha
        | cons b args ih =>
          rcases List.mem_cons.mp ha with rfl | ha
          · simp [mentionsArgs, hname]
          · simp [mentionsArgs, ih ha]
      simp [mentions, hargs args ha]
    rw [subst, subst, hfn, hlist]
  | pi params result ihparams ihr =>
    -- A parameter of the name hides it from then on, on both sides.
    have hparams : ∀ (ps : List (Param Term)) (sub sub' : Substitution), (∀ p ∈ ps, p ∈ params) →
        (∀ name, mentionsParams name (result.mentions name) ps = true →
          sub.lookup name = sub'.lookup name) →
        substParams sub ps = substParams sub' ps ∧
          result.subst (sub.behind ps) = result.subst (sub'.behind ps) := by
      intro ps
      induction ps with
      | nil => exact fun sub sub' _ hps => ⟨rfl, ihr hps⟩
      | cons p ps ih =>
        intro sub sub' hmem hps
        have htype : p.type.subst sub = p.type.subst sub' :=
          ihparams p (hmem p (by simp)) fun name hname => hps name (by simp [mentionsParams, hname])
        obtain ⟨hrest, hresult⟩ := ih (sub.without p.name) (sub'.without p.name)
          (fun q hq => hmem q (by simp [hq])) (by
            intro name hname
            rw [lookup_without, lookup_without]
            by_cases hhidden : name = p.name
            · rw [if_pos hhidden, if_pos hhidden]
            · rw [if_neg hhidden, if_neg hhidden]
              exact hps name (by simp [mentionsParams, hname, Ne.symm hhidden]))
        exact ⟨by rw [substParams, substParams, htype, hrest], hresult⟩
    obtain ⟨hps, hresult⟩ := hparams params sub sub' (fun _ hp => hp) fun name hname =>
      h name (by rwa [mentions])
    rw [subst, subst, hps, hresult]
  | eq lhs rhs ihl ihr =>
    rw [subst, subst, ihl fun name hname => h name (by simp [mentions, hname]),
      ihr fun name hname => h name (by simp [mentions, hname])]
  | refl value ih =>
    rw [subst, subst, ih fun name hname => h name (by simpa [mentions] using hname)]

theorem substParams_self {params : List (Param Term)} {sub : Substitution}
    (hparams : ∀ p ∈ params, ∀ sub : Substitution, (∀ entry ∈ sub, entry.2 = .bound entry.1) →
      p.type.subst sub = p.type)
    (hsub : ∀ entry ∈ sub, entry.2 = .bound entry.1) : substParams sub params = params := by
  induction params generalizing sub with
  | nil => rfl
  | cons p params ih =>
    have hrest := ih (fun q hq => hparams q (by simp [hq]))
      fun entry hentry => hsub entry (without_subset sub p.name hentry)
    rw [substParams, hparams p (by simp) sub hsub, hrest]

/-- Renaming each name to itself changes nothing. -/
theorem subst_self {sub : Substitution}
    (hsub : ∀ entry ∈ sub, entry.2 = .bound entry.1) (t : Term) :
    t.subst sub = t := by
  induction t using induct generalizing sub with
  | missing | const | lit | hole | sort => rfl
  | bound name =>
    rw [subst]
    cases hlookup : sub.lookup name with
    | none => rfl
    | some u => exact hsub (name, u) (mem_of_lookup hlookup)
  | app fn args ihfn ihargs =>
    rw [subst, ihfn hsub, substArgs_eq_map, List.map_congr_left fun a ha => ihargs a ha hsub,
      List.map_id']
  | pi params result ihparams ihresult =>
    rw [subst, substParams_self (fun p hp sub hsub => ihparams p hp hsub) hsub,
      ihresult fun entry hentry => hsub entry (behind_subset sub params hentry)]
  | eq lhs rhs ihl ihr => rw [subst, ihl hsub, ihr hsub]
  | refl value ih => rw [subst, ih hsub]

theorem subst_nil (t : Term) : t.subst [] = t := subst_self (by simp) t

/-- Filling holes by terms without mentioned names can be done before or after a substitution. -/
theorem fill_subst {deep : Bool} {f : HoleId → Term} {t : Term}
    (hf : ∀ i, t.Shows i → ∀ sub, (f i).subst sub = f i) (sub : Substitution) :
    (t.subst sub).fill deep f = (t.fill deep f).subst (sub.mapTerms (fill deep f)) := by
  induction t using induct generalizing sub with
  | missing | const | lit | sort => rfl
  | bound name =>
    rw [subst, fill, subst, lookup_mapTerms]
    cases sub.lookup name with
    | none => rfl
    | some u => rfl
  | hole id =>
    rw [subst, fill]
    exact (hf id (shows_hole.mpr rfl) _).symm
  | app fn args ihf ihargs =>
    have hlist : (args.map (subst sub)).map (fill deep f) =
        (args.map (fill deep f)).map (subst (sub.mapTerms (fill deep f))) := by
      rw [List.map_map, List.map_map]
      exact List.map_congr_left fun a ha =>
        ihargs a ha (fun i hi => hf i (shows_app.mpr (.inr ⟨a, ha, hi⟩))) sub
    rw [subst, fill, fill, subst, ihf (fun i hi => hf i (shows_app.mpr (.inl hi))),
      substArgs_eq_map, substArgs_eq_map, fillArgs_eq_map, fillArgs_eq_map, hlist]
  | pi params result ihparams ihr =>
    have hlist : ∀ (ps : List (Param Term)) (sub : Substitution), (∀ p ∈ ps, p ∈ params) →
        fillParams deep f (substParams sub ps) =
          substParams (sub.mapTerms (fill deep f)) (fillParams deep f ps) := by
      intro ps
      induction ps with
      | nil => exact fun _ _ => rfl
      | cons p ps ih =>
        intro sub hmem
        have hp := hmem p (by simp)
        rw [substParams, fillParams, fillParams, substParams, mapTerms_without,
          ← ih _ fun q hq => hmem q (by simp [hq]),
          ihparams p hp fun i hi => hf i (shows_pi.mpr (.inl ⟨p, hp, hi⟩))]
    have hnames : (fillParams deep f params).map (·.name) = params.map (·.name) := by
      rw [fillParams_eq_map, List.map_map]
      rfl
    rw [subst, fill, fill, subst, hlist params sub fun _ hp => hp,
      ihr fun i hi => hf i (shows_pi.mpr (.inr hi)), behind_congr _ hnames, mapTerms_behind]
  | eq lhs rhs ihl ihr =>
    rw [subst, fill, fill, subst, ihl fun i hi => hf i (shows_eq.mpr (.inl hi)),
      ihr fun i hi => hf i (shows_eq.mpr (.inr hi))]
  | refl value ih => rw [subst, fill, fill, subst, ih fun i hi => hf i (shows_refl.mpr hi)]

theorem HoleFree.not_shows {t : Term} (ht : t.HoleFree) (i : HoleId) : ¬ t.Shows i := by
  intro hi
  have hscoped : t.Scoped { base := 1 } ⟨0, 0, []⟩ :=
    ht.scoped (fun _ => trivial) (fun h => h) fun v _ => ⟨fun h => h.elim, fun _ h => h.elim⟩
  cases hscoped.hole_of_shows hi with
  | hole _ hmade => exact absurd hmade (Nat.not_lt_zero i)

/-- In a term without holes the holes of what is put in for its names can be filled beforehand. -/
theorem HoleFree.fill_subst {t : Term} (ht : t.HoleFree) (deep : Bool) (f : HoleId → Term)
    (sub : Substitution) :
    (t.subst sub).fill deep f = t.subst (sub.mapTerms (fill deep f)) := by
  rw [Term.fill_subst (fun i hi => absurd hi (ht.not_shows i)), fill_of_holeFree ht]

end Term

/-- A term that is read as itself is substituted as it is. -/
theorem Holes.subst_of_expand {h : Holes} {t : Term} (ht : h.expand t = t) (sub : Substitution) :
    h.subst sub t = t.subst sub := by
  unfold Holes.subst
  split
  · rename_i hempty
    rw [List.isEmpty_iff.mp hempty, Term.subst_nil]
  · rw [ht]

end Implicits
