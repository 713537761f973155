import Mathlib.Data.List.Nodup
import Implicits.Proofs.Session.Run
import Implicits.Proofs.Solver.LevelBlind
import Implicits.Session

/-!
Sessions made from a configuration. A foreign function over declared primitive types passes every
check of its signature: the types lie in the lowest universe, and no level variables or constraints
arise. So in a session that declares the primitive types and some foreign functions, one more is
refused only because of its name. A configuration is applied as a whole exactly if its directives
can be read, its functions are named and typed by primitive types, and all names differ.
-/
namespace Implicits

theorem Except.mapError_eq_ok {ε ε' α : Type} {f : ε → ε'} {x : Except ε α} {a : α} :
    x.mapError f = .ok a ↔ x = .ok a := by
  cases x <;> simp [Except.mapError]

theorem Except.bind_eq_ok {ε α β : Type} {x : Except ε α} {f : α → Except ε β} {b : β} :
    (x >>= f) = .ok b ↔ ∃ a, x = .ok a ∧ f a = .ok b := by
  cases x <;> simp [bind, Except.bind]

theorem mapM_eq_ok_iff {ε α β : Type} {f : α → Except ε β} {xs : List α} {ys : List β} :
    xs.mapM f = .ok ys ↔ List.Forall₂ (fun x y => f x = .ok y) xs ys := by
  induction xs generalizing ys with
  | nil =>
    rw [List.mapM_nil, List.forall₂_nil_left_iff]
    exact ⟨fun h => (Except.ok.inj h).symm, fun h => congrArg _ h.symm⟩
  | cons x xs ih =>
    rw [List.mapM_cons, List.forall₂_cons_left_iff]
    simp only [Except.bind_eq_ok, ih]
    constructor
    · rintro ⟨y, hy, rest, hrest, hys⟩
      exact ⟨y, rest, hy, hrest, (Except.ok.inj hys).symm⟩
    · rintro ⟨y, rest, hy, hrest, rfl⟩
      exact ⟨y, hy, rest, hrest, rfl⟩

theorem exists_mapM_eq_ok_iff {ε α β : Type} {f : α → Except ε β} {xs : List α} :
    (∃ ys, xs.mapM f = .ok ys) ↔ ∀ x ∈ xs, ∃ y, f x = .ok y := by
  simp only [mapM_eq_ok_iff]
  induction xs with
  | nil => simp
  | cons x xs ih =>
    rw [List.forall_mem_cons, ← ih]
    simp only [List.forall₂_cons_left_iff]
    constructor
    · rintro ⟨_, y, ys, hy, hys, rfl⟩
      exact ⟨⟨y, hy⟩, ys, hys⟩
    · rintro ⟨⟨y, hy⟩, ys, hys⟩
      exact ⟨_, y, ys, hy, hys, rfl⟩

namespace Prim

theorem eq_of_name_eq : ∀ p ∈ all, ∀ q ∈ all, q.name = p.name → q = p := by decide

theorem ofName?_eq_some_iff {name : String} {p : Prim} :
    ofName? name = some p ↔ p ∈ all ∧ p.name = name := by
  constructor
  · intro h
    exact ⟨List.mem_of_find?_eq_some h, by simpa using List.find?_some h⟩
  · rintro ⟨hp, rfl⟩
    cases hfound : ofName? p.name with
    | none => exact absurd (List.find?_eq_none.mp hfound p hp) (by simp)
    | some q =>
      have hname : q.name = p.name := by simpa using List.find?_some hfound
      rw [eq_of_name_eq p hp q (List.mem_of_find?_eq_some hfound) hname]

end Prim

def Declarations.HasPrims (env : Declarations) : Prop :=
  ∀ p ∈ Prim.all, env.signature? p.name = some p.signature

/-- Among signatures of different names each one is found under its own. -/
theorem Declarations.signature?_of_mem {env : Declarations} {sig : Signature}
    (hnodup : (env.signatures.map (·.name)).Nodup) (hsig : sig ∈ env.signatures) :
    env.signature? sig.name = some sig := by
  cases hfound : env.signature? sig.name with
  | none => exact absurd rfl (signature?_eq_none.mp hfound sig hsig)
  | some other =>
    rw [List.inj_on_of_nodup_map hnodup (mem_of_signature? hfound) hsig (name_of_signature? hfound)]

namespace Solve

/-- A declared primitive type has a level, and nothing is changed to find it. -/
theorem levelOf_prim {env : Declarations} {p : Prim} (hp : env.signature? p.name = some p.signature)
    (hyps : Context) (s : Solver) :
    Ends (levelOf env hyps p.term) s (fun _ s' => s' = s) fun _ _ => False := by
  have hexpand : s.holes.expand p.term = p.term := Holes.expand_of_holeFree _ rfl
  have himport : s.importSignature p.signature = s := rfl
  have hnormal : s.holes.normalize env p.signature.type = .sort (.level (.const 0)) :=
    s.holes.normalize_sort env _
  rw [levelOf, ends_bind, typeOf, ends_bind, ends_holes, hexpand]
  change Ends (typeOfN env (typeSteps + 1) hyps p.term) s _ _
  rw [typeOfN, ends_bind, ends_holes, hexpand, Prim.term, infer, ends_bind, lookupSignature?, hp]
  dsimp only
  rw [ends_bind, ends_modify, himport, ends_pure, ends_pure, asUniverse, ends_bind,
    ends_holes, hnormal]
  rfl

end Solve

namespace Signature

/-- Parameters pass if they are explicit, have a type each and are named apart. -/
theorem validateParams_eq_ok (name : String) {params : List (Param Term)}
    (hparams : ∀ p ∈ params, p.type.isMissing = false ∧ p.plicity = .explicit)
    (hnames : (params.map (·.name)).Nodup) :
    ∀ earlier, (∀ p ∈ params, p.name ∉ earlier) → validateParams name earlier params = .ok () := by
  induction params with
  | nil => exact fun _ _ => rfl
  | cons p params ih =>
    intro earlier hearlier
    obtain ⟨htype, hplicity⟩ := hparams p List.mem_cons_self
    obtain ⟨hp, hnames⟩ := List.nodup_cons.mp hnames
    have hnew : earlier.contains p.name = false := by simpa using hearlier p List.mem_cons_self
    rw [validateParams, htype, hplicity, hnew, Bool.and_false]
    refine ih (fun q hq => hparams q (List.mem_cons_of_mem _ hq)) hnames _ fun q hq => ?_
    rw [List.mem_cons, not_or]
    refine ⟨fun heq => hp (List.mem_map.mpr ⟨q, hq, heq⟩), hearlier q (List.mem_cons_of_mem _ hq)⟩

end Signature

namespace Foreign

variable {f : Foreign}

theorem exists_of_mem_params {p : Param Term} (hp : p ∈ f.signature.params) :
    ∃ q ∈ f.args, p = { name := p.name, type := q.term } := by
  obtain ⟨⟨q, i⟩, hq, rfl⟩ := List.mem_map.mp hp
  exact ⟨q, (List.mem_zipIdx hq).2.2 ▸ List.getElem_mem _, rfl⟩

theorem nodup_params_names (f : Foreign) : (f.signature.params.map (·.name)).Nodup := by
  have hnames : f.signature.params.map (·.name) =
      (List.range' 0 f.args.length).map fun i => "x" ++ toString i := by
    rw [← List.zipIdx_map_snd 0 f.args, signature, List.map_map, List.map_map]
    rfl
  have hread : ∀ n : Nat, Nat.ofDigitChars 10 (toString n).toList 0 = n := fun n => by
    rw [Nat.toString_eq_ofList_toDigits, String.toList_ofList, Nat.ofDigitChars_ten_toDigits]
  rw [hnames]
  refine List.Nodup.map (fun i j hij => ?_) List.nodup_range'
  rw [← hread i, (String.append_right_inj "x").mp hij, hread j]

theorem validate_signature (hname : f.name ≠ "") : f.signature.validate = .ok () := by
  have hresult : f.signature.result.isMissing = false := rfl
  have hnamed : (f.signature.name == "") = false := beq_false_of_ne hname
  rw [Signature.validate, hnamed, hresult]
  refine Signature.validateParams_eq_ok _ (fun p hp => ?_) f.nodup_params_names [] (by simp)
  obtain ⟨q, -, heq⟩ := exists_of_mem_params hp
  rw [heq]
  exact ⟨rfl, rfl⟩

end Foreign

namespace Check

variable {env : Declarations} {c : Checker} {f : Foreign}

theorem orFail_keeps {α : Type} {x : Solve α} (site : Expr) (wrap : Fault → CheckError)
    (h : Ends x c.solver (fun _ s' => s' = c.solver) fun _ _ => False) :
    Ends (orFail site wrap x) c (fun _ c' => c' = c) fun _ _ => False := by
  obtain ⟨a, s', hrun, rfl⟩ := h.exists_ok
  rw [orFail, ends_bind, ends_solve, hrun]
  exact rfl

/-- Parameters of primitive types are taken as they are. -/
theorem checkParams_prims (henv : env.HasPrims) (function : String) {params : List (Param Term)}
    (hparams : ∀ p ∈ params, ∃ q ∈ Prim.all, p = { name := p.name, type := q.term }) :
    ∀ hyps, Ends (checkParams env function hyps params) c (fun r c' => r.1 = params ∧ c' = c)
      fun _ _ => False := by
  induction params with
  | nil => exact fun _ => ⟨rfl, rfl⟩
  | cons p params ih =>
    intro hyps
    obtain ⟨q, hq, heq⟩ := hparams p List.mem_cons_self
    rw [heq, checkParams, ends_bind]
    change Ends
      (orFail .missing (.badParam p.name function) (Solve.levelOf env hyps q.term) >>= _) c _ _
    rw [ends_bind]
    refine (orFail_keeps _ _ (Solve.levelOf_prim (henv q hq) hyps c.solver)).mono ?_ fun _ _ h => h
    rintro _ c rfl
    rw [ends_bind]
    change Ends (checkParams env function _ params >>= _) c _ _
    rw [ends_bind]
    refine (ih (fun p hp => hparams p (List.mem_cons_of_mem _ hp)) _).mono ?_ fun _ _ h => h
    rintro r c ⟨hr, rfl⟩
    exact ⟨congrArg _ hr, rfl⟩

/-- The signature of a named foreign function over primitive types is taken as it is, without
constraints. -/
theorem checkDeclared_foreign (henv : env.HasPrims) (hname : f.name ≠ "")
    (hargs : ∀ p ∈ f.args, p ∈ Prim.all) (hret : f.ret ∈ Prim.all) (hactive : c.isActive = true)
    (hconstraints : c.constraints = []) :
    Ends (checkDeclared env f.signature) c (fun checked _ => checked = f.signature)
      fun _ _ => False := by
  have hsignature : Ends (checkSignature env f.signature) c
      (fun checked c' => checked = f.signature ∧ c' = c) fun _ _ => False := by
    rw [checkSignature, ends_bind, requireActive, ends_bind, ends_get, hactive,
      f.validate_signature hname]
    change Ends (checkParams env f.name {} f.signature.params >>= _) c _ _
    rw [ends_bind]
    refine (checkParams_prims henv f.name (fun p hp => ?_) {}).mono ?_ fun _ _ h => h
    · obtain ⟨q, hq, heq⟩ := Foreign.exists_of_mem_params hp
      exact ⟨q, hargs q hq, heq⟩
    rintro ⟨params, hyps⟩ c ⟨rfl, rfl⟩
    rw [ends_bind]
    change Ends
      (orFail .missing (.badResult f.name) (Solve.levelOf env hyps f.ret.term) >>= _) c _ _
    rw [ends_bind]
    refine (orFail_keeps _ _ (Solve.levelOf_prim (henv _ hret) hyps c.solver)).mono ?_
      fun _ _ h => h
    rintro _ _ rfl
    exact ⟨rfl, rfl⟩
  have hlevels : ∃ a, checkLevels [] = .ok a := ⟨_, rfl⟩
  obtain ⟨a, hlevels⟩ := hlevels
  rw [checkDeclared, ends_bind]
  refine hsignature.mono ?_ fun _ _ h => h
  rintro _ c ⟨rfl, rfl⟩
  rw [ends_bind, checkUniverses, ends_bind, ends_get, hactive, hconstraints, hlevels]
  change ({ f.signature with constraints := c.constraints } : Signature) = f.signature
  rw [hconstraints]
  rfl

end Check

def Prim.names : List String := Prim.all.map Prim.name

structure Foreign.Proper (f : Foreign) : Prop where
  name : f.name ≠ ""
  args : ∀ p ∈ f.args, p ∈ Prim.all
  ret : f.ret ∈ Prim.all

/-- Functions whose names differ from each other, from those of given functions and from the
primitive types. -/
def Foreign.NamesNew (functions more : List Foreign) : Prop :=
  (more.map (·.name)).Nodup ∧ ∀ f ∈ more, f.name ∉ functions.map (·.name) ∧ f.name ∉ Prim.names

theorem Foreign.namesNew_cons_iff {functions more : List Foreign} {f : Foreign}
    (hother : f.name ∉ functions.map (·.name)) (hprim : f.name ∉ Prim.names) :
    NamesNew functions (f :: more) ↔ NamesNew (functions ++ [f]) more := by
  have happend : ∀ g : Foreign, g.name ∉ (functions ++ [f]).map (·.name) ↔
      g.name ∉ functions.map (·.name) ∧ g.name ≠ f.name := by
    intro g
    rw [List.map_append, List.mem_append, not_or, List.map_singleton, List.mem_singleton]
  simp only [NamesNew, List.map_cons, List.nodup_cons, List.forall_mem_cons, happend]
  constructor
  · rintro ⟨⟨hf, hnodup⟩, -, hall⟩
    refine ⟨hnodup, fun g hg => ⟨⟨(hall g hg).1, fun heq => hf ?_⟩, (hall g hg).2⟩⟩
    exact List.mem_map.mpr ⟨g, hg, heq⟩
  · rintro ⟨hnodup, hall⟩
    refine ⟨⟨fun hf => ?_, hnodup⟩, ⟨hother, hprim⟩, fun g hg => ⟨(hall g hg).1.1, (hall g hg).2⟩⟩
    obtain ⟨g, hg, heq⟩ := List.mem_map.mp hf
    exact (hall g hg).1.2 heq

def ForeignDecl.result (d : ForeignDecl) : String := if d.ret = "" then Prim.unit.name else d.ret

namespace Config

theorem findPrim_eq_ok {foreign name : String} {p : Prim} :
    findPrim foreign name = .ok p ↔ p ∈ Prim.all ∧ p.name = name := by
  rw [← Prim.ofName?_eq_some_iff, findPrim]
  cases Prim.ofName? name with
  | none => simp
  | some q => simp

theorem mapM_findPrim_eq_ok {foreign : String} {names : List String} {ps : List Prim} :
    names.mapM (findPrim foreign) = .ok ps ↔ (∀ p ∈ ps, p ∈ Prim.all) ∧
    ps.map Prim.name = names := by
  rw [mapM_eq_ok_iff]
  simp only [findPrim_eq_ok]
  induction ps generalizing names with
  | nil => simp [eq_comm]
  | cons p ps ih =>
    rw [List.forall₂_cons_right_iff, List.forall_mem_cons, List.map_cons]
    constructor
    · rintro ⟨_, rest, ⟨hp, rfl⟩, hrest, rfl⟩
      obtain ⟨hps, rfl⟩ := ih.mp hrest
      exact ⟨⟨hp, hps⟩, rfl⟩
    · rintro ⟨⟨hp, hps⟩, rfl⟩
      exact ⟨_, _, ⟨hp, rfl⟩, ih.mpr ⟨hps, rfl⟩, rfl⟩

/-- A foreign function is read from a declaration with a name and names of primitive types. -/
theorem foreignOf_eq_ok {d : ForeignDecl} {f : Foreign} :
    foreignOf d = .ok f ↔ f.Proper ∧ f.name = d.name ∧ f.args.map Prim.name = d.args ∧
      f.ret.name = d.result := by
  obtain ⟨name, args, ret⟩ := f
  rw [foreignOf]
  by_cases hname : d.name = ""
  · rw [if_pos hname]
    exact ⟨(nomatch ·), fun h => absurd (h.2.1.trans hname) h.1.name⟩
  · rw [if_neg hname]
    change (_ >>= fun ps => _ >>= fun p => Except.ok (⟨d.name, ps, p⟩ : Foreign)) = _ ↔ _
    simp only [Except.bind_eq_ok, mapM_findPrim_eq_ok, findPrim_eq_ok, Except.ok.injEq,
      Foreign.mk.injEq]
    constructor
    · rintro ⟨ps, ⟨hall, hps⟩, p, ⟨hp, hret⟩, rfl, rfl, rfl⟩
      exact ⟨⟨hname, hall, hp⟩, rfl, hps, hret⟩
    · rintro ⟨hproper, rfl, hps, hret⟩
      exact ⟨args, ⟨hproper.args, hps⟩, ret, ⟨hproper.ret, hret⟩, rfl, rfl, rfl⟩

theorem exists_foreignOf_eq_ok_iff {d : ForeignDecl} :
    (∃ f, foreignOf d = .ok f) ↔ d.name ≠ "" ∧ (∀ a ∈ d.args, a ∈ Prim.names) ∧
      (d.ret = "" ∨ d.ret ∈ Prim.names) := by
  have hresult : d.result ∈ Prim.names ↔ d.ret = "" ∨ d.ret ∈ Prim.names := by
    unfold ForeignDecl.result
    by_cases hret : d.ret = ""
    · simp [hret, Prim.names, Prim.all]
    · simp [hret]
  have hargs : (∃ ps, d.args.mapM (findPrim d.name) = .ok ps) ↔ ∀ a ∈ d.args, a ∈ Prim.names := by
    simp only [exists_mapM_eq_ok_iff, findPrim_eq_ok, Prim.names, List.mem_map]
  rw [← hresult, ← hargs]
  constructor
  · rintro ⟨f, hf⟩
    obtain ⟨hproper, hname, hps, hret⟩ := foreignOf_eq_ok.mp hf
    exact ⟨hname ▸ hproper.name, ⟨_, mapM_findPrim_eq_ok.mpr ⟨hproper.args, hps⟩⟩,
      hret ▸ List.mem_map_of_mem hproper.ret⟩
  · rintro ⟨hname, ⟨ps, hps⟩, hret⟩
    obtain ⟨hall, hps⟩ := mapM_findPrim_eq_ok.mp hps
    obtain ⟨p, hp, hret⟩ := List.mem_map.mp hret
    exact ⟨⟨d.name, ps, p⟩, foreignOf_eq_ok.mpr ⟨⟨hname, hall, hp⟩, rfl, hps, hret⟩⟩

end Config

def Session.configured (directives : List Directive) (functions : List Foreign) : Session where
  own := { signatures := (functions.map Foreign.signature).reverse ++ Prim.all.map Prim.signature }
  directives

section Configured

variable {directives : List Directive} {functions : List Foreign}

theorem Session.signature?_configured {name : String} :
    ((configured directives functions).own.signature? name).isSome = true ↔
      name ∈ functions.map (·.name) ∨ name ∈ Prim.names := by
  rw [Declarations.signature?, List.find?_isSome]
  simp [configured, Prim.names, Foreign.signature, Prim.signature, or_and_right, exists_or]

theorem Session.hasPrims_configured (hnew : ∀ f ∈ functions, f.name ∉ Prim.names) :
    (configured directives functions).own.HasPrims := by
  intro p hp
  have hforeign : (functions.map Foreign.signature).reverse.find? (·.name == p.name) = none := by
    rw [List.find?_eq_none]
    intro sig hsig
    obtain ⟨f, hf, rfl⟩ := List.mem_map.mp (List.mem_reverse.mp hsig)
    have hne : f.name ≠ p.name := fun heq => hnew f hf (heq ▸ List.mem_map_of_mem hp)
    simpa [Foreign.signature] using hne
  have hprims : ∀ p ∈ Prim.all,
      (Prim.all.map Prim.signature).find? (·.name == p.name) = some p.signature := by
    simp [Prim.all, Prim.signature, Prim.name]
  rw [Declarations.signature?, configured, List.find?_append, hforeign]
  exact hprims p hp

end Configured

namespace Sessions

variable {directives : List Directive} {functions : List Foreign}

def withConfigured (t : Sessions) (directives : List Directive) (functions : List Foreign) :
    Sessions :=
  ⟨t.table.push (.configured directives functions)⟩

variable (t : Sessions)

theorem get_withConfigured :
    (t.withConfigured directives functions).get t.table.size =
      .configured directives functions := by
  simp [withConfigured, get]

theorem update_withConfigured (f : Session → Session) :
    (t.withConfigured directives functions).update t.table.size f =
      ⟨t.table.push (f (.configured directives functions))⟩ := by
  simp only [withConfigured, update, mk.injEq]
  apply Array.ext
  · simp
  · intro i h _
    simp only [Array.size_modify, Array.size_push] at h
    rw [Array.getElem_modify, Array.getElem_push, Array.getElem_push]
    by_cases hi : i < t.table.size
    · simp [hi, Nat.ne_of_gt hi]
    · simp [show t.table.size = i by omega]

theorem visible_withConfigured :
    (t.withConfigured directives functions).visible t.table.size =
      (Session.configured directives functions).own := by
  rw [visible, lineage, get_withConfigured]
  change Declarations.append ((t.withConfigured directives functions).get t.table.size).own {} = _
  rw [get_withConfigured, Declarations.append_empty]

theorem foldl_addDirective (more : List Directive) (directives : List Directive) :
    more.foldl (fun s d => addDirective s t.table.size d) (t.withConfigured directives functions) =
      t.withConfigured (directives ++ more) functions := by
  induction more generalizing directives with
  | nil => rw [List.append_nil]; rfl
  | cons d more ih =>
    rw [List.foldl_cons, addDirective, update_withConfigured]
    exact (ih (directives ++ [d])).trans (by rw [List.append_assoc, List.singleton_append])

/-- A proper foreign function is declared unless its name is taken. -/
theorem declareForeign_withConfigured (hnew : ∀ f ∈ functions, f.name ∉ Prim.names) {f : Foreign}
    (hf : f.Proper) :
    (t.withConfigured directives functions).declareForeign t.table.size f =
      if f.name ∈ functions.map (·.name) ∨ f.name ∈ Prim.names then .error (.alreadyDeclared f.name)
      else .ok (f.signature, t.withConfigured directives (functions ++ [f])) := by
  have hprims : (Session.configured directives functions).own.HasPrims :=
    Session.hasPrims_configured hnew
  have hdeclared : ((f.args ++ [f.ret]).find? fun p =>
      ((Session.configured directives functions).own.signature? p.name).isNone) = none := by
    rw [List.find?_eq_none]
    intro p hp
    have hall : p ∈ Prim.all := by
      rcases List.mem_append.mp hp with hp | hp
      · exact hf.args p hp
      · exact List.mem_singleton.mp hp ▸ hf.ret
    simp [hprims p hall]
  obtain ⟨_, c', hrun, rfl⟩ := (Check.checkDeclared_foreign (c := Checker.start {} t.table.size
    (.forDecl f.name)) hprims hf.name hf.args hf.ret rfl rfl).exists_ok
  have hdeclare : (t.withConfigured directives functions).declareForeign t.table.size f =
      if ((Session.configured directives functions).own.signature? f.name).isSome = true then
        .error (.alreadyDeclared f.name)
      else .ok (f.signature, (t.withConfigured directives functions).update t.table.size fun s =>
        { s with own := s.own.addSignature f.signature }) := by
    rw [declareForeign, visible_withConfigured, hdeclared]
    change (t.withConfigured directives functions).declare t.table.size f.signature = _
    rw [declare, checkDeclared, visible_withConfigured]
    change (((Check.checkDeclared _ f.signature).run
      (Checker.start {} t.table.size (.forDecl f.name))).1 >>= _) = _
    rw [hrun]
    change (if ((Session.configured directives functions).own.signature? f.name).isSome = true
      then _ else _) = _
    split <;> rfl
  have hadded : (Session.configured directives functions).own.addSignature f.signature =
      (Session.configured directives (functions ++ [f])).own := by
    simp [Session.configured, Declarations.addSignature]
  rw [hdeclare, update_withConfigured, hadded]
  simp only [Session.signature?_configured]
  rfl

/-- Proper foreign functions are declared one after the other if all names differ. -/
theorem foldlM_withConfigured {more : List Foreign} (hmore : ∀ f ∈ more, f.Proper) :
    ∀ functions : List Foreign, (∀ f ∈ functions, f.name ∉ Prim.names) → ∀ r,
      more.foldlM (fun s f => do
        let (_, s) ← (declareForeign s t.table.size f).mapError SetupFault.declaration
        return s) (t.withConfigured directives functions) = .ok r ↔
      Foreign.NamesNew functions more ∧ r = t.withConfigured directives (functions ++ more) := by
  induction more with
  | nil =>
    intro functions _ r
    simp [Foreign.NamesNew, pure, Except.pure, eq_comm]
  | cons f more ih =>
    intro functions hnew r
    rw [List.foldlM_cons, declareForeign_withConfigured t hnew (hmore f List.mem_cons_self)]
    by_cases htaken : f.name ∈ functions.map (·.name) ∨ f.name ∈ Prim.names
    · rw [if_pos htaken]
      simp only [Except.mapError, bind, Except.bind]
      refine ⟨(nomatch ·), fun h => absurd htaken ?_⟩
      have hf := h.1.2 f List.mem_cons_self
      exact not_or.mpr hf
    · rw [if_neg htaken]
      obtain ⟨hother, hprim⟩ := not_or.mp htaken
      have hnew' : ∀ g ∈ functions ++ [f], g.name ∉ Prim.names := by
        intro g hg
        rcases List.mem_append.mp hg with hg | hg
        · exact hnew g hg
        · exact List.mem_singleton.mp hg ▸ hprim
      refine (ih (fun g hg => hmore g (List.mem_cons_of_mem _ hg)) _ hnew' r).trans ?_
      rw [List.append_assoc, List.singleton_append]
      refine and_congr_left fun _ => ?_
      exact (Foreign.namesNew_cons_iff hother hprim).symm

/-- A session is made from a configuration exactly if what is configured can be read, and the names
of the functions differ from each other and from those of the primitive types. -/
theorem ofConfig_eq_ok_iff {config : Config} {r : SessionId × Sessions} :
    t.ofConfig config = .ok r ↔ ∃ directives functions,
      config.parsedDirectives = .ok directives ∧ config.foreignFunctions = .ok functions ∧
      ((functions.map (·.name)).Nodup ∧ ∀ f ∈ functions, f.name ∉ Prim.names) ∧
      r = (t.table.size, t.withConfigured directives functions) := by
  have hproper : ∀ {functions}, config.foreignFunctions = .ok functions →
      ∀ f ∈ functions, f.Proper := by
    intro functions h f hf
    rw [Config.foreignFunctions, mapM_eq_ok_iff] at h
    obtain ⟨i, hi, rfl⟩ := List.getElem_of_mem hf
    exact (Config.foreignOf_eq_ok.mp (h.get (h.length_eq ▸ hi) hi)).1
  have hcreate : t.create none = (t.table.size, t.withConfigured [] []) := rfl
  rw [ofConfig, hcreate]
  change (config.parsedDirectives.mapError SetupFault.config >>= fun directives =>
    config.foreignFunctions.mapError SetupFault.config >>= fun functions =>
    functions.foldlM _ (directives.foldl (fun s d => addDirective s t.table.size d)
      (t.withConfigured [] [])) >>= fun t' => Except.ok (t.table.size, t')) = _ ↔ _
  simp only [Except.bind_eq_ok, Except.mapError_eq_ok]
  refine exists_congr fun directives => ?_
  rw [foldl_addDirective]
  constructor
  · rintro ⟨hdirectives, functions, hfunctions, t', ht', hr⟩
    obtain ⟨hnames, rfl⟩ := (foldlM_withConfigured t (hproper hfunctions) [] (by simp) t').mp ht'
    exact ⟨functions, hdirectives, hfunctions, by simpa [Foreign.NamesNew] using hnames,
      (Except.ok.inj hr).symm⟩
  · rintro ⟨functions, hdirectives, hfunctions, hnames, rfl⟩
    refine ⟨hdirectives, functions, hfunctions, _, ?_, rfl⟩
    exact (foldlM_withConfigured t (hproper hfunctions) [] (by simp) _).mpr
      ⟨by simpa [Foreign.NamesNew] using hnames, rfl⟩

end Sessions

/-- A configuration that can be applied: the directives can be read, the foreign functions have
names and only primitive types, and their names differ from each other and from those of the
primitive types. -/
structure Config.Applicable (config : Config) : Prop where
  directives : ∀ line ∈ config.directives, ∃ d, Directive.parse (Bytes.ofString line) = .ok d
  named : ∀ d ∈ config.foreign, d.name ≠ ""
  args : ∀ d ∈ config.foreign, ∀ a ∈ d.args, a ∈ Prim.names
  ret : ∀ d ∈ config.foreign, d.ret = "" ∨ d.ret ∈ Prim.names
  distinct : (config.foreign.map (·.name)).Nodup
  new : ∀ d ∈ config.foreign, d.name ∉ Prim.names

/-- The signature of a configured foreign function: explicit parameters of the given types, in
order, and the given result, without constraints. -/
structure ForeignDecl.HasSignature (d : ForeignDecl) (sig : Signature) : Prop where
  name : sig.name = d.name
  types : sig.params.map (·.type) = d.args.map .const
  explicit : ∀ p ∈ sig.params, p.plicity = .explicit ∧ p.fallback = none
  result : sig.result = .const d.result
  constraints : sig.constraints = []

/-- A root session that declares the primitive types and the configured functions, nothing else, and
has the configured directives. -/
structure Config.AppliedIn (config : Config) (t : Sessions) (id : SessionId) : Prop where
  root : (t.get id).ancestors = []
  names : ((t.get id).own.signatures.map (·.name)).Perm (Prim.names ++ config.foreign.map (·.name))
  prims : (t.get id).own.HasPrims
  foreign : ∀ d ∈ config.foreign, ∃ sig, (t.get id).own.signature? d.name = some sig ∧
    d.HasSignature sig
  reductions : (t.get id).own.reductions = []
  conversions : (t.get id).own.conversions = []
  directives : List.Forall₂ (fun line d => Directive.parse (Bytes.ofString line) = .ok d)
    config.directives (t.allDirectives id)

namespace Config

variable {config : Config} {directives : List Directive} {functions : List Foreign}

theorem parsedDirectives_eq_ok : config.parsedDirectives = .ok directives ↔
    List.Forall₂ (fun line d => Directive.parse (Bytes.ofString line) = .ok d) config.directives
      directives := by
  simp only [parsedDirectives, mapM_eq_ok_iff, Except.mapError_eq_ok]

theorem names_of_foreignFunctions (h : config.foreignFunctions = .ok functions) :
    functions.map (·.name) = config.foreign.map (·.name) := by
  rw [foreignFunctions, mapM_eq_ok_iff] at h
  generalize config.foreign = ds at h
  induction h with
  | nil => rfl
  | cons hd _ ih => rw [List.map_cons, List.map_cons, ih, (foreignOf_eq_ok.mp hd).2.1]

theorem applicable_iff : config.Applicable ↔ ∃ directives functions,
    config.parsedDirectives = .ok directives ∧ config.foreignFunctions = .ok functions ∧
    (functions.map (·.name)).Nodup ∧ ∀ f ∈ functions, f.name ∉ Prim.names := by
  have hread : (∃ directives, config.parsedDirectives = .ok directives) ↔
      ∀ line ∈ config.directives, ∃ d, Directive.parse (Bytes.ofString line) = .ok d := by
    simp only [parsedDirectives, exists_mapM_eq_ok_iff, Except.mapError_eq_ok]
  have hmade : (∃ functions, config.foreignFunctions = .ok functions) ↔
      ∀ d ∈ config.foreign, d.name ≠ "" ∧ (∀ a ∈ d.args, a ∈ Prim.names) ∧
        (d.ret = "" ∨ d.ret ∈ Prim.names) := by
    simp only [foreignFunctions, exists_mapM_eq_ok_iff, exists_foreignOf_eq_ok_iff]
  have hnew : ∀ {functions}, config.foreignFunctions = .ok functions →
      ((∀ f ∈ functions, f.name ∉ Prim.names) ↔ ∀ d ∈ config.foreign, d.name ∉ Prim.names) := by
    intro functions h
    simpa using congrArg (fun names => ∀ name ∈ names, name ∉ Prim.names)
      (names_of_foreignFunctions h)
  constructor
  · intro h
    obtain ⟨directives, hdirectives⟩ := hread.mpr h.directives
    obtain ⟨functions, hfunctions⟩ :=
      hmade.mpr fun d hd => ⟨h.named d hd, h.args d hd, h.ret d hd⟩
    exact ⟨directives, functions, hdirectives, hfunctions,
      names_of_foreignFunctions hfunctions ▸ h.distinct, (hnew hfunctions).mpr h.new⟩
  · rintro ⟨directives, functions, hdirectives, hfunctions, hdistinct, hothers⟩
    have hforeign := hmade.mp ⟨functions, hfunctions⟩
    exact ⟨hread.mp ⟨directives, hdirectives⟩, fun d hd => (hforeign d hd).1,
      fun d hd => (hforeign d hd).2.1, fun d hd => (hforeign d hd).2.2,
      names_of_foreignFunctions hfunctions ▸ hdistinct, (hnew hfunctions).mp hothers⟩

theorem hasSignature_of_foreignOf {d : ForeignDecl} {f : Foreign} (h : foreignOf d = .ok f) :
    d.HasSignature f.signature := by
  obtain ⟨-, hname, hargs, hret⟩ := foreignOf_eq_ok.mp h
  refine ⟨hname, ?_, fun p hp => ?_, congrArg Term.const hret, rfl⟩
  · have htypes : f.signature.params.map (·.type) = f.args.map Prim.term := by
      rw [← List.zipIdx_map_fst 0 f.args, Foreign.signature, List.map_map, List.map_map]
      simp [Function.comp_def]
    rw [htypes, ← hargs, List.map_map]
    rfl
  · obtain ⟨q, -, heq⟩ := Foreign.exists_of_mem_params hp
    rw [heq]
    exact ⟨rfl, rfl⟩

/-- The session that is made has what is configured. -/
theorem appliedIn_withConfigured (t : Sessions)
    (hdirectives : config.parsedDirectives = .ok directives)
    (hfunctions : config.foreignFunctions = .ok functions)
    (hdistinct : (functions.map (·.name)).Nodup) (hnew : ∀ f ∈ functions, f.name ∉ Prim.names) :
    config.AppliedIn (t.withConfigured directives functions) t.table.size := by
  have hget : (t.withConfigured directives functions).get t.table.size =
      .configured directives functions := t.get_withConfigured
  have hnames : (Session.configured directives functions).own.signatures.map (·.name) =
      (functions.map (·.name)).reverse ++ Prim.names := by
    simp [Session.configured, Prim.names, Function.comp_def, Foreign.signature, Prim.signature]
  have hnodup : ((Session.configured directives functions).own.signatures.map (·.name)).Nodup := by
    rw [hnames]
    refine List.nodup_append.mpr ⟨List.nodup_reverse.mpr hdistinct, by decide, ?_⟩
    rintro _ hleft _ hright rfl
    obtain ⟨f, hf, rfl⟩ := List.mem_map.mp (List.mem_reverse.mp hleft)
    exact hnew f hf hright
  refine ⟨by rw [hget]; rfl, ?_, hget ▸ Session.hasPrims_configured hnew,
    fun d hd => ?_, by rw [hget]; rfl,
    by rw [hget]; rfl, ?_⟩
  · rw [hget, hnames, ← names_of_foreignFunctions hfunctions]
    exact ((List.reverse_perm _).append_right _).trans List.perm_append_comm
  · rw [foreignFunctions, mapM_eq_ok_iff] at hfunctions
    obtain ⟨i, hi, rfl⟩ := List.getElem_of_mem hd
    have hi' : i < functions.length := hfunctions.length_eq ▸ hi
    have hsig := hasSignature_of_foreignOf (hfunctions.get hi hi')
    refine ⟨_, ?_, hsig⟩
    have hname : functions[i].signature.name = config.foreign[i].name := hsig.name
    rw [hget, ← hname]
    refine Declarations.signature?_of_mem hnodup (List.mem_append_left _ (List.mem_reverse.mpr ?_))
    exact List.mem_map_of_mem (List.getElem_mem hi')
  · have hall : (t.withConfigured directives functions).allDirectives t.table.size =
        directives := by
      rw [Sessions.allDirectives, Sessions.lineage, hget]
      exact (List.append_nil _).trans (congrArg Session.directives hget)
    rw [hall]
    exact parsedDirectives_eq_ok.mp hdirectives

end Config

/-- A configuration is applied completely or refused. A session is made from it exactly if all its
directives can be read, all its foreign functions have a name and only primitive types, and the
names differ from each other and from those of the primitive types. The session then declares the
primitive types and the functions, each with its explicit parameters and its result and without
constraints, and has the directives in their order. -/
theorem Sessions.ofConfig_exact (t : Sessions) (config : Config) :
    ((∃ id t', t.ofConfig config = .ok (id, t')) ↔ config.Applicable) ∧
    ∀ id t', t.ofConfig config = .ok (id, t') → config.AppliedIn t' id := by
  refine ⟨?_, fun id t' h => ?_⟩
  · rw [Config.applicable_iff]
    constructor
    · rintro ⟨id, t', h⟩
      obtain ⟨directives, functions, hdirectives, hfunctions, hnames, -⟩ :=
        t.ofConfig_eq_ok_iff.mp h
      exact ⟨directives, functions, hdirectives, hfunctions, hnames⟩
    · rintro ⟨directives, functions, hdirectives, hfunctions, hnames⟩
      exact ⟨_, _, t.ofConfig_eq_ok_iff.mpr
        ⟨directives, functions, hdirectives, hfunctions, hnames, rfl⟩⟩
  · obtain ⟨directives, functions, hdirectives, hfunctions, hnames, heq⟩ :=
      t.ofConfig_eq_ok_iff.mp h
    obtain ⟨rfl, rfl⟩ := Prod.mk.inj heq
    exact Config.appliedIn_withConfigured t hdirectives hfunctions hnames.1 hnames.2

def mathConfig : Config where
  parallelism := -1
  directives := ["%lib C \"m\""]
  foreign := [{ name := "pow", args := ["Float", "Float"], ret := "Float" },
    { name := "halt", args := ["Int"] }]

/-- The functions are declared, and a third one of a name that is taken would be refused. -/
theorem Sessions.ofConfig_exact_math : ∃ id t', ofConfig {} mathConfig = .ok (id, t') ∧
    mathConfig.AppliedIn t' id ∧
    ¬ ∃ id t', ofConfig {}
      { mathConfig with foreign := mathConfig.foreign ++ [{ name := "Ptr" }] } =
      .ok (id, t') := by
  have happlicable : mathConfig.Applicable := by
    refine ⟨?_, by decide, by decide, by decide, by decide, by decide⟩
    exact List.forall_mem_singleton.mpr
      ⟨⟨.library, Bytes.ascii "C", Bytes.ascii "m"⟩, by decide +kernel⟩
  obtain ⟨id, t', hmade⟩ := (ofConfig_exact {} mathConfig).1.mpr happlicable
  refine ⟨id, t', hmade, (ofConfig_exact {} mathConfig).2 id t' hmade, fun hrefused => ?_⟩
  have hnew := ((ofConfig_exact {} _).1.mp hrefused).new { name := "Ptr" } (by decide)
  exact hnew (by decide)

end Implicits
