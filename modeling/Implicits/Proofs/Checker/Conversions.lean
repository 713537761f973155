import Implicits.Conversion
import Implicits.Proofs.Checker.Elaborate
import Implicits.Proofs.Solver.SameForm

/-!
Conversions are found by the text of the types they connect. Where types are readable this is as
good as the types themselves: a conversion is inserted only around a term whose type unifies with
its source.
-/
namespace Implicits

open Relation Term

/-- A known term, which no open hole is behind, is read the same in a later state. -/
theorem Solver.Extends.expand_eq {s s' : Solver} (h : s.Extends s') {t : Term} {base : Nat}
    (hs : s.Sound (.unit base)) (ht : t.Scoped (.unit base) s.stage)
    (hknown : (s.holes.expand t).HoleFree) : s'.holes.expand t = s.holes.expand t := by
  rw [Holes.expand, Holes.expand, h.size]
  refine Holes.instantiateN_of_solved h.solved fun i j hi hij hopen => ?_
  refine hknown.not_shows j
    ((Holes.shows_expand fun k hk => hs.table.grounded_of_shows ht hk).mpr ?_)
  exact ⟨hopen, i, hi, hij⟩

namespace Declarations

structure Converts (env : Declarations) (kind : String → NameKind) : Prop where
  declared : ∀ entry ∈ env.conversions, ∃ (outer : Declarations) (h : Holes),
    outer.conversion entry.2.name h = .ok entry
  normal : ∀ entry ∈ env.conversions, ({} : Holes).normalize env entry.2.source = entry.2.source
  readable : ∀ entry ∈ env.conversions, entry.2.source.isReadable kind = true

end Declarations

section

variable {env : Declarations} {kind : String → NameKind}

theorem Holes.text_of_isReadable (h : Holes) {t : Term} (ht : t.isReadable kind = true)
    (hfree : t.HoleFree) : h.text t = t.render h.label false := by
  rw [Holes.text.eq_def]
  split
  · simp [isReadable] at ht
  · rw [Holes.expand_of_holeFree h hfree]

/-- Types that are filed under the same key have the same form. -/
theorem Check.form_eq_of_key {h h' : Holes} {source source' target target' : Term}
    (hsource : source.isReadable kind = true) (hfree : source.HoleFree)
    (hsource' : source'.isReadable kind = true) (hfree' : source'.HoleFree)
    (hkey : conversionKey h source target = conversionKey h' source' target') :
    source.form = source'.form := by
  have hlist := congrArg String.toList hkey
  simp only [conversionKey, String.toList_append, List.append_assoc,
    h.text_of_isReadable hsource hfree, h'.text_of_isReadable hsource' hfree'] at hlist
  exact form_eq_of_text hsource hsource' (Reader.closes_arrow _) (Reader.closes_arrow _) hlist

namespace Solve

/-- A known type unifies with a normal type of the form of its own normal form. -/
theorem unify_of_form {base : Nat} {s : Solver} {hyps : Context} {actual source : Term}
    (henv : env.HoleFree) (hhyps : hyps.HoleFree) (hs : s.Sound (.unit base))
    (hactual : actual.Scoped (.unit base) s.stage)
    (hknown : (s.holes.expand actual).HoleFree)
    (hread : (s.holes.normalize env actual).isReadable kind = true)
    (hsource : source.isReadable kind = true) (hfree : source.HoleFree)
    (hnormal : ({} : Holes).normalize env source = source)
    (hform : (s.holes.normalize env actual).form = source.form) :
    Ends (unify env hyps actual source) s (fun _ _ => True) fun _ _ => False := by
  have hground : ∀ i, actual.Shows i → s.holes.Grounded i :=
    fun i hi => hs.table.grounded_of_shows hactual hi
  have hfollow := Holes.expand_follow hground
  have hread' : ∀ s' : Solver, s.Extends s' →
      s'.holes.normalize env (s.holes.follow actual) = s.holes.normalize env actual := by
    intro s' hext
    refine Holes.normalize_congr henv hknown ?_
    rw [hext.expand_eq hs (hs.table.follow hactual) (hfollow ▸ hknown), hfollow]
  have hnormal' : ∀ h : Holes, h.normalize env source = source := by
    intro h
    have hempty := Holes.expand_of_holeFree {} hfree
    rw [Holes.normalize_congr henv (hempty.symm ▸ hfree)
      ((Holes.expand_of_holeFree h hfree).trans hempty.symm), hnormal]
  have hopen : ∀ i, s.holes.follow actual ≠ .hole i := by
    intro i hi
    have hscoped := hs.table.follow hactual
    rw [hi] at hscoped hfollow
    refine hknown.not_shows i ?_
    rw [← hfollow, Holes.shows_expand fun k hk => hs.table.grounded_of_shows hscoped hk]
    exact ⟨hs.table.isOpen_of_follow hactual hi, i, shows_hole.mpr rfl, .refl⟩
  have hsame : s.holes.follow source = source := by
    refine Holes.followN_of_not_hole ?_ _
    rintro i rfl
    simp [isReadable] at hsource
  obtain ⟨n, hn⟩ : ∃ n, depthBound s.holes actual source = n + 1 :=
    ⟨depthBound s.holes actual source - 1, by simp only [depthBound, spareDepth]; omega⟩
  unfold unify
  rw [ends_bind, ends_holes, hn, unifyN, ends_unifyHeads hopen, hsame, ends_tryCatch]
  · -- If the terms do not fit as they are, their normal forms do.
    have hvalid : (Ledger.empty env (.unit base) hyps).Valid s := ⟨hs, trivial⟩
    have hsource' : source.Scoped (.unit base) s.stage := hfree.within_unit base _
    apply Ends.mono (Ledger.Keeps.attempt hvalid fun hvalid' => unifyForms_keeps
      (unifyN_keeps (henv.within base) n) hvalid' (.refl (hhyps.within base _))
      (hs.table.follow hactual) hsource')
    · exact fun _ _ _ => trivial
    · rintro _ s' ⟨_, hext⟩
      rw [ends_bind, ends_holes, hread' s' hext, hnormal']
      exact unifyNormal_succeeds hread hsource hfree hform hyps s'
  · rw [hsame]
    rintro i rfl
    simp [isReadable] at hsource

end Solve

namespace Check

/-- A conversion is inserted only around an argument whose type it accepts: the type of the argument
unifies with the source of the conversion in the resulting state. -/
theorem inserted_conversion_accepts {base : Nat} {c c₁ c' : Checker} {e : Expr} {hyps : Context}
    {nested : Bool} {param : String} {expected term actual result : Term} (henv : env.HoleFree)
    (hconv : env.Converts kind) (he : e.HoleFree) (hhyps : hyps.HoleFree)
    (hc : c.solver.Sound (.unit base))
    (hexpected : expected.Scoped (.unit base) c.solver.stage)
    (helaborate : (elaborate env e nested hyps expected).run c = (.ok (term, actual), c₁))
    (hknown : c₁.solver.holes.hasOpen actual = false)
    (hread : (c₁.solver.holes.normalize env actual).isReadable kind = true)
    (hrun : (checkArgument env ⟨e, elaborate env e⟩ nested param hyps expected).run c =
      (.ok result, c')) :
    result = term ∨ ∃ entry ∈ env.conversions, result = .app (.const entry.2.name) [term] ∧
      ∃ s, (Solve.unify env hyps actual entry.2.source).run c'.solver = (.ok (), s) := by
  have hwithin := henv.within base
  have hcontext : ∀ n, hyps.Scoped (.unit base) n := fun n => hhyps.within base n
  obtain ⟨hvalid, hstep, -, hactual, -⟩ := Ends.of_ok (elaborate_elaborates
    (L := Ledger.empty env (.unit base) hyps) hwithin hcontext (he.within base) nested c expected
    ⟨hc, trivial⟩ hexpected) helaborate
  have hfit : (fitArgument env e param hyps term actual expected).run c₁ = (.ok result, c') := by
    rw [checkArgument, run_bind] at hrun
    simpa only [helaborate] using hrun
  obtain ⟨hvalid', -, hext', hresult⟩ :=
    Ends.of_ok (fitArgument_checks hwithin hcontext e param hvalid
    hactual (hexpected.mono hstep.stage)) hfit
  rcases hresult with rfl | ⟨s, conv, hext, hkey, rfl⟩
  · exact .inl rfl
  -- What is known of the type of the argument before the conversion is looked up holds afterwards.
  have hfree : (c₁.solver.holes.expand actual).HoleFree := by
    rw [HoleFree, List.eq_nil_iff_forall_not_mem]
    intro i hi
    have hshows := (hvalid.table.expand hactual).shows_of_mem_holes trivial hi
    rw [Holes.hasOpen, ← Bool.not_eq_true, anyHole_iff] at hknown
    exact hknown ⟨i, hshows, rfl⟩
  have hlater : ∀ {s' : Solver}, c₁.solver.Extends s' →
      s'.holes.expand actual = c₁.solver.holes.expand actual ∧
        s'.holes.normalize env actual = c₁.solver.holes.normalize env actual := by
    intro s' hext
    have hexpand := hext.expand_eq hvalid.sound hactual hfree
    exact ⟨hexpand, Holes.normalize_congr henv hfree hexpand⟩
  have hmem := mem_conversions hkey (List.mem_singleton_self conv)
  refine .inr ⟨_, hmem, rfl, ?_⟩
  obtain ⟨outer, h, hdeclared⟩ := hconv.declared _ hmem
  have hsource := hconv.readable _ hmem
  have hsourceFree := (henv.conversion _ hmem).1
  have hform : (c₁.solver.holes.normalize env actual).form = conv.source.form := by
    have htext := Declarations.key_of_conversion hdeclared
    rw [(hlater hext).2] at htext
    exact form_eq_of_key hread (Holes.normalize_holeFree henv hfree) hsource hsourceFree htext
  obtain ⟨hexpand, hnormalize⟩ := hlater hext'
  rw [← hexpand] at hfree
  rw [← hnormalize] at hread hform
  obtain ⟨_, s', hunify, -⟩ :=
    (Solve.unify_of_form henv hhyps hvalid'.sound (hactual.mono hext'.stage) hfree hread hsource
    hsourceFree (hconv.normal _ hmem) hform).exists_ok
  exact ⟨s', hunify⟩

end Check

end

namespace Check

def binaryType : Term :=
  .pi [⟨"x", .const "Int", .explicit, none⟩, ⟨"y", .const "Int", .explicit, none⟩] (.const "Int")

def curriedType : Term :=
  .pi [⟨"x", .const "Int", .explicit, none⟩]
    (.pi [⟨"y", .const "Int", .explicit, none⟩] (.const "Int"))

def functionSignature (source : Term) : Signature where
  name := "toFloat"
  params := [⟨"f", source, .explicit, none⟩]
  result := .const "Float"

def functionConversion (source : Term) : String × Conversion :=
  ("(x : Int) -> (y : Int) -> Int -> Float", ⟨"toFloat", source, .const "Float"⟩)

def functionDeclarations (source : Term) : Declarations where
  signatures := [functionSignature source]
  conversions := [functionConversion source]

theorem functionConversion_declared : ∀ source ∈ [binaryType, curriedType],
    Declarations.conversion { signatures := [functionSignature source] } "toFloat" =
      .ok (functionConversion source) := by
  intro source hsource
  simp only [List.mem_cons, List.not_mem_nil, or_false] at hsource
  rcases hsource with rfl | rfl <;> rfl

theorem functionDeclarations_holeFree : (functionDeclarations binaryType).HoleFree where
  signature := by decide
  reduction := by simp [functionDeclarations]
  conversion := by decide

theorem functionDeclarations_converts : (functionDeclarations binaryType).Converts
    fun name => if name = "g" then .bound else .constant where
  declared := by
    intro entry hentry
    obtain rfl : entry = functionConversion binaryType := List.mem_singleton.mp hentry
    exact ⟨_, {}, functionConversion_declared _ (by simp)⟩
  normal := by
    intro entry hentry
    obtain rfl : entry = functionConversion binaryType := List.mem_singleton.mp hentry
    rfl
  readable := by
    intro entry hentry
    obtain rfl : entry = functionConversion binaryType := List.mem_singleton.mp hentry
    decide

def functionContext : Context := ⟨[⟨"g", binaryType⟩]⟩

def freshChecker : Checker := Checker.start {} 0 { owner := "u" }

def functionAsNumber (source : Term) : Except CheckError Term × Checker :=
  (checkArgument (functionDeclarations source)
    ⟨.var "g", elaborate (functionDeclarations source) (.var "g")⟩ false "" functionContext
    (.const "Float")).run freshChecker

def isConverted : Except CheckError Term → Bool
  | .ok (.app (.const "toFloat") [.bound "g"]) => true
  | _ => false

theorem eq_of_isConverted {r : Except CheckError Term} (h : isConverted r = true) :
    r = .ok (.app (.const "toFloat") [.bound "g"]) := by
  unfold isConverted at h
  split at h
  · rfl
  · simp at h

/-- A function of two numbers is converted by a conversion for such functions. -/
theorem inserted_conversion_accepts_binary : ∃ c',
    functionAsNumber binaryType = (.ok (.app (.const "toFloat") [.bound "g"]), c') ∧
      ∃ s, (Solve.unify (functionDeclarations binaryType) functionContext binaryType
        binaryType).run c'.solver = (.ok (), s) := by
  have hconverted : isConverted (functionAsNumber binaryType).1 = true := by decide +kernel
  have helaborate : (elaborate (functionDeclarations binaryType) (.var "g") false functionContext
      (.const "Float")).run freshChecker = (.ok (.bound "g", binaryType), freshChecker) := rfl
  generalize hcall : functionAsNumber binaryType = r at hconverted ⊢
  obtain ⟨result, c'⟩ := r
  obtain rfl := eq_of_isConverted hconverted
  refine ⟨c', rfl, ?_⟩
  have hread : (freshChecker.solver.holes.normalize (functionDeclarations binaryType)
      binaryType).isReadable (fun name => if name = "g" then .bound else .constant) = true := by
    decide +kernel
  rcases inserted_conversion_accepts functionDeclarations_holeFree functionDeclarations_converts
    (by decide) (by decide) (Solver.sound_unit (Holes.sound_start {} rfl 0)) .const helaborate
      (by decide) hread hcall with
    hsame | ⟨entry, hentry, _, hunify⟩
  · simp at hsame
  · obtain rfl : entry = functionConversion binaryType := List.mem_singleton.mp hentry
    exact hunify

def isRefused (r : Except Fault Unit × Solver) : Bool :=
  match r with
  | (.error _, _) => true
  | (.ok _, _) => false

/-- The texts of the two function types agree, so that a function of two numbers is also converted
by a conversion for functions that take one number after the other, though the types do not unify.
-/
theorem conversion_inserted_across_nesting : ∃ c',
    functionAsNumber curriedType = (.ok (.app (.const "toFloat") [.bound "g"]), c') ∧
      ∃ fault s, (Solve.unify (functionDeclarations curriedType) functionContext binaryType
        curriedType).run c'.solver = (.error fault, s) := by
  have htest : isConverted (functionAsNumber curriedType).1 &&
      isRefused ((Solve.unify (functionDeclarations curriedType) functionContext binaryType
        curriedType).run (functionAsNumber curriedType).2.solver) = true := by decide +kernel
  rw [Bool.and_eq_true] at htest
  obtain ⟨hconverted, hrefused⟩ := htest
  generalize functionAsNumber curriedType = r at hconverted hrefused ⊢
  obtain ⟨result, c'⟩ := r
  obtain rfl := eq_of_isConverted hconverted
  refine ⟨c', rfl, ?_⟩
  generalize (Solve.unify (functionDeclarations curriedType) functionContext binaryType
    curriedType).run c'.solver = r at hrefused ⊢
  rcases r with ⟨fault | _, s⟩
  · exact ⟨fault, s, rfl⟩
  · simp [isRefused] at hrefused

end Check

end Implicits
