import Implicits.Proofs.Term.Holes
import Implicits.Proofs.Term.Reader

/-!
Terms whose names are words and whose function types are not nested are read back from their text,
up to the kinds of their names. Hence two such terms with the same text have the same form.
-/
namespace Implicits

inductive NameKind where
  | constant
  | bound
  | literal
deriving DecidableEq

namespace Term

mutual

def form : Term → Form
  | missing => .word "<invalid>"
  | const name => .word name
  | lit text _ => .word text
  | bound name => .word name
  | hole _ => .word "?"
  | app fn args => .app fn.form (formArgs args)
  | pi params result => .pi (formParams params) result.form
  | sort u => .sort ((u.level?.map Level.text).getD "")
  | eq lhs rhs => .eq lhs.form rhs.form
  | refl value => .refl value.form

def formArgs : List Term → List Form
  | [] => []
  | t :: ts => t.form :: formArgs ts

def formParams : List (Param Term) → List (Param Form)
  | [] => []
  | ⟨name, type, plicity, _⟩ :: ps => ⟨name, type.form, plicity, none⟩ :: formParams ps

end

def isPi : Term → Bool
  | pi _ _ => true
  | _ => false

def isInfix (fn : Term) (args : List Term) : Bool := fn.operator?.isSome && args.length == 2

mutual

/-- Whether the text of a term tells what it is: names are words and stand for one kind of thing, no
place is empty or open, universes have levels, function types are not nested, and the operators are
not signs of the notation. -/
def isReadable (kind : String → NameKind) : Term → Bool
  | missing | hole _ | sort (.unassigned _) => false
  | const name => isName name && kind name == .constant
  | lit text _ => isName text && kind text == .literal
  | bound name => isName name && kind name == .bound
  | app fn args =>
    fn.isReadable kind && isReadableArgs kind args &&
      !(isInfix fn args && ["=", ":", "->"].any (fn.operator? == some ·))
  | pi params result =>
    !params.isEmpty && isReadableParams kind params && result.isReadable kind && !result.isPi
  | sort (.level l) => isWord l.text
  | eq lhs rhs => lhs.isReadable kind && rhs.isReadable kind
  | refl value => value.isReadable kind

def isReadableArgs (kind : String → NameKind) : List Term → Bool
  | [] => true
  | t :: ts => t.isReadable kind && isReadableArgs kind ts

def isReadableParams (kind : String → NameKind) : List (Param Term) → Bool
  | [] => true
  | ⟨name, type, plicity, _⟩ :: ps =>
    isWord name && name != ":" && plicity != .unknown && type.isReadable kind &&
      isReadableParams kind ps

end

theorem formArgs_eq_map (args : List Term) : formArgs args = args.map form := by
  induction args with
  | nil => rfl
  | cons a args ih => rw [formArgs, ih, List.map_cons]

theorem formParams_eq_map (params : List (Param Term)) :
    formParams params = params.map fun p => ⟨p.name, p.type.form, p.plicity, none⟩ := by
  induction params with
  | nil => rfl
  | cons p params ih => rw [formParams, ih, List.map_cons]

theorem isReadableArgs_iff {kind : String → NameKind} {args : List Term} :
    isReadableArgs kind args = true ↔ ∀ a ∈ args, a.isReadable kind = true := by
  induction args with
  | nil => simp [isReadableArgs]
  | cons a args ih => simp [isReadableArgs, ih]

theorem isReadableParams_iff {kind : String → NameKind} {params : List (Param Term)} :
    isReadableParams kind params = true ↔ ∀ p ∈ params,
      isWord p.name = true ∧ p.name ≠ ":" ∧ p.plicity ≠ .unknown ∧
      p.type.isReadable kind = true := by
  induction params with
  | nil => simp [isReadableParams]
  | cons p params ih => simp [isReadableParams, ih, and_assoc]

end Term

theorem Reader.colon?_self (cs : List Char) : Reader.colon? (' ' :: ':' :: ' ' :: cs) = some cs :=
  rfl

/-- A colon is read only where the word is a colon. -/
theorem Reader.colon?_word {w : String} {rest : List Char} (hw : isWord w = true) (hne : w ≠ ":")
    (hrest : Bounded rest) : Reader.colon? (' ' :: (w.toList ++ rest)) = none := by
  have htake := takeWord_append hw hrest
  generalize w.toList ++ rest = cs at htake
  rw [Reader.colon?.eq_def]
  split
  · rename_i tail heq
    rw [List.cons.injEq] at heq
    rw [heq.2] at htake
    exact absurd htake.symm hne
  · rfl

theorem Level.text_ne_colon (l : Level) : l.text ≠ ":" := by
  intro h
  have hlist := congrArg String.toList h
  cases l with
  | const value =>
    rw [Level.text, Int.toString_eq_repr, Int.repr_eq_if] at hlist
    split at hlist
    · have hdigit : ':' ∈ Nat.toDigits 10 value.toInt.toNat := by
        rw [← Nat.toList_repr, hlist]
        simp
      exact absurd (Nat.isDigit_of_mem_toDigits (by decide) (by decide) hdigit) (by decide)
    · simp at hlist
  | var v =>
    have hu : 'u' ∈ (Level.var v).text.toList := by
      rw [Level.text, LevelVar.text]
      split
      · simp
      · split <;> simp
    rw [hlist] at hu
    simp at hu

namespace Term

def isCompound : Term → Bool
  | app fn args => isInfix fn args
  | pi _ _ | eq _ _ => true
  | _ => false

variable {kind : String → NameKind} {label : HoleId → String} {t : Term} {rest : List Char}

theorem isInfix_iff {fn : Term} {args : List Term} : isInfix fn args = true ↔
    ∃ op a b, fn = const op ∧ isOperator op = true ∧ args = [a, b] := by
  constructor
  · intro h
    simp only [isInfix, Bool.and_eq_true, beq_iff_eq] at h
    obtain ⟨hop, hlen⟩ := h
    obtain ⟨a, b, rfl⟩ := List.length_eq_two.mp hlen
    cases fn with
    | const op =>
      refine ⟨op, a, b, rfl, ?_, rfl⟩
      by_contra hnot
      simp [operator?, hnot] at hop
    | _ => simp [operator?] at hop
  · rintro ⟨op, a, b, rfl, hop, rfl⟩
    simp [isInfix, operator?, hop]

theorem toList_render_app {fn : Term} {args : List Term} (happ : isInfix fn args = false)
    (isTight : Bool) : ((app fn args).render label isTight).toList =
      (fn.render label true).toList ++
        '(' :: ((", ".intercalate (renderArgs label false args)).toList ++ [')']) := by
  rw [render]
  split
  · rename_i op hop hlen
    simp [isInfix, hop, hlen] at happ
  · simp

theorem render_operator {op : String} (a b : Term) (hop : isOperator op = true) (isTight : Bool) :
    (app (const op) [a, b]).render label isTight =
      parenthesize isTight (a.render label true ++ (" " ++ op ++ " ") ++ b.render label true) := by
  rw [render]
  simp [operator?, hop, renderArgs, String.intercalate_cons_cons]

theorem toList_render_compound (ht : t.isCompound = true) :
    (t.render label true).toList = '(' :: ((t.render label false).toList ++ [')']) := by
  cases t with
  | app fn args =>
    obtain ⟨op, a, b, rfl, hop, rfl⟩ := isInfix_iff.mp ht
    rw [render_operator a b hop, render_operator a b hop]
    simp [parenthesize]
  | pi params result => simp [render, parenthesize]
  | eq lhs rhs => simp [render, parenthesize]
  | _ => simp [isCompound] at ht

theorem render_simple (ht : t.isCompound = false) : t.render label false = t.render label true := by
  cases t with
  | app fn args =>
    rw [← String.toList_inj, toList_render_app ht, toList_render_app ht]
  | pi params result => simp [isCompound] at ht
  | eq lhs rhs => simp [isCompound] at ht
  | _ => simp only [render]

open Reader

theorem operator_of_isReadable {op : String} {a b : Term} (hop : isOperator op = true)
    (ht : (app (const op) [a, b]).isReadable kind = true) :
    isName op = true ∧ op ≠ "=" ∧ op ≠ ":" ∧ op ≠ "->" ∧
      a.isReadable kind = true ∧ b.isReadable kind = true := by
  simp only [isReadable, isReadableArgs, isInfix, operator?, hop, if_true, Bool.and_eq_true] at ht
  obtain ⟨⟨⟨hname, _⟩, ha, hb, _⟩, hsign⟩ := ht
  simp at hsign
  exact ⟨hname, fun h => hsign.1 h, fun h => hsign.2.1 h, fun h => hsign.2.2 h, ha, hb⟩

theorem isWord_of_isName {name : String} (h : isName name = true) : isWord name = true := by
  simp only [isName, Bool.and_eq_true] at h
  exact h.2

/-- No colon follows the first word of a term that is read as one. -/
theorem colon?_render_tight (ht : t.isReadable kind = true) (hrest : Bounded rest)
    (hcolon : colon? rest = none) :
    colon? (dropWord ((t.render label true).toList ++ rest)) = none := by
  by_cases hcompound : t.isCompound = true
  · rw [toList_render_compound hcompound]
    rfl
  induction t using induct generalizing rest with
  | missing | hole => simp [isReadable] at ht
  | const name | lit name _ | bound name =>
    simp only [isReadable, Bool.and_eq_true] at ht
    rw [render, dropWord_append (isWord_of_isName ht.1) hrest, hcolon]
  | app fn args ihfn _ =>
    have hfn : fn.isReadable kind = true := by
      simp only [isReadable, Bool.and_eq_true] at ht
      exact ht.1.1
    rw [toList_render_app (Bool.eq_false_iff.mpr hcompound), List.append_assoc]
    by_cases hhead : fn.isCompound = true
    · rw [toList_render_compound hhead]
      rfl
    · exact ihfn hfn (bounded_cons (by decide) _) rfl hhead
  | pi params result => exact absurd rfl hcompound
  | sort u =>
    cases u with
    | unassigned n => simp [isReadable] at ht
    | level l =>
      have hdrop : dropWord ("Type".toList ++ ' ' :: (l.text.toList ++ rest)) =
          ' ' :: (l.text.toList ++ rest) := dropWord_append (by decide) (bounded_cons (by decide) _)
      have htext : ((sort (.level l)).render label true).toList ++ rest =
          "Type".toList ++ ' ' :: (l.text.toList ++ rest) := by
        simp [render, Universe.text]
      rw [htext, hdrop, colon?_word ht l.text_ne_colon hrest]
  | eq lhs rhs => exact absurd rfl hcompound
  | refl value =>
    have htext : ((refl value).render label true).toList ++ rest =
        "Refl".toList ++ '(' :: ((value.render label false).toList ++ ')' :: rest) := by
      simp [render]
    rw [htext, dropWord_append (by decide) (bounded_cons (by decide) _)]
    rfl

/-- A parameter starts with a parenthesis or a brace. -/
theorem colon?_paramText (p : Param Term) (type : String) (rest : List Char) :
    colon? (dropWord ((p.text type).toList ++ rest)) = none := by
  rw [Param.text]
  split
  · rw [String.append_assoc, String.toList_append]
    rfl
  · rw [String.append_assoc, String.toList_append]
    rfl

def closingOf (plicity : Plicity) : Char := if plicity = .explicit then ')' else '\x7d'

/-- A parameter is recognized by its colon. -/
theorem startParam?_text {p : Param Term} (hword : isWord p.name = true) (hne : p.name ≠ ":")
    (hplicity : p.plicity ≠ .unknown) (type : String) (rest : List Char) :
    startParam? ((p.text type).toList ++ rest) =
      some (p.name, p.plicity, type.toList ++ closingOf p.plicity :: rest) := by
  obtain ⟨name, paramType, plicity, fallback⟩ := p
  dsimp only at hword hne hplicity
  -- The name and the colon behind it, which all parameters have.
  have hbounded : Bounded (' ' :: ':' :: ' ' :: (type.toList ++ closingOf plicity :: rest)) :=
    bounded_cons (by decide) _
  have htake := takeWord_append hword hbounded
  have hdrop := dropWord_append hword hbounded
  have hkeyword : ∀ word : String, isWord word = true →
      startParam? ('\x7b' :: (word.toList ++ ' ' ::
      (name.toList ++ ' ' :: ':' :: ' ' :: (type.toList ++ closingOf plicity :: rest)))) =
        some (name, if word = "auto" then .auto else .default,
          type.toList ++ closingOf plicity :: rest) := by
    intro word hkey
    have hblank := bounded_cons (c := ' ') (by decide)
      (name.toList ++ ' ' :: ':' :: ' ' :: (type.toList ++ closingOf plicity :: rest))
    simp only [startParam?, dropWord_append hkey hblank, takeWord_append hkey hblank,
      colon?_word hword hne hbounded, htake, hdrop, colon?_self, Option.map_some]
  cases plicity with
  | explicit =>
    have htext : (Param.text ⟨name, paramType, .explicit, fallback⟩ type).toList ++ rest = '(' ::
        (name.toList ++ ' ' :: ':' :: ' ' :: (type.toList ++ closingOf .explicit :: rest)) := by
      simp [Param.text, Param.isImplicit, closingOf]
    simp only [htext, startParam?, htake, hdrop, colon?_self, Option.map_some]
  | implicit =>
    have htext : (Param.text ⟨name, paramType, .implicit, fallback⟩ type).toList ++ rest = '\x7b' ::
        (name.toList ++ ' ' :: ':' :: ' ' :: (type.toList ++ closingOf .implicit :: rest)) := by
      simp [Param.text, Param.isImplicit, closingOf]
    simp only [htext, startParam?, htake, hdrop, colon?_self]
  | auto =>
    have htext : (Param.text ⟨name, paramType, .auto, fallback⟩ type).toList ++ rest = '\x7b' ::
        ("auto".toList ++ ' ' :: (name.toList ++ ' ' :: ':' :: ' ' ::
          (type.toList ++ closingOf .auto :: rest))) := by
      simp [Param.text, Param.isImplicit, closingOf]
    rw [htext, hkeyword "auto" (by decide), if_pos rfl]
  | default =>
    have htext : (Param.text ⟨name, paramType, .default, fallback⟩ type).toList ++ rest = '\x7b' ::
        ("default".toList ++ ' ' :: (name.toList ++ ' ' :: ':' :: ' ' ::
          (type.toList ++ closingOf .default :: rest))) := by
      simp [Param.text, Param.isImplicit, closingOf]
    rw [htext, hkeyword "default" (by decide), if_neg (by decide)]
  | unknown => exact absurd rfl hplicity

theorem endParam?_closing (plicity : Plicity) (rest : List Char) :
    endParam? plicity (closingOf plicity :: (" -> ".toList ++ rest)) = some rest := if_pos rfl

/-- No colon follows the first word inside parentheses around a compound term. -/
theorem colon?_render_compound (ht : t.isReadable kind = true) (hcompound : t.isCompound = true)
    (rest : List Char) : colon? (dropWord ((t.render label false).toList ++ rest)) = none := by
  cases t with
  | app fn args =>
    obtain ⟨op, a, b, rfl, hop, rfl⟩ := isInfix_iff.mp hcompound
    obtain ⟨hname, _, hne, _, ha, _⟩ := operator_of_isReadable hop ht
    have htext : ((app (const op) [a, b]).render label false).toList ++ rest =
        (a.render label true).toList ++ ' ' :: (op.toList ++ ' ' ::
          ((b.render label true).toList ++ rest)) := by
      rw [render_operator a b hop]
      simp [parenthesize]
    rw [htext]
    exact colon?_render_tight ha (bounded_cons (by decide) _)
      (colon?_word (isWord_of_isName hname) hne (bounded_cons (by decide) _))
  | pi params result =>
    obtain - | ⟨p, params⟩ := params
    · simp [isReadable] at ht
    · rw [render, parenthesize, if_neg (by decide), renderParams]
      simp only [String.toList_append, List.append_assoc]
      exact colon?_paramText p _ _
  | eq lhs rhs =>
    simp only [isReadable, Bool.and_eq_true] at ht
    have htext : ((eq lhs rhs).render label false).toList ++ rest =
        (lhs.render label true).toList ++ ' ' :: ("=".toList ++ ' ' ::
          ((rhs.render label true).toList ++ rest)) := by
      simp [render, parenthesize]
    rw [htext]
    exact colon?_render_tight ht.1 (bounded_cons (by decide) _)
      (colon?_word (by decide) (by decide) (bounded_cons (by decide) _))
  | _ => simp [isCompound] at hcompound

theorem startParam?_name {name : String} (hname : isName name = true) (rest : List Char) :
    startParam? (name.toList ++ rest) = none := by
  simp only [isName, Bool.and_eq_true, bne_iff_ne] at hname
  obtain ⟨⟨⟨hne, _⟩, _⟩, hword⟩ := hname
  cases hlist : name.toList with
  | nil => exact absurd (String.toList_eq_nil_iff.mp hlist) hne
  | cons c cs =>
    have hc : isDelimiter c = false := by
      simp only [isWord, hlist, List.all_cons, Bool.and_eq_true, Bool.not_eq_true'] at hword
      exact hword.1
    rw [List.cons_append, startParam?.eq_def]
    split
    · rename_i heq
      rw [(List.cons.inj heq).1] at hc
      simp [isDelimiter] at hc
    · rename_i heq
      rw [(List.cons.inj heq).1] at hc
      simp [isDelimiter] at hc
    · rfl

/-- A term that is read as one is not taken for a parameter. -/
theorem startParam?_render_tight (ht : t.isReadable kind = true) (rest : List Char) :
    startParam? ((t.render label true).toList ++ rest) = none := by
  by_cases hcompound : t.isCompound = true
  · rw [toList_render_compound hcompound, List.cons_append, List.append_assoc, startParam?,
      colon?_render_compound ht hcompound, Option.map_none]
  induction t using induct generalizing rest with
  | missing | hole => simp [isReadable] at ht
  | const name | bound name | lit name _ =>
    simp only [isReadable, Bool.and_eq_true] at ht
    exact startParam?_name ht.1 rest
  | app fn args ihfn _ =>
    have hfn : fn.isReadable kind = true := by
      simp only [isReadable, Bool.and_eq_true] at ht
      exact ht.1.1
    rw [toList_render_app (Bool.eq_false_iff.mpr hcompound), List.append_assoc]
    by_cases hhead : fn.isCompound = true
    · rw [toList_render_compound hhead, List.cons_append, List.append_assoc, startParam?,
        colon?_render_compound hfn hhead, Option.map_none]
    · exact ihfn hfn _ hhead
  | pi params result => exact absurd rfl hcompound
  | sort u =>
    cases u with
    | unassigned n => simp [isReadable] at ht
    | level l => simp [render, Universe.text, startParam?]
  | eq lhs rhs => exact absurd rfl hcompound
  | refl value => simp [render, startParam?]

structure ReadsBack (label : HoleId → String) (t : Term) : Prop where
  tight : ∀ rest r, Bounded rest → Reads (Reader.groups · t.form rest) r →
    Reads (Reader.tight · ((t.render label true).toList ++ rest)) r
  loose : ∀ rest, Closes rest →
    Reads (Reader.loose · ((t.render label false).toList ++ rest)) (t.form, rest)

namespace ReadsBack

theorem of_simple (ht : t.isReadable kind = true) (hsimple : t.isCompound = false)
    (htight : ∀ rest r, Bounded rest → Reads (Reader.groups · t.form rest) r →
      Reads (Reader.tight · ((t.render label true).toList ++ rest)) r) : ReadsBack label t := by
  refine ⟨htight, fun rest hrest => ?_⟩
  rw [render_simple hsimple]
  exact loose_single (startParam?_render_tight ht rest)
    (htight rest _ hrest.bounded (groups_end hrest.group _)) hrest.operator

theorem of_compound (hcompound : t.isCompound = true)
    (hloose : ∀ rest, Closes rest →
      Reads (Reader.loose · ((t.render label false).toList ++ rest)) (t.form, rest)) :
    ReadsBack label t := by
  refine ⟨fun rest r _ hr => ?_, hloose⟩
  rw [toList_render_compound hcompound, List.cons_append, List.append_assoc]
  exact tight_parens (hloose _ (closes_cons (.inl rfl) rest)) hr

end ReadsBack

theorem reads_arguments {args : List Term} (hargs : ∀ a ∈ args, ReadsBack label a)
    (rest : List Char) : Reads (Reader.arguments ·
      ((", ".intercalate (renderArgs label false args)).toList ++ ')' :: rest))
      (formArgs args, rest) := by
  induction args with
  | nil => exact arguments_nil
  | cons a args ih =>
    have ha := (hargs a (by simp)).loose
    have hrest := ih fun b hb => hargs b (by simp [hb])
    cases args with
    | nil => exact arguments_last (ha _ (closes_cons (.inl rfl) rest))
    | cons b args =>
      have htext :
          (", ".intercalate (renderArgs label false (a :: b :: args))).toList ++ ')' :: rest =
          (a.render label false).toList ++ ',' :: ' ' ::
            ((", ".intercalate (renderArgs label false (b :: args))).toList ++ ')' :: rest) := by
        simp [renderArgs, String.intercalate_cons_cons]
      rw [htext]
      exact arguments_next (ha _ (closes_cons (.inr (.inl rfl)) _)) hrest

theorem readOperator_word {op : String} (hword : isWord op = true) (hne : op ≠ "->")
    (rest : List Char) :
    Reader.operator? (' ' :: (op.toList ++ ' ' :: rest)) = some (op, rest) := by
  have hblank : Bounded (' ' :: rest) := bounded_cons (by decide) rest
  rw [Reader.operator?, takeWord_append hword hblank, dropWord_append hword hblank, if_neg hne]
  rfl

/-- Two terms with an operator between them. -/
theorem reads_operator {a b : Term} {op : String} (ha : ReadsBack label a) (hb : ReadsBack label b)
    (hreadable : a.isReadable kind = true) (hword : isWord op = true) (hne : op ≠ "->")
    (hrest : Closes rest) :
    Reads (Reader.loose · ((a.render label true).toList ++ ' ' :: (op.toList ++
      ' ' :: ((b.render label true).toList ++ rest))))
        (if op = "=" then .eq a.form b.form else .app (.word op) [a.form, b.form], rest) := by
  refine loose_operator (startParam?_render_tight hreadable _)
    (ha.tight _ _ (bounded_cons (by decide) _) (groups_end rfl _))
      (readOperator_word hword hne _) ?_
  exact hb.tight _ _ hrest.bounded (groups_end hrest.group _)

/-- Parameters in front of a result. -/
theorem reads_params {params : List (Param Term)} {result : List Char} {f : Form}
    (hnames : ∀ p ∈ params, isWord p.name = true ∧ p.name ≠ ":" ∧ p.plicity ≠ .unknown)
    (hparams : ∀ p ∈ params, ReadsBack label p.type)
    (hresult : Reads (Reader.loose · result) (f, rest)) :
    Reads (Reader.loose · ((renderParams label params).toList ++ result))
      ((formParams params).foldr Form.arrow f, rest) := by
  induction params with
  | nil => exact hresult
  | cons p params ih =>
    obtain ⟨hword, hne, hplicity⟩ := hnames p (by simp)
    have htext : (renderParams label (p :: params)).toList ++ result =
        (p.text (p.type.render label false)).toList ++
          (" -> ".toList ++ ((renderParams label params).toList ++ result)) := by
      simp [renderParams]
    rw [htext]
    refine loose_param (startParam?_text hword hne hplicity _ _)
      ((hparams p (by simp)).loose _ (closes_cons ?_ _)) (endParam?_closing p.plicity _) ?_
    · rw [closingOf]
      split
      · exact .inl rfl
      · exact .inr (.inr rfl)
    · exact ih (fun q hq => hnames q (by simp [hq])) fun q hq => hparams q (by simp [hq])

theorem foldr_arrow {params : List (Param Form)} (hparams : params ≠ []) {f : Form}
    (hf : ∀ ps r, f ≠ .pi ps r) : params.foldr Form.arrow f = .pi params f := by
  induction params with
  | nil => exact absurd rfl hparams
  | cons p params ih =>
    cases params with
    | nil =>
      cases f with
      | pi ps r => exact absurd rfl (hf ps r)
      | _ => rfl
    | cons q params =>
      rw [List.foldr_cons, ih (by simp)]
      rfl

/-- The text of a readable term is read back, whatever follows it. -/
theorem readsBack (label : HoleId → String) (ht : t.isReadable kind = true) :
    ReadsBack label t := by
  induction t using induct with
  | missing | hole => simp [isReadable] at ht
  | const name | lit name _ | bound name =>
    refine .of_simple ht rfl fun rest r hrest hr => ?_
    simp only [isReadable, Bool.and_eq_true] at ht
    exact tight_name ht.1 hrest hr
  | app fn args ihfn ihargs =>
    by_cases hinfix : isInfix fn args = true
    · obtain ⟨op, a, b, rfl, hop, rfl⟩ := isInfix_iff.mp hinfix
      obtain ⟨hname, heq, _, harrow, ha, hb⟩ := operator_of_isReadable hop ht
      refine .of_compound hinfix fun rest hrest => ?_
      have hreads := reads_operator (ihargs a (by simp) ha) (ihargs b (by simp) hb) ha
        (isWord_of_isName hname) harrow hrest
      rw [if_neg heq] at hreads
      rw [render_operator a b hop]
      simpa [parenthesize, form, formArgs] using hreads
    · rw [Bool.not_eq_true] at hinfix
      refine .of_simple ht hinfix fun rest r _ hr => ?_
      simp only [isReadable, Bool.and_eq_true, isReadableArgs_iff] at ht
      rw [toList_render_app hinfix, List.append_assoc, List.cons_append, List.append_assoc]
      refine (ihfn ht.1.1).tight _ _ (bounded_cons (by decide) _) ?_
      exact groups_next (reads_arguments (fun a ha => ihargs a ha (ht.1.2 a ha)) rest) hr
  | pi params result ihparams ihresult =>
    simp only [isReadable, Bool.and_eq_true, isReadableParams_iff] at ht
    obtain ⟨⟨⟨hne, hparams⟩, hresult⟩, hflat⟩ := ht
    refine .of_compound rfl fun rest hrest => ?_
    have hreads := reads_params (fun p hp => ⟨(hparams p hp).1, (hparams p hp).2.1,
      (hparams p hp).2.2.1⟩) (fun p hp => ihparams p hp (hparams p hp).2.2.2)
      ((ihresult hresult).loose rest hrest)
    have hsome : formParams params ≠ [] := by
      rw [formParams_eq_map]
      simpa using hne
    have hresultForm : ∀ ps r, result.form ≠ .pi ps r := by
      intro ps r
      cases result with
      | pi => simp [isPi] at hflat
      | _ => simp [form]
    rw [foldr_arrow hsome hresultForm] at hreads
    simpa [render, parenthesize, form] using hreads
  | sort u =>
    cases u with
    | unassigned n => simp [isReadable] at ht
    | level l =>
      refine .of_simple ht rfl fun rest r hrest hr => ?_
      have hreads := tight_sort ht hrest hr
      simpa [render, Universe.text] using hreads
  | eq lhs rhs ihl ihr =>
    simp only [isReadable, Bool.and_eq_true] at ht
    refine .of_compound rfl fun rest hrest => ?_
    have hword : isWord "=" = true := by decide
    have hreads := reads_operator (ihl ht.1) (ihr ht.2) ht.1 hword (by decide) hrest
    simpa [render, parenthesize, form] using hreads
  | refl value ih =>
    have hvalue := ih ht
    refine .of_simple ht rfl fun rest r _ hr => ?_
    have hreads := tight_refl (hvalue.loose _ (closes_cons (.inl rfl) rest)) hr
    simpa [render] using hreads

/-- Readable terms with the same text have the same form, also where an arrow follows the text. -/
theorem form_eq_of_text {u : Term} {kind' : String → NameKind} {label' : HoleId → String}
    {rest' : List Char} (ht : t.isReadable kind = true) (hu : u.isReadable kind' = true)
    (hrest : Closes rest) (hrest' : Closes rest')
    (htext : (t.render label false).toList ++ rest = (u.render label' false).toList ++ rest') :
    t.form = u.form := by
  have hreads := (readsBack label ht).loose rest hrest
  rw [htext] at hreads
  exact (Prod.mk.inj (hreads.unique ((readsBack label' hu).loose rest' hrest'))).1

end Term

end Implicits
