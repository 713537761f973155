import Implicits.Term.Print

/-!
A reader for the text of terms. A text tells the shape of a term and the words in it, though not
whether a word is a constant, a bound name or a literal, and it shows nested function types as one.
-/
namespace Implicits

/-- The shape of a term with the words in it. -/
inductive Form where
  | word (text : String)
  | app (fn : Form) (args : List Form)
  | pi (params : List (Param Form)) (result : Form)
  | sort (level : String)
  | eq (lhs rhs : Form)
  | refl (value : Form)

namespace Form

def arrow (p : Param Form) : Form → Form
  | pi params result => pi (p :: params) result
  | result => pi [p] result

end Form

def isDelimiter (c : Char) : Bool := [' ', '(', ')', '\x7b', '\x7d', ','].contains c

def isWord (s : String) : Bool := s.toList.all fun c => !isDelimiter c

def takeWord (cs : List Char) : String := String.ofList (cs.takeWhile fun c => !isDelimiter c)

def dropWord (cs : List Char) : List Char := cs.dropWhile fun c => !isDelimiter c

namespace Reader

def colon? : List Char → Option (List Char)
  | ' ' :: ':' :: ' ' :: cs => some cs
  | _ => none

def startParam? : List Char → Option (String × Plicity × List Char)
  | '(' :: cs => (colon? (dropWord cs)).map fun rest => (takeWord cs, .explicit, rest)
  | '\x7b' :: cs =>
    match colon? (dropWord cs) with
    | some rest => some (takeWord cs, .implicit, rest)
    | none =>
      match dropWord cs with
      | ' ' :: cs' => (colon? (dropWord cs')).map fun rest =>
        (takeWord cs', if takeWord cs = "auto" then .auto else .default, rest)
      | _ => none
  | _ => none

def endParam? (plicity : Plicity) : List Char → Option (List Char)
  | c :: ' ' :: '-' :: '>' :: ' ' :: cs =>
    if c = (if plicity = .explicit then ')' else '\x7d') then some cs else none
  | _ => none

def operator? : List Char → Option (String × List Char)
  | ' ' :: cs =>
    if takeWord cs = "->" then none
    else
      match dropWord cs with
      | ' ' :: rest => some (takeWord cs, rest)
      | _ => none
  | _ => none

def skip? (c : Char) : List Char → Option (List Char)
  | d :: cs => if d = c then some cs else none
  | [] => none

mutual

def tight : Nat → List Char → Option (Form × List Char)
  | 0, _ => none
  | n + 1, cs =>
    if takeWord cs = "" then do
      let cs ← skip? '(' cs
      let (t, cs) ← loose n cs
      let cs ← skip? ')' cs
      groups n t cs
    else if takeWord cs = "Type" then do
      let cs ← skip? ' ' (dropWord cs)
      groups n (.sort (takeWord cs)) (dropWord cs)
    else if takeWord cs = "Refl" then do
      let cs ← skip? '(' (dropWord cs)
      let (t, cs) ← loose n cs
      let cs ← skip? ')' cs
      groups n (.refl t) cs
    else groups n (.word (takeWord cs)) (dropWord cs)

def groups : Nat → Form → List Char → Option (Form × List Char)
  | 0, _, _ => none
  | n + 1, f, cs =>
    match skip? '(' cs with
    | none => some (f, cs)
    | some cs => do
      let (args, cs) ← arguments n cs
      groups n (.app f args) cs

def arguments : Nat → List Char → Option (List Form × List Char)
  | 0, _ => none
  | n + 1, cs =>
    match loose n cs with
    | none => (skip? ')' cs).map fun cs => ([], cs)
    | some (t, cs) =>
      match skip? ')' cs with
      | some cs => some ([t], cs)
      | none => do
        let cs ← skip? ',' cs
        let cs ← skip? ' ' cs
        let (ts, cs) ← arguments n cs
        some (t :: ts, cs)

def loose : Nat → List Char → Option (Form × List Char)
  | 0, _ => none
  | n + 1, cs =>
    match startParam? cs with
    | some (name, plicity, cs) => do
      let (type, cs) ← loose n cs
      let cs ← endParam? plicity cs
      let (result, cs) ← loose n cs
      some (Form.arrow ⟨name, type, plicity, none⟩ result, cs)
    | none => do
      let (a, cs) ← tight n cs
      match operator? cs with
      | none => some (a, cs)
      | some (op, cs) => do
        let (b, cs) ← tight n cs
        some (if op = "=" then .eq a b else .app (.word op) [a, b], cs)

end

end Reader

def isName (s : String) : Bool := s != "" && s != "Type" && s != "Refl" && isWord s

def Bounded (cs : List Char) : Prop := ∀ c ∈ cs.head?, isDelimiter c = true

section Words

variable {s : String} {rest : List Char}

theorem takeWord_append (hs : isWord s = true) (hrest : Bounded rest) :
    takeWord (s.toList ++ rest) = s := by
  have hword : ∀ c ∈ s.toList, (!isDelimiter c) = true := by simpa [isWord] using hs
  have hend : rest.takeWhile (fun c => !isDelimiter c) = [] := by
    cases rest with
    | nil => rfl
    | cons c cs => simp [hrest c rfl]
  rw [takeWord, List.takeWhile_append_of_pos hword, hend, List.append_nil, String.ofList_toList]

theorem dropWord_append (hs : isWord s = true) (hrest : Bounded rest) :
    dropWord (s.toList ++ rest) = rest := by
  have hword : ∀ c ∈ s.toList, (!isDelimiter c) = true := by simpa [isWord] using hs
  rw [dropWord, List.dropWhile_append_of_pos hword]
  cases rest with
  | nil => rfl
  | cons c cs => simp [hrest c rfl]

end Words

/-- A reader that gives a value at every depth from some depth on. -/
def Reads {α : Type} (f : Nat → Option α) (a : α) : Prop := ∃ m, ∀ n, m ≤ n → f n = some a

namespace Reads

variable {α : Type} {f : Nat → Option α} {a b : α}

theorem of_succ (h : Reads (fun n => f (n + 1)) a) : Reads f a := by
  obtain ⟨m, hm⟩ := h
  refine ⟨m + 1, fun n hn => ?_⟩
  obtain ⟨k, rfl⟩ := Nat.exists_eq_add_of_le' hn
  exact hm (k + m) (by omega)

theorem unique (ha : Reads f a) (hb : Reads f b) : a = b := by
  obtain ⟨m, hm⟩ := ha
  obtain ⟨k, hk⟩ := hb
  have heq := (hm (max m k) (by omega)).symm.trans (hk (max m k) (by omega))
  exact Option.some.inj heq

end Reads

namespace Reader

variable {rest : List Char} {r : Form × List Char}

@[simp]
theorem skip?_self (c : Char) (cs : List Char) : skip? c (c :: cs) = some cs := if_pos rfl

/-- Where a term that stands as it is ends: no argument and no operator follows. -/
structure Closes (rest : List Char) : Prop where
  bounded : Bounded rest
  group : skip? '(' rest = none
  operator : operator? rest = none

theorem bounded_cons {c : Char} (hc : isDelimiter c = true) (cs : List Char) :
    Bounded (c :: cs) := by
  intro d hd
  rw [List.head?_cons, Option.mem_some] at hd
  exact hd ▸ hc

theorem closes_cons {c : Char} (hc : c = ')' ∨ c = ',' ∨ c = '\x7d') (cs : List Char) :
    Closes (c :: cs) := by
  rcases hc with rfl | rfl | rfl <;> exact ⟨bounded_cons (by decide) cs, rfl, rfl⟩

theorem closes_arrow (cs : List Char) : Closes (" -> ".toList ++ cs) := by
  refine ⟨bounded_cons (by decide) _, rfl, ?_⟩
  have hword : takeWord ("->".toList ++ ' ' :: cs) = "->" :=
    takeWord_append (by decide) (bounded_cons (by decide) cs)
  rw [show " -> ".toList ++ cs = ' ' :: ("->".toList ++ ' ' :: cs) from rfl,
    operator?, if_pos hword]

theorem groups_end (h : skip? '(' rest = none) (f : Form) : Reads (groups · f rest) (f, rest) := by
  refine .of_succ ⟨0, fun n _ => ?_⟩
  simp only [groups, h]

/-- A name is read as a word, with the groups that follow it. -/
theorem tight_name {name : String} (hname : isName name = true) (hrest : Bounded rest)
    (h : Reads (groups · (.word name) rest) r) : Reads (tight · (name.toList ++ rest)) r := by
  simp only [isName, Bool.and_eq_true, bne_iff_ne] at hname
  obtain ⟨⟨⟨hne, htype⟩, hrefl⟩, hword⟩ := hname
  obtain ⟨m, hm⟩ := h
  refine .of_succ ⟨m, fun n hn => ?_⟩
  simp only [tight, takeWord_append hword hrest, dropWord_append hword hrest, if_neg hne,
    if_neg htype, if_neg hrefl, hm n hn]

theorem tight_sort {level : String} (hlevel : isWord level = true) (hrest : Bounded rest)
    (h : Reads (groups · (.sort level) rest) r) :
    Reads (tight · ("Type".toList ++ ' ' :: (level.toList ++ rest))) r := by
  have hblank : Bounded (' ' :: (level.toList ++ rest)) := bounded_cons (by decide) _
  have htake := takeWord_append (s := "Type") (by decide) hblank
  have hdrop := dropWord_append (s := "Type") (by decide) hblank
  obtain ⟨m, hm⟩ := h
  refine .of_succ ⟨m, fun n hn => ?_⟩
  dsimp only
  rw [tight, htake, hdrop, if_neg (by decide), if_pos rfl, skip?_self, Option.bind_eq_bind,
    Option.bind_some, takeWord_append hlevel hrest, dropWord_append hlevel hrest]
  exact hm n hn

theorem tight_parens {cs : List Char} {f : Form}
    (hinner : Reads (loose · (cs ++ ')' :: rest)) (f, ')' :: rest))
    (h : Reads (groups · f rest) r) : Reads (tight · ('(' :: (cs ++ ')' :: rest))) r := by
  have hword : takeWord ('(' :: (cs ++ ')' :: rest)) = "" := rfl
  obtain ⟨m, hm⟩ := hinner
  obtain ⟨k, hk⟩ := h
  refine .of_succ ⟨max m k, fun n hn => ?_⟩
  simp only [tight, hword, if_true, skip?_self, Option.bind_eq_bind, Option.bind_some,
    hm n (by omega), hk n (by omega)]

theorem tight_refl {cs : List Char} {f : Form}
    (hinner : Reads (loose · (cs ++ ')' :: rest)) (f, ')' :: rest))
    (h : Reads (groups · (.refl f) rest) r) :
    Reads (tight · ("Refl".toList ++ '(' :: (cs ++ ')' :: rest))) r := by
  have hparen : Bounded ('(' :: (cs ++ ')' :: rest)) := bounded_cons (by decide) _
  have htake := takeWord_append (s := "Refl") (by decide) hparen
  have hdrop := dropWord_append (s := "Refl") (by decide) hparen
  obtain ⟨m, hm⟩ := hinner
  obtain ⟨k, hk⟩ := h
  refine .of_succ ⟨max m k, fun n hn => ?_⟩
  dsimp only
  rw [tight, htake, hdrop, if_neg (by decide), if_neg (by decide), if_pos rfl]
  simp only [skip?_self, Option.bind_eq_bind, Option.bind_some, hm n (by omega), hk n (by omega)]

theorem groups_next {cs : List Char} {f : Form} {args : List Form}
    (hargs : Reads (arguments · cs) (args, rest)) (h : Reads (groups · (.app f args) rest) r) :
    Reads (groups · f ('(' :: cs)) r := by
  obtain ⟨m, hm⟩ := hargs
  obtain ⟨k, hk⟩ := h
  refine .of_succ ⟨max m k, fun n hn => ?_⟩
  simp only [groups, skip?_self, Option.bind_eq_bind, Option.bind_some, hm n (by omega),
    hk n (by omega)]

theorem arguments_nil : Reads (arguments · (')' :: rest)) ([], rest) := by
  have htight : ∀ n, tight n (')' :: rest) = none := by
    intro n
    cases n with
    | zero => rfl
    | succ n => rfl
  have hstart : startParam? (')' :: rest) = none := rfl
  have hloose : ∀ n, loose n (')' :: rest) = none := by
    intro n
    cases n with
    | zero => rfl
    | succ n => simp only [loose, hstart, htight, Option.bind_eq_bind, Option.bind_none]
  refine .of_succ ⟨0, fun n _ => ?_⟩
  simp only [arguments, hloose, skip?_self, Option.map_some]

theorem arguments_last {cs : List Char} {f : Form} (h : Reads (loose · cs) (f, ')' :: rest)) :
    Reads (arguments · cs) ([f], rest) := by
  obtain ⟨m, hm⟩ := h
  refine .of_succ ⟨m, fun n hn => ?_⟩
  simp only [arguments, hm n hn, skip?_self]

theorem arguments_next {cs tail : List Char} {f : Form} {fs : List Form}
    (h : Reads (loose · cs) (f, ',' :: ' ' :: tail)) (htail : Reads (arguments · tail) (fs, rest)) :
    Reads (arguments · cs) (f :: fs, rest) := by
  obtain ⟨m, hm⟩ := h
  obtain ⟨k, hk⟩ := htail
  have hcomma : skip? ')' (',' :: ' ' :: tail) = none := rfl
  refine .of_succ ⟨max m k, fun n hn => ?_⟩
  simp only [arguments, Option.bind_eq_bind, Option.bind_some, hm n (by omega), hcomma,
    skip?_self, hk n (by omega)]

theorem loose_single {cs : List Char} {f : Form} (hstart : startParam? cs = none)
    (h : Reads (tight · cs) (f, rest)) (hend : operator? rest = none) :
    Reads (loose · cs) (f, rest) := by
  obtain ⟨m, hm⟩ := h
  refine .of_succ ⟨m, fun n hn => ?_⟩
  simp only [loose, hstart, Option.bind_eq_bind, Option.bind_some, hm n hn, hend]

theorem loose_operator {cs mid tail : List Char} {op : String} {f g : Form}
    (hstart : startParam? cs = none) (hf : Reads (tight · cs) (f, mid))
    (hmid : operator? mid = some (op, tail)) (hg : Reads (tight · tail) (g, rest)) :
    Reads (loose · cs) (if op = "=" then .eq f g else .app (.word op) [f, g], rest) := by
  obtain ⟨m, hm⟩ := hf
  obtain ⟨k, hk⟩ := hg
  refine .of_succ ⟨max m k, fun n hn => ?_⟩
  simp only [loose, hstart, Option.bind_eq_bind, Option.bind_some, hm n (by omega), hmid,
    hk n (by omega)]

theorem loose_param {cs cs₁ cs₂ cs₃ : List Char} {name : String} {plicity : Plicity}
    {type result : Form} (hstart : startParam? cs = some (name, plicity, cs₁))
    (htype : Reads (loose · cs₁) (type, cs₂)) (hend : endParam? plicity cs₂ = some cs₃)
    (hresult : Reads (loose · cs₃) (result, rest)) :
    Reads (loose · cs) (Form.arrow ⟨name, type, plicity, none⟩ result, rest) := by
  obtain ⟨m, hm⟩ := htype
  obtain ⟨k, hk⟩ := hresult
  refine .of_succ ⟨max m k, fun n hn => ?_⟩
  simp only [loose, hstart, Option.bind_eq_bind, Option.bind_some, hm n (by omega), hend,
    hk n (by omega)]

end Reader

end Implicits
