import Mathlib.Data.List.Basic
import Mathlib.Tactic.Common

/-!
# What a C compiler reads off a source text

A text is read character by character: comments are blanks, the directives `#define`, `#ifndef` and
`#endif` are obeyed, and what is left is words and single marks.

* `Scanner.step`     one character;
* `scan_append`      a text is read piece by piece;
* `number`           an integer constant;
* `arrayOf`          an array of bytes with its initializer.

Left out: literals of characters and strings, macro expansion, the other directives, a comment
within a directive, line splicing.
-/

namespace Csource

abbrev Text := List Char

inductive Token where
  | word (w : Text)
  | mark (c : Char)
  deriving DecidableEq

/-- where in the text the next character stands -/
inductive Mode where
  | code
  /-- after a `/` -/
  | slash
  | comment
  /-- after a `*` of a comment -/
  | star
  | lineComment
  | directive
  deriving DecidableEq

structure Scanner where
  mode : Mode
  /-- nothing but blanks on this line so far -/
  fresh : Bool
  /-- the word that has been read so far -/
  word : Text
  /-- the directive that has been read so far -/
  line : Text
  toks : List Token
  /-- what is defined, and as which words -/
  defs : List (Text × List Text)
  /-- for every open conditional group if it is kept -/
  groups : List Bool
  deriving DecidableEq

def Scanner.start : Scanner := ⟨.code, true, [], [], [], [], []⟩

/-- what a word is made of -/
def isWord (c : Char) : Bool := c.isAlphanum || c == '_'

def isBlank (c : Char) : Bool := c == ' ' || c == '\t' || c == '\n'

/-- the words of a line -/
def words : Text → Text → List Text
  | w, [] => if w = [] then [] else [w]
  | w, c :: cs =>
    if isBlank c then (if w = [] then words [] cs else w :: words [] cs) else words (w ++ [c]) cs

namespace Scanner
variable (s : Scanner)

def kept : Bool := s.groups.all id

/-- a token that stands in a group that is left out is not read -/
def put (t : Token) : Scanner := if s.kept then { s with toks := s.toks ++ [t] } else s

/-- the end of a word -/
def flush : Scanner := if s.word = [] then s else { s.put (.word s.word) with word := [] }

def known (name : Text) : Bool := s.defs.any fun d => d.1 == name

/-- the end of a directive -/
def obey : Scanner :=
  let s' := { s with mode := .code, fresh := true, line := [] }
  match words [] s.line with
  | d :: name :: value =>
    if d = "ifndef".toList then { s' with groups := (!s.known name) :: s.groups }
    else if d = "define".toList ∧ s.kept then { s' with defs := s.defs ++ [(name, value)] }
    else s'
  | [d] => if d = "endif".toList then { s' with groups := s.groups.tail } else s'
  | [] => s'

/-- a character of the code itself -/
def plain (c : Char) : Scanner :=
  if isWord c then { s with mode := .code, fresh := false, word := s.word ++ [c] }
  else if c = '\n' then { s.flush with mode := .code, fresh := true }
  else if isBlank c then { s.flush with mode := .code }
  else if c = '/' then { s.flush with mode := .slash }
  else if c = '#' ∧ s.fresh then { s with mode := .directive }
  else { s.flush.put (.mark c) with mode := .code, fresh := false }

def step (c : Char) : Scanner :=
  match s.mode with
  | .code => s.plain c
  | .slash =>
    if c = '*' then { s with mode := .comment }
    else if c = '/' then { s with mode := .lineComment }
    else { s.put (.mark '/') with fresh := false }.plain c
  | .comment => if c = '*' then { s with mode := .star } else s
  | .star =>
    if c = '/' then { s with mode := .code }
    else if c = '*' then s
    else { s with mode := .comment }
  | .lineComment => if c = '\n' then { s with mode := .code, fresh := true } else s
  | .directive => if c = '\n' then s.obey else { s with line := s.line ++ [c] }

def scan (t : Text) : Scanner := t.foldl step s

end Scanner

theorem scan_append (s : Scanner) (t t' : Text) : s.scan (t ++ t') = (s.scan t).scan t' :=
  List.foldl_append

theorem scan_nil (s : Scanner) : s.scan [] = s := rfl

theorem scan_cons (s : Scanner) (c : Char) (t : Text) : s.scan (c :: t) = (s.step c).scan t := rfl

/-- the scanner stands in or after a word of a group that is kept -/
structure InCode (s : Scanner) : Prop where
  mode : s.mode = .code
  kept : s.kept = true

section
variable {s : Scanner}

/-- a character of a word -/
theorem InCode.step_word (h : InCode s) {c : Char} (hc : isWord c = true) :
    s.step c = { s with fresh := false, word := s.word ++ [c] } := by
  obtain ⟨mode, fresh, word, line, toks, defs, groups⟩ := s
  obtain rfl : mode = .code := h.mode
  show Scanner.plain _ c = _
  unfold Scanner.plain
  rw [if_pos hc]

/-- a word is collected -/
theorem InCode.scan_word (h : InCode s) {w : Text} (hne : w ≠ [])
    (hw : ∀ c ∈ w, isWord c = true) :
    s.scan w = { s with fresh := false, word := s.word ++ w } := by
  induction w generalizing s with
  | nil => exact absurd rfl hne
  | cons c w ih =>
    rw [scan_cons, h.step_word (hw c List.mem_cons_self)]
    cases w with
    | nil => rfl
    | cons c' w =>
      have hin : InCode { s with fresh := false, word := s.word ++ [c] } := ⟨h.mode, h.kept⟩
      rw [ih hin (List.cons_ne_nil _ _) fun x hx => hw x (List.mem_cons_of_mem _ hx)]
      simp

theorem InCode.put (h : InCode s) (t : Token) : s.put t = { s with toks := s.toks ++ [t] } :=
  if_pos h.kept

/-- what is no character of a word ends it -/
theorem InCode.flush_word (h : InCode s) (hw : s.word ≠ []) :
    s.flush = { s with word := [], toks := s.toks ++ [.word s.word] } := by
  unfold Scanner.flush
  rw [if_neg hw, h.put]

/-- a mark after a word -/
theorem InCode.step_mark (h : InCode s) (hw : s.word ≠ []) {c : Char} (hc : isWord c = false)
    (hb : isBlank c = false) (hs : c ≠ '/') (hd : c ≠ '#') :
    s.step c
      = { s with fresh := false, word := [], toks := s.toks ++ [.word s.word, .mark c] } := by
  obtain ⟨mode, fresh, word, line, toks, defs, groups⟩ := s
  obtain rfl : mode = .code := h.mode
  have hn : c ≠ '\n' := by
    intro hn
    subst hn
    exact absurd hb (by decide)
  have hf := h.flush_word hw
  have hin : InCode (Scanner.mk .code fresh word line toks defs groups).flush := by
    rw [hf]
    exact ⟨rfl, h.kept⟩
  show Scanner.plain _ c = _
  unfold Scanner.plain
  rw [if_neg (by simp [hc]), if_neg hn, if_neg (by simp [hb]), if_neg hs,
    if_neg fun h => hd h.1, hin.put, hf, List.append_assoc]
  rfl

/-- a blank where no word stands -/
theorem InCode.step_blank (h : InCode s) (hw : s.word = []) {c : Char} (hb : isBlank c = true) :
    s.step c = { s with fresh := s.fresh || c == '\n' } := by
  obtain ⟨mode, fresh, word, line, toks, defs, groups⟩ := s
  obtain rfl : mode = .code := h.mode
  obtain rfl : word = [] := hw
  simp only [isBlank, Bool.or_eq_true, beq_iff_eq] at hb
  obtain (rfl | rfl) | rfl := hb
  · show Scanner.mk .code fresh [] line toks defs groups = _
    simp
  · show Scanner.mk .code fresh [] line toks defs groups = _
    simp
  · show Scanner.mk .code true [] line toks defs groups = _
    simp

end

/-! ## comments -/

/-- what follows a comment of which `t` is left; `star` if a `*` stands before it -/
def afterComment : Bool → Text → Option Text
  | _, [] => none
  | star, c :: t => if star && c == '/' then some t else afterComment (c == '*') t

theorem scan_inComment {s : Scanner} {star : Bool} {t rest : Text}
    (h : afterComment star t = some rest) :
    ({ s with mode := if star then .star else .comment } : Scanner).scan t
      = ({ s with mode := .code } : Scanner).scan rest := by
  induction t generalizing star with
  | nil => cases h
  | cons c t ih =>
    unfold afterComment at h
    rw [scan_cons]
    by_cases hend : (star && c == '/') = true
    · rw [if_pos hend] at h
      obtain rfl : t = rest := Option.some.inj h
      simp only [Bool.and_eq_true, beq_iff_eq] at hend
      obtain ⟨rfl, rfl⟩ := hend
      rfl
    · rw [if_neg hend] at h
      rw [← ih h]
      congr 1
      cases star with
      | false => simp [Scanner.step, apply_ite (fun m => ({ s with mode := m } : Scanner))]
      | true =>
        have hc : c ≠ '/' := by simpa using hend
        simp [Scanner.step, hc, apply_ite (fun m => ({ s with mode := m } : Scanner))]

/-- **A comment is skipped.** -/
theorem InCode.scan_comment {s : Scanner} (h : InCode s) (hw : s.word = []) {t rest : Text}
    (ht : afterComment false t = some rest) : s.scan ('/' :: '*' :: t) = s.scan rest := by
  obtain ⟨mode, fresh, word, line, toks, defs, groups⟩ := s
  obtain rfl : mode = .code := h.mode
  obtain rfl : word = [] := hw
  exact scan_inComment (s := ⟨.code, fresh, [], line, toks, defs, groups⟩) ht

/-! ## what the tokens say -/

def digit (c : Char) : Option Nat :=
  if '0' ≤ c ∧ c ≤ '9' then some (c.toNat - '0'.toNat)
  else if 'a' ≤ c ∧ c ≤ 'f' then some (c.toNat - 'a'.toNat + 10)
  else if 'A' ≤ c ∧ c ≤ 'F' then some (c.toNat - 'A'.toNat + 10)
  else none

/-- digits to base `b` after `v` -/
def digits (b : Nat) : Nat → Text → Option Nat
  | v, [] => some v
  | v, c :: cs => do
    let d ← digit c
    if d < b then digits b (v * b + d) cs else none

/-- an integer constant without a suffix -/
def number : Text → Option Nat
  | '0' :: 'x' :: c :: cs => digits 16 0 (c :: cs)
  | '0' :: 'X' :: c :: cs => digits 16 0 (c :: cs)
  | '0' :: cs => digits 8 0 cs
  | c :: cs => digits 10 0 (c :: cs)
  | [] => none

/-- the elements up to the closing brace, before which a comma may stand -/
def elements : List Token → Option (List Nat × List Token)
  | .mark '\x7d' :: rest => some ([], rest)
  | .word w :: .mark ',' :: rest => do
    let v ← number w
    let (vs, rest) ← elements rest
    return (v :: vs, rest)
  | .word w :: .mark '\x7d' :: rest => do
    let v ← number w
    return ([v], rest)
  | _ => none

/-- an array of bytes: what is not given is zero, and more than its size is an error -/
def arrayOf (name : Text) : List Token → Option (List UInt8)
  | .word s :: .word c :: .word u :: .word t :: .word n :: .mark '[' :: .word size :: .mark ']' ::
      .mark '=' :: .mark '\x7b' :: rest => do
    if [s, c, u, t, n] ≠ ["static".toList, "const".toList, "unsigned".toList, "char".toList, name]
    then none
    let size ← number size
    let (vs, rest) ← elements rest
    if vs = [] ∨ size < vs.length ∨ rest ≠ [.mark ';'] then none
    return vs.map UInt8.ofNat ++ List.replicate (size - vs.length) 0
  | _ => none

end Csource
