import Relicnos.Csource.Text
import Relicnos.Loader.Agree

/-!
# The header the driver is compiled with

`gen_ucode_header.py` writes the microcode out as the initializer of a C array.  Reading it back is
the compiler's part (`Csource`).

* `genUcodeHeader`      the text that is written;
* `includeHeader`       the array and the instruction count the driver is compiled with;
* `header_reads_back`   they are the bytes the text was made from.
-/

set_option linter.unusedVariables false

namespace Loader
open Csource
open Nm32a (Ucode)

/-! ## the generator -/

def hexDigit (n : Nat) : Char := "0123456789abcdef".toList.getD n '0'

/-- `f'0x{b:02x}'` -/
def hexByte (b : UInt8) : Text := ['0', 'x', hexDigit (b.toNat / 16), hexDigit (b.toNat % 16)]

/-- `', '.join(…)` -/
def joined : List Text → Text
  | [] => []
  | [t] => t
  | t :: ts => t ++ ", ".toList ++ joined ts

def row (bs : List UInt8) : Text := '\t' :: joined (bs.map hexByte) ++ ",\n".toList

/-- the rows of twelve: `d[i:i+12]` for `i` in `range(0, len(d), 12)` -/
def rows (d : List UInt8) : List Text :=
  (List.range ((d.length + 11) / 12)).map fun k => row ((d.drop (12 * k)).take 12)

def licence : Text := "/* SPDX-License-Identifier: GPL-2.0 */\n".toList

def notice : Text :=
  "/*\n * CD2481 microcode, generated by tools/gen_ucode_header.py.\n".toList ++
  " *\n * NOT redistributable: this is Cisco firmware extracted from an IOS image.\n".toList ++
  " * Regenerate it locally, do not commit it.\n */\n".toList

/-- the guard, the count, and the head of the declaration -/
def declaration (n : Nat) : Text :=
  "#ifndef _CD2481_UCODE_H\n#define _CD2481_UCODE_H\n\n".toList ++
  "#define CD2481_UCODE_INSNS\t8192\n\n".toList ++
  "static const unsigned char cd2481_ucode[".toList ++ (toString n).toList ++
  "] = \x7b\n".toList

def ending : Text := "\x7d;\n\n#endif\n".toList

/-- what is written, or the length that is refused -/
def genUcodeHeader (d : List UInt8) : Except Nat Text :=
  if d.length ≠ 18432 then throw d.length
  else return licence ++ notice ++ declaration d.length ++ (rows d).flatten ++ ending

/-! ## the compiler -/

/-- what the driver uses of the header -/
def includeHeader (t : Text) : Option Ucode := do
  let s := Scanner.start.scan t
  if s.mode ≠ .code ∨ s.word ≠ [] ∨ s.groups ≠ [] then none
  let bytes ← arrayOf "cd2481_ucode".toList s.toks
  match s.defs.lookup "CD2481_UCODE_INSNS".toList with
  | some [insns] => return ⟨bytes, ← number insns⟩
  | _ => none

/-! ## the text is read back -/

theorem isWord_hexDigit : ∀ n < 16, isWord (hexDigit n) = true := by decide

theorem digit_hexDigit : ∀ n < 16, digit (hexDigit n) = some n := by decide

/-- **A byte is the constant it is written as.** -/
theorem number_hexByte (b : UInt8) : number (hexByte b) = some b.toNat := by
  have hb := b.toNat_lt
  have hhi : b.toNat / 16 < 16 := by omega
  have hlo : b.toNat % 16 < 16 := by omega
  show digits 16 0 [hexDigit (b.toNat / 16), hexDigit (b.toNat % 16)] = _
  simp only [digits, digit_hexDigit _ hhi, digit_hexDigit _ hlo, Option.bind_eq_bind,
    Option.bind_some, if_pos hhi, if_pos hlo]
  congr 1
  omega

/-- what ends the declaration -/
def closing : List Token := [.mark '\x7d', .mark ';']

/-- the tokens of a byte and the comma after it -/
def byteToks (b : UInt8) : List Token := [.word (hexByte b), .mark ',']

theorem isWord_hexByte (b : UInt8) : ∀ c ∈ hexByte b, isWord c = true := by
  have hb := b.toNat_lt
  have hhi := isWord_hexDigit (b.toNat / 16) (by omega)
  have hlo := isWord_hexDigit (b.toNat % 16) (by omega)
  unfold hexByte
  simp only [List.mem_cons, List.not_mem_nil, or_false]
  rintro c (rfl | rfl | rfl | rfl)
  · decide
  · decide
  · exact hhi
  · exact hlo

section
variable {s : Scanner}

/-- **A byte and its comma are two tokens.** -/
theorem scan_byte (h : InCode s) (hw : s.word = []) (b : UInt8) : (s.scan (hexByte b)).step ','
    = { s with fresh := false, toks := s.toks ++ byteToks b } := by
  have hne : hexByte b ≠ [] := List.cons_ne_nil _ _
  rw [h.scan_word hne (isWord_hexByte b), hw]
  have hin : InCode { s with fresh := false, word := [] ++ hexByte b } := ⟨h.mode, h.kept⟩
  rw [hin.step_mark (List.cons_ne_nil _ _) (by decide) (by decide) (by decide) (by decide)]
  obtain ⟨mode, fresh, word, line, toks, defs, groups⟩ := s
  obtain rfl : word = [] := hw
  rfl

/-- the bytes of a row, up to the comma after the last one -/
theorem scan_joined (h : InCode s) (hw : s.word = []) (b : UInt8) (bs : List UInt8) :
    (s.scan (joined ((b :: bs).map hexByte))).step ','
      = { s with fresh := false, toks := s.toks ++ (b :: bs).flatMap byteToks } := by
  induction bs generalizing s b with
  | nil =>
    rw [List.flatMap_singleton]
    exact scan_byte h hw b
  | cons b' bs ih =>
    show (s.scan (hexByte b ++ [',', ' '] ++ joined ((b' :: bs).map hexByte))).step ',' = _
    rw [scan_append, scan_append, scan_cons, scan_byte h hw b, scan_cons, scan_nil]
    have hin : InCode { s with fresh := false, toks := s.toks ++ byteToks b } := ⟨h.mode, h.kept⟩
    rw [hin.step_blank hw (by decide)]
    have hin' : InCode { s with fresh := false || ' ' == '\n', toks := s.toks ++ byteToks b } :=
      ⟨h.mode, h.kept⟩
    rw [ih hin' hw b', List.append_assoc]
    rfl

theorem scan_row (h : InCode s) (hw : s.word = []) {bs : List UInt8} (hb : bs ≠ []) :
    s.scan (row bs) = { s with fresh := true, toks := s.toks ++ bs.flatMap byteToks } := by
  obtain ⟨b, bs, rfl⟩ := List.exists_cons_of_ne_nil hb
  show (s.step '\t').scan (joined ((b :: bs).map hexByte) ++ [',', '\n']) = _
  rw [h.step_blank hw (by decide)]
  have hin : InCode { s with fresh := s.fresh || '\t' == '\n' } := ⟨h.mode, h.kept⟩
  rw [scan_append, scan_cons, scan_joined hin hw b bs, scan_cons, scan_nil]
  have hin' : InCode { s with fresh := false, toks := s.toks ++ (b :: bs).flatMap byteToks } :=
    ⟨h.mode, h.kept⟩
  rw [hin'.step_blank hw (by decide)]
  rfl

/-- the first `n` rows -/
theorem scan_rows (h : InCode s) (hw : s.word = []) (hf : s.fresh = true) (d : List UInt8) {n : Nat}
    (hn : n ≤ (d.length + 11) / 12) :
    s.scan ((List.range n).map fun k => row ((d.drop (12 * k)).take 12)).flatten
      = { s with toks := s.toks ++ (d.take (12 * n)).flatMap byteToks } := by
  induction n with
  | zero =>
    show s = { s with toks := s.toks ++ [] }
    rw [List.append_nil]
  | succ n ih =>
    have hne : (d.drop (12 * n)).take 12 ≠ [] := by
      intro he
      have hl := congrArg List.length he
      rw [List.length_take, List.length_drop, List.length_nil] at hl
      omega
    rw [List.range_succ, List.map_append, List.flatten_append, scan_append, ih (by omega)]
    have hin : InCode { s with toks := s.toks ++ (d.take (12 * n)).flatMap byteToks } :=
      ⟨h.mode, h.kept⟩
    show Scanner.scan _ (row ((d.drop (12 * n)).take 12) ++ []) = _
    rw [List.append_nil, scan_row hin hw hne, List.append_assoc, ← List.flatMap_append,
      ← List.take_add, Nat.mul_succ, hf]

end

/-- what is known when the rows begin -/
def opened : Scanner where
  mode := .code
  fresh := true
  word := []
  line := []
  toks := [.word "static".toList, .word "const".toList, .word "unsigned".toList,
    .word "char".toList, .word "cd2481_ucode".toList, .mark '[', .word "18432".toList, .mark ']',
    .mark '=', .mark '\x7b']
  defs := [("_CD2481_UCODE_H".toList, []), ("CD2481_UCODE_INSNS".toList, ["8192".toList])]
  groups := [true]

/-- a text that is one comment and the end of its line -/
theorem scan_remark {t u : Text} (ht : t = '/' :: '*' :: u)
    (hc : afterComment false u = some ['\n']) : Scanner.start.scan t = Scanner.start := by
  rw [ht, InCode.scan_comment ⟨rfl, rfl⟩ rfl hc]
  rfl

theorem scan_licence : Scanner.start.scan licence = Scanner.start := by
  have ht : licence = '/' :: '*' :: licence.drop 2 := by
    unfold licence
    rw [String.toList_ofList]
    rfl
  have hc : afterComment false (licence.drop 2) = some ['\n'] := by
    unfold licence
    rw [String.toList_ofList]
    decide
  exact scan_remark ht hc

theorem scan_notice : Scanner.start.scan notice = Scanner.start := by
  have ht : notice = '/' :: '*' :: notice.drop 2 := by
    unfold notice
    rw [String.toList_ofList, String.toList_ofList, String.toList_ofList]
    rfl
  have hc : afterComment false (notice.drop 2) = some ['\n'] := by
    unfold notice
    rw [String.toList_ofList, String.toList_ofList, String.toList_ofList]
    decide +kernel
  exact scan_remark ht hc

theorem scan_declaration : Scanner.start.scan (declaration 18432) = opened := by
  have hn : (toString 18432).toList = ['1', '8', '4', '3', '2'] := by decide
  unfold declaration opened
  rw [hn]
  iterate 4 rw [String.toList_ofList]
  decide +kernel

theorem scan_ending (ts : List Token) :
    ({ opened with toks := opened.toks ++ ts } : Scanner).scan ending
      = { opened with toks := opened.toks ++ ts ++ closing, groups := [] } := by
  have he : ending
      = ['\x7d', ';', '\n', '\n', '#', 'e', 'n', 'd', 'i', 'f', '\n'] := by decide
  have hmark : isWord '\x7d' = false ∧ isWord ';' = false ∧ isWord '\n' = false ∧
      isWord '#' = false := ⟨rfl, rfl, rfl, rfl⟩
  rw [he]
  simp [opened, closing, Scanner.scan, Scanner.step, Scanner.plain, Scanner.flush, Scanner.put,
    Scanner.kept, Scanner.obey, words, isBlank, hmark]

/-- the bytes as elements -/
theorem elements_bytes (d : List UInt8) (rest : List Token) :
    elements (d.flatMap byteToks ++ Token.mark '\x7d' :: rest)
      = some (d.map UInt8.toNat, rest) := by
  induction d with
  | nil => rfl
  | cons b d ih =>
    show ((number (hexByte b)).bind fun v =>
      (elements (d.flatMap byteToks ++ Token.mark '\x7d' :: rest)).bind fun r =>
        some (v :: r.1, r.2)) = _
    rw [number_hexByte, ih]
    rfl

theorem arrayOf_bytes {d : List UInt8} (hd : d.length = 18432) :
    arrayOf "cd2481_ucode".toList (opened.toks ++ d.flatMap byteToks ++ closing) = some d := by
  have hel := elements_bytes d [.mark ';']
  have hne : d.map UInt8.toNat ≠ [] := by
    intro he
    rw [List.map_eq_nil_iff] at he
    rw [he] at hd
    exact absurd hd (by decide)
  have hmap : (d.map UInt8.toNat).map UInt8.ofNat = d := by
    rw [List.map_map]
    conv_rhs => rw [← List.map_id d]
    apply List.map_congr_left
    intro b _
    exact UInt8.ofNat_toNat
  have hsize : number ['1', '8', '4', '3', '2'] = some 18432 := by decide
  unfold opened closing
  simp only [List.cons_append, List.nil_append, arrayOf]
  simp [hel, hsize, hne, hd, hmap]

/-- **The driver is compiled with the bytes the header was made from.** -/
theorem header_reads_back {d : List UInt8} (hd : d.length = 18432) :
    ∃ t, genUcodeHeader d = .ok t ∧ includeHeader t = some ⟨d, 8192⟩ := by
  refine ⟨_, if_neg (not_not_intro hd), ?_⟩
  have hrows : (opened.scan (rows d).flatten)
      = { opened with toks := opened.toks ++ d.flatMap byteToks } := by
    unfold rows
    rw [scan_rows ⟨rfl, rfl⟩ rfl rfl d (Nat.le_refl _), List.take_of_length_le (by omega)]
  unfold includeHeader
  rw [hd, scan_append, scan_append, scan_append, scan_append, scan_licence, scan_notice,
    scan_declaration, hrows, scan_ending]
  rw [if_neg (by simp [opened])]
  simp only [arrayOf_bytes hd]
  rfl

end Loader
