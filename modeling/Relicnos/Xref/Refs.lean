import Mathlib.Data.List.Range
import Relicnos.Xref.Image

/-!
# What is found is what a MIPS builds

A word refers to an address when it is a `lui` of a register and the first `addiu` from that
register, no more than eleven words on and before any other `lui` of it, completes the address.

* `load_words`       the words are those of the file, at the addresses the code has them at;
* `refersIn_iff`     the inner loop as that search;
* `findRefs_eq`      the outer loop: the referring words in order, up to the limit;
* `crossRef_exact`   the string is the one the first match lies in, what is listed is the first 24
                     words that refer to it, and a machine that runs them has its address.
-/

set_option linter.unusedVariables false

namespace Xref
open Mips

/-- word `n`, and 0 past the end -/
def wordAt (w : List Nat) (n : Nat) : Nat := w.getD n 0

/-- the search for register `r` ends at this word -/
def Ends (r w : Nat) : Prop := (opcode w = 0x09 ∧ rs w = r) ∨ (opcode w = 0x0F ∧ rt w = r)

/-- words `i` and `j` build the address -/
structure Builds (w : List Nat) (va i j : Nat) : Prop where
  after : i < j
  near : j < i + 12
  inside : j < w.length
  lui : opcode (wordAt w i) = 0x0F
  addiu : opcode (wordAt w j) = 0x09
  same : rs (wordAt w j) = rt (wordAt w i)
  first : ∀ k, i < k → k < j → ¬ Ends (rt (wordAt w i)) (wordAt w k)
  address : pair (imm (wordAt w i)) (imm (wordAt w j)) = BitVec.ofNat 32 va

def Refers (w : List Nat) (va i : Nat) : Prop := ∃ j, Builds w va i j

theorem wordAt_getElem? (w : List Nat) (n : Nat) (h : n < w.length) :
    w[n]? = some (wordAt w n) := by
  unfold wordAt
  rw [List.getD_eq_getElem?_getD, List.getElem?_eq_getElem h, Option.getD_some]

theorem drop_eq_wordAt_cons (w : List Nat) (n : Nat) (h : n < w.length) :
    w.drop n = wordAt w n :: w.drop (n + 1) := by
  rw [List.drop_eq_getElem_cons h]
  have := wordAt_getElem? w n h
  rw [List.getElem?_eq_getElem h] at this
  rw [Option.some.inj this]

/-! ## the words of the file -/

/-- the word `i` of some bytes -/
def wordOf (bs : List UInt8) (i : Nat) : Nat :=
  be32 (bs.getD (4 * i) 0) (bs.getD (4 * i + 1) 0) (bs.getD (4 * i + 2) 0) (bs.getD (4 * i + 3) 0)

theorem unpackWords_some (n : Nat) (bs : List UInt8) (ws : List Nat)
    (h : unpackWords n bs = some ws) :
    bs.length = 4 * n ∧ ws.length = n ∧ ∀ i, i < n → wordAt ws i = wordOf bs i := by
  induction n, bs using unpackWords.induct generalizing ws with
  | case1 =>
    unfold unpackWords at h
    rw [← Option.some.inj h]
    exact ⟨rfl, rfl, fun i hi => absurd hi (Nat.not_lt_zero i)⟩
  | case2 n a b c d rest ih =>
    unfold unpackWords at h
    rw [Option.map_eq_some_iff] at h
    obtain ⟨us, hus, rfl⟩ := h
    obtain ⟨h1, h2, h3⟩ := ih us hus
    refine ⟨by simp only [List.length_cons]; omega, by rw [List.length_cons, h2], fun i hi => ?_⟩
    cases i with
    | zero => rfl
    | succ i => exact h3 i (by omega)
  | case3 n bs h1 h2 =>
    unfold unpackWords at h
    split at h
    · exact absurd rfl (h1 rfl)
    · exact absurd rfl (h2 _ _ _ _ _ _ rfl)
    · exact absurd h (by simp)

/-- word `i` of the text section is where `off2va` says it is -/
theorem load_words (d : List UInt8) (im : Image) (h : Image.load d = some im) :
    im.d = d ∧ im.w.length = codeWords ∧ ∀ i, i < codeWords →
      wordAt im.w i = wordOf (d.drop loadOff) i ∧ off2va (loadOff + 4 * i) = base + 4 * i := by
  unfold Image.load at h
  rw [Option.map_eq_some_iff] at h
  obtain ⟨ws, hws, rfl⟩ := h
  obtain ⟨h1, h2, h3⟩ := unpackWords_some _ _ _ hws
  refine ⟨rfl, h2, fun i hi => ⟨?_, by unfold off2va; omega⟩⟩
  have hb : ∀ k, k < codeWords * 4 →
      ((d.drop loadOff).take (codeWords * 4)).getD k 0 = (d.drop loadOff).getD k 0 := by
    intro k hk
    rw [List.getD_eq_getElem?_getD, List.getD_eq_getElem?_getD, List.getElem?_take_of_lt hk]
  show wordAt ws i = _
  rw [h3 i hi]
  unfold wordOf
  rw [hb _ (by omega), hb _ (by omega), hb _ (by omega), hb _ (by omega)]

/-! ## the inner loop -/

theorem refersIn_iff (r : Nat) (loS : Int) (ws : List Nat) :
    refersIn r loS ws = true ↔ ∃ k, k < ws.length ∧ opcode (wordAt ws k) = 0x09 ∧
      rs (wordAt ws k) = r ∧ signed (imm (wordAt ws k)) = loS ∧
      ∀ n, n < k → ¬ Ends r (wordAt ws n) := by
  induction ws with
  | nil =>
    constructor
    · intro h
      exact absurd h (by simp [refersIn])
    · intro h
      obtain ⟨k, hk, _⟩ := h
      exact absurd hk (Nat.not_lt_zero k)
  | cons x ws ih =>
    unfold refersIn
    by_cases ha : opcode x = 0x09 ∧ rs x = r
    · rw [if_pos ha, beq_iff_eq]
      constructor
      · intro h
        exact ⟨0, Nat.zero_lt_succ _, ha.1, ha.2, h, fun n hn => absurd hn (Nat.not_lt_zero n)⟩
      · intro h
        obtain ⟨k, _, _, _, hs, hn⟩ := h
        cases k with
        | zero => exact hs
        | succ k => exact absurd (Or.inl ha) (hn 0 (Nat.zero_lt_succ k))
    rw [if_neg ha]
    by_cases hl : opcode x = 0x0F ∧ rt x = r
    · rw [if_pos hl]
      constructor
      · intro h
        exact absurd h Bool.false_ne_true
      · intro h
        obtain ⟨k, _, ho, hr, _, hn⟩ := h
        cases k with
        | zero => exact absurd ⟨ho, hr⟩ ha
        | succ k => exact absurd (Or.inr hl) (hn 0 (Nat.zero_lt_succ k))
    rw [if_neg hl, ih]
    constructor
    · intro h
      obtain ⟨k, hk, ho, hr, hs, hn⟩ := h
      refine ⟨k + 1, Nat.succ_lt_succ hk, ho, hr, hs, fun n hnk => ?_⟩
      cases n with
      | zero =>
        intro he
        exact he.elim ha hl
      | succ n => exact hn n (Nat.lt_of_succ_lt_succ hnk)
    · intro h
      obtain ⟨k, hk, ho, hr, hs, hn⟩ := h
      cases k with
      | zero => exact absurd ⟨ho, hr⟩ ha
      | succ k =>
        exact ⟨k, Nat.lt_of_succ_lt_succ hk, ho, hr, hs,
          fun n hnk => hn (n + 1) (Nat.succ_lt_succ hnk)⟩

/-- what the two loops test of a word and what follows it -/
def hits (va : Nat) (ws : List Nat) : Bool :=
  decide (opcode (wordAt ws 0) = 0x0F) && decide (imm (wordAt ws 0) = upper va) &&
    refersIn (rt (wordAt ws 0)) (signed (va &&& 0xFFFF)) (ws.tail.take 11)

theorem wordAt_drop (w : List Nat) (i k : Nat) : wordAt (w.drop i) k = wordAt w (i + k) := by
  unfold wordAt
  rw [List.getD_eq_getElem?_getD, List.getD_eq_getElem?_getD, List.getElem?_drop]

theorem wordAt_take (w : List Nat) (n k : Nat) (hk : k < n) :
    wordAt (w.take n) k = wordAt w k := by
  unfold wordAt
  rw [List.getD_eq_getElem?_getD, List.getD_eq_getElem?_getD, List.getElem?_take_of_lt hk]

/-- the word `k` places into the window behind word `i` -/
theorem wordAt_window (w : List Nat) (i k : Nat) (hk : k < 11) :
    wordAt ((w.drop i).tail.take 11) k = wordAt w (i + 1 + k) := by
  rw [wordAt_take _ _ _ hk, List.tail_drop, wordAt_drop]

theorem hits_iff (w : List Nat) (va i : Nat) : hits va (w.drop i) = true ↔ Refers w va i := by
  unfold hits
  rw [Bool.and_eq_true, Bool.and_eq_true, decide_eq_true_eq, decide_eq_true_eq, refersIn_iff,
    wordAt_drop, Nat.add_zero]
  have hlen : ((w.drop i).tail.take 11).length = min 11 (w.length - (i + 1)) := by
    rw [List.length_take, List.tail_drop, List.length_drop]
  constructor
  · intro h
    obtain ⟨⟨hu, hi⟩, k, hk, ho, hr, hs, hn⟩ := h
    rw [hlen] at hk
    rw [wordAt_window w i k (by omega)] at ho hr hs
    refine ⟨i + 1 + k, by omega, by omega, by omega, hu, ho, hr, fun n h1 h2 => ?_, ?_⟩
    · have := hn (n - (i + 1)) (by omega)
      rw [wordAt_window w i _ (by omega), show i + 1 + (n - (i + 1)) = n by omega] at this
      exact this
    · exact (pair_eq_iff _ _ va (imm_lt _) (imm_lt _)).mpr ⟨hi, hs⟩
  · intro h
    obtain ⟨j, hb⟩ := h
    obtain ⟨hi, hs⟩ := (pair_eq_iff _ _ va (imm_lt _) (imm_lt _)).mp hb.address
    have h1 := hb.after
    have h2 := hb.near
    have h3 := hb.inside
    have hj : wordAt ((w.drop i).tail.take 11) (j - (i + 1)) = wordAt w j := by
      rw [wordAt_window w i _ (by omega), show i + 1 + (j - (i + 1)) = j by omega]
    refine ⟨⟨hb.lui, hi⟩, j - (i + 1), by omega, ?_, ?_, ?_, fun n hn => ?_⟩
    · rw [hj]
      exact hb.addiu
    · rw [hj]
      exact hb.same
    · rw [hj]
      exact hs
    · rw [wordAt_window w i n (by omega)]
      exact hb.first _ (by omega) (by omega)

/-! ## the outer loop -/

theorem findFrom_eq (va limit i : Nat) (ws out : List Nat) (hout : out.length < limit) :
    findFrom va limit i ws out = out ++
      (((List.range ws.length).filter fun k => hits va (ws.drop k)).take (limit - out.length)).map
        fun k => base + (i + k) * 4 := by
  induction ws generalizing i out with
  | nil => simp [findFrom]
  | cons x ws ih =>
    have hrest : ∀ o : List Nat, o.length < limit → findFrom va limit (i + 1) ws o = o ++
        ((((List.range ws.length).map Nat.succ).filter fun k => hits va ((x :: ws).drop k)).take
          (limit - o.length)).map fun k => base + (i + k) * 4 := by
      intro o ho
      rw [ih (i + 1) o ho, List.filter_map, ← List.map_take, List.map_map]
      congr 2
      funext k
      show base + (i + 1 + k) * 4 = base + (i + (k + 1)) * 4
      omega
    have h0 : hits va ((x :: ws).drop 0) = (decide (opcode x = 0x0F) && decide (imm x = upper va) &&
        refersIn (rt x) (signed (va &&& 0xFFFF)) (ws.take 11)) := rfl
    unfold findFrom
    rw [List.length_cons, List.range_succ_eq_map, List.filter_cons, h0]
    by_cases hm : opcode x ≠ 0x0F ∨ imm x ≠ upper va
    · have hf : (decide (opcode x = 0x0F) && decide (imm x = upper va)) = false := by
        rw [Bool.and_eq_false_iff, decide_eq_false_iff_not, decide_eq_false_iff_not]
        exact hm
      rw [if_pos hm, hf, Bool.false_and, if_neg Bool.false_ne_true]
      exact hrest out hout
    have ht : (decide (opcode x = 0x0F) && decide (imm x = upper va)) = true := by
      rw [Bool.and_eq_true, decide_eq_true_eq, decide_eq_true_eq]
      exact ⟨Decidable.not_not.mp (not_or.mp hm).1, Decidable.not_not.mp (not_or.mp hm).2⟩
    rw [if_neg hm, ht, Bool.true_and]
    cases hr : refersIn (rt x) (signed (va &&& 0xFFFF)) (ws.take 11) with
    | false =>
      show (if limit ≤ out.length then out else findFrom va limit (i + 1) ws out) = _
      rw [if_neg (by omega), if_neg Bool.false_ne_true]
      exact hrest out hout
    | true =>
      show (if limit ≤ (out ++ [base + i * 4]).length then out ++ [base + i * 4]
        else findFrom va limit (i + 1) ws (out ++ [base + i * 4])) = _
      have hl : (out ++ [base + i * 4]).length = out.length + 1 := List.length_append
      obtain ⟨n, hn⟩ : ∃ n, limit - out.length = n + 1 := ⟨limit - out.length - 1, by omega⟩
      rw [if_pos rfl, hn, List.take_succ_cons, List.map_cons]
      by_cases hfull : limit ≤ (out ++ [base + i * 4]).length
      · have : n = 0 := by omega
        rw [if_pos hfull, this]
        rfl
      · rw [if_neg hfull, hrest _ (by omega), hl, show limit - (out.length + 1) = n by omega,
          List.append_assoc]
        rfl

open Classical in
theorem findRefs_eq (im : Image) (va limit : Nat) (hl : 0 < limit) : im.findRefs va limit =
    (((List.range im.w.length).filter fun i => Refers im.w va i).take limit).map
      fun i => base + 4 * i := by
  unfold Image.findRefs
  rw [findFrom_eq va limit 0 im.w [] hl]
  have hf : (fun k => hits va (im.w.drop k)) = fun i => decide (Refers im.w va i) := by
    funext k
    rw [Bool.eq_iff_iff, hits_iff, decide_eq_true_eq]
  rw [hf]
  show List.map _ _ = List.map _ _
  congr 1
  funext k
  omega

/-! ## the string -/

theorem cstrStart_le (d : List UInt8) (off : Nat) : cstrStart d off ≤ off := by
  induction off with
  | zero => exact Nat.le_refl 0
  | succ off ih =>
    unfold cstrStart
    split
    · exact Nat.le_succ_of_le ih
    · exact Nat.le_refl _

theorem cstrStart_text (d : List UInt8) (off k : Nat) (h1 : cstrStart d off ≤ k) (h2 : k < off) :
    d[k]? ≠ some 0 := by
  induction off with
  | zero => exact absurd h2 (Nat.not_lt_zero k)
  | succ off ih =>
    unfold cstrStart at h1
    by_cases hz : d[off]? ≠ some 0
    · rw [if_pos hz] at h1
      by_cases hk : k = off
      · rw [hk]
        exact hz
      · exact ih h1 (by omega)
    · rw [if_neg hz] at h1
      omega

theorem cstrStart_before (d : List UInt8) (off : Nat) :
    cstrStart d off = 0 ∨ d[cstrStart d off - 1]? = some 0 := by
  induction off with
  | zero => exact Or.inl rfl
  | succ off ih =>
    unfold cstrStart
    by_cases hz : d[off]? ≠ some 0
    · rw [if_pos hz]
      exact ih
    · rw [if_neg hz]
      exact Or.inr (Decidable.not_not.mp hz)

/-- `off` is the first place the pattern stands at -/
def FirstAt (d pat : List UInt8) (off : Nat) : Prop :=
  pat <+: d.drop off ∧ ∀ k, k < off → ¬ pat <+: d.drop k

theorem find_some (d pat : List UInt8) (off : Nat) (h : find d pat = some off) :
    FirstAt d pat off := by
  unfold find at h
  rw [List.find?_range_eq_some] at h
  obtain ⟨hp, _, hn⟩ := h
  refine ⟨List.isPrefixOf_iff_prefix.mp hp, fun k hk hpre => ?_⟩
  have := hn k hk
  rw [List.isPrefixOf_iff_prefix.mpr hpre] at this
  exact absurd this (by decide)

theorem find_none (d pat : List UInt8) (h : find d pat = none) (k : Nat) : ¬ pat <+: d.drop k := by
  intro hp
  unfold find at h
  rw [List.find?_range_eq_none] at h
  have hlt : ∀ n, n < d.length + 1 → ¬ pat <+: d.drop n := by
    intro n hn hpre
    have := h n hn
    rw [List.isPrefixOf_iff_prefix.mpr hpre] at this
    exact absurd this (by decide)
  by_cases hk : k < d.length + 1
  · exact hlt k hk hp
  · apply hlt d.length (Nat.lt_succ_self _)
    rw [List.drop_of_length_le (by omega)] at hp
    rw [List.drop_length]
    exact hp

/-! ## the whole tool -/

/-- what a machine has in the register of the `addiu` after running words `i` to `j` -/
theorem Builds.run (w : List Nat) (va i j : Nat) (hb : Builds w va i j) (m : Machine)
    (hi : rt (wordAt w i) ≠ 0) (hj : rt (wordAt w j) ≠ 0)
    (hk : ∀ k, i < k → k < j → m.Keeps (rt (wordAt w i)) (wordAt w k)) (r : Regs) :
    m.run ((w.drop i).take (j + 1 - i)) r (rt (wordAt w j)) = BitVec.ofNat 32 va := by
  have h1 := hb.after
  have h3 := hb.inside
  have hlast : (w.drop (i + 1))[j - (i + 1)]? = some (wordAt w j) := by
    rw [List.getElem?_drop, show i + 1 + (j - (i + 1)) = j by omega]
    exact wordAt_getElem? w j h3
  have hsplit : (w.drop i).take (j + 1 - i) =
      wordAt w i :: (w.drop (i + 1)).take (j - (i + 1)) ++ [wordAt w j] := by
    rw [drop_eq_wordAt_cons w i (by omega), show j + 1 - i = j - (i + 1) + 1 + 1 by omega,
      List.take_succ_cons, List.take_add_one, hlast]
    rfl
  have hmid : ∀ x ∈ (w.drop (i + 1)).take (j - (i + 1)), m.Keeps (rt (wordAt w i)) x := by
    intro x hx
    obtain ⟨n, hn⟩ := List.mem_iff_getElem?.mp hx
    have hlt : n < j - (i + 1) := by
      by_contra hge
      rw [List.getElem?_take_eq_none (by omega)] at hn
      exact absurd hn (by simp)
    rw [List.getElem?_take_of_lt hlt, List.getElem?_drop,
      wordAt_getElem? w _ (by omega)] at hn
    rw [← Option.some.inj hn]
    exact hk _ (by omega) (by omega)
  rw [hsplit, m.run_pair _ _ _ hb.lui hb.addiu hb.same hi hj hmid r]
  exact hb.address

/-- the bytes of `d` from `st` to `off`, where the pattern first stands, are the front of one
NUL-delimited string, which has the address `va` -/
structure LiesIn (d pat : List UInt8) (va off st : Nat) : Prop where
  first : FirstAt d pat off
  le : st ≤ off
  address : va + loadOff = st + base
  text : ∀ k, st ≤ k → k < off → d[k]? ≠ some 0
  before : st = 0 ∨ d[st - 1]? = some 0

theorem crossRef_none (im : Image) (pat : List UInt8) :
    im.crossRef pat = none ↔ ∀ k, ¬ pat <+: im.d.drop k := by
  unfold Image.crossRef
  constructor
  · intro h
    apply find_none
    cases hf : find im.d pat with
    | none => rfl
    | some off =>
      rw [hf] at h
      exact absurd h (by simp)
  · intro h
    cases hf : find im.d pat with
    | none => rfl
    | some off => exact absurd (find_some _ _ _ hf).1 (h off)

open Classical in
theorem crossRef_some {im : Image} {pat : List UInt8} {va : Nat} {refs : List Nat}
    (h : im.crossRef pat = some (va, refs)) :
    (∃ off st, LiesIn im.d pat va off st) ∧
      refs = (((List.range im.w.length).filter fun i => Refers im.w va i).take 24).map
        (fun i => base + 4 * i) := by
  unfold Image.crossRef at h
  cases hf : find im.d pat with
  | none =>
    rw [hf] at h
    exact absurd h (by simp)
  | some off =>
    rw [hf] at h
    obtain ⟨hva, hrefs⟩ := Prod.mk.inj (Option.some.inj h)
    refine ⟨⟨off, cstrStart im.d off, find_some _ _ _ hf, cstrStart_le _ _, ?_,
      fun k h1 h2 => cstrStart_text _ _ _ h1 h2, cstrStart_before _ _⟩, ?_⟩
    · rw [← hva]
      unfold off2va loadOff base
      omega
    · rw [← hrefs, ← hva]
      exact findRefs_eq im _ 24 (by omega)

open Classical in
/-- **The cross-reference of an image.**  Its words are those of the text section, at the addresses
the code has them at.  A pattern that occurs gives the string it first lies in and the first 24
words that refer to the string; running such a word and what follows it up to its `addiu` gives the
string's address. -/
theorem crossRef_exact {d : List UInt8} {im : Image} (hload : Image.load d = some im)
    (pat : List UInt8) :
    (im.w.length = codeWords ∧ ∀ i, i < codeWords →
      wordAt im.w i = wordOf (d.drop loadOff) i ∧ off2va (loadOff + 4 * i) = base + 4 * i) ∧
    (im.crossRef pat = none ↔ ∀ k, ¬ pat <+: d.drop k) ∧
    ∀ va refs, im.crossRef pat = some (va, refs) →
      (∃ off st, LiesIn d pat va off st) ∧
      refs = (((List.range codeWords).filter fun i => Refers im.w va i).take 24).map
        (fun i => base + 4 * i) ∧
      ∀ i j, Builds im.w va i j → ∀ m : Machine, rt (wordAt im.w i) ≠ 0 →
        rt (wordAt im.w j) ≠ 0 →
        (∀ k, i < k → k < j → m.Keeps (rt (wordAt im.w i)) (wordAt im.w k)) → ∀ r : Regs,
        m.run ((im.w.drop i).take (j + 1 - i)) r (rt (wordAt im.w j)) = BitVec.ofNat 32 va := by
  obtain ⟨rfl, hlen, hwords⟩ := load_words d im hload
  refine ⟨⟨hlen, hwords⟩, crossRef_none im pat, fun va refs h => ?_⟩
  obtain ⟨hstring, hrefs⟩ := crossRef_some h
  rw [hlen] at hrefs
  exact ⟨hstring, hrefs, fun i j hb m hi hj hk r => hb.run _ _ _ _ m hi hj hk r⟩

/-! ## an image with one reference -/

section
variable (n : Nat)

/-- a string past a NUL; `lui a0` with `addiu a0, a0` for it at the front of the code, and `n`
words of zero -/
def pairFile : List UInt8 :=
  [0, 104, 105] ++ (List.replicate 93 0 ++ ([0x3C, 0x04, 0x40, 0x01, 0x24, 0x84, 0xEF, 0xA1] ++
    List.replicate (4 * n) 0))

def pairImage : Image := ⟨pairFile n, 0x3C044001 :: 0x2484EFA1 :: List.replicate n 0⟩

theorem unpackWords_zeros :
    unpackWords n (List.replicate (4 * n) 0) = some (List.replicate n 0) := by
  induction n with
  | zero => rfl
  | succ n ih =>
    show (unpackWords n (List.replicate (4 * n) 0)).map _ = _
    rw [ih]
    rfl

theorem pairFile_loads (hn : codeWords = n + 2) :
    Image.load (pairFile n) = some (pairImage n) := by
  have hdrop : (pairFile n).drop loadOff = [0x3C, 0x04, 0x40, 0x01, 0x24, 0x84, 0xEF, 0xA1] ++
      List.replicate (4 * n) 0 := by
    unfold pairFile
    rw [← List.append_assoc]
    exact List.drop_left' rfl
  have htake : ([0x3C, 0x04, 0x40, 0x01, 0x24, 0x84, 0xEF, 0xA1] ++
      List.replicate (4 * n) (0 : UInt8)).length ≤ (n + 2) * 4 := by
    rw [List.length_append, List.length_replicate]
    show 8 + 4 * n ≤ _
    omega
  unfold Image.load
  rw [hdrop, hn, List.take_of_length_le htake]
  show (((unpackWords n (List.replicate (4 * n) 0)).map _).map _).map _ = _
  rw [unpackWords_zeros]
  rfl

/-- no word of zeros is a `lui` -/
theorem findFrom_zeros (va limit i : Nat) (out : List Nat) :
    findFrom va limit i (List.replicate n 0) out = out := by
  induction n generalizing i with
  | zero => rfl
  | succ n ih =>
    rw [List.replicate_succ, findFrom, if_pos (Or.inl (by decide)), ih]

theorem pairImage_refs : (pairImage n).findRefs 0x4000EFA1 24 = [0x4000f000] := by
  have hin : refersIn (rt 0x3C044001) (signed (0x4000EFA1 &&& 0xFFFF))
      ((0x2484EFA1 :: List.replicate n 0).take 11) = true := by
    rw [List.take_succ_cons, refersIn, if_pos (by decide)]
    decide
  show findFrom 0x4000EFA1 24 0 (0x3C044001 :: 0x2484EFA1 :: List.replicate n 0) [] = _
  rw [findFrom, if_neg (by decide)]
  dsimp only
  rw [hin, if_pos rfl, if_neg (by decide), findFrom, if_pos (by decide), findFrom_zeros]
  decide

theorem pairImage_found :
    (pairImage n).crossRef [105] = some (0x4000EFA1, [0x4000f000]) := by
  have hfind : find (pairFile n) [105] = some 2 := by
    unfold find
    rw [List.find?_range_eq_some]
    refine ⟨rfl, ?_, ?_⟩
    · rw [List.mem_range]
      unfold pairFile
      rw [List.length_append]
      show 2 < 3 + _ + 1
      omega
    · intro k hk
      obtain rfl | rfl : k = 0 ∨ k = 1 := by omega
      · rfl
      · rfl
  have hstart : cstrStart (pairFile n) 2 = 1 := by
    have h1 : (pairFile n)[1]? = some 104 := rfl
    have h0 : (pairFile n)[0]? = some 0 := rfl
    rw [cstrStart, h1, if_pos (by decide), cstrStart, h0, if_neg (by decide)]
  have hva : off2va 1 = 0x4000EFA1 := by decide
  unfold Image.crossRef
  show (find (pairFile n) [105]).bind (fun off => some (off2va (cstrStart (pairFile n) off),
    (pairImage n).findRefs (off2va (cstrStart (pairFile n) off)) 24)) = _
  rw [hfind, Option.bind_some, hstart, hva, pairImage_refs]

end

open Classical in
/-- the code that refers to the string, and what it leaves in register 4 -/
theorem crossRef_exact_pair : ∃ n im off st, Image.load (pairFile n) = some im ∧
    LiesIn (pairFile n) [105] 0x4000EFA1 off st ∧
    [0x4000f000] = (((List.range codeWords).filter fun i =>
      Refers im.w 0x4000EFA1 i).take 24).map (fun i => base + 4 * i) ∧
    ∀ r, Machine.plain.run [0x3C044001, 0x2484EFA1] r 4 = 0x4000EFA1 := by
  obtain ⟨n, hn⟩ : ∃ n, codeWords = n + 2 := ⟨codeWords - 2, by decide⟩
  have hload := pairFile_loads n hn
  obtain ⟨_, _, hsome⟩ := crossRef_exact hload [105]
  obtain ⟨⟨off, st, hlies⟩, hrefs, hrun⟩ := hsome _ _ (pairImage_found n)
  have hlui : wordAt (pairImage n).w 0 = 0x3C044001 := rfl
  have haddiu : wordAt (pairImage n).w 1 = 0x2484EFA1 := rfl
  have hb : Builds (pairImage n).w 0x4000EFA1 0 1 := by
    refine ⟨by omega, by omega, ?_, ?_, ?_, ?_, fun k h1 h2 => by omega, ?_⟩
    · show 1 < _ + 1 + 1
      omega
    · rw [hlui]
      decide
    · rw [haddiu]
      decide
    · rw [hlui, haddiu]
      decide
    · rw [hlui, haddiu]
      decide
  refine ⟨n, _, off, st, hload, hlies, hrefs, fun r => ?_⟩
  have hr := hrun 0 1 hb .plain (by rw [hlui]; decide) (by rw [haddiu]; decide)
    (fun k h1 h2 => by omega) r
  rw [haddiu] at hr
  exact hr

end Xref
