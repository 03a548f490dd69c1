import Mathlib.Tactic.Basic

/-!
# The byte lanes of a 32-bit word

* `lane`, `ofLanes`   the bytes of a word, the lowest first, and the word of four bytes;
* `ext_lanes`         a word is its four lanes;
* `swab32`            the byte swap, which turns the lanes round;
* `lane_extract`, `lane_insert`   the lanes of a field of whole lanes that is read out of a word,
  and of a word that one was written into.
-/

set_option linter.unusedVariables false

namespace Interact

/-- byte `k` of a word -/
def lane (w : UInt32) (k : Nat) : UInt8 := ⟨w.toBitVec.extractLsb' (8 * k) 8⟩

/-- the word of the bytes `f 0` (the lowest) to `f 3` -/
def ofLanes (f : Nat → UInt8) : UInt32 :=
  ⟨(f 3).toBitVec ++ (f 2).toBitVec ++ (f 1).toBitVec ++ (f 0).toBitVec⟩

def swab32 (x : UInt32) : UInt32 :=
  (x &&& 0x000000ff) <<< 24 ||| (x &&& 0x0000ff00) <<< 8 |||
    (x &&& 0x00ff0000) >>> 8 ||| (x &&& 0xff000000) >>> 24

theorem lane_bit (w : UInt32) (k i : Nat) (hi : i < 8) :
    (lane w k).toBitVec.getLsbD i = w.toBitVec.getLsbD (8 * k + i) := by
  show (w.toBitVec.extractLsb' (8 * k) 8).getLsbD i = _
  rw [BitVec.getLsbD_extractLsb', decide_eq_true hi, Bool.true_and]

theorem byte_ext {a b : UInt8} (h : ∀ i < 8, a.toBitVec.getLsbD i = b.toBitVec.getLsbD i) :
    a = b :=
  UInt8.toBitVec_inj.mp (BitVec.eq_of_getLsbD_eq fun i hi => h i hi)

theorem ext_lanes {w w' : UInt32} (h : ∀ k < 4, lane w k = lane w' k) : w = w' := by
  apply UInt32.toBitVec_inj.mp
  apply BitVec.eq_of_getLsbD_eq
  intro n hn
  have hmod : n % 8 < 8 := Nat.mod_lt n (by decide)
  have hk := congrArg (fun b : UInt8 => b.toBitVec.getLsbD (n % 8)) (h (n / 8) (by omega))
  simp only [lane_bit _ _ _ hmod] at hk
  rwa [Nat.div_add_mod] at hk

theorem append_low {m : Nat} (x : BitVec m) (y : BitVec 8) {i : Nat} (hi : i < 8) :
    (x ++ y).getLsbD i = y.getLsbD i := by
  rw [BitVec.getLsbD_append, if_pos hi]

theorem append_high {m : Nat} (x : BitVec m) (y : BitVec 8) (n : Nat) :
    (x ++ y).getLsbD (8 + n) = x.getLsbD n := by
  rw [BitVec.getLsbD_append, if_neg (by omega), Nat.add_sub_cancel_left]

theorem lane_ofLanes (f : Nat → UInt8) {k : Nat} (hk : k < 4) : lane (ofLanes f) k = f k := by
  apply byte_ext
  intro i hi
  rw [lane_bit _ _ _ hi]
  show ((f 3).toBitVec ++ (f 2).toBitVec ++ (f 1).toBitVec ++ (f 0).toBitVec).getLsbD (8 * k + i)
    = _
  match k, hk with
  | 0, _ =>
    rw [Nat.mul_zero, Nat.zero_add]
    exact append_low _ _ hi
  | 1, _ => exact (append_high _ _ i).trans (append_low _ _ hi)
  | 2, _ =>
    rw [show 8 * 2 + i = 8 + (8 + i) by omega]
    exact ((append_high _ _ _).trans (append_high _ _ i)).trans (append_low _ _ hi)
  | 3, _ =>
    rw [show 8 * 3 + i = 8 + (8 + (8 + i)) by omega]
    exact (((append_high _ _ _).trans (append_high _ _ _)).trans (append_high _ _ i))

theorem ofLanes_congr {f g : Nat → UInt8} (h : ∀ k < 4, f k = g k) : ofLanes f = ofLanes g := by
  apply ext_lanes
  intro k hk
  rw [lane_ofLanes f hk, lane_ofLanes g hk, h k hk]

@[simp] theorem lane_or (a b : UInt32) (k : Nat) : lane (a ||| b) k = lane a k ||| lane b k := by
  apply byte_ext
  intro i hi
  rw [UInt8.toBitVec_or, BitVec.getLsbD_or]
  simp only [lane_bit _ _ _ hi, UInt32.toBitVec_or, BitVec.getLsbD_or]

@[simp] theorem lane_and (a b : UInt32) (k : Nat) :
    lane (a &&& b) k = lane a k &&& lane b k := by
  apply byte_ext
  intro i hi
  rw [UInt8.toBitVec_and, BitVec.getLsbD_and]
  simp only [lane_bit _ _ _ hi, UInt32.toBitVec_and, BitVec.getLsbD_and]

theorem lane_not (a : UInt32) {k : Nat} (hk : k < 4) : lane (~~~a) k = ~~~lane a k := by
  apply byte_ext
  intro i hi
  rw [UInt8.toBitVec_not, BitVec.getLsbD_not, lane_bit _ _ _ hi, lane_bit _ _ _ hi,
    UInt32.toBitVec_not, BitVec.getLsbD_not, decide_eq_true hi,
    decide_eq_true (show 8 * k + i < 32 by omega)]

section
variable {s : UInt32} {q : Nat}

theorem shift_amount (hs : s.toNat = 8 * q) (hq : q < 4) : (s.toBitVec % 32).toNat = 8 * q := by
  rw [BitVec.toNat_umod]
  show s.toNat % 32 = 8 * q
  omega

theorem lane_shiftLeft (x : UInt32) (hs : s.toNat = 8 * q) (hq : q < 4) {k : Nat} (hk : k < 4) :
    lane (x <<< s) k = if k < q then 0 else lane x (k - q) := by
  apply byte_ext
  intro i hi
  rw [lane_bit _ _ _ hi, UInt32.toBitVec_shiftLeft, BitVec.shiftLeft_eq', shift_amount hs hq,
    BitVec.getLsbD_shiftLeft, decide_eq_true (show 8 * k + i < 32 by omega), Bool.true_and]
  by_cases hlt : k < q
  · rw [if_pos hlt, decide_eq_true (show 8 * k + i < 8 * q by omega)]
    simp
  · rw [if_neg hlt, lane_bit _ _ _ hi, decide_eq_false (show ¬ 8 * k + i < 8 * q by omega),
      show 8 * k + i - 8 * q = 8 * (k - q) + i by omega]
    rfl

theorem lane_shiftRight (x : UInt32) (hs : s.toNat = 8 * q) (hq : q < 4) (k : Nat) :
    lane (x >>> s) k = lane x (q + k) := by
  apply byte_ext
  intro i hi
  rw [lane_bit _ _ _ hi, lane_bit _ _ _ hi, UInt32.toBitVec_shiftRight, BitVec.ushiftRight_eq',
    shift_amount hs hq, BitVec.getLsbD_ushiftRight, Nat.mul_add, Nat.add_assoc]

end

theorem lane_high (w : UInt32) {k : Nat} (hk : 4 ≤ k) : lane w k = 0 := by
  apply byte_ext
  intro i hi
  rw [lane_bit _ _ _ hi, BitVec.getLsbD_of_ge _ _ (by omega)]
  simp

theorem lane_ff : ∀ k < 4, lane 0xff k = if k < 1 then 0xff else 0 := by decide

theorem lane_ffff : ∀ k < 4, lane 0xffff k = if k < 2 then 0xff else 0 := by decide

theorem and_ff (b : UInt8) : b &&& 0xff = b := by
  show b &&& -1 = b
  exact UInt8.and_neg_one

/-- **The swap turns the lanes round.** -/
theorem lane_swab32 (x : UInt32) {k : Nat} (hk : k < 4) : lane (swab32 x) k = lane x (3 - k) := by
  have h0 : ∀ k < 4, lane 0x000000ff k = if k = 0 then 0xff else 0 := by decide
  have h1 : ∀ k < 4, lane 0x0000ff00 k = if k = 1 then 0xff else 0 := by decide
  have h2 : ∀ k < 4, lane 0x00ff0000 k = if k = 2 then 0xff else 0 := by decide
  have h3 : ∀ k < 4, lane 0xff000000 k = if k = 3 then 0xff else 0 := by decide
  unfold swab32
  rw [lane_or, lane_or, lane_or, lane_shiftLeft _ (q := 3) rfl (by decide) hk,
    lane_shiftLeft _ (q := 1) rfl (by decide) hk, lane_shiftRight _ (q := 1) rfl (by decide),
    lane_shiftRight _ (q := 3) rfl (by decide)]
  match k, hk with
  | 0, _ => simp [h2, h3, and_ff]
  | 1, _ => simp [h1, h2, lane_high, and_ff]
  | 2, _ => simp [h1, h2, lane_high, and_ff]
  | 3, _ => simp [h0, h1, lane_high, and_ff]

theorem swab32_swab32 (x : UInt32) : swab32 (swab32 x) = x := by
  apply ext_lanes
  intro k hk
  rw [lane_swab32 _ hk, lane_swab32 _ (by omega), show 3 - (3 - k) = k by omega]

/-- the lanes of a field that is read out of a word -/
theorem lane_extract {s m : UInt32} {q n : Nat} (w : UInt32) (hs : s.toNat = 8 * q) (hq : q < 4)
    (hm : ∀ k < 4, lane m k = if k < n then 0xff else 0) {k : Nat} (hk : k < 4) :
    lane ((w >>> s) &&& m) k = if k < n then lane w (q + k) else 0 := by
  rw [lane_and, lane_shiftRight _ hs hq, hm k hk]
  by_cases hn : k < n
  · rw [if_pos hn, if_pos hn, and_ff]
  · rw [if_neg hn, if_neg hn, UInt8.and_zero]

/-- **The lanes of a field that is written into a word**: `n` lanes from lane `q` on are the lowest
lanes of `v`. -/
theorem lane_insert {s m : UInt32} {q n : Nat} (w v : UInt32) (hs : s.toNat = 8 * q) (hq : q < 4)
    (hm : ∀ k < 4, lane m k = if k < n then 0xff else 0) {k : Nat} (hk : k < 4) :
    lane ((w &&& ~~~(m <<< s)) ||| ((v &&& m) <<< s)) k
      = if q ≤ k ∧ k < q + n then lane v (k - q) else lane w k := by
  rw [lane_or, lane_and, lane_not _ hk, lane_shiftLeft _ hs hq hk, lane_shiftLeft _ hs hq hk,
    lane_and]
  by_cases hlt : k < q
  · rw [if_pos hlt, if_pos hlt, if_neg (by omega)]
    simp
  · rw [if_neg hlt, if_neg hlt, hm _ (by omega)]
    by_cases hn : k - q < n
    · rw [if_pos hn, if_pos (by omega), and_ff, show ~~~(0xff : UInt8) = 0 by decide,
        UInt8.and_zero, UInt8.zero_or]
    · rw [if_neg hn, if_neg (by omega)]
      simp

end Interact
