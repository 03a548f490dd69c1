import Mathlib.Data.List.Basic

/-!
# MIPS words and the address a pair of them builds

The fields of an instruction word, and straight-line runs on a machine of which only two
instructions are fixed: `lui` and `addiu`.  Every other word does what it likes.

* `Machine.run_pair`   a `lui` and a later `addiu` from its register leave the address they build;
* `pair_eq_iff`        which halves build a given address.
-/

namespace Mips

def opcode (w : Nat) : Nat := w >>> 26
def rs (w : Nat) : Nat := (w >>> 21) &&& 0x1F
def rt (w : Nat) : Nat := (w >>> 16) &&& 0x1F
def imm (w : Nat) : Nat := w &&& 0xFFFF

/-- a lower half as the signed number it is added as -/
def signed (lo : Nat) : Int := if lo < 0x8000 then lo else lo - 0x10000

/-- the upper half that goes with the lower half of an address -/
def upper (va : Nat) : Nat :=
  ((va >>> 16) + if 0x8000 ≤ va &&& 0xFFFF then 1 else 0) &&& 0xFFFF

/-- the address a `lui` of `hi` and an `addiu` of `lo` build -/
def pair (hi lo : Nat) : BitVec 32 := BitVec.ofNat 32 (hi <<< 16) + BitVec.ofInt 32 (signed lo)

theorem and_16 (n : Nat) : n &&& 0xFFFF = n % 0x10000 := Nat.and_two_pow_sub_one_eq_mod n 16

theorem imm_lt (w : Nat) : imm w < 0x10000 := by
  unfold imm
  rw [and_16]
  exact Nat.mod_lt _ (by omega)

/-- the lower half is fixed by its signed value, and the upper half makes up for the sign -/
theorem pair_eq_iff (hi lo va : Nat) (hh : hi < 0x10000) (hl : lo < 0x10000) :
    pair hi lo = BitVec.ofNat 32 va ↔ hi = upper va ∧ signed lo = signed (va &&& 0xFFFF) := by
  have hi' : pair hi lo = BitVec.ofInt 32 (hi * 0x10000 + signed lo) := by
    unfold pair
    rw [BitVec.ofInt_add, Nat.shiftLeft_eq, ← BitVec.ofInt_natCast]
    congr 1
  rw [hi', ← BitVec.ofInt_natCast, ← BitVec.toInt_inj, BitVec.toInt_ofInt, BitVec.toInt_ofInt,
    Int.bmod_eq_bmod_iff_bmod_sub_eq_zero, ← Int.dvd_iff_bmod_eq_zero]
  unfold upper signed
  rw [and_16, and_16, Nat.shiftRight_eq_div_pow]
  by_cases hs : 0x8000 ≤ va % 0x10000
  · rw [if_pos hs, if_neg (by omega : ¬ va % 0x10000 < 0x8000)]
    split <;> omega
  · rw [if_neg hs, if_pos (by omega : va % 0x10000 < 0x8000)]
    split <;> omega

/-! ## straight-line runs -/

abbrev Regs := Nat → BitVec 32

/-- register 0 stays as it is -/
def Regs.set (r : Regs) (k : Nat) (x : BitVec 32) : Regs :=
  fun n => if n = k ∧ k ≠ 0 then x else r n

theorem Regs.set_self (r : Regs) (k : Nat) (x : BitVec 32) (hk : k ≠ 0) : r.set k x k = x := by
  unfold Regs.set
  rw [if_pos ⟨rfl, hk⟩]

structure Machine where
  exec : Nat → Regs → Regs
  lui : ∀ w r, opcode w = 0x0F → exec w r = r.set (rt w) (BitVec.ofNat 32 (imm w <<< 16))
  addiu : ∀ w r, opcode w = 0x09 →
    exec w r = r.set (rt w) (r (rs w) + BitVec.ofInt 32 (signed (imm w)))

/-- a machine that knows the two only -/
def Machine.plain : Machine where
  exec w r :=
    if opcode w = 0x0F then r.set (rt w) (BitVec.ofNat 32 (imm w <<< 16))
    else if opcode w = 0x09 then r.set (rt w) (r (rs w) + BitVec.ofInt 32 (signed (imm w)))
    else r
  lui w r h := if_pos h
  addiu w r h := by rw [if_neg (by omega), if_pos h]

variable (m : Machine)

def Machine.run (ws : List Nat) (r : Regs) : Regs := ws.foldl (fun r w => m.exec w r) r

/-- the word leaves register `k` alone -/
def Machine.Keeps (k w : Nat) : Prop := ∀ r, m.exec w r k = r k

theorem Machine.run_keeps (k : Nat) (ws : List Nat) (h : ∀ w ∈ ws, m.Keeps k w) (r : Regs) :
    m.run ws r k = r k := by
  induction ws generalizing r with
  | nil => rfl
  | cons w ws ih =>
    show m.run ws (m.exec w r) k = r k
    rw [ih (fun x hx => h x (List.mem_cons_of_mem _ hx)), h w List.mem_cons_self]

/-- what runs between the two may do anything to the other registers -/
theorem Machine.run_pair (u v : Nat) (mid : List Nat) (hu : opcode u = 0x0F) (hv : opcode v = 0x09)
    (hr : rs v = rt u) (hu0 : rt u ≠ 0) (hv0 : rt v ≠ 0) (hmid : ∀ w ∈ mid, m.Keeps (rt u) w)
    (r : Regs) : m.run (u :: mid ++ [v]) r (rt v) = pair (imm u) (imm v) := by
  have hrun : m.run (u :: mid ++ [v]) r = m.exec v (m.run mid (m.exec u r)) := by
    unfold run
    rw [List.foldl_append]
    rfl
  rw [hrun, m.addiu v _ hv, Regs.set_self _ _ _ hv0, hr, m.run_keeps _ mid hmid, m.lui u r hu,
    Regs.set_self _ _ _ hu0]
  rfl

end Mips
