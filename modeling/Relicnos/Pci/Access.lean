import Mathlib.Tactic.NormNum
import Relicnos.Pci.Bridge

/-!
# What an access does

* `decode_configWord`   the address register selects the dword that was asked for;
* `c2811PciRead_run`    a read returns bytes of the dword;
* `c2811PciWrite_run`   a write gives the dword the written bytes, and the others what they read.
-/

set_option linter.unusedVariables false

namespace Pci

open Interact

/-! ## the address word -/

theorem and_fc (x : Nat) : x &&& 0xfc = x / 4 % 64 * 4 := by
  have h : ∀ y < 256, y &&& 0xfc = y / 4 * 4 := by decide +kernel
  have hm : x &&& 0xfc = x % 256 &&& 0xfc := by
    rw [show x % 256 = x &&& 0xff from (Nat.and_two_pow_sub_one_eq_mod x 8).symm, Nat.and_assoc]
    rfl
  rw [hm, h _ (Nat.mod_lt _ (by decide))]
  omega

theorem pciSlot_toNat (devfn : UInt32) : (pciSlot devfn).toNat = devfn.toNat / 8 % 32 := by
  unfold pciSlot
  rw [UInt32.toNat_and, UInt32.toNat_shiftRight]
  show devfn.toNat >>> 3 &&& (2 ^ 5 - 1) = _
  rw [Nat.and_two_pow_sub_one_eq_mod, Nat.shiftRight_eq_div_pow]

theorem pciFunc_toNat (devfn : UInt32) : (pciFunc devfn).toNat = devfn.toNat % 8 := by
  unfold pciFunc
  rw [UInt32.toNat_and]
  exact Nat.and_two_pow_sub_one_eq_mod _ 3

/-- the fields of the address word lie beside one another -/
theorem configWord_toNat (devfn pos : UInt32) : (configWord 0 devfn pos).toNat
    = 2 ^ 31 + 2 ^ 11 * (pciSlot devfn).toNat + 2 ^ 8 * (pciFunc devfn).toNat
      + pos.toNat / 4 % 64 * 4 := by
  have hs := pciSlot_toNat devfn
  have hf := pciFunc_toNat devfn
  have hslot : (pciSlot devfn <<< 11).toNat = 2 ^ 11 * (pciSlot devfn).toNat := by
    rw [UInt32.toNat_shiftLeft]
    show (pciSlot devfn).toNat <<< 11 % 2 ^ 32 = _
    rw [Nat.shiftLeft_eq]
    omega
  have hfunc : (pciFunc devfn <<< 8).toNat = 2 ^ 8 * (pciFunc devfn).toNat := by
    rw [UInt32.toNat_shiftLeft]
    show (pciFunc devfn).toNat <<< 8 % 2 ^ 32 = _
    rw [Nat.shiftLeft_eq]
    omega
  have hpos : (pos &&& 0xfc).toNat = pos.toNat / 4 % 64 * 4 := and_fc _
  unfold configWord
  simp only [UInt32.toNat_or, hslot, hfunc, hpos]
  show 2 ^ 31 ||| 0 ||| 2 ^ 11 * _ ||| 2 ^ 8 * _ ||| _ = _
  rw [Nat.or_zero, show 2 ^ 31 = 2 ^ 16 * 2 ^ 15 by rfl,
    ← Nat.two_pow_add_eq_or_of_lt (i := 16) (by omega),
    show 2 ^ 16 * 2 ^ 15 + 2 ^ 11 * (pciSlot devfn).toNat
      = 2 ^ 11 * (2 ^ 20 + (pciSlot devfn).toNat) by omega,
    ← Nat.two_pow_add_eq_or_of_lt (i := 11) (by omega),
    show 2 ^ 11 * (2 ^ 20 + (pciSlot devfn).toNat) + 2 ^ 8 * (pciFunc devfn).toNat
      = 2 ^ 8 * (2 ^ 23 + 2 ^ 3 * (pciSlot devfn).toNat + (pciFunc devfn).toNat) by omega,
    ← Nat.two_pow_add_eq_or_of_lt (i := 8) (by omega)]

theorem enabled_configWord (devfn pos : UInt32) : enabled (configWord 0 devfn pos) = true := by
  have h := configWord_toNat devfn pos
  have hbit : (configWord 0 devfn pos).toNat.testBit 31 = true := by
    rw [Nat.testBit_eq_decide_div_mod_eq, h]
    have hs := pciSlot_toNat devfn
    have hf := pciFunc_toNat devfn
    exact decide_eq_true (by omega)
  apply bne_iff_ne.mpr
  intro h0
  have htop : (0x80000000 : UInt32).toNat.testBit 31 = true := by decide
  have hand := congrArg (fun x : UInt32 => x.toNat.testBit 31) h0
  simp only [UInt32.toNat_and, Nat.testBit_and, hbit, htop] at hand
  exact absurd hand (by decide)

/-- **The address register selects the dword of the access.** -/
theorem decode_configWord (devfn pos : UInt32) : decode (configWord 0 devfn pos)
    = ⟨0, (pciSlot devfn).toNat, (pciFunc devfn).toNat, pos.toNat / 4 % 64 * 4⟩ := by
  have h := configWord_toNat devfn pos
  have hs := pciSlot_toNat devfn
  have hf := pciFunc_toNat devfn
  have hfield : ∀ (a : UInt32) (s : UInt32) (n : Nat) (m : UInt32), s.toNat < 32 →
      m.toNat = 2 ^ n - 1 → ((a >>> s) &&& m).toNat = a.toNat / 2 ^ s.toNat % 2 ^ n := by
    intro a s n m hlt hm
    rw [UInt32.toNat_and, UInt32.toNat_shiftRight, hm, Nat.mod_eq_of_lt hlt,
      Nat.and_two_pow_sub_one_eq_mod, Nat.shiftRight_eq_div_pow]
  unfold decode
  rw [hfield _ 16 8 _ (by decide) rfl, hfield _ 11 5 _ (by decide) rfl,
    hfield _ 8 3 _ (by decide) rfl, UInt32.toNat_and, h]
  show Loc.mk (_ / 2 ^ 16 % 2 ^ 8) (_ / 2 ^ 11 % 2 ^ 5) (_ / 2 ^ 8 % 2 ^ 3) (_ &&& 0xfc) = _
  rw [and_fc]
  congr 1 <;> omega

/-! ## one specification for each access -/

/-- an access of one, two or four bytes at a multiple of its size -/
def Aligned (pos : UInt32) (size : Nat) : Prop := size ∈ [1, 2, 4] ∧ pos.toNat % size = 0

/-- a byte of the function `devfn` on bus 0 -/
def at0 (devfn : UInt32) (off : Nat) : Loc := ⟨0, (pciSlot devfn).toNat, (pciFunc devfn).toNat, off⟩

/-- with the dword of an access selected -/
def Bridge.select (b : Bridge) (devfn pos : UInt32) : Bridge :=
  { b with configAddr := configWord 0 devfn pos }

section
variable {b : Bridge} {devfn pos : UInt32} {size : Nat}

theorem dword_select : (b.select devfn pos).dword = at0 devfn (pos.toNat / 4 % 64 * 4) :=
  decode_configWord devfn pos

theorem load_select : (b.select devfn pos).load pci1ConfigData
    = ofLanes fun k => (b.space (at0 devfn (pos.toNat / 4 % 64 * 4 + k))).val := by
  show (if enabled (configWord 0 devfn pos) = true then _ else _) = _
  rw [if_pos (enabled_configWord devfn pos)]
  apply ofLanes_congr
  intro k hk
  rw [dword_select]
  rfl

theorem store_select (v : UInt32) :
    (b.select devfn pos).store pci1ConfigData v = (b.select devfn pos).cycle v := by
  show (if enabled (configWord 0 devfn pos) = true then _ else _) = _
  rw [if_pos (enabled_configWord devfn pos)]

theorem and_three (pos : UInt32) : (((pos &&& 3) <<< 3 : UInt32)).toNat = 8 * (pos.toNat % 4) := by
  rw [UInt32.toNat_shiftLeft, UInt32.toNat_and]
  show (pos.toNat &&& (2 ^ 2 - 1)) <<< 3 % 2 ^ 32 = _
  rw [Nat.and_two_pow_sub_one_eq_mod, Nat.shiftLeft_eq]
  omega

theorem and_two (pos : UInt32) (h : pos.toNat % 2 = 0) :
    (((pos &&& 2) <<< 3 : UInt32)).toNat = 8 * (pos.toNat % 4) := by
  have hm : pos.toNat &&& 2 = pos.toNat % 4 := by
    rw [show 2 = 3 &&& 2 by rfl, ← Nat.and_assoc, show (3 : Nat) = 2 ^ 2 - 1 by rfl,
      Nat.and_two_pow_sub_one_eq_mod]
    have hall : ∀ y < 4, y % 2 = 0 → y &&& 2 = y := by decide
    exact hall _ (Nat.mod_lt _ (by decide)) (by omega)
  rw [UInt32.toNat_shiftLeft, UInt32.toNat_and]
  show (pos.toNat &&& 2) <<< 3 % 2 ^ 32 = _
  rw [hm, Nat.shiftLeft_eq]
  omega

/-- the lanes of what a read shifts out of the dword -/
theorem lane_read (h : Aligned pos size) (data : UInt32) {k : Nat} (hk : k < 4) :
    lane (if size = 1 then (data >>> ((pos &&& 3) <<< 3)) &&& 0xff
      else if size = 2 then (data >>> ((pos &&& 2) <<< 3)) &&& 0xffff
      else data) k = if k < size then lane data (pos.toNat % 4 + k) else 0 := by
  obtain ⟨hsize, hpos⟩ := h
  have hq : pos.toNat % 4 < 4 := Nat.mod_lt _ (by decide)
  obtain rfl | rfl | rfl : size = 1 ∨ size = 2 ∨ size = 4 := by simpa using hsize
  · exact lane_extract data (and_three pos) hq lane_ff hk
  · exact lane_extract data (and_two pos hpos) hq lane_ffff hk
  · rw [if_pos hk, hpos, Nat.zero_add]
    rfl

/-- the lanes of the dword that a narrow write writes back -/
theorem lane_write (h : Aligned pos size) (h4 : size ≠ 4) (data val : UInt32) {k : Nat}
    (hk : k < 4) :
    lane (if size = 1 then
        (data &&& ~~~((0xff : UInt32) <<< ((pos &&& 3) <<< 3))) |||
          ((val &&& 0xff) <<< ((pos &&& 3) <<< 3))
      else
        (data &&& ~~~((0xffff : UInt32) <<< ((pos &&& 2) <<< 3))) |||
          ((val &&& 0xffff) <<< ((pos &&& 2) <<< 3))) k
      = if pos.toNat % 4 ≤ k ∧ k < pos.toNat % 4 + size then lane val (k - pos.toNat % 4)
        else lane data k := by
  obtain ⟨hsize, hpos⟩ := h
  have hq : pos.toNat % 4 < 4 := Nat.mod_lt _ (by decide)
  obtain rfl | rfl | rfl : size = 1 ∨ size = 2 ∨ size = 4 := by simpa using hsize
  · exact lane_insert data val (and_three pos) hq lane_ff hk
  · exact lane_insert data val (and_two pos hpos) hq lane_ffff hk
  · exact absurd rfl h4

theorem offset_split (pos : UInt32) :
    pos.toNat / 4 % 64 * 4 + pos.toNat % 4 = pos.toNat % 256 := by omega

/-- an access does not leave its dword -/
theorem Aligned.within (h : Aligned pos size) : pos.toNat % 4 + size ≤ 4 := by
  obtain ⟨hsize, hpos⟩ := h
  obtain rfl | rfl | rfl : size = 1 ∨ size = 2 ∨ size = 4 := by simpa using hsize
  all_goals omega

/-- **What a read returns**: the bytes of the access, and it leaves their dword selected. -/
theorem c2811PciRead_run (h : Aligned pos size) : (c2811PciRead 0 devfn pos size).run b
    = ((pcibiosSuccessful, ofLanes fun k =>
          if k < size then (b.space (at0 devfn (pos.toNat % 256 + k))).val else 0),
        b.select devfn pos) := by
  unfold c2811PciRead
  rw [run_next (c2811PciAddr_run devfn pos b rfl), if_neg (not_not_intro rfl),
    run_next (mvRead_run _ _), run_next (mvRead_run _ _)]
  show ((pcibiosSuccessful, _), b.select devfn pos) = _
  congr 2
  apply ext_lanes
  intro k hk
  rw [lane_ofLanes _ hk, lane_read h _ hk]
  show (if k < size then lane ((b.select devfn pos).load pci1ConfigData) _ else 0) = _
  have hin := h.within
  have hoff := offset_split pos
  by_cases hks : k < size
  · rw [if_pos hks, if_pos hks, load_select, lane_ofLanes _ (by omega), ← Nat.add_assoc, hoff]
  · rw [if_neg hks, if_neg hks]

/-- what a write of `val` leaves in the byte `l` of the dword -/
def Bridge.written (b : Bridge) (pos : UInt32) (size : Nat) (val : UInt32) (l : Loc) : UInt8 :=
  if pos.toNat % 256 ≤ l.off ∧ l.off < pos.toNat % 256 + size
  then lane val (l.off - pos.toNat % 256) else (b.space l).val

/-- the bridge after a write -/
def Bridge.after (b : Bridge) (devfn pos : UInt32) (size : Nat) (val : UInt32) : Bridge :=
  { b.select devfn pos with
    space := fun l =>
      if l.InDword (at0 devfn (pos.toNat / 4 % 64 * 4))
      then (b.space l).write (b.written pos size val l) else b.space l }

theorem store_after {v val : UInt32}
    (hv : ∀ l : Loc, l.InDword (at0 devfn (pos.toNat / 4 % 64 * 4)) →
      lane v (l.off - pos.toNat / 4 % 64 * 4) = b.written pos size val l) :
    (b.select devfn pos).store pci1ConfigData v = b.after devfn pos size val := by
  rw [store_select]
  unfold Bridge.cycle Bridge.after
  rw [dword_select]
  congr 1
  funext l
  by_cases hl : l.InDword (at0 devfn (pos.toNat / 4 % 64 * 4))
  · rw [if_pos hl, if_pos hl]
    exact congrArg _ (hv l hl)
  · rw [if_neg hl, if_neg hl]
    rfl

/-- **What a write does**: every byte of the dword is written, those beside the access with what
they read. -/
theorem c2811PciWrite_run (val : UInt32) (h : Aligned pos size) :
    (c2811PciWrite 0 devfn pos size val).run b
      = (pcibiosSuccessful, b.after devfn pos size val) := by
  have hin := h.within
  have hoff := offset_split pos
  unfold c2811PciWrite
  rw [run_next (c2811PciAddr_run devfn pos b rfl), if_neg (not_not_intro rfl),
    run_next (mvRead_run _ _)]
  by_cases h4 : size = 4
  · rw [if_pos h4, pure_bind, run_next (mvWrite_run _ _ _)]
    show (pcibiosSuccessful, (b.select devfn pos).store pci1ConfigData val) = _
    congr 1
    apply store_after
    intro l ⟨_, _, _, hlo, hhi⟩
    subst h4
    have hlo' : pos.toNat / 4 % 64 * 4 ≤ l.off := hlo
    have hhi' : l.off < pos.toNat / 4 % 64 * 4 + 4 := hhi
    unfold Bridge.written
    rw [if_pos (by omega), show pos.toNat / 4 % 64 * 4 = pos.toNat % 256 by omega]
  · rw [if_neg h4, run_next (mvRead_run _ _), run_next (c2811PciAddr_run devfn pos _ rfl),
      run_next (mvRead_run _ _), pure_bind, run_next (mvWrite_run _ _ _)]
    show (pcibiosSuccessful, (b.select devfn pos).store pci1ConfigData _) = _
    congr 1
    apply store_after
    intro l ⟨hbus, hdev, hfn, hlo, hhi⟩
    have hlo' : pos.toNat / 4 % 64 * 4 ≤ l.off := hlo
    have hhi' : l.off < pos.toNat / 4 % 64 * 4 + 4 := hhi
    have hloc : at0 devfn (pos.toNat / 4 % 64 * 4 + (l.off - pos.toNat / 4 % 64 * 4)) = l := by
      rw [Nat.add_sub_cancel' hlo']
      exact Loc.ext hbus.symm hdev.symm hfn.symm rfl
    refine (lane_write h h4 _ val (by omega)).trans ?_
    have hdata : lane ((b.select devfn pos).load pci1ConfigData) (l.off - pos.toNat / 4 % 64 * 4)
        = (b.space l).val := by
      rw [load_select, lane_ofLanes _ (by omega), hloc]
    unfold Bridge.written
    by_cases hk : pos.toNat % 256 ≤ l.off ∧ l.off < pos.toNat % 256 + size
    · rw [if_pos hk, if_pos (by omega)]
      congr 1
      omega
    · rw [if_neg hk, if_neg (by omega)]
      exact hdata

end

end Pci
