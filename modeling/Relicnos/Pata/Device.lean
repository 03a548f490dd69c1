import Mathlib.Tactic.Common

/-!
# A CompactFlash behind register pairs

The task file sits in the DevCS3 window two registers to a pair (`regAt`), the first of them on
the even lane.  A halfword write reaches both lanes at once; a command starts when its register is
written, with what the registers hold then.  The five address registers remember one earlier
value, which is what a 48-bit command takes as its high halves.

The write of a single lane (`write8`) is what libata's own functions expect of a device.  Left
out: reads, the data port at 0x12, and what the device does with a command.
-/

namespace Pata

inductive Reg where
  | data
  | feature
  | nsect
  | lbal
  | lbam
  | lbah
  | device
  | command
  | ctl
  deriving DecidableEq

/-- the register at a byte of the window -/
def regAt : Nat → Option Reg
  | 0x02 => some .feature
  | 0x03 => some .data
  | 0x06 => some .lbal
  | 0x07 => some .nsect
  | 0x0A => some .lbah
  | 0x0B => some .lbam
  | 0x0E => some .command
  | 0x0F => some .device
  | 0x1F => some .ctl
  | _ => none

/-- an address register with its previous value -/
structure Held where
  cur : UInt8
  prev : UInt8
  deriving DecidableEq

def Held.push (h : Held) (v : UInt8) : Held := ⟨v, h.cur⟩

/-- what a command is started with -/
structure Regs where
  feature : Held
  nsect : Held
  lbal : Held
  lbam : Held
  lbah : Held
  device : UInt8
  command : UInt8
  ctl : UInt8
  deriving DecidableEq

structure Device where
  regs : Regs
  data : UInt8
  /-- the commands started so far -/
  started : List Regs
  deriving DecidableEq

namespace Device

def set (d : Device) : Reg → UInt8 → Device
  | .data, v => { d with data := v }
  | .feature, v => { d with regs := { d.regs with feature := d.regs.feature.push v } }
  | .nsect, v => { d with regs := { d.regs with nsect := d.regs.nsect.push v } }
  | .lbal, v => { d with regs := { d.regs with lbal := d.regs.lbal.push v } }
  | .lbam, v => { d with regs := { d.regs with lbam := d.regs.lbam.push v } }
  | .lbah, v => { d with regs := { d.regs with lbah := d.regs.lbah.push v } }
  | .device, v => { d with regs := { d.regs with device := v } }
  | .command, v => { d with regs := { d.regs with command := v } }
  | .ctl, v => { d with regs := { d.regs with ctl := v } }

def setAt (d : Device) (off : Nat) (v : UInt8) : Device :=
  match regAt off with
  | some r => d.set r v
  | none => d

def start (d : Device) : Device := { d with started := d.started ++ [d.regs] }

/-- the high byte goes to the even lane, the low byte to the odd one -/
def write16 (d : Device) (off : Nat) (v : UInt16) : Device :=
  let d' := (d.setAt off (v >>> 8).toUInt8).setAt (off + 1) v.toUInt8
  if regAt off = some .command ∨ regAt (off + 1) = some .command then d'.start else d'

def write8 (d : Device) (r : Reg) (v : UInt8) : Device :=
  if r = .command then (d.set r v).start else d.set r v

end Device

/-! ## halfwords -/

/-- `((u16)hi << 8) | lo` -/
def pair (hi lo : UInt8) : UInt16 := (hi.toUInt16 <<< 8) ||| lo.toUInt16

theorem pair_toNat (hi lo : UInt8) : (pair hi lo).toNat = 256 * hi.toNat + lo.toNat := by
  have hhi := hi.toNat_lt
  have hlo := lo.toNat_lt
  have hs : (hi.toUInt16 <<< 8).toNat = 2 ^ 8 * hi.toNat := by
    rw [UInt16.toNat_shiftLeft, UInt8.toNat_toUInt16]
    show hi.toNat <<< 8 % 2 ^ 16 = _
    rw [Nat.shiftLeft_eq]
    omega
  unfold pair
  rw [UInt16.toNat_or, hs, UInt8.toNat_toUInt16, ← Nat.two_pow_add_eq_or_of_lt hlo]

theorem pair_hi (hi lo : UInt8) : (pair hi lo >>> 8).toUInt8 = hi := by
  have hlo := lo.toNat_lt
  have hhi := hi.toNat_lt
  apply UInt8.toNat.inj
  rw [UInt16.toNat_toUInt8, UInt16.toNat_shiftRight, pair_toNat]
  show (256 * hi.toNat + lo.toNat) >>> 8 % 2 ^ 8 = _
  rw [Nat.shiftRight_eq_div_pow]
  omega

theorem pair_lo (hi lo : UInt8) : (pair hi lo).toUInt8 = lo := by
  have hlo := lo.toNat_lt
  apply UInt8.toNat.inj
  rw [UInt16.toNat_toUInt8, pair_toNat]
  omega

theorem pair_ctl (v : UInt8) : v.toUInt16 = pair 0 v := by
  show v.toUInt16 = (0 : UInt16) <<< 8 ||| v.toUInt16
  rw [UInt16.zero_shiftLeft, UInt16.zero_or]

/-- **A pair is written as its two registers**, and starts a command if that is among them. -/
theorem Device.write16_pair (d : Device) (off : Nat) (hi lo : UInt8) :
    d.write16 off (pair hi lo) =
      if regAt off = some .command ∨ regAt (off + 1) = some .command then
        ((d.setAt off hi).setAt (off + 1) lo).start
      else (d.setAt off hi).setAt (off + 1) lo := by
  unfold Device.write16
  rw [pair_hi, pair_lo]

end Pata
