import Mathlib.Control.Monad.Basic
import Relicnos.Interact.Lanes

/-!
# Configuration accesses of the host bridge

* `Bridge`                             the address register, the other registers, and the
  configuration space the data register gives access to;
* `rawReadl`, `rawWritel`              the accesses of the big-endian processor, its registers
  little-endian;
* `c2811PciRead`, `c2811PciWrite`      the driver.
-/

set_option linter.unusedVariables false

namespace Pci

open Interact

/-! ## the device side -/

/-- what a write does to a byte: it is stored, it is ignored, or its ones clear -/
inductive Attr where
  | rw
  | ro
  | w1c
  deriving DecidableEq

structure Cell where
  attr : Attr
  val : UInt8
  deriving DecidableEq

def Cell.write (c : Cell) (v : UInt8) : Cell :=
  match c.attr with
  | .rw => { c with val := v }
  | .ro => c
  | .w1c => { c with val := c.val &&& ~~~v }

/-- a byte of the configuration space -/
@[ext]
structure Loc where
  bus : Nat
  dev : Nat
  fn : Nat
  off : Nat
  deriving DecidableEq

/-- one of the four bytes from `d` on -/
def Loc.InDword (l d : Loc) : Prop :=
  l.bus = d.bus ∧ l.dev = d.dev ∧ l.fn = d.fn ∧ d.off ≤ l.off ∧ l.off < d.off + 4

instance (l d : Loc) : Decidable (l.InDword d) :=
  inferInstanceAs (Decidable (_ ∧ _ ∧ _ ∧ _ ∧ _))

/-- `PCI1_CONFIG_ADDR` as the bridge reads it: the first byte of a dword -/
def decode (a : UInt32) : Loc where
  bus := ((a >>> 16) &&& 0xff).toNat
  dev := ((a >>> 11) &&& 0x1f).toNat
  fn := ((a >>> 8) &&& 0x07).toNat
  off := (a &&& 0xfc).toNat

/-- a configuration cycle is only made with the top bit of the address register set -/
def enabled (a : UInt32) : Bool := (a &&& 0x80000000) != 0

structure Bridge where
  configAddr : UInt32
  space : Loc → Cell
  /-- the registers that take no part in configuration accesses -/
  regs : Nat → UInt32

namespace Bridge

/-- the dword that the address register selects -/
def dword (b : Bridge) : Loc := decode b.configAddr

/-- a configuration write: every byte of the dword is written -/
def cycle (b : Bridge) (v : UInt32) : Bridge :=
  { b with space := fun l =>
      if l.InDword b.dword then (b.space l).write (lane v (l.off - b.dword.off)) else b.space l }

end Bridge

/-! ## the registers -/

def pci1ConfigAddr : Nat := 0xc78
def pci1ConfigData : Nat := 0xc7c

/-- the value of a register -/
def Bridge.load (b : Bridge) (off : Nat) : UInt32 :=
  if off = pci1ConfigAddr then b.configAddr
  else if off = pci1ConfigData then
    if enabled b.configAddr then
      ofLanes fun k => (b.space { b.dword with off := b.dword.off + k }).val
    else 0xffffffff
  else b.regs off

def Bridge.store (b : Bridge) (off : Nat) (v : UInt32) : Bridge :=
  if off = pci1ConfigAddr then { b with configAddr := v }
  else if off = pci1ConfigData then if enabled b.configAddr then b.cycle v else b
  else { b with regs := Function.update b.regs off v }

/-- `__raw_readl`: the lowest byte of the register is at the lowest address, and the processor
takes that one for the highest -/
def rawReadl (off : Nat) : StateM Bridge UInt32 := do
  let b ← get
  return ofLanes fun k => lane (b.load off) (3 - k)

/-- `__raw_writel` -/
def rawWritel (v : UInt32) (off : Nat) : StateM Bridge Unit :=
  modify fun b => b.store off (ofLanes fun k => lane v (3 - k))

/-! ## the driver -/

def mvRead (off : Nat) : StateM Bridge UInt32 := return swab32 (← rawReadl off)

def mvWrite (off : Nat) (val : UInt32) : StateM Bridge Unit := rawWritel (swab32 val) off

def pciSlot (devfn : UInt32) : UInt32 := (devfn >>> 3) &&& 0x1f
def pciFunc (devfn : UInt32) : UInt32 := devfn &&& 0x07

def pcibiosSuccessful : Int := 0x00
def pcibiosDeviceNotFound : Int := 0x86

/-- the address word of an access -/
def configWord (bus : UInt8) (devfn pos : UInt32) : UInt32 :=
  (0x80000000 : UInt32) ||| (bus.toUInt32 <<< 16) ||| (pciSlot devfn <<< 11) |||
    (pciFunc devfn <<< 8) ||| (pos &&& 0xfc)

def c2811PciAddr (bus : UInt8) (devfn pos : UInt32) : StateM Bridge Int := do
  if bus ≠ 0 then
    return -1
  mvWrite pci1ConfigAddr (configWord bus devfn pos)
  return 0

/-- the result and `*val` -/
def c2811PciRead (bus : UInt8) (devfn pos : UInt32) (size : Nat) :
    StateM Bridge (Int × UInt32) := do
  if (← c2811PciAddr bus devfn pos) ≠ 0 then
    return (pcibiosDeviceNotFound, 0xffffffff)
  let _ ← mvRead pci1ConfigAddr
  let data ← mvRead pci1ConfigData
  let val :=
    if size = 1 then (data >>> ((pos &&& 3) <<< 3)) &&& 0xff
    else if size = 2 then (data >>> ((pos &&& 2) <<< 3)) &&& 0xffff
    else data
  return (pcibiosSuccessful, val)

def c2811PciWrite (bus : UInt8) (devfn pos : UInt32) (size : Nat) (val : UInt32) :
    StateM Bridge Int := do
  if (← c2811PciAddr bus devfn pos) ≠ 0 then
    return pcibiosDeviceNotFound
  let _ ← mvRead pci1ConfigAddr
  let data ←
    if size = 4 then pure val
    else do
      let data ← mvRead pci1ConfigData
      let data :=
        if size = 1 then
          let shift := (pos &&& 3) <<< 3
          (data &&& ~~~(0xff <<< shift)) ||| ((val &&& 0xff) <<< shift)
        else
          let shift := (pos &&& 2) <<< 3
          (data &&& ~~~(0xffff <<< shift)) ||| ((val &&& 0xffff) <<< shift)
      let _ ← c2811PciAddr bus devfn pos
      let _ ← mvRead pci1ConfigAddr
      pure data
  mvWrite pci1ConfigData data
  return pcibiosSuccessful

/-! ## one specification for each step -/

theorem run_next {σ α β : Type} {m : StateM σ α} {f : α → StateM σ β} {s s' : σ} {a : α}
    (h : m.run s = (a, s')) : (m >>= f).run s = (f a).run s' := by
  show (fun r : α × σ => (f r.1).run r.2) (m.run s) = _
  rw [h]

theorem mvRead_run (off : Nat) (b : Bridge) : (mvRead off).run b = (b.load off, b) := by
  show (swab32 (ofLanes fun k => lane (b.load off) (3 - k)), b) = _
  congr 1
  apply ext_lanes
  intro k hk
  rw [lane_swab32 _ hk, lane_ofLanes _ (by omega), show 3 - (3 - k) = k by omega]

theorem mvWrite_run (off : Nat) (val : UInt32) (b : Bridge) :
    (mvWrite off val).run b = ((), b.store off val) := by
  show ((), b.store off (ofLanes fun k => lane (swab32 val) (3 - k))) = _
  congr 2
  apply ext_lanes
  intro k hk
  rw [lane_ofLanes _ hk, lane_swab32 _ (by omega), show 3 - (3 - k) = k by omega]

theorem c2811PciAddr_run {bus : UInt8} (devfn pos : UInt32) (b : Bridge) (h : bus = 0) :
    (c2811PciAddr bus devfn pos).run b
      = (0, { b with configAddr := configWord bus devfn pos }) := by
  unfold c2811PciAddr
  rw [if_neg (not_not_intro h), run_next (mvWrite_run _ _ _)]
  rfl

/-- only bus 0 is there -/
theorem c2811PciAddr_other {bus : UInt8} (devfn pos : UInt32) (b : Bridge) (h : bus ≠ 0) :
    (c2811PciAddr bus devfn pos).run b = (-1, b) := by
  unfold c2811PciAddr
  rw [if_pos h]
  rfl

end Pci
