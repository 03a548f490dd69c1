import Relicnos.Pci.Access
import Relicnos.Pciscan.Report

/-!
# The scan and the kernel

The driver of the kernel makes its configuration accesses through the second interface, and only on
bus 0.  Where the data register shows a scan what it shows the driver, the scan reports of that bus
what the driver reads there.

* `Fn.devfn`, `Fn.driverReads`  a function as the driver addresses it, and what it reads of it;
* `Shows`                       what the two have in common;
* `driverView`                  the buses, with what the driver reads of them in its place;
* `scan_sees_driver`            the scan reports the functions of the view.
-/

set_option linter.unusedVariables false

namespace Pciscan
open Interact

/-- device and function, as the kernel packs them -/
def Fn.devfn (f : Fn) : UInt32 := UInt32.ofNat (8 * f.dev + f.fn)

/-- a dword of a function on bus 0, read by the driver -/
def Fn.driverReads (b : Pci.Bridge) (f : Fn) (reg : UInt32) : UInt32 :=
  ((Pci.c2811PciRead 0 f.devfn reg 4).run b).1.2

/-- a function that the driver can reach -/
def Fn.Reached (f : Fn) : Prop := f.busIf = true ∧ f.bus = 0 ∧ f.dev < 32 ∧ f.fn < 8

/-- the data register of the second interface shows what the driver's bridge has -/
def Shows (b : Pci.Bridge) (w : World) : Prop :=
  ∀ a, ¬Status a → w.space true (w.busNum true) a
    = ({ b with configAddr := a } : Pci.Bridge).load Pci.pci1ConfigData

/-- the buses, with bus 0 of the second interface as the driver reads it -/
def driverView (b : Pci.Bridge) (w : World) : Buses := fun busIf n a =>
  if busIf = true ∧ n = w.busNum true ∧ Pci.enabled a = true ∧ (Pci.decode a).bus = 0 then
    ((Pci.c2811PciRead 0 ((a >>> 8) &&& 0xff) (a &&& 0xfc) 4).run b).1.2
  else w.space busIf n a

/-! ## the two address words -/

variable {b : Pci.Bridge} {w w' : World} {f : Fn} {reg a : UInt32}

theorem Fn.devfn_toNat (hf : f.Reached) : f.devfn.toNat = 8 * f.dev + f.fn := by
  obtain ⟨_, _, hdev, hfn⟩ := hf
  unfold Fn.devfn
  rw [UInt32.toNat_ofNat']
  omega

/-- **The tool and the driver write the same address.** -/
theorem cfgAddr_driver (hf : f.Reached) (reg : UInt32) :
    cfgAddr (UInt32.ofNat f.bus) (UInt32.ofNat f.dev) (UInt32.ofNat f.fn) reg
      = Pci.configWord 0 f.devfn reg := by
  have hn := Fn.devfn_toNat hf
  obtain ⟨_, hbus, hdev, hfn⟩ := hf
  have hslot : Pci.pciSlot f.devfn = UInt32.ofNat f.dev := by
    apply UInt32.toNat_inj.mp
    rw [Pci.pciSlot_toNat, hn, UInt32.toNat_ofNat']
    omega
  have hfunc : Pci.pciFunc f.devfn = UInt32.ofNat f.fn := by
    apply UInt32.toNat_inj.mp
    rw [Pci.pciFunc_toNat, hn, UInt32.toNat_ofNat']
    omega
  unfold cfgAddr Pci.configWord
  rw [hslot, hfunc, hbus]
  rfl

/-- the address of a function says which one it is -/
theorem devfn_configWord (hf : f.Reached) (reg : UInt32) :
    ((Pci.configWord 0 f.devfn reg) >>> 8) &&& 0xff = f.devfn := by
  have hn := Fn.devfn_toNat hf
  have hw := Pci.configWord_toNat f.devfn reg
  have hs := Pci.pciSlot_toNat f.devfn
  have hfu := Pci.pciFunc_toNat f.devfn
  obtain ⟨_, _, hdev, hfn⟩ := hf
  apply UInt32.toNat_inj.mp
  rw [UInt32.toNat_and, UInt32.toNat_shiftRight]
  show (Pci.configWord 0 f.devfn reg).toNat >>> 8 &&& (2 ^ 8 - 1) = _
  rw [Nat.and_two_pow_sub_one_eq_mod, Nat.shiftRight_eq_div_pow, hw]
  omega

/-! ## the two reads -/

/-- a dword that the driver reads -/
theorem read_dword (devfn pos : UInt32) : ((Pci.c2811PciRead 0 devfn pos 4).run b).1.2
    = (b.select devfn pos).load Pci.pci1ConfigData := by
  unfold Pci.c2811PciRead
  rw [Pci.run_next (Pci.c2811PciAddr_run devfn pos b rfl), if_neg (not_not_intro rfl),
    Pci.run_next (Pci.mvRead_run _ _), Pci.run_next (Pci.mvRead_run _ _)]
  rfl

/-- bits that the bridge does not look at make no difference -/
theorem load_configWord (he : Pci.enabled a = true) (hb : (Pci.decode a).bus = 0) :
    ({ b with configAddr := a } : Pci.Bridge).load Pci.pci1ConfigData
      = (b.select ((a >>> 8) &&& 0xff) (a &&& 0xfc)).load Pci.pci1ConfigData := by
  have hfn : ((a >>> 8) &&& 0xff).toNat = a.toNat / 256 % 256 := by
    rw [UInt32.toNat_and, UInt32.toNat_shiftRight]
    show a.toNat >>> 8 &&& (2 ^ 8 - 1) = _
    rw [Nat.and_two_pow_sub_one_eq_mod, Nat.shiftRight_eq_div_pow]
  have hpos : (a &&& 0xfc).toNat = a.toNat / 4 % 64 * 4 := Pci.and_fc _
  rw [Pci.load_select]
  show (if Pci.enabled a = true then _ else _) = _
  rw [if_pos he]
  apply ofLanes_congr
  intro k hk
  refine congrArg (fun l => (b.space l).val) (Pci.Loc.ext hb ?_ ?_ ?_)
  · show ((a >>> 11) &&& 0x1f).toNat = (Pci.pciSlot _).toNat
    rw [Pci.pciSlot_toNat, hfn, UInt32.toNat_and, UInt32.toNat_shiftRight]
    show a.toNat >>> 11 &&& (2 ^ 5 - 1) = _
    rw [Nat.and_two_pow_sub_one_eq_mod, Nat.shiftRight_eq_div_pow]
    omega
  · show ((a >>> 8) &&& 0x07).toNat = (Pci.pciFunc _).toNat
    rw [Pci.pciFunc_toNat, hfn, UInt32.toNat_and, UInt32.toNat_shiftRight]
    show a.toNat >>> 8 &&& (2 ^ 3 - 1) = _
    rw [Nat.and_two_pow_sub_one_eq_mod, Nat.shiftRight_eq_div_pow]
    omega
  · show (a &&& 0xfc).toNat + k = (a &&& 0xfc).toNat / 4 % 64 * 4 + k
    omega

/-- the scan finds the buses as the driver reads them -/
theorem Shows.knows (hs : Shows b w) : Knows (driverView b w) w.p2p w := by
  refine ⟨fun busIf n a ha => ?_, rfl⟩
  unfold driverView
  by_cases h : busIf = true ∧ n = w.busNum true ∧ Pci.enabled a = true ∧ (Pci.decode a).bus = 0
  · rw [if_pos h]
    obtain ⟨rfl, rfl, he, hb⟩ := h
    rw [hs a ha, read_dword, load_configWord he hb]
  · rw [if_neg h]

/-- **What the view has of a function is what the driver reads.** -/
theorem reads_driver (hf : f.Reached) (reg : UInt32) :
    f.reads (driverView b w) w.p2p reg = f.driverReads b reg := by
  have haddr := cfgAddr_driver hf reg
  have hlow : Pci.configWord 0 f.devfn reg &&& 0xfc = reg &&& 0xfc := by
    rw [← haddr, cfgAddr_low]
  have hbus : (Pci.decode (Pci.configWord 0 f.devfn reg)).bus = 0 := by
    rw [Pci.decode_configWord]
  have hsel : b.select f.devfn (reg &&& 0xfc) = b.select f.devfn reg := by
    unfold Pci.Bridge.select Pci.configWord
    rw [UInt32.and_assoc]
    rfl
  unfold Fn.reads Fn.driverReads driverView
  rw [haddr, hf.1, if_pos ⟨rfl, rfl, Pci.enabled_configWord _ _, hbus⟩, devfn_configWord hf, hlow,
    read_dword, read_dword, hsel]

/-- **The scan and the driver see the same functions.**  Where the CPLD is mapped, and the data
register of the second interface shows a scan what it shows the driver, the report is that of buses
on which every dword of a function within the driver's reach is what the driver reads there. -/
theorem scan_sees_driver (hs : Shows b w) (maxbus : Int) {tr : List (Event Op Res World)} {r : Nat}
    (h : Runs env (pciscanMain true (.scan maxbus)) w tr r w') :
    (∀ f : Fn, f.Reached → ∀ reg, f.reads (driverView b w) w.p2p reg = f.driverReads b reg) ∧
    (∀ n a, driverView b w false n a = w.space false n a) ∧
    ∃ intro, (∀ l ∈ intro, Line.Intro l) ∧
      w'.said = w.said ++ intro ++
        ((functions maxbus).filter fun f => decide (f.Shown (driverView b w) w.p2p)).flatMap
          (Fn.describe (driverView b w) w.p2p) := by
  obtain ⟨_, _, _, hsaid⟩ := wp_runs (wp_scanMain hs.knows maxbus) h
  refine ⟨fun f hf reg => reads_driver hf reg, fun n a => if_neg fun hn => ?_, hsaid⟩
  exact absurd hn.1 (by decide)

/-- one function, device 1 of bus 0 -/
def cardBridge : Pci.Bridge where
  configAddr := 0
  space l := ⟨.ro,
    if l.bus = 0 ∧ l.dev = 1 ∧ l.fn = 0 then (if l.off < 4 then lane 0x401310ee l.off else 0)
    else 0xff⟩
  regs _ := 0

def cardWorld : World where
  addr _ := 0
  p2p _ := 0
  landed := false
  primed := false
  space busIf _ a :=
    if busIf = true then ({ cardBridge with configAddr := a } : Pci.Bridge).load Pci.pci1ConfigData
    else 0xffffffff
  said := []

theorem cardWorld_shown : (functions 0).filter
    (fun f => decide (f.Shown (driverView cardBridge cardWorld) cardWorld.p2p))
      = [⟨true, 0, 1, 0⟩] := by decide +kernel

theorem scan_sees_driver_card : ∃ tr r w', Runs env (pciscanMain true (.scan 0)) cardWorld tr r w' ∧
    ∃ intro, (∀ l ∈ intro, Line.Intro l) ∧ w'.said
      = intro ++ Fn.describe (driverView cardBridge cardWorld) cardWorld.p2p ⟨true, 0, 1, 0⟩ := by
  have hs : Shows cardBridge cardWorld := fun a _ => rfl
  obtain ⟨tr, r, w', hx⟩ := prompt_runs (pciscanMain true (.scan 0)) cardWorld
  obtain ⟨_, _, intro, hi, hsaid⟩ := scan_sees_driver hs 0 hx
  rw [cardWorld_shown, List.flatMap_singleton] at hsaid
  exact ⟨tr, r, w', hx, intro, hi, hsaid⟩

end Pciscan
