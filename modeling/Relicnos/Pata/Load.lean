import Relicnos.Pata.Device

/-!
# Loading a taskfile through halfword pairs

`c2811_tf_load` writes the address registers two at a time and leaves the device register to
`c2811_exec_command`, where it shares a halfword with the command.  Beside them stand the
functions of libata they replace, which write every register by itself (`ataSffTfLoad`,
`ataSffExecCommand`, `ataSffSetDevctl`).

* `Alike`            the two devices differ at most in the device register and the data register,
                     which a pair drags along;
* `Step.alike`       every step keeps that, and a command finds the device register loaded;
* `taskfiles_seen`   the commands of any sequence of taskfiles see the same registers.
-/

namespace Pata

structure Taskfile where
  isAddr : Bool
  lba48 : Bool
  /-- `ATA_TFLAG_DEVICE` -/
  hasDevice : Bool
  ctl : UInt8
  hobFeature : UInt8
  hobNsect : UInt8
  hobLbal : UInt8
  hobLbam : UInt8
  hobLbah : UInt8
  feature : UInt8
  nsect : UInt8
  lbal : UInt8
  lbam : UInt8
  lbah : UInt8
  device : UInt8
  command : UInt8

/-- the port: the device, and the control value written last -/
structure Port where
  dev : Device
  lastCtl : UInt8
  deriving DecidableEq

/-! ## the driver -/

def pFeat : Nat := 0x02
def pNsectLbal : Nat := 0x06
def pLbamLbah : Nat := 0x0A
def pDevCmd : Nat := 0x0E
def pDevctl : Nat := 0x1E

def cfW16 (off : Nat) (v : UInt16) (ap : Port) : Port := { ap with dev := ap.dev.write16 off v }

def c2811TfLoad (tf : Taskfile) (ap : Port) : Port :=
  let ap := if tf.ctl ≠ ap.lastCtl then
      { cfW16 pDevctl tf.ctl.toUInt16 ap with lastCtl := tf.ctl }
    else ap
  let ap := if tf.isAddr && tf.lba48 then
      let ap := cfW16 pFeat (tf.hobFeature.toUInt16 <<< 8) ap
      let ap := cfW16 pNsectLbal (pair tf.hobLbal tf.hobNsect) ap
      cfW16 pLbamLbah (pair tf.hobLbah tf.hobLbam) ap
    else ap
  if tf.isAddr then
    let ap := cfW16 pFeat (tf.feature.toUInt16 <<< 8) ap
    let ap := cfW16 pNsectLbal (pair tf.lbal tf.nsect) ap
    cfW16 pLbamLbah (pair tf.lbah tf.lbam) ap
  else ap

def c2811ExecCommand (tf : Taskfile) (ap : Port) : Port :=
  cfW16 pDevCmd (pair tf.command tf.device) ap

def c2811SetDevctl (ctl : UInt8) (ap : Port) : Port := cfW16 pDevctl ctl.toUInt16 ap

/-! ## libata's own functions -/

def iowrite8 (r : Reg) (v : UInt8) (ap : Port) : Port := { ap with dev := ap.dev.write8 r v }

def ataSffTfLoad (tf : Taskfile) (ap : Port) : Port :=
  let ap := if tf.ctl ≠ ap.lastCtl then { iowrite8 .ctl tf.ctl ap with lastCtl := tf.ctl } else ap
  let ap := if tf.isAddr && tf.lba48 then
      let ap := iowrite8 .feature tf.hobFeature ap
      let ap := iowrite8 .nsect tf.hobNsect ap
      let ap := iowrite8 .lbal tf.hobLbal ap
      let ap := iowrite8 .lbam tf.hobLbam ap
      iowrite8 .lbah tf.hobLbah ap
    else ap
  let ap := if tf.isAddr then
      let ap := iowrite8 .feature tf.feature ap
      let ap := iowrite8 .nsect tf.nsect ap
      let ap := iowrite8 .lbal tf.lbal ap
      let ap := iowrite8 .lbam tf.lbam ap
      iowrite8 .lbah tf.lbah ap
    else ap
  if tf.hasDevice then iowrite8 .device tf.device ap else ap

def ataSffExecCommand (tf : Taskfile) (ap : Port) : Port := iowrite8 .command tf.command ap

def ataSffSetDevctl (ctl : UInt8) (ap : Port) : Port := iowrite8 .ctl ctl ap

/-! ## sequences -/

inductive Step where
  /-- a taskfile that is loaded only -/
  | load (tf : Taskfile)
  /-- a taskfile that is loaded and its command started -/
  | issue (tf : Taskfile)
  | devctl (ctl : UInt8)

namespace Step

def c2811 (ap : Port) : Step → Port
  | .load tf => c2811TfLoad tf ap
  | .issue tf => c2811ExecCommand tf (c2811TfLoad tf ap)
  | .devctl ctl => c2811SetDevctl ctl ap

def stock (ap : Port) : Step → Port
  | .load tf => ataSffTfLoad tf ap
  | .issue tf => ataSffExecCommand tf (ataSffTfLoad tf ap)
  | .devctl ctl => ataSffSetDevctl ctl ap

/-- its taskfile has `ATA_TFLAG_DEVICE` -/
def HasDevice : Step → Prop
  | .load tf => tf.hasDevice = true
  | .issue tf => tf.hasDevice = true
  | .devctl _ => True

end Step

/-! ## what a load leaves behind -/

/-- the registers after a load: the address registers that the flags ask for, the device register
as `dev` says -/
def Regs.loaded (tf : Taskfile) (lastCtl dev : UInt8) (r : Regs) : Regs :=
  let r := if tf.ctl ≠ lastCtl then { r with ctl := tf.ctl } else r
  let r := if tf.isAddr && tf.lba48 then { r with
      feature := r.feature.push tf.hobFeature
      nsect := r.nsect.push tf.hobNsect
      lbal := r.lbal.push tf.hobLbal
      lbam := r.lbam.push tf.hobLbam
      lbah := r.lbah.push tf.hobLbah }
    else r
  let r := if tf.isAddr then { r with
      feature := r.feature.push tf.feature
      nsect := r.nsect.push tf.nsect
      lbal := r.lbal.push tf.lbal
      lbam := r.lbam.push tf.lbam
      lbah := r.lbah.push tf.lbah }
    else r
  { r with device := dev }

theorem pair_zero (v : UInt8) : v.toUInt16 <<< 8 = pair v 0 := (UInt16.or_zero).symm

section
variable {ap : Port} {hi lo : UInt8}

theorem cfW16_devctl (v : UInt8) : cfW16 pDevctl v.toUInt16 ap
    = { ap with dev := { ap.dev with regs := { ap.dev.regs with ctl := v } } } := by
  unfold cfW16
  rw [pair_ctl, Device.write16_pair]
  rfl

theorem cfW16_feat : cfW16 pFeat (hi.toUInt16 <<< 8) ap = { ap with dev := { ap.dev with
    regs := { ap.dev.regs with feature := ap.dev.regs.feature.push hi }, data := 0 } } := by
  unfold cfW16
  rw [pair_zero, Device.write16_pair]
  rfl

theorem cfW16_nsectLbal : cfW16 pNsectLbal (pair hi lo) ap = { ap with dev := { ap.dev with
    regs := { ap.dev.regs with
      lbal := ap.dev.regs.lbal.push hi, nsect := ap.dev.regs.nsect.push lo } } } := by
  unfold cfW16
  rw [Device.write16_pair]
  rfl

theorem cfW16_lbamLbah : cfW16 pLbamLbah (pair hi lo) ap = { ap with dev := { ap.dev with
    regs := { ap.dev.regs with
      lbah := ap.dev.regs.lbah.push hi, lbam := ap.dev.regs.lbam.push lo } } } := by
  unfold cfW16
  rw [Device.write16_pair]
  rfl

/-- **The driver's load**: the device register stays, and no command starts. -/
theorem c2811TfLoad_loaded (tf : Taskfile) :
    (c2811TfLoad tf ap).dev.regs = ap.dev.regs.loaded tf ap.lastCtl ap.dev.regs.device ∧
      (c2811TfLoad tf ap).lastCtl = tf.ctl ∧
      (c2811TfLoad tf ap).dev.started = ap.dev.started := by
  unfold c2811TfLoad Regs.loaded
  by_cases hc : tf.ctl = ap.lastCtl <;> cases tf.isAddr <;> cases tf.lba48 <;>
    simp [hc, cfW16_devctl, cfW16_feat, cfW16_nsectLbal, cfW16_lbamLbah]

/-- libata's load: the device register too -/
theorem ataSffTfLoad_loaded (tf : Taskfile) (h : tf.hasDevice = true) :
    (ataSffTfLoad tf ap).dev.regs = ap.dev.regs.loaded tf ap.lastCtl tf.device ∧
      (ataSffTfLoad tf ap).lastCtl = tf.ctl ∧
      (ataSffTfLoad tf ap).dev.started = ap.dev.started := by
  unfold ataSffTfLoad Regs.loaded
  by_cases hc : tf.ctl = ap.lastCtl <;> cases tf.isAddr <;> cases tf.lba48 <;>
    simp [hc, h, iowrite8, Device.write8, Device.set]

/-- the command is written with the device register, and starts with both -/
theorem c2811ExecCommand_regs (tf : Taskfile) :
    (c2811ExecCommand tf ap).dev.regs
        = { ap.dev.regs with device := tf.device, command := tf.command } ∧
      (c2811ExecCommand tf ap).dev.started
        = ap.dev.started ++ [{ ap.dev.regs with device := tf.device, command := tf.command }] ∧
      (c2811ExecCommand tf ap).lastCtl = ap.lastCtl := by
  unfold c2811ExecCommand cfW16
  rw [Device.write16_pair]
  exact ⟨rfl, rfl, rfl⟩

end

/-! ## the two devices side by side -/

/-- the same registers, the device register aside -/
def Regs.Alike (r r' : Regs) : Prop := { r with device := 0 } = { r' with device := 0 }

structure Alike (ap ap' : Port) : Prop where
  regs : ap.dev.regs.Alike ap'.dev.regs
  started : ap.dev.started = ap'.dev.started
  lastCtl : ap.lastCtl = ap'.lastCtl

/-- a load depends on nothing else -/
theorem Regs.Alike.loaded {r r' : Regs} (h : r.Alike r') (tf : Taskfile) (c x : UInt8) :
    r.loaded tf c x = r'.loaded tf c x := by
  have hdev : ∀ q : Regs, q.loaded tf c x = ({ q with device := 0 } : Regs).loaded tf c x := by
    intro q
    unfold Regs.loaded
    split <;> split <;> split <;> rfl
  rw [hdev r, hdev r', show ({ r with device := 0 } : Regs) = { r' with device := 0 } from h]

theorem Regs.loaded_device (r : Regs) (tf : Taskfile) (c x y : UInt8) :
    { r.loaded tf c x with device := y } = r.loaded tf c y := rfl

variable {ap ap' : Port}

theorem Alike.load (h : Alike ap ap') {tf : Taskfile} (hd : tf.hasDevice = true) :
    Alike (c2811TfLoad tf ap) (ataSffTfLoad tf ap') := by
  obtain ⟨hr, hc, hs⟩ := @c2811TfLoad_loaded ap tf
  obtain ⟨hr', hc', hs'⟩ := @ataSffTfLoad_loaded ap' tf hd
  refine ⟨?_, ?_, hc.trans hc'.symm⟩
  · unfold Regs.Alike
    rw [hr, hr', h.lastCtl, Regs.loaded_device, Regs.loaded_device]
    exact h.regs.loaded tf _ _
  · rw [hs, hs', h.started]

/-- the registers of a command that is started -/
theorem Alike.issue (h : Alike ap ap') {tf : Taskfile} (hd : tf.hasDevice = true) :
    (Step.c2811 ap (.issue tf)).dev.regs = (Step.stock ap' (.issue tf)).dev.regs ∧
      (Step.c2811 ap (.issue tf)).dev.regs
        = { ap.dev.regs.loaded tf ap.lastCtl tf.device with command := tf.command } ∧
      (Step.c2811 ap (.issue tf)).dev.started
        = ap.dev.started ++ [(Step.c2811 ap (.issue tf)).dev.regs] ∧
      Alike (Step.c2811 ap (.issue tf)) (Step.stock ap' (.issue tf)) := by
  obtain ⟨hr, hc, hs⟩ := @c2811TfLoad_loaded ap tf
  obtain ⟨hr', hc', hs'⟩ := @ataSffTfLoad_loaded ap' tf hd
  obtain ⟨er, es, ec⟩ := @c2811ExecCommand_regs (c2811TfLoad tf ap) tf
  have hregs : (Step.c2811 ap (.issue tf)).dev.regs
      = { ap.dev.regs.loaded tf ap.lastCtl tf.device with command := tf.command } := by
    show (c2811ExecCommand tf (c2811TfLoad tf ap)).dev.regs = _
    rw [er, hr]
    rfl
  have hregs' : (Step.stock ap' (.issue tf)).dev.regs
      = { ap.dev.regs.loaded tf ap.lastCtl tf.device with command := tf.command } := by
    show ({ (ataSffTfLoad tf ap').dev.regs with command := tf.command } : Regs) = _
    rw [hr', h.regs.loaded, h.lastCtl]
  have hstart : (Step.c2811 ap (.issue tf)).dev.started
      = ap.dev.started ++ [(Step.c2811 ap (.issue tf)).dev.regs] := by
    show (c2811ExecCommand tf (c2811TfLoad tf ap)).dev.started = _
    rw [es, hs, ← er]
    rfl
  have hstart' : (Step.stock ap' (.issue tf)).dev.started
      = ap'.dev.started ++ [(Step.stock ap' (.issue tf)).dev.regs] := by
    show (ataSffTfLoad tf ap').dev.started ++ [_] = _
    rw [hs']
    rfl
  refine ⟨hregs.trans hregs'.symm, hregs, hstart, ?_, ?_, ?_⟩
  · unfold Regs.Alike
    rw [hregs, hregs']
  · rw [hstart, hstart', h.started, hregs, hregs']
  · exact (ec.trans hc).trans hc'.symm

theorem Alike.devctl (h : Alike ap ap') (ctl : UInt8) :
    Alike (c2811SetDevctl ctl ap) (ataSffSetDevctl ctl ap') := by
  have hregs : ({ ap.dev.regs with ctl := ctl, device := 0 } : Regs)
      = { ap'.dev.regs with ctl := ctl, device := 0 } :=
    congrArg (fun q : Regs => { q with ctl := ctl }) h.regs
  unfold c2811SetDevctl
  rw [cfW16_devctl]
  exact ⟨hregs, h.started, h.lastCtl⟩

/-- **Every step keeps the devices alike.** -/
theorem Step.alike {step : Step} (hd : step.HasDevice) (h : Alike ap ap') :
    Alike (step.c2811 ap) (step.stock ap') := by
  cases step with
  | load tf => exact h.load hd
  | issue tf => exact (h.issue hd).2.2.2
  | devctl ctl => exact h.devctl ctl

theorem run_alike {steps : List Step} (hd : ∀ step ∈ steps, step.HasDevice) (ap : Port) :
    Alike (steps.foldl Step.c2811 ap) (steps.foldl Step.stock ap) :=
  List.foldl_rel ⟨rfl, rfl, rfl⟩ fun step hm _ _ h => Step.alike (hd step hm) h

/-- what a command sees of its taskfile, and what is left of the registers before -/
structure Seen (tf : Taskfile) (old seen : Regs) : Prop where
  device : seen.device = tf.device
  command : seen.command = tf.command
  addr : tf.isAddr = true →
    seen.feature.cur = tf.feature ∧ seen.nsect.cur = tf.nsect ∧ seen.lbal.cur = tf.lbal ∧
      seen.lbam.cur = tf.lbam ∧ seen.lbah.cur = tf.lbah
  hob : tf.isAddr = true → tf.lba48 = true →
    seen.feature.prev = tf.hobFeature ∧ seen.nsect.prev = tf.hobNsect ∧
      seen.lbal.prev = tf.hobLbal ∧ seen.lbam.prev = tf.hobLbam ∧ seen.lbah.prev = tf.hobLbah
  short : tf.isAddr = true → tf.lba48 = false →
    seen.feature.prev = old.feature.cur ∧ seen.nsect.prev = old.nsect.cur ∧
      seen.lbal.prev = old.lbal.cur ∧ seen.lbam.prev = old.lbam.cur ∧
      seen.lbah.prev = old.lbah.cur
  kept : tf.isAddr = false →
    seen.feature = old.feature ∧ seen.nsect = old.nsect ∧ seen.lbal = old.lbal ∧
      seen.lbam = old.lbam ∧ seen.lbah = old.lbah

theorem seen_loaded (tf : Taskfile) (c : UInt8) (r : Regs) :
    Seen tf r { r.loaded tf c tf.device with command := tf.command } := by
  constructor
  · rfl
  · rfl
  · intro ha
    unfold Regs.loaded Held.push
    simp [ha]
  · intro ha hl
    unfold Regs.loaded Held.push
    simp [ha, hl]
  · intro ha hl
    unfold Regs.loaded Held.push
    by_cases hc : tf.ctl = c <;> simp [ha, hl, hc]
  · intro ha
    unfold Regs.loaded
    by_cases hc : tf.ctl = c <;> simp [ha, hc]

/-- **The commands of any sequence of taskfiles see what libata's own functions would have left**,
and loading one starts none. -/
theorem taskfiles_seen (steps : List Step) (hsteps : ∀ step ∈ steps, step.HasDevice)
    (tf : Taskfile) (htf : tf.hasDevice = true) (ap : Port) :
    (steps.foldl Step.c2811 ap).dev.started = (steps.foldl Step.stock ap).dev.started ∧
      (c2811TfLoad tf (steps.foldl Step.c2811 ap)).dev.started
        = (steps.foldl Step.c2811 ap).dev.started ∧
      ∃ seen, (Step.c2811 (steps.foldl Step.c2811 ap) (.issue tf)).dev.started
          = (steps.foldl Step.c2811 ap).dev.started ++ [seen] ∧
        (Step.stock (steps.foldl Step.stock ap) (.issue tf)).dev.started
          = (steps.foldl Step.stock ap).dev.started ++ [seen] ∧
        Seen tf (steps.foldl Step.c2811 ap).dev.regs seen := by
  have h := run_alike hsteps ap
  obtain ⟨hregs, hseen, hstart, h'⟩ := h.issue htf
  refine ⟨h.started, (c2811TfLoad_loaded tf).2.2, _, hstart, ?_, ?_⟩
  · rw [← h'.started, hstart, h.started]
  · rw [hseen]
    exact seen_loaded tf _ _

/-- a 48-bit read after a 28-bit one -/
def tf28 : Taskfile where
  isAddr := true
  lba48 := false
  hasDevice := true
  ctl := 0x08
  hobFeature := 0
  hobNsect := 0
  hobLbal := 0
  hobLbam := 0
  hobLbah := 0
  feature := 0
  nsect := 1
  lbal := 0x11
  lbam := 0x22
  lbah := 0x33
  device := 0xE0
  command := 0x20

def tf48 : Taskfile :=
  { tf28 with lba48 := true, hobNsect := 0x01, hobLbal := 0x44, device := 0x40, command := 0x24 }

/-- the port before its first command -/
def idlePort : Port where
  dev := ⟨⟨⟨0, 0⟩, ⟨0, 0⟩, ⟨0, 0⟩, ⟨0, 0⟩, ⟨0, 0⟩, 0, 0, 0⟩, 0, []⟩
  lastCtl := 0

theorem taskfiles_seen_mixed : ∃ seen,
    (Step.c2811 (Step.c2811 idlePort (.issue tf28)) (.issue tf48)).dev.started
      = (Step.c2811 idlePort (.issue tf28)).dev.started ++ [seen] ∧ seen.lbal = ⟨0x11, 0x44⟩ := by
  have h := (taskfiles_seen [.issue tf28]
    (fun step hm => (List.mem_singleton.mp hm) ▸ (rfl : tf28.hasDevice = true)) tf48 rfl idlePort)
  obtain ⟨seen, hstart, _, hs⟩ := h.2.2
  refine ⟨seen, hstart, ?_⟩
  have hcur := (hs.addr rfl).2.2.1
  have hprev := (hs.hob rfl rfl).2.2.1
  cases hl : seen.lbal with
  | mk cur prev =>
    rw [hl] at hcur hprev
    exact congrArg₂ Held.mk hcur hprev

end Pata
