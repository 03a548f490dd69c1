import Relicnos.Interact.Exec
import Mathlib.Data.Fintype.Basic

/-!
# Interrupt dispatch

`plat_irq_dispatch` and the demultiplexer of the MV64340 as programs over register accesses.
`Status.IM` enables the CP0 lines; the controller has 64 sources, cause and mask in two words
each.  Dispatch runs with interrupts disabled, so between its accesses only the outside moves:
the cause words and the CP0 lines.

* `platIrqDispatch`, `mv64340IrqDispatch`, `mv64340CascadeRunaway`, `mv64340IrqMask`,
  `mv64340IrqUnmask`   the code;
* `Machine`            registers, lines, the claimed irqs and what is recorded for the reports;
* `Wiring`             the CP0 line that the controller drives, if any, and what a handler does;
* `env w drift`        the environment, where `drift` is what the outside does between accesses:
                       `held` for nothing, `free` for anything.
-/

set_option linter.unusedVariables false

namespace Irq
open Interact

def c2811MvIrqBase : Nat := 8
def c2811MvNrIrqs : Nat := 64
def mipsCpuIrqBase : Nat := 0

def causebIP : Nat := 8
def statusbIP0 : Nat := 8
def st0IM : BitVec 32 := 0xff00#32

/-- `CAUSEF_IPn` -/
def causefIP (ip : Nat) : BitVec 32 := 1#32 <<< (causebIP + ip)

inductive MvReg
  | mainCauseLow
  | mainCauseHigh
  | cpu0MaskLow
  | cpu0MaskHigh
  | cpu1MaskLow
  | cpu1MaskHigh
  deriving DecidableEq

/-- delayed work items -/
inductive Work
  | mvUnclaimedWork
  | cascadeRunawayWork
  deriving DecidableEq

inductive Op
  | readC0Status
  | readC0Cause
  | clearC0Status (set : BitVec 32)
  | readl (r : MvReg)
  | writel (v : BitVec 32) (r : MvReg)
  | irqHasAction (irq : Nat)
  | doIRQ (irq : Nat)
  | spuriousInterrupt
  /-- `set_bit(bit, mv_unclaimed)` -/
  | setUnclaimed (bit : Nat)
  /-- `set_bit(ip, &cascade_runaway_mask)` -/
  | setRunaway (ip : Nat)
  /-- the delay in units of `HZ` -/
  | scheduleDelayedWork (w : Work) (delay : Nat)
  deriving DecidableEq

abbrev Res : Op → Type
  | .readC0Status => BitVec 32
  | .readC0Cause => BitVec 32
  | .clearC0Status _ => Unit
  | .readl _ => BitVec 32
  | .writel _ _ => Unit
  | .irqHasAction _ => Bool
  | .doIRQ _ => Unit
  | .spuriousInterrupt => Unit
  | .setUnclaimed _ => Unit
  | .setRunaway _ => Unit
  | .scheduleDelayedWork _ _ => Unit

abbrev Code := Prog Op Res

/-- one access, with its result -/
abbrev ask (o : Op) : Code (Res o) := Prog.call o

/-- `__ffs`: the lowest set bit -/
def ffs (x : BitVec 32) : Nat := x.ctz.toNat

def causeReg (bit : Nat) : MvReg := if bit < 32 then .mainCauseLow else .mainCauseHigh
def maskReg (bit : Nat) : MvReg := if bit < 32 then .cpu0MaskLow else .cpu0MaskHigh

/-- `BIT(bit & 31)` -/
def wordBit (bit : Nat) : BitVec 32 := 1#32 <<< (bit &&& 31)

def maskOff (bit : Nat) : Code Unit := do
  let v ← ask (.readl (maskReg bit))
  ask (.writel (v &&& ~~~ wordBit bit) (maskReg bit))

def mv64340IrqMask (irq : Nat) : Code Unit := maskOff (irq - c2811MvIrqBase)

def mv64340IrqUnmask (irq : Nat) : Code Unit := do
  let bit := irq - c2811MvIrqBase
  let v ← ask (.readl (maskReg bit))
  ask (.writel (v ||| wordBit bit) (maskReg bit))

/-- the source that is served, from the two words of asserted and unmasked sources -/
def pick (lo hi : BitVec 32) : Option Nat :=
  if lo ≠ 0 then some (ffs lo) else if hi ≠ 0 then some (32 + ffs hi) else none

/-- what `mv64340_irq_dispatch` does with the source it has picked -/
def dispatchBit (bit : Nat) : Code Unit := do
  let irq := c2811MvIrqBase + bit
  let claimed ← ask (.irqHasAction irq)
  if claimed then
    ask (.doIRQ irq)
  else do
    maskOff bit
    ask (.setUnclaimed bit)
    ask (.scheduleDelayedWork .mvUnclaimedWork 1)

def mv64340IrqDispatch : Code Bool := do
  let causeLow ← ask (.readl .mainCauseLow)
  let maskLow ← ask (.readl .cpu0MaskLow)
  let causeHigh ← ask (.readl .mainCauseHigh)
  let maskHigh ← ask (.readl .cpu0MaskHigh)
  match pick (causeLow &&& maskLow) (causeHigh &&& maskHigh) with
  | none => pure false
  | some bit => do
    dispatchBit bit
    pure true

/-- the loop of `mv64340_cascade_runaway` over the lines that are left -/
def runawayLoop (pending : BitVec 32) : List (Fin 8) → Code Unit
  | [] => pure ()
  | ip :: ips => do
    if pending &&& 1#32 <<< (causebIP + ip.val) = 0 then
      runawayLoop pending ips
    else do
      ask (.clearC0Status (1#32 <<< (statusbIP0 + ip.val)))
      ask (.setRunaway ip.val)
      runawayLoop pending ips

/-- the lines that are no software interrupt and not the timer -/
def cascadeLines : List (Fin 8) := [2, 3, 4, 5, 6]

def mv64340CascadeRunaway (pending : BitVec 32) : Code Unit := runawayLoop pending cascadeLines

/-- `plat_irq_dispatch` from where `pending` is known -/
def dispatchPending (pending : BitVec 32) : Code Unit :=
  if pending &&& causefIP 7 ≠ 0 then
    ask (.doIRQ (mipsCpuIrqBase + 7))
  else if pending &&& (causefIP 6 ||| causefIP 5 ||| causefIP 4 ||| causefIP 3 ||| causefIP 2)
      ≠ 0 then do
    let served ← mv64340IrqDispatch
    if served then pure () else mv64340CascadeRunaway pending
  else
    ask .spuriousInterrupt

def platIrqDispatch : Code Unit := do
  let status ← ask .readC0Status
  let cause ← ask .readC0Cause
  dispatchPending (status &&& cause &&& st0IM)

/-! ## the machine -/

structure Machine where
  status : BitVec 32
  /-- the CP0 lines that the controller does not drive -/
  line : Fin 8 → Bool
  regs : MvReg → BitVec 32
  /-- `irq_has_action` -/
  actions : Nat → Bool
  mvUnclaimed : BitVec 64
  cascadeRunawayMask : BitVec 32
  scheduled : Work → Bool

namespace Machine

def asserted (s : Machine) (b : Fin 64) : Bool := (s.regs (causeReg b)).getLsbD (b % 32)
def unmasked (s : Machine) (b : Fin 64) : Bool := (s.regs (maskReg b)).getLsbD (b % 32)
def claimed (s : Machine) (b : Fin 64) : Bool := s.actions (c2811MvIrqBase + b)

/-- `Status.IM` -/
def enabled (s : Machine) (ip : Fin 8) : Bool := s.status.getLsbD (statusbIP0 + ip)

/-- some source is asserted and unmasked -/
def serviceable (s : Machine) : Bool := decide (∃ b, s.asserted b && s.unmasked b)

def clear (s : Machine) (set : BitVec 32) : Machine := { s with status := s.status &&& ~~~ set }
def write (s : Machine) (r : MvReg) (v : BitVec 32) : Machine :=
  { s with regs := fun q => if q = r then v else s.regs q }

end Machine

structure Wiring where
  /-- the CP0 line that follows the controller -/
  driven : Option (Fin 8)
  handler : Nat → Machine → Machine → Prop

def Wiring.level (w : Wiring) (s : Machine) (ip : Fin 8) : Bool :=
  if w.driven = some ip then s.serviceable else s.line ip

def access (w : Wiring) (s : Machine) : (o : Op) → Res o → Machine → Prop
  | .readC0Status, r, s' => r = s.status ∧ s' = s
  | .readC0Cause, r, s' =>
    (∀ ip : Fin 8, r.getLsbD (causebIP + ip) = w.level s ip) ∧ s' = s
  | .clearC0Status set, _, s' => s' = s.clear set
  | .readl r, v, s' => v = s.regs r ∧ s' = s
  | .writel v r, _, s' => s' = s.write r v
  | .irqHasAction irq, r, s' => r = s.actions irq ∧ s' = s
  | .doIRQ irq, _, s' => w.handler irq s s'
  | .spuriousInterrupt, _, s' => s' = s
  | .setUnclaimed bit, _, s' => s' = { s with mvUnclaimed := s.mvUnclaimed ||| 1#64 <<< bit }
  | .setRunaway ip, _, s' =>
    s' = { s with cascadeRunawayMask := s.cascadeRunawayMask ||| 1#32 <<< ip }
  | .scheduleDelayedWork k _, _, s' =>
    s' = { s with scheduled := fun j => if j = k then true else s.scheduled j }

/-- nothing outside moves -/
def held (s s' : Machine) : Prop := s' = s

/-- sources and lines come and go -/
structure Free (s s' : Machine) : Prop where
  status : s'.status = s.status
  mask : ∀ b, s'.regs (maskReg b) = s.regs (maskReg b)
  actions : s'.actions = s.actions

def env (w : Wiring) (drift : Machine → Machine → Prop) : Env Op Res Machine where
  rely := drift
  access := access w

end Irq
