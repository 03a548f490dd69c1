import Relicnos.Interact.Lanes
import Relicnos.Interact.Says

/-!
# Enumerating the buses from user space

`tools/nm32a/pciscan.c` reads the configuration space of both interfaces of the host bridge through
a mapping of its registers.

* `cfgRead`, `cfgWrite`   one access, with the read that pushes the address out;
* `showDev`               what is reported of one function;
* `sweepBus`              the walk of one interface through all bus numbers;
* `pciscanMain`           the tool.

`flushp` says if the CPLD could be mapped; the tool goes on without it.

Left out: the mappings themselves, parsing the arguments, and the fixed texts of what is printed.
-/

namespace Pciscan
open Interact

/-- a register of the bridge; `busIf` says which interface it belongs to -/
inductive Reg where
  /-- `0xcf8`, `0xc78` -/
  | configAddr (busIf : Bool)
  /-- `0xcfc`, `0xc7c` -/
  | configData (busIf : Bool)
  /-- `0xc00`, `0xc80` -/
  | cmd (busIf : Bool)
  /-- `0x1d14`, `0x1d94` -/
  | p2pConfig (busIf : Bool)
  /-- `0x004` -/
  | causeLow
  /-- `0x00c` -/
  | causeHigh
  deriving DecidableEq

/-- what is printed, as the values it is made of -/
inductive Line where
  | noFlush
  | localBus (b0 b1 : UInt32)
  | iface (busIf : Bool) (cmd p2p : UInt32)
  | cause (lo hi : UInt32)
  | probe (busIf : Bool) (bus v before after rma : UInt32)
  | abortFlag (b : Bool)
  | dev (busIf : Bool) (bus dev fn vendor device cls : UInt32) (name : String) (hdr : UInt32)
  | io (i : Nat) (a : UInt32)
  | mem (i : Nat) (a : UInt32) (prefetch : Bool)
  | irq (v : UInt32)
  | sweeping (busIf : Bool)
  | found (b dev v : UInt32)
  | swept (found : Nat) (bus : UInt32)
  | card (busIf : Bool) (bus v : UInt32) (present : Bool)
  | cfg (bus dev fn reg v : UInt32)
  | command (cmd io mem master status : UInt32)
  | before (v : UInt32)
  | wrote (val now : UInt32)
  | bridge (bus before after : UInt32)
  | absent (bus dev id : UInt32)
  | verdict (before after : UInt32) (text : String)
  deriving DecidableEq

inductive Op where
  | load (r : Reg)
  | store (r : Reg) (v : UInt32)
  /-- the halfword read of the CPLD, through its own mapping -/
  | flush
  | print (l : Line)

abbrev Res : Op → Type
  | .load _ => UInt32
  | .store _ _ => Unit
  | .flush => Unit
  | .print _ => Unit

abbrev Tool (α : Type) := Prog Op Res α

def issue (o : Op) : Tool (Res o) := Prog.call o

def load (r : Reg) : Tool UInt32 := issue (.load r)
def store (r : Reg) (v : UInt32) : Tool Unit := issue (.store r v)
def print (l : Line) : Tool Unit := issue (.print l)

/-- the registers are little-endian -/
def rd (r : Reg) : Tool UInt32 := return swab32 (← load r)
def wr (r : Reg) (v : UInt32) : Tool Unit := store r (swab32 v)

/-! ## accesses -/

def cfgAddr (bus dev fn reg : UInt32) : UInt32 :=
  (0x80000000 : UInt32) ||| (bus <<< 16) ||| (dev <<< 11) ||| (fn <<< 8) ||| (reg &&& 0xfc)

section
variable (flushp : Bool)

/-- what pushes the address out, if it is mapped -/
def flush : Tool Unit := if flushp then issue .flush else pure ()

/-- the data register is read twice, and the second read counts -/
def cfgRead (busIf : Bool) (bus dev fn reg : UInt32) : Tool UInt32 := do
  wr (.configAddr busIf) (cfgAddr bus dev fn reg)
  flush flushp
  let _ ← load (.configData busIf)
  let v ← load (.configData busIf)
  return swab32 v

def cfgWrite (busIf : Bool) (bus dev fn reg val : UInt32) : Tool Unit := do
  wr (.configAddr busIf) (cfgAddr bus dev fn reg)
  flush flushp
  store (.configData busIf) (swab32 val)

end

def tookAbort : Tool Bool := do
  let lo ← rd .causeLow
  return lo &&& 0x00300000 != 0

/-! ## one function -/

def className (cls : UInt32) : String :=
  if cls >>> 16 = 0x0000 then "legacy"
  else if cls >>> 16 = 0x0001 then "storage"
  else if cls >>> 16 = 0x0002 then "network"
  else if cls >>> 16 = 0x0003 then "display"
  else if cls >>> 16 = 0x0004 then "multimedia"
  else if cls >>> 16 = 0x0006 then "bridge"
  else if cls >>> 16 = 0x0007 then "comm/serial"
  else if cls >>> 16 = 0x0008 then "system peripheral"
  else if cls >>> 16 = 0x000b then "processor"
  else if cls >>> 16 = 0x000c then "serial bus"
  else if cls >>> 16 = 0x000f then "encryption"
  else "?"

def barOf (bar : UInt32) (i : Nat) : List Line :=
  if bar = 0 ∨ bar = 0xffffffff then []
  else if bar &&& 1 ≠ 0 then [.io i (bar &&& ~~~3)]
  else [.mem i (bar &&& ~~~0xf) (bar &&& 8 != 0)]

section
variable (flushp : Bool)

def showDev (busIf : Bool) (bus dev fn : UInt32) : Tool Unit := do
  let id ← cfgRead flushp busIf bus dev fn 0x00
  if id = 0xffffffff ∨ id = 0 then return ()
  let cls ← cfgRead flushp busIf bus dev fn 0x08
  let hdr ← cfgRead flushp busIf bus dev fn 0x0c
  print (.dev busIf bus dev fn (id &&& 0xffff) (id >>> 16) (cls >>> 8) (className (cls >>> 8))
    ((hdr >>> 16) &&& 0x7f))
  if (hdr >>> 16) &&& 0x7f ≠ 0 then return ()
  Prog.each (fun i => do
    let bar ← cfgRead flushp busIf bus dev fn (0x10 + UInt32.ofNat i * 4)
    Prog.each print (barOf bar i)) (List.range 6)
  print (.irq (← cfgRead flushp busIf bus dev fn 0x3c))

/-! ## the tool -/

inductive Cmd where
  | scan (maxbus : Int)
  | sweepBus (busIf : Bool)
  | find (busIf : Bool)
  | cfgr (busIf : Bool) (bus dev fn reg : UInt32)
  | cfgw (busIf : Bool) (bus dev fn reg val : UInt32)
  | rma (busIf : Bool) (bus dev : UInt32)

/-- the loop over the functions from `fns` on; the first one says if there are more -/
def scanFns (busIf : Bool) (bus dev : UInt32) : List Nat → Tool Unit
  | [] => pure ()
  | fn :: fns => do
    showDev flushp busIf bus dev (UInt32.ofNat fn)
    if fn = 0 then
      let h ← cfgRead flushp busIf bus dev 0 0x0c
      if (h >>> 16) &&& 0x80 = 0 then return ()
    scanFns busIf bus dev fns

def scan (maxbus : Int) : Tool Unit :=
  Prog.each (fun busIf =>
    Prog.each (fun bus =>
      Prog.each (fun dev =>
        scanFns flushp busIf (UInt32.ofNat bus) (UInt32.ofNat dev) (List.range 8))
      (List.range 32))
    (List.range (maxbus + 1).toNat))
  [false, true]

/-- the devices 1 to 31 on the bus that has number `b` -/
def sweepDevs (busIf : Bool) (b : UInt32) : List Nat → Nat → Tool Nat
  | [], found => return found
  | dev :: devs, found => do
    let v ← cfgRead flushp busIf b (UInt32.ofNat dev) 0 0x00
    if v ≠ 0xffffffff ∧ v ≠ 0x00000000 then
      print (.found b (UInt32.ofNat dev) v)
      sweepDevs busIf b devs (found + 1)
    else
      sweepDevs busIf b devs found

def sweepBuses (busIf : Bool) (save : UInt32) : List Nat → Nat → Tool Nat
  | [], found => return found
  | b :: bs, found => do
    wr (.p2pConfig busIf) ((save &&& ~~~(0x00ff0000 : UInt32)) ||| (UInt32.ofNat b <<< 16))
    let found ← sweepDevs flushp busIf (UInt32.ofNat b) (List.range' 1 31) found
    sweepBuses busIf save bs found

def sweepBus (busIf : Bool) : Tool Unit := do
  let save ← rd (.p2pConfig busIf)
  cfgWrite flushp busIf ((save >>> 16) &&& 0xff) 0 0 0x04 0x02b00146
  print (.sweeping busIf)
  let found ← sweepBuses flushp busIf save (List.range 256) 0
  wr (.p2pConfig busIf) save
  print (.swept found ((save >>> 16) &&& 0xff))

/-- `--find`; the result is the exit status -/
def find (busIf : Bool) : Tool Nat := do
  let bus := ((← rd (.p2pConfig busIf)) >>> 16) &&& 0xff
  cfgWrite flushp busIf bus 0 0 0x04 0x02b00146
  let v ← cfgRead flushp busIf bus 1 0 0x00
  print (.card busIf bus v (v == 0x401310ee))
  return if v = 0x401310ee then 0 else 1

def rma (busIf : Bool) (bus dev : UInt32) : Tool Unit := do
  let before := (← cfgRead flushp busIf bus 0 0 0x04) >>> 16
  let id ← cfgRead flushp busIf bus dev 0 0x00
  let after := (← cfgRead flushp busIf bus 0 0 0x04) >>> 16
  print (.bridge bus before after)
  print (.absent bus dev id)
  print (.verdict ((before >>> 13) &&& 1) ((after >>> 13) &&& 1)
    (if before &&& 0xffff = 0xffff then "BRIDGE READ FAILED - result meaningless"
     else if (after >>> 13) &&& 1 ≠ 0 ∧ (before >>> 13) &&& 1 = 0 then
       "cycles REACH the bus; no device answered"
     else "no master abort recorded"))

/-- does a probe of an absent device leave its mark in the bridge's own status? -/
def probe (busIf : Bool) (bus : UInt32) : Tool Unit := do
  let before := (← cfgRead flushp busIf bus 0 0 0x04) >>> 16
  let v ← cfgRead flushp busIf bus 5 0 0x00
  let after := (← cfgRead flushp busIf bus 0 0 0x04) >>> 16
  print (.probe busIf bus v before after ((after >>> 13) &&& 1))

/-- what is said where the CPLD could not be mapped -/
def mapFlush : Tool Unit := if flushp then pure () else print .noFlush

/-- what every use begins with -/
def state : Tool Unit := do
  mapFlush flushp
  let b0 := ((← rd (.p2pConfig false)) >>> 16) &&& 0xff
  let b1 := ((← rd (.p2pConfig true)) >>> 16) &&& 0xff
  print (.localBus b0 b1)
  print (.iface false (← rd (.cmd false)) (← rd (.p2pConfig false)))
  print (.iface true (← rd (.cmd true)) (← rd (.p2pConfig true)))
  print (.cause (← rd .causeLow) (← rd .causeHigh))
  probe flushp false b0
  probe flushp true b1
  let _ ← cfgRead flushp false 0 5 0 0
  print (.abortFlag (← tookAbort))

def pciscanMain (cmd : Cmd) : Tool Nat := do
  state flushp
  match cmd with
  | .scan maxbus =>
    scan flushp maxbus
    return 0
  | .sweepBus busIf =>
    sweepBus flushp busIf
    return 0
  | .find busIf => find flushp busIf
  | .cfgr busIf bus dev fn reg =>
    let v ← cfgRead flushp busIf bus dev fn reg
    print (.cfg bus dev fn reg v)
    if reg = 4 then
      print (.command (v &&& 0xffff) (v &&& 1) ((v >>> 1) &&& 1) ((v >>> 2) &&& 1) (v >>> 16))
    return 0
  | .cfgw busIf bus dev fn reg val =>
    print (.before (← cfgRead flushp busIf bus dev fn reg))
    cfgWrite flushp busIf bus dev fn reg val
    print (.wrote val (← cfgRead flushp busIf bus dev fn reg))
    return 0
  | .rma busIf bus dev =>
    rma flushp busIf bus dev
    return 0

end
end Pciscan
