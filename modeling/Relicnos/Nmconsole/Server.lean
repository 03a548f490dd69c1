import Mathlib.Data.Fintype.Basic
import Relicnos.Nmconsole.Posix
import Relicnos.Nmconsole.Telnet

/-!
# The console server

Every definition is one function of `nmconsole.c`, or a named part of its `main`.  The body of
the loop over the ports is cut at its three comments: `newClient`, `netToSerial` and
`serialToNet`.  A descriptor that is -1 is `none`.

`main` runs for ever.  `nmMain conf n` is its start and `n` turns of its loop, and answers the
ports as they are then, or `none` if it has returned.
-/

namespace Nmconsole
open Interact

/-- `MAXP` -/
def maxp : Nat := 32

instance : NeZero maxp := ⟨by decide⟩

/-- what the arguments and the speed table leave behind -/
structure Conf where
  nports : Int
  basePort : Int
  speed : Int
  rawMode : Bool
  portSpeed : Fin maxp → Int

/-- `struct port` -/
structure Port where
  listenFd : Option Nat
  clientFd : Option Nat
  ttyFd : Option Nat
  tcpPort : Int

abbrev Ports := Fin maxp → Port

/-- the ports below `nports` -/
def Conf.indices (conf : Conf) : List (Fin maxp) :=
  (List.finRange maxp).filter fun i => (i.val : Int) < min conf.nports maxp

/-! ## opening -/

def toSpeed (b : Int) : Nat :=
  ([1200, 2400, 4800, 9600, 19200, 38400, 57600, 115200].find? fun (r : Nat) => (r : Int) = b).getD
    9600

/-- a port without a speed of its own has the global one -/
def Conf.speedOf (conf : Conf) (n : Fin maxp) : Int :=
  if 0 < conf.portSpeed n then conf.portSpeed n else conf.speed

def setSpeed (conf : Conf) (n : Fin maxp) (fd : Nat) : Posix Unit := do
  if ← tcgetattr fd then
    tcsetattr fd (toSpeed (conf.speedOf n))

def openTty (conf : Conf) (n : Fin maxp) : Posix (Option Nat) := do
  match ← openDev n.val with
  | none => return none
  | some fd =>
    setSpeed conf n fd
    return some fd

/-- `bind`, then `listen`; `htons` keeps the low half of the port -/
def bindListen (fd : Nat) (tcpPort : Int) : Posix Bool := do
  if ← bind fd (tcpPort % 2^16).toNat then
    listen fd
  else
    return false

def listenOn (tcpPort : Int) : Posix (Option Nat) := do
  match ← socket with
  | none => return none
  | some fd =>
    setsockopt fd
    if ← bindListen fd tcpPort then
      return some fd
    else
      close fd
      return none

/-- the static array before `main` -/
def Port.zero : Port := ⟨some 0, some 0, some 0, 0⟩

def setupPorts (conf : Conf) : List (Fin maxp) → Ports → Posix Ports
  | [], ps => pure ps
  | i :: is, ps => do
    let fd ← listenOn (conf.basePort + i.val)
    setupPorts conf is (Function.update ps i ⟨fd, none, none, conf.basePort + i.val⟩)

/-! ## what goes between the client and the tty -/

/-- what `telnet_filter` does besides editing the buffer -/
def runActs (client tty : Nat) : List Act → Posix Unit
  | [] => pure ()
  | .reply bytes :: acts => do
    let _ ← write client bytes
    runActs client tty acts
  | .sendBreak :: acts => do
    tcsendbreak tty
    runActs client tty acts

/-- the staging buffer of `telnet_write` -/
def outSize : Nat := 1024

/-- the buffers that `telnet_write` hands over, the bytes `out` being staged -/
def telnetBufs (out : List UInt8) : List UInt8 → List (List UInt8)
  | [] => if out = [] then [] else [out]
  | c :: bs =>
    let out := out ++ [c]
    let out := if c = IAC ∧ out.length < outSize then out ++ [IAC] else out
    if outSize - 1 ≤ out.length then out :: telnetBufs [] bs else telnetBufs out bs

def writeAll (fd : Nat) : List (List UInt8) → Posix Unit
  | [] => pure ()
  | b :: bufs => do
    let _ ← write fd b
    writeAll fd bufs

def telnetWrite (fd : Nat) (bs : List UInt8) : Posix Unit := writeAll fd (telnetBufs [] bs)

/-! ## one port in one turn -/

/-- character at a time, we echo -/
def hello : List UInt8 := [IAC, WILL, OPT_ECHO, IAC, WILL, OPT_SGA, IAC, DO, OPT_SGA]

def text (s : String) : List UInt8 := s.toList.map fun c => UInt8.ofNat c.toNat

def cannotOpen (i : Fin maxp) : List UInt8 :=
  text "cannot open /dev/ttyNM" ++ text (toString i.val) ++ text "\r\n"

def sayHello (conf : Conf) (c : Nat) : Posix Unit := do
  if !conf.rawMode then
    let _ ← write c hello

/-- the rest of a connection that has been accepted -/
def greet (conf : Conf) (i : Fin maxp) (p : Port) (c : Nat) : Posix Port := do
  setsockopt c
  match ← openTty conf i with
  | none =>
    let _ ← write c (cannotOpen i)
    close c
    return { p with clientFd := none, ttyFd := none }
  | some t =>
    sayHello conf c
    return { p with clientFd := some c, ttyFd := some t }

def newClient (conf : Conf) (i : Fin maxp) (r : FdSet) (p : Port) : Posix Port :=
  match p.listenFd, p.clientFd with
  | some l, none =>
    if r l then do
      match ← accept l with
      | none => return p
      | some c => greet conf i p c
    else pure p
  | _, _ => pure p

def closeTty (p : Port) : Posix Unit :=
  match p.ttyFd with
  | some t => close t
  | none => pure ()

/-- the client is gone -/
def hangup (p : Port) (c : Nat) : Posix Port := do
  close c
  closeTty p
  return { p with clientFd := none, ttyFd := none }

/-- a buffer on its way to the tty: as it is, or through the filter -/
def Conf.toTty (conf : Conf) (bs : List UInt8) : Filtered :=
  if conf.rawMode then ⟨bs, []⟩ else filtered true bs

/-- what the client sent goes to the tty -/
def relay (conf : Conf) (c t : Nat) (bs : List UInt8) : Posix Unit := do
  runActs c t (conf.toTty bs).acts
  if (conf.toTty bs).data ≠ [] then
    let _ ← write t (conf.toTty bs).data

def passOn (conf : Conf) (p : Port) (c : Nat) (bs : List UInt8) : Posix Unit :=
  match p.ttyFd with
  | some t => relay conf c t bs
  | none => pure ()

def netToSerial (conf : Conf) (r : FdSet) (p : Port) : Posix Port :=
  match p.clientFd with
  | none => pure p
  | some c =>
    if r c then do
      match ← read c bufSize with
      | none => hangup p c
      | some [] => hangup p c
      | some bs =>
        passOn conf p c bs
        return p
    else pure p

def serialToNet (conf : Conf) (r : FdSet) (p : Port) : Posix Unit :=
  match p.ttyFd with
  | none => pure ()
  | some t =>
    if r t then do
      match ← read t bufSize, p.clientFd with
      | some (b :: bs), some c =>
        if conf.rawMode then
          let _ ← write c (b :: bs)
        else
          telnetWrite c (b :: bs)
      | _, _ => pure ()
    else pure ()

def visit (conf : Conf) (i : Fin maxp) (r : FdSet) (p : Port) : Posix Port := do
  let p ← newClient conf i r p
  let p ← netToSerial conf r p
  serialToNet conf r p
  return p

/-! ## the loop -/

def pass (conf : Conf) (r : FdSet) : List (Fin maxp) → Ports → Posix Ports
  | [], ps => pure ps
  | i :: is, ps => do
    let p ← visit conf i r (ps i)
    pass conf r is (Function.update ps i p)

/-- the descriptors of a port that go into the set -/
def Port.watched (p : Port) : List Nat :=
  (if p.clientFd = none then p.listenFd.toList else []) ++ p.clientFd.toList ++ p.ttyFd.toList

def Conf.watched (conf : Conf) (ps : Ports) : List Nat :=
  conf.indices.flatMap fun i => (ps i).watched

def turn (conf : Conf) (ps : Ports) : Posix (Option Ports) := do
  match (conf.watched ps).max? with
  | none =>
    sleep
    return some ps
  | some max =>
    match ← select (max + 1) fun fd => decide (fd ∈ conf.watched ps) with
    | .eintr => return some ps
    | .failed => return none
    | .ready r => return some (← pass conf r conf.indices ps)

def turns (conf : Conf) : Nat → Ports → Posix (Option Ports)
  | 0, ps => pure (some ps)
  | n + 1, ps => do
    match ← turn conf ps with
    | none => return none
    | some ps => turns conf n ps

def nmMain (conf : Conf) (n : Nat) : Posix (Option Ports) := do
  let ps ← setupPorts conf conf.indices fun _ => .zero
  turns conf n ps

end Nmconsole
