import Relicnos.Interact.Exec
import Relicnos.Nm32a.TxRing

/-!
# The other side: eight CD2481 behind one acknowledge, and the rest of the kernel

`World` is everything the operations of `Nm32a.Card` act on, with history variables for what the
chips were sent and gave away (`sent`, `popped`), what the producers pushed (`prods`) and what
the tty layer got (`tty`).  Assigning `tx_head`, which only the activation of a port does, starts
the transmit history of that port anew: `prods` is emptied and `mark` is set.

A chip keeps its open service contexts as a stack.  An acknowledge pushes one, an EOIR of the
kind of the top context counts towards closing it, the data registers belong to the top context,
and `IER` and `COR2` are those of the granted channel inside a context and of the channel in
`CAR` outside.  Whatever a register read is not said to show is arbitrary.

The environment `card c` is taken from a configuration: which chips the FPGA may pick for an
acknowledge, how many EOIR writes a context may take, and what may happen between two
operations (`Cfg`).  `Cfg.rely` lets requests appear and vanish on every chip at any time.
-/

set_option linter.unusedVariables false

namespace Nm32a
open Interact

/-- an open service context -/
structure Ctx where
  kind : Kind
  chan : Fin 4
  /-- EOIR writes that it still takes to close it -/
  left : Nat
  /-- receive only: `Rvct` says good data -/
  good : Bool
  /-- receive only: the cause of an exception -/
  risr : UInt8
  /-- the characters `RFOC` offered when it was last read, if it was -/
  latched : Option Nat
  /-- characters read since -/
  took : Nat

/-- a receive service that is neither data nor a timeout -/
def Ctx.bad (x : Ctx) : Bool := !x.good && (x.risr &&& 0x80 = 0)

/-- a character that left the receive FIFO -/
structure Popped where
  bad : Bool
  byte : UInt8

/-- a byte written to the transmit data register -/
structure Sent where
  etc : Bool
  byte : UInt8

structure Chip where
  req : Kind → Fin 4 → Bool
  stack : List Ctx
  car : Fin 4
  ier : Fin 4 → UInt8
  cor2 : Fin 4 → UInt8
  fifo : Fin 4 → List UInt8
  popped : Fin 4 → List Popped
  sent : Fin 4 → List Sent

namespace Chip

/-- the context of kind `k` whose state the register of that kind shows -/
def openOf (c : Chip) (k : Kind) : Option Ctx := c.stack.find? fun x => x.kind = k

/-- the channel that `IER` and `COR2` address -/
def chanNow (c : Chip) : Fin 4 :=
  match c.stack with
  | x :: _ => x.chan
  | [] => c.car

/-- `TIR` (`k = tx`) or `RIR` (`k = rx`) reads `v` -/
def irShows (c : Chip) (k : Kind) (v : UInt8) : Prop :=
  match c.openOf k with
  | some x => v &&& 0xC0 = 0x40 ∧ chanOf v = x.chan ∧
      (k = .rx → (v &&& 0x0c = 0x0c ↔ x.good = true))
  | none => if ∃ y, c.req k y = true then v &&& 0x80 ≠ 0 else v &&& 0xC0 = 0

/-- a read of register `reg` answers `v` -/
def read (c : Chip) (reg : Reg) (v : UInt8) (c' : Chip) : Prop :=
  match reg with
  | .TIR => c' = c ∧ c.irShows .tx v
  | .RIR => c' = c ∧ c.irShows .rx v
  | .STK => c' = c ∧ (c.stack ≠ [] → v &&& 0x81 ≠ 0)
  | .RISRl => c' = c ∧ ∀ x rest, c.stack = x :: rest → x.kind = .rx → v = x.risr
  | .RFOC =>
    match c.stack with
    | x :: rest => (x.kind = .rx → (v &&& 0x1f).toNat ≤ (c.fifo x.chan).length) ∧
        c' = { c with stack := { x with latched := some (v &&& 0x1f).toNat, took := 0 } :: rest }
    | [] => c' = c
  | .RDR =>
    match c.stack with
    | x :: rest =>
      if x.kind = .rx then
        match c.fifo x.chan with
        | b :: q => v = b ∧ c' = { c with
            stack := { x with took := x.took + 1 } :: rest
            fifo := Function.update c.fifo x.chan q
            popped := Function.update c.popped x.chan (c.popped x.chan ++ [⟨x.bad, b⟩]) }
        | [] => c' = c
      else c' = c
    | [] => c' = c
  | _ => c' = c

/-- what a read never changes -/
theorem read_same {c c' : Chip} {reg : Reg} {v : UInt8} (hr : c.read reg v c') :
    c'.sent = c.sent ∧ c'.cor2 = c.cor2 ∧ c'.ier = c.ier := by
  cases reg
  case RFOC =>
    simp only [Chip.read] at hr
    split at hr
    · rw [hr.2]
      exact ⟨rfl, rfl, rfl⟩
    · rw [hr]
      exact ⟨rfl, rfl, rfl⟩
  case RDR =>
    simp only [Chip.read] at hr
    repeat' split at hr
    · rw [hr.2]
      exact ⟨rfl, rfl, rfl⟩
    all_goals
      rw [hr]
      exact ⟨rfl, rfl, rfl⟩
  case TIR => exact hr.1 ▸ ⟨rfl, rfl, rfl⟩
  case RIR => exact hr.1 ▸ ⟨rfl, rfl, rfl⟩
  case STK => exact hr.1 ▸ ⟨rfl, rfl, rfl⟩
  case RISRl => exact hr.1 ▸ ⟨rfl, rfl, rfl⟩
  all_goals exact (show c' = c from hr) ▸ ⟨rfl, rfl, rfl⟩

/-- an EOIR of kind `k` -/
def eoir (c : Chip) (k : Kind) : Chip :=
  match c.stack with
  | x :: rest =>
    if x.kind = k then
      { c with stack := if x.left ≤ 1 then rest else { x with left := x.left - 1 } :: rest }
    else c
  | [] => c

/-- `ETC` of a channel -/
def etc (c : Chip) (chan : Fin 4) : Bool := c.cor2 chan &&& 0x20 ≠ 0

/-- a write of register `reg` -/
def write (c : Chip) (reg : Reg) (v : UInt8) : Chip :=
  match reg with
  | .CAR => { c with car := chanOf v }
  | .IER => { c with ier := Function.update c.ier c.chanNow v }
  | .COR2 => { c with cor2 := Function.update c.cor2 c.chanNow v }
  | .TDR =>
    match c.stack with
    | x :: _ =>
      if x.kind = .tx then
        { c with sent := Function.update c.sent x.chan (c.sent x.chan ++ [⟨c.etc x.chan, v⟩]) }
      else c
    | [] => c
  | .REOIR => c.eoir .rx
  | .TEOIR => c.eoir .tx
  | _ => c

/-- channel `x` has the request of kind `k` that an acknowledge at `addr` grants; at the common
address receive outranks transmit -/
def Wins (c : Chip) (addr : Nat) (k : Kind) (x : Fin 4) : Prop :=
  c.req k x = true ∧ (addr = 0 → k = .tx → ∀ y, c.req .rx y = false)

/-- the acknowledged request is no longer waiting, and its context is open -/
def grant (c : Chip) (x : Ctx) : Chip :=
  { c with
    req := fun k y => c.req k y && !(k = x.kind && y = x.chan)
    stack := x :: c.stack }

end Chip

/-! ## ports -/

/-- what a producer pushed: the bytes a write took, or a break command -/
inductive Prod where
  | write (taken : List UInt8)
  | brk (state : Bool)

/-- the tokens it means -/
def Prod.tokens : Prod → List Token
  | .write taken => taken.map escape
  | .brk state => [breakToken state]

/-- a port with its lock, and the history of its two ends -/
structure Line where
  np : Port
  locked : Bool
  prods : List Prod
  tty : List UInt8
  /-- how many bytes had been sent on the channel when `prods` was emptied -/
  mark : Nat

def Line.tokens (l : Line) : List Token := l.prods.flatMap Prod.tokens

/-- one producer takes `np->lock`, does its critical section and gives it back -/
inductive Line.Produce : Line → Line → Prop
  | write (l : Line) (buf : List UInt8) (h : l.locked = false) :
      Produce l { l with
        np := (nm32aTtyWriteLocked l.np buf).1
        prods := l.prods ++ [.write (buf.take (nm32aTtyWriteLocked l.np buf).2)] }
  | breakCtl (l : Line) (state : Bool) (h : l.locked = false) :
      Produce l { l with
        np := breakPut l.np state
        prods := l.prods ++ if 2 ≤ nm32aTxSpace l.np then [.brk state] else [] }
  | sendbreakStart (l : Line) (h : l.locked = false) :
      Produce l { l with
        np := (sendbreakStart l.np).1
        prods := l.prods ++ if 2 ≤ nm32aTxSpace l.np then [.brk true] else [] }
  | sendbreakStop (l : Line) (h : l.locked = false) :
      Produce l { l with
        np := sendbreakStop l.np
        prods := l.prods ++ if 2 ≤ nm32aTxSpace l.np then [.brk false] else [] }
  | sendbreakDone (l : Line) (wasOpen : Bool) (h : l.locked = false) :
      Produce l { l with np := sendbreakDone wasOpen l.np }

/-- any number of critical sections of producers -/
def Line.Produces : Line → Line → Prop := Relation.ReflTransGen Line.Produce

/-! ## the world -/

structure World where
  hw : Fin 8 → Chip
  line : Fin 32 → Line
  par : Params
  jif : UInt32
  held : Bool
  /-- the chip whose registers were read last: the one being serviced -/
  serving : Fin 8
  /-- what the latest acknowledge granted -/
  granted : Option (Fin 8 × Kind × Fin 4)

namespace World

def setChip (w : World) (j : Fin 8) (c : Chip) : World := { w with hw := Function.update w.hw j c }
def setLine (w : World) (i : Fin 32) (l : Line) : World :=
  { w with line := Function.update w.line i l }

/-- everything the chip was sent on the channel of port `i` -/
def sentOn (w : World) (i : Fin 32) : List Sent := (w.hw (chipOf i)).sent (chanIx i)

/-- an assignment to a field of port `i` -/
def assign (w : World) (i : Fin 32) : PortField → Line
  | .head v => { w.line i with
      np := (PortField.head v).set (w.line i).np
      prods := []
      mark := (w.sentOn i).length }
  | f => { w.line i with np := f.set (w.line i).np }

/-- no service context is open on any chip -/
def Closed (w : World) : Prop := ∀ j, (w.hw j).stack = []

end World

/-- what an environment is free to do -/
structure Cfg where
  /-- chips that the FPGA may pick for an acknowledge -/
  pick : World → Fin 8 → Prop
  /-- chips that may raise requests -/
  raises : Fin 8 → Prop
  /-- what other flows of control may do to a port between two operations -/
  line : Line → Line → Prop
  /-- parameter values that may be set at any time -/
  par : Params → Prop
  /-- EOIR writes that close a context, at most -/
  eoirs : Nat

namespace Cfg
variable (c : Cfg)

/-- requests appear and vanish, characters arrive, other flows of control touch ports and
parameters, time passes -/
structure rely (w w' : World) : Prop where
  chip : ∀ j, ∃ (req : Kind → Fin 4 → Bool) (more : Fin 4 → List UInt8),
    (∀ k x, req k x = true → c.raises j) ∧
      w'.hw j = { w.hw j with req := req, fifo := fun x => (w.hw j).fifo x ++ more x }
  line : ∀ i, c.line (w.line i) (w'.line i)
  par : c.par w'.par
  held : w'.held = w.held
  serving : w'.serving = w.serving
  granted : w'.granted = w.granted

/-- what the interference leaves behind before every operation -/
def Ready (w : World) : Prop := c.par w.par ∧ ∀ i k x, (w.hw i).req k x = true → c.raises i

variable {c} in
theorem rely.ready {w w' : World} (h : c.rely w w') : c.Ready w' := by
  refine ⟨h.par, ?_⟩
  intro i k x hq
  obtain ⟨req, more, hr, he⟩ := h.chip i
  rw [he] at hq
  exact hr k x hq

variable {c} in
/-- nothing may happen between two operations -/
theorem Ready.rely_refl {w : World} (h : c.Ready w) (hl : ∀ l, c.line l l) : c.rely w w where
  chip j := ⟨(w.hw j).req, fun _ => [], h.2 j, by simp⟩
  line i := hl _
  par := h.1
  held := rfl
  serving := rfl
  granted := rfl

/-- the acknowledge read: no chip that may be picked has a request and nothing is granted, or
one of them grants the request that wins -/
inductive Ack (addr : Nat) (w : World) : World → Prop
  | nothing (h : ∀ j, c.pick w j → ∀ k x, (w.hw j).req k x = false) :
      Ack addr w { w with granted := none }
  | grant (j : Fin 8) (x : Ctx) (hj : c.pick w j) (hx : (w.hw j).Wins addr x.kind x.chan)
      (hl : 1 ≤ x.left ∧ x.left ≤ c.eoirs) (h0 : x.latched = none ∧ x.took = 0) :
      Ack addr w { w.setChip j ((w.hw j).grant x) with granted := some (j, x.kind, x.chan) }

def access (w : World) : (o : Op) → Res o → World → Prop
  | .crd j reg, v, w' => ∃ c', (w.hw j).read reg v c' ∧ w' = { w.setChip j c' with serving := j }
  | .cwr j reg v, _, w' => w' = w.setChip j ((w.hw j).write reg v)
  | .readb addr, _, w' => c.Ack addr w w'
  | .lock, _, w' => w' = { w with held := true }
  | .unlock, _, w' => w' = { w with held := false }
  | .spinLock i, _, w' => w' = w.setLine i { w.line i with locked := true }
  | .spinUnlock i, _, w' => w' = w.setLine i { w.line i with locked := false }
  | .port i, np, w' => np = (w.line i).np ∧ w' = w
  | .setPort i f, _, w' => w' = w.setLine i (w.assign i f)
  | .params, p, w' => p = w.par ∧ w' = w
  | .traceDec, _, w' => w' = { w with par := { w.par with trace := w.par.trace - 1 } }
  | .jiffies, t, w' => t = w.jif ∧ w' = w
  | .ratelimit, _, w' => w' = w
  | .flip i bs, _, w' => w' = w.setLine i { w.line i with tty := (w.line i).tty ++ bs }
  | .shouldStop, _, w' => w' = w
  | .hang, _, _ => False

def card : Env Op Res World where
  rely := c.rely
  access := c.access

end Cfg
end Nm32a
