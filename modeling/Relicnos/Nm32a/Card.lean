import Relicnos.Interact.Prog
import Relicnos.Interact.RingBuf

/-!
# The card as the driver sees it: registers, ports, parameters and operations

`nm32a.c` touches the world through register reads and writes, the acknowledge read, its two
kinds of lock, the fields of `struct nm32a_port`, the module parameters, `jiffies` and the tty
layer.  Each of these is one operation `Op`, and a driver function is a program over them.

Left out: delays and scheduling points, the statistics counters (`st_*`) and the texts of the
messages, which no function reads back.  What a message itself reads from the chip is kept: a
rate-limited message first asks `ratelimit`.
-/

namespace Nm32a
open Interact

/-- the two kinds of service the driver enables; modem services never are -/
inductive Kind where
  | rx
  | tx
  deriving DecidableEq, Repr

/-- chip registers, under their names in the source -/
inductive Reg where
  | AIRL | AIRM | AIRH | MTCR | BTCR | RPILR | TPILR
  | GFRCR | CAR | TPR | RTPRh | RTPRl
  | CMR | COR1 | COR2 | COR3 | COR4 | COR5 | COR6 | COR7 | STCR | CCR | CSR | LIVR | IER
  | TCOR | TBPR | RCOR | RBPR
  | STK | TFTC | RFOC | RIR | TIR | RDR | TDR | RISRl | MSVR_RTS | MSVR_DTR | REOIR | TEOIR
  deriving DecidableEq, Repr

/-- the address of a register in the window of its chip (Motorola column) -/
def Reg.addr : Reg → UInt8
  | .AIRL => 0xF2 | .AIRM => 0xF3 | .AIRH => 0xF0 | .MTCR => 0xF1 | .BTCR => 0xF6
  | .RPILR => 0xE1 | .TPILR => 0xE0
  | .GFRCR => 0x81 | .CAR => 0xEE | .TPR => 0xDA | .RTPRh => 0x24 | .RTPRl => 0x25
  | .CMR => 0x1B | .COR1 => 0x10 | .COR2 => 0x17 | .COR3 => 0x16 | .COR4 => 0x15
  | .COR5 => 0x14 | .COR6 => 0x18 | .COR7 => 0x07 | .STCR => 0x12 | .CCR => 0x13
  | .CSR => 0x1A | .LIVR => 0x09 | .IER => 0x11
  | .TCOR => 0xC0 | .TBPR => 0xC3 | .RCOR => 0xC8 | .RBPR => 0xCB
  | .STK => 0xE2 | .TFTC => 0x80 | .RFOC => 0x30 | .RIR => 0xED | .TIR => 0xEC
  | .RDR => 0xF8 | .TDR => 0xF8 | .RISRl => 0x89 | .MSVR_RTS => 0xDE | .MSVR_DTR => 0xDF
  | .REOIR => 0x84 | .TEOIR => 0x85

def Reg.all : List Reg :=
  [.AIRL, .AIRM, .AIRH, .MTCR, .BTCR, .RPILR, .TPILR,
    .GFRCR, .CAR, .TPR, .RTPRh, .RTPRl, .CMR, .COR1, .COR2, .COR3, .COR4, .COR5, .COR6, .COR7,
    .STCR, .CCR, .CSR, .LIVR, .IER, .TCOR, .TBPR, .RCOR, .RBPR, .STK, .TFTC, .RFOC, .RIR, .TIR,
    .RDR, .TDR, .RISRl, .MSVR_RTS, .MSVR_DTR, .REOIR, .TEOIR]

theorem Reg.mem_all (a : Reg) : a ∈ Reg.all := by cases a <;> decide

/-- names stand for addresses: only the data registers share one, and `RDR` is only read and
`TDR` only written -/
theorem Reg.addr_inj (a b : Reg) (h : a.addr = b.addr) :
    a = b ∨ (a = .RDR ∧ b = .TDR) ∨ (a = .TDR ∧ b = .RDR) := by
  have hall : ∀ a ∈ Reg.all, ∀ b ∈ Reg.all, a.addr = b.addr →
      a = b ∨ (a = .RDR ∧ b = .TDR) ∨ (a = .TDR ∧ b = .RDR) := by decide +kernel
  exact hall a a.mem_all b b.mem_all h

/-- `NM32A_TXBUF` -/
def txbuf : Nat := 1024

/-- `struct nm32a_port`, without its links to the tty layer and to the card -/
structure Port where
  opened : Bool
  tx : Nat → UInt8
  head : Nat
  tail : Nat
  errWin : UInt32
  errCnt : UInt32
  rxOff : Bool

/-- an assignment to one field of a port -/
inductive PortField where
  | opened (b : Bool)
  | head (v : Nat)
  | tail (v : Nat)
  | errWin (v : UInt32)
  | errCnt (v : UInt32)
  | rxOff (b : Bool)

def PortField.set : PortField → Port → Port
  | .opened b, np => { np with opened := b }
  | .head v, np => { np with head := v }
  | .tail v, np => { np with tail := v }
  | .errWin v, np => { np with errWin := v }
  | .errCnt v, np => { np with errCnt := v }
  | .rxOff b, np => { np with rxOff := b }

/-- fields other than the two indices of the ring -/
def PortField.Light : PortField → Prop
  | .head _ => False
  | .tail _ => False
  | _ => True

/-- the module parameters that decide what is read or written -/
structure Params where
  pilr : Int
  eoiretry : Int
  trace : Int
  burst : Int
  rxthresh : Int
  llm : Int
  fsel : Int
  fbpr : Int
  frsel : Int
  frbpr : Int
  deriving DecidableEq

/-- the values the source initialises them with -/
def Params.default : Params where
  pilr := 0
  eoiretry := 1
  trace := 0
  burst := 32
  rxthresh := 1
  llm := 0
  fsel := -1
  fbpr := -1
  frsel := -1
  frbpr := -1

/-- one step of the driver on the world outside its local variables -/
inductive Op where
  | crd (chip : Fin 8) (reg : Reg)
  | cwr (chip : Fin 8) (reg : Reg) (v : UInt8)
  | readb (addr : Nat)
  | lock
  | unlock
  | spinLock (i : Fin 32)
  | spinUnlock (i : Fin 32)
  | port (i : Fin 32)
  | setPort (i : Fin 32) (f : PortField)
  | params
  | traceDec
  | jiffies
  | ratelimit
  | flip (i : Fin 32) (bs : List UInt8)
  | shouldStop
  | hang

/-- what an operation answers; `hang` never does -/
def Res : Op → Type
  | .crd _ _ => UInt8
  | .readb _ => UInt8
  | .port _ => Port
  | .params => Params
  | .jiffies => UInt32
  | .ratelimit => Bool
  | .shouldStop => Bool
  | .hang => Empty
  | _ => Unit

/-- a driver function -/
abbrev Drv (α : Type) := Prog Op Res α

/-! ## the operations under the source's words -/

def issue (o : Op) : Drv (Res o) := Prog.call o

def crd (chip : Fin 8) (reg : Reg) : Drv UInt8 := issue (.crd chip reg)
def cwr (chip : Fin 8) (reg : Reg) (v : UInt8) : Drv Unit := issue (.cwr chip reg v)
def rawReadb (addr : Nat) : Drv UInt8 := issue (.readb addr)
def hwLock : Drv Unit := issue .lock
def hwUnlock : Drv Unit := issue .unlock
def spinLock (i : Fin 32) : Drv Unit := issue (.spinLock i)
def spinUnlock (i : Fin 32) : Drv Unit := issue (.spinUnlock i)
def portAt (i : Fin 32) : Drv Port := issue (.port i)
def setPort (i : Fin 32) (f : PortField) : Drv Unit := issue (.setPort i f)
def params : Drv Params := issue .params
def traceDec : Drv Unit := issue .traceDec
def jiffies : Drv UInt32 := issue .jiffies
def ratelimit : Drv Bool := issue .ratelimit
/-- `tty_insert_flip_string` and `tty_flip_buffer_push` -/
def flip (i : Fin 32) (bs : List UInt8) : Drv Unit := issue (.flip i bs)
def kthreadShouldStop : Drv Bool := issue .shouldStop
/-- a loop that is still going where the run is cut -/
def hang {α : Type} : Drv α := .op .hang fun e => nomatch e

/-! ## numbering -/

/-- `x & 3` as a channel -/
def chanOf (v : UInt8) : Fin 4 := ⟨(v &&& 3).toNat, by
  rw [UInt8.toNat_and]
  exact Nat.lt_of_le_of_lt Nat.and_le_right (by decide)⟩

theorem chanOf_ofNat (x : Fin 4) : chanOf (UInt8.ofNat x.val) = x := by
  revert x
  decide

/-- `chip * 4 + chan` -/
def portIx (chip : Fin 8) (chan : Fin 4) : Fin 32 := ⟨chip.val * 4 + chan.val, by omega⟩

/-- `np->chip` and `np->chan` of port `i`, as `nm32a_tty_setup` fills them in -/
def chipOf (i : Fin 32) : Fin 8 := ⟨i.val / 4, by omega⟩
def chanIx (i : Fin 32) : Fin 4 := ⟨i.val % 4, by omega⟩

theorem chipOf_portIx (chip : Fin 8) (chan : Fin 4) : chipOf (portIx chip chan) = chip := by
  apply Fin.ext
  show (chip.val * 4 + chan.val) / 4 = chip.val
  omega

theorem chanIx_portIx (chip : Fin 8) (chan : Fin 4) : chanIx (portIx chip chan) = chan := by
  apply Fin.ext
  show (chip.val * 4 + chan.val) % 4 = chan.val
  omega

theorem portIx_chipOf (i : Fin 32) : portIx (chipOf i) (chanIx i) = i := by
  apply Fin.ext
  show i.val / 4 * 4 + i.val % 4 = i.val
  omega

end Nm32a
