import Relicnos.Nm32a.Card
import Relicnos.Nm32a.TxRing

/-!
# The driver: channel bring-up, the service routine, the poll thread and the tty operations

Every definition is one function of `nm32a.c`, or a named part of one.  `nm32a_service` is cut
at its two decisions: `serviceGrant` is everything up to the point where the granted context is
known, and the four endings are `serviceTimeout`, `serviceException`, `serviceGood` and
`serviceTx`.

A loop that the code bounds by time or by another thread (`ccr_wait`, the poll thread) takes the
number of turns it is followed for; past that it is still going (`hang`).
-/

namespace Nm32a
open Interact

def etimedout : Int := 110
/-- `CONFIG_HZ` -/
def hz : UInt32 := 250
/-- `msecs_to_jiffies(CCR_WAIT_MS)` at that `HZ` -/
def ccrWaitJiffies : UInt32 := 63

def timeAfter (a b : UInt32) : Bool := 2^31 ≤ (b - a).toNat
def timeBefore (a b : UInt32) : Bool := timeAfter b a

/-! ## channel commands -/

/-- what the rate-limited message of `ccr_wait` reads -/
def ccrWarn (chip : Fin 8) : Drv Unit := do
  if ← ratelimit then
    let _ ← crd chip .CCR
    let _ ← crd chip .GFRCR

def ccrWaitLoop (chip : Fin 8) (stop : UInt32) : Nat → Drv Int
  | 0 => hang
  | n + 1 => do
    if (← crd chip .CCR) = 0 then
      return 0
    if timeBefore (← jiffies) stop then
      ccrWaitLoop chip stop n
    else
      ccrWarn chip
      return -etimedout

def ccrWait (turns : Nat) (chip : Fin 8) : Drv Int := do
  let now ← jiffies
  ccrWaitLoop chip (now + ccrWaitJiffies) turns

def ccrInitch : UInt8 := 0x20
def ccrEntx : UInt8 := 0x08
def ccrEnrx : UInt8 := 0x02

/-! ## bit rates -/

structure BaudRow where
  rate : Nat
  sel : UInt8
  bpr : UInt8

def nm32aBaud : List BaudRow :=
  [⟨1200, 2, 0xe3⟩, ⟨2400, 2, 0x71⟩, ⟨4800, 1, 0xe3⟩, ⟨9600, 1, 0x71⟩, ⟨19200, 1, 0x38⟩,
    ⟨38400, 0, 0x71⟩, ⟨57600, 0, 0x4b⟩, ⟨115200, 0, 0x25⟩]

/-- the row for 9600, which serves every rate the table does not have -/
def baudDefault : BaudRow := ⟨9600, 1, 0x71⟩

def baudRow (rate : Nat) : BaudRow := (nm32aBaud.find? fun row => row.rate = rate).getD baudDefault

theorem baudDefault_row : nm32aBaud[3]? = some baudDefault := rfl

/-- an `int` parameter that overrides a register value if it is not negative -/
def override (par : Int) (v : UInt8) : UInt8 := if 0 ≤ par then UInt8.ofNat par.toNat else v

def nm32aSetRate (chip : Fin 8) (rate : Nat) : Drv Unit := do
  let best := baudRow rate
  let sel := override (← params).fsel best.sel
  let bpr := override (← params).fbpr best.bpr
  cwr chip .TCOR ((sel <<< 5) ||| (if (← params).llm ≠ 0 then 0x02 else 0x00))
  cwr chip .TBPR bpr
  cwr chip .RCOR (override (← params).frsel sel)
  cwr chip .RBPR (override (← params).frbpr bpr)

def nm32aChanInit (turns : Nat) (chip : Fin 8) (chan : Fin 4) (rate : Nat) : Drv Unit := do
  cwr chip .CAR (UInt8.ofNat chan.val)
  cwr chip .LIVR 0x40
  nm32aSetRate chip rate
  cwr chip .CMR 0x02
  cwr chip .COR1 0x17
  cwr chip .COR2 0x00
  cwr chip .COR3 0x02
  cwr chip .COR4 (UInt8.ofNat ((← params).rxthresh % 16).toNat)
  cwr chip .RTPRh 0x00
  cwr chip .RTPRl 0x20
  cwr chip .COR5 0x00
  cwr chip .COR6 0x00
  cwr chip .COR7 0x00
  cwr chip .STCR 0x00
  cwr chip .TPR 0x40
  cwr chip .CCR ccrInitch
  let _ ← ccrWait turns chip
  cwr chip .CCR (ccrEntx ||| ccrEnrx)
  let _ ← ccrWait turns chip
  cwr chip .MSVR_RTS 0x01
  cwr chip .MSVR_DTR 0x02
  cwr chip .IER 0x29

/-! ## transmit interest -/

def armTxChan (chip : Fin 8) (c : Fin 4) : Drv Unit := do
  spinLock (portIx chip c)
  let np ← portAt (portIx chip c)
  let pending := np.opened && np.head ≠ np.tail
  spinUnlock (portIx chip c)
  if pending then
    cwr chip .CAR (UInt8.ofNat c.val)
    let np ← portAt (portIx chip c)
    cwr chip .IER (if np.rxOff then 0x01 else 0x29)
  else
    pure ()

def nm32aArmTx (chip : Fin 8) : Drv Unit := do
  hwLock
  armTxChan chip 0
  armTxChan chip 1
  armTxChan chip 2
  armTxChan chip 3
  hwUnlock

/-! ## the end of a service -/

def errLimit : UInt32 := 200

/-- a new accounting window if the old one is over -/
def errWindow (i : Fin 32) : Drv Unit := do
  let now ← jiffies
  let np ← portAt i
  if timeAfter now (np.errWin + hz) then
    let now ← jiffies
    setPort i (.errWin now)
    setPort i (.errCnt 0)
  else
    pure ()

def nm32aRxException (chip : Fin 8) (chan : Fin 4) : Drv Unit := do
  errWindow (portIx chip chan)
  let np ← portAt (portIx chip chan)
  setPort (portIx chip chan) (.errCnt (np.errCnt + 1))
  if np.errCnt + 1 ≠ errLimit ∨ np.rxOff then
    pure ()
  else
    setPort (portIx chip chan) (.rxOff true)
    cwr chip .CAR (UInt8.ofNat chan.val)
    cwr chip .IER 0x01

/-- it is about one port -/
theorem nm32aRxException_eq (k : Fin 32) : nm32aRxException (chipOf k) (chanIx k) = (do
    errWindow k
    let np ← portAt k
    setPort k (.errCnt (np.errCnt + 1))
    if np.errCnt + 1 ≠ errLimit ∨ np.rxOff then
      pure ()
    else
      setPort k (.rxOff true)
      cwr (chipOf k) .CAR (UInt8.ofNat (chanIx k).val)
      cwr (chipOf k) .IER 0x01) := by
  unfold nm32aRxException
  rw [portIx_chipOf]

/-- the retries of `nm32a_eoi` -/
def eoiLoop (chip : Fin 8) (reg : Reg) (val : UInt8) : Nat → Drv Unit
  | 0 => do
    if ← ratelimit then
      let _ ← crd chip .STK
  | n + 1 => do
    if (← crd chip .STK) &&& 0x81 = 0 then
      pure ()
    else
      cwr chip reg val
      eoiLoop chip reg val n

def nm32aEoi (chip : Fin 8) (reg : Reg) (val : UInt8) : Drv Unit := do
  cwr chip reg val
  if (← params).eoiretry = 0 then
    pure ()
  else
    eoiLoop chip reg val 100

/-! ## the service routine -/

def nm32aAckTx : Drv Nat := do return if (← params).pilr ≠ 0 then 0x001 else 0x000
def nm32aAckRx : Drv Nat := do return if (← params).pilr ≠ 0 then 0x002 else 0x000

/-- what `nm32a_service` knows once a context is granted: whether this pass is traced, and the
`tir0`, `rir0` it goes on with -/
structure Granted where
  tr : Bool
  tir0 : UInt8
  rir0 : UInt8

/-- the decision after the acknowledge: the register of the granted context, if there is one -/
def grantDecision (tr : Bool) (tir0 tir1 rir1 : UInt8) : Option Granted :=
  let rxGranted := rir1 &&& 0xC0 = 0x40
  let txGranted := ¬rxGranted ∧ tir1 &&& 0xC0 = 0x40
  if ¬rxGranted ∧ ¬txGranted then none
  else some ⟨tr, if txGranted then tir1 else tir0, if rxGranted then rir1 else 0⟩

/-- `tr`: whether a pass over the request bits `pend` is traced; a traced pass is counted off -/
def serviceTrace (pend : UInt8) : Drv Bool := do
  if 0 < (← params).trace ∧ pend &&& 0x80 ≠ 0 then
    traceDec
    return true
  else
    return false

def ackAddr (rir0 : UInt8) : Drv Nat := if rir0 &&& 0x80 ≠ 0 then nm32aAckRx else nm32aAckTx

/-- `nm32a_service` from the lock to the grant; without one the lock is given back -/
def serviceGrant (chip : Fin 8) : Drv (Option Granted) := do
  hwLock
  let tir0 ← crd chip .TIR
  let rir0 ← crd chip .RIR
  let tr ← serviceTrace (tir0 ||| rir0)
  if (tir0 ||| rir0) &&& 0x80 = 0 then
    hwUnlock
    return none
  else
    let tirc ← crd chip .TIR
    let rirc ← crd chip .RIR
    if (tir0 ||| rir0) &&& (tirc ||| rirc) &&& 0x80 = 0 then
      hwUnlock
      return none
    else
      let addr ← ackAddr rirc
      let _ackv ← rawReadb addr
      let tir1 ← crd chip .TIR
      let rir1 ← crd chip .RIR
      match grantDecision tr tirc tir1 rir1 with
      | none =>
        hwUnlock
        return none
      | some g => return some g

/-- `n` reads of the receive data register, in order -/
def drain (chip : Fin 8) : Nat → Drv (List UInt8)
  | 0 => pure []
  | n + 1 => do
    let b ← crd chip .RDR
    let bs ← drain chip n
    return b :: bs

/-- `sizeof(rxbuf)` -/
def rxbufSize : Nat := 32

/-- the latched count: `RFOC & 0x1f`, clamped to the buffer -/
def rxCount (rfoc : UInt8) : Nat := min (rfoc &&& 0x1f).toNat rxbufSize

/-- hand a buffer to the tty layer if there is one to hand over and the port is open -/
def deliver (i : Fin 32) (rxbuf : List UInt8) : Drv Unit := do
  if 0 < rxbuf.length then
    if (← portAt i).opened then
      flip i rxbuf

/-- a receive timeout: the rest of a burst, delivered inside the lock -/
def serviceTimeout (chip : Fin 8) (chan : Fin 4) : Drv Unit := do
  let rxbuf ← drain chip (rxCount (← crd chip .RFOC))
  nm32aEoi chip .REOIR 0x00
  deliver (portIx chip chan) rxbuf
  hwUnlock

/-- what the trace message of an exception reads -/
def traceException (chip : Fin 8) (tr : Bool) : Drv Unit := do
  if tr then
    let _ ← crd chip .RFOC

/-- read the bad character, if there is one -/
def dropBad (chip : Fin 8) (erisr : UInt8) : Drv Unit := do
  if erisr &&& 0x80 = 0 then
    let rfoc ← crd chip .RFOC
    if rfoc &&& 0x1f ≠ 0 then
      let _ ← crd chip .RDR

/-- any other receive exception: the bad character is read and dropped -/
def serviceException (chip : Fin 8) (chan : Fin 4) (tr : Bool) (erisr : UInt8) : Drv Unit := do
  traceException chip tr
  dropBad chip erisr
  nm32aEoi chip .REOIR 0x00
  nm32aRxException chip chan
  hwUnlock

/-- good data: drained inside the lock, delivered after it -/
def serviceGood (chip : Fin 8) (chan : Fin 4) : Drv Unit := do
  let rxbuf ← drain chip (rxCount (← crd chip .RFOC))
  nm32aEoi chip .REOIR 0x00
  hwUnlock
  deliver (portIx chip chan) rxbuf

/-- the transmit loop; it returns how many bytes it wrote -/
def txLoop (chip : Fin 8) (i : Fin 32) : Nat → Drv Nat
  | 0 => pure 0
  | room + 1 => do
    let np ← portAt i
    if np.head = np.tail then
      pure 0
    else
      cwr chip .TDR (np.tx np.tail)
      setPort i (.tail ((np.tail + 1) % txbuf))
      return (← txLoop chip i room) + 1

/-- nothing to send: stop asking to send -/
def txIdle (chip : Fin 8) (n : Nat) : Drv Unit := if n = 0 then cwr chip .IER 0x28 else pure ()

def serviceTx (chip : Fin 8) (chan : Fin 4) : Drv Unit := do
  spinLock (portIx chip chan)
  let room ← crd chip .TFTC
  let n ← txLoop chip (portIx chip chan) (min room.toNat 16)
  txIdle chip n
  nm32aEoi chip .TEOIR (if n ≠ 0 then 0x00 else 0x08)
  spinUnlock (portIx chip chan)
  hwUnlock

def serviceRx (chip : Fin 8) (tr : Bool) (rir0 : UInt8) : Drv Unit := do
  if rir0 &&& 0x0c ≠ 0x0c then
    let erisr ← crd chip .RISRl
    if erisr &&& 0x80 ≠ 0 then
      serviceTimeout chip (chanOf rir0)
    else
      serviceException chip (chanOf rir0) tr erisr
  else
    serviceGood chip (chanOf rir0)

def serviceGranted (chip : Fin 8) (g : Granted) : Drv Unit :=
  if g.rir0 ≠ 0 then serviceRx chip g.tr g.rir0 else serviceTx chip (chanOf g.tir0)

/-- the result says whether a service was performed -/
def nm32aService (chip : Fin 8) : Drv Bool := do
  match ← serviceGrant chip with
  | none => return false
  | some g =>
    serviceGranted chip g
    return true

/-! ## the poll thread -/

def chipBusy (chip : Fin 8) : Drv Bool := do
  let p0 ← portAt (portIx chip 0)
  let p1 ← portAt (portIx chip 1)
  let p2 ← portAt (portIx chip 2)
  let p3 ← portAt (portIx chip 3)
  return p0.opened || p1.opened || p2.opened || p3.opened

/-- services of one chip in one sweep; `svc` counts them as `unsigned` -/
def pollChip (chip : Fin 8) (svc : UInt32) : Nat → Drv Unit
  | 0 => hang
  | n + 1 => do
    if svc.toNat < ((← params).burst % 2^32).toNat then
      if ← nm32aService chip then
        pollChip chip (svc + 1) n
      else
        pure ()
    else
      pure ()

def pollSweepChip (turns : Nat) (chip : Fin 8) : Drv Unit := do
  if ← chipBusy chip then
    nm32aArmTx chip
    pollChip chip 0 turns
  else
    pure ()

/-- one turn of the thread over the given chips -/
def pollSweep (turns : Nat) : List (Fin 8) → Drv Unit
  | [] => pure ()
  | chip :: chips => do
    pollSweepChip turns chip
    pollSweep turns chips

def allChips : List (Fin 8) := [0, 1, 2, 3, 4, 5, 6, 7]

def nm32aPollThread (turns : Nat) : Nat → Drv Unit
  | 0 => hang
  | n + 1 => do
    if ← kthreadShouldStop then
      pure ()
    else
      pollSweep turns allChips
      nm32aPollThread turns n

/-! ## tty port operations -/

def nm32aSetMctrl (chip : Fin 8) (chan : Fin 4) (active : Bool) : Drv Unit := do
  cwr chip .CAR (UInt8.ofNat chan.val)
  cwr chip .MSVR_DTR (if active then 0x02 else 0x00)
  cwr chip .MSVR_RTS (if active then 0x01 else 0x00)

def nm32aDtrRts (i : Fin 32) (active : Bool) : Drv Unit := do
  hwLock
  nm32aSetMctrl (chipOf i) (chanIx i) active
  hwUnlock

/-- `rate` is what `tty_get_baud_rate` gives, 0 without a tty -/
def nm32aPortActivate (turns : Nat) (i : Fin 32) (rate : Nat) : Drv Int := do
  hwLock
  if (← crd (chipOf i) .GFRCR) = 0xE0 then
    hwUnlock
    return -enodev
  nm32aChanInit turns (chipOf i) (chanIx i) (if rate ≠ 0 then rate else 9600)
  setPort i (.tail 0)
  setPort i (.head 0)
  setPort i (.errCnt 0)
  setPort i (.errWin (← jiffies))
  setPort i (.rxOff false)
  setPort i (.opened true)
  hwUnlock
  return 0

def nm32aPortShutdown (i : Fin 32) : Drv Unit := do
  hwLock
  setPort i (.opened false)
  cwr (chipOf i) .CAR (UInt8.ofNat (chanIx i).val)
  cwr (chipOf i) .IER 0x00
  nm32aSetMctrl (chipOf i) (chanIx i) false
  hwUnlock

def nm32aTtySetTermios (turns : Nat) (i : Fin 32) (rate : Nat) : Drv Unit := do
  hwLock
  cwr (chipOf i) .CAR (UInt8.ofNat (chanIx i).val)
  nm32aSetRate (chipOf i) (if rate ≠ 0 then rate else 9600)
  cwr (chipOf i) .CCR ccrInitch
  let _ ← ccrWait turns (chipOf i)
  cwr (chipOf i) .CCR (ccrEntx ||| ccrEnrx)
  let _ ← ccrWait turns (chipOf i)
  cwr (chipOf i) .IER 0x09
  hwUnlock

/-- one turn of the loop of `sendbreak_set` that samples the transmit pin -/
def sendbreakSample (i : Fin 32) : Drv Bool := do
  hwLock
  cwr (chipOf i) .CAR (UInt8.ofNat (chanIx i).val)
  let rcor ← crd (chipOf i) .RCOR
  hwUnlock
  return rcor &&& 0x80 = 0

end Nm32a
