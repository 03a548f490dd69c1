import Relicnos.Nm32a.Probe

/-!
# Writing the `selftest` parameter

`nm32a_set_selftest` runs a stage in the context of whoever wrote the parameter.  None of the
stages takes `hw_lock`.  Stage 1 loads the microcode of all chips again and stage 17 talks to
the device on the first port of chip 4; the other stages are left to a parameter, for which any
program may stand.
-/

set_option linter.unusedVariables false

namespace Nm32a
open Interact

/-- `NM32A_ACK` -/
def nm32aAck : Drv Nat := nm32aAckRx

/-- look for a request in `TIR`, for a while -/
def talkPoll (chip : Fin 8) : Nat → Drv Unit
  | 0 => pure ()
  | n + 1 => do
    if (← crd chip .TIR) &&& 0x80 ≠ 0 then
      pure ()
    else
      talkPoll chip n

/-- send a carriage return and a line feed -/
def talkProd (chip : Fin 8) : Drv Unit := do
  talkPoll chip 100000
  if (← crd chip .TIR) &&& 0x80 ≠ 0 then
    let _ ← rawReadb (← nm32aAck)
    cwr chip .TDR 0x0d
    cwr chip .TDR 0x0a
    cwr chip .TEOIR 0x00

/-- `sizeof(buf)` -/
def talkBuf : Nat := 256

/-- take what the far end has sent: one service, if there is a request; `got` bytes are there -/
def talkDrain (chip : Fin 8) (got : Nat) : Nat → Drv Nat
  | 0 => pure got
  | n + 1 => do
    if (← crd chip .RIR) &&& 0x80 = 0 then
      talkDrain chip got n
    else
      let _ ← rawReadb (← nm32aAck)
      let i ← crd chip .RFOC
      let bs ← drain chip (min i.toNat (talkBuf - got))
      cwr chip .REOIR 0x00
      return got + bs.length

/-- the rounds from `round` on, `left` of them -/
def talkRounds (chip : Fin 8) (got round : Nat) : Nat → Drv Nat
  | 0 => pure got
  | left + 1 => do
    if got < talkBuf - 8 then
      if round % 20 = 0 then
        talkProd chip
      let got ← talkDrain chip got 300000
      talkRounds chip got (round + 1) left
    else
      pure got

/-- the conversation, and the registers that the message about an empty one shows -/
def talkListen (chip : Fin 8) : Drv Unit := do
  cwr chip .MSVR_RTS 0x01
  cwr chip .MSVR_DTR 0x02
  cwr chip .IER 0x09
  let _ ← crd chip .CSR
  let got ← talkRounds chip 0 0 60
  if got = 0 then
    let _ ← crd chip .RIR
    let _ ← crd chip .RFOC
    let _ ← crd chip .RISRl
    let _ ← crd chip .CSR

def nm32aTalk (turns : Nat) (chip : Fin 8) (chan : Fin 4) : Drv Unit := do
  cwr chip .TPR 0x40
  cwr chip .CAR (UInt8.ofNat chan.val)
  cwr chip .LIVR 0x40
  cwr chip .RCOR 0x01
  cwr chip .RBPR 0x71
  cwr chip .TCOR 0x20
  cwr chip .TBPR 0x71
  cwr chip .CMR 0x02
  cwr chip .COR1 0x17
  cwr chip .COR2 0x00
  cwr chip .COR3 0x02
  cwr chip .COR4 0x01
  cwr chip .COR5 0x00
  cwr chip .CCR ccrInitch
  if (← ccrWait turns chip) ≠ 0 then
    let _ ← crd chip .GFRCR
  else
    cwr chip .CCR (ccrEntx ||| ccrEnrx)
    if (← ccrWait turns chip) ≠ 0 then
      pure ()
    else
      talkListen chip

/-- what the driver is loaded with: the microcode, and the stages that are not spelled out -/
structure Stages where
  ucode : Ucode
  other : Int → Drv Int

/-- `val` is what `kstrtoint` makes of the text, `dev` whether there is a card -/
def nm32aSetSelftest (s : Stages) (turns : Nat) (dev : Bool) (val : Except Int Int) : Drv Int :=
  match val with
  | .error rc => pure rc
  | .ok stage => do
    if dev = false then
      return -enodev
    else if stage = 17 then
      nm32aTalk turns 4 0
      return 0
    else if stage = 1 then
      downloadChips s.ucode turns allChips
      return 0
    else
      s.other stage

end Nm32a
