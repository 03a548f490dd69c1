import Relicnos.Nm32a.Calls

/-!
# Bringing the card up: the microcode download and `nm32a_probe`

A chip answers nothing useful before its microcode is loaded, and the command that starts it is
Reset All.  `nm32a_probe` loads all eight chips before the tty driver is registered and the poll
thread is started, so a run of the driver is a probe followed by calls (`driverProg`).

The header with the microcode is generated when the driver is built: `Ucode` is any.
-/

set_option linter.unusedVariables false

namespace Nm32a
open Interact

/-- `cd2481_ucode` and `CD2481_UCODE_INSNS` -/
structure Ucode where
  bytes : List UInt8
  insns : Nat

/-- the `i`-th 18-bit instruction of the packed little-endian stream -/
def ucodeInsn (u : Ucode) (i : Nat) : UInt32 :=
  let bit := i * 18
  let byte := bit / 8
  let v := (u.bytes.getD byte 0).toUInt32 ||| ((u.bytes.getD (byte + 1) 0).toUInt32 <<< 8) |||
    ((u.bytes.getD (byte + 2) 0).toUInt32 <<< 16)
  (v >>> UInt32.ofNat (bit % 8)) &&& 0x3FFFF

/-- an instruction on its three registers -/
def writeAir (chip : Fin 8) (l m h : UInt8) : Drv Unit := do
  cwr chip .AIRL l
  cwr chip .AIRM m
  cwr chip .AIRH h

/-- write the instruction and store it by a single step -/
def storeInsn (chip : Fin 8) (insn : UInt32) : Drv Unit := do
  writeAir chip (insn &&& 0xff).toUInt8 ((insn >>> 8) &&& 0xff).toUInt8
    ((insn >>> 16) &&& 0x03).toUInt8
  cwr chip .BTCR 0x03

/-- the loop over the instructions: `left` of them from the `i`-th on -/
def storeInsns (u : Ucode) (chip : Fin 8) (i : Nat) : Nat → Drv Unit
  | 0 => pure ()
  | left + 1 => do
    storeInsn chip (ucodeInsn u i)
    storeInsns u chip (i + 1) left

/-- wait for the firmware revision; `after` is what was read last -/
def awaitRevision (chip : Fin 8) (after : UInt8) : Nat → Drv UInt8
  | 0 => pure after
  | n + 1 => do
    let after ← crd chip .GFRCR
    if after ≠ 0 ∧ after ≠ 0xff then
      return after
    else
      awaitRevision chip after n

def eio : Int := 5

/-- `nm32a_download` up to Reset All -/
def loadUcode (u : Ucode) (chip : Fin 8) : Drv Unit := do
  let _ ← crd chip .GFRCR
  writeAir chip 0xff 0x3f 0x03
  cwr chip .MTCR 0x01
  cwr chip .BTCR 0x01
  cwr chip .MTCR 0x02
  storeInsns u chip 0 u.insns
  writeAir chip 0xff 0x3f 0x03
  cwr chip .MTCR 0x01
  cwr chip .BTCR 0x03
  cwr chip .BTCR 0x03
  cwr chip .MTCR 0x03
  cwr chip .BTCR 0x00

def nm32aDownload (u : Ucode) (turns : Nat) (chip : Fin 8) : Drv Int := do
  loadUcode u chip
  cwr chip .CCR ccrRstall
  let n ← ccrWait turns chip
  let after ← awaitRevision chip 0 200000
  return if n ≠ 0 ∨ after = 0 ∨ after = 0xff then -eio else 0

/-- the given chips, one after the other -/
def downloadChips (u : Ucode) (turns : Nat) : List (Fin 8) → Drv Unit
  | [] => pure ()
  | chip :: chips => do
    let _ ← nm32aDownload u turns chip
    downloadChips u turns chips

/-- the part of `nm32a_probe` that touches the card -/
def nm32aProbe (u : Ucode) (turns : Nat) : Drv Unit := downloadChips u turns allChips

/-- a probe, and calls after it -/
def driverProg (u : Ucode) (turns : Nat) (calls : List Call) : Drv Unit := do
  nm32aProbe u turns
  callsProg calls

end Nm32a
