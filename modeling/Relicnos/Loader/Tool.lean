import Mathlib.Data.Fin.VecNotation
import Relicnos.Interact.Prog

/-!
# The downloader in user space

`tools/nm32a/ucode.c` writes the microcode through a mapping of the card's window, and
`tools/extract_cd2481_ucode.py` unpacks the same stream (`unpack`).  A mapped byte is stored or
loaded by one operation.

Left out: the mapping itself, and what is only printed (`before`, `--verify`).
-/

namespace Loader
open Interact

inductive Op where
  | store (off : Nat) (v : UInt8)
  | load (off : Nat)

def Res : Op → Type
  | .store _ _ => Unit
  | .load _ => UInt8

abbrev Win (α : Type) := Prog Op Res α

def issue (o : Op) : Win (Res o) := Prog.call o

def store (off : Nat) (v : UInt8) : Win Unit := issue (.store off v)
def load (off : Nat) : Win UInt8 := issue (.load off)

/-- register numbers, INT or MOT -/
structure Map where
  ra : Nat
  rm : Nat
  rh : Nat
  rmt : Nat
  rbt : Nat

def mot : Map := ⟨0xF2, 0xF3, 0xF0, 0xF1, 0xF6⟩
def intel : Map := ⟨0xF0, 0xF1, 0xF2, 0xF3, 0xF4⟩

def GFRCR : Nat := 0x81
def CCR : Nat := 0x13
def ccrRstall : UInt8 := 0x10

def chipOff : Fin 8 → Nat := ![0x400, 0x500, 0x600, 0x700, 0x900, 0xA00, 0xB00, 0xC00]

/-- the arguments; what is not given has its default -/
structure Args where
  only : Int := -1
  datasheet : Bool := false
  useInt : Bool := false
  lane : Nat := 0

def Args.map (a : Args) : Map := if a.useInt then intel else mot

variable (a : Args) (cbase : Nat)

/-- the read pushes the write out -/
def wr (reg : Nat) (v : UInt8) : Win Unit := do
  store (cbase + (reg ^^^ a.lane)) v
  let _ ← load (cbase + (reg ^^^ a.lane))

def rd (reg : Nat) : Win UInt8 := load (cbase + (reg ^^^ a.lane))

def put (insn : UInt32) : Win Unit := do
  wr a cbase a.map.ra (insn &&& 0xff).toUInt8
  wr a cbase a.map.rm ((insn >>> 8) &&& 0xff).toUInt8
  wr a cbase a.map.rh ((insn >>> 16) &&& 0x03).toUInt8
  wr a cbase a.map.rbt 0x03

def jump3fff : Win Unit := do
  wr a cbase a.map.ra 0xff
  wr a cbase a.map.rm 0x3f
  wr a cbase a.map.rh 0x03

def dlSetup : Win Unit := do
  if a.datasheet then
    wr a cbase a.map.rbt 0x01
    jump3fff a cbase
    wr a cbase a.map.rmt 0x01
    wr a cbase a.map.rbt 0x03
    wr a cbase a.map.rbt 0x03
  else
    jump3fff a cbase
    wr a cbase a.map.rmt 0x01
    wr a cbase a.map.rbt 0x01
  wr a cbase a.map.rmt 0x02

def dlStart : Win Unit := do
  jump3fff a cbase
  wr a cbase a.map.rmt 0x01
  wr a cbase a.map.rbt 0x03
  wr a cbase a.map.rbt 0x03
  wr a cbase a.map.rmt 0x03
  wr a cbase a.map.rbt 0x00

/-- the `i`-th 18-bit instruction of a little-endian bit stream -/
def insnAt (b : List UInt8) (i : Nat) : UInt32 :=
  let bit := i * 18
  let byte := bit >>> 3
  let v := [0, 1, 2].foldl (fun (v : UInt32) k =>
    if byte + k < b.length then v ||| ((b.getD (byte + k) 0).toUInt32 <<< UInt32.ofNat (8 * k))
    else v) 0
  (v >>> UInt32.ofNat (bit &&& 7)) &&& 0x3FFFF

/-- the same in the extractor, on numbers without a bound -/
def unpack (blob : List UInt8) (i : Nat) : Nat :=
  let bit := i * 18
  let byte := bit >>> 3
  let v := [0, 1, 2].foldl (fun v k =>
    if byte + k < blob.length then v ||| ((blob.getD (byte + k) 0).toNat <<< (8 * k)) else v) 0
  (v >>> (bit &&& 7)) &&& 0x3FFFF

def ninsn (flen : Nat) : Nat := min (flen * 8 / 18) 8192

/-- what goes into the store: the image, and the padding of the rest -/
def insns (blob : List UInt8) : List UInt32 :=
  (List.range (ninsn blob.length)).map (insnAt blob) ++
    List.replicate (8192 - ninsn blob.length) 0x1E000

def putAll : List UInt32 → Win Unit
  | [] => pure ()
  | insn :: rest => do
    put a cbase insn
    putAll rest

/-- `ccr` is what was read last -/
def awaitCcr (ccr : UInt8) : Nat → Win UInt8
  | 0 => pure ccr
  | n + 1 => do
    let ccr ← rd a cbase CCR
    if ccr = 0 then
      return ccr
    else
      awaitCcr ccr n

def awaitRevision (after : UInt8) : Nat → Win UInt8
  | 0 => pure after
  | n + 1 => do
    let after ← rd a cbase GFRCR
    if after ≠ 0 ∧ after ≠ 0xff then
      return after
    else
      awaitRevision after n

/-- one chip: what `CCR` and `GFRCR` read in the end -/
def loadChip (blob : List UInt8) (i : Fin 8) : Win (UInt8 × UInt8) := do
  let cbase := chipOff i
  let _before ← rd a cbase GFRCR
  dlSetup a cbase
  putAll a cbase (insns blob)
  dlStart a cbase
  wr a cbase CCR ccrRstall
  let ccr ← awaitCcr a cbase 0xff 200000
  let after ← awaitRevision a cbase 0 200000
  return (ccr, after)

def loadChips (blob : List UInt8) : List (Fin 8) → Win Unit
  | [] => pure ()
  | i :: is => do
    if 0 ≤ a.only ∧ (i.val : Int) ≠ a.only then
      pure ()
    else
      let _ ← loadChip a blob i
    loadChips blob is

/-- the loop of `main` over the chips -/
def ucodeMain (blob : List UInt8) : Win Unit := loadChips a blob [0, 1, 2, 3, 4, 5, 6, 7]

end Loader
