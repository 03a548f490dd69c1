import Relicnos.Mips.Words

/-!
# Who refers to a string

`ios_xref.py` looks for the code that computes the address of a string: a `lui` of its upper half,
adjusted for the sign of the lower one, and an `addiu` of the lower half within the next eleven
instructions.

* `Image`         the bytes of the decompressed image, and its text section as words;
* `findRefs`      the loop over the words;
* `crossRef`      from a pattern to the string that contains it and the code that refers to it.
-/

namespace Xref
open Mips

/-- the file offset of the single segment -/
def loadOff : Nat := 0x60
/-- the link base as the code addresses itself -/
def base : Nat := 0x4000f000
/-- the end of the text section -/
def codeEnd : Nat := 0x4161060

/-- the number of words of the text section -/
def codeWords : Nat := (codeEnd - loadOff) / 4

/-- a big-endian word -/
def be32 (a b c d : UInt8) : Nat := (a.toNat <<< 24) + (b.toNat <<< 16) + (c.toNat <<< 8) + d.toNat

/-- `struct.unpack(f'>{n}I', …)`: it wants four bytes a word -/
def unpackWords : Nat → List UInt8 → Option (List Nat)
  | 0, [] => some []
  | n + 1, a :: b :: c :: d :: rest => (unpackWords n rest).map (be32 a b c d :: ·)
  | _, _ => none

structure Image where
  d : List UInt8
  w : List Nat

/-- a file that is too short raises -/
def Image.load (d : List UInt8) : Option Image :=
  (unpackWords codeWords ((d.drop loadOff).take (codeWords * 4))).map (Image.mk d)

def off2va (off : Nat) : Nat := off + base - loadOff

/-- back to what follows the last NUL before `off` -/
def cstrStart (d : List UInt8) : Nat → Nat
  | 0 => 0
  | off + 1 => if d[off]? ≠ some 0 then cstrStart d off else off + 1

/-! ## the loops -/

/-- the inner loop: the first `addiu` from `r` decides, a `lui` of `r` ends the search -/
def refersIn (r : Nat) (loS : Int) : List Nat → Bool
  | [] => false
  | w2 :: rest =>
    if opcode w2 = 0x09 ∧ rs w2 = r then signed (imm w2) == loS
    else if opcode w2 = 0x0F ∧ rt w2 = r then false
    else refersIn r loS rest

/-- the outer loop from word `i` on; `out` is what was found before -/
def findFrom (va limit : Nat) : Nat → List Nat → List Nat → List Nat
  | _, [], out => out
  | i, w :: rest, out =>
    if opcode w ≠ 0x0F ∨ imm w ≠ upper va then findFrom va limit (i + 1) rest out
    else
      let found := refersIn (rt w) (signed (va &&& 0xFFFF)) (rest.take 11)
      let out := if found then out ++ [base + i * 4] else out
      if limit ≤ out.length then out else findFrom va limit (i + 1) rest out

def Image.findRefs (im : Image) (va limit : Nat) : List Nat := findFrom va limit 0 im.w []

/-! ## from a pattern to its references -/

/-- `bytes.find` -/
def find (d pat : List UInt8) : Option Nat :=
  (List.range (d.length + 1)).find? fun k => pat.isPrefixOf (d.drop k)

/-- one turn of `main`: the address of the string, and the code that refers to it -/
def Image.crossRef (im : Image) (pat : List UInt8) : Option (Nat × List Nat) := do
  let off ← find im.d pat
  let va := off2va (cstrStart im.d off)
  return (va, im.findRefs va 24)

end Xref
