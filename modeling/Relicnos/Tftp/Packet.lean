import Mathlib.Data.List.Basic
import Mathlib.Tactic.Common

/-!
# The packets of a transfer

What `tftp_send.py` packs and unpacks.  A byte string is a list of bytes, and so is a text: all
of it comes out of a packet as Latin-1, one character a byte.

* `packH`, `unpackH`   a 16-bit number in network order; unpacking anything but two bytes fails;
* `opcode`, `number`   the first two numbers of a packet;
* `parseOpts`          the file name and the options of a request;
* `negotiate`          the block size, and the options that are accepted;
* `dataPacket`, `ackPacket`, `oackPacket`.
-/

namespace Tftp

abbrev Bytes := List UInt8

def opRrq : Nat := 1
def opData : Nat := 3
def opAck : Nat := 4
def opError : Nat := 5
def opOack : Nat := 6

def errNotfound : Nat := 1

/-- `struct.pack("!H", n)` -/
def packH (n : Nat) : Bytes := [UInt8.ofNat (n / 256), UInt8.ofNat (n % 256)]

/-- `struct.unpack("!H", bs)`; `none` is the `struct.error` it raises -/
def unpackH : Bytes → Option Nat
  | [a, b] => some (a.toNat * 256 + b.toNat)
  | _ => none

@[simp] theorem length_packH (n : Nat) : (packH n).length = 2 := rfl

theorem unpackH_packH {n : Nat} (h : n < 65536) : unpackH (packH n) = some n := by
  have hhi : (UInt8.ofNat (n / 256)).toNat = n / 256 := by
    rw [UInt8.toNat_ofNat']
    omega
  have hlo : (UInt8.ofNat (n % 256)).toNat = n % 256 := by
    rw [UInt8.toNat_ofNat']
    omega
  show some ((UInt8.ofNat (n / 256)).toNat * 256 + (UInt8.ofNat (n % 256)).toNat) = some n
  rw [hhi, hlo]
  congr 1
  omega

/-- `pkt[:2]`, unpacked -/
def opcode (pkt : Bytes) : Option Nat := unpackH (pkt.take 2)
/-- `pkt[2:4]`, unpacked -/
def number (pkt : Bytes) : Option Nat := unpackH ((pkt.drop 2).take 2)

/-- the absolute block number as the packets carry it -/
def wire (blk : Nat) : Nat := blk &&& 0xFFFF

theorem wire_eq (blk : Nat) : wire blk = blk % 65536 := Nat.and_two_pow_sub_one_eq_mod blk 16

theorem wire_lt (blk : Nat) : wire blk < 65536 := by
  rw [wire_eq]
  omega

def dataPacket (blk : Nat) (body : Bytes) : Bytes := packH opData ++ packH (wire blk) ++ body

/-- the acknowledgement of block `blk` -/
def ackPacket (blk : Nat) : Bytes := packH opAck ++ packH (wire blk)

/-- a packet that starts with two numbers -/
theorem opcode_append {n m : Nat} (h : n < 65536) (rest : Bytes) :
    opcode (packH n ++ packH m ++ rest) = some n := unpackH_packH h

theorem number_append {n m : Nat} (h : m < 65536) (rest : Bytes) :
    number (packH n ++ packH m ++ rest) = some m := unpackH_packH h

theorem opcode_dataPacket (blk : Nat) (body : Bytes) :
    opcode (dataPacket blk body) = some opData := opcode_append (by decide) body

theorem number_dataPacket (blk : Nat) (body : Bytes) :
    number (dataPacket blk body) = some (wire blk) := number_append (wire_lt blk) body

theorem drop_dataPacket (blk : Nat) (body : Bytes) : (dataPacket blk body).drop 4 = body := rfl

theorem opcode_ackPacket (blk : Nat) : opcode (ackPacket blk) = some opAck := by
  have h := opcode_append (n := opAck) (m := wire blk) (by decide) []
  rwa [List.append_nil] at h

theorem number_ackPacket (blk : Nat) : number (ackPacket blk) = some (wire blk) := by
  have h := number_append (n := opAck) (wire_lt blk) []
  rwa [List.append_nil] at h

/-- `recvfrom(1024)` does not cut it short -/
theorem take_ackPacket (blk : Nat) : (ackPacket blk).take 1024 = ackPacket blk := rfl

/-! ## texts -/

/-- an ASCII text -/
def ascii (s : String) : Bytes := s.toList.map fun c => UInt8.ofNat c.toNat

/-- `lower` on a Latin-1 character -/
def lower (b : UInt8) : UInt8 :=
  if (0x41 ≤ b ∧ b ≤ 0x5A) ∨ (0xC0 ≤ b ∧ b ≤ 0xDE ∧ b ≠ 0xD7) then b + 0x20 else b

/-- a Latin-1 character in UTF-8 -/
def encodeChar (b : UInt8) : Bytes :=
  if b < 0x80 then [b] else [(0xC0 : UInt8) ||| (b >>> 6), (0x80 : UInt8) ||| (b &&& 0x3F)]

/-- `str(n)` -/
def str (n : Nat) : Bytes := ascii (Nat.repr n)

/-- what `int` ignores at both ends of a text -/
def isSpace (b : UInt8) : Bool :=
  (0x09 ≤ b ∧ b ≤ 0x0D) ∨ b = 0x20 ∨ b = 0x85 ∨ b = 0xA0

def isDigit (b : UInt8) : Bool := 0x30 ≤ b ∧ b ≤ 0x39

/-- decimal digits, with single underscores between them; `int` takes 4300 of them -/
def digits (s : Bytes) : Option Nat :=
  let groups := s.splitOn 0x5F
  if (groups.all fun g => g ≠ [] ∧ g.all isDigit) ∧ groups.flatten.length ≤ 4300 then
    some (groups.flatten.foldl (fun n b => n * 10 + (b.toNat - 0x30)) 0)
  else
    none

/-- `int(s)`; `none` is the `ValueError` it raises -/
def int (s : Bytes) : Option Int :=
  match ((s.dropWhile isSpace).reverse.dropWhile isSpace).reverse with
  | 0x2B :: rest => (digits rest).map Int.ofNat
  | 0x2D :: rest => (digits rest).map fun n => -Int.ofNat n
  | s => (digits s).map Int.ofNat

/-! ## requests -/

/-- names and values, two by two; a name without a value is left out -/
def pairs : List Bytes → List (Bytes × Bytes)
  | k :: v :: rest => (k.map lower, v) :: pairs rest
  | _ => []

/-- the file name and the options of a request without its opcode -/
def parseOpts (payload : Bytes) : Bytes × List (Bytes × Bytes) :=
  let parts := payload.splitOn 0
  let parts := if parts.getLast? = some [] then parts.dropLast else parts
  (parts.headD [], pairs (parts.drop 2))

/-- the value of an option; the last one counts -/
def optOf (opts : List (Bytes × Bytes)) (key : String) : Option Bytes :=
  opts.reverse.lookup (ascii key)

structure Negotiated where
  blksize : Nat
  accepted : List (Bytes × Bytes)

/-- an option that is answered with `v` if it was asked for -/
def answer (opts : List (Bytes × Bytes)) (key : String) (v : Bytes → Bytes) :
    List (Bytes × Bytes) :=
  match optOf opts key with
  | none => []
  | some asked => [(ascii key, v asked)]

/-- `none` is the `ValueError` of a block size that is no number -/
def negotiate (opts : List (Bytes × Bytes)) (size : Nat) (maxBlksize : Int) : Option Negotiated :=
  let rest := answer opts "tsize" (fun _ => str size) ++ answer opts "timeout" id
  match optOf opts "blksize" with
  | none => some ⟨512, rest⟩
  | some asked => (int asked).map fun n =>
    let blksize := (max 8 (min maxBlksize n)).toNat
    ⟨blksize, (ascii "blksize", str blksize) :: rest⟩

theorem negotiate_pos {opts : List (Bytes × Bytes)} {size : Nat} {maxBlksize : Int}
    {neg : Negotiated} (h : negotiate opts size maxBlksize = some neg) : 8 ≤ neg.blksize := by
  unfold negotiate at h
  split at h
  · cases h
    show 8 ≤ 512
    decide
  · obtain ⟨n, _, rfl⟩ := Option.map_eq_some_iff.mp h
    show 8 ≤ (max 8 (min maxBlksize n)).toNat
    omega

def oackPacket (accepted : List (Bytes × Bytes)) : Bytes :=
  packH opOack ++ accepted.flatMap fun kv => kv.1 ++ [0] ++ kv.2.flatMap encodeChar ++ [0]

theorem opcode_oackPacket (accepted : List (Bytes × Bytes)) :
    opcode (oackPacket accepted) = some opOack := unpackH_packH (by decide)

def errorPacket (code : Nat) (msg : Bytes) : Bytes :=
  packH opError ++ packH code ++ msg ++ [0]

end Tftp
