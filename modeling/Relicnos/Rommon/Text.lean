import Mathlib.Algebra.GroupWithZero.Nat
import Mathlib.Data.List.Basic
import Mathlib.Tactic.Common

/-!
# What `rommon_dump.py` finds in a transcript

The console prints memory in two forms, and a regular expression finds the lines of each.  Both
match in at most one way from a given place, since what ends a run of blanks is never a blank.

* `line`, `lineDump`   the two expressions, matched at the head of a text;
* `findall`            every match from left to right, none overlapping another;
* `Via.pieces`         the label and the data field of each match;
* `pieces_size`        a field has 4 bytes in the `dis` form and 16 in the `dump` form.
-/

set_option linter.unusedVariables false

namespace Rommon

abbrev Text := List UInt8

/-- the digits `[0-9a-fA-F]` -/
def isHex (b : UInt8) : Bool :=
  (0x30 ≤ b && b ≤ 0x39) || (0x41 ≤ b && b ≤ 0x46) || (0x61 ≤ b && b ≤ 0x66)

def hexVal (b : UInt8) : Nat :=
  if b ≤ 0x39 then b.toNat - 0x30
  else if b ≤ 0x46 then b.toNat - 0x41 + 10
  else b.toNat - 0x61 + 10

/-- `\s` in a pattern of bytes -/
def isSpace (b : UInt8) : Bool := b == 0x20 || (0x09 ≤ b && b ≤ 0x0D)

/-! ## the parts of a pattern -/

def lit (c : UInt8) : Text → Option Text
  | b :: s => if b = c then some s else none
  | [] => none

/-- `n` digits, with the rest of the text -/
def hexes : Nat → Text → Option (Text × Text)
  | 0, s => some ([], s)
  | n + 1, b :: s =>
    if isHex b then (hexes n s).map fun (ds, rest) => (b :: ds, rest) else none
  | _ + 1, [] => none

/-- `\s+` -/
def spaces : Text → Option Text
  | b :: s => if isSpace b then some (s.dropWhile isSpace) else none
  | [] => none

/-- `(?:[0-9a-fA-F]{4} ){n}[0-9a-fA-F]{4}` -/
def groups : Nat → Text → Option (Text × Text)
  | 0, s => hexes 4 s
  | n + 1, s => do
    let (ds, s) ← hexes 4 s
    let s ← lit 0x20 s
    let (more, s) ← groups n s
    return (ds ++ 0x20 :: more, s)

/-- the two groups of a match, and the text after it -/
structure Match where
  ad : Text
  hx : Text
  rest : Text

/-- `LINE` -/
def line (s : Text) : Option Match := do
  let s ← lit 0x30 s
  let s ← lit 0x78 s
  let (ad, s) ← hexes 8 s
  let s ← lit 0x3A s
  let s ← spaces s
  let (w, s) ← hexes 8 s
  return ⟨ad, w, s⟩

/-- `LINE_DUMP` -/
def lineDump (s : Text) : Option Match := do
  let (ad, s) ← hexes 8 s
  let s ← spaces s
  let (hx, s) ← groups 7 s
  return ⟨ad, hx, s⟩

/-- the matches of a pattern that never matches the empty text, with fuel for the text -/
def findall (p : Text → Option Match) : Nat → Text → List Match
  | 0, _ => []
  | _ + 1, [] => []
  | fuel + 1, b :: s =>
    match p (b :: s) with
    | some m => m :: findall p fuel m.rest
    | none => findall p fuel s

/-! ## labels and fields -/

/-- `int(ds, 16)` -/
def hexNat (ds : Text) : Nat := ds.foldl (fun n b => 16 * n + hexVal b) 0

/-- `n.to_bytes(4, "big")` -/
def toBytes4 (n : Nat) : Text :=
  [UInt8.ofNat (n / 2 ^ 24), UInt8.ofNat (n / 2 ^ 16), UInt8.ofNat (n / 2 ^ 8), UInt8.ofNat n]

/-- `bytes.fromhex` of an even number of digits -/
def fromHex : Text → Text
  | a :: b :: ds => UInt8.ofNat (16 * hexVal a + hexVal b) :: fromHex ds
  | _ => []

/-- the command that prints the memory -/
inductive Via where
  | dis
  | dump
  deriving DecidableEq

/-- a label with its data field -/
structure Piece where
  ad : Nat
  blob : Text
  deriving DecidableEq

def Via.piece : Via → Match → Piece
  | .dump, m => ⟨hexNat m.ad, fromHex (m.hx.filter (· ≠ 0x20))⟩
  | .dis, m => ⟨hexNat m.ad, toBytes4 (hexNat m.hx)⟩

def Via.pattern : Via → Text → Option Match
  | .dump => lineDump
  | .dis => line

def Via.pieces (via : Via) (buf : Text) : List Piece :=
  (findall via.pattern buf.length buf).map via.piece

/-- the size of a data field -/
def Via.size : Via → Nat
  | .dis => 4
  | .dump => 16

/-! ## the size of a field -/

variable {s : Text} {n : Nat} {ds rest : Text} {m : Match} {p : Piece}

theorem isHex_ne_space {b : UInt8} (h : isHex b = true) : b ≠ 0x20 := by
  intro e
  subst e
  exact absurd h (by decide)

theorem hexes_digits (h : hexes n s = some (ds, rest)) :
    ds.length = n ∧ ∀ b ∈ ds, isHex b = true := by
  induction n generalizing s ds rest with
  | zero =>
    obtain ⟨rfl, _⟩ := Prod.mk.inj (Option.some.inj h)
    exact ⟨rfl, fun _ hb => absurd hb List.not_mem_nil⟩
  | succ n ih =>
    cases s with
    | nil => cases h
    | cons b s =>
      unfold hexes at h
      by_cases hb : isHex b = true
      · rw [if_pos hb] at h
        obtain ⟨⟨ds', rest'⟩, hds, he⟩ := Option.map_eq_some_iff.mp h
        obtain ⟨rfl, _⟩ := Prod.mk.inj he
        obtain ⟨hlen, hall⟩ := ih hds
        exact ⟨congrArg Nat.succ hlen, List.forall_mem_cons.mpr ⟨hb, hall⟩⟩
      · rw [if_neg hb] at h
        cases h

/-- digits have no blank among them -/
theorem hexes_filter (h : hexes n s = some (ds, rest)) : ds.filter (· ≠ 0x20) = ds :=
  List.filter_eq_self.mpr fun b hb => decide_eq_true (isHex_ne_space ((hexes_digits h).2 b hb))

/-- without its blanks, a run of groups is `4 * (n + 1)` digits -/
theorem groups_digits (h : groups n s = some (ds, rest)) :
    (ds.filter (· ≠ 0x20)).length = 4 * (n + 1) := by
  induction n generalizing s ds rest with
  | zero =>
    rw [hexes_filter h, (hexes_digits h).1]
  | succ n ih =>
    unfold groups at h
    obtain ⟨⟨ds1, s1⟩, h1, h⟩ := Option.bind_eq_some_iff.mp h
    obtain ⟨s2, _, h⟩ := Option.bind_eq_some_iff.mp h
    obtain ⟨⟨more, s3⟩, h3, h⟩ := Option.bind_eq_some_iff.mp h
    obtain ⟨rfl, _⟩ := Prod.mk.inj (Option.some.inj h)
    have hblank : (0x20 :: more).filter (· ≠ 0x20) = more.filter (· ≠ 0x20) := rfl
    rw [List.filter_append, List.length_append, hexes_filter h1, (hexes_digits h1).1, hblank, ih h3]
    omega

theorem fromHex_length {n : Nat} (h : ds.length = 2 * n) : (fromHex ds).length = n := by
  induction n generalizing ds with
  | zero =>
    rw [List.length_eq_zero_iff.mp h]
    rfl
  | succ n ih =>
    match ds, h with
    | a :: b :: ds, h =>
      rw [List.length_cons, List.length_cons] at h
      exact congrArg Nat.succ (ih (by omega))

theorem lineDump_digits (h : lineDump s = some m) : (m.hx.filter (· ≠ 0x20)).length = 32 := by
  unfold lineDump at h
  obtain ⟨⟨ad, s1⟩, _, h⟩ := Option.bind_eq_some_iff.mp h
  obtain ⟨s2, _, h⟩ := Option.bind_eq_some_iff.mp h
  obtain ⟨⟨hx, s3⟩, h3, h⟩ := Option.bind_eq_some_iff.mp h
  obtain rfl := Option.some.inj h
  exact groups_digits h3

theorem findall_match {q : Text → Option Match} {fuel : Nat} (h : m ∈ findall q fuel s) :
    ∃ s', q s' = some m := by
  induction fuel generalizing s with
  | zero => exact absurd h List.not_mem_nil
  | succ fuel ih =>
    cases s with
    | nil => exact absurd h List.not_mem_nil
    | cons b s =>
      unfold findall at h
      cases hq : q (b :: s) with
      | none =>
        rw [hq] at h
        exact ih h
      | some m' =>
        rw [hq] at h
        rcases List.mem_cons.mp h with rfl | h
        · exact ⟨_, hq⟩
        · exact ih h

/-- **Every field has the size of its form.** -/
theorem pieces_size {via : Via} {buf : Text} (h : p ∈ via.pieces buf) :
    p.blob.length = via.size := by
  obtain ⟨m, hm, rfl⟩ := List.mem_map.mp h
  cases via with
  | dis => rfl
  | dump =>
    obtain ⟨s', hs⟩ := findall_match hm
    exact fromHex_length (lineDump_digits hs)

/-- a line of each form, with noise around it -/
example : Via.dis.pieces ("0x0xbfc00000:  0bf002ad   j".toUTF8.toList)
    = [⟨0xbfc00000, [0x0b, 0xf0, 0x02, 0xad]⟩] := by decide +kernel

example : Via.dump.pieces ("bfc00000  0bf0 02ad 0000 0001 0000 0000 0000 0002 ..".toUTF8.toList)
    = [⟨0xbfc00000, [0x0b, 0xf0, 0x02, 0xad, 0, 0, 0, 1, 0, 0, 0, 0, 0, 0, 0, 2]⟩] := by
  decide +kernel

end Rommon
