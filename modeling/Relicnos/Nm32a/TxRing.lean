import Relicnos.Interact.Code
import Relicnos.Nm32a.Card

/-!
# The transmit ring: its helpers and its producers

`nm32a_tx_space`, `nm32a_tx_put` and what `nm32a_tty_write`, `nm32a_break_ctl` and
`sendbreak_set` do to a port between taking `np->lock` and giving it back.

Over the ring stands the stream of TOKENS the producers mean: a non-NUL byte, a NUL sent as
`00 00`, the break commands `00 81` and `00 83`.  `nm32aTtyWriteLocked_queue` and its
siblings say that a producer appends whole tokens or nothing, and `tokens_unique` that the
bytes determine the tokens.
-/

set_option linter.unusedVariables false

namespace Nm32a
open Interact

/-! ## ring helpers (callers hold `np->lock`) -/

/-- `unsigned` arithmetic: the difference of the indices wraps at `2^32` -/
def nm32aTxSpace (np : Port) : Nat :=
  let used := (np.head + 2^32 - np.tail + txbuf) % 2^32 % txbuf
  txbuf - 1 - used

def nm32aTxPut (np : Port) (c : UInt8) : Port :=
  { np with tx := Function.update np.tx np.head c, head := (np.head + 1) % txbuf }

/-- the loop of `nm32a_tty_write`; the number is how many bytes of the buffer it took -/
def nm32aTtyWriteLocked : Port → List UInt8 → Port × Nat
  | np, [] => (np, 0)
  | np, c :: rest =>
    let need := if c ≠ 0 then 1 else 2
    if nm32aTxSpace np < need then (np, 0)
    else
      let np := nm32aTxPut np c
      let np := if c = 0 then nm32aTxPut np 0x00 else np
      let (np, i) := nm32aTtyWriteLocked np rest
      (np, i + 1)

/-- queue a two-byte break command if there is room for all of it -/
def breakPut (np : Port) (state : Bool) : Port :=
  if 2 ≤ nm32aTxSpace np then nm32aTxPut (nm32aTxPut np 0x00) (if state then 0x81 else 0x83)
  else np

def enodev : Int := 19

def nm32aTtyWrite : Option Port → List UInt8 → Option Port × Int
  | none, _ => (none, -enodev)
  | some np, buf => (some (nm32aTtyWriteLocked np buf).1, (nm32aTtyWriteLocked np buf).2)

def nm32aBreakCtl : Option Port → Int → Option Port × Int
  | none, _ => (none, -enodev)
  | some np, state => (some (breakPut np (state ≠ 0)), 0)

/-- the first critical section of `sendbreak_set`; it also hands back `was_open` -/
def sendbreakStart (np : Port) : Port × Bool :=
  (breakPut { np with opened := true } true, np.opened)

/-- the second one -/
def sendbreakStop (np : Port) : Port := breakPut np false

/-- the third one -/
def sendbreakDone (wasOpen : Bool) (np : Port) : Port := { np with opened := wasOpen }

/-! ## the ring as a queue -/

def Port.ring (np : Port) : RingBuf UInt8 := ⟨np.tx, np.head, np.tail⟩

/-- the bytes waiting in the ring, oldest first -/
def Port.queue (np : Port) : List UInt8 := np.ring.queue txbuf

/-- both indices are inside the ring -/
def Port.Wf (np : Port) : Prop := np.ring.Wf txbuf

variable {np : Port}

theorem nm32aTxSpace_eq (h : np.Wf) : nm32aTxSpace np = txbuf - 1 - np.ring.used txbuf := by
  have hh : np.head < 1024 := h.head
  have ht : np.tail < 1024 := h.tail
  have e : (np.head + 2^32 - np.tail + txbuf) % 2^32 % txbuf
      = (np.head + txbuf - np.tail) % txbuf := by
    show (np.head + 2^32 - np.tail + 1024) % 2^32 % 1024 = (np.head + 1024 - np.tail) % 1024
    omega
  show txbuf - 1 - (np.head + 2^32 - np.tail + txbuf) % 2^32 % txbuf = _
  rw [e]
  rfl

theorem Port.queue_length (h : np.Wf) : np.queue.length ≤ txbuf - 1 := by
  have h1 := RingBuf.used_lt h
  have h2 : np.queue.length = np.ring.used txbuf := RingBuf.length_queue
  omega

theorem nm32aTxPut_wf (h : np.Wf) (c : UInt8) : (nm32aTxPut np c).Wf := RingBuf.Wf.put h c

theorem nm32aTxPut_queue (h : np.Wf) (c : UInt8) (hs : 1 ≤ nm32aTxSpace np) :
    (nm32aTxPut np c).queue = np.queue ++ [c] := by
  rw [nm32aTxSpace_eq h] at hs
  exact RingBuf.queue_put h c (by omega)

theorem nm32aTxPut_space (h : np.Wf) (c : UInt8) (hs : 1 ≤ nm32aTxSpace np) :
    nm32aTxSpace (nm32aTxPut np c) = nm32aTxSpace np - 1 := by
  rw [nm32aTxSpace_eq h] at hs
  have hu : (nm32aTxPut np c).ring.used txbuf = np.ring.used txbuf + 1 :=
    RingBuf.used_put h c (by omega)
  rw [nm32aTxSpace_eq (nm32aTxPut_wf h c), nm32aTxSpace_eq h, hu]
  omega

/-- two bytes at once, when there is room for both -/
theorem nm32aTxPut_two (h : np.Wf) (c d : UInt8) (hs : 2 ≤ nm32aTxSpace np) :
    (nm32aTxPut (nm32aTxPut np c) d).Wf ∧
      (nm32aTxPut (nm32aTxPut np c) d).queue = np.queue ++ [c, d] := by
  have h1 := nm32aTxPut_wf h c
  have hs1 : 1 ≤ nm32aTxSpace (nm32aTxPut np c) := by
    rw [nm32aTxPut_space h c (by omega)]
    omega
  refine ⟨nm32aTxPut_wf h1 d, ?_⟩
  rw [nm32aTxPut_queue h1 d hs1, nm32aTxPut_queue h c (by omega), List.append_assoc]
  rfl

/-! ## tokens -/

inductive Token where
  | data (b : UInt8) (h : b ≠ 0)
  | nul
  | start
  | stop
  deriving DecidableEq

def Token.bytes : Token → List UInt8
  | .data b _ => [b]
  | .nul => [0x00, 0x00]
  | .start => [0x00, 0x81]
  | .stop => [0x00, 0x83]

/-- the token of one byte of a write -/
def escape (b : UInt8) : Token := if h : b = 0 then .nul else .data b h

/-- the token of one call of `break_ctl` -/
def breakToken (state : Bool) : Token := if state then .start else .stop

def tokenBytes (ts : List Token) : List UInt8 := ts.flatMap Token.bytes

theorem tokenBytes_nil : tokenBytes [] = [] := rfl
theorem tokenBytes_cons (t : Token) (ts : List Token) :
    tokenBytes (t :: ts) = t.bytes ++ tokenBytes ts := rfl
theorem tokenBytes_append (ts us : List Token) :
    tokenBytes (ts ++ us) = tokenBytes ts ++ tokenBytes us := List.flatMap_append

theorem token_prefixCode : PrefixCode Token.bytes where
  ne_nil t := by cases t <;> simp [Token.bytes]
  eq_of_prefix t u h := by
    cases t <;> cases u <;> simp_all [Token.bytes]

/-- the bytes of a stream of tokens determine the tokens -/
theorem tokens_unique {ts us : List Token} (h : tokenBytes ts = tokenBytes us) : ts = us :=
  token_prefixCode.flatMap_injective h

theorem escape_bytes (b : UInt8) :
    (escape b).bytes = if b = 0 then [0x00, 0x00] else [b] := by
  unfold escape
  split <;> rfl

/-! ## what a producer does -/

/-- what a producer may change: the ring, and nothing else of the port -/
structure Port.SameState (np np' : Port) : Prop where
  opened : np'.opened = np.opened
  tail : np'.tail = np.tail
  errWin : np'.errWin = np.errWin
  errCnt : np'.errCnt = np.errCnt
  rxOff : np'.rxOff = np.rxOff

theorem Port.SameState.refl (np : Port) : np.SameState np := ⟨rfl, rfl, rfl, rfl, rfl⟩

theorem Port.SameState.trans {a b c : Port} (h : a.SameState b) (h' : b.SameState c) :
    a.SameState c :=
  ⟨h'.opened.trans h.opened, h'.tail.trans h.tail, h'.errWin.trans h.errWin,
    h'.errCnt.trans h.errCnt, h'.rxOff.trans h.rxOff⟩

theorem nm32aTxPut_same (np : Port) (c : UInt8) : np.SameState (nm32aTxPut np c) :=
  ⟨rfl, rfl, rfl, rfl, rfl⟩

theorem nm32aTtyWriteLocked_same (np : Port) (buf : List UInt8) :
    np.SameState (nm32aTtyWriteLocked np buf).1 := by
  induction buf generalizing np with
  | nil => exact .refl np
  | cons c rest ih =>
    rw [nm32aTtyWriteLocked]
    by_cases hs : nm32aTxSpace np < if c ≠ 0 then 1 else 2
    · simp only [if_pos hs]
      exact .refl np
    · simp only [if_neg hs]
      refine Port.SameState.trans ?_ (ih _)
      by_cases hc : c = 0
      · rw [if_pos hc]
        exact (nm32aTxPut_same _ _).trans (nm32aTxPut_same _ _)
      · rw [if_neg hc]
        exact nm32aTxPut_same _ _

theorem breakPut_same (np : Port) (state : Bool) : np.SameState (breakPut np state) := by
  unfold breakPut
  split
  · exact (nm32aTxPut_same _ _).trans (nm32aTxPut_same _ _)
  · exact .refl np

/-- one byte of a write, when there is room for it -/
theorem ttyWrite_byte (h : np.Wf) (c : UInt8) (hs : ¬nm32aTxSpace np < if c ≠ 0 then 1 else 2) :
    (if c = 0 then nm32aTxPut (nm32aTxPut np c) 0x00 else nm32aTxPut np c).Wf ∧
      (if c = 0 then nm32aTxPut (nm32aTxPut np c) 0x00 else nm32aTxPut np c).queue
        = np.queue ++ (escape c).bytes := by
  rw [escape_bytes]
  by_cases hc : c = 0
  · rw [if_neg (not_not.mpr hc)] at hs
    obtain ⟨hw, hq⟩ := nm32aTxPut_two h c 0x00 (by omega)
    rw [if_pos hc, if_pos hc]
    refine ⟨hw, ?_⟩
    rw [hq, hc]
  · rw [if_pos hc] at hs
    rw [if_neg hc, if_neg hc]
    exact ⟨nm32aTxPut_wf h c, nm32aTxPut_queue h c (by omega)⟩

/-- **`nm32a_tty_write` appends the escapes of the bytes it took, whole and in order.** -/
theorem nm32aTtyWriteLocked_queue (h : np.Wf) (buf : List UInt8) :
    (nm32aTtyWriteLocked np buf).1.Wf ∧ (nm32aTtyWriteLocked np buf).2 ≤ buf.length ∧
      (nm32aTtyWriteLocked np buf).1.queue = np.queue
        ++ tokenBytes ((buf.take (nm32aTtyWriteLocked np buf).2).map escape) := by
  induction buf generalizing np with
  | nil => exact ⟨h, Nat.le_refl _, (List.append_nil _).symm⟩
  | cons c rest ih =>
    rw [nm32aTtyWriteLocked]
    by_cases hs : nm32aTxSpace np < if c ≠ 0 then 1 else 2
    · simp only [if_pos hs]
      exact ⟨h, Nat.zero_le _, (List.append_nil _).symm⟩
    · simp only [if_neg hs]
      obtain ⟨hw, hq⟩ := ttyWrite_byte h c hs
      obtain ⟨hw', hle, hq'⟩ := ih hw
      refine ⟨hw', ?_, ?_⟩
      · rw [List.length_cons]
        omega
      · rw [hq', hq, List.take_succ_cons, List.map_cons, tokenBytes_cons, List.append_assoc]

/-- a break command is appended whole or not at all -/
theorem breakPut_queue (h : np.Wf) (state : Bool) :
    (breakPut np state).Wf ∧ (breakPut np state).queue = np.queue
        ++ if 2 ≤ nm32aTxSpace np then (breakToken state).bytes else [] := by
  unfold breakPut
  by_cases hs : 2 ≤ nm32aTxSpace np
  · rw [if_pos hs, if_pos hs]
    obtain ⟨hw, hq⟩ := nm32aTxPut_two h 0x00 (if state then 0x81 else 0x83) hs
    refine ⟨hw, ?_⟩
    rw [hq]
    cases state <;> rfl
  · rw [if_neg hs, if_neg hs]
    exact ⟨h, (List.append_nil _).symm⟩

end Nm32a
