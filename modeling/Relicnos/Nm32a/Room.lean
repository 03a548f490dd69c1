import Relicnos.Nm32a.TxRing

/-!
# Room in the ring, counted in slots and in bytes

`nm32a_tty_write_room` reports free slots.  `nm32a_tty_write` takes bytes, and a NUL costs two
slots, so what the room promises depends on the buffer.

* `nm32aTtyWriteLocked_all`  a buffer is taken whole exactly if its slots are free;
* `write_room_iff`           the same for a buffer within the reported room, where the transmit
                             service may have run since;
* `write_room_text`          a buffer without a NUL is taken whole.
-/

set_option linter.unusedVariables false

namespace Nm32a
open Interact

def nm32aTtyWriteRoom : Option Port → Nat
  | none => 0
  | some np =>
    let used := (np.head + 2^32 - np.tail + txbuf) % 2^32 % txbuf
    txbuf - 1 - used

/-- slots that a buffer needs -/
def slots (buf : List UInt8) : Nat := buf.length + buf.count 0

theorem slots_cons (b : UInt8) (buf : List UInt8) :
    slots (b :: buf) = slots buf + if b ≠ 0 then 1 else 2 := by
  by_cases hb : b = 0
  · subst hb
    rw [if_neg (not_not.mpr rfl)]
    show (0 :: buf).length + (0 :: buf).count 0 = buf.length + buf.count 0 + 2
    rw [List.count_cons_self, List.length_cons]
    omega
  · rw [if_pos hb]
    show (b :: buf).length + (b :: buf).count 0 = buf.length + buf.count 0 + 1
    rw [List.count_cons_of_ne hb, List.length_cons]
    omega

theorem slots_tokens (buf : List UInt8) : slots buf = (tokenBytes (buf.map escape)).length := by
  induction buf with
  | nil => rfl
  | cons b buf ih =>
    rw [slots_cons, ih, List.map_cons, tokenBytes_cons, List.length_append, escape_bytes]
    by_cases hb : b = 0
    · rw [if_neg (not_not.mpr hb), if_pos hb]
      show _ + 2 = 2 + _
      omega
    · rw [if_pos hb, if_neg hb]
      show _ + 1 = 1 + _
      omega

theorem slots_text {buf : List UInt8} (h : 0 ∉ buf) : slots buf = buf.length := by
  unfold slots
  rw [List.count_eq_zero_of_not_mem h]
  rfl

variable {np np' : Port}

/-- one byte of a write uses up its slots -/
theorem ttyWrite_byte_space (h : np.Wf) (c : UInt8)
    (hs : ¬nm32aTxSpace np < if c ≠ 0 then 1 else 2) :
    nm32aTxSpace (if c = 0 then nm32aTxPut (nm32aTxPut np c) 0x00 else nm32aTxPut np c)
      = nm32aTxSpace np - if c ≠ 0 then 1 else 2 := by
  by_cases hc : c = 0
  · rw [if_neg (not_not.mpr hc)] at hs
    rw [if_pos hc, if_neg (not_not.mpr hc)]
    have h1 := nm32aTxPut_space h c (by omega)
    rw [nm32aTxPut_space (nm32aTxPut_wf h c) 0x00 (by omega), h1]
    omega
  · rw [if_pos hc] at hs
    rw [if_neg hc, if_pos hc]
    exact nm32aTxPut_space h c (by omega)

/-- **A buffer is taken whole exactly if it fits.** -/
theorem nm32aTtyWriteLocked_all (h : np.Wf) (buf : List UInt8) :
    (nm32aTtyWriteLocked np buf).2 = buf.length ↔ slots buf ≤ nm32aTxSpace np := by
  induction buf generalizing np with
  | nil => exact ⟨fun _ => Nat.zero_le _, fun _ => rfl⟩
  | cons c rest ih =>
    rw [nm32aTtyWriteLocked, slots_cons, List.length_cons]
    by_cases hs : nm32aTxSpace np < if c ≠ 0 then 1 else 2
    · simp only [if_pos hs]
      constructor
      · intro h0
        omega
      · intro h0
        omega
    · simp only [if_neg hs]
      have ih' := ih (ttyWrite_byte h c hs).1
      rw [ttyWrite_byte_space h c hs] at ih'
      constructor
      · intro h0
        have h1 := ih'.mp (by omega)
        omega
      · intro h0
        have h1 := ih'.mpr (by omega)
        omega

/-! ## the transmit service in between -/

/-- the service takes the oldest byte -/
def Port.pop (np : Port) : Port := { np with tail := (np.tail + 1) % txbuf }

/-- any number of bytes taken, with no producer in between -/
inductive Port.Drains : Port → Port → Prop
  | none (np : Port) : Drains np np
  | pop {np np' : Port} : Drains np np' → np'.head ≠ np'.tail → Drains np np'.pop

theorem Port.Drains.wf (hd : np.Drains np') (h : np.Wf) : np'.Wf := by
  induction hd with
  | none => exact h
  | pop _ _ ih => exact RingBuf.Wf.pop ih

/-- room only grows -/
theorem Port.Drains.space (hd : np.Drains np') (h : np.Wf) :
    nm32aTxSpace np ≤ nm32aTxSpace np' := by
  induction hd with
  | none => exact Nat.le_refl _
  | @pop np' hd hne ih =>
    have hu : (np'.ring.pop txbuf).used txbuf + 1 = np'.ring.used txbuf :=
      RingBuf.used_pop (hd.wf h) hne
    have hp : nm32aTxSpace np'.pop = txbuf - 1 - (np'.ring.pop txbuf).used txbuf :=
      nm32aTxSpace_eq (RingBuf.Wf.pop (hd.wf h))
    rw [nm32aTxSpace_eq (hd.wf h)] at ih
    rw [hp]
    omega

/-! ## the promise -/

/-- a write takes the whole buffer and says so -/
def Accepts (np : Port) (buf : List UInt8) : Prop :=
  (nm32aTtyWrite (some np) buf).2 = buf.length ∧
    (nm32aTtyWrite (some np) buf).1.map Port.queue
      = some (np.queue ++ tokenBytes (buf.map escape))

theorem accepts_iff (h : np.Wf) (buf : List UInt8) :
    Accepts np buf ↔ slots buf ≤ nm32aTxSpace np := by
  rw [← nm32aTtyWriteLocked_all h buf]
  constructor
  · intro ha
    exact Int.ofNat_inj.mp ha.1
  · intro hn
    refine ⟨congrArg Int.ofNat hn, ?_⟩
    show some (nm32aTtyWriteLocked np buf).1.queue = _
    rw [(nm32aTtyWriteLocked_queue h buf).2.2, hn, List.take_length]

/-- **What the reported room is worth.** -/
theorem write_room_iff (np np' : Port) (buf : List UInt8) (h : np.Wf) (hd : np.Drains np')
    (hn : buf.length ≤ nm32aTtyWriteRoom (some np)) :
    Accepts np' buf ↔ buf.length + buf.count 0 ≤ nm32aTtyWriteRoom (some np') :=
  accepts_iff (hd.wf h) buf

/-- a buffer without a NUL is always taken whole -/
theorem write_room_text {buf : List UInt8} (h : np.Wf) (hd : np.Drains np')
    (hn : buf.length ≤ nm32aTtyWriteRoom (some np)) (hb : 0 ∉ buf) : Accepts np' buf := by
  apply (accepts_iff (hd.wf h) buf).mpr
  rw [slots_text hb]
  exact Nat.le_trans hn (hd.space h)

/-- a ring with one free slot -/
def nearlyFull : Port where
  opened := true
  tx _ := 0x41
  head := 1022
  tail := 0
  errWin := 0
  errCnt := 0
  rxOff := false

theorem nearlyFull_wf : nearlyFull.Wf := ⟨by decide, by decide⟩

/-- one NUL is refused although there is room for one byte -/
theorem write_room_fails : ¬∀ (np np' : Port) (buf : List UInt8), np.Wf → np.Drains np' →
    buf.length ≤ nm32aTtyWriteRoom (some np) → Accepts np' buf := by
  intro h
  have h1 := (h nearlyFull nearlyFull [0x00] nearlyFull_wf (.none _) (by decide)).1
  exact absurd h1 (by decide)

/-- the service makes room for it -/
theorem write_room_nul : Accepts nearlyFull.pop [0x00] :=
  (write_room_iff nearlyFull nearlyFull.pop [0x00] nearlyFull_wf
    (.pop (.none _) (by decide)) (by decide)).mpr (by decide)

end Nm32a
