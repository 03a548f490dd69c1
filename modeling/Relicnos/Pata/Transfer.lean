import Mathlib.Logic.Function.Basic
import Relicnos.Pata.Device

/-!
# The data port

The medium is a stream of bytes with a position.  One access of the data port moves two of them,
the low byte of the halfword first.  `c2811_data_xfer` takes the bytes of its buffer in pairs, and
pads the last one of an odd length.  Every access to the buffer is checked against its length, so
an access outside of it would give `none`.

* `Medium.next`, `Medium.put`   one byte, and the position after it;
* `c2811DataXfer`  the function of the source, over a buffer;
* `xfers`          calls for one piece of a buffer after the other;
* `InPairs`        the pieces are of even length, the last one of any;
* `dataXfer_order`  however a buffer is split, it is written and read in order, and what was
                   written is what is read back.
-/

set_option linter.unusedVariables false

namespace Pata

structure Medium where
  bytes : Nat → UInt8
  pos : Nat

namespace Medium

def next (m : Medium) : UInt8 × Medium := (m.bytes m.pos, { m with pos := m.pos + 1 })

def put (m : Medium) (b : UInt8) : Medium := ⟨Function.update m.bytes m.pos b, m.pos + 1⟩

/-- `__raw_readw` of the data port -/
def readw (m : Medium) : UInt16 × Medium :=
  let (lo, m) := m.next
  let (hi, m) := m.next
  (pair hi lo, m)

/-- `__raw_writew` of the data port -/
def writew (m : Medium) (w : UInt16) : Medium := (m.put w.toUInt8).put (w >>> 8).toUInt8

/-- back to a position -/
def seek (m : Medium) (pos : Nat) : Medium := { m with pos := pos }

/-- the next `n` bytes -/
def take (m : Medium) : Nat → List UInt8
  | 0 => []
  | n + 1 => m.next.1 :: m.next.2.take n

/-- bytes put one after the other -/
def feed (m : Medium) : List UInt8 → Medium
  | [] => m
  | b :: bs => (m.put b).feed bs

end Medium

/-! ## the driver -/

inductive Rw where
  | read
  | write
  deriving DecidableEq

/-- `buf[k] = v` -/
def store (buf : List UInt8) (k : Nat) (v : UInt8) : Option (List UInt8) :=
  if k < buf.length then some (buf.set k v) else none

/-- the loop of a read, from word `i` on -/
def readWords : Nat → Nat → List UInt8 → Medium → Option (List UInt8 × Medium)
  | 0, _, buf, m => some (buf, m)
  | n + 1, i, buf, m => do
    let (w, m) := m.readw
    let buf ← store buf (i * 2) (w &&& 0xff).toUInt8
    let buf ← store buf (i * 2 + 1) (w >>> 8).toUInt8
    readWords n (i + 1) buf m

/-- the loop of a write -/
def writeWords : Nat → Nat → List UInt8 → Medium → Option Medium
  | 0, _, _, m => some m
  | n + 1, i, buf, m => do
    let lo ← buf[i * 2]?
    let hi ← buf[i * 2 + 1]?
    writeWords n (i + 1) buf (m.writew (lo.toUInt16 ||| (hi.toUInt16 <<< 8)))

/-- the result with the buffer and the medium after it -/
structure Xfer where
  ret : Nat
  buf : List UInt8
  medium : Medium

def c2811DataXfer (buf : List UInt8) (buflen : Nat) (rw : Rw) (m : Medium) : Option Xfer :=
  match rw with
  | .read => do
    let (buf, m) ← readWords (buflen >>> 1) 0 buf m
    if buflen &&& 1 ≠ 0 then
      let (w, m) := m.readw
      let buf ← store buf (buflen - 1) (w &&& 0xff).toUInt8
      return ⟨buflen, buf, m⟩
    else
      return ⟨buflen, buf, m⟩
  | .write => do
    let m ← writeWords (buflen >>> 1) 0 buf m
    if buflen &&& 1 ≠ 0 then
      let b ← buf[buflen - 1]?
      return ⟨buflen, buf, m.writew b.toUInt16⟩
    else
      return ⟨buflen, buf, m⟩

/-- one call for each piece -/
def xfers (rw : Rw) : List (List UInt8) → Medium → Option (List (List UInt8) × Medium)
  | [], m => some ([], m)
  | buf :: bufs, m => do
    let x ← c2811DataXfer buf buf.length rw m
    let (bufs, m) ← xfers rw bufs x.medium
    return (x.buf :: bufs, m)

/-- a piece of odd length is the last one -/
def InPairs : List (List UInt8) → Prop
  | [] => True
  | [_] => True
  | buf :: bufs => buf.length % 2 = 0 ∧ InPairs bufs

/-- what is added to an odd number of bytes -/
def padding (n : Nat) : List UInt8 := if n % 2 = 0 then [] else [0x00]

/-! ## halfwords and bytes -/

theorem readw_eq (m : Medium) :
    m.readw = (pair (m.bytes (m.pos + 1)) (m.bytes m.pos), m.seek (m.pos + 2)) := rfl

theorem writew_pair (m : Medium) (hi lo : UInt8) : m.writew (pair hi lo) = m.feed [lo, hi] := by
  unfold Medium.writew
  rw [pair_lo, pair_hi]
  rfl

theorem low_byte (hi lo : UInt8) : (pair hi lo &&& 0xff).toUInt8 = lo := by
  rw [UInt16.toUInt8_and, pair_lo]
  exact UInt8.and_neg_one

namespace Medium

theorem take_add (m : Medium) (a b : Nat) :
    m.take (a + b) = m.take a ++ (m.seek (m.pos + a)).take b := by
  induction a generalizing m with
  | zero => rw [Nat.zero_add]; rfl
  | succ a ih =>
    rw [Nat.succ_add]
    show m.next.1 :: m.next.2.take (a + b) = m.next.1 :: (m.next.2.take a ++ _)
    rw [ih]
    have hpos : m.next.2.pos + a = m.pos + (a + 1) := by
      show m.pos + 1 + a = m.pos + (a + 1)
      omega
    rw [hpos]
    rfl

theorem take_length (m : Medium) (n : Nat) : (m.take n).length = n := by
  induction n generalizing m with
  | zero => rfl
  | succ n ih => exact congrArg Nat.succ (ih _)

theorem feed_append (m : Medium) (as bs : List UInt8) :
    m.feed (as ++ bs) = (m.feed as).feed bs := by
  induction as generalizing m with
  | nil => rfl
  | cons a as ih => exact ih _

theorem feed_pos (m : Medium) (bs : List UInt8) : (m.feed bs).pos = m.pos + bs.length := by
  induction bs generalizing m with
  | nil => rfl
  | cons b bs ih =>
    show ((m.put b).feed bs).pos = m.pos + (bs.length + 1)
    rw [ih]
    show m.pos + 1 + bs.length = _
    omega

/-- what is before the position stays -/
theorem feed_before (m : Medium) (bs : List UInt8) {k : Nat} (hk : k < m.pos) :
    (m.feed bs).bytes k = m.bytes k := by
  induction bs generalizing m with
  | nil => rfl
  | cons b bs ih =>
    show ((m.put b).feed bs).bytes k = m.bytes k
    rw [ih _ (Nat.lt_succ_of_lt hk)]
    exact Function.update_of_ne (Nat.ne_of_lt hk) _ _

/-- **What is put is there.** -/
theorem take_feed (m : Medium) (bs : List UInt8) :
    ((m.feed bs).seek m.pos).take bs.length = bs := by
  induction bs generalizing m with
  | nil => rfl
  | cons b bs ih =>
    have hhead : ((m.put b).feed bs).bytes m.pos = b := by
      rw [feed_before _ _ (Nat.lt_succ_self m.pos)]
      exact Function.update_self _ _ _
    show ((m.put b).feed bs).bytes m.pos :: (((m.put b).feed bs).seek (m.put b).pos).take bs.length
      = b :: bs
    rw [hhead, ih]

end Medium

/-! ## one call -/

theorem store_append {pre rest : List UInt8} {k : Nat} (x v : UInt8) (hk : k = pre.length) :
    store (pre ++ x :: rest) k v = some (pre ++ v :: rest) := by
  subst hk
  unfold store
  rw [if_pos (by rw [List.length_append, List.length_cons]; omega),
    List.set_append_right _ _ (Nat.le_refl _), Nat.sub_self]
  rfl

/-- the two bytes of a word -/
theorem store_pair {pre rest : List UInt8} {i : Nat} (a b lo hi : UInt8)
    (hi' : i * 2 = pre.length) :
    ((store (pre ++ a :: b :: rest) (i * 2) lo).bind fun buf => store buf (i * 2 + 1) hi)
      = some (pre ++ [lo, hi] ++ rest) := by
  have hsplit : ∀ x : UInt8, pre ++ lo :: x :: rest = (pre ++ [lo]) ++ x :: rest := by
    intro x
    rw [List.append_assoc]
    rfl
  have hlen : i * 2 + 1 = (pre ++ [lo]).length := by
    rw [List.length_append, ← hi']
    rfl
  rw [store_append a lo hi', Option.bind_some, hsplit, store_append b hi hlen, ← hsplit,
    List.append_assoc]
  rfl

theorem readWords_succ (n i : Nat) (buf : List UInt8) (m : Medium) : readWords (n + 1) i buf m
    = ((store buf (i * 2) (m.bytes m.pos)).bind fun buf =>
        store buf (i * 2 + 1) (m.bytes (m.pos + 1))).bind fun buf =>
          readWords n (i + 1) buf (m.seek (m.pos + 2)) := by
  rw [readWords, readw_eq]
  simp only [Option.bind_eq_bind, low_byte, pair_hi, Option.bind_assoc]

/-- the words of a read, after `pre` -/
theorem readWords_take {n i : Nat} {pre rest : List UInt8} (m : Medium) (hi : i * 2 = pre.length)
    (hn : 2 * n ≤ rest.length) : readWords n i (pre ++ rest) m
      = some (pre ++ m.take (2 * n) ++ rest.drop (2 * n), m.seek (m.pos + 2 * n)) := by
  induction n generalizing i pre rest m with
  | zero =>
    show some (pre ++ rest, m) = some (pre ++ [] ++ rest, m)
    rw [List.append_nil]
  | succ n ih =>
    match rest, hn with
    | a :: b :: rest, hn =>
      rw [List.length_cons, List.length_cons] at hn
      have hi' : (i + 1) * 2 = (pre ++ [m.bytes m.pos, m.bytes (m.pos + 1)]).length := by
        rw [List.length_append, ← hi]
        show (i + 1) * 2 = i * 2 + 2
        omega
      rw [readWords_succ, store_pair a b _ _ hi, Option.bind_some, ih _ hi' (by omega)]
      have hdouble : 2 * (n + 1) = 2 + 2 * n := by omega
      rw [hdouble, Medium.take_add, ← List.append_assoc, Nat.add_comm 2 (2 * n)]
      have hpos : (m.seek (m.pos + 2)).pos + 2 * n = m.pos + (2 * n + 2) := by
        show m.pos + 2 + 2 * n = _
        omega
      rw [hpos]
      rfl

/-- the words of a write -/
theorem writeWords_feed {n i : Nat} {pre rest : List UInt8} (m : Medium)
    (hpre : i * 2 = pre.length) (hn : 2 * n ≤ rest.length) :
    writeWords n i (pre ++ rest) m = some (m.feed (rest.take (2 * n))) := by
  induction n generalizing i pre rest m with
  | zero => rfl
  | succ n ih =>
    match rest, hn with
    | lo :: hi :: rest, hn =>
      rw [List.length_cons, List.length_cons] at hn
      have hlo : (pre ++ lo :: hi :: rest)[i * 2]? = some lo := by
        rw [hpre, List.getElem?_append_right (Nat.le_refl _), Nat.sub_self]
        rfl
      have hhi : (pre ++ lo :: hi :: rest)[i * 2 + 1]? = some hi := by
        rw [hpre, List.getElem?_append_right (Nat.le_succ _), Nat.succ_sub (Nat.le_refl _),
          Nat.sub_self]
        rfl
      have hnext : (i + 1) * 2 = (pre ++ [lo, hi]).length := by
        rw [List.length_append, ← hpre]
        show (i + 1) * 2 = i * 2 + 2
        omega
      have hsplit : pre ++ lo :: hi :: rest = pre ++ [lo, hi] ++ rest := by
        rw [List.append_assoc]
        rfl
      have hword : lo.toUInt16 ||| (hi.toUInt16 <<< 8) = pair hi lo := UInt16.or_comm _ _
      rw [writeWords, hlo, hhi]
      simp only [Option.bind_eq_bind, Option.bind_some]
      rw [hword, writew_pair, hsplit, ih _ hnext (by omega), ← Medium.feed_append]
      have hdouble : 2 * (n + 1) = 2 * n + 2 := by omega
      rw [hdouble]
      rfl

/-- `buflen >> 1` words, and what is left of the last one -/
theorem words_rest (k : Nat) : 2 * (k >>> 1) + k % 2 = k := by
  rw [Nat.shiftRight_eq_div_pow]
  exact Nat.div_add_mod k 2

/-- **A read fills the buffer with the next bytes**, and moves on by whole words. -/
theorem dataXfer_read (buf : List UInt8) (m : Medium) : c2811DataXfer buf buf.length .read m
    = some ⟨buf.length, m.take buf.length, m.seek (m.pos + (buf.length + buf.length % 2))⟩ := by
  have hrest := words_rest buf.length
  have hle : 2 * (buf.length >>> 1) ≤ buf.length := by omega
  have hwords : readWords (buf.length >>> 1) 0 ([] ++ buf) m = _ := readWords_take m rfl hle
  unfold c2811DataXfer
  rw [List.nil_append, List.nil_append] at hwords
  simp only [hwords, Option.bind_eq_bind, Option.bind_some, Nat.and_one_is_mod]
  generalize buf.length >>> 1 = n at hrest hle
  by_cases heven : buf.length % 2 = 0
  · have hn : 2 * n = buf.length := by omega
    rw [if_neg (not_not.mpr heven), hn, List.drop_length, List.append_nil, heven]
    rfl
  · have hn : 2 * n + 1 = buf.length := by omega
    obtain ⟨b, hb⟩ := List.length_eq_one_iff.mp
      (show (buf.drop (2 * n)).length = 1 by rw [List.length_drop]; omega)
    have hlast : buf.length - 1 = (m.take (2 * n)).length := by
      rw [Medium.take_length]
      omega
    have hbytes : m.take buf.length = m.take (2 * n) ++ [m.bytes (m.pos + 2 * n)] := by
      rw [← hn, Medium.take_add]
      rfl
    have hpos : m.pos + (buf.length + buf.length % 2) = m.pos + 2 * n + 2 := by omega
    rw [if_pos heven, readw_eq, hb, low_byte, store_append b _ hlast, hbytes, hpos]
    rfl

/-- **A write puts the bytes of the buffer**, and a 0 after an odd number of them. -/
theorem dataXfer_write (buf : List UInt8) (m : Medium) : c2811DataXfer buf buf.length .write m
    = some ⟨buf.length, buf, m.feed (buf ++ padding buf.length)⟩ := by
  have hrest := words_rest buf.length
  have hle : 2 * (buf.length >>> 1) ≤ buf.length := by omega
  have hwords : writeWords (buf.length >>> 1) 0 ([] ++ buf) m = _ := writeWords_feed m rfl hle
  unfold c2811DataXfer
  rw [List.nil_append] at hwords
  simp only [hwords, Option.bind_eq_bind, Option.bind_some, Nat.and_one_is_mod]
  generalize buf.length >>> 1 = n at hrest hle
  unfold padding
  by_cases heven : buf.length % 2 = 0
  · have hn : 2 * n = buf.length := by omega
    rw [if_neg (not_not.mpr heven), if_pos heven, hn, List.take_length, List.append_nil]
    rfl
  · have hlast : buf.length - 1 < buf.length := by omega
    have hn : 2 * n = buf.length - 1 := by omega
    have hbytes : buf = buf.take (buf.length - 1) ++ [buf[buf.length - 1]] := by
      conv_lhs => rw [← List.take_length (l := buf)]
      rw [← List.take_succ_eq_append_getElem hlast]
      congr 1
      omega
    have hfed : buf ++ [0x00] = buf.take (buf.length - 1) ++ [buf[buf.length - 1], 0x00] := by
      conv_lhs => rw [hbytes]
      rw [List.append_assoc]
      rfl
    rw [if_pos heven, if_neg heven, List.getElem?_eq_getElem hlast, Option.bind_some, pair_ctl,
      writew_pair, hn, hfed, Medium.feed_append]
    rfl

/-! ## a buffer in pieces -/

variable {bufs ws rs : List (List UInt8)}

theorem InPairs.cons {buf : List UInt8} (h : InPairs (buf :: bufs)) :
    (bufs = [] ∨ buf.length % 2 = 0) ∧ InPairs bufs := by
  cases bufs with
  | nil => exact ⟨.inl rfl, trivial⟩
  | cons buf' bufs => exact ⟨.inr h.1, h.2⟩

theorem padding_add {a : Nat} (b : Nat) (h : a % 2 = 0) : padding (a + b) = padding b := by
  have hmod : (a + b) % 2 = b % 2 := by omega
  unfold padding
  rw [hmod]

theorem xfers_write (m : Medium) (h : InPairs bufs) : xfers .write bufs m
    = some (bufs, m.feed (bufs.flatten ++ padding bufs.flatten.length)) := by
  induction bufs generalizing m with
  | nil => rfl
  | cons buf bufs ih =>
    obtain ⟨hcase, hbufs⟩ := h.cons
    have hcall := dataXfer_write buf m
    unfold xfers
    rw [hcall]
    simp only [Option.bind_eq_bind, Option.bind_some]
    rw [ih _ hbufs, ← Medium.feed_append]
    simp only [Option.bind_some]
    rw [List.flatten_cons, List.length_append]
    obtain rfl | heven := hcase
    · show some ([buf], m.feed (buf ++ padding buf.length ++ []))
        = some ([buf], m.feed (buf ++ [] ++ padding buf.length))
      rw [List.append_nil, List.append_nil]
    · have hpad : padding buf.length = [] := if_pos heven
      rw [hpad, List.append_nil, padding_add _ heven, List.append_assoc]
      rfl

theorem xfers_read (m : Medium) (h : InPairs bufs) : ∃ bufs',
    xfers .read bufs m
      = some (bufs', m.seek (m.pos + (bufs.flatten.length + bufs.flatten.length % 2))) ∧
    bufs'.flatten = m.take bufs.flatten.length ∧ bufs'.map List.length = bufs.map List.length := by
  induction bufs generalizing m with
  | nil => exact ⟨[], rfl, rfl, rfl⟩
  | cons buf bufs ih =>
    obtain ⟨hcase, hbufs⟩ := h.cons
    obtain ⟨bufs', hread, hflat, hlen⟩ :=
      ih (m.seek (m.pos + (buf.length + buf.length % 2))) hbufs
    have hcall := dataXfer_read buf m
    refine ⟨m.take buf.length :: bufs', ?_, ?_, ?_⟩
    · unfold xfers
      rw [hcall]
      simp only [Option.bind_eq_bind, Option.bind_some]
      rw [hread]
      simp only [Option.bind_some]
      have hpos : (m.seek (m.pos + (buf.length + buf.length % 2))).pos +
          (bufs.flatten.length + bufs.flatten.length % 2)
          = m.pos + ((buf :: bufs).flatten.length + (buf :: bufs).flatten.length % 2) := by
        show m.pos + (buf.length + buf.length % 2) + _ = _
        rw [List.flatten_cons, List.length_append]
        obtain rfl | heven := hcase
        · show m.pos + (buf.length + buf.length % 2) + 0 = m.pos + (buf.length + 0 +
            (buf.length + 0) % 2)
          omega
        · omega
      rw [hpos]
      rfl
    · rw [List.flatten_cons, hflat, List.flatten_cons, List.length_append, Medium.take_add]
      obtain rfl | heven := hcase
      · rfl
      · rw [heven, Nat.add_zero]
    · rw [List.map_cons, List.map_cons, Medium.take_length, hlen]

/-- **The order of the bytes does not depend on how a buffer is split.**  A write puts the bytes
of the buffer on the medium in order, with one more if their number is odd; a read fills the
buffer with the bytes of any medium in order; and what was written is what is read back, where
each is split in a way of its own.  No call leaves its buffer. -/
theorem dataXfer_order (m m0 : Medium) (hws : InPairs ws) (hrs : InPairs rs)
    (hlen : rs.flatten.length = ws.flatten.length) :
    ∃ m', xfers .write ws m = some (ws, m') ∧
      m' = m.feed (ws.flatten ++ padding ws.flatten.length) ∧
      (∃ rs', xfers .read rs m0
          = some (rs', m0.seek (m0.pos + (rs.flatten.length + rs.flatten.length % 2))) ∧
        rs'.flatten = m0.take rs.flatten.length ∧
        rs'.map List.length = rs.map List.length) ∧
      ∃ rs', xfers .read rs (m'.seek m.pos) = some (rs', m') ∧ rs'.flatten = ws.flatten ∧
        rs'.map List.length = rs.map List.length := by
  refine ⟨_, xfers_write m hws, rfl, xfers_read m0 hrs, ?_⟩
  generalize hm' : m.feed (ws.flatten ++ padding ws.flatten.length) = m'
  have hpad : (padding ws.flatten.length).length = ws.flatten.length % 2 := by
    unfold padding
    split
    · rename_i heven
      exact heven.symm
    · rename_i hodd
      show 1 = ws.flatten.length % 2
      omega
  have hpos : m'.pos = m.pos + (ws.flatten.length + ws.flatten.length % 2) := by
    rw [← hm', Medium.feed_pos, List.length_append, hpad]
  obtain ⟨rs', hread, hflat, hsizes⟩ := xfers_read (m'.seek m.pos) hrs
  refine ⟨rs', ?_, ?_, hsizes⟩
  · rw [hread, hlen]
    show some (rs', m'.seek (m.pos + _)) = some (rs', m')
    rw [← hpos]
    rfl
  · -- the bytes that were put, up to the padding
    have hback := Medium.take_feed m (ws.flatten ++ padding ws.flatten.length)
    rw [hm', List.length_append, Medium.take_add] at hback
    rw [hflat, hlen]
    exact (List.append_inj hback (Medium.take_length _ _)).1

/-- a medium of zeros -/
def blank : Medium := ⟨fun _ => 0x00, 0⟩

/-- five bytes written as two and three, and read as four and one -/
theorem dataXfer_order_split : ∃ m' rs',
    xfers .write [[0x55, 0xAA], [0x01, 0x02, 0x03]] blank
      = some ([[0x55, 0xAA], [0x01, 0x02, 0x03]], m') ∧
    xfers .read [[0, 0, 0, 0], [0]] (m'.seek 0) = some (rs', m') ∧
    rs'.flatten = [0x55, 0xAA, 0x01, 0x02, 0x03] := by
  have hws : InPairs [[0x55, 0xAA], [0x01, 0x02, 0x03]] := ⟨by decide, trivial⟩
  have hrs : InPairs [[0, 0, 0, 0], [0]] := ⟨by decide, trivial⟩
  obtain ⟨m', hwrite, _, _, rs', hread, hflat, _⟩ :=
    dataXfer_order blank blank hws hrs (by decide)
  exact ⟨m', rs', hwrite, hread, hflat⟩

end Pata
