import Relicnos.Nmconsole.Grammar
import Relicnos.Nmconsole.Server

/-!
# Data for the client

`telnet_write` stages the bytes in an array of 1024, a 255 twice, and hands the array over when
one more pair might not fit.  `Stage` is that array with its index, where a store outside of it
gives `none`.

* `telnetStaged_bufs`      the stores stay inside, and the buffers are those of `telnetBufs`;
* `telnetWrite_roundTrip`  they hold the data with every 255 doubled, no pair is parted, and
                           `telnet_filter` makes the data of them again.
-/

namespace Nmconsole

/-- the local state of `telnet_write`, and the buffers that were written -/
structure Stage where
  out : Vector UInt8 outSize
  o : Nat
  bufs : List (List UInt8)

namespace Stage

/-- `out[o++] = v` -/
def put (s : Stage) (v : UInt8) : Option Stage :=
  if h : s.o < outSize then some { s with out := s.out.set s.o v h, o := s.o + 1 } else none

/-- what is staged -/
def staged (s : Stage) : List UInt8 := s.out.toList.take s.o

def flush (s : Stage) : Stage := { s with o := 0, bufs := s.bufs ++ [s.staged] }

/-- the second 255 -/
def double (s : Stage) (c : UInt8) : Option Stage :=
  if c = IAC ∧ s.o < outSize then s.put IAC else some s

/-- one turn of the loop -/
def turn (s : Stage) (c : UInt8) : Option Stage := do
  let s ← s.put c
  let s ← s.double c
  return if outSize - 1 ≤ s.o then s.flush else s

def loop : Stage → List UInt8 → Option Stage
  | s, [] => some s
  | s, c :: bs => (s.turn c).bind fun s => loop s bs

end Stage

/-- the buffers of a call whose array holds `out0` before -/
def telnetStaged (out0 : Vector UInt8 outSize) (bs : List UInt8) : Option (List (List UInt8)) :=
  (Stage.loop ⟨out0, 0, []⟩ bs).map fun s => if s.o ≠ 0 then s.flush.bufs else s.bufs

/-! ## the stores stay inside -/

variable {s : Stage} {c v : UInt8} {bs : List UInt8}

/-- a byte more, where there is room -/
structure Stage.Put (s s' : Stage) (v : UInt8) : Prop where
  staged : s'.staged = s.staged ++ [v]
  o : s'.o = s.o + 1
  bufs : s'.bufs = s.bufs

theorem Stage.put_spec (h : s.o < outSize) (v : UInt8) : ∃ s', s.put v = some s' ∧ s.Put s' v := by
  refine ⟨_, dif_pos h, ?_, rfl, rfl⟩
  unfold Stage.staged
  have hlen : s.o < (s.out.toList.set s.o v).length := by
    rw [List.length_set, Vector.length_toList]
    exact h
  rw [Vector.toList_set, List.take_succ_eq_append_getElem hlen, List.getElem_set_self,
    List.take_set_of_le (Nat.le_refl _)]

/-- what a turn leaves staged, before it is handed over -/
def grown (out : List UInt8) (c : UInt8) : List UInt8 := out ++ escaped [c]

theorem Stage.staged_length (h : s.o ≤ outSize) : s.staged.length = s.o := by
  unfold Stage.staged
  rw [List.length_take, Vector.length_toList]
  omega

theorem grown_eq (out : List UInt8) (h : out.length + 1 < outSize) (c : UInt8) :
    (if c = IAC ∧ (out ++ [c]).length < outSize then out ++ [c] ++ [IAC] else out ++ [c])
      = grown out c := by
  have hl : (out ++ [c]).length < outSize := by
    rw [List.length_append]
    exact h
  unfold grown escaped
  by_cases hc : c = IAC
  · rw [if_pos ⟨hc, hl⟩, hc, List.append_assoc]
    rfl
  · rw [if_neg fun h => hc h.1]
    simp [hc]

/-- one turn, with two places free -/
theorem Stage.turn_spec (h : s.o + 1 < outSize) (c : UInt8) : ∃ s', s.turn c = some s' ∧
    s'.o + 1 < outSize ∧ if outSize - 1 ≤ (grown s.staged c).length then
        s'.staged = [] ∧ s'.bufs = s.bufs ++ [grown s.staged c]
      else s'.staged = grown s.staged c ∧ s'.bufs = s.bufs := by
  obtain ⟨s1, h1, hp1⟩ := s.put_spec (by omega) c
  obtain ⟨s2, h2, hs2, hb2, ho2⟩ : ∃ s2, s1.double c = some s2 ∧
      s2.staged = grown s.staged c ∧ s2.bufs = s.bufs ∧ s2.o ≤ outSize := by
    unfold Stage.double
    have ho1 := hp1.o
    by_cases hc : c = IAC
    · obtain ⟨s2, h2, hp2⟩ := s1.put_spec (by omega) IAC
      have ho2 := hp2.o
      refine ⟨s2, by rw [if_pos ⟨hc, by omega⟩, h2], ?_, hp2.bufs.trans hp1.bufs, by omega⟩
      rw [hp2.staged, hp1.staged, hc, List.append_assoc]
      rfl
    · refine ⟨s1, if_neg fun h => hc h.1, ?_, hp1.bufs, by omega⟩
      rw [hp1.staged]
      unfold grown escaped
      simp [hc]
  have hlen : (grown s.staged c).length = s2.o := by rw [← hs2, Stage.staged_length ho2]
  refine ⟨if outSize - 1 ≤ s2.o then s2.flush else s2, ?_, ?_, ?_⟩
  · unfold Stage.turn
    simp only [h1, h2, Option.bind_eq_bind, Option.bind_some]
    rfl
  · split
    · exact (by decide : 0 + 1 < outSize)
    · omega
  · rw [hlen]
    split
    · exact ⟨rfl, by rw [← hb2, ← hs2]; rfl⟩
    · exact ⟨hs2, hb2⟩

theorem telnetBufs_cons (out : List UInt8) (h : out.length + 1 < outSize) (c : UInt8)
    (bs : List UInt8) : telnetBufs out (c :: bs) = if outSize - 1 ≤ (grown out c).length then
      grown out c :: telnetBufs [] bs else telnetBufs (grown out c) bs := by
  rw [telnetBufs]
  simp only [grown_eq out h c]

/-- **No store leaves the array, and the buffers are those of `telnetBufs`.** -/
theorem Stage.loop_spec (h : s.o + 1 < outSize) (bs : List UInt8) :
    ∃ s', Stage.loop s bs = some s' ∧
    (if s'.o ≠ 0 then s'.flush.bufs else s'.bufs) = s.bufs ++ telnetBufs s.staged bs := by
  induction bs generalizing s with
  | nil =>
    refine ⟨s, rfl, ?_⟩
    have hlen := Stage.staged_length (s := s) (by omega)
    rw [telnetBufs]
    by_cases ho : s.o = 0
    · rw [if_neg (not_not.mpr ho), if_pos (List.length_eq_zero_iff.mp (hlen.trans ho)),
        List.append_nil]
    · rw [if_pos ho, if_neg fun e => ho (by rw [← hlen, e]; rfl)]
      rfl
  | cons c bs ih =>
    obtain ⟨s1, h1, ho, hs⟩ := Stage.turn_spec h c
    obtain ⟨s2, h2, hb⟩ := ih ho
    have hlen := Stage.staged_length (s := s) (by omega)
    refine ⟨s2, by rw [Stage.loop, h1]; exact h2, ?_⟩
    rw [hb, telnetBufs_cons _ (by omega)]
    split at hs
    · rename_i hfull
      rw [if_pos hfull, hs.1, hs.2, List.append_assoc]
      rfl
    · rename_i hroom
      rw [if_neg hroom, hs.1, hs.2]

theorem telnetStaged_bufs (out0 : Vector UInt8 outSize) (bs : List UInt8) :
    telnetStaged out0 bs = some (telnetBufs [] bs) := by
  obtain ⟨s, hs, hb⟩ := Stage.loop_spec (s := ⟨out0, 0, []⟩) (show 0 + 1 < outSize by decide) bs
  unfold telnetStaged
  rw [hs]
  exact congrArg some hb

/-! ## what the buffers hold -/

/-- the buffers are chunks of the data, doubled -/
theorem telnetBufs_chunks (staged bs : List UInt8) (h : (escaped staged).length + 1 < outSize) :
    ∃ chunks : List (List UInt8), telnetBufs (escaped staged) bs = chunks.map escaped ∧
      chunks.flatten = staged ++ bs := by
  induction bs generalizing staged with
  | nil =>
    rw [telnetBufs]
    by_cases he : escaped staged = []
    · rw [if_pos he]
      refine ⟨[], rfl, ?_⟩
      cases staged with
      | nil => rfl
      | cons c rest =>
        rw [escaped_cons] at he
        split at he <;> cases he
    · rw [if_neg he]
      exact ⟨[staged], rfl, by simp⟩
  | cons c bs ih =>
    have hg : grown (escaped staged) c = escaped (staged ++ [c]) := (escaped_append _ _).symm
    rw [telnetBufs_cons _ h, hg]
    split
    · obtain ⟨chunks, hc, hf⟩ := ih [] (by decide)
      rw [escaped_nil] at hc
      refine ⟨(staged ++ [c]) :: chunks, by rw [hc, List.map_cons], ?_⟩
      rw [List.flatten_cons, hf, List.append_assoc]
      rfl
    · rename_i hroom
      obtain ⟨chunks, hc, hf⟩ := ih (staged ++ [c]) (by omega)
      refine ⟨chunks, hc, ?_⟩
      rw [hf, List.append_assoc]
      rfl

theorem flatten_escaped (chunks : List (List UInt8)) :
    (chunks.map escaped).flatten = escaped chunks.flatten := by
  induction chunks with
  | nil => rfl
  | cons chunk chunks ih =>
    rw [List.map_cons, List.flatten_cons, List.flatten_cons, ih, escaped_append]

/-- **What goes out is the data with every 255 doubled, and the filter makes the data of it
again**, with no reply and no break. -/
theorem telnetWrite_roundTrip (tty : Bool) (fd : Nat) (out0 : Vector UInt8 outSize)
    (bs : List UInt8) : ∃ bufs chunks : List (List UInt8), telnetStaged out0 bs = some bufs ∧
      telnetWrite fd bs = writeAll fd bufs ∧ bufs.flatten = escaped bs ∧
      bufs = chunks.map escaped ∧ chunks.flatten = bs ∧
      filtered tty bufs.flatten = ⟨bs, []⟩ := by
  obtain ⟨chunks, hc, hf⟩ := telnetBufs_chunks [] bs (by decide)
  have hflat : (telnetBufs [] bs).flatten = escaped bs := by
    have hc' : telnetBufs [] bs = chunks.map escaped := hc
    rw [hc', flatten_escaped, hf]
    rfl
  refine ⟨telnetBufs [] bs, chunks, telnetStaged_bufs out0 bs, rfl, hflat, hc, hf, ?_⟩
  have h := @scan_escaped tty bs []
  rw [List.append_nil, scan_nil, Filtered.append_empty] at h
  rw [hflat, filtered_scan, h]

end Nmconsole
