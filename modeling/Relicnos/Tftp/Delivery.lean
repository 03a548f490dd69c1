import Relicnos.Interact.Policy
import Relicnos.Tftp.Network

/-!
# Delivery of the file

Everything that is on its way was sent at the block it is about, give or take one, and the client
is at the block of the server or one further.  As no packet outlives `lifetime` blocks, a number
modulo 65536 then names one block only.

* `Inv`             what holds from the opening of the file on, at every point of the transfer;
* `Inv.deliver`     a delivery keeps it;
* `wp_sendBlock`    the wait for an ACK ends with the client one block further;
* `serve_delivers`  what the client has is a prefix of the file at all times, and the whole file
                    when `serve_one` returns true.
-/

set_option linter.unusedVariables false

namespace Tftp
open Interact

/-! ## numbers modulo 65536 -/

theorem wire_inj {a b : Nat} (h : wire a = wire b) (hl : a ≤ b + 65535) (hr : b ≤ a + 65535) :
    a = b := by
  rw [wire_eq, wire_eq] at h
  omega

/-! ## what the client does -/

theorem receive_data (c : Client) (blk : Nat) (body : Bytes) :
    c.receive (dataPacket blk body) =
      if wire blk = wire c.next then
        ({ next := c.next + 1, data := c.data ++ body }, some (ackPacket c.next))
      else if wire blk = wire (c.next - 1) then
        (c, some (ackPacket (c.next - 1)))
      else
        (c, none) := by
  unfold Client.receive
  rw [opcode_dataPacket, number_dataPacket, drop_dataPacket, if_pos rfl]
  simp only [Option.some.injEq]

theorem receive_oack (c : Client) {pkt : Bytes} (h : opcode pkt = some opOack) :
    c.receive pkt = if c.next = 1 then (c, some (ackPacket 0)) else (c, none) := by
  unfold Client.receive
  rw [h, if_neg (by decide)]
  simp only [true_and]

/-! ## the invariant -/

/-- block `blk` of a file, counted from 1 -/
def block (file : Bytes) (blksize blk : Nat) : Bytes :=
  (file.drop ((blk - 1) * blksize)).take blksize

theorem take_block (file : Bytes) (blksize : Nat) {blk : Nat} (h : 1 ≤ blk) :
    file.take ((blk - 1) * blksize) ++ block file blksize blk = file.take (blk * blksize) := by
  obtain ⟨n, rfl⟩ := Nat.exists_eq_add_of_le' h
  rw [block, Nat.add_sub_cancel, ← List.take_add, Nat.succ_mul]

/-- a block that is not full is the last one -/
theorem block_short {file : Bytes} {blksize blk : Nat} (h : 1 ≤ blk)
    (hs : (block file blksize blk).length < blksize) : file.length ≤ blk * blksize := by
  obtain ⟨n, rfl⟩ := Nat.exists_eq_add_of_le' h
  rw [block, Nat.add_sub_cancel, List.length_take, List.length_drop] at hs
  rw [Nat.succ_mul]
  omega

/-- the file at `path` is being served in blocks of `blksize` bytes -/
structure Inv (fs : Path → Bytes) (path : Path) (blksize : Nat) (w : World) : Prop where
  disk : w.fs = fs
  opened : w.opened = some path
  pos : w.pos = min (w.blk * blksize) (fs path).length
  /-- an OACK, or the block the server was at -/
  down : ∀ s ∈ w.toClient, s.1 ≤ w.blk ∧
    (opcode s.2 = some opOack ∨ (1 ≤ s.1 ∧ s.2 = dataPacket s.1 (block (fs path) blksize s.1)))
  /-- the ACK of a block the client has, and at most one behind the server -/
  up : ∀ s ∈ w.toServer, ∃ a, s.2 = ackPacket a ∧ a < w.client.next ∧ s.1 ≤ a + 1
  next : 1 ≤ w.client.next ∧ w.blk ≤ w.client.next ∧ w.client.next ≤ w.blk + 1
  data : w.client.data = (fs path).take ((w.client.next - 1) * blksize)

namespace Inv
variable {fs : Path → Bytes} {path : Path} {blksize : Nat} {w w' : World}

theorem file (h : Inv fs path blksize w) : w.file = fs path := by
  unfold World.file
  rw [h.opened, h.disk]
  rfl

theorem isPrefix (h : Inv fs path blksize w) : w.client.data <+: w.file := by
  rw [h.file, h.data]
  exact List.take_prefix _ _

/-- the client goes on to `c` and sends `r` -/
theorem answer {c : Client} {r : Option Bytes} (h : Inv fs path blksize w)
    (hn : w.client.next ≤ c.next) (hc : c.next ≤ w.blk + 1)
    (hd : c.data = (fs path).take ((c.next - 1) * blksize))
    (hr : ∀ pkt, r = some pkt → ∃ a, pkt = ackPacket a ∧ a < c.next ∧ w.blk ≤ a + 1) :
    Inv fs path blksize { w with
      client := c
      toServer := w.toServer ++ (r.toList.map fun pkt => (w.blk, pkt)) } where
  disk := h.disk
  opened := h.opened
  pos := h.pos
  down := h.down
  up := by
    intro s hs
    rcases List.mem_append.mp hs with hs | hs
    · obtain ⟨a, ha, hlt, hl⟩ := h.up s hs
      exact ⟨a, ha, Nat.lt_of_lt_of_le hlt hn, hl⟩
    · obtain ⟨pkt, hp, rfl⟩ := List.mem_map.mp hs
      exact hr pkt (Option.mem_toList.mp hp)
  next := ⟨Nat.le_trans h.next.1 hn, Nat.le_trans h.next.2.1 hn, hc⟩
  data := hd

/-- **A delivery keeps the invariant.** -/
theorem deliver (h : Inv fs path blksize w) (hd : Deliver w w') : Inv fs path blksize w' := by
  obtain ⟨h1, h2, h3⟩ := h.next
  cases hd with
  | mk s hs hl =>
    have hl : w.blk ≤ s.1 + 32768 := hl
    obtain ⟨hsb, ho | ⟨hs1, hd⟩⟩ := h.down s hs
    · rw [receive_oack _ ho]
      by_cases hn : w.client.next = 1
      · rw [if_pos hn]
        refine h.answer (Nat.le_refl _) h3 h.data ?_
        intro pkt hp
        obtain rfl := Option.some.inj hp
        exact ⟨0, rfl, h1, by omega⟩
      · rw [if_neg hn]
        exact h.answer (Nat.le_refl _) h3 h.data (fun pkt hp => nomatch hp)
    · rw [hd, receive_data]
      by_cases hn : wire s.1 = wire w.client.next
      · -- the block the client waits for, which is the one the server is at
        have e : s.1 = w.client.next := wire_inj hn (by omega) (by omega)
        have hb : w.client.next = w.blk := by omega
        rw [if_pos hn]
        refine h.answer (Nat.le_succ _) ?_ ?_ ?_
        · show w.client.next + 1 ≤ w.blk + 1
          omega
        · show w.client.data ++ block (fs path) blksize s.1 = _
          rw [h.data, e, take_block _ _ h1, Nat.add_sub_cancel]
        · intro pkt hp
          obtain rfl := Option.some.inj hp
          exact ⟨w.client.next, rfl, Nat.lt_succ_self _, by omega⟩
      · rw [if_neg hn]
        by_cases hn' : wire s.1 = wire (w.client.next - 1)
        · rw [if_pos hn']
          refine h.answer (Nat.le_refl _) h3 h.data ?_
          intro pkt hp
          obtain rfl := Option.some.inj hp
          exact ⟨w.client.next - 1, rfl, Nat.sub_lt h1 Nat.one_pos, by omega⟩
        · rw [if_neg hn']
          exact h.answer (Nat.le_refl _) h3 h.data (fun pkt hp => nomatch hp)

theorem stable : Stable netEnv (Inv fs path blksize) := by
  intro w w' h hr
  induction hr with
  | refl => exact h
  | tail _ hd ih => exact ih.deliver hd

/-- the server sends an OACK or the block it is at -/
theorem send {pkt : Bytes} (h : Inv fs path blksize w)
    (hp : opcode pkt = some opOack ∨
      (1 ≤ w.blk ∧ pkt = dataPacket w.blk (block (fs path) blksize w.blk))) :
    Inv fs path blksize { w with toClient := w.toClient ++ [(w.blk, pkt)] } where
  disk := h.disk
  opened := h.opened
  pos := h.pos
  down := by
    intro s hs
    rcases List.mem_append.mp hs with hs | hs
    · exact h.down s hs
    · obtain rfl := List.mem_singleton.mp hs
      exact ⟨Nat.le_refl _, hp⟩
  up := h.up
  next := h.next
  data := h.data

/-- the server goes on to the next block once the client has the one before -/
theorem read (h : Inv fs path blksize w) (hn : w.client.next = w.blk + 1) :
    (w.file.drop w.pos).take blksize = block (fs path) blksize (w.blk + 1) ∧
    Inv fs path blksize { w with
      pos := w.pos + ((w.file.drop w.pos).take blksize).length
      blk := w.blk + 1 } := by
  have hb : (w.file.drop w.pos).take blksize = block (fs path) blksize (w.blk + 1) := by
    rw [h.file, h.pos, block, Nat.add_sub_cancel]
    rcases Nat.le_total (w.blk * blksize) (fs path).length with hle | hle
    · rw [Nat.min_eq_left hle]
    · rw [Nat.min_eq_right hle, List.drop_length, List.drop_of_length_le hle]
  refine ⟨hb, ⟨h.disk, h.opened, ?_, ?_, h.up, ?_, h.data⟩⟩
  · show w.pos + _ = min ((w.blk + 1) * blksize) (fs path).length
    rw [hb, h.pos, block, List.length_take, List.length_drop, Nat.add_sub_cancel, Nat.succ_mul]
    omega
  · intro s hs
    obtain ⟨hsb, hp⟩ := h.down s hs
    exact ⟨Nat.le_succ_of_le hsb, hp⟩
  · show 1 ≤ w.client.next ∧ w.blk + 1 ≤ w.client.next ∧ w.client.next ≤ w.blk + 1 + 1
    omega

/-- an ACK that the server receives -/
theorem received {pkt : Bytes} (h : Inv fs path blksize w) {s : Sent} (hs : s ∈ w.toServer)
    (hl : w.Alive s) (hp : pkt = s.2.take 1024) :
    ∃ a, pkt = ackPacket a ∧ a < w.client.next ∧ w.blk ≤ a + 32769 := by
  obtain ⟨a, ha, hlt, hsa⟩ := h.up s hs
  have hl : w.blk ≤ s.1 + 32768 := hl
  exact ⟨a, by rw [hp, ha, take_ackPacket], hlt, by omega⟩

end Inv

/-- the transfer has not begun, or it is under way -/
def Safe (fs : Path → Bytes) (w : World) : Prop :=
  (w.Fresh ∧ w.fs = fs) ∨ ∃ path blksize, Inv fs path blksize w

theorem fresh_rely {w w' : World} (h : w.Fresh) (hr : netEnv.rely w w') : w' = w := by
  induction hr with
  | refl => rfl
  | tail _ hd ih =>
    subst ih
    cases hd with
    | mk s hs hl =>
      rw [h.toClient] at hs
      exact absurd hs List.not_mem_nil

theorem Safe.stable {fs : Path → Bytes} : Stable netEnv (Safe fs) := by
  intro w w' h hr
  rcases h with ⟨h, hf⟩ | ⟨path, blksize, h⟩
  · rw [fresh_rely h hr]
    exact .inl ⟨h, hf⟩
  · exact .inr ⟨path, blksize, Inv.stable w w' h hr⟩

theorem Safe.isPrefix {fs : Path → Bytes} {w : World} (h : Safe fs w) :
    w.client.data <+: w.file := by
  rcases h with ⟨h, _⟩ | ⟨path, blksize, h⟩
  · rw [h.client]
    exact List.nil_prefix
  · exact h.isPrefix

/-! ## the run -/

section
variable {fs : Path → Bytes} {path : Path} {blksize : Nat} {w w' : World} {client : Addr}

/-- what every operation leaves -/
def Keeping (fs : Path → Bytes) (e : Event Op Res World) : Prop := Safe fs e.post

theorem Deliver.mono (h : Deliver w w') : w'.blk = w.blk ∧ w.client.next ≤ w'.client.next := by
  cases h with
  | mk s hs hl =>
    refine ⟨rfl, ?_⟩
    show w.client.next ≤ (w.client.receive s.2).1.next
    unfold Client.receive
    split
    · split
      · exact Nat.le_succ _
      · split <;> exact Nat.le_refl _
    · split <;> exact Nat.le_refl _

theorem rely_mono (h : netEnv.rely w w') : w'.blk = w.blk ∧ w.client.next ≤ w'.client.next := by
  induction h with
  | refl => exact ⟨rfl, Nat.le_refl _⟩
  | tail _ hd ih =>
    obtain ⟨hb, hn⟩ := hd.mono
    exact ⟨hb.trans ih.1, Nat.le_trans ih.2 hn⟩

/-- the server is at block `blk` -/
def At (fs : Path → Bytes) (path : Path) (blksize blk : Nat) (w : World) : Prop :=
  Inv fs path blksize w ∧ w.blk = blk

/-- and the client has that block -/
def Acked (fs : Path → Bytes) (path : Path) (blksize blk : Nat) (w : World) : Prop :=
  At fs path blksize blk w ∧ w.client.next = blk + 1

variable {blk : Nat}

theorem At.stable : Stable netEnv (At fs path blksize blk) :=
  fun w w' h hr => ⟨Inv.stable w w' h.1 hr, (rely_mono hr).1.trans h.2⟩

theorem At.safe (h : At fs path blksize blk w) : Safe fs w := .inr ⟨path, blksize, h.1⟩

theorem Acked.stable : Stable netEnv (Acked fs path blksize blk) := by
  intro w w' h hr
  have h1 := At.stable w w' h.1 hr
  have hle := h1.1.next.2.2
  have hn := (rely_mono hr).2
  rw [h1.2] at hle
  rw [h.2] at hn
  exact ⟨h1, Nat.le_antisymm hle hn⟩

/-- the only ACK that carries the number of the current block is its own -/
theorem At.acked {a : Nat} (h : At fs path blksize blk w) (ha : a < w.client.next)
    (hl : w.blk ≤ a + 32769) (hv : wire a = wire blk) : Acked fs path blksize blk w := by
  have h3 := h.1.next.2.2
  have hb := h.2
  have e : a = blk := wire_inj hv (by omega) (by omega)
  exact ⟨h, by omega⟩

/-- **The wait for the ACK of a block.** -/
theorem wp_sendBlock (hb : 1 ≤ blk) : ∀ turns tries w, At fs path blksize blk w →
    wp netEnv (Keeping fs)
      (sendBlock client (dataPacket blk (block (fs path) blksize blk)) blk tries turns)
      (fun r w' => At fs path blksize blk w' ∧ (r = .acked → Acked fs path blksize blk w')) w := by
  intro turns
  induction turns with
  | zero => exact fun _ w _ _ _ _ _ ha => ha.elim
  | succ n ih =>
    intro tries w h
    unfold sendBlock
    refine wp_step At.stable h ?_
    rintro w1 (sent : Bool) w2 h1 ha
    have h2 : At fs path blksize blk w2 := by
      rw [show w2 = _ from ha]
      split
      · exact ⟨h1.1.send (.inr ⟨h1.2 ▸ hb, by rw [h1.2]⟩), h1.2⟩
      · exact h1
    refine ⟨h2.safe, ?_⟩
    cases sent with
    | false => exact ⟨h2, fun hr => nomatch hr⟩
    | true =>
      refine wp_step At.stable h2 ?_
      rintro w3 (r : Option Bytes) w4 h3 ⟨rfl, hr⟩
      refine ⟨h3.safe, ?_⟩
      cases r with
      | none =>
        by_cases ht : 10 < tries + 1
        · simp only [if_pos ht]
          exact ⟨h3, fun hr => nomatch hr⟩
        · simp only [if_neg ht]
          exact ih _ _ h3
      | some ack =>
        obtain ⟨s, hs, hl, hp⟩ := hr ack rfl
        obtain ⟨a, rfl, hlt, hla⟩ := h3.1.received hs hl hp
        simp only [opcode_ackPacket, number_ackPacket, if_neg (show opAck ≠ opError by decide),
          if_true]
        by_cases hv : wire a = wire blk
        · rw [if_pos hv]
          exact ⟨h3, fun _ => h3.acked hlt hla hv⟩
        · rw [if_neg hv]
          exact ih _ _ h3

/-- what the client has when the server is done -/
def Delivered (fs : Path → Bytes) (r : Outcome) (w : World) : Prop :=
  r = .returned true → ∃ path, w.opened = some path ∧ w.client.data = fs path

theorem Acked.delivered (h : Acked fs path blksize blk w) (hb : 1 ≤ blk)
    (hs : (block (fs path) blksize blk).length < blksize) :
    Delivered fs (.returned true) w := by
  intro _
  refine ⟨path, h.1.1.opened, ?_⟩
  rw [h.1.1.data, h.2, Nat.add_sub_cancel]
  exact List.take_of_length_le (block_short hb hs)

/-- closing changes nothing here -/
theorem wp_close {P : World → Prop} (hst : Stable netEnv P) (hs : ∀ w, P w → Safe fs w) (b : Bool)
    (h : P w) (hd : ∀ w, P w → Delivered fs (.returned b) w) :
    wp netEnv (Keeping fs) (close b) (Delivered fs) w := by
  refine wp_step hst h ?_
  rintro w1 _ w2 h1 ha
  obtain rfl : w2 = w1 := ha
  refine ⟨hs w2 h1, wp_step hst h1 ?_⟩
  rintro w3 _ w4 h3 ha
  obtain rfl : w4 = w3 := ha
  exact ⟨hs w4 h3, hd w4 h3⟩

/-- **The blocks, one after the other.** -/
theorem wp_sendBlocks (turns : Nat) : ∀ n blk w, Acked fs path blksize blk w →
    wp netEnv (Keeping fs) (sendBlocks turns client blksize (blk + 1) n) (Delivered fs) w := by
  intro n
  induction n with
  | zero => exact fun _ w _ _ _ _ _ ha => ha.elim
  | succ n ih =>
    intro blk w h
    unfold sendBlocks
    refine wp_step Acked.stable h ?_
    rintro w1 (body : Bytes) w2 h1 ⟨hbody, rfl⟩
    have hbody : body = (w1.file.drop w1.pos).take blksize := hbody
    have hn : w1.client.next = w1.blk + 1 := by rw [h1.2, h1.1.2]
    obtain ⟨he, hi⟩ := h1.1.1.read hn
    have h2 : At fs path blksize (blk + 1)
        { w1 with pos := w1.pos + body.length, blk := w1.blk + 1 } := by
      rw [hbody]
      exact ⟨hi, congrArg (· + 1) h1.1.2⟩
    have hbody : body = block (fs path) blksize (blk + 1) := by
      rw [hbody, he, h1.1.2]
    refine ⟨h2.safe, ?_⟩
    rw [wp_bind]
    rw [hbody] at h2 ⊢
    refine wp_post (wp_sendBlock (Nat.succ_pos blk) turns 0 _ h2) ?_
    intro r w3 h3
    cases r with
    | acked =>
      by_cases hs : (block (fs path) blksize (blk + 1)).length < blksize
      · simp only [if_pos hs]
        exact wp_close Acked.stable (fun w hw => hw.1.safe) true (h3.2 rfl)
          (fun w hw => hw.delivered (Nat.succ_pos blk) hs)
      · simp only [if_neg hs]
        exact ih _ _ (h3.2 rfl)
    | aborted =>
      exact wp_close At.stable (fun w hw => hw.safe) false h3.1 (fun _ _ hr => nomatch hr)
    | raised => exact fun hr => nomatch hr

/-- the wait for the ACK of the OACK ends before the first block -/
theorem wp_offerLoop {oack : Bytes} {deadline : Rat} (ho : opcode oack = some opOack) :
    ∀ turns w, At fs path blksize 0 w →
      wp netEnv (Keeping fs) (offerLoop client oack deadline turns)
        (fun _ w' => At fs path blksize 0 w') w := by
  intro turns
  induction turns with
  | zero => exact fun w _ _ _ _ _ ha => ha.elim
  | succ n ih =>
    intro w h
    unfold offerLoop
    refine wp_step At.stable h ?_
    rintro w1 (r : Option Bytes) w2 h1 ⟨rfl, hr⟩
    refine ⟨h1.safe, ?_⟩
    cases r with
    | none =>
      refine wp_step At.stable h1 ?_
      rintro w3 (now : Rat) w4 h3 ha
      obtain rfl : w4 = w3 := ha
      refine ⟨h3.safe, ?_⟩
      by_cases ht : deadline < now
      · simp only [if_pos ht]
        exact h3
      · simp only [if_neg ht]
        refine wp_step At.stable h3 ?_
        rintro w5 (sent : Bool) w6 h5 ha
        have h6 : At fs path blksize 0 w6 := by
          rw [show w6 = _ from ha]
          split
          · exact ⟨h5.1.send (.inl ho), h5.2⟩
          · exact h5
        refine ⟨h6.safe, ?_⟩
        cases sent with
        | false => exact h6
        | true => exact ih _ h6
    | some pkt =>
      obtain ⟨s, hs, hl, hp⟩ := hr pkt rfl
      obtain ⟨a, rfl, hlt, hla⟩ := h1.1.received hs hl hp
      simp only [opcode_ackPacket, number_ackPacket, if_neg (show opAck ≠ opError by decide),
        if_true]
      split
      · exact h1
      · exact h1
      · exact ih _ h1

theorem wp_offer {oack : Bytes} (ho : opcode oack = some opOack) (turns : Nat)
    (h : At fs path blksize 0 w) :
    wp netEnv (Keeping fs) (offer turns client oack) (fun _ w' => At fs path blksize 0 w') w := by
  unfold offer
  refine wp_step At.stable h ?_
  rintro w1 (sent : Bool) w2 h1 ha
  have h2 : At fs path blksize 0 w2 := by
    rw [show w2 = _ from ha]
    split
    · exact ⟨h1.1.send (.inl ho), h1.2⟩
    · exact h1
  refine ⟨h2.safe, ?_⟩
  cases sent with
  | false => exact h2
  | true =>
    refine wp_step At.stable h2 ?_
    rintro w3 (now : Rat) w4 h3 ha
    obtain rfl : w4 = w3 := ha
    exact ⟨h3.safe, wp_offerLoop ho turns _ h3⟩

/-- before the first block the client has none -/
theorem At.start (h : At fs path blksize 0 w) : Acked fs path blksize 0 w := by
  obtain ⟨h1, _, h3⟩ := h.1.next
  rw [h.2] at h3
  exact ⟨h, Nat.le_antisymm h3 h1⟩

/-- nothing has been sent, and the files are `fs` -/
def Idle (fs : Path → Bytes) (w : World) : Prop := w.Fresh ∧ w.fs = fs

theorem Idle.stable : Stable netEnv (Idle fs) := by
  intro w w' h hr
  rw [fresh_rely h.1 hr]
  exact h

theorem Idle.open (h : Idle fs w) (path : Path) (blksize : Nat) :
    At fs path blksize 0 { w with opened := some path, pos := 0 } := by
  obtain ⟨h, hf⟩ := h
  refine ⟨⟨hf, rfl, ?_, ?_, ?_, ?_, ?_⟩, h.blk⟩
  · show 0 = min (w.blk * blksize) (fs path).length
    rw [h.blk, Nat.zero_mul, Nat.zero_min]
  · intro s hs
    rw [show w.toClient = [] from h.toClient] at hs
    exact absurd hs List.not_mem_nil
  · intro s hs
    rw [show w.toServer = [] from h.toServer] at hs
    exact absurd hs List.not_mem_nil
  · show 1 ≤ w.client.next ∧ w.blk ≤ w.client.next ∧ w.client.next ≤ w.blk + 1
    rw [h.client, h.blk]
    decide
  · show w.client.data = (fs path).take ((w.client.next - 1) * blksize)
    rw [h.client]
    show [] = (fs path).take (0 * blksize)
    rw [Nat.zero_mul, List.take_zero]

/-- the calls that come before the file is opened -/
def Op.Asks : Op → Prop
  | .listen => True
  | .poll => True
  | .reply _ _ => True
  | .resolve _ _ => True
  | .getsize _ => True
  | .socket => True
  | .hang => True
  | _ => False

theorem Idle.keeps : Keeps netEnv (Keeping fs) Op.Asks (Idle fs) := by
  intro w o r w' ho hp ha
  have e : w' = w := by
    cases o with
    | listen => exact ha
    | poll => exact ha
    | reply pkt client => exact ha
    | resolve root name => exact ha
    | getsize path => exact ha
    | socket => exact ha
    | hang => exact ha.elim
    | _ => exact ho.elim
  subst e
  exact ⟨.inl hp, hp⟩

theorem asks_newest : ∀ (turns : Nat) (data : Bytes) (client : Addr),
    (newest turns data client).Uses Op.Asks := by
  intro turns
  induction turns with
  | zero => exact fun _ _ => ⟨trivial, fun r => r.elim⟩
  | succ n ih =>
    intro data client
    unfold newest
    refine Prog.Uses.bind ((Prog.uses_call _).mpr trivial) ?_
    rintro (_ | ⟨d2, c2⟩)
    · trivial
    · dsimp only
      split
      · trivial
      · exact Prog.Uses.ite (ih _ _) (ih _ _)

theorem wp_transfer (turns : Nat) (opts : List (Bytes × Bytes)) (path : Path) (size : Nat)
    (maxBlksize : Int) (h : Idle fs w) :
    wp netEnv (Keeping fs) (transfer turns client opts path size maxBlksize) (Delivered fs) w := by
  unfold transfer
  refine wp_bind_keeps Idle.stable Idle.keeps ((Prog.uses_call _).mpr trivial) h ?_
  rintro (_ | _) w0 h0
  · exact fun hr => nomatch hr
  rw [if_pos rfl]
  cases negotiate opts size maxBlksize with
  | none => exact fun hr => nomatch hr
  | some neg =>
    refine wp_step Idle.stable h0 ?_
    rintro w1 (ok : Bool) w2 h1 ha
    cases ok with
    | false =>
      obtain rfl : w2 = w1 := ha
      exact ⟨.inl h1, fun hr => nomatch hr⟩
    | true =>
      have h2 : At fs path neg.blksize 0 w2 := by
        rw [show w2 = _ from ha]
        exact h1.open path neg.blksize
      refine ⟨h2.safe, ?_⟩
      by_cases ho : neg.accepted = []
      · simp only [if_pos ho]
        exact wp_sendBlocks turns turns 0 _ h2.start
      · simp only [if_neg ho]
        refine (wp_bind _ _ _ _).mpr
          (wp_post (wp_offer (opcode_oackPacket neg.accepted) turns h2) ?_)
        intro r w3 h3
        cases r with
        | acked => exact wp_sendBlocks turns turns 0 _ h3.start
        | aborted =>
          exact wp_close At.stable (fun w hw => hw.safe) false h3 (fun _ _ hr => nomatch hr)
        | raised => exact fun hr => nomatch hr

theorem wp_serveOne (turns : Nat) (path : Path) (size : Nat) (maxBlksize : Int)
    (root : Option Path) (h : Idle fs w) :
    wp netEnv (Keeping fs) (serveOne turns path size maxBlksize root) (Delivered fs) w := by
  unfold serveOne
  refine wp_bind_keeps Idle.stable Idle.keeps ((Prog.uses_call _).mpr trivial) h ?_
  rintro ⟨data, client⟩ w1 h1
  refine wp_bind_keeps Idle.stable Idle.keeps (asks_newest turns data client) h1 ?_
  rintro (_ | ⟨data, client⟩) w2 h2
  · exact fun hr => nomatch hr
  cases hop : opcode data with
  | none =>
    simp only [hop]
    exact fun hr => nomatch hr
  | some op =>
    simp only [hop]
    by_cases hrrq : op ≠ opRrq
    · simp only [if_pos hrrq]
      exact fun hr => nomatch hr
    simp only [if_neg hrrq]
    cases root with
    | none => exact wp_transfer turns _ path size maxBlksize h2
    | some root =>
      refine wp_bind_keeps Idle.stable Idle.keeps ((Prog.uses_call _).mpr trivial) h2 ?_
      rintro (_ | path) w3 h3
      · refine wp_bind_keeps Idle.stable Idle.keeps ((Prog.uses_call _).mpr trivial) h3 ?_
        rintro (_ | _) w4 h4
        · exact fun hr => nomatch hr
        · exact fun hr => nomatch hr
      · refine wp_bind_keeps Idle.stable Idle.keeps ((Prog.uses_call _).mpr trivial) h3 ?_
        rintro (_ | size) w4 h4
        · exact fun hr => nomatch hr
        · exact wp_transfer turns _ path size maxBlksize h4

end

/-- **Delivery.**  Whatever the network does, what the client has is a prefix of the file at all
times, and when `serve_one` returns true it is the whole file. -/
theorem serve_delivers (turns : Nat) (path : Path) (size : Nat) (maxBlksize : Int)
    (root : Option Path) (w : World) (hw : w.Fresh) :
    (∀ tr w' p' w'', Exec netEnv (serveOne turns path size maxBlksize root) w tr w' p' →
      netEnv.rely w' w'' → w''.client.data <+: w''.file) ∧
    ∀ tr w', Runs netEnv (serveOne turns path size maxBlksize root) w tr (.returned true) w' →
      ∃ p, w'.opened = some p ∧ w'.client.data = w.fs p := by
  have hidle : Idle w.fs w := ⟨hw, rfl⟩
  have hwp := wp_serveOne turns path size maxBlksize root hidle
  refine ⟨?_, ?_⟩
  · intro tr w' p' w'' hx hr
    have hk := (wp_exec hwp hx).1
    have hs := (hx.chain Safe.stable (fun e he _ => hk e he) (.inl ⟨hw, rfl⟩)).2
    exact (Safe.stable w' w'' hs hr).isPrefix
  · intro tr w' hx
    exact (wp_runs hwp hx).2 rfl

/-! ## a transfer -/

/-- before the server looks for an ACK, the latest packet reaches the client -/
def relayed (w : World) : World :=
  match w.toClient.getLast? with
  | none => w
  | some s =>
    if w.blk ≤ s.1 + lifetime then
      { w with
        client := (w.client.receive s.2).1
        toServer := w.toServer ++ ((w.client.receive s.2).2.toList.map fun pkt => (w.blk, pkt)) }
    else
      w

theorem rely_relayed (w : World) : netEnv.rely w (relayed w) := by
  unfold relayed
  split
  · exact .refl
  · rename_i s hs
    split
    · rename_i hl
      exact .single (.mk w s (List.mem_of_getLast? hs) hl)
    · exact .refl

/-- the ACK it finds: the latest one -/
def latest (w : World) : Option Bytes :=
  match w.toServer.getLast? with
  | none => none
  | some s => if w.blk ≤ s.1 + lifetime then some (s.2.take 1024) else none

/-- the request is `rrq`, and nothing is lost or late -/
def relayAct (rrq : Bytes) (w : World) : (o : Op) → Option (World × Res o × World)
  | .listen => some (w, (rrq, 0), w)
  | .poll => some (w, none, w)
  | .reply _ _ => some (w, true, w)
  | .resolve _ name => some (w, some name, w)
  | .getsize path => some (w, some (w.fs path).length, w)
  | .socket => some (w, true, w)
  | .openFile path => some (w, true, { w with opened := some path, pos := 0 })
  | .sendto pkt _ => some (w, true, { w with toClient := w.toClient ++ [(w.blk, pkt)] })
  | .recvfrom => some (relayed w, latest (relayed w), relayed w)
  | .read n => some (w, (w.file.drop w.pos).take n,
      { w with
        pos := w.pos + ((w.file.drop w.pos).take n).length
        blk := w.blk + 1 })
  | .closeFile => some (w, (), w)
  | .closeXfer => some (w, (), w)
  | .time => some (w, (0 : Rat), w)
  | .hang => none

def relay (rrq : Bytes) : Policy netEnv where
  act _ w o := relayAct rrq w o
  sound := by
    intro _ w o w1 r w2 h
    cases o with
    | recvfrom =>
      obtain ⟨rfl, h'⟩ := Prod.mk.inj (Option.some.inj h)
      obtain ⟨rfl, rfl⟩ := Prod.mk.inj h'
      refine ⟨rely_relayed w, rfl, ?_⟩
      intro pkt hp
      have hp : latest (relayed w) = some pkt := hp
      unfold latest at hp
      split at hp
      · cases hp
      · rename_i s hs
        split at hp
        · rename_i hl
          exact ⟨s, List.mem_of_getLast? hs, hl, (Option.some.inj hp).symm⟩
        · cases hp
    | hang => cases h
    | _ =>
      cases h
      first
      | exact ⟨.refl, rfl⟩
      | exact ⟨.refl, rfl, rfl⟩

/-- a read request for `f` with blocks of `8` bytes -/
def smallRrq : Bytes :=
  packH opRrq ++ ascii "f" ++ [0] ++ ascii "octet" ++ [0] ++ ascii "blksize" ++ [0] ++
    ascii "8" ++ [0]

/-- every file has sixteen bytes -/
def smallWorld : World where
  fs _ := (List.range 16).map UInt8.ofNat
  opened := none
  pos := 0
  blk := 0
  toClient := []
  toServer := []
  client := ⟨1, []⟩

/-- three blocks, the last one empty -/
theorem serve_delivers_small : ∃ tr w',
    Runs netEnv (serveOne 8 (ascii "f") 16 1024 none) smallWorld tr (.returned true) w' ∧
      w'.client.data = (List.range 16).map UInt8.ofNat := by
  have hr : ((relay smallRrq).play 0 (serveOne 8 (ascii "f") 16 1024 none)
      smallWorld).2.2.result = some (.returned true) := by decide +kernel
  have hx := (relay smallRrq).play_runs 0 _ _ hr
  obtain ⟨p, _, hd⟩ := (serve_delivers 8 (ascii "f") 16 1024 none smallWorld
    ⟨rfl, rfl, rfl, rfl, rfl⟩).2 _ _ hx
  exact ⟨_, _, hx, hd⟩

end Tftp
