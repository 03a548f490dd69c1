import Relicnos.Interact.Monitor
import Relicnos.Interact.Policy
import Relicnos.Interact.Total
import Relicnos.Tftp.Server
import Mathlib.Tactic.Linarith
import Mathlib.Algebra.Order.Ring.Rat

/-!
# What ends the server

The datagrams to come are any lists; each call finds the next one or does not yet.  A call that
times out takes five seconds at least.

* `Host`, `Host.see`   what is still to come, and what the server holds open;
* `Host.Allows`        how a call may be answered;
* `Harmless`           what the server can take in;
* `survives_iff`       `serve_one` returns with everything closed, and the loop goes on, as long as
                       nothing else arrives.
-/

set_option linter.unusedVariables false

namespace Tftp
open Interact

structure Host where
  /-- still to arrive on the listening socket, and on every transfer socket to come -/
  inbox : List (Bytes × Addr)
  transfers : List (List Bytes)
  disk : List (Path × Bytes)
  /-- where a packet can be sent to -/
  reach : Addr → Bool
  clock : Rat
  /-- the transfer socket is there, and what is still to arrive on it -/
  bound : Bool
  packets : List Bytes
  /-- what is left of the open file, and how many blocks were read -/
  opened : Option Bytes
  blk : Nat
  /-- the request that is served, and the size that was asked for since -/
  request : Bytes × Addr
  known : Option Nat
  /-- the request may still be replaced -/
  asking : Bool

namespace Host

/-- nothing is held open -/
structure Idle (m : Host) : Prop where
  opened : m.opened = none
  bound : m.bound = false

def start (inbox : List (Bytes × Addr)) (transfers : List (List Bytes))
    (disk : List (Path × Bytes)) (reach : Addr → Bool) (clock : Rat) : Host :=
  ⟨inbox, transfers, disk, reach, clock, false, [], none, 0, ([], 0), none, false⟩

/-- the longest packet that can be sent -/
def maxPacket : Nat := 65507

def see : (o : Op) → Res o → Host → Host
  | .listen, r, m => { m with inbox := m.inbox.tail, request := r, known := none, asking := true }
  | .poll, r, m =>
    match (show Option (Bytes × Addr) from r) with
    | none => { m with asking := false }
    | some (d, c) =>
      { m with
        inbox := m.inbox.tail
        request := if opcode d = some opRrq then (d, c) else m.request }
  | .getsize _, r, m => { m with known := r }
  | .socket, ok, m =>
    if (show Bool from ok) then
      { m with bound := true, packets := m.transfers.headD [], transfers := m.transfers.tail }
    else
      m
  | .openFile path, ok, m =>
    if (show Bool from ok) then { m with opened := m.disk.lookup path, blk := 0 } else m
  | .recvfrom, r, m =>
    match (show Option Bytes from r) with
    | none => { m with clock := m.clock + 5 }
    | some _ => { m with packets := m.packets.tail }
  | .read n, _, m => { m with opened := m.opened.map (List.drop n), blk := m.blk + 1 }
  | .closeFile, _, m => { m with opened := none }
  | .closeXfer, _, m => { m with bound := false, packets := [] }
  | .time, t, m => { m with clock := t }
  | _, _, m => m

/-- a file can be refused, and so can a socket; a packet cannot, but for its length and its
destination -/
def Allows (m : Host) : (o : Op) → Res o → Prop
  | .listen, r => m.inbox.head? = some r
  | .poll, r => (show Option (Bytes × Addr) from r) = none ∨ m.inbox.head? = r
  | .reply pkt c, ok => (show Bool from ok) = decide (pkt.length ≤ maxPacket ∧ m.reach c = true)
  | .openFile path, ok => (show Bool from ok) = true → (m.disk.lookup path).isSome = true
  | .sendto pkt c, ok => (show Bool from ok) = decide (pkt.length ≤ maxPacket ∧ m.reach c = true)
  | .recvfrom, r => (show Option Bytes from r) = none ∨
      ∃ pkt, m.packets.head? = some pkt ∧ r = some (pkt.take 1024)
  | .read n, body => (show Bytes from body) = (m.opened.getD []).take n
  | .time, t => m.clock ≤ (show Rat from t)
  | .hang, _ => False
  | _, _ => True

end Host

def hostEnv : Env Op Res Host := Env.answers Host.see Host.Allows

/-- the server is in its serve loop, with nothing open, and nobody asks for anything -/
def Waits (m : Host) (o : Op) : Prop := o = .listen ∧ m.inbox = [] ∧ m.Idle

/-- a packet of the client: whatever needs a number has one -/
def Host.TakesIn (m : Host) (pkt : Bytes) : Prop :=
  opcode pkt ≠ none ∧ (opcode pkt = some opAck → number pkt ≠ none) ∧
    (0 < m.blk → opcode pkt = some opError → number pkt ≠ none)

/-- what the server can take in: `size` and `maxBlksize` are what `main` passes -/
def Harmless (size : Nat) (maxBlksize : Int) (e : Event Op Res Host) : Prop :=
  let m := e.pre
  let neg := negotiate (parseOpts (m.request.1.drop 2)).2 (m.known.getD size) maxBlksize
  match e.op, e.res with
  -- a datagram in the backlog, and the request that is left
  | .poll, r =>
    match (show Option (Bytes × Addr) from r) with
    | some (d, _) => m.asking = true → opcode d ≠ none
    | none => m.asking = true → opcode m.request.1 ≠ none
  -- no such file: the client can be told so
  | .resolve _ _, r => (show Option Path from r) = none → m.reach m.request.2 = true
  | .getsize _, r => (show Option Nat from r) ≠ none
  -- its block size is a number
  | .socket, ok => (show Bool from ok) = true ∧ neg ≠ none
  -- its options fit in a packet
  | .openFile _, ok => (show Bool from ok) = true ∧ ∀ n, neg = some n → n.accepted ≠ [] →
      (oackPacket n.accepted).length ≤ Host.maxPacket ∧ m.reach m.request.2 = true
  -- and so does the block
  | .read _, body => (show Bytes from body).length + 4 ≤ Host.maxPacket ∧
      m.reach m.request.2 = true
  | .recvfrom, r =>
    match (show Option Bytes from r) with
    | some pkt => m.TakesIn pkt
    | none => True
  | _, _ => True

/-! ## enough turns -/

/-- the loops are followed for long enough -/
structure Host.Enough (turns : Nat) (m : Host) : Prop where
  inbox : m.inbox.length < turns
  transfers : ∀ ps ∈ m.transfers, ps.length + 11 ≤ turns
  packets : m.packets.length + 11 ≤ turns
  disk : ∀ f ∈ m.disk, f.2.length < turns
  opened : (m.opened.getD []).length < turns

/-- a bound for all the lengths of a list of lists -/
theorem exists_length_bound {β γ : Type} (len : β → List γ) (l : List β) :
    ∃ T, ∀ x ∈ l, (len x).length ≤ T := by
  induction l with
  | nil => exact ⟨0, by simp⟩
  | cons x l ih =>
    obtain ⟨T, hT⟩ := ih
    refine ⟨(len x).length + T, ?_⟩
    intro y hy
    rcases List.mem_cons.mp hy with rfl | hy
    · omega
    · have := hT y hy
      omega

theorem Host.exists_enough (m : Host) : ∃ T, ∀ turns, T ≤ turns → m.Enough turns := by
  obtain ⟨T1, h1⟩ := exists_length_bound id m.transfers
  obtain ⟨T2, h2⟩ := exists_length_bound Prod.snd m.disk
  refine ⟨m.inbox.length + T1 + T2 + m.packets.length + (m.opened.getD []).length + 12, ?_⟩
  intro turns hle
  refine ⟨by omega, ?_, by omega, ?_, by omega⟩
  · intro ps hps
    have : ps.length ≤ T1 := h1 ps hps
    omega
  · intro f hf
    have := h2 f hf
    omega

/-- between two requests nothing is open; `L` bounds what may still be asked -/
structure Host.Calm (turns L : Nat) (m : Host) : Prop where
  enough : m.Enough turns
  inbox : m.inbox.length ≤ L
  asking : m.asking = false

/-- some packets were received, and time went by -/
def Host.Moved (m m' : Host) : Prop :=
  ∃ ps t, ps.length ≤ m.packets.length ∧ m' = { m with packets := ps, clock := t }

theorem Host.Moved.trans {m m' m'' : Host} (h : m.Moved m') (h' : m'.Moved m'') :
    m.Moved m'' := by
  obtain ⟨ps, t, hle, rfl⟩ := h
  obtain ⟨ps', t', hle', rfl⟩ := h'
  exact ⟨ps', t', Nat.le_trans hle' hle, rfl⟩

theorem Host.Moved.calm {m m' : Host} {turns L : Nat} (h : m.Moved m') (hc : m.Calm turns L) :
    m'.Calm turns L := by
  obtain ⟨ps, t, hle, rfl⟩ := h
  obtain ⟨⟨h1, h2, h3, h4, h5⟩, h6, h7⟩ := hc
  exact ⟨⟨h1, h2, Nat.le_trans (Nat.add_le_add_right hle 11) h3, h4, h5⟩, h6, h7⟩

/-! ## the rule for one call -/

section
variable {α : Type} {m : Host} {Q R : α → Host → Prop} {client : Addr} {size : Nat}
variable {maxBlksize : Int}

/-- an operation that is always answered -/
def Op.Prompt : Op → Prop
  | .listen => False
  | .hang => False
  | _ => True

theorem Host.answers {o : Op} (ho : o.Prompt) : ∃ r, m.Allows o r := by
  cases o with
  | listen => exact ho.elim
  | hang => exact ho.elim
  | poll => exact ⟨(none : Option _), Or.inl rfl⟩
  | reply pkt c => exact ⟨_, rfl⟩
  | sendto pkt c => exact ⟨_, rfl⟩
  | recvfrom => exact ⟨(none : Option _), Or.inl rfl⟩
  | read n => exact ⟨_, rfl⟩
  | time => exact ⟨m.clock, Rat.le_refl⟩
  | openFile path => exact ⟨false, nofun⟩
  | resolve root name => exact ⟨(none : Option _), trivial⟩
  | getsize path => exact ⟨(none : Option _), trivial⟩
  | socket => exact ⟨false, trivial⟩
  | closeFile => exact ⟨(), trivial⟩
  | closeXfer => exact ⟨(), trivial⟩

theorem sure_call {o : Op} {f : Res o → Py α} (ho : o.Prompt)
    (h : ∀ r, m.Allows o r → Sure hostEnv Never (f r) R (m.see o r)) :
    Sure hostEnv Never (issue o >>= f) R m := by
  intro m1 hr
  obtain rfl : m1 = m := hr
  obtain ⟨r, ha⟩ := Host.answers ho
  refine ⟨Or.inr ⟨r, _, ha, rfl⟩, ?_⟩
  intro r' m2 ⟨ha', hm⟩
  subst hm
  exact h r' ha'

/-- an answer is taken in, or it is the last one that matters -/
theorem judged_call {o : Op} {f : Res o → Py α} (ho : o.Prompt)
    (h : ∀ r, m.Allows o r →
      (Harmless size maxBlksize ⟨m, o, r, m.see o r⟩ ∧
        Judged hostEnv Waits (Harmless size maxBlksize) (f r) Q R (m.see o r)) ∨
      (¬Harmless size maxBlksize ⟨m, o, r, m.see o r⟩ ∧
        Sure hostEnv Never (f r) R (m.see o r))) :
    Judged hostEnv Waits (Harmless size maxBlksize) (issue o >>= f) Q R m := by
  intro m1 hr
  obtain rfl : m1 = m := hr
  obtain ⟨r, ha⟩ := Host.answers ho
  refine ⟨Or.inr ⟨r, _, ha, rfl⟩, ?_⟩
  intro r' m2 ⟨ha', hm⟩
  subst hm
  exact h r' ha'

/-! ## the transfer -/

/-- a packet that can be sent -/
def Host.CanSend (m : Host) (pkt : Bytes) (client : Addr) : Prop :=
  pkt.length ≤ maxPacket ∧ m.reach client = true

theorem Host.sent {pkt : Bytes} (h : m.CanSend pkt client) {ok : Bool}
    (ha : m.Allows (.sendto pkt client) ok) : ok = true := by
  have ha : ok = decide (pkt.length ≤ maxPacket ∧ m.reach client = true) := ha
  rw [ha]
  exact decide_eq_true h

theorem Host.not_sent {pkt : Bytes} (h : ¬m.CanSend pkt client) {ok : Bool}
    (ha : m.Allows (.sendto pkt client) ok) : ok = false := by
  have ha : ok = decide (pkt.length ≤ maxPacket ∧ m.reach client = true) := ha
  rw [ha]
  exact decide_eq_false h

theorem Host.received {pkt : Bytes} (ha : m.Allows .recvfrom (some pkt)) :
    m.packets.tail.length + 1 = m.packets.length := by
  rcases ha with ha | ⟨p, hp, _⟩
  · exact nomatch ha
  · obtain ⟨rest, hrest⟩ := List.head?_eq_some_iff.mp hp
    rw [hrest]
    rfl

theorem Host.moved_recvfrom {r : Option Bytes} : m.Moved (m.see .recvfrom r) := by
  cases r with
  | none => exact ⟨m.packets, m.clock + 5, Nat.le_refl _, rfl⟩
  | some pkt =>
    refine ⟨m.packets.tail, m.clock, ?_, rfl⟩
    rw [List.length_tail]
    exact Nat.sub_le _ _

theorem judged_sendBlock {pkt : Bytes} {blk tries : Nat} (n : Nat) (hs : m.CanSend pkt client)
    (hb : 0 < m.blk) (hn : m.packets.length + 11 ≤ n + tries) (ht : tries ≤ 10) :
    Judged hostEnv Waits (Harmless size maxBlksize) (sendBlock client pkt blk tries n)
      (fun w m' => w ≠ .raised ∧ m.Moved m') (fun w _ => w = .raised) m := by
  induction n generalizing m tries with
  | zero => omega
  | succ n ih =>
    apply judged_call (o := .sendto pkt client) trivial
    intro ok ha
    obtain rfl := Host.sent hs ha
    refine Or.inl ⟨trivial, ?_⟩
    apply judged_call (o := .recvfrom) trivial
    intro r ha
    change m.Allows .recvfrom r at ha
    have hm : m.Moved (m.see .recvfrom r) := Host.moved_recvfrom
    rcases r with _ | ack
    · refine Or.inl ⟨trivial, ?_⟩
      dsimp only
      split
      case isTrue => exact ⟨nofun, hm⟩
      case isFalse h =>
        apply Judged.mono (ih (m := m.see .recvfrom none) hs hb _ _)
        · exact fun w m' hq => ⟨hq.1, hm.trans hq.2⟩
        · exact fun w m' hq => hq
        · show m.packets.length + 11 ≤ n + (tries + 1)
          omega
        · omega
    · have hlen := Host.received ha
      -- the current block is sent again
      have hagain : Judged hostEnv Waits (Harmless size maxBlksize)
          (sendBlock client pkt blk tries n) (fun w m' => w ≠ .raised ∧ m.Moved m')
          (fun w _ => w = .raised) (m.see .recvfrom (some ack)) := by
        apply Judged.mono (ih (m := m.see .recvfrom (some ack)) hs hb _ ht)
        · exact fun w m' hq => ⟨hq.1, hm.trans hq.2⟩
        · exact fun w m' hq => hq
        · show m.packets.tail.length + 11 ≤ n + tries
          omega
      show (m.TakesIn ack ∧ _) ∨ (¬m.TakesIn ack ∧ _)
      dsimp only
      split
      case h_1 ho => exact Or.inr ⟨fun h => h.1 ho, rfl⟩
      case h_2 aop ho =>
        split
        case isTrue he =>
          subst he
          split
          case h_1 hv => exact Or.inr ⟨fun h => h.2.2 hb ho hv, rfl⟩
          case h_2 v hv =>
            refine Or.inl ⟨⟨?_, ?_, ?_⟩, nofun, hm⟩
            · simp [ho]
            · simp [hv]
            · simp [hv]
        case isFalse he =>
          split
          case isTrue hk =>
            subst hk
            split
            case h_1 hv => exact Or.inr ⟨fun h => h.2.1 ho hv, rfl⟩
            case h_2 v hv =>
              refine Or.inl ⟨⟨?_, ?_, ?_⟩, ?_⟩
              · simp [ho]
              · simp [hv]
              · simp [hv]
              · split
                · exact ⟨nofun, hm⟩
                · exact hagain
          case isFalse hk =>
            refine Or.inl ⟨⟨?_, ?_, ?_⟩, hagain⟩
            · simp [ho]
            · simp [ho, hk]
            · simp [ho, he]

theorem sure_sendBlock {pkt : Bytes} {blk tries n : Nat} (hs : ¬m.CanSend pkt client)
    (hn : 0 < n) :
    Sure hostEnv Never (sendBlock client pkt blk tries n) (fun w _ => w = .raised) m := by
  obtain ⟨n, rfl⟩ := Nat.exists_eq_add_of_le' hn
  apply sure_call (o := .sendto pkt client) trivial
  intro ok ha
  obtain rfl := Host.not_sent hs ha
  exact rfl

/-- a request was answered, nothing is left open, and there are turns enough for what may follow -/
structure Finished (turns L : Nat) (out : Outcome) (m : Host) : Prop where
  returned : ∃ b, out = .returned b
  idle : m.Idle
  calm : m.Calm turns L

variable {turns L : Nat}

theorem judged_close (b : Bool) (hc : m.Calm turns L) :
    Judged hostEnv Waits (Harmless size maxBlksize) (close b) (Finished turns L)
      (fun out _ => out = .raised) m := by
  apply judged_call (o := .closeFile) trivial
  intro _ _
  refine Or.inl ⟨trivial, ?_⟩
  apply judged_call (o := .closeXfer) trivial
  intro _ _
  refine Or.inl ⟨trivial, ?_⟩
  obtain ⟨⟨h1, h2, h3, h4, h5⟩, h6, h7⟩ := hc
  refine ⟨⟨b, rfl⟩, ⟨rfl, rfl⟩, ⟨⟨h1, h2, ?_, h4, ?_⟩, h6, h7⟩⟩
  · show 0 + 11 ≤ turns
    omega
  · show 0 < turns
    omega

theorem length_dataPacket (blk : Nat) (body : Bytes) :
    (dataPacket blk body).length = body.length + 4 := by
  simp [dataPacket]
  omega

theorem Host.Calm.read (hc : m.Calm turns L) (n : Nat) (body : Bytes) :
    (m.see (.read n) body).Calm turns L := by
  obtain ⟨⟨h1, h2, h3, h4, h5⟩, h6, h7⟩ := hc
  refine ⟨⟨h1, h2, h3, h4, ?_⟩, h6, h7⟩
  show ((m.opened.map (List.drop n)).getD []).length < turns
  cases hop : m.opened with
  | none =>
    show 0 < turns
    omega
  | some rest =>
    rw [hop] at h5
    have h5 : rest.length < turns := h5
    show (rest.drop n).length < turns
    rw [List.length_drop]
    omega

theorem judged_sendBlocks {blksize blk : Nat} (n : Nat) (hc : m.Calm turns L)
    (hcl : client = m.request.2) (hb : 0 < blksize) (hn : (m.opened.getD []).length < n) :
    Judged hostEnv Waits (Harmless size maxBlksize) (sendBlocks turns client blksize blk n)
      (Finished turns L) (fun out _ => out = .raised) m := by
  induction n generalizing m blk with
  | zero => omega
  | succ n ih =>
    have hpk := hc.enough.packets
    apply judged_call (o := .read blksize) trivial
    intro body ha
    have ha : body = (m.opened.getD []).take blksize := ha
    have hc1 := hc.read blksize body
    by_cases hs : m.CanSend (dataPacket blk body) client
    · refine Or.inl ⟨?_, Judged.bind ?_⟩
      · show body.length + 4 ≤ Host.maxPacket ∧ m.reach m.request.2 = true
        rw [← length_dataPacket blk body, ← hcl]
        exact hs
      · apply Judged.mono
          (judged_sendBlock (m := m.see (.read blksize) body) turns hs (Nat.succ_pos m.blk) hpk
            (Nat.zero_le 10))
        · intro w m2 ⟨hw, hm⟩
          have hc2 := hm.calm hc1
          cases w with
          | raised => exact absurd rfl hw
          | aborted => exact judged_close false hc2
          | acked =>
            dsimp only
            split
            case isTrue => exact judged_close true hc2
            case isFalse hfull =>
              obtain ⟨ps, t, _, rfl⟩ := hm
              apply ih hc2 hcl
              show ((m.opened.map (List.drop blksize)).getD []).length < n
              rw [ha, List.length_take] at hfull
              cases hop : m.opened with
              | none =>
                rw [hop] at hfull
                have : ¬min blksize 0 < blksize := hfull
                omega
              | some rest =>
                rw [hop] at hfull hn
                have hfull : ¬min blksize rest.length < blksize := hfull
                have hn : rest.length < n + 1 := hn
                show (rest.drop blksize).length < n
                rw [List.length_drop]
                omega
        · intro w m2 hw
          subst hw
          exact rfl
    · refine Or.inr ⟨?_, Sure.bind ?_⟩
      · intro hh
        have hh : body.length + 4 ≤ Host.maxPacket ∧ m.reach m.request.2 = true := hh
        rw [← length_dataPacket blk body, ← hcl] at hh
        exact hs hh
      · apply Sure.mono (sure_sendBlock (m := m.see (.read blksize) body) hs (by omega))
        intro w m2 hw
        subst hw
        exact rfl

/-! ## the OACK -/

/-- `j` more timeouts, and the deadline is past -/
theorem judged_offerLoop {oack : Bytes} {deadline : Rat} {j : Nat} (n : Nat)
    (hs : m.CanSend oack client) (hb : m.blk = 0) (hj : 1 ≤ j) (hn : m.packets.length + j ≤ n)
    (hd : deadline < m.clock + 5 * j) :
    Judged hostEnv Waits (Harmless size maxBlksize) (offerLoop client oack deadline n)
      (fun w m' => w ≠ .raised ∧ m.Moved m') (fun w _ => w = .raised) m := by
  induction n generalizing m j with
  | zero => omega
  | succ n ih =>
    apply judged_call (o := .recvfrom) trivial
    intro r ha
    change m.Allows .recvfrom r at ha
    have hm : m.Moved (m.see .recvfrom r) := Host.moved_recvfrom
    rcases r with _ | pkt
    · refine Or.inl ⟨trivial, ?_⟩
      apply judged_call (o := .time) trivial
      intro t ht
      change Rat at t
      change m.clock + 5 ≤ t at ht
      refine Or.inl ⟨trivial, ?_⟩
      have hm1 : m.Moved ((m.see .recvfrom none).see .time t) :=
        ⟨m.packets, t, Nat.le_refl _, rfl⟩
      split
      case isTrue => exact ⟨nofun, hm1⟩
      case isFalse hlate =>
        have hlate : t ≤ deadline := Rat.not_lt.mp hlate
        -- the deadline is five seconds nearer
        obtain ⟨i, rfl⟩ := Nat.exists_eq_add_of_le' hj
        have hd' : deadline < t + 5 * i := by
          push_cast at hd
          linarith
        have hi : 1 ≤ i := by
          rcases Nat.eq_zero_or_pos i with rfl | hi
          · simp at hd'
            exact absurd hd' (Rat.not_lt.mpr hlate)
          · exact hi
        apply judged_call (o := .sendto oack client) trivial
        intro ok ha
        obtain rfl := Host.sent (m := (m.see .recvfrom none).see .time t) hs ha
        refine Or.inl ⟨trivial, ?_⟩
        apply Judged.mono
          (ih (m := (m.see .recvfrom none).see .time t) hs hb hi (by
            show m.packets.length + i ≤ n
            omega) hd')
        · exact fun w m' hq => ⟨hq.1, hm1.trans hq.2⟩
        · exact fun w m' hq => hq
    · have hlen := Host.received ha
      have hagain : Judged hostEnv Waits (Harmless size maxBlksize)
          (offerLoop client oack deadline n) (fun w m' => w ≠ .raised ∧ m.Moved m')
          (fun w _ => w = .raised) (m.see .recvfrom (some pkt)) := by
        apply Judged.mono (ih (m := m.see .recvfrom (some pkt)) hs hb hj _ hd)
        · exact fun w m' hq => ⟨hq.1, hm.trans hq.2⟩
        · exact fun w m' hq => hq
        · show m.packets.tail.length + j ≤ n
          omega
      show (m.TakesIn pkt ∧ _) ∨ (¬m.TakesIn pkt ∧ _)
      -- no block was read yet, so that an ERROR needs no number
      have hpos : ¬0 < m.blk := by omega
      dsimp only
      split
      case h_1 ho => exact Or.inr ⟨fun h => h.1 ho, rfl⟩
      case h_2 op ho =>
        split
        case isTrue he =>
          subst he
          refine Or.inl ⟨⟨?_, ?_, fun h => absurd h hpos⟩, nofun, hm⟩
          · simp [ho]
          · simp [ho, opError, opAck]
        case isFalse he =>
          split
          case isTrue hk =>
            subst hk
            split
            case h_1 hv => exact Or.inr ⟨fun h => h.2.1 ho hv, rfl⟩
            case h_2 hv =>
              refine Or.inl ⟨⟨?_, ?_, fun h => absurd h hpos⟩, nofun, hm⟩
              · simp [ho]
              · simp [hv]
            case h_3 v hz hv =>
              refine Or.inl ⟨⟨?_, ?_, fun h => absurd h hpos⟩, hagain⟩
              · simp [ho]
              · simp [hv]
          case isFalse hk =>
            refine Or.inl ⟨⟨?_, ?_, fun h => absurd h hpos⟩, hagain⟩
            · simp [ho]
            · simp [ho, hk]

theorem judged_offer {oack : Bytes} (hs : m.CanSend oack client) (hb : m.blk = 0)
    (hc : m.Calm turns L) :
    Judged hostEnv Waits (Harmless size maxBlksize) (offer turns client oack)
      (fun w m' => w ≠ .raised ∧ m.Moved m') (fun w _ => w = .raised) m := by
  have hpk := hc.enough.packets
  apply judged_call (o := .sendto oack client) trivial
  intro ok ha
  obtain rfl := Host.sent hs ha
  refine Or.inl ⟨trivial, ?_⟩
  apply judged_call (o := .time) trivial
  intro t _
  change Rat at t
  refine Or.inl ⟨trivial, ?_⟩
  have hm : m.Moved (m.see .time t) := ⟨m.packets, t, Nat.le_refl _, rfl⟩
  apply Judged.mono (judged_offerLoop (m := m.see .time t) (j := 7) turns hs hb _ _ _)
  · exact fun w m' hq => ⟨hq.1, hm.trans hq.2⟩
  · exact fun w m' hq => hq
  · omega
  · show m.packets.length + 7 ≤ turns
    omega
  · show t + 30 < t + 5 * ((7 : Nat) : Rat)
    norm_num

theorem sure_offer {oack : Bytes} (hs : ¬m.CanSend oack client) :
    Sure hostEnv Never (offer turns client oack) (fun w _ => w = .raised) m := by
  apply sure_call (o := .sendto oack client) trivial
  intro ok ha
  obtain rfl := Host.not_sent hs ha
  exact rfl

/-! ## one request -/

theorem Host.Calm.socket (hc : m.Calm turns L) (ok : Bool) : (m.see .socket ok).Calm turns L := by
  cases ok with
  | false => exact hc
  | true =>
    obtain ⟨⟨h1, h2, h3, h4, h5⟩, h6, h7⟩ := hc
    refine ⟨⟨h1, ?_, ?_, h4, h5⟩, h6, h7⟩
    · exact fun ps hps => h2 ps (List.mem_of_mem_tail hps)
    · show (m.transfers.headD []).length + 11 ≤ turns
      cases htr : m.transfers with
      | nil =>
        show 0 + 11 ≤ turns
        omega
      | cons ps rest =>
        rw [htr] at h2
        exact h2 ps (List.mem_cons_self ..)

theorem Host.Calm.openFile (hc : m.Calm turns L) (path : Path) (ok : Bool) :
    (m.see (.openFile path) ok).Calm turns L := by
  cases ok with
  | false => exact hc
  | true =>
    obtain ⟨⟨h1, h2, h3, h4, h5⟩, h6, h7⟩ := hc
    refine ⟨⟨h1, h2, h3, h4, ?_⟩, h6, h7⟩
    show ((m.disk.lookup path).getD []).length < turns
    cases hl : m.disk.lookup path with
    | none =>
      show 0 < turns
      omega
    | some content =>
      obtain ⟨l1, l2, hd, _⟩ := List.lookup_eq_some_iff.mp hl
      exact h4 (path, content) (by simp [hd])

theorem judged_transfer {opts : List (Bytes × Bytes)} {path : Path} {asked : Nat}
    (hc : m.Calm turns L) (hcl : client = m.request.2)
    (ho : opts = (parseOpts (m.request.1.drop 2)).2) (hk : asked = m.known.getD size) :
    Judged hostEnv Waits (Harmless size maxBlksize)
      (transfer turns client opts path asked maxBlksize) (Finished turns L)
      (fun out _ => out = .raised) m := by
  subst hcl ho hk
  apply judged_call (o := .socket) trivial
  intro made _
  change Bool at made
  cases made with
  | false => exact Or.inr ⟨fun h => absurd h.1 Bool.false_ne_true, rfl⟩
  | true =>
    have hc1 := hc.socket true
    rw [if_pos rfl]
    split
    case h_1 hneg => exact Or.inr ⟨fun h => h.2 hneg, rfl⟩
    case h_2 neg hneg =>
      refine Or.inl ⟨⟨rfl, by rw [hneg]; exact nofun⟩, ?_⟩
      apply judged_call (o := .openFile path) trivial
      intro ok _
      change Bool at ok
      cases ok with
      | false => exact Or.inr ⟨fun h => absurd h.1 Bool.false_ne_true, rfl⟩
      | true =>
        have hc2 := hc1.openFile path true
        have hpos : 0 < neg.blksize := Nat.lt_of_lt_of_le (by decide) (negotiate_pos hneg)
        rw [if_pos rfl]
        by_cases hacc : neg.accepted = []
        · rw [if_pos hacc]
          refine Or.inl ⟨⟨rfl, ?_⟩, ?_⟩
          · intro n hn hne
            obtain rfl : neg = n := Option.some.inj (hneg.symm.trans hn)
            exact absurd hacc hne
          · exact judged_sendBlocks turns hc2 rfl hpos hc2.enough.opened
        · rw [if_neg hacc]
          by_cases hs : m.CanSend (oackPacket neg.accepted) m.request.2
          · refine Or.inl ⟨⟨rfl, ?_⟩, Judged.bind ?_⟩
            · intro n hn _
              obtain rfl : neg = n := Option.some.inj (hneg.symm.trans hn)
              exact hs
            · apply Judged.mono (judged_offer
                (m := (m.see .socket true).see (.openFile path) true) hs rfl hc2)
              · intro w m3 ⟨hw, hm⟩
                have hc3 := hm.calm hc2
                obtain ⟨ps, t, _, rfl⟩ := hm
                cases w with
                | raised => exact absurd rfl hw
                | aborted => exact judged_close false hc3
                | acked => exact judged_sendBlocks turns hc3 rfl hpos hc3.enough.opened
              · intro w m3 hw
                subst hw
                exact rfl
          · refine Or.inr ⟨fun h => hs (h.2 neg hneg hacc), Sure.bind ?_⟩
            apply Sure.mono (sure_offer
              (m := (m.see .socket true).see (.openFile path) true) hs)
            intro w m3 hw
            subst hw
            exact rfl

/-- a request was chosen from the backlog -/
def Host.Chosen (m m' : Host) : Prop :=
  ∃ inbox req, inbox.length ≤ m.inbox.length ∧
    m' = { m with inbox := inbox, request := req, asking := false }

theorem Host.polled {d : Bytes × Addr} (ha : m.Allows .poll (some d)) :
    m.inbox.tail.length + 1 = m.inbox.length := by
  rcases ha with ha | ha
  · exact nomatch ha
  · obtain ⟨rest, hrest⟩ := List.head?_eq_some_iff.mp ha
    rw [hrest]
    rfl

theorem judged_newest {data : Bytes} (n : Nat) (hask : m.asking = true)
    (hreq : m.request = (data, client)) (hn : m.inbox.length < n) :
    Judged hostEnv Waits (Harmless size maxBlksize) (newest n data client)
      (fun a m' => a = some m'.request ∧ opcode m'.request.1 ≠ none ∧ m.Chosen m')
      (fun a _ => a = none ∨ ∃ d c, a = some (d, c) ∧ opcode d = none) m := by
  induction n generalizing m data client with
  | zero => omega
  | succ n ih =>
    apply judged_call (o := .poll) trivial
    intro r ha
    change m.Allows .poll r at ha
    rcases r with _ | ⟨d2, c2⟩
    · show ((m.asking = true → opcode m.request.1 ≠ none) ∧ _) ∨
        (¬(m.asking = true → opcode m.request.1 ≠ none) ∧ _)
      rw [hreq]
      cases hop : opcode data with
      | none => exact Or.inr ⟨fun h => h hask rfl, Or.inr ⟨data, client, rfl, hop⟩⟩
      | some op =>
        refine Or.inl ⟨nofun, ?_, ?_, m.inbox, m.request, Nat.le_refl _, rfl⟩
        · show some (data, client) = some m.request
          rw [hreq]
        · show opcode m.request.1 ≠ none
          rw [hreq, hop]
          exact nofun
    · have hlen := Host.polled ha
      show ((m.asking = true → opcode d2 ≠ none) ∧ _) ∨
        (¬(m.asking = true → opcode d2 ≠ none) ∧ _)
      dsimp only
      split
      case h_1 hop => exact Or.inr ⟨fun h => h hask hop, Or.inl rfl⟩
      case h_2 op hop =>
        refine Or.inl ⟨fun _ => by rw [hop]; exact nofun, ?_⟩
        have hgo : ∀ d c, (m.see .poll (some (d2, c2))).request = (d, c) →
            Judged hostEnv Waits (Harmless size maxBlksize) (newest n d c)
              (fun a m' => a = some m'.request ∧ opcode m'.request.1 ≠ none ∧ m.Chosen m')
              (fun a _ => a = none ∨ ∃ d c, a = some (d, c) ∧ opcode d = none)
              (m.see .poll (some (d2, c2))) := by
          intro d c hdc
          apply Judged.mono (ih (m := m.see .poll (some (d2, c2))) hask hdc (by
            show m.inbox.tail.length < n
            omega))
          · intro a m' ⟨h1, h2, inbox, req, hle, hm'⟩
            refine ⟨h1, h2, inbox, req, Nat.le_trans hle ?_, hm'⟩
            show m.inbox.tail.length ≤ m.inbox.length
            omega
          · exact fun a m' h => h
        split
        case isTrue hrrq =>
          apply hgo
          show (if opcode d2 = some opRrq then (d2, c2) else m.request) = (d2, c2)
          rw [hop, hrrq, if_pos rfl]
        case isFalse hrrq =>
          apply hgo
          show (if opcode d2 = some opRrq then (d2, c2) else m.request) = (data, client)
          rw [if_neg (by simp [hop, hrrq]), hreq]

theorem judged_serveOne {path : Path} {root : Option Path} (he : m.Enough turns) (hi : m.Idle)
    (hL : m.inbox.length ≤ L + 1) :
    Judged hostEnv Waits (Harmless size maxBlksize)
      (serveOne turns path size maxBlksize root) (Finished turns L)
      (fun out _ => out = .raised) m := by
  intro m1 hr
  obtain rfl : m1 = m := hr
  refine ⟨?_, ?_⟩
  · cases hin : m1.inbox with
    | nil => exact Or.inl ⟨rfl, hin, hi⟩
    | cons d rest =>
      refine Or.inr ⟨d, _, ?_, rfl⟩
      show m1.inbox.head? = some d
      rw [hin]
      rfl
  · intro ⟨data, client⟩ m2 ⟨ha, hm⟩
    subst hm
    refine Or.inl ⟨trivial, ?_⟩
    obtain ⟨rest, hrest⟩ := List.head?_eq_some_iff.mp (show m1.inbox.head? = some _ from ha)
    obtain ⟨h1, h2, h3, h4, h5⟩ := he
    have htail : m1.inbox.tail.length + 1 = m1.inbox.length := by
      rw [hrest]
      rfl
    apply Judged.bind (p := newest turns data client)
    apply Judged.mono (judged_newest (m := m1.see .listen (data, client)) turns rfl rfl (by
      show m1.inbox.tail.length < turns
      omega))
    · intro a m3 ⟨hreq, hop, inbox, ⟨data, client⟩, hle, hm3⟩
      subst hreq hm3
      have hle : inbox.length ≤ m1.inbox.tail.length := hle
      have hc3 : Host.Calm turns L { m1.see .listen (data, client) with
          inbox := inbox, request := (data, client), asking := false } := by
        refine ⟨⟨?_, h2, h3, h4, h5⟩, ?_, rfl⟩
        · show inbox.length < turns
          omega
        · show inbox.length ≤ L
          omega
      cases hdata : opcode data with
      | none => exact absurd hdata hop
      | some op =>
        dsimp only
        rw [hdata]
        dsimp only
        split
        case isTrue => exact ⟨⟨false, rfl⟩, ⟨hi.opened, hi.bound⟩, hc3⟩
        case isFalse =>
          cases root with
          | none => exact judged_transfer hc3 rfl rfl rfl
          | some root =>
            apply judged_call (o := .resolve root (parseOpts (data.drop 2)).1) trivial
            intro found _
            change Option Path at found
            rcases found with _ | path
            · -- the client is told so, if it can be
              by_cases hr : m1.reach client = true
              · refine Or.inl ⟨fun _ => hr, ?_⟩
                apply judged_call (o := .reply _ client) trivial
                intro ok ha
                obtain rfl : ok = true := Eq.trans ha (decide_eq_true ⟨by decide, hr⟩)
                exact Or.inl ⟨trivial, ⟨false, rfl⟩, ⟨hi.opened, hi.bound⟩, hc3⟩
              · refine Or.inr ⟨fun h => hr (h rfl), ?_⟩
                apply sure_call (o := .reply _ client) trivial
                intro ok ha
                obtain rfl : ok = false := Eq.trans ha (decide_eq_false fun h => hr h.2)
                exact rfl
            · refine Or.inl ⟨nofun, ?_⟩
              apply judged_call (o := .getsize path) trivial
              intro known _
              change Option Nat at known
              cases known with
              | none => exact Or.inr ⟨fun h => h rfl, rfl⟩
              | some n =>
                obtain ⟨⟨g1, g2, g3, g4, g5⟩, g6, g7⟩ := hc3
                exact Or.inl ⟨nofun, judged_transfer ⟨⟨g1, g2, g3, g4, g5⟩, g6, g7⟩ rfl rfl rfl⟩
    · intro a m3 ha
      rcases ha with rfl | ⟨d, c, rfl, hd⟩
      · exact rfl
      · dsimp only
        rw [hd]
        exact rfl

/-! ## the serve loop -/

theorem judged_drain (n : Nat) (hc : m.Calm turns L) (hi : m.Idle) (hn : m.inbox.length < n) :
    Judged hostEnv Waits (Harmless size maxBlksize) (drain n)
      (fun _ m' => m'.Calm turns L ∧ m'.Idle) (fun _ _ => False) m := by
  induction n generalizing m with
  | zero => omega
  | succ n ih =>
    obtain ⟨⟨h1, h2, h3, h4, h5⟩, h6, h7⟩ := hc
    apply judged_call (o := .poll) trivial
    intro r ha
    change m.Allows .poll r at ha
    rcases r with _ | ⟨d, c⟩
    · refine Or.inl ⟨?_, ⟨⟨h1, h2, h3, h4, h5⟩, h6, rfl⟩, hi.opened, hi.bound⟩
      intro hask
      exact absurd (h7.symm.trans hask) nofun
    · have hlen := Host.polled ha
      refine Or.inl ⟨?_, ?_⟩
      · intro hask
        exact absurd (h7.symm.trans hask) nofun
      · apply ih (m := m.see .poll (some (d, c))) ⟨⟨?_, h2, h3, h4, h5⟩, ?_, h7⟩
          ⟨hi.opened, hi.bound⟩
        · show m.inbox.tail.length < n
          omega
        · show m.inbox.tail.length < turns
          omega
        · show m.inbox.tail.length ≤ L
          omega

/-- with nothing to come, the server waits -/
theorem judged_listen {f : Bytes × Addr → Py α} (hi : m.Idle) (hin : m.inbox = []) :
    Judged hostEnv Waits (Harmless size maxBlksize) (listen >>= f) Q R m := by
  intro m1 hr
  obtain rfl : m1 = m := hr
  refine ⟨Or.inl ⟨rfl, hin, hi⟩, ?_⟩
  intro d m2 ⟨ha, _⟩
  have ha : m1.inbox.head? = some d := ha
  rw [hin] at ha
  exact nomatch ha

/-- every round takes a request at least -/
theorem judged_serveLoop {path : Path} {root : Option Path} {once : Bool} (n : Nat)
    (he : m.Enough turns) (hi : m.Idle) (hn : m.inbox.length < n) :
    Judged hostEnv Waits (Harmless size maxBlksize)
      (serveLoop turns path size maxBlksize root once n)
      (fun x _ => x = .done ∧ once = true) (fun x _ => x = .raised) m := by
  induction n generalizing m with
  | zero => omega
  | succ n ih =>
    apply Judged.bind
    by_cases hin : m.inbox = []
    · exact judged_listen hi hin
    have hpos := List.length_pos_iff.mpr hin
    apply Judged.mono (judged_serveOne (L := m.inbox.length - 1) he hi (by omega))
    · intro out m2 ⟨⟨b, hb⟩, hi2, hc2⟩
      subst hb
      cases once with
      | true => exact ⟨rfl, rfl⟩
      | false =>
        apply Judged.bind
        apply Judged.mono (judged_drain turns hc2 hi2 hc2.enough.inbox)
        · intro _ m3 ⟨hc3, hi3⟩
          apply ih hc3.enough hi3
          have := hc3.inbox
          omega
        · exact fun _ _ h => h.elim
    · intro out m2 hout
      subst hout
      exact rfl

end

/-- **What ends the server.**  With everything closed, and followed for enough turns, `serve_one`
goes on until it returns or waits for its first datagram, and it returns with everything closed
again exactly if all that it was given was harmless; otherwise it ends with an exception.  The loop
never ends as long as that is so, and else it ends with the exception. -/
theorem survives_iff (m : Host) (hm : m.Idle) (path : Path) (size : Nat) (maxBlksize : Int)
    (root : Option Path) : (∃ T, ∀ turns, T ≤ turns → m.Enough turns) ∧
    ∀ turns, m.Enough turns →
      (∀ tr m' p', Exec hostEnv (serveOne turns path size maxBlksize root) m tr m' p' →
        Goes hostEnv Waits p' m' ∧ ∀ out, p' = .ret out →
          ((∃ b, out = .returned b) ∧ m'.Idle ↔ ∀ e ∈ tr, Harmless size maxBlksize e)) ∧
      ∀ tr m' p', Exec hostEnv (serveLoop turns path size maxBlksize root false turns) m tr m' p' →
        ((∀ e ∈ tr, Harmless size maxBlksize e) →
          Goes hostEnv Waits p' m' ∧ ∀ x, p' ≠ .ret x) ∧
        ((¬∀ e ∈ tr, Harmless size maxBlksize e) →
          Goes hostEnv Never p' m' ∧ ∀ x, p' = .ret x → x = .raised) := by
  refine ⟨m.exists_enough, fun turns he => ⟨?_, ?_⟩⟩
  · intro tr m' p' hx
    rcases (judged_serveOne he hm (Nat.le_succ _)).exec hx with ⟨htr, hj⟩ | ⟨htr, hs⟩
    · refine ⟨hj.goes, ?_⟩
      intro out ho
      subst ho
      exact ⟨fun _ => htr, fun _ => ⟨hj.returned, hj.idle⟩⟩
    · refine ⟨hs.goes.mono fun _ _ h => h.elim, ?_⟩
      intro out ho
      subst ho
      have hr : out = .raised := hs
      refine ⟨?_, fun h => absurd h htr⟩
      rintro ⟨⟨b, hb⟩, _⟩
      exact nomatch hr.symm.trans hb
  · intro tr m' p' hx
    rcases (judged_serveLoop turns he hm he.inbox).exec hx with
      ⟨htr, hj⟩ | ⟨htr, hs⟩
    · refine ⟨fun _ => ⟨hj.goes, ?_⟩, fun h => absurd htr h⟩
      intro x hx'
      subst hx'
      exact absurd hj.2 Bool.false_ne_true
    · refine ⟨fun h => absurd h htr, fun _ => ⟨hs.goes, ?_⟩⟩
      intro x hx'
      subst hx'
      exact hs

/-! ## a client that gets its file -/

/-- everything that was sent has arrived, and nothing fails that need not -/
def Host.prompt (m : Host) : (o : Op) → Option (Res o)
  | .listen => m.inbox.head?
  | .poll => some m.inbox.head?
  | .reply pkt c => some (decide (pkt.length ≤ maxPacket ∧ m.reach c = true))
  | .resolve _ name => some (some name)
  | .getsize path => some ((m.disk.lookup path).map List.length)
  | .socket => some true
  | .openFile path => some (m.disk.lookup path).isSome
  | .sendto pkt c => some (decide (pkt.length ≤ maxPacket ∧ m.reach c = true))
  | .recvfrom => some (m.packets.head?.map (List.take 1024))
  | .read n => some ((m.opened.getD []).take n)
  | .closeFile => some ()
  | .closeXfer => some ()
  | .time => some m.clock
  | .hang => none

theorem Host.prompt_allows {m : Host} {o : Op} {r : Res o} (h : m.prompt o = some r) :
    m.Allows o r := by
  cases o with
  | listen => exact h
  | hang => exact nomatch h
  | poll => exact Or.inr (Option.some.inj h)
  | recvfrom =>
    obtain rfl := Option.some.inj h
    cases hp : m.packets.head? with
    | none => exact Or.inl rfl
    | some pkt => exact Or.inr ⟨pkt, hp, rfl⟩
  | openFile path =>
    obtain rfl := Option.some.inj h
    exact id
  | time =>
    obtain rfl := Option.some.inj h
    exact Rat.le_refl
  | reply pkt c => exact (Option.some.inj h).symm
  | sendto pkt c => exact (Option.some.inj h).symm
  | read n => exact (Option.some.inj h).symm
  | _ => trivial

def hostPolicy : Policy hostEnv where
  act _ m o := (m.prompt o).map fun r => (m, r, m.see o r)
  sound := by
    intro n m o m1 r m2 h
    obtain ⟨r', hr, he⟩ := Option.map_eq_some_iff.mp h
    cases he
    exact ⟨rfl, Host.prompt_allows hr, rfl⟩

/-- a request for a small file in blocks of 8, and the ACKs of the OACK and of the block -/
def smallHost : Host :=
  .start [(packH opRrq ++ ascii "f" ++ [0] ++ ascii "octet" ++ [0] ++ ascii "blksize" ++ [0] ++
    ascii "8" ++ [0], 7)] [[ackPacket 0, ackPacket 1]] [(ascii "f", [1, 2, 3])] (fun _ => true) 0

theorem smallHost_enough : smallHost.Enough 16 :=
  ⟨by decide +kernel, by decide +kernel, by decide +kernel, by decide +kernel, by decide +kernel⟩

def Listens : Py α → Bool
  | .op .listen _ => true
  | _ => false

/-- it cannot go on from there before somebody asks -/
theorem Listens.not_goes {p : Py α} {m : Host} (h : Listens p = true) (hm : m.inbox = []) :
    ¬Goes hostEnv Never p m := by
  intro hg
  cases p with
  | ret a => exact nomatch h
  | op o k =>
    cases o with
    | listen =>
      obtain hn | ⟨r, m2, ha, _⟩ := hg m rfl
      · exact hn
      · have ha : m.inbox.head? = some r := ha
        rw [hm] at ha
        exact nomatch ha
    | _ => exact nomatch h

/-- the client gets its file, `serve_one` returns true with everything closed, and the loop waits
for the next request -/
theorem survives_iff_small :
    (∃ tr m', Runs hostEnv (serveOne 16 (ascii "f") 3 65464 none) smallHost tr (.returned true) m' ∧
      m'.Idle ∧ ∀ e ∈ tr, Harmless 3 65464 e) ∧
    ∃ tr m' p', Exec hostEnv (serveLoop 16 (ascii "f") 3 65464 none false 16) smallHost tr m' p' ∧
      (∀ e ∈ tr, Harmless 3 65464 e) ∧ Listens p' = true ∧ m'.inbox = [] ∧ m'.Idle := by
  have hs := (survives_iff smallHost ⟨rfl, rfl⟩ (ascii "f") 3 65464 none).2 16 smallHost_enough
  constructor
  · have hx := hostPolicy.play_runs 0 (serveOne 16 (ascii "f") 3 65464 none) smallHost
      (a := .returned true) (by decide +kernel)
    have hi : (hostPolicy.play 0 (serveOne 16 (ascii "f") 3 65464 none) smallHost).2.1.Idle :=
      ⟨by decide +kernel, by decide +kernel⟩
    exact ⟨_, _, hx, hi, ((hs.1 _ _ _ hx).2 _ rfl).mp ⟨⟨true, rfl⟩, hi⟩⟩
  · have hx := hostPolicy.play_exec 0 (serveLoop 16 (ascii "f") 3 65464 none false 16) smallHost
    have hl : Listens (hostPolicy.play 0 (serveLoop 16 (ascii "f") 3 65464 none false 16)
      smallHost).2.2 = true := by decide +kernel
    refine ⟨_, _, _, hx, ?_, hl, by decide +kernel, by decide +kernel, by decide +kernel⟩
    by_contra hn
    exact Listens.not_goes hl (by decide +kernel) ((hs.2 _ _ _ hx).2 hn).1

/-- one empty datagram, and the program ends -/
theorem empty_datagram_raises : ∃ tr m', Runs hostEnv (serveLoop 12 [] 0 65464 none false 12)
    (Host.start [([], 0)] [] [] (fun _ => true) 0) tr .raised m' :=
  ⟨_, _, .step rfl ⟨rfl, rfl⟩ (.step rfl ⟨Or.inl rfl, rfl⟩ (.stop _ _))⟩

end Tftp
