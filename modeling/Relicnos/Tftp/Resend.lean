import Relicnos.Interact.Monitor
import Relicnos.Interact.Policy
import Relicnos.Tftp.Server

/-!
# Retransmission

A run is watched from its first call on: how often the current block was sent, how many timeouts and
how many other packets came since, and what the latest answer demands of the next call.

* `Watch`, `Watch.see`   what the watch knows;
* `Watch.Bounded`        what it demands of every call;
* `serve_resends`        every run meets it, whatever is received and when.
-/

set_option linter.unusedVariables false

namespace Tftp
open Interact

/-- a packet that is neither the ACK of block `blk` nor an ERROR, and long enough to tell -/
def Stray (blk : Nat) (pkt : Bytes) : Prop :=
  opcode pkt ≠ none ∧ opcode pkt ≠ some opError ∧
    (opcode pkt = some opAck → number pkt ≠ none ∧ number pkt ≠ some (wire blk))

instance (blk : Nat) (pkt : Bytes) : Decidable (Stray blk pkt) :=
  inferInstanceAs (Decidable (_ ∧ _ ∧ _))

/-- what the next call has to be -/
inductive Demand where
  | nothing
  /-- a look at the clock -/
  | look
  /-- the OACK once more -/
  | oack
  /-- the block once more -/
  | block
  deriving DecidableEq

structure Watch where
  /-- blocks read from the file -/
  blk : Nat
  body : Bytes
  /-- since the latest block was read: transmissions, timeouts, packets received -/
  sends : Nat
  timeouts : Nat
  packets : Nat
  /-- 30 s after the first look at the clock -/
  deadline : Option Rat
  /-- made by the latest call -/
  demand : Demand

namespace Watch

def start : Watch := ⟨0, [], 0, 0, 0, none, .nothing⟩

/-- while blocks are sent, the first ten timeouts and every stray packet demand the block; before
that a timeout demands a look at the clock, and the OACK if the deadline is not past -/
def see : (o : Op) → Res o → Watch → Watch
  | .read _, body, m => ⟨m.blk + 1, body, 0, 0, 0, m.deadline, .nothing⟩
  | .sendto _ _, _, m => { m with sends := m.sends + 1, demand := .nothing }
  | .recvfrom, r, m =>
    match (show Option Bytes from r) with
    | none =>
      { m with
        timeouts := m.timeouts + 1
        demand := if m.blk = 0 then .look else if m.timeouts < 10 then .block else .nothing }
    | some pkt =>
      { m with
        packets := m.packets + 1
        demand := if m.blk ≠ 0 ∧ Stray m.blk pkt then .block else .nothing }
  | .time, t, m =>
    match m.deadline with
    | none => { m with deadline := some ((show Rat from t) + 30), demand := .nothing }
    | some d =>
      { m with demand := if m.demand = .look ∧ (show Rat from t) ≤ d then .oack else .nothing }
  | _, _, m => { m with demand := .nothing }

/-- before the first block there are only OACKs, and after that only blocks: each is sent once, and
once more where that is demanded, which is for each timeout, of which there are ten at most, and
for each stray packet; what is demanded is the very next call -/
def Bounded (m : Watch) : (o : Op) → Res o → Prop
  | .sendto pkt _, _ =>
    if m.blk = 0 then
      opcode pkt = some opOack ∧ m.demand = if m.sends = 0 then .nothing else .oack
    else
      pkt = dataPacket m.blk m.body ∧ m.sends = m.timeouts + m.packets ∧ m.timeouts ≤ 10 ∧
        m.demand = if m.sends = 0 then .nothing else .block
  | .time, _ => m.demand = .nothing ∨ m.demand = .look
  | _, _ => m.demand = .nothing

/-- runs that anything may be received in -/
def env : Env Op Res Watch := Env.answers see fun _ _ _ => True

/-- what the watch demands of a call -/
def guard (e : Event Op Res Watch) : Prop := e.pre.Bounded e.op e.res

end Watch

section
variable {α : Type} {m : Watch} {Q : α → Watch → Prop} {client : Addr}

theorem wp_call {o : Op} {f : Res o → Py α}
    (h : ∀ r, m.Bounded o r ∧ wp Watch.env Watch.guard (f r) Q (m.see o r)) :
    wp Watch.env Watch.guard (issue o >>= f) Q m := by
  intro m1 hr r m2 ⟨_, hm⟩
  obtain rfl : m1 = m := hr
  subst hm
  exact h r

theorem wp_hang : wp Watch.env Watch.guard (hang : Py α) Q m := by
  intro m1 _ r
  exact r.elim

/-- the request is found before anything else -/
theorem newest_waits (n : Nat) (data : Bytes) (addr : Addr) (hm : m = Watch.start) :
    wp Watch.env Watch.guard (newest n data addr) (fun _ m' => m' = Watch.start) m := by
  subst hm
  induction n generalizing data addr with
  | zero => exact wp_hang
  | succ n ih =>
    apply wp_call
    intro r
    refine ⟨rfl, ?_⟩
    rcases r with _ | ⟨d2, c2⟩
    · exact rfl
    · dsimp only
      split
      · exact rfl
      · split
        · exact ih d2 c2
        · exact ih data addr

/-! ## the OACK -/

/-- the first look at the clock sets the deadline -/
theorem Watch.see_first_time (hd : m.deadline = none) (t : Rat) :
    m.see .time t = { m with deadline := some (t + 30), demand := .nothing } := by
  simp only [Watch.see, hd]

/-- a look at it after a timeout has the OACK sent again, if it is not too late -/
theorem Watch.see_late_time {deadline : Rat} (hd : m.deadline = some deadline)
    (hw : m.demand = .look) (t : Rat) :
    m.see .time t = { m with demand := if t ≤ deadline then .oack else .nothing } := by
  simp only [Watch.see, hd, hw, true_and]

/-- no block was read yet, and nothing is demanded -/
structure Watch.Offering (m : Watch) : Prop where
  blk : m.blk = 0
  demand : m.demand = .nothing

/-- a packet demands nothing of it -/
theorem Watch.Offering.received (h : m.Offering) (pkt : Bytes) :
    (m.see .recvfrom (some pkt)).Offering :=
  ⟨h.blk, if_neg fun hs => hs.1 h.blk⟩

/-- a timeout has the clock looked at -/
theorem Watch.Offering.timeout (h : m.Offering) : (m.see .recvfrom none).demand = .look :=
  if_pos h.blk

theorem offerLoop_bounded {oack : Bytes} {deadline : Rat} (n : Nat)
    (ho : opcode oack = some opOack) (hm : m.Offering) (hs : m.sends ≠ 0)
    (hd : m.deadline = some deadline) :
    wp Watch.env Watch.guard (offerLoop client oack deadline n)
      (fun _ m' => m'.Offering) m := by
  induction n generalizing m with
  | zero => exact wp_hang
  | succ n ih =>
    apply wp_call
    intro r
    refine ⟨hm.demand, ?_⟩
    rcases r with _ | pkt
    · apply wp_call
      intro t
      refine ⟨Or.inr hm.timeout, ?_⟩
      change Rat at t
      rw [Watch.see_late_time (m := m.see .recvfrom none) hd hm.timeout]
      split
      case isTrue hlate => exact ⟨hm.blk, if_neg (Rat.not_le.mpr hlate)⟩
      case isFalse h =>
        apply wp_call
        intro ok
        refine ⟨?_, ?_⟩
        · show if m.blk = 0 then _ else _
          rw [if_pos hm.blk]
          refine ⟨ho, ?_⟩
          show (if t ≤ deadline then Demand.oack else .nothing) = if m.sends = 0 then _ else _
          rw [if_pos (Rat.not_lt.mp h), if_neg hs]
        · cases ok with
          | true => exact ih ⟨hm.blk, rfl⟩ (Nat.succ_ne_zero _) hd
          | false => exact ⟨hm.blk, rfl⟩
    · have h1 := hm.received pkt
      dsimp only
      split
      · exact h1
      · split
        · exact h1
        · split
          · split
            · exact h1
            · exact h1
            · exact ih h1 hs hd
          · exact ih h1 hs hd

theorem offer_bounded {oack : Bytes} (n : Nat) (ho : opcode oack = some opOack)
    (hm : m.Offering) (hs : m.sends = 0) (hd : m.deadline = none) :
    wp Watch.env Watch.guard (offer n client oack) (fun _ m' => m'.Offering) m := by
  apply wp_call
  intro ok
  refine ⟨?_, ?_⟩
  · show if _ = 0 then _ else _
    rw [if_pos hm.blk]
    refine ⟨ho, ?_⟩
    rw [if_pos hs]
    exact hm.demand
  · cases ok with
    | false => exact ⟨hm.blk, rfl⟩
    | true =>
      apply wp_call
      intro t
      refine ⟨Or.inl rfl, ?_⟩
      change Rat at t
      rw [Watch.see_first_time (m := m.see (.sendto oack client) true) hd]
      exact offerLoop_bounded n ho ⟨hm.blk, rfl⟩ (Nat.succ_ne_zero _) rfl

/-! ## the blocks -/

/-- block `blk` is about to be sent, after `tries` timeouts -/
structure Watch.Sending (m : Watch) (pkt : Bytes) (blk tries : Nat) : Prop where
  current : m.blk = blk
  pos : 1 ≤ blk
  built : pkt = dataPacket m.blk m.body
  sends : m.sends = m.timeouts + m.packets
  timeouts : m.timeouts = tries
  limit : tries ≤ 10
  demand : m.demand = if m.sends = 0 then .nothing else .block

/-- the wait for the ACK has ended -/
structure Watch.Waited (m : Watch) (blk : Nat) : Prop where
  current : m.blk = blk
  demand : m.demand = .nothing

section
variable {pkt ack : Bytes} {blk tries : Nat}

theorem Watch.Sending.blk_ne (h : m.Sending pkt blk tries) : m.blk ≠ 0 := by
  rw [h.current]
  exact Nat.pos_iff_ne_zero.mp h.pos

/-- a packet that is no stray one demands nothing -/
theorem Watch.Sending.ended (h : m.Sending pkt blk tries) (hs : ¬Stray blk ack) :
    ((m.see (.sendto pkt client) true).see .recvfrom (some ack)).Waited blk := by
  refine ⟨h.current, if_neg ?_⟩
  rintro ⟨_, hstray⟩
  exact hs (h.current ▸ hstray)

/-- a stray one pays for the next transmission -/
theorem Watch.Sending.again (h : m.Sending pkt blk tries) (hs : Stray blk ack) :
    ((m.see (.sendto pkt client) true).see .recvfrom (some ack)).Sending pkt blk tries := by
  have hsends := h.sends
  refine ⟨h.current, h.pos, h.built, ?_, h.timeouts, h.limit, ?_⟩
  · show m.sends + 1 = m.timeouts + (m.packets + 1)
    omega
  · show (if m.blk ≠ 0 ∧ Stray m.blk ack then Demand.block else .nothing)
      = if m.sends + 1 = 0 then _ else _
    rw [if_pos ⟨h.blk_ne, h.current.symm ▸ hs⟩, if_neg (Nat.succ_ne_zero _)]

/-- and so does one of the first ten timeouts -/
theorem Watch.Sending.timeout (h : m.Sending pkt blk tries) (ht : tries < 10) :
    ((m.see (.sendto pkt client) true).see .recvfrom none).Sending pkt blk (tries + 1) := by
  have hsends := h.sends
  have htimeouts := h.timeouts
  refine ⟨h.current, h.pos, h.built, ?_, ?_, ht, ?_⟩
  · show m.sends + 1 = m.timeouts + 1 + m.packets
    omega
  · show m.timeouts + 1 = tries + 1
    omega
  · show (if m.blk = 0 then Demand.look else if m.timeouts < 10 then .block else .nothing)
      = if m.sends + 1 = 0 then _ else _
    rw [if_neg h.blk_ne, if_pos (htimeouts.symm ▸ ht), if_neg (Nat.succ_ne_zero _)]

/-- the eleventh does not -/
theorem Watch.Sending.timed_out (h : m.Sending pkt blk tries) (ht : ¬tries < 10) :
    ((m.see (.sendto pkt client) true).see .recvfrom none).Waited blk := by
  refine ⟨h.current, ?_⟩
  show (if m.blk = 0 then Demand.look else if m.timeouts < 10 then .block else .nothing) = _
  rw [if_neg h.blk_ne, if_neg (h.timeouts.symm ▸ ht)]

theorem sendBlock_bounded (n : Nat) (h : m.Sending pkt blk tries) :
    wp Watch.env Watch.guard (sendBlock client pkt blk tries n) (fun _ m' => m'.Waited blk) m := by
  induction n generalizing m tries with
  | zero => exact wp_hang
  | succ n ih =>
    apply wp_call
    intro ok
    refine ⟨?_, ?_⟩
    · show if _ = 0 then _ else _
      rw [if_neg h.blk_ne]
      refine ⟨h.built, h.sends, ?_, h.demand⟩
      rw [h.timeouts]
      exact h.limit
    · cases ok with
      | false => exact ⟨h.current, rfl⟩
      | true =>
        apply wp_call
        intro r
        refine ⟨rfl, ?_⟩
        rcases r with _ | ack
        · dsimp only
          split
          case isTrue hlast => exact h.timed_out (by omega)
          case isFalse hle => exact ih (h.timeout (by omega))
        · dsimp only
          split
          case h_1 ho => exact h.ended fun hs => hs.1 ho
          case h_2 aop ho =>
            split
            case isTrue he =>
              subst he
              have hnot : ¬Stray blk ack := fun hs => hs.2.1 ho
              split
              · exact h.ended hnot
              · exact h.ended hnot
            case isFalse he =>
              have hne : opcode ack ≠ none := by simp [ho]
              have hnerr : opcode ack ≠ some opError := by simp [ho, he]
              split
              case isTrue hk =>
                subst hk
                split
                case h_1 hv => exact h.ended fun hs => (hs.2.2 ho).1 hv
                case h_2 v hv =>
                  split
                  case isTrue hw => exact h.ended fun hs => (hs.2.2 ho).2 (hw ▸ hv)
                  case isFalse hw =>
                    exact ih (h.again ⟨hne, hnerr, fun _ => ⟨by simp [hv], by simp [hv, hw]⟩⟩)
              case isFalse hk =>
                exact ih (h.again ⟨hne, hnerr, fun hack => by simp [ho, hk] at hack⟩)

end

theorem close_bounded (b : Bool) (hm : m.demand = .nothing) :
    wp Watch.env Watch.guard (close b) (fun _ m' => m'.demand = .nothing) m := by
  apply wp_call
  intro _
  refine ⟨hm, ?_⟩
  apply wp_call
  intro _
  exact ⟨rfl, rfl⟩

theorem sendBlocks_bounded {blksize blk : Nat} (turns n : Nat) (hb : m.blk + 1 = blk)
    (hm : m.demand = .nothing) :
    wp Watch.env Watch.guard (sendBlocks turns client blksize blk n)
      (fun _ m' => m'.demand = .nothing) m := by
  induction n generalizing m blk with
  | zero => exact wp_hang
  | succ n ih =>
    apply wp_call
    intro body
    refine ⟨hm, (wp_bind _ _ _ _).mpr ?_⟩
    have hs : (m.see (.read blksize) body).Sending (dataPacket blk body) blk 0 := by
      refine ⟨hb, ?_, ?_, rfl, rfl, Nat.zero_le _, rfl⟩
      · omega
      · rw [← hb]
        rfl
    apply wp_post (sendBlock_bounded turns hs)
    intro w m' hm'
    cases w with
    | acked =>
      show wp _ _ (if body.length < blksize then _ else _) _ _
      split
      · exact close_bounded true hm'.demand
      · apply ih _ hm'.demand
        rw [hm'.current]
    | aborted => exact close_bounded false hm'.demand
    | raised => exact hm'.demand

/-! ## the request -/

theorem transfer_bounded {turns : Nat} {opts : List (Bytes × Bytes)} {path : Path} {size : Nat}
    {maxBlksize : Int} (hm : m = Watch.start) :
    wp Watch.env Watch.guard (transfer turns client opts path size maxBlksize)
      (fun _ m' => m'.demand = .nothing) m := by
  subst hm
  apply wp_call
  intro made
  refine ⟨rfl, ?_⟩
  rcases made with _ | _
  · exact rfl
  rw [if_pos rfl]
  split
  · exact rfl
  · rename_i neg hneg
    apply wp_call
    intro ok
    refine ⟨rfl, ?_⟩
    cases ok with
    | false => exact rfl
    | true =>
      show wp _ _ (if neg.accepted = [] then _ else _) _ Watch.start
      split
      · exact sendBlocks_bounded turns turns rfl rfl
      · rw [wp_bind]
        apply wp_post (offer_bounded turns (opcode_oackPacket _) ⟨rfl, rfl⟩ rfl rfl)
        intro w m' hm'
        cases w with
        | acked =>
          apply sendBlocks_bounded turns turns _ hm'.demand
          rw [hm'.blk]
        | aborted => exact close_bounded false hm'.demand
        | raised => exact hm'.demand

theorem serveOne_bounded (turns : Nat) (path : Path) (size : Nat) (maxBlksize : Int)
    (root : Option Path) :
    wp Watch.env Watch.guard (serveOne turns path size maxBlksize root)
      (fun _ m' => m'.demand = .nothing) Watch.start := by
  apply wp_call
  rintro ⟨data, addr⟩
  refine ⟨rfl, (wp_bind _ _ _ _).mpr ?_⟩
  apply wp_post (newest_waits turns data addr rfl)
  intro req m' hm'
  subst hm'
  rcases req with _ | ⟨data, addr⟩
  · exact rfl
  dsimp only
  split
  · exact rfl
  split
  · exact rfl
  cases root with
  | none => exact transfer_bounded rfl
  | some root =>
    apply wp_call
    intro found
    refine ⟨rfl, ?_⟩
    cases found with
    | none =>
      apply wp_call
      intro ok
      refine ⟨rfl, ?_⟩
      cases ok with
      | true => exact rfl
      | false => exact rfl
    | some path =>
      apply wp_call
      intro known
      refine ⟨rfl, ?_⟩
      cases known with
      | none => exact rfl
      | some size => exact transfer_bounded rfl

end

/-- one request without options, an empty file, and ACKs of block 0 ever after -/
def staleAcks : Unit → (o : Op) → Option (Res o × Unit)
  | _, .listen => some ((packH opRrq ++ ascii "f" ++ [0], 0), ())
  | _, .poll => some (none, ())
  | _, .socket => some (true, ())
  | _, .openFile _ => some (true, ())
  | _, .sendto _ _ => some (true, ())
  | _, .recvfrom => some (some (ackPacket 0), ())
  | _, .read _ => some ([], ())
  | _, _ => none

/-- one request without options, an empty file, and what is to be received on the way -/
def onTheWay : List (Option Bytes) → (o : Op) → Option (Res o × List (Option Bytes))
  | rs, .listen => some ((packH opRrq ++ ascii "f" ++ [0], 0), rs)
  | rs, .poll => some (none, rs)
  | rs, .socket => some (true, rs)
  | rs, .openFile _ => some (true, rs)
  | rs, .sendto _ _ => some (true, rs)
  | r :: rs, .recvfrom => some (r, rs)
  | rs, .read _ => some ([], rs)
  | rs, .closeFile => some ((), rs)
  | rs, .closeXfer => some ((), rs)
  | _, _ => none

/-- a block goes out eleven times at most, whatever is received -/
def Watch.Eleven (m : Watch) : (o : Op) → Res o → Prop
  | .sendto _ _, _ => 1 ≤ m.blk → m.sends < 11
  | _, _ => True

instance (m : Watch) (o : Op) (r : Res o) : Decidable (m.Eleven o r) :=
  match o, r with
  | .sendto _ _, _ => inferInstanceAs (Decidable (1 ≤ m.blk → m.sends < 11))
  | .listen, _ => .isTrue trivial
  | .poll, _ => .isTrue trivial
  | .reply _ _, _ => .isTrue trivial
  | .resolve _ _, _ => .isTrue trivial
  | .getsize _, _ => .isTrue trivial
  | .socket, _ => .isTrue trivial
  | .openFile _, _ => .isTrue trivial
  | .closeFile, _ => .isTrue trivial
  | .closeXfer, _ => .isTrue trivial
  | .recvfrom, _ => .isTrue trivial
  | .read _, _ => .isTrue trivial
  | .time, _ => .isTrue trivial
  | .hang, _ => .isTrue trivial

end Tftp
