import Relicnos.Nm32a.Calls
import Relicnos.Nm32a.Fpga

/-!
# What was sent and what is queued is what the producers pushed

`Settled i` is the invariant of the transmit side of port `i`: the bytes sent since the port was
activated, followed by the bytes in its ring, are the bytes of the tokens its producers pushed.
It holds whenever nobody is in the middle of a byte, that is whenever `np->lock` is free, and
the bytes can be read as tokens in no other way (`Intact`).  The card may be any: any FPGA, any
requests, any parameters.

* `Line.Produces.stream`   what producers do to the ring and to the tokens;
* `wp_txLoop_settled`      the transmit loop moves bytes from the ring to the chip;
* `txRing_integrity`       every run of driver calls after an activation of the port.
-/

set_option linter.unusedVariables false

namespace Nm32a
open Interact

/-! ## producers -/

namespace Line
variable {l l' : Line}

/-- tokens pushed on the way from `l` to `l'` -/
structure Pushed (l l' : Line) (ts : List Token) : Prop where
  wf : l'.np.Wf
  tokens : l'.tokens = l.tokens ++ ts
  queue : l'.np.queue = l.np.queue ++ tokenBytes ts
  mark : l'.mark = l.mark

/-- nothing was pushed -/
theorem Pushed.nil (hw : l'.np.Wf) (hp : l'.prods = l.prods) (hr : l'.np.ring = l.np.ring)
    (hm : l'.mark = l.mark) : Pushed l l' [] := by
  refine ⟨hw, ?_, ?_, hm⟩
  · unfold Line.tokens
    rw [hp, List.append_nil]
  · unfold Port.queue
    rw [hr, tokenBytes_nil, List.append_nil]

theorem Pushed.refl (h : l.np.Wf) : Pushed l l [] := .nil h rfl rfl rfl

theorem Pushed.trans {l'' : Line} {ts us : List Token} (h : Pushed l l' ts)
    (h' : Pushed l' l'' us) : Pushed l l'' (ts ++ us) := by
  refine ⟨h'.wf, ?_, ?_, h'.mark.trans h.mark⟩
  · rw [h'.tokens, h.tokens, List.append_assoc]
  · rw [h'.queue, h.queue, tokenBytes_append, List.append_assoc]

theorem tokens_append (ps qs : List Prod) :
    (ps ++ qs).flatMap Prod.tokens = ps.flatMap Prod.tokens ++ qs.flatMap Prod.tokens :=
  List.flatMap_append

/-- a break command, if it was put -/
theorem pushed_break {np' : Port} (np : Port) (h : l.np.Wf) (hw : l.np.ring = np.ring)
    (state : Bool) (he : np' = breakPut np state) :
    ∃ ts, Pushed l { l with
      np := np'
      prods := l.prods ++ if 2 ≤ nm32aTxSpace l.np then [.brk state] else [] } ts := by
  have hnp : np.Wf := by
    unfold Port.Wf
    rw [← hw]
    exact h
  have hs : nm32aTxSpace l.np = nm32aTxSpace np := by
    rw [nm32aTxSpace_eq h, nm32aTxSpace_eq hnp, hw]
  have hq : l.np.queue = np.queue := by
    unfold Port.queue
    rw [hw]
  obtain ⟨h1, h2⟩ := breakPut_queue hnp state
  rw [hs]
  refine ⟨if 2 ≤ nm32aTxSpace np then [breakToken state] else [], ?_, ?_, ?_, rfl⟩
  · show np'.Wf
    rw [he]
    exact h1
  · unfold Line.tokens
    rw [tokens_append]
    split <;> rfl
  · show np'.queue = _
    rw [he, h2, hq]
    split
    · rw [tokenBytes_cons, tokenBytes_nil, List.append_nil]
    · rfl

theorem Produce.pushed (h : Produce l l') (hw : l.np.Wf) : ∃ ts, Pushed l l' ts := by
  cases h with
  | write buf _ =>
    obtain ⟨h1, _, h3⟩ := nm32aTtyWriteLocked_queue hw buf
    refine ⟨_, h1, ?_, h3, rfl⟩
    unfold Line.tokens
    rw [tokens_append]
    simp [Prod.tokens]
  | breakCtl state _ => exact pushed_break l.np hw rfl state rfl
  | sendbreakStart _ =>
    exact pushed_break { l.np with opened := true } hw rfl true (by rw [Nm32a.sendbreakStart])
  | sendbreakStop _ => exact pushed_break l.np hw rfl false (by rw [Nm32a.sendbreakStop])
  | sendbreakDone wasOpen _ =>
    exact ⟨[], .nil hw rfl rfl rfl⟩

/-- **Producers append whole tokens.** -/
theorem Produces.stream (h : Produces l l') (hw : l.np.Wf) : ∃ ts, Pushed l l' ts := by
  induction h with
  | refl => exact ⟨[], .refl hw⟩
  | tail _ h1 ih =>
    obtain ⟨ts, hts⟩ := ih
    obtain ⟨us, hus⟩ := h1.pushed hts.wf
    exact ⟨_, hts.trans hus⟩

theorem Produce.unlocked (h : Produce l l') : l.locked = false ∧ l'.locked = false := by
  cases h <;> exact ⟨by assumption, by assumption⟩

/-- nobody produces while the lock is taken -/
theorem Produces.locked (h : Produces l l') (hl : l.locked = true) : l' = l := by
  induction h with
  | refl => rfl
  | tail _ h1 ih =>
    subst ih
    rw [h1.unlocked.1] at hl
    cases hl

theorem Produce.same (h : Produce l l') : l'.np.tail = l.np.tail ∧ l'.np.rxOff = l.np.rxOff := by
  cases h with
  | write buf _ =>
    have h := nm32aTtyWriteLocked_same l.np buf
    exact ⟨h.tail, h.rxOff⟩
  | breakCtl state _ =>
    have h := breakPut_same l.np state
    exact ⟨h.tail, h.rxOff⟩
  | sendbreakStart _ =>
    have h := breakPut_same { l.np with opened := true } true
    rw [Nm32a.sendbreakStart]
    exact ⟨h.tail, h.rxOff⟩
  | sendbreakStop _ =>
    have h := breakPut_same l.np false
    exact ⟨h.tail, h.rxOff⟩
  | sendbreakDone wasOpen _ => exact ⟨rfl, rfl⟩

/-- producers leave the read index and the receiver's mute alone -/
theorem Produces.same (h : Produces l l') :
    l'.np.tail = l.np.tail ∧ l'.np.rxOff = l.np.rxOff := by
  induction h with
  | refl => exact ⟨rfl, rfl⟩
  | tail _ h1 ih => exact ⟨h1.same.1.trans ih.1, h1.same.2.trans ih.2⟩

end Line

/-! ## the invariant -/

/-- the bytes sent on the channel of port `i` since the port was activated -/
def sentSince (i : Fin 32) (w : World) : List UInt8 :=
  ((w.sentOn i).drop (w.line i).mark).map Sent.byte

structure Settled (i : Fin 32) (w : World) : Prop where
  wf : (w.line i).np.Wf
  mark : (w.line i).mark ≤ (w.sentOn i).length
  stream : sentSince i w ++ (w.line i).np.queue = tokenBytes (w.line i).tokens

/-- what can be said at any moment -/
structure Intact (i : Fin 32) (w : World) : Prop where
  head : (w.line i).np.head < txbuf
  tail : (w.line i).np.tail < txbuf
  queued : (w.line i).np.queue.length ≤ txbuf - 1
  stream : (w.line i).locked = false → ∀ ts,
    tokenBytes ts = sentSince i w ++ (w.line i).np.queue ↔ ts = (w.line i).tokens
  sofar : sentSince i w <+: tokenBytes (w.line i).tokens
  drained : (w.line i).np.queue = [] → sentSince i w = tokenBytes (w.line i).tokens

/-- the bytes `b :: q` are queued, and `b` was sent already -/
structure Owing (i : Fin 32) (b : UInt8) (q : List UInt8) (w : World) : Prop where
  wf : (w.line i).np.Wf
  mark : (w.line i).mark ≤ (w.sentOn i).length
  locked : (w.line i).locked = true
  queue : (w.line i).np.queue = b :: q
  stream : sentSince i w ++ q = tokenBytes (w.line i).tokens

variable {c : Cfg} {i : Fin 32} {w w' : World}

theorem Settled.intact (h : Settled i w) : Intact i w := by
  refine ⟨h.wf.head, h.wf.tail, Port.queue_length h.wf, fun _ ts => ?_, ⟨_, h.stream⟩, fun hq => ?_⟩
  · rw [h.stream]
    exact ⟨tokens_unique, fun e => by rw [e]⟩
  · have hs := h.stream
    rwa [hq, List.append_nil] at hs

theorem Owing.intact {b : UInt8} {q : List UInt8} (h : Owing i b q w) : Intact i w := by
  refine ⟨h.wf.head, h.wf.tail, Port.queue_length h.wf, fun hl => ?_, ⟨_, h.stream⟩, fun hq => ?_⟩
  · rw [h.locked] at hl
    cases hl
  · rw [h.queue] at hq
    cases hq

/-- both ends of the transmit side of port `i` are as they were -/
structure SameTx (i : Fin 32) (w w' : World) : Prop where
  ring : (w'.line i).np.ring = (w.line i).np.ring
  prods : (w'.line i).prods = (w.line i).prods
  mark : (w'.line i).mark = (w.line i).mark
  sent : w'.sentOn i = w.sentOn i

theorem SameTx.settled (h : SameTx i w w') (hs : Settled i w) : Settled i w' := by
  refine ⟨?_, ?_, ?_⟩
  · unfold Port.Wf
    rw [h.ring]
    exact hs.wf
  · rw [h.mark, h.sent]
    exact hs.mark
  · unfold sentSince Port.queue Line.tokens
    rw [h.ring, h.prods, h.mark, h.sent]
    exact hs.stream

/-- the environment is made of producers as far as ports go -/
def Cfg.Tended (c : Cfg) : Prop := ∀ l l', c.line l l' → Line.Produces l l'

theorem Cfg.rely.sentOn (h : c.rely w w') (i : Fin 32) : w'.sentOn i = w.sentOn i := by
  obtain ⟨req, more, _, he⟩ := h.chip (chipOf i)
  unfold World.sentOn
  rw [he]

theorem Settled.stable (hc : c.Tended) : Stable c.card (Settled i) := by
  intro w w' h hr
  obtain ⟨ts, hp⟩ := (hc _ _ (hr.line i)).stream h.wf
  refine ⟨hp.wf, ?_, ?_⟩
  · rw [hp.mark, hr.sentOn]
    exact h.mark
  · unfold sentSince
    rw [hp.mark, hr.sentOn, hp.queue, hp.tokens, tokenBytes_append, ← List.append_assoc]
    exact congrArg (· ++ tokenBytes ts) h.stream

/-- operations that leave the transmit side of port `i` alone -/
def Op.Spares (i : Fin 32) : Op → Prop
  | .cwr _ reg _ => reg ≠ .TDR
  | .setPort i' f => i' = i → f.Light
  | _ => True

theorem write_sent (h : Chip) {reg : Reg} (v : UInt8) (hr : reg ≠ .TDR) :
    (h.write reg v).sent = h.sent := by
  have he : ∀ k, (h.eoir k).sent = h.sent := by
    intro k
    unfold Chip.eoir
    repeat' split
    all_goals rfl
  cases reg
  case TDR => exact absurd rfl hr
  case REOIR => exact he .rx
  case TEOIR => exact he .tx
  all_goals rfl

theorem setChip_sentOn {j : Fin 8} {h : Chip} (hs : h.sent = (w.hw j).sent) (i : Fin 32) :
    (w.setChip j h).sentOn i = w.sentOn i := by
  unfold World.sentOn World.setChip
  by_cases e : chipOf i = j
  · subst e
    simp only [Function.update_self, hs]
  · simp only [Function.update_of_ne e]

theorem setLine_same {i' : Fin 32} {l : Line} (h : i' = i → l.np.ring = (w.line i).np.ring ∧
    l.prods = (w.line i).prods ∧ l.mark = (w.line i).mark) : SameTx i w (w.setLine i' l) := by
  unfold World.setLine
  by_cases e : i = i'
  · subst e
    obtain ⟨h1, h2, h3⟩ := h rfl
    refine ⟨?_, ?_, ?_, rfl⟩ <;> simp only [Function.update_self] <;> assumption
  · refine ⟨?_, ?_, ?_, rfl⟩ <;> simp only [Function.update_of_ne e]

theorem access_spares {o : Op} {r : Res o} (ho : o.Spares i) (ha : c.access w o r w') :
    SameTx i w w' := by
  cases o with
  | crd j reg =>
    obtain ⟨h', hr, rfl⟩ := ha
    exact ⟨rfl, rfl, rfl, setChip_sentOn (Chip.read_same hr).1 i⟩
  | cwr j reg v =>
    subst ha
    exact ⟨rfl, rfl, rfl, setChip_sentOn (write_sent _ v ho) i⟩
  | readb addr =>
    replace ha : c.Ack addr w w' := ha
    cases ha with
    | nothing h => exact ⟨rfl, rfl, rfl, rfl⟩
    | grant j x hj hx hl h0 =>
      exact ⟨rfl, rfl, rfl, setChip_sentOn (j := j) (h := (w.hw j).grant x) rfl i⟩
  | spinLock i' => subst ha; exact setLine_same (by rintro rfl; exact ⟨rfl, rfl, rfl⟩)
  | spinUnlock i' => subst ha; exact setLine_same (by rintro rfl; exact ⟨rfl, rfl, rfl⟩)
  | flip i' bs => subst ha; exact setLine_same (by rintro rfl; exact ⟨rfl, rfl, rfl⟩)
  | setPort i' f =>
    subst ha
    refine setLine_same ?_
    rintro rfl
    have hf : f.Light := ho rfl
    cases f with
    | head v => exact False.elim hf
    | tail v => exact False.elim hf
    | _ => exact ⟨rfl, rfl, rfl⟩
  | port i' => obtain ⟨_, rfl⟩ := ha; exact ⟨rfl, rfl, rfl, rfl⟩
  | params => obtain ⟨_, rfl⟩ := ha; exact ⟨rfl, rfl, rfl, rfl⟩
  | jiffies => obtain ⟨_, rfl⟩ := ha; exact ⟨rfl, rfl, rfl, rfl⟩
  | hang => exact False.elim ha
  | _ => subst ha; exact ⟨rfl, rfl, rfl, rfl⟩

/-- an event keeps the invariant of port `i` in sight -/
def Tidy (i : Fin 32) (e : Event Op Res World) : Prop := Intact i e.pre ∧ Intact i e.post

theorem Settled.keeps : Keeps c.card (Tidy i) (Op.Spares i) (Settled i) := by
  intro w o r w' ho h ha
  have h' := (access_spares ho ha).settled h
  exact ⟨⟨h.intact, h'.intact⟩, h'⟩

theorem Op.Peek.spares {j : Fin 8} {o : Op} (h : o.Peek j) : o.Spares i := by
  cases o with
  | cwr j' reg v => exact False.elim h
  | setPort i' f => exact False.elim h
  | _ => trivial

theorem Op.Own.spares {j : Fin 8} {i' : Fin 32} {o : Op} (h : o.Own j i') : o.Spares i := by
  rcases h with h | h
  · exact h.spares
  cases o with
  | cwr j' reg v => rcases h.2 with rfl | rfl <;> nofun
  | setPort i' f => exact fun _ => h.2
  | _ => trivial

theorem Op.Within.spares {j : Fin 8} {i' : Fin 32} {o : Op} (h : o.Within j .rx i') :
    o.Spares i := by
  rcases h with h | rfl | ⟨_, rfl⟩ | ⟨h, _⟩
  · exact h.spares
  · trivial
  · trivial
  · cases h

theorem Op.Ends.spares {j : Fin 8} {reg : Reg} {o : Op} (hr : reg ≠ .TDR) (h : o.Ends j reg) :
    o.Spares i := by
  rcases h with h | ⟨v, rfl⟩
  · exact h.spares
  · exact hr

theorem Op.Sweep.spares {o : Op} (h : o.Sweep) : o.Spares i := by
  cases o with
  | cwr j reg v => rcases h with rfl | rfl <;> nofun
  | setPort i' f => exact False.elim h
  | _ => trivial

theorem Op.Setup.spares {k : Fin 32} {o : Op} (h : o.Setup k) : o.Spares i := by
  cases o with
  | cwr j reg v =>
    rintro rfl
    exact h.2.1
  | setPort i' f =>
    obtain ⟨_, b, rfl⟩ := h
    exact fun _ => trivial
  | _ => trivial

theorem Op.Switch.spares {k : Fin 32} {o : Op} (h : o.Switch k) : o.Spares i := by
  rcases h with h | ⟨v, rfl⟩
  · exact h.spares
  · exact (nofun : Reg.IER ≠ .TDR)

theorem Op.Bringup.spares {k : Fin 32} {o : Op} (hk : k ≠ i) (h : o.Bringup k) :
    o.Spares i := by
  rcases h with h | ⟨f, rfl⟩
  · exact h.spares
  · exact fun e => absurd e hk

/-! ## the transmit service -/

/-- the transmit context of channel `ch` is the one the data register of chip `j` belongs to -/
def OnTop (j : Fin 8) (ch : Fin 4) (w : World) : Prop :=
  ∃ x rest, (w.hw j).stack = x :: rest ∧ x.kind = .tx ∧ x.chan = ch

variable {j : Fin 8} {ch : Fin 4}

theorem OnTop.onStacks : OnStacks (OnTop j ch) := by
  rintro w w' hs _ ⟨x, rest, hx, h⟩
  exact ⟨x, rest, (hs j).trans hx, h⟩

theorem write_tdr (h : OnTop j ch w) (v : UInt8) :
    ((w.hw j).write .TDR v).stack = (w.hw j).stack ∧ ((w.hw j).write .TDR v).sent
      = Function.update (w.hw j).sent ch ((w.hw j).sent ch ++ [⟨(w.hw j).etc ch, v⟩]) := by
  obtain ⟨x, rest, hs, hk, rfl⟩ := h
  refine ⟨write_stack _ .TDR v ⟨nofun, nofun⟩, ?_⟩
  simp only [Chip.write, hs, hk, if_true]

/-- a byte sent in another port's context -/
theorem tdr_other (hi : portIx j ch ≠ i) (h : OnTop j ch w) (v : UInt8) :
    SameTx i w (w.setChip j ((w.hw j).write .TDR v)) := by
  refine ⟨rfl, rfl, rfl, ?_⟩
  unfold World.sentOn World.setChip
  by_cases e : chipOf i = j
  · have hc : chanIx i ≠ ch := by
      rintro rfl
      exact hi (by rw [← e, portIx_chipOf])
    subst e
    simp only [Function.update_self, (write_tdr h v).2, Function.update_of_ne hc]
  · simp only [Function.update_of_ne e]

/-- a byte sent in the port's own context -/
theorem tdr_self (h : OnTop j ch w) (v : UInt8) :
    (w.setChip j ((w.hw j).write .TDR v)).sentOn (portIx j ch)
      = w.sentOn (portIx j ch) ++ [⟨(w.hw j).etc ch, v⟩] := by
  unfold World.sentOn World.setChip
  rw [chipOf_portIx, chanIx_portIx]
  simp only [Function.update_self, (write_tdr h v).2]

theorem OnTop.setChip (h : OnTop j ch w) {h' : Chip} (hs : h'.stack = (w.hw j).stack) :
    OnTop j ch (w.setChip j h') := by
  obtain ⟨x, rest, hx, hk⟩ := h
  refine ⟨x, rest, ?_, hk⟩
  simp only [World.setChip, Function.update_self, hs, hx]

theorem access_within {k : Kind} {i' : Fin 32} {o : Op} {r : Res o} (ho : o.Own j i')
    (ha : c.access w o r w') (h : OnTop j ch w) : OnTop j ch w' := by
  obtain ⟨hs, hg⟩ := access_own ho ha
  exact OnTop.onStacks w w' hs hg h

/-- the transmit service of another port -/
theorem Settled.keeps_other (hi : portIx j ch ≠ i) :
    Keeps c.card (Tidy i) (Op.Within j .tx (portIx j ch)) fun w => Settled i w ∧ OnTop j ch w := by
  rintro w o r w' (ho | rfl | ⟨h, _⟩ | ⟨_, ⟨v, rfl⟩ | ⟨v, rfl⟩⟩) ⟨hs, ht⟩ ha
  · obtain ⟨hg, hs'⟩ := Settled.keeps w o r w' ho.spares hs ha
    exact ⟨hg, hs', access_within (k := .tx) ho ha ht⟩
  · obtain ⟨hg, hs'⟩ := Settled.keeps _ (.crd j .RFOC) _ _ trivial hs ha
    obtain ⟨h', hr, rfl⟩ := ha
    refine ⟨hg, hs', ?_⟩
    obtain ⟨x, rest, hx, hk, hc⟩ := ht
    simp only [Chip.read, hx] at hr
    have hy : ∃ y, h'.stack = y :: rest ∧ y.kind = .tx ∧ y.chan = ch := by
      rw [hr.2]
      exact ⟨_, rfl, hk, hc⟩
    obtain ⟨y, hy, hyk⟩ := hy
    exact ⟨y, rest, (congrArg Chip.stack (Function.update_self ..)).trans hy, hyk⟩
  · cases h
  · subst ha
    have hs' := (tdr_other hi ht v).settled hs
    exact ⟨⟨hs.intact, hs'.intact⟩, hs', ht.setChip (write_tdr ht v).1⟩
  · obtain ⟨hg, hs'⟩ := Settled.keeps _ (.setPort (portIx j ch) (.tail v)) _ _
      (fun e => absurd e hi) hs ha
    subst ha
    exact ⟨hg, hs', OnTop.onStacks w _ (fun _ => rfl) rfl ht⟩

/-- a receive service leaves every transmit side alone -/
theorem uses_serviceRx_spares (tr : Bool) (rir0 : UInt8) :
    (serviceRx j tr rir0).Uses (Op.Spares i) := by
  refine (reaches_serviceRx tr rir0).uses.mono ?_
  rintro o ((h | h) | rfl)
  · exact h.spares
  · exact h.spares (show Reg.REOIR ≠ .TDR from nofun)
  · trivial

section
variable (hc : c.Tended)
include hc

/-- inside the critical section of the service of port `portIx j ch` -/
structure Sending (j : Fin 8) (ch : Fin 4) (w : World) : Prop where
  settled : Settled (portIx j ch) w
  top : OnTop j ch w
  locked : (w.line (portIx j ch)).locked = true

theorem Sending.stable : Stable c.card fun w => Sending j ch w := by
  intro w w' h hr
  refine ⟨Settled.stable hc w w' h.settled hr, OnTop.onStacks w w' hr.stack hr.granted h.top, ?_⟩
  rw [(hc _ _ (hr.line _)).locked h.locked]
  exact h.locked

theorem Cfg.rely.lineLocked {i : Fin 32} (hl : (w.line i).locked = true) (h : c.rely w w') :
    w'.line i = w.line i := (hc _ _ (h.line i)).locked hl

theorem Owing.stable {b : UInt8} {q : List UInt8} (l : Line) : Stable c.card fun w =>
    (Owing (portIx j ch) b q w ∧ OnTop j ch w) ∧ w.line (portIx j ch) = l := by
  rintro w w' ⟨⟨hw, ht⟩, hl⟩ hr
  have hl' := hr.lineLocked hc hw.locked
  refine ⟨⟨⟨?_, ?_, ?_, ?_, ?_⟩, OnTop.onStacks w w' hr.stack hr.granted ht⟩, hl'.trans hl⟩
  · rw [hl']; exact hw.wf
  · rw [hl', hr.sentOn]; exact hw.mark
  · rw [hl']; exact hw.locked
  · rw [hl']; exact hw.queue
  · unfold sentSince
    rw [hl', hr.sentOn]
    exact hw.stream

omit hc in
/-- the byte at `tx_tail` has been sent and is still queued -/
theorem owing_of_tdr {b : UInt8} {q : List UInt8} (h : Sending j ch w)
    (hq : (w.line (portIx j ch)).np.queue = b :: q) :
    Owing (portIx j ch) b q (w.setChip j ((w.hw j).write .TDR b)) := by
  refine ⟨h.settled.wf, ?_, h.locked, hq, ?_⟩
  · rw [tdr_self h.top, List.length_append]
    exact Nat.le_add_right_of_le h.settled.mark
  · show ((List.drop (w.line (portIx j ch)).mark _).map Sent.byte) ++ q
      = tokenBytes (w.line (portIx j ch)).tokens
    rw [tdr_self h.top, List.drop_append_of_le_length h.settled.mark, List.map_append,
      List.map_singleton, List.append_assoc, List.singleton_append, ← hq]
    exact h.settled.stream

/-- **One byte after the other moves from the ring to the chip.** -/
theorem wp_txLoop_settled (room : Nat) (h : Sending j ch w) :
    wp c.card (Tidy (portIx j ch)) (txLoop j (portIx j ch) room)
      (fun _ w' => Sending j ch w') w := by
  induction room generalizing w with
  | zero => exact h
  | succ room ih =>
    unfold txLoop
    refine wp_issue (Sending.stable hc) h ?_
    rintro _ np w1 h1 _ ⟨rfl, rfl⟩
    refine ⟨⟨h1.settled.intact, h1.settled.intact⟩, ?_⟩
    split
    · exact h1
    rename_i hne
    have hstab : Stable c.card fun w => Sending j ch w ∧ w.line (portIx j ch)
        = w1.line (portIx j ch) := by
      intro w w' hw hr
      exact ⟨Sending.stable hc w w' hw.1 hr, (hr.lineLocked hc hw.1.locked).trans hw.2⟩
    generalize hb : (w1.line (portIx j ch)).np.tx (w1.line (portIx j ch)).np.tail = b
    refine wp_issue hstab ⟨h1, rfl⟩ ?_
    rintro w2 _ _ ⟨h2, he⟩ _ rfl
    obtain ⟨q, hq⟩ : ∃ q, q = ((w2.line (portIx j ch)).np.ring.pop txbuf).queue txbuf := ⟨_, rfl⟩
    have hqueue : (w2.line (portIx j ch)).np.queue = b :: q := by
      rw [hq, ← hb, ← he]
      refine RingBuf.queue_pop h2.settled.wf ?_
      rw [he]
      exact hne
    have ho := owing_of_tdr h2 hqueue
    refine ⟨⟨h2.settled.intact, ho.intact⟩, ?_⟩
    refine wp_issue (Owing.stable hc (w2.line (portIx j ch)))
      ⟨⟨ho, h2.top.setChip (write_tdr h2.top b).1⟩, rfl⟩ ?_
    rintro w3 _ _ ⟨⟨h3, ht3⟩, hl3⟩ _ rfl
    have hring : ((w3.assign (portIx j ch) (.tail
        (((w1.line (portIx j ch)).np.tail + 1) % txbuf))).np).ring
        = (w2.line (portIx j ch)).np.ring.pop txbuf := by
      rw [← he, ← hl3]
      rfl
    have hs4 : Sending j ch (w3.setLine (portIx j ch) (w3.assign (portIx j ch)
        (.tail (((w1.line (portIx j ch)).np.tail + 1) % txbuf)))) := by
      refine ⟨⟨?_, ?_, ?_⟩, OnTop.onStacks w3 _ (fun _ => rfl) rfl ht3, ?_⟩
      · unfold Port.Wf
        simp only [World.setLine, Function.update_self, hring]
        exact RingBuf.Wf.pop h2.settled.wf
      · simp only [World.setLine, Function.update_self]
        exact h3.mark
      · unfold sentSince Port.queue Line.tokens
        simp only [World.setLine, Function.update_self, hring, ← hq]
        exact h3.stream
      · simp only [World.setLine, Function.update_self]
        exact h3.locked
    refine ⟨⟨h3.intact, hs4.settled.intact⟩, ?_⟩
    exact (wp_bind _ _ _ _).mpr (wp_post (ih hs4) fun _ _ h => h)

/-- the critical section of the transmit service, whichever port it is for -/
theorem wp_serviceTx_settled (h : Settled i w) (ht : OnTop j ch w) :
    wp c.card (Tidy i) (serviceTx j ch) (fun _ w' => Settled i w') w := by
  have hst : Stable c.card fun w => Settled i w ∧ OnTop j ch w :=
    (Settled.stable hc).and OnTop.onStacks.stable
  have hloop : ∀ room w, Settled i w → OnTop j ch w →
      (w.line (portIx j ch)).locked = true →
      wp c.card (Tidy i) (txLoop j (portIx j ch) room) (fun _ w' => Settled i w') w := by
    intro room w hs ht hl
    by_cases hi : portIx j ch = i
    · subst hi
      exact wp_post (wp_txLoop_settled hc room ⟨hs, ht, hl⟩) fun _ _ h => h.settled
    · exact wp_post (wp_keeps hst (Settled.keeps_other hi) (uses_txLoop room) ⟨hs, ht⟩)
        fun _ _ h => h.1
  have hlk : Stable c.card fun w => (Settled i w ∧ OnTop j ch w) ∧
      (w.line (portIx j ch)).locked = true := by
    intro w w' hw hr
    refine ⟨hst w w' hw.1 hr, ?_⟩
    rw [hr.lineLocked hc hw.2]
    exact hw.2
  unfold serviceTx
  refine wp_issue hst ⟨h, ht⟩ ?_
  intro w1 _ w2 h1 _ ha2
  obtain ⟨hg2, h2⟩ := Settled.keeps (c := c) _ (.spinLock (portIx j ch)) _ _ trivial h1.1 ha2
  subst ha2
  refine ⟨hg2, ?_⟩
  refine wp_issue hlk ⟨⟨h2, OnTop.onStacks w1 _ (fun _ => rfl) rfl h1.2⟩, ?_⟩ ?_
  · simp only [World.setLine, Function.update_self]
  intro w3 room w4 h3 _ ha4
  obtain ⟨hg4, h4⟩ := Settled.keeps (c := c) _ (.crd j .TFTC) _ _ trivial h3.1.1 ha4
  obtain ⟨h', rfl, rfl⟩ := ha4
  refine ⟨hg4, ?_⟩
  refine (wp_bind _ _ _ _).mpr (wp_post (hloop _ _ h4 ?_ h3.2) ?_)
  · exact OnTop.onStacks w3 _ (fun i => by simp [World.setChip]) rfl h3.1.2
  intro n w5 h5
  have hier : Reg.IER ≠ .TDR := by decide
  have hend : Reg.TEOIR ≠ .TDR := by decide
  refine wp_keeps (Settled.stable hc) Settled.keeps ?_ h5
  refine Prog.Uses.bind (Prog.Uses.ite (uses_issue hier) trivial) ?_
  intro _
  refine Prog.Uses.bind ((uses_eoi _ _).mono fun _ => Op.Ends.spares hend) ?_
  intro _
  exact Prog.Uses.bind (uses_issue trivial) fun _ => uses_issue trivial

theorem wp_service_settled (h : Settled i w) :
    wp c.card (Tidy i) (nm32aService j) (fun _ w' => Settled i w') w := by
  have hask : Keeps c.card (Tidy i) (Op.Ask j) (Settled i) :=
    Settled.keeps.mono fun _ h => h.peek.spares
  have hgrant := wp_serviceGrant (c := c) (j := j) (G := Tidy i) (N := Settled i) c.card.le_refl
    (Settled.stable hc) hask (Settled.stable hc) hask
    (fun w addr v w' hw _ _ ha => Settled.keeps w (.readb addr) v w' trivial hw ha)
    (fun w w' hw ha => Settled.keeps w .unlock () w' trivial hw ha)
    (fun w w' hw _ ha => Settled.keeps w .unlock () w' trivial hw ha) h
  unfold nm32aService
  refine (wp_bind _ _ _ _).mpr (wp_post hgrant ?_)
  intro g w1 h1
  cases g with
  | none => exact h1
  | some g =>
    obtain ⟨h1, hshown⟩ := h1
    show wp c.card (Tidy i) (serviceGranted j g >>= fun _ => pure true) _ w1
    refine (wp_bind _ _ _ _).mpr (wp_post (Q := fun _ w' => Settled i w') ?_ fun _ _ h => h)
    unfold serviceGranted
    rcases hshown with ⟨h0, _⟩ | ⟨h0, x, rest, hx, hk, hch⟩
    · rw [if_pos h0]
      exact wp_keeps (Settled.stable hc) Settled.keeps (uses_serviceRx_spares g.tr g.rir0) h1
    · rw [if_neg (not_not.mpr h0)]
      exact wp_serviceTx_settled hc h1 ⟨x, rest, hx, hk, hch⟩

end

/-! ## runs of calls -/

section
variable (hc : c.Tended)
include hc

theorem wp_call_settled (call : Call) (hcall : ¬call.Activates i) (h : Settled i w) :
    wp c.card (Tidy i) call.prog (fun _ w' => Settled i w') w := by
  have hkeep : ∀ {α : Type} {p : Drv α}, p.Uses (Op.Spares i) →
      wp c.card (Tidy i) p (fun _ w' => Settled i w') w :=
    fun hu => wp_keeps (Settled.stable hc) Settled.keeps hu h
  cases call with
  | service chip => exact wp_discard (wp_service_settled hc h)
  | armTx chip => exact hkeep ((uses_armTx chip).mono fun _ => Op.Sweep.spares)
  | activate turns k rate =>
    exact wp_discard (hkeep ((uses_activate turns rate).mono fun _ => Op.Bringup.spares hcall))
  | setTermios turns k rate =>
    exact hkeep ((uses_setTermios turns rate).mono fun _ => Op.Switch.spares)
  | dtrRts k active => exact hkeep ((uses_dtrRts active).mono fun _ => Op.Setup.spares)
  | shutdown k => exact hkeep (uses_shutdown.mono fun _ => Op.Switch.spares)
  | sample k => exact wp_discard (hkeep (uses_sample.mono fun _ => Op.Setup.spares))

/-- the activation of a port empties its ring -/
theorem wp_activateRest_settled :
    wp c.card (fun _ => True) (activateRest i) (fun _ w' => Settled i w') w := by
  refine wp_issue (P := fun _ => True) (fun _ _ h _ => h) trivial ?_
  rintro w1 _ w2 _ _ rfl
  refine ⟨trivial, ?_⟩
  have htail : Stable c.card fun w => (w.line i).np.tail = 0 :=
    fun w w' h hr => (hc _ _ (hr.line i)).same.1.trans h
  refine wp_issue htail ?_ ?_
  · show (Function.update w1.line i _ i).np.tail = 0
    rw [Function.update_self]
    rfl
  rintro w3 _ w4 h3 _ rfl
  refine ⟨trivial, ?_⟩
  have h4 : Settled i (w3.setLine i (w3.assign i (.head 0))) := by
    have hring : (w3.assign i (.head 0)).np.ring = ⟨(w3.line i).np.tx, 0, 0⟩ := by
      show RingBuf.mk _ 0 (w3.line i).np.tail = _
      rw [h3]
      rfl
    have hwf : RingBuf.Wf txbuf ⟨(w3.line i).np.tx, 0, 0⟩ :=
      ⟨(by decide : 0 < txbuf), (by decide : 0 < txbuf)⟩
    refine ⟨?_, ?_, ?_⟩
    · unfold Port.Wf
      simp only [World.setLine, Function.update_self, hring]
      exact hwf
    · simp only [World.setLine, Function.update_self]
      exact Nat.le_refl _
    · unfold sentSince Port.queue Line.tokens
      simp only [World.setLine, Function.update_self, hring, (RingBuf.queue_nil hwf).mpr rfl]
      show (List.drop (w3.sentOn i).length (w3.sentOn i)).map Sent.byte ++ [] = []
      rw [List.drop_length]
      rfl
  refine wp_mono (wp_keeps (Settled.stable hc) Settled.keeps ?_ h4) (fun _ _ => trivial)
    (fun _ _ h => h)
  refine Prog.Uses.bind (uses_issue fun _ => trivial) ?_
  intro _
  refine Prog.Uses.bind (uses_issue trivial) ?_
  intro now
  refine Prog.Uses.bind (uses_issue fun _ => trivial) ?_
  intro _
  refine Prog.Uses.bind (uses_issue fun _ => trivial) ?_
  intro _
  refine Prog.Uses.bind (uses_issue fun _ => trivial) ?_
  intro _
  exact Prog.Uses.bind (uses_issue trivial) fun _ => trivial

theorem wp_activate_settled (turns rate : Nat) :
    wp c.card (fun _ => True) (nm32aPortActivate turns i rate)
      (fun r w' => r = 0 → Settled i w') w := by
  have hany : Stable c.card fun _ => True := fun _ _ h _ => h
  have hall : Keeps c.card (fun _ => True) (fun _ => True) fun _ => True :=
    fun _ _ _ _ _ _ _ => ⟨trivial, trivial⟩
  rw [nm32aPortActivate_eq]
  refine wp_bind_keeps hany hall (uses_issue trivial) trivial ?_
  intro _ w1 _
  refine wp_bind_keeps hany hall (uses_issue trivial) trivial ?_
  intro gfrcr w2 _
  split
  · refine wp_bind_keeps hany hall (uses_issue trivial) trivial ?_
    intro _ w3 _ h
    exact absurd h (by decide)
  · refine wp_bind_keeps hany hall ((uses_chanInit turns _).mono fun _ _ => trivial) trivial ?_
    intro _ w3 _
    exact wp_post (wp_activateRest_settled hc) fun _ _ h _ => h

end

theorem txRing_intact (hc : c.Tended) {turns rate : Nat} {calls : List Call}
    (hcalls : ∀ call ∈ calls, ¬call.Activates i) {w w1 w2 : World}
    {tr1 tr2 : List (Event Op Res World)} {p' : Drv Unit}
    (h1 : Runs c.card (nm32aPortActivate turns i rate) w tr1 0 w1)
    (h2 : Exec c.card (callsProg calls) w1 tr2 w2 p') :
    Intact i w1 ∧ ∀ e ∈ tr2, Intact i e.pre ∧ Intact i e.post := by
  have hs := (wp_runs (wp_activate_settled hc turns rate) h1).2 rfl
  refine ⟨hs.intact, (wp_exec (wp_calls (fun call hcall w hw => ?_) hs) h2).1⟩
  exact wp_call_settled hc call (hcalls call hcall) hw

/-- **The ring of a port loses, repeats and overwrites nothing from one activation to the next,
and cuts no token.** -/
theorem txRing_integrity (c : Cfg) (hc : c.Tended) (i : Fin 32) (turns rate : Nat)
    (calls : List Call) (hcalls : ∀ call ∈ calls, ¬call.Activates i) (w w1 w2 : World)
    (tr1 tr2 : List (Event Op Res World)) (p' : Drv Unit)
    (h1 : Runs c.card (nm32aPortActivate turns i rate) w tr1 0 w1)
    (h2 : Exec c.card (callsProg calls) w1 tr2 w2 p') :
    Intact i w1 ∧ ∀ e ∈ tr2, Intact i e.pre ∧ Intact i e.post :=
  txRing_intact hc hcalls h1 h2

/-- the whole card with its producers, and an FPGA that picks the chip being serviced -/
def tendedCard : Cfg := { ownChip with line := Line.Produces }

theorem tendedCard_tended : tendedCard.Tended := fun _ _ h => h
theorem timely_tendedCard : tendedCard.Timely := timely_ownChip

theorem tendedCard_pick (w : World) (i : Fin 8) (h : tendedCard.pick w i) : i = w.serving := h

/-- a write of `buf` on port `i`, if the lock is free -/
def produceWrite (i : Fin 32) (buf : List UInt8) (w : World) : World :=
  if (w.line i).locked = false then
    w.setLine i { w.line i with
      np := (nm32aTtyWriteLocked (w.line i).np buf).1
      prods := (w.line i).prods
        ++ [.write (buf.take (nm32aTtyWriteLocked (w.line i).np buf).2)] }
  else w

theorem produceWrite_rely {i : Fin 32} {buf : List UInt8} (h : tendedCard.Ready w) :
    tendedCard.rely w (produceWrite i buf w) := by
  have hrefl := h.rely_refl (c := tendedCard) fun _ => Relation.ReflTransGen.refl
  unfold produceWrite
  split
  · rename_i hl
    refine ⟨hrefl.chip, fun i' => ?_, hrefl.par, rfl, rfl, rfl⟩
    by_cases e : i' = i
    · subst e
      simp only [World.setLine, Function.update_self]
      exact .single (.write (w.line i') buf hl)
    · simp only [World.setLine, Function.update_of_ne e]
      exact .refl
  · exact hrefl

/-- the FPGA grants the chip being serviced, `writes n` is written before the `n`-th operation,
and every receive service is an exception with the given cause -/
def tendedScript (writes : Nat → Option (Fin 32 × List UInt8)) (tftc risr : UInt8) :
    Script tendedCard where
  inter n w := match writes n with
    | some (i, buf) => produceWrite i buf w
    | none => w
  grants w := some w.serving
  good := false
  risr := risr
  tftc := tftc
  ok w := decide (w.par.eoiretry ≠ 0)
  rely n w h := by
    have hp : w.par.eoiretry ≠ 0 := of_decide_eq_true h
    have hr : tendedCard.Ready w := ⟨hp, fun _ _ _ _ => trivial⟩
    cases writes n with
    | some t => exact produceWrite_rely hr
    | none => exact hr.rely_refl fun _ => .refl
  pick w j h := picks_serving h
  eoirs := one_le_hundred

/-- channel 1 of chip 0 asks for data -/
def askingWorld : World :=
  idleWorld.setChip 0 { idleChip with req := fun k x => k = .tx && x = 1 }

/-- port 1 is brought up, `A` and a NUL are written, and one service sends them -/
theorem txRing_integrity_written : ∃ w1 w2 tr1 tr2 p',
    Runs tendedCard.card (nm32aPortActivate 1 1 9600) askingWorld tr1 0 w1 ∧
      Exec tendedCard.card (callsProg [.service 0]) w1 tr2 w2 p' ∧
      sentSince 1 w2 = [0x41, 0x00, 0x00] ∧
      Intact 1 w1 ∧ ∀ e ∈ tr2, Intact 1 e.pre ∧ Intact 1 e.post := by
  let S := tendedScript (fun n => if n = 100 then some (1, [0x41, 0x00]) else none) 16 0x00
  have h1 := S.policy.play_runs 0 (nm32aPortActivate 1 1 9600) askingWorld (a := 0)
    (by decide +kernel)
  have h2 := S.policy.play_exec 100 (callsProg [.service 0])
    (S.policy.play 0 (nm32aPortActivate 1 1 9600) askingWorld).2.1
  refine ⟨_, _, _, _, _, h1, h2, by decide +kernel, ?_⟩
  exact txRing_integrity tendedCard tendedCard_tended 1 1 9600 [.service 0]
    (by simp [Call.Activates]) _ _ _ _ _ _ h1 h2

end Nm32a
