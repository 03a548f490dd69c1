import Relicnos.Nm32a.Script
import Relicnos.Nm32a.Thread

/-!
# A granted context is used and ended as what it is

`Disciplined j` says of one operation of a pass over chip `j`: data registers are touched in a
context of their own kind only, an EOIR written while a context is open is of its kind, the
port that is used is the one of the granted channel, and the lock is given back with no context
open.  `wp_service` proves it of every operation of every pass, whatever arrives between them,
if the FPGA grants chip `j` and the EOIR writes of the driver are enough to close a context.
-/

set_option linter.unusedVariables false

namespace Nm32a
open Interact

def Disciplined (j : Fin 8) (e : Event Op Res World) : Prop :=
  match e.op with
  | .cwr i .TDR _ => ∃ x rest, (e.pre.hw i).stack = x :: rest ∧ x.kind = .tx
  | .crd i .RDR => ∃ x rest, (e.pre.hw i).stack = x :: rest ∧ x.kind = .rx
  | .cwr i .REOIR _ => ∀ x rest, (e.pre.hw i).stack = x :: rest → x.kind = .rx
  | .cwr i .TEOIR _ => ∀ x rest, (e.pre.hw i).stack = x :: rest → x.kind = .tx
  | .port i => ∃ k ch, e.pre.granted = some (j, k, ch) ∧ i = portIx j ch
  | .setPort i _ => ∃ k ch, e.pre.granted = some (j, k, ch) ∧ i = portIx j ch
  | .spinLock i => ∃ k ch, e.pre.granted = some (j, k, ch) ∧ i = portIx j ch
  | .spinUnlock i => ∃ k ch, e.pre.granted = some (j, k, ch) ∧ i = portIx j ch
  | .flip i _ => ∃ k ch, e.pre.granted = some (j, k, ch) ∧ i = portIx j ch
  | .unlock => e.pre.Closed
  | _ => True

variable {c : Cfg} {w : World} {j : Fin 8} {k : Kind} {ch : Fin 4}

theorem disciplined_look (e : Event Op Res World) (h : e.op.Look) : Disciplined j e := by
  obtain ⟨pre, op, res, post⟩ := e
  cases op with
  | crd i reg =>
    cases reg
    case RDR => exact absurd rfl h.1
    all_goals trivial
  | _ => trivial

theorem closed_onStacks : OnStacks World.Closed := fun w w' hs _ h i => (hs i).trans (h i)

/-- the context of kind `k` on channel `ch` of chip `j` is open, and nothing else is -/
def Inside (c : Cfg) (j : Fin 8) (k : Kind) (ch : Fin 4) (w : World) : Prop :=
  ∃ x, Only j [x] (some (j, k, ch)) w ∧ x.kind = k ∧ x.chan = ch ∧ 1 ≤ x.left ∧ x.left ≤ c.eoirs

/-- it has been ended, and nothing is open -/
def Ended (j : Fin 8) (k : Kind) (ch : Fin 4) (w : World) : Prop := Only j [] (some (j, k, ch)) w

theorem Inside.closing (h : Inside c j k ch w) : Closing j k (some (j, k, ch)) c.eoirs w := by
  obtain ⟨x, h, hk, _, hl⟩ := h
  exact .inr ⟨x, h, hk, hl⟩

theorem Inside.onStacks : OnStacks (Inside c j k ch) := by
  rintro w w' hs hg ⟨x, h, hx⟩
  exact ⟨x, Only.onStacks w w' hs hg h, hx⟩

theorem Ended.onStacks : OnStacks (Ended j k ch) := Only.onStacks

/-- registers that a write does not open, close or send with -/
def Reg.Plain : Reg → Prop
  | .TDR => False
  | .REOIR => False
  | .TEOIR => False
  | _ => True

/-- operations on the port `i` besides its ring, and writes of `CAR` and `IER` of chip `j` -/
def Op.Mine (j : Fin 8) (i : Fin 32) : Op → Prop
  | .cwr j' reg _ => j' = j ∧ (reg = .CAR ∨ reg = .IER)
  | .port i' => i' = i
  | .setPort i' f => i' = i ∧ f.Light
  | .spinLock i' => i' = i
  | .spinUnlock i' => i' = i
  | .flip i' _ => i' = i
  | _ => False

/-- what a pass does besides moving data and ending the context -/
def Op.Own (j : Fin 8) (i : Fin 32) (o : Op) : Prop := o.Peek j ∨ o.Mine j i

theorem write_stack (x : Chip) (reg : Reg) (v : UInt8) (h : reg ≠ .REOIR ∧ reg ≠ .TEOIR) :
    (x.write reg v).stack = x.stack := by
  cases reg
  case REOIR => exact absurd rfl h.1
  case TEOIR => exact absurd rfl h.2
  case TDR =>
    unfold Chip.write
    simp only
    split
    · split <;> rfl
    · rfl
  all_goals rfl

/-- operations of a pass that keep every stack -/
theorem access_own {i : Fin 32} {o : Op} {r : Res o} {w' : World} (ho : o.Own j i)
    (h : c.access w o r w') : (∀ i, (w'.hw i).stack = (w.hw i).stack) ∧ w'.granted = w.granted := by
  rcases ho with ho | ho
  · obtain ⟨h1, _, h3⟩ := access_look ho.look h
    exact ⟨fun i => by rw [h1], h3⟩
  cases o with
  | cwr j' reg v =>
    obtain ⟨rfl, hp⟩ := ho
    subst h
    refine ⟨fun i => ?_, rfl⟩
    have hr : reg ≠ .REOIR ∧ reg ≠ .TEOIR := by
      rcases hp with rfl | rfl <;> exact ⟨nofun, nofun⟩
    by_cases e : i = j'
    · subst e
      simp only [World.setChip, Function.update_self, write_stack _ _ v hr]
    · simp only [World.setChip, Function.update_of_ne e]
  | port i' =>
    obtain ⟨_, rfl⟩ := h
    exact ⟨fun _ => rfl, rfl⟩
  | setPort i' f => subst h; exact ⟨fun _ => rfl, rfl⟩
  | spinLock i' => subst h; exact ⟨fun _ => rfl, rfl⟩
  | spinUnlock i' => subst h; exact ⟨fun _ => rfl, rfl⟩
  | flip i' bs => subst h; exact ⟨fun _ => rfl, rfl⟩
  | _ => exact False.elim ho

/-- the operations of the thread between two passes open and close nothing -/
theorem access_sweep {o : Op} {r : Res o} {w' : World} (ho : o.Sweep)
    (h : c.access w o r w') : (∀ i, (w'.hw i).stack = (w.hw i).stack) ∧ w'.granted = w.granted := by
  cases o with
  | cwr j reg v => exact access_own (j := j) (i := 0) (o := .cwr j reg v) (.inr ⟨rfl, ho⟩) h
  | port i => obtain ⟨_, rfl⟩ := h; exact ⟨fun _ => rfl, rfl⟩
  | params => obtain ⟨_, rfl⟩ := h; exact ⟨fun _ => rfl, rfl⟩
  | spinLock i => subst h; exact ⟨fun _ => rfl, rfl⟩
  | spinUnlock i => subst h; exact ⟨fun _ => rfl, rfl⟩
  | lock => subst h; exact ⟨fun _ => rfl, rfl⟩
  | unlock => subst h; exact ⟨fun _ => rfl, rfl⟩
  | shouldStop => subst h; exact ⟨fun _ => rfl, rfl⟩
  | hang => exact False.elim h
  | _ => exact False.elim ho

theorem disciplined_own {o : Op} {r : Res o} {w' : World} (ho : o.Own j (portIx j ch))
    (hg : w.granted = some (j, k, ch)) : Disciplined j ⟨w, o, r, w'⟩ := by
  rcases ho with ho | ho
  · exact disciplined_look _ ho.look
  cases o with
  | cwr j' reg v =>
    obtain ⟨rfl, rfl | rfl⟩ := ho <;> trivial
  | port i' => exact ⟨k, ch, hg, ho⟩
  | setPort i' f => exact ⟨k, ch, hg, ho.1⟩
  | spinLock i' => exact ⟨k, ch, hg, ho⟩
  | spinUnlock i' => exact ⟨k, ch, hg, ho⟩
  | flip i' bs => exact ⟨k, ch, hg, ho⟩
  | _ => exact False.elim ho

theorem keeps_own {P : World → Prop} (hP : OnStacks P)
    (hg : ∀ w, P w → w.granted = some (j, k, ch)) :
    Keeps c.card (Disciplined j) (Op.Own j (portIx j ch)) P := by
  intro w o r w' ho hp ha
  obtain ⟨h1, h2⟩ := access_own ho ha
  exact ⟨disciplined_own ho (hg w hp), hP w w' h1 h2 hp⟩

theorem Ended.keeps :
    Keeps c.card (Disciplined j) (Op.Own j (portIx j ch)) (Ended j k ch) :=
  keeps_own Ended.onStacks fun _ h => h.granted

theorem Inside.granted (h : Inside c j k ch w) : w.granted = some (j, k, ch) := by
  obtain ⟨x, h, _⟩ := h
  exact h.granted

/-- a new stack of the chip being serviced -/
theorem Inside.setChip {x y : Ctx} {h' : Chip} (h : Only j [x] (some (j, k, ch)) w)
    (hx : x.kind = k ∧ x.chan = ch ∧ 1 ≤ x.left ∧ x.left ≤ c.eoirs) (hs : h'.stack = [y])
    (hy : y.kind = x.kind ∧ y.chan = x.chan ∧ y.left = x.left) :
    Inside c j k ch (w.setChip j h') := by
  refine ⟨y, ?_, hy.1.trans hx.1, hy.2.1.trans hx.2.1, ?_, ?_⟩
  · rw [← hs]
    exact h.setChip h'
  · rw [hy.2.2]
    exact hx.2.2.1
  · rw [hy.2.2]
    exact hx.2.2.2

/-- what a pass does inside a context of kind `k`, besides ending it -/
def Op.Within (j : Fin 8) (k : Kind) (i : Fin 32) (o : Op) : Prop :=
  o.Own j i ∨ o = .crd j .RFOC ∨ (k = .rx ∧ o = .crd j .RDR) ∨
    (k = .tx ∧ ((∃ v, o = .cwr j .TDR v) ∨ ∃ v, o = .setPort i (.tail v)))

/-- reads of the counter and of the data register change the counters of the context only -/
theorem read_stack {h h' : Chip} {x : Ctx} {rest : List Ctx} {reg : Reg} {v : UInt8}
    (hs : h.stack = x :: rest) (hr : h.read reg v h') :
    ∃ y, h'.stack = y :: rest ∧ y.kind = x.kind ∧ y.chan = x.chan ∧ y.left = x.left := by
  have hsame : h' = h → ∃ y, h'.stack = y :: rest ∧ y.kind = x.kind ∧ y.chan = x.chan ∧
      y.left = x.left := by
    rintro rfl
    exact ⟨x, hs, rfl, rfl, rfl⟩
  cases reg
  case RFOC =>
    simp only [Chip.read, hs] at hr
    rw [hr.2]
    exact ⟨_, rfl, rfl, rfl, rfl⟩
  case RDR =>
    simp only [Chip.read, hs] at hr
    split at hr
    · split at hr
      · rw [hr.2]
        exact ⟨_, rfl, rfl, rfl, rfl⟩
      · exact hsame hr
    · exact hsame hr
  case TIR => exact hsame hr.1
  case RIR => exact hsame hr.1
  case STK => exact hsame hr.1
  case RISRl => exact hsame hr.1
  all_goals exact hsame hr

theorem Inside.keeps :
    Keeps c.card (Disciplined j) (Op.Within j k (portIx j ch)) (Inside c j k ch) := by
  have hread : ∀ w reg (v : UInt8) w', Inside c j k ch w → c.access w (.crd j reg) v w' →
      Inside c j k ch w' := by
    rintro w reg v w' ⟨x, h, hx⟩ ⟨h', hr, rfl⟩
    obtain ⟨y, hs, hy⟩ := read_stack h.here hr
    exact Inside.onStacks (w.setChip j h') _ (fun _ => rfl) rfl (Inside.setChip h hx hs hy)
  rintro w o r w' (ho | rfl | ⟨rfl, rfl⟩ | ⟨rfl, ⟨v, rfl⟩ | ⟨v, rfl⟩⟩) hp ha
  · exact keeps_own Inside.onStacks (fun _ h => h.granted) w o r w' ho hp ha
  · exact ⟨trivial, hread w _ r w' hp ha⟩
  · obtain ⟨x, h, hk, _⟩ := id hp
    exact ⟨⟨x, [], h.here, hk⟩, hread w _ r w' hp ha⟩
  · obtain ⟨x, h, hx⟩ := hp
    subst ha
    refine ⟨⟨x, [], h.here, hx.1⟩, ?_⟩
    exact Inside.setChip h hx ((write_stack _ .TDR v ⟨nofun, nofun⟩).trans h.here) ⟨rfl, rfl, rfl⟩
  · subst ha
    exact ⟨⟨.tx, ch, hp.granted, rfl⟩, Inside.onStacks w _ (fun _ => rfl) rfl hp⟩

/-! ## the four endings -/

/-- reads that take characters out of a receive context -/
def Op.Fetch (j : Fin 8) (o : Op) : Prop := o = .crd j .RFOC ∨ o = .crd j .RDR

/-- what hands them to the tty layer -/
def Op.Hands (i : Fin 32) (o : Op) : Prop := o = .port i ∨ ∃ bs, o = .flip i bs

/-- what moves a byte from the ring to the chip -/
def Op.Sends (j : Fin 8) (i : Fin 32) (o : Op) : Prop :=
  o = .port i ∨ (∃ v, o = .cwr j .TDR v) ∨ ∃ v, o = .setPort i (.tail v)

theorem Op.Fetch.within {i : Fin 32} {o : Op} (h : o.Fetch j) : o.Within j .rx i := by
  rcases h with rfl | rfl
  · exact .inr (.inl rfl)
  · exact .inr (.inr (.inl ⟨rfl, rfl⟩))

theorem Op.Hands.own {i : Fin 32} {o : Op} (h : o.Hands i) : o.Own j i := by
  rcases h with rfl | ⟨bs, rfl⟩
  · exact .inr rfl
  · exact .inr rfl

theorem Op.Sends.within {i : Fin 32} {o : Op} (h : o.Sends j i) : o.Within j .tx i := by
  rcases h with rfl | h | h
  · exact .inl (.inr rfl)
  · exact .inr (.inr (.inr ⟨rfl, .inl h⟩))
  · exact .inr (.inr (.inr ⟨rfl, .inr h⟩))

theorem fetch_drain (n : Nat) : (drain j n).Uses (Op.Fetch j) := by
  induction n with
  | zero => trivial
  | succ n ih =>
    refine Prog.Uses.bind (uses_issue (.inr rfl)) ?_
    intro b
    exact Prog.Uses.bind ih (fun _ => trivial)

theorem fetch_traceException (tr : Bool) : (traceException j tr).Uses (Op.Fetch j) :=
  Prog.Uses.ite (Prog.Uses.bind (uses_issue (.inl rfl)) fun _ => trivial) trivial

theorem fetch_dropBad (erisr : UInt8) : (dropBad j erisr).Uses (Op.Fetch j) := by
  refine Prog.Uses.ite (Prog.Uses.bind (uses_issue (.inl rfl)) fun _ => ?_) trivial
  exact Prog.Uses.ite (Prog.Uses.bind (uses_issue (.inr rfl)) fun _ => trivial) trivial

theorem sends_txLoop (n : Nat) (i : Fin 32) : (txLoop j i n).Uses (Op.Sends j i) := by
  induction n with
  | zero => trivial
  | succ n ih =>
    refine Prog.Uses.bind (uses_issue (.inl rfl)) ?_
    intro np
    refine Prog.Uses.ite trivial ?_
    refine Prog.Uses.bind (uses_issue (.inr (.inl ⟨_, rfl⟩))) ?_
    intro _
    refine Prog.Uses.bind (uses_issue (.inr (.inr ⟨_, rfl⟩))) ?_
    intro _
    exact Prog.Uses.bind ih (fun _ => trivial)

theorem hands_deliver (i : Fin 32) (bs : List UInt8) : (deliver i bs).Uses (Op.Hands i) := by
  refine Prog.Uses.ite ?_ trivial
  refine Prog.Uses.bind (uses_issue (.inl rfl)) ?_
  intro np
  exact Prog.Uses.ite (uses_issue (.inr ⟨bs, rfl⟩)) trivial

theorem uses_drain (n : Nat) : (drain j n).Uses (Op.Within j .rx (portIx j ch)) :=
  (fetch_drain n).mono fun _ => Op.Fetch.within

theorem uses_traceException (tr : Bool) :
    (traceException j tr).Uses (Op.Within j .rx (portIx j ch)) :=
  (fetch_traceException tr).mono fun _ => Op.Fetch.within

theorem uses_dropBad (erisr : UInt8) : (dropBad j erisr).Uses (Op.Within j .rx (portIx j ch)) :=
  (fetch_dropBad erisr).mono fun _ => Op.Fetch.within

theorem uses_txLoop (n : Nat) :
    (txLoop j (portIx j ch) n).Uses (Op.Within j .tx (portIx j ch)) :=
  (sends_txLoop n _).mono fun _ => Op.Sends.within

theorem uses_deliver (bs : List UInt8) :
    (deliver (portIx j ch) bs).Uses (Op.Own j (portIx j ch)) :=
  (hands_deliver _ bs).mono fun _ => Op.Hands.own

/-- what follows the end of a context: the port is looked at and assigned to, a bad channel is
switched off -/
def Op.Tidies (j : Fin 8) (i : Fin 32) : Op → Prop
  | .cwr j' reg v => j' = j ∧ (reg = .CAR ∨ (reg = .IER ∧ v = 0x01))
  | .port i' => i' = i
  | .setPort i' f => i' = i ∧ f.Light
  | .spinUnlock i' => i' = i
  | .flip i' _ => i' = i
  | .jiffies => True
  | _ => False

theorem Op.Tidies.own {i : Fin 32} {o : Op} (h : o.Tidies j i) : o.Own j i := by
  cases o with
  | cwr j' reg v => exact .inr ⟨h.1, h.2.imp id fun h => h.1⟩
  | port i' => exact .inr h
  | setPort i' f => exact .inr h
  | spinUnlock i' => exact .inr h
  | flip i' bs => exact .inr h
  | jiffies => exact .inl trivial
  | _ => exact False.elim h

theorem Op.Hands.tidies {i : Fin 32} {o : Op} (h : o.Hands i) : o.Tidies j i := by
  rcases h with rfl | ⟨bs, rfl⟩
  · rfl
  · rfl

theorem tidies_deliver (bs : List UInt8) :
    (deliver (portIx j ch) bs).Uses (Op.Tidies j (portIx j ch)) :=
  (hands_deliver _ bs).mono fun _ => Op.Hands.tidies

theorem tidies_errWindow (i : Fin 32) : (errWindow i).Uses (Op.Tidies j i) := by
  refine Prog.Uses.bind (uses_issue trivial) ?_
  intro now
  refine Prog.Uses.bind (uses_issue rfl) ?_
  intro np
  refine Prog.Uses.ite ?_ trivial
  refine Prog.Uses.bind (uses_issue trivial) ?_
  intro now
  exact Prog.Uses.bind (uses_issue ⟨rfl, trivial⟩) (fun _ => uses_issue ⟨rfl, trivial⟩)

theorem tidies_rxException : (nm32aRxException j ch).Uses (Op.Tidies j (portIx j ch)) := by
  refine Prog.Uses.bind (tidies_errWindow _) ?_
  intro _
  refine Prog.Uses.bind (uses_issue rfl) ?_
  intro np
  refine Prog.Uses.bind (uses_issue ⟨rfl, trivial⟩) ?_
  intro _
  refine Prog.Uses.ite trivial ?_
  refine Prog.Uses.bind (uses_issue ⟨rfl, trivial⟩) ?_
  intro _
  refine Prog.Uses.bind (uses_issue ⟨rfl, .inl rfl⟩) ?_
  intro _
  exact uses_issue ⟨rfl, .inr ⟨rfl, rfl⟩⟩

theorem uses_rxException : (nm32aRxException j ch).Uses (Op.Own j (portIx j ch)) :=
  tidies_rxException.mono fun _ => Op.Tidies.own

/-- what ending a context through register `reg` issues -/
def Op.Ends (j : Fin 8) (reg : Reg) (o : Op) : Prop := o.Peek j ∨ ∃ v, o = .cwr j reg v

/-- all of it -/
def Op.Closes (j : Fin 8) (reg : Reg) (o : Op) : Prop := o.Retry j ∨ ∃ v, o = .cwr j reg v

theorem Op.Retry.peek {o : Op} (h : o.Retry j) : o.Peek j := by
  rcases h with rfl | rfl | rfl
  · exact ⟨rfl, nofun, nofun⟩
  · trivial
  · trivial

theorem closes_eoiLoop (reg : Reg) (val : UInt8) (n : Nat) :
    (eoiLoop j reg val n).Uses (Op.Closes j reg) := by
  induction n with
  | zero =>
    refine Prog.Uses.bind (uses_issue (.inl (.inr (.inr rfl)))) ?_
    intro b
    refine Prog.Uses.ite ?_ trivial
    exact Prog.Uses.bind (uses_issue (.inl (.inl rfl))) (fun _ => trivial)
  | succ n ih =>
    refine Prog.Uses.bind (uses_issue (.inl (.inl rfl))) ?_
    intro stk
    refine Prog.Uses.ite trivial ?_
    exact Prog.Uses.bind (uses_issue (.inr ⟨_, rfl⟩)) (fun _ => ih)

theorem closes_eoi (reg : Reg) (val : UInt8) :
    (nm32aEoi j reg val).Uses (Op.Closes j reg) := by
  refine Prog.Uses.bind (uses_issue (.inr ⟨_, rfl⟩)) ?_
  intro _
  refine Prog.Uses.bind (uses_issue (.inl (.inr (.inl rfl)))) ?_
  intro p
  exact Prog.Uses.ite trivial (closes_eoiLoop reg val 100)

theorem uses_eoi (reg : Reg) (val : UInt8) : (nm32aEoi j reg val).Uses (Op.Ends j reg) :=
  (closes_eoi reg val).mono fun _ h => h.imp Op.Retry.peek id

/-- what a pass issues in a context of kind `k` on channel `ch`, until it gives the lock back -/
def Op.Pass (j : Fin 8) (k : Kind) (ch : Fin 4) (o : Op) : Prop :=
  o.Within j k (portIx j ch) ∨ o.Ends j (eoirReg k)

/-- **Every path through a receive service gives the lock back once.** -/
theorem reaches_serviceRx (tr : Bool) (rir0 : UInt8) :
    (serviceRx j tr rir0).Reaches (Op.Pass j .rx (chanOf rir0)) (· = .unlock) := by
  have hw : ∀ {α : Type} {p : Drv α}, p.Uses (Op.Within j .rx (portIx j (chanOf rir0))) →
      p.Uses (Op.Pass j .rx (chanOf rir0)) := fun h => h.mono fun _ => .inl
  have ho : ∀ {α : Type} {p : Drv α}, p.Uses (Op.Own j (portIx j (chanOf rir0))) →
      p.Uses (Op.Pass j .rx (chanOf rir0)) := fun h => h.mono fun _ h => .inl (.inl h)
  have he : (nm32aEoi j .REOIR 0x00).Uses (Op.Pass j .rx (chanOf rir0)) :=
    (uses_eoi .REOIR 0x00).mono fun _ => .inr
  have hlast : (hwUnlock : Drv Unit).Reaches (Op.Pass j .rx (chanOf rir0)) (· = .unlock) :=
    .inl ⟨rfl, fun _ => trivial⟩
  refine Prog.Reaches.ite ?_ ?_
  · refine Prog.Uses.reaches (uses_issue (.inl (.inl (.inl ⟨rfl, nofun, nofun⟩)))) ?_
    intro erisr
    refine Prog.Reaches.ite ?_ ?_
    · refine Prog.Uses.reaches (uses_issue (.inl (.inr (.inl rfl)))) ?_
      intro rfoc
      refine Prog.Uses.reaches (hw (uses_drain _)) ?_
      intro bs
      refine Prog.Uses.reaches he ?_
      intro _
      exact Prog.Uses.reaches (ho (uses_deliver bs)) fun _ => hlast
    · refine Prog.Uses.reaches (hw (uses_traceException tr)) ?_
      intro _
      refine Prog.Uses.reaches (hw (uses_dropBad erisr)) ?_
      intro _
      refine Prog.Uses.reaches he ?_
      intro _
      exact Prog.Uses.reaches (ho uses_rxException) fun _ => hlast
  · refine Prog.Uses.reaches (uses_issue (.inl (.inr (.inl rfl)))) ?_
    intro rfoc
    refine Prog.Uses.reaches (hw (uses_drain _)) ?_
    intro bs
    refine Prog.Uses.reaches he ?_
    intro _
    exact .inl ⟨rfl, fun _ => ho (uses_deliver bs)⟩

/-- and so does every path through a transmit service -/
theorem reaches_serviceTx : (serviceTx j ch).Reaches (Op.Pass j .tx ch) (· = .unlock) := by
  refine Prog.Uses.reaches (uses_issue (.inl (.inl (.inr rfl)))) ?_
  intro _
  refine Prog.Uses.reaches (uses_issue (.inl (.inl (.inl ⟨rfl, nofun, nofun⟩)))) ?_
  intro room
  refine Prog.Uses.reaches ((uses_txLoop _).mono fun _ => .inl) ?_
  intro n
  refine Prog.Uses.reaches
    (Prog.Uses.ite (uses_issue (.inl (.inl (.inr ⟨rfl, .inr rfl⟩)))) trivial) ?_
  intro _
  refine Prog.Uses.reaches ((uses_eoi .TEOIR _).mono fun _ => .inr) ?_
  intro _
  refine Prog.Uses.reaches (uses_issue (.inl (.inl (.inr rfl)))) ?_
  intro _
  exact .inl ⟨rfl, fun _ => trivial⟩

theorem reaches_serviceGranted {O : Op → Prop} (g : Granted)
    (hO : ∀ k ch o, Op.Pass j k ch o → O o) : (serviceGranted j g).Reaches O (· = .unlock) :=
  Prog.Reaches.ite ((reaches_serviceRx g.tr g.rir0).mono (hO _ _)) (reaches_serviceTx.mono (hO _ _))

/-- everything that a pass over chip `j` issues -/
def Op.Service (j : Fin 8) (o : Op) : Prop :=
  o.Peek j ∨ (∃ addr, o = .readb addr) ∨ o = .unlock ∨ ∃ k ch, Op.Pass j k ch o

/-- up to its grant it only looks, acknowledges, and gives the lock back if there is none -/
theorem asks_serviceGrant : (serviceGrant j).Uses fun o =>
    o.Peek j ∨ (∃ addr, o = .readb addr) ∨ o = .unlock := by
  have hback : (do hwUnlock; return none : Drv (Option Granted)).Uses fun o =>
      o.Peek j ∨ (∃ addr, o = .readb addr) ∨ o = .unlock :=
    Prog.Uses.bind (uses_issue (.inr (.inr rfl))) fun _ => trivial
  refine Prog.Uses.bind (uses_issue (.inl trivial)) ?_
  intro _
  refine Prog.Uses.bind (uses_issue (.inl ⟨rfl, nofun, nofun⟩)) ?_
  intro tir0
  refine Prog.Uses.bind (uses_issue (.inl ⟨rfl, nofun, nofun⟩)) ?_
  intro rir0
  refine Prog.Uses.bind ((uses_serviceTrace j _).mono fun _ h => .inl h.peek) ?_
  intro tr
  refine Prog.Uses.ite hback ?_
  refine Prog.Uses.bind (uses_issue (.inl ⟨rfl, nofun, nofun⟩)) ?_
  intro tirc
  refine Prog.Uses.bind (uses_issue (.inl ⟨rfl, nofun, nofun⟩)) ?_
  intro rirc
  refine Prog.Uses.ite hback ?_
  refine Prog.Uses.bind ((uses_ackAddr rirc).mono fun o ho => .inl (by rw [ho]; trivial)) ?_
  intro addr
  refine Prog.Uses.bind (uses_issue (.inr (.inl ⟨addr, rfl⟩))) ?_
  intro ackv
  refine Prog.Uses.bind (uses_issue (.inl ⟨rfl, nofun, nofun⟩)) ?_
  intro tir1
  refine Prog.Uses.bind (uses_issue (.inl ⟨rfl, nofun, nofun⟩)) ?_
  intro rir1
  cases grantDecision tr tirc tir1 rir1 with
  | none => exact hback
  | some g => trivial

theorem uses_serviceGrant : (serviceGrant j).Uses (Op.Service j) :=
  asks_serviceGrant.mono fun _ h => h.imp id fun h => h.imp id .inl

theorem uses_service : (nm32aService j).Uses (Op.Service j) := by
  refine Prog.Uses.bind uses_serviceGrant ?_
  intro g
  cases g with
  | none => trivial
  | some g =>
    have hg := reaches_serviceGranted (j := j) g fun k ch o (h : Op.Pass j k ch o) =>
      (.inr (.inr (.inr ⟨k, ch, h⟩)) : Op.Service j o)
    refine Prog.Uses.bind (hg.uses.mono ?_) fun _ => trivial
    rintro o (h | rfl)
    · exact h
    · exact .inr (.inr (.inl rfl))

theorem disciplined_eoir {g : Option (Fin 8 × Kind × Fin 4)} (w : World) (v : UInt8) (w' : World)
    (n : Nat) (h : Closing j k g n w) : Disciplined j ⟨w, .cwr j (eoirReg k) v, (), w'⟩ := by
  have hk : ∀ x rest, (w.hw j).stack = x :: rest → x.kind = k := by
    intro x rest hs
    rcases h with h | ⟨y, h, hk, _⟩
    · rw [h.here] at hs
      cases hs
    · rw [h.here] at hs
      cases hs
      exact hk
  cases k <;> exact hk

/-- a guard that allows all that a pass over chip `j` does -/
structure Allows (c : Cfg) (j : Fin 8) (G : Event Op Res World → Prop) : Prop where
  ask : ∀ e, e.op.Ask j → G e
  ack : ∀ w addr v w', G ⟨w, .readb addr, v, w'⟩
  inside : ∀ k ch, Keeps c.card G (Op.Within j k (portIx j ch)) (Inside c j k ch)
  retry : ∀ e, e.op.Retry j → G e
  eoir : ∀ k g n w v w', Closing j k g n w → G ⟨w, .cwr j (eoirReg k) v, (), w'⟩
  ended : ∀ k ch, Keeps c.card G (Op.Tidies j (portIx j ch)) (Ended j k ch)
  release : ∀ w w', w.Closed → G ⟨w, .unlock, (), w'⟩

theorem allows_disciplined : Allows c j (Disciplined j) where
  ask e he := disciplined_look e he.peek.look
  ack w addr v w' := trivial
  inside k ch := Inside.keeps
  retry e he := disciplined_look e he.look
  eoir k g n w v w' h := disciplined_eoir w v w' n h
  ended k ch := Ended.keeps.mono fun _ => Op.Tidies.own
  release w w' h := h

/-- the assertions around the end of a service of kind `k`: `I` holds inside the context, and
`D` from its EOIR on -/
structure Ends (c : Cfg) (G : Event Op Res World → Prop) (j : Fin 8) (k : Kind) (ch : Fin 4)
    (I D : World → Prop) : Prop where
  inside : Stable c.card I
  within : Keeps c.card G (Op.Within j k (portIx j ch)) I
  eoi : ∀ val w, I w → wp c.card G (nm32aEoi j (eoirReg k) val) (fun _ w' => D w') w
  after : Stable c.card D
  tidies : Keeps c.card G (Op.Tidies j (portIx j ch)) D
  release : ∀ w w', D w → c.access w .unlock () w' → G ⟨w, .unlock, (), w'⟩ ∧ D w'

namespace Ends
variable {G : Event Op Res World → Prop} {I D : World → Prop}

/-- the EOIR, and what follows it -/
theorem bind_eoi (hE : Ends c G j k ch I D) (val : UInt8) {α : Type} {f : Unit → Drv α}
    {Q : α → World → Prop} (h : I w) (hf : ∀ w', D w' → wp c.card G (f ()) Q w') :
    wp c.card G (nm32aEoi j (eoirReg k) val >>= f) Q w := by
  rw [wp_bind]
  exact wp_post (hE.eoi val w h) (fun _ => hf)

theorem unlock (hE : Ends c G j k ch I D) {α : Type} {f : Unit → Drv α} {Q : α → World → Prop}
    (h : D w) (hf : ∀ w', D w' → wp c.card G (f ()) Q w') :
    wp c.card G (hwUnlock >>= f) Q w := by
  refine wp_issue hE.after h ?_
  intro w1 _ w2 h1 _ ha
  obtain ⟨hg, h2⟩ := hE.release w1 w2 h1 ha
  exact ⟨hg, hf w2 h2⟩

theorem unlock_last (hE : Ends c G j k ch I D) (h : D w) :
    wp c.card G hwUnlock (fun _ w' => D w') w := by
  refine wp_issue_last hE.after h ?_
  intro w1 _ w2 h1 _ ha
  exact hE.release w1 w2 h1 ha

theorem timeout (hE : Ends c G j .rx ch I D) (h : I w) :
    wp c.card G (serviceTimeout j ch) (fun _ w' => D w') w := by
  refine wp_bind_keeps hE.inside hE.within (uses_issue (.inr (.inl rfl))) h ?_
  intro rfoc w1 h1
  refine wp_bind_keeps hE.inside hE.within (uses_drain _) h1 ?_
  intro bs w2 h2
  refine hE.bind_eoi 0x00 h2 ?_
  intro w3 h3
  refine wp_bind_keeps hE.after hE.tidies (tidies_deliver bs) h3 ?_
  intro _ w4 h4
  exact hE.unlock_last h4

theorem good (hE : Ends c G j .rx ch I D) (h : I w) :
    wp c.card G (serviceGood j ch) (fun _ w' => D w') w := by
  refine wp_bind_keeps hE.inside hE.within (uses_issue (.inr (.inl rfl))) h ?_
  intro rfoc w1 h1
  refine wp_bind_keeps hE.inside hE.within (uses_drain _) h1 ?_
  intro bs w2 h2
  refine hE.bind_eoi 0x00 h2 ?_
  intro w3 h3
  refine hE.unlock h3 ?_
  intro w4 h4
  exact wp_keeps hE.after hE.tidies (tidies_deliver bs) h4

theorem exception (hE : Ends c G j .rx ch I D) (tr : Bool) (erisr : UInt8) (h : I w) :
    wp c.card G (serviceException j ch tr erisr) (fun _ w' => D w') w := by
  refine wp_bind_keeps hE.inside hE.within (uses_traceException tr) h ?_
  intro _ w1 h1
  refine wp_bind_keeps hE.inside hE.within (uses_dropBad erisr) h1 ?_
  intro _ w2 h2
  refine hE.bind_eoi 0x00 h2 ?_
  intro w3 h3
  refine wp_bind_keeps hE.after hE.tidies tidies_rxException h3 ?_
  intro _ w4 h4
  exact hE.unlock_last h4

theorem tx (hE : Ends c G j .tx ch I D) (h : I w) :
    wp c.card G (serviceTx j ch) (fun _ w' => D w') w := by
  refine wp_bind_keeps hE.inside hE.within (uses_issue (.inl (.inr rfl))) h ?_
  intro _ w1 h1
  refine wp_bind_keeps hE.inside hE.within
    (uses_issue (.inl (.inl ⟨rfl, nofun, nofun⟩))) h1 ?_
  intro room w2 h2
  refine wp_bind_keeps hE.inside hE.within (uses_txLoop _) h2 ?_
  intro n w3 h3
  refine wp_bind_keeps hE.inside hE.within
    (Prog.Uses.ite (uses_issue (.inl (.inr ⟨rfl, .inr rfl⟩))) trivial) h3 ?_
  intro _ w4 h4
  refine hE.bind_eoi _ h4 ?_
  intro w5 h5
  refine wp_bind_keeps hE.after hE.tidies (uses_issue rfl) h5 ?_
  intro _ w6 h6
  exact hE.unlock_last h6

theorem rx (tr : Bool) (rir0 : UInt8) (hE : Ends c G j .rx (chanOf rir0) I D) (h : I w) :
    wp c.card G (serviceRx j tr rir0) (fun _ w' => D w') w := by
  unfold serviceRx
  split
  · refine wp_bind_keeps hE.inside hE.within
      (uses_issue (.inl (.inl ⟨rfl, nofun, nofun⟩))) h ?_
    intro erisr w1 h1
    split
    · exact hE.timeout h1
    · exact hE.exception tr erisr h1
  · exact hE.good h

end Ends

section
variable {G : Event Op Res World → Prop} (hG : Allows c j G) (hT : c.Timely)
include hG hT

/-- one open context, in a card that ends it in time -/
theorem ends_inside : Ends c G j k ch (Inside c j k ch) (Ended j k ch) where
  inside := Inside.onStacks.stable
  within := hG.inside _ _
  eoi val w h := wp_eoi hG.retry (fun w v w' n hn => hG.eoir k _ n w v w' hn) hT val h.closing
  after := Ended.onStacks.stable
  tidies := hG.ended _ _
  release := by
    rintro w _ h rfl
    exact ⟨hG.release _ _ (Only.closed h), Ended.onStacks w _ (fun _ => rfl) rfl h⟩

theorem wp_serviceTx (h : Inside c j .tx ch w) :
    wp c.card G (serviceTx j ch) (fun _ w' => w'.Closed) w :=
  wp_post ((ends_inside hG hT).tx h) fun _ _ h => Only.closed h

theorem wp_serviceRx (tr : Bool) (rir0 : UInt8) (h : Inside c j .rx (chanOf rir0) w) :
    wp c.card G (serviceRx j tr rir0) (fun _ w' => w'.Closed) w :=
  wp_post ((ends_inside hG hT).rx tr rir0 h) fun _ _ h => Only.closed h

/-- the branch that is taken is the one of the context that is open -/
theorem wp_serviceGranted {g : Granted} (h : w.Closed ∨ ∃ k ch, Inside c j k ch w)
    (hs : Shown j g w) :
    wp c.card G (serviceGranted j g) (fun _ w' => w'.Closed) w := by
  have hone : (w.hw j).stack = [] ∨ ∃ x, (w.hw j).stack = [x] := by
    rcases h with h | ⟨k, ch, x, h, _⟩
    · exact .inl (h j)
    · exact .inr ⟨x, h.here⟩
  obtain ⟨x, hx, hb⟩ := hs.single hone
  have hin : Inside c j x.kind x.chan w := by
    rcases h with h | ⟨k, ch, y, h, hk, hch, hl⟩
    · rw [h j] at hx
      cases hx
    · obtain rfl : y = x := by
        have e := h.here.symm.trans hx
        simpa using e
      subst hk hch
      exact ⟨y, h, rfl, rfl, hl⟩
  unfold serviceGranted
  rcases hb with ⟨h0, hk, hc, _⟩ | ⟨h0, hk, hc⟩
  · rw [if_pos h0]
    rw [hk, hc] at hin
    exact wp_serviceRx hG hT g.tr g.rir0 hin
  · rw [if_neg (not_not.mpr h0)]
    rw [hk, hc] at hin
    exact wp_serviceTx hG hT hin

end

/-! ## a whole pass -/

/-- the context `x` has just been opened on chip `j`, and nothing else is open -/
structure Opened (c : Cfg) (j : Fin 8) (x : Ctx) (w : World) : Prop where
  only : Only j [x] (some (j, x.kind, x.chan)) w
  left : 1 ≤ x.left ∧ x.left ≤ c.eoirs
  fresh : x.latched = none ∧ x.took = 0

theorem Opened.inside {x : Ctx} (h : Opened c j x w) : Inside c j x.kind x.chan w :=
  ⟨x, h.only, rfl, rfl, h.left⟩

theorem Opened.onStacks {x : Ctx} : OnStacks (Opened c j x) :=
  fun w w' hs hg h => ⟨Only.onStacks w w' hs hg h.only, h.left, h.fresh⟩

/-- an acknowledge that can only grant chip `j` -/
theorem ack_opened {addr : Nat} {w' : World} (h : w.Closed)
    (hj : ∀ i k x, c.pick w i → (w.hw i).req k x = true → i = j) (ha : c.Ack addr w w') :
    w'.Closed ∨ ∃ x, Opened c j x w' := by
  cases ha with
  | nothing => exact .inl h
  | grant i x hi hx hl h0 =>
    obtain rfl := hj i _ _ hi hx.1
    refine .inr ⟨x, ⟨?_, ?_, rfl⟩, hl, h0⟩
    · simp only [World.setChip, Function.update_self, Chip.grant, h i]
    · intro i' hi'
      simp only [World.setChip, Function.update_of_ne hi', h i']

section
variable {E : Env Op Res World} {G : Event Op Res World → Prop} {H : World → Prop}

/-- **A pass, context by context.**  `H` is what a property of whole passes carries along; it has
to survive the acknowledge and the release, and each kind of service has to restore it. -/
theorem wp_service_rule (hE : E.Le c.card)
    (hpick : ∀ w i, w.serving = j → c.Ready w → c.pick w i → ∀ k x,
      (w.hw i).req k x = true → i = j)
    (hH : Stable E H) (hask : Keeps E G (Op.Ask j) H)
    (hack : ∀ w addr v w', H w → c.Ack addr w w' → G ⟨w, .readb addr, v, w'⟩ ∧ H w')
    (hout : ∀ w w', w.Closed → H w → E.access w .unlock () w' →
      G ⟨w, .unlock, (), w'⟩ ∧ H w')
    (hrx : ∀ tr rir0 x w, H w → Opened c j x w → x.kind = .rx → x.chan = chanOf rir0 →
      (rir0 &&& 0x0c = 0x0c ↔ x.good = true) →
      wp E G (serviceRx j tr rir0) (fun _ w' => w'.Closed ∧ H w') w)
    (htx : ∀ x w, H w → Opened c j x w → x.kind = .tx →
      wp E G (serviceTx j x.chan) (fun _ w' => w'.Closed ∧ H w') w)
    (h : w.Closed) (h' : H w) :
    wp E G (nm32aService j) (fun _ w' => w'.Closed ∧ H w') w := by
  let A : World → Prop := fun w => w.Closed ∨ ∃ x, Opened c j x w
  have hA : OnStacks A := by
    rintro w w' hs hg (h | ⟨x, h⟩)
    · exact .inl (closed_onStacks w w' hs hg h)
    · exact .inr ⟨x, Opened.onStacks w w' hs hg h⟩
  have hempty : ∀ w, A w → (w.hw j).stack = [] → w.Closed := by
    rintro w (h | ⟨x, h⟩) hs
    · exact h
    · rw [h.only.here] at hs
      cases hs
  have hst : ∀ P : World → Prop, OnStacks P → Stable E fun w => P w ∧ H w :=
    fun P hP => (hP.stable.le hE).and hH
  have hpk : ∀ P : World → Prop, OnStacks P → Keeps E G (Op.Ask j) fun w => P w ∧ H w := by
    intro P hP w o r w' ho hp ha
    obtain ⟨hg, hh⟩ := hask w o r w' ho hp.2 ha
    obtain ⟨h1, _, h3⟩ := access_look ho.peek.look (hE.access _ _ _ _ ha)
    exact ⟨hg, hP w w' (fun i => by rw [h1]) h3 hp.1, hh⟩
  have hfree : ∀ w w', w.Closed → H w → E.access w .unlock () w' →
      G ⟨w, .unlock, (), w'⟩ ∧ w'.Closed ∧ H w' := by
    intro w w' hc hh ha
    obtain ⟨hg, hh'⟩ := hout w w' hc hh ha
    obtain rfl := hE.access _ _ _ _ ha
    exact ⟨hg, hc, hh'⟩
  have hgrant := wp_serviceGrant (G := G) (N := fun w => w.Closed ∧ H w) hE
    (hst _ closed_onStacks) (hpk _ closed_onStacks) (hst _ hA) (hpk _ hA)
    (by
      intro w addr v w' hp hs hr ha'
      have ha : c.Ack addr w w' := hE.access _ _ _ _ ha'
      obtain ⟨hg, hh⟩ := hack w addr v w' hp.2 ha
      exact ⟨hg, ack_opened hp.1 (fun i k x hi hq => hpick w i hs hr hi k x hq) ha, hh⟩)
    (fun w w' hp ha => hfree w w' hp.1 hp.2 ha)
    (fun w w' hp hs ha => hfree w w' (hempty w hp.1 hs) hp.2 ha) ⟨h, h'⟩
  unfold nm32aService
  rw [wp_bind]
  refine wp_post hgrant ?_
  intro g w1 h1
  cases g with
  | none => exact h1
  | some g =>
    obtain ⟨⟨h1, hh⟩, hs⟩ := h1
    show wp E G (serviceGranted j g >>= fun _ => pure true) _ w1
    rw [wp_bind]
    refine wp_post (Q := fun _ w' => w'.Closed ∧ H w') ?_ (fun _ _ hq => wp_pure true ▸ hq)
    have hone : (w1.hw j).stack = [] ∨ ∃ x, (w1.hw j).stack = [x] := by
      rcases h1 with h1 | ⟨x, h1⟩
      · exact .inl (h1 j)
      · exact .inr ⟨x, h1.only.here⟩
    obtain ⟨x, hx, hb⟩ := hs.single hone
    have hop : Opened c j x w1 := by
      rcases h1 with h1 | ⟨y, h1⟩
      · rw [h1 j] at hx
        cases hx
      · obtain rfl : y = x := by
          have e := h1.only.here.symm.trans hx
          simpa using e
        exact h1
    unfold serviceGranted
    rcases hb with ⟨h0, hk, hc, hgood⟩ | ⟨h0, hk, hc⟩
    · rw [if_pos h0]
      exact hrx g.tr g.rir0 x w1 hh hop hk hc hgood
    · rw [if_neg (not_not.mpr h0), ← hc]
      exact htx x w1 hh hop hk

end

/-- **A guard that allows all that a pass does is met by it, and a pass leaves no context open.** -/
theorem wp_service_allowed {G : Event Op Res World → Prop} (hG : Allows c j G) (hT : c.Timely)
    (hpick : ∀ w i, w.serving = j → c.Ready w → c.pick w i →
      ∀ k x, (w.hw i).req k x = true → i = j) (h : w.Closed) :
    wp c.card G (nm32aService j) (fun _ w' => w'.Closed) w := by
  refine wp_post (wp_service_rule (H := fun _ => True) c.card.le_refl hpick (fun _ _ h _ => h) ?_
    (fun w addr v w' _ _ => ⟨hG.ack w addr v w', trivial⟩)
    (fun w w' hc _ _ => ⟨hG.release w w' hc, trivial⟩) ?_ ?_ h trivial) fun _ _ h => h.1
  · exact fun w o r w' ho _ _ => ⟨hG.ask _ ho, trivial⟩
  · intro tr rir0 x w _ hx hk hc _
    have hin := hx.inside
    rw [hk, hc] at hin
    exact wp_post (wp_serviceRx hG hT tr rir0 hin) fun _ _ h => ⟨h, trivial⟩
  · intro x w _ hx hk
    have hin := hx.inside
    rw [hk] at hin
    exact wp_post (wp_serviceTx hG hT hin) fun _ _ h => ⟨h, trivial⟩

/-- **Every operation of a pass is disciplined.** -/
theorem wp_service (hT : c.Timely) (hpick : ∀ w i, w.serving = j → c.Ready w → c.pick w i →
      ∀ k x, (w.hw i).req k x = true → i = j) (h : w.Closed) :
    wp c.card (Disciplined j) (nm32aService j) (fun _ w' => w'.Closed) w :=
  wp_service_allowed allows_disciplined hT hpick h

/-! ## one chip -/

/-- one CD2481 with the acknowledge levels and the EOIR retries of the defaults: any of its
requests may come and go, no other chip requests, and the software state of the ports is
anybody's -/
def oneChip (j : Fin 8) : Cfg where
  pick _ _ := True
  raises i := i = j
  line _ _ := True
  par p := p.pilr = 0 ∧ p.eoiretry = 1
  eoirs := 100

/-- **Grant agreement, over runs of any length.** -/
theorem service_runs_disciplined (j : Fin 8) (n : Nat) (w w' : World) (hw : w.Closed)
    (tr : List (Event Op Res World)) (p' : Drv Unit)
    (h : Exec (oneChip j).card ((nm32aService j).times n) w tr w' p') :
    ∀ e ∈ tr, Disciplined j e := by
  have hT : (oneChip j).Timely := by
    refine .inr ⟨le_refl _, fun p hp => ?_⟩
    rw [hp.2]
    decide
  exact (wp_exec (wp_times (fun s hs => wp_service hT
    (fun w i _ hr _ k x hq => hr.2 i k x hq) hs) n hw) h).1

/-- only chip `j` requests, and the parameters are the defaults -/
def oneReady (j : Fin 8) (w : World) : Bool :=
  decide (w.par.pilr = 0 ∧ w.par.eoiretry = 1 ∧ ∀ i, i ≠ j → ∀ x, (w.hw i).req .rx x = false ∧
    (w.hw i).req .tx x = false)

/-- chip `j` grants the request that wins, and nothing happens between two operations -/
def oneScript (j : Fin 8) : Script (oneChip j) where
  inter _ w := w
  grants _ := some j
  good := true
  risr := 0x00
  tftc := 16
  ok := oneReady j
  rely n w h := by
    obtain ⟨hp, he, hq⟩ := of_decide_eq_true h
    refine Cfg.Ready.rely_refl ⟨⟨hp, he⟩, ?_⟩ (fun _ => trivial)
    intro i k x hr
    by_contra hi
    obtain ⟨h1, h2⟩ := hq i hi x
    cases k
    · exact Bool.noConfusion (hr.symm.trans h1)
    · exact Bool.noConfusion (hr.symm.trans h2)
  pick _ _ _ := trivial
  eoirs := one_le_hundred

/-- channel 1 of chip 0 asks for data, and its port has one byte -/
def busyWorld : World :=
  (idleWorld.setChip 0 { idleChip with req := fun k x => k = .tx && x = 1 }).setLine 1
    ⟨{ idlePort with tx := fun _ => 0x41, head := 1 }, false, [.write [0x41]], [], 0⟩

/-- a pass that sends it -/
theorem service_runs_disciplined_tx : ∃ tr w' p',
    Exec (oneChip 0).card ((nm32aService 0).times 1) busyWorld tr w' p' ∧
      (tr.any fun e => match e.op with
        | .cwr _ .TDR _ => true
        | _ => false) = true ∧ ∀ e ∈ tr, Disciplined 0 e := by
  have hx := (oneScript 0).policy.play_exec 0 ((nm32aService 0).times 1) busyWorld
  refine ⟨_, _, _, hx, by decide +kernel, ?_⟩
  refine service_runs_disciplined 0 1 busyWorld _ ?_ _ _ hx
  intro j
  simp only [busyWorld, World.setLine, World.setChip, Function.update_apply]
  split <;> rfl

end Nm32a
