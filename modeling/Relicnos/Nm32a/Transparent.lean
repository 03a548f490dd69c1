import Mathlib.Data.List.Flatten
import Mathlib.Data.List.Infix
import Relicnos.Interact.Possible
import Relicnos.Nm32a.Sendbreak
import Relicnos.Nm32a.Wire

/-!
# Is the break test transparent?

`sendbreak_set` declares a port open that may be closed, lets the poll thread send its commands, and
puts back the flag that it found.  It does not look whether the port was opened or closed in the
meantime, clears no `IER` that the poll thread has written for it, and empties no ring.

* `Dark`       `IER` of the channel is 0 while the port is not activated
* `Own`        what was pushed since a test found the port closed are commands of the test
* `Transparent`  the flag, `IER` and the bytes sent, as they should be between two calls
* `sendbreak_transparent`  this is so in every run in which a test ends with the port as it found
                 it, starts on a closed port only with an empty ring, and in which the poll thread
                 writes no `IER` of a closed port
-/

set_option linter.unusedVariables false

namespace Nm32a
open Interact

/-! ## `IER` of a closed port -/

/-- the channel asks for nothing unless the port is activated -/
def Dark (i : Fin 32) (s : World × Test) : Prop :=
  s.2.active = false → (s.1.hw (chipOf i)).ier (chanIx i) = 0x00

/-- `IER` of the channel is not written while the port is not activated -/
def Unlit (i : Fin 32) (e : Event Op Res (World × Test)) : Prop :=
  ∀ v, e.op = .cwr (chipOf i) .IER v → (e.pre.1.hw (chipOf i)).chanNow = chanIx i →
    e.pre.2.active = true

variable {i k : Fin 32} {A : Line × Test → Act → Prop} {n m : Nat} {l l' : Line} {t : Test}
  {s s' : World × Test} {w w' : World} {c : Cfg} {j : Fin 8} {ch : Fin 4} {α : Type}

theorem access_ier {o : Op} {r : Res o} (ho : ∀ v, o ≠ .cwr (chipOf i) .IER v)
    (ha : c.access w o r w') :
    (w'.hw (chipOf i)).ier (chanIx i) = (w.hw (chipOf i)).ier (chanIx i) := by
  cases o with
  | setPort k f =>
    subst ha
    rfl
  | cwr j reg v =>
    have hq : Op.Quiet i (.cwr j reg v) := by
      by_cases hr : reg = .IER
      · right
        intro hj
        exact ho v (by rw [hr, hj])
      · exact .inl hr
    exact (access_quiet hq ha).ier
  | _ =>
    refine (access_quiet ?_ ha).ier
    trivial

theorem stable_active (b : Bool) : Stable (breakCard i A) fun s => s.2.active = b :=
  stable_deeds (P := fun _ s => s.2.active = b) fun _ _ _ _ _ h hd => hd.active.trans h

theorem rely_ier (h : tendedCard.rely w w') :
    (w'.hw (chipOf i)).ier (chanIx i) = (w.hw (chipOf i)).ier (chanIx i) :=
  (h.sameMute tendedCard_tended i).ier

theorem Dark.stable : Stable (breakCard i A) (Dark i) := by
  intro s s' h hr hact
  rw [rely_ier hr.1]
  apply h
  cases hs : s.2.active with
  | false => rfl
  | true =>
    rw [stable_active true s s' hs hr] at hact
    cases hact

theorem after_active {o : Op} (ho : ∀ b, o ≠ .setPort i (.opened b)) :
    (t.after i o).active = t.active := by
  rcases after_cases (i := i) (t := t) o with ⟨b, rfl, _⟩ | ⟨v, _, he⟩ | ⟨_, he | he⟩
  · exact absurd rfl (ho b)
  · rw [he]
  · rw [he]
    rfl
  · rw [he]

/-- operations that neither open nor close port `i` nor write `IER` of its chip -/
def Op.Dull (i : Fin 32) : Op → Prop
  | .cwr j reg _ => reg = .IER → j ≠ chipOf i
  | .setPort k (.opened _) => k ≠ i
  | _ => True

theorem Op.Dull.opened {o : Op} (h : o.Dull i) (b : Bool) : o ≠ .setPort i (.opened b) := by
  rintro rfl
  exact h rfl

theorem Op.Dull.unlit {o : Op} (h : o.Dull i) (v : UInt8) : o ≠ .cwr (chipOf i) .IER v := by
  rintro rfl
  exact h rfl rfl

theorem dull_write {reg : Reg} {v : UInt8} (h : reg ≠ .IER) : Op.Dull i (.cwr j reg v) :=
  fun e => absurd e h

theorem dull_other (h : k ≠ i) (f : PortField) : Op.Dull i (.setPort k f) := by
  cases f with
  | opened b => exact h
  | _ => trivial

theorem Dark.access {o : Op} {r : Res o} (h : Dark i s) (ho : o.Dull i)
    (ha : (breakCard i A).access s o r s') : Dark i s' := by
  obtain ⟨hw, ht⟩ := ha
  intro hact
  rw [ht, after_active ho.opened] at hact
  rw [access_ier ho.unlit hw]
  exact h hact

/-- a write of `IER` of another channel, or of a port that is activated -/
theorem Dark.ier {v : UInt8} (h : Dark i s)
    (hv : j = chipOf i → (s.1.hw j).chanNow = chanIx i → s.2.active = true)
    (ha : (breakCard i A).access s (.cwr j .IER v) () s') : Dark i s' := by
  obtain ⟨hw, ht⟩ := ha
  have hact : s'.2.active = s.2.active := by
    rw [ht]
    exact after_active fun b e => by cases e
  intro hoff
  rw [hact] at hoff
  have hw : s'.1 = s.1.setChip j ((s.1.hw j).write .IER v) := hw
  rw [hw]
  by_cases hj : j = chipOf i
  · subst hj
    have hne : (s.1.hw (chipOf i)).chanNow ≠ chanIx i := by
      intro e
      rw [hv rfl e] at hoff
      cases hoff
    simp only [World.setChip, Function.update_self, Chip.write]
    rw [Function.update_of_ne (Ne.symm hne)]
    exact h hoff
  · simp only [World.setChip, Function.update_of_ne (Ne.symm hj)]
    exact h hoff

theorem wp_dull {p : Drv α} (hu : p.Uses (Op.Dull i)) (h : Dark i s) :
    wp (breakCard i A) (fun _ => True) p (fun _ s' => Dark i s') s :=
  wp_keeps Dark.stable (fun _ _ _ _ ho h ha => ⟨trivial, h.access ho ha⟩) hu h

/-! ## the calls and `IER` -/

theorem closed_stable : Stable (breakCard i A) fun s => s.1.Closed :=
  stable_card closed_onStacks.stable

theorem aimed_stable : Stable (breakCard i A) fun s => Aimed k s.1 := stable_card Aimed.stable

theorem Op.Tune.dull {o : Op} (h : o.Tune j) : o.Dull i := by
  cases o with
  | cwr j' reg v => exact dull_write h.2.1.plain.2.1
  | setPort k f => exact False.elim h
  | _ => trivial

theorem Op.Early.dull {o : Op} (hk : k ≠ i) (h : o.Early k) : o.Dull i := by
  cases o with
  | cwr j reg v => exact False.elim h
  | setPort k' f => exact dull_other (fun e => hk (h.symm.trans e)) f
  | _ => trivial

/-- after the choice of another channel -/
theorem steer_dark {o : Op} {r : Res o} (hk : k ≠ i) (ho : o.Steer k ∨ o = .unlock)
    (ha : Aimed k s.1) (h : Dark i s) (hx : (breakCard i A).access s o r s') :
    Aimed k s'.1 ∧ Dark i s' := by
  have hplain : o.Bringup k → o.Dull i → Aimed k s'.1 ∧ Dark i s' :=
    fun hb hd => ⟨access_aimed hb hx.1 ha, h.access hd hx⟩
  rcases ho with (ho | rfl | ⟨v, rfl⟩ | ⟨f, rfl⟩) | rfl
  · exact hplain (.inl (.inl ho.setup)) ho.dull
  · exact hplain (.inl (.inl setup_car)) (dull_write (by decide))
  · refine ⟨access_aimed (.inl (.inr ⟨v, rfl⟩)) hx.1 ha, h.ier ?_ hx⟩
    intro hj hch
    rw [chanNow_of_aimed ha] at hch
    exact absurd (port_ext hj hch) hk
  · exact hplain (.inr ⟨f, rfl⟩) (dull_other hk f)
  · exact hplain (.inl (.inl trivial)) trivial

/-- before it -/
theorem early_closed {o : Op} {r : Res o} (ho : o.Early k) (hc : w.Closed)
    (ha : c.access w o r w') : w'.Closed := by
  cases o with
  | crd j reg =>
    obtain ⟨rfl, rfl⟩ := ho
    obtain ⟨hs, hg⟩ := access_setup (k := k) (o := .crd (chipOf k) .GFRCR)
      ⟨rfl, by decide, by decide⟩ ha
    exact closed_onStacks _ _ hs hg hc
  | setPort k' f =>
    subst ha
    exact hc
  | _ => exact False.elim ho

/-- a call on another port, once it has the lock -/
theorem wp_steers_dark (hk : k ≠ i) {p : Drv α} (hp : Steers k p) (hc : s.1.Closed)
    (h : Dark i s) : wp (breakCard i A) (fun _ => True) p (fun _ s' => Dark i s') s := by
  induction p generalizing s with
  | ret a => exact hp.elim
  | op o q ih =>
    intro s1 hr r s2 ha
    have h1 := Dark.stable s s1 h hr
    have hc1 := closed_stable s s1 hc hr
    refine ⟨trivial, ?_⟩
    rcases hp with ⟨rfl, hq⟩ | ⟨rfl, hq⟩ | ⟨ho, hq⟩
    · exact wp_dull ((hq r).mono fun _ => False.elim) (h1.access (o := .unlock) trivial ha)
    · have h2 : Aimed k s2.1 ∧ Dark i s2 := by
        refine ⟨?_, h1.access (dull_write (by decide)) ha⟩
        have hw : s2.1 = s1.1.setChip (chipOf k) _ := ha.1
        rw [hw]
        exact aimed_car hc1
      refine wp_post (wp_keeps (P := fun s => Aimed k s.1 ∧ Dark i s)
        (aimed_stable.and Dark.stable) ?_ (hq r).uses h2) fun _ _ hq => hq.2
      intro s3 o r s4 ho h3 hx
      refine ⟨trivial, steer_dark hk ?_ h3.1 h3.2 hx⟩
      rcases ho with ho | rfl | ho
      · exact .inl ho
      · exact .inr rfl
      · exact ho.elim
    · exact ih r (hq r) (early_closed ho hc1 ha.1) (h1.access (ho.dull hk) ha)

/-- a call on another port -/
theorem wp_other_dark (hk : k ≠ i) {p : Drv α} (hp : ∃ f, p = hwLock >>= f ∧ Steers k (f ()))
    (hc : s.1.Closed) (h : Dark i s) :
    wp (breakCard i A) (fun _ => True) p (fun _ s' => Dark i s') s := by
  obtain ⟨f, rfl, hf⟩ := hp
  refine wp_step (P := fun s => s.1.Closed ∧ Dark i s) (closed_stable.and Dark.stable) ⟨hc, h⟩ ?_
  intro s1 r s2 h1 ha
  refine ⟨trivial, wp_steers_dark hk hf ?_ (h1.2.access (o := .lock) trivial ha)⟩
  have hw : s2.1 = { s1.1 with held := true } := ha.1
  rw [hw]
  exact h1.1

/-- what the poll thread issues: it opens and closes no port -/
def Op.Polls : Op → Prop
  | .setPort _ (.opened _) => False
  | _ => True

theorem polls_of {o : Op} (h : ∀ k f, o ≠ .setPort k f) : o.Polls := by
  cases o with
  | setPort k f => exact absurd rfl (h k f)
  | _ => trivial

theorem Op.Peek.polls {o : Op} (h : o.Peek j) : o.Polls := by
  apply polls_of
  rintro k f rfl
  exact h

theorem Op.Fetch.polls {o : Op} (h : o.Fetch j) : o.Polls := by
  rcases h with rfl | rfl <;> trivial

theorem Op.Hands.polls {o : Op} (h : o.Hands k) : o.Polls := by
  rcases h with rfl | ⟨bs, rfl⟩ <;> trivial

theorem Op.Sends.polls {o : Op} (h : o.Sends j k) : o.Polls := by
  rcases h with rfl | ⟨v, rfl⟩ | ⟨v, rfl⟩ <;> trivial

theorem Op.Ends.polls {reg : Reg} {o : Op} (h : o.Ends j reg) : o.Polls := by
  rcases h with h | ⟨v, rfl⟩
  · exact h.polls
  · trivial

theorem Op.Tallies.polls {o : Op} (h : o.Tallies k) : o.Polls := by
  cases o with
  | setPort k' f =>
    cases f with
    | opened b => exact h
    | _ => trivial
  | _ => trivial

theorem polls_rxException : (nm32aRxException j ch).Uses Op.Polls := by
  refine Prog.Uses.bind (tallies_errWindow.mono fun _ => Op.Tallies.polls) ?_
  intro _
  refine Prog.Uses.bind (uses_issue trivial) ?_
  intro np
  refine Prog.Uses.bind (uses_issue trivial) ?_
  intro _
  refine Prog.Uses.ite trivial ?_
  refine Prog.Uses.bind (uses_issue trivial) ?_
  intro _
  refine Prog.Uses.bind (uses_issue trivial) ?_
  intro _
  exact uses_issue trivial

theorem polls_serviceRx (tr : Bool) (rir0 : UInt8) : (serviceRx j tr rir0).Uses Op.Polls := by
  have hfetch : ∀ {α : Type} {p : Drv α}, p.Uses (Op.Fetch j) → p.Uses Op.Polls :=
    fun hu => hu.mono fun _ => Op.Fetch.polls
  have heoi : (nm32aEoi j .REOIR 0x00).Uses Op.Polls :=
    (uses_eoi .REOIR 0x00).mono fun _ => Op.Ends.polls
  have hhand : ∀ bs, (deliver (portIx j (chanOf rir0)) bs).Uses Op.Polls :=
    fun bs => (hands_deliver _ bs).mono fun _ => Op.Hands.polls
  refine Prog.Uses.ite ?_ ?_
  · refine Prog.Uses.bind (uses_issue trivial) ?_
    intro erisr
    refine Prog.Uses.ite ?_ ?_
    · refine Prog.Uses.bind (uses_issue trivial) ?_
      intro rfoc
      refine Prog.Uses.bind (hfetch (fetch_drain _)) ?_
      intro bs
      refine Prog.Uses.bind heoi ?_
      intro _
      exact Prog.Uses.bind (hhand bs) fun _ => uses_issue trivial
    · refine Prog.Uses.bind (hfetch (fetch_traceException tr)) ?_
      intro _
      refine Prog.Uses.bind (hfetch (fetch_dropBad erisr)) ?_
      intro _
      refine Prog.Uses.bind heoi ?_
      intro _
      exact Prog.Uses.bind polls_rxException fun _ => uses_issue trivial
  · refine Prog.Uses.bind (uses_issue trivial) ?_
    intro rfoc
    refine Prog.Uses.bind (hfetch (fetch_drain _)) ?_
    intro bs
    refine Prog.Uses.bind heoi ?_
    intro _
    exact Prog.Uses.bind (uses_issue trivial) fun _ => hhand bs

theorem polls_serviceTx : (serviceTx j ch).Uses Op.Polls := by
  refine Prog.Uses.bind (uses_issue trivial) ?_
  intro _
  refine Prog.Uses.bind (uses_issue trivial) ?_
  intro room
  refine Prog.Uses.bind ((sends_txLoop _ _).mono fun _ => Op.Sends.polls) ?_
  intro n
  refine Prog.Uses.bind (Prog.Uses.ite (uses_issue trivial) trivial) ?_
  intro _
  refine Prog.Uses.bind ((uses_eoi .TEOIR _).mono fun _ => Op.Ends.polls) ?_
  intro _
  exact Prog.Uses.bind (uses_issue trivial) fun _ => uses_issue trivial

theorem polls_service : (nm32aService j).Uses Op.Polls := by
  refine Prog.Uses.bind (asks_serviceGrant.mono ?_) ?_
  · rintro o (h | ⟨addr, rfl⟩ | rfl)
    · exact h.polls
    · trivial
    · trivial
  intro g
  cases g with
  | none => trivial
  | some g =>
    exact Prog.Uses.bind (Prog.Uses.ite (polls_serviceRx _ _) polls_serviceTx) fun _ => trivial

theorem polls_armTx : (nm32aArmTx j).Uses Op.Polls := by
  apply (uses_armTx j).mono
  intro o ho
  apply polls_of
  rintro k f rfl
  exact ho

/-- the poll thread, as long as it writes no `IER` of the closed port -/
theorem wp_polls_dark {p : Drv α} (hu : p.Uses Op.Polls) (h : Dark i s) :
    wp ((breakCard i A).assume (Unlit i)) (fun _ => True) p (fun _ s' => Dark i s') s := by
  refine wp_keeps (Dark.stable.le (Env.assume_le _ _)) ?_ hu h
  rintro s o r s' ho h ⟨ha, hunlit⟩
  refine ⟨trivial, ?_⟩
  cases o with
  | cwr j reg v =>
    by_cases hreg : reg = .IER
    · subst hreg
      apply h.ier ?_ ha
      intro hj hch
      subst hj
      exact hunlit v rfl hch
    · exact h.access (dull_write hreg) ha
  | setPort k f =>
    cases f with
    | opened b => exact False.elim ho
    | _ =>
      refine h.access ?_ ha
      trivial
  | _ =>
    refine h.access ?_ ha
    trivial

/-! ### the calls on the port itself -/

theorem dull_mctrl (active : Bool) : (nm32aSetMctrl j ch active).Uses (Op.Dull i) := by
  refine uses_write (dull_write (by decide)) ?_
  refine uses_write (dull_write (by decide)) ?_
  exact uses_issue (dull_write (by decide))

theorem dull_dtrRts (active : Bool) : (nm32aDtrRts k active).Uses (Op.Dull i) := by
  refine Prog.Uses.bind (uses_issue trivial) ?_
  intro _
  exact Prog.Uses.bind (dull_mctrl active) fun _ => uses_issue trivial

theorem dull_sample : (sendbreakSample k).Uses (Op.Dull i) := by
  refine Prog.Uses.bind (uses_issue trivial) ?_
  intro _
  refine uses_write (dull_write (by decide)) ?_
  refine Prog.Uses.bind (uses_issue trivial) ?_
  intro rcor
  exact Prog.Uses.bind (uses_issue trivial) fun _ => trivial

/-- the shutdown of the port clears `IER` itself -/
theorem wp_shutdown_dark (hc : s.1.Closed) :
    wp (breakCard i A) (fun _ => True) (nm32aPortShutdown i) (fun _ s' => Dark i s') s := by
  refine wp_step closed_stable hc ?_
  intro s1 r1 s2 h1 ha1
  refine ⟨trivial, ?_⟩
  have hc2 : s2.1.Closed := by
    rw [show s2.1 = { s1.1 with held := true } from ha1.1]
    exact h1
  refine wp_step closed_stable hc2 ?_
  intro s3 r3 s4 h3 ha3
  refine ⟨trivial, ?_⟩
  have hc4 : s4.1.Closed := by
    rw [show s4.1 = s3.1.setLine i _ from ha3.1]
    exact h3
  refine wp_step closed_stable hc4 ?_
  intro s5 r5 s6 h5 ha5
  refine ⟨trivial, ?_⟩
  have haim : Aimed i s6.1 := by
    rw [show s6.1 = s5.1.setChip (chipOf i) _ from ha5.1]
    exact aimed_car h5
  refine wp_step aimed_stable haim ?_
  intro s7 r7 s8 h7 ha7
  refine ⟨trivial, ?_⟩
  have hdark : Dark i s8 := by
    intro _
    rw [show s8.1 = s7.1.setChip (chipOf i) ((s7.1.hw (chipOf i)).write .IER 0x00) from ha7.1]
    simp only [World.setChip, Function.update_self, Chip.write, chanNow_of_aimed h7]
  apply wp_dull ?_ hdark
  exact Prog.Uses.bind (dull_mctrl false) fun _ => uses_issue trivial

/-! ## what is pushed and sent -/

/-- the commands a test that is as far as this can have pushed -/
def Test.pushes (t : Test) : List Prod :=
  match t.going with
  | some g => if g.stopped then [.brk true, .brk false] else [.brk true]
  | none => [.brk true, .brk false]

/-- what was pushed since a test found the port closed are commands of the test -/
def Own (s : Line × Test) : Prop :=
  ∀ m, s.2.base = some m → ∃ old new, s.1.prods = old ++ new ∧
    s.1.mark + (tokenBytes (old.flatMap Prod.tokens)).length = m ∧ new.Sublist s.2.pushes

/-- `n` bytes sent and those queued are as many as those before the mark and those pushed -/
structure Level (n : Nat) (l : Line) : Prop where
  wf : l.np.Wf
  bytes : l.mark + (tokenBytes l.tokens).length = n + l.np.queue.length

theorem Level.produce (h : Level n l) (hp : Line.Produce l l') : Level n l' := by
  obtain ⟨ts, hts⟩ := hp.pushed h.wf
  refine ⟨hts.wf, ?_⟩
  have hb := h.bytes
  rw [hts.mark, hts.tokens, hts.queue, tokenBytes_append, List.length_append, List.length_append]
  omega

/-- what a step must meet: a write finds no test of the closed port, a test starts on a closed port
with an empty ring only, and it ends with the port as activated as it found it -/
def Act.Meets (s : Line × Test) : Act → Prop
  | .tty _ => s.2.base = none
  | .start => s.2.active = false → s.1.np.queue = []
  | .stop => True
  | .done => ∀ g, s.2.going = some g → g.found = s.2.active

theorem Act.Meets.restores {s : Line × Test} {a : Act} (h : a.Meets s) : a.Restores s := by
  cases a with
  | done => exact h
  | _ => trivial

/-- what holds at any moment, after `n` bytes have been sent -/
structure Fair (n : Nat) (s : Line × Test) : Prop where
  books : Books s
  mark : s.1.mark ≤ n
  level : s.1.locked = false → Level n s.1
  own : Own s

/-- a push that a test may make -/
theorem Own.push {t' : Test} {ps : List Prod} {np : Port} {locked : Bool} {tty : List UInt8}
    (h : Own (l, t)) (hb : t'.base = t.base)
    (hp : ∀ new, new.Sublist t.pushes → (new ++ ps).Sublist t'.pushes) :
    Own (⟨np, locked, l.prods ++ ps, tty, l.mark⟩, t') := by
  intro m hm
  obtain ⟨old, new, hprods, hlen, hsub⟩ := h m (hb.symm.trans hm)
  refine ⟨old, new ++ ps, ?_, hlen, hp new hsub⟩
  show l.prods ++ ps = old ++ (new ++ ps)
  rw [show l.prods = old ++ new from hprods, List.append_assoc]

/-- a test that finds the port closed and its ring empty -/
theorem Own.start {t' : Test} {ps : List Prod} {np : Port} {locked : Bool} {tty : List UInt8}
    (hl : Level n l) (hq : l.np.queue = []) (hb : t'.base = some n) (hp : ps.Sublist t'.pushes) :
    Own (⟨np, locked, l.prods ++ ps, tty, l.mark⟩, t') := by
  intro m hm
  obtain rfl : n = m := Option.some.inj (hb.symm.trans hm)
  have hbytes := hl.bytes
  rw [hq, List.length_nil, Nat.add_zero] at hbytes
  exact ⟨l.prods, ps, rfl, hbytes, hp⟩

theorem sublist_ite {β : Type} (p : Prop) [Decidable p] (x : β) :
    (if p then [x] else []).Sublist [x] := by
  split
  · exact List.Sublist.refl _
  · exact List.nil_sublist _

theorem pushes_going {g : Going} (h : t.going = some g) :
    t.pushes = if g.stopped then [.brk true, .brk false] else [.brk true] := by
  unfold Test.pushes
  rw [h]

theorem Own.deed {a : Act} {s s' : Line × Test} (h : Fair n s) (ha : a.Meets s)
    (hd : Deed n a s s') : Own s' := by
  have hown := h.own
  cases hd with
  | tty l t call hl =>
    intro m hm
    have hnone : t.base = none := ha
    cases hnone.symm.trans hm
  | start l t hl ht =>
    by_cases hact : t.active = true
    · intro m hm
      have hbase : (if t.active then t.base else some n) = none := by
        rw [if_pos hact]
        exact h.books.base hact
      cases hbase.symm.trans hm
    · apply Own.start (h.level hl) (ha (Bool.eq_false_iff.mpr hact))
      · exact if_neg hact
      · rw [pushes_going rfl]
        exact sublist_ite _ _
  | stop l t g hl ht hs hn =>
    refine hown.push ?_ ?_
    · rfl
    · intro new hnew
      rw [pushes_going ht, hs] at hnew
      rw [pushes_going rfl]
      exact hnew.append (sublist_ite _ _)
  | done l t g hl ht hs =>
    intro m hm
    obtain ⟨old, new, hp, hlen, hsub⟩ := hown m hm
    refine ⟨old, new, hp, hlen, ?_⟩
    rw [pushes_going ht, hs] at hsub
    exact hsub

theorem Fair.deed {a : Act} {s s' : Line × Test} (h : Fair n s) (ha : a.Meets s)
    (hd : Deed n a s s') : Fair n s' := by
  have hp := hd.produce
  refine ⟨h.books.deed ha.restores hd, ?_, fun _ => (h.level hp.unlocked.1).produce hp,
    Own.deed h ha hd⟩
  rw [Line.Produces.mark (.single hp)]
  exact h.mark

/-- the bytes sent, the port and its test -/
def FairOn (i : Fin 32) (s : World × Test) : Prop :=
  Fair (s.1.sentOn i).length (s.1.line i, s.2)

theorem FairOn.stable : Stable (breakCard i fun s a => a.Meets s) (FairOn i) :=
  stable_deeds fun _ _ _ _ ha h hd => h.deed ha hd

/-- nothing is taken back that was sent, and only an activation starts the history anew -/
theorem access_grows {o : Op} {r : Res o} (ho : o.Resumes i) (ha : c.access w o r w') :
    (w'.line i).mark = (w.line i).mark ∧ (w.sentOn i).length ≤ (w'.sentOn i).length := by
  by_cases hs : o.Spares i
  · have h := access_spares hs ha
    exact ⟨h.mark, by rw [h.sent]⟩
  cases o with
  | cwr j reg v =>
    obtain rfl : reg = .TDR := not_not.mp hs
    subst ha
    refine ⟨rfl, ?_⟩
    unfold World.sentOn World.setChip
    by_cases e : chipOf i = j
    · subst e
      simp only [Function.update_self]
      rcases tdr_sent (w.hw (chipOf i)) v (chanIx i) with h | h
      · rw [h]
      · rw [h, List.length_append]
        exact Nat.le_add_right _ _
    · simp only [Function.update_of_ne e]
      exact Nat.le_refl _
  | setPort k f =>
    subst ha
    refine ⟨?_, Nat.le_refl _⟩
    unfold World.setLine
    by_cases e : i = k
    · subst e
      simp only [Function.update_self]
      cases f with
      | head v => exact absurd rfl ho
      | _ => rfl
    · simp only [Function.update_of_ne e]
  | _ => exact absurd trivial hs

theorem pushes_sampled : t.sampled.pushes = t.pushes := by
  obtain ⟨going, active, base⟩ := t
  cases going <;> rfl

/-- no operation adds to the record of a test of the closed port -/
theorem after_record {o : Op} :
    (t.after i o).pushes = t.pushes ∧
      ((t.after i o).base = t.base ∨ (t.after i o).base = none) := by
  rcases after_cases (i := i) (t := t) o with ⟨b, _, he⟩ | ⟨v, _, he⟩ | ⟨_, he | he⟩
  · rw [he]
    refine ⟨rfl, ?_⟩
    cases b
    · exact .inl rfl
    · exact .inr rfl
  · rw [he]
    exact ⟨rfl, .inr rfl⟩
  · rw [he]
    exact ⟨pushes_sampled, .inl rfl⟩
  · rw [he]
    exact ⟨rfl, .inl rfl⟩

theorem Settled.level (h : Settled i w) : Level (w.sentOn i).length (w.line i) := by
  have hm := h.mark
  refine ⟨h.wf, ?_⟩
  rw [← h.stream, List.length_append]
  unfold sentSince
  rw [List.length_map, List.length_drop]
  omega

theorem Intact.settled (h : Intact i w) (hl : (w.line i).locked = false)
    (hm : (w.line i).mark ≤ (w.sentOn i).length) : Settled i w :=
  ⟨⟨h.head, h.tail⟩, hm, ((h.stream hl _).mpr rfl).symm⟩

theorem FairOn.access {o : Op} {r : Res o} (h : FairOn i s) (ho : o.Resumes i)
    (hi : Intact i s'.1) (ha : (breakCard i A).access s o r s') : FairOn i s' := by
  obtain ⟨hmark, hgrow⟩ := access_grows ho ha.1
  have hmark' : (s'.1.line i).mark ≤ (s'.1.sentOn i).length := by
    rw [hmark]
    exact Nat.le_trans h.mark hgrow
  refine ⟨h.books.access ha, hmark', fun hl => (hi.settled hl hmark').level, ?_⟩
  intro m hm
  obtain ⟨hpush, hbase⟩ := after_record (i := i) (t := s.2) (o := o)
  replace hm : s'.2.base = some m := hm
  rw [ha.2] at hm
  have hm : s.2.base = some m := by
    rcases hbase with he | he
    · exact he.symm.trans hm
    · rw [he] at hm
      cases hm
  obtain ⟨old, new, hp, hlen, hsub⟩ := h.own m hm
  refine ⟨old, new, (access_resumes ho ha.1).trans hp, ?_, ?_⟩
  · show (s'.1.line i).mark + _ = m
    rw [hmark]
    exact hlen
  · show new.Sublist s'.2.pushes
    rw [ha.2, hpush]
    exact hsub

/-! ## from one call to the next -/

/-- what holds between two calls -/
structure AtRest (i : Fin 32) (s : World × Test) : Prop where
  closed : s.1.Closed
  settled : Settled i s.1
  dark : Dark i s
  fair : FairOn i s

/-- the sections of a test -/
def Meets (s : Line × Test) (a : Act) : Prop := a.Meets s

theorem settled_stable : Stable (breakCard i A) fun s => Settled i s.1 :=
  stable_card (Settled.stable tendedCard_tended)

theorem AtRest.stable : Stable (breakCard i Meets) (AtRest i) :=
  fun s s' h hr => ⟨closed_stable s s' h.closed hr, settled_stable s s' h.settled hr,
    Dark.stable s s' h.dark hr, FairOn.stable s s' h.fair hr⟩

/-- the poll thread's part in a call -/
def Call.Threaded : Call → Prop
  | .service _ => True
  | .armTx _ => True
  | _ => False

/-- the poll thread writes no `IER` of the closed port -/
def Call.Heeds (i : Fin 32) (call : Call) (e : Event Op Res (World × Test)) : Prop :=
  call.Threaded → Unlit i e

variable {tr : List (Event Op Res (World × Test))}

theorem call_dark {call : Call} (hact : ¬call.Activates i) (hter : ¬call.SetsTermios i)
    (hc : s.1.Closed) (h : Dark i s) (hx : Runs (breakCard i A) call.prog s tr () s')
    (hg : ∀ e ∈ tr, call.Heeds i e) : Dark i s' := by
  have hdull : call.prog.Uses (Op.Dull i) → Dark i s' := fun hu => (wp_runs (wp_dull hu h) hx).2
  have hpoll : call.Threaded → call.prog.Uses Op.Polls → Dark i s' := by
    intro hp hu
    have hx' : Runs ((breakCard i A).assume (Unlit i)) call.prog s tr () s' :=
      hx.imp (fun _ _ hr => hr) fun e he ha => ⟨ha, hg e he hp⟩
    exact (wp_runs (wp_polls_dark hu h) hx').2
  have hother : ∀ {β : Type} {p : Drv β} (k : Fin 32), k ≠ i →
      (∃ f, p = hwLock >>= f ∧ Steers k (f ())) → call.prog = discard p → Dark i s' := by
    intro β p k hk hp he
    rw [he] at hx
    exact (wp_runs (wp_discard (wp_other_dark hk hp hc h)) hx).2
  cases call with
  | service chip => exact hpoll trivial (uses_discard polls_service)
  | armTx chip => exact hpoll trivial polls_armTx
  | activate turns k rate => exact hother k hact (steers_activate turns rate) rfl
  | setTermios turns k rate =>
    exact (wp_runs (wp_other_dark hter (steers_setTermios turns rate) hc h) hx).2
  | dtrRts k active => exact hdull (dull_dtrRts active)
  | shutdown k =>
    by_cases hk : k = i
    · subst hk
      exact (wp_runs (wp_shutdown_dark hc) hx).2
    · exact (wp_runs (wp_other_dark hk steers_shutdown hc h) hx).2
  | sample k => exact hdull (uses_discard dull_sample)

theorem call_fair {call : Call} (hact : ¬call.Activates i) (hs : Settled i s.1) (h : FairOn i s)
    (hx : Runs (breakCard i Meets) call.prog s tr () s') :
    Settled i s'.1 ∧ FairOn i s' := by
  obtain ⟨htidy, hs'⟩ := wp_runs (wp_card (wp_call_settled tendedCard_tended call hact hs)) hx
  refine ⟨hs', ?_⟩
  let T := (breakCard i Meets).assume fun e => Intact i e.post.1
  have hx' : Runs T call.prog s tr () s' :=
    hx.imp (fun _ _ hr => hr) fun e he ha => ⟨ha, (htidy e he).2⟩
  have hkeep : Keeps T (fun _ => True) (Op.Resumes i) (FairOn i) :=
    fun s o r s' ho h ha => ⟨trivial, h.access ho ha.2 ha.1⟩
  exact (wp_runs (wp_keeps (FairOn.stable.le (Env.assume_le _ _)) hkeep (resumes_call hact) h)
    hx').2

/-! ### the activation of the port -/

theorem stable_any : Stable (breakCard i A) fun _ => True := fun _ _ h _ => h

theorem wp_books {p : Drv α} (h : Books (s.1.line i, s.2)) :
    wp (breakCard i Meets) (fun _ => True) p (fun _ s' => Books (s'.1.line i, s'.2)) s := by
  refine wp_keeps (O := fun _ => True) (stable_books fun _ _ h => h.restores) ?_ ?_ h
  · exact fun s o r s' _ h ha => ⟨trivial, h.access ha⟩
  · exact Prog.uses_any p

/-- the end of an activation declares the port open -/
theorem wp_activateRest_active :
    wp (breakCard i A) (fun _ => True) (activateRest i) (fun r s' => r = 0 ∧ s'.2.active = true) s
    := by
  have hany : ∀ {o : Op} {f : Res o → Drv Int} {Q : Int → World × Test → Prop}
      {s : World × Test}, (∀ r s, wp (breakCard i A) (fun _ => True) (f r) Q s) →
      wp (breakCard i A) (fun _ => True) (issue o >>= f) Q s :=
    fun hf => wp_step stable_any trivial fun _ r s2 _ _ => ⟨trivial, hf r s2⟩
  refine hany fun _ s1 => ?_
  refine hany fun _ s2 => ?_
  refine hany fun _ s3 => ?_
  refine hany fun now s4 => ?_
  refine hany fun _ s5 => ?_
  refine hany fun _ s6 => ?_
  refine wp_step stable_any trivial ?_
  intro s7 _ s8 _ ha
  refine ⟨trivial, ?_⟩
  have hact : s8.2.active = true := by
    rw [show s8.2 = s7.2.after i (.setPort i (.opened true)) from ha.2, after_opened]
  refine wp_step (stable_active true) hact ?_
  intro s9 _ s10 h9 ha
  refine ⟨trivial, rfl, ?_⟩
  rw [show s10.2 = s9.2.after i .unlock from ha.2]
  exact h9

/-- what an activation that fails keeps -/
theorem wp_activate_refused (turns rate : Nat) (hs : Settled i s.1) (hd : Dark i s)
    (h : FairOn i s) :
    wp (breakCard i Meets) (fun _ => True) (nm32aPortActivate turns i rate)
      (fun r s' => (r = 0 ∧ s'.2.active = true) ∨
        Settled i s'.1 ∧ Dark i s' ∧ FairOn i s') s := by
  let P : World × Test → Prop := fun s => Settled i s.1 ∧ Dark i s ∧ FairOn i s
  let O : Op → Prop := fun o => o.Spares i ∧ o.Resumes i ∧ o.Dull i
  have hst : Stable (breakCard i Meets) P :=
    settled_stable.and (Dark.stable.and FairOn.stable)
  have hk : Keeps (breakCard i Meets) (fun _ => True) O P := by
    rintro s o r s' ⟨hsp, hre, hdu⟩ ⟨hs, hd, hf⟩ ha
    have hs' := (Settled.keeps s.1 o r s'.1 hsp hs ha.1).2
    exact ⟨trivial, hs', hd.access hdu ha, hf.access hre hs'.intact ha⟩
  rw [nm32aPortActivate_eq]
  refine wp_bind_keeps hst hk (uses_issue ⟨trivial, trivial, trivial⟩) ⟨hs, hd, h⟩ ?_
  intro _ s1 h1
  refine wp_bind_keeps hst hk (uses_issue ⟨trivial, trivial, trivial⟩) h1 ?_
  intro gfrcr s2 h2
  split
  · refine wp_bind_keeps hst hk (uses_issue ⟨trivial, trivial, trivial⟩) h2 ?_
    intro _ s3 h3
    exact .inr h3
  · refine wp_bind_keeps stable_any (O := fun _ => True) (fun _ _ _ _ _ _ _ => ⟨trivial, trivial⟩)
      (Prog.uses_any _) trivial ?_
    intro _ s3 _
    exact wp_post wp_activateRest_active fun _ _ => .inl

theorem AtRest.activate {turns rate : Nat} (h : AtRest i s)
    (hx : Runs (breakCard i Meets) (Call.activate turns i rate).prog s tr () s') :
    Settled i s'.1 ∧ Dark i s' ∧ FairOn i s' := by
  have hrefused := wp_activate_refused turns rate h.settled h.dark h.fair
  have hboth := wp_and (wp_and (wp_card (wp_activate_settled tendedCard_tended turns rate))
    (wp_books h.fair.books)) hrefused
  have hend : wp (breakCard i Meets) (fun _ => True) (Call.activate turns i rate).prog
      (fun _ s' => Settled i s'.1 ∧ Dark i s' ∧ FairOn i s') s := by
    refine wp_discard (wp_mono hboth (fun _ _ => trivial) ?_)
    rintro r s' ⟨⟨hs, hb⟩, ⟨rfl, hact⟩ | hrest⟩
    · have hs := hs rfl
      refine ⟨hs, fun hoff => ?_, hb, hs.mark, fun _ => hs.level, ?_⟩
      · rw [hact] at hoff
        cases hoff
      · intro m hm
        rw [hb.base hact] at hm
        cases hm
    · exact hrest
  exact (wp_runs hend hx).2

/-- **One call.** -/
theorem AtRest.call {call : Call} (hter : ¬call.SetsTermios i) (h : AtRest i s)
    (hx : Runs (breakCard i Meets) call.prog s tr () s') (hg : ∀ e ∈ tr, call.Heeds i e) :
    AtRest i s' := by
  have hclosed := wp_card (A := Meets) (i := i)
    (wp_call_closed timely_tendedCard tendedCard_pick call h.closed)
  have hc := (wp_runs hclosed hx).2
  by_cases hact : call.Activates i
  · cases call with
    | activate turns k rate =>
      subst hact
      obtain ⟨hs, hd, hf⟩ := h.activate hx
      exact ⟨hc, hs, hd, hf⟩
    | _ => exact False.elim hact
  · obtain ⟨hs, hf⟩ := call_fair hact h.settled h.fair hx
    exact ⟨hc, hs, call_dark hact hter h.closed h.dark hx hg, hf⟩

/-! ## the result -/

/-- the port is open exactly if it is activated unless a test goes on, a port that is not activated
asks for nothing, and since a test found it closed only commands of a test were sent -/
structure Transparent (i : Fin 32) (s : World × Test) : Prop where
  opened : s.2.going = none → ((s.1.line i).np.opened = true ↔ s.2.active = true)
  silent : s.2.active = false → (s.1.hw (chipOf i)).ier (chanIx i) = 0x00
  own : ∀ m, s.2.base = some m → ∃ ts : List Token, ts.Sublist [.start, .stop] ∧
    ((s.1.sentOn i).drop m).map Sent.byte <+: tokenBytes ts

theorem pushes_sublist (t : Test) : t.pushes.Sublist [.brk true, .brk false] := by
  unfold Test.pushes
  cases t.going with
  | none => exact List.Sublist.refl _
  | some g =>
    show (if g.stopped then _ else _ : List Prod).Sublist _
    split
    · exact List.Sublist.refl _
    · exact List.sublist_append_left [_] [_]

theorem AtRest.transparent (h : AtRest i s) : Transparent i s := by
  refine ⟨fun hg => ?_, h.dark, fun m hm => ?_⟩
  · have ho : (s.1.line i).np.opened = s.2.active := h.fair.books.opened hg
    rw [ho]
  obtain ⟨old, new, hp, hlen, hsub⟩ := h.fair.own m hm
  refine ⟨new.flatMap Prod.tokens, (hsub.trans (pushes_sublist _)).flatMap _, ?_⟩
  have hp : (s.1.line i).prods = old ++ new := hp
  have hlen : (s.1.line i).mark + (tokenBytes (old.flatMap Prod.tokens)).length = m := hlen
  have hstream := h.settled.stream
  unfold Line.tokens at hstream
  rw [hp, Line.tokens_append, tokenBytes_append] at hstream
  -- what was sent since then is what was sent since the mark, without the bytes before the test
  have hsent : ((s.1.sentOn i).drop m).map Sent.byte
      = (sentSince i s.1).drop (tokenBytes (old.flatMap Prod.tokens)).length := by
    unfold sentSince
    rw [← List.map_drop, List.drop_drop, hlen]
  rw [hsent]
  have hdrop := congrArg (List.drop (tokenBytes (old.flatMap Prod.tokens)).length) hstream
  rw [List.drop_left] at hdrop
  rw [← hdrop]
  exact List.IsPrefix.drop (List.prefix_append _ _) _

/-- **The break test is transparent in every run that keeps clear of its gaps.** -/
theorem sendbreak_transparent (i : Fin 32) (calls : List Call)
    (hcalls : ∀ call ∈ calls, ¬call.SetsTermios i) (s s' : World × Test) (h0 : AtRest i s)
    (h : TestRuns i Meets (Call.Heeds i) s calls s') : Transparent i s' := by
  have hrest : AtRest i s' := h.keeps AtRest.stable
    (fun call s tr s' hter h hx hg => h.call hter hx hg) hcalls h0
  exact hrest.transparent

/-! ## a whole test -/

theorem TestRuns.trans {G : Call → Event Op Res (World × Test) → Prop} {s1 : World × Test}
    {calls calls' : List Call} (h : TestRuns i A G s calls s1) (h' : TestRuns i A G s1 calls' s') :
    TestRuns i A G s (calls ++ calls') s' := by
  induction h with
  | nil => exact h'
  | between hr _ ih => exact .between hr (ih h')
  | call hx hg _ ih => exact .call hx hg (ih h')

theorem tendedCard_ready : tendedCard.Ready w ↔ w.par.eoiretry ≠ 0 :=
  ⟨fun h => h.1, fun h => ⟨h, fun _ _ _ _ => trivial⟩⟩

theorem tendedCard_idles (hr : tendedCard.Ready w) : tendedCard.rely w w :=
  hr.rely_refl fun _ => Relation.ReflTransGen.refl

/-- one section between two calls -/
theorem rely_deed {a : Act} {t' : Test} (hr : tendedCard.Ready w) (ha : A (w.line i, t) a)
    (hd : Deed (w.sentOn i).length a (w.line i, t) (l', t')) :
    (breakCard i A).rely (w, t) (w.setLine i l', t') := by
  have hrefl := tendedCard_idles hr
  refine ⟨⟨hrefl.chip, fun k => ?_, hrefl.par, rfl, rfl, rfl⟩, ?_⟩
  · show Line.Produces (w.line k) (Function.update w.line i l' k)
    by_cases e : k = i
    · subst e
      rw [Function.update_self]
      exact .single hd.produce
    · rw [Function.update_of_ne e]
      exact .refl
  · show Deeds A _ (w.line i, t) (Function.update w.line i l' i, t')
    rw [Function.update_self]
    exact .single ⟨a, ha, hd⟩

/-- an operation before which nothing happens -/
theorem can_quiet {o : Op} {k : Res o → Drv α} {Q : α → World × Test → Prop} (w' : World)
    (hr : tendedCard.Ready w) (r : Res o) (ha : tendedCard.access w o r w')
    (h : Can (breakCard i A) (k r) Q (w', t.after i o)) :
    Can (breakCard i A) (.op o k) Q (w, t) :=
  can_op (w, t) r (w', t.after i o) ⟨tendedCard_idles hr, .refl⟩ ⟨ha, rfl⟩ h

/-- the transmit pin is sampled once, and nothing else happens -/
theorem can_sample (hr : tendedCard.Ready w) : Can (breakCard i A) (Call.sample i).prog
    (fun _ s' => s'.2 = t.sampled ∧ s'.1.par = w.par ∧ s'.1.line = w.line) (w, t) := by
  have hready : ∀ w' : World, w'.par = w.par → tendedCard.Ready w' :=
    fun w' h => tendedCard_ready.mpr (h ▸ tendedCard_ready.mp hr)
  let w1 : World := { w with held := true }
  let w2 := w1.setChip (chipOf i)
    ((w1.hw (chipOf i)).write .CAR (UInt8.ofNat (chanIx i).val))
  let w3 : World := { w2.setChip (chipOf i) (w2.hw (chipOf i)) with serving := chipOf i }
  apply can_quiet (o := .lock) w1 hr () rfl
  apply can_quiet (o := .cwr (chipOf i) .CAR _) w2 (hready w1 rfl) () rfl
  apply can_quiet (o := .crd (chipOf i) .RCOR) w3 (hready w2 rfl) (0x00 : UInt8) ⟨_, rfl, rfl⟩
  apply can_quiet (o := .unlock) { w3 with held := false } (hready w3 rfl) () rfl
  apply can_ret
  exact ⟨if_pos rfl, rfl, rfl⟩

/-- the transmit pin is sampled `n` times -/
theorem samples_runs (n : Nat) (g : Going) (hr : tendedCard.Ready w) (hg : t.going = some g) :
    ∃ w', TestRuns i A (Call.Heeds i) (w, t) (List.replicate n (.sample i))
        (w', { t with going := some { g with samples := g.samples + n } }) ∧
      w'.par = w.par ∧ w'.line = w.line := by
  induction n generalizing w t g with
  | zero =>
    have ht : { t with going := some g } = t := by
      rw [← hg]
    refine ⟨w, ?_, rfl, rfl⟩
    show TestRuns i A (Call.Heeds i) (w, t) [] (w, { t with going := some g })
    rw [ht]
    exact .nil _
  | succ n ih =>
    obtain ⟨tr, _, ⟨w1, t1⟩, hx, rfl, hpar, hline⟩ := can_sample (i := i) (A := A) (t := t) hr
    have hr1 : tendedCard.Ready w1 := tendedCard_ready.mpr (hpar ▸ tendedCard_ready.mp hr)
    have hg1 : t.sampled.going = some { g with samples := g.samples + 1 } := by
      unfold Test.sampled
      rw [hg]
      rfl
    obtain ⟨w2, hrun, hpar2, hline2⟩ := ih _ hr1 hg1
    refine ⟨w2, ?_, hpar2.trans hpar, hline2.trans hline⟩
    have hcount : g.samples + 1 + n = g.samples + (n + 1) := by omega
    rw [hcount] at hrun
    exact .call hx (fun e _ hp => False.elim hp) hrun

/-- port 1 closed, and no test -/
def shutTest : World × Test := (shutWorld, ⟨none, false, none⟩)

theorem shutTest_atRest : AtRest 1 shutTest := by
  have hwf : (shutWorld.line 1).np.Wf := ⟨by decide, by decide⟩
  have hset : Settled 1 shutWorld := ⟨hwf, by decide, by decide⟩
  refine ⟨fun _ => rfl, hset, fun _ => rfl, ⟨?_, ?_, ?_⟩, hset.mark, fun _ => hset.level, ?_⟩
  · exact fun _ => rfl
  · intro g hg
    cases hg
  · intro h
    cases h
  · intro m hm
    cases hm

/-- port 1 after the first and after the second section of a test -/
def startedLine : Line :=
  { shutWorld.line 1 with np := (sendbreakStart (shutWorld.line 1).np).1, prods := [.brk true] }

def stoppedLine : Line :=
  { startedLine with np := sendbreakStop startedLine.np, prods := [.brk true, .brk false] }

/-- a test that found the port closed, after `n` samples -/
def under (n : Nat) (stopped : Bool) : Test := ⟨some ⟨false, false, n, stopped⟩, false, some 0⟩

theorem started_deed : Deed (shutWorld.sentOn 1).length .start
    (shutWorld.line 1, ⟨none, false, none⟩) (startedLine, under 0 false) := by
  have h := Deed.start (n := (shutWorld.sentOn 1).length) (shutWorld.line 1) ⟨none, false, none⟩
    rfl rfl
  have hroom : 2 ≤ nm32aTxSpace (shutWorld.line 1).np := by decide
  rw [if_pos hroom] at h
  exact h

theorem stopped_deed {n m : Nat} (hm : 400 ≤ m) :
    Deed n .stop (startedLine, under m false) (stoppedLine, under m true) := by
  have h := Deed.stop (n := n) startedLine (under m false) ⟨false, false, m, false⟩ rfl rfl rfl hm
  have hroom : 2 ≤ nm32aTxSpace startedLine.np := by decide
  rw [if_pos hroom] at h
  exact h

theorem done_deed {n m : Nat} : Deed n .done (stoppedLine, under m true)
    ({ stoppedLine with np := sendbreakDone false stoppedLine.np }, ⟨none, false, some 0⟩) :=
  .done _ _ ⟨false, false, m, true⟩ rfl rfl rfl

/-- a section after whatever left the line as it was -/
theorem section_runs {G : Call → Event Op Res (World × Test) → Prop} {calls : List Call} {a : Act}
    (hr : tendedCard.Ready w) (hl : w.line i = l) (ha : A (l, t) a)
    (hd : Deed (w.sentOn i).length a (l, t) (l', t'))
    (h : TestRuns i A G (w.setLine i l', t') calls s') : TestRuns i A G (w, t) calls s' := by
  subst hl
  exact .between (rely_deed hr ha hd) h

/-- a whole test of a closed port -/
theorem sendbreak_transparent_closed : ∃ s',
    TestRuns 1 Meets (Call.Heeds 1) shutTest (List.replicate 400 (.sample 1)) s' ∧
      s'.2.going = none ∧ (s'.1.line 1).prods = [.brk true, .brk false] ∧ Transparent 1 s' := by
  have hr : tendedCard.Ready shutWorld := tendedCard_ready.mpr (by decide)
  obtain ⟨w, hx, hpar, hline⟩ := samples_runs (i := 1) (A := Meets)
    (w := shutWorld.setLine 1 startedLine) (t := under 0 false) 400 ⟨false, false, 0, false⟩ hr rfl
  have hr2 : tendedCard.Ready w := tendedCard_ready.mpr (hpar ▸ tendedCard_ready.mp hr)
  have hself : ∀ (w : World) (l : Line), (w.setLine 1 l).line 1 = l := by
    intro w l
    show Function.update w.line 1 l 1 = l
    rw [Function.update_self]
  have hl : w.line 1 = startedLine := by
    rw [hline]
    exact hself _ _
  let w' := (w.setLine 1 stoppedLine).setLine 1
    { stoppedLine with np := sendbreakDone false stoppedLine.np }
  have hrun : TestRuns 1 Meets (Call.Heeds 1) shutTest (List.replicate 400 (.sample 1))
      (w', ⟨none, false, some 0⟩) := by
    apply section_runs hr rfl (a := .start) (fun _ => rfl) started_deed
    rw [← List.append_nil (List.replicate 400 _)]
    apply hx.trans
    apply section_runs hr2 hl (a := .stop) trivial (stopped_deed (by decide))
    have hr3 : tendedCard.Ready (w.setLine 1 stoppedLine) :=
      tendedCard_ready.mpr (tendedCard_ready.mp hr2)
    apply section_runs hr3 (hself w _) (a := .done) ?_ done_deed (.nil _)
    intro g hg
    cases hg
    rfl
  refine ⟨_, hrun, rfl, ?_, ?_⟩
  · show (w'.line 1).prods = _
    rw [hself]
    rfl
  · apply sendbreak_transparent 1 _ ?_ _ _ shutTest_atRest hrun
    intro call hc
    rw [(List.mem_replicate.mp hc).2]
    exact id

end Nm32a
