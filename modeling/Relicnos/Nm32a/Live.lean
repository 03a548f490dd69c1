import Relicnos.Nm32a.Mute
import Relicnos.Nm32a.Sections
import Relicnos.Nm32a.Tty

/-!
# The receive interest of a live port

A port that is open and not muted wants both RxD and RET in the `IER` of its channel.  Six places
write `IER`, with five constants.  `Complete i` is the invariant, and it holds at every moment,
not only while `hw_lock` is free: whoever leaves one of the two bits out has made the port closed
or muted first, and a port is declared open and unmuted after its `IER` is written.  The one
exception is `nm32a_tty_set_termios`, which writes 0x09.

* `access_keen`      operations that keep `Complete`, whatever channel they reach;
* `ier_complete`     a write of `IER` that misses a bit, aimed at a port that is not live;
* `receive_complete` every run of calls that sets no termios on a live port.
-/

set_option linter.unusedVariables false

namespace Nm32a
open Interact

/-- open, and not muted -/
def Live (i : Fin 32) (w : World) : Prop :=
  (w.line i).np.opened = true ∧ (w.line i).np.rxOff = false

/-- RxD and RET are on -/
def Lit (i : Fin 32) (w : World) : Prop := (w.hw (chipOf i)).ier (chanIx i) &&& 0x28 = 0x28

def Complete (i : Fin 32) (w : World) : Prop := Live i w → Lit i w

/-- the card with the tty layer's writes and break commands on its ports -/
def writtenCard : Cfg := { tendedCard with line := fun l l' => ∃ ds, Line.Serves l ds l' }

theorem timely_writtenCard : writtenCard.Timely := timely_ownChip
theorem writtenCard_pick (w : World) (j : Fin 8) (h : writtenCard.pick w j) : j = w.serving := h

theorem writtenCard_tended : writtenCard.Tended := by
  rintro l l' ⟨ds, h⟩
  exact h.produces

/-- writers neither open, close nor mute a port -/
theorem Line.Serves.mode {l l' : Line} {ds : List Done} (h : Line.Serves l ds l') :
    l'.np.opened = l.np.opened ∧ l'.np.rxOff = l.np.rxOff := by
  induction h with
  | none => exact ⟨rfl, rfl⟩
  | @more l l' ds call _ _ ih =>
    have hsame := call.run_same l
    exact ⟨ih.1.trans hsame.opened, ih.2.trans hsame.rxOff⟩

variable {i k : Fin 32} {j : Fin 8} {ch : Fin 4} {w w' : World} {α β : Type}

/-! ## what is kept -/

/-- nothing that completeness is about has changed, unless the port went down -/
structure SameLive (i : Fin 32) (w w' : World) : Prop where
  live : Live i w' → Live i w
  ier : (w'.hw (chipOf i)).ier (chanIx i) = (w.hw (chipOf i)).ier (chanIx i)

theorem SameLive.lit (h : SameLive i w w') (hl : Lit i w) : Lit i w' := by
  unfold Lit
  rw [h.ier]
  exact hl

theorem SameLive.complete (h : SameLive i w w') (hc : Complete i w) : Complete i w' :=
  fun hl => h.lit (hc (h.live hl))

theorem rely_sameLive (h : writtenCard.rely w w') (i : Fin 32) : SameLive i w w' := by
  obtain ⟨ds, hs⟩ := h.line i
  refine ⟨?_, (h.sameMute writtenCard_tended i).ier⟩
  unfold Live
  rw [hs.mode.1, hs.mode.2]
  exact id

theorem Complete.stable : Stable writtenCard.card (Complete i) :=
  fun w w' h hr => (rely_sameLive hr i).complete h

theorem Lit.stable : Stable writtenCard.card (Lit i) :=
  fun w w' h hr => (rely_sameLive hr i).lit h

theorem down_stable : Stable writtenCard.card fun w => ¬Live i w :=
  fun w w' h hr hl => h ((rely_sameLive hr i).live hl)

/-- operations that touch neither `IER` nor what makes a port live -/
def Op.Aloof (i : Fin 32) : Op → Prop
  | .cwr _ reg _ => reg ≠ .IER
  | .setPort i' (.opened b) => i' = i → b = false
  | .setPort i' (.rxOff b) => i' = i → b = true
  | _ => True

/-- and writes of `IER` with both bits -/
def Op.Keen (i : Fin 32) (o : Op) : Prop :=
  o.Aloof i ∨ ∃ j v, o = .cwr j .IER v ∧ v &&& 0x28 = 0x28

theorem aloof_write {reg : Reg} {v : UInt8} (h : reg ≠ .IER) : Op.Aloof i (.cwr j reg v) := h

theorem aloof_other (h : k ≠ i) (f : PortField) : Op.Aloof i (.setPort k f) := by
  cases f with
  | opened b => exact fun e => absurd e h
  | rxOff b => exact fun e => absurd e h
  | _ => trivial

theorem aloof_of {o : Op} (hs : ∀ k f, o ≠ .setPort k f) (hi : ∀ j v, o ≠ .cwr j .IER v) :
    o.Aloof i := by
  cases o with
  | cwr j reg v => exact aloof_write fun e => hi j v (by rw [e])
  | setPort k f => exact absurd rfl (hs k f)
  | _ => trivial

theorem aloof_car {v : UInt8} : Op.Aloof i (.cwr j .CAR v) := aloof_write nofun

theorem setLine_live {i' : Fin 32} {l : Line} (h : i' = i →
    (l.np.opened = true ∧ l.np.rxOff = false → Live i w)) : SameLive i w (w.setLine i' l) := by
  refine ⟨?_, rfl⟩
  unfold Live World.setLine
  by_cases e : i = i'
  · subst e
    simp only [Function.update_self]
    exact h rfl
  · simp only [Function.update_of_ne e]
    exact id

theorem access_aloof {c : Cfg} {o : Op} {r : Res o} (ho : o.Aloof i) (ha : c.access w o r w') :
    SameLive i w w' := by
  cases o with
  | setPort i' f =>
    subst ha
    refine setLine_live ?_
    rintro rfl ⟨h1, h2⟩
    cases f with
    | opened b =>
      have hb : b = true := h1
      rw [ho rfl] at hb
      cases hb
    | rxOff b =>
      have hb : b = false := h2
      rw [ho rfl] at hb
      cases hb
    | _ => exact ⟨h1, h2⟩
  | spinLock i' => subst ha; exact setLine_live fun e h => by subst e; exact h
  | spinUnlock i' => subst ha; exact setLine_live fun e h => by subst e; exact h
  | flip i' bs => subst ha; exact setLine_live fun e h => by subst e; exact h
  | crd j reg =>
    have hq := (access_quiet (i := i) (o := .crd j reg) trivial ha).ier
    obtain ⟨h', _, rfl⟩ := ha
    exact ⟨id, hq⟩
  | cwr j reg v =>
    have hq := (access_quiet (i := i) (o := .cwr j reg v) (.inl ho) ha).ier
    subst ha
    exact ⟨id, hq⟩
  | readb addr =>
    have hq := (access_quiet (i := i) (o := .readb addr) trivial ha).ier
    replace ha : c.Ack addr w w' := ha
    cases ha with
    | nothing h => exact ⟨id, hq⟩
    | grant j x hj hx hl h0 => exact ⟨id, hq⟩
  | port i' => obtain ⟨_, rfl⟩ := ha; exact ⟨id, rfl⟩
  | params => obtain ⟨_, rfl⟩ := ha; exact ⟨id, rfl⟩
  | jiffies => obtain ⟨_, rfl⟩ := ha; exact ⟨id, rfl⟩
  | hang => exact False.elim ha
  | _ => subst ha; exact ⟨id, rfl⟩

/-- what a write of `IER` leaves in the `IER` of port `i`: the value, or what was there -/
theorem ier_written (v : UInt8) :
    ((w.setChip j ((w.hw j).write .IER v)).hw (chipOf i)).ier (chanIx i) = v ∨
      ((w.setChip j ((w.hw j).write .IER v)).hw (chipOf i)).ier (chanIx i)
        = (w.hw (chipOf i)).ier (chanIx i) := by
  by_cases hj : j = chipOf i
  · subst hj
    by_cases hch : (w.hw (chipOf i)).chanNow = chanIx i
    · left
      simp only [World.setChip, Function.update_self, Chip.write, hch]
    · right
      simp only [World.setChip, Function.update_self, Chip.write]
      rw [Function.update_of_ne (Ne.symm hch)]
  · right
    simp only [World.setChip, Function.update_of_ne (Ne.symm hj)]

/-- **Operations that keep the invariant, whatever channel they reach.** -/
theorem access_keen {c : Cfg} {o : Op} {r : Res o} (ho : o.Keen i) (ha : c.access w o r w')
    (h : Complete i w) : Complete i w' := by
  rcases ho with ho | ⟨j, v, rfl, hv⟩
  · exact (access_aloof ho ha).complete h
  · subst ha
    intro hl
    unfold Lit
    rcases ier_written (i := i) (w := w) (j := j) v with he | he
    · rw [he]
      exact hv
    · rw [he]
      exact h hl

/-- a write of `IER` that is aimed at port `k`, which is another port or not live -/
theorem ier_complete (ha : Aimed k w) (h : Complete i w) (v : UInt8) (hk : k = i → ¬Live i w) :
    Complete i (w.setChip (chipOf k) ((w.hw (chipOf k)).write .IER v)) := by
  intro hl
  by_cases e : k = i
  · exact absurd hl (hk e)
  · have hs : SameMute i w (w.setChip (chipOf k) ((w.hw (chipOf k)).write .IER v)) := by
      refine ⟨rfl, ?_⟩
      by_cases hj : chipOf i = chipOf k
      · simp only [World.setChip, hj, Function.update_self, Chip.write, chanNow_of_aimed ha]
        have hch : chanIx i ≠ chanIx k := fun hch => e (port_ext hj.symm hch.symm)
        rw [Function.update_of_ne hch]
      · simp only [World.setChip, Function.update_of_ne hj]
    unfold Lit
    rw [hs.ier]
    exact h hl

/-- an event keeps the invariant in sight -/
def Kept (i : Fin 32) (e : Event Op Res World) : Prop := Complete i e.pre ∧ Complete i e.post

theorem Complete.keeps : Keeps writtenCard.card (Kept i) (Op.Keen i) (Complete i) :=
  fun w o r w' ho h ha => ⟨⟨h, access_keen ho ha h⟩, access_keen ho ha h⟩

theorem wp_keen {p : Drv α} (hu : p.Uses (Op.Keen i)) (h : Complete i w) :
    wp writtenCard.card (Kept i) p (fun _ w' => Complete i w') w :=
  wp_keeps Complete.stable Complete.keeps hu h

/-- a part of a program that keeps `P` as well -/
theorem wp_keen_bind {p : Drv α} {f : α → Drv β} {O : Op → Prop} {P : World → Prop}
    {Q : β → World → Prop} (hP : Stable writtenCard.card P)
    (hk : ∀ w o r w', O o → P w → writtenCard.access w o r w' → P w') (hu : p.Uses O)
    (hq : ∀ o, O o → o.Keen i) (h : P w) (hc : Complete i w)
    (hf : ∀ a w', P w' → Complete i w' → wp writtenCard.card (Kept i) (f a) Q w') :
    wp writtenCard.card (Kept i) (p >>= f) Q w := by
  refine wp_bind_keeps (P := fun w => P w ∧ Complete i w) (hP.and Complete.stable) ?_ hu ⟨h, hc⟩
    (fun a w' hw => hf a w' hw.1 hw.2)
  intro w o r w' ho hw ha
  obtain ⟨hg, hc'⟩ := Complete.keeps w o r w' (hq o ho) hw.2 ha
  exact ⟨hg, hk w o r w' ho hw.1 ha, hc'⟩

/-! ## services -/

theorem Op.Peek.aloof {o : Op} (h : o.Peek j) : o.Aloof i := by
  cases o with
  | cwr j' reg v => exact False.elim h
  | setPort i' f => exact False.elim h
  | _ => trivial

theorem Op.Fetch.aloof {o : Op} (h : o.Fetch j) : o.Aloof i := by
  rcases h with rfl | rfl <;> trivial

theorem Op.Hands.aloof {o : Op} (h : o.Hands k) : o.Aloof i := by
  rcases h with rfl | ⟨bs, rfl⟩ <;> trivial

theorem Op.Sends.aloof {o : Op} (h : o.Sends j k) : o.Aloof i := by
  rcases h with rfl | ⟨v, rfl⟩ | ⟨v, rfl⟩
  · trivial
  · exact aloof_write nofun
  · trivial

theorem Op.Ends.aloof {d : Kind} {o : Op} (h : o.Ends j (eoirReg d)) : o.Aloof i := by
  rcases h with h | ⟨v, rfl⟩
  · exact h.aloof
  · cases d
    · exact aloof_write nofun
    · exact aloof_write nofun

/-- the port is looked at, and its error window is kept -/
def Op.Tallies (k : Fin 32) : Op → Prop
  | .jiffies => True
  | .port k' => k' = k
  | .setPort k' (.errWin _) => k' = k
  | .setPort k' (.errCnt _) => k' = k
  | _ => False

theorem Op.Tallies.aloof {o : Op} (h : o.Tallies k) : o.Aloof i := by
  cases o with
  | setPort k' f =>
    cases f with
    | opened b => exact False.elim h
    | rxOff b => exact False.elim h
    | _ => trivial
  | cwr j reg v => exact False.elim h
  | _ => trivial

theorem Op.Tallies.closed {o : Op} {r : Res o} (ho : o.Tallies k) (h : w.Closed)
    (ha : writtenCard.access w o r w') : w'.Closed := by
  cases o with
  | setPort k' f => subst ha; exact h
  | port k' => obtain ⟨_, rfl⟩ := ha; exact h
  | jiffies => obtain ⟨_, rfl⟩ := ha; exact h
  | _ => exact False.elim ho

theorem tallies_errWindow : (errWindow k).Uses (Op.Tallies k) := by
  refine Prog.Uses.bind (uses_issue trivial) ?_
  intro now
  refine Prog.Uses.bind (uses_issue rfl) ?_
  intro np
  refine Prog.Uses.ite ?_ trivial
  refine Prog.Uses.bind (uses_issue trivial) ?_
  intro now
  refine Prog.Uses.bind (uses_issue rfl) ?_
  intro _
  exact uses_issue rfl

/-- the choice of a channel -/
theorem wp_keen_car {f : Unit → Drv β} {P : World → Prop} {Q : β → World → Prop}
    (hP : Stable writtenCard.card P) (hc : ∀ w, P w → w.Closed)
    (hk : ∀ w w', P w → writtenCard.access w
      (.cwr (chipOf k) .CAR (UInt8.ofNat (chanIx k).val)) () w' → P w')
    (h : P w) (hi : Complete i w)
    (hf : ∀ w', Aimed k w' → P w' → Complete i w' → wp writtenCard.card (Kept i) (f ()) Q w') :
    wp writtenCard.card (Kept i) (cwr (chipOf k) .CAR (UInt8.ofNat (chanIx k).val) >>= f) Q w := by
  refine wp_issue (P := fun w => P w ∧ Complete i w) (hP.and Complete.stable) ⟨h, hi⟩ ?_
  intro w1 _ w2 h1 _ ha
  obtain ⟨hg, h2⟩ := Complete.keeps w1 _ _ w2 (.inl aloof_car) h1.2 ha
  have hp2 := hk w1 w2 h1.1 ha
  subst ha
  exact ⟨hg, hf _ (aimed_car (hc w1 h1.1)) hp2 h2⟩

/-- a write of `IER` to a channel that has been chosen, of a port that is not live -/
theorem wp_keen_ier (v : UInt8) (hw : Aimed k w) (h : Complete i w) (hk : k = i → ¬Live i w) :
    wp writtenCard.card (Kept i) (cwr (chipOf k) .IER v)
      (fun _ w' => Complete i w' ∧ Aimed k w' ∧ (k = i → ¬Live i w')) w := by
  have hst : Stable writtenCard.card fun w => Aimed k w ∧ Complete i w ∧ (k = i → ¬Live i w) := by
    intro w w' hw hr
    exact ⟨Aimed.stable w w' hw.1 hr, Complete.stable w w' hw.2.1 hr,
      fun e => down_stable w w' (hw.2.2 e) hr⟩
  refine wp_issue_last hst ⟨hw, h, hk⟩ ?_
  rintro w1 _ w2 ⟨ha1, h1, hk1⟩ _ ha
  have ha2 := access_aimed (c := writtenCard) (o := .cwr (chipOf k) .IER v) (.inl (.inr ⟨v, rfl⟩))
    ha ha1
  subst ha
  have h2 := ier_complete ha1 h1 v hk1
  exact ⟨⟨h1, h2⟩, h2, ha2, fun e hl => hk1 e hl⟩

/-- a port is closed or muted, and then its `IER` is written -/
theorem wp_keen_down {f : PortField} {g : Unit → Drv β} {Q : β → World → Prop} (v : UInt8)
    (hf : f = .opened false ∨ f = .rxOff true) (hc : w.Closed) (h : Complete i w)
    (hg : ∀ w', w'.Closed → Complete i w' → wp writtenCard.card (Kept i) (g ()) Q w') :
    wp writtenCard.card (Kept i) (setPort k f >>= fun _ =>
      cwr (chipOf k) .CAR (UInt8.ofNat (chanIx k).val) >>= fun _ => cwr (chipOf k) .IER v >>= g)
      Q w := by
  let P : World → Prop := fun w => w.Closed ∧ ¬Live k w
  have hP : Stable writtenCard.card P := closed_onStacks.stable.and down_stable
  have hkeen : Op.Keen i (.setPort k f) := by
    rcases hf with rfl | rfl
    · exact .inl fun _ => rfl
    · exact .inl fun _ => rfl
  refine wp_issue (P := fun w => w.Closed ∧ Complete i w)
    (closed_onStacks.stable.and Complete.stable) ⟨hc, h⟩ ?_
  rintro w1 _ w2 ⟨hc1, h1⟩ _ ha2
  obtain ⟨hg2, h2⟩ := Complete.keeps w1 (.setPort k f) () w2 hkeen h1 ha2
  have hp2 : P w2 := by
    subst ha2
    refine ⟨hc1, ?_⟩
    unfold Live World.setLine
    simp only [Function.update_self]
    rintro ⟨hopen, hoff⟩
    rcases hf with rfl | rfl
    · exact Bool.noConfusion hopen
    · exact Bool.noConfusion hoff
  refine ⟨hg2, ?_⟩
  refine wp_keen_car hP (fun w hw => hw.1) ?_ hp2 h2 ?_
  · intro w w' hw ha
    obtain ⟨hs, hgr⟩ := access_setup (c := writtenCard) (setup_car (k := k)) ha
    refine ⟨closed_onStacks w w' hs hgr hw.1, fun hl => hw.2 ?_⟩
    exact (access_aloof aloof_car ha).live hl
  intro w3 ha3 hp3 h3
  refine (wp_bind _ _ _ _).mpr (wp_post (wp_keen_ier v ha3 h3 ?_) ?_)
  · rintro rfl
    exact hp3.2
  · intro _ w4 h4
    exact hg w4 h4.2.1.closed h4.1

theorem wp_rxException_complete (hc : w.Closed) (h : Complete i w) :
    wp writtenCard.card (Kept i) (nm32aRxException j ch) (fun _ w' => Complete i w') w := by
  obtain ⟨k, rfl, rfl⟩ : ∃ k, chipOf k = j ∧ chanIx k = ch :=
    ⟨portIx j ch, chipOf_portIx j ch, chanIx_portIx j ch⟩
  rw [nm32aRxException_eq]
  have hbind : ∀ {α β : Type} {p : Drv α} {f : α → Drv β} {Q : β → World → Prop} {w : World},
      p.Uses (Op.Tallies k) → w.Closed → Complete i w →
      (∀ a w', w'.Closed → Complete i w' → wp writtenCard.card (Kept i) (f a) Q w') →
      wp writtenCard.card (Kept i) (p >>= f) Q w :=
    fun hu hc h hf => wp_keen_bind closed_onStacks.stable
      (fun w o r w' ho hw ha => ho.closed hw ha) hu (fun _ ho => .inl ho.aloof) hc h hf
  refine hbind tallies_errWindow hc h ?_
  intro _ w1 hc1 h1
  refine hbind (uses_issue rfl) hc1 h1 ?_
  intro np w2 hc2 h2
  refine hbind (uses_issue rfl) hc2 h2 ?_
  intro _ w3 hc3 h3
  split
  · exact h3
  exact wp_keen_down 0x01 (.inr rfl) hc3 h3 fun w4 _ h4 => h4

theorem keen_serviceTx : (serviceTx j ch).Uses (Op.Keen i) := by
  refine Prog.Uses.bind (uses_issue (.inl trivial)) ?_
  intro _
  refine Prog.Uses.bind (uses_issue (.inl trivial)) ?_
  intro room
  refine Prog.Uses.bind ((sends_txLoop _ _).mono fun _ ho => .inl ho.aloof) ?_
  intro n
  refine Prog.Uses.bind (Prog.Uses.ite (uses_issue (.inr ⟨_, _, rfl, by decide⟩)) trivial) ?_
  intro _
  refine Prog.Uses.bind
    ((uses_eoi .TEOIR _).mono fun o ho => .inl (Op.Ends.aloof (d := .tx) ho)) ?_
  intro _
  exact Prog.Uses.bind (uses_issue (.inl trivial)) fun _ => uses_issue (.inl trivial)

theorem wp_serviceRx_complete (tr : Bool) (rir0 : UInt8)
    (hin : Inside writtenCard j .rx (chanOf rir0) w) (h : Complete i w) :
    wp writtenCard.card (Kept i) (serviceRx j tr rir0) (fun _ w' => Complete i w') w := by
  have hfetch : ∀ {α : Type} {p : Drv α}, p.Uses (Op.Fetch j) → p.Uses (Op.Keen i) :=
    fun hu => hu.mono fun _ ho => .inl ho.aloof
  have heoi : ∀ v, (nm32aEoi j .REOIR v).Uses (Op.Keen i) :=
    fun v => (uses_eoi .REOIR v).mono fun o ho => .inl (Op.Ends.aloof (d := .rx) ho)
  have hhand : ∀ bs, (deliver (portIx j (chanOf rir0)) bs).Uses (Op.Keen i) :=
    fun bs => (hands_deliver _ bs).mono fun _ ho => .inl ho.aloof
  have hwithin : ∀ w o r w', Op.Fetch j o → Inside writtenCard j .rx (chanOf rir0) w →
      writtenCard.access w o r w' → Inside writtenCard j .rx (chanOf rir0) w' :=
    fun w o r w' ho hw ha => (Inside.keeps w o r w' ho.within hw ha).2
  unfold serviceRx
  split
  · refine wp_keen_bind (Inside.onStacks (c := writtenCard)).stable ?_
      (uses_issue (O := (· = .crd j .RISRl)) rfl) (by rintro o rfl; exact .inl trivial) hin h ?_
    · rintro w o r w' rfl hw ha
      obtain ⟨h1, _, h3⟩ := access_look (o := .crd j .RISRl) ⟨nofun, nofun⟩ ha
      exact Inside.onStacks w w' (fun i => by rw [h1]) h3 hw
    intro erisr w1 hin1 h1
    split
    · refine wp_keen ?_ h1
      refine Prog.Uses.bind (uses_issue (.inl trivial)) ?_
      intro rfoc
      refine Prog.Uses.bind (hfetch (fetch_drain _)) ?_
      intro bs
      refine Prog.Uses.bind (heoi _) ?_
      intro _
      exact Prog.Uses.bind (hhand bs) fun _ => uses_issue (.inl trivial)
    · refine wp_keen_bind Inside.onStacks.stable hwithin (fetch_traceException tr)
        (fun _ ho => .inl ho.aloof) hin1 h1 ?_
      intro _ w2 hin2 h2
      refine wp_keen_bind Inside.onStacks.stable hwithin (fetch_dropBad erisr)
        (fun _ ho => .inl ho.aloof) hin2 h2 ?_
      intro _ w3 hin3 h3
      have he := wp_eoi (G := fun _ => True) (fun _ _ => trivial) (fun _ _ _ _ _ => trivial)
        timely_writtenCard 0x00 hin3.closing
      refine (wp_bind _ _ _ _).mpr (wp_mono (wp_and he (wp_keen (heoi 0x00) h3))
        (fun _ hg => hg.2) ?_)
      rintro _ w4 ⟨ho, h4⟩
      refine (wp_bind _ _ _ _).mpr (wp_post (wp_rxException_complete ho.closed h4) ?_)
      intro _ w5 h5
      exact wp_keen (uses_issue (.inl trivial)) h5
  · refine wp_keen ?_ h
    refine Prog.Uses.bind (uses_issue (.inl trivial)) ?_
    intro rfoc
    refine Prog.Uses.bind (hfetch (fetch_drain _)) ?_
    intro bs
    refine Prog.Uses.bind (heoi _) ?_
    intro _
    exact Prog.Uses.bind (uses_issue (.inl trivial)) fun _ => hhand bs

theorem wp_service_complete (hc : w.Closed) (h : Complete i w) :
    wp writtenCard.card (Kept i) (nm32aService j) (fun _ w' => w'.Closed ∧ Complete i w') w := by
  refine wp_service_rule (H := Complete i) writtenCard.card.le_refl
    (fun w i' hs _ hp _ _ _ => (writtenCard_pick w i' hp).trans hs) Complete.stable
    (Complete.keeps.mono fun _ ho => .inl ho.peek.aloof) ?_ ?_ ?_ ?_ hc h
  · intro w addr v w' hw ha
    exact Complete.keeps w (.readb addr) v w' (.inl trivial) hw ha
  · intro w w' _ hw ha
    exact Complete.keeps w .unlock () w' (.inl trivial) hw ha
  · intro tr rir0 x w hw hx hk hch _
    have hin := hx.inside
    rw [hk, hch] at hin
    exact wp_mono (wp_and (wp_serviceRx allows_disciplined timely_writtenCard tr rir0 hin)
      (wp_serviceRx_complete tr rir0 hin hw)) (fun _ hg => hg.2) (fun _ _ hq => hq)
  · intro x w hw hx hk
    have hin := hx.inside
    rw [hk] at hin
    exact wp_mono (wp_and (wp_serviceTx allows_disciplined timely_writtenCard hin)
      (wp_keen keen_serviceTx hw)) (fun _ hg => hg.2) (fun _ _ hq => hq)

/-! ## the calls -/

theorem Op.Tune.aloof {o : Op} (h : o.Tune j) : o.Aloof i := by
  cases o with
  | cwr j' reg v => exact aloof_write h.2.1.plain.2.1
  | setPort i' f => exact False.elim h
  | _ => trivial

theorem keen_write {reg : Reg} {v : UInt8} {f : Unit → Drv α} (hr : reg ≠ .IER)
    (hf : (f ()).Uses (Op.Keen i)) : (cwr j reg v >>= f).Uses (Op.Keen i) :=
  uses_write (.inl (aloof_write hr)) hf

theorem keen_setMctrl (active : Bool) : (nm32aSetMctrl j ch active).Uses (Op.Keen i) := by
  refine keen_write nofun ?_
  refine keen_write nofun ?_
  exact uses_issue (.inl (aloof_write nofun))

theorem keen_dtrRts (active : Bool) : (nm32aDtrRts k active).Uses (Op.Keen i) := by
  refine Prog.Uses.bind (uses_issue (.inl trivial)) ?_
  intro _
  exact Prog.Uses.bind (keen_setMctrl active) fun _ => uses_issue (.inl trivial)

theorem keen_sample : (sendbreakSample k).Uses (Op.Keen i) := by
  refine Prog.Uses.bind (uses_issue (.inl trivial)) ?_
  intro _
  refine keen_write nofun ?_
  refine Prog.Uses.bind (uses_issue (.inl trivial)) ?_
  intro rcor
  exact Prog.Uses.bind (uses_issue (.inl trivial)) fun _ => trivial

/-- `nm32a_chan_init` up to its write of `IER` -/
def chanInitDark (turns : Nat) (chip : Fin 8) (rate : Nat) : Drv Unit := do
  cwr chip .LIVR 0x40
  nm32aSetRate chip rate
  cwr chip .CMR 0x02
  cwr chip .COR1 0x17
  cwr chip .COR2 0x00
  chanInitRest turns chip

theorem nm32aChanInit_dark (turns : Nat) (chip : Fin 8) (chan : Fin 4) (rate : Nat) :
    nm32aChanInit turns chip chan rate = (do
      cwr chip .CAR (UInt8.ofNat chan.val)
      chanInitDark turns chip rate
      cwr chip .IER 0x29) := by
  rw [nm32aChanInit_eq]
  simp only [chanInitDark, bind_assoc]

theorem tune_chanInitDark (turns rate : Nat) : (chanInitDark turns j rate).Uses (Op.Tune j) := by
  refine uses_write ⟨rfl, trivial, nofun, nofun⟩ ?_
  refine Prog.Uses.bind (tune_setRate rate) ?_
  intro _
  refine uses_write ⟨rfl, trivial, nofun, nofun⟩ ?_
  refine uses_write ⟨rfl, trivial, nofun, nofun⟩ ?_
  refine uses_write ⟨rfl, trivial, fun _ => rfl, nofun⟩ ?_
  exact tune_chanInitRest turns

theorem Op.Tune.aimed {o : Op} {r : Res o} (ho : o.Tune (chipOf k)) (h : Aimed k w)
    (ha : writtenCard.access w o r w') : Aimed k w' :=
  access_aimed (.inl (.inl ho.setup)) ha h

/-- an operation of the set-up, before the channel is chosen -/
theorem wp_keen_setup {p : Drv α} {f : α → Drv β} {Q : β → World → Prop}
    (hu : p.Uses fun o => o.Setup k ∧ o.Keen i) (hc : w.Closed) (h : Complete i w)
    (hf : ∀ a w', w'.Closed → Complete i w' → wp writtenCard.card (Kept i) (f a) Q w') :
    wp writtenCard.card (Kept i) (p >>= f) Q w := by
  refine wp_keen_bind closed_onStacks.stable ?_ hu (fun _ ho => ho.2) hc h hf
  intro w o r w' ho hw ha
  obtain ⟨hs, hg⟩ := access_setup ho.1 ha
  exact closed_onStacks w w' hs hg hw

/-- the choice of the channel and the set-up that follows it -/
theorem wp_keen_aim {p : Drv α} {f : α → Drv β} {Q : β → World → Prop}
    (hu : p.Uses (Op.Tune (chipOf k))) (hc : w.Closed) (h : Complete i w)
    (hf : ∀ a w', Aimed k w' → Complete i w' → wp writtenCard.card (Kept i) (f a) Q w') :
    wp writtenCard.card (Kept i)
      (cwr (chipOf k) .CAR (UInt8.ofNat (chanIx k).val) >>= fun _ => p >>= f) Q w := by
  refine wp_keen_car closed_onStacks.stable (fun _ h => h) ?_ hc h ?_
  · intro w w' hw ha
    obtain ⟨hs, hg⟩ := access_setup (c := writtenCard) (setup_car (k := k)) ha
    exact closed_onStacks w w' hs hg hw
  intro w1 ha1 _ h1
  exact wp_keen_bind Aimed.stable (fun w o r w' ho hw ha => ho.aimed hw ha) hu
    (fun _ ho => .inl ho.aloof) ha1 h1 hf

theorem wp_shutdown_complete (hc : w.Closed) (h : Complete i w) :
    wp writtenCard.card (Kept i) (nm32aPortShutdown k) (fun _ w' => Complete i w') w := by
  refine wp_keen_setup (k := k) (uses_issue ⟨trivial, .inl trivial⟩) hc h ?_
  intro _ w1 hc1 h1
  refine wp_keen_down 0x00 (.inl rfl) hc1 h1 ?_
  intro w2 _ h2
  refine wp_keen ?_ h2
  exact Prog.Uses.bind (keen_setMctrl false) fun _ => uses_issue (.inl trivial)

/-- the middle of `nm32a_tty_set_termios` -/
def termiosDark (turns : Nat) (chip : Fin 8) (rate : Nat) : Drv Unit := do
  nm32aSetRate chip rate
  cwr chip .CCR ccrInitch
  let _ ← ccrWait turns chip
  cwr chip .CCR (ccrEntx ||| ccrEnrx)
  let _ ← ccrWait turns chip

theorem nm32aTtySetTermios_dark (turns : Nat) (i : Fin 32) (rate : Nat) :
    nm32aTtySetTermios turns i rate = (do
      hwLock
      cwr (chipOf i) .CAR (UInt8.ofNat (chanIx i).val)
      termiosDark turns (chipOf i) (if rate ≠ 0 then rate else 9600)
      cwr (chipOf i) .IER 0x09
      hwUnlock) := by
  simp only [nm32aTtySetTermios, termiosDark, bind_assoc, pure_bind]

theorem tune_termiosDark (turns rate : Nat) : (termiosDark turns j rate).Uses (Op.Tune j) := by
  refine Prog.Uses.bind (tune_setRate rate) ?_
  intro _
  refine uses_write ⟨rfl, trivial, nofun, fun _ => rfl⟩ ?_
  refine Prog.Uses.bind (tune_ccrWait turns) ?_
  intro _
  refine uses_write ⟨rfl, trivial, nofun, fun _ => rfl⟩ ?_
  exact Prog.Uses.bind (tune_ccrWait turns) fun _ => trivial

/-- a program that assigns to no port leaves a port that is not live as it is -/
theorem wp_down {p : Drv α} (hu : p.Uses fun o => ∀ k f, o ≠ .setPort k f) (h : ¬Live i w) :
    wp writtenCard.card (Kept i) p (fun _ w' => Complete i w') w := by
  refine wp_post (wp_keeps down_stable ?_ hu h) fun _ w' hl hl' => absurd hl' hl
  intro w o r w' ho hw ha
  have hd : ¬Live i w' := by
    by_cases hi : ∃ j v, o = .cwr j .IER v
    · obtain ⟨j, v, rfl⟩ := hi
      subst ha
      exact hw
    · have haloof := aloof_of (i := i) ho fun j v e => hi ⟨j, v, e⟩
      exact fun hl => hw ((access_aloof haloof ha).live hl)
  exact ⟨⟨fun hl => absurd hl hw, fun hl => absurd hl hd⟩, hd⟩

theorem wp_setTermios_complete (turns rate : Nat) (hc : w.Closed) (h : Complete i w)
    (hk : k = i → ¬Live i w) :
    wp writtenCard.card (Kept i) (nm32aTtySetTermios turns k rate)
      (fun _ w' => Complete i w') w := by
  rw [nm32aTtySetTermios_dark]
  by_cases e : k = i
  · refine wp_down ?_ (hk e)
    refine Prog.Uses.bind (uses_issue nofun) ?_
    intro _
    refine uses_write nofun ?_
    refine Prog.Uses.bind ((tune_termiosDark turns _).mono ?_) ?_
    · rintro o ho k' f rfl
      exact ho
    intro _
    refine uses_write nofun ?_
    exact uses_issue nofun
  · refine wp_keen_setup (k := k) (uses_issue ⟨trivial, .inl trivial⟩) hc h ?_
    intro _ w1 hc1 h1
    refine wp_keen_aim (tune_termiosDark turns _) hc1 h1 ?_
    intro _ w2 ha2 h2
    refine (wp_bind _ _ _ _).mpr (wp_post (wp_keen_ier 0x09 ha2 h2 fun e' => absurd e' e) ?_)
    intro _ w3 h3
    exact wp_keen (uses_issue (.inl trivial)) h3.1

/-- a program that does not write `IER` leaves a lit port lit -/
theorem wp_lit {p : Drv α} (hu : p.Uses fun o => ∀ j v, o ≠ .cwr j .IER v) (h : Lit i w) :
    wp writtenCard.card (Kept i) p (fun _ w' => Complete i w') w := by
  refine wp_post (wp_keeps Lit.stable ?_ hu h) fun _ w' hl _ => hl
  intro w o r w' ho hw ha
  have hl : Lit i w' := by
    by_cases hs : ∃ k f, o = .setPort k f
    · obtain ⟨k, f, rfl⟩ := hs
      subst ha
      exact hw
    · have haloof := aloof_of (i := i) (fun k f e => hs ⟨k, f, e⟩) ho
      exact (access_aloof haloof ha).lit hw
  exact ⟨⟨fun _ => hw, fun _ => hl⟩, hl⟩

/-- the end of an activation assigns to the port -/
theorem sets_activateRest :
    (activateRest k).Uses fun o => (∃ f, o = .setPort k f) ∨ o = .jiffies ∨ o = .unlock := by
  have hset : ∀ {f : PortField} {g : Unit → Drv Int},
      (g ()).Uses (fun o => (∃ f, o = .setPort k f) ∨ o = .jiffies ∨ o = .unlock) →
      (setPort k f >>= g).Uses fun o => (∃ f, o = .setPort k f) ∨ o = .jiffies ∨ o = .unlock :=
    fun hg => Prog.Uses.bind (uses_issue (.inl ⟨_, rfl⟩)) fun _ => hg
  refine hset ?_
  refine hset ?_
  refine hset ?_
  refine Prog.Uses.bind (uses_issue (.inr (.inl rfl))) fun now => ?_
  refine hset ?_
  refine hset ?_
  refine hset ?_
  exact Prog.Uses.bind (uses_issue (.inr (.inr rfl))) fun _ => trivial

/-- it declares the port live once it is lit; on another port nothing that it assigns matters -/
theorem wp_activateRest_complete (h : Complete i w) (hk : k = i → Lit i w) :
    wp writtenCard.card (Kept i) (activateRest k) (fun _ w' => Complete i w') w := by
  by_cases e : k = i
  · refine wp_lit (sets_activateRest.mono ?_) (hk e)
    rintro o (⟨f, rfl⟩ | rfl | rfl) j v
    · nofun
    · nofun
    · nofun
  · refine wp_keen (sets_activateRest.mono ?_) h
    rintro o (⟨f, rfl⟩ | rfl | rfl)
    · exact .inl (aloof_other e f)
    · exact .inl trivial
    · exact .inl trivial

theorem wp_activate_complete (turns rate : Nat) (hc : w.Closed) (h : Complete i w) :
    wp writtenCard.card (Kept i) (nm32aPortActivate turns k rate)
      (fun _ w' => Complete i w') w := by
  rw [nm32aPortActivate_eq]
  refine wp_keen_setup (k := k) (uses_issue ⟨trivial, .inl trivial⟩) hc h ?_
  intro _ w1 hc1 h1
  refine wp_keen_setup (k := k) (uses_issue ⟨⟨rfl, nofun, nofun⟩, .inl trivial⟩) hc1 h1 ?_
  intro gfrcr w2 hc2 h2
  split
  · exact wp_keen (Prog.Uses.bind (uses_issue (.inl trivial)) fun _ => trivial) h2
  rw [nm32aChanInit_dark]
  simp only [bind_assoc]
  refine wp_keen_aim (tune_chanInitDark turns _) hc2 h2 ?_
  intro _ w3 ha3 h3
  refine wp_issue (P := fun w => Aimed k w ∧ Complete i w) (Aimed.stable.and Complete.stable)
    ⟨ha3, h3⟩ ?_
  rintro w4 _ w5 ⟨ha4, h4⟩ _ ha5
  obtain ⟨hg5, h5⟩ := Complete.keeps w4 (.cwr (chipOf k) .IER 0x29) () w5
    (.inr ⟨_, _, rfl, by decide⟩) h4 ha5
  refine ⟨hg5, wp_activateRest_complete h5 ?_⟩
  rintro rfl
  subst ha5
  unfold Lit
  simp only [World.setChip, Function.update_self, Chip.write, chanNow_of_aimed ha4]
  decide

theorem wp_armTxChan_complete (x : Fin 4) (hc : w.Closed) (h : Complete i w) :
    wp writtenCard.card (Kept i) (armTxChan j x) (fun _ w' => w'.Closed ∧ Complete i w') w := by
  obtain ⟨k, rfl, rfl⟩ : ∃ k, chipOf k = j ∧ chanIx k = x :=
    ⟨portIx j x, chipOf_portIx j x, chanIx_portIx j x⟩
  have hbind : ∀ {α β : Type} {p : Drv α} {f : α → Drv β} {Q : β → World → Prop} {w : World},
      p.Uses (fun o => o.Sweep ∧ o.Keen i) → w.Closed → Complete i w →
      (∀ a w', w'.Closed → Complete i w' → wp writtenCard.card (Kept i) (f a) Q w') →
      wp writtenCard.card (Kept i) (p >>= f) Q w := by
    intro α β p f Q w hu hc h hf
    refine wp_keen_bind closed_onStacks.stable ?_ hu (fun _ ho => ho.2) hc h hf
    intro w o r w' ho hw ha
    obtain ⟨hs, hg⟩ := access_sweep ho.1 ha
    exact closed_onStacks w w' hs hg hw
  unfold armTxChan
  rw [portIx_chipOf]
  refine hbind (uses_issue ⟨trivial, .inl trivial⟩) hc h ?_
  intro _ w1 hc1 h1
  refine hbind (uses_issue ⟨trivial, .inl trivial⟩) hc1 h1 ?_
  intro np w2 hc2 h2
  refine hbind (uses_issue ⟨trivial, .inl trivial⟩) hc2 h2 ?_
  intro _ w3 hc3 h3
  split
  swap
  · exact ⟨hc3, h3⟩
  refine wp_keen_car closed_onStacks.stable (fun _ h => h) ?_ hc3 h3 ?_
  · intro w w' hw ha
    obtain ⟨hs, hg⟩ := access_setup (c := writtenCard) (setup_car (k := k)) ha
    exact closed_onStacks w w' hs hg hw
  intro w4 ha4 _ h4
  refine wp_issue (P := fun w => Aimed k w ∧ Complete i w) (Aimed.stable.and Complete.stable)
    ⟨ha4, h4⟩ ?_
  rintro w5 np w6 ⟨ha5, h5⟩ _ ⟨rfl, rfl⟩
  refine ⟨⟨h5, h5⟩, ?_⟩
  by_cases hoff : (w6.line k).np.rxOff = true
  · rw [if_pos hoff]
    refine wp_post (wp_keen_ier 0x01 ha5 h5 ?_) fun _ _ hq => ⟨hq.2.1.closed, hq.1⟩
    rintro rfl ⟨_, hon⟩
    rw [hoff] at hon
    cases hon
  · rw [if_neg hoff]
    refine wp_post (wp_keeps (P := fun w => Aimed k w ∧ Complete i w)
      (O := (· = .cwr (chipOf k) .IER 0x29)) (Aimed.stable.and Complete.stable) ?_
      (uses_issue rfl) ⟨ha5, h5⟩) fun _ _ hq => ⟨hq.1.closed, hq.2⟩
    rintro w o r w' rfl ⟨hal, hco⟩ ha
    obtain ⟨hg, hco'⟩ := Complete.keeps w (.cwr (chipOf k) .IER 0x29) r w'
      (.inr ⟨_, _, rfl, by decide⟩) hco ha
    have hbring : Op.Bringup k (.cwr (chipOf k) .IER 0x29) := .inl (.inr ⟨_, rfl⟩)
    exact ⟨hg, access_aimed (c := writtenCard) (r := r) hbring ha hal, hco'⟩

theorem wp_armTx_complete (hc : w.Closed) (h : Complete i w) :
    wp writtenCard.card (Kept i) (nm32aArmTx j) (fun _ w' => Complete i w') w := by
  have hchan : ∀ {x : Fin 4} {f : Unit → Drv Unit} {w : World}, w.Closed → Complete i w →
      (∀ w', w'.Closed → Complete i w' →
        wp writtenCard.card (Kept i) (f ()) (fun _ w' => Complete i w') w') →
      wp writtenCard.card (Kept i) (armTxChan j x >>= f) (fun _ w' => Complete i w') w :=
    fun hc h hf => (wp_bind _ _ _ _).mpr (wp_post (wp_armTxChan_complete _ hc h)
      fun _ w' hw => hf w' hw.1 hw.2)
  refine wp_keen_setup (k := i) (uses_issue ⟨trivial, .inl trivial⟩) hc h ?_
  intro _ w0 hc0 h0
  refine hchan hc0 h0 ?_
  intro w1 hc1 h1
  refine hchan hc1 h1 ?_
  intro w2 hc2 h2
  refine hchan hc2 h2 ?_
  intro w3 hc3 h3
  refine hchan hc3 h3 ?_
  intro w4 hc4 h4
  exact wp_keen (uses_issue (.inl trivial)) h4

theorem wp_call_complete (call : Call) (hter : call.SetsTermios i → ¬Live i w) (hc : w.Closed)
    (h : Complete i w) :
    wp writtenCard.card (Kept i) call.prog (fun _ w' => Complete i w') w := by
  cases call with
  | service chip => exact wp_discard (wp_post (wp_service_complete hc h) fun _ _ hq => hq.2)
  | armTx chip => exact wp_armTx_complete hc h
  | activate turns k rate => exact wp_discard (wp_activate_complete turns rate hc h)
  | setTermios turns k rate => exact wp_setTermios_complete turns rate hc h hter
  | dtrRts k active => exact wp_keen (keen_dtrRts active) h
  | shutdown k => exact wp_shutdown_complete hc h
  | sample k => exact wp_discard (wp_keen keen_sample h)

/-! ## runs of calls -/

/-- **A live port keeps its receive interest, as long as no termios is set on it.** -/
theorem receive_complete (i : Fin 32) (steps : List CallStep) (w w' : World) (hw : w.Closed)
    (hi : Complete i w) (h : CallRuns writtenCard.card w steps w')
    (hs : ∀ s ∈ steps, s.call.SetsTermios i → ¬Live i s.pre) :
    Complete i w' ∧ ∀ s ∈ steps, ∀ e ∈ s.trace, Complete i e.pre ∧ Complete i e.post := by
  have hkeep := h.keeps (P := fun w => w.Closed ∧ Complete i w)
    (Q := fun s => s.call.SetsTermios i → ¬Live i s.pre) (R := fun s => ∀ e ∈ s.trace, Kept i e)
    ?_ hs ⟨hw, hi⟩
  · exact ⟨hkeep.2.2, hkeep.1⟩
  · intro s hq hp hr
    have hcl := (wp_runs (wp_call_closed timely_writtenCard writtenCard_pick s.call hp.1) hr).2
    obtain ⟨htr, hco⟩ := wp_runs (wp_call_complete s.call hq hp.1 hp.2) hr
    exact ⟨htr, hcl, hco⟩

/-- a card at rest whose ports are closed -/
def shutWorld : World :=
  { idleWorld with line := fun _ => ⟨{ idlePort with opened := false }, false, [], [], 0⟩ }

theorem shutWorld_complete (i : Fin 32) : Complete i shutWorld := fun h => Bool.noConfusion h.1

/-- nothing happens between two operations -/
def stillScript : Script writtenCard where
  inter _ w := w
  grants w := some w.serving
  good := false
  risr := 0x80
  tftc := 16
  ok w := decide (w.par.eoiretry ≠ 0)
  rely n w h := by
    have hp : w.par.eoiretry ≠ 0 := of_decide_eq_true h
    exact Cfg.Ready.rely_refl ⟨hp, fun _ _ _ _ => trivial⟩ fun l => ⟨[], .none l⟩
  pick w j h := picks_serving h
  eoirs := one_le_hundred

/-- the step that a call makes in it -/
def stillStep (call : Call) (w : World) : CallStep where
  pre := w
  call := call
  trace := (stillScript.policy.play 0 call.prog w).1
  post := (stillScript.policy.play 0 call.prog w).2.1

theorem stillStep_runs (call : Call) (w : World)
    (h : (stillScript.policy.play 0 call.prog w).2.2.result = some ()) :
    Runs writtenCard.card (stillStep call w).call.prog (stillStep call w).pre
      (stillStep call w).trace () (stillStep call w).post :=
  stillScript.policy.play_runs 0 call.prog w h

/-- a port brought up -/
def upStep : CallStep := stillStep (.activate 1 1 9600) shutWorld

theorem upStep_runs :
    Runs writtenCard.card upStep.call.prog shutWorld upStep.trace () upStep.post :=
  stillStep_runs _ _ (by decide +kernel)

/-- termios set on a closed port, which is then brought up -/
theorem receive_complete_up : ∃ steps w', CallRuns writtenCard.card shutWorld steps w' ∧
    Live 1 w' ∧ Complete 1 w' ∧
      ∀ s ∈ steps, ∀ e ∈ s.trace, Complete 1 e.pre ∧ Complete 1 e.post := by
  let first := stillStep (.setTermios 1 1 9600) shutWorld
  let second := stillStep (.activate 1 1 9600) first.post
  have h1 := stillStep_runs (.setTermios 1 1 9600) shutWorld (by decide +kernel)
  have h2 := stillStep_runs (.activate 1 1 9600) first.post (by decide +kernel)
  have hr : CallRuns writtenCard.card shutWorld [first, second] second.post :=
    CallRuns.cons h1 (.cons h2 (.nil _))
  refine ⟨_, _, hr, by unfold Live; decide +kernel, ?_⟩
  refine receive_complete 1 _ _ _ (fun _ => rfl) (shutWorld_complete 1) hr ?_
  intro s hs hter hl
  rcases List.mem_cons.mp hs with rfl | hs
  · exact Bool.noConfusion hl.1
  · rw [List.mem_singleton] at hs
    subst hs
    exact hter

/-- a port is brought up and its termios is set: it is live, and RET is off -/
theorem receive_complete_fails : ∃ steps w', CallRuns writtenCard.card shutWorld steps w' ∧
    steps.map CallStep.call = [.activate 1 1 9600, .setTermios 1 1 9600] ∧ w'.held = false ∧
      ¬Complete 1 w' := by
  let second := stillStep (.setTermios 1 1 9600) upStep.post
  have h2 := stillStep_runs (.setTermios 1 1 9600) upStep.post (by decide +kernel)
  have hr : CallRuns writtenCard.card shutWorld [upStep, second] second.post :=
    CallRuns.cons upStep_runs (.cons h2 (.nil _))
  refine ⟨_, _, hr, rfl, by decide +kernel, ?_⟩
  intro hc
  have hlive : Live 1 second.post := by
    unfold Live
    decide +kernel
  have hdark : ¬Lit 1 second.post := by
    unfold Lit
    decide +kernel
  exact hdark (hc hlive)

end Nm32a
