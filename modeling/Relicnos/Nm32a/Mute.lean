import Relicnos.Nm32a.Transmit

/-!
# The receiver mute

`nm32a_rx_exception` silences a noisy channel: it sets `rx_off` and writes an `IER` without RxD.
Five places write `IER` and only `nm32a_arm_tx` looks at `rx_off`.  `Hush` is what the mute means
(a muted port has RxD off), and `mute_persists` says that it is kept along every run of calls in
which no muted port has its termios set, or gets a transmit service that writes nothing: those
are the two places that turn RxD on again.
-/

set_option linter.unusedVariables false

namespace Nm32a
open Interact

/-- `IER` of the channel of port `i` has the RxD bit -/
def RxD (i : Fin 32) (w : World) : Prop := (w.hw (chipOf i)).ier (chanIx i) &&& 0x08 ≠ 0

def Muted (i : Fin 32) (w : World) : Prop := (w.line i).np.rxOff = true

/-- a muted port has RxD off; `m` says that the port is known to be muted -/
structure Hush (m : Bool) (i : Fin 32) (w : World) : Prop where
  off : Muted i w → ¬RxD i w
  muted : m = true → Muted i w

/-- RxD stays off in a call that found the port muted -/
def Silent (m : Bool) (i : Fin 32) (e : Event Op Res World) : Prop := m = true → ¬RxD i e.post

/-- a transmit service of a muted port finds something to send and room for it -/
def Fed (i : Fin 32) (e : Event Op Res World) : Prop :=
  match e.op, e.res with
  | .crd j .TFTC, v => j = chipOf i → OnTop j (chanIx i) e.pre → Muted i e.pre →
      v ≠ (0 : UInt8) ∧ (e.pre.line i).np.head ≠ (e.pre.line i).np.tail
  | _, _ => True

variable {c : Cfg} {m : Bool} {i : Fin 32} {j : Fin 8} {ch : Fin 4} {w w' : World}

theorem Hush.silent (h : Hush m i w) : m = true → ¬RxD i w := fun hm => h.off (h.muted hm)

/-- nothing that the mute is about has changed -/
structure SameMute (i : Fin 32) (w w' : World) : Prop where
  rxOff : (w'.line i).np.rxOff = (w.line i).np.rxOff
  ier : (w'.hw (chipOf i)).ier (chanIx i) = (w.hw (chipOf i)).ier (chanIx i)

theorem SameMute.hush (h : SameMute i w w') (hh : Hush m i w) : Hush m i w' := by
  refine ⟨?_, ?_⟩
  · unfold Muted RxD
    rw [h.rxOff, h.ier]
    exact hh.off
  · unfold Muted
    rw [h.rxOff]
    exact hh.muted

theorem Cfg.rely.sameMute (hc : c.Tended) (h : c.rely w w') (i : Fin 32) : SameMute i w w' := by
  refine ⟨(hc _ _ (h.line i)).same.2, ?_⟩
  obtain ⟨req, more, _, he⟩ := h.chip (chipOf i)
  rw [he]

theorem Hush.stable (hc : c.Tended) : Stable c.card (Hush m i) :=
  fun w w' h hr => (hr.sameMute hc i).hush h

/-- operations that leave `IER` and `rx_off` of port `i` alone -/
def Op.Quiet (i : Fin 32) : Op → Prop
  | .cwr j reg _ => reg ≠ .IER ∨ j ≠ chipOf i
  | .setPort i' f => i' = i → ∀ b, f ≠ .rxOff b
  | _ => True

theorem write_ier {h : Chip} {reg : Reg} (v : UInt8) (hr : reg ≠ .IER) :
    (h.write reg v).ier = h.ier := by
  have he : ∀ k, (h.eoir k).ier = h.ier := by
    intro k
    unfold Chip.eoir
    repeat' split
    all_goals rfl
  cases reg
  case IER => exact absurd rfl hr
  case TDR =>
    unfold Chip.write
    simp only
    repeat' split
    all_goals rfl
  case REOIR => exact he .rx
  case TEOIR => exact he .tx
  all_goals rfl

theorem setChip_ier {h : Chip} (hs : j = chipOf i → h.ier (chanIx i) = (w.hw j).ier (chanIx i)) :
    ((w.setChip j h).hw (chipOf i)).ier (chanIx i) = (w.hw (chipOf i)).ier (chanIx i) := by
  unfold World.setChip
  by_cases e : chipOf i = j
  · subst e
    simp only [Function.update_self, hs rfl]
  · simp only [Function.update_of_ne e]

theorem setLine_rxOff {i' : Fin 32} {l : Line} (h : i' = i → l.np.rxOff = (w.line i).np.rxOff) :
    SameMute i w (w.setLine i' l) := by
  refine ⟨?_, rfl⟩
  unfold World.setLine
  by_cases e : i = i'
  · subst e
    simp only [Function.update_self, h rfl]
  · simp only [Function.update_of_ne e]

theorem access_quiet {o : Op} {r : Res o} (ho : o.Quiet i) (ha : c.access w o r w') :
    SameMute i w w' := by
  cases o with
  | crd j reg =>
    obtain ⟨h', hr, rfl⟩ := ha
    exact ⟨rfl, setChip_ier fun _ => by rw [(Chip.read_same hr).2.2]⟩
  | cwr j reg v =>
    subst ha
    refine ⟨rfl, setChip_ier fun hj => ?_⟩
    rcases ho with ho | ho
    · rw [write_ier v ho]
    · exact absurd hj ho
  | readb addr =>
    replace ha : c.Ack addr w w' := ha
    cases ha with
    | nothing h => exact ⟨rfl, rfl⟩
    | grant j x hj hx hl h0 =>
      exact ⟨rfl, setChip_ier (j := j) (h := (w.hw j).grant x) fun _ => rfl⟩
  | spinLock i' => subst ha; exact setLine_rxOff (by rintro rfl; rfl)
  | spinUnlock i' => subst ha; exact setLine_rxOff (by rintro rfl; rfl)
  | flip i' bs => subst ha; exact setLine_rxOff (by rintro rfl; rfl)
  | setPort i' f =>
    subst ha
    refine setLine_rxOff ?_
    rintro rfl
    cases f with
    | rxOff b => exact absurd rfl (ho rfl b)
    | _ => rfl
  | port i' => obtain ⟨_, rfl⟩ := ha; exact ⟨rfl, rfl⟩
  | params => obtain ⟨_, rfl⟩ := ha; exact ⟨rfl, rfl⟩
  | jiffies => obtain ⟨_, rfl⟩ := ha; exact ⟨rfl, rfl⟩
  | hang => exact False.elim ha
  | _ => subst ha; exact ⟨rfl, rfl⟩

theorem Hush.keeps : Keeps c.card (Silent m i) (Op.Quiet i) (Hush m i) := by
  intro w o r w' ho h ha
  have h' := (access_quiet ho ha).hush h
  exact ⟨h'.silent, h'⟩

/-- a write of `IER`: of another channel, or without RxD, or of a port that is not muted -/
theorem Hush.ier (h : Hush m i w) {v : UInt8}
    (hv : j = chipOf i → (w.hw j).chanNow = chanIx i → v &&& 0x08 = 0 ∨ ¬Muted i w) :
    Hush m i (w.setChip j ((w.hw j).write .IER v)) := by
  by_cases hj : j = chipOf i
  · subst hj
    by_cases hch : (w.hw (chipOf i)).chanNow = chanIx i
    · have he : ((w.setChip (chipOf i) ((w.hw (chipOf i)).write .IER v)).hw (chipOf i)).ier
          (chanIx i) = v := by
        simp only [World.setChip, Function.update_self, Chip.write, hch]
      rcases hv rfl hch with hv | hv
      · refine ⟨fun _ hr => ?_, h.muted⟩
        unfold RxD at hr
        rw [he] at hr
        exact hr hv
      · exact ⟨fun hm => absurd hm hv, h.muted⟩
    · have hs : SameMute i w (w.setChip (chipOf i) ((w.hw (chipOf i)).write .IER v)) := by
        refine ⟨rfl, ?_⟩
        simp only [World.setChip, Function.update_self, Chip.write]
        rw [Function.update_of_ne (Ne.symm hch)]
      exact hs.hush h
  · have hs : SameMute i w (w.setChip j ((w.hw j).write .IER v)) := by
      refine ⟨rfl, ?_⟩
      simp only [World.setChip, Function.update_of_ne (Ne.symm hj)]
    exact hs.hush h

theorem chanNow_of_aimed {k : Fin 32} (h : Aimed k w) : (w.hw (chipOf k)).chanNow = chanIx k := by
  unfold Chip.chanNow
  rw [h.closed (chipOf k)]
  exact h.car

theorem chanNow_of_top (h : OnTop j ch w) : (w.hw j).chanNow = ch := by
  obtain ⟨x, rest, hs, _, hc⟩ := h
  unfold Chip.chanNow
  rw [hs]
  exact hc

/-- two ports are the same if their chips and channels are -/
theorem port_ext {k : Fin 32} (h1 : chipOf k = chipOf i) (h2 : chanIx k = chanIx i) : k = i := by
  rw [← portIx_chipOf k, h1, h2, portIx_chipOf]

/-! ## which operations are quiet -/

theorem Op.Peek.quiet {o : Op} (h : o.Peek j) : o.Quiet i := by
  cases o with
  | cwr j' reg v => exact False.elim h
  | setPort i' f => exact False.elim h
  | _ => trivial

theorem Op.Fetch.quiet {o : Op} (h : o.Fetch j) : o.Quiet i := by
  rcases h with rfl | rfl <;> trivial

theorem Op.Hands.quiet {i' : Fin 32} {o : Op} (h : o.Hands i') : o.Quiet i := by
  rcases h with rfl | ⟨bs, rfl⟩ <;> trivial

theorem Op.Sends.quiet {i' : Fin 32} {o : Op} (h : o.Sends j i') : o.Quiet i := by
  rcases h with rfl | ⟨v, rfl⟩ | ⟨v, rfl⟩
  · trivial
  · exact .inl nofun
  · exact fun _ b => nofun

theorem Op.Ends.quiet {k : Kind} {o : Op} (h : o.Ends j (eoirReg k)) : o.Quiet i := by
  rcases h with h | ⟨v, rfl⟩
  · exact h.quiet
  · exact .inl (by cases k <;> nofun)

theorem Op.Setup.quiet {k : Fin 32} {o : Op} (h : o.Setup k) : o.Quiet i := by
  cases o with
  | cwr j' reg v => exact .inl h.2.2.1
  | setPort i' f =>
    obtain ⟨_, b, rfl⟩ := h
    exact fun _ b => nofun
  | _ => trivial

/-! ## the card of the runs whose transmit services are fed -/

def fedCard (i : Fin 32) : Env Op Res World := tendedCard.card.assume (Fed i)

theorem fedCard_le : (fedCard i).Le tendedCard.card := tendedCard.card.assume_le (Fed i)

theorem Hush.fedStable : Stable (fedCard i) (Hush m i) :=
  (Hush.stable tendedCard_tended).le fedCard_le

theorem Hush.fedKeeps : Keeps (fedCard i) (Silent m i) (Op.Quiet i) (Hush m i) :=
  Hush.keeps.le fedCard_le

theorem fed_quiet {k : Fin 32} {o : Op} {r : Res o} (ha : (fedCard k).access w o r w')
    (ho : o.Quiet i) : SameMute i w w' := access_quiet ho ha.1

theorem fed_aimed {k : Fin 32} {o : Op} {r : Res o} (ha : (fedCard i).access w o r w')
    (ho : o.Bringup k) (h : Aimed k w) : Aimed k w' := access_aimed ho ha.1 h

/-- a quiet program -/
theorem wp_quiet {α : Type} {p : Drv α} (hp : p.Uses (Op.Quiet i)) (h : Hush m i w) :
    wp (fedCard i) (Silent m i) p (fun _ w' => Hush m i w') w :=
  wp_keeps Hush.fedStable Hush.fedKeeps hp h

/-- a quiet program after which the same assertion about the contexts holds -/
theorem wp_quiet_bind {α β : Type} {p : Drv α} {f : α → Drv β} {O : Op → Prop}
    {P : World → Prop} {Q : β → World → Prop} (hP : Stable tendedCard.card P)
    (hk : ∀ w o r w', O o → P w → tendedCard.access w o r w' → P w') (hu : p.Uses O)
    (hq : ∀ o, O o → o.Quiet i) (h : P w) (hh : Hush m i w)
    (hf : ∀ a w', P w' → Hush m i w' → wp (fedCard i) (Silent m i) (f a) Q w') :
    wp (fedCard i) (Silent m i) (p >>= f) Q w := by
  refine wp_bind_keeps (P := fun w => P w ∧ Hush m i w) ((hP.le fedCard_le).and Hush.fedStable)
    ?_ hu ⟨h, hh⟩ (fun a w' hw => hf a w' hw.1 hw.2)
  intro w o r w' ho hw ha
  obtain ⟨hg, hh'⟩ := Hush.fedKeeps w o r w' (hq o ho) hw.2 ha
  exact ⟨hg, hk w o r w' ho hw.1 ha.1, hh'⟩

/-! ## receive services -/

/-- what accounting an exception does to the port -/
def Op.Counts (k : Fin 32) (o : Op) : Prop :=
  o = .jiffies ∨ o = .port k ∨ ∃ f, o = .setPort k f ∧ ∀ b, f ≠ .rxOff b

theorem Op.Counts.quiet {k : Fin 32} {o : Op} (h : o.Counts k) : o.Quiet i := by
  rcases h with rfl | rfl | ⟨f, rfl, hf⟩
  · trivial
  · trivial
  · exact fun _ => hf

theorem uses_errWindow (k : Fin 32) : (errWindow k).Uses (Op.Counts k) := by
  refine Prog.Uses.bind (uses_issue (.inl rfl)) ?_
  intro now
  refine Prog.Uses.bind (uses_issue (.inr (.inl rfl))) ?_
  intro np
  refine Prog.Uses.ite ?_ trivial
  refine Prog.Uses.bind (uses_issue (.inl rfl)) ?_
  intro now
  refine Prog.Uses.bind (uses_issue (.inr (.inr ⟨_, rfl, nofun⟩))) ?_
  intro _
  exact uses_issue (.inr (.inr ⟨_, rfl, nofun⟩))

theorem access_counts {k : Fin 32} {o : Op} {r : Res o} (ho : o.Counts k)
    (ha : c.access w o r w') (h : w.Closed) : w'.Closed := by
  rcases ho with rfl | rfl | ⟨f, rfl, _⟩
  · obtain ⟨_, rfl⟩ := ha; exact h
  · obtain ⟨_, rfl⟩ := ha; exact h
  · subst ha; exact h

/-- the last part of `nm32a_rx_exception`, for a port that is not muted -/
theorem wp_mutePort (k : Fin 32) (hc : w.Closed) (h : Hush m i w)
    (hk : k = i → ¬Muted i w) : wp (fedCard i) (Silent m i) (do
      setPort k (.rxOff true)
      cwr (chipOf k) .CAR (UInt8.ofNat (chanIx k).val)
      cwr (chipOf k) .IER 0x01) (fun _ w' => Hush m i w') w := by
  have hm : k = i → m ≠ true := fun e hm => hk e (h.muted hm)
  -- until `IER` is written a port that is being muted may still have RxD on
  have hst : Stable (fedCard i) fun w => w.Closed ∧ (k ≠ i → Hush m i w) := by
    intro w w' hw hr
    exact ⟨closed_onStacks w w' hr.stack hr.granted hw.1,
      fun e => Hush.fedStable w w' (hw.2 e) hr⟩
  have hst' : Stable (fedCard i) fun w => Aimed k w ∧ (k ≠ i → Hush m i w) := by
    intro w w' hw hr
    exact ⟨Aimed.stable w w' hw.1 hr, fun e => Hush.fedStable w w' (hw.2 e) hr⟩
  refine wp_issueIn fedCard_le hst ⟨hc, fun _ => h⟩ ?_
  intro w1 _ w2 h1 _ ha2
  have h2 : k ≠ i → Hush m i w2 := fun e =>
    (fed_quiet ha2 fun e' => absurd e' e).hush (h1.2 e)
  have hc2 : w2.Closed := by
    obtain ⟨rfl, _⟩ := ha2
    exact h1.1
  refine ⟨fun ht => ?_, ?_⟩
  · by_cases e : k = i
    · exact absurd ht (hm e)
    · exact (h2 e).silent ht
  refine wp_issueIn fedCard_le hst ⟨hc2, h2⟩ ?_
  intro w3 _ w4 h3 _ ha4
  have h4 : k ≠ i → Hush m i w4 := fun e =>
    (fed_quiet ha4 (.inl nofun)).hush (h3.2 e)
  have ha : Aimed k w4 := by
    obtain ⟨rfl, _⟩ := ha4
    exact aimed_car h3.1
  refine ⟨fun ht => ?_, ?_⟩
  · by_cases e : k = i
    · exact absurd ht (hm e)
    · exact (h4 e).silent ht
  intro w5 hr5 _ w6 ha6
  have h5 := hst' w4 w5 ⟨ha, h4⟩ hr5
  have h6 : Hush m i w6 := by
    obtain ⟨rfl, _⟩ := ha6
    by_cases e : k = i
    · subst e
      refine ⟨fun _ hr => ?_, fun ht => absurd ht (hm rfl)⟩
      unfold RxD at hr
      simp only [World.setChip, Function.update_self, Chip.write, chanNow_of_aimed h5.1] at hr
      exact hr (by decide)
    · refine (h5.2 e).ier fun hj hch => ?_
      rw [chanNow_of_aimed h5.1] at hch
      exact absurd (port_ext hj hch) e
  exact ⟨h6.silent, h6⟩

theorem wp_rxException_hush (hc : w.Closed) (h : Hush m i w) :
    wp (fedCard i) (Silent m i) (nm32aRxException j ch) (fun _ w' => Hush m i w') w := by
  obtain ⟨k, rfl, rfl⟩ : ∃ k, chipOf k = j ∧ chanIx k = ch :=
    ⟨portIx j ch, chipOf_portIx j ch, chanIx_portIx j ch⟩
  rw [nm32aRxException_eq]
  refine wp_quiet_bind closed_onStacks.stable (fun _ _ _ _ ho h ha => access_counts ho ha h)
    (uses_errWindow k) (fun _ => Op.Counts.quiet) hc h ?_
  intro _ w1 hc1 h1
  refine wp_issueIn (P := fun w => w.Closed ∧ Hush m i w) fedCard_le
    ((closed_onStacks.stable.le fedCard_le).and Hush.fedStable) ⟨hc1, h1⟩ ?_
  rintro w2 np w3 ⟨hc2, h2⟩ _ ⟨⟨rfl, rfl⟩, _⟩
  refine ⟨h2.silent, ?_⟩
  -- `rx_off` is still what was read when it is tested
  have hst : Stable tendedCard.card fun w => w.Closed ∧
      (w.line k).np.rxOff = (w3.line k).np.rxOff := by
    intro w w' hw hr
    exact ⟨closed_onStacks w w' hr.stack hr.granted hw.1,
      (hr.sameMute tendedCard_tended k).rxOff.trans hw.2⟩
  refine wp_quiet_bind (O := fun o => ∃ v, o = .setPort k (.errCnt v)) hst ?_
    (uses_issue ⟨_, rfl⟩) ?_ ⟨hc2, rfl⟩ h2 ?_
  · rintro w _ r w' ⟨v, rfl⟩ hw ha
    exact ⟨access_counts (.inr (.inr ⟨.errCnt v, rfl, nofun⟩)) ha hw.1,
      (access_quiet (i := k) (o := .setPort k (.errCnt v)) (fun _ _ => nofun) ha).rxOff.trans hw.2⟩
  · rintro _ ⟨v, rfl⟩ _ b
    nofun
  rintro _ w4 ⟨hc4, he⟩ h4
  split
  · exact h4
  · rename_i hoff
    refine wp_mutePort k hc4 h4 ?_
    rintro rfl hmu
    exact hoff (.inr (he.symm.trans hmu))

theorem wp_serviceRx_hush (tr : Bool) (rir0 : UInt8) (hin : Inside tendedCard j .rx (chanOf rir0) w)
    (h : Hush m i w) :
    wp (fedCard i) (Silent m i) (serviceRx j tr rir0) (fun _ w' => Hush m i w') w := by
  have hfetch : ∀ {p : Drv (List UInt8)}, p.Uses (Op.Fetch j) → p.Uses (Op.Quiet i) :=
    fun hu => hu.mono fun _ => Op.Fetch.quiet
  have heoi : ∀ v, (nm32aEoi j .REOIR v).Uses (Op.Quiet i) :=
    fun v => (uses_eoi .REOIR v).mono fun o ho => Op.Ends.quiet (k := .rx) ho
  have hhand : ∀ bs, (deliver (portIx j (chanOf rir0)) bs).Uses (Op.Quiet i) :=
    fun bs => (hands_deliver _ bs).mono fun _ => Op.Hands.quiet
  unfold serviceRx
  split
  · refine wp_quiet_bind (Inside.onStacks (c := tendedCard)).stable ?_
      (uses_issue (O := (· = .crd j .RISRl)) rfl) (by rintro o rfl; trivial) hin h ?_
    · rintro w o r w' rfl hw ha
      obtain ⟨h1, _, h3⟩ := access_look (o := .crd j .RISRl) ⟨nofun, nofun⟩ ha
      exact Inside.onStacks w w' (fun i => by rw [h1]) h3 hw
    intro erisr w1 hin1 h1
    split
    · refine wp_quiet ?_ h1
      refine Prog.Uses.bind (uses_issue trivial) ?_
      intro rfoc
      refine Prog.Uses.bind (hfetch (fetch_drain _)) ?_
      intro bs
      refine Prog.Uses.bind (heoi _) ?_
      intro _
      exact Prog.Uses.bind (hhand bs) fun _ => uses_issue trivial
    · have hwithin : ∀ w o r w', Op.Fetch j o → Inside tendedCard j .rx (chanOf rir0) w →
          tendedCard.access w o r w' → Inside tendedCard j .rx (chanOf rir0) w' :=
        fun w o r w' ho hw ha => (Inside.keeps w o r w' ho.within hw ha).2
      refine wp_quiet_bind Inside.onStacks.stable hwithin (fetch_traceException tr)
        (fun _ => Op.Fetch.quiet) hin1 h1 ?_
      intro _ w2 hin2 h2
      refine wp_quiet_bind Inside.onStacks.stable hwithin (fetch_dropBad erisr)
        (fun _ => Op.Fetch.quiet) hin2 h2 ?_
      intro _ w3 hin3 h3
      have he := wp_le (fedCard_le (i := i)) (wp_eoi (G := fun _ => True) (fun _ _ => trivial)
        (fun _ _ _ _ _ => trivial) timely_tendedCard 0x00 hin3.closing)
      refine (wp_bind _ _ _ _).mpr (wp_mono (wp_and he (wp_quiet (heoi 0x00) h3))
        (fun _ hg => hg.2) ?_)
      rintro _ w4 ⟨ho, h4⟩
      refine (wp_bind _ _ _ _).mpr (wp_post (wp_rxException_hush ho.closed h4) ?_)
      intro _ w5 h5
      exact wp_quiet (uses_issue trivial) h5
  · refine wp_quiet ?_ h
    refine Prog.Uses.bind (uses_issue trivial) ?_
    intro rfoc
    refine Prog.Uses.bind (hfetch (fetch_drain _)) ?_
    intro bs
    refine Prog.Uses.bind (heoi _) ?_
    intro _
    exact Prog.Uses.bind (uses_issue trivial) fun _ => hhand bs

/-! ## transmit services -/

theorem access_sends {p : Fin 32} {o : Op} {r : Res o} (ho : o.Sends j p)
    (ha : c.access w o r w') (h : OnTop j ch w) : OnTop j ch w' := by
  rcases ho with rfl | ⟨v, rfl⟩ | ⟨v, rfl⟩
  · obtain ⟨_, rfl⟩ := ha; exact h
  · subst ha; exact h.setChip (write_tdr h v).1
  · subst ha; exact OnTop.onStacks w _ (fun _ => rfl) rfl h

/-- the loop of a service that is fed, if the port is muted, writes something -/
theorem wp_txLoop_hush (room : UInt8) (ht : OnTop j ch w) (h : Hush m i w)
    (hl : (w.line (portIx j ch)).locked = true)
    (hf : portIx j ch = i → Muted i w →
      room ≠ 0 ∧ (w.line i).np.head ≠ (w.line i).np.tail) :
    wp (fedCard i) (Silent m i) (txLoop j (portIx j ch) (min room.toNat 16))
      (fun n w' => OnTop j ch w' ∧ Hush m i w' ∧ (portIx j ch = i → Muted i w' → n ≠ 0)) w := by
  have hst : Stable tendedCard.card (OnTop j ch) := OnTop.onStacks.stable
  by_cases hm : portIx j ch = i ∧ Muted i w
  · obtain ⟨rfl, hmu⟩ := hm
    obtain ⟨h0, hne⟩ := hf rfl hmu
    obtain ⟨n, hn⟩ : ∃ n, min room.toNat 16 = n + 1 := by
      have hpos : room.toNat ≠ 0 := fun e => h0 (UInt8.toNat_inj.mp e)
      exact ⟨min room.toNat 16 - 1, by omega⟩
    rw [hn]
    unfold txLoop
    refine wp_issueIn (P := fun w' => (OnTop j ch w' ∧ Hush m (portIx j ch) w') ∧
      w'.line (portIx j ch) = w.line (portIx j ch) ) fedCard_le ?_ ⟨⟨ht, h⟩, rfl⟩ ?_
    · intro w1 w2 hw hr
      refine ⟨⟨hst w1 w2 hw.1.1 hr, Hush.fedStable w1 w2 hw.1.2 hr⟩, ?_⟩
      rw [hr.lineLocked tendedCard_tended (by rw [hw.2]; exact hl)]
      exact hw.2
    rintro _ np w1 ⟨⟨ht1, h1⟩, he⟩ _ ⟨⟨rfl, rfl⟩, _⟩
    refine ⟨h1.silent, ?_⟩
    rw [he, if_neg hne]
    have hbind : ∀ {α β : Type} {p : Drv α} {f : α → Drv β} {Q : β → World → Prop} {w : World},
        p.Uses (Op.Sends j (portIx j ch)) → OnTop j ch w → Hush m (portIx j ch) w →
        (∀ a w', OnTop j ch w' → Hush m (portIx j ch) w' →
          wp (fedCard (portIx j ch)) (Silent m (portIx j ch)) (f a) Q w') →
        wp (fedCard (portIx j ch)) (Silent m (portIx j ch)) (p >>= f) Q w :=
      fun hu ht h hf => wp_quiet_bind hst (fun _ _ _ _ ho hw ha => access_sends ho ha hw) hu
        (fun _ => Op.Sends.quiet) ht h hf
    refine hbind (uses_issue (.inr (.inl ⟨_, rfl⟩))) ht1 h1 ?_
    intro _ w2 ht2 h2
    refine hbind (uses_issue (.inr (.inr ⟨_, rfl⟩))) ht2 h2 ?_
    intro _ w3 ht3 h3
    refine hbind (sends_txLoop n _) ht3 h3 ?_
    intro k w4 ht4 h4
    exact ⟨ht4, h4, fun _ _ => Nat.succ_ne_zero k⟩
  · have hst' : Stable (fedCard i) fun w => OnTop j ch w ∧ Hush m i w ∧
        ¬(portIx j ch = i ∧ Muted i w) := by
      intro w1 w2 hw hr
      refine ⟨hst w1 w2 hw.1 hr, Hush.fedStable w1 w2 hw.2.1 hr, fun hm => hw.2.2 ⟨hm.1, ?_⟩⟩
      exact (hr.sameMute tendedCard_tended i).rxOff.symm.trans hm.2
    refine wp_post (wp_keeps hst' ?_ (sends_txLoop _ _) ⟨ht, h, hm⟩) ?_
    · intro w1 o r w2 ho hw ha
      obtain ⟨hg, h2⟩ := Hush.fedKeeps w1 o r w2 ho.quiet hw.2.1 ha
      refine ⟨hg, access_sends ho ha.1 hw.1, h2, fun hm => hw.2.2 ⟨hm.1, ?_⟩⟩
      exact (fed_quiet ha ho.quiet).rxOff.symm.trans hm.2
    · intro n w' hw
      exact ⟨hw.1, hw.2.1, fun e hmu => absurd ⟨e, hmu⟩ hw.2.2⟩

theorem wp_serviceTx_hush (ht : OnTop j ch w) (h : Hush m i w) :
    wp (fedCard i) (Silent m i) (serviceTx j ch) (fun _ w' => Hush m i w') w := by
  have hst : Stable (fedCard i) fun w => OnTop j ch w ∧ Hush m i w :=
    (OnTop.onStacks.stable.le fedCard_le).and Hush.fedStable
  have hlk : Stable (fedCard i) fun w => (OnTop j ch w ∧ Hush m i w) ∧
      (w.line (portIx j ch)).locked = true := by
    intro w w' hw hr
    refine ⟨hst w w' hw.1 hr, ?_⟩
    rw [hr.lineLocked tendedCard_tended hw.2]
    exact hw.2
  unfold serviceTx
  refine wp_issueIn fedCard_le hst ⟨ht, h⟩ ?_
  intro w1 _ w2 h1 _ ha2
  have hh2 := (fed_quiet (i := i) ha2 trivial).hush h1.2
  obtain ⟨rfl, _⟩ := ha2
  refine ⟨hh2.silent, ?_⟩
  refine wp_issueIn fedCard_le hlk
    ⟨⟨OnTop.onStacks w1 _ (fun _ => rfl) rfl h1.1, hh2⟩, ?_⟩ ?_
  · simp only [World.setLine, Function.update_self]
  intro w3 room w4 h3 _ ha4
  have hh4 := (fed_quiet (i := i) ha4 trivial).hush h3.1.2
  obtain ⟨⟨h', rfl, rfl⟩, hfed⟩ := ha4
  refine ⟨hh4.silent, ?_⟩
  have hf : portIx j ch = i → Muted i w3 →
      room ≠ (0 : UInt8) ∧ (w3.line i).np.head ≠ (w3.line i).np.tail := by
    rintro rfl hmu
    exact hfed (chipOf_portIx j ch).symm (by rw [chanIx_portIx]; exact h3.1.1) hmu
  refine (wp_bind _ _ _ _).mpr (wp_post (wp_txLoop_hush room ?_ hh4 h3.2 hf) ?_)
  · exact OnTop.onStacks w3 _ (fun i => by simp [World.setChip]) rfl h3.1.1
  rintro n w5 ⟨ht5, h5, hn⟩
  have hrest : ∀ w6, Hush m i w6 → wp (fedCard i) (Silent m i)
      (do
        nm32aEoi j .TEOIR (if n ≠ 0 then 0x00 else 0x08)
        spinUnlock (portIx j ch)
        hwUnlock) (fun _ w' => Hush m i w') w6 := by
    intro w6 h6
    refine wp_quiet ?_ h6
    refine Prog.Uses.bind ((uses_eoi .TEOIR _).mono fun o ho => Op.Ends.quiet (k := .tx) ho) ?_
    intro _
    exact Prog.Uses.bind (uses_issue trivial) fun _ => uses_issue trivial
  refine (wp_bind _ _ _ _).mpr
    (wp_post (Q := fun _ w' => Hush m i w') ?_ fun _ w6 h6 => hrest w6 h6)
  unfold txIdle
  split
  · rename_i h0
    -- the write that turns RxD on: the port is another one, or it is not muted
    have hst' : Stable (fedCard i) fun w => (OnTop j ch w ∧ Hush m i w) ∧
        (portIx j ch = i → ¬Muted i w) := by
      intro w w' hw hr
      refine ⟨hst w w' hw.1 hr, fun e hmu => hw.2 e ?_⟩
      exact (hr.sameMute tendedCard_tended i).rxOff.symm.trans hmu
    intro w6 hr6 _ w7 ha7
    obtain ⟨⟨ht6, h6⟩, hn6⟩ := hst' w5 w6 ⟨⟨ht5, h5⟩, fun e hmu => hn e hmu h0⟩ hr6
    have h7 : Hush m i w7 := by
      obtain ⟨rfl, _⟩ := ha7
      refine h6.ier fun hj hch => .inr (hn6 ?_)
      rw [chanNow_of_top ht6] at hch
      rw [hj, hch, portIx_chipOf]
    exact ⟨h7.silent, h7⟩
  · exact h5

/-! ## the calls -/

theorem inside_onTop (h : Inside c j .tx ch w) : OnTop j ch w := by
  obtain ⟨x, h, hk, hc, _⟩ := h
  exact ⟨x, [], h.here, hk, hc⟩

theorem wp_service_hush (hc : w.Closed) (h : Hush m i w) :
    wp (fedCard i) (Silent m i) (nm32aService j) (fun _ w' => w'.Closed ∧ Hush m i w') w := by
  refine wp_service_rule (H := Hush m i) (c := tendedCard) fedCard_le
    (fun w i' hs _ hp _ _ _ => (tendedCard_pick w i' hp).trans hs) Hush.fedStable
    (Hush.fedKeeps.mono fun _ h => h.peek.quiet) ?_ ?_ ?_ ?_ hc h
  · intro w addr v w' hw ha
    have h' := (access_quiet (c := tendedCard) (i := i) (o := .readb addr) (r := v) trivial
      ha).hush hw
    exact ⟨h'.silent, h'⟩
  · intro w w' _ hw ha
    exact Hush.fedKeeps w .unlock () w' trivial hw ha
  · intro tr rir0 x w hw hx hk hch _
    have hin := hx.inside
    rw [hk, hch] at hin
    exact wp_mono (wp_and
      (wp_le fedCard_le (wp_serviceRx allows_disciplined timely_tendedCard tr rir0 hin))
      (wp_serviceRx_hush tr rir0 hin hw)) (fun _ hg => hg.2) (fun _ _ hq => hq)
  · intro x w hw hx hk
    have hin := hx.inside
    rw [hk] at hin
    exact wp_mono (wp_and (wp_le fedCard_le (wp_serviceTx allows_disciplined timely_tendedCard hin))
      (wp_serviceTx_hush (inside_onTop hin) hw)) (fun _ hg => hg.2) (fun _ _ hq => hq)

/-- a call that only sets its port up, before it has addressed its channel -/
theorem wp_setup_bind {α β : Type} {k : Fin 32} {p : Drv α} {f : α → Drv β}
    {Q : β → World → Prop} (hu : p.Uses (Op.Setup k)) (hc : w.Closed) (h : Hush m i w)
    (hf : ∀ a w', w'.Closed → Hush m i w' → wp (fedCard i) (Silent m i) (f a) Q w') :
    wp (fedCard i) (Silent m i) (p >>= f) Q w := by
  refine wp_quiet_bind closed_onStacks.stable ?_ hu (fun _ => Op.Setup.quiet) hc h hf
  intro w o r w' ho hw ha
  obtain ⟨hs, hg⟩ := access_setup ho ha
  exact closed_onStacks w w' hs hg hw

/-- the write of `CAR` with which it does -/
theorem wp_aim_bind {β : Type} {k : Fin 32} {f : Unit → Drv β} {Q : β → World → Prop}
    (hc : w.Closed) (h : Hush m i w)
    (hf : ∀ w', Aimed k w' → Hush m i w' → wp (fedCard i) (Silent m i) (f ()) Q w') :
    wp (fedCard i) (Silent m i) (cwr (chipOf k) .CAR (UInt8.ofNat (chanIx k).val) >>= f) Q w := by
  refine wp_issueIn (P := fun w => w.Closed ∧ Hush m i w) fedCard_le
    ((closed_onStacks.stable.le fedCard_le).and Hush.fedStable) ⟨hc, h⟩ ?_
  intro w1 _ w2 h1 _ ha
  have h2 := (fed_quiet (i := i) ha (.inl nofun)).hush h1.2
  obtain ⟨rfl, _⟩ := ha
  exact ⟨h2.silent, hf _ (aimed_car h1.1) h2⟩

/-- after it, what the call does is about its own channel -/
theorem wp_aimed {α : Type} {k : Fin 32} {p : Drv α} (hk : k ≠ i) (hu : p.Uses (Op.Bringup k))
    (ha : Aimed k w) (h : Hush m i w) :
    wp (fedCard i) (Silent m i) p (fun _ w' => Aimed k w' ∧ Hush m i w') w := by
  refine wp_keeps (P := fun w => Aimed k w ∧ Hush m i w)
    ((Aimed.stable.le fedCard_le).and Hush.fedStable) ?_ hu ⟨ha, h⟩
  intro w o r w' ho hw hacc
  have ha' := access_aimed ho hacc.1 hw.1
  have hh' : Hush m i w' := by
    rcases ho with (ho | ⟨v, rfl⟩) | ⟨f, rfl⟩
    · exact (fed_quiet hacc ho.quiet).hush hw.2
    · obtain ⟨rfl, _⟩ := hacc
      refine hw.2.ier fun hj hch => ?_
      rw [chanNow_of_aimed hw.1] at hch
      exact absurd (port_ext hj hch) hk
    · exact (fed_quiet hacc fun e => absurd e hk).hush hw.2
  exact ⟨hh'.silent, ha', hh'⟩

theorem wp_activate_hush {k : Fin 32} (turns rate : Nat) (hk : k ≠ i) (hc : w.Closed)
    (h : Hush m i w) :
    wp (fedCard i) (Silent m i) (nm32aPortActivate turns k rate) (fun _ w' => Hush m i w') w := by
  rw [nm32aPortActivate_eq]
  refine wp_setup_bind (k := k) (uses_issue trivial) hc h ?_
  intro _ w1 hc1 h1
  refine wp_setup_bind (k := k) (uses_issue ⟨rfl, nofun, nofun⟩) hc1 h1 ?_
  intro gfrcr w2 hc2 h2
  split
  · exact wp_quiet (Prog.Uses.bind (uses_issue trivial) fun _ => trivial) h2
  refine (wp_bind _ _ _ _).mpr (wp_post (Q := fun _ w' => Aimed k w' ∧ Hush m i w') ?_ ?_)
  · rw [nm32aChanInit_eq]
    refine wp_aim_bind hc2 h2 ?_
    intro w3 ha3 h3
    refine wp_aimed hk ?_ ha3 h3
    refine uses_write (.inl (.inl ⟨rfl, trivial, nofun, nofun, nofun⟩)) ?_
    refine Prog.Uses.bind ((uses_setRate _).mono fun _ h => .inl (.inl h)) ?_
    intro _
    refine uses_write (.inl (.inl ⟨rfl, trivial, nofun, nofun, nofun⟩)) ?_
    refine uses_write (.inl (.inl ⟨rfl, trivial, nofun, nofun, nofun⟩)) ?_
    refine uses_write (.inl (.inl ⟨rfl, trivial, nofun, nofun, fun _ => rfl⟩)) ?_
    refine Prog.Uses.bind ((uses_chanInitRest turns).mono fun _ h => .inl (.inl h)) ?_
    intro _
    exact uses_issue (.inl (.inr ⟨_, rfl⟩))
  · rintro _ w4 ⟨ha4, h4⟩
    exact wp_post (wp_aimed hk uses_activateRest ha4 h4) fun _ _ hq => hq.2

theorem wp_setTermios_hush {k : Fin 32} (turns rate : Nat) (hk : k ≠ i) (hc : w.Closed)
    (h : Hush m i w) :
    wp (fedCard i) (Silent m i) (nm32aTtySetTermios turns k rate) (fun _ w' => Hush m i w') w := by
  refine wp_setup_bind (k := k) (uses_issue trivial) hc h ?_
  intro _ w1 hc1 h1
  refine wp_aim_bind hc1 h1 ?_
  intro w2 ha2 h2
  refine wp_post (wp_aimed hk ?_ ha2 h2) fun _ _ hq => hq.2
  refine Prog.Uses.bind ((uses_setRate _).mono fun _ h => .inl (.inl h)) ?_
  intro _
  refine uses_write (.inl (.inl ⟨rfl, trivial, nofun, nofun, nofun⟩)) ?_
  refine Prog.Uses.bind ((uses_ccrWait turns).mono fun _ h => .inl (.inl h)) ?_
  intro _
  refine uses_write (.inl (.inl ⟨rfl, trivial, nofun, nofun, nofun⟩)) ?_
  refine Prog.Uses.bind ((uses_ccrWait turns).mono fun _ h => .inl (.inl h)) ?_
  intro _
  refine uses_write (.inl (.inr ⟨_, rfl⟩)) ?_
  exact uses_issue (.inl (.inl trivial))

/-- on the port itself, as long as it is not muted -/
theorem wp_setTermios_self (turns rate : Nat) (h : ¬Muted i w) :
    wp (fedCard i) (Silent false i) (nm32aTtySetTermios turns i rate)
      (fun _ w' => Hush false i w') w := by
  have hst : Stable (fedCard i) fun w => ¬Muted i w :=
    fun w w' hw hr hm => hw ((hr.sameMute tendedCard_tended i).rxOff.symm.trans hm)
  refine wp_post (wp_keeps hst ?_ (uses_setTermios turns rate) h)
    fun _ _ hm => ⟨fun h => absurd h hm, nofun⟩
  intro w o r w' ho hw ha
  refine ⟨nofun, ?_⟩
  rcases ho with ho | ⟨v, rfl⟩
  · exact fun hm => hw ((fed_quiet ha ho.quiet).rxOff.symm.trans hm)
  · obtain ⟨rfl, _⟩ := ha
    exact hw

theorem wp_shutdown_hush {k : Fin 32} (hc : w.Closed) (h : Hush m i w) :
    wp (fedCard i) (Silent m i) (nm32aPortShutdown k) (fun _ w' => Hush m i w') w := by
  refine wp_setup_bind (k := k) (uses_issue trivial) hc h ?_
  intro _ w1 hc1 h1
  refine wp_setup_bind (k := k) (uses_issue ⟨rfl, _, rfl⟩) hc1 h1 ?_
  intro _ w2 hc2 h2
  refine wp_setup_bind (k := k) (uses_issue setup_car) hc2 h2 ?_
  intro _ w3 _ h3
  refine wp_issueIn fedCard_le Hush.fedStable h3 ?_
  rintro w4 _ _ h4 _ ⟨rfl, _⟩
  have h5 : Hush m i (w4.setChip (chipOf k) ((w4.hw (chipOf k)).write .IER 0x00)) :=
    h4.ier fun _ _ => .inl (by decide)
  refine ⟨h5.silent, wp_quiet ?_ h5⟩
  refine Prog.Uses.bind ((uses_setMctrl false).mono fun _ => Op.Setup.quiet) ?_
  intro _
  exact uses_issue trivial

/-- re-arming a channel respects the mute -/
theorem wp_armTxChan_hush (x : Fin 4) (hc : w.Closed) (h : Hush m i w) :
    wp (fedCard i) (Silent m i) (armTxChan j x) (fun _ w' => w'.Closed ∧ Hush m i w') w := by
  obtain ⟨k, rfl, rfl⟩ : ∃ k, chipOf k = j ∧ chanIx k = x :=
    ⟨portIx j x, chipOf_portIx j x, chanIx_portIx j x⟩
  have hquiet : ∀ {α β : Type} {p : Drv α} {f : α → Drv β} {Q : β → World → Prop} {w : World},
      p.Uses (fun o => o.Sweep ∧ o.Quiet i) → w.Closed → Hush m i w →
      (∀ a w', w'.Closed → Hush m i w' → wp (fedCard i) (Silent m i) (f a) Q w') →
      wp (fedCard i) (Silent m i) (p >>= f) Q w := by
    intro α β p f Q w hu hc h hf
    refine wp_quiet_bind closed_onStacks.stable ?_ hu (fun _ ho => ho.2) hc h hf
    intro w o r w' ho hw ha
    obtain ⟨hs, hg⟩ := access_sweep ho.1 ha
    exact closed_onStacks w w' hs hg hw
  unfold armTxChan
  rw [portIx_chipOf]
  refine hquiet (uses_issue ⟨trivial, trivial⟩) hc h ?_
  intro _ w1 hc1 h1
  refine hquiet (uses_issue ⟨trivial, trivial⟩) hc1 h1 ?_
  intro np w2 hc2 h2
  refine hquiet (uses_issue ⟨trivial, trivial⟩) hc2 h2 ?_
  intro _ w3 hc3 h3
  split
  swap
  · exact ⟨hc3, h3⟩
  refine wp_aim_bind hc3 h3 ?_
  intro w4 ha4 h4
  refine wp_issueIn (P := fun w => Aimed k w ∧ Hush m i w) fedCard_le
    ((Aimed.stable.le fedCard_le).and Hush.fedStable) ⟨ha4, h4⟩ ?_
  rintro w5 np w6 ⟨ha5, h5⟩ _ ⟨⟨rfl, rfl⟩, _⟩
  refine ⟨h5.silent, ?_⟩
  intro w7 hr7 _ w8 ha8
  have ha7 := Aimed.stable (c := tendedCard) w6 w7 ha5 hr7
  have h7 := Hush.fedStable (i := i) w6 w7 h5 hr7
  have hoff := (hr7.sameMute tendedCard_tended k).rxOff
  have ha8' := fed_aimed ha8 (.inl (.inr ⟨_, rfl⟩)) ha7
  have h8 : Hush m i w8 := by
    obtain ⟨rfl, _⟩ := ha8
    refine h7.ier fun hj hch => ?_
    rw [chanNow_of_aimed ha7] at hch
    obtain rfl := port_ext hj hch
    by_cases hb : (w6.line k).np.rxOff = true
    · rw [if_pos hb]
      exact .inl (by decide)
    · exact .inr fun hm => hb (hoff.symm.trans hm)
  exact ⟨h8.silent, ha8'.closed, h8⟩

theorem wp_armTx_hush (hc : w.Closed) (h : Hush m i w) :
    wp (fedCard i) (Silent m i) (nm32aArmTx j) (fun _ w' => Hush m i w') w := by
  have hchan : ∀ {x : Fin 4} {f : Unit → Drv Unit} {w : World}, w.Closed → Hush m i w →
      (∀ w', w'.Closed → Hush m i w' →
        wp (fedCard i) (Silent m i) (f ()) (fun _ w' => Hush m i w') w') →
      wp (fedCard i) (Silent m i) (armTxChan j x >>= f) (fun _ w' => Hush m i w') w :=
    fun hc h hf => (wp_bind _ _ _ _).mpr (wp_post (wp_armTxChan_hush _ hc h)
      fun _ w' hw => hf w' hw.1 hw.2)
  refine wp_setup_bind (k := i) (uses_issue trivial) hc h ?_
  intro _ w0 hc0 h0
  refine hchan hc0 h0 ?_
  intro w1 hc1 h1
  refine hchan hc1 h1 ?_
  intro w2 hc2 h2
  refine hchan hc2 h2 ?_
  intro w3 hc3 h3
  refine hchan hc3 h3 ?_
  intro w4 hc4 h4
  exact wp_quiet (uses_issue trivial) h4

/-- the call may turn RxD of a muted port on again -/
def Call.SetsTermios (i : Fin 32) : Call → Prop
  | .setTermios _ i' _ => i' = i
  | _ => False

theorem wp_call_hush (call : Call) (hcall : ¬call.Activates i)
    (hter : call.SetsTermios i → m = false ∧ ¬Muted i w) (hc : w.Closed) (h : Hush m i w) :
    wp (fedCard i) (Silent m i) call.prog (fun _ w' => Hush m i w') w := by
  cases call with
  | service chip => exact wp_discard (wp_post (wp_service_hush hc h) fun _ _ hq => hq.2)
  | armTx chip => exact wp_armTx_hush hc h
  | activate turns k rate => exact wp_discard (wp_activate_hush turns rate hcall hc h)
  | setTermios turns k rate =>
    by_cases hk : k = i
    · obtain ⟨rfl, hm⟩ := hter hk
      subst hk
      exact wp_setTermios_self turns rate hm
    · exact wp_setTermios_hush turns rate hk hc h
  | dtrRts k active => exact wp_quiet ((uses_dtrRts active).mono fun _ => Op.Setup.quiet) h
  | shutdown k => exact wp_shutdown_hush hc h
  | sample k => exact wp_discard (wp_quiet (uses_sample.mono fun _ => Op.Setup.quiet) h)

/-! ## runs of calls -/

/-- the call neither activates port `i` nor is one of the two that take the mute away: termios
set on it while it is muted, or a transmit service of it that has nothing to write -/
structure KeepsMute (i : Fin 32) (s : CallStep) : Prop where
  other : ¬s.call.Activates i
  termios : s.call.SetsTermios i → ¬Muted i s.pre
  fed : ∀ e ∈ s.trace, Fed i e

/-- **The mute persists.**  From any state in which a muted port has RxD off: a call that finds
port `i` muted never turns its RxD on, and every call leaves it off if the port is muted. -/
theorem mute_persists (i : Fin 32) (steps : List CallStep) (w w' : World) (hw : w.Closed)
    (hm : Muted i w → ¬RxD i w) (h : CallRuns tendedCard.card w steps w')
    (hs : ∀ s ∈ steps, KeepsMute i s) :
    ∀ s ∈ steps, (Muted i s.pre → ∀ e ∈ s.trace, ¬RxD i e.post) ∧
      (Muted i s.post → ¬RxD i s.post) := by
  refine (h.keeps (P := fun w => w.Closed ∧ (Muted i w → ¬RxD i w)) ?_ hs ⟨hw, hm⟩).1
  intro s hk hp hr
  have hcl := (wp_runs (wp_call_closed timely_tendedCard tendedCard_pick s.call hp.1) hr).2
  have hfed : Runs (fedCard i) s.call.prog s.pre s.trace () s.post :=
    Exec.imp hr (fun _ _ h => h) fun e he ha => ⟨ha, hk.fed e he⟩
  by_cases hmu : Muted i s.pre
  · have hh : Hush true i s.pre := ⟨hp.2, fun _ => hmu⟩
    have hr' := wp_runs
      (wp_call_hush s.call hk.other (fun ht => absurd hmu (hk.termios ht)) hp.1 hh) hfed
    exact ⟨⟨fun _ e he => hr'.1 e he rfl, hr'.2.off⟩, hcl, hr'.2.off⟩
  · have hh : Hush false i s.pre := ⟨fun h => absurd h hmu, nofun⟩
    have hr' := wp_runs (wp_call_hush s.call hk.other (fun _ => ⟨rfl, hmu⟩) hp.1 hh) hfed
    exact ⟨⟨fun h => absurd h hmu, hr'.2.off⟩, hcl, hr'.2.off⟩

/-- channel 1 of chip 0 has one more receive exception to go, and asks for data as well; nothing
is queued -/
def noisyWorld : World :=
  (idleWorld.setChip 0 { idleChip with req := fun _ x => x = 1, ier := fun _ => 0x29 }).setLine 1
    ⟨{ idlePort with errCnt := 199 }, false, [], [], 0⟩

theorem noisyWorld_closed : noisyWorld.Closed := by
  intro j
  simp only [noisyWorld, World.setLine, World.setChip, Function.update_apply]
  split <;> rfl

/-- every receive service is an exception -/
def noisyScript : Script tendedCard := tendedScript (fun _ => none) 16 0x01

/-- the step that a call makes in it -/
def noisyStep (n : Nat) (call : Call) (w : World) : CallStep where
  pre := w
  call := call
  trace := (noisyScript.policy.play n call.prog w).1
  post := (noisyScript.policy.play n call.prog w).2.1

theorem noisyStep_runs (n : Nat) (call : Call) (w : World)
    (h : (noisyScript.policy.play n call.prog w).2.2.result = some ()) :
    Runs tendedCard.card (noisyStep n call w).call.prog (noisyStep n call w).pre
      (noisyStep n call w).trace () (noisyStep n call w).post :=
  noisyScript.policy.play_runs n call.prog w h

/-- a pass without a transmit service -/
theorem fed_of_all {tr : List (Event Op Res World)} {i : Fin 32}
    (h : (tr.all fun e => match e.op with
      | .crd _ .TFTC => false
      | _ => true) = true) : ∀ e ∈ tr, Fed i e := by
  intro e he
  have h1 := List.all_eq_true.mp h e he
  obtain ⟨pre, op, res, post⟩ := e
  cases op with
  | crd j reg =>
    cases reg
    case TFTC => cases h1
    all_goals trivial
  | _ => trivial

/-- the exception that mutes the port, and a sweep over the chip after it -/
theorem mute_persists_armTx : ∃ steps w', CallRuns tendedCard.card noisyWorld steps w' ∧
    Muted 1 w' ∧ ∀ s ∈ steps, (Muted 1 s.pre → ∀ e ∈ s.trace, ¬RxD 1 e.post) ∧
      (Muted 1 s.post → ¬RxD 1 s.post) := by
  have h1 := noisyStep_runs 0 (.service 0) noisyWorld (by decide +kernel)
  have h2 := noisyStep_runs 0 (.armTx 0) (noisyStep 0 (.service 0) noisyWorld).post
    (by decide +kernel)
  have hr := CallRuns.cons h1 (.cons h2 (.nil _))
  refine ⟨_, _, hr, by unfold Muted; decide +kernel, ?_⟩
  refine mute_persists 1 _ _ _ noisyWorld_closed ?_ hr ?_
  · intro hm
    exact absurd hm (by unfold Muted; decide +kernel)
  · intro s hs
    rcases List.mem_cons.mp hs with rfl | hs
    · exact ⟨fun h => h, fun h => h.elim, fed_of_all (by decide +kernel)⟩
    · rw [List.mem_singleton] at hs
      subst hs
      exact ⟨fun h => h, fun h => h.elim, fed_of_all (by decide +kernel)⟩

/-- the exception that mutes the port, and a transmit service that finds its ring empty: the port
is muted and RxD is on -/
theorem mute_fails : ∃ steps w', noisyWorld.Closed ∧ ¬Muted 1 noisyWorld ∧
    CallRuns tendedCard.card noisyWorld steps w' ∧
    (∀ s ∈ steps, ∃ j, s.call = .service j) ∧ Muted 1 w' ∧ RxD 1 w' ∧
    ¬∀ s ∈ steps, (Muted 1 s.pre → ∀ e ∈ s.trace, ¬RxD 1 e.post) ∧
      (Muted 1 s.post → ¬RxD 1 s.post) := by
  have h1 := noisyStep_runs 0 (.service 0) noisyWorld (by decide +kernel)
  have h2 := noisyStep_runs 0 (.service 0) (noisyStep 0 (.service 0) noisyWorld).post
    (by decide +kernel)
  have hr := CallRuns.cons h1 (.cons h2 (.nil _))
  have hm : Muted 1 (noisyStep 0 (.service 0) (noisyStep 0 (.service 0) noisyWorld).post).post := by
    unfold Muted
    decide +kernel
  have hx : RxD 1 (noisyStep 0 (.service 0) (noisyStep 0 (.service 0) noisyWorld).post).post := by
    unfold RxD
    decide +kernel
  refine ⟨_, _, noisyWorld_closed, by unfold Muted; decide +kernel, hr, ?_, hm, hx, ?_⟩
  · intro s hs
    rcases List.mem_cons.mp hs with rfl | hs
    · exact ⟨0, rfl⟩
    · rw [List.mem_singleton] at hs
      subst hs
      exact ⟨0, rfl⟩
  · intro h
    exact (h _ (List.mem_cons_of_mem _ (List.mem_cons_self ..))).2 hm hx

end Nm32a
