import Relicnos.Nm32a.Bus
import Relicnos.Nm32a.Selftest

/-!
# Whose channel is selected?

`CAR` is one register for a whole chip, and all flows of control that touch a channel write it.
Every flow but the writer of the `selftest` parameter does so under `hw_lock`, in sections that
end their contexts, so that no access to a channel finds another one selected and no channel is
selected over another flow's context (`select_discipline`).  A selftest next to any of them breaks
both (`select_discipline_fails`).
-/

set_option linter.unusedSectionVars false
set_option linter.unusedVariables false

namespace Nm32a
open Interact

/-! ## a pass, on the card alone -/

/-- an operation of a pass: the lock is given back with no context open, and a channel is accessed
in a context, but for the write of `IER` that mutes it -/
structure Served (e : Event Op Res World) : Prop where
  released : e.op = .unlock → e.pre.Closed
  inside : ∀ j reg, e.op.register = some (j, reg) → reg.PerChannel →
    (e.pre.hw j).stack ≠ [] ∨ e.op = .cwr j .IER 0x01

/-- an operation that releases nothing and accesses no channel -/
theorem served_of {o : Op} {r : Res o} {w w' : World} (hu : o ≠ .unlock)
    (hr : ∀ j reg, o.register = some (j, reg) → ¬reg.PerChannel) : Served ⟨w, o, r, w'⟩ :=
  ⟨fun e => absurd e hu, fun j reg he hp => absurd hp (hr j reg he)⟩

variable {j : Fin 8} {k : Kind} {ch : Fin 4} {w : World} {c : Cfg}

theorem Op.On.register {o : Op} (h : o.On j) {i : Fin 8} {reg : Reg}
    (he : o.register = some (i, reg)) : i = j := by
  cases o with
  | crd j' reg' =>
    cases he
    exact h
  | cwr j' reg' v =>
    cases he
    exact h
  | _ => cases he

/-- with the context of chip `j` open, accesses to chip `j` are served -/
theorem Inside.served {o : Op} {r : Res o} {w' : World} (h : Inside c j k ch w) (ho : o.On j) :
    Served ⟨w, o, r, w'⟩ := by
  refine ⟨?_, fun i reg he _ => .inl ?_⟩
  · rintro rfl
    exact ho.elim
  · obtain rfl := ho.register he
    obtain ⟨x, h, _⟩ := h
    show (w.hw i).stack ≠ []
    rw [h.here]
    nofun

theorem served_tidies {i : Fin 32} {o : Op} {r : Res o} {w' : World} (ho : o.Tidies j i) :
    Served ⟨w, o, r, w'⟩ := by
  cases o with
  | cwr j' reg v =>
    obtain ⟨_, rfl | ⟨rfl, rfl⟩⟩ := ho
    · exact served_of nofun fun i reg he => by cases he; exact id
    · exact ⟨nofun, fun i reg he _ => .inr (by cases he; rfl)⟩
  | crd j' reg => exact False.elim ho
  | unlock => exact False.elim ho
  | _ => exact served_of nofun fun i reg he => nomatch he

theorem allows_served : Allows c j Served where
  ask e he := by
    obtain ⟨w, o, r, w'⟩ := e
    cases o with
    | crd j' reg =>
      refine served_of nofun fun i reg' h => ?_
      cases h
      obtain ⟨_, rfl | rfl⟩ := he
      · exact id
      · exact id
    | params => exact served_of nofun fun i reg he => nomatch he
    | traceDec => exact served_of nofun fun i reg he => nomatch he
    | lock => exact served_of nofun fun i reg he => nomatch he
    | _ => exact False.elim he
  ack w addr v w' := served_of nofun fun i reg he => nomatch he
  inside k ch w o r w' ho h ha := ⟨h.served ho.on, (Inside.keeps w o r w' ho h ha).2⟩
  retry e he := by
    obtain ⟨w, o, r, w'⟩ := e
    rcases he with rfl | rfl | rfl
    · exact served_of nofun fun i reg h => by cases h; exact id
    · exact served_of nofun fun i reg he => nomatch he
    · exact served_of nofun fun i reg he => nomatch he
  eoir k g n w v w' _ := by
    refine served_of nofun fun i reg he => ?_
    cases he
    cases k
    · exact id
    · exact id
  ended k ch w o r w' ho h ha := ⟨served_tidies ho, (Ended.keeps w o r w' ho.own h ha).2⟩
  release w w' h := ⟨fun _ => h, fun i reg he => nomatch he⟩

theorem wp_service_served (h : w.Closed) :
    wp ownChip.card Served (nm32aService j) (fun _ w' => w'.Closed) w :=
  wp_service_allowed allows_served timely_ownChip
    (fun w i hs _ hp _ _ _ => (show i = w.serving from hp).trans hs) h

/-! ## the shape of the sections -/

/-- up to the choice of a channel the lock stays where it is, and no channel is muted -/
def Op.Attends (o : Op) : Prop := o ≠ .lock ∧ o ≠ .unlock ∧ ∀ i, o ≠ .cwr i .IER 0x01

theorem inContext_served : InContext Op.Attends Served :=
  fun e h ha i reg he hreg => (h.inside i reg he hreg).resolve_right (ha.2.2 i)

theorem Op.Free.attends {o : Op} (h : o.Free) : o.Attends := by
  refine ⟨h.ne.1, h.ne.2, fun i => ?_⟩
  rintro rfl
  exact h

theorem attends_crd (reg : Reg) : Op.Attends (.crd j reg) := ⟨nofun, nofun, nofun⟩

theorem attends_cwr {reg : Reg} (v : UInt8) (h : reg ≠ .IER) : Op.Attends (.cwr j reg v) := by
  refine ⟨nofun, nofun, fun i e => h ?_⟩
  cases e
  rfl

theorem Op.Fetch.attends {o : Op} (h : o.Fetch j) : o.Attends := by
  rcases h with rfl | rfl
  · exact attends_crd _
  · exact attends_crd _

theorem Op.Hands.free {i : Fin 32} {o : Op} (h : o.Hands i) : o.Free := by
  rcases h with rfl | ⟨bs, rfl⟩
  · trivial
  · trivial

theorem Op.Sends.attends {i : Fin 32} {o : Op} (h : o.Sends j i) : o.Attends := by
  rcases h with rfl | ⟨v, rfl⟩ | ⟨v, rfl⟩
  · exact Op.Free.attends trivial
  · exact attends_cwr v nofun
  · exact Op.Free.attends trivial

theorem Op.Closes.attends {o : Op} (h : o.Closes j (eoirReg k)) : o.Attends := by
  rcases h with (rfl | rfl | rfl) | ⟨v, rfl⟩
  · exact attends_crd _
  · exact Op.Free.attends trivial
  · exact Op.Free.attends trivial
  · cases k
    · exact attends_cwr v nofun
    · exact attends_cwr v nofun

/-- what is left of a section on chip `j` that has the lock: `A` up to the choice of a channel -/
def Section {α : Type} (A : Op → Prop) (j : Fin 8) : Drv α → Prop :=
  Prog.Staged A (fun o => ∃ v, o = .cwr j .CAR v) (Op.OnChip j) (· = .unlock) Op.Free

theorem section_unlock {α : Type} {A : Op → Prop} {f : Unit → Drv α} (h : (f ()).Uses Op.Free) :
    Section A j (hwUnlock >>= f) := .inl ⟨rfl, fun _ => h⟩

theorem section_last {A : Op → Prop} : Section A j hwUnlock := .inl ⟨rfl, fun _ => trivial⟩

theorem section_eoi {α : Type} {f : Unit → Drv α} (k : Kind) (val : UInt8)
    (h : Section Op.Attends j (f ())) : Section Op.Attends j (nm32aEoi j (eoirReg k) val >>= f) :=
  Prog.Uses.staged ((closes_eoi (eoirReg k) val).mono fun _ => Op.Closes.attends) fun _ => h

theorem free_errWindow (i : Fin 32) : (errWindow i).Uses Op.Free := by
  refine Prog.Uses.bind (uses_issue trivial) ?_
  intro now
  refine Prog.Uses.bind (uses_issue trivial) ?_
  intro np
  refine Prog.Uses.ite ?_ trivial
  refine Prog.Uses.bind (uses_issue trivial) ?_
  intro now
  exact Prog.Uses.bind (uses_issue trivial) (fun _ => uses_issue trivial)

theorem section_rxException :
    Section Op.Attends j (do nm32aRxException j ch; hwUnlock : Drv Unit) := by
  have hfree : ∀ {α : Type} {o : Op} {f : Res o → Drv α}, o.Free →
      (∀ r, Section Op.Attends j (f r)) → Section Op.Attends j (issue o >>= f) :=
    fun ho hf => Prog.Uses.staged (uses_issue ho.attends) hf
  unfold nm32aRxException
  simp only [bind_assoc]
  refine Prog.Uses.staged ((free_errWindow _).mono fun _ => Op.Free.attends) fun _ => ?_
  refine hfree trivial fun np => ?_
  refine hfree trivial fun _ => ?_
  split
  · exact section_last
  simp only [bind_assoc]
  refine hfree trivial fun _ => ?_
  -- from here on the channel is chosen
  refine .inr (.inl ⟨⟨_, rfl⟩, fun _ => ?_⟩)
  exact until_write rfl (.inl ⟨rfl, fun _ => trivial⟩)

theorem section_serviceRx (tr : Bool) (rir0 : UInt8) :
    Section Op.Attends j (serviceRx j tr rir0) := by
  have hfetch : ∀ {α β : Type} {p : Drv α} {f : α → Drv β}, p.Uses (Op.Fetch j) →
      (∀ a, Section Op.Attends j (f a)) → Section Op.Attends j (p >>= f) :=
    fun hp hf => Prog.Uses.staged (hp.mono fun _ => Op.Fetch.attends) hf
  refine Prog.Staged.ite ?_ ?_
  · refine Prog.Uses.staged (uses_issue (attends_crd _)) fun erisr => ?_
    refine Prog.Staged.ite ?_ ?_
    · refine hfetch (uses_issue (.inl rfl)) fun rfoc => ?_
      refine hfetch (fetch_drain _) fun bs => ?_
      refine section_eoi .rx 0x00 ?_
      refine Prog.Uses.staged ((hands_deliver _ bs).mono fun _ h => h.free.attends) fun _ => ?_
      exact section_last
    · refine hfetch (fetch_traceException tr) fun _ => ?_
      refine hfetch (fetch_dropBad erisr) fun _ => ?_
      refine section_eoi .rx 0x00 ?_
      exact section_rxException
  · refine hfetch (uses_issue (.inl rfl)) fun rfoc => ?_
    refine hfetch (fetch_drain _) fun bs => ?_
    refine section_eoi .rx 0x00 ?_
    exact section_unlock ((hands_deliver _ bs).mono fun _ => Op.Hands.free)

theorem section_serviceTx : Section Op.Attends j (serviceTx j ch) := by
  refine Prog.Uses.staged (uses_issue (Op.Free.attends trivial)) fun _ => ?_
  refine Prog.Uses.staged (uses_issue (attends_crd _)) fun room => ?_
  refine Prog.Uses.staged ((sends_txLoop _ _).mono fun _ => Op.Sends.attends) fun n => ?_
  have hidle : (txIdle j n).Uses Op.Attends := by
    refine Prog.Uses.ite (uses_issue ⟨nofun, nofun, fun i e => ?_⟩) trivial
    exact absurd (Op.cwr.inj e).2.2 (by decide)
  refine Prog.Uses.staged hidle fun _ => ?_
  refine section_eoi .tx _ ?_
  refine Prog.Uses.staged (uses_issue (Op.Free.attends trivial)) fun _ => ?_
  exact section_last

theorem section_service : ∃ f, nm32aService j = hwLock >>= f ∧ Section Op.Attends j (f ()) := by
  have hp : ∀ {α : Type} {o : Op} {f : Res o → Drv α}, o.Attends →
      (∀ r, Section Op.Attends j (f r)) → Section Op.Attends j (issue o >>= f) :=
    fun ho hf => Prog.Uses.staged (uses_issue ho) hf
  have hpar : Op.Attends .params := Op.Free.attends trivial
  unfold nm32aService serviceGrant
  simp only [bind_assoc]
  refine ⟨_, rfl, ?_⟩
  refine hp (attends_crd _) fun tir0 => ?_
  refine hp (attends_crd _) fun rir0 => ?_
  have htrace : ∀ pend : UInt8, (serviceTrace pend).Uses Op.Attends := by
    intro pend
    refine Prog.Uses.bind (uses_issue hpar) fun p => ?_
    refine Prog.Uses.ite ?_ trivial
    exact Prog.Uses.bind (uses_issue ⟨nofun, nofun, nofun⟩) fun _ => trivial
  refine Prog.Uses.staged (htrace _) fun tr => ?_
  split
  · exact section_unlock trivial
  simp only [bind_assoc]
  refine hp (attends_crd _) fun tirc => ?_
  refine hp (attends_crd _) fun rirc => ?_
  split
  · exact section_unlock trivial
  simp only [bind_assoc]
  refine Prog.Uses.staged ((uses_ackAddr rirc).mono fun o ho => ho ▸ hpar) fun addr => ?_
  refine hp ⟨nofun, nofun, nofun⟩ fun ackv => ?_
  refine hp (attends_crd _) fun tir1 => ?_
  refine hp (attends_crd _) fun rir1 => ?_
  split
  · exact section_unlock trivial
  · rename_i g _
    show Section Op.Attends j (serviceGranted j g >>= fun _ => pure true)
    exact Prog.Staged.bind (Prog.Staged.ite (section_serviceRx _ _) section_serviceTx)
      fun _ => trivial

/-- operations that leave the lock and the channels alone -/
def Op.Apart (o : Op) : Prop :=
  o ≠ .lock ∧ o ≠ .unlock ∧ ∀ j reg, o.register = some (j, reg) → ¬reg.PerChannel

theorem inContext_apart {W : Event Op Res World → Prop} : InContext Op.Apart W :=
  fun _ _ ha j reg he hreg => absurd hreg (ha.2.2 j reg he)

theorem Op.Free.apart {o : Op} (h : o.Free) : o.Apart := by
  refine ⟨h.ne.1, h.ne.2, fun j reg he => ?_⟩
  cases o with
  | crd j' reg' => exact False.elim h
  | cwr j' reg' v => exact False.elim h
  | _ => cases he

theorem until_armTxChan {α : Type} {f : Unit → Drv α} (x : Fin 4)
    (h : (f ()).Until (Op.OnChip j) (· = .unlock) Op.Free) :
    (armTxChan j x >>= f).Until (Op.OnChip j) (· = .unlock) Op.Free := by
  refine Prog.Uses.until ?_ fun _ => h
  refine Prog.Uses.bind (uses_issue trivial) fun _ => ?_
  refine Prog.Uses.bind (uses_issue trivial) fun np => ?_
  refine Prog.Uses.bind (uses_issue trivial) fun _ => ?_
  refine Prog.Uses.ite ?_ trivial
  refine uses_write rfl ?_
  exact Prog.Uses.bind (uses_issue trivial) fun np => uses_issue rfl

theorem section_armTxChan {α : Type} {f : Unit → Drv α} (x : Fin 4)
    (h : Section Op.Apart j (f ())) (h' : (f ()).Until (Op.OnChip j) (· = .unlock) Op.Free) :
    Section Op.Apart j (armTxChan j x >>= f) := by
  unfold armTxChan
  simp only [bind_assoc]
  refine Prog.Uses.staged (uses_issue (Op.Free.apart trivial)) fun _ => ?_
  refine Prog.Uses.staged (uses_issue (Op.Free.apart trivial)) fun np => ?_
  refine Prog.Uses.staged (uses_issue (Op.Free.apart trivial)) fun _ => ?_
  split
  · simp only [bind_assoc]
    refine .inr (.inl ⟨⟨_, rfl⟩, fun _ => ?_⟩)
    refine Prog.Uses.until (p := portAt (portIx j x)) (uses_issue trivial) fun np => ?_
    exact until_write rfl h'
  · exact h

theorem section_armTx : ∃ f, nm32aArmTx j = hwLock >>= f ∧ Section Op.Apart j (f ()) := by
  refine ⟨_, rfl, ?_⟩
  have h3 := until_armTxChan (j := j) 3 (f := fun _ => hwUnlock) (.inl ⟨rfl, fun _ => trivial⟩)
  have h2 := until_armTxChan (j := j) 2 (f := fun _ => armTxChan j 3 >>= fun _ => hwUnlock) h3
  have h1 := until_armTxChan (j := j) 1
    (f := fun _ => armTxChan j 2 >>= fun _ => armTxChan j 3 >>= fun _ => hwUnlock) h2
  refine section_armTxChan 0 ?_ h1
  refine section_armTxChan 1 ?_ h2
  refine section_armTxChan 2 ?_ h3
  exact section_armTxChan 3 section_last (.inl ⟨rfl, fun _ => trivial⟩)

theorem Steers.section {α : Type} {k : Fin 32} {p : Drv α} (h : Steers k p) :
    Section Op.Apart (chipOf k) p := by
  refine Prog.Staged.mono h ?_ (fun o ho => ⟨_, ho⟩) ?_ fun o ho => ho.elim
  · intro o ho
    cases o with
    | crd j reg =>
      obtain ⟨rfl, rfl⟩ := ho
      exact ⟨nofun, nofun, fun i reg he => by cases he; exact id⟩
    | setPort k' f => exact Op.Free.apart trivial
    | _ => exact False.elim ho
  · intro o ho
    rcases ho with ho | rfl | ⟨v, rfl⟩ | ⟨f, rfl⟩
    · cases o with
      | crd j reg => exact ho.1
      | cwr j reg v => exact ho.1
      | lock => exact False.elim ho
      | unlock => exact False.elim ho
      | _ => trivial
    · rfl
    · rfl
    · trivial

/-- the calls other than services -/
theorem section_call {call : Call} (h : ∀ j, call ≠ .service j) :
    ∃ j f, call.prog = hwLock >>= f ∧ Section Op.Apart j (f ()) := by
  have hd : ∀ {α : Type} {p : Drv α} {k : Fin 32}, (∃ f, p = hwLock >>= f ∧ Steers k (f ())) →
      ∃ j f, discard p = hwLock >>= f ∧ Section Op.Apart j (f ()) := by
    rintro α _ k ⟨f, rfl, hf⟩
    exact ⟨chipOf k, fun _ => f () >>= fun _ => pure (), rfl,
      Prog.Staged.bind hf.section fun _ => trivial⟩
  cases call with
  | service j => exact absurd rfl (h j)
  | armTx j => exact ⟨j, section_armTx⟩
  | activate turns k rate => exact hd (steers_activate turns rate)
  | setTermios turns k rate =>
    obtain ⟨f, he, hf⟩ := steers_setTermios (k := k) turns rate
    exact ⟨chipOf k, f, he, hf.section⟩
  | dtrRts k active =>
    obtain ⟨f, he, hf⟩ := steers_dtrRts (k := k) active
    exact ⟨chipOf k, f, he, hf.section⟩
  | shutdown k =>
    obtain ⟨f, he, hf⟩ := steers_shutdown (k := k)
    exact ⟨chipOf k, f, he, hf.section⟩
  | sample k => exact hd steers_sample

/-! ## the flows -/

/-- a flow of control: the poll thread, tty operations and samples of `sendbreak_set` one after the
other, or a write of the `selftest` parameter -/
inductive Flow where
  | poll (turns n : Nat)
  | tty (calls : List Call)
  | selftest (s : Stages) (turns : Nat) (dev : Bool) (val : Except Int Int)

def Flow.prog : Flow → Drv Unit
  | .poll turns n => nm32aPollThread turns n
  | .tty calls => callsProg calls
  | .selftest s turns dev val => discard (nm32aSetSelftest s turns dev val)

def Flow.Selftest : Flow → Prop
  | .selftest _ _ _ _ => True
  | _ => False

section
variable {F : Type} [DecidableEq F] {f : F} {b : Bus F}

theorem wp_bus_service (h : b.Out f) :
    wp (busView ownChip f) (Proper f) (nm32aService j) (fun _ b' => b'.Out f) b := by
  obtain ⟨g, hg, hp⟩ := section_service (j := j)
  rw [hg]
  refine wp_section (fun e he => he.released) (fun _ _ => trivial)
    (fun o ho => ⟨ho.1, ho.2.1⟩) inContext_served hp ?_ h
  intro w hw
  rw [← hg]
  exact wp_post (wp_service_served hw) fun _ _ _ => trivial

theorem wp_bus_call (call : Call) (h : b.Out f) :
    wp (busView ownChip f) (Proper f) call.prog (fun _ b' => b'.Out f) b := by
  by_cases hs : ∃ j, call = .service j
  · obtain ⟨j, rfl⟩ := hs
    exact (wp_bind _ _ _ _).mpr (wp_bus_service h)
  obtain ⟨j, g, hg, hp⟩ := section_call fun j e => hs ⟨j, e⟩
  rw [hg]
  refine wp_section (fun e he => he) (fun _ _ => trivial) (fun o ho => ⟨ho.1, ho.2.1⟩)
    inContext_apart hp ?_ h
  intro w hw
  rw [← hg]
  exact wp_post (wp_call_released timely_ownChip (fun _ _ hp => hp) call hw) fun _ _ _ => trivial

theorem Op.Aside.free {o : Op} (h : o.Aside) : o.Free := by
  cases o with
  | port i => trivial
  | params => trivial
  | shouldStop => trivial
  | hang => trivial
  | _ => exact False.elim h

/-- **Every flow but a selftest is proper among the others.** -/
theorem wp_bus_flow (fl : Flow) (hf : ¬fl.Selftest) (h : b.Out f) :
    wp (busView ownChip f) (Proper f) fl.prog (fun _ b' => b'.Out f) b := by
  cases fl with
  | poll turns n =>
    exact wp_pollThread_sections Bus.Out.stable (Bus.Out.keeps.mono fun _ => Op.Aside.free)
      (fun j b hb => wp_bus_call (.armTx j) hb) (fun j b hb => wp_bus_service hb) turns n h
  | tty calls =>
    show wp _ _ (callsProg calls) _ b
    induction calls generalizing b with
    | nil => exact h
    | cons call calls ih =>
      exact (wp_bind _ _ _ _).mpr (wp_post (wp_bus_call call h) fun _ b hb => ih hb hf)
  | selftest s turns dev val => exact absurd trivial hf

/-- what a step of a flow does to the card -/
def onCard (e : Event Op Res (Bus F)) : Event Op Res World := ⟨e.pre.w, e.op, e.res, e.post.w⟩

/-- nobody has the lock, and no context is open -/
structure Bus.Idle (b : Bus F) : Prop where
  holder : b.holder = none
  closed : b.w.Closed
  owners : ∀ j, b.owners j = []

theorem Bus.Idle.out (h : b.Idle) : b.Out f :=
  ⟨by rw [h.holder]; nofun, fun _ => ⟨h.closed, h.owners⟩⟩

/-- **Channel-select discipline, over every interleaving** in which no selftest takes a step and
the acknowledges agree. -/
theorem select_discipline (flow : F → Flow) (b b' : Bus F) (tr : List (F × Event Op Res (Bus F)))
    (ps' : F → Drv Unit) (hb : b.Idle)
    (h : Pool (busEnv anyChip) (fun f => (flow f).prog) b tr b' ps')
    (hs : ∀ e ∈ tr, ¬(flow e.1).Selftest ∧ Agrees (onCard e.2)) :
    ∀ e ∈ tr, Selected e.1 e.2 ∧ Unshared e.1 e.2 := by
  have hown : Pool (busEnv ownChip) (fun f => (flow f).prog) b tr b' ps' := by
    refine h.imp (fun f b b' hr => ⟨rely_ownChip hr.1, hr.2⟩) ?_
    intro e he ha
    obtain ⟨hl, w', hw, hpost⟩ := ha
    refine ⟨hl, w', access_ownChip hw ?_, hpost⟩
    have hag := (hs e he).2
    unfold onCard at hag
    rw [hpost] at hag
    exact hag
  have hproper := hown.guarded (busViews fun _ _ => trivial) fun f hf => by
    obtain ⟨e, he, rfl⟩ := hf
    exact wp_post (wp_bus_flow (flow e.1) (hs e he).1 hb.out) fun _ _ _ => trivial
  exact fun e he => ⟨(hproper e he).selected, (hproper e he).unshared⟩

end

/-! ## two flows -/

/-- a card at rest, with nothing selected -/
def idleBus : Bus Bool := ⟨idleWorld, none, fun _ _ => none, fun _ => []⟩

theorem idleBus_idle : idleBus.Idle := ⟨rfl, fun _ => rfl, fun _ => rfl⟩

/-- the operation has to wait for the lock -/
def Bus.waits {F : Type} (b : Bus F) : Op → Bool
  | .lock => b.holder.isSome
  | _ => false

/-- flow `f` against a scripted card -/
def busPolicy (S : Script anyChip) (f : Bool) : Policy (busEnv anyChip f) where
  act n b o :=
    if b.waits o then none
    else (S.policy.act n b.w o).map fun t =>
      ({ b with w := t.1 }, t.2.1, Bus.after { b with w := t.1 } f o t.2.2)
  sound := by
    intro n b o b1 r b2 h
    by_cases hl : b.waits o = true
    · rw [if_pos hl] at h
      cases h
    rw [if_neg hl] at h
    obtain ⟨⟨w1, r, w2⟩, ht, he⟩ := Option.map_eq_some_iff.mp h
    cases he
    obtain ⟨hr, ha⟩ := S.policy.sound n b.w o w1 r w2 ht
    refine ⟨⟨hr, rfl⟩, ?_, w2, ha, rfl⟩
    rintro rfl
    exact Option.not_isSome_iff_eq_none.mp hl

/-- the flows of a schedule, each as far as it gets, from a card at rest -/
def playFlows (flow : Bool → Flow) (turns : List Bool) :
    List (Bool × Event Op Res (Bus Bool)) × Bus Bool × (Bool → Drv Unit) :=
  Pool.play (busPolicy (grantScript World.serving)) turns (fun f => (flow f).prog) idleBus

theorem agrees_of_no_ack {tr : List (Bool × Event Op Res (Bus Bool))}
    (h : (tr.all fun e => match e.2.op with
      | .readb _ => false
      | _ => true) = true) : ∀ e ∈ tr, Agrees (onCard e.2) := by
  intro e he
  apply agrees_of_not_ack
  intro addr ha
  have h1 := List.all_eq_true.mp h e he
  rw [show e.2.op = .readb addr from ha] at h1
  cases h1

/-- the poll thread beside a flow that raises `DTR` on port 16 -/
def dtrFlow : Bool → Flow
  | true => .tty [.dtrRts 16 true]
  | false => .poll 1 1

/-- `DTR` is written between two operations of the thread -/
theorem select_discipline_dtr : ∃ tr b' ps', Pool (busEnv anyChip) (fun f => (dtrFlow f).prog)
      idleBus tr b' ps' ∧
    (tr.any fun e => match e.2.op with
      | .cwr _ .MSVR_DTR _ => e.1
      | _ => false) = true ∧
    (tr.any fun e => !e.1) = true ∧ ∀ e ∈ tr, Selected e.1 e.2 ∧ Unshared e.1 e.2 := by
  have hx : Pool (busEnv anyChip) (fun f => (dtrFlow f).prog) idleBus
      (playFlows dtrFlow [true, false, true, false, true, true]).1 _ _ := Pool.play_pool _ _ _ _
  refine ⟨_, _, _, hx, by decide +kernel, by decide +kernel, ?_⟩
  refine select_discipline dtrFlow idleBus _ _ _ idleBus_idle hx ?_
  intro e he
  refine ⟨?_, agrees_of_no_ack (by decide +kernel) e he⟩
  cases e.1 <;> exact id

/-- a sample of the transmit pin of port 17 beside a write of 17 to `selftest` -/
def talkFlow (s : Stages) : Bool → Flow
  | true => .tty [.sample 17]
  | false => .selftest s 1 true (.ok 17)

def noStages : Stages := ⟨⟨[], 0⟩, fun _ => pure 0⟩

/-- the transmit pin of chip 4 is read outside a context and on another channel than the flow has
selected -/
def misses (e : Bool × Event Op Res (Bus Bool)) : Bool :=
  match e.2.op with
  | .crd 4 .RCOR => (e.2.pre.w.hw 4).stack.isEmpty && e.2.pre.sel e.1 4 != some (e.2.pre.w.hw 4).car
  | _ => false

/-- the selftest selects channel 0 of chip 4 between the selection of channel 1 and the read that
is meant for it -/
theorem select_discipline_fails : ∃ tr b' ps', idleBus.Idle ∧
    Pool (busEnv anyChip) (fun f => (talkFlow noStages f).prog) idleBus tr b' ps' ∧
    (∀ e ∈ tr, Agrees (onCard e.2)) ∧ ¬∀ e ∈ tr, Selected e.1 e.2 ∧ Unshared e.1 e.2 := by
  have hx : Pool (busEnv anyChip) (fun f => (talkFlow noStages f).prog) idleBus
      (playFlows (talkFlow noStages) [true, true, false, false, true]).1 _ _ :=
    Pool.play_pool _ _ _ _
  refine ⟨_, _, _, idleBus_idle, hx, agrees_of_no_ack (by decide +kernel), ?_⟩
  have hmiss : ((playFlows (talkFlow noStages) [true, true, false, false, true]).1.any
      misses) = true := by decide +kernel
  obtain ⟨⟨f, pre, op, res, post⟩, he, h⟩ := List.any_eq_true.mp hmiss
  intro hall
  have hsel := (hall _ he).1
  unfold misses at h
  split at h
  · rename_i hop
    obtain ⟨hst, hne⟩ := Bool.and_eq_true_iff.mp h
    have heq := hsel 4 .RCOR (by rw [hop]; rfl) trivial (List.isEmpty_iff.mp hst)
    exact bne_iff_ne.mp hne heq
  · cases h

end Nm32a
