import Relicnos.Nm32a.Context

/-!
# Eight chips behind one acknowledge

An acknowledge does not say which chip it is for: the FPGA turns it into IACKIN* for a chip that
requests, and the driver goes on to read the chip it is servicing.  `Agrees` says of an
acknowledge that the two are the same chip, `Released` of a release of `hw_lock` that no context
is open on any chip.

`released_iff_agrees`: in every run of the poll thread, every release is `Released` if and only
if every acknowledge whose pass gets to a release agrees.
-/

set_option linter.unusedVariables false

namespace Nm32a
open Interact

/-- the whole card: any request on any chip at any time, and the FPGA picks any chip -/
def anyChip : Cfg where
  pick _ _ := True
  raises _ := True
  line _ _ := True
  par p := p.eoiretry ≠ 0
  eoirs := 100

/-- the same card with an FPGA that picks the chip being serviced -/
def ownChip : Cfg := { anyChip with pick := fun w i => i = w.serving }

/-- a release of `hw_lock` leaves no context open -/
def Released (e : Event Op Res World) : Prop :=
  match e.op with
  | .unlock => e.pre.Closed
  | _ => True

/-- an acknowledge grants the chip being serviced, if it grants anything -/
def Agrees (e : Event Op Res World) : Prop :=
  match e.op with
  | .readb _ => ∀ i k x, e.post.granted = some (i, k, x) → i = e.pre.serving
  | _ => True

/-- every acknowledge that a release of the lock follows agrees -/
def AgreesSoFar (tr : List (Event Op Res World)) : Prop :=
  ∀ tr1 e tr2, tr = tr1 ++ e :: tr2 → (∃ u ∈ tr2, u.op = .unlock) → Agrees e

/-- a context is open on a chip that is not being serviced -/
def Stray (w : World) : Prop := ∃ i, i ≠ w.serving ∧ (w.hw i).stack ≠ []

/-- an acknowledge that does not agree makes a stray context, and nothing closes it -/
def Watched (e : Event Op Res World) : Prop :=
  (¬Agrees e → Stray e.post) ∧ (Stray e.pre → Stray e.post)

variable {w : World} {j : Fin 8}

theorem timely_anyChip : anyChip.Timely := .inr ⟨Nat.le_refl _, fun _ h => h⟩
theorem timely_ownChip : ownChip.Timely := timely_anyChip

theorem World.Closed.not_stray (h : w.Closed) : ¬Stray w := by
  rintro ⟨i, _, hi⟩
  exact hi (h i)

/-- away from an acknowledge and with nothing open there is nothing to watch -/
theorem watched_closed {e : Event Op Res World} (ha : Agrees e) (h : e.pre.Closed) : Watched e :=
  ⟨fun hn => absurd ha hn, fun hs => absurd hs h.not_stray⟩

theorem agrees_of_not_ack {e : Event Op Res World} (h : ∀ addr, e.op ≠ .readb addr) :
    Agrees e := by
  obtain ⟨pre, op, res, post⟩ := e
  cases op with
  | readb addr => exact absurd rfl (h addr)
  | _ => trivial

/-! ## if every acknowledge agrees -/

theorem released_of_disciplined {e : Event Op Res World} (h : Disciplined j e) : Released e := by
  obtain ⟨pre, op, res, post⟩ := e
  cases op with
  | unlock => exact h
  | _ => trivial

theorem wp_pollThread_released (turns n : Nat) (h : w.Closed) :
    wp ownChip.card Released (nm32aPollThread turns n) (fun _ w' => w'.Closed) w := by
  refine wp_pollThread closed_onStacks.stable ?_ ?_ turns n h
  · intro w o r w' ho hw ha
    obtain ⟨hs, hg⟩ := access_sweep ho ha
    refine ⟨?_, closed_onStacks w w' hs hg hw⟩
    cases o with
    | unlock => exact hw
    | _ => trivial
  · intro j w hw
    exact wp_mono (wp_service timely_ownChip
      (fun w i hs _ hp _ _ _ => (show i = w.serving from hp).trans hs) hw)
      (fun _ => released_of_disciplined) (fun _ _ h => h)

theorem rely_ownChip {w w' : World} (h : anyChip.rely w w') : ownChip.rely w w' :=
  ⟨h.chip, h.line, h.par, h.held, h.serving, h.granted⟩

theorem access_ownChip {w w' : World} {o : Op} {r : Res o} (h : anyChip.access w o r w')
    (ha : Agrees ⟨w, o, r, w'⟩) : ownChip.access w o r w' := by
  cases o with
  | readb addr =>
    replace h : anyChip.Ack addr w w' := h
    cases h with
    | nothing hn => exact Cfg.Ack.nothing fun i _ => hn i trivial
    | grant i x _ hx hl h0 => exact Cfg.Ack.grant i x (ha i x.kind x.chan rfl) hx hl h0
  | _ => exact h

/-- a run all of whose acknowledges agree is one of the card whose FPGA picks the right chip -/
theorem exec_ownChip {α : Type} {p p' : Drv α} {w' : World} {tr : List (Event Op Res World)}
    (h : Exec anyChip.card p w tr w' p') (ha : ∀ e ∈ tr, Agrees e) :
    Exec ownChip.card p w tr w' p' :=
  h.imp (fun _ _ => rely_ownChip) fun e he hacc => access_ownChip hacc (ha e he)

/-! ## if an acknowledge does not -/

/-- operations of a pass over chip `j` between the acknowledge and the release -/
def Op.On (j : Fin 8) : Op → Prop
  | .crd j' _ => j' = j
  | .cwr j' _ _ => j' = j
  | .readb _ => False
  | .unlock => False
  | _ => True

theorem Op.Within.on {k : Kind} {i : Fin 32} {o : Op} (h : o.Within j k i) : o.On j := by
  rcases h with (h | h) | rfl | ⟨_, rfl⟩ | ⟨_, ⟨v, rfl⟩ | ⟨v, rfl⟩⟩
  · cases o with
    | crd j' reg => exact h.1
    | cwr j' reg v => exact False.elim h
    | readb addr => exact False.elim h
    | unlock => exact False.elim h
    | _ => trivial
  · cases o with
    | cwr j' reg v => exact h.1
    | crd j' reg => exact False.elim h
    | readb addr => exact False.elim h
    | unlock => exact False.elim h
    | _ => trivial
  · exact rfl
  · exact rfl
  · exact rfl
  · exact trivial

theorem Op.Peek.on {o : Op} (h : o.Peek j) : o.On j :=
  Op.Within.on (k := .rx) (i := 0) (.inl (.inl h))

theorem Op.Ends.on {reg : Reg} {o : Op} (h : o.Ends j reg) : o.On j := by
  rcases h with h | ⟨v, rfl⟩
  · exact h.on
  · exact rfl

theorem Op.Pass.on {k : Kind} {ch : Fin 4} {o : Op} (h : Op.Pass j k ch o) : o.On j := by
  rcases h with h | h
  · exact h.on
  · exact h.on

/-- the card of the runs whose releases are all `Released` -/
def releasing : Env Op Res World := anyChip.card.assume Released

theorem releasing_le : releasing.Le anyChip.card := anyChip.card.assume_le Released

/-- a stray context on a chip other than `j`, while `j` is serviced -/
def StrayOf (j : Fin 8) (w : World) : Prop := w.serving = j ∧ ∃ i, i ≠ j ∧ (w.hw i).stack ≠ []

/-- no stray context while `j` is serviced -/
def NoStray (j : Fin 8) (w : World) : Prop := w.serving = j ∧ ∀ i, i ≠ j → (w.hw i).stack = []

theorem StrayOf.stray (h : StrayOf j w) : Stray w := by
  obtain ⟨rfl, h⟩ := h
  exact h

theorem NoStray.not_stray (h : NoStray j w) : ¬Stray w := by
  obtain ⟨rfl, h⟩ := h
  rintro ⟨i, hi, hs⟩
  exact hs (h i hi)

/-- a pass over chip `j` does not touch the stacks of the other chips -/
theorem access_on {c : Cfg} {o : Op} {r : Res o} {w' : World} (ho : o.On j)
    (h : c.access w o r w') (hj : w.serving = j) :
    (∀ i, i ≠ j → (w'.hw i).stack = (w.hw i).stack) ∧ w'.serving = j := by
  cases o with
  | crd j' reg =>
    obtain rfl : j' = j := ho
    obtain ⟨h', _, rfl⟩ := h
    exact ⟨fun i hi => by simp only [World.setChip, Function.update_of_ne hi], rfl⟩
  | cwr j' reg v =>
    obtain rfl : j' = j := ho
    subst h
    exact ⟨fun i hi => by simp only [World.setChip, Function.update_of_ne hi], hj⟩
  | port i => obtain ⟨_, rfl⟩ := h; exact ⟨fun _ _ => rfl, hj⟩
  | params => obtain ⟨_, rfl⟩ := h; exact ⟨fun _ _ => rfl, hj⟩
  | jiffies => obtain ⟨_, rfl⟩ := h; exact ⟨fun _ _ => rfl, hj⟩
  | readb addr => exact False.elim ho
  | unlock => exact False.elim ho
  | hang => exact False.elim h
  | _ => subst h; exact ⟨fun _ _ => rfl, hj⟩

theorem agrees_on {o : Op} {r : Res o} {w' : World} (ho : o.On j) : Agrees ⟨w, o, r, w'⟩ := by
  refine agrees_of_not_ack ?_
  rintro addr rfl
  exact ho

theorem StrayOf.stable : Stable releasing (StrayOf j) := by
  rintro w w' ⟨hj, i, hi, hs⟩ hr
  exact ⟨hr.serving.trans hj, i, hi, by rw [hr.stack i]; exact hs⟩

theorem StrayOf.keeps : Keeps releasing Watched (Op.On j) (StrayOf j) := by
  rintro w o r w' ho ⟨hj, i, hi, hs⟩ ha
  obtain ⟨hst, hj'⟩ := access_on ho ha.1 hj
  have h : StrayOf j w' := ⟨hj', i, hi, by rw [hst i hi]; exact hs⟩
  exact ⟨⟨fun hn => absurd (agrees_on ho) hn, fun _ => h.stray⟩, h⟩

/-- nothing is open, or one context of chip `j`, while `j` is serviced -/
def Calm (j : Fin 8) (w : World) : Prop :=
  w.serving = j ∧ (w.Closed ∨ ∃ k ch, Inside anyChip j k ch w)

theorem Calm.noStray (h : Calm j w) : NoStray j w := by
  obtain ⟨hj, h | ⟨k, ch, x, h, _⟩⟩ := h
  · exact ⟨hj, fun i _ => h i⟩
  · exact ⟨hj, h.else_⟩

theorem Calm.stable : Stable releasing (Calm j) := by
  rintro w w' ⟨hj, h⟩ hr
  refine ⟨hr.serving.trans hj, ?_⟩
  rcases h with h | ⟨k, ch, h⟩
  · exact .inl (closed_onStacks w w' hr.stack hr.granted h)
  · exact .inr ⟨k, ch, Inside.onStacks w w' hr.stack hr.granted h⟩

theorem Calm.keeps : Keeps releasing Watched (Op.Peek j) (Calm j) := by
  rintro w o r w' ho hc ha
  refine ⟨⟨fun hn => absurd (agrees_on ho.on) hn, fun hs => absurd hs hc.noStray.not_stray⟩, ?_⟩
  obtain ⟨h1, _, h3⟩ := access_look ho.look ha.1
  have hs : ∀ i, (w'.hw i).stack = (w.hw i).stack := fun i => by rw [h1]
  refine ⟨(access_on ho.on ha.1 hc.1).2, ?_⟩
  rcases hc.2 with h | ⟨k, ch, h⟩
  · exact .inl (closed_onStacks w w' hs h3 h)
  · exact .inr ⟨k, ch, Inside.onStacks w w' hs h3 h⟩

theorem NoStray.stable : Stable releasing (NoStray j) := by
  rintro w w' ⟨hj, h⟩ hr
  exact ⟨hr.serving.trans hj, fun i hi => (hr.stack i).trans (h i hi)⟩

theorem NoStray.keeps :
    Keeps releasing Watched (fun o => o.On j ∨ o = .unlock) (NoStray j) := by
  rintro w o r w' ho hn ha
  have hag : Agrees ⟨w, o, r, w'⟩ := by
    rcases ho with ho | rfl
    · exact agrees_on ho
    · exact trivial
  refine ⟨⟨fun h => absurd hag h, fun h => absurd h hn.not_stray⟩, ?_⟩
  rcases ho with ho | rfl
  · obtain ⟨hs, hj⟩ := access_on ho ha.1 hn.1
    exact ⟨hj, fun i hi => (hs i hi).trans (hn.2 i hi)⟩
  · obtain ⟨rfl, _⟩ := ha
    exact hn

/-- an acknowledge of a pass over chip `j` -/
theorem ack_watched {addr : Nat} {v : UInt8} {w' : World} (hw : w.Closed) (hj : w.serving = j)
    (ha : anyChip.Ack addr w w') :
    Watched ⟨w, .readb addr, v, w'⟩ ∧ (Calm j w' ∨ StrayOf j w') := by
  cases ha with
  | nothing _ =>
    refine ⟨watched_closed ?_ hw, .inl ⟨hj, .inl hw⟩⟩
    intro i' k' x' h
    cases h
  | grant i x _ hx hl h0 =>
    by_cases hi : i = j
    · subst hi
      refine ⟨watched_closed ?_ hw,
        .inl ⟨hj, .inr ⟨x.kind, x.chan, x, ⟨?_, ?_, rfl⟩, rfl, rfl, hl⟩⟩⟩
      · rintro i' k' x' h
        cases h
        exact hj.symm
      · simp only [World.setChip, Function.update_self, Chip.grant, hw i]
      · intro i' hi'
        simp only [World.setChip, Function.update_of_ne hi', hw i']
    · have h : StrayOf j { w.setChip i ((w.hw i).grant x) with
          granted := some (i, x.kind, x.chan) } := by
        refine ⟨hj, i, hi, ?_⟩
        simp only [World.setChip, Function.update_self, Chip.grant]
        exact List.cons_ne_nil _ _
      exact ⟨⟨fun _ => h.stray, fun hs => absurd hs hw.not_stray⟩, .inr h⟩

/-- **A pass that gives the lock back has been watched throughout.** -/
theorem wp_service_watched (h : w.Closed) :
    wp releasing Watched (nm32aService j) (fun _ w' => w'.Closed) w := by
  have hkeep : ∀ w w' : World, Agrees ⟨w, .unlock, (), w'⟩ := fun _ _ => trivial
  have hask : Keeps releasing Watched (Op.Ask j) World.Closed := by
    intro w o r w' ho hw ha
    obtain ⟨h1, _, h3⟩ := access_look ho.peek.look ha.1
    exact ⟨watched_closed (agrees_on ho.peek.on) hw,
      closed_onStacks w w' (fun i => by rw [h1]) h3 hw⟩
  have hgrant := wp_serviceGrant (E := releasing) (G := Watched) (N := World.Closed)
    (P := World.Closed) (A := fun w => Calm j w ∨ StrayOf j w) (j := j) releasing_le
    (closed_onStacks.stable.le releasing_le) hask
    (by
      rintro w w' (h | h) hr
      · exact .inl (Calm.stable w w' h hr)
      · exact .inr (StrayOf.stable w w' h hr))
    (by
      rintro w o r w' ho (h | h) ha
      · exact (Calm.keeps w o r w' ho.peek h ha).imp_right .inl
      · exact (StrayOf.keeps w o r w' ho.peek.on h ha).imp_right .inr)
    (fun w addr v w' hw hj _ ha => ack_watched hw hj ha.1)
    (by
      rintro w w' hw ⟨rfl, _⟩
      exact ⟨watched_closed (hkeep _ _) hw, hw⟩)
    (by
      rintro w w' _ _ ⟨rfl, hw⟩
      exact ⟨watched_closed (hkeep _ _) hw, hw⟩) h
  unfold nm32aService
  rw [wp_bind]
  refine wp_post hgrant ?_
  intro g w1 h1
  cases g with
  | none => exact h1
  | some g =>
    show wp releasing Watched (serviceGranted j g >>= fun _ => pure true) _ w1
    rw [wp_bind]
    have hg := reaches_serviceGranted (j := j) g fun _ _ _ => Op.Pass.on
    obtain ⟨h1 | h1, hs⟩ := h1
    · -- the context is the one of this chip: as in a card whose FPGA picks it
      have hd := wp_le releasing_le (wp_serviceGranted allows_disciplined timely_anyChip h1.2 hs)
      have hk := wp_keeps NoStray.stable NoStray.keeps hg.uses h1.noStray
      exact wp_mono (wp_and hd hk) (fun _ he => he.2) (fun _ _ hq => hq.1)
    · -- a stray context: the release this pass has to reach is not `Released`
      refine wp_reaches StrayOf.stable StrayOf.keeps ?_ hg h1
      rintro w o r w' rfl h2 ha
      exact h2.stray.elim fun i hi => hi.2 (ha.2 i)

theorem wp_pollThread_watched (turns n : Nat) (h : w.Closed) :
    wp releasing Watched (nm32aPollThread turns n) (fun _ w' => w'.Closed) w := by
  refine wp_pollThread (closed_onStacks.stable.le releasing_le) ?_ ?_ turns n h
  · intro w o r w' ho hw ha
    obtain ⟨hs, hg⟩ := access_sweep ho ha.1
    refine ⟨watched_closed ?_ hw, closed_onStacks w w' hs hg hw⟩
    cases o with
    | readb addr => exact False.elim ho
    | _ => trivial
  · exact fun j w hw => wp_service_watched hw

/-! ## the whole thread -/

/-- **No release of the lock leaves a context open, exactly as long as every acknowledge grants
the chip that is being serviced.** -/
theorem released_iff_agrees (turns n : Nat) (w w' : World) (p' : Drv Unit)
    (tr : List (Event Op Res World)) (hw : w.Closed)
    (h : Exec anyChip.card (nm32aPollThread turns n) w tr w' p') :
    (∀ e ∈ tr, Released e) ↔ AgreesSoFar tr := by
  constructor
  · rintro hr tr1 e tr2 rfl ⟨u, hu, hop⟩
    have hx : Exec releasing (nm32aPollThread turns n) w (tr1 ++ e :: tr2) w' p' :=
      h.imp (fun _ _ h => h) fun e he ha => ⟨ha, hr e he⟩
    obtain ⟨hwatch, _⟩ := wp_exec (wp_pollThread_watched turns n hw) hx
    by_contra hn
    have hstray : Stray e.post := (hwatch e (by simp)).1 hn
    obtain ⟨s1, p1, _, h2⟩ := hx.split tr1
    cases h2 with
    | step _ _ h3 =>
      have hst : Stable releasing Stray := by
        rintro w w' ⟨i, hi, hs⟩ hrel
        exact ⟨i, by rw [hrel.serving]; exact hi, by rw [hrel.stack i]; exact hs⟩
      have hpre := (h3.chain hst (fun e' he' => (hwatch e' (by simp [he'])).2) hstray).1 u hu
      have hcl : u.pre.Closed := by
        have h4 := hr u (by simp [hu])
        unfold Released at h4
        rwa [hop] at h4
      exact hcl.not_stray hpre
  · intro ha e he
    obtain ⟨tr1, tr2, rfl⟩ := List.append_of_mem he
    by_cases hop : e.op = .unlock
    · -- the run up to this release is one of the card whose FPGA picks the right chip
      have hag : ∀ e' ∈ tr1, Agrees e' := by
        intro e' he'
        obtain ⟨tr3, tr4, rfl⟩ := List.append_of_mem he'
        exact ha tr3 e' (tr4 ++ e :: tr2) (by simp) ⟨e, by simp, hop⟩
      have hsplit : tr1 ++ e :: tr2 = (tr1 ++ [e]) ++ tr2 := by simp
      rw [hsplit] at h
      obtain ⟨s1, p1, h1, _⟩ := h.split (tr1 ++ [e])
      have hx := exec_ownChip h1 (by
        intro e' he'
        rcases List.mem_append.mp he' with he' | he'
        · exact hag e' he'
        · rw [List.mem_singleton.mp he']
          exact agrees_of_not_ack fun addr => by rw [hop]; nofun)
      exact (wp_exec (wp_pollThread_released turns n hw) hx).1 e (by simp)
    · obtain ⟨pre, op, res, post⟩ := e
      cases op with
      | unlock => exact absurd rfl hop
      | _ => trivial

/-- the FPGA grants chip `g w`, and nothing happens between two operations -/
def grantScript (g : World → Fin 8) : Script anyChip where
  inter _ w := w
  grants w := some (g w)
  good := true
  risr := 0x00
  tftc := 16
  ok w := decide (w.par.eoiretry ≠ 0)
  rely n w h := by
    have hp : w.par.eoiretry ≠ 0 := of_decide_eq_true h
    exact Cfg.Ready.rely_refl ⟨hp, fun _ _ _ _ => trivial⟩ (fun _ => trivial)
  pick _ _ _ := trivial
  eoirs := one_le_hundred

/-- a transmit request on chips 0 and 1 -/
def twoBusy : World :=
  { idleWorld with hw := fun j => { idleChip with req := fun k x => j ≤ 1 && k = .tx && x = 0 } }

theorem twoBusy_closed : twoBusy.Closed := fun _ => rfl

theorem released_iff_agrees_own : ∃ tr w' p',
    Exec anyChip.card (nm32aPollThread 1 1) twoBusy tr w' p' ∧
      (tr.any fun e => match e.op with
        | .cwr _ .TEOIR _ => true
        | _ => false) = true ∧ ((∀ e ∈ tr, Released e) ↔ AgreesSoFar tr) := by
  have hx := (grantScript World.serving).policy.play_exec 0 (nm32aPollThread 1 1) twoBusy
  exact ⟨_, _, _, hx, by decide +kernel, released_iff_agrees 1 1 twoBusy _ _ _ twoBusy_closed hx⟩

/-- chip 0 is serviced and the FPGA grants chip 1: the lock is given back with a context open -/
theorem released_fails : ∃ tr w' p', twoBusy.Closed ∧
    Exec anyChip.card (nm32aPollThread 1 1) twoBusy tr w' p' ∧ ¬∀ e ∈ tr, Released e := by
  have hx := (grantScript fun _ => 1).policy.play_exec 0 (nm32aPollThread 1 1) twoBusy
  refine ⟨_, _, _, twoBusy_closed, hx, ?_⟩
  have hopen : (((grantScript fun _ => 1).policy.play 0 (nm32aPollThread 1 1) twoBusy).1.any
      fun e => match e.op with
        | .unlock => !(e.pre.hw 1).stack.isEmpty
        | _ => false) = true := by decide +kernel
  obtain ⟨e, he, h⟩ := List.any_eq_true.mp hopen
  intro hr
  have h1 := hr e he
  obtain ⟨pre, op, res, post⟩ := e
  cases op with
  | unlock =>
    have h2 : (pre.hw 1).stack = [] := h1 1
    simp [h2] at h
  | _ => exact Bool.noConfusion h

end Nm32a
