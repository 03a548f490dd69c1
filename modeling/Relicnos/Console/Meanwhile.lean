import Relicnos.Interact.Cut
import Relicnos.Nm32a.Transparent

/-!
# The driver at work while somebody writes

Between two calls of a program the driver goes on with the call it is in, ends it, and may start
others; the program's own calls come in wherever the lock of the port is free.

* `Drives`       what the driver does meanwhile: anything but bring a port up;
* `Fit`          port `i` is in order, and stays so whatever becomes of the call going on;
* `Fit.drives`   the driver keeps that and takes nothing from the history of the producers;
* `Fit.serve`    so does a call of a program on any port.
-/

set_option linter.unusedVariables false

namespace Console
open Interact Nm32a

/-- `p` is what is left of the call going on -/
inductive Drives (c : Cfg) : World → Drv Unit → World → Drv Unit → Prop
  | rest (w : World) (p : Drv Unit) : Drives c w p w p
  | steps {w w1 w' : World} {p p1 p' : Drv Unit} {tr : List (Event Op Res World)} :
      Exec c.card p w tr w1 p1 → Drives c w1 p1 w' p' → Drives c w p w' p'
  | next {w w' : World} {p' : Drv Unit} (call : Call) : (∀ i, ¬call.Activates i) →
      Drives c w call.prog w' p' → Drives c w (.ret ()) w' p'

/-- a call of a program on port `i`, under its lock -/
def serve (w : World) (i : Fin 32) (call : TtyCall) : World :=
  w.setLine i (call.run (w.line i)).1

/-- nobody else writes to the ports, and the card serves the chip it is asked for -/
structure Private (c : Cfg) : Prop where
  line : ∀ l l', c.line l l' → l' = l
  timely : c.Timely
  pick : ∀ w i, c.pick w i → i = w.serving

/-- the card with any producers -/
def tended (c : Cfg) : Cfg := { c with line := Line.Produces }

theorem tended_tended (c : Cfg) : (tended c).Tended := fun _ _ h => h

variable {c : Cfg} {w w' w1 : World} {p p' p1 : Drv Unit} {i k : Fin 32}

theorem tended_le (hc : Private c) : c.card.Le (tended c).card where
  rely w w' h := by
    refine ⟨h.chip, fun i => ?_, h.par, h.held, h.serving, h.granted⟩
    rw [hc.line _ _ (h.line i)]
    exact .refl
  access w o r w' h := by
    cases o with
    | readb addr =>
      replace h : c.Ack addr w w' := h
      cases h with
      | nothing h => exact Cfg.Ack.nothing h
      | grant j x hj hx hl h0 => exact Cfg.Ack.grant j x hj hx hl h0
    | _ => exact h

/-! ## a call of a program -/

theorem serve_self (w : World) (i : Fin 32) (call : TtyCall) :
    (serve w i call).line i = (call.run (w.line i)).1 := Function.update_self ..

theorem serve_other (call : TtyCall) (h : i ≠ k) : (serve w k call).line i = w.line i :=
  Function.update_of_ne h ..

theorem serve_produces (call : TtyCall) (hl : (w.line k).locked = false) (i : Fin 32) :
    Line.Produces (w.line i) ((serve w k call).line i) := by
  by_cases e : i = k
  · subst e
    rw [serve_self]
    exact .single (call.run_produce hl)
  · rw [serve_other call e]
    exact .refl

/-- the driver could have found it like this -/
theorem serve_rely (call : TtyCall) (hl : (w.line k).locked = false)
    (h : (tended c).rely (serve w k call) w1) : (tended c).rely w w1 :=
  ⟨h.chip, fun i => (serve_produces call hl i).trans (h.line i), h.par, h.held, h.serving,
    h.granted⟩

theorem settled_serve (call : TtyCall) (hl : (w.line k).locked = false) (h : Settled i w) :
    Settled i (serve w k call) := by
  obtain ⟨ts, hp⟩ := (serve_produces call hl i).stream h.wf
  refine ⟨hp.wf, ?_, ?_⟩
  · rw [hp.mark]
    exact h.mark
  · unfold sentSince
    rw [hp.mark, hp.queue, hp.tokens, tokenBytes_append, ← List.append_assoc]
    exact congrArg (· ++ tokenBytes ts) h.stream

theorem literal_serve (call : TtyCall) (hl : (w.line k).locked = false) (h : Literal i w) :
    Literal i (serve w k call) := by
  refine ⟨h.etc, ?_⟩
  rw [(serve_produces call hl i).mark]
  exact h.sent

theorem intact_serve (call : TtyCall) (hl : (w.line k).locked = false) (h : Intact i w)
    (hm : (w.line i).mark ≤ (w.sentOn i).length) : Intact i (serve w k call) := by
  by_cases e : i = k
  · subst e
    exact (settled_serve call hl (h.settled hl hm)).intact
  · have he : (serve w k call).line i = w.line i := serve_other call e
    have hs : sentSince i (serve w k call) = sentSince i w := by
      unfold sentSince
      rw [he]
      rfl
    refine ⟨?_, ?_, ?_, ?_, ?_, ?_⟩
    all_goals rw [he]
    · exact h.head
    · exact h.tail
    · exact h.queued
    · rw [hs]
      exact h.stream
    · rw [hs]
      exact h.sofar
    · rw [hs]
      exact h.drained

/-! ## what is kept -/

/-- at the boundary of a call -/
def Level (i : Fin 32) (w : World) : Prop := Settled i w ∧ Literal i w

structure Fit (c : Cfg) (i : Fin 32) (w : World) (p : Drv Unit) : Prop where
  intact : Intact i w
  mark : (w.line i).mark ≤ (w.sentOn i).length
  literal : Literal i w
  resumes : p.Uses (Nm32a.Op.Resumes i)
  ends : wp (tended c).card (fun e => Tidy i e ∧ Literal i e.post) p (fun _ w => Level i w) w

/-- every service context is closed at the end of the call -/
def Calm (c : Cfg) (w : World) (p : Drv Unit) : Prop :=
  wp (tended c).card (fun _ => True) p (fun _ w => w.Closed) w

/-- port `i` at the start of a call that does not bring it up -/
theorem Fit.call {call : Call} (hcall : ¬call.Activates i) (h : Level i w) :
    Fit c i w call.prog := by
  have hs := wp_call_settled (tended_tended c) call hcall h.1
  have hl : wp (tended c).card (fun e => Literal i e.post) call.prog (fun _ w => Literal i w) w :=
    wp_keeps (Literal.stable (tended_tended c)) Literal.keeps.post call.zero h.2
  exact ⟨h.1.intact, h.1.mark, h.2, resumes_call hcall, wp_and hs hl⟩

theorem Fit.idle (h : Level i w) : Fit c i w (.ret ()) :=
  ⟨h.1.intact, h.1.mark, h.2, trivial, h⟩

theorem Fit.exec (hc : Private c) {tr : List (Event Op Res World)} (h : Fit c i w p)
    (hx : Exec c.card p w tr w' p') : Fit c i w' p' ∧ (w'.line i).prods = (w.line i).prods := by
  have hx' : Exec (tended c).card p w tr w' p' :=
    hx.imp (tended_le hc).rely fun e _ => (tended_le hc).access _ _ _ _
  obtain ⟨hG, hends⟩ := wp_exec h.ends hx'
  let P : World → Prop := fun v =>
    (v.line i).mark ≤ (v.sentOn i).length ∧ (v.line i).prods = (w.line i).prods
  have hstable : Stable c.card P := by
    intro v v' hv hr
    show (v'.line i).mark ≤ (v'.sentOn i).length ∧ (v'.line i).prods = (w.line i).prods
    rw [hc.line _ _ (hr.line i), hr.sentOn]
    exact hv
  have hP := (hx.chain hstable (fun e he hv => by
    have ho := hx.uses h.resumes e he
    have ha := hx.mem_access e he
    obtain ⟨hm, hg⟩ := access_grows ho ha
    refine ⟨?_, (access_resumes ho ha).trans hv.2⟩
    rw [hm]
    exact Nat.le_trans hv.1 hg) ⟨h.mark, rfl⟩).2
  refine ⟨⟨?_, hP.1, ?_, hx.left_uses h.resumes, hends⟩, hP.2⟩
  · exact hx.last (P := Intact i) h.intact fun e he => (hG e he).1.2
  · exact hx.last (P := Literal i) h.literal fun e he => (hG e he).2

/-- **The driver keeps every port in order, whatever it is in the middle of.** -/
theorem Fit.drives (hc : Private c) (h : Fit c i w p) (hd : Drives c w p w' p') :
    Fit c i w' p' ∧ (w'.line i).prods = (w.line i).prods := by
  induction hd with
  | rest => exact ⟨h, rfl⟩
  | steps hx _ ih =>
    obtain ⟨h1, hp1⟩ := h.exec hc hx
    obtain ⟨h2, hp2⟩ := ih h1
    exact ⟨h2, hp2.trans hp1⟩
  | next call hcall _ ih => exact ih (.call (hcall i) h.ends)

theorem Fit.serve (h : Fit c i w p) (call : TtyCall) (hl : (w.line k).locked = false) :
    Fit c i (serve w k call) p := by
  refine ⟨intact_serve call hl h.intact h.mark, ?_, literal_serve call hl h.literal, h.resumes,
    wp_before (fun _ => serve_rely call hl) (fun _ hq => ?_) h.ends⟩
  · rw [(serve_produces call hl i).mark]
    exact h.mark
  · exact ⟨settled_serve call hl hq.1, literal_serve call hl hq.2⟩

theorem Calm.drives (hc : Private c) (h : Calm c w p) (hd : Drives c w p w' p') :
    Calm c w' p' := by
  induction hd with
  | rest => exact h
  | steps hx _ ih =>
    have hx' := hx.imp (tended_le hc).rely fun e _ => (tended_le hc).access _ _ _ _
    exact ih (wp_exec h hx').2
  | next call _ _ ih => exact ih (wp_call_closed (c := tended c) hc.timely hc.pick call h)

theorem Calm.serve (h : Calm c w p) (call : TtyCall) (hl : (w.line k).locked = false) :
    Calm c (serve w k call) p :=
  wp_before (fun _ => serve_rely call hl) (fun _ hq => hq) h

/-! ## an open -/

/-- what an activation does besides setting the port up -/
theorem wp_activate_fresh (hc : Private c) (turns rate : Nat) :
    wp c.card (fun _ => True) (nm32aPortActivate turns i rate)
      (fun r w' => r = 0 → (w'.line i).prods = []) w := by
  have hany : Stable c.card fun _ => True := fun _ _ h _ => h
  have hall : Keeps c.card (fun _ => True) (fun _ => True) fun _ => True :=
    fun _ _ _ _ _ _ _ => ⟨trivial, trivial⟩
  have hstable : Stable c.card fun w => (w.line i).prods = [] := by
    intro v v' hv hr
    rw [hc.line _ _ (hr.line i)]
    exact hv
  have hkeeps : Keeps c.card (fun _ => True) (Nm32a.Op.Resumes i) fun w => (w.line i).prods = [] :=
    fun v o r v' ho hv ha => ⟨trivial, (access_resumes ho ha).trans hv⟩
  rw [nm32aPortActivate_eq]
  refine wp_bind_keeps hany hall (uses_issue trivial) trivial fun _ w1 _ => ?_
  refine wp_bind_keeps hany hall (uses_issue trivial) trivial fun gfrcr w2 _ => ?_
  split
  · refine wp_bind_keeps hany hall (uses_issue trivial) trivial fun _ w3 _ h => ?_
    exact absurd h (by decide)
  refine wp_bind_keeps hany hall ((uses_chanInit turns _).mono fun _ _ => trivial) trivial
    fun _ w3 _ => ?_
  refine wp_bind_keeps hany hall (uses_issue trivial) trivial fun _ w4 _ => ?_
  refine wp_issue hany trivial ?_
  rintro w5 _ _ _ _ rfl
  refine ⟨trivial, wp_post (wp_keeps hstable hkeeps ?_ ?_) fun _ _ h _ => h⟩
  · refine Prog.Uses.bind (uses_issue trivial) fun _ => ?_
    refine Prog.Uses.bind (uses_issue trivial) fun now => ?_
    refine Prog.Uses.bind (uses_issue trivial) fun _ => ?_
    refine Prog.Uses.bind (uses_issue trivial) fun _ => ?_
    refine Prog.Uses.bind (uses_issue trivial) fun _ => ?_
    exact Prog.Uses.bind (uses_issue trivial) fun _ => trivial
  · show ((Function.update w5.line i (w5.assign i (.head 0))) i).prods = []
    rw [Function.update_self]
    rfl

section
variable {turns rate : Nat} {rc : Int} {tr : List (Event Op Res World)}

/-- the activation as a call of the driver -/
theorem activate_call (h : Runs c.card (nm32aPortActivate turns i rate) w tr rc w') :
    Exec c.card (Call.prog (.activate turns i rate)) w tr w' (.ret ()) :=
  runs_bind.mpr ⟨tr, rc, w', [], (List.append_nil _).symm, h, .stop _ _⟩

/-- a port that has been brought up is in order, and nothing was written to it yet -/
theorem activated (hc : Private c) (hclosed : w.Closed)
    (h : Runs c.card (nm32aPortActivate turns i rate) w tr 0 w') :
    Level i w' ∧ (w'.line i).prods = [] := by
  have hx : Runs (tended c).card (nm32aPortActivate turns i rate) w tr 0 w' :=
    h.imp (tended_le hc).rely fun e _ => (tended_le hc).access _ _ _ _
  refine ⟨⟨?_, ?_⟩, (wp_runs (wp_activate_fresh hc turns rate) h).2 rfl⟩
  · exact (wp_runs (wp_activate_settled (tended_tended c) turns rate) hx).2 rfl
  · exact (wp_runs (wp_activate_literal (tended_tended c) turns rate hclosed) hx).2 rfl

/-- the other ports are as they were -/
theorem Fit.activate (hc : Private c) (hk : i ≠ k) (hf : Fit c k w (.ret ()))
    (h : Runs c.card (nm32aPortActivate turns i rate) w tr rc w') :
    Fit c k w' (.ret ()) ∧ (w'.line k).prods = (w.line k).prods := by
  have hfit : Fit c k w (Call.prog (.activate turns i rate)) := Fit.call hk hf.ends
  exact hfit.exec hc (activate_call h)

theorem Calm.activate (hc : Private c) (hclosed : Calm c w (.ret ()))
    (h : Runs c.card (nm32aPortActivate turns i rate) w tr rc w') : Calm c w' (.ret ()) := by
  have hx := (activate_call h).imp (tended_le hc).rely fun e _ => (tended_le hc).access _ _ _ _
  exact (wp_exec (wp_call_closed (c := tended c) hc.timely hc.pick (.activate turns i rate)
    hclosed) hx).2

end

end Console
