import Relicnos.Nm32a.Breaks
import Relicnos.Nm32a.Drain

/-!
# Writers that wait for room

A blocking writer whose write was short sleeps until the driver signals room with `tty_wakeup`.
No operation of the driver is such a signal (`Op` has none, and neither has the source), so a
writer that sleeps is never woken, and what keeps a run from the state `Stranded` is only that no
write is short.

* `serves_short`         a write is short exactly if it does not fit;
* `no_lost_wakeup`       a run whose writes all fit;
* `no_lost_wakeup_fails` a write of 1024 bytes, and the passes that empty the ring after it.
-/

set_option linter.unusedVariables false

namespace Nm32a
open Interact

/-- a write that took less than it was given -/
def Done.Short : Done → Prop
  | .write buf _ rc => rc < buf.length
  | .breakCtl _ _ _ => False

/-- a write whose slots are free -/
def Done.Fits : Done → Prop
  | .write buf space _ => slots buf ≤ space
  | .breakCtl _ _ _ => True

/-- a writer sleeps after a short write, the ring is empty, and nothing has woken the writer -/
def Stranded (i : Fin 32) (s : World × List Done) : Prop :=
  (∃ d ∈ s.2, d.Short) ∧ (s.1.line i).np.queue = []

theorem Done.breakCtl_short (state : Int) (space : Nat) (rc : Int) :
    (Done.breakCtl state space rc).Short ↔ ¬(Done.breakCtl state space rc).Fits :=
  ⟨fun hf => hf.elim, fun hn => hn trivial⟩

theorem TtyCall.run_short {l : Line} (call : TtyCall) (h : l.np.Wf) :
    (call.run l).2.Short ↔ ¬(call.run l).2.Fits := by
  cases call with
  | write buf =>
    have hall := nm32aTtyWriteLocked_all h buf
    have hle := (nm32aTtyWriteLocked_queue h buf).2.1
    show ((nm32aTtyWriteLocked l.np buf).2 : Int) < buf.length ↔ ¬slots buf ≤ nm32aTxSpace l.np
    rw [← hall]
    omega
  | breakCtl state => exact Done.breakCtl_short _ _ _

theorem TtyCall.run_wf {l : Line} (call : TtyCall) (h : l.np.Wf) : (call.run l).1.np.Wf := by
  have hnp : ∀ (np : Port) (ps : List Prod), np.Wf →
      ({ l with np := np, prods := ps } : Line).np.Wf :=
    fun _ _ h => h
  cases call with
  | write buf => exact hnp _ _ (nm32aTtyWriteLocked_queue h buf).1
  | breakCtl state => exact hnp _ _ (breakPut_queue h (state ≠ 0)).1

/-- **A write is short exactly if it does not fit.** -/
theorem serves_short {l l' : Line} {ds : List Done} (hs : Line.Serves l ds l') (h : l.np.Wf) :
    ∀ d ∈ ds, d.Short ↔ ¬d.Fits := by
  induction hs with
  | none => simp
  | more call _ _ ih =>
    intro d hd
    rcases List.mem_cons.mp hd with rfl | hd
    · exact call.run_short h
    · exact ih (call.run_wf h) d hd

variable {c : Cfg} {i : Fin 32}

theorem Port.wf_of {np : Port} (hh : np.head < txbuf) (ht : np.tail < txbuf) : np.Wf := ⟨hh, ht⟩

theorem Intact.wf {w : World} (h : Intact i w) : (w.line i).np.Wf := Port.wf_of h.head h.tail

/-- every write of a run -/
theorem run_short (hc : c.Tended) {turns rate : Nat} {calls : List Call}
    (hcalls : ∀ call ∈ calls, ¬call.Activates i) {w w1 : World} {s2 : World × List Done}
    {tr1 : List (Event Op Res World)} {tr2 : List (Event Op Res (World × List Done))}
    {p' : Drv Unit} (h1 : Runs c.card (nm32aPortActivate turns i rate) w tr1 0 w1)
    (h2 : Exec (ttyCard c i) (callsProg calls) (w1, []) tr2 s2 p') :
    ∀ d ∈ s2.2, d.Short ↔ ¬d.Fits := by
  obtain ⟨hw1, htr⟩ := txRing_intact hc hcalls h1 h2.unlog
  refine h2.log_all (W := fun w => (w.line i).np.Wf) ?_ hw1.wf ?_ (by simp)
  · intro w ds w' hw hs
    exact serves_short hs hw
  · intro e he
    exact (htr _ (List.mem_map_of_mem he)).2.wf

/-- **Nobody is stranded as long as every write fits.** -/
theorem no_lost_wakeup (c : Cfg) (hc : c.Tended) (i : Fin 32) (turns rate : Nat)
    (calls : List Call) (hcalls : ∀ call ∈ calls, ¬call.Activates i) (w w1 : World)
    (s2 : World × List Done) (tr1 : List (Event Op Res World))
    (tr2 : List (Event Op Res (World × List Done))) (p' : Drv Unit)
    (h1 : Runs c.card (nm32aPortActivate turns i rate) w tr1 0 w1)
    (h2 : Exec (ttyCard c i) (callsProg calls) (w1, []) tr2 s2 p')
    (hfits : ∀ d ∈ s2.2, d.Fits) : ∀ e ∈ tr2, ¬Stranded i e.pre ∧ ¬Stranded i e.post := by
  have hshort := run_short hc hcalls h1 h2
  intro e he
  obtain ⟨hpre, hpost⟩ := h2.log_prefix.2 e he
  constructor
  · rintro ⟨⟨d, hd, hs⟩, _⟩
    have hm := hpre.subset hd
    exact (hshort d hm).mp hs (hfits d hm)
  · rintro ⟨⟨d, hd, hs⟩, _⟩
    have hm := hpost.subset hd
    exact (hshort d hm).mp hs (hfits d hm)

/-- one write of two bytes fits, and one service sends it -/
theorem no_lost_wakeup_fits : ∃ tr s p',
    Exec (ttyCard tendedCard 1) (callsProg [.service 0]) (upWorld, []) tr s p' ∧
      (s.1.line 1).np.queue = [] ∧ sentSince 1 s.1 = [0x41, 0x42] ∧
      ∀ e ∈ tr, ¬Stranded 1 e.pre ∧ ¬Stranded 1 e.post := by
  obtain ⟨tr1, h1⟩ := upWorld_runs
  let P := ttyPolicy 1 fun n => if n = 0 then [.write [0x41, 0x42]] else []
  have h2 := P.play_exec 0 (callsProg [.service 0]) (upWorld, [])
  refine ⟨_, _, _, h2, by decide +kernel, by decide +kernel, ?_⟩
  refine no_lost_wakeup tendedCard tendedCard_tended 1 1 9600 [.service 0]
    (by simp [Call.Activates]) _ _ _ _ _ _ h1 h2 ?_
  have hall : ((P.play 0 (callsProg [.service 0]) (upWorld, [])).2.1.2.all fun d =>
    match d with
    | .write buf space _ => decide (slots buf ≤ space)
    | .breakCtl _ _ _ => true) = true := by decide +kernel
  intro d hd
  have h := List.all_eq_true.mp hall d hd
  cases d with
  | write buf space rc =>
    have hf : slots buf ≤ space := of_decide_eq_true h
    exact hf
  | breakCtl state space rc => trivial

/-! ## a write that does not fit -/

/-- nothing happens to the ports -/
theorem calm_maps (log : List Done) :
    calmCard.card.Maps (fun w => (w, log)) (ttyCard tendedCard i) := by
  refine ⟨fun w w' hr => ?_, fun w o r w' ha => ?_⟩
  · refine ⟨⟨hr.chip, fun i' => ?_, hr.par, hr.held, hr.serving, hr.granted⟩, [], ?_,
      (List.append_nil _).symm⟩
    · have hl : w'.line i' = w.line i' := hr.line i'
      rw [hl]
      exact .refl
    · have hl : w'.line i = w.line i := hr.line i
      show (w.line i).Serves [] (w'.line i)
      rw [hl]
      exact .none _
  · refine ⟨?_, rfl⟩
    cases o with
    | readb addr =>
      replace ha : calmCard.Ack addr w w' := ha
      cases ha with
      | nothing h => exact .nothing h
      | grant j x hj hx hl h0 => exact .grant j x hj hx hl h0
    | _ => exact ha

/-- calls of the tty layer, and enough passes to empty the ring after them -/
theorem can_drainAfter {w f : World} {np : Port} {ds : List Done} (log : List Done)
    (hr : tendedCard.rely w f) (hs : (w.line i).Serves ds (f.line i))
    (h : Drainable i np false [] f) (hw : np.Wf) :
    Can (ttyCard tendedCard i)
      (callsProg (.dtrRts i true :: List.replicate 64 (.service (chipOf i))))
      (fun _ s => s.2 = log ++ ds ∧ (s.1.line i).np.queue = []) (w, log) := by
  have hlen : np.queue.length ≤ 1023 := Port.queue_length hw
  refine can_op (f, log ++ ds) () ({ f with held := true }, log ++ ds) ⟨hr, ds, hs, rfl⟩
    ⟨rfl, rfl⟩ ?_
  refine Can.map (calm_maps (log ++ ds)) (s := { f with held := true }) ?_
  have h0 : Drainable i np false [] { f with held := true } :=
    ⟨h.par, h.serving, h.np, h.locked, h.stack⟩
  refine can_write h0 (fun c hs => hs) fun w1 h1 => ?_
  refine can_write h1 (fun c hs => hs) fun w2 h2 => ?_
  refine can_write h2 (fun c hs => hs) fun w3 h3 => ?_
  refine can_hwUnlock h3 fun w4 h4 => ?_
  exact can_mono (can_drain 64 h4 hw (by omega)) fun _ _ hq => ⟨rfl, hq⟩

/-- one byte more than the ring holds -/
def tooLong : List UInt8 := List.replicate 1024 0x41

/-- port 1 after a write of it -/
def fullWorld : World := (serveOn 1 [.write tooLong] upWorld).1

theorem fullWorld_drainable : Drainable 1 (fullWorld.line 1).np false [] fullWorld := by
  have hstack : (fullWorld.hw 0).stack.isEmpty = true := by decide +kernel
  exact ⟨by decide +kernel, by decide +kernel, rfl, by decide +kernel, List.isEmpty_iff.mp hstack⟩

theorem fullWorld_wf : (fullWorld.line 1).np.Wf := by
  have h : (fullWorld.line 1).np.head < txbuf ∧ (fullWorld.line 1).np.tail < txbuf := by
    decide +kernel
  exact Port.wf_of h.1 h.2

/-- the writer of 1024 bytes to an empty ring sleeps for ever -/
theorem no_lost_wakeup_fails : ∃ tr s,
    Runs (ttyCard tendedCard 1)
      (callsProg (.dtrRts 1 true :: List.replicate 64 (.service 0))) (upWorld, []) tr () s ∧
      s.2 = [.write tooLong 1023 1023] ∧ Stranded 1 s := by
  have hlog : (serveOn 1 [.write tooLong] upWorld).2 = [.write tooLong 1023 1023] := by
    decide +kernel
  have hrely : tendedCard.rely upWorld fullWorld := by
    refine serveOn_rely ⟨?_, fun _ _ _ _ => trivial⟩
    show upWorld.par.eoiretry ≠ 0
    decide +kernel
  have hdid : (upWorld.line 1).Serves [.write tooLong 1023 1023] (fullWorld.line 1) := by
    rw [← hlog]
    exact serves_serveOn 1 [.write tooLong] upWorld
  have hcan := can_drainAfter [] hrely hdid fullWorld_drainable fullWorld_wf
  obtain ⟨tr, _, s, hx, hlogged, hq⟩ := hcan
  refine ⟨tr, s, hx, hlogged, ⟨_, by rw [hlogged]; exact List.mem_singleton.mpr rfl, ?_⟩, hq⟩
  show (1023 : Int) < (tooLong.length : Int)
  decide +kernel

end Nm32a
