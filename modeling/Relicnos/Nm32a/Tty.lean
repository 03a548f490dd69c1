import Relicnos.Interact.Ledger
import Relicnos.Nm32a.Transmit

/-!
# The tty layer's calls on one port

The producers of `Nm32a.World` leave behind what they pushed.  What their callers were told is
kept in a log: `ttyCard c i` is the card `c` where all that happens to port `i` between two
operations is calls of `nm32a_tty_write` and `nm32a_break_ctl`, each logged as a `Done`.

* `TtyCall.run`     one call, under `np->lock`;
* `resumes_calls`   driver calls other than an activation of the port leave the history of its
                    producers alone;
* `ttyScript`       a scripted card that logs.
-/

set_option linter.unusedVariables false

namespace Nm32a
open Interact

inductive TtyCall where
  | write (buf : List UInt8)
  | breakCtl (state : Int)

/-- a finished call, with the free slots it found and its answer -/
inductive Done where
  | write (buf : List UInt8) (space : Nat) (rc : Int)
  | breakCtl (state : Int) (space : Nat) (rc : Int)
  deriving DecidableEq

def TtyCall.run (l : Line) : TtyCall → Line × Done
  | .write buf => ({ l with
      np := (nm32aTtyWriteLocked l.np buf).1
      prods := l.prods ++ [.write (buf.take (nm32aTtyWriteLocked l.np buf).2)] },
    .write buf (nm32aTxSpace l.np) (nm32aTtyWrite (some l.np) buf).2)
  | .breakCtl state => ({ l with
      np := breakPut l.np (state ≠ 0)
      prods := l.prods ++ if 2 ≤ nm32aTxSpace l.np then [.brk (state ≠ 0)] else [] },
    .breakCtl state (nm32aTxSpace l.np) (nm32aBreakCtl (some l.np) state).2)

/-- any number of calls, oldest first -/
inductive Line.Serves : Line → List Done → Line → Prop
  | none (l : Line) : Serves l [] l
  | more {l l' : Line} {ds : List Done} (call : TtyCall) : l.locked = false →
      Serves (call.run l).1 ds l' → Serves l ((call.run l).2 :: ds) l'

theorem TtyCall.run_produce (call : TtyCall) {l : Line} (h : l.locked = false) :
    Line.Produce l (call.run l).1 := by
  cases call with
  | write buf => exact .write l buf h
  | breakCtl state => exact .breakCtl l (state ≠ 0) h

theorem TtyCall.run_locked (call : TtyCall) (l : Line) : (call.run l).1.locked = l.locked := by
  have hsame : ∀ (np : Port) (ps : List Prod),
      ({ l with np := np, prods := ps } : Line).locked = l.locked := fun _ _ => rfl
  cases call with
  | write buf => exact hsame _ _
  | breakCtl state => exact hsame _ _

theorem TtyCall.run_same (call : TtyCall) (l : Line) : l.np.SameState (call.run l).1.np := by
  have hsame : ∀ (np : Port) (ps : List Prod), l.np.SameState np →
      l.np.SameState ({ l with np := np, prods := ps } : Line).np := fun _ _ h => h
  cases call with
  | write buf => exact hsame _ _ (nm32aTtyWriteLocked_same l.np buf)
  | breakCtl state => exact hsame _ _ (breakPut_same l.np (state ≠ 0))

theorem Line.Serves.produces {l l' : Line} {ds : List Done} (h : Line.Serves l ds l') :
    Line.Produces l l' := by
  induction h with
  | none => exact .refl
  | more call hl _ ih => exact .head (call.run_produce hl) ih

/-- a card with a log of the calls on port `i` -/
def ttyCard (c : Cfg) (i : Fin 32) : Env Op Res (World × List Done) :=
  c.card.logged fun w ds w' => (w.line i).Serves ds (w'.line i)

/-! ## what starts a history anew -/

/-- operations that do not start the history of port `i` anew -/
def Op.Resumes (i : Fin 32) : Op → Prop
  | .setPort i' (.head _) => i' ≠ i
  | _ => True

theorem access_resumes {c : Cfg} {i : Fin 32} {w w' : World} {o : Op} {r : Res o}
    (ho : o.Resumes i) (ha : c.access w o r w') : (w'.line i).prods = (w.line i).prods := by
  have hset : ∀ (i' : Fin 32) (l : Line), (i' = i → l.prods = (w.line i).prods) →
      ((w.setLine i' l).line i).prods = (w.line i).prods := by
    intro i' l hl
    unfold World.setLine
    by_cases e : i = i'
    · subst e
      simp only [Function.update_self]
      exact hl rfl
    · simp only [Function.update_of_ne e]
  cases o with
  | crd j reg =>
    obtain ⟨h', _, rfl⟩ := ha
    rfl
  | readb addr =>
    replace ha : c.Ack addr w w' := ha
    cases ha with
    | nothing h => rfl
    | grant j x hj hx hl h0 => rfl
  | spinLock i' => subst ha; exact hset i' _ fun e => by rw [← e]
  | spinUnlock i' => subst ha; exact hset i' _ fun e => by rw [← e]
  | flip i' bs => subst ha; exact hset i' _ fun e => by rw [← e]
  | setPort i' f =>
    subst ha
    cases f with
    | head v =>
      apply hset i'
      intro e
      exact absurd e ho
    | _ => exact hset i' _ fun e => by subst e; rfl
  | port i' => obtain ⟨_, rfl⟩ := ha; rfl
  | params => obtain ⟨_, rfl⟩ := ha; rfl
  | jiffies => obtain ⟨_, rfl⟩ := ha; rfl
  | hang => exact False.elim ha
  | _ => subst ha; rfl

section
variable {i : Fin 32} {j : Fin 8} {k : Fin 32} {o : Op}

theorem Op.resumes_light {k : Fin 32} {f : PortField} (h : f.Light) :
    Op.Resumes i (.setPort k f) := by
  cases f with
  | head v => exact False.elim h
  | _ => trivial

theorem Op.resumes_other {k : Fin 32} (h : k ≠ i) (f : PortField) :
    Op.Resumes i (.setPort k f) := by
  cases f with
  | head v => exact h
  | _ => trivial

theorem Op.Service.resumes (h : o.Service j) : o.Resumes i := by
  cases o with
  | setPort k f =>
    rcases h with h | ⟨_, h⟩ | h |
      ⟨_, _, ((h | h) | h | ⟨_, h⟩ | ⟨_, ⟨_, h⟩ | ⟨_, h⟩⟩) | h | ⟨_, h⟩⟩
    · exact False.elim h
    · cases h
    · cases h
    · exact False.elim h
    · exact Op.resumes_light h.2
    · cases h
    · cases h
    · cases h
    · cases h
      trivial
    · exact False.elim h
    · cases h
  | _ => trivial

theorem Op.Sweep.resumes (h : o.Sweep) : o.Resumes i := by
  cases o with
  | setPort k f => exact False.elim h
  | _ => trivial

theorem Op.Switch.resumes (h : o.Switch k) : o.Resumes i := by
  cases o with
  | setPort k' f =>
    rcases h with ⟨_, b, rfl⟩ | ⟨v, h⟩
    · trivial
    · cases h
  | _ => trivial

theorem Op.Bringup.resumes (hk : k ≠ i) (h : o.Bringup k) : o.Resumes i := by
  rcases h with h | ⟨f, rfl⟩
  · exact h.resumes
  · exact Op.resumes_other hk f

/-- a call that does not activate port `i` -/
theorem resumes_call {call : Call} (h : ¬call.Activates i) : call.prog.Uses (Op.Resumes i) := by
  cases call with
  | service chip => exact uses_discard (uses_service.mono fun _ => Op.Service.resumes)
  | armTx chip => exact (uses_armTx chip).mono fun _ => Op.Sweep.resumes
  | activate turns k rate =>
    exact uses_discard ((uses_activate turns rate).mono fun _ => Op.Bringup.resumes h)
  | setTermios turns k rate => exact (uses_setTermios turns rate).mono fun _ => Op.Switch.resumes
  | dtrRts k active => exact (uses_dtrRts active).mono fun _ h => Op.Switch.resumes (.inl h)
  | shutdown k => exact uses_shutdown.mono fun _ => Op.Switch.resumes
  | sample k => exact uses_discard (uses_sample.mono fun _ h => Op.Switch.resumes (.inl h))

theorem resumes_calls {calls : List Call} (h : ∀ call ∈ calls, ¬call.Activates i) :
    (callsProg calls).Uses (Op.Resumes i) := by
  induction calls with
  | nil => trivial
  | cons call calls ih =>
    refine Prog.Uses.bind (resumes_call (h call (List.mem_cons_self ..))) ?_
    intro _
    exact ih fun call' hm => h call' (List.mem_cons_of_mem _ hm)

end

/-! ## scripts with a log -/

/-- the calls one after the other -/
def serveAll (l : Line) : List TtyCall → Line × List Done
  | [] => (l, [])
  | call :: calls =>
    ((serveAll (call.run l).1 calls).1, (call.run l).2 :: (serveAll (call.run l).1 calls).2)

theorem serves_serveAll {l : Line} (h : l.locked = false) (calls : List TtyCall) :
    Line.Serves l (serveAll l calls).2 (serveAll l calls).1 := by
  induction calls generalizing l with
  | nil => exact .none l
  | cons call calls ih => exact .more call h (ih ((call.run_locked l).trans h))

/-- the calls on port `i` if its lock is free -/
def serveOn (i : Fin 32) (calls : List TtyCall) (w : World) : World × List Done :=
  if (w.line i).locked = false then
    (w.setLine i (serveAll (w.line i) calls).1, (serveAll (w.line i) calls).2)
  else (w, [])

theorem serves_serveOn (i : Fin 32) (calls : List TtyCall) (w : World) :
    (w.line i).Serves (serveOn i calls w).2 ((serveOn i calls w).1.line i) := by
  unfold serveOn
  split
  · rename_i hl
    show Line.Serves _ _ (Function.update w.line i _ i)
    rw [Function.update_self]
    exact serves_serveAll hl calls
  · exact .none _

/-- the channel of port `i` asks for data, and nothing else requests -/
def asks (i : Fin 32) (w : World) : World :=
  w.setChip (chipOf i) { w.hw (chipOf i) with req := fun k x => k = .tx && x = chanIx i }

theorem asks_rely {c : Cfg} {i : Fin 32} {w w' : World} (hc : c.raises (chipOf i))
    (h : c.rely w w') : c.rely w (asks i w') := by
  refine ⟨fun j => ?_, h.line, h.par, h.held, h.serving, h.granted⟩
  obtain ⟨req, more, hr, he⟩ := h.chip j
  by_cases e : j = chipOf i
  · subst e
    refine ⟨fun k x => k = .tx && x = chanIx i, more, fun _ _ _ => hc, ?_⟩
    simp only [asks, World.setChip, Function.update_self, he]
  · refine ⟨req, more, hr, ?_⟩
    simp only [asks, World.setChip, Function.update_of_ne e, he]

theorem serveOn_rely {i : Fin 32} {calls : List TtyCall} {w : World} (h : tendedCard.Ready w) :
    tendedCard.rely w (serveOn i calls w).1 := by
  have hrefl := h.rely_refl (c := tendedCard) fun _ => Relation.ReflTransGen.refl
  have hserves := (serves_serveOn i calls w).produces
  unfold serveOn at hserves ⊢
  split
  · rename_i hl
    refine ⟨hrefl.chip, fun i' => ?_, hrefl.par, rfl, rfl, rfl⟩
    by_cases e : i' = i
    · subst e
      rw [if_pos hl] at hserves
      exact hserves
    · simp only [World.setLine, Function.update_of_ne e]
      exact .refl
  · exact hrefl

/-- the FPGA grants the chip being serviced, and before the `n`-th operation `calls n` are made
on port `i`, whose channel always asks for data -/
def ttyScript (i : Fin 32) (calls : Nat → List TtyCall) : Script tendedCard where
  inter n w := asks i (serveOn i (calls n) w).1
  grants w := some w.serving
  good := false
  risr := 0x80
  tftc := 16
  ok w := decide (w.par.eoiretry ≠ 0)
  rely n w h := by
    have hp : w.par.eoiretry ≠ 0 := of_decide_eq_true h
    exact asks_rely trivial (serveOn_rely ⟨hp, fun _ _ _ _ => trivial⟩)
  pick w j h := picks_serving h
  eoirs := one_le_hundred

def ttyPolicy (i : Fin 32) (calls : Nat → List TtyCall) : Policy (ttyCard tendedCard i) :=
  (ttyScript i calls).policy.logged (fun n w => (serveOn i (calls n) w).2) (by
    intro n w o w1 r w2 h
    unfold Script.policy at h
    simp only at h
    split at h
    · obtain ⟨t, _, he⟩ := Option.map_eq_some_iff.mp h
      cases he
      exact serves_serveOn i (calls n) w
    · cases h)

end Nm32a
