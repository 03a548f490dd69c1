import Relicnos.Nm32a.Context

/-!
# Sequences of driver calls

Every entry point that touches the chips holds `hw_lock` while it does, so a run of the driver
is a sequence of calls, with the producers of the ports in between (they are in the
environment).  `callsProg` is such a sequence and `wp_calls` its rule.

`Op.Tune j` is what the set-up of a channel of chip `j` issues besides choosing it, and
`Op.Setup k` is what the calls on port `k` other than services issue; the ring of a port is
assigned to by its activation only.
-/

set_option linter.unusedVariables false

namespace Nm32a
open Interact

inductive Call where
  | service (chip : Fin 8)
  | armTx (chip : Fin 8)
  | activate (turns : Nat) (i : Fin 32) (rate : Nat)
  | setTermios (turns : Nat) (i : Fin 32) (rate : Nat)
  | dtrRts (i : Fin 32) (active : Bool)
  | shutdown (i : Fin 32)
  | sample (i : Fin 32)

def discard {α : Type} (p : Drv α) : Drv Unit := p >>= fun _ => pure ()

def Call.prog : Call → Drv Unit
  | .service chip => discard (nm32aService chip)
  | .armTx chip => nm32aArmTx chip
  | .activate turns i rate => discard (nm32aPortActivate turns i rate)
  | .setTermios turns i rate => nm32aTtySetTermios turns i rate
  | .dtrRts i active => nm32aDtrRts i active
  | .shutdown i => nm32aPortShutdown i
  | .sample i => discard (sendbreakSample i)

/-- the call brings port `i` up -/
def Call.Activates (i : Fin 32) : Call → Prop
  | .activate _ i' _ => i' = i
  | _ => False

def callsProg : List Call → Drv Unit
  | [] => pure ()
  | call :: calls => call.prog >>= fun _ => callsProg calls

variable {c : Cfg} {E : Env Op Res World} {G : Event Op Res World → Prop} {w : World}

theorem wp_discard {σ α : Type} {E : Env Op Res σ} {G : Event Op Res σ → Prop} {s : σ}
    {p : Drv α} {P : σ → Prop} (h : wp E G p (fun _ s' => P s') s) :
    wp E G (discard p) (fun _ s' => P s') s :=
  (wp_bind _ _ _ _).mpr (wp_post h fun _ _ hp => hp)

theorem uses_discard {α : Type} {p : Drv α} {O : Op → Prop} (h : p.Uses O) :
    (discard p).Uses O := Prog.Uses.bind h fun _ => trivial

theorem wp_calls {P : World → Prop} {calls : List Call}
    (hs : ∀ call ∈ calls, ∀ w, P w → wp E G call.prog (fun _ w' => P w') w) (h : P w) :
    wp E G (callsProg calls) (fun _ w' => P w') w := by
  induction calls generalizing w with
  | nil => exact h
  | cons call calls ih =>
    refine (wp_bind _ _ _ _).mpr (wp_post (hs call (List.mem_cons_self ..) w h) ?_)
    intro _ w' h'
    exact ih (fun call' hc => hs call' (List.mem_cons_of_mem _ hc)) h'

/-- one complete call of a run -/
structure CallStep where
  pre : World
  call : Call
  trace : List (Event Op Res World)
  post : World

/-- complete calls, one after the other -/
inductive CallRuns (E : Env Op Res World) : World → List CallStep → World → Prop
  | nil (w : World) : CallRuns E w [] w
  | cons {s : CallStep} {steps : List CallStep} {w' : World} :
      Runs E s.call.prog s.pre s.trace () s.post → CallRuns E s.post steps w' →
      CallRuns E s.pre (s :: steps) w'

/-- what every call that meets `Q` keeps, a run of such calls keeps -/
theorem CallRuns.keeps {P : World → Prop} {Q R : CallStep → Prop} {steps : List CallStep}
    {w' : World} (h : CallRuns E w steps w')
    (hs : ∀ s, Q s → P s.pre → Runs E s.call.prog s.pre s.trace () s.post → R s ∧ P s.post)
    (hq : ∀ s ∈ steps, Q s) (hp : P w) : (∀ s ∈ steps, R s) ∧ P w' := by
  induction h with
  | nil => exact ⟨by simp, hp⟩
  | cons h1 _ ih =>
    obtain ⟨hr, hp1⟩ := hs _ (hq _ (List.mem_cons_self ..)) hp h1
    obtain ⟨hrs, hp'⟩ := ih (fun s hm => hq s (List.mem_cons_of_mem _ hm)) hp1
    refine ⟨?_, hp'⟩
    intro s hm
    rcases List.mem_cons.mp hm with rfl | hm
    · exact hr
    · exact hrs s hm

/-! ## what the calls issue -/

/-- what a call on port `k` issues: the channel is addressed through `CAR`, `COR2` is written
as 0 only, and no context is entered or ended -/
def Op.Setup (k : Fin 32) : Op → Prop
  | .crd j reg => j = chipOf k ∧ reg ≠ .RDR ∧ reg ≠ .RFOC
  | .cwr j reg v => j = chipOf k ∧ reg.Plain ∧ reg ≠ .IER ∧ (reg = .CAR → chanOf v = chanIx k) ∧
      (reg = .COR2 → v = 0x00)
  | .setPort k' f => k' = k ∧ ∃ b, f = .opened b
  | .lock => True
  | .unlock => True
  | .params => True
  | .jiffies => True
  | .ratelimit => True
  | .hang => True
  | _ => False

/-- some of them also write `IER` -/
def Op.Switch (k : Fin 32) (o : Op) : Prop := o.Setup k ∨ ∃ v, o = .cwr (chipOf k) .IER v

/-- and an activation sets the fields of the port -/
def Op.Bringup (k : Fin 32) (o : Op) : Prop := o.Switch k ∨ ∃ f, o = .setPort k f

variable {k : Fin 32} {α : Type}

theorem uses_write {O : Op → Prop} {chip : Fin 8} {reg : Reg} {v : UInt8} {f : Unit → Drv α}
    (h : O (.cwr chip reg v)) (hf : (f ()).Uses O) : (cwr chip reg v >>= f).Uses O :=
  Prog.Uses.bind (uses_issue h) fun _ => hf

theorem setup_car : Op.Setup k (.cwr (chipOf k) .CAR (UInt8.ofNat (chanIx k).val)) :=
  ⟨rfl, trivial, nofun, fun _ => chanOf_ofNat _, nofun⟩

/-- registers that set a channel up: it is not chosen, served or enabled with them, and no
acknowledge level and no microcode is written -/
def Reg.Setting : Reg → Prop
  | .CAR => False
  | .IER => False
  | .TDR => False
  | .REOIR => False
  | .TEOIR => False
  | .RPILR => False
  | .TPILR => False
  | .AIRL => False
  | .AIRM => False
  | .AIRH => False
  | .MTCR => False
  | .BTCR => False
  | _ => True

/-- `CCR_RSTALL` -/
def ccrRstall : UInt8 := 0x10

/-- what the set-up of a channel of chip `j` issues besides choosing it -/
def Op.Tune (j : Fin 8) : Op → Prop
  | .crd j' reg => j' = j ∧ (reg = .CCR ∨ reg = .GFRCR ∨ reg = .RCOR)
  | .cwr j' reg v => j' = j ∧ reg.Setting ∧ (reg = .COR2 → v = 0x00) ∧
      (reg = .CCR → v &&& ccrRstall = 0)
  | .params => True
  | .jiffies => True
  | .ratelimit => True
  | .hang => True
  | _ => False

/-- the registers that hold the speed of a channel -/
def Reg.Clock : Reg → Prop
  | .TCOR => True
  | .TBPR => True
  | .RCOR => True
  | .RBPR => True
  | _ => False

/-- what the set-up issues besides choosing the channel and its speed -/
def Op.Trim (j : Fin 8) : Op → Prop
  | .cwr j' reg v => Op.Tune j (.cwr j' reg v) ∧ ¬reg.Clock
  | o => o.Tune j

theorem Op.Trim.tune {j : Fin 8} {o : Op} (h : o.Trim j) : o.Tune j := by
  cases o with
  | cwr j' reg v => exact h.1
  | _ => exact h

theorem Reg.Setting.plain {reg : Reg} (h : reg.Setting) :
    reg.Plain ∧ reg ≠ .IER ∧ reg ≠ .CAR := by
  cases reg
  case CAR => exact False.elim h
  case IER => exact False.elim h
  case TDR => exact False.elim h
  case REOIR => exact False.elim h
  case TEOIR => exact False.elim h
  all_goals exact ⟨trivial, nofun, nofun⟩

theorem Op.Tune.setup {o : Op} (h : o.Tune (chipOf k)) : o.Setup k := by
  cases o with
  | crd j reg =>
    obtain ⟨hj, rfl | rfl | rfl⟩ := h
    · exact ⟨hj, nofun, nofun⟩
    · exact ⟨hj, nofun, nofun⟩
    · exact ⟨hj, nofun, nofun⟩
  | cwr j reg v =>
    obtain ⟨hj, hreg, hcor2, _⟩ := h
    obtain ⟨hp, hier, hcar⟩ := hreg.plain
    exact ⟨hj, hp, hier, fun e => absurd e hcar, hcor2⟩
  | params => trivial
  | jiffies => trivial
  | ratelimit => trivial
  | hang => trivial
  | _ => exact False.elim h

variable {j : Fin 8}

theorem trim_ccrWait (turns : Nat) : (ccrWait turns j).Uses (Op.Trim j) := by
  have hwarn : (ccrWarn j).Uses (Op.Trim j) := by
    refine Prog.Uses.bind (uses_issue trivial) ?_
    intro b
    refine Prog.Uses.ite ?_ trivial
    refine Prog.Uses.bind (uses_issue ⟨rfl, .inl rfl⟩) ?_
    intro _
    exact Prog.Uses.bind (uses_issue ⟨rfl, .inr (.inl rfl)⟩) (fun _ => trivial)
  have hloop : ∀ stop n, (ccrWaitLoop j stop n).Uses (Op.Trim j) := by
    intro stop n
    induction n with
    | zero => exact ⟨trivial, fun e => nomatch e⟩
    | succ n ih =>
      refine Prog.Uses.bind (uses_issue ⟨rfl, .inl rfl⟩) ?_
      intro ccr
      refine Prog.Uses.ite trivial ?_
      refine Prog.Uses.bind (uses_issue trivial) ?_
      intro now
      refine Prog.Uses.ite ih ?_
      exact Prog.Uses.bind hwarn (fun _ => trivial)
  exact Prog.Uses.bind (uses_issue trivial) (fun now => hloop _ turns)

theorem tune_ccrWait (turns : Nat) : (ccrWait turns j).Uses (Op.Tune j) :=
  (trim_ccrWait turns).mono fun _ => Op.Trim.tune

theorem uses_ccrWait (turns : Nat) : (ccrWait turns (chipOf k)).Uses (Op.Setup k) :=
  (tune_ccrWait turns).mono fun _ => Op.Tune.setup

theorem tune_setRate (rate : Nat) : (nm32aSetRate j rate).Uses (Op.Tune j) := by
  refine Prog.Uses.bind (uses_issue trivial) ?_
  intro p
  refine Prog.Uses.bind (uses_issue trivial) ?_
  intro p
  refine Prog.Uses.bind (uses_issue trivial) ?_
  intro p
  refine uses_write ⟨rfl, trivial, nofun, nofun⟩ ?_
  refine uses_write ⟨rfl, trivial, nofun, nofun⟩ ?_
  refine Prog.Uses.bind (uses_issue trivial) ?_
  intro p
  refine uses_write ⟨rfl, trivial, nofun, nofun⟩ ?_
  refine Prog.Uses.bind (uses_issue trivial) ?_
  intro p
  exact uses_issue ⟨rfl, trivial, nofun, nofun⟩

theorem uses_setRate (rate : Nat) : (nm32aSetRate (chipOf k) rate).Uses (Op.Setup k) :=
  (tune_setRate rate).mono fun _ => Op.Tune.setup

/-- `nm32a_chan_init` between its writes of `COR2` and `IER` -/
def chanInitRest (turns : Nat) (chip : Fin 8) : Drv Unit := do
  cwr chip .COR3 0x02
  cwr chip .COR4 (UInt8.ofNat ((← params).rxthresh % 16).toNat)
  cwr chip .RTPRh 0x00
  cwr chip .RTPRl 0x20
  cwr chip .COR5 0x00
  cwr chip .COR6 0x00
  cwr chip .COR7 0x00
  cwr chip .STCR 0x00
  cwr chip .TPR 0x40
  cwr chip .CCR ccrInitch
  let _ ← ccrWait turns chip
  cwr chip .CCR (ccrEntx ||| ccrEnrx)
  let _ ← ccrWait turns chip
  cwr chip .MSVR_RTS 0x01
  cwr chip .MSVR_DTR 0x02

theorem nm32aChanInit_eq (turns : Nat) (chip : Fin 8) (chan : Fin 4) (rate : Nat) :
    nm32aChanInit turns chip chan rate = (do
      cwr chip .CAR (UInt8.ofNat chan.val)
      cwr chip .LIVR 0x40
      nm32aSetRate chip rate
      cwr chip .CMR 0x02
      cwr chip .COR1 0x17
      cwr chip .COR2 0x00
      chanInitRest turns chip
      cwr chip .IER 0x29) := by
  simp only [nm32aChanInit, chanInitRest, bind_assoc]

theorem trim_chanInitRest (turns : Nat) : (chanInitRest turns j).Uses (Op.Trim j) := by
  refine uses_write ⟨⟨rfl, trivial, nofun, nofun⟩, id⟩ ?_
  refine Prog.Uses.bind (uses_issue trivial) ?_
  intro p
  refine uses_write ⟨⟨rfl, trivial, nofun, nofun⟩, id⟩ ?_
  refine uses_write ⟨⟨rfl, trivial, nofun, nofun⟩, id⟩ ?_
  refine uses_write ⟨⟨rfl, trivial, nofun, nofun⟩, id⟩ ?_
  refine uses_write ⟨⟨rfl, trivial, nofun, nofun⟩, id⟩ ?_
  refine uses_write ⟨⟨rfl, trivial, nofun, nofun⟩, id⟩ ?_
  refine uses_write ⟨⟨rfl, trivial, nofun, nofun⟩, id⟩ ?_
  refine uses_write ⟨⟨rfl, trivial, nofun, nofun⟩, id⟩ ?_
  refine uses_write ⟨⟨rfl, trivial, nofun, nofun⟩, id⟩ ?_
  refine uses_write ⟨⟨rfl, trivial, nofun, fun _ => rfl⟩, id⟩ ?_
  refine Prog.Uses.bind (trim_ccrWait turns) ?_
  intro _
  refine uses_write ⟨⟨rfl, trivial, nofun, fun _ => rfl⟩, id⟩ ?_
  refine Prog.Uses.bind (trim_ccrWait turns) ?_
  intro _
  refine uses_write ⟨⟨rfl, trivial, nofun, nofun⟩, id⟩ ?_
  exact uses_issue ⟨⟨rfl, trivial, nofun, nofun⟩, id⟩

theorem tune_chanInitRest (turns : Nat) : (chanInitRest turns j).Uses (Op.Tune j) :=
  (trim_chanInitRest turns).mono fun _ => Op.Trim.tune

theorem uses_chanInitRest (turns : Nat) : (chanInitRest turns (chipOf k)).Uses (Op.Setup k) :=
  (tune_chanInitRest turns).mono fun _ => Op.Tune.setup

theorem uses_chanInit (turns rate : Nat) :
    (nm32aChanInit turns (chipOf k) (chanIx k) rate).Uses (Op.Switch k) := by
  rw [nm32aChanInit_eq]
  refine uses_write (.inl setup_car) ?_
  refine uses_write (.inl ⟨rfl, trivial, nofun, nofun, nofun⟩) ?_
  refine Prog.Uses.bind ((uses_setRate rate).mono fun _ => .inl) ?_
  intro _
  refine uses_write (.inl ⟨rfl, trivial, nofun, nofun, nofun⟩) ?_
  refine uses_write (.inl ⟨rfl, trivial, nofun, nofun, nofun⟩) ?_
  refine uses_write (.inl ⟨rfl, trivial, nofun, nofun, fun _ => rfl⟩) ?_
  refine Prog.Uses.bind ((uses_chanInitRest turns).mono fun _ => .inl) ?_
  intro _
  exact uses_issue (.inr ⟨_, rfl⟩)

/-- `nm32a_port_activate` after the channel is up -/
def activateRest (i : Fin 32) : Drv Int := do
  setPort i (.tail 0)
  setPort i (.head 0)
  setPort i (.errCnt 0)
  setPort i (.errWin (← jiffies))
  setPort i (.rxOff false)
  setPort i (.opened true)
  hwUnlock
  return 0

theorem nm32aPortActivate_eq (turns : Nat) (i : Fin 32) (rate : Nat) :
    nm32aPortActivate turns i rate = (do
      hwLock
      if (← crd (chipOf i) .GFRCR) = 0xE0 then
        hwUnlock
        return -enodev
      else
        nm32aChanInit turns (chipOf i) (chanIx i) (if rate ≠ 0 then rate else 9600)
        activateRest i) := rfl

theorem uses_activateRest : (activateRest k).Uses (Op.Bringup k) := by
  refine Prog.Uses.bind (uses_issue (.inr ⟨_, rfl⟩)) ?_
  intro _
  refine Prog.Uses.bind (uses_issue (.inr ⟨_, rfl⟩)) ?_
  intro _
  refine Prog.Uses.bind (uses_issue (.inr ⟨_, rfl⟩)) ?_
  intro _
  refine Prog.Uses.bind (uses_issue (.inl (.inl trivial))) ?_
  intro now
  refine Prog.Uses.bind (uses_issue (.inr ⟨_, rfl⟩)) ?_
  intro _
  refine Prog.Uses.bind (uses_issue (.inr ⟨_, rfl⟩)) ?_
  intro _
  refine Prog.Uses.bind (uses_issue (.inr ⟨_, rfl⟩)) ?_
  intro _
  exact Prog.Uses.bind (uses_issue (.inl (.inl trivial))) (fun _ => trivial)

theorem uses_activate (turns rate : Nat) :
    (nm32aPortActivate turns k rate).Uses (Op.Bringup k) := by
  rw [nm32aPortActivate_eq]
  refine Prog.Uses.bind (uses_issue (.inl (.inl trivial))) ?_
  intro _
  refine Prog.Uses.bind (uses_issue (.inl (.inl ⟨rfl, nofun, nofun⟩))) ?_
  intro gfrcr
  refine Prog.Uses.ite (Prog.Uses.bind (uses_issue (.inl (.inl trivial))) fun _ => trivial) ?_
  refine Prog.Uses.bind ((uses_chanInit turns _).mono fun _ => .inl) ?_
  intro _
  exact uses_activateRest

theorem uses_setMctrl (active : Bool) :
    (nm32aSetMctrl (chipOf k) (chanIx k) active).Uses (Op.Setup k) := by
  refine uses_write setup_car ?_
  refine uses_write ⟨rfl, trivial, nofun, nofun, nofun⟩ ?_
  exact uses_issue ⟨rfl, trivial, nofun, nofun, nofun⟩

theorem uses_dtrRts (active : Bool) : (nm32aDtrRts k active).Uses (Op.Setup k) := by
  refine Prog.Uses.bind (uses_issue trivial) ?_
  intro _
  refine Prog.Uses.bind (uses_setMctrl active) ?_
  intro _
  exact uses_issue trivial

theorem uses_shutdown : (nm32aPortShutdown k).Uses (Op.Switch k) := by
  refine Prog.Uses.bind (uses_issue (.inl trivial)) ?_
  intro _
  refine Prog.Uses.bind (uses_issue (.inl ⟨rfl, _, rfl⟩)) ?_
  intro _
  refine uses_write (.inl setup_car) ?_
  refine uses_write (.inr ⟨_, rfl⟩) ?_
  refine Prog.Uses.bind ((uses_setMctrl false).mono fun _ => .inl) ?_
  intro _
  exact uses_issue (.inl trivial)

theorem uses_setTermios (turns rate : Nat) :
    (nm32aTtySetTermios turns k rate).Uses (Op.Switch k) := by
  refine Prog.Uses.bind (uses_issue (.inl trivial)) ?_
  intro _
  refine uses_write (.inl setup_car) ?_
  refine Prog.Uses.bind ((uses_setRate _).mono fun _ => .inl) ?_
  intro _
  refine uses_write (.inl ⟨rfl, trivial, nofun, nofun, nofun⟩) ?_
  refine Prog.Uses.bind ((uses_ccrWait turns).mono fun _ => .inl) ?_
  intro _
  refine uses_write (.inl ⟨rfl, trivial, nofun, nofun, nofun⟩) ?_
  refine Prog.Uses.bind ((uses_ccrWait turns).mono fun _ => .inl) ?_
  intro _
  refine uses_write (.inr ⟨_, rfl⟩) ?_
  exact uses_issue (.inl trivial)

theorem uses_sample : (sendbreakSample k).Uses (Op.Setup k) := by
  refine Prog.Uses.bind (uses_issue trivial) ?_
  intro _
  refine uses_write setup_car ?_
  refine Prog.Uses.bind (uses_issue ⟨rfl, nofun, nofun⟩) ?_
  intro rcor
  exact Prog.Uses.bind (uses_issue trivial) (fun _ => trivial)

/-! ## calls open and close nothing -/

theorem access_setup {o : Op} {r : Res o} {w' : World} (ho : o.Setup k) (h : c.access w o r w') :
    (∀ i, (w'.hw i).stack = (w.hw i).stack) ∧ w'.granted = w.granted := by
  cases o with
  | crd j reg => exact access_own (i := 0) (o := .crd j reg) (.inl ⟨rfl, ho.2⟩) h
  | cwr j reg v =>
    subst h
    refine ⟨fun i => ?_, rfl⟩
    have hr : reg ≠ .REOIR ∧ reg ≠ .TEOIR := by
      constructor <;> rintro rfl <;> exact ho.2.1
    by_cases e : i = j
    · subst e
      simp only [World.setChip, Function.update_self, write_stack _ _ v hr]
    · simp only [World.setChip, Function.update_of_ne e]
  | setPort k' f => subst h; exact ⟨fun _ => rfl, rfl⟩
  | lock => subst h; exact ⟨fun _ => rfl, rfl⟩
  | unlock => subst h; exact ⟨fun _ => rfl, rfl⟩
  | params => obtain ⟨_, rfl⟩ := h; exact ⟨fun _ => rfl, rfl⟩
  | jiffies => obtain ⟨_, rfl⟩ := h; exact ⟨fun _ => rfl, rfl⟩
  | ratelimit => subst h; exact ⟨fun _ => rfl, rfl⟩
  | hang => exact False.elim h
  | _ => exact False.elim ho

theorem access_bringup {o : Op} {r : Res o} {w' : World} (ho : o.Bringup k)
    (h : c.access w o r w') :
    (∀ i, (w'.hw i).stack = (w.hw i).stack) ∧ w'.granted = w.granted := by
  rcases ho with (ho | ⟨v, rfl⟩) | ⟨f, rfl⟩
  · exact access_setup ho h
  · exact access_own (i := 0) (o := .cwr (chipOf k) .IER v) (.inr ⟨rfl, .inr rfl⟩) h
  · subst h; exact ⟨fun _ => rfl, rfl⟩

/-- **No call leaves a context open**, on a card whose FPGA picks the chip being serviced, and none
is open when the lock is given back. -/
theorem wp_call_released (hT : c.Timely) (hpick : ∀ w i, c.pick w i → i = w.serving) (call : Call)
    (h : w.Closed) : wp c.card (fun e => e.op = .unlock → e.pre.Closed) call.prog
      (fun _ w' => w'.Closed) w := by
  have hkeep : ∀ {β : Type} {p : Drv β} {O : Op → Prop},
      (∀ w o r w', O o → c.access w o r w' →
        (∀ i, (w'.hw i).stack = (w.hw i).stack) ∧ w'.granted = w.granted) → p.Uses O →
      wp c.card (fun e => e.op = .unlock → e.pre.Closed) p (fun _ w' => w'.Closed) w := by
    intro β p O hO hu
    refine wp_keeps closed_onStacks.stable ?_ hu h
    intro w o r w' ho hw ha
    obtain ⟨hs, hg⟩ := hO w o r w' ho ha
    exact ⟨fun _ => hw, closed_onStacks w w' hs hg hw⟩
  have hbring : ∀ {β : Type} {p : Drv β} (k : Fin 32), p.Uses (Op.Bringup k) →
      wp c.card (fun e => e.op = .unlock → e.pre.Closed) p (fun _ w' => w'.Closed) w :=
    fun k hu => hkeep (fun _ _ _ _ => access_bringup) hu
  cases call with
  | service chip =>
    refine wp_discard (wp_mono (wp_service hT ?_ h) ?_ (fun _ _ h => h))
    · exact fun w i hs _ hp _ _ _ => (hpick w i hp).trans hs
    · rintro ⟨w, o, r, w'⟩ hd rfl
      exact hd
  | armTx chip => exact hkeep (fun _ _ _ _ => access_sweep) (uses_armTx chip)
  | activate turns k rate => exact wp_discard (hbring k (uses_activate turns rate))
  | setTermios turns k rate => exact hbring k ((uses_setTermios turns rate).mono fun _ => .inl)
  | dtrRts k active => exact hbring k ((uses_dtrRts active).mono fun _ h => .inl (.inl h))
  | shutdown k => exact hbring k (uses_shutdown.mono fun _ => .inl)
  | sample k => exact wp_discard (hbring k (uses_sample.mono fun _ h => .inl (.inl h)))

theorem wp_call_closed (hT : c.Timely) (hpick : ∀ w i, c.pick w i → i = w.serving) (call : Call)
    (h : w.Closed) : wp c.card (fun _ => True) call.prog (fun _ w' => w'.Closed) w :=
  wp_mono (wp_call_released hT hpick call h) (fun _ _ => trivial) fun _ _ h => h

/-! ## addressing a channel -/

variable {i : Fin 32} {w' : World}

/-- `CAR` of the chip holds the channel of port `i`, and nothing is open -/
structure Aimed (i : Fin 32) (w : World) : Prop where
  closed : w.Closed
  car : (w.hw (chipOf i)).car = chanIx i

theorem Cfg.rely.car (h : c.rely w w') (j : Fin 8) : (w'.hw j).car = (w.hw j).car := by
  obtain ⟨req, more, _, he⟩ := h.chip j
  rw [he]

theorem Aimed.stable : Stable c.card (Aimed i) :=
  fun w w' h hr => ⟨closed_onStacks w w' hr.stack hr.granted h.closed, (hr.car _).trans h.car⟩

theorem write_car {h : Chip} {reg : Reg} {v : UInt8} {x : Fin 4} (hr : reg.Plain)
    (hv : reg = .CAR → chanOf v = x) (hx : h.car = x) : (h.write reg v).car = x := by
  cases reg
  case CAR => exact hv rfl
  case TDR => exact False.elim hr
  case REOIR => exact False.elim hr
  case TEOIR => exact False.elim hr
  all_goals exact hx

theorem access_aimed {o : Op} {r : Res o} (ho : o.Bringup i) (ha : c.access w o r w')
    (h : Aimed i w) : Aimed i w' := by
  obtain ⟨hs, hg⟩ := access_bringup ho ha
  refine ⟨closed_onStacks w w' hs hg h.closed, ?_⟩
  rcases ho with (ho | ⟨v, rfl⟩) | ⟨f, rfl⟩
  · cases o with
    | crd j reg =>
      rw [(access_look (o := .crd j reg) ho.2 ha).1]
      exact h.car
    | cwr j reg v =>
      subst ha
      obtain ⟨rfl, hp, _, hv, _⟩ := ho
      simp only [World.setChip, Function.update_self]
      exact write_car hp hv h.car
    | setPort k f => subst ha; exact h.car
    | lock => subst ha; exact h.car
    | unlock => subst ha; exact h.car
    | params => obtain ⟨_, rfl⟩ := ha; exact h.car
    | jiffies => obtain ⟨_, rfl⟩ := ha; exact h.car
    | ratelimit => subst ha; exact h.car
    | hang => exact False.elim ha
    | _ => exact False.elim ho
  · subst ha
    simp only [World.setChip, Function.update_self]
    refine write_car (show Reg.IER.Plain from trivial) ?_ h.car
    intro e
    cases e
  · subst ha; exact h.car

theorem Aimed.keeps : Keeps c.card (fun _ => True) (Op.Bringup i) (Aimed i) :=
  fun w o r w' ho h ha => ⟨trivial, access_aimed ho ha h⟩

/-- a write of `CAR` aims -/
theorem aimed_car (h : w.Closed) :
    Aimed i (w.setChip (chipOf i) ((w.hw (chipOf i)).write .CAR (UInt8.ofNat (chanIx i).val))) := by
  refine ⟨closed_onStacks w _ (fun j => ?_) rfl h, ?_⟩
  · unfold World.setChip
    simp only [Function.update_apply]
    split
    · rename_i e
      subst e
      rfl
    · rfl
  · unfold World.setChip
    simp only [Function.update_self]
    exact chanOf_ofNat _

end Nm32a
