import Relicnos.Nm32a.Calls

/-!
# The calls are critical sections of `hw_lock`

A call on port `k` takes the lock, may look at the chip's firmware revision and assign to the
port, then chooses its channel, sets it up and gives the lock back once (`Op.Steers`).  So do the
passes of the poll thread, where the channel is chosen by the acknowledge or, in `nm32a_arm_tx`,
one after the other (`until_service`, `until_armTx`).
-/

set_option linter.unusedVariables false

namespace Nm32a
open Interact

/-- the channel of port `k` is chosen -/
def Op.Chooses (k : Fin 32) (o : Op) : Prop :=
  o = .cwr (chipOf k) .CAR (UInt8.ofNat (chanIx k).val)

/-- before that -/
def Op.Early (k : Fin 32) : Op → Prop
  | .crd j reg => j = chipOf k ∧ reg = .GFRCR
  | .setPort k' _ => k' = k
  | _ => False

/-- after it -/
def Op.Steer (k : Fin 32) (o : Op) : Prop :=
  o.Tune (chipOf k) ∨ o.Chooses k ∨ (∃ v, o = .cwr (chipOf k) .IER v) ∨ ∃ f, o = .setPort k f

variable {α β : Type} {k : Fin 32}

/-- what is left of a call on port `k` that has the lock and has not chosen its channel yet -/
def Steers (k : Fin 32) : Drv α → Prop :=
  Prog.Staged (Op.Early k) (Op.Chooses k) (Op.Steer k) (· = .unlock) fun _ => False

theorem steers_unlock (a : α) : Steers k (do hwUnlock; return a) := .inl ⟨rfl, fun _ => trivial⟩

theorem steers_car {f : Unit → Drv α}
    (h : (f ()).Until (Op.Steer k) (· = .unlock) fun _ => False) :
    Steers k (cwr (chipOf k) .CAR (UInt8.ofNat (chanIx k).val) >>= f) :=
  .inr (.inl ⟨rfl, fun _ => h⟩)

theorem steers_early {o : Op} {f : Res o → Drv α} (ho : o.Early k) (h : ∀ r, Steers k (f r)) :
    Steers k (issue o >>= f) := .inr (.inr ⟨ho, h⟩)

theorem until_unlock {O F : Op → Prop} (a : α) :
    (do hwUnlock; return a : Drv α).Until O (· = .unlock) F := .inl ⟨rfl, fun _ => trivial⟩

theorem until_write {O F : Op → Prop} {chip : Fin 8} {reg : Reg} {v : UInt8} {f : Unit → Drv α}
    (h : O (.cwr chip reg v)) (hf : (f ()).Until O (· = .unlock) F) :
    (cwr chip reg v >>= f).Until O (· = .unlock) F :=
  Prog.Uses.until (uses_issue h) fun _ => hf

theorem until_mctrl {f : Unit → Drv α} (active : Bool)
    (hf : (f ()).Until (Op.Steer k) (· = .unlock) fun _ => False) :
    Steers k (nm32aSetMctrl (chipOf k) (chanIx k) active >>= f) := by
  refine steers_car ?_
  refine until_write (.inl ⟨rfl, trivial, nofun, nofun⟩) ?_
  exact until_write (.inl ⟨rfl, trivial, nofun, nofun⟩) hf

theorem steers_dtrRts (active : Bool) : ∃ f, nm32aDtrRts k active = hwLock >>= f ∧
    Steers k (f ()) := by
  refine ⟨_, rfl, ?_⟩
  exact until_mctrl active (until_unlock ())

theorem steers_shutdown : ∃ f, nm32aPortShutdown k = hwLock >>= f ∧ Steers k (f ()) := by
  refine ⟨_, rfl, ?_⟩
  refine steers_early rfl fun _ => ?_
  refine steers_car ?_
  refine until_write (.inr (.inr (.inl ⟨_, rfl⟩))) ?_
  refine until_write (.inr (.inl rfl)) ?_
  refine until_write (.inl ⟨rfl, trivial, nofun, nofun⟩) ?_
  refine until_write (.inl ⟨rfl, trivial, nofun, nofun⟩) ?_
  exact until_unlock ()

theorem steers_sample : ∃ f, sendbreakSample k = hwLock >>= f ∧ Steers k (f ()) := by
  refine ⟨_, rfl, ?_⟩
  refine steers_car ?_
  refine Prog.Uses.until (uses_issue (.inl ⟨rfl, .inr (.inr rfl)⟩)) fun rcor => ?_
  exact until_unlock _

theorem steers_setTermios (turns rate : Nat) :
    ∃ f, nm32aTtySetTermios turns k rate = hwLock >>= f ∧ Steers k (f ()) := by
  refine ⟨_, rfl, ?_⟩
  refine steers_car ?_
  refine Prog.Uses.until ((tune_setRate _).mono fun _ => .inl) fun _ => ?_
  refine until_write (.inl ⟨rfl, trivial, nofun, fun _ => rfl⟩) ?_
  refine Prog.Uses.until ((tune_ccrWait turns).mono fun _ => .inl) fun _ => ?_
  refine until_write (.inl ⟨rfl, trivial, nofun, fun _ => rfl⟩) ?_
  refine Prog.Uses.until ((tune_ccrWait turns).mono fun _ => .inl) fun _ => ?_
  refine until_write (.inr (.inr (.inl ⟨_, rfl⟩))) ?_
  exact until_unlock ()

theorem until_activateRest :
    (activateRest k).Until (Op.Steer k) (· = .unlock) fun _ => False := by
  have hset : ∀ {f : PortField} {g : Unit → Drv Int},
      (g ()).Until (Op.Steer k) (· = .unlock) (fun _ => False) →
      (setPort k f >>= g).Until (Op.Steer k) (· = .unlock) fun _ => False :=
    fun h => Prog.Uses.until (uses_issue (.inr (.inr (.inr ⟨_, rfl⟩)))) fun _ => h
  refine hset ?_
  refine hset ?_
  refine hset ?_
  refine Prog.Uses.until (uses_issue (.inl trivial)) fun now => ?_
  refine hset ?_
  refine hset ?_
  refine hset ?_
  exact until_unlock _

theorem steers_activate (turns rate : Nat) :
    ∃ f, nm32aPortActivate turns k rate = hwLock >>= f ∧ Steers k (f ()) := by
  refine ⟨_, nm32aPortActivate_eq turns k rate, ?_⟩
  refine steers_early ⟨rfl, rfl⟩ fun gfrcr => ?_
  split
  · exact steers_unlock _
  rw [nm32aChanInit_eq]
  simp only [bind_assoc]
  refine steers_car ?_
  refine until_write (.inl ⟨rfl, trivial, nofun, nofun⟩) ?_
  refine Prog.Uses.until ((tune_setRate _).mono fun _ => .inl) fun _ => ?_
  refine until_write (.inl ⟨rfl, trivial, nofun, nofun⟩) ?_
  refine until_write (.inl ⟨rfl, trivial, nofun, nofun⟩) ?_
  refine until_write (.inl ⟨rfl, trivial, fun _ => rfl, nofun⟩) ?_
  refine Prog.Uses.until ((tune_chanInitRest turns).mono fun _ => .inl) fun _ => ?_
  refine until_write (.inr (.inr (.inl ⟨_, rfl⟩))) ?_
  exact until_activateRest

end Nm32a
