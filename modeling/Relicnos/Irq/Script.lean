import Relicnos.Irq.Dispatch
import Relicnos.Interact.Policy
import Mathlib.Tactic.FinCases

/-!
# Scripted boards

A board whose handlers do nothing, with a script that says how the sources and the lines move
before the `n`-th access.  Runs of the dispatch on it are computed.
-/

set_option linter.unusedVariables false

namespace Irq
open Interact

def idle (driven : Option (Fin 8)) : Wiring := ⟨driven, fun _ s s' => s' = s⟩

def causeWord (level : Fin 8 → Bool) : BitVec 32 :=
  (BitVec.ofBoolListLE (List.ofFn level)).setWidth 32 <<< causebIP

theorem causeWord_getLsbD (level : Fin 8 → Bool) (ip : Fin 8) :
    (causeWord level).getLsbD (causebIP + ip) = level ip := by
  simp only [causeWord, causebIP, BitVec.getLsbD_shiftLeft, BitVec.getLsbD_setWidth,
    BitVec.getLsbD_ofBoolListLE]
  simp only [List.getD_eq_getElem?_getD]
  fin_cases ip <;> simp

/-- what an access of an idle board gives -/
def answer (driven : Option (Fin 8)) (s : Machine) : (o : Op) → Res o × Machine
  | .readC0Status => (s.status, s)
  | .readC0Cause => (causeWord ((idle driven).level s), s)
  | .clearC0Status set => ((), s.clear set)
  | .readl r => (s.regs r, s)
  | .writel v r => ((), s.write r v)
  | .irqHasAction irq => (s.actions irq, s)
  | .doIRQ _ => ((), s)
  | .spuriousInterrupt => ((), s)
  | .setUnclaimed bit => ((), { s with mvUnclaimed := s.mvUnclaimed ||| 1#64 <<< bit })
  | .setRunaway ip =>
    ((), { s with cascadeRunawayMask := s.cascadeRunawayMask ||| 1#32 <<< ip })
  | .scheduleDelayedWork k _ =>
    ((), { s with scheduled := fun j => if j = k then true else s.scheduled j })

theorem answer_access (driven : Option (Fin 8)) (s : Machine) (o : Op) :
    access (idle driven) s o (answer driven s o).1 (answer driven s o).2 := by
  cases o with
  | readC0Cause => exact ⟨causeWord_getLsbD _, rfl⟩
  | readC0Status | readl _ | irqHasAction _ => exact ⟨rfl, rfl⟩
  | clearC0Status _ | writel _ _ | doIRQ _ | spuriousInterrupt => exact rfl
  | setUnclaimed _ | setRunaway _ | scheduleDelayedWork _ _ => exact rfl

/-- a board on which `moves` interferes -/
def board (driven : Option (Fin 8)) {drift : Machine → Machine → Prop}
    (moves : Nat → Machine → Machine) (h : ∀ n s, drift s (moves n s)) :
    Policy (env (idle driven) drift) where
  act n s o := some (moves n s, answer driven (moves n s) o)
  sound := by
    intro n s o s1 r s2 hact
    obtain ⟨rfl, hr⟩ := Prod.mk.inj (Option.some.inj hact)
    obtain ⟨rfl, rfl⟩ := Prod.mk.inj hr
    exact ⟨h n s, answer_access driven (moves n s) o⟩

/-- nothing moves -/
def still (driven : Option (Fin 8)) : Policy (env (idle driven) held) :=
  board driven (fun _ s => s) fun _ _ => rfl

end Irq
