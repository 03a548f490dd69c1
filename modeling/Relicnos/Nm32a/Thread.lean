import Relicnos.Nm32a.Service

/-!
# The poll thread around the service routine

What the thread does between two passes is `Op.Sweep`: it asks whether to stop, looks at ports
under their locks, and re-arms transmit interest under `hw_lock`.  `wp_pollThread` is the rule
for the whole thread: an assertion that `Op.Sweep` keeps and every pass keeps is kept.
`wp_pollThread_sections` is the same rule over any state, with `nm32a_arm_tx` as a section of its
own.
-/

set_option linter.unusedVariables false

namespace Nm32a
open Interact

variable {c : Cfg} {E : Env Op Res World} {G : Event Op Res World → Prop} {w : World}

theorem uses_issue {O : Op → Prop} {o : Op} (h : O o) : (issue o).Uses O := ⟨h, fun _ => trivial⟩

/-- operations of the thread outside the service routine -/
def Op.Sweep : Op → Prop
  | .cwr _ reg _ => reg = .CAR ∨ reg = .IER
  | .port _ => True
  | .spinLock _ => True
  | .spinUnlock _ => True
  | .params => True
  | .lock => True
  | .unlock => True
  | .shouldStop => True
  | .hang => True
  | _ => False

theorem uses_armTxChan (chip : Fin 8) (x : Fin 4) : (armTxChan chip x).Uses Op.Sweep := by
  refine Prog.Uses.bind (uses_issue trivial) ?_
  intro _
  refine Prog.Uses.bind (uses_issue trivial) ?_
  intro np
  refine Prog.Uses.bind (uses_issue trivial) ?_
  intro _
  refine Prog.Uses.ite ?_ trivial
  refine Prog.Uses.bind (uses_issue (.inl rfl)) ?_
  intro _
  refine Prog.Uses.bind (uses_issue trivial) ?_
  intro np
  exact uses_issue (.inr rfl)

theorem uses_armTx (chip : Fin 8) : (nm32aArmTx chip).Uses Op.Sweep := by
  refine Prog.Uses.bind (uses_issue trivial) ?_
  intro _
  refine Prog.Uses.bind (uses_armTxChan chip 0) ?_
  intro _
  refine Prog.Uses.bind (uses_armTxChan chip 1) ?_
  intro _
  refine Prog.Uses.bind (uses_armTxChan chip 2) ?_
  intro _
  refine Prog.Uses.bind (uses_armTxChan chip 3) ?_
  intro _
  exact uses_issue trivial

/-- those of them that are not under `hw_lock` -/
def Op.Aside : Op → Prop
  | .port _ => True
  | .params => True
  | .shouldStop => True
  | .hang => True
  | _ => False

theorem Op.Aside.sweep {o : Op} (h : o.Aside) : o.Sweep := by
  cases o with
  | port i => trivial
  | params => trivial
  | shouldStop => trivial
  | hang => trivial
  | _ => exact False.elim h

theorem uses_chipBusy (chip : Fin 8) : (chipBusy chip).Uses Op.Aside := by
  refine Prog.Uses.bind (uses_issue trivial) ?_
  intro _
  refine Prog.Uses.bind (uses_issue trivial) ?_
  intro _
  refine Prog.Uses.bind (uses_issue trivial) ?_
  intro _
  exact Prog.Uses.bind (uses_issue trivial) (fun _ => trivial)

section
variable {σ : Type} {E : Env Op Res σ} {G : Event Op Res σ → Prop} {s : σ} {P : σ → Prop}
  (hP : Stable E P) (hk : Keeps E G Op.Aside P)
  (ha : ∀ j s, P s → wp E G (nm32aArmTx j) (fun _ s' => P s') s)
  (hs : ∀ j s, P s → wp E G (nm32aService j) (fun _ s' => P s') s)
include hP hk hs

theorem wp_pollChip (chip : Fin 8) (n : Nat) (svc : UInt32) (h : P s) :
    wp E G (pollChip chip svc n) (fun _ s' => P s') s := by
  induction n generalizing svc s with
  | zero => exact wp_keeps hP hk ⟨trivial, fun e => nomatch e⟩ h
  | succ n ih =>
    refine wp_bind_keeps hP hk (uses_issue trivial) h ?_
    intro p s1 h1
    split
    · refine (wp_bind _ _ _ _).mpr (wp_post (hs chip s1 h1) ?_)
      intro b s2 h2
      split
      · exact ih (svc + 1) h2
      · exact h2
    · exact h1

include ha

theorem wp_pollSweep (turns : Nat) (chips : List (Fin 8)) (h : P s) :
    wp E G (pollSweep turns chips) (fun _ s' => P s') s := by
  induction chips generalizing s with
  | nil => exact h
  | cons chip chips ih =>
    refine (wp_bind _ _ _ _).mpr (wp_post (Q := fun _ s' => P s') ?_ (fun _ s' h' => ih h'))
    refine wp_bind_keeps hP hk (uses_chipBusy chip) h ?_
    intro busy s1 h1
    split
    · refine (wp_bind _ _ _ _).mpr (wp_post (ha chip s1 h1) ?_)
      intro _ s2 h2
      exact wp_pollChip hP hk hs chip turns 0 h2
    · exact h1

/-- **Between any two passes of the thread `P` holds.** -/
theorem wp_pollThread_sections (turns n : Nat) (h : P s) :
    wp E G (nm32aPollThread turns n) (fun _ s' => P s') s := by
  induction n generalizing s with
  | zero => exact wp_keeps hP hk ⟨trivial, fun e => nomatch e⟩ h
  | succ n ih =>
    refine wp_bind_keeps hP hk (uses_issue trivial) h ?_
    intro stop s1 h1
    split
    · exact h1
    · exact (wp_bind _ _ _ _).mpr
        (wp_post (wp_pollSweep hP hk ha hs turns allChips h1) (fun _ s' h' => ih h'))

end

/-- the same for an assertion that `nm32a_arm_tx` keeps at every operation -/
theorem wp_pollThread {P : World → Prop} (hP : Stable E P) (hk : Keeps E G Op.Sweep P)
    (hs : ∀ j w, P w → wp E G (nm32aService j) (fun _ w' => P w') w) (turns n : Nat) (h : P w) :
    wp E G (nm32aPollThread turns n) (fun _ w' => P w') w :=
  wp_pollThread_sections hP (hk.mono fun _ => Op.Aside.sweep)
    (fun j w hw => wp_keeps hP hk (uses_armTx j) hw) hs turns n h

end Nm32a
