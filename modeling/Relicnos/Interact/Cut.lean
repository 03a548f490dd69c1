import Relicnos.Interact.Exec

/-!
# Runs that are cut and go on

A run may stop anywhere.  What is left of the program is still bound by what bound the program,
and the state may meanwhile be changed by what the interference could have done anyway.
-/

namespace Interact

variable {Op : Type} {Res : Op → Type} {σ α : Type} {E : Env Op Res σ} {p p' : Prog Op Res α}
  {s s' : σ} {tr : List (Event Op Res σ)}

/-- what is left issues nothing new -/
theorem Exec.left_uses {O : Op → Prop} (h : Exec E p s tr s' p') (hu : p.Uses O) : p'.Uses O := by
  induction h with
  | stop => exact hu
  | step _ _ _ ih => exact ih (hu.2 _)

/-- the last state is the first one or one that an event left behind -/
theorem Exec.last {P : σ → Prop} (h : Exec E p s tr s' p') (hp : P s) (he : ∀ e ∈ tr, P e.post) :
    P s' := by
  induction h with
  | stop => exact hp
  | step _ _ _ ih =>
    exact ih (he _ (List.mem_cons_self ..)) fun e hm => he e (List.mem_cons_of_mem _ hm)

/-- the interference could have taken `s` to `s'` on the way -/
theorem wp_before {G : Event Op Res σ → Prop} {Q : α → σ → Prop}
    (hr : ∀ s1, E.rely s' s1 → E.rely s s1) (hq : ∀ a, Q a s → Q a s') (h : wp E G p Q s) :
    wp E G p Q s' := by
  cases p with
  | ret a => exact hq a h
  | op o k => exact fun s1 h1 => h s1 (hr s1 h1)

end Interact
