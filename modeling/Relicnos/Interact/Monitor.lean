import Relicnos.Interact.Exec

/-!
# Watching a run

A monitor looks at the operations of a run and at their answers, and keeps a history variable.
The program together with its history runs in `answers`, an environment that answers anything,
so what `wp` says there holds of every run in every environment.

* `history`       the variable after a trace;
* `Along`         a condition on every operation of a trace, seen with the history up to it;
* `Env.answers`   the environment that answers whatever meets a condition;
* `Exec.along`    what holds there holds along every run whose answers meet the condition.
-/

namespace Interact

variable {Op : Type} {Res : Op → Type} {σ μ α : Type}

def history (step : (o : Op) → Res o → μ → μ) : μ → List (Event Op Res σ) → μ
  | m, [] => m
  | m, e :: tr => history step (step e.op e.res m) tr

def Along (step : (o : Op) → Res o → μ → μ) (G : μ → (o : Op) → Res o → Prop) :
    μ → List (Event Op Res σ) → Prop
  | _, [] => True
  | m, e :: tr => G m e.op e.res ∧ Along step G (step e.op e.res m) tr

def Env.answers (step : (o : Op) → Res o → μ → μ) (A : μ → (o : Op) → Res o → Prop) :
    Env Op Res μ where
  rely m m' := m' = m
  access m o r m' := A m o r ∧ m' = step o r m

variable {step : (o : Op) → Res o → μ → μ} {G A : μ → (o : Op) → Res o → Prop} {m : μ}

instance instDecidableAlong [hG : ∀ m o r, Decidable (G m o r)] :
    ∀ (m : μ) (tr : List (Event Op Res σ)), Decidable (Along step G m tr)
  | _, [] => .isTrue trivial
  | m, e :: tr =>
    match hG m e.op e.res, instDecidableAlong (step e.op e.res m) tr with
    | .isTrue h, .isTrue h' => .isTrue ⟨h, h'⟩
    | .isFalse h, _ => .isFalse fun hc => h hc.1
    | _, .isFalse h' => .isFalse fun hc => h' hc.2

theorem Along.trivial (m : μ) (tr : List (Event Op Res σ)) :
    Along step (fun _ _ _ => True) m tr := by
  induction tr generalizing m with
  | nil => exact True.intro
  | cons e tr ih => exact ⟨True.intro, ih _⟩

/-- conditions that agree along the way -/
theorem Along.congr {G' : μ → (o : Op) → Res o → Prop} {tr : List (Event Op Res σ)}
    (h : Along step (fun m o r => G m o r ↔ G' m o r) m tr) :
    Along step G m tr ↔ Along step G' m tr := by
  induction tr generalizing m with
  | nil => exact Iff.rfl
  | cons e tr ih => exact and_congr h.1 (ih h.2)

/-- **Runs, seen with their history.** -/
theorem Exec.along {E : Env Op Res σ} {p p' : Prog Op Res α} {s s' : σ}
    {tr : List (Event Op Res σ)} {Q : α → μ → Prop} (h : Exec E p s tr s' p')
    (hw : wp (Env.answers step A) (fun e => G e.pre e.op e.res) p Q m) (hA : Along step A m tr) :
    Along step G m tr ∧ wp (Env.answers step A) (fun e => G e.pre e.op e.res) p' Q
      (history step m tr) := by
  induction h generalizing m with
  | stop => exact ⟨trivial, hw⟩
  | step hr ha _ ih =>
    obtain ⟨hg, hk⟩ := hw m rfl _ _ ⟨hA.1, rfl⟩
    obtain ⟨h1, h2⟩ := ih hk hA.2
    exact ⟨⟨hg, h1⟩, h2⟩

end Interact
