import Mathlib.Logic.Function.Basic
import Relicnos.Interact.Policy

/-!
# Programs that run side by side

Every flow of control has a program and an environment of its own over one shared state; at each
step one flow issues one operation.

* `Pool E ps s tr s' ps'`  the flows `ps` started in `s` go through the events `tr`, each with the
                           flow that issued it;
* `Pool.imp`               a run in environments that allow more;
* `Pool.play`              a run computed from a schedule and a policy for each flow;
* `Views E V G`            in the view `V f` of a flow, what the other flows do is interference,
                           as long as their events meet their own guards;
* `Pool.guarded`           the parallel rule: programs that meet their guards in their own views
                           meet them side by side.
-/

namespace Interact

variable {F Op : Type} [DecidableEq F] {Res : Op → Type} {σ α : Type} {E : F → Env Op Res σ}

inductive Pool (E : F → Env Op Res σ) :
    (F → Prog Op Res α) → σ → List (F × Event Op Res σ) → σ → (F → Prog Op Res α) → Prop
  | stop (ps : F → Prog Op Res α) (s : σ) : Pool E ps s [] s ps
  | step {ps ps' : F → Prog Op Res α} {s s1 s2 s' : σ} {o : Op} {k : Res o → Prog Op Res α}
      {r : Res o} {tr : List (F × Event Op Res σ)} (f : F) :
      ps f = .op o k → (E f).rely s s1 → (E f).access s1 o r s2 →
      Pool E (Function.update ps f (k r)) s2 tr s' ps' →
      Pool E ps s ((f, ⟨s1, o, r, s2⟩) :: tr) s' ps'

/-- a run whose events other environments allow is a run of those -/
theorem Pool.imp {E' : F → Env Op Res σ} {ps ps' : F → Prog Op Res α} {s s' : σ}
    {tr : List (F × Event Op Res σ)} (h : Pool E ps s tr s' ps')
    (hr : ∀ f s s', (E f).rely s s' → (E' f).rely s s')
    (ha : ∀ e ∈ tr, (E e.1).access e.2.pre e.2.op e.2.res e.2.post →
      (E' e.1).access e.2.pre e.2.op e.2.res e.2.post) : Pool E' ps s tr s' ps' := by
  induction h with
  | stop => exact .stop _ _
  | step f hf hr1 ha1 _ ih =>
    exact .step f hf (hr f _ _ hr1) (ha _ List.mem_cons_self ha1)
      (ih fun e he => ha e (List.mem_cons_of_mem _ he))

/-- a run in which the flows of a schedule move one after the other, each against a policy -/
def Pool.play (P : (f : F) → Policy (E f)) : List F → (F → Prog Op Res α) → σ →
    List (F × Event Op Res σ) × σ × (F → Prog Op Res α)
  | [], ps, s => ([], s, ps)
  | f :: fs, ps, s =>
    match ps f with
    | .ret _ => ([], s, ps)
    | .op o k =>
      match (P f).act 0 s o with
      | none => ([], s, ps)
      | some (s1, r, s2) =>
        let rest := Pool.play P fs (Function.update ps f (k r)) s2
        ((f, ⟨s1, o, r, s2⟩) :: rest.1, rest.2)

theorem Pool.play_pool (P : (f : F) → Policy (E f)) (fs : List F) (ps : F → Prog Op Res α)
    (s : σ) : Pool E ps s (Pool.play P fs ps s).1 (Pool.play P fs ps s).2.1
      (Pool.play P fs ps s).2.2 := by
  induction fs generalizing ps s with
  | nil => exact .stop _ _
  | cons f fs ih =>
    unfold Pool.play
    split
    · exact .stop _ _
    · rename_i o k hf
      split
      · exact .stop _ _
      · rename_i s1 r s2 h
        obtain ⟨hr, ha⟩ := (P f).sound 0 s o s1 r s2 h
        exact .step f hf hr ha (ih _ s2)

/-- how the flows see one another -/
structure Views (E V : F → Env Op Res σ) (G : F → Event Op Res σ → Prop) : Prop where
  /-- what interferes with all also interferes in the view -/
  rely : ∀ f s s1, (E f).rely s s1 → (V f).rely s s1
  access : ∀ f s o r s', (E f).access s o r s' → (V f).access s o r s'
  /-- another flow's event, before further interference -/
  other : ∀ f g s s1 o r s2 s3, g ≠ f → (E g).rely s s1 → (E g).access s1 o r s2 →
    G g ⟨s1, o, r, s2⟩ → (V f).rely s2 s3 → (V f).rely s s3

variable {V : F → Env Op Res σ} {G : F → Event Op Res σ → Prop}

omit [DecidableEq F] in
/-- an event of another flow leaves a flow's precondition alone -/
theorem Views.wp_other (h : Views E V G) {f g : F} {p : Prog Op Res α} {s s1 s2 : σ} {o : Op}
    {r : Res o} (hg : g ≠ f) (hr : (E g).rely s s1) (ha : (E g).access s1 o r s2)
    (hG : G g ⟨s1, o, r, s2⟩) (hw : wp (V f) (G f) p (fun _ _ => True) s) :
    wp (V f) (G f) p (fun _ _ => True) s2 := by
  cases p with
  | ret a => trivial
  | op o' k =>
    intro s3 hr3 r' s4 ha4
    exact hw s3 (h.other f g s s1 o r s2 s3 hg hr ha hG hr3) r' s4 ha4

/-- **The parallel rule.**  Only the flows that move have to be verified. -/
theorem Pool.guarded {ps ps' : F → Prog Op Res α} {s s' : σ} {tr : List (F × Event Op Res σ)}
    (hp : Pool E ps s tr s' ps') (h : Views E V G)
    (hw : ∀ f, (∃ e ∈ tr, e.1 = f) → wp (V f) (G f) (ps f) (fun _ _ => True) s) :
    ∀ e ∈ tr, G e.1 e.2 := by
  induction hp with
  | stop => simp
  | @step ps ps' s s1 s2 s' o k r tr f hf hr ha _ ih =>
    have hwf := hw f ⟨_, List.mem_cons_self, rfl⟩
    rw [hf] at hwf
    obtain ⟨hG, hk⟩ := hwf s1 (h.rely f _ _ hr) r s2 (h.access f _ _ _ _ ha)
    have hrest : ∀ g, (∃ e ∈ tr, e.1 = g) →
        wp (V g) (G g) (Function.update ps f (k r) g) (fun _ _ => True) s2 := by
      rintro g ⟨e, he, heg⟩
      by_cases hg : g = f
      · subst hg
        rw [Function.update_self]
        exact hk
      · rw [Function.update_of_ne hg]
        have hwg := hw g ⟨e, List.mem_cons_of_mem _ he, heg⟩
        exact h.wp_other (Ne.symm hg) hr ha hG hwg
    intro e he
    rcases List.mem_cons.mp he with rfl | he
    · exact hG
    · exact ih hrest e he

end Interact
