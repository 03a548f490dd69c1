import Relicnos.Interact.Exec

/-!
# What a program emits whatever it is answered

Some operations put something out (`out`).  `p.Emits out bs` says that the outputs of `p` are `bs`
in this order, no matter what any operation answers.

* `Exec.emits`   along every run the outputs so far are the first ones of `bs`;
* `Runs.emits`   a complete run has put out `bs`.
-/

namespace Interact
namespace Prog

variable {Op : Type} {Res : Op → Type} {α β δ : Type} {out : Op → Option δ}

def Emits (out : Op → Option δ) : Prog Op Res α → List δ → Prop
  | .ret _, bs => bs = []
  | .op o k, bs => match out o with
    | none => ∀ r, (k r).Emits out bs
    | some b => ∃ rest, bs = b :: rest ∧ ∀ r, (k r).Emits out rest

theorem emits_pure (a : α) : (pure a : Prog Op Res α).Emits out [] := rfl

/-- an operation without output -/
theorem emits_mute {o : Op} {f : Res o → Prog Op Res α} {bs : List δ} (ho : out o = none)
    (h : ∀ r, (f r).Emits out bs) : (call o >>= f).Emits out bs := by
  show (Prog.op o f).Emits out bs
  unfold Emits
  rw [ho]
  exact h

theorem emits_out {o : Op} {f : Res o → Prog Op Res α} {b : δ} {bs : List δ} (ho : out o = some b)
    (h : ∀ r, (f r).Emits out bs) : (call o >>= f).Emits out (b :: bs) := by
  show (Prog.op o f).Emits out (b :: bs)
  unfold Emits
  rw [ho]
  exact ⟨bs, rfl, h⟩

theorem Emits.bind {p : Prog Op Res α} {f : α → Prog Op Res β} {bs bs' : List δ}
    (hp : p.Emits out bs) (hf : ∀ a, (f a).Emits out bs') : (p >>= f).Emits out (bs ++ bs') := by
  induction p generalizing bs with
  | ret a =>
    obtain rfl : bs = [] := hp
    exact hf a
  | op o k ih =>
    rw [op_bind]
    unfold Emits at hp ⊢
    cases ho : out o with
    | none =>
      rw [ho] at hp
      exact fun r => ih r (hp r)
    | some b =>
      rw [ho] at hp
      obtain ⟨rest, rfl, h⟩ := hp
      exact ⟨rest ++ bs', rfl, fun r => ih r (h r)⟩

/-- a first part without output -/
theorem Emits.bind_nil {p : Prog Op Res α} {f : α → Prog Op Res β} {bs : List δ}
    (hp : p.Emits out []) (hf : ∀ a, (f a).Emits out bs) : (p >>= f).Emits out bs := hp.bind hf

end Prog

section
variable {Op : Type} {Res : Op → Type} {σ α δ : Type} {E : Env Op Res σ}
  {out : Op → Option δ} {p p' : Prog Op Res α} {s s' : σ} {tr : List (Event Op Res σ)}

/-- the outputs of a run -/
def emitted (out : Op → Option δ) (tr : List (Event Op Res σ)) : List δ :=
  tr.filterMap fun e => out e.op

theorem Exec.emits (h : Exec E p s tr s' p') {bs : List δ} (hp : p.Emits out bs) :
    ∃ rest, bs = emitted out tr ++ rest ∧ p'.Emits out rest := by
  induction h generalizing bs with
  | stop => exact ⟨bs, rfl, hp⟩
  | @step o k _ _ _ _ r _ _ _ _ _ ih =>
    unfold Prog.Emits at hp
    cases ho : out o with
    | none =>
      rw [ho] at hp
      obtain ⟨rest, hbs, hrest⟩ := ih (hp r)
      refine ⟨rest, ?_, hrest⟩
      rw [emitted, List.filterMap_cons, ho]
      exact hbs
    | some b =>
      rw [ho] at hp
      obtain ⟨bs', rfl, hk⟩ := hp
      obtain ⟨rest, hbs, hrest⟩ := ih (hk r)
      refine ⟨rest, ?_, hrest⟩
      rw [emitted, List.filterMap_cons, ho]
      exact congrArg (b :: ·) hbs

theorem Runs.emits {a : α} (h : Runs E p s tr a s') {bs : List δ} (hp : p.Emits out bs) :
    emitted out tr = bs := by
  obtain ⟨rest, hbs, hrest⟩ := Exec.emits h hp
  obtain rfl : rest = [] := hrest
  rw [hbs, List.append_nil]

end
end Interact
