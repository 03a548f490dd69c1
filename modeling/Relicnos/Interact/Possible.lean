import Relicnos.Interact.Ledger

/-!
# What a program can do

`Can E p Q s`: some complete run of `p` from `s` ends with a result and in a state that satisfy
`Q`.  It is the angelic counterpart of `wp`: here the answers may be chosen, so that a run can be
put together operation by operation without being computed.
-/

namespace Interact

section
variable {Op : Type} {Res : Op → Type} {σ τ α β : Type}
variable {E : Env Op Res σ} {E' : Env Op Res τ}

def Can (E : Env Op Res σ) (p : Prog Op Res α) (Q : α → σ → Prop) (s : σ) : Prop :=
  ∃ tr a s', Runs E p s tr a s' ∧ Q a s'

variable {Q Q' : α → σ → Prop} {s : σ}

theorem can_ret {a : α} (h : Q a s) : Can E (.ret a) Q s := ⟨[], a, s, .stop _ _, h⟩

/-- choose what happens before the operation, and its answer -/
theorem can_op {o : Op} {k : Res o → Prog Op Res α} (s1 : σ) (r : Res o) (s2 : σ)
    (hr : E.rely s s1) (ha : E.access s1 o r s2) (h : Can E (k r) Q s2) :
    Can E (.op o k) Q s := by
  obtain ⟨tr, a, s', hx, hq⟩ := h
  exact ⟨_, a, s', .step hr ha hx, hq⟩

theorem can_mono {p : Prog Op Res α} (h : Can E p Q s) (hQ : ∀ a s', Q a s' → Q' a s') :
    Can E p Q' s := by
  obtain ⟨tr, a, s', hx, hq⟩ := h
  exact ⟨tr, a, s', hx, hQ a s' hq⟩

theorem can_bind {p : Prog Op Res α} {f : α → Prog Op Res β} {Q : β → σ → Prop}
    (h : Can E p (fun a s' => Can E (f a) Q s') s) : Can E (p >>= f) Q s := by
  obtain ⟨tr1, a, s1, h1, tr2, b, s2, h2, hq⟩ := h
  exact ⟨tr1 ++ tr2, b, s2, runs_bind.mpr ⟨tr1, a, s1, tr2, rfl, h1, h2⟩, hq⟩

/-- what one environment can do, one it is taken to can do -/
theorem Can.map {f : σ → τ} {p : Prog Op Res α} {Q : α → τ → Prop} (hf : E.Maps f E')
    (h : Can E p (fun a s' => Q a (f s')) s) : Can E' p Q (f s) := by
  obtain ⟨tr, a, s', hx, hq⟩ := h
  exact ⟨_, a, f s', Exec.map hf hx, hq⟩

end
end Interact
