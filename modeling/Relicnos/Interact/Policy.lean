import Relicnos.Interact.Exec

/-!
# Resolving the choices of an environment

A policy answers every operation in one of the ways the environment allows, so a program can be
executed against it: `Policy.play` computes the run, and `play_exec` says that it is one of the
runs of the environment.
-/

namespace Interact

variable {Op : Type} {Res : Op → Type} {σ α : Type} {E : Env Op Res σ}

/-- answers for the `n`-th operation: the state it finds, its result, the state it leaves -/
structure Policy (E : Env Op Res σ) where
  act : Nat → σ → (o : Op) → Option (σ × Res o × σ)
  sound : ∀ n s o s1 r s2, act n s o = some (s1, r, s2) → E.rely s s1 ∧ E.access s1 o r s2

namespace Policy

def play (P : Policy E) : Nat → Prog Op Res α → σ → List (Event Op Res σ) × σ × Prog Op Res α
  | _, .ret a, s => ([], s, .ret a)
  | n, .op o k, s =>
    match P.act n s o with
    | none => ([], s, .op o k)
    | some (s1, r, s2) =>
      let rest := play P (n + 1) (k r) s2
      (⟨s1, o, r, s2⟩ :: rest.1, rest.2)

/-- **A played run is a run.** -/
theorem play_exec (P : Policy E) (n : Nat) (p : Prog Op Res α) (s : σ) :
    Exec E p s (P.play n p s).1 (P.play n p s).2.1 (P.play n p s).2.2 := by
  induction p generalizing n s with
  | ret a => exact .stop _ _
  | op o k ih =>
    rw [play]
    cases h : P.act n s o with
    | none => exact .stop _ _
    | some t =>
      obtain ⟨s1, r, s2⟩ := t
      obtain ⟨hr, ha⟩ := P.sound n s o s1 r s2 h
      exact .step hr ha (ih r (n + 1) s2)

/-- a played run that comes to an end is a complete one -/
theorem play_runs (P : Policy E) (n : Nat) (p : Prog Op Res α) (s : σ) {a : α}
    (h : (P.play n p s).2.2.result = some a) :
    Runs E p s (P.play n p s).1 a (P.play n p s).2.1 := by
  have hx := P.play_exec n p s
  rw [Prog.eq_of_result h] at hx
  exact hx

/-- a policy that answers every operation of a program completes it -/
theorem play_completes (P : Policy E) {O : Op → Prop} (h : ∀ n s o, O o → (P.act n s o).isSome)
    {p : Prog Op Res α} (hp : p.Uses O) (n : Nat) (s : σ) :
    ∃ a, (P.play n p s).2.2.result = some a := by
  induction p generalizing n s with
  | ret a => exact ⟨a, rfl⟩
  | op o k ih =>
    obtain ⟨⟨s1, r, s2⟩, hact⟩ := Option.isSome_iff_exists.mp (h n s o hp.1)
    rw [play, hact]
    exact ih r (hp.2 r) (n + 1) s2

/-- what every answer keeps is kept -/
theorem play_keeps (P : Policy E) {I : σ → Prop}
    (h : ∀ n s o s1 r s2, I s → P.act n s o = some (s1, r, s2) → I s2) (p : Prog Op Res α) (n : Nat)
    {s : σ} (hs : I s) : I (P.play n p s).2.1 := by
  induction p generalizing n s with
  | ret a => exact hs
  | op o k ih =>
    rw [play]
    cases hact : P.act n s o with
    | none => exact hs
    | some t =>
      obtain ⟨s1, r, s2⟩ := t
      exact ih r (n + 1) (h n s o s1 r s2 hs hact)

end Policy

/-- a deterministic environment, where nothing happens in between -/
def Env.machine (f : σ → (o : Op) → Option (Res o × σ)) : Env Op Res σ where
  rely s s' := s' = s
  access s o r s' := f s o = some (r, s')

def Policy.machine (f : σ → (o : Op) → Option (Res o × σ)) : Policy (Env.machine f) where
  act _ s o := (f s o).map fun t => (s, t)
  sound := by
    intro n s o s1 r s2 h
    obtain ⟨t, ht, he⟩ := Option.map_eq_some_iff.mp h
    cases he
    exact ⟨rfl, ht⟩

end Interact
