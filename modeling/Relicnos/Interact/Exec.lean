import Relicnos.Interact.Prog

/-!
# Runs of a program in an environment, and weakest preconditions

An environment `Env` answers operations and interferes between them: `rely s s'` is what the
rest of the world may do to the state before the next operation, `access s o r s'` is one
operation.  Both are relations, so everything that is not determined is chosen by the
environment.

* `Exec E p s tr s' p'`   `p` started in `s` issues the operations of the trace `tr` and has the
                          program `p'` left in state `s'` (a run may stop anywhere);
* `Runs E p s tr a s'`    a complete run with result `a`;
* `wp E G p Q s`          every run of `p` from `s` meets the guard `G` at each of its events,
                          and if it is complete its result and final state satisfy `Q`;
* `wp_exec`, `wp_runs`    `wp` speaks about all runs;
* `wp_keeps`              the frame rule: an assertion kept by the operations that `p` can issue
                          is kept by `p`;
* `Env.assume E A`        `E` where every operation is assumed to meet `A`; a run of `E` whose
                          events all do is a run of it (`Exec.imp`), and what holds in `E` holds
                          there (`wp_le`).
-/

namespace Interact

structure Env (Op : Type) (Res : Op → Type) (σ : Type) where
  rely : σ → σ → Prop
  access : σ → (o : Op) → Res o → σ → Prop

/-- one operation of a run, with the states around it -/
structure Event (Op : Type) (Res : Op → Type) (σ : Type) where
  pre : σ
  op : Op
  res : Res op
  post : σ

section
variable {Op : Type} {Res : Op → Type} {σ α β : Type}

inductive Exec (E : Env Op Res σ) :
    Prog Op Res α → σ → List (Event Op Res σ) → σ → Prog Op Res α → Prop
  | stop (p : Prog Op Res α) (s : σ) : Exec E p s [] s p
  | step {o : Op} {k : Res o → Prog Op Res α} {s s1 s2 s' : σ} {r : Res o}
      {tr : List (Event Op Res σ)} {p' : Prog Op Res α} :
      E.rely s s1 → E.access s1 o r s2 → Exec E (k r) s2 tr s' p' →
      Exec E (.op o k) s (⟨s1, o, r, s2⟩ :: tr) s' p'

/-- a complete run -/
def Runs (E : Env Op Res σ) (p : Prog Op Res α) (s : σ) (tr : List (Event Op Res σ)) (a : α)
    (s' : σ) : Prop := Exec E p s tr s' (.ret a)

variable {E : Env Op Res σ}

theorem runs_ret {a b : α} {s s' : σ} {tr : List (Event Op Res σ)} :
    Runs E (.ret a : Prog Op Res α) s tr b s' ↔ tr = [] ∧ a = b ∧ s = s' := by
  constructor
  · intro h
    cases h with
    | stop => exact ⟨rfl, rfl, rfl⟩
  · rintro ⟨rfl, rfl, rfl⟩
    exact .stop _ _

theorem runs_op {o : Op} {k : Res o → Prog Op Res α} {s s' : σ} {tr : List (Event Op Res σ)}
    {a : α} : Runs E (.op o k) s tr a s' ↔
      ∃ s1 r s2 tr', tr = ⟨s1, o, r, s2⟩ :: tr' ∧ E.rely s s1 ∧ E.access s1 o r s2 ∧
        Runs E (k r) s2 tr' a s' := by
  constructor
  · intro h
    cases h with
    | step hr ha hk => exact ⟨_, _, _, _, rfl, hr, ha, hk⟩
  · rintro ⟨s1, r, s2, tr', rfl, hr, ha, hk⟩
    exact .step hr ha hk

/-- a complete run of `p >>= f` is one of `p` followed by one of `f` -/
theorem runs_bind {p : Prog Op Res α} {f : α → Prog Op Res β} {s s' : σ}
    {tr : List (Event Op Res σ)} {b : β} : Runs E (p >>= f) s tr b s' ↔
      ∃ tr1 a s1 tr2, tr = tr1 ++ tr2 ∧ Runs E p s tr1 a s1 ∧ Runs E (f a) s1 tr2 b s' := by
  induction p generalizing s tr with
  | ret a =>
    constructor
    · intro h
      exact ⟨[], a, s, tr, rfl, .stop _ _, h⟩
    · rintro ⟨tr1, a', s1, tr2, rfl, h1, h2⟩
      obtain ⟨rfl, rfl, rfl⟩ := runs_ret.mp h1
      exact h2
  | op o k ih =>
    rw [Prog.op_bind, runs_op]
    constructor
    · rintro ⟨s1, r, s2, tr', rfl, hr, ha, hk⟩
      obtain ⟨tr1, a, s3, tr2, rfl, h1, h2⟩ := (ih r).mp hk
      exact ⟨⟨s1, o, r, s2⟩ :: tr1, a, s3, tr2, rfl, runs_op.mpr ⟨s1, r, s2, tr1, rfl, hr, ha, h1⟩,
        h2⟩
    · rintro ⟨tr1, a, s3, tr2, rfl, h1, h2⟩
      obtain ⟨s1, r, s2, tr', rfl, hr, ha, hk⟩ := runs_op.mp h1
      exact ⟨s1, r, s2, tr' ++ tr2, rfl, hr, ha, (ih r).mpr ⟨tr', a, s3, tr2, rfl, hk, h2⟩⟩

/-! ## weakest preconditions -/

def wp (E : Env Op Res σ) (G : Event Op Res σ → Prop) :
    Prog Op Res α → (α → σ → Prop) → σ → Prop
  | .ret a, Q, s => Q a s
  | .op o k, Q, s => ∀ s1, E.rely s s1 → ∀ r s2, E.access s1 o r s2 →
      G ⟨s1, o, r, s2⟩ ∧ wp E G (k r) Q s2

variable {G G' : Event Op Res σ → Prop} {Q Q' : α → σ → Prop} {s : σ}

theorem wp_pure (a : α) : wp E G (pure a : Prog Op Res α) Q s = Q a s := rfl
theorem wp_op (o : Op) (k : Res o → Prog Op Res α) : wp E G (.op o k) Q s =
    ∀ s1, E.rely s s1 → ∀ r s2, E.access s1 o r s2 →
      G ⟨s1, o, r, s2⟩ ∧ wp E G (k r) Q s2 := rfl

theorem wp_bind (p : Prog Op Res α) (f : α → Prog Op Res β) (Q : β → σ → Prop) (s : σ) :
    wp E G (p >>= f) Q s ↔ wp E G p (fun a s' => wp E G (f a) Q s') s := by
  induction p generalizing s with
  | ret a => exact Iff.rfl
  | op o k ih =>
    rw [Prog.op_bind, wp_op, wp_op]
    simp only [ih]

theorem wp_mono {p : Prog Op Res α} (h : wp E G p Q s) (hG : ∀ e, G e → G' e)
    (hQ : ∀ a s', Q a s' → Q' a s') : wp E G' p Q' s := by
  induction p generalizing s with
  | ret a => exact hQ a s h
  | op o k ih =>
    intro s1 hr r s2 ha
    obtain ⟨hg, hk⟩ := h s1 hr r s2 ha
    exact ⟨hG _ hg, ih r hk⟩

theorem wp_post {p : Prog Op Res α} (h : wp E G p Q s) (hQ : ∀ a s', Q a s' → Q' a s') :
    wp E G p Q' s := wp_mono h (fun _ h => h) hQ

theorem wp_and {p : Prog Op Res α} (h : wp E G p Q s) (h' : wp E G' p Q' s) :
    wp E (fun e => G e ∧ G' e) p (fun a s' => Q a s' ∧ Q' a s') s := by
  induction p generalizing s with
  | ret a => exact ⟨h, h'⟩
  | op o k ih =>
    intro s1 hr r s2 ha
    obtain ⟨hg, hk⟩ := h s1 hr r s2 ha
    obtain ⟨hg', hk'⟩ := h' s1 hr r s2 ha
    exact ⟨⟨hg, hg'⟩, ih r hk hk'⟩

/-- the guard holds along every run, and what is left still has its precondition -/
theorem wp_exec {p p' : Prog Op Res α} {s' : σ} {tr : List (Event Op Res σ)}
    (h : wp E G p Q s) (hx : Exec E p s tr s' p') : (∀ e ∈ tr, G e) ∧ wp E G p' Q s' := by
  induction hx with
  | stop => exact ⟨by simp, h⟩
  | step hr ha _ ih =>
    obtain ⟨hg, hk⟩ := h _ hr _ _ ha
    obtain ⟨htr, hq⟩ := ih hk
    refine ⟨?_, hq⟩
    intro e he
    rcases List.mem_cons.mp he with rfl | he
    · exact hg
    · exact htr e he

theorem wp_runs {p : Prog Op Res α} {s' : σ} {a : α} {tr : List (Event Op Res σ)}
    (h : wp E G p Q s) (hx : Runs E p s tr a s') : (∀ e ∈ tr, G e) ∧ Q a s' :=
  wp_exec h hx

/-! ## assertions that interference and operations keep -/

/-- the interference keeps `P` -/
def Stable (E : Env Op Res σ) (P : σ → Prop) : Prop := ∀ s s', P s → E.rely s s' → P s'

/-- the operations in `O` keep `P` and meet the guard from it -/
def Keeps (E : Env Op Res σ) (G : Event Op Res σ → Prop) (O : Op → Prop) (P : σ → Prop) : Prop :=
  ∀ s o r s', O o → P s → E.access s o r s' → G ⟨s, o, r, s'⟩ ∧ P s'

theorem Keeps.post {P : σ → Prop} {O : Op → Prop} (h : Keeps E G O P) :
    Keeps E (fun e => P e.post) O P :=
  fun s o r s' ho hp ha => ⟨(h s o r s' ho hp ha).2, (h s o r s' ho hp ha).2⟩

theorem Stable.and {P P' : σ → Prop} (h : Stable E P) (h' : Stable E P') :
    Stable E (fun s => P s ∧ P' s) :=
  fun s s' hp hr => ⟨h s s' hp.1 hr, h' s s' hp.2 hr⟩

/-- one operation, found with an assertion that interference keeps -/
theorem wp_step {P : σ → Prop} {o : Op} {f : Res o → Prog Op Res α} (hs : Stable E P) (hp : P s)
    (h : ∀ s1 r s2, P s1 → E.access s1 o r s2 → G ⟨s1, o, r, s2⟩ ∧ wp E G (f r) Q s2) :
    wp E G (Prog.call o >>= f) Q s :=
  fun s1 hr r s2 ha => h s1 r s2 (hs s s1 hp hr) ha

/-- **Frame rule.** -/
theorem wp_keeps {P : σ → Prop} {O : Op → Prop} {p : Prog Op Res α} (hs : Stable E P)
    (hk : Keeps E G O P) (hu : p.Uses O) (hp : P s) : wp E G p (fun _ s' => P s') s := by
  induction p generalizing s with
  | ret a => exact hp
  | op o k ih =>
    intro s1 hr r s2 ha
    obtain ⟨hg, hp2⟩ := hk s1 o r s2 hu.1 (hs s s1 hp hr) ha
    exact ⟨hg, ih r (hu.2 r) hp2⟩

/-- a first part that only keeps `P` -/
theorem wp_bind_keeps {P : σ → Prop} {O : Op → Prop} {p : Prog Op Res α} {f : α → Prog Op Res β}
    {Q : β → σ → Prop} (hs : Stable E P) (hk : Keeps E G O P) (hu : p.Uses O) (hp : P s)
    (h : ∀ a s', P s' → wp E G (f a) Q s') : wp E G (p >>= f) Q s :=
  (wp_bind p f Q s).mpr (wp_post (wp_keeps hs hk hu hp) h)

theorem wp_times {P : σ → Prop} {p : Prog Op Res α}
    (h : ∀ s, P s → wp E G p (fun _ s' => P s') s) (n : Nat) (hp : P s) :
    wp E G (p.times n) (fun _ s' => P s') s := by
  induction n generalizing s with
  | zero => exact hp
  | succ n ih =>
    rw [Prog.times_succ, wp_bind]
    exact wp_post (h s hp) (fun _ s' hs' => ih hs')

/-! ## narrower environments -/

/-- `E'` allows whatever `E` allows -/
structure Env.Le (E E' : Env Op Res σ) : Prop where
  rely : ∀ s s', E.rely s s' → E'.rely s s'
  access : ∀ s o r s', E.access s o r s' → E'.access s o r s'

def Env.assume (E : Env Op Res σ) (A : Event Op Res σ → Prop) : Env Op Res σ where
  rely := E.rely
  access s o r s' := E.access s o r s' ∧ A ⟨s, o, r, s'⟩

theorem Env.le_refl (E : Env Op Res σ) : E.Le E := ⟨fun _ _ h => h, fun _ _ _ _ h => h⟩

theorem Env.assume_le (E : Env Op Res σ) (A : Event Op Res σ → Prop) : (E.assume A).Le E :=
  ⟨fun _ _ h => h, fun _ _ _ _ h => h.1⟩

variable {E' : Env Op Res σ}

theorem wp_le {p : Prog Op Res α} (hE : E.Le E') (h : wp E' G p Q s) : wp E G p Q s := by
  induction p generalizing s with
  | ret a => exact h
  | op o k ih =>
    intro s1 hr r s2 ha
    obtain ⟨hg, hk⟩ := h s1 (hE.rely _ _ hr) r s2 (hE.access _ _ _ _ ha)
    exact ⟨hg, ih r hk⟩

theorem Stable.le {P : σ → Prop} (hE : E.Le E') (h : Stable E' P) : Stable E P :=
  fun s s' hp hr => h s s' hp (hE.rely _ _ hr)

theorem Keeps.le {P : σ → Prop} {O : Op → Prop} (hE : E.Le E') (h : Keeps E' G O P) :
    Keeps E G O P :=
  fun s o r s' ho hp ha => h s o r s' ho hp (hE.access _ _ _ _ ha)

theorem Keeps.mono {P : σ → Prop} {O O' : Op → Prop} (h : Keeps E G O P) (hO : ∀ o, O' o → O o) :
    Keeps E G O' P :=
  fun s o r s' ho => h s o r s' (hO o ho)

/-- a program that has to pass through an operation that is not possible does not end -/
theorem wp_reaches {P : σ → Prop} {O U : Op → Prop} {p : Prog Op Res α} (hs : Stable E P)
    (hk : Keeps E G O P) (hU : ∀ s o r s', U o → P s → ¬E.access s o r s') (hp : p.Reaches O U)
    (h : P s) : wp E G p Q s := by
  induction p generalizing s with
  | ret a => exact hp.elim
  | op o k ih =>
    intro s1 hr r s2 ha
    have h1 := hs s s1 h hr
    rcases hp with ⟨hu, _⟩ | ⟨ho, hp⟩
    · exact absurd ha (hU s1 o r s2 hu h1)
    · obtain ⟨hg, h2⟩ := hk s1 o r s2 ho h1 ha
      exact ⟨hg, ih r (hp r) h2⟩

/-! ## traces -/

/-- the events of a run are what the environment does -/
theorem Exec.mem_access {p p' : Prog Op Res α} {s' : σ} {tr : List (Event Op Res σ)}
    (h : Exec E p s tr s' p') : ∀ e ∈ tr, E.access e.pre e.op e.res e.post := by
  induction h with
  | stop => simp
  | step _ ha _ ih =>
    intro e he
    rcases List.mem_cons.mp he with rfl | he
    · exact ha
    · exact ih e he

/-- the operations of a run are operations of the program -/
theorem Exec.uses {O : Op → Prop} {p p' : Prog Op Res α} {s' : σ} {tr : List (Event Op Res σ)}
    (h : Exec E p s tr s' p') (hu : p.Uses O) : ∀ e ∈ tr, O e.op := by
  induction h with
  | stop => simp
  | step _ _ _ ih =>
    intro e he
    rcases List.mem_cons.mp he with rfl | he
    · exact hu.1
    · exact ih (hu.2 _) e he

/-- a run whose events another environment allows is a run of that one -/
theorem Exec.imp {p p' : Prog Op Res α} {s' : σ} {tr : List (Event Op Res σ)}
    (h : Exec E p s tr s' p') (hr : ∀ s s', E.rely s s' → E'.rely s s')
    (ha : ∀ e ∈ tr, E.access e.pre e.op e.res e.post → E'.access e.pre e.op e.res e.post) :
    Exec E' p s tr s' p' := by
  induction h with
  | stop => exact .stop _ _
  | step hr1 ha1 _ ih =>
    exact .step (hr _ _ hr1) (ha _ (List.mem_cons_self ..) ha1)
      (ih fun e he => ha e (List.mem_cons_of_mem _ he))

theorem Exec.split {p p' : Prog Op Res α} {s' : σ} (tr1 : List (Event Op Res σ))
    {tr2 : List (Event Op Res σ)} (h : Exec E p s (tr1 ++ tr2) s' p') :
    ∃ s1 p1, Exec E p s tr1 s1 p1 ∧ Exec E p1 s1 tr2 s' p' := by
  induction tr1 generalizing p s with
  | nil => exact ⟨s, p, .stop _ _, h⟩
  | cons e tr1 ih =>
    cases h with
    | step hr ha h =>
      obtain ⟨s1, p1, h1, h2⟩ := ih h
      exact ⟨s1, p1, .step hr ha h1, h2⟩

/-- what interference keeps and every event keeps is never lost -/
theorem Exec.chain {P : σ → Prop} {p p' : Prog Op Res α} {s' : σ} {tr : List (Event Op Res σ)}
    (h : Exec E p s tr s' p') (hs : Stable E P) (hk : ∀ e ∈ tr, P e.pre → P e.post) (hp : P s) :
    (∀ e ∈ tr, P e.pre) ∧ P s' := by
  induction h with
  | stop => exact ⟨by simp, hp⟩
  | step hr _ _ ih =>
    have h1 := hs _ _ hp hr
    obtain ⟨htr, hf⟩ := ih (fun e he => hk e (List.mem_cons_of_mem _ he))
      (hk _ (List.mem_cons_self ..) h1)
    refine ⟨?_, hf⟩
    intro e he
    rcases List.mem_cons.mp he with rfl | he
    · exact h1
    · exact htr e he

end
end Interact
