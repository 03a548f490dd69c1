import Relicnos.Interact.Policy

/-!
# Environments that log their interference

What other parties were told is not part of the state of a system, so an environment can be
given a log of what its interference did.  The log changes nothing: a run of the logged
environment is a run of the plain one (`Exec.unlog`).

* `Env.Maps f E E'`  `f` takes what `E` does to what `E'` does;
* `Exec.map`, `wp_map`  it takes runs to runs, and brings back what holds of them;
* `Env.logged E did` `E` with a log, where `did s ls s'` says that the interference from `s` to
                     `s'` did `ls`;
* `wp_logged`        a run of a program that keeps `P` between the state and the log;
* `Policy.logged`    a policy that also says what it did.
-/

namespace Interact

section
variable {Op : Type} {Res : Op → Type} {σ τ L α : Type}
variable {E : Env Op Res σ} {E' : Env Op Res τ} {p p' : Prog Op Res α}

structure Env.Maps (f : σ → τ) (E : Env Op Res σ) (E' : Env Op Res τ) : Prop where
  rely : ∀ s s', E.rely s s' → E'.rely (f s) (f s')
  access : ∀ s o r s', E.access s o r s' → E'.access (f s) o r (f s')

def Event.map (f : σ → τ) (e : Event Op Res σ) : Event Op Res τ := ⟨f e.pre, e.op, e.res, f e.post⟩

theorem Exec.map {f : σ → τ} {s s' : σ} {tr : List (Event Op Res σ)} (hf : E.Maps f E')
    (h : Exec E p s tr s' p') : Exec E' p (f s) (tr.map (Event.map f)) (f s') p' := by
  induction h with
  | stop => exact .stop _ _
  | step hr ha _ ih => exact .step (hf.rely _ _ hr) (hf.access _ _ _ _ ha) ih

/-- what holds of the runs of `E'` holds of those of `E` -/
theorem wp_map {f : σ → τ} {G : Event Op Res τ → Prop} {Q : α → τ → Prop} {s : σ}
    (hf : E.Maps f E') (h : wp E' G p Q (f s)) :
    wp E (fun e => G (e.map f)) p (fun a s' => Q a (f s')) s := by
  induction p generalizing s with
  | ret a => exact h
  | op o k ih =>
    intro s1 hr r s2 ha
    obtain ⟨hg, hk⟩ := h (f s1) (hf.rely _ _ hr) r (f s2) (hf.access _ _ _ _ ha)
    exact ⟨hg, ih r hk⟩

def Env.logged (E : Env Op Res σ) (did : σ → List L → σ → Prop) : Env Op Res (σ × List L) where
  rely s s' := E.rely s.1 s'.1 ∧ ∃ ls, did s.1 ls s'.1 ∧ s'.2 = s.2 ++ ls
  access s o r s' := E.access s.1 o r s'.1 ∧ s'.2 = s.2

variable {did : σ → List L → σ → Prop}

theorem Env.logged_maps : (E.logged did).Maps Prod.fst E :=
  ⟨fun _ _ h => h.1, fun _ _ _ _ h => h.1⟩

theorem Exec.unlog {s s' : σ × List L} {tr : List (Event Op Res (σ × List L))}
    (h : Exec (E.logged did) p s tr s' p') :
    Exec E p s.1 (tr.map (Event.map Prod.fst)) s'.1 p' := h.map Env.logged_maps

/-- the log only grows -/
theorem Exec.log_prefix {s s' : σ × List L} {tr : List (Event Op Res (σ × List L))}
    (h : Exec (E.logged did) p s tr s' p') :
    s.2 <+: s'.2 ∧ ∀ e ∈ tr, e.pre.2 <+: s'.2 ∧ e.post.2 <+: s'.2 := by
  induction h with
  | stop => exact ⟨List.prefix_refl _, by simp⟩
  | step hr ha _ ih =>
    obtain ⟨_, ls, _, hls⟩ := hr
    obtain ⟨hp, htr⟩ := ih
    have h1 := hp
    rw [ha.2] at h1
    refine ⟨List.IsPrefix.trans ⟨ls, hls.symm⟩ h1, ?_⟩
    intro e he
    rcases List.mem_cons.mp he with rfl | he
    · exact ⟨h1, hp⟩
    · exact htr e he

/-- what is logged from states in `W` only -/
theorem Exec.log_all {W : σ → Prop} {D : L → Prop} {s s' : σ × List L}
    {tr : List (Event Op Res (σ × List L))}
    (hd : ∀ s ls s', W s → did s ls s' → ∀ l ∈ ls, D l)
    (h : Exec (E.logged did) p s tr s' p') (hw : W s.1) (ht : ∀ e ∈ tr, W e.post.1)
    (h0 : ∀ l ∈ s.2, D l) : ∀ l ∈ s'.2, D l := by
  induction h with
  | stop => exact h0
  | step hr ha _ ih =>
    obtain ⟨_, ls, hls, he⟩ := hr
    apply ih (ht _ (List.mem_cons_self ..)) (fun e hm => ht e (List.mem_cons_of_mem _ hm))
    intro l hl
    rw [ha.2, he] at hl
    rcases List.mem_append.mp hl with hl | hl
    · exact h0 l hl
    · exact hd _ ls _ hw hls l hl

/-- a relation between the state and the log, kept by what is logged and by the operations of
the program -/
theorem wp_logged {P : σ × List L → Prop} {O : Op → Prop} {s : σ × List L}
    (hd : ∀ s ls s', P s → did s.1 ls s' → P (s', s.2 ++ ls))
    (hk : ∀ s o r s', O o → P s → E.access s.1 o r s' → P (s', s.2)) (hu : p.Uses O) (h : P s) :
    wp (E.logged did) (fun e => P e.pre ∧ P e.post) p (fun _ s' => P s') s := by
  refine wp_keeps ?_ ?_ hu h
  · rintro s ⟨s', log⟩ hp ⟨_, ls, hls, rfl⟩
    exact hd s ls s' hp hls
  · rintro s o r ⟨s', log⟩ ho hp ⟨ha, rfl⟩
    have h' := hk s o r s' ho hp ha
    exact ⟨⟨hp, h'⟩, h'⟩

/-- a policy whose `n`-th interference does `ds n` -/
def Policy.logged (P : Policy E) (ds : Nat → σ → List L)
    (h : ∀ n s o s1 r s2, P.act n s o = some (s1, r, s2) → did s (ds n s) s1) :
    Policy (E.logged did) where
  act n s o := (P.act n s.1 o).map fun t =>
    ((t.1, s.2 ++ ds n s.1), t.2.1, (t.2.2, s.2 ++ ds n s.1))
  sound := by
    intro n s o s1 r s2 hact
    obtain ⟨⟨t1, tr, t2⟩, ht, he⟩ := Option.map_eq_some_iff.mp hact
    cases he
    obtain ⟨hr, ha⟩ := P.sound _ _ _ _ _ _ ht
    exact ⟨⟨hr, ds n s.1, h _ _ _ _ _ _ ht, rfl⟩, ha, rfl⟩

end
end Interact
