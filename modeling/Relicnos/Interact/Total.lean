import Relicnos.Interact.Exec

/-!
# Runs that come to an end

`wp` says nothing about a run that stops for want of an answer.  Here every operation has to be
answered, except where waiting is part of the purpose.

* `Goes E B p s`          the next operation of `p` is answered, or it may wait there (`B`);
* `Sure E B p Q s`        this holds all along every run, and complete runs end with `Q`;
* `Judged E B G p Q R s`  the same, with `Q` for the runs whose events all meet `G`; from the first
                          event on that does not, nothing waits, and the run ends with `R`.
-/

namespace Interact

section
variable {Op : Type} {Res : Op → Type} {σ α β : Type}
variable {E : Env Op Res σ} {B B' : σ → Op → Prop} {G : Event Op Res σ → Prop}

def Goes (E : Env Op Res σ) (B : σ → Op → Prop) : Prog Op Res α → σ → Prop
  | .ret _, _ => True
  | .op o _, s => ∀ s1, E.rely s s1 → B s1 o ∨ ∃ r s2, E.access s1 o r s2

def Sure (E : Env Op Res σ) (B : σ → Op → Prop) : Prog Op Res α → (α → σ → Prop) → σ → Prop
  | .ret a, Q, s => Q a s
  | .op o k, Q, s => ∀ s1, E.rely s s1 → (B s1 o ∨ ∃ r s2, E.access s1 o r s2) ∧
      ∀ r s2, E.access s1 o r s2 → Sure E B (k r) Q s2

/-- nothing may wait -/
def Never : σ → Op → Prop := fun _ _ => False

def Judged (E : Env Op Res σ) (B : σ → Op → Prop) (G : Event Op Res σ → Prop) :
    Prog Op Res α → (α → σ → Prop) → (α → σ → Prop) → σ → Prop
  | .ret a, Q, _, s => Q a s
  | .op o k, Q, R, s => ∀ s1, E.rely s s1 → (B s1 o ∨ ∃ r s2, E.access s1 o r s2) ∧
      ∀ r s2, E.access s1 o r s2 →
        (G ⟨s1, o, r, s2⟩ ∧ Judged E B G (k r) Q R s2) ∨
        (¬G ⟨s1, o, r, s2⟩ ∧ Sure E Never (k r) R s2)

variable {Q Q' R R' : α → σ → Prop} {s s' : σ}

theorem Goes.mono {p : Prog Op Res α} (h : Goes E B p s) (hB : ∀ s o, B s o → B' s o) :
    Goes E B' p s := by
  cases p with
  | ret a => trivial
  | op o k =>
    intro s1 hr
    rcases h s1 hr with hb | ha
    · exact Or.inl (hB s1 o hb)
    · exact Or.inr ha

/-! ## composition -/

theorem Sure.mono {p : Prog Op Res α} (h : Sure E B p Q s) (hQ : ∀ a s', Q a s' → Q' a s') :
    Sure E B p Q' s := by
  induction p generalizing s with
  | ret a => exact hQ a s h
  | op o k ih =>
    intro s1 hr
    obtain ⟨hgo, hk⟩ := h s1 hr
    exact ⟨hgo, fun r s2 ha => ih r (hk r s2 ha)⟩

theorem Sure.bind {p : Prog Op Res α} {f : α → Prog Op Res β} {Q : β → σ → Prop}
    (h : Sure E B p (fun a s' => Sure E B (f a) Q s') s) : Sure E B (p >>= f) Q s := by
  induction p generalizing s with
  | ret a => exact h
  | op o k ih =>
    intro s1 hr
    obtain ⟨hgo, hk⟩ := h s1 hr
    exact ⟨hgo, fun r s2 ha => ih r (hk r s2 ha)⟩

theorem Judged.mono {p : Prog Op Res α} (h : Judged E B G p Q R s)
    (hQ : ∀ a s', Q a s' → Q' a s') (hR : ∀ a s', R a s' → R' a s') :
    Judged E B G p Q' R' s := by
  induction p generalizing s with
  | ret a => exact hQ a s h
  | op o k ih =>
    intro s1 hr
    obtain ⟨hgo, hk⟩ := h s1 hr
    refine ⟨hgo, ?_⟩
    intro r s2 ha
    rcases hk r s2 ha with ⟨hg, hk⟩ | ⟨hg, hk⟩
    · exact Or.inl ⟨hg, ih r hk⟩
    · exact Or.inr ⟨hg, hk.mono hR⟩

/-- the second part goes on from either verdict on the first -/
theorem Judged.bind {p : Prog Op Res α} {f : α → Prog Op Res β} {Q R : β → σ → Prop}
    (h : Judged E B G p (fun a s' => Judged E B G (f a) Q R s')
      (fun a s' => Sure E Never (f a) R s') s) :
    Judged E B G (p >>= f) Q R s := by
  induction p generalizing s with
  | ret a => exact h
  | op o k ih =>
    intro s1 hr
    obtain ⟨hgo, hk⟩ := h s1 hr
    refine ⟨hgo, ?_⟩
    intro r s2 ha
    rcases hk r s2 ha with ⟨hg, hk⟩ | ⟨hg, hk⟩
    · exact Or.inl ⟨hg, ih r hk⟩
    · exact Or.inr ⟨hg, hk.bind⟩

/-! ## runs -/

theorem Sure.goes {p : Prog Op Res α} (h : Sure E B p Q s) : Goes E B p s := by
  cases p with
  | ret a => trivial
  | op o k => exact fun s1 hr => (h s1 hr).1

theorem Judged.goes {p : Prog Op Res α} (h : Judged E B G p Q R s) : Goes E B p s := by
  cases p with
  | ret a => trivial
  | op o k => exact fun s1 hr => (h s1 hr).1

theorem Sure.exec {p p' : Prog Op Res α} {tr : List (Event Op Res σ)} (h : Sure E B p Q s)
    (hx : Exec E p s tr s' p') : Sure E B p' Q s' := by
  induction hx with
  | stop => exact h
  | step hr ha _ ih => exact ih ((h _ hr).2 _ _ ha)

/-- **The verdict on a run**, at every point of it. -/
theorem Judged.exec {p p' : Prog Op Res α} {tr : List (Event Op Res σ)}
    (h : Judged E B G p Q R s) (hx : Exec E p s tr s' p') :
    ((∀ e ∈ tr, G e) ∧ Judged E B G p' Q R s') ∨
      ((¬∀ e ∈ tr, G e) ∧ Sure E Never p' R s') := by
  induction hx with
  | stop => exact Or.inl ⟨by simp, h⟩
  | step hr ha hx ih =>
    rcases (h _ hr).2 _ _ ha with ⟨hg, hk⟩ | ⟨hg, hk⟩
    · rcases ih hk with ⟨htr, hj⟩ | ⟨htr, hs⟩
      · exact Or.inl ⟨List.forall_mem_cons.mpr ⟨hg, htr⟩, hj⟩
      · exact Or.inr ⟨fun hall => htr (List.forall_mem_cons.mp hall).2, hs⟩
    · exact Or.inr ⟨fun hall => hg (List.forall_mem_cons.mp hall).1, hk.exec hx⟩

end
end Interact
