import Relicnos.Interact.Exec

/-!
# What a program says

The state has a record `out` of what was said so far.  `Says E G out I p a ds J` is a statement on
every run of `p` from a state with `I`: it ends with the value `a` in a state with `J`, and has
added `ds` to the record.

* `Says.bind`    one after the other;
* `Prog.each`    a program for each element of a list, with `Says.each`.
-/

set_option linter.unusedVariables false

namespace Interact

namespace Prog
variable {Op : Type} {Res : Op → Type} {ι : Type}

/-- `f` for one element after the other -/
def each (f : ι → Prog Op Res Unit) : List ι → Prog Op Res Unit
  | [] => pure ()
  | x :: xs => do
    f x
    each f xs

end Prog

variable {Op : Type} {Res : Op → Type} {σ α β δ ι : Type} {E : Env Op Res σ}
  {G : Event Op Res σ → Prop} {I J K : σ → Prop} {out : σ → List δ}

def Says (E : Env Op Res σ) (G : Event Op Res σ → Prop) (out : σ → List δ) (I : σ → Prop)
    (p : Prog Op Res α) (a : α) (ds : List δ) (J : σ → Prop) : Prop :=
  ∀ s, I s → wp E G p (fun r s' => r = a ∧ J s' ∧ out s' = out s ++ ds) s

theorem says_pure (a : α) : Says E G out I (pure a) a [] I :=
  fun s h => ⟨rfl, h, (List.append_nil _).symm⟩

namespace Says

theorem bind {p : Prog Op Res α} {f : α → Prog Op Res β} {a : α} {b : β} {ds ds' : List δ}
    (hp : Says E G out I p a ds J) (hf : Says E G out J (f a) b ds' K) :
    Says E G out I (p >>= f) b (ds ++ ds') K := by
  intro s h
  rw [wp_bind]
  apply wp_post (hp s h)
  intro r s1 hr
  obtain ⟨rfl, h1, ho⟩ := hr
  apply wp_post (hf s1 h1)
  intro r s2 hr
  obtain ⟨rfl, h2, ho2⟩ := hr
  exact ⟨rfl, h2, by rw [ho2, ho, List.append_assoc]⟩

/-- a first part that says nothing -/
theorem bind_nil {p : Prog Op Res α} {f : α → Prog Op Res β} {a : α} {b : β} {ds : List δ}
    (hp : Says E G out I p a [] J) (hf : Says E G out J (f a) b ds K) :
    Says E G out I (p >>= f) b ds K := hp.bind hf

theorem mono {I' J' : σ → Prop} {p : Prog Op Res α} {a : α} {ds : List δ}
    (hp : Says E G out I p a ds J) (hI : ∀ s, I' s → I s) (hJ : ∀ s, J s → J' s) :
    Says E G out I' p a ds J' := by
  intro s h
  apply wp_post (hp s (hI s h))
  intro r s' hr
  exact ⟨hr.1, hJ _ hr.2.1, hr.2.2⟩

/-- **A program for each element says what is said for each, in order.** -/
theorem each {f : ι → Prog Op Res Unit} {g : ι → List δ} {xs : List ι}
    (h : ∀ x ∈ xs, Says E G out I (f x) () (g x) I) :
    Says E G out I (Prog.each f xs) () (xs.flatMap g) I := by
  induction xs with
  | nil => exact says_pure ()
  | cons x xs ih =>
    rw [List.flatMap_cons]
    exact (h x List.mem_cons_self).bind (ih fun y hy => h y (List.mem_cons_of_mem _ hy))

end Says
end Interact
