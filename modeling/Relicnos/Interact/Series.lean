import Relicnos.Interact.Exec

/-!
# A program that is run again and again

* `Call`               one complete run: the state it found, its trace, the state it left;
* `Series E b p s cs s'`  from `s` the calls `cs` of `p` follow one another, with `b` in between,
                       and leave `s'`;
* `Series.mem_runs`    every call of a series is a run;
* `Series.countdown`   a measure that every call lowers bounds the number of calls.
-/

namespace Interact

structure Call (Op : Type) (Res : Op → Type) (σ : Type) where
  pre : σ
  trace : List (Event Op Res σ)
  post : σ

section
variable {Op : Type} {Res : Op → Type} {σ α : Type}

inductive Series (E : Env Op Res σ) (between : σ → σ → Prop) (p : Prog Op Res α) :
    σ → List (Call Op Res σ) → σ → Prop
  | done (s : σ) : Series E between p s [] s
  | again {s s1 s2 s' : σ} {tr : List (Event Op Res σ)} {a : α} {cs : List (Call Op Res σ)} :
      between s s1 → Runs E p s1 tr a s2 → Series E between p s2 cs s' →
      Series E between p s (⟨s1, tr, s2⟩ :: cs) s'

namespace Series
variable {E : Env Op Res σ} {between : σ → σ → Prop} {p : Prog Op Res α} {s s' : σ}
  {cs : List (Call Op Res σ)}

theorem mem_runs (h : Series E between p s cs s') :
    ∀ c ∈ cs, ∃ a, Runs E p c.pre c.trace a c.post := by
  induction h with
  | done => simp
  | again hb hr hs ih =>
    intro c hc
    rcases List.mem_cons.mp hc with rfl | hc
    · exact ⟨_, hr⟩
    · exact ih c hc

theorem countdown (h : Series E between p s cs s') (m : σ → Nat)
    (hb : ∀ s s1, between s s1 → m s1 ≤ m s) (hm : ∀ c ∈ cs, m c.post < m c.pre) :
    cs.length + m s' ≤ m s := by
  induction h with
  | done => simp
  | @again s s1 s2 s' tr a cs h1 hr hs ih =>
    have hc : m s2 < m s1 := hm ⟨s1, tr, s2⟩ (List.mem_cons_self ..)
    have hrest := ih fun c hc => hm c (List.mem_cons_of_mem _ hc)
    have h0 := hb s s1 h1
    rw [List.length_cons]
    omega

end Series
end
end Interact
