import Relicnos.Nm32a.Live

/-!
# The break test beside the other users of its port

`sendbreak_set` has three critical sections of `np->lock`, and between the first two it samples the
transmit pin four hundred times under `hw_lock`.  Any call can come between two sections, and the
three of `np->lock` also into the middle of a call.

* `Test`        a test under way, and what it is measured by: whether the port is activated, and
                what had been sent when the test found it closed;
* `Deed`        the sections of `np->lock` that producers and the test go through;
* `breakCard`   the card with any number of them before every operation;
* `TestRuns`    calls and sections in any order;
* `Books`       what is recorded of a test is what the port showed.
-/

set_option linter.unusedVariables false

namespace Nm32a
open Interact

/-- a call of `sendbreak_set` that has been through its first section and not through its third -/
structure Going where
  /-- `was_open` -/
  wasOpen : Bool
  /-- whether the port was activated then -/
  found : Bool
  /-- how often the transmit pin was sampled -/
  samples : Nat
  /-- whether it has been through the second one -/
  stopped : Bool

/-- the tests of one port; writes to `sendbreak` exclude each other -/
structure Test where
  going : Option Going
  /-- what the latest activation or shutdown of the port has assigned to `open` -/
  active : Bool
  /-- the bytes sent on the channel when a test last found the port closed, until it is activated -/
  base : Option Nat

/-- one section of `np->lock` -/
inductive Act where
  | tty (call : TtyCall)
  | start
  | stop
  | done

/-- what it does, after `n` bytes have been sent on the channel -/
inductive Deed (n : Nat) : Act → Line × Test → Line × Test → Prop
  | tty (l : Line) (t : Test) (call : TtyCall) : l.locked = false →
      Deed n (.tty call) (l, t) ((call.run l).1, t)
  | start (l : Line) (t : Test) : l.locked = false → t.going = none →
      Deed n .start (l, t) ({ l with
          np := (sendbreakStart l.np).1
          prods := l.prods ++ if 2 ≤ nm32aTxSpace l.np then [.brk true] else [] },
        { t with
          going := some ⟨(sendbreakStart l.np).2, t.active, 0, false⟩
          base := if t.active then t.base else some n })
  | stop (l : Line) (t : Test) (g : Going) : l.locked = false → t.going = some g →
      g.stopped = false → 400 ≤ g.samples →
      Deed n .stop (l, t) ({ l with
          np := sendbreakStop l.np
          prods := l.prods ++ if 2 ≤ nm32aTxSpace l.np then [.brk false] else [] },
        { t with going := some { g with stopped := true } })
  | done (l : Line) (t : Test) (g : Going) : l.locked = false → t.going = some g →
      g.stopped = true →
      Deed n .done (l, t) ({ l with np := sendbreakDone g.wasOpen l.np }, { t with going := none })

/-- sections that meet `A`, one after the other -/
def Deeds (A : Line × Test → Act → Prop) (n : Nat) : Line × Test → Line × Test → Prop :=
  Relation.ReflTransGen fun s s' => ∃ a, A s a ∧ Deed n a s s'

/-- the transmit pin has been sampled once more -/
def Test.sampled (t : Test) : Test :=
  { t with going := t.going.map fun g => { g with samples := g.samples + 1 } }

/-- what an operation means for the tests of port `i` -/
def Test.after (i : Fin 32) (t : Test) : Op → Test
  | .setPort k (.opened b) =>
    if k = i then { t with active := b, base := if b then none else t.base } else t
  | .setPort k (.head _) => if k = i then { t with base := none } else t
  | .crd j .RCOR => if j = chipOf i then t.sampled else t
  | _ => t

theorem after_opened (i : Fin 32) (t : Test) (b : Bool) : t.after i (.setPort i (.opened b))
    = { t with active := b, base := if b then none else t.base } := if_pos rfl

/-- the card with sections that meet `A` on port `i` between any two operations -/
def breakCard (i : Fin 32) (A : Line × Test → Act → Prop) : Env Op Res (World × Test) where
  rely s s' := tendedCard.rely s.1 s'.1 ∧
    Deeds A (s.1.sentOn i).length (s.1.line i, s.2) (s'.1.line i, s'.2)
  access s o r s' := tendedCard.access s.1 o r s'.1 ∧ s'.2 = s.2.after i o

/-- complete calls in any order whose events meet `G`, with sections that meet `A` between them and
in them -/
inductive TestRuns (i : Fin 32) (A : Line × Test → Act → Prop)
    (G : Call → Event Op Res (World × Test) → Prop) :
    World × Test → List Call → World × Test → Prop
  | nil (s : World × Test) : TestRuns i A G s [] s
  | between {s s1 s' : World × Test} {calls : List Call} : (breakCard i A).rely s s1 →
      TestRuns i A G s1 calls s' → TestRuns i A G s calls s'
  | call {s s1 s' : World × Test} {call : Call} {calls : List Call}
      {tr : List (Event Op Res (World × Test))} : Runs (breakCard i A) call.prog s tr () s1 →
      (∀ e ∈ tr, G call e) → TestRuns i A G s1 calls s' → TestRuns i A G s (call :: calls) s'

/-- what holds between two calls and is kept by the sections and the calls is never lost -/
theorem TestRuns.keeps {i : Fin 32} {A : Line × Test → Act → Prop}
    {G : Call → Event Op Res (World × Test) → Prop} {P : World × Test → Prop} {C : Call → Prop}
    {s s' : World × Test} {calls : List Call} (h : TestRuns i A G s calls s')
    (hs : Stable (breakCard i A) P)
    (hk : ∀ call s tr s', C call → P s → Runs (breakCard i A) call.prog s tr () s' →
      (∀ e ∈ tr, G call e) → P s') (hc : ∀ call ∈ calls, C call) (hp : P s) : P s' := by
  induction h with
  | nil => exact hp
  | between hr _ ih => exact ih hc (hs _ _ hp hr)
  | call hx hg _ ih =>
    apply ih fun call hm => hc call (List.mem_cons_of_mem _ hm)
    exact hk _ _ _ _ (hc _ (List.mem_cons_self ..)) hp hx hg

variable {i : Fin 32} {A : Line × Test → Act → Prop} {n : Nat} {a : Act} {l l' : Line}
  {t t' : Test} {s s' : World × Test} {w w' : World} {c : Cfg}

theorem breakCard_maps : (breakCard i A).Maps Prod.fst tendedCard.card :=
  ⟨fun _ _ h => h.1, fun _ _ _ _ h => h.1⟩

/-- what is true of all runs of the card is true of those with a test -/
theorem wp_card {α : Type} {G : Event Op Res World → Prop} {p : Drv α} {Q : α → World → Prop}
    (h : wp tendedCard.card G p Q s.1) :
    wp (breakCard i A) (fun e => G (e.map Prod.fst)) p (fun a s' => Q a s'.1) s :=
  wp_map breakCard_maps h

theorem stable_card {P : World → Prop} (h : Stable tendedCard.card P) :
    Stable (breakCard i A) fun s => P s.1 := fun s s' hp hr => h s.1 s'.1 hp hr.1

/-! ## one section -/

theorem Deed.produce {s s' : Line × Test} (h : Deed n a s s') : Line.Produce s.1 s'.1 := by
  cases h with
  | tty l t call hl => exact call.run_produce hl
  | start l t hl ht => exact .sendbreakStart l hl
  | stop l t g hl ht hs hn => exact .sendbreakStop l hl
  | done l t g hl ht hs => exact .sendbreakDone l g.wasOpen hl

/-- a property of the bytes sent, the port and its test that every section keeps -/
theorem stable_deeds {P : Nat → Line × Test → Prop}
    (h : ∀ n s a s', A s a → P n s → Deed n a s s' → P n s') :
    Stable (breakCard i A) fun s => P (s.1.sentOn i).length (s.1.line i, s.2) := by
  intro s s' hp hr
  have hall : ∀ n (s1 s2 : Line × Test), Deeds A n s1 s2 → P n s1 → P n s2 := by
    intro n s1 s2 hd hp
    induction hd with
    | refl => exact hp
    | tail _ h1 ih =>
      obtain ⟨a, ha, hd⟩ := h1
      exact h n _ a _ ha ih hd
  rw [hr.1.sentOn i]
  exact hall _ _ _ hr.2 hp

theorem Deed.active {s s' : Line × Test} (h : Deed n a s s') : s'.2.active = s.2.active := by
  cases h <;> rfl

/-! ## the flag -/

/-- what the sections and the operations record is what the port showed -/
structure Books (s : Line × Test) : Prop where
  opened : s.2.going = none → s.1.np.opened = s.2.active
  saved : ∀ g, s.2.going = some g → g.wasOpen = g.found
  base : s.2.active = true → s.2.base = none

/-- the test ends with the port as activated as it found it -/
def Act.Restores (s : Line × Test) : Act → Prop
  | .done => ∀ g, s.2.going = some g → g.found = s.2.active
  | _ => True

theorem Books.deed {s s' : Line × Test} (h : Books s) (ha : a.Restores s) (hd : Deed n a s s') :
    Books s' := by
  cases hd with
  | tty l t call hl =>
    refine ⟨?_, h.saved, h.base⟩
    intro hg
    rw [(call.run_same l).opened]
    exact h.opened hg
  | start l t hl ht =>
    refine ⟨?_, ?_, ?_⟩
    · intro hg
      cases hg
    · intro g hg
      cases hg
      exact h.opened ht
    · intro hact
      show (if t.active then t.base else some n) = none
      rw [if_pos hact]
      exact h.base hact
  | stop l t g hl ht hs hn =>
    refine ⟨?_, ?_, h.base⟩
    · intro hg
      cases hg
    · intro g' hg
      cases hg
      exact h.saved g ht
  | done l t g hl ht hs =>
    refine ⟨?_, ?_, h.base⟩
    · intro _
      exact (h.saved g ht).trans (ha g ht)
    · intro g' hg
      cases hg

theorem stable_books (hA : ∀ s a, A s a → a.Restores s) :
    Stable (breakCard i A) fun s => Books (s.1.line i, s.2) :=
  stable_deeds (P := fun _ s => Books s) fun _ s a _ ha h hd => h.deed (hA s a ha) hd

/-- the flag is assigned to by one operation only -/
theorem access_opened {o : Op} {r : Res o} (ho : ∀ b, o ≠ .setPort i (.opened b))
    (ha : c.access w o r w') : (w'.line i).np.opened = (w.line i).np.opened := by
  have hset : ∀ (k : Fin 32) (l : Line), (k = i → l.np.opened = (w.line i).np.opened) →
      ((w.setLine k l).line i).np.opened = (w.line i).np.opened := by
    intro k l hl
    unfold World.setLine
    by_cases e : i = k
    · subst e
      simp only [Function.update_self]
      exact hl rfl
    · simp only [Function.update_of_ne e]
  cases o with
  | crd j reg =>
    obtain ⟨h', _, rfl⟩ := ha
    rfl
  | readb addr =>
    replace ha : c.Ack addr w w' := ha
    cases ha with
    | nothing h => rfl
    | grant j x hj hx hl h0 => rfl
  | spinLock k => subst ha; exact hset k _ fun e => by rw [← e]
  | spinUnlock k => subst ha; exact hset k _ fun e => by rw [← e]
  | flip k bs => subst ha; exact hset k _ fun e => by rw [← e]
  | setPort k f =>
    subst ha
    apply hset k
    intro e
    subst e
    cases f with
    | opened b => exact absurd rfl (ho b)
    | _ => rfl
  | port k => obtain ⟨_, rfl⟩ := ha; rfl
  | params => obtain ⟨_, rfl⟩ := ha; rfl
  | jiffies => obtain ⟨_, rfl⟩ := ha; rfl
  | hang => exact False.elim ha
  | _ => subst ha; rfl

/-- the ways an operation counts for the tests -/
theorem after_cases (o : Op) :
    (∃ b, o = .setPort i (.opened b) ∧
      t.after i o = { t with active := b, base := if b then none else t.base }) ∨
    (∃ v, o = .setPort i (.head v) ∧ t.after i o = { t with base := none }) ∨
    ((∀ b, o ≠ .setPort i (.opened b)) ∧ (t.after i o = t.sampled ∨ t.after i o = t)) := by
  cases o with
  | setPort k f =>
    by_cases e : k = i
    · subst e
      cases f with
      | opened b => exact .inl ⟨b, rfl, after_opened k t b⟩
      | head v => exact .inr (.inl ⟨v, rfl, if_pos rfl⟩)
      | _ =>
        refine .inr (.inr ⟨?_, .inr rfl⟩)
        intro b h
        cases h
    · refine .inr (.inr ⟨?_, .inr ?_⟩)
      · intro b h
        cases h
        exact e rfl
      · cases f with
        | opened b => exact if_neg e
        | head v => exact if_neg e
        | _ => rfl
  | crd j reg =>
    refine .inr (.inr ⟨?_, ?_⟩)
    · intro b h
      cases h
    · by_cases hr : reg = .RCOR
      · subst hr
        by_cases hj : j = chipOf i
        · exact .inl (if_pos hj)
        · exact .inr (if_neg hj)
      · right
        cases reg
        case RCOR => exact absurd rfl hr
        all_goals rfl
  | _ =>
    refine .inr (.inr ⟨?_, .inr rfl⟩)
    intro b h
    cases h

theorem Books.sampled (h : Books (l, t)) (hl : l'.np.opened = l.np.opened) :
    Books (l', t.sampled) := by
  obtain ⟨going, active, base⟩ := t
  cases going with
  | none =>
    refine ⟨fun _ => hl.trans (h.opened rfl), ?_, h.base⟩
    intro g hg
    cases hg
  | some g =>
    refine ⟨?_, ?_, h.base⟩
    · intro hg
      cases hg
    · intro g' hg
      cases hg
      exact h.saved g rfl

theorem Books.access {o : Op} {r : Res o} (h : Books (s.1.line i, s.2))
    (ha : (breakCard i A).access s o r s') : Books (s'.1.line i, s'.2) := by
  obtain ⟨hw, ht⟩ := ha
  rw [ht]
  rcases after_cases (i := i) (t := s.2) o with ⟨b, rfl, he⟩ | ⟨v, rfl, he⟩ | ⟨hne, he | he⟩
  · have hopen : (s'.1.line i).np.opened = b := by
      rw [show s'.1 = s.1.setLine i (s.1.assign i (.opened b)) from hw]
      show (Function.update s.1.line i _ i).np.opened = b
      rw [Function.update_self]
      rfl
    rw [he]
    exact ⟨fun _ => hopen, h.saved, fun hb => if_pos hb⟩
  · have hopen := access_opened (i := i) (fun b e => by cases e) hw
    rw [he]
    exact ⟨fun hg => hopen.trans (h.opened hg), h.saved, fun _ => rfl⟩
  · rw [he]
    exact h.sampled (access_opened hne hw)
  · rw [he]
    exact ⟨fun hg => (access_opened hne hw).trans (h.opened hg), h.saved, h.base⟩

end Nm32a
