import Mathlib.Logic.Relation
import Mathlib.Order.WellFounded

/-!
# Two parties and the messages between them

A party reacts to each message it is given, and what it sends is in flight to the other one until
it is delivered, in any order.

* `Step`, `Reaches`       one delivery or one unprompted move, and any number of them;
* `reaches_keeps`         what every step preserves holds of all that is reached;
* `endless`               if a delivery is always followed by another one, some run never ends;
* `settles`               if every delivery lowers a measure, all messages can be delivered.
-/

namespace Interact

inductive Party where
  | left
  | right
  deriving DecidableEq, Repr

def Party.other : Party → Party
  | .left => .right
  | .right => .left

structure Exchange (σ μ : Type) where
  /-- the next state, and what is sent back -/
  react : Party → σ → μ → σ × List μ
  /-- what a party may do unprompted -/
  move : Party → σ → σ × List μ → Prop

/-- the messages in flight, each with the party it goes to -/
structure Link (σ μ : Type) where
  state : σ
  flight : List (Party × μ)

namespace Exchange
variable {σ μ : Type} (E : Exchange σ μ)

/-- the link when `p` has done `r`, with `rest` still in flight -/
def after (p : Party) (r : σ × List μ) (rest : List (Party × μ)) : Link σ μ :=
  ⟨r.1, rest ++ r.2.map (Prod.mk p.other)⟩

/-- `m`, in flight to `p`, is delivered -/
def Delivers (p : Party) (m : μ) (l l' : Link σ μ) : Prop :=
  ∃ xs ys, l.flight = xs ++ (p, m) :: ys ∧ l' = after p (E.react p l.state m) (xs ++ ys)

def Delivery (l l' : Link σ μ) : Prop := ∃ p m, E.Delivers p m l l'

def Step (l l' : Link σ μ) : Prop :=
  E.Delivery l l' ∨ ∃ p r, E.move p l.state r ∧ l' = after p r l.flight

def Reaches : Link σ μ → Link σ μ → Prop := Relation.ReflTransGen E.Step

/-- only finitely many messages are exchanged, whatever the order -/
def Ends (l : Link σ μ) : Prop :=
  ¬∃ run : Nat → Link σ μ, run 0 = l ∧ ∀ n, E.Delivery (run n) (run (n + 1))

variable {E}

theorem reaches_keeps {P : Link σ μ → Prop} (hs : ∀ l l', E.Step l l' → P l → P l')
    {l l' : Link σ μ} (h : E.Reaches l l') (hp : P l) : P l' := by
  induction h with
  | refl => exact hp
  | tail _ hstep ih => exact hs _ _ hstep ih

theorem endless {P : Link σ μ → Prop} (hs : ∀ l, P l → ∃ l', E.Delivery l l' ∧ P l')
    {l : Link σ μ} (hp : P l) : ¬E.Ends l := by
  have hacc : ¬Acc (fun l' l => E.Delivery l l') l := by
    intro h
    induction h with
    | intro l _ ih =>
      obtain ⟨l', hd, hp'⟩ := hs l hp
      exact ih l' hd hp'
  exact not_not.mpr (not_acc_iff_exists_descending_chain.mp hacc)

/-! ## delivering the oldest message first -/

/-- the oldest message is delivered -/
def next (E : Exchange σ μ) (l : Link σ μ) : Link σ μ :=
  match l.flight with
  | [] => l
  | (p, m) :: rest => after p (E.react p l.state m) rest

/-- the `n` oldest messages are delivered -/
def drain (E : Exchange σ μ) : Nat → Link σ μ → Link σ μ
  | 0, l => l
  | n + 1, l => drain E n (E.next l)

theorem next_delivery {l : Link σ μ} (h : l.flight ≠ []) : E.Delivery l (E.next l) := by
  obtain ⟨⟨p, m⟩, rest, hl⟩ := List.exists_cons_of_ne_nil h
  refine ⟨p, m, [], rest, hl, ?_⟩
  unfold next
  rw [hl]
  rfl

theorem reaches_drain (n : Nat) (l : Link σ μ) : E.Reaches l (E.drain n l) := by
  induction n generalizing l with
  | zero => exact .refl
  | succ n ih =>
    by_cases h : l.flight = []
    · have hn : E.next l = l := by
        unfold next
        rw [h]
      show E.Reaches l (E.drain n (E.next l))
      rw [hn]
      exact ih l
    · exact .head (.inl (next_delivery h)) (ih (E.next l))

theorem settles {f : Link σ μ → Nat} (hf : ∀ l l', E.Delivery l l' → f l' < f l)
    (l : Link σ μ) : ∃ n, (E.drain n l).flight = [] := by
  induction hn : f l using Nat.strong_induction_on generalizing l with
  | _ k ih =>
    subst hn
    by_cases h : l.flight = []
    · exact ⟨0, h⟩
    · obtain ⟨n, hd⟩ := ih _ (hf _ _ (next_delivery h)) (E.next l) rfl
      exact ⟨n + 1, hd⟩

end Exchange
end Interact
