import Mathlib.Data.List.Range
import Mathlib.Logic.Function.Basic
import Mathlib.Tactic.Common

/-!
# Ring buffers refine queues

A ring of `N` slots with a write index `head` and a read index `tail`; one slot is never used,
so that `head = tail` means empty.  `queue N r` is what the ring holds, oldest first.

* `queue_put`   a write appends, as long as fewer than `N - 1` slots are used;
* `queue_pop`   a read takes the oldest element;
* `queue_nil`   the ring is empty exactly if the indices meet.
-/

namespace Interact

structure RingBuf (α : Type) where
  buf : Nat → α
  head : Nat
  tail : Nat

namespace RingBuf
variable {α : Type} {N : Nat} {r : RingBuf α}

def used (N : Nat) (r : RingBuf α) : Nat := (r.head + N - r.tail) % N

def queue (N : Nat) (r : RingBuf α) : List α :=
  (List.range (r.used N)).map fun k => r.buf ((r.tail + k) % N)

/-- both indices are inside the ring -/
structure Wf (N : Nat) (r : RingBuf α) : Prop where
  head : r.head < N
  tail : r.tail < N

def put (N : Nat) (r : RingBuf α) (x : α) : RingBuf α :=
  { r with buf := Function.update r.buf r.head x, head := (r.head + 1) % N }

def pop (N : Nat) (r : RingBuf α) : RingBuf α := { r with tail := (r.tail + 1) % N }

theorem used_cases (h : r.Wf N) :
    (r.tail ≤ r.head ∧ r.used N = r.head - r.tail) ∨
      (r.head < r.tail ∧ r.used N = r.head + N - r.tail) := by
  obtain ⟨hh, ht⟩ := h
  by_cases hc : r.tail ≤ r.head
  · refine .inl ⟨hc, ?_⟩
    have e : r.head + N - r.tail = r.head - r.tail + N := by omega
    rw [used, e, Nat.add_mod_right, Nat.mod_eq_of_lt (by omega)]
  · refine .inr ⟨by omega, ?_⟩
    rw [used, Nat.mod_eq_of_lt (by omega)]

theorem used_lt (h : r.Wf N) : r.used N < N :=
  Nat.mod_lt _ (by have := h.head; omega)

theorem length_queue : (r.queue N).length = r.used N := by
  simp [queue]

theorem used_zero (h : r.Wf N) : r.used N = 0 ↔ r.head = r.tail := by
  have hh := h.head
  have ht := h.tail
  rcases used_cases h with ⟨hc, e⟩ | ⟨hc, e⟩ <;> rw [e] <;> omega

theorem queue_nil (h : r.Wf N) : r.queue N = [] ↔ r.head = r.tail := by
  rw [← used_zero h, ← length_queue, List.length_eq_zero_iff]

/-- the index `k` places after one inside the ring, without `%` -/
private theorem index_cases {i k : Nat} (hi : i < N) (hk : k < N) :
    (i + k < N ∧ (i + k) % N = i + k) ∨ (N ≤ i + k ∧ (i + k) % N = i + k - N) := by
  by_cases hc : i + k < N
  · exact .inl ⟨hc, Nat.mod_eq_of_lt hc⟩
  · refine .inr ⟨by omega, ?_⟩
    rw [Nat.mod_eq_sub_mod (by omega), Nat.mod_eq_of_lt (by omega)]

theorem Wf.put (h : r.Wf N) (x : α) : (r.put N x).Wf N :=
  ⟨Nat.mod_lt _ (by have := h.head; omega), h.tail⟩

theorem Wf.pop (h : r.Wf N) : (r.pop N).Wf N :=
  ⟨h.head, Nat.mod_lt _ (by have := h.head; omega)⟩

theorem used_put (h : r.Wf N) (x : α) (hroom : r.used N + 1 < N) :
    (r.put N x).used N = r.used N + 1 := by
  have hh := h.head
  have ht := h.tail
  have e1 : (r.put N x).head = (r.head + 1) % N := rfl
  have e2 : (r.put N x).tail = r.tail := rfl
  rcases used_cases h with ⟨hc, e⟩ | ⟨hc, e⟩ <;>
    rcases used_cases (h.put x) with ⟨hc', e'⟩ | ⟨hc', e'⟩ <;>
    rcases index_cases (k := 1) hh (by omega) with ⟨hi, ei⟩ | ⟨hi, ei⟩ <;>
    simp only [e1, e2, ei] at hc' e' <;> omega

theorem used_pop (h : r.Wf N) (hne : r.head ≠ r.tail) :
    (r.pop N).used N + 1 = r.used N := by
  have hh := h.head
  have ht := h.tail
  have e1 : (r.pop N).head = r.head := rfl
  have e2 : (r.pop N).tail = (r.tail + 1) % N := rfl
  rcases used_cases h with ⟨hc, e⟩ | ⟨hc, e⟩ <;>
    rcases used_cases h.pop with ⟨hc', e'⟩ | ⟨hc', e'⟩ <;>
    rcases index_cases (k := 1) ht (by omega) with ⟨hi, ei⟩ | ⟨hi, ei⟩ <;>
    simp only [e1, e2, ei] at hc' e' <;> omega

/-- **A write appends to the queue.** -/
theorem queue_put (h : r.Wf N) (x : α) (hroom : r.used N + 1 < N) :
    (r.put N x).queue N = r.queue N ++ [x] := by
  have hh := h.head
  have ht := h.tail
  have hlast : (r.tail + r.used N) % N = r.head := by
    rcases used_cases h with ⟨hc, e⟩ | ⟨hc, e⟩ <;>
      rcases index_cases (k := r.used N) ht (by omega) with ⟨hi, ei⟩ | ⟨hi, ei⟩ <;>
      rw [ei] <;> omega
  have hold : ∀ k, k < r.used N → (r.tail + k) % N ≠ r.head := by
    intro k hk
    rcases used_cases h with ⟨hc, e⟩ | ⟨hc, e⟩ <;>
      rcases index_cases (k := k) ht (by omega) with ⟨hi, ei⟩ | ⟨hi, ei⟩ <;>
      rw [ei] <;> omega
  rw [queue, used_put h x hroom, List.range_succ, List.map_append, List.map_singleton]
  show List.map (fun k => Function.update r.buf r.head x ((r.tail + k) % N)) _
    ++ [Function.update r.buf r.head x ((r.tail + r.used N) % N)] = _
  rw [hlast, Function.update_self]
  refine congrArg (· ++ [x]) (List.map_congr_left ?_)
  intro k hk
  rw [Function.update_of_ne (hold k (List.mem_range.mp hk))]

/-- **A read takes the oldest element.** -/
theorem queue_pop (h : r.Wf N) (hne : r.head ≠ r.tail) :
    r.queue N = r.buf r.tail :: (r.pop N).queue N := by
  have ht := h.tail
  rw [queue, ← used_pop h hne, List.range_succ_eq_map, List.map_cons, List.map_map,
    Nat.add_zero, Nat.mod_eq_of_lt ht]
  refine congrArg (r.buf r.tail :: ·) (List.map_congr_left ?_)
  intro k _
  show r.buf ((r.tail + (k + 1)) % N) = r.buf (((r.tail + 1) % N + k) % N)
  rw [Nat.mod_add_mod]
  congr 2
  omega

end RingBuf
end Interact
