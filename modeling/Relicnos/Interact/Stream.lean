import Mathlib.Data.List.Basic
import Mathlib.Data.List.Range
import Mathlib.Tactic.Common

/-!
# A stream handed over in buffers that are taken in part

A sink is offered one buffer after the other and takes a front part of each: `ws` lists the
buffers with how much of each was taken.

* `offered`, `taken`  what the sink was offered, and what it took;
* `places`            where what it took stands in what it was offered;
* `Unbroken`          these are the first places, none left out;
* `Stalls`            once a buffer has been taken short nothing more is taken;
* `unbroken_iff`      the two are the same.
-/

namespace Interact

variable {α : Type}

def offered (ws : List (List α × Nat)) : List α := (ws.map Prod.fst).flatten

def taken (ws : List (List α × Nat)) : List α := ws.flatMap fun w => w.1.take w.2

/-- the first buffer begins at place `off` -/
def places (off : Nat) : List (List α × Nat) → List Nat
  | [] => []
  | w :: ws => List.range' off w.2 ++ places (off + w.1.length) ws

/-- no buffer gives more than it has -/
def Fits (ws : List (List α × Nat)) : Prop := ∀ w ∈ ws, w.2 ≤ w.1.length

def Unbroken (ws : List (List α × Nat)) : Prop := places 0 ws = List.range (places 0 ws).length

def Stalls : List (List α × Nat) → Prop
  | [] => True
  | w :: ws => (w.2 < w.1.length → ∀ x ∈ ws, x.2 = 0) ∧ Stalls ws

variable {ws : List (List α × Nat)} {w : List α × Nat}

theorem Fits.head (h : Fits (w :: ws)) : w.2 ≤ w.1.length := h w (List.mem_cons_self ..)

theorem Fits.tail (h : Fits (w :: ws)) : Fits ws := fun x hx => h x (List.mem_cons_of_mem _ hx)

theorem offered_concat (ws : List (List α × Nat)) (w : List α × Nat) :
    offered (ws ++ [w]) = offered ws ++ w.1 := by
  simp [offered]

theorem places_ge {off i : Nat} (h : i ∈ places off ws) : off ≤ i := by
  induction ws generalizing off with
  | nil => cases h
  | cons w ws ih =>
    rcases List.mem_append.mp h with h | h
    · exact (List.mem_range'_1.mp h).1
    · exact Nat.le_trans (Nat.le_add_right ..) (ih h)

theorem places_nil_iff (off : Nat) : places off ws = [] ↔ ∀ x ∈ ws, x.2 = 0 := by
  induction ws generalizing off with
  | nil => simp [places]
  | cons w ws ih => simp [places, ih]

/-- **No place is left out exactly if nothing is taken after a short buffer.** -/
theorem places_iff (h : Fits ws) (off : Nat) :
    places off ws = List.range' off (places off ws).length ↔ Stalls ws := by
  induction ws generalizing off with
  | nil => exact ⟨fun _ => trivial, fun _ => rfl⟩
  | cons w ws ih =>
    have hlen : (places off (w :: ws)).length
        = w.2 + (places (off + w.1.length) ws).length := by
      rw [places, List.length_append, List.length_range']
    have happ : List.range' off (w.2 + (places (off + w.1.length) ws).length)
        = List.range' off w.2 ++ List.range' (off + w.2) (places (off + w.1.length) ws).length := by
      rw [List.range'_append_1]
    rw [hlen, happ, places, List.append_cancel_left_eq]
    rcases Nat.lt_or_ge w.2 w.1.length with hlt | hge
    · -- taken short: the next place taken would be too far on
      have hgo : Stalls (w :: ws) ↔ places (off + w.1.length) ws = [] := by
        rw [places_nil_iff]
        refine ⟨fun hs => hs.1 hlt, fun hz => ⟨fun _ => hz, ?_⟩⟩
        refine (ih h.tail (off + w.1.length)).mp ?_
        rw [(places_nil_iff _).mpr hz]
        rfl
      rw [hgo]
      constructor
      · intro he
        by_contra hne
        obtain ⟨i, is, hi⟩ := List.exists_cons_of_ne_nil hne
        have hge : off + w.1.length ≤ i := places_ge (by rw [hi]; simp)
        rw [hi, List.length_cons, List.range'_succ] at he
        have := (List.cons.inj he).1
        omega
      · intro he
        rw [he]
        rfl
    · have he : w.2 = w.1.length := Nat.le_antisymm h.head hge
      rw [he, ih h.tail (off + w.1.length)]
      exact ⟨fun hs => ⟨fun hlt => absurd hlt (by omega), hs⟩, fun hs => hs.2⟩

theorem unbroken_iff (h : Fits ws) : Unbroken ws ↔ Stalls ws := by
  unfold Unbroken
  rw [List.range_eq_range', places_iff h]

/-- what is at the places is what was taken -/
theorem taken_places (h : Fits ws) (pre : List α) :
    (taken ws).map some = (places pre.length ws).map fun i => (pre ++ offered ws)[i]? := by
  induction ws generalizing pre with
  | nil => rfl
  | cons w ws ih =>
    have ht : taken (w :: ws) = w.1.take w.2 ++ taken ws := rfl
    have ho : pre ++ offered (w :: ws) = pre ++ w.1 ++ offered ws := by
      rw [offered, List.map_cons, List.flatten_cons, ← List.append_assoc]
      rfl
    have ih := ih h.tail (pre ++ w.1)
    rw [List.length_append] at ih
    rw [ht, ho, places, List.map_append, List.map_append, ih]
    congr 1
    refine List.ext_getElem? fun i => ?_
    rw [List.getElem?_map, List.getElem?_map, List.getElem?_take]
    have hw := h.head
    by_cases hi : i < w.2
    · rw [if_pos hi, List.getElem?_range' hi]
      simp only [Option.map_some]
      rw [List.append_assoc, List.getElem?_append_right (by omega),
        List.getElem?_append_left (by omega)]
      have e : pre.length + 1 * i - pre.length = i := by omega
      rw [e, List.getElem?_eq_getElem (by omega)]
      rfl
    · rw [if_neg hi, List.getElem?_eq_none (by rw [List.length_range']; omega)]
      rfl

/-- **What was taken is the front of what was offered.** -/
theorem Unbroken.taken_prefix (hf : Fits ws) (h : Unbroken ws) : taken ws <+: offered ws := by
  have ht := taken_places hf []
  rw [List.length_nil, h, List.nil_append] at ht
  have hlen : (taken ws).length = (places 0 ws).length := by
    have hl := congrArg List.length ht
    simpa using hl
  refine List.prefix_iff_eq_take.mpr (List.ext_getElem? fun i => ?_)
  rw [hlen, List.getElem?_take]
  by_cases hi : i < (places 0 ws).length
  · have hi' : i < (taken ws).length := by omega
    have hg := congrArg (fun l => l[i]?) ht
    simp only [List.getElem?_map] at hg
    rw [List.getElem?_range hi, List.getElem?_eq_getElem hi'] at hg
    rw [if_pos hi, List.getElem?_eq_getElem hi']
    exact Option.some.inj hg
  · rw [if_neg hi, List.getElem?_eq_none (by omega)]

end Interact
