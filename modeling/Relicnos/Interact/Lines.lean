import Mathlib.Algebra.GroupWithZero.Nat
import Mathlib.Tactic.Basic

/-!
# Reading lines through a buffer

A text is read with at most `n` characters at a time, each read ending after a separator.  A
consumer that does not care about the separators, nor about nothing, is given the lines of the text,
each cut into pieces of `n` characters.

* `fgets`, `reads`   one read, and all reads until the text ends;
* `pieces`           the pieces of a line;
* `foldl_reads`      what the consumer is given;
* `foldl_lines`      no line is cut if none is longer than the buffer.
-/

set_option linter.unusedSectionVars false

namespace Interact

variable {α σ : Type} [DecidableEq α] {sep : α} {n : Nat}

/-- at most `n` characters, the separator the last of them, and what is left -/
def fgets (sep : α) : Nat → List α → List α × List α
  | 0, s => ([], s)
  | _ + 1, [] => ([], [])
  | n + 1, c :: s =>
    if c = sep then ([c], s)
    else (c :: (fgets sep n s).1, (fgets sep n s).2)

theorem fgets_length (n : Nat) (s : List α) : (fgets sep n s).2.length ≤ s.length := by
  induction n generalizing s with
  | zero => exact Nat.le_refl _
  | succ n ih =>
    cases s with
    | nil => exact Nat.le_refl _
    | cons c s =>
      unfold fgets
      split
      · exact Nat.le_succ _
      · exact Nat.le_succ_of_le (ih s)

theorem fgets_lt [NeZero n] (c : α) (s : List α) :
    (fgets sep n (c :: s)).2.length < (c :: s).length := by
  obtain ⟨m, rfl⟩ := Nat.exists_eq_succ_of_ne_zero (NeZero.ne n)
  unfold fgets
  split
  · exact Nat.lt_succ_self _
  · exact Nat.lt_succ_of_le (fgets_length m s)

/-- all reads until nothing is left -/
def reads (sep : α) (n : Nat) [NeZero n] : List α → List (List α)
  | [] => []
  | c :: s => (fgets sep n (c :: s)).1 :: reads sep n (fgets sep n (c :: s)).2
termination_by s => s.length
decreasing_by exact fgets_lt c s

/-- a line, cut after every `n` characters -/
def pieces (n : Nat) [NeZero n] (l : List α) : List (List α) :=
  if l.length < n then [l] else l.take n :: pieces n (l.drop n)
termination_by l.length
decreasing_by
  have := Nat.pos_of_ne_zero (NeZero.ne n)
  rw [List.length_drop]
  omega

/-! ## one read -/

theorem fgets_cons {c : α} (s : List α) (hc : c ≠ sep) :
    fgets sep (n + 1) (c :: s) = (c :: (fgets sep n s).1, (fgets sep n s).2) :=
  if_neg hc

theorem fgets_short {l : List α} (r : List α) (hl : sep ∉ l) (h : l.length < n) :
    fgets sep n (l ++ sep :: r) = (l ++ [sep], r) := by
  induction l generalizing n with
  | nil =>
    obtain ⟨m, rfl⟩ := Nat.exists_eq_succ_of_ne_zero (Nat.ne_of_gt h)
    exact if_pos rfl
  | cons c l ih =>
    obtain ⟨m, rfl⟩ := Nat.exists_eq_succ_of_ne_zero (Nat.ne_of_gt (Nat.zero_lt_of_lt h))
    have hc : c ≠ sep := (List.ne_of_not_mem_cons hl).symm
    have hl' : sep ∉ l := List.not_mem_of_not_mem_cons hl
    rw [List.cons_append, fgets_cons _ hc, ih hl' (Nat.lt_of_succ_lt_succ h)]
    rfl

theorem fgets_full {l : List α} (r : List α) (hl : sep ∉ l) :
    fgets sep l.length (l ++ r) = (l, r) := by
  induction l with
  | nil => rfl
  | cons c l ih =>
    have hc : c ≠ sep := (List.ne_of_not_mem_cons hl).symm
    have hl' : sep ∉ l := List.not_mem_of_not_mem_cons hl
    rw [List.cons_append, List.length_cons, fgets_cons _ hc, ih hl']

theorem fgets_last {l : List α} (hl : sep ∉ l) (h : l.length ≤ n) : fgets sep n l = (l, []) := by
  induction l generalizing n with
  | nil => cases n <;> rfl
  | cons c l ih =>
    obtain ⟨m, rfl⟩ := Nat.exists_eq_succ_of_ne_zero (Nat.ne_of_gt (Nat.zero_lt_of_lt h))
    have hc : c ≠ sep := (List.ne_of_not_mem_cons hl).symm
    have hl' : sep ∉ l := List.not_mem_of_not_mem_cons hl
    rw [fgets_cons _ hc, ih hl' (Nat.le_of_succ_le_succ h)]

theorem fgets_take {l : List α} (r : List α) (hl : sep ∉ l) (h : n ≤ l.length) :
    fgets sep n (l ++ r) = (l.take n, l.drop n ++ r) := by
  have ht : sep ∉ l.take n := fun hmem => hl (List.mem_of_mem_take hmem)
  have hf := fgets_full (l.drop n ++ r) ht
  rwa [List.length_take_of_le h, ← List.append_assoc, List.take_append_drop] at hf

/-! ## all reads -/

theorem reads_eq [NeZero n] {s : List α} (h : s ≠ []) :
    reads sep n s = (fgets sep n s).1 :: reads sep n (fgets sep n s).2 := by
  cases s with
  | nil => exact absurd rfl h
  | cons c s => rw [reads]

section
variable [NeZero n] {f : σ → List α → σ} (hsep : ∀ st l, f st (l ++ [sep]) = f st l)
  (hnil : ∀ st, f st [] = st)
include hsep

/-- a line and its separator -/
theorem foldl_reads_line {l : List α} (r : List α) (st : σ) (hl : sep ∉ l) :
    (reads sep n (l ++ sep :: r)).foldl f st
      = (reads sep n r).foldl f ((pieces n l).foldl f st) := by
  have hne : l ++ sep :: r ≠ [] := List.append_ne_nil_of_right_ne_nil _ (List.cons_ne_nil _ _)
  by_cases h : l.length < n
  · rw [reads_eq hne, fgets_short r hl h, pieces, if_pos h]
    show (reads sep n r).foldl f (f st (l ++ [sep])) = _
    rw [hsep]
    rfl
  · rw [reads_eq hne, fgets_take _ hl (Nat.le_of_not_lt h), pieces, if_neg h]
    exact foldl_reads_line r _ fun hmem => hl (List.mem_of_mem_drop hmem)
termination_by l.length
decreasing_by
  have := Nat.pos_of_ne_zero (NeZero.ne n)
  rw [List.length_drop]
  omega

include hnil

/-- a line that the text ends with -/
theorem foldl_reads_last {l : List α} (st : σ) (hl : sep ∉ l) :
    (reads sep n l).foldl f st = (pieces n l).foldl f st := by
  by_cases h : l.length < n
  · rw [pieces, if_pos h]
    cases l with
    | nil =>
      rw [reads]
      exact (hnil st).symm
    | cons c l =>
      rw [reads, fgets_last hl (Nat.le_of_lt h), reads]
  · have hpos := Nat.pos_of_ne_zero (NeZero.ne n)
    have hne : l ≠ [] := by
      intro h0
      rw [h0] at h
      exact h hpos
    have ht := fgets_take [] hl (Nat.le_of_not_lt h)
    rw [List.append_nil, List.append_nil] at ht
    rw [reads_eq hne, ht, pieces, if_neg h]
    exact foldl_reads_last _ fun hmem => hl (List.mem_of_mem_drop hmem)
termination_by l.length
decreasing_by
  have := Nat.pos_of_ne_zero (NeZero.ne n)
  rw [List.length_drop]
  omega

/-- **What a consumer of the reads is given**: the pieces of the lines. -/
theorem foldl_reads (s : List α) (st : σ) :
    (reads sep n s).foldl f st = ((s.splitOn sep).flatMap (pieces n)).foldl f st := by
  by_cases h : sep ∈ s
  · obtain ⟨l, r, hs, hl⟩ := List.eq_append_cons_of_mem h
    subst hs
    rw [foldl_reads_line hsep r st hl, List.splitOn_append_cons_self_of_not_mem hl,
      List.flatMap_cons, List.foldl_append]
    exact foldl_reads r _
  · rw [foldl_reads_last hsep hnil st h, List.splitOn_eq_singleton h, List.flatMap_singleton]
termination_by s.length
decreasing_by
  simp only [hs, List.length_append, List.length_cons]
  omega

theorem foldl_pieces {l : List α} (h : l.length ≤ n) (st : σ) :
    (pieces n l).foldl f st = f st l := by
  rw [pieces]
  by_cases hlt : l.length < n
  · rw [if_pos hlt]
    rfl
  · have hpos := Nat.pos_of_ne_zero (NeZero.ne n)
    rw [if_neg hlt, List.take_of_length_le h, List.drop_of_length_le h, pieces,
      if_pos (show ([] : List α).length < n from hpos)]
    exact hnil _

/-- **With a buffer that every line fits in, these are the lines.** -/
theorem foldl_lines {s : List α} (h : ∀ l ∈ s.splitOn sep, l.length ≤ n) (st : σ) :
    (reads sep n s).foldl f st = (s.splitOn sep).foldl f st := by
  rw [foldl_reads hsep hnil]
  generalize s.splitOn sep = ls at h
  induction ls generalizing st with
  | nil => rfl
  | cons l ls ih =>
    rw [List.flatMap_cons, List.foldl_append,
      foldl_pieces hsep hnil (h l List.mem_cons_self) st,
      ih _ fun l' hl' => h l' (List.mem_cons_of_mem l hl')]
    rfl

end

end Interact
