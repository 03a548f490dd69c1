import Relicnos.Nmconsole.Telnet

/-!
# The indices of the telnet filter

The buffer holds both what is still to be read, from `i` on, and what was kept of it, before `o`.
The index `i` moves in six ways, and two of them can carry it past the end.

* `Filter.Moves`    what one turn can do to the two indices and to the buffer;
* `Reached`         the states of the loop over a buffer;
* `Filter.Safe`     the write index is not ahead of the read index, which is at most one past the
                    end, and what is still to be read is as it came;
* `telnetFilter_safe`  every state of the loop is safe, and every turn from one stays inside the
                    buffer and moves on, so the loop ends.
-/

set_option linter.unusedVariables false

namespace Nmconsole

/-- the buffer is edited at `o` at most -/
structure Filter.Moves (f f' : Filter) : Prop where
  /-- nothing is written, or one byte at `o` -/
  write : (f'.b = f.b ∧ f'.o = f.o) ∨
    ∃ v, f.o < f.b.length ∧ f'.b = f.b.set f.o v ∧ f'.o = f.o + 1
  further : f.i < f'.i
  /-- one place past the end is as far as the index gets -/
  atMost : f'.i ≤ f.b.length + 1

variable {tty : Bool} {b : List UInt8} {f f' : Filter}

/-- the search for the end of a subnegotiation stops inside the buffer -/
theorem skipLoop_inside {fuel i k : Nat} (h : skipLoop b fuel i = some k) (hi : i < b.length) :
    i ≤ k ∧ k < b.length := by
  induction fuel generalizing i with
  | zero => cases h
  | succ fuel ih =>
    unfold skipLoop at h
    by_cases hnext : i + 1 < b.length
    · rw [if_pos hnext, List.getElem?_eq_getElem hi, List.getElem?_eq_getElem hnext] at h
      have h : (if b[i] = IAC ∧ b[i + 1] = SE then some i else skipLoop b fuel (i + 1)) = some k :=
        h
      split at h
      · obtain rfl := Option.some.inj h
        exact ⟨Nat.le_refl _, hi⟩
      · obtain ⟨hle, hlt⟩ := ih h hnext
        exact ⟨by omega, hlt⟩
    · rw [if_neg hnext] at h
      obtain rfl := Option.some.inj h
      exact ⟨Nat.le_refl _, hi⟩

/-- a turn that writes nothing -/
theorem Filter.moves_still {i : Nat} {acts : List Act} (hi : f.i < i) (hn : i ≤ f.b.length + 1) :
    f.Moves { f with i := i, acts := acts } := ⟨.inl ⟨rfl, rfl⟩, hi, hn⟩

/-- a turn that writes one byte -/
theorem Filter.moves_put {v : UInt8} {i : Nat}
    (h : ((f.put v).bind fun g => some { g with i := i }) = some f') (hi : f.i < i)
    (hn : i ≤ f.b.length + 1) : f.Moves f' := by
  unfold Filter.put at h
  by_cases ho : f.o < f.b.length
  · rw [if_pos ho] at h
    obtain rfl := Option.some.inj h
    exact ⟨.inr ⟨v, ho, rfl, rfl⟩, hi, hn⟩
  · rw [if_neg ho] at h
    cases h

/-- **What a turn can do.** -/
theorem filterTurn_moves (hi : f.i < f.b.length) (h : filterTurn tty f = some f') :
    f.Moves f' := by
  unfold filterTurn at h
  rw [List.getElem?_eq_getElem hi] at h
  simp only [Option.bind_eq_bind, Option.bind_some] at h
  by_cases hdata : f.b[f.i] ≠ IAC
  · rw [if_pos hdata] at h
    exact Filter.moves_put h (Nat.lt_succ_self _) (by omega)
  rw [if_neg hdata] at h
  by_cases hlast : f.b.length ≤ f.i + 1
  · rw [if_pos hlast] at h
    obtain rfl := Option.some.inj h
    exact Filter.moves_still hi (Nat.le_succ _)
  rw [if_neg hlast, List.getElem?_eq_getElem (by omega : f.i + 1 < f.b.length)] at h
  simp only [Option.bind_some] at h
  generalize f.b[f.i + 1] = cmd at h
  by_cases h255 : cmd = IAC
  · rw [if_pos h255] at h
    exact Filter.moves_put h (by omega) (by omega)
  rw [if_neg h255] at h
  by_cases hneg : Negotiates cmd
  · rw [if_pos hneg] at h
    by_cases hopt : f.b.length ≤ f.i + 2
    · rw [if_pos hopt] at h
      obtain rfl := Option.some.inj h
      exact Filter.moves_still (by omega) (Nat.le_refl _)
    · rw [if_neg hopt, List.getElem?_eq_getElem (by omega : f.i + 2 < f.b.length)] at h
      obtain rfl := Option.some.inj h
      exact Filter.moves_still (by omega) (by omega)
  rw [if_neg hneg] at h
  by_cases hbrk : cmd = BRK ∨ cmd = IP
  · rw [if_pos hbrk] at h
    obtain rfl := Option.some.inj h
    exact Filter.moves_still (by omega) (by omega)
  rw [if_neg hbrk] at h
  by_cases hsb : cmd = SB
  · rw [if_pos hsb] at h
    obtain ⟨k, hk, he⟩ := Option.bind_eq_some_iff.mp h
    obtain ⟨hle, hlt⟩ := skipLoop_inside hk hi
    obtain rfl := Option.some.inj he
    exact Filter.moves_still (by omega) (by omega)
  · rw [if_neg hsb] at h
    obtain rfl := Option.some.inj h
    exact Filter.moves_still (by omega) (by omega)

/-! ## the states of the loop -/

inductive Reached (tty : Bool) (b : List UInt8) : Filter → Prop
  | start : Reached tty b ⟨b, 0, 0, []⟩
  | turn {f f' : Filter} : Reached tty b f → f.i < f.b.length → filterTurn tty f = some f' →
      Reached tty b f'

/-- what holds of the indices when `b` came in -/
structure Filter.Safe (b : List UInt8) (f : Filter) : Prop where
  size : f.b.length = b.length
  behind : f.o ≤ f.i
  inside : f.o ≤ b.length
  atMost : f.i ≤ b.length + 1
  /-- no byte is overwritten before it was read -/
  unread : f.b.drop f.i = b.drop f.i

theorem Filter.Safe.moves (h : f.Safe b) (hm : f.Moves f') : f'.Safe b := by
  obtain ⟨hsize, hbehind, hinside, hatMost, hunread⟩ := h
  obtain ⟨hwrite, hfurther, hpast⟩ := hm
  have hdrop : f.b.drop f'.i = b.drop f'.i := by
    have hsum : f'.i = f.i + (f'.i - f.i) := by omega
    rw [hsum, ← List.drop_drop, ← List.drop_drop, hunread]
  obtain ⟨hb, ho⟩ | ⟨v, hroom, hb, ho⟩ := hwrite
  · exact ⟨hb ▸ hsize, by omega, by omega, by omega, hb ▸ hdrop⟩
  · refine ⟨?_, by omega, by omega, by omega, ?_⟩
    · rw [hb, List.length_set]
      exact hsize
    · -- the write is before the place that is read next
      rw [hb, List.drop_set_of_lt (by omega)]
      exact hdrop

theorem Reached.safe (h : Reached tty b f) : f.Safe b := by
  induction h with
  | start => exact ⟨rfl, Nat.le_refl 0, Nat.zero_le _, Nat.zero_le _, rfl⟩
  | turn _ hi hturn ih => exact ih.moves (filterTurn_moves hi hturn)

/-- every access of a turn is inside the buffer -/
theorem Filter.Safe.turns (h : f.Safe b) (hi : f.i < b.length) :
    ∃ f', filterTurn tty f = some f' := by
  rw [← h.size] at hi
  have hahead : f.Ahead (f.b[f.i] :: f.b.drop (f.i + 1)) :=
    ⟨List.drop_eq_getElem_cons hi, h.behind, h.size ▸ h.inside⟩
  obtain ⟨f', hf, _⟩ := filterTurn_token tty hahead
  exact ⟨f', hf⟩

theorem filterLoop_reached {fuel : Nat} (h : Reached tty b f)
    (hloop : filterLoop tty fuel f = some f') : Reached tty b f' := by
  induction fuel generalizing f with
  | zero =>
    unfold filterLoop at hloop
    split at hloop
    · cases hloop
    · obtain rfl := Option.some.inj hloop
      exact h
  | succ fuel ih =>
    unfold filterLoop at hloop
    by_cases hi : f.i < f.b.length
    · rw [if_pos hi] at hloop
      obtain ⟨f1, h1, hrest⟩ := Option.bind_eq_some_iff.mp hloop
      exact ih (.turn h hi h1) hrest
    · rw [if_neg hi] at hloop
      obtain rfl := Option.some.inj hloop
      exact h

/-- **`telnet_filter` is safe on every buffer**: in every state of its loop a turn makes no access
outside the buffer, writes at `o` at most, which is not past `i`, and moves on; the loop ends, and
no more bytes are left than came in. -/
theorem telnetFilter_safe (tty : Bool) (b : List UInt8) :
    (∀ f, Reached tty b f → f.Safe b ∧
      (f.i < b.length → ∃ f', filterTurn tty f = some f' ∧ f.Moves f')) ∧
    ∃ r, telnetFilter tty b = some r ∧ r.data.length ≤ b.length := by
  constructor
  · intro f h
    have hsafe := h.safe
    refine ⟨hsafe, fun hi => ?_⟩
    obtain ⟨f', hturn⟩ : ∃ f', filterTurn tty f = some f' := hsafe.turns hi
    exact ⟨f', hturn, filterTurn_moves (hsafe.size ▸ hi) hturn⟩
  · obtain ⟨r, hr⟩ := Option.isSome_iff_exists.mp (telnetFilter_isSome tty b)
    obtain ⟨f, hf, rfl⟩ := Option.map_eq_some_iff.mp hr
    have hsafe := (filterLoop_reached .start hf).safe
    refine ⟨_, hr, ?_⟩
    show (f.b.take f.o).length ≤ b.length
    rw [List.length_take]
    exact Nat.le_trans (Nat.min_le_left _ _) hsafe.inside

end Nmconsole
