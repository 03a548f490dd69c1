import Relicnos.Nmconsole.Telnet

/-!
# The filter and the cutting of the stream

`telnet_filter` keeps nothing between two calls, and `main` calls it on whatever one `read`
returns.  A `Cutting` of a stream is what the reads may return, `outcome` what comes out of the
calls together.

`outcome_iff`: the outcome is the same for all cuttings of a stream if and only if no `IAC` is
followed by another byte.
-/

namespace Nmconsole

/-- the buffers that the reads return for the stream `s` -/
structure Cutting (s : List UInt8) where
  bufs : List (List UInt8)
  joined : bufs.flatten = s
  sizes : ∀ b ∈ bufs, b ≠ [] ∧ b.length ≤ bufSize

/-- one call after the other -/
def outcome (tty : Bool) : List (List UInt8) → Filtered
  | [] => .empty
  | b :: bufs => (filtered tty b).append (outcome tty bufs)

/-- what can be seen from outside: the bytes for the tty, the replies, the number of breaks -/
structure Seen where
  data : List UInt8
  replies : List (List UInt8)
  breaks : Nat
  deriving DecidableEq, Repr

def Filtered.seen (x : Filtered) : Seen where
  data := x.data
  replies := x.acts.filterMap fun
    | .reply bytes => some bytes
    | .sendBreak => none
  breaks := x.acts.count .sendBreak

variable {tty : Bool}

theorem outcome_append (bufs more : List (List UInt8)) :
    outcome tty (bufs ++ more) = (outcome tty bufs).append (outcome tty more) := by
  induction bufs with
  | nil => rfl
  | cons b bufs ih =>
    rw [List.cons_append, outcome, outcome, ih, Filtered.append_assoc]

/-! ## streams in which no `IAC` is followed by a byte -/

/-- data as it is, without the `IAC` bytes -/
def plain (s : List UInt8) : Filtered := ⟨s.filter (· ≠ IAC), []⟩

theorem plain_append (s t : List UInt8) : plain (s ++ t) = (plain s).append (plain t) := by
  simp only [plain, Filtered.append, List.filter_append, List.append_nil]

/-- the filter drops an `IAC` at the end of its buffer -/
theorem filtered_single (c : UInt8) : filtered tty [c] = plain [c] := by
  rw [filtered_scan, scan_cons]
  unfold token
  by_cases h : c = IAC
  · subst h
    rw [if_neg (not_not.mpr rfl), scan_nil]
    rfl
  · rw [if_pos h, scan_nil, plain, List.filter_cons_of_pos (by simpa using h)]
    rfl

theorem filtered_plain {b : List UInt8} (h : IAC ∉ b.dropLast) : filtered tty b = plain b := by
  induction b with
  | nil =>
    rw [filtered_scan, scan_nil]
    rfl
  | cons c rest ih =>
    cases rest with
    | nil => exact filtered_single c
    | cons d rest =>
      rw [List.dropLast_cons_cons, List.mem_cons, not_or] at h
      obtain ⟨hc, hr⟩ := h
      have e : plain (c :: d :: rest) = (plain [c]).append (plain (d :: rest)) :=
        plain_append [c] (d :: rest)
      have ih := ih hr
      rw [filtered_scan] at ih ⊢
      rw [scan_cons, e, ← ih]
      unfold token
      rw [if_pos (Ne.symm hc), plain, List.filter_cons_of_pos (by simpa using Ne.symm hc)]
      rfl

theorem outcome_plain {bufs : List (List UInt8)} (h : IAC ∉ bufs.flatten.dropLast) :
    outcome tty bufs = plain bufs.flatten := by
  induction bufs with
  | nil => rfl
  | cons b bufs ih =>
    rw [List.flatten_cons] at h ⊢
    have hb : IAC ∉ b.dropLast ∧ IAC ∉ bufs.flatten.dropLast := by
      rw [List.dropLast_append] at h
      split at h
      · rename_i he
        rw [List.isEmpty_iff.mp he]
        exact ⟨h, nofun⟩
      · rw [List.mem_append, not_or] at h
        exact ⟨fun hm => h.1 ((List.dropLast_sublist b).mem hm), h.2⟩
    rw [outcome, ih hb.2, filtered_plain hb.1, plain_append]

/-! ## one byte at a time -/

def singles (s : List UInt8) : List (List UInt8) := s.map fun c => [c]

theorem singles_flatten (s : List UInt8) : (singles s).flatten = s := by
  unfold singles
  induction s with
  | nil => rfl
  | cons c s ih => rw [List.map_cons, List.flatten_cons, ih, List.singleton_append]

theorem outcome_singles (s : List UInt8) : outcome tty (singles s) = plain s := by
  induction s with
  | nil => rfl
  | cons c s ih =>
    have e : plain (c :: s) = (plain [c]).append (plain s) := plain_append [c] s
    rw [e, ← ih, ← @filtered_single tty]
    rfl

theorem singles_sizes {s : List UInt8} {b : List UInt8} (h : b ∈ singles s) :
    b ≠ [] ∧ b.length ≤ bufSize := by
  obtain ⟨c, _, rfl⟩ := List.mem_map.mp h
  exact ⟨nofun, (by decide : 1 ≤ bufSize)⟩

/-- an `IAC` and the byte after it in one buffer are not two bytes -/
theorem filtered_pair (x : UInt8) : (filtered tty [IAC, x]).data ≠ (plain [IAC, x]).data := by
  rw [filtered_scan, scan_cons]
  show (command tty x []).1.data ++ (scan tty (command tty x []).2).data ≠ _
  have hnil : (command tty x []).2 = [] :=
    List.length_eq_zero_iff.mp (Nat.le_zero.mp (command_length tty x []))
  rw [hnil, scan_nil]
  by_cases h : x = IAC
  · subst h
    exact (by decide : [IAC] ++ [] ≠ (plain [IAC, IAC]).data)
  · have e : (plain [IAC, x]).data = [x] := by
      simp [plain, h]
    have e' : (command tty x []).1.data = [] := by
      unfold command
      rw [if_neg h]
      split_ifs <;> rfl
    rw [e, e']
    exact nofun

/-- the cutting that keeps `IAC x` together and everything else apart -/
def pairCutting (u v : List UInt8) (x : UInt8) : Cutting (u ++ IAC :: x :: v) where
  bufs := singles u ++ [IAC, x] :: singles v
  joined := by
    rw [List.flatten_append, List.flatten_cons, singles_flatten, singles_flatten]
    rfl
  sizes b h := by
    rcases List.mem_append.mp h with h | h
    · exact singles_sizes h
    rcases List.mem_cons.mp h with rfl | h
    · exact ⟨nofun, (by decide : 2 ≤ bufSize)⟩
    · exact singles_sizes h

def singlesCutting (s : List UInt8) : Cutting s :=
  ⟨singles s, singles_flatten s, fun _ => singles_sizes⟩

theorem pairCutting_data (u v : List UInt8) (x : UInt8) :
    (outcome tty (pairCutting u v x).bufs).data
      ≠ (outcome tty (singlesCutting (u ++ IAC :: x :: v)).bufs).data := by
  show (outcome tty (singles u ++ [IAC, x] :: singles v)).data ≠ (outcome tty (singles _)).data
  rw [outcome_append, outcome, outcome_singles, outcome_singles, outcome_singles]
  have e : plain (u ++ IAC :: x :: v) = (plain u).append ((plain [IAC, x]).append (plain v)) := by
    rw [← plain_append, ← plain_append]
    rfl
  rw [e]
  intro h
  exact filtered_pair x (List.append_cancel_right (List.append_cancel_left h))

/-! ## the result -/

/-- **What comes out does not depend on the cutting, if and only if nothing follows an `IAC`.** -/
theorem outcome_iff (tty : Bool) (s : List UInt8) :
    (∀ c d : Cutting s, (outcome tty c.bufs).seen = (outcome tty d.bufs).seen) ↔
      IAC ∉ s.dropLast := by
  constructor
  · intro h hm
    obtain ⟨u, v, hs⟩ := List.append_of_mem hm
    have hne : s ≠ [] := by
      rintro rfl
      cases hm
    obtain ⟨x, v', hv⟩ : ∃ x v', v ++ [s.getLast hne] = x :: v' := by
      cases v with
      | nil => exact ⟨_, _, rfl⟩
      | cons y v => exact ⟨_, _, rfl⟩
    have e : s = u ++ IAC :: x :: v' := by
      rw [← List.dropLast_append_getLast hne, hs, List.append_assoc, List.cons_append, hv]
    subst e
    exact pairCutting_data u v' x (congrArg Seen.data (h (pairCutting u v' x) (singlesCutting _)))
  · intro h c d
    have hp : ∀ c : Cutting s, outcome tty c.bufs = plain s := by
      intro c
      have hc : outcome tty c.bufs = plain c.bufs.flatten :=
        outcome_plain (by rw [c.joined]; exact h)
      rw [hc, c.joined]
    rw [hp c, hp d]

/-- `IAC DO ECHO`, whole and cut after the `IAC` -/
theorem outcome_fails : ¬∀ (s : List UInt8) (c d : Cutting s),
    (outcome true c.bufs).seen = (outcome true d.bufs).seen := by
  intro h
  have h := h [IAC, DO, OPT_ECHO] ⟨[[IAC, DO, OPT_ECHO]], rfl, by decide⟩
    ⟨[[IAC], [DO, OPT_ECHO]], rfl, by decide⟩
  exact absurd h (by decide)

end Nmconsole
