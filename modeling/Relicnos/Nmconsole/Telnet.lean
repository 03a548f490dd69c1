import Mathlib.Data.List.Basic
import Mathlib.Tactic.Common

/-!
# The telnet filter

`telnet_filter` edits one buffer in place: `i` reads, `o` writes, and what it does to the two
descriptors on the way is the list `acts`.  Every access to the buffer is checked against its
length, so an access outside of it would give `none`.

* `telnetFilter`       the loop of the source over an index;
* `token`, `scan`      the same without indices: one token of the stream after the other;
* `telnetFilter_scan`  the loop never leaves the buffer, ends, and does what `scan` says;
* `filtered`           what it returns, which it always does.
-/

namespace Nmconsole

def IAC : UInt8 := 255
def DONT : UInt8 := 254
def DO : UInt8 := 253
def WONT : UInt8 := 252
def WILL : UInt8 := 251
def SB : UInt8 := 250
/-- telnet Send Break -/
def BRK : UInt8 := 243
/-- Interrupt Process: some clients send this instead -/
def IP : UInt8 := 244
def SE : UInt8 := 240
def OPT_ECHO : UInt8 := 1
def OPT_SGA : UInt8 := 3

/-- the buffer of `main` that is filtered -/
def bufSize : Nat := 512

/-- what the filter does besides editing the buffer -/
inductive Act where
  /-- three bytes for the client -/
  | reply (bytes : List UInt8)
  /-- `tcsendbreak` -/
  | sendBreak
  deriving DecidableEq, Repr

def Negotiates (cmd : UInt8) : Prop := cmd = DO ∨ cmd = DONT ∨ cmd = WILL ∨ cmd = WONT

instance (cmd : UInt8) : Decidable (Negotiates cmd) :=
  inferInstanceAs (Decidable (cmd = DO ∨ cmd = DONT ∨ cmd = WILL ∨ cmd = WONT))

/-- the answer to a negotiation: a refusal, whatever was asked -/
def refusal (cmd opt : UInt8) : List UInt8 :=
  [IAC, if cmd = DO ∨ cmd = DONT then WONT else DONT, opt]

/-! ## the loop of the source -/

/-- the local state of the loop; `b` is the whole buffer -/
structure Filter where
  b : List UInt8
  i : Nat
  o : Nat
  acts : List Act
  deriving DecidableEq, Repr

/-- `b[o++] = v` -/
def Filter.put (f : Filter) (v : UInt8) : Option Filter :=
  if f.o < f.b.length then some { f with b := f.b.set f.o v, o := f.o + 1 } else none

/-- the loop that looks for the end of a subnegotiation -/
def skipLoop (b : List UInt8) : Nat → Nat → Option Nat
  | 0, _ => none
  | fuel + 1, i =>
    if i + 1 < b.length then do
      let c ← b[i]?
      let d ← b[i + 1]?
      if c = IAC ∧ d = SE then return i
      else skipLoop b fuel (i + 1)
    else some i

/-- one turn of the loop, with its `i++`; leaving the loop is `i = n` -/
def filterTurn (tty : Bool) (f : Filter) : Option Filter := do
  let c ← f.b[f.i]?
  if c ≠ IAC then
    return { ← f.put c with i := f.i + 1 }
  else if f.b.length ≤ f.i + 1 then
    return { f with i := f.b.length }
  else
    let cmd ← f.b[f.i + 1]?
    if cmd = IAC then
      return { ← f.put IAC with i := f.i + 2 }
    else if Negotiates cmd then
      if f.b.length ≤ f.i + 2 then
        return { f with i := f.b.length + 1 }
      else
        let opt ← f.b[f.i + 2]?
        return { f with i := f.i + 3, acts := f.acts ++ [.reply (refusal cmd opt)] }
    else if cmd = BRK ∨ cmd = IP then
      return { f with i := f.i + 2, acts := f.acts ++ if tty then [.sendBreak] else [] }
    else if cmd = SB then
      let i ← skipLoop f.b f.b.length f.i
      return { f with i := i + 2 }
    else
      return { f with i := f.i + 2 }

def filterLoop (tty : Bool) : Nat → Filter → Option Filter
  | 0, f => if f.i < f.b.length then none else some f
  | fuel + 1, f =>
    if f.i < f.b.length then (filterTurn tty f).bind (filterLoop tty fuel) else some f

/-- the bytes that `telnet_filter` leaves at the front of the buffer, and what it did -/
structure Filtered where
  data : List UInt8
  acts : List Act
  deriving DecidableEq, Repr

/-- `tty` says whether there is a tty to break -/
def telnetFilter (tty : Bool) (b : List UInt8) : Option Filtered :=
  (filterLoop tty b.length ⟨b, 0, 0, []⟩).map fun f => ⟨f.b.take f.o, f.acts⟩

/-! ## the stream, token by token -/

/-- what follows the first `IAC SE` -/
def afterSE : List UInt8 → List UInt8
  | c :: d :: rest => if c = IAC ∧ d = SE then rest else afterSE (d :: rest)
  | _ => []

theorem afterSE_length (l : List UInt8) : (afterSE l).length ≤ l.length := by
  fun_induction afterSE l with
  | case1 rest => simp only [List.length_cons]; omega
  | case2 c d rest _ ih => simp only [List.length_cons] at ih ⊢; omega
  | case3 => simp

/-- what `IAC cmd` gives, and what is left of the stream after it -/
def command (tty : Bool) (cmd : UInt8) (rest : List UInt8) : Filtered × List UInt8 :=
  if cmd = IAC then (⟨[IAC], []⟩, rest)
  else if Negotiates cmd then
    match rest with
    | [] => (⟨[], []⟩, [])
    | opt :: rest => (⟨[], [.reply (refusal cmd opt)]⟩, rest)
  else if cmd = BRK ∨ cmd = IP then (⟨[], if tty then [.sendBreak] else []⟩, rest)
  else if cmd = SB then (⟨[], []⟩, afterSE rest)
  else (⟨[], []⟩, rest)

/-- what the first token of a stream gives, and what is left after it -/
def token (tty : Bool) (c : UInt8) (rest : List UInt8) : Filtered × List UInt8 :=
  if c ≠ IAC then (⟨[c], []⟩, rest)
  else match rest with
  | [] => (⟨[], []⟩, [])
  | cmd :: rest => command tty cmd rest

theorem command_length (tty : Bool) (cmd : UInt8) (rest : List UInt8) :
    (command tty cmd rest).2.length ≤ rest.length := by
  unfold command
  have h := afterSE_length rest
  split
  · exact Nat.le_refl _
  split
  · cases rest with
    | nil => exact Nat.le_refl _
    | cons opt rest => exact Nat.le_succ _
  split
  · exact Nat.le_refl _
  split
  · exact h
  · exact Nat.le_refl _

theorem token_length (tty : Bool) (c : UInt8) (rest : List UInt8) :
    (token tty c rest).2.length ≤ rest.length := by
  unfold token
  split
  · exact Nat.le_refl _
  cases rest with
  | nil => exact Nat.le_refl _
  | cons cmd rest => exact Nat.le_succ_of_le (command_length tty cmd rest)

namespace Filtered

/-- one after the other -/
def append (x y : Filtered) : Filtered := ⟨x.data ++ y.data, x.acts ++ y.acts⟩

def empty : Filtered := ⟨[], []⟩

theorem append_assoc (x y z : Filtered) : (x.append y).append z = x.append (y.append z) := by
  simp only [append, List.append_assoc]

theorem append_empty (x : Filtered) : x.append empty = x := by
  simp only [append, empty, List.append_nil]

end Filtered

def scan (tty : Bool) : List UInt8 → Filtered
  | [] => .empty
  | c :: rest => (token tty c rest).1.append (scan tty (token tty c rest).2)
termination_by l => l.length
decreasing_by
  have h := token_length tty c rest
  simp only [List.length_cons]
  omega

theorem scan_nil (tty : Bool) : scan tty [] = .empty := by rw [scan]

theorem scan_cons (tty : Bool) (c : UInt8) (rest : List UInt8) : scan tty (c :: rest)
    = (token tty c rest).1.append (scan tty (token tty c rest).2) := by rw [scan]

/-! ## the loop does what the tokens say -/

theorem getElem?_of_drop {α : Type} {l rest : List α} {i : Nat} {x : α}
    (h : l.drop i = x :: rest) : l[i]? = some x ∧ l.drop (i + 1) = rest ∧ i < l.length := by
  have hi : i < l.length := by
    by_contra hn
    rw [List.drop_eq_nil_of_le (by omega)] at h
    cases h
  have hd := List.drop_eq_getElem_cons hi
  rw [hd] at h
  injection h with hx hr
  exact ⟨by rw [List.getElem?_eq_getElem hi, hx], hr, hi⟩

theorem lt_of_drop {α : Type} {l rest : List α} {i : Nat} (h : l.drop i = rest)
    (hr : rest ≠ []) : i < l.length := by
  by_contra hn
  exact hr (h.symm.trans (List.drop_eq_nil_of_le (by omega)))

theorem le_of_drop {α : Type} {l : List α} {i : Nat} (h : l.drop i = []) : l.length ≤ i := by
  have h' := congrArg List.length h
  rw [List.length_drop, List.length_nil] at h'
  omega

theorem afterSE_sub (rest : List UInt8) : afterSE (IAC :: SB :: rest) = afterSE rest := by
  rw [afterSE, if_neg (by decide)]
  cases rest with
  | nil => rfl
  | cons d rest => rw [afterSE, if_neg fun h => absurd h.1 (by decide)]

/-- the inner loop stops two places before what follows the subnegotiation -/
theorem skipLoop_afterSE {b l : List UInt8} {fuel i : Nat} (hl : b.drop i = l) (hne : l ≠ [])
    (hf : l.length ≤ fuel) :
    ∃ k, skipLoop b fuel i = some k ∧ i ≤ k ∧ b.drop (k + 2) = afterSE l := by
  induction fuel generalizing i l with
  | zero =>
    exact absurd (List.length_eq_zero_iff.mp (Nat.le_zero.mp hf)) hne
  | succ fuel ih =>
    unfold skipLoop
    match l, hne with
    | [c], _ =>
      obtain ⟨_, h1, _⟩ := getElem?_of_drop hl
      have hle := le_of_drop h1
      rw [if_neg (by omega)]
      exact ⟨i, rfl, Nat.le_refl _, List.drop_eq_nil_of_le (by omega)⟩
    | c :: d :: rest, _ =>
      obtain ⟨hc, h1, _⟩ := getElem?_of_drop hl
      obtain ⟨hd, h2, hlt⟩ := getElem?_of_drop h1
      rw [if_pos hlt, hc, hd]
      show ∃ k, (if c = IAC ∧ d = SE then some i else skipLoop b fuel (i + 1)) = some k ∧ _
      by_cases he : c = IAC ∧ d = SE
      · rw [if_pos he, afterSE, if_pos he]
        exact ⟨i, rfl, Nat.le_refl _, h2⟩
      · rw [if_neg he, afterSE, if_neg he]
        obtain ⟨k, hk, hik, hdrop⟩ := ih h1 (by simp) (Nat.le_of_succ_le_succ hf)
        exact ⟨k, hk, by omega, hdrop⟩

/-- the loop has the bytes `l` before it, and has not overtaken itself -/
structure Filter.Ahead (f : Filter) (l : List UInt8) : Prop where
  left : f.b.drop f.i = l
  behind : f.o ≤ f.i
  inside : f.o ≤ f.b.length

/-- the buffer up to the write index, and what was done -/
def Filter.done (f : Filter) : Filtered := ⟨f.b.take f.o, f.acts⟩

/-- from `f` to `f'` the loop has done `x`, and has `l` before it -/
structure Filter.Turned (f f' : Filter) (x : Filtered) (l : List UInt8) : Prop where
  ahead : f'.Ahead l
  done : f'.done = f.done.append x
  size : f'.b.length = f.b.length
  further : f.i < f'.i

/-- a turn that only reads -/
theorem Filter.turned_skip {f : Filter} {rest l : List UInt8} {c : UInt8} {i : Nat}
    {acts : List Act} (h : f.Ahead (c :: rest)) (hi : f.i < i) (hl : f.b.drop i = l) :
    f.Turned { f with i := i, acts := f.acts ++ acts } ⟨[], acts⟩ l := by
  refine ⟨⟨hl, Nat.le_trans h.behind (Nat.le_of_lt hi), h.inside⟩, ?_, rfl, hi⟩
  unfold Filter.done Filtered.append
  rw [List.append_nil]

/-- a turn that writes one byte: it never writes past the byte it reads -/
theorem Filter.turned_put {f : Filter} {rest l : List UInt8} {c v : UInt8} {i : Nat}
    (h : f.Ahead (c :: rest)) (hi : f.i < i) (hl : f.b.drop i = l) :
    ∃ f', f.put v = some f' ∧ f.Turned { f' with i := i } ⟨[v], []⟩ l := by
  have ho : f.o < f.b.length := Nat.lt_of_le_of_lt h.behind (getElem?_of_drop h.left).2.2
  refine ⟨{ f with b := f.b.set f.o v, o := f.o + 1 }, if_pos ho, ⟨?_, ?_, ?_⟩, ?_, ?_, hi⟩
  · show (f.b.set f.o v).drop i = l
    rw [List.drop_set_of_lt (Nat.lt_of_le_of_lt h.behind hi), hl]
  · exact Nat.succ_le_of_lt (Nat.lt_of_le_of_lt h.behind hi)
  · show f.o + 1 ≤ (f.b.set f.o v).length
    rw [List.length_set]
    exact ho
  · unfold Filter.done Filtered.append
    rw [List.append_nil]
    congr 1
    show (f.b.set f.o v).take (f.o + 1) = f.b.take f.o ++ [v]
    rw [List.take_succ_eq_append_getElem (by rw [List.length_set]; exact ho),
      List.getElem_set_self, List.take_set_of_le (Nat.le_refl _)]
  · exact List.length_set

theorem Filter.turned_still {f : Filter} {rest l : List UInt8} {c : UInt8} {i : Nat}
    (h : f.Ahead (c :: rest)) (hi : f.i < i) (hl : f.b.drop i = l) :
    f.Turned { f with i := i } ⟨[], []⟩ l := by
  have h' : f.Turned { f with i := i, acts := f.acts ++ [] } ⟨[], []⟩ l :=
    Filter.turned_skip h hi hl
  rw [List.append_nil] at h'
  exact h'

/-- **One turn of the loop is one token.** -/
theorem filterTurn_token (tty : Bool) {f : Filter} {c : UInt8} {rest : List UInt8}
    (h : f.Ahead (c :: rest)) : ∃ f', filterTurn tty f = some f' ∧
      f.Turned f' (token tty c rest).1 (token tty c rest).2 := by
  obtain ⟨hc, h1, hi⟩ := getElem?_of_drop h.left
  unfold filterTurn token
  rw [hc]
  simp only [Option.bind_eq_bind, Option.bind_some]
  by_cases hdata : c ≠ IAC
  · simp only [if_pos hdata]
    obtain ⟨f', hf, ht⟩ := Filter.turned_put (v := c) h (Nat.lt_succ_self _) h1
    exact ⟨_, by rw [hf]; rfl, ht⟩
  obtain rfl : c = IAC := not_not.mp hdata
  simp only [if_neg hdata]
  cases rest with
  | nil =>
    rw [if_pos (le_of_drop h1)]
    exact ⟨_, rfl, Filter.turned_still h hi List.drop_length⟩
  | cons cmd rest =>
    obtain ⟨hcmd, h2, hi1⟩ := getElem?_of_drop h1
    rw [if_neg (Nat.not_le_of_lt hi1), hcmd]
    simp only [Option.bind_some]
    unfold command
    by_cases h255 : cmd = IAC
    · simp only [if_pos h255]
      obtain ⟨f', hf, ht⟩ := Filter.turned_put (v := IAC) (i := f.i + 2) h (by omega) h2
      exact ⟨_, by rw [hf]; rfl, ht⟩
    simp only [if_neg h255]
    by_cases hneg : Negotiates cmd
    · simp only [if_pos hneg]
      cases rest with
      | nil =>
        rw [if_pos (le_of_drop h2)]
        exact ⟨_, rfl, Filter.turned_still h (by omega) (List.drop_eq_nil_of_le (by omega))⟩
      | cons opt rest =>
        obtain ⟨hopt, h3, hi2⟩ := getElem?_of_drop h2
        rw [if_neg (Nat.not_le_of_lt hi2), hopt]
        exact ⟨_, rfl, Filter.turned_skip h (by omega) h3⟩
    simp only [if_neg hneg]
    by_cases hbrk : cmd = BRK ∨ cmd = IP
    · simp only [if_pos hbrk]
      exact ⟨_, rfl, Filter.turned_skip h (by omega) h2⟩
    simp only [if_neg hbrk]
    by_cases hsb : cmd = SB
    · simp only [if_pos hsb]
      subst hsb
      have hlen := congrArg List.length h.left
      rw [List.length_drop] at hlen
      have hle : (IAC :: SB :: rest).length ≤ f.b.length := by omega
      obtain ⟨k, hk, hik, hdrop⟩ := skipLoop_afterSE h.left (by simp) hle
      rw [hk]
      rw [afterSE_sub] at hdrop
      exact ⟨_, rfl, Filter.turned_still h (by omega) hdrop⟩
    · simp only [if_neg hsb]
      exact ⟨_, rfl, Filter.turned_still h (by omega) h2⟩

/-- **The loop is the scan of what is before it**, with any fuel that covers it. -/
theorem filterLoop_scan (tty : Bool) {fuel : Nat} {f : Filter} {l : List UInt8}
    (h : f.Ahead l) (hf : l.length ≤ fuel) :
    ∃ f', filterLoop tty fuel f = some f' ∧ f'.done = f.done.append (scan tty l) ∧
      f'.o ≤ f.b.length := by
  induction fuel generalizing f l with
  | zero =>
    obtain rfl : l = [] := List.length_eq_zero_iff.mp (Nat.le_zero.mp hf)
    rw [filterLoop, if_neg (Nat.not_lt_of_le (le_of_drop h.left)), scan_nil]
    exact ⟨f, rfl, (Filtered.append_empty _).symm, h.inside⟩
  | succ fuel ih =>
    cases l with
    | nil =>
      rw [filterLoop, if_neg (Nat.not_lt_of_le (le_of_drop h.left)), scan_nil]
      exact ⟨f, rfl, (Filtered.append_empty _).symm, h.inside⟩
    | cons c rest =>
      obtain ⟨f1, h1, ht⟩ := filterTurn_token tty h
      have hle : (token tty c rest).2.length ≤ fuel :=
        Nat.le_trans (token_length tty c rest) (Nat.le_of_succ_le_succ hf)
      obtain ⟨f2, h2, hd, ho⟩ := ih ht.ahead hle
      rw [filterLoop, if_pos (lt_of_drop h.left (by simp)), h1, scan_cons, ← Filtered.append_assoc,
        ← ht.done, ← ht.size]
      exact ⟨f2, h2, hd, ho⟩

/-- **`telnet_filter` stays inside its buffer, ends, and does what the tokens of the buffer
say.** -/
theorem telnetFilter_scan (tty : Bool) (b : List UInt8) :
    telnetFilter tty b = some (scan tty b) := by
  obtain ⟨f, hf, hd, _⟩ := filterLoop_scan tty (f := ⟨b, 0, 0, []⟩)
    ⟨rfl, Nat.le_refl 0, Nat.zero_le _⟩ (Nat.le_refl b.length)
  unfold telnetFilter
  rw [hf]
  exact congrArg some hd

theorem telnetFilter_isSome (tty : Bool) (b : List UInt8) : (telnetFilter tty b).isSome := by
  rw [telnetFilter_scan]
  rfl

/-- `telnet_filter`, which always returns -/
def filtered (tty : Bool) (b : List UInt8) : Filtered :=
  (telnetFilter tty b).get (telnetFilter_isSome tty b)

theorem filtered_scan (tty : Bool) (b : List UInt8) : filtered tty b = scan tty b := by
  unfold filtered
  simp only [telnetFilter_scan, Option.get_some]

end Nmconsole
