import Mathlib.Data.Nat.Find
import Mathlib.Order.Monotone.Basic
import Relicnos.Interact.Policy
import Relicnos.Nm32a.Driver
import Relicnos.Nm32a.Script

/-!
# The verdict of `ccr_wait`

`ccr_wait` reads `CCR`, yields, and then looks at the clock.  The yield may take any time, so the
last read can be older than the deadline that the clock then turns out to have passed.

* `Schedule`            what the world shows at each access of a wait: the real time in jiffies,
                        `CCR`, and whether the message is let through;
* `Schedule.Expires`    the turn of the loop that finds the time over;
* `ccrWait_run`, `ccrWait_returns`   what the wait returns, and that it does;
* `Truthful`            no timeout is reported of a chip that was in time;
* `ccrWait_truthful_iff`  this holds exactly if the turn that expires had read `CCR` at or after
                        the deadline, or the message reads it once more and it is not clear.
-/

set_option linter.unusedVariables false

namespace Nm32a
open Interact

/-- time does not go back, and goes on for ever -/
structure Schedule where
  time : Nat → Nat
  ccr : Nat → UInt8
  prints : Nat → Bool
  mono : Monotone time
  goesOn : ∀ t, ∃ n, t ≤ time n

namespace Schedule

/-- the answer at the `n`-th access -/
def answer (S : Schedule) (n : Nat) : (o : Op) → Option (Res o × Nat)
  | .jiffies => some (UInt32.ofNat (S.time n), n + 1)
  | .crd _ .CCR => some (S.ccr n, n + 1)
  | .ratelimit => some (S.prints n, n + 1)
  | o => showing (fun _ _ => 0x00) id Params.default (n + 1) o

/-- the world of a schedule -/
def world (S : Schedule) : Env Op Res Nat := Env.machine S.answer

variable (S : Schedule)

/-- the value of `end` -/
def stop : UInt32 := UInt32.ofNat (S.time 0) + ccrWaitJiffies

/-- in real time -/
def deadline : Nat := S.time 0 + ccrWaitJiffies.toNat

/-- turn `k` reads `CCR` at access `2 * k + 1`, and the clock at the next one -/
def late (k : Nat) : Bool := !timeBefore (UInt32.ofNat (S.time (2 * k + 2))) S.stop

/-- turn `k` is made -/
def Reaches (k : Nat) : Prop := ∀ k' < k, S.ccr (2 * k' + 1) ≠ 0 ∧ S.late k' = false

structure Accepts (k : Nat) : Prop where
  reached : S.Reaches k
  clear : S.ccr (2 * k + 1) = 0

structure Expires (k : Nat) : Prop where
  reached : S.Reaches k
  pending : S.ccr (2 * k + 1) ≠ 0
  late : S.late k = true

end Schedule

/-- with these answers the program `p` returns `a` -/
def Schedule.Returns {α : Type} (S : Schedule) (p : Drv α) (n : Nat) (a : α) : Prop :=
  ∃ tr n', Runs S.world p n tr a n'

/-- the accesses at which a run read `CCR` -/
def looks (tr : List (Event Op Res Nat)) : List Nat :=
  tr.filterMap fun e => match e.op with
    | .crd _ .CCR => some e.pre
    | _ => none

/-- no timeout is reported of a chip that was in time -/
structure Truthful (S : Schedule) (j : Fin 8) : Prop where
  /-- a chip that clears `CCR` by the deadline and keeps it clear is waited for -/
  accepted : ∀ m, S.time 0 ≤ m → m ≤ S.deadline → (∀ n, m ≤ S.time n → S.ccr n = 0) →
    ∃ k, ∀ turns, k < turns → S.Returns (ccrWait turns j) 0 0
  /-- a timeout is reported on a read made at or after the deadline -/
  refused : ∀ turns tr n, Runs S.world (ccrWait turns j) 0 tr (-etimedout) n →
    ∃ a ∈ looks tr, S.deadline ≤ S.time a ∧ S.ccr a ≠ 0

variable {S : Schedule} {j : Fin 8} {α : Type} {n n' k : Nat} {tr : List (Event Op Res Nat)}
  {a : α}

/-! ## the loop -/

/-- an access with the answer `r` -/
theorem world_op {o : Op} {r : Res o} {f : Res o → Drv α} (ho : S.answer n o = some (r, n + 1)) :
    Runs S.world (issue o >>= f) n tr a n' ↔
      ∃ tr', tr = ⟨n, o, r, n + 1⟩ :: tr' ∧ Runs S.world (f r) (n + 1) tr' a n' := by
  constructor
  · intro h
    obtain ⟨n1, r1, n2, tr', rfl, rfl, ha, h⟩ := runs_op.mp h
    obtain ⟨rfl, rfl⟩ := Prod.mk.inj (Option.some.inj (ho.symm.trans ha))
    exact ⟨tr', rfl, h⟩
  · intro ⟨tr', htr, h⟩
    exact runs_op.mpr ⟨n, r, n + 1, tr', htr, rfl, ho, h⟩

/-- the turn after a read that found `CCR` at `x` -/
def afterRead (j : Fin 8) (stop : UInt32) (turns : Nat) (x : UInt8) : Drv Int :=
  if x = 0 then pure 0
  else jiffies >>= fun now =>
    if timeBefore now stop = true then ccrWaitLoop j stop turns
    else ccrWarn j >>= fun _ => pure (-etimedout)

theorem ccrWaitLoop_succ (j : Fin 8) (stop : UInt32) (turns : Nat) :
    ccrWaitLoop j stop (turns + 1) = crd j .CCR >>= afterRead j stop turns := rfl

/-- the message, and what it reads -/
theorem ccrWarn_run {u : Unit} (h : Runs S.world (ccrWarn j) n tr u n') :
    looks tr = if S.prints n then [n + 1] else [] := by
  obtain ⟨tr1, htr1, h1⟩ := (world_op (o := .ratelimit) rfl).mp h
  have h1 : Runs S.world (if S.prints n = true then
      crd j .CCR >>= fun _ => crd j .GFRCR >>= fun _ => pure () else pure ()) _ tr1 u n' := h1
  subst htr1
  by_cases hp : S.prints n = true
  · rw [if_pos hp] at h1 ⊢
    obtain ⟨tr2, rfl, h2⟩ := (world_op (o := .crd j .CCR) rfl).mp h1
    obtain ⟨tr3, rfl, h3⟩ := (world_op (o := .crd j .GFRCR) rfl).mp h2
    obtain ⟨rfl, _, _⟩ := runs_ret.mp h3
    rfl
  · rw [if_neg hp] at h1 ⊢
    obtain ⟨rfl, _, _⟩ := runs_ret.mp h1
    rfl

/-- the accesses at which the wait reads `CCR` if turn `k` is the last -/
def looksUpTo (k : Nat) : List Nat := (List.range (k + 1)).map fun k' => 2 * k' + 1

/-- how a wait ends: in turn `k`, with the result `rc`, after the reads at `as` -/
structure Ending (S : Schedule) (k : Nat) (rc : Int) (as : List Nat) : Prop where
  verdict : (rc = 0 ∧ S.Accepts k ∧ as = looksUpTo k) ∨
    (rc = -etimedout ∧ S.Expires k ∧
      as = looksUpTo k ++ if S.prints (2 * k + 3) then [2 * k + 4] else [])

theorem Schedule.Reaches.next (h : S.Reaches k) (hc : S.ccr (2 * k + 1) ≠ 0)
    (hl : S.late k = false) : S.Reaches (k + 1) := by
  intro k' hk
  by_cases e : k' = k
  · subst e
    exact ⟨hc, hl⟩
  · exact h k' (by omega)

theorem looksUpTo_succ (k : Nat) : looksUpTo (k + 1) = looksUpTo k ++ [2 * (k + 1) + 1] := by
  unfold looksUpTo
  rw [List.range_succ, List.map_append, List.map_singleton]

/-- the loop from turn `k` on, after the reads before it -/
theorem ccrWaitLoop_run {turns : Nat} {rc : Int} {before : List Nat} (hk : S.Reaches k)
    (hb : before ++ [2 * k + 1] = looksUpTo k)
    (h : Runs S.world (ccrWaitLoop j S.stop turns) (2 * k + 1) tr rc n') :
    ∃ k', Ending S k' rc (before ++ looks tr) := by
  induction turns generalizing k tr before with
  | zero =>
    obtain ⟨_, r, _⟩ := runs_op.mp h
    exact nomatch r
  | succ turns ih =>
    rw [ccrWaitLoop_succ] at h
    obtain ⟨tr1, htr1, h1⟩ := (world_op (o := .crd j .CCR) rfl).mp h
    have h1 : Runs S.world (afterRead j S.stop turns (S.ccr (2 * k + 1))) _ tr1 rc n' := h1
    have hlook : before ++ looks tr = looksUpTo k ++ looks tr1 := by
      rw [htr1, ← hb, List.append_assoc]
      rfl
    rw [hlook]
    unfold afterRead at h1
    by_cases hc : S.ccr (2 * k + 1) = 0
    · rw [if_pos hc] at h1
      obtain ⟨rfl, rfl, _⟩ := runs_ret.mp h1
      exact ⟨k, ⟨.inl ⟨rfl, ⟨hk, hc⟩, List.append_nil _⟩⟩⟩
    · rw [if_neg hc] at h1
      obtain ⟨tr2, htr2, h2⟩ := (world_op (o := .jiffies) rfl).mp h1
      have hsame : looks tr1 = looks tr2 := by
        rw [htr2]
        rfl
      rw [hsame]
      by_cases ht : timeBefore (UInt32.ofNat (S.time (2 * k + 2))) S.stop = true
      · rw [if_pos ht] at h2
        have hl : S.late k = false := by
          unfold Schedule.late
          rw [ht]
          rfl
        exact ih (hk.next hc hl) (looksUpTo_succ k).symm h2
      · rw [if_neg ht] at h2
        obtain ⟨tr3, u, n3, tr4, rfl, h3, h4⟩ := runs_bind.mp h2
        obtain ⟨rfl, rfl, _⟩ := runs_ret.mp h4
        rw [List.append_nil, ccrWarn_run h3]
        refine ⟨k, ⟨.inr ⟨rfl, ⟨hk, hc, ?_⟩, rfl⟩⟩⟩
        unfold Schedule.late
        rw [eq_false_of_ne_true ht]
        rfl

/-- **What the wait returns**, and which reads it made. -/
theorem ccrWait_run {turns : Nat} {rc : Int} (h : Runs S.world (ccrWait turns j) 0 tr rc n') :
    ∃ k, Ending S k rc (looks tr) := by
  obtain ⟨tr1, rfl, h1⟩ := (world_op (o := .jiffies) rfl).mp h
  have hk : S.Reaches 0 := fun k' hk => absurd hk (Nat.not_lt_zero k')
  have hb : ([] : List Nat) ++ [2 * 0 + 1] = looksUpTo 0 := rfl
  obtain ⟨k, hend⟩ := ccrWaitLoop_run hk hb h1
  exact ⟨k, hend⟩

/-! ## the wait comes to an end -/

theorem returns_ret (n : Nat) (a : α) : S.Returns (pure a) n a :=
  ⟨[], n, runs_ret.mpr ⟨rfl, rfl, rfl⟩⟩

theorem Schedule.Returns.op {o : Op} {r : Res o} {f : Res o → Drv α}
    (ho : S.answer n o = some (r, n + 1)) (h : S.Returns (f r) (n + 1) a) :
    S.Returns (issue o >>= f) n a := by
  obtain ⟨tr, n', h⟩ := h
  exact ⟨_, n', (world_op ho).mpr ⟨tr, rfl, h⟩⟩

theorem ccrWarn_returns (S : Schedule) (j : Fin 8) (n : Nat) : S.Returns (ccrWarn j) n () := by
  apply Schedule.Returns.op (o := .ratelimit) rfl
  show S.Returns (if S.prints n = true then
    crd j .CCR >>= fun _ => crd j .GFRCR >>= fun _ => pure () else pure ()) _ ()
  split
  · apply Schedule.Returns.op (o := .crd j .CCR) rfl
    apply Schedule.Returns.op (o := .crd j .GFRCR) rfl
    exact returns_ret _ _
  · exact returns_ret _ _

/-- a turn that expires -/
theorem expires_returns (hc : S.ccr (2 * k + 1) ≠ 0) (hl : S.late k = true) (turns : Nat) :
    S.Returns (ccrWaitLoop j S.stop (turns + 1)) (2 * k + 1) (-etimedout) := by
  have ht : ¬timeBefore (UInt32.ofNat (S.time (2 * k + 2))) S.stop = true := by
    intro ht
    unfold Schedule.late at hl
    rw [ht] at hl
    cases hl
  rw [ccrWaitLoop_succ]
  apply Schedule.Returns.op (o := .crd j .CCR) rfl
  show S.Returns (if S.ccr (2 * k + 1) = 0 then _ else _) _ _
  rw [if_neg hc]
  apply Schedule.Returns.op (o := .jiffies) rfl
  rw [if_neg ht]
  obtain ⟨tr, n1, h⟩ := ccrWarn_returns S j (2 * k + 1 + 1 + 1)
  exact ⟨tr ++ [], n1, runs_bind.mpr ⟨tr, (), n1, [], rfl, h, runs_ret.mpr ⟨rfl, rfl, rfl⟩⟩⟩

/-- a turn that finds `CCR` clear -/
theorem accepts_returns (hc : S.ccr (2 * k + 1) = 0) (turns : Nat) :
    S.Returns (ccrWaitLoop j S.stop (turns + 1)) (2 * k + 1) 0 := by
  rw [ccrWaitLoop_succ]
  apply Schedule.Returns.op (o := .crd j .CCR) rfl
  show S.Returns (if S.ccr (2 * k + 1) = 0 then _ else _) _ _
  rw [if_pos hc]
  exact returns_ret _ _

/-- a turn that does neither -/
theorem goes_returns {turns : Nat} {rc : Int} (hc : S.ccr (2 * k + 1) ≠ 0) (hl : S.late k = false)
    (h : S.Returns (ccrWaitLoop j S.stop turns) (2 * (k + 1) + 1) rc) :
    S.Returns (ccrWaitLoop j S.stop (turns + 1)) (2 * k + 1) rc := by
  have ht : timeBefore (UInt32.ofNat (S.time (2 * k + 2))) S.stop = true := by
    unfold Schedule.late at hl
    exact Bool.not_eq_eq_eq_not.mp hl
  rw [ccrWaitLoop_succ]
  apply Schedule.Returns.op (o := .crd j .CCR) rfl
  show S.Returns (if S.ccr (2 * k + 1) = 0 then _ else _) _ _
  rw [if_neg hc]
  apply Schedule.Returns.op (o := .jiffies) rfl
  rw [if_pos ht]
  exact h

/-- from turn `k - d` on, if turn `k` is made and ends the loop -/
theorem ccrWaitLoop_returns {rc : Int} (hk : S.Reaches k)
    (hend : ∀ turns, S.Returns (ccrWaitLoop j S.stop (turns + 1)) (2 * k + 1) rc) (d turns : Nat)
    (hd : d ≤ k) : S.Returns (ccrWaitLoop j S.stop (turns + d + 1)) (2 * (k - d) + 1) rc := by
  induction d with
  | zero => exact hend turns
  | succ d ih =>
    obtain ⟨hc, hl⟩ := hk (k - (d + 1)) (by omega)
    apply goes_returns hc hl
    have he : k - (d + 1) + 1 = k - d := by omega
    rw [he]
    exact ih (by omega)

theorem ccrWait_returns {rc : Int} (hk : S.Reaches k)
    (hend : ∀ turns, S.Returns (ccrWaitLoop j S.stop (turns + 1)) (2 * k + 1) rc) (turns : Nat)
    (ht : k < turns) : S.Returns (ccrWait turns j) 0 rc := by
  have h := ccrWaitLoop_returns hk hend k (turns - (k + 1)) (Nat.le_refl k)
  have he : turns - (k + 1) + k + 1 = turns := by omega
  rw [he, Nat.sub_self] at h
  exact Schedule.Returns.op (o := .jiffies) rfl h

/-! ## real time -/

theorem late_deadline (h : S.late k = true) : S.deadline ≤ S.time (2 * k + 2) := by
  have h0 : S.time 0 ≤ S.time (2 * k + 2) := S.mono (Nat.zero_le _)
  have hj : ccrWaitJiffies.toNat = 63 := rfl
  have hdiff : (UInt32.ofNat (S.time (2 * k + 2)) - S.stop).toNat
      = (2 ^ 32 - (S.time 0 % 2 ^ 32 + 63) % 2 ^ 32 + S.time (2 * k + 2) % 2 ^ 32) % 2 ^ 32 := by
    unfold Schedule.stop
    rw [UInt32.toNat_sub, UInt32.toNat_add, UInt32.toNat_ofNat', UInt32.toNat_ofNat']
    rfl
  unfold Schedule.late timeBefore timeAfter at h
  rw [Bool.not_eq_eq_eq_not, Bool.not_true, decide_eq_false_iff_not, hdiff] at h
  unfold Schedule.deadline
  rw [hj]
  omega

/-- a turn that finds `CCR` clear, or one before it, ends the loop -/
theorem exists_ending (h : S.ccr (2 * k + 1) = 0) : (∃ k', S.Accepts k') ∨ ∃ k', S.Expires k' := by
  have hex : ∃ k', ¬(S.ccr (2 * k' + 1) ≠ 0 ∧ S.late k' = false) := ⟨k, fun hg => hg.1 h⟩
  have hreach : S.Reaches (Nat.find hex) := fun k' hk' => not_not.mp (Nat.find_min hex hk')
  by_cases hc : S.ccr (2 * Nat.find hex + 1) = 0
  · exact .inl ⟨_, hreach, hc⟩
  · have hl : S.late (Nat.find hex) = true := by
      by_contra hl
      exact Nat.find_spec hex ⟨hc, eq_false_of_ne_true hl⟩
    exact .inr ⟨_, hreach, hc, hl⟩

theorem Schedule.Expires.unique {k' : Nat} (h : S.Expires k) (h' : S.Expires k') : k' = k := by
  have hle : ∀ {k k'}, S.Expires k → S.Expires k' → k ≤ k' := by
    intro k k' h h'
    by_contra hlt
    have hearly := (h.reached k' (by omega)).2
    rw [h'.late] at hearly
    cases hearly
  have h1 := hle h h'
  have h2 := hle h' h
  omega

theorem mem_looksUpTo {a : Nat} : a ∈ looksUpTo k ↔ ∃ k' ≤ k, a = 2 * k' + 1 := by
  unfold looksUpTo
  rw [List.mem_map]
  constructor
  · intro ⟨k', hk', ha⟩
    exact ⟨k', Nat.le_of_lt_succ (List.mem_range.mp hk'), ha.symm⟩
  · intro ⟨k', hk', ha⟩
    exact ⟨k', List.mem_range.mpr (Nat.lt_succ_of_le hk'), ha.symm⟩

/-- **No false timeout** exactly if the turn that finds the time over had read `CCR` when it was,
or the message still finds a command pending. -/
theorem ccrWait_truthful_iff (S : Schedule) (j : Fin 8) : Truthful S j ↔ ∀ k, S.Expires k →
    S.deadline ≤ S.time (2 * k + 1) ∨ S.prints (2 * k + 3) = true ∧ S.ccr (2 * k + 4) ≠ 0 := by
  constructor
  · intro h k hk
    obtain ⟨tr, n', hrun⟩ := ccrWait_returns hk.reached
      (expires_returns (j := j) hk.pending hk.late) (k + 1) (Nat.lt_succ_self k)
    obtain ⟨a, ha, hdead, hpend⟩ := h.refused (k + 1) tr n' hrun
    obtain ⟨k', ⟨hzero, _, _⟩ | ⟨_, hk', hlooks⟩⟩ := ccrWait_run hrun
    · exact absurd hzero (by decide)
    obtain rfl := hk.unique hk'
    rw [hlooks] at ha
    rcases List.mem_append.mp ha with ha | ha
    · obtain ⟨k'', hle, rfl⟩ := mem_looksUpTo.mp ha
      have hmono : S.time (2 * k'' + 1) ≤ S.time (2 * k' + 1) := S.mono (by omega)
      exact .inl (Nat.le_trans hdead hmono)
    · by_cases hp : S.prints (2 * k' + 3) = true
      · rw [if_pos hp, List.mem_singleton] at ha
        subst ha
        exact .inr ⟨hp, hpend⟩
      · rw [if_neg hp] at ha
        exact absurd ha List.not_mem_nil
  · intro h
    constructor
    · intro m hm hdead hclear
      -- the chip is clear when time has come to `m`, so the loop ends; it does not expire
      obtain ⟨n, hn⟩ := S.goesOn m
      have hturn : S.ccr (2 * n + 1) = 0 := hclear _ (Nat.le_trans hn (S.mono (by omega)))
      obtain ⟨k, hk⟩ | ⟨k, hk⟩ := exists_ending hturn
      · exact ⟨k, ccrWait_returns hk.reached (accepts_returns hk.clear)⟩
      · obtain hread | ⟨_, hpend⟩ := h k hk
        · exact absurd (hclear _ (Nat.le_trans hdead hread)) hk.pending
        · have hmono : S.time (2 * k + 2) ≤ S.time (2 * k + 4) := S.mono (by omega)
          have hlate := Nat.le_trans (late_deadline hk.late) hmono
          exact absurd (hclear _ (Nat.le_trans hdead hlate)) hpend
    · intro turns tr n' hrun
      obtain ⟨k, ⟨hzero, _, _⟩ | ⟨_, hk, hlooks⟩⟩ := ccrWait_run hrun
      · exact absurd hzero (by decide)
      rw [hlooks]
      obtain hread | ⟨hp, hpend⟩ := h k hk
      · have hmem : 2 * k + 1 ∈ looksUpTo k := mem_looksUpTo.mpr ⟨k, Nat.le_refl k, rfl⟩
        exact ⟨_, List.mem_append_left _ hmem, hread, hk.pending⟩
      · have hmono : S.time (2 * k + 2) ≤ S.time (2 * k + 4) := S.mono (by omega)
        refine ⟨2 * k + 4, ?_, Nat.le_trans (late_deadline hk.late) hmono, hpend⟩
        rw [if_pos hp]
        exact List.mem_append_right _ (List.mem_singleton.mpr rfl)

/-- `CCR` is read at once, clears at jiffy 1, and the yield lasts until jiffy 102 -/
def longYield : Schedule where
  time n := if n ≤ 1 then 0 else 100 + n
  ccr n := if n ≤ 1 then 0x20 else 0x00
  prints _ := false
  mono := by
    intro m n h
    show (if m ≤ 1 then 0 else 100 + m) ≤ if n ≤ 1 then 0 else 100 + n
    split <;> split <;> omega
  goesOn t := ⟨t + 2, by
    show t ≤ if t + 2 ≤ 1 then 0 else 100 + (t + 2)
    split <;> omega⟩

/-- the wait gives up on a chip that cleared `CCR` in time -/
theorem ccrWait_truthful_fails : ¬Truthful longYield 0 := by
  intro h
  have hclear : ∀ n, 1 ≤ longYield.time n → longYield.ccr n = 0 := by
    intro n hn
    have hn : 1 ≤ if n ≤ 1 then 0 else 100 + n := hn
    show (if n ≤ 1 then 0x20 else 0x00 : UInt8) = 0
    split at hn
    · omega
    · rename_i hlt
      exact if_neg hlt
  obtain ⟨k, hk⟩ := h.accepted 1 (by decide) (by decide) hclear
  obtain ⟨tr, n', hrun⟩ := hk (k + 1) (Nat.lt_succ_self k)
  obtain ⟨k', ⟨_, hacc, _⟩ | ⟨hrc, _⟩⟩ := ccrWait_run hrun
  · -- turn 0 reads 0x20 and finds the time over, so no turn accepts
    cases k' with
    | zero => exact absurd hacc.clear (by decide)
    | succ k' => exact absurd (hacc.reached 0 (Nat.succ_pos k')).2 (by decide)
  · exact absurd hrc (by decide)

end Nm32a
