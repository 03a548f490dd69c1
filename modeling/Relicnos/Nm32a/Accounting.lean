import Relicnos.Interact.Series
import Relicnos.Interact.Policy
import Relicnos.Nm32a.Calls

/-!
# The accounting of receive exceptions

`jiffies` is real time modulo 2^32.  `nm32a_rx_exception` counts the exceptions of a window that
starts with the first exception after the window before; whether that one is over it decides with
`time_after`.

* `Acct`, `clocked`      real time and the three fields of a port, and what the two functions see;
* `exception_run`        what one exception does to the fields;
* `Window.next`          the same in real time;
* `exceptions_mute`      the mute is right on every run whose quiet times `time_after` can tell.
-/

set_option linter.unusedVariables false

namespace Nm32a
open Interact

/-! ## real time -/

/-- real time, in jiffies, and what the accounting of port `i` is kept in -/
@[ext]
structure Acct where
  time : Nat
  errWin : UInt32
  errCnt : UInt32
  rxOff : Bool

def PortField.book : PortField → Acct → Acct
  | .errWin v, s => { s with errWin := v }
  | .errCnt v, s => { s with errCnt := v }
  | .rxOff b, s => { s with rxOff := b }
  | _, s => s

def Acct.at (s : Acct) (t : Nat) : Acct := { s with time := t }

/-- time passes; the fields are only assigned by the two functions -/
def clocked (i : Fin 32) : Env Op Res Acct where
  rely s s' := ∃ t, s.time ≤ t ∧ s' = s.at t
  access s o r s' :=
    match o, r with
    | .jiffies, r => r = UInt32.ofNat s.time ∧ s' = s
    | .port k, np =>
      (k = i → (show Port from np).errWin = s.errWin ∧ (show Port from np).errCnt = s.errCnt ∧
        (show Port from np).rxOff = s.rxOff) ∧ s' = s
    | .setPort k f, _ => s' = if k = i then f.book s else s
    | _, _ => s' = s

/-- the times at which a run looked at the clock -/
def readings (tr : List (Event Op Res Acct)) : List Nat :=
  tr.filterMap fun e => match e.op with
    | .jiffies => some e.pre.time
    | _ => none

/-- what a run wrote to `IER` -/
def ierWrites (tr : List (Event Op Res Acct)) : List UInt8 :=
  tr.filterMap fun e => match e.op with
    | .cwr _ .IER v => some v
    | _ => none

/-- the clock and the register at the head of a run -/
structure Heads (tr tr' : List (Event Op Res Acct)) (ts : List Nat) (vs : List UInt8) : Prop where
  clock : readings tr = ts ++ readings tr'
  ier : ierWrites tr = vs ++ ierWrites tr'

section
variable {i : Fin 32} {α : Type} {s s' : Acct} {tr : List (Event Op Res Acct)} {a : α}

theorem clocked_op {o : Op} {g : Res o → Drv α} (h : Runs (clocked i) (issue o >>= g) s tr a s') :
    ∃ t r s2 tr', s.time ≤ t ∧ (clocked i).access (s.at t) o r s2 ∧
      tr = ⟨s.at t, o, r, s2⟩ :: tr' ∧ Runs (clocked i) (g r) s2 tr' a s' := by
  obtain ⟨s1, r, s2, tr', htr, ⟨t, ht, hs1⟩, ha, hg⟩ := runs_op.mp h
  subst hs1
  exact ⟨t, r, s2, tr', ht, ha, htr, hg⟩

theorem clocked_jiffies {g : UInt32 → Drv α} (h : Runs (clocked i) (jiffies >>= g) s tr a s') :
    ∃ t tr', s.time ≤ t ∧ Heads tr tr' [t] [] ∧
      Runs (clocked i) (g (UInt32.ofNat t)) (s.at t) tr' a s' := by
  obtain ⟨t, r, s2, tr', ht, ⟨hr, hs2⟩, htr, hg⟩ := clocked_op h
  subst hs2
  subst hr
  exact ⟨t, tr', ht, ⟨by rw [htr]; rfl, by rw [htr]; rfl⟩, hg⟩

theorem clocked_port {g : Port → Drv α} (h : Runs (clocked i) (portAt i >>= g) s tr a s') :
    ∃ t np tr', s.time ≤ t ∧ Heads tr tr' [] [] ∧
      (np.errWin = s.errWin ∧ np.errCnt = s.errCnt ∧ np.rxOff = s.rxOff) ∧
      Runs (clocked i) (g np) (s.at t) tr' a s' := by
  obtain ⟨t, np, s2, tr', ht, ⟨hnp, hs2⟩, htr, hg⟩ := clocked_op h
  subst hs2
  exact ⟨t, np, tr', ht, ⟨by rw [htr]; rfl, by rw [htr]; rfl⟩, hnp rfl, hg⟩

theorem clocked_set {f : PortField} {g : Unit → Drv α}
    (h : Runs (clocked i) (setPort i f >>= g) s tr a s') :
    ∃ t tr', s.time ≤ t ∧ Heads tr tr' [] [] ∧
      Runs (clocked i) (g ()) (f.book (s.at t)) tr' a s' := by
  obtain ⟨t, r, s2, tr', ht, hs2, htr, hg⟩ := clocked_op h
  replace hs2 : s2 = if i = i then f.book (s.at t) else s.at t := hs2
  rw [if_pos rfl] at hs2
  subst hs2
  exact ⟨t, tr', ht, ⟨by rw [htr]; rfl, by rw [htr]; rfl⟩, hg⟩

theorem clocked_cwr {j : Fin 8} {reg : Reg} {v : UInt8} {g : Unit → Drv α}
    (h : Runs (clocked i) (cwr j reg v >>= g) s tr a s') :
    ∃ t tr', s.time ≤ t ∧ Heads tr tr' [] (if reg = .IER then [v] else []) ∧
      Runs (clocked i) (g ()) (s.at t) tr' a s' := by
  obtain ⟨t, r, s2, tr', ht, hs2, htr, hg⟩ := clocked_op h
  replace hs2 : s2 = s.at t := hs2
  subst hs2
  refine ⟨t, tr', ht, ⟨by rw [htr]; rfl, ?_⟩, hg⟩
  rw [htr]
  cases reg <;> rfl

/-! ## one exception -/

/-- one exception more, and the mute at the limit -/
def Acct.counted (s : Acct) : Acct :=
  { s with errCnt := s.errCnt + 1, rxOff := s.rxOff || s.errCnt + 1 = errLimit }

theorem errWindow_run {u : Unit} (h : Runs (clocked i) (errWindow i) s tr u s') :
    ∃ t1 t2, s.time ≤ t1 ∧ t1 ≤ t2 ∧ t2 ≤ s'.time ∧ ierWrites tr = [] ∧
      if timeAfter (UInt32.ofNat t1) (s.errWin + hz) then
        readings tr = [t1, t2] ∧
          s' = { s.at s'.time with errWin := UInt32.ofNat t2, errCnt := 0 }
      else t2 = t1 ∧ readings tr = [t1] ∧ s' = s.at s'.time := by
  obtain ⟨t1, tr1, ht1, hr1, h⟩ := clocked_jiffies h
  obtain ⟨t, np, tr2, ht, hr2, ⟨hwin, _, _⟩, h⟩ := clocked_port h
  replace ht : t1 ≤ t := ht
  rw [hwin] at h
  by_cases hafter : timeAfter (UInt32.ofNat t1) (s.errWin + hz) = true
  · replace h : Runs (clocked i) (if timeAfter (UInt32.ofNat t1) (s.errWin + hz) = true then
      (do
        let now ← jiffies
        setPort i (.errWin now)
        setPort i (.errCnt 0)) else pure ()) ((s.at t1).at t) tr2 u s' := h
    rw [if_pos hafter] at h
    obtain ⟨t2, tr3, ht2, hr3, h⟩ := clocked_jiffies h
    obtain ⟨t3, tr4, ht3, hr4, h⟩ := clocked_set h
    rw [← bind_pure (setPort i (.errCnt 0))] at h
    obtain ⟨t4, tr5, ht4, hr5, h⟩ := clocked_set h
    obtain ⟨rfl, _, rfl⟩ := runs_ret.mp h
    replace ht2 : t ≤ t2 := ht2
    replace ht3 : t2 ≤ t3 := ht3
    replace ht4 : t3 ≤ t4 := ht4
    refine ⟨t1, t2, ht1, by omega, Nat.le_trans ht3 ht4, ?_⟩
    rw [if_pos hafter, hr1.clock, hr2.clock, hr3.clock, hr4.clock, hr5.clock, hr1.ier, hr2.ier,
      hr3.ier, hr4.ier, hr5.ier]
    exact ⟨rfl, rfl, rfl⟩
  · replace h : Runs (clocked i) (if timeAfter (UInt32.ofNat t1) (s.errWin + hz) = true then
      (do
        let now ← jiffies
        setPort i (.errWin now)
        setPort i (.errCnt 0)) else pure ()) ((s.at t1).at t) tr2 u s' := h
    rw [if_neg hafter] at h
    obtain ⟨rfl, _, rfl⟩ := runs_ret.mp h
    refine ⟨t1, t1, ht1, Nat.le_refl _, ht, ?_⟩
    rw [if_neg hafter, hr1.clock, hr2.clock, hr1.ier, hr2.ier]
    exact ⟨rfl, rfl, rfl, rfl⟩

/-- the fields after an exception that found the clock at `t1`, and at `t2` when it looked again -/
def Acct.excepted (s : Acct) (t1 t2 : Nat) : Acct :=
  if timeAfter (UInt32.ofNat t1) (s.errWin + hz) then
    { s with errWin := UInt32.ofNat t2, errCnt := 0 }.counted
  else s.counted

theorem readings_append (tr1 tr2 : List (Event Op Res Acct)) :
    readings (tr1 ++ tr2) = readings tr1 ++ readings tr2 := List.filterMap_append

theorem ierWrites_append (tr1 tr2 : List (Event Op Res Acct)) :
    ierWrites (tr1 ++ tr2) = ierWrites tr1 ++ ierWrites tr2 := List.filterMap_append

/-- the count, which looks at no clock -/
theorem count_run {u : Unit} (h : Runs (clocked i) (do
      let np ← portAt i
      setPort i (.errCnt (np.errCnt + 1))
      if np.errCnt + 1 ≠ errLimit ∨ np.rxOff then
        pure ()
      else
        setPort i (.rxOff true)
        cwr (chipOf i) .CAR (UInt8.ofNat (chanIx i).val)
        cwr (chipOf i) .IER 0x01) s tr u s') :
    readings tr = [] ∧ s.time ≤ s'.time ∧ s' = s.counted.at s'.time ∧
      ierWrites tr = if s.rxOff = false ∧ s'.rxOff = true then [0x01] else [] := by
  obtain ⟨t1, np, tr1, ht1, hr1, ⟨_, hcnt, hoff⟩, h⟩ := clocked_port h
  obtain ⟨t2, tr2, ht2, hr2, h⟩ := clocked_set h
  rw [hcnt, hoff] at h
  replace ht2 : t1 ≤ t2 := ht2
  replace h : Runs (clocked i) (if s.errCnt + 1 ≠ errLimit ∨ s.rxOff = true then pure ()
    else (do
      setPort i (.rxOff true)
      cwr (chipOf i) .CAR (UInt8.ofNat (chanIx i).val)
      cwr (chipOf i) .IER 0x01)) _ tr2 u s' := h
  by_cases hmute : s.errCnt + 1 ≠ errLimit ∨ s.rxOff = true
  · rw [if_pos hmute] at h
    obtain ⟨rfl, _, rfl⟩ := runs_ret.mp h
    have hsame : (s.rxOff || decide (s.errCnt + 1 = errLimit)) = s.rxOff := by
      obtain hne | hoff := hmute
      · rw [decide_eq_false hne, Bool.or_false]
      · rw [hoff, Bool.true_or]
    refine ⟨by rw [hr1.clock, hr2.clock]; rfl, Nat.le_trans ht1 ht2, ?_, ?_⟩
    · unfold Acct.counted
      rw [hsame]
      rfl
    · rw [hr1.ier, hr2.ier, if_neg]
      · rfl
      · intro ⟨hf, ht⟩
        exact absurd (hf.symm.trans ht) Bool.false_ne_true
  · rw [if_neg hmute] at h
    obtain ⟨heq, hon⟩ := not_or.mp hmute
    obtain ⟨t3, tr3, ht3, hr3, h⟩ := clocked_set h
    obtain ⟨t4, tr4, ht4, hr4, h⟩ := clocked_cwr h
    rw [← bind_pure (cwr (chipOf i) .IER 0x01)] at h
    obtain ⟨t5, tr5, ht5, hr5, h⟩ := clocked_cwr h
    obtain ⟨rfl, _, rfl⟩ := runs_ret.mp h
    refine ⟨by rw [hr1.clock, hr2.clock, hr3.clock, hr4.clock, hr5.clock]; rfl, ?_, ?_, ?_⟩
    · exact Nat.le_trans ht1 (Nat.le_trans ht2 (Nat.le_trans ht3 (Nat.le_trans ht4 ht5)))
    · unfold Acct.counted
      rw [decide_eq_true (not_not.mp heq), Bool.or_true]
      rfl
    · rw [hr1.ier, hr2.ier, hr3.ier, hr4.ier, hr5.ier]
      exact (if_pos ⟨eq_false_of_ne_true hon, rfl⟩).symm

/-- **One exception**: what it does to the fields, from the times it looked at. -/
theorem exception_run {u : Unit}
    (h : Runs (clocked i) (nm32aRxException (chipOf i) (chanIx i)) s tr u s') :
    ∃ t1 t2, s.time ≤ t1 ∧ t1 ≤ t2 ∧ t2 ≤ s'.time ∧ (readings tr).headD 0 = t1 ∧
      (readings tr).getLastD 0 = t2 ∧ s' = (s.excepted t1 t2).at s'.time ∧
      (¬ timeAfter (UInt32.ofNat t1) (s.errWin + hz) = true → t2 = t1) ∧
      ierWrites tr = if s.rxOff = false ∧ s'.rxOff = true then [0x01] else [] := by
  rw [nm32aRxException_eq] at h
  obtain ⟨tr1, u1, s1, tr2, rfl, hwin, h⟩ := runs_bind.mp h
  obtain ⟨t1, t2, ht1, ht2, ht, hdark, hcase⟩ := errWindow_run hwin
  obtain ⟨hnone, htime, hs', hier⟩ := count_run h
  refine ⟨t1, t2, ht1, ht2, Nat.le_trans ht htime, ?_⟩
  rw [readings_append, hnone, List.append_nil, ierWrites_append, hdark, hier]
  unfold Acct.excepted
  by_cases hafter : timeAfter (UInt32.ofNat t1) (s.errWin + hz) = true
  · rw [if_pos hafter] at hcase ⊢
    obtain ⟨hr, hs1⟩ := hcase
    have hoff : s1.rxOff = s.rxOff := by rw [hs1]; rfl
    refine ⟨by rw [hr]; rfl, by rw [hr]; rfl, ?_, fun hn => absurd hafter hn, by rw [hoff]; rfl⟩
    rw [hs', hs1]
    rfl
  · rw [if_neg hafter] at hcase ⊢
    obtain ⟨heq, hr, hs1⟩ := hcase
    have hoff : s1.rxOff = s.rxOff := by rw [hs1]; rfl
    refine ⟨by rw [hr]; rfl, by rw [hr, heq]; rfl, ?_, fun _ => heq, by rw [hoff]; rfl⟩
    rw [hs', hs1]
    rfl

/-! ## the open -/

/-- **An open starts a window**, at the time it looked at last. -/
theorem activate_run {turns rate : Nat}
    (h : Runs (clocked i) (nm32aPortActivate turns i rate) s tr 0 s') :
    s' = ⟨s'.time, UInt32.ofNat ((readings tr).getLastD 0), 0, false⟩ ∧
      (readings tr).getLastD 0 ≤ s'.time := by
  rw [nm32aPortActivate_eq] at h
  obtain ⟨tr1, u1, s1, tr2, rfl, _, h⟩ := runs_bind.mp h
  obtain ⟨tr3, v, s3, tr4, rfl, _, h⟩ := runs_bind.mp h
  by_cases hv : v = 0xE0
  · rw [if_pos hv] at h
    obtain ⟨tr5, u5, s5, tr6, rfl, _, h⟩ := runs_bind.mp h
    obtain ⟨_, hret, _⟩ := runs_ret.mp h
    exact absurd hret (by decide)
  · rw [if_neg hv] at h
    obtain ⟨tr5, u5, s5, tr6, rfl, _, h⟩ := runs_bind.mp h
    obtain ⟨t1, tr7, _, hr7, h⟩ := clocked_set h
    obtain ⟨t2, tr8, _, hr8, h⟩ := clocked_set h
    obtain ⟨t3, tr9, _, hr9, h⟩ := clocked_set h
    obtain ⟨t, tr10, _, hr10, h⟩ := clocked_jiffies h
    obtain ⟨t4, tr11, ht4, hr11, h⟩ := clocked_set h
    obtain ⟨t5, tr12, ht5, hr12, h⟩ := clocked_set h
    obtain ⟨t6, tr13, ht6, hr13, h⟩ := clocked_set h
    obtain ⟨t7, v7, s7, tr14, ht7, hs7, htr, h⟩ := clocked_op h
    obtain ⟨rfl, _, rfl⟩ := runs_ret.mp h
    replace hs7 : s7 = _ := hs7
    have hlast : (readings (tr1 ++ (tr3 ++ (tr5 ++ tr6)))).getLastD 0 = t := by
      rw [readings_append, readings_append, readings_append, hr7.clock, hr8.clock, hr9.clock,
        hr10.clock, hr11.clock, hr12.clock, hr13.clock, htr, ← List.append_assoc,
        ← List.append_assoc]
      exact List.getLastD_concat
    rw [hlast, hs7]
    exact ⟨rfl, Nat.le_trans ht4 (Nat.le_trans ht5 (Nat.le_trans ht6 ht7))⟩

end

/-! ## windows of real time -/

abbrev Exception := Interact.Call Op Res Acct

/-- when an exception looked at the clock first, and last -/
def seenAt (c : Exception) : Nat := (readings c.trace).headD 0
def takenAt (c : Exception) : Nat := (readings c.trace).getLastD 0

structure Window where
  start : Nat
  count : Nat

/-- a window starts with the first exception after the one before it expired -/
def Window.next (w : Window) (c : Exception) : Window :=
  if w.start + hz.toNat < seenAt c then ⟨takenAt c, 1⟩ else ⟨w.start, w.count + 1⟩

def windows (opened : Nat) (cs : List Exception) : Window := cs.foldl Window.next ⟨opened, 0⟩

/-- after the window: `time_after` can tell -/
def Window.Tells (w : Window) (c : Exception) : Prop :=
  w.start + hz.toNat < seenAt c → (seenAt c - w.start - hz.toNat - 1) % 2 ^ 32 < 2 ^ 31

theorem timeAfter_real {w t : Nat} (hw : w ≤ t)
    (h : w + hz.toNat < t → (t - w - hz.toNat - 1) % 2 ^ 32 < 2 ^ 31) :
    timeAfter (UInt32.ofNat t) (UInt32.ofNat w + hz) = true ↔ w + hz.toNat < t := by
  have hhz : hz.toNat = 250 := rfl
  have hdiff : (UInt32.ofNat w + hz - UInt32.ofNat t).toNat
      = (2 ^ 32 - t % 2 ^ 32 + (w % 2 ^ 32 + 250) % 2 ^ 32) % 2 ^ 32 := by
    rw [UInt32.toNat_sub, UInt32.toNat_add, UInt32.toNat_ofNat', UInt32.toNat_ofNat']
    rfl
  unfold timeAfter
  rw [decide_eq_true_iff, hdiff, hhz]
  rw [hhz] at h
  omega

/-- the mute is right at the exception `c`, after those in `before` -/
structure MutesRight (opened : Nat) (before : List Exception) (c : Exception) : Prop where
  /-- it is only for 200 exceptions within `HZ` jiffies -/
  only : ierWrites c.trace ≠ [] ∨ c.pre.rxOff = false ∧ c.post.rxOff = true →
    ∃ old recent, before ++ [c] = old ++ recent ∧ recent.length = errLimit.toNat ∧
      ∀ c' ∈ recent, takenAt c' ≤ takenAt c ∧ takenAt c ≤ takenAt c' + hz.toNat
  /-- and 200 exceptions in one window mute the receiver -/
  always : errLimit.toNat ≤ (windows opened (before ++ [c])).count →
    c.post.rxOff = true ∧ ∃ c' ∈ before ++ [c], ierWrites c'.trace = [0x01]

/-- the fields say what the window is, and the exceptions it counts -/
structure Accounts (w : Window) (before : List Exception) (s : Acct) : Prop where
  start : s.errWin = UInt32.ofNat w.start
  le : w.start ≤ s.time
  count : s.rxOff = false → s.errCnt = UInt32.ofNat w.count ∧ w.count < errLimit.toNat
  dark : s.rxOff = true → ∃ c ∈ before, ierWrites c.trace = [0x01]
  recent : ∃ old recent, before = old ++ recent ∧ recent.length = w.count ∧
    ∀ c ∈ recent, w.start ≤ takenAt c ∧ takenAt c ≤ s.time

section
variable {i : Fin 32} {s s' s1 s2 : Acct} {w : Window} {before : List Exception}

theorem Accounts.later (h : Accounts w before s) {t : Nat} (ht : s.time ≤ t) :
    Accounts w before (s.at t) := by
  obtain ⟨old, recent, hb, hlen, hrec⟩ := h.recent
  refine ⟨h.start, Nat.le_trans h.le ht, h.count, h.dark, old, recent, hb, hlen, ?_⟩
  intro c hc
  exact ⟨(hrec c hc).1, Nat.le_trans (hrec c hc).2 ht⟩

theorem errCnt_limit {n : Nat} (hn : n < errLimit.toNat) :
    UInt32.ofNat n + 1 = errLimit ↔ n + 1 = errLimit.toNat := by
  have hlim : errLimit.toNat = 200 := rfl
  rw [hlim] at hn
  rw [← UInt32.toNat_inj, UInt32.toNat_add, UInt32.toNat_ofNat', hlim]
  show (n % 2 ^ 32 + 1) % 2 ^ 32 = 200 ↔ _
  omega

/-- **One exception** keeps the account, and mutes only for 200 exceptions within `HZ` jiffies, if
`time_after` can tell. -/
theorem Accounts.step {c : Exception} (h : Accounts w before c.pre) {u : Unit}
    (hrun : Runs (clocked i) (nm32aRxException (chipOf i) (chanIx i)) c.pre c.trace u c.post)
    (ht : w.Tells c) : Accounts (w.next c) (before ++ [c]) c.post ∧
      (ierWrites c.trace ≠ [] ∨ c.pre.rxOff = false ∧ c.post.rxOff = true →
        ∃ old recent, before ++ [c] = old ++ recent ∧ recent.length = errLimit.toNat ∧
          ∀ c' ∈ recent, takenAt c' ≤ takenAt c ∧ takenAt c ≤ takenAt c' + hz.toNat) := by
  obtain ⟨t1, t2, ht1, ht2, ht3, hseen, htaken, hpost, hone, hier⟩ := exception_run hrun
  obtain ⟨old, recent, hb, hlen, hrec⟩ := h.recent
  replace hseen : seenAt c = t1 := hseen
  replace htaken : takenAt c = t2 := htaken
  have hafter : timeAfter (UInt32.ofNat t1) (c.pre.errWin + hz) = true ↔
      w.start + hz.toNat < t1 := by
    rw [h.start]
    apply timeAfter_real (Nat.le_trans h.le ht1)
    unfold Window.Tells at ht
    rwa [hseen] at ht
  have hmutes : ierWrites c.trace ≠ [] ∨ c.pre.rxOff = false ∧ c.post.rxOff = true →
      c.pre.rxOff = false ∧ c.post.rxOff = true := by
    intro hm
    obtain hm | hm := hm
    · by_contra hn
      rw [hier, if_neg hn] at hm
      exact hm rfl
    · exact hm
  have hdark : c.post.rxOff = true → ∃ c' ∈ before ++ [c], ierWrites c'.trace = [0x01] := by
    intro hoff
    by_cases hpre : c.pre.rxOff = true
    · obtain ⟨c', hc', hw⟩ := h.dark hpre
      exact ⟨c', List.mem_append_left _ hc', hw⟩
    · refine ⟨c, List.mem_append_right _ List.mem_cons_self, ?_⟩
      rw [hier, if_pos ⟨eq_false_of_ne_true hpre, hoff⟩]
  unfold Window.next
  rw [hseen, htaken]
  by_cases hover : w.start + hz.toNat < t1
  · -- a new window
    have hfields : c.post = ({ c.pre with errWin := UInt32.ofNat t2, errCnt := 0 }.counted).at
        c.post.time := by
      rw [hpost]
      unfold Acct.excepted
      rw [if_pos (hafter.mpr hover)]
      rfl
    have hoff : c.post.rxOff = c.pre.rxOff := by
      rw [hfields]
      show (c.pre.rxOff || decide ((0 : UInt32) + 1 = errLimit)) = _
      rw [decide_eq_false (by decide), Bool.or_false]
    rw [if_pos hover]
    refine ⟨⟨by rw [hfields]; rfl, ht3, ?_, hdark, before, [c], rfl, rfl, ?_⟩, ?_⟩
    · intro _
      rw [hfields]
      exact ⟨rfl, show 1 < errLimit.toNat by decide⟩
    · intro c' hc'
      rw [List.mem_singleton.mp hc', htaken]
      exact ⟨Nat.le_refl _, ht3⟩
    · intro hm
      obtain ⟨hf, hon⟩ := hmutes hm
      rw [hoff, hf] at hon
      exact Bool.noConfusion hon
  · -- the old one, which the exception is in
    have hsame := hone fun hx => hover (hafter.mp hx)
    have hfields : c.post = c.pre.counted.at c.post.time := by
      rw [hpost]
      unfold Acct.excepted
      rw [if_neg fun hx => hover (hafter.mp hx)]
      rfl
    have hrecent : ∀ c' ∈ recent ++ [c], w.start ≤ takenAt c' ∧ takenAt c' ≤ t2 := by
      intro c' hc'
      obtain hc' | hc' := List.mem_append.mp hc'
      · have := hrec c' hc'
        omega
      · rw [List.mem_singleton.mp hc', htaken]
        have := h.le
        omega
    have hsplit : before ++ [c] = old ++ (recent ++ [c]) := by
      rw [hb, List.append_assoc]
    have hlen' : (recent ++ [c]).length = w.count + 1 := by
      rw [List.length_append, hlen]
      rfl
    have hcnt : c.post.errCnt = c.pre.errCnt + 1 := by
      rw [hfields]
      rfl
    have hoff : c.post.rxOff = (c.pre.rxOff || decide (c.pre.errCnt + 1 = errLimit)) := by
      rw [hfields]
      rfl
    rw [if_neg hover]
    refine ⟨⟨?_, ?_, ?_, hdark, old, recent ++ [c], hsplit, hlen', ?_⟩, ?_⟩
    · rw [hfields]
      exact h.start
    · have := h.le
      show w.start ≤ c.post.time
      omega
    · intro hf
      rw [hoff, Bool.or_eq_false_iff] at hf
      obtain ⟨hcount, hlt⟩ := h.count hf.1
      have hne := of_decide_eq_false hf.2
      rw [hcount, errCnt_limit hlt] at hne
      refine ⟨?_, ?_⟩
      · rw [hcnt, hcount]
        exact (UInt32.ofNat_add w.count 1).symm
      · show w.count + 1 < errLimit.toNat
        omega
    · intro c' hc'
      have := hrecent c' hc'
      exact ⟨this.1, by omega⟩
    · intro hm
      obtain ⟨hf, hon⟩ := hmutes hm
      obtain ⟨hcount, hlt⟩ := h.count hf
      rw [hoff, hf, Bool.false_or, decide_eq_true_iff, hcount, errCnt_limit hlt] at hon
      refine ⟨old, recent ++ [c], hsplit, hlen'.trans hon, ?_⟩
      intro c' hc'
      have := hrecent c' hc'
      omega

/-- `time_after` can tell at every exception -/
def Steady (opened : Nat) (cs : List Exception) : Prop :=
  ∀ before c after, cs = before ++ c :: after → (windows opened before).Tells c

theorem series_accounts {cs : List Exception} {opened : Nat} {done : List Exception}
    (hs : Series (clocked i) (clocked i).rely (nm32aRxException (chipOf i) (chanIx i)) s cs s')
    (h : Accounts (windows opened done) done s) (ht : Steady opened (done ++ cs)) :
    ∀ before c after, cs = before ++ c :: after → MutesRight opened (done ++ before) c := by
  induction hs generalizing done with
  | done s =>
    intro before c after hcs
    exact absurd hcs.symm (List.append_ne_nil_of_right_ne_nil _ (List.cons_ne_nil _ _))
  | @again s s1 s2 s' tr u cs hbetween hrun hrest ih =>
    obtain ⟨t, htime, rfl⟩ := hbetween
    have hstep := Accounts.step (c := ⟨s.at t, tr, s2⟩) (h.later htime) hrun (ht done _ cs rfl)
    have hnext : windows opened (done ++ [⟨s.at t, tr, s2⟩])
        = (windows opened done).next ⟨s.at t, tr, s2⟩ := by
      unfold windows
      rw [List.foldl_append]
      rfl
    intro before c after hcs
    cases before with
    | nil =>
      obtain ⟨rfl, rfl⟩ := List.cons.inj hcs
      rw [List.append_nil]
      refine ⟨hstep.2, ?_⟩
      intro hcount
      rw [hnext] at hcount
      have hoff : s2.rxOff = true := by
        by_contra hn
        exact absurd (hstep.1.count (eq_false_of_ne_true hn)).2 (Nat.not_lt_of_le hcount)
      exact ⟨hoff, hstep.1.dark hoff⟩
    | cons c0 before =>
      obtain ⟨hc0, htail⟩ := List.cons.inj hcs
      subst hc0
      have hagree := hstep.1
      rw [← hnext] at hagree
      rw [show ∀ rest : List Exception, done ++ ⟨s.at t, tr, s2⟩ :: rest
        = (done ++ [⟨s.at t, tr, s2⟩]) ++ rest from fun _ => by simp] at ht ⊢
      exact ih hagree ht before c after htail

end

/-- **The mute is right on every run after an open, if `time_after` can tell every exception that
comes after its window.** -/
theorem exceptions_mute (i : Fin 32) (turns rate : Nat) {a s s' : Acct}
    {tr : List (Event Op Res Acct)} {cs : List Exception}
    (hopen : Runs (clocked i) (nm32aPortActivate turns i rate) a tr 0 s)
    (hs : Series (clocked i) (clocked i).rely (nm32aRxException (chipOf i) (chanIx i)) s cs s')
    (ht : Steady ((readings tr).getLastD 0) cs) :
    ∀ before c after, cs = before ++ c :: after →
      MutesRight ((readings tr).getLastD 0) before c := by
  obtain ⟨hfields, hle⟩ := activate_run hopen
  have hacc : Accounts (windows ((readings tr).getLastD 0) []) [] s := by
    refine ⟨?_, hle, ?_, ?_, [], [], rfl, rfl, fun _ h => absurd h List.not_mem_nil⟩
    · rw [hfields]
      rfl
    · intro _
      rw [hfields]
      exact ⟨rfl, show 0 < errLimit.toNat by decide⟩
    · intro hoff
      rw [hfields] at hoff
      exact Bool.noConfusion hoff
  exact series_accounts hs hacc ht

/-! ## a storm, and a long quiet -/

/-- an answer for every operation that no time passes for -/
def stillAnswer (i : Fin 32) (s : Acct) : (o : Op) → Option (Res o × Acct)
  | .crd _ _ => some (show UInt8 from 0, s)
  | .readb _ => some (show UInt8 from 0, s)
  | .port _ => some ((show Port from
      { idlePort with errWin := s.errWin, errCnt := s.errCnt, rxOff := s.rxOff }), s)
  | .params => some (Params.default, s)
  | .jiffies => some (UInt32.ofNat s.time, s)
  | .ratelimit => some (false, s)
  | .shouldStop => some (false, s)
  | .setPort k f => some ((), if k = i then f.book s else s)
  | .cwr _ _ _ => some ((), s)
  | .lock => some ((), s)
  | .unlock => some ((), s)
  | .spinLock _ => some ((), s)
  | .spinUnlock _ => some ((), s)
  | .traceDec => some ((), s)
  | .flip _ _ => some ((), s)
  | .hang => none

def still (i : Fin 32) : Policy (clocked i) where
  act _ s o := (stillAnswer i s o).map fun t => (s, t)
  sound := by
    intro n s o s1 r s2 h
    obtain ⟨t, ht, he⟩ := Option.map_eq_some_iff.mp h
    cases he
    refine ⟨⟨s.time, Nat.le_refl _, rfl⟩, ?_⟩
    cases o with
    | jiffies =>
      cases ht
      exact ⟨rfl, rfl⟩
    | port k =>
      cases ht
      exact ⟨fun _ => ⟨rfl, rfl, rfl⟩, rfl⟩
    | hang => cases ht
    | _ =>
      cases ht
      rfl

theorem stillAnswer_time (i : Fin 32) {s s' : Acct} {o : Op} {r : Res o}
    (h : stillAnswer i s o = some (r, s')) : s'.time = s.time := by
  cases o with
  | setPort k f =>
    cases h
    split
    · cases f <;> rfl
    · rfl
  | hang => cases h
  | _ =>
    cases h
    rfl

/-- an exception at any time, over before time goes on -/
theorem exception_at (i : Fin 32) (s : Acct) : ∃ tr s',
    Runs (clocked i) (nm32aRxException (chipOf i) (chanIx i)) s tr () s' ∧
      (readings tr).headD 0 = s.time ∧ (readings tr).getLastD 0 = s.time ∧
      s' = s.excepted s.time s.time := by
  have huses : (nm32aRxException (chipOf i) (chanIx i)).Uses fun o => o ≠ .hang := by
    refine tidies_rxException.mono ?_
    rintro o ho rfl
    exact ho
  obtain ⟨u, hu⟩ := (still i).play_completes (O := fun o => o ≠ .hang) (fun n s o ho => by
    cases o with
    | hang => exact absurd rfl ho
    | _ => rfl) huses 0 s
  have hrun := (still i).play_runs 0 _ s hu
  have htime : ((still i).play 0 (nm32aRxException (chipOf i) (chanIx i)) s).2.1.time = s.time := by
    refine (still i).play_keeps (I := fun x => x.time = s.time) ?_ _ 0 rfl
    intro n x o s1 r s2 hx hact
    obtain ⟨t, ht, he⟩ := Option.map_eq_some_iff.mp hact
    cases he
    exact (stillAnswer_time i ht).trans hx
  obtain ⟨t1, t2, h1, h2, h3, hfirst, hlast, hpost, _, _⟩ := exception_run hrun
  refine ⟨_, _, hrun, ?_, ?_, ?_⟩
  · omega
  · omega
  · rw [hpost, htime]
    obtain rfl : t1 = s.time := by omega
    obtain rfl : t2 = s.time := by omega
    unfold Acct.excepted
    split <;> rfl

/-- the first port, opened at time 0 -/
def opening : List (Event Op Res Acct) × Acct × Drv Int :=
  (still 0).play 0 (nm32aPortActivate 1 0 9600) ⟨0, 7, 7, true⟩

theorem opening_runs : Runs (clocked 0) (nm32aPortActivate 1 0 9600) ⟨0, 7, 7, true⟩ opening.1 0
    ⟨0, 0, 0, false⟩ :=
  (still 0).play_runs 0 (nm32aPortActivate 1 0 9600) ⟨0, 7, 7, true⟩ (a := 0) (by decide +kernel)

/-- a run of exceptions of the first port -/
abbrev Storm (s : Acct) (cs : List Exception) (s' : Acct) : Prop :=
  Series (clocked 0) (clocked 0).rely (nm32aRxException (chipOf 0) (chanIx 0)) s cs s'

/-- `k` exceptions at time 0 that do not reach the limit, in front of others -/
theorem storm {cs' : List Exception} {s' : Acct} (k j : Nat) (hk : j + k < errLimit.toNat)
    (h : Storm ⟨0, 0, UInt32.ofNat (j + k), false⟩ cs' s') :
    ∃ cs, Storm ⟨0, 0, UInt32.ofNat j, false⟩ (cs ++ cs') s' ∧ cs.length = k ∧
      ∀ c ∈ cs, seenAt c = 0 ∧ takenAt c = 0 := by
  induction k generalizing j with
  | zero => exact ⟨[], h, rfl, fun _ h => absurd h List.not_mem_nil⟩
  | succ k ih =>
    obtain ⟨tr, s1, hrun, hfirst, hlast, hs1⟩ := exception_at 0 ⟨0, 0, UInt32.ofNat j, false⟩
    have hnext : s1 = ⟨0, 0, UInt32.ofNat (j + 1), false⟩ := by
      have hlt : j < errLimit.toNat := by omega
      have hne : ¬ UInt32.ofNat j + 1 = errLimit := by
        rw [errCnt_limit hlt]
        omega
      have hin : ¬ timeAfter (UInt32.ofNat 0) ((0 : UInt32) + hz) = true := by decide
      rw [hs1]
      unfold Acct.excepted
      rw [if_neg hin]
      unfold Acct.counted
      rw [decide_eq_false hne, UInt32.ofNat_add]
      rfl
    have hsum : j + 1 + k = j + (k + 1) := by omega
    obtain ⟨cs, hser, hlen, hcs⟩ := ih (j + 1) (by omega) (hsum.symm ▸ h)
    refine ⟨⟨_, tr, s1⟩ :: cs, .again ⟨0, Nat.le_refl _, rfl⟩ hrun (hnext ▸ hser), ?_, ?_⟩
    · rw [List.length_cons, hlen]
    · intro c hc
      obtain rfl | hc := List.mem_cons.mp hc
      · exact ⟨hfirst, hlast⟩
      · exact hcs c hc

/-- they are all in the first window -/
theorem windows_storm {cs : List Exception} (h : ∀ c ∈ cs, seenAt c = 0) (n : Nat) :
    cs.foldl Window.next ⟨0, n⟩ = ⟨0, n + cs.length⟩ := by
  induction cs generalizing n with
  | nil => rfl
  | cons c cs ih =>
    have hnext : Window.next ⟨0, n⟩ c = ⟨0, n + 1⟩ := by
      unfold Window.next
      rw [h c List.mem_cons_self, if_neg (Nat.not_lt_zero _)]
    rw [List.foldl_cons, hnext, ih (fun c' hc' => h c' (List.mem_cons_of_mem _ hc')),
      List.length_cons, Nat.add_assoc, Nat.add_comm 1]

/-- for the first 2^31 jiffies `time_after` can tell -/
theorem Window.tells_early (w : Window) {c : Exception} (h : seenAt c < 2 ^ 31) : w.Tells c := by
  intro _
  omega

/-- 200 exceptions at the time of the open mute the receiver, and one four seconds later starts a
window of its own: the mute is right at both -/
theorem exceptions_mute_storm : ∃ before c last s',
    Storm ⟨0, 0, 0, false⟩ (before ++ [c, last]) s' ∧ Steady 0 (before ++ [c, last]) ∧
      c.pre.rxOff = false ∧ c.post.rxOff = true ∧
      errLimit.toNat ≤ (windows 0 (before ++ [c])).count ∧
      (windows 0 (before ++ [c])).start + hz.toNat < seenAt last ∧
      MutesRight 0 before c ∧ MutesRight 0 (before ++ [c]) last := by
  obtain ⟨tr, s1, hrun, hfirst, _, hs1⟩ := exception_at 0 ⟨0, 0, 199, false⟩
  obtain ⟨tr2, s2, hrun2, hfirst2, _, _⟩ := exception_at 0 (s1.at 1000)
  have hmuted : s1 = ⟨0, 0, 200, true⟩ := by
    rw [hs1]
    apply Acct.ext <;> decide +kernel
  have htwo : Storm ⟨0, 0, 199, false⟩ [⟨_, tr, s1⟩, ⟨s1.at 1000, tr2, s2⟩] s2 :=
    .again ⟨0, Nat.le_refl _, rfl⟩ hrun (.again ⟨1000, by rw [hmuted]; exact Nat.zero_le _, rfl⟩
      hrun2 (.done s2))
  obtain ⟨before, hser, hlen, hcs⟩ := storm 199 0 (by decide) htwo
  have hseen : ∀ c' ∈ before ++ [⟨⟨0, 0, 199, false⟩, tr, s1⟩], seenAt c' = 0 := by
    intro c' hc'
    obtain hc' | hc' := List.mem_append.mp hc'
    · exact (hcs c' hc').1
    · obtain rfl := List.mem_singleton.mp hc'
      exact hfirst
  have hwin : windows 0 (before ++ [⟨⟨0, 0, 199, false⟩, tr, s1⟩]) = ⟨0, 200⟩ := by
    unfold windows
    rw [windows_storm hseen, List.length_append, hlen]
    rfl
  have ht : Steady 0 (before ++ [⟨⟨0, 0, 199, false⟩, tr, s1⟩, ⟨s1.at 1000, tr2, s2⟩]) := by
    intro b c after hsplit
    apply Window.tells_early
    have hmem : c ∈ before ++ [⟨⟨0, 0, 199, false⟩, tr, s1⟩, ⟨s1.at 1000, tr2, s2⟩] := by
      rw [hsplit]
      exact List.mem_append_right _ List.mem_cons_self
    rw [List.append_cons before] at hmem
    obtain hmem | hmem := List.mem_append.mp hmem
    · rw [hseen c hmem]
      decide
    · obtain rfl := List.mem_singleton.mp hmem
      rw [show seenAt ⟨s1.at 1000, tr2, s2⟩ = 1000 from hfirst2]
      decide
  have hopened : (readings opening.1).getLastD 0 = 0 := by decide +kernel
  have hright := exceptions_mute 0 1 9600 opening_runs hser (by rw [hopened]; exact ht)
  rw [hopened] at hright
  have hsecond := hright (before ++ [_]) _ [] (List.append_cons ..)
  refine ⟨before, ⟨⟨0, 0, 199, false⟩, tr, s1⟩, ⟨s1.at 1000, tr2, s2⟩, s2, hser, ht, rfl,
    by rw [hmuted], ?_, ?_, hright before _ _ rfl, hsecond⟩
  · rw [hwin]
    decide
  · rw [hwin, show seenAt ⟨s1.at 1000, tr2, s2⟩ = 1000 from hfirst2]
    decide

/-- the time at which the clock looks as if the window were not over -/
def quietEnd : Nat := 2 ^ 31 + 251

/-- 199 exceptions at time 0, and one after the quiet -/
theorem storm_then_quiet : ∃ cs c s', Storm ⟨0, 0, 0, false⟩ (cs ++ [c]) s' ∧
    cs.length = 199 ∧ (∀ c' ∈ cs, takenAt c' = 0) ∧ takenAt c = quietEnd ∧
    c.pre.rxOff = false ∧ c.post.rxOff = true := by
  obtain ⟨tr, s', hrun, _, hlast, hs'⟩ := exception_at 0 ⟨quietEnd, 0, 199, false⟩
  have hone : Storm ⟨0, 0, 199, false⟩ [⟨⟨quietEnd, 0, 199, false⟩, tr, s'⟩] s' :=
    .again ⟨quietEnd, Nat.zero_le _, rfl⟩ hrun (.done s')
  obtain ⟨cs, hser, hlen, hcs⟩ := storm 199 0 (by decide) hone
  refine ⟨cs, ⟨_, tr, s'⟩, s', hser, hlen, fun c' hc' => (hcs c' hc').2, hlast, rfl, ?_⟩
  rw [hs']
  show (Acct.excepted ⟨quietEnd, 0, 199, false⟩ quietEnd quietEnd).rxOff = true
  decide +kernel

/-- **After a quiet of 2^31 jiffies one exception mutes the receiver.** -/
theorem quiet_mutes : ¬ ∀ (i : Fin 32) (turns rate : Nat) (a s s' : Acct)
    (tr : List (Event Op Res Acct)) (cs : List Exception),
    Runs (clocked i) (nm32aPortActivate turns i rate) a tr 0 s →
    Series (clocked i) (clocked i).rely (nm32aRxException (chipOf i) (chanIx i)) s cs s' →
    ∀ before c after, cs = before ++ c :: after →
      MutesRight ((readings tr).getLastD 0) before c := by
  intro h
  obtain ⟨cs, c, s', hser, hlen, hcs, hc, hpre, hpost⟩ := storm_then_quiet
  obtain ⟨old, recent, hsplit, hrecent, hwithin⟩ :=
    (h 0 1 9600 _ _ s' _ _ opening_runs hser cs c [] rfl).only (.inr ⟨hpre, hpost⟩)
  have hold : old = [] := by
    have hl := congrArg List.length hsplit
    rw [List.length_append, List.length_append, hlen, hrecent] at hl
    exact List.eq_nil_of_length_eq_zero (Nat.add_eq_right.mp hl.symm)
  obtain ⟨c', cs', rfl⟩ := List.exists_cons_of_length_eq_add_one hlen
  have hmem : c' ∈ recent := by
    rw [hold, List.nil_append] at hsplit
    rw [← hsplit]
    exact List.mem_cons_self
  have hgap := (hwithin c' hmem).2
  rw [hc, hcs c' List.mem_cons_self] at hgap
  exact absurd hgap (by decide)

end Nm32a
