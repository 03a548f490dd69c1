import Relicnos.Nmconsole.Script

/-!
# Reads and the ready set

`select` is asked once for a whole pass over the ports.  A descriptor that is closed in the pass
and given out again later in the same pass keeps its bit, and the new file behind it is read
although nothing was reported of it.

`reported_iff_clean`: in a run of the server every read is on a file that was reported if no
session is opened on a number whose bit is set, and in a run to the head of the loop only then.
-/

set_option linter.unusedVariables false

namespace Nmconsole
open Interact

variable {e : Event Op Res Sys}

/-- a session is opened on a reported number -/
def taints : Event Op Res Sys → Bool
  | ⟨s, .openTty _, some t, _⟩ => s.stale t
  | _ => false

theorem clean_iff : Clean e ↔ taints e = false := by
  obtain ⟨s, o, r, s'⟩ := e
  cases o with
  | openTty n =>
    cases r with
    | none => exact ⟨fun _ => rfl, fun _ => trivial⟩
    | some t =>
      show (s.ready t = false ∧ ∀ a, s.accepted = some a → s.ready a = false) ↔ s.stale t = false
      unfold Sys.stale
      cases s.accepted <;> simp
  | _ => exact ⟨fun _ => rfl, fun _ => trivial⟩

/-- nothing else taints, and what is tainted stays tainted -/
theorem post_tainted (h : posix.access e.pre e.op e.res e.post) :
    e.post.tainted = (e.pre.tainted || taints e) := by
  obtain ⟨s, o, r, s'⟩ := e
  replace h : s.access o r s' := h
  have hsame : s'.tainted = s.tainted → s'.tainted = (s.tainted || false) := by
    rw [Bool.or_false]
    exact id
  cases o with
  | openTty n =>
    cases r with
    | none =>
      obtain rfl : s' = s := h
      exact hsame rfl
    | some t =>
      obtain ⟨_, rfl⟩ := h
      rfl
  | socket =>
    cases r with
    | none =>
      obtain rfl : s' = s := h
      exact hsame rfl
    | some fd =>
      obtain ⟨_, rfl⟩ := h
      exact hsame rfl
  | accept l =>
    cases r with
    | none =>
      obtain rfl : s' = s := h
      exact hsame rfl
    | some fd =>
      obtain ⟨_, rfl⟩ := h
      exact hsame rfl
  | select nfds rr =>
    cases r with
    | ready r' =>
      obtain ⟨_, rfl⟩ := h
      exact hsame rfl
    | _ =>
      obtain rfl : s' = s := h
      exact hsame rfl
  | read fd len =>
    cases r with
    | none =>
      obtain rfl : s' = s := h
      exact hsame rfl
    | some bs =>
      obtain ⟨_, rfl⟩ := h
      exact hsame calm_logGot.tainted
  | write fd bs =>
    cases r with
    | none =>
      obtain rfl : s' = s.logPut fd bs 0 := h
      exact hsame calm_logPut.tainted
    | some n =>
      obtain ⟨_, rfl⟩ := h
      exact hsame calm_logPut.tainted
  | close fd =>
    obtain rfl : s' = { s with files := Function.update s.files fd none } := h
    exact hsame rfl
  | _ =>
    obtain rfl : s' = s := h
    exact hsame rfl

/-! ## the result -/

variable {α : Type} {p p' : Posix α} {s s' : Sys} {tr : List (Event Op Res Sys)}

/-- as long as no session is opened on a reported number, nothing is tainted -/
theorem untainted (h : Exec posix p s tr s' p') (ht : s.tainted = false) (hc : ∀ e ∈ tr, Clean e) :
    ∀ e ∈ tr, e.pre.tainted = false := by
  refine (h.chain (P := fun s => s.tainted = false) ?_ (fun e he hp => ?_) ht).1
  · rintro s s' hp hr
    obtain rfl : s' = s := hr
    exact hp
  · rw [post_tainted (h.mem_access e he), hp, clean_iff.mp (hc e he)]
    rfl

/-- what was not tainted in the end never was -/
theorem clean_of_untainted (h : Exec posix p s tr s' p') (ht : s'.tainted = false) :
    ∀ e ∈ tr, Clean e := by
  induction h with
  | stop => simp
  | step hr ha hx ih =>
    have ih := ih ht
    intro e he
    rcases List.mem_cons.mp he with rfl | he
    · rw [clean_iff]
      by_contra hn
      have hpost := post_tainted (e := ⟨_, _, _, _⟩) ha
      rw [Bool.eq_true_of_not_eq_false hn, Bool.or_true] at hpost
      have hend := (hx.chain (P := fun s => s.tainted = true) ?_ (fun e he hp => ?_) hpost).2
      · rw [ht] at hend
        cases hend
      · rintro s s' hp hr
        obtain rfl : s' = s := hr
        exact hp
      · rw [post_tainted (hx.mem_access e he), hp]
        rfl
    · exact ih e he

/-- **A read is on a file that was reported, unless a session was opened on a reported number.**
In a run that gets back to the head of the loop this is exact. -/
theorem reported_iff_clean (conf : Conf) (n : Nat) (s s' : Sys) (hs : s.Start)
    (tr : List (Event Op Res Sys)) (p' : Posix (Option Ports))
    (h : Exec posix (nmMain conf n) s tr s' p') :
    ((∀ e ∈ tr, Clean e) → ∀ e ∈ tr, Reported e) ∧
      (p'.result.isSome → (∀ e ∈ tr, Reported e) → ∀ e ∈ tr, Clean e) := by
  constructor
  · intro hc e he
    exact (wp_exec (wp_nmMain posix.le_refl conf n hs) h).1 e he (untainted h hs.tainted hc e he)
  · intro hret hrep
    obtain ⟨ps, hps⟩ := Option.isSome_iff_exists.mp hret
    rw [Prog.eq_of_result hps] at h
    have hx : Runs (posix.assume Reported) (nmMain conf n) s tr ps s' :=
      h.imp (fun _ _ hr => hr) fun e he ha => ⟨ha, hrep e he⟩
    have hpost := (wp_runs (wp_nmMain (posix.assume_le Reported) conf n hs) hx).2
    have honly : OnlyReported (posix.assume Reported) := fun s fd len r s' ha => ha.2
    refine clean_of_untainted h ?_
    cases ps with
    | none => exact hpost honly
    | some ps => exact hpost.clean honly

/-- a client connects to port 0, and what it sends is read in the next turn -/
def connectScript : Script where
  select := fdSets [(8, [3]), (15, [5])]
  read := answers [(16, [0x61, 0x62])]
  write _ := 1024

theorem reported_iff_clean_session : ∃ tr s' p',
    Exec posix (nmMain twoPorts 2) startSys tr s' p' ∧
      (tr.any fun e => match e.op with
        | .read 5 _ => true
        | _ => false) = true ∧ ∀ e ∈ tr, Reported e := by
  have hx := connectScript.policy.play_exec 0 (nmMain twoPorts 2) startSys
  refine ⟨_, _, _, hx, by decide +kernel, ?_⟩
  refine (reported_iff_clean twoPorts 2 startSys _ startSys_start _ _ hx).1 fun e he => ?_
  have hall : ((connectScript.policy.play 0 (nmMain twoPorts 2) startSys).1.all
      fun e => !taints e) = true := by decide +kernel
  simpa [clean_iff] using List.all_eq_true.mp hall e he

/-- the client of port 0 leaves in the pass in which one connects to port 1 -/
def reuseScript : Script where
  select := fdSets [(8, [3]), (15, [5, 4])]
  read := answers [(16, [])]
  write _ := 1024

/-- a read of a file other than the one `select` saw -/
def misdirected (e : Event Op Res Sys) : Bool :=
  match e.op with
  | .read fd _ => decide (e.pre.files fd ≠ e.pre.readyFiles fd)
  | _ => false

theorem reported_fails : ¬∀ (conf : Conf) (n : Nat) (s s' : Sys), s.Start →
    ∀ (tr : List (Event Op Res Sys)) (p' : Posix (Option Ports)),
      Exec posix (nmMain conf n) s tr s' p' → ∀ e ∈ tr, Reported e := by
  intro h
  have h := h twoPorts 2 startSys _ startSys_start _ _
    (reuseScript.policy.play_exec 0 (nmMain twoPorts 2) startSys)
  have hbad : ((reuseScript.policy.play 0 (nmMain twoPorts 2) startSys).1.any
      misdirected) = true := by decide +kernel
  obtain ⟨⟨s, o, r, s'⟩, he, hne⟩ := List.any_eq_true.mp hbad
  have hr := h _ he
  cases o with
  | read fd len =>
    obtain ⟨f, hf, hk⟩ := hr
    exact of_decide_eq_true hne (hf.trans hk.symm)
  | _ => cases hne

end Nmconsole
