import Relicnos.Interact.Policy
import Relicnos.Nmconsole.Loop

/-!
# Executing the server against scripted answers

A `Script` says what `select` and `read` answer at the `n`-th call and how much a `write` takes;
new descriptors are the lowest free numbers.  `Script.policy` is the policy it gives.
-/

namespace Nmconsole
open Interact

structure Script where
  select : Nat → FdSet
  read : Nat → Option (List UInt8)
  write : Nat → Nat

/-- the lowest free number below 64 -/
def Sys.free (s : Sys) : Option Nat := (List.range 64).find? fun fd => (s.files fd).isNone

theorem Sys.free_lowest {s : Sys} {fd : Nat} (h : s.free = some fd) : s.Lowest fd := by
  unfold Sys.free at h
  rw [List.find?_range_eq_some] at h
  refine ⟨Option.isNone_iff_eq_none.mp h.1, fun n hn hnone => ?_⟩
  have := h.2.2 n hn
  rw [hnone] at this
  cases this

namespace Script
variable (S : Script)

def opAct (n : Nat) (s : Sys) : (o : Op) → Option (Res o × Sys)
  | .socket => s.free.map fun fd => (some fd, s.install fd .sock)
  | .bind _ _ => some (true, s)
  | .listen _ => some (true, s)
  | .setsockopt _ => some ((), s)
  | .accept _ => s.free.map fun fd => (some fd, { s.install fd .conn with accepted := some fd })
  | .openTty i => s.free.map fun fd =>
      (some fd, { s.install fd (.tty i) with tainted := s.tainted || s.stale fd })
  | .tcgetattr _ => some (true, s)
  | .tcsetattr _ _ => some ((), s)
  | .tcsendbreak _ => some ((), s)
  | .close fd => some ((), { s with files := Function.update s.files fd none })
  | .select nfds r =>
    let r' : FdSet := fun fd => S.select n fd && r fd && decide (fd < nfds)
    some (.ready r', { s with
      ready := r'
      readyFiles := fun fd => if r' fd then s.files fd else none })
  | .read fd len => match S.read n with
    | some bs => some (some (bs.take len), s.logGot fd (bs.take len))
    | none => some (none, s)
  | .write fd bs =>
    some (some (min (S.write n) bs.length), s.logPut fd bs (min (S.write n) bs.length))
  | .sleep => some ((), s)

theorem opAct_access {n : Nat} {s s' : Sys} {o : Op} {r : Res o}
    (h : S.opAct n s o = some (r, s')) : s.access o r s' := by
  cases o with
  | socket =>
    obtain ⟨fd, hf, he⟩ := Option.map_eq_some_iff.mp h
    cases he
    exact ⟨Sys.free_lowest hf, rfl⟩
  | accept l =>
    obtain ⟨fd, hf, he⟩ := Option.map_eq_some_iff.mp h
    cases he
    exact ⟨Sys.free_lowest hf, rfl⟩
  | openTty i =>
    obtain ⟨fd, hf, he⟩ := Option.map_eq_some_iff.mp h
    cases he
    exact ⟨Sys.free_lowest hf, rfl⟩
  | select nfds r =>
    cases h
    refine ⟨fun fd hfd => ?_, rfl⟩
    simp only [Bool.and_eq_true, decide_eq_true_eq] at hfd
    exact ⟨hfd.1.2, hfd.2⟩
  | read fd len =>
    unfold opAct at h
    cases hr : S.read n with
    | none =>
      rw [hr] at h
      cases h
      rfl
    | some bs =>
      rw [hr] at h
      cases h
      exact ⟨List.length_take_le _ _, rfl⟩
  | write fd bs =>
    cases h
    exact ⟨Nat.min_le_right _ _, rfl⟩
  | _ =>
    cases h
    rfl

def policy : Policy posix where
  act n s o := (S.opAct n s o).map fun t => (s, t.1, t.2)
  sound n s o s1 r s2 h := by
    obtain ⟨t, ht, he⟩ := Option.map_eq_some_iff.mp h
    cases he
    exact ⟨rfl, S.opAct_access ht⟩

end Script

/-! ## a process to start from -/

/-- the three standard descriptors are open -/
def startSys : Sys where
  files fd := if fd < 3 then some ⟨fd, .other⟩ else none
  fresh := 3
  ready _ := false
  readyFiles _ := none
  accepted := none
  tainted := false
  got _ := []
  put _ := []

theorem startSys_start : startSys.Start := by
  have hcase : ∀ fd f, startSys.files fd = some f → fd < 3 ∧ f.id = fd := by
    intro fd f hf
    replace hf : (if fd < 3 then some (⟨fd, .other⟩ : File) else none) = some f := hf
    split at hf
    · cases hf
      exact ⟨by assumption, rfl⟩
    · cases hf
  refine ⟨⟨fun fd f hf => ?_, fun fd fd' f f' hf hf' e => ?_, nofun, fun _ _ => ⟨rfl, rfl⟩, nofun⟩,
    rfl⟩
  · obtain ⟨hlt, he⟩ := hcase fd f hf
    show f.id < 3
    omega
  · rw [← (hcase fd f hf).2, ← (hcase fd' f' hf').2, e]

/-- a played run that ends with a session on port `i` -/
theorem Script.play_session (S : Script) (conf : Conf) (n c t : Nat) (i : Fin maxp)
    (h : ((S.policy.play 0 (nmMain conf n) startSys).2.2.result.map
      (Option.map fun ps => ((ps i).clientFd, (ps i).ttyFd))) = some (some (some c, some t))) :
    ∃ ps, Runs posix (nmMain conf n) startSys (S.policy.play 0 (nmMain conf n) startSys).1 (some ps)
      (S.policy.play 0 (nmMain conf n) startSys).2.1 ∧
      (ps i).clientFd = some c ∧ (ps i).ttyFd = some t := by
  obtain ⟨res, hres, he⟩ := Option.map_eq_some_iff.mp h
  obtain ⟨ps, rfl, hfds⟩ := Option.map_eq_some_iff.mp he
  obtain ⟨hc, ht⟩ := Prod.mk.inj hfds
  exact ⟨ps, S.policy.play_runs 0 _ _ hres, hc, ht⟩

/-- the server with its defaults, on its first two ports -/
def twoPorts : Conf where
  nports := 2
  basePort := 2000
  speed := 9600
  rawMode := false
  portSpeed _ := 0

/-- `select` reports these numbers at the `n`-th call -/
def fdSets (table : List (Nat × List Nat)) (n : Nat) : FdSet := fun fd =>
  table.any fun t => t.1 == n && t.2.contains fd

/-- `read` answers this at the `n`-th call, and fails otherwise -/
def answers (table : List (Nat × List UInt8)) (n : Nat) : Option (List UInt8) :=
  (table.find? fun t => t.1 == n).map Prod.snd

end Nmconsole
