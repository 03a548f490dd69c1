import Mathlib.Logic.Function.Basic
import Mathlib.Data.List.FinRange
import Mathlib.Data.Option.Basic

/-!
# What a card acquires, and what it gives back

`nm32a_probe`, `nm32a_remove` and the two parameters, as far as they are about resources: the tty
driver, its devices, the poll thread, the memory of `struct nm32a` and the global pointer to it.
The download between the mapping and the tty driver is in `Probe`, and holds nothing.

* `Kernel`     what is there, and how often it was misused: a pointer that is an error code or
               stands for nothing any more was handed to it or followed;
* `Proper`     a call that misuses nothing, and if it is a removal gives back exactly what its
               card holds;
* `Careful`    the setup of every card that is removed had succeeded, and no parameter is written
               while the latest card is gone;
* `lifecycle_balanced_iff`  all calls of a sequence are proper exactly if it is careful.

`nm32a_remove` tests `p->tty` for `NULL` only, and nothing resets `nm32a_dev`.
-/

set_option linter.unusedVariables false
set_option linter.unusedSectionVars false

namespace Nm32a
namespace Lifecycle

/-! ## the kernel -/

/-- an error code -/
abbrev Errno := { e : Int // e < 0 }

/-- a `struct tty_driver *` -/
inductive TtyPtr where
  | null
  | err (e : Errno)
  | driver (d : Nat)

/-- a tty driver that the card has its reference to -/
structure TtyDriver where
  owner : Nat
  registered : Bool
  device : Fin 32 → Bool

/-- `struct nm32a` -/
structure Card where
  pdev : Nat
  tty : TtyPtr
  poller : Option Nat

/-- `threads` are the running poll threads, each with its card; numbers from `fresh` on are free -/
structure Kernel where
  cards : Nat → Option Card
  drivers : Nat → Option TtyDriver
  threads : Nat → Option Nat
  fresh : Nat
  drvdata : Nat → Option Nat
  nm32aDev : Option Nat
  misuses : Nat

namespace Kernel

def misuse (k : Kernel) : Kernel := { k with misuses := k.misuses + 1 }

/-- a call on a tty driver, which has to be there and `ok` -/
def onDriver (tty : TtyPtr) (ok : TtyDriver → Bool) (f : TtyDriver → Option TtyDriver)
    (k : Kernel) : Kernel :=
  match tty with
  | .driver d =>
    match k.drivers d with
    | some t => if ok t then { k with drivers := Function.update k.drivers d (f t) } else k.misuse
    | none => k.misuse
  | _ => k.misuse

def ttyRegisterDriver (tty : TtyPtr) : Kernel → Kernel :=
  onDriver tty (fun t => !t.registered) fun t => some { t with registered := true }

def ttyPortRegisterDevice (tty : TtyPtr) (i : Fin 32) : Kernel → Kernel :=
  onDriver tty (fun t => t.registered && !t.device i)
    fun t => some { t with device := Function.update t.device i true }

def ttyUnregisterDevice (tty : TtyPtr) (i : Fin 32) : Kernel → Kernel :=
  onDriver tty (fun t => t.device i)
    fun t => some { t with device := Function.update t.device i false }

def ttyUnregisterDriver (tty : TtyPtr) : Kernel → Kernel :=
  onDriver tty (fun t => t.registered) fun t => some { t with registered := false }

/-- the last reference -/
def ttyDriverKrefPut (tty : TtyPtr) : Kernel → Kernel :=
  onDriver tty (fun t => !t.registered) fun _ => none

def ttyAllocDriver (p : Nat) (fault : Option Errno) (k : Kernel) : TtyPtr × Kernel :=
  match fault with
  | some e => (.err e, k)
  | none => (.driver k.fresh, { k with
      drivers := Function.update k.drivers k.fresh (some ⟨p, false, fun _ => false⟩)
      fresh := k.fresh + 1 })

def kthreadRun (p : Nat) (fault : Option Errno) (k : Kernel) : Option Nat × Kernel :=
  match fault with
  | some _ => (none, k)
  | none => (some k.fresh, { k with
      threads := Function.update k.threads k.fresh (some p)
      fresh := k.fresh + 1 })

def kthreadStop (t : Nat) (k : Kernel) : Kernel :=
  match k.threads t with
  | some _ => { k with threads := Function.update k.threads t none }
  | none => k.misuse

/-- `devm_kzalloc` -/
def newCard (pdev : Nat) (k : Kernel) : Kernel :=
  { k with
    cards := Function.update k.cards k.fresh (some ⟨pdev, .null, none⟩)
    fresh := k.fresh + 1 }

/-- an access to a card -/
def onCard (p : Nat) (f : Card → Card) (k : Kernel) : Kernel :=
  match k.cards p with
  | some c => { k with cards := Function.update k.cards p (some (f c)) }
  | none => k.misuse

def deref (p : Nat) : Kernel → Kernel := onCard p id

/-- what the bus does after a removal or a failed probe -/
def devresRelease (pdev : Nat) (k : Kernel) : Kernel :=
  { k with
    cards := fun p => (k.cards p).filter fun c => c.pdev ≠ pdev
    drvdata := Function.update k.drvdata pdev none }

end Kernel

/-! ## the driver -/

open Kernel

def enomem : Int := 12
def enodev : Int := 19
def einval : Int := 22

/-- what goes wrong in a probe -/
structure Faults where
  kzalloc : Bool
  enable : Option Errno
  iomap : Bool
  ttyAlloc : Option Errno
  ttyRegister : Option Errno
  kthread : Option Errno

def registerDevices (tty : TtyPtr) (k : Kernel) : Kernel :=
  (List.finRange 32).foldl (fun k i => ttyPortRegisterDevice tty i k) k

def unregisterDevices (tty : TtyPtr) (k : Kernel) : Kernel :=
  (List.finRange 32).foldl (fun k i => ttyUnregisterDevice tty i k) k

def nm32aTtySetup (p : Nat) (f : Faults) (k : Kernel) : Int × Kernel :=
  let (tty, k) := ttyAllocDriver p f.ttyAlloc k
  let k := onCard p (fun c => { c with tty := tty }) k
  match tty with
  | .err e => (e, k)
  | _ =>
    match f.ttyRegister with
    | some rc => (rc, ttyDriverKrefPut tty k)
    | none => (0, registerDevices tty (ttyRegisterDriver tty k))

def startPoller (p : Nat) (fault : Option Errno) (k : Kernel) : Kernel :=
  let (poller, k) := kthreadRun p fault k
  onCard p (fun c => { c with poller := poller }) k

def nm32aProbe (pdev : Nat) (f : Faults) (k : Kernel) : Int × Kernel :=
  if f.kzalloc then (-enomem, k)
  else
    let p := k.fresh
    let k := newCard pdev k
    match f.enable with
    | some rc => (rc, k)
    | none =>
      if f.iomap then (-enomem, k)
      else
        let (rc, k) := nm32aTtySetup p f k
        let k := if rc ≠ 0 then k else startPoller p f.kthread k
        (0, { k with nm32aDev := some p, drvdata := Function.update k.drvdata pdev (some p) })

def stopPoller (c : Card) (k : Kernel) : Kernel :=
  match c.poller with
  | some t => kthreadStop t k
  | none => k

def dropTty (c : Card) (k : Kernel) : Kernel :=
  match c.tty with
  | .null => k
  | tty => ttyDriverKrefPut tty (ttyUnregisterDriver tty (unregisterDevices tty k))

def nm32aRemove (pdev : Nat) (k : Kernel) : Kernel :=
  match k.drvdata pdev with
  | none => k
  | some p =>
    match k.cards p with
    | none => k.misuse
    | some c => dropTty c (stopPoller c k)

/-- every stage begins with a register of the card -/
def nm32aSetSelftest (val : Except Int Int) (k : Kernel) : Int × Kernel :=
  match val with
  | .error rc => (rc, k)
  | .ok stage =>
    match k.nm32aDev with
    | none => (-enodev, k)
    | some p => (0, deref p k)

/-- `val` is what `kstrtouint` makes of the text -/
def sendbreakSet (val : Option Nat) (k : Kernel) : Int × Kernel :=
  match k.nm32aDev, val with
  | some p, some port => if 32 ≤ port then (-einval, k) else (0, deref p k)
  | _, _ => (-einval, k)

/-! ## sequences of calls -/

inductive Call where
  | probe (pdev : Nat) (f : Faults)
  | remove (pdev : Nat)
  | selftest (val : Except Int Int)
  | sendbreak (val : Option Nat)

/-- the bus binds a device if its probe returns 0 -/
def bind (pdev : Nat) (f : Faults) (k : Kernel) : Kernel :=
  let (rc, k) := nm32aProbe pdev f k
  if rc = 0 then k else devresRelease pdev k

def unbind (pdev : Nat) (k : Kernel) : Kernel := devresRelease pdev (nm32aRemove pdev k)

def Call.run (c : Call) (k : Kernel) : Kernel :=
  match c with
  | .probe pdev f => bind pdev f k
  | .remove pdev => unbind pdev k
  | .selftest val => (nm32aSetSelftest val k).2
  | .sendbreak val => (sendbreakSet val k).2

/-- the bus probes what is not bound and removes what is -/
def Call.Allowed (c : Call) (k : Kernel) : Prop :=
  match c with
  | .probe pdev _ => k.drvdata pdev = none
  | .remove pdev => k.drvdata pdev ≠ none
  | _ => True

def boot : Kernel where
  cards _ := none
  drivers _ := none
  threads _ := none
  fresh := 0
  drvdata _ := none
  nm32aDev := none
  misuses := 0

/-- the kernel after the calls, of which the last comes first -/
def after : List Call → Kernel
  | [] => boot
  | c :: past => c.run (after past)

def Legal : List Call → Prop
  | [] => True
  | c :: past => Legal past ∧ c.Allowed (after past)

/-- from `k` to `k'` the card `p` gave back what it held, and nothing else -/
structure Exact (k : Kernel) (p : Nat) (k' : Kernel) : Prop where
  drivers : ∀ d t, k'.drivers d = some t ↔ k.drivers d = some t ∧ t.owner ≠ p
  threads : ∀ t q, k'.threads t = some q ↔ k.threads t = some q ∧ q ≠ p

structure Proper (c : Call) (k : Kernel) : Prop where
  sound : (c.run k).misuses = k.misuses
  exact : ∀ pdev p, c = .remove pdev → k.drvdata pdev = some p → Exact k p (c.run k)

/-- every call is proper -/
def Balanced : List Call → Prop
  | [] => True
  | c :: past => Balanced past ∧ Proper c (after past)

/-! ## the condition -/

/-- the probe returns 0 -/
def Faults.binds (f : Faults) : Bool := !f.kzalloc && f.enable.isNone && !f.iomap

/-- the tty driver comes up -/
def Faults.setsUp (f : Faults) : Bool := f.ttyAlloc.isNone && f.ttyRegister.isNone

/-- the latest probe of a device -/
def lastProbe (pdev : Nat) : List Call → Option Faults
  | [] => none
  | .probe q f :: past => if q = pdev then some f else lastProbe pdev past
  | _ :: past => lastProbe pdev past

/-- the device of the latest probe that returned 0, and whether it is still there -/
def latest : List Call → Option (Nat × Bool)
  | [] => none
  | .probe q f :: past => if f.binds then some (q, true) else latest past
  | .remove q :: past => (latest past).map fun d => (d.1, d.2 && decide (d.1 ≠ q))
  | _ :: past => latest past

/-- the latest card has been removed -/
def Orphaned (past : List Call) : Prop := ∃ q, latest past = some (q, false)

/-- a call after which nothing is amiss -/
def Call.Fine (c : Call) (past : List Call) : Prop :=
  match c with
  | .remove pdev => ∃ f, lastProbe pdev past = some f ∧ f.setsUp = true
  | .selftest (.ok _) => ¬Orphaned past
  | .sendbreak (some port) => port < 32 → ¬Orphaned past
  | _ => True

def Careful : List Call → Prop
  | [] => True
  | c :: past => Careful past ∧ c.Fine past

/-! ## calls on tty drivers -/

variable {k k' : Kernel} {tty : TtyPtr} {d p pdev : Nat} {t : TtyDriver} {c : Card} {f : Faults}
  {past : List Call}

/-- the pointer stands for no driver -/
def Dead (k : Kernel) (tty : TtyPtr) : Prop := ∀ d, tty = .driver d → k.drivers d = none

theorem onDriver_live {ok : TtyDriver → Bool} {g : TtyDriver → Option TtyDriver}
    (hd : k.drivers d = some t) (ht : ok t = true) : onDriver (.driver d) ok g k =
      { k with drivers := Function.update k.drivers d (g t) } := by
  unfold onDriver
  simp only [hd]
  exact if_pos ht

theorem onDriver_dead {ok : TtyDriver → Bool} {g : TtyDriver → Option TtyDriver}
    (h : Dead k tty) : onDriver tty ok g k = k.misuse := by
  unfold onDriver
  cases tty with
  | null => rfl
  | err e => rfl
  | driver d => simp only [h d rfl]

/-- a loop over devices of a dead driver is a misuse for each of them -/
theorem unregister_dead (is : List (Fin 32)) (h : Dead k tty) :
    is.foldl (fun k i => ttyUnregisterDevice tty i k) k =
      { k with misuses := k.misuses + is.length } := by
  induction is generalizing k with
  | nil => rfl
  | cons i is ih =>
    rw [List.foldl_cons]
    have hstep : ttyUnregisterDevice tty i k = k.misuse := onDriver_dead h
    have hmis : Dead k.misuse tty := h
    rw [hstep, ih hmis, List.length_cons]
    show ({ k with misuses := k.misuses + 1 + is.length } : Kernel) = _
    rw [Nat.add_assoc, Nat.add_comm 1]

theorem register_fold (is : List (Fin 32)) (hn : is.Nodup) (hd : k.drivers d = some t)
    (hreg : t.registered = true) (hfree : ∀ i ∈ is, t.device i = false) :
    is.foldl (fun k i => ttyPortRegisterDevice (.driver d) i k) k =
      { k with
        drivers := Function.update k.drivers d
          (some { t with device := fun i => t.device i || decide (i ∈ is) }) } := by
  induction is generalizing k t with
  | nil =>
    have hsame : (some { t with device := fun i => t.device i || decide (i ∈ []) } :
        Option TtyDriver) = k.drivers d := by
      rw [hd]
      simp
    rw [List.foldl_nil, hsame, Function.update_eq_self]
  | cons i is ih =>
    obtain ⟨hni, hn'⟩ := List.nodup_cons.mp hn
    have hstep : ttyPortRegisterDevice (.driver d) i k = { k with
        drivers := Function.update k.drivers d
          (some { t with device := Function.update t.device i true }) } := by
      apply onDriver_live hd
      rw [hreg, hfree i (List.mem_cons_self ..)]
      rfl
    rw [List.foldl_cons, hstep, ih (t := { t with device := Function.update t.device i true }) hn'
      (Function.update_self ..) hreg ?_]
    · congr 1
      rw [Function.update_idem]
      congr 2
      apply congrArg (TtyDriver.mk t.owner t.registered)
      funext j
      by_cases hj : j = i
      · subst hj
        simp
      · simp [hj]
    · intro j hj
      have hne : j ≠ i := fun e => hni (e ▸ hj)
      show Function.update t.device i true j = false
      rw [Function.update_of_ne hne]
      exact hfree j (List.mem_cons_of_mem _ hj)

theorem unregister_fold (is : List (Fin 32)) (hn : is.Nodup) (hd : k.drivers d = some t)
    (hall : ∀ i ∈ is, t.device i = true) :
    is.foldl (fun k i => ttyUnregisterDevice (.driver d) i k) k =
      { k with
        drivers := Function.update k.drivers d
          (some { t with device := fun i => t.device i && !decide (i ∈ is) }) } := by
  induction is generalizing k t with
  | nil =>
    have hsame : (some { t with device := fun i => t.device i && !decide (i ∈ []) } :
        Option TtyDriver) = k.drivers d := by
      rw [hd]
      simp
    rw [List.foldl_nil, hsame, Function.update_eq_self]
  | cons i is ih =>
    obtain ⟨hni, hn'⟩ := List.nodup_cons.mp hn
    have hstep : ttyUnregisterDevice (.driver d) i k = { k with
        drivers := Function.update k.drivers d
          (some { t with device := Function.update t.device i false }) } :=
      onDriver_live hd (hall i (List.mem_cons_self ..))
    rw [List.foldl_cons, hstep, ih hn' (Function.update_self ..) ?_]
    · congr 1
      rw [Function.update_idem]
      congr 2
      apply congrArg (TtyDriver.mk t.owner t.registered)
      funext j
      by_cases hj : j = i
      · subst hj
        simp
      · simp [hj]
    · intro j hj
      have hne : j ≠ i := fun e => hni (e ▸ hj)
      show Function.update t.device i false j = true
      rw [Function.update_of_ne hne]
      exact hall j (List.mem_cons_of_mem _ hj)

/-- a driver with all its devices, as the card `p` has it after a setup -/
def up (p : Nat) : TtyDriver := ⟨p, true, fun _ => true⟩

theorem registerDevices_up (hd : k.drivers d = some ⟨p, true, fun _ => false⟩) :
    registerDevices (.driver d) k =
      { k with drivers := Function.update k.drivers d (some (up p)) } := by
  unfold registerDevices
  rw [register_fold _ (List.nodup_finRange 32) hd rfl fun _ _ => rfl]
  simp [up]

theorem dropTty_up (hc : c.tty = .driver d) (hd : k.drivers d = some (up p)) :
    dropTty c k = { k with drivers := Function.update k.drivers d none } := by
  unfold dropTty unregisterDevices
  rw [hc]
  show ttyDriverKrefPut (.driver d) (ttyUnregisterDriver (.driver d) _) = _
  rw [unregister_fold _ (List.nodup_finRange 32) hd fun _ _ => rfl]
  have h1 : ∀ (k : Kernel) (t : TtyDriver), k.drivers d = some t → t.registered = true →
      ttyUnregisterDriver (.driver d) k = { k with
        drivers := Function.update k.drivers d (some { t with registered := false }) } :=
    fun k t hd ht => onDriver_live hd ht
  have h2 : ∀ (k : Kernel) (t : TtyDriver), k.drivers d = some t → t.registered = false →
      ttyDriverKrefPut (.driver d) k = { k with drivers := Function.update k.drivers d none } :=
    fun k t hd ht => onDriver_live hd (by rw [ht]; rfl)
  rw [h1 _ _ (Function.update_self ..) rfl, h2 _ _ (Function.update_self ..) rfl]
  simp only [Function.update_idem]

/-- for a pointer that stands for nothing the whole removal is misuse -/
theorem dropTty_dead (hc : c.tty ≠ .null) (h : Dead k c.tty) :
    dropTty c k = { k with misuses := k.misuses + 34 } := by
  have hdrop : ∀ tty, tty ≠ .null → (match tty with
      | .null => k
      | tty => ttyDriverKrefPut tty (ttyUnregisterDriver tty (unregisterDevices tty k))) =
        ttyDriverKrefPut tty (ttyUnregisterDriver tty (unregisterDevices tty k)) := by
    intro tty htty
    cases tty with
    | null => exact absurd rfl htty
    | err e => rfl
    | driver d => rfl
  unfold dropTty
  rw [hdrop _ hc]
  unfold unregisterDevices
  rw [unregister_dead _ h, List.length_finRange]
  have h1 : ∀ k : Kernel, Dead k c.tty → ttyUnregisterDriver c.tty k = k.misuse :=
    fun k h => onDriver_dead h
  have h2 : ∀ k : Kernel, Dead k c.tty → ttyDriverKrefPut c.tty k = k.misuse :=
    fun k h => onDriver_dead h
  have hmis : Dead { k with misuses := k.misuses + 32 } c.tty := h
  have hmis' : Dead (misuse { k with misuses := k.misuses + 32 }) c.tty := h
  rw [h1 _ hmis, h2 _ hmis']
  rfl

/-! ## a probe -/

theorem onCard_some {g : Card → Card} (h : k.cards p = some c) :
    onCard p g k = { k with cards := Function.update k.cards p (some (g c)) } := by
  unfold onCard
  simp only [h]

/-- numbers from `fresh` on stand for nothing -/
structure Young (k : Kernel) : Prop where
  cards : ∀ n, k.fresh ≤ n → k.cards n = none
  drivers : ∀ n, k.fresh ≤ n → k.drivers n = none
  threads : ∀ n, k.fresh ≤ n → k.threads n = none

/-- the setup of the tty driver: the pointer it leaves, and what is there then -/
structure SetUp (p : Nat) (f : Faults) (k k' : Kernel) (c c' : Card) (rc : Int) : Prop where
  ofDevice : c'.pdev = c.pdev
  poller : c'.poller = c.poller
  cards : k'.cards = Function.update k.cards p (some c')
  threads : k'.threads = k.threads
  drvdata : k'.drvdata = k.drvdata
  misuses : k'.misuses = k.misuses
  fresh : k.fresh ≤ k'.fresh
  young : ∀ n, k'.fresh ≤ n → k'.drivers n = none
  up : f.setsUp = true → rc = 0 ∧ ∃ d, c'.tty = .driver d ∧ k.fresh ≤ d ∧ d < k'.fresh ∧
    k'.drivers = Function.update k.drivers d (some (Lifecycle.up p))
  down : f.setsUp = false → rc ≠ 0 ∧ c'.tty ≠ .null ∧ k'.drivers = k.drivers ∧
    ∀ d, c'.tty = .driver d → k.fresh ≤ d ∧ d < k'.fresh

theorem nm32aTtySetup_setUp (hy : ∀ n, k.fresh ≤ n → k.drivers n = none)
    (hc : k.cards p = some c) :
    ∃ c', SetUp p f k (nm32aTtySetup p f k).2 c c' (nm32aTtySetup p f k).1 := by
  cases ha : f.ttyAlloc with
  | some e =>
    have hrun : nm32aTtySetup p f k = (e.1, { k with
        cards := Function.update k.cards p (some { c with tty := .err e }) }) := by
      unfold nm32aTtySetup ttyAllocDriver
      rw [ha]
      show (e.1, onCard p (fun c => { c with tty := .err e }) k) = _
      rw [onCard_some hc]
    have hdown : f.setsUp = false := by
      unfold Faults.setsUp
      rw [ha]
      rfl
    rw [hrun]
    refine ⟨{ c with tty := .err e }, ⟨rfl, rfl, rfl, rfl, rfl, rfl, Nat.le_refl _, hy, ?_, ?_⟩⟩
    · intro h
      rw [hdown] at h
      cases h
    · intro _
      exact ⟨Int.ne_of_lt e.2, nofun, rfl, nofun⟩
  | none =>
    have hfree : k.drivers k.fresh = none := hy _ (Nat.le_refl _)
    have hset : ∀ ds n (g : Card → Card), onCard p g { k with drivers := ds, fresh := n } =
        { k with cards := Function.update k.cards p (some (g c)), drivers := ds, fresh := n } :=
      fun ds n g => onCard_some hc
    cases hr : f.ttyRegister with
    | some rc =>
      have hrun : nm32aTtySetup p f k = (rc.1, { k with
          cards := Function.update k.cards p (some { c with tty := .driver k.fresh })
          fresh := k.fresh + 1 }) := by
        unfold nm32aTtySetup ttyAllocDriver
        rw [ha, hr]
        show (rc.1, ttyDriverKrefPut (.driver k.fresh)
          (onCard p (fun c => { c with tty := .driver k.fresh }) { k with
            drivers := Function.update k.drivers k.fresh (some ⟨p, false, fun _ => false⟩)
            fresh := k.fresh + 1 })) = _
        rw [hset]
        unfold ttyDriverKrefPut
        rw [onDriver_live (t := ⟨p, false, fun _ => false⟩) (Function.update_self ..) rfl]
        simp only [Function.update_idem]
        rw [← hfree, Function.update_eq_self]
      have hdown : f.setsUp = false := by
        unfold Faults.setsUp
        rw [ha, hr]
        rfl
      rw [hrun]
      refine ⟨{ c with tty := .driver k.fresh },
        ⟨rfl, rfl, rfl, rfl, rfl, rfl, Nat.le_succ _, ?_, ?_, ?_⟩⟩
      · intro n hn
        exact hy n (Nat.le_of_succ_le hn)
      · intro h
        rw [hdown] at h
        cases h
      · intro _
        refine ⟨Int.ne_of_lt rc.2, nofun, rfl, ?_⟩
        intro d hd
        cases hd
        exact ⟨Nat.le_refl _, Nat.lt_succ_self _⟩
    | none =>
      have hrun : nm32aTtySetup p f k = (0, { k with
          cards := Function.update k.cards p (some { c with tty := .driver k.fresh })
          drivers := Function.update k.drivers k.fresh (some (Lifecycle.up p))
          fresh := k.fresh + 1 }) := by
        unfold nm32aTtySetup ttyAllocDriver
        rw [ha, hr]
        show (0, registerDevices (.driver k.fresh) (ttyRegisterDriver (.driver k.fresh)
          (onCard p (fun c => { c with tty := .driver k.fresh }) { k with
            drivers := Function.update k.drivers k.fresh (some ⟨p, false, fun _ => false⟩)
            fresh := k.fresh + 1 }))) = _
        rw [hset]
        unfold ttyRegisterDriver
        rw [onDriver_live (t := ⟨p, false, fun _ => false⟩) (Function.update_self ..) rfl,
          registerDevices_up (p := p) (Function.update_self ..)]
        simp only [Function.update_idem]
      have hup : f.setsUp = true := by
        unfold Faults.setsUp
        rw [ha, hr]
        rfl
      rw [hrun]
      refine ⟨{ c with tty := .driver k.fresh },
        ⟨rfl, rfl, rfl, rfl, rfl, rfl, Nat.le_succ _, ?_, ?_, ?_⟩⟩
      · intro n hn
        have hne : n ≠ k.fresh := by
          have : k.fresh + 1 ≤ n := hn
          omega
        show Function.update k.drivers k.fresh _ n = none
        rw [Function.update_of_ne hne]
        exact hy n (Nat.le_of_succ_le hn)
      · intro _
        exact ⟨rfl, k.fresh, rfl, Nat.le_refl _, Nat.lt_succ_self _, rfl⟩
      · intro h
        rw [hup] at h
        cases h

/-- a card that has been probed -/
structure Arrival (pdev : Nat) (f : Faults) (k k' : Kernel) (c : Card) : Prop where
  ofDevice : c.pdev = pdev
  cards : k'.cards = Function.update k.cards k.fresh (some c)
  drvdata : k'.drvdata = Function.update k.drvdata pdev (some k.fresh)
  dev : k'.nm32aDev = some k.fresh
  misuses : k'.misuses = k.misuses
  fresh : k.fresh < k'.fresh
  young : Young k'
  up : f.setsUp = true → ∃ d, c.tty = .driver d ∧ k.fresh ≤ d ∧ d < k'.fresh ∧
    k'.drivers = Function.update k.drivers d (some (Lifecycle.up k.fresh))
  down : f.setsUp = false → c.tty ≠ .null ∧ k'.drivers = k.drivers ∧
    ∀ d, c.tty = .driver d → k.fresh ≤ d ∧ d < k'.fresh
  poll : (c.poller = none ∧ k'.threads = k.threads) ∨ ∃ t, c.poller = some t ∧ k.fresh ≤ t ∧
    k'.threads = Function.update k.threads t (some k.fresh)

/-- the poll thread: the pointer it leaves, and what is there then -/
structure Polls (p : Nat) (k k' : Kernel) (c c' : Card) : Prop where
  ofDevice : c'.pdev = c.pdev
  tty : c'.tty = c.tty
  cards : k'.cards = Function.update k.cards p (some c')
  drivers : k'.drivers = k.drivers
  misuses : k'.misuses = k.misuses
  drvdata : k'.drvdata = k.drvdata
  fresh : k.fresh ≤ k'.fresh
  young : (∀ n, k.fresh ≤ n → k.threads n = none) → ∀ n, k'.fresh ≤ n → k'.threads n = none
  poll : (c'.poller = none ∧ k'.threads = k.threads) ∨ ∃ t, c'.poller = some t ∧ k.fresh ≤ t ∧
    k'.threads = Function.update k.threads t (some p)

theorem startPoller_polls (fault : Option Errno) (hc : k.cards p = some c) :
    ∃ c', Polls p k (startPoller p fault k) c c' := by
  cases fault with
  | some e =>
    have hrun : startPoller p (some e) k = { k with
        cards := Function.update k.cards p (some { c with poller := none }) } :=
      onCard_some hc
    rw [hrun]
    exact ⟨{ c with poller := none },
      ⟨rfl, rfl, rfl, rfl, rfl, rfl, Nat.le_refl _, fun hy => hy, .inl ⟨rfl, rfl⟩⟩⟩
  | none =>
    have hrun : startPoller p none k = { k with
        cards := Function.update k.cards p (some { c with poller := some k.fresh })
        threads := Function.update k.threads k.fresh (some p)
        fresh := k.fresh + 1 } := by
      have hset : ∀ ts n (g : Card → Card), onCard p g { k with threads := ts, fresh := n } =
          { k with cards := Function.update k.cards p (some (g c)), threads := ts, fresh := n } :=
        fun ts n g => onCard_some hc
      exact hset _ _ _
    rw [hrun]
    refine ⟨{ c with poller := some k.fresh },
      ⟨rfl, rfl, rfl, rfl, rfl, rfl, Nat.le_succ _, ?_, .inr ⟨k.fresh, rfl, Nat.le_refl _, rfl⟩⟩⟩
    intro hy n hn
    have hle : k.fresh + 1 ≤ n := hn
    show Function.update k.threads k.fresh _ n = none
    rw [Function.update_of_ne (by omega)]
    exact hy n (by omega)

theorem Faults.binds_iff :
    f.binds = true ↔ f.kzalloc = false ∧ f.enable = none ∧ f.iomap = false := by
  unfold Faults.binds
  simp [and_assoc]

theorem bind_arrival (hy : Young k) (hf : f.binds = true) :
    ∃ c, Arrival pdev f k (bind pdev f k) c := by
  obtain ⟨hz, he, hm⟩ := Faults.binds_iff.mp hf
  have hc : (newCard pdev k).cards k.fresh = some ⟨pdev, .null, none⟩ := Function.update_self ..
  have hyd : ∀ n, (newCard pdev k).fresh ≤ n → (newCard pdev k).drivers n = none :=
    fun n hn => hy.drivers n (Nat.le_of_succ_le hn)
  obtain ⟨c1, h1⟩ := nm32aTtySetup_setUp (f := f) hyd hc
  have hrun : bind pdev f k =
      let k2 := (nm32aTtySetup k.fresh f (newCard pdev k)).2
      let k3 := if (nm32aTtySetup k.fresh f (newCard pdev k)).1 ≠ 0 then k2
        else startPoller k.fresh f.kthread k2
      { k3 with
        nm32aDev := some k.fresh
        drvdata := Function.update k3.drvdata pdev (some k.fresh) } := by
    unfold bind nm32aProbe
    rw [hz, he, hm]
    rfl
  rw [hrun]
  generalize nm32aTtySetup k.fresh f (newCard pdev k) = setup at h1
  have hcards1 : setup.2.cards = Function.update k.cards k.fresh (some c1) := by
    rw [h1.cards]
    exact Function.update_idem ..
  have hthreads1 : setup.2.threads = k.threads := h1.threads
  have hfresh1 : k.fresh < setup.2.fresh := Nat.lt_of_lt_of_le (Nat.lt_succ_self _) h1.fresh
  cases hup : f.setsUp with
  | false =>
    obtain ⟨hrc, hnull, hdrivers, hold⟩ := h1.down hup
    simp only [if_pos hrc]
    refine ⟨c1, ⟨h1.ofDevice, hcards1, ?_, rfl, h1.misuses, hfresh1, ?_, ?_, ?_,
      .inl ⟨h1.poller, hthreads1⟩⟩⟩
    · show Function.update setup.2.drvdata pdev _ = _
      rw [h1.drvdata]
      rfl
    · refine ⟨?_, h1.young, ?_⟩
      · intro n hn
        show setup.2.cards n = none
        have hle : setup.2.fresh ≤ n := hn
        rw [hcards1, Function.update_of_ne (by omega)]
        exact hy.cards n (by omega)
      · intro n hn
        have hle : setup.2.fresh ≤ n := hn
        show setup.2.threads n = none
        rw [hthreads1]
        exact hy.threads n (by omega)
    · intro h
      rw [hup] at h
      cases h
    · intro _
      refine ⟨hnull, hdrivers, ?_⟩
      intro d hd
      have hle := hold d hd
      exact ⟨Nat.le_of_succ_le hle.1, hle.2⟩
  | true =>
    obtain ⟨hrc, d, htty, hd1, hd2, hdrivers⟩ := h1.up hup
    have hc1 : setup.2.cards k.fresh = some c1 := by
      rw [hcards1]
      exact Function.update_self ..
    obtain ⟨c2, h2⟩ := startPoller_polls f.kthread hc1
    simp only [if_neg (not_not.mpr hrc)]
    have hle2 := h2.fresh
    have hcards2 : (startPoller k.fresh f.kthread setup.2).cards =
        Function.update k.cards k.fresh (some c2) := by
      rw [h2.cards, hcards1, Function.update_idem]
    refine ⟨c2, ⟨h2.ofDevice.trans h1.ofDevice, hcards2, ?_, rfl, h2.misuses.trans h1.misuses,
      Nat.lt_of_lt_of_le hfresh1 hle2, ?_, ?_, ?_, ?_⟩⟩
    · show Function.update (startPoller k.fresh f.kthread setup.2).drvdata pdev _ = _
      rw [h2.drvdata, h1.drvdata]
      rfl
    · refine ⟨?_, ?_, h2.young ?_⟩
      · intro n hn
        have hle : (startPoller k.fresh f.kthread setup.2).fresh ≤ n := hn
        show (startPoller k.fresh f.kthread setup.2).cards n = none
        rw [hcards2, Function.update_of_ne (by omega)]
        exact hy.cards n (by omega)
      · intro n hn
        have hle : (startPoller k.fresh f.kthread setup.2).fresh ≤ n := hn
        show (startPoller k.fresh f.kthread setup.2).drivers n = none
        rw [h2.drivers]
        exact h1.young n (by omega)
      · intro n hn
        rw [hthreads1]
        exact hy.threads n (by omega)
    · intro _
      refine ⟨d, h2.tty.trans htty, Nat.le_of_succ_le hd1, Nat.lt_of_lt_of_le hd2 hle2, ?_⟩
      exact h2.drivers.trans hdrivers
    · intro h
      rw [hup] at h
      cases h
    · obtain ⟨hno, hth⟩ | ⟨t, ht, hle, hth⟩ := h2.poll
      · exact .inl ⟨hno, hth.trans hthreads1⟩
      · refine .inr ⟨t, ht, by omega, ?_⟩
        show (startPoller k.fresh f.kthread setup.2).threads = _
        rw [hth, hthreads1]

/-- nothing but a number was used up -/
structure Idle (k k' : Kernel) : Prop where
  cards : k'.cards = k.cards
  drivers : k'.drivers = k.drivers
  threads : k'.threads = k.threads
  drvdata : k'.drvdata = k.drvdata
  dev : k'.nm32aDev = k.nm32aDev
  misuses : k'.misuses = k.misuses
  fresh : k.fresh ≤ k'.fresh

theorem bind_idle (hf : f.binds = false) (hnew : ∀ p c, k.cards p = some c → c.pdev ≠ pdev)
    (hy : k.cards k.fresh = none) (hno : k.drvdata pdev = none) : Idle k (bind pdev f k) := by
  have hcards : (fun p => (k.cards p).filter fun c => c.pdev ≠ pdev) = k.cards := by
    funext p
    cases hp : k.cards p with
    | none => rfl
    | some c => simp [hnew p c hp]
  have hnewCards : (fun p => ((newCard pdev k).cards p).filter fun c => c.pdev ≠ pdev) =
      k.cards := by
    funext p
    by_cases hp : p = k.fresh
    · subst hp
      rw [hy]
      show (Function.update k.cards k.fresh _ k.fresh).filter _ = none
      rw [Function.update_self]
      simp
    · show (Function.update k.cards k.fresh _ p).filter _ = k.cards p
      rw [Function.update_of_ne hp]
      exact congrFun hcards p
  have hdata : Function.update k.drvdata pdev none = k.drvdata := by
    rw [← hno, Function.update_eq_self]
  have hgone : ∀ rc : Int, rc ≠ 0 → Idle k
      (if rc = 0 then newCard pdev k else devresRelease pdev (newCard pdev k)) := by
    intro rc hrc
    rw [if_neg hrc]
    exact ⟨hnewCards, rfl, rfl, hdata, rfl, rfl, Nat.le_succ _⟩
  cases hz : f.kzalloc with
  | true =>
    have hrun : bind pdev f k = devresRelease pdev k := by
      unfold bind nm32aProbe
      rw [hz]
      rfl
    rw [hrun]
    exact ⟨hcards, rfl, rfl, hdata, rfl, rfl, Nat.le_refl _⟩
  | false =>
    cases he : f.enable with
    | some e =>
      have hrun : bind pdev f k =
          if e.1 = 0 then newCard pdev k else devresRelease pdev (newCard pdev k) := by
        unfold bind nm32aProbe
        rw [hz, he]
        rfl
      rw [hrun]
      exact hgone _ (Int.ne_of_lt e.2)
    | none =>
      have hm : f.iomap = true := by
        unfold Faults.binds at hf
        rw [hz, he] at hf
        simpa using hf
      have hrun : bind pdev f k =
          if -enomem = 0 then newCard pdev k else devresRelease pdev (newCard pdev k) := by
        unfold bind nm32aProbe
        rw [hz, he, hm]
        rfl
      rw [hrun]
      exact hgone _ (by decide)

/-! ## what holds after careful calls -/

/-- what the card `p` has, which came up with `f` -/
structure Has (k : Kernel) (f : Faults) (p : Nat) (c : Card) : Prop where
  up : f.setsUp = true → ∃ d, c.tty = .driver d ∧ k.drivers d = some (Lifecycle.up p)
  down : f.setsUp = false → c.tty ≠ .null ∧ Dead k c.tty ∧ ∀ d, c.tty = .driver d → d < k.fresh
  poller : ∀ t, c.poller = some t → k.threads t = some p

structure Inv (past : List Call) (k : Kernel) : Prop where
  young : Young k
  bound : ∀ pdev p, k.drvdata pdev = some p → ∃ c f, k.cards p = some c ∧ c.pdev = pdev ∧
    lastProbe pdev past = some f ∧ Has k f p c
  card : ∀ p c, k.cards p = some c → k.drvdata c.pdev = some p
  driver : ∀ d t, k.drivers d = some t → ∃ c, k.cards t.owner = some c ∧ c.tty = .driver d
  thread : ∀ t p, k.threads t = some p → ∃ c, k.cards p = some c ∧ c.poller = some t
  unset : latest past = none → k.nm32aDev = none
  alive : ∀ q, latest past = some (q, true) → ∃ p, k.nm32aDev = some p ∧ k.drvdata q = some p
  gone : ∀ q, latest past = some (q, false) → ∃ p, k.nm32aDev = some p ∧ k.cards p = none ∧
    p < k.fresh

theorem boot_inv : Inv [] boot := by
  refine ⟨⟨fun _ _ => rfl, fun _ _ => rfl, fun _ _ => rfl⟩, nofun, nofun, nofun, nofun,
    fun _ => rfl, nofun, nofun⟩

theorem Inv.card_lt (h : Inv past k) (hp : k.cards p = some c) : p < k.fresh := by
  by_contra hle
  rw [h.young.cards p (by omega)] at hp
  cases hp

theorem Inv.driver_lt (h : Inv past k) (hd : k.drivers d = some t) : d < k.fresh := by
  by_contra hle
  rw [h.young.drivers d (by omega)] at hd
  cases hd

theorem Inv.thread_lt {n : Nat} (h : Inv past k) (ht : k.threads n = some p) : n < k.fresh := by
  by_contra hle
  rw [h.young.threads n (by omega)] at ht
  cases ht

/-- the card behind a device, and the way it came up -/
theorem Inv.bound_card (h : Inv past k) (hp : k.cards p = some c) :
    ∃ f, lastProbe c.pdev past = some f ∧ Has k f p c := by
  obtain ⟨c', f, hc', _, hf, hhas⟩ := h.bound c.pdev p (h.card p c hp)
  obtain rfl : c' = c := Option.some.inj (hc'.symm.trans hp)
  exact ⟨f, hf, hhas⟩

/-- a call that neither probes nor removes leaves no trace in the condition -/
theorem Inv.skip (h : Inv past k) (call : Call) (h1 : ∀ q, lastProbe q (call :: past) =
    lastProbe q past) (h2 : latest (call :: past) = latest past) : Inv (call :: past) k := by
  refine ⟨h.young, ?_, h.card, h.driver, h.thread, ?_, ?_, ?_⟩
  · intro pdev p hp
    rw [h1]
    exact h.bound pdev p hp
  · rw [h2]
    exact h.unset
  · rw [h2]
    exact h.alive
  · rw [h2]
    exact h.gone

theorem Has.keep (h : Has k f p c)
    (hd : ∀ d, k.drivers d = some (Lifecycle.up p) → k'.drivers d = some (Lifecycle.up p))
    (hdead : ∀ d, d < k.fresh → k.drivers d = none → k'.drivers d = none)
    (ht : ∀ t, k.threads t = some p → k'.threads t = some p) (hf : k.fresh ≤ k'.fresh) :
    Has k' f p c := by
  refine ⟨?_, ?_, fun t htp => ht t (h.poller t htp)⟩
  · intro hup
    obtain ⟨d, htty, hdr⟩ := h.up hup
    exact ⟨d, htty, hd d hdr⟩
  · intro hdown
    obtain ⟨hnull, hde, hlt⟩ := h.down hdown
    refine ⟨hnull, ?_, ?_⟩
    · intro d htty
      exact hdead d (hlt d htty) (hde d htty)
    · intro d htty
      exact Nat.lt_of_lt_of_le (hlt d htty) hf

theorem lastProbe_probe (q : Nat) : lastProbe q (.probe pdev f :: past) =
    if pdev = q then some f else lastProbe q past := rfl

theorem latest_probe : latest (.probe pdev f :: past) =
    if f.binds then some (pdev, true) else latest past := rfl

theorem latest_remove : latest (.remove pdev :: past) =
    (latest past).map fun d => (d.1, d.2 && decide (d.1 ≠ pdev)) := rfl

/-- what came before a probe is as it was -/
theorem Arrival.old (ha : Arrival pdev f k k' c) :
    (∀ d, d < k.fresh → k'.drivers d = k.drivers d) ∧
      (∀ t, t < k.fresh → k'.threads t = k.threads t) ∧
      ∀ p, p < k.fresh → k'.cards p = k.cards p := by
  refine ⟨?_, ?_, ?_⟩
  · intro d hd
    cases hup : f.setsUp with
    | false => rw [(ha.down hup).2.1]
    | true =>
      obtain ⟨d0, _, hle, _, hdr⟩ := ha.up hup
      rw [hdr, Function.update_of_ne (by omega)]
  · intro t ht
    obtain ⟨_, hth⟩ | ⟨t0, _, hle, hth⟩ := ha.poll
    · rw [hth]
    · rw [hth, Function.update_of_ne (by omega)]
  · intro p hp
    rw [ha.cards, Function.update_of_ne (by omega)]

theorem Arrival.has (ha : Arrival pdev f k k' c) (hy : Young k) : Has k' f k.fresh c := by
  refine ⟨?_, ?_, ?_⟩
  · intro hup
    obtain ⟨d, htty, _, _, hdr⟩ := ha.up hup
    refine ⟨d, htty, ?_⟩
    rw [hdr, Function.update_self]
  · intro hdown
    obtain ⟨hnull, hdr, hnew⟩ := ha.down hdown
    refine ⟨hnull, ?_, fun d htty => (hnew d htty).2⟩
    intro d htty
    rw [hdr]
    exact hy.drivers d (hnew d htty).1
  · intro t htp
    obtain ⟨hno, _⟩ | ⟨t0, ht0, _, hth⟩ := ha.poll
    · rw [hno] at htp
      cases htp
    · obtain rfl : t0 = t := Option.some.inj (ht0.symm.trans htp)
      rw [hth, Function.update_self]

theorem Inv.arrive (h : Inv past k) (hno : k.drvdata pdev = none) (hf : f.binds = true)
    (ha : Arrival pdev f k k' c) : Inv (.probe pdev f :: past) k' := by
  obtain ⟨holdDrivers, holdThreads, holdCards⟩ := ha.old
  have hself : k'.cards k.fresh = some c := by
    rw [ha.cards, Function.update_self]
  refine ⟨ha.young, ?_, ?_, ?_, ?_, ?_, ?_, ?_⟩
  · intro q p hp
    rw [lastProbe_probe]
    by_cases hq : pdev = q
    · subst hq
      rw [ha.drvdata, Function.update_self] at hp
      obtain rfl := Option.some.inj hp
      exact ⟨c, f, hself, ha.ofDevice, if_pos rfl, ha.has h.young⟩
    · rw [ha.drvdata, Function.update_of_ne fun e => hq e.symm] at hp
      obtain ⟨c0, f0, hc0, hpdev, hlast, hhas⟩ := h.bound q p hp
      have hlt := h.card_lt hc0
      refine ⟨c0, f0, (holdCards p hlt).trans hc0, hpdev, (if_neg hq).trans hlast, ?_⟩
      apply hhas.keep
      · intro d hd
        rw [holdDrivers d (h.driver_lt hd)]
        exact hd
      · intro d hd hn
        rw [holdDrivers d hd]
        exact hn
      · intro t ht
        rw [holdThreads t (h.thread_lt ht)]
        exact ht
      · exact Nat.le_of_lt ha.fresh
  · intro p c0 hp
    rw [ha.drvdata]
    by_cases hpf : p = k.fresh
    · subst hpf
      obtain rfl : c = c0 := Option.some.inj (hself.symm.trans hp)
      rw [ha.ofDevice, Function.update_self]
    · rw [ha.cards, Function.update_of_ne hpf] at hp
      have hb := h.card p c0 hp
      rw [Function.update_of_ne]
      · exact hb
      · intro e
        rw [e, hno] at hb
        cases hb
  · intro d t hd
    cases hup : f.setsUp with
    | false =>
      rw [(ha.down hup).2.1] at hd
      obtain ⟨c0, hc0, htty⟩ := h.driver d t hd
      exact ⟨c0, (holdCards _ (h.card_lt hc0)).trans hc0, htty⟩
    | true =>
      obtain ⟨d0, htty0, _, _, hdr⟩ := ha.up hup
      rw [hdr] at hd
      by_cases hdd : d = d0
      · subst hdd
        rw [Function.update_self] at hd
        obtain rfl := Option.some.inj hd
        exact ⟨c, hself, htty0⟩
      · rw [Function.update_of_ne hdd] at hd
        obtain ⟨c0, hc0, htty⟩ := h.driver d t hd
        exact ⟨c0, (holdCards _ (h.card_lt hc0)).trans hc0, htty⟩
  · intro t p ht
    obtain ⟨_, hth⟩ | ⟨t0, ht0, _, hth⟩ := ha.poll
    · rw [hth] at ht
      obtain ⟨c0, hc0, hpo⟩ := h.thread t p ht
      exact ⟨c0, (holdCards _ (h.card_lt hc0)).trans hc0, hpo⟩
    · rw [hth] at ht
      by_cases htt : t = t0
      · subst htt
        rw [Function.update_self] at ht
        obtain rfl := Option.some.inj ht
        exact ⟨c, hself, ht0⟩
      · rw [Function.update_of_ne htt] at ht
        obtain ⟨c0, hc0, hpo⟩ := h.thread t p ht
        exact ⟨c0, (holdCards _ (h.card_lt hc0)).trans hc0, hpo⟩
  · intro hl
    rw [latest_probe, if_pos hf] at hl
    cases hl
  · intro q hl
    rw [latest_probe, if_pos hf] at hl
    cases hl
    refine ⟨k.fresh, ha.dev, ?_⟩
    rw [ha.drvdata, Function.update_self]
  · intro q hl
    rw [latest_probe, if_pos hf] at hl
    cases hl

theorem Inv.miss (h : Inv past k) (hno : k.drvdata pdev = none) (hf : f.binds = false)
    (hi : Idle k k') : Inv (.probe pdev f :: past) k' := by
  have hl : latest (.probe pdev f :: past) = latest past := by
    rw [latest_probe, hf]
    rfl
  have hy : Young k' := by
    refine ⟨?_, ?_, ?_⟩
    · intro n hn
      rw [hi.cards]
      exact h.young.cards n (Nat.le_trans hi.fresh hn)
    · intro n hn
      rw [hi.drivers]
      exact h.young.drivers n (Nat.le_trans hi.fresh hn)
    · intro n hn
      rw [hi.threads]
      exact h.young.threads n (Nat.le_trans hi.fresh hn)
  refine ⟨hy, ?_, ?_, ?_, ?_, ?_, ?_, ?_⟩
  · intro q p hp
    rw [hi.drvdata] at hp
    obtain ⟨c, f0, hc, hpdev, hlast, hhas⟩ := h.bound q p hp
    have hq : pdev ≠ q := by
      rintro rfl
      rw [hno] at hp
      cases hp
    refine ⟨c, f0, ?_, hpdev, ?_, ?_⟩
    · rw [hi.cards]
      exact hc
    · rw [lastProbe_probe, if_neg hq]
      exact hlast
    · apply hhas.keep
      · intro d hd
        rw [hi.drivers]
        exact hd
      · intro d _ hn
        rw [hi.drivers]
        exact hn
      · intro t ht
        rw [hi.threads]
        exact ht
      · exact hi.fresh
  · rw [hi.cards, hi.drvdata]
    exact h.card
  · rw [hi.cards, hi.drivers]
    exact h.driver
  · rw [hi.cards, hi.threads]
    exact h.thread
  · rw [hl, hi.dev]
    exact h.unset
  · rw [hl, hi.dev, hi.drvdata]
    exact h.alive
  · rw [hl, hi.dev, hi.cards]
    intro q hq
    obtain ⟨p, hp, hc, hlt⟩ := h.gone q hq
    exact ⟨p, hp, hc, Nat.lt_of_lt_of_le hlt hi.fresh⟩

/-! ## a removal -/

/-- a card that is gone with all it had -/
structure Departure (pdev p : Nat) (k k' : Kernel) (c : Card) : Prop where
  cards : ∀ q, k'.cards q = (k.cards q).filter fun c => c.pdev ≠ pdev
  drvdata : k'.drvdata = Function.update k.drvdata pdev none
  dev : k'.nm32aDev = k.nm32aDev
  misuses : k'.misuses = k.misuses
  fresh : k'.fresh = k.fresh
  drivers : ∃ d, c.tty = .driver d ∧ k'.drivers = Function.update k.drivers d none
  threads : ∀ t q, k'.threads t = some q ↔ k.threads t = some q ∧ c.poller ≠ some t

theorem stopPoller_threads (hpo : ∀ t, c.poller = some t → k.threads t = some p) :
    ∃ ts : Nat → Option Nat, stopPoller c k = { k with threads := ts } ∧
      ∀ t q, ts t = some q ↔ k.threads t = some q ∧ c.poller ≠ some t := by
  unfold stopPoller
  cases hp : c.poller with
  | none =>
    refine ⟨k.threads, rfl, ?_⟩
    intro t q
    exact ⟨fun h => ⟨h, nofun⟩, fun h => h.1⟩
  | some t0 =>
    refine ⟨Function.update k.threads t0 none, ?_, ?_⟩
    · show kthreadStop t0 k = _
      unfold kthreadStop
      simp only [hpo t0 hp]
    · intro t q
      by_cases ht : t = t0
      · subst ht
        rw [Function.update_self]
        exact ⟨nofun, fun h => absurd rfl h.2⟩
      · rw [Function.update_of_ne ht]
        exact ⟨fun h => ⟨h, fun e => ht (Option.some.inj e).symm⟩, fun h => h.1⟩

theorem unbind_departure (hp : k.drvdata pdev = some p) (hc : k.cards p = some c)
    (hhas : Has k f p c) (hup : f.setsUp = true) : Departure pdev p k (unbind pdev k) c := by
  obtain ⟨d, htty, hd⟩ := hhas.up hup
  obtain ⟨ts, hstop, hts⟩ := stopPoller_threads hhas.poller
  have hrun : unbind pdev k = devresRelease pdev { k with
      threads := ts
      drivers := Function.update k.drivers d none } := by
    unfold unbind nm32aRemove
    simp only [hp, hc, hstop]
    exact congrArg (devresRelease pdev) (dropTty_up (k := { k with threads := ts }) htty hd)
  rw [hrun]
  exact ⟨fun _ => rfl, rfl, rfl, rfl, rfl, ⟨d, htty, rfl⟩, hts⟩

/-- for a card whose setup failed the whole removal is misuse -/
theorem unbind_misuses (hp : k.drvdata pdev = some p) (hc : k.cards p = some c)
    (hhas : Has k f p c) (hdown : f.setsUp = false) :
    (unbind pdev k).misuses = k.misuses + 34 := by
  obtain ⟨hnull, hdead, _⟩ := hhas.down hdown
  obtain ⟨ts, hstop, _⟩ := stopPoller_threads hhas.poller
  have hrun : unbind pdev k = devresRelease pdev { k with
      threads := ts
      misuses := k.misuses + 34 } := by
    unfold unbind nm32aRemove
    simp only [hp, hc, hstop]
    exact congrArg (devresRelease pdev) (dropTty_dead (k := { k with threads := ts }) hnull hdead)
  rw [hrun]
  rfl

theorem none_of_iff {α : Type} {x y : Option α} {P : α → Prop}
    (h : ∀ a, y = some a ↔ x = some a ∧ P a) (hx : x = none) : y = none := by
  apply Option.eq_none_iff_forall_ne_some.mpr
  intro a ha
  have hx' := ((h a).mp ha).1
  rw [hx] at hx'
  cases hx'

section
variable (h : Inv past k) (hp : k.drvdata pdev = some p) (hc : k.cards p = some c)
  (hpd : c.pdev = pdev) (hd : Departure pdev p k k' c)
include h hp hc hpd hd

theorem Departure.card_iff (q : Nat) (c0 : Card) :
    k'.cards q = some c0 ↔ k.cards q = some c0 ∧ q ≠ p := by
  rw [hd.cards, Option.filter_eq_some_iff]
  constructor
  · intro h0
    obtain ⟨hq, hne⟩ := h0
    refine ⟨hq, ?_⟩
    rintro rfl
    obtain rfl : c = c0 := Option.some.inj (hc.symm.trans hq)
    exact of_decide_eq_true hne hpd
  · intro h0
    obtain ⟨hq, hne⟩ := h0
    refine ⟨hq, decide_eq_true ?_⟩
    intro he
    have hb := h.card q c0 hq
    rw [he, hp] at hb
    exact hne (Option.some.inj hb).symm

theorem Departure.driver_iff (d : Nat) (t : TtyDriver) :
    k'.drivers d = some t ↔ k.drivers d = some t ∧ t.owner ≠ p := by
  obtain ⟨d0, htty, hdr⟩ := hd.drivers
  rw [hdr]
  by_cases hdd : d = d0
  · subst hdd
    rw [Function.update_self]
    constructor
    · nofun
    · intro h0
      obtain ⟨hk, hne⟩ := h0
      obtain ⟨f, _, hhas⟩ := h.bound_card hc
      cases hup : f.setsUp with
      | true =>
        obtain ⟨d1, htty1, hd1⟩ := hhas.up hup
        cases htty.symm.trans htty1
        rw [hd1] at hk
        exact absurd (congrArg TtyDriver.owner (Option.some.inj hk)).symm hne
      | false =>
        rw [(hhas.down hup).2.1 d htty] at hk
        cases hk
  · rw [Function.update_of_ne hdd]
    constructor
    · intro hk
      refine ⟨hk, ?_⟩
      intro ho
      obtain ⟨c0, hc0, htty0⟩ := h.driver d t hk
      rw [ho] at hc0
      obtain rfl : c = c0 := Option.some.inj (hc.symm.trans hc0)
      cases htty.symm.trans htty0
      exact hdd rfl
    · exact fun h0 => h0.1

theorem Departure.thread_iff (t q : Nat) :
    k'.threads t = some q ↔ k.threads t = some q ∧ q ≠ p := by
  rw [hd.threads]
  constructor
  · intro h0
    obtain ⟨hk, hne⟩ := h0
    refine ⟨hk, ?_⟩
    rintro rfl
    obtain ⟨c0, hc0, hpo⟩ := h.thread t q hk
    obtain rfl : c = c0 := Option.some.inj (hc.symm.trans hc0)
    exact hne hpo
  · intro h0
    obtain ⟨hk, hne⟩ := h0
    refine ⟨hk, ?_⟩
    intro hpo
    obtain ⟨f, _, hhas⟩ := h.bound_card hc
    rw [hhas.poller t hpo] at hk
    exact hne (Option.some.inj hk).symm

theorem Departure.exact : Exact k p k' :=
  ⟨hd.driver_iff h hp hc hpd, hd.thread_iff h hp hc hpd⟩

theorem Inv.depart : Inv (.remove pdev :: past) k' := by
  have hcard := hd.card_iff h hp hc hpd
  have hdriver := hd.driver_iff h hp hc hpd
  have hthread := hd.thread_iff h hp hc hpd
  have hgone : k'.cards p = none := by
    apply Option.eq_none_iff_forall_ne_some.mpr
    intro c0 hc0
    exact ((hcard p c0).mp hc0).2 rfl
  have hnone : ∀ q, k.cards q = none → k'.cards q = none := by
    intro q hq
    exact none_of_iff (hcard q) hq
  refine ⟨⟨?_, ?_, ?_⟩, ?_, ?_, ?_, ?_, ?_, ?_, ?_⟩
  · intro n hn
    rw [hd.fresh] at hn
    exact hnone n (h.young.cards n hn)
  · intro n hn
    rw [hd.fresh] at hn
    exact none_of_iff (hdriver n) (h.young.drivers n hn)
  · intro n hn
    rw [hd.fresh] at hn
    exact none_of_iff (hthread n) (h.young.threads n hn)
  · intro q p0 hq
    rw [hd.drvdata] at hq
    have hne : q ≠ pdev := by
      rintro rfl
      rw [Function.update_self] at hq
      cases hq
    rw [Function.update_of_ne hne] at hq
    obtain ⟨c0, f0, hc0, hpdev, hlast, hhas⟩ := h.bound q p0 hq
    have hpp : p0 ≠ p := by
      rintro rfl
      obtain rfl : c = c0 := Option.some.inj (hc.symm.trans hc0)
      exact hne (hpdev.symm.trans hpd)
    refine ⟨c0, f0, (hcard p0 c0).mpr ⟨hc0, hpp⟩, hpdev, hlast, ?_⟩
    apply hhas.keep
    · intro d hdr
      exact (hdriver d _).mpr ⟨hdr, hpp⟩
    · intro d _ hn
      exact none_of_iff (hdriver d) hn
    · intro t ht
      exact (hthread t p0).mpr ⟨ht, hpp⟩
    · exact Nat.le_of_eq hd.fresh.symm
  · intro q c0 hq
    obtain ⟨hk, hne⟩ := (hcard q c0).mp hq
    have hb := h.card q c0 hk
    rw [hd.drvdata, Function.update_of_ne]
    · exact hb
    · intro he
      rw [he, hp] at hb
      exact hne (Option.some.inj hb).symm
  · intro d t ht
    obtain ⟨hk, hne⟩ := (hdriver d t).mp ht
    obtain ⟨c0, hc0, htty⟩ := h.driver d t hk
    exact ⟨c0, (hcard _ c0).mpr ⟨hc0, hne⟩, htty⟩
  · intro t q ht
    obtain ⟨hk, hne⟩ := (hthread t q).mp ht
    obtain ⟨c0, hc0, hpo⟩ := h.thread t q hk
    exact ⟨c0, (hcard _ c0).mpr ⟨hc0, hne⟩, hpo⟩
  · intro hl
    rw [latest_remove, Option.map_eq_none_iff] at hl
    rw [hd.dev]
    exact h.unset hl
  · intro q hl
    rw [latest_remove] at hl
    obtain ⟨⟨q0, b⟩, hl0, he⟩ := Option.map_eq_some_iff.mp hl
    obtain ⟨rfl, hb⟩ := Prod.mk.inj he
    obtain ⟨rfl, hne⟩ := Bool.and_eq_true_iff.mp hb
    obtain ⟨p0, hp0, hq0⟩ := h.alive q0 hl0
    refine ⟨p0, hd.dev.trans hp0, ?_⟩
    rw [hd.drvdata, Function.update_of_ne (of_decide_eq_true hne)]
    exact hq0
  · intro q hl
    rw [latest_remove] at hl
    obtain ⟨⟨q0, b⟩, hl0, he⟩ := Option.map_eq_some_iff.mp hl
    obtain ⟨rfl, hb⟩ := Prod.mk.inj he
    rw [hd.dev, hd.fresh]
    cases b with
    | false =>
      obtain ⟨p0, hp0, hc0, hlt⟩ := h.gone q0 hl0
      exact ⟨p0, hp0, hnone p0 hc0, hlt⟩
    | true =>
      obtain ⟨p0, hp0, hq0⟩ := h.alive q0 hl0
      have hqq : q0 = pdev := by
        by_contra hne
        rw [Bool.true_and, decide_eq_true hne] at hb
        cases hb
      rw [hqq, hp] at hq0
      obtain rfl := Option.some.inj hq0
      exact ⟨p, hp0, hgone, h.card_lt hc⟩

end

/-! ## a parameter that is written -/

/-- an access through the global pointer -/
def reach (k : Kernel) : Kernel :=
  match k.nm32aDev with
  | none => k
  | some p => deref p k

theorem reach_gone (h : Inv past k) (ho : Orphaned past) :
    (reach k).misuses = k.misuses + 1 := by
  obtain ⟨q, hq⟩ := ho
  obtain ⟨p, hp, hc, _⟩ := h.gone q hq
  unfold reach deref onCard
  simp only [hp, hc]
  rfl

theorem reach_alive (h : Inv past k) (ho : ¬Orphaned past) : reach k = k := by
  unfold reach
  cases hl : latest past with
  | none => simp only [h.unset hl]
  | some d =>
    obtain ⟨q, b⟩ := d
    cases b with
    | false => exact absurd ⟨q, hl⟩ ho
    | true =>
      obtain ⟨p, hp, hq⟩ := h.alive q hl
      obtain ⟨c, f, hc, _⟩ := h.bound q p hq
      simp only [hp]
      show onCard p id k = k
      rw [onCard_some hc]
      show ({ k with cards := Function.update k.cards p (some c) } : Kernel) = k
      rw [← hc, Function.update_eq_self]

theorem run_selftest (stage : Int) : (Call.selftest (.ok stage)).run k = reach k := by
  show (nm32aSetSelftest (.ok stage) k).2 = reach k
  unfold nm32aSetSelftest reach
  cases k.nm32aDev with
  | none => rfl
  | some p => rfl

theorem run_sendbreak (port : Nat) :
    (Call.sendbreak (some port)).run k = if port < 32 then reach k else k := by
  show (sendbreakSet (some port) k).2 = _
  unfold sendbreakSet reach
  cases k.nm32aDev with
  | none =>
    show k = if port < 32 then k else k
    exact (ite_self k).symm
  | some p =>
    by_cases hport : port < 32
    · simp only [if_neg (Nat.not_le.mpr hport), if_pos hport]
    · simp only [if_pos (Nat.not_lt.mp hport), if_neg hport]

theorem run_sendbreak_none : (Call.sendbreak none).run k = k := by
  show (sendbreakSet none k).2 = k
  unfold sendbreakSet
  cases k.nm32aDev <;> rfl

/-- a write is proper unless it follows a pointer to a card that is gone -/
theorem proper_reach {call : Call} (h : Inv past k) (hrun : call.run k = reach k)
    (hno : ∀ pdev, call ≠ .remove pdev) : Proper call k ↔ ¬Orphaned past := by
  constructor
  · intro hp ho
    have hm := hp.sound
    rw [hrun, reach_gone h ho] at hm
    omega
  · intro ho
    refine ⟨?_, fun pdev p he => absurd he (hno pdev)⟩
    rw [hrun, reach_alive h ho]

theorem proper_still {call : Call} (hrun : call.run k = k) (hno : ∀ pdev, call ≠ .remove pdev) :
    Proper call k := by
  refine ⟨?_, fun pdev p he => absurd he (hno pdev)⟩
  rw [hrun]

/-! ## all calls -/

/-- **One call**: it is proper exactly if it is fine, and then what holds goes on holding. -/
theorem proper_iff_fine (call : Call) (h : Inv past k) (hallowed : call.Allowed k) :
    (Proper call k ↔ call.Fine past) ∧ (call.Fine past → Inv (call :: past) (call.run k)) := by
  cases call with
  | probe pdev f =>
    have hno : k.drvdata pdev = none := hallowed
    cases hf : f.binds with
    | true =>
      obtain ⟨c, ha⟩ : ∃ c, Arrival pdev f _ (bind pdev f _) c := bind_arrival h.young hf
      exact ⟨⟨fun _ => trivial, fun _ => ⟨ha.misuses, nofun⟩⟩, fun _ => h.arrive hno hf ha⟩
    | false =>
      have hnew : ∀ p c, k.cards p = some c → c.pdev ≠ pdev := by
        intro p c hp he
        have hb := h.card p c hp
        rw [he, hno] at hb
        cases hb
      have hi := bind_idle hf hnew (h.young.cards _ (Nat.le_refl _)) hno
      exact ⟨⟨fun _ => trivial, fun _ => ⟨hi.misuses, nofun⟩⟩, fun _ => h.miss hno hf hi⟩
  | remove pdev =>
    obtain ⟨p, hp⟩ := Option.ne_none_iff_exists'.mp hallowed
    obtain ⟨c, f, hc, hpd, hlast, hhas⟩ := h.bound pdev p hp
    cases hup : f.setsUp with
    | true =>
      have hd := unbind_departure hp hc hhas hup
      have hfine : (Call.remove pdev).Fine past := ⟨f, hlast, hup⟩
      refine ⟨⟨fun _ => hfine, fun _ => ⟨hd.misuses, ?_⟩⟩, fun _ => h.depart hp hc hpd hd⟩
      intro q p0 he hp0
      cases he
      obtain rfl : p = p0 := Option.some.inj (hp.symm.trans hp0)
      exact hd.exact h hp hc hpd
    | false =>
      have hbad : ¬(Call.remove pdev).Fine past := by
        intro hfine
        obtain ⟨f0, hlast0, hup0⟩ := hfine
        obtain rfl : f = f0 := Option.some.inj (hlast.symm.trans hlast0)
        rw [hup] at hup0
        cases hup0
      refine ⟨⟨fun hpr => ?_, fun hfine => absurd hfine hbad⟩, fun hfine => absurd hfine hbad⟩
      have hm := hpr.sound
      have hmis : ((Call.remove pdev).run k).misuses = k.misuses + 34 :=
        unbind_misuses hp hc hhas hup
      omega
  | selftest val =>
    have hskip : Inv (.selftest val :: past) k := h.skip _ (fun _ => rfl) rfl
    cases val with
    | error rc =>
      exact ⟨⟨fun _ => trivial, fun _ => proper_still rfl nofun⟩, fun _ => hskip⟩
    | ok stage =>
      refine ⟨proper_reach h (run_selftest stage) nofun, ?_⟩
      intro (ho : ¬Orphaned past)
      rw [run_selftest, reach_alive h ho]
      exact hskip
  | sendbreak val =>
    have hskip : Inv (.sendbreak val :: past) k := h.skip _ (fun _ => rfl) rfl
    cases val with
    | none =>
      refine ⟨⟨fun _ => trivial, fun _ => proper_still run_sendbreak_none nofun⟩, ?_⟩
      intro _
      rw [run_sendbreak_none]
      exact hskip
    | some port =>
      by_cases hport : port < 32
      · have hrun : (Call.sendbreak (some port)).run k = reach k := by
          rw [run_sendbreak, if_pos hport]
        have hfine : (Call.sendbreak (some port)).Fine past ↔ ¬Orphaned past :=
          ⟨fun hf => hf hport, fun ho _ => ho⟩
        refine ⟨(proper_reach h hrun nofun).trans hfine.symm, ?_⟩
        intro hf
        rw [hrun, reach_alive h (hfine.mp hf)]
        exact hskip
      · have hrun : (Call.sendbreak (some port)).run k = k := by
          rw [run_sendbreak, if_neg hport]
        have hfine : (Call.sendbreak (some port)).Fine past := fun hlt => absurd hlt hport
        refine ⟨⟨fun _ => hfine, fun _ => proper_still hrun nofun⟩, ?_⟩
        intro _
        rw [hrun]
        exact hskip

theorem careful_inv (calls : List Call) (hl : Legal calls) (hc : Careful calls) :
    Inv calls (after calls) := by
  induction calls with
  | nil => exact boot_inv
  | cons call past ih =>
    exact (proper_iff_fine call (ih hl.1 hc.1) hl.2).2 hc.2

/-- **The calls of a sequence are all proper exactly if it is careful.** -/
theorem lifecycle_balanced_iff (calls : List Call) (hl : Legal calls) :
    Balanced calls ↔ Careful calls := by
  induction calls with
  | nil => exact Iff.rfl
  | cons call past ih =>
    have ih := ih hl.1
    constructor
    · intro hb
      have hc := ih.mp hb.1
      exact ⟨hc, (proper_iff_fine call (careful_inv past hl.1 hc) hl.2).1.mp hb.2⟩
    · intro hc
      exact ⟨ih.mpr hc.1, (proper_iff_fine call (careful_inv past hl.1 hc.1) hl.2).1.mpr hc.2⟩

/-! ## a card that comes and goes -/

/-- nothing goes wrong -/
def smooth : Faults := ⟨false, none, false, none, none, none⟩
/-- the tty layer has no memory -/
def shortOfMemory : Faults := { smooth with ttyAlloc := some ⟨-enomem, by decide⟩ }

theorem lifecycle_balanced_round :
    Balanced [.selftest (.error (-einval)), .remove 0, .sendbreak (some 3), .probe 0 smooth] := by
  apply (lifecycle_balanced_iff _ ?_).mpr
  · refine ⟨⟨⟨⟨trivial, trivial⟩, ?_⟩, smooth, rfl, rfl⟩, trivial⟩
    intro _ ho
    obtain ⟨q, hq⟩ := ho
    cases hq
  · refine ⟨⟨⟨⟨trivial, rfl⟩, trivial⟩, ?_⟩, trivial⟩
    show (after _).drvdata 0 ≠ none
    decide +kernel

/-- `tty_alloc_driver` fails, the probe returns 0, and the card is removed -/
theorem lifecycle_balanced_fails : Legal [.remove 0, .probe 0 shortOfMemory] ∧
    (after [.remove 0, .probe 0 shortOfMemory]).misuses = 34 ∧
    ¬Balanced [.remove 0, .probe 0 shortOfMemory] := by
  have hm : (after [.remove 0, .probe 0 shortOfMemory]).misuses = 34 := by decide +kernel
  refine ⟨⟨⟨trivial, rfl⟩, ?_⟩, hm, ?_⟩
  · show (after [.probe 0 shortOfMemory]).drvdata 0 ≠ none
    decide +kernel
  · intro hb
    have hs : (after [.remove 0, .probe 0 shortOfMemory]).misuses =
        (after [.probe 0 shortOfMemory]).misuses := hb.2.sound
    rw [hm] at hs
    have h0 : (after [.probe 0 shortOfMemory]).misuses = 0 := by decide +kernel
    rw [h0] at hs
    cases hs

end Lifecycle
end Nm32a
