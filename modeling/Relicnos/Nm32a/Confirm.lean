import Relicnos.Interact.Monitor
import Relicnos.Nm32a.Calls

/-!
# Is the last context known to be closed?

`nm32a_eoi` looks at `STK` at most a hundred times, not at all with `eoiretry=0`, and its callers
cannot tell how it went.  Here nothing is assumed of a chip: every register may read anything.

* `Watch`          what the accesses so far have shown: for each chip, whether a context was
                   granted that `STK` has not shown to be closed;
* `Gated`          no acknowledge on such a chip, and no access to a channel of it through `CAR`;
* `Cooperative`    `eoiretry` is on when `nm32a_eoi` looks, and no chip shows an active level a
                   hundred times in one service;
* `gated_runs`     cooperative runs are gated.
-/

set_option linter.unusedVariables false

namespace Nm32a
open Interact

structure Watch where
  /-- the chip whose registers were read last -/
  serving : Fin 8
  /-- an acknowledge was issued, and what it granted is being read -/
  acked : Bool
  /-- a context was granted, and `STK` has not shown it to be closed -/
  owed : Fin 8 → Bool
  /-- a channel was selected since the lock was taken -/
  aimed : Bool
  /-- an EOIR was written since -/
  ended : Bool
  /-- how often `STK` has shown an active level since -/
  levels : Nat

namespace Watch

def start : Watch := ⟨0, false, fun _ => false, false, false, 0⟩

/-- `TIR` or `RIR` of the chip read `v` -/
def shows (m : Watch) (j : Fin 8) (v : UInt8) : Watch :=
  { m with
    serving := j
    owed := fun i => m.owed i || (i = j && m.acked && v &&& 0xC0 = 0x40) }

/-- `STK` of the chip read `v` -/
def level (m : Watch) (j : Fin 8) (v : UInt8) : Watch :=
  if v &&& 0x81 = 0 then { m with serving := j, owed := fun i => m.owed i && i ≠ j }
  else { m with serving := j, levels := m.levels + 1 }

def after : (o : Op) → Res o → Watch → Watch
  | .lock, _, m => { m with acked := false, aimed := false, ended := false, levels := 0 }
  | .readb _, _, m => { m with acked := true }
  | .crd j .TIR, v, m => m.shows j v
  | .crd j .RIR, v, m => { m.shows j v with acked := false }
  | .crd j .STK, v, m => m.level j v
  | .crd j _, _, m => { m with serving := j }
  | .cwr _ .CAR _, _, m => { m with aimed := true }
  | .cwr _ .REOIR _, _, m => { m with ended := true }
  | .cwr _ .TEOIR _, _, m => { m with ended := true }
  | _, _, m => m

end Watch

/-- a reading of `STK` with an active level -/
def Active (v : UInt8) : Prop := v &&& 0x81 ≠ 0

instance instDecidableActive (v : UInt8) : Decidable (Active v) :=
  inferInstanceAs (Decidable (v &&& 0x81 ≠ 0))

/-- a write that addresses a channel through `CAR` -/
def Reg.Addressed (aimed : Bool) : Reg → Prop
  | .CAR => True
  | .TDR => False
  | .REOIR => False
  | .TEOIR => False
  | _ => aimed = true

def Gated (m : Watch) : (o : Op) → Res o → Prop
  | .readb _, _ => m.owed m.serving = false
  | .cwr j reg _, _ => reg.Addressed m.aimed → m.owed j = false
  | _, _ => True

def Cooperative (m : Watch) : (o : Op) → Res o → Prop
  | .params, p => m.ended = true → p.eoiretry ≠ 0
  | .crd _ .STK, v => Active v → m.levels + 1 < 100
  | _, _ => True

/-- the chips as the driver sees them, while they cooperate -/
def seen : Env Op Res Watch := Env.answers Watch.after Cooperative

/-- the guard of a run in it -/
def gated (e : Event Op Res Watch) : Prop := Gated e.pre e.op e.res

theorem seen_stable (P : Watch → Prop) : Stable seen P := by
  intro m m' h hr
  obtain rfl : m' = m := hr
  exact h

/-- every context is known to be closed, and no acknowledge is pending -/
structure Watch.Clear (m : Watch) : Prop where
  owed : ∀ j, m.owed j = false
  acked : m.acked = false

variable {j : Fin 8} {m : Watch} {α β : Type}

theorem wp_ask {o : Op} {f : Res o → Drv α} {Q : α → Watch → Prop}
    (h : ∀ r, Cooperative m o r → Gated m o r ∧ wp seen gated (f r) Q (Watch.after o r m)) :
    wp seen gated (issue o >>= f) Q m := by
  intro m1 hr r m2 ⟨hco, hm⟩
  obtain rfl : m1 = m := hr
  subst hm
  exact h r hco

/-- a read: nothing guards it -/
theorem wp_crd {j : Fin 8} {reg : Reg} {f : UInt8 → Drv α} {Q : α → Watch → Prop}
    (h : ∀ v : UInt8, Cooperative m (.crd j reg) v →
      wp seen gated (f v) Q (Watch.after (.crd j reg) v m)) :
    wp seen gated (crd j reg >>= f) Q m := wp_ask fun v hco => ⟨trivial, h v hco⟩

/-- everything but the acknowledge -/
def Op.Unasking (o : Op) : Prop := ∀ addr, o ≠ .readb addr

/-- where all contexts are closed, such operations are free -/
theorem clear_keeps : Keeps seen gated Op.Unasking Watch.Clear := by
  intro m o r m' ho h ⟨_, hm⟩
  subst hm
  obtain ⟨howed, hacked⟩ := h
  have hshows : ∀ (j : Fin 8) (v : UInt8) i, (m.shows j v).owed i = false := by
    intro j v i
    simp [Watch.shows, howed, hacked]
  cases o with
  | readb addr => exact absurd rfl (ho addr)
  | crd j reg =>
    refine ⟨trivial, ?_⟩
    cases reg
    case TIR => exact ⟨hshows j r, hacked⟩
    case RIR => exact ⟨hshows j r, rfl⟩
    case STK =>
      show (m.level j r).Clear
      unfold Watch.level
      split
      · exact ⟨fun i => by simp [howed], hacked⟩
      · exact ⟨howed, hacked⟩
    all_goals exact ⟨howed, hacked⟩
  | cwr j reg v =>
    refine ⟨fun _ => howed j, ?_⟩
    cases reg <;> exact ⟨howed, hacked⟩
  | lock => exact ⟨trivial, howed, rfl⟩
  | _ => exact ⟨trivial, howed, hacked⟩

theorem wp_clear {p : Drv α} (hu : p.Uses Op.Unasking) (h : m.Clear) :
    wp seen gated p (fun _ m' => m'.Clear) m := wp_keeps (seen_stable _) clear_keeps hu h

theorem Op.Sweep.unasking {o : Op} (h : o.Sweep) : o.Unasking := by
  intro addr he
  subst he
  exact h

theorem Op.Bringup.unasking {k : Fin 32} {o : Op} (h : o.Bringup k) : o.Unasking := by
  rintro addr rfl
  obtain (h | ⟨v, h⟩) | ⟨f, h⟩ := h
  · exact h
  · cases h
  · cases h

/-! ## the end of a context -/

/-- a granted context of chip `j` is being served: no channel is selected, nothing is ended -/
structure Watch.Serving (j : Fin 8) (m : Watch) : Prop where
  owed : ∀ i, i ≠ j → m.owed i = false
  acked : m.acked = false
  aimed : m.aimed = false
  levels : m.levels = 0

/-- `n` looks at `STK` are left -/
structure Watch.Ending (j : Fin 8) (n : Nat) (m : Watch) : Prop where
  owed : ∀ i, i ≠ j → m.owed i = false
  acked : m.acked = false
  ended : m.ended = true
  levels : m.levels + n = 100

theorem wp_eoiLoop_clear (reg : Kind) (val : UInt8) (n : Nat) (hn : n ≠ 0) (h : m.Ending j n) :
    wp seen gated (eoiLoop j (eoirReg reg) val n) (fun _ m' => m'.Clear) m := by
  induction n generalizing m with
  | zero => exact absurd rfl hn
  | succ n ih =>
    unfold eoiLoop
    refine wp_crd fun v hco => ?_
    show wp seen gated _ _ (m.level j v)
    by_cases hv : v &&& 0x81 = 0
    · rw [if_pos hv, Watch.level, if_pos hv]
      refine ⟨fun i => ?_, h.acked⟩
      by_cases hi : i = j
      · simp [hi]
      · simp [h.owed i hi]
    · rw [if_neg hv, Watch.level, if_neg hv]
      have hlev : m.levels + 1 < 100 := hco hv
      have hsum := h.levels
      refine wp_ask fun _ _ => ⟨by cases reg <;> exact False.elim, ih (by omega) ?_⟩
      have hnext : m.levels + 1 + n = 100 := by omega
      cases reg
      · exact ⟨h.owed, h.acked, rfl, hnext⟩
      · exact ⟨h.owed, h.acked, rfl, hnext⟩

/-- **`nm32a_eoi` leaves the context known to be closed.** -/
theorem wp_eoi_clear (reg : Kind) (val : UInt8) (h : m.Serving j) :
    wp seen gated (nm32aEoi j (eoirReg reg) val) (fun _ m' => m'.Clear) m := by
  have hend : ((Watch.after (.cwr j (eoirReg reg) val) () m)).Ending j 100 := by
    have hlev := h.levels
    cases reg
    · exact ⟨h.owed, h.acked, rfl, by show m.levels + 100 = 100; omega⟩
    · exact ⟨h.owed, h.acked, rfl, by show m.levels + 100 = 100; omega⟩
  refine wp_ask fun _ _ => ⟨by cases reg <;> exact False.elim, ?_⟩
  refine wp_ask fun p hco => ⟨trivial, ?_⟩
  have hp : (p : Params).eoiretry ≠ 0 := hco hend.ended
  show wp seen gated (if (p : Params).eoiretry = 0 then _ else _) _ _
  rw [if_neg hp]
  exact wp_eoiLoop_clear reg val 100 (by decide) hend

/-- what a service does before it ends its context -/
def Op.Serves : Op → Prop
  | .crd _ reg => reg ≠ .TIR ∧ reg ≠ .RIR ∧ reg ≠ .STK
  | .cwr _ reg _ => reg = .TDR ∨ reg = .IER
  | .lock => False
  | .readb _ => False
  | _ => True

theorem serving_keeps : Keeps seen gated Op.Serves (Watch.Serving j) := by
  intro m o r m' ho h ⟨_, hm⟩
  subst hm
  cases o with
  | crd j' reg =>
    refine ⟨trivial, ?_⟩
    cases reg
    case TIR => exact absurd rfl ho.1
    case RIR => exact absurd rfl ho.2.1
    case STK => exact absurd rfl ho.2.2
    all_goals exact ⟨h.owed, h.acked, h.aimed, h.levels⟩
  | cwr j' reg v =>
    have haimed := h.aimed
    rcases ho with rfl | rfl
    · exact ⟨False.elim, h.owed, h.acked, h.aimed, h.levels⟩
    · refine ⟨fun ha => ?_, h.owed, h.acked, h.aimed, h.levels⟩
      have ha : m.aimed = true := ha
      rw [haimed] at ha
      cases ha
  | lock => exact False.elim ho
  | readb addr => exact False.elim ho
  | _ => exact ⟨trivial, h.owed, h.acked, h.aimed, h.levels⟩

/-- a service that ends its context -/
theorem wp_ends {body : Drv α} {rest : α → Drv β} (k : Kind) (val : α → UInt8)
    (hb : body.Uses Op.Serves) (hr : ∀ a, (rest a).Uses Op.Unasking) (h : m.Serving j) :
    wp seen gated (do
      let a ← body
      nm32aEoi j (eoirReg k) (val a)
      rest a) (fun _ m' => m'.Clear) m := by
  rw [wp_bind]
  refine wp_post (wp_keeps (seen_stable _) serving_keeps hb h) ?_
  intro a m1 h1
  rw [wp_bind]
  refine wp_post (wp_eoi_clear k (val a) h1) ?_
  intro _ m2 h2
  exact wp_clear (hr a) h2

/-! ## the service routine -/

theorem Op.Fetch.serves {o : Op} (h : o.Fetch j) : o.Serves := by
  rcases h with rfl | rfl
  · exact ⟨nofun, nofun, nofun⟩
  · exact ⟨nofun, nofun, nofun⟩

theorem Op.Sends.serves {i : Fin 32} {o : Op} (h : o.Sends j i) : o.Serves := by
  obtain rfl | ⟨v, rfl⟩ | ⟨v, rfl⟩ := h
  · exact trivial
  · exact .inl rfl
  · exact trivial

theorem Op.Own.unasking {i : Fin 32} {o : Op} (h : o.Own j i) : o.Unasking := by
  rintro addr rfl
  exact h.elim id id

theorem unasking_unlock : (hwUnlock : Drv Unit).Uses Op.Unasking := uses_issue nofun

theorem unasking_deliver (i : Fin 32) (bs : List UInt8) : (deliver i bs).Uses Op.Unasking := by
  refine (hands_deliver i bs).mono fun o ho => ?_
  obtain rfl | ⟨bs, rfl⟩ := ho
  · exact nofun
  · exact nofun

/-- the characters that `RFOC` offers -/
theorem serves_fetch (j : Fin 8) : (do drain j (rxCount (← crd j .RFOC))).Uses Op.Serves := by
  refine Prog.Uses.bind (uses_issue ⟨nofun, nofun, nofun⟩) fun v => ?_
  exact (fetch_drain _).mono fun _ => Op.Fetch.serves

theorem wp_serviceTimeout_clear (ch : Fin 4) (h : m.Serving j) :
    wp seen gated (serviceTimeout j ch) (fun _ m' => m'.Clear) m := by
  have hrest : ∀ rxbuf : List UInt8, (do
      deliver (portIx j ch) rxbuf
      hwUnlock).Uses Op.Unasking :=
    fun rxbuf => (unasking_deliver _ rxbuf).bind fun _ => unasking_unlock
  have hends := wp_ends .rx (fun _ => 0x00) (serves_fetch j) hrest h
  rw [bind_assoc] at hends
  exact hends

theorem wp_serviceGood_clear (ch : Fin 4) (h : m.Serving j) :
    wp seen gated (serviceGood j ch) (fun _ m' => m'.Clear) m := by
  have hrest : ∀ rxbuf : List UInt8, (do
      hwUnlock
      deliver (portIx j ch) rxbuf).Uses Op.Unasking :=
    fun rxbuf => unasking_unlock.bind fun _ => unasking_deliver _ rxbuf
  have hends := wp_ends .rx (fun _ => 0x00) (serves_fetch j) hrest h
  rw [bind_assoc] at hends
  exact hends

theorem wp_serviceException_clear (ch : Fin 4) (tr : Bool) (erisr : UInt8) (h : m.Serving j) :
    wp seen gated (serviceException j ch tr erisr) (fun _ m' => m'.Clear) m := by
  have hbody : (do
      traceException j tr
      dropBad j erisr).Uses Op.Serves :=
    ((fetch_traceException tr).mono fun _ => Op.Fetch.serves).bind fun _ =>
      (fetch_dropBad erisr).mono fun _ => Op.Fetch.serves
  have hrest : ∀ _ : Unit, (do
      nm32aRxException j ch
      hwUnlock).Uses Op.Unasking :=
    fun _ => (uses_rxException.mono fun _ => Op.Own.unasking).bind fun _ => unasking_unlock
  have hends := wp_ends .rx (fun _ => 0x00) hbody hrest h
  rw [bind_assoc] at hends
  exact hends

theorem wp_serviceTx_clear (ch : Fin 4) (h : m.Serving j) :
    wp seen gated (serviceTx j ch) (fun _ m' => m'.Clear) m := by
  have hbody : (do
      spinLock (portIx j ch)
      let room ← crd j .TFTC
      let n ← txLoop j (portIx j ch) (min room.toNat 16)
      txIdle j n
      pure n).Uses Op.Serves := by
    refine Prog.Uses.bind (uses_issue trivial) fun _ => ?_
    refine Prog.Uses.bind (uses_issue ⟨nofun, nofun, nofun⟩) fun room => ?_
    refine Prog.Uses.bind ((sends_txLoop _ _).mono fun _ => Op.Sends.serves) fun n => ?_
    refine Prog.Uses.bind ?_ fun _ => trivial
    exact Prog.Uses.ite (uses_issue (.inr rfl)) trivial
  have hrest : ∀ n : Nat, (do
      spinUnlock (portIx j ch)
      hwUnlock).Uses Op.Unasking :=
    fun n => Prog.Uses.bind (uses_issue nofun) fun _ => unasking_unlock
  have hends := wp_ends .tx (fun n => if n ≠ 0 then 0x00 else 0x08) hbody hrest h
  simp only [bind_assoc, pure_bind] at hends
  exact hends

theorem wp_serviceRx_clear (tr : Bool) (rir0 : UInt8) (h : m.Serving j) :
    wp seen gated (serviceRx j tr rir0) (fun _ m' => m'.Clear) m := by
  unfold serviceRx
  split
  · refine wp_crd fun erisr _ => ?_
    have h' : (Watch.after (.crd j .RISRl) erisr m).Serving j :=
      ⟨h.owed, h.acked, h.aimed, h.levels⟩
    split
    · exact wp_serviceTimeout_clear _ h'
    · exact wp_serviceException_clear _ tr erisr h'
  · exact wp_serviceGood_clear _ h

theorem wp_serviceGranted_clear (g : Granted) (h : m.Serving j) :
    wp seen gated (serviceGranted j g) (fun _ m' => m'.Clear) m := by
  unfold serviceGranted
  split
  · exact wp_serviceRx_clear g.tr g.rir0 h
  · exact wp_serviceTx_clear _ h

/-- a pass up to its acknowledge: the lock is fresh -/
structure Watch.Asking (m : Watch) : Prop extends m.Clear where
  aimed : m.aimed = false
  levels : m.levels = 0

theorem asking_keeps : Keeps seen gated (Op.Ask j) Watch.Asking := by
  intro m o r m' ho h ⟨hco, hm⟩
  have hu : o.Unasking := by
    rintro addr rfl
    exact ho
  obtain ⟨hg, hclear⟩ := clear_keeps m o r m' hu h.toClear ⟨hco, hm⟩
  subst hm
  refine ⟨hg, ?_⟩
  cases o with
  | crd j' reg =>
    obtain ⟨_, rfl | rfl⟩ := ho
    · exact ⟨hclear, h.aimed, h.levels⟩
    · exact ⟨hclear, h.aimed, h.levels⟩
  | params => exact ⟨hclear, h.aimed, h.levels⟩
  | traceDec => exact ⟨hclear, h.aimed, h.levels⟩
  | lock => exact ⟨hclear, rfl, rfl⟩
  | _ => exact False.elim ho

theorem asks_ackAddr (rir0 : UInt8) : (ackAddr rir0).Uses (Op.Ask j) :=
  (uses_ackAddr rir0).mono fun _ ho => ho ▸ trivial

/-- without a grant the lock is given back -/
theorem wp_giveUp {Q : Option Granted → Watch → Prop} (h : m.Clear)
    (hQ : ∀ m' : Watch, m'.Clear → Q none m') :
    wp seen gated (do hwUnlock; return none) Q m := by
  refine wp_ask fun _ _ => ⟨trivial, ?_⟩
  exact hQ _ ⟨h.owed, h.acked⟩

/-- without a grant neither register shows one -/
theorem grantDecision_none {tr : Bool} {tirc tir1 rir1 : UInt8}
    (h : grantDecision tr tirc tir1 rir1 = none) : tir1 &&& 0xC0 ≠ 0x40 ∧ rir1 &&& 0xC0 ≠ 0x40 := by
  unfold grantDecision at h
  by_cases hr : rir1 &&& 0xC0 = 0x40
  · simp [hr] at h
  · by_cases ht : tir1 &&& 0xC0 = 0x40
    · simp [hr, ht] at h
    · exact ⟨ht, hr⟩

/-- what a pass asserts once its registers have shown whether there is a grant -/
def Watch.Decided (j : Fin 8) : Option Granted → Watch → Prop
  | none, m => m.Clear
  | some _, m => m.Serving j

/-- the registers that a pass reads after its acknowledge -/
theorem wp_granted_clear (j : Fin 8) (tr : Bool) (tirc : UInt8) (addr : Nat) (ackv : UInt8)
    (h : m.Asking) :
    wp seen gated (do
      let tir1 ← crd j .TIR
      let rir1 ← crd j .RIR
      match grantDecision tr tirc tir1 rir1 with
      | none =>
        hwUnlock
        return none
      | some g => return some g) (Watch.Decided j) (Watch.after (.readb addr) ackv m) := by
  refine wp_crd fun tir1 _ => ?_
  refine wp_crd fun rir1 _ => ?_
  have helse : ∀ i, i ≠ j → m.owed i = false := fun i _ => h.owed i
  cases hg : grantDecision tr tirc tir1 rir1 with
  | none =>
    obtain ⟨ht, hr⟩ := grantDecision_none hg
    refine wp_giveUp ⟨fun i => ?_, rfl⟩ fun _ h' => h'
    simp [Watch.after, Watch.shows, h.owed, ht, hr]
  | some g =>
    refine ⟨fun i hi => ?_, rfl, h.aimed, h.levels⟩
    simp [Watch.after, Watch.shows, h.owed, hi]

theorem wp_serviceGrant_clear (j : Fin 8) (h : m.Clear) :
    wp seen gated (serviceGrant j) (Watch.Decided j) m := by
  refine wp_ask fun _ _ => ⟨trivial, ?_⟩
  have hlock : (Watch.after .lock () m).Asking := ⟨⟨h.owed, rfl⟩, rfl, rfl⟩
  rw [wp_bind]
  refine wp_post (wp_keeps (seen_stable _) asking_keeps (uses_issue ⟨rfl, .inl rfl⟩) hlock) ?_
  intro tir0 m1 h1
  rw [wp_bind]
  refine wp_post (wp_keeps (seen_stable _) asking_keeps (uses_issue ⟨rfl, .inr rfl⟩) h1) ?_
  intro rir0 m2 h2
  rw [wp_bind]
  refine wp_post (wp_keeps (seen_stable _) asking_keeps (uses_serviceTrace j _) h2) ?_
  intro tr m3 h3
  split
  · exact wp_giveUp h3.toClear fun _ h' => h'
  rw [wp_bind]
  refine wp_post (wp_keeps (seen_stable _) asking_keeps (uses_issue ⟨rfl, .inl rfl⟩) h3) ?_
  intro tirc m4 h4
  rw [wp_bind]
  refine wp_post (wp_keeps (seen_stable _) asking_keeps (uses_issue ⟨rfl, .inr rfl⟩) h4) ?_
  intro rirc m5 h5
  split
  · exact wp_giveUp h5.toClear fun _ h' => h'
  rw [wp_bind]
  refine wp_post (wp_keeps (seen_stable _) (asking_keeps (j := j)) (asks_ackAddr _) h5) ?_
  intro addr m6 h6
  refine wp_ask fun ackv _ => ⟨h6.owed _, ?_⟩
  exact wp_granted_clear j tr tirc addr ackv h6

theorem wp_service_clear (j : Fin 8) (h : m.Clear) :
    wp seen gated (nm32aService j) (fun _ m' => m'.Clear) m := by
  unfold nm32aService
  rw [wp_bind]
  refine wp_post (wp_serviceGrant_clear j h) ?_
  intro g m1 h1
  cases g with
  | none => exact h1
  | some g =>
    show wp seen gated (serviceGranted j g >>= fun _ => pure true) _ m1
    rw [wp_bind]
    exact wp_post (wp_serviceGranted_clear g h1) fun _ _ h' => h'

/-! ## runs -/

instance instDecidableAddressed (aimed : Bool) (reg : Reg) : Decidable (reg.Addressed aimed) := by
  cases reg
  case CAR => exact .isTrue trivial
  case TDR => exact .isFalse id
  case REOIR => exact .isFalse id
  case TEOIR => exact .isFalse id
  all_goals exact inferInstanceAs (Decidable (aimed = true))

instance instDecidableGated (m : Watch) (o : Op) (r : Res o) : Decidable (Gated m o r) := by
  cases o with
  | readb addr => exact inferInstanceAs (Decidable (m.owed m.serving = false))
  | cwr j reg v =>
    exact inferInstanceAs (Decidable (reg.Addressed m.aimed → m.owed j = false))
  | _ => exact .isTrue trivial

instance instDecidableCooperative (m : Watch) (o : Op) (r : Res o) :
    Decidable (Cooperative m o r) := by
  cases o with
  | params => exact inferInstanceAs (Decidable (m.ended = true → (r : Params).eoiretry ≠ 0))
  | crd j reg =>
    cases reg
    case STK =>
      have hv : Decidable (Active r) := instDecidableActive r
      exact inferInstanceAs (Decidable (Active r → m.levels + 1 < 100))
    all_goals exact .isTrue trivial
  | _ => exact .isTrue trivial

theorem wp_call_clear (call : Call) (h : m.Clear) :
    wp seen gated call.prog (fun _ m' => m'.Clear) m := by
  have hbring : ∀ {β : Type} {p : Drv β} (k : Fin 32), p.Uses (Op.Bringup k) →
      wp seen gated p (fun _ m' => m'.Clear) m :=
    fun k hu => wp_clear (hu.mono fun _ => Op.Bringup.unasking) h
  have hdiscard : ∀ {β : Type} {p : Drv β}, wp seen gated p (fun _ m' => m'.Clear) m →
      wp seen gated (discard p) (fun _ m' => m'.Clear) m :=
    fun hp => (wp_bind _ _ _ _).mpr (wp_post hp fun _ _ h' => h')
  cases call with
  | service j => exact hdiscard (wp_service_clear j h)
  | armTx j => exact wp_clear ((uses_armTx j).mono fun _ => Op.Sweep.unasking) h
  | activate turns k rate => exact hdiscard (hbring k (uses_activate turns rate))
  | setTermios turns k rate => exact hbring k ((uses_setTermios turns rate).mono fun _ => .inl)
  | dtrRts k active => exact hbring k ((uses_dtrRts active).mono fun _ h => .inl (.inl h))
  | shutdown k => exact hbring k (uses_shutdown.mono fun _ => .inl)
  | sample k => exact hdiscard (hbring k (uses_sample.mono fun _ h => .inl (.inl h)))

theorem wp_calls_clear (calls : List Call) (h : m.Clear) :
    wp seen gated (callsProg calls) (fun _ m' => m'.Clear) m := by
  induction calls generalizing m with
  | nil => exact h
  | cons call calls ih =>
    refine (wp_bind _ _ _ _).mpr (wp_post (wp_call_clear call h) ?_)
    intro _ m1 h1
    exact ih h1

theorem Watch.start_clear : Watch.start.Clear := ⟨fun _ => rfl, rfl⟩

/-- **Where every chip shows its contexts closed in time, nothing is acknowledged or addressed
on top of one that is not known to be closed.** -/
theorem gated_runs {σ : Type} (E : Env Op Res σ) (calls : List Call) {s s' : σ}
    {tr : List (Event Op Res σ)} {p' : Drv Unit} (h : Exec E (callsProg calls) s tr s' p')
    (hco : Along Watch.after Cooperative Watch.start tr) :
    Along Watch.after Gated Watch.start tr :=
  (h.along (wp_calls_clear calls Watch.start_clear) hco).1

/-- a chip that grants a transmit service and then asks for a receive service; `STK` reads `stk`
while the first is granted -/
def twoRequestsReg (stk : UInt8) (granted : Bool) : Reg → UInt8
  | .TIR => if granted then 0x40 else 0xC0
  | .RIR => if granted then 0xC0 else 0x00
  | .STK => if granted then stk else 0x00
  | _ => 0x00

/-- a card of such chips; the state says whether the grant was given -/
def twoRequests (stk : UInt8) (granted : Bool) : (o : Op) → Option (Res o × Bool) :=
  showing (twoRequestsReg stk) (fun _ => true) Params.default granted

/-- two passes over that chip -/
def twoPasses (stk : UInt8) : List (Event Op Res Bool) :=
  ((Policy.machine (twoRequests stk)).play 0
    (callsProg [.service 4, .service 4]) false).1

/-- a chip whose `STK` is clear -/
theorem gated_runs_twoPasses : Along Watch.after Gated Watch.start (twoPasses 0x00) :=
  gated_runs _ [.service 4, .service 4]
    ((Policy.machine (twoRequests 0x00)).play_exec 0 _ false) (by decide +kernel)

/-- a chip whose `STK` keeps showing a transmit level: `nm32a_eoi` gives up, the service counts
as done, and the next pass acknowledges on top of it -/
theorem gated_fails : ∃ (E : Env Op Res Bool) (calls : List Call) (tr : List (Event Op Res Bool))
    (s' : Bool) (p' : Drv Unit), Exec E (callsProg calls) false tr s' p' ∧
    ¬Along Watch.after Gated Watch.start tr :=
  ⟨_, [.service 4, .service 4], twoPasses 0x80, _, _,
    (Policy.machine (twoRequests 0x80)).play_exec 0 _ false, by decide +kernel⟩

end Nm32a
