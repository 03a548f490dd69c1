import Relicnos.Nm32a.Confirm

/-!
# The poll thread takes turns

`nm32a_poll_thread` goes over the chips in order.  A chip with an open port is armed and then
serviced up to `burst` times in a row, so the others wait for it, but not for long.

* `Round`            whose turn it is, and how many acknowledges each chip has waited for since its
                     requests were last sampled or its ports were last found closed;
* `InTurn`           only the chip whose turn it is is touched, the turn passes to the next one, and
                     no chip has waited for more than `7 * B` acknowledges;
* `turns_taken`      this is so at every operation of every run in which `burst` stays between 1
                     and `B`.
-/

set_option linter.unusedVariables false

namespace Nm32a
open Interact

/-- the chip that an operation is about -/
def Op.chip : Op → Option (Fin 8)
  | .crd j _ => some j
  | .cwr j _ _ => some j
  | .spinLock i => some (chipOf i)
  | .spinUnlock i => some (chipOf i)
  | .port i => some (chipOf i)
  | .setPort i _ => some (chipOf i)
  | .flip i _ => some (chipOf i)
  | _ => none

structure Round where
  /-- the chip whose ports were last looked at -/
  turn : Fin 8
  /-- one of them was open, as far as the thread has looked -/
  found : Bool
  waits : Fin 8 → Nat

namespace Round

/-- before the first turn -/
def start : Round := ⟨7, false, fun _ => 0⟩

/-- a port is looked at, the first of its chip anew and the last one after the others -/
def look (m : Round) (i : Fin 32) (np : Port) : Round where
  turn := chipOf i
  found := (chanIx i != 0 && m.found) || np.opened
  waits k := if chanIx i = 3 ∧ (m.found || np.opened) = false ∧ k = chipOf i then 0 else m.waits k

/-- the requests of a chip are sampled -/
def sample (m : Round) (j : Fin 8) : Round :=
  { m with waits := fun k => if k = j then 0 else m.waits k }

def acknowledge (m : Round) : Round := { m with waits := fun k => m.waits k + 1 }

def after : (o : Op) → Res o → Round → Round
  | .port i, np, m => m.look i np
  | .crd j .TIR, _, m => m.sample j
  | .readb _, _, m => m.acknowledge
  | _, _, m => m

end Round

/-- the operation is in turn, and after it no chip has waited for too long -/
def InTurn (B : Nat) (m : Round) (o : Op) (r : Res o) : Prop :=
  (∀ k, o.chip = some k → k = m.turn ∨ (k = m.turn + 1 ∧ o = .port (portIx k 0))) ∧
    ∀ k, (Round.after o r m).waits k ≤ 7 * B

/-- `(unsigned)burst` is between 1 and `B` -/
def Modest (B : Nat) (m : Round) : (o : Op) → Res o → Prop
  | .params, p => 1 ≤ (p.burst % 2^32).toNat ∧ (p.burst % 2^32).toNat ≤ B
  | _, _ => True

/-- a card that answers anything, with a modest `burst` -/
def taking (B : Nat) : Env Op Res Round := Env.answers Round.after (Modest B)

/-- the guard of a run in it -/
def inTurn (B : Nat) (e : Event Op Res Round) : Prop := InTurn B e.pre e.op e.res

variable {B : Nat} {j k : Fin 8} {m : Round} {α : Type} {w w' : Fin 8 → Nat}

theorem taking_stable (P : Round → Prop) : Stable (taking B) P := by
  intro m m' h hr
  obtain rfl : m' = m := hr
  exact h

/-- operations about chip `j`, without acknowledges -/
def Op.Turn (j : Fin 8) (o : Op) : Prop := o.Unasking ∧ ∀ k, o.chip = some k → k = j

/-- it is the turn of chip `j`, and the chips have waited for at most `w` acknowledges -/
structure Upto (j : Fin 8) (w : Fin 8 → Nat) (m : Round) : Prop where
  turn : m.turn = j
  waits : ∀ k, m.waits k ≤ w k

theorem Upto.mono (h : Upto j w m) (hw : ∀ k, w k ≤ w' k) : Upto j w' m :=
  ⟨h.turn, fun k => Nat.le_trans (h.waits k) (hw k)⟩

theorem look_waits (i : Fin 32) (np : Port) (k : Fin 8) : (m.look i np).waits k ≤ m.waits k := by
  unfold Round.look
  simp only
  split
  · exact Nat.zero_le _
  · exact Nat.le_refl _

theorem look_found (x : Fin 4) (np : Port) :
    (m.look (portIx j x) np).found = ((x != 0 && m.found) || np.opened) := by
  show ((chanIx (portIx j x) != 0 && m.found) || np.opened) = _
  rw [chanIx_portIx]

/-- all four ports of the chip are closed -/
theorem look_last {np : Port} (h : (m.found || np.opened) = false) :
    (m.look (portIx j 3) np).waits j = 0 := by
  apply if_pos
  exact ⟨chanIx_portIx j 3, h, (chipOf_portIx j 3).symm⟩

theorem sample_waits : (m.sample j).waits k ≤ m.waits k := by
  unfold Round.sample
  simp only
  split
  · exact Nat.zero_le _
  · exact Nat.le_refl _

/-! ## one operation -/

theorem Upto.after {o : Op} (r : Res o) (h : Upto j w m) (ho : o.Turn j) :
    Upto j w (Round.after o r m) := by
  cases o with
  | port i =>
    have hi : chipOf i = j := ho.2 _ rfl
    exact ⟨hi, fun k => Nat.le_trans (look_waits i r k) (h.waits k)⟩
  | crd j' reg =>
    cases reg
    case TIR => exact ⟨h.turn, fun k => Nat.le_trans sample_waits (h.waits k)⟩
    all_goals exact h
  | readb addr => exact absurd rfl (ho.1 addr)
  | _ => exact h

/-- as long as nobody has waited too long, such operations are free -/
theorem upto_keeps (hw : ∀ k, w k ≤ 7 * B) :
    Keeps (taking B) (inTurn B) (Op.Turn j) (Upto j w) := by
  rintro m o r m' ho h ⟨_, rfl⟩
  have h' := h.after r ho
  refine ⟨⟨fun k hk => .inl ?_, fun k => Nat.le_trans (h'.waits k) (hw k)⟩, h'⟩
  rw [ho.2 k hk, h.turn]

theorem wp_turn {p : Drv α} (hw : ∀ k, w k ≤ 7 * B) (hu : p.Uses (Op.Turn j))
    (h : Upto j w m) : wp (taking B) (inTurn B) p (fun _ m' => Upto j w m') m :=
  wp_keeps (taking_stable _) (upto_keeps hw) hu h

/-- the requests of the chip are sampled -/
theorem Upto.sample (h : Upto j w m) : Upto j (fun k => if k = j then 0 else w k) (m.sample j) := by
  refine ⟨h.turn, fun k => ?_⟩
  show (if k = j then 0 else m.waits k) ≤ if k = j then 0 else w k
  split
  · exact Nat.le_refl _
  · exact h.waits k

theorem Upto.acknowledge (h : Upto j w m) : Upto j (fun k => w k + 1) m.acknowledge :=
  ⟨h.turn, fun k => Nat.add_le_add_right (h.waits k) 1⟩

/-! ## one service -/

theorem turn_other {o : Op} (h : o.chip = none) (hu : o.Unasking) : o.Turn j := by
  refine ⟨hu, fun k hk => ?_⟩
  rw [h] at hk
  cases hk

theorem turn_here {o : Op} (h : o.chip = some j) (hu : o.Unasking) : o.Turn j := by
  refine ⟨hu, fun k hk => ?_⟩
  rw [h] at hk
  exact (Option.some.inj hk).symm

theorem turn_port (ch : Fin 4) : (Op.port (portIx j ch)).Turn j :=
  turn_here (congrArg some (chipOf_portIx j ch)) nofun

theorem Op.Peek.turn {o : Op} (h : o.Peek j) : o.Turn j := by
  cases o with
  | crd j' reg =>
    obtain rfl : j' = j := h.1
    exact turn_here rfl nofun
  | params => exact turn_other rfl nofun
  | traceDec => exact turn_other rfl nofun
  | jiffies => exact turn_other rfl nofun
  | ratelimit => exact turn_other rfl nofun
  | lock => exact turn_other rfl nofun
  | shouldStop => exact turn_other rfl nofun
  | hang => exact turn_other rfl nofun
  | _ => exact False.elim h

theorem Op.Mine.turn {ch : Fin 4} {o : Op} (h : o.Mine j (portIx j ch)) : o.Turn j := by
  have hp := congrArg some (chipOf_portIx j ch)
  cases o with
  | cwr j' reg v =>
    obtain rfl : j' = j := h.1
    exact turn_here rfl nofun
  | port i =>
    obtain rfl : i = portIx j ch := h
    exact turn_here hp nofun
  | setPort i f =>
    obtain rfl : i = portIx j ch := h.1
    exact turn_here hp nofun
  | spinLock i =>
    obtain rfl : i = portIx j ch := h
    exact turn_here hp nofun
  | spinUnlock i =>
    obtain rfl : i = portIx j ch := h
    exact turn_here hp nofun
  | flip i bs =>
    obtain rfl : i = portIx j ch := h
    exact turn_here hp nofun
  | _ => exact False.elim h

theorem Op.Pass.turn {q : Kind} {ch : Fin 4} {o : Op} (h : Op.Pass j q ch o) : o.Turn j := by
  rcases h with ((h | h) | rfl | ⟨_, rfl⟩ | ⟨_, ⟨v, rfl⟩ | ⟨v, rfl⟩⟩) | h | ⟨v, rfl⟩
  · exact h.turn
  · exact h.turn
  · exact turn_here rfl nofun
  · exact turn_here rfl nofun
  · exact turn_here rfl nofun
  · exact turn_here (congrArg some (chipOf_portIx j ch)) nofun
  · exact h.turn
  · exact turn_here rfl nofun

theorem turn_serviceGranted (g : Granted) : (serviceGranted j g).Uses (Op.Turn j) := by
  have hg := reaches_serviceGranted (O := Op.Turn j) g fun q ch o (h : Op.Pass j q ch o) => h.turn
  refine hg.uses.mono ?_
  rintro o (h | rfl)
  · exact h
  · exact turn_other rfl nofun

theorem wp_take {o : Op} {f : Res o → Drv α} {Q : α → Round → Prop}
    (h : ∀ r, Modest B m o r → InTurn B m o r ∧
      wp (taking B) (inTurn B) (f r) Q (Round.after o r m)) :
    wp (taking B) (inTurn B) (issue o >>= f) Q m := by
  intro m1 hr r m2 ⟨hmod, hm⟩
  obtain rfl : m1 = m := hr
  subst hm
  exact h r hmod

/-- the lock is given back without a service -/
theorem wp_pass (hw : ∀ k, w k ≤ 7 * B) (h : Upto j w m) :
    wp (taking B) (inTurn B) (do hwUnlock; return none : Drv (Option Granted))
      (fun _ m' => Upto j w m') m := by
  apply wp_turn hw ?_ h
  exact Prog.Uses.bind (uses_issue (turn_other rfl nofun)) fun _ => trivial

/-- the waits after chip `j` was sampled -/
def cleared (j : Fin 8) (w : Fin 8 → Nat) : Fin 8 → Nat := fun k => if k = j then 0 else w k

@[simp] theorem cleared_self : cleared j w j = 0 := if_pos rfl
theorem cleared_other (h : k ≠ j) : cleared j w k = w k := if_neg h

theorem cleared_succ (k : Fin 8) : cleared j w k ≤ cleared j (fun k => w k + 1) k := by
  by_cases h : k = j
  · subst h
    simp
  · rw [cleared_other h, cleared_other h]
    exact Nat.le_succ _

theorem cleared_twice (k : Fin 8) :
    cleared j (fun k => cleared j w k + 1) k ≤ cleared j (fun k => w k + 1) k := by
  by_cases h : k = j
  · subst h
    simp
  · rw [cleared_other h, cleared_other h, cleared_other h]

theorem cleared_room (h : ∀ k, k ≠ j → w k + 1 ≤ 7 * B) (k : Fin 8) :
    cleared j (fun k => w k + 1) k ≤ 7 * B := by
  unfold cleared
  split
  · exact Nat.zero_le _
  · exact h k ‹_›

theorem wp_serviceGrant_turn (hB : 0 < B) (hw : ∀ k, w k ≤ 7 * B)
    (hw' : ∀ k, k ≠ j → w k + 1 ≤ 7 * B) (h : Upto j w m) :
    wp (taking B) (inTurn B) (serviceGrant j)
      (fun _ m' => Upto j (cleared j fun k => w k + 1) m') m := by
  have hw1 : ∀ k, cleared j w k + 1 ≤ 7 * B := by
    intro k
    unfold cleared
    split
    · omega
    · exact hw' k ‹_›
  have hw0 : ∀ k, cleared j w k ≤ 7 * B := fun k => Nat.le_of_succ_le (hw1 k)
  have hw2 := cleared_room hw'
  have hgive : ∀ {m1}, Upto j (cleared j w) m1 → wp (taking B) (inTurn B)
      (do hwUnlock; return none : Drv (Option Granted))
      (fun _ m' => Upto j (cleared j fun k => w k + 1) m') m1 :=
    fun h1 => wp_post (wp_pass hw0 h1) fun _ _ h2 => h2.mono cleared_succ
  have hread : ∀ reg, reg ≠ .RDR ∧ reg ≠ .RFOC → (crd j reg).Uses (Op.Turn j) :=
    fun reg hr => uses_issue (Op.Peek.turn ⟨rfl, hr⟩)
  refine wp_bind_keeps (taking_stable _) (upto_keeps hw) (uses_issue (turn_other rfl nofun)) h ?_
  intro _ m1 h1
  refine wp_take fun tir0 _ => ?_
  have h2 : Upto j (cleared j w) (m1.sample j) := h1.sample
  refine ⟨⟨fun k hk => .inl ?_, fun k => Nat.le_trans (h2.waits k) (hw0 k)⟩, ?_⟩
  · rw [← Option.some.inj hk]
    exact h1.turn.symm
  refine wp_bind_keeps (taking_stable _) (upto_keeps hw0) (hread .RIR ⟨nofun, nofun⟩) h2 ?_
  intro rir0 m3 h3
  refine wp_bind_keeps (taking_stable _) (upto_keeps hw0)
    ((uses_serviceTrace j _).mono fun _ h => h.peek.turn) h3 ?_
  intro tr m4 h4
  split
  · exact hgive h4
  refine wp_bind_keeps (taking_stable _) (upto_keeps hw0) (hread .TIR ⟨nofun, nofun⟩) h4 ?_
  intro tirc m5 h5
  refine wp_bind_keeps (taking_stable _) (upto_keeps hw0) (hread .RIR ⟨nofun, nofun⟩) h5 ?_
  intro rirc m6 h6
  split
  · exact hgive h6
  refine wp_bind_keeps (taking_stable _) (upto_keeps (j := j) hw0)
    ((uses_ackAddr rirc).mono ?_) h6 ?_
  · rintro o rfl
    exact turn_other rfl nofun
  intro addr m7 h7
  refine wp_take fun ackv _ => ?_
  have h8 : Upto j (fun k => cleared j w k + 1) m7.acknowledge := h7.acknowledge
  refine ⟨⟨fun k hk => (by cases hk), fun k => Nat.le_trans (h8.waits k) (hw1 k)⟩, ?_⟩
  refine wp_take fun tir1 _ => ?_
  have h9 : Upto j (cleared j fun k => w k + 1) (m7.acknowledge.sample j) :=
    h8.sample.mono cleared_twice
  refine ⟨⟨fun k hk => .inl ?_, fun k => Nat.le_trans (h9.waits k) (hw2 k)⟩, ?_⟩
  · rw [← Option.some.inj hk]
    exact h8.turn.symm
  refine wp_bind_keeps (taking_stable _) (upto_keeps hw2) (hread .RIR ⟨nofun, nofun⟩) h9 ?_
  intro rir1 m10 h10
  cases grantDecision tr tirc tir1 rir1 with
  | none => exact wp_pass hw2 h10
  | some g => exact h10

theorem wp_service_turn (hB : 0 < B) (hw : ∀ k, w k ≤ 7 * B)
    (hw' : ∀ k, k ≠ j → w k + 1 ≤ 7 * B) (h : Upto j w m) :
    wp (taking B) (inTurn B) (nm32aService j)
      (fun _ m' => Upto j (cleared j fun k => w k + 1) m') m := by
  unfold nm32aService
  rw [wp_bind]
  refine wp_post (wp_serviceGrant_turn hB hw hw' h) ?_
  intro g m1 h1
  cases g with
  | none => exact h1
  | some g =>
    show wp (taking B) (inTurn B) (serviceGranted j g >>= fun _ => pure true) _ m1
    rw [wp_bind]
    exact wp_post (wp_turn (cleared_room hw') (turn_serviceGranted g) h1) fun _ _ h' => h'

/-! ## one turn -/

/-- the waits in a turn of chip `j`, after `n` services -/
def during (B : Nat) (j : Fin 8) (w : Fin 8 → Nat) (n : Nat) : Fin 8 → Nat :=
  fun k => if k = j then if n = 0 then 7 * B else 0 else w k + n

theorem during_le {n : Nat} (hw : ∀ k, k ≠ j → w k + B ≤ 7 * B) (hn : n ≤ B) (k : Fin 8) :
    during B j w n k ≤ 7 * B := by
  unfold during
  split
  · split <;> omega
  · have := hw k ‹_›
    omega

theorem during_succ (n : Nat) (k : Fin 8) :
    cleared j (fun k => during B j w n k + 1) k = during B j w (n + 1) k := by
  unfold during
  by_cases h : k = j
  · rw [h, cleared_self, if_pos rfl, if_neg (Nat.succ_ne_zero n)]
  · rw [cleared_other h, if_neg h, if_neg h]
    rfl

theorem during_mono {n n' : Nat} (hn : 0 < n) (h : n ≤ n') (k : Fin 8) :
    during B j w n k ≤ during B j w n' k := by
  unfold during
  split
  · rw [if_neg (by omega), if_neg (by omega)]
  · omega

/-- the services of a turn -/
theorem wp_pollChip_turn (hB : 0 < B) (hw : ∀ k, k ≠ j → w k + B ≤ 7 * B) (svc : UInt32) (n : Nat)
    (hsvc : svc.toNat ≤ B) (h : Upto j (during B j w svc.toNat) m) :
    wp (taking B) (inTurn B) (pollChip j svc n) (fun _ m' => Upto j (during B j w B) m') m := by
  induction n generalizing svc m with
  | zero => exact fun m1 _ r => Empty.elim r
  | succ n ih =>
    refine wp_take fun p hmod => ?_
    obtain ⟨hlow, hhigh⟩ := hmod
    have hwait : ∀ k, m.waits k ≤ 7 * B := fun k => Nat.le_trans (h.waits k) (during_le hw hsvc k)
    refine ⟨⟨fun k hk => (by cases hk), hwait⟩, ?_⟩
    split
    · have hlt : svc.toNat < (p.burst % 2^32).toNat := ‹_›
      have hlt32 : (p.burst % 2^32).toNat < 2^32 := by omega
      have hnext : (svc + 1).toNat = svc.toNat + 1 := by
        rw [UInt32.toNat_add]
        show (svc.toNat + 1) % 2^32 = svc.toNat + 1
        omega
      have hroom : ∀ k, k ≠ j → during B j w svc.toNat k + 1 ≤ 7 * B := by
        intro k hk
        have := hw k hk
        unfold during
        rw [if_neg hk]
        omega
      rw [wp_bind]
      refine wp_post (wp_service_turn hB (during_le hw hsvc) hroom h) ?_
      intro more m1 h1
      have h2 : Upto j (during B j w (svc.toNat + 1)) m1 := h1.mono fun k => by rw [during_succ]
      split
      · apply ih (svc + 1)
        · omega
        · rw [hnext]
          exact h2
      · exact h2.mono (during_mono (by omega) (by omega))
    · -- `burst` was lowered in the middle of the turn, or the turn is over
      exact h.mono (during_mono (by omega) hsvc)

/-- how many turns of other chips have passed since that of chip `k`, before that of chip `j` -/
def passed (k j : Fin 8) : Nat := (j - k - 1).val

theorem passed_self (j : Fin 8) : passed j j = 7 := by
  revert j
  decide

theorem passed_next (k j : Fin 8) : passed k (j + 1) = if k = j then 0 else passed k j + 1 := by
  revert k j
  decide

theorem passed_other {k j : Fin 8} (h : k ≠ j) : passed k j ≤ 6 := by
  revert k j
  decide

/-- the waits before the turn of chip `j` -/
def due (B : Nat) (j k : Fin 8) : Nat := passed k j * B

theorem due_le (B : Nat) (j k : Fin 8) : due B j k ≤ 7 * B := by
  unfold due
  by_cases h : k = j
  · rw [h, passed_self]
  · have := Nat.mul_le_mul_right B (passed_other h)
    omega

theorem due_room (h : k ≠ j) : due B j k + B ≤ 7 * B := by
  unfold due
  have := Nat.mul_le_mul_right B (passed_other h)
  omega

theorem due_next (hB : 0 < B) (j k : Fin 8) : due B (j + 1) k = during B j (due B j) B k := by
  unfold due during
  rw [passed_next]
  split
  · rw [if_neg (by omega), Nat.zero_mul]
  · rw [Nat.add_mul]
    show passed k j * B + 1 * B = passed k j * B + B
    omega

/-- it is time for the turn of chip `j` -/
structure Due (B : Nat) (j : Fin 8) (m : Round) : Prop where
  turn : m.turn + 1 = j
  waits : ∀ k, m.waits k ≤ due B j k

theorem turn_armTxChan (x : Fin 4) : (armTxChan j x).Uses (Op.Turn j) := by
  have hp := congrArg some (chipOf_portIx j x)
  refine Prog.Uses.bind (uses_issue (turn_here hp nofun)) ?_
  intro _
  refine Prog.Uses.bind (uses_issue (turn_port x)) ?_
  intro np
  refine Prog.Uses.bind (uses_issue (turn_here hp nofun)) ?_
  intro _
  refine Prog.Uses.ite ?_ trivial
  refine Prog.Uses.bind (uses_issue (turn_here rfl nofun)) ?_
  intro _
  refine Prog.Uses.bind (uses_issue (turn_port x)) ?_
  intro np
  exact uses_issue (turn_here rfl nofun)

theorem turn_armTx : (nm32aArmTx j).Uses (Op.Turn j) := by
  refine Prog.Uses.bind (uses_issue (turn_other rfl nofun)) ?_
  intro _
  refine Prog.Uses.bind (turn_armTxChan 0) ?_
  intro _
  refine Prog.Uses.bind (turn_armTxChan 1) ?_
  intro _
  refine Prog.Uses.bind (turn_armTxChan 2) ?_
  intro _
  refine Prog.Uses.bind (turn_armTxChan 3) ?_
  intro _
  exact uses_issue (turn_other rfl nofun)

/-- a port that is not the first of its chip is looked at in the turn of the chip -/
theorem wp_look (x : Fin 4) {f : Port → Drv α} {Q : α → Round → Prop} (hw : ∀ k, w k ≤ 7 * B)
    (h : Upto j w m) (hf : ∀ np, wp (taking B) (inTurn B) (f np) Q (m.look (portIx j x) np)) :
    wp (taking B) (inTurn B) (portAt (portIx j x) >>= f) Q m := by
  refine wp_take fun np _ => ⟨⟨fun k hk => .inl ?_, fun k => ?_⟩, hf np⟩
  · rw [← Option.some.inj hk, chipOf_portIx]
    exact h.turn.symm
  · exact Nat.le_trans (look_waits _ np k) (Nat.le_trans (h.waits k) (hw k))

/-- the chip is looked at; if its ports are closed, it does not wait any longer -/
theorem wp_chipBusy_turn (h : Due B j m) : wp (taking B) (inTurn B) (chipBusy j)
    (fun busy m' => Upto j (due B j) m' ∧ (busy = false → m'.waits j = 0)) m := by
  have hnext : ∀ {m : Round} (x : Fin 4) (np : Port), Upto j (due B j) m →
      Upto j (due B j) (m.look (portIx j x) np) :=
    fun x np h => h.after (o := .port (portIx j x)) np (turn_port x)
  refine wp_take fun p0 _ => ?_
  have h0 : Upto j (due B j) (m.look (portIx j 0) p0) :=
    ⟨chipOf_portIx j 0, fun k => Nat.le_trans (look_waits _ p0 k) (h.waits k)⟩
  refine ⟨⟨fun k hk => .inr ?_, fun k => Nat.le_trans (h0.waits k) (due_le B j k)⟩, ?_⟩
  · have hk : j = k := (chipOf_portIx j 0).symm.trans (Option.some.inj hk)
    subst hk
    exact ⟨h.turn.symm, rfl⟩
  have h1 := fun p1 => hnext 1 p1 h0
  refine wp_look 1 (due_le B j) h0 fun p1 => ?_
  refine wp_look 2 (due_le B j) (h1 p1) fun p2 => ?_
  have h2 := hnext 2 p2 (h1 p1)
  refine wp_look 3 (due_le B j) h2 fun p3 => ?_
  refine ⟨hnext 3 p3 h2, fun hbusy => ?_⟩
  apply look_last
  rw [look_found, look_found]
  have h0 : (m.look (portIx j 0) p0).found = p0.opened := look_found 0 p0
  rw [show Round.after (.port (portIx j 0)) p0 m = m.look (portIx j 0) p0 from rfl, h0]
  exact hbusy

/-- **A turn.** -/
theorem wp_pollSweepChip_turn (hB : 0 < B) (turns : Nat) (h : Due B j m) :
    wp (taking B) (inTurn B) (pollSweepChip turns j) (fun _ m' => Due B (j + 1) m') m := by
  have hfirst : ∀ k, due B j k ≤ during B j (due B j) 0 k := by
    intro k
    unfold during
    split
    · exact due_le B j k
    · exact Nat.le_refl _
  have hend : ∀ {m : Round}, Upto j (during B j (due B j) B) m → Due B (j + 1) m := by
    intro m hm
    refine ⟨congrArg (· + 1) hm.turn, fun k => ?_⟩
    rw [due_next hB]
    exact hm.waits k
  unfold pollSweepChip
  rw [wp_bind]
  refine wp_post (wp_chipBusy_turn h) ?_
  rintro busy m1 ⟨h1, hidle⟩
  split
  · refine wp_bind_keeps (taking_stable _) (upto_keeps (due_le B j)) turn_armTx h1 ?_
    intro _ m2 h2
    have hroom : ∀ k, k ≠ j → due B j k + B ≤ 7 * B := fun k hk => due_room hk
    have h2' : Upto j (during B j (due B j) (0 : UInt32).toNat) m2 := h2.mono hfirst
    exact wp_post (wp_pollChip_turn hB hroom 0 turns (Nat.zero_le _) h2') fun _ m3 h3 => hend h3
  · -- all its ports are closed
    refine hend ⟨h1.turn, fun k => ?_⟩
    unfold during
    split
    · rw [‹k = j›, hidle (Bool.eq_false_iff.mpr ‹_›)]
      exact Nat.zero_le _
    · exact Nat.le_trans (h1.waits k) (Nat.le_add_right _ _)

/-- chips one after the other, the last one followed by `j` -/
inductive InOrder : Fin 8 → List (Fin 8) → Fin 8 → Prop
  | nil (j : Fin 8) : InOrder j [] j
  | cons {j j' : Fin 8} {chips : List (Fin 8)} : InOrder (j + 1) chips j' →
      InOrder j (j :: chips) j'

theorem wp_pollSweep_turn (hB : 0 < B) (turns : Nat) {chips : List (Fin 8)} {j' : Fin 8}
    (hc : InOrder j chips j') (h : Due B j m) :
    wp (taking B) (inTurn B) (pollSweep turns chips) (fun _ m' => Due B j' m') m := by
  induction hc generalizing m with
  | nil j => exact h
  | cons _ ih =>
    refine (wp_bind _ _ _ _).mpr (wp_post (wp_pollSweepChip_turn hB turns h) ?_)
    intro _ m1 h1
    exact ih h1

theorem allChips_inOrder : InOrder 0 allChips 0 :=
  .cons (.cons (.cons (.cons (.cons (.cons (.cons (.cons (.nil 0))))))))

theorem wp_pollThread_turn (hB : 0 < B) (turns n : Nat) (h : Due B 0 m) :
    wp (taking B) (inTurn B) (nm32aPollThread turns n) (fun _ m' => Due B 0 m') m := by
  induction n generalizing m with
  | zero => exact fun m1 _ r => Empty.elim r
  | succ n ih =>
    refine wp_take fun stop _ => ?_
    refine ⟨⟨fun k hk => (by cases hk), fun k => ?_⟩, ?_⟩
    · exact Nat.le_trans (h.waits k) (due_le B 0 k)
    split
    · exact h
    · exact (wp_bind _ _ _ _).mpr
        (wp_post (wp_pollSweep_turn hB turns allChips_inOrder h) fun _ m' h' => ih h')

theorem Round.start_due : Due B 0 Round.start :=
  ⟨by decide, fun k => Nat.zero_le _⟩

/-- **No chip starves**, whatever the card answers: the thread goes round the chips, and none with
an open port waits for more than `7 * B` acknowledges until its requests are sampled again. -/
theorem turns_taken {σ : Type} (E : Env Op Res σ) (B turns n : Nat) (hB : 0 < B) {s s' : σ}
    {tr : List (Event Op Res σ)} {p' : Drv Unit} (h : Exec E (nm32aPollThread turns n) s tr s' p')
    (hburst : Along Round.after (Modest B) Round.start tr) :
    Along Round.after (InTurn B) Round.start tr :=
  (h.along (wp_pollThread_turn hB turns n Round.start_due) hburst).1

instance instDecidableModest (B : Nat) (m : Round) :
    (o : Op) → (r : Res o) → Decidable (Modest B m o r)
  | .params, p => inferInstanceAs (Decidable (1 ≤ ((p : Params).burst % 2^32).toNat ∧
      ((p : Params).burst % 2^32).toNat ≤ B))
  | .crd _ _, _ => .isTrue trivial
  | .cwr _ _ _, _ => .isTrue trivial
  | .readb _, _ => .isTrue trivial
  | .lock, _ => .isTrue trivial
  | .unlock, _ => .isTrue trivial
  | .spinLock _, _ => .isTrue trivial
  | .spinUnlock _, _ => .isTrue trivial
  | .port _, _ => .isTrue trivial
  | .setPort _ _, _ => .isTrue trivial
  | .traceDec, _ => .isTrue trivial
  | .jiffies, _ => .isTrue trivial
  | .ratelimit, _ => .isTrue trivial
  | .flip _ _, _ => .isTrue trivial
  | .shouldStop, _ => .isTrue trivial
  | .hang, _ => .isTrue trivial

/-- chips that always have a transmit request, all ports open; one turn of the thread -/
def allAsking : List (Event Op Res Unit) :=
  ((Policy.machine fun u => showing (fun _ reg => if reg = .TIR then 0xC0 else 0x00) id
    Params.default u).play 0 (nm32aPollThread 33 1) ()).1

/-- every chip is asked once in it, and grants nothing -/
theorem turns_taken_allAsking : Along Round.after (InTurn 32) Round.start allAsking ∧
    (history Round.after Round.start allAsking).turn = 7 ∧
    (List.finRange 8).map (history Round.after Round.start allAsking).waits
      = [7, 6, 5, 4, 3, 2, 1, 0] := by
  refine ⟨?_, by decide +kernel, by decide +kernel⟩
  exact turns_taken _ 32 33 1 (by decide) ((Policy.machine _).play_exec 0 _ ()) (by decide +kernel)

end Nm32a
