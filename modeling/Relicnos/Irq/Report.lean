import Relicnos.Irq.Outcome
import Relicnos.Irq.Script
import Mathlib.Logic.Function.Basic

/-!
# The deferred reports

A masked source or line is recorded in a bitmap, and delayed work walks the bitmap, prints what it
finds and clears it.  The dispatch schedules `mv_unclaimed_work` each time it records a source;
`cascade_runaway_work` is scheduled once, by `arch_init_irq`.

* `Board`, `Step`     the machine with its delayed work; dispatches, timers and the two reports in
                      any order;
* `Path w A b b'`     a run all of whose steps meet `A`;
* `Covers`            what is recorded is still to come for the work that reports it;
* `masks_reported`    `mv_unclaimed` is reported whatever happens, the lines as long as each
                      dispatch finds their work `Pending`.
-/

set_option linter.unusedVariables false

namespace Irq
open Interact

/-- `HZ` -/
def hz : Nat := 250

/-- how many bits the report of a work item walks over -/
def Work.size : Work → Nat
  | .mvUnclaimedWork => c2811MvNrIrqs
  | .cascadeRunawayWork => 8

namespace Machine

/-- the bit in the bitmap that the work reports -/
def recorded (s : Machine) : Work → Nat → Bool
  | .mvUnclaimedWork, bit => s.mvUnclaimed.getLsbD bit
  | .cascadeRunawayWork, bit => s.cascadeRunawayMask.getLsbD bit

/-- `clear_bit` -/
def clearBit (s : Machine) : Work → Nat → Machine
  | .mvUnclaimedWork, bit => { s with mvUnclaimed := s.mvUnclaimed &&& ~~~ (1#64 <<< bit) }
  | .cascadeRunawayWork, bit =>
    { s with cascadeRunawayMask := s.cascadeRunawayMask &&& ~~~ (1#32 <<< bit) }

end Machine

/-- where a report is in its `for_each_set_bit` -/
inductive Scan
  /-- before the test of the bit -/
  | look (bit : Nat)
  /-- the bit was found set, and is printed but not cleared -/
  | clear (bit : Nat)

def Scan.bit : Scan → Nat
  | .look bit => bit
  | .clear bit => bit

structure Board where
  machine : Machine
  /-- jiffies -/
  now : Nat
  /-- when the timer of scheduled work expires -/
  due : Work → Nat
  /-- the reports that are running -/
  scan : Work → Option Scan

namespace Board

def setScan (b : Board) (k : Work) (c : Option Scan) : Board :=
  { b with scan := Function.update b.scan k c }

/-- the timer has expired and the worker calls the function, which is pending no more -/
def start (b : Board) (k : Work) : Board :=
  { b with machine := { b.machine with scheduled := Function.update b.machine.scheduled k false } }
    |>.setScan k (some (.look 0))

/-- `mv_unclaimed_report` and `cascade_runaway_report`, one bit operation at a time -/
def report (b : Board) (k : Work) : Scan → Board
  | .look bit =>
    if k.size ≤ bit then b.setScan k none
    else if b.machine.recorded k bit then b.setScan k (some (.clear bit))
    else b.setScan k (some (.look (bit + 1)))
  | .clear bit =>
    { b with machine := b.machine.clearBit k bit }.setScan k (some (.look (bit + 1)))

/-- `arch_init_irq` is done, and has scheduled `cascade_runaway_work` -/
structure Booted (b : Board) : Prop where
  unclaimed : b.machine.mvUnclaimed = 0
  runaway : b.machine.cascadeRunawayMask = 0
  scheduled : ∀ k, b.machine.scheduled k = decide (k = .cascadeRunawayWork)
  due : b.due .cascadeRunawayWork = b.now + 5 * hz
  idle : ∀ k, b.scan k = none

end Board

/-- the bitmaps and the work are left alone: they are local to the two files -/
structure Aside (s s' : Machine) : Prop where
  unclaimed : s'.mvUnclaimed = s.mvUnclaimed
  runaway : s'.cascadeRunawayMask = s.cascadeRunawayMask
  scheduled : s'.scheduled = s.scheduled

/-- no handler touches them -/
def Wiring.Modest (w : Wiring) : Prop := ∀ irq s s', w.handler irq s s' → Aside s s'

/-- what the outside does during a dispatch -/
def outside (s s' : Machine) : Prop := Free s s' ∧ Aside s s'

/-- `schedule_delayed_work` sets the timer of work that is not pending -/
def armed (now : Nat) (due : Work → Nat) : List Ev → Work → Nat
  | [] => due
  | e :: tr =>
    match e.op with
    | .scheduleDelayedWork k delay =>
      armed now (if e.pre.scheduled k then due
        else Function.update due k (now + delay * hz)) tr
    | _ => armed now due tr

inductive Act
  | dispatch (tr : List Ev)
  /-- anything outside the two files: sources, lines, masks, claimed irqs -/
  | move
  /-- time passes -/
  | pass (n : Nat)
  | start (k : Work)
  | report (k : Work)

inductive Step (w : Wiring) : Board → Act → Board → Prop
  | dispatch {b : Board} {tr : List Ev} {s' : Machine} :
      Runs (env w outside) platIrqDispatch b.machine tr () s' →
      Step w b (.dispatch tr) { b with machine := s', due := armed b.now b.due tr }
  | move {b : Board} {s' : Machine} : Aside b.machine s' →
      Step w b .move { b with machine := s' }
  | pass (b : Board) (n : Nat) : Step w b (.pass n) { b with now := b.now + n }
  | start {b : Board} {k : Work} : b.machine.scheduled k = true → b.due k ≤ b.now →
      b.scan k = none → Step w b (.start k) (b.start k)
  | report {b : Board} {k : Work} {c : Scan} : b.scan k = some c →
      Step w b (.report k) (b.report k c)

inductive Path (w : Wiring) (A : Board → Act → Prop) (b : Board) : Board → Prop
  | refl : Path w A b b
  | step {b' b'' : Board} {a : Act} : Path w A b b' → A b' a → Step w b' a b'' → Path w A b b''

/-- any step -/
def anyAct (b : Board) (a : Act) : Prop := True

/-- reached from a booted board by steps that meet `A` -/
def Reached (w : Wiring) (A : Board → Act → Prop) (b : Board) : Prop :=
  ∃ b0 : Board, b0.Booted ∧ Path w A b0 b

namespace Board

/-- the work is pending, or runs and has not passed the bit -/
def Pending (b : Board) (k : Work) (bit : Nat) : Prop :=
  b.machine.scheduled k = true ∨ ∃ c, b.scan k = some c ∧ c.bit ≤ bit

/-- what is recorded has its work pending or running -/
def Reports (b : Board) (k : Work) : Prop :=
  ∀ bit, b.machine.recorded k bit = true → b.machine.scheduled k = true ∨ (b.scan k).isSome = true

/-- what is recorded is still to be found -/
def Covers (b : Board) (k : Work) : Prop :=
  ∀ bit, b.machine.recorded k bit = true → bit < k.size ∧ b.Pending k bit

/-- a dispatch that masks a line finds its report pending, or running and not past the line -/
def Meets (b : Board) : Act → Prop
  | .dispatch tr => ∀ e ∈ tr, ∀ ip, e.op = .setRunaway ip → b.Pending .cascadeRunawayWork ip
  | _ => True

@[simp] theorem setScan_machine (b : Board) (k : Work) (c : Option Scan) :
    (b.setScan k c).machine = b.machine := rfl

@[simp] theorem setScan_same (b : Board) (k : Work) (c : Option Scan) :
    (b.setScan k c).scan k = c := Function.update_self ..

theorem setScan_other (b : Board) {k j : Work} (h : j ≠ k) (c : Option Scan) :
    (b.setScan k c).scan j = b.scan j := Function.update_of_ne h ..

theorem Covers.reports {b : Board} {k : Work} (h : b.Covers k) : b.Reports k := by
  intro bit hbit
  obtain ⟨_, hs | ⟨c, hc, _⟩⟩ := h bit hbit
  · exact .inl hs
  · exact .inr (Option.isSome_iff_exists.mpr ⟨c, hc⟩)

end Board

/-! ## the reports -/

theorem recorded_lt {s : Machine} {bit : Nat} (h : s.recorded .mvUnclaimedWork bit = true) :
    bit < Work.size .mvUnclaimedWork := BitVec.lt_of_getLsbD h

/-- `clear_bit` clears its bit -/
theorem recorded_clearBit {s : Machine} {k : Work} {bit j : Nat}
    (h : (s.clearBit k bit).recorded k j = true) : s.recorded k j = true ∧ j ≠ bit := by
  have hand : ∀ {n : Nat} (x : BitVec n), (x &&& ~~~ (1#n <<< bit)).getLsbD j = true →
      x.getLsbD j = true ∧ j ≠ bit := by
    intro n x hx
    rw [BitVec.getLsbD_and, BitVec.getLsbD_not, ← BitVec.twoPow_eq, BitVec.getLsbD_twoPow] at hx
    have hlt := BitVec.lt_of_getLsbD (Bool.and_elim_left hx)
    refine ⟨Bool.and_elim_left hx, ?_⟩
    intro hj
    subst hj
    simp [hlt] at hx
  cases k with
  | mvUnclaimedWork => exact hand _ h
  | cascadeRunawayWork => exact hand _ h

/-- and no other -/
theorem recorded_clearBit_of_ne (s : Machine) {k i : Work} {bit j : Nat} (h : i ≠ k ∨ j ≠ bit) :
    (s.clearBit k bit).recorded i j = s.recorded i j := by
  have hand : ∀ {n : Nat} (x : BitVec n), j ≠ bit →
      (x &&& ~~~ (1#n <<< bit)).getLsbD j = x.getLsbD j := by
    intro n x hj
    rw [BitVec.getLsbD_and, BitVec.getLsbD_not, ← BitVec.twoPow_eq, BitVec.getLsbD_twoPow]
    by_cases hlt : j < n
    · simp [hlt, hj.symm]
    · simp [BitVec.getLsbD_of_ge x j (by omega)]
  cases k <;> cases i
  · exact hand _ (h.resolve_left (not_not_intro rfl))
  · rfl
  · rfl
  · exact hand _ (h.resolve_left (not_not_intro rfl))

@[simp] theorem clearBit_scheduled (s : Machine) (k : Work) (bit : Nat) :
    (s.clearBit k bit).scheduled = s.scheduled := by
  cases k <;> rfl

section
variable {b : Board} {k j : Work} {c : Scan}

/-- a test of a bit only moves the report on -/
theorem report_look (b : Board) (k : Work) (bit : Nat) :
    ∃ c, b.report k (.look bit) = b.setScan k c ∧
      ((k.size ≤ bit ∧ c = none) ∨
        (bit < k.size ∧ b.machine.recorded k bit = true ∧ c = some (.clear bit)) ∨
        (bit < k.size ∧ b.machine.recorded k bit = false ∧ c = some (.look (bit + 1)))) := by
  by_cases hend : k.size ≤ bit
  · exact ⟨none, if_pos hend, .inl ⟨hend, rfl⟩⟩
  · have hlt : bit < k.size := Nat.lt_of_not_le hend
    cases hr : b.machine.recorded k bit with
    | true =>
      refine ⟨_, ?_, .inr (.inl ⟨hlt, rfl, rfl⟩)⟩
      rw [Board.report, if_neg hend, if_pos hr]
    | false =>
      refine ⟨_, ?_, .inr (.inr ⟨hlt, rfl, rfl⟩)⟩
      rw [Board.report, if_neg hend, if_neg (Bool.not_eq_true _ ▸ hr)]

@[simp] theorem report_scheduled : (b.report k c).machine.scheduled = b.machine.scheduled := by
  cases c with
  | look i =>
    obtain ⟨c, hc, _⟩ := report_look b k i
    rw [hc, Board.setScan_machine]
  | clear i => exact clearBit_scheduled ..

theorem report_scan_other (h : j ≠ k) : (b.report k c).scan j = b.scan j := by
  cases c with
  | look i =>
    obtain ⟨c, hc, _⟩ := report_look b k i
    rw [hc, Board.setScan_other b h]
  | clear i => exact Board.setScan_other _ h _

/-- a report leaves what is behind it, and what the other one reports -/
theorem report_recorded {bit : Nat} (h : j ≠ k ∨ bit < c.bit) :
    (b.report k c).machine.recorded j bit = b.machine.recorded j bit := by
  cases c with
  | look i =>
    obtain ⟨c, hc, _⟩ := report_look b k i
    rw [hc, Board.setScan_machine]
  | clear i =>
    apply recorded_clearBit_of_ne
    obtain h | h := h
    · exact .inl h
    · exact .inr (Nat.ne_of_lt h)

/-- **A report passes no recorded bit.** -/
theorem covers_report (h : b.Covers k) (hc : b.scan k = some c) : (b.report k c).Covers k := by
  -- unless the work is pending again, what is recorded lies ahead
  have hahead : ∀ bit, b.machine.recorded k bit = true →
      bit < k.size ∧ (b.machine.scheduled k = true ∨ c.bit ≤ bit) := by
    intro bit hbit
    obtain ⟨hlt, hs | ⟨c', hc', hle⟩⟩ := h bit hbit
    · exact ⟨hlt, .inl hs⟩
    · rw [hc] at hc'
      obtain rfl := Option.some.inj hc'
      exact ⟨hlt, .inr hle⟩
  intro bit hbit
  have hsched : (b.report k c).machine.scheduled = b.machine.scheduled := report_scheduled
  unfold Board.Pending
  rw [hsched]
  cases c with
  | look i =>
    obtain ⟨c, hrep, hcase⟩ := report_look b k i
    rw [hrep] at hbit ⊢
    obtain ⟨hlt, hs | hle⟩ := hahead bit hbit
    · exact ⟨hlt, .inl hs⟩
    have hle : i ≤ bit := hle
    rw [Board.setScan_same]
    obtain ⟨hend, rfl⟩ | ⟨_, _, rfl⟩ | ⟨_, hclear, rfl⟩ := hcase
    · omega
    · exact ⟨hlt, .inr ⟨.clear i, rfl, hle⟩⟩
    · have hne : bit ≠ i := by
        rintro rfl
        rw [Board.setScan_machine, hclear] at hbit
        cases hbit
      exact ⟨hlt, .inr ⟨.look (i + 1), rfl, by show i + 1 ≤ bit; omega⟩⟩
  | clear i =>
    obtain ⟨hbit, hne⟩ := recorded_clearBit hbit
    obtain ⟨hlt, hs | hle⟩ := hahead bit hbit
    · exact ⟨hlt, .inl hs⟩
    · have hle : i ≤ bit := hle
      exact ⟨hlt, .inr ⟨.look (i + 1), Board.setScan_same .., by show i + 1 ≤ bit; omega⟩⟩

theorem covers_start (h : b.Covers k) : (b.start k).Covers k := by
  intro bit hbit
  have hbit : b.machine.recorded k bit = true := by cases k <;> exact hbit
  exact ⟨(h bit hbit).1, .inr ⟨.look 0, Board.setScan_same .., Nat.zero_le bit⟩⟩

/-- what touches neither the bitmap nor the work keeps it covered -/
theorem Board.Covers.of_eq {b' : Board} (h : b.Covers k)
    (hrec : ∀ bit, b'.machine.recorded k bit = b.machine.recorded k bit)
    (hsched : b'.machine.scheduled k = b.machine.scheduled k) (hscan : b'.scan k = b.scan k) :
    b'.Covers k := by
  intro bit hbit
  rw [hrec] at hbit
  unfold Board.Pending
  rw [hsched, hscan]
  exact h bit hbit

end

/-! ## the dispatch -/

/-- the accesses that record the bit -/
def Records (k : Work) (bit : Nat) (o : Op) : Prop :=
  match k with
  | .mvUnclaimedWork => o = .setUnclaimed bit
  | .cascadeRunawayWork => o = .setRunaway bit

theorem Aside.recorded {s s' : Machine} (h : Aside s s') (k : Work) (bit : Nat) :
    s'.recorded k bit = s.recorded k bit := by
  cases k with
  | mvUnclaimedWork => exact congrArg (fun x : BitVec 64 => x.getLsbD bit) h.unclaimed
  | cascadeRunawayWork => exact congrArg (fun x : BitVec 32 => x.getLsbD bit) h.runaway

theorem getLsbD_or_bit {n : Nat} (x : BitVec n) (i j : Nat) :
    (x ||| 1#n <<< i).getLsbD j = (x.getLsbD j || decide (j < n ∧ i = j)) := by
  rw [BitVec.getLsbD_or, ← BitVec.twoPow_eq, BitVec.getLsbD_twoPow]
  by_cases hij : i = j <;> simp [hij]

section
variable {w : Wiring} (hw : w.Modest) {s s' : Machine} {tr : List Ev}
include hw

/-- what an access does to the bitmaps and the work -/
theorem access_aside {o : Op} {r : Res o} (h : access w s o r s') :
    Aside s s' ∨
      (∃ bit, o = .setUnclaimed bit ∧
        s' = { s with mvUnclaimed := s.mvUnclaimed ||| 1#64 <<< bit }) ∨
      (∃ ip, o = .setRunaway ip ∧
        s' = { s with cascadeRunawayMask := s.cascadeRunawayMask ||| 1#32 <<< ip }) ∨
      (∃ k delay, o = .scheduleDelayedWork k delay ∧
        s' = { s with scheduled := fun j => if j = k then true else s.scheduled j }) := by
  cases o with
  | readC0Status | readC0Cause | readl _ | irqHasAction _ =>
    obtain rfl : s' = s := h.2
    exact .inl ⟨rfl, rfl, rfl⟩
  | clearC0Status _ | writel _ _ | spuriousInterrupt =>
    obtain rfl := h
    exact .inl ⟨rfl, rfl, rfl⟩
  | doIRQ irq => exact .inl (hw irq s s' h)
  | setUnclaimed bit => exact .inr (.inl ⟨bit, rfl, h⟩)
  | setRunaway ip => exact .inr (.inr (.inl ⟨ip, rfl, h⟩))
  | scheduleDelayedWork k delay => exact .inr (.inr (.inr ⟨k, delay, rfl, h⟩))

/-- a bit is set by the access that records it -/
theorem access_recorded {o : Op} {r : Res o} (h : access w s o r s') {k : Work} {bit : Nat}
    (hbit : s'.recorded k bit = true) : s.recorded k bit = true ∨ Records k bit o := by
  obtain ha | ⟨i, rfl, rfl⟩ | ⟨i, rfl, rfl⟩ | ⟨i, d, rfl, rfl⟩ := access_aside hw h
  · rw [ha.recorded] at hbit
    exact .inl hbit
  · cases k with
    | cascadeRunawayWork => exact .inl hbit
    | mvUnclaimedWork =>
      have hor := (getLsbD_or_bit s.mvUnclaimed i bit).symm.trans hbit
      obtain hs | hi := (Bool.or_eq_true _ _).mp hor
      · exact .inl hs
      · exact .inr (congrArg Op.setUnclaimed (of_decide_eq_true hi).2)
  · cases k with
    | mvUnclaimedWork => exact .inl hbit
    | cascadeRunawayWork =>
      have hor := (getLsbD_or_bit s.cascadeRunawayMask i bit).symm.trans hbit
      obtain hs | hi := (Bool.or_eq_true _ _).mp hor
      · exact .inl hs
      · exact .inr (congrArg Op.setRunaway (of_decide_eq_true hi).2)
  · cases k <;> exact .inl hbit

/-- and is never cleared by a dispatch -/
theorem access_keeps {o : Op} {r : Res o} (h : access w s o r s') {k : Work} {bit : Nat}
    (hbit : s.recorded k bit = true) : s'.recorded k bit = true := by
  obtain ha | ⟨i, rfl, rfl⟩ | ⟨i, rfl, rfl⟩ | ⟨i, d, rfl, rfl⟩ := access_aside hw h
  · rw [ha.recorded]
    exact hbit
  · cases k with
    | cascadeRunawayWork => exact hbit
    | mvUnclaimedWork =>
      apply (getLsbD_or_bit s.mvUnclaimed i bit).trans
      rw [show s.mvUnclaimed.getLsbD bit = true from hbit, Bool.true_or]
  · cases k with
    | mvUnclaimedWork => exact hbit
    | cascadeRunawayWork =>
      apply (getLsbD_or_bit s.cascadeRunawayMask i bit).trans
      rw [show s.cascadeRunawayMask.getLsbD bit = true from hbit, Bool.true_or]
  · cases k <;> exact hbit

/-- a dispatch cancels no work, and makes work pending only by scheduling it -/
theorem access_scheduled {o : Op} {r : Res o} (h : access w s o r s') (k : Work) :
    (s.scheduled k = true → s'.scheduled k = true) ∧
      ((∀ delay, o ≠ .scheduleDelayedWork k delay) → s'.scheduled k = s.scheduled k) := by
  obtain ha | ⟨i, rfl, rfl⟩ | ⟨i, rfl, rfl⟩ | ⟨j, d, rfl, rfl⟩ := access_aside hw h
  · have hk : s'.scheduled k = s.scheduled k := congrFun ha.scheduled k
    exact ⟨fun hs => hk.trans hs, fun _ => hk⟩
  · exact ⟨id, fun _ => rfl⟩
  · exact ⟨id, fun _ => rfl⟩
  · by_cases hj : k = j
    · subst hj
      exact ⟨fun _ => if_pos rfl, fun hno => absurd rfl (hno d)⟩
    · have hk : (if k = j then true else s.scheduled k) = s.scheduled k := if_neg hj
      exact ⟨fun hs => hk.trans hs, fun _ => hk⟩

end

theorem outside_aside : ∀ s s', outside s s' → Aside s s' := fun _ _ h => h.2

theorem stable_recorded (w : Wiring) (k : Work) (bit : Nat) (v : Bool) :
    Stable (env w outside) fun s => s.recorded k bit = v := by
  intro s s' hs hd
  rw [(outside_aside s s' hd).recorded]
  exact hs

theorem stable_scheduled (w : Wiring) (k : Work) (v : Bool) :
    Stable (env w outside) fun s => s.scheduled k = v := by
  intro s s' hs hd
  rw [(outside_aside s s' hd).scheduled]
  exact hs

/-- the lines that a dispatch can mask, and the work that it can schedule -/
def Dispatches (o : Op) : Prop :=
  (∀ ip, o = .setRunaway ip → ip < 8) ∧ ∀ delay, o ≠ .scheduleDelayedWork .cascadeRunawayWork delay

/-- it masks no line of the CPU and schedules no work -/
def Op.elsewhere : Op → Bool
  | .setRunaway _ => false
  | .scheduleDelayedWork _ _ => false
  | _ => true

theorem dispatches_elsewhere {o : Op} (h : o.elsewhere = true) : Dispatches o := by
  constructor
  · intro ip ho
    rw [ho] at h
    cases h
  · intro d ho
    rw [ho] at h
    cases h

theorem uses_platIrqDispatch : platIrqDispatch.Uses Dispatches := by
  have hother : ∀ o : Op, o.elsewhere = true → Dispatches o := fun _ => dispatches_elsewhere
  have hmask : ∀ bit, (maskOff bit).Uses Dispatches := fun bit =>
    ⟨hother _ rfl, fun _ => ⟨hother _ rfl, fun _ => trivial⟩⟩
  have hreport : Dispatches (.scheduleDelayedWork .mvUnclaimedWork 1) := by
    constructor
    · intro ip ho
      cases ho
    · intro d ho
      cases ho
  have hbit : ∀ bit, (dispatchBit bit).Uses Dispatches := by
    intro bit
    refine ⟨hother _ rfl, fun claimed => ?_⟩
    apply Prog.Uses.ite
    · exact ⟨hother _ rfl, fun _ => trivial⟩
    · apply (hmask bit).bind
      intro _
      exact ⟨hother _ rfl, fun _ => ⟨hreport, fun _ => trivial⟩⟩
  have hpick : ∀ found, (servePicked found).Uses Dispatches := by
    intro found
    cases found with
    | none => trivial
    | some bit => exact (hbit bit).bind fun _ => trivial
  have hserve : mv64340IrqDispatch.Uses Dispatches :=
    ⟨hother _ rfl, fun _ => ⟨hother _ rfl, fun _ =>
      ⟨hother _ rfl, fun _ => ⟨hother _ rfl, fun _ => hpick _⟩⟩⟩⟩
  have hrunaway : ∀ pending, (mv64340CascadeRunaway pending).Uses Dispatches := by
    intro pending
    apply (uses_runawayLoop pending cascadeLines).mono
    intro o ⟨ip, _, _, ho⟩
    rcases ho with rfl | rfl
    · exact hother _ rfl
    · constructor
      · intro jp h
        exact Op.setRunaway.inj h ▸ ip.isLt
      · intro d h
        cases h
  refine ⟨hother _ rfl, fun status => ⟨hother _ rfl, fun cause => ?_⟩⟩
  apply Prog.Uses.ite
  · exact ⟨hother _ rfl, fun _ => trivial⟩
  · apply Prog.Uses.ite
    · apply hserve.bind
      intro served
      exact Prog.Uses.ite trivial (hrunaway _)
    · exact ⟨hother _ rfl, fun _ => trivial⟩

section
variable {w : Wiring} (hw : w.Modest) {s s' : Machine} {tr : List Ev}
  (h : Runs (env w outside) platIrqDispatch s tr () s') {k : Work} {bit : Nat}
include hw h

theorem dispatch_scheduled (hs : s.scheduled k = true) : s'.scheduled k = true :=
  (h.chain (stable_scheduled w k true)
    (fun e he => (access_scheduled hw (h.mem_access e he) k).1) hs).2

theorem dispatch_cascade : s'.scheduled .cascadeRunawayWork = s.scheduled .cascadeRunawayWork := by
  apply (h.chain (stable_scheduled w .cascadeRunawayWork (s.scheduled .cascadeRunawayWork)) ?_
    rfl).2
  intro e he hpre
  exact ((access_scheduled hw (h.mem_access e he) _).2
    (h.uses uses_platIrqDispatch e he).2).trans hpre

/-- what is newly recorded was recorded by one of the accesses -/
theorem dispatch_recorded (hbit : s'.recorded k bit = true) :
    s.recorded k bit = true ∨ ∃ e ∈ tr, Records k bit e.op := by
  by_contra hno
  push Not at hno
  obtain ⟨hs, hno⟩ := hno
  have hclear := (h.chain (stable_recorded w k bit false) ?_ (Bool.eq_false_iff.mpr hs)).2
  · rw [hbit] at hclear
    cases hclear
  · intro e he hpre
    apply Bool.eq_false_iff.mpr
    intro hpost
    obtain hpre' | hrec := access_recorded hw (h.mem_access e he) hpost
    · rw [hpre] at hpre'
      cases hpre'
    · exact hno e he hrec

/-- what an access records is recorded at the end -/
theorem dispatch_records {ip : Nat} {e : Ev} (he : e ∈ tr) (hop : e.op = .setRunaway ip) :
    s'.recorded .cascadeRunawayWork ip = true := by
  have hlt : ip < 8 := (h.uses uses_platIrqDispatch e he).1 ip hop
  obtain ⟨tr1, tr2, rfl⟩ := List.append_of_mem he
  obtain ⟨s1, p1, _, h2⟩ := Exec.split tr1 h
  cases h2 with
  | step hd ha h3 =>
    refine (h3.chain (stable_recorded w .cascadeRunawayWork ip true)
      (fun e he => access_keeps hw (h3.mem_access e he)) ?_).2
    dsimp only at hop
    subst hop
    obtain rfl := ha
    apply (getLsbD_or_bit _ ip ip).trans
    simp
    omega

omit hw in
/-- **A source that is recorded has its report scheduled.** -/
theorem dispatch_unclaimed {e : Ev} (he : e ∈ tr) (hop : e.op = .setUnclaimed bit) :
    s'.scheduled .mvUnclaimedWork = true := by
  have hsampled : ∀ p : Sampled w outside s, e ∉ p.events := by
    intro p hp
    rcases List.mem_pair.mp hp with rfl | rfl <;> cases hop
  have hlooked : ∀ {s} (k : Looked outside s), e ∉ k.events := by
    intro s k hk
    simp only [Looked.events, List.mem_cons, List.not_mem_nil, or_false] at hk
    rcases hk with rfl | rfl | rfl | rfl <;> cases hop
  cases runs_outcome h with
  | timer p _ _ _ =>
    obtain hp | hp := List.mem_append.mp he
    · exact absurd hp (hsampled p)
    · obtain rfl := List.mem_singleton.mp hp
      cases hop
  | spurious p _ _ _ =>
    obtain hp | hp := List.mem_append.mp he
    · exact absurd hp (hsampled p)
    · obtain rfl := List.mem_singleton.mp hp
      cases hop
  | claimed p k b _ _ _ _ _ _ _ =>
    obtain hp | hp := List.mem_append.mp he
    · exact absurd hp (hsampled p)
    obtain hk | hk := List.mem_append.mp hp
    · exact absurd hk (hlooked k)
    · rcases List.mem_pair.mp hk with rfl | rfl <;> cases hop
  | unclaimed p k b _ _ _ _ _ hrun =>
    obtain ⟨t, u, x, y, x', _, _, _, _, _, _, rfl⟩ := runs_unclaimed (fun _ _ h => h.1) b hrun
    rfl
  | runaway p k _ _ _ hrun =>
    obtain hp | hp := List.mem_append.mp he
    · exact absurd hp (hsampled p)
    obtain hk | hk := List.mem_append.mp hp
    · exact absurd hk (hlooked k)
    · obtain ⟨ip, _, _, ho⟩ := runawayLoop_masks _ _ hrun e hk
      rw [hop] at ho
      rcases ho with ho | ho <;> cases ho

end

/-! ## runs -/

section
variable {w : Wiring} (hw : w.Modest) {b b' : Board} {a : Act}
include hw

/-- one step keeps what is recorded covered, if a dispatch meets the pending report -/
theorem covers_step {k : Work} (h : Step w b a b') (hcov : b.Covers k)
    (hmeets : k = .cascadeRunawayWork → b.Meets a) : b'.Covers k := by
  cases h with
  | pass n => exact hcov
  | move ha => exact hcov.of_eq (ha.recorded k) (congrFun ha.scheduled k) rfl
  | start hs hd hc =>
    rename_i j
    by_cases hj : k = j
    · subst hj
      exact covers_start hcov
    · apply hcov.of_eq
      · intro bit
        cases k <;> rfl
      · exact Function.update_of_ne hj ..
      · exact Board.setScan_other _ hj _
  | report hc =>
    rename_i j c
    by_cases hj : k = j
    · subst hj
      exact covers_report hcov hc
    · exact hcov.of_eq (fun bit => report_recorded (.inl hj))
        (congrFun report_scheduled k) (report_scan_other hj)
  | dispatch hr =>
    rename_i tr s'
    -- what was pending stays so
    have hkeep : ∀ {bit}, b.Pending k bit → Board.Pending ⟨s', b.now, armed b.now b.due tr, b.scan⟩
        k bit := by
      intro bit hp
      obtain hs | hc := hp
      · exact .inl (dispatch_scheduled hw hr hs)
      · exact .inr hc
    intro bit hbit
    obtain hold | ⟨e, he, hrec⟩ := dispatch_recorded hw hr hbit
    · exact ⟨(hcov bit hold).1, hkeep (hcov bit hold).2⟩
    · cases k with
      | mvUnclaimedWork => exact ⟨recorded_lt hbit, .inl (dispatch_unclaimed hr he hrec)⟩
      | cascadeRunawayWork =>
        exact ⟨(hr.uses uses_platIrqDispatch e he).1 bit hrec,
          hkeep (hmeets rfl e he bit hrec)⟩

theorem covers_path {A : Board → Act → Prop} {k : Work} (h : Path w A b b') (hcov : b.Covers k)
    (hA : k = .cascadeRunawayWork → ∀ b a, A b a → b.Meets a) : b'.Covers k := by
  induction h with
  | refl => exact hcov
  | step _ ha hs ih => exact covers_step hw hs ih fun hk => hA hk _ _ ha

omit hw in
theorem Board.Booted.covers (h : b.Booted) (k : Work) : b.Covers k := by
  intro bit hbit
  cases k with
  | mvUnclaimedWork => simp [Machine.recorded, h.unclaimed] at hbit
  | cascadeRunawayWork => simp [Machine.recorded, h.runaway] at hbit

end

theorem Path.trans {w : Wiring} {A : Board → Act → Prop} {b b' b'' : Board} (h : Path w A b b')
    (h' : Path w A b' b'') : Path w A b b'' := by
  induction h' with
  | refl => exact h
  | step _ ha hs ih => exact ih.step ha hs

/-- the report has ended, has not been scheduled, and has cleared nothing below the bit -/
structure Ended (k : Work) (bit : Nat) (b b' : Board) : Prop where
  scan : b'.scan k = none
  scheduled : b'.machine.scheduled = b.machine.scheduled
  recorded : ∀ j < bit, b'.machine.recorded k j = b.machine.recorded k j

theorem path_look (w : Wiring) (k : Work) (n : Nat) {b : Board} {i : Nat}
    (hc : b.scan k = some (.look i)) (hn : k.size - i = n) :
    ∃ b', Path w anyAct b b' ∧ Ended k i b b' := by
  induction n generalizing b i with
  | zero =>
    obtain ⟨c, hrep, ⟨_, rfl⟩ | ⟨hlt, _⟩ | ⟨hlt, _⟩⟩ := report_look b k i
    · refine ⟨_, .step .refl trivial (.report hc), ?_, report_scheduled, ?_⟩
      · rw [hrep, Board.setScan_same]
      · exact fun j hj => report_recorded (.inr hj)
    · omega
    · omega
  | succ n ih =>
    -- with the bit cleared or not, the report is at the next one
    have hnext : ∃ b1, Path w anyAct b b1 ∧ b1.scan k = some (.look (i + 1)) ∧
        b1.machine.scheduled = b.machine.scheduled ∧
        ∀ j < i, b1.machine.recorded k j = b.machine.recorded k j := by
      have hone : Path w anyAct b (b.report k (.look i)) := .step .refl trivial (.report hc)
      have hbehind : ∀ j < i, (b.report k (.look i)).machine.recorded k j =
          b.machine.recorded k j := fun j hj => report_recorded (.inr hj)
      obtain ⟨c, hrep, ⟨hend, _⟩ | ⟨_, _, rfl⟩ | ⟨_, _, rfl⟩⟩ := report_look b k i
      · omega
      · have hclear : (b.report k (.look i)).scan k = some (.clear i) := by
          rw [hrep, Board.setScan_same]
        refine ⟨_, .step hone trivial (.report hclear), Board.setScan_same .., ?_, ?_⟩
        · rw [report_scheduled, report_scheduled]
        · intro j hj
          exact (report_recorded (.inr hj)).trans (hbehind j hj)
      · refine ⟨_, hone, ?_, report_scheduled, hbehind⟩
        rw [hrep, Board.setScan_same]
    obtain ⟨b1, hp, hc1, hs, hr⟩ := hnext
    obtain ⟨b', hp', hend⟩ := ih hc1 (by omega)
    refine ⟨b', hp.trans hp', hend.scan, hend.scheduled.trans hs, ?_⟩
    intro j hj
    exact (hend.recorded j (by omega)).trans (hr j hj)

/-- a report that finds nothing leaves everything as it is -/
theorem path_quiet (w : Wiring) {k : Work} {b : Board} (n : Nat) {i : Nat} (hn : k.size - i = n)
    (h : ∀ bit, b.machine.recorded k bit = false) :
    Path w anyAct (b.setScan k (some (.look i))) (b.setScan k none) := by
  have hidem : ∀ c c', (b.setScan k c).setScan k c' = b.setScan k c' := by
    intro c c'
    unfold Board.setScan
    rw [Function.update_idem]
  induction n generalizing i with
  | zero =>
    obtain ⟨c, hrep, ⟨_, rfl⟩ | ⟨hlt, _⟩ | ⟨hlt, _⟩⟩ :=
      report_look (b.setScan k (some (.look i))) k i
    · rw [← hidem (some (.look i)) none, ← hrep]
      exact .step .refl trivial (.report (Board.setScan_same ..))
    · omega
    · omega
  | succ n ih =>
    obtain ⟨c, hrep, ⟨hend, _⟩ | ⟨_, hset, _⟩ | ⟨_, _, rfl⟩⟩ :=
      report_look (b.setScan k (some (.look i))) k i
    · omega
    · rw [Board.setScan_machine, h i] at hset
      cases hset
    · have hone : Path w anyAct (b.setScan k (some (.look i)))
          ((b.setScan k (some (.look i))).report k (.look i)) :=
        .step .refl trivial (.report (Board.setScan_same ..))
      rw [hrep, hidem] at hone
      exact hone.trans (ih (by omega))

/-- a report that nothing disturbs comes to its end -/
theorem path_scan (w : Wiring) {k : Work} {b : Board} {c : Scan} (hc : b.scan k = some c) :
    ∃ b', Path w anyAct b b' ∧ Ended k c.bit b b' := by
  cases c with
  | look i => exact path_look w k _ hc rfl
  | clear i =>
    obtain ⟨b', hp, hend⟩ :=
      path_look w k _ (b := b.report k (.clear i)) (Board.setScan_same ..) rfl
    refine ⟨b', Path.trans (.step .refl trivial (.report hc)) hp, hend.scan, ?_, ?_⟩
    · exact hend.scheduled.trans report_scheduled
    · intro j (hj : j < i)
      exact (hend.recorded j (by omega)).trans (report_recorded (.inr hj))

/-- **A line that is masked when its report is not to come is left unreported.** -/
theorem unmet_unreported {w : Wiring} (hw : w.Modest) {b b' : Board} {a : Act}
    (h : Step w b a b') (hno : ¬b.Meets a) :
    ∃ b'', Path w anyAct b' b'' ∧ ¬b''.Reports .cascadeRunawayWork := by
  cases h with
  | pass _ => exact absurd trivial hno
  | move _ => exact absurd trivial hno
  | start _ _ _ => exact absurd trivial hno
  | report _ => exact absurd trivial hno
  | dispatch hr =>
    rename_i tr s'
    unfold Board.Meets at hno
    push Not at hno
    obtain ⟨e, he, ip, hop, hpend⟩ := hno
    obtain ⟨hs, hscan⟩ := not_or.mp hpend
    have hrec := dispatch_records hw hr he hop
    have hidle : s'.scheduled .cascadeRunawayWork = false :=
      (dispatch_cascade hw hr).trans (Bool.eq_false_iff.mpr hs)
    cases hc : b.scan .cascadeRunawayWork with
    | none =>
      refine ⟨_, .refl, ?_⟩
      intro hrep
      obtain hp | hp := hrep ip hrec
      · rw [hidle] at hp
        cases hp
      · rw [show _ = none from hc] at hp
        cases hp
    | some c =>
      have hpast : ip < c.bit := by
        by_contra hle
        exact hscan ⟨c, hc, by omega⟩
      obtain ⟨b'', hp, hend⟩ := path_scan w (b := ⟨s', b.now, armed b.now b.due tr, b.scan⟩) hc
      refine ⟨b'', hp, ?_⟩
      intro hrep
      obtain hp | hp := hrep ip ((hend.recorded ip hpast).trans hrec)
      · rw [congrFun hend.scheduled, hidle] at hp
        cases hp
      · rw [hend.scan] at hp
        cases hp

/-- **The sources are reported in every run, and the lines in the runs whose dispatches meet
their pending report; after a dispatch that does not, one may stay unreported.** -/
theorem masks_reported (w : Wiring) (hw : w.Modest) :
    (∀ b, Reached w anyAct b → b.Reports .mvUnclaimedWork) ∧
      (∀ b, Reached w Board.Meets b → ∀ k, b.Reports k) ∧
      ∀ b a b', Reached w anyAct b → Step w b a b' → ¬b.Meets a →
        ∃ b'', Path w anyAct b' b'' ∧ ¬b''.Reports .cascadeRunawayWork := by
  refine ⟨?_, ?_, fun b a b' _ h hno => unmet_unreported hw h hno⟩
  · intro b ⟨b0, h0, hp⟩
    exact (covers_path hw (k := .mvUnclaimedWork) hp (h0.covers _) fun hk => by cases hk).reports
  · intro b ⟨b0, h0, hp⟩ k
    exact (covers_path hw hp (h0.covers k) fun _ _ _ ha => ha).reports

/-! ## a line that nothing explains -/

/-- line 2 is asserted and enabled, with nothing behind it -/
def strayBoot : Board where
  machine :=
    { status := 0x0400#32
      line := fun ip => ip == 2
      regs := fun _ => 0
      actions := fun _ => false
      mvUnclaimed := 0
      cascadeRunawayMask := 0
      scheduled := fun k => decide (k = .cascadeRunawayWork) }
  now := 0
  due _ := 5 * hz
  scan _ := none

theorem strayBoot_booted : strayBoot.Booted := ⟨rfl, rfl, fun _ => rfl, rfl, fun _ => rfl⟩

def stray : Policy (env (idle none) outside) :=
  board none (fun _ s => s) fun _ _ => ⟨⟨rfl, fun _ => rfl, rfl⟩, rfl, rfl, rfl⟩

/-- one dispatch, during which nothing moves -/
def Board.dispatched (b : Board) : Board :=
  let run := stray.play 0 platIrqDispatch b.machine
  { b with machine := run.2.1, due := armed b.now b.due run.1 }

theorem step_dispatched {b : Board}
    (h : (stray.play 0 platIrqDispatch b.machine).2.2.result = some ()) :
    Step (idle none) b (.dispatch (stray.play 0 platIrqDispatch b.machine).1) b.dispatched :=
  .dispatch (stray.play_runs 0 _ _ h)

/-- five seconds after the boot the report has run, and has found nothing -/
def reported : Board :=
  { strayBoot with
    machine := { strayBoot.machine with
      scheduled := Function.update strayBoot.machine.scheduled .cascadeRunawayWork false }
    now := 5 * hz } |>.setScan .cascadeRunawayWork none

theorem reported_reached : Reached (idle none) anyAct reported := by
  refine ⟨strayBoot, strayBoot_booted, ?_⟩
  have hpass : Path (idle none) anyAct strayBoot { strayBoot with now := 5 * hz } :=
    .step .refl trivial (.pass strayBoot (5 * hz))
  have hstart := hpass.step (a := .start .cascadeRunawayWork) trivial (.start rfl (le_refl _) rfl)
  exact hstart.trans (path_quiet (idle none) 8 rfl fun _ => BitVec.getLsbD_zero)

theorem modest_idle (driven : Option (Fin 8)) : (idle driven).Modest := by
  intro irq s s' h
  obtain rfl := h
  exact ⟨rfl, rfl, rfl⟩

/-- the line is masked at the boot, when the report is pending; and again when it has run -/
theorem masks_reported_stray :
    (strayBoot.dispatched.machine.recorded .cascadeRunawayWork 2 = true ∧
      ∀ k, strayBoot.dispatched.Reports k) ∧
    ∃ b, Path (idle none) anyAct reported.dispatched b ∧ ¬b.Reports .cascadeRunawayWork := by
  obtain ⟨_, hmet, hunmet⟩ := masks_reported (idle none) (modest_idle none)
  constructor
  · refine ⟨by decide +kernel, hmet _ ⟨strayBoot, strayBoot_booted, ?_⟩⟩
    refine .step .refl ?_ (step_dispatched (by decide +kernel))
    intro e _ ip _
    exact .inl rfl
  · apply hunmet _ _ _ reported_reached (step_dispatched (by decide +kernel))
    intro hm
    have hmasks : ∃ e ∈ (stray.play 0 platIrqDispatch reported.machine).1,
        e.op = .setRunaway 2 := by decide +kernel
    obtain ⟨e, he, hop⟩ := hmasks
    obtain hs | ⟨c, hc, _⟩ := hm e he 2 hop
    · cases hs
    · cases hc

/-- line 2 is masked when its report has run -/
theorem masks_reported_fails : ¬∀ w : Wiring, w.Modest → ∀ b, Reached w anyAct b →
    ∀ k, b.Reports k := by
  intro h
  obtain ⟨b0, h0, hp⟩ := reported_reached
  have hlate : Reached (idle none) anyAct reported.dispatched :=
    ⟨b0, h0, hp.step trivial (step_dispatched (by decide +kernel))⟩
  have hrec : reported.dispatched.machine.recorded .cascadeRunawayWork 2 = true := by
    decide +kernel
  obtain hs | hc := h _ (modest_idle none) _ hlate .cascadeRunawayWork 2 hrec
  · have hidle : reported.dispatched.machine.scheduled .cascadeRunawayWork = false := by
      decide +kernel
    rw [hidle] at hs
    cases hs
  · cases hc

end Irq
