import Relicnos.Interact.Monitor
import Relicnos.Nm32a.Probe
import Relicnos.Nm32a.Sections

/-!
# Does the acknowledge address agree with the acknowledge level?

A chip answers an acknowledge only at the address that its `RPILR` or `TPILR` holds.  The driver
forms the address from the parameter `pilr`, which may change at any time, and outside the
selftests it writes neither register.  So the address agrees exactly if it is the level that the
Reset All of the probe left behind (`agrees_iff`), whatever the card does.

* `Levels`     what the registers hold, and what the driver has last read;
* `AckAgrees`  the acknowledge is issued at the level of its type;
* `AckSuits`   the level left by the probe is the one that `pilr` stood for.
-/

set_option linter.unusedVariables false

namespace Nm32a
open Interact

structure Levels where
  /-- the value of `pilr` that was read last -/
  pilr : Int
  /-- the value of a `RIR` that was read last -/
  rir : UInt8
  /-- the chip whose registers were read last -/
  serving : Fin 8
  /-- `RPILR` and `TPILR` of the chips -/
  level : Kind → Fin 8 → UInt8

namespace Levels

/-- the type that an acknowledge is for: receive outranks transmit -/
def kindOf (rir : UInt8) : Kind := if rir &&& 0x80 ≠ 0 then .rx else .tx

def kind (m : Levels) : Kind := kindOf m.rir

def put (m : Levels) (k : Kind) (j : Fin 8) (v : UInt8) : Levels :=
  { m with level := fun k' j' => if k' = k ∧ j' = j then v else m.level k' j' }

/-- Reset All makes `reset k j` of the levels of a chip -/
def resetAll (m : Levels) (reset : Kind → Fin 8 → UInt8 → UInt8) (j : Fin 8) : Levels :=
  { m with level := fun k' j' => if j' = j then reset k' j' (m.level k' j') else m.level k' j' }

def after (reset : Kind → Fin 8 → UInt8 → UInt8) : (o : Op) → Res o → Levels → Levels
  | .params, p, m => { m with pilr := Params.pilr p }
  | .crd j .RIR, v, m => { m with rir := v, serving := j }
  | .crd j _, _, m => { m with serving := j }
  | .cwr j .RPILR v, _, m => m.put .rx j v
  | .cwr j .TPILR v, _, m => m.put .tx j v
  | .cwr j .CCR v, _, m => if v &&& ccrRstall = 0 then m else m.resetAll reset j
  | _, _, m => m

/-- before anything was read -/
def start (init : Kind → Fin 8 → UInt8) : Levels := ⟨0, 0x00, 0, init⟩

end Levels

/-- the address that the driver acknowledges a type at -/
def ackLevel : Kind → Int → Nat
  | .rx, pilr => if pilr ≠ 0 then 0x002 else 0x000
  | .tx, pilr => if pilr ≠ 0 then 0x001 else 0x000

def AckAgrees (m : Levels) : (o : Op) → Res o → Prop
  | .readb addr, _ => (m.level m.kind m.serving).toNat = addr
  | _, _ => True

def AckSuits (left : Kind → Fin 8 → UInt8) (m : Levels) : (o : Op) → Res o → Prop
  | .readb _, _ => (left m.kind m.serving).toNat = ackLevel m.kind m.pilr
  | _, _ => True

/-- the card as the driver hears it: it may answer anything -/
def heard (reset : Kind → Fin 8 → UInt8 → UInt8) : Env Op Res Levels :=
  Env.answers (Levels.after reset) fun _ _ _ => True

/-- the guard of a run in it -/
def agreed (left : Kind → Fin 8 → UInt8) (e : Event Op Res Levels) : Prop :=
  AckAgrees e.pre e.op e.res ↔ AckSuits left e.pre e.op e.res

variable {reset : Kind → Fin 8 → UInt8 → UInt8} {left lv : Kind → Fin 8 → UInt8} {m : Levels}
  {α : Type} {j : Fin 8}

theorem heard_stable (P : Levels → Prop) : Stable (heard reset) P := by
  intro m m' h hr
  obtain rfl : m' = m := hr
  exact h

/-- no acknowledge, and neither a level nor Reset All is written -/
def Op.Mild : Op → Prop
  | .readb _ => False
  | .cwr _ reg v => reg ≠ .RPILR ∧ reg ≠ .TPILR ∧ (reg = .CCR → v &&& ccrRstall = 0)
  | _ => True

theorem mild_keeps : Keeps (heard reset) (agreed left) Op.Mild fun m => m.level = lv := by
  intro m o r m' ho h ⟨_, hm⟩
  subst hm
  cases o with
  | readb addr => exact False.elim ho
  | crd j reg =>
    refine ⟨Iff.rfl, ?_⟩
    cases reg <;> exact h
  | cwr j reg v =>
    refine ⟨Iff.rfl, ?_⟩
    obtain ⟨hr, ht, hccr⟩ := ho
    cases reg
    case RPILR => exact absurd rfl hr
    case TPILR => exact absurd rfl ht
    case CCR =>
      show (if v &&& ccrRstall = 0 then m else m.resetAll reset j).level = lv
      rw [if_pos (hccr rfl)]
      exact h
    all_goals exact h
  | _ => exact ⟨Iff.rfl, h⟩

theorem wp_mild {p : Drv α} (hu : p.Uses Op.Mild) (h : m.level = lv) :
    wp (heard reset) (agreed left) p (fun _ m' => m'.level = lv) m :=
  wp_keeps (heard_stable _) mild_keeps hu h

theorem wp_heard {o : Op} {f : Res o → Drv α} {Q : α → Levels → Prop}
    (h : ∀ r, (AckAgrees m o r ↔ AckSuits left m o r) ∧
      wp (heard reset) (agreed left) (f r) Q (Levels.after reset o r m)) :
    wp (heard reset) (agreed left) (issue o >>= f) Q m := by
  intro m1 hr r m2 ⟨_, hm⟩
  obtain rfl : m1 = m := hr
  subst hm
  exact h r

/-- a read: nothing guards it -/
theorem wp_hears {j : Fin 8} {reg : Reg} {f : UInt8 → Drv α} {Q : α → Levels → Prop}
    (h : ∀ v : UInt8,
      wp (heard reset) (agreed left) (f v) Q (Levels.after reset (.crd j reg) v m)) :
    wp (heard reset) (agreed left) (crd j reg >>= f) Q m := wp_heard fun v => ⟨Iff.rfl, h v⟩

/-! ## the probe -/

/-- the microcode goes through registers of its own -/
theorem mild_loadUcode (u : Ucode) (j : Fin 8) : (loadUcode u j).Uses Op.Mild := by
  have hair : ∀ l m h, (writeAir j l m h).Uses Op.Mild := by
    intro l m h
    refine uses_write ⟨nofun, nofun, nofun⟩ ?_
    refine uses_write ⟨nofun, nofun, nofun⟩ ?_
    exact uses_issue ⟨nofun, nofun, nofun⟩
  have hstore : ∀ n i, (storeInsns u j i n).Uses Op.Mild := by
    intro n
    induction n with
    | zero => exact fun _ => trivial
    | succ n ih =>
      intro i
      refine Prog.Uses.bind ?_ fun _ => ih _
      refine Prog.Uses.bind (hair _ _ _) fun _ => ?_
      exact uses_issue ⟨nofun, nofun, nofun⟩
  refine Prog.Uses.bind (uses_issue trivial) fun before => ?_
  refine Prog.Uses.bind (hair _ _ _) fun _ => ?_
  refine uses_write ⟨nofun, nofun, nofun⟩ ?_
  refine uses_write ⟨nofun, nofun, nofun⟩ ?_
  refine uses_write ⟨nofun, nofun, nofun⟩ ?_
  refine Prog.Uses.bind (hstore _ _) fun _ => ?_
  refine Prog.Uses.bind (hair _ _ _) fun _ => ?_
  refine uses_write ⟨nofun, nofun, nofun⟩ ?_
  refine uses_write ⟨nofun, nofun, nofun⟩ ?_
  refine uses_write ⟨nofun, nofun, nofun⟩ ?_
  refine uses_write ⟨nofun, nofun, nofun⟩ ?_
  exact uses_issue ⟨nofun, nofun, nofun⟩

theorem Op.Tune.mild {o : Op} (h : o.Tune j) : o.Mild := by
  cases o with
  | cwr j' reg v =>
    obtain ⟨_, hreg, _, hccr⟩ := h
    refine ⟨?_, ?_, hccr⟩
    · rintro rfl
      exact hreg
    · rintro rfl
      exact hreg
  | readb addr => exact False.elim h
  | _ => trivial

theorem mild_awaitRevision (j : Fin 8) (v : UInt8) (n : Nat) :
    (awaitRevision j v n).Uses Op.Mild := by
  induction n generalizing v with
  | zero => trivial
  | succ n ih =>
    refine Prog.Uses.bind (uses_issue trivial) fun v' => ?_
    exact Prog.Uses.ite trivial (ih v')

/-- the chips of `done` have been reset -/
def resetOf (reset : Kind → Fin 8 → UInt8 → UInt8) (init : Kind → Fin 8 → UInt8)
    (done : List (Fin 8)) : Kind → Fin 8 → UInt8 :=
  fun k j => if j ∈ done then reset k j (init k j) else init k j

theorem wp_download {init : Kind → Fin 8 → UInt8} {done : List (Fin 8)} (u : Ucode) (turns : Nat)
    (hj : j ∉ done) (h : m.level = resetOf reset init done) :
    wp (heard reset) (agreed left) (nm32aDownload u turns j)
      (fun _ m' => m'.level = resetOf reset init (j :: done)) m := by
  rw [nm32aDownload, wp_bind]
  refine wp_post (wp_mild (mild_loadUcode u j) h) ?_
  intro _ m1 h1
  have hreset : (Levels.after reset (.cwr j .CCR ccrRstall) () m1).level
      = resetOf reset init (j :: done) := by
    show (if ccrRstall &&& ccrRstall = 0 then m1 else m1.resetAll reset j).level = _
    rw [if_neg (by decide : ¬ccrRstall &&& ccrRstall = 0)]
    funext k i
    show (if i = j then reset k i (m1.level k i) else m1.level k i) = _
    rw [h1]
    unfold resetOf
    by_cases hi : i = j
    · rw [hi, if_pos rfl, if_neg hj, if_pos List.mem_cons_self]
    · simp [hi]
  refine wp_heard fun _ => ⟨Iff.rfl, ?_⟩
  refine wp_mild ?_ hreset
  refine Prog.Uses.bind ((tune_ccrWait turns).mono fun _ => Op.Tune.mild) fun n => ?_
  exact Prog.Uses.bind (mild_awaitRevision j 0 _) fun _ => trivial

theorem wp_downloadChips {init : Kind → Fin 8 → UInt8} (u : Ucode) (turns : Nat)
    (chips : List (Fin 8)) {done : List (Fin 8)} (hn : chips.Nodup) (hd : ∀ j ∈ chips, j ∉ done)
    (h : m.level = resetOf reset init done) :
    wp (heard reset) (agreed left) (downloadChips u turns chips)
      (fun _ m' => m'.level = resetOf reset init (chips.reverse ++ done)) m := by
  induction chips generalizing m done with
  | nil => exact h
  | cons j chips ih =>
    obtain ⟨hj, hn⟩ := List.nodup_cons.mp hn
    unfold downloadChips
    rw [wp_bind]
    refine wp_post (wp_download u turns (hd j List.mem_cons_self) h) ?_
    intro _ m1 h1
    have hd1 : ∀ i ∈ chips, i ∉ j :: done := by
      intro i hi hm
      rcases List.mem_cons.mp hm with rfl | hm
      · exact hj hi
      · exact hd i (List.mem_cons_of_mem _ hi) hm
    have hrest := ih hn hd1 h1
    rw [List.reverse_cons, List.append_assoc]
    exact hrest

/-- what the probe leaves in the level registers -/
def leftBy (reset : Kind → Fin 8 → UInt8 → UInt8) (init : Kind → Fin 8 → UInt8) :
    Kind → Fin 8 → UInt8 := fun k j => reset k j (init k j)

theorem wp_probe_left {init : Kind → Fin 8 → UInt8} (u : Ucode) (turns : Nat)
    (h : m.level = init) :
    wp (heard reset) (agreed left) (nm32aProbe u turns)
      (fun _ m' => m'.level = leftBy reset init) m := by
  have h0 : m.level = resetOf reset init [] := h
  refine wp_post (wp_downloadChips u turns allChips (by decide) (fun _ _ => List.not_mem_nil) h0) ?_
  intro _ m' h'
  rw [h']
  funext k j
  have hj : j ∈ allChips.reverse ++ [] := by
    revert j
    decide
  exact if_pos hj

/-! ## the calls -/

theorem Op.Sweep.mild {o : Op} (h : o.Sweep) : o.Mild := by
  cases o with
  | cwr j' reg v =>
    rcases h with rfl | rfl
    · exact ⟨nofun, nofun, nofun⟩
    · exact ⟨nofun, nofun, nofun⟩
  | readb addr => exact False.elim h
  | _ => trivial

theorem Op.Chooses.mild {k : Fin 32} {o : Op} (h : o.Chooses k) : o.Mild := by
  rw [h]
  exact ⟨nofun, nofun, nofun⟩

theorem Op.Steer.mild {k : Fin 32} {o : Op} (h : o.Steer k) : o.Mild := by
  rcases h with h | h | ⟨v, rfl⟩ | ⟨f, rfl⟩
  · exact h.mild
  · exact h.mild
  · exact ⟨nofun, nofun, nofun⟩
  · trivial

theorem Op.Early.mild {k : Fin 32} {o : Op} (h : o.Early k) : o.Mild := by
  cases o with
  | crd j reg => trivial
  | setPort k' f => trivial
  | _ => exact False.elim h

theorem mild_until {k : Fin 32} {p : Drv α}
    (h : p.Until (Op.Steer k) (· = .unlock) fun _ => False) : p.Uses Op.Mild := by
  refine h.uses.mono ?_
  rintro o (ho | rfl | ho)
  · exact ho.mild
  · trivial
  · exact ho.elim

theorem Steers.mild {k : Fin 32} {p : Drv α} (h : Steers k p) : p.Uses Op.Mild := by
  induction p with
  | ret a => exact h.elim
  | op o f ih =>
    rcases h with ⟨rfl, h⟩ | ⟨ho, h⟩ | ⟨ho, h⟩
    · exact ⟨trivial, fun r => (h r).mono fun _ => False.elim⟩
    · exact ⟨ho.mild, fun r => mild_until (h r)⟩
    · exact ⟨ho.mild, fun r => ih r (h r)⟩

/-- a call on a port writes no level -/
theorem mild_steers {k : Fin 32} {p : Drv α} (h : ∃ f, p = hwLock >>= f ∧ Steers k (f ())) :
    p.Uses Op.Mild := by
  obtain ⟨f, rfl, hf⟩ := h
  exact ⟨trivial, fun _ => hf.mild⟩

/-! ## the service routine -/

theorem Op.Peek.mild {o : Op} (h : o.Peek j) : o.Mild := by
  cases o with
  | cwr j' reg v => exact False.elim h
  | readb addr => exact False.elim h
  | _ => trivial

theorem Op.Own.mild {i : Fin 32} {o : Op} (h : o.Own j i) : o.Mild := by
  rcases h with h | h
  · exact h.mild
  cases o with
  | cwr j' reg v =>
    rcases h.2 with rfl | rfl
    · exact ⟨nofun, nofun, nofun⟩
    · exact ⟨nofun, nofun, nofun⟩
  | readb addr => exact False.elim h
  | _ => trivial

theorem Op.Pass.mild {k : Kind} {ch : Fin 4} {o : Op} (h : Op.Pass j k ch o) : o.Mild := by
  obtain (h | rfl | ⟨_, rfl⟩ | ⟨_, ⟨v, rfl⟩ | ⟨v, rfl⟩⟩) | (h | ⟨v, rfl⟩) := h
  · exact h.mild
  · trivial
  · trivial
  · exact ⟨nofun, nofun, nofun⟩
  · trivial
  · exact h.mild
  · cases k
    · exact ⟨nofun, nofun, nofun⟩
    · exact ⟨nofun, nofun, nofun⟩

theorem mild_serviceGranted (g : Granted) : (serviceGranted j g).Uses Op.Mild := by
  have hg := reaches_serviceGranted (j := j) g fun k ch o (h : Op.Pass j k ch o) => h.mild
  refine hg.uses.mono ?_
  rintro o (h | rfl)
  · exact h
  · trivial

/-- the registers after the acknowledge, and the release where they show no grant -/
theorem mild_decide (tr : Bool) (tirc : UInt8) : (do
    let tir1 ← crd j .TIR
    let rir1 ← crd j .RIR
    match grantDecision tr tirc tir1 rir1 with
    | none =>
      hwUnlock
      return none
    | some g => return some g : Drv (Option Granted)).Uses Op.Mild := by
  refine Prog.Uses.bind (uses_issue trivial) fun tir1 => ?_
  refine Prog.Uses.bind (uses_issue trivial) fun rir1 => ?_
  cases grantDecision tr tirc tir1 rir1 with
  | none => exact Prog.Uses.bind (uses_issue trivial) fun _ => trivial
  | some g => trivial

theorem ackAddr_eq (rirc : UInt8) :
    ackAddr rirc = (do return ackLevel (Levels.kindOf rirc) (← params).pilr) := by
  unfold ackAddr Levels.kindOf
  split <;> rfl

theorem wp_serviceGrant_level (j : Fin 8) (h : m.level = left) :
    wp (heard reset) (agreed left) (serviceGrant j) (fun _ m' => m'.level = left) m := by
  have hback : ∀ m' : Levels, m'.level = left →
      wp (heard reset) (agreed left) (do hwUnlock; return none : Drv (Option Granted))
        (fun _ m' => m'.level = left) m' :=
    fun m' h' => wp_mild (Prog.Uses.bind (uses_issue trivial) fun _ => trivial) h'
  unfold serviceGrant
  refine wp_heard fun _ => ⟨Iff.rfl, ?_⟩
  refine wp_hears fun tir0 => ?_
  refine wp_hears fun rir0 => ?_
  rw [wp_bind]
  refine wp_post (wp_mild ((uses_serviceTrace j _).mono fun _ h => h.peek.mild) h) ?_
  intro tr m1 h1
  split
  · exact hback m1 h1
  refine wp_hears fun tirc => ?_
  refine wp_hears fun rirc => ?_
  split
  · exact hback _ h1
  rw [ackAddr_eq]
  refine wp_heard fun p => ⟨Iff.rfl, ?_⟩
  refine wp_heard fun ackv => ⟨?_, ?_⟩
  · -- the register that was read last is `rirc`, and `pilr` was read since
    show (m1.level (Levels.kindOf rirc) j).toNat = ackLevel (Levels.kindOf rirc) (Params.pilr p) ↔
      (left (Levels.kindOf rirc) j).toNat = ackLevel (Levels.kindOf rirc) (Params.pilr p)
    rw [h1]
  · exact wp_mild (mild_decide tr tirc) h1

theorem wp_service_level (j : Fin 8) (h : m.level = left) :
    wp (heard reset) (agreed left) (nm32aService j) (fun _ m' => m'.level = left) m := by
  unfold nm32aService
  rw [wp_bind]
  refine wp_post (wp_serviceGrant_level j h) ?_
  intro g m1 h1
  cases g with
  | none => exact h1
  | some g =>
    exact wp_mild (Prog.Uses.bind (mild_serviceGranted g) fun _ => trivial) h1

/-! ## runs -/

theorem wp_call_level (call : Call) (h : m.level = left) :
    wp (heard reset) (agreed left) call.prog (fun _ m' => m'.level = left) m := by
  cases call with
  | service j =>
    show wp _ _ (nm32aService j >>= fun _ => pure ()) _ _
    rw [wp_bind]
    exact wp_service_level j h
  | armTx j => exact wp_mild ((uses_armTx j).mono fun _ => Op.Sweep.mild) h
  | activate turns k rate =>
    exact wp_mild (uses_discard (mild_steers (steers_activate turns rate))) h
  | setTermios turns k rate => exact wp_mild (mild_steers (steers_setTermios turns rate)) h
  | dtrRts k active => exact wp_mild (mild_steers (steers_dtrRts active)) h
  | shutdown k => exact wp_mild (mild_steers steers_shutdown) h
  | sample k => exact wp_mild (uses_discard (mild_steers steers_sample)) h

theorem wp_calls_level (calls : List Call) (h : m.level = left) :
    wp (heard reset) (agreed left) (callsProg calls) (fun _ m' => m'.level = left) m := by
  induction calls generalizing m with
  | nil => exact h
  | cons call calls ih =>
    refine (wp_bind _ _ _ _).mpr (wp_post (wp_call_level call h) ?_)
    intro _ m1 h1
    exact ih h1

instance instDecidableAckAgrees (m : Levels) (o : Op) (r : Res o) :
    Decidable (AckAgrees m o r) :=
  match o, r with
  | .readb addr, _ => inferInstanceAs (Decidable ((m.level m.kind m.serving).toNat = addr))
  | .crd .., _ | .cwr .., _ | .lock, _ | .unlock, _ | .spinLock _, _ => .isTrue trivial
  | .spinUnlock _, _ | .port _, _ | .setPort .., _ | .params, _ => .isTrue trivial
  | .traceDec, _ | .jiffies, _ | .ratelimit, _ | .flip .., _ => .isTrue trivial
  | .shouldStop, _ | .hang, _ => .isTrue trivial

instance instDecidableAckSuits (left : Kind → Fin 8 → UInt8) (m : Levels) (o : Op) (r : Res o) :
    Decidable (AckSuits left m o r) :=
  match o, r with
  | .readb addr, _ =>
    inferInstanceAs (Decidable ((left m.kind m.serving).toNat = ackLevel m.kind m.pilr))
  | .crd .., _ | .cwr .., _ | .lock, _ | .unlock, _ | .spinLock _, _ => .isTrue trivial
  | .spinUnlock _, _ | .port _, _ | .setPort .., _ | .params, _ => .isTrue trivial
  | .traceDec, _ | .jiffies, _ | .ratelimit, _ | .flip .., _ => .isTrue trivial
  | .shouldStop, _ | .hang, _ => .isTrue trivial

/-- **The acknowledge levels agree exactly where the level that the probe left is the one `pilr`
stands for.** -/
theorem agrees_iff {σ : Type} (E : Env Op Res σ) (reset : Kind → Fin 8 → UInt8 → UInt8)
    (init : Kind → Fin 8 → UInt8) (u : Ucode) (turns : Nat) (calls : List Call) {s s' : σ}
    {tr : List (Event Op Res σ)} {p' : Drv Unit}
    (h : Exec E (driverProg u turns calls) s tr s' p') :
    Along (Levels.after reset) AckAgrees (Levels.start init) tr ↔
      Along (Levels.after reset) (AckSuits (leftBy reset init)) (Levels.start init) tr := by
  have hw : wp (heard reset) (agreed (leftBy reset init)) (driverProg u turns calls)
      (fun _ m' => m'.level = leftBy reset init) (Levels.start init) := by
    unfold driverProg
    rw [wp_bind]
    exact wp_post (wp_probe_left u turns rfl) fun _ m' h' => wp_calls_level calls h'
  have hboth := (h.along (A := fun _ _ _ => True)
    (G := fun m o r => AckAgrees m o r ↔ AckSuits (leftBy reset init) m o r) hw
    (Along.trivial _ _)).1
  exact Along.congr hboth

/-- a chip with its microcode running that asks for a receive service until it is granted -/
def receiveReg (granted : Bool) : Reg → UInt8
  | .GFRCR => 0x01
  | .RIR => if granted then 0x4c else 0xC0
  | _ => 0x00

/-- a card of such chips -/
def receiveCard (pilr : Int) : Bool → (o : Op) → Option (Res o × Bool) :=
  showing receiveReg (fun _ => true) { Params.default with pilr := pilr }

/-- a probe, an open of the first port and a pass over its chip -/
def firstPass : Drv Unit := driverProg ⟨[0x11, 0x22, 0x03], 1⟩ 1 [.activate 1 0 9600, .service 0]

/-- all levels are 0 -/
def zeroLevels (k : Kind) (j : Fin 8) : UInt8 := 0x00

/-- nothing happens to the levels at Reset All -/
def keepLevels (k : Kind) (j : Fin 8) (v : UInt8) : UInt8 := v

theorem agrees_iff_zero : Along (Levels.after keepLevels) AckAgrees (Levels.start zeroLevels)
    ((Policy.machine (receiveCard 0)).play 0 firstPass false).1 :=
  (agrees_iff _ keepLevels zeroLevels ⟨[0x11, 0x22, 0x03], 1⟩ 1 [.activate 1 0 9600, .service 0]
    ((Policy.machine (receiveCard 0)).play_exec 0 firstPass false)).mpr (by decide +kernel)

/-- the levels are 0, and `pilr` is 1 -/
theorem agrees_fails : ∃ (E : Env Op Res Bool) (tr : List (Event Op Res Bool)) (s' : Bool)
    (p' : Drv Unit), Exec E firstPass false tr s' p' ∧
    ¬Along (Levels.after keepLevels) AckAgrees (Levels.start zeroLevels) tr :=
  ⟨_, _, _, _, (Policy.machine (receiveCard 1)).play_exec 0 firstPass false, by decide +kernel⟩

end Nm32a
