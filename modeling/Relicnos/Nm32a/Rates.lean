import Mathlib.Algebra.Order.Field.Rat
import Mathlib.Tactic.Linarith
import Mathlib.Tactic.NormNum
import Relicnos.Interact.Monitor
import Relicnos.Interact.Policy
import Relicnos.Nm32a.Calls
import Relicnos.Nm32a.Script

/-!
# Does the chip run at the speed that the tty layer holds?

The driver has the divisors of eight speeds.  Any other speed is served with those of 9600, and the
tty layer is not told, so it goes on reporting the speed that was asked for.

* `bitRate`        the rate that a clock selection and a divisor give;
* `Programmed`     what the clock registers of every channel hold, through `CAR`;
* `Clocks.Holds`   both directions run at one rate, within one percent of the speed;
* `port_speed_iff`  after an open or a change of speed this is so for the speeds of the table and
                   for those close to 9600.
-/

set_option linter.unusedVariables false

namespace Nm32a
open Interact

/-! ## rates -/

/-- the bit-rate clock, in Hz -/
def clk : ℚ := 35080000

def bitRate (sel bpr : UInt8) : ℚ := clk / (8 * 4 ^ sel.toNat) / (bpr.toNat + 1)

/-- the clock registers of a channel -/
structure Clocks where
  tcor : UInt8
  tbpr : UInt8
  rcor : UInt8
  rbpr : UInt8
  deriving DecidableEq

namespace Clocks

/-- ClkSel is in bits 7:5 -/
def txRate (c : Clocks) : ℚ := bitRate (c.tcor >>> 5) c.tbpr

/-- and here in bits 2:0 -/
def rxRate (c : Clocks) : ℚ := bitRate (c.rcor &&& 0x07) c.rbpr

/-- the speed `r` is held by both directions -/
structure Holds (c : Clocks) (r : Nat) : Prop where
  same : c.txRate = c.rxRate
  close : |c.txRate - r| ≤ r / 100

end Clocks

/-- the clock registers as a row sets them, with the loopback bit in `l` -/
def BaudRow.clocks (row : BaudRow) (l : UInt8) : Clocks :=
  ⟨(row.sel <<< 5) ||| l, row.bpr, row.sel, row.bpr⟩

/-- the eight speeds -/
def baudRates : List Nat := nm32aBaud.map (·.rate)

theorem baudRow_mem (r : Nat) : baudRow r ∈ nm32aBaud := by
  unfold baudRow
  cases h : nm32aBaud.find? fun row => row.rate = r with
  | none => exact List.mem_of_getElem? baudDefault_row
  | some row => exact List.mem_of_find?_eq_some h

theorem baudRow_table {r : Nat} (h : r ∈ baudRates) : (baudRow r).rate = r := by
  have hall : ∀ r ∈ baudRates, (baudRow r).rate = r := by decide
  exact hall r h

theorem baudRow_other {r : Nat} (h : r ∉ baudRates) : baudRow r = baudDefault := by
  unfold baudRow
  rw [List.find?_eq_none.mpr]
  · rfl
  · intro row hrow hr
    exact h (List.mem_map.mpr ⟨row, hrow, of_decide_eq_true hr⟩)

/-- both directions get the ClkSel of the row -/
theorem row_sel {row : BaudRow} (h : row ∈ nm32aBaud) {l : UInt8} (hl : l = 0x00 ∨ l = 0x02) :
    (row.clocks l).txRate = bitRate row.sel row.bpr ∧
      (row.clocks l).rxRate = bitRate row.sel row.bpr := by
  have hall : ∀ row ∈ nm32aBaud, ∀ l ∈ [0x00, 0x02],
      ((row.sel <<< 5) ||| l) >>> 5 = row.sel ∧ row.sel &&& 0x07 = row.sel := by decide +kernel
  obtain ⟨ht, hr⟩ := hall row h l (by simpa using hl)
  unfold Clocks.txRate Clocks.rxRate BaudRow.clocks
  rw [ht, hr]
  exact ⟨rfl, rfl⟩

/-- the rates of the table are within one percent of their speeds -/
theorem row_close : ∀ row ∈ nm32aBaud, |bitRate row.sel row.bpr - row.rate| ≤ row.rate / 100 := by
  unfold nm32aBaud bitRate clk
  simp only [List.forall_mem_cons, abs_le, UInt8.reduceToNat]
  norm_num

/-- the speeds that 9600 is within one percent of -/
theorem default_close (r : Nat) :
    |bitRate baudDefault.sel baudDefault.bpr - r| ≤ r / 100 ↔ 9522 ≤ r ∧ r ≤ 9713 := by
  have hrate : bitRate baudDefault.sel baudDefault.bpr = 35080000 / 3648 := by
    unfold bitRate clk baudDefault
    simp only [UInt8.reduceToNat]
    norm_num
  rw [hrate, abs_le]
  constructor
  · intro ⟨hlo, hhi⟩
    constructor
    · by_contra hlt
      have hle : (r : ℚ) ≤ 9521 := by exact_mod_cast (by omega : r ≤ 9521)
      linarith
    · by_contra hlt
      have hle : (9714 : ℚ) ≤ r := by exact_mod_cast (by omega : 9714 ≤ r)
      linarith
  · intro ⟨hlo, hhi⟩
    have hlo : (9522 : ℚ) ≤ r := by exact_mod_cast hlo
    have hhi : (r : ℚ) ≤ 9713 := by exact_mod_cast hhi
    constructor <;> linarith

/-- **The row that the driver picks for `r` holds it** for these speeds only. -/
theorem baudRow_holds (r : Nat) {l : UInt8} (hl : l = 0x00 ∨ l = 0x02) :
    ((baudRow r).clocks l).Holds r ↔ r ∈ baudRates ∨ (9522 ≤ r ∧ r ≤ 9713) := by
  obtain ⟨ht, hr⟩ := row_sel (baudRow_mem r) hl
  have hclose : ((baudRow r).clocks l).Holds r ↔
      |bitRate (baudRow r).sel (baudRow r).bpr - r| ≤ r / 100 := by
    rw [← ht]
    exact ⟨fun h => h.close, fun h => ⟨ht.trans hr.symm, h⟩⟩
  rw [hclose]
  by_cases htab : r ∈ baudRates
  · have hrow := row_close (baudRow r) (baudRow_mem r)
    rw [baudRow_table htab] at hrow
    exact iff_of_true hrow (.inl htab)
  · rw [baudRow_other htab, default_close]
    exact ⟨.inr, fun h => h.resolve_left htab⟩

/-! ## the registers of the channels -/

/-- what the channels hold, and the channel that each chip has in `CAR` -/
structure Programmed where
  car : Fin 8 → Fin 4
  clocks : Fin 8 → Fin 4 → Clocks

namespace Programmed

/-- a write to the channel that is addressed -/
def put (m : Programmed) (j : Fin 8) (f : Clocks → Clocks) : Programmed :=
  { m with clocks := fun j' x =>
      if j' = j ∧ x = m.car j then f (m.clocks j' x) else m.clocks j' x }

def after : (o : Op) → Res o → Programmed → Programmed
  | .cwr j .CAR v, _, m => { m with car := fun j' => if j' = j then chanOf v else m.car j' }
  | .cwr j .TCOR v, _, m => m.put j fun c => { c with tcor := v }
  | .cwr j .TBPR v, _, m => m.put j fun c => { c with tbpr := v }
  | .cwr j .RCOR v, _, m => m.put j fun c => { c with rcor := v }
  | .cwr j .RBPR v, _, m => m.put j fun c => { c with rbpr := v }
  | _, _, m => m

end Programmed

/-- no override is set where a parameter is read -/
def Unforced : (o : Op) → Res o → Prop
  | .params, p => Params.fsel p < 0 ∧ Params.fbpr p < 0 ∧ Params.frsel p < 0 ∧ Params.frbpr p < 0
  | _, _ => True

instance instDecidableUnforced (o : Op) (r : Res o) : Decidable (Unforced o r) :=
  match o, r with
  | .params, _ => inferInstanceAs (Decidable (_ ∧ _))
  | .crd .., _ | .cwr .., _ | .readb _, _ | .lock, _ | .unlock, _ => .isTrue trivial
  | .spinLock _, _ | .spinUnlock _, _ | .port _, _ | .setPort .., _ => .isTrue trivial
  | .traceDec, _ | .jiffies, _ | .ratelimit, _ | .flip .., _ => .isTrue trivial
  | .shouldStop, _ | .hang, _ => .isTrue trivial

/-- the card as a call programs it: it may answer anything, and no override is set -/
def programming : Env Op Res Programmed := Env.answers Programmed.after fun _ => Unforced

variable {α : Type} {j : Fin 8} {i : Fin 32} {x : Fin 4} {m : Programmed} {c : Clocks}

/-- nothing is asked of a single operation -/
def anyEvent (e : Event Op Res Programmed) : Prop := True

theorem wp_programs {o : Op} {f : Res o → Drv α} {Q : α → Programmed → Prop}
    (h : ∀ r, Unforced o r → wp programming anyEvent (f r) Q (Programmed.after o r m)) :
    wp programming anyEvent (issue o >>= f) Q m := by
  intro m1 hr r m2 ⟨ho, hm⟩
  obtain rfl : m1 = m := hr
  subst hm
  exact ⟨trivial, h r ho⟩

/-- the channel is addressed, and its registers hold `c` -/
structure Programmed.Has (j : Fin 8) (x : Fin 4) (c : Clocks) (m : Programmed) : Prop where
  car : m.car j = x
  clocks : m.clocks j x = c

theorem Programmed.Has.put (h : m.Has j x c) (f : Clocks → Clocks) :
    (m.put j f).Has j x (f c) := by
  refine ⟨h.car, ?_⟩
  show (if j = j ∧ x = m.car j then f (m.clocks j x) else m.clocks j x) = f c
  rw [if_pos ⟨rfl, h.car.symm⟩, h.clocks]

/-- `CAR` chooses the channel -/
theorem wp_car {f : Unit → Drv α} {Q : α → Programmed → Prop}
    (h : ∀ m c, m.Has j x c → wp programming anyEvent (f ()) Q m) :
    wp programming anyEvent (cwr j .CAR (UInt8.ofNat x.val) >>= f) Q m := by
  refine wp_programs fun _ _ => h _ (m.clocks j x) ⟨?_, rfl⟩
  show (if j = j then chanOf (UInt8.ofNat x.val) else m.car j) = x
  rw [if_pos rfl, chanOf_ofNat]

/-- operations that leave the channel and its speed alone -/
def Op.Steady : Op → Prop
  | .cwr _ reg _ => reg ≠ .CAR ∧ ¬reg.Clock
  | _ => True

theorem Op.Trim.steady {o : Op} (h : o.Trim j) : o.Steady := by
  cases o with
  | cwr j' reg v => exact ⟨h.1.2.1.plain.2.2, h.2⟩
  | _ => trivial

theorem steady_keeps : Keeps programming anyEvent Op.Steady (Programmed.Has j x c) := by
  intro m o r m' ho h ⟨_, hm⟩
  subst hm
  refine ⟨trivial, ?_⟩
  cases o with
  | cwr j' reg v =>
    obtain ⟨hcar, hclock⟩ := ho
    cases reg
    case CAR => exact absurd rfl hcar
    case TCOR => exact absurd trivial hclock
    case TBPR => exact absurd trivial hclock
    case RCOR => exact absurd trivial hclock
    case RBPR => exact absurd trivial hclock
    all_goals exact h
  | _ => exact h

theorem wp_steady {p : Drv α} (hu : p.Uses Op.Steady) (h : m.Has j x c) :
    wp programming anyEvent p (fun _ m' => m'.Has j x c) m := by
  refine wp_keeps ?_ steady_keeps hu h
  intro m m' h hr
  obtain rfl : m' = m := hr
  exact h

theorem override_unset {par : Int} (h : par < 0) (v : UInt8) : override par v = v :=
  if_neg (Int.not_le.mpr h)

/-- **What `nm32a_set_rate` leaves in the registers**: the row, with the loopback bit beside it. -/
theorem wp_setRate (r : Nat) (h : m.Has j x c) :
    wp programming anyEvent (nm32aSetRate j r)
      (fun _ m' => ∃ l, (l = 0x00 ∨ l = 0x02) ∧ m'.Has j x ((baudRow r).clocks l)) m := by
  unfold nm32aSetRate
  refine wp_programs (o := .params) fun p hp => ?_
  rw [override_unset hp.1]
  refine wp_programs (o := .params) fun p hp => ?_
  rw [override_unset hp.2.1]
  refine wp_programs (o := .params) fun p hp => ?_
  generalize hl : (if Params.llm p ≠ 0 then 0x02 else 0x00 : UInt8) = l
  refine wp_programs (o := .cwr j .TCOR _) fun _ _ => ?_
  refine wp_programs (o := .cwr j .TBPR _) fun _ _ => ?_
  refine wp_programs (o := .params) fun p hp => ?_
  rw [override_unset hp.2.2.1]
  refine wp_programs (o := .cwr j .RCOR _) fun _ _ => ?_
  refine wp_programs (o := .params) fun p hp => ?_
  rw [override_unset hp.2.2.2]
  intro m1 hr _ m2 ⟨_, hm⟩
  obtain rfl := hr
  subst hm
  have htcor := h.put fun c => { c with tcor := ((baudRow r).sel <<< 5) ||| l }
  have htbpr := htcor.put fun c => { c with tbpr := (baudRow r).bpr }
  have hrcor := htbpr.put fun c => { c with rcor := (baudRow r).sel }
  have hrbpr := hrcor.put fun c => { c with rbpr := (baudRow r).bpr }
  refine ⟨trivial, l, ?_, hrbpr⟩
  rw [← hl]
  split
  · exact .inr rfl
  · exact .inl rfl

/-- the speed is set, and the channel brought up after it -/
theorem wp_setRate_then {p : Drv α} (r : Nat) (hu : p.Uses Op.Steady) (h : m.Has j x c) :
    wp programming anyEvent (nm32aSetRate j r >>= fun _ => p)
      (fun _ m' => ∃ l, (l = 0x00 ∨ l = 0x02) ∧ m'.Has j x ((baudRow r).clocks l)) m := by
  rw [wp_bind]
  refine wp_post (wp_setRate r h) ?_
  intro _ m1 ⟨l, hl, h1⟩
  exact wp_post (wp_steady hu h1) fun _ m2 h2 => ⟨l, hl, h2⟩

theorem wp_chanInit (turns r : Nat) :
    wp programming anyEvent (nm32aChanInit turns j x r)
      (fun _ m' => ∃ l, (l = 0x00 ∨ l = 0x02) ∧ m'.Has j x ((baudRow r).clocks l)) m := by
  rw [nm32aChanInit_eq]
  refine wp_car fun m1 c h1 => ?_
  refine wp_programs fun _ _ => ?_
  refine wp_setRate_then (m := m1) r ?_ h1
  refine uses_write ⟨nofun, id⟩ ?_
  refine uses_write ⟨nofun, id⟩ ?_
  refine uses_write ⟨nofun, id⟩ ?_
  refine Prog.Uses.bind ((trim_chanInitRest turns).mono fun _ => Op.Trim.steady) fun _ => ?_
  exact uses_issue ⟨nofun, id⟩

theorem steady_activateRest : (activateRest i).Uses Op.Steady := by
  refine Prog.Uses.bind (uses_issue trivial) fun _ => ?_
  refine Prog.Uses.bind (uses_issue trivial) fun _ => ?_
  refine Prog.Uses.bind (uses_issue trivial) fun _ => ?_
  refine Prog.Uses.bind (uses_issue trivial) fun now => ?_
  refine Prog.Uses.bind (uses_issue trivial) fun _ => ?_
  refine Prog.Uses.bind (uses_issue trivial) fun _ => ?_
  refine Prog.Uses.bind (uses_issue trivial) fun _ => ?_
  exact Prog.Uses.bind (uses_issue trivial) fun _ => trivial

/-- the channel of a port is set to the row for a speed -/
def SetTo (i : Fin 32) (r : Nat) (m : Programmed) : Prop :=
  ∃ l, (l = 0x00 ∨ l = 0x02) ∧ m.Has (chipOf i) (chanIx i) ((baudRow r).clocks l)

/-- an open that is not refused -/
theorem wp_activate_set (turns : Nat) {r : Nat} (hr : 0 < r) :
    wp programming anyEvent (nm32aPortActivate turns i r)
      (fun rc m' => rc = 0 → SetTo i r m') m := by
  rw [nm32aPortActivate_eq]
  refine wp_programs fun _ _ => ?_
  refine wp_programs (o := .crd (chipOf i) .GFRCR) fun gfrcr _ => ?_
  split
  · refine wp_programs fun _ _ => ?_
    intro hrc
    exact absurd hrc (by decide)
  · rw [if_pos (Nat.pos_iff_ne_zero.mp hr), wp_bind]
    refine wp_post (wp_chanInit turns r) ?_
    intro _ m1 ⟨l, hl, h1⟩
    exact wp_post (wp_steady steady_activateRest h1) fun rc m2 h2 hrc => ⟨l, hl, h2⟩

theorem wp_setTermios_set (turns : Nat) {r : Nat} (hr : 0 < r) :
    wp programming anyEvent (nm32aTtySetTermios turns i r) (fun _ m' => SetTo i r m') m := by
  have hwait : (ccrWait turns (chipOf i)).Uses Op.Steady :=
    (trim_ccrWait turns).mono fun _ => Op.Trim.steady
  refine wp_programs fun _ _ => ?_
  refine wp_car fun m1 c h1 => ?_
  rw [if_pos (Nat.pos_iff_ne_zero.mp hr)]
  refine wp_setRate_then r ?_ h1
  refine uses_write ⟨nofun, id⟩ ?_
  refine Prog.Uses.bind hwait fun _ => ?_
  refine uses_write ⟨nofun, id⟩ ?_
  refine Prog.Uses.bind hwait fun _ => ?_
  refine uses_write ⟨nofun, id⟩ ?_
  exact uses_issue trivial

/-! ## runs -/

theorem along_unforced {σ : Type} {tr : List (Event Op Res σ)}
    (h : ∀ e ∈ tr, Unforced e.op e.res) (m : Programmed) :
    Along Programmed.after (fun _ => Unforced) m tr := by
  induction tr generalizing m with
  | nil => trivial
  | cons e tr ih =>
    exact ⟨h e List.mem_cons_self, ih (fun e' he => h e' (List.mem_cons_of_mem _ he)) _⟩

/-- a complete run of a call, seen with what it programs -/
theorem runs_programs {σ : Type} {E : Env Op Res σ} {p : Drv α} {a : α} {s s' : σ}
    {tr : List (Event Op Res σ)} {Q : α → Programmed → Prop} (h : Runs E p s tr a s')
    (hpar : ∀ e ∈ tr, Unforced e.op e.res) (hw : wp programming anyEvent p Q m) :
    Q a (history Programmed.after m tr) :=
  (Exec.along (G := fun _ _ _ => True) h hw (along_unforced hpar m)).2

/-- **The chip runs at the speed that the tty layer holds** exactly for the eight speeds of the
table and for those within one percent of 9600. -/
theorem port_speed_iff {σ : Type} (E : Env Op Res σ) (turns : Nat) (i : Fin 32) (r : Nat)
    (m : Programmed) {s s' : σ} {tr : List (Event Op Res σ)} (hr : 0 < r)
    (h : Runs E (nm32aPortActivate turns i r) s tr 0 s' ∨
      Runs E (nm32aTtySetTermios turns i r) s tr () s')
    (hpar : ∀ e ∈ tr, Unforced e.op e.res) :
    ((history Programmed.after m tr).clocks (chipOf i) (chanIx i)).Holds r ↔
      r ∈ baudRates ∨ (9522 ≤ r ∧ r ≤ 9713) := by
  have hset : SetTo i r (history Programmed.after m tr) := by
    obtain h | h := h
    · exact runs_programs h hpar (wp_activate_set turns hr) rfl
    · exact runs_programs (Q := fun _ m' => SetTo i r m') h hpar (wp_setTermios_set turns hr)
  obtain ⟨l, hl, hhas⟩ := hset
  rw [hhas.clocks]
  exact baudRow_holds r hl

/-- a card that is ready at once, and has no parameter set -/
def readyCard (s : Unit) : (o : Op) → Option (Res o × Unit) :=
  showing (fun _ _ => 0x00) id Params.default s

/-- what an open of the sixth port programs there -/
def opened (r : Nat) : List (Event Op Res Unit) :=
  ((Policy.machine readyCard).play 0 (nm32aPortActivate 1 5 r) ()).1

/-- nothing is programmed -/
def unprogrammed : Programmed := ⟨fun _ => 0, fun _ _ => ⟨0x00, 0x00, 0x00, 0x00⟩⟩

theorem port_speed_iff_fast :
    ((history Programmed.after unprogrammed (opened 115200)).clocks 1 1).Holds 115200 :=
  (port_speed_iff _ 1 5 115200 unprogrammed (by decide)
    (.inl ((Policy.machine readyCard).play_runs 0 (nm32aPortActivate 1 5 115200) () rfl))
    (by decide +kernel)).mpr (by decide)

/-- a port that is opened at 230400 runs at 9600 -/
theorem port_speed_fails : ∃ (E : Env Op Res Unit) (tr : List (Event Op Res Unit)),
    Runs E (nm32aPortActivate 1 5 230400) () tr 0 () ∧ (∀ e ∈ tr, Unforced e.op e.res) ∧
    ¬((history Programmed.after unprogrammed tr).clocks 1 1).Holds 230400 := by
  refine ⟨_, opened 230400,
    (Policy.machine readyCard).play_runs 0 (nm32aPortActivate 1 5 230400) () rfl,
    by decide +kernel, ?_⟩
  have hclocks : (history Programmed.after unprogrammed (opened 230400)).clocks 1 1
      = baudDefault.clocks 0x00 := by decide +kernel
  rw [hclocks]
  intro h
  have hclose := h.close
  rw [(row_sel (List.mem_of_getElem? baudDefault_row) (.inl rfl)).1] at hclose
  exact absurd ((default_close 230400).mp hclose).2 (by decide)

end Nm32a
