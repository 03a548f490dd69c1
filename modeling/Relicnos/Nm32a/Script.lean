import Relicnos.Interact.Policy
import Relicnos.Nm32a.World

/-!
# Executing the driver against a scripted card

A `Script` says what happens between two operations, which chip the FPGA grants, and what TFTC
and the receive contexts show; every other register reads what the chip model makes it show.
`Script.policy` is the policy it gives, so that concrete runs of the driver can be computed.
-/

namespace Nm32a
open Interact

namespace Chip

/-- a plain way for `TIR` or `RIR` to read -/
def irValue (c : Chip) (k : Kind) : UInt8 :=
  match c.openOf k with
  | some x => 0x40 ||| UInt8.ofNat x.chan.val ||| (if k = .rx ∧ x.good then 0x0c else 0x00)
  | none => if ∃ y, c.req k y = true then 0xC0 else 0x00

theorem irValue_shows (c : Chip) (k : Kind) : c.irShows k (c.irValue k) := by
  unfold irShows irValue
  cases c.openOf k with
  | none =>
    by_cases h : ∃ y, c.req k y = true
    · simp only [if_pos h]
      decide
    · simp only [if_neg h]
      decide
  | some x =>
    obtain ⟨kind, chan, left, good, risr, latched, took⟩ := x
    revert chan
    cases k <;> cases good <;> simp <;> decide

/-- what register `reg` reads, with `tftc` free transmit slots -/
def value (c : Chip) (tftc : UInt8) : Reg → UInt8
  | .TIR => c.irValue .tx
  | .RIR => c.irValue .rx
  | .STK => match c.stack with
    | [] => 0x00
    | _ => 0x80
  | .TFTC => tftc
  | .RISRl => match c.stack with
    | x :: _ => x.risr
    | [] => 0x00
  | .RFOC => match c.stack with
    | x :: _ => UInt8.ofNat (min (c.fifo x.chan).length 31)
    | [] => 0x00
  | .RDR => match c.stack with
    | x :: _ => (c.fifo x.chan).headD 0x00
    | [] => 0x00
  | _ => 0x00

/-- the chip after that read -/
def after (c : Chip) : Reg → Chip
  | .RFOC => match c.stack with
    | x :: rest => { c with
        stack := { x with latched := some (min (c.fifo x.chan).length 31), took := 0 } :: rest }
    | [] => c
  | .RDR => match c.stack with
    | x :: rest =>
      if x.kind = .rx then
        match c.fifo x.chan with
        | b :: q => { c with
            stack := { x with took := x.took + 1 } :: rest
            fifo := Function.update c.fifo x.chan q
            popped := Function.update c.popped x.chan (c.popped x.chan ++ [⟨x.bad, b⟩]) }
        | [] => c
      else c
    | [] => c
  | _ => c

theorem read_value (c : Chip) (tftc : UInt8) (reg : Reg) :
    c.read reg (c.value tftc reg) (c.after reg) := by
  cases reg
  case TIR => exact ⟨rfl, irValue_shows c .tx⟩
  case RIR => exact ⟨rfl, irValue_shows c .rx⟩
  case STK =>
    refine ⟨rfl, fun h => ?_⟩
    unfold value
    cases hs : c.stack with
    | nil => exact absurd hs h
    | cons x rest => exact (by decide : (0x80 : UInt8) &&& 0x81 ≠ 0)
  case RISRl =>
    refine ⟨rfl, fun x rest hs _ => ?_⟩
    simp only [value, hs]
  case RFOC =>
    have e : ∀ n : Nat, (UInt8.ofNat (min n 31) &&& 0x1f).toNat = min n 31 := by
      intro n
      have h : ∀ m : Fin 32, (UInt8.ofNat m.val &&& 0x1f).toNat = m.val := by decide
      exact h ⟨min n 31, by omega⟩
    unfold read value after
    cases hs : c.stack with
    | nil => rfl
    | cons x rest =>
      simp only [e]
      exact ⟨fun _ => Nat.min_le_left _ _, trivial⟩
  case RDR =>
    unfold read value after
    cases hs : c.stack with
    | nil => rfl
    | cons x rest =>
      simp only
      split
      · cases hf : c.fifo x.chan with
        | nil => simp
        | cons b q => simp
      · rfl
  all_goals rfl

/-- the request that wins at the common address, lowest channel first -/
def winner (c : Chip) : Option (Kind × Fin 4) :=
  match (List.finRange 4).find? fun x => c.req .rx x with
  | some x => some (.rx, x)
  | none => ((List.finRange 4).find? fun x => c.req .tx x).map fun x => (.tx, x)

theorem winner_wins {c : Chip} {k : Kind} {x : Fin 4} (addr : Nat)
    (h : c.winner = some (k, x)) : c.Wins addr k x := by
  unfold winner at h
  cases hr : (List.finRange 4).find? fun x => c.req .rx x with
  | some y =>
    rw [hr] at h
    cases h
    exact ⟨List.find?_some hr, fun _ hk => absurd hk (by decide)⟩
  | none =>
    rw [hr] at h
    obtain ⟨y, hy, he⟩ := Option.map_eq_some_iff.mp h
    cases he
    refine ⟨List.find?_some hy, fun _ _ z => ?_⟩
    simpa using List.find?_eq_none.mp hr z (List.mem_finRange z)

end Chip

/-- the choices of one scripted run -/
structure Script (c : Cfg) where
  /-- what happens before the `n`-th operation -/
  inter : Nat → World → World
  /-- the chip the FPGA grants -/
  grants : World → Option (Fin 8)
  /-- whether a receive service is good data, and its `RISRl` if it is not -/
  good : Bool
  risr : UInt8
  /-- the free transmit slots -/
  tftc : UInt8
  /-- states the script covers -/
  ok : World → Bool
  rely : ∀ n w, ok w = true → c.rely w (inter n w)
  pick : ∀ w j, grants w = some j → c.pick w j
  eoirs : 1 ≤ c.eoirs

/-- a card that closes a context after 100 EOIR writes at most closes it at all -/
theorem one_le_hundred : 1 ≤ 100 := by decide

/-- the FPGA grants the chip being serviced -/
theorem picks_serving {w : World} {j : Fin 8} (h : some w.serving = some j) : j = w.serving :=
  (Option.some.inj h).symm

namespace Script
variable {c : Cfg} (S : Script c)

def ackAct (w : World) : Option World :=
  match S.grants w with
  | none => none
  | some j =>
    match (w.hw j).winner with
    | none => none
    | some (k, x) =>
      some { w.setChip j ((w.hw j).grant ⟨k, x, 1, S.good, S.risr, none, 0⟩) with
        granted := some (j, k, x) }

theorem ackAct_ack {w w' : World} (addr : Nat) (h : S.ackAct w = some w') : c.Ack addr w w' := by
  unfold ackAct at h
  cases hj : S.grants w with
  | none =>
    rw [hj] at h
    cases h
  | some j =>
    cases hx : (w.hw j).winner with
    | none =>
      simp only [hj, hx] at h
      cases h
    | some kx =>
      obtain ⟨k, x⟩ := kx
      simp only [hj, hx] at h
      cases h
      exact .grant j ⟨k, x, 1, S.good, S.risr, none, 0⟩ (S.pick w j hj)
        (Chip.winner_wins addr hx) ⟨le_refl _, S.eoirs⟩ ⟨rfl, rfl⟩

/-- one operation; `none` where the script gives no answer -/
def opAct (w : World) : (o : Op) → Option (Res o × World)
  | .crd j reg => some ((w.hw j).value S.tftc reg,
      { w.setChip j ((w.hw j).after reg) with serving := j })
  | .cwr j reg v => some ((), w.setChip j ((w.hw j).write reg v))
  | .readb _ => (S.ackAct w).map fun w' => ((0x00 : UInt8), w')
  | .lock => some ((), { w with held := true })
  | .unlock => some ((), { w with held := false })
  | .spinLock i => some ((), w.setLine i { w.line i with locked := true })
  | .spinUnlock i => some ((), w.setLine i { w.line i with locked := false })
  | .port i => some ((w.line i).np, w)
  | .setPort i f => some ((), w.setLine i (w.assign i f))
  | .params => some (w.par, w)
  | .traceDec => some ((), { w with par := { w.par with trace := w.par.trace - 1 } })
  | .jiffies => some (w.jif, w)
  | .ratelimit => some (false, w)
  | .flip i bs => some ((), w.setLine i { w.line i with tty := (w.line i).tty ++ bs })
  | .shouldStop => some (false, w)
  | .hang => none

theorem opAct_access {w w' : World} {o : Op} {r : Res o} (h : S.opAct w o = some (r, w')) :
    c.access w o r w' := by
  cases o with
  | crd j reg =>
    cases h
    exact ⟨_, Chip.read_value _ _ _, rfl⟩
  | readb addr =>
    obtain ⟨w1, h1, he⟩ := Option.map_eq_some_iff.mp h
    cases he
    exact S.ackAct_ack addr h1
  | port i =>
    cases h
    exact ⟨rfl, rfl⟩
  | params =>
    cases h
    exact ⟨rfl, rfl⟩
  | jiffies =>
    cases h
    exact ⟨rfl, rfl⟩
  | hang => cases h
  | _ =>
    cases h
    rfl

def policy : Policy c.card where
  act n w o :=
    if S.ok w then (S.opAct (S.inter n w) o).map fun t => (S.inter n w, t.1, t.2) else none
  sound n w o w1 r w2 h := by
    by_cases hok : S.ok w = true
    · rw [if_pos hok] at h
      obtain ⟨t, ht, he⟩ := Option.map_eq_some_iff.mp h
      cases he
      exact ⟨S.rely n w hok, S.opAct_access ht⟩
    · rw [if_neg hok] at h
      cases h

end Script

/-- a card whose registers show a state that only an acknowledge changes, with open ports and
nothing queued -/
def showing {σ : Type} (reg : σ → Reg → UInt8) (ack : σ → σ) (par : Params) (s : σ) :
    (o : Op) → Option (Res o × σ)
  | .crd _ r => some (reg s r, s)
  | .readb _ => some ((0x00 : UInt8), ack s)
  | .port _ => some (⟨true, fun _ => 0x00, 0, 0, 0, 0, false⟩, s)
  | .params => some (par, s)
  | .jiffies => some ((0 : UInt32), s)
  | .ratelimit => some (false, s)
  | .shouldStop => some (false, s)
  | .hang => none
  | .cwr _ _ _ => some ((), s)
  | .lock => some ((), s)
  | .unlock => some ((), s)
  | .spinLock _ => some ((), s)
  | .spinUnlock _ => some ((), s)
  | .setPort _ _ => some ((), s)
  | .traceDec => some ((), s)
  | .flip _ _ => some ((), s)

/-! ## a card to start from -/

def idleChip : Chip where
  req _ _ := false
  stack := []
  car := 0
  ier _ := 0x00
  cor2 _ := 0x00
  fifo _ := []
  popped _ := []
  sent _ := []

def idlePort : Port where
  opened := true
  tx _ := 0x00
  head := 0
  tail := 0
  errWin := 0
  errCnt := 0
  rxOff := false

/-- a card at rest: every port open, nothing queued, no request -/
def idleWorld : World where
  hw _ := idleChip
  line _ := ⟨idlePort, false, [], [], 0⟩
  par := Params.default
  jif := 0
  held := false
  serving := 0
  granted := none

end Nm32a
