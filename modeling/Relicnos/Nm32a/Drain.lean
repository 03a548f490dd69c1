import Relicnos.Interact.Possible
import Relicnos.Nm32a.Tty

/-!
# A ring can be drained

While the channel of a port asks for data, a pass of the service routine can move sixteen bytes
of its ring to the chip, and so enough passes can empty it (`can_drain`).  `calmCard` is a card
where nothing happens to the ports in between.
-/

set_option linter.unusedVariables false

namespace Nm32a
open Interact

def calmCard : Cfg := { tendedCard with line := fun l l' => l' = l }

/-- what a transmit service of port `i` depends on -/
structure Drainable (i : Fin 32) (np : Port) (locked : Bool) (st : List Ctx) (w : World) :
    Prop where
  par : w.par = Params.default
  serving : w.serving = chipOf i
  np : (w.line i).np = np
  locked : (w.line i).locked = locked
  stack : (w.hw (chipOf i)).stack = st

variable {α : Type} {i : Fin 32} {np : Port} {l : Bool} {st : List Ctx} {w : World}
  {Q : α → World → Prop}

theorem calm_asks (h : w.par = Params.default) : calmCard.rely w (asks i w) := by
  have hr : calmCard.Ready w := by
    refine ⟨?_, fun _ _ _ _ => trivial⟩
    show w.par.eoiretry ≠ 0
    rw [h]
    decide
  exact asks_rely trivial (hr.rely_refl fun _ => rfl)

theorem asks_chip : (asks i w).hw (chipOf i)
    = { w.hw (chipOf i) with req := fun k x => k = .tx && x = chanIx i } := by
  unfold asks World.setChip
  simp only [Function.update_self]

theorem Drainable.asks (h : Drainable i np l st w) : Drainable i np l st (asks i w) := by
  refine ⟨h.par, h.serving, h.np, h.locked, ?_⟩
  rw [asks_chip]
  exact h.stack

/-- the chip of port `i` with the same contexts open -/
theorem Drainable.setChip {c : Chip} {t : List Ctx} (h : Drainable i np l st w)
    (hs : c.stack = t) : Drainable i np l t (w.setChip (chipOf i) c) := by
  refine ⟨h.par, h.serving, h.np, h.locked, ?_⟩
  unfold World.setChip
  simp only [Function.update_self]
  exact hs

/-- the port itself -/
theorem Drainable.setLine {n : Line} {p : Port} {b : Bool} (h : Drainable i np l st w)
    (hnp : n.np = p) (hb : n.locked = b) : Drainable i p b st (w.setLine i n) := by
  refine ⟨h.par, h.serving, ?_, ?_, h.stack⟩ <;>
    (unfold World.setLine; simp only [Function.update_self]; assumption)

/-! ## one operation -/

/-- the channel asks, and the operation is performed -/
theorem can_issue {o : Op} {f : Res o → Drv α} {w2 : World} (r : Res o)
    (h : Drainable i np l st w) (ha : calmCard.access (asks i w) o r w2)
    (hk : Can calmCard.card (f r) Q w2) : Can calmCard.card (issue o >>= f) Q w :=
  can_op (asks i w) r w2 (calm_asks h.par) ha hk

theorem can_params {f : Params → Drv α} (h : Drainable i np l st w)
    (hk : ∀ w2, Drainable i np l st w2 → Can calmCard.card (f Params.default) Q w2) :
    Can calmCard.card (params >>= f) Q w := by
  refine can_issue (o := .params) Params.default h ⟨h.par.symm, rfl⟩ ?_
  exact hk _ h.asks

theorem can_read {reg : Reg} {f : UInt8 → Drv α} (v : UInt8) (h : Drainable i np l st w)
    (hv : ∀ c : Chip, c.stack = st → (c.req = fun k x => k = .tx && x = chanIx i) → c.read reg v c)
    (hk : ∀ w2, Drainable i np l st w2 → Can calmCard.card (f v) Q w2) :
    Can calmCard.card (crd (chipOf i) reg >>= f) Q w := by
  have hread := hv ((asks i w).hw (chipOf i)) h.asks.stack (by rw [asks_chip])
  refine can_issue (o := .crd (chipOf i) reg) v h ⟨_, hread, rfl⟩ ?_
  have h2 := h.asks.setChip (c := (asks i w).hw (chipOf i)) h.asks.stack
  exact hk _ ⟨h2.par, rfl, h2.np, h2.locked, h2.stack⟩

theorem can_port {f : Port → Drv α} (h : Drainable i np l st w)
    (hk : ∀ w2, Drainable i np l st w2 → Can calmCard.card (f np) Q w2) :
    Can calmCard.card (portAt i >>= f) Q w := by
  refine can_issue (o := .port i) np h ⟨h.asks.np.symm, rfl⟩ ?_
  exact hk _ h.asks

theorem can_write {reg : Reg} {v : UInt8} {f : Unit → Drv α} {t : List Ctx}
    (h : Drainable i np l st w) (hv : ∀ c : Chip, c.stack = st → (c.write reg v).stack = t)
    (hk : ∀ w2, Drainable i np l t w2 → Can calmCard.card (f ()) Q w2) :
    Can calmCard.card (cwr (chipOf i) reg v >>= f) Q w := by
  refine can_issue (o := .cwr (chipOf i) reg v) () h rfl ?_
  exact hk _ (h.asks.setChip (hv _ h.asks.stack))

theorem can_hwLock {f : Unit → Drv α} (h : Drainable i np l st w)
    (hk : ∀ w2, Drainable i np l st w2 → Can calmCard.card (f ()) Q w2) :
    Can calmCard.card (hwLock >>= f) Q w := by
  refine can_issue (o := .lock) () h rfl ?_
  exact hk _ ⟨h.par, h.serving, h.np, h.locked, h.asks.stack⟩

theorem can_hwUnlock {f : Unit → Drv α} (h : Drainable i np l st w)
    (hk : ∀ w2, Drainable i np l st w2 → Can calmCard.card (f ()) Q w2) :
    Can calmCard.card (hwUnlock >>= f) Q w := by
  refine can_issue (o := .unlock) () h rfl ?_
  exact hk _ ⟨h.par, h.serving, h.np, h.locked, h.asks.stack⟩

theorem can_spinLock {f : Unit → Drv α} (h : Drainable i np l st w)
    (hk : ∀ w2, Drainable i np true st w2 → Can calmCard.card (f ()) Q w2) :
    Can calmCard.card (spinLock i >>= f) Q w := by
  refine can_issue (o := .spinLock i) () h rfl ?_
  exact hk _ (h.asks.setLine h.asks.np rfl)

theorem can_spinUnlock {f : Unit → Drv α} (h : Drainable i np l st w)
    (hk : ∀ w2, Drainable i np false st w2 → Can calmCard.card (f ()) Q w2) :
    Can calmCard.card (spinUnlock i >>= f) Q w := by
  refine can_issue (o := .spinUnlock i) () h rfl ?_
  exact hk _ (h.asks.setLine h.asks.np rfl)

/-! ## the pass -/

/-- the context of a transmit service of port `i`, which one EOIR closes -/
def txCtx (i : Fin 32) : Ctx where
  kind := .tx
  chan := chanIx i
  left := 1
  good := false
  risr := 0x00
  latched := none
  took := 0

/-- the acknowledge grants the channel -/
theorem can_ack {f : UInt8 → Drv α} (h : Drainable i np l [] w)
    (hk : ∀ w2, Drainable i np l [txCtx i] w2 → Can calmCard.card (f 0x00) Q w2) :
    Can calmCard.card (rawReadb 0 >>= f) Q w := by
  have hreq : ((asks i w).hw (chipOf i)).req = fun k x => k = .tx && x = chanIx i := by
    rw [asks_chip]
  have hwins : ((asks i w).hw (chipOf i)).Wins 0 .tx (chanIx i) := by
    unfold Chip.Wins
    rw [hreq]
    exact ⟨by simp, fun _ _ y => by simp⟩
  refine can_issue (o := .readb 0) (0x00 : UInt8) h
    (Cfg.Ack.grant (chipOf i) (txCtx i) h.asks.serving.symm hwins
      ⟨Nat.le_refl _, (by decide : 1 ≤ 100)⟩ ⟨rfl, rfl⟩) ?_
  have hstack : (((asks i w).hw (chipOf i)).grant (txCtx i)).stack = [txCtx i] := by
    show txCtx i :: ((asks i w).hw (chipOf i)).stack = _
    rw [h.asks.stack]
  have h2 := h.asks.setChip hstack
  exact hk _ ⟨h2.par, h2.serving, h2.np, h2.locked, h2.stack⟩

/-- what `TIR` shows of that context -/
def txShown (i : Fin 32) : UInt8 := 0x40 ||| UInt8.ofNat (chanIx i).val

theorem txShown_chan (i : Fin 32) :
    txShown i &&& 0xC0 = 0x40 ∧ chanOf (txShown i) = chanIx i := by
  have h : ∀ x : Fin 4, (0x40 ||| UInt8.ofNat x.val) &&& 0xC0 = 0x40 ∧
      chanOf (0x40 ||| UInt8.ofNat x.val) = x := by decide
  exact h (chanIx i)

theorem grantDecision_txShown (i : Fin 32) (tir0 : UInt8) :
    grantDecision false tir0 (txShown i) 0x00 = some ⟨false, txShown i, 0x00⟩ := by
  unfold grantDecision
  simp only [(txShown_chan i).1]
  rfl

/-- a transmit request shows in `TIR`, and nothing in `RIR` -/
theorem asking_shows {c : Chip} {x : Fin 4} (hs : c.stack = [])
    (hq : c.req = fun k y => k = .tx && y = x) :
    c.read .TIR 0xC0 c ∧ c.read .RIR 0x00 c := by
  constructor
  · refine ⟨rfl, ?_⟩
    unfold Chip.irShows Chip.openOf
    rw [hs, hq]
    show if ∃ y, _ then _ else _
    rw [if_pos ⟨x, by simp⟩]
    decide
  · refine ⟨rfl, ?_⟩
    unfold Chip.irShows Chip.openOf
    rw [hs, hq]
    show if ∃ y, _ then _ else _
    rw [if_neg (by simp)]
    decide

/-- and once it is granted -/
theorem granted_shows {c : Chip} (hs : c.stack = [txCtx i])
    (hq : c.req = fun k y => k = .tx && y = chanIx i) :
    c.read .TIR (txShown i) c ∧ c.read .RIR 0x00 c := by
  constructor
  · refine ⟨rfl, ?_⟩
    unfold Chip.irShows Chip.openOf
    rw [hs]
    refine ⟨(txShown_chan i).1, (txShown_chan i).2, ?_⟩
    intro e
    cases e
  · refine ⟨rfl, ?_⟩
    unfold Chip.irShows Chip.openOf
    rw [hs, hq]
    show if ∃ y, _ then _ else _
    rw [if_neg (by simp)]
    decide

theorem can_serviceGrant (h : Drainable i np l [] w) :
    Can calmCard.card (serviceGrant (chipOf i)) (fun g w' =>
      g = some ⟨false, txShown i, 0x00⟩ ∧ Drainable i np l [txCtx i] w') w := by
  unfold serviceGrant
  refine can_hwLock h fun w1 h1 => ?_
  refine can_read 0xC0 h1 (fun c hs hq => (asking_shows hs hq).1) fun w2 h2 => ?_
  refine can_read 0x00 h2 (fun c hs hq => (asking_shows hs hq).2) fun w3 h3 => ?_
  unfold serviceTrace
  simp only [bind_assoc]
  refine can_params h3 fun w4 h4 => ?_
  refine can_read 0xC0 h4 (fun c hs hq => (asking_shows hs hq).1) fun w5 h5 => ?_
  refine can_read 0x00 h5 (fun c hs hq => (asking_shows hs hq).2) fun w6 h6 => ?_
  unfold ackAddr
  refine can_params h6 fun w7 h7 => ?_
  refine can_ack h7 fun w8 h8 => ?_
  refine can_read (txShown i) h8 (fun c hs hq => (granted_shows hs hq).1) fun w9 h9 => ?_
  refine can_read 0x00 h9 (fun c hs hq => (granted_shows hs hq).2) fun w10 h10 => ?_
  rw [grantDecision_txShown]
  exact can_ret ⟨rfl, h10⟩

/-- the ring without its oldest bytes -/
theorem can_txLoop (n : Nat) (h : Drainable i np true [txCtx i] w) (hw : np.Wf) :
    Can calmCard.card (txLoop (chipOf i) i n) (fun _ w' => ∃ np', np'.Wf ∧
      np'.queue = np.queue.drop n ∧ Drainable i np' true [txCtx i] w') w := by
  induction n generalizing np w with
  | zero => exact can_ret ⟨np, hw, rfl, h⟩
  | succ n ih =>
    unfold txLoop
    refine can_port h fun w1 h1 => ?_
    by_cases he : np.head = np.tail
    · rw [if_pos he]
      have hq : np.queue = [] := (RingBuf.queue_nil hw).mpr he
      refine can_ret ⟨np, hw, ?_, h1⟩
      rw [hq, List.drop_nil]
    · rw [if_neg he]
      refine can_write h1 (fun c hs => (write_stack c .TDR _ ⟨by decide, by decide⟩).trans hs) ?_
      intro w2 h2
      have hpop : RingBuf.Wf txbuf (np.ring.pop txbuf) := RingBuf.Wf.pop hw
      have hq : np.queue = np.tx np.tail :: (np.ring.pop txbuf).queue txbuf :=
        RingBuf.queue_pop hw he
      have h3 := h2.asks.setLine (n := (asks i w2).assign i (.tail ((np.tail + 1) % txbuf)))
        (p := { np with tail := (np.tail + 1) % txbuf }) (b := true)
        (by rw [← h2.asks.np]; rfl) h2.asks.locked
      refine can_issue (o := .setPort i (.tail ((np.tail + 1) % txbuf))) () h2 rfl ?_
      refine can_bind (can_mono (ih h3 hpop) ?_)
      rintro k w4 ⟨np', hw', hq', h4⟩
      refine can_ret ⟨np', hw', ?_, h4⟩
      rw [hq', hq, List.drop_succ_cons]
      rfl

theorem can_serviceTx (h : Drainable i np l [txCtx i] w) (hw : np.Wf) :
    Can calmCard.card (serviceTx (chipOf i) (chanIx i)) (fun _ w' => ∃ np', np'.Wf ∧
      np'.queue = np.queue.drop 16 ∧ Drainable i np' false [] w') w := by
  unfold serviceTx
  rw [portIx_chipOf]
  refine can_spinLock h fun w1 h1 => ?_
  refine can_read 16 h1 (fun _ _ _ => rfl) fun w2 h2 => ?_
  refine can_bind (can_mono (can_txLoop 16 h2 hw) ?_)
  rintro n w3 ⟨np', hw', hq', h3⟩
  have hidle : ∀ {f : Unit → Drv Unit} {Q : Unit → World → Prop},
      (∀ w4, Drainable i np' true [txCtx i] w4 → Can calmCard.card (f ()) Q w4) →
      Can calmCard.card (txIdle (chipOf i) n >>= f) Q w3 := by
    intro f Q hk
    unfold txIdle
    split
    · exact can_write h3 (fun c hs => (write_stack c .IER _ ⟨by decide, by decide⟩).trans hs) hk
    · exact hk w3 h3
  refine hidle fun w4 h4 => ?_
  unfold nm32aEoi
  simp only [bind_assoc]
  refine can_write (t := []) h4 (fun c hs => ?_) fun w5 h5 => ?_
  · show (c.eoir .tx).stack = []
    unfold Chip.eoir
    rw [hs]
    rfl
  refine can_params h5 fun w6 h6 => ?_
  rw [if_neg (by decide)]
  unfold eoiLoop
  simp only [bind_assoc]
  refine can_read 0x00 h6 (fun c hs _ => ⟨rfl, fun hne => absurd hs hne⟩) fun w7 h7 => ?_
  rw [if_pos (by decide)]
  refine can_spinUnlock h7 fun w8 h8 => ?_
  refine can_hwUnlock h8 fun w9 h9 => ?_
  exact can_ret ⟨np', hw', hq', h9⟩

/-- **A pass can take sixteen bytes.** -/
theorem can_service (h : Drainable i np l [] w) (hw : np.Wf) :
    Can calmCard.card (Call.service (chipOf i)).prog (fun _ w' => ∃ np', np'.Wf ∧
      np'.queue = np.queue.drop 16 ∧ Drainable i np' false [] w') w := by
  show Can _ (nm32aService (chipOf i) >>= fun _ => pure ()) _ w
  unfold nm32aService
  simp only [bind_assoc]
  refine can_bind (can_mono (can_serviceGrant h) ?_)
  rintro g w1 ⟨rfl, h1⟩
  show Can _ ((serviceGranted (chipOf i) _ >>= fun _ => pure true) >>= fun _ => pure ()) _ w1
  unfold serviceGranted
  rw [if_neg (not_not.mpr rfl), (txShown_chan i).2]
  refine can_bind (can_bind (can_mono (can_serviceTx h1 hw) ?_))
  intro _ w2 h2
  exact can_ret (can_ret h2)

/-- **Enough passes can empty the ring.** -/
theorem can_drain (n : Nat) (h : Drainable i np l [] w) (hw : np.Wf)
    (hn : np.queue.length ≤ 16 * n) :
    Can calmCard.card (callsProg (List.replicate n (.service (chipOf i)))) (fun _ w' =>
      (w'.line i).np.queue = []) w := by
  induction n generalizing np w l with
  | zero =>
    have hq : np.queue = [] := List.length_eq_zero_iff.mp (by omega)
    refine can_ret ?_
    rw [h.np]
    exact hq
  | succ n ih =>
    rw [List.replicate_succ]
    refine can_bind (can_mono (can_service h hw) ?_)
    rintro _ w1 ⟨np', hw', hq', h1⟩
    apply ih h1 hw'
    rw [hq', List.length_drop]
    omega

end Nm32a
