import Relicnos.Nm32a.Breaks

/-!
# The last close of a port

The tty layer's close waits until `chars_in_buffer` reports zero and then calls the port's
shutdown.  `nm32a_tty_ops` has no such callback, which the tty layer takes for zero, so the
shutdown follows at once and finds in the ring what the poll thread has not sent yet.

* `ttyClose`             the close, for any table of callbacks;
* `close_sends_iff`      everything accepted has been sent when `IER` is cleared exactly if the
                         ring is empty then.
-/

set_option linter.unusedVariables false

namespace Nm32a
open Interact

/-- the callbacks of `struct tty_operations` for the output of a port -/
structure TtyOps where
  write : Option Port → List UInt8 → Option Port × Int
  writeRoom : Option Port → Nat
  breakCtl : Option Port → Int → Option Port × Int
  charsInBuffer : Option (Port → Nat)

def nm32aTtyOps : TtyOps where
  write := nm32aTtyWrite
  writeRoom := nm32aTtyWriteRoom
  breakCtl := nm32aBreakCtl
  charsInBuffer := none

/-- the wait of the close; a missing callback counts as zero -/
def waitUntilSent (ops : TtyOps) (i : Fin 32) : Nat → Drv Unit
  | 0 => hang
  | n + 1 =>
    match ops.charsInBuffer with
    | none => pure ()
    | some chars => do
      if chars (← portAt i) = 0 then
        pure ()
      else
        waitUntilSent ops i n

def ttyClose (ops : TtyOps) (turns : Nat) (i : Fin 32) : Drv Unit := do
  waitUntilSent ops i turns
  nm32aPortShutdown i

/-- every byte that the producers of port `i` were told is taken has been sent -/
def AllSent (i : Fin 32) (w : World) : Prop := sentSince i w = tokenBytes (w.line i).tokens

variable {c : Cfg} {i : Fin 32} {w : World}

theorem Settled.allSent_iff (h : Settled i w) : AllSent i w ↔ (w.line i).np.queue = [] := by
  have hs := h.stream
  constructor
  · intro ha
    rw [← ha] at hs
    exact List.append_right_eq_self.mp hs
  · intro hq
    rw [hq, List.append_nil] at hs
    exact hs

theorem uses_waitUntilSent (ops : TtyOps) (n : Nat) :
    (waitUntilSent ops i n).Uses (Op.Spares i) := by
  induction n with
  | zero => exact ⟨trivial, fun e => nomatch e⟩
  | succ n ih =>
    unfold waitUntilSent
    cases ops.charsInBuffer with
    | none => trivial
    | some chars =>
      refine Prog.Uses.bind (uses_issue trivial) ?_
      intro np
      exact Prog.Uses.ite trivial ih

/-- the transmit side is settled throughout the close, whatever the callbacks -/
theorem wp_close_settled (hc : c.Tended) (ops : TtyOps) (turns : Nat) (h : Settled i w) :
    wp c.card (fun e => Settled i e.pre) (ttyClose ops turns i) (fun _ w' => Settled i w') w := by
  have hk : Keeps c.card (fun e => Settled i e.pre) (Op.Spares i) (Settled i) :=
    fun w o r w' ho hw ha => ⟨hw, (Settled.keeps w o r w' ho hw ha).2⟩
  refine wp_keeps (Settled.stable hc) hk ?_ h
  refine Prog.Uses.bind (uses_waitUntilSent ops turns) ?_
  intro _
  exact uses_shutdown.mono fun _ => Op.Switch.spares

/-- **A close loses nothing exactly if the ring is empty when it clears `IER`.** -/
theorem close_sends_iff (c : Cfg) (hc : c.Tended) (i : Fin 32) (turns rate : Nat)
    (calls : List Call) (hcalls : ∀ call ∈ calls, ¬call.Activates i) (w w1 w2 w3 : World)
    (tr1 tr2 tr3 : List (Event Op Res World)) (n : Nat) (p' : Drv Unit)
    (h1 : Runs c.card (nm32aPortActivate turns i rate) w tr1 0 w1)
    (h2 : Runs c.card (callsProg calls) w1 tr2 () w2)
    (h3 : Exec c.card (ttyClose nm32aTtyOps n i) w2 tr3 w3 p') :
    ∀ e ∈ tr3, e.op = .cwr (chipOf i) .IER 0x00 →
      (AllSent i e.pre ↔ (e.pre.line i).np.queue = []) := by
  have hs1 := (wp_runs (wp_activate_settled hc turns rate) h1).2 rfl
  have hs2 := (wp_runs (wp_calls (fun call hcall w hw =>
    wp_call_settled hc call (hcalls call hcall) hw) hs1) h2).2
  intro e he _
  exact ((wp_exec (wp_close_settled hc nm32aTtyOps n hs2) h3).1 e he).allSent_iff

/-! ## two closes -/

/-- `A` is written, one service sends it, and the port is closed -/
theorem close_sends_written : ∃ w2 w3 tr2 tr3,
    Runs tendedCard.card (callsProg [.service 0]) upWorld tr2 () w2 ∧
      Runs tendedCard.card (ttyClose nm32aTtyOps 1 1) w2 tr3 () w3 ∧
      ∀ e ∈ tr3, e.op = .cwr (chipOf 1) .IER 0x00 → AllSent 1 e.pre := by
  obtain ⟨tr1, h1⟩ := upWorld_runs
  let S := ttyScript 1 fun n => if n = 0 then [.write [0x41]] else []
  have h2 := S.policy.play_runs 0 (callsProg [.service 0]) upWorld (a := ()) (by decide +kernel)
  have h3 := S.policy.play_runs 1 (ttyClose nm32aTtyOps 1 1)
    (S.policy.play 0 (callsProg [.service 0]) upWorld).2.1 (a := ()) (by decide +kernel)
  refine ⟨_, _, _, _, h2, h3, ?_⟩
  intro e he hop
  refine (close_sends_iff tendedCard tendedCard_tended 1 1 9600 [.service 0]
    (by simp [Call.Activates]) _ _ _ _ _ _ _ 1 _ h1 h2 h3 e he hop).mpr ?_
  have hall : ((S.policy.play 1 (ttyClose nm32aTtyOps 1 1)
      (S.policy.play 0 (callsProg [.service 0]) upWorld).2.1).1.all
      fun e => decide ((e.pre.line 1).np.queue = [])) = true := by decide +kernel
  exact of_decide_eq_true (List.all_eq_true.mp hall e he)

/-- the write that ends interest in a channel -/
def clearsIer (i : Fin 32) : Op → Bool
  | .cwr j .IER v => j = chipOf i && v = 0x00
  | _ => false

theorem clearsIer_eq {o : Op} (h : clearsIer i o = true) : o = .cwr (chipOf i) .IER 0x00 := by
  cases o with
  | cwr j reg v =>
    cases reg
    case IER =>
      have hjv : j = chipOf i ∧ v = 0x00 := by simpa [clearsIer] using h
      rw [hjv.1, hjv.2]
    all_goals cases h
  | _ => cases h

/-- `A` is written, and the port is closed before the next service -/
theorem close_sends_fails : ∃ w3 tr3 e,
    Runs tendedCard.card (ttyClose nm32aTtyOps 1 1) upWorld tr3 () w3 ∧ e ∈ tr3 ∧
      e.op = .cwr (chipOf 1) .IER 0x00 ∧ (e.pre.line 1).tokens = [escape 0x41] ∧
      sentSince 1 e.pre = [] ∧ ¬AllSent 1 e.pre := by
  let S := ttyScript 1 fun n => if n = 0 then [.write [0x41]] else []
  have h3 := S.policy.play_runs 0 (ttyClose nm32aTtyOps 1 1) upWorld (a := ()) (by decide +kernel)
  have hany : ((S.policy.play 0 (ttyClose nm32aTtyOps 1 1) upWorld).1.any fun e =>
      clearsIer 1 e.op && decide ((e.pre.line 1).tokens = [escape 0x41] ∧
        sentSince 1 e.pre = [])) = true := by decide +kernel
  obtain ⟨e, he, h⟩ := List.any_eq_true.mp hany
  obtain ⟨hop, hd⟩ := (Bool.and_eq_true _ _).mp h
  obtain ⟨htok, hsent⟩ := of_decide_eq_true hd
  refine ⟨_, _, e, h3, he, clearsIer_eq hop, htok, hsent, ?_⟩
  unfold AllSent
  rw [htok, hsent]
  decide

end Nm32a
