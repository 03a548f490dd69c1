import Relicnos.Interact.Policy
import Relicnos.Nm32a.Probe
import Relicnos.Nm32a.Script

/-!
# What a successful open says about the chip

`nm32a_port_activate` refuses the open if `GFRCR` reads 0xE0.  Of the other three signs of a chip
that is not running, the two timeouts of `ccr_wait` are dropped by `nm32a_chan_init`, and the
verdict of `nm32a_download` is only printed by the probe.

* `accepted`            a channel command whose `CCR` was seen to clear, on the events of a run;
* `activate_result`     the result of the open depends on the first `GFRCR` read alone;
* `activate_honest_iff` so the result is true exactly if that read is 0xE0 or the chip runs.

The environment is any: registers may read anything at any time.
-/

set_option linter.unusedVariables false

namespace Nm32a
open Interact

section
variable {σ : Type}

/-- command `v` of chip `j` is accepted: `CCR` reads 0 after it was written, and before another
command is; `waiting` says that it was the last one written -/
def accepted (j : Fin 8) (v : UInt8) : Bool → List (Event Op Res σ) → Bool
  | _, [] => false
  | waiting, ⟨_, .cwr j' .CCR x, _, _⟩ :: tr =>
    accepted j v (if j' = j then x = v else waiting) tr
  | waiting, ⟨_, .crd j' .CCR, x, _⟩ :: tr =>
    (waiting && j' = j && (show UInt8 from x) = 0) || accepted j v waiting tr
  | waiting, _ :: tr => accepted j v waiting tr

/-- the first `GFRCR` read of chip `j` -/
def firstRevision (j : Fin 8) : List (Event Op Res σ) → Option UInt8
  | [] => none
  | ⟨_, .crd j' .GFRCR, x, _⟩ :: tr => if j' = j then some x else firstRevision j tr
  | _ :: tr => firstRevision j tr

/-- both channel commands were accepted, and the download at probe had succeeded -/
structure Running (i : Fin 32) (verdict : Int) (tr : List (Event Op Res σ)) : Prop where
  initch : accepted (chipOf i) ccrInitch false tr = true
  enable : accepted (chipOf i) (ccrEntx ||| ccrEnrx) false tr = true
  download : verdict = 0

/-- no field of a port is assigned to -/
def Untouched (tr : List (Event Op Res σ)) : Prop := ∀ e ∈ tr, ∀ k f, e.op ≠ .setPort k f

/-- success only on a running chip, and otherwise an error that leaves the port alone -/
structure HonestOpen (i : Fin 32) (verdict : Int) (tr : List (Event Op Res σ)) (rc : Int) :
    Prop where
  success : rc = 0 → Running i verdict tr
  failure : ¬Running i verdict tr → rc < 0 ∧ Untouched tr

variable {E : Env Op Res σ} {s s' : σ} {tr : List (Event Op Res σ)}

/-! ## the open -/

theorem activateRest_result (i : Fin 32) {rc : Int} (h : Runs E (activateRest i) s tr rc s') :
    rc = 0 := by
  obtain ⟨_, _, _, _, _, _, _, h1⟩ := runs_op.mp h
  obtain ⟨_, _, _, _, _, _, _, h2⟩ := runs_op.mp h1
  obtain ⟨_, _, _, _, _, _, _, h3⟩ := runs_op.mp h2
  obtain ⟨_, _, _, _, _, _, _, h4⟩ := runs_op.mp h3
  obtain ⟨_, _, _, _, _, _, _, h5⟩ := runs_op.mp h4
  obtain ⟨_, _, _, _, _, _, _, h6⟩ := runs_op.mp h5
  obtain ⟨_, _, _, _, _, _, _, h7⟩ := runs_op.mp h6
  obtain ⟨_, _, _, _, _, _, _, h8⟩ := runs_op.mp h7
  exact (runs_ret.mp h8).2.1.symm

theorem firstRevision_locked (j : Fin 8) (s1 s2 s3 s4 : σ) (u : Res .lock)
    (x : Res (.crd j .GFRCR)) :
    firstRevision j (⟨s1, .lock, u, s2⟩ :: ⟨s3, .crd j .GFRCR, x, s4⟩ :: tr) =
      some (show UInt8 from x) := by
  show (if j = j then some (show UInt8 from x) else firstRevision j tr) = _
  exact if_pos rfl

/-- **The result of an open**: the first `GFRCR` read decides it. -/
theorem activate_result (turns : Nat) (i : Fin 32) (rate : Nat) {rc : Int}
    (h : Runs E (nm32aPortActivate turns i rate) s tr rc s') :
    (firstRevision (chipOf i) tr = some 0xE0 ∧ rc = -enodev ∧ Untouched tr) ∨
      (firstRevision (chipOf i) tr ≠ some 0xE0 ∧ rc = 0) := by
  rw [nm32aPortActivate_eq] at h
  obtain ⟨s1, u, s2, tr1, rfl, _, _, h1⟩ := runs_op.mp h
  obtain ⟨s3, x, s4, tr2, rfl, _, _, h2⟩ := runs_op.mp h1
  have hrev : firstRevision (chipOf i)
      (⟨s1, .lock, u, s2⟩ :: ⟨s3, .crd (chipOf i) .GFRCR, x, s4⟩ :: tr2) =
        some (show UInt8 from x) := firstRevision_locked (chipOf i) s1 s2 s3 s4 u x
  have h3 : Runs E (if (show UInt8 from x) = 0xE0 then hwUnlock >>= fun _ => pure (-enodev) else
      nm32aChanInit turns (chipOf i) (chanIx i) (if rate ≠ 0 then rate else 9600) >>= fun _ =>
        activateRest i) s4 tr2 rc s' := h2
  by_cases hx : (show UInt8 from x) = 0xE0
  · left
    rw [if_pos hx] at h3
    obtain ⟨s5, _, s6, tr3, rfl, _, _, h4⟩ := runs_op.mp h3
    obtain ⟨rfl, h5, _⟩ := runs_ret.mp h4
    refine ⟨hrev.trans (congrArg some hx), h5.symm, ?_⟩
    intro e he k f ho
    simp only [List.mem_cons, List.not_mem_nil, or_false] at he
    obtain rfl | rfl | rfl := he
    · cases ho
    · cases ho
    · cases ho
  · right
    rw [if_neg hx] at h3
    obtain ⟨_, _, _, _, _, _, h4⟩ := runs_bind.mp h3
    exact ⟨fun e => hx (Option.some.inj (hrev.symm.trans e)), activateRest_result i h4⟩

/-- **An open is honest** exactly if it is refused for `GFRCR` or finds a running chip. -/
theorem activate_honest_iff (u : Ucode) (turns turns' : Nat) (i : Fin 32) (rate : Nat)
    {s0 s1 : σ} {tr0 : List (Event Op Res σ)} {verdict rc : Int}
    (h0 : Runs E (nm32aDownload u turns (chipOf i)) s0 tr0 verdict s1)
    (h : Runs E (nm32aPortActivate turns' i rate) s tr rc s') :
    HonestOpen i verdict tr rc ↔
      firstRevision (chipOf i) tr = some 0xE0 ∨ Running i verdict tr := by
  obtain ⟨hrev, rfl, hun⟩ | ⟨hrev, rfl⟩ := activate_result turns' i rate h
  · constructor
    · intro _
      exact .inl hrev
    · intro _
      exact ⟨fun hz => absurd hz (by decide), fun _ => ⟨by decide, hun⟩⟩
  · constructor
    · intro ho
      exact .inr (ho.success rfl)
    · intro hr
      obtain hr | hr := hr
      · exact absurd hr hrev
      · exact ⟨fun _ => hr, fun hn => absurd hr hn⟩

end

/-! ## a chip that accepts commands, and one that stopped -/

/-- the clock in turns of the wait, and what `CCR` was last written with -/
structure Bench where
  ticks : Nat
  ccr : UInt8

/-- a chip with firmware revision 0x21; a stopped one leaves the command in `CCR` -/
def bench (stopped : Bool) (b : Bench) : (o : Op) → Option (Res o × Bench)
  | .jiffies => some (UInt32.ofNat (40 * b.ticks), { b with ticks := b.ticks + 1 })
  | .cwr _ .CCR v => some ((), { b with ccr := v })
  | .crd _ .CCR => some (show UInt8 from if stopped then b.ccr else 0x00, b)
  | o => showing (fun _ r => if r = .GFRCR then 0x21 else 0x00) id Params.default b o

def bareUcode : Ucode := ⟨[], 0⟩

/-- the download of chip 0 on the bench -/
def benchDownload (stopped : Bool) :=
  (Policy.machine (bench stopped)).play 0 (nm32aDownload bareUcode 2 (chipOf 0)) ⟨0, 0x00⟩

theorem activate_honest_running :
    ∃ tr0 s1 tr s2, Runs (Env.machine (bench false)) (nm32aDownload bareUcode 2 (chipOf 0))
        ⟨0, 0x00⟩ tr0 0 s1 ∧
      Runs (Env.machine (bench false)) (nm32aPortActivate 2 0 9600) s1 tr 0 s2 ∧
      HonestOpen 0 0 tr 0 := by
  have h0 := (Policy.machine (bench false)).play_runs 0
    (nm32aDownload bareUcode 2 (chipOf 0)) ⟨0, 0x00⟩ (a := 0) (by decide +kernel)
  have h1 := (Policy.machine (bench false)).play_runs 0
    (nm32aPortActivate 2 0 9600) (benchDownload false).2.1 (a := 0) (by decide +kernel)
  refine ⟨_, _, _, _, h0, h1, ?_⟩
  apply (activate_honest_iff bareUcode 2 2 0 9600 h0 h1).mpr
  right
  exact ⟨by decide +kernel, by decide +kernel, rfl⟩

/-- the download fails, and no channel command is accepted; the open returns 0 -/
theorem activate_honest_fails :
    ∃ tr0 s1 tr s2, Runs (Env.machine (bench true)) (nm32aDownload bareUcode 2 (chipOf 0))
        ⟨0, 0x00⟩ tr0 (-eio) s1 ∧
      Runs (Env.machine (bench true)) (nm32aPortActivate 2 0 9600) s1 tr 0 s2 ∧
      ¬HonestOpen 0 (-eio) tr 0 := by
  have h0 := (Policy.machine (bench true)).play_runs 0
    (nm32aDownload bareUcode 2 (chipOf 0)) ⟨0, 0x00⟩ (a := -eio) (by decide +kernel)
  have h1 := (Policy.machine (bench true)).play_runs 0
    (nm32aPortActivate 2 0 9600) (benchDownload true).2.1 (a := 0) (by decide +kernel)
  refine ⟨_, _, _, _, h0, h1, ?_⟩
  intro ho
  have hr := (ho.success rfl).initch
  exact absurd hr (by decide +kernel)

end Nm32a
