import Relicnos.Nm32a.Levels

/-!
# Is the acknowledged request a confirmed one?

`nm32a_service` takes two samples of `TIR` and `RIR` before it acknowledges, and goes on if each of
them shows a request.  It does not ask whether they show the same one: a request of one type can
vanish between the samples while one of the other type appears.

* `Samples`      what a call has read of the two registers;
* `Samples.Confirmed`  a request of the type was pending in both samples;
* `Samples.Swapped`    the type that is acknowledged only came up after the first sample;
* `service_confirmed_iff`  the acknowledge is for a confirmed request exactly if they did not swap.
-/

set_option linter.unusedVariables false

namespace Nm32a
open Interact

/-- the values of `TIR` and of `RIR`, in the order in which they were read -/
structure Samples where
  tir : List UInt8
  rir : List UInt8

namespace Samples

def none : Samples := ⟨[], []⟩

def see (m : Samples) (k : Kind) (v : UInt8) : Samples :=
  match k with
  | .tx => { m with tir := m.tir ++ [v] }
  | .rx => { m with rir := m.rir ++ [v] }

/-- the readings of chip `j` -/
def after (j : Fin 8) : (o : Op) → Res o → Samples → Samples
  | .crd j' .TIR, v, m => if j' = j then m.see .tx v else m
  | .crd j' .RIR, v, m => if j' = j then m.see .rx v else m
  | _, _, m => m

def of (m : Samples) : Kind → List UInt8
  | .tx => m.tir
  | .rx => m.rir

/-- sample `n` shows a request of type `k` -/
def Pending (m : Samples) (k : Kind) (n : Nat) : Prop :=
  ∃ v, (m.of k)[n]? = some v ∧ v &&& 0x80 ≠ 0

def Confirmed (m : Samples) (k : Kind) : Prop := m.Pending k 0 ∧ m.Pending k 1

instance instDecidablePending (m : Samples) (k : Kind) (n : Nat) : Decidable (m.Pending k n) :=
  match h : (m.of k)[n]? with
  | .none => .isFalse fun ⟨_, hv, _⟩ => nomatch h.symm.trans hv
  | some v =>
    if hv : v &&& 0x80 ≠ 0 then .isTrue ⟨v, h, hv⟩
    else .isFalse fun ⟨_, hw, hp⟩ => hv (Option.some.inj (h.symm.trans hw) ▸ hp)

instance instDecidableConfirmed (m : Samples) (k : Kind) : Decidable (m.Confirmed k) :=
  inferInstanceAs (Decidable (_ ∧ _))

/-- the type that an acknowledge at `addr` is for: with `pilr` = 0 both types have the address
0x000, where a pending receive request comes first -/
def ackType (m : Samples) (addr : Nat) : Kind :=
  if addr = 0x002 then .rx
  else if addr = 0x001 then .tx
  else if m.Pending .rx 1 then .rx else .tx

/-- the first sample shows one type only and the second one the other, which comes first or is
alone by then -/
def Swapped (m : Samples) : Prop :=
  (m.Pending .tx 0 ∧ ¬m.Pending .rx 0 ∧ m.Pending .rx 1) ∨
    (m.Pending .rx 0 ∧ ¬m.Pending .tx 0 ∧ m.Pending .tx 1 ∧ ¬m.Pending .rx 1)

instance instDecidableSwapped (m : Samples) : Decidable m.Swapped :=
  inferInstanceAs (Decidable (_ ∨ _))

end Samples

/-! ## the request bit -/

/-- a request, in `TIR` as in `RIR` -/
def Requests (v : UInt8) : Prop := v &&& 0x80 ≠ 0

theorem requests_bit (v : UInt8) : Requests v ↔ v.toBitVec.getLsbD 7 = true := by
  have hand : (v &&& 0x80).toBitVec = if v.toBitVec.getLsbD 7 then BitVec.twoPow 8 7 else 0#8 :=
    BitVec.and_twoPow v.toBitVec 7
  unfold Requests
  rw [Ne, ← UInt8.toBitVec_inj, hand]
  cases v.toBitVec.getLsbD 7 <;> decide

theorem requests_or (v w : UInt8) : Requests (v ||| w) ↔ Requests v ∨ Requests w := by
  rw [requests_bit, requests_bit, requests_bit, UInt8.toBitVec_or, BitVec.getLsbD_or,
    Bool.or_eq_true]

theorem requests_and (v w : UInt8) : Requests (v &&& w) ↔ Requests v ∧ Requests w := by
  rw [requests_bit, requests_bit, requests_bit, UInt8.toBitVec_and, BitVec.getLsbD_and,
    Bool.and_eq_true]

/-! ## the decision -/

theorem kindOf_rx {rir : UInt8} (h : Requests rir) : Levels.kindOf rir = .rx := if_pos h

theorem kindOf_tx {rir : UInt8} (h : ¬Requests rir) : Levels.kindOf rir = .tx := if_neg h

namespace Samples
variable {v0 vc : Kind → UInt8}

/-- the two samples of a pass -/
def pair (v0 vc : Kind → UInt8) : Samples := ⟨[v0 .tx, vc .tx], [v0 .rx, vc .rx]⟩

theorem pending_first (k : Kind) : (pair v0 vc).Pending k 0 ↔ Requests (v0 k) := by
  cases k <;> exact ⟨fun ⟨_, h, hv⟩ => Option.some.inj h ▸ hv, fun h => ⟨_, rfl, h⟩⟩

theorem pending_second (k : Kind) : (pair v0 vc).Pending k 1 ↔ Requests (vc k) := by
  cases k <;> exact ⟨fun ⟨_, h, hv⟩ => Option.some.inj h ▸ hv, fun h => ⟨_, rfl, h⟩⟩

/-- the address is that of the type that the second sample shows -/
theorem ackType_pair (p : Int) :
    (pair v0 vc).ackType (ackLevel (Levels.kindOf (vc .rx)) p) = Levels.kindOf (vc .rx) := by
  unfold ackType
  by_cases h : Requests (vc .rx)
  · rw [kindOf_rx h, if_pos ((pending_second .rx).mpr h)]
    by_cases hp : p ≠ 0
    · have haddr : ackLevel .rx p = 0x002 := if_pos hp
      rw [haddr, if_pos rfl]
    · have haddr : ackLevel .rx p = 0x000 := if_neg hp
      rw [haddr, if_neg (by decide), if_neg (by decide)]
  · rw [kindOf_tx h, if_neg fun hc => h ((pending_second .rx).mp hc)]
    by_cases hp : p ≠ 0
    · have haddr : ackLevel .tx p = 0x001 := if_pos hp
      rw [haddr, if_neg (by decide), if_pos rfl]
    · have haddr : ackLevel .tx p = 0x000 := if_neg hp
      rw [haddr, if_neg (by decide), if_neg (by decide)]

/-- with a request in each sample -/
theorem confirmed_pair
    (h : Requests ((v0 .tx ||| v0 .rx) &&& (vc .tx ||| vc .rx))) :
    (pair v0 vc).Confirmed (Levels.kindOf (vc .rx)) ↔ ¬(pair v0 vc).Swapped := by
  rw [requests_and, requests_or, requests_or] at h
  obtain ⟨hfirst, hsecond⟩ := h
  unfold Confirmed Swapped
  by_cases hr : Requests (vc .rx)
  · rw [kindOf_rx hr]
    simp only [pending_first, pending_second]
    tauto
  · rw [kindOf_tx hr]
    simp only [pending_first, pending_second]
    tauto

end Samples

/-! ## the pass -/

/-- an acknowledge is of a confirmed request exactly if the types did not swap -/
def AckConfirms (m : Samples) : Op → Prop
  | .readb addr => m.Confirmed (m.ackType addr) ↔ ¬m.Swapped
  | _ => True

/-- the chip as a call of `nm32a_service` reads it: it may show anything -/
def sampled (j : Fin 8) : Env Op Res Samples := Env.answers (Samples.after j) fun _ _ _ => True

def confirms (e : Event Op Res Samples) : Prop := AckConfirms e.pre e.op

variable {α : Type} {j : Fin 8} {m : Samples}

theorem wp_sampled {o : Op} {f : Res o → Drv α} {Q : α → Samples → Prop} (ho : AckConfirms m o)
    (h : ∀ r, wp (sampled j) confirms (f r) Q (Samples.after j o r m)) :
    wp (sampled j) confirms (issue o >>= f) Q m := by
  intro m1 hr r m2 ⟨_, hm⟩
  obtain rfl : m1 = m := hr
  subst hm
  exact ⟨ho, h r⟩

theorem wp_tir {f : UInt8 → Drv α} {Q : α → Samples → Prop}
    (h : ∀ v : UInt8, wp (sampled j) confirms (f v) Q (m.see .tx v)) :
    wp (sampled j) confirms (crd j .TIR >>= f) Q m := by
  refine wp_sampled trivial fun v => ?_
  have hv : Samples.after j (.crd j .TIR) v m = m.see .tx v := if_pos rfl
  rw [hv]
  exact h v

theorem wp_rir {f : UInt8 → Drv α} {Q : α → Samples → Prop}
    (h : ∀ v : UInt8, wp (sampled j) confirms (f v) Q (m.see .rx v)) :
    wp (sampled j) confirms (crd j .RIR >>= f) Q m := by
  refine wp_sampled trivial fun v => ?_
  have hv : Samples.after j (.crd j .RIR) v m = m.see .rx v := if_pos rfl
  rw [hv]
  exact h v

theorem sampled_stable (P : Samples → Prop) : Stable (sampled j) P := by
  intro m m' h hr
  obtain rfl : m' = m := hr
  exact h

/-- no acknowledge follows -/
theorem wp_past {p : Drv α} (hu : p.Uses Op.Mild) :
    wp (sampled j) confirms p (fun _ _ => True) m := by
  refine wp_keeps (sampled_stable _) ?_ hu trivial
  intro m o r m' ho _ _
  cases o with
  | readb addr => exact False.elim ho
  | _ => exact ⟨trivial, trivial⟩

/-- what the trace message does -/
def Op.Traces : Op → Prop
  | .params => True
  | .traceDec => True
  | _ => False

theorem traces_serviceTrace (pend : UInt8) : (serviceTrace pend).Uses Op.Traces := by
  refine Prog.Uses.bind (uses_issue trivial) fun p => ?_
  exact Prog.Uses.ite (Prog.Uses.bind (uses_issue trivial) fun _ => trivial) trivial

theorem traces_keep (m0 : Samples) : Keeps (sampled j) confirms Op.Traces (· = m0) := by
  intro m o r m' ho h ⟨_, hm⟩
  subst hm
  cases o with
  | params => exact ⟨trivial, h⟩
  | traceDec => exact ⟨trivial, h⟩
  | _ => exact False.elim ho

theorem wp_serviceGrant_confirms (j : Fin 8) :
    wp (sampled j) confirms (serviceGrant j) (fun _ _ => True) Samples.none := by
  have hback : ∀ m, wp (sampled j) confirms (do hwUnlock; return none : Drv (Option Granted))
      (fun _ _ => True) m :=
    fun m => wp_past (Prog.Uses.bind (uses_issue trivial) fun _ => trivial)
  unfold serviceGrant
  refine wp_sampled trivial fun _ => ?_
  refine wp_tir fun tir0 => ?_
  refine wp_rir fun rir0 => ?_
  refine wp_bind_keeps (sampled_stable _) (traces_keep _) (traces_serviceTrace _) rfl ?_
  intro tr m1 h1
  subst h1
  split
  · exact hback _
  refine wp_tir fun tirc => ?_
  refine wp_rir fun rirc => ?_
  split
  · exact hback _
  rename_i hboth
  rw [ackAddr_eq]
  refine wp_sampled (o := .params) trivial fun p => ?_
  refine wp_sampled (o := .readb _) ?_ fun ackv => ?_
  · -- the samples are complete when the address is chosen
    let v0 : Kind → UInt8 := fun k => match k with | .tx => tir0 | .rx => rir0
    let vc : Kind → UInt8 := fun k => match k with | .tx => tirc | .rx => rirc
    show (Samples.pair v0 vc).Confirmed ((Samples.pair v0 vc).ackType
      (ackLevel (Levels.kindOf (vc .rx)) (Params.pilr p))) ↔ ¬(Samples.pair v0 vc).Swapped
    rw [Samples.ackType_pair]
    exact Samples.confirmed_pair hboth
  · exact wp_past (mild_decide tr tirc)

theorem wp_service_confirms (j : Fin 8) :
    wp (sampled j) confirms (nm32aService j) (fun _ _ => True) Samples.none := by
  unfold nm32aService
  rw [wp_bind]
  refine wp_post (wp_serviceGrant_confirms j) ?_
  intro g m _
  cases g with
  | none => trivial
  | some g => exact wp_past (Prog.Uses.bind (mild_serviceGranted g) fun _ => trivial)

/-- **An acknowledge is of a request that both samples show** exactly where the types did not swap;
a call is about to acknowledge when the read of its address comes next. -/
theorem service_confirmed_iff {σ : Type} (E : Env Op Res σ) (j : Fin 8) {s s' : σ}
    {tr : List (Event Op Res σ)} {addr : Nat} {p' : Drv Bool}
    (h : Exec E (nm32aService j) s tr s' p') (hnext : p'.next = some (.readb addr)) :
    (history (Samples.after j) Samples.none tr).Confirmed
        ((history (Samples.after j) Samples.none tr).ackType addr) ↔
      ¬(history (Samples.after j) Samples.none tr).Swapped := by
  obtain ⟨k, rfl⟩ := Prog.eq_of_next hnext
  have hleft := (h.along (A := fun _ _ _ => True) (G := fun m o _ => AckConfirms m o)
    (wp_service_confirms j) (Along.trivial _ _)).2
  exact (hleft _ rfl (0x00 : UInt8) _ ⟨trivial, rfl⟩).1

/-- a chip that shows `v k n` for type `k` in sample `n`, where nothing answers an acknowledge -/
def stalling (v : Kind → Nat → UInt8) (n : Nat) : (o : Op) → Option (Res o × Nat)
  | .crd _ .TIR => some (v .tx n, n)
  | .crd _ .RIR => some (v .rx n, n + 1)
  | .readb _ => none
  | o => showing (fun _ _ => 0x00) id Params.default n o

/-- the first pass over such a chip, up to where it stops -/
def stalledPass (v : Kind → Nat → UInt8) : List (Event Op Res Nat) :=
  ((Policy.machine (stalling v)).play 0 (nm32aService 0) 0).1

/-- a receive request that stays, beside a transmit request that goes -/
def receiveStays : Kind → Nat → UInt8
  | .rx, _ => 0xC0
  | .tx, n => if n = 0 then 0xC0 else 0x00

theorem service_confirmed_iff_stays :
    (history (Samples.after 0) Samples.none (stalledPass receiveStays)).Confirmed .rx :=
  (service_confirmed_iff _ 0
    ((Policy.machine (stalling receiveStays)).play_exec 0 (nm32aService 0) 0) rfl).mpr
      (by decide +kernel)

/-- a transmit request that goes while a receive request comes -/
def receiveComes : Kind → Nat → UInt8
  | .rx, n => if n = 0 then 0x00 else 0xC0
  | .tx, n => if n = 0 then 0xC0 else 0x00

/-- the acknowledge comes, and neither request is there in both samples -/
theorem service_confirmed_fails : ∃ (E : Env Op Res Nat) (tr : List (Event Op Res Nat)) (s' : Nat)
    (p' : Drv Bool), Exec E (nm32aService 0) 0 tr s' p' ∧ p'.next = some (.readb 0x000) ∧
    ¬(history (Samples.after 0) Samples.none tr).Confirmed .rx ∧
    ¬(history (Samples.after 0) Samples.none tr).Confirmed .tx :=
  ⟨_, stalledPass receiveComes, _, _,
    (Policy.machine (stalling receiveComes)).play_exec 0 (nm32aService 0) 0, rfl,
    by decide +kernel, by decide +kernel⟩

end Nm32a
