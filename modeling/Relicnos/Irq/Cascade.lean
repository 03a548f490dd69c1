import Relicnos.Irq.Outcome
import Relicnos.Irq.Script
import Relicnos.Interact.Series

/-!
# Which lines are masked

`Cause` is read before the cause words, and one look decides.  A line whose source goes away in
between is found pending with nothing behind it, and is masked for good, the line of the
controller like any other.

* `Pending`, `Found`     what a call finds at its reads;
* `Spared`               the line of the controller is not masked, and a line that is masked keeps
                         asserting with nothing serviceable behind it;
* `Settled`              no line that is found pending with nothing behind it goes away, and the
                         controller's is not found so at all;
* `spared_iff`           over any series of calls the two agree.
-/

set_option linter.unusedVariables false

namespace Irq
open Interact

variable {w : Wiring} {d : Machine → Machine → Prop} {s s' : Machine} {tr : List Ev}

/-- the line is enabled when `Status` is read and asserted when `Cause` is -/
def Pending (w : Wiring) : List Ev → Fin 8 → Bool
  | e0 :: e1 :: _, ip => e0.pre.enabled ip && w.level e1.pre ip
  | _, _ => false

/-- an unmasked source is asserted when its own cause word is read -/
def Found (tr : List Ev) : Prop :=
  ∃ b : Fin 64, ∃ e ∈ tr, e.op = .readl (causeReg b) ∧ e.pre.asserted b = true ∧
    e.pre.unmasked b = true

instance : Decidable (Found tr) := by
  unfold Found
  infer_instance

/-- the line `own` is not masked, and one that is masked was found pending with nothing
serviceable behind it and has not gone away since `Cause` was read -/
structure Spared (w : Wiring) (own : Fin 8) (tr : List Ev) : Prop where
  own : ∀ e ∈ tr, ¬Clears own e
  others : ∀ ip tr1 e tr2, tr = tr1 ++ e :: tr2 → Clears ip e →
    Pending w tr ip = true ∧ ¬Found tr ∧ ∀ e' ∈ (tr1 ++ [e]).drop 1, w.level e'.pre ip = true

/-- if the timer is not pending and nothing serviceable is found, then `own` is not pending, and
the other lines that are stay asserted for as long as they are enabled -/
def Settled (w : Wiring) (own : Fin 8) (tr : List Ev) : Prop :=
  Pending w tr 7 = false → ¬Found tr → Pending w tr own = false ∧
    ∀ ip ∈ cascadeLines, Pending w tr ip = true →
      ∀ e ∈ tr.drop 1, e.pre.enabled ip = true → w.level e.pre ip = true

instance (own : Fin 8) : Decidable (Settled w own tr) := by
  unfold Settled
  infer_instance

theorem pending_eq (p : Sampled w d s) (rest : List Ev) (ip : Fin 8) :
    Pending w (p.events ++ rest) ip = p.pending ip := rfl

theorem causeReg_low {b : Fin 64} : causeReg b = .mainCauseLow ↔ b.val < 32 := by
  unfold causeReg
  split <;> simp_all

theorem causeReg_high {b : Fin 64} : causeReg b = .mainCauseHigh ↔ ¬b.val < 32 := by
  unfold causeReg
  split <;> simp_all

/-- what a source shows in the two words is what it shows in its own -/
theorem seen_low (k : Looked Free s) {b : Fin 64} (h : b.val < 32) :
    k.seen b = (k.atCauseLow.asserted b && k.atCauseLow.unmasked b) := by
  have hmask : k.atMaskLow.regs .cpu0MaskLow = k.atCauseLow.regs .cpu0MaskLow := k.drift2.mask 0
  rw [Looked.seen, Looked.low, Looked.high, word_and, hmask]
  simp [word, h, Machine.asserted, causeReg, Machine.unmasked, maskReg]

theorem seen_high (k : Looked Free s) {b : Fin 64} (h : ¬b.val < 32) :
    k.seen b = (k.atCauseHigh.asserted b && k.atCauseHigh.unmasked b) := by
  have hmask : k.atMaskHigh.regs .cpu0MaskHigh = k.atCauseHigh.regs .cpu0MaskHigh :=
    k.drift4.mask 32
  rw [Looked.seen, Looked.low, Looked.high, word_and, hmask]
  simp [word, h, Machine.asserted, causeReg, Machine.unmasked, maskReg]

theorem found_of_seen (k : Looked Free s) {b : Fin 64} (hb : k.seen b = true)
    (htr : ∀ e ∈ k.events, e ∈ tr) : Found tr := by
  by_cases h : b.val < 32
  · rw [seen_low k h, Bool.and_eq_true_iff] at hb
    refine ⟨b, Looked.look k.atCauseLow .mainCauseLow, htr _ (by simp [Looked.events]), ?_, hb⟩
    rw [causeReg_low.mpr h]
    rfl
  · rw [seen_high k h, Bool.and_eq_true_iff] at hb
    refine ⟨b, Looked.look k.atCauseHigh .mainCauseHigh, htr _ (by simp [Looked.events]), ?_, hb⟩
    rw [causeReg_high.mpr h]
    rfl

/-- nothing is found where no source was seen and the rest reads no cause word -/
theorem not_found (p : Sampled w Free s) (k : Looked Free p.atCause) {rest : List Ev}
    (hk : ∀ b, k.seen b = false) (hrest : ∀ e ∈ rest, ∀ r, e.op ≠ .readl r) :
    ¬Found (p.events ++ (k.events ++ rest)) := by
  intro ⟨b, e, he, hop, hb⟩
  rw [← Bool.and_eq_true_iff] at hb
  rcases List.mem_append.mp he with he | he
  · simp only [Sampled.events, List.mem_cons, List.not_mem_nil, or_false] at he
    rcases he with rfl | rfl
    · cases hop
    · cases hop
  rcases List.mem_append.mp he with he | he
  · simp only [Looked.events, List.mem_cons, List.not_mem_nil, or_false] at he
    have hreg := maskReg_ne_causeReg 0 b
    have hreg' := maskReg_ne_causeReg 32 b
    rcases he with rfl | rfl | rfl | rfl
    · have h := causeReg_low.mp (Op.readl.inj hop).symm
      rw [Looked.look, ← seen_low k h, hk b] at hb
      cases hb
    · exact hreg (Op.readl.inj hop).symm
    · have h := causeReg_high.mp (Op.readl.inj hop).symm
      rw [Looked.look, ← seen_high k h, hk b] at hb
      cases hb
    · exact hreg' (Op.readl.inj hop).symm
  · exact hrest e he _ hop

/-! ## one call -/

/-- a call that masks nothing -/
theorem spared_of_no_clear (own : Fin 8) (h : ∀ e ∈ tr, ∀ ip, ¬Clears ip e) :
    Spared w own tr := by
  refine ⟨fun e he => h e he own, ?_⟩
  intro ip tr1 e tr2 htr hc
  subst htr
  exact absurd hc (h e (by simp) ip)

theorem Free.enabled {s t : Machine} (h : Free s t) (ip : Fin 8) : t.enabled ip = s.enabled ip := by
  unfold Machine.enabled
  rw [h.status]

/-- up to where a line is masked it is enabled as it was when `Status` was read -/
theorem enabled_before (p : Sampled w Free s) (k : Looked Free p.atCause) {ip : Fin 8}
    {tr1 : List Ev} {e : Ev} {tr2 : List Ev} (h : MasksOnce k.atMaskHigh ip tr1 e tr2 s') :
    ∀ e' ∈ (p.events ++ (k.events ++ tr1)) ++ [e], e'.pre.enabled ip = p.atStatus.enabled ip := by
  have h2 := p.drift2.enabled ip
  have h3 := (k.drift1.enabled ip).trans h2
  have h4 := (k.drift2.enabled ip).trans h3
  have h5 := (k.drift3.enabled ip).trans h4
  have h6 := (k.drift4.enabled ip).trans h5
  intro e' he
  rw [List.append_assoc, List.append_assoc] at he
  rcases List.mem_append.mp he with he | he
  · simp only [Sampled.events, List.mem_cons, List.not_mem_nil, or_false] at he
    rcases he with rfl | rfl
    · rfl
    · exact h2
  rcases List.mem_append.mp he with he | he
  · simp only [Looked.events, List.mem_cons, List.not_mem_nil, or_false] at he
    rcases he with rfl | rfl | rfl | rfl
    · exact h3
    · exact h4
    · exact h5
    · exact h6
  · exact (h.before e' he).trans h6

theorem sampled_no_clear (p : Sampled w d s) (ip : Fin 8) : ∀ e ∈ p.events, ¬Clears ip e := by
  intro e he
  simp only [Sampled.events, List.mem_cons, List.not_mem_nil, or_false] at he
  rcases he with rfl | rfl
  · exact not_clears nofun
  · exact not_clears nofun

theorem looked_no_clear (k : Looked d s) (ip : Fin 8) : ∀ e ∈ k.events, ¬Clears ip e := by
  intro e he
  simp only [Looked.events, List.mem_cons, List.not_mem_nil, or_false] at he
  rcases he with rfl | rfl | rfl | rfl
  · exact not_clears nofun
  · exact not_clears nofun
  · exact not_clears nofun
  · exact not_clears nofun

/-- a pending line is masked once in the call -/
theorem once_in_call (p : Sampled w Free s) (k : Looked Free p.atCause) {ip : Fin 8}
    (hip : ip ∈ cascadeLines) (hp : p.pending ip = true)
    (h : Runs (env w Free) (mv64340CascadeRunaway p.word) k.atMaskHigh tr () s') :
    ∃ tr1 e tr2, p.events ++ (k.events ++ tr) = tr1 ++ e :: tr2 ∧
      MasksOnce p.atStatus ip tr1 e tr2 s' := by
  obtain ⟨tr1, e, tr2, rfl, hm⟩ := runs_runawayLoop (fun _ _ h => h) p.word cascadeLines
    (by decide) h ip hip ((p.getLsbD_word ip).trans hp)
  refine ⟨p.events ++ (k.events ++ tr1), e, tr2, ?_, hm.op, enabled_before p k hm, hm.after, ?_,
    hm.final⟩
  · rw [List.append_assoc, List.append_assoc]
  · intro e' he
    rw [List.append_assoc, List.append_assoc] at he
    rcases List.mem_append.mp he with he | he
    · exact sampled_no_clear p ip e' he
    rcases List.mem_append.mp he with he | he
    · exact looked_no_clear k ip e' he
    · exact hm.only e' he

/-- a line that is masked in the call was pending -/
theorem pending_of_clears (p : Sampled w Free s) (k : Looked Free p.atCause)
    (h : Runs (env w Free) (mv64340CascadeRunaway p.word) k.atMaskHigh tr () s') {ip : Fin 8}
    {e : Ev} (he : e ∈ p.events ++ (k.events ++ tr)) (hc : Clears ip e) :
    ip ∈ cascadeLines ∧ p.pending ip = true := by
  rcases List.mem_append.mp he with he | he
  · exact absurd hc (sampled_no_clear p ip e he)
  rcases List.mem_append.mp he with he | he
  · exact absurd hc (looked_no_clear k ip e he)
  · obtain ⟨hip, hbit⟩ := clears_of_masks (runawayLoop_masks p.word cascadeLines h e he) hc
    exact ⟨hip, (p.getLsbD_word ip).symm.trans hbit⟩

/-- the call in which lines are masked -/
theorem runaway_spared_iff {own : Fin 8} (hown : own ∈ cascadeLines) (p : Sampled w Free s)
    (k : Looked Free p.atCause) (h7 : p.pending 7 = false) (hn : ∀ b, k.seen b = false)
    (h : Runs (env w Free) (mv64340CascadeRunaway p.word) k.atMaskHigh tr () s') :
    Spared w own (p.events ++ (k.events ++ tr)) ↔ Settled w own (p.events ++ (k.events ++ tr)) := by
  have hfound : ¬Found (p.events ++ (k.events ++ tr)) := by
    apply not_found p k hn
    intro e he r
    obtain ⟨ip, _, _, ho | ho⟩ := runawayLoop_masks p.word cascadeLines h e he
    · rw [ho]
      exact nofun
    · rw [ho]
      exact nofun
  have henabled : ∀ ip, p.pending ip = true → p.atStatus.enabled ip = true :=
    fun ip hp => (Bool.and_eq_true_iff.mp hp).1
  constructor
  · intro hs _ _
    refine ⟨?_, ?_⟩
    · rw [← Bool.not_eq_true]
      intro hp
      obtain ⟨tr1, e, tr2, htr, hm⟩ := once_in_call p k hown hp h
      exact hs.own e (by simp [htr]) (clears_self hm.op)
    · intro ip hip hp e' he' hen
      obtain ⟨tr1, e, tr2, htr, hm⟩ := once_in_call p k hip hp h
      have hafter : e' ∉ tr2 := by
        intro hmem
        rw [hm.after e' hmem] at hen
        cases hen
      rw [htr, List.append_cons, List.drop_append_of_le_length (by simp)] at he'
      exact (hs.others ip tr1 e tr2 htr (clears_self hm.op)).2.2 e'
        ((List.mem_append.mp he').resolve_right hafter)
  · intro hset
    obtain ⟨hnown, hrest⟩ := hset h7 hfound
    refine ⟨?_, ?_⟩
    · intro e he hc
      have hp := (pending_of_clears p k h he hc).2
      rw [pending_eq, hp] at hnown
      cases hnown
    · intro ip tr1 e tr2 htr hc
      have he : e ∈ p.events ++ (k.events ++ tr) := by simp [htr]
      obtain ⟨hip, hp⟩ := pending_of_clears p k h he hc
      obtain ⟨tra, e0, trb, htr0, hm⟩ := once_in_call p k hip hp h
      refine ⟨hp, hfound, ?_⟩
      have hnot : ∀ l : List Ev, (∀ e' ∈ l, e' ∈ tra ++ trb) → e ∉ l :=
        fun l hl he => hm.only e (hl e he) hc
      obtain ⟨rfl, rfl, rfl⟩ := (List.append_cons_inj_of_notMem
        (hnot tra fun e' he => List.mem_append_left _ he)
        (hnot trb fun e' he => List.mem_append_right _ he)).mp (htr0.symm.trans htr)
      intro e' he'
      apply hrest ip hip hp e'
      · rw [htr, List.append_cons, List.drop_append_of_le_length (by simp)]
        exact List.mem_append_left _ he'
      · rw [hm.before e' (List.mem_of_mem_drop he')]
        exact henabled ip hp

/-- **One call.** -/
theorem call_spared_iff {own : Fin 8} (hown : own ∈ cascadeLines)
    (h : Runs (env w Free) platIrqDispatch s tr () s') : Spared w own tr ↔ Settled w own tr := by
  -- the other calls mask no line, and `Settled` asks nothing of them
  have hother : ∀ tr : List Ev, (∀ e ∈ tr, ∀ ip, ¬Clears ip e) → Settled w own tr →
      (Spared w own tr ↔ Settled w own tr) :=
    fun tr hc hs => ⟨fun _ => hs, fun _ => spared_of_no_clear own hc⟩
  cases runs_outcome h with
  | timer p h7 hd hh =>
    apply hother
    · intro e he ip
      rcases List.mem_append.mp he with he | he
      · exact sampled_no_clear p ip e he
      · obtain rfl := List.mem_singleton.mp he
        exact not_clears nofun
    · intro hno
      rw [pending_eq, h7] at hno
      cases hno
  | spurious p h7 hn hd =>
    apply hother
    · intro e he ip
      rcases List.mem_append.mp he with he | he
      · exact sampled_no_clear p ip e he
      · obtain rfl := List.mem_singleton.mp he
        exact not_clears nofun
    · intro _ _
      refine ⟨hn own hown, ?_⟩
      intro ip hip hp
      rw [pending_eq, hn ip hip] at hp
      cases hp
  | claimed p k b h7 hany hb hd hc hd' hh =>
    apply hother
    · intro e he ip
      rcases List.mem_append.mp he with he | he
      · exact sampled_no_clear p ip e he
      rcases List.mem_append.mp he with he | he
      · exact looked_no_clear k ip e he
      · simp only [List.mem_cons, List.not_mem_nil, or_false] at he
        rcases he with rfl | rfl
        · exact not_clears nofun
        · exact not_clears nofun
    · intro _ hno
      refine absurd (found_of_seen k hb ?_) hno
      exact fun e he => List.mem_append_right _ (List.mem_append_left _ he)
  | unclaimed p k b h7 hany hb hd hc hrun =>
    obtain ⟨t1, u, x, y, x', rfl, _⟩ := runs_unclaimed (fun _ _ h => h) b hrun
    apply hother
    · intro e he ip
      rcases List.mem_append.mp he with he | he
      · exact sampled_no_clear p ip e he
      rcases List.mem_append.mp he with he | he
      · exact looked_no_clear k ip e he
      · simp only [List.mem_cons, List.not_mem_nil, or_false] at he
        rcases he with rfl | rfl | rfl | rfl | rfl <;> exact not_clears nofun
    · intro _ hno
      refine absurd (found_of_seen k hb ?_) hno
      exact fun e he => List.mem_append_right _ (List.mem_append_left _ he)
  | runaway p k h7 hany hn hrun => exact runaway_spared_iff hown p k h7 hn hrun

/-- **Over any series of calls, with anything in between, the controller's line is spared exactly
if no line is found pending whose source has gone away.** -/
theorem spared_iff (own : Fin 8) (hown : own ∈ cascadeLines) (w : Wiring)
    (hw : w.driven = some own) (between : Machine → Machine → Prop) (s s' : Machine)
    (cs : List (Call Op Res Machine))
    (h : Series (env w Free) between platIrqDispatch s cs s') :
    (∀ c ∈ cs, Spared w own c.trace) ↔ ∀ c ∈ cs, Settled w own c.trace := by
  have hone : ∀ c ∈ cs, (Spared w own c.trace ↔ Settled w own c.trace) := by
    intro c hc
    obtain ⟨_, hr⟩ := h.mem_runs c hc
    exact call_spared_iff hown hr
  constructor
  · intro hs c hc
    exact (hone c hc).mp (hs c hc)
  · intro hs c hc
    exact (hone c hc).mpr (hs c hc)

/-- line 2 is the controller's; sources 5 and 9 are claimed and unmasked, 5 is asserted -/
def ethernetStart : Machine where
  status := 0xff00
  line _ := false
  regs
    | .mainCauseLow => 0x20
    | .cpu0MaskLow => 0x220
    | _ => 0
  actions _ := true
  mvUnclaimed := 0
  cascadeRunawayMask := 0
  scheduled _ := false

def Machine.quiet (s : Machine) : Machine :=
  { s with regs := fun r => if r = .mainCauseLow then 0 else s.regs r }

theorem quiet_free (s : Machine) : Free s s.quiet :=
  ⟨rfl, fun b => if_neg (maskReg_ne_causeReg b 0).symm, rfl⟩

/-- source 5 goes away after `Cause` was read -/
def glitch : Policy (env (idle (some 2)) Free) :=
  board (some 2) (fun n s => if n = 2 then s.quiet else s) fun n s => by
    split
    · exact quiet_free s
    · exact ⟨rfl, fun _ => rfl, rfl⟩

/-- the controller's line is masked, with both its sources claimed -/
theorem spared_fails : ¬∀ (own : Fin 8), own ∈ cascadeLines → ∀ w : Wiring, w.driven = some own →
    ∀ (between : Machine → Machine → Prop) (s s' : Machine) (cs : List (Call Op Res Machine)),
      Series (env w Free) between platIrqDispatch s cs s' → ∀ c ∈ cs, Spared w own c.trace := by
  intro h
  have hr : Runs (env (idle (some 2)) Free) platIrqDispatch ethernetStart
      (glitch.play 0 platIrqDispatch ethernetStart).1 ()
      (glitch.play 0 platIrqDispatch ethernetStart).2.1 :=
    glitch.play_runs 0 _ _ (by decide +kernel)
  have hs := h 2 (by decide) (idle (some 2)) rfl held _ _ _ (.again rfl hr (.done _)) _
    (List.mem_singleton.mpr rfl)
  have hmask : ∃ e ∈ (glitch.play 0 platIrqDispatch ethernetStart).1,
      e.op = .clearC0Status (1#32 <<< (statusbIP0 + (2 : Fin 8).val)) := by decide +kernel
  obtain ⟨e, he, hop⟩ := hmask
  exact hs.own e he (clears_self hop)

/-- no source is asserted, and something drives line 3 -/
def strayStart : Machine := { ethernetStart.quiet with line := fun ip => ip == 3 }

/-- a call that serves source 5, and one that masks line 3 -/
theorem spared_iff_stray : ∃ cs s', Series (env (idle (some 2)) Free) (fun _ _ => True)
    platIrqDispatch ethernetStart cs s' ∧ cs.length = 2 ∧
      (∀ c ∈ cs, Spared (idle (some 2)) 2 c.trace) ∧ s'.enabled 2 = true ∧
      s'.enabled 3 = false := by
  let rest : Policy (env (idle (some 2)) Free) :=
    board (some 2) (fun _ s => s) fun _ _ => ⟨rfl, fun _ => rfl, rfl⟩
  have h1 : Runs (env (idle (some 2)) Free) platIrqDispatch ethernetStart
      (rest.play 0 platIrqDispatch ethernetStart).1 ()
      (rest.play 0 platIrqDispatch ethernetStart).2.1 :=
    rest.play_runs 0 _ _ (by decide +kernel)
  have h2 : Runs (env (idle (some 2)) Free) platIrqDispatch strayStart
      (rest.play 0 platIrqDispatch strayStart).1 ()
      (rest.play 0 platIrqDispatch strayStart).2.1 :=
    rest.play_runs 0 _ _ (by decide +kernel)
  have h : Series (env (idle (some 2)) Free) (fun _ _ => True) platIrqDispatch ethernetStart _ _ :=
    .again trivial h1 (.again trivial h2 (.done _))
  refine ⟨_, _, h, rfl, ?_, by decide +kernel, by decide +kernel⟩
  apply (spared_iff 2 (by decide) (idle (some 2)) rfl _ _ _ _ h).mpr
  intro c hc
  simp only [List.mem_cons, List.not_mem_nil, or_false] at hc
  rcases hc with rfl | rfl
  · show Settled (idle (some 2)) 2 (rest.play 0 platIrqDispatch ethernetStart).1
    decide +kernel
  · show Settled (idle (some 2)) 2 (rest.play 0 platIrqDispatch strayStart).1
    decide +kernel

end Irq
