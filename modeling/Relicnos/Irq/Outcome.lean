import Relicnos.Irq.Dispatch
import Mathlib.Tactic.FinCases

/-!
# What one call of the dispatch can do

* `word_pick`, `pick_none`   the priority scan over the two words;
* `Sampled`, `Looked`        the states in which `Status`, `Cause` and the four words are read;
* `Outcome`                  the five ways a call ends, each with its trace;
* `runs_outcome`             every call ends in one of them;
* `maskOff_unmasked`, `runs_unclaimed`   the effect of masking a source;
* `runs_runawayLoop`         each pending line is masked once, the others not at all.
-/

set_option linter.unusedVariables false

namespace Irq
open Interact

abbrev Ev := Event Op Res Machine

/-! ## bits -/

theorem getLsbD_bit (i j : Nat) (hi : i < 32) : (1#32 <<< i).getLsbD j = decide (i = j) := by
  rw [← BitVec.twoPow_eq, BitVec.getLsbD_twoPow]
  by_cases h : i = j <;> simp [h]
  omega

theorem and_bit_eq_zero (x : BitVec 32) (i : Nat) (hi : i < 32) :
    x &&& 1#32 <<< i = 0 ↔ x.getLsbD i = false := by
  constructor
  · intro h
    have h := congrArg (fun y : BitVec 32 => y.getLsbD i) h
    simpa [getLsbD_bit i i hi] using h
  · intro h
    apply BitVec.eq_of_getLsbD_eq
    intro j hj
    rw [BitVec.getLsbD_and, getLsbD_bit i j hi]
    by_cases hij : i = j
    · subst hij
      simp [h]
    · simp [hij]

/-- the bit of a source in the word that holds it -/
def word (lo hi : BitVec 32) (b : Fin 64) : Bool :=
  (if b.val < 32 then lo else hi).getLsbD (b % 32)

theorem word_and (lo hi lo' hi' : BitVec 32) (b : Fin 64) :
    word (lo &&& lo') (hi &&& hi') b = (word lo hi b && word lo' hi' b) := by
  unfold word
  split <;> exact BitVec.getLsbD_and ..

theorem word_low (lo hi : BitVec 32) (i : Nat) (h : i < 32) :
    word lo hi ⟨i, by omega⟩ = lo.getLsbD i := by
  simp [word, h, Nat.mod_eq_of_lt h]

theorem word_high (lo hi : BitVec 32) (i : Nat) (h : i < 32) :
    word lo hi ⟨32 + i, by omega⟩ = hi.getLsbD i := by
  have hn : ¬ 32 + i < 32 := by omega
  simp [word, Nat.mod_eq_of_lt h, hn]

theorem ffs_lt {x : BitVec 32} (h : x ≠ 0) : ffs x < 32 := by
  have h := BitVec.ctz_lt_iff_ne_zero.mpr h
  simpa [ffs, BitVec.lt_def] using h

theorem getLsbD_ffs {x : BitVec 32} (h : x ≠ 0) : x.getLsbD (ffs x) = true :=
  BitVec.getLsbD_true_ctz_of_ne_zero h

/-- what is picked is set -/
theorem word_pick {lo hi : BitVec 32} {n : Nat} (h : pick lo hi = some n) :
    ∃ b : Fin 64, b.val = n ∧ word lo hi b = true := by
  unfold pick at h
  split at h
  · rename_i hlo
    obtain rfl := Option.some.inj h
    refine ⟨⟨ffs lo, by have := ffs_lt hlo; omega⟩, rfl, ?_⟩
    rw [word_low lo hi _ (ffs_lt hlo)]
    exact getLsbD_ffs hlo
  · split at h
    · rename_i hhi
      obtain rfl := Option.some.inj h
      refine ⟨⟨32 + ffs hi, by have := ffs_lt hhi; omega⟩, rfl, ?_⟩
      rw [word_high lo hi _ (ffs_lt hhi)]
      exact getLsbD_ffs hhi
    · cases h

/-- nothing is picked only if nothing is set -/
theorem pick_none {lo hi : BitVec 32} (h : pick lo hi = none) (b : Fin 64) :
    word lo hi b = false := by
  unfold pick at h
  have hlo : lo = 0 := by
    by_contra hne
    rw [if_pos hne] at h
    cases h
  have hhi : hi = 0 := by
    by_contra hne
    rw [if_neg (by simp [hlo]), if_pos hne] at h
    cases h
  subst hlo hhi
  simp [word]

/-- the lines of the demultiplexer as a mask -/
theorem and_cascade_eq_zero (x : BitVec 32) :
    x &&& (causefIP 6 ||| causefIP 5 ||| causefIP 4 ||| causefIP 3 ||| causefIP 2) = 0 ↔
      ∀ ip ∈ cascadeLines, x.getLsbD (causebIP + ip.val) = false := by
  have hor : ∀ y z w : BitVec 32, y &&& (z ||| w) = 0 ↔ y &&& z = 0 ∧ y &&& w = 0 := by
    intro y z w
    rw [BitVec.and_or_distrib_left]
    exact BitVec.or_eq_zero_iff
  have hbit : ∀ ip : Nat, ip < 8 → (x &&& causefIP ip = 0 ↔ x.getLsbD (causebIP + ip) = false) :=
    fun ip h => and_bit_eq_zero x _ (by show 8 + ip < 32; omega)
  rw [hor, hor, hor, hor, hbit 6 (by omega), hbit 5 (by omega), hbit 4 (by omega),
    hbit 3 (by omega), hbit 2 (by omega)]
  constructor
  · intro ⟨⟨⟨⟨h6, h5⟩, h4⟩, h3⟩, h2⟩ ip hip
    fin_cases hip
    exacts [h2, h3, h4, h5, h6]
  · intro h
    exact ⟨⟨⟨⟨h 6 (by decide), h 5 (by decide)⟩, h 4 (by decide)⟩, h 3 (by decide)⟩,
      h 2 (by decide)⟩

/-! ## the five outcomes -/

variable {w : Wiring} {d : Machine → Machine → Prop} {s s' : Machine} {tr : List Ev}

/-- the two reads that say which lines are pending -/
structure Sampled (w : Wiring) (d : Machine → Machine → Prop) (s : Machine) where
  atStatus : Machine
  atCause : Machine
  cause : BitVec 32
  drift1 : d s atStatus
  drift2 : d atStatus atCause
  levels : ∀ ip : Fin 8, cause.getLsbD (causebIP + ip) = w.level atCause ip

namespace Sampled

def events (p : Sampled w d s) : List Ev :=
  [⟨p.atStatus, .readC0Status, p.atStatus.status, p.atStatus⟩,
    ⟨p.atCause, .readC0Cause, p.cause, p.atCause⟩]

/-- the variable `pending` -/
def word (p : Sampled w d s) : BitVec 32 := p.atStatus.status &&& p.cause &&& st0IM

def pending (p : Sampled w d s) (ip : Fin 8) : Bool :=
  p.atStatus.enabled ip && w.level p.atCause ip

theorem getLsbD_word (p : Sampled w d s) (ip : Fin 8) :
    p.word.getLsbD (causebIP + ip) = p.pending ip := by
  have him : st0IM.getLsbD (causebIP + ip) = true := by revert ip; decide
  rw [word, BitVec.getLsbD_and, BitVec.getLsbD_and, him, p.levels ip, Bool.and_true]
  rfl

end Sampled

/-- the four reads of the demultiplexer -/
structure Looked (d : Machine → Machine → Prop) (s : Machine) where
  atCauseLow : Machine
  atMaskLow : Machine
  atCauseHigh : Machine
  atMaskHigh : Machine
  drift1 : d s atCauseLow
  drift2 : d atCauseLow atMaskLow
  drift3 : d atMaskLow atCauseHigh
  drift4 : d atCauseHigh atMaskHigh

namespace Looked

def look (s : Machine) (r : MvReg) : Ev := ⟨s, .readl r, s.regs r, s⟩

def events (k : Looked d s) : List Ev :=
  [look k.atCauseLow .mainCauseLow, look k.atMaskLow .cpu0MaskLow,
    look k.atCauseHigh .mainCauseHigh, look k.atMaskHigh .cpu0MaskHigh]

def low (k : Looked d s) : BitVec 32 :=
  k.atCauseLow.regs .mainCauseLow &&& k.atMaskLow.regs .cpu0MaskLow

def high (k : Looked d s) : BitVec 32 :=
  k.atCauseHigh.regs .mainCauseHigh &&& k.atMaskHigh.regs .cpu0MaskHigh

/-- the source is found asserted and unmasked -/
def seen (k : Looked d s) (b : Fin 64) : Bool := Irq.word k.low k.high b

end Looked

/-- how a call that starts in `s` ends -/
inductive Outcome (w : Wiring) (d : Machine → Machine → Prop) (s : Machine) :
    List Ev → Machine → Prop
  | timer (p : Sampled w d s) {t s' : Machine} : p.pending 7 = true → d p.atCause t →
      w.handler 7 t s' → Outcome w d s (p.events ++ [⟨t, .doIRQ 7, (), s'⟩]) s'
  | spurious (p : Sampled w d s) {t : Machine} : p.pending 7 = false →
      (∀ ip ∈ cascadeLines, p.pending ip = false) → d p.atCause t →
      Outcome w d s (p.events ++ [⟨t, .spuriousInterrupt, (), t⟩]) t
  | claimed (p : Sampled w d s) (k : Looked d p.atCause) (b : Fin 64) {t u s' : Machine} :
      p.pending 7 = false → (∃ ip ∈ cascadeLines, p.pending ip = true) → k.seen b = true →
      d k.atMaskHigh t → t.claimed b = true → d t u → w.handler (c2811MvIrqBase + b) u s' →
      Outcome w d s (p.events ++ (k.events ++
        [⟨t, .irqHasAction (c2811MvIrqBase + b), true, t⟩,
          ⟨u, .doIRQ (c2811MvIrqBase + b), (), s'⟩])) s'
  | unclaimed (p : Sampled w d s) (k : Looked d p.atCause) (b : Fin 64) {t s' : Machine}
      {tr : List Ev} :
      p.pending 7 = false → (∃ ip ∈ cascadeLines, p.pending ip = true) → k.seen b = true →
      d k.atMaskHigh t → t.claimed b = false →
      Runs (env w d) (do
        maskOff b
        ask (.setUnclaimed b)
        ask (.scheduleDelayedWork .mvUnclaimedWork 1)) t tr () s' →
      Outcome w d s (p.events ++ (k.events ++
        (⟨t, .irqHasAction (c2811MvIrqBase + b), false, t⟩ :: tr))) s'
  | runaway (p : Sampled w d s) (k : Looked d p.atCause) {s' : Machine} {tr : List Ev} :
      p.pending 7 = false → (∃ ip ∈ cascadeLines, p.pending ip = true) →
      (∀ b, k.seen b = false) →
      Runs (env w d) (mv64340CascadeRunaway p.word) k.atMaskHigh tr () s' →
      Outcome w d s (p.events ++ (k.events ++ tr)) s'

theorem runs_ask {o : Op} {r : Res o} : Runs (env w d) (ask o) s tr r s' ↔
    ∃ t, tr = [⟨t, o, r, s'⟩] ∧ d s t ∧ access w t o r s' := by
  constructor
  · intro h
    obtain ⟨t, q, u, tr', rfl, hd, ha, hk⟩ := runs_op.mp h
    obtain ⟨rfl, rfl, rfl⟩ := runs_ret.mp hk
    exact ⟨t, rfl, hd, ha⟩
  · intro ⟨t, htr, hd, ha⟩
    subst htr
    exact .step hd ha (.stop _ _)

/-- a read of a controller register at the head of a run -/
theorem runs_readl {α : Type} {r : MvReg} {f : BitVec 32 → Code α} {a : α}
    (h : Runs (env w d) (ask (.readl r) >>= f) s tr a s') :
    ∃ t tr', tr = Looked.look t r :: tr' ∧ d s t ∧ Runs (env w d) (f (t.regs r)) t tr' a s' := by
  obtain ⟨t, v, u, tr', rfl, hd, ⟨hv, hu⟩, hk⟩ := runs_op.mp h
  subst hv hu
  exact ⟨_, tr', rfl, hd, hk⟩

theorem runs_look {α : Type} {f : Option Nat → Code α} {a : α}
    (h : Runs (env w d) (do
      let causeLow ← ask (.readl .mainCauseLow)
      let maskLow ← ask (.readl .cpu0MaskLow)
      let causeHigh ← ask (.readl .mainCauseHigh)
      let maskHigh ← ask (.readl .cpu0MaskHigh)
      f (pick (causeLow &&& maskLow) (causeHigh &&& maskHigh))) s tr a s') :
    ∃ (k : Looked d s) (tr' : List Ev), tr = k.events ++ tr' ∧
      Runs (env w d) (f (pick k.low k.high)) k.atMaskHigh tr' a s' := by
  obtain ⟨t1, tr1, rfl, h1, h⟩ := runs_readl h
  obtain ⟨t2, tr2, rfl, h2, h⟩ := runs_readl h
  obtain ⟨t3, tr3, rfl, h3, h⟩ := runs_readl h
  obtain ⟨t4, tr4, rfl, h4, h⟩ := runs_readl h
  exact ⟨⟨t1, t2, t3, t4, h1, h2, h3, h4⟩, tr4, rfl, h⟩

/-- what the demultiplexer does with the bit it picks -/
def servePicked : Option Nat → Code Bool
  | none => pure false
  | some bit => do
    dispatchBit bit
    pure true

/-- the demultiplexer picks a source that it has seen, or has seen none -/
theorem runs_mv64340IrqDispatch {served : Bool}
    (h : Runs (env w d) mv64340IrqDispatch s tr served s') :
    ∃ (k : Looked d s) (tr' : List Ev), tr = k.events ++ tr' ∧
      ((served = false ∧ (∀ b, k.seen b = false) ∧ tr' = [] ∧ k.atMaskHigh = s') ∨
        (served = true ∧ ∃ b, k.seen b = true ∧
          Runs (env w d) (dispatchBit b.val) k.atMaskHigh tr' () s')) := by
  obtain ⟨k, tr', htr, hk⟩ := runs_look (f := servePicked) h
  refine ⟨k, tr', htr, ?_⟩
  cases hp : pick k.low k.high with
  | none =>
    rw [hp] at hk
    obtain ⟨rfl, rfl, rfl⟩ := runs_ret.mp hk
    exact .inl ⟨rfl, pick_none hp, rfl, rfl⟩
  | some n =>
    rw [hp] at hk
    obtain ⟨b, rfl, hb⟩ := word_pick hp
    obtain ⟨tr1, _, s1, tr2, rfl, h1, h2⟩ := runs_bind.mp hk
    obtain ⟨rfl, rfl, rfl⟩ := runs_ret.mp h2
    rw [List.append_nil]
    exact .inr ⟨rfl, b, hb, h1⟩

/-- **Every call ends in one of the five ways.** -/
theorem runs_outcome (h : Runs (env w d) platIrqDispatch s tr () s') : Outcome w d s tr s' := by
  obtain ⟨s1, st, u1, tr1, htr1, h1, ⟨hst, hu1⟩, hk1⟩ := runs_op.mp h
  obtain ⟨s2, c, u2, tr2, htr2, h2, ⟨hc, hu2⟩, hk2⟩ := runs_op.mp hk1
  subst htr1 htr2 hst hu1 hu2
  let p : Sampled w d s := ⟨_, _, c, h1, h2, hc⟩
  have h : Runs (env w d) (dispatchPending p.word) p.atCause tr2 () s' := hk2
  have h7 : p.word &&& causefIP 7 = 0 ↔ p.pending 7 = false := by
    rw [← p.getLsbD_word]
    exact and_bit_eq_zero p.word _ (by decide)
  have hcas := and_cascade_eq_zero p.word
  simp only [p.getLsbD_word] at hcas
  unfold dispatchPending at h
  by_cases ht : p.pending 7 = true
  · rw [if_pos (by rw [Ne, h7, ht]; decide)] at h
    obtain ⟨t, rfl, hd, ha⟩ := runs_ask.mp h
    exact .timer p ht hd ha
  have ht : p.pending 7 = false := Bool.eq_false_iff.mpr ht
  rw [if_neg (not_not_intro (h7.mpr ht))] at h
  split at h
  · rename_i hip
    have hany : ∃ ip ∈ cascadeLines, p.pending ip = true := by
      by_contra hno
      push Not at hno
      exact hip (hcas.mpr fun ip hm => Bool.eq_false_iff.mpr (hno ip hm))
    obtain ⟨trA, served, s3, trB, rfl, hA, hB⟩ := runs_bind.mp h
    obtain ⟨k, tr', rfl, hk⟩ := runs_mv64340IrqDispatch hA
    obtain ⟨rfl, hnone, rfl, rfl⟩ | ⟨rfl, b, hb, hk⟩ := hk
    · rw [List.append_nil]
      exact .runaway p k ht hany hnone hB
    · obtain ⟨rfl, -, rfl⟩ := runs_ret.mp hB
      rw [List.append_nil]
      obtain ⟨t, claimed, u, tr1, htr, hd, ⟨hc, hu⟩, hrest⟩ := runs_op.mp hk
      subst htr hu
      cases claimed with
      | false => exact .unclaimed p k b ht hany hb hd hc.symm hrest
      | true =>
        obtain ⟨u, rfl, hd', ha⟩ := runs_ask.mp hrest
        exact .claimed p k b ht hany hb hd hc.symm hd' ha
  · rename_i hip
    obtain ⟨t, rfl, hd, ha⟩ := runs_ask.mp h
    obtain rfl : s' = t := ha
    exact .spurious p ht (hcas.mp (not_not.mp hip)) hd

theorem maskReg_ne_causeReg (b c : Nat) : causeReg c ≠ maskReg b := by
  unfold causeReg maskReg
  split <;> split <;> decide

theorem asserted_eq (s : Machine) (b : Fin 64) :
    s.asserted b = word (s.regs .mainCauseLow) (s.regs .mainCauseHigh) b := by
  unfold Machine.asserted causeReg word
  split <;> rfl

theorem unmasked_eq (s : Machine) (b : Fin 64) :
    s.unmasked b = word (s.regs .cpu0MaskLow) (s.regs .cpu0MaskHigh) b := by
  unfold Machine.unmasked maskReg word
  split <;> rfl

/-! ## masking a source -/

theorem held_free (s s' : Machine) (h : held s s') : Free s s' := by
  obtain rfl : s' = s := h
  exact ⟨rfl, fun _ => rfl, rfl⟩

theorem wordBit_getLsbD (b : Fin 64) (i : Nat) :
    (wordBit b).getLsbD i = decide (b.val % 32 = i) := by
  have hb : b.val &&& 31 = b.val % 32 := Nat.and_two_pow_sub_one_eq_mod b.val 5
  rw [wordBit, hb]
  exact getLsbD_bit _ i (Nat.mod_lt _ (by omega))

/-- the machine after `maskOff b` -/
def Machine.maskOff (s : Machine) (b : Fin 64) : Machine :=
  s.write (maskReg b) (s.regs (maskReg b) &&& ~~~ wordBit b)

theorem maskOff_regs (s : Machine) (b : Fin 64) (r : MvReg) : (s.maskOff b).regs r =
    if r = maskReg b then s.regs (maskReg b) &&& ~~~ wordBit b else s.regs r := rfl

/-- no register bit changes but the mask bit of the source -/
theorem maskOff_getLsbD (s : Machine) (b : Fin 64) (r : MvReg) (i : Nat)
    (h : ((s.maskOff b).regs r).getLsbD i ≠ (s.regs r).getLsbD i) :
    r = maskReg b ∧ i = b.val % 32 := by
  rw [maskOff_regs] at h
  by_cases hr : r = maskReg b
  · subst hr
    refine ⟨rfl, ?_⟩
    by_contra hi
    apply h
    have hb : (wordBit b).getLsbD i = false := by
      rw [wordBit_getLsbD]
      exact decide_eq_false fun h => hi h.symm
    rw [if_pos rfl, BitVec.getLsbD_and, BitVec.getLsbD_not, hb]
    by_cases hlt : i < 32
    · rw [decide_eq_true hlt]
      simp
    · simp [BitVec.getLsbD_of_ge _ i (by omega : 32 ≤ i)]
  · rw [if_neg hr] at h
    exact absurd rfl h

theorem maskOff_asserted (s : Machine) (b c : Fin 64) :
    (s.maskOff b).asserted c = s.asserted c := by
  simp [Machine.maskOff, Machine.write, Machine.asserted, maskReg_ne_causeReg]

theorem maskReg_mod_inj {b c : Fin 64} (h : maskReg c = maskReg b)
    (hm : c.val % 32 = b.val % 32) : c = b := by
  unfold maskReg at h
  apply Fin.ext
  split at h <;> split at h <;> first | omega | cases h

theorem maskOff_unmasked (s : Machine) (b c : Fin 64) :
    (s.maskOff b).unmasked c = (s.unmasked c && decide (c ≠ b)) := by
  by_cases hc : c = b
  · subst hc
    have hlt : c.val % 32 < 32 := Nat.mod_lt _ (by omega)
    simp [Machine.maskOff, Machine.write, Machine.unmasked, wordBit_getLsbD]
  · have hsame : (s.maskOff b).unmasked c = s.unmasked c := by
      by_contra hne
      obtain ⟨hr, hi⟩ := maskOff_getLsbD s b (maskReg c) _ hne
      exact hc (maskReg_mod_inj hr hi)
    simp [hsame, hc]

theorem maskOff_serviceable (s : Machine) (b : Fin 64)
    (h : (s.maskOff b).serviceable = true) : s.serviceable = true := by
  obtain ⟨c, hc⟩ := of_decide_eq_true h
  rw [maskOff_asserted, maskOff_unmasked] at hc
  refine decide_eq_true ⟨c, ?_⟩
  cases ha : s.asserted c <;> cases hu : s.unmasked c <;> simp_all

theorem runs_maskOff (hd : ∀ s s', d s s' → Free s s') (b : Fin 64)
    (h : Runs (env w d) (maskOff b.val) s tr () s') :
    ∃ t u, tr = [Looked.look t (maskReg b),
        ⟨u, .writel (u.regs (maskReg b) &&& ~~~ wordBit b) (maskReg b), (), u.maskOff b⟩] ∧
      d s t ∧ d t u ∧ s' = u.maskOff b := by
  obtain ⟨t, tr1, rfl, h1, hk⟩ := runs_readl h
  obtain ⟨u, rfl, h2, ha⟩ := runs_ask.mp hk
  have hsame : t.regs (maskReg b) = u.regs (maskReg b) := ((hd t u h2).mask b).symm
  rw [hsame] at ha ⊢
  obtain rfl : s' = u.maskOff b := ha
  exact ⟨t, u, rfl, h1, h2, rfl⟩

/-- `irq_mask` masks its source and no other -/
theorem runs_mv64340IrqMask (b : Fin 64)
    (h : Runs (env w held) (mv64340IrqMask (c2811MvIrqBase + b)) s tr () s') (c : Fin 64) :
    s'.unmasked c = (s.unmasked c && decide (c ≠ b)) := by
  rw [mv64340IrqMask, Nat.add_sub_cancel_left] at h
  obtain ⟨t, u, _, h1, h2, rfl⟩ := runs_maskOff held_free b h
  rw [maskOff_unmasked, (h2 : u = t), (h1 : t = s)]

/-- `irq_unmask` unmasks its source and no other -/
theorem runs_mv64340IrqUnmask (b : Fin 64)
    (h : Runs (env w held) (mv64340IrqUnmask (c2811MvIrqBase + b)) s tr () s') (c : Fin 64) :
    s'.unmasked c = (s.unmasked c || decide (c = b)) := by
  unfold mv64340IrqUnmask at h
  rw [Nat.add_sub_cancel_left] at h
  obtain ⟨t, tr1, rfl, rfl, hk⟩ := runs_readl h
  obtain ⟨u, rfl, rfl, ha⟩ := runs_ask.mp hk
  obtain rfl : s' = u.write (maskReg b) (u.regs (maskReg b) ||| wordBit b) := ha
  by_cases hreg : maskReg c = maskReg b
  · have hmod : decide (b.val % 32 = c.val % 32) = decide (c = b) := by
      apply decide_eq_decide.mpr
      exact ⟨fun hm => maskReg_mod_inj hreg hm.symm, fun hc => by rw [hc]⟩
    simp only [Machine.unmasked, Machine.write, hreg, if_true, BitVec.getLsbD_or,
      wordBit_getLsbD, hmod]
  · have hne : c ≠ b := by
      rintro rfl
      exact hreg rfl
    simp [Machine.unmasked, Machine.write, hreg, hne]

/-- the events in which an unclaimed source is masked and recorded -/
theorem runs_unclaimed (hd : ∀ s s', d s s' → Free s s') (b : Fin 64)
    (h : Runs (env w d) (do
      maskOff b.val
      ask (.setUnclaimed b)
      ask (.scheduleDelayedWork .mvUnclaimedWork 1)) s tr () s') :
    ∃ t u x y x', tr = [Looked.look t (maskReg b),
        ⟨u, .writel (u.regs (maskReg b) &&& ~~~ wordBit b) (maskReg b), (), u.maskOff b⟩,
        ⟨x, .setUnclaimed b, (), x'⟩, ⟨y, .scheduleDelayedWork .mvUnclaimedWork 1, (), s'⟩] ∧
      d s t ∧ d t u ∧ d (u.maskOff b) x ∧ d x' y ∧
      x' = { x with mvUnclaimed := x.mvUnclaimed ||| 1#64 <<< b.val } ∧
      s' = { y with scheduled := fun j => if j = .mvUnclaimedWork then true else y.scheduled j }
      := by
  obtain ⟨tr1, _, s1, tr2, rfl, hm, hk⟩ := runs_bind.mp h
  obtain ⟨t, u, rfl, h1, h2, rfl⟩ := runs_maskOff hd b hm
  obtain ⟨x, _, x', tr3, rfl, h3, ha, hk⟩ := runs_op.mp hk
  obtain ⟨y, rfl, h4, ha'⟩ := runs_ask.mp hk
  exact ⟨t, u, x, y, x', rfl, h1, h2, h3, h4, ha, ha'⟩

/-! ## masking the lines -/

theorem enabled_clear (s : Machine) (ip jp : Fin 8) :
    (s.clear (1#32 <<< (statusbIP0 + ip.val))).enabled jp =
      (s.enabled jp && decide (jp ≠ ip)) := by
  have hi : statusbIP0 + ip.val < 32 := by
    show 8 + ip.val < 32
    omega
  have hj : statusbIP0 + jp.val < 32 := by
    show 8 + jp.val < 32
    omega
  show (s.status &&& ~~~ (1#32 <<< (statusbIP0 + ip.val))).getLsbD (statusbIP0 + jp.val) = _
  rw [BitVec.getLsbD_and, BitVec.getLsbD_not, getLsbD_bit _ _ hi, decide_eq_true hj,
    Bool.true_and]
  have hne : decide (statusbIP0 + ip.val = statusbIP0 + jp.val) = decide (jp = ip) := by
    apply decide_eq_decide.mpr
    rw [Fin.ext_iff]
    omega
  rw [hne, decide_not]
  rfl

/-- the operations of the loop: lines of `ips` that are set in `pending` -/
def Masks (pending : BitVec 32) (ips : List (Fin 8)) (o : Op) : Prop :=
  ∃ ip ∈ ips, pending.getLsbD (causebIP + ip) = true ∧
    (o = .clearC0Status (1#32 <<< (statusbIP0 + ip.val)) ∨ o = .setRunaway ip)

theorem uses_runawayLoop (pending : BitVec 32) (ips : List (Fin 8)) :
    (runawayLoop pending ips).Uses (Masks pending ips) := by
  induction ips with
  | nil => trivial
  | cons ip ips ih =>
    have hrest : (runawayLoop pending ips).Uses (Masks pending (ip :: ips)) := by
      apply ih.mono
      intro o ⟨jp, hj, ho⟩
      exact ⟨jp, List.mem_cons_of_mem _ hj, ho⟩
    have hi : causebIP + ip.val < 32 := by
      show 8 + ip.val < 32
      omega
    unfold runawayLoop
    split
    · exact hrest
    · rename_i hbit
      rw [and_bit_eq_zero _ _ hi, Bool.not_eq_false] at hbit
      exact ⟨⟨ip, List.mem_cons_self .., hbit, .inl rfl⟩, fun _ =>
        ⟨⟨ip, List.mem_cons_self .., hbit, .inr rfl⟩, fun _ => hrest⟩⟩

/-- a line that is disabled stays so -/
theorem runawayLoop_disabled (hd : ∀ s s', d s s' → Free s s') (pending : BitVec 32)
    (ips : List (Fin 8)) (ip : Fin 8) (h : Runs (env w d) (runawayLoop pending ips) s tr () s')
    (hs : s.enabled ip = false) :
    (∀ e ∈ tr, e.pre.enabled ip = false) ∧ s'.enabled ip = false := by
  have hstable : Stable (env w d) fun t => t.enabled ip = false := by
    intro t u ht hu
    show u.status.getLsbD _ = false
    rw [(hd t u hu).status]
    exact ht
  have hkeeps : Keeps (env w d) (fun e => e.pre.enabled ip = false) (Masks pending ips)
      fun t => t.enabled ip = false := by
    intro t o r u ⟨jp, _, _, ho⟩ ht ha
    refine ⟨ht, ?_⟩
    rcases ho with rfl | rfl
    · obtain rfl : u = t.clear _ := ha
      rw [enabled_clear, ht, Bool.false_and]
    · obtain rfl : u = { t with cascadeRunawayMask := _ } := ha
      exact ht
  exact wp_runs (wp_keeps hstable hkeeps (uses_runawayLoop pending ips) hs) h

theorem runawayLoop_masks (pending : BitVec 32) (ips : List (Fin 8))
    (h : Runs (env w d) (runawayLoop pending ips) s tr () s') :
    ∀ e ∈ tr, Masks pending ips e.op :=
  (wp_runs (wp_keeps (P := fun _ => True) (G := fun e => Masks pending ips e.op)
    (fun _ _ _ _ => trivial) (fun _ o _ _ ho _ _ => ⟨ho, trivial⟩)
    (uses_runawayLoop pending ips) trivial) h).1

/-- the event clears the line's bit of `Status` -/
def Clears (ip : Fin 8) (e : Ev) : Prop :=
  ∃ set, e.op = .clearC0Status set ∧ set.getLsbD (statusbIP0 + ip) = true

theorem not_clears {ip : Fin 8} {e : Ev} (h : ∀ set, e.op ≠ .clearC0Status set) :
    ¬Clears ip e := fun ⟨set, hop, _⟩ => h set hop

theorem clears_line {ip jp : Fin 8} {e : Ev}
    (he : e.op = .clearC0Status (1#32 <<< (statusbIP0 + jp.val))) (hc : Clears ip e) : ip = jp := by
  obtain ⟨set, hop, hset⟩ := hc
  rw [he] at hop
  obtain rfl := Op.clearC0Status.inj hop
  have hlt : statusbIP0 + jp.val < 32 := by
    show 8 + jp.val < 32
    omega
  rw [getLsbD_bit _ _ hlt, decide_eq_true_iff] at hset
  apply Fin.ext
  omega

theorem clears_self {ip : Fin 8} {e : Ev}
    (he : e.op = .clearC0Status (1#32 <<< (statusbIP0 + ip.val))) : Clears ip e := by
  refine ⟨_, he, ?_⟩
  have hlt : statusbIP0 + ip.val < 32 := by
    show 8 + ip.val < 32
    omega
  rw [getLsbD_bit _ _ hlt]
  exact decide_eq_true rfl

/-- the events of the loop that masks lines, seen from one line -/
theorem clears_of_masks {pending : BitVec 32} {ips : List (Fin 8)} {ip : Fin 8} {e : Ev}
    (h : Masks pending ips e.op) (hc : Clears ip e) :
    ip ∈ ips ∧ pending.getLsbD (causebIP + ip) = true := by
  obtain ⟨jp, hj, hp, ho | ho⟩ := h
  · obtain rfl := clears_line ho hc
    exact ⟨hj, hp⟩
  · refine absurd hc (not_clears ?_)
    rw [ho]
    exact nofun

/-- between `s` and `s'` the event `e` and no other masks the line `ip`, which is enabled up to
there as it is in `s` -/
structure MasksOnce (s : Machine) (ip : Fin 8) (tr1 : List Ev) (e : Ev) (tr2 : List Ev)
    (s' : Machine) : Prop where
  op : e.op = .clearC0Status (1#32 <<< (statusbIP0 + ip.val))
  before : ∀ e' ∈ tr1 ++ [e], e'.pre.enabled ip = s.enabled ip
  after : ∀ e' ∈ tr2, e'.pre.enabled ip = false
  only : ∀ e' ∈ tr1 ++ tr2, ¬Clears ip e'
  final : s'.enabled ip = false

theorem runs_runawayLoop (hd : ∀ s s', d s s' → Free s s') (pending : BitVec 32)
    (ips : List (Fin 8)) (hnd : ips.Nodup)
    (h : Runs (env w d) (runawayLoop pending ips) s tr () s') (ip : Fin 8) (hip : ip ∈ ips)
    (hp : pending.getLsbD (causebIP + ip) = true) :
    ∃ tr1 e tr2, tr = tr1 ++ e :: tr2 ∧ MasksOnce s ip tr1 e tr2 s' := by
  induction ips generalizing s tr with
  | nil => cases hip
  | cons jp ips ih =>
    have hj : causebIP + jp.val < 32 := by
      show 8 + jp.val < 32
      omega
    obtain ⟨hjp, hnd⟩ := List.nodup_cons.mp hnd
    unfold runawayLoop at h
    split at h
    · rename_i hbit
      rw [and_bit_eq_zero _ _ hj] at hbit
      have hne : ip ≠ jp := by
        rintro rfl
        rw [hp] at hbit
        cases hbit
      exact ih hnd h (List.mem_of_ne_of_mem hne hip)
    · obtain ⟨t, _, t', tr1, htr1, h1, ha1, hk1⟩ := runs_op.mp h
      obtain ⟨u, _, u', tr2, htr2, h2, ha2, hk2⟩ := runs_op.mp hk1
      subst htr1 htr2
      have ht : t.enabled ip = s.enabled ip := by
        show t.status.getLsbD _ = _
        rw [(hd s t h1).status]
        rfl
      have hu : u.enabled ip = (s.enabled ip && decide (ip ≠ jp)) := by
        show u.status.getLsbD _ = _
        rw [(hd t' u h2).status, ← ht, ← enabled_clear]
        obtain rfl : t' = t.clear _ := ha1
        rfl
      have hu' : u'.enabled ip = u.enabled ip := by
        obtain rfl : u' = { u with cascadeRunawayMask := _ } := ha2
        rfl
      by_cases hne : ip = jp
      · subst hne
        simp only [ne_eq, not_true_eq_false, decide_false, Bool.and_false] at hu
        obtain ⟨hrest, hfinal⟩ := runawayLoop_disabled hd pending ips ip hk2 (hu'.trans hu)
        refine ⟨[], _, _, rfl, rfl, ?_, ?_, ?_, hfinal⟩
        · intro e he
          obtain rfl := List.mem_singleton.mp he
          exact ht
        · intro e he
          rcases List.mem_cons.mp he with rfl | he
          · exact hu
          · exact hrest e he
        · intro e he
          rcases List.mem_cons.mp he with rfl | he
          · exact not_clears nofun
          · intro hc
            exact hjp (clears_of_masks (runawayLoop_masks pending ips hk2 e he) hc).1
      · simp only [ne_eq, hne, not_false_eq_true, decide_true, Bool.and_true] at hu
        obtain ⟨tra, e, trb, rfl, hop, hbefore, hafter, honly, hfinal⟩ :=
          ih hnd hk2 (List.mem_of_ne_of_mem hne hip)
        refine ⟨_ :: _ :: tra, e, trb, rfl, hop, ?_, hafter, ?_, hfinal⟩
        intro e' he
        rcases List.mem_cons.mp he with rfl | he
        · exact ht
        rcases List.mem_cons.mp he with rfl | he
        · exact hu
        · exact (hbefore e' he).trans (hu'.trans hu)
        · intro e' he
          rcases List.mem_cons.mp he with rfl | he
          · exact fun hc => hne (clears_line rfl hc)
          rcases List.mem_cons.mp he with rfl | he
          · exact not_clears nofun
          · exact honly e' he

end Irq
