import Relicnos.Irq.Outcome
import Relicnos.Irq.Script
import Relicnos.Interact.Series
import Mathlib.Data.Fintype.Card

/-!
# Dispatch makes progress

A source that nobody has claimed is masked when it is met, and a line with nothing serviceable
behind it is masked too.  So while the sources are held, a call that runs no claimed handler
lowers `load`: the unclaimed sources that are asserted and unmasked, and the lines of the
demultiplexer that are asserted and enabled.

* `load_maskOff`, `load_runaway`   what masking does to the load;
* `call_lowers_load`                one call;
* `call_masks_one`                  no other mask bit is touched;
* `dispatch_progresses`             the result.
-/

set_option linter.unusedVariables false

namespace Irq
open Interact

variable {w : Wiring} {d : Machine → Machine → Prop} {s s' : Machine} {tr : List Ev}

/-! ## the measure -/

/-- sources that are served by masking them -/
def unclaimedSources (s : Machine) : Finset (Fin 64) :=
  Finset.univ.filter fun b => s.asserted b && s.unmasked b && !s.claimed b

def assertedLines (w : Wiring) (s : Machine) : Finset (Fin 8) :=
  Finset.univ.filter fun ip => ip ∈ cascadeLines ∧ s.enabled ip = true ∧ w.level s ip = true

def load (w : Wiring) (s : Machine) : Nat :=
  (unclaimedSources s).card + (assertedLines w s).card

theorem load_le (w : Wiring) (s : Machine) : load w s ≤ 69 := by
  have h1 : (unclaimedSources s).card ≤ 64 := Finset.card_le_univ _
  have h2 : (assertedLines w s).card ≤ (Finset.univ.filter fun ip => ip ∈ cascadeLines).card := by
    apply Finset.card_le_card
    intro ip hip
    rw [Finset.mem_filter]
    exact ⟨Finset.mem_univ _, (Finset.mem_filter.mp hip).2.1⟩
  have h3 : (Finset.univ.filter fun ip => ip ∈ cascadeLines).card = 5 := by decide
  unfold load
  omega

/-- a line of the demultiplexer is pending, and the timer is not -/
structure Ready (w : Wiring) (s : Machine) : Prop where
  line : ∃ ip ∈ cascadeLines, (s.enabled ip && w.level s ip) = true
  timer : (s.enabled 7 && w.level s 7) = false

theorem not_ready_of_load {w : Wiring} {s : Machine} (h : load w s = 0) : ¬Ready w s := by
  intro hr
  obtain ⟨ip, hm, hp⟩ := hr.line
  have hmem : ip ∈ assertedLines w s := by
    rw [assertedLines, Finset.mem_filter]
    exact ⟨Finset.mem_univ _, hm, Bool.and_eq_true_iff.mp hp⟩
  have hpos := Finset.card_pos.mpr ⟨ip, hmem⟩
  unfold load at h
  omega

/-- masking an unclaimed source that is asserted and unmasked lowers the load -/
theorem load_maskOff (w : Wiring) (s : Machine) (b : Fin 64) (ha : s.asserted b = true)
    (hu : s.unmasked b = true) (hc : s.claimed b = false) : load w (s.maskOff b) < load w s := by
  have hsrc : unclaimedSources (s.maskOff b) ⊂ unclaimedSources s := by
    rw [Finset.ssubset_iff_of_subset]
    · refine ⟨b, ?_, ?_⟩
      · simp [unclaimedSources, ha, hu, hc]
      · simp [unclaimedSources, maskOff_unmasked]
    · intro c
      have hcl : (s.maskOff b).claimed c = s.claimed c := rfl
      simp only [unclaimedSources, Finset.mem_filter, maskOff_asserted, maskOff_unmasked, hcl]
      simp only [Bool.and_eq_true]
      tauto
  have hlines : assertedLines w (s.maskOff b) ⊆ assertedLines w s := by
    intro ip hip
    rw [assertedLines, Finset.mem_filter] at hip ⊢
    obtain ⟨h0, hm, he, hl⟩ := hip
    refine ⟨h0, hm, he, ?_⟩
    unfold Wiring.level at hl ⊢
    split at hl
    · rename_i hdr
      rw [if_pos hdr]
      exact maskOff_serviceable s b hl
    · rename_i hdr
      rw [if_neg hdr]
      exact hl
  have h1 := Finset.card_lt_card hsrc
  have h2 := Finset.card_le_card hlines
  unfold load
  omega

/-- what the measure reads -/
structure SameSources (s s' : Machine) : Prop where
  regs : s'.regs = s.regs
  line : s'.line = s.line
  actions : s'.actions = s.actions

theorem SameSources.asserted {s s' : Machine} (h : SameSources s s') (b : Fin 64) :
    s'.asserted b = s.asserted b := by
  unfold Machine.asserted
  rw [h.regs]

theorem SameSources.unmasked {s s' : Machine} (h : SameSources s s') (b : Fin 64) :
    s'.unmasked b = s.unmasked b := by
  unfold Machine.unmasked
  rw [h.regs]

theorem SameSources.claimed {s s' : Machine} (h : SameSources s s') (b : Fin 64) :
    s'.claimed b = s.claimed b := by
  unfold Machine.claimed
  rw [h.actions]

theorem SameSources.level {s s' : Machine} (h : SameSources s s') (w : Wiring) (ip : Fin 8) :
    w.level s' ip = w.level s ip := by
  unfold Wiring.level Machine.serviceable
  simp only [h.asserted, h.unmasked, h.line]

theorem SameSources.unclaimedSources {s s' : Machine} (h : SameSources s s') :
    Irq.unclaimedSources s' = Irq.unclaimedSources s := by
  unfold Irq.unclaimedSources
  simp only [h.asserted, h.unmasked, h.claimed]

/-- the lines that were pending are disabled -/
theorem load_runaway (w : Wiring) {s s' : Machine} (h : SameSources s s')
    (hmono : ∀ ip, s'.enabled ip = true → s.enabled ip = true) (ip : Fin 8)
    (hip : ip ∈ assertedLines w s) (hoff : s'.enabled ip = false) : load w s' < load w s := by
  have hlines : assertedLines w s' ⊂ assertedLines w s := by
    rw [Finset.ssubset_iff_of_subset]
    · refine ⟨ip, hip, ?_⟩
      simp [assertedLines, hoff]
    · intro jp hjp
      rw [assertedLines, Finset.mem_filter, h.level] at hjp
      rw [assertedLines, Finset.mem_filter]
      exact ⟨hjp.1, hjp.2.1, hmono jp hjp.2.2.1, hjp.2.2.2⟩
  have h1 := Finset.card_lt_card hlines
  unfold load
  rw [h.unclaimedSources]
  omega

/-! ## one call -/

theorem runs_runaway_held (pending : BitVec 32)
    (h : Runs (env w held) (mv64340CascadeRunaway pending) s tr () s') :
    SameSources s s' ∧ ∀ ip, s'.enabled ip = true → s.enabled ip = true := by
  let P : Machine → Prop := fun t =>
    SameSources s t ∧ ∀ ip, t.enabled ip = true → s.enabled ip = true
  have hstable : Stable (env w held) P := by
    intro t u ht hu
    obtain rfl : u = t := hu
    exact ht
  have hkeeps : Keeps (env w held) (fun _ => True) (Masks pending cascadeLines) P := by
    intro t o r u ⟨jp, _, _, ho⟩ ⟨hs, hm⟩ ha
    refine ⟨trivial, ?_⟩
    rcases ho with rfl | rfl
    · obtain rfl : u = t.clear _ := ha
      refine ⟨⟨hs.regs, hs.line, hs.actions⟩, ?_⟩
      intro ip hip
      rw [enabled_clear, Bool.and_eq_true_iff] at hip
      exact hm ip hip.1
    · obtain rfl : u = { t with cascadeRunawayMask := _ } := ha
      exact ⟨⟨hs.regs, hs.line, hs.actions⟩, hm⟩
  exact (wp_runs (wp_keeps hstable hkeeps (uses_runawayLoop pending cascadeLines)
    ⟨⟨rfl, rfl, rfl⟩, fun _ h => h⟩) h).2

theorem seen_held (k : Looked held s) (b : Fin 64) :
    k.seen b = (s.asserted b && s.unmasked b) ∧ k.atMaskHigh = s := by
  obtain ⟨s1, s2, s3, s4, rfl, rfl, rfl, rfl⟩ := k
  refine ⟨?_, rfl⟩
  rw [asserted_eq, unmasked_eq, ← word_and]
  rfl

/-- the handler of a claimed source that is asserted and unmasked runs -/
def Served (s : Machine) (tr : List Ev) : Prop :=
  ∃ b, s.claimed b = true ∧ s.asserted b = true ∧ s.unmasked b = true ∧
    ∃ e ∈ tr, e.op = .doIRQ (c2811MvIrqBase + b)

/-- **A call that finds a line pending runs a claimed handler or lowers the load.** -/
theorem call_lowers_load (h : Runs (env w held) platIrqDispatch s tr () s') (hs : Ready w s) :
    Served s tr ∨ load w s' < load w s := by
  have hp : ∀ (p : Sampled w held s) ip, p.pending ip = (s.enabled ip && w.level s ip) := by
    rintro ⟨s1, s2, c, rfl, rfl, hc⟩ ip
    rfl
  have hat : ∀ p : Sampled w held s, p.atCause = s := by
    rintro ⟨s1, s2, c, rfl, rfl, hc⟩
    rfl
  cases runs_outcome h with
  | timer p h7 hd hh =>
    rw [hp, hs.timer] at h7
    cases h7
  | spurious p h7 hn hd =>
    obtain ⟨ip, hm, hip⟩ := hs.line
    have hno := hn ip hm
    rw [hp, hip] at hno
    cases hno
  | @claimed p k b t u s' h7 hany hb hd hc hd' hh =>
    obtain ⟨hseen, hk⟩ := seen_held k b
    rw [hb, hat p] at hseen
    obtain ⟨ha, hu⟩ := Bool.and_eq_true_iff.mp hseen.symm
    have ht : t = s := hd.trans (hk.trans (hat p))
    rw [ht] at hc
    refine .inl ⟨b, hc, ha, hu, ⟨u, .doIRQ (c2811MvIrqBase + b), (), s'⟩, ?_, rfl⟩
    simp
  | @unclaimed p k b t s' tr h7 hany hb hd hc hrun =>
    obtain ⟨hseen, hk⟩ := seen_held k b
    rw [hb, hat p] at hseen
    obtain ⟨ha, hu⟩ := Bool.and_eq_true_iff.mp hseen.symm
    have ht : t = s := hd.trans (hk.trans (hat p))
    rw [ht] at hrun hc
    obtain ⟨t1, u, x, y, x', htr, h1, h2, h3, h4, hx', hs'⟩ := runs_unclaimed held_free b hrun
    have hu' : u = s := h2.trans h1
    subst hu'
    have hload : load w s' = load w (u.maskOff b) := by
      rw [hs', (h4 : y = x'), hx', (h3 : x = u.maskOff b)]
      rfl
    rw [hload]
    exact .inr (load_maskOff w u b ha hu hc)
  | @runaway p k s' tr h7 hany hn hrun =>
    obtain ⟨hseen, hk⟩ := seen_held k 0
    rw [hk, hat p] at hrun
    obtain ⟨ip, hm, hip⟩ := hany
    have hword : p.word.getLsbD (causebIP + ip) = true := (p.getLsbD_word ip).trans hip
    obtain ⟨tr1, e, tr2, htr, honce⟩ :=
      runs_runawayLoop held_free p.word cascadeLines (by decide) hrun ip hm hword
    obtain ⟨hsame, hmono⟩ := runs_runaway_held p.word hrun
    rw [hp] at hip
    have hmem : ip ∈ assertedLines w s := by
      rw [assertedLines, Finset.mem_filter]
      exact ⟨Finset.mem_univ _, hm, Bool.and_eq_true_iff.mp hip⟩
    exact .inr (load_runaway w hsame hmono ip hmem honce.final)

/-! ## what a call masks -/

/-- a call selects at most one source, unclaimed; outside a handler it changes no bit of a
controller register but the mask bit of that source -/
def MasksOne (s : Machine) (tr : List Ev) : Prop :=
  ∃ sel : Option (Fin 64),
    (∀ b, sel = some b → s.claimed b = false ∧
      ∃ e ∈ tr, e.op = .irqHasAction (c2811MvIrqBase + b)) ∧
    ∀ e ∈ tr, (∀ irq, e.op ≠ .doIRQ irq) → ∀ r i,
      (e.post.regs r).getLsbD i ≠ (e.pre.regs r).getLsbD i →
        ∃ b, sel = some b ∧ r = maskReg b ∧ i = b.val % 32

/-- only a write and a handler change a register -/
theorem access_regs {o : Op} {r : Res o} (ha : access w s o r s')
    (hw : ∀ v r, o ≠ .writel v r) (hh : ∀ irq, o ≠ .doIRQ irq) : s'.regs = s.regs := by
  cases o with
  | writel v q => exact absurd rfl (hw v q)
  | doIRQ irq => exact absurd rfl (hh irq)
  | readC0Status | readC0Cause | readl _ | irqHasAction _ => rw [ha.2]
  | clearC0Status _ | setUnclaimed _ | setRunaway _ | scheduleDelayedWork _ _
  | spuriousInterrupt =>
    obtain rfl : s' = _ := ha
    rfl

theorem masksOne_of_no_write (ha : ∀ e ∈ tr, access w e.pre e.op e.res e.post)
    (hw : ∀ e ∈ tr, ∀ v r, e.op ≠ .writel v r) : MasksOne s tr := by
  refine ⟨none, nofun, ?_⟩
  intro e he hh r i hne
  rw [access_regs (ha e he) (hw e he) hh] at hne
  exact absurd rfl hne

theorem sampled_reads (p : Sampled w d s) : ∀ e ∈ p.events, ∀ v r, e.op ≠ .writel v r := by
  simp [Sampled.events]

theorem looked_reads (k : Looked d s) : ∀ e ∈ k.events, ∀ v r, e.op ≠ .writel v r := by
  simp [Looked.events, Looked.look]

theorem call_masks_one (h : Runs (env w Free) platIrqDispatch s tr () s') : MasksOne s tr := by
  have ha : ∀ e ∈ tr, access w e.pre e.op e.res e.post := h.mem_access
  cases runs_outcome h with
  | timer p h7 hd hh =>
    apply masksOne_of_no_write ha
    intro e he
    rcases List.mem_append.mp he with he | he
    · exact sampled_reads p e he
    · obtain rfl := List.mem_singleton.mp he
      exact nofun
  | spurious p h7 hn hd =>
    apply masksOne_of_no_write ha
    intro e he
    rcases List.mem_append.mp he with he | he
    · exact sampled_reads p e he
    · obtain rfl := List.mem_singleton.mp he
      exact nofun
  | claimed p k b h7 hany hb hd hc hd' hh =>
    apply masksOne_of_no_write ha
    intro e he
    rcases List.mem_append.mp he with he | he
    · exact sampled_reads p e he
    rcases List.mem_append.mp he with he | he
    · exact looked_reads k e he
    · simp only [List.mem_cons, List.not_mem_nil, or_false] at he
      rcases he with rfl | rfl
      · exact nofun
      · exact nofun
  | @unclaimed p k b t s' tr' h7 hany hb hd hc hrun =>
    obtain ⟨t1, u, x, y, x', htr, h1, h2, h3, h4, hx', hs'⟩ :=
      runs_unclaimed (fun _ _ h => h) b hrun
    have hactions : t.actions = s.actions := by
      rw [hd.actions, k.drift4.actions, k.drift3.actions, k.drift2.actions, k.drift1.actions,
        p.drift2.actions, p.drift1.actions]
    refine ⟨some b, ?_, ?_⟩
    · intro c hcb
      obtain rfl := Option.some.inj hcb
      refine ⟨?_, ⟨t, .irqHasAction (c2811MvIrqBase + b), false, t⟩, ?_, rfl⟩
      · show s.actions _ = false
        rw [← hactions]
        exact hc
      · simp
    · intro e he hh r i hne
      by_cases hw : ∀ v r, e.op ≠ .writel v r
      · rw [access_regs (ha e he) hw hh] at hne
        exact absurd rfl hne
      · subst htr
        rcases List.mem_append.mp he with he | he
        · exact absurd (sampled_reads p e he) hw
        rcases List.mem_append.mp he with he | he
        · exact absurd (looked_reads k e he) hw
        simp only [List.mem_cons, List.not_mem_nil, or_false] at he
        rcases he with rfl | rfl | rfl | rfl | rfl
        · exact absurd nofun hw
        · exact absurd nofun hw
        · exact ⟨b, rfl, maskOff_getLsbD u b r i hne⟩
        · exact absurd nofun hw
        · exact absurd nofun hw
  | runaway p k h7 hany hn hrun =>
    apply masksOne_of_no_write ha
    have hops := runawayLoop_masks p.word cascadeLines hrun
    intro e he v r
    rcases List.mem_append.mp he with he | he
    · exact sampled_reads p e he v r
    rcases List.mem_append.mp he with he | he
    · exact looked_reads k e he v r
    · obtain ⟨ip, _, _, ho | ho⟩ := hops e he
      · rw [ho]
        exact nofun
      · rw [ho]
        exact nofun

/-- **Dispatch makes progress.**  While the sources are held, a call that finds a line pending
and not the timer runs a claimed handler or lowers the load, so at most 69 such calls in a row
run none, and after 69 no line is left.  Whatever the sources do, a call masks at most one
source, and that one is unclaimed. -/
theorem dispatch_progresses (w : Wiring) :
    (∀ s tr s', Runs (env w held) platIrqDispatch s tr () s' → Ready w s →
      Served s tr ∨ load w s' < load w s) ∧
    (∀ s cs s', Series (env w held) held platIrqDispatch s cs s' →
      (∀ c ∈ cs, Ready w c.pre ∧ ¬Served c.pre c.trace) →
        cs.length + load w s' ≤ load w s ∧ cs.length ≤ 69 ∧ (cs.length = 69 → ¬Ready w s')) ∧
    (∀ s tr s', Runs (env w Free) platIrqDispatch s tr () s' → MasksOne s tr) := by
  refine ⟨fun s tr s' h hs => call_lowers_load h hs, ?_, fun s tr s' h => call_masks_one h⟩
  intro s cs s' h hcs
  have hcount : cs.length + load w s' ≤ load w s := by
    apply h.countdown (load w)
    · intro t u hu
      obtain rfl : u = t := hu
      exact le_rfl
    · intro c hc
      obtain ⟨_, hr⟩ := h.mem_runs c hc
      obtain ⟨hready, hnot⟩ := hcs c hc
      exact (call_lowers_load hr hready).resolve_left hnot
  have hle := load_le w s
  refine ⟨hcount, by omega, ?_⟩
  intro hlen
  exact not_ready_of_load (by omega)

/-- source 5 is asserted and nobody has claimed it, and so is line 3 -/
def unclaimedStart : Machine where
  status := 0xff00
  line ip := ip == 3
  regs
    | .mainCauseLow => 0x20
    | .cpu0MaskLow => 0x20
    | _ => 0
  actions _ := false
  mvUnclaimed := 0
  cascadeRunawayMask := 0
  scheduled _ := false

theorem not_served (h : ∀ b, s.claimed b = false) : ¬Served s tr := by
  intro ⟨b, hb, _⟩
  rw [h b] at hb
  cases hb

/-- the first call masks the source, the second one the line -/
theorem dispatch_progresses_twice : ∃ cs s', Series (env (idle none) held) held platIrqDispatch
    unclaimedStart cs s' ∧ cs.length = 2 ∧ load (idle none) unclaimedStart = 2 ∧
      load (idle none) s' = 0 := by
  let play := fun s => (still none).play 0 platIrqDispatch s
  let mid := (play unclaimedStart).2.1
  have h1 : Runs (env (idle none) held) platIrqDispatch unclaimedStart (play unclaimedStart).1 ()
      mid := (still none).play_runs 0 _ _ (by decide +kernel)
  have h2 : Runs (env (idle none) held) platIrqDispatch mid (play mid).1 () (play mid).2.1 :=
    (still none).play_runs 0 _ _ (by decide +kernel)
  have h : Series (env (idle none) held) held platIrqDispatch unclaimedStart _ _ :=
    .again rfl h1 (.again rfl h2 (.done _))
  have hload : load (idle none) unclaimedStart = 2 := by decide +kernel
  refine ⟨_, _, h, rfl, hload, ?_⟩
  have hcount := ((dispatch_progresses (idle none)).2.1 _ _ _ h ?_).1
  · rw [hload, List.length_cons, List.length_cons, List.length_nil] at hcount
    omega
  · intro c hc
    simp only [List.mem_cons, List.not_mem_nil, or_false] at hc
    rcases hc with rfl | rfl
    · exact ⟨⟨⟨3, by decide, by decide +kernel⟩, by decide +kernel⟩,
        not_served (by decide +kernel)⟩
    · exact ⟨⟨⟨3, by decide, by decide +kernel⟩, by decide +kernel⟩,
        not_served (by decide +kernel)⟩

end Irq
