import Relicnos.Nm32a.Driver
import Relicnos.Nm32a.World

/-!
# Rules for the service routine

The rules here say once what each part of `nm32a_service` does to the card, for every
configuration; the properties of whole runs are assembled from them.

* `wp_issue`          one operation after any interference;
* `wp_serviceGrant`   from the lock to the grant: an assertion `P` up to the acknowledge, an
                      assertion `A` after it, and what the registers have shown of the context;
* `wp_eoi`            an EOIR of the kind of the open context closes it;
* `Op.Look`           operations that only look.
-/

set_option linter.unusedVariables false

namespace Nm32a
open Interact

variable {c : Cfg} {E : Env Op Res World} {α β : Type} {G : Event Op Res World → Prop} {w : World}

/-! ## one operation -/

theorem wp_issueIn {P : World → Prop} {Q : α → World → Prop} {o : Op} {f : Res o → Drv α}
    (hE : E.Le c.card) (hs : Stable E P) (hp : P w)
    (h : ∀ w1 r w2, P w1 → c.Ready w1 → E.access w1 o r w2 →
      G ⟨w1, o, r, w2⟩ ∧ wp E G (f r) Q w2) : wp E G (issue o >>= f) Q w := by
  intro w1 hr r w2 ha
  exact h w1 r w2 (hs w w1 hp hr) (hE.rely _ _ hr).ready ha

theorem wp_issue {P : World → Prop} {Q : α → World → Prop} {o : Op} {f : Res o → Drv α}
    (hs : Stable c.card P) (hp : P w)
    (h : ∀ w1 r w2, P w1 → c.Ready w1 → c.access w1 o r w2 →
      G ⟨w1, o, r, w2⟩ ∧ wp c.card G (f r) Q w2) : wp c.card G (issue o >>= f) Q w :=
  wp_issueIn c.card.le_refl hs hp h

theorem wp_issue_last {P : World → Prop} {o : Op} {Q : Res o → World → Prop}
    (hs : Stable c.card P) (hp : P w)
    (h : ∀ w1 r w2, P w1 → c.Ready w1 → c.access w1 o r w2 → G ⟨w1, o, r, w2⟩ ∧ Q r w2) :
    wp c.card G (issue o) Q w := by
  intro w1 hr r w2 ha
  exact h w1 r w2 (hs w w1 hp hr) hr.ready ha

/-- operations that change no chip, no port and no grant -/
def Op.Look : Op → Prop
  | .crd _ reg => reg ≠ .RDR ∧ reg ≠ .RFOC
  | .params => True
  | .traceDec => True
  | .jiffies => True
  | .ratelimit => True
  | .lock => True
  | .shouldStop => True
  | .hang => True
  | _ => False

theorem access_look {o : Op} {r : Res o} {w' : World} (ho : o.Look) (h : c.access w o r w') :
    w'.hw = w.hw ∧ w'.line = w.line ∧ w'.granted = w.granted := by
  cases o with
  | crd j reg =>
    obtain ⟨c', hc, rfl⟩ := h
    have e : c' = w.hw j := by
      cases reg
      case RDR => exact absurd rfl ho.1
      case RFOC => exact absurd rfl ho.2
      case TIR => exact hc.1
      case RIR => exact hc.1
      case STK => exact hc.1
      case RISRl => exact hc.1
      all_goals exact hc
    subst e
    exact ⟨Function.update_eq_self _ _, rfl, rfl⟩
  | params =>
    obtain ⟨_, rfl⟩ := h
    exact ⟨rfl, rfl, rfl⟩
  | traceDec => subst h; exact ⟨rfl, rfl, rfl⟩
  | jiffies =>
    obtain ⟨_, rfl⟩ := h
    exact ⟨rfl, rfl, rfl⟩
  | ratelimit => subst h; exact ⟨rfl, rfl, rfl⟩
  | lock => subst h; exact ⟨rfl, rfl, rfl⟩
  | shouldStop => subst h; exact ⟨rfl, rfl, rfl⟩
  | hang => exact False.elim h
  | _ => exact False.elim ho

/-- the interference keeps the stacks -/
theorem Cfg.rely.stack {w w' : World} (h : c.rely w w') (j : Fin 8) :
    (w'.hw j).stack = (w.hw j).stack := by
  obtain ⟨req, more, _, he⟩ := h.chip j
  rw [he]

/-- an assertion about the stacks and the latest grant only -/
def OnStacks (P : World → Prop) : Prop :=
  ∀ w w', (∀ j, (w'.hw j).stack = (w.hw j).stack) → w'.granted = w.granted → P w → P w'

theorem OnStacks.stable {P : World → Prop} (h : OnStacks P) : Stable c.card P :=
  fun w w' hp hr => h w w' hr.stack hr.granted hp

/-! ## from the lock to the grant -/

/-- those of them that a pass over chip `j` may issue -/
def Op.Peek (j : Fin 8) : Op → Prop
  | .crd j' reg => j' = j ∧ reg ≠ .RDR ∧ reg ≠ .RFOC
  | o => o.Look

theorem Op.Peek.look {j : Fin 8} {o : Op} (h : o.Peek j) : o.Look := by
  cases o with
  | crd j' reg => exact h.2
  | _ => exact h

/-- those of them that a pass issues up to its grant -/
def Op.Ask (j : Fin 8) : Op → Prop
  | .crd j' reg => j' = j ∧ (reg = .TIR ∨ reg = .RIR)
  | .params => True
  | .traceDec => True
  | .lock => True
  | _ => False

theorem Op.Ask.peek {j : Fin 8} {o : Op} (h : o.Ask j) : o.Peek j := by
  cases o with
  | crd j' reg =>
    obtain ⟨hj, rfl | rfl⟩ := h
    · exact ⟨hj, nofun, nofun⟩
    · exact ⟨hj, nofun, nofun⟩
  | params => trivial
  | traceDec => trivial
  | lock => trivial
  | _ => exact False.elim h

theorem uses_serviceTrace (j : Fin 8) (pend : UInt8) : (serviceTrace pend).Uses (Op.Ask j) := by
  refine Prog.Uses.bind (Prog.uses_call _ |>.mpr trivial) ?_
  intro p
  refine Prog.Uses.ite ?_ trivial
  exact Prog.Uses.bind (Prog.uses_call _ |>.mpr trivial) (fun _ => trivial)

theorem uses_ackAddr (rir0 : UInt8) : (ackAddr rir0).Uses (· = .params) := by
  refine Prog.Uses.ite ?_ ?_ <;>
    exact Prog.Uses.bind (Prog.uses_call _ |>.mpr rfl) (fun _ => trivial)

/-- what the decision knows of the chip: the register it goes on with shows the context -/
def Shown (j : Fin 8) (g : Granted) (w : World) : Prop :=
  (g.rir0 ≠ 0 ∧ ∃ x, (w.hw j).openOf .rx = some x ∧ x.chan = chanOf g.rir0 ∧
      (g.rir0 &&& 0x0c = 0x0c ↔ x.good = true)) ∨
    (g.rir0 = 0 ∧ ∃ x rest, (w.hw j).stack = x :: rest ∧ x.kind = .tx ∧ x.chan = chanOf g.tir0)

/-- with one context open, it is that one -/
theorem Shown.single {j : Fin 8} {g : Granted} {w : World} (hs : Shown j g w)
    (h : (w.hw j).stack = [] ∨ ∃ x, (w.hw j).stack = [x]) : ∃ x, (w.hw j).stack = [x] ∧
      ((g.rir0 ≠ 0 ∧ x.kind = .rx ∧ x.chan = chanOf g.rir0 ∧
          (g.rir0 &&& 0x0c = 0x0c ↔ x.good = true)) ∨
        (g.rir0 = 0 ∧ x.kind = .tx ∧ x.chan = chanOf g.tir0)) := by
  rcases hs with ⟨h0, x, hx, hc, hg⟩ | ⟨h0, x, rest, hx, hk, hc⟩
  · have hk : x.kind = .rx := by simpa using List.find?_some hx
    have hmem := List.mem_of_find?_eq_some hx
    rcases h with h | ⟨y, h⟩
    · rw [h] at hmem
      exact absurd hmem List.not_mem_nil
    · rw [h, List.mem_singleton] at hmem
      subst hmem
      exact ⟨x, h, .inl ⟨h0, hk, hc, hg⟩⟩
  · rcases h with h | ⟨y, h⟩
    · rw [hx] at h
      cases h
    · rw [hx] at h
      cases h
      exact ⟨x, hx, .inr ⟨h0, hk, hc⟩⟩

/-- what `v`, read from the register of kind `k`, says about the open contexts -/
def Tells (ch : Chip) (k : Kind) (v : UInt8) : Prop :=
  (v &&& 0xC0 = 0x40 ∧ ∃ x, ch.openOf k = some x ∧ x.chan = chanOf v ∧
      (k = .rx → (v &&& 0x0c = 0x0c ↔ x.good = true))) ∨
    (v &&& 0xC0 ≠ 0x40 ∧ ch.openOf k = none)

theorem Tells.of_stack {ch ch' : Chip} {k : Kind} {v : UInt8} (h : Tells ch k v)
    (hs : ch'.stack = ch.stack) : Tells ch' k v := by
  unfold Tells Chip.openOf at *
  rwa [hs]

theorem irShows_tells {ch : Chip} {k : Kind} {v : UInt8} (h : ch.irShows k v) :
    Tells ch k v := by
  unfold Chip.irShows at h
  cases ho : ch.openOf k with
  | some x =>
    rw [ho] at h
    exact .inl ⟨h.1, x, ho, h.2.1.symm, h.2.2⟩
  | none =>
    rw [ho] at h
    refine .inr ⟨?_, ho⟩
    intro hv
    by_cases hq : ∃ y, ch.req k y = true
    · replace h : v &&& 0x80 ≠ 0 := by simpa only [if_pos hq] using h
      have e : v &&& 0x80 = (v &&& 0xC0) &&& 0x80 := by
        rw [UInt8.and_assoc]
        rfl
      rw [hv] at e
      exact h (e.trans (by decide))
    · replace h : v &&& 0xC0 = 0 := by simpa only [if_neg hq] using h
      rw [hv] at h
      exact absurd h (by decide)

/-- a chip without an open receive context has a transmit context on top, or none at all -/
theorem openOf_tx {ch : Chip} (h : ch.openOf .rx = none) :
    (ch.openOf .tx = none → ch.stack = []) ∧
      ∀ x, ch.openOf .tx = some x → ∃ rest, ch.stack = x :: rest ∧ x.kind = .tx := by
  unfold Chip.openOf at *
  cases hs : ch.stack with
  | nil => exact ⟨fun _ => rfl, fun x hx => by simp at hx⟩
  | cons y rest =>
    rw [hs, List.find?_cons] at h
    have hy : y.kind = .tx := by
      cases hk : y.kind with
      | rx => simp [hk] at h
      | tx => rfl
    rw [List.find?_cons, hy]
    refine ⟨fun hn => by simp at hn, ?_⟩
    intro x hx
    have e : y = x := by simpa using hx
    subst e
    exact ⟨rest, rfl, hy⟩

theorem grantDecision_shown {j : Fin 8} (tr : Bool) (tirc : UInt8) {tir1 rir1 : UInt8}
    (ht : Tells (w.hw j) .tx tir1) (hr : Tells (w.hw j) .rx rir1) :
    match grantDecision tr tirc tir1 rir1 with
    | none => (w.hw j).stack = []
    | some g => Shown j g w := by
  rcases hr with ⟨hrv, x, hx, hxc, hxg⟩ | ⟨hrv, hx⟩
  · have e : grantDecision tr tirc tir1 rir1 = some ⟨tr, tirc, rir1⟩ := by
      simp [grantDecision, hrv]
    rw [e]
    refine .inl ⟨?_, x, hx, hxc, hxg rfl⟩
    rintro h0
    have h0' : rir1 = 0 := h0
    rw [h0'] at hrv
    exact absurd hrv (by decide)
  · obtain ⟨hnone, hsome⟩ := openOf_tx hx
    rcases ht with ⟨htv, y, hy, hyc, _⟩ | ⟨htv, hy⟩
    · have e : grantDecision tr tirc tir1 rir1 = some ⟨tr, tir1, 0⟩ := by
        simp [grantDecision, hrv, htv]
      rw [e]
      obtain ⟨rest, hst, hk⟩ := hsome y hy
      exact .inr ⟨rfl, y, rest, hst, hk, hyc⟩
    · have e : grantDecision tr tirc tir1 rir1 = none := by
        simp [grantDecision, hrv, htv]
      rw [e]
      exact hnone hy

/-- **From the lock to the grant.**  `P` holds up to the acknowledge, which turns it into `A`;
`N` is what giving the lock back without a grant leaves. -/
theorem wp_serviceGrant {P A N : World → Prop} {j : Fin 8} (hE : E.Le c.card)
    (hP : Stable E P) (hPk : Keeps E G (Op.Ask j) P)
    (hA : Stable E A) (hAk : Keeps E G (Op.Ask j) A)
    (hack : ∀ w addr v w', P w → w.serving = j → c.Ready w → E.access w (.readb addr) v w' →
      G ⟨w, .readb addr, v, w'⟩ ∧ A w')
    (hidle : ∀ w w', P w → E.access w .unlock () w' → G ⟨w, .unlock, (), w'⟩ ∧ N w')
    (hnone : ∀ w w', A w → (w.hw j).stack = [] → E.access w .unlock () w' →
      G ⟨w, .unlock, (), w'⟩ ∧ N w') (hw : P w) :
    wp E G (serviceGrant j) (fun g w' => match g with
      | none => N w'
      | some g => A w' ∧ Shown j g w') w := by
  have hback : ∀ {w : World}, P w → wp E G (do hwUnlock; return none)
      (fun (g : Option Granted) w' => match g with
        | none => N w'
        | some g => A w' ∧ Shown j g w') w := by
    intro w h
    refine wp_issueIn hE hP h ?_
    intro w1 _ w2 h1 _ ha
    exact hidle w1 w2 h1 ha
  unfold serviceGrant
  refine wp_bind_keeps hP hPk (Prog.uses_call _ |>.mpr trivial) hw ?_
  intro _ w1 h1
  refine wp_bind_keeps hP hPk (Prog.uses_call _ |>.mpr ⟨rfl, .inl rfl⟩) h1 ?_
  intro tir0 w2 h2
  refine wp_bind_keeps hP hPk (Prog.uses_call _ |>.mpr ⟨rfl, .inr rfl⟩) h2 ?_
  intro rir0 w3 h3
  refine wp_bind_keeps hP hPk (uses_serviceTrace j _) h3 ?_
  intro tr w4 h4
  split
  · exact hback h4
  refine wp_bind_keeps hP hPk (Prog.uses_call _ |>.mpr ⟨rfl, .inl rfl⟩) h4 ?_
  intro tirc w5 h5
  refine wp_issueIn hE hP h5 ?_
  intro w6 rirc w7 h6 _ ha7
  obtain ⟨hg7, h7⟩ := hPk w6 (.crd j .RIR) rirc w7 ⟨rfl, .inr rfl⟩ h6 ha7
  refine ⟨hg7, ?_⟩
  have hj7 : w7.serving = j := by
    obtain ⟨c', _, rfl⟩ := hE.access _ _ _ _ ha7
    rfl
  split
  · exact hback h7
  have hPj : Stable E fun w => P w ∧ w.serving = j :=
    fun w w' hp hr => ⟨hP w w' hp.1 hr, (hE.rely _ _ hr).serving.trans hp.2⟩
  have hPjk : Keeps E G (· = .params) fun w => P w ∧ w.serving = j := by
    rintro w o r w' rfl hp ha
    obtain ⟨hg, h⟩ := hPk w .params r w' trivial hp.1 ha
    obtain ⟨_, rfl⟩ := hE.access _ _ _ _ ha
    exact ⟨hg, h, hp.2⟩
  refine wp_bind_keeps hPj hPjk (uses_ackAddr _) ⟨h7, hj7⟩ ?_
  intro addr w8 h8
  refine wp_issueIn hE hPj h8 ?_
  intro w9 ackv w10 h9 hr9 ha10
  obtain ⟨hg10, h10⟩ := hack w9 addr ackv w10 h9.1 h9.2 hr9 ha10
  refine ⟨hg10, ?_⟩
  refine wp_issueIn hE hA h10 ?_
  intro w11 tir1 w12 h11 _ ha12
  obtain ⟨hg12, h12⟩ := hAk w11 (.crd j .TIR) tir1 w12 ⟨rfl, .inl rfl⟩ h11 ha12
  refine ⟨hg12, ?_⟩
  have ht12 : Tells (w12.hw j) .tx tir1 := by
    obtain ⟨c', ⟨rfl, hs⟩, rfl⟩ := hE.access _ _ _ _ ha12
    exact (irShows_tells hs).of_stack (by simp [World.setChip])
  -- what TIR told is about the stack, which nobody changes before RIR is read
  have hAt : Stable E fun w => A w ∧ Tells (w.hw j) .tx tir1 :=
    fun w w' hp hr => ⟨hA w w' hp.1 hr, hp.2.of_stack ((hE.rely _ _ hr).stack j)⟩
  refine wp_issueIn hE hAt ⟨h12, ht12⟩ ?_
  intro w13 rir1 w14 h13 _ ha14
  obtain ⟨hg14, h14⟩ := hAk w13 (.crd j .RIR) rir1 w14 ⟨rfl, .inr rfl⟩ h13.1 ha14
  refine ⟨hg14, ?_⟩
  obtain ⟨c', ⟨rfl, hs⟩, rfl⟩ := hE.access _ _ _ _ ha14
  have hs14 : (({ w13.setChip j (w13.hw j) with serving := j } : World).hw j).stack
      = (w13.hw j).stack := by
    simp [World.setChip]
  have hr14 := (irShows_tells hs).of_stack hs14
  have hd := grantDecision_shown tr tirc (h13.2.of_stack hs14) hr14
  cases hg : grantDecision tr tirc tir1 rir1 with
  | none =>
    rw [hg] at hd
    have hAn : Stable E fun w => A w ∧ (w.hw j).stack = [] :=
      fun w w' hp hr => ⟨hA w w' hp.1 hr, ((hE.rely _ _ hr).stack j).trans hp.2⟩
    refine wp_issueIn hE hAn ⟨h14, hd⟩ ?_
    intro w1 _ w2 h1 _ ha
    exact hnone w1 w2 h1.1 h1.2 ha
  | some g =>
    rw [hg] at hd
    exact ⟨h14, hd⟩

/-! ## the end of a context -/

def eoirReg : Kind → Reg
  | .rx => .REOIR
  | .tx => .TEOIR

/-- the EOIR writes of the driver are enough to close any context -/
def Cfg.Timely (c : Cfg) : Prop :=
  c.eoirs ≤ 1 ∨ (c.eoirs ≤ 100 ∧ ∀ p, c.par p → p.eoiretry ≠ 0)

/-- no context is open except those of `st` on chip `j`, and the latest grant was `g` -/
structure Only (j : Fin 8) (st : List Ctx) (g : Option (Fin 8 × Kind × Fin 4)) (w : World) :
    Prop where
  here : (w.hw j).stack = st
  else_ : ∀ i, i ≠ j → (w.hw i).stack = []
  granted : w.granted = g

variable {j : Fin 8} {st : List Ctx} {g : Option (Fin 8 × Kind × Fin 4)}

theorem Only.onStacks : OnStacks (Only j st g) :=
  fun w w' hs hg h => ⟨(hs j).trans h.here, fun i hi => (hs i).trans (h.else_ i hi),
    hg.trans h.granted⟩

theorem Only.closed (h : Only j [] g w) : w.Closed := by
  intro i
  by_cases e : i = j
  · rw [e, h.here]
  · exact h.else_ i e

theorem Only.setChip (h : Only j st g w) (ch : Chip) : Only j ch.stack g (w.setChip j ch) := by
  refine ⟨?_, fun i hi => ?_, h.granted⟩
  · show (Function.update w.hw j ch j).stack = _
    rw [Function.update_self]
  · show (Function.update w.hw j ch i).stack = _
    rw [Function.update_of_ne hi]
    exact h.else_ i hi

/-- at most `n` more EOIR writes of kind `k` close everything -/
def Closing (j : Fin 8) (k : Kind) (g : Option (Fin 8 × Kind × Fin 4)) (n : Nat) (w : World) :
    Prop :=
  Only j [] g w ∨ ∃ x, Only j [x] g w ∧ x.kind = k ∧ 1 ≤ x.left ∧ x.left ≤ n

variable {k : Kind} {n : Nat}

theorem Closing.onStacks : OnStacks (Closing j k g n) := by
  intro w w' hs hg h
  rcases h with h | ⟨x, h, hx⟩
  · exact .inl (Only.onStacks w w' hs hg h)
  · exact .inr ⟨x, Only.onStacks w w' hs hg h, hx⟩

theorem Closing.zero (h : Closing j k g 0 w) : Only j [] g w := by
  rcases h with h | ⟨x, _, _, h1, h2⟩
  · exact h
  · omega

theorem Closing.mono {m : Nat} (h : Closing j k g n w) (hn : n ≤ m) : Closing j k g m w := by
  rcases h with h | ⟨x, h, hk, h1, h2⟩
  · exact .inl h
  · exact .inr ⟨x, h, hk, h1, by omega⟩

theorem eoirReg_write (ch : Chip) (k : Kind) (v : UInt8) : ch.write (eoirReg k) v = ch.eoir k := by
  cases k <;> rfl

/-- one EOIR write -/
theorem Closing.write (h : Closing j k g (n + 1) w) (v : UInt8) :
    Closing j k g n (w.setChip j ((w.hw j).write (eoirReg k) v)) := by
  rw [eoirReg_write]
  rcases h with h | ⟨x, h, hk, h1, hl⟩
  · have e : (w.hw j).eoir k = w.hw j := by
      unfold Chip.eoir
      rw [h.here]
    have h2 := h.setChip (w.hw j)
    rw [h.here] at h2
    rw [e]
    exact .inl h2
  · have e : ((w.hw j).eoir k).stack
        = if x.left ≤ 1 then [] else [{ x with left := x.left - 1 }] := by
      unfold Chip.eoir
      rw [h.here]
      simp only [hk, if_true]
    have h2 := h.setChip ((w.hw j).eoir k)
    rw [e] at h2
    by_cases hc : x.left ≤ 1
    · rw [if_pos hc] at h2
      exact .inl h2
    · rw [if_neg hc] at h2
      refine .inr ⟨_, h2, hk, ?_, ?_⟩
      · show 1 ≤ x.left - 1
        omega
      · show x.left - 1 ≤ n
        omega

/-- what the retries of an EOIR issue besides it -/
def Op.Retry (j : Fin 8) (o : Op) : Prop := o = .crd j .STK ∨ o = .params ∨ o = .ratelimit

theorem Op.Retry.look {j : Fin 8} {o : Op} (h : o.Retry j) : o.Look := by
  rcases h with rfl | rfl | rfl
  · exact ⟨nofun, nofun⟩
  · trivial
  · trivial

/-- `C n` says that at most `n` more EOIR writes of kind `k` close everything -/
structure Closes (j : Fin 8) (k : Kind) (g : Option (Fin 8 × Kind × Fin 4))
    (C : Nat → World → Prop) : Prop where
  onStacks : ∀ n, OnStacks (C n)
  mono : ∀ {n m w}, C n w → n ≤ m → C m w
  write : ∀ {n w} (v : UInt8), C (n + 1) w →
    C n (w.setChip j ((w.hw j).write (eoirReg k) v))
  empty : ∀ {n w}, C n w → (w.hw j).stack = [] → Only j [] g w
  zero : ∀ {w}, C 0 w → Only j [] g w

theorem Closing.closes : Closes j k g (Closing j k g) where
  onStacks n := Closing.onStacks
  mono := Closing.mono
  write v h := h.write v
  empty := by
    intro n w h hs
    rcases h with h | ⟨x, h, _⟩
    · exact h
    · rw [h.here] at hs
      cases hs
  zero := Closing.zero

section
variable {C : Nat → World → Prop} (hC : Closes j k g C) (hG : ∀ e, e.op.Retry j → G e)
  (hE : ∀ w v w' n, C n w → G ⟨w, .cwr j (eoirReg k) v, (), w'⟩)
include hC hG hE

theorem wp_eoiLoop (val : UInt8) : ∀ m w, C m w →
    wp c.card G (eoiLoop j (eoirReg k) val m) (fun _ w' => Only j [] g w') w := by
  intro m
  induction m with
  | zero =>
    intro w h
    have hk : Keeps c.card G (Op.Retry j) (Only j [] g) := by
      intro w o r w' ho hp ha
      obtain ⟨h1, _, h3⟩ := access_look ho.look ha
      exact ⟨hG _ ho, Only.onStacks w w' (fun i => by rw [h1]) h3 hp⟩
    refine wp_keeps Only.onStacks.stable hk ?_ (hC.zero h)
    refine Prog.Uses.bind (Prog.uses_call _ |>.mpr (.inr (.inr rfl))) ?_
    intro b
    refine Prog.Uses.ite ?_ trivial
    exact Prog.Uses.bind (Prog.uses_call _ |>.mpr (.inl rfl)) (fun _ => trivial)
  | succ m ih =>
    intro w h
    unfold eoiLoop
    refine wp_issue (hC.onStacks _).stable h ?_
    intro w1 v w2 h1 _ ha
    refine ⟨hG _ (.inl rfl), ?_⟩
    have hl := access_look (o := .crd j .STK) ⟨nofun, nofun⟩ ha
    have hs : ∀ i, (w2.hw i).stack = (w1.hw i).stack := by
      rw [hl.1]
      exact fun _ => rfl
    have h2 : C (m + 1) w2 := hC.onStacks _ w1 w2 hs hl.2.2 h1
    split
    · rename_i h0
      -- STK shows no level, so nothing is open
      refine hC.empty h2 ?_
      by_contra hne
      obtain ⟨c', ⟨_, hv⟩, _⟩ := ha
      rw [hs j] at hne
      exact absurd h0 (hv hne)
    · refine wp_issue (hC.onStacks _).stable h2 ?_
      rintro w3 _ w4 h3 _ rfl
      exact ⟨hE _ _ _ _ h3, ih _ (hC.write val h3)⟩

/-- a countdown that the writes of the driver are enough for comes to its end -/
theorem wp_eoi_closes {N : Nat}
    (hN : N ≤ 1 ∨ (N ≤ 101 ∧ ∀ p, c.par p → p.eoiretry ≠ 0)) (val : UInt8) (h : C N w) :
    wp c.card G (nm32aEoi j (eoirReg k) val) (fun _ w' => Only j [] g w') w := by
  unfold nm32aEoi
  have hl : ∀ n w, C n w → (∀ w', C n w' → c.Ready w' →
      n = 0 ∨ (n ≤ 100 ∧ w'.par.eoiretry ≠ 0)) →
      wp c.card G (params >>= fun p => if p.eoiretry = 0 then pure ()
        else eoiLoop j (eoirReg k) val 100) (fun _ w' => Only j [] g w') w := by
    intro n w h hn
    refine wp_issue (hC.onStacks _).stable h ?_
    rintro w1 p w2 h1 hr ⟨rfl, rfl⟩
    refine ⟨hG _ (.inr (.inl rfl)), ?_⟩
    rcases hn w2 h1 hr with rfl | ⟨hn, hp⟩
    · split
      · exact hC.zero h1
      · exact wp_eoiLoop hC hG hE val 100 _ (hC.mono h1 (by omega))
    · rw [if_neg hp]
      exact wp_eoiLoop hC hG hE val 100 _ (hC.mono h1 hn)
  rcases hN with hN | ⟨hN, hp⟩
  · refine wp_issue (hC.onStacks _).stable (hC.mono h hN) ?_
    rintro w1 _ w2 h1 _ rfl
    exact ⟨hE _ _ _ _ h1, hl 0 _ (hC.write val h1) (fun _ _ _ => .inl rfl)⟩
  · refine wp_issue (hC.onStacks _).stable (hC.mono h hN) ?_
    rintro w1 _ w2 h1 _ rfl
    exact ⟨hE _ _ _ _ h1, hl 100 _ (hC.write val h1)
      (fun _ _ hr => .inr ⟨by omega, hp _ hr.1⟩)⟩

end

/-- **An EOIR of the kind of the open context closes it.** -/
theorem wp_eoi (hG : ∀ e, e.op.Retry j → G e)
    (hE : ∀ w v w' n, Closing j k g n w → G ⟨w, .cwr j (eoirReg k) v, (), w'⟩)
    (hT : c.Timely) (val : UInt8) (h : Closing j k g c.eoirs w) :
    wp c.card G (nm32aEoi j (eoirReg k) val) (fun _ w' => Only j [] g w') w :=
  wp_eoi_closes Closing.closes hG hE (hT.imp id (fun h => ⟨by omega, h.2⟩)) val h

end Nm32a
