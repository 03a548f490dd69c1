import Relicnos.Nm32a.Context

/-!
# A context that was left open

A chip starts with one context open that nobody ends.  An acknowledge opens another one on top of
it, and an EOIR closes the context on top if it is of its kind.

* `nestedChip`     such a chip: one EOIR write closes a context, and `eoiretry` keeps one value;
* `Recovers`       what an operation of a pass owes the chip;
* `Unwinding`      contexts of one kind that a number of EOIR writes closes;
* `Ends.piled`     a service of that kind ends them all;
* `Ends.other`     a service of the other kind does not;
* `stale_recovers` a run ends the stale context as long as only requests of its kind are granted
                   on top of it and `eoiretry` is on; a pass with any other grant does not.
-/

set_option linter.unusedVariables false

namespace Nm32a
open Interact

/-- one CD2481 that an EOIR write takes one context off; any of its requests may come and go, no
other chip requests, and the software state of the ports is anybody's -/
def nestedChip (j : Fin 8) (r : Int) : Cfg where
  pick _ _ := True
  raises i := i = j
  line _ _ := True
  par p := p.eoiretry = r
  eoirs := 1

/-- a data register is used in a context of its kind, an EOIR is of the kind of the context on
top, and once an acknowledge has granted a request the lock is given back with no context open -/
def Recovers (e : Event Op Res World) : Prop :=
  match e.op with
  | .cwr i .TDR _ => ∃ x rest, (e.pre.hw i).stack = x :: rest ∧ x.kind = .tx
  | .crd i .RDR => ∃ x rest, (e.pre.hw i).stack = x :: rest ∧ x.kind = .rx
  | .cwr i .REOIR _ => ∀ x rest, (e.pre.hw i).stack = x :: rest → x.kind = .rx
  | .cwr i .TEOIR _ => ∀ x rest, (e.pre.hw i).stack = x :: rest → x.kind = .tx
  | .unlock => e.pre.granted ≠ none → e.pre.Closed
  | _ => True

/-- a request that is granted on top of the context `x` is of its kind, and `eoiretry` is on -/
def Alike (j : Fin 8) (r : Int) (x : Ctx) (e : Event Op Res World) : Prop :=
  match e.op with
  | .readb _ => (e.pre.hw j).stack ≠ [] →
      ∀ k ch, e.post.granted = some (j, k, ch) → r ≠ 0 ∧ k = x.kind
  | _ => True

variable {c : Cfg} {w : World} {j : Fin 8} {k : Kind} {ch : Fin 4} {r : Int}
  {g : Option (Fin 8 × Kind × Fin 4)} {x : Ctx} {st : List Ctx} {n l : Nat}

theorem Disciplined.recovers {e : Event Op Res World} (h : Disciplined j e) : Recovers e := by
  obtain ⟨pre, op, res, post⟩ := e
  cases op with
  | crd i reg =>
    cases reg
    case RDR => exact h
    all_goals trivial
  | cwr i reg v =>
    cases reg
    case TDR => exact h
    case REOIR => exact h
    case TEOIR => exact h
    all_goals trivial
  | unlock => exact fun _ => h
  | _ => trivial

theorem recovers_look (e : Event Op Res World) (h : e.op.Look) : Recovers e :=
  (disciplined_look (j := 0) e h).recovers

theorem recovers_eoir {v : UInt8} {w' : World}
    (h : ∀ x rest, (w.hw j).stack = x :: rest → x.kind = k) :
    Recovers ⟨w, .cwr j (eoirReg k) v, (), w'⟩ := by
  cases k <;> exact h

/-! ## contexts of one kind, one on top of the other -/

/-- all open contexts are of kind `k`, and `n` more EOIR writes close them -/
def Unwinding (j : Fin 8) (k : Kind) (g : Option (Fin 8 × Kind × Fin 4)) (n : Nat) (w : World) :
    Prop :=
  ∃ st, Only j st g w ∧ (∀ x ∈ st, x.kind = k ∧ 1 ≤ x.left) ∧ (st.map Ctx.left).sum ≤ n

theorem Unwinding.onStacks : OnStacks (Unwinding j k g n) := by
  intro w w' hs hg h
  obtain ⟨st, h, hk⟩ := h
  exact ⟨st, Only.onStacks w w' hs hg h, hk⟩

theorem Unwinding.write (h : Unwinding j k g (n + 1) w) (v : UInt8) :
    Unwinding j k g n (w.setChip j ((w.hw j).write (eoirReg k) v)) := by
  rw [eoirReg_write]
  obtain ⟨st, h, hk, hn⟩ := h
  have h2 := h.setChip ((w.hw j).eoir k)
  cases st with
  | nil =>
    have e : ((w.hw j).eoir k).stack = [] := by
      unfold Chip.eoir
      rw [h.here]
      exact h.here
    rw [e] at h2
    exact ⟨[], h2, by simp, by simp⟩
  | cons x rest =>
    obtain ⟨hx, h1⟩ := hk x (List.mem_cons_self ..)
    have hrest : ∀ y ∈ rest, y.kind = k ∧ 1 ≤ y.left :=
      fun y hy => hk y (List.mem_cons_of_mem _ hy)
    have hsum : x.left + (rest.map Ctx.left).sum ≤ n + 1 := by simpa using hn
    have e : ((w.hw j).eoir k).stack
        = if x.left ≤ 1 then rest else { x with left := x.left - 1 } :: rest := by
      unfold Chip.eoir
      rw [h.here]
      simp only [hx, if_true]
    rw [e] at h2
    by_cases hc : x.left ≤ 1
    · rw [if_pos hc] at h2
      exact ⟨rest, h2, hrest, by omega⟩
    · rw [if_neg hc] at h2
      refine ⟨_, h2, ?_, ?_⟩
      · intro y hy
        rcases List.mem_cons.mp hy with rfl | hy
        · exact ⟨hx, by show 1 ≤ x.left - 1; omega⟩
        · exact hrest y hy
      · show ((x.left - 1) :: rest.map Ctx.left).sum ≤ n
        rw [List.sum_cons]
        omega

theorem Unwinding.closes : Closes j k g (Unwinding j k g) where
  onStacks n := Unwinding.onStacks
  mono := by
    intro n m w h hm
    obtain ⟨st, h, hk, hn⟩ := h
    exact ⟨st, h, hk, hn.trans hm⟩
  write v h := h.write v
  empty := by
    intro n w h hs
    obtain ⟨st, h, _⟩ := h
    rw [h.here] at hs
    rwa [hs] at h
  zero := by
    intro w h
    obtain ⟨st, h, hk, hn⟩ := h
    cases st with
    | nil => exact h
    | cons x rest =>
      have h1 := (hk x (List.mem_cons_self ..)).2
      have hsum : x.left + (rest.map Ctx.left).sum ≤ 0 := by simpa using hn
      omega

theorem Unwinding.top (h : Unwinding j k g n w) :
    ∀ x rest, (w.hw j).stack = x :: rest → x.kind = k := by
  intro x rest hs
  obtain ⟨st, h, hk, _⟩ := h
  rw [h.here] at hs
  exact (hk x (hs ▸ List.mem_cons_self ..)).1

/-- a context of kind `k` on channel `ch` is open on top of those of `st` -/
def Piled (j : Fin 8) (k : Kind) (ch : Fin 4) (l : Nat) (st : List Ctx)
    (g : Option (Fin 8 × Kind × Fin 4)) (w : World) : Prop :=
  ∃ x, Only j (x :: st) g w ∧ x.kind = k ∧ x.chan = ch ∧ x.left = l

theorem Piled.onStacks : OnStacks (Piled j k ch l st g) := by
  intro w w' hs hg h
  obtain ⟨x, h, hx⟩ := h
  exact ⟨x, Only.onStacks w w' hs hg h, hx⟩

theorem recovers_own {i : Fin 32} {o : Op} {res : Res o} {w' : World} (ho : o.Own j i) :
    Recovers ⟨w, o, res, w'⟩ := by
  rcases ho with ho | ho
  · exact recovers_look _ ho.look
  cases o with
  | cwr j' reg v => obtain ⟨rfl, rfl | rfl⟩ := ho <;> trivial
  | port i' => trivial
  | setPort i' f => trivial
  | spinLock i' => trivial
  | spinUnlock i' => trivial
  | flip i' bs => trivial
  | _ => exact False.elim ho

theorem Piled.keeps :
    Keeps c.card Recovers (Op.Within j k (portIx j ch)) (Piled j k ch l st g) := by
  have hread : ∀ w reg (v : UInt8) w', Piled j k ch l st g w → c.access w (.crd j reg) v w' →
      Piled j k ch l st g w' := by
    rintro w reg v w' ⟨x, h, hk, hc, hl⟩ ⟨h', hr, rfl⟩
    obtain ⟨y, hs, hyk, hyc, hyl⟩ := read_stack h.here hr
    have h2 := h.setChip h'
    rw [hs] at h2
    exact ⟨y, Only.onStacks (w.setChip j h') _ (fun _ => rfl) rfl h2, hyk.trans hk,
      hyc.trans hc, hyl.trans hl⟩
  rintro w o res w' (ho | rfl | ⟨rfl, rfl⟩ | ⟨rfl, ⟨v, rfl⟩ | ⟨v, rfl⟩⟩) hp ha
  · obtain ⟨h1, h2⟩ := access_own ho ha
    exact ⟨recovers_own ho, Piled.onStacks w w' h1 h2 hp⟩
  · exact ⟨trivial, hread w _ res w' hp ha⟩
  · obtain ⟨x, h, hk, _⟩ := id hp
    exact ⟨⟨x, st, h.here, hk⟩, hread w _ res w' hp ha⟩
  · obtain ⟨x, h, hx⟩ := hp
    subst ha
    refine ⟨⟨x, st, h.here, hx.1⟩, x, ?_, hx⟩
    have h2 := h.setChip ((w.hw j).write .TDR v)
    rw [write_stack _ .TDR v ⟨by decide, by decide⟩, h.here] at h2
    exact h2
  · subst ha
    exact ⟨trivial, Piled.onStacks w _ (fun _ => rfl) rfl hp⟩

theorem Piled.unwinding (h : Piled j k ch l st g w) (hst : ∀ x ∈ st, x.kind = k ∧ 1 ≤ x.left)
    (h1 : 1 ≤ l) : Unwinding j k g (l + (st.map Ctx.left).sum) w := by
  obtain ⟨x, h, hk, _, hl⟩ := h
  refine ⟨x :: st, h, ?_, ?_⟩
  · intro y hy
    rcases List.mem_cons.mp hy with rfl | hy
    · exact ⟨hk, by omega⟩
    · exact hst y hy
  · rw [List.map_cons, List.sum_cons, hl]

/-- what follows the end of a service, with the open contexts left as they are -/
theorem tidies_recovers {P : World → Prop} (hP : OnStacks P) :
    Keeps c.card Recovers (Op.Tidies j (portIx j ch)) P := by
  intro w o res w' ho hp ha
  obtain ⟨h1, h2⟩ := access_own ho.own ha
  exact ⟨recovers_own ho.own, hP w w' h1 h2 hp⟩

/-- **A service ends its context and all those of its kind below it.** -/
theorem Ends.piled (hst : ∀ x ∈ st, x.kind = k ∧ 1 ≤ x.left) (h1 : 1 ≤ l)
    (hN : l + (st.map Ctx.left).sum ≤ 1 ∨
      (l + (st.map Ctx.left).sum ≤ 101 ∧ ∀ p, c.par p → p.eoiretry ≠ 0)) :
    Ends c Recovers j k ch (Piled j k ch l st g) (Only j [] g) where
  inside := Piled.onStacks.stable
  within := Piled.keeps
  eoi val w h := wp_eoi_closes Unwinding.closes (fun e he => recovers_look e he.look)
    (fun w v w' n hn => recovers_eoir hn.top) hN val (h.unwinding hst h1)
  after := Only.onStacks.stable
  tidies := tidies_recovers Only.onStacks
  release := by
    rintro w _ h rfl
    exact ⟨fun _ => h.closed, Only.onStacks w _ (fun _ => rfl) rfl h⟩

/-! ## what stays open -/

/-- a context that is not of kind `k` is open -/
def Other (j : Fin 8) (k : Kind) (w : World) : Prop := ∃ x ∈ (w.hw j).stack, x.kind ≠ k

theorem Other.onStacks : OnStacks (Other j k) := by
  intro w w' hs _ h
  obtain ⟨x, hx, hk⟩ := h
  exact ⟨x, (hs j).symm ▸ hx, hk⟩

theorem Other.not_closed (h : Other j k w) : ¬w.Closed := by
  intro hc
  obtain ⟨x, hx, _⟩ := h
  rw [hc j] at hx
  exact absurd hx List.not_mem_nil

/-- a context that is not of kind `k` stays where it is, below and above those of kind `k` -/
theorem mem_eoir {h : Chip} (hx : x ∈ h.stack) (hk : x.kind ≠ k) : x ∈ (h.eoir k).stack := by
  unfold Chip.eoir
  cases hs : h.stack with
  | nil =>
    rw [hs] at hx
    exact absurd hx List.not_mem_nil
  | cons y rest =>
    rw [hs] at hx
    show x ∈ (if y.kind = k then _ else h : Chip).stack
    by_cases hy : y.kind = k
    · have hr : x ∈ rest := by
        rcases List.mem_cons.mp hx with rfl | hr
        · exact absurd hy hk
        · exact hr
      rw [if_pos hy]
      show x ∈ (if y.left ≤ 1 then rest else _ :: rest)
      split
      · exact hr
      · exact List.mem_cons_of_mem _ hr
    · rw [if_neg hy, hs]
      exact hx

theorem Other.keeps :
    Keeps c.card (fun _ => True) (Op.Pass j k ch) (Other j k) := by
  have hread : ∀ w reg (v : UInt8) w', Other j k w → c.access w (.crd j reg) v w' →
      Other j k w' := by
    rintro w reg v w' ⟨x, hx, hk⟩ ⟨h', hr, rfl⟩
    unfold Other
    simp only [World.setChip, Function.update_self]
    cases hs : (w.hw j).stack with
    | nil =>
      rw [hs] at hx
      exact absurd hx List.not_mem_nil
    | cons y rest =>
      obtain ⟨z, hz, hzk, _⟩ := read_stack hs hr
      rw [hs] at hx
      rw [hz]
      rcases List.mem_cons.mp hx with rfl | hx
      · exact ⟨z, List.mem_cons_self .., hzk ▸ hk⟩
      · exact ⟨x, List.mem_cons_of_mem _ hx, hk⟩
  rintro w o res w' ((ho | rfl | ⟨-, rfl⟩ | ⟨-, ⟨v, rfl⟩ | ⟨v, rfl⟩⟩) | ho | ⟨v, rfl⟩) hp ha
  · obtain ⟨h1, h2⟩ := access_own ho ha
    exact ⟨trivial, Other.onStacks w w' h1 h2 hp⟩
  · exact ⟨trivial, hread w _ res w' hp ha⟩
  · exact ⟨trivial, hread w _ res w' hp ha⟩
  · obtain ⟨x, hx, hk⟩ := hp
    subst ha
    refine ⟨trivial, x, ?_, hk⟩
    simp only [World.setChip, Function.update_self]
    rwa [write_stack _ .TDR v ⟨by decide, by decide⟩]
  · subst ha
    exact ⟨trivial, Other.onStacks w _ (fun _ => rfl) rfl hp⟩
  · obtain ⟨h1, _, h3⟩ := access_look ho.look ha
    exact ⟨trivial, Other.onStacks w w' (fun i => by rw [h1]) h3 hp⟩
  · obtain ⟨x, hx, hk⟩ := hp
    subst ha
    refine ⟨trivial, x, ?_, hk⟩
    simp only [World.setChip, Function.update_self]
    rw [eoirReg_write]
    exact mem_eoir hx hk

/-- **A service does not end a context of the other kind.** -/
theorem Ends.other : Ends c (fun _ => True) j k ch (Other j k) (Other j k) where
  inside := Other.onStacks.stable
  within := Other.keeps.mono fun _ => .inl
  eoi val w h := by
    have hk : Keeps c.card (fun _ => True) (Op.Pass j k ch) (Other j k) := Other.keeps
    exact wp_keeps Other.onStacks.stable hk ((uses_eoi _ val).mono fun _ => .inr) h
  after := Other.onStacks.stable
  tidies := Other.keeps.mono fun _ ho => .inl (.inl ho.own)
  release := by
    rintro w _ h rfl
    exact ⟨trivial, Other.onStacks w _ (fun _ => rfl) rfl h⟩

/-- something is open -/
def Stuck (j : Fin 8) (w : World) : Prop := (w.hw j).stack ≠ []

theorem Stuck.onStacks : OnStacks (Stuck j) := by
  intro w w' hs _ h
  unfold Stuck
  rwa [hs j]

/-- **With `eoiretry` off a service does not end what is below its context.** -/
theorem Ends.single (hr : ∀ p, c.par p → p.eoiretry = 0) (hst : st ≠ []) :
    Ends c (fun _ => True) j k ch (Piled j k ch l st g) (Stuck j) where
  inside := Piled.onStacks.stable
  within := fun w o res w' ho hp ha => ⟨trivial, (Piled.keeps w o res w' ho hp ha).2⟩
  eoi := by
    intro val w h
    refine wp_issue Piled.onStacks.stable h ?_
    intro w1 _ w2 h1 _ ha
    have h2 : Stuck j w2 := by
      obtain ⟨x, h1, hk, _⟩ := h1
      subst ha
      unfold Stuck
      simp only [World.setChip, Function.update_self]
      rw [eoirReg_write]
      unfold Chip.eoir
      rw [h1.here]
      simp only [hk, if_true]
      split
      · exact hst
      · exact List.cons_ne_nil _ _
    refine ⟨trivial, ?_⟩
    refine wp_issue Stuck.onStacks.stable h2 ?_
    rintro w3 p w4 h3 hp ⟨rfl, rfl⟩
    refine ⟨trivial, ?_⟩
    rw [if_pos (hr _ hp.1)]
    exact h3
  after := Stuck.onStacks.stable
  tidies := by
    intro w o res w' ho hp ha
    obtain ⟨h1, h2⟩ := access_own ho.own ha
    exact ⟨trivial, Stuck.onStacks w w' h1 h2 hp⟩
  release := by
    rintro w _ h rfl
    exact ⟨trivial, Stuck.onStacks w _ (fun _ => rfl) rfl h⟩

/-! ## a pass that finds the stale context -/

/-- with contexts of one kind open, the branch that is taken is the one of the context on top -/
theorem Shown.alike {gr : Granted} (hs : Shown j gr w) (h : (w.hw j).stack = x :: st)
    (hk : ∀ y ∈ st, y.kind = x.kind) :
    (gr.rir0 ≠ 0 ∧ x.kind = .rx ∧ x.chan = chanOf gr.rir0) ∨
      (gr.rir0 = 0 ∧ x.kind = .tx ∧ x.chan = chanOf gr.tir0) := by
  rcases hs with ⟨h0, y, hy, hc, _⟩ | ⟨h0, y, rest, hy, hky, hc⟩
  · have hyk : y.kind = .rx := by simpa using List.find?_some hy
    have hmem := List.mem_of_find?_eq_some hy
    rw [h] at hmem
    have hxk : x.kind = .rx := by
      rcases List.mem_cons.mp hmem with rfl | hmem
      · exact hyk
      · exact (hk y hmem).symm.trans hyk
    have e : y = x := by
      unfold Chip.openOf at hy
      rw [h, List.find?_cons_of_pos (by simpa using hxk)] at hy
      exact (Option.some.inj hy).symm
    subst e
    exact .inl ⟨h0, hxk, hc⟩
  · rw [h] at hy
    obtain ⟨rfl, rfl⟩ := List.cons.inj hy
    exact .inr ⟨h0, hky, hc⟩

theorem wp_serviceGranted_piled {D : World → Prop} {G : Event Op Res World → Prop} {gr : Granted}
    (hE : ∀ k ch, k = x.kind → Ends c G j k ch (Piled j k ch x.left st g) D)
    (h : Only j (x :: st) g w) (hk : ∀ y ∈ st, y.kind = x.kind) (hs : Shown j gr w) :
    wp c.card G (serviceGranted j gr) (fun _ w' => D w') w := by
  unfold serviceGranted
  rcases hs.alike h.here hk with ⟨h0, hx, hc⟩ | ⟨h0, hx, hc⟩
  · rw [if_pos h0]
    exact (hE _ _ hx.symm).rx gr.tr gr.rir0 ⟨x, h, hx, hc, rfl⟩
  · rw [if_neg (not_not.mpr h0)]
    exact (hE _ _ hx.symm).tx ⟨x, h, hx, hc, rfl⟩

theorem wp_serviceGranted_other {gr : Granted} (h : ∀ k, Other j k w) :
    wp c.card (fun _ => True) (serviceGranted j gr) (fun _ w' => ¬w'.Closed) w := by
  unfold serviceGranted
  split
  · exact wp_post (Ends.other.rx gr.tr gr.rir0 (h .rx)) fun _ _ h => h.not_closed
  · exact wp_post (Ends.other.tx (h .tx)) fun _ _ h => h.not_closed

/-- an acknowledge on top of the context `x` -/
theorem ack_nested {addr : Nat} {w' : World} (h : Only j [x] none w)
    (hr : (nestedChip j r).Ready w) (ha : (nestedChip j r).Ack addr w w') :
    Only j [x] none w' ∨
      ∃ y, Only j [y, x] (some (j, y.kind, y.chan)) w' ∧ y.left = 1 := by
  cases ha with
  | nothing _ => exact .inl ⟨h.here, h.else_, rfl⟩
  | grant i y _ hy hl _ =>
    obtain rfl : i = j := hr.2 i _ _ hy.1
    have hl2 : y.left ≤ 1 := hl.2
    refine .inr ⟨y, ⟨?_, ?_, rfl⟩, by omega⟩
    · simp only [World.setChip, Function.update_self, Chip.grant, h.here]
    · intro i' hi'
      simp only [World.setChip, Function.update_of_ne hi', h.else_ i' hi']

/-- **A pass that finds the stale context**: with nothing granted it goes on with that one, and
otherwise with the one on top of it. -/
theorem wp_service_nested {E : Env Op Res World} {G : Event Op Res World → Prop} {T : Ctx → Prop}
    {Q : World → Prop} (hE : E.Le (nestedChip j r).card) (hG : ∀ e, Recovers e → G e)
    (hT : ∀ w addr v w' y, Only j [x] none w → E.access w (.readb addr) v w' →
      Only j [y, x] (some (j, y.kind, y.chan)) w' → y.left = 1 → T y)
    (hidle : ∀ w, Only j [x] none w → Q w)
    (hlone : ∀ gr w, Only j [x] none w → Shown j gr w →
      wp E G (serviceGranted j gr) (fun _ w' => Q w') w)
    (hon : ∀ gr y w, Only j [y, x] (some (j, y.kind, y.chan)) w → T y → Shown j gr w →
      wp E G (serviceGranted j gr) (fun _ w' => Q w') w)
    (h : Only j [x] none w) : wp E G (nm32aService j) (fun _ w' => Q w') w := by
  let A : World → Prop := fun w => Only j [x] none w ∨
    ∃ y, Only j [y, x] (some (j, y.kind, y.chan)) w ∧ T y
  have hA : OnStacks A := by
    intro w w' hs hg h
    rcases h with h | ⟨y, h, hy⟩
    · exact .inl (Only.onStacks w w' hs hg h)
    · exact .inr ⟨y, Only.onStacks w w' hs hg h, hy⟩
  have hpk : ∀ P : World → Prop, OnStacks P → Keeps E G (Op.Ask j) P := by
    intro P hP w o res w' ho hp ha
    obtain ⟨h1, _, h3⟩ := access_look ho.peek.look (hE.access _ _ _ _ ha)
    exact ⟨hG _ (recovers_look _ ho.peek.look), hP w w' (fun i => by rw [h1]) h3 hp⟩
  have hgrant := wp_serviceGrant (c := nestedChip j r) (G := G) (N := Q) hE
    (Only.onStacks.stable.le hE) (hpk _ Only.onStacks) (hA.stable.le hE) (hpk _ hA)
    (by
      intro w addr v w' hp hs hr ha
      refine ⟨hG _ trivial, ?_⟩
      rcases ack_nested hp hr (hE.access _ _ _ _ ha) with h1 | ⟨y, h1, hl⟩
      · exact .inl h1
      · exact .inr ⟨y, h1, hT w addr v w' y hp ha h1 hl⟩)
    (by
      intro w w' hp ha
      obtain rfl := hE.access _ _ _ _ ha
      exact ⟨hG _ fun hne => absurd hp.granted hne, hidle _ ⟨hp.here, hp.else_, hp.granted⟩⟩)
    (by
      intro w w' hp hs ha
      rcases hp with hp | ⟨y, hp, _⟩
      · rw [hp.here] at hs
        cases hs
      · rw [hp.here] at hs
        cases hs) h
  unfold nm32aService
  rw [wp_bind]
  refine wp_post hgrant ?_
  intro gr w1 h1
  cases gr with
  | none => exact h1
  | some gr =>
    obtain ⟨h1, hs⟩ := h1
    show wp E G (serviceGranted j gr >>= fun _ => pure true) _ w1
    rw [wp_bind]
    refine wp_post (Q := fun _ w' => Q w') ?_ (fun _ _ hq => wp_pure true ▸ hq)
    rcases h1 with h1 | ⟨y, h1, hy⟩
    · exact hlone gr w1 h1 hs
    · exact hon gr y w1 h1 hy hs

/-- a pass that is granted nothing on top of the stale context ends that one -/
theorem wp_serviceGranted_lone {gr : Granted} (hx : x.left = 1) (h : Only j [x] none w)
    (hs : Shown j gr w) :
    wp (nestedChip j r).card Recovers (serviceGranted j gr) (fun _ w' => Only j [] none w') w := by
  refine wp_serviceGranted_piled (fun k ch hk => Ends.piled (by simp) ?_ ?_) h (by simp) hs
  · omega
  · exact .inl (by simp [hx])

/-- a pass that is granted a request of its kind on top of it ends them both -/
theorem wp_serviceGranted_alike {gr : Granted} {y : Ctx} (hx : x.left = 1) (hy : y.left = 1)
    (hr : r ≠ 0) (hk : y.kind = x.kind) (h : Only j [y, x] g w) (hs : Shown j gr w) :
    wp (nestedChip j r).card Recovers (serviceGranted j gr) (fun _ w' => Only j [] g w') w := by
  have hst : ∀ z ∈ [x], z.kind = y.kind ∧ 1 ≤ z.left := by
    intro z hz
    obtain rfl := List.mem_singleton.mp hz
    exact ⟨hk.symm, by omega⟩
  refine wp_serviceGranted_piled (fun k ch hyk => Ends.piled ?_ ?_ ?_) h (fun z hz => (hst z hz).1)
    hs
  · rw [hyk]
    exact hst
  · omega
  · refine .inr ⟨by simp [hx, hy], ?_⟩
    intro p hp
    rwa [show p.eoiretry = r from hp]

theorem wp_service_stale (hx : x.left = 1) (h : Only j [x] none w) :
    wp ((nestedChip j r).card.assume (Alike j r x)) Recovers (nm32aService j)
      (fun _ w' => Only j [x] none w' ∨ w'.Closed) w := by
  have hle := (nestedChip j r).card.assume_le (Alike j r x)
  refine wp_service_nested (T := fun y => y.left = 1 ∧ r ≠ 0 ∧ y.kind = x.kind) hle
    (fun _ h => h) ?_ (fun _ => .inl) ?_ ?_ h
  · intro w addr v w' y hp ha h1 hl
    have hne : (w.hw j).stack ≠ [] := by
      rw [hp.here]
      exact List.cons_ne_nil _ _
    exact ⟨hl, ha.2 hne y.kind y.chan h1.granted⟩
  · intro gr w h1 hs
    exact wp_le hle (wp_post (wp_serviceGranted_lone hx h1 hs) fun _ _ h => .inr h.closed)
  · intro gr y w h1 hy hs
    obtain ⟨hl, hr, hk⟩ := hy
    exact wp_le hle (wp_post (wp_serviceGranted_alike hx hl hr hk h1 hs) fun _ _ h => .inr h.closed)

/-- what is left open after a pass that was granted something else -/
theorem wp_service_unlike (hx : x.left = 1) (h : Only j [x] none w) :
    wp (nestedChip j r).card (fun _ => True) (nm32aService j)
      (fun _ w' => ∀ k ch, w'.granted = some (j, k, ch) → w'.Closed → r ≠ 0 ∧ k = x.kind) w := by
  have hnone : ∀ (st : List Ctx) (w' : World), Only j st none w' → ∀ (k : Kind) (ch : Fin 4),
      w'.granted = some (j, k, ch) → w'.Closed → r ≠ 0 ∧ k = x.kind := by
    intro st w' h k ch hg _
    rw [h.granted] at hg
    cases hg
  refine wp_service_nested (T := fun y => y.left = 1) (nestedChip j r).card.le_refl
    (fun _ _ => trivial) (fun _ _ _ _ _ _ _ _ hl => hl) (hnone _) ?_ ?_ h
  · intro gr w h1 hs
    exact wp_mono (wp_serviceGranted_lone hx h1 hs) (fun _ _ => trivial) (fun _ => hnone _)
  · intro gr y w h1 hl hs
    by_cases hk : y.kind = x.kind
    · by_cases hr : r = 0
      · -- one EOIR, and the stale context is still there
        have he : ∀ p, (nestedChip j r).par p → p.eoiretry = 0 := by
          intro p hp
          exact (show p.eoiretry = r from hp).trans hr
        refine wp_post (wp_serviceGranted_piled (fun k ch _ => Ends.single he (by simp)) h1 ?_ hs)
          fun _ w' h _ _ _ hc => absurd (hc j) h
        intro z hz
        obtain rfl := List.mem_singleton.mp hz
        exact hk.symm
      · refine wp_mono (wp_serviceGranted_alike hx hl hr hk h1 hs) (fun _ _ => trivial) ?_
        intro _ w' h k ch hg _
        rw [h.granted] at hg
        cases hg
        exact ⟨hr, hk⟩
    · have hoth : ∀ k, Other j k w := by
        intro k
        unfold Other
        rw [h1.here]
        by_cases hy : y.kind = k
        · exact ⟨x, by simp, fun hx => hk (hy.trans hx.symm)⟩
        · exact ⟨y, by simp, hy⟩
      exact wp_post (wp_serviceGranted_other hoth) fun _ _ h _ _ _ hc => absurd hc h

/-! ## runs -/

/-- **Recovery of a stale context.**  In every run where whatever is granted on top of it is of
its kind and `eoiretry` is on, every EOIR and every data access fits the context on top, and no
context is open when a pass that was granted a request gives the lock back.  A pass that is
granted anything else on top of it leaves a context open. -/
theorem stale_recovers (j : Fin 8) (r : Int) (x : Ctx) (hx : x.left = 1) :
    (∀ n w tr w' p', Only j [x] none w →
      Exec (nestedChip j r).card ((nm32aService j).times n) w tr w' p' →
      (∀ e ∈ tr, Alike j r x e) → ∀ e ∈ tr, Recovers e) ∧
    (∀ w tr b w' k ch, Only j [x] none w → Runs (nestedChip j r).card (nm32aService j) w tr b w' →
      w'.granted = some (j, k, ch) → ¬(r ≠ 0 ∧ k = x.kind) → ¬w'.Closed) := by
  refine ⟨?_, ?_⟩
  · intro n w tr w' p' hw hex hal
    have hle := (nestedChip j r).card.assume_le (Alike j r x)
    have hpass : ∀ w, Only j [x] none w ∨ w.Closed →
        wp ((nestedChip j r).card.assume (Alike j r x)) Recovers (nm32aService j)
          (fun _ w' => Only j [x] none w' ∨ w'.Closed) w := by
      intro w h
      rcases h with h | h
      · exact wp_service_stale hx h
      · exact wp_le hle (wp_mono (wp_service (.inl (le_refl 1))
          (fun w i _ hr _ k x hq => hr.2 i k x hq) h) (fun _ h => h.recovers) fun _ _ => .inr)
    have hrun : Exec ((nestedChip j r).card.assume (Alike j r x)) ((nm32aService j).times n) w tr
        w' p' := hex.imp (fun _ _ h => h) (fun e he ha => ⟨ha, hal e he⟩)
    exact (wp_exec (wp_times hpass n (.inl hw)) hrun).1
  · intro w tr b w' k ch hw hex hg hne hc
    exact hne ((wp_runs (wp_service_unlike hx hw) hex).2 k ch hg hc)

/-- only chip `j` requests, and `eoiretry` is `r` -/
def nestedReady (j : Fin 8) (r : Int) (w : World) : Bool :=
  decide (w.par.eoiretry = r ∧ ∀ i, i ≠ j → ∀ x, (w.hw i).req .rx x = false ∧
    (w.hw i).req .tx x = false)

/-- chip `j` grants the request that wins, and nothing happens between two operations -/
def nestedScript (j : Fin 8) (r : Int) : Script (nestedChip j r) where
  inter _ w := w
  grants _ := some j
  good := true
  risr := 0x00
  tftc := 16
  ok := nestedReady j r
  rely n w h := by
    obtain ⟨hp, hq⟩ := of_decide_eq_true h
    refine Cfg.Ready.rely_refl ⟨hp, ?_⟩ (fun _ => trivial)
    intro i k x hr
    by_contra hi
    obtain ⟨h1, h2⟩ := hq i hi x
    cases k
    · exact Bool.noConfusion (hr.symm.trans h1)
    · exact Bool.noConfusion (hr.symm.trans h2)
  pick _ _ _ := trivial
  eoirs := le_refl 1

/-- a receive context that was left open on channel 0 -/
def staleRx : Ctx := ⟨.rx, 0, 1, true, 0x00, none, 0⟩

/-- chip 0 has it open, and channel 1 has a transmit request, and a receive request if `rx` -/
def staleWorld (rx : Bool) : World :=
  idleWorld.setChip 0 { idleChip with
    stack := [staleRx]
    req := fun k x => x = 1 && (k = .tx || rx) }

theorem staleWorld_only (rx : Bool) : Only 0 [staleRx] none (staleWorld rx) where
  here := rfl
  else_ := by
    intro i hi
    simp only [staleWorld, World.setChip, Function.update_of_ne hi]
    rfl
  granted := rfl

/-- a receive request is granted on top of it: the pass ends both -/
theorem stale_recovers_rx : ∃ tr w' p',
    Exec (nestedChip 0 1).card ((nm32aService 0).times 1) (staleWorld true) tr w' p' ∧
      (tr.any fun e => match e.op with
        | .unlock => e.pre.granted.isSome
        | _ => false) = true ∧ ∀ e ∈ tr, Recovers e := by
  have hx := (nestedScript 0 1).policy.play_exec 0 ((nm32aService 0).times 1) (staleWorld true)
  refine ⟨_, _, _, hx, by decide +kernel, ?_⟩
  have hall : (((nestedScript 0 1).policy.play 0 ((nm32aService 0).times 1)
      (staleWorld true)).1.all fun e => match e.op with
        | .readb _ => e.post.granted = some (0, .rx, 1)
        | _ => true) = true := by decide +kernel
  refine (stale_recovers 0 1 staleRx rfl).1 1 _ _ _ _ (staleWorld_only true) hx ?_
  intro e he
  have h := List.all_eq_true.mp hall e he
  obtain ⟨pre, op, res, post⟩ := e
  cases op with
  | readb addr =>
    intro _ k ch hg
    rw [show post.granted = some (0, .rx, 1) from of_decide_eq_true h] at hg
    cases hg
    exact ⟨by decide, rfl⟩
  | _ => trivial

/-- `REOIR` is written with a transmit context on top -/
def crosses (e : Event Op Res World) : Bool :=
  match e.op with
  | .cwr i .REOIR _ => ((e.pre.hw i).stack.map Ctx.kind).head? = some .tx
  | _ => false

/-- a transmit request is granted on top of it: the pass writes `REOIR` with the transmit context
on top -/
theorem stale_recovers_fails : ∃ tr w' p', Only 0 [staleRx] none (staleWorld false) ∧
    Exec (nestedChip 0 1).card ((nm32aService 0).times 1) (staleWorld false) tr w' p' ∧
      ¬∀ e ∈ tr, Recovers e := by
  have hx := (nestedScript 0 1).policy.play_exec 0 ((nm32aService 0).times 1) (staleWorld false)
  refine ⟨_, _, _, staleWorld_only false, hx, ?_⟩
  have hbad : (((nestedScript 0 1).policy.play 0 ((nm32aService 0).times 1)
      (staleWorld false)).1.any crosses) = true := by decide +kernel
  obtain ⟨e, he, h⟩ := List.any_eq_true.mp hbad
  intro hr
  have h1 := hr e he
  obtain ⟨pre, op, res, post⟩ := e
  cases op with
  | cwr i reg v =>
    cases reg
    case REOIR =>
      have h2 : ((pre.hw i).stack.map Ctx.kind).head? = some .tx := of_decide_eq_true h
      cases hs : (pre.hw i).stack with
      | nil => simp [hs] at h2
      | cons y rest =>
        rw [hs] at h2
        have hy : y.kind = .tx := Option.some.inj h2
        exact Kind.noConfusion ((h1 y rest hs).symm.trans hy)
    all_goals exact Bool.noConfusion h
  | _ => exact Bool.noConfusion h

end Nm32a
