import Relicnos.Nm32a.Calls
import Relicnos.Nm32a.Fpga

/-!
# Receive: no character lost, repeated or crossed

`World.goods i` is what left the receive FIFO of port `i` and was not a bad character.  At the
boundaries of a call the tty layer has got exactly that (`Delivered`); inside a service it is
owed the buffer that has been drained and not handed over yet (`Owes`).

* `Counted`            the reads of a service stay within the count that `RFOC` latched, the count
                       within the buffer, and a context is ended when `RFOC` was read and all of
                       its count after it, or one character if the service is an exception;
* `Orderly`            that, and the tty layer never gets anything that did not leave the FIFO;
* `receive_delivered`  every run of calls is orderly, and leaves everything delivered.
-/

set_option linter.unusedVariables false

namespace Nm32a
open Interact

/-- the characters the tty layer of port `i` is to get, in the order they left the FIFO -/
def World.goods (w : World) (i : Fin 32) : List UInt8 :=
  (((w.hw (chipOf i)).popped (chanIx i)).filter fun p => !p.bad).map Popped.byte

/-- the tty layer has got them all, on every port -/
structure Delivered (w : World) : Prop where
  tty : ∀ i, (w.line i).tty = w.goods i
  opened : ∀ i, (w.line i).np.opened = true

/-- it has got them all but the last ones of port `p`, which are `bs` -/
structure Owes (p : Fin 32) (bs : List UInt8) (w : World) : Prop where
  here : (w.line p).tty ++ bs = w.goods p
  else_ : ∀ i, i ≠ p → (w.line i).tty = w.goods i
  opened : ∀ i, (w.line i).np.opened = true

/-- how many of the `n` characters that `RFOC` offered a context has to be read of -/
def Ctx.due (x : Ctx) (n : Nat) : Nat := if x.bad then min 1 n else n

/-- `RFOC` was read, and what is due since -/
def Ctx.Paid (x : Ctx) : Prop := ∃ n, x.latched = some n ∧ x.took = x.due n

def Counted (e : Event Op Res World) : Prop :=
  match e.op with
  | .crd i .RFOC => ∀ x rest, (e.pre.hw i).stack = x :: rest → x.took = 0
  | .crd i .RDR => ∃ x rest n, (e.pre.hw i).stack = x :: rest ∧ x.kind = .rx ∧
      x.latched = some n ∧ x.took < n ∧ n ≤ rxbufSize
  | .cwr i .REOIR _ => ∀ x rest, (e.pre.hw i).stack = x :: rest → x.kind = .rx → x.Paid
  | .flip _ bs => bs.length ≤ rxbufSize
  | _ => True

def Orderly (e : Event Op Res World) : Prop :=
  Counted e ∧ ∀ i, (e.post.line i).tty <+: e.post.goods i

/-- other flows of control neither close a port nor take what its tty layer has got -/
def Cfg.Listens (c : Cfg) : Prop :=
  ∀ l l', c.line l l' → l'.tty = l.tty ∧ (l.np.opened = true → l'.np.opened = true)

variable {c : Cfg} {w w' : World} {p : Fin 32} {bs : List UInt8} {j : Fin 8}

theorem delivered_owes : Delivered w ↔ Owes p [] w := by
  constructor
  · exact fun h => ⟨by rw [List.append_nil, h.tty], fun i _ => h.tty i, h.opened⟩
  · refine fun h => ⟨fun i => ?_, h.opened⟩
    by_cases e : i = p
    · rw [e, ← h.here, List.append_nil]
    · exact h.else_ i e

theorem Owes.behind (h : Owes p bs w) (i : Fin 32) : (w.line i).tty <+: w.goods i := by
  by_cases e : i = p
  · rw [e, ← h.here]
    exact List.prefix_append _ _
  · have heq := h.else_ i e
    exact ⟨[], by rw [List.append_nil, heq]⟩

/-! ## what leaves the receive side alone -/

/-- nothing has left a FIFO or reached a tty layer, and no port was closed -/
structure SameRx (w w' : World) : Prop where
  popped : ∀ j, (w'.hw j).popped = (w.hw j).popped
  tty : ∀ i, (w'.line i).tty = (w.line i).tty
  opened : ∀ i, (w.line i).np.opened = true → (w'.line i).np.opened = true

theorem SameRx.owes (h : SameRx w w') (ho : Owes p bs w) : Owes p bs w' := by
  have hg : ∀ i, w'.goods i = w.goods i := by
    intro i
    unfold World.goods
    rw [h.popped]
  refine ⟨?_, fun i hi => ?_, fun i => h.opened i (ho.opened i)⟩
  · rw [h.tty, hg, ho.here]
  · rw [h.tty, hg, ho.else_ i hi]

theorem SameRx.delivered (h : SameRx w w') (hd : Delivered w) : Delivered w' :=
  delivered_owes.mpr (h.owes (delivered_owes (p := 0).mp hd))

theorem Cfg.rely.sameRx (hl : c.Listens) (h : c.rely w w') : SameRx w w' := by
  refine ⟨fun j => ?_, fun i => (hl _ _ (h.line i)).1, fun i => (hl _ _ (h.line i)).2⟩
  obtain ⟨req, more, _, he⟩ := h.chip j
  rw [he]

theorem Owes.stable (hl : c.Listens) : Stable c.card (Owes p bs) :=
  fun _ _ h hr => (hr.sameRx hl).owes h

theorem Delivered.stable (hl : c.Listens) : Stable c.card Delivered :=
  fun _ _ h hr => (hr.sameRx hl).delivered h

/-- operations that take nothing out of a FIFO, hand nothing over and close no port -/
def Op.Deaf : Op → Prop
  | .crd _ reg => reg ≠ .RDR ∧ reg ≠ .RFOC
  | .cwr _ reg _ => reg ≠ .REOIR
  | .setPort _ f => f ≠ .opened false
  | .flip _ _ => False
  | _ => True

theorem write_popped (h : Chip) (reg : Reg) (v : UInt8) :
    (h.write reg v).popped = h.popped := by
  cases reg
  case TDR =>
    unfold Chip.write
    simp only
    split
    · split <;> rfl
    · rfl
  case REOIR =>
    simp only [Chip.write, Chip.eoir]
    split
    · split <;> rfl
    · rfl
  case TEOIR =>
    simp only [Chip.write, Chip.eoir]
    split
    · split <;> rfl
    · rfl
  all_goals rfl

theorem sameRx_write (j : Fin 8) (reg : Reg) (v : UInt8) :
    SameRx w (w.setChip j ((w.hw j).write reg v)) := by
  refine ⟨fun i => ?_, fun _ => rfl, fun _ h => h⟩
  by_cases e : i = j
  · subst e
    simp only [World.setChip, Function.update_self, write_popped]
  · simp only [World.setChip, Function.update_of_ne e]

theorem sameRx_line {i : Fin 32} {l : Line} (ht : l.tty = (w.line i).tty)
    (ho : (w.line i).np.opened = true → l.np.opened = true) : SameRx w (w.setLine i l) := by
  refine ⟨fun _ => rfl, fun i' => ?_, fun i' => ?_⟩
  · by_cases e : i' = i
    · subst e
      simp only [World.setLine, Function.update_self, ht]
    · simp only [World.setLine, Function.update_of_ne e]
  · by_cases e : i' = i
    · subst e
      simp only [World.setLine, Function.update_self]
      exact ho
    · simp only [World.setLine, Function.update_of_ne e]
      exact id

theorem sameRx_ack {addr : Nat} (h : c.Ack addr w w') : SameRx w w' := by
  cases h with
  | nothing => exact ⟨fun _ => rfl, fun _ => rfl, fun _ h => h⟩
  | grant i x hi hx hl h0 =>
    refine ⟨fun j => ?_, fun _ => rfl, fun _ h => h⟩
    by_cases e : j = i
    · subst e
      simp only [World.setChip, Function.update_self, Chip.grant]
    · simp only [World.setChip, Function.update_of_ne e]

theorem access_deaf {o : Op} {r : Res o} (ho : o.Deaf) (ha : c.access w o r w') :
    SameRx w w' := by
  have hrefl : SameRx w w := ⟨fun _ => rfl, fun _ => rfl, fun _ h => h⟩
  cases o with
  | crd j reg =>
    obtain ⟨h1, h2, _⟩ := access_look (o := .crd j reg) ho ha
    exact ⟨fun j => by rw [h1], fun i => by rw [h2], fun i => by rw [h2]; exact id⟩
  | cwr j reg v => subst ha; exact sameRx_write j reg v
  | readb addr => exact sameRx_ack ha
  | spinLock i => subst ha; exact sameRx_line rfl id
  | spinUnlock i => subst ha; exact sameRx_line rfl id
  | setPort i f =>
    subst ha
    cases f with
    | opened b =>
      cases b with
      | false => exact absurd rfl ho
      | true => exact sameRx_line rfl fun _ => rfl
    | _ => exact sameRx_line rfl id
  | port i => obtain ⟨_, rfl⟩ := ha; exact hrefl
  | params => obtain ⟨_, rfl⟩ := ha; exact hrefl
  | jiffies => obtain ⟨_, rfl⟩ := ha; exact hrefl
  | lock => subst ha; exact ⟨fun _ => rfl, fun _ => rfl, fun _ h => h⟩
  | unlock => subst ha; exact ⟨fun _ => rfl, fun _ => rfl, fun _ h => h⟩
  | traceDec => subst ha; exact ⟨fun _ => rfl, fun _ => rfl, fun _ h => h⟩
  | ratelimit => subst ha; exact hrefl
  | shouldStop => subst ha; exact hrefl
  | flip i bs => exact False.elim ho
  | hang => exact False.elim ha

theorem counted_deaf {e : Event Op Res World} (h : e.op.Deaf) : Counted e := by
  obtain ⟨pre, op, res, post⟩ := e
  cases op with
  | crd i reg =>
    cases reg
    case RFOC => exact absurd rfl h.2
    case RDR => exact absurd rfl h.1
    all_goals trivial
  | cwr i reg v =>
    cases reg
    case REOIR => exact absurd rfl h
    all_goals trivial
  | flip i bs => exact False.elim h
  | _ => trivial

theorem Owes.keeps : Keeps c.card Orderly Op.Deaf (Owes p bs) := by
  intro w o r w' ho h ha
  have h' := (access_deaf ho ha).owes h
  exact ⟨⟨counted_deaf ho, h'.behind⟩, h'⟩

theorem Delivered.keeps : Keeps c.card Orderly Op.Deaf Delivered := by
  intro w o r w' ho h ha
  obtain ⟨hg, h'⟩ := Owes.keeps w o r w' ho (delivered_owes (p := 0).mp h) ha
  exact ⟨hg, delivered_owes.mpr h'⟩

/-! ## a receive service -/

/-- in the context `x` of chip `j`, `t` of the characters that `RFOC` offered have been read -/
structure Fetching (j : Fin 8) (x : Ctx) (offer : Option Nat) (t : Nat) (bs : List UInt8)
    (w : World) : Prop where
  here : (w.hw j).stack = [{ x with latched := offer, took := t }]
  rx : x.kind = .rx
  enough : ∀ n, offer = some n → n ≤ t + ((w.hw j).fifo x.chan).length
  owes : Owes (portIx j x.chan) bs w

variable {x : Ctx} {offer : Option Nat} {n t : Nat} {α : Type} {Q : α → World → Prop}

theorem Fetching.stable (hl : c.Listens) : Stable c.card (Fetching j x offer t bs) := by
  intro w w' h hr
  refine ⟨(hr.stack j).trans h.here, h.rx, ?_, (hr.sameRx hl).owes h.owes⟩
  obtain ⟨req, more, _, he⟩ := hr.chip j
  intro n hn
  have h1 := h.enough n hn
  rw [he]
  simp only [List.length_append]
  omega

theorem Fetching.look {o : Op} {r : Res o} (ho : o.Look) (h : Fetching j x offer t bs w)
    (ha : c.access w o r w') (hd : o.Deaf) : Fetching j x offer t bs w' := by
  have hs := access_deaf hd ha
  obtain ⟨h1, _, _⟩ := access_look ho ha
  exact ⟨by rw [h1, h.here], h.rx, by rw [h1]; exact h.enough, hs.owes h.owes⟩

theorem Opened.fetching (h : Opened c j x w) (hk : x.kind = .rx) (hd : Delivered w) :
    Fetching j x none 0 [] w := by
  have e : x = { x with latched := none, took := 0 } := by
    obtain ⟨h1, h2⟩ := h.fresh
    cases x
    cases h1
    cases h2
    rfl
  exact ⟨h.only.here.trans (congrArg (fun y => [y]) e), hk, nofun, delivered_owes.mp hd⟩

/-- a state of chip `j` that has lost nothing -/
theorem Owes.setChip {h' : Chip} (h : Owes p bs w) (hp : h'.popped = (w.hw j).popped) :
    Owes p bs { w.setChip j h' with serving := j } := by
  have hs : SameRx w { w.setChip j h' with serving := j } := by
    refine ⟨fun i => ?_, fun _ => rfl, fun _ h => h⟩
    by_cases e : i = j
    · subst e
      simp only [World.setChip, Function.update_self, hp]
    · simp only [World.setChip, Function.update_of_ne e]
  exact hs.owes h

/-- what `RFOC` shows is latched, and the count of the reads starts anew -/
theorem Fetching.latch {v : UInt8} {h' : Chip} (h : Fetching j x offer t bs w)
    (hr : (w.hw j).read .RFOC v h') :
    Fetching j x (some (v &&& 0x1f).toNat) 0 bs { w.setChip j h' with serving := j } := by
  simp only [Chip.read, h.here] at hr
  obtain ⟨hlen, rfl⟩ := hr
  refine ⟨?_, h.rx, ?_, h.owes.setChip rfl⟩
  · simp only [World.setChip, Function.update_self]
  · intro n hn
    obtain rfl := Option.some.inj hn
    simp only [World.setChip, Function.update_self, Nat.zero_add]
    exact hlen h.rx

/-- a character that leaves the FIFO is owed to the tty layer, unless it is bad -/
theorem Owes.pop {h' : Chip} {b : UInt8} {bad : Bool} {ch : Fin 4}
    (h : Owes (portIx j ch) bs w)
    (hp : h'.popped = Function.update (w.hw j).popped ch ((w.hw j).popped ch ++ [⟨bad, b⟩])) :
    Owes (portIx j ch) (if bad then bs else bs ++ [b]) { w.setChip j h' with serving := j } := by
  refine ⟨?_, fun i hi => ?_, h.opened⟩
  · have e : ({ w.setChip j h' with serving := j } : World).goods (portIx j ch)
        = w.goods (portIx j ch) ++ if bad then [] else [b] := by
      unfold World.goods
      rw [chipOf_portIx, chanIx_portIx]
      simp only [World.setChip, Function.update_self, hp, List.filter_append, List.map_append]
      cases bad <;> rfl
    rw [e, ← h.here]
    cases bad
    · exact (List.append_assoc _ _ _).symm
    · exact (List.append_nil _).symm
  · have e : ({ w.setChip j h' with serving := j } : World).goods i = w.goods i := by
      unfold World.goods
      by_cases hj : chipOf i = j
      · have hc : chanIx i ≠ ch := by
          rintro rfl
          exact hi (by rw [← hj, portIx_chipOf])
        subst hj
        simp only [World.setChip, Function.update_self, hp, Function.update_of_ne hc]
      · simp only [World.setChip, Function.update_of_ne hj]
    rw [e]
    exact h.else_ i hi

theorem Fetching.pop {v : UInt8} {h' : Chip} (h : Fetching j x (some n) t bs w) (ht : t < n)
    (hr : (w.hw j).read .RDR v h') :
    Fetching j x (some n) (t + 1) (if x.bad then bs else bs ++ [v])
      { w.setChip j h' with serving := j } := by
  have hk : ({ x with latched := some n, took := t } : Ctx).kind = .rx := h.rx
  have hlen := h.enough n rfl
  cases hf : (w.hw j).fifo x.chan with
  | nil =>
    rw [hf, List.length_nil] at hlen
    omega
  | cons b q =>
    simp only [Chip.read, h.here, if_pos hk, hf] at hr
    obtain ⟨rfl, rfl⟩ := hr
    refine ⟨?_, h.rx, ?_, h.owes.pop rfl⟩
    · simp only [World.setChip, Function.update_self]
    · intro n hn
      obtain rfl := Option.some.inj hn
      rw [hf, List.length_cons] at hlen
      simp only [World.setChip, Function.update_self]
      omega

section
variable (hl : c.Listens)
include hl

theorem wp_rfoc {f : UInt8 → Drv α} (h : Fetching j x offer 0 bs w)
    (hf : ∀ v w', Fetching j x (some (v &&& 0x1f).toNat) 0 bs w' →
      wp c.card Orderly (f v) Q w') :
    wp c.card Orderly (crd j .RFOC >>= f) Q w := by
  refine wp_issue (Fetching.stable hl) h ?_
  rintro w1 v _ h1 _ ⟨h', hr, rfl⟩
  have h2 := h1.latch hr
  refine ⟨⟨?_, h2.owes.behind⟩, hf v _ h2⟩
  intro y rest hy
  have e := h1.here.symm.trans hy
  cases e
  rfl

theorem wp_rdr {f : UInt8 → Drv α} (h : Fetching j x (some n) t bs w) (ht : t < n)
    (hn : n ≤ rxbufSize)
    (hf : ∀ v w', Fetching j x (some n) (t + 1) (if x.bad then bs else bs ++ [v]) w' →
      wp c.card Orderly (f v) Q w') : wp c.card Orderly (crd j .RDR >>= f) Q w := by
  refine wp_issue (Fetching.stable hl) h ?_
  rintro w1 v _ h1 _ ⟨h', hr, rfl⟩
  have h2 := h1.pop ht hr
  exact ⟨⟨⟨_, [], n, h1.here, h1.rx, rfl, ht, hn⟩, h2.owes.behind⟩, hf v _ h2⟩

/-- **The buffer is what left the FIFO, in order.** -/
theorem wp_drain (hb : x.bad = false) (hn : n ≤ rxbufSize) (m : Nat)
    (h : Fetching j x (some n) t bs w) (hm : t + m = n) :
    wp c.card Orderly (drain j m)
      (fun rxbuf w' => Fetching j x (some n) n (bs ++ rxbuf) w' ∧ rxbuf.length = m) w := by
  induction m generalizing w t bs with
  | zero =>
    subst hm
    exact ⟨by rw [List.append_nil]; exact h, rfl⟩
  | succ m ih =>
    refine wp_rdr hl h (by omega) hn ?_
    intro b w1 h1
    rw [hb] at h1
    rw [wp_bind]
    refine wp_post (ih h1 (by omega)) ?_
    rintro rxbuf w2 ⟨h2, hlen⟩
    refine ⟨?_, by rw [List.length_cons, hlen]⟩
    have e : bs ++ b :: rxbuf = bs ++ [b] ++ rxbuf := (List.append_cons bs b rxbuf)
    rw [e]
    exact h2

omit hl in
theorem Op.Look.deaf {o : Op} (h : o.Look) : o.Deaf := by
  cases o with
  | crd j reg => exact h
  | cwr j reg v => exact False.elim h
  | setPort i f => exact False.elim h
  | flip i bs => exact h
  | _ => trivial

omit hl in
theorem Op.Peek.deaf {o : Op} (h : o.Peek j) : o.Deaf := h.look.deaf

/-- every receive context that is open on chip `j` has been read of what is due -/
def Tallied (j : Fin 8) (w : World) : Prop := ∀ x ∈ (w.hw j).stack, x.kind = .rx → x.Paid

omit hl in
theorem tallied_eoir {h : Chip} (hs : ∀ x ∈ h.stack, x.kind = .rx → x.Paid) :
    ∀ x ∈ (h.eoir .rx).stack, x.kind = .rx → x.Paid := by
  intro x hx
  unfold Chip.eoir at hx
  split at hx
  · rename_i y rest hy
    split at hx
    · simp only at hx
      split at hx
      · exact hs x (by rw [hy]; exact List.mem_cons_of_mem _ hx)
      · rcases List.mem_cons.mp hx with rfl | hx
        · exact hs y (by rw [hy]; exact List.mem_cons_self ..)
        · exact hs x (by rw [hy]; exact List.mem_cons_of_mem _ hx)
    · exact hs x hx
  · exact hs x hx

omit hl in
theorem Tallied.keeps :
    Keeps c.card Orderly (Op.Ends j .REOIR) fun w => Tallied j w ∧ Owes p bs w := by
  rintro w o r w' (ho | ⟨v, rfl⟩) ⟨ht, h⟩ ha
  · obtain ⟨hg, h'⟩ := Owes.keeps w o r w' ho.deaf h ha
    refine ⟨hg, ?_, h'⟩
    unfold Tallied
    rw [(access_look ho.look ha).1]
    exact ht
  · subst ha
    have h' := (sameRx_write j .REOIR v).owes h
    refine ⟨⟨?_, h'.behind⟩, ?_, h'⟩
    · intro x rest hx hk
      exact ht x (by rw [hx]; exact List.mem_cons_self ..) hk
    · unfold Tallied
      simp only [World.setChip, Function.update_self]
      exact tallied_eoir ht

/-- a context is ended when what is due has been read -/
theorem wp_close (val : UInt8) {f : Unit → Drv α} (h : Fetching j x (some n) t bs w)
    (ht : t = if x.bad then min 1 n else n)
    (hf : ∀ w', Owes (portIx j x.chan) bs w' → wp c.card Orderly (f ()) Q w') :
    wp c.card Orderly (nm32aEoi j .REOIR val >>= f) Q w := by
  have htal : Tallied j w := by
    intro y hy _
    rw [h.here, List.mem_singleton] at hy
    subst hy
    exact ⟨n, rfl, ht⟩
  have hst : Stable c.card fun w => Tallied j w ∧ Owes (portIx j x.chan) bs w := by
    intro w w' hw hr
    refine ⟨?_, Owes.stable hl w w' hw.2 hr⟩
    unfold Tallied
    rw [hr.stack j]
    exact hw.1
  exact wp_bind_keeps hst Tallied.keeps (uses_eoi _ _) ⟨htal, h.owes⟩ fun _ w' h' => hf w' h'.2

/-- the buffer is handed over once -/
theorem wp_deliver (h : Owes p bs w) (hb : bs.length ≤ rxbufSize) :
    wp c.card Orderly (deliver p bs) (fun _ w' => Delivered w') w := by
  unfold deliver
  split
  · refine wp_issue (Owes.stable hl) h ?_
    rintro w1 np w2 h1 _ ⟨rfl, rfl⟩
    refine ⟨⟨trivial, h1.behind⟩, ?_⟩
    rw [if_pos (h1.opened p)]
    refine wp_issue_last (Owes.stable hl) h1 ?_
    rintro w3 _ _ h3 _ rfl
    have hd : Delivered (w3.setLine p
        { w3.line p with tty := (w3.line p).tty ++ bs }) := by
      refine ⟨fun i => ?_, fun i => ?_⟩
      · by_cases e : i = p
        · subst e
          simp only [World.setLine, Function.update_self]
          exact h3.here
        · simp only [World.setLine, Function.update_of_ne e]
          exact h3.else_ i e
      · by_cases e : i = p
        · subst e
          simp only [World.setLine, Function.update_self]
          exact h3.opened i
        · simp only [World.setLine, Function.update_of_ne e]
          exact h3.opened i
    exact ⟨⟨hb, (delivered_owes (p := p).mp hd).behind⟩, hd⟩
  · rename_i h0
    have e : bs = [] := List.length_eq_zero_iff.mp (by omega)
    subst e
    exact delivered_owes.mpr h

theorem wp_giveBack (h : Delivered w) :
    wp c.card Orderly hwUnlock (fun _ w' => Delivered w') w :=
  wp_keeps (Delivered.stable hl) Delivered.keeps (uses_issue trivial) h

omit hl in
theorem rxCount_eq (v : UInt8) : rxCount v = (v &&& 0x1f).toNat := by
  refine Nat.min_eq_left ?_
  rw [UInt8.toNat_and]
  exact Nat.le_trans Nat.and_le_right (by decide)

omit hl in
theorem rxCount_le (v : UInt8) : rxCount v ≤ rxbufSize := Nat.min_le_right _ _

/-- the latched characters are drained, and the context is ended -/
theorem wp_drained {f : List UInt8 → Drv α} (h : Fetching j x none 0 [] w) (hb : x.bad = false)
    (hf : ∀ rxbuf w', rxbuf.length ≤ rxbufSize → Owes (portIx j x.chan) rxbuf w' →
      wp c.card Orderly (f rxbuf) Q w') :
    wp c.card Orderly (do
      let rxbuf ← drain j (rxCount (← crd j .RFOC))
      nm32aEoi j .REOIR 0x00
      f rxbuf) Q w := by
  refine wp_rfoc hl h ?_
  intro v w1 h1
  rw [wp_bind]
  have hle := rxCount_le v
  rw [rxCount_eq] at hle ⊢
  refine wp_post (wp_drain hl hb hle _ h1 (Nat.zero_add _)) ?_
  rintro rxbuf w2 ⟨h2, hlen⟩
  refine wp_close hl 0x00 h2 (by rw [hb]; rfl) ?_
  intro w3 h3
  exact hf rxbuf w3 (by omega) h3

theorem wp_timeout_delivered (h : Fetching j x none 0 [] w) (hb : x.bad = false) :
    wp c.card Orderly (serviceTimeout j x.chan) (fun _ w' => Delivered w') w := by
  refine wp_drained hl h hb ?_
  intro rxbuf w1 hlen h1
  rw [wp_bind]
  exact wp_post (wp_deliver hl h1 hlen) fun _ _ => wp_giveBack hl

theorem wp_good_delivered (h : Fetching j x none 0 [] w) (hb : x.bad = false) :
    wp c.card Orderly (serviceGood j x.chan) (fun _ w' => Delivered w') w := by
  refine wp_drained hl h hb ?_
  intro rxbuf w1 hlen h1
  refine wp_bind_keeps (Owes.stable hl) Owes.keeps (uses_issue trivial) h1 ?_
  intro _ w2 h2
  exact wp_deliver hl h2 hlen

omit hl in
theorem deaf_rxException (ch : Fin 4) : (nm32aRxException j ch).Uses Op.Deaf := by
  refine Prog.Uses.bind ?_ ?_
  · refine Prog.Uses.bind (uses_issue trivial) ?_
    intro now
    refine Prog.Uses.bind (uses_issue trivial) ?_
    intro np
    refine Prog.Uses.ite ?_ trivial
    refine Prog.Uses.bind (uses_issue trivial) ?_
    intro now
    exact Prog.Uses.bind (uses_issue nofun) fun _ => uses_issue nofun
  intro _
  refine Prog.Uses.bind (uses_issue trivial) ?_
  intro np
  refine Prog.Uses.bind (uses_issue nofun) ?_
  intro _
  refine Prog.Uses.ite trivial ?_
  refine Prog.Uses.bind (uses_issue nofun) ?_
  intro _
  exact Prog.Uses.bind (uses_issue nofun) fun _ => uses_issue nofun

/-- **An exception takes the character at the head out of the FIFO and hands nothing over.** -/
theorem wp_exception_delivered (tr : Bool) {erisr : UInt8} (h : Fetching j x none 0 [] w)
    (hb : x.bad = true) (he : erisr &&& 0x80 = 0) :
    wp c.card Orderly (serviceException j x.chan tr erisr) (fun _ w' => Delivered w') w := by
  have hend : ∀ n t w, Fetching j x (some n) t [] w → t = min 1 n →
      wp c.card Orderly (do
        nm32aEoi j .REOIR 0x00
        nm32aRxException j x.chan
        hwUnlock) (fun _ w' => Delivered w') w := by
    intro n t w h ht
    refine wp_close hl 0x00 h (by rw [hb]; exact ht) ?_
    intro w1 h1
    refine wp_bind_keeps (Owes.stable hl) Owes.keeps (deaf_rxException _) h1 ?_
    intro _ w2 h2
    exact wp_giveBack hl (delivered_owes.mpr h2)
  have hdrop : ∀ offer w, Fetching j x offer 0 [] w →
      wp c.card Orderly (dropBad j erisr >>= fun _ => do
        nm32aEoi j .REOIR 0x00
        nm32aRxException j x.chan
        hwUnlock) (fun _ w' => Delivered w') w := by
    intro offer w h
    unfold dropBad
    rw [if_pos he, bind_assoc]
    refine wp_rfoc hl h ?_
    intro v w1 h1
    split
    · rename_i hv
      have hpos : 0 < (v &&& 0x1f).toNat := by
        rw [Nat.pos_iff_ne_zero]
        exact fun h0 => hv (UInt8.toNat_inj.mp h0)
      have hle := rxCount_le v
      rw [rxCount_eq] at hle
      rw [bind_assoc]
      refine wp_rdr hl h1 hpos hle ?_
      intro b w2 h2
      rw [hb] at h2
      exact hend _ _ w2 h2 (by omega)
    · rename_i hv
      have h0 : (v &&& 0x1f).toNat = 0 := by
        rw [not_not.mp hv]
        rfl
      rw [h0] at h1
      exact hend 0 0 w1 h1 rfl
  unfold serviceException traceException
  split
  · rw [bind_assoc]
    refine wp_rfoc hl h ?_
    intro v w1 h1
    exact hdrop _ w1 h1
  · exact hdrop none w h

/-- a receive service, whatever its kind -/
theorem wp_serviceRx_delivered (tr : Bool) {rir0 : UInt8} (h : Fetching j x none 0 [] w)
    (hch : x.chan = chanOf rir0) (hg : rir0 &&& 0x0c = 0x0c ↔ x.good = true) :
    wp c.card Orderly (serviceRx j tr rir0) (fun _ w' => Delivered w') w := by
  unfold serviceRx
  rw [← hch]
  split
  · rename_i hbad
    have hx : x.good = false := Bool.eq_false_iff.mpr fun e => hbad (hg.mpr e)
    refine wp_issue (Fetching.stable hl) h ?_
    intro w1 v w2 h1 _ ha
    have h2 := h1.look (o := .crd j .RISRl) ⟨nofun, nofun⟩ ha ⟨nofun, nofun⟩
    refine ⟨⟨trivial, h2.owes.behind⟩, ?_⟩
    have hv : v = x.risr := by
      obtain ⟨_, ⟨_, hv⟩, _⟩ := ha
      exact hv { x with latched := none, took := 0 } [] h1.here h1.rx
    subst hv
    split
    · rename_i hto
      refine wp_timeout_delivered hl h2 ?_
      simp only [Ctx.bad, hx, Bool.not_false, Bool.true_and, decide_eq_false_iff_not]
      exact hto
    · rename_i hto
      refine wp_exception_delivered hl tr h2 ?_ (not_not.mp hto)
      simp only [Ctx.bad, hx, Bool.not_false, Bool.true_and, decide_eq_true_eq]
      exact not_not.mp hto
  · rename_i hgood
    refine wp_good_delivered hl h ?_
    rw [Ctx.bad, hg.mp (not_not.mp hgood)]
    rfl

omit hl in
theorem deaf_serviceTx (ch : Fin 4) : (serviceTx j ch).Uses Op.Deaf := by
  refine Prog.Uses.bind (uses_issue trivial) ?_
  intro _
  refine Prog.Uses.bind (uses_issue ⟨nofun, nofun⟩) ?_
  intro room
  refine Prog.Uses.bind ((sends_txLoop _ _).mono ?_) ?_
  · rintro o (rfl | ⟨v, rfl⟩ | ⟨v, rfl⟩)
    · trivial
    · exact (nofun : Reg.TDR ≠ .REOIR)
    · exact (nofun : PortField.tail v ≠ .opened false)
  intro n
  refine Prog.Uses.bind (Prog.Uses.ite (uses_issue nofun) trivial) ?_
  intro _
  refine Prog.Uses.bind ((uses_eoi _ _).mono ?_) ?_
  · rintro o (h | ⟨v, rfl⟩)
    · exact h.deaf
    · exact (nofun : Reg.TEOIR ≠ .REOIR)
  intro _
  exact Prog.Uses.bind (uses_issue trivial) fun _ => uses_issue trivial

/-! ## runs of calls -/

variable (hT : c.Timely) (hpick : ∀ w i, c.pick w i → i = w.serving)
include hT hpick

/-- **A pass leaves everything delivered.** -/
theorem wp_service_delivered (hc : w.Closed) (hd : Delivered w) :
    wp c.card Orderly (nm32aService j) (fun _ w' => w'.Closed ∧ Delivered w') w := by
  refine wp_service_rule c.card.le_refl (fun w i hs _ hp _ _ _ => (hpick w i hp).trans hs)
    (Delivered.stable hl) (Delivered.keeps.mono fun _ h => h.peek.deaf)
    (fun w addr v w' h ha => Delivered.keeps w (.readb addr) v w' trivial h ha)
    (fun w w' _ h ha => Delivered.keeps w .unlock () w' trivial h ha) ?_ ?_ hc hd
  · intro tr rir0 x w h hx hk hch hg
    have hin := hx.inside
    rw [hk, hch] at hin
    exact wp_mono (wp_and (wp_serviceRx allows_disciplined hT tr rir0 hin)
      (wp_serviceRx_delivered hl tr (hx.fetching hk h) hch hg)) (fun _ h => h.2) (fun _ _ h => h)
  · intro x w h hx hk
    have hin := hx.inside
    rw [hk] at hin
    exact wp_mono (wp_and (wp_serviceTx allows_disciplined hT hin)
      (wp_keeps (Delivered.stable hl) Delivered.keeps (deaf_serviceTx _) h)) (fun _ h => h.2)
      (fun _ _ h => h)

omit hl hT hpick in
theorem Op.Sweep.deaf {o : Op} (h : o.Sweep) : o.Deaf := by
  cases o with
  | crd j reg => exact False.elim h
  | cwr j reg v => rcases h with rfl | rfl <;> nofun
  | setPort i f => exact False.elim h
  | flip i bs => exact h
  | _ => trivial

/-- the calls of the poll thread -/
def Call.Polls : Call → Prop
  | .service _ => True
  | .armTx _ => True
  | _ => False

theorem wp_call_delivered {call : Call} (hp : call.Polls) (hc : w.Closed) (hd : Delivered w) :
    wp c.card Orderly call.prog (fun _ w' => w'.Closed ∧ Delivered w') w := by
  cases call with
  | service chip =>
    exact wp_discard (P := fun w' => w'.Closed ∧ Delivered w')
      (wp_service_delivered hl hT hpick hc hd)
  | armTx chip =>
    exact wp_mono (wp_and (wp_call_closed hT hpick (.armTx chip) hc)
      (wp_keeps (Delivered.stable hl) Delivered.keeps
        ((uses_armTx chip).mono fun _ => Op.Sweep.deaf) hd)) (fun _ h => h.2) (fun _ _ h => h)
  | _ => exact False.elim hp

end

/-- **What the tty layer of a port gets is what left its receive FIFO, in order and once, except
the bad characters.** -/
theorem receive_delivered (c : Cfg) (hl : c.Listens) (hT : c.Timely)
    (hpick : ∀ w i, c.pick w i → i = w.serving) (calls : List Call)
    (hcalls : ∀ call ∈ calls, call.Polls) (w w' : World) (hc : w.Closed) (hd : Delivered w)
    (tr : List (Event Op Res World)) (h : Runs c.card (callsProg calls) w tr () w') :
    (∀ e ∈ tr, Orderly e) ∧ Delivered w' := by
  have hw : wp c.card Orderly (callsProg calls) (fun _ w => w.Closed ∧ Delivered w) w :=
    wp_calls (P := fun w => w.Closed ∧ Delivered w)
      (fun call hm w hw => wp_call_delivered hl hT hpick (hcalls call hm) hw.1 hw.2) ⟨hc, hd⟩
  obtain ⟨he, hw'⟩ := wp_runs hw h
  exact ⟨he, hw'.2⟩

/-- a card whose FPGA picks the chip being serviced, and whose ports stay open -/
def openCard : Cfg :=
  { ownChip with line := fun l l' => l'.tty = l.tty ∧ (l.np.opened = true → l'.np.opened = true) }

/-- every receive service is good data, or every one is an exception of the given cause -/
def openScript (good : Bool) (risr : UInt8) : Script openCard where
  inter _ w := w
  grants w := some w.serving
  good := good
  risr := risr
  tftc := 16
  ok w := decide (w.par.eoiretry ≠ 0)
  rely n w h := by
    have hp : w.par.eoiretry ≠ 0 := of_decide_eq_true h
    have hr : openCard.Ready w := ⟨hp, fun _ _ _ _ => trivial⟩
    exact hr.rely_refl fun _ => ⟨rfl, id⟩
  pick w j h := picks_serving h
  eoirs := one_le_hundred

/-- two characters wait on channel 1 of chip 0, which asks for a receive service -/
def heardWorld : World :=
  idleWorld.setChip 0 { idleChip with
    req := fun k x => k = .rx && x = 1
    fifo := fun x => if x = 1 then [0x61, 0x62] else [] }

theorem heardWorld_closed : heardWorld.Closed := by
  intro j
  simp only [heardWorld, World.setChip, Function.update_apply]
  split <;> rfl

theorem heardWorld_delivered : Delivered heardWorld := by
  refine ⟨fun i => ?_, fun _ => rfl⟩
  unfold World.goods
  simp only [heardWorld, World.setChip, Function.update_apply]
  split <;> rfl

/-- the causes of exceptions that were read -/
def causes (tr : List (Event Op Res World)) : List UInt8 :=
  tr.filterMap fun e =>
    match e.op, e.res with
    | .crd _ .RISRl, v => some v
    | _, _ => none

/-- good data, a timeout with another bit of the cause set, and an exception, which drops the
character at the head -/
theorem receive_delivered_kinds :
    (∃ tr w', Runs openCard.card (callsProg [.service 0, .armTx 0]) heardWorld tr () w' ∧
      causes tr = [] ∧ (w'.line 1).tty = [0x61, 0x62] ∧ (∀ e ∈ tr, Orderly e) ∧ Delivered w') ∧
    (∃ tr w', Runs openCard.card (callsProg [.service 0, .armTx 0]) heardWorld tr () w' ∧
      causes tr = [0x84] ∧ (w'.line 1).tty = [0x61, 0x62] ∧ (∀ e ∈ tr, Orderly e) ∧
      Delivered w') ∧
    ∃ tr w', Runs openCard.card (callsProg [.service 0, .armTx 0]) heardWorld tr () w' ∧
      causes tr = [0x04] ∧ (w'.line 1).tty = [] ∧ (w'.hw 0).fifo 1 = [0x62] ∧
      (∀ e ∈ tr, Orderly e) ∧ Delivered w' := by
  have hpolls : ∀ call ∈ [Call.service 0, .armTx 0], call.Polls := by
    intro call hm
    rcases List.mem_pair.mp hm with rfl | rfl <;> trivial
  have hall : ∀ {tr w'}, Runs openCard.card (callsProg [.service 0, .armTx 0]) heardWorld tr () w' →
      (∀ e ∈ tr, Orderly e) ∧ Delivered w' := fun hx =>
    receive_delivered openCard (fun _ _ h => h) timely_ownChip (fun _ _ h => h) _ hpolls _ _
      heardWorld_closed heardWorld_delivered _ hx
  have hgood := (openScript true 0x00).policy.play_runs 0 (callsProg [.service 0, .armTx 0])
    heardWorld (a := ()) (by decide +kernel)
  have htimeout := (openScript false 0x84).policy.play_runs 0 (callsProg [.service 0, .armTx 0])
    heardWorld (a := ()) (by decide +kernel)
  have hbad := (openScript false 0x04).policy.play_runs 0 (callsProg [.service 0, .armTx 0])
    heardWorld (a := ()) (by decide +kernel)
  exact ⟨⟨_, _, hgood, by decide +kernel, by decide +kernel, hall hgood⟩,
    ⟨_, _, htimeout, by decide +kernel, by decide +kernel, hall htimeout⟩,
    ⟨_, _, hbad, by decide +kernel, by decide +kernel, by decide +kernel, hall hbad⟩⟩

end Nm32a
