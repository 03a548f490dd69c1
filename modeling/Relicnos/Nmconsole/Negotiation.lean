import Mathlib.Algebra.BigOperators.Fin
import Mathlib.Algebra.BigOperators.Group.Finset.Piecewise
import Mathlib.Data.Fintype.Prod
import Relicnos.Interact.Exchange
import Relicnos.Nmconsole.Server

/-!
# Option negotiation

A negotiation message is three bytes.  `telnet_filter` answers every one of them, from its kind
alone; `main` offers three options when a client connects.

* `filtered_negotiations`  what the filter makes of a read that holds negotiation messages;
* `refusers`               two parties that both answer by the filter;
* `negotiation_ends_iff`   their exchange ends exactly if it never starts;
* `Option1143`             one half of one option at a client that follows the Q method;
* `offers_revoked`         the client ends up without what the hello offered.
-/

set_option linter.unusedVariables false

namespace Nmconsole
open Interact

inductive Verb where
  | WILL
  | WONT
  | DO
  | DONT
  deriving DecidableEq, Repr

namespace Verb

def byte : Verb → UInt8
  | WILL => Nmconsole.WILL
  | WONT => Nmconsole.WONT
  | DO => Nmconsole.DO
  | DONT => Nmconsole.DONT

def ofByte (c : UInt8) : Option Verb :=
  [WILL, WONT, DO, DONT].find? fun v => v.byte == c

/-- the reply of `telnet_filter` -/
def refused : Verb → Verb
  | DO => WONT
  | DONT => WONT
  | WILL => DONT
  | WONT => DONT

theorem negotiates (v : Verb) : Negotiates v.byte := by
  cases v <;> decide

theorem byte_ne (v : Verb) : v.byte ≠ IAC := by
  cases v <;> decide

theorem refusal_eq (v : Verb) (opt : UInt8) :
    refusal v.byte opt = [IAC, v.refused.byte, opt] := by
  cases v <;> rfl

end Verb

structure Msg where
  verb : Verb
  opt : UInt8
  deriving DecidableEq, Repr

namespace Msg

def bytes (m : Msg) : List UInt8 := [IAC, m.verb.byte, m.opt]

def ofBytes : List UInt8 → Option Msg
  | [c, v, opt] => if c = IAC then (Verb.ofByte v).map fun v => ⟨v, opt⟩ else none
  | _ => none

theorem ofBytes_bytes (m : Msg) : ofBytes m.bytes = some m := by
  obtain ⟨v, opt⟩ := m
  cases v <;> rfl

def refused (m : Msg) : Msg := ⟨m.verb.refused, m.opt⟩

end Msg

/-- a reply of the filter as a message -/
def Act.msg : Act → Option Msg
  | .reply bytes => Msg.ofBytes bytes
  | .sendBreak => none

/-- what `telnet_filter` sends back when it reads `m` -/
def replies (m : Msg) : List Msg := (filtered true m.bytes).acts.filterMap Act.msg

theorem command_msg (m : Msg) (rest : List UInt8) :
    command true m.verb.byte (m.opt :: rest) = (⟨[], [.reply m.refused.bytes]⟩, rest) := by
  unfold command
  rw [if_neg m.verb.byte_ne, if_pos m.verb.negotiates]
  show (Filtered.mk [] [.reply (refusal m.verb.byte m.opt)], rest) = _
  rw [m.verb.refusal_eq]
  rfl

theorem scan_msg (m : Msg) (rest : List UInt8) : scan true (m.bytes ++ rest)
    = Filtered.append ⟨[], [.reply m.refused.bytes]⟩ (scan true rest) := by
  show scan true (IAC :: m.verb.byte :: m.opt :: rest) = _
  have ht : token true IAC (m.verb.byte :: m.opt :: rest)
      = command true m.verb.byte (m.opt :: rest) := rfl
  rw [scan_cons, ht, command_msg]

/-- **Every negotiation message in what was read is answered, from its kind alone.** -/
theorem filtered_negotiations (ms : List Msg) : filtered true (ms.flatMap Msg.bytes)
    = ⟨[], ms.map fun m => .reply m.refused.bytes⟩ := by
  rw [filtered_scan]
  induction ms with
  | nil => exact scan_nil true
  | cons m ms ih =>
    rw [List.flatMap_cons, scan_msg, ih]
    rfl

theorem replies_eq (m : Msg) : replies m = [m.refused] := by
  have h := filtered_negotiations [m]
  rw [List.flatMap_singleton] at h
  unfold replies
  rw [h]
  have hm : Act.msg (.reply m.refused.bytes) = some m.refused := Msg.ofBytes_bytes _
  exact List.filterMap_cons_some hm

/-! ## two parties that answer by the filter -/

/-- an option as one party sees it: its own use of it, or that of the other party -/
inductive Half where
  | own
  | peer
  deriving DecidableEq, Repr

/-- which half of the receiver a message is about -/
def Verb.half : Verb → Half
  | .DO => .own
  | .DONT => .own
  | .WILL => .peer
  | .WONT => .peer

/-- whether a message asks for the half to be on -/
def Verb.wants : Verb → Bool
  | .DO => true
  | .WILL => true
  | .DONT => false
  | .WONT => false

/-- what is in force at each party -/
abbrev InForce := Party × Half × UInt8 → Bool

def Msg.at (p : Party) (m : Msg) : Party × Half × UInt8 := (p, m.verb.half, m.opt)

/-- both parties answer by `telnet_filter`, which leaves the half off -/
def refusers : Exchange InForce Msg where
  react p st m := (Function.update st (m.at p) false, replies m)
  move _ _ _ := False

/-- the message asks for what is not in force -/
def Msg.Changes (p : Party) (st : InForce) (m : Msg) : Prop := m.verb.wants ≠ st (m.at p)

/-- a reply is sent only to a message that asks for a change -/
def Lawful (l : Link InForce Msg) : Prop :=
  ∀ l1 l2 p m, refusers.Reaches l l1 → refusers.Delivers p m l1 l2 →
    (refusers.react p l1.state m).2 ≠ [] → m.Changes p l1.state

theorem refusers_go_on {l : Link InForce Msg} (h : l.flight ≠ []) :
    ∃ l', refusers.Delivery l l' ∧ l'.flight ≠ [] := by
  obtain ⟨⟨p, m⟩, rest, hl⟩ := List.exists_cons_of_ne_nil h
  refine ⟨_, ⟨p, m, [], rest, hl, rfl⟩, ?_⟩
  show [] ++ rest ++ (replies m).map _ ≠ []
  rw [replies_eq]
  simp

theorem refusers_endless {l : Link InForce Msg} (h : l.flight ≠ []) : ¬refusers.Ends l :=
  Exchange.endless (P := fun l => l.flight ≠ []) (fun _ => refusers_go_on) h

theorem refusers_stuck {l l' : Link InForce Msg} (h : l.flight = []) :
    ¬refusers.Delivery l l' := by
  rintro ⟨p, m, xs, ys, hl, _⟩
  rw [h] at hl
  cases xs <;> cases hl

/-- **Two parties that answer by the filter send replies only to what asks for a change, and stop,
exactly if no message is ever in flight.** -/
theorem negotiation_ends_iff (l : Link InForce Msg) :
    (Lawful l ∧ refusers.Ends l) ↔ l.flight = [] := by
  constructor
  · rintro ⟨_, hends⟩
    by_contra h
    exact refusers_endless h hends
  · intro h
    constructor
    · intro l1 l2 p m hr hd
      have h1 : l1.flight = [] := by
        refine Exchange.reaches_keeps (P := fun l => l.flight = []) ?_ hr h
        rintro l l' (hd | ⟨_, _, hf, _⟩) he
        · exact absurd hd (refusers_stuck he)
        · exact hf.elim
      exact absurd ⟨p, m, hd⟩ (refusers_stuck h1)
    · rintro ⟨run, h0, hrun⟩
      have hd := hrun 0
      rw [h0] at hd
      exact refusers_stuck h hd

/-- one party confirms that an option is off, and the two thank each other for ever -/
theorem negotiation_fails : ¬∀ l : Link InForce Msg, Lawful l ∧ refusers.Ends l := by
  intro h
  exact refusers_endless (l := ⟨fun _ => false, [(.left, ⟨.DONT, OPT_ECHO⟩)]⟩) (by simp) (h _).2

/-! ## a client after the hello -/

/-- RFC 1143: one half of one option, with the bit that queues the opposite wish -/
inductive Option1143 where
  | no
  | yes
  | wantNo (opposite : Bool)
  | wantYes (opposite : Bool)
  deriving DecidableEq, Repr

namespace Option1143

/-- the half after a message that asks for it to be `on`, and what is said about it in return -/
def receive (accept : Bool) : Option1143 → Bool → Option1143 × Option Bool
  | no, true => if accept then (yes, some true) else (no, some false)
  | yes, true => (yes, none)
  | wantNo false, true => (no, none)
  | wantNo true, true => (yes, none)
  | wantYes false, true => (yes, none)
  | wantYes true, true => (wantNo false, some false)
  | no, false => (no, none)
  | yes, false => (no, some false)
  | wantNo false, false => (no, none)
  | wantNo true, false => (wantYes false, some true)
  | wantYes _, false => (no, none)

/-- the half after the user wished it to be `on`, and what is said about it -/
def wish : Option1143 → Bool → Option1143 × Option Bool
  | no, true => (wantYes false, some true)
  | yes, true => (yes, none)
  | wantNo _, true => (wantNo true, none)
  | wantYes _, true => (wantYes false, none)
  | no, false => (no, none)
  | yes, false => (wantNo false, some false)
  | wantNo _, false => (wantNo false, none)
  | wantYes _, false => (wantYes true, none)

end Option1143

abbrev Client := Half × UInt8 → Option1143

/-- what a party says about one of its halves -/
def Verb.about : Half → Bool → Verb
  | .peer, true => .DO
  | .peer, false => .DONT
  | .own, true => .WILL
  | .own, false => .WONT

/-- the client when the half `x` is now `q`, and what it sends -/
def Client.set (c : Client) (x : Half × UInt8) (q : Option1143 × Option Bool) :
    Client × List Msg :=
  (Function.update c x q.1, q.2.toList.map fun on => ⟨.about x.1 on, x.2⟩)

/-- `nmconsole` on the left, the client on the right; the client accepts what `accepts` says and
may wish for anything at any time -/
def console (accepts : Half × UInt8 → Bool) : Exchange Client Msg where
  react
    | .left, c, m => (c, replies m)
    | .right, c, m =>
      let x := (m.verb.half, m.opt)
      c.set x ((c x).receive (accepts x) m.verb.wants)
  move p c r := p = .right ∧ ∃ x on, r = c.set x ((c x).wish on)

def helloMsgs : List Msg := [⟨.WILL, OPT_ECHO⟩, ⟨.WILL, OPT_SGA⟩, ⟨.DO, OPT_SGA⟩]

theorem hello_bytes : hello = helloMsgs.flatMap Msg.bytes := rfl

/-- the hello has been sent to a client that has not negotiated yet -/
def greeted : Link Client Msg := ⟨fun _ => .no, helloMsgs.map (Prod.mk .right)⟩

/-- what the hello offers -/
def offers : List (Half × UInt8) := [(.peer, OPT_ECHO), (.peer, OPT_SGA), (.own, OPT_SGA)]

theorem offers_hello : offers = helloMsgs.map fun m => (m.verb.half, m.opt) := rfl

/-- what the hello offers is in force at the client -/
def Agreed (c : Client) : Prop := ∀ x ∈ offers, c x = .yes

instance (c : Client) : Decidable (Agreed c) :=
  inferInstanceAs (Decidable (∀ x ∈ offers, c x = .yes))

/-- a message about the half `x` of the client that is not an offer of the server -/
def Msg.Doubts (x : Half × UInt8) : Party × Msg → Prop
  | (.left, m) => m.opt = x.2 ∧ ∃ on, m.verb = .about x.1 on
  | (.right, m) => (m.verb.half, m.opt) = x ∧ m.verb.wants = false

/-- a half that is not off is still being talked about -/
def Doubted (l : Link Client Msg) : Prop :=
  ∀ x, l.state x ≠ .no → ∃ e ∈ l.flight, Msg.Doubts x e

theorem Verb.refused_wants (v : Verb) : v.refused.wants = false := by
  cases v <;> rfl

theorem Verb.refused_about (half : Half) (on : Bool) :
    (Verb.about half on).refused.half = half := by
  cases half <;> cases on <;> rfl

theorem Option1143.receive_none {accept on : Bool} {q : Option1143}
    (h : (q.receive accept on).2 = none) (hno : (q.receive accept on).1 ≠ .no) :
    on = true ∧ q ≠ .no := by
  revert h hno
  revert on accept
  cases q with
  | no => decide
  | yes => decide
  | wantNo opposite => cases opposite <;> decide
  | wantYes opposite => cases opposite <;> decide

theorem Option1143.wish_none {on : Bool} {q : Option1143} (h : (q.wish on).2 = none)
    (hno : (q.wish on).1 ≠ .no) : q ≠ .no := by
  revert h hno
  revert on
  cases q with
  | no => decide
  | yes => decide
  | wantNo opposite => cases opposite <;> decide
  | wantYes opposite => cases opposite <;> decide

/-- what the client says about a half is in doubt again -/
theorem Doubted.set {c : Client} {x : Half × UInt8} {q : Option1143 × Option Bool}
    {rest : List (Party × Msg)}
    (hother : ∀ y, y ≠ x → c y ≠ .no → ∃ e ∈ rest, Msg.Doubts y e)
    (hself : q.2 = none → q.1 ≠ .no → ∃ e ∈ rest, Msg.Doubts x e) :
    Doubted (Exchange.after .right (c.set x q) rest) := by
  intro y hy
  have hy' : Function.update c x q.1 y ≠ .no := hy
  have hkeep : ∀ e, e ∈ rest → e ∈ (Exchange.after .right (c.set x q) rest).flight :=
    fun e he => List.mem_append_left _ he
  by_cases hyx : y = x
  · subst hyx
    rw [Function.update_self] at hy'
    obtain ⟨q', reply⟩ := q
    cases reply with
    | none =>
      obtain ⟨e, he, hd⟩ := hself rfl hy'
      exact ⟨e, hkeep e he, hd⟩
    | some on =>
      exact ⟨(.left, ⟨.about y.1 on, y.2⟩), List.mem_append_right _ (List.mem_singleton_self _),
        rfl, on, rfl⟩
  · rw [Function.update_of_ne hyx] at hy'
    obtain ⟨e, he, hd⟩ := hother y hyx hy'
    exact ⟨e, hkeep e he, hd⟩

theorem doubted_step {accepts : Half × UInt8 → Bool} (l l' : Link Client Msg)
    (h : (console accepts).Step l l') (hd : Doubted l) : Doubted l' := by
  rcases h with ⟨p, m, xs, ys, hl, rfl⟩ | ⟨p, r, ⟨rfl, x, on, rfl⟩, rfl⟩
  · -- whatever was in doubt by another message still is
    have hrest : ∀ e ∈ l.flight, e ≠ (p, m) → e ∈ xs ++ ys := by
      intro e he hne
      rw [hl] at he
      rcases List.mem_append.mp he with he | he
      · exact List.mem_append_left _ he
      rcases List.mem_cons.mp he with he | he
      · exact absurd he hne
      · exact List.mem_append_right _ he
    cases p with
    | left =>
      intro x hx
      obtain ⟨e, he, hdx⟩ := hd x hx
      by_cases hem : e = (.left, m)
      · subst hem
        obtain ⟨hopt, on, hv⟩ := hdx
        refine ⟨(.right, m.refused), ?_, ?_, m.verb.refused_wants⟩
        · show _ ∈ xs ++ ys ++ (replies m).map _
          rw [replies_eq]
          exact List.mem_append_right _ (List.mem_singleton_self _)
        · show (m.verb.refused.half, m.opt) = x
          rw [hv, Verb.refused_about, hopt]
      · exact ⟨e, List.mem_append_left _ (hrest e he hem), hdx⟩
    | right =>
      show Doubted (Exchange.after .right (l.state.set (m.verb.half, m.opt) _) (xs ++ ys))
      apply Doubted.set
      · intro y hy hno
        obtain ⟨e, he, hdy⟩ := hd y hno
        refine ⟨e, hrest e he fun hem => ?_, hdy⟩
        subst hem
        exact hy hdy.1.symm
      · intro hnone hno
        obtain ⟨hwants, hold⟩ := Option1143.receive_none hnone hno
        obtain ⟨e, he, hdx⟩ := hd _ hold
        refine ⟨e, hrest e he fun hem => ?_, hdx⟩
        subst hem
        exact absurd (hwants.symm.trans hdx.2) (by decide)
  · apply Doubted.set
    · exact fun y _ hno => hd y hno
    · exact fun hnone hno => hd x (Option1143.wish_none hnone hno)

theorem doubted_reached {accepts : Half × UInt8 → Bool} {l : Link Client Msg}
    (h : (console accepts).Reaches greeted l) : Doubted l :=
  Exchange.reaches_keeps doubted_step h fun _ hx => absurd rfl hx

/-! ## the exchange after the hello comes to rest -/

instance : Fintype Half := ⟨{.own, .peer}, fun x => by cases x <;> decide⟩

instance fintypeUInt8 : Fintype UInt8 :=
  Fintype.ofEquiv (Fin 256) ⟨UInt8.ofFin, UInt8.toFin, fun _ => rfl, fun _ => rfl⟩

/-- how many messages a half can still cause, two for each that the client sends -/
def Option1143.potential : Option1143 → Nat
  | yes => 2
  | wantNo true => 2
  | _ => 0

def weight : Party × Msg → Nat
  | (.left, _) => 2
  | (.right, m) => if m.verb.wants then 5 else 1

def commotion (l : Link Client Msg) : Nat :=
  (l.flight.map weight).sum + ∑ x, (l.state x).potential

theorem Option1143.receive_potential (accept on : Bool) (q : Option1143) :
    (q.receive accept on).1.potential + 2 * (q.receive accept on).2.toList.length
      < q.potential + if on then 5 else 1 := by
  revert on accept
  cases q with
  | no => decide
  | yes => decide
  | wantNo opposite => cases opposite <;> decide
  | wantYes opposite => cases opposite <;> decide

theorem potential_set (c : Client) (x : Half × UInt8) (q : Option1143) :
    (∑ y, (Function.update c x q y).potential) + (c x).potential
      = (∑ y, (c y).potential) + q.potential := by
  have h : ∀ y, (Function.update c x q y).potential
      = Function.update (fun y => (c y).potential) x q.potential y := by
    intro y
    by_cases hy : y = x
    · rw [hy, Function.update_self, Function.update_self]
    · rw [Function.update_of_ne hy, Function.update_of_ne hy]
  have hu := Finset.sum_update_of_mem (Finset.mem_univ x) (fun y => (c y).potential) q.potential
  have hs := Finset.sum_erase_add Finset.univ (fun y => (c y).potential) (Finset.mem_univ x)
  rw [Finset.sum_congr rfl fun y _ => h y, hu, ← hs, Finset.sdiff_singleton_eq_erase]
  omega

theorem weight_sent (ms : List Msg) :
    ((ms.map (Prod.mk Party.left)).map weight).sum = 2 * ms.length := by
  induction ms with
  | nil => rfl
  | cons m ms ih =>
    have hm : weight (.left, m) = 2 := rfl
    rw [List.map_cons, List.map_cons, List.sum_cons, ih, hm, List.length_cons]
    omega

theorem commotion_after (p : Party) (r : Client × List Msg) (rest : List (Party × Msg)) :
    commotion (Exchange.after p r rest) = (rest.map weight).sum
      + ((r.2.map (Prod.mk p.other)).map weight).sum + ∑ x, (r.1 x).potential := by
  show ((rest ++ r.2.map (Prod.mk p.other)).map weight).sum + _ = _
  rw [List.map_append, List.sum_append]
  rfl

theorem commotion_delivery {accepts : Half × UInt8 → Bool} (l l' : Link Client Msg)
    (h : (console accepts).Delivery l l') : commotion l' < commotion l := by
  obtain ⟨p, m, xs, ys, hl, rfl⟩ := h
  have hold : commotion l = ((xs ++ ys).map weight).sum + weight (p, m)
      + ∑ x, (l.state x).potential := by
    unfold commotion
    rw [hl, List.map_append, List.map_append, List.map_cons, List.sum_append, List.sum_append,
      List.sum_cons]
    omega
  rw [hold, commotion_after]
  cases p with
  | left =>
    show _ + (((replies m).map (Prod.mk Party.right)).map weight).sum + _ < _
    rw [replies_eq]
    have hw : weight (.right, m.refused) = 1 := by
      show (if m.verb.refused.wants then 5 else 1) = 1
      rw [m.verb.refused_wants]
      rfl
    show _ + (weight (.right, m.refused) + 0) + ∑ x, (l.state x).potential < _ + 2 + _
    omega
  | right =>
    show _ + (((Client.set l.state (m.verb.half, m.opt) _).2.map (Prod.mk Party.left)).map
      weight).sum + _ < _ + (if m.verb.wants then 5 else 1) + _
    rw [weight_sent]
    have hset := potential_set l.state (m.verb.half, m.opt)
      ((l.state (m.verb.half, m.opt)).receive (accepts (m.verb.half, m.opt)) m.verb.wants).1
    have hq := (l.state (m.verb.half, m.opt)).receive_potential
      (accepts (m.verb.half, m.opt)) m.verb.wants
    show _ + 2 * (List.map _ _).length + (∑ y, (Function.update l.state (m.verb.half, m.opt)
      ((l.state (m.verb.half, m.opt)).receive (accepts (m.verb.half, m.opt))
        m.verb.wants).1 y).potential) < _
    rw [List.length_map]
    omega

/-- **What the hello offers is revoked**: whatever the client accepts or wishes for and in
whatever order the messages arrive, none of it is in force when nothing is in flight, and the
exchange always gets there. -/
theorem offers_revoked (accepts : Half × UInt8 → Bool) (l : Link Client Msg)
    (h : (console accepts).Reaches greeted l) :
    (l.flight = [] → ∀ x ∈ offers, l.state x = .no) ∧
      ∃ l', (console accepts).Reaches l l' ∧ l'.flight = [] := by
  constructor
  · intro hquiet x _
    by_contra hno
    obtain ⟨e, he, _⟩ := doubted_reached h x hno
    rw [hquiet] at he
    cases he
  · obtain ⟨n, hn⟩ := Exchange.settles commotion_delivery l
    exact ⟨_, Exchange.reaches_drain n l, hn⟩

/-- the three offers are accepted, and have been revoked after fifteen messages -/
theorem offers_revoked_fifteen : ∃ l, (console fun x => decide (x ∈ offers)).Reaches greeted l ∧
    l.flight = [] ∧ ∀ x ∈ offers, l.state x = .no := by
  have hr := Exchange.reaches_drain (E := console fun x => decide (x ∈ offers)) 15 greeted
  have hq : ((console fun x => decide (x ∈ offers)).drain 15 greeted).flight = [] := by
    decide +kernel
  exact ⟨_, hr, hq, (offers_revoked _ _ hr).1 hq⟩

theorem agreement_fails : ¬∀ accepts : Half × UInt8 → Bool, (∀ x ∈ offers, accepts x = true) →
    ∀ l, (console accepts).Reaches greeted l → l.flight = [] → Agreed l.state := by
  intro h
  have h := h (fun x => decide (x ∈ offers)) (fun x hx => decide_eq_true hx) _
    (Exchange.reaches_drain 15 greeted) (by decide +kernel)
  exact absurd h (by decide +kernel)

end Nmconsole
