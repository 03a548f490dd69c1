import Relicnos.Interact.Ledger
import Relicnos.Nmconsole.Isolation
import Relicnos.Nmconsole.Ready

/-!
# The clients of a port

Clients connect to a listening socket and wait until they are accepted, in the order in which they
came.  `Net` is what they have done; the number of a client is how many came before it.

* `clients`       the calls of the server among clients that come and go at any time;
* `Account`       every client that was accepted is over, but for the one that is served;
* `wp_visit_account`, `wp_nmMain_account`  it holds at the head of the loop;
* `last_wins_iff`  when everything has been handled, the latest client that is there is the one
                  that is served if and only if it is the only one there.
-/

set_option linter.unusedVariables false

namespace Nmconsole
open Interact

structure Net where
  /-- how many have connected to a listening file, and how many of them were accepted -/
  count : Nat → Nat
  taken : Nat → Nat
  /-- a client has closed its connection -/
  gone : Nat → Nat → Bool
  /-- no tty could be opened for it -/
  refused : Nat → Nat → Bool
  /-- the server has closed its connection -/
  closed : Nat → Nat → Bool
  /-- the client at the other end of an accepted connection -/
  who : Nat → Option (Nat × Nat)

/-- one more client is in the set -/
def mark (m : Nat → Nat → Bool) (x : Nat × Nat) : Nat → Nat → Bool :=
  fun listener k => m listener k || decide ((listener, k) = x)

namespace Net

/-- the client behind a descriptor -/
def behind (n : Net) (s : Sys) (fd : Nat) : Option (Nat × Nat) :=
  (s.files fd).bind fun f => n.who f.id

/-- the client that has waited longest is behind the next file -/
def accept (n : Net) (s : Sys) : Option File → Net
  | some f => { n with
      taken := Function.update n.taken f.id (n.taken f.id + 1)
      who := Function.update n.who s.fresh (some (f.id, n.taken f.id)) }
  | none => n

def refuse (n : Net) : Option (Nat × Nat) → Net
  | some x => { n with refused := mark n.refused x }
  | none => n

def close (n : Net) : Option (Nat × Nat) → Net
  | some x => { n with closed := mark n.closed x }
  | none => n

/-- what a call means to the clients; a tty that cannot be opened is for the connection that was
accepted last -/
def see (s : Sys) : (o : Op) → Res o → Net → Net
  | .accept l, fd, n => if (show Option Nat from fd).isSome then n.accept s (s.files l) else n
  | .openTty _, fd, n =>
    if (show Option Nat from fd).isSome then n else n.refuse (s.accepted.bind (n.behind s))
  | .close fd, _, n => n.close (n.behind s fd)
  | _, _, n => n

/-- nobody is accepted who does not wait, and a connection ends for the server only if the client
has closed it -/
def Allows (n : Net) (s : Sys) : (o : Op) → Res o → Prop
  | .accept l, fd => (show Option Nat from fd) ≠ none →
      ∃ f, s.files l = some f ∧ n.taken f.id < n.count f.id
  | .read fd _, bs => ((show Option (List UInt8) from bs) = none ∨ bs = some []) →
      ∀ x, n.behind s fd = some x → n.gone x.1 x.2 = true
  | _, _ => True

/-- clients come, and clients that are there leave -/
structure Comes (n n' : Net) : Prop where
  count : ∀ listener, n.count listener ≤ n'.count listener
  gone : ∀ listener k, n.gone listener k = true → n'.gone listener k = true
  left : ∀ listener k, n'.gone listener k = true → n.gone listener k = true ∨ k < n'.count listener
  taken : n'.taken = n.taken
  refused : n'.refused = n.refused
  closed : n'.closed = n.closed
  who : n'.who = n.who

theorem Comes.refl (n : Net) : n.Comes n :=
  ⟨fun _ => Nat.le_refl _, fun _ _ h => h, fun _ _ h => Or.inl h, rfl, rfl, rfl, rfl⟩

theorem Comes.trans {n n' n'' : Net} (h : n.Comes n') (h' : n'.Comes n'') : n.Comes n'' := by
  refine ⟨fun L => Nat.le_trans (h.count L) (h'.count L), fun L k hg => h'.gone L k (h.gone L k hg),
    ?_, h'.taken.trans h.taken, h'.refused.trans h.refused, h'.closed.trans h.closed,
    h'.who.trans h.who⟩
  intro L k hg
  rcases h'.left L k hg with hg | hk
  · rcases h.left L k hg with hg | hk
    · exact Or.inl hg
    · exact Or.inr (Nat.lt_of_lt_of_le hk (h'.count L))
  · exact Or.inr hk

end Net

def clients : Env Op Res (Sys × Net) where
  rely a b := b.1 = a.1 ∧ a.2.Comes b.2
  access a o r b := a.1.access o r b.1 ∧ a.2.Allows a.1 o r ∧ b.2 = a.2.see a.1 o r

theorem clients_maps : clients.Maps Prod.fst posix :=
  ⟨fun _ _ h => h.1, fun _ _ _ _ h => h.1⟩

/-! ## the account of a port -/

/-- the server has closed the connection of a client that had left or could not be served -/
def Net.Over (n : Net) (listener k : Nat) : Prop :=
  n.closed listener k = true ∧ (n.gone listener k = true ∨ n.refused listener k = true)

/-- who has not been accepted yet has not been refused -/
structure Net.Line (n : Net) (listener : Nat) : Prop where
  taken : n.taken listener ≤ n.count listener
  waiting : ∀ k, n.taken listener ≤ k → n.refused listener k = false

/-- the client that was accepted last is served, or none is -/
def Net.Holder (n : Net) (s : Sys) (listener : Nat) : Option Nat → Prop
  | none => ∀ k < n.taken listener, n.Over listener k
  | some c => ∃ m, n.behind s c = some (listener, m) ∧ n.taken listener = m + 1 ∧
      n.refused listener m = false ∧ ∀ k < m, n.Over listener k

def Account (p : Port) (s : Sys) (n : Net) : Prop :=
  ∀ l f, p.listenFd = some l → s.files l = some f →
    n.Line f.id ∧ n.Holder s f.id p.clientFd

/-- the files of `K` and their clients are left alone -/
structure Beside (K : Nat → Prop) (s0 : Sys) (n0 n : Net) : Prop where
  taken : ∀ fd f, K fd → s0.files fd = some f → n.taken f.id = n0.taken f.id
  refused : ∀ fd f, K fd → s0.files fd = some f → n.refused f.id = n0.refused f.id
  who : ∀ fd f, K fd → s0.files fd = some f → n.who f.id = n0.who f.id
  count : ∀ listener, n0.count listener ≤ n.count listener
  gone : ∀ listener k, n0.gone listener k = true → n.gone listener k = true
  closed : ∀ listener k, n0.closed listener k = true → n.closed listener k = true

/-! ## what the calls do to it -/

section
variable {K : Nat → Prop} {own : List Nat} {p : Port} {s s' s0 : Sys} {n n' n0 : Net}

theorem Net.Over.comes {L k : Nat} (h : n.Over L k) (hc : n.Comes n') : n'.Over L k := by
  unfold Net.Over at h ⊢
  rw [hc.closed, hc.refused]
  refine ⟨h.1, ?_⟩
  rcases h.2 with hg | hr
  · exact Or.inl (hc.gone L k hg)
  · exact Or.inr hr

theorem Net.Line.comes {L : Nat} (h : n.Line L) (hc : n.Comes n') : n'.Line L := by
  refine ⟨?_, ?_⟩
  · rw [hc.taken]
    exact Nat.le_trans h.taken (hc.count L)
  · rw [hc.taken, hc.refused]
    exact h.waiting

theorem Net.Holder.comes {L : Nat} {held : Option Nat} (h : n.Holder s L held)
    (hf : s'.files = s.files) (hc : n.Comes n') : n'.Holder s' L held := by
  cases held with
  | none =>
    intro k hk
    rw [hc.taken] at hk
    exact (h k hk).comes hc
  | some c =>
    obtain ⟨m, hb, ht, hr, hover⟩ := h
    refine ⟨m, ?_, ?_, ?_, fun k hk => (hover k hk).comes hc⟩
    · unfold Net.behind
      rw [hf, hc.who]
      exact hb
    · rw [hc.taken, ht]
    · rw [hc.refused, hr]

theorem Account.comes (h : Account p s n) (hf : s'.files = s.files) (hc : n.Comes n') :
    Account p s' n' := by
  intro l f hl hlf
  rw [hf] at hlf
  obtain ⟨h1, h2⟩ := h l f hl hlf
  exact ⟨h1.comes hc, h2.comes hf hc⟩

theorem Beside.refl (K : Nat → Prop) (s : Sys) (n : Net) : Beside K s n n :=
  ⟨fun _ _ _ _ => rfl, fun _ _ _ _ => rfl, fun _ _ _ _ => rfl, fun _ => Nat.le_refl _,
    fun _ _ h => h, fun _ _ h => h⟩

theorem Beside.comes (h : Beside K s0 n0 n) (hc : n.Comes n') : Beside K s0 n0 n' := by
  obtain ⟨h1, h2, h3, h4, h5, h6⟩ := h
  refine ⟨?_, ?_, ?_, fun L => Nat.le_trans (h4 L) (hc.count L),
    fun L k hg => hc.gone L k (h5 L k hg), ?_⟩
  · rw [hc.taken]
    exact h1
  · rw [hc.refused]
    exact h2
  · rw [hc.who]
    exact h3
  · rw [hc.closed]
    exact h6

/-- somebody else acted -/
theorem Account.beside (h : Account p s0 n0) (hf : Frame K s0 s) (hb : Beside K s0 n0 n)
    (hk : ∀ fd ∈ p.fds, K fd) : Account p s n := by
  intro l f hl hlf
  have hlk : K l := hk l (by simp [Port.fds, hl])
  rw [hf.files l hlk] at hlf
  obtain ⟨hline, hheld⟩ := h l f hl hlf
  have ht := hb.taken l f hlk hlf
  have hr := hb.refused l f hlk hlf
  have hover : ∀ k, n0.Over f.id k → n.Over f.id k := by
    intro k hk
    refine ⟨hb.closed _ _ hk.1, ?_⟩
    rw [hr]
    rcases hk.2 with hg | hg
    · exact Or.inl (hb.gone _ _ hg)
    · exact Or.inr hg
  refine ⟨⟨?_, ?_⟩, ?_⟩
  · rw [ht]
    exact Nat.le_trans hline.taken (hb.count _)
  · rw [ht, hr]
    exact hline.waiting
  · cases hc : p.clientFd with
    | none =>
      rw [hc] at hheld
      intro k hk
      rw [ht] at hk
      exact hover k (hheld k hk)
    | some c =>
      rw [hc] at hheld
      obtain ⟨m, hbehind, htaken, href, hall⟩ := hheld
      have hck : K c := hk c (mem_fds_client hc)
      refine ⟨m, ?_, ht.trans htaken, ?_, fun k hk => hover k (hall k hk)⟩
      · unfold Net.behind at hbehind ⊢
        rw [hf.files c hck]
        cases hg : s0.files c with
        | none =>
          rw [hg] at hbehind
          cases hbehind
        | some g =>
          rw [hg] at hbehind
          exact (hb.who c g hck hg).trans hbehind
      · rw [hr]
        exact href

end

/-! ## one call -/

/-- no guard -/
abbrev Any : Event Op Res (Sys × Net) → Prop := fun _ => True

section
variable {α : Type} {K : Nat → Prop} {own : List Nat} {a : Sys × Net} {s0 : Sys} {n0 : Net}
variable {Q : α → Sys × Net → Prop}

theorem wp_net {o : Op} {f : Res o → Posix α}
    (h : ∀ n1, a.2.Comes n1 → ∀ r s', a.1.access o r s' → n1.Allows a.1 o r →
      wp clients Any (f r) Q (s', n1.see a.1 o r)) :
    wp clients Any (issue o >>= f) Q a := by
  intro ⟨s1, n1⟩ ⟨hs, hc⟩ r ⟨s2, n2⟩ ⟨ha, hall, hn⟩
  obtain rfl : s1 = a.1 := hs
  obtain rfl : n2 = n1.see a.1 o r := hn
  exact ⟨trivial, h n1 hc r s2 ha hall⟩

/-- what neither opens nor closes anything, nor reads -/
def Op.Hums (own : List Nat) : Op → Prop
  | .write fd _ => fd ∈ own
  | .setsockopt _ => True
  | .tcgetattr _ => True
  | .tcsetattr _ _ => True
  | .tcsendbreak _ => True
  | _ => False

/-- the same files, and clients have come and gone -/
structure Idles (a b : Sys × Net) : Prop where
  files : b.1.files = a.1.files
  accepted : b.1.accepted = a.1.accepted
  comes : a.2.Comes b.2

theorem Idles.refl (a : Sys × Net) : Idles a a := ⟨rfl, rfl, .refl _⟩

theorem Idles.trans {b c : Sys × Net} (h : Idles a b) (h' : Idles b c) : Idles a c :=
  ⟨h'.files.trans h.files, h'.accepted.trans h.accepted, h.comes.trans h'.comes⟩

theorem accepted_logPut {s : Sys} {fd n : Nat} {bs : List UInt8} :
    (s.logPut fd bs n).accepted = s.accepted := by
  unfold Sys.logPut
  split <;> rfl

theorem accepted_logGot {s : Sys} {fd : Nat} {bs : List UInt8} :
    (s.logGot fd bs).accepted = s.accepted := by
  unfold Sys.logGot
  split <;> rfl

theorem wp_hums {x : Posix α} (hu : x.Uses (Op.Hums own)) (h : Holds K own s0 a.1) :
    wp clients Any x (fun _ b => Holds K own s0 b.1 ∧ Idles a b) a := by
  refine wp_keeps (P := fun b => Holds K own s0 b.1 ∧ Idles a b) ?_ ?_ hu ⟨h, .refl a⟩
  · intro b b' ⟨hb, hi⟩ ⟨hs, hc⟩
    rw [hs]
    exact ⟨hb, hi.trans ⟨by rw [hs], by rw [hs], hc⟩⟩
  · intro b o r b' ho ⟨hb, hi⟩ ⟨ha, _, hn⟩
    refine ⟨trivial, ?_⟩
    have hstay : b'.1 = b.1 → b'.2 = b.2 → Holds K own s0 b'.1 ∧ Idles a b' := by
      intro e1 e2
      obtain rfl : b' = b := Prod.ext e1 e2
      exact ⟨hb, hi⟩
    cases o with
    | write fd bs =>
      have hput : ∀ n, n ≤ bs.length → b'.1 = b.1.logPut fd bs n →
          Holds K own s0 b'.1 ∧ Idles a b' := by
        intro n hle e
        rw [e]
        refine ⟨hb.logPut ho hle, hi.trans ⟨?_, ?_, ?_⟩⟩
        · rw [e]
          exact calm_logPut.files
        · rw [e]
          exact accepted_logPut
        · rw [show b'.2 = b.2 from hn]
          exact .refl _
      cases r with
      | none => exact hput 0 (Nat.zero_le _) ha
      | some n => exact hput n ha.1 ha.2
    | setsockopt fd => exact hstay ha hn
    | tcgetattr fd => exact hstay ha hn
    | tcsetattr fd baud => exact hstay ha hn
    | tcsendbreak fd => exact hstay ha hn
    | _ => exact ho.elim

end

/-! ## one visit -/

section
variable {K : Nat → Prop} {own : List Nat} {p q : Port} {a b : Sys × Net} {s0 : Sys} {n0 : Net}
variable {c t : Nat}

/-- a port and its clients, the others being left alone -/
structure Minds (K : Nat → Prop) (own : List Nat) (p : Port) (s0 : Sys) (n0 : Net)
    (b : Sys × Net) : Prop where
  holds : Holds K own s0 b.1
  beside : Beside K s0 n0 b.2
  account : Account p b.1 b.2

theorem Minds.idles (h : Minds K own p s0 n0 a) (hb : Holds K own s0 b.1) (hi : Idles a b) :
    Minds K own p s0 n0 b :=
  ⟨hb, h.beside.comes hi.comes, h.account.comes hi.files hi.comes⟩

theorem Minds.comes {n : Net} (h : Minds K own p s0 n0 a) (hc : a.2.Comes n) :
    Minds K own p s0 n0 (a.1, n) :=
  h.idles h.holds ⟨rfl, rfl, hc⟩

theorem mark_true {m : Nat → Nat → Bool} {x : Nat × Nat} {L k : Nat} :
    mark m x L k = true ↔ m L k = true ∨ (L, k) = x := by
  simp [mark]

theorem mark_of_ne {m : Nat → Nat → Bool} {x : Nat × Nat} {L k : Nat} (h : (L, k) ≠ x) :
    mark m x L k = m L k := by
  simp [mark, h]

/-- whatever is closed, the rest of the net is as it was -/
theorem see_close (n : Net) (s : Sys) (fd : Nat) :
    ∃ m, n.see s (.close fd) () = { n with closed := m } ∧
      (∀ L k, n.closed L k = true → m L k = true) ∧
      ∀ x, n.behind s fd = some x → m x.1 x.2 = true := by
  show ∃ m, n.close (n.behind s fd) = _ ∧ _
  cases n.behind s fd with
  | none => exact ⟨n.closed, rfl, fun _ _ h => h, nofun⟩
  | some x =>
    refine ⟨mark n.closed x, rfl, fun L k h => mark_true.mpr (Or.inl h), ?_⟩
    intro y hy
    obtain rfl := Option.some.inj hy
    exact mark_true.mpr (Or.inr rfl)

theorem Beside.close {n : Net} {m : Nat → Nat → Bool} (h : Beside K s0 n0 n)
    (hm : ∀ L k, n.closed L k = true → m L k = true) :
    Beside K s0 n0 { n with closed := m } :=
  ⟨h.taken, h.refused, h.who, h.count, h.gone, fun L k hc => hm L k (h.closed L k hc)⟩

theorem Net.Over.close {n : Net} {m : Nat → Nat → Bool} {L k : Nat} (h : n.Over L k)
    (hm : ∀ L k, n.closed L k = true → m L k = true) : ({ n with closed := m } : Net).Over L k :=
  ⟨hm L k h.1, h.2⟩

/-- a port without a client does not mind what else is closed -/
theorem Minds.close (h : Minds K (t :: own) q s0 n0 a) (hq : q.clientFd = none)
    (hl : ∀ l, q.listenFd = some l → l ∈ own) :
    Minds K own q s0 n0 ({ a.1 with files := Function.update a.1.files t none },
      a.2.see a.1 (.close t) ()) := by
  obtain ⟨m, hsee, hm, _⟩ := see_close a.2 a.1 t
  rw [hsee]
  refine ⟨h.holds.close, h.beside.close hm, ?_⟩
  intro l f hlf hf
  have hne : l ≠ t := by
    rintro rfl
    exact (List.nodup_cons.mp h.holds.nodup).1 (hl l hlf)
  have hf : Function.update a.1.files t none l = some f := hf
  rw [Function.update_of_ne hne] at hf
  obtain ⟨hline, hheld⟩ := h.account l f hlf hf
  rw [hq] at hheld ⊢
  exact ⟨⟨hline.taken, hline.waiting⟩, fun k hk => (hheld k hk).close hm⟩

theorem hums_talk (hc : c ∈ own) : ∀ o, Op.Talk c o → Op.Hums own o := by
  intro o ho
  cases o with
  | write fd bs =>
    obtain rfl : fd = c := ho
    exact hc
  | tcsendbreak fd => trivial
  | _ => exact ho.elim

theorem hums_setSpeed {conf : Conf} {i : Fin maxp} {fd : Nat} :
    (setSpeed conf i fd).Uses (Op.Hums own) := by
  unfold setSpeed
  exact Prog.Uses.bind ((Prog.uses_call _).mpr trivial)
    fun _ => Prog.Uses.ite ((Prog.uses_call _).mpr trivial) trivial

/-! ### a new client -/

/-- the `m`-th client of the listening file has been accepted behind the number `c`; `bad` says
that it has been refused -/
structure Greeting (K : Nat → Prop) (p : Port) (c listener m : Nat) (bad : Bool) (s0 : Sys)
    (n0 : Net) (b : Sys × Net) : Prop where
  holds : Holds K (c :: p.fds) s0 b.1
  beside : Beside K s0 n0 b.2
  last : b.1.accepted = some c
  client : b.2.behind b.1 c = some (listener, m)
  listens : ∀ l f, p.listenFd = some l → b.1.files l = some f → f.id = listener
  apart : ∀ fd f, K fd → s0.files fd = some f → f.id ≠ listener
  line : b.2.Line listener
  taken : b.2.taken listener = m + 1
  refused : b.2.refused listener m = bad
  past : ∀ k < m, b.2.Over listener k

variable {L m : Nat} {bad : Bool}

theorem Greeting.idles (h : Greeting K p c L m bad s0 n0 a) (hb : Holds K (c :: p.fds) s0 b.1)
    (hi : Idles a b) : Greeting K p c L m bad s0 n0 b := by
  refine ⟨hb, h.beside.comes hi.comes, hi.accepted.trans h.last, ?_, ?_, h.apart,
    h.line.comes hi.comes, ?_, ?_, fun k hk => (h.past k hk).comes hi.comes⟩
  · unfold Net.behind
    rw [hi.files, hi.comes.who]
    exact h.client
  · rw [hi.files]
    exact h.listens
  · rw [hi.comes.taken, h.taken]
  · rw [hi.comes.refused, h.refused]

theorem Greeting.refuse (h : Greeting K p c L m false s0 n0 a) :
    Greeting K p c L m true s0 n0 (a.1, { a.2 with refused := mark a.2.refused (L, m) }) := by
  refine ⟨h.holds, ⟨h.beside.taken, ?_, h.beside.who, h.beside.count, h.beside.gone,
    h.beside.closed⟩, h.last, h.client, h.listens, h.apart, ⟨h.line.taken, ?_⟩, h.taken,
    mark_true.mpr (Or.inr rfl), ?_⟩
  · intro fd f hk hf
    funext k
    show mark a.2.refused (L, m) f.id k = n0.refused f.id k
    rw [mark_of_ne fun e => h.apart fd f hk hf (Prod.mk.inj e).1, h.beside.refused fd f hk hf]
  · intro k hk
    have hk : a.2.taken L ≤ k := hk
    have hne : k ≠ m := by
      have := h.taken
      omega
    show mark a.2.refused (L, m) L k = false
    rw [mark_of_ne fun e => hne (Prod.mk.inj e).2]
    exact h.line.waiting k hk
  · intro k hk
    obtain ⟨hc, hr⟩ := h.past k hk
    exact ⟨hc, hr.imp id fun hr => mark_true.mpr (Or.inl hr)⟩

/-- the number of a connection is not the one that is listened on -/
theorem Greeting.listen_ne (h : Greeting K p c L m bad s0 n0 a) {l : Nat}
    (hl : p.listenFd = some l) : l ≠ c := by
  rintro rfl
  exact (List.nodup_cons.mp h.holds.nodup).1 (by simp [Port.fds, hl])

/-- a client that was refused is sent away -/
theorem Greeting.dismiss (h : Greeting K p c L m true s0 n0 a) (hc : p.clientFd = none)
    (ht : p.ttyFd = none) :
    Minds K ({ p with clientFd := none, ttyFd := none } : Port).fds
      { p with clientFd := none, ttyFd := none } s0 n0
      ({ a.1 with files := Function.update a.1.files c none }, a.2.see a.1 (.close c) ()) := by
  obtain ⟨cl, hsee, hm, hlast⟩ := see_close a.2 a.1 c
  rw [hsee]
  have e : ({ p with clientFd := none, ttyFd := none } : Port).fds = p.fds := by
    rw [fds_of_none hc ht]
    exact fds_of_none rfl rfl
  refine ⟨by rw [e]; exact h.holds.close, h.beside.close hm, ?_⟩
  intro l f hl hf
  have hf : Function.update a.1.files c none l = some f := hf
  rw [Function.update_of_ne (h.listen_ne hl)] at hf
  obtain rfl := h.listens l f hl hf
  refine ⟨⟨h.line.taken, h.line.waiting⟩, ?_⟩
  intro k hk
  have hk : k < a.2.taken f.id := hk
  rw [h.taken] at hk
  rcases Nat.lt_succ_iff_lt_or_eq.mp hk with hlt | rfl
  · exact (h.past k hlt).close hm
  · exact ⟨hlast _ h.client, Or.inr h.refused⟩

/-- a client that was not is served -/
theorem Greeting.serve (h : Greeting K p c L m false s0 n0 a) (hc : p.clientFd = none)
    (ht : p.ttyFd = none) (hl : a.1.files t = none) {kind : FileKind} {x : Bool} :
    Minds K ({ p with clientFd := some c, ttyFd := some t } : Port).fds
      { p with clientFd := some c, ttyFd := some t } s0 n0
      ({ a.1.install t kind with tainted := x }, a.2) := by
  have hi := (h.holds.install hl kind).mark a.1.accepted x
  obtain ⟨hsub, hnd⟩ := fds_session hc ht hi.nodup
  have hct : c ≠ t := by
    rintro rfl
    exact (h.holds.held c (List.mem_cons_self ..)).1 hl
  refine ⟨hi.sub hsub hnd, h.beside, ?_⟩
  intro l f hl' hf
  have hl' : p.listenFd = some l := hl'
  have hmem : l ∈ p.fds := by simp [Port.fds, hl']
  have hlt : l ≠ t := by
    rintro rfl
    exact (h.holds.held l (List.mem_cons_of_mem _ hmem)).1 hl
  have hf : Function.update a.1.files t _ l = some f := hf
  rw [Function.update_of_ne hlt] at hf
  obtain rfl := h.listens l f hl' hf
  refine ⟨h.line, m, ?_, h.taken, h.refused, h.past⟩
  show (Function.update a.1.files t _ c).bind _ = some (f.id, m)
  rw [Function.update_of_ne hct]
  exact h.client

theorem wp_greet_account {conf : Conf} {i : Fin maxp} (h : Greeting K p c L m false s0 n0 a)
    (hc : p.clientFd = none) (ht : p.ttyFd = none) :
    wp clients Any (greet conf i p c) (fun p' b => Minds K p'.fds p' s0 n0 b) a := by
  have hset : (setsockopt c).Uses (Op.Hums (c :: p.fds)) := (Prog.uses_call _).mpr trivial
  unfold greet
  rw [wp_bind]
  apply wp_post (wp_hums hset h.holds)
  intro _ b ⟨hb, hi⟩
  have h := h.idles hb hi
  unfold openTty
  rw [Prog.bind_assoc]
  apply wp_net
  intro n1 hn1 r s1 ha _
  have h := h.idles (b := (b.1, n1)) h.holds ⟨rfl, rfl, hn1⟩
  change Option Nat at r
  cases r with
  | none =>
    obtain rfl : s1 = b.1 := ha
    have hsee : n1.see b.1 (.openTty i.val) (none : Option Nat)
        = { n1 with refused := mark n1.refused (L, m) } := by
      show n1.refuse (b.1.accepted.bind (n1.behind b.1)) = _
      rw [h.last, Option.bind_some, h.client]
      rfl
    rw [hsee]
    have hwrite : (write c (cannotOpen i)).Uses (Op.Hums (c :: p.fds)) :=
      (Prog.uses_call _).mpr (List.mem_cons_self ..)
    show wp clients Any (write c (cannotOpen i) >>= fun _ => close c >>= fun _ => pure _) _ _
    rw [wp_bind]
    apply wp_post (wp_hums hwrite h.refuse.holds)
    intro _ b2 ⟨hb2, hi2⟩
    have h2 := h.refuse.idles hb2 hi2
    apply wp_net
    intro n2 hn2 _ s2 ha2 _
    obtain rfl : s2 = { b2.1 with files := Function.update b2.1.files c none } := ha2
    exact (h2.idles (b := (b2.1, n2)) h2.holds ⟨rfl, rfl, hn2⟩).dismiss hc ht
  | some t =>
    obtain ⟨hl, rfl⟩ : b.1.Lowest t ∧
      s1 = { b.1.install t (.tty i.val) with tainted := b.1.tainted || b.1.stale t } := ha
    have hm := @Greeting.serve _ _ _ _ _ _ t _ _ h hc ht hl.1 (.tty i.val)
      (b.1.tainted || b.1.stale t)
    show wp clients Any ((setSpeed conf i t >>= fun _ => pure (some t)) >>= _) _ (_, n1)
    rw [Prog.bind_assoc, wp_bind]
    apply wp_post (wp_hums hums_setSpeed hm.holds)
    intro _ b2 ⟨hb2, hi2⟩
    have h2 := hm.idles hb2 hi2
    show wp clients Any (sayHello conf c >>= fun _ => pure _) _ _
    rw [wp_bind]
    apply wp_post (wp_hums (uses_sayHello.mono (hums_talk (mem_fds_client rfl))) h2.holds)
    intro _ b3 ⟨hb3, hi3⟩
    exact h2.idles hb3 hi3

end

section
variable {K : Nat → Prop} {p : Port} {a : Sys × Net} {s0 : Sys} {n0 : Net} {c l : Nat}
variable {conf : Conf} {i : Fin maxp} {r : FdSet}

/-- the client that has waited longest is accepted -/
theorem Minds.accept {f : File} (h : Minds K p.fds p s0 n0 a) (hl : p.listenFd = some l)
    (hc : p.clientFd = none) (hf : a.1.files l = some f) (hw : a.2.taken f.id < a.2.count f.id)
    (hfree : a.1.files c = none) :
    Greeting K p c f.id (a.2.taken f.id) false s0 n0
      ({ a.1.install c .conn with accepted := some c }, a.2.accept a.1 (some f)) := by
  have hmem : l ∈ p.fds := by simp [Port.fds, hl]
  have hlc : l ≠ c := by
    rintro rfl
    rw [hf] at hfree
    cases hfree
  have hapart : ∀ fd g, K fd → s0.files fd = some g → g.id ≠ f.id :=
    fun fd g hk hg => h.holds.id_ne hmem hf hk hg
  obtain ⟨hline, hheld⟩ := h.account l f hl hf
  rw [hc] at hheld
  refine ⟨(h.holds.accept hfree).holds, ⟨?_, h.beside.refused, ?_, h.beside.count, h.beside.gone,
    h.beside.closed⟩, rfl, ?_, ?_, hapart, ⟨?_, ?_⟩, ?_, ?_, hheld⟩
  · intro fd g hk hg
    show Function.update a.2.taken f.id _ g.id = _
    rw [Function.update_of_ne (hapart fd g hk hg)]
    exact h.beside.taken fd g hk hg
  · intro fd g hk hg
    have hnew : g.id ≠ a.1.fresh := by
      have := h.holds.wf.ids fd g ((h.holds.frame.files fd hk).trans hg)
      omega
    show Function.update a.2.who a.1.fresh _ g.id = _
    rw [Function.update_of_ne hnew]
    exact h.beside.who fd g hk hg
  · show (Function.update a.1.files c (some ⟨a.1.fresh, .conn⟩) c).bind _ = _
    rw [Function.update_self]
    exact Function.update_self ..
  · intro l' g hl' hg
    obtain rfl : l = l' := Option.some.inj (hl.symm.trans hl')
    have hg : Function.update a.1.files c _ l = some g := hg
    rw [Function.update_of_ne hlc, hf] at hg
    rw [Option.some.inj hg]
  · show Function.update a.2.taken f.id _ f.id ≤ a.2.count f.id
    rw [Function.update_self]
    exact hw
  · intro k hk
    have hk : Function.update a.2.taken f.id (a.2.taken f.id + 1) f.id ≤ k := hk
    rw [Function.update_self] at hk
    exact hline.waiting k (Nat.le_of_succ_le hk)
  · exact Function.update_self ..
  · exact hline.waiting _ (Nat.le_refl _)

theorem wp_newClient_account (h : Minds K p.fds p s0 n0 a)
    (hp : p.clientFd.isSome = p.ttyFd.isSome) :
    wp clients Any (newClient conf i r p) (fun p' b => Minds K p'.fds p' s0 n0 b) a := by
  unfold newClient
  split
  · rename_i l hl hc
    split
    · apply wp_net
      intro n1 hn1 res s1 ha hall
      have h := h.comes hn1
      change Option Nat at res
      cases res with
      | none =>
        obtain rfl : s1 = a.1 := ha
        exact h
      | some c =>
        obtain ⟨hlow, rfl⟩ : a.1.Lowest c ∧
          s1 = { a.1.install c .conn with accepted := some c } := ha
        obtain ⟨f, hf, hw⟩ := hall nofun
        have hsee : n1.see a.1 (.accept l) (some c : Option Nat) = n1.accept a.1 (some f) := by
          rw [← hf]
          rfl
        rw [hsee]
        exact wp_greet_account (h.accept hl hc hf hw hlow.1) hc (tty_none hp hc)
    · exact h
  · exact h

theorem wp_close_account {own : List Nat} {t : Nat} (h : Minds K (t :: own) p s0 n0 a)
    (hc : p.clientFd = none) (hl : ∀ l, p.listenFd = some l → l ∈ own) :
    wp clients Any (close t) (fun _ b => Minds K own p s0 n0 b) a := by
  intro ⟨s1, n1⟩ ⟨hs, hn1⟩ r ⟨s2, n2⟩ ⟨ha, _, hsee⟩
  obtain rfl : s1 = a.1 := hs
  obtain rfl : s2 = { a.1 with files := Function.update a.1.files t none } := ha
  obtain rfl : n2 = n1.see a.1 (.close t) r := hsee
  exact ⟨trivial, (h.comes hn1).close hc hl⟩

/-- a client that has left is let go -/
theorem wp_hangup_account (h : Minds K p.fds p s0 n0 a) (hc : p.clientFd = some c)
    (hgone : ∀ x, a.2.behind a.1 c = some x → a.2.gone x.1 x.2 = true) :
    wp clients Any (hangup p c) (fun p' b => Minds K p'.fds p' s0 n0 b) a := by
  apply wp_net
  intro n1 hn1 _ s1 ha _
  obtain rfl : s1 = { a.1 with files := Function.update a.1.files c none } := ha
  have hgone : ∀ x, n1.behind a.1 c = some x → n1.gone x.1 x.2 = true := by
    intro x hx
    unfold Net.behind at hx
    rw [hn1.who] at hx
    exact hn1.gone _ _ (hgone x hx)
  have h := h.comes hn1
  have hperm : p.fds.Perm (c :: (p.ttyFd.toList ++ p.listenFd.toList)) := by
    unfold Port.fds
    rw [hc, List.append_assoc]
    exact List.perm_append_comm
  have hown : Holds K (c :: (p.ttyFd.toList ++ p.listenFd.toList)) s0 a.1 :=
    h.holds.sub hperm.symm.subset (hperm.nodup_iff.mp h.holds.nodup)
  obtain ⟨cl, hsee, hm, hlast⟩ := see_close n1 a.1 c
  have h1 : Minds K (p.ttyFd.toList ++ p.listenFd.toList)
      { p with clientFd := none, ttyFd := none } s0 n0
      ({ a.1 with files := Function.update a.1.files c none }, n1.see a.1 (.close c) ()) := by
    rw [hsee]
    refine ⟨hown.close, h.beside.close hm, ?_⟩
    intro l f hl hf
    have hl : p.listenFd = some l := hl
    have hmem : l ∈ p.ttyFd.toList ++ p.listenFd.toList := by simp [hl]
    have hne : l ≠ c := by
      rintro rfl
      exact (List.nodup_cons.mp hown.nodup).1 hmem
    have hf : Function.update a.1.files c none l = some f := hf
    rw [Function.update_of_ne hne] at hf
    obtain ⟨hline, hheld⟩ := h.account l f hl hf
    rw [hc] at hheld
    obtain ⟨m, hbehind, htaken, _, hover⟩ := hheld
    refine ⟨⟨hline.taken, hline.waiting⟩, ?_⟩
    intro k hk
    have hk : k < n1.taken f.id := hk
    rw [htaken] at hk
    rcases Nat.lt_succ_iff_lt_or_eq.mp hk with hlt | rfl
    · exact (hover k hlt).close hm
    · exact ⟨hlast _ hbehind, Or.inl (hgone _ hbehind)⟩
  have hfds : ({ p with clientFd := none, ttyFd := none } : Port).fds = p.listenFd.toList :=
    fds_of_none rfl rfl
  show wp clients Any (closeTty p >>= fun _ => pure _) _ _
  unfold closeTty
  cases ht : p.ttyFd with
  | none =>
    rw [ht] at h1
    show Minds K _ _ s0 n0 _
    rw [hfds]
    exact h1
  | some t =>
    rw [ht] at h1
    rw [wp_bind]
    apply wp_post (wp_close_account h1 rfl fun l hl => Option.mem_toList.mpr hl)
    intro _ b hb
    show Minds K _ _ s0 n0 b
    rw [hfds]
    exact hb

theorem hums_relay {t : Nat} {bs : List UInt8} (hc : c ∈ p.fds) (ht : t ∈ p.fds) :
    (relay conf c t bs).Uses (Op.Hums p.fds) := by
  unfold relay
  apply Prog.Uses.bind ((uses_runActs _).mono (hums_talk hc))
  intro _
  exact Prog.Uses.ite (Prog.Uses.bind ((Prog.uses_call _).mpr ht) fun _ => trivial) trivial

theorem hums_passOn {bs : List UInt8} (hc : c ∈ p.fds) :
    (passOn conf p c bs).Uses (Op.Hums p.fds) := by
  unfold passOn
  cases ht : p.ttyFd with
  | none => trivial
  | some t => exact hums_relay hc (mem_fds_tty ht)

theorem wp_netToSerial_account (h : Minds K p.fds p s0 n0 a) :
    wp clients Any (netToSerial conf r p) (fun p' b => Minds K p'.fds p' s0 n0 b) a := by
  unfold netToSerial
  cases hc : p.clientFd with
  | none => exact h
  | some c =>
    show wp clients Any (if r c = true then _ else _) _ a
    split
    · apply wp_net
      intro n1 hn1 res s1 ha hall
      have h := h.comes hn1
      change Option (List UInt8) at res
      cases res with
      | none =>
        obtain rfl : s1 = a.1 := ha
        exact wp_hangup_account h hc (hall (Or.inl rfl))
      | some bs =>
        obtain ⟨_, rfl⟩ : bs.length ≤ bufSize ∧ s1 = a.1.logGot c bs := ha
        have h1 : Minds K p.fds p s0 n0 (a.1.logGot c bs, n1) :=
          h.idles (h.holds.logGot (mem_fds_client hc))
            ⟨calm_logGot.files, accepted_logGot, .refl _⟩
        cases bs with
        | nil =>
          apply wp_hangup_account h1 hc
          intro x hx
          unfold Net.behind at hx
          rw [calm_logGot.files] at hx
          exact hall (Or.inr rfl) x hx
        | cons b bs =>
          show wp clients Any (passOn conf p c (b :: bs) >>= fun _ => pure p) _ _
          rw [wp_bind]
          apply wp_post (wp_hums (hums_passOn (mem_fds_client hc)) h1.holds)
          intro _ b2 ⟨hb2, hi2⟩
          exact h1.idles hb2 hi2
    · exact h

theorem wp_serialToNet_account (h : Minds K p.fds p s0 n0 a) :
    wp clients Any (serialToNet conf r p) (fun _ b => Minds K p.fds p s0 n0 b) a := by
  unfold serialToNet
  cases ht : p.ttyFd with
  | none => exact h
  | some t =>
    show wp clients Any (if r t = true then _ else _) _ a
    split
    · apply wp_net
      intro n1 hn1 res s1 ha hall
      clear hall
      have h := h.comes hn1
      change Option (List UInt8) at res
      have h1 : Minds K p.fds p s0 n0 (s1, n1) := by
        cases res with
        | none =>
          obtain rfl : s1 = a.1 := ha
          exact h
        | some bs =>
          obtain ⟨_, rfl⟩ : bs.length ≤ bufSize ∧ s1 = a.1.logGot t bs := ha
          exact h.idles (h.holds.logGot (mem_fds_tty ht))
            ⟨calm_logGot.files, accepted_logGot, .refl _⟩
      have htalk : ∀ {x : Posix Unit} {c : Nat}, p.clientFd = some c → x.Uses (Op.Talk c) →
          wp clients Any x (fun _ b => Minds K p.fds p s0 n0 b) (s1, n1) := by
        intro x c hc hu
        apply wp_post (wp_hums (hu.mono (hums_talk (mem_fds_client hc))) h1.holds)
        intro _ b ⟨hb, hi⟩
        exact h1.idles hb hi
      split
      · rename_i b bs c hc
        apply htalk hc
        apply Prog.Uses.ite
        · exact Prog.Uses.bind ((Prog.uses_call _).mpr rfl) fun _ => trivial
        · exact uses_writeAll _
      · exact h1
    · exact h

/-- **The loop body**, for one port: `K` is what the others hold. -/
theorem wp_visit_account (h : Minds K p.fds p s0 n0 a)
    (hp : p.clientFd.isSome = p.ttyFd.isSome) :
    wp clients Any (visit conf i r p) (fun p' b => Minds K p'.fds p' s0 n0 b) a := by
  unfold visit
  rw [wp_bind]
  apply wp_post (wp_newClient_account h hp)
  intro p1 b1 h1
  rw [wp_bind]
  apply wp_post (wp_netToSerial_account h1)
  intro p2 b2 h2
  rw [wp_bind]
  exact wp_post (wp_serialToNet_account h2) fun _ _ h => h

end

/-! ## the loop -/

section
variable {conf : Conf} {b : Sys × Net} {ps : Ports}

/-- the head of the loop, with the account of every port -/
structure Counted (conf : Conf) (ps : Ports) (b : Sys × Net) : Prop where
  head : Head posix conf ps b.1
  accounts : ∀ i ∈ conf.indices, Account (ps i) b.1 b.2

theorem wp_any {α : Type} {p : Posix α} {G : Event Op Res (Sys × Net) → Prop}
    {Q : α → Sys × Net → Prop} (h : wp clients G p Q b) : wp clients Any p Q b :=
  wp_mono h (fun _ _ => trivial) fun _ _ h => h

theorem wp_pass_account {r : FdSet} (is : List (Fin maxp)) (hn : is.Nodup)
    (hI : ∀ i ∈ is, i ∈ conf.indices) (hr : r = b.1.ready) (h : Counted conf ps b)
    (hk : ∀ i ∈ is, ∀ fd, (ps i).clientFd = some fd ∨ (ps i).ttyFd = some fd →
      b.1.ready fd = true → Known b.1 fd) :
    wp clients Any (pass conf r is ps) (Counted conf) b := by
  induction is generalizing ps b with
  | nil => exact h
  | cons i is ih =>
    obtain ⟨hni, hn'⟩ := List.nodup_cons.mp hn
    have hi := hI i (List.mem_cons_self ..)
    have hown := h.head.table.owned hi
    have hvisit : wp posix Cautious (visit conf i r (ps i)) _ b.1 :=
      wp_visit posix.le_refl hr hown (hk i (List.mem_cons_self ..)) h.head.clean
    have haccount : wp clients Any (visit conf i r (ps i)) _ b :=
      wp_visit_account ⟨hown.holds, Beside.refl _ _ _, h.accounts i hi⟩ hown.session.paired
    unfold pass
    rw [wp_bind]
    apply wp_post (wp_any (wp_and (wp_map clients_maps hvisit) haccount))
    intro p' b1 h1
    obtain ⟨⟨h1, hc1⟩, hm⟩ := h1
    have hframe := h1.holds.frame
    have htable := (h.head.table.update h1).mono fun j hj => Or.inr hj
    apply ih hn' (fun j hj => hI j (List.mem_cons_of_mem _ hj)) (hr.trans hframe.ready.symm)
    · refine ⟨⟨htable, hc1⟩, ?_⟩
      intro j hj
      by_cases hji : j = i
      · subst hji
        rw [Function.update_self]
        exact hm.account
      · rw [Function.update_of_ne hji]
        exact (h.accounts j hj).beside hframe hm.beside fun fd hfd => ⟨j, hj, hji, hfd⟩
    · intro j hj fd hfd hrd
      have hne : j ≠ i := by
        rintro rfl
        exact hni hj
      have hjI := hI j (List.mem_cons_of_mem _ hj)
      rw [Function.update_of_ne hne] at hfd
      have hmem : fd ∈ (ps j).fds := by
        rcases hfd with hfd | hfd
        · exact mem_fds_client hfd
        · exact mem_fds_tty hfd
      rw [hframe.ready] at hrd
      obtain ⟨f, hf, hs⟩ := hk j (List.mem_cons_of_mem _ hj) fd hfd hrd
      refine ⟨f, ?_, ?_⟩
      · rw [hframe.files fd ⟨j, hjI, hne, hmem⟩]
        exact hf
      · rw [hframe.seen]
        exact hs

/-- the account after a turn that is not the last one -/
def CountedOf (conf : Conf) : Option Ports → Sys × Net → Prop
  | some ps, b => Counted conf ps b
  | none, _ => True

theorem Counted.comes {n : Net} (h : Counted conf ps b) (hc : b.2.Comes n) :
    Counted conf ps (b.1, n) :=
  ⟨h.head, fun i hi => (h.accounts i hi).comes rfl hc⟩

theorem wp_turn_account (h : Counted conf ps b) :
    wp clients Any (turn conf ps) (CountedOf conf) b := by
  unfold turn
  generalize conf.watched ps = fds
  cases fds.max? with
  | none =>
    apply wp_net
    intro n1 hn1 _ s1 ha _
    obtain rfl : s1 = b.1 := ha
    exact h.comes hn1
  | some max =>
    apply wp_net
    intro n1 hn1 res s1 ha hall
    clear hall
    change SelectRes at res
    have h := h.comes hn1
    cases res with
    | eintr =>
      obtain rfl : s1 = b.1 := ha
      exact h
    | failed => trivial
    | ready r =>
      obtain ⟨_, rfl⟩ := ha
      refine (wp_bind _ _ _ _).mpr (wp_post (wp_pass_account conf.indices (nodup_indices conf)
        (fun _ hi => hi) rfl ⟨⟨h.head.table.select r, h.head.clean⟩, ?_⟩ ?_) fun _ _ h => h)
      · exact fun i hi => (h.accounts i hi).comes rfl (.refl n1)
      · intro i hi fd hfd hrd
        have hmem : fd ∈ (ps i).fds := by
          rcases hfd with hfd | hfd
          · exact mem_fds_client hfd
          · exact mem_fds_tty hfd
        obtain ⟨f, hf⟩ := Option.ne_none_iff_exists'.mp (h.head.table.there i hi fd hmem)
        exact ⟨f, hf, (if_pos hrd).trans hf⟩

theorem wp_turns_account (n : Nat) (h : Counted conf ps b) :
    wp clients Any (turns conf n ps) (CountedOf conf) b := by
  induction n generalizing ps b with
  | zero => exact h
  | succ n ih =>
    unfold turns
    rw [wp_bind]
    apply wp_post (wp_turn_account h)
    intro res b1 h1
    cases res with
    | none => trivial
    | some ps' => exact ih h1

/-! ## the start -/

/-- nobody has been accepted -/
structure Net.Blank (n : Net) : Prop where
  taken : ∀ listener, n.taken listener = 0
  refused : ∀ listener k, n.refused listener k = false

/-- nobody has connected -/
def Net.start : Net := ⟨fun _ => 0, fun _ => 0, fun _ _ => false, fun _ _ => false,
  fun _ _ => false, fun _ => none⟩

/-- a call that sets up a listening socket -/
def Op.Listens : Op → Prop
  | .socket => True
  | .bind _ _ => True
  | .listen _ => True
  | .setsockopt _ => True
  | .close _ => True
  | _ => False

theorem listens_listenOn (tcpPort : Int) : (listenOn tcpPort).Uses Op.Listens := by
  unfold listenOn
  apply Prog.Uses.bind ((Prog.uses_call _).mpr trivial)
  intro fd
  cases fd with
  | none => trivial
  | some fd =>
    apply Prog.Uses.bind ((Prog.uses_call _).mpr trivial)
    intro _
    apply Prog.Uses.bind
    · unfold bindListen
      apply Prog.Uses.bind ((Prog.uses_call _).mpr trivial)
      intro (bound : Bool)
      exact Prog.Uses.ite ((Prog.uses_call _).mpr trivial) trivial
    · intro _
      exact Prog.Uses.ite trivial (Prog.Uses.bind ((Prog.uses_call _).mpr trivial) fun _ => trivial)

theorem Net.Blank.stable : Stable clients fun b => b.2.Blank := by
  intro b b' h ⟨_, hc⟩
  refine ⟨?_, ?_⟩
  · rw [hc.taken]
    exact h.taken
  · rw [hc.refused]
    exact h.refused

theorem Net.Blank.keeps : Keeps clients Any Op.Listens fun b => b.2.Blank := by
  intro b o r b' ho h ⟨_, _, hn⟩
  refine ⟨trivial, ?_⟩
  show b'.2.Blank
  rw [hn]
  cases o with
  | socket => exact h
  | bind fd port => exact h
  | listen fd => exact h
  | setsockopt fd => exact h
  | close fd =>
    show (b.2.close (b.2.behind b.1 fd)).Blank
    cases b.2.behind b.1 fd with
    | none => exact h
    | some x => exact ⟨h.taken, h.refused⟩
  | _ => exact ho.elim

theorem Net.Blank.account {p : Port} {s : Sys} {n : Net} (h : n.Blank) (hp : p.clientFd = none) :
    Account p s n := by
  intro l f _ _
  rw [hp]
  refine ⟨⟨?_, fun k _ => h.refused _ k⟩, ?_⟩
  · rw [h.taken]
    exact Nat.zero_le _
  · intro k hk
    rw [h.taken] at hk
    exact absurd hk (Nat.not_lt_zero k)

/-- the ports come up without clients -/
theorem wp_setupPorts_blank (is : List (Fin maxp)) (h : b.2.Blank) :
    wp clients Any (setupPorts conf is ps) (fun ps' b' => b'.2.Blank ∧
      ∀ i, i ∈ is ∨ (ps i).clientFd = none → (ps' i).clientFd = none) b := by
  induction is generalizing ps b with
  | nil => exact ⟨h, fun i hi => hi.resolve_left List.not_mem_nil⟩
  | cons i is ih =>
    unfold setupPorts
    apply wp_bind_keeps Net.Blank.stable Net.Blank.keeps (listens_listenOn _) h
    intro fd b1 h1
    apply wp_post (ih h1)
    intro ps' b2 h2
    obtain ⟨h2, hnone⟩ := h2
    refine ⟨h2, ?_⟩
    intro j hj
    apply hnone j
    by_cases hji : j = i
    · subst hji
      rw [Function.update_self]
      exact Or.inr rfl
    · rw [Function.update_of_ne hji]
      exact hj.imp (fun hm => (List.mem_cons.mp hm).resolve_left hji) id

/-- **The whole program, from its start through any number of turns.** -/
theorem wp_nmMain_account (conf : Conf) (n : Nat) (hs : b.1.Start) (hb : b.2 = Net.start) :
    wp clients Any (nmMain conf n) (CountedOf conf) b := by
  have h0 : Table conf (fun _ => False) (fun _ => .zero) b.1 :=
    ⟨nofun, nofun, nofun, nofun, hs.wf⟩
  have hsetup : wp posix Cautious (setupPorts conf conf.indices fun _ => .zero) _ b.1 :=
    wp_setupPorts posix.le_refl conf.indices (fun _ _ => id) (nodup_indices conf) h0
      fun _ => hs.tainted
  have hblank : b.2.Blank := by
    rw [hb]
    exact ⟨fun _ => rfl, fun _ _ => rfl⟩
  unfold nmMain
  rw [wp_bind]
  apply wp_post (wp_any (wp_and (wp_map clients_maps hsetup)
    (wp_setupPorts_blank conf.indices hblank)))
  intro ps b1 ⟨⟨htable, hclean⟩, h1, hnone⟩
  apply wp_turns_account
  exact ⟨⟨htable.mono fun i hi => Or.inl hi, hclean⟩, fun i hi => h1.account (hnone i (Or.inl hi))⟩

end

/-! ## the last client -/

/-- a `select` would report the descriptor: a client waits to be accepted, or has left -/
def Net.pending (n : Net) (s : Sys) (fd : Nat) : Bool :=
  match s.files fd with
  | some f => (decide (f.kind = .sock) && decide (n.taken f.id < n.count f.id)) ||
      (n.who f.id).any fun x => n.gone x.1 x.2
  | none => false

/-- nothing is left to be done for the clients -/
def Settled (conf : Conf) (ps : Ports) (s : Sys) (n : Net) : Prop :=
  ∀ fd ∈ conf.watched ps, n.pending s fd = false

instance (conf : Conf) (ps : Ports) (s : Sys) (n : Net) : Decidable (Settled conf ps s n) :=
  inferInstanceAs (Decidable (∀ fd ∈ conf.watched ps, n.pending s fd = false))

/-- a client has connected and not left, and was not turned away for want of a tty -/
def Net.Here (n : Net) (listener k : Nat) : Prop :=
  k < n.count listener ∧ n.gone listener k = false ∧ n.refused listener k = false

instance (n : Net) (listener : Nat) : DecidablePred (n.Here listener) := fun k =>
  inferInstanceAs (Decidable (k < n.count listener ∧ n.gone listener k = false ∧
    n.refused listener k = false))

/-- and nobody who is there came later -/
def Net.Latest (n : Net) (listener k : Nat) : Prop :=
  n.Here listener k ∧ ∀ j, n.Here listener j → j ≤ k

/-- the session of the port is with this client -/
def Net.Served (n : Net) (s : Sys) (p : Port) (listener k : Nat) : Prop :=
  ∃ c, p.clientFd = some c ∧ n.behind s c = some (listener, k)

/-- the session is with the latest client, and all who came before it have been closed; if nobody
is there, there is no session -/
def LastWins (p : Port) (s : Sys) (n : Net) (listener : Nat) : Prop :=
  (∀ k, n.Latest listener k →
    n.Served s p listener k ∧ ∀ j < k, n.closed listener j = true) ∧
  ((∀ k, ¬n.Here listener k) → p.clientFd = none)

section
variable {conf : Conf} {ps : Ports} {p : Port} {s : Sys} {n : Net} {L k : Nat}

theorem Net.Over.not_here (h : n.Over L k) : ¬n.Here L k := by
  rintro ⟨_, hg, hr⟩
  rcases h.2 with h | h
  · rw [hg] at h
    exact nomatch h
  · rw [hr] at h
    exact nomatch h

theorem Net.Here.exists_latest (h : n.Here L k) : ∃ k, n.Latest L k := by
  refine ⟨Nat.findGreatest (n.Here L) (n.count L), ?_, ?_⟩
  · exact Nat.findGreatest_spec (Nat.le_of_lt h.1) h
  · intro j hj
    exact Nat.le_findGreatest (Nat.le_of_lt hj.1) hj

theorem mem_watched {i : Fin maxp} {fd : Nat} (hi : i ∈ conf.indices) (h : fd ∈ (ps i).watched) :
    fd ∈ conf.watched ps := List.mem_flatMap.mpr ⟨i, hi, h⟩

/-- at a settled head the server has nobody, or the first client that has not left -/
theorem settled_lastWins {i : Fin maxp} {l : Nat} {f : File} (hset : Settled conf ps s n)
    (hi : i ∈ conf.indices) (hl : (ps i).listenFd = some l) (hf : s.files l = some f)
    (hk : f.kind = .sock) (hacc : Account (ps i) s n) :
    LastWins (ps i) s n f.id ↔ ∀ j k, n.Here f.id j → n.Here f.id k → j = k := by
  obtain ⟨hline, hheld⟩ := hacc l f hl hf
  cases hc : (ps i).clientFd with
  | none =>
    rw [hc] at hheld
    have hall : n.taken f.id = n.count f.id := by
      have hw := hset l (mem_watched hi (by simp [Port.watched, hc, hl]))
      unfold Net.pending at hw
      rw [hf] at hw
      have hw := (Bool.or_eq_false_iff.mp hw).1
      rw [hk, decide_eq_true rfl, Bool.true_and] at hw
      exact Nat.le_antisymm hline.taken (Nat.not_lt.mp (of_decide_eq_false hw))
    have hnone : ∀ k, ¬n.Here f.id k := by
      intro k hh
      exact (hheld k (by rw [hall]; exact hh.1)).not_here hh
    refine ⟨fun _ j k hj => absurd hj (hnone j), fun _ => ⟨?_, fun _ => hc⟩⟩
    exact fun k hk => absurd hk.1 (hnone k)
  | some c =>
    rw [hc] at hheld
    obtain ⟨m, hbehind, htaken, href, hover⟩ := hheld
    have hgone : n.gone f.id m = false := by
      have hw := hset c (mem_watched hi (by simp [Port.watched, hc]))
      unfold Net.behind at hbehind
      unfold Net.pending at hw
      cases hg : s.files c with
      | none =>
        rw [hg] at hbehind
        exact nomatch hbehind
      | some g =>
        rw [hg] at hbehind hw
        have hwho : n.who g.id = some (f.id, m) := hbehind
        have hw := (Bool.or_eq_false_iff.mp hw).2
        rw [hwho] at hw
        exact hw
    have hhere : n.Here f.id m := by
      have := hline.taken
      exact ⟨by omega, hgone, href⟩
    constructor
    · intro ⟨hwins, _⟩
      obtain ⟨top, htop⟩ := hhere.exists_latest
      obtain ⟨⟨c', hc', hb⟩, _⟩ := hwins top htop
      obtain rfl : c = c' := Option.some.inj (hc.symm.trans hc')
      have hm : m = top := (Prod.mk.inj (Option.some.inj (hbehind.symm.trans hb))).2
      have hone : ∀ j, n.Here f.id j → j = m := by
        intro j hj
        have hle := htop.2 j hj
        rw [← hm] at hle
        rcases Nat.lt_or_eq_of_le hle with hlt | rfl
        · exact absurd hj (hover j hlt).not_here
        · rfl
      exact fun j k hj hk => (hone j hj).trans (hone k hk).symm
    · intro huniq
      refine ⟨?_, fun hnone => absurd hhere (hnone m)⟩
      intro k hlatest
      obtain rfl := huniq k m hlatest.1 hhere
      exact ⟨⟨c, hc, hbehind⟩, fun j hj => (hover j hj).1⟩

end

/-- **When the last client wins.**  In every run to a head of the loop where nothing is left to be
done, for every port that listens. -/
theorem last_wins_iff (conf : Conf) (turns : Nat) {s s' : Sys} {n : Net}
    {tr : List (Event Op Res (Sys × Net))} {ps : Ports} (hs : s.Start)
    (hx : Runs clients (nmMain conf turns) (s, Net.start) tr (some ps) (s', n))
    (hset : Settled conf ps s' n) (i : Fin maxp) (hi : i ∈ conf.indices) {l : Nat} {f : File}
    (hl : (ps i).listenFd = some l) (hf : s'.files l = some f) :
    LastWins (ps i) s' n f.id ↔ ∀ j k, n.Here f.id j → n.Here f.id k → j = k := by
  have hcounted : Counted conf ps (s', n) := (wp_runs (wp_nmMain_account conf turns hs rfl) hx).2
  obtain ⟨L, hledger⟩ := (wp_runs (wp_nmMain_ledger conf turns hs) (hx.map clients_maps)).2
  obtain ⟨g, hg, hk⟩ := (hledger.live i hi).listen l hl
  obtain rfl : f = g := Option.some.inj (hf.symm.trans hg)
  exact settled_lastWins hset hi hl hf hk (hcounted.accounts i hi)

/-! ## clients that come and leave -/

/-- what a script answers is allowed: who is accepted has waited, and a read brings bytes unless the
client has left -/
def Net.allows (n : Net) (s : Sys) : (o : Op) → Res o → Bool
  | .accept l, fd => (show Option Nat from fd).isNone ||
      (s.files l).any fun f => decide (n.taken f.id < n.count f.id)
  | .read fd _, bs => ((show Option (List UInt8) from bs).any fun bs => bs ≠ []) ||
      (n.behind s fd).all fun x => n.gone x.1 x.2
  | _, _ => true

theorem Net.allows_sound {n : Net} {s : Sys} {o : Op} {r : Res o} (h : n.allows s o r = true) :
    n.Allows s o r := by
  cases o with
  | accept l =>
    intro hne
    rcases Bool.or_eq_true_iff.mp h with hn | hn
    · exact absurd (Option.isNone_iff_eq_none.mp hn) hne
    · change ((s.files l).any fun f => decide (n.taken f.id < n.count f.id)) = true at hn
      cases hf : s.files l with
      | none =>
        rw [hf] at hn
        exact nomatch hn
      | some f =>
        rw [hf] at hn
        exact ⟨f, rfl, of_decide_eq_true hn⟩
  | read fd len =>
    change Option (List UInt8) at r
    intro hend x hx
    rcases Bool.or_eq_true_iff.mp h with hn | hn
    · rcases hend with rfl | rfl
      · exact nomatch hn
      · exact nomatch hn
    · rw [hx] at hn
      exact hn
  | _ => trivial

/-- by the `i`-th call at the latest so many have come, and those have left -/
structure Visits where
  come : Nat → Nat → Nat
  leave : Nat → Nat → Nat → Bool

def Visits.at (V : Visits) (i : Nat) (n : Net) : Net :=
  let count listener := max (n.count listener) (V.come i listener)
  { n with
    count := count
    gone := fun listener k =>
      n.gone listener k || (decide (k < count listener) && V.leave i listener k) }

theorem Visits.at_comes (V : Visits) (i : Nat) (n : Net) : n.Comes (V.at i n) := by
  refine ⟨fun _ => Nat.le_max_left .., fun _ _ h => ?_, fun listener k h => ?_, rfl, rfl, rfl, rfl⟩
  · show (_ || _) = true
    rw [h, Bool.true_or]
  · rcases Bool.or_eq_true_iff.mp h with h | h
    · exact Or.inl h
    · exact Or.inr (of_decide_eq_true (Bool.and_eq_true_iff.mp h).1)

/-- a script among these clients -/
def Script.among (S : Script) (V : Visits) : Policy clients where
  act i b o :=
    match S.opAct i b.1 o with
    | none => none
    | some (r, s') =>
      let n := V.at i b.2
      if n.allows b.1 o r then some ((b.1, n), r, (s', n.see b.1 o r)) else none
  sound := by
    intro i b o b1 r b2 h
    dsimp only at h
    split at h
    · exact nomatch h
    · rename_i r' s' hact
      split at h
      · rename_i hall
        cases h
        exact ⟨⟨rfl, V.at_comes i b.2⟩, S.opAct_access hact, Net.allows_sound hall, rfl⟩
      · exact nomatch h

section
variable (S : Script) (V : Visits) (turns : Nat)

def Script.visited := (S.among V).play 0 (nmMain twoPorts turns) (startSys, Net.start)

def Script.visitedPorts : Ports :=
  (((S.visited V turns).2.2.result.getD none).getD fun _ => .zero)

theorem Script.visited_runs (h : (S.visited V turns).2.2.result.map Option.isSome = some true) :
    Runs clients (nmMain twoPorts turns) (startSys, Net.start) (S.visited V turns).1
      (some (S.visitedPorts V turns)) (S.visited V turns).2.1 := by
  obtain ⟨res, hres, hps⟩ := Option.map_eq_some_iff.mp h
  obtain ⟨ps, rfl⟩ := Option.isSome_iff_exists.mp hps
  have hports : S.visitedPorts V turns = ps := by
    unfold Script.visitedPorts
    rw [hres]
    rfl
  rw [hports]
  exact Policy.play_runs _ 0 _ _ hres

end

/-- two clients connect to port 0 before the first turn, and stay -/
def staying : Visits where
  come i listener := if i = 8 ∧ listener = 3 then 2 else 0
  leave _ _ _ := false

/-- the same, but the first one leaves after the first turn -/
def leaving : Visits := { staying with leave := fun i _ k => decide (15 ≤ i) && k == 0 }

/-- the first client is accepted, read from when it has left, and then the second one is accepted -/
def nextScript : Script where
  select := fdSets [(8, [3]), (15, [5]), (19, [3])]
  read := answers [(16, [])]
  write _ := 1024

/-- where it ends -/
def handOver : Sys × Net := (nextScript.visited leaving 3).2.1

/-- the first one has left, and the second one is served -/
theorem last_wins_iff_leaves : handOver.2.gone 3 0 = true ∧ handOver.2.Latest 3 1 ∧
    LastWins (nextScript.visitedPorts leaving 3 0) handOver.1 handOver.2 3 := by
  have hrun := nextScript.visited_runs leaving 3 (by decide +kernel)
  have hgone : handOver.2.gone 3 0 = true := by decide +kernel
  have hcount : handOver.2.count 3 = 2 := by decide +kernel
  -- nobody is there but the second one
  have honly : ∀ k, handOver.2.Here 3 k → k = 1 := by
    intro k hk
    have hlt : k < handOver.2.count 3 := hk.1
    rcases Nat.eq_zero_or_pos k with rfl | hpos
    · rw [hk.2.1] at hgone
      cases hgone
    · omega
  refine ⟨hgone, ⟨by decide +kernel, fun j hj => Nat.le_of_eq (honly j hj)⟩, ?_⟩
  have hiff := last_wins_iff twoPorts 3 startSys_start hrun (by decide +kernel) 0
    (by decide +kernel) (l := 3) (f := ⟨3, .sock⟩) (by decide +kernel) (by decide +kernel)
  exact hiff.mpr fun j k hj hk => (honly j hj).trans (honly k hk).symm

/-- two clients connect and stay: the first one is served -/
theorem last_wins_fails : ¬∀ (conf : Conf) (turns : Nat) (s s' : Sys) (n : Net)
    (tr : List (Event Op Res (Sys × Net))) (ps : Ports), s.Start →
    Runs clients (nmMain conf turns) (s, Net.start) tr (some ps) (s', n) →
    Settled conf ps s' n → ∀ i ∈ conf.indices, ∀ l f, (ps i).listenFd = some l →
      s'.files l = some f → LastWins (ps i) s' n f.id := by
  intro h
  have hrun := connectScript.visited_runs staying 1 (by decide +kernel)
  have hwins := h twoPorts 1 startSys _ _ _ _ startSys_start hrun (by decide +kernel) 0
    (by decide +kernel) 3 ⟨3, .sock⟩ (by decide +kernel) (by decide +kernel)
  have hcount : (connectScript.visited staying 1).2.1.2.count 3 = 2 := by decide +kernel
  have hlatest : (connectScript.visited staying 1).2.1.2.Latest 3 1 := by
    refine ⟨by decide +kernel, ?_⟩
    intro j hj
    have hj : j < (connectScript.visited staying 1).2.1.2.count 3 := hj.1
    omega
  obtain ⟨⟨c, hc, hb⟩, _⟩ := hwins.1 1 hlatest
  have hclient : (connectScript.visitedPorts staying 1 0).clientFd = some 5 := by decide +kernel
  obtain rfl : 5 = c := Option.some.inj (hclient.symm.trans hc)
  have hfirst : (connectScript.visited staying 1).2.1.2.behind
      (connectScript.visited staying 1).2.1.1 5 = some (3, 0) := by decide +kernel
  exact absurd (hfirst.symm.trans hb) (by decide)

end Nmconsole
