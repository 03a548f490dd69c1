import Relicnos.Nmconsole.Isolation

/-!
# What becomes of a descriptor that was reported

A turn should take something from every descriptor that `select` reports, or stop watching it:
otherwise `select` returns at once again, for ever if the condition stays.

* `touches`        an `accept` on a file, or a read of it;
* `Advances`       something was taken from the file, or it is not watched next;
* `visit_elsewhere`  the visit of another port does not touch the file;
* `visit_own`      the visit of its own port takes something from it, or closes it, or is stuck;
* `turn_advances_iff`  so a reported file advances exactly if the turn is not stuck on it.

A file is stuck if `accept` fails on it, or if it is a tty and a read gives nothing.
-/

set_option linter.unusedVariables false

namespace Nmconsole
open Interact

variable {conf : Conf} {p p' : Port} {s s' s0 s1 : Sys} {f : File} {c t fd l : Nat}
  {L L' : List Pairing} {i j : Fin maxp} {r : FdSet} {tr tr1 : List (Event Op Res Sys)}

/-! ## what is done with a file -/

/-- an `accept` on the file, or a read of it -/
def touches (f : File) (e : Event Op Res Sys) : Prop :=
  match e.op with
  | .accept l => e.pre.files l = some f
  | .read fd _ => e.pre.files fd = some f
  | _ => False

/-- a connection or at least one byte is taken from the file -/
def Consumes (f : File) : Event Op Res Sys → Prop
  | ⟨s, .accept l, some _, _⟩ => s.files l = some f
  | ⟨s, .read fd _, some (_ :: _), _⟩ => s.files fd = some f
  | _ => False

/-- `accept` fails on the file, or it is a tty and a read gives nothing -/
def Stuck (f : File) : Event Op Res Sys → Prop
  | ⟨s, .accept l, none, _⟩ => s.files l = some f
  | ⟨s, .read fd _, none, _⟩ => s.files fd = some f ∧ ∃ n, f.kind = .tty n
  | ⟨s, .read fd _, some [], _⟩ => s.files fd = some f ∧ ∃ n, f.kind = .tty n
  | _ => False

/-- `select` reports the file -/
def Reports (f : File) : Event Op Res Sys → Prop
  | ⟨s, .select _ _, .ready r, _⟩ => ∃ fd, r fd = true ∧ s.files fd = some f
  | _ => False

/-- the next `select` will be asked about the file -/
def Watches (conf : Conf) (ps : Ports) (s : Sys) (f : File) : Prop :=
  ∃ fd ∈ conf.watched ps, s.files fd = some f

/-- something was taken from the file, or it is watched no more -/
def Advances (conf : Conf) (f : File) (tr : List (Event Op Res Sys)) (ps : Ports) (s : Sys) :
    Prop := (∃ e ∈ tr, Consumes f e) ∨ ¬Watches conf ps s f

theorem Consumes.touches {e : Event Op Res Sys} (h : Consumes f e) : touches f e := by
  obtain ⟨s, o, x, s'⟩ := e
  cases o with
  | accept l =>
    cases x with
    | none => exact h.elim
    | some c => exact h
  | read fd len =>
    cases x with
    | none => exact h.elim
    | some bs =>
      cases bs with
      | nil => exact h.elim
      | cons b bs => exact h
  | _ => exact h.elim

theorem Stuck.touches {e : Event Op Res Sys} (h : Stuck f e) : touches f e := by
  obtain ⟨s, o, x, s'⟩ := e
  cases o with
  | accept l =>
    cases x with
    | none => exact h
    | some c => exact h.elim
  | read fd len =>
    cases x with
    | none => exact h.1
    | some bs =>
      cases bs with
      | nil => exact h.1
      | cons b bs => exact h.elim
  | _ => exact h.elim

/-- neither an `accept` nor a read, nor a `select` -/
def Op.Idle : Op → Prop
  | .accept _ => False
  | .read _ _ => False
  | .select _ _ => False
  | _ => True

theorem Op.Idle.untouched {e : Event Op Res Sys} (h : e.op.Idle) : ¬touches f e := by
  obtain ⟨s, o, x, s'⟩ := e
  cases o with
  | accept l => exact h.elim
  | read fd len => exact h.elim
  | _ => exact id

theorem Op.Idle.not_consumes {e : Event Op Res Sys} (h : e.op.Idle) : ¬Consumes f e :=
  fun hc => h.untouched hc.touches

theorem Op.Idle.not_stuck {e : Event Op Res Sys} (h : e.op.Idle) : ¬Stuck f e :=
  fun hs => h.untouched hs.touches

theorem Op.Idle.not_reports {e : Event Op Res Sys} (h : e.op.Idle) : ¬Reports f e := by
  obtain ⟨s, o, x, s'⟩ := e
  cases o with
  | select nfds want => exact h.elim
  | _ => exact id

theorem Op.Talk.idle {o : Op} (h : Op.Talk fd o) : o.Idle := by
  cases o with
  | write fd' bs => trivial
  | tcsendbreak t => trivial
  | _ => exact False.elim h

/-- once a file is gone it is not touched any more -/
theorem gone_untouched {α : Type} {q q' : Posix α} (h : Exec posix q s tr s' q')
    (hg : s.Gone f.id) : (∀ e ∈ tr, ¬touches f e) ∧ s'.Gone f.id := by
  have hstable : Stable posix fun s => s.Gone f.id := by
    intro s s' h hr
    obtain rfl : s' = s := hr
    exact h
  obtain ⟨htr, hend⟩ := h.chain hstable (fun e he h1 => gone_access h1 (h.mem_access e he)) hg
  refine ⟨?_, hend⟩
  intro e he ht
  have hpre := (htr e he).shut
  obtain ⟨s1, o, x, s2⟩ := e
  cases o with
  | accept l => exact hpre l f ht rfl
  | read fd len => exact hpre fd f ht rfl
  | _ => exact ht

/-! ## the three parts of a visit -/

theorem idle_setSpeed (n : Fin maxp) : (setSpeed conf n fd).Uses Op.Idle := by
  unfold setSpeed
  apply Prog.Uses.bind ((Prog.uses_call _).mpr trivial)
  intro (up : Bool)
  exact Prog.Uses.ite ((Prog.uses_call _).mpr trivial) trivial

theorem idle_openTty (n : Fin maxp) : (openTty conf n).Uses Op.Idle := by
  unfold openTty
  apply Prog.Uses.bind ((Prog.uses_call _).mpr trivial)
  intro fd
  cases fd with
  | none => trivial
  | some fd => exact Prog.Uses.bind (idle_setSpeed n) fun _ => trivial

theorem idle_greet : (greet conf i p c).Uses Op.Idle := by
  unfold greet
  apply Prog.Uses.bind ((Prog.uses_call _).mpr trivial)
  intro _
  apply Prog.Uses.bind (idle_openTty i)
  intro t
  cases t with
  | none =>
    apply Prog.Uses.bind ((Prog.uses_call _).mpr trivial)
    intro _
    exact Prog.Uses.bind ((Prog.uses_call _).mpr trivial) fun _ => trivial
  | some t => exact Prog.Uses.bind (uses_sayHello.mono fun _ => Op.Talk.idle) fun _ => trivial

/-- a part of a visit that starts with a call `o` and does not touch a file after it -/
structure Opens (o : Op) (s : Sys) (tr : List (Event Op Res Sys)) (res : Res o) : Prop where
  starts : ∃ s1 tr1, tr = ⟨s, o, res, s1⟩ :: tr1 ∧ ∀ e ∈ tr1, e.op.Idle

theorem Opens.of_runs {α : Type} {o : Op} {k : Res o → Posix α} {a : α}
    (h : Runs posix (issue o >>= k) s tr a s') (hk : ∀ x, (k x).Uses Op.Idle) :
    ∃ x s1 tr1, tr = ⟨s, o, x, s1⟩ :: tr1 ∧ s.access o x s1 ∧ Runs posix (k x) s1 tr1 a s' ∧
      Opens o s tr x := by
  obtain ⟨s1, x, s2, tr1, rfl, hr, ha, h1⟩ := runs_op.mp h
  obtain rfl : s1 = s := hr
  exact ⟨x, s2, tr1, rfl, ha, h1, ⟨s2, tr1, rfl, Exec.uses h1 (hk x)⟩⟩

namespace Opens
variable {o : Op} {res : Res o}

theorem all {P : Event Op Res Sys → Prop} (h : Opens o s tr res) (h0 : ∀ s1, P ⟨s, o, res, s1⟩)
    (hidle : ∀ e : Event Op Res Sys, e.op.Idle → P e) : ∀ e ∈ tr, P e := by
  obtain ⟨s1, tr1, rfl, h1⟩ := h.starts
  intro e he
  obtain rfl | he := List.mem_cons.mp he
  · exact h0 s1
  · exact hidle e (h1 e he)

theorem first {P : Event Op Res Sys → Prop} (h : Opens o s tr res) (h0 : ∀ s1, P ⟨s, o, res, s1⟩) :
    ∃ e ∈ tr, P e := by
  obtain ⟨s1, tr1, rfl, _⟩ := h.starts
  exact ⟨_, List.mem_cons_self .., h0 s1⟩

end Opens

/-- what neither opens nor closes a file -/
def Op.Stays : Op → Prop
  | .read _ _ => True
  | .write _ _ => True
  | .tcsendbreak _ => True
  | _ => False

theorem Op.Talk.stays {o : Op} (h : Op.Talk fd o) : o.Stays := by
  cases o with
  | write fd' bs => trivial
  | tcsendbreak t => trivial
  | _ => exact False.elim h

theorem files_stay {α : Type} {q q' : Posix α} (h : Exec posix q s tr s' q')
    (hu : q.Uses Op.Stays) : s'.files = s.files := by
  have hstable : Stable posix fun s1 => s1.files = s.files := by
    intro s1 s2 h1 hr
    obtain rfl : s2 = s1 := hr
    exact h1
  apply (h.chain hstable ?_ rfl).2
  intro e he hpre
  have hop := h.uses hu e he
  have ha : e.pre.access e.op e.res e.post := h.mem_access e he
  apply Eq.trans ?_ hpre
  obtain ⟨s1, o, x, s2⟩ := e
  cases o with
  | read fd len =>
    cases x with
    | none => exact congrArg Sys.files ha
    | some bs =>
      obtain ⟨_, rfl⟩ : bs.length ≤ len ∧ s2 = s1.logGot fd bs := ha
      exact calm_logGot.files
  | write fd bs =>
    cases x with
    | none =>
      obtain rfl : s2 = s1.logPut fd bs 0 := ha
      exact calm_logPut.files
    | some n =>
      obtain ⟨_, rfl⟩ : n ≤ bs.length ∧ s2 = s1.logPut fd bs n := ha
      exact calm_logPut.files
  | tcsendbreak t => exact congrArg Sys.files ha
  | _ => exact hop.elim

theorem newClient_runs (h : Runs posix (newClient conf i r p) s tr p' s') :
    (tr = [] ∧ p' = p ∧ s' = s ∧ ∀ l, p.listenFd = some l → p.clientFd = none → r l = false) ∨
      ∃ l res, p.listenFd = some l ∧ p.clientFd = none ∧ Opens (.accept l) s tr res ∧
        (res = none → p' = p ∧ s' = s) := by
  unfold newClient at h
  split at h
  · rename_i l hl hc
    by_cases hr : r l = true
    · right
      rw [if_pos hr] at h
      obtain ⟨res, s1, tr1, rfl, ha, h1, ho⟩ := Opens.of_runs h fun x => by
        cases x with
        | none => trivial
        | some c => exact idle_greet
      refine ⟨l, res, hl, hc, ho, ?_⟩
      intro hres
      subst hres
      obtain ⟨_, rfl, rfl⟩ := runs_ret.mp h1
      obtain rfl : s1 = s := ha
      exact ⟨rfl, rfl⟩
    · left
      rw [if_neg hr] at h
      obtain ⟨rfl, rfl, rfl⟩ := runs_ret.mp h
      refine ⟨rfl, rfl, rfl, ?_⟩
      intro l' hl' _
      obtain rfl : l = l' := Option.some.inj (hl.symm.trans hl')
      exact Bool.eq_false_iff.mpr hr
  · rename_i hno
    left
    obtain ⟨rfl, rfl, rfl⟩ := runs_ret.mp h
    refine ⟨rfl, rfl, rfl, ?_⟩
    intro l hl hc
    exact absurd hc (hno l hl)

theorem idle_closeTty : (closeTty p).Uses Op.Idle := by
  unfold closeTty
  split
  · exact (Prog.uses_call _).mpr trivial
  · trivial

theorem idle_hangup : (hangup p c).Uses Op.Idle := by
  unfold hangup
  apply Prog.Uses.bind ((Prog.uses_call _).mpr trivial)
  intro _
  exact Prog.Uses.bind idle_closeTty fun _ => trivial

theorem hangup_result (h : Runs posix (hangup p c) s tr p' s') :
    p' = { p with clientFd := none, ttyFd := none } := by
  obtain ⟨_, _, s2, tr2, rfl, _, _, h1⟩ := runs_op.mp h
  have h2 : Runs posix (closeTty p >>= fun _ =>
      pure { p with clientFd := none, ttyFd := none }) s2 tr2 p' s' := h1
  obtain ⟨_, _, _, _, _, _, h3⟩ := runs_bind.mp h2
  exact (runs_ret.mp h3).2.1.symm

/-- any talk, to whichever descriptor -/
def Op.Talks (o : Op) : Prop := ∃ fd, Op.Talk fd o

theorem Op.Talks.idle {o : Op} (h : o.Talks) : o.Idle := by
  obtain ⟨fd, h⟩ := h
  exact Op.Talk.idle h

theorem Op.Talks.stays {o : Op} (h : o.Talks) : o.Stays := by
  obtain ⟨fd, h⟩ := h
  exact Op.Talk.stays h

theorem talks_passOn {bs : List UInt8} : (passOn conf p c bs).Uses Op.Talks := by
  unfold passOn
  split
  · unfold relay
    apply Prog.Uses.bind ((uses_runActs _).mono fun _ h => ⟨c, h⟩)
    intro _
    exact Prog.Uses.ite (Prog.Uses.bind ((Prog.uses_call _).mpr ⟨_, rfl⟩) fun _ => trivial) trivial
  · trivial

theorem netToSerial_runs (h : Runs posix (netToSerial conf r p) s tr p' s') :
    (tr = [] ∧ p' = p ∧ s' = s ∧ ∀ c, p.clientFd = some c → r c = false) ∨
      ∃ c res, p.clientFd = some c ∧ Opens (.read c bufSize) s tr res ∧
        ((∃ b bs, res = some (b :: bs) ∧ p' = p ∧ s'.files = s.files) ∨
          (res = none ∨ res = some []) ∧ p' = { p with clientFd := none, ttyFd := none }) := by
  unfold netToSerial at h
  cases hc : p.clientFd with
  | none =>
    left
    rw [hc] at h
    obtain ⟨rfl, rfl, rfl⟩ := runs_ret.mp h
    refine ⟨rfl, rfl, rfl, ?_⟩
    intro c hc'
    cases hc'
  | some c =>
    rw [hc] at h
    by_cases hr : r c = true
    · right
      have h0 : Runs posix (if r c = true then _ else _) s tr p' s' := h
      rw [if_pos hr] at h0
      obtain ⟨res, s1, tr1, rfl, ha, h1, ho⟩ := Opens.of_runs h0 fun x => by
        rcases x with _ | _ | ⟨b, bs⟩
        · exact idle_hangup
        · exact idle_hangup
        · exact Prog.Uses.bind (talks_passOn.mono fun _ => Op.Talks.idle) fun _ => trivial
      refine ⟨c, res, rfl, ho, ?_⟩
      rcases res with _ | _ | ⟨b, bs⟩
      · exact .inr ⟨.inl rfl, hangup_result h1⟩
      · exact .inr ⟨.inr rfl, hangup_result h1⟩
      · left
        refine ⟨b, bs, rfl, ?_⟩
        obtain ⟨tr2, _, s2, tr3, _, h2, h3⟩ := runs_bind.mp h1
        obtain ⟨_, rfl, rfl⟩ := runs_ret.mp h3
        refine ⟨rfl, ?_⟩
        obtain ⟨_, rfl⟩ : (b :: bs).length ≤ bufSize ∧ s1 = s.logGot c (b :: bs) := ha
        exact (files_stay h2 (talks_passOn.mono fun _ => Op.Talks.stays)).trans calm_logGot.files
    · left
      have h' : Runs posix (if r c = true then _ else _) s tr p' s' := h
      rw [if_neg hr] at h'
      obtain ⟨rfl, rfl, rfl⟩ := runs_ret.mp h'
      refine ⟨rfl, rfl, rfl, ?_⟩
      intro c' hc'
      cases hc'
      exact Bool.eq_false_iff.mpr hr

theorem stays_serialToNet : (serialToNet conf r p).Uses Op.Stays := by
  unfold serialToNet
  split
  · trivial
  · rename_i t _
    apply Prog.Uses.ite ?_ (Prog.uses_pure ())
    apply Prog.Uses.bind ((Prog.uses_call _).mpr trivial)
    intro res
    split
    · rename_i b bs c _ _
      apply Prog.Uses.ite (Prog.Uses.bind ((Prog.uses_call _).mpr trivial)
        fun _ => Prog.uses_pure ())
      exact (uses_writeAll _).mono fun _ => Op.Talk.stays
    · trivial

theorem serialToNet_runs {u : Unit} (h : Runs posix (serialToNet conf r p) s tr u s') :
    (tr = [] ∧ s' = s ∧ ∀ t, p.ttyFd = some t → r t = false) ∨
      ∃ t res, p.ttyFd = some t ∧ Opens (.read t bufSize) s tr res := by
  unfold serialToNet at h
  cases ht : p.ttyFd with
  | none =>
    left
    rw [ht] at h
    obtain ⟨rfl, _, rfl⟩ := runs_ret.mp h
    exact ⟨rfl, rfl, nofun⟩
  | some t =>
    rw [ht] at h
    by_cases hr : r t = true
    · right
      have h' : Runs posix (if r t = true then _ else _) s tr u s' := h
      rw [if_pos hr] at h'
      obtain ⟨res, s1, tr1, rfl, ha, h1, ho⟩ := Opens.of_runs h' fun x => by
        split
        · apply Prog.Uses.ite (Prog.Uses.bind ((Prog.uses_call _).mpr trivial)
            fun _ => Prog.uses_pure ())
          exact (uses_writeAll _).mono fun _ => Op.Talk.idle
        · trivial
      exact ⟨t, res, rfl, ho⟩
    · left
      have h' : Runs posix (if r t = true then _ else _) s tr u s' := h
      rw [if_neg hr] at h'
      obtain ⟨rfl, _, rfl⟩ := runs_ret.mp h'
      refine ⟨rfl, rfl, ?_⟩
      intro t' ht'
      cases ht'
      exact Bool.eq_false_iff.mpr hr

/-- the three parts of a visit; the last one does not change the port -/
theorem visit_runs (h : Runs posix (visit conf i r p) s tr p' s') :
    ∃ tr1 p1 s1 tr2 s2 tr3 u, tr = tr1 ++ (tr2 ++ tr3) ∧
      Runs posix (newClient conf i r p) s tr1 p1 s1 ∧
      Runs posix (netToSerial conf r p1) s1 tr2 p' s2 ∧
      Runs posix (serialToNet conf r p') s2 tr3 u s' := by
  obtain ⟨tr1, p1, s1, tr4, rfl, h1, h4⟩ := runs_bind.mp h
  obtain ⟨tr2, p2, s2, tr5, rfl, h2, h5⟩ := runs_bind.mp h4
  obtain ⟨tr3, u, s3, tr6, rfl, h3, h6⟩ := runs_bind.mp h5
  obtain ⟨rfl, rfl, rfl⟩ := runs_ret.mp h6
  rw [List.append_nil]
  exact ⟨tr1, p1, s1, tr2, s2, tr3, u, rfl, h1, h2, h3⟩

/-! ## the visit of another port -/

theorem wf_run {α : Type} {q q' : Posix α} (h : Exec posix q s tr s' q') (hwf : s.Wf) : s'.Wf := by
  have hstable : Stable posix fun s => s.Wf := by
    intro s s' h hr
    obtain rfl : s' = s := hr
    exact h
  exact (h.chain hstable (fun e he h1 => access_wf h1 (h.mem_access e he)) hwf).2

theorem Opens.accept_elsewhere {res : Option Nat} (h : Opens (.accept l) s tr res) (hwf : s.Wf)
    (hf : s.files fd = some f) (hne : l ≠ fd) : ∀ e ∈ tr, ¬touches f e := by
  apply h.all ?_ fun _ => Op.Idle.untouched
  intro s1 ht
  have hl : s.files l = some f := ht
  exact hne (hwf.inj l fd f f hl hf rfl)

theorem Opens.read_elsewhere {len : Nat} {res : Option (List UInt8)}
    (h : Opens (.read c len) s tr res) (hwf : s.Wf) (hf : s.files fd = some f) (hne : c ≠ fd) :
    ∀ e ∈ tr, ¬touches f e := by
  apply h.all ?_ fun _ => Op.Idle.untouched
  intro s1 ht
  have hc : s.files c = some f := ht
  exact hne (hwf.inj c fd f f hc hf rfl)

theorem mem_ends_client (h : p.clientFd = some c) : c ∈ p.ends := by
  unfold Port.ends
  simp [h]

theorem mem_ends_tty (h : p.ttyFd = some t) : t ∈ p.ends := by
  unfold Port.ends
  simp [h]

theorem forall_append3 {P : Event Op Res Sys → Prop} {tr1 tr2 tr3 : List (Event Op Res Sys)}
    (h1 : ∀ e ∈ tr1, P e) (h2 : ∀ e ∈ tr2, P e) (h3 : ∀ e ∈ tr3, P e) :
    ∀ e ∈ tr1 ++ (tr2 ++ tr3), P e := by
  intro e he
  obtain he | he := List.mem_append.mp he
  · exact h1 e he
  · obtain he | he := List.mem_append.mp he
    · exact h2 e he
    · exact h3 e he

/-- **The visit of another port** leaves the file alone. -/
theorem visit_elsewhere (h : Runs posix (visit conf i r p) s tr p' s') (hwf : s.Wf)
    (hb : Books conf s0 L s) (hl : Live L i p s) (hf : s.files fd = some f) (hends : fd ∉ p.ends)
    (hlisten : p.listenFd ≠ some fd) :
    (∀ e ∈ tr, ¬touches f e) ∧ s'.files fd = some f ∧ fd ∉ p'.ends ∧ p'.listenFd = p.listenFd := by
  obtain ⟨tr1, p1, s1, tr2, s2, tr3, u, rfl, h1, h2, h3⟩ := visit_runs h
  obtain ⟨L1, m1⟩ := (wp_runs (wp_newClient_moves hb hl) h1).2
  obtain ⟨L2, m2⟩ := (wp_runs (wp_netToSerial_moves m1.books m1.live) h2).2
  obtain ⟨hf1, hends1⟩ := (m1.elsewhere fd f).mpr ⟨hf, hends⟩
  obtain ⟨hf2, hends2⟩ := (m2.elsewhere fd f).mpr ⟨hf1, hends1⟩
  have hfiles := files_stay h3 stays_serialToNet
  refine ⟨forall_append3 ?_ ?_ ?_, ?_, hends2, m2.listen.trans m1.listen⟩
  · obtain ⟨rfl, _⟩ | ⟨l, res, hl1, _, ho, _⟩ := newClient_runs h1
    · exact List.forall_mem_nil _
    · exact ho.accept_elsewhere hwf hf fun e => hlisten (e ▸ hl1)
  · obtain ⟨rfl, _⟩ | ⟨c, res, hc, ho, _⟩ := netToSerial_runs h2
    · exact List.forall_mem_nil _
    · exact ho.read_elsewhere (wf_run h1 hwf) hf1 fun e => hends1 (e ▸ mem_ends_client hc)
  · obtain ⟨rfl, _⟩ | ⟨t, res, ht, ho⟩ := serialToNet_runs h3
    · exact List.forall_mem_nil _
    · exact ho.read_elsewhere (wf_run h2 (wf_run h1 hwf)) hf2
        fun e => hends2 (e ▸ mem_ends_tty ht)
  · rw [hfiles]
    exact hf2

/-! ## the visit of its own port -/

/-- what a visit does with a reported file of its port -/
inductive Handled (f : File) (tr : List (Event Op Res Sys)) (p' : Port) (s' : Sys) : Prop
  | consumed (found : ∃ e ∈ tr, Consumes f e) (free : ∀ e ∈ tr, ¬Stuck f e)
      (stays : ∃ fd ∈ p'.fds, s'.files fd = some f)
  | closed (gone : s'.Gone f.id) (free : ∀ e ∈ tr, ¬Stuck f e)
  | stuck (found : ∃ e ∈ tr, Stuck f e) (idle : ∀ e ∈ tr, ¬Consumes f e)
      (stays : ∃ fd ∈ p'.watched, s'.files fd = some f)

theorem Opens.not_kind {o : Op} {res : Res o} (h : Opens o s tr res)
    (hk : ∀ s1, ¬touches f ⟨s, o, res, s1⟩) : ∀ e ∈ tr, ¬touches f e :=
  h.all hk fun _ => Op.Idle.untouched

/-- clients are read and nothing else -/
theorem netToSerial_kind (h : Runs posix (netToSerial conf r p) s tr p' s') (hl : Live L i p s)
    (hk : f.kind ≠ .conn) : ∀ e ∈ tr, ¬touches f e := by
  obtain ⟨rfl, _⟩ | ⟨c, res, hc, ho, _⟩ := netToSerial_runs h
  · exact List.forall_mem_nil _
  · obtain ⟨t, fc, ft, _, hfc, _, hkc, _⟩ := hl.session c hc
    apply ho.not_kind
    intro s1 ht
    have hf : s.files c = some f := ht
    obtain rfl : fc = f := Option.some.inj (hfc.symm.trans hf)
    exact hk hkc

theorem serialToNet_kind {u : Unit} (h : Runs posix (serialToNet conf r p) s tr u s')
    (hl : Live L i p s) (hk : ∀ n, f.kind ≠ .tty n) : ∀ e ∈ tr, ¬touches f e := by
  obtain ⟨rfl, _⟩ | ⟨t, res, ht, ho⟩ := serialToNet_runs h
  · exact List.forall_mem_nil _
  · have hclient : ∃ c, p.clientFd = some c := by
      cases hc : p.clientFd with
      | none =>
        rw [hl.closed hc] at ht
        cases ht
      | some c => exact ⟨c, rfl⟩
    obtain ⟨c, hc⟩ := hclient
    obtain ⟨t', fc, ft, ht', _, hft, _, hkt, _⟩ := hl.session c hc
    apply ho.not_kind
    intro s1 hto
    have hf : s.files t = some f := hto
    obtain rfl : t' = t := Option.some.inj (ht'.symm.trans ht)
    obtain rfl : ft = f := Option.some.inj (hft.symm.trans hf)
    exact hk _ hkt

theorem fresh_mono {α : Type} {q q' : Posix α} (h : Exec posix q s tr s' q') :
    s.fresh ≤ s'.fresh := by
  have hstable : Stable posix fun s1 => s.fresh ≤ s1.fresh := by
    intro s1 s2 h hr
    obtain rfl : s2 = s1 := hr
    exact h
  apply (h.chain hstable ?_ (Nat.le_refl _)).2
  intro e he hle
  apply Nat.le_trans hle
  obtain ⟨_, hn⟩ | ⟨_, _, _, hn⟩ | ⟨_, _, _, hn⟩ := access_files (h.mem_access e he)
  · omega
  · omega
  · omega

/-- a port that is left without ends has closed the files behind them -/
theorem Moved.gone (h : Moved conf s0 L i p s L' p' s') (hends : p'.ends = []) (hwf : s.Wf)
    (hfresh : s.fresh ≤ s'.fresh) (hf : s.files fd = some f) (hfd : fd ∈ p.ends) :
    s'.Gone f.id := by
  refine ⟨Nat.lt_of_lt_of_le (hwf.ids fd f hf) hfresh, ?_⟩
  intro x f' hx he
  have hnone : x ∉ p'.ends := by
    rw [hends]
    exact List.not_mem_nil
  obtain ⟨hx', hn⟩ := (h.elsewhere x f').mp ⟨hx, hnone⟩
  obtain rfl : x = fd := hwf.inj x fd f' f hx' hf he
  exact hn hfd

theorem exists_append_left {P : Event Op Res Sys → Prop} (tr2 : List (Event Op Res Sys))
    (h : ∃ e ∈ tr1, P e) : ∃ e ∈ tr1 ++ tr2, P e := by
  obtain ⟨e, he, hp⟩ := h
  exact ⟨e, List.mem_append_left _ he, hp⟩

theorem exists_append_right {P : Event Op Res Sys → Prop} (tr2 : List (Event Op Res Sys))
    (h : ∃ e ∈ tr1, P e) : ∃ e ∈ tr2 ++ tr1, P e := by
  obtain ⟨e, he, hp⟩ := h
  exact ⟨e, List.mem_append_right _ he, hp⟩

/-- a port without a client is only asked for a new one -/
theorem visit_vacant {tr2 tr3 : List (Event Op Res Sys)} {u : Unit} {s2 : Sys}
    (hl : Live L i p s) (hc : p.clientFd = none)
    (h2 : Runs posix (netToSerial conf r p) s tr2 p' s2)
    (h3 : Runs posix (serialToNet conf r p') s2 tr3 u s') :
    tr2 = [] ∧ tr3 = [] ∧ p' = p ∧ s' = s := by
  obtain ⟨rfl, rfl, rfl, _⟩ | ⟨c, res, hc', _⟩ := netToSerial_runs h2
  · obtain ⟨rfl, rfl, _⟩ | ⟨t, res, ht, _⟩ := serialToNet_runs h3
    · exact ⟨rfl, rfl, rfl, rfl⟩
    · rw [hl.closed hc] at ht
      cases ht
  · rw [hc] at hc'
    cases hc'

theorem visit_listener (h : Runs posix (visit conf i r p) s tr p' s')
    (hb : Books conf s0 L s) (hl : Live L i p s) (hlisten : p.listenFd = some l)
    (hc : p.clientFd = none) (hr : r l = true) (hf : s.files l = some f) :
    Handled f tr p' s' := by
  obtain ⟨f', hf', hk⟩ := hl.listen l hlisten
  obtain rfl : f' = f := Option.some.inj (hf'.symm.trans hf)
  have hconn : f'.kind ≠ .conn := by
    rw [hk]
    nofun
  have htty : ∀ n, f'.kind ≠ .tty n := by
    intro n
    rw [hk]
    nofun
  obtain ⟨tr1, p1, s1, tr2, s2, tr3, u, rfl, h1, h2, h3⟩ := visit_runs h
  obtain ⟨_, _, _, hno⟩ | ⟨l', res, hl', _, ho, hsame⟩ := newClient_runs h1
  · rw [hno l hlisten hc] at hr
    cases hr
  obtain rfl : l = l' := Option.some.inj (hlisten.symm.trans hl')
  obtain ⟨L1, m1⟩ := (wp_runs (wp_newClient_moves hb hl) h1).2
  obtain ⟨L2, m2⟩ := (wp_runs (wp_netToSerial_moves m1.books m1.live) h2).2
  have htr2 := netToSerial_kind h2 m1.live hconn
  have htr3 := serialToNet_kind h3 m2.live htty
  cases res with
  | some c =>
    apply Handled.consumed
    · exact exists_append_left _ (ho.first fun s1 => hf)
    · apply forall_append3
      · exact ho.all (fun s1 => id) fun _ => Op.Idle.not_stuck
      · exact fun e he hst => htr2 e he hst.touches
      · exact fun e he hst => htr3 e he hst.touches
    · have hends : l ∉ p.ends := by
        rw [ends_of_none hc (hl.closed hc)]
        exact List.not_mem_nil
      obtain ⟨hf1, hends1⟩ := (m1.elsewhere l f').mpr ⟨hf, hends⟩
      refine ⟨l, (mem_fds_iff p' l).mpr (.inl ?_), ?_⟩
      · rw [m2.listen, m1.listen]
        exact hlisten
      · rw [files_stay h3 stays_serialToNet]
        exact ((m2.elsewhere l f').mpr ⟨hf1, hends1⟩).1
  | none =>
    obtain ⟨rfl, rfl⟩ := hsame rfl
    obtain ⟨rfl, rfl, rfl, rfl⟩ := visit_vacant hl hc h2 h3
    apply Handled.stuck
    · exact exists_append_left _ (ho.first fun s1 => hf)
    · apply forall_append3
      · exact ho.all (fun s1 => id) fun _ => Op.Idle.not_consumes
      · exact List.forall_mem_nil _
      · exact List.forall_mem_nil _
    · refine ⟨l, ?_, hf⟩
      unfold Port.watched
      simp [hlisten, hc]

/-- a port with a client is not asked for a new one -/
theorem newClient_engaged (h : Runs posix (newClient conf i r p) s tr p' s')
    (hc : p.clientFd = some c) : tr = [] ∧ p' = p ∧ s' = s := by
  obtain ⟨rfl, rfl, rfl, _⟩ | ⟨l, res, _, hc', _⟩ := newClient_runs h
  · exact ⟨rfl, rfl, rfl⟩
  · rw [hc] at hc'
    cases hc'

theorem serialToNet_closed {u : Unit} (h : Runs posix (serialToNet conf r p) s tr u s')
    (ht : p.ttyFd = none) : tr = [] ∧ s' = s := by
  obtain ⟨rfl, rfl, _⟩ | ⟨t, res, ht', _⟩ := serialToNet_runs h
  · exact ⟨rfl, rfl⟩
  · rw [ht] at ht'
    cases ht'

theorem visit_client (h : Runs posix (visit conf i r p) s tr p' s') (hwf : s.Wf)
    (hb : Books conf s0 L s) (hl : Live L i p s) (hc : p.clientFd = some c) (hr : r c = true)
    (hf : s.files c = some f) : Handled f tr p' s' := by
  obtain ⟨t, fc, ft, ht, hfc, hft, hkc, hkt, _⟩ := hl.session c hc
  obtain rfl : fc = f := Option.some.inj (hfc.symm.trans hf)
  have htty : ∀ n, fc.kind ≠ .tty n := by
    intro n
    rw [hkc]
    nofun
  obtain ⟨tr1, p1, s1, tr2, s2, tr3, u, rfl, h1, h2, h3⟩ := visit_runs h
  obtain ⟨rfl, rfl, rfl⟩ := newClient_engaged h1 hc
  obtain ⟨L2, m2⟩ := (wp_runs (wp_netToSerial_moves hb hl) h2).2
  have htr3 := serialToNet_kind h3 m2.live htty
  obtain ⟨_, _, _, hno⟩ | ⟨c', res, hc', ho, hres⟩ := netToSerial_runs h2
  · rw [hno c hc] at hr
    cases hr
  obtain rfl : c = c' := Option.some.inj (hc.symm.trans hc')
  obtain ⟨b, bs, rfl, rfl, hfiles⟩ | ⟨hres, rfl⟩ := hres
  · apply Handled.consumed
    · exact exists_append_right _ (exists_append_left _ (ho.first fun s1 => hf))
    · apply forall_append3
      · exact List.forall_mem_nil _
      · exact ho.all (fun s1 => id) fun _ => Op.Idle.not_stuck
      · exact fun e he hst => htr3 e he hst.touches
    · refine ⟨c, mem_fds_client hc, ?_⟩
      rw [files_stay h3 stays_serialToNet, hfiles]
      exact hf
  · obtain ⟨rfl, rfl⟩ := serialToNet_closed h3 rfl
    apply Handled.closed
    · exact m2.gone rfl hwf (fresh_mono h2) hf (mem_ends_client hc)
    · apply forall_append3
      · exact List.forall_mem_nil _
      · apply ho.all ?_ fun _ => Op.Idle.not_stuck
        intro s1 hst
        obtain rfl | rfl := hres
        · obtain ⟨n, hn⟩ := hst.2
          exact htty n hn
        · obtain ⟨n, hn⟩ := hst.2
          exact htty n hn
      · exact List.forall_mem_nil _

theorem visit_tty (h : Runs posix (visit conf i r p) s tr p' s') (hwf : s.Wf)
    (hb : Books conf s0 L s) (hl : Live L i p s) (ht : p.ttyFd = some t) (hr : r t = true)
    (hf : s.files t = some f) : Handled f tr p' s' := by
  have hclient : ∃ c, p.clientFd = some c := by
    cases hc : p.clientFd with
    | none =>
      rw [hl.closed hc] at ht
      cases ht
    | some c => exact ⟨c, rfl⟩
  obtain ⟨c, hc⟩ := hclient
  obtain ⟨t', fc, ft, ht', hfc, hft, hkc, hkt, _⟩ := hl.session c hc
  obtain rfl : t' = t := Option.some.inj (ht'.symm.trans ht)
  obtain rfl : ft = f := Option.some.inj (hft.symm.trans hf)
  have hconn : ft.kind ≠ .conn := by
    rw [hkt]
    nofun
  obtain ⟨tr1, p1, s1, tr2, s2, tr3, u, rfl, h1, h2, h3⟩ := visit_runs h
  obtain ⟨rfl, rfl, rfl⟩ := newClient_engaged h1 hc
  obtain ⟨L2, m2⟩ := (wp_runs (wp_netToSerial_moves hb hl) h2).2
  have htr2 := netToSerial_kind h2 hl hconn
  -- the session goes on, or both its ends are closed
  have hcase : (p' = p1 ∧ s2.files = s1.files) ∨
      p' = { p1 with clientFd := none, ttyFd := none } := by
    obtain ⟨_, rfl, rfl, _⟩ | ⟨_, _, _, _, hres⟩ := netToSerial_runs h2
    · exact .inl ⟨rfl, rfl⟩
    · obtain ⟨_, _, _, rfl, hfiles⟩ | ⟨_, rfl⟩ := hres
      · exact .inl ⟨rfl, hfiles⟩
      · exact .inr rfl
  obtain ⟨rfl, hfiles⟩ | rfl := hcase
  · have hf2 : s2.files t' = some ft := by
      rw [hfiles]
      exact hf
    obtain ⟨_, _, hno⟩ | ⟨t2, res, ht2, ho⟩ := serialToNet_runs h3
    · rw [hno t' ht] at hr
      cases hr
    obtain rfl : t' = t2 := Option.some.inj (ht.symm.trans ht2)
    have hstuck : (res = none ∨ res = some []) → Handled ft ([] ++ (tr2 ++ tr3)) p' s' := by
      intro hres
      apply Handled.stuck
      · apply exists_append_right
        apply exists_append_right
        apply ho.first
        intro s3
        obtain rfl | rfl := hres
        · exact ⟨hf2, _, hkt⟩
        · exact ⟨hf2, _, hkt⟩
      · apply forall_append3
        · exact List.forall_mem_nil _
        · exact fun e he hco => htr2 e he hco.touches
        · apply ho.all ?_ fun _ => Op.Idle.not_consumes
          intro s3
          obtain rfl | rfl := hres
          · exact id
          · exact id
      · refine ⟨t', ?_, ?_⟩
        · unfold Port.watched
          simp [ht]
        · rw [files_stay h3 stays_serialToNet]
          exact hf2
    match res, ho, hstuck with
    | none, _, hstuck => exact hstuck (.inl rfl)
    | some [], _, hstuck => exact hstuck (.inr rfl)
    | some (b :: bs), ho, _ =>
      apply Handled.consumed
      · exact exists_append_right _ (exists_append_right _ (ho.first fun s3 => hf2))
      · apply forall_append3
        · exact List.forall_mem_nil _
        · exact fun e he hst => htr2 e he hst.touches
        · exact ho.all (fun s3 => id) fun _ => Op.Idle.not_stuck
      · refine ⟨t', mem_fds_tty ht, ?_⟩
        rw [files_stay h3 stays_serialToNet]
        exact hf2
  · obtain ⟨rfl, rfl⟩ := serialToNet_closed h3 rfl
    apply Handled.closed
    · exact m2.gone rfl hwf (fresh_mono h2) hf (mem_ends_tty ht)
    · apply forall_append3
      · exact List.forall_mem_nil _
      · exact fun e he hst => htr2 e he hst.touches
      · exact List.forall_mem_nil _

/-! ## a pass over the ports -/

section
variable {I : Fin maxp → Prop} {ps ps' : Ports}

/-- the ledger, and listening sockets that belong to one port each -/
structure Placed (conf : Conf) (s0 : Sys) (I : Fin maxp → Prop) (ps : Ports) (L : List Pairing)
    (s : Sys) : Prop where
  ledger : Ledger conf s0 I ps L s
  wf : s.Wf
  apart : ∀ i j l, I i → I j → (ps i).listenFd = some l → (ps j).listenFd = some l → i = j

/-- a descriptor of one port is none of another one -/
theorem Placed.elsewhere (h : Placed conf s0 I ps L s) (hi : I i) (hj : I j) (hne : j ≠ i)
    (hfd : fd ∈ (ps i).fds) : fd ∉ (ps j).ends ∧ (ps j).listenFd ≠ some fd := by
  obtain hlisten | hend := (mem_fds_iff (ps i) fd).mp hfd
  · obtain ⟨f, hf, hk⟩ := (h.ledger.live i hi).listen fd hlisten
    constructor
    · intro hm
      obtain ⟨f', _, hf', hk', _⟩ := (h.ledger.live j hj).end_mem hm
      obtain rfl : f = f' := Option.some.inj (hf.symm.trans hf')
      exact hk' hk
    · intro hl
      exact hne (h.apart j i fd hj hi hl hlisten)
  · constructor
    · intro hm
      exact h.ledger.apart hj hi hne.symm hend hm
    · intro hl
      obtain ⟨f, hf, hk⟩ := (h.ledger.live j hj).listen fd hl
      obtain ⟨f', _, hf', hk', _⟩ := (h.ledger.live i hi).end_mem hend
      obtain rfl : f = f' := Option.some.inj (hf.symm.trans hf')
      exact hk' hk

theorem Placed.visited (h : Placed conf s0 I ps L s) (hi : I i)
    (hx : Runs posix (visit conf i r (ps i)) s tr p' s') :
    ∃ L', Placed conf s0 I (Function.update ps i p') L' s' := by
  obtain ⟨L', hm⟩ := (wp_runs (wp_visit_moves h.ledger.books (h.ledger.live i hi)) hx).2
  refine ⟨L', h.ledger.visited hi hm, wf_run hx h.wf, ?_⟩
  have hlisten : ∀ k, (Function.update ps i p' k).listenFd = (ps k).listenFd := by
    intro k
    by_cases hk : k = i
    · rw [hk, Function.update_self]
      exact hm.listen
    · rw [Function.update_of_ne hk]
  intro j k l hj hk hl hl'
  rw [hlisten] at hl hl'
  exact h.apart j k l hj hk hl hl'

theorem pass_elsewhere (is : List (Fin maxp)) (hI : ∀ j ∈ is, I j) (hi : I i) (hni : i ∉ is)
    (h : Placed conf s0 I ps L s) (hfd : fd ∈ (ps i).fds) (hf : s.files fd = some f)
    (hx : Runs posix (pass conf r is ps) s tr ps' s') :
    (∀ e ∈ tr, ¬touches f e) ∧ s'.files fd = some f ∧ ps' i = ps i := by
  induction is generalizing ps s L tr with
  | nil =>
    obtain ⟨rfl, rfl, rfl⟩ := runs_ret.mp hx
    exact ⟨List.forall_mem_nil _, hf, rfl⟩
  | cons j is ih =>
    have hj := hI j (List.mem_cons_self ..)
    have hne : j ≠ i := fun e => hni (e ▸ List.mem_cons_self ..)
    obtain ⟨tr1, p1, s1, tr2, rfl, h1, h2⟩ := runs_bind.mp hx
    obtain ⟨hends, hlisten⟩ := h.elsewhere hi hj hne hfd
    obtain ⟨htr1, hf1, _⟩ := visit_elsewhere h1 h.wf h.ledger.books (h.ledger.live j hj) hf hends
      hlisten
    obtain ⟨L1, hp1⟩ := h.visited hj h1
    have hself : Function.update ps j p1 i = ps i := Function.update_of_ne hne.symm ..
    obtain ⟨htr2, hf2, hps⟩ := ih (fun k hk => hI k (List.mem_cons_of_mem _ hk))
      (fun hm => hni (List.mem_cons_of_mem _ hm)) hp1 (hself ▸ hfd) hf1 h2
    refine ⟨?_, hf2, hps.trans hself⟩
    intro e he
    obtain he | he := List.mem_append.mp he
    · exact htr1 e he
    · exact htr2 e he

theorem watched_fds (h : fd ∈ p.watched) : fd ∈ p.fds := by
  unfold Port.watched at h
  unfold Port.fds
  obtain h | h := List.mem_append.mp h
  · obtain h | h := List.mem_append.mp h
    · split at h
      · exact List.mem_append_left _ (List.mem_append_left _ h)
      · cases h
    · exact List.mem_append_left _ (List.mem_append_right _ h)
  · exact List.mem_append_right _ h

/-- **The visit of its own port.** -/
theorem visit_own (h : Runs posix (visit conf i r p) s tr p' s') (hwf : s.Wf)
    (hb : Books conf s0 L s) (hl : Live L i p s) (hfd : fd ∈ p.watched) (hr : r fd = true)
    (hf : s.files fd = some f) : Handled f tr p' s' := by
  unfold Port.watched at hfd
  obtain hfd | hfd := List.mem_append.mp hfd
  · obtain hfd | hfd := List.mem_append.mp hfd
    · split at hfd
      · rename_i hc
        exact visit_listener h hb hl (Option.mem_toList.mp hfd) hc hr hf
      · cases hfd
    · exact visit_client h hwf hb hl (Option.mem_toList.mp hfd) hr hf
  · exact visit_tty h hwf hb hl (Option.mem_toList.mp hfd) hr hf

/-- what was handled stays handled by a part that does not touch the file -/
theorem Handled.after (h : Handled f tr p' s')
    (h1 : ∀ e ∈ tr1, ¬touches f e) : Handled f (tr1 ++ tr) p' s' := by
  have hall : ∀ {P : Event Op Res Sys → Prop}, (∀ e, P e → touches f e) → (∀ e ∈ tr, ¬P e) →
      ∀ e ∈ tr1 ++ tr, ¬P e := by
    intro P hP hno e he hp
    obtain he | he := List.mem_append.mp he
    · exact h1 e he (hP e hp)
    · exact hno e he hp
  cases h with
  | consumed found free stays =>
    exact .consumed (exists_append_right _ found) (hall (fun _ => Stuck.touches) free) stays
  | closed gone free => exact .closed gone (hall (fun _ => Stuck.touches) free)
  | stuck found idle stays =>
    exact .stuck (exists_append_right _ found) (hall (fun _ => Consumes.touches) idle) stays

theorem pass_own (is : List (Fin maxp)) (hI : ∀ j ∈ is, I j) (hi : i ∈ is) (hn : is.Nodup)
    (h : Placed conf s0 I ps L s) (hfd : fd ∈ (ps i).watched) (hr : r fd = true)
    (hf : s.files fd = some f) (hx : Runs posix (pass conf r is ps) s tr ps' s') :
    Handled f tr (ps' i) s' := by
  induction is generalizing ps s L tr with
  | nil => cases hi
  | cons j is ih =>
    obtain ⟨hnj, hn'⟩ := List.nodup_cons.mp hn
    have hj := hI j (List.mem_cons_self ..)
    have hI' : ∀ k ∈ is, I k := fun k hk => hI k (List.mem_cons_of_mem _ hk)
    obtain ⟨tr1, p1, s1, tr2, rfl, h1, h2⟩ := runs_bind.mp hx
    obtain ⟨L1, hp1⟩ := h.visited hj h1
    obtain rfl | hi' := List.mem_cons.mp hi
    · -- the port is visited now, and what follows does not touch the file
      have hself : Function.update ps i p1 i = p1 := Function.update_self ..
      have hrest : ∀ fd, fd ∈ p1.fds → s1.files fd = some f →
          (∀ e ∈ tr2, ¬touches f e) ∧ s'.files fd = some f ∧ ps' i = p1 := by
        intro fd hfd hf1
        obtain ⟨htr2, hf2, hps⟩ := pass_elsewhere is hI' hj hnj hp1 (hself.symm ▸ hfd) hf1 h2
        exact ⟨htr2, hf2, hps.trans hself⟩
      obtain ⟨found, free, stays⟩ | ⟨gone, free⟩ | ⟨found, idle, stays⟩ :=
        visit_own h1 h.wf h.ledger.books (h.ledger.live i hj) hfd hr hf
      · obtain ⟨x, hx1, hf1⟩ := stays
        obtain ⟨htr2, hf2, hps⟩ := hrest x hx1 hf1
        apply Handled.consumed (exists_append_left _ found)
        · intro e he hst
          obtain he | he := List.mem_append.mp he
          · exact free e he hst
          · exact htr2 e he hst.touches
        · rw [hps]
          exact ⟨x, hx1, hf2⟩
      · obtain ⟨htr2, hgone⟩ := gone_untouched h2 gone
        apply Handled.closed hgone
        intro e he hst
        obtain he | he := List.mem_append.mp he
        · exact free e he hst
        · exact htr2 e he hst.touches
      · obtain ⟨x, hx1, hf1⟩ := stays
        obtain ⟨htr2, hf2, hps⟩ := hrest x (watched_fds hx1) hf1
        apply Handled.stuck (exists_append_left _ found)
        · intro e he hco
          obtain he | he := List.mem_append.mp he
          · exact idle e he hco
          · exact htr2 e he hco.touches
        · rw [hps]
          exact ⟨x, hx1, hf2⟩
    · have hne : j ≠ i := fun e => hnj (e ▸ hi')
      obtain ⟨hends, hlisten⟩ := h.elsewhere (hI i hi) hj hne (watched_fds hfd)
      obtain ⟨htr1, hf1, _⟩ := visit_elsewhere h1 h.wf h.ledger.books (h.ledger.live j hj) hf hends
        hlisten
      have hself : Function.update ps j p1 i = ps i := Function.update_of_ne hne.symm ..
      exact (ih hI' hi' hn' hp1 (hself.symm ▸ hfd) hf1 h2).after htr1

theorem visit_silent (h : Runs posix (visit conf i r p) s tr p' s') : ∀ e ∈ tr, ¬Reports f e := by
  obtain ⟨tr1, p1, s1, tr2, s2, tr3, u, rfl, h1, h2, h3⟩ := visit_runs h
  apply forall_append3
  · obtain ⟨rfl, _⟩ | ⟨_, _, _, _, ho, _⟩ := newClient_runs h1
    · exact List.forall_mem_nil _
    · exact ho.all (fun s1 => id) fun _ => Op.Idle.not_reports
  · obtain ⟨rfl, _⟩ | ⟨_, _, _, ho, _⟩ := netToSerial_runs h2
    · exact List.forall_mem_nil _
    · exact ho.all (fun s1 => id) fun _ => Op.Idle.not_reports
  · obtain ⟨rfl, _⟩ | ⟨_, _, _, ho⟩ := serialToNet_runs h3
    · exact List.forall_mem_nil _
    · exact ho.all (fun s1 => id) fun _ => Op.Idle.not_reports

theorem pass_silent (is : List (Fin maxp)) (h : Runs posix (pass conf r is ps) s tr ps' s') :
    ∀ e ∈ tr, ¬Reports f e := by
  induction is generalizing ps s tr with
  | nil =>
    obtain ⟨rfl, _⟩ := runs_ret.mp h
    exact List.forall_mem_nil _
  | cons i is ih =>
    obtain ⟨tr1, p1, s1, tr2, rfl, h1, h2⟩ := runs_bind.mp h
    intro e he
    obtain he | he := List.mem_append.mp he
    · exact visit_silent h1 e he
    · exact ih h2 e he

/-! ## a turn -/

/-- a turn that reports something is a `select` and a pass over the ports -/
theorem turn_runs (h : Runs posix (turn conf ps) s tr (some ps') s')
    (hf : ∃ e ∈ tr, Reports f e) : ∃ max r fd s1 tr1,
      tr = ⟨s, .select (max + 1) fun fd => decide (fd ∈ conf.watched ps), .ready r, s1⟩ :: tr1 ∧
      s.access (.select (max + 1) fun fd => decide (fd ∈ conf.watched ps)) (.ready r) s1 ∧
      r fd = true ∧ s.files fd = some f ∧
      Runs posix (pass conf r conf.indices ps) s1 tr1 ps' s' := by
  unfold turn at h
  obtain ⟨e, he, hrep⟩ := hf
  cases hmax : (conf.watched ps).max? with
  | none =>
    rw [hmax] at h
    obtain ⟨s1, _, s2, tr1, rfl, hr, ha, h1⟩ := runs_op.mp h
    obtain ⟨rfl, _⟩ := runs_ret.mp h1
    obtain rfl := List.mem_singleton.mp he
    exact hrep.elim
  | some max =>
    rw [hmax] at h
    obtain ⟨s1, res, s2, tr1, rfl, hr, ha, h1⟩ := runs_op.mp h
    obtain rfl : s1 = s := hr
    cases res with
    | eintr =>
      obtain ⟨rfl, _⟩ := runs_ret.mp h1
      obtain rfl := List.mem_singleton.mp he
      exact hrep.elim
    | failed =>
      obtain ⟨_, hno, _⟩ := runs_ret.mp h1
      cases hno
    | ready r =>
      have h2 : Runs posix (pass conf r conf.indices ps >>= fun ps => pure (some ps)) s2 tr1
        (some ps') s' := h1
      obtain ⟨tr2, ps2, s3, tr3, rfl, h3, h4⟩ := runs_bind.mp h2
      obtain ⟨rfl, hps, rfl⟩ := runs_ret.mp h4
      obtain rfl := Option.some.inj hps
      rw [List.append_nil] at he ⊢
      obtain rfl | he := List.mem_cons.mp he
      · obtain ⟨fd, hfd, hfile⟩ := hrep
        exact ⟨max, r, fd, s2, tr2, rfl, ha, hfd, hfile, h3⟩
      · exact absurd hrep (pass_silent conf.indices h3 e he)

end

/-- **A reported file advances exactly if the turn is not stuck on it.** -/
theorem turn_advances_iff (conf : Conf) (n : Nat) (s0 s s' : Sys) (hs : s0.Start)
    (tr0 tr : List (Event Op Res Sys)) (ps ps' : Ports)
    (h0 : Runs posix (nmMain conf n) s0 tr0 (some ps) s)
    (h : Runs posix (turn conf ps) s tr (some ps') s') (f : File) (hf : ∃ e ∈ tr, Reports f e) :
    Advances conf f tr ps' s' ↔ ∀ e ∈ tr, ¬Stuck f e := by
  have hw := wp_and (wp_nmMain posix.le_refl conf n hs) (wp_nmMain_ledger conf n hs)
  obtain ⟨hhead, L, hledger⟩ : Head posix conf ps s ∧
    ∃ L, Ledger conf s0 (· ∈ conf.indices) ps L s := (wp_runs hw h0).2
  have ht := hhead.table
  obtain ⟨max, r, fd, s1, tr1, rfl, ha, hr, hfile, h1⟩ := turn_runs h hf
  obtain ⟨hsub, rfl⟩ := ha
  have hplaced : Placed conf s0 (· ∈ conf.indices) ps L { s with
      ready := r
      readyFiles := fun fd => if r fd then s.files fd else none } := by
    refine ⟨⟨hledger.books.mark rfl rfl (Nat.le_refl _), ?_, hledger.kept⟩, (ht.select r).wf, ?_⟩
    · exact fun i hi => (hledger.live i hi).same rfl
    · intro i j l hi hj hl hl'
      exact ht.apart i j l hi hj ((mem_fds_iff _ l).mpr (.inl hl))
        ((mem_fds_iff _ l).mpr (.inl hl'))
  obtain ⟨i, hi, hfd⟩ := List.mem_flatMap.mp (of_decide_eq_true (hsub fd hr).1)
  obtain ⟨found, free, _⟩ | ⟨gone, free⟩ | ⟨found, idle, stays⟩ :=
    pass_own conf.indices (fun _ hi => hi) hi (nodup_indices conf) hplaced hfd hr hfile h1
  · constructor
    · intro _ e he
      obtain rfl | he := List.mem_cons.mp he
      · exact id
      · exact free e he
    · intro _
      obtain ⟨e, he, hco⟩ := found
      exact .inl ⟨e, List.mem_cons_of_mem _ he, hco⟩
  · constructor
    · intro _ e he
      obtain rfl | he := List.mem_cons.mp he
      · exact id
      · exact free e he
    · intro _
      right
      intro hwatch
      obtain ⟨x, _, hx⟩ := hwatch
      exact gone.shut x f hx rfl
  · constructor
    · intro hadv
      obtain ⟨e, he, hco⟩ | hno := hadv
      · obtain rfl | he := List.mem_cons.mp he
        · exact hco.elim
        · exact absurd hco (idle e he)
      · obtain ⟨x, hx, hxf⟩ := stays
        exact absurd ⟨x, List.mem_flatMap.mpr ⟨i, hi, hx⟩, hxf⟩ hno
    · intro hno
      obtain ⟨e, he, hst⟩ := found
      exact absurd hst (hno e (List.mem_cons_of_mem _ he))

/-! ## a session on port 0, and what its tty says then -/

/-- a client connects to port 0 -/
def dialScript : Script where
  select := fdSets [(8, [3])]
  read := answers []
  write _ := 1024

/-- `select` reports the tty, and this is what the read of it answers -/
def ttyScript (said : List (Nat × List UInt8)) : Script where
  select := fdSets [(0, [6])]
  read := answers said
  write _ := 1024

def dialled := dialScript.policy.play 0 (nmMain twoPorts 1) startSys
def dialledPorts : Ports := ((dialled.2.2.result.getD none).getD fun _ => .zero)
def listened (said : List (Nat × List UInt8)) :=
  (ttyScript said).policy.play 0 (turn twoPorts dialledPorts) dialled.2.1

theorem dialled_runs :
    Runs posix (nmMain twoPorts 1) startSys dialled.1 (some dialledPorts) dialled.2.1 := by
  have hsome : dialled.2.2.result.map Option.isSome = some true := by decide +kernel
  obtain ⟨res, hres, hps⟩ := Option.map_eq_some_iff.mp hsome
  obtain ⟨ps, rfl⟩ := Option.isSome_iff_exists.mp hps
  have hports : dialledPorts = ps := by
    unfold dialledPorts
    rw [hres]
    rfl
  rw [hports]
  exact dialScript.policy.play_runs 0 _ _ hres

theorem listened_runs (said : List (Nat × List UInt8))
    (h : (listened said).2.2.result.map (Option.map fun ps => (ps 0).ttyFd)
      = some (some (some 6))) :
    ∃ ps, Runs posix (turn twoPorts dialledPorts) dialled.2.1 (listened said).1 (some ps)
      (listened said).2.1 ∧ (ps 0).ttyFd = some 6 := by
  obtain ⟨res, hres, he⟩ := Option.map_eq_some_iff.mp h
  obtain ⟨ps, rfl, hfd⟩ := Option.map_eq_some_iff.mp he
  exact ⟨ps, (ttyScript said).policy.play_runs 0 _ _ hres, hfd⟩

/-- the tty of the session -/
def dialledTty : File := ⟨6, .tty 0⟩

/-- `select` reports the tty -/
def rings : Event Op Res Sys → Bool
  | ⟨s, .select _ _, .ready r, _⟩ => r 6 && decide (s.files 6 = some dialledTty)
  | _ => false

theorem reports_of_rings (h : tr.any rings = true) : ∃ e ∈ tr, Reports dialledTty e := by
  obtain ⟨⟨s, o, x, s'⟩, he, hring⟩ := List.any_eq_true.mp h
  refine ⟨_, he, ?_⟩
  cases o with
  | select nfds want =>
    cases x with
    | ready r =>
      obtain ⟨hr, hf⟩ := Bool.and_eq_true_iff.mp hring
      exact ⟨6, hr, of_decide_eq_true hf⟩
    | _ => cases hring
  | _ => cases hring

/-- something was taken, from whichever file -/
def gains : Event Op Res Sys → Bool
  | ⟨_, .accept _, some _, _⟩ => true
  | ⟨_, .read _ _, some (_ :: _), _⟩ => true
  | _ => false

theorem Consumes.gains {e : Event Op Res Sys} (h : Consumes f e) : gains e = true := by
  obtain ⟨s, o, x, s'⟩ := e
  cases o with
  | accept l =>
    cases x with
    | none => exact h.elim
    | some c => rfl
  | read fd len =>
    cases x with
    | none => exact h.elim
    | some bs =>
      cases bs with
      | nil => exact h.elim
      | cons b bs => rfl
  | _ => exact h.elim

/-- an `accept` or a read that gave nothing -/
def fails : Event Op Res Sys → Bool
  | ⟨_, .accept _, none, _⟩ => true
  | ⟨_, .read _ _, none, _⟩ => true
  | ⟨_, .read _ _, some [], _⟩ => true
  | _ => false

theorem Stuck.fails {e : Event Op Res Sys} (h : Stuck f e) : fails e = true := by
  obtain ⟨s, o, x, s'⟩ := e
  cases o with
  | accept l =>
    cases x with
    | none => rfl
    | some c => exact h.elim
  | read fd len =>
    cases x with
    | none => rfl
    | some bs =>
      cases bs with
      | nil => rfl
      | cons b bs => exact h.elim
  | _ => exact h.elim

/-- the tty has a byte -/
theorem turn_advances_heard : ∃ tr0 ps s tr ps' s', Runs posix (nmMain twoPorts 1) startSys tr0
      (some ps) s ∧ Runs posix (turn twoPorts ps) s tr (some ps') s' ∧
    (∃ e ∈ tr, Reports dialledTty e) ∧ Advances twoPorts dialledTty tr ps' s' := by
  obtain ⟨ps', hx, _⟩ := listened_runs [(1, [0x6f])] (by decide +kernel)
  have hring : (listened [(1, [0x6f])]).1.any rings = true := by decide +kernel
  have hrep := reports_of_rings hring
  refine ⟨_, _, _, _, ps', _, dialled_runs, hx, hrep, ?_⟩
  apply (turn_advances_iff twoPorts 1 startSys _ _ startSys_start _ _ _ ps' dialled_runs hx
    dialledTty hrep).mpr
  intro e he hst
  have hall : ((listened [(1, [0x6f])]).1.all fun e => !fails e) = true := by decide +kernel
  have hno := List.all_eq_true.mp hall e he
  rw [hst.fails] at hno
  cases hno

/-- the tty was hung up: nothing is taken in the turn, and `select` is asked about it again -/
theorem turn_advances_fails : ∃ tr0 ps s tr ps' s', Runs posix (nmMain twoPorts 1) startSys tr0
      (some ps) s ∧ Runs posix (turn twoPorts ps) s tr (some ps') s' ∧
    (∃ e ∈ tr, Reports dialledTty e) ∧ (∀ g, ∀ e ∈ tr, ¬Consumes g e) ∧
    Watches twoPorts ps' s' dialledTty ∧ ¬Advances twoPorts dialledTty tr ps' s' := by
  obtain ⟨ps', hx, htty⟩ := listened_runs [] (by decide +kernel)
  have hring : (listened []).1.any rings = true := by decide +kernel
  have hrep := reports_of_rings hring
  have hno : ∀ g, ∀ e ∈ (listened []).1, ¬Consumes g e := by
    intro g e he hco
    have hall : ((listened []).1.all fun e => !gains e) = true := by decide +kernel
    have hno := List.all_eq_true.mp hall e he
    rw [hco.gains] at hno
    cases hno
  have hwatch : Watches twoPorts ps' (listened []).2.1 dialledTty := by
    refine ⟨6, List.mem_flatMap.mpr ⟨0, by decide, ?_⟩, by decide +kernel⟩
    unfold Port.watched
    rw [htty]
    exact List.mem_append_right _ (List.mem_singleton.mpr rfl)
  refine ⟨_, _, _, _, ps', _, dialled_runs, hx, hrep, hno, hwatch, ?_⟩
  intro hadv
  obtain ⟨e, he, hco⟩ | hnw := hadv
  · exact hno _ e he hco
  · exact hnw hwatch

end Nmconsole
