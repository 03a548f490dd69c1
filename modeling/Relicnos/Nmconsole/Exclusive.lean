import Relicnos.Nmconsole.Spin

/-!
# A tty is opened once at a time

Other programs share a tty with the server if they like; the server does not share one with
itself.

* `Sole`            a tty is opened only while no descriptor stands for it;
* `wp_nmMain_sole`  the whole program keeps to that, and keeps the books.
-/

set_option linter.unusedVariables false

namespace Nmconsole
open Interact

variable {conf : Conf} {p : Port} {s s' s0 : Sys} {L : List Pairing} {i : Fin maxp} {c t fd : Nat}

/-- no descriptor stands for tty `n` -/
def Sys.Shut (s : Sys) (n : Nat) : Prop := ∀ fd f, s.files fd = some f → f.kind ≠ .tty n

def Sole (e : Event Op Res Sys) : Prop := ∀ n, e.op = .openTty n → n < maxp ∧ e.pre.Shut n

/-! ## calls that open no tty -/

def Op.OpensNone : Op → Prop
  | .openTty _ => False
  | _ => True

theorem keeps_sole : Keeps posix Sole Op.OpensNone fun _ => True := by
  intro s o r s' ho _ _
  refine ⟨fun n hn => ?_, trivial⟩
  obtain rfl : o = .openTty n := hn
  exact False.elim ho

theorem wp_opensNone {α : Type} {x : Posix α} (h : x.Uses Op.OpensNone) :
    wp posix Sole x (fun _ _ => True) s :=
  wp_keeps (fun _ _ _ _ => trivial) keeps_sole h trivial

theorem Op.Talk.opensNone {o : Op} (h : Op.Talk fd o) : o.OpensNone := by
  cases o with
  | openTty n => exact False.elim h
  | _ => trivial

theorem Op.Stays.opensNone {o : Op} (h : o.Stays) : o.OpensNone := by
  cases o with
  | openTty n => exact False.elim h
  | _ => trivial

theorem opensNone_setSpeed (fd : Nat) : (setSpeed conf i fd).Uses Op.OpensNone := by
  apply Prog.Uses.bind ((Prog.uses_call _).mpr trivial)
  intro (up : Bool)
  exact Prog.Uses.ite ((Prog.uses_call _).mpr trivial) trivial

theorem opensNone_hangup : (hangup p c).Uses Op.OpensNone := by
  apply Prog.Uses.bind ((Prog.uses_call _).mpr trivial)
  intro _
  unfold closeTty
  cases p.ttyFd with
  | none => trivial
  | some t => exact Prog.Uses.bind ((Prog.uses_call _).mpr trivial) fun _ => trivial

theorem opensNone_netToSerial {r : FdSet} : (netToSerial conf r p).Uses Op.OpensNone := by
  unfold netToSerial
  cases p.clientFd with
  | none => trivial
  | some c =>
    apply Prog.Uses.ite ?_ (Prog.uses_pure p)
    apply Prog.Uses.bind ((Prog.uses_call _).mpr trivial)
    intro res
    rcases res with _ | _ | ⟨b, bs⟩
    · exact opensNone_hangup
    · exact opensNone_hangup
    · exact Prog.Uses.bind (talks_passOn.mono fun _ h => h.stays.opensNone) fun _ => trivial

theorem opensNone_listenOn (tcpPort : Int) : (listenOn tcpPort).Uses Op.OpensNone := by
  apply Prog.Uses.bind ((Prog.uses_call _).mpr trivial)
  intro res
  cases res with
  | none => trivial
  | some fd =>
    apply Prog.Uses.bind ((Prog.uses_call _).mpr trivial)
    intro _
    apply Prog.Uses.bind
    · apply Prog.Uses.bind ((Prog.uses_call _).mpr trivial)
      intro (bound : Bool)
      exact Prog.Uses.ite ((Prog.uses_call _).mpr trivial) trivial
    · intro up
      exact Prog.Uses.ite trivial (Prog.Uses.bind ((Prog.uses_call _).mpr trivial) fun _ => trivial)

theorem opensNone_setupPorts (is : List (Fin maxp)) (ps : Ports) :
    (setupPorts conf is ps).Uses Op.OpensNone := by
  induction is generalizing ps with
  | nil => trivial
  | cons i is ih => exact Prog.Uses.bind (opensNone_listenOn _) fun _ => ih _

/-! ## one port -/

theorem Sys.Shut.install {n : Nat} {kind : FileKind} (h : s.Shut n) (hk : kind ≠ .tty n) :
    (s.install fd kind).Shut n := by
  intro x f hf
  replace hf : Function.update s.files fd (some ⟨s.fresh, kind⟩) x = some f := hf
  by_cases hx : x = fd
  · rw [hx, Function.update_self] at hf
    cases hf
    exact hk
  · rw [Function.update_of_ne hx] at hf
    exact h x f hf

/-- what is found is what was left -/
theorem same_stable : Stable posix fun s' => s' = s := fun _ _ h hr => Eq.trans hr h

theorem wp_greet_sole (h : s.Shut i.val) :
    wp posix Sole (greet conf i p c) (fun _ _ => True) s := by
  unfold greet
  refine wp_step same_stable rfl ?_
  rintro s1 _ s2 rfl ha
  obtain rfl : s2 = s1 := ha
  refine ⟨nofun, ?_⟩
  unfold openTty
  rw [bind_assoc]
  refine wp_step same_stable rfl ?_
  rintro s3 t s4 rfl ha4
  refine ⟨fun n hn => ?_, ?_⟩
  · cases hn
    exact ⟨i.isLt, h⟩
  · apply wp_opensNone
    cases t with
    | none =>
      apply Prog.Uses.bind ((Prog.uses_call _).mpr trivial)
      intro _
      exact Prog.Uses.bind ((Prog.uses_call _).mpr trivial) fun _ => trivial
    | some t =>
      rw [bind_assoc]
      apply Prog.Uses.bind (opensNone_setSpeed t)
      intro _
      show Prog.Uses Op.OpensNone (sayHello conf c >>= fun _ => pure _)
      exact Prog.Uses.bind (uses_sayHello.mono fun _ => Op.Talk.opensNone) fun _ => trivial

/-- a tty is opened for a port without a session only -/
theorem wp_visit_sole {r : FdSet} (h : p.clientFd = none → s.Shut i.val) :
    wp posix Sole (visit conf i r p) (fun _ _ => True) s := by
  have hnew : wp posix Sole (newClient conf i r p) (fun _ _ => True) s := by
    unfold newClient
    split
    · rename_i l _ hc
      split
      · refine wp_step same_stable rfl ?_
        rintro s1 res s2 rfl ha
        refine ⟨nofun, ?_⟩
        cases res with
        | none => trivial
        | some c =>
          obtain ⟨_, rfl⟩ : s1.Lowest c ∧ s2 = { s1.install c .conn with accepted := some c } := ha
          have hshut : (s1.install c .conn).Shut i.val := (h hc).install nofun
          exact wp_greet_sole hshut
      · trivial
    · trivial
  unfold visit
  refine (wp_bind _ _ _ _).mpr (wp_post hnew fun p1 s1 _ => ?_)
  apply wp_opensNone
  apply Prog.Uses.bind opensNone_netToSerial
  intro p2
  exact Prog.Uses.bind (stays_serialToNet.mono fun _ => Op.Stays.opensNone) fun _ => trivial

/-! ## all ports -/

section
variable {I : Fin maxp → Prop} {ps : Ports}

/-- no descriptor but one of the session of port `i` stands for tty `i` -/
theorem Ledger.shut (h : Ledger conf s0 I ps L s) (h0 : ∀ n, s0.Shut n) (hi : I i)
    (hc : (ps i).clientFd = none) : s.Shut i.val := by
  intro fd f hf hk
  rcases h.kept fd f hf with hj | hf0
  · obtain ⟨j, hj, hfd⟩ := hj
    rcases (mem_fds_iff _ fd).mp hfd with hl | he
    · obtain ⟨f', hf', hk'⟩ := (h.live j hj).listen fd hl
      rw [hf] at hf'
      cases hf'
      rw [hk'] at hk
      cases hk
    · cases hcj : (ps j).clientFd with
      | none =>
        rw [ends_of_none hcj ((h.live j hj).closed hcj)] at he
        cases he
      | some c =>
        obtain ⟨t, fc, ft, ht, hfc, hft, hkc, hkt, _⟩ := (h.live j hj).session c hcj
        unfold Port.ends at he
        rw [hcj, ht] at he
        simp only [Option.toList_some, List.singleton_append, List.mem_cons, List.not_mem_nil,
          or_false] at he
        rcases he with rfl | rfl
        · rw [hf] at hfc
          cases hfc
          rw [hkc] at hk
          cases hk
        · rw [hf] at hft
          cases hft
          rw [hkt] at hk
          have hji : j = i := Fin.ext (FileKind.tty.inj hk)
          rw [hji, hc] at hcj
          cases hcj
  · exact h0 i.val fd f hf0 hk

/-- both guards -/
def TidySole (e : Event Op Res Sys) : Prop := Tidy e ∧ Sole e

theorem wp_pass_sole (h0 : ∀ n, s0.Shut n) {r : FdSet} (is : List (Fin maxp))
    (hI : ∀ i ∈ is, I i) (h : Ledger conf s0 I ps L s) : wp posix TidySole (pass conf r is ps)
      (fun ps' s' => ∃ L', Ledger conf s0 I ps' L' s') s := by
  induction is generalizing ps s L with
  | nil => exact ⟨L, h⟩
  | cons i is ih =>
    have hi := hI i (List.mem_cons_self ..)
    unfold pass
    rw [wp_bind]
    refine wp_post (wp_and (wp_visit_moves h.books (h.live i hi))
      (wp_visit_sole (h.shut h0 hi))) fun p' s1 hm => ?_
    obtain ⟨⟨L', hm⟩, _⟩ := hm
    exact ih (fun j hj => hI j (List.mem_cons_of_mem _ hj)) (h.visited hi hm)

theorem wp_turn_sole (h0 : ∀ n, s0.Shut n) (h : Ledger conf s0 (· ∈ conf.indices) ps L s) :
    wp posix TidySole (turn conf ps) (LedgerOf conf s0) s := by
  unfold turn
  cases (conf.watched ps).max? with
  | none =>
    refine wp_step same_stable rfl ?_
    rintro s1 _ s2 rfl ha
    obtain rfl : s2 = s1 := ha
    exact ⟨⟨nofun, nofun⟩, L, h⟩
  | some max =>
    refine wp_step same_stable rfl ?_
    rintro s1 res s2 rfl ha
    refine ⟨⟨nofun, nofun⟩, ?_⟩
    cases res with
    | eintr =>
      obtain rfl : s2 = s1 := ha
      exact ⟨L, h⟩
    | failed => trivial
    | ready r =>
      obtain ⟨_, rfl⟩ := ha
      have h1 : Ledger conf s0 (· ∈ conf.indices) ps L { s1 with
          ready := r
          readyFiles := fun fd => if r fd then s1.files fd else none } :=
        ⟨h.books.mark rfl rfl (Nat.le_refl _), fun i hi => (h.live i hi).same rfl, h.kept⟩
      show wp posix TidySole (pass conf r conf.indices ps >>= fun ps => pure (some ps)) _ _
      rw [wp_bind]
      exact wp_post (wp_pass_sole h0 conf.indices (fun _ hi => hi) h1) fun _ _ h => h

theorem wp_turns_sole (h0 : ∀ n, s0.Shut n) (n : Nat)
    (h : Ledger conf s0 (· ∈ conf.indices) ps L s) :
    wp posix TidySole (turns conf n ps) (LedgerOf conf s0) s := by
  induction n generalizing ps s L with
  | zero => exact ⟨L, h⟩
  | succ n ih =>
    unfold turns
    rw [wp_bind]
    refine wp_post (wp_turn_sole h0 h) fun res s1 h1 => ?_
    cases res with
    | none => trivial
    | some ps' =>
      obtain ⟨L', h1⟩ := h1
      exact ih h1

end

/-- **The whole program opens each tty once at a time, and keeps the books.** -/
theorem wp_nmMain_sole (conf : Conf) (n : Nat) (hs : s.Start) (h0 : ∀ n, s.Shut n) :
    wp posix TidySole (nmMain conf n) (LedgerOf conf s) s := by
  have hb : Books conf s [] s :=
    ⟨nofun, List.nodup_nil, nofun, fun id _ => ⟨rfl, .inl rfl⟩, Nat.le_refl _, hs.wf.logs⟩
  have hl : Ledger conf s (fun _ => False) (fun _ => .zero) [] s :=
    ⟨hb, nofun, fun fd f hf => .inr hf⟩
  unfold nmMain
  rw [wp_bind]
  refine wp_post (wp_and (wp_setupPorts_ledger conf.indices (fun _ _ => id) (nodup_indices conf) hl)
    (wp_opensNone (opensNone_setupPorts conf.indices _))) fun ps s1 h1 => ?_
  obtain ⟨h1, _⟩ := h1
  refine wp_turns_sole h0 n (L := []) ⟨h1.books, fun i hi => h1.live i (.inl hi), fun fd f hf => ?_⟩
  exact (h1.kept fd f hf).imp (fun hj => hj.imp fun j hj => ⟨hj.1.resolve_right id, hj.2⟩) id

end Nmconsole
