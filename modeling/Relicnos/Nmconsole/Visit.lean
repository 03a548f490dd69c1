import Relicnos.Nmconsole.Descriptors

/-!
# The loop body

One visit of a port: it may accept a client, hand on what the client sent, and hand on what the
tty sent.  `K` is what the other ports hold, `E` any part of the environment.

* `Cautious`      a read is on a file that was reported, unless a session was opened on a
                  reported number;
* `OnlyReported`  `E` has no other reads; then no visit that ends has opened such a session;
* `wp_visit`      a visit is cautious, leaves a session behind or none, and leaves the numbers of
                  the others alone.
-/

set_option linter.unusedVariables false

namespace Nmconsole
open Interact

variable {conf : Conf} {p : Port} {s s' s0 : Sys} {K : Nat → Prop} {c t fd n : Nat}
  {bs : List UInt8}

/-! ## calls -/

/-- unless a session was opened on a reported number, a read is on a file that was reported -/
def Cautious (e : Event Op Res Sys) : Prop := e.pre.tainted = false → Reported e

/-- the number stands for the file that was reported under it -/
def Known (s : Sys) (fd : Nat) : Prop := ∃ f, s.files fd = some f ∧ s.readyFiles fd = some f

/-- `E` has no other reads -/
def OnlyReported (E : Env Op Res Sys) : Prop :=
  ∀ s fd len r s', E.access s (.read fd len) r s' → Known s fd

theorem Calm.known_iff (h : Calm s s') (fd : Nat) : Known s' fd ↔ Known s fd := by
  unfold Known
  rw [h.files, h.seen]

variable {E : Env Op Res Sys} {α : Type} {Q : α → Sys → Prop}

/-- any call but a read -/
theorem wp_call (hE : E.Le posix) {o : Op} {f : Res o → Posix α} (ho : ∀ fd len, o ≠ .read fd len)
    (h : ∀ r s', s.access o r s' → wp E Cautious (f r) Q s') :
    wp E Cautious (issue o >>= f) Q s := by
  intro s1 hr r s2 ha
  obtain rfl := hE.rely _ _ hr
  refine ⟨fun _ => ?_, h r s2 (hE.access _ _ _ _ ha)⟩
  cases o with
  | read fd len => exact absurd rfl (ho fd len)
  | _ => trivial

/-- only reads and closes have to meet the guard -/
def Lax (G : Event Op Res Sys → Prop) : Prop :=
  ∀ e, (∀ fd len, e.op ≠ .read fd len) → (∀ fd, e.op ≠ .close fd) → G e

variable {G : Event Op Res Sys → Prop}

theorem lax_cautious : Lax Cautious := by
  rintro ⟨s, o, r, s'⟩ hread hclose ht
  cases o with
  | read fd len => exact absurd rfl (hread fd len)
  | _ => trivial

/-- any call but a read or a close -/
theorem wp_lax (hE : E.Le posix) (hG : Lax G) {o : Op} {f : Res o → Posix α}
    (hr : ∀ fd len, o ≠ .read fd len) (hc : ∀ fd, o ≠ .close fd)
    (h : ∀ r s', s.access o r s' → wp E G (f r) Q s') : wp E G (issue o >>= f) Q s := by
  intro s1 hs r s2 ha
  obtain rfl := hE.rely _ _ hs
  exact ⟨hG _ hr hc, h r s2 (hE.access _ _ _ _ ha)⟩

theorem wp_read (hE : E.Le posix) {len : Nat} {f : Option (List UInt8) → Posix α}
    (hs : Known s fd ∨ s.tainted = true)
    (h : ∀ r s', (OnlyReported E → Known s fd) → s.access (.read fd len) r s' →
      wp E Cautious (f r) Q s') : wp E Cautious (read fd len >>= f) Q s := by
  intro s1 hr r s2 ha
  obtain rfl := hE.rely _ _ hr
  refine ⟨fun ht => ?_, h r s2 (fun he => he _ _ _ _ _ ha) (hE.access _ _ _ _ ha)⟩
  rcases hs with hs | hs
  · exact hs
  · exact absurd (hs.symm.trans ht) nofun

/-- talk that is not for the tty -/
def Op.Talk (fd : Nat) : Op → Prop
  | .write fd' _ => fd' = fd
  | .tcsendbreak _ => True
  | _ => False

theorem wp_talk (hE : E.Le posix) {x : Posix α} (hu : x.Uses (Op.Talk fd)) (hfd : fd ∈ p.fds)
    (ht : p.ttyFd ≠ some fd) (h : Holds K p.fds s0 s) :
    wp E Cautious x (fun _ s' => Holds K p.fds s0 s' ∧ Quiet p s s') s := by
  refine wp_keeps (P := fun s' => Holds K p.fds s0 s' ∧ Quiet p s s') ?_ ?_ hu ⟨h, .refl p s⟩
  · rintro s1 s2 h1 hr
    obtain rfl := hE.rely _ _ hr
    exact h1
  · rintro s1 o r s2 ho ⟨h1, hq⟩ ha
    replace ha := hE.access _ _ _ _ ha
    cases o with
    | write fd' bs =>
      obtain rfl : fd' = fd := ho
      refine ⟨fun _ => trivial, ?_⟩
      cases r with
      | none =>
        obtain rfl : s2 = s1.logPut fd' bs 0 := ha
        exact ⟨h1.logPut hfd (Nat.zero_le _), hq.trans (.logPut h1.wf ht)⟩
      | some n =>
        obtain ⟨hn, rfl⟩ : n ≤ bs.length ∧ s2 = s1.logPut fd' bs n := ha
        exact ⟨h1.logPut hfd hn, hq.trans (.logPut h1.wf ht)⟩
    | tcsendbreak t =>
      obtain rfl : s2 = s1 := ha
      exact ⟨fun _ => trivial, h1, hq⟩
    | _ => exact False.elim ho

theorem wp_writeTo (hE : E.Le posix) (hG : Lax G) {f : Option Nat → Posix α}
    (h : ∀ r n, n ≤ bs.length → wp E G (f r) Q (s.logPut fd bs n)) :
    wp E G (write fd bs >>= f) Q s := by
  refine wp_lax hE hG nofun nofun ?_
  intro r s' ha
  cases r with
  | none =>
    obtain rfl : s' = s.logPut fd bs 0 := ha
    exact h _ 0 (Nat.zero_le _)
  | some n =>
    obtain ⟨hn, rfl⟩ : n ≤ bs.length ∧ s' = s.logPut fd bs n := ha
    exact h _ n hn

theorem wp_closeOf (hE : E.Le posix) {f : Unit → Posix α}
    (h : wp E Cautious (f ()) Q { s with files := Function.update s.files fd none }) :
    wp E Cautious (close fd >>= f) Q s := by
  refine wp_call hE (by nofun) ?_
  rintro _ s' rfl
  exact h

theorem wp_setSpeed (hE : E.Le posix) (hG : Lax G) {i : Fin maxp} {f : Unit → Posix α}
    (h : wp E G (f ()) Q s) : wp E G (setSpeed conf i fd >>= f) Q s := by
  refine wp_lax hE hG nofun nofun ?_
  rintro r s' rfl
  have hset : ∀ b : Bool, wp E G
      ((if b = true then tcsetattr fd (toSpeed (conf.speedOf i)) else pure ()) >>= f) Q s' := by
    intro b
    cases b with
    | false => exact h
    | true =>
      refine wp_lax hE hG nofun nofun ?_
      rintro _ s'' rfl
      exact h
  exact hset r

/-- `open_tty` opens a tty, or nothing -/
theorem wp_openTty (hE : E.Le posix) (hG : Lax G) {i : Fin maxp} {f : Option Nat → Posix α}
    (hnone : wp E G (f none) Q s)
    (hsome : ∀ t, s.Lowest t → wp E G (f (some t)) Q
      { s.install t (.tty i.val) with tainted := s.tainted || s.stale t }) :
    wp E G (openTty conf i >>= f) Q s := by
  unfold openTty
  rw [Prog.bind_assoc]
  refine wp_lax hE hG nofun nofun ?_
  intro r s' ha
  cases r with
  | none =>
    obtain rfl : s' = s := ha
    exact hnone
  | some t =>
    obtain ⟨hl, rfl⟩ : s.Lowest t ∧
      s' = { s.install t (.tty i.val) with tainted := s.tainted || s.stale t } := ha
    show wp E G ((setSpeed conf i t >>= fun _ => pure (some t)) >>= f) Q _
    rw [Prog.bind_assoc]
    exact wp_setSpeed hE hG (hsome t hl)

/-- before the client of a port is looked at -/
structure Safe (E : Env Op Res Sys) (p : Port) (s : Sys) : Prop where
  reported : ∀ fd, p.clientFd = some fd ∨ p.ttyFd = some fd → s.ready fd = true →
    Known s fd ∨ s.tainted = true
  /-- if only what was reported is read, the visit cannot end with such a session -/
  trapped : OnlyReported E → s.tainted = true → ∃ c t, p.clientFd = some c ∧ p.ttyFd = some t ∧
    ¬Known s c ∧ ¬Known s t ∧ (s.ready c = true ∨ s.ready t = true)

/-- before its tty is -/
structure SafeTty (E : Env Op Res Sys) (p : Port) (s : Sys) : Prop where
  reported : ∀ t, p.ttyFd = some t → s.ready t = true → Known s t ∨ s.tainted = true
  trapped : OnlyReported E → s.tainted = true → ∃ t, p.ttyFd = some t ∧
    ¬Known s t ∧ s.ready t = true

theorem Safe.quiet (h : Safe E p s) (hq : Quiet p s s') : Safe E p s' := by
  refine ⟨fun fd hfd hr => ?_, fun he ht => ?_⟩
  · rw [hq.known_iff, hq.tainted]
    rw [hq.ready] at hr
    exact h.reported fd hfd hr
  · rw [hq.tainted] at ht
    obtain ⟨c, t, hc⟩ := h.trapped he ht
    rw [← hq.known_iff, ← hq.known_iff, ← hq.ready] at hc
    exact ⟨c, t, hc⟩

/-- a file that has just been opened has not been reported -/
theorem not_known_install (hwf : s.Wf) {kind : FileKind} : ¬Known (s.install fd kind) fd := by
  rintro ⟨f, hf, hr⟩
  simp only [Sys.install, Function.update_self, Option.some.injEq] at hf
  have := hwf.seen fd f hr
  rw [← hf] at this
  exact Nat.lt_irrefl _ this

theorem fds_of_none (hc : p.clientFd = none) (ht : p.ttyFd = none) : p.fds = p.listenFd.toList := by
  simp [Port.fds, hc, ht]

theorem tty_none (h : p.clientFd.isSome = p.ttyFd.isSome) (hc : p.clientFd = none) :
    p.ttyFd = none := by
  rw [hc] at h
  cases ht : p.ttyFd with
  | none => rfl
  | some t =>
    rw [ht] at h
    cases h

/-- a connection has been accepted behind the number `c` -/
structure Accepted (K : Nat → Prop) (p : Port) (c : Nat) (s0 s : Sys) : Prop where
  holds : Holds K (c :: p.fds) s0 s
  new : ¬Known s c
  file : ∃ f, s.files c = some f ∧ s.got f.id = []
  last : s.accepted = some c

theorem Holds.accept (h : Holds K p.fds s0 s) (hl : s.files c = none) :
    Accepted K p c s0 { s.install c .conn with accepted := some c } :=
  ⟨(h.install hl .conn).mark (some c) s.tainted, not_known_install h.wf,
    ⟨_, Function.update_self .., (h.wf.logs s.fresh (Nat.le_refl _)).1⟩, rfl⟩

/-- the numbers of the session that is made of it -/
theorem fds_session (hc : p.clientFd = none) (ht : p.ttyFd = none)
    (hn : (t :: c :: p.fds).Nodup) :
    ({ p with clientFd := some c, ttyFd := some t } : Port).fds ⊆ t :: c :: p.fds ∧
      ({ p with clientFd := some c, ttyFd := some t } : Port).fds.Nodup := by
  have e : ({ p with clientFd := some c, ttyFd := some t } : Port).fds
      = p.listenFd.toList ++ [c] ++ [t] := rfl
  rw [fds_of_none hc ht] at hn ⊢
  rw [e]
  have hp : (p.listenFd.toList ++ [c] ++ [t]).Perm (t :: c :: p.listenFd.toList) :=
    (List.perm_append_singleton t _).trans ((List.perm_append_singleton c _).cons t)
  exact ⟨hp.subset, hp.nodup_iff.mpr hn⟩

section
variable {i : Fin maxp} (h : Accepted K p c s0 s) (hl : s.files t = none) (hc : p.clientFd = none)
  (ht : p.ttyFd = none)
include h hl hc ht

theorem Accepted.owned : Owned conf K { p with clientFd := some c, ttyFd := some t } s0
    { s.install t (.tty i.val) with tainted := s.tainted || s.stale t } := by
  have hi := (h.holds.install hl (.tty i.val)).mark s.accepted (s.tainted || s.stale t)
  obtain ⟨hsub, hnd⟩ := fds_session hc ht hi.nodup
  refine ⟨hi.sub hsub hnd, rfl, ?_⟩
  rintro c' t' fc ft hc' ht' hfc hft
  cases hc'
  cases ht'
  have hct : c ≠ t := by
    rintro rfl
    exact (h.holds.held c (List.mem_cons_self ..)).1 hl
  obtain ⟨f, hf, hg⟩ := h.file
  simp only [Sys.install, Function.update_of_ne hct, hf, Option.some.injEq] at hfc
  simp only [Sys.install, Function.update_self, Option.some.injEq] at hft
  subst hfc hft
  show offered (s.put s.fresh) = (s.got f.id).flatMap _
  rw [hg, (h.holds.wf.logs s.fresh (Nat.le_refl _)).2]
  rfl

omit hc ht in
theorem Accepted.safe (hclean : OnlyReported E → s.tainted = false) :
    Safe E { p with clientFd := some c, ttyFd := some t }
      { s.install t (.tty i.val) with tainted := s.tainted || s.stale t } := by
  have hct : c ≠ t := by
    rintro rfl
    exact (h.holds.held c (List.mem_cons_self ..)).1 hl
  have hst : s.stale t = (s.ready t || s.ready c) := by
    unfold Sys.stale
    rw [h.last]
  refine ⟨fun fd hfd hr => .inr ?_, fun he htr => ⟨c, t, rfl, rfl, ?_, ?_, ?_⟩⟩
  · show (s.tainted || s.stale t) = true
    rw [hst]
    rcases hfd with hfd | hfd
    · cases hfd
      rw [show s.ready c = true from hr, Bool.or_true, Bool.or_true]
    · cases hfd
      rw [show s.ready t = true from hr, Bool.true_or, Bool.or_true]
  · rintro ⟨f, hf, hk⟩
    simp only [Sys.install, Function.update_of_ne hct] at hf
    exact h.new ⟨f, hf, hk⟩
  · exact not_known_install h.holds.wf
  · replace htr : (s.tainted || s.stale t) = true := htr
    rw [hclean he, Bool.false_or, hst, Bool.or_eq_true] at htr
    exact htr.symm

end

theorem uses_sayHello : (sayHello conf c).Uses (Op.Talk c) := by
  unfold sayHello
  exact Prog.Uses.ite (Prog.Uses.bind ((Prog.uses_call _).mpr rfl) fun _ => trivial) trivial

/-- an accepted connection becomes a session, or is closed again -/
theorem wp_greet (hE : E.Le posix) {i : Fin maxp} (h : Accepted K p c s0 s)
    (hc : p.clientFd = none) (ht : p.ttyFd = none) (hclean : OnlyReported E → s.tainted = false) :
    wp E Cautious (greet conf i p c) (fun p' s' => Owned conf K p' s0 s' ∧ Safe E p' s') s := by
  unfold greet
  refine wp_call hE (by nofun) ?_
  rintro _ s' rfl
  refine wp_openTty hE lax_cautious ?_ ?_
  · refine wp_writeTo hE lax_cautious ?_
    intro r n hn
    refine wp_closeOf hE ?_
    have h2 : Holds K (c :: p.fds) s0 (Sys.logPut _ c (cannotOpen i) n) :=
      h.holds.logPut (List.mem_cons_self ..) hn
    have e : ({ p with clientFd := none, ttyFd := none } : Port).fds = p.fds := by
      rw [fds_of_none hc ht]
      exact fds_of_none rfl rfl
    refine ⟨⟨by rw [e]; exact h2.close, .none rfl rfl⟩, fun fd hfd _ => ?_, fun he htr => ?_⟩
    · rcases hfd with hfd | hfd <;> cases hfd
    · replace htr : (s'.logPut c (cannotOpen i) n).tainted = true := htr
      rw [calm_logPut.tainted, hclean he] at htr
      cases htr
  · intro t hl
    have ho : Owned conf K { p with clientFd := some c, ttyFd := some t } s0 _ :=
      h.owned (i := i) hl.1 hc ht
    have hs := h.safe (E := E) (i := i) hl.1 hclean
    rw [wp_bind]
    refine wp_post (wp_talk hE uses_sayHello (mem_fds_client rfl)
      (client_ne_tty ho.holds.nodup rfl) ho.holds) ?_
    rintro _ s2 ⟨h2, hq⟩
    exact ⟨⟨h2, ho.session.quiet hq⟩, hs.quiet hq⟩

theorem wp_newClient (hE : E.Le posix) {i : Fin maxp} {r : FdSet} (h : Owned conf K p s0 s)
    (hr : ∀ fd, p.clientFd = some fd ∨ p.ttyFd = some fd → s.ready fd = true → Known s fd)
    (hclean : OnlyReported E → s.tainted = false) :
    wp E Cautious (newClient conf i r p) (fun p' s' => Owned conf K p' s0 s' ∧ Safe E p' s') s := by
  have hsame : Owned conf K p s0 s ∧ Safe E p s := by
    refine ⟨h, fun fd hfd hrd => .inl (hr fd hfd hrd), fun he htr => ?_⟩
    rw [hclean he] at htr
    cases htr
  unfold newClient
  split
  · rename_i l hc
    split
    · refine wp_call hE (by nofun) ?_
      intro res s' ha
      cases res with
      | none =>
        obtain rfl : s' = s := ha
        exact hsame
      | some c =>
        obtain ⟨hl, rfl⟩ : s.Lowest c ∧ s' = { s.install c .conn with accepted := some c } := ha
        exact wp_greet hE (h.holds.accept hl.1) hc (tty_none h.session.paired hc) hclean
    · exact hsame
  · exact hsame

/-- the client is gone: both numbers are free again -/
theorem wp_hangup (hE : E.Le posix) (h : Holds K p.fds s0 s) (hc : p.clientFd = some c)
    (hclean : OnlyReported E → s.tainted = false) :
    wp E Cautious (hangup p c) (fun p' s' => Owned conf K p' s0 s' ∧ SafeTty E p' s') s := by
  have hend : ∀ s', Holds K p.listenFd.toList s0 s' → s'.tainted = s.tainted →
      Owned conf K { p with clientFd := none, ttyFd := none } s0 s' ∧
        SafeTty E { p with clientFd := none, ttyFd := none } s' := by
    intro s' h' ht
    have e : ({ p with clientFd := none, ttyFd := none } : Port).fds = p.listenFd.toList :=
      fds_of_none rfl rfl
    refine ⟨⟨by rw [e]; exact h', .none rfl rfl⟩, nofun, fun he htr => ?_⟩
    rw [ht, hclean he] at htr
    cases htr
  have h1 : Holds K (c :: (p.ttyFd.toList ++ p.listenFd.toList)) s0 s := by
    have hp : p.fds.Perm (c :: (p.ttyFd.toList ++ p.listenFd.toList)) := by
      unfold Port.fds
      rw [hc, List.append_assoc]
      exact List.perm_append_comm
    exact h.sub hp.symm.subset (hp.nodup_iff.mp h.nodup)
  have h2 := h1.close
  unfold hangup closeTty
  refine wp_closeOf hE ?_
  cases ht : p.ttyFd with
  | none =>
    rw [ht] at h2
    exact hend _ h2 rfl
  | some t =>
    rw [ht] at h2
    refine wp_closeOf hE ?_
    exact hend _ h2.close rfl

theorem uses_runActs (acts : List Act) : (runActs c t acts).Uses (Op.Talk c) := by
  induction acts with
  | nil => trivial
  | cons a acts ih =>
    cases a with
    | reply bytes => exact Prog.Uses.bind ((Prog.uses_call _).mpr rfl) fun _ => ih
    | sendBreak => exact Prog.Uses.bind ((Prog.uses_call _).mpr trivial) fun _ => ih

theorem uses_writeAll (bufs : List (List UInt8)) : (writeAll c bufs).Uses (Op.Talk c) := by
  induction bufs with
  | nil => trivial
  | cons b bufs ih => exact Prog.Uses.bind ((Prog.uses_call _).mpr rfl) fun _ => ih

/-- what was read from the client is given to the tty -/
theorem wp_relay (hE : E.Le posix) (hc : p.clientFd = some c) (ht : p.ttyFd = some t)
    (h : Owned conf K p s0 s) : wp E Cautious (relay conf c t bs)
      (fun _ s' => Owned conf K p s0 s' ∧ Calm s s') (s.logGot c bs) := by
  have hcm := mem_fds_client hc
  have htm := mem_fds_tty ht
  have hct := client_ne_tty h.holds.nodup hc
  obtain ⟨fc, hfc⟩ := Option.ne_none_iff_exists'.mp (h.holds.held c hcm).1
  obtain ⟨ft, hft⟩ := Option.ne_none_iff_exists'.mp (h.holds.held t htm).1
  have h1 : Holds K p.fds s0 (s.logGot c bs) := h.holds.logGot hcm
  have hwant : (s.logGot c bs).wanted conf fc.id = s.wanted conf fc.id ++ (conf.toTty bs).data := by
    unfold Sys.wanted
    rw [Sys.logGot_eq hfc]
    simp only [Function.update_self, List.flatMap_append, List.flatMap_singleton]
  have hdue : (s.logGot c bs).due ft.id = s.wanted conf fc.id := by
    rw [← h.session.carried c t fc ft hc ht hfc hft, Sys.logGot_eq hfc]
    rfl
  -- a session again, once the tty has been given the rest
  have hend : ∀ s', Holds K p.fds s0 s' → s'.files = s.files →
      s'.due ft.id = s'.wanted conf fc.id → Owned conf K p s0 s' := by
    intro s' h' hf he
    refine ⟨h', h.session.paired, fun c' t' fc' ft' hc' ht' hfc' hft' => ?_⟩
    rw [hc] at hc'
    rw [ht] at ht'
    cases hc'
    cases ht'
    rw [hf, hfc] at hfc'
    rw [hf, hft] at hft'
    cases hfc'
    cases hft'
    exact he
  unfold relay
  rw [wp_bind]
  refine wp_post (wp_talk hE (uses_runActs _) hcm hct h1) ?_
  rintro _ s2 ⟨h2, hq⟩
  have hf2 : s2.files = s.files := hq.files.trans calm_logGot.files
  have hwant2 : s2.wanted conf fc.id = s.wanted conf fc.id ++ (conf.toTty bs).data := by
    rw [← hwant]
    unfold Sys.wanted
    rw [hq.got c fc hc (by rw [calm_logGot.files, hfc])]
  have hdue2 : s2.due ft.id = s.wanted conf fc.id := by
    rw [← hdue]
    unfold Sys.due
    rw [hq.put t ft ht (by rw [calm_logGot.files, hft])]
  split
  · refine wp_writeTo hE lax_cautious ?_
    intro r n hn
    refine ⟨hend _ (h2.logPut htm hn) (calm_logPut.files.trans hf2) ?_,
      (calm_logGot.trans hq.toCalm).trans calm_logPut⟩
    have hft2 : s2.files t = some ft := by rw [hf2, hft]
    rw [Sys.logPut_eq hft2]
    show offered (Function.update s2.put ft.id _ ft.id) = s2.wanted conf fc.id
    rw [Function.update_self, offered_concat, hwant2, ← hdue2]
    rfl
  · rename_i hnil
    refine ⟨hend _ h2 hf2 ?_, calm_logGot.trans hq.toCalm⟩
    rw [hdue2, hwant2, not_not.mp hnil, List.append_nil]

theorem wp_netToSerial (hE : E.Le posix) {r : FdSet} (hr : r = s.ready)
    (h : Owned conf K p s0 s) (hs : Safe E p s) :
    wp E Cautious (netToSerial conf r p)
      (fun p' s' => Owned conf K p' s0 s' ∧ SafeTty E p' s') s := by
  unfold netToSerial
  cases hc : p.clientFd with
  | none =>
    have ht := tty_none h.session.paired hc
    refine ⟨h, fun t ht' => ?_, fun he htr => ?_⟩
    · rw [ht] at ht'
      cases ht'
    · obtain ⟨c, t, hc', _⟩ := hs.trapped he htr
      rw [hc] at hc'
      cases hc'
  | some c =>
    show wp E Cautious (if r c = true then _ else _) _ s
    split
    · rename_i hrc
      rw [hr] at hrc
      refine wp_read hE (hs.reported c (.inl hc) hrc) ?_
      intro res s1 hknown ha
      have hclean : OnlyReported E → s.tainted = false := by
        intro he
        by_contra hn
        obtain ⟨c', t, hc', _, hk, _⟩ := hs.trapped he (Bool.eq_true_of_not_eq_false hn)
        rw [hc] at hc'
        cases hc'
        exact hk (hknown he)
      cases res with
      | none =>
        obtain rfl : s1 = s := ha
        exact wp_hangup hE h.holds hc hclean
      | some bs =>
        obtain ⟨_, rfl⟩ : bs.length ≤ bufSize ∧ s1 = s.logGot c bs := ha
        have h1 : Holds K p.fds s0 (s.logGot c bs) := h.holds.logGot (mem_fds_client hc)
        cases bs with
        | nil =>
          refine wp_hangup hE h1 hc fun he => ?_
          rw [calm_logGot.tainted, hclean he]
        | cons b bs =>
          obtain ⟨t, ht⟩ : ∃ t, p.ttyFd = some t := by
            have hp := h.session.paired
            rw [hc] at hp
            exact Option.isSome_iff_exists.mp hp.symm
          show wp E Cautious (passOn conf p c (b :: bs) >>= fun _ => pure p) _ _
          unfold passOn
          rw [wp_bind, ht]
          refine wp_post (wp_relay hE hc ht h) ?_
          rintro _ s2 ⟨h2, hcalm⟩
          refine ⟨h2, fun t' ht' hrt => ?_, fun he htr => ?_⟩
          · rw [hcalm.known_iff, hcalm.tainted]
            rw [hcalm.ready] at hrt
            exact hs.reported t' (.inr ht') hrt
          · rw [hcalm.tainted, hclean he] at htr
            cases htr
    · rename_i hrc
      refine ⟨h, fun t ht => hs.reported t (.inr ht), fun he htr => ?_⟩
      obtain ⟨c', t, hc', ht, _, hk, hready⟩ := hs.trapped he htr
      rw [hc] at hc'
      cases hc'
      rw [hr] at hrc
      exact ⟨t, ht, hk, hready.resolve_left hrc⟩

theorem wp_serialToNet (hE : E.Le posix) {r : FdSet} (hr : r = s.ready)
    (h : Owned conf K p s0 s) (hs : SafeTty E p s) :
    wp E Cautious (serialToNet conf r p)
      (fun _ s' => Owned conf K p s0 s' ∧ (OnlyReported E → s'.tainted = false)) s := by
  have hstay : (∀ t, p.ttyFd = some t → s.ready t = true → OnlyReported E → Known s t) →
      (∀ t, p.ttyFd = some t → s.ready t = true) → OnlyReported E → s.tainted = false := by
    intro hk hall he
    by_contra hn
    obtain ⟨t, ht, hnk, hrt⟩ := hs.trapped he (Bool.eq_true_of_not_eq_false hn)
    exact hnk (hk t ht hrt he)
  unfold serialToNet
  cases ht : p.ttyFd with
  | none =>
    refine ⟨h, hstay (fun t ht' => ?_) fun t ht' => ?_⟩
    all_goals
      rw [ht] at ht'
      cases ht'
  | some t =>
    show wp E Cautious (if r t = true then _ else _) _ s
    split
    · rename_i hrt
      rw [hr] at hrt
      refine wp_read hE (hs.reported t ht hrt) ?_
      intro res s1 hknown ha
      have hclean : OnlyReported E → s.tainted = false := by
        refine hstay (fun t' ht' _ he => ?_) fun t' ht' => ?_
        all_goals
          rw [ht] at ht'
          cases ht'
        · exact hknown he
        · exact hrt
      have hct : p.clientFd ≠ some t := fun hc => client_ne_tty h.holds.nodup hc ht
      have h1 : Owned conf K p s0 s1 ∧ s1.tainted = s.tainted := by
        cases res with
        | none =>
          obtain rfl : s1 = s := ha
          exact ⟨h, rfl⟩
        | some bs =>
          obtain ⟨_, rfl⟩ : bs.length ≤ bufSize ∧ s1 = s.logGot t bs := ha
          exact ⟨⟨h.holds.logGot (mem_fds_tty ht), h.session.quiet (.logGot h.holds.wf hct)⟩,
            calm_logGot.tainted⟩
      have hdone : Owned conf K p s0 s1 ∧ (OnlyReported E → s1.tainted = false) :=
        ⟨h1.1, fun he => h1.2.trans (hclean he)⟩
      -- whatever is said to the client, it is not said to the tty
      have htalk : ∀ {x : Posix Unit} {c : Nat}, p.clientFd = some c → x.Uses (Op.Talk c) →
          wp E Cautious x
            (fun _ s' => Owned conf K p s0 s' ∧ (OnlyReported E → s'.tainted = false)) s1 := by
        intro x c hc hu
        refine wp_post (wp_talk hE hu (mem_fds_client hc) (client_ne_tty h.holds.nodup hc)
          h1.1.holds) ?_
        rintro _ s2 ⟨h2, hq⟩
        exact ⟨⟨h2, h1.1.session.quiet hq⟩, fun he => hq.tainted.trans (hdone.2 he)⟩
      split
      · rename_i b bs c hc
        refine htalk hc (Prog.Uses.ite ?_ ?_)
        · exact Prog.Uses.bind ((Prog.uses_call _).mpr rfl) fun _ => trivial
        · exact uses_writeAll _
      · exact hdone
    · rename_i hrt
      rw [hr] at hrt
      refine ⟨h, fun he => ?_⟩
      by_contra hn
      obtain ⟨t', ht', _, hrt'⟩ := hs.trapped he (Bool.eq_true_of_not_eq_false hn)
      rw [ht] at ht'
      cases ht'
      exact hrt hrt'

/-- **The loop body**, for one port: `K` is what the others hold. -/
theorem wp_visit (hE : E.Le posix) {i : Fin maxp} {r : FdSet} (hr : r = s0.ready)
    (h : Owned conf K p s0 s)
    (hk : ∀ fd, p.clientFd = some fd ∨ p.ttyFd = some fd → s.ready fd = true → Known s fd)
    (hclean : OnlyReported E → s.tainted = false) :
    wp E Cautious (visit conf i r p)
      (fun p' s' => Owned conf K p' s0 s' ∧ (OnlyReported E → s'.tainted = false)) s := by
  unfold visit
  rw [wp_bind]
  refine wp_post (wp_newClient hE h hk hclean) ?_
  rintro p1 s1 ⟨h1, hs1⟩
  rw [wp_bind]
  refine wp_post (wp_netToSerial hE (hr.trans h1.holds.frame.ready.symm) h1 hs1) ?_
  rintro p2 s2 ⟨h2, hs2⟩
  rw [wp_bind]
  exact wp_post (wp_serialToNet hE (hr.trans h2.holds.frame.ready.symm) h2 hs2) fun _ _ h => h

end Nmconsole
