import Relicnos.Interact.Stream
import Relicnos.Nmconsole.Server

/-!
# Who holds which descriptor

* `Sys.Wf`     identities are used once, and a file that is not there has no history;
* `Holds`      the numbers `own` are open and distinct, and nobody else's numbers `K` are touched:
               they stand for the files they stood for, with the same history;
* `Session`    a port has a client exactly if it has a tty, and what was given to the tty is what
               came from the client;
* `Calm`, `Quiet`  steps that open and close nothing, and do not touch a session either.
-/

set_option linter.unusedVariables false

namespace Nmconsole
open Interact

/-! ## the table -/

namespace Sys

structure Wf (s : Sys) : Prop where
  ids : ∀ fd f, s.files fd = some f → f.id < s.fresh
  inj : ∀ fd fd' f f', s.files fd = some f → s.files fd' = some f' → f.id = f'.id → fd = fd'
  seen : ∀ fd f, s.readyFiles fd = some f → f.id < s.fresh
  logs : ∀ id, s.fresh ≤ id → s.got id = [] ∧ s.put id = []
  fits : ∀ id, Fits (s.put id)

variable {s : Sys} {fd n : Nat} {bs : List UInt8}

theorem logGot_eq {f : File} (h : s.files fd = some f) : s.logGot fd bs
    = { s with got := Function.update s.got f.id (s.got f.id ++ [bs]) } := by
  unfold logGot
  rw [h]

theorem logPut_eq {f : File} (h : s.files fd = some f) : s.logPut fd bs n
    = { s with put := Function.update s.put f.id (s.put f.id ++ [(bs, n)]) } := by
  unfold logPut
  rw [h]

theorem Wf.install (h : s.Wf) (fd : Nat) (kind : FileKind) : (s.install fd kind).Wf := by
  have hcase : ∀ x f, (s.install fd kind).files x = some f →
      (x = fd ∧ f.id = s.fresh) ∨ (x ≠ fd ∧ s.files x = some f) := by
    intro x f hx
    by_cases e : x = fd
    · subst e
      simp only [Sys.install, Function.update_self, Option.some.injEq] at hx
      exact .inl ⟨rfl, by rw [← hx]⟩
    · simp only [Sys.install, Function.update_of_ne e] at hx
      exact .inr ⟨e, hx⟩
  refine ⟨fun x f hx => ?_, fun x y f f' hx hy e => ?_, fun x f hx => ?_, fun id hid => ?_, h.fits⟩
  · show f.id < s.fresh + 1
    rcases hcase x f hx with ⟨_, hf⟩ | ⟨_, hf⟩
    · omega
    · exact Nat.lt_succ_of_lt (h.ids x f hf)
  · rcases hcase x f hx with ⟨rfl, hf⟩ | ⟨_, hf⟩
    · rcases hcase y f' hy with ⟨rfl, _⟩ | ⟨_, hf'⟩
      · rfl
      · have := h.ids y f' hf'
        omega
    · rcases hcase y f' hy with ⟨rfl, hf'⟩ | ⟨_, hf'⟩
      · have := h.ids x f hf
        omega
      · exact h.inj x y f f' hf hf' e
  · exact Nat.lt_succ_of_lt (h.seen x f hx)
  · exact h.logs id (Nat.le_of_succ_le hid)

theorem Wf.close (h : s.Wf) (fd : Nat) :
    ({ s with files := Function.update s.files fd none } : Sys).Wf := by
  have hcase : ∀ x f, Function.update s.files fd none x = some f → s.files x = some f := by
    intro x f hx
    by_cases e : x = fd
    · subst e
      rw [Function.update_self] at hx
      cases hx
    · rwa [Function.update_of_ne e] at hx
  exact ⟨fun x f hx => h.ids x f (hcase x f hx),
    fun x y f f' hx hy => h.inj x y f f' (hcase x f hx) (hcase y f' hy), h.seen, h.logs, h.fits⟩

theorem Wf.logGot (h : s.Wf) : (s.logGot fd bs).Wf := by
  cases hf : s.files fd with
  | none =>
    unfold Sys.logGot
    rw [hf]
    exact h
  | some f =>
    rw [logGot_eq hf]
    refine ⟨h.ids, h.inj, h.seen, fun id hid => ⟨?_, (h.logs id hid).2⟩, h.fits⟩
    have hne : id ≠ f.id := by
      have := h.ids fd f hf
      have hid' : s.fresh ≤ id := hid
      omega
    show Function.update s.got f.id _ id = []
    rw [Function.update_of_ne hne]
    exact (h.logs id hid).1

theorem Wf.logPut (h : s.Wf) (hn : n ≤ bs.length) : (s.logPut fd bs n).Wf := by
  cases hf : s.files fd with
  | none =>
    unfold Sys.logPut
    rw [hf]
    exact h
  | some f =>
    rw [logPut_eq hf]
    refine ⟨h.ids, h.inj, h.seen, fun id hid => ⟨(h.logs id hid).1, ?_⟩, fun id w hw => ?_⟩
    · have hne : id ≠ f.id := by
        have := h.ids fd f hf
        have hid' : s.fresh ≤ id := hid
        omega
      show Function.update s.put f.id _ id = []
      rw [Function.update_of_ne hne]
      exact (h.logs id hid).2
    · by_cases e : id = f.id
      · subst e
        simp only [Function.update_self, List.mem_append, List.mem_singleton] at hw
        rcases hw with hw | rfl
        · exact h.fits _ w hw
        · exact hn
      · simp only [Function.update_of_ne e] at hw
        exact h.fits id w hw

end Sys

/-! ## what is held, and what is left alone -/

/-- the numbers of `K` stand for the same files with the same history -/
structure Frame (K : Nat → Prop) (s0 s : Sys) : Prop where
  files : ∀ fd, K fd → s.files fd = s0.files fd
  got : ∀ fd f, K fd → s0.files fd = some f → s.got f.id = s0.got f.id
  put : ∀ fd f, K fd → s0.files fd = some f → s.put f.id = s0.put f.id
  ready : s.ready = s0.ready
  seen : s.readyFiles = s0.readyFiles

theorem Frame.refl (K : Nat → Prop) (s : Sys) : Frame K s s :=
  ⟨fun _ _ => rfl, fun _ _ _ _ => rfl, fun _ _ _ _ => rfl, rfl, rfl⟩

structure Holds (K : Nat → Prop) (own : List Nat) (s0 s : Sys) : Prop where
  frame : Frame K s0 s
  wf : s.Wf
  taken : ∀ fd, K fd → s0.files fd ≠ none
  held : ∀ fd ∈ own, s.files fd ≠ none ∧ ¬K fd
  nodup : own.Nodup

namespace Holds
variable {K : Nat → Prop} {own own' : List Nat} {s0 s : Sys} {fd n : Nat} {bs : List UInt8}
  {kind : FileKind}

theorem sub (h : Holds K own s0 s) (hs : own' ⊆ own) (hn : own'.Nodup) : Holds K own' s0 s :=
  ⟨h.frame, h.wf, h.taken, fun fd hfd => h.held fd (hs hfd), hn⟩

/-- a free number is nobody's -/
theorem not_kept (h : Holds K own s0 s) (hl : s.files fd = none) : ¬K fd := by
  intro hk
  exact h.taken fd hk ((h.frame.files fd hk).symm.trans hl)

theorem not_own (h : Holds K own s0 s) (hl : s.files fd = none) : fd ∉ own :=
  fun hm => (h.held fd hm).1 hl

theorem install (h : Holds K own s0 s) (hl : s.files fd = none) (kind : FileKind) :
    Holds K (fd :: own) s0 (s.install fd kind) := by
  have hne : ∀ x, K x → x ≠ fd := by
    rintro x hk rfl
    exact h.not_kept hl hk
  refine ⟨⟨fun x hk => ?_, h.frame.got, h.frame.put, h.frame.ready, h.frame.seen⟩,
    h.wf.install fd kind, h.taken, fun x hx => ?_, List.nodup_cons.mpr ⟨h.not_own hl, h.nodup⟩⟩
  · show Function.update s.files fd _ x = _
    rw [Function.update_of_ne (hne x hk)]
    exact h.frame.files x hk
  · show Function.update s.files fd _ x ≠ none ∧ ¬K x
    rcases List.mem_cons.mp hx with rfl | hx'
    · rw [Function.update_self]
      exact ⟨nofun, h.not_kept hl⟩
    · have e : x ≠ fd := by
        rintro rfl
        exact h.not_own hl hx'
      rw [Function.update_of_ne e]
      exact h.held x hx'

theorem close (h : Holds K (fd :: own) s0 s) :
    Holds K own s0 { s with files := Function.update s.files fd none } := by
  obtain ⟨hfd, hn⟩ := List.nodup_cons.mp h.nodup
  refine ⟨⟨fun x hk => ?_, h.frame.got, h.frame.put, h.frame.ready, h.frame.seen⟩,
    h.wf.close fd, h.taken, fun x hx => ?_, hn⟩
  · have e : x ≠ fd := by
      rintro rfl
      exact (h.held x (List.mem_cons_self ..)).2 hk
    show Function.update s.files fd none x = _
    rw [Function.update_of_ne e]
    exact h.frame.files x hk
  · have e : x ≠ fd := by
      rintro rfl
      exact hfd hx
    show Function.update s.files fd none x ≠ none ∧ ¬K x
    rw [Function.update_of_ne e]
    exact h.held x (List.mem_cons_of_mem _ hx)

/-- a file of `K` is not the file behind a number that is held -/
theorem id_ne {x : Nat} {f f' : File} (h : Holds K own s0 s) (hfd : fd ∈ own)
    (hf : s.files fd = some f) (hk : K x) (hf' : s0.files x = some f') : f'.id ≠ f.id := by
  intro e
  have hx := (h.frame.files x hk).trans hf'
  have := h.wf.inj x fd f' f hx hf e
  subst this
  exact (h.held x hfd).2 hk

theorem logGot (h : Holds K own s0 s) (hfd : fd ∈ own) :
    Holds K own s0 (s.logGot fd bs) := by
  obtain ⟨f, hf⟩ := Option.ne_none_iff_exists'.mp (h.held fd hfd).1
  have hwf : (s.logGot fd bs).Wf := h.wf.logGot
  rw [Sys.logGot_eq hf] at hwf ⊢
  refine ⟨⟨h.frame.files, fun x f' hk hx => ?_, h.frame.put, h.frame.ready, h.frame.seen⟩, hwf,
    h.taken, h.held, h.nodup⟩
  show Function.update s.got f.id _ f'.id = _
  rw [Function.update_of_ne (h.id_ne hfd hf hk hx)]
  exact h.frame.got x f' hk hx

theorem logPut (h : Holds K own s0 s) (hfd : fd ∈ own) (hn : n ≤ bs.length) :
    Holds K own s0 (s.logPut fd bs n) := by
  obtain ⟨f, hf⟩ := Option.ne_none_iff_exists'.mp (h.held fd hfd).1
  have hwf : (s.logPut fd bs n).Wf := h.wf.logPut hn
  rw [Sys.logPut_eq hf] at hwf ⊢
  refine ⟨⟨h.frame.files, h.frame.got, fun x f' hk hx => ?_, h.frame.ready, h.frame.seen⟩, hwf,
    h.taken, h.held, h.nodup⟩
  show Function.update s.put f.id _ f'.id = _
  rw [Function.update_of_ne (h.id_ne hfd hf hk hx)]
  exact h.frame.put x f' hk hx

/-- fields that nothing of this is about -/
theorem mark (h : Holds K own s0 s) (a : Option Nat) (b : Bool) :
    Holds K own s0 { s with accepted := a, tainted := b } :=
  ⟨⟨h.frame.files, h.frame.got, h.frame.put, h.frame.ready, h.frame.seen⟩,
    ⟨h.wf.ids, h.wf.inj, h.wf.seen, h.wf.logs, h.wf.fits⟩, h.taken, h.held, h.nodup⟩

end Holds

/-! ## sessions -/

def Port.fds (p : Port) : List Nat := p.listenFd.toList ++ p.clientFd.toList ++ p.ttyFd.toList

/-- the bytes that `write` was given for a file -/
def Sys.due (s : Sys) (id : Nat) : List UInt8 := offered (s.put id)

/-- the bytes that should go to the tty for what was read from a file -/
def Sys.wanted (conf : Conf) (s : Sys) (id : Nat) : List UInt8 :=
  (s.got id).flatMap fun bs => (conf.toTty bs).data

structure Session (conf : Conf) (p : Port) (s : Sys) : Prop where
  paired : p.clientFd.isSome = p.ttyFd.isSome
  carried : ∀ c t fc ft, p.clientFd = some c → p.ttyFd = some t → s.files c = some fc →
    s.files t = some ft → s.due ft.id = s.wanted conf fc.id

/-- from `s` to `s'` nothing was opened, closed or selected -/
structure Calm (s s' : Sys) : Prop where
  files : s'.files = s.files
  ready : s'.ready = s.ready
  seen : s'.readyFiles = s.readyFiles
  tainted : s'.tainted = s.tainted

/-- nor was anything read from the client or written to the tty of the port -/
structure Quiet (p : Port) (s s' : Sys) : Prop extends Calm s s' where
  got : ∀ c f, p.clientFd = some c → s.files c = some f → s'.got f.id = s.got f.id
  put : ∀ t f, p.ttyFd = some t → s.files t = some f → s'.put f.id = s.put f.id

variable {conf : Conf} {p : Port} {s s' s0 : Sys} {K : Nat → Prop} {own : List Nat}
  {c t fd n : Nat} {bs : List UInt8}

theorem Calm.trans {s'' : Sys} (h : Calm s s') (h' : Calm s' s'') : Calm s s'' :=
  ⟨h'.files.trans h.files, h'.ready.trans h.ready, h'.seen.trans h.seen,
    h'.tainted.trans h.tainted⟩

theorem calm_logGot : Calm s (s.logGot fd bs) := by
  unfold Sys.logGot
  split <;> exact ⟨rfl, rfl, rfl, rfl⟩

theorem calm_logPut : Calm s (s.logPut fd bs n) := by
  unfold Sys.logPut
  split <;> exact ⟨rfl, rfl, rfl, rfl⟩

theorem Session.quiet (h : Session conf p s) (hq : Quiet p s s') : Session conf p s' := by
  refine ⟨h.paired, fun c t fc ft hc ht hfc hft => ?_⟩
  rw [hq.files] at hfc hft
  unfold Sys.due Sys.wanted
  rw [hq.put t ft ht hft, hq.got c fc hc hfc]
  exact h.carried c t fc ft hc ht hfc hft

/-- a port without a client has no session -/
theorem Session.none (hc : p.clientFd = none) (ht : p.ttyFd = none) : Session conf p s :=
  ⟨by rw [hc, ht], fun c t fc ft h => by rw [hc] at h; cases h⟩

theorem Quiet.refl (p : Port) (s : Sys) : Quiet p s s :=
  ⟨⟨rfl, rfl, rfl, rfl⟩, fun _ _ _ _ => rfl, fun _ _ _ _ => rfl⟩

theorem Quiet.trans {s'' : Sys} (h : Quiet p s s') (h' : Quiet p s' s'') : Quiet p s s'' := by
  refine ⟨h.toCalm.trans h'.toCalm, fun c f hc hf => ?_, fun t f ht hf => ?_⟩
  · exact (h'.got c f hc (by rw [h.files]; exact hf)).trans (h.got c f hc hf)
  · exact (h'.put t f ht (by rw [h.files]; exact hf)).trans (h.put t f ht hf)

theorem Quiet.logPut (hwf : s.Wf) (hfd : p.ttyFd ≠ some fd) : Quiet p s (s.logPut fd bs n) := by
  cases hf : s.files fd with
  | none =>
    unfold Sys.logPut
    rw [hf]
    exact .refl p s
  | some f =>
    rw [Sys.logPut_eq hf]
    refine ⟨⟨rfl, rfl, rfl, rfl⟩, fun _ _ _ _ => rfl, fun t f' ht hf' => ?_⟩
    have hne : f'.id ≠ f.id := by
      intro e
      rw [hwf.inj t fd f' f hf' hf e] at ht
      exact hfd ht
    exact Function.update_of_ne hne ..

theorem Quiet.logGot (hwf : s.Wf) (hfd : p.clientFd ≠ some fd) : Quiet p s (s.logGot fd bs) := by
  cases hf : s.files fd with
  | none =>
    unfold Sys.logGot
    rw [hf]
    exact .refl p s
  | some f =>
    rw [Sys.logGot_eq hf]
    refine ⟨⟨rfl, rfl, rfl, rfl⟩, fun c f' hc hf' => ?_, fun _ _ _ _ => rfl⟩
    have hne : f'.id ≠ f.id := by
      intro e
      rw [hwf.inj c fd f' f hf' hf e] at hc
      exact hfd hc
    exact Function.update_of_ne hne ..

/-- what is true of a port between two parts of the loop body -/
structure Owned (conf : Conf) (K : Nat → Prop) (p : Port) (s0 s : Sys) : Prop where
  holds : Holds K p.fds s0 s
  session : Session conf p s

theorem mem_fds_client (h : p.clientFd = some c) : c ∈ p.fds := by
  simp [Port.fds, h]

theorem mem_fds_tty (h : p.ttyFd = some t) : t ∈ p.fds := by
  simp [Port.fds, h]

theorem client_ne_tty (hn : p.fds.Nodup) (hc : p.clientFd = some c) : p.ttyFd ≠ some c := by
  intro ht
  unfold Port.fds at hn
  rw [hc, ht] at hn
  have := List.disjoint_of_nodup_append hn
  exact this (List.mem_append_right _ (List.mem_singleton.mpr rfl)) (List.mem_singleton.mpr rfl)

end Nmconsole
