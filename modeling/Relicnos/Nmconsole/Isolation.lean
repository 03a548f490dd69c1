import Relicnos.Nmconsole.Pairing
import Relicnos.Nmconsole.Script

/-!
# Sessions are kept apart

A visit of a port changes nothing but its own session, and what it adds to the books are pairings
of this port.

* `Tidy`           only an open number is closed;
* `Live`           the ends of a port stand for the files of one of its pairings;
* `Moved`          what a visit does: the books are kept, and what is open elsewhere stays;
* `closed_once`    in a run that is tidy no file is closed twice;
* `sessions_kept_apart`  at the head of the loop nothing has leaked and nothing was mixed up.
-/

set_option linter.unusedVariables false

namespace Nmconsole
open Interact

variable {conf : Conf} {p p' : Port} {s s' s0 s1 : Sys} {e : Pairing} {c t fd n : Nat}
  {bs : List UInt8} {fc ft : File} {L L' : List Pairing} {i : Fin maxp} {α : Type}
  {Q : α → Sys → Prop}

/-- only an open number is closed -/
def Tidy (e : Event Op Res Sys) : Prop := ∀ fd, e.op = .close fd → e.pre.files fd ≠ none

/-! ## calls -/

theorem lax_tidy : Lax Tidy := fun _ _ hc fd h => absurd h (hc fd)

theorem wp_tidy {o : Op} {f : Res o → Posix α} (ho : ∀ fd, o = .close fd → s.files fd ≠ none)
    (h : ∀ r s', s.access o r s' → wp posix Tidy (f r) Q s') :
    wp posix Tidy (issue o >>= f) Q s := by
  intro s1 hr r s2 ha
  obtain rfl : s1 = s := hr
  exact ⟨ho, h r s2 ha⟩

theorem wp_shut {f : Unit → Posix α} (ho : s.files fd ≠ none)
    (h : wp posix Tidy (f ()) Q { s with files := Function.update s.files fd none }) :
    wp posix Tidy (close fd >>= f) Q s := by
  refine wp_tidy (fun x hx => ?_) fun _ s' ha => ?_
  · cases hx
    exact ho
  · obtain rfl : s' = { s with files := Function.update s.files fd none } := ha
    exact h

theorem wp_say {f : Option Nat → Posix α}
    (h : ∀ r n, wp posix Tidy (f r) Q (s.logPut fd bs n)) :
    wp posix Tidy (write fd bs >>= f) Q s :=
  wp_writeTo posix.le_refl lax_tidy fun r n _ => h r n

/-- a call that changes nothing -/
theorem wp_idle {o : Op} {f : Res o → Posix α} (ho : ∀ fd, o ≠ .close fd)
    (hs : ∀ r s', s.access o r s' → s' = s) (h : ∀ r, wp posix Tidy (f r) Q s) :
    wp posix Tidy (issue o >>= f) Q s := by
  refine wp_tidy (fun fd he => absurd he (ho fd)) fun r s' ha => ?_
  rw [hs r s' ha]
  exact h r

/-! ## what is said in a session -/

section
variable (hne : e.client ≠ e.tty) (hc : s.files c = some fc) (hid : fc.id = e.client)
include hne hc hid

theorem wp_runActs_talked (acts : List Act) : wp posix Tidy (runActs c t acts)
    (fun _ s' => Talked e [] [] (acts.filterMap Act.bytes) [] s s') s := by
  induction acts generalizing s with
  | nil => exact .refl e s
  | cons a acts ih =>
    cases a with
    | reply bytes =>
      show wp posix Tidy (write c bytes >>= fun _ => runActs c t acts) _ s
      refine wp_say fun r n => ?_
      have h1 : Talked e [] [] [bytes] [] s (s.logPut c bytes n) := talked_put_client hne hc hid
      refine wp_post (ih (by rw [h1.files]; exact hc)) fun _ s2 h2 => ?_
      exact h1.trans h2
    | sendBreak => exact wp_idle nofun (fun _ _ ha => ha) fun _ => ih hc

theorem wp_writeAll_talked (bufs : List (List UInt8)) : wp posix Tidy (writeAll c bufs)
    (fun _ s' => Talked e [] [] bufs [] s s') s := by
  induction bufs generalizing s with
  | nil => exact .refl e s
  | cons b bufs ih =>
    show wp posix Tidy (write c b >>= fun _ => writeAll c bufs) _ s
    refine wp_say fun r n => ?_
    have h1 : Talked e [] [] [b] [] s (s.logPut c b n) := talked_put_client hne hc hid
    refine wp_post (ih (by rw [h1.files]; exact hc)) fun _ s2 h2 => ?_
    exact h1.trans h2

theorem wp_sayHello_talked : wp posix Tidy (sayHello conf c)
    (fun _ s' => Talked e [] [] conf.greeting [] s s') s := by
  unfold sayHello Conf.greeting
  cases conf.rawMode with
  | true => exact .refl e s
  | false => exact wp_say fun r n => talked_put_client hne hc hid

theorem wp_relay_talked (ht : s.files t = some ft) (htid : ft.id = e.tty) :
    wp posix Tidy (relay conf c t bs) (fun _ s' => Talked e [bs] []
      (conf.toClient (.sent bs)) (conf.toTty bs).data s s') (s.logGot c bs) := by
  have h1 : Talked e [bs] [] [] [] s (s.logGot c bs) := talked_got_client hne hc hid
  unfold relay
  rw [wp_bind]
  refine wp_post (wp_runActs_talked hne (by rw [h1.files]; exact hc) hid _) fun _ s2 h2 => ?_
  have h12 := h1.trans h2
  split
  · refine wp_say fun r n => ?_
    have h3 := h12.trans (show Talked e [] [] [] (conf.toTty bs).data _ _ from
      talked_put_tty (n := n) hne (by rw [h12.files]; exact ht) htid)
    simp only [List.append_nil, List.nil_append] at h3
    exact h3
  · rename_i hnil
    rw [not_not.mp hnil]
    exact h12

end

/-! ## the ends of a port -/

def Port.ends (p : Port) : List Nat := p.clientFd.toList ++ p.ttyFd.toList

structure Live (L : List Pairing) (i : Fin maxp) (p : Port) (s : Sys) : Prop where
  listen : ∀ l, p.listenFd = some l → ∃ f, s.files l = some f ∧ f.kind = .sock
  session : ∀ c, p.clientFd = some c → ∃ t fc ft, p.ttyFd = some t ∧ s.files c = some fc ∧
    s.files t = some ft ∧ fc.kind = .conn ∧ ft.kind = .tty i.val ∧ ⟨i, fc.id, ft.id⟩ ∈ L
  closed : p.clientFd = none → p.ttyFd = none

/-- what was done for one port -/
structure Moved (conf : Conf) (s0 : Sys) (L : List Pairing) (i : Fin maxp) (p : Port) (s : Sys)
    (L' : List Pairing) (p' : Port) (s' : Sys) : Prop where
  grown : L ⊆ L'
  books : Books conf s0 L' s'
  live : Live L' i p' s'
  listen : p'.listenFd = p.listenFd
  ready : s'.ready = s.ready
  /-- what is open and no end of the port -/
  elsewhere : ∀ fd f, s'.files fd = some f ∧ fd ∉ p'.ends ↔ s.files fd = some f ∧ fd ∉ p.ends

theorem Moved.trans {p1 : Port} {L1 : List Pairing} (h : Moved conf s0 L i p s L1 p1 s1)
    (h' : Moved conf s0 L1 i p1 s1 L' p' s') : Moved conf s0 L i p s L' p' s' :=
  ⟨List.Subset.trans h.grown h'.grown, h'.books, h'.live, h'.listen.trans h.listen,
    h'.ready.trans h.ready,
    fun fd f => (h'.elsewhere fd f).trans (h.elsewhere fd f)⟩

theorem Live.same (h : Live L i p s) (hf : s'.files = s.files) : Live L i p s' := by
  refine ⟨fun l hl => ?_, fun c hc => ?_, h.closed⟩
  · rw [hf]
    exact h.listen l hl
  · rw [hf]
    exact h.session c hc

/-- the session went on -/
theorem Moved.talked (hb : Books conf s0 L s) (hl : Live L i p s)
    {gc gt pc : List (List UInt8)} {pt : List UInt8} (he : e ∈ L)
    (ht : Talked e gc gt pc pt s s') (hc : Carried conf s' e) :
    Moved conf s0 L i p s L p s' := by
  refine ⟨fun _ h => h, hb.talked he ht hc, hl.same ht.files, rfl, ht.ready, fun fd f => ?_⟩
  rw [ht.files]

/-! ## one visit -/

theorem ends_of_none (hc : p.clientFd = none) (ht : p.ttyFd = none) : p.ends = [] := by
  unfold Port.ends
  rw [hc, ht]
  rfl

/-- a new client is turned away: its number is free again -/
theorem Moved.refused (hb : Books conf s0 L s) (hl : Live L i p s) (hc : p.clientFd = none)
    (hfree : s.files c = none) (hg : s'.got = s.got)
    (hp : s'.put = Function.update s.put s.fresh [(cannotOpen i, n)])
    (hf : s'.fresh = s.fresh + 1) (hr : s'.ready = s.ready)
    (hs : s'.files = Function.update (Function.update s.files c (some ⟨s.fresh, .conn⟩)) c none) :
    Moved conf s0 L i p s L { p with clientFd := none, ttyFd := none } s' := by
  have hfiles : s'.files = s.files := by
    rw [hs, Function.update_idem, ← hfree, Function.update_eq_self]
  refine ⟨fun _ h => h, hb.refuse hg hp hf, ⟨fun l hl' => ?_, nofun, fun _ => rfl⟩, rfl, hr,
    fun fd f => ?_⟩
  · rw [hfiles]
    exact hl.listen l hl'
  · have he : ({ p with clientFd := none, ttyFd := none } : Port).ends = p.ends :=
      (ends_of_none rfl rfl).trans (ends_of_none hc (hl.closed hc)).symm
    rw [hfiles, he]

/-- a new client and the tty that was opened for it -/
theorem Moved.paired (hb : Books conf s0 L s) (hl : Live L i p s) (hc : p.clientFd = none)
    (hfree : s.files c = none) (hct : c ≠ t) (hfree' : s.files t = none)
    (hg : s1.got = s.got) (hp : s1.put = s.put) (hf : s1.fresh = s.fresh + 2)
    (hs : s1.files = Function.update (Function.update s.files c (some ⟨s.fresh, .conn⟩)) t
      (some ⟨s.fresh + 1, .tty i.val⟩))
    (hr : s1.ready = s.ready)
    (ht : Talked ⟨i, s.fresh, s.fresh + 1⟩ [] [] conf.greeting [] s1 s') :
    Moved conf s0 L i p s (⟨i, s.fresh, s.fresh + 1⟩ :: L)
      { p with clientFd := some c, ttyFd := some t } s' := by
  have hfiles := ht.files.trans hs
  have hfc : s'.files c = some ⟨s.fresh, .conn⟩ := by
    rw [hfiles, Function.update_of_ne hct, Function.update_self]
  have hft : s'.files t = some ⟨s.fresh + 1, .tty i.val⟩ := by
    rw [hfiles, Function.update_self]
  have hother : ∀ fd, fd ≠ c → fd ≠ t → s'.files fd = s.files fd := by
    intro fd hxc hxt
    rw [hfiles, Function.update_of_ne hxt, Function.update_of_ne hxc]
  refine ⟨fun _ h => List.mem_cons_of_mem _ h, hb.pair i hg hp hf ht,
    ⟨fun l hl' => ?_, fun c' hc' => ?_, nofun⟩, rfl, ht.ready.trans hr, fun fd f => ?_⟩
  · obtain ⟨f, hf', hk⟩ := hl.listen l hl'
    refine ⟨f, ?_, hk⟩
    rw [hother l (fun h => ?_) fun h => ?_]
    · exact hf'
    · rw [h, hfree] at hf'
      cases hf'
    · rw [h, hfree'] at hf'
      cases hf'
  · cases hc'
    exact ⟨t, _, _, rfl, hfc, hft, rfl, rfl, List.mem_cons_self ..⟩
  · rw [ends_of_none hc (hl.closed hc)]
    show s'.files fd = some f ∧ fd ∉ [c, t] ↔ _
    constructor
    · intro h
      obtain ⟨hf', hm⟩ := h
      simp only [List.mem_cons, List.not_mem_nil, or_false, not_or] at hm
      rw [hother fd hm.1 hm.2] at hf'
      exact ⟨hf', List.not_mem_nil⟩
    · intro h
      obtain ⟨hf', _⟩ := h
      have hxc : fd ≠ c := fun h => by rw [h, hfree] at hf'; cases hf'
      have hxt : fd ≠ t := fun h => by rw [h, hfree'] at hf'; cases hf'
      rw [hother fd hxc hxt]
      exact ⟨hf', by simp [hxc, hxt]⟩

/-- what a visit may leave behind -/
def Moves (conf : Conf) (s0 : Sys) (L : List Pairing) (i : Fin maxp) (p : Port) (s : Sys)
    (p' : Port) (s' : Sys) : Prop := ∃ L', Moved conf s0 L i p s L' p' s'

theorem Moves.still (hb : Books conf s0 L s) (hl : Live L i p s) : Moves conf s0 L i p s p s :=
  ⟨L, fun _ h => h, hb, hl, rfl, rfl, fun _ _ => Iff.rfl⟩

/-- a connection that has been accepted behind the number `c` -/
theorem wp_greet_moves (hb : Books conf s0 L s) (hl : Live L i p s) (hc : p.clientFd = none)
    (hlow : s.Lowest c) : wp posix Tidy (greet conf i p c) (Moves conf s0 L i p s)
      { s.install c .conn with accepted := some c } := by
  unfold greet
  refine wp_idle nofun (fun _ _ ha => ha) fun _ => ?_
  refine wp_openTty posix.le_refl lax_tidy ?_ fun t hlow' => ?_
  · refine wp_say fun r n => ?_
    have hfc : (s.install c .conn).files c = some ⟨s.fresh, .conn⟩ := Function.update_self ..
    have hput : ({ s.install c .conn with accepted := some c } : Sys).logPut c (cannotOpen i) n
        = _ := Sys.logPut_eq hfc
    rw [hput]
    refine wp_shut ?_ ⟨L, .refused (n := n) hb hl hc hlow.1 rfl ?_ rfl rfl rfl⟩
    · show (s.install c .conn).files c ≠ none
      rw [hfc]
      nofun
    · show Function.update s.put s.fresh (s.put s.fresh ++ [(cannotOpen i, n)]) = _
      rw [(hb.unborn s.fresh (Nat.le_refl _)).2]
      rfl
  · have hfree : Function.update s.files c (some ⟨s.fresh, .conn⟩) t = none := hlow'.1
    have hct : c ≠ t := by
      intro h
      rw [← h, Function.update_self] at hfree
      cases hfree
    have hfree' : s.files t = none := by
      rw [Function.update_of_ne hct.symm] at hfree
      exact hfree
    generalize hs2 : ({ ({ s.install c .conn with accepted := some c } : Sys).install t
      (.tty i.val) with tainted := _ } : Sys) = s2
    have hfc : s2.files c = some ⟨s.fresh, .conn⟩ := by
      rw [← hs2]
      show Function.update (Function.update s.files c _) t _ c = _
      rw [Function.update_of_ne hct, Function.update_self]
    have hne : s.fresh ≠ s.fresh + 1 := by omega
    have htalk : wp posix Tidy (sayHello conf c)
        (fun _ s' => Talked ⟨i, s.fresh, s.fresh + 1⟩ [] [] conf.greeting [] s2 s') s2 :=
      wp_sayHello_talked hne hfc rfl
    rw [wp_bind]
    refine wp_post htalk fun _ s' ht => ?_
    refine ⟨_, .paired hb hl hc hlow.1 hct hfree' ?_ ?_ ?_ ?_ ?_ ht⟩
    all_goals
      rw [← hs2]
      rfl

theorem wp_newClient_moves {r : FdSet} (hb : Books conf s0 L s) (hl : Live L i p s) :
    wp posix Tidy (newClient conf i r p) (Moves conf s0 L i p s) s := by
  unfold newClient
  split
  · rename_i l hlisten hc
    split
    · refine wp_tidy nofun fun res s1 ha => ?_
      cases res with
      | none =>
        obtain rfl : s1 = s := ha
        exact .still hb hl
      | some c =>
        obtain ⟨hlow, rfl⟩ : s.Lowest c ∧ s1 = { s.install c .conn with accepted := some c } := ha
        exact wp_greet_moves hb hl hc hlow
    · exact .still hb hl
  · exact .still hb hl

/-- the client is gone: both ends of its session are closed -/
theorem wp_hangup_moves (hb : Books conf s0 L s) (hl : Live L i p s) (hc : p.clientFd = some c) :
    wp posix Tidy (hangup p c) (Moves conf s0 L i p s) s := by
  obtain ⟨t, fc, ft, ht, hfc, hft, hkc, hkt, he⟩ := hl.session c hc
  have hct : c ≠ t := by
    intro h
    rw [← h, hfc] at hft
    cases hft
    rw [hkc] at hkt
    cases hkt
  have hend : Moved conf s0 L i p s L { p with clientFd := none, ttyFd := none }
      { s with files := Function.update (Function.update s.files c none) t none } := by
    have hends : p.ends = [c, t] := by
      unfold Port.ends
      rw [hc, ht]
      rfl
    have hother : ∀ fd, fd ≠ c → fd ≠ t →
        Function.update (Function.update s.files c none) t none fd = s.files fd := by
      intro fd hxc hxt
      rw [Function.update_of_ne hxt, Function.update_of_ne hxc]
    refine ⟨fun _ h => h, hb.mark rfl rfl (Nat.le_refl _), ⟨fun l hl' => ?_, nofun, fun _ => rfl⟩,
      rfl, rfl, fun fd f => ?_⟩
    · obtain ⟨f, hf, hk⟩ := hl.listen l hl'
      refine ⟨f, ?_, hk⟩
      show Function.update (Function.update s.files c none) t none l = some f
      rw [hother l (fun h => ?_) fun h => ?_]
      · exact hf
      · rw [h, hfc] at hf
        cases hf
        rw [hkc] at hk
        cases hk
      · rw [h, hft] at hf
        cases hf
        rw [hkt] at hk
        cases hk
    · rw [hends]
      show Function.update (Function.update s.files c none) t none fd = some f ∧ fd ∉ [] ↔ _
      constructor
      · intro h
        obtain ⟨hf, _⟩ := h
        have hxt : fd ≠ t := fun h => by rw [h, Function.update_self] at hf; cases hf
        rw [Function.update_of_ne hxt] at hf
        have hxc : fd ≠ c := fun h => by rw [h, Function.update_self] at hf; cases hf
        rw [Function.update_of_ne hxc] at hf
        exact ⟨hf, by simp [hxc, hxt]⟩
      · intro h
        obtain ⟨hf, hm⟩ := h
        simp only [List.mem_cons, List.not_mem_nil, or_false, not_or] at hm
        rw [hother fd hm.1 hm.2]
        exact ⟨hf, List.not_mem_nil⟩
  unfold hangup closeTty
  refine wp_shut (by rw [hfc]; nofun) ?_
  rw [ht]
  refine wp_shut ?_ ⟨L, hend⟩
  show Function.update s.files c none t ≠ none
  rw [Function.update_of_ne hct.symm, hft]
  nofun

theorem Moves.trans {p1 : Port} (h : Moved conf s0 L i p s L' p1 s1)
    (h' : Moves conf s0 L' i p1 s1 p' s') : Moves conf s0 L i p s p' s' := by
  obtain ⟨L2, h2⟩ := h'
  exact ⟨L2, h.trans h2⟩

theorem toTty_nil (conf : Conf) : conf.toTty [] = ⟨[], []⟩ := by
  unfold Conf.toTty
  rw [filtered_scan, scan_nil]
  exact ite_self _

theorem wp_netToSerial_moves {r : FdSet} (hb : Books conf s0 L s) (hl : Live L i p s) :
    wp posix Tidy (netToSerial conf r p) (Moves conf s0 L i p s) s := by
  unfold netToSerial
  cases hc : p.clientFd with
  | none => exact .still hb hl
  | some c =>
    obtain ⟨t, fc, ft, ht, hfc, hft, hkc, hkt, he⟩ := hl.session c hc
    have hne := hb.client_ne he
    show wp posix Tidy (if r c = true then _ else _) _ s
    split
    · refine wp_tidy nofun fun res s1 ha => ?_
      cases res with
      | none =>
        obtain rfl : s1 = s := ha
        exact wp_hangup_moves hb hl hc
      | some bs =>
        obtain ⟨_, rfl⟩ : bs.length ≤ bufSize ∧ s1 = s.logGot c bs := ha
        have hgot : Talked ⟨i, fc.id, ft.id⟩ [bs] [] [] [] s (s.logGot c bs) :=
          talked_got_client hne hfc rfl
        cases bs with
        | nil =>
          -- the end of the stream is a read like any other, and gives nobody anything
          have hnil : Talked ⟨i, fc.id, ft.id⟩ [[]] [] (conf.toClient (.sent []))
              (conf.toTty []).data s (s.logGot c []) := by
            show Talked _ [[]] [] ((conf.toTty []).acts.filterMap Act.bytes) _ s _
            rw [toTty_nil]
            exact hgot
          have hm := Moved.talked hb hl he hnil ((hb.carried _ he).sent hnil)
          exact wp_post (wp_hangup_moves hm.books hm.live hc) fun _ _ h => .trans hm h
        | cons b bs =>
          show wp posix Tidy (passOn conf p c (b :: bs) >>= fun _ => pure p) _ _
          unfold passOn
          rw [wp_bind, ht]
          refine wp_post (wp_relay_talked hne hfc rfl hft rfl) fun _ s2 h2 => ?_
          exact ⟨L, .talked hb hl he h2 ((hb.carried _ he).sent h2)⟩
    · exact .still hb hl

theorem wp_serialToNet_moves {r : FdSet} (hb : Books conf s0 L s) (hl : Live L i p s) :
    wp posix Tidy (serialToNet conf r p) (fun _ s' => Moves conf s0 L i p s p s') s := by
  unfold serialToNet
  cases hc : p.clientFd with
  | none =>
    rw [hl.closed hc]
    exact .still hb hl
  | some c =>
    obtain ⟨t, fc, ft, ht, hfc, hft, hkc, hkt, he⟩ := hl.session c hc
    have hne := hb.client_ne he
    rw [ht]
    show wp posix Tidy (if r t = true then _ else _) _ s
    split
    · refine wp_tidy nofun fun res s1 ha => ?_
      cases res with
      | none =>
        obtain rfl : s1 = s := ha
        exact .still hb hl
      | some bs =>
        obtain ⟨_, rfl⟩ : bs.length ≤ bufSize ∧ s1 = s.logGot t bs := ha
        have hgot : Talked ⟨i, fc.id, ft.id⟩ [] [bs] [] [] s (s.logGot t bs) :=
          talked_got_tty hne hft rfl
        have hend : ∀ s', Talked ⟨i, fc.id, ft.id⟩ [] [] (conf.toClient (.shown bs)) []
            (s.logGot t bs) s' → Moves conf s0 L i p s p s' := by
          intro s' h'
          have h2 := hgot.trans h'
          exact ⟨L, .talked hb hl he h2 ((hb.carried _ he).shown h2)⟩
        have hfc' : (s.logGot t bs).files c = some fc := by
          rw [hgot.files]
          exact hfc
        cases bs with
        | nil => exact hend _ (.refl _ _)
        | cons b bs =>
          show wp posix Tidy (if conf.rawMode = true then _ else _) _ _
          have hto : conf.toClient (.shown (b :: bs))
              = if conf.rawMode then [b :: bs] else telnetBufs [] (b :: bs) := by
            show (if b :: bs = [] then [] else _) = _
            exact if_neg (List.cons_ne_nil b bs)
          rw [hto] at hend
          split
          · rename_i hraw
            rw [if_pos hraw] at hend
            exact wp_say fun r n => hend _ (talked_put_client hne hfc' rfl)
          · rename_i hraw
            rw [if_neg hraw] at hend
            exact wp_post (wp_writeAll_talked hne hfc' rfl _) fun _ s' h' => hend s' h'
    · exact .still hb hl

/-- **A visit changes nothing but the session of its own port.** -/
theorem wp_visit_moves {r : FdSet} (hb : Books conf s0 L s) (hl : Live L i p s) :
    wp posix Tidy (visit conf i r p) (Moves conf s0 L i p s) s := by
  unfold visit
  rw [wp_bind]
  refine wp_post (wp_newClient_moves hb hl) fun p1 s1 h1 => ?_
  obtain ⟨L1, h1⟩ := h1
  rw [wp_bind]
  refine wp_post (wp_netToSerial_moves h1.books h1.live) fun p2 s2 h2 => ?_
  obtain ⟨L2, h2⟩ := h2
  rw [wp_bind]
  refine wp_post (wp_serialToNet_moves h2.books h2.live) fun _ s3 h3 => ?_
  exact .trans (h1.trans h2) h3

/-! ## all ports -/

section
variable {I : Fin maxp → Prop} {ps : Ports}

/-- the books, the ports of `I`, and what is open besides their ends and listening sockets -/
structure Ledger (conf : Conf) (s0 : Sys) (I : Fin maxp → Prop) (ps : Ports) (L : List Pairing)
    (s : Sys) : Prop where
  books : Books conf s0 L s
  live : ∀ i, I i → Live L i (ps i) s
  kept : ∀ fd f, s.files fd = some f → (∃ i, I i ∧ fd ∈ (ps i).fds) ∨ s0.files fd = some f

theorem mem_fds_iff (p : Port) (fd : Nat) : fd ∈ p.fds ↔ p.listenFd = some fd ∨ fd ∈ p.ends := by
  unfold Port.fds Port.ends
  simp only [List.mem_append, Option.mem_toList]
  exact or_assoc

/-- an end of a port stands for a file of a pairing of the port -/
theorem Live.end_mem (h : Live L i p s) (hfd : fd ∈ p.ends) :
    ∃ f e, s.files fd = some f ∧ f.kind ≠ .sock ∧ e ∈ L ∧ e.port = i ∧ f.id ∈ e.ids := by
  unfold Port.ends at hfd
  simp only [List.mem_append, Option.mem_toList] at hfd
  have hclient : ∃ c, p.clientFd = some c := by
    rcases hfd with hc | ht
    · exact ⟨fd, hc⟩
    · cases hc : p.clientFd with
      | none =>
        rw [h.closed hc] at ht
        cases ht
      | some c => exact ⟨c, rfl⟩
  obtain ⟨c, hc⟩ := hclient
  obtain ⟨t, fc, ft, ht, hfc, hft, hkc, hkt, he⟩ := h.session c hc
  rcases hfd with hfd | hfd
  · obtain rfl : c = fd := Option.some.inj (hc.symm.trans hfd)
    exact ⟨fc, _, hfc, by rw [hkc]; nofun, he, rfl, List.mem_cons_self ..⟩
  · obtain rfl : t = fd := Option.some.inj (ht.symm.trans hfd)
    exact ⟨ft, _, hft, by rw [hkt]; nofun, he, rfl, by simp [Pairing.ids]⟩

/-- the ends of two ports are apart -/
theorem Ledger.apart (h : Ledger conf s0 I ps L s) {j : Fin maxp} (hi : I i) (hj : I j)
    (hne : j ≠ i) (hfd : fd ∈ (ps j).ends) : fd ∉ (ps i).ends := by
  intro hfd'
  obtain ⟨f, e, hf, _, he, hp, hid⟩ := (h.live j hj).end_mem hfd
  obtain ⟨f', e', hf', _, he', hp', hid'⟩ := (h.live i hi).end_mem hfd'
  obtain rfl : f = f' := Option.some.inj (hf.symm.trans hf')
  have heq := h.books.unique he he' hid hid'
  exact hne (hp.symm.trans ((congrArg Pairing.port heq).trans hp'))

/-- a port that has been visited -/
theorem Ledger.visited (h : Ledger conf s0 I ps L s) (hi : I i)
    (hm : Moved conf s0 L i (ps i) s L' p' s') :
    Ledger conf s0 I (Function.update ps i p') L' s' := by
  have hstay : ∀ fd f, s.files fd = some f → fd ∉ (ps i).ends → s'.files fd = some f :=
    fun fd f hf hn => ((hm.elsewhere fd f).mpr ⟨hf, hn⟩).1
  refine ⟨hm.books, fun j hj => ?_, fun fd f hf => ?_⟩
  · by_cases hji : j = i
    · rw [hji, Function.update_self]
      exact hm.live
    · rw [Function.update_of_ne hji]
      have hl := h.live j hj
      refine ⟨fun l hl' => ?_, fun c hc => ?_, hl.closed⟩
      · obtain ⟨f, hf, hk⟩ := hl.listen l hl'
        refine ⟨f, hstay l f hf fun hm => ?_, hk⟩
        obtain ⟨f', _, hf', hk', _⟩ := (h.live i hi).end_mem hm
        rw [hf] at hf'
        cases hf'
        exact hk' hk
      · obtain ⟨t, fc, ft, ht, hfc, hft, hkc, hkt, he⟩ := hl.session c hc
        have hcm : c ∈ (ps j).ends := by
          unfold Port.ends
          simp [hc]
        have htm : t ∈ (ps j).ends := by
          unfold Port.ends
          simp [ht]
        exact ⟨t, fc, ft, ht, hstay c fc hfc (h.apart hi hj hji hcm),
          hstay t ft hft (h.apart hi hj hji htm), hkc, hkt, hm.grown he⟩
  · by_cases hend : fd ∈ p'.ends
    · refine .inl ⟨i, hi, ?_⟩
      rw [Function.update_self, mem_fds_iff]
      exact .inr hend
    · obtain ⟨hf', hn⟩ := (hm.elsewhere fd f).mp ⟨hf, hend⟩
      rcases h.kept fd f hf' with hj | h0
      · obtain ⟨j, hj, hfd⟩ := hj
        refine .inl ⟨j, hj, ?_⟩
        by_cases hji : j = i
        · subst hji
          rw [Function.update_self, mem_fds_iff, hm.listen]
          exact .inl (((mem_fds_iff _ fd).mp hfd).resolve_right hn)
        · rw [Function.update_of_ne hji]
          exact hfd
      · exact .inr h0

theorem wp_pass_ledger {r : FdSet} (is : List (Fin maxp)) (hI : ∀ i ∈ is, I i)
    (h : Ledger conf s0 I ps L s) :
    wp posix Tidy (pass conf r is ps) (fun ps' s' => ∃ L', Ledger conf s0 I ps' L' s') s := by
  induction is generalizing ps s L with
  | nil => exact ⟨L, h⟩
  | cons i is ih =>
    have hi := hI i (List.mem_cons_self ..)
    unfold pass
    rw [wp_bind]
    refine wp_post (wp_visit_moves h.books (h.live i hi)) fun p' s1 hm => ?_
    obtain ⟨L', hm⟩ := hm
    exact ih (fun j hj => hI j (List.mem_cons_of_mem _ hj)) (h.visited hi hm)

/-- what a turn leaves behind, if it is not the last one -/
def LedgerOf (conf : Conf) (s0 : Sys) : Option Ports → Sys → Prop
  | some ps, s => ∃ L, Ledger conf s0 (· ∈ conf.indices) ps L s
  | none, _ => True

theorem wp_turn_ledger (h : Ledger conf s0 (· ∈ conf.indices) ps L s) :
    wp posix Tidy (turn conf ps) (LedgerOf conf s0) s := by
  unfold turn
  cases (conf.watched ps).max? with
  | none => exact wp_idle nofun (fun _ _ ha => ha) fun _ => ⟨L, h⟩
  | some max =>
    refine wp_tidy nofun fun res s1 ha => ?_
    cases res with
    | eintr =>
      obtain rfl : s1 = s := ha
      exact ⟨L, h⟩
    | failed => trivial
    | ready r =>
      obtain ⟨_, rfl⟩ := ha
      have h1 : Ledger conf s0 (· ∈ conf.indices) ps L { s with
          ready := r
          readyFiles := fun fd => if r fd then s.files fd else none } :=
        ⟨h.books.mark rfl rfl (Nat.le_refl _), fun i hi => (h.live i hi).same rfl, h.kept⟩
      show wp posix Tidy (pass conf r conf.indices ps >>= fun ps => pure (some ps)) _ _
      rw [wp_bind]
      exact wp_post (wp_pass_ledger conf.indices (fun _ hi => hi) h1) fun _ _ h => h

theorem wp_turns_ledger (n : Nat) (h : Ledger conf s0 (· ∈ conf.indices) ps L s) :
    wp posix Tidy (turns conf n ps) (LedgerOf conf s0) s := by
  induction n generalizing ps s L with
  | zero => exact ⟨L, h⟩
  | succ n ih =>
    unfold turns
    rw [wp_bind]
    refine wp_post (wp_turn_ledger h) fun res s1 h1 => ?_
    cases res with
    | none => trivial
    | some ps' =>
      obtain ⟨L', h1⟩ := h1
      exact ih h1

/-! ## the start -/

/-- a listening socket, or nothing, was opened -/
structure Listening (fd : Option Nat) (s s' : Sys) : Prop where
  got : s'.got = s.got
  put : s'.put = s.put
  fresh : s.fresh ≤ s'.fresh
  stay : ∀ x f, s.files x = some f → s'.files x = some f
  opened : ∀ x f, s'.files x = some f → s.files x = some f ∨ fd = some x
  sock : ∀ l, fd = some l → ∃ f, s'.files l = some f ∧ f.kind = .sock

theorem Listening.refl (s : Sys) : Listening none s s :=
  ⟨rfl, rfl, Nat.le_refl _, fun _ _ h => h, fun _ _ h => .inl h, nofun⟩

theorem listening_install (hl : s.files fd = none) :
    Listening (some fd) s (s.install fd .sock) := by
  refine ⟨rfl, rfl, Nat.le_succ _, fun x f hx => ?_, fun x f hx => ?_, fun l hl' => ?_⟩
  · show Function.update s.files fd _ x = some f
    rw [Function.update_of_ne]
    · exact hx
    · intro h
      rw [h, hl] at hx
      cases hx
  · by_cases hxf : x = fd
    · exact .inr (congrArg some hxf.symm)
    · have hx' : Function.update s.files fd _ x = some f := hx
      rw [Function.update_of_ne hxf] at hx'
      exact .inl hx'
  · cases hl'
    exact ⟨_, Function.update_self .., rfl⟩

theorem wp_listenOn_ledger (tcpPort : Int) : wp posix Tidy (listenOn tcpPort)
    (fun fd s' => Listening fd s s') s := by
  unfold listenOn
  refine wp_tidy nofun fun res s1 ha => ?_
  cases res with
  | none =>
    obtain rfl : s1 = s := ha
    exact .refl s1
  | some fd =>
    obtain ⟨hl, rfl⟩ : s.Lowest fd ∧ s1 = s.install fd .sock := ha
    have hopen : (s.install fd .sock).files fd ≠ none := by
      show Function.update s.files fd _ fd ≠ none
      rw [Function.update_self]
      nofun
    have hend : ∀ up : Bool, wp posix Tidy
        (if up = true then pure (some fd) else close fd >>= fun _ => pure none)
        (fun fd s' => Listening fd s s') (s.install fd .sock) := by
      intro up
      cases up with
      | true => exact listening_install hl.1
      | false =>
        refine wp_shut hopen ?_
        have hf : Function.update (s.install fd .sock).files fd none = s.files := by
          show Function.update (Function.update s.files fd _) fd none = _
          rw [Function.update_idem, ← hl.1, Function.update_eq_self]
        show Listening none s _
        rw [hf]
        exact ⟨rfl, rfl, Nat.le_succ _, fun _ _ h => h, fun _ _ h => .inl h, nofun⟩
    refine wp_idle nofun (fun _ _ ha => ha) fun _ => ?_
    have hup : wp posix Tidy (bindListen fd tcpPort)
        (fun _ s' => s' = s.install fd .sock) (s.install fd .sock) := by
      refine wp_idle nofun (fun _ _ ha => ha) fun bound => ?_
      cases bound with
      | false => rfl
      | true =>
        intro s2 hr up s3 ha
        obtain rfl : s2 = s.install fd .sock := hr
        exact ⟨nofun, ha⟩
    rw [wp_bind]
    refine wp_post hup fun up s3 hs => ?_
    rw [hs]
    exact hend up

/-- a port that comes up -/
theorem Ledger.comesUp (h : Ledger conf s0 I ps [] s) (hi : ¬I i) {l : Option Nat} (tcpPort : Int)
    (hl : Listening l s s') : Ledger conf s0 (fun j => j = i ∨ I j)
      (Function.update ps i ⟨l, none, none, tcpPort⟩) [] s' := by
  refine ⟨h.books.mark hl.got hl.put hl.fresh, fun j hj => ?_, fun fd f hf => ?_⟩
  · by_cases hji : j = i
    · rw [hji, Function.update_self]
      exact ⟨hl.sock, nofun, fun _ => rfl⟩
    · rw [Function.update_of_ne hji]
      have hlive := h.live j (hj.resolve_left hji)
      refine ⟨fun l' hl' => ?_, fun c hc => ?_, hlive.closed⟩
      · obtain ⟨f, hf, hk⟩ := hlive.listen l' hl'
        exact ⟨f, hl.stay l' f hf, hk⟩
      · obtain ⟨t, fc, ft, _, _, _, _, _, he⟩ := hlive.session c hc
        cases he
  · rcases hl.opened fd f hf with hf | hfd
    · rcases h.kept fd f hf with hj | h0
      · obtain ⟨j, hj, hfd⟩ := hj
        have hji : j ≠ i := fun he => hi (he ▸ hj)
        refine .inl ⟨j, .inr hj, ?_⟩
        rw [Function.update_of_ne hji]
        exact hfd
      · exact .inr h0
    · refine .inl ⟨i, .inl rfl, ?_⟩
      rw [Function.update_self, mem_fds_iff]
      exact .inl hfd

theorem wp_setupPorts_ledger (is : List (Fin maxp)) (hI : ∀ i ∈ is, ¬I i) (hn : is.Nodup)
    (h : Ledger conf s0 I ps [] s) : wp posix Tidy (setupPorts conf is ps)
      (fun ps' s' => Ledger conf s0 (fun i => i ∈ is ∨ I i) ps' [] s') s := by
  induction is generalizing I ps s with
  | nil =>
    exact ⟨h.books, fun i hi => h.live i (hi.resolve_left List.not_mem_nil),
      fun fd f hf => (h.kept fd f hf).imp (fun hj => hj.imp fun _ hj => ⟨.inr hj.1, hj.2⟩) id⟩
  | cons i is ih =>
    obtain ⟨hni, hn'⟩ := List.nodup_cons.mp hn
    unfold setupPorts
    rw [wp_bind]
    refine wp_post (wp_listenOn_ledger _) fun l s1 hl => ?_
    have h1 := h.comesUp (hI i (List.mem_cons_self ..)) (conf.basePort + i.val) hl
    refine wp_post (ih (fun j hj hji => ?_) hn' h1) fun ps' s' h' => ?_
    · rcases hji with hji | hjI
      · exact hni (hji ▸ hj)
      · exact hI j (List.mem_cons_of_mem _ hj) hjI
    · have hiff : ∀ j, (j ∈ is ∨ j = i ∨ I j) ↔ (j ∈ i :: is ∨ I j) := by
        intro j
        rw [List.mem_cons]
        exact ⟨fun h => h.elim (fun h => .inl (.inr h)) (.imp .inl id),
          fun h => h.elim (.elim · (fun h => .inr (.inl h)) .inl) fun h => .inr (.inr h)⟩
      exact ⟨h'.books, fun j hj => h'.live j ((hiff j).mpr hj),
        fun fd f hf => (h'.kept fd f hf).imp
          (fun hj => hj.imp fun j hj => ⟨(hiff j).mp hj.1, hj.2⟩) id⟩

end

/-- **The whole program keeps the books.** -/
theorem wp_nmMain_ledger (conf : Conf) (n : Nat) (hs : s.Start) :
    wp posix Tidy (nmMain conf n) (LedgerOf conf s) s := by
  have hb : Books conf s [] s :=
    ⟨nofun, List.nodup_nil, nofun, fun id _ => ⟨rfl, .inl rfl⟩, Nat.le_refl _, hs.wf.logs⟩
  have h0 : Ledger conf s (fun _ => False) (fun _ => .zero) [] s :=
    ⟨hb, nofun, fun fd f hf => .inr hf⟩
  unfold nmMain
  rw [wp_bind]
  refine wp_post (wp_setupPorts_ledger conf.indices (fun _ _ => id) (nodup_indices conf) h0)
    fun ps s1 h1 => ?_
  refine wp_turns_ledger n (L := []) ⟨h1.books, fun i hi => h1.live i (.inl hi), fun fd f hf => ?_⟩
  exact (h1.kept fd f hf).imp (fun hj => hj.imp fun j hj => ⟨hj.1.resolve_right id, hj.2⟩) id

/-! ## closing -/

theorem access_wf {o : Op} {r : Res o} (h : s.Wf) (ha : s.access o r s') : s'.Wf := by
  have hmark : ∀ (s : Sys) (a : Option Nat) (b : Bool), s.Wf →
      ({ s with accepted := a, tainted := b } : Sys).Wf :=
    fun s a b h => ⟨h.ids, h.inj, h.seen, h.logs, h.fits⟩
  cases o with
  | socket =>
    cases r with
    | none => exact ha ▸ h
    | some fd =>
      obtain ⟨_, rfl⟩ : s.Lowest fd ∧ s' = s.install fd .sock := ha
      exact h.install fd .sock
  | accept l =>
    cases r with
    | none => exact ha ▸ h
    | some fd =>
      obtain ⟨_, rfl⟩ : s.Lowest fd ∧ s' = { s.install fd .conn with accepted := some fd } := ha
      exact hmark _ _ _ (h.install fd .conn)
  | openTty k =>
    cases r with
    | none => exact ha ▸ h
    | some fd =>
      obtain ⟨_, hs⟩ := ha
      rw [hs]
      exact hmark _ _ _ (h.install fd (.tty k))
  | close fd =>
    obtain rfl : s' = { s with files := Function.update s.files fd none } := ha
    exact h.close fd
  | select nfds want =>
    cases r with
    | ready r =>
      obtain ⟨_, rfl⟩ := ha
      refine ⟨h.ids, h.inj, fun fd f hf => ?_, h.logs, h.fits⟩
      have hf' : (if r fd = true then s.files fd else none) = some f := hf
      split at hf'
      · exact h.ids fd f hf'
      · cases hf'
    | eintr => exact ha ▸ h
    | failed => exact ha ▸ h
  | read fd len =>
    cases r with
    | none => exact ha ▸ h
    | some bs =>
      obtain ⟨_, rfl⟩ : bs.length ≤ len ∧ s' = s.logGot fd bs := ha
      exact h.logGot
  | write fd bs =>
    cases r with
    | none =>
      obtain rfl : s' = s.logPut fd bs 0 := ha
      exact h.logPut (Nat.zero_le _)
    | some n =>
      obtain ⟨hn, rfl⟩ : n ≤ bs.length ∧ s' = s.logPut fd bs n := ha
      exact h.logPut hn
  | _ => exact ha ▸ h

/-- what a call can do to the table of open files -/
theorem access_files {o : Op} {r : Res o} (ha : s.access o r s') :
    (s'.files = s.files ∧ s'.fresh = s.fresh) ∨
    (∃ fd, o = .close fd ∧ s'.files = Function.update s.files fd none ∧ s'.fresh = s.fresh) ∨
    (∃ fd k, s'.files = Function.update s.files fd (some ⟨s.fresh, k⟩) ∧
      s'.fresh = s.fresh + 1) := by
  have hsame : s' = s → s'.files = s.files ∧ s'.fresh = s.fresh := fun h => by
    rw [h]
    exact ⟨rfl, rfl⟩
  have hgot : ∀ fd bs, (s.logGot fd bs).files = s.files ∧ (s.logGot fd bs).fresh = s.fresh := by
    intro fd bs
    unfold Sys.logGot
    split <;> exact ⟨rfl, rfl⟩
  have hput : ∀ fd bs n, (s.logPut fd bs n).files = s.files ∧
      (s.logPut fd bs n).fresh = s.fresh := by
    intro fd bs n
    unfold Sys.logPut
    split <;> exact ⟨rfl, rfl⟩
  cases o with
  | socket =>
    cases r with
    | none => exact .inl (hsame ha)
    | some fd =>
      obtain ⟨_, rfl⟩ : s.Lowest fd ∧ s' = s.install fd .sock := ha
      exact .inr (.inr ⟨fd, .sock, rfl, rfl⟩)
  | accept l =>
    cases r with
    | none => exact .inl (hsame ha)
    | some fd =>
      obtain ⟨_, rfl⟩ : s.Lowest fd ∧ s' = { s.install fd .conn with accepted := some fd } := ha
      exact .inr (.inr ⟨fd, .conn, rfl, rfl⟩)
  | openTty k =>
    cases r with
    | none => exact .inl (hsame ha)
    | some fd =>
      obtain ⟨_, hs⟩ := ha
      rw [hs]
      exact .inr (.inr ⟨fd, .tty k, rfl, rfl⟩)
  | close fd =>
    obtain rfl : s' = { s with files := Function.update s.files fd none } := ha
    exact .inr (.inl ⟨fd, rfl, rfl, rfl⟩)
  | select nfds want =>
    cases r with
    | ready r =>
      obtain ⟨_, rfl⟩ := ha
      exact .inl ⟨rfl, rfl⟩
    | eintr => exact .inl (hsame ha)
    | failed => exact .inl (hsame ha)
  | read fd len =>
    cases r with
    | none => exact .inl (hsame ha)
    | some bs =>
      obtain ⟨_, rfl⟩ : bs.length ≤ len ∧ s' = s.logGot fd bs := ha
      exact .inl (hgot fd bs)
  | write fd bs =>
    cases r with
    | none =>
      obtain rfl : s' = s.logPut fd bs 0 := ha
      exact .inl (hput fd bs 0)
    | some n =>
      obtain ⟨_, rfl⟩ : n ≤ bs.length ∧ s' = s.logPut fd bs n := ha
      exact .inl (hput fd bs n)
  | _ => exact .inl (hsame ha)

/-- the file `id` has been opened, and is open no more -/
structure Sys.Gone (s : Sys) (id : Nat) : Prop where
  used : id < s.fresh
  shut : ∀ fd f, s.files fd = some f → f.id ≠ id

theorem gone_access {id : Nat} {o : Op} {r : Res o} (h : s.Gone id) (ha : s.access o r s') :
    s'.Gone id := by
  rcases access_files ha with ⟨hf, hn⟩ | ⟨x, _, hf, hn⟩ | ⟨x, k, hf, hn⟩
  · refine ⟨by rw [hn]; exact h.used, fun fd f hfd => ?_⟩
    rw [hf] at hfd
    exact h.shut fd f hfd
  · refine ⟨by rw [hn]; exact h.used, fun fd f hfd => ?_⟩
    rw [hf] at hfd
    by_cases hx : fd = x
    · rw [hx, Function.update_self] at hfd
      cases hfd
    · rw [Function.update_of_ne hx] at hfd
      exact h.shut fd f hfd
  · refine ⟨Nat.lt_of_lt_of_le h.used (by omega), fun fd f hfd => ?_⟩
    rw [hf] at hfd
    by_cases hx : fd = x
    · rw [hx, Function.update_self] at hfd
      cases hfd
      exact Nat.ne_of_gt h.used
    · rw [Function.update_of_ne hx] at hfd
      exact h.shut fd f hfd

/-- the event closes the file `id` -/
def closes (id : Nat) (e : Event Op Res Sys) : Bool :=
  match e.op with
  | .close fd => (e.pre.files fd).any fun f => f.id == id
  | _ => false

theorem closes_iff {id : Nat} {e : Event Op Res Sys} : closes id e = true ↔
    ∃ fd f, e.op = .close fd ∧ e.pre.files fd = some f ∧ f.id = id := by
  obtain ⟨s, o, r, s'⟩ := e
  cases o with
  | close fd =>
    show (s.files fd).any _ = true ↔ ∃ x f, Op.close fd = .close x ∧ s.files x = some f ∧ f.id = id
    cases hf : s.files fd with
    | none => simp [hf]
    | some f => simp [hf]
  | _ => simp [closes]

theorem gone_of_closes {id : Nat} {e : Event Op Res Sys} (hwf : e.pre.Wf)
    (ha : e.pre.access e.op e.res e.post) (h : closes id e = true) : e.post.Gone id := by
  obtain ⟨s, o, r, s'⟩ := e
  obtain ⟨x, f, ho, hf, rfl⟩ := closes_iff.mp h
  obtain rfl : o = .close x := ho
  obtain rfl : s' = { s with files := Function.update s.files x none } := ha
  refine ⟨hwf.ids x f hf, fun fd f' hfd he => ?_⟩
  have hfd' : Function.update s.files x none fd = some f' := hfd
  by_cases hx : fd = x
  · rw [hx, Function.update_self] at hfd'
    cases hfd'
  · rw [Function.update_of_ne hx] at hfd'
    exact hx (hwf.inj fd x f' f hfd' hf he)

/-- **No file is closed twice.** -/
theorem closed_once {q q' : Posix α} {tr : List (Event Op Res Sys)} (h : Exec posix q s tr s' q')
    (hwf : s.Wf) (id : Nat) : (tr.filter (closes id)).length ≤ 1 := by
  induction h with
  | stop => exact Nat.zero_le _
  | @step o k s1 s2 s3 s4 r tr q' hr ha hx ih =>
    obtain rfl : s2 = s1 := hr
    have hwf' : s3.Wf := access_wf hwf ha
    rw [List.filter_cons]
    split
    · rename_i hc
      -- from here on the file is gone
      have hgone : s3.Gone id := gone_of_closes (e := ⟨s2, o, r, s3⟩) hwf ha hc
      have hstable : Stable posix fun s => s.Gone id := by
        intro s s' h hr
        obtain rfl : s' = s := hr
        exact h
      have hpre := (hx.chain hstable (fun e he h => gone_access h (hx.mem_access e he)) hgone).1
      have hnone : tr.filter (closes id) = [] := by
        rw [List.filter_eq_nil_iff]
        intro e he hc'
        obtain ⟨fd, f, _, hf, hid⟩ := closes_iff.mp hc'
        exact (hpre e he).shut fd f hf hid
      rw [List.length_cons, hnone]
      exact Nat.le_refl _
    · exact ih hwf'

/-! ## the result -/

/-- how the server stands at the head of its loop, since it was started in `s0` -/
structure Isolated (conf : Conf) (s0 : Sys) (ps : Ports) (s : Sys) : Prop where
  paired : ∀ i ∈ conf.indices, (ps i).clientFd.isSome = (ps i).ttyFd.isSome
  held : ∀ i ∈ conf.indices, ∀ fd ∈ (ps i).fds, s.files fd ≠ none
  distinct : (conf.indices.flatMap fun i => (ps i).fds).Nodup
  /-- nothing has leaked -/
  kept : ∀ fd f, s.files fd = some f →
    (∃ i ∈ conf.indices, fd ∈ (ps i).fds) ∨ s0.files fd = some f
  /-- what came from a client went to the tty of its port, and back, in every session so far -/
  routed : ∃ L, Books conf s0 L s ∧ ∀ i ∈ conf.indices, Live L i (ps i) s

/-- **Sessions are kept apart**: no descriptor is lost, closed twice or shared, and no byte goes to
another session. -/
theorem sessions_kept_apart (conf : Conf) (n : Nat) (s s' : Sys) (hs : s.Start)
    (tr : List (Event Op Res Sys)) (q : Posix (Option Ports))
    (h : Exec posix (nmMain conf n) s tr s' q) :
    (∀ ps, q.result = some (some ps) → Isolated conf s ps s') ∧ (∀ e ∈ tr, Tidy e) ∧
      ∀ id, (tr.filter (closes id)).length ≤ 1 := by
  have hw := wp_and (wp_nmMain posix.le_refl conf n hs) (wp_nmMain_ledger conf n hs)
  obtain ⟨htr, hq⟩ := wp_exec hw h
  refine ⟨fun ps hps => ?_, fun e he => (htr e he).2, closed_once h hs.wf⟩
  rw [Prog.eq_of_result hps] at hq
  obtain ⟨hhead, L, hledger⟩ : Head posix conf ps s' ∧
    ∃ L, Ledger conf s (· ∈ conf.indices) ps L s' := hq
  have ht := hhead.table
  refine ⟨fun i hi => (ht.session i hi).paired, ht.there, ?_, hledger.kept,
    L, hledger.books, hledger.live⟩
  rw [List.nodup_flatMap]
  refine ⟨ht.nodup, ?_⟩
  refine List.Pairwise.imp_of_mem ?_ (nodup_indices conf)
  intro i j hi hj hne fd hfd hfd'
  exact hne (ht.apart i j fd hi hj hfd hfd')

/-- a client on each of two ports; each sends a byte -/
def twoClients : Script where
  select := fdSets [(8, [3]), (15, [4]), (22, [5, 7])]
  read := answers [(23, [0x61]), (25, [0x62])]
  write _ := 1024

theorem sessions_kept_apart_two : ∃ tr ps s q, Exec posix (nmMain twoPorts 3) startSys tr s q ∧
    s.put 6 = [([0x61], 1)] ∧ s.put 8 = [([0x62], 1)] ∧ Isolated twoPorts startSys ps s := by
  have hx := twoClients.policy.play_exec 0 (nmMain twoPorts 3) startSys
  have hret : ((twoClients.policy.play 0 (nmMain twoPorts 3) startSys).2.2.result.map
    Option.isSome) = some true := by decide +kernel
  obtain ⟨res, hres, hsome⟩ := Option.map_eq_some_iff.mp hret
  obtain ⟨ps, hps⟩ := Option.isSome_iff_exists.mp hsome
  refine ⟨_, ps, _, _, hx, by decide +kernel, by decide +kernel, ?_⟩
  refine (sessions_kept_apart twoPorts 3 startSys _ startSys_start _ _ hx).1 ps ?_
  rw [hres, hps]

end Nmconsole
