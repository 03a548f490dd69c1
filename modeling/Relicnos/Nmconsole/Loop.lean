import Relicnos.Nmconsole.Visit

/-!
# The loop over the ports, and the whole program

* `Table`       the ports hold open descriptors, each its own, and their sessions are as they
                should be;
* `wp_nmMain`   it holds after any number of turns.
-/

set_option linter.unusedVariables false

namespace Nmconsole
open Interact

variable {conf : Conf} {p : Port} {s s' s0 : Sys} {K : Nat → Prop} {E : Env Op Res Sys}
  {c t fd : Nat}

/-! ## all ports -/

/-- the ports of `I` hold open descriptors, each its own -/
structure Table (conf : Conf) (I : Fin maxp → Prop) (ps : Ports) (s : Sys) : Prop where
  there : ∀ i, I i → ∀ fd ∈ (ps i).fds, s.files fd ≠ none
  nodup : ∀ i, I i → (ps i).fds.Nodup
  apart : ∀ i j fd, I i → I j → fd ∈ (ps i).fds → fd ∈ (ps j).fds → i = j
  session : ∀ i, I i → Session conf (ps i) s
  wf : s.Wf

/-- what the ports of `I` other than `i` hold -/
def Others (I : Fin maxp → Prop) (ps : Ports) (i : Fin maxp) (fd : Nat) : Prop :=
  ∃ j, I j ∧ j ≠ i ∧ fd ∈ (ps j).fds

theorem Session.frame (h : Session conf p s) (hf : Frame K s s') (hk : ∀ fd ∈ p.fds, K fd) :
    Session conf p s' := by
  refine ⟨h.paired, fun c t fc ft hc ht hfc hft => ?_⟩
  have hkc := hk c (mem_fds_client hc)
  have hkt := hk t (mem_fds_tty ht)
  rw [hf.files c hkc] at hfc
  rw [hf.files t hkt] at hft
  unfold Sys.due Sys.wanted
  rw [hf.put t ft hkt hft, hf.got c fc hkc hfc]
  exact h.carried c t fc ft hc ht hfc hft

section
variable {I : Fin maxp → Prop} {ps : Ports} {i : Fin maxp}

theorem Table.owned (h : Table conf I ps s) (hi : I i) : Owned conf (Others I ps i) (ps i) s s := by
  refine ⟨⟨.refl _ s, h.wf, ?_, fun fd hfd => ⟨h.there i hi fd hfd, ?_⟩, h.nodup i hi⟩,
    h.session i hi⟩
  · rintro fd ⟨j, hj, _, hfd⟩
    exact h.there j hj fd hfd
  · rintro ⟨j, hj, hne, hfd'⟩
    exact hne (h.apart j i fd hj hi hfd' hfd)

/-- a port that has been visited, or has just come up -/
theorem Table.update {p' : Port} (h : Table conf I ps s)
    (ho : Owned conf (Others I ps i) p' s s') :
    Table conf (fun j => j = i ∨ I j) (Function.update ps i p') s' := by
  have hself : Function.update ps i p' i = p' := Function.update_self ..
  have hother : ∀ j, j ≠ i → Function.update ps i p' j = ps j := fun j hj =>
    Function.update_of_ne hj ..
  have hcase : ∀ j, (j = i ∨ I j) → j = i ∨ (j ≠ i ∧ I j) := by
    intro j hj
    by_cases e : j = i
    · exact .inl e
    · exact .inr ⟨e, hj.resolve_left e⟩
  have hkept : ∀ j, j ≠ i → I j → ∀ fd ∈ (ps j).fds, Others I ps i fd :=
    fun j hne hj fd hfd => ⟨j, hj, hne, hfd⟩
  refine ⟨fun j hj fd hfd => ?_, fun j hj => ?_, fun j k fd hj hk hfd hfd' => ?_,
    fun j hj => ?_, ho.holds.wf⟩
  · rcases hcase j hj with rfl | ⟨hne, hj⟩
    · rw [hself] at hfd
      exact (ho.holds.held fd hfd).1
    · rw [hother j hne] at hfd
      rw [ho.holds.frame.files fd (hkept j hne hj fd hfd)]
      exact h.there j hj fd hfd
  · rcases hcase j hj with rfl | ⟨hne, hj⟩
    · rw [hself]
      exact ho.holds.nodup
    · rw [hother j hne]
      exact h.nodup j hj
  · rcases hcase j hj with rfl | ⟨hne, hj'⟩
    · rcases hcase k hk with rfl | ⟨hne, hk'⟩
      · rfl
      · rw [hself] at hfd
        rw [hother k hne] at hfd'
        exact absurd (hkept k hne hk' fd hfd') (ho.holds.held fd hfd).2
    · rw [hother j hne] at hfd
      rcases hcase k hk with rfl | ⟨hne', hk'⟩
      · rw [hself] at hfd'
        exact absurd (hkept j hne hj' fd hfd) (ho.holds.held fd hfd').2
      · rw [hother k hne'] at hfd'
        exact h.apart j k fd hj' hk' hfd hfd'
  · rcases hcase j hj with rfl | ⟨hne, hj⟩
    · rw [hself]
      exact ho.session
    · rw [hother j hne]
      exact (h.session j hj).frame ho.holds.frame (hkept j hne hj)

theorem Table.mono {J : Fin maxp → Prop} (h : Table conf I ps s) (hJ : ∀ i, J i → I i) :
    Table conf J ps s :=
  ⟨fun i hi => h.there i (hJ i hi), fun i hi => h.nodup i (hJ i hi),
    fun i j fd hi hj => h.apart i j fd (hJ i hi) (hJ j hj), fun i hi => h.session i (hJ i hi), h.wf⟩

theorem Table.select (h : Table conf I ps s) (r : FdSet) : Table conf I ps { s with
    ready := r
    readyFiles := fun fd => if r fd then s.files fd else none } := by
  refine ⟨h.there, h.nodup, h.apart,
    fun i hi => ⟨(h.session i hi).paired, (h.session i hi).carried⟩,
    ⟨h.wf.ids, h.wf.inj, fun fd f hf => ?_, h.wf.logs, h.wf.fits⟩⟩
  replace hf : (if r fd = true then s.files fd else none) = some f := hf
  split at hf
  · exact h.wf.ids fd f hf
  · cases hf

end

/-! ## the loop -/

section
variable {I : Fin maxp → Prop}

theorem wp_pass (hE : E.Le posix) {r : FdSet} (is : List (Fin maxp)) (hn : is.Nodup)
    (hI : ∀ i ∈ is, I i) {ps : Ports} {s : Sys} (hr : r = s.ready) (h : Table conf I ps s)
    (hk : ∀ i ∈ is, ∀ fd, (ps i).clientFd = some fd ∨ (ps i).ttyFd = some fd →
      s.ready fd = true → Known s fd)
    (hclean : OnlyReported E → s.tainted = false) :
    wp E Cautious (pass conf r is ps)
      (fun ps' s' => Table conf I ps' s' ∧ (OnlyReported E → s'.tainted = false)) s := by
  induction is generalizing ps s with
  | nil => exact ⟨h, hclean⟩
  | cons i is ih =>
    obtain ⟨hni, hn'⟩ := List.nodup_cons.mp hn
    have hi := hI i (List.mem_cons_self ..)
    unfold pass
    rw [wp_bind]
    refine wp_post (wp_visit hE hr (h.owned hi) (hk i (List.mem_cons_self ..)) hclean) ?_
    rintro p' s1 ⟨h1, hc1⟩
    have hframe := h1.holds.frame
    refine ih hn' (fun j hj => hI j (List.mem_cons_of_mem _ hj)) (hr.trans hframe.ready.symm)
      ((h.update h1).mono fun j hj => .inr hj) ?_ hc1
    intro j hj fd hfd hrd
    have hne : j ≠ i := by
      rintro rfl
      exact hni hj
    rw [Function.update_of_ne hne] at hfd
    have hjI := hI j (List.mem_cons_of_mem _ hj)
    have hmem : fd ∈ (ps j).fds := by
      rcases hfd with hfd | hfd
      · exact mem_fds_client hfd
      · exact mem_fds_tty hfd
    rw [hframe.ready] at hrd
    obtain ⟨f, hf, hs⟩ := hk j (List.mem_cons_of_mem _ hj) fd hfd hrd
    refine ⟨f, ?_, ?_⟩
    · rw [hframe.files fd ⟨j, hjI, hne, hmem⟩]
      exact hf
    · rw [hframe.seen]
      exact hs

/-- what holds at the head of the loop -/
structure Head (E : Env Op Res Sys) (conf : Conf) (ps : Ports) (s : Sys) : Prop where
  table : Table conf (· ∈ conf.indices) ps s
  clean : OnlyReported E → s.tainted = false

theorem nodup_indices (conf : Conf) : conf.indices.Nodup :=
  (List.nodup_finRange maxp).filter _

/-- it holds again after a turn, if the turn is not the last one -/
def HeadOf (E : Env Op Res Sys) (conf : Conf) : Option Ports → Sys → Prop
  | some ps, s => Head E conf ps s
  | none, s => OnlyReported E → s.tainted = false

theorem wp_turn (hE : E.Le posix) {ps : Ports} (h : Head E conf ps s) :
    wp E Cautious (turn conf ps) (HeadOf E conf) s := by
  unfold turn
  generalize conf.watched ps = fds
  cases fds.max? with
  | none =>
    refine wp_call hE (by nofun) ?_
    rintro _ s' rfl
    exact h
  | some max =>
    refine wp_call hE (by nofun) ?_
    intro res s' ha
    cases res with
    | eintr =>
      obtain rfl : s' = s := ha
      exact h
    | failed =>
      obtain rfl : s' = s := ha
      exact h.clean
    | ready r =>
      obtain ⟨_, rfl⟩ := ha
      refine (wp_bind _ _ _ _).mpr (wp_post (wp_pass hE conf.indices (nodup_indices conf)
        (fun _ hi => hi) rfl (h.table.select r) ?_ h.clean) fun _ _ h => ⟨h.1, h.2⟩)
      intro i hi fd hfd hrd
      have hmem : fd ∈ (ps i).fds := by
        rcases hfd with hfd | hfd
        · exact mem_fds_client hfd
        · exact mem_fds_tty hfd
      obtain ⟨f, hf⟩ := Option.ne_none_iff_exists'.mp (h.table.there i hi fd hmem)
      exact ⟨f, hf, (if_pos hrd).trans hf⟩

theorem wp_turns (hE : E.Le posix) (n : Nat) {ps : Ports} (h : Head E conf ps s) :
    wp E Cautious (turns conf n ps) (HeadOf E conf) s := by
  induction n generalizing ps s with
  | zero => exact h
  | succ n ih =>
    unfold turns
    rw [wp_bind]
    refine wp_post (wp_turn hE h) ?_
    intro res s1 h1
    cases res with
    | none => exact h1
    | some ps' => exact ih h1

/-! ## the start -/

/-- a port comes up with a listening socket, or with nothing -/
theorem wp_listenOn (hE : E.Le posix) (tcpPort : Int) (h : Holds K [] s0 s)
    (hclean : OnlyReported E → s.tainted = false) :
    wp E Cautious (listenOn tcpPort) (fun fd s' => Holds K fd.toList s0 s' ∧
      (OnlyReported E → s'.tainted = false)) s := by
  unfold listenOn
  refine wp_call hE (by nofun) ?_
  intro res s1 ha
  cases res with
  | none =>
    obtain rfl : s1 = s := ha
    exact ⟨h, hclean⟩
  | some fd =>
    obtain ⟨hl, rfl⟩ : s.Lowest fd ∧ s1 = s.install fd .sock := ha
    have h1 := h.install hl.1 .sock
    refine wp_call hE (by nofun) ?_
    rintro _ s2 rfl
    have hend : ∀ up : Bool, wp E Cautious
        (if up = true then pure (some fd) else close fd >>= fun _ => pure none)
        (fun fd s' => Holds K fd.toList s0 s' ∧ (OnlyReported E → s'.tainted = false))
        (s.install fd .sock) := by
      intro up
      cases up with
      | true => exact ⟨h1, hclean⟩
      | false => exact wp_closeOf hE ⟨h1.close, hclean⟩
    rw [wp_bind]
    have hup : wp E Cautious (bindListen fd tcpPort) (fun _ s' => s' = s.install fd .sock)
        (s.install fd .sock) := by
      refine wp_call hE (by nofun) ?_
      rintro bound s3 rfl
      split
      · intro s4 hr up s5 ha
        obtain rfl := hE.rely _ _ hr
        exact ⟨fun _ => trivial, hE.access _ _ _ _ ha⟩
      · rfl
    refine wp_post hup ?_
    rintro up s3 rfl
    exact hend up

theorem wp_setupPorts (hE : E.Le posix) (is : List (Fin maxp)) {I : Fin maxp → Prop} {ps : Ports}
    {s : Sys} (hI : ∀ i ∈ is, ¬I i) (hn : is.Nodup) (h : Table conf I ps s)
    (hclean : OnlyReported E → s.tainted = false) :
    wp E Cautious (setupPorts conf is ps) (fun ps' s' => Table conf (fun i => i ∈ is ∨ I i) ps' s' ∧
      (OnlyReported E → s'.tainted = false)) s := by
  induction is generalizing I ps s with
  | nil => exact ⟨h.mono fun i hi => hi.resolve_left List.not_mem_nil, hclean⟩
  | cons i is ih =>
    obtain ⟨hni, hn'⟩ := List.nodup_cons.mp hn
    have h0 : Holds (Others I ps i) [] s s := by
      refine ⟨.refl _ s, h.wf, ?_, nofun, List.nodup_nil⟩
      rintro fd ⟨j, hj, _, hfd⟩
      exact h.there j hj fd hfd
    unfold setupPorts
    rw [wp_bind]
    refine wp_post (wp_listenOn hE _ h0 hclean) ?_
    rintro fd s1 ⟨h1, hc1⟩
    have ho : Owned conf (Others I ps i) ⟨fd, none, none, conf.basePort + i.val⟩ s s1 :=
      ⟨by rw [fds_of_none rfl rfl]; exact h1, .none rfl rfl⟩
    refine wp_post (ih ?_ hn' (h.update ho) hc1) ?_
    · rintro j hj (rfl | hjI)
      · exact hni hj
      · exact hI j (List.mem_cons_of_mem _ hj) hjI
    · rintro ps' s' ⟨h', hc'⟩
      refine ⟨h'.mono fun j hj => ?_, hc'⟩
      rcases hj with hj | hj
      · rcases List.mem_cons.mp hj with rfl | hj
        · exact .inr (.inl rfl)
        · exact .inl hj
      · exact .inr (.inr hj)

/-- the descriptors that the process is started with -/
structure Sys.Start (s : Sys) : Prop where
  wf : s.Wf
  tainted : s.tainted = false

/-- **The whole program, from its start through any number of turns.** -/
theorem wp_nmMain (hE : E.Le posix) (conf : Conf) (n : Nat) (h : s.Start) :
    wp E Cautious (nmMain conf n) (HeadOf E conf) s := by
  have h0 : Table conf (fun _ => False) (fun _ => .zero) s :=
    ⟨nofun, nofun, nofun, nofun, h.wf⟩
  unfold nmMain
  rw [wp_bind]
  refine wp_post (wp_setupPorts hE conf.indices (fun _ _ => id) (nodup_indices conf) h0
    fun _ => h.tainted) ?_
  rintro ps s1 ⟨h1, hc1⟩
  exact wp_turns hE n ⟨h1.mono fun i hi => .inl hi, hc1⟩

end

end Nmconsole
