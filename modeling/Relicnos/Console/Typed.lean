import Relicnos.Console.Script

/-!
# From a client to the wire

* `Sound`               every tty of the server stands for a port that is in order, whose history
                        is what the writes on that tty took;
* `Full`                a `write` is cut short by a full ring only;
* `typed_reaches_wire`  at every loop head, for every session: what the client sent was offered to
                        the tty, what the tty took is what was typed on the port, and the wire
                        carries the front of that.
-/

set_option linter.unusedVariables false

namespace Console
open Interact Nmconsole

variable {c : Nm32a.Cfg} {j j' : Whole} {i k : Fin 32} {fd id : Nat} {s s' : Sys}

/-- descriptor `fd` stands for tty `i` -/
def Stands (s : Sys) (fd : Nat) (i : Fin 32) (id : Nat) : Prop :=
  s.files fd = some ⟨id, .tty i.val⟩

theorem portOf_tty (i : Fin 32) : portOf (.tty i.val) = some i := dif_pos i.isLt

theorem portOf_some {kind : FileKind} (h : portOf kind = some i) : kind = .tty i.val := by
  cases kind with
  | tty n =>
    replace h : (if h : n < 32 then some (⟨n, h⟩ : Fin 32) else none) = some i := h
    by_cases hn : n < 32
    · rw [dif_pos hn] at h
      rw [← Option.some.inj h]
    · rw [dif_neg hn] at h
      cases h
  | _ => cases h

theorem ttyAt_some (h : ttyAt s fd = some i) : ∃ id, Stands s fd i id := by
  obtain ⟨f, hf, hk⟩ := Option.bind_eq_some_iff.mp h
  exact ⟨f.id, by rw [Stands, hf, ← portOf_some hk]⟩

theorem Stands.ttyAt (h : Stands s fd i id) : ttyAt s fd = some i := by
  unfold Console.ttyAt
  rw [h]
  exact portOf_tty i

theorem Stands.port (h : Stands s fd i id) {id' : Nat} (h' : Stands s fd k id') :
    i = k ∧ id = id' := by
  have he := Option.some.inj (Eq.trans (Eq.symm h) h')
  exact ⟨Fin.ext (FileKind.tty.inj (congrArg File.kind he)), congrArg File.id he⟩

theorem shut_iff (s : Sys) (i : Fin 32) : s.Shut i.val ↔ ∀ fd id, ¬Stands s fd i id := by
  constructor
  · intro h fd id hs
    exact h fd _ hs rfl
  · intro h fd f hf hk
    apply h fd f.id
    rw [Stands, hf, ← hk]

structure Sound (c : Nm32a.Cfg) (j : Whole) : Prop where
  wf : j.sys.Wf
  calm : Calm c j.dev.card j.dev.call
  one : ∀ i fd fd' id id', Stands j.sys fd i id → Stands j.sys fd' i id' → fd = fd'
  unused : ∀ i, j.sys.Shut i.val → j.dev.users i = 0
  used : ∀ i fd id, Stands j.sys fd i id → j.dev.users i = 1
  fit : ∀ i fd id, Stands j.sys fd i id → Fit c i j.dev.card j.dev.call ∧
    typed (j.dev.card.line i) = taken (j.sys.put id)

/-! ## one step -/

theorem sound_stable (hc : Private c) : Stable (joint c) (Sound c) := by
  intro j j' h hr
  obtain ⟨hs, hu, hd⟩ := hr
  refine ⟨hs ▸ h.wf, h.calm.drives hc hd, ?_, ?_, ?_, ?_⟩
  · rw [hs]
    exact h.one
  · rw [hs, hu]
    exact h.unused
  · rw [hs, hu]
    exact h.used
  · rw [hs]
    intro i fd id hst
    obtain ⟨hf, ht⟩ := h.fit i fd id hst
    obtain ⟨hf', hp⟩ := hf.drives hc hd
    exact ⟨hf', (typed_prods hp).trans ht⟩

/-- the device is left alone, and so is every tty -/
theorem Sound.same (h : Sound c j) (hwf : j'.sys.Wf) (hd : j'.dev = j.dev)
    (hst : ∀ i fd id, Stands j'.sys fd i id ↔ Stands j.sys fd i id)
    (hput : ∀ i fd id, Stands j.sys fd i id → j'.sys.put id = j.sys.put id) : Sound c j' := by
  refine ⟨hwf, hd ▸ h.calm, fun i fd fd' id id' h1 h2 => ?_, fun i hi => ?_, fun i fd id h1 => ?_,
    fun i fd id h1 => ?_⟩
  · exact h.one i fd fd' id id' ((hst _ _ _).mp h1) ((hst _ _ _).mp h2)
  · rw [hd]
    apply h.unused i
    rw [shut_iff] at hi ⊢
    exact fun fd id h1 => hi fd id ((hst _ _ _).mpr h1)
  · rw [hd]
    exact h.used i fd id ((hst _ _ _).mp h1)
  · have h1 := (hst _ _ _).mp h1
    rw [hd, hput i fd id h1]
    exact h.fit i fd id h1

/-- calls that neither open nor close nor write -/
def Op.Looks : Op → Prop
  | .socket => False
  | .accept _ => False
  | .openTty _ => False
  | .tcsendbreak _ => False
  | .close _ => False
  | .write _ _ => False
  | _ => True

theorem looks_access {o : Op} {r : Res o} (ho : Op.Looks o) (ha : s.access o r s') :
    s'.files = s.files ∧ s'.put = s.put := by
  have hsame : s' = s → s'.files = s.files ∧ s'.put = s.put := by
    intro h
    rw [h]
    exact ⟨rfl, rfl⟩
  cases o with
  | select nfds want =>
    cases r with
    | ready r =>
      obtain ⟨_, rfl⟩ := ha
      exact ⟨rfl, rfl⟩
    | _ => exact hsame ha
  | read fd len =>
    cases r with
    | none => exact hsame ha
    | some bs =>
      obtain ⟨_, rfl⟩ : bs.length ≤ len ∧ s' = s.logGot fd bs := ha
      unfold Sys.logGot
      split <;> exact ⟨rfl, rfl⟩
  | socket => exact False.elim ho
  | accept _ => exact False.elim ho
  | openTty _ => exact False.elim ho
  | tcsendbreak _ => exact False.elim ho
  | close _ => exact False.elim ho
  | write _ _ => exact False.elim ho
  | _ => exact hsame ha

theorem stands_update {f : Option File} (hf : s'.files = Function.update s.files fd f)
    {x : Nat} (hx : x ≠ fd) : Stands s' x i id ↔ Stands s x i id := by
  unfold Stands
  rw [hf, Function.update_of_ne hx]

/-- a number that stood for no tty stands for no tty -/
theorem stands_other {f : Option File} (hf : s'.files = Function.update s.files fd f)
    (h0 : ttyAt s fd = none) (h1 : ∀ g, f = some g → portOf g.kind = none) (i : Fin 32)
    (x id : Nat) : Stands s' x i id ↔ Stands s x i id := by
  by_cases hx : x = fd
  · subst hx
    constructor
    · intro h
      unfold Stands at h
      rw [hf, Function.update_self] at h
      have := h1 _ h
      rw [portOf_tty] at this
      cases this
    · intro h
      rw [h.ttyAt] at h0
      cases h0
  · exact stands_update hf hx

theorem ttyAt_free (h : s.files fd = none) : ttyAt s fd = none := by
  unfold ttyAt
  rw [h]
  rfl

/-- another file than those of the ttys -/
theorem Sound.install (h : Sound c j) (hwf : j'.sys.Wf) (hd : j'.dev = j.dev) {kind : FileKind}
    (hk : portOf kind = none) (hfree : j.sys.files fd = none)
    (hf : j'.sys.files = Function.update j.sys.files fd (some ⟨j.sys.fresh, kind⟩))
    (hp : j'.sys.put = j.sys.put) : Sound c j' := by
  refine h.same hwf hd (stands_other hf (ttyAt_free hfree) ?_) fun _ _ _ _ => by rw [hp]
  intro g hg
  rw [← Option.some.inj hg]
  exact hk

theorem Sound.close (h : Sound c j) (hwf : j'.sys.Wf)
    (hf : j'.sys.files = Function.update j.sys.files fd none) (hp : j'.sys.put = j.sys.put)
    (hd : j.dev.Touch c j.sys (.close fd) () j'.dev) : Sound c j' := by
  cases ht : ttyAt j.sys fd with
  | none =>
    simp only [Dev.Touch, ht] at hd
    apply h.same hwf hd (stands_other hf ht ?_) fun _ _ _ _ => by rw [hp]
    intro g hg
    cases hg
  | some i =>
    simp only [Dev.Touch, ht] at hd
    obtain ⟨id0, h0⟩ := ttyAt_some ht
    have hst : ∀ k x id, Stands j'.sys x k id → Stands j.sys x k id ∧ k ≠ i := by
      intro k x id hs
      have hx : x ≠ fd := by
        intro hx
        unfold Stands at hs
        rw [hx, hf, Function.update_self] at hs
        cases hs
      have hs' := (stands_update hf hx).mp hs
      refine ⟨hs', fun hk => ?_⟩
      subst hk
      exact hx (h.one k x fd id id0 hs' h0)
    have hcard : j'.dev.card = j.dev.card := by rw [hd]
    have hcall : j'.dev.call = j.dev.call := by rw [hd]
    have hu : ∀ k, k ≠ i → j'.dev.users k = j.dev.users k := by
      intro k hk
      rw [hd]
      exact Function.update_of_ne hk ..
    refine ⟨hwf, by rw [hcard, hcall]; exact h.calm, fun k x x' id id' h1 h2 => ?_, fun k hk => ?_,
      fun k x id h1 => ?_, fun k x id h1 => ?_⟩
    · exact h.one k x x' id id' (hst _ _ _ h1).1 (hst _ _ _ h2).1
    · by_cases hki : k = i
      · rw [hki, hd]
        show Function.update j.dev.users i (j.dev.users i - 1) i = 0
        rw [Function.update_self, h.used i fd id0 h0]
      · rw [hu k hki]
        apply h.unused k
        rw [shut_iff] at hk ⊢
        intro x id hs
        apply hk x id
        have hx : x ≠ fd := by
          intro hx
          subst hx
          exact hki (hs.port h0).1
        exact (stands_update hf hx).mpr hs
    · obtain ⟨h1, hki⟩ := hst _ _ _ h1
      rw [hu k hki]
      exact h.used k x id h1
    · obtain ⟨h1, _⟩ := hst _ _ _ h1
      rw [hcard, hcall, hp]
      exact h.fit k x id h1

/-- a tty that was shut is opened -/
theorem Sound.opened (hc : Private c) (h : Sound c j) (hwf : j'.sys.Wf)
    (hshut : j.sys.Shut i.val) (hfree : j.sys.files fd = none)
    (hf : j'.sys.files = Function.update j.sys.files fd (some ⟨j.sys.fresh, .tty i.val⟩))
    (hp : j'.sys.put = j.sys.put) (hd : Opens c i j.dev (some fd) j'.dev) : Sound c j' := by
  obtain ⟨hu, hup⟩ := hd
  rw [if_pos (h.unused i hshut)] at hup
  obtain ⟨hret, hret', turns, rate, tr, hrun⟩ := hup
  have hcalm : Calm c j.dev.card (.ret ()) := hret ▸ h.calm
  obtain ⟨hlevel, hprods⟩ := activated hc hcalm hrun
  have hst : ∀ k x id, Stands j'.sys x k id →
      (x = fd ∧ k = i ∧ id = j.sys.fresh) ∨ (x ≠ fd ∧ k ≠ i ∧ Stands j.sys x k id) := by
    intro k x id hs
    by_cases hx : x = fd
    · subst hx
      have hnew : Stands j'.sys x i j.sys.fresh := by
        rw [Stands, hf, Function.update_self]
      obtain ⟨hk, hid⟩ := hs.port hnew
      exact .inl ⟨rfl, hk, hid⟩
    · have hs' := (stands_update hf hx).mp hs
      refine .inr ⟨hx, fun hk => ?_, hs'⟩
      subst hk
      exact (shut_iff _ _).mp hshut x id hs'
  refine ⟨hwf, ?_, fun k x x' id id' h1 h2 => ?_, fun k hk => ?_, fun k x id h1 => ?_,
    fun k x id h1 => ?_⟩
  · rw [hret']
    exact hcalm.activate hc hrun
  · rcases hst k x id h1 with ⟨hx, hk, _⟩ | ⟨_, hk, h1⟩
    · rcases hst k x' id' h2 with ⟨hx', _, _⟩ | ⟨_, hk', _⟩
      · rw [hx, hx']
      · exact absurd hk hk'
    · rcases hst k x' id' h2 with ⟨_, hk', _⟩ | ⟨_, _, h2⟩
      · exact absurd hk' hk
      · exact h.one k x x' id id' h1 h2
  · have hki : k ≠ i := by
      intro hki
      subst hki
      apply (shut_iff _ _).mp hk fd j.sys.fresh
      rw [Stands, hf, Function.update_self]
    rw [hu, Function.update_of_ne hki]
    apply h.unused k
    rw [shut_iff] at hk ⊢
    intro x id hs
    have hx : x ≠ fd := by
      intro hx
      subst hx
      unfold Stands at hs
      rw [hfree] at hs
      cases hs
    exact hk x id ((stands_update hf hx).mpr hs)
  · rcases hst k x id h1 with ⟨_, hk, _⟩ | ⟨_, hk, h1⟩
    · rw [hu, hk, Function.update_self, h.unused i hshut]
    · rw [hu, Function.update_of_ne hk]
      exact h.used k x id h1
  · rcases hst k x id h1 with ⟨_, hk, hid⟩ | ⟨_, hk, h1⟩
    · subst hk
      rw [hret', hp, hid, (h.wf.logs _ (Nat.le_refl _)).2]
      refine ⟨.idle hlevel, ?_⟩
      unfold typed Nm32a.Line.tokens
      rw [hprods]
      rfl
    · obtain ⟨hfit, ht⟩ := h.fit k x id h1
      rw [hret] at hfit
      obtain ⟨hfit', hpr⟩ := hfit.activate hc hk.symm hrun
      rw [hret', hp]
      exact ⟨hfit', (typed_prods hpr).trans ht⟩

/-- the driver refuses, or is not asked -/
theorem Sound.refused (hc : Private c) (h : Sound c j) (hs : j'.sys = j.sys)
    (hd : Opens c i j.dev none j'.dev) : Sound c j' := by
  rcases hd with hd | ⟨hu, h0, rc, hrc, hret, hret', turns, rate, tr, hrun⟩
  · exact h.same (hs ▸ h.wf) hd (fun _ _ _ => by rw [hs]) fun _ _ _ _ => by rw [hs]
  · have hcalm : Calm c j.dev.card (.ret ()) := hret ▸ h.calm
    refine ⟨hs ▸ h.wf, ?_, ?_, ?_, ?_, ?_⟩
    · rw [hret']
      exact hcalm.activate hc hrun
    · rw [hs]
      exact h.one
    · rw [hs, hu]
      exact h.unused
    · rw [hs, hu]
      exact h.used
    · rw [hs]
      intro k x id h1
      have hk : i ≠ k := by
        intro hk
        subst hk
        have := h.used i x id h1
        omega
      obtain ⟨hfit, ht⟩ := h.fit k x id h1
      rw [hret] at hfit
      obtain ⟨hfit', hpr⟩ := hfit.activate hc hk hrun
      rw [hret']
      exact ⟨hfit', (typed_prods hpr).trans ht⟩

/-- the card moved on, and the descriptors are as they were -/
theorem Sound.moved (h : Sound c j) (hwf : j'.sys.Wf) (hf : j'.sys.files = j.sys.files)
    (hu : j'.dev.users = j.dev.users) (hcalm : Calm c j'.dev.card j'.dev.call)
    (hfit : ∀ k x id, Stands j.sys x k id → Fit c k j'.dev.card j'.dev.call ∧
      typed (j'.dev.card.line k) = taken (j'.sys.put id)) : Sound c j' := by
  have hst : ∀ x k id, Stands j'.sys x k id ↔ Stands j.sys x k id := by
    intro x k id
    unfold Stands
    rw [hf]
  refine ⟨hwf, hcalm, fun k x x' id id' h1 h2 => ?_, fun k hk => ?_, fun k x id h1 => ?_,
    fun k x id h1 => hfit k x id ((hst _ _ _).mp h1)⟩
  · exact h.one k x x' id id' ((hst _ _ _).mp h1) ((hst _ _ _).mp h2)
  · rw [hu]
    apply h.unused k
    rw [shut_iff] at hk ⊢
    exact fun x id h1 => hk x id ((hst _ _ _).mpr h1)
  · rw [hu]
    exact h.used k x id ((hst _ _ _).mp h1)

theorem taken_concat (ws : List (List UInt8 × Nat)) (bs : List UInt8) (n : Nat) :
    taken (ws ++ [(bs, n)]) = taken ws ++ bs.take n := by
  unfold taken
  rw [List.flatMap_append, List.flatMap_singleton]

/-- a `write` on a tty -/
theorem Sound.wrote (hc : Private c) (h : Sound c j) (hwf : j'.sys.Wf) {bs : List UInt8} {n : Nat}
    (hs : Stands j.sys fd i id) (hsys : j'.sys = j.sys.logPut fd bs n)
    (hu : j'.dev.users = j.dev.users)
    (hw : Writes c i j.dev.card j.dev.call bs n j'.dev.card j'.dev.call) : Sound c j' := by
  have hput : j.sys.logPut fd bs n = _ := Sys.logPut_eq hs
  apply h.moved hwf (by rw [hsys, hput]) hu (hw.calm hc h.calm)
  intro k x id' h1
  obtain ⟨hfit, ht⟩ := h.fit k x id' h1
  obtain ⟨hfit', hpr⟩ := hw.fit hc hfit
  refine ⟨hfit', ?_⟩
  rw [hsys, hput]
  show _ = taken (Function.update j.sys.put id (j.sys.put id ++ [(bs, n)]) id')
  by_cases hk : k = i
  · subst hk
    obtain rfl := h.one k x fd id' id h1 hs
    obtain ⟨_, rfl⟩ := h1.port hs
    rw [Function.update_self, taken_concat, ← ht]
    exact (hw.wrote hc hfit).typed
  · have hid : id' ≠ id := by
      intro hid
      obtain rfl := h.wf.inj x fd _ _ h1 hs hid
      exact hk (h1.port hs).1
    rw [Function.update_of_ne hid, ← ht]
    exact typed_prods (hpr hk)

/-- a `write` on anything else -/
theorem Sound.said (h : Sound c j) (hwf : j'.sys.Wf) {bs : List UInt8} {n : Nat}
    (ht : ttyAt j.sys fd = none) (hsys : j'.sys = j.sys.logPut fd bs n) (hd : j'.dev = j.dev) :
    Sound c j' := by
  cases hf : j.sys.files fd with
  | none =>
    have hs : j'.sys = j.sys := by
      rw [hsys]
      unfold Sys.logPut
      rw [hf]
    exact h.same hwf hd (fun _ _ _ => by rw [hs]) fun _ _ _ _ => by rw [hs]
  | some f =>
    have hput : j.sys.logPut fd bs n = _ := Sys.logPut_eq hf
    refine h.same hwf hd (fun k x id' => ?_) fun k x id' h1 => ?_
    · unfold Stands
      rw [hsys, hput]
    · have hid : id' ≠ f.id := by
        intro hid
        obtain rfl := h.wf.inj x fd _ _ h1 hf hid
        rw [h1.ttyAt] at ht
        cases ht
      rw [hsys, hput]
      exact Function.update_of_ne hid ..

theorem wrote_cases (bs : List UInt8) (n : Nat) :
    (wrote bs n = none ∧ n = 0) ∨ wrote bs n = some n := by
  unfold wrote
  by_cases h : n = 0 ∧ bs ≠ []
  · rw [if_pos h]
    exact .inl ⟨rfl, h.1⟩
  · rw [if_neg h]
    exact .inr rfl

/-- **Every call of the server keeps all of it**, as long as it opens no tty twice. -/
theorem sound_access (hc : Private c) (h : Sound c j) {o : Op} {r : Res o}
    (ho : Sole ⟨j.sys, o, r, j'.sys⟩) (ha : (joint c).access j o r j') : Sound c j' := by
  obtain ⟨hsys, hd⟩ := ha
  have hwf := access_wf h.wf hsys
  have hsame : j'.sys = j.sys → j'.dev = j.dev → Sound c j' := fun hs hd =>
    h.same hwf hd (fun _ _ _ => by rw [hs]) fun _ _ _ _ => by rw [hs]
  have hlooks : Op.Looks o → j'.dev = j.dev → Sound c j' := by
    intro hl hd
    obtain ⟨hf, hp⟩ := looks_access hl hsys
    refine h.same hwf hd (fun _ _ _ => ?_) fun _ _ _ _ => by rw [hp]
    unfold Stands
    rw [hf]
  cases o with
  | socket =>
    cases r with
    | none => exact hsame hsys hd
    | some fd =>
      obtain ⟨hlow, hs⟩ : j.sys.Lowest fd ∧ j'.sys = j.sys.install fd .sock := hsys
      exact h.install hwf hd rfl hlow.1 (by rw [hs]; rfl) (by rw [hs]; rfl)
  | accept l =>
    cases r with
    | none => exact hsame hsys hd
    | some fd =>
      obtain ⟨hlow, hs⟩ : j.sys.Lowest fd ∧
        j'.sys = { j.sys.install fd .conn with accepted := some fd } := hsys
      exact h.install hwf hd rfl hlow.1 (by rw [hs]; rfl) (by rw [hs]; rfl)
  | openTty n =>
    obtain ⟨hn, hshut⟩ := ho n rfl
    have hp : portOf (.tty n) = some ⟨n, hn⟩ := portOf_tty ⟨n, hn⟩
    simp only [Dev.Touch, hp] at hd
    cases r with
    | none => exact h.refused hc hsys hd
    | some fd =>
      obtain ⟨hlow, hs⟩ := hsys
      exact h.opened (i := ⟨n, hn⟩) hc hwf hshut hlow.1 (by rw [hs]; rfl) (by rw [hs]; rfl) hd
  | close fd =>
    replace hsys : j'.sys = { j.sys with files := Function.update j.sys.files fd none } := hsys
    exact h.close hwf (by rw [hsys]) (by rw [hsys]) hd
  | tcsendbreak fd =>
    cases ht : ttyAt j.sys fd with
    | none =>
      simp only [Dev.Touch, ht] at hd
      exact hsame hsys hd
    | some i =>
      simp only [Dev.Touch, ht] at hd
      obtain ⟨hu, hb⟩ := hd
      replace hsys : j'.sys = j.sys := hsys
      apply h.moved hwf (by rw [hsys]) hu (hb.calm hc h.calm)
      intro k x id h1
      obtain ⟨hfit, ht⟩ := h.fit k x id h1
      obtain ⟨hfit', ht'⟩ := hb.fit hc hfit
      rw [hsys]
      exact ⟨hfit', ht'.trans ht⟩
  | write fd bs =>
    have hput : ∀ n, r = wrote bs n → j'.sys = j.sys.logPut fd bs n := by
      intro n hr
      rcases wrote_cases bs n with ⟨h1, h2⟩ | h1
      · rw [hr, h1] at hsys
        rw [h2]
        exact hsys
      · rw [hr, h1] at hsys
        exact hsys.2
    cases ht : ttyAt j.sys fd with
    | none =>
      simp only [Dev.Touch, ht] at hd
      cases r with
      | none => exact h.said hwf ht hsys hd
      | some n => exact h.said hwf ht hsys.2 hd
    | some i =>
      simp only [Dev.Touch, ht] at hd
      obtain ⟨hu, n, hr, hw⟩ := hd
      obtain ⟨id, hst⟩ := ttyAt_some ht
      exact h.wrote hc hwf hst (hput n hr) hu hw
  | _ => exact hlooks trivial hd

/-- a `write` on a tty that took less than it was given has found the ring full -/
def Full (e : Event Op Res Whole) : Prop :=
  match e with
  | ⟨j, .write fd bs, r, j'⟩ => ∀ i, ttyAt j.sys fd = some i → Option.getD r 0 < bs.length →
      Nm32a.nm32aTxSpace (j'.dev.card.line i).np < 2
  | _ => True

theorem full_access (hc : Private c) (h : Sound c j) {o : Op} {r : Res o}
    (ha : (joint c).access j o r j') : Full ⟨j, o, r, j'⟩ := by
  cases o with
  | write fd bs =>
    intro i ht hlt
    have hd := ha.2
    simp only [Dev.Touch, ht] at hd
    obtain ⟨_, n, hr, hw⟩ := hd
    obtain ⟨id, hst⟩ := ttyAt_some ht
    have hn : Option.getD (wrote bs n) 0 = n := by
      rcases wrote_cases bs n with ⟨h1, h2⟩ | h1
      · rw [h1, h2]
        rfl
      · rw [h1]
        rfl
    apply (hw.wrote hc (h.fit i fd id hst).1).full
    rw [hr, hn] at hlt
    exact hlt
  | _ => trivial

theorem plain_typed {ts : List Nm32a.Token} (h : ∀ t ∈ ts, t.Plain) :
    Nm32a.tokenBytes ts = ts.filterMap charOf := by
  induction ts with
  | nil => rfl
  | cons t ts ih =>
    have ht := h t (List.mem_cons_self ..)
    have ih := ih fun u hu => h u (List.mem_cons_of_mem _ hu)
    cases t with
    | data b hb =>
      rw [Nm32a.tokenBytes_cons, ih, List.filterMap_cons]
      rfl
    | _ => exact False.elim ht

/-! ## runs -/

/-- the server is about to start, and nothing is open -/
structure Start (j : Whole) : Prop where
  sys : j.sys.Start
  shut : ∀ n, j.sys.Shut n
  users : ∀ i, j.dev.users i = 0
  closed : j.dev.card.Closed
  idle : j.dev.call = .ret ()

theorem Start.sound (h : Start j) : Sound c j := by
  have hno : ∀ fd i id, ¬Stands j.sys fd i id := fun fd i id => (shut_iff _ _).mp (h.shut _) fd id
  refine ⟨h.sys.wf, ?_, fun i fd _ id _ h1 => absurd h1 (hno fd i id), fun i _ => h.users i,
    fun i fd id h1 => absurd h1 (hno fd i id), fun i fd id h1 => absurd h1 (hno fd i id)⟩
  rw [h.idle]
  exact h.closed

/-- what becomes of what a client sends: it is offered to the tty, what the tty takes is typed on
the port, and the wire carries the front of that, with NULs and breaks as the driver writes them -/
structure Wired (conf : Conf) (j : Whole) (i : Fin 32) (client tty : Nat) : Prop where
  asked : offered (j.sys.put tty) = j.sys.wanted conf client
  typed : typed (j.dev.card.line i) = taken (j.sys.put tty)
  sofar : Nm32a.onWire i j.dev.card <+:
    (Nm32a.tokenBytes (j.dev.card.line i).tokens).map .char
  drained : (j.dev.card.line i).np.queue = [] → Nm32a.onWire i j.dev.card =
    (Nm32a.tokenBytes (j.dev.card.line i).tokens).map .char
  plain : (∀ t ∈ (j.dev.card.line i).tokens, t.Plain) → Stalls (j.sys.put tty) →
    Nm32a.onWire i j.dev.card <+: (j.sys.wanted conf client).map .char

/-- a session whose tty is in order -/
theorem Sound.wired {conf : Conf} (h : Sound c j) {client : Nat} (hst : Stands j.sys fd i id)
    (hdue : offered (j.sys.put id) = j.sys.wanted conf client) : Wired conf j i client id := by
  obtain ⟨hfit, ht⟩ := h.fit i fd id hst
  have hwire := hfit.literal.onWire
  have hsofar : Nm32a.onWire i j.dev.card <+:
      (Nm32a.tokenBytes (j.dev.card.line i).tokens).map .char := by
    rw [hwire]
    exact hfit.intact.sofar.map _
  refine ⟨hdue, ht, hsofar, fun hq => ?_, fun hplain hstall => ?_⟩
  · rw [hwire, hfit.intact.drained hq]
  · rw [plain_typed hplain] at hsofar
    have hwhole := (unbroken_iff (h.wf.fits id)).mpr hstall
    have hfront := Unbroken.taken_prefix (h.wf.fits id) hwhole
    rw [hdue, ← ht] at hfront
    exact hsofar.trans (hfront.map _)

/-- **What a client sends reaches the wire of its port, in order, and is lost to a full ring only.**
-/
theorem typed_reaches_wire (c : Nm32a.Cfg) (hc : Private c) (conf : Conf) (n : Nat) (j j' : Whole)
    (hj : Start j) (tr : List (Event Op Res Whole)) (ps : Ports)
    (h : Runs (joint c) (nmMain conf n) j tr (some ps) j') :
    (∀ e ∈ tr, Full e) ∧ ∀ i ∈ conf.indices, ∀ (cl t : Nat) (fc ft : File),
      (ps i).clientFd = some cl → (ps i).ttyFd = some t → j'.sys.files cl = some fc →
        j'.sys.files t = some ft → Wired conf j' i fc.id ft.id := by
  have hrun : Runs posix (nmMain conf n) j.sys (tr.map (Event.map Whole.sys)) (some ps) j'.sys :=
    Exec.map (joint_maps c) h
  obtain ⟨hsole, hledger⟩ := wp_runs (wp_nmMain_sole conf n hj.sys hj.shut) hrun
  have hhead : Head posix conf ps j'.sys :=
    (wp_runs (wp_nmMain posix.le_refl conf n hj.sys) hrun).2
  have hstep : ∀ e ∈ tr, Sound c e.pre → Sound c e.post := fun e he hs =>
    sound_access hc hs (hsole _ (List.mem_map_of_mem he)).2 (h.mem_access e he)
  obtain ⟨hpre, hend⟩ := h.chain (sound_stable hc) hstep hj.sound
  refine ⟨fun e he => full_access hc (hpre e he) (h.mem_access e he), ?_⟩
  intro i hi cl t fc ft hcl ht hfc hft
  obtain ⟨L, hledger⟩ := hledger
  obtain ⟨t', fc', ft', ht', _, hft', _, hk, _⟩ := (hledger.live i hi).session cl hcl
  obtain rfl : t = t' := Option.some.inj (ht.symm.trans ht')
  obtain rfl : ft = ft' := Option.some.inj (hft.symm.trans hft')
  have hst : Stands j'.sys t i ft.id := by
    show j'.sys.files t = some ⟨ft.id, .tty i.val⟩
    rw [hft, ← hk]
  exact hend.wired hst ((hhead.table.session i hi).carried cl t fc ft hcl ht hfc hft)

/-- a client of port 1 sends `ab`, and the driver services the chip afterwards -/
def typeScript : Script where
  server := {
    select := fdSets [(8, [4]), (15, [5])]
    read := answers [(16, [0x61, 0x62])]
    write := fun _ => 1024 }
  card := cardScript 16
  service n := if n = 18 then some 0 else none

theorem startWhole_start : Start startWhole := by
  refine ⟨startSys_start, fun n fd f hf hk => ?_, fun _ => rfl, fun j => ?_, rfl⟩
  · replace hf : (if fd < 3 then some (⟨fd, .other⟩ : File) else none) = some f := hf
    split at hf
    · cases hf
      cases hk
    · cases hf
  · show (Nm32a.askingWorld.hw j).stack = []
    simp only [Nm32a.askingWorld, Nm32a.World.setChip, Function.update_apply]
    split <;> rfl

theorem typed_reaches_wire_ab : ∃ tr ps j,
    Runs (joint quietCard) (nmMain twoPorts 3) startWhole tr (some ps) j ∧
      (ps 1).clientFd = some 5 ∧ (ps 1).ttyFd = some 6 ∧
      Nm32a.onWire 1 j.dev.card = [.char 0x61, .char 0x62] ∧ Wired twoPorts j 1 5 6 := by
  have hres : ((typeScript.policy.play 0 (nmMain twoPorts 3) startWhole).2.2.result.map
      (Option.map fun ps => ((ps 1).clientFd, (ps 1).ttyFd))) = some (some (some 5, some 6)) := by
    decide +kernel
  obtain ⟨res, hr, he⟩ := Option.map_eq_some_iff.mp hres
  obtain ⟨ps, rfl, hfds⟩ := Option.map_eq_some_iff.mp he
  obtain ⟨hc, ht⟩ := Prod.mk.inj hfds
  have hx := typeScript.policy.play_runs 0 (nmMain twoPorts 3) startWhole hr
  refine ⟨_, ps, _, hx, hc, ht, by decide +kernel, ?_⟩
  exact (typed_reaches_wire quietCard quietCard_private twoPorts 3 startWhole _ startWhole_start _
    ps hx).2 1 (by decide) 5 6 ⟨5, .conn⟩ ⟨6, .tty 1⟩ hc ht (by decide +kernel) (by decide +kernel)

end Console
