import Relicnos.Console.Meanwhile
import Relicnos.Nm32a.Room
import Relicnos.Nmconsole.Exclusive

/-!
# The server and the driver under it

`nmconsole` and the driver as one system: the server's calls act on its descriptors as before, and
the ones on a tty act on the card as well.  Between two calls the driver goes on.

What lies between the two is the tty layer: the first open of a tty brings its port up, a `write`
on a raw tty that does not block hands the driver what is left until the driver takes nothing more
of it, and a break is two calls of `break_ctl` with time between them.

* `Dev`     the card, what is left of the driver call going on, and who has which tty open;
* `joint`   the two as one environment for the server;
* `Full`    a `write` is cut short by a full ring only.
-/

set_option linter.unusedVariables false

namespace Console
open Interact Nmconsole

structure Dev where
  card : Nm32a.World
  call : Nm32a.Drv Unit
  /-- the count of opens of `struct tty_port` -/
  users : Fin 32 → Nat

structure Whole where
  sys : Sys
  dev : Dev

/-! ## the tty layer -/

/-- the port behind a file -/
def portOf : FileKind → Option (Fin 32)
  | .tty n => if h : n < 32 then some ⟨n, h⟩ else none
  | _ => none

def ttyAt (s : Sys) (fd : Nat) : Option (Fin 32) := (s.files fd).bind fun f => portOf f.kind

/-- how much of a buffer the driver takes at once -/
def takes (w : Nm32a.World) (i : Fin 32) (bs : List UInt8) : Nat :=
  (Nm32a.nm32aTtyWriteLocked (w.line i).np bs).2

/-- the loop of `n_tty_write` over what is left of a buffer -/
inductive Writes (c : Nm32a.Cfg) (i : Fin 32) :
    Nm32a.World → Nm32a.Drv Unit → List UInt8 → Nat → Nm32a.World → Nm32a.Drv Unit → Prop
  | all (w : Nm32a.World) (p : Nm32a.Drv Unit) : Writes c i w p [] 0 w p
  | full {w w' : Nm32a.World} {p p' : Nm32a.Drv Unit} {bs : List UInt8} : bs ≠ [] →
      Drives c w p w' p' → (w'.line i).locked = false → takes w' i bs = 0 →
      Writes c i w p bs 0 (serve w' i (.write bs)) p'
  | more {w w1 w' : Nm32a.World} {p p1 p' : Nm32a.Drv Unit} {bs : List UInt8} {n : Nat} :
      bs ≠ [] → Drives c w p w1 p1 → (w1.line i).locked = false → takes w1 i bs ≠ 0 →
      Writes c i (serve w1 i (.write bs)) p1 (bs.drop (takes w1 i bs)) n w' p' →
      Writes c i w p bs (takes w1 i bs + n) w' p'

/-- a break on port `i` -/
def Breaks (c : Nm32a.Cfg) (i : Fin 32) (w : Nm32a.World) (p : Nm32a.Drv Unit) (w' : Nm32a.World)
    (p' : Nm32a.Drv Unit) : Prop :=
  ∃ w1, (w.line i).locked = false ∧ Drives c (serve w i (.breakCtl (-1))) p w1 p' ∧
    (w1.line i).locked = false ∧ w' = serve w1 i (.breakCtl 0)

/-- the driver is asked to bring port `i` up, and answers `rc` -/
def Up (c : Nm32a.Cfg) (i : Fin 32) (rc : Int) (d d' : Dev) : Prop :=
  d.call = .ret () ∧ d'.call = .ret () ∧ ∃ turns rate tr,
    Runs c.card (Nm32a.nm32aPortActivate turns i rate) d.card tr rc d'.card

/-- an open of tty `i`; it may fail without the driver as well -/
def Opens (c : Nm32a.Cfg) (i : Fin 32) (d : Dev) : Option Nat → Dev → Prop
  | some _, d' => d'.users = Function.update d.users i (d.users i + 1) ∧
      if d.users i = 0 then Up c i 0 d d' else d'.card = d.card ∧ d'.call = d.call
  | none, d' => d' = d ∨ (d'.users = d.users ∧ d.users i = 0 ∧ ∃ rc, rc ≠ 0 ∧ Up c i rc d d')

/-- what a `write` answers that took `n` bytes -/
def wrote (bs : List UInt8) (n : Nat) : Option Nat := if n = 0 ∧ bs ≠ [] then none else some n

/-- what a call of the server does to the device -/
def Dev.Touch (c : Nm32a.Cfg) (s : Sys) (d : Dev) : (o : Op) → Res o → Dev → Prop
  | .write fd bs, r, d' => match ttyAt s fd with
    | some i => d'.users = d.users ∧
        ∃ n, r = wrote bs n ∧ Writes c i d.card d.call bs n d'.card d'.call
    | none => d' = d
  | .tcsendbreak fd, _, d' => match ttyAt s fd with
    | some i => d'.users = d.users ∧ Breaks c i d.card d.call d'.card d'.call
    | none => d' = d
  | .openTty n, r, d' => match portOf (.tty n) with
    | some i => Opens c i d r d'
    | none => d' = d
  | .close fd, _, d' => match ttyAt s fd with
    | some i => d' = { d with users := Function.update d.users i (d.users i - 1) }
    | none => d' = d
  | _, _, d' => d' = d

def joint (c : Nm32a.Cfg) : Env Op Res Whole where
  rely j j' := j'.sys = j.sys ∧ j'.dev.users = j.dev.users ∧
    Drives c j.dev.card j.dev.call j'.dev.card j'.dev.call
  access j o r j' := j.sys.access o r j'.sys ∧ j.dev.Touch c j.sys o r j'.dev

/-- the server does not see the difference -/
theorem joint_maps (c : Nm32a.Cfg) : (joint c).Maps Whole.sys posix :=
  ⟨fun _ _ h => h.1, fun _ _ _ _ h => h.1⟩

/-! ## what a write leaves behind -/

/-- the characters among the tokens -/
def charOf : Nm32a.Token → Option UInt8
  | .data b _ => some b
  | .nul => some 0
  | .start => none
  | .stop => none

/-- what was typed on a port since it was brought up -/
def typed (l : Nm32a.Line) : List UInt8 := l.tokens.filterMap charOf

theorem charOf_escape (b : UInt8) : charOf (Nm32a.escape b) = some b := by
  unfold Nm32a.escape
  split
  · rename_i h
    rw [h]
    rfl
  · rfl

theorem typed_escaped (bs : List UInt8) : (bs.map Nm32a.escape).filterMap charOf = bs := by
  rw [List.filterMap_map]
  have h : charOf ∘ Nm32a.escape = some := by
    funext b
    exact charOf_escape b
  rw [h, List.filterMap_some]

theorem typed_prods {l l' : Nm32a.Line} (h : l'.prods = l.prods) : typed l' = typed l := by
  unfold typed Nm32a.Line.tokens
  rw [h]

theorem typed_write (l : Nm32a.Line) (bs : List UInt8) :
    typed ((Nm32a.TtyCall.write bs).run l).1 =
      typed l ++ bs.take (Nm32a.nm32aTtyWriteLocked l.np bs).2 := by
  show (List.flatMap Nm32a.Prod.tokens (l.prods ++ [_])).filterMap charOf = _
  rw [List.flatMap_append, List.filterMap_append, List.flatMap_singleton]
  show typed l ++ ((bs.take _).map Nm32a.escape).filterMap charOf = _
  rw [typed_escaped]

theorem typed_break (l : Nm32a.Line) (state : Int) :
    typed ((Nm32a.TtyCall.breakCtl state).run l).1 = typed l := by
  show (List.flatMap Nm32a.Prod.tokens (l.prods ++ _)).filterMap charOf = _
  rw [List.flatMap_append, List.filterMap_append]
  have h : (List.flatMap Nm32a.Prod.tokens
      (if 2 ≤ Nm32a.nm32aTxSpace l.np then [Nm32a.Prod.brk (state ≠ 0)] else [])).filterMap charOf
      = [] := by
    by_cases hs : 2 ≤ Nm32a.nm32aTxSpace l.np
    · rw [if_pos hs, List.flatMap_singleton]
      by_cases hb : state = 0
      · simp [Nm32a.Prod.tokens, Nm32a.breakToken, hb, charOf]
      · simp [Nm32a.Prod.tokens, Nm32a.breakToken, hb, charOf]
    · rw [if_neg hs]
      rfl
  rw [h, List.append_nil]
  rfl

variable {c : Nm32a.Cfg} {w w' : Nm32a.World} {p p' : Nm32a.Drv Unit} {i k : Fin 32} {n : Nat}
  {bs : List UInt8}

/-- a byte is refused for lack of slots only -/
theorem refused {np : Nm32a.Port} (hne : bs ≠ []) (h : (Nm32a.nm32aTtyWriteLocked np bs).2 = 0) :
    (Nm32a.nm32aTtyWriteLocked np bs).1 = np ∧ Nm32a.nm32aTxSpace np < 2 := by
  cases bs with
  | nil => exact absurd rfl hne
  | cons b rest =>
    rw [Nm32a.nm32aTtyWriteLocked] at h ⊢
    by_cases hs : Nm32a.nm32aTxSpace np < if b ≠ 0 then 1 else 2
    · have hle : (if b ≠ 0 then 1 else 2) ≤ 2 := by
        split <;> omega
      rw [if_pos hs]
      exact ⟨rfl, by omega⟩
    · simp only [if_neg hs] at h
      exact absurd h (Nat.succ_ne_zero _)

theorem takes_le {i : Fin 32} (hf : Fit c i w p) (bs : List UInt8) : takes w i bs ≤ bs.length :=
  (Nm32a.nm32aTtyWriteLocked_queue ⟨hf.intact.head, hf.intact.tail⟩ bs).2.1

/-- what a `write` of `bs` on port `i` that took `n` bytes does to the port -/
structure Wrote (i : Fin 32) (bs : List UInt8) (n : Nat) (w w' : Nm32a.World) : Prop where
  typed : typed (w'.line i) = typed (w.line i) ++ bs.take n
  le : n ≤ bs.length
  full : n < bs.length → Nm32a.nm32aTxSpace (w'.line i).np < 2

/-- **The driver gets the front of the buffer that the caller is told it took, and the rest finds
the ring full.** -/
theorem Writes.wrote (hc : Private c) (hf : Fit c i w p) (h : Writes c i w p bs n w' p') :
    Wrote i bs n w w' := by
  induction h with
  | all w p => exact ⟨(List.append_nil _).symm, Nat.le_refl _, fun h => absurd h (Nat.lt_irrefl _)⟩
  | full hne hd hl h0 =>
    obtain ⟨_, hp⟩ := hf.drives hc hd
    obtain ⟨hnp, hspace⟩ := refused hne h0
    refine ⟨?_, Nat.zero_le _, fun _ => ?_⟩
    · rw [serve_self, typed_write, typed_prods hp]
      exact congrArg (fun k => _ ++ List.take k _) h0
    · rw [serve_self]
      show Nm32a.nm32aTxSpace (Nm32a.nm32aTtyWriteLocked _ _).1 < 2
      rw [hnp]
      exact hspace
  | @more w w1 w' p p1 p' bs n hne hd hl h0 _ ih =>
    obtain ⟨hf1, hp⟩ := hf.drives hc hd
    obtain ⟨h1, h2, h3⟩ := ih (hf1.serve (.write bs) hl)
    have hle := takes_le hf1 bs
    rw [List.length_drop] at h2 h3
    refine ⟨?_, by omega, fun h => h3 (by omega)⟩
    rw [h1, serve_self, typed_write, typed_prods hp, List.append_assoc, List.take_add]
    rfl

/-- a `write` on port `i` keeps every port in order, and leaves the others alone -/
theorem Writes.fit (hc : Private c) (hf : Fit c k w p) (h : Writes c i w p bs n w' p') :
    Fit c k w' p' ∧ (k ≠ i → (w'.line k).prods = (w.line k).prods) := by
  induction h with
  | all => exact ⟨hf, fun _ => rfl⟩
  | full hne hd hl h0 =>
    obtain ⟨hf1, hp⟩ := hf.drives hc hd
    refine ⟨hf1.serve _ hl, fun hk => ?_⟩
    rw [serve_other _ hk]
    exact hp
  | more hne hd hl h0 _ ih =>
    obtain ⟨hf1, hp⟩ := hf.drives hc hd
    obtain ⟨h2, h3⟩ := ih (hf1.serve _ hl)
    refine ⟨h2, fun hk => ?_⟩
    rw [h3 hk, serve_other _ hk]
    exact hp

theorem Writes.calm (hc : Private c) (hm : Calm c w p) (h : Writes c i w p bs n w' p') :
    Calm c w' p' := by
  induction h with
  | all => exact hm
  | full hne hd hl h0 => exact (hm.drives hc hd).serve _ hl
  | more hne hd hl h0 _ ih => exact ih ((hm.drives hc hd).serve _ hl)

/-- a break keeps every port in order, and types nothing -/
theorem Breaks.fit (hc : Private c) (hf : Fit c k w p) (h : Breaks c i w p w' p') :
    Fit c k w' p' ∧ typed (w'.line k) = typed (w.line k) := by
  obtain ⟨w1, hl, hd, hl1, rfl⟩ := h
  have hserve : ∀ (v : Nm32a.World) (state : Int),
      typed ((serve v i (.breakCtl state)).line k) = typed (v.line k) := by
    intro v state
    by_cases e : k = i
    · subst e
      rw [serve_self, typed_break]
    · rw [serve_other _ e]
  obtain ⟨hf1, hp⟩ := (hf.serve (.breakCtl (-1)) hl).drives hc hd
  refine ⟨hf1.serve _ hl1, ?_⟩
  rw [hserve, typed_prods hp, hserve]

theorem Breaks.calm (hc : Private c) (hm : Calm c w p) (h : Breaks c i w p w' p') :
    Calm c w' p' := by
  obtain ⟨w1, hl, hd, hl1, rfl⟩ := h
  exact ((hm.serve _ hl).drives hc hd).serve _ hl1

end Console
