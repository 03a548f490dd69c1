import Relicnos.Console.Joint
import Relicnos.Nmconsole.Script

/-!
# Executing the server over a scripted card

A `Script` answers the calls of the server as `Nmconsole.Script` does, plays the driver calls that
they make against a scripted card, and has the driver service a chip before some of them.
-/

set_option linter.unusedVariables false

namespace Console
open Interact Nmconsole

/-- the FPGA picks the chip being serviced, and nobody but the server writes -/
def quietCard : Nm32a.Cfg := { Nm32a.ownChip with line := fun l l' => l' = l }

theorem quietCard_private : Private quietCard :=
  ⟨fun _ _ h => h, Nm32a.timely_ownChip, fun _ _ h => h⟩

/-- as many free transmit slots as `tftc` says -/
def cardScript (tftc : UInt8) : Nm32a.Script quietCard where
  inter _ w := w
  grants w := some w.serving
  good := true
  risr := 0x00
  tftc := tftc
  ok w := decide (w.par.eoiretry ≠ 0)
  rely n w h := by
    have hp : w.par.eoiretry ≠ 0 := of_decide_eq_true h
    have hr : quietCard.Ready w := ⟨hp, fun _ _ _ _ => trivial⟩
    exact hr.rely_refl fun _ => rfl
  pick w j h := Nm32a.picks_serving h
  eoirs := Nm32a.one_le_hundred

structure Script where
  server : Nmconsole.Script
  card : Nm32a.Script quietCard
  /-- the chip that is serviced before the `n`-th call -/
  service : Nat → Option (Fin 8)

namespace Script
variable (S : Script)

/-- a driver call is played to its end, if none is going on -/
def play {α : Type} (d : Dev) (p : Nm32a.Drv α) (good : α → Bool) : Option Dev :=
  match d.call with
  | .ret _ =>
    match (S.card.policy.play 0 p d.card).2.2.result with
    | some a =>
      if good a then some { d with card := (S.card.policy.play 0 p d.card).2.1 } else none
    | none => none
  | .op _ _ => none

theorem play_some {α : Type} {d d' : Dev} {p : Nm32a.Drv α} {good : α → Bool}
    (h : S.play d p good = some d') : d.call = .ret () ∧ ∃ a tr, good a = true ∧
      Runs quietCard.card p d.card tr a d'.card ∧ d' = { d with card := d'.card } := by
  unfold play at h
  cases hc : d.call with
  | ret u =>
    rw [hc] at h
    cases hr : (S.card.policy.play 0 p d.card).2.2.result with
    | none =>
      simp only [hr] at h
      cases h
    | some a =>
      simp only [hr] at h
      by_cases hg : good a = true
      · rw [if_pos hg] at h
        cases h
        exact ⟨rfl, a, _, hg, S.card.policy.play_runs 0 p d.card hr, rfl⟩
      · rw [if_neg hg] at h
        cases h
  | op o k =>
    rw [hc] at h
    cases h

def drive (n : Nat) (d : Dev) : Dev :=
  ((S.service n).bind fun chip =>
    S.play d (Nm32a.Call.prog (.service chip)) fun _ => true).getD d

theorem drive_drives (n : Nat) (d : Dev) : (S.drive n d).users = d.users ∧
    Drives quietCard d.card d.call (S.drive n d).card (S.drive n d).call := by
  unfold drive
  cases h : (S.service n).bind fun chip =>
    S.play d (Nm32a.Call.prog (.service chip)) fun _ => true with
  | none => exact ⟨rfl, .rest _ _⟩
  | some d' =>
    obtain ⟨chip, _, hp⟩ := Option.bind_eq_some_iff.mp h
    obtain ⟨hret, u, tr, _, hrun, hd⟩ := S.play_some hp
    show d'.users = d.users ∧ Drives quietCard d.card d.call d'.card d'.call
    have hcall : d'.call = .ret () := by
      rw [hd]
      exact hret
    refine ⟨by rw [hd], ?_⟩
    rw [hret, hcall]
    exact .next (.service chip) (fun _ h => h) (.steps hrun (.rest _ _))

/-- what becomes of the device -/
def touch (s : Sys) (d : Dev) : (o : Op) → Res o → Option Dev
  | .write fd bs, r => match ttyAt s fd with
    | some i =>
      if (d.card.line i).locked = false ∧ takes d.card i bs = bs.length ∧ bs ≠ [] ∧
          (show Option Nat from r) = some bs.length then
        some { d with card := serve d.card i (.write bs) }
      else none
    | none => some d
  | .tcsendbreak fd, _ => match ttyAt s fd with
    | some _ => none
    | none => some d
  | .openTty n, r => match portOf (.tty n) with
    | some i =>
      if d.users i = 0 ∧ (show Option Nat from r).isSome then
        (S.play d (Nm32a.nm32aPortActivate 1 i 9600) fun rc => rc == 0).map fun d' =>
          { d' with users := Function.update d.users i (d.users i + 1) }
      else none
    | none => some d
  | .close fd, _ => match ttyAt s fd with
    | some i => some { d with users := Function.update d.users i (d.users i - 1) }
    | none => some d
  | _, _ => some d

theorem touch_touch {s : Sys} {d d' : Dev} {o : Op} {r : Res o} (h : S.touch s d o r = some d') :
    d.Touch quietCard s o r d' := by
  cases o with
  | write fd bs =>
    cases ht : ttyAt s fd with
    | none =>
      simp only [touch, ht] at h
      simp only [Dev.Touch, ht]
      exact (Option.some.inj h).symm
    | some i =>
      simp only [touch, ht] at h
      simp only [Dev.Touch, ht]
      split at h
      · rename_i hok
        obtain ⟨hl, htakes, hne, hr⟩ := hok
        cases h
        refine ⟨rfl, bs.length, ?_, ?_⟩
        · have hlen : bs.length ≠ 0 := fun h0 => hne (List.length_eq_zero_iff.mp h0)
          unfold wrote
          rw [if_neg fun h => hlen h.1]
          exact hr
        · have hw : Writes quietCard i d.card d.call bs (takes d.card i bs + 0)
              (serve d.card i (.write bs)) d.call := by
            apply Writes.more hne (.rest _ _) hl
            · rw [htakes]
              exact fun h0 => hne (List.length_eq_zero_iff.mp h0)
            · rw [htakes, List.drop_length]
              exact .all _ _
          rw [Nat.add_zero, htakes] at hw
          exact hw
      · cases h
  | tcsendbreak fd =>
    cases ht : ttyAt s fd with
    | none =>
      simp only [touch, ht] at h
      simp only [Dev.Touch, ht]
      exact (Option.some.inj h).symm
    | some i =>
      simp only [touch, ht] at h
      cases h
  | openTty n =>
    cases hp : portOf (.tty n) with
    | none =>
      simp only [touch, hp] at h
      simp only [Dev.Touch, hp]
      exact (Option.some.inj h).symm
    | some i =>
      simp only [touch, hp] at h
      simp only [Dev.Touch, hp]
      split at h
      · rename_i hok
        obtain ⟨hu, hr⟩ := hok
        obtain ⟨fd, hfd⟩ := Option.isSome_iff_exists.mp hr
        obtain ⟨d1, hd1, rfl⟩ := Option.map_eq_some_iff.mp h
        obtain ⟨hret, rc, tr, hrc, hrun, hd⟩ := S.play_some hd1
        obtain rfl := beq_iff_eq.mp hrc
        obtain rfl : r = some fd := hfd
        refine ⟨rfl, ?_⟩
        rw [if_pos hu]
        refine ⟨hret, ?_, 1, 9600, tr, hrun⟩
        rw [hd]
        exact hret
      · cases h
  | close fd =>
    cases ht : ttyAt s fd with
    | none =>
      simp only [touch, ht] at h
      simp only [Dev.Touch, ht]
      exact (Option.some.inj h).symm
    | some i =>
      simp only [touch, ht] at h
      simp only [Dev.Touch, ht]
      exact (Option.some.inj h).symm
  | _ => exact (Option.some.inj h).symm

def policy : Policy (joint quietCard) where
  act n j o := (S.server.opAct n j.sys o).bind fun t =>
    (S.touch j.sys (S.drive n j.dev) o t.1).map fun d' =>
      (⟨j.sys, S.drive n j.dev⟩, t.1, ⟨t.2, d'⟩)
  sound n j o j1 r j2 h := by
    obtain ⟨t, ht, h⟩ := Option.bind_eq_some_iff.mp h
    obtain ⟨d', hd', he⟩ := Option.map_eq_some_iff.mp h
    cases he
    obtain ⟨hu, hd⟩ := S.drive_drives n j.dev
    exact ⟨⟨rfl, hu, hd⟩, S.server.opAct_access ht, S.touch_touch hd'⟩

end Script

/-! ## a system to start from -/

/-- channel 1 of chip 0 asks for data, and nothing is open -/
def startWhole : Whole where
  sys := startSys
  dev := { card := Nm32a.askingWorld, call := .ret (), users := fun _ => 0 }

end Console
