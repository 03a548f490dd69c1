import Relicnos.Pci.Access

/-!
# A narrow write and the bytes beside it

A write of one or two bytes writes the whole dword back.  A byte beside it keeps its value, unless
its ones clear when they are written: then it is cleared.

* `after_beside`         what happens to the bytes beside a write;
* `narrow_write_frame`   they all stay exactly if nothing was pending in them.
-/

set_option linter.unusedVariables false

namespace Pci

open Interact

/-- writing back what was read -/
theorem Cell.write_val (c : Cell) : c.write c.val = c ↔ (c.attr = .w1c → c.val = 0) := by
  obtain ⟨attr, val⟩ := c
  cases attr with
  | rw => exact ⟨fun _ h => Attr.noConfusion h, fun _ => rfl⟩
  | ro => exact ⟨fun _ h => Attr.noConfusion h, fun _ => rfl⟩
  | w1c =>
    show (Cell.mk .w1c (val &&& ~~~val) = ⟨.w1c, val⟩) ↔ _
    rw [UInt8.and_not_self, Cell.mk.injEq]
    exact ⟨fun h _ => h.2.symm, fun h => ⟨rfl, (h rfl).symm⟩⟩

/-- the bytes of the dword outside the addressed ones -/
def Beside (bus : UInt8) (devfn pos : UInt32) (size : Nat) (l : Loc) : Prop :=
  l.bus = bus.toNat ∧ l.dev = (pciSlot devfn).toNat ∧ l.fn = (pciFunc devfn).toNat ∧
    l.off / 4 = pos.toNat % 256 / 4 ∧
    ¬ (pos.toNat % 256 ≤ l.off ∧ l.off < pos.toNat % 256 + size)

section
variable {b : Bridge} {devfn pos : UInt32} {size : Nat} {l : Loc}

/-- **A byte beside a write is written with its own value.** -/
theorem after_beside (val : UInt32) (h : Beside 0 devfn pos size l) :
    (b.after devfn pos size val).space l = (b.space l).write (b.space l).val := by
  obtain ⟨hbus, hdev, hfn, hoff, hout⟩ := h
  have hin : l.InDword (at0 devfn (pos.toNat / 4 % 64 * 4)) := by
    refine ⟨hbus, hdev, hfn, ?_, ?_⟩
    · show pos.toNat / 4 % 64 * 4 ≤ l.off
      omega
    · show l.off < pos.toNat / 4 % 64 * 4 + 4
      omega
  show (if l.InDword _ then (b.space l).write (b.written pos size val l) else b.space l) = _
  rw [if_pos hin]
  unfold Bridge.written
  rw [if_neg hout]

/-- nothing is written on another bus -/
theorem c2811PciWrite_other {bus : UInt8} (val : UInt32) (h : bus ≠ 0) :
    (c2811PciWrite bus devfn pos size val).run b = (pcibiosDeviceNotFound, b) := by
  unfold c2811PciWrite
  rw [run_next (c2811PciAddr_other devfn pos b h)]
  rfl

end

/-- **A narrow write leaves the bytes beside it alone exactly if no byte that clears on ones was
pending among them.** -/
theorem narrow_write_frame (b : Bridge) (bus : UInt8) (devfn pos val : UInt32) (size : Nat)
    (hsize : size = 1 ∨ size = 2) (halign : pos.toNat % size = 0) :
    (∀ l, Beside bus devfn pos size l →
        ((c2811PciWrite bus devfn pos size val).run b).2.space l = b.space l) ↔
      (bus = 0 → ∀ l, Beside bus devfn pos size l → (b.space l).attr = .w1c →
        (b.space l).val = 0) := by
  by_cases hbus : bus = 0
  · subst hbus
    have ha : Aligned pos size := by
      refine ⟨?_, halign⟩
      obtain rfl | rfl := hsize <;> decide
    rw [c2811PciWrite_run val ha]
    have hcell : ∀ l, Beside 0 devfn pos size l →
        ((b.after devfn pos size val).space l = b.space l ↔
          ((b.space l).attr = .w1c → (b.space l).val = 0)) := by
      intro l hl
      rw [after_beside val hl]
      exact Cell.write_val _
    constructor
    · intro h _ l hl
      exact (hcell l hl).mp (h l hl)
    · intro h l hl
      exact (hcell l hl).mpr (h rfl l hl)
  · rw [c2811PciWrite_other val hbus]
    exact ⟨fun _ h0 => absurd h0 hbus, fun _ _ _ => rfl⟩

/-- a card in slot 1 that has a master abort pending in its status register -/
def abortPending : Bridge where
  configAddr := 0
  space := fun l =>
    if l.off = 7 then ⟨.w1c, 0x20⟩ else if l.off = 6 then ⟨.w1c, 0⟩ else ⟨.rw, 0⟩
  regs := fun _ => 0

/-- the same card with nothing pending, and something in the upper byte of its command register -/
def nothingPending : Bridge where
  configAddr := 0
  space := fun l =>
    if l.off = 7 ∨ l.off = 6 then ⟨.w1c, 0⟩ else if l.off = 5 then ⟨.rw, 0x01⟩ else ⟨.rw, 0⟩
  regs := fun _ => 0

/-- writing byte 4 leaves the rest of the command register and the status register alone -/
theorem narrow_write_frame_calm :
    let b' := ((c2811PciWrite 0 8 4 1 0x06).run nothingPending).2
    b'.space ⟨0, 1, 0, 4⟩ = ⟨.rw, 0x06⟩ ∧ b'.space ⟨0, 1, 0, 5⟩ = ⟨.rw, 0x01⟩ ∧
      b'.space ⟨0, 1, 0, 7⟩ = ⟨.w1c, 0⟩ := by
  have hclear : ∀ l, (nothingPending.space l).attr = .w1c → (nothingPending.space l).val = 0 := by
    intro l
    unfold nothingPending
    dsimp only
    split
    · exact fun _ => rfl
    split
    · exact fun h => Attr.noConfusion h
    · exact fun h => Attr.noConfusion h
  have hframe := (narrow_write_frame nothingPending 0 8 4 0x06 1 (.inl rfl) (by decide)).mpr
    fun _ l _ => hclear l
  have hbeside : ∀ off, off / 4 = 1 → off ≠ 4 → Beside 0 8 4 1 ⟨0, 1, 0, off⟩ := by
    intro off hoff hne
    refine ⟨rfl, rfl, rfl, hoff, ?_⟩
    show ¬(4 ≤ off ∧ off < 4 + 1)
    omega
  exact ⟨by decide, hframe _ (hbeside 5 rfl (by decide)), hframe _ (hbeside 7 rfl (by decide))⟩

/-- writing the command register, bytes 4 and 5, clears the status register beside it -/
theorem command_write_clears_status : ¬ ∀ l, Beside 0 8 4 2 l →
    ((c2811PciWrite 0 8 4 2 0x0006).run abortPending).2.space l = abortPending.space l := by
  intro h
  have hl : Beside 0 8 4 2 ⟨0, 1, 0, 7⟩ := by
    refine ⟨rfl, rfl, rfl, rfl, ?_⟩
    decide
  have hafter : ((c2811PciWrite 0 8 4 2 0x0006).run abortPending).2.space ⟨0, 1, 0, 7⟩
      = ⟨.w1c, 0⟩ := by decide
  have hcontra := (h _ hl).symm.trans hafter
  exact absurd hcontra (by decide)

end Pci
