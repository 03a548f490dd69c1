import Relicnos.Pci.Narrow

/-!
# The configuration space as a memory of bytes

* `Bytes.read`, `Bytes.write`   a memory of bytes, little-endian;
* `Access.refines`              one access of the driver is one of the memory;
* `config_refines`              and so is every sequence.
-/

set_option linter.unusedVariables false

namespace Pci

open Interact

/-! ## a memory of bytes -/

abbrev Bytes := Loc → UInt8

/-- the little-endian value of the `size` bytes from `off` on -/
def Bytes.read (m : Bytes) (devfn : UInt32) (off size : Nat) : UInt32 :=
  ofLanes fun k => if k < size then m (at0 devfn (off + k)) else 0

/-- the `size` bytes of the function `devfn` from `off` on are those of `val` -/
def Bytes.write (m : Bytes) (devfn : UInt32) (off size : Nat) (val : UInt32) : Bytes := fun l =>
  if l = at0 devfn l.off ∧ off ≤ l.off ∧ l.off < off + size then lane val (l.off - off) else m l

/-! ## sequences of accesses -/

inductive Access where
  | read (bus : UInt8) (devfn pos : UInt32) (size : Nat)
  | write (bus : UInt8) (devfn pos : UInt32) (size : Nat) (val : UInt32)

namespace Access

/-- of one, two or four bytes, at a multiple of the size below 256 -/
def Valid : Access → Prop
  | .read _ _ pos size => Aligned pos size ∧ pos.toNat < 256
  | .write _ _ pos size _ => Aligned pos size ∧ pos.toNat < 256

/-- the result, and for a read the value -/
abbrev Answer := Int × Option UInt32

def run : Access → StateM Bridge Answer
  | .read bus devfn pos size => do
    let (r, val) ← c2811PciRead bus devfn pos size
    return (r, some val)
  | .write bus devfn pos size val => do
    let r ← c2811PciWrite bus devfn pos size val
    return (r, none)

/-- the same access of the memory: there is only bus 0 -/
def onBytes : Access → StateM Bytes Answer
  | .read bus devfn pos size => fun m =>
    if bus = 0 then ((pcibiosSuccessful, some (m.read devfn pos.toNat size)), m)
    else ((pcibiosDeviceNotFound, some 0xffffffff), m)
  | .write bus devfn pos size val => fun m =>
    if bus = 0 then ((pcibiosSuccessful, none), m.write devfn pos.toNat size val)
    else ((pcibiosDeviceNotFound, none), m)

end Access

/-- every byte can be read and written, and holds what the memory says -/
def Bridge.Stores (b : Bridge) (m : Bytes) : Prop := ∀ l, b.space l = ⟨.rw, m l⟩

section
variable {b : Bridge} {m : Bytes} {devfn pos : UInt32} {size : Nat}

/-- **A write of the driver is one of the memory**, whatever dword it writes back. -/
theorem Bridge.Stores.after (h : b.Stores m) (ha : Aligned pos size) (hpos : pos.toNat < 256)
    (val : UInt32) : (b.after devfn pos size val).Stores (m.write devfn pos.toNat size val) := by
  intro l
  have hin := ha.within
  have hmod : pos.toNat % 256 = pos.toNat := Nat.mod_eq_of_lt hpos
  show (if l.InDword _ then (b.space l).write (b.written pos size val l) else b.space l) = _
  rw [h l]
  unfold Bridge.written Bytes.write
  rw [hmod, h l]
  by_cases hl : l.InDword (at0 devfn (pos.toNat / 4 % 64 * 4))
  · obtain ⟨hbus, hdev, hfn, hlo, hhi⟩ := hl
    have hloc : l = at0 devfn l.off := Loc.ext hbus hdev hfn rfl
    rw [if_pos ⟨hbus, hdev, hfn, hlo, hhi⟩]
    by_cases hk : pos.toNat ≤ l.off ∧ l.off < pos.toNat + size
    · rw [if_pos hk, if_pos ⟨hloc, hk⟩]
      rfl
    · rw [if_neg hk, if_neg fun hand => hk hand.2]
      rfl
  · have hout : ¬ (l = at0 devfn l.off ∧ pos.toNat ≤ l.off ∧ l.off < pos.toNat + size) := by
      intro ⟨hloc, hlo, hhi⟩
      apply hl
      rw [hloc]
      refine ⟨rfl, rfl, rfl, ?_, ?_⟩
      · show pos.toNat / 4 % 64 * 4 ≤ l.off
        omega
      · show l.off < pos.toNat / 4 % 64 * 4 + 4
        omega
    rw [if_neg hl, if_neg hout]

theorem Bridge.Stores.value (h : b.Stores m) (hpos : pos.toNat < 256) :
    (ofLanes fun k => if k < size then (b.space (at0 devfn (pos.toNat % 256 + k))).val else 0)
      = m.read devfn pos.toNat size := by
  apply ofLanes_congr
  intro k _
  rw [Nat.mod_eq_of_lt hpos, h]

theorem c2811PciRead_other {bus : UInt8} (h : bus ≠ 0) :
    (c2811PciRead bus devfn pos size).run b = ((pcibiosDeviceNotFound, 0xffffffff), b) := by
  unfold c2811PciRead
  rw [run_next (c2811PciAddr_other devfn pos b h)]
  rfl

end

/-- **One access**: the same answer, and the memory still says what is stored. -/
theorem Access.refines {a : Access} (ha : a.Valid) {b : Bridge} {m : Bytes} (h : b.Stores m) :
    ∃ r b' m', a.run.run b = (r, b') ∧ a.onBytes.run m = (r, m') ∧ b'.Stores m' := by
  cases a with
  | read bus devfn pos size =>
    obtain ⟨hal, hpos⟩ := ha
    by_cases hbus : bus = 0
    · subst hbus
      refine ⟨(pcibiosSuccessful, some (m.read devfn pos.toNat size)), b.select devfn pos, m,
        ?_, rfl, h⟩
      unfold Access.run
      rw [run_next (c2811PciRead_run hal), h.value hpos]
      rfl
    · refine ⟨(pcibiosDeviceNotFound, some 0xffffffff), b, m, ?_, if_neg hbus, h⟩
      unfold Access.run
      rw [run_next (c2811PciRead_other hbus)]
      rfl
  | write bus devfn pos size val =>
    obtain ⟨hal, hpos⟩ := ha
    by_cases hbus : bus = 0
    · subst hbus
      refine ⟨(pcibiosSuccessful, none), b.after devfn pos size val, _, ?_, rfl,
        h.after hal hpos val⟩
      unfold Access.run
      rw [run_next (c2811PciWrite_run val hal)]
      rfl
    · refine ⟨(pcibiosDeviceNotFound, none), b, m, ?_, if_neg hbus, h⟩
      unfold Access.run
      rw [run_next (c2811PciWrite_other val hbus)]
      rfl

theorem accesses_refine {as : List Access} (has : ∀ a ∈ as, a.Valid) {b : Bridge} {m : Bytes}
    (h : b.Stores m) : ∃ rs b' m', (as.mapM Access.run).run b = (rs, b') ∧
      (as.mapM Access.onBytes).run m = (rs, m') ∧ b'.Stores m' := by
  induction as generalizing b m with
  | nil => exact ⟨[], b, m, rfl, rfl, h⟩
  | cons a as ih =>
    obtain ⟨r, b₁, m₁, hrun, hspec, h₁⟩ := Access.refines (has a List.mem_cons_self) h
    obtain ⟨rs, b', m', hruns, hspecs, h'⟩ :=
      ih (fun c hc => has c (List.mem_cons_of_mem a hc)) h₁
    refine ⟨r :: rs, b', m', ?_, ?_, h'⟩
    · rw [List.mapM_cons, run_next hrun, run_next hruns]
      rfl
    · rw [List.mapM_cons, run_next hspec, run_next hspecs]
      rfl

/-- **Any sequence of accesses answers as the memory of bytes does, and leaves its bytes.** -/
theorem config_refines (as : List Access) (has : ∀ a ∈ as, a.Valid) (b : Bridge)
    (hrw : ∀ l, (b.space l).attr = .rw) :
    ((as.mapM Access.run).run b).1
        = ((as.mapM Access.onBytes).run fun l => (b.space l).val).1 ∧
      ∀ l, ((as.mapM Access.run).run b).2.space l
        = ⟨.rw, ((as.mapM Access.onBytes).run fun l => (b.space l).val).2 l⟩ := by
  have hst : b.Stores fun l => (b.space l).val := by
    intro l
    rw [← hrw l]
  obtain ⟨rs, b', m', hrun, hspec, h⟩ := accesses_refine has hst
  rw [hrun, hspec]
  exact ⟨rfl, h⟩

def blankSpace : Bridge where
  configAddr := 0
  space := fun _ => ⟨.rw, 0⟩
  regs := fun _ => 0

/-- the upper half of a base address register of slot 1 is written, the register is read back, and
bus 1 is asked -/
def barAccesses : List Access :=
  [.write 0 8 0x12 2 0x1800, .read 0 8 0x10 4, .read 1 8 0x10 4]

theorem config_refines_bar : ((barAccesses.mapM Access.run).run blankSpace).1
    = [(0, none), (0, some 0x18000000), (0x86, some 0xffffffff)] := by
  have hvalid : ∀ a ∈ barAccesses, a.Valid := by
    intro a ha
    simp only [barAccesses, List.mem_cons, List.not_mem_nil, or_false] at ha
    obtain rfl | rfl | rfl := ha <;> exact ⟨⟨by decide, by decide⟩, by decide⟩
  rw [(config_refines barAccesses hvalid blankSpace fun _ => rfl).1]
  rfl

end Pci
