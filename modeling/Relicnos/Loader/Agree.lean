import Mathlib.Data.List.GetD
import Relicnos.Interact.Digits
import Relicnos.Interact.Emit
import Relicnos.Loader.Tool
import Relicnos.Nm32a.Probe

/-!
# The microcode gets into the store, whoever loads it

The image is a little-endian stream of 18-bit instructions.  Both decoders read three bytes and
cut the instruction out of them; three are enough, since an instruction starts at an even bit.
What a chip stores is said by `Store`: a single step in the mode for data stores what is in the
three instruction registers.

* `unpack_field`, `insnAt_eq`, `ucodeInsn_eq`  the three decoders;
* `stored_load`                                what is stored for a list of instructions;
* `download_faithful`                          the driver and the tool.
-/

set_option linter.unusedVariables false

namespace Nm32a

/-- where the registers of a chip start in the window -/
def chipOff : Fin 8 → Nat := ![0x400, 0x500, 0x600, 0x700, 0x900, 0xA00, 0xB00, 0xC00]

/-- a register write, as an offset in the window and a value -/
def regWrite : Op → Option (Nat × UInt8)
  | .cwr chip reg v => some (chipOff chip + reg.addr.toNat, v)
  | _ => none

end Nm32a

namespace Loader
open Interact Nm32a

/-! ## decoding -/

/-- the image as one number -/
def stream (bytes : List UInt8) : Nat := Nat.ofDigits 256 (bytes.map UInt8.toNat)

theorem toNat_lt_of_mem {bytes : List UInt8} : ∀ d ∈ bytes.map UInt8.toNat, d < 256 := by
  intro d hd
  obtain ⟨b, _, rfl⟩ := List.mem_map.mp hd
  exact b.toNat_lt

/-- three bytes of the stream -/
theorem stream_window {bytes : List UInt8} {n : Nat} (h : n + 2 < bytes.length) :
    stream bytes / 256 ^ n % 2 ^ 24
      = bytes[n].toNat + 256 * (bytes[n + 1].toNat + 256 * bytes[n + 2].toNat) := by
  have hd : bytes.drop n = bytes[n] :: bytes[n + 1] :: bytes[n + 2] :: bytes.drop (n + 3) := by
    rw [List.drop_eq_getElem_cons (by omega), List.drop_eq_getElem_cons (by omega),
      List.drop_eq_getElem_cons (by omega)]
  unfold stream
  rw [Nat.ofDigits_div_pow_eq_ofDigits_drop n (by decide) _ toNat_lt_of_mem, ← List.map_drop, hd]
  simp only [List.map_cons, Nat.ofDigits_cons]
  have h0 := bytes[n].toNat_lt
  have h1 := bytes[n + 1].toNat_lt
  have h2 := bytes[n + 2].toNat_lt
  omega

/-- three bytes put together by shifts -/
theorem or_bytes {a b c : Nat} (ha : a < 256) (hb : b < 256) :
    (0 ||| a <<< 0) ||| b <<< 8 ||| c <<< 16 = a + 256 * (b + 256 * c) := by
  have h1 : a ||| b <<< 8 = 2 ^ 8 * b + a := by
    rw [Nat.or_comm, Nat.shiftLeft_eq, Nat.mul_comm, ← Nat.two_pow_add_eq_or_of_lt ha]
  have hlt : 2 ^ 8 * b + a < 2 ^ 16 := by omega
  rw [Nat.zero_or, Nat.shiftLeft_zero, h1, Nat.or_comm, Nat.shiftLeft_eq, Nat.mul_comm,
    ← Nat.two_pow_add_eq_or_of_lt hlt]
  omega

/-- an instruction starts at an even bit, so three bytes reach -/
theorem bit_lt (i : Nat) : 18 * i % 8 + 18 ≤ 24 := by omega

/-- a field that lies within the window is the same in the whole stream -/
theorem field_window (x : Nat) {s : Nat} (h : s + 18 ≤ 24) :
    x % 2 ^ 24 / 2 ^ s % 2 ^ 18 = x / 2 ^ s % 2 ^ 18 := by
  have hsplit : (2 : Nat) ^ 24 = 2 ^ s * 2 ^ (24 - s) := by
    rw [← pow_add]
    congr 1
    omega
  rw [hsplit, Nat.mod_mul_right_div_self]
  exact Nat.mod_mod_of_dvd _ (Nat.pow_dvd_pow 2 (by omega))

/-- **The extractor's decoder reads the field at bit `18 * i`.** -/
theorem unpack_field {blob : List UInt8} {i : Nat} (h : 18 * i / 8 + 2 < blob.length) :
    unpack blob i = stream blob / 2 ^ (18 * i) % 2 ^ 18 := by
  have hbyte : (i * 18) >>> 3 = 18 * i / 8 := by
    rw [Nat.shiftRight_eq_div_pow, Nat.mul_comm]
  have hbit : i * 18 &&& 7 = 18 * i % 8 := by
    rw [Nat.mul_comm]
    exact Nat.and_two_pow_sub_one_eq_mod _ 3
  have hpow : (2 : Nat) ^ (18 * i) = 256 ^ (18 * i / 8) * 2 ^ (18 * i % 8) := by
    rw [show (256 : Nat) = 2 ^ 8 from rfl, ← pow_mul, ← pow_add, Nat.div_add_mod]
  have hwin := stream_window h
  unfold unpack
  simp only [hbyte, hbit, List.foldl_cons, List.foldl_nil]
  generalize hn : 18 * i / 8 = n at h hwin hpow
  rw [if_pos (by omega), if_pos (by omega), if_pos (by omega), List.getD_eq_getElem _ _ (by omega),
    List.getD_eq_getElem _ _ (by omega), List.getD_eq_getElem _ _ (by omega)]
  show (0 ||| blob[n].toNat <<< 0 ||| blob[n + 1].toNat <<< 8 ||| blob[n + 2].toNat <<< 16)
    >>> (18 * i % 8) &&& 2 ^ 18 - 1 = _
  rw [or_bytes blob[n].toNat_lt blob[n + 1].toNat_lt, ← hwin, Nat.and_two_pow_sub_one_eq_mod,
    Nat.shiftRight_eq_div_pow, field_window _ (bit_lt i), hpow, Nat.div_div_eq_div_mul]

/-! ## the two decoders on machine words -/

theorem toUInt32_shift (b : UInt8) {k : Nat} (hk : k ≤ 2) :
    (b.toUInt32 <<< UInt32.ofNat (8 * k)).toNat = b.toNat <<< (8 * k) := by
  have hb := b.toNat_lt
  have hlt : b.toNat * 2 ^ (8 * k) < 2 ^ 32 := by
    calc b.toNat * 2 ^ (8 * k) ≤ 255 * 2 ^ (8 * 2) :=
          Nat.mul_le_mul (by omega) (Nat.pow_le_pow_right (by decide) (by omega))
      _ < 2 ^ 32 := by decide
  have hs : (UInt32.ofNat (8 * k)).toNat % 32 = 8 * k := by
    rw [UInt32.toNat_ofNat']
    omega
  rw [UInt32.toNat_shiftLeft, hs, Nat.shiftLeft_eq, UInt8.toNat_toUInt32, Nat.mod_eq_of_lt hlt,
    Nat.shiftLeft_eq]

/-- the bytes are put together in the same way -/
theorem foldl_toNat (b : List UInt8) (n : Nat) (ks : List Nat) (hks : ∀ k ∈ ks, k ≤ 2)
    (v : UInt32) :
    (ks.foldl (fun (v : UInt32) k => if n + k < b.length then
        v ||| ((b.getD (n + k) 0).toUInt32 <<< UInt32.ofNat (8 * k)) else v) v).toNat
      = ks.foldl (fun v k => if n + k < b.length then
        v ||| ((b.getD (n + k) 0).toNat <<< (8 * k)) else v) v.toNat := by
  induction ks generalizing v with
  | nil => rfl
  | cons k ks ih =>
    have hk : k ≤ 2 := hks k List.mem_cons_self
    rw [List.foldl_cons, List.foldl_cons, ih fun k' hk' => hks k' (List.mem_cons_of_mem _ hk')]
    congr 1
    split
    · rw [UInt32.toNat_or, toUInt32_shift _ hk]
    · rfl

/-- the 18 bits from bit `s` on -/
theorem cut_toNat (v : UInt32) {s : Nat} (hs : s < 8) :
    ((v >>> UInt32.ofNat s) &&& 0x3FFFF).toNat = v.toNat >>> s &&& 0x3FFFF := by
  have he : (UInt32.ofNat s).toNat % 32 = s := by
    rw [UInt32.toNat_ofNat']
    omega
  rw [UInt32.toNat_and, UInt32.toNat_shiftRight, he]
  rfl

/-- **The tool's decoder is the extractor's.** -/
theorem insnAt_eq (b : List UInt8) (i : Nat) : (insnAt b i).toNat = unpack b i := by
  have hs : i * 18 &&& 7 < 8 := Nat.lt_of_le_of_lt Nat.and_le_right (by decide)
  unfold insnAt unpack
  simp only
  rw [cut_toNat _ hs, foldl_toNat b _ [0, 1, 2] (by simp)]
  rfl

/-- **And so is the driver's.** -/
theorem ucodeInsn_eq (u : Ucode) (i : Nat) : ucodeInsn u i = insnAt u.bytes i := by
  -- past the end the driver's table reads zero, which changes nothing
  have hor : ∀ (v : UInt32) (n k : Nat), (if n < u.bytes.length then
      v ||| ((u.bytes.getD n 0).toUInt32 <<< UInt32.ofNat k) else v)
      = v ||| ((u.bytes.getD n 0).toUInt32 <<< UInt32.ofNat k) := by
    intro v n k
    split
    · rfl
    · rename_i hn
      rw [List.getD_eq_default _ _ (Nat.le_of_not_lt hn)]
      show v = v ||| (0 <<< UInt32.ofNat k)
      rw [UInt32.zero_shiftLeft, UInt32.or_zero]
  have hbyte : (i * 18) >>> 3 = i * 18 / 8 := Nat.shiftRight_eq_div_pow _ 3
  have hbit : i * 18 &&& 7 = i * 18 % 8 := Nat.and_two_pow_sub_one_eq_mod _ 3
  unfold ucodeInsn insnAt
  simp only [List.foldl_cons, List.foldl_nil, hor, hbyte, hbit]
  have h0 : ∀ x : UInt32, x <<< UInt32.ofNat (8 * 0) = x := fun x => UInt32.shiftLeft_zero
  rw [UInt32.zero_or, h0]
  rfl

/-! ## the store -/

/-- what a chip holds of the download: its instruction registers, its mode, and the words stored -/
structure Store where
  l : UInt8
  m : UInt8
  h : UInt8
  mode : UInt8
  words : List Nat

/-- a write at an offset of the window; a single step in data mode stores -/
def Store.write (cbase : Nat) (s : Store) (w : Nat × UInt8) : Store :=
  if w.1 = cbase + 0xF2 then { s with l := w.2 }
  else if w.1 = cbase + 0xF3 then { s with m := w.2 }
  else if w.1 = cbase + 0xF0 then { s with h := w.2 }
  else if w.1 = cbase + 0xF1 then { s with mode := w.2 }
  else if w.1 = cbase + 0xF6 ∧ w.2 = 0x03 ∧ s.mode = 0x02 then
    { s with words := s.words ++ [s.l.toNat + 256 * s.m.toNat + 65536 * s.h.toNat] }
  else s

/-- the three bytes of an instruction, low, middle and high -/
def airBytes (insn : UInt32) : UInt8 × UInt8 × UInt8 :=
  ((insn &&& 0xff).toUInt8, ((insn >>> 8) &&& 0xff).toUInt8, ((insn >>> 16) &&& 0x03).toUInt8)

/-- **They make it up again.** -/
theorem airBytes_toNat {insn : UInt32} (h : insn.toNat < 2 ^ 18) :
    (airBytes insn).1.toNat + 256 * (airBytes insn).2.1.toNat
      + 65536 * (airBytes insn).2.2.toNat = insn.toNat := by
  have hl : (insn &&& 0xff).toUInt8.toNat = insn.toNat % 256 := by
    rw [UInt32.toNat_toUInt8, UInt32.toNat_and]
    show (insn.toNat &&& 2 ^ 8 - 1) % 2 ^ 8 = _
    rw [Nat.and_two_pow_sub_one_eq_mod, Nat.mod_mod]
  have hm : ((insn >>> 8) &&& 0xff).toUInt8.toNat = insn.toNat / 256 % 256 := by
    rw [UInt32.toNat_toUInt8, UInt32.toNat_and, UInt32.toNat_shiftRight]
    show (insn.toNat >>> 8 &&& 2 ^ 8 - 1) % 2 ^ 8 = _
    rw [Nat.and_two_pow_sub_one_eq_mod, Nat.mod_mod, Nat.shiftRight_eq_div_pow]
  have hh : ((insn >>> 16) &&& 0x03).toUInt8.toNat = insn.toNat / 65536 % 4 := by
    rw [UInt32.toNat_toUInt8, UInt32.toNat_and, UInt32.toNat_shiftRight]
    show (insn.toNat >>> 16 &&& 2 ^ 2 - 1) % 2 ^ 8 = _
    rw [Nat.and_two_pow_sub_one_eq_mod, Nat.shiftRight_eq_div_pow]
    omega
  unfold airBytes
  simp only [hl, hm, hh]
  omega

/-! ## the writes -/

def airWrites (cbase : Nat) (b : UInt8 × UInt8 × UInt8) : List (Nat × UInt8) :=
  [(cbase + 0xF2, b.1), (cbase + 0xF3, b.2.1), (cbase + 0xF0, b.2.2)]

def putWrites (cbase : Nat) (insn : UInt32) : List (Nat × UInt8) :=
  airWrites cbase (airBytes insn) ++ [(cbase + 0xF6, 0x03)]

def setupWrites (cbase : Nat) : List (Nat × UInt8) :=
  airWrites cbase (0xff, 0x3f, 0x03) ++
    [(cbase + 0xF1, 0x01), (cbase + 0xF6, 0x01), (cbase + 0xF1, 0x02)]

def startWrites (cbase : Nat) : List (Nat × UInt8) :=
  airWrites cbase (0xff, 0x3f, 0x03) ++
    [(cbase + 0xF1, 0x01), (cbase + 0xF6, 0x03), (cbase + 0xF6, 0x03), (cbase + 0xF1, 0x03),
      (cbase + 0xF6, 0x00)]

/-- everything up to Reset All -/
def loadWrites (cbase : Nat) (insns : List UInt32) : List (Nat × UInt8) :=
  setupWrites cbase ++ insns.flatMap (putWrites cbase) ++ startWrites cbase ++
    [(cbase + 0x13, 0x10)]

section
variable {cbase : Nat} {s : Store}

theorem foldl_air (b : UInt8 × UInt8 × UInt8) : (airWrites cbase b).foldl (Store.write cbase) s
    = { s with l := b.1, m := b.2.1, h := b.2.2 } := by
  simp [airWrites, Store.write]

/-- one instruction is stored -/
theorem foldl_put (hm : s.mode = 0x02) {insn : UInt32} (h : insn.toNat < 2 ^ 18) :
    ∃ s', (putWrites cbase insn).foldl (Store.write cbase) s = s' ∧ s'.mode = 0x02 ∧
      s'.words = s.words ++ [insn.toNat] := by
  refine ⟨_, rfl, ?_⟩
  unfold putWrites
  rw [List.foldl_append, foldl_air]
  simp only [List.foldl_cons, List.foldl_nil, Store.write]
  simp [hm, airBytes_toNat h]

theorem foldl_putAll (insns : List UInt32) (hm : s.mode = 0x02)
    (h : ∀ insn ∈ insns, insn.toNat < 2 ^ 18) :
    ((insns.flatMap (putWrites cbase)).foldl (Store.write cbase) s).words
      = s.words ++ insns.map UInt32.toNat := by
  induction insns generalizing s with
  | nil => exact (List.append_nil _).symm
  | cons insn insns ih =>
    obtain ⟨s', he, hm', hw⟩ := @foldl_put cbase s hm insn (h insn List.mem_cons_self)
    rw [List.flatMap_cons, List.foldl_append, he,
      ih hm' fun x hx => h x (List.mem_cons_of_mem _ hx), hw, List.append_assoc]
    rfl

theorem foldl_setup : ((setupWrites cbase).foldl (Store.write cbase) s).mode = 0x02 ∧
    ((setupWrites cbase).foldl (Store.write cbase) s).words = s.words := by
  unfold setupWrites
  rw [List.foldl_append, foldl_air]
  simp [Store.write]

/-- the start stores nothing -/
theorem foldl_start : ((startWrites cbase).foldl (Store.write cbase) s).words = s.words := by
  unfold startWrites
  rw [List.foldl_append, foldl_air]
  simp [Store.write]

/-- **What a download stores.** -/
theorem stored_load (insns : List UInt32) (h : ∀ insn ∈ insns, insn.toNat < 2 ^ 18) :
    ((loadWrites cbase insns).foldl (Store.write cbase) s).words
      = s.words ++ insns.map UInt32.toNat := by
  unfold loadWrites
  rw [List.foldl_append, List.foldl_append, List.foldl_append]
  have hlast : ∀ s : Store,
      ([(cbase + 0x13, 0x10)].foldl (Store.write cbase) s).words = s.words := by
    intro s
    simp [Store.write]
  rw [hlast, foldl_start, foldl_putAll insns foldl_setup.1 h, foldl_setup.2]

end

/-! ## the driver -/

section
variable {chip : Fin 8} {ws : List (Nat × UInt8)} {α : Type}

theorem emits_cwr {reg : Reg} {v : UInt8} {f : Unit → Drv α} (h : (f ()).Emits regWrite ws) :
    (cwr chip reg v >>= f).Emits regWrite ((Nm32a.chipOff chip + reg.addr.toNat, v) :: ws) :=
  Prog.emits_out (o := Nm32a.Op.cwr chip reg v) rfl fun _ => h

theorem emits_crd {reg : Reg} {f : UInt8 → Drv α} (h : ∀ v, (f v).Emits regWrite ws) :
    (crd chip reg >>= f).Emits regWrite ws := Prog.emits_mute (o := Nm32a.Op.crd chip reg) rfl h

theorem emits_writeAir (l m h : UInt8) :
    (writeAir chip l m h).Emits regWrite (airWrites (Nm32a.chipOff chip) (l, m, h)) := by
  unfold writeAir
  apply emits_cwr
  apply emits_cwr
  exact emits_cwr (f := fun _ => pure ()) (Prog.emits_pure _)

theorem emits_storeInsn (insn : UInt32) :
    (storeInsn chip insn).Emits regWrite (putWrites (Nm32a.chipOff chip) insn) := by
  unfold storeInsn putWrites
  refine (emits_writeAir _ _ _).bind fun _ => ?_
  exact emits_cwr (f := fun _ => pure ()) (Prog.emits_pure _)

theorem emits_storeInsns (u : Ucode) (n i : Nat) : (storeInsns u chip i n).Emits regWrite
    (((List.range' i n).map (ucodeInsn u)).flatMap (putWrites (Nm32a.chipOff chip))) := by
  induction n generalizing i with
  | zero => exact Prog.emits_pure _
  | succ n ih =>
    unfold storeInsns
    rw [List.range'_succ, List.map_cons, List.flatMap_cons]
    exact (emits_storeInsn _).bind fun _ => ih (i + 1)

theorem emits_awaitRevision (n : Nat) (after : UInt8) :
    (Nm32a.awaitRevision chip after n).Emits regWrite [] := by
  induction n generalizing after with
  | zero => exact Prog.emits_pure _
  | succ n ih =>
    unfold Nm32a.awaitRevision
    apply emits_crd
    intro v
    split
    · exact Prog.emits_pure _
    · exact ih v

/-- `ccr_wait` writes nothing -/
theorem emits_ccrWait (turns : Nat) : (ccrWait turns chip).Emits regWrite [] := by
  have hwarn : (ccrWarn chip).Emits regWrite [] := by
    unfold ccrWarn
    refine Prog.emits_mute (o := Nm32a.Op.ratelimit) rfl fun b => ?_
    split
    · apply emits_crd
      intro _
      exact emits_crd fun _ => Prog.emits_pure _
    · exact Prog.emits_pure _
  have hloop : ∀ stop n, (ccrWaitLoop chip stop n).Emits regWrite [] := by
    intro stop n
    induction n with
    | zero => exact fun e => nomatch e
    | succ n ih =>
      unfold ccrWaitLoop
      apply emits_crd
      intro ccr
      split
      · exact Prog.emits_pure _
      · refine Prog.emits_mute (o := Nm32a.Op.jiffies) rfl fun now => ?_
        split
        · exact ih
        · exact hwarn.bind_nil fun _ => Prog.emits_pure _
  unfold ccrWait
  exact Prog.emits_mute (o := Nm32a.Op.jiffies) rfl fun now => hloop _ turns

/-- **The writes of the driver.** -/
theorem emits_download (u : Ucode) (turns : Nat) (chip : Fin 8) :
    (nm32aDownload u turns chip).Emits regWrite
      (loadWrites (Nm32a.chipOff chip) ((List.range u.insns).map (ucodeInsn u))) := by
  have hload : (loadUcode u chip).Emits regWrite (setupWrites (Nm32a.chipOff chip) ++
      ((List.range u.insns).map (ucodeInsn u)).flatMap (putWrites (Nm32a.chipOff chip)) ++
      startWrites (Nm32a.chipOff chip)) := by
    unfold loadUcode setupWrites startWrites
    rw [List.range_eq_range', List.append_assoc, List.append_assoc]
    apply emits_crd
    intro _
    refine (emits_writeAir _ _ _).bind fun _ => ?_
    apply emits_cwr
    apply emits_cwr
    apply emits_cwr
    refine (emits_storeInsns u u.insns 0).bind fun _ => ?_
    refine (emits_writeAir _ _ _).bind fun _ => ?_
    apply emits_cwr
    apply emits_cwr
    apply emits_cwr
    apply emits_cwr
    exact emits_cwr (f := fun _ => pure ()) (Prog.emits_pure _)
  unfold nm32aDownload loadWrites
  refine hload.bind fun _ => ?_
  apply emits_cwr
  refine (emits_ccrWait turns).bind_nil fun n => ?_
  exact (emits_awaitRevision _ _).bind_nil fun after => Prog.emits_pure _

end

/-! ## the tool -/

/-- a store into the window -/
def winStore : Op → Option (Nat × UInt8)
  | .store off v => some (off, v)
  | .load _ => none

section
variable {cbase : Nat} {ws : List (Nat × UInt8)} {α : Type}

/-- with the lanes as they are -/
theorem emits_wr {reg : Nat} {v : UInt8} {f : Unit → Win α} (h : (f ()).Emits winStore ws) :
    (wr {} cbase reg v >>= f).Emits winStore ((cbase + reg, v) :: ws) := by
  unfold wr
  rw [show reg ^^^ ({} : Args).lane = reg from Nat.xor_zero reg]
  refine Prog.emits_out (o := Op.store (cbase + reg) v) rfl fun _ => ?_
  exact Prog.emits_mute (o := Op.load (cbase + reg)) rfl fun _ => h

theorem emits_rd {reg : Nat} {f : UInt8 → Win α} (h : ∀ v, (f v).Emits winStore ws) :
    (rd {} cbase reg >>= f).Emits winStore ws :=
  Prog.emits_mute (o := Op.load (cbase + (reg ^^^ 0))) rfl h

theorem emits_jump3fff :
    (jump3fff {} cbase).Emits winStore (airWrites cbase (0xff, 0x3f, 0x03)) := by
  unfold jump3fff
  apply emits_wr
  apply emits_wr
  exact emits_wr (f := fun _ => pure ()) (Prog.emits_pure _)

theorem emits_put (insn : UInt32) : (put {} cbase insn).Emits winStore (putWrites cbase insn) := by
  unfold put
  apply emits_wr
  apply emits_wr
  apply emits_wr
  exact emits_wr (f := fun _ => pure ()) (Prog.emits_pure _)

theorem emits_putAll (insns : List UInt32) :
    (putAll {} cbase insns).Emits winStore (insns.flatMap (putWrites cbase)) := by
  induction insns with
  | nil => exact Prog.emits_pure _
  | cons insn insns ih =>
    rw [List.flatMap_cons]
    exact (emits_put insn).bind fun _ => ih

theorem emits_dlSetup : (dlSetup {} cbase).Emits winStore (setupWrites cbase) := by
  show (jump3fff {} cbase >>= _).Emits _ _
  unfold setupWrites
  refine emits_jump3fff.bind fun _ => ?_
  apply emits_wr
  apply emits_wr
  exact emits_wr (f := fun _ => pure ()) (Prog.emits_pure _)

theorem emits_dlStart : (dlStart {} cbase).Emits winStore (startWrites cbase) := by
  unfold dlStart startWrites
  refine emits_jump3fff.bind fun _ => ?_
  apply emits_wr
  apply emits_wr
  apply emits_wr
  apply emits_wr
  exact emits_wr (f := fun _ => pure ()) (Prog.emits_pure _)

theorem emits_awaitCcr (n : Nat) (ccr : UInt8) : (awaitCcr {} cbase ccr n).Emits winStore [] := by
  induction n generalizing ccr with
  | zero => exact Prog.emits_pure _
  | succ n ih =>
    unfold awaitCcr
    apply emits_rd
    intro v
    split
    · exact Prog.emits_pure _
    · exact ih v

theorem emits_revision (n : Nat) (after : UInt8) :
    (awaitRevision {} cbase after n).Emits winStore [] := by
  induction n generalizing after with
  | zero => exact Prog.emits_pure _
  | succ n ih =>
    unfold awaitRevision
    apply emits_rd
    intro v
    split
    · exact Prog.emits_pure _
    · exact ih v

/-- **The writes of the tool.** -/
theorem emits_loadChip (blob : List UInt8) (i : Fin 8) :
    (loadChip {} blob i).Emits winStore (loadWrites (chipOff i) (insns blob)) := by
  unfold loadChip loadWrites
  rw [List.append_assoc, List.append_assoc]
  apply emits_rd
  intro _
  refine emits_dlSetup.bind fun _ => ?_
  refine (emits_putAll _).bind fun _ => ?_
  refine emits_dlStart.bind fun _ => ?_
  apply emits_wr
  refine (emits_awaitCcr _ _).bind_nil fun ccr => ?_
  exact (emits_revision _ _).bind_nil fun after => Prog.emits_pure _

end

/-! ## an image of the right size -/

structure Image where
  bytes : List UInt8
  size : bytes.length = 18432

namespace Image
variable (im : Image)

/-- what the generated header holds -/
def ucode : Ucode := ⟨im.bytes, 8192⟩

/-- its instructions -/
def words : List Nat := fields (2 ^ 18) (stream im.bytes) 8192

/-- the words of a store as bytes -/
def pack (words : List Nat) : List UInt8 :=
  (fields 256 (Nat.ofDigits (2 ^ 18) words) 18432).map UInt8.ofNat

theorem stream_lt {n : Nat} (hn : n = 8192) : stream im.bytes < (2 ^ 18) ^ n := by
  have h : stream im.bytes < 256 ^ (im.bytes.map UInt8.toNat).length :=
    Nat.ofDigits_lt_base_pow_length (by decide) toNat_lt_of_mem
  have hlen : 18 * n = 8 * (im.bytes.map UInt8.toNat).length := by
    rw [List.length_map, im.size, hn]
  rwa [← pow_mul, hlen, pow_mul]

/-- **Packing them gives the image back.** -/
theorem pack_words : pack im.words = im.bytes := by
  have hlen : (im.bytes.map UInt8.toNat).length = 18432 := by rw [List.length_map, im.size]
  have hf := fields_ofDigits (@toNat_lt_of_mem im.bytes)
  rw [hlen] at hf
  unfold pack words
  rw [ofDigits_fields, Nat.mod_eq_of_lt (im.stream_lt rfl), stream, hf, List.map_map]
  conv_rhs => rw [← List.map_id im.bytes]
  apply List.map_congr_left
  intro b _
  exact UInt8.ofNat_toNat

/-- three bytes of the image are enough for every instruction -/
theorem window {i : Nat} (h : i < 8192) : 18 * i / 8 + 2 < im.bytes.length := by
  rw [im.size]
  omega

theorem insn_field (i : Fin 8192) :
    (ucodeInsn im.ucode i).toNat = stream im.bytes / 2 ^ (18 * i.val) % 2 ^ 18 := by
  rw [ucodeInsn_eq, insnAt_eq]
  exact unpack_field (im.window i.isLt)

theorem insn_lt (i : Fin 8192) : (ucodeInsn im.ucode i).toNat < 2 ^ 18 := by
  rw [insn_field]
  exact Nat.mod_lt _ (by decide)

/-- the tool takes all of it, and nothing is left to pad -/
theorem insns_eq : insns im.bytes = (List.range 8192).map (ucodeInsn im.ucode) := by
  have hn : ninsn im.bytes.length = 8192 := by
    rw [im.size]
    rfl
  unfold insns
  rw [hn, Nat.sub_self, List.replicate_zero, List.append_nil]
  apply List.map_congr_left
  intro i _
  exact (ucodeInsn_eq im.ucode i).symm

theorem words_eq : ((List.range 8192).map (ucodeInsn im.ucode)).map UInt32.toNat = im.words := by
  unfold words fields
  rw [List.map_map]
  apply List.map_congr_left
  intro i hi
  rw [← pow_mul]
  exact im.insn_field ⟨i, List.mem_range.mp hi⟩

end Image

/-- **The download is faithful, and the driver and the tool agree**: on every instruction, on
what is stored, and on every write up to Reset All, after which neither writes anything. -/
theorem download_faithful (im : Image) (turns : Nat) (chip : Fin 8) :
    (∀ i : Fin 8192,
      (ucodeInsn im.ucode i).toNat = stream im.bytes / 2 ^ (18 * i.val) % 2 ^ 18 ∧
      (18 * i.val % 8 + 18 ≤ 24 ∧ 18 * i.val / 8 + 2 < im.bytes.length) ∧
      (insnAt im.bytes i = ucodeInsn im.ucode i ∧
        unpack im.bytes i = (ucodeInsn im.ucode i).toNat) ∧
      (airBytes (ucodeInsn im.ucode i)).1.toNat
        + 256 * (airBytes (ucodeInsn im.ucode i)).2.1.toNat
        + 65536 * (airBytes (ucodeInsn im.ucode i)).2.2.toNat = (ucodeInsn im.ucode i).toNat) ∧
    ∃ ws, (nm32aDownload im.ucode turns chip).Emits regWrite ws ∧
      (loadChip {} im.bytes chip).Emits winStore ws ∧
      ws.getLast? = some (chipOff chip + CCR, ccrRstall) ∧
      (∀ s : Store, (ws.foldl (Store.write (chipOff chip)) s).words = s.words ++ im.words) ∧
      Image.pack im.words = im.bytes := by
  constructor
  · intro i
    refine ⟨im.insn_field i, ⟨bit_lt i.val, im.window i.isLt⟩, ⟨?_, ?_⟩, ?_⟩
    · exact (ucodeInsn_eq im.ucode i).symm
    · rw [ucodeInsn_eq]
      exact (insnAt_eq im.bytes i).symm
    · exact airBytes_toNat (im.insn_lt i)
  · have hd := emits_download im.ucode turns chip
    rw [show im.ucode.insns = 8192 from rfl] at hd
    refine ⟨_, hd, ?_, ?_, ?_, im.pack_words⟩
    · have h := emits_loadChip im.bytes chip
      rw [im.insns_eq] at h
      exact h
    · exact List.getLast?_concat
    · intro s
      rw [← im.words_eq]
      apply stored_load
      intro insn hm
      obtain ⟨i, hi, rfl⟩ := List.mem_map.mp hm
      exact im.insn_lt ⟨i, List.mem_range.mp hi⟩

/-- the writes of a probe -/
theorem emits_probe (im : Image) (turns : Nat) : (nm32aProbe im.ucode turns).Emits regWrite
    (allChips.flatMap fun i => loadWrites (chipOff i) (insns im.bytes)) := by
  unfold nm32aProbe
  induction allChips with
  | nil => exact Prog.emits_pure _
  | cons i chips ih =>
    have h := emits_download im.ucode turns i
    rw [show im.ucode.insns = 8192 from rfl, ← im.insns_eq] at h
    rw [List.flatMap_cons]
    exact h.bind fun _ => ih

/-- a probe that has ended has made these writes, whatever the card answered -/
theorem probe_writes (im : Image) (turns : Nat) {σ : Type} {E : Env Nm32a.Op Nm32a.Res σ}
    {s s' : σ} {tr : List (Event Nm32a.Op Nm32a.Res σ)}
    (h : Runs E (nm32aProbe im.ucode turns) s tr () s') :
    emitted regWrite tr = allChips.flatMap fun i => loadWrites (chipOff i) (insns im.bytes) :=
  h.emits (emits_probe im turns)

/-- so do a probe and a run of the tool, over all chips -/
theorem probe_agrees (im : Image) (turns : Nat) : ∃ ws,
    (nm32aProbe im.ucode turns).Emits regWrite ws ∧ (ucodeMain {} im.bytes).Emits winStore ws := by
  have ht : ∀ chips, (loadChips {} im.bytes chips).Emits winStore
      (chips.flatMap fun i => loadWrites (chipOff i) (insns im.bytes)) := by
    intro chips
    induction chips with
    | nil => exact Prog.emits_pure _
    | cons i chips ih =>
      unfold loadChips
      rw [if_neg fun h => absurd h.1 (by decide), List.flatMap_cons]
      exact (emits_loadChip im.bytes i).bind fun _ => ih
  exact ⟨_, emits_probe im turns, ht _⟩

end Loader
