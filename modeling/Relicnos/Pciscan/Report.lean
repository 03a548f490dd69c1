import Relicnos.Pciscan.Bus
import Mathlib.Tactic.NormNum

/-!
# What the scan reports

* `Fn.Shown`      a function that is reported: it answers, and it is the first one of its device or
                  the device says that it has several;
* `Fn.describe`   the lines about a function;
* `scan_exact`    a scan writes nothing but addresses and reports exactly the functions shown, each
                  once and in order.
-/

set_option linter.unusedVariables false

namespace Pciscan
open Interact

/-! ## addresses -/

/-- a field that was shifted up leaves the lower bits clear -/
theorem shift_clear (x s : UInt32) {i : Nat} (hi : i < (s.toBitVec % 32).toNat) :
    (x.toBitVec <<< (s.toBitVec % 32)).getLsbD i = false := by
  rw [BitVec.shiftLeft_eq', BitVec.getLsbD_shiftLeft, decide_eq_true hi]
  simp

/-- an address selects the dword of its register -/
theorem cfgAddr_low (bus dev fn reg : UInt32) :
    cfgAddr bus dev fn reg &&& 0xfc = reg &&& 0xfc := by
  have hmask : ∀ j < 32, 8 ≤ j → (UInt32.toBitVec 0xfc).getLsbD j = false := by decide
  have htop : ∀ j < 8, (UInt32.toBitVec 0x80000000).getLsbD j = false := by decide
  apply UInt32.toBitVec_inj.mp
  unfold cfgAddr
  simp only [UInt32.toBitVec_and, UInt32.toBitVec_or, UInt32.toBitVec_shiftLeft]
  apply BitVec.eq_of_getLsbD_eq
  intro i hi
  simp only [BitVec.getLsbD_and, BitVec.getLsbD_or]
  by_cases h8 : i < 8
  · rw [shift_clear bus 16 (Nat.lt_of_lt_of_le h8 (by decide)),
      shift_clear dev 11 (Nat.lt_of_lt_of_le h8 (by decide)),
      shift_clear fn 8 (Nat.lt_of_lt_of_le h8 (by decide)), htop i h8]
    simp
  · rw [hmask i hi (by omega), Bool.and_false, Bool.and_false]

/-- the dwords that a scan asks for are not the status -/
theorem not_status {bus dev fn reg : UInt32} (h : reg &&& 0xfc ≠ 0x04) :
    ¬Status (cfgAddr bus dev fn reg) := by
  unfold Status
  rwa [cfgAddr_low]

/-! ## functions -/

/-- what is on the buses -/
abbrev Buses := Bool → UInt32 → UInt32 → UInt32

structure Fn where
  busIf : Bool
  bus : Nat
  dev : Nat
  fn : Nat
  deriving DecidableEq

def Answers (id : UInt32) : Prop := id ≠ 0xffffffff ∧ id ≠ 0

instance (id : UInt32) : Decidable (Answers id) := inferInstanceAs (Decidable (_ ∧ _))

theorem not_answers (id : UInt32) : (id = 0xffffffff ∨ id = 0) ↔ ¬Answers id := by
  unfold Answers
  rw [not_and_or, not_ne_iff, not_ne_iff]

namespace Fn
variable (m : Buses) (p : Bool → UInt32) (f : Fn)

/-- a dword of its configuration space, as its interface shows it -/
def reads (reg : UInt32) : UInt32 :=
  m f.busIf ((p f.busIf >>> 16) &&& 0xff)
    (cfgAddr (UInt32.ofNat f.bus) (UInt32.ofNat f.dev) (UInt32.ofNat f.fn) reg)

/-- the first function of the same device -/
def first : Fn := { f with fn := 0 }

def Shown : Prop :=
  Answers (f.reads m p 0) ∧ (f.fn = 0 ∨ (f.first.reads m p 0x0c >>> 16) &&& 0x80 ≠ 0)

instance : Decidable (f.Shown m p) := inferInstanceAs (Decidable (_ ∧ _))

def details : List Line :=
  if (f.reads m p 0x0c >>> 16) &&& 0x7f ≠ 0 then []
  else (List.range 6).flatMap (fun i => barOf (f.reads m p (0x10 + UInt32.ofNat i * 4)) i) ++
    [.irq (f.reads m p 0x3c)]

def describe : List Line :=
  .dev f.busIf (UInt32.ofNat f.bus) (UInt32.ofNat f.dev) (UInt32.ofNat f.fn)
    (f.reads m p 0 &&& 0xffff) (f.reads m p 0 >>> 16) (f.reads m p 0x08 >>> 8)
    (className (f.reads m p 0x08 >>> 8)) ((f.reads m p 0x0c >>> 16) &&& 0x7f) :: f.details m p

end Fn

/-- the functions a device may have -/
def device (busIf : Bool) (bus dev : Nat) : List Fn :=
  (List.range 8).map fun fn => ⟨busIf, bus, dev, fn⟩

/-- all functions of the buses up to `maxbus` -/
def functions (maxbus : Int) : List Fn :=
  [false, true].flatMap fun busIf => (List.range (maxbus + 1).toNat).flatMap fun bus =>
    (List.range 32).flatMap fun dev => device busIf bus dev

variable {G : Event Op Res World → Prop} {m : Buses} {p : Bool → UInt32} {w w' : World}

section
variable (hG : ∀ e : Event Op Res World, Op.Reads e.op → G e)
include hG

theorem reads_told (f : Fn) {reg : UInt32} (h : reg &&& 0xfc ≠ 0x04) :
    Tells G m p
      (cfgRead true f.busIf (UInt32.ofNat f.bus) (UInt32.ofNat f.dev) (UInt32.ofNat f.fn) reg)
      (f.reads m p reg) [] := cfgRead_told hG (not_status h)

theorem bars_told (f : Fn) : Tells G m p
    (Prog.each (fun i => do
      let bar ← cfgRead true f.busIf (UInt32.ofNat f.bus) (UInt32.ofNat f.dev) (UInt32.ofNat f.fn)
        (0x10 + UInt32.ofNat i * 4)
      Prog.each print (barOf bar i)) (List.range 6)) ()
    ((List.range 6).flatMap fun i => barOf (f.reads m p (0x10 + UInt32.ofNat i * 4)) i) := by
  have hreg : ∀ i ∈ List.range 6, (0x10 + UInt32.ofNat i * 4) &&& 0xfc ≠ 0x04 := by decide
  apply Says.each
  intro i hi
  apply (reads_told hG f (hreg i hi)).bind_nil
  have hprint : Tells G m p (Prog.each print (barOf (f.reads m p (0x10 + UInt32.ofNat i * 4)) i))
      () ((barOf (f.reads m p (0x10 + UInt32.ofNat i * 4)) i).flatMap fun l => [l]) :=
    Says.each fun l _ => print_told hG l
  rwa [List.flatMap_singleton'] at hprint

/-- what is said about one function -/
theorem showDev_told (f : Fn) : Tells G m p
    (showDev true f.busIf (UInt32.ofNat f.bus) (UInt32.ofNat f.dev) (UInt32.ofNat f.fn)) ()
    (if Answers (f.reads m p 0) then f.describe m p else []) := by
  unfold showDev
  apply (reads_told hG f (by decide)).bind_nil
  by_cases ha : Answers (f.reads m p 0)
  · rw [if_pos ha, if_neg fun h => (not_answers _).mp h ha]
    apply (reads_told hG f (by decide)).bind_nil
    apply (reads_told hG f (by decide)).bind_nil
    apply (print_told hG _).bind
    by_cases ht : (f.reads m p 0x0c >>> 16) &&& 0x7f ≠ 0
    · rw [if_pos ht, if_pos ht]
      exact says_pure ()
    · rw [if_neg ht, if_neg ht]
      apply (bars_told hG f).bind
      exact (reads_told hG f (by decide)).bind_nil (print_told hG _)
  · rw [if_neg ha, if_pos ((not_answers _).mpr ha)]
    exact says_pure ()

/-- the functions behind the first one -/
theorem scanFns_rest (busIf : Bool) (bus dev : Nat) {fns : List Nat} (h : ∀ fn ∈ fns, fn ≠ 0) :
    Tells G m p (scanFns true busIf (UInt32.ofNat bus) (UInt32.ofNat dev) fns) ()
      (fns.flatMap fun fn => if Answers (Fn.reads m p ⟨busIf, bus, dev, fn⟩ 0) then
        Fn.describe m p ⟨busIf, bus, dev, fn⟩ else []) := by
  induction fns with
  | nil => exact says_pure ()
  | cons fn fns ih =>
    unfold scanFns
    rw [List.flatMap_cons]
    apply (showDev_told hG ⟨busIf, bus, dev, fn⟩).bind
    rw [if_neg (h fn List.mem_cons_self)]
    exact ih fun x hx => h x (List.mem_cons_of_mem _ hx)

omit hG in
theorem flatMap_filter {α β : Type} (q : α → Prop) [DecidablePred q] (g : α → List β)
    (xs : List α) : (xs.filter fun x => decide (q x)).flatMap g
      = xs.flatMap fun x => if q x then g x else [] := by
  induction xs with
  | nil => rfl
  | cons x xs ih =>
    rw [List.filter_cons, List.flatMap_cons, ← ih]
    by_cases hq : q x
    · rw [if_pos (decide_eq_true hq), if_pos hq, List.flatMap_cons]
    · rw [if_neg fun h => hq (of_decide_eq_true h), if_neg hq, List.nil_append]

/-- **One device**: its first function says if the others are looked at. -/
theorem scanFns_told (busIf : Bool) (bus dev : Nat) : Tells G m p
    (scanFns true busIf (UInt32.ofNat bus) (UInt32.ofNat dev) (List.range 8)) ()
    (((device busIf bus dev).filter fun f => decide (f.Shown m p)).flatMap (Fn.describe m p)) := by
  have hpos : ∀ fn ∈ List.range' 1 7, fn ≠ 0 := by decide
  have hfirst : (⟨busIf, bus, dev, 0⟩ : Fn).Shown m p ↔
      Answers (Fn.reads m p ⟨busIf, bus, dev, 0⟩ 0) := and_iff_left (Or.inl rfl)
  show Tells G m p (scanFns true _ _ _ (0 :: List.range' 1 7)) () _
  rw [flatMap_filter, device, List.flatMap_map]
  show Tells G m p _ () ((0 :: List.range' 1 7).flatMap _)
  rw [List.flatMap_cons]
  simp only [hfirst]
  unfold scanFns
  apply (showDev_told hG ⟨busIf, bus, dev, 0⟩).bind
  rw [if_pos rfl]
  apply (reads_told hG ⟨busIf, bus, dev, 0⟩ (by decide)).bind_nil
  by_cases hm : (Fn.reads m p ⟨busIf, bus, dev, 0⟩ 0x0c >>> 16) &&& 0x80 = 0
  · have hnone : ∀ fn ∈ List.range' 1 7, ¬(⟨busIf, bus, dev, fn⟩ : Fn).Shown m p := by
      intro fn hfn hs
      exact hs.2.elim (hpos fn hfn) fun h => h hm
    have hnil : ((List.range' 1 7).flatMap fun fn =>
        if (⟨busIf, bus, dev, fn⟩ : Fn).Shown m p then Fn.describe m p ⟨busIf, bus, dev, fn⟩
        else []) = [] := by
      rw [List.flatMap_eq_nil_iff]
      intro fn hfn
      exact if_neg (hnone fn hfn)
    rw [if_pos hm, hnil]
    exact says_pure ()
  · have hshown : ∀ fn, (⟨busIf, bus, dev, fn⟩ : Fn).Shown m p ↔
        Answers (Fn.reads m p ⟨busIf, bus, dev, fn⟩ 0) := fun fn => and_iff_left (Or.inr hm)
    rw [if_neg hm]
    simp only [hshown]
    exact scanFns_rest hG busIf bus dev hpos

end

/-- **A scan.** -/
theorem scan_told (hG : ∀ e : Event Op Res World, Op.Reads e.op → G e) (maxbus : Int) :
    Tells G m p (scan true maxbus) ()
      (((functions maxbus).filter fun f => decide (f.Shown m p)).flatMap (Fn.describe m p)) := by
  unfold functions
  simp only [List.filter_flatMap, List.flatMap_assoc]
  apply Says.each
  intro busIf _
  apply Says.each
  intro bus _
  apply Says.each
  intro dev _
  exact scanFns_told hG busIf bus dev

/-! ## what comes before -/

/-- the lines every use begins with -/
def Line.Intro : Line → Prop
  | .noFlush => True
  | .localBus _ _ => True
  | .iface _ _ _ => True
  | .cause _ _ => True
  | .probe _ _ _ _ _ _ => True
  | .abortFlag _ => True
  | _ => False

def Op.Opening : Op → Prop
  | .print l => l.Intro
  | o => o.Reads

/-- what an operation adds to the record -/
def Op.lines : Op → List Line
  | .print l => [l]
  | _ => []

/-- `ls` has been said, and lines of the introduction -/
structure Begun (m : Buses) (p : Bool → UInt32) (ls : List Line) (w : World) : Prop where
  knows : Knows m p w
  said : ∃ intro, w.said = ls ++ intro ∧ ∀ l ∈ intro, l.Intro

theorem begun_stable (ls : List Line) : Stable env (Begun m p ls) := by
  intro w w' h hd
  refine ⟨h.knows.drift hd, ?_⟩
  rw [hd.said]
  exact h.said

/-- an operation of a scan leaves what is on the buses alone -/
theorem Knows.reads {o : Op} {r : Res o} (h : Knows m p w) (ho : o.Reads) (ha : access w o r w') :
    Knows m p w' ∧ w'.said = w.said ++ o.lines := by
  have hnil : w.said = w.said ++ [] := (List.append_nil _).symm
  cases o with
  | load reg =>
    cases reg with
    | configData _ =>
      obtain ⟨rfl, _⟩ := ha
      exact ⟨⟨h.space, h.p2p⟩, hnil⟩
    | configAddr _ =>
      obtain ⟨_, rfl⟩ := ha
      exact ⟨h, hnil⟩
    | p2pConfig _ =>
      obtain ⟨_, rfl⟩ := ha
      exact ⟨h, hnil⟩
    | _ =>
      obtain rfl : w' = w := ha
      exact ⟨h, hnil⟩
  | store reg v =>
    cases reg with
    | configAddr _ =>
      obtain rfl : w' = _ := ha
      exact ⟨⟨h.space, h.p2p⟩, hnil⟩
    | _ => exact False.elim ho
  | flush =>
    obtain rfl : w' = _ := ha
    exact ⟨⟨h.space, h.p2p⟩, hnil⟩
  | print l =>
    obtain rfl : w' = _ := ha
    exact ⟨⟨h.space, h.p2p⟩, rfl⟩

theorem Op.Opening.reads {o : Op} (h : o.Opening) : o.Reads := by
  cases o with
  | print l => trivial
  | _ => exact h

theorem opening_keeps (ls : List Line) :
    Keeps env (fun e => Op.Reads e.op) Op.Opening (Begun m p ls) := by
  intro w o r w' ho h ha
  obtain ⟨hk, hs⟩ := h.knows.reads ho.reads ha
  refine ⟨ho.reads, hk, ?_⟩
  obtain ⟨intro, hi, hl⟩ := h.said
  refine ⟨intro ++ o.lines, by rw [hs, hi, List.append_assoc], fun l hmem => ?_⟩
  obtain hmem | hmem := List.mem_append.mp hmem
  · exact hl l hmem
  · cases o with
    | print l' =>
      obtain rfl := List.mem_singleton.mp hmem
      exact ho
    | _ => cases hmem

theorem uses_rd (reg : Reg) : (rd reg).Uses Op.Opening := by
  apply Prog.Uses.bind ((Prog.uses_call _).mpr trivial)
  intro v
  exact Prog.uses_pure _

theorem uses_flush (flushp : Bool) : (flush flushp).Uses Op.Opening := by
  cases flushp with
  | true => exact (Prog.uses_call _).mpr trivial
  | false => exact Prog.uses_pure ()

theorem uses_cfgRead (flushp busIf : Bool) (bus dev fn reg : UInt32) :
    (cfgRead flushp busIf bus dev fn reg).Uses Op.Opening := by
  have hload : (load (.configData busIf)).Uses Op.Opening := (Prog.uses_call _).mpr trivial
  unfold cfgRead
  refine Prog.Uses.bind ((Prog.uses_call _).mpr trivial) fun _ => ?_
  refine (uses_flush flushp).bind fun _ => ?_
  exact hload.bind fun _ => hload.bind fun _ => Prog.uses_pure _

theorem uses_print {l : Line} (h : l.Intro) : (print l).Uses Op.Opening :=
  (Prog.uses_call _).mpr h

section
variable (flushp : Bool)

theorem uses_probe (busIf : Bool) (bus : UInt32) :
    (probe flushp busIf bus).Uses Op.Opening := by
  unfold probe
  apply (uses_cfgRead _ _ _ _ _ _).bind
  intro _
  apply (uses_cfgRead _ _ _ _ _ _).bind
  intro _
  apply (uses_cfgRead _ _ _ _ _ _).bind
  intro _
  exact uses_print trivial

theorem uses_mapFlush : (mapFlush flushp).Uses Op.Opening := by
  cases flushp with
  | true => exact Prog.uses_pure ()
  | false => exact uses_print trivial

theorem state_opening : (state flushp).Uses Op.Opening := by
  unfold state tookAbort
  have hsay : ∀ {l : Line} {q : Unit → Tool Unit}, l.Intro → (q ()).Uses Op.Opening →
      (print l >>= q).Uses Op.Opening := fun hl hq => (uses_print hl).bind fun _ => hq
  refine (uses_mapFlush flushp).bind fun _ => ?_
  refine (uses_rd _).bind fun b0 => (uses_rd _).bind fun b1 => hsay trivial ?_
  refine (uses_rd _).bind fun _ => (uses_rd _).bind fun _ => hsay trivial ?_
  refine (uses_rd _).bind fun _ => (uses_rd _).bind fun _ => hsay trivial ?_
  refine (uses_rd _).bind fun _ => (uses_rd _).bind fun _ => hsay trivial ?_
  refine (uses_probe _ _ _).bind fun _ => (uses_probe _ _ _).bind fun _ => ?_
  refine (uses_cfgRead _ _ _ _ _ _).bind fun _ => ?_
  refine ((uses_rd _).bind fun _ => Prog.uses_pure _).bind fun _ => ?_
  exact uses_print trivial

/-- the introduction, with or without the mapping -/
theorem wp_state (h : Knows m p w) : wp env (fun e => Op.Reads e.op) (state flushp)
    (fun _ w' => Begun m p w.said w') w := by
  apply wp_keeps (begun_stable _) (opening_keeps _) (state_opening flushp)
  refine ⟨h, [], (List.append_nil _).symm, fun l hl => ?_⟩
  cases hl

end

/-- the whole use of the tool -/
theorem wp_scanMain (hk : Knows m p w) (maxbus : Int) :
    wp env (fun e => Op.Reads e.op) (pciscanMain true (.scan maxbus)) (fun r w' =>
      r = 0 ∧ Knows m p w' ∧ ∃ intro, (∀ l ∈ intro, Line.Intro l) ∧
        w'.said = w.said ++ intro ++
          ((functions maxbus).filter fun f => decide (f.Shown m p)).flatMap (Fn.describe m p))
      w := by
  unfold pciscanMain
  rw [wp_bind]
  apply wp_post (wp_state true hk)
  intro _ w1 h1
  obtain ⟨intro, hs, hi⟩ := h1.said
  rw [wp_bind]
  apply wp_post (scan_told (fun _ h => h) maxbus w1 h1.knows)
  intro _ w2 h2
  obtain ⟨_, hk2, hs2⟩ := h2
  exact ⟨rfl, hk2, intro, hi, by rw [hs2, hs]⟩

/-- **A scan is exact.**  Whatever is on the buses, and however the bridge posts its writes, where
the CPLD is mapped: a scan writes nothing but addresses, and after the introduction it reports
exactly the functions shown, in order, each with what its registers read. -/
theorem scan_exact (maxbus : Int) {tr : List (Event Op Res World)} {r : Nat}
    (h : Runs env (pciscanMain true (.scan maxbus)) w tr r w') :
    (∀ e ∈ tr, Op.Reads e.op) ∧ r = 0 ∧ w'.p2p = w.p2p ∧
    ∃ intro, (∀ l ∈ intro, Line.Intro l) ∧
      w'.said = w.said ++ intro ++
        ((functions maxbus).filter fun f => decide (f.Shown w.space w.p2p)).flatMap
          (Fn.describe w.space w.p2p) := by
  have hk : Knows w.space w.p2p w := ⟨fun _ _ _ _ => rfl, rfl⟩
  obtain ⟨hG, hr, hk', hsaid⟩ := wp_runs (wp_scanMain hk maxbus) h
  exact ⟨hG, hr, hk'.p2p, hsaid⟩

/-- one card with one function, device 1 of bus 0 of the first interface; no other bus answers -/
def oneCard : World where
  addr _ := 0
  p2p _ := 0
  landed := false
  primed := false
  space busIf n a :=
    if n = 0 ∧ busIf = false ∧ a &&& 0xfffff800 = 0x80000800 then
      if a = 0x80000800 then 0x401310ee else 0
    else 0xffffffff
  said := []

theorem oneCard_shown :
    (functions 0).filter (fun f => decide (f.Shown oneCard.space oneCard.p2p))
      = [⟨false, 0, 1, 0⟩] := by decide +kernel

theorem scan_exact_oneCard : ∃ tr r w', Runs env (pciscanMain true (.scan 0)) oneCard tr r w' ∧
    (∀ e ∈ tr, Op.Reads e.op) ∧ ∃ intro, (∀ l ∈ intro, Line.Intro l) ∧
      w'.said = intro ++ Fn.describe oneCard.space oneCard.p2p ⟨false, 0, 1, 0⟩ := by
  obtain ⟨tr, r, w', hx⟩ := prompt_runs (pciscanMain true (.scan 0)) oneCard
  obtain ⟨hG, _, _, intro, hi, hs⟩ := scan_exact 0 hx
  rw [oneCard_shown, List.flatMap_singleton] at hs
  exact ⟨tr, r, w', hx, hG, intro, hi, hs⟩

end Pciscan
