import Relicnos.Pciscan.Report

/-!
# What the sweep finds

An interface answers on the bus only that has its own number.  The sweep gives it every number in
turn and asks for the devices 1 to 31.

* `seen`          what the device register of a place reads while the interface has its number;
* `sweep_exact`   the sweep finds exactly the places that answer, each once and in order, and leaves
                  the interface with the number it had.
-/

set_option linter.unusedVariables false

namespace Pciscan
open Interact

/-- a bus number and a device number -/
abbrev Place := Nat × Nat

/-- all places of an interface -/
def places : List Place :=
  (List.range 256).flatMap fun b => (List.range' 1 31).map fun dev => (b, dev)

/-- what a place answers while the interface has the number of its bus -/
def seen (m : Buses) (busIf : Bool) (pl : Place) : UInt32 :=
  m busIf (UInt32.ofNat pl.1) (cfgAddr (UInt32.ofNat pl.1) (UInt32.ofNat pl.2) 0 0)

def foundLine (m : Buses) (busIf : Bool) (pl : Place) : Line :=
  .found (UInt32.ofNat pl.1) (UInt32.ofNat pl.2) (seen m busIf pl)

/-- the places that answer -/
def answering (m : Buses) (busIf : Bool) (pls : List Place) : List Place :=
  pls.filter fun pl => decide (Answers (seen m busIf pl))

/-! ## the register with another bus number -/

theorem bus_bit {b : Nat} (hb : b < 256) (i : Nat) :
    (UInt32.ofNat b).toBitVec.getLsbD i = b.testBit i := by
  have hn : (UInt32.ofNat b).toNat = b := by
    rw [UInt32.toNat_ofNat']
    omega
  show (UInt32.ofNat b).toNat.testBit i = _
  rw [hn]

/-- a bus number has eight bits -/
theorem bus_high {b : Nat} (hb : b < 256) {i : Nat} (hi : 8 ≤ i) : b.testBit i = false := by
  apply Nat.testBit_lt_two_pow
  calc b < 2 ^ 8 := hb
    _ ≤ 2 ^ i := Nat.pow_le_pow_right (by decide) hi

/-- the bits of a bus number, shifted into its field -/
theorem field_bit {b : Nat} (hb : b < 256) {i : Nat} (hi : i < 32) :
    ((UInt32.ofNat b).toBitVec <<< 16).getLsbD i
      = (decide (16 ≤ i ∧ i < 24) && b.testBit (i - 16)) := by
  rw [BitVec.getLsbD_shiftLeft, decide_eq_true hi, Bool.true_and, bus_bit hb]
  by_cases h16 : i < 16
  · rw [decide_eq_true h16, decide_eq_false (show ¬(16 ≤ i ∧ i < 24) by omega)]
    rfl
  · rw [decide_eq_false h16]
    by_cases h24 : i < 24
    · rw [decide_eq_true (show 16 ≤ i ∧ i < 24 by omega)]
      rfl
    · rw [decide_eq_false (show ¬(16 ≤ i ∧ i < 24) by omega), bus_high hb (by omega)]
      rfl

theorem mask_bit : ∀ i < 32,
    (~~~(0x00ff0000 : UInt32)).toBitVec.getLsbD i = !decide (16 ≤ i ∧ i < 24) := by decide

/-- **The register that is written** has the bus number in its field, and its other bits. -/
theorem sweep_bit (save : UInt32) {b : Nat} (hb : b < 256) {i : Nat} (hi : i < 32) :
    ((save &&& ~~~(0x00ff0000 : UInt32)) ||| (UInt32.ofNat b <<< 16)).toBitVec.getLsbD i
      = if 16 ≤ i ∧ i < 24 then b.testBit (i - 16) else save.toBitVec.getLsbD i := by
  have h16 : (UInt32.toBitVec 16 % 32).toNat = 16 := by decide
  simp only [UInt32.toBitVec_and, UInt32.toBitVec_or, UInt32.toBitVec_shiftLeft]
  rw [BitVec.shiftLeft_eq', h16, BitVec.getLsbD_or, BitVec.getLsbD_and, mask_bit i hi,
    field_bit hb hi]
  by_cases h : 16 ≤ i ∧ i < 24
  · rw [if_pos h, decide_eq_true h]
    simp
  · rw [if_neg h, decide_eq_false h]
    simp

/-- the bus number that is written reads back -/
theorem busNum_sweep (save : UInt32) {b : Nat} (hb : b < 256) :
    (((save &&& ~~~(0x00ff0000 : UInt32)) ||| (UInt32.ofNat b <<< 16)) >>> 16) &&& 0xff
      = UInt32.ofNat b := by
  have hmask : ∀ i < 32, (UInt32.toBitVec 0xff).getLsbD i = decide (i < 8) := by decide
  have h16 : (UInt32.toBitVec 16 % 32).toNat = 16 := by decide
  apply UInt32.toBitVec_inj.mp
  rw [UInt32.toBitVec_and, UInt32.toBitVec_shiftRight, BitVec.ushiftRight_eq', h16]
  apply BitVec.eq_of_getLsbD_eq
  intro i hi
  rw [BitVec.getLsbD_and, hmask i hi, BitVec.getLsbD_ushiftRight, bus_bit hb]
  by_cases h8 : i < 8
  · rw [sweep_bit save hb (by omega), if_pos (by omega), decide_eq_true h8, Bool.and_true,
      Nat.add_sub_cancel_left]
  · rw [decide_eq_false h8, Bool.and_false, bus_high hb (Nat.le_of_not_lt h8)]

/-- and the rest of the register stays -/
theorem rest_sweep (save : UInt32) {b : Nat} (hb : b < 256) :
    ((save &&& ~~~(0x00ff0000 : UInt32)) ||| (UInt32.ofNat b <<< 16)) &&& ~~~(0x00ff0000 : UInt32)
      = save &&& ~~~(0x00ff0000 : UInt32) := by
  apply UInt32.toBitVec_inj.mp
  rw [UInt32.toBitVec_and, UInt32.toBitVec_and]
  apply BitVec.eq_of_getLsbD_eq
  intro i hi
  rw [BitVec.getLsbD_and, BitVec.getLsbD_and, mask_bit i hi, sweep_bit save hb hi]
  by_cases h : 16 ≤ i ∧ i < 24
  · rw [decide_eq_true h, Bool.not_true, Bool.and_false, Bool.and_false]
  · rw [if_neg h]

/-! ## the sweep -/

variable {m : Buses} {p : Bool → UInt32} {w w' : World} {busIf : Bool} {save : UInt32} {n : Nat}

/-- the command register of the bridge itself, which is device 0 on its own bus -/
def World.OwnCommand (w : World) (busIf : Bool) : Prop :=
  w.addr busIf = cfgAddr (w.busNum busIf) 0 0 0x04

/-- a sweep of interface `busIf` writes addresses, bus numbers, and the one value of the command
register of its bridge -/
def Sweeping (busIf : Bool) (save : UInt32) (e : Event Op Res World) : Prop :=
  match e.op with
  | .store (.p2pConfig i) v => i = busIf ∧
      swab32 v &&& ~~~(0x00ff0000 : UInt32) = save &&& ~~~(0x00ff0000 : UInt32)
  | .store (.configData i) v => i = busIf ∧ v = swab32 0x02b00146 ∧ e.pre.OwnCommand i
  | o => o.Reads

theorem reads_sweeping (e : Event Op Res World) (h : Op.Reads e.op) : Sweeping busIf save e := by
  obtain ⟨pre, o, r, post⟩ := e
  cases o with
  | store reg v =>
    cases reg with
    | configAddr _ => trivial
    | _ => exact False.elim h
  | _ => trivial

/-- what is on the buses is known, and every register but that of `busIf` -/
def KnowsBut (m : Buses) (p : Bool → UInt32) (busIf : Bool) (w : World) : Prop :=
  ∃ v, Knows m (Function.update p busIf v) w

/-- the devices on one bus -/
theorem sweepDevs_told (hb : (p busIf >>> 16) &&& 0xff = UInt32.ofNat n) (devs : List Nat)
    (found : Nat) : Tells (Sweeping busIf save) m p
      (sweepDevs true busIf (UInt32.ofNat n) devs found)
      (found + (answering m busIf (devs.map fun dev => (n, dev))).length)
      ((answering m busIf (devs.map fun dev => (n, dev))).map (foundLine m busIf)) := by
  induction devs generalizing found with
  | nil => exact says_pure found
  | cons dev devs ih =>
    have hread : Tells (Sweeping busIf save) m p
        (cfgRead true busIf (UInt32.ofNat n) (UInt32.ofNat dev) 0 0x00)
        (seen m busIf (n, dev)) [] := by
      have hns : ¬Status (cfgAddr (UInt32.ofNat n) (UInt32.ofNat dev) 0 0) :=
        not_status (by decide)
      have h : Tells (Sweeping busIf save) m p (cfgRead true busIf _ _ _ _) _ _ :=
        cfgRead_told reads_sweeping hns
      rwa [hb] at h
    unfold sweepDevs
    apply hread.bind_nil
    rw [List.map_cons, answering, List.filter_cons]
    by_cases ha : Answers (seen m busIf (n, dev))
    · rw [if_pos (show _ ∧ _ from ha), if_pos (decide_eq_true ha), List.map_cons, List.length_cons]
      apply (print_told reads_sweeping _).bind
      have h := ih (found + 1)
      rwa [Nat.add_right_comm] at h
    · rw [if_neg (show ¬(_ ∧ _) from ha), if_neg fun h => ha (of_decide_eq_true h)]
      exact ih found

/-- a new value of the interface's register -/
theorem wr_p2p {v : UInt32} {K : World → Prop}
    (hv : v &&& ~~~(0x00ff0000 : UInt32) = save &&& ~~~(0x00ff0000 : UInt32))
    (hK : ∀ w, Knows m (Function.update p busIf v) w → K w) :
    Says env (Sweeping busIf save) World.said (KnowsBut m p busIf) (wr (.p2pConfig busIf) v) ()
      [] K := by
  intro w h w1 hd r w2 ha
  obtain ⟨v0, hk⟩ := h
  have h1 := hk.drift hd
  obtain rfl : w2 = { w1 with
      p2p := Function.update w1.p2p busIf (swab32 (swab32 v)), landed := false } := ha
  refine ⟨⟨rfl, by rw [swab32_swab32]; exact hv⟩, rfl, hK _ ⟨h1.space, ?_⟩, ?_⟩
  · show Function.update w1.p2p busIf (swab32 (swab32 v)) = _
    rw [h1.p2p, Function.update_idem, swab32_swab32]
  · rw [List.append_nil]
    exact hd.said

/-- **The buses one after the other**, each while the interface has its number. -/
theorem sweepBuses_told {bs : List Nat} (hbs : ∀ b ∈ bs, b < 256) (found : Nat) :
    Says env (Sweeping busIf save) World.said (KnowsBut m p busIf)
      (sweepBuses true busIf save bs found)
      (found + (answering m busIf
        (bs.flatMap fun b => (List.range' 1 31).map fun dev => (b, dev))).length)
      ((answering m busIf
        (bs.flatMap fun b => (List.range' 1 31).map fun dev => (b, dev))).map (foundLine m busIf))
      (KnowsBut m p busIf) := by
  induction bs generalizing found with
  | nil => exact says_pure found
  | cons b bs ih =>
    have hb := hbs b List.mem_cons_self
    have hnum : (Function.update p busIf
        ((save &&& ~~~(0x00ff0000 : UInt32)) ||| (UInt32.ofNat b <<< 16)) busIf >>> 16) &&& 0xff
          = UInt32.ofNat b := by
      rw [Function.update_self]
      exact busNum_sweep save hb
    have hdevs : Tells (Sweeping busIf save) m (Function.update p busIf
        ((save &&& ~~~(0x00ff0000 : UInt32)) ||| (UInt32.ofNat b <<< 16))) _ _ _ :=
      sweepDevs_told hnum (List.range' 1 31) found
    have hleave : Says env (Sweeping busIf save) World.said _ _ _ _ (KnowsBut m p busIf) :=
      hdevs.mono (fun _ h => h) fun w h => ⟨_, h⟩
    unfold sweepBuses
    apply (wr_p2p (rest_sweep save hb) fun w h => h).bind_nil
    rw [List.flatMap_cons, answering, List.filter_append, List.map_append, List.length_append,
      ← Nat.add_assoc]
    apply hleave.bind
    exact ih (fun x hx => hbs x (List.mem_cons_of_mem _ hx)) _

/-- the sweep from the report that it begins -/
theorem sweep_told : Tells (Sweeping busIf (p busIf)) m p (do
      print (.sweeping busIf)
      let found ← sweepBuses true busIf (p busIf) (List.range 256) 0
      wr (.p2pConfig busIf) (p busIf)
      print (.swept found ((p busIf >>> 16) &&& 0xff))) ()
    ([.sweeping busIf] ++ ((answering m busIf places).map (foundLine m busIf) ++
      [.swept (answering m busIf places).length ((p busIf >>> 16) &&& 0xff)])) := by
  have hself : Function.update p busIf (p busIf) = p := Function.update_eq_self busIf p
  have hbuses : Says env (Sweeping busIf (p busIf)) World.said (KnowsBut m p busIf) _ _ _ _ :=
    sweepBuses_told (fun b hb => List.mem_range.mp hb) 0
  rw [Nat.zero_add] at hbuses
  have hback : Says env (Sweeping busIf (p busIf)) World.said (KnowsBut m p busIf)
      (wr (.p2pConfig busIf) (p busIf)) () [] (Knows m p) := by
    apply wr_p2p rfl
    intro w h
    rwa [hself] at h
  apply (print_told reads_sweeping _).bind
  apply (hbuses.mono (fun w h => ⟨p busIf, by rwa [hself]⟩) fun w h => h).bind
  exact hback.bind_nil (print_told reads_sweeping _)

/-- the command register is written, and what is on the buses may be something else then -/
theorem wp_cfgWrite (h : Knows m p w) :
    wp env (Sweeping busIf save)
      (cfgWrite true busIf ((p busIf >>> 16) &&& 0xff) 0 0 0x04 0x02b00146)
      (fun _ w' => ∃ m', Knows m' p w' ∧ w'.said = w.said) w := by
  intro w1 d1 _ w2 a1
  obtain rfl : w2 = _ := a1
  have h2 : Aimed m p busIf (cfgAddr ((p busIf >>> 16) &&& 0xff) 0 0 0x04) w.said _ :=
    aim (h.drift d1) d1.said
  refine ⟨trivial, fun w3 d3 _ w4 a3 => ⟨trivial, fun w5 d5 _ w6 a5 => ?_⟩⟩
  obtain rfl : w4 = { w3 with landed := true } := a3
  have h5 := ((h2.drift d3).posted true w3.primed).drift d5
  have hown : w5.OwnCommand busIf := by
    unfold World.OwnCommand World.busNum
    rw [h5.addr, h5.knows.p2p]
  obtain ⟨space, rfl⟩ := a5
  exact ⟨⟨rfl, rfl, hown⟩, space, ⟨fun _ _ _ _ => rfl, h5.knows.p2p⟩, h5.said⟩

/-- **A sweep is exact.**  Whatever is on the buses once the interface may drive them, where the
CPLD is mapped: the sweep writes only addresses, the command register and the bus number of the one
interface, finds exactly the places that answer while the interface has the number of their bus, in
order, counts them, and gives every interface back the register it had. -/
theorem sweep_exact {tr : List (Event Op Res World)} {r : Nat}
    (h : Runs env (pciscanMain true (.sweepBus busIf)) w tr r w') :
    (∀ e ∈ tr, Sweeping busIf (w.p2p busIf) e) ∧ r = 0 ∧ w'.p2p = w.p2p ∧
    ∃ intro, (∀ l ∈ intro, Line.Intro l) ∧
      w'.said = w.said ++ intro ++ .sweeping busIf ::
        ((answering w'.space busIf places).map (foundLine w'.space busIf) ++
          [.swept (answering w'.space busIf places).length ((w.p2p busIf >>> 16) &&& 0xff)]) := by
  have hk : Knows w.space w.p2p w := ⟨fun _ _ _ _ => rfl, rfl⟩
  have hwp : wp env (Sweeping busIf (w.p2p busIf)) (pciscanMain true (.sweepBus busIf)) (fun r w' =>
      r = 0 ∧ ∃ m', Knows m' w.p2p w' ∧ ∃ intro, (∀ l ∈ intro, Line.Intro l) ∧
        w'.said = w.said ++ intro ++ ([.sweeping busIf] ++
          ((answering m' busIf places).map (foundLine m' busIf) ++
            [.swept (answering m' busIf places).length ((w.p2p busIf >>> 16) &&& 0xff)]))) w := by
    unfold pciscanMain
    rw [wp_bind]
    apply wp_mono (wp_state true hk) reads_sweeping
    intro _ w1 h1
    obtain ⟨intro, hs, hi⟩ := h1.said
    show wp _ _ (sweepBus true busIf >>= _) _ _
    unfold sweepBus
    rw [wp_bind, wp_bind]
    apply wp_post (rd_p2p reads_sweeping busIf w1 h1.knows)
    intro save w2 h2
    obtain ⟨rfl, hk2, hs2⟩ := h2
    rw [wp_bind]
    apply wp_post (wp_cfgWrite hk2)
    intro _ w3 h3
    obtain ⟨m', hk3, hs3⟩ := h3
    apply wp_post (sweep_told w3 hk3)
    intro _ w4 h4
    obtain ⟨_, hk4, hs4⟩ := h4
    exact ⟨rfl, m', hk4, intro, hi, by rw [hs4, hs3, hs2, List.append_nil, hs]⟩
  obtain ⟨hG, hr, m', hk', intro, hi, hsaid⟩ := wp_runs hwp h
  have hseen : seen w'.space busIf = seen m' busIf := by
    funext pl
    exact hk'.space _ _ _ (not_status (by decide))
  refine ⟨hG, hr, hk'.p2p, intro, hi, ?_⟩
  unfold answering foundLine
  rw [hseen]
  exact hsaid

theorem oneCard_silent {b : Nat} (hb : UInt32.ofNat b ≠ 0) (dev : Nat) :
    ¬Answers (seen oneCard.space false (b, dev)) := by
  have hnone : seen oneCard.space false (b, dev) = 0xffffffff := if_neg fun h => hb h.1
  rw [hnone]
  decide

theorem oneCard_answering : answering oneCard.space false places = [(0, 1)] := by
  have hsplit : List.range 256 = 0 :: List.range' 1 255 := by decide +kernel
  have hne : ∀ b ∈ List.range' 1 255, UInt32.ofNat b ≠ 0 := by decide +kernel
  have hrest : answering oneCard.space false
      ((List.range' 1 255).flatMap fun b => (List.range' 1 31).map fun dev => (b, dev)) = [] := by
    rw [answering, List.filter_eq_nil_iff]
    intro pl hpl
    obtain ⟨b, hb, hpl⟩ := List.mem_flatMap.mp hpl
    obtain ⟨dev, _, rfl⟩ := List.mem_map.mp hpl
    rw [decide_eq_true_eq]
    exact oneCard_silent (hne b hb) dev
  rw [places, hsplit, List.flatMap_cons, answering, List.filter_append]
  show answering _ _ _ ++ answering _ _ _ = _
  rw [hrest]
  decide +kernel

/-- nothing is written to configuration space that the card would show -/
theorem prompt_space (q : Tool α) : (prompt.play 0 q oneCard).2.1.space = oneCard.space := by
  refine prompt.play_keeps (I := fun w => w.space = oneCard.space) ?_ q 0 rfl
  intro _ w o w1 r w2 hw hact
  obtain ⟨_, hr⟩ := Prod.mk.inj (Option.some.inj hact)
  have h2 : (promptAnswer w o).2 = w2 := congrArg Prod.snd hr
  rw [← h2, promptAnswer_space, hw]

/-- the card is found on bus 0, and the interface has that number again -/
theorem sweep_exact_oneCard : ∃ tr r w',
    Runs env (pciscanMain true (.sweepBus false)) oneCard tr r w' ∧ w'.p2p = oneCard.p2p ∧
      (∀ e ∈ tr, Sweeping false 0 e) ∧ ∃ intro, (∀ l ∈ intro, Line.Intro l) ∧
        w'.said = intro ++ [.sweeping false, .found 0 1 0x401310ee, .swept 1 0] := by
  obtain ⟨r, hx⟩ := prompt_completes (pciscanMain true (.sweepBus false)) oneCard
  obtain ⟨hG, _, hp, intro, hi, hs⟩ := sweep_exact hx
  rw [prompt_space, oneCard_answering] at hs
  exact ⟨_, r, _, hx, hp, hG, intro, hi, hs⟩

end Pciscan
