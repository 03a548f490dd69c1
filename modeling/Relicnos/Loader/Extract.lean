import Relicnos.Xref.Refs
import Relicnos.Loader.Header

/-!
# From the vendor's image to the chips

`extract_cd2481_ucode.py` looks for the microcode in an image: a count of 8192 in big-endian order,
followed by as many instructions, the last ones of which are padding.

* `findCandidates`         the search, with `findCandidates_eq`: every place, in order;
* `extractMain`            what is written to the output file;
* `microcode_reaches_chips`  extractor, generator, compiler and driver one after the other.
-/

set_option linter.unusedVariables false

namespace Loader
open Interact Nm32a Csource
open Xref (find)

/-! ## the extractor -/

def BASE : Int := 0x4000F000
def LOAD : Int := 0x60
/-- where the payload is in one known image -/
def KNOWN_VA : Int := 0x44479D10
def INSNS : Nat := 8192
def BITS : Nat := 18
/-- the fill of what is left of the store -/
def PAD : Nat := 0x1E000

def size : Nat := INSNS * BITS / 8

def vaToOff (va : Int) : Int := va - BASE + LOAD

/-- an end of a slice: a negative one counts from the end of the bytes -/
def bound (n : Nat) (i : Int) : Nat := if i < 0 then (i + n).toNat else min i.toNat n

/-- `data[a:b]` -/
def slice (data : List UInt8) (a b : Int) : List UInt8 :=
  (data.take (bound data.length b)).drop (bound data.length a)

def looksLikeUcode (blob : List UInt8) : Bool :=
  if blob.length ≠ INSNS * BITS / 8 then false
  else if !(List.range 8).all fun k => unpack blob (INSNS - 1 - k) == PAD then false
  else decide ((blob.take 512).countP (fun b => 0x20 ≤ b && b < 0x7F) < 400)

/-- `struct.pack('>I', INSNS)` -/
def want : List UInt8 := [0x00, 0x00, 0x20, 0x00]

/-- what occurs somewhere occurs before the end -/
theorem prefix_drop_lt {d pat : List UInt8} {k : Nat} (h : pat <+: d.drop k) (hp : pat ≠ []) :
    k < d.length := by
  by_contra hk
  rw [List.drop_of_length_le (by omega)] at h
  exact hp (List.prefix_nil.mp h)

theorem find_within {d pat : List UInt8} {k : Nat} (h : find d pat = some k) (hp : pat ≠ []) :
    k < d.length := prefix_drop_lt (Xref.find_some _ _ _ h).1 hp

/-- the loop over the matches from `start` on; `out` is what was found before -/
def candidateLoop (data : List UInt8) (out : List (Nat × List UInt8)) (start : Nat) :
    List (Nat × List UInt8) :=
  match h : find (data.drop start) want with
  | none => out
  | some k =>
    let pos := start + k
    let blob := (data.drop (pos + 4)).take size
    let out := if blob.length = size ∧ looksLikeUcode blob then out ++ [(pos + 4, blob)] else out
    candidateLoop data out (pos + 1)
  termination_by data.length - start
  decreasing_by
    have := find_within h (by decide)
    rw [List.length_drop] at this
    omega

def findCandidates (data : List UInt8) : List (Nat × List UInt8) := candidateLoop data [] 0

inductive Exit where
  | noMicrocode
  | shortRead (got : Nat)
  deriving DecidableEq

/-- the offset that is reported and the bytes that are written; `at'` is the option `--at` -/
def extractMain (data : List UInt8) (at' : Option Int) : Except Exit (Int × List UInt8) := do
  let (off, blob) ← match at' with
    | some n =>
      let off := if n > 0x40000000 then vaToOff n else n
      pure (off, slice data off (off + size))
    | none =>
      match findCandidates data with
      | (off, blob) :: _ => pure ((off : Int), blob)
      | [] =>
        let off := vaToOff KNOWN_VA
        let blob := slice data off (off + size)
        if looksLikeUcode blob then pure (off, blob) else throw .noMicrocode
  if blob.length ≠ size then throw (.shortRead blob.length)
  return (off, blob)

/-! ## what the search finds -/

/-- a count, and microcode behind it -/
def Candidate (data : List UInt8) (pos : Nat) : Prop :=
  want <+: data.drop pos ∧ looksLikeUcode ((data.drop (pos + 4)).take size) = true

instance (data : List UInt8) (pos : Nat) : Decidable (Candidate data pos) :=
  inferInstanceAs (Decidable (_ ∧ _))

theorem looks_length {blob : List UInt8} (h : looksLikeUcode blob = true) : blob.length = size := by
  by_contra hl
  unfold looksLikeUcode at h
  rw [if_pos (show blob.length ≠ INSNS * BITS / 8 from hl)] at h
  cases h

/-- a place the count is not found at -/
theorem filter_none {data : List UInt8} {ps : List Nat} (h : ∀ p ∈ ps, ¬ want <+: data.drop p) :
    ps.filter (fun p => decide (Candidate data p)) = [] := by
  rw [List.filter_eq_nil_iff]
  intro p hp hc
  exact h p hp (of_decide_eq_true hc).1

theorem candidateLoop_eq (data : List UInt8) (out : List (Nat × List UInt8)) (start : Nat) :
    candidateLoop data out start = out ++
      ((List.range' start (data.length - start)).filter fun pos => decide (Candidate data pos)).map
        fun pos => (pos + 4, (data.drop (pos + 4)).take size) := by
  fun_induction candidateLoop data out start with
  | case1 out start h =>
    have hnone : ∀ p ∈ List.range' start (data.length - start), ¬ want <+: data.drop p := by
      intro p hp hpre
      obtain ⟨hle, _⟩ := List.mem_range'_1.mp hp
      apply Xref.find_none _ _ h (p - start)
      rwa [List.drop_drop, Nat.add_sub_cancel' hle]
    rw [filter_none hnone, List.map_nil, List.append_nil]
  | case2 out start k h pos blob out' ih =>
    obtain ⟨hpre, hfirst⟩ := Xref.find_some _ _ _ h
    have hk := find_within h (by decide)
    rw [List.length_drop] at hk
    rw [List.drop_drop] at hpre
    have hbefore : ∀ p ∈ List.range' start k, ¬ want <+: data.drop p := by
      intro p hp hp'
      obtain ⟨hle, hlt⟩ := List.mem_range'_1.mp hp
      apply hfirst (p - start) (by omega)
      rwa [List.drop_drop, Nat.add_sub_cancel' hle]
    have hsplit : List.range' start (data.length - start)
        = List.range' start k ++ pos :: List.range' (pos + 1) (data.length - (pos + 1)) := by
      rw [← List.range'_succ, List.range'_append_1]
      congr 1
      omega
    rw [ih, hsplit, List.filter_append, filter_none hbefore, List.nil_append, List.filter_cons]
    by_cases hc : looksLikeUcode blob = true
    · have hcand : Candidate data pos := ⟨hpre, hc⟩
      rw [if_pos (decide_eq_true hcand), List.map_cons]
      show (if blob.length = size ∧ looksLikeUcode blob = true then _ else _) ++ _ = _
      rw [if_pos ⟨looks_length hc, hc⟩, List.append_assoc]
      rfl
    · rw [if_neg fun hd => hc (of_decide_eq_true hd).2]
      show (if blob.length = size ∧ looksLikeUcode blob = true then _ else _) ++ _ = _
      rw [if_neg fun hb => hc hb.2]

/-- **The search finds every candidate, in order, also where two overlap.** -/
theorem findCandidates_eq (data : List UInt8) : findCandidates data =
    ((List.range data.length).filter fun pos => decide (Candidate data pos)).map
      fun pos => (pos + 4, (data.drop (pos + 4)).take size) := by
  unfold findCandidates
  rw [candidateLoop_eq, List.nil_append, Nat.sub_zero, List.range_eq_range']

theorem candidate_lt {data : List UInt8} {pos : Nat} (h : Candidate data pos) :
    pos < data.length := prefix_drop_lt h.1 (by decide)

theorem findCandidates_nil {data : List UInt8} :
    findCandidates data = [] ↔ ∀ pos, ¬Candidate data pos := by
  rw [findCandidates_eq, List.map_eq_nil_iff, List.filter_eq_nil_iff]
  constructor
  · intro h pos hc
    exact h pos (List.mem_range.mpr (candidate_lt hc)) (decide_eq_true hc)
  · intro h pos _ hc
    exact h pos (of_decide_eq_true hc)

/-- the first candidate -/
theorem findCandidates_cons {data : List UInt8} {off : Nat} {blob : List UInt8}
    {rest : List (Nat × List UInt8)} (h : findCandidates data = (off, blob) :: rest) :
    ∃ pos, Candidate data pos ∧ (∀ q < pos, ¬Candidate data q) ∧ off = pos + 4 ∧
      blob = (data.drop (pos + 4)).take size := by
  have hfind : (List.range data.length).find? (fun pos => decide (Candidate data pos))
      = ((List.range data.length).filter fun pos => decide (Candidate data pos)).head? :=
    List.head?_filter.symm
  rw [findCandidates_eq] at h
  obtain ⟨pos, ps, hps, hpos, _⟩ := List.map_eq_cons_iff.mp h
  rw [hps, List.head?_cons, List.find?_range_eq_some] at hfind
  obtain ⟨hc, _, hbefore⟩ := hfind
  refine ⟨pos, of_decide_eq_true hc, fun q hq hcq => ?_, ?_, ?_⟩
  · have := hbefore q hq
    rw [decide_eq_true hcq] at this
    cases this
  · exact (congrArg Prod.fst hpos).symm
  · exact (congrArg Prod.snd hpos).symm

/-- where the known image has it -/
def knownOff : Nat := 0x446AD70

/-- what the search settles on: the first candidate, or else the known place -/
inductive Found (data : List UInt8) : Int → List UInt8 → Prop
  | searched {pos : Nat} (h : Candidate data pos) (first : ∀ q < pos, ¬Candidate data q) :
    Found data ((pos + 4 : Nat) : Int) ((data.drop (pos + 4)).take size)
  | known (none : ∀ q, ¬Candidate data q)
    (looks : looksLikeUcode ((data.drop knownOff).take size) = true) :
    Found data (knownOff : Int) ((data.drop knownOff).take size)

theorem Found.looks {data blob : List UInt8} {off : Int} (h : Found data off blob) :
    looksLikeUcode blob = true := by
  cases h with
  | searched h _ => exact h.2
  | known _ looks => exact looks

theorem slice_nat (data : List UInt8) (a m : Nat) :
    slice data (a : Int) ((a + m : Nat) : Int) = (data.drop a).take m := by
  have hb : ∀ i : Nat, bound data.length (i : Int) = min i data.length := by
    intro i
    exact if_neg (by omega)
  unfold slice
  rw [hb, hb, List.drop_take]
  by_cases ha : a ≤ data.length
  · rw [Nat.min_eq_left ha, List.take_eq_take_iff, List.length_drop]
    omega
  · rw [List.drop_of_length_le (by omega), List.drop_of_length_le (by omega), List.take_nil,
      List.take_nil]

theorem slice_known (data : List UInt8) :
    slice data (vaToOff KNOWN_VA) (vaToOff KNOWN_VA + size) = (data.drop knownOff).take size :=
  slice_nat data knownOff size

theorem Found.unique {data blob blob' : List UInt8} {off off' : Int} (h : Found data off blob)
    (h' : Found data off' blob') : off = off' ∧ blob = blob' := by
  cases h with
  | @searched p h first =>
    cases h' with
    | @searched q h' first' =>
      have hle : p ≤ q := Nat.le_of_not_lt fun hlt => first q hlt h'
      have hge : q ≤ p := Nat.le_of_not_lt fun hlt => first' p hlt h
      obtain rfl := Nat.le_antisymm hle hge
      exact ⟨rfl, rfl⟩
    | known none _ => exact absurd h (none p)
  | known none _ =>
    cases h' with
    | searched h' _ => exact absurd h' (none _)
    | known _ _ => exact ⟨rfl, rfl⟩

/-- a run without the option -/
theorem extractMain_cases (data : List UInt8) :
    (∃ off blob, Found data off blob ∧ extractMain data none = .ok (off, blob)) ∨
    (∀ off blob, ¬Found data off blob) ∧ extractMain data none = .error .noMicrocode := by
  cases hc : findCandidates data with
  | cons c rest =>
    obtain ⟨off, blob⟩ := c
    obtain ⟨pos, hcand, hfirst, rfl, rfl⟩ := findCandidates_cons hc
    refine Or.inl ⟨_, _, .searched hcand hfirst, ?_⟩
    simp only [extractMain, hc]
    show (if ((data.drop (pos + 4)).take size).length ≠ size then _ else _) = _
    rw [if_neg (not_not_intro (looks_length hcand.2))]
    rfl
  | nil =>
    have hnone := findCandidates_nil.mp hc
    by_cases hk : looksLikeUcode ((data.drop knownOff).take size) = true
    · refine Or.inl ⟨_, _, .known hnone hk, ?_⟩
      simp only [extractMain, hc, slice_known]
      rw [if_pos hk]
      show (if ((data.drop knownOff).take size).length ≠ size then _ else _) = _
      rw [if_neg (not_not_intro (looks_length hk))]
      rfl
    · refine Or.inr ⟨fun off blob h => ?_, ?_⟩
      · cases h with
        | searched h _ => exact hnone _ h
        | known _ looks => exact hk looks
      · simp only [extractMain, hc, slice_known]
        rw [if_neg hk]
        rfl

/-- **The output is what the search settles on.** -/
theorem extractMain_ok {data blob : List UInt8} {off : Int} :
    extractMain data none = .ok (off, blob) ↔ Found data off blob := by
  obtain ⟨off', blob', hf, hrun⟩ | ⟨hno, hrun⟩ := extractMain_cases data
  · rw [hrun]
    constructor
    · intro h
      obtain ⟨rfl, rfl⟩ := Prod.mk.inj (Except.ok.inj h)
      exact hf
    · intro h
      obtain ⟨rfl, rfl⟩ := h.unique hf
      rfl
  · rw [hrun]
    constructor
    · intro h
      cases h
    · intro h
      exact absurd h (hno _ _)

/-- **There is none if it settles on nothing.** -/
theorem extractMain_error {data : List UInt8} {e : Exit} : extractMain data none = .error e ↔
    e = .noMicrocode ∧ ∀ off blob, ¬Found data off blob := by
  obtain ⟨off', blob', hf, hrun⟩ | ⟨hno, hrun⟩ := extractMain_cases data
  · rw [hrun]
    constructor
    · intro h
      cases h
    · intro h
      exact absurd hf (h.2 _ _)
  · rw [hrun]
    constructor
    · intro h
      exact ⟨(Except.error.inj h).symm, hno⟩
    · intro h
      rw [h.1]

/-- every output has the right size, also one that was asked for by its place -/
theorem extractMain_length {data blob : List UInt8} {at' : Option Int} {off : Int}
    (h : extractMain data at' = .ok (off, blob)) : blob.length = size := by
  cases at' with
  | none => exact looks_length (extractMain_ok.mp h).looks
  | some n =>
    have hend : ∀ o (b : List UInt8), (do
        if b.length ≠ size then throw (.shortRead b.length)
        return (o, b) : Except Exit (Int × List UInt8)) = .ok (off, blob) →
        blob.length = size := by
      intro o b hb
      by_cases hl : b.length ≠ size
      · rw [if_pos hl] at hb
        cases hb
      · rw [if_neg hl] at hb
        obtain ⟨_, rfl⟩ := Prod.mk.inj (Except.ok.inj hb)
        exact Decidable.not_not.mp hl
    exact hend _ _ h

/-! ## what the chips hold -/

section
variable {i j : Fin 8} {s : Store}

/-- the registers of a chip lie in its own part of the window -/
theorem chipOff_apart (hij : i ≠ j) {a b : Nat} (ha : a < 0x100) (hb : b < 0x100) :
    chipOff i + a ≠ chipOff j + b := by
  have hzero : ∀ k, chipOff k % 0x100 = 0 := by decide
  have hne : ∀ k l, k ≠ l → chipOff k ≠ chipOff l := by decide
  have := hzero i
  have := hzero j
  have := hne i j hij
  omega

/-- a write to a register of another chip -/
theorem write_other (hij : j ≠ i) {a : Nat} (ha : a < 0x100) (v : UInt8) :
    Store.write (chipOff i) s (chipOff j + a, v) = s := by
  have hne : ∀ b, b < 0x100 → chipOff j + a ≠ chipOff i + b := fun b => chipOff_apart hij ha
  unfold Store.write
  rw [if_neg (hne _ (by omega)), if_neg (hne _ (by omega)), if_neg (hne _ (by omega)),
    if_neg (hne _ (by omega)), if_neg fun h => hne _ (by omega) h.1]

/-- a download writes registers of its chip -/
theorem loadWrites_within {cbase : Nat} {insns : List UInt32} {w : Nat × UInt8}
    (h : w ∈ loadWrites cbase insns) : ∃ a v, a < 0x100 ∧ w = (cbase + a, v) := by
  have hair : ∀ b, w ∈ airWrites cbase b → ∃ a v, a < 0x100 ∧ w = (cbase + a, v) := by
    intro b hb
    simp only [airWrites, List.mem_cons, List.not_mem_nil, or_false] at hb
    obtain rfl | rfl | rfl := hb <;> exact ⟨_, _, by decide, rfl⟩
  simp only [loadWrites, setupWrites, startWrites, putWrites, List.mem_append, List.mem_flatMap,
    List.mem_cons, List.not_mem_nil, or_false] at h
  obtain ((h | ⟨_, _, h⟩) | h) | h := h
  · obtain h | rfl | rfl | rfl := h
    · exact hair _ h
    all_goals exact ⟨_, _, by decide, rfl⟩
  · obtain h | rfl := h
    · exact hair _ h
    · exact ⟨_, _, by decide, rfl⟩
  · obtain h | rfl | rfl | rfl | rfl | rfl := h
    · exact hair _ h
    all_goals exact ⟨_, _, by decide, rfl⟩
  · obtain rfl := h
    exact ⟨_, _, by decide, rfl⟩

/-- the download of another chip -/
theorem foldl_other (hij : j ≠ i) (insns : List UInt32) :
    (loadWrites (chipOff j) insns).foldl (Store.write (chipOff i)) s = s := by
  have hall : ∀ ws : List (Nat × UInt8), (∀ w ∈ ws, w ∈ loadWrites (chipOff j) insns) →
      ws.foldl (Store.write (chipOff i)) s = s := by
    intro ws hws
    induction ws with
    | nil => rfl
    | cons w ws ih =>
      obtain ⟨a, v, ha, rfl⟩ := loadWrites_within (hws w List.mem_cons_self)
      rw [List.foldl_cons, write_other hij ha, ih fun x hx => hws x (List.mem_cons_of_mem _ hx)]
  exact hall _ fun w hw => hw

/-- the downloads of several chips store in each of them what its own stores -/
theorem stored_chips {chips : List (Fin 8)} (hn : chips.Nodup) (insns : List UInt32)
    (h : ∀ insn ∈ insns, insn.toNat < 2 ^ 18) :
    ((chips.flatMap fun k => loadWrites (chipOff k) insns).foldl
      (Store.write (chipOff i)) s).words
        = if i ∈ chips then s.words ++ insns.map UInt32.toNat else s.words := by
  induction chips generalizing s with
  | nil => rfl
  | cons k chips ih =>
    obtain ⟨hk, hn⟩ := List.nodup_cons.mp hn
    rw [List.flatMap_cons, List.foldl_append, ih hn]
    by_cases hik : i = k
    · obtain rfl := hik
      rw [if_neg hk, if_pos List.mem_cons_self, stored_load insns h]
    · rw [foldl_other (fun he => hik he.symm)]
      simp only [List.mem_cons, hik, false_or]

end

/-- **From the image to the chips**: the extractor writes out what it was looking for, if there is
any; the header generated from its output compiles to the same bytes and the count 8192; and a
probe of the driver compiled with it leaves every chip with just the instructions of the output. -/
theorem microcode_reaches_chips (data : List UInt8) (at' : Option Int) :
    (∀ off blob, extractMain data none = .ok (off, blob) ↔ Found data off blob) ∧
    (∀ e, extractMain data none = .error e ↔
      e = .noMicrocode ∧ ∀ off blob, ¬Found data off blob) ∧
    ∀ off blob, extractMain data at' = .ok (off, blob) →
      ∃ t, genUcodeHeader blob = .ok t ∧ includeHeader t = some ⟨blob, 8192⟩ ∧
        ∀ turns, ∃ ws, (nm32aProbe ⟨blob, 8192⟩ turns).Emits regWrite ws ∧
          ∀ (i : Fin 8) (s : Store), (ws.foldl (Store.write (chipOff i)) s).words
            = s.words ++ (List.range INSNS).map (unpack blob) := by
  refine ⟨fun off blob => extractMain_ok, fun e => extractMain_error, fun off blob h => ?_⟩
  have hlen : blob.length = 18432 := extractMain_length h
  obtain ⟨t, ht, hu⟩ := header_reads_back hlen
  refine ⟨t, ht, hu, fun turns => ⟨_, emits_probe ⟨blob, hlen⟩ turns, fun i s => ?_⟩⟩
  have hlt : ∀ insn ∈ insns blob, insn.toNat < 2 ^ 18 := by
    intro insn hm
    rw [Image.insns_eq ⟨blob, hlen⟩] at hm
    obtain ⟨k, hk, rfl⟩ := List.mem_map.mp hm
    exact Image.insn_lt ⟨blob, hlen⟩ ⟨k, List.mem_range.mp hk⟩
  have hwords : (insns blob).map UInt32.toNat = (List.range INSNS).map (unpack blob) := by
    rw [Image.insns_eq ⟨blob, hlen⟩, List.map_map]
    apply List.map_congr_left
    intro k _
    show (ucodeInsn (Image.ucode ⟨blob, hlen⟩) k).toNat = unpack blob k
    rw [ucodeInsn_eq, insnAt_eq]
    rfl
  rw [stored_chips (by decide) _ hlt, if_pos (by revert i; decide), hwords]

/-- four instructions are nine bytes -/
theorem unpack_append {a : List UInt8} {q : Nat} (ha : a.length = 9 * q) (b : List UInt8)
    (i : Nat) :
    unpack (a ++ b) (4 * q + i) = unpack b i := by
  have hbyte : ((4 * q + i) * 18) >>> 3 = 9 * q + (i * 18) >>> 3 := by
    rw [Nat.shiftRight_eq_div_pow, Nat.shiftRight_eq_div_pow]
    omega
  have hbit : (4 * q + i) * 18 &&& 7 = i * 18 &&& 7 := by
    have h7 : ∀ x : Nat, x &&& 7 = x % 8 := fun x => Nat.and_two_pow_sub_one_eq_mod x 3
    rw [h7, h7]
    omega
  have hget : ∀ x, (a ++ b).getD (9 * q + x) 0 = b.getD x 0 := by
    intro x
    rw [List.getD_append_right _ _ _ _ (by omega), ha, Nat.add_sub_cancel_left]
  have hlt : ∀ x, 9 * q + x < (a ++ b).length ↔ x < b.length := by
    intro x
    rw [List.length_append, ha]
    omega
  unfold unpack
  simp only [hbyte, hbit, Nat.add_assoc, hget, hlt]

/-- eight instructions of padding -/
def padded : List UInt8 :=
  [0x00, 0xE0, 0x01, 0x80, 0x07, 0x00, 0x1E, 0x00, 0x78,
    0x00, 0xE0, 0x01, 0x80, 0x07, 0x00, 0x1E, 0x00, 0x78]

/-- microcode that is zero but for its padding -/
def zeros : List UInt8 := List.replicate (9 * 2046) 0 ++ padded

theorem zeros_looks : looksLikeUcode zeros = true := by
  have hlen : zeros.length = INSNS * BITS / 8 := by
    unfold zeros
    rw [List.length_append, List.length_replicate]
    rfl
  have hpad : ∀ k < 8, unpack padded (7 - k) = PAD := by decide
  have hall : (List.range 8).all (fun k => unpack zeros (INSNS - 1 - k) == PAD) = true := by
    rw [List.all_eq_true]
    intro k hk
    have hk := List.mem_range.mp hk
    have hidx : INSNS - 1 - k = 4 * 2046 + (7 - k) := by
      show 8191 - k = _
      omega
    rw [hidx, zeros, unpack_append List.length_replicate, hpad k hk]
    exact beq_self_eq_true PAD
  have hfew : (zeros.take 512).countP (fun b => 0x20 ≤ b && b < 0x7F) < 400 := by
    have hle : 512 ≤ (List.replicate (9 * 2046) (0 : UInt8)).length := by
      rw [List.length_replicate]
      decide
    rw [zeros, List.take_append_of_le_length hle, List.take_replicate, List.countP_replicate]
    decide
  unfold looksLikeUcode
  rw [if_neg (not_not_intro hlen), hall, decide_eq_true hfew]
  rfl

/-- an image that starts with it -/
theorem microcode_reaches_chips_zeros : ∃ t, genUcodeHeader zeros = .ok t ∧
    includeHeader t = some ⟨zeros, 8192⟩ ∧
    ∀ turns, ∃ ws, (nm32aProbe ⟨zeros, 8192⟩ turns).Emits regWrite ws ∧
      ∀ (i : Fin 8) (s : Store), (ws.foldl (Store.write (chipOff i)) s).words
        = s.words ++ (List.range INSNS).map (unpack zeros) := by
  obtain ⟨hok, _, hrun⟩ := microcode_reaches_chips (want ++ zeros) none
  have htake : ((want ++ zeros).drop (0 + 4)).take size = zeros := by
    have hdrop : (want ++ zeros).drop want.length = zeros := List.drop_left
    have hfour : want.length = 0 + 4 := rfl
    rw [hfour] at hdrop
    rw [hdrop, List.take_of_length_le (Nat.le_of_eq (looks_length zeros_looks))]
  have hc : Candidate (want ++ zeros) 0 := by
    refine ⟨List.prefix_append _ _, ?_⟩
    rw [htake]
    exact zeros_looks
  have hf := Found.searched hc fun q hq => absurd hq (Nat.not_lt_zero q)
  rw [htake] at hf
  exact hrun _ _ ((hok _ _).mpr hf)

end Loader
