import Mathlib.Data.List.TakeWhile
import Relicnos.Interact.Lines
import Relicnos.Nmconsole.Server

/-!
# The speed table

`load_speed_conf` reads the table with `fgets` into a buffer of 128 bytes and takes what is in the
buffer for a line.

* `scanPair`               `sscanf` with `"%d %d"`, which stores numbers of any size in an `int`;
* `loadSpeedConf`          the driver of the table;
* `speedsByLine`           what a table of lines says;
* `Unwrapped`              the numbers of a line are not changed by that;
* `speed_lines_lengths`    the two agree exactly if no line is longer than the buffer, and the
  numbers fit.
-/

set_option linter.unusedVariables false

namespace Nmconsole

open Interact

abbrev Text := List UInt8

def newline : UInt8 := 0x0A
def hash : UInt8 := 0x23

/-! ## sscanf -/

def isSpace (c : UInt8) : Bool := c == 0x20 || (0x09 ≤ c && c ≤ 0x0D)

def isDigit (c : UInt8) : Bool := 0x30 ≤ c && c ≤ 0x39

/-- a sign, and what follows it -/
def scanSign : Text → Bool × Text
  | [] => (false, [])
  | c :: s => if c = 0x2D then (true, s) else if c = 0x2B then (false, s) else (false, c :: s)

/-- the number that digits stand for -/
def value (neg : Bool) (ds : Text) : Int :=
  let v := ds.foldl (fun v d => 10 * v + (d.toNat - 0x30 : Nat)) (0 : Nat)
  if neg then -(v : Int) else v

/-- a number at the front of a text, of any size, and what follows it -/
def scanNumber (s : Text) : Option (Int × Text) :=
  let (neg, s) := scanSign (s.dropWhile isSpace)
  if s.takeWhile isDigit = [] then none
  else some (value neg (s.takeWhile isDigit), s.dropWhile isDigit)

/-- two numbers at the front of a text -/
def scanNumbers (s : Text) : Option (Int × Int) := do
  let (n, s) ← scanNumber s
  let (baud, _) ← scanNumber (s.dropWhile isSpace)
  return (n, baud)

/-- what `%d` stores of a number: the low 32 bits, those of `ULLONG_MAX` for one that is beyond
that -/
def toInt (x : Int) : Int :=
  let r := (if x.natAbs ≤ 18446744073709551615 then x else 18446744073709551615) % 4294967296
  if r < 2147483648 then r else r - 4294967296

/-- `%d` -/
def scanInt (s : Text) : Option (Int × Text) := (scanNumber s).map fun r => (toInt r.1, r.2)

/-- `"%d %d"`, when it makes two assignments -/
def scanPair (s : Text) : Option (Int × Int) := do
  let (n, s) ← scanInt s
  let (baud, _) ← scanInt (s.dropWhile isSpace)
  return (n, baud)

/-! ## the table -/

abbrev Speeds := Fin maxp → Int

def setPortSpeed (n baud : Int) (portSpeed : Speeds) : Speeds :=
  if 0 ≤ n ∧ n < maxp then fun i => if (i.val : Int) = n then baud else portSpeed i else portSpeed

/-- the characters a line in the buffer holds -/
def lineRoom : Nat := 127

instance : NeZero lineRoom := ⟨by decide⟩

/-- the line up to its `#`, as a string: it ends at a zero byte -/
def uncomment (line : Text) : Text := (line.takeWhile (· ≠ 0)).takeWhile (· ≠ hash)

/-- the file's content, none if it cannot be opened; the count and the table -/
def loadSpeedConf (file : Option Text) (portSpeed : Speeds) : Nat × Speeds :=
  match file with
  | none => (0, portSpeed)
  | some content =>
    (reads newline lineRoom content).foldl (fun (count, portSpeed) line =>
      match scanPair (uncomment line) with
      | some (n, baud) => (count + 1, setPortSpeed n baud portSpeed)
      | none => (count, portSpeed)) (0, portSpeed)

/-! ## what the table says -/

/-- a line: what stands before its `#` -/
def assign (portSpeed : Speeds) (line : Text) : Speeds :=
  match scanNumbers (line.takeWhile (· ≠ hash)) with
  | some (n, baud) => setPortSpeed n baud portSpeed
  | none => portSpeed

def speedsByLine (content : Text) (portSpeed : Speeds) : Speeds :=
  (content.splitOn newline).foldl assign portSpeed

def IsPort (n : Int) : Prop := 0 ≤ n ∧ n < maxp

def IsInt (x : Int) : Prop := -2147483648 ≤ x ∧ x ≤ 2147483647

/-- the speed of a port is an `int`, and a number that is no port does not become one when its low
32 bits are taken -/
def Unwrapped (line : Text) : Prop :=
  ∀ n baud, scanNumbers (line.takeWhile (· ≠ hash)) = some (n, baud) →
    (IsPort n → IsInt baud) ∧
      (¬IsPort n → n.natAbs ≤ 18446744073709551615 → 32 ≤ n % 4294967296)

/-! ## scanning -/

section
variable {s t : Text}

theorem dropWhile_idem (p : UInt8 → Bool) (s : Text) :
    (s.dropWhile p).dropWhile p = s.dropWhile p := by
  induction s with
  | nil => rfl
  | cons c s ih =>
    by_cases hc : p c = true
    · rw [List.dropWhile_cons_of_pos hc, ih]
    · rw [List.dropWhile_cons_of_neg hc, List.dropWhile_cons_of_neg hc]

theorem scanNumber_dropWhile (s : Text) : scanNumber (s.dropWhile isSpace) = scanNumber s := by
  unfold scanNumber
  rw [dropWhile_idem]

theorem scanSign_append (hs : s ≠ []) (t : Text) :
    scanSign (s ++ t) = ((scanSign s).1, (scanSign s).2 ++ t) := by
  cases s with
  | nil => exact absurd rfl hs
  | cons c s =>
    simp only [scanSign, List.cons_append]
    split
    · rfl
    · split <;> rfl

theorem takeWhile_stop {p : UInt8 → Bool} (s : Text) (h : ∀ c ∈ t.head?, p c = false) :
    (s ++ t).takeWhile p = s.takeWhile p ∧ (s ++ t).dropWhile p = s.dropWhile p ++ t := by
  induction s with
  | nil =>
    cases t with
    | nil => exact ⟨rfl, rfl⟩
    | cons c t =>
      have hc : ¬ p c = true := by
        rw [h c rfl]
        exact Bool.false_ne_true
      exact ⟨List.takeWhile_cons_of_neg hc, List.dropWhile_cons_of_neg hc⟩
  | cons c s ih =>
    by_cases hc : p c = true
    · rw [List.cons_append, List.takeWhile_cons_of_pos hc, List.takeWhile_cons_of_pos hc,
        List.dropWhile_cons_of_pos hc, List.dropWhile_cons_of_pos hc, ih.1, ih.2]
      exact ⟨rfl, rfl⟩
    · rw [List.cons_append, List.takeWhile_cons_of_neg hc, List.takeWhile_cons_of_neg hc,
        List.dropWhile_cons_of_neg hc, List.dropWhile_cons_of_neg hc]
      exact ⟨rfl, rfl⟩

/-- text that no number starts with, nor goes on with, changes no number before it -/
theorem scanNumber_append (s : Text) (hd : ∀ c ∈ t.head?, isDigit c = false)
    (hn : scanNumber t = none) :
    scanNumber (s ++ t) = (scanNumber s).map fun r => (r.1, r.2 ++ t) := by
  by_cases hs : s.dropWhile isSpace = []
  · have hall : ∀ c ∈ s, isSpace c = true := List.dropWhile_eq_nil_iff.mp hs
    have hleft : scanNumber (s ++ t) = scanNumber t := by
      unfold scanNumber
      rw [List.dropWhile_append_of_pos hall]
    have hnone : scanNumber s = none := by
      unfold scanNumber
      rw [hs]
      rfl
    rw [hleft, hn, hnone]
    rfl
  · have hdrop : (s ++ t).dropWhile isSpace = s.dropWhile isSpace ++ t := by
      rw [List.dropWhile_append, if_neg (by simpa using hs)]
    unfold scanNumber
    rw [hdrop, scanSign_append hs]
    obtain ⟨ht, hd⟩ := takeWhile_stop (scanSign (s.dropWhile isSpace)).2 hd
    simp only [ht, hd]
    split <;> rfl

theorem scanNumbers_append (s : Text) (hd : ∀ c ∈ t.head?, isDigit c = false)
    (hn : scanNumber t = none) : scanNumbers (s ++ t) = scanNumbers s := by
  unfold scanNumbers
  rw [scanNumber_append s hd hn]
  cases scanNumber s with
  | none => rfl
  | some r =>
    show (scanNumber ((r.2 ++ t).dropWhile isSpace)).bind _
      = (scanNumber (r.2.dropWhile isSpace)).bind _
    rw [scanNumber_dropWhile, scanNumber_dropWhile, scanNumber_append r.2 hd hn]
    cases scanNumber r.2 <;> rfl

/-- no number has the character in it, or before it -/
def Foreign (x : UInt8) : Prop :=
  isSpace x = false ∧ isDigit x = false ∧ x ≠ 0x2D ∧ x ≠ 0x2B

theorem Foreign.scanNumber {x : UInt8} (hx : Foreign x) (s : Text) :
    scanNumber (x :: s) = none := by
  obtain ⟨hsp, hdg, hm, hp⟩ := hx
  unfold Nmconsole.scanNumber
  rw [List.dropWhile_cons_of_neg (by rw [hsp]; exact Bool.false_ne_true)]
  show (if ((if x = 0x2D then (true, s) else if x = 0x2B then (false, s) else (false, x :: s)) :
    Bool × Text).2.takeWhile isDigit = [] then none else _) = none
  rw [if_neg hm, if_neg hp, if_pos]
  exact List.takeWhile_cons_of_neg (by rw [hdg]; exact Bool.false_ne_true)

/-- what stands after such a character does not matter -/
theorem Foreign.scanNumbers {x : UInt8} (hx : Foreign x) (s : Text) :
    scanNumbers (s.takeWhile (· ≠ x)) = scanNumbers s := by
  have hs := List.takeWhile_append_dropWhile (p := fun c => decide (c ≠ x)) (l := s)
  cases ht : s.dropWhile (· ≠ x) with
  | nil =>
    rw [ht, List.append_nil] at hs
    rw [hs]
  | cons c t =>
    have hc : c = x := by
      have hhead := List.head?_dropWhile_not (fun c => decide (c ≠ x)) s
      rw [ht] at hhead
      exact not_not.mp (of_decide_eq_false hhead)
    rw [ht] at hs
    conv_rhs => rw [← hs]
    refine (scanNumbers_append _ ?_ ?_).symm
    · intro d hd
      cases hd
      rw [hc]
      exact hx.2.1
    · rw [hc]
      exact hx.scanNumber t

theorem foreign_hash : Foreign hash := by
  unfold Foreign
  decide

theorem scanNumbers_uncomment (line : Text) : scanNumbers (uncomment line) = scanNumbers line := by
  have hzero : Foreign 0 := by unfold Foreign; decide
  unfold uncomment
  rw [foreign_hash.scanNumbers, hzero.scanNumbers]

/-- what is stored of the two numbers -/
theorem scanPair_eq (s : Text) :
    scanPair s = (scanNumbers s).map fun r => (toInt r.1, toInt r.2) := by
  unfold scanPair scanNumbers scanInt
  cases scanNumber s with
  | none => rfl
  | some r =>
    show ((scanNumber (r.2.dropWhile isSpace)).map _).bind _
      = ((scanNumber (r.2.dropWhile isSpace)).bind _).map _
    cases scanNumber (r.2.dropWhile isSpace) <;> rfl

/-- a line whose two numbers are taken for `conv` of them -/
def assignBy (conv : Int → Int) (portSpeed : Speeds) (line : Text) : Speeds :=
  match scanNumbers line with
  | some (n, baud) => setPortSpeed (conv n) (conv baud) portSpeed
  | none => portSpeed

theorem assign_eq : assign = assignBy id := by
  funext portSpeed line
  unfold assign assignBy
  rw [foreign_hash.scanNumbers]
  rfl

theorem assignBy_newline (conv : Int → Int) (portSpeed : Speeds) (line : Text) :
    assignBy conv portSpeed (line ++ [newline]) = assignBy conv portSpeed line := by
  have hd : ∀ c ∈ [newline].head?, isDigit c = false := by
    intro c hc
    cases hc
    rfl
  unfold assignBy
  rw [scanNumbers_append line hd rfl]

end

/-! ## numbers that fit -/

theorem toInt_eq_iff (x : Int) : toInt x = x ↔ IsInt x := by
  unfold toInt IsInt
  dsimp only
  split <;> split <;> omega

/-- which numbers are stored as the number of a port -/
theorem isPort_toInt (n : Int) :
    IsPort (toInt n) ↔ n.natAbs ≤ 18446744073709551615 ∧ n % 4294967296 < 32 := by
  unfold toInt IsPort maxp
  dsimp only
  split <;> split <;> omega

theorem IsPort.toInt_eq {n : Int} (h : IsPort n) : toInt n = n := by
  rw [toInt_eq_iff]
  unfold IsPort maxp at h
  unfold IsInt
  omega

theorem setPortSpeed_port {n : Int} (h : IsPort n) (baud : Int) (portSpeed : Speeds) :
    ∃ i : Fin maxp, (i.val : Int) = n ∧ setPortSpeed n baud portSpeed i = baud := by
  have hlt : n.toNat < maxp := (Int.toNat_lt h.1).mpr h.2
  have hval : (n.toNat : Int) = n := Int.toNat_of_nonneg h.1
  refine ⟨⟨n.toNat, hlt⟩, hval, ?_⟩
  exact (congrFun (if_pos h) _).trans (if_pos hval)

theorem setPortSpeed_none {n : Int} (h : ¬IsPort n) (baud : Int) (portSpeed : Speeds) :
    setPortSpeed n baud portSpeed = portSpeed := if_neg h

/-- **What is stored of a line says the same as the line**, for every table, exactly if its numbers
fit. -/
theorem unwrapped_iff (line : Text) : Unwrapped line ↔
    ∀ portSpeed, assignBy toInt portSpeed line = assignBy id portSpeed line := by
  unfold Unwrapped assignBy
  rw [foreign_hash.scanNumbers]
  cases scanNumbers line with
  | none => exact ⟨fun _ _ => rfl, fun _ _ _ h => nomatch h⟩
  | some r =>
    obtain ⟨n, baud⟩ := r
    constructor
    · intro h portSpeed
      obtain ⟨hbaud, hn⟩ := h n baud rfl
      by_cases hp : IsPort n
      · show setPortSpeed (toInt n) (toInt baud) portSpeed = setPortSpeed n baud portSpeed
        rw [hp.toInt_eq, (toInt_eq_iff baud).mpr (hbaud hp)]
      · have hno : ¬IsPort (toInt n) := by
          rw [isPort_toInt]
          intro ⟨hle, hlt⟩
          have := hn hp hle
          omega
        exact (setPortSpeed_none hno _ _).trans (setPortSpeed_none hp _ _).symm
    · rintro h _ _ ⟨⟩
      constructor
      · intro hp
        have heq : setPortSpeed (toInt n) (toInt baud) (fun _ => 0)
          = setPortSpeed n baud fun _ => 0 := h fun _ => 0
        rw [hp.toInt_eq] at heq
        obtain ⟨i, hi, hset⟩ := setPortSpeed_port hp baud fun _ => 0
        obtain ⟨k, hk, hset2⟩ := setPortSpeed_port hp (toInt baud) fun _ => 0
        obtain rfl : i = k := Fin.ext (Int.ofNat.inj (hi.trans hk.symm))
        rw [← toInt_eq_iff, ← hset2, heq, hset]
      · intro hp hle
        by_contra hlow
        have hport : IsPort (toInt n) := by
          rw [isPort_toInt]
          omega
        -- a table that differs from what is stored
        have heq : setPortSpeed (toInt n) (toInt baud) (fun _ => toInt baud + 1)
          = setPortSpeed n baud fun _ => toInt baud + 1 := h fun _ => toInt baud + 1
        obtain ⟨i, _, hset⟩ := setPortSpeed_port hport (toInt baud) fun _ => toInt baud + 1
        rw [heq, setPortSpeed_none hp] at hset
        omega

/-- numbers that are `int`s fit -/
theorem unwrapped_of_isInt {line : Text}
    (h : ∀ n baud, scanNumbers (line.takeWhile (· ≠ hash)) = some (n, baud) →
      IsInt n ∧ IsInt baud) :
    Unwrapped line := by
  intro n baud hs
  obtain ⟨hn, hbaud⟩ := h n baud hs
  refine ⟨fun _ => hbaud, fun hp _ => ?_⟩
  unfold IsInt at hn
  unfold IsPort maxp at hp
  omega

/-! ## the driver -/

/-- **Each read is taken for a line.** -/
theorem loadSpeedConf_reads (content : Text) (portSpeed : Speeds) :
    (loadSpeedConf (some content) portSpeed).2
      = (reads newline lineRoom content).foldl (assignBy toInt) portSpeed := by
  show (List.foldl _ (0, portSpeed) _).2 = _
  refine (List.foldl_hom Prod.snd ?_).symm
  intro ⟨count, tbl⟩ line
  rw [scanPair_eq, scanNumbers_uncomment]
  unfold assignBy
  cases scanNumbers line <;> rfl

theorem loadSpeedConf_pieces (content : Text) (portSpeed : Speeds) :
    (loadSpeedConf (some content) portSpeed).2
      = ((content.splitOn newline).flatMap (pieces lineRoom)).foldl (assignBy toInt) portSpeed := by
  rw [loadSpeedConf_reads]
  exact foldl_reads (assignBy_newline toInt) (fun _ => rfl) content portSpeed

theorem loadSpeedConf_short {content : Text}
    (h : ∀ l ∈ content.splitOn newline, l.length ≤ lineRoom) (portSpeed : Speeds) :
    (loadSpeedConf (some content) portSpeed).2
      = (content.splitOn newline).foldl (assignBy toInt) portSpeed := by
  rw [loadSpeedConf_reads]
  exact foldl_lines (assignBy_newline toInt) (fun _ => rfl) h portSpeed

/-- **A table of short lines whose numbers fit is read right.** -/
theorem loadSpeedConf_unwrapped {content : Text}
    (h : ∀ l ∈ content.splitOn newline, l.length ≤ lineRoom ∧ Unwrapped l) (portSpeed : Speeds) :
    (loadSpeedConf (some content) portSpeed).2 = speedsByLine content portSpeed := by
  rw [loadSpeedConf_short fun l hl => (h l hl).1]
  unfold speedsByLine
  rw [assign_eq]
  exact List.foldl_ext _ _ _ fun tbl l hl => (unwrapped_iff l).mp (h l hl).2 tbl

/-! ## a line that is cut -/

/-- a line of `n` spaces -/
def blank (n : Nat) : Text := List.replicate n 0x20

theorem scanNumber_blank (n : Nat) (t : Text) : scanNumber (blank n ++ t) = scanNumber t := by
  have hall : ∀ c ∈ blank n, isSpace c = true := by
    intro c hc
    rw [(List.mem_replicate.mp hc).2]
    rfl
  unfold scanNumber
  rw [List.dropWhile_append_of_pos hall]

theorem scanNumbers_blank (n : Nat) (t : Text) : scanNumbers (blank n ++ t) = scanNumbers t := by
  unfold scanNumbers
  rw [scanNumber_blank]

/-- spaces after a line do not matter -/
theorem scanNumbers_trailing (s : Text) (n : Nat) : scanNumbers (s ++ blank n) = scanNumbers s := by
  apply scanNumbers_append
  · intro c hc
    rw [(List.mem_replicate.mp (List.mem_of_mem_head? hc)).2]
    rfl
  · rw [← List.append_nil (blank n), scanNumber_blank]
    rfl

section
variable (conv : Int → Int)

/-- one number and spaces, or spaces alone, assign nothing -/
theorem assign_one (portSpeed : Speeds) (s : Text) (hs : scanNumbers s = none) (n : Nat) :
    assignBy conv portSpeed (s ++ blank n) = portSpeed := by
  unfold assignBy
  rw [scanNumbers_trailing, hs]

theorem foldl_blank (portSpeed : Speeds) (n : Nat) :
    (pieces lineRoom (blank n)).foldl (assignBy conv) portSpeed = portSpeed := by
  have hone : ∀ m, assignBy conv portSpeed (blank m) = portSpeed := assign_one conv portSpeed [] rfl
  rw [pieces]
  by_cases h : (blank n).length < lineRoom
  · rw [if_pos h]
    exact hone n
  · have htake : (blank n).take lineRoom = blank (min lineRoom n) := List.take_replicate
    have hdrop : (blank n).drop lineRoom = blank (n - lineRoom) := List.drop_replicate
    rw [if_neg h, List.foldl_cons, htake, hdrop, hone]
    exact foldl_blank portSpeed (n - lineRoom)
termination_by n
decreasing_by
  have hlen : (blank n).length = n := List.length_replicate
  rw [hlen] at h
  unfold lineRoom at *
  omega

/-- the buffer ends within its second number -/
def cutLine (n : Nat) : Text := blank 124 ++ ([0x30, 0x20, 0x31] ++ ([0x31] ++ blank n))

theorem scanNumbers_cutLine (n : Nat) : scanNumbers (cutLine n) = some (0, 11) := by
  unfold cutLine
  rw [scanNumbers_blank, ← List.append_assoc, scanNumbers_trailing]
  decide

/-- the line says 11, the buffer 1 -/
theorem cutLine_speeds (portSpeed : Speeds) (n : Nat) :
    assignBy conv portSpeed (cutLine n) = setPortSpeed (conv 0) (conv 11) portSpeed ∧
      (pieces lineRoom (cutLine n)).foldl (assignBy conv) portSpeed
        = setPortSpeed (conv 0) (conv 1) portSpeed := by
  constructor
  · unfold assignBy
    rw [scanNumbers_cutLine]
  · have hlen : (cutLine n).length = lineRoom + (n + 1) := by
      unfold cutLine blank lineRoom
      simp only [List.length_append, List.length_replicate, List.length_cons, List.length_nil]
      omega
    have hsplit : cutLine n = (blank 124 ++ [0x30, 0x20, 0x31]) ++ ([0x31] ++ blank n) := by
      unfold cutLine
      rw [List.append_assoc]
    have hroom : (blank 124 ++ [0x30, 0x20, 0x31]).length = lineRoom := by
      rw [List.length_append, blank, List.length_replicate]
      rfl
    have hfirst : assignBy conv portSpeed (blank 124 ++ [0x30, 0x20, 0x31])
        = setPortSpeed (conv 0) (conv 1) portSpeed := by
      unfold assignBy
      rw [scanNumbers_blank, show scanNumbers [0x30, 0x20, 0x31] = some (0, 1) by decide]
    rw [pieces, if_neg (by omega), hsplit, List.take_left' hroom, List.drop_left' hroom,
      List.foldl_cons, hfirst, pieces]
    by_cases h : ([0x31] ++ blank n).length < lineRoom
    · rw [if_pos h]
      exact assign_one _ _ [0x31] (by decide) n
    · have htake : ([0x31] ++ blank n).take lineRoom = [0x31] ++ blank (min 126 n) := by
        show (0x31 : UInt8) :: (List.replicate n 0x20).take 126 = _
        rw [List.take_replicate]
        rfl
      have hdrop : ([0x31] ++ blank n).drop lineRoom = blank (n - 126) := List.drop_replicate
      rw [if_neg h, List.foldl_cons, htake, hdrop, assign_one _ _ [0x31] (by decide)]
      exact foldl_blank _ _ _

theorem length_cutLine (n : Nat) : (cutLine n).length = n + 128 := by
  unfold cutLine blank
  simp only [List.length_append, List.length_replicate, List.length_cons, List.length_nil]
  omega

theorem foldl_blanks (portSpeed : Speeds) (ns : List Nat) :
    (ns.map blank).foldl (assignBy conv) portSpeed = portSpeed ∧
      ((ns.map blank).flatMap (pieces lineRoom)).foldl (assignBy conv) portSpeed = portSpeed := by
  induction ns with
  | nil => exact ⟨rfl, rfl⟩
  | cons n ns ih =>
    have hone : assignBy conv portSpeed (blank n) = portSpeed := assign_one conv portSpeed [] rfl n
    rw [List.map_cons, List.foldl_cons, hone, List.flatMap_cons, List.foldl_append, foldl_blank]
    exact ih

end

/-- its numbers are small -/
theorem unwrapped_cutLine (n : Nat) : Unwrapped (cutLine n) := by
  apply unwrapped_of_isInt
  rw [foreign_hash.scanNumbers, scanNumbers_cutLine]
  rintro _ _ ⟨⟩
  unfold IsInt
  decide

theorem unwrapped_blank (n : Nat) : Unwrapped (blank n) := by
  apply unwrapped_of_isInt
  rw [foreign_hash.scanNumbers, ← List.nil_append (blank n), scanNumbers_trailing]
  exact fun _ _ h => nomatch h

theorem newline_blank (n : Nat) : newline ∉ blank n := by
  intro h
  exact absurd (List.mem_replicate.mp h).2 (by decide)

theorem newline_cutLine (n : Nat) : newline ∉ cutLine n := by
  unfold cutLine
  intro h
  rw [List.mem_append, List.mem_append, List.mem_append] at h
  obtain h | h | h | h := h
  · exact newline_blank _ h
  · exact absurd h (by decide)
  · exact absurd h (by decide)
  · exact newline_blank _ h

/-- a file with one line that is cut, among empty ones -/
theorem cutFile (as bs : List Nat) (n : Nat) : ∃ content : Text,
    (content.splitOn newline).map List.length = as ++ (n + 128) :: bs ∧
      (∀ l ∈ content.splitOn newline, Unwrapped l) ∧
      ∀ portSpeed, speedsByLine content portSpeed = setPortSpeed 0 11 portSpeed ∧
        (loadSpeedConf (some content) portSpeed).2 = setPortSpeed 0 1 portSpeed := by
  have hlines : ∀ l ∈ as.map blank ++ cutLine n :: bs.map blank, newline ∉ l ∧ Unwrapped l := by
    intro l hl
    rw [List.mem_append, List.mem_cons, List.mem_map, List.mem_map] at hl
    obtain ⟨k, _, rfl⟩ | rfl | ⟨k, _, rfl⟩ := hl
    · exact ⟨newline_blank k, unwrapped_blank k⟩
    · exact ⟨newline_cutLine n, unwrapped_cutLine n⟩
    · exact ⟨newline_blank k, unwrapped_blank k⟩
  have hlen : List.length ∘ blank = id := by
    funext k
    exact List.length_replicate
  have hsplit := List.splitOn_intercalate newline (fun l hl => (hlines l hl).1)
    (List.append_ne_nil_of_right_ne_nil _ (List.cons_ne_nil _ _))
  refine ⟨[newline].intercalate (as.map blank ++ cutLine n :: bs.map blank), ?_, ?_, ?_⟩
  · rw [hsplit, List.map_append, List.map_cons, List.map_map, List.map_map, hlen, List.map_id,
      List.map_id, length_cutLine]
  · rw [hsplit]
    exact fun l hl => (hlines l hl).2
  · intro portSpeed
    constructor
    · unfold speedsByLine
      rw [hsplit, assign_eq, List.foldl_append, List.foldl_cons, (foldl_blanks _ _ as).1,
        (foldl_blanks _ _ bs).1, (cutLine_speeds _ portSpeed n).1]
      rfl
    · rw [loadSpeedConf_pieces, hsplit, List.flatMap_append, List.foldl_append, List.flatMap_cons,
        List.foldl_append, (foldl_blanks _ _ as).2, (foldl_blanks _ _ bs).2,
        (cutLine_speeds _ portSpeed n).2]
      rfl

/-- all contents with lines of these lengths are read right if and only if no line is longer than
the buffer -/
theorem read_right_iff_lengths (lens : List Nat) :
    (∀ content : Text, (content.splitOn newline).map List.length = lens →
        (∀ l ∈ content.splitOn newline, Unwrapped l) → ∀ portSpeed,
          (loadSpeedConf (some content) portSpeed).2 = speedsByLine content portSpeed) ↔
      ∀ n ∈ lens, n ≤ lineRoom := by
  constructor
  · intro h n hn
    by_contra hlong
    obtain ⟨as, bs, rfl⟩ := List.append_of_mem hn
    obtain ⟨k, rfl⟩ : ∃ k, n = k + 128 := ⟨n - 128, by unfold lineRoom at hlong; omega⟩
    obtain ⟨content, hlens, hfits, hspeeds⟩ := cutFile as bs k
    obtain ⟨hspec, hcode⟩ := hspeeds fun _ => 0
    have heq := h content hlens hfits fun _ => 0
    rw [hspec, hcode] at heq
    exact absurd (congrFun heq 0) (by decide)
  · intro h content hlens hfits portSpeed
    apply loadSpeedConf_unwrapped
    intro l hl
    refine ⟨h _ ?_, hfits l hl⟩
    rw [← hlens]
    exact List.mem_map_of_mem hl

/-- a table of one line that fits into the buffer is read right if and only if its numbers fit -/
theorem read_right_iff_unwrapped {line : Text} (hline : newline ∉ line)
    (hroom : line.length ≤ lineRoom) :
    (∀ portSpeed, (loadSpeedConf (some line) portSpeed).2 = speedsByLine line portSpeed) ↔
      Unwrapped line := by
  have hone : line.splitOn newline = [line] := List.splitOn_eq_singleton hline
  have hshort : ∀ l ∈ line.splitOn newline, l.length ≤ lineRoom := by
    rw [hone]
    intro l hl
    rwa [List.mem_singleton.mp hl]
  rw [unwrapped_iff]
  apply forall_congr'
  intro portSpeed
  unfold speedsByLine
  rw [loadSpeedConf_short hshort, hone, assign_eq]
  rfl

/-- **The table is read right exactly if no line is longer than the buffer and the numbers fit.**
All tables with lines of these lengths whose numbers fit are read right if and only if no line is
longer than the buffer; and a table of one line that is not too long is read right, whatever was
there before, if and only if its numbers fit. -/
theorem speed_lines_lengths (lens : List Nat) (line : Text) :
    ((∀ content : Text, (content.splitOn newline).map List.length = lens →
        (∀ l ∈ content.splitOn newline, Unwrapped l) → ∀ portSpeed,
          (loadSpeedConf (some content) portSpeed).2 = speedsByLine content portSpeed) ↔
      ∀ n ∈ lens, n ≤ lineRoom) ∧
    (newline ∉ line → line.length ≤ lineRoom →
      ((∀ portSpeed, (loadSpeedConf (some line) portSpeed).2 = speedsByLine line portSpeed) ↔
        Unwrapped line)) :=
  ⟨read_right_iff_lengths lens, fun hline hroom => read_right_iff_unwrapped hline hroom⟩

/-- the low 32 bits of the first number of `4294967298 120` are those of port 2 -/
theorem speed_lines_wrapped : ¬∀ portSpeed,
    (loadSpeedConf (some [0x34, 0x32, 0x39, 0x34, 0x39, 0x36, 0x37, 0x32, 0x39, 0x38, 0x20, 0x31,
        0x32, 0x30]) portSpeed).2
      = speedsByLine [0x34, 0x32, 0x39, 0x34, 0x39, 0x36, 0x37, 0x32, 0x39, 0x38, 0x20, 0x31, 0x32,
          0x30] portSpeed := by
  rw [(speed_lines_lengths [14] _).2 (by decide) (by decide)]
  intro h
  have hwide := (h 4294967298 120 (by decide)).2 (by unfold IsPort maxp; decide) (by decide)
  exact absurd hwide (by decide)

/-- a comment of 132 characters -/
def longComment : Text := hash :: (blank 126 ++ [0x35, 0x20, 0x31, 0x32, 0x30, 0x30])

/-- the end of the comment sets port 5 to 1200 -/
theorem comment_sets_speed : ¬ ∀ content portSpeed,
    (loadSpeedConf (some content) portSpeed).2 = speedsByLine content portSpeed := by
  intro h
  have hnl : newline ∉ longComment := by
    intro hmem
    obtain hmem | hmem := List.mem_cons.mp hmem
    · exact absurd hmem (by decide)
    · obtain hmem | hmem := List.mem_append.mp hmem
      · exact newline_blank _ hmem
      · exact absurd hmem (by decide)
  have hroom : (hash :: blank 126).length = lineRoom := by
    rw [List.length_cons, blank, List.length_replicate]
    rfl
  have hcode :
      (loadSpeedConf (some longComment) fun _ => 0).2 = setPortSpeed 5 1200 fun _ => 0 := by
    have hlong : ¬ longComment.length < lineRoom := by
      unfold longComment
      rw [← List.cons_append, List.length_append, hroom]
      omega
    have hfirst : assignBy toInt (fun _ => 0) (hash :: blank 126) = fun _ => 0 :=
      assign_one _ _ [hash] (by decide) 126
    rw [loadSpeedConf_pieces, List.splitOn_eq_singleton hnl, List.flatMap_singleton, pieces,
      if_neg hlong]
    unfold longComment
    rw [← List.cons_append, List.take_left' hroom, List.drop_left' hroom, List.foldl_cons, hfirst,
      pieces, if_pos (by decide)]
    show assignBy toInt _ [0x35, 0x20, 0x31, 0x32, 0x30, 0x30] = _
    unfold assignBy
    rw [show scanNumbers [0x35, 0x20, 0x31, 0x32, 0x30, 0x30] = some (5, 1200) by decide]
    rfl
  have hspec : speedsByLine longComment (fun _ => 0) = fun _ => 0 := by
    unfold speedsByLine
    rw [List.splitOn_eq_singleton hnl]
    rfl
  have heq := h longComment fun _ => 0
  rw [hcode, hspec] at heq
  exact absurd (congrFun heq 5) (by decide)

end Nmconsole
