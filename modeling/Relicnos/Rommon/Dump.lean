import Relicnos.Rommon.Text

/-!
# Dumping memory into a file, over many runs

`rommon_dump.py` appends the fields of a transcript to its file as long as their labels follow on
one another.  A run can be killed at any time, the file then loses some of its end, and a later run
with `--resume` goes on at the last whole word of what is left.

* `Dump.turn`     one iteration of the loop over one transcript;
* `World`, `Step`  runs of the program on one file, and what can happen between them;
* `Layout`        bytes that are fields of matches, each at the offset that its label says;
* `Layout.cutAt`  what is left of them if the file is cut at a word;
* `dump_prefix`   the first `done` bytes are laid out so; only a field that a run was resumed in
                  the middle of has just its first words there.
-/

set_option linter.unusedVariables false

namespace Rommon

/-! ## the program -/

structure Args where
  via : Via
  start : Int
  size : Int
  chunk : Int
  resume : Bool

/-- a command on the console: `via addr n` -/
structure Request where
  via : Via
  addr : Int
  n : Int

structure Dump where
  file : Text
  /-- the position in the file -/
  pos : Nat
  done : Nat
  sent : List Request
  /-- the loop was not left by `break` -/
  looping : Bool

/-- `n & ~3` -/
def whole (n : Nat) : Nat := n - n % 4

namespace Dump

/-- up to the loop; `file` is the output file, if there is one -/
def opened (a : Args) (file : Option Text) : Dump :=
  let done := match file with
    | some f => if a.resume then whole f.length else 0
    | none => 0
  ⟨if done ≠ 0 then file.getD [] else [], done, done, [], true⟩

/-- `f.write(blob)` -/
def write (d : Dump) (blob : Text) : Dump :=
  { d with
    file := d.file.take d.pos ++ List.replicate (d.pos - d.file.length) 0x00 ++ blob ++
      d.file.drop (d.pos + blob.length)
    pos := d.pos + blob.length }

/-- the loop over the pieces, from `got` on -/
def accept (addr : Int) (d : Dump) (got : Nat) : List Piece → Dump × Nat
  | [] => (d, got)
  | p :: ps =>
    if (p.ad : Int) ≠ addr + got then (d, got)
    else (d.write p.blob).accept addr (got + p.blob.length) ps

/-- the command of an iteration -/
def ask (a : Args) (d : Dump) : Dump :=
  { d with sent := d.sent ++ [⟨a.via, a.start + d.done, min a.chunk (a.size - d.done)⟩] }

/-- one iteration; `buf` is what is read up to the prompt -/
def turn (a : Args) (buf : Text) (d : Dump) : Dump :=
  let addr := a.start + d.done
  let d := d.ask a
  let pieces := a.via.pieces buf
  if pieces = [] then { d with looping := false }
  else
    let (d, got) := d.accept addr 0 pieces
    if got = 0 then { d with looping := false } else { d with done := d.done + got }

def Goes (a : Args) (d : Dump) : Prop := d.looping = true ∧ (d.done : Int) < a.size

/-- an iteration that is killed before it comes to piece `j` -/
def broken (a : Args) (buf : Text) (j : Nat) (d : Dump) : Dump :=
  ((d.ask a).accept (a.start + d.done) 0 ((a.via.pieces buf).take j)).1

end Dump

/-! ## runs on one file -/

inductive State where
  /-- no run; the file, if there is one -/
  | idle (file : Option Text)
  | running (a : Args) (d : Dump)

structure World where
  state : State
  /-- the transcripts that were read since the file was last emptied, and for which command -/
  read : List (Via × Text)
  /-- where runs were resumed since then -/
  resumed : List Nat

inductive Step (start : Int) : World → World → Prop
  /-- a run that begins with an empty file -/
  | fresh {file : Option Text} {a : Args} {read : List (Via × Text)} {resumed : List Nat} :
      a.start = start → (Dump.opened a file).done = 0 →
      Step start ⟨.idle file, read, resumed⟩ ⟨.running a (Dump.opened a file), [], []⟩
  /-- a run that goes on with the file -/
  | resume {file : Option Text} {a : Args} {read : List (Via × Text)} {resumed : List Nat} :
      a.start = start → (Dump.opened a file).done ≠ 0 →
      Step start ⟨.idle file, read, resumed⟩
        ⟨.running a (Dump.opened a file), read, (Dump.opened a file).done :: resumed⟩
  | turn {a : Args} {d : Dump} {read : List (Via × Text)} {resumed : List Nat} (buf : Text) :
      d.Goes a → Step start ⟨.running a d, read, resumed⟩
        ⟨.running a (d.turn a buf), (a.via, buf) :: read, resumed⟩
  | quit {a : Args} {d : Dump} {read : List (Via × Text)} {resumed : List Nat} :
      ¬d.Goes a → Step start ⟨.running a d, read, resumed⟩ ⟨.idle (some d.file), read, resumed⟩
  | kill {a : Args} {d : Dump} {read : List (Via × Text)} {resumed : List Nat} (buf : Text)
      (j : Nat) : d.Goes a → Step start ⟨.running a d, read, resumed⟩
        ⟨.idle (some (d.broken a buf j).file), (a.via, buf) :: read, resumed⟩
  /-- the end of the file does not survive -/
  | lose {f : Text} {read : List (Via × Text)} {resumed : List Nat} (c : Nat) :
      Step start ⟨.idle (some f), read, resumed⟩ ⟨.idle (some (f.take c)), read, resumed⟩

/-- any sequence of runs for one start address, from the time when there is no file -/
inductive Reachable (start : Int) : World → Prop
  | start : Reachable start ⟨.idle none, [], []⟩
  | step {w w' : World} : Reachable start w → Step start w w' → Reachable start w'

/-- a field of a match in one of the transcripts -/
def World.Found (w : World) (via : Via) (p : Piece) : Prop :=
  ∃ buf, (via, buf) ∈ w.read ∧ p ∈ via.pieces buf

/-! ## the layout of the file -/

/-- consecutive fields: one at offset `k` has the label `start + k`.  Where `cut` allows it, just
the first words of a field of the `dump` form are there. -/
inductive Layout (Found : Via → Piece → Prop) (cut : Nat → Prop) (start : Int) : Text → Prop
  | nil : Layout Found cut start []
  | field {bs : Text} {via : Via} {p : Piece} : Layout Found cut start bs → Found via p →
      (p.ad : Int) = start + bs.length → Layout Found cut start (bs ++ p.blob)
  | words {bs : Text} {p : Piece} {k : Nat} : Layout Found cut start bs → Found .dump p →
      (p.ad : Int) = start + bs.length → 0 < k → k < p.blob.length → k % 4 = 0 →
      cut (bs.length + k) → Layout Found cut start (bs ++ p.blob.take k)

section
variable {Found Found' : Via → Piece → Prop} {cut cut' : Nat → Prop} {start : Int} {bs : Text}

theorem Layout.mono (h : Layout Found cut start bs) (hf : ∀ via p, Found via p → Found' via p)
    (hc : ∀ k, cut k → cut' k) : Layout Found' cut' start bs := by
  induction h with
  | nil => exact .nil
  | field _ hp had ih => exact .field ih (hf _ _ hp) had
  | words _ hp had hpos hlt hk hcut ih => exact .words ih (hf _ _ hp) had hpos hlt hk (hc _ hcut)

/-- in the `dis` form every field is there as a whole -/
theorem Layout.exact_of_dis (h : Layout Found cut start bs) (hdis : ∀ p, ¬Found .dump p) :
    Layout Found (fun _ => False) start bs := by
  induction h with
  | nil => exact .nil
  | field _ hp had ih => exact .field ih hp had
  | words _ hp _ _ _ _ _ _ => exact absurd hp (hdis _)

variable (hsize : ∀ via p, Found via p → p.blob.length = via.size)
include hsize

theorem Layout.length_mod (h : Layout Found cut start bs) : bs.length % 4 = 0 := by
  induction h with
  | nil => rfl
  | @field bs via p _ hp _ ih =>
    have hvia : via.size % 4 = 0 := by cases via <;> rfl
    rw [List.length_append, hsize _ _ hp]
    omega
  | words _ _ _ _ hlt hk _ ih =>
    rw [List.length_append, List.length_take]
    omega

/-- **A file that is cut at a word**, inside a field or between two. -/
theorem Layout.cutAt (h : Layout Found cut start bs) {k : Nat} (hk : k % 4 = 0)
    (hle : k ≤ bs.length) (hc : ∀ k', cut k' → cut' k') (hcut : cut' k) :
    Layout Found cut' start (bs.take k) := by
  have hmono : ∀ {l : Text}, Layout Found cut start l → Layout Found cut' start l :=
    fun hl => hl.mono (fun _ _ hp => hp) hc
  induction h with
  | nil =>
    rw [List.take_nil]
    exact .nil
  | @field bs via p hbs hp had ih =>
    by_cases hin : k ≤ bs.length
    · rw [List.take_append_of_le_length hin]
      exact ih hin
    have hmod := hbs.length_mod hsize
    have hlen := hsize _ _ hp
    rw [List.length_append] at hle
    rw [List.take_append, List.take_of_length_le (by omega)]
    by_cases hall : k - bs.length = p.blob.length
    · rw [hall, List.take_length]
      exact .field (hmono hbs) hp had
    · have hdump : via = .dump := by
        cases via with
        | dump => rfl
        | dis =>
          have hfour : p.blob.length = 4 := hlen
          omega
      subst hdump
      have hsum : bs.length + (k - bs.length) = k := by omega
      exact .words (hmono hbs) hp had (by omega) (by omega) (by omega) (by rw [hsum]; exact hcut)
  | @words bs p j hbs hp had hpos hlt hj hcutj ih =>
    by_cases hin : k ≤ bs.length
    · rw [List.take_append_of_le_length hin]
      exact ih hin
    have hmod := hbs.length_mod hsize
    rw [List.length_append, List.length_take] at hle
    have hsum : bs.length + (k - bs.length) = k := by omega
    rw [List.take_append, List.take_of_length_le (by omega), List.take_take,
      Nat.min_eq_left (by omega)]
    exact .words (hmono hbs) hp had (by omega) (by omega) (by omega) (by rw [hsum]; exact hcut)

end

/-! ## what an iteration keeps -/

section
variable {Found : Via → Piece → Prop} {cut : Nat → Prop} {start : Int} {k : Nat} {d : Dump}

/-- up to offset `k`, where the program writes next, the file is laid out; after it there is less
than a word -/
structure Laid (Found : Via → Piece → Prop) (cut : Nat → Prop) (start : Int) (k : Nat) (d : Dump) :
    Prop where
  pos : d.pos = k
  le : k ≤ d.file.length
  tail : d.file.length < k + 4
  layout : Layout Found cut start (d.file.take k)

theorem Laid.mono {Found' : Via → Piece → Prop} (h : Laid Found cut start k d)
    (hf : ∀ via p, Found via p → Found' via p) : Laid Found' cut start k d :=
  ⟨h.pos, h.le, h.tail, h.layout.mono hf fun _ hc => hc⟩

/-- it is about the file and the position in it -/
theorem Laid.same {d' : Dump} (h : Laid Found cut start k d) (hfile : d'.file = d.file)
    (hpos : d'.pos = d.pos) : Laid Found cut start k d' := by
  obtain ⟨hp, hle, htail, hlayout⟩ := h
  exact ⟨hpos.trans hp, by rw [hfile]; exact hle, by rw [hfile]; exact htail,
    by rw [hfile]; exact hlayout⟩

theorem whole_le (n : Nat) : whole n ≤ n := Nat.sub_le _ _

theorem whole_mod (n : Nat) : whole n % 4 = 0 := by
  unfold whole
  omega

variable (hsize : ∀ via p, Found via p → p.blob.length = via.size)
include hsize

/-- a field that follows on -/
theorem Laid.write {via : Via} {p : Piece} (h : Laid Found cut start k d) (hp : Found via p)
    (had : (p.ad : Int) = start + k) :
    Laid Found cut start (k + p.blob.length) (d.write p.blob) := by
  obtain ⟨hpos, hle, htail, hlayout⟩ := h
  have hlen := hsize _ _ hp
  have hsz : 4 ≤ via.size := by cases via <;> decide
  have htake : (d.file.take k).length = k := by
    rw [List.length_take]
    omega
  have hfile : (d.write p.blob).file = d.file.take k ++ p.blob := by
    show d.file.take d.pos ++ List.replicate (d.pos - d.file.length) 0x00 ++ p.blob ++
      d.file.drop (d.pos + p.blob.length) = _
    rw [hpos, Nat.sub_eq_zero_of_le hle, List.drop_eq_nil_of_le (by omega), List.append_nil,
      List.replicate_zero, List.append_nil]
  have hall : (d.write p.blob).file.length = k + p.blob.length := by
    rw [hfile, List.length_append, htake]
  refine ⟨?_, by omega, by omega, ?_⟩
  · show d.pos + p.blob.length = k + p.blob.length
    rw [hpos]
  · rw [List.take_of_length_le (by omega), hfile]
    exact .field hlayout hp (by rw [htake]; exact had)

/-- the loop over the pieces -/
theorem Laid.accept {via : Via} {ps : List Piece} {got : Nat} (hps : ∀ p ∈ ps, Found via p)
    (h : Laid Found cut start (k + got) d) :
    (d.accept (start + k) got ps).1.done = d.done ∧
      Laid Found cut start (k + (d.accept (start + k) got ps).2)
        (d.accept (start + k) got ps).1 := by
  induction ps generalizing d got with
  | nil => exact ⟨rfl, h⟩
  | cons p ps ih =>
    unfold Dump.accept
    by_cases had : (p.ad : Int) ≠ start + k + got
    · rw [if_pos had]
      exact ⟨rfl, h⟩
    · rw [if_neg had]
      have hnext : (p.ad : Int) = start + ((k + got : Nat) : Int) := by omega
      have hw := h.write hsize (hps p List.mem_cons_self) hnext
      rw [Nat.add_assoc] at hw
      exact ih (fun q hq => hps q (List.mem_cons_of_mem _ hq)) hw

/-- **One iteration.** -/
theorem Laid.turn {a : Args} {buf : Text} (h : Laid Found cut a.start d.done d)
    (hbuf : ∀ p ∈ a.via.pieces buf, Found a.via p) :
    Laid Found cut a.start (d.turn a buf).done (d.turn a buf) := by
  have hask : Laid Found cut a.start (d.done + 0) (d.ask a) := h.same rfl rfl
  obtain ⟨hdone, hlaid⟩ := hask.accept hsize hbuf
  unfold Dump.turn
  by_cases hnone : a.via.pieces buf = []
  · simp only [if_pos hnone]
    exact h.same rfl rfl
  simp only [if_neg hnone]
  generalize (d.ask a).accept (a.start + d.done) 0 (a.via.pieces buf) = t at hdone hlaid
  obtain ⟨d', got⟩ := t
  by_cases hgot : got = 0
  · subst hgot
    simp only [if_pos]
    have hsame : d'.done = d.done := hdone
    show Laid Found cut a.start d'.done { d' with looping := false }
    rw [hsame]
    exact hlaid.same rfl rfl
  · simp only [if_neg hgot]
    have hsame : d'.done = d.done := hdone
    show Laid Found cut a.start (d'.done + got) { d' with done := d'.done + got }
    rw [hsame]
    exact hlaid.same rfl rfl

/-- an iteration that is killed -/
theorem Laid.broken {a : Args} {buf : Text} (h : Laid Found cut a.start d.done d)
    (hbuf : ∀ p ∈ a.via.pieces buf, Found a.via p) (j : Nat) :
    ∃ k', Laid Found cut a.start k' (d.broken a buf j) := by
  have hask : Laid Found cut a.start (d.done + 0) (d.ask a) := h.same rfl rfl
  have hps : ∀ p ∈ (a.via.pieces buf).take j, Found a.via p :=
    fun p hp => hbuf p (List.mem_of_mem_take hp)
  exact ⟨_, (hask.accept hsize hps).2⟩

/-! ## what is left of a run -/

omit hsize in
/-- up to its last whole word, a file is the beginning of one that is laid out -/
def Kept (Found : Via → Piece → Prop) (cut : Nat → Prop) (start : Int) (f : Text) : Prop :=
  ∃ bs, Layout Found cut start bs ∧ whole f.length ≤ bs.length ∧
    f.take (whole f.length) = bs.take (whole f.length)

theorem Laid.kept (h : Laid Found cut start k d) : Kept Found cut start d.file := by
  obtain ⟨_, hle, htail, hlayout⟩ := h
  have htake : (d.file.take k).length = k := by
    rw [List.length_take]
    omega
  have hmod := hlayout.length_mod hsize
  have hwhole : whole d.file.length = k := by
    unfold whole
    omega
  refine ⟨_, hlayout, ?_, ?_⟩
  · exact Nat.le_of_eq (hwhole.trans htake.symm)
  · rw [hwhole, List.take_take, Nat.min_self]

omit hsize in
theorem Kept.lose {f : Text} (h : Kept Found cut start f) (c : Nat) :
    Kept Found cut start (f.take c) := by
  obtain ⟨bs, hbs, hle, heq⟩ := h
  have hlen : whole (f.take c).length ≤ whole f.length ∧ whole (f.take c).length ≤ c := by
    rw [List.length_take]
    unfold whole
    omega
  refine ⟨bs, hbs, by omega, ?_⟩
  have hcut := congrArg (List.take (whole (f.take c).length)) heq
  rw [List.take_take, List.take_take, Nat.min_eq_left hlen.1] at hcut
  rw [List.take_take, Nat.min_eq_left hlen.2]
  exact hcut

/-- a run that goes on where the file ends -/
theorem Kept.opened {a : Args} {file : Option Text}
    (h : ∀ f, file = some f → Kept Found cut start f)
    (hdone : (Dump.opened a file).done ≠ 0) {cut' : Nat → Prop} (hc : ∀ k', cut k' → cut' k')
    (hcut : cut' (Dump.opened a file).done) :
    Laid Found cut' start (Dump.opened a file).done (Dump.opened a file) := by
  cases file with
  | none => exact absurd rfl hdone
  | some f =>
    obtain ⟨bs, hbs, hle, heq⟩ := h f rfl
    unfold Dump.opened at hdone hcut ⊢
    by_cases hr : a.resume = true
    · simp only [if_pos hr] at hdone hcut ⊢
      rw [if_pos hdone]
      refine ⟨rfl, whole_le _, ?_, ?_⟩
      · show f.length < whole f.length + 4
        unfold whole
        omega
      · show Layout Found cut' start (f.take (whole f.length))
        rw [heq]
        exact hbs.cutAt hsize (whole_mod _) hle hc hcut
    · simp only [if_neg hr] at hdone
      exact absurd rfl hdone

end

/-! ## any sequence of runs -/

/-- a found field has the size of its form -/
theorem World.found_size (w : World) (via : Via) (p : Piece) (h : w.Found via p) :
    p.blob.length = via.size := by
  obtain ⟨buf, _, hp⟩ := h
  exact pieces_size hp

/-- what holds of the file in a run, and between two -/
def World.Good (start : Int) (w : World) : Prop :=
  match w.state with
  | .idle file => ∀ f, file = some f → Kept w.Found (· ∈ w.resumed) start f
  | .running a d => a.start = start ∧ Laid w.Found (· ∈ w.resumed) start d.done d

variable {start : Int} {w w' : World}

theorem found_new {state : State} {via : Via} {buf : Text} {read : List (Via × Text)}
    {resumed : List Nat} : ∀ p ∈ via.pieces buf,
      (World.mk state ((via, buf) :: read) resumed).Found via p :=
  fun p hp => ⟨buf, List.mem_cons_self, hp⟩

theorem found_more {state state' : State} {t : Via × Text} {read : List (Via × Text)}
    {resumed : List Nat} (via : Via) (p : Piece) (h : (World.mk state read resumed).Found via p) :
    (World.mk state' (t :: read) resumed).Found via p := by
  obtain ⟨buf, hmem, hp⟩ := h
  exact ⟨buf, List.mem_cons_of_mem _ hmem, hp⟩

/-- **One step.** -/
theorem Step.good (h : Step start w w') (hw : w.Good start) : w'.Good start := by
  have hsize := w'.found_size
  cases h with
  | fresh hstart hzero =>
    refine ⟨hstart, ?_⟩
    rename_i file a _ _
    have hfile : (Dump.opened a file).file = [] := if_neg (not_not.mpr hzero)
    have hpos : (Dump.opened a file).pos = 0 := hzero
    rw [hzero]
    refine ⟨hpos, Nat.zero_le _, ?_, .nil⟩
    rw [hfile]
    exact Nat.succ_pos _
  | resume hstart hdone =>
    exact ⟨hstart, Kept.opened hsize hw hdone (fun _ hk => List.mem_cons_of_mem _ hk)
      List.mem_cons_self⟩
  | turn buf hgoes =>
    obtain ⟨rfl, hlaid⟩ := hw
    exact ⟨rfl, (hlaid.mono found_more).turn hsize found_new⟩
  | quit hgoes =>
    obtain ⟨rfl, hlaid⟩ := hw
    intro f hf
    obtain rfl := Option.some.inj hf
    exact hlaid.kept hsize
  | kill buf j hgoes =>
    obtain ⟨rfl, hlaid⟩ := hw
    intro f hf
    obtain rfl := Option.some.inj hf
    obtain ⟨k', hk'⟩ := (hlaid.mono found_more).broken hsize found_new j
    exact hk'.kept hsize
  | lose c =>
    intro f hf
    obtain rfl := Option.some.inj hf
    exact (hw _ rfl).lose c

theorem Reachable.good (h : Reachable start w) : w.Good start := by
  induction h with
  | start =>
    intro f hf
    cases hf
  | step _ hstep ih => exact hstep.good ih

/-- **The file is an exact prefix of the memory**, after every iteration of every run: its first
`done` bytes are the fields of matches, each at the offset of its label.  A field of the `dump`
form that a run was resumed in the middle of is there up to that place; in the `dis` form there is
none. -/
theorem dump_prefix {a : Args} {d : Dump} (h : Reachable start w) (hrun : w.state = .running a d) :
    d.done ≤ d.file.length ∧
      Layout w.Found (· ∈ w.resumed) start (d.file.take d.done) ∧
      ((∀ t ∈ w.read, t.1 = .dis) →
        Layout w.Found (fun _ => False) start (d.file.take d.done)) := by
  have hgood := h.good
  unfold World.Good at hgood
  rw [hrun] at hgood
  obtain ⟨_, hlaid⟩ := hgood
  refine ⟨hlaid.le, hlaid.layout, fun hdis => hlaid.layout.exact_of_dis ?_⟩
  intro p ⟨buf, hmem, _⟩
  have hvia : Via.dump = .dis := hdis _ hmem
  cases hvia

/-- a run over the boot code -/
def bootArgs (via : Via) (resume : Bool) : Args := ⟨via, 0xbfc00000, 0x40, 0x40, resume⟩

def disLine : Text := "0xbfc00000: 0bf002ad  j 0xbfc00ab4".toUTF8.toList

/-- a run in the `dis` form after its first iteration -/
def disRun : Dump := (Dump.opened (bootArgs .dis false) none).turn (bootArgs .dis false) disLine

theorem disRun_reachable : Reachable 0xbfc00000
    ⟨.running (bootArgs .dis false) disRun, [(.dis, disLine)], []⟩ :=
  .step (.step .start (.fresh (a := bootArgs .dis false) rfl rfl)) (.turn disLine ⟨rfl, by decide⟩)

def dumpLine : Text := "bfc00000  0bf0 02ad 0000 0000 0000 0000 0000 0000 .".toUTF8.toList

/-- the same from the second word on -/
def laterLine : Text := "bfc00004  0000 0000 0000 0000 0000 0000 3c1a bfc0 .".toUTF8.toList

/-- a run in the `dump` form after its first iteration -/
def dumpRun : Dump := (Dump.opened (bootArgs .dump false) none).turn (bootArgs .dump false) dumpLine

/-- what is left of its file -/
def cutFile : Text := (dumpRun.broken (bootArgs .dump false) [] 0).file.take 4

def laterRun : Dump := Dump.opened (bootArgs .dump true) (some cutFile)

/-- the later run after its first iteration -/
def cutWorld : World :=
  ⟨.running (bootArgs .dump true) (laterRun.turn (bootArgs .dump true) laterLine),
    [(.dump, laterLine), (.dump, []), (.dump, dumpLine)], [laterRun.done]⟩

theorem cutWorld_reachable : Reachable 0xbfc00000 cutWorld := by
  have hdump : Reachable 0xbfc00000
      ⟨.running (bootArgs .dump false) dumpRun, [(.dump, dumpLine)], []⟩ :=
    .step (.step .start (.fresh (a := bootArgs .dump false) rfl rfl))
      (.turn dumpLine ⟨rfl, by decide⟩)
  have hkill := Reachable.step hdump (.kill [] 0 ⟨by decide +kernel, by decide +kernel⟩)
  have hlose := Reachable.step hkill (.lose 4)
  have hresume := Reachable.step hlose (.resume (a := bootArgs .dump true) rfl (by decide +kernel))
  exact .step hresume (.turn laterLine ⟨rfl, by decide +kernel⟩)

def cutRun : Dump := laterRun.turn (bootArgs .dump true) laterLine

/-- a run that was killed, cut and resumed has the first word of a field and then a whole field; one
in the `dis` form has whole fields only -/
theorem dump_prefix_cut :
    (cutWorld.resumed = [4] ∧ cutRun.done = 20 ∧
      Layout cutWorld.Found (· ∈ cutWorld.resumed) 0xbfc00000 (cutRun.file.take cutRun.done)) ∧
    Layout (World.mk (.running (bootArgs .dis false) disRun) [(.dis, disLine)] []).Found
      (fun _ => False) 0xbfc00000 (disRun.file.take disRun.done) := by
  have hcut := dump_prefix cutWorld_reachable rfl
  have hdis := dump_prefix disRun_reachable rfl
  exact ⟨⟨by decide +kernel, by decide +kernel, hcut.2.1⟩, hdis.2.2 (by decide)⟩

/-- the file holds the first word of a field, and then another field -/
theorem dump_prefix_fails : ∃ (w : World) (a : Args) (d : Dump), Reachable 0xbfc00000 w ∧
    w.state = .running a d ∧
    ¬Layout w.Found (fun _ => False) 0xbfc00000 (d.file.take d.done) := by
  refine ⟨cutWorld, _, _, cutWorld_reachable, rfl, ?_⟩
  have hfound : ∀ via p, cutWorld.Found via p →
      p.blob.length = 16 ∧ (p.ad = 0xbfc00000 ∨ p.ad = 0xbfc00004) := by
    intro via p ⟨buf, hmem, hp⟩
    have hall : ∀ t ∈ cutWorld.read, ∀ p ∈ t.1.pieces t.2,
        p.blob.length = 16 ∧ (p.ad = 0xbfc00000 ∨ p.ad = 0xbfc00004) := by decide +kernel
    exact hall _ hmem _ hp
  -- whole fields can only be none or the first one
  have hlen : ∀ bs, Layout cutWorld.Found (fun _ => False) 0xbfc00000 bs →
      bs.length = 0 ∨ bs.length = 16 := by
    intro bs h
    induction h with
    | nil => exact .inl rfl
    | field _ hp had ih =>
      obtain ⟨hsixteen, hlabel⟩ := hfound _ _ hp
      rw [List.length_append, hsixteen]
      omega
    | words _ _ _ _ _ _ hcut _ => exact hcut.elim
  intro h
  have htwenty : ((laterRun.turn (bootArgs .dump true) laterLine).file.take
      (laterRun.turn (bootArgs .dump true) laterLine).done).length = 20 := by decide +kernel
  have hcase := hlen _ h
  rw [htwenty] at hcase
  omega

end Rommon
