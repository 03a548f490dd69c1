import Relicnos.Interact.Policy
import Relicnos.Pciscan.Scan

/-!
# The bridge under the scan

Writes to the bridge are posted: until a read has pushed them out the data register answers
anything, and so does the first read of it after that.  What is on the buses is left open
(`space`): what answers may depend on the interface's own bus number, on every bit of the address,
and on what was written to configuration space before.  Status registers change by themselves.

* `World`, `env`     the bridge and what is on its buses;
* `Knows`            what is on the buses, but for the status registers;
* `cfgRead_told`     an access answers what is there, and says nothing.
-/

set_option linter.unusedVariables false

namespace Pciscan
open Interact

structure World where
  addr : Bool → UInt32
  p2p : Bool → UInt32
  /-- the writes so far have been pushed out -/
  landed : Bool
  /-- and the data register has been read since -/
  primed : Bool
  /-- interface, its own bus number, address: what the data register shows -/
  space : Bool → UInt32 → UInt32 → UInt32
  said : List Line

namespace World

/-- the interface's own bus number -/
def busNum (w : World) (busIf : Bool) : UInt32 := (w.p2p busIf >>> 16) &&& 0xff

end World

/-- the address of a command and status register -/
def Status (a : UInt32) : Prop := a &&& 0xfc = 0x04

/-- writes get out by themselves, too, and status registers change -/
structure Drift (w w' : World) : Prop where
  addr : w'.addr = w.addr
  p2p : w'.p2p = w.p2p
  said : w'.said = w.said
  landed : w.landed = true → w'.landed = true
  primed : w'.primed = w.primed
  space : ∀ busIf n a, ¬Status a → w'.space busIf n a = w.space busIf n a

def access (w : World) : (o : Op) → Res o → World → Prop
  | .load (.configAddr busIf), r, w' => r = swab32 (w.addr busIf) ∧ w' = w
  | .load (.configData busIf), r, w' => w' = { w with primed := w.landed } ∧
      (w.landed = true → w.primed = true →
        r = swab32 (w.space busIf (w.busNum busIf) (w.addr busIf)))
  | .load (.p2pConfig busIf), r, w' => r = swab32 (w.p2p busIf) ∧ w' = w
  | .load _, _, w' => w' = w
  | .store (.configAddr busIf) v, _, w' => w' = { w with
      addr := Function.update w.addr busIf (swab32 v), landed := false, primed := false }
  | .store (.p2pConfig busIf) v, _, w' => w' = { w with
      p2p := Function.update w.p2p busIf (swab32 v), landed := false }
  | .store (.configData _) _, _, w' =>
      ∃ space, w' = { w with space := space, landed := false, primed := false }
  | .store _ _, _, w' => w' = { w with landed := false }
  | .flush, _, w' => w' = { w with landed := true }
  | .print l, _, w' => w' = { w with said := w.said ++ [l] }

def env : Env Op Res World where
  rely := Drift
  access := access

/-! ## what is known of the buses -/

/-- what is on the buses is `m`, and the interfaces' registers read `p` -/
structure Knows (m : Bool → UInt32 → UInt32 → UInt32) (p : Bool → UInt32) (w : World) : Prop where
  space : ∀ busIf n a, ¬Status a → w.space busIf n a = m busIf n a
  p2p : w.p2p = p

variable {m : Bool → UInt32 → UInt32 → UInt32} {p : Bool → UInt32} {w w' : World} {α : Type}
  {l : Line} {busIf : Bool} {bus dev fn reg val : UInt32}

theorem Knows.drift (h : Knows m p w) (hd : Drift w w') : Knows m p w' :=
  ⟨fun b n a ha => (hd.space b n a ha).trans (h.space b n a ha), hd.p2p.trans h.p2p⟩

/-- the operations of a scan: nothing is written but addresses -/
def Op.Reads : Op → Prop
  | .store (.configAddr _) _ => True
  | .store _ _ => False
  | _ => True

section
variable {G : Event Op Res World → Prop}

/-- what a program says that knows the buses all the time -/
abbrev Tells (G : Event Op Res World → Prop) (m : Bool → UInt32 → UInt32 → UInt32)
    (p : Bool → UInt32) (q : Tool α) (a : α) (ls : List Line) : Prop :=
  Says env G World.said (Knows m p) q a ls (Knows m p)

theorem print_told (hG : ∀ e : Event Op Res World, Op.Reads e.op → G e) (l : Line) :
    Tells G m p (print l) () [l] := by
  intro w h w1 hd r w2 ha
  obtain rfl : w2 = { w1 with said := w1.said ++ [l] } := ha
  have h1 := h.drift hd
  refine ⟨hG _ trivial, rfl, ⟨h1.space, h1.p2p⟩, ?_⟩
  show w1.said ++ [l] = _
  rw [hd.said]

theorem rd_p2p (hG : ∀ e : Event Op Res World, Op.Reads e.op → G e) (busIf : Bool) :
    Tells G m p (rd (.p2pConfig busIf)) (p busIf) [] := by
  intro w h w1 hd r w2 ha
  obtain ⟨hr, rfl⟩ := ha
  have h1 := h.drift hd
  refine ⟨hG _ trivial, ?_, h1, ?_⟩
  · show swab32 r = _
    rw [hr, swab32_swab32, h1.p2p]
  · rw [List.append_nil, hd.said]

/-- interface `busIf` addresses `a` -/
structure Aimed (m : Bool → UInt32 → UInt32 → UInt32) (p : Bool → UInt32) (busIf : Bool)
    (a : UInt32) (ls : List Line) (w : World) : Prop where
  knows : Knows m p w
  addr : w.addr busIf = a
  said : w.said = ls

theorem Aimed.drift {a : UInt32} {ls : List Line} (h : Aimed m p busIf a ls w)
    (hd : Drift w w') : Aimed m p busIf a ls w' :=
  ⟨h.knows.drift hd, by rw [hd.addr, h.addr], by rw [hd.said, h.said]⟩

/-- what has been pushed out does not matter to it -/
theorem Aimed.posted {a : UInt32} {ls : List Line} (h : Aimed m p busIf a ls w)
    (landed primed : Bool) :
    Aimed m p busIf a ls { w with landed := landed, primed := primed } :=
  ⟨⟨h.knows.space, h.knows.p2p⟩, h.addr, h.said⟩

/-- the write of an address -/
theorem aim {a : UInt32} {ls : List Line} (h : Knows m p w) (hl : w.said = ls) :
    Aimed m p busIf a ls { w with
      addr := Function.update w.addr busIf (swab32 (swab32 a)), landed := false,
      primed := false } := by
  refine ⟨⟨h.space, h.p2p⟩, ?_, hl⟩
  show Function.update w.addr busIf (swab32 (swab32 a)) busIf = a
  rw [Function.update_self, swab32_swab32]

/-- **An access answers what is there** where the CPLD is mapped, since the address has been pushed
out and the data register is read a second time. -/
theorem cfgRead_told (hG : ∀ e : Event Op Res World, Op.Reads e.op → G e)
    (hs : ¬Status (cfgAddr bus dev fn reg)) :
    Tells G m p (cfgRead true busIf bus dev fn reg)
      (m busIf ((p busIf >>> 16) &&& 0xff) (cfgAddr bus dev fn reg)) [] := by
  intro w h w1 d1 _ w2 a1
  obtain rfl : w2 = _ := a1
  have h2 : Aimed m p busIf (cfgAddr bus dev fn reg) w.said _ := aim (h.drift d1) d1.said
  refine ⟨hG _ trivial, fun w3 d3 _ w4 a3 => ⟨hG _ trivial, fun w5 d5 _ w6 a5 =>
    ⟨hG _ trivial, fun w7 d7 r w8 a7 => ⟨hG _ trivial, ?_⟩⟩⟩⟩
  obtain rfl : w4 = { w3 with landed := true } := a3
  have h5 := ((h2.drift d3).posted true w3.primed).drift d5
  have hl5 : w5.landed = true := d5.landed rfl
  obtain ⟨rfl, _⟩ := a5
  have h7 := (h5.posted w5.landed w5.landed).drift d7
  obtain ⟨rfl, hr⟩ := a7
  have hr := hr (d7.landed hl5) (d7.primed.trans hl5)
  refine ⟨?_, ⟨h7.knows.space, h7.knows.p2p⟩, ?_⟩
  · rw [hr, swab32_swab32, h7.addr, h7.knows.space _ _ _ hs]
    unfold World.busNum
    rw [h7.knows.p2p]
  · rw [List.append_nil]
    exact h7.said

end

/-! ## a bridge that answers at once -/

def promptAnswer (w : World) : (o : Op) → Res o × World
  | .load (.configAddr busIf) => (swab32 (w.addr busIf), w)
  | .load (.configData busIf) =>
    (swab32 (w.space busIf (w.busNum busIf) (w.addr busIf)), { w with primed := w.landed })
  | .load (.p2pConfig busIf) => (swab32 (w.p2p busIf), w)
  | .load (.cmd _) => (0, w)
  | .load .causeLow => (0, w)
  | .load .causeHigh => (0, w)
  | .store (.configAddr busIf) v => ((), { w with
      addr := Function.update w.addr busIf (swab32 v), landed := false, primed := false })
  | .store (.p2pConfig busIf) v => ((), { w with
      p2p := Function.update w.p2p busIf (swab32 v), landed := false })
  | .store (.configData _) _ => ((), { w with landed := false, primed := false })
  | .store (.cmd _) _ => ((), { w with landed := false })
  | .store .causeLow _ => ((), { w with landed := false })
  | .store .causeHigh _ => ((), { w with landed := false })
  | .flush => ((), { w with landed := true })
  | .print l => ((), { w with said := w.said ++ [l] })

theorem promptAnswer_access (w : World) (o : Op) :
    access w o (promptAnswer w o).1 (promptAnswer w o).2 := by
  cases o with
  | load r =>
    cases r with
    | configAddr _ | p2pConfig _ => exact ⟨rfl, rfl⟩
    | configData _ => exact ⟨rfl, fun _ _ => rfl⟩
    | cmd _ | causeLow | causeHigh => exact rfl
  | store r v =>
    cases r with
    | configData _ => exact ⟨w.space, rfl⟩
    | configAddr _ | p2pConfig _ | cmd _ | causeLow | causeHigh => exact rfl
  | flush | print _ => exact rfl

/-- what is on the buses stays as it is -/
theorem promptAnswer_space (w : World) (o : Op) : (promptAnswer w o).2.space = w.space := by
  cases o with
  | load r => cases r <;> rfl
  | store r v => cases r <;> rfl
  | flush | print _ => rfl

def prompt : Policy env where
  act _ w o := some (w, promptAnswer w o)
  sound := by
    intro n w o w1 r w2 hact
    obtain ⟨rfl, hr⟩ := Prod.mk.inj (Option.some.inj hact)
    obtain ⟨rfl, rfl⟩ := Prod.mk.inj hr
    exact ⟨⟨rfl, rfl, rfl, fun h => h, rfl, fun _ _ _ _ => rfl⟩, promptAnswer_access w o⟩

/-- it completes every use of the tool -/
theorem prompt_completes (q : Tool α) (w : World) :
    ∃ r, Runs env q w (prompt.play 0 q w).1 r (prompt.play 0 q w).2.1 := by
  have hact : ∀ n (w : World) o, True → (prompt.act n w o).isSome := fun _ _ _ _ => rfl
  obtain ⟨r, hr⟩ := prompt.play_completes hact (Prog.uses_any q) 0 w
  exact ⟨r, prompt.play_runs 0 q w hr⟩

theorem prompt_runs (q : Tool α) (w : World) : ∃ tr r w', Runs env q w tr r w' :=
  ⟨_, _, _, (prompt_completes q w).choose_spec⟩

end Pciscan
