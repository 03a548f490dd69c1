import Relicnos.Interact.Pool
import Relicnos.Nm32a.Fpga
import Relicnos.Nm32a.Sections

/-!
# Several flows of control on one bus

Every register access is one step of one flow of control.  `Bus` is the card with who holds
`hw_lock`, which channel each flow selected last, and whose contexts are open; `busEnv c f` is
what an operation of flow `f` does to it.

* `Selected`, `Unshared`  an access to a channel finds it selected by the same flow, and no
                          channel is selected and no command given over another flow's context;
* `busView`               what a flow sees of the others: a holder of the lock is left alone;
* `wp_section`            a critical section that ends its contexts and chooses its channel meets
                          both, whatever the others do.
-/

set_option linter.unusedSectionVars false
set_option linter.unusedVariables false

namespace Nm32a
open Interact

structure Bus (F : Type) where
  w : World
  /-- who holds `hw_lock` -/
  holder : Option F
  /-- the channel of a chip that a flow selected last -/
  sel : F → Fin 8 → Option (Fin 4)
  /-- who opened the contexts of a chip, in the order of its stack -/
  owners : Fin 8 → List F

/-- registers of one channel; the others belong to the whole chip -/
def Reg.PerChannel : Reg → Prop
  | .AIRL => False
  | .AIRM => False
  | .AIRH => False
  | .MTCR => False
  | .BTCR => False
  | .RPILR => False
  | .TPILR => False
  | .GFRCR => False
  | .CAR => False
  | .TPR => False
  | .STK => False
  | .RIR => False
  | .TIR => False
  | .REOIR => False
  | .TEOIR => False
  | _ => True

/-- the register an operation accesses -/
def Op.register : Op → Option (Fin 8 × Reg)
  | .crd j reg => some (j, reg)
  | .cwr j reg _ => some (j, reg)
  | _ => none

variable {F : Type} [DecidableEq F]

namespace Bus

def holderAfter (f : F) : Op → Option F → Option F
  | .lock, _ => some f
  | .unlock, _ => none
  | _, h => h

def selAfter (f : F) : Op → (F → Fin 8 → Option (Fin 4)) → F → Fin 8 → Option (Fin 4)
  | .cwr j .CAR v, s => Function.update s f (Function.update (s f) j (some (chanOf v)))
  | _, s => s

/-- what the stack of a chip grew by is `f`'s -/
def ownersAfter (f : F) (old new : List Ctx) (l : List F) : List F :=
  List.replicate (new.length - old.length) f ++ l.drop (old.length - new.length)

/-- flow `f` issued `o`, and `w'` is the card after it -/
def after (b : Bus F) (f : F) (o : Op) (w' : World) : Bus F where
  w := w'
  holder := holderAfter f o b.holder
  sel := selAfter f o b.sel
  owners j := ownersAfter f (b.w.hw j).stack (w'.hw j).stack (b.owners j)

end Bus

def busEnv (c : Cfg) (f : F) : Env Op Res (Bus F) where
  rely b b' := c.rely b.w b'.w ∧ b' = { b with w := b'.w }
  access b o r b' := (o = .lock → b.holder = none) ∧
    ∃ w', c.access b.w o r w' ∧ b' = b.after f o w'

/-- an access to a channel outside of a context finds it selected by the same flow -/
def Selected (f : F) (e : Event Op Res (Bus F)) : Prop :=
  ∀ j reg, e.op.register = some (j, reg) → reg.PerChannel → (e.pre.w.hw j).stack = [] →
    e.pre.sel f j = some (e.pre.w.hw j).car

/-- no channel is selected and no command given while another flow has a context open -/
def Unshared (f : F) (e : Event Op Res (Bus F)) : Prop :=
  ∀ j v, e.op = .cwr j .CAR v ∨ e.op = .cwr j .CCR v → ∀ g ∈ e.pre.owners j, g = f

/-- operations that touch neither the card nor a parameter -/
def Op.Free : Op → Prop
  | .port _ => True
  | .setPort _ _ => True
  | .spinLock _ => True
  | .spinUnlock _ => True
  | .flip _ _ => True
  | .params => True
  | .jiffies => True
  | .ratelimit => True
  | .shouldStop => True
  | .hang => True
  | _ => False

/-- what a flow guarantees -/
structure Proper (f : F) (e : Event Op Res (Bus F)) : Prop where
  held : ¬e.op.Free → e.op ≠ .lock → e.pre.holder = some f
  released : e.op = .unlock → e.pre.w.Closed ∧ ∀ j, e.pre.owners j = []
  selected : Selected f e
  unshared : Unshared f e

namespace Bus

/-- where nobody has the lock no context is open -/
def Rest (b : Bus F) : Prop := b.holder = none → b.w.Closed ∧ ∀ j, b.owners j = []

/-- what the others do to flow `f` -/
structure Rely (c : Cfg) (f : F) (b b' : Bus F) : Prop where
  sel : b'.sel f = b.sel f
  ready : c.Ready b'.w
  inside : b.holder = some f →
    b'.holder = some f ∧ b'.owners = b.owners ∧ c.rely b.w b'.w
  outside : b.holder ≠ some f → b'.holder ≠ some f ∧ (b.Rest → b'.Rest)

end Bus

def busView (c : Cfg) (f : F) : Env Op Res (Bus F) where
  rely := Bus.Rely c f
  access := (busEnv c f).access

variable {c : Cfg} {f g : F} {b b' : Bus F} {w w' : World} {j : Fin 8} {α : Type}

/-! ## steps of a flow -/

theorem selAfter_of_ne {o : Op} (hg : g ≠ f) (s : F → Fin 8 → Option (Fin 4)) :
    Bus.selAfter g o s f = s f := by
  cases o with
  | cwr j reg v =>
    cases reg
    case CAR => exact Function.update_of_ne (Ne.symm hg) _ _
    all_goals rfl
  | _ => rfl

theorem selAfter_car {o : Op} (ho : ∀ v, o ≠ .cwr j .CAR v) (s : F → Fin 8 → Option (Fin 4)) :
    Bus.selAfter f o s f j = s f j := by
  cases o with
  | cwr j' reg v =>
    cases reg
    case CAR =>
      have hj : j ≠ j' := by
        rintro rfl
        exact ho v rfl
      show Function.update s f (Function.update (s f) j' _) f j = _
      rw [Function.update_self, Function.update_of_ne hj]
    all_goals rfl
  | _ => rfl

theorem holderAfter_of_ne {o : Op} (hl : o ≠ .lock) (hu : o ≠ .unlock) (h : Option F) :
    Bus.holderAfter f o h = h := by
  cases o with
  | lock => exact absurd rfl hl
  | unlock => exact absurd rfl hu
  | _ => rfl

theorem ownersAfter_length {old new : List Ctx} {l : List F} (h : l.length = old.length) :
    (Bus.ownersAfter f old new l).length = new.length := by
  unfold Bus.ownersAfter
  rw [List.length_append, List.length_replicate, List.length_drop]
  omega

theorem ownersAfter_same {old new : List Ctx} (h : new = old) (l : List F) :
    Bus.ownersAfter f old new l = l := by
  unfold Bus.ownersAfter
  rw [h, Nat.sub_self]
  rfl

theorem mem_ownersAfter {old new : List Ctx} {l : List F} (h : ∀ g ∈ l, g = f) :
    ∀ g ∈ Bus.ownersAfter f old new l, g = f := by
  intro g hg
  unfold Bus.ownersAfter at hg
  rcases List.mem_append.mp hg with hg | hg
  · exact List.eq_of_mem_replicate hg
  · exact h g (List.mem_of_mem_drop hg)

/-- a free operation leaves the card alone -/
theorem access_free {o : Op} {r : Res o} (ho : o.Free) (ha : c.access w o r w') :
    w'.hw = w.hw ∧ w'.par = w.par ∧ w'.held = w.held ∧ w'.serving = w.serving ∧
      w'.granted = w.granted := by
  cases o with
  | port i => obtain ⟨_, rfl⟩ := ha; exact ⟨rfl, rfl, rfl, rfl, rfl⟩
  | params => obtain ⟨_, rfl⟩ := ha; exact ⟨rfl, rfl, rfl, rfl, rfl⟩
  | jiffies => obtain ⟨_, rfl⟩ := ha; exact ⟨rfl, rfl, rfl, rfl, rfl⟩
  | hang => exact False.elim ha
  | setPort i f => subst ha; exact ⟨rfl, rfl, rfl, rfl, rfl⟩
  | spinLock i => subst ha; exact ⟨rfl, rfl, rfl, rfl, rfl⟩
  | spinUnlock i => subst ha; exact ⟨rfl, rfl, rfl, rfl, rfl⟩
  | flip i bs => subst ha; exact ⟨rfl, rfl, rfl, rfl, rfl⟩
  | ratelimit => subst ha; exact ⟨rfl, rfl, rfl, rfl, rfl⟩
  | shouldStop => subst ha; exact ⟨rfl, rfl, rfl, rfl, rfl⟩
  | _ => exact False.elim ho

theorem read_car {h h' : Chip} {reg : Reg} {v : UInt8} (hr : h.read reg v h') : h'.car = h.car := by
  cases reg
  case RFOC =>
    simp only [Chip.read] at hr
    split at hr
    · rw [hr.2]
    · rw [hr]
  case RDR =>
    simp only [Chip.read] at hr
    repeat' split at hr
    · rw [hr.2]
    all_goals rw [hr]
  case TIR => rw [hr.1]
  case RIR => rw [hr.1]
  case STK => rw [hr.1]
  case RISRl => rw [hr.1]
  all_goals rw [show h' = h from hr]

theorem write_car_of_ne (h : Chip) {reg : Reg} (v : UInt8) (hr : reg ≠ .CAR) :
    (h.write reg v).car = h.car := by
  have he : ∀ k, (h.eoir k).car = h.car := by
    intro k
    unfold Chip.eoir
    repeat' split
    all_goals rfl
  cases reg
  case CAR => exact absurd rfl hr
  case REOIR => exact he .rx
  case TEOIR => exact he .tx
  case TDR =>
    unfold Chip.write
    simp only
    split
    · split <;> rfl
    · rfl
  all_goals rfl

/-- only a write of `CAR` changes it -/
theorem access_car {o : Op} {r : Res o} (ho : ∀ v, o ≠ .cwr j .CAR v) (ha : c.access w o r w') :
    (w'.hw j).car = (w.hw j).car := by
  have hset : ∀ {j' : Fin 8} {h : Chip}, (j' = j → h.car = (w.hw j).car) →
      ((w.setChip j' h).hw j).car = (w.hw j).car := by
    intro j' h hh
    by_cases e : j = j'
    · subst e
      simp only [World.setChip, Function.update_self]
      exact hh rfl
    · simp only [World.setChip, Function.update_of_ne e]
  cases o with
  | crd j' reg =>
    obtain ⟨h', hr, rfl⟩ := ha
    exact hset fun e => by rw [read_car hr, e]
  | cwr j' reg v =>
    subst ha
    refine hset fun e => ?_
    subst e
    refine write_car_of_ne _ v ?_
    rintro rfl
    exact ho v rfl
  | readb addr =>
    replace ha : c.Ack addr w w' := ha
    cases ha with
    | nothing h => rfl
    | grant j' x hj hx hl h0 => exact hset fun e => by rw [e]; rfl
  | port i => obtain ⟨_, rfl⟩ := ha; rfl
  | params => obtain ⟨_, rfl⟩ := ha; rfl
  | jiffies => obtain ⟨_, rfl⟩ := ha; rfl
  | hang => exact False.elim ha
  | _ => subst ha; rfl

/-! ## what the flows see of one another -/

/-- the stacks stay as they are, so nobody's contexts do more -/
theorem rest_of_same {o : Op} (hs : ∀ i, (w'.hw i).stack = (b.w.hw i).stack)
    (hh : Bus.holderAfter g o b.holder = none → b.holder = none) (h : b.Rest) :
    (b.after g o w').Rest := by
  intro hn
  obtain ⟨hc, ho⟩ := h (hh hn)
  refine ⟨fun i => (hs i).trans (hc i), fun i => ?_⟩
  show Bus.ownersAfter g (b.w.hw i).stack (w'.hw i).stack (b.owners i) = []
  rw [ownersAfter_same (hs i), ho i]

/-- without the lock, a flow that does not take it is free -/
theorem Proper.free {o : Op} {r : Res o} (h : Proper g ⟨b, o, r, b'⟩) (hn : b.holder ≠ some g)
    (ho : o ≠ .lock) : o.Free := by
  by_contra hf
  exact hn (h.held hf ho)

theorem Op.Free.ne {o : Op} (h : o.Free) : o ≠ .lock ∧ o ≠ .unlock := by
  constructor
  · rintro rfl
    exact h
  · rintro rfl
    exact h

section
variable (hl : ∀ l l', c.line l l')
include hl

theorem Cfg.rely.trans {w1 w2 w3 : World} (h : c.rely w1 w2) (h' : c.rely w2 w3) :
    c.rely w1 w3 where
  chip j := by
    obtain ⟨req, more, _, he⟩ := h.chip j
    obtain ⟨req', more', hr', he'⟩ := h'.chip j
    refine ⟨req', fun x => more x ++ more' x, hr', ?_⟩
    rw [he', he]
    simp only [List.append_assoc]
  line i := hl _ _
  par := h'.par
  held := h'.held.trans h.held
  serving := h'.serving.trans h.serving
  granted := h'.granted.trans h.granted

theorem free_rely {o : Op} {r : Res o} (ho : o.Free) (hr : c.Ready w) (ha : c.access w o r w') :
    c.rely w w' := by
  obtain ⟨hhw, hpar, hheld, hserving, hgranted⟩ := access_free ho ha
  refine ⟨fun j => ⟨(w.hw j).req, fun _ => [], hr.2 j, ?_⟩, fun i => hl _ _, ?_, hheld, hserving,
    hgranted⟩
  · rw [hhw]
    simp
  · rw [hpar]
    exact hr.1

/-- **The flows see one another as interference that leaves the holder of the lock alone.** -/
theorem busViews : Views (busEnv c) (busView c) (Proper (F := F)) where
  rely f b b' h := by
    obtain ⟨hr, he⟩ := h
    have hhold : b'.holder = b.holder := by rw [he]
    have hown : b'.owners = b.owners := by rw [he]
    refine ⟨by rw [he], hr.ready, fun hf => ⟨hhold.trans hf, hown, hr⟩, fun hf => ⟨?_, ?_⟩⟩
    · rw [hhold]
      exact hf
    · intro h hn
      obtain ⟨hc, ho⟩ := h (hhold ▸ hn)
      exact ⟨fun i => (hr.stack i).trans (hc i), fun i => by rw [hown, ho i]⟩
  access f b o r b' h := h
  other f g b b1 o r b2 b3 hg hr ha hG h3 := by
    obtain ⟨hr, he⟩ := hr
    obtain ⟨hlock, w2, ha, rfl⟩ := ha
    have hhold : b1.holder = b.holder := by rw [he]
    have hown : b1.owners = b.owners := by rw [he]
    have hsel : b1.sel f = b.sel f := by rw [he]
    have hrest : b.Rest → b1.Rest := by
      intro h hn
      obtain ⟨hc, ho⟩ := h (hhold ▸ hn)
      exact ⟨fun i => (hr.stack i).trans (hc i), fun i => by rw [hown, ho i]⟩
    refine ⟨?_, h3.ready, ?_, ?_⟩
    · have hsel2 : (b1.after g o w2).sel f = b1.sel f := selAfter_of_ne hg b1.sel
      exact h3.sel.trans (hsel2.trans hsel)
    · intro hf
      have hf1 : b1.holder = some f := hhold.trans hf
      have hfree : o.Free := by
        refine hG.free ?_ ?_
        · rw [hf1]
          intro e
          exact hg (Option.some.inj e).symm
        · intro e
          rw [hlock e] at hf1
          cases hf1
      obtain ⟨hnl, hnu⟩ := hfree.ne
      have hw := free_rely hl hfree hr.ready ha
      have hf2 : (b1.after g o w2).holder = some f := (holderAfter_of_ne hnl hnu _).trans hf1
      have hown2 : (b1.after g o w2).owners = b1.owners :=
        funext fun i => ownersAfter_same (hw.stack i) _
      obtain ⟨h3h, h3o, h3r⟩ := h3.inside hf2
      refine ⟨h3h, ?_, (hr.trans hl hw).trans hl h3r⟩
      rw [h3o, hown2, hown]
    · intro hf
      have hf1 : b1.holder ≠ some f := by rwa [hhold]
      have hf2 : (b1.after g o w2).holder ≠ some f ∧ (b1.Rest → (b1.after g o w2).Rest) := by
        by_cases hol : o = .lock
        · subst hol
          exact ⟨fun e => hg (Option.some.inj e), fun _ hn => nomatch hn⟩
        by_cases hou : o = .unlock
        · subst hou
          obtain ⟨hc, ho⟩ := hG.released rfl
          subst ha
          refine ⟨nofun, fun _ _ => ⟨hc, fun i => ?_⟩⟩
          show Bus.ownersAfter g _ _ (b1.owners i) = []
          rw [ownersAfter_same rfl]
          exact ho i
        have hhold2 : (b1.after g o w2).holder = b1.holder := holderAfter_of_ne hol hou _
        refine ⟨by rwa [hhold2], fun hrest1 hn => ?_⟩
        -- nobody has the lock, so the operation is free
        have hn1 : b1.holder = none := hhold2.symm.trans hn
        have hfree : o.Free := hG.free (by rw [hn1]; nofun) hol
        refine rest_of_same (fun i => ?_) (fun _ => hn1) hrest1 hn
        rw [(access_free hfree ha).1]
      obtain ⟨h3h, h3r⟩ := h3.outside hf2.1
      exact ⟨h3h, fun h => h3r (hf2.2 (hrest h))⟩

end

/-! ## a flow in its section and outside -/

/-- flow `f` has the lock, and the open contexts are its own -/
structure Bus.Mine (f : F) (b : Bus F) : Prop where
  holder : b.holder = some f
  own : ∀ j, ∀ g ∈ b.owners j, g = f
  len : ∀ j, (b.owners j).length = (b.w.hw j).stack.length

/-- flow `f` does not have it -/
structure Bus.Out (f : F) (b : Bus F) : Prop where
  holder : b.holder ≠ some f
  rest : b.Rest

theorem Bus.Mine.rely (h : b.Mine f) (hr : Bus.Rely c f b b') :
    b'.Mine f ∧ c.rely b.w b'.w ∧ b'.sel f = b.sel f := by
  obtain ⟨hh, ho, hw⟩ := hr.inside h.holder
  refine ⟨⟨hh, ?_, fun i => ?_⟩, hw, hr.sel⟩
  · rw [ho]
    exact h.own
  · rw [ho, hw.stack i]
    exact h.len i

theorem Bus.Mine.after (h : b.Mine f) {o : Op} (hl : o ≠ .lock) (hu : o ≠ .unlock) (w' : World) :
    (b.after f o w').Mine f where
  holder := (holderAfter_of_ne hl hu _).trans h.holder
  own j := mem_ownersAfter (h.own j)
  len j := ownersAfter_length (h.len j)

theorem Bus.Mine.closed (h : b.Mine f) (hc : b.w.Closed) (j : Fin 8) : b.owners j = [] := by
  apply List.eq_nil_of_length_eq_zero
  rw [h.len j, hc j]
  rfl

theorem Bus.Out.stable : Stable (busView c f) (Bus.Out f) :=
  fun b b' h hr => ⟨(hr.outside h.holder).1, (hr.outside h.holder).2 h.rest⟩

/-- a free operation is proper anywhere -/
theorem proper_free {o : Op} {r : Res o} (ho : o.Free) : Proper f ⟨b, o, r, b'⟩ := by
  refine ⟨fun h => absurd ho h, ?_, ?_, ?_⟩
  · rintro rfl
    exact ho.elim
  · intro j reg he
    cases o with
    | crd j' reg' => exact ho.elim
    | cwr j' reg' v => exact ho.elim
    | _ => cases he
  · intro j v he
    rcases he with rfl | rfl
    · exact ho.elim
    · exact ho.elim

theorem Bus.Out.keeps : Keeps (busView c f) (Proper f) Op.Free (Bus.Out f) := by
  intro b o r b' ho h ha
  obtain ⟨_, w', hw, rfl⟩ := ha
  obtain ⟨hnl, hnu⟩ := ho.ne
  have hhold : (b.after f o w').holder = b.holder := holderAfter_of_ne hnl hnu _
  refine ⟨proper_free ho, by rw [hhold]; exact h.holder, ?_⟩
  refine rest_of_same (fun i => ?_) (fun hn => hhold ▸ hn) h.rest
  rw [(access_free ho hw).1]

/-! ## sections -/

/-- operations on chip `j` in a section -/
def Op.OnChip (j : Fin 8) : Op → Prop
  | .crd j' _ => j' = j
  | .cwr j' _ _ => j' = j
  | .lock => False
  | .unlock => False
  | _ => True

theorem Op.OnChip.ne {o : Op} (h : o.OnChip j) : o ≠ .lock ∧ o ≠ .unlock := by
  constructor
  · rintro rfl
    exact h
  · rintro rfl
    exact h

/-- the channel that flow `f` selected on chip `j` is still selected -/
def Bus.Aims (f : F) (j : Fin 8) (b : Bus F) : Prop := b.sel f j = some (b.w.hw j).car

theorem aims_after {o : Op} {r : Res o} (ho : ∀ v, o ≠ .cwr j .CAR v) (ha : c.access b.w o r w')
    (h : b.Aims f j) : (b.after f o w').Aims f j := by
  show Bus.selAfter f o b.sel f j = some (w'.hw j).car
  rw [selAfter_car ho, access_car ho ha]
  exact h

theorem aims_car (b : Bus F) (f : F) (j : Fin 8) (v : UInt8) :
    (b.after f (.cwr j .CAR v) (b.w.setChip j ((b.w.hw j).write .CAR v))).Aims f j := by
  show Function.update b.sel f (Function.update (b.sel f) j (some (chanOf v))) f j = _
  rw [Function.update_self, Function.update_self]
  show some (chanOf v) = some (Function.update b.w.hw j ((b.w.hw j).write .CAR v) j).car
  rw [Function.update_self]
  rfl

/-- an operation of a section, where accesses to channels are all right -/
theorem Bus.Mine.proper {o : Op} {r : Res o} (h : b.Mine f) (hu : o ≠ .unlock)
    (hs : Selected f ⟨b, o, r, b'⟩) : Proper f ⟨b, o, r, b'⟩ :=
  ⟨fun _ _ => h.holder, fun e => absurd e hu, hs, fun j _ _ g hg => h.own j g hg⟩

theorem selected_of_on {o : Op} {r : Res o} (ho : o.OnChip j) (h : b.Aims f j) :
    Selected f ⟨b, o, r, b'⟩ := by
  intro j' reg he _ _
  obtain rfl : j' = j := by
    cases o with
    | crd i reg' => cases he; exact ho
    | cwr i reg' v => cases he; exact ho
    | _ => cases he
  exact h

section
variable {W : Event Op Res World → Prop} (hW : ∀ e, W e → e.op = .unlock → e.pre.Closed)
include hW

/-- the release of the lock, and what follows it -/
theorem wp_release {k : Res Op.unlock → Drv α} (hk : ∀ r, (k r).Uses Op.Free) (h : b.Mine f)
    (hw : wp c.card W (.op .unlock k) (fun _ _ => True) b.w) :
    wp (busView c f) (Proper f) (.op .unlock k) (fun _ b' => b'.Out f) b := by
  intro b1 hr r b2 ha
  obtain ⟨h1, hr1, _⟩ := h.rely hr
  obtain ⟨_, w2, ha2, rfl⟩ := ha
  have hc : b1.w.Closed := hW _ (hw b1.w hr1 r w2 ha2).1 rfl
  have hsel : Selected f ⟨b1, .unlock, r, b1.after f .unlock w2⟩ := fun _ _ he => nomatch he
  refine ⟨⟨fun _ _ => h1.holder, fun _ => ⟨hc, h1.closed hc⟩, hsel, fun j v he => ?_⟩, ?_⟩
  · rcases he with he | he <;> cases he
  refine wp_keeps Bus.Out.stable Bus.Out.keeps (hk r) ⟨nofun, fun _ => ?_⟩
  obtain rfl : w2 = { b1.w with held := false } := ha2
  refine ⟨hc, fun i => ?_⟩
  show Bus.ownersAfter f _ _ (b1.owners i) = []
  rw [ownersAfter_same rfl]
  exact h1.closed hc i

/-- the rest of a section in which the channel has been chosen -/
theorem wp_until {p : Drv α} (hp : p.Until (Op.OnChip j) (· = .unlock) Op.Free) (h : b.Mine f)
    (ha : b.Aims f j) (hw : wp c.card W p (fun _ _ => True) b.w) :
    wp (busView c f) (Proper f) p (fun _ b' => b'.Out f) b := by
  induction p generalizing b with
  | ret a => exact hp.elim
  | op o k ih =>
    rcases hp with ⟨rfl, hk⟩ | ⟨ho, hk⟩
    · exact wp_release hW hk h hw
    intro b1 hr r b2 hacc
    obtain ⟨h1, hr1, hsel1⟩ := h.rely hr
    obtain ⟨_, w2, ha2, rfl⟩ := hacc
    obtain ⟨hnl, hnu⟩ := ho.ne
    have ha1 : b1.Aims f j := by
      show b1.sel f j = some (b1.w.hw j).car
      rw [hsel1, hr1.car j]
      exact ha
    refine ⟨h1.proper hnu (selected_of_on ho ha1), ?_⟩
    refine ih r (hk r) (h1.after hnl hnu w2) ?_ (hw b1.w hr1 r w2 ha2).2
    by_cases hcar : ∃ v, o = .cwr j .CAR v
    · obtain ⟨v, rfl⟩ := hcar
      obtain rfl : w2 = b1.w.setChip j ((b1.w.hw j).write .CAR v) := ha2
      exact aims_car b1 f j v
    · exact aims_after (fun v e => hcar ⟨v, e⟩) ha2 ha1

/-- up to the choice of the channel: accesses to channels are inside of contexts -/
def InContext (A : Op → Prop) (W : Event Op Res World → Prop) : Prop :=
  ∀ e, W e → A e.op → ∀ j reg, e.op.register = some (j, reg) → reg.PerChannel →
    (e.pre.hw j).stack ≠ []

/-- **The rest of a section**, as a program on the card alone, is proper among the others. -/
theorem wp_staged {A : Op → Prop} {p : Drv α} (hA : ∀ o, A o → o ≠ .lock ∧ o ≠ .unlock)
    (hin : InContext A W)
    (hp : p.Staged A (fun o => ∃ v, o = .cwr j .CAR v) (Op.OnChip j) (· = .unlock) Op.Free)
    (h : b.Mine f) (hw : wp c.card W p (fun _ _ => True) b.w) :
    wp (busView c f) (Proper f) p (fun _ b' => b'.Out f) b := by
  induction p generalizing b with
  | ret a => exact hp.elim
  | op o k ih =>
    rcases hp with ⟨rfl, hk⟩ | ⟨⟨v, rfl⟩, hk⟩ | ⟨ho, hk⟩
    · exact wp_release hW hk h hw
    · intro b1 hr r b2 hacc
      obtain ⟨h1, hr1, _⟩ := h.rely hr
      obtain ⟨_, w2, ha2, rfl⟩ := hacc
      have hwk := (hw b1.w hr1 r w2 ha2).2
      obtain rfl : w2 = b1.w.setChip j ((b1.w.hw j).write .CAR v) := ha2
      refine ⟨h1.proper nofun ?_, ?_⟩
      · intro j' reg he hreg
        cases he
        exact hreg.elim
      · have h2 := h1.after (o := .cwr j .CAR v) nofun nofun
          (b1.w.setChip j ((b1.w.hw j).write .CAR v))
        exact wp_until hW (hk r) h2 (aims_car b1 f j v) hwk
    · intro b1 hr r b2 hacc
      obtain ⟨h1, hr1, _⟩ := h.rely hr
      obtain ⟨_, w2, ha2, rfl⟩ := hacc
      obtain ⟨hnl, hnu⟩ := hA o ho
      obtain ⟨hwe, hwk⟩ := hw b1.w hr1 r w2 ha2
      refine ⟨h1.proper hnu ?_, ih r (hk r) (h1.after hnl hnu w2) hwk⟩
      intro j' reg he hreg hs
      exact absurd hs (hin _ hwe ho j' reg he hreg)

/-- **A critical section.** -/
theorem wp_section (hl : ∀ l l', c.line l l') {A : Op → Prop} {g : Unit → Drv α}
    (hA : ∀ o, A o → o ≠ .lock ∧ o ≠ .unlock) (hin : InContext A W)
    (hp : (g ()).Staged A (fun o => ∃ v, o = .cwr j .CAR v) (Op.OnChip j) (· = .unlock) Op.Free)
    (hw : ∀ w, w.Closed → wp c.card W (hwLock >>= g) (fun _ _ => True) w) (h : b.Out f) :
    wp (busView c f) (Proper f) (hwLock >>= g) (fun _ b' => b'.Out f) b := by
  intro b1 hr r b2 hacc
  have h1 := Bus.Out.stable b b1 h hr
  obtain ⟨hlock, w2, ha2, rfl⟩ := hacc
  obtain ⟨hc, ho⟩ := h1.rest (hlock rfl)
  have hw2 := (hw b1.w hc b1.w (hr.ready.rely_refl fun l => hl l l) r w2 ha2).2
  obtain rfl : w2 = { b1.w with held := true } := ha2
  have hown : ∀ i, Bus.ownersAfter f (b1.w.hw i).stack (b1.w.hw i).stack (b1.owners i) = [] := by
    intro i
    rw [ownersAfter_same rfl]
    exact ho i
  have hlocked : Proper f ⟨b1, .lock, r, b1.after f .lock { b1.w with held := true }⟩ := by
    refine ⟨fun _ hn => absurd rfl hn, nofun, (fun _ _ he => nomatch he), fun j v he => ?_⟩
    rcases he with he | he <;> cases he
  refine ⟨hlocked, ?_⟩
  refine wp_staged hW hA hin hp ⟨rfl, fun i g hg => ?_, fun i => ?_⟩ hw2
  · have hg : g ∈ Bus.ownersAfter f (b1.w.hw i).stack (b1.w.hw i).stack (b1.owners i) := hg
    rw [hown i] at hg
    cases hg
  · show (Bus.ownersAfter f (b1.w.hw i).stack (b1.w.hw i).stack (b1.owners i)).length
      = (b1.w.hw i).stack.length
    rw [hown i, hc i]
    rfl

end

end Nm32a
