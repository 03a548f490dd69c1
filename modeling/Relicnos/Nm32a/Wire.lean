import Relicnos.Nm32a.Transmit

/-!
# From the transmit stream to the wire

`wire` is the chip's reading of what it is sent: with `ETC` on, `00` introduces a literal NUL or
a break command, with `ETC` off every byte is a character.  `wire_tokens` says that the producers
encode for a chip with `ETC` on.  `nm32a_chan_init` writes `COR2` as `0x00`, so that on every port
it brings up the chip reads literally (`Literal`), and `wire_faithful_iff` says when the two agree.
-/

set_option linter.unusedVariables false

namespace Nm32a
open Interact

inductive OnWire where
  | char (b : UInt8)
  | breakOn
  | breakOff
  deriving DecidableEq

/-- what follows a `00` that was sent with `ETC` on -/
def embedded (b : UInt8) : List OnWire :=
  if b = 0x00 then [.char 0x00]
  else if b = 0x81 then [.breakOn]
  else if b = 0x83 then [.breakOff]
  else []

/-- what appears on the wire; `esc` says whether a `00` is waiting for its second byte -/
def wire : Bool → List Sent → List OnWire
  | _, [] => []
  | true, s :: rest => embedded s.byte ++ wire false rest
  | false, s :: rest =>
    if s.etc = true ∧ s.byte = 0 then wire true rest else .char s.byte :: wire false rest

/-- what a token is meant to become -/
def Token.meaning : Token → OnWire
  | .data b _ => .char b
  | .nul => .char 0x00
  | .start => .breakOn
  | .stop => .breakOff

/-- **The producers encode for a chip that has `ETC` on.** -/
theorem wire_tokens (ts : List Token) :
    wire false ((tokenBytes ts).map (Sent.mk true)) = ts.map Token.meaning := by
  induction ts with
  | nil => rfl
  | cons t ts ih =>
    rw [tokenBytes_cons, List.map_append, List.map_cons, ← ih]
    cases t with
    | data b h =>
      show wire false (⟨true, b⟩ :: _) = _
      rw [wire, if_neg (fun hb => h hb.2)]
      rfl
    | nul => rfl
    | start => rfl
    | stop => rfl

/-- a chip that has it off sends the bytes as they are -/
theorem wire_literal {ss : List Sent} (h : ∀ s ∈ ss, s.etc = false) :
    wire false ss = (ss.map Sent.byte).map .char := by
  induction ss with
  | nil => rfl
  | cons s ss ih =>
    have hs : ¬(s.etc = true ∧ s.byte = 0) := by
      rw [h s (List.mem_cons_self ..)]
      nofun
    rw [wire, if_neg hs, ih fun s' hs' => h s' (List.mem_cons_of_mem _ hs')]
    rfl

/-! ## tokens that read the same either way -/

def Token.Plain : Token → Prop
  | .data _ _ => True
  | _ => False

theorem tokenBytes_length (ts : List Token) : ts.length ≤ (tokenBytes ts).length := by
  induction ts with
  | nil => exact Nat.le_refl _
  | cons t ts ih =>
    rw [tokenBytes_cons, List.length_append, List.length_cons]
    have ht : 1 ≤ t.bytes.length := by cases t <;> simp [Token.bytes]
    omega

theorem plain_of_length {ts : List Token} (h : (tokenBytes ts).length = ts.length) :
    ∀ t ∈ ts, t.Plain := by
  induction ts with
  | nil => simp
  | cons t ts ih =>
    rw [tokenBytes_cons, List.length_append, List.length_cons] at h
    have hle := tokenBytes_length ts
    have ht : 1 ≤ t.bytes.length := by cases t <;> simp [Token.bytes]
    intro u hu
    rcases List.mem_cons.mp hu with rfl | hu
    · cases u with
      | data b hb => trivial
      | _ =>
        simp only [Token.bytes, List.length_cons, List.length_nil] at h
        omega
    · exact ih (by omega) u hu

theorem plain_literal {ts : List Token} (h : ∀ t ∈ ts, t.Plain) :
    (tokenBytes ts).map OnWire.char = ts.map Token.meaning := by
  induction ts with
  | nil => rfl
  | cons t ts ih =>
    rw [tokenBytes_cons, List.map_append, List.map_cons,
      ih fun u hu => h u (List.mem_cons_of_mem _ hu)]
    have ht := h t (List.mem_cons_self ..)
    cases t with
    | data b hb => rfl
    | _ => exact False.elim ht

/-- **Read literally, tokens mean what they should exactly if they are all data.** -/
theorem literal_iff (ts : List Token) :
    (tokenBytes ts).map OnWire.char = ts.map Token.meaning ↔ ∀ t ∈ ts, t.Plain := by
  constructor
  · intro h
    have hl := congrArg List.length h
    rw [List.length_map, List.length_map] at hl
    exact plain_of_length hl
  · exact plain_literal

/-- no NUL was accepted, and no break was queued -/
def Prod.Plain : Prod → Prop
  | .write taken => 0x00 ∉ taken
  | .brk _ => False

theorem prods_plain (ps : List Prod) :
    (∀ t ∈ ps.flatMap Prod.tokens, t.Plain) ↔ ∀ p ∈ ps, p.Plain := by
  have hone : ∀ p : Prod, (∀ t ∈ p.tokens, t.Plain) ↔ p.Plain := by
    intro p
    cases p with
    | write taken =>
      show (∀ t ∈ taken.map escape, t.Plain) ↔ (0x00 : UInt8) ∉ taken
      rw [List.forall_mem_map]
      constructor
      · intro h hz
        exact h 0x00 hz
      · intro h b hb
        have h0 : b ≠ 0 := by
          rintro rfl
          exact h hb
        rw [escape, dif_neg h0]
        trivial
    | brk state =>
      show (∀ t ∈ [breakToken state], t.Plain) ↔ False
      rw [List.forall_mem_singleton, iff_false]
      cases state <;> exact fun h => h
  constructor
  · intro h p hp
    exact (hone p).mp fun t ht => h t (List.mem_flatMap.mpr ⟨p, hp, ht⟩)
  · intro h t ht
    obtain ⟨p, hp, ht⟩ := List.mem_flatMap.mp ht
    exact (hone p).mpr (h p hp) t ht

/-! ## the invariant -/

/-- the chip reads the stream of port `i` literally, and has since the port was activated -/
structure Literal (i : Fin 32) (w : World) : Prop where
  etc : (w.hw (chipOf i)).etc (chanIx i) = false
  sent : ∀ s ∈ (w.sentOn i).drop (w.line i).mark, s.etc = false

/-- `COR2` is written as 0 only -/
def Op.Zero : Op → Prop
  | .cwr _ .COR2 v => v = 0x00
  | _ => True

variable {c : Cfg} {i : Fin 32} {w w' : World}

/-- no write of the driver sets an `ETC` bit -/
theorem write_etc {h : Chip} {j : Fin 8} {reg : Reg} {v : UInt8}
    (hz : Op.Zero (.cwr j reg v)) {x : Fin 4} (he : h.etc x = false) :
    (h.write reg v).etc x = false := by
  have hk : ∀ k, (h.eoir k).cor2 = h.cor2 := by
    intro k
    unfold Chip.eoir
    repeat' split
    all_goals rfl
  have hsame : ∀ h' : Chip, h'.cor2 = h.cor2 → h'.etc x = false := by
    intro h' hc
    unfold Chip.etc
    rw [hc]
    exact he
  cases reg
  case COR2 =>
    obtain rfl : v = 0x00 := hz
    unfold Chip.etc Chip.write
    simp only [Function.update_apply]
    split
    · decide
    · exact he
  case TDR =>
    refine hsame _ ?_
    unfold Chip.write
    simp only
    repeat' split
    all_goals rfl
  case REOIR => exact hsame _ (hk .rx)
  case TEOIR => exact hsame _ (hk .tx)
  all_goals exact hsame _ rfl

theorem setChip_etc {j : Fin 8} {h : Chip} (hh : ∀ x, (w.hw j).etc x = false → h.etc x = false)
    (he : (w.hw (chipOf i)).etc (chanIx i) = false) :
    ((w.setChip j h).hw (chipOf i)).etc (chanIx i) = false := by
  unfold World.setChip
  by_cases e : chipOf i = j
  · subst e
    simp only [Function.update_self]
    exact hh _ he
  · simp only [Function.update_of_ne e]
    exact he

/-- an `ETC` bit that is off stays off -/
theorem access_etc {o : Op} {r : Res o} (ho : o.Zero) (ha : c.access w o r w')
    (he : (w.hw (chipOf i)).etc (chanIx i) = false) :
    (w'.hw (chipOf i)).etc (chanIx i) = false := by
  cases o with
  | crd j reg =>
    obtain ⟨h', hr, rfl⟩ := ha
    refine setChip_etc (fun x hx => ?_) he
    unfold Chip.etc
    rw [(Chip.read_same hr).2.1]
    exact hx
  | cwr j reg v =>
    subst ha
    exact setChip_etc (fun x hx => write_etc ho hx) he
  | readb addr =>
    replace ha : c.Ack addr w w' := ha
    cases ha with
    | nothing h => exact he
    | grant j x hj hx hl h0 =>
      exact setChip_etc (j := j) (h := (w.hw j).grant x) (fun x hx => hx) he
  | port i' => obtain ⟨_, rfl⟩ := ha; exact he
  | params => obtain ⟨_, rfl⟩ := ha; exact he
  | jiffies => obtain ⟨_, rfl⟩ := ha; exact he
  | hang => exact False.elim ha
  | _ => subst ha; exact he

/-- a byte is sent with the `ETC` of its channel -/
theorem tdr_sent (h : Chip) (v : UInt8) (x : Fin 4) :
    (h.write .TDR v).sent x = h.sent x ∨ (h.write .TDR v).sent x = h.sent x ++ [⟨h.etc x, v⟩] := by
  simp only [Chip.write]
  split
  · rename_i y rest hs
    split
    · rename_i hk
      simp only [Function.update_apply]
      split
      · rename_i e
        subst e
        exact .inr rfl
      · exact .inl rfl
    · exact .inl rfl
  · exact .inl rfl

/-- whatever is new in the stream of port `i` was sent with the `ETC` of its channel -/
theorem access_sent {o : Op} {r : Res o} (ha : c.access w o r w') {s : Sent}
    (hs : s ∈ (w'.sentOn i).drop (w'.line i).mark) :
    s ∈ (w.sentOn i).drop (w.line i).mark ∨ s.etc = (w.hw (chipOf i)).etc (chanIx i) := by
  by_cases ho : o.Spares i
  · have h := access_spares ho ha
    rw [h.mark, h.sent] at hs
    exact .inl hs
  cases o with
  | cwr j reg v =>
    obtain rfl : reg = .TDR := not_not.mp ho
    subst ha
    by_cases e : chipOf i = j
    · subst e
      have hsent : (w.setChip (chipOf i) ((w.hw (chipOf i)).write .TDR v)).sentOn i
          = ((w.hw (chipOf i)).write .TDR v).sent (chanIx i) := by
        unfold World.sentOn World.setChip
        simp only [Function.update_self]
      rw [hsent] at hs
      rcases tdr_sent (w.hw (chipOf i)) v (chanIx i) with h | h
      · rw [h] at hs
        exact .inl hs
      · rw [h, List.drop_append] at hs
        rcases List.mem_append.mp hs with hs | hs
        · exact .inl hs
        · have hm := List.mem_of_mem_drop hs
          rw [List.mem_singleton] at hm
          exact .inr (by rw [hm])
    · have hsent : (w.setChip j ((w.hw j).write .TDR v)).sentOn i = w.sentOn i := by
        unfold World.sentOn World.setChip
        simp only [Function.update_of_ne e]
      rw [hsent] at hs
      exact .inl hs
  | setPort i' f =>
    obtain ⟨rfl, hf⟩ := Classical.not_imp.mp ho
    subst ha
    have hsame : ∀ l, (w.setLine i' l).sentOn i' = w.sentOn i' := fun _ => rfl
    rw [hsame] at hs
    simp only [World.setLine, Function.update_self] at hs
    cases f with
    | head v =>
      replace hs : s ∈ (w.sentOn i').drop (w.sentOn i').length := hs
      rw [List.drop_length] at hs
      exact absurd hs List.not_mem_nil
    | tail v => exact .inl hs
    | _ => exact absurd trivial hf
  | _ => exact absurd trivial ho

theorem Literal.keeps : Keeps c.card (fun _ => True) Op.Zero (Literal i) := by
  intro w o r w' ho h ha
  refine ⟨trivial, access_etc ho ha h.etc, ?_⟩
  intro s hs
  rcases access_sent ha hs with hs | hs
  · exact h.sent s hs
  · exact hs.trans h.etc

theorem Cfg.rely.etc (h : c.rely w w') (i : Fin 32) :
    (w'.hw (chipOf i)).etc (chanIx i) = (w.hw (chipOf i)).etc (chanIx i) := by
  obtain ⟨req, more, _, he⟩ := h.chip (chipOf i)
  rw [he]
  rfl

/-- nobody but the activation of a port moves its mark -/
theorem Line.Produces.mark {l l' : Line} (h : Line.Produces l l') : l'.mark = l.mark := by
  induction h with
  | refl => rfl
  | tail _ h1 ih =>
    rw [← ih]
    cases h1 <;> rfl

theorem Literal.stable (hc : c.Tended) : Stable c.card (Literal i) := by
  intro w w' h hr
  refine ⟨(hr.etc i).trans h.etc, ?_⟩
  rw [hr.sentOn, (hc _ _ (hr.line i)).mark]
  exact h.sent

/-! ## every call writes `COR2` as 0 only -/

theorem Op.Peek.zero {j : Fin 8} {o : Op} (h : o.Peek j) : o.Zero := by
  cases o with
  | cwr j' reg v => exact False.elim h
  | _ => trivial

theorem Op.Within.zero {j : Fin 8} {k : Kind} {i : Fin 32} {o : Op} (h : o.Within j k i) :
    o.Zero := by
  rcases h with (h | h) | rfl | ⟨_, rfl⟩ | ⟨_, ⟨v, rfl⟩ | ⟨v, rfl⟩⟩
  · exact h.zero
  · cases o with
    | cwr j' reg v => rcases h.2 with rfl | rfl <;> trivial
    | _ => trivial
  all_goals trivial

theorem Op.Sweep.zero {o : Op} (h : o.Sweep) : o.Zero := by
  cases o with
  | cwr j reg v => rcases h with rfl | rfl <;> trivial
  | _ => trivial

theorem Op.Setup.zero {k : Fin 32} {o : Op} (h : o.Setup k) : o.Zero := by
  cases o with
  | cwr j reg v =>
    cases reg
    case COR2 => exact h.2.2.2.2 rfl
    all_goals trivial
  | _ => trivial

theorem Op.Bringup.zero {k : Fin 32} {o : Op} (h : o.Bringup k) : o.Zero := by
  rcases h with (h | ⟨v, rfl⟩) | ⟨f, rfl⟩
  · exact h.zero
  · trivial
  · trivial

theorem Op.Pass.zero {j : Fin 8} {k : Kind} {ch : Fin 4} {o : Op} (h : Op.Pass j k ch o) :
    o.Zero := by
  rcases h with h | h | ⟨v, rfl⟩
  · exact h.zero
  · exact h.zero
  · cases k <;> trivial

theorem Call.zero (call : Call) : call.prog.Uses Op.Zero := by
  cases call with
  | service chip =>
    refine uses_discard (uses_service.mono ?_)
    rintro o (h | ⟨addr, rfl⟩ | rfl | ⟨k, ch, h⟩)
    · exact h.zero
    · trivial
    · trivial
    · exact h.zero
  | armTx chip => exact (uses_armTx chip).mono fun _ => Op.Sweep.zero
  | activate turns k rate =>
    exact uses_discard ((uses_activate turns rate).mono fun _ => Op.Bringup.zero)
  | setTermios turns k rate =>
    exact (uses_setTermios turns rate).mono fun _ h => Op.Bringup.zero (.inl h)
  | dtrRts k active => exact (uses_dtrRts active).mono fun _ => Op.Setup.zero
  | shutdown k => exact uses_shutdown.mono fun _ h => Op.Bringup.zero (.inl h)
  | sample k => exact uses_discard (uses_sample.mono fun _ => Op.Setup.zero)

/-! ## bringing a port up turns `ETC` off -/

/-- the channel of port `i` reads literally -/
def EtcOff (i : Fin 32) (w : World) : Prop := (w.hw (chipOf i)).etc (chanIx i) = false

theorem EtcOff.stable : Stable c.card (EtcOff i) := fun w w' h hr => (hr.etc i).trans h

theorem EtcOff.keeps : Keeps c.card (fun _ => True) Op.Zero (EtcOff i) :=
  fun w o r w' ho h ha => ⟨trivial, access_etc ho ha h⟩

theorem etcOff_cor2 (h : Aimed i w) :
    EtcOff i (w.setChip (chipOf i) ((w.hw (chipOf i)).write .COR2 0x00)) := by
  have hn : (w.hw (chipOf i)).chanNow = chanIx i := by
    unfold Chip.chanNow
    rw [h.closed (chipOf i)]
    exact h.car
  unfold EtcOff World.setChip Chip.etc Chip.write
  simp only [Function.update_self, hn]
  decide

theorem wp_chanInit_etc (turns rate : Nat) (h : w.Closed) :
    wp c.card (fun _ => True) (nm32aChanInit turns (chipOf i) (chanIx i) rate)
      (fun _ w' => EtcOff i w') w := by
  have hk : Keeps c.card (fun _ => True) (Op.Setup i) (Aimed i) :=
    Aimed.keeps.mono fun _ h => .inl (.inl h)
  rw [nm32aChanInit_eq]
  refine wp_issue closed_onStacks.stable h ?_
  rintro w1 _ w2 h1 _ rfl
  refine ⟨trivial, ?_⟩
  refine wp_bind_keeps Aimed.stable hk (uses_issue ⟨rfl, trivial, nofun, nofun, nofun⟩)
    (aimed_car h1) ?_
  intro _ w3 h3
  refine wp_bind_keeps Aimed.stable hk (uses_setRate rate) h3 ?_
  intro _ w4 h4
  refine wp_bind_keeps Aimed.stable hk (uses_issue ⟨rfl, trivial, nofun, nofun, nofun⟩) h4 ?_
  intro _ w5 h5
  refine wp_bind_keeps Aimed.stable hk (uses_issue ⟨rfl, trivial, nofun, nofun, nofun⟩) h5 ?_
  intro _ w6 h6
  refine wp_issue Aimed.stable h6 ?_
  rintro w7 _ w8 h7 _ rfl
  refine ⟨trivial, ?_⟩
  refine wp_keeps EtcOff.stable EtcOff.keeps ?_ (etcOff_cor2 h7)
  refine Prog.Uses.bind ((uses_chanInitRest turns).mono fun _ => Op.Setup.zero) ?_
  intro _
  exact uses_issue trivial

/-- **Every port that was brought up is read literally.** -/
theorem wp_activate_literal (hc : c.Tended) (turns rate : Nat) (h : w.Closed) :
    wp c.card (fun _ => True) (nm32aPortActivate turns i rate)
      (fun r w' => r = 0 → Literal i w') w := by
  have hk : Keeps c.card (fun _ => True) (Op.Bringup i) World.Closed := by
    intro w o r w' ho hw ha
    obtain ⟨hs, hg⟩ := access_bringup ho ha
    exact ⟨trivial, closed_onStacks w w' hs hg hw⟩
  rw [nm32aPortActivate_eq]
  refine wp_bind_keeps closed_onStacks.stable hk (uses_issue (.inl (.inl trivial))) h ?_
  intro _ w1 h1
  refine wp_bind_keeps closed_onStacks.stable hk (uses_issue (.inl (.inl ⟨rfl, nofun, nofun⟩)))
    h1 ?_
  intro gfrcr w2 h2
  split
  · refine wp_bind_keeps closed_onStacks.stable hk (uses_issue (.inl (.inl trivial))) h2 ?_
    intro _ w3 _ hr
    exact absurd hr (by decide)
  refine (wp_bind _ _ _ _).mpr (wp_post (wp_chanInit_etc turns _ h2) ?_)
  intro _ w3 h3
  refine wp_bind_keeps EtcOff.stable EtcOff.keeps (uses_issue trivial) h3 ?_
  intro _ w4 h4
  refine wp_issue EtcOff.stable h4 ?_
  rintro w5 _ _ h5 _ rfl
  refine ⟨trivial, ?_⟩
  -- the history starts here
  have h6 : Literal i (w5.setLine i (w5.assign i (.head 0))) := by
    refine ⟨h5, ?_⟩
    intro s hs
    simp only [World.setLine, Function.update_self] at hs
    replace hs : s ∈ (w5.sentOn i).drop (w5.sentOn i).length := hs
    rw [List.drop_length] at hs
    exact absurd hs List.not_mem_nil
  refine wp_post (wp_keeps (Literal.stable hc) Literal.keeps ?_ h6) fun _ _ h _ => h
  refine Prog.Uses.bind (uses_issue trivial) ?_
  intro _
  refine Prog.Uses.bind (uses_issue trivial) ?_
  intro now
  refine Prog.Uses.bind (uses_issue trivial) ?_
  intro _
  refine Prog.Uses.bind (uses_issue trivial) ?_
  intro _
  refine Prog.Uses.bind (uses_issue trivial) ?_
  intro _
  exact Prog.Uses.bind (uses_issue trivial) fun _ => trivial

/-! ## agreement -/

/-- what has appeared on the wire of port `i` since it was brought up -/
def onWire (i : Fin 32) (w : World) : List OnWire :=
  wire false ((w.sentOn i).drop (w.line i).mark)

/-- what should: the accepted bytes and the queued breaks, in order -/
def meant (i : Fin 32) (w : World) : List OnWire := (w.line i).tokens.map Token.meaning

/-- the wire carries what was meant, and all of it once the ring has been emptied -/
structure Faithful (i : Fin 32) (w : World) : Prop where
  sofar : onWire i w <+: meant i w
  drained : (w.line i).np.queue = [] → onWire i w = meant i w

theorem Literal.onWire (h : Literal i w) : onWire i w = (sentSince i w).map .char :=
  wire_literal h.sent

theorem faithful_of_plain (hl : Literal i w) (hi : Intact i w)
    (hp : ∀ p ∈ (w.line i).prods, p.Plain) : Faithful i w := by
  have hm : meant i w = (tokenBytes (w.line i).tokens).map OnWire.char :=
    (plain_literal ((prods_plain _).mpr hp)).symm
  refine ⟨?_, fun hq => ?_⟩
  · rw [hl.onWire, hm]
    exact hi.sofar.map _
  · rw [hl.onWire, hm, hi.drained hq]

theorem plain_of_faithful (hl : Literal i w) (hi : Intact i w)
    (hq : (w.line i).np.queue = []) (hf : Faithful i w) : ∀ p ∈ (w.line i).prods, p.Plain := by
  have h := hf.drained hq
  rw [hl.onWire, hi.drained hq] at h
  exact (prods_plain _).mp ((literal_iff _).mp h)

theorem wp_calls_literal (hc : c.Tended) (calls : List Call) (h : Literal i w) :
    wp c.card (fun e => Literal i e.post) (callsProg calls) (fun _ w' => Literal i w') w :=
  wp_calls (fun call _ w hw => wp_keeps (Literal.stable hc) Literal.keeps.post call.zero hw) h

/-- **What is on the wire is what was meant, exactly as long as no NUL was accepted and no break
was queued**; with NULs or breaks it goes wrong at the latest when the ring has been emptied. -/
theorem wire_faithful_iff (i : Fin 32) (turns rate : Nat) (before after : List Call)
    (hafter : ∀ call ∈ after, ¬call.Activates i) (w w0 w1 w2 : World) (hw : w.Closed)
    (tr0 tr1 tr2 : List (Event Op Res World)) (p' : Drv Unit)
    (h0 : Runs tendedCard.card (callsProg before) w tr0 () w0)
    (h1 : Runs tendedCard.card (nm32aPortActivate turns i rate) w0 tr1 0 w1)
    (h2 : Exec tendedCard.card (callsProg after) w1 tr2 w2 p') :
    ∀ e ∈ tr2, ((∀ p ∈ (e.post.line i).prods, p.Plain) → Faithful i e.post) ∧
      ((e.post.line i).np.queue = [] →
        (Faithful i e.post ↔ ∀ p ∈ (e.post.line i).prods, p.Plain)) := by
  have hclosed : w0.Closed := (wp_runs (wp_calls (fun call _ w hw =>
    wp_call_closed timely_tendedCard tendedCard_pick call hw) hw) h0).2
  have hset := (wp_runs (wp_activate_settled tendedCard_tended turns rate) h1).2 rfl
  have hlit := (wp_runs (wp_activate_literal tendedCard_tended turns rate hclosed) h1).2 rfl
  have hi := (wp_exec (wp_calls (fun call hcall w hw =>
    wp_call_settled tendedCard_tended call (hafter call hcall) hw) hset) h2).1
  have hl := (wp_exec (wp_calls_literal tendedCard_tended after hlit) h2).1
  intro e he
  refine ⟨faithful_of_plain (hl e he) (hi e he).2, fun hq => ⟨?_, ?_⟩⟩
  · exact plain_of_faithful (hl e he) (hi e he).2 hq
  · exact faithful_of_plain (hl e he) (hi e he).2

/-- `A` is written and sent: the wire is faithful -/
theorem wire_faithful_iff_plain : ∃ w1 w2 tr1 tr2 p',
    Runs tendedCard.card (nm32aPortActivate 1 1 9600) askingWorld tr1 0 w1 ∧
      Exec tendedCard.card (callsProg [.service 0]) w1 tr2 w2 p' ∧
      onWire 1 w2 = [.char 0x41] ∧
      ∀ e ∈ tr2, ((∀ p ∈ (e.post.line 1).prods, p.Plain) → Faithful 1 e.post) ∧
        ((e.post.line 1).np.queue = [] →
          (Faithful 1 e.post ↔ ∀ p ∈ (e.post.line 1).prods, p.Plain)) := by
  let S := tendedScript (fun n => if n = 100 then some (1, [0x41]) else none) 16 0x00
  have h1 := S.policy.play_runs 0 (nm32aPortActivate 1 1 9600) askingWorld (a := 0)
    (by decide +kernel)
  have h2 := S.policy.play_exec 100 (callsProg [.service 0])
    (S.policy.play 0 (nm32aPortActivate 1 1 9600) askingWorld).2.1
  refine ⟨_, _, _, _, _, h1, h2, by decide +kernel, ?_⟩
  refine wire_faithful_iff 1 1 9600 [] [.service 0] (by simp [Call.Activates]) _ _ _ _ ?_ _ _ _ _
    (.stop _ _) h1 h2
  intro j
  simp only [askingWorld, World.setChip, Function.update_apply]
  split <;> rfl

/-- `A` and a NUL are written and sent: the NUL appears on the wire twice -/
theorem wire_faithful_fails : ∃ w1 w2 tr1 tr2 p',
    Runs tendedCard.card (nm32aPortActivate 1 1 9600) askingWorld tr1 0 w1 ∧
      Exec tendedCard.card (callsProg [.service 0]) w1 tr2 w2 p' ∧
      (w2.line 1).np.queue = [] ∧ meant 1 w2 = [.char 0x41, .char 0x00] ∧
      onWire 1 w2 = [.char 0x41, .char 0x00, .char 0x00] ∧ ¬Faithful 1 w2 := by
  let S := tendedScript (fun n => if n = 100 then some (1, [0x41, 0x00]) else none) 16 0x00
  have h1 := S.policy.play_runs 0 (nm32aPortActivate 1 1 9600) askingWorld (a := 0)
    (by decide +kernel)
  have h2 := S.policy.play_exec 100 (callsProg [.service 0])
    (S.policy.play 0 (nm32aPortActivate 1 1 9600) askingWorld).2.1
  have hm : meant 1 (S.policy.play 100 (callsProg [.service 0])
      (S.policy.play 0 (nm32aPortActivate 1 1 9600) askingWorld).2.1).2.1
      = [.char 0x41, .char 0x00] := by decide +kernel
  have hw : onWire 1 (S.policy.play 100 (callsProg [.service 0])
      (S.policy.play 0 (nm32aPortActivate 1 1 9600) askingWorld).2.1).2.1
      = [.char 0x41, .char 0x00, .char 0x00] := by decide +kernel
  refine ⟨_, _, _, _, _, h1, h2, by decide +kernel, hm, hw, ?_⟩
  intro hf
  have h := hf.sofar.length_le
  rw [hm, hw] at h
  exact absurd h (by decide)

end Nm32a
