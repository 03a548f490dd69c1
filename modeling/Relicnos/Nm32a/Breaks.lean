import Relicnos.Nm32a.Room
import Relicnos.Nm32a.Tty

/-!
# Break commands and what their callers are told

`nm32a_break_ctl` answers 0 whether or not the ring had room for its command.

* `breakCtl_honest`    the answer says what happened exactly if two slots were free;
* `breakCtl_lastKept`  in a run all of whose calls found two free slots, the last break command
                       sent when the ring is empty is the last one asked for.
-/

set_option linter.unusedVariables false

namespace Nm32a
open Interact

/-! ## one call -/

/-- the command for its state appended and 0 returned, or nothing done and an error returned -/
def Honest (np : Option Port) (state : Int) : Prop :=
  ((nm32aBreakCtl np state).2 = 0 ∧ ∃ q q', np = some q ∧ (nm32aBreakCtl np state).1 = some q' ∧
      q'.queue = q.queue ++ (breakToken (state ≠ 0)).bytes) ∨
    ((nm32aBreakCtl np state).2 < 0 ∧ (nm32aBreakCtl np state).1 = np)

theorem breakToken_ne_nil (state : Bool) : (breakToken state).bytes ≠ [] :=
  token_prefixCode.ne_nil _

/-- **The answer is true exactly if there was room for the command.** -/
theorem breakCtl_honest (np : Option Port) (state : Int) (h : ∀ q, np = some q → q.Wf) :
    Honest np state ↔ ∀ q, np = some q → 2 ≤ nm32aTxSpace q := by
  cases np with
  | none =>
    have herr : Honest none state := .inr ⟨by show (-19 : Int) < 0; decide, rfl⟩
    constructor
    · intro _ q hq
      cases hq
    · intro _
      exact herr
  | some q =>
    have hq := (breakPut_queue (h q rfl) (state ≠ 0)).2
    constructor
    · rintro (⟨_, q1, q2, he1, he2, happ⟩ | ⟨hneg, _⟩)
      · intro q3 he3
        obtain rfl : q = q1 := Option.some.inj he1
        obtain rfl : q = q3 := Option.some.inj he3
        have he : breakPut q (state ≠ 0) = q2 := Option.some.inj he2
        rw [← he, hq] at happ
        by_contra hs
        rw [if_neg hs] at happ
        exact breakToken_ne_nil _ (List.append_cancel_left happ).symm
      · exact absurd hneg (by show ¬(0 : Int) < 0; decide)
    · intro hs
      refine .inl ⟨rfl, q, _, rfl, rfl, ?_⟩
      rw [hq, if_pos (hs q rfl)]

/-- the command a call asked for, if it was told that it got it -/
def Done.asked : Done → Option Bool
  | .breakCtl state _ rc => if rc = 0 then some (state ≠ 0) else none
  | .write _ _ _ => none

/-- a call of `break_ctl` that found room for its command -/
def Done.Roomy : Done → Prop
  | .breakCtl _ space _ => 2 ≤ space
  | .write _ _ _ => True

/-- the free slots a call found -/
def Done.space : Done → Nat
  | .breakCtl _ space _ => space
  | .write _ space _ => space

theorem Done.roomy_of_space {d : Done} (h : 2 ≤ d.space) : d.Roomy := by
  cases d with
  | breakCtl state space rc => exact h
  | write buf space rc => trivial

def lastAsked (log : List Done) : Option Bool := (log.filterMap Done.asked).getLast?

/-- the command that a token is -/
def Token.brk : Token → Option Bool
  | .start => some true
  | .stop => some false
  | .nul => none
  | .data _ _ => none

def lastBreak (ts : List Token) : Option Bool := (ts.filterMap Token.brk).getLast?

/-- once the ring is empty, the last break command sent on the channel is the last one that a
caller was told it got -/
def LastKept (i : Fin 32) (s : World × List Done) : Prop :=
  (s.1.line i).np.queue = [] → ∀ state, lastAsked s.2 = some state →
    ∀ ts, tokenBytes ts = sentSince i s.1 → lastBreak ts = some state

/-! ## the log and the tokens pushed -/

theorem breakToken_brk (state : Bool) : (breakToken state).brk = some state := by
  cases state <;> rfl

theorem escape_brk (b : UInt8) : (escape b).brk = none := by
  unfold escape
  split <;> rfl

theorem escapes_brk (bs : List UInt8) : (bs.map escape).filterMap Token.brk = [] := by
  apply List.filterMap_eq_nil_iff.mpr
  intro t ht
  obtain ⟨b, _, rfl⟩ := List.mem_map.mp ht
  exact escape_brk b

/-- the break commands of a port are those it had, and those asked for since -/
def Asked (i : Fin 32) (old : List Bool) (s : World × List Done) : Prop :=
  (∀ d ∈ s.2, d.Roomy) →
    (s.1.line i).tokens.filterMap Token.brk = old ++ s.2.filterMap Done.asked

/-- one call that found room -/
theorem TtyCall.run_brk (call : TtyCall) (l : Line) (hd : (call.run l).2.Roomy) :
    (call.run l).1.tokens.filterMap Token.brk
      = l.tokens.filterMap Token.brk ++ [(call.run l).2].filterMap Done.asked := by
  cases call with
  | write buf =>
    show ((l.prods ++ [_]).flatMap Prod.tokens).filterMap Token.brk = _
    rw [Line.tokens_append, List.filterMap_append]
    congr 1
    show ((buf.take (nm32aTtyWriteLocked l.np buf).2).map escape ++ []).filterMap Token.brk = []
    rw [List.append_nil, escapes_brk]
  | breakCtl state =>
    have hs : 2 ≤ nm32aTxSpace l.np := hd
    show ((l.prods ++ if 2 ≤ nm32aTxSpace l.np then _ else _).flatMap Prod.tokens).filterMap
      Token.brk = _
    rw [if_pos hs, Line.tokens_append, List.filterMap_append]
    congr 1
    show [breakToken (state ≠ 0)].filterMap Token.brk = [some (decide (state ≠ 0))].filterMap id
    rw [List.filterMap_cons_some (breakToken_brk _)]
    rfl

theorem Line.Serves.brk {l l' : Line} {ds : List Done} (h : Line.Serves l ds l')
    (hd : ∀ d ∈ ds, d.Roomy) :
    l'.tokens.filterMap Token.brk
      = l.tokens.filterMap Token.brk ++ ds.filterMap Done.asked := by
  induction h with
  | none => exact (List.append_nil _).symm
  | more call _ _ ih =>
    rw [ih fun d hm => hd d (List.mem_cons_of_mem _ hm),
      call.run_brk _ (hd _ (List.mem_cons_self ..)), List.append_assoc, ← List.filterMap_append]
    rfl

/-! ## runs -/

variable {c : Cfg} {i : Fin 32} {s : World × List Done}

theorem Asked.serves {old : List Bool} {w' : World} {ds : List Done} (h : Asked i old s)
    (hs : (s.1.line i).Serves ds (w'.line i)) : Asked i old (w', s.2 ++ ds) := by
  intro hd
  have h1 := hs.brk fun d hm => hd d (List.mem_append_right _ hm)
  show (w'.line i).tokens.filterMap Token.brk = _
  rw [h1, h fun d hm => hd d (List.mem_append_left _ hm), List.filterMap_append,
    List.append_assoc]

theorem wp_asked {calls : List Call} {old : List Bool} (hcalls : ∀ call ∈ calls, ¬call.Activates i)
    (h : Asked i old s) : wp (ttyCard c i) (fun e => Asked i old e.pre ∧ Asked i old e.post)
      (callsProg calls) (fun _ s' => Asked i old s') s := by
  refine wp_logged (fun s ds w' hs hd => hs.serves hd) ?_ (resumes_calls hcalls) h
  intro s o r w' ho hs ha hd
  show (w'.line i).tokens.filterMap Token.brk = _
  unfold Line.tokens
  rw [access_resumes ho ha]
  exact hs hd

/-- an empty ring and a faithful history -/
theorem LastKept.of_asked {old : List Bool} (hi : Intact i s.1) (h : Asked i old s)
    (hd : ∀ d ∈ s.2, d.Roomy) : LastKept i s := by
  intro hq state hlast ts hts
  have he : ts = (s.1.line i).tokens := by
    rw [hi.drained hq] at hts
    exact tokens_unique hts
  unfold lastBreak
  rw [he, h hd, List.getLast?_append]
  unfold lastAsked at hlast
  rw [hlast]
  rfl

/-- the second half, for a run that starts with the activation of the port -/
theorem breakCtl_lastKept (hc : c.Tended) {turns rate : Nat} {calls : List Call}
    (hcalls : ∀ call ∈ calls, ¬call.Activates i) {w w1 : World} {s2 : World × List Done}
    {tr1 : List (Event Op Res World)} {tr2 : List (Event Op Res (World × List Done))}
    {p' : Drv Unit} (h1 : Runs c.card (nm32aPortActivate turns i rate) w tr1 0 w1)
    (h2 : Exec (ttyCard c i) (callsProg calls) (w1, []) tr2 s2 p')
    (hd : ∀ d ∈ s2.2, d.Roomy) : ∀ e ∈ tr2, LastKept i e.pre ∧ LastKept i e.post := by
  have hstart : Asked i ((w1.line i).tokens.filterMap Token.brk) (w1, []) :=
    fun _ => (List.append_nil _).symm
  have hasked := (wp_exec (wp_asked hcalls hstart) h2).1
  have hintact := (txRing_intact hc hcalls h1 h2.unlog).2
  intro e he
  have htidy := hintact _ (List.mem_map_of_mem he)
  have hlog := h2.log_prefix.2 e he
  constructor
  · exact LastKept.of_asked htidy.1 (hasked e he).1 fun d hm => hd d (hlog.1.subset hm)
  · exact LastKept.of_asked htidy.2 (hasked e he).2 fun d hm => hd d (hlog.2.subset hm)

/-- **Break commands are reported truly, and the last one asked for is the last one sent, as long
as each finds two free slots.** -/
theorem breaks_reported (c : Cfg) (hc : c.Tended) (i : Fin 32) (turns rate : Nat)
    (calls : List Call) (hcalls : ∀ call ∈ calls, ¬call.Activates i) (w w1 : World)
    (s2 : World × List Done) (tr1 : List (Event Op Res World))
    (tr2 : List (Event Op Res (World × List Done))) (p' : Drv Unit)
    (h1 : Runs c.card (nm32aPortActivate turns i rate) w tr1 0 w1)
    (h2 : Exec (ttyCard c i) (callsProg calls) (w1, []) tr2 s2 p') :
    (∀ (np : Option Port) (state : Int), (∀ q, np = some q → q.Wf) →
      (Honest np state ↔ ∀ q, np = some q → 2 ≤ nm32aTxSpace q)) ∧
    ((∀ d ∈ s2.2, d.Roomy) → ∀ e ∈ tr2, LastKept i e.pre ∧ LastKept i e.post) :=
  ⟨breakCtl_honest, breakCtl_lastKept hc hcalls h1 h2⟩

/-- port 1 brought up on a card at rest -/
def upWorld : World :=
  ((ttyScript 1 fun _ => []).policy.play 0 (nm32aPortActivate 1 1 9600) idleWorld).2.1

theorem upWorld_runs : ∃ tr,
    Runs tendedCard.card (nm32aPortActivate 1 1 9600) idleWorld tr 0 upWorld :=
  ⟨_, (ttyScript 1 fun _ => []).policy.play_runs 0 (nm32aPortActivate 1 1 9600) idleWorld
    (by decide +kernel)⟩

/-- a start and a stop are queued, and one service sends them -/
def startStop (n : Nat) : List TtyCall := if n = 0 then [.breakCtl 1, .breakCtl 0] else []

theorem breaks_reported_startStop : ∃ tr s p',
    Exec (ttyCard tendedCard 1) (callsProg [.service 0]) (upWorld, []) tr s p' ∧
      s.2.map Done.asked = [some true, some false] ∧
      sentSince 1 s.1 = [0x00, 0x81, 0x00, 0x83] ∧
      ∀ e ∈ tr, LastKept 1 e.pre ∧ LastKept 1 e.post := by
  obtain ⟨tr1, h1⟩ := upWorld_runs
  have h2 := (ttyPolicy 1 startStop).play_exec 0 (callsProg [.service 0]) (upWorld, [])
  refine ⟨_, _, _, h2, by decide +kernel, by decide +kernel, ?_⟩
  have hroom : ∀ d ∈ ((ttyPolicy 1 startStop).play 0 (callsProg [.service 0]) (upWorld, [])).2.1.2,
      d.Roomy := by
    have hall : (((ttyPolicy 1 startStop).play 0 (callsProg [.service 0])
      (upWorld, [])).2.1.2.all fun d => decide (2 ≤ d.space)) = true := by decide +kernel
    intro d hd
    exact Done.roomy_of_space (of_decide_eq_true (List.all_eq_true.mp hall d hd))
  exact (breaks_reported tendedCard tendedCard_tended 1 1 9600 [.service 0]
    (by simp [Call.Activates]) _ _ _ _ _ _ h1 h2).2 hroom

/-- with one slot free the start of a break is dropped, and 0 is returned -/
theorem breaks_reported_fails :
    ¬∀ (np : Option Port) (state : Int), (∀ q, np = some q → q.Wf) → Honest np state := by
  intro h
  have hw : ∀ q, some nearlyFull = some q → q.Wf := by
    rintro q ⟨⟩
    exact nearlyFull_wf
  have h1 := (breakCtl_honest (some nearlyFull) 1 hw).mp (h _ 1 hw) nearlyFull rfl
  exact absurd h1 (by decide)

end Nm32a
