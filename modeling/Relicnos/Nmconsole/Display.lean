import Relicnos.Nmconsole.Escape
import Relicnos.Nmconsole.Isolation
import Relicnos.Nmconsole.Script

/-!
# What a client sees

Three things are sent to a client: the greeting, the replies of the filter, and what its tty shows,
cut into buffers by `telnet_write`.  They are put into the connection in any order.

* `Spoken bs data`  `bs` is complete telnet, whatever follows it, and its data is `data`;
* `Displays`        all that was ever sent to the client is, and its data is what the tty showed;
* `display_faithful`  every session displays, at every head of the loop.
-/

set_option linter.unusedVariables false

namespace Nmconsole
open Interact

/-- a receiver makes `data` of `bs`, and finds whatever follows it from its beginning on -/
def Spoken (bs data : List UInt8) : Prop :=
  ∃ acts, ∀ rest, scan true (bs ++ rest) = (Filtered.mk data acts).append (scan true rest)

theorem Spoken.nil : Spoken [] [] := ⟨[], fun rest => rfl⟩

theorem Spoken.append {bs bs' data data' : List UInt8} (h : Spoken bs data)
    (h' : Spoken bs' data') : Spoken (bs ++ bs') (data ++ data') := by
  obtain ⟨acts, h⟩ := h
  obtain ⟨acts', h'⟩ := h'
  refine ⟨acts ++ acts', fun rest => ?_⟩
  rw [List.append_assoc, h, h', ← Filtered.append_assoc]
  rfl

theorem Spoken.filtered {bs data : List UInt8} (h : Spoken bs data) :
    (filtered true bs).data = data := by
  obtain ⟨acts, h⟩ := h
  have hbs := h []
  rw [List.append_nil, scan_nil, Filtered.append_empty] at hbs
  rw [filtered_scan, hbs]

theorem spoken_escaped (bs : List UInt8) : Spoken (escaped bs) bs :=
  ⟨[], fun rest => scan_escaped bs rest⟩

theorem spoken_negotiation {cmd : UInt8} (h : Negotiates cmd) (opt : UInt8) :
    Spoken [IAC, cmd, opt] [] :=
  ⟨[.reply (refusal cmd opt)], fun rest => scan_element (.negotiation cmd opt h) rest⟩

theorem spoken_hello : Spoken hello [] :=
  ((spoken_negotiation (show Negotiates WILL by decide) OPT_ECHO).append
    (spoken_negotiation (show Negotiates WILL by decide) OPT_SGA)).append
    (spoken_negotiation (show Negotiates DO by decide) OPT_SGA)

/-- a list of buffers, each of them complete -/
theorem spoken_flatten {α : Type} {l : List α} {f g : α → List UInt8}
    (h : ∀ a ∈ l, Spoken (f a) (g a)) : Spoken (l.map f).flatten (l.map g).flatten := by
  induction l with
  | nil => exact .nil
  | cons a l ih =>
    have ha := h a (List.mem_cons_self ..)
    exact ha.append (ih fun b hb => h b (List.mem_cons_of_mem _ hb))

/-! ## the replies -/

/-- what the filter does is to send a break or a refusal -/
def Act.Refusal (a : Act) : Prop :=
  a = .sendBreak ∨ ∃ cmd opt, Negotiates cmd ∧ a = .reply [IAC, cmd, opt]

theorem refusal_refuses (cmd opt : UInt8) : Act.Refusal (.reply (refusal cmd opt)) := by
  refine .inr ⟨if cmd = DO ∨ cmd = DONT then WONT else DONT, opt, ?_, rfl⟩
  split
  · exact .inr (.inr (.inr rfl))
  · exact .inr (.inl rfl)

theorem command_refuses (tty : Bool) (cmd : UInt8) (rest : List UInt8) :
    ∀ a ∈ (command tty cmd rest).1.acts, a.Refusal := by
  intro a ha
  unfold command at ha
  split at ha
  · cases ha
  split at ha
  · cases rest with
    | nil => cases ha
    | cons opt rest =>
      rw [List.mem_singleton.mp ha]
      exact refusal_refuses cmd opt
  split at ha
  · cases tty with
    | false => cases ha
    | true =>
      rw [List.mem_singleton.mp ha]
      exact .inl rfl
  split at ha
  · cases ha
  · cases ha

theorem token_refuses (tty : Bool) (c : UInt8) (rest : List UInt8) :
    ∀ a ∈ (token tty c rest).1.acts, a.Refusal := by
  intro a ha
  unfold token at ha
  split at ha
  · cases ha
  cases rest with
  | nil => cases ha
  | cons cmd rest => exact command_refuses tty cmd rest a ha

theorem scan_refuses (tty : Bool) (bs : List UInt8) : ∀ a ∈ (scan tty bs).acts, a.Refusal := by
  induction bs using scan.induct tty with
  | case1 =>
    rw [scan_nil]
    intro a ha
    cases ha
  | case2 c rest ih =>
    intro a ha
    rw [scan_cons] at ha
    rcases List.mem_append.mp ha with ha | ha
    · exact token_refuses tty c rest a ha
    · exact ih a ha

/-! ## one session -/

variable {conf : Conf} {s : Sys} {e : Pairing}

theorem spoken_replies {acts : List Act} (h : ∀ a ∈ acts, a.Refusal) :
    Spoken (acts.filterMap Act.bytes).flatten [] := by
  induction acts with
  | nil => exact .nil
  | cons a acts ih =>
    have hrest := ih fun b hb => h b (List.mem_cons_of_mem _ hb)
    rcases h a (List.mem_cons_self ..) with rfl | ⟨cmd, opt, hn, rfl⟩
    · exact hrest
    · exact (spoken_negotiation hn opt).append hrest

/-- what the tty showed in one read -/
def Chunk.data (c : Chunk) : List UInt8 := c.fromTty.getD []

theorem spoken_chunk (hraw : conf.rawMode = false) (c : Chunk) :
    Spoken (conf.toClient c).flatten c.data := by
  cases c with
  | sent bs =>
    have hto : conf.toTty bs = filtered true bs := by
      unfold Conf.toTty
      rw [hraw]
      rfl
    show Spoken ((conf.toTty bs).acts.filterMap Act.bytes).flatten []
    rw [hto, filtered_scan]
    exact spoken_replies (scan_refuses true bs)
  | shown bs =>
    show Spoken (if bs = [] then [] else if conf.rawMode then [bs] else telnetBufs [] bs).flatten bs
    split
    · rw [‹bs = []›]
      exact .nil
    · obtain ⟨chunks, hc, hf⟩ := telnetBufs_chunks [] bs (by decide)
      have hbufs : telnetBufs [] bs = chunks.map escaped := hc
      have hflat : chunks.flatten = bs := hf
      rw [hraw, if_neg Bool.false_ne_true, hbufs, ← hflat]
      have h := spoken_flatten (l := chunks) (f := escaped) (g := id) fun bs _ => spoken_escaped bs
      rw [List.map_id] at h
      exact h

theorem flatten_data (cs : List Chunk) :
    (cs.map Chunk.data).flatten = (cs.filterMap Chunk.fromTty).flatten := by
  induction cs with
  | nil => rfl
  | cons c cs ih =>
    cases c with
    | sent bs => exact ih
    | shown bs => exact congrArg (bs ++ ·) ih

/-- all that was sent to the client is telnet whose data is what its tty showed -/
def Displays (conf : Conf) (s : Sys) (e : Pairing) : Prop :=
  if conf.rawMode then (s.said e.client).flatten = (s.got e.tty).flatten
  else Spoken (s.said e.client).flatten (s.got e.tty).flatten

theorem flatten_raw (hraw : conf.rawMode = true) (cs : List Chunk) :
    (cs.flatMap conf.toClient).flatten = (cs.filterMap Chunk.fromTty).flatten := by
  induction cs with
  | nil => rfl
  | cons c cs ih =>
    rw [List.flatMap_cons, List.flatten_append, ih]
    cases c with
    | sent bs =>
      have hto : conf.toTty bs = ⟨bs, []⟩ := by
        unfold Conf.toTty
        rw [hraw]
        rfl
      show ((conf.toTty bs).acts.filterMap Act.bytes).flatten ++ _ = _
      rw [hto]
      rfl
    | shown bs =>
      show (if bs = [] then [] else if conf.rawMode then [bs] else telnetBufs [] bs).flatten ++ _
        = bs ++ _
      split
      · rw [‹bs = []›]
        rfl
      · rw [List.flatten_singleton]

/-- **What is carried is displayed**, in whatever order the replies come. -/
theorem Carried.displays (h : Carried conf s e) : Displays conf s e := by
  obtain ⟨cs, _, hshown, hsaid⟩ := h.toClient
  unfold Displays
  rw [hsaid, ← hshown, List.flatten_append]
  cases hraw : conf.rawMode with
  | true =>
    have hgreet : conf.greeting = [] := by
      unfold Conf.greeting
      rw [hraw]
      rfl
    rw [if_pos rfl, hgreet, flatten_raw hraw]
    rfl
  | false =>
    have hgreet : conf.greeting = [hello] := by
      unfold Conf.greeting
      rw [hraw]
      rfl
    have hcs := spoken_flatten (l := cs) (f := fun c => (conf.toClient c).flatten) (g := Chunk.data)
      fun c _ => spoken_chunk hraw c
    rw [flatten_data] at hcs
    have hflat : (cs.flatMap conf.toClient).flatten
        = (cs.map fun c => (conf.toClient c).flatten).flatten := by
      rw [List.flatMap_def, List.flatten_flatten, List.map_map]
      rfl
    rw [if_neg Bool.false_ne_true, hgreet, hflat, List.flatten_singleton]
    exact spoken_hello.append hcs

/-! ## every session -/

/-- **Every client reads on its screen what the tty of its port showed**, in this session and in
all earlier ones: whatever was put between, its telnet receiver finds these bytes and no others. -/
theorem display_faithful (conf : Conf) (n : Nat) (s s' : Sys) (hs : s.Start)
    (tr : List (Event Op Res Sys)) (ps : Ports)
    (h : Runs posix (nmMain conf n) s tr (some ps) s') :
    ∃ L, Books conf s L s' ∧ (∀ i ∈ conf.indices, Live L i (ps i) s') ∧
      ∀ e ∈ L, Displays conf s' e ∧ (conf.rawMode = false →
        (filtered true (s'.said e.client).flatten).data = (s'.got e.tty).flatten) := by
  have hq : LedgerOf conf s (some ps) s' := (wp_runs (wp_nmMain_ledger conf n hs) h).2
  obtain ⟨L, hledger⟩ : ∃ L, Ledger conf s (· ∈ conf.indices) ps L s' := hq
  refine ⟨L, hledger.books, hledger.live, fun e he => ?_⟩
  have hd := (hledger.books.carried e he).displays
  refine ⟨hd, fun hraw => ?_⟩
  unfold Displays at hd
  rw [hraw, if_neg Bool.false_ne_true] at hd
  exact hd.filtered

/-- the client asks for an option while its tty shows `a` and a 255 -/
def askScript : Script where
  select := fdSets [(8, [3]), (15, [5, 6])]
  read := answers [(16, [IAC, DO, OPT_ECHO]), (18, [0x61, 0xFF])]
  write _ := 1024

theorem display_faithful_ask : ∃ tr ps s',
    Runs posix (nmMain twoPorts 2) startSys tr (some ps) s' ∧
      s'.said 5 = [hello, [IAC, WONT, OPT_ECHO], [0x61, 0xFF, 0xFF]] ∧
      s'.got 6 = [[0x61, 0xFF]] ∧
      ∃ L, Books twoPorts startSys L s' ∧ (∀ i ∈ twoPorts.indices, Live L i (ps i) s') ∧
        ∀ e ∈ L, Displays twoPorts s' e ∧ (twoPorts.rawMode = false →
          (filtered true (s'.said e.client).flatten).data = (s'.got e.tty).flatten) := by
  obtain ⟨ps, hx, _, _⟩ := askScript.play_session twoPorts 2 5 6 0 (by decide +kernel)
  refine ⟨_, ps, _, hx, by decide +kernel, by decide +kernel, ?_⟩
  exact display_faithful twoPorts 2 startSys _ startSys_start _ ps hx

end Nmconsole
