import Relicnos.Nmconsole.Chunking

/-!
# The filter against the grammar of telnet

A telnet stream is a sequence of elements: data, `IAC IAC`, two-byte commands, negotiations, and
subnegotiations `IAC SB … IAC SE` in whose body a 255 is doubled.

* `Element.bytes`, `Element.meaning`   an element on the wire, and what it asks of the filter;
* `Element.heard`                      what the filter makes of it;
* `filtered_elements_iff`              the two are the same for a stream if and only if no body has
                                       a 255 and a 240 in a row with something after them.

The filter looks for `IAC SE` one byte after the other, so the second half of a doubled 255 and a
240 that follows it end the subnegotiation, and the rest of the body is taken for data.
-/

namespace Nmconsole

/-- data with every 255 doubled -/
def escaped (bs : List UInt8) : List UInt8 :=
  bs.flatMap fun c => if c = IAC then [IAC, IAC] else [c]

theorem escaped_nil : escaped [] = [] := rfl
theorem escaped_cons (c : UInt8) (bs : List UInt8) :
    escaped (c :: bs) = (if c = IAC then [IAC, IAC] else [c]) ++ escaped bs := rfl
theorem escaped_append (bs cs : List UInt8) : escaped (bs ++ cs) = escaped bs ++ escaped cs :=
  List.flatMap_append

/-- a command that takes no operand -/
def TwoByte (cmd : UInt8) : Prop := cmd ≠ IAC ∧ ¬Negotiates cmd ∧ cmd ≠ SB

inductive Element where
  | data (c : UInt8) (h : c ≠ IAC)
  | literal
  | command (cmd : UInt8) (h : TwoByte cmd)
  | negotiation (cmd opt : UInt8) (h : Negotiates cmd)
  | sub (body : List UInt8)

namespace Element

def bytes : Element → List UInt8
  | data c _ => [c]
  | literal => [IAC, IAC]
  | command cmd _ => [IAC, cmd]
  | negotiation cmd opt _ => [IAC, cmd, opt]
  | sub body => IAC :: SB :: (escaped body ++ [IAC, SE])

/-- what it stands for -/
def meaning : Element → Filtered
  | data c _ => ⟨[c], []⟩
  | literal => ⟨[IAC], []⟩
  | command cmd _ => ⟨[], if cmd = BRK ∨ cmd = IP then [.sendBreak] else []⟩
  | negotiation cmd opt _ => ⟨[], [.reply (refusal cmd opt)]⟩
  | sub _ => .empty

end Element

/-- a stream on the wire -/
def wire (es : List Element) : List UInt8 := es.flatMap Element.bytes

def meanings : List Element → Filtered
  | [] => .empty
  | e :: es => e.meaning.append (meanings es)

/-- what follows the first 255, 240 of a body -/
def strayed : List UInt8 → Option (List UInt8)
  | c :: d :: rest => if c = IAC ∧ d = SE then some rest else strayed (d :: rest)
  | _ => none

/-- a 255 is followed by a 240 at the end of the body only -/
def Ends (body : List UInt8) : Prop := ∀ a b, body = a ++ IAC :: SE :: b → b = []

/-! ## what the filter makes of it -/

variable {tty : Bool}

theorem scan_data {c : UInt8} (h : c ≠ IAC) (rest : List UInt8) :
    scan tty (c :: rest) = (Filtered.mk [c] []).append (scan tty rest) := by
  have ht : token tty c rest = (⟨[c], []⟩, rest) := if_pos h
  rw [scan_cons, ht]

theorem scan_command (cmd : UInt8) (rest : List UInt8) : scan tty (IAC :: cmd :: rest)
    = (command tty cmd rest).1.append (scan tty (command tty cmd rest).2) := by
  have ht : token tty IAC (cmd :: rest) = command tty cmd rest := if_neg (not_not.mpr rfl)
  rw [scan_cons, ht]

theorem scan_literal (rest : List UInt8) :
    scan tty (IAC :: IAC :: rest) = (Filtered.mk [IAC] []).append (scan tty rest) := by
  have hc : command tty IAC rest = (⟨[IAC], []⟩, rest) := if_pos rfl
  rw [scan_command, hc]

theorem scan_twoByte {cmd : UInt8} (h : TwoByte cmd) (rest : List UInt8) :
    scan tty (IAC :: cmd :: rest) = (Filtered.mk [] (if cmd = BRK ∨ cmd = IP then
      if tty then [.sendBreak] else [] else [])).append (scan tty rest) := by
  obtain ⟨hi, hn, hs⟩ := h
  rw [scan_command]
  unfold command
  rw [if_neg hi, if_neg hn]
  by_cases hb : cmd = BRK ∨ cmd = IP
  · rw [if_pos hb, if_pos hb]
  · rw [if_neg hb, if_neg hb, if_neg hs]

/-- **Escaped data comes out as it was.** -/
theorem scan_escaped (bs rest : List UInt8) :
    scan tty (escaped bs ++ rest) = (Filtered.mk bs []).append (scan tty rest) := by
  induction bs with
  | nil => rfl
  | cons c bs ih =>
    rw [escaped_cons, List.append_assoc]
    by_cases hc : c = IAC
    · rw [if_pos hc, hc]
      show scan tty (IAC :: IAC :: (escaped bs ++ rest)) = _
      rw [scan_literal, ih]
      rfl
    · rw [if_neg hc]
      show scan tty (c :: (escaped bs ++ rest)) = _
      rw [scan_data hc, ih]
      rfl

/-! ## the end of a subnegotiation -/

theorem afterSE_end (rest : List UInt8) : afterSE (IAC :: SE :: rest) = rest := by
  rw [afterSE, if_pos ⟨rfl, rfl⟩]

theorem afterSE_skip {c : UInt8} {l : List UInt8} (hl : l ≠ []) (h : c = IAC → l.head? ≠ some SE) :
    afterSE (c :: l) = afterSE l := by
  cases l with
  | nil => exact absurd rfl hl
  | cons d l =>
    rw [afterSE, if_neg]
    rintro ⟨hc, rfl⟩
    exact h hc rfl

theorem strayed_skip {c : UInt8} {l : List UInt8} (h : c = IAC → l.head? ≠ some SE) :
    strayed (c :: l) = strayed l := by
  cases l with
  | nil => rfl
  | cons d l =>
    rw [strayed, if_neg]
    rintro ⟨hc, rfl⟩
    exact h hc rfl

/-- where the filter goes on after a body -/
theorem afterSE_escaped (body rest : List UInt8) :
    afterSE (escaped body ++ IAC :: SE :: rest) = match strayed body with
      | none => rest
      | some b => escaped b ++ IAC :: SE :: rest := by
  induction body with
  | nil => exact afterSE_end rest
  | cons c body ih =>
    have hne : escaped body ++ IAC :: SE :: rest ≠ [] := by simp
    rw [escaped_cons, List.append_assoc]
    by_cases hc : c = IAC
    · subst hc
      rw [if_pos rfl]
      show afterSE (IAC :: IAC :: (escaped body ++ IAC :: SE :: rest)) = _
      rw [afterSE_skip (by simp) fun _ => by simp; decide]
      by_cases hse : body.head? = some SE
      · -- the second half of the doubled 255 and this 240
        obtain ⟨b, rfl⟩ : ∃ b, body = SE :: b := by
          cases body with
          | nil => cases hse
          | cons d b => exact ⟨b, by rw [Option.some.inj hse]⟩
        rw [strayed, if_pos ⟨rfl, rfl⟩, escaped_cons, if_neg (by decide)]
        exact afterSE_end _
      · have hhead : (escaped body ++ IAC :: SE :: rest).head? ≠ some SE := by
          cases body with
          | nil => exact (by decide : some IAC ≠ some SE)
          | cons d b =>
            rw [escaped_cons]
            by_cases hd : d = IAC
            · rw [if_pos hd]
              exact (by decide : some IAC ≠ some SE)
            · rw [if_neg hd]
              exact hse
        rw [afterSE_skip hne fun _ => hhead, strayed_skip fun _ => hse]
        exact ih
    · rw [if_neg hc]
      show afterSE (c :: (escaped body ++ IAC :: SE :: rest)) = _
      rw [afterSE_skip hne fun e => absurd e hc, strayed_skip fun e => absurd e hc]
      exact ih

/-- what the filter hears of an element, with a tty to break -/
def Element.heard : Element → Filtered
  | .sub body => ⟨(strayed body).getD [], []⟩
  | e => e.meaning

theorem heard_sub (body : List UInt8) :
    (Element.sub body).heard = ⟨(strayed body).getD [], []⟩ := rfl

theorem twoByte_se : TwoByte SE := ⟨by decide, by decide, by decide⟩

theorem scan_element (e : Element) (rest : List UInt8) :
    scan true (e.bytes ++ rest) = e.heard.append (scan true rest) := by
  cases e with
  | data c h => exact scan_data h rest
  | literal => exact scan_literal rest
  | command cmd h => exact scan_twoByte h rest
  | negotiation cmd opt h =>
    have hi : cmd ≠ IAC := by
      rintro rfl
      exact absurd h (by decide)
    show scan true (IAC :: cmd :: opt :: rest) = _
    rw [scan_command]
    unfold Nmconsole.command
    rw [if_neg hi, if_pos h]
    rfl
  | sub body =>
    have he : (Element.sub body).bytes ++ rest
        = IAC :: SB :: (escaped body ++ IAC :: SE :: rest) := by
      simp [Element.bytes]
    have hc : Nmconsole.command true SB (escaped body ++ IAC :: SE :: rest)
        = (.empty, afterSE (escaped body ++ IAC :: SE :: rest)) := by
      unfold Nmconsole.command
      rw [if_neg (by decide), if_neg (by decide), if_neg (by decide), if_pos rfl]
      rfl
    rw [he, scan_command, hc, afterSE_escaped, heard_sub]
    cases strayed body with
    | none => rfl
    | some b =>
      -- the rest of the body is data, and its `IAC SE` a command
      show scan true (escaped b ++ IAC :: SE :: rest) = (Filtered.mk b []).append (scan true rest)
      rw [scan_escaped, scan_twoByte twoByte_se]
      rfl

def heards : List Element → Filtered
  | [] => .empty
  | e :: es => e.heard.append (heards es)

theorem meanings_cons (e : Element) (es : List Element) :
    meanings (e :: es) = e.meaning.append (meanings es) := rfl
theorem heards_cons (e : Element) (es : List Element) :
    heards (e :: es) = e.heard.append (heards es) := rfl

/-- **The filter hears one element after the other.** -/
theorem filtered_wire (es : List Element) : filtered true (wire es) = heards es := by
  rw [filtered_scan]
  induction es with
  | nil => exact scan_nil true
  | cons e es ih =>
    show scan true (e.bytes ++ wire es) = _
    rw [scan_element, ih]
    rfl

/-! ## the two together -/

theorem strayed_some {body b : List UInt8} (h : strayed body = some b) :
    ∃ a, body = a ++ IAC :: SE :: b := by
  fun_induction strayed body with
  | case1 c d rest hc =>
    obtain ⟨rfl, rfl⟩ := hc
    rw [Option.some.inj h]
    exact ⟨[], rfl⟩
  | case2 c d rest _ ih =>
    obtain ⟨a, ha⟩ := ih h
    exact ⟨c :: a, by rw [ha, List.cons_append]⟩
  | case3 => cases h

/-- the first pair of a body comes no later than any other -/
theorem strayed_of_pair (a b : List UInt8) :
    ∃ b', strayed (a ++ IAC :: SE :: b) = some b' ∧ b.length ≤ b'.length := by
  induction a with
  | nil => exact ⟨b, by rw [List.nil_append, strayed, if_pos ⟨rfl, rfl⟩], Nat.le_refl _⟩
  | cons c a ih =>
    obtain ⟨b', hb, hl⟩ := ih
    rw [List.cons_append]
    by_cases hp : c = IAC ∧ (a ++ IAC :: SE :: b).head? = some SE
    · obtain ⟨d, l, hd⟩ : ∃ d l, a ++ IAC :: SE :: b = d :: l :=
        List.exists_cons_of_ne_nil (by simp)
      rw [hd] at hp ⊢
      refine ⟨l, by rw [strayed, if_pos ⟨hp.1, Option.some.inj hp.2⟩], ?_⟩
      have hlen := congrArg List.length hd
      simp only [List.length_append, List.length_cons] at hlen
      omega
    · rw [strayed_skip fun hc he => hp ⟨hc, he⟩]
      exact ⟨b', hb, hl⟩

theorem ends_iff (body : List UInt8) : Ends body ↔ (strayed body).getD [] = [] := by
  constructor
  · intro h
    cases hs : strayed body with
    | none => rfl
    | some b =>
      obtain ⟨a, ha⟩ := strayed_some hs
      exact h a b ha
  · rintro h a b rfl
    obtain ⟨b', hb, hl⟩ := strayed_of_pair a b
    rw [hb] at h
    have hb' : b' = [] := h
    rw [hb'] at hl
    exact List.length_eq_zero_iff.mp (Nat.le_zero.mp hl)

theorem meaning_le_heard (es : List Element) :
    (meanings es).data.length ≤ (heards es).data.length := by
  induction es with
  | nil => exact Nat.le_refl _
  | cons e es ih =>
    rw [meanings_cons, heards_cons]
    unfold Filtered.append
    simp only [List.length_append]
    have he : e.meaning.data.length ≤ e.heard.data.length := by
      cases e with
      | sub body => exact Nat.zero_le _
      | _ => exact Nat.le_refl _
    omega

theorem append_left_cancel {x y z : Filtered} (h : x.append y = x.append z) : y = z := by
  obtain ⟨hd, ha⟩ := Filtered.mk.inj h
  cases y
  cases z
  congr
  · exact List.append_cancel_left hd
  · exact List.append_cancel_left ha

/-- **The filter does what the elements ask if and only if no subnegotiation seems to end
early.** -/
theorem filtered_elements_iff (es : List Element) :
    filtered true (wire es) = meanings es ↔ ∀ body, Element.sub body ∈ es → Ends body := by
  rw [filtered_wire]
  induction es with
  | nil => simp [heards, meanings]
  | cons e es ih =>
    have hcons : (∀ body, Element.sub body ∈ e :: es → Ends body) ↔
        (∀ body, e = .sub body → Ends body) ∧ ∀ body, Element.sub body ∈ es → Ends body := by
      simp only [List.mem_cons, or_imp, forall_and, eq_comm]
    rw [hcons, ← ih]
    have hother : (∀ body, e ≠ .sub body) → (heards (e :: es) = meanings (e :: es) ↔
        (∀ body, e = .sub body → Ends body) ∧ heards es = meanings es) := by
      intro hn
      have hh : e.heard = e.meaning := by
        cases e with
        | sub body => exact absurd rfl (hn body)
        | _ => rfl
      rw [and_iff_right fun body hb => absurd hb (hn body)]
      rw [heards_cons, meanings_cons, hh]
      exact ⟨append_left_cancel, fun h => by rw [h]⟩
    cases e with
    | sub body =>
      have hb : (∀ body', Element.sub body = .sub body' → Ends body') ↔ Ends body :=
        ⟨fun h => h body rfl, fun h body' he => Element.sub.inj he ▸ h⟩
      have hm : (Element.sub body).meaning.append (meanings es) = meanings es := rfl
      rw [hb, ends_iff, heards_cons, meanings_cons, heard_sub, hm]
      constructor
      · intro h
        have hlen := congrArg (fun x => x.data.length) h
        simp only [Filtered.append, List.length_append] at hlen
        have hle := meaning_le_heard es
        have hnil : (strayed body).getD [] = [] := List.length_eq_zero_iff.mp (by omega)
        refine ⟨hnil, ?_⟩
        rw [← h, hnil]
        rfl
      · rintro ⟨hnil, h⟩
        rw [hnil, h]
        rfl
    | _ =>
      apply hother
      intro body he
      cases he

/-- a subnegotiation whose body is 24, 255, 240, 65 -/
theorem filtered_elements_fails : ¬∀ es, filtered true (wire es) = meanings es := by
  intro h
  have h1 := h [.sub [24, 255, 240, 65]]
  rw [filtered_wire] at h1
  exact absurd h1 (by decide)

end Nmconsole
