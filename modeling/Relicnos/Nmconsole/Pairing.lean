import Relicnos.Nmconsole.Descriptors

/-!
# Which client talks to which tty

* `Pairing`  a client and the tty that was opened for it, by the identities of their files;
* `Carried`  the tty was given what came from its client, and the client what came from its tty;
* `Talked`   how much the histories of one pairing grew, while all others stayed as they were;
* `Books`    all pairings so far, over or not: no file is in two of them, all are carried, and a
             file in none of them has no history.
-/

set_option linter.unusedVariables false

namespace Nmconsole
open Interact

structure Pairing where
  port : Fin maxp
  client : Nat
  tty : Nat
  deriving DecidableEq

def Pairing.ids (e : Pairing) : List Nat := [e.client, e.tty]

/-- one read of a session -/
inductive Chunk where
  /-- by the client -/
  | sent (bs : List UInt8)
  /-- by the tty -/
  | shown (bs : List UInt8)

namespace Chunk

def fromClient : Chunk → Option (List UInt8)
  | sent bs => some bs
  | shown _ => none

def fromTty : Chunk → Option (List UInt8)
  | sent _ => none
  | shown bs => some bs

end Chunk

/-- what an act of the filter gives the client -/
def Act.bytes : Act → Option (List UInt8)
  | .reply bytes => some bytes
  | .sendBreak => none

/-- the buffers that the client is given for one read -/
def Conf.toClient (conf : Conf) : Chunk → List (List UInt8)
  | .sent bs => (conf.toTty bs).acts.filterMap Act.bytes
  | .shown bs => if bs = [] then [] else if conf.rawMode then [bs] else telnetBufs [] bs

def Conf.greeting (conf : Conf) : List (List UInt8) := if conf.rawMode then [] else [hello]

/-- the buffers that `write` was given for a file -/
def Sys.said (s : Sys) (id : Nat) : List (List UInt8) := (s.put id).map Prod.fst

/-- all bytes of the client went to its tty, and all bytes of the tty to its client -/
structure Carried (conf : Conf) (s : Sys) (e : Pairing) : Prop where
  toTty : s.due e.tty = s.wanted conf e.client
  toClient : ∃ cs : List Chunk, cs.filterMap Chunk.fromClient = s.got e.client ∧
    cs.filterMap Chunk.fromTty = s.got e.tty ∧
    s.said e.client = conf.greeting ++ cs.flatMap conf.toClient

variable {conf : Conf} {s s' s0 s1 s2 : Sys} {e : Pairing} {c t fd n : Nat} {bs : List UInt8}
  {fc ft : File}

/-! ## histories that grow -/

/-- `gc` and `gt` were read from the client and the tty, `pc` and `pt` written to them -/
structure Talked (e : Pairing) (gc gt pc : List (List UInt8)) (pt : List UInt8) (s s' : Sys) :
    Prop where
  files : s'.files = s.files
  fresh : s'.fresh = s.fresh
  ready : s'.ready = s.ready
  others : ∀ id, id ∉ e.ids → s'.got id = s.got id ∧ s'.put id = s.put id
  gotClient : s'.got e.client = s.got e.client ++ gc
  gotTty : s'.got e.tty = s.got e.tty ++ gt
  saidClient : s'.said e.client = s.said e.client ++ pc
  dueTty : s'.due e.tty = s.due e.tty ++ pt

theorem Talked.refl (e : Pairing) (s : Sys) : Talked e [] [] [] [] s s :=
  ⟨rfl, rfl, rfl, fun _ _ => ⟨rfl, rfl⟩, (List.append_nil _).symm, (List.append_nil _).symm,
    (List.append_nil _).symm, (List.append_nil _).symm⟩

theorem Talked.trans {gc gt pc gc' gt' pc' : List (List UInt8)} {pt pt' : List UInt8}
    (h : Talked e gc gt pc pt s s1) (h' : Talked e gc' gt' pc' pt' s1 s2) :
    Talked e (gc ++ gc') (gt ++ gt') (pc ++ pc') (pt ++ pt') s s2 := by
  refine ⟨h'.files.trans h.files, h'.fresh.trans h.fresh, h'.ready.trans h.ready,
    fun id hid => ?_, ?_, ?_, ?_, ?_⟩
  · obtain ⟨h1, h2⟩ := h.others id hid
    obtain ⟨h1', h2'⟩ := h'.others id hid
    exact ⟨h1'.trans h1, h2'.trans h2⟩
  · rw [h'.gotClient, h.gotClient, List.append_assoc]
  · rw [h'.gotTty, h.gotTty, List.append_assoc]
  · rw [h'.saidClient, h.saidClient, List.append_assoc]
  · rw [h'.dueTty, h.dueTty, List.append_assoc]

section
variable (hne : e.client ≠ e.tty)
include hne

theorem talked_got_client (hf : s.files c = some fc) (hid : fc.id = e.client) :
    Talked e [bs] [] [] [] s (s.logGot c bs) := by
  rw [Sys.logGot_eq hf, hid]
  refine ⟨rfl, rfl, rfl, fun id hid => ⟨?_, rfl⟩, Function.update_self .., ?_,
    (List.append_nil _).symm, (List.append_nil _).symm⟩
  · have h : id ≠ e.client := fun he => hid (by rw [he]; exact List.mem_cons_self ..)
    exact Function.update_of_ne h ..
  · show Function.update s.got e.client _ e.tty = _
    rw [Function.update_of_ne hne.symm, List.append_nil]

theorem talked_got_tty (hf : s.files t = some ft) (hid : ft.id = e.tty) :
    Talked e [] [bs] [] [] s (s.logGot t bs) := by
  rw [Sys.logGot_eq hf, hid]
  refine ⟨rfl, rfl, rfl, fun id hid => ⟨?_, rfl⟩, ?_, Function.update_self ..,
    (List.append_nil _).symm, (List.append_nil _).symm⟩
  · have h : id ≠ e.tty := fun he => hid (by rw [he]; simp [Pairing.ids])
    exact Function.update_of_ne h ..
  · show Function.update s.got e.tty _ e.client = _
    rw [Function.update_of_ne hne, List.append_nil]

theorem talked_put_client (hf : s.files c = some fc) (hid : fc.id = e.client) :
    Talked e [] [] [bs] [] s (s.logPut c bs n) := by
  rw [Sys.logPut_eq hf, hid]
  refine ⟨rfl, rfl, rfl, fun id hid => ⟨rfl, ?_⟩, (List.append_nil _).symm,
    (List.append_nil _).symm, ?_, ?_⟩
  · have h : id ≠ e.client := fun he => hid (by rw [he]; exact List.mem_cons_self ..)
    exact Function.update_of_ne h ..
  · show (Function.update s.put e.client _ e.client).map Prod.fst = _
    rw [Function.update_self, List.map_append]
    rfl
  · show offered (Function.update s.put e.client _ e.tty) = _
    rw [Function.update_of_ne hne.symm, List.append_nil]
    rfl

theorem talked_put_tty (hf : s.files t = some ft) (hid : ft.id = e.tty) :
    Talked e [] [] [] bs s (s.logPut t bs n) := by
  rw [Sys.logPut_eq hf, hid]
  refine ⟨rfl, rfl, rfl, fun id hid => ⟨rfl, ?_⟩, (List.append_nil _).symm,
    (List.append_nil _).symm, ?_, ?_⟩
  · have h : id ≠ e.tty := fun he => hid (by rw [he]; simp [Pairing.ids])
    exact Function.update_of_ne h ..
  · show (Function.update s.put e.tty _ e.client).map Prod.fst = _
    rw [Function.update_of_ne hne, List.append_nil]
    rfl
  · show offered (Function.update s.put e.tty _ e.tty) = _
    rw [Function.update_self, offered_concat]
    rfl

end

/-- one read of the client, and what is made of it -/
theorem Carried.sent (h : Carried conf s e)
    (ht : Talked e [bs] [] (conf.toClient (.sent bs)) (conf.toTty bs).data s s') :
    Carried conf s' e := by
  obtain ⟨cs, hc, htty, hsaid⟩ := h.toClient
  constructor
  · show _ = (s'.got e.client).flatMap _
    rw [ht.dueTty, ht.gotClient, List.flatMap_append, List.flatMap_singleton, h.toTty]
    rfl
  · refine ⟨cs ++ [.sent bs], ?_, ?_, ?_⟩
    · rw [List.filterMap_append, hc, ht.gotClient]
      rfl
    · rw [List.filterMap_append, htty, ht.gotTty]
      rfl
    · rw [ht.saidClient, hsaid, List.flatMap_append, List.flatMap_singleton, List.append_assoc]

/-- one read of the tty, and what is made of it -/
theorem Carried.shown (h : Carried conf s e)
    (ht : Talked e [] [bs] (conf.toClient (.shown bs)) [] s s') : Carried conf s' e := by
  obtain ⟨cs, hc, htty, hsaid⟩ := h.toClient
  constructor
  · show _ = (s'.got e.client).flatMap _
    rw [ht.dueTty, ht.gotClient, List.append_nil, List.append_nil, h.toTty]
    rfl
  · refine ⟨cs ++ [.shown bs], ?_, ?_, ?_⟩
    · rw [List.filterMap_append, hc, ht.gotClient]
      rfl
    · rw [List.filterMap_append, htty, ht.gotTty]
      rfl
    · rw [ht.saidClient, hsaid, List.flatMap_append, List.flatMap_singleton, List.append_assoc]

/-- histories that stay as they are -/
theorem Carried.same (h : Carried conf s e)
    (hl : ∀ id ∈ e.ids, s'.got id = s.got id ∧ s'.put id = s.put id) : Carried conf s' e := by
  obtain ⟨hgc, hpc⟩ := hl e.client (List.mem_cons_self ..)
  obtain ⟨hgt, hpt⟩ := hl e.tty (by simp [Pairing.ids])
  have hto := h.toTty
  have htc := h.toClient
  unfold Sys.due Sys.wanted at hto
  unfold Sys.said at htc
  constructor
  · show offered (s'.put e.tty) = (s'.got e.client).flatMap _
    rw [hpt, hgc]
    exact hto
  · show ∃ cs : List Chunk, _ = s'.got e.client ∧ _ = s'.got e.tty ∧
      (s'.put e.client).map Prod.fst = _
    rw [hgc, hgt, hpc]
    exact htc

/-! ## all pairings -/

/-- a file that is in no pairing: nothing was read from it, and nothing written to it, except that
a new client may have been told that its tty cannot be opened -/
def Aside (s0 s : Sys) (id : Nat) : Prop :=
  s.got id = s0.got id ∧
    (s.put id = s0.put id ∨ s0.fresh ≤ id ∧ ∃ i n, s.put id = [(cannotOpen i, n)])

/-- the pairings `L` are all that there were since `s0` -/
structure Books (conf : Conf) (s0 : Sys) (L : List Pairing) (s : Sys) : Prop where
  carried : ∀ e ∈ L, Carried conf s e
  ids : (L.flatMap Pairing.ids).Nodup
  below : ∀ id ∈ L.flatMap Pairing.ids, id < s.fresh
  others : ∀ id, id ∉ L.flatMap Pairing.ids → Aside s0 s id
  later : s0.fresh ≤ s.fresh
  unborn : ∀ id, s.fresh ≤ id → s.got id = [] ∧ s.put id = []

namespace Books
variable {L : List Pairing}

theorem ids_mem {id : Nat} (he : e ∈ L) (hid : id ∈ e.ids) : id ∈ L.flatMap Pairing.ids :=
  List.mem_flatMap.mpr ⟨e, he, hid⟩

/-- a file is in one pairing only -/
theorem unique (h : Books conf s0 L s) {e' : Pairing} {id : Nat} (he : e ∈ L) (he' : e' ∈ L)
    (hid : id ∈ e.ids) (hid' : id ∈ e'.ids) : e = e' := by
  by_contra hne
  have hd := (List.nodup_flatMap.mp h.ids).2
  have hsymm : Std.Symm (Function.onFun List.Disjoint Pairing.ids) := ⟨fun _ _ hd => hd.symm⟩
  exact hd.forall he he' hne hid hid'

theorem client_ne (h : Books conf s0 L s) (he : e ∈ L) : e.client ≠ e.tty := by
  have hn := (List.nodup_flatMap.mp h.ids).1 e he
  unfold Pairing.ids at hn
  rw [List.nodup_cons, List.mem_singleton] at hn
  exact hn.1

/-- one of the pairings goes on -/
theorem talked {gc gt pc : List (List UInt8)} {pt : List UInt8} (h : Books conf s0 L s)
    (he : e ∈ L) (ht : Talked e gc gt pc pt s s') (hc : Carried conf s' e) :
    Books conf s0 L s' := by
  have hout : ∀ id, id ∉ L.flatMap Pairing.ids → s'.got id = s.got id ∧ s'.put id = s.put id :=
    fun id hid => ht.others id fun hm => hid (ids_mem he hm)
  refine ⟨fun e' he' => ?_, h.ids, fun id hid => ?_, fun id hid => ?_, ?_, fun id hid => ?_⟩
  · by_cases hee : e' = e
    · rw [hee]
      exact hc
    · exact (h.carried e' he').same fun id hid =>
        ht.others id fun hid' => hee (h.unique he' he hid hid')
  · rw [ht.fresh]
    exact h.below id hid
  · obtain ⟨hg, hp⟩ := hout id hid
    unfold Aside
    rw [hg, hp]
    exact h.others id hid
  · rw [ht.fresh]
    exact h.later
  · rw [ht.fresh] at hid
    obtain ⟨hg, hp⟩ := hout id fun hm => Nat.lt_irrefl _ (Nat.lt_of_lt_of_le (h.below id hm) hid)
    rw [hg, hp]
    exact h.unborn id hid

/-- steps that leave no trace in the histories -/
theorem mark (h : Books conf s0 L s) (hg : s'.got = s.got) (hp : s'.put = s.put)
    (hf : s.fresh ≤ s'.fresh) : Books conf s0 L s' := by
  refine ⟨fun e he => (h.carried e he).same fun id _ => ⟨congrFun hg id, congrFun hp id⟩, h.ids,
    fun id hid => Nat.lt_of_lt_of_le (h.below id hid) hf, fun id hid => ?_,
    Nat.le_trans h.later hf, fun id hid => ?_⟩
  · unfold Aside
    rw [hg, hp]
    exact h.others id hid
  · rw [hg, hp]
    exact h.unborn id (Nat.le_trans hf hid)

/-- a client that was turned away -/
theorem refuse (h : Books conf s0 L s) {i : Fin maxp} (hg : s'.got = s.got)
    (hp : s'.put = Function.update s.put s.fresh [(cannotOpen i, n)])
    (hf : s'.fresh = s.fresh + 1) : Books conf s0 L s' := by
  have hnew : s.fresh ∉ L.flatMap Pairing.ids := fun hm => Nat.lt_irrefl _ (h.below _ hm)
  refine ⟨fun e he => (h.carried e he).same fun id hid => ⟨congrFun hg id, ?_⟩, h.ids,
    fun id hid => ?_, fun id hid => ?_, ?_, fun id hid => ?_⟩
  · rw [hp, Function.update_of_ne fun heq => hnew (by rw [← heq]; exact ids_mem he hid)]
  · rw [hf]
    exact Nat.lt_succ_of_lt (h.below id hid)
  · unfold Aside
    rw [hg, hp]
    obtain ⟨hg0, hp0⟩ := h.others id hid
    refine ⟨hg0, ?_⟩
    by_cases heq : id = s.fresh
    · rw [heq, Function.update_self]
      exact .inr ⟨h.later, i, n, rfl⟩
    · rw [Function.update_of_ne heq]
      exact hp0
  · rw [hf]
    exact Nat.le_succ_of_le h.later
  · rw [hf] at hid
    rw [hg, hp, Function.update_of_ne (by omega)]
    exact h.unborn id (by omega)

/-- a new pairing, the client of which has only been greeted -/
theorem pair (h : Books conf s0 L s) (i : Fin maxp) (hg : s1.got = s.got) (hp : s1.put = s.put)
    (hf : s1.fresh = s.fresh + 2)
    (ht : Talked ⟨i, s.fresh, s.fresh + 1⟩ [] [] conf.greeting [] s1 s') :
    Books conf s0 (⟨i, s.fresh, s.fresh + 1⟩ :: L) s' := by
  have hsame : ∀ id, id ∉ Pairing.ids ⟨i, s.fresh, s.fresh + 1⟩ →
      s'.got id = s.got id ∧ s'.put id = s.put id := by
    intro id hid
    obtain ⟨h1, h2⟩ := ht.others id hid
    exact ⟨h1.trans (congrFun hg id), h2.trans (congrFun hp id)⟩
  have hnew : ∀ id ∈ L.flatMap Pairing.ids, id ∉ Pairing.ids ⟨i, s.fresh, s.fresh + 1⟩ := by
    intro id hid hm
    have hlt := h.below id hid
    simp only [Pairing.ids, List.mem_cons, List.not_mem_nil, or_false] at hm
    omega
  have hu := h.unborn s.fresh (Nat.le_refl _)
  have hu' := h.unborn (s.fresh + 1) (Nat.le_succ _)
  refine ⟨fun e he => ?_, ?_, fun id hid => ?_, fun id hid => ?_, ?_, fun id hid => ?_⟩
  · rcases List.mem_cons.mp he with rfl | he
    · constructor
      · show _ = (s'.got s.fresh).flatMap _
        rw [ht.dueTty, ht.gotClient]
        show offered (s1.put (s.fresh + 1)) ++ [] = (s1.got s.fresh ++ []).flatMap _
        rw [hg, hp, hu.1, hu'.2]
        rfl
      · refine ⟨[], ?_, ?_, ?_⟩
        · show [] = s'.got s.fresh
          rw [ht.gotClient]
          show [] = s1.got s.fresh ++ []
          rw [hg, hu.1]
          rfl
        · show [] = s'.got (s.fresh + 1)
          rw [ht.gotTty]
          show [] = s1.got (s.fresh + 1) ++ []
          rw [hg, hu'.1]
          rfl
        · show s'.said s.fresh = _
          rw [ht.saidClient]
          show (s1.put s.fresh).map Prod.fst ++ conf.greeting = conf.greeting ++ []
          rw [hp, hu.2, List.append_nil]
          rfl
    · exact (h.carried e he).same fun id hid => hsame id (hnew id (ids_mem he hid))
  · rw [List.flatMap_cons]
    refine List.Nodup.append ?_ h.ids fun id hid hm => hnew id hm hid
    show [s.fresh, s.fresh + 1].Nodup
    simp
  · rw [ht.fresh, hf]
    rw [List.flatMap_cons] at hid
    rcases List.mem_append.mp hid with hid | hid
    · simp only [Pairing.ids, List.mem_cons, List.not_mem_nil, or_false] at hid
      omega
    · have := h.below id hid
      omega
  · rw [List.flatMap_cons, List.mem_append, not_or] at hid
    obtain ⟨hg', hp'⟩ := hsame id hid.1
    unfold Aside
    rw [hg', hp']
    exact h.others id hid.2
  · rw [ht.fresh, hf]
    exact Nat.le_trans h.later (by omega)
  · rw [ht.fresh, hf] at hid
    have hout : id ∉ Pairing.ids ⟨i, s.fresh, s.fresh + 1⟩ := by
      simp only [Pairing.ids, List.mem_cons, List.not_mem_nil, or_false]
      omega
    obtain ⟨hg', hp'⟩ := hsame id hout
    rw [hg', hp']
    exact h.unborn id (by omega)

end Books

end Nmconsole
