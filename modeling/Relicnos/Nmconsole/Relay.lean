import Relicnos.Nmconsole.Script

/-!
# From the client to the tty

The tty is opened non-blocking and `main` drops what a `write` does not take.  What the tty of a
session was offered is what the filter made of everything read from its client; what it took is
the front of that exactly if nothing is taken after the first short `write`.
-/

set_option linter.unusedVariables false

namespace Nmconsole
open Interact

/-- the bytes `due` reach the sink in order, without a gap so far -/
structure Lossless (due : List UInt8) (ws : List (List UInt8 × Nat)) : Prop where
  offered : offered ws = due
  unbroken : Unbroken ws
  front : taken ws <+: due

section
variable {conf : Conf} {n : Nat} {s s' : Sys} {tr : List (Event Op Res Sys)} {ps : Ports}

theorem head_of_runs (hs : s.Start) (h : Runs posix (nmMain conf n) s tr (some ps) s') :
    Head posix conf ps s' :=
  (wp_runs (wp_nmMain posix.le_refl conf n hs) h).2

/-- whatever the writes take, the tty of a session was offered all that the filter made of what
was read from the client -/
theorem offered_eq_wanted (hs : s.Start) (h : Runs posix (nmMain conf n) s tr (some ps) s')
    {i : Fin maxp} (hi : i ∈ conf.indices) {c t : Nat} {fc ft : File}
    (hc : (ps i).clientFd = some c) (ht : (ps i).ttyFd = some t) (hfc : s'.files c = some fc)
    (hft : s'.files t = some ft) : offered (s'.put ft.id) = s'.wanted conf fc.id :=
  ((head_of_runs hs h).table.session i hi).carried c t fc ft hc ht hfc hft

end

/-- **What the tty of a session has taken is the front of what its client sent, exactly if
nothing was taken after a short write.** -/
theorem lossless_iff (conf : Conf) (n : Nat) (s s' : Sys) (hs : s.Start)
    (tr : List (Event Op Res Sys)) (ps : Ports) (h : Runs posix (nmMain conf n) s tr (some ps) s')
    (i : Fin maxp) (hi : i ∈ conf.indices) (c t : Nat) (fc ft : File)
    (hc : (ps i).clientFd = some c) (ht : (ps i).ttyFd = some t) (hfc : s'.files c = some fc)
    (hft : s'.files t = some ft) :
    Lossless (s'.wanted conf fc.id) (s'.put ft.id) ↔ Stalls (s'.put ft.id) := by
  have hfits : Fits (s'.put ft.id) := (head_of_runs hs h).table.wf.fits ft.id
  have hdue : offered (s'.put ft.id) = s'.wanted conf fc.id :=
    offered_eq_wanted hs h hi hc ht hfc hft
  rw [← unbroken_iff hfits]
  refine ⟨fun h => h.unbroken, fun h => ⟨hdue, h, ?_⟩⟩
  rw [← hdue]
  exact h.taken_prefix hfits

/-- port 0 gets a client, which sends `ab` and then `c`; the writes take what `takes` says -/
def pasteScript (takes : Nat → Nat) : Script where
  select := fdSets [(8, [3]), (15, [5]), (18, [5])]
  read := answers [(16, [0x61, 0x62]), (19, [0x63])]
  write := takes

/-- all of it is taken -/
theorem lossless_iff_paste : ∃ tr ps s fc ft,
    Runs posix (nmMain twoPorts 3) startSys tr (some ps) s ∧
      (ps 0).clientFd = some 5 ∧ (ps 0).ttyFd = some 6 ∧
      s.files 5 = some fc ∧ s.files 6 = some ft ∧ taken (s.put ft.id) = [0x61, 0x62, 0x63] ∧
      Lossless (s.wanted twoPorts fc.id) (s.put ft.id) := by
  obtain ⟨ps, hx, hc, ht⟩ := (pasteScript fun _ => 1024).play_session twoPorts 3 5 6 0
    (by decide +kernel)
  have hput : ((pasteScript fun _ => 1024).policy.play 0 (nmMain twoPorts 3) startSys).2.1.put 6
      = [([0x61, 0x62], 2), ([0x63], 1)] := by decide +kernel
  refine ⟨_, ps, _, ⟨5, .conn⟩, ⟨6, .tty 0⟩, hx, hc, ht, by decide +kernel, by decide +kernel,
    by decide +kernel, ?_⟩
  refine (lossless_iff twoPorts 3 startSys _ startSys_start _ ps hx 0 (by decide) 5 6 _ _ hc ht
    (by decide +kernel) (by decide +kernel)).mpr ?_
  rw [hput]
  exact ⟨nofun, nofun, trivial⟩

/-- the first `write` takes one byte of two, the second one takes its byte -/
theorem lossless_fails : ¬∀ (conf : Conf) (n : Nat) (s s' : Sys), s.Start →
    ∀ (tr : List (Event Op Res Sys)) (ps : Ports),
      Runs posix (nmMain conf n) s tr (some ps) s' →
      ∀ i ∈ conf.indices, ∀ (c t : Nat) (fc ft : File),
        (ps i).clientFd = some c → (ps i).ttyFd = some t → s'.files c = some fc →
          s'.files t = some ft → Lossless (s'.wanted conf fc.id) (s'.put ft.id) := by
  intro h
  obtain ⟨ps, hx, hc, ht⟩ := (pasteScript fun _ => 1).play_session twoPorts 3 5 6 0
    (by decide +kernel)
  have h := (h twoPorts 3 startSys _ startSys_start _ ps hx 0 (by decide) 5 6 ⟨5, .conn⟩
    ⟨6, .tty 0⟩ hc ht (by decide +kernel) (by decide +kernel)).front
  exact absurd h (by decide +kernel)

end Nmconsole
