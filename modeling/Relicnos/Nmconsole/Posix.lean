import Relicnos.Interact.Exec
import Mathlib.Logic.Function.Basic

/-!
# The calls of the server, and the descriptors behind them

`nmconsole.c` acts on the world through the calls `Op`.  `Sys` is what they act on: the table of
descriptors, which gives every number the open file it stands for, and as history what was read
from every file (`got`) and what was written to it with how much of that it took (`put`).

A file has an identity of its own, so a number that is closed and given out again stands for a
different file.  `accept`, `socket` and `open` give out the lowest free number.  What a `select`
reports is remembered with the files its numbers stood for then (`readyFiles`); `tainted` says
that a session was opened on a number that was reported while it stood for another file.

Left out: signals, the messages on the standard output, and the flags of the termios record,
which nothing reads back.
-/

set_option linter.unusedVariables false

namespace Nmconsole
open Interact

/-- a set of descriptor numbers -/
abbrev FdSet := Nat → Bool

inductive SelectRes where
  | ready (r : FdSet)
  | eintr
  | failed

/-- one call -/
inductive Op where
  | socket
  | bind (fd : Nat) (tcpPort : Nat)
  | listen (fd : Nat)
  | setsockopt (fd : Nat)
  | accept (fd : Nat)
  | openTty (n : Nat)
  | tcgetattr (fd : Nat)
  | tcsetattr (fd : Nat) (baud : Nat)
  | tcsendbreak (fd : Nat)
  | close (fd : Nat)
  | select (nfds : Nat) (r : FdSet)
  | read (fd len : Nat)
  | write (fd : Nat) (bs : List UInt8)
  | sleep

/-- what it answers; `none` is -1 -/
def Res : Op → Type
  | .socket => Option Nat
  | .bind _ _ => Bool
  | .listen _ => Bool
  | .accept _ => Option Nat
  | .openTty _ => Option Nat
  | .tcgetattr _ => Bool
  | .select _ _ => SelectRes
  | .read _ _ => Option (List UInt8)
  | .write _ _ => Option Nat
  | _ => Unit

/-- a function of the server -/
abbrev Posix (α : Type) := Prog Op Res α

def issue (o : Op) : Posix (Res o) := Prog.call o

def socket : Posix (Option Nat) := issue .socket
def bind (fd tcpPort : Nat) : Posix Bool := issue (.bind fd tcpPort)
def listen (fd : Nat) : Posix Bool := issue (.listen fd)
def setsockopt (fd : Nat) : Posix Unit := issue (.setsockopt fd)
def accept (fd : Nat) : Posix (Option Nat) := issue (.accept fd)
def openDev (n : Nat) : Posix (Option Nat) := issue (.openTty n)
def tcgetattr (fd : Nat) : Posix Bool := issue (.tcgetattr fd)
def tcsetattr (fd baud : Nat) : Posix Unit := issue (.tcsetattr fd baud)
def tcsendbreak (fd : Nat) : Posix Unit := issue (.tcsendbreak fd)
def close (fd : Nat) : Posix Unit := issue (.close fd)
def select (nfds : Nat) (r : FdSet) : Posix SelectRes := issue (.select nfds r)
def read (fd len : Nat) : Posix (Option (List UInt8)) := issue (.read fd len)
def write (fd : Nat) (bs : List UInt8) : Posix (Option Nat) := issue (.write fd bs)
def sleep : Posix Unit := issue .sleep

/-! ## the world -/

inductive FileKind where
  | other
  | sock
  | conn
  | tty (n : Nat)
  deriving DecidableEq

structure File where
  id : Nat
  kind : FileKind
  deriving DecidableEq

structure Sys where
  files : Nat → Option File
  /-- the identity of the next file -/
  fresh : Nat
  /-- what the latest `select` reported -/
  ready : FdSet
  readyFiles : Nat → Option File
  /-- the number that the latest `accept` gave out -/
  accepted : Option Nat
  tainted : Bool
  got : Nat → List (List UInt8)
  put : Nat → List (List UInt8 × Nat)

namespace Sys

/-- `fd` is the lowest free number -/
def Lowest (s : Sys) (fd : Nat) : Prop := s.files fd = none ∧ ∀ n < fd, s.files n ≠ none

/-- a new file behind `fd` -/
def install (s : Sys) (fd : Nat) (kind : FileKind) : Sys :=
  { s with files := Function.update s.files fd (some ⟨s.fresh, kind⟩), fresh := s.fresh + 1 }

/-- an opened tty completes the session of the latest `accept` -/
def stale (s : Sys) (t : Nat) : Bool :=
  s.ready t || match s.accepted with
    | some a => s.ready a
    | none => false

def logGot (s : Sys) (fd : Nat) (bs : List UInt8) : Sys :=
  match s.files fd with
  | some f => { s with got := Function.update s.got f.id (s.got f.id ++ [bs]) }
  | none => s

def logPut (s : Sys) (fd : Nat) (bs : List UInt8) (n : Nat) : Sys :=
  match s.files fd with
  | some f => { s with put := Function.update s.put f.id (s.put f.id ++ [(bs, n)]) }
  | none => s

def access (s : Sys) : (o : Op) → Res o → Sys → Prop
  | .socket, fd, s' => match fd with
    | some fd => s.Lowest fd ∧ s' = s.install fd .sock
    | none => s' = s
  | .bind _ _, _, s' => s' = s
  | .listen _, _, s' => s' = s
  | .setsockopt _, _, s' => s' = s
  | .accept _, fd, s' => match fd with
    | some fd => s.Lowest fd ∧ s' = { s.install fd .conn with accepted := some fd }
    | none => s' = s
  | .openTty n, fd, s' => match fd with
    | some fd => s.Lowest fd ∧
        s' = { s.install fd (.tty n) with tainted := s.tainted || s.stale fd }
    | none => s' = s
  | .tcgetattr _, _, s' => s' = s
  | .tcsetattr _ _, _, s' => s' = s
  | .tcsendbreak _, _, s' => s' = s
  | .close fd, _, s' => s' = { s with files := Function.update s.files fd none }
  | .select nfds r, res, s' => match res with
    | .ready r' => (∀ fd, r' fd = true → r fd = true ∧ fd < nfds) ∧
        s' = { s with
          ready := r'
          readyFiles := fun fd => if r' fd then s.files fd else none }
    | _ => s' = s
  | .read fd len, res, s' => match res with
    | some bs => bs.length ≤ len ∧ s' = s.logGot fd bs
    | none => s' = s
  | .write fd bs, res, s' => match res with
    | some n => n ≤ bs.length ∧ s' = s.logPut fd bs n
    | none => s' = s.logPut fd bs 0
  | .sleep, _, s' => s' = s

end Sys

/-- nobody else uses the descriptors of the process -/
def posix : Env Op Res Sys where
  rely s s' := s' = s
  access := Sys.access

/-! ## events -/

/-- a read is on a file that the latest `select` reported -/
def Reported (e : Event Op Res Sys) : Prop :=
  match e.op with
  | .read fd _ => ∃ f, e.pre.files fd = some f ∧ e.pre.readyFiles fd = some f
  | _ => True

/-- a session is opened on numbers that the latest `select` did not report -/
def Clean (e : Event Op Res Sys) : Prop :=
  match e with
  | ⟨pre, .openTty _, some t, _⟩ =>
    pre.ready t = false ∧ ∀ a, pre.accepted = some a → pre.ready a = false
  | _ => True

end Nmconsole
