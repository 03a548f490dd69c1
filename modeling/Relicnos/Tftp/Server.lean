import Relicnos.Interact.Prog
import Relicnos.Tftp.Packet

/-!
# The server

`serve_one` waits for a request on the listening socket and serves one file over a socket of its
own, and `main` calls it in a loop.  Each call it makes is one operation `Op`; a loop that the
code does not bound takes the number of turns it is followed for, and past that it is still going
(`hang`).

Left out: the messages, what is computed for them only (`mode`, `sent`, `t0`), and the
interruption from the keyboard.
-/

namespace Tftp
open Interact

abbrev Addr := Nat
abbrev Path := Bytes

inductive Op where
  /-- `recvfrom` on the listening socket -/
  | listen
  /-- the same without blocking -/
  | poll
  /-- `sendto` on the listening socket -/
  | reply (pkt : Bytes) (client : Addr)
  | resolve (root name : Path)
  | getsize (path : Path)
  /-- the transfer socket is created and bound -/
  | socket
  | openFile (path : Path)
  /-- `sendto` on the transfer socket -/
  | sendto (pkt : Bytes) (client : Addr)
  /-- `recvfrom` on the transfer socket -/
  | recvfrom
  | read (n : Nat)
  | closeFile
  | closeXfer
  | time
  | hang

/-- what it answers; `none` is a timeout or nothing there, and `false` an `OSError` -/
def Res : Op → Type
  | .listen => Bytes × Addr
  | .poll => Option (Bytes × Addr)
  | .reply _ _ => Bool
  | .resolve _ _ => Option Path
  | .getsize _ => Option Nat
  | .socket => Bool
  | .openFile _ => Bool
  | .sendto _ _ => Bool
  | .recvfrom => Option Bytes
  | .read _ => Bytes
  | .closeFile => Unit
  | .closeXfer => Unit
  | .time => Rat
  | .hang => Empty

abbrev Py := Prog Op Res

def issue (o : Op) : Py (Res o) := Prog.call o

def listen : Py (Bytes × Addr) := issue .listen
def poll : Py (Option (Bytes × Addr)) := issue .poll
def reply (pkt : Bytes) (client : Addr) : Py Bool := issue (.reply pkt client)
def resolve (root name : Path) : Py (Option Path) := issue (.resolve root name)
def getsize (path : Path) : Py (Option Nat) := issue (.getsize path)
def socket : Py Bool := issue .socket
def openFile (path : Path) : Py Bool := issue (.openFile path)
def sendto (pkt : Bytes) (client : Addr) : Py Bool := issue (.sendto pkt client)
def recvfrom : Py (Option Bytes) := issue .recvfrom
def read (n : Nat) : Py Bytes := issue (.read n)
def closeFile : Py Unit := issue .closeFile
def closeXfer : Py Unit := issue .closeXfer
def time : Py Rat := issue .time
def hang {α : Type} : Py α := .op .hang Empty.elim

/-- how `serve_one` ends -/
inductive Outcome where
  | returned (b : Bool)
  | raised
  deriving DecidableEq

/-- how a wait for an acknowledgement ends: it came, the transfer is given up, an exception -/
inductive Wait where
  | acked
  | aborted
  | raised

/-! ## the request -/

/-- the most recent request that is queued; `none` is the `struct.error` of a datagram without an
opcode -/
def newest : Nat → Bytes → Addr → Py (Option (Bytes × Addr))
  | 0, _, _ => hang
  | n + 1, data, client => do
    match ← poll with
    | none => return some (data, client)
    | some (d2, c2) =>
      match opcode d2 with
      | none => return none
      | some op => if op = opRrq then newest n d2 c2 else newest n data client

/-! ## the transfer -/

/-- the wait for the ACK of the OACK -/
def offerLoop (client : Addr) (oack : Bytes) (deadline : Rat) : Nat → Py Wait
  | 0 => hang
  | n + 1 => do
    match ← recvfrom with
    | none =>
      if deadline < (← time) then
        return .aborted
      else if ← sendto oack client then
        offerLoop client oack deadline n
      else
        return .raised
    | some pkt =>
      match opcode pkt with
      | none => return .raised
      | some op =>
        if op = opError then
          return .aborted
        else if op = opAck then
          match number pkt with
          | none => return .raised
          | some 0 => return .acked
          | some _ => offerLoop client oack deadline n
        else
          offerLoop client oack deadline n

def offer (turns : Nat) (client : Addr) (oack : Bytes) : Py Wait := do
  if ← sendto oack client then
    let deadline := (← time) + 30
    offerLoop client oack deadline turns
  else
    return .raised

/-- a DATA packet is sent until its ACK comes; every other packet has it sent again at once -/
def sendBlock (client : Addr) (pkt : Bytes) (blk : Nat) : Nat → Nat → Py Wait
  | _, 0 => hang
  | tries, n + 1 => do
    if ← sendto pkt client then
      match ← recvfrom with
      | none =>
        if 10 < tries + 1 then
          return .aborted
        else
          sendBlock client pkt blk (tries + 1) n
      | some ack =>
        match opcode ack with
        | none => return .raised
        | some aop =>
          if aop = opError then
            match number ack with
            | none => return .raised
            | some _ => return .aborted
          else if aop = opAck then
            match number ack with
            | none => return .raised
            | some v => if v = wire blk then return .acked else sendBlock client pkt blk tries n
          else
            sendBlock client pkt blk tries n
    else
      return .raised

/-- every return of a transfer closes the file and the socket first; an exception closes neither -/
def close (b : Bool) : Py Outcome := do
  closeFile
  closeXfer
  return .returned b

/-- the blocks from `blk` on; a short one is the last -/
def sendBlocks (turns : Nat) (client : Addr) (blksize : Nat) : Nat → Nat → Py Outcome
  | _, 0 => hang
  | blk, n + 1 => do
    let body ← read blksize
    match ← sendBlock client (dataPacket blk body) blk 0 turns with
    | .acked =>
      if body.length < blksize then
        close true
      else
        sendBlocks turns client blksize (blk + 1) n
    | .aborted => close false
    | .raised => return .raised

/-- `serve_one` from the file that is served on -/
def transfer (turns : Nat) (client : Addr) (opts : List (Bytes × Bytes)) (path : Path)
    (size : Nat) (maxBlksize : Int) : Py Outcome := do
  if ← socket then
    match negotiate opts size maxBlksize with
    | none => return .raised
    | some neg =>
      if ← openFile path then
        if neg.accepted = [] then
          sendBlocks turns client neg.blksize 1 turns
        else
          match ← offer turns client (oackPacket neg.accepted) with
          | .acked => sendBlocks turns client neg.blksize 1 turns
          | .aborted => close false
          | .raised => return .raised
      else
        return .raised
  else
    return .raised

def serveOne (turns : Nat) (path : Path) (size : Nat) (maxBlksize : Int) (root : Option Path) :
    Py Outcome := do
  let (data, client) ← listen
  match ← newest turns data client with
  | none => return .raised
  | some (data, client) =>
    match opcode data with
    | none => return .raised
    | some op =>
      if op ≠ opRrq then
        return .returned false
      else
        let (fname, opts) := parseOpts (data.drop 2)
        match root with
        | none => transfer turns client opts path size maxBlksize
        | some root =>
          match ← resolve root fname with
          | none =>
            if ← reply (errorPacket errNotfound (ascii "file not found")) client then
              return .returned false
            else
              return .raised
          | some path =>
            match ← getsize path with
            | none => return .raised
            | some size => transfer turns client opts path size maxBlksize

/-! ## the serve loop -/

/-- whatever is queued is discarded -/
def drain : Nat → Py Unit
  | 0 => hang
  | n + 1 => do
    match ← poll with
    | none => return ()
    | some _ => drain n

/-- how `main` ends: after one request (`--once`), or by an exception of `serve_one` -/
inductive Exit where
  | done
  | raised
  deriving DecidableEq

/-- the loop of `main` -/
def serveLoop (turns : Nat) (path : Path) (size : Nat) (maxBlksize : Int) (root : Option Path)
    (once : Bool) : Nat → Py Exit
  | 0 => hang
  | n + 1 => do
    match ← serveOne turns path size maxBlksize root with
    | .raised => return .raised
    | .returned _ =>
      if once then
        return .done
      else
        drain turns
        serveLoop turns path size maxBlksize root once n

end Tftp
