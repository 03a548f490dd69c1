import Relicnos.Interact.Exec
import Relicnos.Tftp.Server
import Mathlib.Logic.Relation
import Mathlib.Tactic.Common

/-!
# The network and the client

The network keeps every packet that was sent, with the block the server was at then.  It may
deliver a packet at any time, any number of times or never, as long as the server is at most
`lifetime` blocks further.  The client is a lock-step receiver.

* `Client.receive`  what the client does with a packet;
* `Deliver`         the network hands a packet to the client;
* `netEnv`          the calls of the server, with any number of deliveries between them.

Who sends what to the listening socket, which names are resolved and how big the files are is
left open, and so is what time it is and whether a call fails.
-/

namespace Tftp
open Interact

/-- how many blocks later a packet may still arrive -/
def lifetime : Nat := 32768

/-- a lock-step receiver: the number of its next block, and what it has -/
structure Client where
  next : Nat
  data : Bytes

/-- its answer to a packet: it appends its next block and acknowledges it, acknowledges the
previous block again (before the first one that is the OACK), and ignores the rest -/
def Client.receive (c : Client) (pkt : Bytes) : Client × Option Bytes :=
  if opcode pkt = some opData then
    if number pkt = some (wire c.next) then
      ({ next := c.next + 1, data := c.data ++ pkt.drop 4 }, some (ackPacket c.next))
    else if number pkt = some (wire (c.next - 1)) then
      (c, some (ackPacket (c.next - 1)))
    else
      (c, none)
  else if opcode pkt = some opOack ∧ c.next = 1 then
    (c, some (ackPacket 0))
  else
    (c, none)

/-- a packet and the block at which it was sent -/
abbrev Sent := Nat × Bytes

structure World where
  fs : Path → Bytes
  opened : Option Path
  pos : Nat
  /-- the block the server is at: how many it has read -/
  blk : Nat
  toClient : List Sent
  toServer : List Sent
  client : Client

namespace World

/-- the file that is served -/
def file (w : World) : Bytes := w.opened.elim [] w.fs

/-- a transfer that has not begun: no packet is on its way, and the client waits for block 1 -/
structure Fresh (w : World) : Prop where
  opened : w.opened = none
  blk : w.blk = 0
  toClient : w.toClient = []
  toServer : w.toServer = []
  client : w.client = ⟨1, []⟩

/-- a packet that the network may still deliver -/
def Alive (w : World) (s : Sent) : Prop := w.blk ≤ s.1 + lifetime

end World

/-- the client receives a packet, and its answer is on its way -/
inductive Deliver : World → World → Prop
  | mk (w : World) (s : Sent) (hs : s ∈ w.toClient) (hl : w.Alive s) :
      Deliver w { w with
        client := (w.client.receive s.2).1
        toServer := w.toServer ++ ((w.client.receive s.2).2.toList.map fun pkt => (w.blk, pkt)) }

def access (w : World) : (o : Op) → Res o → World → Prop
  | .openFile path, r, w' =>
    w' = if (show Bool from r) then { w with opened := some path, pos := 0 } else w
  | .sendto pkt _, r, w' =>
    w' = if (show Bool from r) then { w with toClient := w.toClient ++ [(w.blk, pkt)] } else w
  | .recvfrom, r, w' => w' = w ∧ ∀ pkt, (show Option Bytes from r) = some pkt →
      ∃ s ∈ w.toServer, w.Alive s ∧ pkt = s.2.take 1024
  | .read n, body, w' => (show Bytes from body) = (w.file.drop w.pos).take n ∧
      w' = { w with pos := w.pos + (show Bytes from body).length, blk := w.blk + 1 }
  | .hang, _, _ => False
  | _, _, w' => w' = w

def netEnv : Env Op Res World where
  rely := Relation.ReflTransGen Deliver
  access := access

end Tftp
