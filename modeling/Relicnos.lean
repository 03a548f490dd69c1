import Relicnos.Console.Joint
import Relicnos.Console.Meanwhile
import Relicnos.Console.Script
import Relicnos.Console.Typed
import Relicnos.Csource.Text
import Relicnos.Interact.Code
import Relicnos.Interact.Cut
import Relicnos.Interact.Digits
import Relicnos.Interact.Emit
import Relicnos.Interact.Exchange
import Relicnos.Interact.Exec
import Relicnos.Interact.Lanes
import Relicnos.Interact.Ledger
import Relicnos.Interact.Lines
import Relicnos.Interact.Monitor
import Relicnos.Interact.Policy
import Relicnos.Interact.Pool
import Relicnos.Interact.Possible
import Relicnos.Interact.Prog
import Relicnos.Interact.RingBuf
import Relicnos.Interact.Says
import Relicnos.Interact.Series
import Relicnos.Interact.Stream
import Relicnos.Interact.Total
import Relicnos.Irq.Cascade
import Relicnos.Irq.Dispatch
import Relicnos.Irq.Outcome
import Relicnos.Irq.Progress
import Relicnos.Irq.Report
import Relicnos.Irq.Script
import Relicnos.Loader.Agree
import Relicnos.Loader.Extract
import Relicnos.Loader.Header
import Relicnos.Loader.Tool
import Relicnos.Mips.Words
import Relicnos.Nm32a.Accounting
import Relicnos.Nm32a.Breaks
import Relicnos.Nm32a.Bus
import Relicnos.Nm32a.Calls
import Relicnos.Nm32a.Card
import Relicnos.Nm32a.Close
import Relicnos.Nm32a.Confirm
import Relicnos.Nm32a.Context
import Relicnos.Nm32a.Deadline
import Relicnos.Nm32a.Drain
import Relicnos.Nm32a.Driver
import Relicnos.Nm32a.Fpga
import Relicnos.Nm32a.Levels
import Relicnos.Nm32a.Lifecycle
import Relicnos.Nm32a.Live
import Relicnos.Nm32a.Mute
import Relicnos.Nm32a.Opening
import Relicnos.Nm32a.Probe
import Relicnos.Nm32a.Rates
import Relicnos.Nm32a.Receive
import Relicnos.Nm32a.Room
import Relicnos.Nm32a.Samples
import Relicnos.Nm32a.Script
import Relicnos.Nm32a.Sections
import Relicnos.Nm32a.Select
import Relicnos.Nm32a.Selftest
import Relicnos.Nm32a.Sendbreak
import Relicnos.Nm32a.Service
import Relicnos.Nm32a.Stale
import Relicnos.Nm32a.Thread
import Relicnos.Nm32a.Transmit
import Relicnos.Nm32a.Transparent
import Relicnos.Nm32a.Tty
import Relicnos.Nm32a.Turns
import Relicnos.Nm32a.TxRing
import Relicnos.Nm32a.Wakeup
import Relicnos.Nm32a.Wire
import Relicnos.Nm32a.World
import Relicnos.Nmconsole.Bounds
import Relicnos.Nmconsole.Chunking
import Relicnos.Nmconsole.Clients
import Relicnos.Nmconsole.Descriptors
import Relicnos.Nmconsole.Display
import Relicnos.Nmconsole.Escape
import Relicnos.Nmconsole.Exclusive
import Relicnos.Nmconsole.Grammar
import Relicnos.Nmconsole.Isolation
import Relicnos.Nmconsole.Loop
import Relicnos.Nmconsole.Negotiation
import Relicnos.Nmconsole.Pairing
import Relicnos.Nmconsole.Posix
import Relicnos.Nmconsole.Ready
import Relicnos.Nmconsole.Relay
import Relicnos.Nmconsole.Script
import Relicnos.Nmconsole.Server
import Relicnos.Nmconsole.Speeds
import Relicnos.Nmconsole.Spin
import Relicnos.Nmconsole.Telnet
import Relicnos.Nmconsole.Visit
import Relicnos.Pata.Device
import Relicnos.Pata.Load
import Relicnos.Pata.Transfer
import Relicnos.Pci.Access
import Relicnos.Pci.Bridge
import Relicnos.Pci.Memory
import Relicnos.Pci.Narrow
import Relicnos.Pciscan.Bus
import Relicnos.Pciscan.Kernel
import Relicnos.Pciscan.Report
import Relicnos.Pciscan.Scan
import Relicnos.Pciscan.Sweep
import Relicnos.Rommon.Dump
import Relicnos.Rommon.Text
import Relicnos.Tftp.Delivery
import Relicnos.Tftp.Network
import Relicnos.Tftp.Packet
import Relicnos.Tftp.Resend
import Relicnos.Tftp.Resolve
import Relicnos.Tftp.Server
import Relicnos.Tftp.Survive
import Relicnos.Xref.Image
import Relicnos.Xref.Refs
