import Mathlib.Data.Multiset.AddSub
import OpcHub.Lib.Runs

/-! One tcp connection of the connection manager. Its socket's operations complete
on the net thread, with whatever outcome, and the handlers posted to it run there;
one event at a time is handed to the loop, whose delivery runs the client's callback
and posts the next read. A close that is asked for lets what is queued go out. -/

namespace OpcHub.Gateway

abbrev Bytes := List UInt8

inductive EState where
  | resolving
  | connecting
  | established
  | closing
  | closed
  deriving DecidableEq

inductive EEvent where
  | established
  | data
  | closing
  deriving DecidableEq

/-- What the client's callback is told. -/
inductive Callback where
  | opening
  | established
  | data (chunk : Bytes)
  | closing
  deriving DecidableEq

structure Connection where
  /-- The host is an address, which no resolver is asked for. -/
  address : Bool
  state : EState := .resolving
  rx : Bytes := []
  tx : List Bytes := []
  writing : Bool := false
  /-- Resolve, connect, read and write outstanding. -/
  inflight : ℕ := 0
  closeRequested : Bool := false
  writable : Bool := false
  pending : Option EEvent := none
  /-- `closeConnection`, or the manager's stop. -/
  closeCalled : Bool := false
  closingDelivered : Bool := false
  /-- What the loop posts once the callback it is in returns: the Start of an OPENING, the ArmRead of an event. -/
  owedStarts : ℕ := 0
  owedArms : ℕ := 0
  /-- The handlers posted and not yet run, of each kind. -/
  starts : ℕ := 0
  closes : ℕ := 0
  arms : ℕ := 0
  sends : Multiset Bytes := 0
  /-- The operations the socket has not completed. -/
  resolves : ℕ := 0
  connects : ℕ := 0
  reads : ℕ := 0
  writes : ℕ := 0
  /-- The callbacks made, in order. -/
  callbacks : List Callback := []
  /-- The chunks read, the bytes accepted and the bytes written, in order. -/
  received : List Bytes := []
  accepted : List Bytes := []
  written : List Bytes := []
  /-- The socket is closed, and an operation failed before it was. -/
  shut : Bool := false
  failed : Bool := false
  /-- An event was raised over one pending. -/
  clashed : Bool := false
  deriving DecidableEq

/-- What happens to a connection besides the loop's calls. -/
inductive ConnectionEvent where
  /-- The callback returns, and the loop posts. -/
  | postStart
  | postArm
  /-- A handler posted runs. -/
  | start
  | requestClose
  | armRead
  | enqueue (buf : Bytes)
  /-- An operation completes; without a chunk, or not `ok`, it failed. -/
  | resolved (ok : Bool)
  | connected (ok : Bool)
  | read (chunk : Option Bytes)
  | wrote (ok : Bool)
  deriving DecidableEq

namespace Connection

/-- A connection just opened, its OPENING delivered. -/
def opened (address : Bool) : Connection := { address := address, owedStarts := 1, callbacks := [.opening] }

def raise (c : Connection) (event : EEvent) : Connection :=
  { c with pending := some event, clashed := c.clashed || c.pending.isSome }

def maybeRaiseClosing (c : Connection) : Connection :=
  if c.inflight ≠ 0 ∨ c.state = .closed then c
  else if c.pending.isSome then c
  else raise { c with state := .closed } .closing

def finishClose (c : Connection) : Connection :=
  if c.state = .closed then c
  else maybeRaiseClosing { c with state := .closing, writable := false, shut := true }

/-- An operation ends without its connection: by an error, or `ok` and too late. -/
def fail (c : Connection) (ok : Bool) : Connection :=
  if c.state = .closed then c
  else maybeRaiseClosing { c with
    writable := false, state := .closing, shut := true, failed := c.failed || (!ok && !c.shut) }

def connect (c : Connection) : Connection :=
  { c with state := .connecting, inflight := c.inflight + 1, connects := c.connects + 1 }

def start (c : Connection) : Connection :=
  if c.state ≠ .resolving then c
  else if c.address then c.connect
  else { c with inflight := c.inflight + 1, resolves := c.resolves + 1 }

def resolved (c : Connection) (ok : Bool) : Connection :=
  if c.state ≠ .resolving ∨ ok = false then c.fail ok else c.connect

def connected (c : Connection) (ok : Bool) : Connection :=
  if c.state ≠ .connecting ∨ ok = false then c.fail ok
  else raise { c with state := .established, writable := true } .established

def armRead (c : Connection) : Connection :=
  if c.state ≠ .established ∨ c.closeRequested then
    -- the last write's completion closes behind what is queued
    if c.state = .established ∧ (c.writing ∨ c.tx ≠ []) then c
    else if c.state ≠ .closed then c.finishClose
    else c
  else { c with inflight := c.inflight + 1, reads := c.reads + 1 }

def read (c : Connection) (chunk : Option Bytes) : Connection :=
  chunk.elim (c.fail false) fun bytes =>
    if c.state ≠ .established then fail { c with received := c.received ++ [bytes] } true
    else raise { c with rx := bytes, received := c.received ++ [bytes] } .data

def writeNext (c : Connection) : Connection :=
  { c with writing := true, inflight := c.inflight + 1, writes := c.writes + 1 }

def enqueue (c : Connection) (buf : Bytes) : Connection :=
  if c.state ≠ .established ∨ c.closeRequested then c
  else if c.writing then { c with tx := c.tx ++ [buf], accepted := c.accepted ++ [buf] }
  else writeNext { c with tx := c.tx ++ [buf], accepted := c.accepted ++ [buf] }

/-- The front of the queue is let go, written or not. -/
def pop (c : Connection) (ok : Bool) : Connection :=
  { c with
    writing := false
    tx := c.tx.tail
    written := if ok then c.written ++ c.tx.head?.toList else c.written }

def wrote (c : Connection) (ok : Bool) : Connection :=
  if ok = false ∨ c.state ≠ .established then (c.pop ok).fail ok
  else if c.tx.tail ≠ [] then (c.pop ok).writeNext
  else if c.closeRequested then (c.pop ok).finishClose
  else c.pop ok

/-- What RequestClose does to the socket; a lookup under way cannot be cancelled. -/
def closeSocket (c : Connection) : Connection :=
  if c.state = .resolving ∨ c.state = .connecting then { c with state := .closing, shut := true }
  else if c.tx = [] ∧ c.writing = false then c.finishClose
  else c

def requestClose (c : Connection) : Connection :=
  if c.state = .closed ∨ c.closeRequested then c
  else (closeSocket { c with closeRequested := true, writable := false }).maybeRaiseClosing

/-- A callback made, unless the client has closed the connection. -/
def call (c : Connection) (callback : Callback) : List Callback := if c.closeCalled then [] else [callback]

def deliver (c : Connection) : EEvent → Connection
  | .established =>
    { c with pending := none, callbacks := c.callbacks ++ c.call .established, owedArms := c.owedArms + 1 }
  | .data => { c with pending := none, callbacks := c.callbacks ++ c.call (.data c.rx), owedArms := c.owedArms + 1 }
  | .closing => { c with pending := none, callbacks := c.callbacks ++ [.closing], closingDelivered := true }

/-- What closeConnection and the manager's stop do: the client is through with it, and RequestClose is posted. -/
def close (c : Connection) : Connection := { c with closeCalled := true, closes := c.closes + 1 }

def send (c : Connection) (buf : Bytes) : Connection := { c with sends := buf ::ₘ c.sends }

def step (c : Connection) : ConnectionEvent → Option Connection
  | .postStart =>
    if c.owedStarts = 0 then none else some { c with owedStarts := c.owedStarts - 1, starts := c.starts + 1 }
  | .postArm => if c.owedArms = 0 then none else some { c with owedArms := c.owedArms - 1, arms := c.arms + 1 }
  | .start => if c.starts = 0 then none else some (start { c with starts := c.starts - 1 })
  | .requestClose => if c.closes = 0 then none else some (requestClose { c with closes := c.closes - 1 })
  | .armRead => if c.arms = 0 then none else some (armRead { c with arms := c.arms - 1 })
  | .enqueue buf => if buf ∈ c.sends then some (enqueue { c with sends := c.sends.erase buf } buf) else none
  | .resolved ok =>
    if c.resolves = 0 then none
    else some (resolved { c with inflight := c.inflight - 1, resolves := c.resolves - 1 } ok)
  | .connected ok =>
    if c.connects = 0 then none
    else some (connected { c with inflight := c.inflight - 1, connects := c.connects - 1 } ok)
  | .read chunk =>
    -- a read that succeeds has read something
    if c.reads = 0 ∨ chunk = some [] then none
    else some (read { c with inflight := c.inflight - 1, reads := c.reads - 1 } chunk)
  | .wrote ok =>
    if c.writes = 0 then none else some (wrote { c with inflight := c.inflight - 1, writes := c.writes - 1 } ok)

end Connection

end OpcHub.Gateway
