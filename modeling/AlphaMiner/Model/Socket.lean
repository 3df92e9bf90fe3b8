import AlphaMiner.Lib.CString
import AlphaMiner.Lib.System
import AlphaMiner.Model.Util

/-!
# The pool's socket (`send_line` and `stratum_recv_line`, `util.c`)

Both directions work by lines over a socket that does not. What the socket does
during one call is a list of events, in order: for a `send_line`, what `select`
and the write answered in each round of its loop; for a `stratum_recv_line`,
what each read answered and whether its minute had passed by then. The list
holds the events of the call and no others, so a call has no result under a
list that ends before the loop does, or goes on after it.
-/

namespace AlphaMiner

open Lib

def newline : UInt8 := 10

/-! ## Sending -/

inductive SendEvent where
  | notReady
  | wrote (n : Nat)
  | again
  | failed
  deriving DecidableEq, Repr

/-- The loop of `send_line` over what it has still to send: its answer, and the
bytes it got rid of. -/
def sendLine.loop : List SendEvent → Bytes → Option (Bool × Bytes)
  | [], [] => some (true, [])
  | _ :: _, [] => none
  | [], _ :: _ => none
  | .notReady :: events, _ :: _ => if events = [] then some (false, []) else none
  | .failed :: events, _ :: _ => if events = [] then some (false, []) else none
  | .again :: events, c :: rest => sendLine.loop events (c :: rest)
  | .wrote n :: events, c :: rest =>
      if n ≤ (c :: rest).length then
        (sendLine.loop events ((c :: rest).drop n)).map fun r =>
          (r.1, (c :: rest).take n ++ r.2)
      else none

def sendLine (events : List SendEvent) (s : Bytes) : Option (Bool × Bytes) :=
  sendLine.loop events (s ++ [newline])

/-- A call of `stratum_send_line` that has returned. -/
structure SendCall where
  line : Bytes
  ret : Bool
  written : Bytes
  deriving DecidableEq, Repr

/-- `sock_lock` keeps the calls on one connection apart, so they are a list. -/
def stratumSendLines (calls : List (Bytes × List SendEvent)) : Option (List SendCall) :=
  calls.mapM fun c => (sendLine c.2 c.1).map fun r => ⟨c.1, r.1, r.2⟩

/-- What the calls put on the connection. -/
def wire (calls : List SendCall) : Bytes := calls.flatMap SendCall.written

/-! ## Receiving -/

def rbufsize : Nat := 2048

def recvsize : Nat := rbufsize - 4

/-- What one read can bring. -/
structure Chunk where
  bytes : Bytes
  pos : 0 < bytes.length
  le_recvsize : bytes.length ≤ recvsize
  nul_free : 0 ∉ bytes

/-- What one read answered. The flag of `again` is what `socket_full(sock, 1)`
says then. -/
inductive RecvEvent where
  | data (s : Chunk)
  | closed
  | again (full : Bool)
  | failed

/-- `stratum_buffer_append`; the block at `sockbuf` has `sockbuf_size` bytes. -/
def stratumBufferAppend (heap : Nat → UInt8) (sockbuf s : Bytes) : Bytes :=
  let old := (cstr sockbuf).length
  let new := old + s.length + 1
  let sockbuf :=
    if new ≥ sockbuf.length then realloc heap sockbuf (new + (rbufsize - new % rbufsize))
    else sockbuf
  store sockbuf old (s ++ [0])

/-- The reading loop: `ret`, and `sockbuf` when it is left. The flag of an event
is the test `time(NULL) - rstart < 60` made after it. -/
def stratumRecvLine.loop (heap : Nat → UInt8) :
    List (RecvEvent × Bool) → Bytes → Option (Bool × Bytes)
  | [], _ => none
  | (event, inTime) :: events, sockbuf =>
      let proceed (sockbuf : Bytes) : Option (Bool × Bytes) :=
        if inTime ∧ newline ∉ cstr sockbuf then stratumRecvLine.loop heap events sockbuf
        else if events.isEmpty then some (true, sockbuf)
        else none
      let quit : Option (Bool × Bytes) :=
        if events.isEmpty then some (false, sockbuf) else none
      match event with
      | .closed => quit
      | .failed => quit
      | .again full => if full then proceed sockbuf else quit
      | .data s => proceed (stratumBufferAppend heap sockbuf s.bytes)

/-- The extraction of a line behind the reading loop. -/
def takeLine (sockbuf : Bytes) : Option Bytes × Bytes :=
  let buflen := (cstr sockbuf).length
  match strtok sockbuf newline with
  | (none, sockbuf) => (none, sockbuf)
  | (some tok, sockbuf) =>
      let sret := cstr (sockbuf.drop tok)
      let len := sret.length
      if buflen > len + 1 then
        (some sret, store sockbuf 0 (slice sockbuf (len + 1) (buflen - len + 1)))
      else (some sret, store sockbuf 0 [0])

/-- `stratum_recv_line`: what it returns, `none` being `NULL`, and `sockbuf`
afterwards. `full` is the answer of `socket_full(sock, 60)`. -/
def stratumRecvLine (heap : Nat → UInt8) (full : Bool) (events : List (RecvEvent × Bool))
    (sockbuf : Bytes) : Option (Option Bytes × Bytes) :=
  if newline ∈ cstr sockbuf then
    if events.isEmpty then some (takeLine sockbuf) else none
  else if !full then
    if events.isEmpty then some (none, sockbuf) else none
  else
    match stratumRecvLine.loop heap events sockbuf with
    | none => none
    | some (false, sockbuf) => some (none, sockbuf)
    | some (true, sockbuf) => some (takeLine sockbuf)

/-- What the events of a call brought. -/
def arrived (events : List (RecvEvent × Bool)) : Bytes :=
  events.flatMap fun e =>
    match e.1 with
    | .data s => s.bytes
    | _ => []

/-! ## One connection's stream

The state between two calls, with the bytes received so far and the lines
returned so far on record. -/

structure RecvState where
  sockbuf : Bytes
  received : Bytes
  returned : List Bytes
  deriving DecidableEq, Repr

/-- A call as the socket and the clock determine it. -/
structure RecvInput where
  heap : Nat → UInt8
  full : Bool
  events : List (RecvEvent × Bool)

def recvStep (s : RecvState) (a : RecvInput) : Option RecvState :=
  match stratumRecvLine a.heap a.full a.events s.sockbuf with
  | none => none
  | some (sret, sockbuf) =>
      some { sockbuf := sockbuf, received := s.received ++ arrived a.events
             returned := s.returned ++ sret.toList }

/-- A connection begins with the empty string in the block that
`stratum_connect` finds or makes. -/
def recvConn : Lts RecvState RecvInput where
  init s := rbufsize ≤ s.sockbuf.length ∧ s.sockbuf.head? = some 0 ∧
    s.received = [] ∧ s.returned = []
  next s a s' := recvStep s a = some s'

end AlphaMiner
