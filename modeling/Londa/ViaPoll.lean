import Londa.Machine
import Londa.Buffer
import Mathlib.Data.Fintype.Card

/-!
# The poll echo server

Model of `do_poll` and `handle_connection` in
`code/network/IO/multiplexing/via_poll/server.cpp`. A step is one round of the loop:
`poll` writes the `revents` of the slots up to `maxi`, a client is accepted when the
listening slot is ready, and the ready clients are served. `memory` is what the array
`clientfds` holds before its initialisation, which sets `fd` in every slot, `events`
in slot 0 only and `revents` nowhere.

The kernel answers the calls: any `revents` (none in a slot with a negative
descriptor), of which the non-zero ones are counted in `nready`, a new descriptor that
is not open, and what the `read` on each slot finds, of which it returns at most
`MAXLINE` bytes. `live` holds the clients accepted and not closed, `closed` the
descriptors that the server has closed and not been given again, `calls` the calls that
the last round made on clients. A length passed to `write` is a `size_t`.
-/

namespace Londa.ViaPoll

def MAXLINE : ℕ := 1024

def OPEN_MAX : ℕ := 1000

instance : NeZero OPEN_MAX := ⟨by decide⟩

abbrev Slot := Fin OPEN_MAX

abbrev Events := BitVec 16

def POLLIN : Events := 0x001

/-- The test `events & bit` of a C condition. -/
def has (events bit : Events) : Bool := events &&& bit != 0

structure PollFd where
  fd : ℤ
  events : Events
  revents : Events

inductive Call
  | read (i : Slot) (fd : ℤ)
  | write (fd : ℤ) (buf : Buffer) (len : ℕ)
  | close (fd : ℤ)

structure State where
  clientfds : Slot → PollFd
  maxi : ℕ
  live : Finset ℤ
  closed : Finset ℤ
  calls : List Call
  running : Bool

inductive AcceptResult
  | eintr
  | error
  | client (fd : ℤ)

inductive ReadResult
  | error
  | data (bytes : List UInt8)

inductive Act
  | pollError
  | round (revents : Slot → Events) (accept : AcceptResult) (reads : Slot → ReadResult)

def STDOUT_FILENO : ℤ := 1

def sizeT (n : ℤ) : ℕ := (n % 2 ^ 64).toNat

/-- `n = read(fd, buf, MAXLINE)`. -/
def recv (buf : Buffer) : ReadResult → ℤ × Buffer
  | .error => (-1, buf)
  | .data bytes => ((bytes.take MAXLINE).length, buf.store 0 (bytes.take MAXLINE))

/-- The branch `n == 0`. -/
def State.drop (s : State) (i : Slot) : State :=
  let fd := (s.clientfds i).fd
  { s with
    clientfds := Function.update s.clientfds i { s.clientfds i with fd := -1 }
    live := s.live.erase fd
    closed := insert fd s.closed
    calls := s.calls ++ [.read i fd, .close fd] }

def State.echo (s : State) (i : Slot) (buf : Buffer) (n : ℤ) : State :=
  let fd := (s.clientfds i).fd
  { s with
    calls := s.calls ++ [.read i fd, .write STDOUT_FILENO buf (sizeT n), .write fd buf (sizeT n)] }

/-- One iteration of the loop of `handle_connection`. -/
def serveSlot (reads : Slot → ReadResult) (sb : State × Buffer) (i : Slot) : State × Buffer :=
  if (sb.1.clientfds i).fd < 0 then sb
  else if has (sb.1.clientfds i).revents POLLIN then
    let (n, buf) := recv sb.2 (reads i)
    if n = 0 then (sb.1.drop i, buf) else (sb.1.echo i buf n, buf)
  else sb

/-- The slots `1, ..., num`. -/
def clientSlots (num : ℕ) : List Slot :=
  (List.finRange OPEN_MAX).filter fun i => i ≠ 0 ∧ (i : ℕ) ≤ num

def handleConnection (s : State) (reads : Slot → ReadResult) (num : ℕ) : State :=
  ((clientSlots num).foldl (serveSlot reads) (s, Buffer.zero)).1

/-- What `poll(clientfds, maxi + 1, INFTIM)` leaves in a slot. -/
def polled (s : State) (revents : Slot → Events) (i : Slot) : PollFd :=
  if (i : ℕ) ≤ s.maxi then
    { s.clientfds i with revents := if (s.clientfds i).fd < 0 then 0 else revents i }
  else s.clientfds i

def State.poll (s : State) (revents : Slot → Events) : State :=
  { s with clientfds := polled s revents, calls := [] }

/-- The result of the same `poll`. -/
def nready (s : State) (revents : Slot → Events) : ℤ :=
  (Finset.univ.filter fun i : Slot =>
    (i : ℕ) ≤ s.maxi ∧ (polled s revents i).revents ≠ 0).card

def freeSlot (clientfds : Slot → PollFd) : Option Slot :=
  (List.finRange OPEN_MAX).find? fun i => i ≠ 0 ∧ (clientfds i).fd < 0

def State.add (s : State) (i : Slot) (connfd : ℤ) : State :=
  { s with
    clientfds := Function.update s.clientfds i
      { s.clientfds i with fd := connfd, events := POLLIN }
    maxi := if s.maxi < i then i else s.maxi
    live := insert connfd s.live
    closed := s.closed.erase connfd }

/-- One round of the loop of `do_poll`. -/
def step (listenfd : ℤ) (s : State) (a : Act) : Option State :=
  if s.running then
    match a with
    | .pollError => some { s with calls := [], running := false }
    | .round revents accept reads =>
        let n := nready s revents
        let s := s.poll revents
        if has (s.clientfds 0).revents POLLIN then
          match accept with
          | .eintr => some s
          | .error => some { s with running := false }
          | .client connfd =>
              if 0 ≤ connfd ∧ connfd ∉ s.live ∧ connfd ≠ listenfd then
                match freeSlot s.clientfds with
                | none => some { s with live := insert connfd s.live, running := false }
                | some i =>
                    let s := s.add i connfd
                    if n - 1 ≤ 0 then some s else some (handleConnection s reads s.maxi)
              else none
        else some (handleConnection s reads s.maxi)
  else none

def start (listenfd : ℤ) (memory : Slot → PollFd) : State where
  clientfds i :=
    if i = 0 then { memory 0 with fd := listenfd, events := POLLIN }
    else { memory i with fd := -1 }
  maxi := 0
  live := ∅
  closed := ∅
  calls := []
  running := true

def server (listenfd : ℤ) (memory : Slot → PollFd) : Machine State Act where
  init := start listenfd memory
  step := step listenfd

end Londa.ViaPoll
