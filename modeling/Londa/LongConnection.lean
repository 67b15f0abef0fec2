import Londa.Machine
import Londa.Epoll
import Londa.Buffer

/-!
# The edge-triggered echo server

Model of `run` and `events_handle` in `code/network/TCP/long_connection.server.c`.
The user data of a registration is the union `epoll_data`: one word of 64 bits, of
which the member `fd` is the low half and the member `ptr` the whole. The model
also keeps which member was stored last, and a use of the other member inside
`events_handle`, a read through an address that holds no live block of the kind
the code expects, a read past the end of a buffer and a string without an end are
the result `fault`. The test of `run` reads the low half of either member.

The kernel and the allocator answer the calls that the handling of one event
makes: the descriptor that `accept` returns, the two addresses that `malloc`
returns, the outcomes of the `read` calls and of the `write` calls in order.
Answers they cannot give are `refused`: a descriptor that is open, an address
that is in use, or outcomes that leave a loop unfinished. Two answers that they
can give are left out as well. A drain of `MAX_BUF` bytes or more runs over the
end of its block, or leaves no zero byte in it, so what such a run does is
undefined; an `echo_data` at an address whose low half is `listen_sock` makes
`run` take the event of its connection for one of the listening socket. Every
result about whole runs is about runs without these two. The descriptors of the
process that are not sockets are not tracked, which only leaves `accept` more
freedom.
-/

namespace Londa.LongConnection

open Epoll (Events Registration Kernel EPOLLIN EPOLLOUT EPOLLET)

def MAX_EVENTS : ℕ := 1024

def MAX_BUF : ℕ := 65536

abbrev Fd := BitVec 32

abbrev Ptr := BitVec 64

inductive Member
  | fd
  | ptr
  deriving DecidableEq

structure EpollData where
  word : BitVec 64
  stored : Member
  deriving DecidableEq

namespace EpollData

def fd (d : EpollData) : Fd := d.word.setWidth 32

def ptr (d : EpollData) : Ptr := d.word

/-- `data.fd = fd` leaves the high half of the union as it was. -/
def setFd (d : EpollData) (fd : Fd) : EpollData := ⟨d.word.extractLsb' 32 32 ++ fd, .fd⟩

def setPtr (p : Ptr) : EpollData := ⟨p, .ptr⟩

@[simp] theorem setFd_fd (d : EpollData) (fd : Fd) : (d.setFd fd).fd = fd := by
  unfold setFd EpollData.fd
  apply BitVec.eq_of_getLsbD_eq
  intro i hi
  rw [BitVec.getLsbD_setWidth]
  have happend := BitVec.getLsbD_append (i := i) (x := d.word.extractLsb' 32 32) (y := fd)
  simpa [hi] using happend

end EpollData

structure EchoData where
  data : Ptr
  fd : Fd
  deriving DecidableEq

inductive Block
  | buf (bytes : Buffer)
  | echo (ed : EchoData)

inductive ReadResult
  | bytes (chunk : List UInt8)
  | eof
  | eagain
  | etimedout
  | error
  deriving DecidableEq

inductive WriteResult
  | wrote (n : ℕ)
  | eagain
  | error
  deriving DecidableEq

/-- The calls that `run` and `events_handle` make on sockets, with their answers. -/
inductive Syscall
  | accept (fd conn : Fd)
  | read (fd : Fd) (count : ℕ) (result : ReadResult)
  | write (fd : Fd) (offered : List UInt8) (result : WriteResult)
  | ctlAdd (fd : Fd)
  | ctlMod (fd : Fd)
  | ctlDel (fd : Fd)
  | close (fd : Fd)
  deriving DecidableEq

def Syscall.fd : Syscall → Fd
  | accept fd _ | read fd _ _ | write fd _ _ | ctlAdd fd | ctlMod fd | ctlDel fd | close fd => fd

structure State where
  kernel : Kernel Fd EpollData
  heap : Ptr → Option Block
  ev : EpollData
  pending : List (Epoll.Report Fd EpollData)
  trace : List Syscall

inductive Result
  | ret (s : State)
  | exit
  | fault
  | refused

structure Answers where
  conn : Option Fd
  buf : Ptr
  ed : Ptr
  reads : List ReadResult
  writes : List WriteResult

inductive ReadExit
  | drained (buf : Buffer) (count : ℕ)
  | timedOut (buf : Buffer)
  | failed
  | overrun
  | unfinished

inductive WriteExit
  | sent
  | failed
  | unfinished
  deriving DecidableEq

/-- The read loop: each call asks for 1024 bytes at `buf + count`. -/
def readLoop (fd : Fd) (buf : Buffer) (count : ℕ) : List ReadResult → List Syscall × ReadExit
  | [] => ([], .unfinished)
  | r :: rs =>
      match r with
      | .bytes chunk =>
          if MAX_BUF < count + chunk.length then ([.read fd count r], .overrun)
          else
            let rest := readLoop fd (buf.store count chunk) (count + chunk.length) rs
            (.read fd count r :: rest.1, rest.2)
      | .eof => ([.read fd count r], .drained buf count)
      | .eagain => ([.read fd count r], .drained buf count)
      | .etimedout => ([.read fd count r], .timedOut buf)
      | .error => ([.read fd count r], .failed)

/-- The write loop: each call offers the bytes from `send_pos` to `total`. -/
def writeLoop (fd : Fd) (send_buf : Buffer) (total send_pos : ℕ) :
    List WriteResult → List Syscall × WriteExit
  | [] => ([], .unfinished)
  | r :: rs =>
      let call := Syscall.write fd (send_buf.slice send_pos (total - send_pos)) r
      match r with
      | .wrote n =>
          if total - send_pos < n then ([call], .unfinished)
          else if total = send_pos + n then ([call], .sent)
          else
            let rest := writeLoop fd send_buf total (send_pos + n) rs
            (call :: rest.1, rest.2)
      | .eagain =>
          let rest := writeLoop fd send_buf total send_pos rs
          (call :: rest.1, rest.2)
      | .error => ([call], .failed)

def ReadResult.valid : ReadResult → Bool
  | bytes chunk => 0 < chunk.length && chunk.length ≤ 1024
  | _ => true

def ReadResult.received : ReadResult → List UInt8
  | bytes chunk => chunk
  | _ => []

/-- Every call returns between 1 and 1024 bytes or none, and the drain is short. -/
def validReads (reads : List ReadResult) : Bool :=
  reads.all ReadResult.valid && (reads.flatMap ReadResult.received).length < MAX_BUF

/-- `epoll_ctl(epfd, EPOLL_CTL_DEL, fd, &ev)`, then `close(fd)`. -/
def closeConn (s : State) (fd : Fd) : Result :=
  match s.kernel.delete fd with
  | none => .exit
  | some k => .ret { s with kernel := k.close fd, trace := s.trace ++ [.ctlDel fd, .close fd] }

/-- The hand-over: the buffer goes to a new `echo_data` that the registration points to. -/
def handOver (listen_sock : Fd) (s : State) (fd : Fd) (buf : Buffer) (a : Answers) : Result :=
  match buf.strlen MAX_BUF with
  | none => .fault
  | some _ =>
      if (s.heap a.ed).isSome ∨ (EpollData.setPtr a.ed).fd = listen_sock then .refused
      else
        match s.kernel.modify fd ⟨EPOLLOUT ||| EPOLLET, EpollData.setPtr a.ed⟩ with
        | none => .exit
        | some k =>
            .ret { s with
              kernel := k
              heap := Function.update s.heap a.ed (some (.echo ⟨a.buf, fd⟩))
              trace := s.trace ++ [.ctlMod fd] }

def handleIn (listen_sock : Fd) (s : State) (data : EpollData) (a : Answers) : Result :=
  if data.stored = .ptr then .fault
  else if (s.heap a.buf).isSome ∨ validReads a.reads = false then .refused
  else
    match readLoop data.fd Buffer.zero 0 a.reads with
    | (_, .unfinished) => .refused
    | (_, .overrun) => .fault
    | (_, .failed) => .exit
    | (calls, .timedOut buf) =>
        closeConn { s with
          heap := Function.update s.heap a.buf (some (.buf buf))
          trace := s.trace ++ calls } data.fd
    | (calls, .drained buf count) =>
        let s := { s with
          heap := Function.update s.heap a.buf (some (.buf buf))
          trace := s.trace ++ calls }
        if count = 0 then closeConn s data.fd else handOver listen_sock s data.fd buf a

/-- The re-registration after the write loop, and the two calls of `free`. -/
def rearm (s : State) (data : EpollData) (ed : EchoData) : Result :=
  match s.kernel.modify ed.fd ⟨EPOLLIN ||| EPOLLET, data.setFd ed.fd⟩ with
  | none => .exit
  | some k =>
      .ret { s with
        kernel := k
        heap := Function.update (Function.update s.heap ed.data none) data.ptr none
        trace := s.trace ++ [.ctlMod ed.fd] }

def handleOut (s : State) (data : EpollData) (a : Answers) : Result :=
  if data.stored = .fd then .fault
  else
    match s.heap data.ptr with
    | some (.echo ed) =>
        match s.heap ed.data with
        | some (.buf buf) =>
            match buf.strlen MAX_BUF with
            | none => .fault
            | some total =>
                match writeLoop ed.fd buf total 0 a.writes with
                | (_, .unfinished) => .refused
                | (_, .failed) => .exit
                | (calls, .sent) => rearm { s with trace := s.trace ++ calls } data ed
        | _ => .fault
    | _ => .fault

def eventsHandle (listen_sock : Fd) (s : State) (events : Events) (data : EpollData)
    (a : Answers) : Result :=
  if Epoll.has events EPOLLIN then handleIn listen_sock s data a
  else if Epoll.has events EPOLLOUT then handleOut s data a
  else .ret s

/-- The accepting branch of `run`; `ev` is the local variable that the loop reuses. -/
def acceptConn (listen_sock : Fd) (s : State) (a : Answers) : Result :=
  match a.conn with
  | none => .exit
  | some conn_sock =>
      match s.kernel.accept conn_sock with
      | none => .refused
      | some k =>
          match k.add conn_sock ⟨EPOLLIN ||| EPOLLET, s.ev.setFd conn_sock⟩ with
          | none => .exit
          | some k' =>
              .ret { s with
                kernel := k'
                ev := s.ev.setFd conn_sock
                trace := s.trace ++ [.accept listen_sock conn_sock, .ctlAdd conn_sock] }

/-- One iteration of the loop over the reported events. -/
def handleNext (listen_sock : Fd) (s : State) (a : Answers) : Result :=
  match s.pending with
  | [] => .refused
  | e :: es =>
      if e.data.fd = listen_sock then acceptConn listen_sock { s with pending := es } a
      else eventsHandle listen_sock { s with pending := es } e.events e.data a

inductive Act
  | wait (ready : List (Fd × Events))
  | handle (a : Answers)

def step (listen_sock : Fd) (s : State) : Act → Option State
  | .wait ready =>
      if s.pending = [] then
        (s.kernel.wait MAX_EVENTS ready).map fun es => { s with pending := es }
      else none
  | .handle a =>
      match handleNext listen_sock s a with
      | .ret t => some t
      | _ => none

/-- `word` is what the uninitialised `ev` of `run` happens to hold. -/
def start (listen_sock : Fd) (word : BitVec 64) : State where
  kernel :=
    { file := Function.update (fun _ => none) listen_sock (some 0)
      interest := Function.update (fun _ => none) listen_sock
        (some ⟨EPOLLIN, EpollData.setFd ⟨word, .ptr⟩ listen_sock⟩)
      next := 1 }
  heap := fun _ => none
  ev := EpollData.setFd ⟨word, .ptr⟩ listen_sock
  pending := []
  trace := []

def server (listen_sock : Fd) (word : BitVec 64) : Machine State Act where
  init := start listen_sock word
  step := step listen_sock

end Londa.LongConnection
