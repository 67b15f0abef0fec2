import Londa.Machine
import Londa.Epoll
import Londa.Buffer
import Londa.Transfers

/-!
# The epoll echo server with one buffer

Model of `do_epoll` and its handlers in
`code/network/IO/multiplexing/via_epoll/server.cpp`. All connections share the
array `buf` of `do_epoll`: `do_read` stores what it read at its start, `do_write`
sends the string that `buf` holds and clears it. Results of `epoll_ctl` are
ignored by the code, so a failing call leaves the kernel as it is.

The kernel answers the one call that the handling of an event makes on a socket;
`none` stands for the result `-1`. Where `buf` holds no zero byte, `strlen` runs
on into the bytes behind it, up to the first zero byte there; these bytes are
part of the answers. `log` is the history of the transfers, each with the
connection behind the descriptor at the time of the call.
-/

namespace Londa.ViaEpoll

open Epoll (Events Kernel Current EPOLLIN EPOLLOUT)

def MAXSIZE : ℕ := 1024

def EPOLLEVENTS : ℕ := 100

structure State where
  kernel : Kernel ℕ ℕ
  buf : Buffer
  pending : List (Epoll.Report ℕ ℕ)
  log : List (Transfer ℕ)

structure Answers where
  accept : Option ℕ
  read : Option (List UInt8)
  write : Option ℕ
  behind : List UInt8

def addEvent (k : Kernel ℕ ℕ) (fd : ℕ) (state : Events) : Kernel ℕ ℕ :=
  (k.add fd ⟨state, fd⟩).getD k

def deleteEvent (k : Kernel ℕ ℕ) (fd : ℕ) : Kernel ℕ ℕ := (k.delete fd).getD k

def modifyEvent (k : Kernel ℕ ℕ) (fd : ℕ) (state : Events) : Kernel ℕ ℕ :=
  (k.modify fd ⟨state, fd⟩).getD k

def State.record (s : State) (fd : ℕ) (dir : Dir) (bytes : List UInt8) : State :=
  match s.kernel.file fd with
  | none => s
  | some c => { s with log := s.log ++ [⟨c, dir, bytes⟩] }

def handleAccpet (s : State) (a : Answers) : Option State :=
  match a.accept with
  | none => some s
  | some clifd =>
      (s.kernel.accept clifd).map fun k => { s with kernel := addEvent k clifd EPOLLIN }

/-- The failing branches: `close(fd)` comes before `delete_event`. -/
def hangUp (s : State) (fd : ℕ) : State :=
  { s with kernel := deleteEvent (s.kernel.close fd) fd }

def doRead (s : State) (fd : ℕ) (a : Answers) : Option State :=
  match a.read with
  | none => some (hangUp s fd)
  | some [] => some (hangUp s fd)
  | some chunk =>
      if MAXSIZE < chunk.length then none
      else
        let s := s.record fd .read chunk
        some { s with
          buf := s.buf.store 0 chunk
          kernel := modifyEvent s.kernel fd EPOLLOUT }

/-- The bytes that `write(fd, buf, strlen(buf))` offers. -/
def offered (buf : Buffer) (behind : List UInt8) : List UInt8 :=
  match buf.strlen MAXSIZE with
  | some n => buf.slice 0 n
  | none => buf.slice 0 MAXSIZE ++ behind

def doWrite (s : State) (fd : ℕ) (a : Answers) : Option State :=
  match a.write with
  | none => some { hangUp s fd with buf := Buffer.zero }
  | some nwrite =>
      if (offered s.buf a.behind).length < nwrite then none
      else
        let s := s.record fd .write ((offered s.buf a.behind).take nwrite)
        some { s with
          buf := Buffer.zero
          kernel := modifyEvent s.kernel fd EPOLLIN }

/-- One iteration of the loop of `handle_events`; `fd` is `events[i].data.fd`. -/
def handleEvent (listenfd : ℕ) (s : State) (events : Events) (fd : ℕ) (a : Answers) :
    Option State :=
  if fd = listenfd ∧ Epoll.has events EPOLLIN then handleAccpet s a
  else if Epoll.has events EPOLLIN then doRead s fd a
  else if Epoll.has events EPOLLOUT then doWrite s fd a
  else some s

inductive Act
  | wait (ready : List (ℕ × Events))
  | handle (a : Answers)

def step (listenfd : ℕ) (s : State) : Act → Option State
  | .wait ready =>
      if s.pending = [] then
        (s.kernel.wait EPOLLEVENTS ready).map fun es => { s with pending := es }
      else none
  | .handle a =>
      match s.pending with
      | [] => none
      | e :: es => handleEvent listenfd { s with pending := es } e.events e.data a

def start (listenfd : ℕ) : State where
  kernel := addEvent (Kernel.single listenfd) listenfd EPOLLIN
  buf := Buffer.zero
  pending := []
  log := []

def server (listenfd : ℕ) : Machine State Act where
  init := start listenfd
  step := step listenfd

/-- The steps of the server. A handled entry `e` reads or writes on the connection
`c` behind the descriptor `e.data`, if one is open. -/
inductive Trans (listenfd : ℕ) (s : State) : Act → State → Prop
  | wait (ready : List (ℕ × Events)) (es : List (Epoll.Report ℕ ℕ)) :
      s.pending = [] → Current s.kernel es →
      Trans listenfd s (.wait ready) { s with pending := es }
  | accept (a : Answers) (e : Epoll.Report ℕ ℕ) (es : List (Epoll.Report ℕ ℕ)) (clifd : ℕ)
      (k : Kernel ℕ ℕ) :
      s.pending = e :: es → e.data = listenfd → s.kernel.accept clifd = some k →
      Trans listenfd s (.handle a)
        { s with kernel := addEvent k clifd EPOLLIN, pending := es }
  | idle (a : Answers) (e : Epoll.Report ℕ ℕ) (es : List (Epoll.Report ℕ ℕ)) :
      s.pending = e :: es → Trans listenfd s (.handle a) { s with pending := es }
  | hangUp (a : Answers) (e : Epoll.Report ℕ ℕ) (es : List (Epoll.Report ℕ ℕ)) (buf : Buffer) :
      s.pending = e :: es →
      (buf = s.buf ∧ e.data ≠ listenfd ∧ Epoll.has e.events EPOLLIN ∨
        buf = Buffer.zero ∧ Epoll.has e.events EPOLLOUT) →
      Trans listenfd s (.handle a)
        { s with
          kernel := deleteEvent (s.kernel.close e.data) e.data
          buf := buf
          pending := es }
  | read (a : Answers) (e : Epoll.Report ℕ ℕ) (es : List (Epoll.Report ℕ ℕ))
      (chunk : List UInt8) :
      s.pending = e :: es → e.data ≠ listenfd → Epoll.has e.events EPOLLIN →
      a.read = some chunk → chunk ≠ [] → chunk.length ≤ MAXSIZE →
      Trans listenfd s (.handle a)
        { ({ s with pending := es } : State).record e.data .read chunk with
          buf := s.buf.store 0 chunk
          kernel := modifyEvent s.kernel e.data EPOLLOUT }
  | write (a : Answers) (e : Epoll.Report ℕ ℕ) (es : List (Epoll.Report ℕ ℕ)) (nwrite : ℕ) :
      s.pending = e :: es → Epoll.has e.events EPOLLOUT →
      a.write = some nwrite → nwrite ≤ (offered s.buf a.behind).length →
      Trans listenfd s (.handle a)
        { ({ s with pending := es } : State).record e.data .write
            ((offered s.buf a.behind).take nwrite) with
          buf := Buffer.zero
          kernel := modifyEvent s.kernel e.data EPOLLIN }

variable {listenfd : ℕ} {s t : State}

@[simp] theorem record_kernel (fd : ℕ) (dir : Dir) (bytes : List UInt8) :
    (s.record fd dir bytes).kernel = s.kernel := by
  unfold State.record
  split <;> rfl

@[simp] theorem record_buf (fd : ℕ) (dir : Dir) (bytes : List UInt8) :
    (s.record fd dir bytes).buf = s.buf := by
  unfold State.record
  split <;> rfl

@[simp] theorem record_pending (fd : ℕ) (dir : Dir) (bytes : List UInt8) :
    (s.record fd dir bytes).pending = s.pending := by
  unfold State.record
  split <;> rfl

theorem record_log {fd c : ℕ} {dir : Dir} {bytes : List UInt8} (h : s.kernel.file fd = some c) :
    (s.record fd dir bytes).log = s.log ++ [⟨c, dir, bytes⟩] := by
  unfold State.record
  rw [h]

theorem handleAccpet_trans {a : Answers} {e : Epoll.Report ℕ ℕ} {es : List (Epoll.Report ℕ ℕ)}
    (hp : s.pending = e :: es) (hfd : e.data = listenfd)
    (h : handleAccpet { s with pending := es } a = some t) :
    Trans listenfd s (.handle a) t := by
  unfold handleAccpet at h
  split at h
  · obtain rfl := Option.some.inj h
    exact .idle a e es hp
  · rename_i clifd _
    obtain ⟨k, hk, rfl⟩ := Option.map_eq_some_iff.1 h
    exact .accept a e es clifd k hp hfd hk

theorem doRead_trans {a : Answers} {e : Epoll.Report ℕ ℕ} {es : List (Epoll.Report ℕ ℕ)}
    (hp : s.pending = e :: es) (hfd : e.data ≠ listenfd) (hin : Epoll.has e.events EPOLLIN)
    (h : doRead { s with pending := es } e.data a = some t) : Trans listenfd s (.handle a) t := by
  unfold doRead at h
  split at h
  · obtain rfl := Option.some.inj h
    exact .hangUp a e es s.buf hp (Or.inl ⟨rfl, hfd, hin⟩)
  · obtain rfl := Option.some.inj h
    exact .hangUp a e es s.buf hp (Or.inl ⟨rfl, hfd, hin⟩)
  · rename_i chunk hne hread
    split at h
    · cases h
    · rename_i hlen
      obtain rfl := Option.some.inj h
      simp only [record_kernel, record_buf]
      exact .read a e es chunk hp hfd hin hread hne (Nat.le_of_not_lt hlen)

theorem doWrite_trans {a : Answers} {e : Epoll.Report ℕ ℕ} {es : List (Epoll.Report ℕ ℕ)}
    (hp : s.pending = e :: es) (hout : Epoll.has e.events EPOLLOUT)
    (h : doWrite { s with pending := es } e.data a = some t) : Trans listenfd s (.handle a) t := by
  unfold doWrite at h
  split at h
  · obtain rfl := Option.some.inj h
    exact .hangUp a e es Buffer.zero hp (Or.inr ⟨rfl, hout⟩)
  · rename_i nwrite hwrite
    split at h
    · cases h
    · rename_i hlen
      obtain rfl := Option.some.inj h
      simp only [record_kernel]
      exact .write a e es nwrite hp hout hwrite (Nat.le_of_not_lt hlen)

theorem step_trans {a : Act} (h : step listenfd s a = some t) : Trans listenfd s a t := by
  cases a with
  | wait ready =>
      simp only [step] at h
      split at h
      · rename_i hp
        obtain ⟨es, hes, rfl⟩ := Option.map_eq_some_iff.1 h
        exact .wait ready es hp (Current.of_wait hes)
      · cases h
  | handle a =>
      simp only [step] at h
      split at h
      · cases h
      · rename_i e es hp
        unfold handleEvent at h
        by_cases hin : Epoll.has e.events EPOLLIN
        · by_cases hfd : e.data = listenfd
          · rw [if_pos ⟨hfd, hin⟩] at h
            exact handleAccpet_trans hp hfd h
          · rw [if_neg (fun hc => hfd hc.1), if_pos hin] at h
            exact doRead_trans hp hfd hin h
        · rw [if_neg (fun hc => hin hc.2), if_neg hin] at h
          split at h
          · rename_i hout
            exact doWrite_trans hp hout h
          · obtain rfl := Option.some.inj h
            exact .idle a e es hp

end Londa.ViaEpoll
