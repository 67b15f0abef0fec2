import Londa.ViaEpollRegistration

/-!
# The epoll client

Model of `handle_connection` and its handlers in
`code/network/IO/multiplexing/via_epoll/client.cpp`. A line from standard input goes into
`buf` and the socket is registered for `EPOLLOUT`; when it is sent, the socket waits for the
reply with `EPOLLIN`; the reply goes into the same `buf`, the socket is taken out and standard
output is registered for `EPOLLOUT`. Standard input stays registered all the time. `add_event`,
`delete_event` and `modify_event` are those of the server, and their results are ignored.

`memory` is what the uninitialised `buf` happens to hold. The kernel answers the one call that
the handling of an event makes; `none` stands for the result `-1`, which is the only answer on
a descriptor that is not open. `log` is the history of the transfers on the descriptors.
-/

namespace Londa.ViaEpollClient

open Epoll (Events Kernel Current EPOLLIN EPOLLOUT)
open ViaEpoll (MAXSIZE addEvent deleteEvent modifyEvent offered addEvent_cases addEvent_agreeOff
  deleteEvent_spec)

def STDIN_FILENO : ℕ := 0

def STDOUT_FILENO : ℕ := 1

def EPOLLEVENTS : ℕ := 20

structure State where
  kernel : Kernel ℕ ℕ
  buf : Buffer
  pending : List (Epoll.Report ℕ ℕ)
  log : List (Transfer ℕ)

structure Answers where
  read : Option (List UInt8)
  write : Option ℕ
  behind : List UInt8

/-- What `do_read` does to the registrations after it has read something. -/
def forward (sockfd : ℕ) (k : Kernel ℕ ℕ) (fd : ℕ) : Kernel ℕ ℕ :=
  if fd = STDIN_FILENO then addEvent k sockfd EPOLLOUT
  else addEvent (deleteEvent k sockfd) STDOUT_FILENO EPOLLOUT

def doRead (sockfd : ℕ) (s : State) (fd : ℕ) (a : Answers) : Option State :=
  match a.read with
  | none => some { s with kernel := s.kernel.close fd }
  | some [] => some { s with kernel := s.kernel.close fd }
  | some chunk =>
      if MAXSIZE < chunk.length ∨ s.kernel.file fd = none then none
      else
        some { s with
          kernel := forward sockfd s.kernel fd
          buf := s.buf.store 0 chunk
          log := s.log ++ [⟨fd, .read, chunk⟩] }

/-- What `do_write` does to the registrations after it has written something. -/
def settle (k : Kernel ℕ ℕ) (fd : ℕ) : Kernel ℕ ℕ :=
  if fd = STDOUT_FILENO then deleteEvent k fd else modifyEvent k fd EPOLLIN

def doWrite (s : State) (fd : ℕ) (a : Answers) : Option State :=
  match a.write with
  | none => some { s with kernel := s.kernel.close fd, buf := Buffer.zero }
  | some nwrite =>
      if (offered s.buf a.behind).length < nwrite ∨ s.kernel.file fd = none then none
      else
        some { s with
          kernel := settle s.kernel fd
          buf := Buffer.zero
          log := s.log ++ [⟨fd, .write, (offered s.buf a.behind).take nwrite⟩] }

/-- One iteration of the loop of `handle_events`; `fd` is `events[i].data.fd`. -/
def handleEvent (sockfd : ℕ) (s : State) (events : Events) (fd : ℕ) (a : Answers) :
    Option State :=
  if Epoll.has events EPOLLIN then doRead sockfd s fd a
  else if Epoll.has events EPOLLOUT then doWrite s fd a
  else some s

inductive Act
  | wait (ready : List (ℕ × Events))
  | handle (a : Answers)

def step (sockfd : ℕ) (s : State) : Act → Option State
  | .wait ready =>
      if s.pending = [] then
        (s.kernel.wait EPOLLEVENTS ready).map fun es => { s with pending := es }
      else none
  | .handle a =>
      match s.pending with
      | [] => none
      | e :: es => handleEvent sockfd { s with pending := es } e.events e.data a

/-- Standard input, standard output and the socket are open. -/
def connected (sockfd : ℕ) : Kernel ℕ ℕ where
  file fd :=
    if fd = STDIN_FILENO then some 0 else if fd = STDOUT_FILENO then some 1
    else if fd = sockfd then some 2 else none
  interest _ := none
  next := 3

def start (sockfd : ℕ) (memory : Buffer) : State where
  kernel := addEvent (connected sockfd) STDIN_FILENO EPOLLIN
  buf := memory
  pending := []
  log := []

def client (sockfd : ℕ) (memory : Buffer) : Machine State Act where
  init := start sockfd memory
  step := step sockfd

/-- The length of the string in `buf`. -/
def held (s : State) : ℕ := (s.buf.strlen MAXSIZE).getD MAXSIZE

/-- What was written to `dst` is the beginning of what was read from `src`, and falls short
of it by no more than what `buf` holds. -/
def Relayed (s : State) (src dst : ℕ) : Prop :=
  Transfers.sent s.log dst <+: Transfers.received s.log src ∧
    (Transfers.received s.log src).length ≤ (Transfers.sent s.log dst).length + held s

def Relays (sockfd : ℕ) (s : State) : Prop :=
  Relayed s STDIN_FILENO sockfd ∧ Relayed s sockfd STDOUT_FILENO

instance (s : State) (src dst : ℕ) : Decidable (Relayed s src dst) :=
  inferInstanceAs (Decidable (_ ∧ _))

instance (sockfd : ℕ) (s : State) : Decidable (Relays sockfd s) :=
  inferInstanceAs (Decidable (_ ∧ _))

/-- Chunks are shorter than `buf` and hold no zero byte, and writes accept all bytes. -/
def plain (s : State) : Act → Bool
  | .wait _ => true
  | .handle a =>
      match s.pending with
      | [] => true
      | e :: _ =>
          if Epoll.has e.events EPOLLIN then
            a.read.all fun chunk => decide (chunk.length < MAXSIZE ∧ (0 : UInt8) ∉ chunk)
          else decide (a.write = some (offered s.buf a.behind).length)

/-- Bytes are read while `buf` holds nothing. Before the first read `buf` is not cleared:
there the byte behind the chunk is zero. -/
def clear (s : State) : Act → Bool
  | .wait _ => true
  | .handle a =>
      match s.pending, a.read with
      | e :: _, some chunk =>
          if Epoll.has e.events EPOLLIN ∧ chunk ≠ [] then
            s.buf (if s.log = [] then chunk.length else 0) == 0
          else true
      | _, _ => true

/-- What a step can do. -/
inductive Trans (sockfd : ℕ) (s : State) : Act → State → Prop
  | wait (ready : List (ℕ × Events)) (es : List (Epoll.Report ℕ ℕ)) :
      s.pending = [] → Current s.kernel es →
      Trans sockfd s (.wait ready) { s with pending := es }
  | idle (a : Answers) (e : Epoll.Report ℕ ℕ) (es : List (Epoll.Report ℕ ℕ)) :
      s.pending = e :: es → Trans sockfd s (.handle a) { s with pending := es }
  | closed (a : Answers) (e : Epoll.Report ℕ ℕ) (es : List (Epoll.Report ℕ ℕ)) :
      s.pending = e :: es → Epoll.has e.events EPOLLIN →
      Trans sockfd s (.handle a) { s with kernel := s.kernel.close e.data, pending := es }
  | read (a : Answers) (e : Epoll.Report ℕ ℕ) (es : List (Epoll.Report ℕ ℕ))
      (chunk : List UInt8) : s.pending = e :: es → Epoll.has e.events EPOLLIN →
      a.read = some chunk → chunk ≠ [] →
      Trans sockfd s (.handle a)
        { s with
          kernel := forward sockfd s.kernel e.data
          buf := s.buf.store 0 chunk
          pending := es
          log := s.log ++ [⟨e.data, .read, chunk⟩] }
  | failed (a : Answers) (e : Epoll.Report ℕ ℕ) (es : List (Epoll.Report ℕ ℕ)) :
      s.pending = e :: es → ¬ Epoll.has e.events EPOLLIN → Epoll.has e.events EPOLLOUT →
      a.write = none →
      Trans sockfd s (.handle a)
        { s with kernel := s.kernel.close e.data, buf := Buffer.zero, pending := es }
  | write (a : Answers) (e : Epoll.Report ℕ ℕ) (es : List (Epoll.Report ℕ ℕ)) (nwrite : ℕ) :
      s.pending = e :: es → ¬ Epoll.has e.events EPOLLIN → Epoll.has e.events EPOLLOUT →
      a.write = some nwrite →
      Trans sockfd s (.handle a)
        { s with
          kernel := settle s.kernel e.data
          buf := Buffer.zero
          pending := es
          log := s.log ++ [⟨e.data, .write, (offered s.buf a.behind).take nwrite⟩] }

variable {sockfd : ℕ} {memory : Buffer} {s t : State}

theorem doRead_trans {a : Answers} {e : Epoll.Report ℕ ℕ} {es : List (Epoll.Report ℕ ℕ)}
    (hp : s.pending = e :: es) (hin : Epoll.has e.events EPOLLIN)
    (h : doRead sockfd { s with pending := es } e.data a = some t) :
    Trans sockfd s (.handle a) t := by
  unfold doRead at h
  split at h
  · cases h
    exact .closed a e es hp hin
  · cases h
    exact .closed a e es hp hin
  · rename_i chunk hne hread
    split at h
    · cases h
    · cases h
      exact .read a e es chunk hp hin hread hne

theorem doWrite_trans {a : Answers} {e : Epoll.Report ℕ ℕ} {es : List (Epoll.Report ℕ ℕ)}
    (hp : s.pending = e :: es) (hin : ¬ Epoll.has e.events EPOLLIN)
    (hout : Epoll.has e.events EPOLLOUT)
    (h : doWrite { s with pending := es } e.data a = some t) : Trans sockfd s (.handle a) t := by
  unfold doWrite at h
  split at h
  · rename_i hwrite
    cases h
    exact .failed a e es hp hin hout hwrite
  · rename_i nwrite hwrite
    split at h
    · cases h
    · cases h
      exact .write a e es nwrite hp hin hout hwrite

theorem step_trans {a : Act} (h : step sockfd s a = some t) : Trans sockfd s a t := by
  cases a with
  | wait ready =>
      simp only [step] at h
      split at h
      · rename_i hp
        obtain ⟨es, hes, rfl⟩ := Option.map_eq_some_iff.1 h
        exact .wait ready es hp (Current.of_wait hes)
      · cases h
  | handle a =>
      simp only [step] at h
      split at h
      · cases h
      · rename_i e es hp
        unfold handleEvent at h
        split at h
        · rename_i hin
          exact doRead_trans hp hin h
        · rename_i hin
          split at h
          · rename_i hout
            exact doWrite_trans hp hin hout h
          · cases h
            exact .idle a e es hp

/-- `x` is what standard input is ahead of the socket, `y` what the socket is ahead of
standard output. -/
def Ahead (sockfd : ℕ) (log : List (Transfer ℕ)) (x y : List UInt8) : Prop :=
  Transfers.received log STDIN_FILENO = Transfers.sent log sockfd ++ x ∧
    Transfers.received log sockfd = Transfers.sent log STDOUT_FILENO ++ y

/-- The string in `buf` is `c`. -/
def Contains (buf : Buffer) (c : List UInt8) : Prop :=
  buf.strlen MAXSIZE = some c.length ∧ buf.slice 0 c.length = c

/-- `buf` holds nothing, or a chunk that was read and is not written yet. While it holds a line
standard output is not registered, and otherwise the socket does not ask for `EPOLLOUT`. -/
inductive Phase (sockfd : ℕ) (s : State) : Prop
  | idle : s.kernel.interest sockfd ≠ some ⟨EPOLLOUT, sockfd⟩ →
      s.kernel.interest STDOUT_FILENO = none → s.log = [] ∨ s.buf = Buffer.zero →
      Ahead sockfd s.log [] [] → Phase sockfd s
  | line (c : List UInt8) : c ≠ [] → s.kernel.interest STDOUT_FILENO = none →
      Contains s.buf c → Ahead sockfd s.log c [] → Phase sockfd s
  | reply (c : List UInt8) : c ≠ [] → s.kernel.interest sockfd ≠ some ⟨EPOLLOUT, sockfd⟩ →
      Contains s.buf c → Ahead sockfd s.log [] c → Phase sockfd s

/-- Standard input is registered for input, standard output for output, and the socket for
one of the two. -/
def Registered (sockfd : ℕ) (k : Kernel ℕ ℕ) : Prop :=
  ∀ fd r, k.interest fd = some r → r.data = fd ∧
    (r.events = EPOLLIN ∧ (fd = STDIN_FILENO ∨ fd = sockfd) ∨
      r.events = EPOLLOUT ∧ (fd = STDOUT_FILENO ∨ fd = sockfd))

structure Inv (sockfd : ℕ) (s : State) : Prop where
  phase : Phase sockfd s
  registered : Registered sockfd s.kernel
  current : Current s.kernel s.pending

theorem stdin_ne (h : 1 < sockfd) : STDIN_FILENO ≠ sockfd := by
  unfold STDIN_FILENO
  omega

theorem stdout_ne (h : 1 < sockfd) : STDOUT_FILENO ≠ sockfd := by
  unfold STDOUT_FILENO
  omega

theorem contains_held {c : List UInt8} (h : Contains s.buf c) : held s = c.length := by
  unfold held
  rw [h.1]
  rfl

theorem relayed_of_ahead {src dst : ℕ} {x : List UInt8}
    (h : Transfers.received s.log src = Transfers.sent s.log dst ++ x) (hx : x.length ≤ held s) :
    Relayed s src dst := by
  refine ⟨⟨x, h.symm⟩, ?_⟩
  rw [h, List.length_append]
  omega

theorem Phase.relays (h : Phase sockfd s) : Relays sockfd s := by
  cases h with
  | idle _ _ _ ha =>
      exact ⟨relayed_of_ahead ha.1 (Nat.zero_le _), relayed_of_ahead ha.2 (Nat.zero_le _)⟩
  | line c _ _ hc ha =>
      exact ⟨relayed_of_ahead ha.1 (contains_held hc).ge, relayed_of_ahead ha.2 (Nat.zero_le _)⟩
  | reply c _ _ hc ha =>
      exact ⟨relayed_of_ahead ha.1 (Nat.zero_le _), relayed_of_ahead ha.2 (contains_held hc).ge⟩

theorem contains_store {buf : Buffer} {c : List UInt8} (hlen : c.length < MAXSIZE)
    (hnul : (0 : UInt8) ∉ c) (hz : buf c.length = 0) : Contains (buf.store 0 c) c := by
  refine ⟨Buffer.strlen_eq_some.2 ⟨hlen, ?_, fun j hj => Buffer.store_ne_zero hnul hj⟩,
    Buffer.slice_store⟩
  rw [Buffer.store_of_ge (by omega), hz]

theorem contains_offered {buf : Buffer} {c : List UInt8} (h : Contains buf c)
    (behind : List UInt8) : offered buf behind = c := by
  unfold offered
  rw [h.1]
  exact h.2

theorem Contains.head_ne_zero {buf : Buffer} {c : List UInt8} (h : Contains buf c)
    (hc : c ≠ []) : buf 0 ≠ 0 :=
  (Buffer.strlen_eq_some.1 h.1).2.2 0 (List.length_pos_iff.2 hc)

theorem Ahead.log_ne_nil {log : List (Transfer ℕ)} {x y : List UInt8} (h : Ahead sockfd log x y)
    (hxy : x ≠ [] ∨ y ≠ []) : log ≠ [] := by
  rintro rfl
  rcases hxy with hx | hy
  · exact hx h.1.symm
  · exact hy h.2.symm

namespace Ahead

variable {log : List (Transfer ℕ)} {c : List UInt8}

theorem read_line (h : Ahead sockfd log [] []) (hin : STDIN_FILENO ≠ sockfd) :
    Ahead sockfd (log ++ [⟨STDIN_FILENO, .read, c⟩]) c [] := by
  unfold Ahead
  rw [Transfers.received_append_read, Transfers.received_append_of_ne _ _ _ _ _ hin,
    Transfers.sent_append_read, Transfers.sent_append_read, h.1, List.append_nil]
  exact ⟨rfl, h.2⟩

theorem read_reply (h : Ahead sockfd log [] []) (hin : STDIN_FILENO ≠ sockfd) :
    Ahead sockfd (log ++ [⟨sockfd, .read, c⟩]) [] c := by
  unfold Ahead
  rw [Transfers.received_append_read, Transfers.received_append_of_ne _ _ _ _ _ hin.symm,
    Transfers.sent_append_read, Transfers.sent_append_read, h.2,
    List.append_nil (Transfers.sent log STDOUT_FILENO)]
  exact ⟨h.1, rfl⟩

theorem write_line (h : Ahead sockfd log c []) (hout : STDOUT_FILENO ≠ sockfd) :
    Ahead sockfd (log ++ [⟨sockfd, .write, c⟩]) [] [] := by
  unfold Ahead
  rw [Transfers.sent_append_write, Transfers.sent_append_of_ne _ _ _ _ _ hout.symm,
    Transfers.received_append_write, Transfers.received_append_write, h.1, List.append_nil]
  exact ⟨rfl, h.2⟩

theorem write_reply (h : Ahead sockfd log [] c) (hout : STDOUT_FILENO ≠ sockfd) :
    Ahead sockfd (log ++ [⟨STDOUT_FILENO, .write, c⟩]) [] [] := by
  unfold Ahead
  rw [Transfers.sent_append_write, Transfers.sent_append_of_ne _ _ _ _ _ hout,
    Transfers.received_append_write, Transfers.received_append_write, h.2,
    List.append_nil (Transfers.sent log STDOUT_FILENO ++ c)]
  exact ⟨h.1, rfl⟩

end Ahead

section Registrations

variable {k k' : Kernel ℕ ℕ} {fd : ℕ} {state : Events}

theorem forward_stdin : forward sockfd k STDIN_FILENO = addEvent k sockfd EPOLLOUT := if_pos rfl

theorem settle_stdout : settle k STDOUT_FILENO = deleteEvent k STDOUT_FILENO := if_pos rfl

theorem current_addEvent {es : List (Epoll.Report ℕ ℕ)} (h : Current k es) :
    Current (addEvent k fd state) es := by
  rcases addEvent_cases k fd state with heq | ⟨hnone, -, hoff⟩
  · rwa [heq]
  · refine h.of_agreeOff hoff (fun x hx heq => ?_)
    obtain ⟨-, r, hr, -⟩ := h.reports x hx
    rw [heq, hnone] at hr
    cases hr

namespace Registered

theorem of_agreeOff (h : Registered sockfd k) (hoff : Kernel.AgreeOff fd k k')
    (hfd : ∀ r, k'.interest fd = some r → r.data = fd ∧
      (r.events = EPOLLIN ∧ (fd = STDIN_FILENO ∨ fd = sockfd) ∨
        r.events = EPOLLOUT ∧ (fd = STDOUT_FILENO ∨ fd = sockfd))) : Registered sockfd k' := by
  intro x r hr
  by_cases hx : x = fd
  · subst hx
    exact hfd r hr
  · rw [(hoff x hx).2] at hr
    exact h x r hr

theorem addEvent (h : Registered sockfd k)
    (hs : state = EPOLLIN ∧ (fd = STDIN_FILENO ∨ fd = sockfd) ∨
      state = EPOLLOUT ∧ (fd = STDOUT_FILENO ∨ fd = sockfd)) :
    Registered sockfd (addEvent k fd state) := by
  rcases addEvent_cases k fd state with heq | ⟨-, hint, hoff⟩
  · rwa [heq]
  · refine h.of_agreeOff hoff (fun r hr => ?_)
    rw [hint] at hr
    cases hr
    exact ⟨rfl, hs⟩

theorem deleteEvent (h : Registered sockfd k) : Registered sockfd (deleteEvent k fd) := by
  obtain ⟨hint, hoff⟩ := deleteEvent_spec k fd
  refine h.of_agreeOff hoff (fun r hr => ?_)
  rw [hint] at hr
  cases hr

theorem close (h : Registered sockfd k) : Registered sockfd (k.close fd) :=
  fun x r hr => h x r (Kernel.interest_of_close hr)

end Registered

end Registrations

namespace Phase

/-- A phase does not depend on the other registrations. -/
theorem congr (h : Phase sockfd s)
    (hsock : ∀ r, t.kernel.interest sockfd = some r → s.kernel.interest sockfd = some r)
    (hout : ∀ r, t.kernel.interest STDOUT_FILENO = some r →
      s.kernel.interest STDOUT_FILENO = some r)
    (hbuf : t.buf = s.buf) (hlog : t.log = s.log) : Phase sockfd t := by
  have hnone : s.kernel.interest STDOUT_FILENO = none →
      t.kernel.interest STDOUT_FILENO = none := by
    intro hs
    rw [Option.eq_none_iff_forall_ne_some] at hs ⊢
    exact fun r hr => hs r (hout r hr)
  cases h with
  | idle hs ho hb ha =>
      exact .idle (fun hr => hs (hsock _ hr)) (hnone ho) (hbuf ▸ hlog ▸ hb) (hlog ▸ ha)
  | line c hc ho hb ha => exact .line c hc (hnone ho) (hbuf ▸ hb) (hlog ▸ ha)
  | reply c hc hs hb ha => exact .reply c hc (fun hr => hs (hsock _ hr)) (hbuf ▸ hb) (hlog ▸ ha)

/-- Where bytes may be read nothing is held, and the byte behind them is zero. -/
theorem of_clear (h : Phase sockfd s) {n : ℕ} (hz : s.buf (if s.log = [] then n else 0) = 0) :
    s.kernel.interest sockfd ≠ some ⟨EPOLLOUT, sockfd⟩ ∧
      s.kernel.interest STDOUT_FILENO = none ∧ s.buf n = 0 ∧ Ahead sockfd s.log [] [] := by
  cases h with
  | idle hs ho hb ha =>
      refine ⟨hs, ho, ?_, ha⟩
      rcases hb with hlog | hbuf
      · rwa [if_pos hlog] at hz
      · rw [hbuf]
        rfl
  | line c hc ho hb ha =>
      rw [if_neg (ha.log_ne_nil (.inl hc))] at hz
      exact absurd hz (hb.head_ne_zero hc)
  | reply c hc hs hb ha =>
      rw [if_neg (ha.log_ne_nil (.inr hc))] at hz
      exact absurd hz (hb.head_ne_zero hc)

/-- The socket asks for `EPOLLOUT` only while `buf` holds a line. -/
theorem of_socket_out (h : Phase sockfd s)
    (hs : s.kernel.interest sockfd = some ⟨EPOLLOUT, sockfd⟩) :
    ∃ c, Contains s.buf c ∧ s.kernel.interest STDOUT_FILENO = none ∧ Ahead sockfd s.log c [] := by
  cases h with
  | idle hs' _ _ _ | reply c _ hs' _ _ => exact absurd hs hs'
  | line c hc ho hb ha => exact ⟨c, hb, ho, ha⟩

/-- Standard output is registered only while `buf` holds a reply. -/
theorem of_stdout (h : Phase sockfd s) {r : Epoll.Registration ℕ}
    (ho : s.kernel.interest STDOUT_FILENO = some r) :
    ∃ c, Contains s.buf c ∧ s.kernel.interest sockfd ≠ some ⟨EPOLLOUT, sockfd⟩ ∧
      Ahead sockfd s.log [] c := by
  cases h with
  | idle _ ho' _ _ | line c _ ho' _ _ =>
      rw [ho'] at ho
      cases ho
  | reply c hc hs hb ha => exact ⟨c, hb, hs, ha⟩

end Phase

namespace Inv

theorem initial (hsock : 1 < sockfd) (memory : Buffer) : Inv sockfd (start sockfd memory) := by
  have hnone : Registered sockfd (connected sockfd) := fun fd r hr => by cases hr
  have hoff : Kernel.AgreeOff STDIN_FILENO (connected sockfd) (start sockfd memory).kernel :=
    addEvent_agreeOff _ _ _
  refine ⟨.idle ?_ (hoff STDOUT_FILENO (by decide)).2 (.inl rfl) ⟨rfl, rfl⟩,
    hnone.addEvent (.inl ⟨rfl, .inl rfl⟩), Current.nil⟩
  rw [(hoff sockfd (stdin_ne hsock).symm).2]
  nofun

theorem entry_in (h : Inv sockfd s) {e : Epoll.Report ℕ ℕ} {es : List (Epoll.Report ℕ ℕ)}
    (hp : s.pending = e :: es) (hin : Epoll.has e.events EPOLLIN) :
    e.data = e.fd ∧ (e.fd = STDIN_FILENO ∨ e.fd = sockfd) := by
  obtain ⟨-, r, hr, hcov, hdata⟩ := h.current.reports e (hp ▸ List.mem_cons_self)
  obtain ⟨hfd, ⟨-, hwhich⟩ | ⟨hout, -⟩⟩ := h.registered e.fd r hr
  · exact ⟨hdata.trans hfd, hwhich⟩
  · rw [ViaEpoll.no_epollin (hout ▸ hcov)] at hin
    cases hin

theorem entry_out (h : Inv sockfd s) {e : Epoll.Report ℕ ℕ} {es : List (Epoll.Report ℕ ℕ)}
    (hp : s.pending = e :: es) (hout : Epoll.has e.events EPOLLOUT) :
    e.data = e.fd ∧ s.kernel.interest e.fd = some ⟨EPOLLOUT, e.fd⟩ ∧
      (e.fd = STDOUT_FILENO ∨ e.fd = sockfd) := by
  obtain ⟨-, r, hr, hcov, hdata⟩ := h.current.reports e (hp ▸ List.mem_cons_self)
  obtain ⟨hfd, ⟨hin, -⟩ | ⟨hout', hwhich⟩⟩ := h.registered e.fd r hr
  · rw [ViaEpoll.no_epollout (hin ▸ hcov)] at hout
    cases hout
  · refine ⟨hdata.trans hfd, ?_, hwhich⟩
    rw [hr, ← hout', ← hfd]

theorem closed (h : Inv sockfd s) {e : Epoll.Report ℕ ℕ} {es : List (Epoll.Report ℕ ℕ)}
    (hp : s.pending = e :: es) (hdata : e.data = e.fd) :
    Inv sockfd { s with kernel := s.kernel.close e.data, pending := es } := by
  refine ⟨h.phase.congr (fun _ => Kernel.interest_of_close) (fun _ => Kernel.interest_of_close)
    rfl rfl, h.registered.close, ?_⟩
  rw [hdata]
  exact (hp ▸ h.current).handled (s.kernel.close_agreeOff e.fd)

/-- A line is read: whatever `add_event` does with the socket, standard output is left alone. -/
theorem readLine (h : Inv sockfd s) (hsock : 1 < sockfd) {e : Epoll.Report ℕ ℕ}
    {es : List (Epoll.Report ℕ ℕ)} {chunk : List UInt8} (hp : s.pending = e :: es)
    (hne : chunk ≠ []) (hlen : chunk.length < MAXSIZE) (hnul : (0 : UInt8) ∉ chunk)
    (hz : s.buf (if s.log = [] then chunk.length else 0) = 0)
    (hk : t.kernel = addEvent s.kernel sockfd EPOLLOUT) (hbuf : t.buf = s.buf.store 0 chunk)
    (hpt : t.pending = es) (hlog : t.log = s.log ++ [⟨STDIN_FILENO, .read, chunk⟩]) :
    Inv sockfd t := by
  obtain ⟨-, hout, hbehind, ha⟩ := h.phase.of_clear hz
  refine ⟨.line chunk hne ?_ ?_ ?_, ?_, ?_⟩
  · rw [hk, (addEvent_agreeOff _ _ _ STDOUT_FILENO (stdout_ne hsock)).2]
    exact hout
  · rw [hbuf]
    exact contains_store hlen hnul hbehind
  · rw [hlog]
    exact ha.read_line (stdin_ne hsock)
  · rw [hk]
    exact h.registered.addEvent (.inr ⟨rfl, .inr rfl⟩)
  · rw [hk, hpt]
    exact current_addEvent (hp ▸ h.current).tail

/-- A reply is read: the socket is taken out, so it does not ask for `EPOLLOUT`. -/
theorem readReply (h : Inv sockfd s) (hsock : 1 < sockfd) {e : Epoll.Report ℕ ℕ}
    {es : List (Epoll.Report ℕ ℕ)} {chunk : List UInt8} (hp : s.pending = e :: es)
    (hfd : e.fd = sockfd) (hne : chunk ≠ []) (hlen : chunk.length < MAXSIZE)
    (hnul : (0 : UInt8) ∉ chunk) (hz : s.buf (if s.log = [] then chunk.length else 0) = 0)
    (hk : t.kernel = addEvent (deleteEvent s.kernel sockfd) STDOUT_FILENO EPOLLOUT)
    (hbuf : t.buf = s.buf.store 0 chunk) (hpt : t.pending = es)
    (hlog : t.log = s.log ++ [⟨sockfd, .read, chunk⟩]) : Inv sockfd t := by
  obtain ⟨-, -, hbehind, ha⟩ := h.phase.of_clear hz
  obtain ⟨hnone, hoff⟩ := deleteEvent_spec s.kernel sockfd
  have hunreg : t.kernel.interest sockfd = none := by
    rw [hk, (addEvent_agreeOff _ _ _ sockfd (stdout_ne hsock).symm).2]
    exact hnone
  refine ⟨.reply chunk hne ?_ ?_ ?_, ?_, ?_⟩
  · rw [hunreg]
    nofun
  · rw [hbuf]
    exact contains_store hlen hnul hbehind
  · rw [hlog]
    exact ha.read_reply (stdin_ne hsock)
  · rw [hk]
    exact h.registered.deleteEvent.addEvent (.inr ⟨rfl, .inl rfl⟩)
  · rw [hk, hpt]
    exact current_addEvent ((hp ▸ h.current).handled (hfd ▸ hoff))

theorem writeLine (h : Inv sockfd s) (hsock : 1 < sockfd) {e : Epoll.Report ℕ ℕ}
    {es : List (Epoll.Report ℕ ℕ)} {behind : List UInt8} (hp : s.pending = e :: es)
    (hfd : e.fd = sockfd) (hreg : s.kernel.interest sockfd = some ⟨EPOLLOUT, sockfd⟩)
    (hk : t.kernel = modifyEvent s.kernel sockfd EPOLLIN) (hbuf : t.buf = Buffer.zero)
    (hpt : t.pending = es) (hlog : t.log = s.log ++ [⟨sockfd, .write, offered s.buf behind⟩]) :
    Inv sockfd t := by
  obtain ⟨c, hc, hout, ha⟩ := h.phase.of_socket_out hreg
  obtain ⟨-, hint, -, hoff⟩ := ViaEpoll.modifyEvent_spec sockfd EPOLLIN (by rw [hreg]; rfl)
  rw [contains_offered hc] at hlog
  rw [← hk] at hint hoff
  have hne := stdout_ne hsock
  refine ⟨.idle ?_ ((hoff _ hne).2.trans hout) (.inr hbuf) (hlog ▸ ha.write_line hne), ?_, ?_⟩
  · rw [hint]
    simp [EPOLLIN, EPOLLOUT]
  · refine h.registered.of_agreeOff hoff (fun r hr => ?_)
    rw [hint] at hr
    cases hr
    exact ⟨rfl, .inl ⟨rfl, .inr rfl⟩⟩
  · rw [hpt]
    exact (hp ▸ h.current).handled (hfd ▸ hoff)

theorem writeReply (h : Inv sockfd s) (hsock : 1 < sockfd) {e : Epoll.Report ℕ ℕ}
    {es : List (Epoll.Report ℕ ℕ)} {behind : List UInt8} (hp : s.pending = e :: es)
    (hfd : e.fd = STDOUT_FILENO) {r : Epoll.Registration ℕ}
    (hreg : s.kernel.interest STDOUT_FILENO = some r)
    (hk : t.kernel = deleteEvent s.kernel STDOUT_FILENO) (hbuf : t.buf = Buffer.zero)
    (hpt : t.pending = es)
    (hlog : t.log = s.log ++ [⟨STDOUT_FILENO, .write, offered s.buf behind⟩]) :
    Inv sockfd t := by
  obtain ⟨c, hc, hs, ha⟩ := h.phase.of_stdout hreg
  obtain ⟨hnone, hoff⟩ := deleteEvent_spec s.kernel STDOUT_FILENO
  rw [contains_offered hc] at hlog
  rw [← hk] at hnone hoff
  have hne := stdout_ne hsock
  refine ⟨.idle ?_ hnone (.inr hbuf) (hlog ▸ ha.write_reply hne), ?_, ?_⟩
  · rwa [(hoff sockfd hne.symm).2]
  · rw [hk]
    exact h.registered.deleteEvent
  · rw [hpt]
    exact (hp ▸ h.current).handled (hfd ▸ hoff)

end Inv

theorem plain_read {a : Answers} {e : Epoll.Report ℕ ℕ} {es : List (Epoll.Report ℕ ℕ)}
    {chunk : List UInt8} (h : plain s (.handle a) = true) (hp : s.pending = e :: es)
    (hread : a.read = some chunk) (hin : Epoll.has e.events EPOLLIN) :
    chunk.length < MAXSIZE ∧ (0 : UInt8) ∉ chunk := by
  simp only [plain, hp, hread] at h
  rw [if_pos hin] at h
  exact of_decide_eq_true h

theorem plain_write {a : Answers} {e : Epoll.Report ℕ ℕ} {es : List (Epoll.Report ℕ ℕ)}
    (h : plain s (.handle a) = true) (hp : s.pending = e :: es)
    (hin : ¬ Epoll.has e.events EPOLLIN) : a.write = some (offered s.buf a.behind).length := by
  simp only [plain, hp] at h
  rw [if_neg hin] at h
  exact of_decide_eq_true h

theorem clear_read {a : Answers} {e : Epoll.Report ℕ ℕ} {es : List (Epoll.Report ℕ ℕ)}
    {chunk : List UInt8} (h : clear s (.handle a) = true) (hp : s.pending = e :: es)
    (hread : a.read = some chunk) (hin : Epoll.has e.events EPOLLIN) (hne : chunk ≠ []) :
    s.buf (if s.log = [] then chunk.length else 0) = 0 := by
  unfold clear at h
  simp only [hp, hread] at h
  rw [if_pos ⟨hin, hne⟩] at h
  exact eq_of_beq h

theorem Inv.step (h : Inv sockfd s) (hsock : 1 < sockfd) {a : Act} (hplain : plain s a = true)
    (hclear : clear s a = true) (ht : Trans sockfd s a t) : Inv sockfd t := by
  cases ht with
  | wait ready es hp hc => exact ⟨h.phase.congr (fun _ => id) (fun _ => id) rfl rfl,
      h.registered, hc⟩
  | idle a e es hp => exact ⟨h.phase.congr (fun _ => id) (fun _ => id) rfl rfl,
      h.registered, (hp ▸ h.current).tail⟩
  | closed a e es hp hin => exact h.closed hp (h.entry_in hp hin).1
  | read a e es chunk hp hin hread hne =>
      obtain ⟨hdata, hwhich⟩ := h.entry_in hp hin
      obtain ⟨hlen, hnul⟩ := plain_read hplain hp hread hin
      have hz := clear_read hclear hp hread hin hne
      rw [hdata]
      rcases hwhich with hfd | hfd
      · rw [hfd]
        exact h.readLine hsock hp hne hlen hnul hz forward_stdin rfl rfl rfl
      · rw [hfd]
        exact h.readReply hsock hp hfd hne hlen hnul hz (if_neg (stdin_ne hsock).symm) rfl rfl rfl
  | failed a e es hp hin hout hwrite =>
      rw [plain_write hplain hp hin] at hwrite
      cases hwrite
  | write a e es nwrite hp hin hout hwrite =>
      obtain ⟨hdata, hreg, hwhich⟩ := h.entry_out hp hout
      have hall : (offered s.buf a.behind).take nwrite = offered s.buf a.behind := by
        rw [plain_write hplain hp hin] at hwrite
        rw [← Option.some.inj hwrite, List.take_length]
      rw [hall, hdata]
      rcases hwhich with hfd | hfd
      · rw [hfd] at hreg ⊢
        exact h.writeReply hsock hp hfd hreg settle_stdout rfl rfl rfl
      · rw [hfd] at hreg ⊢
        exact h.writeLine hsock hp hfd hreg (if_neg (stdout_ne hsock).symm) rfl rfl rfl

/-- While bytes are only read into an empty `buf`, the client relays everything. -/
theorem relays_of_clear (hsock : 1 < sockfd)
    (h : (client sockfd memory).ReachableBy
      (fun s a => (plain s a && clear s a) = true) s) : Relays sockfd s := by
  have hinv : Inv sockfd s := by
    refine h.invariant (Inv.initial hsock memory) (fun _ hi hc hst => ?_)
    rw [Bool.and_eq_true] at hc
    exact hi.step hsock hc.1 hc.2 (step_trans hst)
  exact hinv.phase.relays

/-- The line `"ab"` is sent, and its reply `"x"` is printed. -/
def conversation : List Act :=
  [.wait [(0, EPOLLIN)], .handle ⟨some [97, 98], none, []⟩,
    .wait [(3, EPOLLOUT)], .handle ⟨none, some 2, []⟩,
    .wait [(3, EPOLLIN)], .handle ⟨some [120], none, []⟩,
    .wait [(1, EPOLLOUT)], .handle ⟨none, some 1, []⟩]

theorem relays_of_clear_conversation :
    ∃ s, (client 3 Buffer.zero).ReachableBy (fun s a => (plain s a && clear s a) = true) s ∧
      Transfers.sent s.log 3 = [97, 98] ∧ Transfers.sent s.log 1 = [120] ∧ Relays 3 s := by
  have hrun : ((client 3 Buffer.zero).checkedFrom (fun s a => plain s a && clear s a)
      (client 3 Buffer.zero).init conversation).map
      (fun s => (Transfers.sent s.log 3, Transfers.sent s.log 1)) =
        some ([97, 98], [120]) := by decide +kernel
  obtain ⟨s, hs, hview⟩ := Machine.reachableBy_of_checked hrun
  obtain ⟨hsock, hout⟩ := Prod.mk.inj hview
  exact ⟨s, hs, hsock, hout, relays_of_clear (by decide) hs⟩

/-- The line `"cd"` is read before the reply `"x"` to `"ab"`: the socket is registered, so
`"cd"` is not sent, and `"xd"` is printed. -/
def secondLine : List Act :=
  [.wait [(0, EPOLLIN)], .handle ⟨some [97, 98], none, []⟩,
    .wait [(3, EPOLLOUT)], .handle ⟨none, some 2, []⟩,
    .wait [(0, EPOLLIN)], .handle ⟨some [99, 100], none, []⟩,
    .wait [(3, EPOLLIN)], .handle ⟨some [120], none, []⟩,
    .wait [(1, EPOLLOUT)], .handle ⟨none, some 2, []⟩]

/-- The first line is `"a"`, and `buf` holds 7 behind it. -/
def firstLine : List Act :=
  [.wait [(0, EPOLLIN)], .handle ⟨some [97], none, []⟩,
    .wait [(3, EPOLLOUT)], .handle ⟨none, some 2, []⟩]

theorem not_relays :
    (∃ s, (client 3 Buffer.zero).ReachableBy (fun s a => plain s a = true) s ∧ ¬ Relays 3 s) ∧
      ∃ s, (client 3 (Buffer.zero.store 1 [7])).ReachableBy (fun s a => plain s a = true) s ∧
        ¬ Relays 3 s := by
  constructor
  · have hrun : ((client 3 Buffer.zero).checkedFrom plain (client 3 Buffer.zero).init
        secondLine).map (fun s => decide (Relays 3 s)) = some false := by decide +kernel
    obtain ⟨s, hs, hfail⟩ := Machine.reachableBy_of_checked hrun
    exact ⟨s, hs, of_decide_eq_false hfail⟩
  · have hrun : ((client 3 (Buffer.zero.store 1 [7])).checkedFrom plain
        (client 3 (Buffer.zero.store 1 [7])).init firstLine).map
        (fun s => decide (Relays 3 s)) = some false := by decide +kernel
    obtain ⟨s, hs, hfail⟩ := Machine.reachableBy_of_checked hrun
    exact ⟨s, hs, of_decide_eq_false hfail⟩

end Londa.ViaEpollClient
