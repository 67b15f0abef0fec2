import Londa.LongConnectionEcho
import Londa.Transfers

/-!
# What the echo server passes on in a whole run

A descriptor is handed out again after it was closed, and the trace names descriptors. Read
from its beginning it tells which connection each call was for. Every connection has a buffer
of its own for what is read from it and not sent back yet, so that any number of clients are
answered side by side: as long as a connection has sent no zero byte, it gets back what it has
sent, in order, and nothing else.
-/

namespace Londa.LongConnection

open Epoll (Kernel EPOLLIN EPOLLOUT EPOLLET)
open Transfers (received sent)

/-- What the calls say of the connections: the one behind each open descriptor, the number of
the next one, and the transfers. -/
structure Account where
  file : Fd → Option ℕ
  next : ℕ
  log : List (Transfer ℕ)

namespace Account

def transfer (r : Account) (fd : Fd) (d : Dir) (bytes : List UInt8) : Account :=
  match r.file fd with
  | none => r
  | some c => { r with log := r.log ++ [⟨c, d, bytes⟩] }

def call (r : Account) : Syscall → Account
  | .accept _ conn =>
      { r with file := Function.update r.file conn (some r.next), next := r.next + 1 }
  | .close fd => { r with file := Function.update r.file fd none }
  | .read fd _ (.bytes chunk) => r.transfer fd .read chunk
  | .write fd offered (.wrote n) => r.transfer fd .write (offered.take n)
  | .read _ _ _ | .write _ _ _ | .ctlAdd _ | .ctlMod _ | .ctlDel _ => r

end Account

def account (listen_sock : Fd) (trace : List Syscall) : Account :=
  trace.foldl Account.call ⟨Function.update (fun _ => none) listen_sock (some 0), 1, []⟩

def transfers (listen_sock : Fd) (s : State) : List (Transfer ℕ) :=
  (account listen_sock s.trace).log

/-- The bytes that a call read. -/
def Syscall.taken : Syscall → List UInt8
  | .read _ _ r => r.received
  | _ => []

/-- The call neither opens nor closes a connection. -/
def Syscall.moves : Syscall → Bool
  | .accept _ _ | .close _ => false
  | .read _ _ _ | .write _ _ _ | .ctlAdd _ | .ctlMod _ | .ctlDel _ => true

namespace Account

/-- Connection `c` has sent `x` and got `y` in the meantime, and the others nothing. -/
structure Grown (r r' : Account) (c : ℕ) (x y : List UInt8) : Prop where
  file : r'.file = r.file
  next : r'.next = r.next
  self : received r'.log c = received r.log c ++ x ∧ sent r'.log c = sent r.log c ++ y
  others : ∀ c', c' ≠ c → received r'.log c' = received r.log c' ∧ sent r'.log c' = sent r.log c'

variable {r r' r'' : Account} {c : ℕ} {x y : List UInt8} {fd : Fd}

theorem grown_nil : Grown r r c [] [] := by
  refine ⟨rfl, rfl, ?_, fun _ _ => ⟨rfl, rfl⟩⟩
  rw [List.append_nil, List.append_nil]
  exact ⟨rfl, rfl⟩

theorem Grown.trans {x' y' : List UInt8} (h : Grown r r' c x y) (h' : Grown r' r'' c x' y') :
    Grown r r'' c (x ++ x') (y ++ y') := by
  refine ⟨h'.file.trans h.file, h'.next.trans h.next, ⟨?_, ?_⟩, fun c' hc => ⟨?_, ?_⟩⟩
  · rw [h'.self.1, h.self.1, List.append_assoc]
  · rw [h'.self.2, h.self.2, List.append_assoc]
  · exact (h'.others c' hc).1.trans (h.others c' hc).1
  · exact (h'.others c' hc).2.trans (h.others c' hc).2

theorem grown_read (hfd : r.file fd = some c) : Grown r (r.transfer fd .read x) c x [] := by
  unfold transfer
  rw [hfd]
  refine ⟨rfl, rfl, ⟨?_, ?_⟩, fun c' hc => ⟨?_, ?_⟩⟩
  · exact Transfers.received_append_read ..
  · rw [List.append_nil]
    exact Transfers.sent_append_read ..
  · exact Transfers.received_append_of_ne _ _ _ _ _ hc.symm
  · exact Transfers.sent_append_of_ne _ _ _ _ _ hc.symm

theorem grown_write (hfd : r.file fd = some c) : Grown r (r.transfer fd .write y) c [] y := by
  unfold transfer
  rw [hfd]
  refine ⟨rfl, rfl, ⟨?_, ?_⟩, fun c' hc => ⟨?_, ?_⟩⟩
  · rw [List.append_nil]
    exact Transfers.received_append_write ..
  · exact Transfers.sent_append_write ..
  · exact Transfers.received_append_of_ne _ _ _ _ _ hc.symm
  · exact Transfers.sent_append_of_ne _ _ _ _ _ hc.symm

theorem grown_call {call : Syscall} (hfd : r.file call.fd = some c) (hmoves : call.moves = true) :
    Grown r (r.call call) c call.taken call.written := by
  cases call with
  | accept | close => cases hmoves
  | read fd count result =>
      cases result with
      | bytes chunk => exact grown_read hfd
      | eof | eagain | etimedout | error => exact grown_nil
  | write fd offered result =>
      cases result with
      | wrote n => exact grown_write hfd
      | eagain | error => exact grown_nil
  | ctlAdd | ctlMod | ctlDel => exact grown_nil

theorem grown_calls {calls : List Syscall} (hfd : r.file fd = some c)
    (hcalls : ∀ call ∈ calls, call.fd = fd ∧ call.moves = true) :
    Grown r (calls.foldl call r) c (calls.flatMap Syscall.taken)
      (calls.flatMap Syscall.written) := by
  induction calls generalizing r with
  | nil => exact grown_nil
  | cons call calls ih =>
      obtain ⟨hcall, hrest⟩ := List.forall_mem_cons.1 hcalls
      have hfirst := grown_call (hcall.1 ▸ hfd) hcall.2
      exact hfirst.trans (ih (hfirst.file ▸ hfd) hrest)

end Account

variable {listen_sock fd : Fd} {s t : State} {c : ℕ}

theorem account_append (trace calls : List Syscall) :
    account listen_sock (trace ++ calls) = calls.foldl Account.call (account listen_sock trace) :=
  List.foldl_append

theorem readLoop_moves (fd : Fd) (buf : Buffer) (count : ℕ) (rs : List ReadResult) :
    ∀ call ∈ (readLoop fd buf count rs).1, call.moves = true ∧ call.written = [] := by
  induction rs generalizing buf count with
  | nil => simp [readLoop]
  | cons r rs ih =>
      intro call hcall
      unfold readLoop at hcall
      cases r with
      | bytes chunk =>
          dsimp only at hcall
          split at hcall
          · obtain rfl := List.mem_singleton.1 hcall
            exact ⟨rfl, rfl⟩
          · rcases List.mem_cons.1 hcall with rfl | hcall
            · exact ⟨rfl, rfl⟩
            · exact ih _ _ call hcall
      | eof | eagain | etimedout | error =>
          obtain rfl := List.mem_singleton.1 hcall
          exact ⟨rfl, rfl⟩

theorem writeLoop_moves (fd : Fd) (buf : Buffer) (total pos : ℕ) (rs : List WriteResult) :
    ∀ call ∈ (writeLoop fd buf total pos rs).1, call.moves = true ∧ call.taken = [] := by
  induction rs generalizing pos with
  | nil => simp [writeLoop]
  | cons r rs ih =>
      intro call hcall
      unfold writeLoop at hcall
      cases r with
      | wrote n =>
          dsimp only at hcall
          split at hcall
          · obtain rfl := List.mem_singleton.1 hcall
            exact ⟨rfl, rfl⟩
          · split at hcall
            · obtain rfl := List.mem_singleton.1 hcall
              exact ⟨rfl, rfl⟩
            · rcases List.mem_cons.1 hcall with rfl | hcall
              · exact ⟨rfl, rfl⟩
              · exact ih _ call hcall
      | eagain =>
          rcases List.mem_cons.1 hcall with rfl | hcall
          · exact ⟨rfl, rfl⟩
          · exact ih _ call hcall
      | error =>
          obtain rfl := List.mem_singleton.1 hcall
          exact ⟨rfl, rfl⟩

/-- A drain that is handed over has taken the bytes that it found. -/
theorem readLoop_taken {buf buf' : Buffer} {count n : ℕ} {rs : List ReadResult}
    (h : (readLoop fd buf count rs).2 = .drained buf' n) :
    ∃ b, drain rs = some b ∧ n = count + b.length ∧
      b.length ≤ (rs.flatMap ReadResult.received).length ∧
      (readLoop fd buf count rs).1.flatMap Syscall.taken = b := by
  induction rs generalizing buf count with
  | nil => cases h
  | cons r rs ih =>
      unfold readLoop at h ⊢
      cases r with
      | bytes chunk =>
          dsimp only at h ⊢
          split at h
          · cases h
          · rename_i hfit
            obtain ⟨b, hb, hn, hlen, htaken⟩ := ih h
            rw [if_neg hfit]
            refine ⟨chunk ++ b, by rw [drain, hb]; rfl, ?_, ?_, ?_⟩
            · rw [hn, List.length_append, Nat.add_assoc]
            · rw [List.flatMap_cons, List.length_append, List.length_append]
              exact Nat.add_le_add_left hlen _
            · rw [List.flatMap_cons, htaken]
              rfl
      | eof | eagain =>
          obtain ⟨-, rfl⟩ := ReadExit.drained.inj h
          exact ⟨[], rfl, rfl, Nat.zero_le _, rfl⟩
      | etimedout | error => cases h

/-- What the `EPOLLIN` branch does: it reads and hangs up, or it reads something. -/
theorem handleIn_calls {data : EpollData} {a : Answers}
    (h : handleIn listen_sock s data a = .ret t) :
    ∃ calls, (∀ call ∈ calls, call.fd = data.fd ∧ call.moves = true ∧ call.written = []) ∧
      ((∃ k, s.kernel.delete data.fd = some k ∧ t.kernel = k.close data.fd ∧
          t.trace = s.trace ++ calls ++ [.ctlDel data.fd, .close data.fd]) ∨
        ∃ b r, drain a.reads = some b ∧ b ≠ [] ∧ b.length < MAX_BUF ∧
          calls.flatMap Syscall.taken = b ∧ s.kernel.modify data.fd r = some t.kernel ∧
          t.trace = s.trace ++ calls ++ [.ctlMod data.fd]) := by
  obtain ⟨-, -, hvalid, calls, buf, hret⟩ := handleIn_ret h
  have hfds := readLoop_calls data.fd Buffer.zero 0 a.reads
  have hmoves := readLoop_moves data.fd Buffer.zero 0 a.reads
  rcases hret with ⟨x, hread, -, hclose⟩ | ⟨count, hread, hcount, hover⟩
  · rw [hread] at hfds hmoves
    obtain ⟨k, hk, rfl⟩ := closeConn_ret hclose
    exact ⟨calls, fun call hcall => ⟨hfds call hcall, hmoves call hcall⟩, .inl ⟨k, hk, rfl, rfl⟩⟩
  · obtain ⟨b, hdrain, hn, hlen, htaken⟩ := readLoop_taken (congrArg Prod.snd hread)
    rw [hread] at hfds hmoves htaken
    obtain ⟨n, k, -, -, -, hk, rfl⟩ := handOver_ret hover
    have hvalid' := validReads_length hvalid
    refine ⟨calls, fun call hcall => ⟨hfds call hcall, hmoves call hcall⟩,
      .inr ⟨b, _, hdrain, ?_, by omega, htaken, hk, rfl⟩⟩
    rintro rfl
    exact hcount hn

/-- What the `EPOLLOUT` branch does: it writes and waits for input again. -/
theorem handleOut_calls {data : EpollData} {a : Answers} (h : handleOut s data a = .ret t) :
    ∃ ed calls, s.heap data.ptr = some (.echo ed) ∧
      (∀ call ∈ calls, call.fd = ed.fd ∧ call.moves = true ∧ call.taken = []) ∧
      s.kernel.modify ed.fd ⟨EPOLLIN ||| EPOLLET, data.setFd ed.fd⟩ = some t.kernel ∧
      t.trace = s.trace ++ calls ++ [.ctlMod ed.fd] := by
  obtain ⟨-, ed, buf, total, calls, hed, -, -, hwrite, hrearm⟩ := handleOut_ret h
  have hfds := writeLoop_calls ed.fd buf total 0 a.writes
  have hmoves := writeLoop_moves ed.fd buf total 0 a.writes
  rw [hwrite] at hfds hmoves
  obtain ⟨k, hk, rfl⟩ := rearm_ret hrearm
  exact ⟨ed, calls, hed, fun call hcall => ⟨hfds call hcall, hmoves call hcall⟩, hk, rfl⟩

/-- What an open connection that has sent `x` and got `y` is owed. -/
inductive Owes (s : State) (fd : Fd) (x y : List UInt8) : Prop
  | nothing (d : EpollData) :
      s.kernel.interest fd = some ⟨EPOLLIN ||| EPOLLET, d⟩ → y = x → Owes s fd x y
  | answer (p q : Ptr) (b : List UInt8) : Holding s fd p q (Buffer.zero.store 0 b) → b ≠ [] →
      b.length < MAX_BUF → y ++ b = x → Owes s fd x y

theorem Owes.eq_of_waiting {x y : List UInt8} {d : EpollData} (h : Owes s fd x y)
    (hd : s.kernel.interest fd = some ⟨EPOLLIN ||| EPOLLET, d⟩) : y = x := by
  cases h with
  | nothing _ _ hxy => exact hxy
  | answer p q b hhold =>
      rw [hhold.registered] at hd
      exact absurd hd (by simp [EPOLLIN, EPOLLOUT, EPOLLET])

/-- The trace names the connections as the kernel does, and every connection that has sent no
zero byte has got back what it is not still owed. -/
structure Relays (listen_sock : Fd) (s : State) : Prop where
  file : (account listen_sock s.trace).file = s.kernel.file
  next : (account listen_sock s.trace).next = s.kernel.next
  numbered : Kernel.Numbered s.kernel
  unused : ∀ c, s.kernel.next ≤ c →
    received (transfers listen_sock s) c = [] ∧ sent (transfers listen_sock s) c = []
  returned : ∀ c, 0 ∉ received (transfers listen_sock s) c →
    sent (transfers listen_sock s) c <+: received (transfers listen_sock s) c
  owes : ∀ fd c, fd ≠ listen_sock → s.kernel.file fd = some c →
    0 ∉ received (transfers listen_sock s) c →
    Owes s fd (received (transfers listen_sock s) c) (sent (transfers listen_sock s) c)

theorem Owes.frame {x y : List UInt8} {e : Epoll.Report Fd EpollData}
    {es : List (Epoll.Report Fd EpollData)} (h : Owes s fd x y) (hi : Inv listen_sock s)
    (ht : Trans listen_sock s t) (hp : s.pending = e :: es) (hne : fd ≠ e.fd)
    (hint : t.kernel.interest fd = s.kernel.interest fd) : Owes t fd x y := by
  cases h with
  | nothing d hd hxy => exact .nothing d (hint ▸ hd) hxy
  | answer p q b hhold hb hlen hxy =>
      refine .answer p q b (hhold.step hi ?_ ht) hb hlen hxy
      rintro ⟨e', es', hp', rfl, -⟩
      rw [hp] at hp'
      cases hp'
      exact hne rfl

/-- The frame rule: a step that handles the event of one connection only has to restore what
the invariant says of that connection. -/
theorem Relays.handled (h : Relays listen_sock s) (hi : Inv listen_sock s)
    (ht : Trans listen_sock s t) {e : Epoll.Report Fd EpollData}
    {es : List (Epoll.Report Fd EpollData)} (hp : s.pending = e :: es)
    (ha : Kernel.AgreeOff e.fd s.kernel t.kernel)
    (hfile : (account listen_sock t.trace).file = t.kernel.file)
    (hnext : (account listen_sock t.trace).next = t.kernel.next)
    (hsame : t.kernel.next = s.kernel.next) (hnum : Kernel.Numbered t.kernel)
    (hothers : ∀ c, c ≠ e.file →
      received (transfers listen_sock t) c = received (transfers listen_sock s) c ∧
      sent (transfers listen_sock t) c = sent (transfers listen_sock s) c)
    (hreturned : 0 ∉ received (transfers listen_sock t) e.file →
      sent (transfers listen_sock t) e.file <+: received (transfers listen_sock t) e.file)
    (howes : ∀ c, t.kernel.file e.fd = some c → c = e.file ∧
      (0 ∉ received (transfers listen_sock t) c →
        Owes t e.fd (received (transfers listen_sock t) c) (sent (transfers listen_sock t) c))) :
    Relays listen_sock t := by
  have hopen := (hi.next_entry hp).1
  have hbelow := h.numbered.below e.fd e.file hopen
  refine ⟨hfile, hnext, hnum, fun c hc => ?_, fun c hnul => ?_, fun fd c hfd hc hnul => ?_⟩
  · rw [hsame] at hc
    obtain ⟨hrec, hsent⟩ := hothers c (by omega)
    rw [hrec, hsent]
    exact h.unused c hc
  · by_cases hce : c = e.file
    · exact hce ▸ hreturned (hce ▸ hnul)
    · obtain ⟨hrec, hsent⟩ := hothers c hce
      rw [hrec] at hnul ⊢
      rw [hsent]
      exact h.returned c hnul
  · by_cases hfde : fd = e.fd
    · exact hfde ▸ (howes c (hfde ▸ hc)).2 hnul
    · obtain ⟨hfile', hint⟩ := ha fd hfde
      rw [hfile'] at hc
      have hce : c ≠ e.file := by
        rintro rfl
        exact hfde (h.numbered.injective fd e.fd e.file hc hopen)
      obtain ⟨hrec, hsent⟩ := hothers c hce
      rw [hrec] at hnul ⊢
      rw [hsent]
      exact (h.owes fd c hfd hc hnul).frame hi ht hp hfde hint

theorem Relays.accept (h : Relays listen_sock s) (hi : Inv listen_sock s)
    {e : Epoll.Report Fd EpollData} {es : List (Epoll.Report Fd EpollData)} {conn : Fd}
    {k k' : Kernel Fd EpollData} (hp : s.pending = e :: es) (hfd : e.data.fd = listen_sock)
    (hacc : s.kernel.accept conn = some k)
    (hadd : k.add conn ⟨EPOLLIN ||| EPOLLET, s.ev.setFd conn⟩ = some k') :
    Relays listen_sock { s with
      kernel := k'
      ev := s.ev.setFd conn
      pending := es
      trace := s.trace ++ [.accept listen_sock conn, .ctlAdd conn] } := by
  have ht := Trans.accept e es conn k k' hp hfd hacc hadd
  have hnumk := h.numbered.accept hacc
  obtain ⟨hfree, hopen, -, hnext, ha⟩ := Kernel.accept_eq_some hacc
  obtain ⟨hfile', hint', hnext', ha'⟩ := Kernel.add_eq_some hadd
  have hlog : transfers listen_sock { s with
      kernel := k'
      ev := s.ev.setFd conn
      pending := es
      trace := s.trace ++ [.accept listen_sock conn, .ctlAdd conn] } = transfers listen_sock s := by
    unfold transfers
    rw [account_append]
    rfl
  refine ⟨?_, ?_, ?_, fun c hc => ?_, fun c hnul => ?_, fun fd c hne hc hnul => ?_⟩
  · rw [account_append]
    funext x
    change Function.update (account listen_sock s.trace).file conn
      (some (account listen_sock s.trace).next) x = k'.file x
    rw [h.file, h.next, hfile']
    by_cases hx : x = conn
    · rw [hx, Function.update_self, hopen]
    · rw [Function.update_of_ne hx, (ha x hx).1]
  · rw [account_append]
    change (account listen_sock s.trace).next + 1 = k'.next
    rw [h.next, hnext', hnext]
  · exact hnumk.congr hfile' hnext'
  · dsimp only at hc
    rw [hlog]
    exact h.unused c (by omega)
  · rw [hlog] at hnul ⊢
    exact h.returned c hnul
  · rw [hlog] at hnul ⊢
    dsimp only at hc
    by_cases hx : fd = conn
    · subst hx
      rw [hfile', hopen] at hc
      obtain rfl := Option.some.inj hc
      obtain ⟨hrec, hsent⟩ := h.unused s.kernel.next le_rfl
      exact .nothing _ hint' (hsent.trans hrec.symm)
    · obtain ⟨hfilefd, hintfd⟩ := (ha.trans ha') fd hx
      rw [hfilefd] at hc
      have hefd : fd ≠ e.fd := (hi.listener_iff hp).1 hfd ▸ hne
      exact (h.owes fd c hne hc hnul).frame hi ht hp hefd hintfd

/-- The account after calls on the connection of the next event. -/
theorem Relays.grown (h : Relays listen_sock s) (hi : Inv listen_sock s)
    {e : Epoll.Report Fd EpollData} {es : List (Epoll.Report Fd EpollData)}
    {calls : List Syscall} (hp : s.pending = e :: es)
    (hcalls : ∀ call ∈ calls, call.fd = e.fd ∧ call.moves = true) :
    (account listen_sock s.trace).Grown (account listen_sock (s.trace ++ calls)) e.file
      (calls.flatMap Syscall.taken) (calls.flatMap Syscall.written) := by
  rw [account_append]
  refine Account.grown_calls ?_ hcalls
  rw [h.file]
  exact (hi.next_entry hp).1

/-- An event of the kind `EPOLLIN` comes when everything is sent back. -/
theorem Relays.nothing_owed (h : Relays listen_sock s) (hi : Inv listen_sock s)
    {e : Epoll.Report Fd EpollData} {es : List (Epoll.Report Fd EpollData)}
    (hp : s.pending = e :: es) (hfd : e.data.fd ≠ listen_sock) (hin : Epoll.has e.events EPOLLIN)
    (hnul : 0 ∉ received (transfers listen_sock s) e.file) :
    sent (transfers listen_sock s) e.file = received (transfers listen_sock s) e.file := by
  have hne : e.fd ≠ listen_sock := fun heq => hfd ((hi.listener_iff hp).2 heq)
  cases h.owes e.fd e.file hne (hi.next_entry hp).1 hnul with
  | nothing d hd hxy => exact hxy
  | answer p q b hhold =>
      exact absurd (hi.entry_in hp hfd hin).2.symm (hhold.ne_of_in hi hp hfd hin)

theorem handleIn_of_step {e : Epoll.Report Fd EpollData} {es : List (Epoll.Report Fd EpollData)}
    {a : Answers} (hp : s.pending = e :: es) (hfd : e.data.fd ≠ listen_sock)
    (hin : Epoll.has e.events EPOLLIN) (h : step listen_sock s (.handle a) = some t) :
    handleIn listen_sock { s with pending := es } e.data a = .ret t := by
  simp only [step, handleNext, hp, if_neg hfd, eventsHandle, if_pos hin] at h
  split at h
  · rename_i u hu
    rw [hu, Option.some.inj h]
  · cases h

theorem handleOut_of_step {e : Epoll.Report Fd EpollData}
    {es : List (Epoll.Report Fd EpollData)} {a : Answers} (hp : s.pending = e :: es)
    (hfd : e.data.fd ≠ listen_sock) (hin : ¬ Epoll.has e.events EPOLLIN)
    (hout : Epoll.has e.events EPOLLOUT) (h : step listen_sock s (.handle a) = some t) :
    handleOut { s with pending := es } e.data a = .ret t := by
  simp only [step, handleNext, hp, if_neg hfd, eventsHandle, if_neg hin, if_pos hout] at h
  split at h
  · rename_i u hu
    rw [hu, Option.some.inj h]
  · cases h

theorem flatMap_written_nil {calls : List Syscall} (h : ∀ call ∈ calls, call.written = []) :
    calls.flatMap Syscall.written = [] := List.flatMap_eq_nil_iff.2 h

theorem Account.Grown.transfers {r : Account} {x y : List UInt8}
    (h : (account listen_sock s.trace).Grown r c x y) (hlog : transfers listen_sock t = r.log) :
    (received (transfers listen_sock t) c = received (transfers listen_sock s) c ++ x ∧
      sent (transfers listen_sock t) c = sent (transfers listen_sock s) c ++ y) ∧
      ∀ c', c' ≠ c →
        received (transfers listen_sock t) c' = received (transfers listen_sock s) c' ∧
        sent (transfers listen_sock t) c' = sent (transfers listen_sock s) c' := by
  rw [hlog]
  exact ⟨h.self, h.others⟩

theorem Relays.hangUp (h : Relays listen_sock s) (hi : Inv listen_sock s)
    (ht : Trans listen_sock s t) {e : Epoll.Report Fd EpollData}
    {es : List (Epoll.Report Fd EpollData)} {calls : List Syscall} {k : Kernel Fd EpollData}
    (hp : s.pending = e :: es)
    (hcalls : ∀ call ∈ calls, call.fd = e.fd ∧ call.moves = true ∧ call.written = [])
    (hdel : s.kernel.delete e.fd = some k) (hk : t.kernel = k.close e.fd)
    (htrace : t.trace = s.trace ++ calls ++ [.ctlDel e.fd, .close e.fd]) :
    Relays listen_sock t := by
  have hgrown := h.grown hi hp (fun call hcall => ⟨(hcalls call hcall).1, (hcalls call hcall).2.1⟩)
  rw [flatMap_written_nil (fun call hcall => (hcalls call hcall).2.2)] at hgrown
  obtain ⟨hkfile, -, hknext, ha⟩ := Kernel.delete_eq_some hdel
  have hlog : transfers listen_sock t = (account listen_sock (s.trace ++ calls)).log := by
    unfold transfers
    rw [htrace, account_append _ [_, _]]
    rfl
  obtain ⟨⟨hrec, hsent⟩, hothers⟩ := hgrown.transfers hlog
  refine h.handled hi ht hp ?_ ?_ ?_ ?_ ?_ hothers (fun hnul => ?_) (fun c hc => ?_)
  · rw [hk]
    exact ha.trans (k.close_agreeOff e.fd)
  · rw [htrace, account_append _ [_, _], hk]
    change Function.update (account listen_sock (s.trace ++ calls)).file e.fd none =
      Function.update k.file e.fd none
    rw [hgrown.file, hkfile, h.file]
  · rw [htrace, account_append _ [_, _], hk]
    exact hgrown.next.trans (h.next.trans hknext.symm)
  · rw [hk]
    exact hknext
  · rw [hk]
    exact (h.numbered.congr hkfile hknext).close e.fd
  · rw [hrec] at hnul ⊢
    rw [hsent, List.append_nil]
    have hbefore := h.returned e.file (fun hmem => hnul (List.mem_append_left _ hmem))
    exact hbefore.trans (List.prefix_append _ _)
  · rw [hk, Kernel.close_file] at hc
    cases hc

/-- A step that leaves the connection of its event open. -/
theorem Relays.served (h : Relays listen_sock s) (hi : Inv listen_sock s)
    (ht : Trans listen_sock s t) {e : Epoll.Report Fd EpollData}
    {es : List (Epoll.Report Fd EpollData)} {calls : List Syscall}
    {r : Epoll.Registration EpollData} (hp : s.pending = e :: es)
    (hcalls : ∀ call ∈ calls, call.fd = e.fd ∧ call.moves = true)
    (hmod : s.kernel.modify e.fd r = some t.kernel)
    (htrace : t.trace = s.trace ++ calls ++ [.ctlMod e.fd])
    (howes : ∀ x y, x = received (transfers listen_sock s) e.file ++ calls.flatMap Syscall.taken →
      y = sent (transfers listen_sock s) e.file ++ calls.flatMap Syscall.written →
      0 ∉ x → y <+: x ∧ Owes t e.fd x y) : Relays listen_sock t := by
  have hgrown := h.grown hi hp hcalls
  obtain ⟨hkfile, -, hknext, ha⟩ := Kernel.modify_eq_some hmod
  have hacc : account listen_sock t.trace = account listen_sock (s.trace ++ calls) := by
    rw [htrace, account_append _ [_]]
    rfl
  obtain ⟨⟨hrec, hsent⟩, hothers⟩ := hgrown.transfers (t := t) (congrArg Account.log hacc)
  have howes' := howes _ _ hrec hsent
  refine h.handled hi ht hp ha ?_ ?_ hknext (h.numbered.congr hkfile hknext) hothers
    (fun hnul => (howes' hnul).1) (fun c hc => ?_)
  · rw [hacc, hgrown.file, hkfile]
    exact h.file
  · rw [hacc, hgrown.next, hknext]
    exact h.next
  · rw [hkfile] at hc
    obtain rfl := Option.some.inj ((hi.next_entry hp).1.symm.trans hc)
    exact ⟨rfl, fun hnul => (howes' hnul).2⟩

theorem Relays.input (h : Relays listen_sock s) (hi : Inv listen_sock s)
    {e : Epoll.Report Fd EpollData} {es : List (Epoll.Report Fd EpollData)} {a : Answers}
    (hp : s.pending = e :: es) (hfd : e.data.fd ≠ listen_sock)
    (hin : Epoll.has e.events EPOLLIN) (hst : step listen_sock s (.handle a) = some t) :
    Relays listen_sock t := by
  have ht := step_trans hst
  have hne : e.fd ≠ listen_sock := fun heq => hfd ((hi.listener_iff hp).2 heq)
  obtain ⟨calls, hcalls, hcase⟩ := handleIn_calls (handleIn_of_step hp hfd hin hst)
  rw [(hi.entry_in hp hfd hin).2] at hcalls hcase
  rcases hcase with ⟨k, hdel, hk, htrace⟩ | ⟨b, r, hdrain, hb, hlen, htaken, hmod, htrace⟩
  · exact h.hangUp hi ht hp hcalls hdel hk htrace
  · have hquiet := flatMap_written_nil (fun call hcall => (hcalls call hcall).2.2)
    have hmoves : ∀ call ∈ calls, call.fd = e.fd ∧ call.moves = true :=
      fun call hcall => ⟨(hcalls call hcall).1, (hcalls call hcall).2.1⟩
    refine h.served hi ht hp hmoves hmod htrace (fun x y hx hy hnul => ?_)
    rw [htaken] at hx
    rw [hquiet, List.append_nil] at hy
    have hback : y ++ b = x := by
      rw [hx] at hnul ⊢
      rw [hy, h.nothing_owed hi hp hfd hin (fun hmem => hnul (List.mem_append_left _ hmem))]
    refine ⟨⟨b, hback⟩, .answer a.ed a.buf b ?_ hb hlen hback⟩
    exact Drains.holding ⟨⟨e, es, hp, rfl, hin⟩, hne, hdrain⟩ hi hb hlen hst

theorem Relays.output (h : Relays listen_sock s) (hi : Inv listen_sock s)
    {e : Epoll.Report Fd EpollData} {es : List (Epoll.Report Fd EpollData)} {a : Answers}
    (hp : s.pending = e :: es) (hfd : e.data.fd ≠ listen_sock)
    (hin : ¬ Epoll.has e.events EPOLLIN) (hout : Epoll.has e.events EPOLLOUT)
    (hst : step listen_sock s (.handle a) = some t) : Relays listen_sock t := by
  have ht := step_trans hst
  have hne : e.fd ≠ listen_sock := fun heq => hfd ((hi.listener_iff hp).2 heq)
  obtain ⟨ed, calls, hed, hcalls, hmod, htrace⟩ :=
    handleOut_calls (handleOut_of_step hp hfd hin hout hst)
  obtain ⟨-, ed', hed', hedfd⟩ := hi.entry_out hp hfd hout
  obtain rfl : ed = ed' := by
    have heq := hed.symm.trans hed'
    cases heq
    rfl
  rw [hedfd] at hcalls hmod htrace
  have hquiet : calls.flatMap Syscall.taken = [] :=
    List.flatMap_eq_nil_iff.2 (fun call hcall => (hcalls call hcall).2.2)
  have hmoves : ∀ call ∈ calls, call.fd = e.fd ∧ call.moves = true :=
    fun call hcall => ⟨(hcalls call hcall).1, (hcalls call hcall).2.1⟩
  have hint := (Kernel.modify_eq_some hmod).2.1
  refine h.served hi ht hp hmoves hmod htrace (fun x y hx hy hnul => ?_)
  rw [hquiet, List.append_nil] at hx
  have hnul' : 0 ∉ received (transfers listen_sock s) e.file := hx ▸ hnul
  have hall : y = x := by
    cases h.owes e.fd e.file hne (hi.next_entry hp).1 hnul' with
    | nothing d hd _ =>
        obtain ⟨-, r, hr, hcov, -⟩ := (hp ▸ hi.current).head
        rw [hd] at hr
        cases hr
        have hmask :
            (EPOLLIN ||| EPOLLET ||| Epoll.EPOLLERR ||| Epoll.EPOLLHUP) &&& EPOLLOUT = 0 := by
          decide
        rw [Epoll.has_eq_false_of_covers hcov hmask] at hout
        cases hout
    | answer p q b hhold hb hlen hxy =>
        obtain ⟨n, hn, hwritten⟩ := hhold.answer hi hne ⟨e, es, hp, rfl, hout⟩ hst
        have hnulb : (0 : UInt8) ∉ b := fun hmem => hnul' (hxy ▸ List.mem_append_right _ hmem)
        have hfds : ∀ call ∈ calls ++ [.ctlMod e.fd], call.fd = e.fd := by
          rw [List.forall_mem_append]
          exact ⟨fun call hcall => (hcalls call hcall).1, by simp [Syscall.fd]⟩
        rw [htrace, List.append_assoc, List.drop_left, writtenTo_of_calls hfds, List.flatMap_append,
          (Buffer.slice_strlen_store_zero hlen hn).2 hnulb] at hwritten
        have hsame : calls.flatMap Syscall.written = b := by simpa [Syscall.written] using hwritten
        rw [hy, hx, hsame, hxy]
  exact ⟨hall ▸ List.prefix_rfl, .nothing _ hint hall⟩

theorem Relays.same (h : Relays listen_sock s) (hi : Inv listen_sock s)
    (ht : Trans listen_sock s t) (hkernel : t.kernel = s.kernel) (htrace : t.trace = s.trace)
    (hidle : ∀ fd, fd ≠ listen_sock → ¬ Answering fd s) : Relays listen_sock t := by
  have hlog : transfers listen_sock t = transfers listen_sock s := by
    unfold transfers
    rw [htrace]
  refine ⟨?_, ?_, ?_, ?_, ?_, fun fd c hfd hc hnul => ?_⟩
  · rw [htrace, hkernel]
    exact h.file
  · rw [htrace, hkernel]
    exact h.next
  · rw [hkernel]
    exact h.numbered
  · rw [hkernel, hlog]
    exact h.unused
  · rw [hlog]
    exact h.returned
  · rw [hkernel] at hc
    rw [hlog] at hnul ⊢
    cases h.owes fd c hfd hc hnul with
    | nothing d hd hxy => exact .nothing d (hkernel ▸ hd) hxy
    | answer p q b hhold hb hlen hxy =>
        exact .answer p q b (hhold.step hi (hidle fd hfd) ht) hb hlen hxy

theorem Relays.step (h : Relays listen_sock s) (hi : Inv listen_sock s) {a : Act}
    (hst : step listen_sock s a = some t) : Relays listen_sock t := by
  have ht := step_trans hst
  cases a with
  | wait ready =>
      simp only [LongConnection.step] at hst
      split at hst
      · rename_i hp
        obtain ⟨es, hes, rfl⟩ := Option.map_eq_some_iff.1 hst
        refine h.same hi ht rfl rfl ?_
        rintro fd - ⟨e, es', hp', -⟩
        rw [hp] at hp'
        cases hp'
      · cases hst
  | handle a =>
      cases hp : s.pending with
      | nil =>
          simp only [LongConnection.step, handleNext, hp] at hst
          cases hst
      | cons e es =>
          by_cases hfd : e.data.fd = listen_sock
          · simp only [LongConnection.step, handleNext, hp, if_pos hfd] at hst
            split at hst
            · rename_i u hu
              obtain rfl := Option.some.inj hst
              obtain ⟨conn, k, k', -, hacc, hadd, rfl⟩ := acceptConn_ret hu
              exact h.accept hi hp hfd hacc hadd
            · cases hst
          · by_cases hin : Epoll.has e.events EPOLLIN
            · exact h.input hi hp hfd hin hst
            · by_cases hout : Epoll.has e.events EPOLLOUT
              · exact h.output hi hp hfd hin hout hst
              · simp only [LongConnection.step, handleNext, hp, if_neg hfd, eventsHandle,
                  if_neg hin, if_neg hout, Option.some.injEq] at hst
                subst hst
                refine h.same hi ht rfl rfl ?_
                rintro fd - ⟨e', es', hp', -, hev⟩
                rw [hp] at hp'
                cases hp'
                exact hout hev

theorem Relays.initial (listen_sock : Fd) (word : BitVec 64) :
    Relays listen_sock (start listen_sock word) where
  file := rfl
  next := rfl
  numbered := (Kernel.Numbered.single listen_sock).congr rfl rfl
  unused _ _ := ⟨rfl, rfl⟩
  returned _ _ := List.prefix_rfl
  owes fd c hfd hc _ := by
    simp [start, Function.update_of_ne hfd] at hc

theorem relays_of_reachable {word : BitVec 64} (h : (server listen_sock word).Reachable s) :
    Relays listen_sock s :=
  h.invariant (Relays.initial listen_sock word)
    (fun hr hi hst => hi.step (inv_of_reachable hr) hst)

/-- As long as a connection has sent no zero byte, it gets back what it has sent, in order,
and it has got all of it exactly if the server waits for it to send more. The calls of every
step get the outcomes that the kernel gives them. -/
theorem answered_iff {word : BitVec 64} (h : (server listen_sock word).Reachable s)
    (hnul : 0 ∉ received (transfers listen_sock s) c) :
    sent (transfers listen_sock s) c <+: received (transfers listen_sock s) c ∧
      (∀ fd, fd ≠ listen_sock → s.kernel.file fd = some c →
        (sent (transfers listen_sock s) c = received (transfers listen_sock s) c ↔
          ∃ d, s.kernel.interest fd = some ⟨EPOLLIN ||| EPOLLET, d⟩)) ∧
      ∀ a t, (server listen_sock word).step s (.handle a) = some t → Carries a s t := by
  have hrel := relays_of_reachable h
  refine ⟨hrel.returned c hnul, fun fd hfd hc => ?_, fun a t hst => step_carries hst⟩
  have howes := hrel.owes fd c hfd hc hnul
  constructor
  · intro hall
    cases howes with
    | nothing d hd _ => exact ⟨d, hd⟩
    | answer p q b _ hb _ hxy =>
        rw [hall] at hxy
        exact absurd (List.append_right_eq_self.1 hxy) hb
  · rintro ⟨d, hd⟩
    exact howes.eq_of_waiting hd

/-- Two connections are read, and the first of them is answered. -/
def twoClients : List Act :=
  [.wait [(3, EPOLLIN)], .handle ⟨some 5, 0, 0, [], []⟩,
    .wait [(3, EPOLLIN)], .handle ⟨some 6, 0, 0, [], []⟩,
    .wait [(5, EPOLLIN), (6, EPOLLIN)], .handle (reading [104, 105]),
    .handle ⟨none, 0x7f0000003000, 0x7f0000004000, [.bytes [106], .eagain], []⟩,
    .wait [(5, EPOLLOUT)], .handle ⟨none, 0, 0, [], [.wrote 1, .eagain, .wrote 1]⟩]

theorem answered_iff_twoClients : ∃ s, (server 3 0).Reachable s ∧
    received (transfers 3 s) 1 = [104, 105] ∧ received (transfers 3 s) 2 = [106] ∧
    (sent (transfers 3 s) 1 = received (transfers 3 s) 1 ↔
      ∃ d, s.kernel.interest 5 = some ⟨EPOLLIN ||| EPOLLET, d⟩) ∧
    sent (transfers 3 s) 2 ≠ received (transfers 3 s) 2 := by
  have hrun : ((server 3 0).run twoClients).map (fun s => (received (transfers 3 s) 1,
      received (transfers 3 s) 2, sent (transfers 3 s) 2, s.kernel.file 5)) =
        some ([104, 105], [106], [], some 1) := by decide +kernel
  obtain ⟨s, -, hs, hview⟩ := Machine.reachable_of_run_map hrun
  obtain ⟨hfirst, hview⟩ := Prod.mk.inj hview
  obtain ⟨hsecond, hview⟩ := Prod.mk.inj hview
  obtain ⟨hunsent, hfile⟩ := Prod.mk.inj hview
  have hnul : 0 ∉ received (transfers 3 s) 1 := by
    rw [hfirst]
    decide
  refine ⟨s, hs, hfirst, hsecond, (answered_iff hs hnul).2.1 5 (by decide) hfile, ?_⟩
  rw [hunsent, hsecond]
  decide

end Londa.LongConnection
