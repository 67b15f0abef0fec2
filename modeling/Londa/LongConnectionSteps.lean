import Londa.LongConnection

/-!
# What one event does to the echo server

The two loops of `events_handle` call only the descriptor they are given, and a
drain of fewer than `MAX_BUF` bytes leaves a zero byte after what it stored. Their
calls get the outcomes of the kernel one by one.
`Trans` lists the steps of the server with everything a step changes.
-/

namespace Londa.LongConnection

open Epoll (Registration Kernel Current EPOLLIN EPOLLOUT EPOLLET)

theorem readLoop_calls (fd : Fd) (buf : Buffer) (count : ℕ) (rs : List ReadResult) :
    ∀ c ∈ (readLoop fd buf count rs).1, c.fd = fd := by
  induction rs generalizing buf count with
  | nil => simp [readLoop]
  | cons r rs ih =>
      intro c hc
      unfold readLoop at hc
      cases r with
      | bytes chunk =>
          dsimp only at hc
          split at hc
          · obtain rfl := List.mem_singleton.1 hc
            rfl
          · rcases List.mem_cons.1 hc with rfl | hc
            · rfl
            · exact ih _ _ c hc
      | eof | eagain | etimedout | error =>
          obtain rfl := List.mem_singleton.1 hc
          rfl

theorem writeLoop_calls (fd : Fd) (buf : Buffer) (total pos : ℕ) (rs : List WriteResult) :
    ∀ c ∈ (writeLoop fd buf total pos rs).1, c.fd = fd := by
  induction rs generalizing pos with
  | nil => simp [writeLoop]
  | cons r rs ih =>
      intro c hc
      unfold writeLoop at hc
      cases r with
      | wrote n =>
          dsimp only at hc
          split at hc
          · obtain rfl := List.mem_singleton.1 hc
            rfl
          · split at hc
            · obtain rfl := List.mem_singleton.1 hc
              rfl
            · rcases List.mem_cons.1 hc with rfl | hc
              · rfl
              · exact ih _ c hc
      | eagain =>
          rcases List.mem_cons.1 hc with rfl | hc
          · rfl
          · exact ih _ c hc
      | error =>
          obtain rfl := List.mem_singleton.1 hc
          rfl

section Outcomes

namespace Syscall

def accepted : Syscall → Option Fd
  | .accept _ conn => some conn
  | _ => none

def readResult : Syscall → Option ReadResult
  | .read _ _ r => some r
  | _ => none

def writeResult : Syscall → Option WriteResult
  | .write _ _ r => some r
  | _ => none

theorem of_readResult {c : Syscall} {r : ReadResult} (h : c.readResult = some r) :
    c.accepted = none ∧ c.writeResult = none := by
  cases c with
  | read => exact ⟨rfl, rfl⟩
  | _ => cases h

theorem of_writeResult {c : Syscall} {r : WriteResult} (h : c.writeResult = some r) :
    c.accepted = none ∧ c.readResult = none := by
  cases c with
  | write => exact ⟨rfl, rfl⟩
  | _ => cases h

end Syscall

/-- The `i`-th call of the read loop got the `i`-th outcome. -/
theorem readLoop_results (fd : Fd) (buf : Buffer) (count : ℕ) (rs : List ReadResult) :
    (readLoop fd buf count rs).1.map Syscall.readResult <+: rs.map some := by
  induction rs generalizing buf count with
  | nil => exact List.prefix_rfl
  | cons r rs ih =>
      unfold readLoop
      rw [List.map_cons]
      cases r with
      | bytes chunk =>
          dsimp only
          split
          · exact List.prefix_append [_] _
          · exact (List.prefix_cons_inj _).2 (ih _ _)
      | eof | eagain | etimedout | error => exact List.prefix_append [_] _

/-- The `i`-th call of the write loop got the `i`-th outcome. -/
theorem writeLoop_results (fd : Fd) (buf : Buffer) (total pos : ℕ) (rs : List WriteResult) :
    (writeLoop fd buf total pos rs).1.map Syscall.writeResult <+: rs.map some := by
  induction rs generalizing pos with
  | nil => exact List.prefix_rfl
  | cons r rs ih =>
      unfold writeLoop
      rw [List.map_cons]
      cases r with
      | wrote n =>
          dsimp only
          split
          · exact List.prefix_append [_] _
          · split
            · exact List.prefix_append [_] _
            · exact (List.prefix_cons_inj _).2 (ih _)
      | eagain => exact (List.prefix_cons_inj _).2 (ih _)
      | error => exact List.prefix_append [_] _

variable {ρ : Type} {f : Syscall → Option ρ} {calls : List Syscall} {rs : List ρ}

theorem filterMap_prefix_of_results (h : calls.map f <+: rs.map some) :
    calls.filterMap f <+: rs := by
  have hid := h.filterMap id
  rwa [List.filterMap_map, List.filterMap_map, Function.id_comp, Function.id_comp,
    List.filterMap_some] at hid

theorem exists_result (h : calls.map f <+: rs.map some) {c : Syscall} (hc : c ∈ calls) :
    ∃ r, f c = some r := by
  obtain ⟨r, -, hr⟩ := List.mem_map.1 (h.subset (List.mem_map_of_mem hc))
  exact ⟨r, hr.symm⟩

theorem result_at (h : calls.map f <+: rs.map some) {i : ℕ} {c : Syscall} {r : ρ}
    (hc : calls[i]? = some c) (hr : f c = some r) : rs[i]? = some r := by
  obtain ⟨hi, hci⟩ := List.getElem?_eq_some_iff.1 hc
  have hat := List.prefix_iff_getElem?.1 h i (by rwa [List.length_map])
  rw [List.getElem_map, hci, hr, List.getElem?_map] at hat
  obtain ⟨r', hr', heq⟩ := Option.map_eq_some_iff.1 hat
  rw [hr', Option.some.inj heq]

end Outcomes

/-- The loop invariant is that the bytes from `count` on are still zero. -/
theorem readLoop_exit {fd : Fd} {buf : Buffer} {count : ℕ} {rs : List ReadResult}
    (hz : ∀ i, count ≤ i → buf i = 0)
    (hlen : count + (rs.flatMap ReadResult.received).length < MAX_BUF) :
    (readLoop fd buf count rs).2 ≠ .overrun ∧
      ∀ buf' count', (readLoop fd buf count rs).2 = .drained buf' count' →
        count' < MAX_BUF ∧ ∀ i, count' ≤ i → buf' i = 0 := by
  induction rs generalizing buf count with
  | nil => simp [readLoop]
  | cons r rs ih =>
      have hlt : count < MAX_BUF := by omega
      unfold readLoop
      cases r with
      | bytes chunk =>
          rw [List.flatMap_cons, List.length_append] at hlen
          change count + (chunk.length + _) < MAX_BUF at hlen
          dsimp only
          rw [if_neg (by omega)]
          apply ih
          · intro i hi
            rw [Buffer.store_of_ge hi]
            exact hz i (by omega)
          · omega
      | eof | eagain =>
          refine ⟨nofun, fun buf' count' h => ?_⟩
          obtain ⟨rfl, rfl⟩ := ReadExit.drained.inj h
          exact ⟨hlt, hz⟩
      | etimedout | error => exact ⟨nofun, fun _ _ h => nomatch h⟩

theorem validReads_length {rs : List ReadResult} (hv : validReads rs) :
    0 + (rs.flatMap ReadResult.received).length < MAX_BUF := by
  unfold validReads at hv
  simp only [Bool.and_eq_true, decide_eq_true_eq] at hv
  omega

theorem readLoop_ne_overrun {fd : Fd} {rs : List ReadResult} (hv : validReads rs) :
    (readLoop fd Buffer.zero 0 rs).2 ≠ .overrun :=
  (readLoop_exit (fun _ _ => rfl) (validReads_length hv)).1

theorem drained_strlen {fd : Fd} {rs : List ReadResult} {buf : Buffer} {count : ℕ}
    (hv : validReads rs) (h : (readLoop fd Buffer.zero 0 rs).2 = .drained buf count) :
    ∃ n, buf.strlen MAX_BUF = some n := by
  obtain ⟨hcount, hzero⟩ :=
    (readLoop_exit (fun _ _ => rfl) (validReads_length hv)).2 buf count h
  exact Buffer.exists_strlen hcount (hzero count le_rfl)

inductive Trans (listen_sock : Fd) (s : State) : State → Prop
  | wait (es : List (Epoll.Report Fd EpollData)) :
      s.pending = [] → Current s.kernel es → Trans listen_sock s { s with pending := es }
  | accept (e : Epoll.Report Fd EpollData) (es : List (Epoll.Report Fd EpollData)) (conn : Fd)
      (k k' : Kernel Fd EpollData) :
      s.pending = e :: es → e.data.fd = listen_sock → s.kernel.accept conn = some k →
      k.add conn ⟨EPOLLIN ||| EPOLLET, s.ev.setFd conn⟩ = some k' →
      Trans listen_sock s { s with
        kernel := k'
        ev := s.ev.setFd conn
        pending := es
        trace := s.trace ++ [.accept listen_sock conn, .ctlAdd conn] }
  | hangUp (e : Epoll.Report Fd EpollData) (es : List (Epoll.Report Fd EpollData)) (p : Ptr)
      (buf : Buffer) (calls : List Syscall) (k : Kernel Fd EpollData) :
      s.pending = e :: es → e.data.fd ≠ listen_sock → Epoll.has e.events EPOLLIN →
      s.heap p = none → (∀ c ∈ calls, c.fd = e.data.fd) → s.kernel.delete e.data.fd = some k →
      Trans listen_sock s { s with
        kernel := k.close e.data.fd
        heap := Function.update s.heap p (some (.buf buf))
        pending := es
        trace := s.trace ++ calls }
  | handOver (e : Epoll.Report Fd EpollData) (es : List (Epoll.Report Fd EpollData)) (p q : Ptr)
      (buf : Buffer) (n : ℕ) (calls : List Syscall) (k : Kernel Fd EpollData) :
      s.pending = e :: es → e.data.fd ≠ listen_sock → Epoll.has e.events EPOLLIN →
      s.heap p = none → s.heap q = none → q ≠ p → (EpollData.setPtr q).fd ≠ listen_sock →
      buf.strlen MAX_BUF = some n → (∀ c ∈ calls, c.fd = e.data.fd) →
      s.kernel.modify e.data.fd ⟨EPOLLOUT ||| EPOLLET, EpollData.setPtr q⟩ = some k →
      Trans listen_sock s { s with
        kernel := k
        heap := Function.update (Function.update s.heap p (some (.buf buf))) q
          (some (.echo ⟨p, e.data.fd⟩))
        pending := es
        trace := s.trace ++ calls }
  | rearm (e : Epoll.Report Fd EpollData) (es : List (Epoll.Report Fd EpollData)) (ed : EchoData)
      (calls : List Syscall) (k : Kernel Fd EpollData) :
      s.pending = e :: es → e.data.fd ≠ listen_sock → Epoll.has e.events EPOLLOUT →
      s.heap e.data.ptr = some (.echo ed) → (∀ c ∈ calls, c.fd = ed.fd) →
      s.kernel.modify ed.fd ⟨EPOLLIN ||| EPOLLET, e.data.setFd ed.fd⟩ = some k →
      Trans listen_sock s { s with
        kernel := k
        heap := Function.update (Function.update s.heap ed.data none) e.data.ptr none
        pending := es
        trace := s.trace ++ calls }
  | ignore (e : Epoll.Report Fd EpollData) (es : List (Epoll.Report Fd EpollData)) :
      s.pending = e :: es → e.data.fd ≠ listen_sock → Trans listen_sock s { s with pending := es }

variable {listen_sock : Fd} {s t : State}

theorem closeConn_ret {fd : Fd} (h : closeConn s fd = .ret t) :
    ∃ k, s.kernel.delete fd = some k ∧
      t = { s with kernel := k.close fd, trace := s.trace ++ [.ctlDel fd, .close fd] } := by
  unfold closeConn at h
  split at h
  · cases h
  · rename_i k hk
    exact ⟨k, hk, (Result.ret.inj h).symm⟩

theorem handOver_ret {fd : Fd} {buf : Buffer} {a : Answers}
    (h : handOver listen_sock s fd buf a = .ret t) :
    ∃ n k, buf.strlen MAX_BUF = some n ∧ s.heap a.ed = none ∧
      (EpollData.setPtr a.ed).fd ≠ listen_sock ∧
      s.kernel.modify fd ⟨EPOLLOUT ||| EPOLLET, EpollData.setPtr a.ed⟩ = some k ∧
      t = { s with
        kernel := k
        heap := Function.update s.heap a.ed (some (.echo ⟨a.buf, fd⟩))
        trace := s.trace ++ [.ctlMod fd] } := by
  unfold handOver at h
  split at h
  · cases h
  · rename_i n hn
    split at h
    · cases h
    · rename_i hfresh
      rw [not_or, Option.not_isSome_iff_eq_none] at hfresh
      split at h
      · cases h
      · rename_i k hk
        exact ⟨n, k, hn, hfresh.1, hfresh.2, hk, (Result.ret.inj h).symm⟩

theorem rearm_ret {data : EpollData} {ed : EchoData} (h : rearm s data ed = .ret t) :
    ∃ k, s.kernel.modify ed.fd ⟨EPOLLIN ||| EPOLLET, data.setFd ed.fd⟩ = some k ∧
      t = { s with
        kernel := k
        heap := Function.update (Function.update s.heap ed.data none) data.ptr none
        trace := s.trace ++ [.ctlMod ed.fd] } := by
  unfold rearm at h
  split at h
  · cases h
  · rename_i k hk
    exact ⟨k, hk, (Result.ret.inj h).symm⟩

theorem acceptConn_ret {a : Answers} (h : acceptConn listen_sock s a = .ret t) :
    ∃ conn k k', a.conn = some conn ∧ s.kernel.accept conn = some k ∧
      k.add conn ⟨EPOLLIN ||| EPOLLET, s.ev.setFd conn⟩ = some k' ∧
      t = { s with
        kernel := k'
        ev := s.ev.setFd conn
        trace := s.trace ++ [.accept listen_sock conn, .ctlAdd conn] } := by
  unfold acceptConn at h
  split at h
  · cases h
  · rename_i conn hconn
    split at h
    · cases h
    · rename_i k hk
      split at h
      · cases h
      · rename_i k' hk'
        exact ⟨conn, k, k', hconn, hk, hk', (Result.ret.inj h).symm⟩

/-- Both ways of hanging up leave the buffer of the drain allocated. -/
theorem closeConn_trans {e : Epoll.Report Fd EpollData} {es : List (Epoll.Report Fd EpollData)}
    {p : Ptr} {buf : Buffer} {calls : List Syscall} (hp : s.pending = e :: es)
    (hfd : e.data.fd ≠ listen_sock) (hin : Epoll.has e.events EPOLLIN) (hfresh : s.heap p = none)
    (hcalls : ∀ c ∈ calls, c.fd = e.data.fd)
    (h : closeConn { s with
      heap := Function.update s.heap p (some (.buf buf))
      pending := es
      trace := s.trace ++ calls } e.data.fd = .ret t) : Trans listen_sock s t := by
  obtain ⟨k, hk, rfl⟩ := closeConn_ret h
  dsimp only
  rw [List.append_assoc]
  apply Trans.hangUp e es p buf _ k hp hfd hin hfresh _ hk
  rw [List.forall_mem_append]
  exact ⟨hcalls, by simp [Syscall.fd]⟩

/-- The state after the read loop, with the buffer allocated at `p`. -/
def afterReads (s : State) (p : Ptr) (buf : Buffer) (calls : List Syscall) : State :=
  { s with heap := Function.update s.heap p (some (.buf buf)), trace := s.trace ++ calls }

/-- The ways in which the `EPOLLIN` branch returns: it hangs up or hands over. -/
theorem handleIn_ret {data : EpollData} {a : Answers}
    (h : handleIn listen_sock s data a = .ret t) :
    data.stored ≠ .ptr ∧ s.heap a.buf = none ∧ validReads a.reads = true ∧
      ∃ calls buf,
        (∃ x, readLoop data.fd Buffer.zero 0 a.reads = (calls, x) ∧
            (x = .timedOut buf ∨ x = .drained buf 0) ∧
            closeConn (afterReads s a.buf buf calls) data.fd = .ret t) ∨
          ∃ count, readLoop data.fd Buffer.zero 0 a.reads = (calls, .drained buf count) ∧
            count ≠ 0 ∧
            handOver listen_sock (afterReads s a.buf buf calls) data.fd buf a = .ret t := by
  unfold handleIn at h
  split at h
  · cases h
  · rename_i hst
    split at h
    · cases h
    · rename_i hfresh
      rw [not_or, Option.not_isSome_iff_eq_none, Bool.not_eq_false] at hfresh
      refine ⟨hst, hfresh.1, hfresh.2, ?_⟩
      split at h
      · cases h
      · cases h
      · cases h
      · rename_i calls buf hread
        exact ⟨calls, buf, .inl ⟨_, hread, .inl rfl, h⟩⟩
      · rename_i calls buf count hread
        dsimp only at h
        split at h
        · rename_i hzero
          exact ⟨calls, buf, .inl ⟨_, hread, .inr (by rw [hzero]), h⟩⟩
        · rename_i hcount
          exact ⟨calls, buf, .inr ⟨count, hread, hcount, h⟩⟩

theorem handleOut_ret {data : EpollData} {a : Answers} (h : handleOut s data a = .ret t) :
    data.stored ≠ .fd ∧ ∃ ed buf total calls, s.heap data.ptr = some (.echo ed) ∧
      s.heap ed.data = some (.buf buf) ∧ buf.strlen MAX_BUF = some total ∧
      writeLoop ed.fd buf total 0 a.writes = (calls, .sent) ∧
      rearm { s with trace := s.trace ++ calls } data ed = .ret t := by
  unfold handleOut at h
  split at h
  · cases h
  · rename_i hst
    refine ⟨hst, ?_⟩
    split at h
    · rename_i ed hed
      split at h
      · rename_i buf hbuf
        split at h
        · cases h
        · rename_i total htotal
          split at h
          · cases h
          · cases h
          · rename_i calls hwrite
            exact ⟨ed, buf, total, calls, hed, hbuf, htotal, hwrite, h⟩
      · cases h
    · cases h

theorem handleIn_trans {e : Epoll.Report Fd EpollData} {es : List (Epoll.Report Fd EpollData)}
    {a : Answers} (hp : s.pending = e :: es) (hfd : e.data.fd ≠ listen_sock)
    (hin : Epoll.has e.events EPOLLIN)
    (h : handleIn listen_sock { s with pending := es } e.data a = .ret t) :
    Trans listen_sock s t := by
  obtain ⟨-, hfresh, -, calls, buf, hret⟩ := handleIn_ret h
  have hcalls := readLoop_calls e.data.fd Buffer.zero 0 a.reads
  rcases hret with ⟨x, hread, -, hclose⟩ | ⟨count, hread, -, hover⟩
  · rw [hread] at hcalls
    exact closeConn_trans hp hfd hin hfresh hcalls hclose
  · rw [hread] at hcalls
    obtain ⟨n, k, hn, hed, hlow, hk, rfl⟩ := handOver_ret hover
    dsimp only [afterReads] at hed
    have hne : a.ed ≠ a.buf := by
      intro heq
      rw [heq, Function.update_self] at hed
      cases hed
    rw [Function.update_of_ne hne] at hed
    dsimp only [afterReads]
    rw [List.append_assoc]
    apply Trans.handOver e es a.buf a.ed buf n _ k hp hfd hin hfresh hed hne hlow hn _ hk
    rw [List.forall_mem_append]
    exact ⟨hcalls, by simp [Syscall.fd]⟩

theorem handleOut_trans {e : Epoll.Report Fd EpollData} {es : List (Epoll.Report Fd EpollData)}
    {a : Answers} (hp : s.pending = e :: es) (hfd : e.data.fd ≠ listen_sock)
    (hout : Epoll.has e.events EPOLLOUT)
    (h : handleOut { s with pending := es } e.data a = .ret t) : Trans listen_sock s t := by
  obtain ⟨-, ed, buf, total, calls, hed, -, -, hwrite, hrearm⟩ := handleOut_ret h
  have hcalls := writeLoop_calls ed.fd buf total 0 a.writes
  rw [hwrite] at hcalls
  obtain ⟨k, hk, rfl⟩ := rearm_ret hrearm
  dsimp only
  rw [List.append_assoc]
  apply Trans.rearm e es ed _ k hp hfd hout hed _ hk
  rw [List.forall_mem_append]
  exact ⟨hcalls, by simp [Syscall.fd]⟩

theorem handleNext_trans {a : Answers} (h : handleNext listen_sock s a = .ret t) :
    Trans listen_sock s t := by
  unfold handleNext at h
  split at h
  · cases h
  · rename_i e es hp
    split at h
    · rename_i hfd
      obtain ⟨conn, k, k', -, hk, hk', rfl⟩ := acceptConn_ret h
      exact .accept e es conn k k' hp hfd hk hk'
    · rename_i hfd
      unfold eventsHandle at h
      split at h
      · rename_i hin
        exact handleIn_trans hp hfd hin h
      · split at h
        · rename_i hout
          exact handleOut_trans hp hfd hout h
        · obtain rfl := Result.ret.inj h
          exact .ignore e es hp hfd

theorem step_trans {a : Act} (h : step listen_sock s a = some t) : Trans listen_sock s t := by
  cases a with
  | wait ready =>
      simp only [step] at h
      split at h
      · rename_i hp
        obtain ⟨es, hes, rfl⟩ := Option.map_eq_some_iff.1 h
        exact .wait es hp (Current.of_wait hes)
      · cases h
  | handle a =>
      simp only [step] at h
      split at h
      · rename_i u hu
        obtain rfl := Option.some.inj h
        exact handleNext_trans hu
      · cases h

/-- The calls that the step adds to the trace got the answers given to it, in their order. -/
def Carries (a : Answers) (s t : State) : Prop :=
  ∃ calls, t.trace = s.trace ++ calls ∧
    calls.filterMap Syscall.accepted <+: a.conn.toList ∧
    calls.filterMap Syscall.readResult <+: a.reads ∧
    calls.filterMap Syscall.writeResult <+: a.writes

section Carries

variable {a : Answers} {calls after : List Syscall}

theorem prefix_of_none {β : Type*} {f : Syscall → Option β} {rs : List β}
    (h : ∀ c ∈ calls, f c = none) : calls.filterMap f <+: rs := by
  rw [List.filterMap_eq_nil_iff.2 h]
  exact List.nil_prefix

/-- Calls without an answer may follow. -/
theorem Carries.of_append
    (hafter : ∀ c ∈ after, c.accepted = none ∧ c.readResult = none ∧ c.writeResult = none)
    (ht : t.trace = s.trace ++ calls ++ after)
    (haccept : calls.filterMap Syscall.accepted <+: a.conn.toList)
    (hreads : calls.filterMap Syscall.readResult <+: a.reads)
    (hwrites : calls.filterMap Syscall.writeResult <+: a.writes) : Carries a s t := by
  refine ⟨calls ++ after, by rw [ht, List.append_assoc], ?_, ?_, ?_⟩
  · rwa [List.filterMap_append, List.filterMap_eq_nil_iff.2 (fun c hc => (hafter c hc).1),
      List.append_nil]
  · rwa [List.filterMap_append, List.filterMap_eq_nil_iff.2 (fun c hc => (hafter c hc).2.1),
      List.append_nil]
  · rwa [List.filterMap_append, List.filterMap_eq_nil_iff.2 (fun c hc => (hafter c hc).2.2),
      List.append_nil]

theorem Carries.of_reads (h : calls.map Syscall.readResult <+: a.reads.map some)
    (hafter : ∀ c ∈ after, c.accepted = none ∧ c.readResult = none ∧ c.writeResult = none)
    (ht : t.trace = s.trace ++ calls ++ after) : Carries a s t := by
  have hreads : ∀ c ∈ calls, c.accepted = none ∧ c.writeResult = none := by
    intro c hc
    obtain ⟨r, hr⟩ := exists_result h hc
    exact Syscall.of_readResult hr
  exact .of_append hafter ht (prefix_of_none fun c hc => (hreads c hc).1)
    (filterMap_prefix_of_results h) (prefix_of_none fun c hc => (hreads c hc).2)

theorem Carries.of_writes (h : calls.map Syscall.writeResult <+: a.writes.map some)
    (hafter : ∀ c ∈ after, c.accepted = none ∧ c.readResult = none ∧ c.writeResult = none)
    (ht : t.trace = s.trace ++ calls ++ after) : Carries a s t := by
  have hwrites : ∀ c ∈ calls, c.accepted = none ∧ c.readResult = none := by
    intro c hc
    obtain ⟨r, hr⟩ := exists_result h hc
    exact Syscall.of_writeResult hr
  exact .of_append hafter ht (prefix_of_none fun c hc => (hwrites c hc).1)
    (prefix_of_none fun c hc => (hwrites c hc).2) (filterMap_prefix_of_results h)

theorem handleIn_carries {data : EpollData} (h : handleIn listen_sock s data a = .ret t) :
    Carries a s t := by
  obtain ⟨-, -, -, calls, buf, hret⟩ := handleIn_ret h
  have hresults := readLoop_results data.fd Buffer.zero 0 a.reads
  rcases hret with ⟨x, hread, -, hclose⟩ | ⟨count, hread, -, hover⟩
  · rw [hread] at hresults
    obtain ⟨k, -, rfl⟩ := closeConn_ret hclose
    exact .of_reads hresults (by simp [Syscall.accepted, Syscall.readResult,
      Syscall.writeResult]) rfl
  · rw [hread] at hresults
    obtain ⟨n, k, -, -, -, -, rfl⟩ := handOver_ret hover
    exact .of_reads hresults (by simp [Syscall.accepted, Syscall.readResult,
      Syscall.writeResult]) rfl

theorem handleOut_carries {data : EpollData} (h : handleOut s data a = .ret t) :
    Carries a s t := by
  obtain ⟨-, ed, buf, total, calls, -, -, -, hwrite, hrearm⟩ := handleOut_ret h
  have hresults := writeLoop_results ed.fd buf total 0 a.writes
  rw [hwrite] at hresults
  obtain ⟨k, -, rfl⟩ := rearm_ret hrearm
  exact .of_writes hresults (by simp [Syscall.accepted, Syscall.readResult,
    Syscall.writeResult]) rfl

theorem step_carries (h : step listen_sock s (.handle a) = some t) : Carries a s t := by
  simp only [step] at h
  split at h
  case h_2 => cases h
  case h_1 u hu =>
    obtain rfl := Option.some.inj h
    unfold handleNext at hu
    split at hu
    case h_1 => cases hu
    case h_2 e es hp =>
      split at hu
      · obtain ⟨conn, k, k', hconn, -, -, rfl⟩ := acceptConn_ret hu
        exact ⟨[.accept listen_sock conn, .ctlAdd conn], rfl, by rw [hconn]; exact List.prefix_rfl,
          List.nil_prefix, List.nil_prefix⟩
      · unfold eventsHandle at hu
        split at hu
        · have hcarries := handleIn_carries hu
          exact hcarries
        · split at hu
          · have hcarries := handleOut_carries hu
            exact hcarries
          · obtain rfl := Result.ret.inj hu
            exact ⟨[], (List.append_nil _).symm, List.nil_prefix, List.nil_prefix,
              List.nil_prefix⟩

end Carries

end Londa.LongConnection
