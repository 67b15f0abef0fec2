import Londa.LongConnectionHeap

/-!
# What the echo server sends back

A drain gathers its chunks in a cleared buffer, and its length is not handed over with the
buffer: the answer is as long as the string in it. Every chunking of the drain and every
sequence of partial writes gives the same answer, which is the bytes that were read exactly
if none of them is zero.
-/

namespace Londa.LongConnection

open Epoll (Registration Kernel Current EPOLLIN EPOLLOUT EPOLLET)

variable {listen_sock fd : Fd} {s t : State}

/-- The bytes of a drain that ends with `EAGAIN` or the end of the stream. -/
def drain : List ReadResult → Option (List UInt8)
  | [] => none
  | .bytes chunk :: rs => (drain rs).map (chunk ++ ·)
  | .eof :: _ => some []
  | .eagain :: _ => some []
  | .etimedout :: _ => none
  | .error :: _ => none

/-- The bytes that a call wrote. -/
def Syscall.written : Syscall → List UInt8
  | .write _ offered (.wrote n) => offered.take n
  | _ => []

def writtenTo (fd : Fd) (calls : List Syscall) : List UInt8 :=
  (calls.filter fun c => c.fd = fd).flatMap Syscall.written

theorem readLoop_drained {buf : Buffer} {count : ℕ} {rs : List ReadResult} {b : List UInt8}
    (h : drain rs = some b) (hlen : count + b.length ≤ MAX_BUF) :
    (readLoop fd buf count rs).2 = .drained (buf.store count b) (count + b.length) := by
  induction rs generalizing buf count b with
  | nil => cases h
  | cons r rs ih =>
      unfold readLoop
      cases r with
      | bytes chunk =>
          obtain ⟨rest, hrest, rfl⟩ := Option.map_eq_some_iff.1 h
          rw [List.length_append] at hlen
          dsimp only
          rw [if_neg (by omega)]
          rw [List.length_append, ← Nat.add_assoc, ← Buffer.store_append]
          exact ih hrest (by omega)
      | eof | eagain =>
          cases h
          rw [Buffer.store_nil]
          rfl
      | etimedout | error => cases h

/-- A write loop that ends has written the bytes from `send_pos` to `total`. -/
theorem writeLoop_sent {buf : Buffer} {total pos : ℕ} {rs : List WriteResult}
    (hpos : pos ≤ total) (h : (writeLoop fd buf total pos rs).2 = .sent) :
    (writeLoop fd buf total pos rs).1.flatMap Syscall.written = buf.slice pos (total - pos) := by
  induction rs generalizing pos with
  | nil => cases h
  | cons r rs ih =>
      unfold writeLoop at h ⊢
      cases r with
      | wrote n =>
          dsimp only at h ⊢
          split at h
          · cases h
          · rename_i hn
            rw [if_neg hn]
            split at h
            · rename_i hend
              rw [if_pos hend]
              have htotal : total - pos = n := by omega
              rw [List.flatMap_singleton, htotal]
              exact List.take_of_length_le (Buffer.length_slice _ _ _).le
            · rename_i hmore
              rw [if_neg hmore, List.flatMap_cons, ih (by omega) h]
              have hsplit : total - pos = n + (total - (pos + n)) := by omega
              rw [hsplit, Buffer.slice_add]
              apply congrArg (· ++ _)
              exact List.take_left' (Buffer.length_slice _ _ _)
      | eagain =>
          dsimp only at h ⊢
          rw [List.flatMap_cons, ih hpos h]
          rfl
      | error => cases h

/-- The connection waits to send the string in `b`, from the buffer at `q`. -/
structure Holding (s : State) (fd : Fd) (p q : Ptr) (b : Buffer) : Prop where
  opened : ∃ c, s.kernel.file fd = some c
  registered : s.kernel.interest fd = some ⟨EPOLLOUT ||| EPOLLET, EpollData.setPtr p⟩
  echo : s.heap p = some (.echo ⟨q, fd⟩)
  buf : s.heap q = some (.buf b)

/-- The next event is `EPOLLOUT` on the connection. -/
def Answering (fd : Fd) (s : State) : Prop :=
  ∃ e es, s.pending = e :: es ∧ e.fd = fd ∧ Epoll.has e.events EPOLLOUT

section Held

variable {p q : Ptr} {b : Buffer}

theorem Holding.agreeOff (h : Holding s fd p q b) {x : Fd}
    (ha : Kernel.AgreeOff x s.kernel t.kernel) (hne : fd ≠ x)
    (hp : t.heap p = some (.echo ⟨q, fd⟩)) (hq : t.heap q = some (.buf b)) :
    Holding t fd p q b := by
  obtain ⟨hfile, hint⟩ := ha fd hne
  exact ⟨hfile ▸ h.opened, hint ▸ h.registered, hp, hq⟩

/-- An `EPOLLIN` event is for another connection. -/
theorem Holding.ne_of_in (h : Holding s fd p q b) (hi : Inv listen_sock s)
    {e : Epoll.Report Fd EpollData} {es : List (Epoll.Report Fd EpollData)}
    (hp : s.pending = e :: es) (hfd : e.data.fd ≠ listen_sock)
    (hin : Epoll.has e.events EPOLLIN) : fd ≠ e.data.fd := by
  obtain ⟨hst, hefd⟩ := hi.entry_in hp hfd hin
  rw [hefd]
  rintro rfl
  rcases (hi.next_entry hp).2 with ⟨-, hlow⟩ | ⟨-, -, r, hr, -, hdata, -⟩
  · exact hfd hlow
  · rw [h.registered] at hr
    cases hr
    rw [hdata] at hst
    cases hst

theorem Holding.step (h : Holding s fd p q b) (hi : Inv listen_sock s)
    (hc : ¬ Answering fd s) (ht : Trans listen_sock s t) : Holding t fd p q b := by
  cases ht with
  | wait | ignore => exact ⟨h.opened, h.registered, h.echo, h.buf⟩
  | accept e es conn k k' hp hfd hacc hadd =>
      obtain ⟨hfree, -, -, -, ha⟩ := Kernel.accept_eq_some hacc
      obtain ⟨-, -, -, ha'⟩ := Kernel.add_eq_some hadd
      refine h.agreeOff (ha.trans ha') ?_ h.echo h.buf
      rintro rfl
      obtain ⟨c, hopen⟩ := h.opened
      rw [hfree] at hopen
      cases hopen
  | hangUp e es x buf calls k hp hfd hin hfresh hcalls hdel =>
      obtain ⟨-, -, -, ha⟩ := Kernel.delete_eq_some hdel
      exact h.agreeOff (ha.trans (k.close_agreeOff e.data.fd)) (h.ne_of_in hi hp hfd hin)
        (update_fresh hfresh h.echo) (update_fresh hfresh h.buf)
  | handOver e es x y buf n calls k hp hfd hin hfx hfy hyx hlow hn hcalls hmod =>
      obtain ⟨-, -, -, ha⟩ := Kernel.modify_eq_some hmod
      have hfy' : Function.update s.heap x (some (.buf buf)) y = none := by
        rw [Function.update_of_ne hyx, hfy]
      exact h.agreeOff ha (h.ne_of_in hi hp hfd hin)
        (update_fresh hfy' (update_fresh hfx h.echo)) (update_fresh hfy' (update_fresh hfx h.buf))
  | rearm e es ed calls k hp hfd hout hed hcalls hmod =>
      obtain ⟨-, -, -, ha⟩ := Kernel.modify_eq_some hmod
      obtain ⟨-, ed', hed', hedfd⟩ := hi.entry_out hp hfd hout
      rw [hed] at hed'
      cases hed'
      have hne : fd ≠ ed.fd := by
        rintro rfl
        exact hc ⟨e, es, hp, hedfd.symm, hout⟩
      have hpe : p ≠ e.data.ptr := by
        rintro rfl
        rw [h.echo] at hed
        cases hed
        exact hne rfl
      refine h.agreeOff ha hne (hi.owned.free_keeps hed h.echo hpe) ?_
      have hqe : q ≠ e.data.ptr := by
        rintro rfl
        rw [h.buf] at hed
        cases hed
      have hqd : q ≠ ed.data := by
        intro heq
        exact hpe (hi.owned.unshared p _ _ ed h.echo hed heq)
      dsimp only
      rw [Function.update_of_ne hqe, Function.update_of_ne hqd]
      exact h.buf

/-- Nothing but the `EPOLLOUT` event of the connection touches what it waits to send. -/
theorem Holding.runFrom {word : BitVec 64} {as : List Act} (h : Holding s fd p q b)
    (hr : (server listen_sock word).Reachable s)
    (hm : (server listen_sock word).Meets (fun s _ => ¬ Answering fd s) s as)
    (hrun : (server listen_sock word).runFrom s as = some t) : Holding t fd p q b := by
  induction as generalizing s with
  | nil => exact Option.some.inj hrun ▸ h
  | cons a as ih =>
      obtain ⟨u, hu, hrest⟩ := (Machine.runFrom_cons_eq_some _).1 hrun
      have hu' := h.step (inv_of_reachable hr) hm.1 (step_trans hu)
      exact ih hu' (hr.step hu) (hm.2 u hu) hrest

end Held

/-- The `EPOLLIN` event of the connection comes next, and its reads give `b`. -/
def Drains (listen_sock : Fd) (s : State) (fd : Fd) (a : Answers) (b : List UInt8) : Prop :=
  (∃ e es, s.pending = e :: es ∧ e.fd = fd ∧ Epoll.has e.events EPOLLIN) ∧
    fd ≠ listen_sock ∧ drain a.reads = some b

theorem Drains.holding {a : Answers} {b : List UInt8} (h : Drains listen_sock s fd a b)
    (hi : Inv listen_sock s) (hb : b ≠ []) (hlen : b.length < MAX_BUF)
    (hst : step listen_sock s (.handle a) = some t) :
    Holding t fd a.ed a.buf (Buffer.zero.store 0 b) := by
  obtain ⟨⟨e, es, hp, rfl, hin⟩, hne, hdrain⟩ := h
  have hfd : e.data.fd ≠ listen_sock := fun heq => hne ((hi.listener_iff hp).1 heq)
  have hefd := (hi.entry_in hp hfd hin).2
  have hret : handleIn listen_sock { s with pending := es } e.data a = .ret t := by
    simp only [step, handleNext, hp, if_neg hfd, eventsHandle, if_pos hin] at hst
    split at hst
    · rename_i u hu
      rw [hu, Option.some.inj hst]
    · cases hst
  have hloop : (readLoop e.data.fd Buffer.zero 0 a.reads).2 =
      .drained (Buffer.zero.store 0 b) (0 + b.length) := readLoop_drained hdrain (by omega)
  have hpos : 0 + b.length ≠ 0 := by
    have := List.length_pos_iff.2 hb
    omega
  obtain ⟨-, hfresh, -, calls, buf, hcase⟩ := handleIn_ret hret
  rcases hcase with ⟨x, hread, hx, -⟩ | ⟨count, hread, -, hover⟩
  · rw [hread] at hloop
    rcases hx with rfl | rfl
    · cases hloop
    · exact absurd (ReadExit.drained.inj hloop).2.symm hpos
  · rw [hread] at hloop
    obtain ⟨rfl, -⟩ := ReadExit.drained.inj hloop
    obtain ⟨n, k, -, hed, -, hmod, rfl⟩ := handOver_ret hover
    obtain ⟨hfile, hint, -, -⟩ := Kernel.modify_eq_some hmod
    have hne' : a.buf ≠ a.ed := by
      intro heq
      rw [← heq] at hed
      simp [afterReads] at hed
    refine ⟨⟨e.file, ?_⟩, ?_, ?_, ?_⟩
    · dsimp only
      rw [hfile]
      exact (hi.next_entry hp).1
    · dsimp only
      rw [← hefd]
      exact hint
    · dsimp only
      rw [Function.update_self, hefd]
    · dsimp only
      rw [Function.update_of_ne hne']
      exact Function.update_self ..

theorem writtenTo_of_calls {calls : List Syscall} (h : ∀ c ∈ calls, c.fd = fd) :
    writtenTo fd calls = calls.flatMap Syscall.written := by
  unfold writtenTo
  rw [List.filter_eq_self.2 (fun c hc => by simpa using h c hc)]

/-- The answer is the string in the buffer, however the writes are cut. -/
theorem Holding.answer {p q : Ptr} {b : Buffer} {a : Answers} (h : Holding s fd p q b)
    (hi : Inv listen_sock s) (hne : fd ≠ listen_sock) (hout : Answering fd s)
    (hst : LongConnection.step listen_sock s (.handle a) = some t) :
    ∃ n, b.strlen MAX_BUF = some n ∧
      writtenTo fd (t.trace.drop s.trace.length) = b.slice 0 n := by
  obtain ⟨e, es, hp, rfl, hev⟩ := hout
  have hfd : e.data.fd ≠ listen_sock := fun heq => hne ((hi.listener_iff hp).1 heq)
  obtain ⟨hdata, hin⟩ : e.data = EpollData.setPtr p ∧ Epoll.has e.events EPOLLIN = false := by
    obtain ⟨-, r, hr, hcov, hdata⟩ := (hp ▸ hi.current).head
    rw [h.registered] at hr
    cases hr
    have hmask : (EPOLLOUT ||| EPOLLET ||| Epoll.EPOLLERR ||| Epoll.EPOLLHUP) &&& EPOLLIN = 0 := by
      decide
    exact ⟨hdata, Epoll.has_eq_false_of_covers hcov hmask⟩
  have hret : handleOut { s with pending := es } e.data a = .ret t := by
    simp only [LongConnection.step, handleNext, hp, if_neg hfd, eventsHandle, hin,
      Bool.false_eq_true, if_false, if_pos hev] at hst
    split at hst
    · rename_i u hu
      rw [hu, Option.some.inj hst]
    · cases hst
  obtain ⟨-, ed, buf, total, calls, hed, hbuf, htotal, hwrite, hrearm⟩ := handleOut_ret hret
  rw [hdata] at hed
  obtain rfl : ed = ⟨q, e.fd⟩ := by
    have heq := hed.symm.trans h.echo
    cases heq
    rfl
  obtain rfl : buf = b := by
    have heq := hbuf.symm.trans h.buf
    cases heq
    rfl
  have hsent : (writeLoop e.fd buf total 0 a.writes).1.flatMap Syscall.written =
      buf.slice 0 (total - 0) := writeLoop_sent (Nat.zero_le total) (congrArg Prod.snd hwrite)
  have hcalls := writeLoop_calls e.fd buf total 0 a.writes
  rw [hwrite] at hsent hcalls
  obtain ⟨k, -, rfl⟩ := rearm_ret hrearm
  refine ⟨total, htotal, ?_⟩
  dsimp only
  rw [List.append_assoc, List.drop_left, writtenTo_of_calls, List.flatMap_append, hsent]
  · simp [Syscall.written]
  · rw [List.forall_mem_append]
    exact ⟨hcalls, by simp [Syscall.fd]⟩

/-- Both events get the outcomes that the kernel gives them, and the connection gets back what
it sent exactly if no byte of it is zero. -/
theorem echo_iff {word : BitVec 64} {u v : State} {a a' : Answers} {as : List Act}
    {b : List UInt8} (hs : (server listen_sock word).Reachable s)
    (hin : Drains listen_sock s fd a b) (hb : 0 < b.length) (hlen : b.length < MAX_BUF)
    (hst : (server listen_sock word).step s (.handle a) = some t)
    (hrun : (server listen_sock word).runFrom t as = some u)
    (hbetween : (server listen_sock word).Meets (fun s _ => ¬ Answering fd s) t as)
    (hout : Answering fd u) (hst' : (server listen_sock word).step u (.handle a') = some v) :
    Carries a s t ∧ Carries a' u v ∧
      (writtenTo fd (v.trace.drop u.trace.length) = b ↔ 0 ∉ b) := by
  have hhold := hin.holding (inv_of_reachable hs) (List.length_pos_iff.1 hb) hlen hst
  have hhold' := hhold.runFrom (hs.step hst) hbetween hrun
  have hu := (hs.step hst).runFrom hrun
  obtain ⟨n, hn, hwritten⟩ := hhold'.answer (inv_of_reachable hu) hin.2.1 hout hst'
  refine ⟨step_carries hst, step_carries hst', ?_⟩
  rw [hwritten]
  exact Buffer.slice_strlen_store_zero hlen hn

/-- The drain of descriptor 5 gives `b`. -/
def reading (b : List UInt8) : Answers :=
  ⟨none, 0x7f0000001000, 0x7f0000002000, [.bytes b, .eagain], []⟩

/-- The events up to the one that answers. -/
def exchange (b : List UInt8) : List Act :=
  firstDrain ++ [.handle (reading b)] ++ [.wait [(5, EPOLLOUT)]]

/-- The states of an exchange, read off its run. -/
theorem exists_exchange {b out : List UInt8} {a : Answers} {d d' : EpollData}
    (hready : ((server 3 0).run firstDrain).map State.pending = some [⟨5, 1, EPOLLIN, d⟩])
    (hasked : ((server 3 0).run (exchange b)).map (fun u => (u.pending, u.trace.length)) =
      some ([⟨5, 1, EPOLLOUT, d'⟩], 5))
    (hout : ((server 3 0).run (exchange b ++ [.handle a])).map
      (fun v => writtenTo 5 (v.trace.drop 5)) = some out) :
    ∃ s t u v, (server 3 0).Reachable s ∧ Drains 3 s 5 (reading b) b ∧
      (server 3 0).step s (.handle (reading b)) = some t ∧
      (server 3 0).runFrom t [.wait [(5, EPOLLOUT)]] = some u ∧
      (server 3 0).Meets (fun s _ => ¬ Answering 5 s) t [.wait [(5, EPOLLOUT)]] ∧
      Answering 5 u ∧ (server 3 0).step u (.handle a) = some v ∧
      writtenTo 5 (v.trace.drop u.trace.length) = out := by
  obtain ⟨s, hs, hreach, hp⟩ := Machine.reachable_of_run_map hready
  obtain ⟨u, hu, -, hview⟩ := Machine.reachable_of_run_map hasked
  obtain ⟨v, hv, -, hwritten⟩ := Machine.reachable_of_run_map hout
  obtain ⟨hpu, hlen⟩ := Prod.mk.inj hview
  obtain ⟨t, ht⟩ : ∃ t, (server 3 0).run (firstDrain ++ [.handle (reading b)]) = some t := by
    unfold exchange Machine.run at hu
    rw [Machine.runFrom_append] at hu
    obtain ⟨t, ht, -⟩ := Option.bind_eq_some_iff.1 hu
    exact ⟨t, ht⟩
  have hwait := Machine.step_of_run ht hu
  have hidle : t.pending = [] := by
    simp only [server, step] at hwait
    split at hwait
    · assumption
    · cases hwait
  have hin : Epoll.has EPOLLIN EPOLLIN = true := by decide
  have hev : Epoll.has EPOLLOUT EPOLLOUT = true := by decide
  refine ⟨s, t, u, v, hreach, ?_, Machine.step_of_run hs ht, ?_, ?_, ?_,
    Machine.step_of_run hu hv, ?_⟩
  · exact ⟨⟨_, [], hp, rfl, hin⟩, by decide, by simp [reading, drain]⟩
  · rw [Machine.runFrom_cons, hwait]
    rfl
  · refine ⟨?_, fun _ _ => trivial⟩
    rintro ⟨e, es, hpt, -⟩
    rw [hidle] at hpt
    cases hpt
  · exact ⟨_, [], hpu, rfl, hev⟩
  · rw [hlen]
    exact hwritten

theorem echo_iff_twoBytes :
    ∃ s t u v, (server 3 0).Reachable s ∧ Drains 3 s 5 (reading [104, 105]) [104, 105] ∧
      (server 3 0).step s (.handle (reading [104, 105])) = some t ∧
      (server 3 0).runFrom t [.wait [(5, EPOLLOUT)]] = some u ∧ Answering 5 u ∧
      (server 3 0).step u (.handle ⟨none, 0, 0, [], [.wrote 1, .eagain, .wrote 1]⟩) = some v ∧
      writtenTo 5 (v.trace.drop u.trace.length) = [104, 105] := by
  have hready : ((server 3 0).run firstDrain).map State.pending =
      some [⟨5, 1, EPOLLIN, EpollData.setFd ⟨3, .fd⟩ 5⟩] := by decide +kernel
  have hasked : ((server 3 0).run (exchange [104, 105])).map
      (fun u => (u.pending, u.trace.length)) =
        some ([⟨5, 1, EPOLLOUT, EpollData.setPtr 0x7f0000002000⟩], 5) := by decide +kernel
  have hout : ((server 3 0).run (exchange [104, 105] ++
      [.handle ⟨none, 0, 0, [], [.wrote 1, .eagain, .wrote 1]⟩])).map
        (fun v => writtenTo 5 (v.trace.drop 5)) = some [104, 105] := by decide +kernel
  obtain ⟨s, t, u, v, hs, hin, hst, hrun, hbetween, hans, hst', -⟩ :=
    exists_exchange hready hasked hout
  exact ⟨s, t, u, v, hs, hin, hst, hrun, hans, hst', (echo_iff hs hin (by decide) (by decide) hst
    hrun hbetween hans hst').2.2.2 (by decide)⟩

/-- Of the message `"a\x00b"` only the first byte comes back. -/
theorem echo_cut :
    ∃ s t u v, (server 3 0).Reachable s ∧ Drains 3 s 5 (reading [97, 0, 98]) [97, 0, 98] ∧
      (server 3 0).step s (.handle (reading [97, 0, 98])) = some t ∧
      (server 3 0).runFrom t [.wait [(5, EPOLLOUT)]] = some u ∧ Answering 5 u ∧
      (server 3 0).step u (.handle ⟨none, 0, 0, [], [.wrote 1]⟩) = some v ∧
      writtenTo 5 (v.trace.drop u.trace.length) = [97] ∧
      writtenTo 5 (v.trace.drop u.trace.length) ≠ [97, 0, 98] := by
  have hready : ((server 3 0).run firstDrain).map State.pending =
      some [⟨5, 1, EPOLLIN, EpollData.setFd ⟨3, .fd⟩ 5⟩] := by decide +kernel
  have hasked : ((server 3 0).run (exchange [97, 0, 98])).map
      (fun u => (u.pending, u.trace.length)) =
        some ([⟨5, 1, EPOLLOUT, EpollData.setPtr 0x7f0000002000⟩], 5) := by decide +kernel
  have hout : ((server 3 0).run (exchange [97, 0, 98] ++
      [.handle ⟨none, 0, 0, [], [.wrote 1]⟩])).map
        (fun v => writtenTo 5 (v.trace.drop 5)) = some [97] := by decide +kernel
  obtain ⟨s, t, u, v, hs, hin, hst, hrun, -, hans, hst', hwritten⟩ :=
    exists_exchange hready hasked hout
  exact ⟨s, t, u, v, hs, hin, hst, hrun, hans, hst', hwritten, by rw [hwritten]; decide⟩

end Londa.LongConnection
