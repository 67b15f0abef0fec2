import Londa.LongConnectionDecode

/-!
# Who owns the heap blocks of the echo server

The `EPOLLIN` branch of `events_handle` allocates a buffer for every drain. Where the drain
finds data, an `echo_data` takes the buffer over and both are freed when the answer is sent.
Where the connection is hung up, nothing points to the buffer and it is never freed. So the
live blocks are those of the connections registered for `EPOLLOUT` exactly as long as no
connection was hung up.
-/

namespace Londa.LongConnection

open Epoll (Registration Kernel Current EPOLLIN EPOLLOUT EPOLLET)

variable {listen_sock : Fd} {s t : State}

/-- The connection is open and registered for `EPOLLOUT`, with an `echo_data` at `p` and a
buffer at `q`. -/
structure Holds (s : State) (fd : Fd) (p q : Ptr) : Prop where
  opened : ∃ c, s.kernel.file fd = some c
  registered : s.kernel.interest fd = some ⟨EPOLLOUT ||| EPOLLET, EpollData.setPtr p⟩
  echo : s.heap p = some (.echo ⟨q, fd⟩)
  buf : ∃ b, s.heap q = some (.buf b)

/-- The live blocks are an `echo_data` and a buffer for each connection that is registered
for `EPOLLOUT`, and no others. -/
structure HeapExact (listen_sock : Fd) (s : State) : Prop where
  owned : ∀ fd r, fd ≠ listen_sock → s.kernel.interest fd = some r →
    r.events = EPOLLOUT ||| EPOLLET → ∃ p q, Holds s fd p q
  live : ∀ x b, s.heap x = some b → ∃ fd p q, Holds s fd p q ∧ (x = p ∨ x = q)
  distinct : ∀ fd fd' p q p' q', Holds s fd p q → Holds s fd' p' q' → fd ≠ fd' →
    p ≠ p' ∧ q ≠ q'

/-- The outcomes of a drain after which the connection is hung up: it timed out, or ended
before any byte was read. -/
def hangsUp (got : Bool) : List ReadResult → Bool
  | [] => false
  | .bytes _ :: rs => hangsUp true rs
  | .eof :: _ => !got
  | .eagain :: _ => !got
  | .etimedout :: _ => true
  | .error :: _ => false

/-- The next event is `EPOLLIN` on a connection, and its drain hangs up. -/
def HangsUp (listen_sock : Fd) (s : State) : Act → Prop
  | .wait _ => False
  | .handle a => ∃ e es, s.pending = e :: es ∧ e.data.fd ≠ listen_sock ∧
      Epoll.has e.events EPOLLIN ∧ hangsUp false a.reads = true

/-- A live buffer that no `echo_data` points to. -/
def Orphan (s : State) : Prop :=
  ∃ x b, s.heap x = some (.buf b) ∧ ∀ p ed, s.heap p = some (.echo ed) → ed.data ≠ x

/-- Every live `echo_data` is the one its connection is registered with. -/
def Registered (listen_sock : Fd) (s : State) : Prop :=
  ∀ p ed, s.heap p = some (.echo ed) → ed.fd ≠ listen_sock ∧
    (∃ c, s.kernel.file ed.fd = some c) ∧
    s.kernel.interest ed.fd = some ⟨EPOLLOUT ||| EPOLLET, EpollData.setPtr p⟩

theorem readLoop_hangsUp (fd : Fd) (buf : Buffer) (count : ℕ) {rs : List ReadResult}
    (hv : rs.all ReadResult.valid = true) :
    (∀ b, (readLoop fd buf count rs).2 = .timedOut b →
      hangsUp (decide (count ≠ 0)) rs = true) ∧
      ∀ b n, (readLoop fd buf count rs).2 = .drained b n →
        (hangsUp (decide (count ≠ 0)) rs = true ↔ n = 0) := by
  induction rs generalizing buf count with
  | nil => simp [readLoop]
  | cons r rs ih =>
      rw [List.all_cons, Bool.and_eq_true] at hv
      unfold readLoop
      cases r with
      | bytes chunk =>
          have hpos : 0 < chunk.length := by
            have hchunk := hv.1
            simp only [ReadResult.valid, Bool.and_eq_true, decide_eq_true_eq] at hchunk
            exact hchunk.1
          have hne : decide (count + chunk.length ≠ 0) = true := by
            simp only [decide_eq_true_eq]
            omega
          dsimp only
          split
          · simp
          · have hrest := ih (buf.store count chunk) (count + chunk.length) hv.2
            rw [hne] at hrest
            exact hrest
      | eof | eagain =>
          constructor
          · intro b h
            cases h
          · intro b n h
            obtain ⟨-, rfl⟩ := ReadExit.drained.inj h
            simp [hangsUp]
      | etimedout => exact ⟨fun _ _ => rfl, fun b n h => by cases h⟩
      | error =>
          constructor
          · intro b h
            cases h
          · intro b n h
            cases h

/-- What a step does to the heap where no connection is hung up. -/
inductive HeapStep (heap heap' : Ptr → Option Block) : Prop
  | same : heap' = heap → HeapStep heap heap'
  | handOver (p q : Ptr) (fd : Fd) (buf : Buffer) : heap p = none → heap q = none → q ≠ p →
      heap' = Function.update (Function.update heap p (some (.buf buf))) q
        (some (.echo ⟨p, fd⟩)) → HeapStep heap heap'
  | free (p : Ptr) (ed : EchoData) : heap p = some (.echo ed) →
      heap' = Function.update (Function.update heap ed.data none) p none → HeapStep heap heap'

/-- The drain of the `EPOLLIN` branch leaves its buffer behind exactly if it hangs up. -/
theorem handleIn_heap {data : EpollData} {a : Answers}
    (h : handleIn listen_sock s data a = .ret t) :
    (hangsUp false a.reads = true ∧
      ∃ p buf, s.heap p = none ∧ t.heap = Function.update s.heap p (some (.buf buf))) ∨
      (hangsUp false a.reads = false ∧ HeapStep s.heap t.heap) := by
  obtain ⟨-, hfresh, hvalid, calls, buf, hret⟩ := handleIn_ret h
  have hv : a.reads.all ReadResult.valid = true := by
    unfold validReads at hvalid
    rw [Bool.and_eq_true] at hvalid
    exact hvalid.1
  obtain ⟨htimed, hdrained⟩ := readLoop_hangsUp data.fd Buffer.zero 0 hv
  rcases hret with ⟨x, hread, hx, hclose⟩ | ⟨count, hread, hcount, hover⟩
  · obtain ⟨k, -, rfl⟩ := closeConn_ret hclose
    refine .inl ⟨?_, a.buf, buf, hfresh, rfl⟩
    rw [hread] at htimed hdrained
    rcases hx with rfl | rfl
    · exact htimed buf rfl
    · exact (hdrained buf 0 rfl).2 rfl
  · obtain ⟨n, k, -, hed, -, -, rfl⟩ := handOver_ret hover
    dsimp only [afterReads] at hed
    have hne : a.ed ≠ a.buf := by
      intro heq
      rw [heq, Function.update_self] at hed
      cases hed
    rw [Function.update_of_ne hne] at hed
    refine .inr ⟨?_, .handOver a.buf a.ed data.fd buf hfresh hed hne rfl⟩
    rw [hread] at hdrained
    exact Bool.not_eq_true _ ▸ fun htrue => hcount ((hdrained buf count rfl).1 htrue)

theorem handleNext_heap {a : Answers} (h : handleNext listen_sock s a = .ret t) :
    (HangsUp listen_sock s (.handle a) ∧
      ∃ p buf, s.heap p = none ∧ t.heap = Function.update s.heap p (some (.buf buf))) ∨
      (¬ HangsUp listen_sock s (.handle a) ∧ HeapStep s.heap t.heap) := by
  unfold handleNext at h
  split at h
  · cases h
  · rename_i e es hp
    split at h
    · rename_i hfd
      obtain ⟨conn, k, k', -, -, -, rfl⟩ := acceptConn_ret h
      refine .inr ⟨?_, .same rfl⟩
      rintro ⟨e', es', hp', hfd', -⟩
      rw [hp] at hp'
      cases hp'
      exact hfd' hfd
    · rename_i hfd
      unfold eventsHandle at h
      split at h
      · rename_i hin
        rcases handleIn_heap h with ⟨hup, hheap⟩ | ⟨hnot, hheap⟩
        · exact .inl ⟨⟨e, es, hp, hfd, hin, hup⟩, hheap⟩
        · refine .inr ⟨?_, hheap⟩
          rintro ⟨e', es', -, -, -, hup⟩
          rw [hnot] at hup
          cases hup
      · rename_i hin
        refine .inr ⟨?_, ?_⟩
        · rintro ⟨e', es', hp', -, hin', -⟩
          rw [hp] at hp'
          cases hp'
          exact hin hin'
        · split at h
          · obtain ⟨-, ed, buf, total, calls, hed, -, -, -, hrearm⟩ := handleOut_ret h
            obtain ⟨k, -, rfl⟩ := rearm_ret hrearm
            exact .free e.data.ptr ed hed rfl
          · cases h
            exact .same rfl

theorem step_heap {a : Act} (h : step listen_sock s a = some t) :
    (HangsUp listen_sock s a ∧
      ∃ p buf, s.heap p = none ∧ t.heap = Function.update s.heap p (some (.buf buf))) ∨
      (¬ HangsUp listen_sock s a ∧ HeapStep s.heap t.heap) := by
  cases a with
  | wait ready =>
      simp only [step] at h
      split at h
      · obtain ⟨es, -, rfl⟩ := Option.map_eq_some_iff.1 h
        exact .inr ⟨id, .same rfl⟩
      · cases h
  | handle a =>
      simp only [step] at h
      split at h
      · rename_i u hu
        cases h
        exact handleNext_heap hu
      · cases h

/-- An `echo_data` in a heap to which a buffer was added was there before. -/
theorem echo_of_update_buf {heap : Ptr → Option Block} {p x : Ptr} {b : Buffer} {ed : EchoData}
    (h : Function.update heap p (some (.buf b)) x = some (.echo ed)) :
    heap x = some (.echo ed) := by
  by_cases hx : x = p
  · subst x
    rw [Function.update_self] at h
    cases h
  · rwa [Function.update_of_ne hx] at h

theorem echo_of_update_echo {heap : Ptr → Option Block} {q x : Ptr} {ed ed' : EchoData}
    (h : Function.update heap q (some (.echo ed')) x = some (.echo ed)) :
    (x = q ∧ ed = ed') ∨ heap x = some (.echo ed) := by
  by_cases hx : x = q
  · subst x
    rw [Function.update_self] at h
    cases h
    exact .inl ⟨rfl, rfl⟩
  · rw [Function.update_of_ne hx] at h
    exact .inr h

theorem some_of_update_none {heap : Ptr → Option Block} {p x : Ptr} {b : Block}
    (h : Function.update heap p none x = some b) : x ≠ p ∧ heap x = some b := by
  by_cases hx : x = p
  · subst x
    rw [Function.update_self] at h
    cases h
  · rw [Function.update_of_ne hx] at h
    exact ⟨hx, h⟩

/-- The buffer of a hung-up connection belongs to nobody. -/
theorem orphan_of_leak (hi : Inv listen_sock s) {p : Ptr} {buf : Buffer} (hp : s.heap p = none)
    (hh : t.heap = Function.update s.heap p (some (.buf buf))) : Orphan t := by
  refine ⟨p, buf, by rw [hh, Function.update_self], fun x ed hx heq => ?_⟩
  rw [hh] at hx
  obtain ⟨b, n, hb, -⟩ := hi.owned.backed x ed (echo_of_update_buf hx)
  rw [heq, hp] at hb
  cases hb

theorem Orphan.leak (h : Orphan s) {p : Ptr} {buf : Buffer} (hp : s.heap p = none)
    (hh : t.heap = Function.update s.heap p (some (.buf buf))) : Orphan t := by
  obtain ⟨x, b, hx, hfree⟩ := h
  refine ⟨x, b, by rw [hh]; exact update_fresh hp hx, fun y ed hy => ?_⟩
  rw [hh] at hy
  exact hfree y ed (echo_of_update_buf hy)

theorem Orphan.heapStep (h : Orphan s) (hs : HeapStep s.heap t.heap) : Orphan t := by
  obtain ⟨x, b, hx, hfree⟩ := h
  cases hs with
  | same hh => exact ⟨x, b, hh ▸ hx, hh ▸ hfree⟩
  | handOver p q fd buf hp hq hqp hh =>
      have hq' : Function.update s.heap p (some (.buf buf)) q = none := by
        rw [Function.update_of_ne hqp, hq]
      refine ⟨x, b, by rw [hh]; exact update_fresh hq' (update_fresh hp hx), fun y ed hy => ?_⟩
      rw [hh] at hy
      rcases echo_of_update_echo hy with ⟨-, rfl⟩ | hy
      · rintro rfl
        rw [hp] at hx
        cases hx
      · exact hfree y ed (echo_of_update_buf hy)
  | free p ed hp hh =>
      have hxp : x ≠ p := by
        rintro rfl
        rw [hp] at hx
        cases hx
      refine ⟨x, b, ?_, fun y ed' hy => ?_⟩
      · rw [hh, Function.update_of_ne hxp, Function.update_of_ne (hfree p ed hp).symm, hx]
      · rw [hh] at hy
        exact hfree y ed' (some_of_update_none (some_of_update_none hy).2).2

theorem Orphan.step {a : Act} (h : Orphan s) (hst : step listen_sock s a = some t) :
    Orphan t := by
  rcases step_heap hst with ⟨-, p, buf, hp, hh⟩ | ⟨-, hs⟩
  · exact h.leak hp hh
  · exact h.heapStep hs

/-- Every live buffer has an `echo_data` that points to it. -/
def Kept (s : State) : Prop :=
  ∀ x b, s.heap x = some (.buf b) → ∃ p ed, s.heap p = some (.echo ed) ∧ ed.data = x

theorem Kept.heapStep (h : Kept s) (hi : Inv listen_sock s) (hs : HeapStep s.heap t.heap) :
    Kept t := by
  intro x b hx
  cases hs with
  | same hh =>
      rw [hh] at hx ⊢
      exact h x b hx
  | handOver p q fd buf hp hq hqp hh =>
      have hq' : Function.update s.heap p (some (.buf buf)) q = none := by
        rw [Function.update_of_ne hqp, hq]
      rw [hh] at hx ⊢
      by_cases hxp : x = p
      · exact ⟨q, _, Function.update_self .., hxp.symm⟩
      · have hxq : x ≠ q := by
          rintro rfl
          rw [Function.update_self] at hx
          cases hx
        rw [Function.update_of_ne hxq, Function.update_of_ne hxp] at hx
        obtain ⟨y, ed, hy, hdata⟩ := h x b hx
        exact ⟨y, ed, update_fresh hq' (update_fresh hp hy), hdata⟩
  | free p ed hp hh =>
      rw [hh] at hx ⊢
      obtain ⟨hxp, hx⟩ := some_of_update_none hx
      obtain ⟨hxd, hx⟩ := some_of_update_none hx
      obtain ⟨y, ed', hy, hdata⟩ := h x b hx
      refine ⟨y, ed', hi.owned.free_keeps hp hy ?_, hdata⟩
      rintro rfl
      rw [hp] at hy
      cases hy
      exact hxd hdata.symm

/-- A connection whose registration holds its descriptor has no `echo_data`. -/
theorem Registered.ne_of_fd (h : Registered listen_sock s) {fd : Fd} {r : Registration EpollData}
    (hr : s.kernel.interest fd = some r) (hst : r.data.stored = .fd) {p : Ptr} {ed : EchoData}
    (hp : s.heap p = some (.echo ed)) : ed.fd ≠ fd := by
  rintro rfl
  rw [(h p ed hp).2.2] at hr
  cases hr
  cases hst

/-- A step that changes one connection keeps what is registered for the others. -/
theorem Registered.agreeOff (h : Registered listen_sock s) {fd : Fd} {p : Ptr} {ed : EchoData}
    (ha : Kernel.AgreeOff fd s.kernel t.kernel) (hp : s.heap p = some (.echo ed))
    (hne : ed.fd ≠ fd) : ed.fd ≠ listen_sock ∧ (∃ c, t.kernel.file ed.fd = some c) ∧
      t.kernel.interest ed.fd = some ⟨EPOLLOUT ||| EPOLLET, EpollData.setPtr p⟩ := by
  obtain ⟨hfile, hint⟩ := ha ed.fd hne
  rw [hfile, hint]
  exact h p ed hp

theorem Registered.step (h : Registered listen_sock s) (hi : Inv listen_sock s)
    (ht : Trans listen_sock s t) : Registered listen_sock t := by
  cases ht with
  | wait | ignore => exact h
  | accept e es conn k k' hp hfd hacc hadd =>
      obtain ⟨hfree, -, -, -, ha⟩ := Kernel.accept_eq_some hacc
      obtain ⟨-, -, -, ha'⟩ := Kernel.add_eq_some hadd
      intro p ed hped
      refine h.agreeOff (ha.trans ha') hped ?_
      rintro rfl
      obtain ⟨c, hc⟩ := (h p ed hped).2.1
      rw [hfree] at hc
      cases hc
  | hangUp e es p buf calls k hp hfd hin hfresh hcalls hdel =>
      obtain ⟨hst, hefd⟩ := hi.entry_in hp hfd hin
      obtain ⟨-, hnext⟩ := hi.next_entry hp
      rcases hnext with ⟨-, hlow⟩ | ⟨-, -, r, hr, -, hdata, -⟩
      · exact absurd hlow hfd
      · obtain ⟨-, -, -, ha⟩ := Kernel.delete_eq_some hdel
        intro x ed hx
        have hx' := echo_of_update_buf hx
        refine h.agreeOff (ha.trans (k.close_agreeOff e.data.fd)) hx' ?_
        rw [hefd]
        exact h.ne_of_fd hr (hdata ▸ hst) hx'
  | handOver e es p q buf n calls k hp hfd hin hfp hfq hqp hlow hn hcalls hmod =>
      obtain ⟨hst, hefd⟩ := hi.entry_in hp hfd hin
      obtain ⟨hopen, hnext⟩ := hi.next_entry hp
      rcases hnext with ⟨-, hlow⟩ | ⟨-, -, r, hr, -, hdata, -⟩
      · exact absurd hlow hfd
      · obtain ⟨hfile, hint, -, ha⟩ := Kernel.modify_eq_some hmod
        intro x ed hx
        rcases echo_of_update_echo hx with ⟨rfl, rfl⟩ | hx
        · refine ⟨hfd, ⟨e.file, ?_⟩, hint⟩
          dsimp only
          rw [hfile, hefd]
          exact hopen
        · have hx' := echo_of_update_buf hx
          refine h.agreeOff ha hx' ?_
          rw [hefd]
          exact h.ne_of_fd hr (hdata ▸ hst) hx'
  | rearm e es ed calls k hp hfd hout hed hcalls hmod =>
      obtain ⟨-, -, -, ha⟩ := Kernel.modify_eq_some hmod
      intro x ed' hx
      obtain ⟨hxp, hx⟩ := some_of_update_none hx
      obtain ⟨-, hx⟩ := some_of_update_none hx
      refine h.agreeOff ha hx ?_
      intro heq
      have hreg := (h x ed' hx).2.2
      rw [heq, (h _ ed hed).2.2] at hreg
      cases hreg
      exact hxp rfl

theorem registered_of_reachable {word : BitVec 64} (h : (server listen_sock word).Reachable s) :
    Registered listen_sock s := by
  apply h.invariant (I := Registered listen_sock) (fun _ _ hp => by cases hp)
  exact fun hr hreg hst => hreg.step (inv_of_reachable hr) (step_trans hst)

theorem Registered.holds (h : Registered listen_sock s) (hi : Inv listen_sock s) {p : Ptr}
    {ed : EchoData} (hp : s.heap p = some (.echo ed)) : Holds s ed.fd p ed.data := by
  obtain ⟨-, hopen, hint⟩ := h p ed hp
  obtain ⟨b, -, hb, -⟩ := hi.owned.backed p ed hp
  exact ⟨hopen, hint, hp, b, hb⟩

theorem heapExact_of_kept (h : Kept s) (hreg : Registered listen_sock s)
    (hi : Inv listen_sock s) : HeapExact listen_sock s where
  owned fd r hfd hr hev := by
    rcases hi.conns fd hfd with ⟨-, hnone⟩ | ⟨c, r', -, hr', hcoded, -⟩
    · rw [hr] at hnone
      cases hnone
    · rw [hr] at hr'
      cases hr'
      cases hcoded with
      | fd hin =>
          rw [hev] at hin
          cases hin
      | ptr ed _ _ hed hedfd => exact ⟨r.data.ptr, ed.data, hedfd ▸ hreg.holds hi hed⟩
  live x b hx := by
    cases b with
    | echo ed => exact ⟨ed.fd, x, ed.data, hreg.holds hi hx, .inl rfl⟩
    | buf b =>
        obtain ⟨p, ed, hp, rfl⟩ := h x b hx
        exact ⟨ed.fd, p, ed.data, hreg.holds hi hp, .inr rfl⟩
  distinct fd fd' p q p' q' hold hold' hne := by
    have hpp : p ≠ p' := by
      rintro rfl
      have heq := hold.echo.symm.trans hold'.echo
      cases heq
      exact hne rfl
    exact ⟨hpp, fun hqq => hpp (hi.owned.unshared p p' _ _ hold.echo hold'.echo hqq)⟩

theorem HeapExact.not_orphan (h : HeapExact listen_sock s) : ¬ Orphan s := by
  rintro ⟨x, b, hx, hfree⟩
  obtain ⟨fd, p, q, hold, rfl | rfl⟩ := h.live x _ hx
  · rw [hold.echo] at hx
    cases hx
  · exact hfree p _ hold.echo rfl

/-- The heap is exact after a run exactly if the run hung up no connection. -/
theorem heap_exact_iff {word : BitVec 64} {as : List Act}
    (h : (server listen_sock word).run as = some s) :
    HeapExact listen_sock s ↔
      (server listen_sock word).Meets (fun s a => ¬ HangsUp listen_sock s a)
        (server listen_sock word).init as := by
  constructor
  · intro hexact
    refine Machine.Reachable.meets_of_mark (K := Orphan) .init ?_ ?_ h hexact.not_orphan
    · intro s t a hr hc hst
      rcases step_heap hst with ⟨-, p, buf, hp, hh⟩ | ⟨hnot, -⟩
      · exact orphan_of_leak (inv_of_reachable hr) hp hh
      · exact absurd hnot hc
    · exact fun _ horphan hst => horphan.step hst
  · intro hmeets
    have hr := Machine.ReachableBy.runFrom .init hmeets h
    have hkept : Kept s := by
      apply hr.invariant (I := Kept) (fun _ _ hx => by cases hx)
      intro s t a hr hkept hc hst
      rcases step_heap hst with ⟨hup, -⟩ | ⟨-, hs⟩
      · exact absurd hup hc
      · exact hkept.heapStep (inv_of_reachable hr.reachable) hs
    exact heapExact_of_kept hkept (registered_of_reachable hr.reachable)
      (inv_of_reachable hr.reachable)

/-- No drain of the run hangs up, on whatever connection. -/
def drainsData (_ : State) : Act → Bool
  | .wait _ => true
  | .handle a => !hangsUp false a.reads

theorem not_hangsUp_of_drainsData {a : Act} (h : drainsData s a = true) :
    ¬ HangsUp listen_sock s a := by
  cases a with
  | wait ready => exact id
  | handle a =>
      rintro ⟨e, es, -, -, -, hup⟩
      simp [drainsData, hup] at h

theorem heap_exact_iff_echoPending :
    ∃ s, (server 3 0xdeadbeef00000000).run echoPending = some s ∧
      (s.heap 0x7f0000001000).isSome ∧ HeapExact 3 s := by
  have hrun : ((server 3 0xdeadbeef00000000).checkedFrom drainsData
      (server 3 0xdeadbeef00000000).init echoPending).map
        (fun s => (s.heap 0x7f0000001000).isSome) = some true := by decide +kernel
  obtain ⟨s, hs, hview⟩ := Option.map_eq_some_iff.1 hrun
  have hmeets := Machine.meets_of_checked (D := fun s a => ¬ HangsUp 3 s a)
    (fun s a hc => not_hangsUp_of_drainsData hc) hs
  have hs' := Machine.runFrom_of_checked hs
  exact ⟨s, hs', hview, (heap_exact_iff hs').2 hmeets⟩

/-- A connection on descriptor 5 is reported ready. -/
def firstDrain : List Act :=
  [.wait [(3, EPOLLIN)], .handle ⟨some 5, 0, 0, [], []⟩, .wait [(5, EPOLLIN)]]

/-- The connection is closed by its peer: it is gone, and its buffer stays allocated. -/
theorem buffer_leaks :
    ∃ s, (server 3 0).Reachable s ∧ s.kernel.file 5 = none ∧
      (s.heap 0x7f0000001000).isSome ∧ ¬ HeapExact 3 s := by
  have hready : ((server 3 0).run firstDrain).map State.pending =
      some [⟨5, 1, EPOLLIN, EpollData.setFd ⟨3, .fd⟩ 5⟩] := by decide +kernel
  obtain ⟨u, hu, hreach, hp⟩ := Machine.reachable_of_run_map hready
  have hrun : ((server 3 0).run
      (firstDrain ++ [.handle ⟨none, 0x7f0000001000, 0, [.eof], []⟩])).map
      (fun s => (s.kernel.file 5, (s.heap 0x7f0000001000).isSome)) = some (none, true) := by
    decide +kernel
  obtain ⟨s, hs, hreach', hview⟩ := Machine.reachable_of_run_map hrun
  obtain ⟨hfile, hlive⟩ := Prod.mk.inj hview
  have hstep : step 3 u (.handle ⟨none, 0x7f0000001000, 0, [.eof], []⟩) = some s :=
    Machine.step_of_run hu hs
  refine ⟨s, hreach', hfile, hlive, fun hexact => ?_⟩
  rcases step_heap hstep with ⟨-, p, buf, hp', hh⟩ | ⟨hnot, -⟩
  · exact hexact.not_orphan (orphan_of_leak (inv_of_reachable hreach) hp' hh)
  · exact hnot ⟨_, [], hp, by decide, by decide, rfl⟩

end Londa.LongConnection
