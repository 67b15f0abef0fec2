import Londa.ViaEpollRegistration

/-!
# Echoes through the shared buffer

What `do_read` stored for one client stays in `buf` until the next `do_write`, for
whichever client that is. As long as data are read only while no other client has
an answer unsent, `buf` is either clear or holds exactly the unsent answer of the
one client that is registered for `EPOLLOUT`, and every client is sent what it
sent. A read in between puts the data of one client into the answer of another.
-/

namespace Londa.ViaEpoll

open Epoll (Registration Kernel EPOLLIN EPOLLOUT)
open Transfers (received sent)

variable {listenfd : ℕ} {s t : State}

/-- Chunks are short and hold no zero byte, and writes accept all that is offered. -/
def plain (s : State) : Act → Bool
  | .wait _ => true
  | .handle a =>
      (a.read.all fun chunk => decide (chunk.length < MAXSIZE) && !chunk.contains 0) &&
        a.write.all fun nwrite => nwrite == (offered s.buf a.behind).length

/-- Where `do_read` is about to receive data, no other client has an answer unsent. -/
def ReadsAlone (listenfd : ℕ) (s : State) : Act → Prop
  | .wait _ => True
  | .handle a => ∀ e es chunk, s.pending = e :: es → e.data ≠ listenfd →
      Epoll.has e.events EPOLLIN → a.read = some chunk → chunk ≠ [] →
      ∀ fd r, fd ≠ e.data → s.kernel.interest fd = some r → r.events ≠ EPOLLOUT

/-- Every client has been sent a prefix of what it sent, and all of it while the
server waits for more. -/
def Echoes (listenfd : ℕ) (s : State) : Prop :=
  (∀ c, sent s.log c <+: received s.log c) ∧
    ∀ fd c, fd ≠ listenfd → s.kernel.file fd = some c →
      s.kernel.interest fd = some ⟨EPOLLIN, fd⟩ → sent s.log c = received s.log c

/-- No client but `fd` has an answer unsent. -/
def OnlyWriter (k : Kernel ℕ ℕ) (fd : ℕ) : Prop :=
  ∀ x r, x ≠ fd → k.interest x = some r → r.events ≠ EPOLLOUT

inductive Echo (s : State) : Prop
  | clear : (∀ x r, s.kernel.interest x = some r → r.events ≠ EPOLLOUT) →
      s.buf = Buffer.zero → (∀ fd c, s.kernel.file fd = some c → sent s.log c = received s.log c) →
      (∀ c, sent s.log c <+: received s.log c) → Echo s
  | holding (fd c : ℕ) (chunk : List UInt8) : s.kernel.file fd = some c →
      s.kernel.interest fd = some ⟨EPOLLOUT, fd⟩ → OnlyWriter s.kernel fd →
      s.buf = Buffer.zero.store 0 chunk → chunk.length < MAXSIZE → (0 : UInt8) ∉ chunk →
      received s.log c = sent s.log c ++ chunk →
      (∀ x c', c' ≠ c → s.kernel.file x = some c' → sent s.log c' = received s.log c') →
      (∀ c', c' ≠ c → sent s.log c' <+: received s.log c') → Echo s

theorem epollin_ne_epollout : EPOLLIN ≠ EPOLLOUT := by decide

theorem plain_read {a : Answers} {chunk : List UInt8} (h : plain s (.handle a))
    (hr : a.read = some chunk) : chunk.length < MAXSIZE ∧ (0 : UInt8) ∉ chunk := by
  simp only [plain, hr] at h
  simpa using (Bool.and_eq_true_iff.1 h).1

theorem plain_write {a : Answers} {nwrite : ℕ} (h : plain s (.handle a))
    (hw : a.write = some nwrite) : nwrite = (offered s.buf a.behind).length := by
  simp only [plain, hw] at h
  simpa using (Bool.and_eq_true_iff.1 h).2

theorem offered_store {chunk behind : List UInt8} (hlen : chunk.length < MAXSIZE)
    (hnul : (0 : UInt8) ∉ chunk) : offered (Buffer.zero.store 0 chunk) behind = chunk := by
  unfold offered
  rw [Buffer.strlen_store_zero hlen hnul]
  exact Buffer.slice_store

namespace Echo

theorem initial (listenfd : ℕ) : Echo (start listenfd) := by
  refine .clear ?_ rfl (fun _ _ _ => rfl) (fun _ => List.prefix_rfl)
  intro x r hx
  have hinv := Inv.initial listenfd
  by_cases hxl : x = listenfd
  · obtain ⟨c, -, hint⟩ := hinv.listener
    rw [hxl, hint] at hx
    cases hx
    exact epollin_ne_epollout
  · cases hinv.clients x hxl with
    | closed _ hi =>
        rw [hi] at hx
        cases hx
    | reading c _ hi _ =>
        rw [hi] at hx
        cases hx
        exact epollin_ne_epollout
    | writing c _ _ hl => cases hl

theorem sent_prefix (h : Echo s) (c : ℕ) : sent s.log c <+: received s.log c := by
  cases h with
  | clear _ _ _ hpre => exact hpre c
  | holding fd c' chunk _ _ _ _ _ _ hrec _ hpre =>
      by_cases hc : c = c'
      · rw [hc, hrec]
        exact List.prefix_append _ _
      · exact hpre c hc

theorem echoes (h : Echo s) (hinv : Inv listenfd s) : Echoes listenfd s := by
  refine ⟨h.sent_prefix, fun fd c hfd hc hin => ?_⟩
  cases h with
  | clear _ _ hall _ => exact hall fd c hc
  | holding fd' c' chunk hfile hint _ _ _ _ _ hall _ =>
      refine hall fd c ?_ hc
      rintro rfl
      rw [hinv.numbered.injective fd fd' c hc hfile, hint] at hin
      cases hin

/-- What is in `buf` when the event of a client with an unsent answer is handled. -/
theorem held (h : Echo s) {fd c : ℕ} (hfile : s.kernel.file fd = some c)
    (hint : s.kernel.interest fd = some ⟨EPOLLOUT, fd⟩) :
    OnlyWriter s.kernel fd ∧
      (∃ chunk, s.buf = Buffer.zero.store 0 chunk ∧ chunk.length < MAXSIZE ∧
        (0 : UInt8) ∉ chunk ∧ received s.log c = sent s.log c ++ chunk) ∧
      ∀ x c', c' ≠ c → s.kernel.file x = some c' → sent s.log c' = received s.log c' := by
  cases h with
  | clear hno => exact absurd rfl (hno fd _ hint)
  | holding fd' c' chunk hfile' _ honly hbuf hlen hnul hrec hall _ =>
      have hfd : fd = fd' := by
        by_contra hne
        exact honly fd _ hne hint rfl
      subst hfd
      rw [hfile] at hfile'
      cases hfile'
      exact ⟨honly, ⟨chunk, hbuf, hlen, hnul, hrec⟩, hall⟩

/-- A client without an unsent answer is opened or closed. -/
theorem reopen (h : Echo s) {fd : ℕ} (hoff : Kernel.AgreeOff fd s.kernel t.kernel)
    (hlog : t.log = s.log) (hbuf : t.buf = s.buf)
    (hs : ∀ r, s.kernel.interest fd = some r → r.events ≠ EPOLLOUT)
    (ht : ∀ r, t.kernel.interest fd = some r → r.events ≠ EPOLLOUT)
    (hfd : ∀ c, t.kernel.file fd = some c → sent s.log c = received s.log c) : Echo t := by
  have hfiles : ∀ x c, t.kernel.file x = some c → (s.kernel.file x = some c ∨
      sent s.log c = received s.log c) := by
    intro x c hx
    by_cases hxf : x = fd
    · subst x
      exact Or.inr (hfd c hx)
    · rw [(hoff x hxf).1] at hx
      exact Or.inl hx
  have hints : ∀ x r, t.kernel.interest x = some r → r.events = EPOLLOUT →
      x ≠ fd ∧ s.kernel.interest x = some r := by
    intro x r hx hout
    by_cases hxf : x = fd
    · subst x
      exact absurd hout (ht r hx)
    · rw [(hoff x hxf).2] at hx
      exact ⟨hxf, hx⟩
  cases h with
  | clear hno hz hall hpre =>
      refine .clear ?_ (hbuf.trans hz) ?_ (hlog ▸ hpre)
      · intro x r hx hout
        exact hno x r (hints x r hx hout).2 hout
      · intro x c hx
        rw [hlog]
        rcases hfiles x c hx with hx | heq
        · exact hall x c hx
        · exact heq
  | holding fd' c chunk hfile hint honly hz hlen hnul hrec hall hpre =>
      have hne : fd' ≠ fd := by
        rintro rfl
        exact hs _ hint rfl
      obtain ⟨hfile', hint'⟩ := hoff fd' hne
      refine .holding fd' c chunk (hfile'.trans hfile) (hint'.trans hint) ?_ (hbuf.trans hz) hlen
        hnul (hlog ▸ hrec) ?_ (hlog ▸ hpre)
      · intro x r hx hr hout
        exact honly x r hx (hints x r hr hout).2 hout
      · intro x c' hne' hx
        rw [hlog]
        rcases hfiles x c' hx with hx | heq
        · exact hall x c' hne' hx
        · exact heq

/-- The unsent answer leaves `buf`, sent or given up. -/
theorem settle (h : Echo s) (hnum : s.kernel.Numbered) {fd c : ℕ}
    (hfile : s.kernel.file fd = some c) (hint : s.kernel.interest fd = some ⟨EPOLLOUT, fd⟩)
    (hoff : Kernel.AgreeOff fd s.kernel t.kernel) (hbuf : t.buf = Buffer.zero)
    (ht : ∀ r, t.kernel.interest fd = some r → r.events ≠ EPOLLOUT)
    (hfd : ∀ c', t.kernel.file fd = some c' → c' = c ∧ sent t.log c = received t.log c)
    (hpre : sent t.log c <+: received t.log c)
    (hother : ∀ c', c' ≠ c →
      sent t.log c' = sent s.log c' ∧ received t.log c' = received s.log c') : Echo t := by
  obtain ⟨honly, -, hall⟩ := h.held hfile hint
  refine .clear ?_ hbuf ?_ ?_
  · intro x r hx
    by_cases hxf : x = fd
    · subst x
      exact ht r hx
    · rw [(hoff x hxf).2] at hx
      exact honly x r hxf hx
  · intro x c' hx
    by_cases hxf : x = fd
    · subst x
      obtain ⟨rfl, heq⟩ := hfd c' hx
      exact heq
    · rw [(hoff x hxf).1] at hx
      have hc : c' ≠ c := by
        rintro rfl
        exact hxf (hnum.injective x fd _ hx hfile)
      rw [(hother c' hc).1, (hother c' hc).2]
      exact hall x c' hc hx
  · intro c'
    by_cases hc : c' = c
    · exact hc ▸ hpre
    · rw [(hother c' hc).1, (hother c' hc).2]
      exact h.sent_prefix c'

theorem read (h : Echo s) (hinv : Inv listenfd s) {e : Epoll.Report ℕ ℕ}
    {es : List (Epoll.Report ℕ ℕ)} {chunk : List UInt8} (hp : s.pending = e :: es)
    (hint : s.kernel.interest e.fd = some ⟨EPOLLIN, e.fd⟩) (hlen : chunk.length < MAXSIZE)
    (hnul : (0 : UInt8) ∉ chunk) (halone : OnlyWriter s.kernel e.fd)
    (hk : t.kernel = modifyEvent s.kernel e.fd EPOLLOUT) (hbuf : t.buf = s.buf.store 0 chunk)
    (hlog : t.log = s.log ++ [⟨e.file, .read, chunk⟩]) : Echo t := by
  have hopen := (hinv.next_entry hp).1
  obtain ⟨hfile, hint', -, hoff⟩ := modifyEvent_spec e.fd EPOLLOUT (by rw [hint]; rfl)
  rw [← hk] at hfile hint' hoff
  cases h with
  | holding fd' c chunk' _ hout =>
      by_cases hfd : fd' = e.fd
      · rw [hfd, hint] at hout
        cases hout
      · exact absurd rfl (halone fd' _ hfd hout)
  | clear hno hz hall hpre =>
      refine .holding e.fd e.file chunk (by rw [hfile, hopen]) hint' ?_ (by rw [hbuf, hz]) hlen hnul
        ?_ ?_ ?_
      · intro x r hx hr
        rw [(hoff x hx).2] at hr
        exact halone x r hx hr
      · rw [hlog, Transfers.received_append_read, Transfers.sent_append_read,
          hall e.fd e.file hopen]
      · intro x c' hc hx
        rw [hfile] at hx
        rw [hlog, Transfers.received_append_of_ne _ _ _ _ _ hc.symm, Transfers.sent_append_read]
        exact hall x c' hx
      · intro c' hc
        rw [hlog, Transfers.received_append_of_ne _ _ _ _ _ hc.symm, Transfers.sent_append_read]
        exact hpre c'

theorem write (h : Echo s) (hinv : Inv listenfd s) {e : Epoll.Report ℕ ℕ}
    {es : List (Epoll.Report ℕ ℕ)} {behind : List UInt8} (hp : s.pending = e :: es)
    (hint : s.kernel.interest e.fd = some ⟨EPOLLOUT, e.fd⟩)
    (hk : t.kernel = modifyEvent s.kernel e.fd EPOLLIN) (hbuf : t.buf = Buffer.zero)
    (hlog : t.log = s.log ++ [⟨e.file, .write, offered s.buf behind⟩]) : Echo t := by
  have hopen := (hinv.next_entry hp).1
  obtain ⟨hfile, hint', -, hoff⟩ := modifyEvent_spec e.fd EPOLLIN (by rw [hint]; rfl)
  rw [← hk] at hfile hint' hoff
  obtain ⟨-, ⟨chunk, hz, hlen, hnul, hrec⟩, -⟩ := h.held hopen hint
  have hall : sent t.log e.file = received t.log e.file := by
    rw [hlog, Transfers.sent_append_write, Transfers.received_append_write, hz,
      offered_store hlen hnul, hrec]
  apply h.settle hinv.numbered hopen hint hoff hbuf
  · intro r hr
    rw [hint'] at hr
    cases hr
    exact epollin_ne_epollout
  · intro c' hc'
    rw [hfile, hopen] at hc'
    cases hc'
    exact ⟨rfl, hall⟩
  · exact hall ▸ List.prefix_rfl
  · intro c' hc'
    rw [hlog]
    exact ⟨Transfers.sent_append_of_ne _ _ _ _ _ hc'.symm, Transfers.received_append_write _ _ _ _⟩

theorem pending (h : Echo s) (es : List (Epoll.Report ℕ ℕ)) : Echo { s with pending := es } := by
  cases h with
  | clear hno hz hall hpre => exact .clear hno hz hall hpre
  | holding fd c chunk hfile hint honly hz hlen hnul hrec hall hpre =>
      exact .holding fd c chunk hfile hint honly hz hlen hnul hrec hall hpre

theorem accept (h : Echo s) (hinv : Inv listenfd s) {clifd : ℕ} {k : Kernel ℕ ℕ}
    (hacc : s.kernel.accept clifd = some k) (hk : t.kernel = addEvent k clifd EPOLLIN)
    (hbuf : t.buf = s.buf) (hlog : t.log = s.log) : Echo t := by
  obtain ⟨hfree, hfile, hint, -, -, hoff⟩ := hinv.accept_spec hacc hk
  have hunreg := hinv.unregistered hfree
  apply h.reopen hoff hlog hbuf
  · intro r hr
    rw [hunreg] at hr
    cases hr
  · intro r hr
    rw [hint] at hr
    cases hr
    exact epollin_ne_epollout
  · intro c hc
    rw [hfile] at hc
    cases hc
    have hnew : ∀ x ∈ s.log, x.conn ≠ s.kernel.next := fun x hx => (hinv.logged x hx).ne
    exact (Transfers.bytesOf_eq_nil _ hnew).trans (Transfers.bytesOf_eq_nil _ hnew).symm

theorem hangUp (h : Echo s) (hinv : Inv listenfd s) {e : Epoll.Report ℕ ℕ}
    {es : List (Epoll.Report ℕ ℕ)} (hp : s.pending = e :: es)
    (hk : t.kernel = s.kernel.close e.fd) (hlog : t.log = s.log)
    (hbuf : t.buf = s.buf ∧ s.kernel.interest e.fd = some ⟨EPOLLIN, e.fd⟩ ∨
      t.buf = Buffer.zero ∧ s.kernel.interest e.fd = some ⟨EPOLLOUT, e.fd⟩) : Echo t := by
  have hoff := s.kernel.close_agreeOff e.fd
  have hclosed : t.kernel.file e.fd = none := hk ▸ Kernel.close_file e.fd
  have hgone : ∀ r, t.kernel.interest e.fd = some r → r.events ≠ EPOLLOUT := by
    intro r hr
    rw [hk, Kernel.close_interest] at hr
    cases hr
  rw [← hk] at hoff
  rcases hbuf with ⟨hbuf, hint⟩ | ⟨hbuf, hint⟩
  · refine h.reopen hoff hlog hbuf ?_ hgone ?_
    · intro r hr
      rw [hint] at hr
      cases hr
      exact epollin_ne_epollout
    · intro c hc
      rw [hclosed] at hc
      cases hc
  · apply h.settle hinv.numbered (hinv.next_entry hp).1 hint hoff hbuf hgone
    · intro c hc
      rw [hclosed] at hc
      cases hc
    · exact hlog ▸ h.sent_prefix e.file
    · intro c' _
      rw [hlog]
      exact ⟨rfl, rfl⟩

theorem step {a : Act} (h : Echo s) (hinv : Inv listenfd s) (hplain : plain s a)
    (halone : ReadsAlone listenfd s a) (ht : Trans listenfd s a t) : Echo t := by
  cases ht with
  | wait ready es => exact h.pending es
  | accept a e es clifd k hp hfd hacc => exact h.accept hinv hacc rfl rfl rfl
  | idle a e es => exact h.pending es
  | hangUp a e es buf hp hwhy =>
      rw [(hinv.next_entry hp).2, deleteEvent_close]
      refine h.hangUp hinv hp rfl rfl ?_
      rcases hwhy with ⟨hbuf, hfd, hin⟩ | ⟨hbuf, hout⟩
      · exact Or.inl ⟨hbuf, (hinv.entry_in hp hfd hin).2⟩
      · exact Or.inr ⟨hbuf, (hinv.entry_out hp hout).2⟩
  | read a e es chunk hp hfd hin hread hne hlen =>
      obtain ⟨hopen, hdata⟩ := hinv.next_entry hp
      have hint := (hinv.entry_in hp hfd hin).2
      obtain ⟨hlen', hnul⟩ := plain_read hplain hread
      have hal := halone e es chunk hp hfd hin hread hne
      rw [hdata] at hal ⊢
      exact h.read hinv hp hint hlen' hnul hal rfl rfl (record_log hopen)
  | write a e es nwrite hp hout hwrite hle =>
      obtain ⟨hopen, hdata⟩ := hinv.next_entry hp
      have hint := (hinv.entry_out hp hout).2
      have hall := plain_write hplain hwrite
      rw [hdata, hall, List.take_length]
      exact h.write hinv hp hint rfl rfl (record_log hopen)

end Echo

theorem echoes_of_readsAlone
    (h : (server listenfd).ReachableBy (fun s a => plain s a ∧ ReadsAlone listenfd s a) s) :
    Echoes listenfd s := by
  have hecho : Echo s := by
    apply h.invariant (I := Echo) (Echo.initial listenfd)
    intro s t a hr hi hc hst
    exact hi.step (inv_of_reachable hr.reachable) hc.1 hc.2 (step_trans hst)
  exact hecho.echoes (inv_of_reachable h.reachable)

/-- Nothing is unsent before the first transfer. -/
theorem readsAlone_of_log {a : Act} (h : (server listenfd).Reachable s) (hlog : s.log = []) :
    ReadsAlone listenfd s a := by
  cases a with
  | wait ready => trivial
  | handle a =>
      intro e es chunk _ _ _ _ _ fd r _ hr hout
      have hinv := inv_of_reachable h
      by_cases hfd : fd = listenfd
      · obtain ⟨c, -, hint⟩ := hinv.listener
        rw [hfd, hint] at hr
        cases hr
        exact epollin_ne_epollout hout
      · cases hinv.clients fd hfd with
        | closed _ hi =>
            rw [hi] at hr
            cases hr
        | reading c _ hi _ =>
            rw [hi] at hr
            cases hr
            exact epollin_ne_epollout hout
        | writing c _ _ hl =>
            rw [hlog] at hl
            cases hl

def oneClient : List Act :=
  [.wait [(3, EPOLLIN)], .handle ⟨some 5, none, none, []⟩,
    .wait [(5, EPOLLIN)], .handle ⟨none, some [104, 105], none, []⟩,
    .wait [(5, EPOLLOUT)], .handle ⟨none, none, some 2, []⟩]

theorem echoes_of_readsAlone_oneClient :
    ∃ s, (server 3).ReachableBy (fun s a => plain s a ∧ ReadsAlone 3 s a) s ∧
      s.kernel.file 5 = some 1 ∧ sent s.log 1 = [104, 105] ∧ Echoes 3 s := by
  have hrun : ((server 3).checkedFrom (fun s a => plain s a && match a with
      | .wait _ => true
      | .handle a => a.read.isNone || s.log.isEmpty) (server 3).init oneClient).map
      (fun s => (s.kernel.file 5, sent s.log 1)) = some (some 1, [104, 105]) := by decide +kernel
  obtain ⟨s, hs, hview⟩ := Machine.reachableBy_of_checked hrun
  obtain ⟨h5, hsent⟩ := Prod.mk.inj hview
  have hs' : (server 3).ReachableBy (fun s a => plain s a ∧ ReadsAlone 3 s a) s := by
    refine hs.mono_reachable (fun s a hr hc => ?_)
    obtain ⟨hplain, hread⟩ := Bool.and_eq_true_iff.1 hc
    refine ⟨hplain, ?_⟩
    cases a with
    | wait ready => trivial
    | handle a =>
        rcases Bool.or_eq_true_iff.1 hread with hnone | hlog
        · intro e es chunk _ _ _ hchunk
          rw [hchunk] at hnone
          cases hnone
        · exact readsAlone_of_log hr (List.isEmpty_iff.1 hlog)
  exact ⟨s, hs', h5, hsent, echoes_of_readsAlone hs'⟩

/-- Clients 5 and 6 send one byte each; both are read before either is answered. -/
def twoClients : List Act :=
  [.wait [(3, EPOLLIN)], .handle ⟨some 5, none, none, []⟩,
    .wait [(3, EPOLLIN)], .handle ⟨some 6, none, none, []⟩,
    .wait [(5, EPOLLIN), (6, EPOLLIN)],
    .handle ⟨none, some [97], none, []⟩, .handle ⟨none, some [98], none, []⟩,
    .wait [(5, EPOLLOUT)], .handle ⟨none, none, some 1, []⟩]

theorem shared_buffer_crosses_clients :
    ∃ s, (server 3).ReachableBy (fun s a => plain s a) s ∧ received s.log 1 = [97] ∧
      sent s.log 1 = [98] ∧ ¬ Echoes 3 s := by
  have hrun : ((server 3).checkedFrom plain (server 3).init twoClients).map
      (fun s => (received s.log 1, sent s.log 1)) = some ([97], [98]) := by decide +kernel
  obtain ⟨s, hs, hview⟩ := Machine.reachableBy_of_checked hrun
  obtain ⟨hrec, hsent⟩ := Prod.mk.inj hview
  refine ⟨s, hs, hrec, hsent, fun hecho => ?_⟩
  have hpre := hecho.1 1
  rw [hrec, hsent] at hpre
  exact absurd hpre (by decide)

end Londa.ViaEpoll
