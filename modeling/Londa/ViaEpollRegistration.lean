import Londa.ViaEpoll

/-!
# Registrations of the epoll echo server

Between two handled events exactly the listening descriptor and the open clients
are registered. A client asks for `EPOLLOUT` while what was last read from it is
unsent and for `EPOLLIN` otherwise. Only the event of a descriptor closes it, and
`accept` returns descriptors that are not open, so the entries of a batch that
are still to be handled name the connections they were reported for.
-/

namespace Londa.ViaEpoll

open Epoll (Events Kernel Current EPOLLIN EPOLLOUT)

variable {listenfd : ℕ} {s t : State} {k k' : Kernel ℕ ℕ} {log log' : List (Transfer ℕ)}

theorem addEvent_spec (fd : ℕ) (state : Events) (hfile : (k.file fd).isSome)
    (hint : k.interest fd = none) :
    (addEvent k fd state).file = k.file ∧ (addEvent k fd state).interest fd = some ⟨state, fd⟩ ∧
      (addEvent k fd state).next = k.next ∧ Kernel.AgreeOff fd k (addEvent k fd state) := by
  obtain ⟨k', hk⟩ := Kernel.exists_add (r := ⟨state, fd⟩) hfile hint
  unfold addEvent
  rw [hk]
  exact Kernel.add_eq_some hk

/-- `EPOLL_CTL_ADD` registers a descriptor that was not registered, or changes nothing. -/
theorem addEvent_cases (k : Kernel ℕ ℕ) (fd : ℕ) (state : Events) :
    addEvent k fd state = k ∨ k.interest fd = none ∧
      (addEvent k fd state).interest fd = some ⟨state, fd⟩ ∧
      Kernel.AgreeOff fd k (addEvent k fd state) := by
  by_cases h : (k.file fd).isSome ∧ k.interest fd = none
  · obtain ⟨-, hint, -, hoff⟩ := addEvent_spec fd state h.1 h.2
    exact .inr ⟨h.2, hint, hoff⟩
  · left
    unfold addEvent Kernel.add
    rw [if_neg (by rwa [Option.isNone_iff_eq_none])]
    rfl

theorem addEvent_agreeOff (k : Kernel ℕ ℕ) (fd : ℕ) (state : Events) :
    Kernel.AgreeOff fd k (addEvent k fd state) := by
  rcases addEvent_cases k fd state with heq | ⟨-, -, hoff⟩
  · rw [heq]
    exact Kernel.AgreeOff.refl fd k
  · exact hoff

/-- `EPOLL_CTL_DEL` leaves the descriptor unregistered whether it fails or not. -/
theorem deleteEvent_spec (k : Kernel ℕ ℕ) (fd : ℕ) :
    (deleteEvent k fd).interest fd = none ∧ Kernel.AgreeOff fd k (deleteEvent k fd) := by
  unfold deleteEvent
  cases h : k.delete fd with
  | none =>
      refine ⟨?_, Kernel.AgreeOff.refl fd k⟩
      unfold Kernel.delete at h
      split at h
      · cases h
      · rename_i hint
        simpa using hint
  | some k' =>
      obtain ⟨-, hint, -, hoff⟩ := Kernel.delete_eq_some h
      exact ⟨hint, hoff⟩

theorem modifyEvent_spec (fd : ℕ) (state : Events) (hint : (k.interest fd).isSome) :
    (modifyEvent k fd state).file = k.file ∧
      (modifyEvent k fd state).interest fd = some ⟨state, fd⟩ ∧
      (modifyEvent k fd state).next = k.next ∧ Kernel.AgreeOff fd k (modifyEvent k fd state) := by
  obtain ⟨k', hk⟩ := Kernel.exists_modify (r := ⟨state, fd⟩) hint
  unfold modifyEvent
  rw [hk]
  exact Kernel.modify_eq_some hk

/-- `close` has dropped the registration, so `EPOLL_CTL_DEL` changes nothing. -/
theorem deleteEvent_close (k : Kernel ℕ ℕ) (fd : ℕ) :
    deleteEvent (k.close fd) fd = k.close fd := by
  unfold deleteEvent
  rw [Kernel.delete_eq_none (Kernel.close_interest fd)]
  rfl

inductive Client (k : Kernel ℕ ℕ) (log : List (Transfer ℕ)) (fd : ℕ) : Prop
  | closed : k.file fd = none → k.interest fd = none → Client k log fd
  | reading (c : ℕ) : k.file fd = some c → k.interest fd = some ⟨EPOLLIN, fd⟩ →
      Transfers.last log c ≠ some .read → Client k log fd
  | writing (c : ℕ) : k.file fd = some c → k.interest fd = some ⟨EPOLLOUT, fd⟩ →
      Transfers.last log c = some .read → Client k log fd

structure Inv (listenfd : ℕ) (s : State) : Prop where
  listener : ∃ c, s.kernel.file listenfd = some c ∧
    s.kernel.interest listenfd = some ⟨EPOLLIN, listenfd⟩
  clients : ∀ fd, fd ≠ listenfd → Client s.kernel s.log fd
  current : Current s.kernel s.pending
  numbered : s.kernel.Numbered
  logged : ∀ x ∈ s.log, x.conn < s.kernel.next

theorem Client.frame {fd : ℕ} (h : Client k log fd) (hfile : k'.file fd = k.file fd)
    (hint : k'.interest fd = k.interest fd)
    (hlast : ∀ c, k.file fd = some c → Transfers.last log' c = Transfers.last log c) :
    Client k' log' fd := by
  cases h with
  | closed hf hi => exact .closed (hfile.trans hf) (hint.trans hi)
  | reading c hf hi hl =>
      exact .reading c (hfile.trans hf) (hint.trans hi) (by rwa [hlast c hf])
  | writing c hf hi hl =>
      exact .writing c (hfile.trans hf) (hint.trans hi) (by rwa [hlast c hf])

theorem no_epollout {events : Events} (h : Epoll.covers EPOLLIN events) :
    Epoll.has events EPOLLOUT = false := Epoll.has_eq_false_of_covers h (by decide)

theorem no_epollin {events : Events} (h : Epoll.covers EPOLLOUT events) :
    Epoll.has events EPOLLIN = false := Epoll.has_eq_false_of_covers h (by decide)

namespace Inv

theorem initial (listenfd : ℕ) : Inv listenfd (start listenfd) := by
  obtain ⟨hfile, hint, hnext, ha⟩ :=
    addEvent_spec listenfd EPOLLIN (by rw [Kernel.single_file]; rfl) rfl
  refine ⟨⟨0, ?_, hint⟩, fun fd hfd => ?_, Current.nil, ?_, fun x hx => by cases hx⟩
  · exact (congrFun hfile listenfd).trans (Kernel.single_file listenfd)
  · refine .closed ?_ (ha fd hfd).2
    exact (congrFun hfile fd).trans (Kernel.single_file_of_ne hfd)
  · exact (Kernel.Numbered.single listenfd).congr hfile hnext

/-- The frame rule of the handlers: a step that touches one client only has to
restore what the invariant says of that client. -/
theorem handled (h : Inv listenfd s) {fd : ℕ} (hne : fd ≠ listenfd)
    (ha : Kernel.AgreeOff fd s.kernel t.kernel) (hfd : Client t.kernel t.log fd)
    (hlast : ∀ x c, x ≠ fd → s.kernel.file x = some c →
      Transfers.last t.log c = Transfers.last s.log c)
    (hcur : Current t.kernel t.pending) (hnum : t.kernel.Numbered)
    (hlog : ∀ x ∈ t.log, x.conn < t.kernel.next) : Inv listenfd t := by
  refine ⟨?_, fun x hx => ?_, hcur, hnum, hlog⟩
  · obtain ⟨hfile, hint⟩ := ha listenfd hne.symm
    rw [hfile, hint]
    exact h.listener
  · by_cases hxf : x = fd
    · exact hxf ▸ hfd
    · obtain ⟨hfile, hint⟩ := ha x hxf
      exact (h.clients x hx).frame hfile hint (fun c hc => hlast x c hxf hc)

/-- What the invariant says of an entry that is still to be handled. -/
theorem entry (h : Inv listenfd s) {e : Epoll.Report ℕ ℕ} (he : e ∈ s.pending) :
    s.kernel.file e.fd = some e.file ∧ e.data = e.fd ∧
      ((e.fd = listenfd ∧ Epoll.has e.events EPOLLOUT = false) ∨
        (e.fd ≠ listenfd ∧ s.kernel.interest e.fd = some ⟨EPOLLIN, e.fd⟩ ∧
          Epoll.has e.events EPOLLOUT = false) ∨
        (e.fd ≠ listenfd ∧ s.kernel.interest e.fd = some ⟨EPOLLOUT, e.fd⟩ ∧
          Epoll.has e.events EPOLLIN = false)) := by
  obtain ⟨hfile, r, hr, hcov, hdata⟩ := h.current.reports e he
  refine ⟨hfile, ?_⟩
  by_cases hfd : e.fd = listenfd
  · obtain ⟨c, -, hint⟩ := h.listener
    rw [hfd, hint] at hr
    cases hr
    exact ⟨hdata.trans hfd.symm, Or.inl ⟨hfd, no_epollout hcov⟩⟩
  · cases h.clients e.fd hfd with
    | closed hf =>
        rw [hf] at hfile
        cases hfile
    | reading c hf hi hl =>
        rw [hi] at hr
        cases hr
        exact ⟨hdata, Or.inr (Or.inl ⟨hfd, hi, no_epollout hcov⟩)⟩
    | writing c hf hi hl =>
        rw [hi] at hr
        cases hr
        exact ⟨hdata, Or.inr (Or.inr ⟨hfd, hi, no_epollin hcov⟩)⟩

theorem next_entry (h : Inv listenfd s) {e : Epoll.Report ℕ ℕ} {es : List (Epoll.Report ℕ ℕ)}
    (hp : s.pending = e :: es) : s.kernel.file e.fd = some e.file ∧ e.data = e.fd := by
  obtain ⟨hfile, hdata, -⟩ := h.entry (hp ▸ List.mem_cons_self)
  exact ⟨hfile, hdata⟩

theorem entry_in (h : Inv listenfd s) {e : Epoll.Report ℕ ℕ} {es : List (Epoll.Report ℕ ℕ)}
    (hp : s.pending = e :: es) (hfd : e.data ≠ listenfd) (hin : Epoll.has e.events EPOLLIN) :
    e.fd ≠ listenfd ∧ s.kernel.interest e.fd = some ⟨EPOLLIN, e.fd⟩ := by
  obtain ⟨-, hdata, ⟨hl, -⟩ | ⟨hne, hi, -⟩ | ⟨-, -, hout⟩⟩ :=
    h.entry (hp ▸ List.mem_cons_self)
  · exact absurd (hdata.trans hl) hfd
  · exact ⟨hne, hi⟩
  · rw [hout] at hin
    cases hin

theorem entry_out (h : Inv listenfd s) {e : Epoll.Report ℕ ℕ} {es : List (Epoll.Report ℕ ℕ)}
    (hp : s.pending = e :: es) (hout : Epoll.has e.events EPOLLOUT) :
    e.fd ≠ listenfd ∧ s.kernel.interest e.fd = some ⟨EPOLLOUT, e.fd⟩ := by
  obtain ⟨-, -, ⟨-, hno⟩ | ⟨-, -, hno⟩ | ⟨hne, hi, -⟩⟩ :=
    h.entry (hp ▸ List.mem_cons_self)
  · rw [hno] at hout
    cases hout
  · rw [hno] at hout
    cases hout
  · exact ⟨hne, hi⟩

theorem ne_listenfd (h : Inv listenfd s) {fd : ℕ} (hfree : s.kernel.file fd = none) :
    fd ≠ listenfd := by
  rintro rfl
  obtain ⟨c, hc, -⟩ := h.listener
  rw [hfree] at hc
  cases hc

theorem unregistered (h : Inv listenfd s) {fd : ℕ} (hfree : s.kernel.file fd = none) :
    s.kernel.interest fd = none := by
  cases h.clients fd (h.ne_listenfd hfree) with
  | closed _ hi => exact hi
  | reading c hf _ _ | writing c hf _ _ =>
      rw [hfree] at hf
      cases hf

/-- The kernel after `accept` returned `clifd` and `add_event` registered it. -/
theorem accept_spec (h : Inv listenfd s) {clifd : ℕ} (hacc : s.kernel.accept clifd = some k)
    (hk : k' = addEvent k clifd EPOLLIN) :
    s.kernel.file clifd = none ∧ k'.file clifd = some s.kernel.next ∧
      k'.interest clifd = some ⟨EPOLLIN, clifd⟩ ∧ k'.next = s.kernel.next + 1 ∧
      k'.Numbered ∧ Kernel.AgreeOff clifd s.kernel k' := by
  obtain ⟨hfree, hfile, hint, hnext, hoff⟩ := Kernel.accept_eq_some hacc
  have hunreg : k.interest clifd = none := by
    rw [hint]
    exact h.unregistered hfree
  obtain ⟨hfile', hint', hnext', hoff'⟩ := addEvent_spec clifd EPOLLIN (by rw [hfile]; rfl) hunreg
  rw [← hk] at hfile' hint' hnext' hoff'
  exact ⟨hfree, (congrFun hfile' clifd).trans hfile, hint', hnext'.trans hnext,
    (h.numbered.accept hacc).congr hfile' hnext', hoff.trans hoff'⟩

theorem accept (h : Inv listenfd s) {clifd : ℕ} (hacc : s.kernel.accept clifd = some k)
    (hk : t.kernel = addEvent k clifd EPOLLIN) (hlog : t.log = s.log)
    (hcur : Current s.kernel t.pending) : Inv listenfd t := by
  obtain ⟨hfree, hfile, hint, hnext, hnum, hoff⟩ := h.accept_spec hacc hk
  refine h.handled (h.ne_listenfd hfree) hoff ?_ ?_ (hcur.accepted hfree hoff) hnum ?_
  · apply Client.reading s.kernel.next hfile hint
    rw [hlog, Transfers.last_eq_none]
    · nofun
    · intro x hx
      exact (h.logged x hx).ne
  · intro x c _ _
    rw [hlog]
  · intro x hx
    rw [hlog] at hx
    have hlt := h.logged x hx
    omega

theorem hangUp (h : Inv listenfd s) {e : Epoll.Report ℕ ℕ} {es : List (Epoll.Report ℕ ℕ)}
    (hp : s.pending = e :: es) (hne : e.fd ≠ listenfd) (hk : t.kernel = s.kernel.close e.fd)
    (hlog : t.log = s.log) (hpt : t.pending = es) : Inv listenfd t := by
  have hoff : Kernel.AgreeOff e.fd s.kernel t.kernel := hk ▸ s.kernel.close_agreeOff e.fd
  refine h.handled hne hoff ?_ ?_ (hpt ▸ (hp ▸ h.current).handled hoff) ?_ ?_
  · rw [hk]
    exact .closed (Kernel.close_file e.fd) (Kernel.close_interest e.fd)
  · intro x c _ _
    rw [hlog]
  · exact hk ▸ h.numbered.close e.fd
  · rw [hlog, hk]
    exact h.logged

/-- A transfer on the connection of the entry turns its registration round. -/
theorem transfer (h : Inv listenfd s) {e : Epoll.Report ℕ ℕ} {es : List (Epoll.Report ℕ ℕ)}
    {state : Events} {dir : Dir} {bytes : List UInt8} (hp : s.pending = e :: es)
    (hne : e.fd ≠ listenfd) (hint : (s.kernel.interest e.fd).isSome)
    (hdir : state = EPOLLOUT ∧ dir = .read ∨ state = EPOLLIN ∧ dir = .write)
    (hk : t.kernel = modifyEvent s.kernel e.fd state)
    (hlog : t.log = s.log ++ [⟨e.file, dir, bytes⟩]) (hpt : t.pending = es) :
    Inv listenfd t := by
  obtain ⟨hfile, hint', hnext, ha⟩ := modifyEvent_spec e.fd state hint
  have hopen : s.kernel.file e.fd = some e.file := (h.next_entry hp).1
  have hoff : Kernel.AgreeOff e.fd s.kernel t.kernel := hk ▸ ha
  refine h.handled hne hoff ?_ ?_ (hpt ▸ (hp ▸ h.current).handled hoff) ?_ ?_
  · have hopen' : t.kernel.file e.fd = some e.file := by rw [hk, hfile, hopen]
    rcases hdir with ⟨rfl, rfl⟩ | ⟨rfl, rfl⟩
    · refine .writing e.file hopen' (hk ▸ hint') ?_
      rw [hlog, Transfers.last_append]
    · refine .reading e.file hopen' (hk ▸ hint') ?_
      rw [hlog, Transfers.last_append]
      nofun
  · intro x c hx hc
    rw [hlog, Transfers.last_append_of_ne]
    rintro rfl
    exact hx (h.numbered.injective x e.fd _ hc hopen)
  · rw [hk]
    exact h.numbered.congr hfile hnext
  · intro x hx
    rw [hk, hnext]
    rw [hlog] at hx
    rcases List.mem_append.1 hx with hx | hx
    · exact h.logged x hx
    · obtain rfl := List.mem_singleton.1 hx
      exact h.numbered.below e.fd _ hopen

theorem step {a : Act} (h : Inv listenfd s) (ht : Trans listenfd s a t) : Inv listenfd t := by
  cases ht with
  | wait ready es hp hc => exact ⟨h.listener, h.clients, hc, h.numbered, h.logged⟩
  | accept a e es clifd k hp hfd hacc =>
      exact h.accept hacc rfl rfl (hp ▸ h.current).tail
  | idle a e es hp => exact ⟨h.listener, h.clients, (hp ▸ h.current).tail, h.numbered, h.logged⟩
  | hangUp a e es buf hp hwhy =>
      have hne : e.fd ≠ listenfd := by
        rcases hwhy with ⟨-, hfd, hin⟩ | ⟨-, hout⟩
        · exact (h.entry_in hp hfd hin).1
        · exact (h.entry_out hp hout).1
      rw [(h.next_entry hp).2, deleteEvent_close]
      exact h.hangUp hp hne rfl rfl rfl
  | read a e es chunk hp hfd hin =>
      obtain ⟨hne, hint⟩ := h.entry_in hp hfd hin
      obtain ⟨hopen, hdata⟩ := h.next_entry hp
      rw [hdata]
      exact h.transfer hp hne (by rw [hint]; rfl) (Or.inl ⟨rfl, rfl⟩) rfl (record_log hopen)
        (record_pending _ _ _)
  | write a e es nwrite hp hout =>
      obtain ⟨hne, hint⟩ := h.entry_out hp hout
      obtain ⟨hopen, hdata⟩ := h.next_entry hp
      rw [hdata]
      exact h.transfer hp hne (by rw [hint]; rfl) (Or.inr ⟨rfl, rfl⟩) rfl (record_log hopen)
        (record_pending _ _ _)

end Inv

theorem inv_of_reachable (h : (server listenfd).Reachable s) : Inv listenfd s :=
  h.invariant (Inv.initial listenfd) (fun _ hi hst => hi.step (step_trans hst))

/-- Handling an entry changes nothing for a connection that is not the entry's. -/
theorem Trans.only_entry {a : Act} (h : Inv listenfd s) (ht : Trans listenfd s a t)
    {e : Epoll.Report ℕ ℕ} {es : List (Epoll.Report ℕ ℕ)} (hp : s.pending = e :: es) :
    (t.log = s.log ∨ ∃ dir bytes, t.log = s.log ++ [⟨e.file, dir, bytes⟩]) ∧
      ∀ fd c, s.kernel.file fd = some c → c ≠ e.file →
        t.kernel.file fd = some c ∧ t.kernel.interest fd = s.kernel.interest fd := by
  obtain ⟨hopen, hdata⟩ := h.next_entry hp
  have hother : ∀ {fd c : ℕ}, s.kernel.file fd = some c → c ≠ e.file → fd ≠ e.fd := by
    rintro fd c hc hne rfl
    rw [hopen] at hc
    exact hne (Option.some.inj hc).symm
  have hframe : ∀ {k' : Kernel ℕ ℕ}, Kernel.AgreeOff e.fd s.kernel k' →
      ∀ fd c, s.kernel.file fd = some c → c ≠ e.file →
        k'.file fd = some c ∧ k'.interest fd = s.kernel.interest fd := by
    intro k' hoff fd c hc hne
    obtain ⟨hfile, hint⟩ := hoff fd (hother hc hne)
    exact ⟨hfile.trans hc, hint⟩
  cases ht with
  | wait ready es' hp' =>
      rw [hp] at hp'
      cases hp'
  | accept a e' es' clifd k hp' hfd hacc =>
      refine ⟨Or.inl rfl, fun fd c hc hne => ?_⟩
      obtain ⟨hfree, -, -, -, -, hoff⟩ := h.accept_spec hacc rfl
      have hfd : fd ≠ clifd := by
        rintro rfl
        rw [hfree] at hc
        cases hc
      obtain ⟨hf, hi⟩ := hoff fd hfd
      exact ⟨hf.trans hc, hi⟩
  | idle a e' es' hp' => exact ⟨Or.inl rfl, hframe (Kernel.AgreeOff.refl _ _)⟩
  | hangUp a e' es' buf hp' hwhy =>
      rw [hp] at hp'
      cases hp'
      refine ⟨Or.inl rfl, hframe ?_⟩
      rw [hdata, deleteEvent_close]
      exact s.kernel.close_agreeOff e.fd
  | read a e' es' chunk hp' hfd hin =>
      rw [hp] at hp'
      cases hp'
      have hint := (h.entry_in hp hfd hin).2
      rw [hdata]
      exact ⟨Or.inr ⟨.read, chunk, record_log hopen⟩,
        hframe (modifyEvent_spec e.fd EPOLLOUT (by rw [hint]; rfl)).2.2.2⟩
  | write a e' es' nwrite hp' hout =>
      rw [hp] at hp'
      cases hp'
      have hint := (h.entry_out hp hout).2
      rw [hdata]
      exact ⟨Or.inr ⟨.write, _, record_log hopen⟩,
        hframe (modifyEvent_spec e.fd EPOLLIN (by rw [hint]; rfl)).2.2.2⟩

theorem registrations_exact (h : (server listenfd).Reachable s) :
    (∀ fd, (s.kernel.interest fd).isSome ↔
      fd = listenfd ∨ fd ≠ listenfd ∧ (s.kernel.file fd).isSome) ∧
      s.kernel.interest listenfd = some ⟨EPOLLIN, listenfd⟩ ∧
      (∀ fd c, fd ≠ listenfd → s.kernel.file fd = some c →
        ∃ state, s.kernel.interest fd = some ⟨state, fd⟩ ∧
          (state = EPOLLIN ∨ state = EPOLLOUT) ∧
          (state = EPOLLOUT ↔ Transfers.last s.log c = some .read)) ∧
      (∀ e ∈ s.pending, e.data = e.fd ∧ s.kernel.file e.data = some e.file) ∧
      ∀ e es a t, s.pending = e :: es → step listenfd s (.handle a) = some t →
        (t.log = s.log ∨ ∃ dir bytes, t.log = s.log ++ [⟨e.file, dir, bytes⟩]) ∧
        ∀ fd c, s.kernel.file fd = some c → c ≠ e.file →
          t.kernel.file fd = some c ∧ t.kernel.interest fd = s.kernel.interest fd := by
  have hinv := inv_of_reachable h
  obtain ⟨c₀, -, hlisten⟩ := hinv.listener
  refine ⟨fun fd => ?_, hlisten, fun fd c hfd hc => ?_, fun e he => ?_, ?_⟩
  · by_cases hfd : fd = listenfd
    · rw [hfd, hlisten]
      exact iff_of_true rfl (Or.inl rfl)
    · cases hinv.clients fd hfd with
      | closed hf hi => simp [hfd, hf, hi]
      | reading c hf hi _ | writing c hf hi _ => simp [hfd, hf, hi]
  · cases hinv.clients fd hfd with
    | closed hf =>
        rw [hf] at hc
        cases hc
    | reading c' hf hi hl =>
        rw [hf] at hc
        cases hc
        exact ⟨EPOLLIN, hi, Or.inl rfl, iff_of_false (by decide) hl⟩
    | writing c' hf hi hl =>
        rw [hf] at hc
        cases hc
        exact ⟨EPOLLOUT, hi, Or.inr rfl, iff_of_true rfl hl⟩
  · obtain ⟨hfile, hdata, -⟩ := hinv.entry he
    exact ⟨hdata, hdata ▸ hfile⟩
  · intro e es a t hp hst
    exact (step_trans hst).only_entry hinv hp

/-- Descriptors 5 and 6 are clients; in one batch 5 hangs up and a new client is
given the number 5 before the entry of 6 is handled. -/
def reusedInBatch : List Act :=
  [.wait [(3, EPOLLIN)], .handle ⟨some 5, none, none, []⟩,
    .wait [(3, EPOLLIN)], .handle ⟨some 6, none, none, []⟩,
    .wait [(5, EPOLLIN), (3, EPOLLIN), (6, EPOLLIN)],
    .handle ⟨none, some [], none, []⟩, .handle ⟨some 5, none, none, []⟩]

theorem registrations_exact_reusedInBatch :
    ∃ s e, (server 3).Reachable s ∧ s.kernel.file 5 = some 3 ∧ s.pending = [e] ∧ e.fd = 6 ∧
      e.data = e.fd ∧ s.kernel.file e.data = some e.file ∧ (s.kernel.interest 5).isSome := by
  have hrun : ((server 3).run reusedInBatch).map (fun s => (s.kernel.file 5, s.pending)) =
      some (some 3, [⟨6, 2, EPOLLIN, 6⟩]) := by decide +kernel
  obtain ⟨s, -, hs, hview⟩ := Machine.reachable_of_run_map hrun
  obtain ⟨h5, hp⟩ := Prod.mk.inj hview
  obtain ⟨hreg, -, -, hpend, -⟩ := registrations_exact hs
  obtain ⟨hdata, hfile⟩ := hpend ⟨6, 2, EPOLLIN, 6⟩ (by rw [hp]; exact List.mem_singleton_self _)
  exact ⟨s, _, hs, h5, hp, rfl, hdata, hfile, (hreg 5).2 (Or.inr ⟨by decide, by rw [h5]; rfl⟩)⟩

end Londa.ViaEpoll
