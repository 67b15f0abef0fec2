import Londa.LongConnectionSteps

/-!
# The user data of the echo server is decoded as it was encoded

Between two events every open connection is registered in one of two ways. While
the server waits for data, the registration asks for `EPOLLIN` and its union holds
the descriptor. While an answer is unsent, it asks for `EPOLLOUT` and its union
points to a live `echo_data` that names the descriptor. The kernel reports only
events of the mask besides errors and hang-ups, so the event kind tells which
member of the union was stored.
-/

namespace Londa.LongConnection

open Epoll (Registration Kernel Current EPOLLIN EPOLLOUT EPOLLET)

variable {listen_sock : Fd} {s t : State} {heap heap' : Ptr → Option Block}

inductive Coded (heap : Ptr → Option Block) (fd : Fd) (r : Registration EpollData) : Prop
  | fd : r.events = EPOLLIN ||| EPOLLET → r.data.stored = .fd → r.data.fd = fd → Coded heap fd r
  | ptr (ed : EchoData) : r.events = EPOLLOUT ||| EPOLLET → r.data.stored = .ptr →
      heap r.data.ptr = some (.echo ed) → ed.fd = fd → Coded heap fd r

/-- Every live `echo_data` has a live buffer of its own, which holds a string. -/
structure Owned (heap : Ptr → Option Block) : Prop where
  backed : ∀ p ed, heap p = some (.echo ed) →
    ∃ buf n, heap ed.data = some (.buf buf) ∧ buf.strlen MAX_BUF = some n
  unshared : ∀ p q ed ed', heap p = some (.echo ed) → heap q = some (.echo ed') →
    ed.data = ed'.data → p = q

def Tracked (listen_sock : Fd) (k : Kernel Fd EpollData) (heap : Ptr → Option Block)
    (fd : Fd) : Prop :=
  (k.file fd = none ∧ k.interest fd = none) ∨
    ∃ c r, k.file fd = some c ∧ k.interest fd = some r ∧ Coded heap fd r ∧
      r.data.fd ≠ listen_sock

structure Inv (listen_sock : Fd) (s : State) : Prop where
  listener : ∃ c d, s.kernel.file listen_sock = some c ∧
    s.kernel.interest listen_sock = some ⟨EPOLLIN, d⟩ ∧ d.stored = .fd ∧ d.fd = listen_sock
  conns : ∀ fd, fd ≠ listen_sock → Tracked listen_sock s.kernel s.heap fd
  owned : Owned s.heap
  current : Current s.kernel s.pending

theorem Coded.mono {fd : Fd} {r : Registration EpollData} (h : Coded heap fd r)
    (hkeep : ∀ p ed, heap p = some (.echo ed) → ed.fd = fd → heap' p = some (.echo ed)) :
    Coded heap' fd r := by
  cases h with
  | fd hev hst hfd => exact .fd hev hst hfd
  | ptr ed hev hst hed hfd => exact .ptr ed hev hst (hkeep _ ed hed hfd) hfd

/-- At most one registration holds a given block. -/
theorem Coded.fd_eq_of_ptr_eq {fd fd' : Fd} {r r' : Registration EpollData}
    (h : Coded heap fd r) (h' : Coded heap fd' r') (hst : r.data.stored = .ptr)
    (hst' : r'.data.stored = .ptr) (hp : r.data.ptr = r'.data.ptr) : fd = fd' := by
  cases h with
  | fd _ hfd _ => rw [hst] at hfd; cases hfd
  | ptr ed _ _ hed hfd =>
      cases h' with
      | fd _ hfd' _ => rw [hst'] at hfd'; cases hfd'
      | ptr ed' _ _ hed' hfd' =>
          rw [hp, hed'] at hed
          cases hed
          exact hfd.symm.trans hfd'

theorem update_fresh {p x : Ptr} {b b' : Block} (hp : heap p = none) (hx : heap x = some b) :
    Function.update heap p (some b') x = some b := by
  rw [Function.update_of_ne, hx]
  rintro rfl
  rw [hp] at hx
  cases hx

namespace Owned

theorem alloc_buf (h : Owned heap) {p : Ptr} {b : Buffer} (hp : heap p = none) :
    Owned (Function.update heap p (some (.buf b))) := by
  have hold : ∀ x ed, Function.update heap p (some (.buf b)) x = some (.echo ed) →
      heap x = some (.echo ed) := by
    intro x ed hx
    by_cases hxp : x = p
    · subst x
      rw [Function.update_self] at hx
      cases hx
    · rwa [Function.update_of_ne hxp] at hx
  constructor
  · intro x ed hx
    obtain ⟨buf, n, hbuf, hn⟩ := h.backed x ed (hold x ed hx)
    exact ⟨buf, n, update_fresh hp hbuf, hn⟩
  · intro x y ed ed' hx hy
    exact h.unshared x y ed ed' (hold x ed hx) (hold y ed' hy)

theorem alloc_echo (h : Owned heap) {p q : Ptr} {fd : Fd} {buf : Buffer} {n : ℕ}
    (hq : heap q = none) (hp : heap p = some (.buf buf)) (hn : buf.strlen MAX_BUF = some n)
    (hfree : ∀ x ed, heap x = some (.echo ed) → ed.data ≠ p) :
    Owned (Function.update heap q (some (.echo ⟨p, fd⟩))) := by
  have hcases : ∀ x ed, Function.update heap q (some (.echo ⟨p, fd⟩)) x = some (.echo ed) →
      (x = q ∧ ed = ⟨p, fd⟩) ∨ heap x = some (.echo ed) := by
    intro x ed hx
    by_cases hxq : x = q
    · subst x
      rw [Function.update_self] at hx
      cases hx
      exact Or.inl ⟨rfl, rfl⟩
    · rw [Function.update_of_ne hxq] at hx
      exact Or.inr hx
  constructor
  · intro x ed hx
    rcases hcases x ed hx with ⟨rfl, rfl⟩ | hx
    · exact ⟨buf, n, update_fresh hq hp, hn⟩
    · obtain ⟨buf', n', hbuf, hn'⟩ := h.backed x ed hx
      exact ⟨buf', n', update_fresh hq hbuf, hn'⟩
  · intro x y ed ed' hx hy hdata
    rcases hcases x ed hx with ⟨rfl, rfl⟩ | hx'
    · rcases hcases y ed' hy with ⟨rfl, rfl⟩ | hy'
      · rfl
      · exact absurd hdata.symm (hfree y ed' hy')
    · rcases hcases y ed' hy with ⟨rfl, rfl⟩ | hy'
      · exact absurd hdata (hfree x ed hx')
      · exact h.unshared x y ed ed' hx' hy' hdata

/-- An `echo_data` other than the freed one survives the two calls of `free`. -/
theorem free_keeps (h : Owned heap) {p x : Ptr} {ed ed' : EchoData}
    (hp : heap p = some (.echo ed)) (hx : heap x = some (.echo ed')) (hne : x ≠ p) :
    Function.update (Function.update heap ed.data none) p none x = some (.echo ed') := by
  obtain ⟨buf, n, hbuf, hn⟩ := h.backed p ed hp
  have hxd : x ≠ ed.data := by
    rintro rfl
    rw [hbuf] at hx
    cases hx
  rw [Function.update_of_ne hne, Function.update_of_ne hxd, hx]

theorem free (h : Owned heap) {p : Ptr} {ed : EchoData} (hp : heap p = some (.echo ed)) :
    Owned (Function.update (Function.update heap ed.data none) p none) := by
  have hold : ∀ x ed', Function.update (Function.update heap ed.data none) p none x =
      some (.echo ed') → x ≠ p ∧ heap x = some (.echo ed') := by
    intro x ed' hx
    by_cases hxp : x = p
    · subst x
      rw [Function.update_self] at hx
      cases hx
    · rw [Function.update_of_ne hxp] at hx
      by_cases hxd : x = ed.data
      · subst x
        rw [Function.update_self] at hx
        cases hx
      · rw [Function.update_of_ne hxd] at hx
        exact ⟨hxp, hx⟩
  constructor
  · intro x ed' hx
    obtain ⟨hxp, hx⟩ := hold x ed' hx
    obtain ⟨buf, n, hbuf, hn⟩ := h.backed x ed' hx
    refine ⟨buf, n, ?_, hn⟩
    have hdp : ed'.data ≠ p := by
      intro heq
      rw [heq, hp] at hbuf
      cases hbuf
    have hdd : ed'.data ≠ ed.data := fun heq => hxp (h.unshared x p ed' ed hx hp heq)
    rw [Function.update_of_ne hdp, Function.update_of_ne hdd, hbuf]
  · intro x y ed₁ ed₂ hx hy
    exact h.unshared x y ed₁ ed₂ (hold x ed₁ hx).2 (hold y ed₂ hy).2

end Owned

namespace Inv

theorem initial (listen_sock : Fd) (word : BitVec 64) :
    Inv listen_sock (start listen_sock word) where
  listener := by
    refine ⟨0, EpollData.setFd ⟨word, .ptr⟩ listen_sock, ?_, ?_, rfl, EpollData.setFd_fd _ _⟩
    · simp [start]
    · simp [start]
  conns fd hfd := by
    left
    simp [start, Function.update_of_ne hfd]
  owned := ⟨fun _ _ h => (nomatch h), fun _ _ _ _ h => (nomatch h)⟩
  current := Current.nil

/-- The frame rule of the handlers: a step that touches one connection only has to
restore what the invariant says of that connection. -/
theorem handled (h : Inv listen_sock s) {fd : Fd} (hne : fd ≠ listen_sock)
    (ha : Kernel.AgreeOff fd s.kernel t.kernel)
    (hkeep : ∀ p ed, s.heap p = some (.echo ed) → ed.fd ≠ fd → t.heap p = some (.echo ed))
    (hfd : Tracked listen_sock t.kernel t.heap fd) (ho : Owned t.heap)
    (hc : Current t.kernel t.pending) : Inv listen_sock t := by
  refine ⟨?_, ?_, ho, hc⟩
  · obtain ⟨hfile, hint⟩ := ha listen_sock hne.symm
    rw [hfile, hint]
    exact h.listener
  · intro x hx
    by_cases hxf : x = fd
    · exact hxf ▸ hfd
    · obtain ⟨hfile, hint⟩ := ha x hxf
      unfold Tracked
      rw [hfile, hint]
      rcases h.conns x hx with hclosed | ⟨c, r, hc, hr, hcoded, hlow⟩
      · exact Or.inl hclosed
      · refine Or.inr ⟨c, r, hc, hr, hcoded.mono ?_, hlow⟩
        intro p ed hp hedx
        exact hkeep p ed hp (fun heq => hxf (hedx.symm.trans heq))

/-- What the invariant says of the entry that `run` looks at next. -/
theorem next_entry (h : Inv listen_sock s) {e : Epoll.Report Fd EpollData}
    {es : List (Epoll.Report Fd EpollData)} (hp : s.pending = e :: es) :
    s.kernel.file e.fd = some e.file ∧
      ((e.fd = listen_sock ∧ e.data.fd = listen_sock) ∨
        (e.fd ≠ listen_sock ∧ e.data.fd ≠ listen_sock ∧
          ∃ r, s.kernel.interest e.fd = some r ∧ Epoll.covers r.events e.events ∧
            e.data = r.data ∧ Coded s.heap e.fd r)) := by
  obtain ⟨hfile, r, hr, hcov, hdata⟩ := (hp ▸ h.current).head
  refine ⟨hfile, ?_⟩
  by_cases hfd : e.fd = listen_sock
  · obtain ⟨c, d, -, hint, -, hd⟩ := h.listener
    rw [hfd, hint] at hr
    cases hr
    exact Or.inl ⟨hfd, hdata ▸ hd⟩
  · rcases h.conns e.fd hfd with ⟨hnone, -⟩ | ⟨c, r', -, hr', hcoded, hlow⟩
    · rw [hnone] at hfile
      cases hfile
    · rw [hr] at hr'
      cases hr'
      exact Or.inr ⟨hfd, hdata ▸ hlow, r, hr, hcov, hdata, hcoded⟩

theorem listener_iff (h : Inv listen_sock s) {e : Epoll.Report Fd EpollData}
    {es : List (Epoll.Report Fd EpollData)} (hp : s.pending = e :: es) :
    e.data.fd = listen_sock ↔ e.fd = listen_sock := by
  rcases (h.next_entry hp).2 with ⟨hfd, hd⟩ | ⟨hfd, hd, -⟩
  · exact iff_of_true hd hfd
  · exact iff_of_false hd hfd

theorem entry_in (h : Inv listen_sock s) {e : Epoll.Report Fd EpollData}
    {es : List (Epoll.Report Fd EpollData)} (hp : s.pending = e :: es)
    (hfd : e.data.fd ≠ listen_sock) (hin : Epoll.has e.events EPOLLIN) :
    e.data.stored = .fd ∧ e.data.fd = e.fd := by
  rcases (h.next_entry hp).2 with ⟨-, hd⟩ | ⟨-, -, r, -, hcov, hdata, hcoded⟩
  · exact absurd hd hfd
  · cases hcoded with
    | fd _ hst hrfd => exact hdata ▸ ⟨hst, hrfd⟩
    | ptr ed hev =>
        rw [hev] at hcov
        rw [Epoll.has_eq_false_of_covers hcov (by decide)] at hin
        cases hin

theorem entry_out (h : Inv listen_sock s) {e : Epoll.Report Fd EpollData}
    {es : List (Epoll.Report Fd EpollData)} (hp : s.pending = e :: es)
    (hfd : e.data.fd ≠ listen_sock) (hout : Epoll.has e.events EPOLLOUT) :
    e.data.stored = .ptr ∧ ∃ ed, s.heap e.data.ptr = some (.echo ed) ∧ ed.fd = e.fd := by
  rcases (h.next_entry hp).2 with ⟨-, hd⟩ | ⟨-, -, r, -, hcov, hdata, hcoded⟩
  · exact absurd hd hfd
  · cases hcoded with
    | fd hev =>
        rw [hev] at hcov
        rw [Epoll.has_eq_false_of_covers hcov (by decide)] at hout
        cases hout
    | ptr ed _ hst hed hedfd => exact hdata ▸ ⟨hst, ed, hed, hedfd⟩

theorem accept (h : Inv listen_sock s) {e : Epoll.Report Fd EpollData}
    {es : List (Epoll.Report Fd EpollData)} {conn : Fd} {k k' : Kernel Fd EpollData}
    (hp : s.pending = e :: es) (hacc : s.kernel.accept conn = some k)
    (hadd : k.add conn ⟨EPOLLIN ||| EPOLLET, s.ev.setFd conn⟩ = some k')
    (hk : t.kernel = k') (hh : t.heap = s.heap) (hpt : t.pending = es) : Inv listen_sock t := by
  obtain ⟨hfree, hfile, -, -, ha⟩ := Kernel.accept_eq_some hacc
  obtain ⟨hfile', hint', -, ha'⟩ := Kernel.add_eq_some hadd
  have hne : conn ≠ listen_sock := by
    rintro rfl
    obtain ⟨c, d, hc, -⟩ := h.listener
    rw [hc] at hfree
    cases hfree
  apply h.handled hne
  · rw [hk]
    exact ha.trans ha'
  · intro p ed hped _
    rwa [hh]
  · right
    refine ⟨s.kernel.next, _, ?_, hk ▸ hint', .fd rfl rfl (EpollData.setFd_fd _ _), ?_⟩
    · rw [hk, hfile', hfile]
    · rwa [EpollData.setFd_fd]
  · exact hh ▸ h.owned
  · rw [hk, hpt]
    exact (hp ▸ h.current).tail.accepted hfree (ha.trans ha')

theorem hangUp (h : Inv listen_sock s) {e : Epoll.Report Fd EpollData}
    {es : List (Epoll.Report Fd EpollData)} {p : Ptr} {buf : Buffer} {k : Kernel Fd EpollData}
    (hp : s.pending = e :: es) (hne : e.fd ≠ listen_sock) (hfresh : s.heap p = none)
    (hdel : s.kernel.delete e.fd = some k) (hk : t.kernel = k.close e.fd)
    (hh : t.heap = Function.update s.heap p (some (.buf buf))) (hpt : t.pending = es) :
    Inv listen_sock t := by
  obtain ⟨-, -, -, ha⟩ := Kernel.delete_eq_some hdel
  have ha' : Kernel.AgreeOff e.fd s.kernel t.kernel := by
    rw [hk]
    exact ha.trans (k.close_agreeOff e.fd)
  apply h.handled hne ha'
  · intro q ed hq _
    rw [hh]
    exact update_fresh hfresh hq
  · left
    rw [hk]
    exact ⟨Kernel.close_file e.fd, Kernel.close_interest e.fd⟩
  · exact hh ▸ h.owned.alloc_buf hfresh
  · exact hpt ▸ (hp ▸ h.current).handled ha'

theorem handOver (h : Inv listen_sock s) {e : Epoll.Report Fd EpollData}
    {es : List (Epoll.Report Fd EpollData)} {p q : Ptr} {buf : Buffer} {n : ℕ}
    {k : Kernel Fd EpollData} (hp : s.pending = e :: es) (hne : e.fd ≠ listen_sock)
    (hfp : s.heap p = none) (hfq : s.heap q = none) (hqp : q ≠ p)
    (hlow : (EpollData.setPtr q).fd ≠ listen_sock) (hn : buf.strlen MAX_BUF = some n)
    (hmod : s.kernel.modify e.fd ⟨EPOLLOUT ||| EPOLLET, EpollData.setPtr q⟩ = some k)
    (hk : t.kernel = k)
    (hh : t.heap = Function.update (Function.update s.heap p (some (.buf buf))) q
      (some (.echo ⟨p, e.fd⟩))) (hpt : t.pending = es) : Inv listen_sock t := by
  obtain ⟨hfile, hint, -, ha⟩ := Kernel.modify_eq_some hmod
  have hfq' : Function.update s.heap p (some (.buf buf)) q = none := by
    rw [Function.update_of_ne hqp, hfq]
  have hbuf : Function.update s.heap p (some (.buf buf)) p = some (.buf buf) :=
    Function.update_self ..
  have hfree : ∀ x ed, Function.update s.heap p (some (.buf buf)) x = some (.echo ed) →
      ed.data ≠ p := by
    intro x ed hx heq
    have hxp : x ≠ p := by
      rintro rfl
      rw [hbuf] at hx
      cases hx
    rw [Function.update_of_ne hxp] at hx
    obtain ⟨buf', n', hbuf', -⟩ := h.owned.backed x ed hx
    rw [heq, hfp] at hbuf'
    cases hbuf'
  apply h.handled hne (hk ▸ ha)
  · intro x ed hx _
    rw [hh]
    exact update_fresh hfq' (update_fresh hfp hx)
  · right
    refine ⟨e.file, _, ?_, hk ▸ hint, .ptr ⟨p, e.fd⟩ rfl rfl ?_ rfl, hlow⟩
    · rw [hk, hfile]
      exact (h.next_entry hp).1
    · rw [hh]
      exact Function.update_self ..
  · exact hh ▸ (h.owned.alloc_buf hfp).alloc_echo hfq' hbuf hn hfree
  · exact hpt ▸ (hp ▸ h.current).handled (hk ▸ ha)

theorem rearm (h : Inv listen_sock s) {e : Epoll.Report Fd EpollData}
    {es : List (Epoll.Report Fd EpollData)} {ed : EchoData} {k : Kernel Fd EpollData}
    (hp : s.pending = e :: es) (hne : e.fd ≠ listen_sock)
    (hed : s.heap e.data.ptr = some (.echo ed)) (hfd : ed.fd = e.fd)
    (hmod : s.kernel.modify e.fd ⟨EPOLLIN ||| EPOLLET, e.data.setFd e.fd⟩ = some k)
    (hk : t.kernel = k)
    (hh : t.heap = Function.update (Function.update s.heap ed.data none) e.data.ptr none)
    (hpt : t.pending = es) : Inv listen_sock t := by
  obtain ⟨hfile, hint, -, ha⟩ := Kernel.modify_eq_some hmod
  apply h.handled hne (hk ▸ ha)
  · intro x ed' hx hother
    rw [hh]
    apply h.owned.free_keeps hed hx
    rintro rfl
    rw [hed] at hx
    cases hx
    exact hother hfd
  · right
    refine ⟨e.file, _, ?_, hk ▸ hint, .fd rfl rfl (EpollData.setFd_fd _ _), ?_⟩
    · rw [hk, hfile]
      exact (h.next_entry hp).1
    · rwa [EpollData.setFd_fd]
  · exact hh ▸ h.owned.free hed
  · exact hpt ▸ (hp ▸ h.current).handled (hk ▸ ha)

theorem step (h : Inv listen_sock s) (ht : Trans listen_sock s t) : Inv listen_sock t := by
  cases ht with
  | wait es hp hc => exact ⟨h.listener, h.conns, h.owned, hc⟩
  | accept e es conn k k' hp hfd hacc hadd => exact h.accept hp hacc hadd rfl rfl rfl
  | hangUp e es p buf calls k hp hfd hin hfresh hcalls hdel =>
      have hne : e.fd ≠ listen_sock := fun heq => hfd ((h.listener_iff hp).2 heq)
      rw [(h.entry_in hp hfd hin).2] at hdel ⊢
      exact h.hangUp hp hne hfresh hdel rfl rfl rfl
  | handOver e es p q buf n calls k hp hfd hin hfp hfq hqp hlow hn hcalls hmod =>
      have hne : e.fd ≠ listen_sock := fun heq => hfd ((h.listener_iff hp).2 heq)
      rw [(h.entry_in hp hfd hin).2] at hmod ⊢
      exact h.handOver hp hne hfp hfq hqp hlow hn hmod rfl rfl rfl
  | rearm e es ed calls k hp hfd hout hed hcalls hmod =>
      have hne : e.fd ≠ listen_sock := fun heq => hfd ((h.listener_iff hp).2 heq)
      obtain ⟨-, ed', hed', hedfd⟩ := h.entry_out hp hfd hout
      rw [hed] at hed'
      cases hed'
      rw [hedfd] at hmod
      exact h.rearm hp hne hed hedfd hmod rfl rfl rfl
  | ignore e es hp hfd =>
      exact ⟨h.listener, h.conns, h.owned, (hp ▸ h.current).tail⟩

end Inv

theorem inv_of_reachable {word : BitVec 64} (h : (server listen_sock word).Reachable s) :
    Inv listen_sock s :=
  h.invariant (Inv.initial listen_sock word) (fun _ hi hst => hi.step (step_trans hst))

theorem acceptConn_ne_fault (a : Answers) : acceptConn listen_sock s a ≠ .fault := by
  unfold acceptConn
  split
  · nofun
  · split
    · nofun
    · split <;> nofun

theorem closeConn_ne_fault (fd : Fd) : closeConn s fd ≠ .fault := by
  unfold closeConn
  split <;> nofun

theorem handleIn_ne_fault {data : EpollData} (a : Answers) (hst : data.stored = .fd) :
    handleIn listen_sock s data a ≠ .fault := by
  unfold handleIn
  rw [if_neg (by simp [hst])]
  split
  · nofun
  · rename_i hfresh
    rw [not_or, Bool.not_eq_false] at hfresh
    split
    · nofun
    · rename_i calls hread
      exact absurd (congrArg Prod.snd hread) (readLoop_ne_overrun hfresh.2)
    · nofun
    · exact closeConn_ne_fault _
    · rename_i calls buf count hread
      obtain ⟨n, hn⟩ := drained_strlen hfresh.2 (congrArg Prod.snd hread)
      dsimp only
      split
      · exact closeConn_ne_fault _
      · unfold handOver
        rw [hn]
        dsimp only
        split
        · nofun
        · split <;> nofun

theorem handleOut_ne_fault {data : EpollData} {ed : EchoData} {buf : Buffer} {n : ℕ} (a : Answers)
    (hst : data.stored = .ptr) (hed : s.heap data.ptr = some (.echo ed))
    (hbuf : s.heap ed.data = some (.buf buf)) (hn : buf.strlen MAX_BUF = some n) :
    handleOut s data a ≠ .fault := by
  unfold handleOut
  rw [if_neg (by simp [hst]), hed]
  dsimp only
  rw [hbuf]
  dsimp only
  rw [hn]
  dsimp only
  split
  · nofun
  · nofun
  · unfold rearm
    split <;> nofun

theorem handleNext_ne_fault (h : Inv listen_sock s) (a : Answers) :
    handleNext listen_sock s a ≠ .fault := by
  unfold handleNext
  split
  · nofun
  · rename_i e es hp
    split
    · exact acceptConn_ne_fault a
    · rename_i hfd
      unfold eventsHandle
      split
      · rename_i hin
        exact handleIn_ne_fault a (h.entry_in hp hfd hin).1
      · split
        · rename_i hout
          obtain ⟨hst, ed, hed, -⟩ := h.entry_out hp hfd hout
          obtain ⟨buf, n, hbuf, hn⟩ := h.owned.backed _ ed hed
          exact handleOut_ne_fault a hst hed hbuf hn
        · nofun

/-- Every call that the handling of a connection's event makes is on that connection. -/
theorem Trans.calls_on_entry (h : Inv listen_sock s) (ht : Trans listen_sock s t)
    {e : Epoll.Report Fd EpollData} {es : List (Epoll.Report Fd EpollData)}
    (hp : s.pending = e :: es) (hne : e.fd ≠ listen_sock) :
    ∃ calls, t.trace = s.trace ++ calls ∧ ∀ c ∈ calls, c.fd = e.fd := by
  have hfd : e.data.fd ≠ listen_sock := fun hd => hne ((h.listener_iff hp).1 hd)
  cases ht with
  | wait es' hp' =>
      rw [hp] at hp'
      cases hp'
  | accept e' es' conn k k' hp' hd =>
      rw [hp] at hp'
      cases hp'
      exact absurd hd hfd
  | hangUp e' es' p buf calls k hp' _ hin _ hcalls =>
      rw [hp] at hp'
      cases hp'
      exact ⟨calls, rfl, (h.entry_in hp hfd hin).2 ▸ hcalls⟩
  | handOver e' es' p q buf n calls k hp' _ hin _ _ _ _ _ hcalls =>
      rw [hp] at hp'
      cases hp'
      exact ⟨calls, rfl, (h.entry_in hp hfd hin).2 ▸ hcalls⟩
  | rearm e' es' ed calls k hp' _ hout hed hcalls =>
      rw [hp] at hp'
      cases hp'
      obtain ⟨-, ed', hed', hedfd⟩ := h.entry_out hp hfd hout
      rw [hed] at hed'
      cases hed'
      exact ⟨calls, rfl, hedfd ▸ hcalls⟩
  | ignore e' es' hp' => exact ⟨[], (List.append_nil _).symm, fun c hc => by cases hc⟩

/-- The entry that `run` looks at next is for the connection it was reported for,
and each branch of `events_handle` reads the member of the union that was stored. -/
structure Decoded (listen_sock : Fd) (s : State) (e : Epoll.Report Fd EpollData) : Prop where
  listener : e.data.fd = listen_sock ↔ e.fd = listen_sock
  file : s.kernel.file e.fd = some e.file
  epollin : e.fd ≠ listen_sock → Epoll.has e.events EPOLLIN →
    e.data.stored = .fd ∧ e.data.fd = e.fd
  epollout : e.fd ≠ listen_sock → Epoll.has e.events EPOLLOUT → e.data.stored = .ptr ∧
    ∃ ed buf, s.heap e.data.ptr = some (.echo ed) ∧ ed.fd = e.fd ∧
      s.heap ed.data = some (.buf buf)

theorem Inv.decoded (h : Inv listen_sock s) {e : Epoll.Report Fd EpollData}
    {es : List (Epoll.Report Fd EpollData)} (hp : s.pending = e :: es) :
    Decoded listen_sock s e where
  listener := h.listener_iff hp
  file := (h.next_entry hp).1
  epollin hne hin := h.entry_in hp (fun hd => hne ((h.listener_iff hp).1 hd)) hin
  epollout hne hout := by
    obtain ⟨hst, ed, hed, hedfd⟩ :=
      h.entry_out hp (fun hd => hne ((h.listener_iff hp).1 hd)) hout
    obtain ⟨buf, n, hbuf, -⟩ := h.owned.backed _ ed hed
    exact ⟨hst, ed, buf, hed, hedfd, hbuf⟩

/-- No other registration holds the block that a connection's registration points to. -/
theorem Inv.unshared (h : Inv listen_sock s) {fd fd' : Fd} {r r' : Registration EpollData}
    (hcoded : Coded s.heap fd r) (hr' : s.kernel.interest fd' = some r')
    (hst : r.data.stored = .ptr) (hst' : r'.data.stored = .ptr)
    (hptr : r'.data.ptr = r.data.ptr) : fd' = fd := by
  by_cases hl : fd' = listen_sock
  · obtain ⟨c, d, -, hint, hd, -⟩ := h.listener
    rw [hl, hint] at hr'
    cases hr'
    rw [hst'] at hd
    cases hd
  · rcases h.conns fd' hl with ⟨-, hnone⟩ | ⟨c, r'', -, hr'', hcoded', -⟩
    · rw [hnone] at hr'
      cases hr'
    · rw [hr'] at hr''
      cases hr''
      exact hcoded'.fd_eq_of_ptr_eq hcoded hst' hst hptr

theorem data_decoded_as_encoded {word : BitVec 64} (h : (server listen_sock word).Reachable s) :
    (∀ fd c, fd ≠ listen_sock → s.kernel.file fd = some c →
      ∃ r, s.kernel.interest fd = some r ∧ Coded s.heap fd r ∧
        (r.data.stored = .ptr → ∀ fd' r', s.kernel.interest fd' = some r' →
          r'.data.stored = .ptr → r'.data.ptr = r.data.ptr → fd' = fd)) ∧
      ∀ e es, s.pending = e :: es → Decoded listen_sock s e ∧
        ∀ a, handleNext listen_sock s a ≠ .fault ∧
          ∀ t, handleNext listen_sock s a = .ret t → e.fd ≠ listen_sock →
            ∃ calls, t.trace = s.trace ++ calls ∧ ∀ c ∈ calls, c.fd = e.fd := by
  have hinv := inv_of_reachable h
  constructor
  · intro fd c hfd hc
    rcases hinv.conns fd hfd with ⟨hnone, -⟩ | ⟨c', r, -, hr, hcoded, -⟩
    · rw [hnone] at hc
      cases hc
    · exact ⟨r, hr, hcoded, fun hst fd' r' hr' => hinv.unshared hcoded hr' hst⟩
  · intro e es hp
    refine ⟨hinv.decoded hp, fun a => ⟨handleNext_ne_fault hinv a, fun t ht hne => ?_⟩⟩
    exact (handleNext_trans ht).calls_on_entry hinv hp hne

/-- A connection on descriptor 5 sends two bytes; the server is about to answer. -/
def echoPending : List Act :=
  [.wait [(3, EPOLLIN)], .handle ⟨some 5, 0, 0, [], []⟩, .wait [(5, EPOLLIN)],
    .handle ⟨none, 0x7f0000001000, 0x7f0000002000, [.bytes [104, 105], .eagain], []⟩,
    .wait [(5, EPOLLOUT)]]

theorem data_decoded_as_encoded_echoPending :
    ∃ s e, (server 3 0xdeadbeef00000000).Reachable s ∧ s.pending = [e] ∧ e.fd = 5 ∧
      Epoll.has e.events EPOLLOUT ∧ Decoded 3 s e ∧
      ∀ a, handleNext 3 s a ≠ .fault := by
  have hrun : ((server 3 0xdeadbeef00000000).run echoPending).map State.pending =
      some [⟨5, 1, EPOLLOUT, EpollData.setPtr 0x7f0000002000⟩] := by decide +kernel
  obtain ⟨s, -, hs, hp⟩ := Machine.reachable_of_run_map hrun
  obtain ⟨hdec, hne⟩ := (data_decoded_as_encoded hs).2 _ _ hp
  exact ⟨s, _, hs, hp, rfl, by decide, hdec, fun a => (hne a).1⟩

end Londa.LongConnection
