import Londa.ViaSelectWatch

/-!
# Clients that the select server refuses

A client that is accepted while the table is full is put nowhere and is not closed. Its
descriptor is then open and in no slot, and since only descriptors in the table are ever
closed, it stays so: a run ends with all its clients in the table exactly if none of them was
refused on the way.
-/

namespace Londa.ViaSelect

variable {srvfd : ℤ} {s t u : State} {fd : ℤ}

/-- The two ways in which `accept_client_proc` may end after `accept` returned `clifd`. -/
def Settled (u t : State) (ret clifd : ℤ) : Prop :=
  (ret = 0 ∧ ∃ i, t.ctx.clifds i = clifd ∧ (∀ j, t.ctx.clifds j = clifd → j = i) ∧
    ∀ j, j ≠ i → t.ctx.clifds j = u.ctx.clifds j) ∨
  (ret = -1 ∧ clifd ∉ t.opened ∧ t.ctx.clifds = u.ctx.clifds ∧ t.ctx.cli_cnt = u.ctx.cli_cnt)

def Settles (srvfd : ℤ) (s : State) : Act → Prop
  | .ready fds accepts _ _ => srvfd ∈ fds → ∀ clifd, acceptLoop accepts = some (some clifd) →
      ∀ t ret, acceptClientProc ((setUp srvfd s).select fds) accepts = some (t, ret) →
        Settled ((setUp srvfd s).select fds) t ret clifd
  | _ => True

/-- The open client descriptors are the clients in the table. -/
def Accounted (srvfd : ℤ) (s : State) : Prop := s.opened.erase srvfd = clients s

/-- The step accepts `fd` while the table is full. -/
def Refuses (srvfd : ℤ) (s : State) (fd : ℤ) : Act → Prop
  | .ready fds accepts _ _ =>
      srvfd ∈ fds ∧ acceptLoop accepts = some (some fd) ∧ ∀ i, 0 ≤ s.ctx.clifds i
  | _ => False

def HasRoom (srvfd : ℤ) (s : State) (a : Act) : Prop := ∀ fd, ¬ Refuses srvfd s fd a

/-- An open descriptor of a client that is in no slot. -/
def Lost (srvfd : ℤ) (s : State) (fd : ℤ) : Prop := fd ∈ s.opened ∧ fd ≠ srvfd ∧ fd ∉ clients s

theorem lost_congr (hopen : t.opened = s.opened) (htab : t.ctx.clifds = s.ctx.clifds) :
    Lost srvfd t fd ↔ Lost srvfd s fd := by
  unfold Lost clients
  rw [hopen, htab]

theorem Table.clients_subset (h : Table srvfd s) : clients s ⊆ s.opened.erase srvfd := by
  intro fd hfd
  obtain ⟨hpos, i, rfl⟩ := mem_clients.1 hfd
  exact Finset.mem_erase.2 ⟨h.accepted i hpos, h.opened i hpos⟩

theorem Table.accounted_iff (h : Table srvfd s) :
    Accounted srvfd s ↔ ∀ fd, ¬ Lost srvfd s fd := by
  constructor
  · rintro hall fd ⟨hopen, hne, hout⟩
    exact hout (hall ▸ Finset.mem_erase.2 ⟨hne, hopen⟩)
  · intro hnone
    apply Finset.Subset.antisymm _ h.clients_subset
    intro fd hfd
    obtain ⟨hne, hopen⟩ := Finset.mem_erase.1 hfd
    by_contra hout
    exact hnone fd ⟨hopen, hne, hout⟩

theorem full_iff : SlotTable.firstFree isClient s.ctx.clifds = none ↔ ∀ i, 0 ≤ s.ctx.clifds i := by
  simp [SlotTable.firstFree_eq_none, isClient]

theorem full_setUp (srvfd : ℤ) (s : State) (fds : Finset ℤ) :
    (∀ i, 0 ≤ ((setUp srvfd s).select fds).ctx.clifds i) ↔ ∀ i, 0 ≤ s.ctx.clifds i := by
  rw [← (setUp_spec srvfd s).2.1]
  rfl

/-- `accept_client_proc` once `accept` has returned a descriptor. -/
theorem acceptClientProc_client {accepts : List AcceptResult} {clifd ret : ℤ}
    (hacc : acceptLoop accepts = some (some clifd))
    (h : acceptClientProc u accepts = some (t, ret)) :
    0 ≤ clifd ∧ clifd ∉ u.opened ∧ t.opened = insert clifd u.opened ∧
      ((∃ i, SlotTable.firstFree isClient u.ctx.clifds = some i ∧ ret = 0 ∧
          t.ctx.clifds = Function.update u.ctx.clifds i clifd) ∨
        SlotTable.firstFree isClient u.ctx.clifds = none ∧ ret = -1 ∧ t.ctx = u.ctx) := by
  unfold acceptClientProc at h
  rw [hacc] at h
  dsimp only at h
  split at h
  · rename_i hnew
    refine ⟨hnew.1, hnew.2, ?_⟩
    split at h
    · rename_i i hi
      cases h
      exact ⟨rfl, .inl ⟨i, hi, rfl, rfl⟩⟩
    · rename_i hnone
      cases h
      exact ⟨rfl, .inr ⟨hnone, rfl, rfl⟩⟩
  · cases h

theorem clients_update {i : Fin SIZE} {clifd : ℤ} (hpos : 0 ≤ clifd)
    (hfree : s.ctx.clifds i < 0)
    (htab : t.ctx.clifds = Function.update s.ctx.clifds i clifd) :
    clients t = insert clifd (clients s) := by
  ext fd
  rw [Finset.mem_insert, mem_clients, mem_clients, htab]
  constructor
  · rintro ⟨hfd, j, hj⟩
    by_cases hji : j = i
    · subst j
      rw [Function.update_self] at hj
      exact .inl hj.symm
    · rw [Function.update_of_ne hji] at hj
      exact .inr ⟨hfd, j, hj⟩
  · rintro (rfl | ⟨hfd, j, hj⟩)
    · exact ⟨hpos, i, Function.update_self _ _ _⟩
    · have hji : j ≠ i := by
        rintro rfl
        omega
      exact ⟨hfd, j, by rw [Function.update_of_ne hji, hj]⟩

theorem Table.clients_drop (h : Table srvfd s) (i : Fin SIZE) (hi : 0 ≤ s.ctx.clifds i) :
    clients (dropClient s i (s.ctx.clifds i)) = (clients s).erase (s.ctx.clifds i) := by
  have hslot (j : Fin SIZE) : (dropClient s i (s.ctx.clifds i)).ctx.clifds j =
      if j = i then -1 else s.ctx.clifds j := by
    simp only [dropClient, Fin.val_inj]
  ext fd
  simp only [Finset.mem_erase, mem_clients, hslot]
  constructor
  · rintro ⟨hfd, j, hj⟩
    split at hj
    · omega
    · rename_i hji
      refine ⟨?_, hfd, j, hj⟩
      rintro rfl
      exact hji (h.distinct i j hi hj.symm).symm
  · rintro ⟨hne, hfd, j, rfl⟩
    have hji : j ≠ i := fun heq => hne (congrArg _ heq)
    exact ⟨hfd, j, if_neg hji⟩

/-- Closing a client of the table loses none and finds none again. -/
theorem Table.lost_drop (h : Table srvfd s) (i : Fin SIZE) (hi : 0 ≤ s.ctx.clifds i) :
    Lost srvfd (dropClient s i (s.ctx.clifds i)) fd ↔ Lost srvfd s fd := by
  have hclient : s.ctx.clifds i ∈ clients s := mem_clients.2 ⟨hi, i, rfl⟩
  have hopen : (dropClient s i (s.ctx.clifds i)).opened = s.opened.erase (s.ctx.clifds i) := rfl
  unfold Lost
  rw [h.clients_drop i hi, hopen, Finset.mem_erase, Finset.mem_erase, not_and]
  constructor
  · rintro ⟨⟨hne, hfd⟩, hsrv, hout⟩
    exact ⟨hfd, hsrv, hout hne⟩
  · rintro ⟨hfd, hsrv, hout⟩
    have hne : fd ≠ s.ctx.clifds i := fun heq => hout (heq ▸ hclient)
    exact ⟨⟨hne, hfd⟩, hsrv, fun _ => hout⟩

theorem Table.lost_recvSlot (h : Table srvfd s) (reads : ℕ → ReadResult) (behind : List UInt8)
    (buf : Buffer) (i : ℕ) :
    Lost srvfd (ViaSelect.recvSlot reads behind (s, buf) i).1 fd ↔ Lost srvfd s fd := by
  rcases recvSlot_cases reads behind s buf i with ⟨hctx, hopen⟩ | ⟨j, -, hj, hdrop⟩
  · exact lost_congr hopen (congrArg _ hctx)
  · have htouch : Table srvfd (s.touch i) := h.congr rfl rfl le_rfl
    rw [hdrop]
    exact (htouch.lost_drop j hj).trans (lost_congr rfl rfl)

theorem Table.lost_recvLoop (h : Table srvfd s) (reads : ℕ → ReadResult) (behind : List UInt8)
    (buf : Buffer) (is : List ℕ) :
    Lost srvfd (is.foldl (ViaSelect.recvSlot reads behind) (s, buf)).1 fd ↔ Lost srvfd s fd := by
  induction is generalizing s buf with
  | nil => exact Iff.rfl
  | cons i is ih =>
      rw [List.foldl_cons]
      exact (ih (h.recvSlot reads behind buf i) _).trans (h.lost_recvSlot reads behind buf i)

/-- After `accept` a descriptor is lost exactly if the table was full. -/
theorem Table.lost_accept (h : Table srvfd u) {accepts : List AcceptResult} {clifd ret : ℤ}
    (hacc : acceptLoop accepts = some (some clifd))
    (hst : ViaSelect.acceptClientProc u accepts = some (t, ret)) :
    Lost srvfd t fd ↔ Lost srvfd u fd ∨ fd = clifd ∧ ∀ i, 0 ≤ u.ctx.clifds i := by
  obtain ⟨hpos, hnew, hopen, hend⟩ := acceptClientProc_client hacc hst
  have hsrv : clifd ≠ srvfd := fun heq => hnew (heq ▸ h.listening)
  have hout : clifd ∉ clients u := fun hmem =>
    hnew (Finset.mem_of_mem_erase (h.clients_subset hmem))
  rcases hend with ⟨i, hfree, -, htab⟩ | ⟨hfull, -, hctx⟩
  · have hneg : u.ctx.clifds i < 0 := by
      simpa [isClient] using (SlotTable.firstFree_eq_some hfree).1
    have hroom : ¬ ∀ i, 0 ≤ u.ctx.clifds i := fun hall => absurd (hall i) (not_le.2 hneg)
    unfold Lost
    rw [clients_update hpos hneg htab, hopen]
    simp only [Finset.mem_insert, hroom, and_false, or_false, not_or]
    constructor
    · rintro ⟨heq | hfd, hne, hne', hnot⟩
      · exact absurd heq hne'
      · exact ⟨hfd, hne, hnot⟩
    · rintro ⟨hfd, hne, hnot⟩
      exact ⟨.inr hfd, hne, fun heq => hnew (heq ▸ hfd), hnot⟩
  · have hclients : clients t = clients u := by
      unfold clients
      rw [hctx]
    unfold Lost
    rw [hclients, hopen]
    simp only [Finset.mem_insert, full_iff.1 hfull, implies_true, and_true]
    constructor
    · rintro ⟨heq | hfd, hne, hnot⟩
      · exact .inr heq
      · exact .inl ⟨hfd, hne, hnot⟩
    · rintro (⟨hfd, hne, hnot⟩ | rfl)
      · exact ⟨.inr hfd, hne, hnot⟩
      · exact ⟨.inl rfl, hsrv, hout⟩

theorem acceptClientProc_loop {accepts : List AcceptResult} {ret : ℤ}
    (h : acceptClientProc u accepts = some (t, ret)) :
    acceptLoop accepts = some none ∧ t = u ∨ ∃ clifd, acceptLoop accepts = some (some clifd) := by
  unfold acceptClientProc at h
  split at h
  · cases h
  · rename_i hfail
    cases h
    exact .inl ⟨hfail, rfl⟩
  · rename_i clifd hacc
    exact .inr ⟨clifd, hacc⟩

theorem refuses_ready {fds : Finset ℤ} {accepts : List AcceptResult} {reads : ℕ → ReadResult}
    {behind : List UInt8} (hsrv : srvfd ∈ fds) :
    Refuses srvfd s fd (.ready fds accepts reads behind) ↔
      acceptLoop accepts = some (some fd) ∧ ∀ i, 0 ≤ s.ctx.clifds i :=
  and_iff_right hsrv

theorem Table.lost_step {a : Act} (h : Table srvfd s) (hst : step srvfd s a = some t) :
    Lost srvfd t fd ↔ Lost srvfd s fd ∨ Refuses srvfd s fd a := by
  obtain ⟨-, htab, -⟩ := setUp_spec srvfd s
  have hset : Lost srvfd (ViaSelect.setUp srvfd s) fd ↔ Lost srvfd s fd :=
    lost_congr (opened_setUp srvfd s) htab
  have hsel (fds : Finset ℤ) : Table srvfd ((ViaSelect.setUp srvfd s).select fds) :=
    h.setUp.congr rfl rfl le_rfl
  have hlost (fds : Finset ℤ) :
      Lost srvfd ((ViaSelect.setUp srvfd s).select fds) fd ↔ Lost srvfd s fd :=
    Iff.trans (lost_congr rfl rfl) hset
  cases step_round hst with
  | selectError ht | timeout ht =>
      subst ht
      exact (Iff.trans (lost_congr rfl rfl) hset).trans (or_iff_left id).symm
  | knocked fds accepts reads behind ret hsrv hproc =>
      rw [← hlost fds, refuses_ready hsrv]
      rcases acceptClientProc_loop hproc with ⟨hfail, rfl⟩ | ⟨clifd, hacc⟩
      · rw [hfail]
        exact (or_iff_left (fun hr => by cases hr.1)).symm
      · rw [(hsel fds).lost_accept hacc hproc, hacc, Option.some_inj, Option.some_inj, eq_comm]
        exact or_congr_right (and_congr_right fun _ => full_setUp srvfd s fds)
  | served fds accepts reads behind hsrv ht =>
      subst ht
      rw [or_iff_left (fun hr => hsrv hr.1), ← hlost fds]
      exact (hsel fds).lost_recvLoop reads behind Buffer.zero _

theorem Table.settled_iff (h : Table srvfd u) {accepts : List AcceptResult} {clifd ret : ℤ}
    (hacc : acceptLoop accepts = some (some clifd))
    (hst : ViaSelect.acceptClientProc u accepts = some (t, ret)) :
    Settled u t ret clifd ↔ ¬ ∀ i, 0 ≤ u.ctx.clifds i := by
  obtain ⟨hpos, hnew, hopen, hend⟩ := acceptClientProc_client hacc hst
  rw [← full_iff]
  rcases hend with ⟨i, hfree, hret, htab⟩ | ⟨hfull, hret, -⟩
  · have hroom : SlotTable.firstFree isClient u.ctx.clifds ≠ none := by
      rw [hfree]
      exact Option.some_ne_none i
    refine iff_of_true (.inl ⟨hret, i, ?_, fun j hj => ?_, fun j hj => ?_⟩) hroom
    · rw [htab, Function.update_self]
    · by_contra hji
      rw [htab, Function.update_of_ne hji] at hj
      exact hnew (hj ▸ h.opened j (hj ▸ hpos))
    · rw [htab, Function.update_of_ne hj]
  · refine iff_of_false ?_ (not_not_intro hfull)
    rintro (⟨hzero, -⟩ | ⟨-, hclosed, -⟩)
    · omega
    · exact hclosed (hopen ▸ Finset.mem_insert_self _ _)

theorem Table.settles_iff {a : Act} (h : Table srvfd s) (hst : step srvfd s a = some t) :
    Settles srvfd s a ↔ HasRoom srvfd s a := by
  cases step_round hst with
  | selectError | timeout => exact iff_of_true trivial fun _ hr => hr
  | knocked fds accepts reads behind ret hsrv hproc =>
      have hsel : Table srvfd ((ViaSelect.setUp srvfd s).select fds) :=
        h.setUp.congr rfl rfl le_rfl
      have hfull := full_setUp srvfd s fds
      constructor
      · rintro hsettles fd ⟨-, hacc, hall⟩
        exact (hsel.settled_iff hacc hproc).1 (hsettles hsrv fd hacc t ret hproc)
          (hfull.2 hall)
      · intro hroom _ clifd hacc t' ret' hproc'
        exact (hsel.settled_iff hacc hproc').2 fun hall =>
          hroom clifd ⟨hsrv, hacc, hfull.1 hall⟩
  | served fds accepts reads behind hsrv =>
      exact iff_of_true (fun hin => absurd hin hsrv) fun _ hr => hsrv hr.1

/-- Each accepted client of a run is settled exactly if the table had room for it, and the
open clients at the end are those in the table exactly if it had room for all of them. -/
theorem refused_client_left_iff {as : List Act} (h : (server srvfd).run as = some s) :
    ((server srvfd).Meets (Settles srvfd) (server srvfd).init as ↔
      (server srvfd).Meets (HasRoom srvfd) (server srvfd).init as) ∧
    (Accounted srvfd s ↔ (server srvfd).Meets (HasRoom srvfd) (server srvfd).init as) := by
  constructor
  · exact Machine.Reachable.meets_congr .init
      (fun hr hst => (table_of_reachable hr).settles_iff hst) h
  · have htab := table_of_reachable (Machine.reachable_of_run as h)
    rw [htab.accounted_iff]
    constructor
    · intro hnone
      refine Machine.Reachable.meets_of_mark (K := fun s => ∃ fd, Lost srvfd s fd) .init ?_ ?_ h
        (fun ⟨fd, hfd⟩ => hnone fd hfd)
      · intro s t a hr hfull hst
        obtain ⟨fd, hfd⟩ := not_forall.1 hfull
        exact ⟨fd, ((table_of_reachable hr).lost_step hst).2 (.inr (not_not.1 hfd))⟩
      · rintro s t a hr ⟨fd, hfd⟩ hst
        exact ⟨fd, ((table_of_reachable hr).lost_step hst).2 (.inl hfd)⟩
    · intro hmeets
      have hreach := Machine.ReachableBy.runFrom .init hmeets h
      apply hreach.invariant (I := fun s => ∀ fd, ¬ Lost srvfd s fd)
      · rintro fd ⟨hopen, hne, -⟩
        exact hne (Finset.mem_singleton.1 hopen)
      · intro s t a hr hnone hroom hst fd hlost
        rcases ((table_of_reachable hr.reachable).lost_step hst).1 hlost with hold | hrefused
        · exact hnone fd hold
        · exact hroom fd hrefused

/-- A client leaves and another one connects. -/
theorem refused_client_left_iff_twoClients :
    ∃ s, (server 3).run [connect 5, say 5 [], connect 6] = some s ∧ s.opened = {3, 6} ∧
      Accounted 3 s := by
  have hrun : ((server 3).checkedFrom (fun s _ => decide (∃ i, s.ctx.clifds i < 0))
      (server 3).init [connect 5, say 5 [], connect 6]).map (fun s => s.opened) =
        some {3, 6} := by decide +kernel
  obtain ⟨s, hs, hopen⟩ := Option.map_eq_some_iff.1 hrun
  have hroom (s : State) (a : Act) (h : decide (∃ i, s.ctx.clifds i < 0) = true) :
      HasRoom 3 s a := by
    obtain ⟨i, hi⟩ := of_decide_eq_true h
    intro fd hr
    cases a with
    | selectError | timeout => exact hr
    | ready => exact absurd (hr.2.2 i) (not_le.2 hi)
  have hs' := Machine.runFrom_of_checked hs
  exact ⟨s, hs', hopen, (refused_client_left_iff hs').2.2 (Machine.meets_of_checked hroom hs)⟩

/-- The eleventh client is in no slot and stays open. -/
theorem refused_client_stays_open :
    ∃ s, (server 3).run ([5, 6, 7, 8, 9, 10, 11, 12, 13, 14, 15].map connect) = some s ∧
      15 ∈ s.opened ∧ 15 ∉ clients s ∧ ¬ Accounted 3 s := by
  have hrun : ((server 3).run ([5, 6, 7, 8, 9, 10, 11, 12, 13, 14, 15].map connect)).map
      (fun s => (decide (15 ∈ s.opened), decide (15 ∈ clients s))) = some (true, false) := by
    decide +kernel
  obtain ⟨s, hs, hview⟩ := Option.map_eq_some_iff.1 hrun
  obtain ⟨hopen, hslot⟩ := Prod.mk.inj hview
  have hout : 15 ∉ clients s := of_decide_eq_false hslot
  refine ⟨s, hs, of_decide_eq_true hopen, hout, fun hall => hout ?_⟩
  rw [← hall]
  exact Finset.mem_erase.2 ⟨by decide, of_decide_eq_true hopen⟩

end Londa.ViaSelect
