import Londa.ViaSelectTable

/-!
# What the select server watches

`cli_cnt` is not the number of clients, but it stays above the index of each of them: a slot
is filled at the lowest free index, all slots below it are in use and so below the count, and
the count is raised with every slot that is filled. So the loop that builds the select set
reaches every client.
-/

namespace Londa.ViaSelect

variable {srvfd : ℤ} {s t : State}

/-- The clients of the table are accepted connections that are open, each in one slot below
`cli_cnt`. -/
structure Table (srvfd : ℤ) (s : State) : Prop where
  nonneg : 0 ≤ s.ctx.cli_cnt
  free : ∀ i, s.ctx.clifds i < 0 → s.ctx.clifds i = -1
  distinct : ∀ i j, 0 ≤ s.ctx.clifds i → s.ctx.clifds i = s.ctx.clifds j → i = j
  opened : ∀ i, 0 ≤ s.ctx.clifds i → s.ctx.clifds i ∈ s.opened
  accepted : ∀ i, 0 ≤ s.ctx.clifds i → s.ctx.clifds i ≠ srvfd
  below : ∀ i, 0 ≤ s.ctx.clifds i → (i : ℤ) < s.ctx.cli_cnt
  listening : srvfd ∈ s.opened

/-- The descriptors of the clients in the table. -/
def clients (s : State) : Finset ℤ :=
  (SlotTable.occupied isClient s.ctx.clifds).image s.ctx.clifds

theorem mem_clients {fd : ℤ} : fd ∈ clients s ↔ 0 ≤ fd ∧ ∃ i, s.ctx.clifds i = fd := by
  simp only [clients, Finset.mem_image, SlotTable.mem_occupied, isClient, decide_eq_true_eq]
  constructor
  · rintro ⟨i, hi, rfl⟩
    exact ⟨hi, i, rfl⟩
  · rintro ⟨hfd, i, rfl⟩
    exact ⟨i, hfd, rfl⟩

theorem table_start (srvfd : ℤ) : Table srvfd (start srvfd) where
  nonneg := le_rfl
  free _ _ := rfl
  distinct _ _ h := absurd h (by simp [start])
  opened _ h := absurd h (by simp [start])
  accepted _ h := absurd h (by simp [start])
  below _ h := absurd h (by simp [start])
  listening := Finset.mem_singleton_self srvfd

theorem Table.congr (h : Table srvfd s) (hcnt : t.ctx.cli_cnt = s.ctx.cli_cnt)
    (htab : t.ctx.clifds = s.ctx.clifds) (hopen : s.opened ⊆ t.opened) : Table srvfd t where
  nonneg := hcnt ▸ h.nonneg
  free := htab ▸ h.free
  distinct := htab ▸ h.distinct
  opened i hi := hopen (htab ▸ h.opened i (htab ▸ hi))
  accepted := htab ▸ h.accepted
  below := htab ▸ hcnt ▸ h.below
  listening := hopen h.listening

/-- The slots before the first free one are all below the count. -/
theorem Table.firstFree_le (h : Table srvfd s) {i : Fin SIZE}
    (hfree : SlotTable.firstFree isClient s.ctx.clifds = some i) : (i : ℤ) ≤ s.ctx.cli_cnt := by
  obtain ⟨-, hbefore⟩ := SlotTable.firstFree_eq_some hfree
  by_cases hi : (i : ℕ) = 0
  · have := h.nonneg
    omega
  · have hlt := i.isLt
    have hocc := hbefore ⟨i - 1, by omega⟩ (Fin.lt_def.2 (by simp only; omega))
    have hbelow := h.below _ (of_decide_eq_true hocc)
    simp only at hbelow
    omega

theorem Table.accept (h : Table srvfd s) {i : Fin SIZE} {clifd : ℤ} (hpos : 0 ≤ clifd)
    (hnew : clifd ∉ s.opened) (hfree : SlotTable.firstFree isClient s.ctx.clifds = some i)
    (hcnt : t.ctx.cli_cnt = s.ctx.cli_cnt + 1)
    (htab : t.ctx.clifds = Function.update s.ctx.clifds i clifd)
    (hopen : t.opened = insert clifd s.opened) : Table srvfd t := by
  have hle := h.firstFree_le hfree
  have hne : ∀ j, j ≠ i → t.ctx.clifds j = s.ctx.clifds j := by
    intro j hj
    rw [htab, Function.update_of_ne hj]
  have hself : t.ctx.clifds i = clifd := by rw [htab, Function.update_self]
  have hfresh : ∀ j, s.ctx.clifds j ≠ clifd := by
    rintro j rfl
    exact hnew (h.opened j hpos)
  have hn := h.nonneg
  refine ⟨by omega, fun j hneg => ?_, fun j k hj hjk => ?_, fun j hj => ?_,
    fun j hj => ?_, fun j hj => ?_, ?_⟩
  · by_cases hji : j = i
    · subst j
      omega
    · rw [hne j hji] at hneg ⊢
      exact h.free j hneg
  · by_cases hji : j = i
    · subst j
      by_contra hki
      rw [hself, hne k (Ne.symm hki)] at hjk
      exact hfresh k hjk.symm
    · rw [hne j hji] at hj hjk
      by_cases hki : k = i
      · subst k
        rw [hself] at hjk
        exact absurd hjk (hfresh j)
      · rw [hne k hki] at hjk
        exact h.distinct j k hj hjk
  · rw [hopen]
    by_cases hji : j = i
    · subst j
      rw [hself]
      exact Finset.mem_insert_self _ _
    · rw [hne j hji] at hj ⊢
      exact Finset.mem_insert_of_mem (h.opened j hj)
  · by_cases hji : j = i
    · subst j
      rw [hself]
      rintro rfl
      exact hnew h.listening
    · rw [hne j hji] at hj ⊢
      exact h.accepted j hj
  · by_cases hji : j = i
    · subst j
      omega
    · rw [hne j hji] at hj
      have hbelow := h.below j hj
      omega
  · rw [hopen]
    exact Finset.mem_insert_of_mem h.listening

theorem Table.drop (h : Table srvfd s) (i : Fin SIZE) (hi : 0 ≤ s.ctx.clifds i) :
    Table srvfd (dropClient s i (s.ctx.clifds i)) := by
  have hslot : ∀ j, 0 ≤ (dropClient s i (s.ctx.clifds i)).ctx.clifds j →
      j ≠ i ∧ (dropClient s i (s.ctx.clifds i)).ctx.clifds j = s.ctx.clifds j := by
    intro j hj
    have hji : (j : ℕ) ≠ i := by
      intro heq
      simp [dropClient, heq] at hj
    exact ⟨fun heq => hji (congrArg Fin.val heq), if_neg hji⟩
  refine ⟨h.nonneg, fun j hneg => ?_, fun j k hj hjk => ?_, fun j hj => ?_,
    fun j hj => ?_, fun j hj => ?_, ?_⟩
  · by_cases hji : (j : ℕ) = i
    · exact if_pos hji
    · simp only [dropClient, if_neg hji] at hneg ⊢
      exact h.free j hneg
  · have hk : 0 ≤ (dropClient s i (s.ctx.clifds i)).ctx.clifds k := hjk ▸ hj
    rw [(hslot j hj).2, (hslot k hk).2] at hjk
    rw [(hslot j hj).2] at hj
    exact h.distinct j k hj hjk
  · obtain ⟨hji, heq⟩ := hslot j hj
    rw [heq] at hj ⊢
    refine Finset.mem_erase.2 ⟨fun hsame => hji (h.distinct j i hj hsame), h.opened j hj⟩
  · obtain ⟨-, heq⟩ := hslot j hj
    rw [heq] at hj ⊢
    exact h.accepted j hj
  · rw [(hslot j hj).2] at hj
    exact h.below j hj
  · exact Finset.mem_erase.2 ⟨(h.accepted i hi).symm, h.listening⟩

/-- A slot leaves the table alone, or drops the client in it. -/
theorem recvSlot_cases (reads : ℕ → ReadResult) (behind : List UInt8) (s : State) (buf : Buffer)
    (i : ℕ) :
    ((recvSlot reads behind (s, buf) i).1.ctx = s.ctx ∧
      (recvSlot reads behind (s, buf) i).1.opened = s.opened) ∨
      ∃ j : Fin SIZE, (j : ℕ) = i ∧ 0 ≤ s.ctx.clifds j ∧
        (recvSlot reads behind (s, buf) i).1 = dropClient (s.touch i) j (s.ctx.clifds j) := by
  have hctx : (s.touch i).ctx = s.ctx := rfl
  unfold recvSlot
  dsimp only
  rw [hctx]
  split
  · exact .inl ⟨rfl, rfl⟩
  · rename_i hpos
    have hclient := not_lt.1 hpos
    have hdrop : ∃ j : Fin SIZE, (j : ℕ) = i ∧ 0 ≤ s.ctx.clifds j ∧
        dropClient (s.touch i) i (s.ctx.clifd i) = dropClient (s.touch i) j (s.ctx.clifds j) := by
      unfold ServerContext.clifd at hclient ⊢
      split at hclient
      · rename_i hi
        exact ⟨⟨i, hi⟩, rfl, hclient, by rw [dif_pos hi]⟩
      · omega
    split
    · split
      · exact .inr hdrop
      · exact .inr hdrop
      · exact .inl ⟨rfl, rfl⟩
    · exact .inl ⟨rfl, rfl⟩

theorem Table.recvSlot (h : Table srvfd s) (reads : ℕ → ReadResult) (behind : List UInt8)
    (buf : Buffer) (i : ℕ) : Table srvfd (recvSlot reads behind (s, buf) i).1 := by
  rcases recvSlot_cases reads behind s buf i with ⟨hctx, hopen⟩ | ⟨j, -, hj, hdrop⟩
  · exact h.congr (congrArg _ hctx) (congrArg _ hctx) hopen.ge
  · rw [hdrop]
    exact Table.drop (s := s.touch i) (h.congr rfl rfl le_rfl) j hj

theorem Table.recvLoop (h : Table srvfd s) (reads : ℕ → ReadResult) (behind : List UInt8)
    (buf : Buffer) (is : List ℕ) :
    Table srvfd (is.foldl (ViaSelect.recvSlot reads behind) (s, buf)).1 := by
  induction is generalizing s buf with
  | nil => exact h
  | cons i is ih => exact ih (h.recvSlot reads behind buf i) _

theorem Table.acceptClientProc (h : Table srvfd s) {accepts : List AcceptResult} {ret : ℤ}
    (hst : acceptClientProc s accepts = some (t, ret)) : Table srvfd t := by
  unfold ViaSelect.acceptClientProc at hst
  split at hst
  · cases hst
  · cases hst
    exact h
  · split at hst
    · rename_i hnew
      dsimp only at hst
      split at hst
      · rename_i hfree
        cases hst
        exact h.accept hnew.1 hnew.2 hfree rfl rfl rfl
      · cases hst
        exact h.congr rfl rfl (Finset.subset_insert _ _)
    · cases hst

/-- The set and its maximum, as the loop that builds the set keeps them. -/
structure Watching (u : State) : Prop where
  mem : u.ctx.maxfd ∈ u.ctx.allfds
  le : ∀ fd ∈ u.ctx.allfds, fd ≤ u.ctx.maxfd
  nonneg : 0 ≤ u.ctx.maxfd

theorem allfds_watchSlot (u : State) (i : ℕ) : (watchSlot u i).ctx.allfds =
    if u.ctx.clifd i = -1 then u.ctx.allfds else insert (u.ctx.clifd i) u.ctx.allfds := rfl

theorem maxfd_watchSlot (u : State) (i : ℕ) : (watchSlot u i).ctx.maxfd =
    if u.ctx.maxfd < u.ctx.clifd i then u.ctx.clifd i else u.ctx.maxfd := rfl

theorem Watching.watchSlot {u : State} (h : Watching u) (i : ℕ) : Watching (watchSlot u i) := by
  have hn := h.nonneg
  by_cases hnone : u.ctx.clifd i = -1
  · have hle : ¬ u.ctx.maxfd < u.ctx.clifd i := by omega
    refine ⟨?_, ?_, ?_⟩ <;> rw [maxfd_watchSlot, if_neg hle]
    · rw [allfds_watchSlot, if_pos hnone]
      exact h.mem
    · rw [allfds_watchSlot, if_pos hnone]
      exact h.le
    · exact hn
  · have hset : (ViaSelect.watchSlot u i).ctx.allfds = insert (u.ctx.clifd i) u.ctx.allfds := by
      rw [allfds_watchSlot, if_neg hnone]
    by_cases hlt : u.ctx.maxfd < u.ctx.clifd i
    · refine ⟨?_, ?_, ?_⟩ <;> rw [maxfd_watchSlot, if_pos hlt]
      · rw [hset]
        exact Finset.mem_insert_self _ _
      · intro fd hfd
        rw [hset] at hfd
        rcases Finset.mem_insert.1 hfd with rfl | hfd
        · exact le_rfl
        · exact (h.le fd hfd).trans hlt.le
      · omega
    · refine ⟨?_, ?_, ?_⟩ <;> rw [maxfd_watchSlot, if_neg hlt]
      · rw [hset]
        exact Finset.mem_insert_of_mem h.mem
      · intro fd hfd
        rw [hset] at hfd
        rcases Finset.mem_insert.1 hfd with rfl | hfd
        · exact not_lt.1 hlt
        · exact h.le fd hfd
      · exact hn

theorem Watching.setUp (hsrv : 0 ≤ srvfd) (s : State) : Watching (setUp srvfd s) := by
  have hloop : ∀ (is : List ℕ) (u : State), Watching u →
      Watching (is.foldl ViaSelect.watchSlot u) := by
    intro is
    induction is with
    | nil => exact fun u hu => hu
    | cons i is ih => exact fun u hu => ih _ (hu.watchSlot i)
  apply hloop
  exact ⟨Finset.mem_singleton_self srvfd, fun fd hfd => (Finset.mem_singleton.1 hfd).le, hsrv⟩

theorem mem_watchLoop {fd : ℤ} (is : List ℕ) (u : State) :
    fd ∈ (is.foldl watchSlot u).ctx.allfds ↔
      fd ∈ u.ctx.allfds ∨ fd ≠ -1 ∧ ∃ i ∈ is, u.ctx.clifd i = fd := by
  induction is generalizing u with
  | nil => simp
  | cons i is ih =>
      have htab : ∀ k, (watchSlot u i).ctx.clifd k = u.ctx.clifd k := fun _ => rfl
      rw [List.foldl_cons, ih, allfds_watchSlot]
      simp only [htab, List.mem_cons, exists_eq_or_imp]
      split
      · rename_i hnone
        rw [hnone]
        constructor
        · rintro (hfd | ⟨hne, hex⟩)
          · exact .inl hfd
          · exact .inr ⟨hne, .inr hex⟩
        · rintro (hfd | ⟨hne, heq | hex⟩)
          · exact .inl hfd
          · exact absurd heq.symm hne
          · exact .inr ⟨hne, hex⟩
      · rename_i hsome
        rw [Finset.mem_insert]
        constructor
        · rintro ((rfl | hfd) | ⟨hne, hex⟩)
          · exact .inr ⟨hsome, .inl rfl⟩
          · exact .inl hfd
          · exact .inr ⟨hne, .inr hex⟩
        · rintro (hfd | ⟨hne, heq | hex⟩)
          · exact .inl (.inr hfd)
          · exact .inl (.inl heq.symm)
          · exact .inr ⟨hne, hex⟩

theorem opened_setUp (srvfd : ℤ) (s : State) : (setUp srvfd s).opened = s.opened := by
  have hloop : ∀ (is : List ℕ) (u : State), (is.foldl watchSlot u).opened = u.opened := by
    intro is
    induction is with
    | nil => exact fun _ => rfl
    | cons i is ih => exact fun u => ih (watchSlot u i)
  exact hloop _ _

theorem Table.setUp (h : Table srvfd s) : Table srvfd (setUp srvfd s) := by
  obtain ⟨hcnt, htab, -⟩ := setUp_spec srvfd s
  exact h.congr hcnt htab (opened_setUp srvfd s).ge

/-- The select set is the listening socket and the clients. -/
theorem Table.allfds_setUp (h : Table srvfd s) :
    (ViaSelect.setUp srvfd s).ctx.allfds = insert srvfd (clients s) := by
  ext fd
  unfold ViaSelect.setUp
  rw [mem_watchLoop, Finset.mem_insert, mem_clients, Finset.mem_singleton]
  apply or_congr Iff.rfl
  have hclifd : ∀ i, ServerContext.clifd { s.ctx with allfds := {srvfd}, maxfd := srvfd } i =
      s.ctx.clifd i := fun _ => rfl
  simp only [hclifd]
  constructor
  · rintro ⟨hne, i, -, rfl⟩
    unfold ServerContext.clifd at hne ⊢
    split at hne
    · rename_i hi
      rw [dif_pos hi]
      refine ⟨?_, ⟨i, hi⟩, rfl⟩
      by_contra hneg
      exact hne (h.free ⟨i, hi⟩ (not_le.1 hneg))
    · exact absurd rfl hne
  · rintro ⟨hpos, i, rfl⟩
    have hbelow := h.below i hpos
    refine ⟨by omega, i, List.mem_range.2 (by omega), ?_⟩
    simp [ServerContext.clifd]

theorem table_of_reachable (h : (server srvfd).Reachable s) : Table srvfd s := by
  apply h.invariant (I := Table srvfd) (table_start srvfd)
  intro s t a _ hi hst
  have hset := hi.setUp
  have hsel (fds : Finset ℤ) : Table srvfd ((ViaSelect.setUp srvfd s).select fds) :=
    hset.congr rfl rfl le_rfl
  cases step_round hst with
  | selectError ht =>
      subst ht
      exact hset.congr rfl rfl le_rfl
  | timeout ht =>
      subst ht
      exact hsel ∅
  | knocked fds _ _ _ _ _ hacc => exact (hsel fds).acceptClientProc hacc
  | served fds accepts reads behind _ ht =>
      subst ht
      exact (hsel fds).recvLoop reads behind Buffer.zero _

/-- Every client of the table is open and in one slot below `cli_cnt`; the set given to
`select` is the listening socket with the clients, all of them open, and `maxfd` is its
maximum. -/
theorem every_client_watched (hsrv : 0 ≤ srvfd) (h : (server srvfd).Reachable s) :
    Table srvfd s ∧ (setUp srvfd s).ctx.allfds = insert srvfd (clients s) ∧
      (∀ fd ∈ (setUp srvfd s).ctx.allfds, fd ∈ s.opened) ∧
      (setUp srvfd s).ctx.maxfd ∈ (setUp srvfd s).ctx.allfds ∧
      ∀ fd ∈ (setUp srvfd s).ctx.allfds, fd ≤ (setUp srvfd s).ctx.maxfd := by
  have htab := table_of_reachable h
  have hset := htab.allfds_setUp
  have hwatch := Watching.setUp hsrv s
  refine ⟨htab, hset, fun fd hfd => ?_, hwatch.mem, hwatch.le⟩
  rw [hset] at hfd
  rcases Finset.mem_insert.1 hfd with rfl | hfd
  · exact htab.listening
  · obtain ⟨hpos, i, rfl⟩ := mem_clients.1 hfd
    exact htab.opened i hpos

/-- Of two clients the first leaves and a third takes its slot. -/
theorem every_client_watched_refilled :
    ∃ s, (server 3).Reachable s ∧ s.ctx.cli_cnt = 3 ∧ s.ctx.clifd 0 = 7 ∧
      (setUp 3 s).ctx.allfds = insert 3 (clients s) ∧
      ∀ fd ∈ (setUp 3 s).ctx.allfds, fd ≤ (setUp 3 s).ctx.maxfd := by
  have hrun : ((server 3).run [connect 5, connect 6, say 5 [], connect 7]).map
      (fun s => (s.ctx.cli_cnt, s.ctx.clifd 0)) = some (3, 7) := by decide +kernel
  obtain ⟨s, -, hs, hview⟩ := Machine.reachable_of_run_map hrun
  obtain ⟨hcnt, hslot⟩ := Prod.mk.inj hview
  obtain ⟨-, hset, -, -, hmax⟩ := every_client_watched (by decide) hs
  exact ⟨s, hs, hcnt, hslot, hset, hmax⟩

end Londa.ViaSelect
