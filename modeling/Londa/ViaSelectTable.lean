import Londa.ViaSelect

/-!
# The client table of the select server

`cli_cnt` is raised when a slot is filled and never lowered, and the loop of
`recv_client_msg` runs up to and including `cli_cnt`. A run keeps the count equal
to the number of clients and all indices inside the table exactly when it never
serves clients while all slots are counted and never sees a client leave: the
first such iteration leaves a mark that no later one removes.
-/

namespace Londa.ViaSelect

variable {srvfd : ℤ} {s t : State}

/-- The number of clients in the table. -/
def tracked (s : State) : ℕ := (SlotTable.occupied isClient s.ctx.clifds).card

def InRange (s : State) : Prop :=
  s.ctx.cli_cnt = tracked s ∧ 0 ≤ s.ctx.cli_cnt ∧ s.ctx.cli_cnt ≤ SIZE ∧
    ∀ i ∈ s.indices, i < SIZE

/-- The branch `n <= 0`. -/
def ReadResult.closes : ReadResult → Bool
  | .error => true
  | .data bytes => bytes.isEmpty

/-- The ready clients are served while a slot is uncounted, and none of them leaves. -/
def Steady (srvfd : ℤ) (s : State) : Act → Prop
  | .ready fds _ reads _ => srvfd ∉ fds → s.ctx.cli_cnt < SIZE ∧
      ∀ i : Fin SIZE, 0 ≤ s.ctx.clifds i → s.ctx.clifds i ∈ fds → (reads i).closes = false
  | _ => True

/-- The read on the client in slot `i` drops it. -/
def Drops (ctx : ServerContext) (reads : ℕ → ReadResult) (i : ℕ) : Prop :=
  0 ≤ ctx.clifd i ∧ ctx.clifd i ∈ ctx.allfds ∧ (reads i).closes

theorem setUp_spec (srvfd : ℤ) (s : State) :
    (setUp srvfd s).ctx.cli_cnt = s.ctx.cli_cnt ∧ (setUp srvfd s).ctx.clifds = s.ctx.clifds ∧
      (setUp srvfd s).indices = s.indices ++ List.range s.ctx.cli_cnt.toNat := by
  have hloop : ∀ (is : List ℕ) (u : State),
      (is.foldl watchSlot u).ctx.cli_cnt = u.ctx.cli_cnt ∧
        (is.foldl watchSlot u).ctx.clifds = u.ctx.clifds ∧
        (is.foldl watchSlot u).indices = u.indices ++ is := by
    intro is
    induction is with
    | nil => intro u; simp
    | cons i is ih =>
        intro u
        obtain ⟨hcnt, htab, hind⟩ := ih (watchSlot u i)
        refine ⟨hcnt, htab, ?_⟩
        rw [List.foldl_cons, hind]
        simp [watchSlot, State.touch]
  exact hloop _ _

theorem tracked_dropClient {i : ℕ} (h : 0 ≤ s.ctx.clifd i) (clifd : ℤ) :
    tracked (dropClient s i clifd) < tracked s := by
  unfold ServerContext.clifd at h
  split at h
  · rename_i hi
    have hupd : (dropClient s i clifd).ctx.clifds =
        Function.update s.ctx.clifds ⟨i, hi⟩ (-1) := by
      funext j
      by_cases hj : (j : ℕ) = i
      · subst hj
        simp [dropClient]
      · rw [Function.update_of_ne (fun heq => hj (congrArg Fin.val heq))]
        simp [dropClient, hj]
    unfold tracked
    rw [hupd]
    exact SlotTable.card_clear_lt (by decide) (by simpa [isClient] using h)
  · omega

theorem recvSlot_spec (reads : ℕ → ReadResult) (behind : List UInt8) (s : State) (buf : Buffer)
    (i : ℕ) :
    (recvSlot reads behind (s, buf) i).1.ctx.cli_cnt = s.ctx.cli_cnt ∧
      (recvSlot reads behind (s, buf) i).1.indices = s.indices ++ [i] ∧
      ((recvSlot reads behind (s, buf) i).1.ctx = s.ctx ∧ ¬ Drops s.ctx reads i ∨
        Drops s.ctx reads i ∧ tracked (recvSlot reads behind (s, buf) i).1 < tracked s) := by
  have hctx : (s.touch i).ctx = s.ctx := rfl
  have hdrop : ∀ clifd, 0 ≤ s.ctx.clifd i →
      tracked (dropClient (s.touch i) i clifd) < tracked s := fun clifd h =>
    tracked_dropClient (s := s.touch i) h clifd
  unfold recvSlot
  dsimp only
  rw [hctx]
  split
  · rename_i hneg
    exact ⟨rfl, rfl, Or.inl ⟨rfl, fun hd => absurd hd.1 (not_le.2 hneg)⟩⟩
  · rename_i hpos
    have hclient := not_lt.1 hpos
    split
    · rename_i hset
      split
      · rename_i hread
        exact ⟨rfl, rfl, Or.inr ⟨⟨hclient, hset, by rw [hread]; rfl⟩, hdrop _ hclient⟩⟩
      · rename_i hread
        exact ⟨rfl, rfl, Or.inr ⟨⟨hclient, hset, by rw [hread]; rfl⟩, hdrop _ hclient⟩⟩
      · rename_i bytes hne hread
        refine ⟨rfl, rfl, Or.inl ⟨rfl, fun hd => hne ?_⟩⟩
        have hclose := hd.2.2
        rw [hread] at hclose
        exact List.isEmpty_iff.1 hclose
    · rename_i hset
      exact ⟨rfl, rfl, Or.inl ⟨rfl, fun hd => hset hd.2.1⟩⟩

/-- The loop leaves the table alone and drops nobody, or it ends with fewer clients. -/
theorem recvLoop_spec (reads : ℕ → ReadResult) (behind : List UInt8) (is : List ℕ)
    (sb : State × Buffer) :
    (is.foldl (recvSlot reads behind) sb).1.ctx.cli_cnt = sb.1.ctx.cli_cnt ∧
      (is.foldl (recvSlot reads behind) sb).1.indices = sb.1.indices ++ is ∧
      ((is.foldl (recvSlot reads behind) sb).1.ctx = sb.1.ctx ∧
          (∀ i ∈ is, ¬ Drops sb.1.ctx reads i) ∨
        (∃ i ∈ is, Drops sb.1.ctx reads i) ∧
          tracked (is.foldl (recvSlot reads behind) sb).1 < tracked sb.1) := by
  induction is generalizing sb with
  | nil => exact ⟨rfl, by simp, Or.inl ⟨rfl, fun i hi => by cases hi⟩⟩
  | cons i is ih =>
      obtain ⟨hcnt, hind, hone⟩ := recvSlot_spec reads behind sb.1 sb.2 i
      obtain ⟨hcnt', hind', hrest⟩ := ih (recvSlot reads behind sb i)
      rw [List.foldl_cons]
      refine ⟨hcnt'.trans hcnt, ?_, ?_⟩
      · rw [hind', hind, List.append_assoc]
        rfl
      · rcases hone with ⟨hctx, hkeep⟩ | ⟨hdrop, hlt⟩
        · have htr : tracked (recvSlot reads behind sb i).1 = tracked sb.1 := by
            unfold tracked
            rw [hctx]
          rcases hrest with ⟨hctx', hkeep'⟩ | ⟨⟨j, hj, hdrop⟩, hlt'⟩
          · refine Or.inl ⟨hctx'.trans hctx, fun j hj => ?_⟩
            rcases List.mem_cons.1 hj with rfl | hj
            · exact hkeep
            · exact hctx ▸ hkeep' j hj
          · exact Or.inr ⟨⟨j, List.mem_cons_of_mem _ hj, hctx ▸ hdrop⟩, htr ▸ hlt'⟩
        · refine Or.inr ⟨⟨i, List.mem_cons_self, hdrop⟩, ?_⟩
          rcases hrest with ⟨hctx', -⟩ | ⟨-, hlt'⟩
          · have htr : tracked (is.foldl (recvSlot reads behind) (recvSlot reads behind sb i)).1 =
                tracked (recvSlot reads behind sb i).1 := by
              unfold tracked
              rw [hctx']
            exact htr ▸ hlt
          · exact hlt'.trans hlt

/-- The four ways in which an iteration of the loop of `handle_client_proc` may go. -/
inductive Round (srvfd : ℤ) (s t : State) : Act → Prop
  | selectError : t = { setUp srvfd s with running := false } → Round srvfd s t .selectError
  | timeout : t = (setUp srvfd s).select ∅ → Round srvfd s t .timeout
  | knocked (fds : Finset ℤ) (accepts : List AcceptResult) (reads : ℕ → ReadResult)
      (behind : List UInt8) (ret : ℤ) :
      srvfd ∈ fds → acceptClientProc ((setUp srvfd s).select fds) accepts = some (t, ret) →
      Round srvfd s t (.ready fds accepts reads behind)
  | served (fds : Finset ℤ) (accepts : List AcceptResult) (reads : ℕ → ReadResult)
      (behind : List UInt8) :
      srvfd ∉ fds → t = recvClientMsg ((setUp srvfd s).select fds) reads behind →
      Round srvfd s t (.ready fds accepts reads behind)

theorem step_round {a : Act} (h : step srvfd s a = some t) : Round srvfd s t a := by
  unfold step at h
  split at h
  · cases a with
    | selectError => exact .selectError (Option.some.inj h).symm
    | timeout => exact .timeout (Option.some.inj h).symm
    | ready fds accepts reads behind =>
        dsimp only at h
        split at h
        · split at h
          · rename_i hsrv
            obtain ⟨⟨v, ret⟩, hacc, rfl⟩ := Option.map_eq_some_iff.1 h
            exact .knocked fds accepts reads behind ret hsrv hacc
          · rename_i hsrv
            exact .served fds accepts reads behind hsrv (Option.some.inj h).symm
        · cases h
  · cases h

/-- What one iteration of the loop of `handle_client_proc` does to the table. -/
inductive Effect (srvfd : ℤ) (s t : State) : Act → Prop
  | idle (a : Act) :
      (∀ fds accepts reads behind, a = .ready fds accepts reads behind → srvfd ∈ fds) →
      t.ctx.cli_cnt = s.ctx.cli_cnt → t.ctx.clifds = s.ctx.clifds →
      t.indices = s.indices ++ List.range s.ctx.cli_cnt.toNat → Effect srvfd s t a
  | accepted (fds : Finset ℤ) (accepts : List AcceptResult) (reads : ℕ → ReadResult)
      (behind : List UInt8) (i : Fin SIZE) (clifd : ℤ) :
      srvfd ∈ fds → 0 ≤ clifd → SlotTable.firstFree isClient s.ctx.clifds = some i →
      t.ctx.cli_cnt = s.ctx.cli_cnt + 1 →
      t.ctx.clifds = Function.update s.ctx.clifds i clifd →
      t.indices = s.indices ++ List.range s.ctx.cli_cnt.toNat →
      Effect srvfd s t (.ready fds accepts reads behind)
  | served (fds : Finset ℤ) (accepts : List AcceptResult) (reads : ℕ → ReadResult)
      (behind : List UInt8) :
      srvfd ∉ fds → t.ctx.cli_cnt = s.ctx.cli_cnt →
      t.indices = s.indices ++ List.range s.ctx.cli_cnt.toNat ++
        List.range (s.ctx.cli_cnt + 1).toNat →
      (t.ctx.clifds = s.ctx.clifds ∧ (∀ i ∈ List.range (s.ctx.cli_cnt + 1).toNat,
          ¬ Drops { s.ctx with allfds := fds } reads i) ∨
        (∃ i, Drops { s.ctx with allfds := fds } reads i) ∧ tracked t < tracked s) →
      Effect srvfd s t (.ready fds accepts reads behind)

theorem acceptClientProc_effect {u : State} {fds : Finset ℤ} {accepts : List AcceptResult}
    {reads : ℕ → ReadResult} {behind : List UInt8} {ret : ℤ} (hsrv : srvfd ∈ fds)
    (hcnt : u.ctx.cli_cnt = s.ctx.cli_cnt) (htab : u.ctx.clifds = s.ctx.clifds)
    (hind : u.indices = s.indices ++ List.range s.ctx.cli_cnt.toNat)
    (h : acceptClientProc u accepts = some (t, ret)) :
    Effect srvfd s t (.ready fds accepts reads behind) := by
  have hidle : ∀ fds' accepts' reads' behind', Act.ready fds accepts reads behind =
      .ready fds' accepts' reads' behind' → srvfd ∈ fds' := by
    intro fds' accepts' reads' behind' heq
    cases heq
    exact hsrv
  unfold acceptClientProc at h
  split at h
  · cases h
  · cases h
    exact .idle _ hidle hcnt htab hind
  · rename_i clifd _
    split at h
    · rename_i hnew
      dsimp only at h
      split at h
      · rename_i i hi
        cases h
        refine .accepted fds accepts reads behind i clifd hsrv hnew.1 (htab ▸ hi) ?_ ?_ hind
        · dsimp only
          rw [hcnt]
        · dsimp only
          rw [htab]
      · cases h
        exact .idle _ hidle hcnt htab hind
    · cases h

theorem drops_congr {ctx ctx' : ServerContext} {reads : ℕ → ReadResult} {i : ℕ}
    (htab : ctx'.clifds = ctx.clifds) (hset : ctx'.allfds = ctx.allfds) :
    Drops ctx' reads i ↔ Drops ctx reads i := by
  have hclifd : ctx'.clifd i = ctx.clifd i := by
    unfold ServerContext.clifd
    rw [htab]
  unfold Drops
  rw [hclifd, hset]

theorem recvClientMsg_effect {u : State} {fds : Finset ℤ} (accepts : List AcceptResult)
    (reads : ℕ → ReadResult) (behind : List UInt8) (hsrv : srvfd ∉ fds)
    (hcnt : u.ctx.cli_cnt = s.ctx.cli_cnt) (htab : u.ctx.clifds = s.ctx.clifds)
    (hset : u.ctx.allfds = fds)
    (hind : u.indices = s.indices ++ List.range s.ctx.cli_cnt.toNat) :
    Effect srvfd s (recvClientMsg u reads behind) (.ready fds accepts reads behind) := by
  obtain ⟨hcnt', hind', hloop⟩ := recvLoop_spec reads behind
    (List.range (u.ctx.cli_cnt + 1).toNat) (u, Buffer.zero)
  refine .served fds accepts reads behind hsrv (hcnt'.trans hcnt) ?_ ?_
  · rw [← hind, ← hcnt]
    exact hind'
  · have hdrops : ∀ i, Drops u.ctx reads i ↔ Drops { s.ctx with allfds := fds } reads i :=
      fun i => drops_congr htab hset
    rcases hloop with ⟨hctx, hkeep⟩ | ⟨⟨i, -, hdrop⟩, hlt⟩
    · refine Or.inl ⟨(congrArg ServerContext.clifds hctx).trans htab, ?_⟩
      rw [← hcnt]
      intro i hi hd
      exact hkeep i hi ((hdrops i).2 hd)
    · have htr : tracked u = tracked s := by
        unfold tracked
        rw [htab]
      exact Or.inr ⟨⟨i, (hdrops i).1 hdrop⟩, htr ▸ hlt⟩

theorem step_effect {a : Act} (h : step srvfd s a = some t) : Effect srvfd s t a := by
  obtain ⟨hcnt, htab, hind⟩ := setUp_spec srvfd s
  cases step_round h with
  | selectError ht | timeout ht =>
      subst ht
      exact .idle _ (fun _ _ _ _ heq => by cases heq) hcnt htab hind
  | knocked fds accepts reads behind ret hsrv hacc =>
      exact acceptClientProc_effect (u := (setUp srvfd s).select fds) hsrv hcnt htab hind hacc
  | served fds accepts reads behind hsrv ht =>
      subst ht
      exact recvClientMsg_effect accepts reads behind hsrv hcnt htab rfl hind

/-- A client was dropped without being uncounted, or an index has left the table. -/
def Mark (s : State) : Prop := (tracked s : ℤ) < s.ctx.cli_cnt ∨ ∃ i ∈ s.indices, SIZE ≤ i

/-- The clients are the slots below `cli_cnt`, and no index has left the table. -/
structure Filled (s : State) : Prop where
  nonneg : 0 ≤ s.ctx.cli_cnt
  le_size : s.ctx.cli_cnt ≤ SIZE
  packed : SlotTable.Packed isClient s.ctx.clifds s.ctx.cli_cnt.toNat
  inside : ∀ i ∈ s.indices, i < SIZE

theorem Filled.tracked_eq (h : Filled s) : (tracked s : ℤ) = s.ctx.cli_cnt := by
  have hn := h.nonneg
  have hle := h.le_size
  have hcard := h.packed.card (by omega)
  unfold tracked
  omega

theorem Filled.inRange (h : Filled s) : InRange s :=
  ⟨h.tracked_eq.symm, h.nonneg, h.le_size, h.inside⟩

theorem InRange.not_mark (h : InRange s) : ¬ Mark s := by
  obtain ⟨hcnt, -, -, hind⟩ := h
  rintro (hlt | ⟨i, hi, hge⟩)
  · omega
  · have := hind i hi
    omega

theorem filled_start (srvfd : ℤ) : Filled (start srvfd) where
  nonneg := le_rfl
  le_size := Int.natCast_nonneg SIZE
  packed i := by simp [start, isClient]
  inside i hi := by cases hi

theorem Effect.indices_subset {a : Act} (h : Effect srvfd s t a) {i : ℕ} (hi : i ∈ s.indices) :
    i ∈ t.indices := by
  cases h with
  | idle _ _ _ _ hind | accepted _ _ _ _ _ _ _ _ _ _ _ hind =>
      rw [hind]
      exact List.mem_append_left _ hi
  | served _ _ _ _ _ _ hind =>
      rw [hind, List.append_assoc]
      exact List.mem_append_left _ hi

theorem Mark.step {a : Act} (h : Mark s) (he : Effect srvfd s t a) : Mark t := by
  rcases h with hlt | ⟨i, hi, hge⟩
  · left
    cases he with
    | idle _ _ hcnt htab =>
        unfold tracked at hlt ⊢
        rwa [hcnt, htab]
    | accepted fds accepts reads behind i clifd _ hpos hfree hcnt htab =>
        have hclient : isClient clifd := by simpa [isClient] using hpos
        have hcard := SlotTable.card_fill hclient (SlotTable.firstFree_eq_some hfree).1
        unfold tracked at hlt ⊢
        rw [htab, hcnt, hcard]
        omega
    | served _ _ _ _ _ hcnt _ htab =>
        rcases htab with ⟨htab, -⟩ | ⟨-, hless⟩
        · unfold tracked at hlt ⊢
          rwa [hcnt, htab]
        · rw [hcnt]
          omega
  · exact Or.inr ⟨i, he.indices_subset hi, hge⟩

theorem inside_append {is : List ℕ} {n : ℕ} (h : ∀ i ∈ is, i < SIZE) (hn : n ≤ SIZE) :
    ∀ i ∈ is ++ List.range n, i < SIZE := by
  intro i hi
  rcases List.mem_append.1 hi with hi | hi
  · exact h i hi
  · have := List.mem_range.1 hi
    omega

/-- A slot that drops its client is one of the table and its client is ready. -/
theorem Drops.slot {ctx : ServerContext} {reads : ℕ → ReadResult} {i : ℕ}
    (h : Drops ctx reads i) : ∃ j : Fin SIZE, (j : ℕ) = i ∧ 0 ≤ ctx.clifds j ∧
      ctx.clifds j ∈ ctx.allfds ∧ (reads j).closes := by
  obtain ⟨hpos, hset, hcloses⟩ := h
  unfold ServerContext.clifd at hpos hset
  split at hpos
  · rename_i hi
    rw [dif_pos hi] at hset
    exact ⟨⟨i, hi⟩, rfl, hpos, hset, hcloses⟩
  · omega

theorem Filled.step {a : Act} (h : Filled s) (he : Effect srvfd s t a) (hs : Steady srvfd s a) :
    Filled t := by
  have hn := h.nonneg
  have hle := h.le_size
  have hind₀ := inside_append (n := s.ctx.cli_cnt.toNat) h.inside (by omega)
  cases he with
  | idle _ _ hcnt htab hind =>
      exact ⟨hcnt ▸ hn, hcnt ▸ hle, hcnt ▸ htab ▸ h.packed, hind ▸ hind₀⟩
  | accepted fds accepts reads behind i clifd _ hpos hfree hcnt htab hind =>
      have hi : (i : ℕ) = s.ctx.cli_cnt.toNat := h.packed.firstFree_eq hfree
      have hlt := i.isLt
      refine ⟨by omega, by omega, ?_, hind ▸ hind₀⟩
      have hsucc : t.ctx.cli_cnt.toNat = s.ctx.cli_cnt.toNat + 1 := by omega
      rw [hsucc, htab]
      exact h.packed.fill hfree (by simpa [isClient] using hpos)
  | served fds accepts reads behind hsrv hcnt hind htab =>
      obtain ⟨hlt, hstay⟩ := hs hsrv
      have hsame : t.ctx.clifds = s.ctx.clifds := by
        rcases htab with ⟨htab, -⟩ | ⟨⟨i, hdrop⟩, -⟩
        · exact htab
        · obtain ⟨j, -, hpos, hset, hcloses⟩ := hdrop.slot
          rw [hstay j hpos hset] at hcloses
          cases hcloses
      exact ⟨hcnt ▸ hn, hcnt ▸ hle, hcnt ▸ hsame ▸ h.packed, hind ▸ inside_append hind₀ (by omega)⟩

theorem Filled.mark_of_not_steady {a : Act} (h : Filled s) (he : Effect srvfd s t a)
    (hs : ¬ Steady srvfd s a) : Mark t := by
  have hn := h.nonneg
  have hle := h.le_size
  cases he with
  | idle _ hidle =>
      cases a with
      | selectError | timeout => exact absurd trivial hs
      | ready fds accepts reads behind =>
          exact absurd (fun hsrv => absurd (hidle _ _ _ _ rfl) hsrv) hs
  | accepted fds accepts reads behind i clifd hsrv =>
      exact absurd (fun hsrv' => absurd hsrv hsrv') hs
  | served fds accepts reads behind hsrv hcnt hind htab =>
      rcases htab with ⟨-, hkeep⟩ | ⟨-, hless⟩
      · by_cases hfull : s.ctx.cli_cnt < SIZE
        · refine absurd (fun _ => ⟨hfull, fun i hpos hset => ?_⟩) hs
          have hi : (i : ℕ) < s.ctx.cli_cnt.toNat :=
            (h.packed i).1 (by simpa [isClient] using hpos)
          have hnot := hkeep i (List.mem_range.2 (by omega))
          by_contra hcloses
          refine hnot ⟨?_, ?_, by simpa using hcloses⟩
          · simpa [ServerContext.clifd] using hpos
          · simpa [ServerContext.clifd] using hset
        · refine Or.inr ⟨SIZE, ?_, le_rfl⟩
          rw [hind]
          exact List.mem_append_right _ (List.mem_range.2 (by omega))
      · left
        have := h.tracked_eq
        rw [hcnt]
        omega

theorem mark_or_filled (h : (server srvfd).Reachable s) : Mark s ∨ Filled s := by
  apply h.invariant (I := fun s => Mark s ∨ Filled s) (Or.inr (filled_start srvfd))
  intro s t a _ hi hst
  have he := step_effect hst
  rcases hi with hmark | hfilled
  · exact Or.inl (hmark.step he)
  · by_cases hs : Steady srvfd s a
    · exact Or.inr (hfilled.step he hs)
    · exact Or.inl (hfilled.mark_of_not_steady he hs)

theorem table_inRange_iff {as : List Act} (h : (server srvfd).run as = some s) :
    InRange s ↔ (server srvfd).Meets (Steady srvfd) (server srvfd).init as := by
  constructor
  · intro hin
    refine Machine.Reachable.meets_of_mark (K := Mark) .init ?_ ?_ h hin.not_mark
    · intro s t a hr hs hst
      rcases mark_or_filled hr with hmark | hfilled
      · exact hmark.step (step_effect hst)
      · exact hfilled.mark_of_not_steady (step_effect hst) hs
    · intro s t a _ hmark hst
      exact hmark.step (step_effect hst)
  · intro hmeets
    have hreach := Machine.ReachableBy.runFrom .init hmeets h
    have hfilled : Filled s := hreach.invariant (I := Filled) (filled_start srvfd)
      (fun _ hi hs hst => hi.step (step_effect hst) hs)
    exact hfilled.inRange

def connect (clifd : ℤ) : Act := .ready {3} [.client clifd] (fun _ => .error) []

/-- The client is ready; the empty message is its end of stream. -/
def say (clifd : ℤ) (bytes : List UInt8) : Act :=
  .ready {clifd} [] (fun _ => .data bytes) []

theorem table_inRange_iff_oneClient :
    ∃ s, (server 3).run [connect 5, say 5 [104]] = some s ∧ s.ctx.cli_cnt = 1 ∧ InRange s := by
  have hrun : ((server 3).run [connect 5, say 5 [104]]).map (fun s => s.ctx.cli_cnt) = some 1 := by
    decide +kernel
  have hone : ((server 3).step (server 3).init (connect 5)).map (fun s => s.ctx.cli_cnt) =
      some 1 := by decide +kernel
  obtain ⟨s, hs, -, hcnt⟩ := Machine.reachable_of_run_map hrun
  refine ⟨s, hs, hcnt, (table_inRange_iff hs).2 ?_⟩
  refine ⟨fun hsrv => absurd (Finset.mem_singleton_self 3) hsrv, fun t ht => ?_⟩
  refine ⟨fun _ => ⟨?_, fun i _ _ => rfl⟩, fun _ _ => trivial⟩
  rw [ht] at hone
  have hcnt' : t.ctx.cli_cnt = 1 := Option.some.inj hone
  rw [hcnt']
  decide

/-- A client that leaves stays counted; ten clients make the loop of
`recv_client_msg` read an eleventh slot. -/
theorem table_leaves_range :
    (∃ s, (server 3).Reachable s ∧ s.ctx.cli_cnt = 1 ∧ tracked s = 0 ∧ ¬ InRange s) ∧
      ∃ s, (server 3).Reachable s ∧ s.ctx.cli_cnt = 10 ∧ tracked s = 10 ∧ 10 ∈ s.indices ∧
        ¬ InRange s := by
  constructor
  · have hrun : ((server 3).run [connect 5, say 5 []]).map
        (fun s => (s.ctx.cli_cnt, tracked s)) = some (1, 0) := by decide +kernel
    obtain ⟨s, -, hs, hview⟩ := Machine.reachable_of_run_map hrun
    obtain ⟨hcnt, htr⟩ := Prod.mk.inj hview
    refine ⟨s, hs, hcnt, htr, fun hin => ?_⟩
    have heq := hin.1
    rw [hcnt, htr] at heq
    cases heq
  · have hrun : ((server 3).run (([5, 6, 7, 8, 9, 10, 11, 12, 13, 14].map connect) ++
        [say 5 [104]])).map (fun s => (s.ctx.cli_cnt, tracked s, decide (10 ∈ s.indices))) =
          some (10, 10, true) := by decide +kernel
    obtain ⟨s, -, hs, hview⟩ := Machine.reachable_of_run_map hrun
    obtain ⟨hcnt, hrest⟩ := Prod.mk.inj hview
    obtain ⟨htr, hind⟩ := Prod.mk.inj hrest
    have hmem : 10 ∈ s.indices := of_decide_eq_true hind
    exact ⟨s, hs, hcnt, htr, hmem, fun hin => absurd (hin.2.2.2 10 hmem) (by decide)⟩

end Londa.ViaSelect
