import Londa.ViaPollTable

/-!
# What a round of the poll server reads

The counter `nready` counts the listening slot, so after an accept the shortcut is taken
exactly when `poll` found nothing else. A slot that the accept filled was free during
`poll`: up to `maxi` its `revents` is then 0, above `maxi` it is the memory of the array.
-/

namespace Londa.ViaPoll

variable {listenfd : ℤ} {memory : Slot → PollFd} {s t : State}

/-- The round's `poll` covered the slot and reported it readable. -/
def Reported (s : State) (revents : Slot → Events) (i : Slot) : Prop :=
  (i : ℕ) ≤ s.maxi ∧ has (polled s revents i).revents POLLIN

/-- The client slots read in a round whose `accept`, if there is one, does not fail are
those that its `poll` reported. -/
def ReadsReported (listenfd : ℤ) (s : State) : Act → Prop
  | .pollError => True
  | .round revents accept reads =>
      (Knocked s revents → ∃ connfd, accept = .client connfd) →
        ∀ t, step listenfd s (.round revents accept reads) = some t →
          ∀ i, i ≠ 0 → (WasRead t i ↔ Reported s revents i)

/-- A round that accepts a client finds a free slot, or has no client to read; where the
free slot is above `maxi` and `poll` found another descriptor ready, the memory of that
slot does not look readable. -/
def CleanAccept (memory : Slot → PollFd) (s : State) : Act → Prop
  | .pollError => True
  | .round revents accept _ => Knocked s revents → ∀ connfd, accept = .client connfd →
      match freeSlot s.clientfds with
      | none => ∀ i, i ≠ 0 → ¬ Reported s revents i
      | some i => s.maxi < i →
          (∃ j : Slot, j ≠ 0 ∧ (j : ℕ) ≤ s.maxi ∧ (polled s revents j).revents ≠ 0) →
          has (memory i).revents POLLIN = false

theorem ne_zero_of_has {events bit : Events} (h : has events bit) : events ≠ 0 := by
  rintro rfl
  simp [has] at h

theorem has_zero (bit : Events) : has 0 bit = false := by
  simp [has]

/-- After an accept the counter is used up exactly when only the listening slot was ready. -/
theorem nready_pred_nonpos {revents : Slot → Events} (h : Knocked s revents) :
    nready s revents - 1 ≤ 0 ↔
      ∀ j : Slot, j ≠ 0 → (j : ℕ) ≤ s.maxi → (polled s revents j).revents = 0 := by
  have hcount : nready s revents - 1 ≤ 0 ↔ (Finset.univ.filter fun i : Slot =>
      (i : ℕ) ≤ s.maxi ∧ (polled s revents i).revents ≠ 0).card ≤ 1 := by
    unfold nready
    omega
  have hzero : (0 : Slot) ∈ Finset.univ.filter fun i : Slot =>
      (i : ℕ) ≤ s.maxi ∧ (polled s revents i).revents ≠ 0 := by
    simpa using ne_zero_of_has h
  rw [hcount, Finset.card_le_one]
  constructor
  · intro hone j hj hle
    by_contra hrev
    exact hj (hone j (Finset.mem_filter.2 ⟨Finset.mem_univ j, hle, hrev⟩) 0 hzero)
  · intro hall
    have honly : ∀ j ∈ Finset.univ.filter fun i : Slot =>
        (i : ℕ) ≤ s.maxi ∧ (polled s revents i).revents ≠ 0, j = 0 := by
      intro j hj
      obtain ⟨-, hle, hrev⟩ := Finset.mem_filter.1 hj
      by_contra hne
      exact hrev (hall j hne hle)
    intro i hi j hj
    rw [honly i hi, honly j hj]

theorem readable_poll (revents : Slot → Events) {i : Slot} (hle : (i : ℕ) ≤ s.maxi) :
    Readable (s.poll revents) i ↔ Reported s revents i := by
  unfold Readable Reported State.poll
  dsimp only
  rw [polled_fd]
  constructor
  · exact fun hr => ⟨hle, hr.2⟩
  · intro hr
    refine ⟨?_, hr.2⟩
    by_contra hneg
    rw [polled_revents_of_free hle (not_le.1 hneg), has_zero] at hr
    exact Bool.false_ne_true hr.2

theorem not_wasRead_of_calls {i : Slot} (h : t.calls = []) : ¬ WasRead t i := by
  unfold WasRead
  rw [h]
  exact List.not_mem_nil

theorem Watching.readable_add (h : Watching listenfd memory s) {revents : Slot → Events}
    {i : Slot} {connfd : ℤ} (hfree : freeSlot s.clientfds = some i) (hpos : 0 ≤ connfd)
    {j : Slot} (hj : j ≠ 0) : Readable ((s.poll revents).add i connfd) j ↔
      Reported s revents j ∨ j = i ∧ s.maxi < i ∧ has (memory i).revents POLLIN := by
  by_cases hji : j = i
  · subst j
    have hneg := (freeSlot_eq_some hfree).2
    simp only [Readable, Reported, State.add, State.poll, Function.update_self, hpos, true_and]
    by_cases hle : (i : ℕ) ≤ s.maxi
    · rw [polled_revents_of_free hle hneg, has_zero]
      simp [hle]
    · have hlt := not_le.1 hle
      rw [polled_of_lt hlt, h.unused i hlt]
      simp [hle, hlt]
  · have hsame : Readable ((s.poll revents).add i connfd) j ↔ Readable (s.poll revents) j := by
      simp only [Readable, State.add, Function.update_of_ne hji]
    rw [hsame]
    by_cases hle : (j : ℕ) ≤ s.maxi
    · rw [readable_poll revents hle]
      simp [hji]
    · have hlt := not_le.1 hle
      simp [Readable, Reported, State.poll, hle, hji, h.unused j hlt]

/-- A round reads the slots that were reported and, when it serves clients after an accept,
the slot just filled if its memory looks readable. -/
theorem Watching.wasRead_accepted (h : Watching listenfd memory s) {revents : Slot → Events}
    {i : Slot} {connfd : ℤ} {reads : Slot → ReadResult}
    (hfree : freeSlot s.clientfds = some i) (hpos : 0 ≤ connfd) {j : Slot} (hj : j ≠ 0) :
    WasRead (handleConnection ((s.poll revents).add i connfd) reads
        ((s.poll revents).add i connfd).maxi) j ↔
      Reported s revents j ∨ j = i ∧ s.maxi < i ∧ has (memory i).revents POLLIN := by
  have hmaxi : ((s.poll revents).add i connfd).maxi = if s.maxi < i then (i : ℕ) else s.maxi := rfl
  have hnone : ¬ WasRead ((s.poll revents).add i connfd) j := not_wasRead_of_calls rfl
  rw [handleConnection_wasRead, or_iff_right hnone, h.readable_add hfree hpos hj, hmaxi]
  apply and_iff_right_of_imp
  rintro (hrep | ⟨rfl, -, -⟩)
  · have hle := hrep.1
    refine ⟨hj, ?_⟩
    split <;> omega
  · refine ⟨hj, ?_⟩
    split <;> omega

theorem wasRead_served (s : State) (revents : Slot → Events) (reads : Slot → ReadResult)
    {j : Slot} (hj : j ≠ 0) :
    WasRead (handleConnection (s.poll revents) reads s.maxi) j ↔ Reported s revents j := by
  have hnone : ¬ WasRead (s.poll revents) j := not_wasRead_of_calls rfl
  rw [handleConnection_wasRead, or_iff_right hnone]
  by_cases hle : (j : ℕ) ≤ s.maxi
  · rw [readable_poll revents hle]
    simp [hj, hle]
  · simp [Reported, hle]

section Accept

variable {revents : Slot → Events} {connfd : ℤ} {reads : Slot → ReadResult} {i : Slot}

/-- The two conditions on a round that accepts a client. -/
theorem readsReported_client
    (hst : step listenfd s (.round revents (.client connfd) reads) = some t) :
    ReadsReported listenfd s (.round revents (.client connfd) reads) ↔
      ∀ i, i ≠ 0 → (WasRead t i ↔ Reported s revents i) := by
  simp [ReadsReported, hst]

theorem cleanAccept_client (hknock : Knocked s revents)
    (hfree : freeSlot s.clientfds = some i) :
    CleanAccept memory s (.round revents (.client connfd) reads) ↔
      (s.maxi < i → (∃ j : Slot, j ≠ 0 ∧ (j : ℕ) ≤ s.maxi ∧ (polled s revents j).revents ≠ 0) →
        has (memory i).revents POLLIN = false) := by
  simp [CleanAccept, hfree, hknock]

theorem readsReported_iff_full (hknock : Knocked s revents)
    (hfree : freeSlot s.clientfds = none) (hcalls : t.calls = [])
    (hst : step listenfd s (.round revents (.client connfd) reads) = some t) :
    ReadsReported listenfd s (.round revents (.client connfd) reads) ↔
      CleanAccept memory s (.round revents (.client connfd) reads) := by
  rw [readsReported_client hst]
  simp only [CleanAccept, hfree]
  constructor
  · intro hright _ _ _ i hi hrep
    exact not_wasRead_of_calls hcalls ((hright i hi).2 hrep)
  · intro hclean i hi
    exact iff_of_false (not_wasRead_of_calls hcalls) (hclean hknock connfd rfl i hi)

/-- The shortcut after an accept. -/
theorem readsReported_iff_idle (hknock : Knocked s revents)
    (hfree : freeSlot s.clientfds = some i) (hn : nready s revents - 1 ≤ 0)
    (hend : t = (s.poll revents).add i connfd)
    (hst : step listenfd s (.round revents (.client connfd) reads) = some t) :
    ReadsReported listenfd s (.round revents (.client connfd) reads) ↔
      CleanAccept memory s (.round revents (.client connfd) reads) := by
  have hidle := (nready_pred_nonpos hknock).1 hn
  rw [readsReported_client hst, cleanAccept_client hknock hfree]
  apply iff_of_true
  · intro j hj
    apply iff_of_false
    · exact not_wasRead_of_calls (hend ▸ rfl)
    · exact fun hrep => ne_zero_of_has hrep.2 (hidle j hj hrep.1)
  · rintro - ⟨j, hj, hle, hrev⟩
    exact absurd (hidle j hj hle) hrev

/-- The clients are served after an accept. -/
theorem Watching.readsReported_iff_busy (h : Watching listenfd memory s)
    (hknock : Knocked s revents) (hfree : freeSlot s.clientfds = some i) (hpos : 0 ≤ connfd)
    (hn : 0 < nready s revents - 1)
    (hend : t = handleConnection ((s.poll revents).add i connfd) reads
      ((s.poll revents).add i connfd).maxi)
    (hst : step listenfd s (.round revents (.client connfd) reads) = some t) :
    ReadsReported listenfd s (.round revents (.client connfd) reads) ↔
      CleanAccept memory s (.round revents (.client connfd) reads) := by
  have hbusy : ∃ j : Slot, j ≠ 0 ∧ (j : ℕ) ≤ s.maxi ∧ (polled s revents j).revents ≠ 0 := by
    by_contra hnone
    push Not at hnone
    have := (nready_pred_nonpos hknock).2 hnone
    omega
  have hi := (freeSlot_eq_some hfree).1
  rw [readsReported_client hst, cleanAccept_client hknock hfree]
  constructor
  · intro hright hlt _
    by_contra hhas
    have hread : WasRead t i := by
      rw [hend, h.wasRead_accepted hfree hpos hi]
      exact Or.inr ⟨rfl, hlt, by simpa using hhas⟩
    have hrep := (hright i hi).1 hread
    exact absurd hrep.1 (not_le.2 hlt)
  · intro hclean j hj
    rw [hend, h.wasRead_accepted hfree hpos hj]
    apply or_iff_left
    rintro ⟨-, hlt, hhas⟩
    rw [hclean hlt hbusy] at hhas
    cases hhas

end Accept

theorem Watching.readsReported_iff {a : Act} (h : Watching listenfd memory s)
    (hst : step listenfd s a = some t) : ReadsReported listenfd s a ↔ CleanAccept memory s a := by
  cases (step_round hst).2 with
  | pollError _ => exact Iff.rfl
  | acceptFailed revents accept reads hknock hfail _ =>
      simp only [ReadsReported, CleanAccept]
      apply iff_of_true
      · intro hok
        obtain ⟨connfd, heq⟩ := hok hknock
        exact absurd heq (hfail connfd)
      · intro _ connfd heq
        cases hfail connfd heq
  | full revents connfd reads hknock hfree _ hcalls =>
      exact readsReported_iff_full hknock hfree hcalls hst
  | accepted revents connfd reads i hknock hfree hpos _ _ hend =>
      rcases hend with ⟨hn, hend⟩ | ⟨hn, hend⟩
      · exact readsReported_iff_idle hknock hfree hn hend hst
      · exact h.readsReported_iff_busy hknock hfree hpos hn hend hst
  | served revents accept reads hknock hend =>
      simp only [ReadsReported, CleanAccept, hst]
      apply iff_of_true
      · rintro - _ ⟨⟩ j hj
        rw [hend]
        exact wasRead_served s revents reads hj
      · intro hk
        cases hknock hk

theorem rounds_read_reported_iff {as : List Act} (h : (server listenfd memory).run as = some s) :
    (server listenfd memory).Meets (ReadsReported listenfd) (server listenfd memory).init as ↔
      (server listenfd memory).Meets (CleanAccept memory) (server listenfd memory).init as := by
  apply Machine.Reachable.meets_congr .init _ h
  intro s t a hr hst
  exact (watching hr (step_round hst).1).readsReported_iff hst

theorem cleanAccept_of_free {i : Slot} (hfree : freeSlot s.clientfds = some i)
    (hmem : has (memory i).revents POLLIN = false) (a : Act) : CleanAccept memory s a := by
  cases a with
  | pollError => trivial
  | round revents accept reads =>
      simp only [CleanAccept, hfree]
      exact fun _ _ _ _ _ => hmem

/-- A client is accepted while the client in slot 1 is readable. -/
def connectWhileReady (connfd : ℤ) : Act :=
  .round (fun i => if i = 0 ∨ i = 1 then POLLIN else 0) (.client connfd) (fun _ => .data [104])

theorem rounds_read_reported_iff_twoClients :
    ∃ s, (server 3 (dirty 0)).run [connect 5, connectWhileReady 6] = some s ∧ WasRead s 1 ∧
      ¬ WasRead s 2 ∧ (server 3 (dirty 0)).Meets (ReadsReported 3) (server 3 (dirty 0)).init
        [connect 5, connectWhileReady 6] := by
  have hrun : ((server 3 (dirty 0)).run [connect 5, connectWhileReady 6]).map
      (fun s => (decide (WasRead s 1), decide (WasRead s 2))) = some (true, false) := by
    decide +kernel
  have hfirst : freeSlot (server 3 (dirty 0)).init.clientfds = some 1 := by decide +kernel
  have hsecond : ((server 3 (dirty 0)).step (server 3 (dirty 0)).init (connect 5)).map
      (fun s => freeSlot s.clientfds) = some (some 2) := by decide +kernel
  obtain ⟨s, hs, -, hview⟩ := Machine.reachable_of_run_map hrun
  obtain ⟨hone, htwo⟩ := Prod.mk.inj hview
  refine ⟨s, hs, of_decide_eq_true hone, of_decide_eq_false htwo, ?_⟩
  apply (rounds_read_reported_iff hs).2
  refine ⟨cleanAccept_of_free hfirst (by decide) _, fun t ht => ?_⟩
  rw [ht] at hsecond
  exact ⟨cleanAccept_of_free (Option.some.inj hsecond) (by decide) _, fun _ _ => trivial⟩

/-- The client just accepted is read in the round that accepts it, its slot being above
`maxi` at the time of `poll`. -/
theorem fresh_client_read :
    ∃ s t, (server 3 (dirty POLLIN)).Reachable s ∧ s.maxi = 1 ∧
      (server 3 (dirty POLLIN)).step s (connectWhileReady 6) = some t ∧ WasRead t 2 ∧
      ¬ ReadsReported 3 s (connectWhileReady 6) := by
  have hrun : ((server 3 (dirty POLLIN)).run [connect 5]).map (fun s => (s.maxi,
      (step 3 s (connectWhileReady 6)).map fun t => decide (WasRead t 2))) =
        some (1, some true) := by decide +kernel
  obtain ⟨s, -, hreach, hview⟩ := Machine.reachable_of_run_map hrun
  obtain ⟨hmaxi, hstep⟩ := Prod.mk.inj hview
  obtain ⟨t, hst, hread⟩ := Option.map_eq_some_iff.1 hstep
  have htwo : WasRead t 2 := of_decide_eq_true hread
  refine ⟨s, t, hreach, hmaxi, hst, htwo, fun hright => ?_⟩
  have hrep := (hright (fun _ => ⟨6, rfl⟩) t hst 2 (by decide)).1 htwo
  have hle := hrep.1
  rw [hmaxi] at hle
  exact absurd hle (by decide)

end Londa.ViaPoll
