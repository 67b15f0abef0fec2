import Londa.ViaPoll

/-!
# The connection table of the poll server

Slots above `maxi` have never been used, so they still hold the memory the array was
made from. The slots from 1 on that hold a descriptor hold the live clients, each once.
A round reads the slots that its `poll` found readable, with two exceptions: a client put
in a slot above `maxi` is judged by what the memory holds there, and a round that finds
the table full serves nobody.
-/

namespace Londa.ViaPoll

variable {listenfd : ℤ} {memory : Slot → PollFd} {s t : State}

/-- What holds of the table whenever the server is at the head of its loop. -/
structure Watching (listenfd : ℤ) (memory : Slot → PollFd) (s : State) : Prop where
  listening : (s.clientfds 0).fd = listenfd
  maxi_lt : s.maxi < OPEN_MAX
  unused : ∀ i : Slot, s.maxi < i → s.clientfds i = { memory i with fd := -1 }
  slot : ∀ i, i ≠ 0 → (s.clientfds i).fd = -1 ∨
    (s.clientfds i).fd ∈ s.live ∧ (s.clientfds i).events = POLLIN
  live_slot : ∀ fd ∈ s.live, ∃ i, i ≠ 0 ∧ (s.clientfds i).fd = fd
  distinct : ∀ i j, i ≠ 0 → j ≠ 0 → 0 ≤ (s.clientfds i).fd →
    (s.clientfds i).fd = (s.clientfds j).fd → i = j
  live_client : ∀ fd ∈ s.live, 0 ≤ fd ∧ fd ≠ listenfd
  closed_client : ∀ fd ∈ s.closed, 0 ≤ fd ∧ fd ≠ listenfd ∧ fd ∉ s.live

theorem watching_start (listenfd : ℤ) (memory : Slot → PollFd) :
    Watching listenfd memory (start listenfd memory) where
  listening := rfl
  maxi_lt := Nat.pos_of_ne_zero (NeZero.ne OPEN_MAX)
  unused i hi := by
    have hne : i ≠ 0 := fun heq => by simp [heq, start] at hi
    simp [start, hne]
  slot i hi := Or.inl (by simp [start, hi])
  live_slot fd hfd := by cases hfd
  distinct i j hi _ hpos := by simp [start, hi] at hpos
  live_client fd hfd := by cases hfd
  closed_client fd hfd := by cases hfd

@[simp] theorem polled_fd (s : State) (revents : Slot → Events) (i : Slot) :
    (polled s revents i).fd = (s.clientfds i).fd := by
  unfold polled
  split <;> rfl

@[simp] theorem polled_events (s : State) (revents : Slot → Events) (i : Slot) :
    (polled s revents i).events = (s.clientfds i).events := by
  unfold polled
  split <;> rfl

theorem polled_of_lt {i : Slot} (h : s.maxi < i) (revents : Slot → Events) :
    polled s revents i = s.clientfds i := if_neg (by omega)

theorem polled_revents_of_free {i : Slot} (hi : (i : ℕ) ≤ s.maxi) (h : (s.clientfds i).fd < 0)
    (revents : Slot → Events) : (polled s revents i).revents = 0 := by
  simp [polled, hi, h]

/-- The invariant reads the descriptors, the event masks and the unused slots. -/
theorem Watching.congr (h : Watching listenfd memory s)
    (hfd : ∀ i, (t.clientfds i).fd = (s.clientfds i).fd)
    (hev : ∀ i, (t.clientfds i).events = (s.clientfds i).events)
    (hun : ∀ i : Slot, s.maxi < i → t.clientfds i = s.clientfds i)
    (hmaxi : t.maxi = s.maxi) (hlive : t.live = s.live) (hclosed : t.closed = s.closed) :
    Watching listenfd memory t where
  listening := (hfd 0).trans h.listening
  maxi_lt := hmaxi ▸ h.maxi_lt
  unused i hi := by
    rw [hmaxi] at hi
    exact (hun i hi).trans (h.unused i hi)
  slot i hi := by
    rw [hfd, hev, hlive]
    exact h.slot i hi
  live_slot fd hm := by
    rw [hlive] at hm
    obtain ⟨i, hi, heq⟩ := h.live_slot fd hm
    exact ⟨i, hi, (hfd i).trans heq⟩
  distinct i j hi hj := by
    rw [hfd, hfd]
    exact h.distinct i j hi hj
  live_client := hlive ▸ h.live_client
  closed_client := by
    rw [hlive, hclosed]
    exact h.closed_client

theorem Watching.poll (h : Watching listenfd memory s) (revents : Slot → Events) :
    Watching listenfd memory (s.poll revents) :=
  h.congr (polled_fd s revents) (polled_events s revents)
    (fun _ hi => polled_of_lt hi revents) rfl rfl rfl

theorem Watching.pos_of_live (h : Watching listenfd memory s) {i : Slot}
    (hi : (s.clientfds i).fd ∈ s.live) : 0 ≤ (s.clientfds i).fd := (h.live_client _ hi).1

theorem Watching.live_of_pos (h : Watching listenfd memory s) {i : Slot} (hi : i ≠ 0)
    (hpos : 0 ≤ (s.clientfds i).fd) :
    (s.clientfds i).fd ∈ s.live ∧ (s.clientfds i).events = POLLIN := by
  rcases h.slot i hi with hfree | hlive
  · omega
  · exact hlive

theorem Watching.le_maxi (h : Watching listenfd memory s) {i : Slot}
    (hpos : 0 ≤ (s.clientfds i).fd) : (i : ℕ) ≤ s.maxi := by
  by_contra hlt
  rw [h.unused i (by omega)] at hpos
  simp at hpos

/-- A slot may be given a descriptor that no other slot holds. -/
theorem distinct_update {clientfds : Slot → PollFd}
    (h : ∀ j k : Slot, j ≠ 0 → k ≠ 0 → 0 ≤ (clientfds j).fd →
      (clientfds j).fd = (clientfds k).fd → j = k) {i : Slot} {p : PollFd}
    (hnew : ∀ j, j ≠ 0 → j ≠ i → 0 ≤ (clientfds j).fd → (clientfds j).fd ≠ p.fd) (j k : Slot)
    (hj : j ≠ 0) (hk : k ≠ 0) (hpos : 0 ≤ (Function.update clientfds i p j).fd)
    (heq : (Function.update clientfds i p j).fd = (Function.update clientfds i p k).fd) :
    j = k := by
  by_cases hji : j = i <;> by_cases hki : k = i
  · rw [hji, hki]
  · subst j
    simp only [Function.update_self, Function.update_of_ne hki] at hpos heq
    exact absurd heq.symm (hnew k hk hki (heq ▸ hpos))
  · subst k
    simp only [Function.update_self, Function.update_of_ne hji] at hpos heq
    exact absurd heq (hnew j hj hji hpos)
  · simp only [Function.update_of_ne hji, Function.update_of_ne hki] at hpos heq
    exact h j k hj hk hpos heq

theorem Watching.add (h : Watching listenfd memory s) {i : Slot} {connfd : ℤ}
    (hpos : 0 ≤ connfd) (hnew : connfd ∉ s.live) (hne : connfd ≠ listenfd) (hi : i ≠ 0)
    (hfree : (s.clientfds i).fd < 0) : Watching listenfd memory (s.add i connfd) where
  listening := by
    simp only [State.add, Function.update_of_ne hi.symm]
    exact h.listening
  maxi_lt := by
    have := h.maxi_lt
    have := i.isLt
    simp only [State.add]
    split <;> omega
  unused j hj := by
    simp only [State.add] at hj ⊢
    have hji : j ≠ i := by
      rintro rfl
      split at hj <;> omega
    rw [Function.update_of_ne hji]
    apply h.unused
    split at hj <;> omega
  slot j hj := by
    by_cases hji : j = i
    · subst j
      simp [State.add]
    · simp only [State.add, Function.update_of_ne hji, Finset.mem_insert]
      exact (h.slot j hj).imp_right fun hl => ⟨Or.inr hl.1, hl.2⟩
  live_slot fd hfd := by
    rcases Finset.mem_insert.1 hfd with rfl | hlive
    · exact ⟨i, hi, by simp [State.add]⟩
    · obtain ⟨j, hj, heq⟩ := h.live_slot fd hlive
      have hji : j ≠ i := by
        rintro rfl
        have := (h.live_client fd hlive).1
        omega
      exact ⟨j, hj, by simpa [State.add, Function.update_of_ne hji] using heq⟩
  distinct := distinct_update h.distinct fun j hj _ hp heq => by
    dsimp only at heq
    exact hnew (heq ▸ (h.live_of_pos hj hp).1)
  live_client fd hfd := by
    rcases Finset.mem_insert.1 hfd with rfl | hfd
    · exact ⟨hpos, hne⟩
    · exact h.live_client fd hfd
  closed_client fd hfd := by
    obtain ⟨hother, hclosed⟩ := Finset.mem_erase.1 hfd
    obtain ⟨hp, hl, hn⟩ := h.closed_client fd hclosed
    refine ⟨hp, hl, fun hm => ?_⟩
    rcases Finset.mem_insert.1 hm with heq | hm
    · exact hother heq
    · exact hn hm

theorem Watching.drop (h : Watching listenfd memory s) {i : Slot} (hi : i ≠ 0)
    (hpos : 0 ≤ (s.clientfds i).fd) : Watching listenfd memory (s.drop i) where
  listening := by
    simp only [State.drop, Function.update_of_ne hi.symm]
    exact h.listening
  maxi_lt := h.maxi_lt
  unused j hj := by
    have hle := h.le_maxi hpos
    have hji : j ≠ i := by
      rintro rfl
      exact absurd hle (not_le.2 hj)
    simp only [State.drop, Function.update_of_ne hji]
    exact h.unused j hj
  slot j hj := by
    by_cases hji : j = i
    · subst j
      exact Or.inl (by simp [State.drop])
    · simp only [State.drop, Function.update_of_ne hji, Finset.mem_erase]
      refine (h.slot j hj).imp_right fun hl => ⟨⟨fun heq => hji ?_, hl.1⟩, hl.2⟩
      exact h.distinct j i hj hi (h.pos_of_live hl.1) heq
  live_slot fd hfd := by
    obtain ⟨hother, hlive⟩ := Finset.mem_erase.1 hfd
    obtain ⟨j, hj, heq⟩ := h.live_slot fd hlive
    have hji : j ≠ i := by
      rintro rfl
      exact hother heq.symm
    exact ⟨j, hj, by simpa [State.drop, Function.update_of_ne hji] using heq⟩
  distinct := distinct_update h.distinct fun j _ _ hp heq => by
    dsimp only at heq
    omega
  live_client fd hfd := h.live_client fd (Finset.mem_of_mem_erase hfd)
  closed_client fd hfd := by
    rcases Finset.mem_insert.1 hfd with rfl | hclosed
    · obtain ⟨hp, hl⟩ := h.live_client _ (h.live_of_pos hi hpos).1
      exact ⟨hp, hl, fun hm => (Finset.mem_erase.1 hm).1 rfl⟩
    · obtain ⟨hp, hl, hn⟩ := h.closed_client fd hclosed
      exact ⟨hp, hl, fun hm => hn (Finset.mem_of_mem_erase hm)⟩

/-- The test that `handle_connection` makes before it reads. -/
def Readable (s : State) (i : Slot) : Prop :=
  0 ≤ (s.clientfds i).fd ∧ has (s.clientfds i).revents POLLIN

def Call.readSlot : Call → Option Slot
  | .read i _ => some i
  | _ => none

/-- The last round called `read` on the slot. -/
def WasRead (s : State) (i : Slot) : Prop := i ∈ s.calls.filterMap Call.readSlot

instance (s : State) (i : Slot) : Decidable (WasRead s i) :=
  inferInstanceAs (Decidable (i ∈ s.calls.filterMap Call.readSlot))

/-- What one iteration of the loop of `handle_connection` does. -/
theorem serveSlot_cases (reads : Slot → ReadResult) (sb : State × Buffer) (i : Slot) :
    ((serveSlot reads sb i).1 = sb.1 ∧ ¬ Readable sb.1 i) ∨
      Readable sb.1 i ∧ ((serveSlot reads sb i).1 = sb.1.drop i ∨
        ∃ buf n, (serveSlot reads sb i).1 = sb.1.echo i buf n) := by
  unfold serveSlot Readable
  split
  · exact Or.inl ⟨rfl, fun h => by omega⟩
  · rename_i hneg
    split
    · rename_i hin
      refine Or.inr ⟨⟨not_lt.1 hneg, hin⟩, ?_⟩
      dsimp only
      split
      · exact Or.inl rfl
      · exact Or.inr ⟨_, _, rfl⟩
    · rename_i hin
      exact Or.inl ⟨rfl, fun h => hin h.2⟩

theorem serveSlot_other (reads : Slot → ReadResult) (sb : State × Buffer) {i j : Slot}
    (h : j ≠ i) : (serveSlot reads sb i).1.clientfds j = sb.1.clientfds j := by
  rcases serveSlot_cases reads sb i with ⟨heq, -⟩ | ⟨-, heq | ⟨buf, n, heq⟩⟩
  · rw [heq]
  · rw [heq]
    simp [State.drop, Function.update_of_ne h]
  · rw [heq]
    rfl

theorem serveSlot_wasRead (reads : Slot → ReadResult) (sb : State × Buffer) (i j : Slot) :
    WasRead (serveSlot reads sb i).1 j ↔ WasRead sb.1 j ∨ j = i ∧ Readable sb.1 i := by
  unfold WasRead
  rcases serveSlot_cases reads sb i with ⟨heq, hnot⟩ | ⟨hread, heq | ⟨buf, n, heq⟩⟩
  · simp [heq, hnot]
  · simp [heq, hread, State.drop, Call.readSlot, or_comm]
  · simp [heq, hread, State.echo, Call.readSlot, or_comm]

theorem Watching.serve (reads : Slot → ReadResult) {sb : State × Buffer}
    (h : Watching listenfd memory sb.1) {i : Slot} (hi : i ≠ 0) :
    Watching listenfd memory (serveSlot reads sb i).1 := by
  rcases serveSlot_cases reads sb i with ⟨heq, -⟩ | ⟨hread, heq | ⟨buf, n, heq⟩⟩
  · exact heq ▸ h
  · exact heq ▸ h.drop hi hread.1
  · rw [heq]
    exact h.congr (fun _ => rfl) (fun _ => rfl) (fun _ _ => rfl) rfl rfl rfl

@[simp] theorem mem_clientSlots {num : ℕ} {i : Slot} :
    i ∈ clientSlots num ↔ i ≠ 0 ∧ (i : ℕ) ≤ num := by
  simp [clientSlots]

theorem nodup_clientSlots (num : ℕ) : (clientSlots num).Nodup :=
  (List.nodup_finRange OPEN_MAX).filter _

theorem Watching.handle (h : Watching listenfd memory s) (reads : Slot → ReadResult)
    (num : ℕ) : Watching listenfd memory (handleConnection s reads num) := by
  have hloop : ∀ (is : List Slot) (sb : State × Buffer), (∀ i ∈ is, i ≠ 0) →
      Watching listenfd memory sb.1 →
        Watching listenfd memory (is.foldl (serveSlot reads) sb).1 := by
    intro is
    induction is with
    | nil => exact fun _ _ hw => hw
    | cons i is ih =>
        intro sb hne hw
        exact ih _ (fun j hj => hne j (List.mem_cons_of_mem i hj))
          (hw.serve reads (hne i List.mem_cons_self))
  exact hloop _ _ (fun i hi => (mem_clientSlots.1 hi).1) h

theorem handleConnection_wasRead (s : State) (reads : Slot → ReadResult) (num : ℕ) (j : Slot) :
    WasRead (handleConnection s reads num) j ↔
      WasRead s j ∨ (j ≠ 0 ∧ (j : ℕ) ≤ num) ∧ Readable s j := by
  have hloop : ∀ (is : List Slot) (sb : State × Buffer), is.Nodup →
      (WasRead (is.foldl (serveSlot reads) sb).1 j ↔
        WasRead sb.1 j ∨ j ∈ is ∧ Readable sb.1 j) := by
    intro is
    induction is with
    | nil => simp
    | cons i is ih =>
        intro sb hnd
        obtain ⟨hnot, hnd⟩ := List.nodup_cons.1 hnd
        rw [List.foldl_cons, ih _ hnd, serveSlot_wasRead, or_assoc, List.mem_cons, or_and_right]
        by_cases hji : j = i
        · subst j
          simp [hnot]
        · have hsame : Readable (serveSlot reads sb i).1 j ↔ Readable sb.1 j := by
            unfold Readable
            rw [serveSlot_other reads sb hji]
          simp [hji, hsame]
  rw [← mem_clientSlots]
  exact hloop _ _ (nodup_clientSlots num)

theorem freeSlot_eq_some {clientfds : Slot → PollFd} {i : Slot}
    (h : freeSlot clientfds = some i) : i ≠ 0 ∧ (clientfds i).fd < 0 := by
  simpa using List.find?_some h

theorem freeSlot_poll (s : State) (revents : Slot → Events) :
    freeSlot (s.poll revents).clientfds = freeSlot s.clientfds := by
  simp [freeSlot, State.poll]

/-- The listening slot is readable after the round's `poll`. -/
def Knocked (s : State) (revents : Slot → Events) : Prop :=
  has (polled s revents 0).revents POLLIN

/-- What one round of the loop of `do_poll` does. -/
inductive Round (listenfd : ℤ) (s t : State) : Act → Prop
  | pollError : t.running = false → Round listenfd s t .pollError
  | acceptFailed (revents : Slot → Events) (accept : AcceptResult) (reads : Slot → ReadResult) :
      Knocked s revents → (∀ connfd, accept ≠ .client connfd) →
      (t = s.poll revents ∨ t.running = false) →
      Round listenfd s t (.round revents accept reads)
  | full (revents : Slot → Events) (connfd : ℤ) (reads : Slot → ReadResult) :
      Knocked s revents → freeSlot s.clientfds = none → t.running = false → t.calls = [] →
      Round listenfd s t (.round revents (.client connfd) reads)
  | accepted (revents : Slot → Events) (connfd : ℤ) (reads : Slot → ReadResult) (i : Slot) :
      Knocked s revents → freeSlot s.clientfds = some i →
      0 ≤ connfd → connfd ∉ s.live → connfd ≠ listenfd →
      (nready s revents - 1 ≤ 0 ∧ t = (s.poll revents).add i connfd ∨
        0 < nready s revents - 1 ∧ t = handleConnection ((s.poll revents).add i connfd) reads
          ((s.poll revents).add i connfd).maxi) →
      Round listenfd s t (.round revents (.client connfd) reads)
  | served (revents : Slot → Events) (accept : AcceptResult) (reads : Slot → ReadResult) :
      ¬ Knocked s revents → t = handleConnection (s.poll revents) reads s.maxi →
      Round listenfd s t (.round revents accept reads)

theorem step_round {a : Act} (h : step listenfd s a = some t) :
    s.running ∧ Round listenfd s t a := by
  unfold step at h
  split at h
  · rename_i hrun
    refine ⟨hrun, ?_⟩
    cases a with
    | pollError =>
        cases h
        exact .pollError rfl
    | round revents accept reads =>
        dsimp only at h
        split at h
        · rename_i hknock
          cases accept with
          | eintr =>
              cases h
              exact .acceptFailed _ _ _ hknock (fun _ => nofun) (Or.inl rfl)
          | error =>
              cases h
              exact .acceptFailed _ _ _ hknock (fun _ => nofun) (Or.inr rfl)
          | client connfd =>
              dsimp only at h
              split at h
              · rename_i hnew
                rw [freeSlot_poll] at h
                cases hfree : freeSlot s.clientfds with
                | none =>
                    rw [hfree] at h
                    cases h
                    exact .full _ _ _ hknock hfree rfl rfl
                | some i =>
                    rw [hfree] at h
                    refine .accepted _ _ _ i hknock hfree hnew.1 hnew.2.1 hnew.2.2 ?_
                    dsimp only at h
                    split at h
                    · rename_i hn
                      exact Or.inl ⟨hn, (Option.some.inj h).symm⟩
                    · rename_i hn
                      exact Or.inr ⟨not_le.1 hn, (Option.some.inj h).symm⟩
              · cases h
        · rename_i hknock
          exact .served _ _ _ hknock (Option.some.inj h).symm
  · cases h

theorem Watching.round {a : Act} (h : Watching listenfd memory s) (hr : Round listenfd s t a)
    (hrun : t.running) : Watching listenfd memory t := by
  cases hr with
  | pollError hstop =>
      rw [hstop] at hrun
      cases hrun
  | acceptFailed revents accept reads _ _ hend =>
      rcases hend with rfl | hstop
      · exact h.poll revents
      · rw [hstop] at hrun
        cases hrun
  | full _ _ _ _ _ hstop =>
      rw [hstop] at hrun
      cases hrun
  | accepted revents connfd reads i _ hfree hpos hnew hne hend =>
      obtain ⟨hi, hneg⟩ := freeSlot_eq_some hfree
      have hadd := (h.poll revents).add hpos hnew hne hi
        (by simpa only [State.poll, polled_fd] using hneg)
      rcases hend with ⟨-, hend⟩ | ⟨-, hend⟩
      · exact hend ▸ hadd
      · exact hend ▸ hadd.handle reads _
  | served revents accept reads _ hend =>
      exact hend ▸ (h.poll revents).handle reads _

theorem watching (h : (server listenfd memory).Reachable s) (hrun : s.running) :
    Watching listenfd memory s := by
  have hinv : s.running → Watching listenfd memory s := by
    apply h.invariant (I := fun s => s.running → Watching listenfd memory s)
      (fun _ => watching_start listenfd memory)
    intro s t a _ hi hst
    obtain ⟨hs, hround⟩ := step_round hst
    exact (hi hs).round hround
  exact hinv hrun

/-- The clients that `poll(clientfds, maxi + 1, INFTIM)` watches. -/
def watchedClients (s : State) : Finset ℤ :=
  ((clientSlots s.maxi).map fun i => (s.clientfds i).fd).toFinset.filter (0 ≤ ·)

structure TableOk (listenfd : ℤ) (s : State) : Prop where
  listening : (s.clientfds 0).fd = listenfd
  maxi_lt : s.maxi < OPEN_MAX
  above : ∀ i : Slot, s.maxi < i → (s.clientfds i).fd = -1
  live_once : ∀ fd ∈ s.live, ∃ i : Slot, 1 ≤ (i : ℕ) ∧ (i : ℕ) ≤ s.maxi ∧
    (s.clientfds i).fd = fd ∧ (s.clientfds i).events = POLLIN ∧
    ∀ j, (s.clientfds j).fd = fd → j = i
  no_closed : ∀ fd ∈ s.closed, ∀ i, (s.clientfds i).fd ≠ fd
  watches : watchedClients s = s.live

theorem Watching.live_once (h : Watching listenfd memory s) {fd : ℤ} (hfd : fd ∈ s.live) :
    ∃ i : Slot, 1 ≤ (i : ℕ) ∧ (i : ℕ) ≤ s.maxi ∧ (s.clientfds i).fd = fd ∧
      (s.clientfds i).events = POLLIN ∧ ∀ j, (s.clientfds j).fd = fd → j = i := by
  obtain ⟨hpos, hlisten⟩ := h.live_client fd hfd
  obtain ⟨i, hi, rfl⟩ := h.live_slot fd hfd
  refine ⟨i, ?_, h.le_maxi hpos, rfl, (h.live_of_pos hi hpos).2, fun j heq => ?_⟩
  · exact Fin.pos_iff_ne_zero.2 hi
  · have hj : j ≠ 0 := by
      rintro rfl
      exact hlisten (heq.symm.trans h.listening)
    exact (h.distinct i j hi hj hpos heq.symm).symm

theorem Watching.watches (h : Watching listenfd memory s) : watchedClients s = s.live := by
  ext fd
  simp only [watchedClients, Finset.mem_filter, List.mem_toFinset, List.mem_map, mem_clientSlots]
  constructor
  · rintro ⟨⟨i, ⟨hi, -⟩, rfl⟩, hpos⟩
    exact (h.live_of_pos hi hpos).1
  · intro hfd
    have hpos := (h.live_client fd hfd).1
    obtain ⟨i, hi, rfl⟩ := h.live_slot fd hfd
    exact ⟨⟨i, ⟨hi, h.le_maxi hpos⟩, rfl⟩, hpos⟩

theorem Watching.no_closed (h : Watching listenfd memory s) {fd : ℤ} (hfd : fd ∈ s.closed)
    (i : Slot) : (s.clientfds i).fd ≠ fd := by
  rintro rfl
  obtain ⟨hpos, hlisten, hnot⟩ := h.closed_client _ hfd
  by_cases hi : i = 0
  · subst i
    exact hlisten h.listening
  · exact hnot (h.live_of_pos hi hpos).1

theorem connection_table (h : (server listenfd memory).Reachable s) (hrun : s.running) :
    TableOk listenfd s where
  listening := (watching h hrun).listening
  maxi_lt := (watching h hrun).maxi_lt
  above i hi := by rw [(watching h hrun).unused i hi]
  live_once _ hfd := (watching h hrun).live_once hfd
  no_closed _ hfd := (watching h hrun).no_closed hfd
  watches := (watching h hrun).watches

/-- The array before its initialisation, all of its words being `revents`. -/
def dirty (revents : Events) : Slot → PollFd := fun _ => ⟨0, 0, revents⟩

/-- Only the listening slot is ready, and a client is accepted. -/
def connect (connfd : ℤ) : Act :=
  .round (fun i => if i = 0 then POLLIN else 0) (.client connfd) (fun _ => .error)

/-- The client in slot `i` is readable; no bytes stand for the end of its stream. -/
def say (i : Slot) (bytes : List UInt8) : Act :=
  .round (fun j => if j = i then POLLIN else 0) .error (fun _ => .data bytes)

theorem connection_table_afterLeave :
    ∃ s, (server 3 (dirty 0)).run [connect 5, connect 6, say 1 []] = some s ∧
      s.live = {6} ∧ s.closed = {5} ∧ TableOk 3 s := by
  have hrun : ((server 3 (dirty 0)).run [connect 5, connect 6, say 1 []]).map
      (fun s => (s.running, s.live, s.closed)) = some (true, {6}, {5}) := by decide +kernel
  obtain ⟨s, hs, hreach, hview⟩ := Machine.reachable_of_run_map hrun
  obtain ⟨hon, hsets⟩ := Prod.mk.inj hview
  obtain ⟨hlive, hclosed⟩ := Prod.mk.inj hsets
  exact ⟨s, hs, hlive, hclosed, connection_table hreach hon⟩

end Londa.ViaPoll
