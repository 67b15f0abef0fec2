import Londa.OneWriterAccess
import Mathlib.Data.Fintype.Card

/-!
# What the readers have copied

`aready_read` is one counter for all readers, and a reader copies the head each time its
wait ends. If every wait ends on a line that the reader has not copied yet, the counter is
the number of readers that have copied the head, so the cleaner removes a line that all of
them have, and each reader's copies are the lines of the file in order.
-/

namespace Londa.OneWriter

variable {n : ℕ} {α : Type*} {reader_count : ℤ} {lines : List α} {s t : State n α} {a : Act n}

/-- Readers are woken only when the head of the list is new to them. -/
def NewsOnly (s : State n α) (a : Act n) : Prop :=
  ∀ i, Wakes s a i → s.data_list ≠ [] ∧ s.copied i = false

/-- The line that the writer has read from the file and not pushed. -/
def WriterPc.held : WriterPc α → List α
  | .locking data => [data]
  | .sizing data => [data]
  | .releasing data _ => [data]
  | .alarming data _ _ => [data]
  | .pushing data _ _ => [data]
  | _ => []

/-- The line that the reader has copied and not written. -/
def ReaderPc.held : ReaderPc α → List α
  | .counting data => [data]
  | .unlocking data => [data]
  | .writing data => [data]
  | _ => []

/-- The reader has copied a line and not counted it. -/
def ReaderPc.uncounted : ReaderPc α → Bool
  | .counting _ => true
  | _ => false

/-- The reader's wait has ended and it has not copied a line yet. -/
def ReaderPc.expecting : ReaderPc α → Bool
  | .woken => true
  | .copying => true
  | _ => false

/-- The readers whose copy of the head is counted. -/
def counted (s : State n α) : Finset (Fin n) :=
  Finset.univ.filter fun i => s.copied i ∧ (s.reader i).uncounted = false

@[simp] theorem mem_counted {i : Fin n} :
    i ∈ counted s ↔ s.copied i ∧ (s.reader i).uncounted = false := by
  simp [counted]

/-- What reader `i` has copied, in order. -/
def copies (s : State n α) (i : Fin n) : List α := s.out_file i ++ (s.reader i).held

structure Delivered (lines : List α) (s : State n α) : Prop where
  moved : s.popped ++ s.data_list ++ (s.writer.held ++ s.in_file) = lines
  news : ∀ i, (s.reader i).expecting → s.data_list ≠ [] ∧ s.copied i = false
  present : ∀ i, s.copied i → s.data_list ≠ []
  uncounted : ∀ i, (s.reader i).uncounted → s.copied i
  taken : ∀ i, copies s i = s.popped ++ bif s.copied i then s.data_list.take 1 else []
  tally : s.cleaner ≠ .popping → s.aready_read = int32 (counted s).card
  all : s.cleaner = .storing ∨ s.cleaner = .popping → ∀ i, s.copied i

theorem int32_zero : int32 0 = 0 := int32_eq (by omega) (by omega)

theorem delivered_start (lines : List α) : Delivered lines (start n lines) where
  moved := rfl
  news _ h := by cases h
  present _ h := by cases h
  uncounted _ h := by cases h
  taken _ := rfl
  tally _ := by simp [start, counted, int32_zero]
  all h := by rcases h with h | h <;> cases h

theorem afterSize_held (data : α) (size : ℤ) : (afterSize data size).held = [data] := by
  unfold afterSize
  split
  · rfl
  · split <;> rfl

theorem Delivered.step_moved (h : Delivered lines s) (ht : Trans reader_count s a t) :
    t.popped ++ t.data_list ++ (t.writer.held ++ t.in_file) = lines := by
  have hm := h.moved
  cases ht with
  | getline data rest hpc hfile =>
      rw [hpc, hfile] at hm
      exact hm
  | size data hpc =>
      rw [hpc] at hm
      dsimp only
      rw [afterSize_held]
      exact hm
  | eof hpc | lock _ hpc | release _ _ hpc | alarm _ _ _ hpc | notify _ hpc | unlock hpc
  | unlocked hpc | writeEnd hpc =>
      rw [hpc] at hm
      exact hm
  | push data size owns hpc =>
      rw [hpc] at hm
      rw [← hm]
      simp [WriterPc.held]
  | pop data rest hpc hlist =>
      rw [← hm, hlist]
      simp
  | _ => exact hm

theorem Delivered.step_news (h : Delivered lines s) (hc : NewsOnly s a)
    (ht : Trans reader_count s a t) :
    ∀ i, (t.reader i).expecting → t.data_list ≠ [] ∧ t.copied i = false := by
  have hn := h.news
  cases ht with
  | push => exact fun i hi => ⟨by simp, (hn i hi).2⟩
  | alarm _ _ _ hpc | notify _ hpc =>
      apply has_data.notifyAll_imp ReaderPc.expecting hn
      intro j hb
      exact hc j ⟨hb, Or.inl (by simp [State.notifies, hpc])⟩
  | alert hpc =>
      apply has_data.notifyAll_imp ReaderPc.expecting hn
      intro j hb
      exact hc j ⟨hb, Or.inl (by simp [State.notifies, hpc])⟩
  | leave | enter | lockShared | wait | count | unlockShared | write | report | again =>
      exact update_imp ReaderPc.expecting hn (fun h => by cases h)
  | relock i hpc =>
      exact update_imp ReaderPc.expecting hn (fun _ => hn i (by rw [hpc]; rfl))
  | wakeReader i hpc =>
      exact update_imp ReaderPc.expecting hn
        (fun _ => hc i ⟨blocked_iff.2 hpc, Or.inr rfl⟩)
  | copy i data rest hpc hlist =>
      intro j hj
      by_cases hji : j = i
      · subst j
        simp [State.setReader, ReaderPc.expecting] at hj
      · simp only [State.setReader, Function.update_of_ne hji] at hj ⊢
        exact hn j hj
  | pop data rest hpc hlist =>
      intro i hi
      have hall := h.all (Or.inr hpc) i
      rw [(hn i hi).2] at hall
      cases hall
  | _ => exact hn

theorem Delivered.step_present (h : Delivered lines s) (ht : Trans reader_count s a t) :
    ∀ i, t.copied i → t.data_list ≠ [] := by
  have hp := h.present
  cases ht with
  | push => exact fun _ _ => by simp
  | copy i data rest hpc hlist =>
      intro _ _
      dsimp only [State.setReader]
      rw [hlist]
      exact List.cons_ne_nil data rest
  | pop => exact fun _ hi => by cases hi
  | _ => exact hp

theorem Delivered.step_uncounted (h : Delivered lines s) (hg : Guarded s)
    (ht : Trans reader_count s a t) : ∀ i, (t.reader i).uncounted → t.copied i := by
  have hu := h.uncounted
  cases ht with
  | alarm | notify | alert =>
      intro i hi
      rw [notifyAll_frame ReaderPc.uncounted rfl] at hi
      exact hu i hi
  | leave | enter | lockShared | wait | relock | count | unlockShared | write | report | again
  | wakeReader => exact update_imp ReaderPc.uncounted hu (fun h => by cases h)
  | copy i data rest hpc hlist =>
      intro j hj
      by_cases hji : j = i
      · subst j
        simp
      · simp only [State.setReader, Function.update_of_ne hji] at hj ⊢
        exact hu j hj
  | pop data rest hpc hlist =>
      intro i hi
      have hout := hg.reader_outside (by rw [hpc]; rfl) i
      cases hri : s.reader i <;> simp [hri, ReaderPc.uncounted, ReaderPc.holds] at hi hout
  | _ => exact hu

theorem Delivered.taken_congr (h : Delivered lines s)
    (hheld : ∀ i, (t.reader i).held = (s.reader i).held) (hout : t.out_file = s.out_file)
    (hpop : t.popped = s.popped) (hlist : t.data_list = s.data_list)
    (hcopied : t.copied = s.copied) (i : Fin n) :
    copies t i = t.popped ++ bif t.copied i then t.data_list.take 1 else [] := by
  unfold copies
  rw [hheld, hout, hpop, hlist, hcopied]
  exact h.taken i

theorem Delivered.step_taken (h : Delivered lines s) (ht : Trans reader_count s a t) :
    ∀ i, copies t i = t.popped ++ bif t.copied i then t.data_list.take 1 else [] := by
  have hk := h.taken
  cases ht with
  | push data size owns hpc =>
      intro i
      apply (hk i).trans
      cases hi : s.copied i with
      | true =>
          have hlen := List.length_pos_iff.2 (h.present i hi)
          simp [List.take_append_of_le_length hlen]
      | false => simp
  | alarm | notify | alert =>
      exact h.taken_congr (notifyAll_frame ReaderPc.held rfl s.reader) rfl rfl rfl rfl
  | leave _ hpc | enter _ hpc | lockShared _ hpc | wait _ hpc | relock _ hpc | count _ _ hpc
  | unlockShared _ _ hpc | report _ hpc | again _ hpc | wakeReader _ hpc =>
      exact h.taken_congr (update_frame ReaderPc.held (by rw [hpc]; rfl)) rfl rfl rfl rfl
  | copy i data rest hpc hlist =>
      intro j
      by_cases hji : j = i
      · subst j
        have hnew := (h.news i (by rw [hpc]; rfl)).2
        have hold := hk i
        rw [hnew] at hold
        simp only [copies, hpc, ReaderPc.held, List.append_nil, cond_false] at hold
        simp [copies, State.setReader, ReaderPc.held, hold, hlist]
      · have hold := hk j
        simpa [copies, State.setReader, Function.update_of_ne hji] using hold
  | write i data hpc =>
      intro j
      by_cases hji : j = i
      · subst j
        have hold := hk i
        simpa [copies, State.setReader, hpc, ReaderPc.held] using hold
      · have hold := hk j
        simpa [copies, State.setReader, Function.update_of_ne hji] using hold
  | pop data rest hpc hlist =>
      intro i
      have hold := hk i
      rw [h.all (Or.inr hpc) i, hlist] at hold
      simpa [copies] using hold
  | _ => exact h.taken_congr (fun _ => rfl) rfl rfl rfl rfl

/-- A reader whose copy was not counted is counted. -/
theorem card_counted_count {i : Fin n} {data : α} (hpc : s.reader i = .counting data)
    (hi : s.copied i) (hcopied : t.copied = s.copied)
    (hreader : t.reader = Function.update s.reader i (.unlocking data)) :
    (counted t).card = (counted s).card + 1 := by
  have hinsert : counted t = insert i (counted s) := by
    ext j
    by_cases hji : j = i
    · subst j
      simp [hcopied, hreader, hi, ReaderPc.uncounted]
    · simp [hcopied, hreader, hji]
  have hnot : i ∉ counted s := by simp [hpc, ReaderPc.uncounted]
  rw [hinsert, Finset.card_insert_of_notMem hnot]

theorem counted_copy {i : Fin n} {data : α} (hi : s.copied i = false)
    (hcopied : t.copied = Function.update s.copied i true)
    (hreader : t.reader = Function.update s.reader i (.counting data)) :
    counted t = counted s := by
  ext j
  by_cases hji : j = i
  · subst j
    simp [hreader, hi, ReaderPc.uncounted]
  · simp [hcopied, hreader, hji]

theorem Delivered.tally_congr (h : Delivered lines s)
    (hpc : ∀ i, (t.reader i).uncounted = (s.reader i).uncounted) (hcopied : t.copied = s.copied)
    (hread : t.aready_read = s.aready_read) (hclear : s.cleaner ≠ .popping) :
    t.aready_read = int32 (counted t).card := by
  have hsame : counted t = counted s := by
    unfold counted
    simp only [hcopied, hpc]
  rw [hsame, hread]
  exact h.tally hclear

theorem Delivered.step_tally (h : Delivered lines s)
    (hz : s.cleaner = .popping → s.aready_read = 0) (ht : Trans reader_count s a t) :
    t.cleaner ≠ .popping → t.aready_read = int32 (counted t).card := by
  cases ht with
  | alarm | notify => exact h.tally_congr (notifyAll_frame ReaderPc.uncounted rfl s.reader) rfl rfl
  | alert hpc =>
      exact fun _ =>
        h.tally_congr (notifyAll_frame ReaderPc.uncounted rfl s.reader) rfl rfl (by simp [hpc])
  | leave _ hpc | enter _ hpc | lockShared _ hpc | wait _ hpc | relock _ hpc
  | unlockShared _ _ hpc | write _ _ hpc | again _ hpc | wakeReader _ hpc =>
      exact h.tally_congr (update_frame ReaderPc.uncounted (by rw [hpc]; rfl)) rfl rfl
  | report _ hpc =>
      intro hclear
      have hpop : s.cleaner ≠ .popping := fun hpop => hclear (by simp [hpop, notifyCleaner])
      exact h.tally_congr (update_frame ReaderPc.uncounted (by rw [hpc]; rfl)) rfl rfl hpop
  | copy i data rest hpc hlist =>
      intro hclear
      have hnew := (h.news i (by rw [hpc]; rfl)).2
      have hsame := counted_copy (t := { s.setReader i (.counting data) with
        copied := Function.update s.copied i true }) hnew rfl rfl
      rw [hsame]
      exact h.tally hclear
  | count i data hpc =>
      intro hclear
      have hcard := card_counted_count (t := { s.setReader i (.unlocking data) with
        aready_read := int32 (s.aready_read + 1) }) hpc (h.uncounted i (by rw [hpc]; rfl)) rfl rfl
      rw [hcard]
      dsimp only
      rw [h.tally hclear, int32_int32_add]
      push_cast
      rfl
  | reset => exact fun hne => absurd rfl hne
  | pop data rest hpc hlist =>
      intro _
      simp [counted, int32_zero, hz hpc]
  | noPop hpc => exact fun hne => absurd hpc hne
  | allRead hpc | notAllRead hpc | waitClear hpc | goOn hpc | done hpc | unlockClear hpc
  | writing hpc | written hpc | leaveClear hpc | clearEnd hpc | wakeCleaner hpc =>
      exact fun _ => h.tally_congr (fun _ => rfl) rfl rfl (by simp [hpc])
  | lockClear hpc =>
      exact fun _ => h.tally_congr (fun _ => rfl) rfl rfl (by rcases hpc with h | h <;> simp [h])
  | _ => exact h.tally_congr (fun _ => rfl) rfl rfl

/-- A counter that has reached the number of readers has counted all of them. -/
theorem Delivered.copied_of_tally (h : Delivered lines s) (hn : n = reader_count.toNat)
    (hclear : s.cleaner ≠ .popping) (hall : s.aready_read = reader_count) (i : Fin n) :
    s.copied i := by
  have hle : int32 (counted s).card ≤ (counted s).card := int32_le (by omega)
  rw [← h.tally hclear, hall] at hle
  have hcard : (counted s).card ≤ n := by simpa using Finset.card_le_univ (counted s)
  have huniv : counted s = Finset.univ :=
    Finset.eq_univ_of_card _ (by rw [Fintype.card_fin]; omega)
  have hi : i ∈ counted s := huniv ▸ Finset.mem_univ i
  exact (mem_counted.1 hi).1

theorem Delivered.step_all (h : Delivered lines s) (hn : n = reader_count.toNat)
    (ht : Trans reader_count s a t) :
    t.cleaner = .storing ∨ t.cleaner = .popping → ∀ i, t.copied i := by
  have ha := h.all
  cases ht with
  | copy i data rest hpc hlist =>
      intro hclear j
      by_cases hji : j = i
      · subst j
        simp
      · simpa [Function.update_of_ne hji] using ha hclear j
  | report =>
      rintro (hpc | hpc)
      · exact ha (Or.inl (notifyCleaner_eq hpc nofun))
      · exact ha (Or.inr (notifyCleaner_eq hpc nofun))
  | allRead hpc hall => exact fun _ => h.copied_of_tally hn (by simp [hpc]) hall
  | reset hpc => exact fun _ => ha (Or.inl hpc)
  | lockClear | notAllRead | waitClear | pop | goOn | done | unlockClear | writing | written
  | alert | leaveClear | clearEnd | wakeCleaner => rintro (hpc | hpc) <;> cases hpc
  | _ => exact ha

theorem delivered_of_reachable {s : State reader_count.toNat α}
    (h : (program reader_count lines).ReachableBy NewsOnly s) : Delivered lines s := by
  apply h.invariant (I := Delivered lines) (delivered_start lines)
  intro s t a hr hi hc hst
  have hg := guarded_of_reachable hr.reachable
  have hz := reset_of_reachable hr.reachable
  have ht := (step_trans hst).2
  exact ⟨hi.step_moved ht, hi.step_news hc ht, hi.step_present ht, hi.step_uncounted hg ht,
    hi.step_taken ht, hi.step_tally hz ht, hi.step_all rfl ht⟩

theorem Delivered.out_in_order (h : Delivered lines s) (i : Fin n) :
    s.out_file i <+: lines := by
  have hcopies : s.out_file i <+: copies s i := List.prefix_append _ _
  have htaken : copies s i <+: s.popped ++ s.data_list := by
    rw [h.taken i]
    cases s.copied i with
    | true => exact (List.prefix_append_right_inj _).2 (List.take_prefix 1 _)
    | false => exact (List.prefix_append_right_inj _).2 List.nil_prefix
  have hmoved : s.popped ++ s.data_list <+: lines := h.moved ▸ List.prefix_append _ _
  exact hcopies.trans (htaken.trans hmoved)

theorem lines_delivered {s : State reader_count.toNat α}
    (h : (program reader_count lines).ReachableBy NewsOnly s) :
    (s.cleaner = .popping → ∀ i, s.copied i) ∧ ∀ i, s.out_file i <+: lines :=
  ⟨fun hpc => (delivered_of_reachable h).all (Or.inr hpc),
    (delivered_of_reachable h).out_in_order⟩

instance (s : State n α) (a : Act n) : Decidable (NewsOnly s a) :=
  inferInstanceAs (Decidable (∀ i, Wakes s a i → s.data_list ≠ [] ∧ s.copied i = false))

/-- Both readers copy the first line, wait again behind the second one, and are woken for it
when the cleaner has removed the first. -/
def bothLines : List (Act 2) :=
  List.replicate 3 (.reader ⟨0, Nat.zero_lt_two⟩) ++
    List.replicate 3 (.reader ⟨1, Nat.one_lt_two⟩) ++ List.replicate 6 .writer ++
    List.replicate 7 (.reader ⟨0, Nat.zero_lt_two⟩) ++
    List.replicate 7 (.reader ⟨1, Nat.one_lt_two⟩) ++ List.replicate 8 .writer ++
    List.replicate 3 (.reader ⟨1, Nat.one_lt_two⟩) ++
    List.replicate 3 (.reader ⟨0, Nat.zero_lt_two⟩) ++ List.replicate 8 .cleaner ++
    List.replicate 7 (.reader ⟨1, Nat.one_lt_two⟩) ++
    List.replicate 7 (.reader ⟨0, Nat.zero_lt_two⟩) ++ List.replicate 3 .cleaner

theorem lines_delivered_bothLines :
    ∃ s : State 2 ℕ, (program 2 [7, 8]).ReachableBy NewsOnly s ∧ s.cleaner = .popping ∧
      s.popped = [7] ∧ (∀ i, s.out_file i = [7, 8]) ∧
      ∀ i, s.copied i ∧ s.out_file i <+: [7, 8] := by
  have hrun : ((program 2 [7, 8]).checkedFrom (fun s a => decide (NewsOnly s a))
      (program 2 [7, 8]).init bothLines).map (fun s => ((s.cleaner, s.popped),
        s.out_file ⟨0, Nat.zero_lt_two⟩, s.out_file ⟨1, Nat.one_lt_two⟩)) =
          some ((.popping, [7]), [7, 8], [7, 8]) := by
    decide +kernel
  obtain ⟨s, hreach, hview⟩ := Machine.reachableBy_of_checked hrun
  obtain ⟨hcleaner, hout⟩ := Prod.mk.inj hview
  obtain ⟨hpc, hpopped⟩ := Prod.mk.inj hcleaner
  have hnews : (program 2 [7, 8]).ReachableBy NewsOnly s :=
    hreach.mono (fun _ _ hc => of_decide_eq_true hc)
  have houts : ∀ i, s.out_file i = [7, 8] := Fin.forall_fin_two.2 (Prod.mk.inj hout)
  obtain ⟨hall, hpre⟩ := lines_delivered hnews
  exact ⟨s, hnews, hpc, hpopped, houts, fun i => ⟨hall hpc i, hpre i⟩⟩

/-- Two readers wait, the first line wakes both, the first reader copies it, and is woken
by the second line to copy the first one again. Its two copies make the cleaner remove a
line that the second reader has not copied. -/
def copiedTwice : List (Act 2) :=
  List.replicate 3 (.reader 0) ++ List.replicate 3 (.reader 1) ++ List.replicate 6 .writer ++
    List.replicate 10 (.reader 0) ++ List.replicate 6 .writer ++ List.replicate 10 (.reader 0) ++
    List.replicate 3 .cleaner

theorem line_removed_unread :
    ∃ s : State 2 ℕ, (program 2 [1, 2]).Reachable s ∧ s.cleaner = .popping ∧
      s.copied 1 = false ∧ s.out_file 0 = [1, 1] ∧ ¬ s.out_file 0 <+: [1, 2] := by
  have hrun : ((program 2 [1, 2]).run copiedTwice).map
      (fun s => (s.cleaner, s.copied (1 : Fin 2), s.out_file (0 : Fin 2))) =
        some (.popping, false, [1, 1]) := by decide +kernel
  obtain ⟨s, -, hreach, hview⟩ := Machine.reachable_of_run_map hrun
  obtain ⟨hpc, hrest⟩ := Prod.mk.inj hview
  obtain ⟨hcopied, hout⟩ := Prod.mk.inj hrest
  refine ⟨s, hreach, hpc, hcopied, hout, fun hpre => ?_⟩
  have htwo : [1, 1] <+: [1, 2] := hout ▸ hpre
  exact absurd htwo (by decide)

end Londa.OneWriter
