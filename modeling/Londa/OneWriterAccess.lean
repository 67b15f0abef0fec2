import Londa.OneWriterLock

/-!
# Accesses to the list

`front` and `pop_front` are called without a test for emptiness. A woken reader finds a
line as long as the wakeup comes while the list holds one and the cleaner does not remove
the last line before the reader has locked again; from then on the shared lock keeps the
cleaner out. The cleaner finds a line because `aready_read` differs from zero only while
the list holds one, which says nothing when there are no readers.
-/

namespace Londa.OneWriter

variable {n : ℕ} {α : Type*} {reader_count : ℤ} {s t : State n α} {a : Act n}

/-- The step is a `has_data.notify_all()`. -/
def State.notifies (s : State n α) : Act n → Bool
  | .writer =>
      match s.writer with
      | .alarming _ _ _ => true
      | .notifying _ => true
      | _ => false
  | .cleaner => s.cleaner = .alerting
  | _ => false

/-- The step ends the wait of reader `i` on `has_data`. -/
def Wakes (s : State n α) (a : Act n) (i : Fin n) : Prop :=
  has_data.blocked (s.reader i) ∧ (s.notifies a ∨ a = .wakeReader i)

instance (s : State n α) (a : Act n) (i : Fin n) : Decidable (Wakes s a i) :=
  inferInstanceAs (Decidable (_ ∧ (_ ∨ _)))

/-- Readers are woken while there is a line, the cleaner does not remove the last line
under a woken reader, and without readers it starts on a list that has a line. -/
structure Supplied (reader_count : ℤ) (s : State n α) (a : Act n) : Prop where
  wake : ∀ i, Wakes s a i → s.data_list ≠ []
  last : a = .cleaner → s.cleaner = .popping → s.data_list.length = 1 →
    ∀ i, s.reader i ≠ .woken
  first : a = .cleaner → s.cleaner = .testing → reader_count = 0 → s.data_list ≠ []

/-- The reader is between the end of its wait and the count of its copy. -/
def ReaderPc.awake : ReaderPc α → Bool
  | .woken => true
  | .copying => true
  | .counting _ => true
  | _ => false

structure Stocked (s : State n α) : Prop where
  awake : ∀ i, (s.reader i).awake → s.data_list ≠ []
  counted : s.aready_read ≠ 0 → s.data_list ≠ []
  clearing : s.cleaner = .storing ∨ s.cleaner = .popping → s.data_list ≠ []
  valid : s.fault = false

theorem stocked_start (lines : List α) : Stocked (start n lines) where
  awake _ h := by cases h
  counted h := absurd rfl h
  clearing h := by rcases h with h | h <;> cases h
  valid := rfl

theorem notifyCleaner_eq {pc pc' : CleanerPc} (h : notifyCleaner pc = pc') (hne : pc' ≠ .woken) :
    pc = pc' := by
  cases pc with
  | blocked => exact absurd h.symm hne
  | _ => exact h

/-- No reader copies or counts while the cleaner is in its section. -/
theorem Guarded.reader_outside (h : Guarded s) (hc : s.cleaner.holds) (i : Fin n) :
    (s.reader i).holds = false := by
  have hw : s.writing .cleaner := hc
  exact RwLock.Guards.not_reading h hw (.reader i)

/-- The cleaner keeps the readers out between its store and its `pop_front`. -/
theorem reset_step (h : s.cleaner = .popping → s.aready_read = 0) (hg : Guarded s)
    (ht : Trans reader_count s a t) : t.cleaner = .popping → t.aready_read = 0 := by
  cases ht with
  | count i data hpc =>
      intro hpop
      have hpop' : s.cleaner = .popping := hpop
      have hout := hg.reader_outside (by rw [hpop']; rfl) i
      simp [hpc, ReaderPc.holds] at hout
  | report => exact fun hpc => h (notifyCleaner_eq hpc (by decide))
  | reset => exact fun _ => rfl
  | lockClear | allRead | notAllRead | waitClear | pop | goOn | done | unlockClear | writing
  | written | alert | leaveClear | clearEnd | wakeCleaner =>
      intro hpop
      cases hpop
  | _ => exact h

theorem reset_of_reachable {lines : List α} {s : State reader_count.toNat α}
    (h : (program reader_count lines).Reachable s) :
    s.cleaner = .popping → s.aready_read = 0 := by
  apply h.invariant (I := fun s => s.cleaner = .popping → s.aready_read = 0) nofun
  intro s t a hr hi hst
  exact reset_step hi (guarded_of_reachable hr) (step_trans hst).2

theorem Stocked.step_awake (h : Stocked s) (hg : Guarded s) (hc : Supplied reader_count s a)
    (ht : Trans reader_count s a t) : ∀ i, (t.reader i).awake → t.data_list ≠ [] := by
  have ha := h.awake
  cases ht with
  | push => exact fun _ _ => by simp
  | alarm _ _ _ hpc | notify _ hpc =>
      apply has_data.notifyAll_imp ReaderPc.awake ha
      intro j hb
      exact hc.wake j ⟨hb, Or.inl (by simp [State.notifies, hpc])⟩
  | alert hpc =>
      apply has_data.notifyAll_imp ReaderPc.awake ha
      intro j hb
      exact hc.wake j ⟨hb, Or.inl (by simp [State.notifies, hpc])⟩
  | leave | enter | lockShared | wait | count | unlockShared | write | report | again =>
      exact update_imp ReaderPc.awake ha (fun h => by cases h)
  | relock i hpc => exact update_imp ReaderPc.awake ha (fun _ => ha i (by rw [hpc]; rfl))
  | copy i data rest hpc hlist =>
      exact update_imp ReaderPc.awake ha (fun _ => ha i (by rw [hpc]; rfl))
  | wakeReader i hpc =>
      exact update_imp ReaderPc.awake ha (fun _ => hc.wake i ⟨blocked_iff.2 hpc, Or.inr rfl⟩)
  | pop data rest hpc hlist =>
      intro i hi hempty
      dsimp only at hi hempty
      have hone : s.data_list.length = 1 := by rw [hlist, hempty]; rfl
      have hout := hg.reader_outside (by rw [hpc]; rfl) i
      have hnot := hc.last rfl hpc hone i
      cases hri : s.reader i <;> simp [hri, ReaderPc.awake, ReaderPc.holds] at hi hout hnot
  | _ => exact ha

theorem Stocked.step_counted (h : Stocked s) (hz : s.cleaner = .popping → s.aready_read = 0)
    (ht : Trans reader_count s a t) :
    t.aready_read ≠ 0 → t.data_list ≠ [] := by
  have hn := h.counted
  cases ht with
  | push => exact fun _ => by simp
  | count i data hpc => exact fun _ => h.awake i (by rw [hpc]; rfl)
  | reset => exact fun hne => absurd rfl hne
  | pop _ _ hpc => exact fun hne => absurd (hz hpc) hne
  | _ => exact hn

theorem Stocked.step_clearing (h : Stocked s) (hc : Supplied reader_count s a)
    (ht : Trans reader_count s a t) :
    t.cleaner = .storing ∨ t.cleaner = .popping → t.data_list ≠ [] := by
  have hl := h.clearing
  cases ht with
  | push => exact fun _ => by simp
  | report =>
      rintro (hpc | hpc)
      · exact hl (Or.inl (notifyCleaner_eq hpc nofun))
      · exact hl (Or.inr (notifyCleaner_eq hpc nofun))
  | allRead hpc hall =>
      intro _
      by_cases hzero : reader_count = 0
      · exact hc.first rfl hpc hzero
      · exact h.counted (by rw [hall]; exact hzero)
  | reset hpc => exact fun _ => hl (Or.inl hpc)
  | lockClear | notAllRead | waitClear | pop | goOn | done | unlockClear | writing | written
  | alert | leaveClear | clearEnd | wakeCleaner => rintro (hpc | hpc) <;> cases hpc
  | _ => exact hl

theorem Stocked.step_valid (h : Stocked s) (ht : Trans reader_count s a t) : t.fault = false := by
  have hv := h.valid
  cases ht with
  | noFront i hpc hempty => exact absurd hempty (h.awake i (by rw [hpc]; rfl))
  | noPop hpc hempty => exact absurd hempty (h.clearing (Or.inr hpc))
  | _ => exact hv

/-- A thread about to call `front` or `pop_front` finds a line, and no earlier call failed. -/
structure ValidAccesses (s : State n α) : Prop where
  front : ∀ i, s.reader i = .copying → s.data_list ≠ []
  pop_front : s.cleaner = .popping → s.data_list ≠ []
  no_fault : s.fault = false

theorem Stocked.validAccesses (h : Stocked s) : ValidAccesses s where
  front i hpc := h.awake i (by rw [hpc]; rfl)
  pop_front hpc := h.clearing (Or.inr hpc)
  no_fault := h.valid

theorem accesses_valid {lines : List α} {s : State reader_count.toNat α}
    (h : (program reader_count lines).ReachableBy (Supplied reader_count) s) :
    ValidAccesses s := by
  have hstocked : Stocked s := by
    apply h.invariant (I := Stocked) (stocked_start lines)
    intro s t a hr hi hc hst
    have hg := guarded_of_reachable hr.reachable
    have hz := reset_of_reachable hr.reachable
    have ht := (step_trans hst).2
    exact ⟨hi.step_awake hg hc ht, hi.step_counted hz ht, hi.step_clearing hc ht, hi.step_valid ht⟩
  exact hstocked.validAccesses

/-- The reader goes from the head of its loop into its wait. -/
def fallAsleep : List (Act 1) := List.replicate 3 (.reader 0)

/-- The woken reader copies a line and waits again. -/
def copyAndSleep : List (Act 1) := List.replicate 10 (.reader 0)

/-- The writer moves a line. -/
def moveLine : List (Act 1) := List.replicate 6 .writer

theorem accesses_valid_oneLine :
    ∃ s : State 1 ℕ, (program 1 [7]).ReachableBy (Supplied 1) s ∧ s.cleaner = .popping ∧
      s.out_file 0 = [7] ∧ ValidAccesses s := by
  have hrun : ((program 1 [7]).checkedFrom (fun s a => decide ((∀ i, Wakes s a i →
      s.data_list ≠ []) ∧ (a = .cleaner → s.cleaner = .popping → s.data_list.length = 1 →
        ∀ i, s.reader i ≠ .woken))) (program 1 [7]).init
      (fallAsleep ++ moveLine ++ copyAndSleep ++ List.replicate 3 .cleaner)).map
        (fun s => (s.cleaner, s.out_file (0 : Fin 1))) = some (.popping, [7]) := by
    decide +kernel
  obtain ⟨s, hreach, hview⟩ := Machine.reachableBy_of_checked hrun
  obtain ⟨hpc, hout⟩ := Prod.mk.inj hview
  have hsupplied : (program 1 [7]).ReachableBy (Supplied 1) s := by
    apply hreach.mono
    intro u a hc
    obtain ⟨hwake, hlast⟩ := of_decide_eq_true hc
    exact ⟨hwake, hlast, fun _ _ hzero => absurd hzero (by decide)⟩
  exact ⟨s, hsupplied, hpc, hout, accesses_valid hsupplied⟩

/-- Without readers the cleaner pops at once. With one reader and two lines, the cleaner
alerts the reader after its second copy and then removes the last line. -/
theorem empty_list_accessed :
    (∃ s : State 0 ℕ, (program 0 [1]).Reachable s ∧ s.cleaner = .popping ∧ s.data_list = [] ∧
        ¬ ValidAccesses s) ∧
      ∃ s : State 1 ℕ, (program 1 [1, 2]).Reachable s ∧ s.reader 0 = .copying ∧
        s.data_list = [] ∧ ¬ ValidAccesses s := by
  constructor
  · have hrun : ((program 0 [1]).run [.cleaner, .cleaner, .cleaner]).map
        (fun s => (s.cleaner, s.data_list)) = some (.popping, []) := by decide +kernel
    obtain ⟨s, -, hreach, hview⟩ := Machine.reachable_of_run_map hrun
    obtain ⟨hpc, hlist⟩ := Prod.mk.inj hview
    exact ⟨s, hreach, hpc, hlist, fun hv => hv.pop_front hpc hlist⟩
  · have hrun : ((program 1 [1, 2]).run (fallAsleep ++ moveLine ++ copyAndSleep ++ moveLine ++
        [.writer, .writer] ++ List.replicate 6 .cleaner ++ copyAndSleep ++
        List.replicate 8 .cleaner ++ [.reader 0])).map
          (fun s => (s.reader (0 : Fin 1), s.data_list)) = some (.copying, []) := by
      decide +kernel
    obtain ⟨s, -, hreach, hview⟩ := Machine.reachable_of_run_map hrun
    obtain ⟨hpc, hlist⟩ := Prod.mk.inj hview
    exact ⟨s, hreach, hpc, hlist, fun hv => hv.front 0 hpc hlist⟩

end Londa.OneWriter
