import Londa.OneWriterSteps

/-!
# The lock of the list

The cleaner holds `data_protecter` exclusively from its `lock` to the end of its section.
So does the writer, except in an iteration that finds the list at or above the warning
threshold: there it unlocks, and the push that follows is made without the lock. Readers
hold the lock shared, and give it up while they wait.
-/

namespace Londa.OneWriter

variable {n : ℕ} {α : Type*} {reader_count : ℤ} {s t : State n α} {a : Act n}

def WriterPc.holds : WriterPc α → Bool
  | .sizing _ => true
  | .releasing _ _ => true
  | .alarming _ _ owns => owns
  | .pushing _ _ owns => owns
  | .notifying owns => owns
  | .unlocking owns => owns
  | _ => false

def ReaderPc.holds : ReaderPc α → Bool
  | .waiting => true
  | .copying => true
  | .counting _ => true
  | .unlocking _ => true
  | _ => false

def CleanerPc.holds : CleanerPc → Bool
  | .testing => true
  | .waiting => true
  | .storing => true
  | .popping => true
  | .checking => true
  | .unlocking => true
  | .leaving => true
  | _ => false

/-- The threads in a section under the exclusive lock. -/
def State.writing (s : State n α) : Thread n → Bool
  | .writer => s.writer.holds
  | .reader _ => false
  | .cleaner => s.cleaner.holds

/-- The threads in a section under the shared lock. -/
def State.reading (s : State n α) : Thread n → Bool
  | .reader i => (s.reader i).holds
  | _ => false

def Guarded (s : State n α) : Prop := s.data_protecter.Guards s.writing s.reading

theorem afterSize_holds (data : α) (size : ℤ) : (afterSize data size).holds = true := by
  unfold afterSize
  split
  · rfl
  · split <;> rfl

theorem notifyCleaner_holds (pc : CleanerPc) : (notifyCleaner pc).holds = pc.holds := by
  cases pc <;> rfl

theorem writing_congr (hw : t.writer.holds = s.writer.holds)
    (hc : t.cleaner.holds = s.cleaner.holds) (th : Thread n) : t.writing th = s.writing th := by
  cases th with
  | writer => exact hw
  | reader _ => rfl
  | cleaner => exact hc

theorem reading_congr (hr : ∀ i, (t.reader i).holds = (s.reader i).holds) (th : Thread n) :
    t.reading th = s.reading th := by
  cases th with
  | reader i => exact hr i
  | writer | cleaner => rfl

theorem writing_writer_ne (hc : t.cleaner = s.cleaner) (th : Thread n) (hne : th ≠ .writer) :
    t.writing th = s.writing th := by
  cases th with
  | writer => exact absurd rfl hne
  | reader _ => rfl
  | cleaner => exact congrArg CleanerPc.holds hc

theorem writing_cleaner_ne (hw : t.writer = s.writer) (th : Thread n) (hne : th ≠ .cleaner) :
    t.writing th = s.writing th := by
  cases th with
  | writer => exact congrArg WriterPc.holds hw
  | reader _ => rfl
  | cleaner => exact absurd rfl hne

theorem reading_reader_ne {i : Fin n} {pc : ReaderPc α}
    (hr : t.reader = Function.update s.reader i pc) (th : Thread n) (hne : th ≠ .reader i) :
    t.reading th = s.reading th := by
  cases th with
  | reader j =>
      have hj : j ≠ i := fun he => hne (by rw [he])
      simp only [State.reading, hr, Function.update_of_ne hj]
  | writer | cleaner => rfl

theorem Guarded.step (h : Guarded s) (ht : Trans reader_count s a t) : Guarded t := by
  unfold Guarded at *
  cases ht with
  | lock data hpc hidle =>
      apply h.lock hidle (i := .writer)
      · rfl
      · exact writing_writer_ne rfl
      · exact reading_congr (fun _ => rfl)
  | release data size hpc | unlock hpc =>
      apply h.unlock (i := .writer)
      · simp [State.writing, WriterPc.holds, hpc]
      · rfl
      · exact writing_writer_ne rfl
      · exact reading_congr (fun _ => rfl)
  | lockClear hpc hidle =>
      apply h.lock hidle (i := .cleaner)
      · rfl
      · exact writing_cleaner_ne rfl
      · exact reading_congr (fun _ => rfl)
  | waitClear hpc | unlockClear hpc | leaveClear hpc =>
      apply h.unlock (i := .cleaner)
      · simp [State.writing, CleanerPc.holds, hpc]
      · rfl
      · exact writing_cleaner_ne rfl
      · exact reading_congr (fun _ => rfl)
  | lockShared i hpc hfree | relock i hpc hfree =>
      apply h.lockShared hfree (i := .reader i)
      · simp [State.reading, State.setReader, ReaderPc.holds]
      · exact reading_reader_ne rfl
      · exact writing_congr rfl rfl
  | wait i hpc | unlockShared i _ hpc =>
      apply h.unlockShared (i := .reader i)
      · simp [State.reading, State.setReader, ReaderPc.holds]
      · exact reading_reader_ne rfl
      · exact writing_congr rfl rfl
  | size data hpc =>
      have hsame : (afterSize data (int32 s.data_list.length)).holds = s.writer.holds := by
        rw [afterSize_holds, hpc]
        rfl
      exact h.congr (writing_congr hsame rfl) (reading_congr (fun _ => rfl))
  | getline _ _ hpc | eof hpc | push _ _ _ hpc | unlocked hpc | writeEnd hpc =>
      exact h.congr (writing_congr (by rw [hpc]; rfl) rfl) (reading_congr (fun _ => rfl))
  | alarm _ _ _ hpc | notify _ hpc =>
      exact h.congr (writing_congr (by rw [hpc]; rfl) rfl)
        (reading_congr (notifyAll_frame ReaderPc.holds rfl _))
  | leave _ hpc | enter _ hpc | copy _ _ _ hpc | count _ _ hpc | write _ _ hpc | again _ hpc
  | wakeReader _ hpc =>
      exact h.congr (writing_congr rfl rfl)
        (reading_congr (update_frame ReaderPc.holds (by rw [hpc]; rfl)))
  | report _ hpc =>
      exact h.congr (writing_congr rfl (notifyCleaner_holds _))
        (reading_congr (update_frame ReaderPc.holds (by rw [hpc]; rfl)))
  | noFront | noPop => exact h
  | allRead hpc | notAllRead hpc | reset hpc | pop _ _ hpc | goOn hpc | done hpc | writing hpc
  | written hpc | clearEnd hpc | wakeCleaner hpc =>
      exact h.congr (writing_congr rfl (by rw [hpc]; rfl)) (reading_congr (fun _ => rfl))
  | alert hpc =>
      exact h.congr (writing_congr rfl (by rw [hpc]; rfl))
        (reading_congr (notifyAll_frame ReaderPc.holds rfl _))

theorem guarded_start (lines : List α) : Guarded (start n lines) where
  owner th := by cases th <;> simp [start, State.writing, WriterPc.holds, CleanerPc.holds,
    RwLock.free]
  sharers th := by cases th <;> simp [start, State.reading, ReaderPc.holds, RwLock.free]
  apart h := absurd rfl h

theorem guarded_of_reachable {lines : List α} {s : State reader_count.toNat α}
    (h : (program reader_count lines).Reachable s) : Guarded s := by
  apply h.invariant (I := Guarded) (guarded_start lines)
  intro s t a _ hi hst
  exact hi.step (step_trans hst).2

/-- The writer's `locker` owns the lock at the push exactly when the size was below the
threshold. -/
def WriterPc.Branched : WriterPc α → Prop
  | .releasing _ size => warn_threshhold ≤ size
  | .alarming _ size owns => owns = true ↔ size < warn_threshhold
  | .pushing _ size owns => owns = true ↔ size < warn_threshhold
  | _ => True

theorem afterSize_branched (data : α) (size : ℤ) : (afterSize data size).Branched := by
  unfold afterSize
  split
  · rename_i hwarn
    exact hwarn
  · rename_i hwarn
    split
    · rename_i hcritical
      simp only [warn_threshhold, critical_threashhold] at hwarn hcritical
      omega
    · exact iff_of_true rfl (not_le.1 hwarn)

theorem branched_step (h : s.writer.Branched) (ht : Trans reader_count s a t) :
    t.writer.Branched := by
  cases ht with
  | size data hpc => exact afterSize_branched _ _
  | release data size hpc =>
      rw [hpc] at h
      exact iff_of_false Bool.false_ne_true (not_lt.2 h)
  | alarm data size owns hpc =>
      rw [hpc] at h
      exact h
  | getline | eof | lock | push | notify | unlock | unlocked | writeEnd => trivial
  | _ => exact h

theorem branched_of_reachable {lines : List α} {s : State reader_count.toNat α}
    (h : (program reader_count lines).Reachable s) : s.writer.Branched := by
  apply h.invariant (I := fun s => s.writer.Branched) trivial
  intro s t a _ hi hst
  exact branched_step hi (step_trans hst).2

def Act.thread : Act n → Thread n
  | .writer => .writer
  | .reader i => .reader i
  | .cleaner => .cleaner
  | .wakeReader i => .reader i
  | .wakeCleaner => .cleaner

/-- A step that changes the list is taken by a thread that holds the lock exclusively,
with no reader sharing it. -/
def Disciplined (reader_count : ℤ) (s : State n α) (a : Act n) : Prop :=
  ∀ t, step reader_count s a = some t → t.data_list ≠ s.data_list →
    s.data_protecter.HeldBy a.thread

def WriterPc.BelowThreshold : WriterPc α → Prop
  | .pushing _ size _ => size < warn_threshhold
  | _ => True

instance : DecidablePred (@WriterPc.BelowThreshold α)
  | .pushing _ size _ => inferInstanceAs (Decidable (size < warn_threshhold))
  | .fetching | .locking _ | .sizing _ | .releasing _ _ | .alarming _ _ _ | .notifying _
  | .unlocking _ | .ending | .returned => isTrue trivial

/-- The writer pushes in an iteration that read a size below the warning threshold. -/
def PushesBelow (s : State n α) (a : Act n) : Prop := a = .writer → s.writer.BelowThreshold

instance (s : State n α) (a : Act n) : Decidable (PushesBelow s a) :=
  inferInstanceAs (Decidable (a = .writer → s.writer.BelowThreshold))

theorem disciplined_of_below (hg : Guarded s) (hb : s.writer.Branched)
    (hc : PushesBelow s a) : Disciplined reader_count s a := by
  intro t hst hne
  cases (step_trans hst).2 with
  | push data size owns hpc =>
      have hlow := hc rfl
      rw [hpc] at hb hlow
      have howns : owns = true := hb.2 hlow
      apply hg.heldBy (i := .writer)
      simp [State.writing, WriterPc.holds, hpc, howns]
  | pop data rest hpc =>
      apply hg.heldBy (i := .cleaner)
      simp [State.writing, CleanerPc.holds, hpc]
  | _ => exact absurd rfl hne

theorem below_of_disciplined (hg : Guarded s) (hb : s.writer.Branched)
    (hst : step reader_count s a = some t) (hd : Disciplined reader_count s a) :
    PushesBelow s a := by
  rintro rfl
  cases hpc : s.writer with
  | pushing data size owns =>
      have hchange : t.data_list ≠ s.data_list := by
        have heq := hst
        unfold step at heq
        split at heq
        · cases heq
        · simp only [writerStep, hpc] at heq
          cases heq
          simp
      have hholds := hg.writing_of_heldBy (hd t hst hchange)
      rw [hpc] at hb
      apply hb.1
      simpa [State.writing, Act.thread, WriterPc.holds, hpc] using hholds
  | _ => trivial

theorem lock_discipline_iff {lines : List α} {as : List (Act reader_count.toNat)}
    {s : State reader_count.toNat α} (h : (program reader_count lines).run as = some s) :
    (program reader_count lines).Meets (Disciplined reader_count)
        (program reader_count lines).init as ↔
      (program reader_count lines).Meets PushesBelow (program reader_count lines).init as := by
  apply Machine.Reachable.meets_congr .init _ h
  intro s t a hr hst
  have hg := guarded_of_reachable hr
  have hb := branched_of_reachable hr
  exact ⟨below_of_disciplined hg hb hst, disciplined_of_below hg hb⟩

theorem lock_discipline_iff_oneLine :
    ∃ s : State 1 ℕ, (program 1 [7]).run (List.replicate 6 .writer) = some s ∧ s.data_list = [7] ∧
      (program 1 [7]).Meets (Disciplined 1) (program 1 [7]).init (List.replicate 6 .writer) := by
  have hrun : ((program 1 [7]).checkedFrom (fun s a => decide (PushesBelow s a))
      (program 1 [7]).init (List.replicate 6 .writer)).map (fun s => s.data_list) = some [7] := by
    decide +kernel
  obtain ⟨s, hs, hlist⟩ := Option.map_eq_some_iff.1 hrun
  have hrun' := Machine.runFrom_of_checked hs
  refine ⟨s, hrun', hlist, (lock_discipline_iff hrun').2 ?_⟩
  exact Machine.meets_of_checked (fun _ _ h => of_decide_eq_true h) hs

/-- The writer has moved 70 lines and found the threshold reached at the next one; a reader
holds the shared lock. -/
def atThreshold : List (Act 1) :=
  List.replicate 425 .writer ++ [.reader 0, .reader 0]

theorem push_without_lock :
    ∃ s t : State 1 ℕ, (program 1 (List.range 71)).Reachable s ∧
      (program 1 (List.range 71)).step s .writer = some t ∧
      s.data_list.length = 70 ∧ t.data_list.length = 71 ∧ s.data_protecter.owner = none ∧
      .reader 0 ∈ s.data_protecter.sharers ∧ ¬ Disciplined 1 s .writer := by
  have hrun : ((program 1 (List.range 71)).run atThreshold).map (fun s => (s.data_list.length,
      s.data_protecter.owner, decide (.reader (0 : Fin 1) ∈ s.data_protecter.sharers),
      (step 1 s .writer).map fun t => t.data_list.length)) =
        some (70, none, true, some 71) := by decide +kernel
  obtain ⟨s, -, hreach, hview⟩ := Machine.reachable_of_run_map hrun
  obtain ⟨hlen, hrest⟩ := Prod.mk.inj hview
  obtain ⟨hown, hrest⟩ := Prod.mk.inj hrest
  obtain ⟨hshare, hstep⟩ := Prod.mk.inj hrest
  obtain ⟨t, hst, hlen'⟩ := Option.map_eq_some_iff.1 hstep
  refine ⟨s, t, hreach, hst, hlen, hlen', hown, of_decide_eq_true hshare, fun hd => ?_⟩
  have hne : t.data_list ≠ s.data_list := fun heq => by
    rw [heq, hlen] at hlen'
    cases hlen'
  have hheld := (hd t hst hne).1
  rw [hown] at hheld
  cases hheld

end Londa.OneWriter
