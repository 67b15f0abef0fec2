import Londa.OneWriter

/-!
# The steps of writer, readers and cleaner

`Trans` lists the transitions, with what each needs and changes; every step of the
program is one of them.
-/

namespace Londa.OneWriter

variable {n : ℕ} {α : Type*}

/-- What a step can do. -/
inductive Trans (reader_count : ℤ) (s : State n α) : Act n → State n α → Prop
  | getline (data : α) (rest : List α) : s.writer = .fetching → s.in_file = data :: rest →
      Trans reader_count s .writer { s with writer := .locking data, in_file := rest }
  | eof : s.writer = .fetching → s.in_file = [] →
      Trans reader_count s .writer { s with writer := .ending }
  | lock (data : α) : s.writer = .locking data → s.data_protecter.Idle →
      Trans reader_count s .writer { s with
        writer := .sizing data
        data_protecter := s.data_protecter.lock .writer }
  | size (data : α) : s.writer = .sizing data →
      Trans reader_count s .writer { s with
        writer := afterSize data (int32 s.data_list.length) }
  | release (data : α) (size : ℤ) : s.writer = .releasing data size →
      Trans reader_count s .writer { s with
        writer := .alarming data size false
        data_protecter := s.data_protecter.unlock }
  | alarm (data : α) (size : ℤ) (owns : Bool) : s.writer = .alarming data size owns →
      Trans reader_count s .writer { s with
        writer := .pushing data size owns
        reader := has_data.notifyAll s.reader }
  | push (data : α) (size : ℤ) (owns : Bool) : s.writer = .pushing data size owns →
      Trans reader_count s .writer { s with
        writer := .notifying owns
        data_list := s.data_list ++ [data] }
  | notify (owns : Bool) : s.writer = .notifying owns →
      Trans reader_count s .writer { s with
        writer := .unlocking owns
        reader := has_data.notifyAll s.reader }
  | unlock : s.writer = .unlocking true →
      Trans reader_count s .writer { s with
        writer := .fetching
        data_protecter := s.data_protecter.unlock }
  | unlocked : s.writer = .unlocking false →
      Trans reader_count s .writer { s with writer := .fetching }
  | writeEnd : s.writer = .ending →
      Trans reader_count s .writer { s with writer := .returned, write_end_flag := true }
  | leave (i : Fin n) : s.reader i = .loop → s.clear_end_flag = true →
      Trans reader_count s (.reader i) (s.setReader i .returned)
  | enter (i : Fin n) : s.reader i = .loop → s.clear_end_flag = false →
      Trans reader_count s (.reader i) (s.setReader i .locking)
  | lockShared (i : Fin n) : s.reader i = .locking → s.data_protecter.owner = none →
      Trans reader_count s (.reader i) { s.setReader i .waiting with
        data_protecter := s.data_protecter.lockShared (.reader i) }
  | wait (i : Fin n) : s.reader i = .waiting →
      Trans reader_count s (.reader i) { s.setReader i .blocked with
        data_protecter := s.data_protecter.unlockShared (.reader i) }
  | relock (i : Fin n) : s.reader i = .woken → s.data_protecter.owner = none →
      Trans reader_count s (.reader i) { s.setReader i .copying with
        data_protecter := s.data_protecter.lockShared (.reader i) }
  | copy (i : Fin n) (data : α) (rest : List α) : s.reader i = .copying →
      s.data_list = data :: rest →
      Trans reader_count s (.reader i) { s.setReader i (.counting data) with
        copied := Function.update s.copied i true }
  | noFront (i : Fin n) : s.reader i = .copying → s.data_list = [] →
      Trans reader_count s (.reader i) { s with fault := true }
  | count (i : Fin n) (data : α) : s.reader i = .counting data →
      Trans reader_count s (.reader i) { s.setReader i (.unlocking data) with
        aready_read := int32 (s.aready_read + 1) }
  | unlockShared (i : Fin n) (data : α) : s.reader i = .unlocking data →
      Trans reader_count s (.reader i) { s.setReader i (.writing data) with
        data_protecter := s.data_protecter.unlockShared (.reader i) }
  | write (i : Fin n) (data : α) : s.reader i = .writing data →
      Trans reader_count s (.reader i) { s.setReader i .notifying with
        out_file := Function.update s.out_file i (s.out_file i ++ [data]) }
  | report (i : Fin n) : s.reader i = .notifying →
      Trans reader_count s (.reader i) { s.setReader i .pausing with
        cleaner := notifyCleaner s.cleaner }
  | again (i : Fin n) : s.reader i = .pausing →
      Trans reader_count s (.reader i) (s.setReader i .loop)
  | lockClear : s.cleaner = .locking ∨ s.cleaner = .woken → s.data_protecter.Idle →
      Trans reader_count s .cleaner { s with
        cleaner := .testing
        data_protecter := s.data_protecter.lock .cleaner }
  | allRead : s.cleaner = .testing → s.aready_read = reader_count →
      Trans reader_count s .cleaner { s with cleaner := .storing }
  | notAllRead : s.cleaner = .testing → s.aready_read ≠ reader_count →
      Trans reader_count s .cleaner { s with cleaner := .waiting }
  | waitClear : s.cleaner = .waiting →
      Trans reader_count s .cleaner { s with
        cleaner := .blocked
        data_protecter := s.data_protecter.unlock }
  | reset : s.cleaner = .storing →
      Trans reader_count s .cleaner { s with cleaner := .popping, aready_read := 0 }
  | pop (data : α) (rest : List α) : s.cleaner = .popping → s.data_list = data :: rest →
      Trans reader_count s .cleaner { s with
        cleaner := .checking
        data_list := rest
        copied := fun _ => false
        popped := s.popped ++ [data] }
  | noPop : s.cleaner = .popping → s.data_list = [] →
      Trans reader_count s .cleaner { s with fault := true }
  | goOn : s.cleaner = .checking → s.data_list ≠ [] →
      Trans reader_count s .cleaner { s with cleaner := .unlocking }
  | done : s.cleaner = .checking → s.data_list = [] →
      Trans reader_count s .cleaner { s with cleaner := .leaving }
  | unlockClear : s.cleaner = .unlocking →
      Trans reader_count s .cleaner { s with
        cleaner := .asking
        data_protecter := s.data_protecter.unlock }
  | writing : s.cleaner = .asking → s.write_end_flag = false →
      Trans reader_count s .cleaner { s with cleaner := .locking }
  | written : s.cleaner = .asking → s.write_end_flag = true →
      Trans reader_count s .cleaner { s with cleaner := .alerting }
  | alert : s.cleaner = .alerting →
      Trans reader_count s .cleaner { s with
        cleaner := .locking
        reader := has_data.notifyAll s.reader }
  | leaveClear : s.cleaner = .leaving →
      Trans reader_count s .cleaner { s with
        cleaner := .ending
        data_protecter := s.data_protecter.unlock }
  | clearEnd : s.cleaner = .ending →
      Trans reader_count s .cleaner { s with cleaner := .returned, clear_end_flag := true }
  | wakeReader (i : Fin n) : s.reader i = .blocked →
      Trans reader_count s (.wakeReader i) (s.setReader i .woken)
  | wakeCleaner : s.cleaner = .blocked →
      Trans reader_count s .wakeCleaner { s with cleaner := .woken }

variable {s t : State n α} {reader_count : ℤ} {i : Fin n}

theorem blocked_iff {pc : ReaderPc α} : has_data.blocked pc = true ↔ pc = .blocked := by
  cases pc <;> simp [has_data]

/-- What does not tell a woken reader from a blocked one is not changed by `notify_all`. -/
theorem notifyAll_frame {β : Type*} (f : ReaderPc α → β) (hf : f .woken = f .blocked)
    (pc : Fin n → ReaderPc α) (i : Fin n) : f (has_data.notifyAll pc i) = f (pc i) := by
  apply has_data.notifyAll_frame f
  intro p hp
  rw [blocked_iff.1 hp]
  exact hf

theorem writerStep_trans (h : writerStep s = some t) : Trans reader_count s .writer t := by
  unfold writerStep at h
  cases hpc : s.writer with
  | fetching =>
      simp only [hpc] at h
      split at h
      · rename_i data rest hfile
        cases h
        exact .getline data rest hpc hfile
      · rename_i hfile
        cases h
        exact .eof hpc hfile
  | locking data =>
      simp only [hpc] at h
      split at h
      · rename_i hidle
        cases h
        exact .lock data hpc hidle
      · cases h
  | unlocking owns =>
      simp only [hpc] at h
      cases h
      cases owns with
      | true => exact .unlock hpc
      | false => exact .unlocked hpc
  | sizing data =>
      simp only [hpc] at h
      exact Option.some.inj h ▸ .size data hpc
  | releasing data size =>
      simp only [hpc] at h
      cases h
      exact .release data size hpc
  | alarming data size owns =>
      simp only [hpc] at h
      cases h
      exact .alarm data size owns hpc
  | pushing data size owns =>
      simp only [hpc] at h
      cases h
      exact .push data size owns hpc
  | notifying owns =>
      simp only [hpc] at h
      cases h
      exact .notify owns hpc
  | ending =>
      simp only [hpc] at h
      cases h
      exact .writeEnd hpc
  | returned => simp [hpc] at h

theorem readerStep_trans (h : readerStep s i = some t) : Trans reader_count s (.reader i) t := by
  unfold readerStep at h
  cases hpc : s.reader i with
  | loop =>
      simp only [hpc] at h
      cases h
      by_cases hend : s.clear_end_flag = true
      · rw [if_pos hend]
        exact .leave i hpc hend
      · rw [if_neg hend]
        exact .enter i hpc (by simpa using hend)
  | locking =>
      simp only [hpc] at h
      split at h
      · rename_i hfree
        cases h
        exact .lockShared i hpc hfree
      · cases h
  | woken =>
      simp only [hpc] at h
      split at h
      · rename_i hfree
        cases h
        exact .relock i hpc hfree
      · cases h
  | copying =>
      simp only [hpc] at h
      split at h
      · rename_i data rest hlist
        cases h
        exact .copy i data rest hpc hlist
      · rename_i hlist
        cases h
        exact .noFront i hpc hlist
  | waiting =>
      simp only [hpc] at h
      cases h
      exact .wait i hpc
  | counting data =>
      simp only [hpc] at h
      cases h
      exact .count i data hpc
  | unlocking data =>
      simp only [hpc] at h
      cases h
      exact .unlockShared i data hpc
  | writing data =>
      simp only [hpc] at h
      cases h
      exact .write i data hpc
  | notifying =>
      simp only [hpc] at h
      cases h
      exact .report i hpc
  | pausing =>
      simp only [hpc] at h
      cases h
      exact .again i hpc
  | blocked | returned => simp [hpc] at h

theorem clearStep_trans (h : clearStep reader_count s = some t) :
    Trans reader_count s .cleaner t := by
  unfold clearStep at h
  cases hpc : s.cleaner with
  | locking | woken =>
      simp only [hpc] at h
      split at h
      · rename_i hidle
        cases h
        exact .lockClear (by simp [hpc]) hidle
      · cases h
  | testing =>
      simp only [hpc] at h
      cases h
      by_cases hall : s.aready_read = reader_count
      · rw [if_pos hall]
        exact .allRead hpc hall
      · rw [if_neg hall]
        exact .notAllRead hpc hall
  | popping =>
      rw [hpc] at h
      dsimp only at h
      split at h
      · rename_i data rest hlist
        cases h
        exact .pop data rest hpc hlist
      · rename_i hlist
        cases h
        rw [← hpc]
        exact .noPop hpc hlist
  | checking =>
      simp only [hpc] at h
      cases h
      by_cases hempty : s.data_list = []
      · rw [if_pos hempty]
        exact .done hpc hempty
      · rw [if_neg hempty]
        exact .goOn hpc hempty
  | asking =>
      simp only [hpc] at h
      cases h
      by_cases hend : s.write_end_flag = true
      · rw [if_pos hend]
        exact .written hpc hend
      · rw [if_neg hend]
        exact .writing hpc (by simpa using hend)
  | waiting =>
      simp only [hpc] at h
      cases h
      exact .waitClear hpc
  | storing =>
      simp only [hpc] at h
      cases h
      exact .reset hpc
  | unlocking =>
      simp only [hpc] at h
      cases h
      exact .unlockClear hpc
  | alerting =>
      simp only [hpc] at h
      cases h
      exact .alert hpc
  | leaving =>
      simp only [hpc] at h
      cases h
      exact .leaveClear hpc
  | ending =>
      simp only [hpc] at h
      cases h
      exact .clearEnd hpc
  | blocked | returned => simp [hpc] at h

theorem step_trans {a : Act n} (h : step reader_count s a = some t) :
    s.fault = false ∧ Trans reader_count s a t := by
  unfold step at h
  split at h
  · cases h
  · rename_i hfault
    refine ⟨by simpa using hfault, ?_⟩
    cases a with
    | writer => exact writerStep_trans h
    | reader i => exact readerStep_trans h
    | cleaner => exact clearStep_trans h
    | wakeReader i =>
        dsimp only at h
        split at h
        · rename_i hpc
          cases h
          exact .wakeReader i (blocked_iff.1 hpc)
        · cases h
    | wakeCleaner =>
        dsimp only at h
        split at h
        · rename_i hpc
          cases h
          exact .wakeCleaner hpc
        · cases h

end Londa.OneWriter
