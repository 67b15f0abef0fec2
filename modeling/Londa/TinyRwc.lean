import Londa.Machine
import Londa.RwLock

/-!
# A bounded pool of lines

Model of `do_write` and `reader` in `code/concurrent/tiny_rwc.cpp`. The writer tests the
size of the pool in two loops, and each round of a loop releases the lock, sleeps and takes
the lock again. Nothing is ever removed, since `do_clean` is empty: the writer is the only
thread that changes the pool, so what it has tested still holds when it pushes, and a
reader's place in the pool stays where it was.
-/

namespace Londa.TinyRwc

inductive Thread (n : ℕ)
  | writer
  | reader (i : Fin n)
  deriving DecidableEq

inductive WriterPc (α : Type*)
  | fetching
  | locking (line : α)
  | testingMax (line : α)
  | releasingMax (line : α)
  | relockingMax (line : α)
  | testingThreshold (line : α)
  | releasingThreshold (line : α)
  | relockingThreshold (line : α)
  | pushing (line : α)
  | unlocking
  | returned
  deriving DecidableEq

inductive ReaderPc
  | locking
  | testing
  | printing
  | unlocking
  deriving DecidableEq

structure State (n : ℕ) (α : Type*) where
  writer : WriterPc α
  reader : Fin n → ReaderPc
  data_mutex : RwLock (Thread n)
  data_pool : List α
  file : List α
  index : Fin n → ℕ
  out : Fin n → List α

inductive Act (n : ℕ)
  | writer
  | reader (i : Fin n)

variable {n : ℕ} {α : Type*}

def threshold : ℕ := 10

def max_size : ℕ := 20

/-- `locker.lock()`. -/
def State.lockWriter (s : State n α) (pc : WriterPc α) : Option (State n α) :=
  if s.data_mutex.Idle then
    some { s with writer := pc, data_mutex := s.data_mutex.lock .writer }
  else none

/-- `locker.unlock()`. -/
def State.unlockWriter (s : State n α) (pc : WriterPc α) : State n α :=
  { s with writer := pc, data_mutex := s.data_mutex.unlock }

def writerStep (s : State n α) : Option (State n α) :=
  match s.writer with
  | .fetching =>
      match s.file with
      | line :: rest => some { s with writer := .locking line, file := rest }
      | [] => some { s with writer := .returned }
  | .locking line => s.lockWriter (.testingMax line)
  | .testingMax line =>
      some { s with writer :=
        if max_size ≤ s.data_pool.length then .releasingMax line else .testingThreshold line }
  | .releasingMax line => some (s.unlockWriter (.relockingMax line))
  | .relockingMax line => s.lockWriter (.testingMax line)
  | .testingThreshold line =>
      some { s with writer :=
        if threshold ≤ s.data_pool.length then .releasingThreshold line else .pushing line }
  | .releasingThreshold line => some (s.unlockWriter (.relockingThreshold line))
  | .relockingThreshold line => s.lockWriter (.testingThreshold line)
  | .pushing line => some { s with writer := .unlocking, data_pool := s.data_pool ++ [line] }
  | .unlocking => some (s.unlockWriter .fetching)
  | .returned => none

def State.setReader (s : State n α) (i : Fin n) (pc : ReaderPc) : State n α :=
  { s with reader := Function.update s.reader i pc }

def readerStep (s : State n α) (i : Fin n) : Option (State n α) :=
  match s.reader i with
  | .locking =>
      if s.data_mutex.owner = none then
        some { s.setReader i .testing with data_mutex := s.data_mutex.lockShared (.reader i) }
      else none
  | .testing =>
      some (s.setReader i (if s.index i < s.data_pool.length then .printing else .unlocking))
  | .printing =>
      match s.data_pool[s.index i]? with
      | some line =>
          some { s.setReader i .unlocking with
            index := Function.update s.index i (s.index i + 1)
            out := Function.update s.out i (s.out i ++ [line]) }
      | none => none
  | .unlocking =>
      some { s.setReader i .locking with data_mutex := s.data_mutex.unlockShared (.reader i) }

def step (s : State n α) : Act n → Option (State n α)
  | .writer => writerStep s
  | .reader i => readerStep s i

def start (n : ℕ) (lines : List α) : State n α where
  writer := .fetching
  reader _ := .locking
  data_mutex := .free
  data_pool := []
  file := lines
  index _ := 0
  out _ := []

def program (n : ℕ) (lines : List α) : Machine (State n α) (Act n) where
  init := start n lines
  step := step

/-- The line that the writer has read and not pushed. -/
def WriterPc.held : WriterPc α → List α
  | .locking line => [line]
  | .testingMax line => [line]
  | .releasingMax line => [line]
  | .relockingMax line => [line]
  | .testingThreshold line => [line]
  | .releasingThreshold line => [line]
  | .relockingThreshold line => [line]
  | .pushing line => [line]
  | _ => []

def WriterPc.pushes : WriterPc α → Bool
  | .pushing _ => true
  | _ => false

/-- What a step can do to the pool, the file and the readers' places. The writer gets to a
push, and a reader to a print, only through the test of the size. -/
inductive Trans (s : State n α) : State n α → Prop
  | getline (line : α) (rest : List α) : s.writer = .fetching → s.file = line :: rest →
      Trans s { s with writer := .locking line, file := rest }
  | writer (pc : WriterPc α) (l : RwLock (Thread n)) : pc.held = s.writer.held →
      (pc.pushes → s.data_pool.length < threshold) →
      Trans s { s with writer := pc, data_mutex := l }
  | push (line : α) : s.writer = .pushing line →
      Trans s { s with writer := .unlocking, data_pool := s.data_pool ++ [line] }
  | reader (i : Fin n) (pc : ReaderPc) (l : RwLock (Thread n)) :
      Trans s { s.setReader i pc with data_mutex := l }
  | print (i : Fin n) (line : α) : s.data_pool[s.index i]? = some line →
      Trans s { s.setReader i .unlocking with
        index := Function.update s.index i (s.index i + 1)
        out := Function.update s.out i (s.out i ++ [line]) }

variable {s t : State n α}

theorem lockWriter_trans {pc : WriterPc α} (hheld : pc.held = s.writer.held)
    (hpush : pc.pushes = false) (h : s.lockWriter pc = some t) : Trans s t := by
  unfold State.lockWriter at h
  split at h
  · cases h
    exact .writer pc _ hheld (fun hp => by rw [hpush] at hp; cases hp)
  · cases h

theorem writerStep_trans (h : writerStep s = some t) : Trans s t := by
  unfold writerStep at h
  cases hpc : s.writer with
  | fetching =>
      simp only [hpc] at h
      split at h
      · rename_i line rest hfile
        cases h
        exact .getline line rest hpc hfile
      · cases h
        exact .writer .returned s.data_mutex (by rw [hpc]; rfl) nofun
  | locking line | relockingMax line | relockingThreshold line =>
      rw [hpc] at h
      exact lockWriter_trans (by rw [hpc]; rfl) rfl h
  | testingMax line =>
      rw [hpc] at h
      cases h
      refine .writer _ s.data_mutex ?_ ?_
      · rw [hpc]
        split <;> rfl
      · split <;> exact nofun
  | testingThreshold line =>
      rw [hpc] at h
      cases h
      refine .writer _ s.data_mutex ?_ ?_
      · rw [hpc]
        split <;> rfl
      · split
        · exact nofun
        · rename_i hlow
          exact fun _ => not_le.1 hlow
  | releasingMax line | releasingThreshold line =>
      rw [hpc] at h
      cases h
      exact .writer _ _ (by rw [hpc]; rfl) nofun
  | pushing line =>
      rw [hpc] at h
      cases h
      exact .push line hpc
  | unlocking =>
      rw [hpc] at h
      cases h
      exact .writer .fetching _ (by rw [hpc]; rfl) nofun
  | returned =>
      rw [hpc] at h
      cases h

theorem readerStep_trans {i : Fin n} (h : readerStep s i = some t) : Trans s t := by
  unfold readerStep at h
  cases hpc : s.reader i with
  | locking =>
      simp only [hpc] at h
      split at h
      · cases h
        exact .reader i _ _
      · cases h
  | testing =>
      simp only [hpc] at h
      cases h
      exact .reader i _ s.data_mutex
  | printing =>
      simp only [hpc] at h
      split at h
      · rename_i line hline
        cases h
        exact .print i line hline
      · cases h
  | unlocking =>
      simp only [hpc] at h
      cases h
      exact .reader i _ _

theorem step_trans {a : Act n} (h : step s a = some t) : Trans s t := by
  cases a with
  | writer => exact writerStep_trans h
  | reader i => exact readerStep_trans h

structure Inv (lines : List α) (s : State n α) : Prop where
  file : s.data_pool ++ (s.writer.held ++ s.file) = lines
  bounded : s.data_pool.length ≤ threshold
  room : s.writer.pushes → s.data_pool.length < threshold
  index_le : ∀ i, s.index i ≤ s.data_pool.length
  printed : ∀ i, s.out i = s.data_pool.take (s.index i)

variable {lines : List α}

theorem inv_start (lines : List α) : Inv lines (start n lines) where
  file := rfl
  bounded := Nat.zero_le _
  room := nofun
  index_le _ := Nat.zero_le _
  printed _ := rfl

/-- Pushing does not change what was printed. -/
theorem Inv.push (h : Inv lines s) {line : α} (hpc : s.writer = .pushing line) :
    Inv lines { s with writer := .unlocking, data_pool := s.data_pool ++ [line] } where
  file := by
    have hfile := h.file
    rw [hpc] at hfile
    rw [← hfile]
    simp [WriterPc.held]
  bounded := by
    have hroom := h.room (by rw [hpc]; rfl)
    rw [List.length_append, List.length_singleton]
    omega
  room := nofun
  index_le i := by
    have hle := h.index_le i
    dsimp only
    rw [List.length_append]
    omega
  printed i := by
    rw [List.take_append_of_le_length (h.index_le i)]
    exact h.printed i

theorem Inv.print (h : Inv lines s) {i : Fin n} {line : α}
    (hline : s.data_pool[s.index i]? = some line) :
    Inv lines { s.setReader i .unlocking with
      index := Function.update s.index i (s.index i + 1)
      out := Function.update s.out i (s.out i ++ [line]) } where
  file := h.file
  bounded := h.bounded
  room := h.room
  index_le j := by
    obtain ⟨hlt, -⟩ := List.getElem?_eq_some_iff.1 hline
    by_cases hj : j = i
    · subst j
      simp only [Function.update_self]
      exact hlt
    · simp only [Function.update_of_ne hj]
      exact h.index_le j
  printed j := by
    by_cases hj : j = i
    · subst j
      simp only [Function.update_self]
      rw [h.printed i, List.take_add_one]
      exact congrArg (s.data_pool.take (s.index i) ++ ·) (congrArg Option.toList hline).symm
    · simp only [Function.update_of_ne hj]
      exact h.printed j

theorem Inv.step (h : Inv lines s) (ht : Trans s t) : Inv lines t := by
  cases ht with
  | getline line rest hpc hfile =>
      refine { h with file := ?_, room := nofun }
      have hold := h.file
      rw [hpc, hfile] at hold
      exact hold
  | writer pc l hheld hpush =>
      refine { h with file := ?_, room := hpush }
      dsimp only
      rw [hheld]
      exact h.file
  | push line hpc => exact h.push hpc
  | reader i pc l => exact { h with }
  | print i line hline => exact h.print hline

end Londa.TinyRwc
