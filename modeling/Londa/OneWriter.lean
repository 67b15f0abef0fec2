import Londa.Machine
import Londa.RwLock
import Londa.Int32

/-!
# One writer and many readers of a list

Model of `writer`, `reader` and `clear` in `code/concurrent/1w_nr.cpp`. The writer moves
the lines of the file to `data_list`, every reader copies the head of the list each time
its wait on `has_data` ends, and the cleaner removes the head when `aready_read` has
reached `reader_count`. Each access to the shared data is a step. The readers' section
under `new_data_protecter` does nothing but print, and nobody waits on `has_new_data`.
`front` and `pop_front` on an empty list are undefined: `fault` records such a call and no
step is taken after it.

`copied` and `popped` are histories: the readers that have copied the current head since
it became the head, and the lines removed so far.
-/

namespace Londa.OneWriter

inductive Thread (n : ℕ)
  | writer
  | reader (i : Fin n)
  | cleaner
  deriving DecidableEq

/-- The `Bool` tells whether the writer's `locker` owns `data_protecter`. -/
inductive WriterPc (α : Type*)
  | fetching
  | locking (data : α)
  | sizing (data : α)
  | releasing (data : α) (size : ℤ)
  | alarming (data : α) (size : ℤ) (owns : Bool)
  | pushing (data : α) (size : ℤ) (owns : Bool)
  | notifying (owns : Bool)
  | unlocking (owns : Bool)
  | ending
  | returned
  deriving DecidableEq

inductive ReaderPc (α : Type*)
  | loop
  | locking
  | waiting
  | blocked
  | woken
  | copying
  | counting (data : α)
  | unlocking (data : α)
  | writing (data : α)
  | notifying
  | pausing
  | returned
  deriving DecidableEq

inductive CleanerPc
  | locking
  | testing
  | waiting
  | blocked
  | woken
  | storing
  | popping
  | checking
  | unlocking
  | asking
  | alerting
  | leaving
  | ending
  | returned
  deriving DecidableEq

structure State (n : ℕ) (α : Type*) where
  writer : WriterPc α
  reader : Fin n → ReaderPc α
  cleaner : CleanerPc
  data_protecter : RwLock (Thread n)
  data_list : List α
  aready_read : ℤ
  write_end_flag : Bool
  clear_end_flag : Bool
  in_file : List α
  out_file : Fin n → List α
  fault : Bool
  copied : Fin n → Bool
  popped : List α

inductive Act (n : ℕ)
  | writer
  | reader (i : Fin n)
  | cleaner
  | wakeReader (i : Fin n)
  | wakeCleaner
  deriving DecidableEq

variable {n : ℕ} {α : Type*}

def warn_threshhold : ℤ := 70

def critical_threashhold : ℤ := 90

def has_data : CondVar (ReaderPc α) where
  blocked
    | .blocked => true
    | _ => false
  wake _ := .woken
  wake_not_blocked _ _ := rfl

/-- `clear_data.notify_one()`; the cleaner is the only thread that waits. -/
def notifyCleaner : CleanerPc → CleanerPc
  | .blocked => .woken
  | pc => pc

/-- The three branches on the size that the writer has read. -/
def afterSize (data : α) (size : ℤ) : WriterPc α :=
  if warn_threshhold ≤ size then .releasing data size
  else if critical_threashhold ≤ size then .alarming data size true
  else .pushing data size true

def writerStep (s : State n α) : Option (State n α) :=
  match s.writer with
  | .fetching =>
      match s.in_file with
      | data :: rest => some { s with writer := .locking data, in_file := rest }
      | [] => some { s with writer := .ending }
  | .locking data =>
      if s.data_protecter.Idle then
        some { s with writer := .sizing data, data_protecter := s.data_protecter.lock .writer }
      else none
  | .sizing data => some { s with writer := afterSize data (int32 s.data_list.length) }
  | .releasing data size =>
      some { s with
        writer := .alarming data size false
        data_protecter := s.data_protecter.unlock }
  | .alarming data size owns =>
      some { s with writer := .pushing data size owns, reader := has_data.notifyAll s.reader }
  | .pushing data _ owns =>
      some { s with writer := .notifying owns, data_list := s.data_list ++ [data] }
  | .notifying owns =>
      some { s with writer := .unlocking owns, reader := has_data.notifyAll s.reader }
  | .unlocking owns =>
      some { s with
        writer := .fetching
        data_protecter := if owns then s.data_protecter.unlock else s.data_protecter }
  | .ending => some { s with writer := .returned, write_end_flag := true }
  | .returned => none

def State.setReader (s : State n α) (i : Fin n) (pc : ReaderPc α) : State n α :=
  { s with reader := Function.update s.reader i pc }

def readerStep (s : State n α) (i : Fin n) : Option (State n α) :=
  match s.reader i with
  | .loop => some (s.setReader i (if s.clear_end_flag then .returned else .locking))
  | .locking =>
      if s.data_protecter.owner = none then
        some { s.setReader i .waiting with
          data_protecter := s.data_protecter.lockShared (.reader i) }
      else none
  | .waiting =>
      some { s.setReader i .blocked with
        data_protecter := s.data_protecter.unlockShared (.reader i) }
  | .blocked => none
  | .woken =>
      if s.data_protecter.owner = none then
        some { s.setReader i .copying with
          data_protecter := s.data_protecter.lockShared (.reader i) }
      else none
  | .copying =>
      match s.data_list with
      | data :: _ =>
          some { s.setReader i (.counting data) with copied := Function.update s.copied i true }
      | [] => some { s with fault := true }
  | .counting data =>
      some { s.setReader i (.unlocking data) with aready_read := int32 (s.aready_read + 1) }
  | .unlocking data =>
      some { s.setReader i (.writing data) with
        data_protecter := s.data_protecter.unlockShared (.reader i) }
  | .writing data =>
      some { s.setReader i .notifying with
        out_file := Function.update s.out_file i (s.out_file i ++ [data]) }
  | .notifying => some { s.setReader i .pausing with cleaner := notifyCleaner s.cleaner }
  | .pausing => some (s.setReader i .loop)
  | .returned => none

def clearStep (reader_count : ℤ) (s : State n α) : Option (State n α) :=
  match s.cleaner with
  | .locking | .woken =>
      if s.data_protecter.Idle then
        some { s with cleaner := .testing, data_protecter := s.data_protecter.lock .cleaner }
      else none
  | .testing =>
      some { s with cleaner := if s.aready_read = reader_count then .storing else .waiting }
  | .waiting => some { s with cleaner := .blocked, data_protecter := s.data_protecter.unlock }
  | .blocked => none
  | .storing => some { s with cleaner := .popping, aready_read := 0 }
  | .popping =>
      match s.data_list with
      | data :: rest =>
          some { s with
            cleaner := .checking
            data_list := rest
            copied := fun _ => false
            popped := s.popped ++ [data] }
      | [] => some { s with fault := true }
  | .checking => some { s with cleaner := if s.data_list = [] then .leaving else .unlocking }
  | .unlocking => some { s with cleaner := .asking, data_protecter := s.data_protecter.unlock }
  | .asking => some { s with cleaner := if s.write_end_flag then .alerting else .locking }
  | .alerting => some { s with cleaner := .locking, reader := has_data.notifyAll s.reader }
  | .leaving => some { s with cleaner := .ending, data_protecter := s.data_protecter.unlock }
  | .ending => some { s with cleaner := .returned, clear_end_flag := true }
  | .returned => none

def step (reader_count : ℤ) (s : State n α) (a : Act n) : Option (State n α) :=
  if s.fault then none
  else match a with
    | .writer => writerStep s
    | .reader i => readerStep s i
    | .cleaner => clearStep reader_count s
    | .wakeReader i =>
        if has_data.blocked (s.reader i) then some (s.setReader i .woken) else none
    | .wakeCleaner =>
        if s.cleaner = .blocked then some { s with cleaner := .woken } else none

def start (n : ℕ) (lines : List α) : State n α where
  writer := .fetching
  reader _ := .loop
  cleaner := .locking
  data_protecter := .free
  data_list := []
  aready_read := 0
  write_end_flag := false
  clear_end_flag := false
  in_file := lines
  out_file _ := []
  fault := false
  copied _ := false
  popped := []

/-- `main` starts the writer, the cleaner and `reader_count` readers, none if it is
negative. -/
def program (reader_count : ℤ) (lines : List α) : Machine (State reader_count.toNat α)
    (Act reader_count.toNat) where
  init := start reader_count.toNat lines
  step := step reader_count

end Londa.OneWriter
