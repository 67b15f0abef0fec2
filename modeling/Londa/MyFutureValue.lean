import Londa.Machine
import Londa.Monitor
import Mathlib.Tactic.Simps.Basic

/-!
# Setting and getting the value of a shared future

Model of `MyFutureInner::set`, `move` and `copy` in `code/concurrent/MyFuture.cpp`,
called by any number of threads through `MyFuture::set` and `MyFuture::get` on
handles of one inner object. The content of `value_` is tracked by its origin:
default-initialised, stored by a numbered call of `set`, or what a `get(false)`
left behind when it moved the value out. `move` and `copy` test `value_set_` once
and wait without a loop, so a spurious wakeup goes on to read.

`completed` and `returned` are histories: the calls of `set` that have released
the mutex, and what every `get` has read, with the calls completed by then.
-/

namespace Londa.MyFutureValue

inductive Content (T : Type*)
  | default
  | stored (call : ℕ) (v : T)
  | remains
  deriving DecidableEq

inductive Pc (T : Type*)
  | idle
  | setLocking (v : T)
  | setHolding (v : T)
  | setStored (call : ℕ) (v : T)
  | setFlagged (call : ℕ) (v : T)
  | setNotified (call : ℕ) (v : T)
  | getLocking (copy : Bool)
  | getTest (copy : Bool)
  | getWaiting (copy : Bool)
  | getBlocked (copy : Bool)
  | getWoken (copy : Bool)
  | getReading (copy : Bool)
  | getReturning
  deriving DecidableEq

/-- What a `get` read, and the calls of `set` completed before. -/
structure Return (T : Type*) where
  content : Content T
  completed : List (ℕ × T)
  deriving DecidableEq

structure State (κ T : Type*) where
  mutex : Option κ
  value : Content T
  valueSet : Bool
  sets : ℕ
  pc : κ → Pc T
  completed : List (ℕ × T)
  returned : List (Return T)

inductive Act (κ T : Type*)
  | set (i : κ) (v : T)
  | get (i : κ) (copy : Bool)
  | thread (i : κ)
  | spurious (i : κ)

variable {κ T : Type*}

def condition : CondVar (Pc T) where
  blocked
    | .getBlocked _ => true
    | _ => false
  wake
    | .getBlocked copy => .getWoken copy
    | p => p
  wake_not_blocked p _ := by cases p <;> rfl

variable [DecidableEq κ]

@[simps] def State.setPc (s : State κ T) (i : κ) (p : Pc T) : State κ T :=
  { s with pc := Function.update s.pc i p }

/-- The next statement of a thread inside `set`, `move` or `copy`. -/
def threadStep (s : State κ T) (i : κ) : Option (State κ T) :=
  match s.pc i with
  | .idle => none
  | .setLocking v =>
      if s.mutex = none then some { s.setPc i (.setHolding v) with mutex := some i } else none
  | .setHolding v => some { s.setPc i (.setStored s.sets v) with
      value := .stored s.sets v, sets := s.sets + 1 }
  | .setStored k v => some { s.setPc i (.setFlagged k v) with valueSet := true }
  | .setFlagged k v => some { s with
      pc := Function.update (condition.notifyAll s.pc) i (.setNotified k v) }
  | .setNotified k v => some { s.setPc i .idle with
      mutex := none, completed := s.completed ++ [(k, v)] }
  | .getLocking copy =>
      if s.mutex = none then some { s.setPc i (.getTest copy) with mutex := some i } else none
  | .getTest copy =>
      if s.valueSet then some (s.setPc i (.getReading copy))
      else some (s.setPc i (.getWaiting copy))
  | .getWaiting copy => some { s.setPc i (.getBlocked copy) with mutex := none }
  | .getBlocked _ => none
  | .getWoken copy =>
      if s.mutex = none then some { s.setPc i (.getReading copy) with mutex := some i } else none
  | .getReading copy => some { s.setPc i .getReturning with
      value := if copy then s.value else .remains,
      returned := s.returned ++ [⟨s.value, s.completed⟩] }
  | .getReturning => some { s.setPc i .idle with mutex := none }

def step (s : State κ T) : Act κ T → Option (State κ T)
  | .set i v =>
      match s.pc i with
      | .idle => some (s.setPc i (.setLocking v))
      | _ => none
  | .get i copy =>
      match s.pc i with
      | .idle => some (s.setPc i (.getLocking copy))
      | _ => none
  | .thread i => threadStep s i
  | .spurious i =>
      match s.pc i with
      | .getBlocked copy => some (s.setPc i (.getWoken copy))
      | _ => none

def future (κ T : Type*) [DecidableEq κ] : Machine (State κ T) (Act κ T) where
  init :=
    { mutex := none, value := .default, valueSet := false, sets := 0, pc := fun _ => .idle,
      completed := [], returned := [] }
  step := step

inductive Trans (s : State κ T) : Act κ T → State κ T → Prop
  | set (i : κ) (v : T) (hpc : s.pc i = .idle) : Trans s (.set i v) (s.setPc i (.setLocking v))
  | get (i : κ) (copy : Bool) (hpc : s.pc i = .idle) :
      Trans s (.get i copy) (s.setPc i (.getLocking copy))
  | spurious (i : κ) (copy : Bool) (hpc : s.pc i = .getBlocked copy) :
      Trans s (.spurious i) (s.setPc i (.getWoken copy))
  | lockSet (i : κ) (v : T) (hpc : s.pc i = .setLocking v) (hfree : s.mutex = none) :
      Trans s (.thread i) { s.setPc i (.setHolding v) with mutex := some i }
  | store (i : κ) (v : T) (hpc : s.pc i = .setHolding v) :
      Trans s (.thread i) { s.setPc i (.setStored s.sets v) with
        value := .stored s.sets v, sets := s.sets + 1 }
  | flag (i : κ) (k : ℕ) (v : T) (hpc : s.pc i = .setStored k v) :
      Trans s (.thread i) { s.setPc i (.setFlagged k v) with valueSet := true }
  | notify (i : κ) (k : ℕ) (v : T) (hpc : s.pc i = .setFlagged k v) :
      Trans s (.thread i) { s with
        pc := Function.update (condition.notifyAll s.pc) i (.setNotified k v) }
  | complete (i : κ) (k : ℕ) (v : T) (hpc : s.pc i = .setNotified k v) :
      Trans s (.thread i) { s.setPc i .idle with
        mutex := none, completed := s.completed ++ [(k, v)] }
  | lockGet (i : κ) (copy : Bool) (hpc : s.pc i = .getLocking copy) (hfree : s.mutex = none) :
      Trans s (.thread i) { s.setPc i (.getTest copy) with mutex := some i }
  | pass (i : κ) (copy : Bool) (hpc : s.pc i = .getTest copy) (hf : s.valueSet = true) :
      Trans s (.thread i) (s.setPc i (.getReading copy))
  | wait (i : κ) (copy : Bool) (hpc : s.pc i = .getTest copy) (hf : s.valueSet = false) :
      Trans s (.thread i) (s.setPc i (.getWaiting copy))
  | block (i : κ) (copy : Bool) (hpc : s.pc i = .getWaiting copy) :
      Trans s (.thread i) { s.setPc i (.getBlocked copy) with mutex := none }
  | relock (i : κ) (copy : Bool) (hpc : s.pc i = .getWoken copy) (hfree : s.mutex = none) :
      Trans s (.thread i) { s.setPc i (.getReading copy) with mutex := some i }
  | read (i : κ) (copy : Bool) (hpc : s.pc i = .getReading copy) :
      Trans s (.thread i) { s.setPc i .getReturning with
        value := if copy then s.value else .remains,
        returned := s.returned ++ [⟨s.value, s.completed⟩] }
  | leave (i : κ) (hpc : s.pc i = .getReturning) :
      Trans s (.thread i) { s.setPc i .idle with mutex := none }

theorem threadStep_trans {s t : State κ T} {i : κ} (h : threadStep s i = some t) :
    Trans s (.thread i) t := by
  unfold threadStep at h
  split at h
  case h_1 => cases h
  case h_2 v hpc =>
    split_ifs at h with hfree
    exact Option.some.inj h ▸ .lockSet i v hpc hfree
  case h_3 v hpc => exact Option.some.inj h ▸ .store i v hpc
  case h_4 k v hpc => exact Option.some.inj h ▸ .flag i k v hpc
  case h_5 k v hpc => exact Option.some.inj h ▸ .notify i k v hpc
  case h_6 k v hpc => exact Option.some.inj h ▸ .complete i k v hpc
  case h_7 copy hpc =>
    split_ifs at h with hfree
    exact Option.some.inj h ▸ .lockGet i copy hpc hfree
  case h_8 copy hpc =>
    split_ifs at h with hf
    · exact Option.some.inj h ▸ .pass i copy hpc hf
    · exact Option.some.inj h ▸ .wait i copy hpc (by simpa using hf)
  case h_9 copy hpc => exact Option.some.inj h ▸ .block i copy hpc
  case h_10 => cases h
  case h_11 copy hpc =>
    split_ifs at h with hfree
    exact Option.some.inj h ▸ .relock i copy hpc hfree
  case h_12 copy hpc => exact Option.some.inj h ▸ .read i copy hpc
  case h_13 hpc => exact Option.some.inj h ▸ .leave i hpc

theorem step_trans {s t : State κ T} {a : Act κ T} (h : (future κ T).step s a = some t) :
    Trans s a t := by
  change step s a = some t at h
  cases a with
  | set i v =>
      simp only [step] at h
      split at h
      case h_1 hpc => exact Option.some.inj h ▸ .set i v hpc
      case h_2 => cases h
  | get i copy =>
      simp only [step] at h
      split at h
      case h_1 hpc => exact Option.some.inj h ▸ .get i copy hpc
      case h_2 => cases h
  | thread i => exact threadStep_trans h
  | spurious i =>
      simp only [step] at h
      split at h
      case h_1 copy hpc => exact Option.some.inj h ▸ .spurious i copy hpc
      case h_2 => cases h

end Londa.MyFutureValue
