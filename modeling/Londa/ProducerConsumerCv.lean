import Londa.Machine
import Londa.Monitor
import Londa.Int32

/-!
# Producer and consumer with a wait predicate

Model of `producer` and `consumer` in `code/concurrent/1p1c_cv.cpp`. The producer
appends batches of eight values under `protecter` and wakes the consumer when the pool
holds a hundred; how many batches it makes depends on the clock, so the end of its loop
is an action of the environment. Then it stores `end_flag` and notifies without the
lock. The consumer tests the flag at the head of its loop, in the predicate of `cv.wait`
and once more before it takes a batch. `batch_size` is an `int`, so the size of the pool
is wrapped when it is stored there. No step takes a batch that the pool does not hold.
-/

namespace Londa.ProducerConsumerCv

inductive Thread
  | producer
  | consumer
  deriving DecidableEq

inductive ProducerPc (α : Type*)
  | loop
  | locking (data_stage : Vector α 8)
  | copying (data_stage : Vector α 8)
  | checking
  | unlocking
  | storing
  | notifying
  | returned
  deriving DecidableEq

inductive ConsumerPc
  | loop
  | locking
  | testing
  | waiting
  | blocked
  | relocking
  | checking
  | erasing
  | unlocking
  | returned
  deriving DecidableEq

structure State (α : Type*) where
  producer : ProducerPc α
  consumer : ConsumerPc
  protecter : Option Thread
  data_pool : List α
  end_flag : Bool
  batch_size : ℤ
  produced : List α
  consumed : List α

inductive Act (α : Type*)
  | produce (data_stage : Vector α 8)
  | finish
  | producer
  | consumer
  | spurious

variable {α : Type*}

/-- The steps that a thread takes by itself. -/
def Act.ofThread : Act α → Bool
  | .spurious => false
  | _ => true

/-- `cv.notify_one()`; the consumer is the only thread that waits. -/
def notifyOne : ConsumerPc → ConsumerPc
  | .blocked => .relocking
  | pc => pc

def predicate (s : State α) : Bool := 100 ≤ s.data_pool.length || s.end_flag

def producerStep (s : State α) : Option (State α) :=
  match s.producer with
  | .loop => none
  | .locking data_stage =>
      if s.protecter = none then
        some { s with producer := .copying data_stage, protecter := some .producer }
      else none
  | .copying data_stage =>
      some { s with
        producer := .checking
        data_pool := s.data_pool ++ data_stage.toList
        produced := s.produced ++ data_stage.toList }
  | .checking =>
      if 100 ≤ s.data_pool.length then
        some { s with producer := .unlocking, consumer := notifyOne s.consumer }
      else some { s with producer := .unlocking }
  | .unlocking => some { s with producer := .loop, protecter := none }
  | .storing => some { s with producer := .notifying, end_flag := true }
  | .notifying => some { s with producer := .returned, consumer := notifyOne s.consumer }
  | .returned => none

def consumerStep (s : State α) : Option (State α) :=
  match s.consumer with
  | .loop => some { s with consumer := if s.end_flag then .returned else .locking }
  | .locking | .relocking =>
      if s.protecter = none then
        some { s with consumer := .testing, protecter := some .consumer }
      else none
  | .testing => some { s with consumer := if predicate s then .checking else .waiting }
  | .waiting => some { s with consumer := .blocked, protecter := none }
  | .blocked => none
  | .checking =>
      some { s with
        consumer := .erasing
        batch_size := if s.end_flag then int32 s.data_pool.length else s.batch_size }
  | .erasing =>
      if 0 ≤ s.batch_size ∧ s.batch_size ≤ s.data_pool.length then
        some { s with
          consumer := .unlocking
          data_pool := s.data_pool.drop s.batch_size.toNat
          consumed := s.consumed ++ s.data_pool.take s.batch_size.toNat }
      else none
  | .unlocking => some { s with consumer := .loop, protecter := none }
  | .returned => none

def step (s : State α) (a : Act α) : Option (State α) :=
  match a with
  | .produce data_stage =>
      match s.producer with
      | .loop => some { s with producer := .locking data_stage }
      | _ => none
  | .finish =>
      match s.producer with
      | .loop => some { s with producer := .storing }
      | _ => none
  | .producer => producerStep s
  | .consumer => consumerStep s
  | .spurious =>
      if s.consumer = .blocked then some { s with consumer := .relocking } else none

def start : State α where
  producer := .loop
  consumer := .loop
  protecter := none
  data_pool := []
  end_flag := false
  batch_size := 100
  produced := []
  consumed := []

def program : Machine (State α) (Act α) where
  init := start
  step := step

/-- What a step can do. -/
inductive Trans (s : State α) : Act α → State α → Prop
  | produce (data_stage : Vector α 8) : s.producer = .loop →
      Trans s (.produce data_stage) { s with producer := .locking data_stage }
  | finish : s.producer = .loop → Trans s .finish { s with producer := .storing }
  | lock (data_stage : Vector α 8) : s.producer = .locking data_stage → s.protecter = none →
      Trans s .producer { s with producer := .copying data_stage, protecter := some .producer }
  | copy (data_stage : Vector α 8) : s.producer = .copying data_stage →
      Trans s .producer { s with
        producer := .checking
        data_pool := s.data_pool ++ data_stage.toList
        produced := s.produced ++ data_stage.toList }
  | wakeUp : s.producer = .checking → 100 ≤ s.data_pool.length →
      Trans s .producer { s with producer := .unlocking, consumer := notifyOne s.consumer }
  | tooFew : s.producer = .checking → s.data_pool.length < 100 →
      Trans s .producer { s with producer := .unlocking }
  | unlock : s.producer = .unlocking →
      Trans s .producer { s with producer := .loop, protecter := none }
  | store : s.producer = .storing →
      Trans s .producer { s with producer := .notifying, end_flag := true }
  | notify : s.producer = .notifying →
      Trans s .producer { s with producer := .returned, consumer := notifyOne s.consumer }
  | leave : s.consumer = .loop → s.end_flag = true →
      Trans s .consumer { s with consumer := .returned }
  | enter : s.consumer = .loop → s.end_flag = false →
      Trans s .consumer { s with consumer := .locking }
  | lockConsumer : s.consumer = .locking ∨ s.consumer = .relocking → s.protecter = none →
      Trans s .consumer { s with consumer := .testing, protecter := some .consumer }
  | goOn : s.consumer = .testing → predicate s = true →
      Trans s .consumer { s with consumer := .checking }
  | wait : s.consumer = .testing → predicate s = false →
      Trans s .consumer { s with consumer := .waiting }
  | block : s.consumer = .waiting →
      Trans s .consumer { s with consumer := .blocked, protecter := none }
  | check : s.consumer = .checking →
      Trans s .consumer { s with
        consumer := .erasing
        batch_size := if s.end_flag then int32 s.data_pool.length else s.batch_size }
  | erase : s.consumer = .erasing → 0 ≤ s.batch_size → s.batch_size ≤ s.data_pool.length →
      Trans s .consumer { s with
        consumer := .unlocking
        data_pool := s.data_pool.drop s.batch_size.toNat
        consumed := s.consumed ++ s.data_pool.take s.batch_size.toNat }
  | unlockConsumer : s.consumer = .unlocking →
      Trans s .consumer { s with consumer := .loop, protecter := none }
  | spurious : s.consumer = .blocked → Trans s .spurious { s with consumer := .relocking }

variable {s t : State α}

theorem producerStep_trans (h : producerStep s = some t) : Trans s .producer t := by
  unfold producerStep at h
  cases hpc : s.producer with
  | loop | returned => simp [hpc] at h
  | locking data_stage =>
      simp only [hpc] at h
      split at h
      · rename_i hfree
        cases h
        exact .lock data_stage hpc hfree
      · cases h
  | copying data_stage =>
      simp only [hpc] at h
      cases h
      exact .copy data_stage hpc
  | checking =>
      simp only [hpc] at h
      split at h
      · rename_i hmany
        cases h
        exact .wakeUp hpc hmany
      · rename_i hfew
        cases h
        exact .tooFew hpc (not_le.1 hfew)
  | unlocking =>
      simp only [hpc] at h
      cases h
      exact .unlock hpc
  | storing =>
      simp only [hpc] at h
      cases h
      exact .store hpc
  | notifying =>
      simp only [hpc] at h
      cases h
      exact .notify hpc

theorem consumerStep_trans (h : consumerStep s = some t) : Trans s .consumer t := by
  unfold consumerStep at h
  cases hpc : s.consumer with
  | blocked | returned => simp [hpc] at h
  | loop =>
      simp only [hpc] at h
      cases h
      by_cases hflag : s.end_flag = true
      · rw [if_pos hflag]
        exact .leave hpc hflag
      · rw [if_neg hflag]
        exact .enter hpc (by simpa using hflag)
  | locking =>
      simp only [hpc] at h
      split at h
      · rename_i hfree
        cases h
        exact .lockConsumer (Or.inl hpc) hfree
      · cases h
  | relocking =>
      simp only [hpc] at h
      split at h
      · rename_i hfree
        cases h
        exact .lockConsumer (Or.inr hpc) hfree
      · cases h
  | testing =>
      simp only [hpc] at h
      cases h
      by_cases hpred : predicate s = true
      · rw [if_pos hpred]
        exact .goOn hpc hpred
      · rw [if_neg hpred]
        exact .wait hpc (by simpa using hpred)
  | waiting =>
      simp only [hpc] at h
      cases h
      exact .block hpc
  | checking =>
      simp only [hpc] at h
      cases h
      exact .check hpc
  | erasing =>
      simp only [hpc] at h
      split at h
      · rename_i hfits
        cases h
        exact .erase hpc hfits.1 hfits.2
      · cases h
  | unlocking =>
      simp only [hpc] at h
      cases h
      exact .unlockConsumer hpc

theorem step_trans {a : Act α} (h : step s a = some t) : Trans s a t := by
  cases a with
  | produce data_stage =>
      cases hpc : s.producer <;> simp only [step, hpc] at h <;> cases h
      exact .produce data_stage hpc
  | finish =>
      cases hpc : s.producer <;> simp only [step, hpc] at h <;> cases h
      exact .finish hpc
  | producer => exact producerStep_trans h
  | consumer => exact consumerStep_trans h
  | spurious =>
      simp only [step] at h
      split at h
      · rename_i hpc
        cases h
        exact .spurious hpc
      · cases h

/-- Neither thread can take a step. -/
def Stuck (s : State α) : Prop := ∀ a : Act α, a.ofThread → step s a = none

end Londa.ProducerConsumerCv
