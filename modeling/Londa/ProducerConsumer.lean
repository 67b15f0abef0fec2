import Londa.ProducerConsumerCvDrain

/-!
# Producer and consumer without a wait predicate

Model of `producer` and `consumer` in `code/concurrent/1p1c.cpp`. The producer is the one of
`1p1c_cv.cpp`. The consumer calls `cv.wait` without a predicate and takes a batch whenever it
wakes up with `end_flag` down, whatever the pool holds; after the flag it takes what is left,
without the lock. A batch that the pool does not hold is not taken: the state stays at
`erasing`.

What a wakeup is worth is known only from its cause. A notification of the producer is sent
with a full batch in the pool or with the flag up; a spurious wakeup says nothing, and the
last notification is lost on a consumer that does not wait yet.
-/

namespace Londa.ProducerConsumer

open ProducerConsumerCv (Thread ProducerPc)

inductive ConsumerPc
  | locking
  | waiting
  | blocked
  | relocking
  | checking
  | erasing
  | unlocking
  | leaving
  | draining
  | returned
  deriving DecidableEq

def batch_size : ℕ := 100

structure State (α : Type*) where
  producer : ProducerPc α
  consumer : ConsumerPc
  protecter : Option Thread
  data_pool : List α
  end_flag : Bool

inductive Act (α : Type*)
  | produce (data_stage : Vector α 8)
  | finish
  | producer
  | consumer
  | spurious

variable {α : Type*}

/-- The steps that a thread takes by itself. -/
def Act.ofThread : Act α → Bool
  | .spurious => false
  | _ => true

/-- `cv.notify_one()`; the consumer is the only thread that waits. -/
def notifyOne : ConsumerPc → ConsumerPc
  | .blocked => .relocking
  | pc => pc

def producerStep (s : State α) : Option (State α) :=
  match s.producer with
  | .loop => none
  | .locking data_stage =>
      if s.protecter = none then
        some { s with producer := .copying data_stage, protecter := some .producer }
      else none
  | .copying data_stage =>
      some { s with producer := .checking, data_pool := s.data_pool ++ data_stage.toList }
  | .checking =>
      if 100 ≤ s.data_pool.length then
        some { s with producer := .unlocking, consumer := notifyOne s.consumer }
      else some { s with producer := .unlocking }
  | .unlocking => some { s with producer := .loop, protecter := none }
  | .storing => some { s with producer := .notifying, end_flag := true }
  | .notifying => some { s with producer := .returned, consumer := notifyOne s.consumer }
  | .returned => none

def consumerStep (s : State α) : Option (State α) :=
  match s.consumer with
  | .locking =>
      if s.protecter = none then
        some { s with consumer := .waiting, protecter := some .consumer }
      else none
  | .waiting => some { s with consumer := .blocked, protecter := none }
  | .blocked => none
  | .relocking =>
      if s.protecter = none then
        some { s with consumer := .checking, protecter := some .consumer }
      else none
  | .checking => some { s with consumer := if s.end_flag then .leaving else .erasing }
  | .erasing =>
      if batch_size ≤ s.data_pool.length then
        some { s with consumer := .unlocking, data_pool := s.data_pool.drop batch_size }
      else none
  | .unlocking => some { s with consumer := .locking, protecter := none }
  | .leaving => some { s with consumer := .draining, protecter := none }
  | .draining =>
      some { s with
        consumer := .returned
        data_pool := if s.data_pool.length ≠ 0 then [] else s.data_pool }
  | .returned => none

def step (s : State α) (a : Act α) : Option (State α) :=
  match a with
  | .produce data_stage =>
      match s.producer with
      | .loop => some { s with producer := .locking data_stage }
      | _ => none
  | .finish =>
      match s.producer with
      | .loop => some { s with producer := .storing }
      | _ => none
  | .producer => producerStep s
  | .consumer => consumerStep s
  | .spurious =>
      if s.consumer = .blocked then some { s with consumer := .relocking } else none

def start : State α where
  producer := .loop
  consumer := .locking
  protecter := none
  data_pool := []
  end_flag := false

def program : Machine (State α) (Act α) where
  init := start
  step := step

/-- What a step can do. -/
inductive Trans (s : State α) : Act α → State α → Prop
  | produce (data_stage : Vector α 8) : s.producer = .loop →
      Trans s (.produce data_stage) { s with producer := .locking data_stage }
  | finish : s.producer = .loop → Trans s .finish { s with producer := .storing }
  | lock (data_stage : Vector α 8) : s.producer = .locking data_stage → s.protecter = none →
      Trans s .producer { s with producer := .copying data_stage, protecter := some .producer }
  | copy (data_stage : Vector α 8) : s.producer = .copying data_stage →
      Trans s .producer { s with
        producer := .checking
        data_pool := s.data_pool ++ data_stage.toList }
  | wakeUp : s.producer = .checking → 100 ≤ s.data_pool.length →
      Trans s .producer { s with producer := .unlocking, consumer := notifyOne s.consumer }
  | tooFew : s.producer = .checking → s.data_pool.length < 100 →
      Trans s .producer { s with producer := .unlocking }
  | unlock : s.producer = .unlocking →
      Trans s .producer { s with producer := .loop, protecter := none }
  | store : s.producer = .storing →
      Trans s .producer { s with producer := .notifying, end_flag := true }
  | notify : s.producer = .notifying →
      Trans s .producer { s with producer := .returned, consumer := notifyOne s.consumer }
  | lockConsumer : s.consumer = .locking → s.protecter = none →
      Trans s .consumer { s with consumer := .waiting, protecter := some .consumer }
  | wait : s.consumer = .waiting →
      Trans s .consumer { s with consumer := .blocked, protecter := none }
  | relock : s.consumer = .relocking → s.protecter = none →
      Trans s .consumer { s with consumer := .checking, protecter := some .consumer }
  | leave : s.consumer = .checking → s.end_flag = true →
      Trans s .consumer { s with consumer := .leaving }
  | goOn : s.consumer = .checking → s.end_flag = false →
      Trans s .consumer { s with consumer := .erasing }
  | erase : s.consumer = .erasing → batch_size ≤ s.data_pool.length →
      Trans s .consumer { s with
        consumer := .unlocking
        data_pool := s.data_pool.drop batch_size }
  | unlockConsumer : s.consumer = .unlocking →
      Trans s .consumer { s with consumer := .locking, protecter := none }
  | unlockLeaving : s.consumer = .leaving →
      Trans s .consumer { s with consumer := .draining, protecter := none }
  | drain : s.consumer = .draining →
      Trans s .consumer { s with consumer := .returned, data_pool := [] }
  | spurious : s.consumer = .blocked → Trans s .spurious { s with consumer := .relocking }

variable {s t : State α} {a : Act α}

theorem producerStep_trans (h : producerStep s = some t) : Trans s .producer t := by
  unfold producerStep at h
  cases hpc : s.producer with
  | loop | returned => simp [hpc] at h
  | locking data_stage =>
      simp only [hpc] at h
      split at h
      · rename_i hfree
        cases h
        exact .lock data_stage hpc hfree
      · cases h
  | copying data_stage =>
      simp only [hpc] at h
      cases h
      exact .copy data_stage hpc
  | checking =>
      simp only [hpc] at h
      split at h
      · rename_i hmany
        cases h
        exact .wakeUp hpc hmany
      · rename_i hfew
        cases h
        exact .tooFew hpc (not_le.1 hfew)
  | unlocking =>
      simp only [hpc] at h
      cases h
      exact .unlock hpc
  | storing =>
      simp only [hpc] at h
      cases h
      exact .store hpc
  | notifying =>
      simp only [hpc] at h
      cases h
      exact .notify hpc

theorem consumerStep_trans (h : consumerStep s = some t) : Trans s .consumer t := by
  unfold consumerStep at h
  cases hpc : s.consumer with
  | blocked | returned => simp [hpc] at h
  | locking =>
      simp only [hpc] at h
      split at h
      · rename_i hfree
        cases h
        exact .lockConsumer hpc hfree
      · cases h
  | waiting =>
      simp only [hpc] at h
      cases h
      exact .wait hpc
  | relocking =>
      simp only [hpc] at h
      split at h
      · rename_i hfree
        cases h
        exact .relock hpc hfree
      · cases h
  | checking =>
      simp only [hpc] at h
      cases h
      by_cases hflag : s.end_flag = true
      · rw [if_pos hflag]
        exact .leave hpc hflag
      · rw [if_neg hflag]
        exact .goOn hpc (by simpa using hflag)
  | erasing =>
      simp only [hpc] at h
      split at h
      · rename_i hfits
        cases h
        exact .erase hpc hfits
      · cases h
  | unlocking =>
      simp only [hpc] at h
      cases h
      exact .unlockConsumer hpc
  | leaving =>
      simp only [hpc] at h
      cases h
      exact .unlockLeaving hpc
  | draining =>
      have hempty : (if s.data_pool.length ≠ 0 then [] else s.data_pool) = [] := by
        split
        · rfl
        · rename_i hzero
          exact List.length_eq_zero_iff.1 (not_not.1 hzero)
      simp only [hpc, hempty] at h
      cases h
      exact .drain hpc

theorem step_trans (h : step s a = some t) : Trans s a t := by
  cases a with
  | produce data_stage =>
      cases hpc : s.producer <;> simp only [step, hpc] at h <;> cases h
      exact .produce data_stage hpc
  | finish =>
      cases hpc : s.producer <;> simp only [step, hpc] at h <;> cases h
      exact .finish hpc
  | producer => exact producerStep_trans h
  | consumer => exact consumerStep_trans h
  | spurious =>
      simp only [step] at h
      split at h
      · rename_i hpc
        cases h
        exact .spurious hpc
      · cases h

/-- Neither thread can take a step. -/
def Stuck (s : State α) : Prop := ∀ a : Act α, a.ofThread → step s a = none

/-- A hundred values are there whenever a batch is taken. -/
def FullBatch (s : State α) : Prop := s.consumer = .erasing → batch_size ≤ s.data_pool.length

/-- Both functions have returned and the pool is empty. -/
def EndsCleanly (s : State α) : Prop :=
  s.producer = .returned ∧ s.consumer = .returned ∧ s.data_pool = []

/-- The consumer will not wait again once the flag is up. -/
def ConsumerPc.ending : ConsumerPc → Bool
  | .relocking | .checking | .leaving | .draining | .returned => true
  | .locking | .waiting | .blocked | .erasing | .unlocking => false

/-- A spurious wakeup comes when there is something to take or the flag is up, and the last
notification finds the consumer blocked or past its last wait. -/
def Timely (s : State α) : Act α → Prop
  | .spurious => batch_size ≤ s.data_pool.length ∨ s.end_flag = true
  | .producer => s.producer = .notifying → s.consumer = .blocked ∨ s.consumer.ending = true
  | _ => True

instance [DecidableEq α] (s : State α) : DecidablePred (Timely s)
  | .spurious =>
      inferInstanceAs (Decidable (batch_size ≤ s.data_pool.length ∨ s.end_flag = true))
  | .producer => inferInstanceAs (Decidable
      (s.producer = .notifying → s.consumer = .blocked ∨ s.consumer.ending = true))
  | .produce _ | .finish | .consumer => isTrue trivial

/-- What is known wherever the consumer is awake. -/
structure Inv (s : State α) : Prop where
  flag : s.end_flag = true ↔ s.producer = .notifying ∨ s.producer = .returned
  woken : s.consumer = .relocking ∨ s.consumer = .checking →
    batch_size ≤ s.data_pool.length ∨ s.end_flag = true
  full : FullBatch s
  left : s.consumer = .leaving ∨ s.consumer = .draining ∨ s.consumer = .returned →
    s.end_flag = true
  drained : s.consumer = .returned → s.data_pool = []
  awake : s.producer = .returned → s.consumer.ending = true

theorem inv_start : Inv (start : State α) where
  flag := by simp [start]
  woken h := by simp [start] at h
  full h := by cases h
  left h := by simp [start] at h
  drained h := by cases h
  awake h := by cases h

@[simp] theorem notifyOne_eq_iff {pc q : ConsumerPc} (hq : q ≠ .blocked) (hr : q ≠ .relocking) :
    notifyOne pc = q ↔ pc = q := by
  cases pc with
  | blocked => simp [notifyOne, hq.symm, hr.symm]
  | _ => rfl

theorem notifyOne_ending {pc : ConsumerPc} (h : pc = .blocked ∨ pc.ending = true) :
    (notifyOne pc).ending = true := by
  cases pc <;> simp_all [notifyOne, ConsumerPc.ending]

theorem Inv.step_flag (h : Inv s) (ht : Trans s a t) :
    t.end_flag = true ↔ t.producer = .notifying ∨ t.producer = .returned := by
  have hf := h.flag
  cases ht with
  | produce _ hpc | finish hpc | lock _ hpc | copy _ hpc | wakeUp hpc | tooFew hpc | unlock hpc
  | notify hpc =>
      simp only [hpc] at hf
      simpa using hf
  | store => simp
  | lockConsumer | wait | relock | leave | goOn | erase | unlockConsumer | unlockLeaving | drain
  | spurious => exact hf

theorem Inv.step_woken (h : Inv s) (ht : Trans s a t) (hc : Timely s a) :
    t.consumer = .relocking ∨ t.consumer = .checking →
      batch_size ≤ t.data_pool.length ∨ t.end_flag = true := by
  have hw := h.woken
  cases ht with
  | copy data_stage =>
      intro hpc
      apply (hw hpc).imp_left
      intro hlen
      simp only [List.length_append]
      omega
  | wakeUp _ hmany => exact fun _ => .inl hmany
  | notify hpc => exact fun _ => .inr (h.flag.2 (.inl hpc))
  | store => exact fun _ => .inr rfl
  | relock hpc => exact fun _ => hw (.inl hpc)
  | spurious => exact fun _ => hc
  | produce | finish | lock | tooFew | unlock => exact hw
  | lockConsumer | wait | leave | goOn | erase | unlockConsumer | unlockLeaving | drain =>
      simp

theorem Inv.step_full (h : Inv s) (ht : Trans s a t) : FullBatch t := by
  have hf := h.full
  cases ht with
  | copy data_stage =>
      intro hpc
      have hlen := hf hpc
      simp only [List.length_append]
      omega
  | wakeUp | notify => simpa [FullBatch] using hf
  | goOn hpc hflag =>
      intro _
      have hmany := h.woken (.inr hpc)
      rw [hflag] at hmany
      exact hmany.resolve_right nofun
  | produce | finish | lock | tooFew | unlock | store => exact hf
  | lockConsumer | wait | relock | leave | erase | unlockConsumer | unlockLeaving | drain
  | spurious => exact nofun

theorem Inv.step_left (h : Inv s) (ht : Trans s a t) :
    t.consumer = .leaving ∨ t.consumer = .draining ∨ t.consumer = .returned →
      t.end_flag = true := by
  have ho := h.left
  cases ht with
  | wakeUp | notify => simpa using ho
  | store => exact fun _ => rfl
  | leave _ hflag => exact fun _ => hflag
  | unlockLeaving hpc => exact fun _ => ho (.inl hpc)
  | drain hpc => exact fun _ => ho (.inr (.inl hpc))
  | produce | finish | lock | copy | tooFew | unlock => exact ho
  | lockConsumer | wait | relock | goOn | erase | unlockConsumer | spurious => simp

theorem Inv.step_drained (h : Inv s) (ht : Trans s a t) :
    t.consumer = .returned → t.data_pool = [] := by
  have hd := h.drained
  cases ht with
  | copy _ hpc =>
      intro hret
      have hflag := h.flag.1 (h.left (.inr (.inr hret)))
      simp [hpc] at hflag
  | wakeUp | notify => simpa using hd
  | drain => exact fun _ => rfl
  | produce | finish | lock | tooFew | unlock | store => exact hd
  | lockConsumer | wait | relock | leave | goOn | erase | unlockConsumer | unlockLeaving
  | spurious => exact nofun

theorem Inv.step_awake (h : Inv s) (ht : Trans s a t) (hc : Timely s a) :
    t.producer = .returned → t.consumer.ending = true := by
  have ha := h.awake
  cases ht with
  | produce | finish | lock | copy | wakeUp | tooFew | unlock | store => exact nofun
  | notify hpc => exact fun _ => notifyOne_ending (hc hpc)
  | goOn hpc hflag =>
      intro hret
      rw [h.flag.2 (.inr hret)] at hflag
      cases hflag
  | lockConsumer hpc | wait hpc | erase hpc | unlockConsumer hpc =>
      intro hret
      have hend := ha hret
      rw [hpc] at hend
      cases hend
  | relock | leave | unlockLeaving | drain | spurious => exact fun _ => rfl

theorem inv_of_reachable (h : program.ReachableBy Timely s) : Inv s := by
  apply h.invariant (I := Inv) inv_start
  intro s t a _ hi hc hst
  have ht := step_trans hst
  exact ⟨hi.step_flag ht, hi.step_woken ht hc, hi.step_full ht, hi.step_left ht,
    hi.step_drained ht, hi.step_awake ht hc⟩

def ConsumerPc.inside : ConsumerPc → Bool
  | .waiting | .checking | .erasing | .unlocking | .leaving => true
  | .locking | .blocked | .relocking | .draining | .returned => false

/-- The threads between the acquisition and the release of `protecter`. -/
def State.inside (s : State α) : Thread → Bool
  | .producer => s.producer.inside
  | .consumer => s.consumer.inside

theorem notifyOne_inside (pc : ConsumerPc) : (notifyOne pc).inside = pc.inside := by
  cases pc <;> rfl

theorem guarded_step (ht : Trans s a t) (h : Guarded s.inside s.protecter) :
    Guarded t.inside t.protecter := by
  cases ht with
  | lock _ _ hfree =>
      rw [hfree] at h
      apply h.acquire (i := .producer)
      · rfl
      · exact Thread.congr_ne_producer rfl
  | unlock hpc =>
      apply h.release (i := .producer)
      · simp [State.inside, ProducerPc.inside, hpc]
      · rfl
      · exact Thread.congr_ne_producer rfl
  | lockConsumer _ hfree | relock _ hfree =>
      rw [hfree] at h
      apply h.acquire (i := .consumer)
      · rfl
      · exact Thread.congr_ne_consumer rfl
  | wait hpc | unlockConsumer hpc | unlockLeaving hpc =>
      apply h.release (i := .consumer)
      · simp [State.inside, ConsumerPc.inside, hpc]
      · rfl
      · exact Thread.congr_ne_consumer rfl
  | produce _ hpc | finish hpc | copy _ hpc | tooFew hpc | store hpc =>
      exact h.congr (Thread.congr (congrArg ProducerPc.inside hpc.symm) rfl)
  | wakeUp hpc | notify hpc =>
      exact h.congr (Thread.congr (congrArg ProducerPc.inside hpc.symm) (notifyOne_inside _))
  | leave hpc | goOn hpc | erase hpc | drain hpc | spurious hpc =>
      exact h.congr (Thread.congr rfl (congrArg ConsumerPc.inside hpc.symm))

theorem guarded_of_reachable (h : program.Reachable s) : Guarded s.inside s.protecter := by
  apply h.invariant (I := fun s => Guarded s.inside s.protecter)
  · intro th
    cases th <;> simp [program, start, State.inside, ProducerPc.inside, ConsumerPc.inside]
  · exact fun _ hi hst => guarded_step (step_trans hst) hi

/-- A consumer that holds the lock can go on, unless its batch is not in the pool. -/
theorem consumer_inside_of_stuck (h : Stuck s) (hfull : FullBatch s) :
    s.consumer.inside = false := by
  have hstep : consumerStep s = none := h .consumer rfl
  unfold consumerStep at hstep
  cases hpc : s.consumer with
  | waiting | checking | unlocking | leaving =>
      rw [hpc] at hstep
      cases hstep
  | erasing =>
      rw [hpc] at hstep
      dsimp only at hstep
      rw [if_pos (hfull hpc)] at hstep
      cases hstep
  | locking | blocked | relocking | draining | returned => rfl

theorem producer_of_stuck (h : Stuck s) (hg : Guarded s.inside s.protecter)
    (hc : s.consumer.inside = false) : s.producer = .returned := by
  have hstep : producerStep s = none := h .producer rfl
  have hfinish := h .finish rfl
  unfold producerStep at hstep
  cases hpc : s.producer with
  | loop => simp [step, hpc] at hfinish
  | locking data_stage =>
      have hfree := Thread.owner_none hg (congrArg ProducerPc.inside hpc) hc
      simp [hpc, hfree] at hstep
  | checking =>
      rw [hpc] at hstep
      dsimp only at hstep
      split at hstep <;> cases hstep
  | copying _ | unlocking | storing | notifying =>
      rw [hpc] at hstep
      cases hstep
  | returned => rfl

theorem consumer_of_stuck (h : Stuck s) (hg : Guarded s.inside s.protecter)
    (hp : s.producer = .returned) (hend : s.consumer.ending = true)
    (hc : s.consumer.inside = false) : s.consumer = .returned := by
  have hstep : consumerStep s = none := h .consumer rfl
  have hfree := Thread.owner_none hg (congrArg ProducerPc.inside hp) hc
  unfold consumerStep at hstep
  cases hpc : s.consumer with
  | relocking => simp [hpc, hfree] at hstep
  | draining =>
      rw [hpc] at hstep
      cases hstep
  | checking | leaving => simp [hpc, ConsumerPc.inside] at hc
  | locking | waiting | blocked | erasing | unlocking => simp [hpc, ConsumerPc.ending] at hend
  | returned => rfl

theorem full_batches_and_ends_of_timely (h : program.ReachableBy Timely s) :
    FullBatch s ∧ (Stuck s → EndsCleanly s) := by
  have hi := inv_of_reachable h
  have hg := guarded_of_reachable h.reachable
  refine ⟨hi.full, fun hs => ?_⟩
  have hc := consumer_inside_of_stuck hs hi.full
  have hp := producer_of_stuck hs hg hc
  have hret := consumer_of_stuck hs hg hp (hi.awake hp) hc
  exact ⟨hp, hret, hi.drained hret⟩

theorem stuck_of_returned (hp : s.producer = .returned)
    (hc : s.consumer = .returned ∨ s.consumer = .blocked) : Stuck s := by
  intro a ha
  cases a with
  | produce _ | finish => simp [step, hp]
  | producer => simp [step, producerStep, hp]
  | consumer => rcases hc with hc | hc <;> simp [step, consumerStep, hc]
  | spurious => cases ha

/-- The producer makes `n` batches. -/
def batches (n : ℕ) : List (Act ℕ) :=
  (List.replicate n [.produce (Vector.ofFn Fin.val), .producer, .producer, .producer,
    .producer]).flatten

/-- The consumer waits, is woken at the thirteenth batch, and waits again. -/
def oneTurn : List (Act ℕ) := [.consumer, .consumer] ++ batches 13 ++ List.replicate 2 .consumer

theorem full_batches_and_ends_of_timely_thirteen :
    ∃ s t : State ℕ, program.ReachableBy Timely s ∧ s.consumer = .erasing ∧
      s.data_pool.length = 104 ∧ FullBatch s ∧ program.ReachableBy Timely t ∧ Stuck t ∧
      EndsCleanly t := by
  have hturn : (program.checkedFrom (fun (s : State ℕ) a => decide (Timely s a)) start
      oneTurn).map (fun s => (s.consumer, s.data_pool.length)) = some (.erasing, 104) := by
    decide +kernel
  have hrun : (program.checkedFrom (fun (s : State ℕ) a => decide (Timely s a)) start
      (oneTurn ++ List.replicate 4 .consumer ++ [.finish, .producer, .producer] ++
        List.replicate 4 .consumer)).map (fun s => (s.producer, s.consumer)) =
          some (.returned, .returned) := by
    decide +kernel
  obtain ⟨s, hs, hview⟩ := Machine.reachableBy_of_checked hturn
  obtain ⟨t, ht, hend⟩ := Machine.reachableBy_of_checked hrun
  obtain ⟨hpc, hlen⟩ := Prod.mk.inj hview
  obtain ⟨hp, hc⟩ := Prod.mk.inj hend
  have hs' : program.ReachableBy Timely s := hs.mono (fun _ _ hd => of_decide_eq_true hd)
  have ht' : program.ReachableBy Timely t := ht.mono (fun _ _ hd => of_decide_eq_true hd)
  have hstuck := stuck_of_returned hp (.inl hc)
  exact ⟨s, t, hs', hpc, hlen, (full_batches_and_ends_of_timely hs').1, ht', hstuck,
    (full_batches_and_ends_of_timely ht').2 hstuck⟩

/-- A spurious wakeup takes a batch from an empty pool; the consumer sleeps for ever when
the producer is done before it first waits. -/
theorem empty_batch_and_consumer_asleep :
    (∃ s : State ℕ, program.Reachable s ∧ s.data_pool = [] ∧ ¬ FullBatch s) ∧
      ∃ s : State ℕ, program.Reachable s ∧ Stuck s ∧ s.consumer = .blocked ∧ ¬ EndsCleanly s := by
  constructor
  · have hrun : (program.run [.consumer, .consumer, .spurious, .consumer, .consumer]).map
        (fun s : State ℕ => (s.consumer, s.data_pool)) = some (.erasing, []) := by
      decide +kernel
    obtain ⟨s, -, hreach, hview⟩ := Machine.reachable_of_run_map hrun
    obtain ⟨hpc, hpool⟩ := Prod.mk.inj hview
    refine ⟨s, hreach, hpool, fun hfull => ?_⟩
    have hlen := hfull hpc
    rw [hpool] at hlen
    exact absurd hlen (by decide)
  · have hrun : (program.run [.finish, .producer, .producer, .consumer, .consumer]).map
        (fun s : State ℕ => (s.producer, s.consumer)) = some (.returned, .blocked) := by
      decide +kernel
    obtain ⟨s, -, hreach, hview⟩ := Machine.reachable_of_run_map hrun
    obtain ⟨hp, hc⟩ := Prod.mk.inj hview
    refine ⟨s, hreach, stuck_of_returned hp (.inr hc), hc, fun hend => ?_⟩
    have hret := hend.2.1
    rw [hc] at hret
    cases hret

end Londa.ProducerConsumer
