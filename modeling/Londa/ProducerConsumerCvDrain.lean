import Londa.ProducerConsumerCv

/-!
# The stream of values and the end of the run

Every step keeps the values consumed followed by the pool equal to the values produced.
`end_flag` never falls back, so a consumer that sees it down before it takes a batch saw
a hundred values in the predicate. The run ends cleanly when three windows are avoided:
the test at the head of the loop sees the flag while values are left, the last
`notify_one` falls between the predicate and the block, the last batch does not fit an
`int`.
-/

namespace Londa.ProducerConsumerCv

variable {α : Type*} {s t : State α} {a : Act α}

structure Inv (s : State α) : Prop where
  stream : s.consumed ++ s.data_pool = s.produced
  flag : s.end_flag = true ↔ s.producer = .notifying ∨ s.producer = .returned
  batch : s.end_flag = false → s.batch_size = 100
  seen : s.consumer = .checking → 100 ≤ s.data_pool.length ∨ s.end_flag = true
  fits : s.consumer = .erasing → s.batch_size ≤ s.data_pool.length

theorem inv_start : Inv (start : State α) where
  stream := rfl
  flag := by simp [start]
  batch _ := rfl
  seen h := by cases h
  fits h := by cases h

@[simp] theorem notifyOne_eq_checking {pc : ConsumerPc} :
    notifyOne pc = .checking ↔ pc = .checking := by
  cases pc <;> simp [notifyOne]

@[simp] theorem notifyOne_eq_erasing {pc : ConsumerPc} :
    notifyOne pc = .erasing ↔ pc = .erasing := by
  cases pc <;> simp [notifyOne]

theorem Inv.step_stream (h : Inv s) (ht : Trans s a t) :
    t.consumed ++ t.data_pool = t.produced := by
  have hs := h.stream
  cases ht with
  | copy data_stage _ => rw [← List.append_assoc, hs]
  | erase _ _ _ => rw [List.append_assoc, List.take_append_drop, hs]
  | _ => exact hs

theorem Inv.step_flag (h : Inv s) (ht : Trans s a t) :
    t.end_flag = true ↔ t.producer = .notifying ∨ t.producer = .returned := by
  have hf := h.flag
  cases ht with
  | produce _ hpc | finish hpc | lock _ hpc | copy _ hpc | wakeUp hpc | tooFew hpc | unlock hpc
  | notify hpc =>
      simp only [hpc] at hf
      simpa using hf
  | store => simp
  | _ => exact hf

theorem Inv.step_batch (h : Inv s) (ht : Trans s a t) :
    t.end_flag = false → t.batch_size = 100 := by
  have hb := h.batch
  cases ht with
  | store => exact nofun
  | check _ =>
      intro hflag
      dsimp only at hflag ⊢
      rw [hflag]
      exact hb hflag
  | _ => exact hb

theorem Inv.step_seen (h : Inv s) (ht : Trans s a t) :
    t.consumer = .checking → 100 ≤ t.data_pool.length ∨ t.end_flag = true := by
  have hs := h.seen
  cases ht with
  | copy data_stage _ =>
      intro hpc
      apply (hs hpc).imp_left
      intro hlen
      simp only [List.length_append]
      omega
  | wakeUp | notify => simpa using hs
  | store => exact fun _ => Or.inr rfl
  | goOn _ hpred =>
      intro _
      simpa [predicate] using hpred
  | produce | finish | lock | tooFew | unlock => exact hs
  | _ => exact nofun

theorem Inv.step_fits (h : Inv s) (ht : Trans s a t) :
    t.consumer = .erasing → t.batch_size ≤ t.data_pool.length := by
  have hf := h.fits
  cases ht with
  | copy data_stage _ =>
      intro hpc
      have := hf hpc
      simp only [List.length_append]
      omega
  | wakeUp | notify => simpa using hf
  | check hpc =>
      intro _
      dsimp only
      by_cases hflag : s.end_flag = true
      · rw [if_pos hflag]
        exact int32_le (by omega)
      · have hlow : s.end_flag = false := by simpa using hflag
        have hlen := (h.seen hpc).resolve_right hflag
        rw [if_neg hflag, h.batch hlow]
        omega
  | produce | finish | lock | tooFew | unlock | store => exact hf
  | _ => exact nofun

theorem Inv.step (h : Inv s) (ht : Trans s a t) : Inv t :=
  ⟨h.step_stream ht, h.step_flag ht, h.step_batch ht, h.step_seen ht, h.step_fits ht⟩

theorem inv_of_reachable (h : (program (α := α)).Reachable s) : Inv s :=
  h.invariant (I := Inv) inv_start (fun _ hi hst => hi.step (step_trans hst))

theorem stream_integrity (h : program.Reachable s) :
    s.consumed ++ s.data_pool = s.produced ∧
      (s.consumer = .erasing → s.batch_size ≤ s.data_pool.length) :=
  ⟨(inv_of_reachable h).stream, (inv_of_reachable h).fits⟩

theorem stream_integrity_lastBatch :
    ∃ s : State ℕ, program.Reachable s ∧ s.consumer = .erasing ∧ s.data_pool.length = 8 ∧
      s.consumed ++ s.data_pool = s.produced ∧ s.batch_size ≤ s.data_pool.length := by
  have hrun : (program.run ([.consumer, .produce (Vector.ofFn Fin.val), .producer, .producer,
      .producer, .producer, .finish, .producer, .consumer, .consumer, .consumer])).map
        (fun s : State ℕ => (s.consumer, s.data_pool.length)) = some (.erasing, 8) := by
    decide +kernel
  obtain ⟨s, -, hreach, hview⟩ := Machine.reachable_of_run_map hrun
  obtain ⟨hpc, hlen⟩ := Prod.mk.inj hview
  obtain ⟨hstream, hfits⟩ := stream_integrity hreach
  exact ⟨s, hreach, hpc, hlen, hstream, hfits hpc⟩

namespace Thread

variable {f g : Thread → Bool}

theorem congr (hp : f .producer = g .producer) (hc : f .consumer = g .consumer) (th : Thread) :
    f th = g th := by
  cases th with
  | producer => exact hp
  | consumer => exact hc

theorem congr_ne_producer (hc : f .consumer = g .consumer) (th : Thread) (hne : th ≠ .producer) :
    f th = g th := by
  cases th with
  | producer => exact absurd rfl hne
  | consumer => exact hc

theorem congr_ne_consumer (hp : f .producer = g .producer) (th : Thread) (hne : th ≠ .consumer) :
    f th = g th := by
  cases th with
  | producer => exact hp
  | consumer => exact absurd rfl hne

/-- Nobody holds a mutex that neither thread is inside of. -/
theorem owner_none {owner : Option Thread} (hg : Guarded f owner) (hp : f .producer = false)
    (hc : f .consumer = false) : owner = none :=
  hg.owner_none (congr (g := fun _ => false) hp hc)

end Thread

def ProducerPc.inside : ProducerPc α → Bool
  | .copying _ => true
  | .checking => true
  | .unlocking => true
  | _ => false

def ConsumerPc.inside : ConsumerPc → Bool
  | .testing => true
  | .waiting => true
  | .checking => true
  | .erasing => true
  | .unlocking => true
  | _ => false

/-- The threads between the acquisition and the release of `protecter`. -/
def State.inside (s : State α) : Thread → Bool
  | .producer => s.producer.inside
  | .consumer => s.consumer.inside

theorem notifyOne_inside (pc : ConsumerPc) : (notifyOne pc).inside = pc.inside := by
  cases pc <;> rfl

theorem guarded_step (ht : Trans s a t) (h : Guarded s.inside s.protecter) :
    Guarded t.inside t.protecter := by
  cases ht with
  | lock _ _ hfree =>
      rw [hfree] at h
      apply h.acquire (i := .producer)
      · rfl
      · exact Thread.congr_ne_producer rfl
  | unlock hpc =>
      apply h.release (i := .producer)
      · simp [State.inside, ProducerPc.inside, hpc]
      · rfl
      · exact Thread.congr_ne_producer rfl
  | lockConsumer _ hfree =>
      rw [hfree] at h
      apply h.acquire (i := .consumer)
      · rfl
      · exact Thread.congr_ne_consumer rfl
  | block hpc | unlockConsumer hpc =>
      apply h.release (i := .consumer)
      · simp [State.inside, ConsumerPc.inside, hpc]
      · rfl
      · exact Thread.congr_ne_consumer rfl
  | produce _ hpc | finish hpc | copy _ hpc | tooFew hpc | store hpc =>
      exact h.congr (Thread.congr (congrArg ProducerPc.inside hpc.symm) rfl)
  | wakeUp hpc | notify hpc =>
      exact h.congr (Thread.congr (congrArg ProducerPc.inside hpc.symm) (notifyOne_inside _))
  | leave hpc | enter hpc | goOn hpc | wait hpc | check hpc | erase hpc | spurious hpc =>
      exact h.congr (Thread.congr rfl (congrArg ConsumerPc.inside hpc.symm))

theorem guarded_of_reachable (h : program.Reachable s) : Guarded s.inside s.protecter := by
  apply h.invariant (I := fun s => Guarded s.inside s.protecter)
  · intro th
    cases th <;> simp [program, start, State.inside, ProducerPc.inside, ConsumerPc.inside]
  · exact fun _ hi hst => guarded_step (step_trans hst) hi

/-- The three windows are avoided: the test at the head of the loop finds the flag up only
with the pool empty, the last notification does not fall between the predicate and the
block, and the pool fits an `int` when its size becomes the size of the last batch. -/
def Timely (s : State α) : Act α → Prop
  | .consumer => (s.consumer = .loop → s.end_flag = true → s.data_pool = []) ∧
      (s.consumer = .checking → s.end_flag = true → s.data_pool.length < 2 ^ 31)
  | .producer => s.producer = .notifying → s.consumer ≠ .waiting
  | _ => True

instance [DecidableEq α] (s : State α) : DecidablePred (Timely s)
  | .consumer => inferInstanceAs (Decidable ((s.consumer = .loop → s.end_flag = true →
      s.data_pool = []) ∧
        (s.consumer = .checking → s.end_flag = true → s.data_pool.length < 2 ^ 31)))
  | .producer => inferInstanceAs (Decidable (s.producer = .notifying → s.consumer ≠ .waiting))
  | .produce _ | .finish | .spurious => isTrue trivial

structure Ending (s : State α) : Prop where
  awake : s.producer = .returned → s.consumer ≠ .waiting ∧ s.consumer ≠ .blocked
  drained : s.consumer = .returned → s.end_flag = true ∧ s.data_pool = []
  count : s.consumer = .erasing → 0 ≤ s.batch_size

@[simp] theorem notifyOne_eq_returned {pc : ConsumerPc} :
    notifyOne pc = .returned ↔ pc = .returned := by
  cases pc <;> simp [notifyOne]

@[simp] theorem notifyOne_eq_waiting {pc : ConsumerPc} :
    notifyOne pc = .waiting ↔ pc = .waiting := by
  cases pc <;> simp [notifyOne]

@[simp] theorem notifyOne_ne_blocked (pc : ConsumerPc) : notifyOne pc ≠ .blocked := by
  cases pc <;> simp [notifyOne]

theorem Ending.step_awake (h : Ending s) (hi : Inv s) (ht : Trans s a t) (hc : Timely s a) :
    t.producer = .returned → t.consumer ≠ .waiting ∧ t.consumer ≠ .blocked := by
  have ha := h.awake
  cases ht with
  | produce | finish | lock | copy | wakeUp | tooFew | unlock | store => exact nofun
  | notify hpc =>
      intro _
      simpa using hc hpc
  | wait hpc hpred =>
      intro hret
      have hflag := hi.flag.2 (Or.inr hret)
      simp [predicate, hflag] at hpred
  | block hpc => exact fun hret => absurd hpc (ha hret).1
  | _ => exact fun _ => ⟨nofun, nofun⟩

theorem Ending.step_drained (h : Ending s) (hi : Inv s) (ht : Trans s a t) (hc : Timely s a) :
    t.consumer = .returned → t.end_flag = true ∧ t.data_pool = [] := by
  have hd := h.drained
  cases ht with
  | copy _ hpc =>
      intro hret
      have hflag := hi.flag.1 (hd hret).1
      simp [hpc] at hflag
  | wakeUp | notify => simpa using hd
  | store => exact fun hret => ⟨rfl, (hd hret).2⟩
  | leave hpc hflag => exact fun _ => ⟨hflag, hc.1 hpc hflag⟩
  | produce | finish | lock | tooFew | unlock => exact hd
  | _ => exact nofun

theorem Ending.step_count (h : Ending s) (hi : Inv s) (ht : Trans s a t) (hc : Timely s a) :
    t.consumer = .erasing → 0 ≤ t.batch_size := by
  have hn := h.count
  cases ht with
  | wakeUp | notify => simpa using hn
  | check hpc =>
      intro _
      dsimp only
      by_cases hflag : s.end_flag = true
      · have hsmall := hc.2 hpc hflag
        rw [if_pos hflag, int32_eq (by omega) (by omega)]
        omega
      · rw [if_neg hflag, hi.batch (by simpa using hflag)]
        omega
  | produce | finish | lock | copy | tooFew | unlock | store => exact hn
  | _ => exact nofun

theorem ending_of_reachable (h : program.ReachableBy Timely s) : Ending s := by
  apply h.invariant (I := Ending) ⟨nofun, nofun, nofun⟩
  intro s t a hr he hc hst
  have hi := inv_of_reachable hr.reachable
  have ht := step_trans hst
  exact ⟨he.step_awake hi ht hc, he.step_drained hi ht hc, he.step_count hi ht hc⟩

/-- A consumer that holds the lock can go on, unless its batch is not in the pool. -/
theorem consumer_inside_of_stuck (h : Stuck s) (hi : Inv s) (he : Ending s) :
    s.consumer.inside = false := by
  have hstep : consumerStep s = none := h .consumer rfl
  unfold consumerStep at hstep
  cases hpc : s.consumer with
  | testing | waiting | checking | unlocking =>
      rw [hpc] at hstep
      cases hstep
  | erasing =>
      rw [hpc] at hstep
      dsimp only at hstep
      rw [if_pos ⟨he.count hpc, hi.fits hpc⟩] at hstep
      cases hstep
  | _ => rfl

theorem producer_of_stuck (h : Stuck s) (hg : Guarded s.inside s.protecter)
    (hc : s.consumer.inside = false) : s.producer = .returned := by
  have hstep : producerStep s = none := h .producer rfl
  have hfinish := h .finish rfl
  unfold producerStep at hstep
  cases hpc : s.producer with
  | loop => simp [step, hpc] at hfinish
  | locking data_stage =>
      have hfree := Thread.owner_none hg (congrArg ProducerPc.inside hpc) hc
      simp [hpc, hfree] at hstep
  | checking =>
      rw [hpc] at hstep
      dsimp only at hstep
      split at hstep <;> cases hstep
  | copying _ | unlocking | storing | notifying =>
      rw [hpc] at hstep
      cases hstep
  | returned => rfl

theorem consumer_of_stuck (h : Stuck s) (hg : Guarded s.inside s.protecter)
    (hc : s.consumer.inside = false) (hp : s.producer = .returned) :
    s.consumer = .returned ∨ s.consumer = .blocked := by
  have hstep : consumerStep s = none := h .consumer rfl
  have hfree := Thread.owner_none hg (congrArg ProducerPc.inside hp) hc
  unfold consumerStep at hstep
  cases hpc : s.consumer with
  | loop =>
      rw [hpc] at hstep
      cases hstep
  | locking | relocking => simp [hpc, hfree] at hstep
  | testing | waiting | checking | erasing | unlocking => simp [hpc, ConsumerPc.inside] at hc
  | blocked => exact Or.inr rfl
  | returned => exact Or.inl rfl

/-- Both functions have returned and everything produced has been consumed. -/
def EndsCleanly (s : State α) : Prop :=
  s.producer = .returned ∧ s.consumer = .returned ∧ s.data_pool = [] ∧ s.consumed = s.produced

theorem ends_cleanly_of_timely (h : program.ReachableBy Timely s) (hs : Stuck s) :
    EndsCleanly s := by
  have hi := inv_of_reachable h.reachable
  have he := ending_of_reachable h
  have hg := guarded_of_reachable h.reachable
  have hc := consumer_inside_of_stuck hs hi he
  have hp := producer_of_stuck hs hg hc
  have hret : s.consumer = .returned :=
    (consumer_of_stuck hs hg hc hp).resolve_right (he.awake hp).2
  have hpool := (he.drained hret).2
  refine ⟨hp, hret, hpool, ?_⟩
  have hstream := hi.stream
  rwa [hpool, List.append_nil] at hstream

theorem stuck_of_returned (hp : s.producer = .returned)
    (hc : s.consumer = .returned ∨ s.consumer = .blocked) : Stuck s := by
  intro a ha
  cases a with
  | produce _ | finish => simp [step, hp]
  | producer => simp [step, producerStep, hp]
  | consumer => rcases hc with hc | hc <;> simp [step, consumerStep, hc]
  | spurious => cases ha

def someBatch : Vector ℕ 8 := #v[0, 1, 2, 3, 4, 5, 6, 7]

/-- The producer makes one batch. -/
def oneBatch : List (Act ℕ) :=
  [.produce someBatch, .producer, .producer, .producer, .producer]

/-- The consumer goes from the head of its loop to the end of the predicate. -/
def evaluate : List (Act ℕ) := [.consumer, .consumer, .consumer]

theorem ends_cleanly_of_timely_oneBatch :
    ∃ s : State ℕ, program.ReachableBy Timely s ∧ Stuck s ∧ s.produced = [0, 1, 2, 3, 4, 5, 6, 7] ∧
      EndsCleanly s := by
  have hrun : (program.checkedFrom (fun (s : State ℕ) a => decide (Timely s a)) start
      (evaluate ++ [.consumer] ++ oneBatch ++ [.finish, .producer, .producer] ++
        List.replicate 6 .consumer)).map (fun s => (s.producer, s.consumer, s.produced)) =
          some (.returned, .returned, [0, 1, 2, 3, 4, 5, 6, 7]) := by decide +kernel
  obtain ⟨s, hreach, hview⟩ := Machine.reachableBy_of_checked hrun
  obtain ⟨hp, hrest⟩ := Prod.mk.inj hview
  obtain ⟨hc, hprod⟩ := Prod.mk.inj hrest
  have htimely : program.ReachableBy Timely s :=
    hreach.mono (fun _ _ hd => of_decide_eq_true hd)
  have hs := stuck_of_returned hp (Or.inl hc)
  exact ⟨s, htimely, hs, hprod, ends_cleanly_of_timely htimely hs⟩

/-- Eight values stay in the pool when the consumer first tests the flag after the end; the
consumer sleeps for ever when the last notification comes between predicate and block. -/
theorem values_left_and_consumer_asleep :
    (∃ s : State ℕ, program.Reachable s ∧ Stuck s ∧ s.consumer = .returned ∧
        s.data_pool = [0, 1, 2, 3, 4, 5, 6, 7] ∧ ¬ EndsCleanly s) ∧
      ∃ s : State ℕ, program.Reachable s ∧ Stuck s ∧ s.consumer = .blocked ∧ ¬ EndsCleanly s := by
  constructor
  · have hrun : (program.run (oneBatch ++ [.finish, .producer, .producer, .consumer])).map
        (fun s : State ℕ => (s.producer, s.consumer, s.data_pool)) =
          some (.returned, .returned, [0, 1, 2, 3, 4, 5, 6, 7]) := by decide +kernel
    obtain ⟨s, -, hreach, hview⟩ := Machine.reachable_of_run_map hrun
    obtain ⟨hp, hrest⟩ := Prod.mk.inj hview
    obtain ⟨hc, hpool⟩ := Prod.mk.inj hrest
    refine ⟨s, hreach, stuck_of_returned hp (Or.inl hc), hc, hpool, fun hend => ?_⟩
    have hempty := hend.2.2.1
    rw [hpool] at hempty
    cases hempty
  · have hrun : (program.run (evaluate ++ [.finish, .producer, .producer, .consumer])).map
        (fun s : State ℕ => (s.producer, s.consumer)) = some (.returned, .blocked) := by
      decide +kernel
    obtain ⟨s, -, hreach, hview⟩ := Machine.reachable_of_run_map hrun
    obtain ⟨hp, hc⟩ := Prod.mk.inj hview
    refine ⟨s, hreach, stuck_of_returned hp (Or.inr hc), hc, fun hend => ?_⟩
    have hret := hend.2.1
    rw [hc] at hret
    cases hret

end Londa.ProducerConsumerCv
