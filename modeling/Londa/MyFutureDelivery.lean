import Londa.MyFutureValue

/-!
# What a get delivers

Between two critical sections `value_set_` says whether `value_` was ever stored,
and a stored content belongs to a completed call of `set`. So a `get` that reads
with the flag set, and before another `get(false)` has moved the content out,
returns the value of a completed `set`; every other read returns the default or
the remains.
-/

namespace Londa.MyFutureValue

variable {κ T : Type*}

def Pc.inside : Pc T → Bool
  | .setHolding _ => true
  | .setStored _ _ => true
  | .setFlagged _ _ => true
  | .setNotified _ _ => true
  | .getTest _ => true
  | .getWaiting _ => true
  | .getReading _ => true
  | .getReturning => true
  | _ => false

/-- The call of `set` that has stored its value and not yet released the mutex. -/
def Pc.storing : Pc T → Option (ℕ × T)
  | .setStored k v => some (k, v)
  | .setFlagged k v => some (k, v)
  | .setNotified k v => some (k, v)
  | _ => none

/-- The call of `set` that has not raised the flag yet. -/
def Pc.unflagged : Pc T → Option (ℕ × T)
  | .setStored k v => some (k, v)
  | _ => none

theorem Pc.inside_of_storing {p : Pc T} {c : ℕ × T} (h : p.storing = some c) :
    p.inside = true := by
  cases p <;> first | rfl | cases h

theorem Pc.inside_of_unflagged {p : Pc T} {c : ℕ × T} (h : p.unflagged = some c) :
    p.inside = true := by
  cases p <;> first | rfl | cases h

theorem wake_frame {β : Type*} (f : Pc T → β)
    (hf : ∀ copy, f (.getWoken copy) = f (.getBlocked copy)) (p : Pc T)
    (hb : condition.blocked p) : f (condition.wake p) = f p := by
  cases p with
  | getBlocked copy => exact hf copy
  | _ => cases hb

/-- Each `get` so far read a content that a completed call of `set` had stored. -/
def Return.Good (r : Return T) : Prop := ∃ k v, r.content = .stored k v ∧ (k, v) ∈ r.completed

/-- A `get` reads only when `value_set_` is set and no `get(false)` has moved the
content out since the last store. -/
def ReadsFresh (s : State κ T) (a : Act κ T) : Prop :=
  ∀ i copy, a = .thread i → s.pc i = .getReading copy → s.valueSet = true ∧ s.value ≠ .remains

structure Origin (s : State κ T) : Prop where
  guarded : Guarded (fun i => (s.pc i).inside) s.mutex
  stored : ∀ k v, s.value = .stored k v →
    (k, v) ∈ s.completed ∨ ∃ i, (s.pc i).storing = some (k, v)
  storing : ∀ i k v, (s.pc i).storing = some (k, v) → s.value = .stored k v
  flagged : s.valueSet = true → s.value ≠ .default
  unflagged : s.valueSet = false → ∀ k v, s.value = .stored k v →
    ∃ i, (s.pc i).unflagged = some (k, v)

variable [DecidableEq κ] {s t : State κ T} {a : Act κ T}

/-- The counters after the notification, seen by what waking does not change. -/
theorem notify_frame {β : Type*} (f : Pc T → β)
    (hf : ∀ copy, f (.getWoken copy) = f (.getBlocked copy)) {i : κ} {p : Pc T}
    (hp : f p = f (s.pc i)) (j : κ) :
    f (Function.update (condition.notifyAll s.pc) i p j) = f (s.pc j) := by
  have hall := condition.notifyAll_frame f (wake_frame f hf) s.pc
  rw [update_frame f (by rw [hall i, hp]) j, hall j]

namespace Origin

theorem step_guarded (ht : Trans s a t) (h : Origin s) :
    Guarded (fun i => (t.pc i).inside) t.mutex := by
  have hg := h.guarded
  cases ht with
  | lockSet i v hpc hfree | lockGet i copy hpc hfree | relock i copy hpc hfree =>
      rw [hfree] at hg
      exact hg.acquire_update rfl
  | complete i k v hpc | block i copy hpc | leave i hpc =>
      exact hg.release_update (by rw [hpc]; rfl) rfl
  | notify i k v hpc => exact hg.congr (notify_frame Pc.inside (fun _ => rfl) (by rw [hpc]; rfl))
  | set i v hpc | get i copy hpc | spurious i copy hpc | store i v hpc | flag i k v hpc
  | pass i copy hpc hf | wait i copy hpc hf | read i copy hpc =>
      exact hg.congr (update_frame Pc.inside (by rw [hpc]; rfl))

omit [DecidableEq κ] in
/-- A thread inside its critical section excludes a store in progress elsewhere. -/
theorem not_storing (h : Origin s) {i j : κ} (hi : (s.pc i).inside = true)
    (hn : (s.pc i).storing = none) (c : ℕ × T) : (s.pc j).storing ≠ some c := by
  intro hj
  obtain rfl := h.guarded.unique hi (Pc.inside_of_storing hj)
  rw [hn] at hj
  cases hj

omit [DecidableEq κ] in
theorem completed_of_inside (h : Origin s) {i : κ} (hi : (s.pc i).inside = true)
    (hn : (s.pc i).storing = none) {k : ℕ} {v : T} (hv : s.value = .stored k v) :
    (k, v) ∈ s.completed := by
  rcases h.stored k v hv with hmem | ⟨j, hj⟩
  · exact hmem
  · exact absurd hj (h.not_storing hi hn _)

omit [DecidableEq κ] in
theorem flagged_of_inside (h : Origin s) {i : κ} (hi : (s.pc i).inside = true)
    (hn : (s.pc i).unflagged = none) {k : ℕ} {v : T} (hv : s.value = .stored k v) :
    s.valueSet = true := by
  by_contra hf
  obtain ⟨j, hj⟩ := h.unflagged (by simpa using hf) k v hv
  obtain rfl := h.guarded.unique hi (Pc.inside_of_unflagged hj)
  rw [hn] at hj
  cases hj

theorem step_stored (ht : Trans s a t) (h : Origin s) (k : ℕ) (v : T)
    (hv : t.value = .stored k v) :
    (k, v) ∈ t.completed ∨ ∃ i, (t.pc i).storing = some (k, v) := by
  cases ht with
  | store i w hpc =>
      obtain ⟨rfl, rfl⟩ := Content.stored.inj hv
      exact Or.inr ⟨i, by simp [Pc.storing]⟩
  | complete i l w hpc =>
      have hs := h.storing i l w (by rw [hpc]; rfl)
      obtain ⟨rfl, rfl⟩ := Content.stored.inj (hs.symm.trans hv)
      exact Or.inl (by simp)
  | read i copy hpc =>
      have hcopy : s.value = .stored k v := by
        cases copy with
        | true => exact hv
        | false => cases hv
      exact Or.inl (h.completed_of_inside (i := i) (by rw [hpc]; rfl) (by rw [hpc]; rfl) hcopy)
  | notify i l w hpc =>
      have he := notify_frame (s := s) (i := i) (p := .setNotified l w) Pc.storing (fun _ => rfl)
        (by rw [hpc]; rfl)
      rcases h.stored k v hv with hmem | ⟨j, hj⟩
      · exact Or.inl hmem
      · exact Or.inr ⟨j, (he j).trans hj⟩
  | set i w hpc | get i copy hpc | spurious i copy hpc | lockSet i w hpc hfree | flag i l w hpc
  | lockGet i copy hpc hfree | pass i copy hpc hf | wait i copy hpc hf | block i copy hpc
  | relock i copy hpc hfree | leave i hpc =>
      rcases h.stored k v hv with hmem | ⟨j, hj⟩
      · exact Or.inl hmem
      · exact Or.inr ⟨j, (update_frame Pc.storing (by rw [hpc]; rfl) j).trans hj⟩

theorem step_storing (ht : Trans s a t) (h : Origin s) (j : κ) (k : ℕ) (v : T)
    (hj : (t.pc j).storing = some (k, v)) : t.value = .stored k v := by
  cases ht with
  | store i w hpc =>
      by_cases hji : j = i
      · subst j
        obtain ⟨rfl, rfl⟩ : s.sets = k ∧ w = v := by simpa [Pc.storing] using hj
        rfl
      · have hold : (s.pc j).storing = some (k, v) := by simpa [hji] using hj
        exact absurd hold (h.not_storing (i := i) (by rw [hpc]; rfl) (by rw [hpc]; rfl) _)
  | read i copy hpc =>
      have hold : (s.pc j).storing = some (k, v) :=
        (update_frame Pc.storing (by rw [hpc]; rfl) j).symm.trans hj
      exact absurd hold (h.not_storing (i := i) (by rw [hpc]; rfl) (by rw [hpc]; rfl) _)
  | complete i l w hpc =>
      by_cases hji : j = i
      · subst j
        simp [Pc.storing] at hj
      · exact h.storing j k v (by simpa [hji] using hj)
  | notify i l w hpc =>
      have he := notify_frame (s := s) (i := i) (p := .setNotified l w) Pc.storing (fun _ => rfl)
        (by rw [hpc]; rfl)
      exact h.storing j k v ((he j).symm.trans hj)
  | set i w hpc | get i copy hpc | spurious i copy hpc | lockSet i w hpc hfree | flag i l w hpc
  | lockGet i copy hpc hfree | pass i copy hpc hf | wait i copy hpc hf | block i copy hpc
  | relock i copy hpc hfree | leave i hpc =>
      exact h.storing j k v ((update_frame Pc.storing (by rw [hpc]; rfl) j).symm.trans hj)

theorem step_flagged (ht : Trans s a t) (h : Origin s) (hf : t.valueSet = true) :
    t.value ≠ .default := by
  cases ht with
  | store i v hpc => simp
  | flag i k v hpc =>
      intro hd
      have hs := h.storing i k v (by rw [hpc]; rfl)
      rw [show s.value = .default from hd] at hs
      cases hs
  | read i copy hpc =>
      cases copy with
      | true => exact h.flagged hf
      | false => simp
  | _ => exact h.flagged hf

theorem step_unflagged (ht : Trans s a t) (h : Origin s) (hf : t.valueSet = false) (k : ℕ) (v : T)
    (hv : t.value = .stored k v) : ∃ i, (t.pc i).unflagged = some (k, v) := by
  cases ht with
  | store i w hpc =>
      obtain ⟨rfl, rfl⟩ := Content.stored.inj hv
      exact ⟨i, by simp [Pc.unflagged]⟩
  | flag i l w hpc => cases hf
  | read i copy hpc =>
      have hcopy : s.value = .stored k v := by
        cases copy with
        | true => exact hv
        | false => cases hv
      have htrue := h.flagged_of_inside (i := i) (by rw [hpc]; rfl) (by rw [hpc]; rfl) hcopy
      rw [show s.valueSet = false from hf] at htrue
      cases htrue
  | notify i l w hpc =>
      have he := notify_frame (s := s) (i := i) (p := .setNotified l w) Pc.unflagged (fun _ => rfl)
        (by rw [hpc]; rfl)
      obtain ⟨j, hj⟩ := h.unflagged hf k v hv
      exact ⟨j, (he j).trans hj⟩
  | set i w hpc | get i copy hpc | spurious i copy hpc | lockSet i w hpc hfree | complete i l w hpc
  | lockGet i copy hpc hfree | pass i copy hpc hf' | wait i copy hpc hf' | block i copy hpc
  | relock i copy hpc hfree | leave i hpc =>
      obtain ⟨j, hj⟩ := h.unflagged hf k v hv
      exact ⟨j, (update_frame Pc.unflagged (by rw [hpc]; rfl) j).trans hj⟩

end Origin

theorem reachable_origin (h : (future κ T).Reachable s) : Origin s := by
  refine h.invariant ?_ (fun _ hi hst => ?_)
  · constructor <;> simp [future, Guarded, Pc.inside, Pc.storing]
  · have ht := step_trans hst
    exact ⟨hi.step_guarded ht, hi.step_stored ht, hi.step_storing ht, hi.step_flagged ht,
      hi.step_unflagged ht⟩

omit [DecidableEq κ] in
/-- The content a reader finds is a completed `set` exactly under the condition. -/
theorem Origin.good_iff (h : Origin s) {i : κ} {copy : Bool} (hpc : s.pc i = .getReading copy) :
    Return.Good ⟨s.value, s.completed⟩ ↔ s.valueSet = true ∧ s.value ≠ .remains := by
  have hin : (s.pc i).inside = true := by rw [hpc]; rfl
  constructor
  · rintro ⟨k, v, hv, _⟩
    change s.value = .stored k v at hv
    exact ⟨h.flagged_of_inside hin (by rw [hpc]; rfl) hv, by simp [hv]⟩
  · rintro ⟨hf, hr⟩
    cases hv : s.value with
    | default => exact absurd hv (h.flagged hf)
    | remains => exact absurd hv hr
    | stored k v => exact ⟨k, v, rfl, h.completed_of_inside hin (by rw [hpc]; rfl) hv⟩

/-- A step adds to the values returned only by reading. -/
theorem trans_returned (ht : Trans s a t) :
    t.returned = s.returned ∨ ∃ i copy, a = .thread i ∧ s.pc i = .getReading copy ∧
      t.returned = s.returned ++ [⟨s.value, s.completed⟩] := by
  cases ht with
  | read i copy hpc => exact Or.inr ⟨i, copy, rfl, hpc, rfl⟩
  | _ => exact Or.inl rfl

theorem good_of_readsFresh (h : (future κ T).ReachableBy ReadsFresh s) :
    ∀ r ∈ s.returned, r.Good := by
  apply h.invariant (I := fun s => ∀ r ∈ s.returned, r.Good) (by simp [future])
  intro s t a hr hi hc hst r hmem
  rcases trans_returned (step_trans hst) with he | ⟨i, copy, rfl, hpc, he⟩
  · exact hi r (by rwa [he] at hmem)
  · rw [he, List.mem_append, List.mem_singleton] at hmem
    rcases hmem with hmem | rfl
    · exact hi r hmem
    · exact ((reachable_origin hr.reachable).good_iff hpc).2 (hc i copy rfl hpc)

/-- Along every run, all gets so far have returned the value of a `set` completed
before, if and only if every read of the run found `value_set_` set and the
content not moved out since the last store. -/
theorem get_returns_set_value_iff (as : List (Act κ T)) (h : (future κ T).run as = some s) :
    (∀ r ∈ s.returned, r.Good) ↔ (future κ T).Meets ReadsFresh (future κ T).init as := by
  constructor
  · intro hgood
    refine Machine.Reachable.meets_of_mark (K := fun s => ∃ r ∈ s.returned, ¬ r.Good)
      Machine.ReachableBy.init ?_ ?_ h (fun ⟨r, hr, hbad⟩ => hbad (hgood r hr))
    · intro s t a hr hc hst
      unfold ReadsFresh at hc
      push Not at hc
      obtain ⟨i, copy, rfl, hpc, hbad⟩ := hc
      have ht : t.returned = s.returned ++ [⟨s.value, s.completed⟩] := by
        have hth : threadStep s i = some t := hst
        simp only [threadStep, hpc, Option.some.injEq] at hth
        rw [← hth]
      refine ⟨⟨s.value, s.completed⟩, by simp [ht], fun hg => ?_⟩
      obtain ⟨hf, hne⟩ := ((reachable_origin hr).good_iff hpc).1 hg
      exact hne (hbad hf)
    · rintro s t a _ ⟨r, hr, hbad⟩ hst
      refine ⟨r, ?_, hbad⟩
      rcases trans_returned (step_trans hst) with he | ⟨_, _, _, _, he⟩
      · rwa [he]
      · rw [he]
        exact List.mem_append_left _ hr
  · intro hm
    exact good_of_readsFresh (Machine.ReachableBy.runFrom Machine.ReachableBy.init hm h)

/-- A `get` waits, wakes spuriously and reads before any `set`. -/
def spuriousGet : List (Act (Fin 1) ℕ) :=
  [.get 0 true, .thread 0, .thread 0, .thread 0, .spurious 0, .thread 0, .thread 0, .thread 0]

/-- After one `set`, two calls of `get(false)` one after the other. -/
def secondGet : List (Act (Fin 1) ℕ) :=
  [.set 0 7, .thread 0, .thread 0, .thread 0, .thread 0, .thread 0,
    .get 0 false, .thread 0, .thread 0, .thread 0, .thread 0,
    .get 0 false, .thread 0, .thread 0, .thread 0, .thread 0]

theorem get_returns_default_or_remains :
    (∃ s, (future (Fin 1) ℕ).run spuriousGet = some s ∧ s.returned = [⟨.default, []⟩]) ∧
    (∃ s, (future (Fin 1) ℕ).run secondGet = some s ∧
      s.returned = [⟨.stored 0 7, [(0, 7)]⟩, ⟨.remains, [(0, 7)]⟩]) := by
  have hspurious : ((future (Fin 1) ℕ).run spuriousGet).map State.returned =
      some [⟨.default, []⟩] := by decide +kernel
  have hsecond : ((future (Fin 1) ℕ).run secondGet).map State.returned =
      some [⟨.stored 0 7, [(0, 7)]⟩, ⟨.remains, [(0, 7)]⟩] := by decide +kernel
  exact ⟨Option.map_eq_some_iff.1 hspurious, Option.map_eq_some_iff.1 hsecond⟩

/-- One `set`, then one `get(false)`. -/
def setThenGet : List (Act (Fin 1) ℕ) :=
  [.set 0 7, .thread 0, .thread 0, .thread 0, .thread 0, .thread 0,
    .get 0 false, .thread 0, .thread 0, .thread 0, .thread 0]

theorem get_returns_set_value_iff_setThenGet :
    ∃ s, (future (Fin 1) ℕ).run setThenGet = some s ∧ s.returned = [⟨.stored 0 7, [(0, 7)]⟩] ∧
      (future (Fin 1) ℕ).Meets ReadsFresh (future (Fin 1) ℕ).init setThenGet := by
  have hrun : ((future (Fin 1) ℕ).run setThenGet).map State.returned =
      some [⟨.stored 0 7, [(0, 7)]⟩] := by decide +kernel
  obtain ⟨s, hs, hret⟩ := Option.map_eq_some_iff.1 hrun
  refine ⟨s, hs, hret, (get_returns_set_value_iff setThenGet hs).1 ?_⟩
  rw [hret]
  exact List.forall_mem_singleton.2 ⟨0, 7, rfl, List.mem_singleton_self _⟩

end Londa.MyFutureValue
