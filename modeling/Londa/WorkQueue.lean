import Londa.Monitor
import Mathlib.Data.List.Nodup
import Mathlib.Data.List.Perm.Basic

/-!
# A task queue with its history

A FIFO queue of tasks served by workers, with three histories: the tasks
submitted in push order, the tasks dequeued with the worker that took them, and
the calls made. The position of a task in the order of dequeueing is its ticket.
`Ledger q hand` ties the histories to the tickets in the hands of the workers,
and the operations of the queue keep it; `exactly_once` is what it is for.
-/

namespace Londa

/-- One call of a task by a worker. -/
structure Call (ι τ : Type*) where
  worker : ι
  ticket : ℕ
  task : τ
  deriving DecidableEq

structure WorkQueue (ι τ : Type*) where
  tasks : List τ
  submitted : List τ
  dequeued : List (ι × τ)
  ran : List (Call ι τ)

namespace WorkQueue

variable {ι τ : Type*}

def empty : WorkQueue ι τ := ⟨[], [], [], []⟩

@[simps] def push (q : WorkQueue ι τ) (x : τ) : WorkQueue ι τ :=
  { q with tasks := q.tasks ++ [x], submitted := q.submitted ++ [x] }

/-- Worker `i` takes the front `x`, which leaves `rest`. -/
@[simps] def pop (q : WorkQueue ι τ) (i : ι) (x : τ) (rest : List τ) : WorkQueue ι τ :=
  { q with tasks := rest, dequeued := q.dequeued ++ [(i, x)] }

@[simps] def call (q : WorkQueue ι τ) (c : Call ι τ) : WorkQueue ι τ :=
  { q with ran := q.ran ++ [c] }

/-- `hand i` is the ticket and the task that worker `i` has taken and not yet called. -/
structure Ledger (q : WorkQueue ι τ) (hand : ι → Option (ℕ × τ)) : Prop where
  fifo : q.dequeued.map Prod.snd ++ q.tasks = q.submitted
  held : ∀ i k x, hand i = some (k, x) →
    q.dequeued[k]? = some (i, x) ∧ k ∉ q.ran.map Call.ticket
  ran : ∀ c ∈ q.ran, q.dequeued[c.ticket]? = some (c.worker, c.task)
  nodup : (q.ran.map Call.ticket).Nodup
  covered : ∀ k < q.dequeued.length, k ∈ q.ran.map Call.ticket ∨ ∃ i x, hand i = some (k, x)

namespace Ledger

variable {q : WorkQueue ι τ} {hand hand' : ι → Option (ℕ × τ)}

theorem empty (hidle : ∀ i, hand i = none) : Ledger empty hand := by
  constructor <;> simp [WorkQueue.empty, hidle]

theorem congr (h : Ledger q hand) (hc : ∀ i, hand' i = hand i) : Ledger q hand' := by
  rw [funext hc]
  exact h

theorem ticket_lt (h : Ledger q hand) {k : ℕ} (hk : k ∈ q.ran.map Call.ticket) :
    k < q.dequeued.length := by
  obtain ⟨c, hc, rfl⟩ := List.mem_map.1 hk
  exact (List.getElem?_eq_some_iff.1 (h.ran c hc)).1

theorem push (h : Ledger q hand) (x : τ) : Ledger (q.push x) hand := by
  refine ⟨?_, h.held, h.ran, h.nodup, h.covered⟩
  rw [push_dequeued, push_tasks, push_submitted, ← h.fifo, List.append_assoc]

theorem pop (h : Ledger q hand) {i : ι} {x : τ} {rest : List τ} (hidle : hand i = none)
    (hq : q.tasks = x :: rest) (hi : hand' i = some (q.dequeued.length, x))
    (hne : ∀ j, j ≠ i → hand' j = hand j) : Ledger (q.pop i x rest) hand' := by
  have hkeep : ∀ {k : ℕ} {y : ι × τ}, q.dequeued[k]? = some y →
      (q.pop i x rest).dequeued[k]? = some y := by
    intro k y hy
    rw [pop_dequeued, List.getElem?_append_left (List.getElem?_eq_some_iff.1 hy).1, hy]
  refine ⟨?_, ?_, fun c hc => hkeep (h.ran c hc), h.nodup, ?_⟩
  · rw [pop_dequeued, pop_tasks, pop_submitted, ← h.fifo, hq]
    simp
  · intro j k y hy
    by_cases hj : j = i
    · subst j
      obtain ⟨rfl, rfl⟩ : q.dequeued.length = k ∧ x = y := by simpa [hi] using hy
      refine ⟨by simp, fun hk => ?_⟩
      exact (lt_irrefl _) (h.ticket_lt hk)
    · rw [hne j hj] at hy
      exact ⟨hkeep (h.held j k y hy).1, (h.held j k y hy).2⟩
  · intro k hk
    rw [pop_dequeued, List.length_append, List.length_singleton] at hk
    by_cases hlast : k = q.dequeued.length
    · exact Or.inr ⟨i, x, by rw [hi, hlast]⟩
    · rcases h.covered k (by omega) with hmem | ⟨j, y, hy⟩
      · exact Or.inl hmem
      · have hj : j ≠ i := by
          rintro rfl
          rw [hidle] at hy
          cases hy
        exact Or.inr ⟨j, y, by rw [hne j hj, hy]⟩

theorem call (h : Ledger q hand) {i : ι} {k : ℕ} {x : τ} (hi : hand i = some (k, x))
    (hi' : hand' i = none) (hne : ∀ j, j ≠ i → hand' j = hand j) :
    Ledger (q.call ⟨i, k, x⟩) hand' := by
  obtain ⟨hdeq, hnew⟩ := h.held i k x hi
  refine ⟨h.fifo, ?_, ?_, ?_, ?_⟩
  · intro j l y hy
    have hj : j ≠ i := by
      rintro rfl
      rw [hi'] at hy
      cases hy
    rw [hne j hj] at hy
    obtain ⟨hl, hmem⟩ := h.held j l y hy
    have hlk : l ≠ k := by
      rintro rfl
      rw [hdeq] at hl
      exact hj (congrArg Prod.fst (Option.some.inj hl)).symm
    exact ⟨hl, by simpa [hlk] using hmem⟩
  · intro c hc
    rw [call_ran, List.mem_append, List.mem_singleton] at hc
    rcases hc with hc | rfl
    · exact h.ran c hc
    · exact hdeq
  · rw [call_ran, List.map_append]
    exact List.Nodup.append h.nodup (List.nodup_singleton _) (by simpa using hnew)
  · intro l hl
    by_cases hlk : l = k
    · exact Or.inl (by simp [hlk])
    · rcases h.covered l hl with hmem | ⟨j, y, hy⟩
      · exact Or.inl (by rw [call_ran, List.map_append]; exact List.mem_append_left _ hmem)
      · have hj : j ≠ i := by
          rintro rfl
          rw [hi] at hy
          exact hlk (congrArg Prod.fst (Option.some.inj hy)).symm
        exact Or.inr ⟨j, y, by rw [hne j hj, hy]⟩

theorem filter_ticket (h : Ledger q hand) {k : ℕ} (hk : k ∈ q.ran.map Call.ticket) :
    ∃ c, q.ran.filter (fun c => c.ticket == k) = [c] ∧
      q.dequeued[k]? = some (c.worker, c.task) := by
  obtain ⟨c, hc, rfl⟩ := List.mem_map.1 hk
  have hcount : (q.ran.filter (fun d => d.ticket == c.ticket)).length = 1 := by
    have hone := List.count_eq_one_of_mem h.nodup (List.mem_map_of_mem hc)
    rw [List.count_eq_countP, List.countP_map, List.countP_eq_length_filter] at hone
    simpa [Function.comp_def] using hone
  obtain ⟨d, hd⟩ := List.length_eq_one_iff.1 hcount
  have hcd : c ∈ q.ran.filter (fun d => d.ticket == c.ticket) := by simp [hc]
  rw [hd, List.mem_singleton] at hcd
  subst d
  exact ⟨c, hd, h.ran c hc⟩

/-- With an empty queue and empty hands every submitted task was called once. -/
theorem exactly_once (h : Ledger q hand) (hempty : q.tasks = []) (hidle : ∀ i, hand i = none)
    (k : ℕ) (hk : k < q.submitted.length) :
    ∃ c, q.ran.filter (fun c => c.ticket == k) = [c] ∧ c.task = q.submitted[k] := by
  have hsub : q.dequeued.map Prod.snd = q.submitted := by
    rw [← h.fifo, hempty, List.append_nil]
  have hran : k ∈ q.ran.map Call.ticket := by
    rcases h.covered k (by rw [← hsub, List.length_map] at hk; exact hk) with hmem | ⟨i, x, hx⟩
    · exact hmem
    · rw [hidle i] at hx
      cases hx
  obtain ⟨c, hfilter, hdeq⟩ := h.filter_ticket hran
  refine ⟨c, hfilter, ?_⟩
  have hk' : q.submitted[k]? = some c.task := by rw [← hsub, List.getElem?_map, hdeq]; rfl
  exact (List.getElem_eq_iff hk).2 hk' |>.symm

/-- The tasks called are then the submitted ones. -/
theorem ran_perm (h : Ledger q hand) (hempty : q.tasks = []) (hidle : ∀ i, hand i = none) :
    (q.ran.map Call.task).Perm q.submitted := by
  have htickets : (q.ran.map Call.ticket).Perm (List.range q.dequeued.length) := by
    rw [List.perm_ext_iff_of_nodup h.nodup List.nodup_range]
    intro k
    rw [List.mem_range]
    refine ⟨h.ticket_lt, fun hk => ?_⟩
    rcases h.covered k hk with hmem | ⟨i, x, hx⟩
    · exact hmem
    · rw [hidle i] at hx
      cases hx
  have hcalls : (q.ran.map Call.ticket).map (fun k => q.dequeued[k]?) =
      (q.ran.map (fun c => (c.worker, c.task))).map some := by
    rw [List.map_map, List.map_map]
    exact List.map_congr_left h.ran
  have hall : (List.range q.dequeued.length).map (fun k => q.dequeued[k]?) =
      q.dequeued.map some := by
    apply List.ext_getElem <;> simp
  have hperm := htickets.map (fun k => q.dequeued[k]?)
  rw [hcalls, hall, List.map_perm_map_iff (Option.some_injective _)] at hperm
  have htasks := hperm.map Prod.snd
  rw [List.map_map] at htasks
  rw [← h.fifo, hempty, List.append_nil]
  exact htasks

end Ledger
end WorkQueue
end Londa
