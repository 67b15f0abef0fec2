import Londa.Machine

/-!
# An allocator that caches its first block

Model of `dcl::allocator` in `code/lang/my_allocater.cpp`. `operator new` is a call to the
environment, which answers with the address of storage that is free; `operator delete` on
an address without live storage is undefined and recorded in `fault`, after which no step
is taken. `handles` are the blocks that the caller has been given and has not given back,
each with the number of objects it asked for.

`allocate` asks for storage once and hands out the same address ever after, so the contract
of an allocator is kept exactly as long as it is called once.
-/

namespace Londa.MyAllocater

abbrev Ptr := ℕ

def UINT_MAX : ℕ := 2 ^ 32 - 1

/-- The member `hole`, which is never assigned. -/
def hole : Ptr := 0

/-- The first byte and the number of bytes. -/
abbrev Block := Ptr × ℕ

structure State where
  start : Ptr
  heap : List Block
  handles : List (Ptr × ℕ)
  fault : Bool
  deriving DecidableEq

inductive Act
  | allocate (n : ℕ) (storage : Ptr)
  | deallocate (ptr : Ptr) (n : ℕ)
  deriving DecidableEq

def Act.isAllocate : Act → Bool
  | .allocate _ _ => true
  | .deallocate _ _ => false

/-- Two blocks that have no byte in common and start at different addresses. -/
def Apart (b c : Block) : Prop := b.1 ≠ c.1 ∧ (b.1 + b.2 ≤ c.1 ∨ c.1 + c.2 ≤ b.1)

instance (b c : Block) : Decidable (Apart b c) :=
  inferInstanceAs (Decidable (b.1 ≠ c.1 ∧ (b.1 + b.2 ≤ c.1 ∨ c.1 + c.2 ≤ b.1)))

/-- `::operator new(bytes)`: storage other than null that is apart from all that is live. -/
def operatorNew (s : State) (bytes : ℕ) (storage : Ptr) : Option State :=
  if storage ≠ 0 ∧ ∀ b ∈ s.heap, Apart b (storage, bytes) then
    some { s with heap := s.heap ++ [(storage, bytes)] }
  else none

/-- `::operator delete(buffer)`. -/
def operatorDelete (s : State) (buffer : Ptr) : State :=
  if ∃ b ∈ s.heap, b.1 = buffer then { s with heap := s.heap.filter fun b => b.1 ≠ buffer }
  else { s with fault := true }

section

variable (sizeof : ℕ)

def max_size : ℕ := UINT_MAX / sizeof

/-- `_allocate`; the product is computed in `size_t`. -/
def _allocate (s : State) (n : ℕ) (storage : Ptr) : Option State :=
  operatorNew s (n * sizeof % 2 ^ 64) storage

/-- The pointer returned, and the state afterwards. -/
def allocate (s : State) (n : ℕ) (storage : Ptr) : Option (Ptr × State) :=
  if s.start ≠ hole then some (s.start, s)
  else (_allocate sizeof s n storage).map fun s => (storage, { s with start := storage })

def _deallocate (s : State) (buffer : Ptr) : State := operatorDelete s buffer

def deallocate (s : State) (ptr : Ptr) (_n : ℕ) : State := _deallocate s ptr

/-- The caller asks for at most `max_size()` objects and gives back what it holds. -/
def step (s : State) (a : Act) : Option State :=
  if s.fault then none
  else match a with
    | .allocate n storage =>
        if n ≤ max_size sizeof then
          (allocate sizeof s n storage).map fun r =>
            { r.2 with handles := s.handles ++ [(r.1, n)] }
        else none
    | .deallocate ptr n =>
        if (ptr, n) ∈ s.handles then
          some { deallocate s ptr n with handles := s.handles.erase (ptr, n) }
        else none

def start : State where
  start := hole
  heap := []
  handles := []
  fault := false

def program : Machine State Act where
  init := start
  step := step sizeof

/-- The block of a handle. -/
def extent (b : Ptr × ℕ) : Block := (b.1, b.2 * sizeof)

/-- The block returned is live, long enough and apart from all blocks that the caller
still holds. -/
def Contract (s : State) : Act → Prop
  | .allocate n storage => ∀ p t, allocate sizeof s n storage = some (p, t) →
      (∃ b ∈ t.heap, b.1 = p ∧ n * sizeof ≤ b.2) ∧
        ∀ b ∈ s.handles, Apart (extent sizeof b) (extent sizeof (p, n))
  | .deallocate _ _ => True

end

variable {sizeof : ℕ} {s t : State}

/-- Nothing was allocated yet, or there is one block at most and every handle points to
it; while it is live somebody holds it. -/
inductive Inv (s : State) : Prop
  | unused : s.start = hole → s.heap = [] → s.handles = [] → Inv s
  | cached : s.start ≠ hole → (∀ b ∈ s.heap, b.1 = s.start) → (∀ b ∈ s.handles, b.1 = s.start) →
      (s.heap ≠ [] → s.handles ≠ []) → Inv s

theorem allocate_of_start_ne {n : ℕ} {storage : Ptr} (h : s.start ≠ hole) :
    allocate sizeof s n storage = some (s.start, s) := if_pos h

theorem allocate_of_start_eq {n : ℕ} {storage p : Ptr} (h : s.start = hole)
    (ha : allocate sizeof s n storage = some (p, t)) :
    p = storage ∧ storage ≠ 0 ∧
      t = { s with start := storage, heap := s.heap ++ [(storage, n * sizeof % 2 ^ 64)] } := by
  unfold allocate _allocate operatorNew at ha
  rw [if_neg (not_not.2 h)] at ha
  split at ha
  · rename_i hnew
    cases ha
    exact ⟨rfl, hnew.1, rfl⟩
  · cases ha

/-- What a step does. -/
inductive Trans (sizeof : ℕ) (s : State) : Act → State → Prop
  | first (n : ℕ) (storage : Ptr) : n ≤ max_size sizeof → s.start = hole → storage ≠ 0 →
      Trans sizeof s (.allocate n storage) { s with
        start := storage
        heap := s.heap ++ [(storage, n * sizeof % 2 ^ 64)]
        handles := s.handles ++ [(storage, n)] }
  | again (n : ℕ) (storage : Ptr) : s.start ≠ hole →
      Trans sizeof s (.allocate n storage) { s with handles := s.handles ++ [(s.start, n)] }
  | delete (ptr : Ptr) (n : ℕ) : (ptr, n) ∈ s.handles → (∃ b ∈ s.heap, b.1 = ptr) →
      Trans sizeof s (.deallocate ptr n) { s with
        heap := s.heap.filter fun b => b.1 ≠ ptr
        handles := s.handles.erase (ptr, n) }
  | fault (ptr : Ptr) (n : ℕ) : (ptr, n) ∈ s.handles → (¬ ∃ b ∈ s.heap, b.1 = ptr) →
      Trans sizeof s (.deallocate ptr n) { s with
        fault := true
        handles := s.handles.erase (ptr, n) }

theorem step_trans {a : Act} (h : step sizeof s a = some t) : Trans sizeof s a t := by
  unfold step at h
  split at h
  · cases h
  · cases a with
    | allocate n storage =>
        dsimp only at h
        split at h
        · rename_i hn
          obtain ⟨⟨p, u⟩, ha, rfl⟩ := Option.map_eq_some_iff.1 h
          by_cases hstart : s.start = hole
          · obtain ⟨rfl, hne, rfl⟩ := allocate_of_start_eq hstart ha
            exact .first n p hn hstart hne
          · rw [allocate_of_start_ne hstart] at ha
            cases ha
            exact .again n storage hstart
        · cases h
    | deallocate ptr n =>
        dsimp only at h
        split at h
        · rename_i hmem
          cases h
          unfold deallocate _deallocate operatorDelete
          split
          · rename_i hlive
            exact .delete ptr n hmem hlive
          · rename_i hlive
            exact .fault ptr n hmem hlive
        · cases h

theorem Inv.step {a : Act} (h : Inv s) (ht : Trans sizeof s a t) : Inv t := by
  cases ht with
  | first n storage hn hstart hne =>
      cases h with
      | unused _ hheap hhandles =>
          refine .cached hne ?_ ?_ ?_
          · simp [hheap]
          · simp [hhandles]
          · simp
      | cached hcached => exact absurd hstart hcached
  | again n storage hstart =>
      cases h with
      | unused hnone => exact absurd hnone hstart
      | cached _ hheap hhandles hheld =>
          refine .cached hstart hheap ?_ ?_
          · simpa [or_imp, forall_and] using hhandles
          · simp
  | delete ptr n hmem hlive =>
      cases h with
      | unused _ hheap => simp [hheap] at hlive
      | cached hstart hheap hhandles hheld =>
          have hptr : ptr = s.start := hhandles _ hmem
          have hempty : s.heap.filter (fun b => b.1 ≠ ptr) = [] := by
            rw [List.filter_eq_nil_iff]
            intro b hb
            simp [hheap b hb, hptr]
          refine .cached hstart ?_ ?_ ?_
          · rw [hempty]
            exact nofun
          · exact fun b hb => hhandles b (List.mem_of_mem_erase hb)
          · exact fun hne => absurd hempty hne
  | fault ptr n hmem hdead =>
      cases h with
      | unused _ _ hnone => simp [hnone] at hmem
      | cached hstart hheap hhandles hheld =>
          have hptr : ptr = s.start := hhandles _ hmem
          have hempty : s.heap = [] := by
            rw [List.eq_nil_iff_forall_not_mem]
            exact fun b hb => hdead ⟨b, hb, (hheap b hb).trans hptr.symm⟩
          refine .cached hstart hheap ?_ ?_
          · exact fun b hb => hhandles b (List.mem_of_mem_erase hb)
          · exact fun hne => absurd hempty hne

theorem inv_of_reachable (h : (program sizeof).Reachable s) : Inv s := by
  apply h.invariant (I := Inv) (.unused rfl rfl rfl)
  exact fun _ hi hst => hi.step (step_trans hst)

/-- The step is not an `allocate`, or it is the first one. -/
def First (s : State) (a : Act) : Prop := a.isAllocate → s.start = hole

/-- A request within `max_size()` does not wrap. -/
theorem bytes_eq {n : ℕ} (h : n ≤ max_size sizeof) : n * sizeof % 2 ^ 64 = n * sizeof := by
  have hle : n * sizeof ≤ UINT_MAX :=
    Nat.le_trans (Nat.mul_le_mul_right sizeof h) (Nat.div_mul_le_self UINT_MAX sizeof)
  unfold UINT_MAX at hle
  exact Nat.mod_eq_of_lt (by omega)

theorem contract_iff_first {a : Act} (h : Inv s) (hst : step sizeof s a = some t) :
    Contract sizeof s a ↔ First s a := by
  cases step_trans hst with
  | first n storage hn hstart hne =>
      refine iff_of_true ?_ (fun _ => hstart)
      intro p u ha
      obtain ⟨rfl, -, rfl⟩ := allocate_of_start_eq hstart ha
      cases h with
      | unused _ hheap hhandles =>
          refine ⟨⟨_, List.mem_append_right _ (List.mem_singleton_self _), rfl, ?_⟩, ?_⟩
          · exact Nat.le_of_eq (bytes_eq hn).symm
          · simp [hhandles]
      | cached hcached => exact absurd hstart hcached
  | again n storage hstart =>
      refine iff_of_false ?_ (fun hf => hstart (hf rfl))
      intro hc
      obtain ⟨⟨b, hb, -⟩, hapart⟩ := hc _ _ (allocate_of_start_ne hstart)
      cases h with
      | unused hnone => exact hstart hnone
      | cached _ hheap hhandles hheld =>
          obtain ⟨c, hmem⟩ := List.exists_mem_of_ne_nil _ (hheld (List.ne_nil_of_mem hb))
          exact (hapart c hmem).1 (hhandles c hmem)
  | delete ptr n | fault ptr n => exact iff_of_true trivial nofun

theorem meets_first_iff {as : List Act} (h : (program sizeof).runFrom s as = some t) :
    (program sizeof).Meets First s as ↔
      as.countP Act.isAllocate ≤ if s.start = hole then 1 else 0 := by
  induction as generalizing s with
  | nil => simp [Machine.Meets]
  | cons a as ih =>
      obtain ⟨u, hu, hrest⟩ := (program sizeof).runFrom_cons_eq_some.1 h
      have hmeets : (program sizeof).Meets First s (a :: as) ↔
          First s a ∧ (program sizeof).Meets First u as := by
        refine and_congr_right fun _ => ⟨fun hm => hm u hu, fun hm v hv => ?_⟩
        obtain rfl : u = v := Option.some.inj (hu.symm.trans hv)
        exact hm
      rw [hmeets, ih hrest, List.countP_cons]
      cases step_trans hu with
      | first n storage hn hstart hne =>
          have hfirst : First s (.allocate n storage) := fun _ => hstart
          have hne' : storage ≠ hole := hne
          simp [hfirst, hstart, hne', Act.isAllocate]
      | again n storage hstart =>
          have hnot : ¬ First s (.allocate n storage) := fun hf => hstart (hf rfl)
          simp [hnot, hstart, Act.isAllocate]
      | delete ptr n | fault ptr n =>
          have hfirst : First s (.deallocate ptr n) := nofun
          simp [hfirst, Act.isAllocate]

/-- A caller that moves from its one block to a new one, as a growing vector does, ends
with a block that is not live. -/
theorem grown_block_released {p q : Ptr} {n m : ℕ} (h : (program sizeof).Reachable s)
    (hone : s.handles = [(q, n)])
    (hrun : (program sizeof).runFrom s [.allocate m p, .deallocate q n] = some t) :
    t.handles = [(q, m)] ∧ t.heap = [] := by
  obtain ⟨u, hu, hrest⟩ := (program sizeof).runFrom_cons_eq_some.1 hrun
  obtain ⟨v, hv, hend⟩ := (program sizeof).runFrom_cons_eq_some.1 hrest
  obtain rfl : v = t := Option.some.inj hend
  have hallocate : step sizeof s (.allocate m p) = some u := hu
  have hdeallocate : step sizeof u (.deallocate q n) = some v := hv
  cases inv_of_reachable h with
  | unused _ _ hnone => simp [hone] at hnone
  | cached hstart hheap hhandles _ =>
      have hq : q = s.start := hhandles (q, n) (by simp [hone])
      cases step_trans hallocate with
      | first _ _ _ hnone => exact absurd hnone hstart
      | again =>
          cases step_trans hdeallocate with
          | delete _ _ _ hlive =>
              refine ⟨by simp [hone, hq], List.filter_eq_nil_iff.2 fun b hb => ?_⟩
              simp [hheap b hb, hq]
          | fault _ _ _ hdead =>
              refine ⟨by simp [hone, hq], List.eq_nil_iff_forall_not_mem.2 fun b hb => ?_⟩
              exact hdead ⟨b, hb, (hheap b hb).trans hq.symm⟩

/-- The contract is kept by the runs that allocate once at most. -/
theorem contract_iff_allocates_once :
    (∀ as t, (program sizeof).run as = some t →
      ((program sizeof).Meets (Contract sizeof) (program sizeof).init as ↔
        as.countP Act.isAllocate ≤ 1)) ∧
      ∀ s t p q n m, (program sizeof).Reachable s → s.handles = [(q, n)] →
        (program sizeof).runFrom s [.allocate m p, .deallocate q n] = some t →
        t.handles = [(q, m)] ∧ t.heap = [] := by
  refine ⟨fun as t h => ?_, fun s t p q n m => grown_block_released⟩
  have hfirst : (program sizeof).Meets (Contract sizeof) (program sizeof).init as ↔
      (program sizeof).Meets First (program sizeof).init as := by
    apply Machine.Reachable.meets_congr .init _ h
    exact fun hr hst => contract_iff_first (inv_of_reachable hr) hst
  have hunused : (program sizeof).init.start = hole := rfl
  rw [hfirst, meets_first_iff h, if_pos hunused]

/-- A vector that reserves its storage at once keeps the contract; one that grows is left with
released storage. -/
theorem contract_iff_allocates_once_reserved :
    (∃ t, (program 4).run [.allocate 3 16, .deallocate 16 3] = some t ∧
      (program 4).Meets (Contract 4) (program 4).init [.allocate 3 16, .deallocate 16 3]) ∧
    ∃ s t, (program 4).Reachable s ∧ s.handles = [(16, 1)] ∧
      (program 4).runFrom s [.allocate 2 64, .deallocate 16 1] = some t ∧
      t.handles = [(16, 2)] ∧ t.heap = [] := by
  constructor
  · have hrun : (program 4).run [.allocate 3 16, .deallocate 16 3] =
        some ⟨16, [], [], false⟩ := by decide
    exact ⟨_, hrun, (contract_iff_allocates_once.1 _ _ hrun).2 (by decide)⟩
  · have hrun : (program 4).run [.allocate 1 16] = some ⟨16, [(16, 4)], [(16, 1)], false⟩ := by
      decide
    have hgrow : (program 4).runFrom ⟨16, [(16, 4)], [(16, 1)], false⟩
        [.allocate 2 64, .deallocate 16 1] = some ⟨16, [], [(16, 2)], false⟩ := by decide
    have hr := Machine.reachable_of_run _ hrun
    exact ⟨_, _, hr, rfl, hgrow, contract_iff_allocates_once.2 _ _ 64 16 1 2 hr rfl hgrow⟩

/-- A vector of four-byte objects grows from one element to two: the second block is the
first one, and is released with it. -/
theorem second_block_overlaps :
    ∃ s t, (program 4).run [.allocate 1 16] = some s ∧ allocate 4 s 2 64 = some (16, s) ∧
      (16, 1) ∈ s.handles ∧ ¬ Contract 4 s (.allocate 2 64) ∧
      (program 4).runFrom s [.allocate 2 64, .deallocate 16 1] = some t ∧
      (16, 2) ∈ t.handles ∧ t.heap = [] := by
  refine ⟨⟨16, [(16, 4)], [(16, 1)], false⟩, ⟨16, [], [(16, 2)], false⟩, by decide, by decide,
    by decide, fun hc => ?_, by decide, by decide, rfl⟩
  exact ((hc 16 _ rfl).2 (16, 1) (by decide)).1 rfl

end Londa.MyAllocater
