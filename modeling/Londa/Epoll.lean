import Mathlib.Logic.Function.Basic
import Mathlib.Data.List.Nodup

/-!
# Descriptors and the epoll interest list

A kernel maps every open descriptor to the file behind it. Files are numbered in
the order in which they are opened, so that a descriptor number which is closed
and handed out again is told apart from its earlier use. The interest list holds
at most one registration for each descriptor: an event mask and the user data
that `epoll_wait` returns with its events. `close` also drops the registration.

A batch is what one `epoll_wait` returned and the process has not handled yet.
It is `Current` while each of its entries is what the kernel would still report;
an operation on a descriptor that the batch does not name keeps it so.
-/

namespace Londa.Epoll

abbrev Events := BitVec 32

def EPOLLIN : Events := 0x001
def EPOLLOUT : Events := 0x004
def EPOLLERR : Events := 0x008
def EPOLLHUP : Events := 0x010
def EPOLLET : Events := 0x80000000

/-- The test `events & bit` of a C condition. -/
def has (events bit : Events) : Bool := events &&& bit != 0

/-- The kernel reports events of the mask, and errors and hang-ups unasked. -/
def covers (mask events : Events) : Bool :=
  events &&& ~~~(mask ||| EPOLLERR ||| EPOLLHUP) == 0

theorem has_eq_false_of_covers {mask events bit : Events} (h : covers mask events)
    (hm : (mask ||| EPOLLERR ||| EPOLLHUP) &&& bit = 0) : has events bit = false := by
  have h' : events &&& ~~~(mask ||| EPOLLERR ||| EPOLLHUP) = 0 := by simpa [covers] using h
  have hzero : events &&& bit = 0 := by
    generalize mask ||| EPOLLERR ||| EPOLLHUP = m at h' hm
    apply BitVec.eq_of_getLsbD_eq
    intro i hi
    have h₁ := congrArg (fun v => v.getLsbD i) h'
    have h₂ := congrArg (fun v => v.getLsbD i) hm
    simp only [BitVec.getLsbD_and, BitVec.getLsbD_not, hi, decide_true, Bool.true_and] at h₁ h₂ ⊢
    cases hb : m.getLsbD i with
    | false => simp_all
    | true => simp_all
  simp [has, hzero]

structure Registration (δ : Type*) where
  events : Events
  data : δ
  deriving DecidableEq

/-- One entry of the array that `epoll_wait` fills. The process sees `events` and
`data`; `fd` and `file` say for which descriptor, and for which file behind it,
the kernel made the entry. -/
structure Report (φ δ : Type*) where
  fd : φ
  file : ℕ
  events : Events
  data : δ
  deriving DecidableEq

structure Kernel (φ δ : Type*) where
  file : φ → Option ℕ
  interest : φ → Option (Registration δ)
  next : ℕ

namespace Kernel

variable {φ δ : Type*}

section Reporting

variable (k : Kernel φ δ)

def report (ready : φ × Events) : Option (Report φ δ) :=
  (k.file ready.1).bind fun file => (k.interest ready.1).bind fun r =>
    if covers r.events ready.2 then some ⟨ready.1, file, ready.2, r.data⟩ else none

def reportAll : List (φ × Events) → Option (List (Report φ δ))
  | [] => some []
  | ready :: rest => (k.report ready).bind fun e => (reportAll rest).map (e :: ·)

def Reports (e : Report φ δ) : Prop :=
  k.file e.fd = some e.file ∧
    ∃ r, k.interest e.fd = some r ∧ covers r.events e.events ∧ e.data = r.data

variable {k} {k' k'' : Kernel φ δ} {fd : φ}

theorem reports_of_report {ready : φ × Events} {e : Report φ δ} (h : k.report ready = some e) :
    e.fd = ready.1 ∧ k.Reports e := by
  obtain ⟨file, hfile, h⟩ := Option.bind_eq_some_iff.1 h
  obtain ⟨r, hr, h⟩ := Option.bind_eq_some_iff.1 h
  split at h
  · rename_i hc
    obtain rfl := Option.some.inj h
    exact ⟨rfl, hfile, r, hr, hc, rfl⟩
  · cases h

theorem reportAll_spec {ready : List (φ × Events)} {es : List (Report φ δ)}
    (h : k.reportAll ready = some es) :
    es.map Report.fd = ready.map Prod.fst ∧ ∀ e ∈ es, k.Reports e := by
  induction ready generalizing es with
  | nil =>
      obtain rfl := Option.some.inj h
      exact ⟨rfl, fun e he => by cases he⟩
  | cons ready rest ih =>
      obtain ⟨e, he, h⟩ := Option.bind_eq_some_iff.1 h
      obtain ⟨es, hes, rfl⟩ := Option.map_eq_some_iff.1 h
      obtain ⟨hfd, hrep⟩ := reports_of_report he
      obtain ⟨hfds, hreps⟩ := ih hes
      refine ⟨by simp only [List.map_cons, hfd, hfds], fun x hx => ?_⟩
      rcases List.mem_cons.1 hx with rfl | hx
      · exact hrep
      · exact hreps x hx

/-- The two kernels agree about every descriptor but `fd`. -/
def AgreeOff (fd : φ) (k k' : Kernel φ δ) : Prop :=
  ∀ x, x ≠ fd → k'.file x = k.file x ∧ k'.interest x = k.interest x

namespace AgreeOff

theorem refl (fd : φ) (k : Kernel φ δ) : AgreeOff fd k k := fun _ _ => ⟨rfl, rfl⟩

theorem trans (h : AgreeOff fd k k') (h' : AgreeOff fd k' k'') : AgreeOff fd k k'' :=
  fun x hx => ⟨(h' x hx).1.trans (h x hx).1, (h' x hx).2.trans (h x hx).2⟩

theorem reports (h : AgreeOff fd k k') {e : Report φ δ} (hne : e.fd ≠ fd) (he : k.Reports e) :
    k'.Reports e := by
  obtain ⟨hfile, hint⟩ := h e.fd hne
  unfold Reports
  rw [hfile, hint]
  exact he

end AgreeOff

end Reporting

section Operations

variable [DecidableEq φ] (k : Kernel φ δ)

/-- One open descriptor and no registration. -/
def single (fd : φ) : Kernel φ δ where
  file := Function.update (fun _ => none) fd (some 0)
  interest _ := none
  next := 1

/-- A new file behind a descriptor that is not open. -/
def accept (fd : φ) : Option (Kernel φ δ) :=
  if k.file fd = none then
    some { k with file := Function.update k.file fd (some k.next), next := k.next + 1 }
  else none

def close (fd : φ) : Kernel φ δ :=
  { k with
    file := Function.update k.file fd none
    interest := Function.update k.interest fd none }

/-- `EPOLL_CTL_ADD`, `EPOLL_CTL_MOD` and `EPOLL_CTL_DEL`; `none` is the result `-1`. -/
def add (fd : φ) (r : Registration δ) : Option (Kernel φ δ) :=
  if (k.file fd).isSome ∧ (k.interest fd).isNone then
    some { k with interest := Function.update k.interest fd (some r) }
  else none

def modify (fd : φ) (r : Registration δ) : Option (Kernel φ δ) :=
  if (k.interest fd).isSome then
    some { k with interest := Function.update k.interest fd (some r) }
  else none

def delete (fd : φ) : Option (Kernel φ δ) :=
  if (k.interest fd).isSome then
    some { k with interest := Function.update k.interest fd none }
  else none

/-- `epoll_wait`: entries for distinct descriptors, at most `maxevents` of them. -/
def wait (maxevents : ℕ) (ready : List (φ × Events)) : Option (List (Report φ δ)) :=
  if (ready.map Prod.fst).Nodup ∧ ready.length ≤ maxevents then k.reportAll ready else none

variable {k} {k' : Kernel φ δ} {fd : φ} {r : Registration δ}

@[simp] theorem single_file (fd : φ) : (single fd : Kernel φ δ).file fd = some 0 := by
  simp only [single, Function.update_self]

theorem single_file_of_ne {x : φ} (h : x ≠ fd) : (single fd : Kernel φ δ).file x = none := by
  simp only [single, Function.update_of_ne h]

theorem accept_eq_some (h : k.accept fd = some k') :
    k.file fd = none ∧ k'.file fd = some k.next ∧ k'.interest = k.interest ∧
      k'.next = k.next + 1 ∧ AgreeOff fd k k' := by
  unfold accept at h
  split at h
  · rename_i hfree
    obtain rfl := Option.some.inj h
    refine ⟨hfree, Function.update_self .., rfl, rfl, fun x hx => ⟨?_, rfl⟩⟩
    exact Function.update_of_ne hx ..
  · cases h

/-- A call that writes the registration of a descriptor changes nothing else. -/
theorem write_interest {o : Option (Registration δ)}
    (h : { k with interest := Function.update k.interest fd o } = k') :
    k'.file = k.file ∧ k'.interest fd = o ∧ k'.next = k.next ∧ AgreeOff fd k k' := by
  obtain rfl := h
  refine ⟨rfl, Function.update_self .., rfl, fun x hx => ⟨rfl, ?_⟩⟩
  exact Function.update_of_ne hx ..

theorem add_eq_some (h : k.add fd r = some k') :
    k'.file = k.file ∧ k'.interest fd = some r ∧ k'.next = k.next ∧ AgreeOff fd k k' := by
  unfold add at h
  split at h
  · exact write_interest (Option.some.inj h)
  · cases h

theorem modify_eq_some (h : k.modify fd r = some k') :
    k'.file = k.file ∧ k'.interest fd = some r ∧ k'.next = k.next ∧ AgreeOff fd k k' := by
  unfold modify at h
  split at h
  · exact write_interest (Option.some.inj h)
  · cases h

theorem exists_add (hfile : (k.file fd).isSome) (hint : k.interest fd = none) :
    ∃ k', k.add fd r = some k' := by
  unfold add
  rw [if_pos ⟨hfile, by simp [hint]⟩]
  exact ⟨_, rfl⟩

theorem exists_modify (hint : (k.interest fd).isSome) : ∃ k', k.modify fd r = some k' := by
  unfold modify
  rw [if_pos hint]
  exact ⟨_, rfl⟩

theorem delete_eq_none (hint : k.interest fd = none) : k.delete fd = none := by
  unfold delete
  rw [if_neg (by simp [hint])]

theorem delete_eq_some (h : k.delete fd = some k') :
    k'.file = k.file ∧ k'.interest fd = none ∧ k'.next = k.next ∧ AgreeOff fd k k' := by
  unfold delete at h
  split at h
  · exact write_interest (Option.some.inj h)
  · cases h

@[simp] theorem close_file (fd : φ) : (k.close fd).file fd = none := Function.update_self ..

@[simp] theorem close_interest (fd : φ) : (k.close fd).interest fd = none :=
  Function.update_self ..

theorem close_agreeOff (k : Kernel φ δ) (fd : φ) : AgreeOff fd k (k.close fd) := fun _ hx =>
  ⟨Function.update_of_ne hx .., Function.update_of_ne hx ..⟩

theorem interest_of_close {x : φ} (h : (k.close fd).interest x = some r) :
    k.interest x = some r := by
  by_cases hx : x = fd
  · subst hx
    rw [close_interest] at h
    cases h
  · rwa [(k.close_agreeOff fd x hx).2] at h

/-- Open files have distinct numbers, all below the next one to be given. -/
structure Numbered (k : Kernel φ δ) : Prop where
  below : ∀ fd c, k.file fd = some c → c < k.next
  injective : ∀ fd fd' c, k.file fd = some c → k.file fd' = some c → fd = fd'

namespace Numbered

theorem single (fd : φ) : Numbered (single fd : Kernel φ δ) := by
  have hcases : ∀ x c, (Kernel.single fd : Kernel φ δ).file x = some c → x = fd ∧ c = 0 := by
    intro x c hx
    by_cases hxf : x = fd
    · subst x
      rw [single_file] at hx
      exact ⟨rfl, (Option.some.inj hx).symm⟩
    · rw [single_file_of_ne hxf] at hx
      cases hx
  constructor
  · intro x c hx
    obtain ⟨-, rfl⟩ := hcases x c hx
    exact Nat.one_pos
  · intro x y c hx hy
    rw [(hcases x c hx).1, (hcases y c hy).1]

omit [DecidableEq φ] in
theorem congr (h : Numbered k) (hfile : k'.file = k.file) (hnext : k'.next = k.next) :
    Numbered k' := by
  constructor
  · rw [hfile, hnext]
    exact h.below
  · rw [hfile]
    exact h.injective

theorem accept (h : Numbered k) (hacc : k.accept fd = some k') : Numbered k' := by
  obtain ⟨-, hself, -, hnext, hoff⟩ := accept_eq_some hacc
  have hcases : ∀ x c, k'.file x = some c → (x = fd ∧ c = k.next) ∨ k.file x = some c := by
    intro x c hx
    by_cases hxf : x = fd
    · subst x
      rw [hself] at hx
      exact Or.inl ⟨rfl, (Option.some.inj hx).symm⟩
    · rw [(hoff x hxf).1] at hx
      exact Or.inr hx
  constructor
  · intro x c hx
    rw [hnext]
    rcases hcases x c hx with ⟨-, rfl⟩ | hold
    · omega
    · have := h.below x c hold
      omega
  · intro x y c hx hy
    rcases hcases x c hx with ⟨rfl, hc⟩ | hx'
    · rcases hcases y c hy with ⟨rfl, -⟩ | hy'
      · rfl
      · have := h.below y c hy'
        omega
    · rcases hcases y c hy with ⟨rfl, hc⟩ | hy'
      · have := h.below x c hx'
        omega
      · exact h.injective x y c hx' hy'

theorem close (h : Numbered k) (fd : φ) : Numbered (k.close fd) := by
  have hold : ∀ x c, (k.close fd).file x = some c → k.file x = some c := by
    intro x c hx
    by_cases hxf : x = fd
    · subst x
      rw [close_file] at hx
      cases hx
    · rwa [(k.close_agreeOff fd x hxf).1] at hx
  exact ⟨fun x c hx => h.below x c (hold x c hx),
    fun x y c hx hy => h.injective x y c (hold x c hx) (hold y c hy)⟩

end Numbered

end Operations

end Kernel

/-- The unhandled entries of a batch name distinct descriptors, and the kernel
would still report each of them for the same file. -/
structure Current {φ δ : Type*} (k : Kernel φ δ) (es : List (Report φ δ)) : Prop where
  nodup : (es.map Report.fd).Nodup
  reports : ∀ e ∈ es, k.Reports e

namespace Current

variable {φ δ : Type*} {k k' : Kernel φ δ} {e : Report φ δ}
  {es : List (Report φ δ)} {fd : φ}

theorem nil : Current k [] := ⟨List.nodup_nil, fun e he => by cases he⟩

theorem of_wait [DecidableEq φ] {maxevents : ℕ} {ready : List (φ × Events)}
    (h : k.wait maxevents ready = some es) : Current k es := by
  unfold Kernel.wait at h
  split at h
  · rename_i hn
    obtain ⟨hfds, hreps⟩ := Kernel.reportAll_spec h
    exact ⟨hfds ▸ hn.1, hreps⟩
  · cases h

theorem head (h : Current k (e :: es)) : k.Reports e := h.reports e (List.mem_cons_self ..)

theorem tail (h : Current k (e :: es)) : Current k es :=
  ⟨(List.nodup_cons.1 h.nodup).2, fun x hx => h.reports x (List.mem_cons_of_mem _ hx)⟩

theorem of_agreeOff (h : Current k es) (ha : Kernel.AgreeOff fd k k')
    (hne : ∀ x ∈ es, x.fd ≠ fd) : Current k' es :=
  ⟨h.nodup, fun x hx => ha.reports (hne x hx) (h.reports x hx)⟩

/-- Handling an entry may change what the kernel has for its own descriptor. -/
theorem handled (h : Current k (e :: es)) (ha : Kernel.AgreeOff e.fd k k') : Current k' es := by
  refine h.tail.of_agreeOff ha (fun x hx heq => ?_)
  exact (List.nodup_cons.1 h.nodup).1 (List.mem_map.2 ⟨x, hx, heq⟩)

/-- Accepting may also hand out a descriptor that was closed before: no entry of
the batch names it, since every entry is for an open descriptor. -/
theorem accepted (h : Current k es) (hfree : k.file fd = none)
    (ha : Kernel.AgreeOff fd k k') : Current k' es := by
  refine h.of_agreeOff ha (fun x hx heq => ?_)
  have hopen := (h.reports x hx).1
  rw [heq, hfree] at hopen
  cases hopen

end Current
end Londa.Epoll
