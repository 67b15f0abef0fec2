import Londa.Monitor
import Mathlib.Data.Finset.Basic

/-!
# Locks with an exclusive and a shared mode

A reader-writer lock has at most one exclusive owner or any number of sharers. `Guards`
is its discipline over a family of threads: the exclusive owner is exactly the thread
inside an exclusive section, the sharers are exactly the threads inside a shared one, and
there are no sharers while there is an owner.
-/

namespace Londa

structure RwLock (ι : Type*) where
  owner : Option ι
  sharers : Finset ι

namespace RwLock

variable {ι : Type*}

def free : RwLock ι := ⟨none, ∅⟩

/-- `lock()` succeeds when nobody holds the lock. -/
def Idle (l : RwLock ι) : Prop := l.owner = none ∧ l.sharers = ∅

instance [DecidableEq ι] (l : RwLock ι) : Decidable l.Idle :=
  inferInstanceAs (Decidable (l.owner = none ∧ l.sharers = ∅))

def lock (l : RwLock ι) (i : ι) : RwLock ι := { l with owner := some i }

def unlock (l : RwLock ι) : RwLock ι := { l with owner := none }

def lockShared [DecidableEq ι] (l : RwLock ι) (i : ι) : RwLock ι :=
  { l with sharers := insert i l.sharers }

def unlockShared [DecidableEq ι] (l : RwLock ι) (i : ι) : RwLock ι :=
  { l with sharers := l.sharers.erase i }

/-- The thread holds the lock exclusively and nobody shares it. -/
def HeldBy (l : RwLock ι) (i : ι) : Prop := l.owner = some i ∧ l.sharers = ∅

structure Guards (l : RwLock ι) (writing reading : ι → Bool) : Prop where
  owner : Guarded writing l.owner
  sharers : ∀ i, reading i = true ↔ i ∈ l.sharers
  apart : l.owner ≠ none → l.sharers = ∅

namespace Guards

variable {l : RwLock ι} {writing reading writing' reading' : ι → Bool} {i j : ι}

theorem heldBy (h : l.Guards writing reading) (hi : writing i) : l.HeldBy i := by
  have hown := h.owner.owner_eq hi
  exact ⟨hown, h.apart (by rw [hown]; exact Option.some_ne_none i)⟩

theorem writing_of_heldBy (h : l.Guards writing reading) (hi : l.HeldBy i) : writing i :=
  (h.owner i).2 hi.1

/-- No thread is in a shared section while one is in an exclusive section. -/
theorem not_reading (h : l.Guards writing reading) (hi : writing i) (j : ι) :
    reading j = false := by
  have hnone := (h.heldBy hi).2
  by_contra hj
  have hmem := (h.sharers j).1 (by simpa using hj)
  rw [hnone] at hmem
  exact Finset.notMem_empty j hmem

theorem congr (h : l.Guards writing reading) (hw : ∀ j, writing' j = writing j)
    (hr : ∀ j, reading' j = reading j) : l.Guards writing' reading' where
  owner := h.owner.congr hw
  sharers j := by
    rw [hr]
    exact h.sharers j
  apart := h.apart

theorem lock (h : l.Guards writing reading) (hidle : l.Idle) (hi : writing' i)
    (hw : ∀ j, j ≠ i → writing' j = writing j) (hr : ∀ j, reading' j = reading j) :
    (l.lock i).Guards writing' reading' where
  owner := (hidle.1 ▸ h.owner).acquire hi hw
  sharers j := by
    rw [hr]
    exact h.sharers j
  apart _ := hidle.2

theorem unlock (h : l.Guards writing reading) (hi : writing i) (hi' : writing' i = false)
    (hw : ∀ j, j ≠ i → writing' j = writing j) (hr : ∀ j, reading' j = reading j) :
    l.unlock.Guards writing' reading' where
  owner := h.owner.release hi hi' hw
  sharers j := by
    rw [hr]
    exact h.sharers j
  apart hne := absurd rfl hne

variable [DecidableEq ι]

theorem lockShared (h : l.Guards writing reading) (hfree : l.owner = none) (hi : reading' i)
    (hr : ∀ j, j ≠ i → reading' j = reading j) (hw : ∀ j, writing' j = writing j) :
    (l.lockShared i).Guards writing' reading' where
  owner := h.owner.congr hw
  sharers j := by
    by_cases hj : j = i
    · subst j
      exact iff_of_true hi (Finset.mem_insert_self i _)
    · rw [hr j hj, h.sharers j]
      simp [RwLock.lockShared, hj]
  apart hne := absurd hfree hne

theorem unlockShared (h : l.Guards writing reading) (hi' : reading' i = false)
    (hr : ∀ j, j ≠ i → reading' j = reading j) (hw : ∀ j, writing' j = writing j) :
    (l.unlockShared i).Guards writing' reading' where
  owner := h.owner.congr hw
  sharers j := by
    by_cases hj : j = i
    · subst j
      simp [RwLock.unlockShared, hi']
    · rw [hr j hj, h.sharers j]
      simp [RwLock.unlockShared, hj]
  apart hne := by
    have hnone := h.apart hne
    simp [RwLock.unlockShared, hnone]

end Guards
end RwLock
end Londa
