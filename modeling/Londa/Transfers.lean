import Mathlib.Data.List.Induction

/-!
# Histories of transfers

A log records the reads and writes that moved data, oldest first, each with the
connection it was made on. The bytes received from a connection and the bytes
sent to it are read off the log.
-/

namespace Londa

inductive Dir
  | read
  | write
  deriving DecidableEq

structure Transfer (κ : Type*) where
  conn : κ
  dir : Dir
  bytes : List UInt8
  deriving DecidableEq

namespace Transfers

variable {κ : Type*} [DecidableEq κ]

def bytesOf (log : List (Transfer κ)) (c : κ) (d : Dir) : List UInt8 :=
  log.flatMap fun x => if x.conn = c ∧ x.dir = d then x.bytes else []

def received (log : List (Transfer κ)) (c : κ) : List UInt8 := bytesOf log c .read

def sent (log : List (Transfer κ)) (c : κ) : List UInt8 := bytesOf log c .write

/-- The direction of the last transfer on the connection. -/
def last (log : List (Transfer κ)) (c : κ) : Option Dir :=
  log.foldl (fun d x => if x.conn = c then some x.dir else d) none

variable (log : List (Transfer κ)) (c c' : κ) (d : Dir) (bytes : List UInt8)

theorem bytesOf_append (d' : Dir) : bytesOf (log ++ [⟨c', d', bytes⟩]) c d =
    bytesOf log c d ++ if c' = c ∧ d' = d then bytes else [] := by
  simp [bytesOf]

@[simp] theorem received_append_read :
    received (log ++ [⟨c, .read, bytes⟩]) c = received log c ++ bytes := by
  simp [received, bytesOf_append]

@[simp] theorem received_append_write :
    received (log ++ [⟨c', .write, bytes⟩]) c = received log c := by
  simp [received, bytesOf_append]

@[simp] theorem sent_append_write :
    sent (log ++ [⟨c, .write, bytes⟩]) c = sent log c ++ bytes := by
  simp [sent, bytesOf_append]

@[simp] theorem sent_append_read : sent (log ++ [⟨c', .read, bytes⟩]) c = sent log c := by
  simp [sent, bytesOf_append]

theorem received_append_of_ne (h : c' ≠ c) :
    received (log ++ [⟨c', d, bytes⟩]) c = received log c := by
  simp [received, bytesOf_append, h]

theorem sent_append_of_ne (h : c' ≠ c) : sent (log ++ [⟨c', d, bytes⟩]) c = sent log c := by
  simp [sent, bytesOf_append, h]

@[simp] theorem last_append : last (log ++ [⟨c, d, bytes⟩]) c = some d := by
  simp [last]

theorem last_append_of_ne (h : c' ≠ c) : last (log ++ [⟨c', d, bytes⟩]) c = last log c := by
  simp [last, h]

variable {log c}

/-- Nothing is known of a connection that no transfer names. -/
theorem last_eq_none (h : ∀ x ∈ log, x.conn ≠ c) : last log c = none := by
  induction log using List.reverseRecOn with
  | nil => rfl
  | append_singleton log x ih =>
      have hx : x.conn ≠ c := h x (by simp)
      have hlog : last log c = none := ih (fun y hy => h y (by simp [hy]))
      rwa [← last_append_of_ne log c x.conn x.dir x.bytes hx] at hlog

theorem bytesOf_eq_nil (h : ∀ x ∈ log, x.conn ≠ c) : bytesOf log c d = [] := by
  unfold bytesOf
  rw [List.flatMap_eq_nil_iff]
  intro x hx
  rw [if_neg (fun hc => h x hx hc.1)]

end Transfers
end Londa
