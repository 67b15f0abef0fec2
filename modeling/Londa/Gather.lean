import Londa.Buffer
import Londa.Istream

/-!
# Strings gathered from chunks

A reader stores each chunk of a stream at the start of one block and takes the string it
finds there, however long the chunk was; `reset` is what happens to the block between two
chunks. The result is the stream exactly if the stream has no zero byte and the byte behind
each chunk was zero when the chunk was stored.
-/

namespace Londa

/-- Without a result where a string has no end inside the block. -/
def gather (size : ℕ) (reset : Buffer → Buffer) (b : Buffer) :
    List (List UInt8) → Option (List UInt8)
  | [] => some []
  | chunk :: chunks =>
      match (b.store 0 chunk).cstring size with
      | none => none
      | some str => (gather size reset (reset (b.store 0 chunk)) chunks).map (str ++ ·)

/-- Every chunk is followed by a zero byte of the block. -/
def Terminated (size : ℕ) (reset : Buffer → Buffer) (b : Buffer) : List (List UInt8) → Prop
  | [] => True
  | chunk :: chunks => chunk.length < size ∧ b chunk.length = 0 ∧
      Terminated size reset (reset (b.store 0 chunk)) chunks

variable {size : ℕ} {reset : Buffer → Buffer} {b : Buffer} {chunks : List (List UInt8)}

theorem gather_cons_eq_some {chunk out : List UInt8} :
    gather size reset b (chunk :: chunks) = some out ↔
      ∃ str rest, (b.store 0 chunk).cstring size = some str ∧
        gather size reset (reset (b.store 0 chunk)) chunks = some rest ∧ out = str ++ rest := by
  rw [gather]
  split
  · rename_i hnone
    refine iff_of_false (fun h => by cases h) ?_
    rintro ⟨str, -, hstr, -⟩
    rw [hnone] at hstr
    cases hstr
  · rename_i str hstr
    rw [Option.map_eq_some_iff]
    constructor
    · rintro ⟨rest, hrest, rfl⟩
      exact ⟨str, rest, hstr, hrest, rfl⟩
    · rintro ⟨str', rest, hstr', hrest, rfl⟩
      rw [hstr] at hstr'
      cases hstr'
      exact ⟨rest, hrest, rfl⟩

theorem gather_nul {out : List UInt8} (h : gather size reset b chunks = some out) :
    (0 : UInt8) ∉ out := by
  induction chunks generalizing b out with
  | nil =>
      cases h
      exact List.not_mem_nil
  | cons chunk chunks ih =>
      obtain ⟨str, rest, hstr, hrest, rfl⟩ := gather_cons_eq_some.1 h
      rw [List.mem_append, not_or]
      exact ⟨Buffer.cstring_nul hstr, ih hrest⟩

/-- Nothing of a stream without zero bytes is dropped. -/
theorem length_flatten_le {out : List UInt8} (hnul : (0 : UInt8) ∉ chunks.flatten)
    (h : gather size reset b chunks = some out) : chunks.flatten.length ≤ out.length := by
  induction chunks generalizing b out with
  | nil => exact Nat.zero_le _
  | cons chunk chunks ih =>
      rw [List.flatten_cons, List.mem_append, not_or] at hnul
      obtain ⟨str, rest, hstr, hrest, rfl⟩ := gather_cons_eq_some.1 h
      have hfirst := (Buffer.cstring_store hnul.1 hstr).length_le
      have hothers := ih hnul.2 hrest
      rw [List.flatten_cons, List.length_append, List.length_append]
      omega

theorem gather_eq_flatten_iff (hnul : (0 : UInt8) ∉ chunks.flatten) :
    gather size reset b chunks = some chunks.flatten ↔ Terminated size reset b chunks := by
  induction chunks generalizing b with
  | nil => exact iff_of_true rfl trivial
  | cons chunk chunks ih =>
      rw [List.flatten_cons, List.mem_append, not_or] at hnul
      rw [Terminated, ← and_assoc, ← Buffer.cstring_store_iff hnul.1, ← ih hnul.2,
        gather_cons_eq_some, List.flatten_cons]
      constructor
      · rintro ⟨str, rest, hstr, hrest, heq⟩
        have hstart := Buffer.cstring_store hnul.1 hstr
        have hlen : str.length = chunk.length := by
          have hothers := length_flatten_le hnul.2 hrest
          have htotal := congrArg List.length heq
          have hfirst := hstart.length_le
          rw [List.length_append, List.length_append] at htotal
          omega
        obtain rfl := hstart.eq_of_length hlen.symm
        exact ⟨hstr, List.append_cancel_left heq ▸ hrest⟩
      · rintro ⟨hstr, hrest⟩
        exact ⟨chunk, chunks.flatten, hstr, hrest, rfl⟩

/-- The gathered strings are the stream. -/
theorem gather_iff : gather size reset b chunks = some chunks.flatten ↔
    (0 : UInt8) ∉ chunks.flatten ∧ Terminated size reset b chunks := by
  constructor
  · intro h
    have hnul := gather_nul h
    exact ⟨hnul, (gather_eq_flatten_iff hnul).1 h⟩
  · rintro ⟨hnul, hterm⟩
    exact (gather_eq_flatten_iff hnul).2 hterm

/-- The stream is the lines of a file. -/
theorem gather_copyLines_iff {nl : UInt8} {file sent : List UInt8} (hnl : 0 ≠ nl)
    (hsent : Loop.Ends (Istream.copyLines nl) (.opened file, []) sent)
    (hcut : chunks.flatten = sent) : gather size reset b chunks = some sent ↔
      (0 : UInt8) ∉ file ∧ Terminated size reset b chunks := by
  rw [← Istream.mem_copyLines hnl hsent, ← hcut, gather_iff]

end Londa
