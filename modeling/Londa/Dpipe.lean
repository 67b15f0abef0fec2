import Londa.Gather

/-!
# The file copy through a pipe

Model of `code/IPC/PIPE/dpipe.cpp`. The child writes the lines of a file into the pipe, each
with a newline; the parent writes `buffer` as a string to the output file after each `read`
and then clears its 1024 bytes. Before the first read the buffer is what the memory holds.
-/

namespace Londa.Dpipe

def newline : UInt8 := 10

def child (st : Istream UInt8 × List UInt8) : (Istream UInt8 × List UInt8) ⊕ List UInt8 :=
  Istream.copyLines newline st

/-- The output file when `read` returns 0, after reads that returned `chunks`. -/
def parent (memory : Buffer) (chunks : List (List UInt8)) : Option (List UInt8) :=
  gather 1024 (fun _ => Buffer.zero) memory chunks

variable {memory : Buffer} {chunks : List (List UInt8)} {file sent : List UInt8}

/-- After the first chunk the buffer is clear. -/
theorem terminated_zero_iff : Terminated 1024 (fun _ => Buffer.zero) Buffer.zero chunks ↔
    ∀ chunk ∈ chunks, chunk.length < 1024 := by
  induction chunks with
  | nil => simp [Terminated]
  | cons chunk chunks ih =>
      rw [Terminated, ih, List.forall_mem_cons]
      exact and_congr_right fun _ => and_iff_right rfl

theorem terminated_iff : Terminated 1024 (fun _ => Buffer.zero) memory chunks ↔
    (∀ chunk ∈ chunks, chunk.length < 1024) ∧
      ∀ chunk, chunks.head? = some chunk → memory chunk.length = 0 := by
  cases chunks with
  | nil => simp [Terminated]
  | cons chunk chunks =>
      rw [Terminated, terminated_zero_iff, List.forall_mem_cons, List.head?_cons]
      constructor
      · rintro ⟨hlt, hz, hall⟩
        refine ⟨⟨hlt, hall⟩, ?_⟩
        rintro c ⟨⟩
        exact hz
      · rintro ⟨⟨hlt, hall⟩, hz⟩
        exact ⟨hlt, hz chunk rfl, hall⟩

theorem output_eq_sent_iff (hsent : Loop.Ends child (.opened file, []) sent)
    (hcut : chunks.flatten = sent) :
    parent memory chunks = some sent ↔
      (0 : UInt8) ∉ file ∧ (∀ chunk ∈ chunks, chunk.length < 1024) ∧
        ∀ chunk, chunks.head? = some chunk → memory chunk.length = 0 := by
  unfold parent
  rw [gather_copyLines_iff (by decide) hsent hcut, terminated_iff]

/-- The memory of the buffer happens to be clear from its second byte on. -/
theorem output_eq_sent_iff_twoReads :
    parent (Buffer.zero.store 0 [7]) [[97, 98, 10], [99, 10]] = some [97, 98, 10, 99, 10] := by
  have hsent : Loop.Ends child (.opened [97, 98, 10, 99], []) [97, 98, 10, 99, 10] :=
    Loop.ends_of_run (n := 3) (by decide)
  refine (output_eq_sent_iff hsent rfl).2 ⟨by decide, by decide, ?_⟩
  rintro chunk ⟨⟩
  rfl

/-- The memory behind the first chunk is written to the output file as well. -/
theorem memory_written :
    Loop.Ends child (.opened [97, 10], []) [97, 10] ∧
      [[97, 10]].flatten = ([97, 10] : List UInt8) ∧
      parent (Buffer.zero.store 0 [7, 7, 7]) [[97, 10]] = some [97, 10, 7] :=
  ⟨Loop.ends_of_run (n := 2) (by decide), rfl, by decide⟩

end Londa.Dpipe
