import Londa.Gather

/-!
# The receiver of the UNIX socket

Model of `code/IPC/Socket/UNIX_socket.cpp`. The client writes the lines of a file, each with
a newline. The server appends `string(buffer)` to `data` after each `read`, from a buffer of
16 bytes that is cleared once for each connection: what an earlier, longer read left behind a
chunk becomes part of its string, and a chunk that fills the buffer has no end in it.
-/

namespace Londa.UnixSocket

def newline : UInt8 := 10

def client (st : Istream UInt8 × List UInt8) : (Istream UInt8 × List UInt8) ⊕ List UInt8 :=
  Istream.copyLines newline st

/-- `data` when `read` returns 0, after reads that returned `chunks`. -/
def server (chunks : List (List UInt8)) : Option (List UInt8) := gather 16 id Buffer.zero chunks

variable {b : Buffer} {n : ℕ} {chunks : List (List UInt8)} {file sent : List UInt8}

theorem store_eq_zero_iff {chunk : List UInt8} (hnul : (0 : UInt8) ∉ chunk)
    (hb : ∀ j, b j = 0 ↔ n ≤ j) (hn : n ≤ chunk.length) (j : ℕ) :
    b.store 0 chunk j = 0 ↔ chunk.length ≤ j := by
  by_cases hj : j < chunk.length
  · exact iff_of_false (Buffer.store_ne_zero hnul hj) (not_le.2 hj)
  · rw [Buffer.store_of_ge (by omega), hb]
    omega

/-- The buffer holds `n` bytes of earlier chunks; every chunk has to cover what is there. -/
theorem terminated_iff (hnul : (0 : UInt8) ∉ chunks.flatten) (hb : ∀ j, b j = 0 ↔ n ≤ j) :
    Terminated 16 id b chunks ↔ (∀ chunk ∈ chunks, n ≤ chunk.length ∧ chunk.length < 16) ∧
      chunks.Pairwise fun c d => c.length ≤ d.length := by
  induction chunks generalizing b n with
  | nil => simp [Terminated]
  | cons chunk chunks ih =>
      rw [List.flatten_cons, List.mem_append, not_or] at hnul
      rw [Terminated, hb, List.pairwise_cons, List.forall_mem_cons]
      constructor
      · rintro ⟨hlt, hle, hrest⟩
        obtain ⟨hall, hpair⟩ := (ih hnul.2 (store_eq_zero_iff hnul.1 hb hle)).1 hrest
        exact ⟨⟨⟨hle, hlt⟩, fun c hc => ⟨hle.trans (hall c hc).1, (hall c hc).2⟩⟩,
          fun c hc => (hall c hc).1, hpair⟩
      · rintro ⟨⟨⟨hle, hlt⟩, hall⟩, hcover, hpair⟩
        exact ⟨hlt, hle, (ih hnul.2 (store_eq_zero_iff hnul.1 hb hle)).2
          ⟨fun c hc => ⟨hcover c hc, (hall c hc).2⟩, hpair⟩⟩

theorem data_eq_sent_iff (hsent : Loop.Ends client (.opened file, []) sent)
    (hcut : chunks.flatten = sent) :
    server chunks = some sent ↔ (0 : UInt8) ∉ file ∧ (∀ chunk ∈ chunks, chunk.length < 16) ∧
      chunks.Pairwise fun c d => c.length ≤ d.length := by
  unfold server
  rw [gather_copyLines_iff (by decide) hsent hcut]
  apply and_congr_right
  intro hfile
  have hnul : (0 : UInt8) ∉ chunks.flatten := by
    rw [hcut]
    exact fun hmem => hfile ((Istream.mem_copyLines (by decide) hsent).1 hmem)
  have hclear (j : ℕ) : Buffer.zero j = 0 ↔ 0 ≤ j := iff_of_true rfl (Nat.zero_le j)
  rw [terminated_iff hnul hclear]
  simp only [Nat.zero_le, true_and]

/-- The lines `ab` and `c`, read in three chunks. -/
theorem data_eq_sent_iff_threeReads :
    server [[97], [98, 10], [99, 10]] = some [97, 98, 10, 99, 10] := by
  have hsent : Loop.Ends client (.opened [97, 98, 10, 99], []) [97, 98, 10, 99, 10] :=
    Loop.ends_of_run (n := 3) (by decide)
  exact (data_eq_sent_iff hsent rfl).2 ⟨by decide, by decide, by decide⟩

/-- A short read after a longer one: the end of the first chunk is appended twice. -/
theorem stale_bytes_appended :
    Loop.Ends client (.opened [97, 98, 10, 99], []) [97, 98, 10, 99, 10] ∧
      [[97, 98, 10], [99, 10]].flatten = ([97, 98, 10, 99, 10] : List UInt8) ∧
      server [[97, 98, 10], [99, 10]] = some [97, 98, 10, 99, 10, 10] :=
  ⟨Loop.ends_of_run (n := 3) (by decide), rfl, by decide⟩

end Londa.UnixSocket
