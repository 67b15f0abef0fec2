import Londa.LongConnectionEcho

/-!
# The two loops of the echo server

The read loop asks for 1024 bytes behind what it has gathered and never looks at the size of
its block: the ranges it passes to `read` stay inside as long as the drain leaves 1024 bytes
of the block free. The write loop offers the string from `send_pos` on, so what was accepted
before each call is the string up to there.
-/

namespace Londa.LongConnection

variable {fd : Fd} {buf : Buffer} {count : ℕ}

/-- Each call stays inside the block, and a drain with data leaves a string in it. -/
def ReadsInside (fd : Fd) (reads : List ReadResult) : Prop :=
  (∀ count r, Syscall.read fd count r ∈ (readLoop fd Buffer.zero 0 reads).1 →
    count + 1024 ≤ MAX_BUF) ∧
  ∀ buf count, (readLoop fd Buffer.zero 0 reads).2 = .drained buf count → 0 < count →
    buf (MAX_BUF - 1) = 0 ∧ ∃ n, buf.strlen MAX_BUF = some n

theorem readLoop_count_le {rs : List ReadResult} {c : ℕ} {r : ReadResult}
    (h : Syscall.read fd c r ∈ (readLoop fd buf count rs).1) :
    c ≤ count + (rs.flatMap ReadResult.received).length := by
  induction rs generalizing buf count with
  | nil => cases h
  | cons r' rs ih =>
      rw [List.flatMap_cons, List.length_append]
      unfold readLoop at h
      cases r' with
      | bytes chunk =>
          have hchunk : (ReadResult.bytes chunk).received = chunk := rfl
          dsimp only at h
          split at h
          · cases List.mem_singleton.1 h
            omega
          · rcases List.mem_cons.1 h with heq | hrest
            · cases heq
              omega
            · have hle := ih hrest
              rw [hchunk]
              omega
      | eof | eagain | etimedout | error =>
          cases List.mem_singleton.1 h
          omega

/-- A drain that leaves less than 1024 bytes free makes a call past the end of the block. -/
theorem exists_readLoop_past (fd : Fd) (buf : Buffer) (count : ℕ) {chunks : List (List UInt8)}
    {last : ReadResult} (hchunks : ∀ chunk ∈ chunks, chunk.length ≤ 1024)
    (hlast : last.received = []) (hvalid : last.valid)
    (hlong : MAX_BUF < count + chunks.flatten.length + 1024) :
    ∃ c r, Syscall.read fd c r ∈ (readLoop fd buf count (chunks.map .bytes ++ [last])).1 ∧
      MAX_BUF < c + 1024 := by
  induction chunks generalizing buf count with
  | nil =>
      refine ⟨count, last, ?_, by simpa using hlong⟩
      cases last with
      | bytes chunk =>
          cases hlast
          cases hvalid
      | eof | eagain | etimedout | error => exact List.mem_singleton_self _
  | cons chunk chunks ih =>
      have hchunk := hchunks chunk List.mem_cons_self
      rw [List.flatten_cons, List.length_append] at hlong
      rw [List.map_cons, List.cons_append]
      unfold readLoop
      dsimp only
      split
      · exact ⟨count, _, List.mem_singleton_self _, by omega⟩
      · obtain ⟨c, r, hmem, hpast⟩ := ih (buf.store count chunk) (count + chunk.length)
          (fun c hc => hchunks c (List.mem_cons_of_mem _ hc)) (by omega)
        exact ⟨c, r, List.mem_cons_of_mem _ hmem, hpast⟩

theorem received_chunks (chunks : List (List UInt8)) {last : ReadResult}
    (hlast : last.received = []) :
    (chunks.map ReadResult.bytes ++ [last]).flatMap ReadResult.received = chunks.flatten := by
  rw [List.flatMap_append, List.flatMap_singleton, hlast, List.append_nil, List.flatMap_map]
  exact List.flatMap_id

theorem readsInside_iff {chunks : List (List UInt8)} {last : ReadResult}
    (hchunks : ∀ chunk ∈ chunks, 0 < chunk.length ∧ chunk.length ≤ 1024)
    (hlast : ∀ chunk, last ≠ .bytes chunk) :
    ReadsInside fd (chunks.map .bytes ++ [last]) ↔
      chunks.flatten.length ≤ MAX_BUF - 1024 := by
  have hend : last.received = [] ∧ last.valid := by
    cases last with
    | bytes chunk => exact absurd rfl (hlast chunk)
    | eof | eagain | etimedout | error => exact ⟨rfl, rfl⟩
  have htotal := received_chunks chunks hend.1
  constructor
  · rintro ⟨hcalls, -⟩
    by_contra hlong
    obtain ⟨c, r, hmem, hpast⟩ := exists_readLoop_past fd Buffer.zero 0
      (fun chunk hc => (hchunks chunk hc).2) hend.1 hend.2
      (show MAX_BUF < 0 + chunks.flatten.length + 1024 by omega)
    have hin := hcalls c r hmem
    omega
  · intro hshort
    have hsize : 1024 < MAX_BUF := by decide
    refine ⟨fun c r hmem => ?_, fun b n hexit _ => ?_⟩
    · have hle := readLoop_count_le hmem
      rw [htotal] at hle
      omega
    · obtain ⟨hn, hzero⟩ :=
        (readLoop_exit (fun _ _ => rfl) (by rw [htotal]; omega)).2 b n hexit
      exact ⟨hzero (MAX_BUF - 1) (by omega), Buffer.exists_strlen hn (hzero n le_rfl)⟩

/-- Two reads of two and one bytes, then the end of the stream. -/
theorem readsInside_threeBytes :
    ReadsInside 5 ([[97, 98], [99]].map .bytes ++ [.eof]) :=
  (readsInside_iff (by decide) (fun _ h => by cases h)).2 (by decide)

/-- Sixty-four full reads fill the block, and the read that would see `EAGAIN` starts at its end. -/
theorem read_past_block :
    ¬ ReadsInside 5 ((List.replicate 64 (List.replicate 1024 97)).map .bytes ++ [.eagain]) := by
  rintro ⟨hcalls, -⟩
  have hlen (chunk) (h : chunk ∈ List.replicate 64 (List.replicate 1024 (97 : UInt8))) :
      chunk.length ≤ 1024 := by
    rw [List.eq_of_mem_replicate h, List.length_replicate]
  have htotal : (List.replicate 64 (List.replicate 1024 (97 : UInt8))).flatten.length = 65536 := by
    rw [List.flatten_replicate_replicate, List.length_replicate]
  obtain ⟨c, r, hmem, hpast⟩ := exists_readLoop_past 5 Buffer.zero 0 hlen
    (rfl : ReadResult.eagain.received = []) rfl (by rw [htotal]; decide)
  have hin := hcalls c r hmem
  omega

section Write

variable {size : ℕ} {data : List UInt8} {rs : List WriteResult}

theorem writeLoop_ne_failed {total pos : ℕ} (h : WriteResult.error ∉ rs) :
    (writeLoop fd buf total pos rs).2 ≠ .failed := by
  induction rs generalizing pos with
  | nil => exact fun hf => by cases hf
  | cons r rs ih =>
      have hrs : WriteResult.error ∉ rs := fun hmem => h (List.mem_cons_of_mem _ hmem)
      unfold writeLoop
      cases r with
      | wrote n =>
          dsimp only
          split
          · exact fun hf => by cases hf
          · split
            · exact fun hf => by cases hf
            · exact ih hrs
      | eagain => exact ih hrs
      | error => exact absurd List.mem_cons_self h

theorem written_wrote {total pos n : ℕ} (hn : n ≤ total - pos) :
    (Syscall.write fd (buf.slice pos (total - pos)) (.wrote n)).written = buf.slice pos n := by
  obtain ⟨k, hk⟩ := Nat.exists_eq_add_of_le hn
  rw [hk, Buffer.slice_add]
  exact List.take_left' (Buffer.length_slice _ _ _)

/-- The loop goes on behind what its first call wrote, or ends with that call. -/
theorem writeLoop_cons (fd : Fd) (buf : Buffer) {total pos : ℕ} (r : WriteResult)
    (rs : List WriteResult) (hpos : pos ≤ total) :
    ∃ call rest, (writeLoop fd buf total pos (r :: rs)).1 = call :: rest ∧
      call = .write fd (buf.slice pos (total - pos)) r ∧
      (rest = [] ∨ ∃ n, pos + n ≤ total ∧ call.written = buf.slice pos n ∧
        rest = (writeLoop fd buf total (pos + n) rs).1) := by
  cases r with
  | wrote n =>
      rw [writeLoop]
      dsimp only
      split
      · exact ⟨_, [], rfl, rfl, .inl rfl⟩
      · rename_i hn
        split
        · exact ⟨_, [], rfl, rfl, .inl rfl⟩
        · exact ⟨_, _, rfl, rfl, .inr ⟨n, by omega, written_wrote (by omega), rfl⟩⟩
  | eagain => exact ⟨_, _, rfl, rfl, .inr ⟨0, by omega, rfl, rfl⟩⟩
  | error => exact ⟨_, [], rfl, rfl, .inl rfl⟩

/-- Before each call, what was accepted is the string from the start of the loop to `send_pos`. -/
theorem writeLoop_call {total pos i : ℕ} {call : Syscall} (hpos : pos ≤ total)
    (h : (writeLoop fd buf total pos rs).1[i]? = some call) :
    ∃ m r, pos + m ≤ total ∧
      call = .write fd (buf.slice (pos + m) (total - (pos + m))) r ∧
      ((writeLoop fd buf total pos rs).1.take i).flatMap Syscall.written = buf.slice pos m := by
  induction rs generalizing pos i with
  | nil => cases h
  | cons r rs ih =>
      obtain ⟨first, rest, hcalls, hfirst, hrest⟩ := writeLoop_cons fd buf r rs hpos
      rw [hcalls] at h ⊢
      cases i with
      | zero =>
          cases h
          exact ⟨0, r, hpos, hfirst, rfl⟩
      | succ i =>
          rw [List.getElem?_cons_succ] at h
          rcases hrest with rfl | ⟨n, hn, hwritten, rfl⟩
          · cases h
          · obtain ⟨m, r', hm, hcall, htaken⟩ := ih hn h
            rw [Nat.add_assoc] at hm hcall
            refine ⟨n + m, r', hm, hcall, ?_⟩
            rw [List.take_succ_cons, List.flatMap_cons, htaken, hwritten, Buffer.slice_add]

/-- The bytes accepted before each call are the string up to `send_pos`, whatever the outcomes
`rs` are that the calls get one by one. -/
theorem writeLoop_exact (hdata : buf.cstring size = some data) (hrs : WriteResult.error ∉ rs) :
    buf.strlen size = some data.length ∧
    (writeLoop fd buf data.length 0 rs).2 ≠ .failed ∧
    ((writeLoop fd buf data.length 0 rs).2 = .sent →
      writtenTo fd (writeLoop fd buf data.length 0 rs).1 = data) ∧
    (writeLoop fd buf data.length 0 rs).1.length ≤ rs.length ∧
    ∀ i call, (writeLoop fd buf data.length 0 rs).1[i]? = some call →
      ∃ send_pos r, rs[i]? = some r ∧ send_pos ≤ data.length ∧
        call = .write fd (data.drop send_pos) r ∧
        writtenTo fd ((writeLoop fd buf data.length 0 rs).1.take i) = data.take send_pos := by
  obtain ⟨htotal, hslice⟩ := Buffer.cstring_eq_some.1 hdata
  have hfd := writeLoop_calls fd buf data.length 0 rs
  have hresults := writeLoop_results fd buf data.length 0 rs
  refine ⟨htotal, writeLoop_ne_failed hrs, fun hsent => ?_, ?_, fun i call hcall => ?_⟩
  · rw [writtenTo_of_calls hfd, writeLoop_sent (Nat.zero_le _) hsent]
    exact hslice
  · simpa using hresults.length_le
  · obtain ⟨m, r, hm, hwrite, htaken⟩ := writeLoop_call (Nat.zero_le _) hcall
    rw [Nat.zero_add] at hm hwrite
    refine ⟨m, r, result_at hresults hcall (by rw [hwrite]; rfl), hm, ?_, ?_⟩
    · rw [hwrite, ← Buffer.drop_slice hm, hslice]
    · rw [writtenTo_of_calls (fun c hc => hfd c (List.mem_of_mem_take hc)), htaken,
        ← Buffer.take_slice hm, hslice]

/-- A retry, two partial counts, one of them zero, another retry and the rest: the fifth call is
answered with the last outcome and gets the two bytes that are left. -/
theorem writeLoop_exact_retried :
    writtenTo 5 (writeLoop 5 (Buffer.zero.store 0 [97, 98, 99]) 3 0
      [.eagain, .wrote 1, .wrote 0, .eagain, .wrote 2]).1 = [97, 98, 99] ∧
    ∃ send_pos r, [WriteResult.eagain, .wrote 1, .wrote 0, .eagain, .wrote 2][4]? = some r ∧
      send_pos ≤ 3 ∧
      Syscall.write 5 [98, 99] (.wrote 2) = .write 5 (List.drop send_pos [97, 98, 99]) r ∧
      writtenTo 5 ((writeLoop 5 (Buffer.zero.store 0 [97, 98, 99]) 3 0
        [.eagain, .wrote 1, .wrote 0, .eagain, .wrote 2]).1.take 4) =
          List.take send_pos [97, 98, 99] := by
  have hdata : (Buffer.zero.store 0 [97, 98, 99]).cstring MAX_BUF = some [97, 98, 99] :=
    Buffer.cstring_eq_some.2
      ⟨Buffer.strlen_store_zero (by decide) (by decide), Buffer.slice_store⟩
  have hrs : WriteResult.error ∉
      [WriteResult.eagain, .wrote 1, .wrote 0, .eagain, .wrote 2] := by decide
  obtain ⟨-, -, hsent, -, hcalls⟩ := writeLoop_exact hdata hrs
  exact ⟨hsent (by decide), hcalls 4 (.write 5 [98, 99] (.wrote 2)) (by decide)⟩

end Write

end Londa.LongConnection
