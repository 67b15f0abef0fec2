import Londa.ViaPollTable

/-!
# What a read of the poll server leads to

One buffer and one count serve all clients of a call of `handle_connection`. A read stores
at the start of the buffer before its bytes are written, so what earlier clients left there
does not matter; but a failed read is not tested for, and its count -1 is passed on.
-/

namespace Londa.ViaPoll

variable {s t : State} {reads : Slot → ReadResult} {sb : State × Buffer} {i : Slot}

/-- The calls on a slot and the descriptor left in it, each outcome of the read being
handled. -/
inductive Handled (s : State) (reads : Slot → ReadResult) (i : Slot) : List Call → ℤ → Prop
  | idle : ¬ Readable s i → Handled s reads i [] (s.clientfds i).fd
  | echoed (bytes : List UInt8) (buf : Buffer) (n : ℕ) : Readable s i →
      reads i = .data bytes → bytes ≠ [] → n ≤ MAXLINE → buf.slice 0 n = bytes.take MAXLINE →
      Handled s reads i [.read i (s.clientfds i).fd, .write STDOUT_FILENO buf n,
        .write (s.clientfds i).fd buf n] (s.clientfds i).fd
  | closed : Readable s i → reads i = .error ∨ reads i = .data [] →
      Handled s reads i [.read i (s.clientfds i).fd, .close (s.clientfds i).fd] (-1)

def Complete (s : State) (reads : Slot → ReadResult) (num : ℕ) : Prop :=
  ∃ new : Slot → List Call,
    (handleConnection s reads num).calls = s.calls ++ (clientSlots num).flatMap new ∧
    ∀ i ∈ clientSlots num,
      Handled s reads i (new i) ((handleConnection s reads num).clientfds i).fd

theorem sizeT_natCast {n : ℕ} (h : n ≤ MAXLINE) : sizeT n = n := by
  unfold sizeT
  unfold MAXLINE at h
  omega

theorem serveSlot_idle (h : ¬ Readable sb.1 i) : serveSlot reads sb i = sb := by
  unfold serveSlot
  unfold Readable at h
  split
  · rfl
  · rename_i hneg
    exact if_neg fun hin => h ⟨not_lt.1 hneg, hin⟩

theorem serveSlot_ready (h : Readable sb.1 i) : serveSlot reads sb i =
    if (recv sb.2 (reads i)).1 = 0 then (sb.1.drop i, (recv sb.2 (reads i)).2)
    else (sb.1.echo i (recv sb.2 (reads i)).2 (recv sb.2 (reads i)).1,
      (recv sb.2 (reads i)).2) := by
  unfold serveSlot
  rw [if_neg (not_lt.2 h.1), if_pos h.2]

/-- The buffer starts with what was just read, whatever earlier reads left in it. -/
theorem recv_data (buf : Buffer) (bytes : List UInt8) :
    (recv buf (.data bytes)).1 = ((bytes.take MAXLINE).length : ℤ) ∧
      (recv buf (.data bytes)).2.slice 0 (bytes.take MAXLINE).length = bytes.take MAXLINE :=
  ⟨rfl, Buffer.slice_store⟩

theorem echo_handled {bytes : List UInt8} {buf : Buffer} (hread : Readable s i)
    (hr : reads i = .data bytes) (hne : bytes ≠ [])
    (hslice : buf.slice 0 (bytes.take MAXLINE).length = bytes.take MAXLINE) :
    Handled s reads i [.read i (s.clientfds i).fd,
      .write STDOUT_FILENO buf (sizeT (bytes.take MAXLINE).length),
      .write (s.clientfds i).fd buf (sizeT (bytes.take MAXLINE).length)] (s.clientfds i).fd := by
  have hle : (bytes.take MAXLINE).length ≤ MAXLINE := List.length_take_le _ _
  rw [sizeT_natCast hle]
  exact .echoed bytes buf _ hread hr hne hle hslice

/-- One iteration handles its slot unless the read fails. -/
theorem serveSlot_handled (h : Readable sb.1 i → reads i ≠ .error) :
    ∃ new, (serveSlot reads sb i).1.calls = sb.1.calls ++ new ∧
      Handled sb.1 reads i new ((serveSlot reads sb i).1.clientfds i).fd := by
  by_cases hread : Readable sb.1 i
  · rw [serveSlot_ready hread]
    cases hr : reads i with
    | error => exact absurd hr (h hread)
    | data bytes =>
        obtain ⟨hn, hslice⟩ := recv_data sb.2 bytes
        by_cases hnil : bytes = []
        · subst hnil
          have hzero : (recv sb.2 (.data [])).1 = 0 := hn
          rw [if_pos hzero]
          refine ⟨_, rfl, ?_⟩
          have hfd : ((sb.1.drop i).clientfds i).fd = -1 := by
            simp only [State.drop, Function.update_self]
          rw [hfd]
          exact .closed hread (.inr hr)
        · have hpos : 0 < (bytes.take MAXLINE).length :=
            List.length_pos_iff.2 fun he =>
              hnil ((List.take_eq_nil_iff.1 he).resolve_left (by decide))
          rw [if_neg (by omega), hn]
          exact ⟨_, rfl, echo_handled hread hr hnil hslice⟩
  · rw [serveSlot_idle hread]
    exact ⟨[], (List.append_nil _).symm, .idle hread⟩

/-- A failed read is answered with its count, and its slot is left as it is. -/
theorem serveSlot_failed (hread : Readable sb.1 i) (h : reads i = .error) :
    (serveSlot reads sb i).1 = sb.1.echo i sb.2 (-1) := by
  rw [serveSlot_ready hread, h]
  rfl

theorem serve_other {is : List Slot} (h : i ∉ is) :
    (is.foldl (serveSlot reads) sb).1.clientfds i = sb.1.clientfds i := by
  induction is generalizing sb with
  | nil => rfl
  | cons j is ih =>
      rw [List.mem_cons, not_or] at h
      rw [List.foldl_cons, ih h.2, serveSlot_other reads sb h.1]

theorem readable_congr (h : t.clientfds i = s.clientfds i) : Readable t i ↔ Readable s i := by
  unfold Readable
  rw [h]

theorem Handled.congr {calls : List Call} {fd : ℤ} (h : Handled s reads i calls fd)
    (hs : s.clientfds i = t.clientfds i) : Handled t reads i calls fd := by
  have hread := readable_congr hs
  cases h with
  | idle hnot => exact hs ▸ .idle (fun hr => hnot (hread.2 hr))
  | echoed bytes buf n hr hbytes hne hn hslice =>
      exact hs ▸ .echoed bytes buf n (hread.1 hr) hbytes hne hn hslice
  | closed hr hend => exact hs ▸ .closed (hread.1 hr) hend

theorem Handled.fd_of_error {calls : List Call} {fd : ℤ} (h : Handled s reads i calls fd)
    (hread : Readable s i) (herr : reads i = .error) : fd = -1 := by
  cases h with
  | idle hnot => exact absurd hread hnot
  | echoed bytes _ _ _ hbytes =>
      rw [herr] at hbytes
      cases hbytes
  | closed => rfl

theorem serve_handled (sb : State × Buffer) {is : List Slot} (hnd : is.Nodup)
    (h : ∀ i ∈ is, Readable sb.1 i → reads i ≠ .error) :
    ∃ new : Slot → List Call,
      (is.foldl (serveSlot reads) sb).1.calls = sb.1.calls ++ is.flatMap new ∧
      ∀ i ∈ is, Handled sb.1 reads i (new i)
        ((is.foldl (serveSlot reads) sb).1.clientfds i).fd := by
  induction is generalizing sb with
  | nil => exact ⟨fun _ => [], (List.append_nil _).symm, fun i hi => by cases hi⟩
  | cons i is ih =>
      obtain ⟨hnot, hnd⟩ := List.nodup_cons.1 hnd
      have hsame (j) (hj : j ∈ is) :
          (serveSlot reads sb i).1.clientfds j = sb.1.clientfds j :=
        serveSlot_other reads sb fun he => hnot (he ▸ hj)
      obtain ⟨first, hfirst, hhandled⟩ := serveSlot_handled (h i List.mem_cons_self)
      obtain ⟨rest, hrest, hothers⟩ := ih (serveSlot reads sb i) hnd fun j hj hr =>
        h j (List.mem_cons_of_mem i hj) ((readable_congr (hsame j hj)).1 hr)
      have hkeep (j) (hj : j ∈ is) : Function.update rest i first j = rest j := by
        apply Function.update_of_ne
        rintro rfl
        exact hnot hj
      refine ⟨Function.update rest i first, ?_, ?_⟩
      · rw [List.foldl_cons, hrest, hfirst, List.append_assoc, List.flatMap_cons,
          Function.update_self, List.flatMap_congr hkeep]
      · intro j hj
        rw [List.foldl_cons]
        rcases List.mem_cons.1 hj with rfl | hj
        · rw [Function.update_self, serve_other hnot]
          exact hhandled
        · rw [hkeep j hj]
          exact (hothers j hj).congr (hsame j hj)

theorem serve_failed (sb : State × Buffer) {is : List Slot} (hnd : is.Nodup)
    (hread : Readable sb.1 i) (h : reads i = .error) :
    (is.foldl (serveSlot reads) sb).1.clientfds i = sb.1.clientfds i := by
  induction is generalizing sb with
  | nil => rfl
  | cons j is ih =>
      obtain ⟨hnot, hnd⟩ := List.nodup_cons.1 hnd
      have hsame : (serveSlot reads sb j).1.clientfds i = sb.1.clientfds i := by
        by_cases hji : i = j
        · subst j
          rw [serveSlot_failed hread h]
          rfl
        · exact serveSlot_other reads sb hji
      rw [List.foldl_cons, ih _ hnd ((readable_congr hsame).2 hread), hsame]

theorem handleConnection_failed (num : ℕ) (hread : Readable s i) (h : reads i = .error) :
    (handleConnection s reads num).clientfds i = s.clientfds i := by
  unfold handleConnection
  exact serve_failed (s, Buffer.zero) (nodup_clientSlots num) hread h

theorem complete_iff (s : State) (reads : Slot → ReadResult) (num : ℕ) :
    Complete s reads num ↔
      ∀ i : Slot, i ≠ 0 → (i : ℕ) ≤ num → Readable s i → reads i ≠ .error := by
  constructor
  · rintro ⟨new, -, hall⟩ i hi hle hread herr
    have hhandled := hall i (mem_clientSlots.2 ⟨hi, hle⟩)
    rw [handleConnection_failed num hread herr] at hhandled
    have hclosed : (s.clientfds i).fd = -1 := hhandled.fd_of_error hread herr
    have hopen := hread.1
    omega
  · intro hok
    unfold Complete handleConnection
    exact serve_handled (s, Buffer.zero) (nodup_clientSlots num) fun i hi hr =>
      hok i (mem_clientSlots.1 hi).1 (mem_clientSlots.1 hi).2 hr

/-- Two clients, both ready. -/
def bothReady : State where
  clientfds i := ⟨if i = 1 then 5 else if i = 2 then 6 else -1, POLLIN, POLLIN⟩
  maxi := 2
  live := ∅
  closed := ∅
  calls := []
  running := true

def Call.length : Call → Option ℕ
  | .write _ _ len => some len
  | _ => none

/-- The first client sends two bytes; the read of the second fails, and both writes for it
are asked for `(size_t)-1` bytes of the buffer. -/
theorem failed_read_written :
    ∃ reads : Slot → ReadResult, reads 1 = .data [104, 105] ∧ reads 2 = .error ∧
      (handleConnection bothReady reads 2).calls.filterMap Call.length =
        [2, 2, 2 ^ 64 - 1, 2 ^ 64 - 1] ∧
      ((handleConnection bothReady reads 2).clientfds 2).fd = 6 ∧
      ¬ Complete bothReady reads 2 := by
  have hkept : ((handleConnection bothReady
      (fun i => if i = 1 then .data [104, 105] else .error) 2).clientfds 2).fd = 6 := by
    decide +kernel
  refine ⟨fun i => if i = 1 then .data [104, 105] else .error, rfl, rfl, by decide +kernel,
    hkept, ?_⟩
  rintro ⟨new, -, hall⟩
  have hready : Readable bothReady 2 := ⟨by decide, by decide⟩
  have hclosed := (hall 2 (mem_clientSlots.2 ⟨by decide, by decide⟩)).fd_of_error hready rfl
  rw [hkept] at hclosed
  cases hclosed

end Londa.ViaPoll
