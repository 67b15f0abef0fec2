import Londa.ViaSelectWatch

/-!
# What one client learns of another

`recv_client_msg` clears its buffer once and reads every ready client of the round into it;
the length of a reply is found by `strlen`. What a client sent before in the same round stays
behind a shorter message. So the reply to a client is its own exactly if its message holds a
zero byte or no client before it in the table is ready.
-/

namespace Londa.ViaSelect

variable {srvfd : ℤ} {s : State} {reads : ℕ → ReadResult} {behind : List UInt8} {buf : Buffer}

/-- The slot holds a client that is ready. -/
def Ready (ctx : ServerContext) (i : ℕ) : Prop := 0 ≤ ctx.clifd i ∧ ctx.clifd i ∈ ctx.allfds

theorem recvSlot_idle {i : ℕ} (h : ¬ Ready s.ctx i) :
    recvSlot reads behind (s, buf) i = (s.touch i, buf) := by
  have hctx : (s.touch i).ctx = s.ctx := rfl
  unfold recvSlot
  simp only [hctx]
  split
  · rfl
  · rename_i hpos
    rw [if_neg (fun hset => h ⟨not_lt.1 hpos, hset⟩)]

theorem recvSlot_drop {i : ℕ} (h : Ready s.ctx i) (hread : (reads i).closes = true) :
    recvSlot reads behind (s, buf) i = (dropClient (s.touch i) i (s.ctx.clifd i), buf) := by
  have hctx : (s.touch i).ctx = s.ctx := rfl
  unfold recvSlot
  simp only [hctx]
  rw [if_neg (not_lt.2 h.1), if_pos h.2]
  cases hr : reads i with
  | error => rfl
  | data bytes =>
      rw [hr] at hread
      rw [List.isEmpty_iff.1 hread]

theorem recvSlot_data {i : ℕ} {bytes : List UInt8} (h : Ready s.ctx i)
    (hread : reads i = .data bytes) (hne : bytes ≠ []) :
    recvSlot reads behind (s, buf) i =
      (handleClientMsg { s.touch i with
        log := s.log ++ [⟨s.ctx.clifd i, .read, bytes.take MAXLINE⟩] } (s.ctx.clifd i)
          (buf.store 0 (bytes.take MAXLINE)) behind, buf.store 0 (bytes.take MAXLINE)) := by
  have hctx : (s.touch i).ctx = s.ctx := rfl
  unfold recvSlot
  simp only [hctx, hread]
  rw [if_neg (not_lt.2 h.1), if_pos h.2]
  cases bytes with
  | nil => exact absurd rfl hne
  | cons b bytes => rfl

/-- Client `c` is in no slot but `i`. -/
structure Alone (c : ℤ) (i : ℕ) (s : State) : Prop where
  client : 0 ≤ c
  alone : ∀ j, j ≠ i → s.ctx.clifd j ≠ c

/-- Client `c` is ready in slot `i`. -/
structure Waiting (c : ℤ) (i : ℕ) (s : State) : Prop where
  slot : s.ctx.clifd i = c
  ready : c ∈ s.ctx.allfds

section Slots

variable {c : ℤ} {i j : ℕ}

theorem clifd_dropClient (s : State) (i j : ℕ) (clifd : ℤ) :
    (dropClient s i clifd).ctx.clifd j = if j = i then -1 else s.ctx.clifd j := by
  unfold ServerContext.clifd dropClient
  dsimp only
  split_ifs <;> rfl

/-- What a slot does to the table, or to the log and the buffer. -/
theorem recvSlot_effect (reads : ℕ → ReadResult) (behind : List UInt8) (s : State) (buf : Buffer)
    (j : ℕ) :
    (recvSlot reads behind (s, buf) j = (s.touch j, buf)) ∨
      (Ready s.ctx j ∧
        recvSlot reads behind (s, buf) j = (dropClient (s.touch j) j (s.ctx.clifd j), buf)) ∨
      ∃ bytes, Ready s.ctx j ∧ (recvSlot reads behind (s, buf) j).1.ctx = s.ctx ∧
        (recvSlot reads behind (s, buf) j).1.log = s.log ++
          [⟨s.ctx.clifd j, .read, bytes⟩,
            ⟨s.ctx.clifd j, .write, echoed (buf.store 0 bytes) behind⟩] := by
  by_cases hready : Ready s.ctx j
  · cases hclose : (reads j).closes with
    | true => exact .inr (.inl ⟨hready, recvSlot_drop hready hclose⟩)
    | false =>
        cases hread : reads j with
        | error =>
            rw [hread] at hclose
            cases hclose
        | data bytes =>
            have hne : bytes ≠ [] := by
              rintro rfl
              rw [hread] at hclose
              cases hclose
            rw [recvSlot_data hready hread hne]
            refine .inr (.inr ⟨bytes.take MAXLINE, hready, rfl, ?_⟩)
            simp only [handleClientMsg, List.append_assoc]
            rfl
  · exact .inl (recvSlot_idle hready)

theorem Alone.recvSlot (h : Alone c i s) (j : ℕ) :
    Alone c i (recvSlot reads behind (s, buf) j).1 := by
  refine ⟨h.client, fun k hk => ?_⟩
  rcases recvSlot_effect reads behind s buf j with heq | ⟨-, heq⟩ | ⟨bytes, -, hctx, -⟩
  · rw [heq]
    exact h.alone k hk
  · rw [heq, clifd_dropClient]
    split
    · have hc := h.client
      omega
    · exact h.alone k hk
  · rw [hctx]
    exact h.alone k hk

/-- A slot sends nothing to a client that is not in it. -/
theorem Alone.sent_recvSlot (h : Alone c i s) (hj : j ≠ i) :
    Transfers.sent (ViaSelect.recvSlot reads behind (s, buf) j).1.log c =
      Transfers.sent s.log c := by
  have hother := h.alone j hj
  rcases recvSlot_effect reads behind s buf j with heq | ⟨-, heq⟩ | ⟨bytes, -, -, hlog⟩
  · rw [heq]
    rfl
  · rw [heq]
    rfl
  · rw [hlog, ← List.singleton_append, ← List.append_assoc,
      Transfers.sent_append_of_ne _ _ _ _ _ hother, Transfers.sent_append_of_ne _ _ _ _ _ hother]

theorem Waiting.recvSlot (h : Waiting c i s) (ha : Alone c i s) (hj : j ≠ i) :
    Waiting c i (recvSlot reads behind (s, buf) j).1 := by
  rcases recvSlot_effect reads behind s buf j with heq | ⟨-, heq⟩ | ⟨bytes, -, hctx, -⟩
  · rw [heq]
    exact ⟨h.slot, h.ready⟩
  · rw [heq]
    refine ⟨?_, Finset.mem_erase.2 ⟨(ha.alone j hj).symm, h.ready⟩⟩
    rw [clifd_dropClient, if_neg hj.symm]
    exact h.slot
  · exact ⟨hctx ▸ h.slot, hctx ▸ h.ready⟩

theorem Alone.sent_recvLoop {is : List ℕ} (h : Alone c i s) (his : i ∉ is) :
    Transfers.sent (is.foldl (ViaSelect.recvSlot reads behind) (s, buf)).1.log c =
      Transfers.sent s.log c := by
  induction is generalizing s buf with
  | nil => rfl
  | cons j is ih =>
      rw [List.mem_cons, not_or] at his
      exact (ih (h.recvSlot j) his.2).trans (h.sent_recvSlot (Ne.symm his.1))

theorem Waiting.recvLoop {is : List ℕ} (h : Waiting c i s) (ha : Alone c i s) (his : i ∉ is) :
    Waiting c i (is.foldl (ViaSelect.recvSlot reads behind) (s, buf)).1 ∧
      Alone c i (is.foldl (ViaSelect.recvSlot reads behind) (s, buf)).1 := by
  induction is generalizing s buf with
  | nil => exact ⟨h, ha⟩
  | cons j is ih =>
      rw [List.mem_cons, not_or] at his
      exact ih (h.recvSlot ha (Ne.symm his.1)) (ha.recvSlot j) his.2

/-- The buffer when the loop comes to slot `i`. -/
def bufferAt (s : State) (reads : ℕ → ReadResult) (behind : List UInt8) (i : ℕ) : Buffer :=
  ((List.range i).foldl (recvSlot reads behind) (s, Buffer.zero)).2

/-- What is written back to a client whose read returns `m`. -/
def reply (b : Buffer) (m behind : List UInt8) : List UInt8 :=
  if m = [] then [] else echoed (b.store 0 m) behind

theorem Waiting.sent_recvSlot {m : List UInt8} (h : Waiting c i s) (ha : Alone c i s)
    (hread : reads i = .data m) (hm : m.length ≤ MAXLINE) :
    Transfers.sent (ViaSelect.recvSlot reads behind (s, buf) i).1.log c =
      Transfers.sent s.log c ++ reply buf m behind := by
  have hready : Ready s.ctx i := ⟨h.slot ▸ ha.client, h.slot ▸ h.ready⟩
  unfold reply
  split
  · rename_i hnil
    have hclose : (reads i).closes = true := by
      rw [hread, hnil]
      rfl
    rw [recvSlot_drop hready hclose, List.append_nil]
    rfl
  · rename_i hne
    rw [recvSlot_data hready hread hne, h.slot, List.take_of_length_le hm]
    simp only [handleClientMsg]
    rw [Transfers.sent_append_write, Transfers.sent_append_read]

theorem range_split {n : ℕ} (h : i < n) :
    List.range n = List.range i ++ i :: List.range' (i + 1) (n - (i + 1)) := by
  obtain ⟨k, rfl⟩ := Nat.exists_eq_add_of_le h
  rw [Nat.add_sub_cancel_left, ← List.range'_succ, List.range_eq_range', List.range_eq_range',
    show i + 1 + k = i + (k + 1) by omega, ← List.range'_append_1, Nat.zero_add]

/-- A round sends a ready client its reply, made from what the slots before it left in the
buffer. -/
theorem Waiting.sent_recvClientMsg {m : List UInt8} (h : Waiting c i s) (ha : Alone c i s)
    (hi : (i : ℤ) ≤ s.ctx.cli_cnt) (hread : reads i = .data m) (hm : m.length ≤ MAXLINE) :
    Transfers.sent (recvClientMsg s reads behind).log c =
      Transfers.sent s.log c ++ reply (bufferAt s reads behind i) m behind := by
  have hself : i ∉ List.range i := List.not_mem_range_self
  have hrest : i ∉ List.range' (i + 1) ((s.ctx.cli_cnt + 1).toNat - (i + 1)) := by
    rw [List.mem_range'_1]
    omega
  unfold ViaSelect.recvClientMsg bufferAt
  rw [range_split (by omega : i < _), List.foldl_append, List.foldl_cons]
  set sb := (List.range i).foldl (ViaSelect.recvSlot reads behind) (s, Buffer.zero)
  have hbefore : Waiting c i sb.1 ∧ Alone c i sb.1 := h.recvLoop ha hself
  have hsent : Transfers.sent sb.1.log c = Transfers.sent s.log c := ha.sent_recvLoop hself
  obtain ⟨hwait, halone⟩ := hbefore
  calc Transfers.sent ((List.range' (i + 1) ((s.ctx.cli_cnt + 1).toNat - (i + 1))).foldl
          (ViaSelect.recvSlot reads behind) (ViaSelect.recvSlot reads behind sb i)).1.log c
      = Transfers.sent (ViaSelect.recvSlot reads behind sb i).1.log c :=
        (halone.recvSlot i).sent_recvLoop hrest
    _ = Transfers.sent sb.1.log c ++ reply sb.2 m behind := hwait.sent_recvSlot halone hread hm
    _ = Transfers.sent s.log c ++ reply sb.2 m behind := by rw [hsent]

end Slots

/-- The reply does not depend on what the other clients sent. -/
def Isolated (s : State) (i : Fin SIZE) (m : List UInt8) : Prop :=
  ∀ (reads reads' : ℕ → ReadResult) (behind behind' : List UInt8),
    reads i = .data m → reads' i = .data m →
      Transfers.sent (recvClientMsg s reads behind).log (s.ctx.clifds i) =
        Transfers.sent (recvClientMsg s reads' behind').log (s.ctx.clifds i)

/-- Where the string in the buffer ends, nothing behind the buffer is sent. -/
theorem echoed_congr {b b' : Buffer} {n : ℕ} (hn : n < MAXLINE) (hz : b n = 0)
    (hb : ∀ j, j ≤ n → b j = b' j) (behind behind' : List UInt8) :
    echoed b behind = echoed b' behind' := by
  obtain ⟨k, hk⟩ := Buffer.exists_strlen hn hz
  obtain ⟨hlt, hzero, hmin⟩ := Buffer.strlen_eq_some.1 hk
  have hkn : k ≤ n := by
    by_contra hgt
    exact hmin n (by omega) hz
  have hk' : b'.strlen MAXLINE = some k := by
    refine Buffer.strlen_eq_some.2 ⟨hlt, hb k hkn ▸ hzero, fun j hj => ?_⟩
    rw [← hb j (by omega)]
    exact hmin j hj
  unfold echoed
  rw [hk, hk']
  apply List.map_congr_left
  intro j hj
  rw [List.mem_range'_1] at hj
  exact hb j (by omega)

/-- A message with a zero byte is cut at it, whatever the buffer held. -/
theorem reply_congr_of_zero {m : List UInt8} (hm : m.length ≤ MAXLINE) (hz : (0 : UInt8) ∈ m)
    (b b' : Buffer) (behind behind' : List UInt8) : reply b m behind = reply b' m behind' := by
  obtain ⟨n, hn, hzero⟩ := List.mem_iff_getElem.1 hz
  have hstore : ∀ (b : Buffer) (j : ℕ) (hj : j < m.length), b.store 0 m j = m[j] := by
    intro b j hj
    have hbyte := Buffer.store_apply b 0 hj
    rwa [Nat.zero_add] at hbyte
  have hne : m ≠ [] := List.ne_nil_of_mem hz
  unfold reply
  rw [if_neg hne, if_neg hne]
  apply echoed_congr (n := n) (by omega)
  · rw [hstore b n hn, hzero]
  · intro j hj
    rw [hstore b j (by omega), hstore b' j (by omega)]

theorem reply_zero_congr {m : List UInt8} (hm : m.length < MAXLINE) (behind behind' : List UInt8) :
    reply Buffer.zero m behind = reply Buffer.zero m behind' := by
  unfold reply
  split
  · rfl
  · apply echoed_congr (n := m.length) hm
    · exact Buffer.store_of_ge (by omega)
    · exact fun _ _ => rfl

theorem recvLoop_idle {is : List ℕ} (h : ∀ j ∈ is, ¬ Ready s.ctx j) :
    (is.foldl (recvSlot reads behind) (s, buf)).2 = buf := by
  induction is generalizing s with
  | nil => rfl
  | cons j is ih =>
      rw [List.foldl_cons, recvSlot_idle (h j List.mem_cons_self)]
      exact ih (fun k hk => h k (List.mem_cons_of_mem j hk))

/-- Clients that all send the same leave it in the buffer. -/
theorem recvLoop_same {is : List ℕ} {m : List UInt8} (hne : m ≠ []) (hm : m.length ≤ MAXLINE)
    (hreads : ∀ j ∈ is, reads j = .data m) (h : ∃ j ∈ is, Ready s.ctx j) :
    (is.foldl (recvSlot reads behind) (s, buf)).2 = buf.store 0 m := by
  induction is generalizing s buf with
  | nil =>
      obtain ⟨j, hj, -⟩ := h
      cases hj
  | cons j is ih =>
      have hrest : ∀ k ∈ is, reads k = .data m := fun k hk => hreads k (List.mem_cons_of_mem j hk)
      rw [List.foldl_cons]
      by_cases hready : Ready s.ctx j
      · rw [recvSlot_data hready (hreads j List.mem_cons_self) hne, List.take_of_length_le hm]
        by_cases hmore : ∃ k ∈ is, Ready s.ctx k
        · refine (ih hrest ?_).trans Buffer.store_store
          exact hmore
        · apply recvLoop_idle
          exact fun k hk hk' => hmore ⟨k, hk, hk'⟩
      · rw [recvSlot_idle hready]
        obtain ⟨k, hk, hk'⟩ := h
        rcases List.mem_cons.1 hk with rfl | hk
        · exact absurd hk' hready
        · exact ih hrest ⟨k, hk, hk'⟩

theorem length_echoed_gt {b : Buffer} {n : ℕ} (hn : n < MAXLINE) (h : ∀ j, j ≤ n → b j ≠ 0)
    (behind : List UInt8) : n + 1 < (echoed b behind).length := by
  unfold echoed
  cases hk : b.strlen MAXLINE with
  | some k =>
      obtain ⟨-, hzero, -⟩ := Buffer.strlen_eq_some.1 hk
      have hgt : n < k := by
        by_contra hle
        exact h k (by omega) hzero
      simp only [Buffer.slice, List.length_map, List.length_range']
      omega
  | none =>
      simp only [Buffer.slice, List.length_append, List.length_map, List.length_range',
        List.length_singleton]
      omega

/-- The byte behind a message without a zero byte tells what was there before. -/
theorem length_reply {b : Buffer} {m : List UInt8} (hm : m.length < MAXLINE) (hne : m ≠ [])
    (hz : (0 : UInt8) ∉ m) (behind : List UInt8) :
    (reply b m behind).length = m.length + 1 ↔ b m.length = 0 := by
  have hbehind : b.store 0 m m.length = b m.length := Buffer.store_of_ge (by omega)
  unfold reply
  rw [if_neg hne]
  constructor
  · intro hlen
    by_contra hb
    have hgt : m.length + 1 < (echoed (b.store 0 m) behind).length := by
      apply length_echoed_gt hm
      intro j hj
      rcases Nat.lt_or_eq_of_le hj with hj | rfl
      · exact Buffer.store_ne_zero hz hj
      · rwa [hbehind]
    omega
  · intro hb
    have hlen : (b.store 0 m).strlen MAXLINE = some m.length :=
      Buffer.strlen_eq_some.2 ⟨hm, hbehind.trans hb, fun j hj => Buffer.store_ne_zero hz hj⟩
    unfold echoed
    rw [hlen]
    simp [Buffer.slice]

theorem Table.alone (h : Table srvfd s) {i : Fin SIZE} (hi : 0 ≤ s.ctx.clifds i) :
    Alone (s.ctx.clifds i) i s := by
  refine ⟨hi, fun j hj => ?_⟩
  unfold ServerContext.clifd
  split
  · rename_i hlt
    intro heq
    exact hj (congrArg Fin.val (h.distinct i ⟨j, hlt⟩ hi heq.symm)).symm
  · omega

theorem ready_select {t : State} {fds : Finset ℤ} (j : Fin SIZE) :
    Ready (t.select fds).ctx j ↔ 0 ≤ t.ctx.clifds j ∧ t.ctx.clifds j ∈ fds := by
  simp [Ready, State.select, ServerContext.clifd]

/-- What a message of `bytes` from every other client leaves for slot `i`. -/
theorem bufferAt_same {t : State} {i : Fin SIZE} {bytes m : List UInt8} (hne : bytes ≠ [])
    (hlen : bytes.length ≤ MAXLINE) (h : ∃ j < i, Ready t.ctx (j : Fin SIZE)) :
    bufferAt t (fun j => if j = i then .data m else .data bytes) [] i =
      Buffer.zero.store 0 bytes := by
  obtain ⟨j, hj, hready⟩ := h
  apply recvLoop_same hne hlen
  · intro k hk
    have hki : k ≠ i := (List.mem_range.1 hk).ne
    rw [if_neg hki]
  · exact ⟨j, List.mem_range.2 hj, hready⟩

theorem Table.isolated_round (h : Table srvfd s) {i : Fin SIZE} {m : List UInt8}
    (hi : 0 ≤ s.ctx.clifds i) (hready : s.ctx.clifds i ∈ s.ctx.allfds)
    (hm : m.length < MAXLINE) :
    Isolated s i m ↔ m = [] ∨ 0 ∈ m ∨ ∀ j < i, ¬ Ready s.ctx (j : Fin SIZE) := by
  have hsent : ∀ (reads : ℕ → ReadResult) (behind : List UInt8), reads i = .data m →
      Transfers.sent (recvClientMsg s reads behind).log (s.ctx.clifds i) =
        Transfers.sent s.log (s.ctx.clifds i) ++ reply (bufferAt s reads behind i) m behind := by
    intro reads behind hread
    have hwait : Waiting (s.ctx.clifds i) i s := ⟨by simp [ServerContext.clifd], hready⟩
    exact hwait.sent_recvClientMsg (h.alone hi) (h.below i hi).le hread hm.le
  constructor
  · intro hiso
    by_contra hneg
    rw [not_or, not_or] at hneg
    obtain ⟨hne, hz, hex⟩ := hneg
    have hlower : ∃ j < i, Ready s.ctx (j : Fin SIZE) := by
      by_contra hnone
      exact hex (fun j hj hr => hnone ⟨j, hj, hr⟩)
    have hpos : 0 < m.length := List.length_pos_iff.2 hne
    have heq := hiso (fun j => if j = i then .data m else .data (List.replicate (m.length + 1) 1))
      (fun j => if j = i then .data m else .data [1]) [] [] (if_pos rfl) (if_pos rfl)
    rw [hsent _ _ (if_pos rfl), hsent _ _ (if_pos rfl), List.append_cancel_left_eq,
      bufferAt_same (by simp) (by rw [List.length_replicate]; omega) hlower,
      bufferAt_same (by simp) (by decide) hlower] at heq
    have hclear : Buffer.zero.store 0 [1] m.length = 0 :=
      Buffer.store_of_ge (by rw [List.length_singleton]; omega)
    have hshort := (length_reply hm hne hz []).2 hclear
    rw [← heq] at hshort
    have hone : Buffer.zero.store 0 (List.replicate (m.length + 1) 1) m.length ≠ 0 :=
      Buffer.store_ne_zero (by simp) (by simp)
    exact hone ((length_reply hm hne hz []).1 hshort)
  · rintro (rfl | hz | hfree) reads reads' behind behind' hread hread'
    · rw [hsent reads behind hread, hsent reads' behind' hread']
      simp [reply]
    · rw [hsent reads behind hread, hsent reads' behind' hread',
        reply_congr_of_zero hm.le hz _ _ behind behind']
    · have hbuf : ∀ (reads : ℕ → ReadResult) (behind : List UInt8),
          bufferAt s reads behind i = Buffer.zero := by
        intro reads behind
        apply recvLoop_idle
        intro j hj
        have hj' := List.mem_range.1 hj
        exact hfree ⟨j, by omega⟩ hj'
      rw [hsent reads behind hread, hsent reads' behind' hread', hbuf, hbuf,
        reply_zero_congr hm behind behind']

/-- The reply to a ready client depends on its own message alone exactly if it sends nothing,
or its message holds a zero byte, or no client in a slot before it is ready. -/
theorem isolated_iff (h : (server srvfd).Reachable s) (fds : Finset ℤ) (i : Fin SIZE)
    (hi : 0 ≤ s.ctx.clifds i) (hready : s.ctx.clifds i ∈ fds) {m : List UInt8}
    (hm : m.length < MAXLINE) :
    Isolated ((setUp srvfd s).select fds) i m ↔
      m = [] ∨ 0 ∈ m ∨ ∀ j < i, 0 ≤ s.ctx.clifds j → s.ctx.clifds j ∉ fds := by
  have htab : Table srvfd ((setUp srvfd s).select fds) :=
    (table_of_reachable h).setUp.congr rfl rfl le_rfl
  have hclifds : (setUp srvfd s).ctx.clifds = s.ctx.clifds := (setUp_spec srvfd s).2.1
  have hslot : ((setUp srvfd s).select fds).ctx.clifds i = s.ctx.clifds i := congrFun hclifds i
  have hiff := htab.isolated_round (i := i) (m := m) (hslot ▸ hi) (hslot ▸ hready) hm
  simp only [ready_select, hclifds, not_and] at hiff
  exact hiff

/-- The first slot is read with `bytes`, the others with `"b"`. -/
def before (bytes : List UInt8) (i : ℕ) : ReadResult := if i = 0 then .data bytes else .data [98]

theorem isolated_iff_terminated :
    ∃ s, (server 3).Reachable s ∧ ∃ i : Fin SIZE, s.ctx.clifds i = 6 ∧
      Isolated ((setUp 3 s).select {5, 6}) i [98, 0] := by
  have hrun : ((server 3).run [connect 5, connect 6]).map
      (fun s => s.ctx.clifds ⟨1, by decide⟩) = some 6 := by decide +kernel
  obtain ⟨s, -, hs, hslot⟩ := Machine.reachable_of_run_map hrun
  refine ⟨s, hs, ⟨1, by decide⟩, hslot, ?_⟩
  refine (isolated_iff hs {5, 6} _ ?_ ?_ (by decide)).2 (.inr (.inl (by decide)))
  · rw [hslot]
    decide
  · rw [hslot]
    decide

/-- Clients 5 and 6 are ready and 6 sends `"b"`: what 5 sends behind its first byte comes
back to 6. -/
theorem reply_leaks :
    ∃ s, (server 3).Reachable s ∧ ∃ i : Fin SIZE, s.ctx.clifds i = 6 ∧
      ¬ Isolated ((setUp 3 s).select {5, 6}) i [98] := by
  have hrun : ((server 3).run [connect 5, connect 6]).map (fun s => (s.ctx.clifds ⟨1, by decide⟩,
      ((setUp 3 s).select {5, 6}).ctx.clifds ⟨1, by decide⟩,
      Transfers.sent (recvClientMsg ((setUp 3 s).select {5, 6}) (before [97, 99]) []).log 6,
      Transfers.sent (recvClientMsg ((setUp 3 s).select {5, 6}) (before [97]) []).log 6)) =
        some (6, 6, [98, 99, 0], [98, 0]) := by decide +kernel
  obtain ⟨s, -, hs, hview⟩ := Machine.reachable_of_run_map hrun
  simp only [Prod.mk.injEq] at hview
  obtain ⟨hslot, hsel, hlong, hshort⟩ := hview
  refine ⟨s, hs, ⟨1, by decide⟩, hslot, fun hiso => ?_⟩
  have heq := hiso (before [97, 99]) (before [97]) [] [] rfl rfl
  rw [hsel, hlong, hshort] at heq
  exact absurd heq (by decide)

end Londa.ViaSelect
