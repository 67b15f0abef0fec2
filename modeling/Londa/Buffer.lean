import Mathlib.Data.List.Range

/-!
# Byte buffers and the strings in them

A buffer gives the byte at every offset. Its size is not part of it: code that
reads to the terminating zero byte is given the size of the block it reads, and
`strlen` has no result where the block holds no zero byte.
-/

namespace Londa

def Buffer := ℕ → UInt8

namespace Buffer

def zero : Buffer := fun _ => 0

def store (b : Buffer) (off : ℕ) (bytes : List UInt8) : Buffer := fun i =>
  if off ≤ i ∧ i < off + bytes.length then bytes.getD (i - off) 0 else b i

def strlenFrom (b : Buffer) : ℕ → ℕ → Option ℕ
  | _, 0 => none
  | i, n + 1 => if b i = 0 then some i else strlenFrom b (i + 1) n

def strlen (b : Buffer) (size : ℕ) : Option ℕ := b.strlenFrom 0 size

def slice (b : Buffer) (off len : ℕ) : List UInt8 := (List.range' off len).map fun i => b i

/-- The string at the start of a block. -/
def cstring (b : Buffer) (size : ℕ) : Option (List UInt8) :=
  (b.strlen size).map fun n => b.slice 0 n

/-- The first offset from `i` on, within `n` bytes, whose byte satisfies `q`. -/
def findFrom (b : Buffer) (q : UInt8 → Bool) : ℕ → ℕ → Option ℕ
  | _, 0 => none
  | i, n + 1 => if q (b i) then some i else findFrom b q (i + 1) n

/-- The string from `pos` on. -/
def cstringFrom (b : Buffer) (size pos : ℕ) : Option (List UInt8) :=
  (b.strlenFrom pos (size - pos)).map fun stop => b.slice pos (stop - pos)

variable {b : Buffer} {off size : ℕ} {bytes : List UInt8}

theorem store_of_ge {i : ℕ} (h : off + bytes.length ≤ i) : b.store off bytes i = b i :=
  if_neg (fun hc => by omega)

theorem strlenFrom_eq_some {i n m : ℕ} :
    b.strlenFrom i n = some m ↔ i ≤ m ∧ m < i + n ∧ b m = 0 ∧ ∀ j, i ≤ j → j < m → b j ≠ 0 := by
  induction n generalizing i with
  | zero =>
      refine iff_of_false (fun h => by cases h) (fun h => ?_)
      omega
  | succ n ih =>
      unfold strlenFrom
      by_cases hz : b i = 0
      · rw [if_pos hz, Option.some_inj]
        constructor
        · rintro rfl
          exact ⟨le_rfl, by omega, hz, fun j hj hlt => by omega⟩
        · rintro ⟨hle, -, -, hmin⟩
          by_contra hne
          exact hmin i le_rfl (by omega) hz
      · rw [if_neg hz, ih]
        constructor
        · rintro ⟨hle, hlt, hm, hmin⟩
          refine ⟨by omega, by omega, hm, fun j hj hlt' => ?_⟩
          by_cases hji : j = i
          · exact hji ▸ hz
          · exact hmin j (by omega) hlt'
        · rintro ⟨hle, hlt, hm, hmin⟩
          have hne : i ≠ m := fun he => hz (he ▸ hm)
          exact ⟨by omega, by omega, hm, fun j hj hlt' => hmin j (by omega) hlt'⟩

theorem strlen_eq_some {n : ℕ} :
    b.strlen size = some n ↔ n < size ∧ b n = 0 ∧ ∀ j, j < n → b j ≠ 0 := by
  unfold strlen
  rw [strlenFrom_eq_some]
  constructor
  · rintro ⟨-, hlt, hn, hmin⟩
    exact ⟨by omega, hn, fun j hj => hmin j (by omega) hj⟩
  · rintro ⟨hlt, hn, hmin⟩
    exact ⟨by omega, by omega, hn, fun j _ hj => hmin j hj⟩

/-- A zero byte inside the block ends the string. -/
theorem exists_strlen {i : ℕ} (hi : i < size) (hz : b i = 0) : ∃ n, b.strlen size = some n := by
  induction i using Nat.strong_induction_on with
  | _ i ih =>
      by_cases hmin : ∃ j, j < i ∧ b j = 0
      · obtain ⟨j, hj, hzj⟩ := hmin
        exact ih j hj (by omega) hzj
      · exact ⟨i, strlen_eq_some.2 ⟨hi, hz, fun j hj hzj => hmin ⟨j, hj, hzj⟩⟩⟩

theorem store_apply (b : Buffer) (off : ℕ) {i : ℕ} (hi : i < bytes.length) :
    b.store off bytes (off + i) = bytes[i] := by
  have hin : off ≤ off + i ∧ off + i < off + bytes.length := by omega
  unfold store
  rw [if_pos hin, Nat.add_sub_cancel_left, List.getD_eq_getElem?_getD, List.getElem?_eq_getElem hi,
    Option.getD_some]

theorem slice_store : (b.store off bytes).slice off bytes.length = bytes := by
  apply List.ext_getElem
  · simp [slice]
  · intro i hi hi'
    simpa [slice] using store_apply b off hi'

theorem store_ne_zero {j : ℕ} (hnul : (0 : UInt8) ∉ bytes) (hj : j < bytes.length) :
    b.store 0 bytes j ≠ 0 := by
  have hbyte := store_apply b 0 hj
  rw [Nat.zero_add] at hbyte
  rw [hbyte]
  exact fun heq => hnul (heq ▸ List.getElem_mem hj)

theorem store_store : (b.store off bytes).store off bytes = b.store off bytes := by
  funext i
  unfold store
  split <;> rfl

@[simp] theorem store_nil : b.store off [] = b := by
  funext i
  exact if_neg (fun hc => by
    rw [List.length_nil] at hc
    omega)

theorem store_append {rest : List UInt8} :
    (b.store off bytes).store (off + bytes.length) rest = b.store off (bytes ++ rest) := by
  funext i
  unfold store
  by_cases hlow : off ≤ i ∧ i < off + bytes.length
  · rw [if_neg (by omega), if_pos hlow, if_pos (by rw [List.length_append]; omega),
      List.getD_eq_getElem?_getD, List.getD_eq_getElem?_getD,
      List.getElem?_append_left (by omega)]
  · by_cases hhigh : off + bytes.length ≤ i ∧ i < off + bytes.length + rest.length
    · rw [if_pos hhigh, if_pos (by rw [List.length_append]; omega),
        List.getD_eq_getElem?_getD, List.getD_eq_getElem?_getD,
        List.getElem?_append_right (by omega), Nat.sub_sub]
    · rw [if_neg hhigh, if_neg hlow, if_neg (by rw [List.length_append]; omega)]

theorem length_slice (b : Buffer) (off len : ℕ) : (b.slice off len).length = len := by
  simp [slice]

theorem slice_add (b : Buffer) (off m n : ℕ) :
    b.slice off (m + n) = b.slice off m ++ b.slice (off + m) n := by
  unfold slice
  rw [← List.range'_append_1, List.map_append]

theorem take_slice {n m : ℕ} (h : m ≤ n) : (b.slice 0 n).take m = b.slice 0 m := by
  obtain ⟨k, rfl⟩ := Nat.exists_eq_add_of_le h
  rw [slice_add]
  exact List.take_left' (length_slice _ _ _)

theorem drop_slice {n m : ℕ} (h : m ≤ n) : (b.slice 0 n).drop m = b.slice m (n - m) := by
  obtain ⟨k, rfl⟩ := Nat.exists_eq_add_of_le h
  rw [slice_add, Nat.zero_add, Nat.add_sub_cancel_left]
  exact List.drop_left' (length_slice _ _ _)

section Slice

variable {pos : ℕ} {u v : List UInt8}

theorem slice_cons_iff {c : UInt8} : b.slice pos (c :: u).length = c :: u ↔
    b pos = c ∧ b.slice (pos + 1) u.length = u := by
  simp [slice, List.range'_succ]

theorem slice_append_iff : b.slice pos (u ++ v).length = u ++ v ↔
    b.slice pos u.length = u ∧ b.slice (pos + u.length) v.length = v := by
  rw [List.length_append, slice_add]
  constructor
  · intro h
    exact List.append_inj h (length_slice _ _ _)
  · rintro ⟨hu, hv⟩
    rw [hu, hv]

theorem slice_congr {b' : Buffer} {m : ℕ} (h : ∀ i, pos ≤ i → i < pos + m → b' i = b i) :
    b'.slice pos m = b.slice pos m := by
  unfold slice
  apply List.map_congr_left
  intro i hi
  rw [List.mem_range'_1] at hi
  exact h i hi.1 hi.2

theorem strlenFrom_of_slice {n : ℕ} (hs : b.slice pos u.length = u) (hnul : (0 : UInt8) ∉ u)
    (hz : b (pos + u.length) = 0) (hn : u.length < n) :
    b.strlenFrom pos n = some (pos + u.length) := by
  refine strlenFrom_eq_some.2 ⟨Nat.le_add_right _ _, by omega, hz, fun j hj hlt => ?_⟩
  have hmem : b j ∈ b.slice pos u.length :=
    List.mem_map.2 ⟨j, List.mem_range'_1.2 ⟨hj, hlt⟩, rfl⟩
  rw [hs] at hmem
  exact fun hzero => hnul (hzero ▸ hmem)

theorem findFrom_eq {q : UInt8 → Bool} {n : ℕ} (hu : b.slice pos u.length = u)
    (hskip : ∀ c ∈ u, q c = false) (hq : q (b (pos + u.length)) = true) (hn : u.length < n) :
    b.findFrom q pos n = some (pos + u.length) := by
  induction u generalizing pos n with
  | nil =>
      cases n with
      | zero => cases hn
      | succ n => exact if_pos hq
  | cons c u ih =>
      cases n with
      | zero => cases hn
      | succ n =>
          obtain ⟨hc, hrest⟩ := slice_cons_iff.1 hu
          have hpos : pos + (c :: u).length = pos + 1 + u.length := by
            rw [List.length_cons]
            omega
          have hfirst : ¬ q (b pos) = true := by
            rw [hc, hskip c List.mem_cons_self]
            exact Bool.false_ne_true
          rw [hpos] at hq ⊢
          rw [findFrom, if_neg hfirst]
          exact ih hrest (fun d hd => hskip d (List.mem_cons_of_mem c hd)) hq
            (by rw [List.length_cons] at hn; omega)

end Slice

theorem cstring_eq_some {str : List UInt8} :
    b.cstring size = some str ↔
      b.strlen size = some str.length ∧ b.slice 0 str.length = str := by
  unfold cstring
  rw [Option.map_eq_some_iff]
  constructor
  · rintro ⟨n, hn, rfl⟩
    rw [length_slice]
    exact ⟨hn, rfl⟩
  · rintro ⟨hn, hs⟩
    exact ⟨str.length, hn, hs⟩

theorem cstring_nul {str : List UInt8} (h : b.cstring size = some str) : (0 : UInt8) ∉ str := by
  obtain ⟨hlen, hslice⟩ := cstring_eq_some.1 h
  rw [← hslice]
  intro hmem
  obtain ⟨j, hj, hzero⟩ := List.mem_map.1 hmem
  rw [List.mem_range'_1] at hj
  exact (strlen_eq_some.1 hlen).2.2 j (by omega) hzero

/-- The string in a block that starts with `bytes` starts with `bytes`. -/
theorem cstring_store {str : List UInt8} (hnul : (0 : UInt8) ∉ bytes)
    (h : (b.store 0 bytes).cstring size = some str) : bytes <+: str := by
  obtain ⟨hlen, hslice⟩ := cstring_eq_some.1 h
  obtain ⟨-, hzero, -⟩ := strlen_eq_some.1 hlen
  have hle : bytes.length ≤ str.length := by
    by_contra hlt
    exact store_ne_zero hnul (not_le.1 hlt) hzero
  obtain ⟨k, hk⟩ := Nat.exists_eq_add_of_le hle
  rw [hk, slice_add, slice_store] at hslice
  exact ⟨_, hslice⟩

/-- The string ends at the first zero byte that was stored. -/
theorem cstring_store_nul {u v : List UInt8} (hnul : (0 : UInt8) ∉ u) (hlen : u.length < size) :
    (b.store 0 (u ++ 0 :: v)).cstring size = some u := by
  have hall : (b.store 0 (u ++ 0 :: v)).slice 0 (u ++ 0 :: v).length = u ++ 0 :: v := slice_store
  obtain ⟨hu, hrest⟩ := slice_append_iff.1 hall
  have hzero := (slice_cons_iff.1 hrest).1
  have hstop := strlenFrom_of_slice hu hnul hzero hlen
  rw [Nat.zero_add] at hstop
  exact cstring_eq_some.2 ⟨hstop, hu⟩

theorem cstring_store_iff (hnul : (0 : UInt8) ∉ bytes) :
    (b.store 0 bytes).cstring size = some bytes ↔
      bytes.length < size ∧ b bytes.length = 0 := by
  rw [cstring_eq_some, strlen_eq_some, store_of_ge (by omega)]
  constructor
  · rintro ⟨⟨hlt, hz, -⟩, -⟩
    exact ⟨hlt, hz⟩
  · rintro ⟨hlt, hz⟩
    exact ⟨⟨hlt, hz, fun j hj => store_ne_zero hnul hj⟩, slice_store⟩

/-- The string in a cleared buffer after bytes without a zero byte were stored. -/
theorem strlen_store_zero (hlen : bytes.length < size) (hnul : (0 : UInt8) ∉ bytes) :
    (zero.store 0 bytes).strlen size = some bytes.length :=
  strlen_eq_some.2 ⟨hlen, store_of_ge (by omega), fun _ hj => store_ne_zero hnul hj⟩

/-- What was stored in a cleared buffer is the string in it exactly if it has no zero byte. -/
theorem slice_strlen_store_zero {n : ℕ} (hlen : bytes.length < size)
    (hn : (zero.store 0 bytes).strlen size = some n) :
    (zero.store 0 bytes).slice 0 n = bytes ↔ (0 : UInt8) ∉ bytes := by
  constructor
  · intro heq hmem
    obtain ⟨j, hj, hzero⟩ := List.mem_iff_getElem.1 hmem
    have hbyte := store_apply zero 0 hj
    rw [Nat.zero_add, hzero] at hbyte
    have hnlen : n = bytes.length := by
      rw [← length_slice (zero.store 0 bytes) 0 n, heq]
    exact (strlen_eq_some.1 hn).2.2 j (by omega) hbyte
  · intro hnul
    have hn' := strlen_store_zero hlen hnul
    rw [hn] at hn'
    rw [Option.some.inj hn']
    exact slice_store

end Buffer
end Londa
