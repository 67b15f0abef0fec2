import Londa.Rounding
import Londa.Machine

/-!
# Cutting the data into chunks

Model of one pass of the outer loop of `manual_mt` in `code/concurrent/sum.cpp`: the number of
chunks is the quotient of the two sizes in single precision, rounded up, and the first chunk
takes the remainder. A range is its start and its length. `float` values are exact rationals,
rounded to a significand of 24 bits; the sizes are far from the bounds of the exponents. There
is no pass where the conversion of the quotient to `int`, or the countdown, leaves the range of
`int`.

The remainder is exact and the quotient is not: they agree for all sizes up to `2 ^ 24`.
-/

namespace Londa.ManualMt

def INT_MAX : ℕ := 2 ^ 31 - 1

/-- A conversion to `float`, or the result of an operation on `float`. -/
def single (x : ℚ) : ℚ := roundTo 24 x

def epochCount (size batch_size : ℕ) : ℤ := ⌈single (single size / single batch_size)⌉

def epochLast (size batch_size : ℕ) : ℕ := size % batch_size

def firstOffset (size batch_size : ℕ) : ℕ :=
  if epochLast size batch_size = 0 then batch_size else epochLast size batch_size

/-- The loop `do ... while (--epoch_count)`. -/
def chunkLoop (batch_size : ℕ) : ℕ → ℕ → ℕ → List (ℕ × ℕ)
  | 0, _, _ => []
  | epoch_count + 1, start, offset =>
      (start, offset) :: chunkLoop batch_size epoch_count (start + offset) batch_size

def pass (size batch_size : ℕ) : Option (List (ℕ × ℕ)) :=
  if 1 ≤ epochCount size batch_size ∧ epochCount size batch_size ≤ INT_MAX then
    some (chunkLoop batch_size (epochCount size batch_size).toNat 0 (firstOffset size batch_size))
  else none

/-- The ranges follow one another from `start` to `stop`; none is empty and none is longer than
`batch_size`. -/
def Consecutive (batch_size stop : ℕ) : ℕ → List (ℕ × ℕ) → Prop
  | start, [] => start = stop
  | start, (s, offset) :: ranges =>
      s = start ∧ 0 < offset ∧ offset ≤ batch_size ∧
        Consecutive batch_size stop (start + offset) ranges

instance decidableConsecutive (batch_size stop : ℕ) :
    ∀ start ranges, Decidable (Consecutive batch_size stop start ranges)
  | start, [] => inferInstanceAs (Decidable (start = stop))
  | start, (s, offset) :: ranges =>
      have := decidableConsecutive batch_size stop (start + offset) ranges
      inferInstanceAs (Decidable (s = start ∧ 0 < offset ∧ offset ≤ batch_size ∧
        Consecutive batch_size stop (start + offset) ranges))

def Covers (size batch_size : ℕ) : Prop :=
  ∃ ranges ∈ pass size batch_size, Consecutive batch_size size 0 ranges

instance (size batch_size : ℕ) : Decidable (Covers size batch_size) :=
  inferInstanceAs (Decidable (∃ ranges ∈ pass size batch_size, _))

def chunkCount (size batch_size : ℕ) : ℕ := (size + batch_size - 1) / batch_size

/-- The single precision quotient rounds up to the number of chunks: that number has 24 bits, and
the quotient of the rounded sizes is above the middle behind the integer of 24 bits below it, and
not above the middle behind it. -/
def Agrees (size batch_size : ℕ) : Prop :=
  Fits 24 (chunkCount size batch_size) ∧
    (chunkCount size batch_size = 1 ∨ AboveMiddle 24 (below 24 (chunkCount size batch_size))
      (single size / single batch_size)) ∧
    ¬ AboveMiddle 24 (chunkCount size batch_size) (single size / single batch_size)

variable {size batch_size : ℕ}

theorem consecutive_chunkLoop_iff {stop start offset n : ℕ} (hpos : 0 < offset)
    (hle : offset ≤ batch_size) :
    Consecutive batch_size stop start (chunkLoop batch_size (n + 1) start offset) ↔
      start + offset + n * batch_size = stop := by
  induction n generalizing start offset with
  | zero => simp [chunkLoop, Consecutive, hpos, hle]
  | succ n ih =>
      have hpos' : 0 < batch_size := by omega
      rw [chunkLoop, Consecutive, ih hpos' le_rfl, Nat.succ_mul]
      constructor
      · rintro ⟨-, -, -, h⟩
        omega
      · intro h
        exact ⟨rfl, hpos, hle, by omega⟩

theorem firstOffset_bounds (size : ℕ) (hb : 1 ≤ batch_size) :
    0 < firstOffset size batch_size ∧ firstOffset size batch_size ≤ batch_size := by
  have hlt : size % batch_size < batch_size := Nat.mod_lt size hb
  unfold firstOffset epochLast
  split <;> omega

/-- The remainder and the full chunks behind it make up the data. -/
theorem firstOffset_add (hb : 1 ≤ batch_size) (hle : batch_size ≤ size) :
    1 ≤ chunkCount size batch_size ∧
      firstOffset size batch_size + (chunkCount size batch_size - 1) * batch_size = size := by
  have hquot : 1 ≤ size / batch_size := (Nat.one_le_div_iff hb).2 hle
  have hdiv : size / batch_size * batch_size + size % batch_size = size := Nat.div_add_mod' _ _
  have hlt : size % batch_size < batch_size := Nat.mod_lt size hb
  have hsucc : (size / batch_size + 1) * batch_size = size / batch_size * batch_size + batch_size :=
    Nat.succ_mul _ _
  unfold firstOffset epochLast
  split
  · rename_i hzero
    have hcount : chunkCount size batch_size = size / batch_size :=
      Nat.div_eq_of_lt_le (by omega) (by omega)
    have hpred := Nat.sub_one_mul (size / batch_size) batch_size
    have hmul := Nat.le_mul_of_pos_left batch_size hquot
    rw [hcount, hpred]
    omega
  · have hcount : chunkCount size batch_size = size / batch_size + 1 :=
      Nat.div_eq_of_lt_le (by omega) (by rw [Nat.succ_mul]; omega)
    rw [hcount, Nat.add_sub_cancel]
    omega

theorem chunkCount_le (hb : 1 ≤ batch_size) (hle : batch_size ≤ size) :
    chunkCount size batch_size ≤ size := by
  obtain ⟨hone, hsum⟩ := firstOffset_add hb hle
  have hmul := Nat.le_mul_of_pos_right (chunkCount size batch_size - 1) hb
  have hpos := (firstOffset_bounds size hb).1
  omega

theorem covers_iff_epochCount (hb : 1 ≤ batch_size) (hle : batch_size ≤ size)
    (hint : size ≤ INT_MAX) :
    Covers size batch_size ↔ epochCount size batch_size = chunkCount size batch_size := by
  obtain ⟨hone, hsum⟩ := firstOffset_add hb hle
  obtain ⟨hpos, hoff⟩ := firstOffset_bounds size hb
  have hcount := chunkCount_le hb hle
  unfold Covers pass
  constructor
  · rintro ⟨ranges, hranges, hcons⟩
    split at hranges
    · rename_i hrange
      obtain ⟨n, hn⟩ : ∃ n : ℕ, epochCount size batch_size = n + 1 :=
        ⟨(epochCount size batch_size - 1).toNat, by omega⟩
      obtain rfl := Option.some.inj hranges
      rw [hn, show ((n : ℤ) + 1).toNat = n + 1 by omega,
        consecutive_chunkLoop_iff hpos hoff, Nat.zero_add] at hcons
      have hmul : n * batch_size = (chunkCount size batch_size - 1) * batch_size := by omega
      have heq := Nat.eq_of_mul_eq_mul_right hb hmul
      omega
    · cases hranges
  · intro heq
    refine ⟨_, if_pos ⟨by omega, by omega⟩, ?_⟩
    rw [heq, Int.toNat_natCast, show chunkCount size batch_size =
      chunkCount size batch_size - 1 + 1 by omega, consecutive_chunkLoop_iff hpos hoff]
    omega

theorem single_pos {n : ℕ} (h : 1 ≤ n) : 0 < single n :=
  roundTo_pos (by decide) (by exact_mod_cast h)

theorem agrees_iff (hb : 1 ≤ batch_size) (hle : batch_size ≤ size) :
    epochCount size batch_size = chunkCount size batch_size ↔ Agrees size batch_size :=
  ceil_roundTo_eq_iff (by decide) (div_pos (single_pos (hb.trans hle)) (single_pos hb))
    (firstOffset_add hb hle).1

/-- Up to `2 ^ 24` nothing is lost by rounding the sizes, and the quotient lies far enough above
the integer below it. -/
theorem agrees_of_le (hb : 1 ≤ batch_size) (hle : batch_size ≤ size) (hsize : size ≤ 2 ^ 24) :
    Agrees size batch_size := by
  obtain ⟨hone, hsum⟩ := firstOffset_add hb hle
  obtain ⟨hpos, hoff⟩ := firstOffset_bounds size hb
  have hcount := chunkCount_le hb hle
  have hfit : Fits 24 (chunkCount size batch_size : ℚ) :=
    fits_natCast_of_le (by decide) (by omega)
  have hn : single size = size := (fits_natCast_of_le (by decide) hsize).roundTo_eq
  have hd : single batch_size = batch_size :=
    (fits_natCast_of_le (by decide) (by omega)).roundTo_eq
  have hbpos : (0 : ℚ) < batch_size := by exact_mod_cast hb
  unfold Agrees
  rw [hn, hd]
  generalize hq : chunkCount size batch_size = q at *
  obtain ⟨k, rfl⟩ : ∃ k, q = k + 1 := ⟨q - 1, by omega⟩
  have hdata : (firstOffset size batch_size : ℚ) + k * batch_size = size := by
    exact_mod_cast hsum
  refine ⟨hfit, ?_, ?_⟩
  · rcases Nat.eq_zero_or_pos k with rfl | hk
    · exact .inl rfl
    · -- the distance to `k` is at least `1 / batch_size`, and `k * batch_size < 2 ^ 24`
      right
      left
      have hkpos : (0 : ℚ) < k := by exact_mod_cast hk
      have hulp := two_pow_mul_ulp_le 24 hkpos
      have hrest : (1 : ℚ) ≤ firstOffset size batch_size := by exact_mod_cast hpos
      have hbound : (k : ℚ) * batch_size < 2 ^ 24 := by
        have : k * batch_size < 2 ^ 24 := by
          rw [Nat.add_sub_cancel] at hsum
          omega
        exact_mod_cast this
      rw [below_of_le (by omega) (by omega), Nat.add_sub_cancel, lt_div_iff₀ hbpos]
      nlinarith [mul_le_mul_of_nonneg_right hulp hbpos.le]
  · have hle' : (size : ℚ) / batch_size ≤ (k + 1 : ℕ) := by
      have hoff' : (firstOffset size batch_size : ℚ) ≤ batch_size := by exact_mod_cast hoff
      rw [div_le_iff₀ hbpos]
      push_cast
      linarith
    have hulp := ulp_pos 24 ((k + 1 : ℕ) : ℚ)
    rintro (h | ⟨h, -⟩) <;> linarith

/-- One pass hands out the data exactly once if and only if the quotient in single precision
rounds up to the number of chunks, as it does for all sizes up to `2 ^ 24`. -/
theorem covers_iff (hb : 1 ≤ batch_size) (hle : batch_size ≤ size) (hint : size ≤ INT_MAX) :
    (Covers size batch_size ↔ Agrees size batch_size) ∧
      (size ≤ 2 ^ 24 → Covers size batch_size) := by
  have hiff : Covers size batch_size ↔ Agrees size batch_size :=
    (covers_iff_epochCount hb hle hint).trans (agrees_iff hb hle)
  exact ⟨hiff, fun hsize => hiff.2 (agrees_of_le hb hle hsize)⟩

theorem covers_iff_million : Covers 1000000 3000 ∧ Agrees 1000000 3000 := by
  have h := @covers_iff 1000000 3000 (by decide) (by decide) (by decide)
  exact ⟨h.2 (by decide), h.1.1 (h.2 (by decide))⟩

/-- With 16777217 values and chunks of 16777216 only the first value is handed out. With
16777227 values and chunks of a third of them there is a fourth chunk behind the end. -/
theorem chunk_lost_and_past_end : ¬ Covers 16777217 16777216 ∧ ¬ Covers 16777227 5592409 := by
  decide +kernel

end Londa.ManualMt
