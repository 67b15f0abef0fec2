import Mathlib.Data.List.TakeWhile
import Mathlib.Data.Nat.Digits.Lemmas
import Mathlib.Tactic.IntervalCases

/-!
# Numbers in hexadecimal on a character stream

`digits` is what `os << std::hex << n` writes, in lower case and without a prefix. `extract`
is `is >> std::hex >> n` for an unsigned `n` below a bound: white space is skipped, then come
a sign, the prefix `0x` and the digits, of which at least one is needed; a negative number is
taken modulo the bound, a number that is too large fails.
-/

namespace Londa.Hex

def digit (d : ℕ) : UInt8 := UInt8.ofNat (if d < 10 then 48 + d else 87 + d)

def digits (n : ℕ) : List UInt8 :=
  if n = 0 then [digit 0] else ((Nat.digits 16 n).map digit).reverse

def isDigit (c : UInt8) : Bool :=
  (48 ≤ c && c ≤ 57) || (97 ≤ c && c ≤ 102) || (65 ≤ c && c ≤ 70)

def digitValue (c : UInt8) : ℕ :=
  if c ≤ 57 then c.toNat - 48 else if c ≤ 70 then c.toNat - 55 else c.toNat - 87

def value (ds : List UInt8) : ℕ := ds.foldl (fun v c => 16 * v + digitValue c) 0

def isSpace (c : UInt8) : Bool := c == 32 || (9 ≤ c && c ≤ 13)

/-- Whether there is a minus sign, and the text behind the sign. -/
def unsign : List UInt8 → Bool × List UInt8
  | 45 :: s => (true, s)
  | 43 :: s => (false, s)
  | s => (false, s)

/-- The text behind the prefix. -/
def skipBase : List UInt8 → List UInt8
  | 48 :: 120 :: s => s
  | 48 :: 88 :: s => s
  | s => s

/-- The sign of a number and its digits, up to the first character that is none. -/
def scan (text : List UInt8) : Bool × List UInt8 :=
  let signed := unsign (text.dropWhile isSpace)
  (signed.1, (skipBase signed.2).takeWhile isDigit)

def extract (bound : ℕ) (text : List UInt8) : Option ℕ :=
  if (scan text).2 = [] ∨ bound ≤ value (scan text).2 then none
  else some (if (scan text).1 then (bound - value (scan text).2) % bound
    else value (scan text).2)

variable {c : UInt8} {ds s text : List UInt8} {bound d k n : ℕ}

theorem isDigit_digit (h : d < 16) : isDigit (digit d) = true := by
  interval_cases d <;> rfl

theorem digitValue_digit (h : d < 16) : digitValue (digit d) = d := by
  interval_cases d <;> rfl

theorem digitValue_lt (h : isDigit c) : digitValue c < 16 := by
  unfold isDigit at h
  unfold digitValue
  simp only [Bool.or_eq_true, Bool.and_eq_true, decide_eq_true_eq, UInt8.le_iff_toNat_le,
    UInt8.reduceToNat] at h
  simp only [UInt8.le_iff_toNat_le, UInt8.reduceToNat]
  split_ifs <;> omega

theorem isSpace_of_isDigit (h : isDigit c) : isSpace c = false := by
  unfold isDigit at h
  unfold isSpace
  simp only [Bool.or_eq_true, Bool.and_eq_true, decide_eq_true_eq, UInt8.le_iff_toNat_le,
    UInt8.reduceToNat] at h
  simp only [Bool.or_eq_false_iff, Bool.and_eq_false_iff, decide_eq_false_iff_not,
    UInt8.le_iff_toNat_le, UInt8.reduceToNat, beq_eq_false_iff_ne, ne_eq, ← UInt8.toNat_inj]
  omega

theorem value_append_singleton (ds : List UInt8) (c : UInt8) :
    value (ds ++ [c]) = 16 * value ds + digitValue c := by
  simp [value, List.foldl_append]

theorem value_lt (h : ∀ c ∈ ds, isDigit c) : value ds < 16 ^ ds.length := by
  induction ds using List.reverseRecOn with
  | nil => exact Nat.one_pos
  | append_singleton ds c ih =>
      have hds := ih fun d hd => h d (List.mem_append_left _ hd)
      have hc := digitValue_lt (h c (by simp))
      rw [value_append_singleton, List.length_append, List.length_singleton, pow_succ]
      omega

theorem value_map_digit {ds : List ℕ} (h : ∀ d ∈ ds, d < 16) :
    value (ds.map digit).reverse = Nat.ofDigits 16 ds := by
  induction ds with
  | nil => rfl
  | cons d ds ih =>
      rw [List.map_cons, List.reverse_cons, value_append_singleton,
        ih fun e he => h e (List.mem_cons_of_mem d he), digitValue_digit (h d List.mem_cons_self),
        Nat.ofDigits_cons]
      exact Nat.add_comm _ _

theorem value_digits (n : ℕ) : value (digits n) = n := by
  unfold digits
  split_ifs with hn
  · rw [hn]
    rfl
  · rw [value_map_digit fun d hd => Nat.digits_lt_base (by omega) hd, Nat.ofDigits_digits]

theorem isDigit_of_mem_digits (h : c ∈ digits n) : isDigit c := by
  unfold digits at h
  split_ifs at h with hn
  · rw [List.mem_singleton.1 h]
    rfl
  · rw [List.mem_reverse, List.mem_map] at h
    obtain ⟨d, hd, rfl⟩ := h
    exact isDigit_digit (Nat.digits_lt_base (by omega) hd)

theorem digits_ne_nil (n : ℕ) : digits n ≠ [] := by
  unfold digits
  split_ifs with hn
  · exact List.cons_ne_nil _ _
  · simpa using Nat.digits_ne_nil_iff_ne_zero.2 hn

theorem length_digits_le_iff (hk : 0 < k) : (digits n).length ≤ k ↔ n < 16 ^ k := by
  unfold digits
  split_ifs with hn
  · rw [hn, List.length_singleton]
    exact iff_of_true hk (Nat.pow_pos (by omega))
  · rw [List.length_reverse, List.length_map]
    exact Nat.digits_length_le_iff (by omega) n

theorem unsign_of_isDigit (h : ∀ c ∈ s, isDigit c) : unsign s = (false, s) := by
  unfold unsign
  split
  · exact absurd (h 45 List.mem_cons_self) (by decide)
  · exact absurd (h 43 List.mem_cons_self) (by decide)
  · rfl

theorem skipBase_of_isDigit (h : ∀ c ∈ s, isDigit c) : skipBase s = s := by
  unfold skipBase
  split
  · exact absurd (h 120 (List.mem_cons_of_mem _ List.mem_cons_self)) (by decide)
  · exact absurd (h 88 (List.mem_cons_of_mem _ List.mem_cons_self)) (by decide)
  · rfl

theorem length_unsign_le (s : List UInt8) :
    (unsign s).2.length + (if (unsign s).1 then 1 else 0) ≤ s.length := by
  unfold unsign
  split <;> simp

theorem length_skipBase_le (s : List UInt8) : (skipBase s).length ≤ s.length := by
  unfold skipBase
  split <;> simp [Nat.add_assoc]

theorem scan_digits (pad n : ℕ) : scan (List.replicate pad 32 ++ digits n) = (false, digits n) := by
  have hall : ∀ c ∈ digits n, isDigit c := fun c hc => isDigit_of_mem_digits hc
  have hdrop : (List.replicate pad 32 ++ digits n).dropWhile isSpace = digits n := by
    rw [List.dropWhile_append_of_pos fun c hc => by rw [List.eq_of_mem_replicate hc]; rfl]
    obtain ⟨c, cs, hcs⟩ := List.exists_cons_of_ne_nil (digits_ne_nil n)
    have hc := isSpace_of_isDigit (hall c (hcs ▸ List.mem_cons_self))
    rw [hcs, List.dropWhile_cons_of_neg (by rw [hc]; exact Bool.false_ne_true)]
  unfold scan
  rw [hdrop, unsign_of_isDigit hall]
  dsimp only
  rw [skipBase_of_isDigit hall, List.takeWhile_eq_self_iff.2 hall]

theorem length_scan_le (text : List UInt8) :
    (scan text).2.length + (if (scan text).1 then 1 else 0) ≤ text.length := by
  have htake := (List.takeWhile_prefix isDigit
    (l := skipBase (unsign (text.dropWhile isSpace)).2)).length_le
  have hpre := length_skipBase_le (unsign (text.dropWhile isSpace)).2
  have hsign := length_unsign_le (text.dropWhile isSpace)
  have hdrop := (List.dropWhile_suffix isSpace (l := text)).length_le
  unfold scan
  dsimp only
  omega

theorem value_scan_lt (text : List UInt8) : value (scan text).2 < 16 ^ (scan text).2.length :=
  value_lt fun _ hc => List.mem_takeWhile_imp hc

/-- A padded number is read back. -/
theorem extract_digits (pad : ℕ) (h : n < bound) :
    extract bound (List.replicate pad 32 ++ digits n) = some n := by
  unfold extract
  rw [scan_digits]
  dsimp only
  rw [value_digits, if_neg (by simp [digits_ne_nil, h])]
  rfl

/-- What is read from a text of `k` characters is a number of at most `k` digits, or the
complement of a nonzero one of fewer digits. -/
theorem extract_cases (h : extract bound text = some n) :
    n < 16 ^ text.length ∨
      ∃ v, 0 < v ∧ v < 16 ^ (text.length - 1) ∧ v < bound ∧ n = bound - v := by
  have hlen := length_scan_le text
  have hval := value_scan_lt text
  unfold extract at h
  split_ifs at h with hbad hneg
  · rw [if_pos hneg] at hlen
    have hlt := not_le.1 (not_or.1 hbad).2
    cases Option.some.inj h
    rcases Nat.eq_zero_or_pos (value (scan text).2) with hzero | hpos
    · left
      rw [hzero, Nat.sub_zero, Nat.mod_self]
      exact Nat.pow_pos (by omega)
    · refine Or.inr ⟨value (scan text).2, hpos, ?_, hlt, Nat.mod_eq_of_lt (by omega)⟩
      exact hval.trans_le (Nat.pow_le_pow_right (by omega) (by omega))
  · cases Option.some.inj h
    exact Or.inl (hval.trans_le (Nat.pow_le_pow_right (by omega) (by omega)))

end Londa.Hex
