import Mathlib.Data.Int.Log
import Mathlib.Data.Rat.Floor
import Mathlib.Algebra.Order.Field.Power
import Mathlib.Algebra.Ring.Int.Parity
import Mathlib.Tactic.Linarith
import Mathlib.Tactic.FieldSimp
import Mathlib.Tactic.Ring

/-!
# Rounding to a number of significant bits

`roundTo p x` is the positive rational `x` rounded to the nearest number with a significand
of `p` bits, ties to the even significand. There is no bound on the exponents. What a rounded
number is compared with is a number of `p` bits: it exceeds one exactly if the unrounded number
is above the middle between that one and the next.
-/

namespace Londa

def roundEven (x : ℚ) : ℤ :=
  if x - ⌊x⌋ < 1 / 2 then ⌊x⌋
  else if 1 / 2 < x - ⌊x⌋ then ⌊x⌋ + 1
  else if Even ⌊x⌋ then ⌊x⌋
  else ⌊x⌋ + 1

/-- The unit in the last of `p` places of `x`. -/
def ulp (p : ℕ) (x : ℚ) : ℚ := 2 ^ (Int.log 2 x + 1 - p)

def roundTo (p : ℕ) (x : ℚ) : ℚ := roundEven (x / ulp p x) * ulp p x

/-- `v` has a significand of `p` bits. -/
def Fits (p : ℕ) (v : ℚ) : Prop := ⌊v / ulp p v⌋ * ulp p v = v

instance (p : ℕ) (v : ℚ) : Decidable (Fits p v) := inferInstanceAs (Decidable (_ = _))

/-- `x` is above the middle between `v` and the next number of `p` bits. In the middle the one
with the even significand is the nearer. -/
def AboveMiddle (p : ℕ) (v x : ℚ) : Prop :=
  v + ulp p v / 2 < x ∨ x = v + ulp p v / 2 ∧ Odd ⌊v / ulp p v⌋

instance (p : ℕ) (v x : ℚ) : Decidable (AboveMiddle p v x) :=
  inferInstanceAs (Decidable (_ ∨ _ ∧ _))

/-- The largest integer of `p` bits below `q`, if `q` has `p` bits. -/
def below (p q : ℕ) : ℕ := q - 2 ^ (Nat.log 2 (q - 1) + 1 - p)

section RoundEven

variable {x : ℚ} {m : ℤ}

theorem lt_roundEven_iff : m < roundEven x ↔ m + 1 / 2 < x ∨ x = m + 1 / 2 ∧ Odd m := by
  have hlo := Int.floor_le x
  have hhi := Int.lt_floor_add_one x
  rcases lt_trichotomy m ⌊x⌋ with hlt | heq | hgt
  · have hle : ((m + 1 : ℤ) : ℚ) ≤ ⌊x⌋ := by exact_mod_cast hlt
    push_cast at hle
    refine iff_of_true ?_ (.inl (by linarith))
    unfold roundEven
    split_ifs <;> omega
  · subst heq
    unfold roundEven
    split_ifs with hbelow habove heven
    · refine iff_of_false (lt_irrefl _) ?_
      rintro (h | ⟨h, -⟩) <;> linarith
    · exact iff_of_true (lt_add_one _) (.inl (by linarith))
    · refine iff_of_false (lt_irrefl _) ?_
      rintro (h | ⟨-, hodd⟩)
      · linarith
      · exact (Int.not_odd_iff_even.2 heven) hodd
    · refine iff_of_true (lt_add_one _) (.inr ⟨by linarith, Int.not_even_iff_odd.1 heven⟩)
  · have hle : ((⌊x⌋ + 1 : ℤ) : ℚ) ≤ m := by exact_mod_cast hgt
    push_cast at hle
    refine iff_of_false ?_ ?_
    · unfold roundEven
      split_ifs <;> omega
    · rintro (h | ⟨h, -⟩) <;> linarith

theorem roundEven_intCast (m : ℤ) : roundEven m = m := by
  unfold roundEven
  simp

theorem le_roundEven (h : (m : ℚ) ≤ x) : m ≤ roundEven x := by
  by_contra hlt
  have hnot : ¬ m - 1 < roundEven x := by omega
  rw [lt_roundEven_iff] at hnot
  push_cast at hnot
  exact hnot (.inl (by linarith))

theorem roundEven_le (h : x ≤ m) : roundEven x ≤ m := by
  by_contra hlt
  rw [not_le, lt_roundEven_iff] at hlt
  rcases hlt with h' | ⟨h', -⟩ <;> linarith

end RoundEven

section Ulp

variable {p : ℕ} {x : ℚ}

theorem ulp_pos (p : ℕ) (x : ℚ) : 0 < ulp p x := by
  unfold ulp
  positivity

theorem two_pow_mul_ulp (p : ℕ) (x : ℚ) : 2 ^ p * ulp p x = 2 ^ (Int.log 2 x + 1) := by
  unfold ulp
  rw [← zpow_natCast, ← zpow_add₀ two_ne_zero, add_sub_cancel]

/-- The significand of `x` lies between `2 ^ (p - 1)` and `2 ^ p`. -/
theorem two_pow_mul_ulp_le (p : ℕ) (hx : 0 < x) : 2 ^ p * ulp p x ≤ 2 * x := by
  have hlog : (2 : ℚ) ^ Int.log 2 x ≤ x := by exact_mod_cast Int.zpow_log_le_self one_lt_two hx
  rw [two_pow_mul_ulp, zpow_add_one₀ two_ne_zero]
  linarith

theorem lt_two_pow_mul_ulp (p : ℕ) (x : ℚ) : x < 2 ^ p * ulp p x := by
  rw [two_pow_mul_ulp]
  exact_mod_cast Int.lt_zpow_succ_log_self one_lt_two x

end Ulp

section RoundTo

variable {p : ℕ} {x : ℚ}

theorem two_pow_mul_ulp_le_roundTo (hp : 1 ≤ p) (hx : 0 < x) :
    2 ^ p * ulp p x ≤ 2 * roundTo p x := by
  obtain ⟨q, rfl⟩ := Nat.exists_eq_add_of_le' hp
  have hu := ulp_pos (q + 1) x
  have hle : ((2 ^ q : ℤ) : ℚ) ≤ x / ulp (q + 1) x := by
    rw [le_div_iff₀ hu]
    have h := two_pow_mul_ulp_le (q + 1) hx
    rw [pow_succ] at h
    push_cast
    linarith
  have hround : (2 : ℚ) ^ q ≤ roundEven (x / ulp (q + 1) x) := by
    exact_mod_cast le_roundEven hle
  have hmul := mul_le_mul_of_nonneg_right hround hu.le
  unfold roundTo
  rw [pow_succ]
  linarith

theorem roundTo_le_two_pow_mul_ulp (p : ℕ) (x : ℚ) : roundTo p x ≤ 2 ^ p * ulp p x := by
  have hu := ulp_pos p x
  have hle : x / ulp p x ≤ ((2 ^ p : ℤ) : ℚ) := by
    rw [div_le_iff₀ hu]
    push_cast
    exact (lt_two_pow_mul_ulp p x).le
  have hround : (roundEven (x / ulp p x) : ℚ) ≤ 2 ^ p := by
    exact_mod_cast roundEven_le hle
  exact mul_le_mul_of_nonneg_right hround hu.le

theorem roundTo_pos (hp : 1 ≤ p) (hx : 0 < x) : 0 < roundTo p x := by
  have hle := two_pow_mul_ulp_le_roundTo hp hx
  have hpos : 0 < 2 ^ p * ulp p x := mul_pos (by positivity) (ulp_pos p x)
  linarith

end RoundTo

section Fits

variable {p : ℕ} {v x : ℚ}

/-- A number of `p` bits is not changed. -/
theorem Fits.roundTo_eq (h : Fits p v) : roundTo p v = v := by
  have hdiv : v / ulp p v = ⌊v / ulp p v⌋ := by
    rw [div_eq_iff (ulp_pos p v).ne']
    exact h.symm
  unfold roundTo
  rw [hdiv, roundEven_intCast]
  exact h

theorem Fits.lt_mul_ulp_iff (h : Fits p v) (n : ℤ) : v < n * ulp p v ↔ ⌊v / ulp p v⌋ < n := by
  have hmul := mul_lt_mul_iff_left₀ (b := (⌊v / ulp p v⌋ : ℚ)) (c := n) (ulp_pos p v)
  rw [h, Int.cast_lt] at hmul
  exact hmul

/-- The next number of `p` bits is at most the power of two above `v`. -/
theorem Fits.add_ulp_le (h : Fits p v) : v + ulp p v ≤ 2 ^ p * ulp p v := by
  have hu := ulp_pos p v
  have hfloor : ⌊v / ulp p v⌋ < 2 ^ p := by
    rw [← h.lt_mul_ulp_iff]
    push_cast
    exact lt_two_pow_mul_ulp p v
  have hsucc : (⌊v / ulp p v⌋ : ℚ) + 1 ≤ 2 ^ p := by exact_mod_cast hfloor
  have hmul := mul_le_mul_of_nonneg_right hsucc hu.le
  rw [add_mul, h, one_mul] at hmul
  exact hmul

theorem ulp_mul_two_le (h : Int.log 2 v < Int.log 2 x) : ulp p v * 2 ≤ ulp p x := by
  unfold ulp
  rw [← zpow_add_one₀ two_ne_zero]
  exact zpow_le_zpow_right₀ one_le_two (by omega)

/-- A number with a larger exponent than a number of `p` bits is rounded to one above it. -/
theorem Fits.add_ulp_le_roundTo_of_log_lt (h : Fits p v) (hp : 1 ≤ p) (hx : 0 < x)
    (hlog : Int.log 2 v < Int.log 2 x) : v + ulp p v ≤ x ∧ v + ulp p v ≤ roundTo p x := by
  have hnext := h.add_ulp_le
  have hscale : 2 ^ p * ulp p v * 2 ≤ 2 ^ p * ulp p x := by
    rw [mul_assoc]
    exact mul_le_mul_of_nonneg_left (ulp_mul_two_le hlog) (by positivity)
  have hx' := two_pow_mul_ulp_le p hx
  have hround := two_pow_mul_ulp_le_roundTo hp hx
  constructor <;> linarith

theorem le_of_log_lt (hv : 0 < v) (hlog : Int.log 2 x < Int.log 2 v) :
    x < v ∧ roundTo p x ≤ v := by
  have hscale : 2 ^ p * ulp p x * 2 ≤ 2 ^ p * ulp p v := by
    rw [mul_assoc]
    exact mul_le_mul_of_nonneg_left (ulp_mul_two_le hlog) (by positivity)
  have hv' := two_pow_mul_ulp_le p hv
  have hx := lt_two_pow_mul_ulp p x
  have hround := roundTo_le_two_pow_mul_ulp p x
  constructor <;> linarith

theorem ulp_congr (hlog : Int.log 2 v = Int.log 2 x) : ulp p v = ulp p x := by
  unfold ulp
  rw [hlog]

/-- A rounded number exceeds a number of `p` bits exactly if the number that is rounded is above
the middle between that number and the next. -/
theorem Fits.lt_roundTo_iff (h : Fits p v) (hp : 1 ≤ p) (hv : 0 < v) (hx : 0 < x) :
    v < roundTo p x ↔ AboveMiddle p v x := by
  have hu := ulp_pos p v
  unfold AboveMiddle
  rcases lt_trichotomy (Int.log 2 v) (Int.log 2 x) with hlt | heq | hgt
  · obtain ⟨hle, hround⟩ := h.add_ulp_le_roundTo_of_log_lt hp hx hlt
    exact iff_of_true (by linarith) (.inl (by linarith))
  · have hmiddle : (⌊v / ulp p v⌋ + 1 / 2) * ulp p v = v + ulp p v / 2 := by
      rw [add_mul, h]
      ring
    unfold roundTo
    rw [← ulp_congr heq, h.lt_mul_ulp_iff, lt_roundEven_iff, lt_div_iff₀ hu, div_eq_iff hu.ne',
      hmiddle]
  · obtain ⟨hlt, hround⟩ := le_of_log_lt (p := p) hv hgt
    refine iff_of_false (by linarith) ?_
    rintro (hx' | ⟨hx', -⟩) <;> linarith

/-- Between a number of `p` bits and the next nothing is rounded to. -/
theorem Fits.add_ulp_le_roundTo (h : Fits p v) (hp : 1 ≤ p) (hv : 0 < v) (hx : 0 < x)
    (hlt : v < roundTo p x) : v + ulp p v ≤ roundTo p x := by
  have hu := ulp_pos p v
  rcases lt_trichotomy (Int.log 2 v) (Int.log 2 x) with hlog | hlog | hlog
  · exact (h.add_ulp_le_roundTo_of_log_lt hp hx hlog).2
  · unfold roundTo at hlt ⊢
    rw [← ulp_congr hlog] at hlt ⊢
    have hcast : (⌊v / ulp p v⌋ : ℚ) + 1 ≤ roundEven (x / ulp p v) := by
      exact_mod_cast (h.lt_mul_ulp_iff _).1 hlt
    have hmul := mul_le_mul_of_nonneg_right hcast hu.le
    rw [add_mul, h, one_mul] at hmul
    exact hmul
  · have hle := (le_of_log_lt (p := p) hv hlog).2
    linarith

theorem fits_of_eq (m : ℤ) (h : v = m * ulp p v) : Fits p v := by
  have hdiv : v / ulp p v = m := by
    rw [div_eq_iff (ulp_pos p v).ne']
    exact h
  unfold Fits
  rw [hdiv, Int.floor_intCast]
  exact h.symm

theorem log_eq_of_le_of_lt (hv : 0 < v) (e : ℤ) (hlo : (2 : ℚ) ^ e ≤ v) (hhi : v < 2 ^ (e + 1)) :
    Int.log 2 v = e := by
  have h₁ : e ≤ Int.log 2 v := (Int.zpow_le_iff_le_log one_lt_two hv).1 (by exact_mod_cast hlo)
  have h₂ : Int.log 2 v < e + 1 := (Int.lt_zpow_iff_log_lt one_lt_two hv).1 (by exact_mod_cast hhi)
  omega

theorem fits_roundTo (hp : 1 ≤ p) (hx : 0 < x) : Fits p (roundTo p x) := by
  have hpos := roundTo_pos hp hx
  have hlo : (2 : ℚ) ^ Int.log 2 x ≤ roundTo p x := by
    have h := two_pow_mul_ulp_le_roundTo hp hx
    rw [two_pow_mul_ulp, zpow_add_one₀ two_ne_zero] at h
    linarith
  have hhi : roundTo p x ≤ 2 ^ (Int.log 2 x + 1) := by
    have h := roundTo_le_two_pow_mul_ulp p x
    rwa [two_pow_mul_ulp] at h
  rcases hhi.lt_or_eq with hlt | heq
  · have hlog := log_eq_of_le_of_lt hpos _ hlo hlt
    apply fits_of_eq (roundEven (x / ulp p x))
    rw [ulp_congr hlog]
    rfl
  · -- the significand is rounded up to the next power of two
    have hlog : Int.log 2 (roundTo p x) = Int.log 2 x + 1 := by
      rw [heq]
      exact_mod_cast Int.log_zpow (R := ℚ) one_lt_two (Int.log 2 x + 1)
    apply fits_of_eq (2 ^ (p - 1))
    unfold ulp
    rw [hlog, heq]
    push_cast
    rw [← zpow_natCast, ← zpow_add₀ two_ne_zero, Nat.cast_sub hp]
    congr 1
    push_cast
    ring

/-- From `2 ^ p` on rounded numbers are integers. -/
theorem exists_int_of_two_pow_le (h : (2 : ℚ) ^ p ≤ roundTo p x) : ∃ z : ℤ, roundTo p x = z := by
  have hle := h.trans (roundTo_le_two_pow_mul_ulp p x)
  have hone : (2 : ℚ) ^ (0 : ℤ) ≤ ulp p x := by
    have hpow : (0 : ℚ) < 2 ^ p := by positivity
    rw [zpow_zero]
    by_contra hlt
    have := mul_lt_mul_of_pos_left (not_le.1 hlt) hpow
    linarith
  have hexp : 0 ≤ Int.log 2 x + 1 - p := (zpow_le_zpow_iff_right₀ one_lt_two).1 hone
  obtain ⟨k, hk⟩ := Int.eq_ofNat_of_zero_le hexp
  refine ⟨roundEven (x / ulp p x) * 2 ^ k, ?_⟩
  unfold roundTo
  push_cast
  congr 1
  unfold ulp
  rw [hk]
  exact zpow_natCast 2 k

end Fits

section NatCast

variable {p v : ℕ}

theorem ulp_natCast_of_le (h : p ≤ Nat.log 2 v + 1) :
    ulp p (v : ℚ) = ((2 ^ (Nat.log 2 v + 1 - p) : ℕ) : ℚ) := by
  unfold ulp
  rw [Int.log_natCast]
  push_cast
  rw [← zpow_natCast, Nat.cast_sub h]
  congr 1

theorem fits_natCast_iff (h : p ≤ Nat.log 2 v + 1) :
    Fits p (v : ℚ) ↔ 2 ^ (Nat.log 2 v + 1 - p) ∣ v := by
  constructor
  · intro hfit
    unfold Fits at hfit
    rw [ulp_natCast_of_le h] at hfit
    have hnat : v / 2 ^ (Nat.log 2 v + 1 - p) * 2 ^ (Nat.log 2 v + 1 - p) = v := by
      exact_mod_cast hfit
    exact Dvd.intro_left _ hnat
  · rintro ⟨m, hm⟩
    apply fits_of_eq m
    rw [ulp_natCast_of_le h, mul_comm]
    exact_mod_cast hm

/-- Integers up to `2 ^ p` have `p` bits. -/
theorem fits_natCast_of_le (hp : 1 ≤ p) (hv : v ≤ 2 ^ p) : Fits p (v : ℚ) := by
  rcases hv.lt_or_eq with hlt | rfl
  · rcases Nat.eq_zero_or_pos v with rfl | hpos
    · unfold Fits
      simp
    · have hlog : Nat.log 2 v < p := Nat.log_lt_of_lt_pow hpos.ne' hlt
      apply fits_of_eq (v * 2 ^ (p - (Nat.log 2 v + 1)))
      unfold ulp
      rw [Int.log_natCast]
      push_cast
      rw [mul_assoc, ← zpow_natCast, ← zpow_add₀ two_ne_zero, Nat.cast_sub hlog]
      push_cast
      rw [show (p : ℤ) - (Nat.log 2 v + 1) + (Nat.log 2 v + 1 - p) = 0 by ring, zpow_zero, mul_one]
  · have hlog : Nat.log 2 (2 ^ p) = p := Nat.log_pow one_lt_two p
    rw [fits_natCast_iff (by omega), hlog, Nat.add_sub_cancel_left]
    exact pow_dvd_pow 2 hp

theorem below_of_le {q : ℕ} (hq : 2 ≤ q) (hle : q ≤ 2 ^ p) : below p q = q - 1 := by
  have hlog : Nat.log 2 (q - 1) < p := Nat.log_lt_of_lt_pow (by omega) (by omega)
  unfold below
  rw [show Nat.log 2 (q - 1) + 1 - p = 0 by omega, pow_zero]

/-- Above `2 ^ p` the integers of `p` bits stand a unit of the last place apart. -/
theorem below_of_lt {q : ℕ} (hp : 1 ≤ p) (hlt : 2 ^ p < q) (hfit : Fits p (q : ℚ)) :
    0 < below p q ∧ Fits p (below p q : ℚ) ∧ (below p q : ℚ) + ulp p (below p q) = q := by
  have hone : 1 ≤ 2 ^ p := Nat.one_le_two_pow
  have hunfold : below p q = q - 2 ^ (Nat.log 2 (q - 1) + 1 - p) := rfl
  generalize he : Nat.log 2 (q - 1) = e at hunfold
  have hpe : p ≤ e := he ▸ Nat.le_log_of_pow_le one_lt_two (by omega)
  have hlo : 2 ^ e ≤ q - 1 := he ▸ Nat.pow_log_le_self 2 (by omega)
  have hhi : q - 1 < 2 ^ (e + 1) := he ▸ Nat.lt_pow_succ_log_self one_lt_two _
  have hloge : e ≤ Nat.log 2 q := he ▸ Nat.log_mono_right (by omega)
  have hdvd : 2 ^ (e + 1 - p) ∣ q := by
    rw [fits_natCast_iff (by omega)] at hfit
    exact (pow_dvd_pow 2 (by omega)).trans hfit
  have hgap : 2 ^ (e + 1 - p) ≤ q - 2 ^ e :=
    Nat.le_of_dvd (by omega) (Nat.dvd_sub hdvd (pow_dvd_pow 2 (by omega)))
  have hpos : 0 < 2 ^ (e + 1 - p) := by positivity
  have hlog : Nat.log 2 (below p q) = e :=
    Nat.log_eq_of_pow_le_of_lt_pow (by omega) (by omega)
  have hulp : ulp p (below p q : ℚ) = ((2 ^ (e + 1 - p) : ℕ) : ℚ) := by
    rw [ulp_natCast_of_le (by omega), hlog]
  refine ⟨?_, ?_, ?_⟩
  · have : 0 < 2 ^ e := by positivity
    omega
  · rw [fits_natCast_iff (by omega), hlog, hunfold]
    exact Nat.dvd_sub hdvd (dvd_refl _)
  · rw [hulp, hunfold]
    exact_mod_cast Nat.sub_add_cancel (by omega)

theorem ceil_eq_natCast_iff {y : ℚ} {q : ℕ} : ⌈y⌉ = q ↔ (q : ℚ) - 1 < y ∧ y ≤ q := by
  rw [Int.ceil_eq_iff]
  push_cast
  rfl

/-- The integers up to `2 ^ p` all have `p` bits. -/
theorem ceil_roundTo_eq_iff_of_le {x : ℚ} {q : ℕ} (hp : 1 ≤ p) (hx : 0 < x) (hq : 1 ≤ q)
    (hle : q ≤ 2 ^ p) : ⌈roundTo p x⌉ = q ↔
      (q = 1 ∨ AboveMiddle p (below p q) x) ∧ ¬ AboveMiddle p q x := by
  have hfit : Fits p (q : ℚ) := fits_natCast_of_le hp hle
  rw [ceil_eq_natCast_iff, ← hfit.lt_roundTo_iff hp (by exact_mod_cast hq) hx, not_lt]
  rcases Nat.eq_or_lt_of_le hq with rfl | htwo
  · have hpos := roundTo_pos hp hx
    rw [Nat.cast_one, sub_self]
    exact ⟨fun h => ⟨.inl rfl, h.2⟩, fun h => ⟨hpos, h.2⟩⟩
  · have hbelow := below_of_le (p := p) htwo hle
    have hcast : ((below p q : ℕ) : ℚ) = q - 1 := by
      rw [hbelow]
      push_cast [hq]
      rfl
    have hfit' : Fits p ((below p q : ℕ) : ℚ) := fits_natCast_of_le hp (by omega)
    have hpos : (0 : ℚ) < (below p q : ℕ) := by
      rw [hbelow]
      exact_mod_cast (by omega : 0 < q - 1)
    rw [← hfit'.lt_roundTo_iff hp hpos hx, hcast]
    exact ⟨fun h => ⟨.inr h.1, h.2⟩, fun h => ⟨h.1.resolve_left (by omega), h.2⟩⟩

/-- Above `2 ^ p` the rounded number is an integer itself. -/
theorem roundTo_eq_of_ceil_eq {x : ℚ} {q : ℕ} (hlt : 2 ^ p < q) (h : ⌈roundTo p x⌉ = q) :
    roundTo p x = q := by
  obtain ⟨hlo, hhi⟩ := ceil_eq_natCast_iff.1 h
  have hpow : (2 : ℚ) ^ p ≤ q - 1 := by
    rw [le_sub_iff_add_le]
    exact_mod_cast hlt
  obtain ⟨z, hz⟩ := exists_int_of_two_pow_le (hpow.trans hlo.le)
  rw [hz, Int.ceil_intCast] at h
  rw [hz, h]
  rfl

/-- When the integer above a rounded number is `q`: `q` has `p` bits, and the number that was
rounded is above the middle behind the integer below `q` and not above the one behind `q`. -/
theorem ceil_roundTo_eq_iff {x : ℚ} {q : ℕ} (hp : 1 ≤ p) (hx : 0 < x) (hq : 1 ≤ q) :
    ⌈roundTo p x⌉ = q ↔
      Fits p (q : ℚ) ∧ (q = 1 ∨ AboveMiddle p (below p q) x) ∧ ¬ AboveMiddle p q x := by
  rcases le_or_gt q (2 ^ p) with hle | hgt
  · rw [ceil_roundTo_eq_iff_of_le hp hx hq hle]
    exact ⟨fun h => ⟨fits_natCast_of_le hp hle, h⟩, fun h => h.2⟩
  · have hqpos : (0 : ℚ) < q := by exact_mod_cast hq
    constructor
    · intro h
      have heq := roundTo_eq_of_ceil_eq hgt h
      have hfit : Fits p (q : ℚ) := heq ▸ fits_roundTo hp hx
      obtain ⟨hpos, hfit', hnext⟩ := below_of_lt hp hgt hfit
      refine ⟨hfit, .inr ?_, ?_⟩
      · rw [← hfit'.lt_roundTo_iff hp (by exact_mod_cast hpos) hx, heq, ← hnext]
        linarith [ulp_pos p (below p q)]
      · rw [← hfit.lt_roundTo_iff hp hqpos hx, not_lt, heq]
    · rintro ⟨hfit, hlo, hhi⟩
      obtain ⟨hpos, hfit', hnext⟩ := below_of_lt hp hgt hfit
      have hne : q ≠ 1 := by
        have := Nat.one_le_two_pow (n := p)
        omega
      have hpos' : (0 : ℚ) < (below p q : ℕ) := by exact_mod_cast hpos
      rw [← hfit.lt_roundTo_iff hp hqpos hx, not_lt] at hhi
      have hlt := (hfit'.lt_roundTo_iff hp hpos' hx).2 (hlo.resolve_left hne)
      have hle := hfit'.add_ulp_le_roundTo hp hpos' hx hlt
      exact ceil_eq_natCast_iff.2 ⟨by linarith, hhi⟩

end NatCast

end Londa
