import Mathlib.Data.List.Basic

/-!
# Lines of a text

`getline` splits a text at its first newline, which belongs to neither part. The lines of a
text are what repeated calls give; a last line without a newline counts when it is not
empty.
-/

namespace Londa.Lines

variable {α : Type*} [DecidableEq α] (nl : α)

/-- The first line and the text after its newline. -/
def getline : List α → List α × List α
  | [] => ([], [])
  | c :: cs => if c = nl then ([], cs) else (c :: (getline cs).1, (getline cs).2)

def lines : List α → List (List α)
  | [] => []
  | c :: cs =>
      if c = nl then [] :: lines cs
      else match lines cs with
        | [] => [[c]]
        | l :: ls => (c :: l) :: ls

/-- The lines that a newline ends. -/
def complete (text : List α) : List (List α) := (lines nl text).take (text.count nl)

variable {nl} {text : List α}

theorem length_getline_le (text : List α) : (getline nl text).2.length ≤ text.length := by
  induction text with
  | nil => exact Nat.le_refl _
  | cons c cs ih =>
      unfold getline
      split
      · exact Nat.le_succ _
      · exact Nat.le_succ_of_le ih

theorem length_getline_lt (h : text ≠ []) : (getline nl text).2.length < text.length := by
  cases text with
  | nil => exact absurd rfl h
  | cons c cs =>
      unfold getline
      split
      · exact Nat.lt_succ_self _
      · exact Nat.lt_succ_of_le (length_getline_le cs)

/-- A text without a newline is its own first line. -/
theorem getline_of_notMem (h : nl ∉ text) : getline nl text = (text, []) := by
  induction text with
  | nil => rfl
  | cons c cs ih =>
      have hc : c ≠ nl := fun heq => h (heq ▸ List.mem_cons_self)
      have hcs : nl ∉ cs := fun hmem => h (List.mem_cons_of_mem c hmem)
      rw [getline, if_neg hc, ih hcs]

theorem getline_append (h : nl ∈ text) :
    (getline nl text).1 ++ nl :: (getline nl text).2 = text := by
  induction text with
  | nil => cases h
  | cons c cs ih =>
      by_cases hc : c = nl
      · rw [getline, if_pos hc, hc]
        rfl
      · have hcs := (List.mem_cons.1 h).resolve_left (Ne.symm hc)
        rw [getline, if_neg hc, List.cons_append, ih hcs]

theorem count_getline (h : nl ∈ text) :
    text.count nl = (getline nl text).2.count nl + 1 := by
  induction text with
  | nil => cases h
  | cons c cs ih =>
      by_cases hc : c = nl
      · rw [getline, if_pos hc, hc, List.count_cons_self]
      · have hcs := (List.mem_cons.1 h).resolve_left (Ne.symm hc)
        rw [getline, if_neg hc, List.count_cons_of_ne hc, ih hcs]

theorem lines_eq_cons (h : text ≠ []) :
    lines nl text = (getline nl text).1 :: lines nl (getline nl text).2 := by
  induction text with
  | nil => exact absurd rfl h
  | cons c cs ih =>
      by_cases hc : c = nl
      · rw [getline, if_pos hc, lines, if_pos hc]
      · rw [getline, if_neg hc, lines, if_neg hc]
        cases cs with
        | nil => rfl
        | cons d ds => rw [ih (List.cons_ne_nil d ds)]

theorem lines_eq_nil_iff : lines nl text = [] ↔ text = [] := by
  constructor
  · intro h
    by_contra hne
    rw [lines_eq_cons hne] at h
    cases h
  · rintro rfl
    rfl

theorem complete_of_notMem (h : nl ∉ text) : complete nl text = [] := by
  unfold complete
  rw [List.count_eq_zero_of_not_mem h, List.take_zero]

theorem complete_of_mem (h : nl ∈ text) :
    complete nl text = (getline nl text).1 :: complete nl (getline nl text).2 := by
  unfold complete
  rw [lines_eq_cons (List.ne_nil_of_mem h), count_getline h, List.take_succ_cons]

/-- Only a last line without a newline is not complete, and it is not empty. -/
theorem length_flatten_complete_iff :
    (complete nl text).flatten.length = (lines nl text).flatten.length ↔
      text = [] ∨ text.getLast? = some nl := by
  induction hn : text.length using Nat.strongRecOn generalizing text with
  | ind n ih =>
      by_cases hmem : nl ∈ text
      · have hne := List.ne_nil_of_mem hmem
        have hlast : text = [] ∨ text.getLast? = some nl ↔
            (getline nl text).2 = [] ∨ (getline nl text).2.getLast? = some nl := by
          rw [or_iff_right hne]
          conv_lhs => rw [← getline_append hmem]
          cases (getline nl text).2 with
          | nil => simp
          | cons c cs => simp
        rw [complete_of_mem hmem, lines_eq_cons hne, List.flatten_cons, List.flatten_cons,
          List.length_append, List.length_append, Nat.add_left_cancel_iff, hlast]
        exact ih _ (hn ▸ length_getline_lt hne) rfl
      · rw [complete_of_notMem hmem]
        cases text with
        | nil => simp [lines]
        | cons c cs =>
            rw [lines_eq_cons (List.cons_ne_nil c cs), getline_of_notMem hmem]
            have hlast : (c :: cs).getLast? ≠ some nl := fun h =>
              hmem (List.mem_of_getLast? h)
            simp [hlast]

theorem mem_lines {c : α} (hc : c ≠ nl) : (∃ line ∈ lines nl text, c ∈ line) ↔ c ∈ text := by
  induction text with
  | nil => simp [lines]
  | cons d ds ih =>
      rw [List.mem_cons, ← ih, lines]
      by_cases hd : d = nl
      · simp [hd, hc]
      · rw [if_neg hd]
        cases lines nl ds with
        | nil => simp
        | cons l ls => simp [or_assoc]

end Londa.Lines
