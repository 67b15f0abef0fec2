import Londa.Lines
import Londa.Loop

/-!
# Reading lines from a stream

`std::getline` on a stream with its state bits: it does nothing but set `failbit` on a stream
that is not good; otherwise it clears the line and extracts up to a newline, or up to the end
of the input, which sets `eofbit`, and `failbit` too where there was nothing to extract. A
last line without a newline therefore leaves the stream with `eofbit` alone.
-/

namespace Londa

structure Istream (α : Type*) where
  rest : List α
  eof : Bool
  fail : Bool

namespace Istream

variable {α β : Type*} [DecidableEq α] (nl : α)

def opened (content : List α) : Istream α := ⟨content, false, false⟩

def getline (s : Istream α) (line : List α) : Istream α × List α :=
  if s.eof || s.fail then ({ s with fail := true }, line)
  else if nl ∈ s.rest then
    ({ s with rest := (Lines.getline nl s.rest).2 }, (Lines.getline nl s.rest).1)
  else ({ rest := [], eof := true, fail := s.rest.isEmpty }, s.rest)

/-- One turn of `while(getline(is, line))`, with a body that ends in `line.clear()`. -/
def eachLine (f : β → List α → β) (st : Istream α × β) : (Istream α × β) ⊕ β :=
  let got := st.1.getline nl []
  if got.1.fail then .inr st.2 else .inl (got.1, f st.2 got.2)

/-- One turn of a loop that writes every line with a newline behind it. -/
def copyLines (st : Istream α × List α) : (Istream α × List α) ⊕ List α :=
  eachLine nl (fun out line => out ++ (line ++ [nl])) st

/-- The lines that are still to be read. -/
def remaining (s : Istream α) : List (List α) := if s.eof then [] else Lines.lines nl s.rest

variable {nl} {s : Istream α} {f : β → List α → β}

theorem getline_of_remaining_nil (hfail : s.fail = false) (h : s.remaining nl = []) :
    (s.getline nl []).1.fail = true ∧ (s.getline nl []).2 = [] := by
  unfold getline
  unfold remaining at h
  split at h
  · rename_i heof
    rw [heof]
    exact ⟨rfl, rfl⟩
  · rename_i heof
    have hrest := Lines.lines_eq_nil_iff.1 h
    simp [heof, hfail, hrest]

theorem getline_of_remaining_cons {l : List α} {ls : List (List α)} (hfail : s.fail = false)
    (h : s.remaining nl = l :: ls) :
    (s.getline nl []).2 = l ∧ (s.getline nl []).1.fail = false ∧
      (s.getline nl []).1.remaining nl = ls ∧
      (s.getline nl []).1.eof = decide (nl ∉ s.rest) := by
  unfold remaining at h
  split at h
  · cases h
  · rename_i heof
    have hne : s.rest ≠ [] := by
      intro hnil
      rw [hnil] at h
      cases h
    rw [Lines.lines_eq_cons hne] at h
    obtain ⟨rfl, rfl⟩ := List.cons.inj h
    by_cases hnl : nl ∈ s.rest
    · simp [getline, remaining, heof, hfail, hnl]
    · simp [getline, remaining, heof, hfail, hnl, hne, Lines.getline_of_notMem hnl, Lines.lines]

/-- The loop is left after the last line. -/
theorem eachLine_ends (nl : α) (f : β → List α → β) {s : Istream α} (hfail : s.fail = false)
    (acc : β) :
    Loop.Ends (eachLine nl f) (s, acc) ((s.remaining nl).foldl f acc) := by
  generalize hls : s.remaining nl = ls
  induction ls generalizing s acc with
  | nil =>
      obtain ⟨hend, -⟩ := getline_of_remaining_nil hfail hls
      exact .leave (if_pos hend)
  | cons l ls ih =>
      obtain ⟨hl, hfail', hrest, -⟩ := getline_of_remaining_cons hfail hls
      have hturn : eachLine nl f (s, acc) = .inl ((s.getline nl []).1, f acc l) := by
        unfold eachLine
        rw [← hl]
        exact if_neg (by rw [hfail']; exact Bool.false_ne_true)
      exact .again hturn (ih hfail' (f acc l) hrest)

theorem copyLines_ends (content : List α) :
    Loop.Ends (copyLines nl) (opened content, [])
      ((Lines.lines nl content).flatMap fun line => line ++ [nl]) := by
  have hgood : (opened content).fail = false := rfl
  have hend := eachLine_ends nl (fun out line => out ++ (line ++ [nl])) hgood []
  rw [List.foldl_append_eq_append, List.nil_append] at hend
  exact hend

theorem mem_copyLines {content out : List α} {c : α} (hc : c ≠ nl)
    (h : Loop.Ends (copyLines nl) (opened content, []) out) : c ∈ out ↔ c ∈ content := by
  rw [h.unique (copyLines_ends content), List.mem_flatMap, ← Lines.mem_lines hc]
  refine exists_congr fun line => and_congr_right fun _ => ?_
  rw [List.mem_append, List.mem_singleton, or_iff_left hc]

end Istream
end Londa
