import Mathlib.Data.List.DropRight
import Karel.Text.Lines

/-! # The line at a place of a text

A place in a text is given by what stands before it and what stands behind it. The number of its
line is the number of newlines before it. That line goes from the last newline before the place to
the first one behind it, without a carriage return in front of the latter. Only a last line on which
nothing stands is none of the lines of the text.
-/
namespace Karel.Text

/-- What stands before a place on its line. -/
def lineStart (before : List Char) : List Char := before.rtakeWhile (· != '\n')

/-- The line around a place. -/
def lineAround (before rest : List Char) : List Char :=
  let line := lineStart before ++ rest.takeWhile (· != '\n')
  if '\n' ∈ rest then dropReturn line else line

/-! ## The first line -/

theorem cutLine_of_notMem {cs : List Char} (h : '\n' ∉ cs) : cutLine cs = (cs, none) := by
  induction cs with
  | nil => rfl
  | cons c cs ih =>
    obtain ⟨hc, hcs⟩ := List.ne_and_not_mem_of_not_mem_cons h
    rw [cutLine, ih hcs]
    exact hc.symm

theorem cutLine_append {cs : List Char} (h : '\n' ∉ cs) (rest : List Char) :
    cutLine (cs ++ '\n' :: rest) = (cs, some rest) := by
  induction cs with
  | nil => rfl
  | cons c cs ih =>
    obtain ⟨hc, hcs⟩ := List.ne_and_not_mem_of_not_mem_cons h
    rw [List.cons_append, cutLine, ih hcs]
    exact hc.symm

theorem lines_of_notMem {cs : List Char} (h : '\n' ∉ cs) (hne : cs ≠ []) : lines cs = [cs] := by
  have hcut := cutLine_of_notMem h
  rw [lines, if_neg hne]
  split
  · next line heq =>
    cases hcut.symm.trans heq
    rfl
  · next line rest heq => cases hcut.symm.trans heq

theorem lines_append {cs : List Char} (h : '\n' ∉ cs) (rest : List Char) :
    lines (cs ++ '\n' :: rest) = dropReturn cs :: lines rest := by
  have hcut := cutLine_append h rest
  rw [lines, if_neg (by simp)]
  split
  · next line heq => cases hcut.symm.trans heq
  · next line rest' heq =>
    cases hcut.symm.trans heq
    rfl

/-! ## The line of a place -/

theorem lineStart_of_notMem {before : List Char} (h : '\n' ∉ before) :
    lineStart before = before := by
  rw [lineStart, List.rtakeWhile_eq_self_iff]
  intro c hc
  rw [bne_iff_ne]
  rintro rfl
  exact h hc

theorem lineStart_append (above before : List Char) :
    lineStart (above ++ '\n' :: before) = lineStart before := by
  rw [lineStart, lineStart, List.rtakeWhile, List.rtakeWhile, List.reverse_append,
    List.reverse_cons, List.append_assoc, List.takeWhile_append]
  split
  · next hlength =>
    have hall := (List.takeWhile_prefix (· != '\n')).eq_of_length hlength
    rw [hall]
    simp
  · rfl

theorem lineStart_eq_nil_iff {before : List Char} :
    lineStart before = [] ↔ before = [] ∨ before.getLast? = some '\n' := by
  rcases List.eq_nil_or_concat before with rfl | ⟨above, c, rfl⟩
  · simp [lineStart]
  · by_cases hc : c = '\n' <;> simp [lineStart, List.concat_eq_append, hc]

theorem takeWhile_of_notMem {rest : List Char} (h : '\n' ∉ rest) :
    rest.takeWhile (· != '\n') = rest := by
  rw [List.takeWhile_eq_self_iff]
  intro c hc
  rw [bne_iff_ne]
  rintro rfl
  exact h hc

theorem takeWhile_append {cs : List Char} (h : '\n' ∉ cs) (rest : List Char) :
    (cs ++ '\n' :: rest).takeWhile (· != '\n') = cs := by
  rw [List.takeWhile_append, takeWhile_of_notMem h]
  simp

/-- The line with the number of a place is the one around it. -/
theorem getElem?_lines (before rest : List Char) :
    (lines (before ++ rest))[before.count '\n']? =
      if rest = [] ∧ lineStart before = [] then none else some (lineAround before rest) := by
  -- The lines above the place are cut off one after the other.
  induction hn : before.length using Nat.strong_induction_on generalizing before with
  | _ n ih =>
    by_cases hbefore : '\n' ∈ before
    · obtain ⟨above, below, rfl, habove⟩ := List.eq_append_cons_of_mem hbefore
      have hlength : below.length < n := by
        rw [← hn, List.length_append, List.length_cons]
        omega
      have hbelow := ih below.length hlength below rfl
      have hcount : (above ++ '\n' :: below).count '\n' = below.count '\n' + 1 := by
        rw [List.count_append, List.count_eq_zero.2 habove, List.count_cons_self, Nat.zero_add]
      rw [List.append_assoc, List.cons_append, lines_append habove, hcount, List.getElem?_cons_succ,
        hbelow, lineAround, lineAround, lineStart_append]
    · rw [List.count_eq_zero.2 hbefore, lineStart_of_notMem hbefore, lineAround,
        lineStart_of_notMem hbefore]
      by_cases hrest : '\n' ∈ rest
      · obtain ⟨behind, below, rfl, hbehind⟩ := List.eq_append_cons_of_mem hrest
        have hline : '\n' ∉ before ++ behind := List.not_mem_append hbefore hbehind
        rw [← List.append_assoc, lines_append hline, takeWhile_append hbehind, if_pos hrest]
        simp
      · have hline : '\n' ∉ before ++ rest := List.not_mem_append hbefore hrest
        rw [takeWhile_of_notMem hrest, if_neg hrest]
        by_cases hempty : before ++ rest = []
        · obtain ⟨rfl, rfl⟩ := List.append_eq_nil_iff.1 hempty
          simp [lines]
        · rw [lines_of_notMem hline hempty, if_neg (by simpa [and_comm] using hempty)]
          rfl

/-! ## Where a line goes on -/

theorem dropReturn_append {c : Char} (hc : c ≠ '\r') (start more : List Char) :
    ∃ more', dropReturn (start ++ c :: more) = start ++ c :: more' := by
  unfold dropReturn
  split
  · next hlast =>
    rcases List.eq_nil_or_concat more with rfl | ⟨more, d, rfl⟩
    · simp at hlast
      exact absurd hlast hc
    · refine ⟨more, ?_⟩
      rw [List.concat_eq_append, ← List.cons_append, ← List.append_assoc, List.dropLast_concat]
  · exact ⟨more, rfl⟩

/-- A character that ends no line stands on its line behind the start of it. -/
theorem lineAround_cons {c : Char} (hn : c ≠ '\n') (hr : c ≠ '\r') (before rest : List Char) :
    ∃ more, lineAround before (c :: rest) = lineStart before ++ c :: more := by
  have htake : (c :: rest).takeWhile (· != '\n') = c :: rest.takeWhile (· != '\n') :=
    List.takeWhile_cons_of_pos (bne_iff_ne.2 hn)
  rw [lineAround, htake]
  split
  · exact dropReturn_append hr _ _
  · exact ⟨_, rfl⟩

theorem lineAround_nil (before : List Char) : lineAround before [] = lineStart before := by
  simp [lineAround]

end Karel.Text
