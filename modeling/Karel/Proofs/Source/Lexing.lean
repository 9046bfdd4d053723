import Karel.Source.Lexeme

/-! # Lexemes at the front of a text

What a text is cut into, told from how it begins: with a blank, with a word that ends where it has
to, or with a symbol of one character. Words and blanks begin with none of the marks, the characters
of which symbols and comments are made.
-/
namespace Karel

open Text

/-- The characters that begin a symbol or a comment. -/
def marks : List Char := ['(', ')', '\x7b', '\x7d', ';', '!', '&', '|', '/']

theorem isNameRest_of_isNameStart {c : Char} (h : isNameStart c = true) : isNameRest c = true := by
  simp only [isNameStart, Bool.or_eq_true] at h
  rcases h with h | h <;> simp [isNameRest, Char.isAlphanum, h]

theorem isNameRest_of_isDigit {c : Char} (h : c.isDigit = true) : isNameRest c = true := by
  simp [isNameRest, Char.isAlphanum, h]

theorem isNameRest_eq_false_of_mem_marks {c : Char} (h : c ∈ marks) : isNameRest c = false := by
  have hall : marks.all (fun a => !isNameRest a) = true := by decide
  have hc := List.all_eq_true.1 hall c h
  simpa using hc

theorem notMem_marks_of_isNameRest {c : Char} (h : isNameRest c = true) : c ∉ marks := by
  intro hm
  rw [isNameRest_eq_false_of_mem_marks hm] at h
  cases h

theorem isBlank_eq_false_of_mem_marks {c : Char} (h : c ∈ marks) : isBlank c = false := by
  have hall : marks.all (fun a => !isBlank a) = true := by decide
  have hc := List.all_eq_true.1 hall c h
  simpa using hc

theorem isNameStart_bounds {c : Char} (h : isNameStart c = true) :
    65 ≤ c.toNat ∧ c.toNat ≤ 122 := by
  change ((decide ('A'.val ≤ c.val ∧ c.val ≤ 'Z'.val) ||
    ('a'.val ≤ c.val && c.val ≤ 'z'.val)) || c == '_') = true at h
  simp only [Bool.or_eq_true, Bool.and_eq_true, decide_eq_true_eq, beq_iff_eq,
    UInt32.le_iff_toNat_le] at h
  rcases h with (⟨h₁, h₂⟩ | ⟨h₁, h₂⟩) | rfl
  · change 65 ≤ c.toNat at h₁
    change c.toNat ≤ 90 at h₂
    omega
  · change 97 ≤ c.toNat at h₁
    change c.toNat ≤ 122 at h₂
    omega
  · decide

theorem isNameRest_bounds {c : Char} (h : isNameRest c = true) :
    48 ≤ c.toNat ∧ c.toNat ≤ 122 := by
  have hcases : isNameStart c = true ∨ c.isDigit = true := by
    simp only [isNameRest, Char.isAlphanum, Bool.or_eq_true] at h
    simp only [isNameStart, Bool.or_eq_true]
    rcases h with (h | h) | h
    · exact .inl (.inl h)
    · exact .inr h
    · exact .inl (.inr h)
  rcases hcases with hc | hc
  · have hbounds := isNameStart_bounds hc
    omega
  · have hbounds := Char.isDigit_iff_toNat.1 hc
    have hzero : '0'.toNat = 48 := rfl
    have hnine : '9'.toNat = 57 := rfl
    omega

theorem isBlank_of_isNameRest {c : Char} (h : isNameRest c = true) : isBlank c = false := by
  have hb := isNameRest_bounds h
  rw [isBlank, List.any_eq_false]
  intro r hr
  simp only [blankRanges, List.mem_cons, List.not_mem_nil, or_false] at hr
  rcases hr with rfl | rfl | rfl | rfl | rfl | rfl | rfl | rfl | rfl | rfl <;> simp <;> omega

theorem isDigit_of_isNameStart {c : Char} (h : isNameStart c = true) : c.isDigit = false := by
  have hb := isNameStart_bounds h
  apply Bool.eq_false_iff.2
  intro hd
  have hd := (Char.isDigit_iff_toNat.1 hd).2
  have hn : '9'.toNat = 57 := rfl
  omega

namespace Piece

theorem first_eq_plain {c : Char} (h : c ∉ marks) (cs : List Char) : first c cs = plain c cs := by
  unfold first
  split
  case h_10 => rfl
  all_goals exact absurd (by decide) h

theorem first_blank {c : Char} (h : isBlank c = true) (cs : List Char) :
    first c cs = ⟨none, [c], cs⟩ := by
  have hc : c ∉ marks := by
    intro hm
    rw [isBlank_eq_false_of_mem_marks hm] at h
    cases h
  rw [first_eq_plain hc, plain, if_pos h]

/-- What satisfies a test ends where the first character stands that does not. -/
theorem span_append {cs rest : List Char} {more : Char → Bool} (hcs : ∀ a ∈ cs, more a = true)
    (hrest : ∀ a ∈ rest.head?, more a = false) :
    (cs ++ rest).takeWhile more = cs ∧ (cs ++ rest).dropWhile more = rest := by
  have hstop : rest.takeWhile more = [] ∧ rest.dropWhile more = rest := by
    cases rest with
    | nil => exact ⟨rfl, rfl⟩
    | cons d rest =>
      have hd := hrest d rfl
      exact ⟨List.takeWhile_cons_of_neg (by simp [hd]), List.dropWhile_cons_of_neg (by simp [hd])⟩
  constructor
  · rw [List.takeWhile_append_of_pos hcs, hstop.1, List.append_nil]
  · rw [List.dropWhile_append_of_pos hcs, hstop.2]

theorem spanning_eq {cs rest : List Char} {more : Char → Bool}
    (hcs : ∀ a ∈ cs, more a = true) (hrest : ∀ a ∈ rest.head?, more a = false) (c : Char)
    (kind : String → Option Token.Kind) :
    spanning c (cs ++ rest) more kind = ⟨kind (String.ofList (c :: cs)), c :: cs, rest⟩ := by
  obtain ⟨htake, hdrop⟩ := span_append hcs hrest
  rw [spanning, htake, hdrop]

theorem first_word {c : Char} {cs rest : List Char} (hc : isNameStart c = true)
    (hcs : ∀ a ∈ cs, isNameRest a = true) (hrest : ∀ a ∈ rest.head?, isNameRest a = false) :
    first c (cs ++ rest) = ⟨some (.ofWord (String.ofList (c :: cs))), c :: cs, rest⟩ := by
  have hname := isNameRest_of_isNameStart hc
  rw [first_eq_plain (notMem_marks_of_isNameRest hname), plain,
    if_neg (by simp [isBlank_of_isNameRest hname]), if_neg (by simp [isDigit_of_isNameStart hc]),
    if_pos hc, spanning_eq hcs hrest]

theorem first_number {c : Char} {cs rest : List Char} (hc : c.isDigit = true)
    (hcs : ∀ a ∈ cs, a.isDigit = true) (hrest : ∀ a ∈ rest.head?, a.isDigit = false) :
    first c (cs ++ rest) = ⟨some (.number (String.ofList (c :: cs))), c :: cs, rest⟩ := by
  have hname := isNameRest_of_isDigit hc
  rw [first_eq_plain (notMem_marks_of_isNameRest hname), plain,
    if_neg (by simp [isBlank_of_isNameRest hname]), if_pos hc, spanning_eq hcs hrest]

end Piece

/-- A text that is cut off as one name: it is spelled like a name and is not reserved. -/
structure IsIdentifier (text : String) : Prop where
  spelled : ∃ c cs, text.toList = c :: cs ∧ isNameStart c = true ∧ ∀ a ∈ cs, isNameRest a = true
  free : Keyword.ofSpelling? text = none

theorem IsIdentifier.newline_notMem {text : String} (h : IsIdentifier text) :
    '\n' ∉ text.toList := by
  obtain ⟨c, cs, htext, hc, hcs⟩ := h.spelled
  have hall : ∀ a ∈ text.toList, isNameRest a = true := by
    intro a ha
    rw [htext] at ha
    rcases List.mem_cons.1 ha with rfl | ha
    · exact isNameRest_of_isNameStart hc
    · exact hcs a ha
  intro hm
  have hrest := hall _ hm
  revert hrest
  decide

/-! ## Tokens -/

variable (p : Position)

theorem tokensFrom_nil : tokensFrom p [] = [⟨.eof, p⟩] := by
  rw [tokensFrom]

theorem tokensFrom_blank {c : Char} (h : isBlank c = true) (cs : List Char) :
    tokensFrom p (c :: cs) = tokensFrom (p.next c) cs := by
  rw [tokensFrom, Piece.first_blank h]
  rfl

theorem tokensFrom_single {c : Char} {cs : List Char} {kind : Token.Kind}
    (h : Piece.first c cs = .single c cs kind) :
    tokensFrom p (c :: cs) = ⟨kind, p⟩ :: tokensFrom (p.next c) cs := by
  rw [tokensFrom, h]
  rfl

theorem tokensFrom_word {c : Char} {cs rest : List Char} (hc : isNameStart c = true)
    (hcs : ∀ a ∈ cs, isNameRest a = true) (hrest : ∀ a ∈ rest.head?, isNameRest a = false) :
    tokensFrom p (c :: cs ++ rest) =
      ⟨.ofWord (String.ofList (c :: cs)), p⟩ :: tokensFrom (p.after (c :: cs)) rest := by
  rw [List.cons_append, tokensFrom, Piece.first_word hc hcs hrest]

theorem tokensFrom_identifier {text : String} (h : IsIdentifier text) {rest : List Char}
    (hrest : ∀ a ∈ rest.head?, isNameRest a = false) :
    tokensFrom p (text.toList ++ rest) =
      ⟨.ident text, p⟩ :: tokensFrom (p.after text.toList) rest := by
  obtain ⟨c, cs, htext, hc, hcs⟩ := h.spelled
  have hword : Token.Kind.ofWord (String.ofList (c :: cs)) = .ident text := by
    rw [← htext, String.ofList_toList, Token.Kind.ofWord, h.free]
  rw [htext, tokensFrom_word p hc hcs hrest, hword]

theorem Position.line_after {cs : List Char} (h : '\n' ∉ cs) : (p.after cs).line = p.line := by
  induction cs generalizing p with
  | nil => rfl
  | cons c cs ih =>
    have hc : c ≠ '\n' := by
      rintro rfl
      exact h List.mem_cons_self
    have hnext : (p.next c).line = p.line := by
      rw [next, if_neg hc]
    have hcs := ih (p.next c) fun hm => h (List.mem_cons_of_mem _ hm)
    exact hcs.trans hnext

end Karel
