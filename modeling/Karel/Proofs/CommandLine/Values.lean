import Mathlib.Data.List.DropRight
import Karel.CommandLine.Value
import Karel.Proofs.Executable.Linked
import Karel.Proofs.Source.Count
import Karel.Proofs.Source.Lexing

/-! # Values as they are written

What the texts of cells and poses are, told without reading them: commas between parts, blanks
around each part, numerals with zeros and a plus sign before them, and names of directions in any
case. A text is read as a cell or as a pose exactly if it is written in this way, and as that one.
-/
namespace Karel

namespace Text

variable {core cs : List Char}

/-! ## Blanks around a text -/

theorem isBlank_of_isDigit {c : Char} (h : c.isDigit = true) : isBlank c = false :=
  isBlank_of_isNameRest (isNameRest_of_isDigit h)

theorem isBlank_of_isAlpha {c : Char} (h : c.isAlpha = true) : isBlank c = false :=
  isBlank_of_isNameRest (by simp [isNameRest, Char.isAlphanum, h])

theorem toLower_of_isBlank {c : Char} (h : isBlank c = true) : c.toLower = c := by
  refine dif_neg fun hupper => ?_
  have halpha : c.isAlpha = true := Bool.or_eq_true_iff.2 (.inl (decide_eq_true hupper))
  rw [isBlank_of_isAlpha halpha] at h
  cases h

/-- A text with blanks before and behind it. -/
def Padded (core cs : List Char) : Prop :=
  ∃ before after, cs = before ++ core ++ after ∧
    (∀ c ∈ before, isBlank c = true) ∧ ∀ c ∈ after, isBlank c = true

theorem padded_trim (cs : List Char) : Padded (trim cs) cs := by
  refine ⟨cs.takeWhile isBlank, (cs.dropWhile isBlank).rtakeWhile isBlank, ?_,
    fun c hc => List.mem_takeWhile_imp hc, fun c hc => List.mem_rtakeWhile_imp hc⟩
  have htrim : trim cs = (cs.dropWhile isBlank).rdropWhile isBlank := rfl
  rw [htrim, List.append_assoc, List.rdropWhile_append_rtakeWhile,
    List.takeWhile_append_dropWhile]

theorem dropWhile_isBlank (h : ∀ c ∈ core, isBlank c = false) : core.dropWhile isBlank = core := by
  rw [List.dropWhile_eq_self_iff]
  intro hlen
  simp [h]

theorem trim_of_padded (hcore : ∀ c ∈ core, isBlank c = false) (h : Padded core cs) :
    trim cs = core := by
  obtain ⟨before, after, rfl, hbefore, hafter⟩ := h
  rw [trim, List.append_assoc, List.dropWhile_append_of_pos hbefore]
  -- Without a core what stands behind it is dropped from the front.
  cases core with
  | nil => rw [List.nil_append, List.dropWhile_eq_nil_iff.2 hafter, List.reverse_nil,
      List.dropWhile_nil, List.reverse_nil]
  | cons c core =>
    have hc := hcore c List.mem_cons_self
    have hreverse : ∀ a ∈ (c :: core).reverse, isBlank a = false :=
      fun a ha => hcore a (List.mem_reverse.1 ha)
    have hend : ∀ a ∈ after.reverse, isBlank a = true :=
      fun a ha => hafter a (List.mem_reverse.1 ha)
    rw [List.cons_append, List.dropWhile_cons_of_neg (by simp [hc]), ← List.cons_append,
      List.reverse_append, List.dropWhile_append_of_pos hend, dropWhile_isBlank hreverse,
      List.reverse_reverse]

/-- What is said of a text between blanks is said of the trimmed text, if it says that there are
none in it. -/
theorem exists_padded_iff {P : List Char → Prop}
    (hP : ∀ core, P core → ∀ c ∈ core, isBlank c = false) :
    (∃ core, Padded core cs ∧ P core) ↔ P (trim cs) := by
  constructor
  · rintro ⟨core, hpadded, hcore⟩
    rw [trim_of_padded (hP core hcore) hpadded]
    exact hcore
  · exact fun h => ⟨trim cs, padded_trim cs, h⟩

/-! ## Numerals -/

/-- An unsigned decimal numeral with its value: digits, with a plus sign before them if one likes.
-/
def IsNumeral (cs : List Char) (n : Nat) : Prop :=
  ∃ digits, (cs = digits ∨ cs = '+' :: digits) ∧ digits ≠ [] ∧ (∀ c ∈ digits, c.isDigit = true) ∧
    decimalValue digits = n

theorem IsNumeral.no_blank {n : Nat} (h : IsNumeral cs n) : ∀ c ∈ cs, isBlank c = false := by
  obtain ⟨digits, rfl | rfl, -, hdigits, -⟩ := h
  · exact fun c hc => isBlank_of_isDigit (hdigits c hc)
  · intro c hc
    rcases List.mem_cons.1 hc with rfl | hc
    · decide
    · exact isBlank_of_isDigit (hdigits c hc)

/-- What is read on top of a value within the limit are digits that keep it there. -/
theorem digits_of_readDigits {limit v n : Nat} (hv : v ≤ limit)
    (h : readDigits limit v cs = .ok n) :
    (∀ c ∈ cs, c.isDigit = true) ∧ v * 10 ^ cs.length + decimalValue cs = n ∧ n ≤ limit := by
  induction cs generalizing v with
  | nil =>
    cases h
    exact ⟨fun c hc => absurd hc List.not_mem_nil, by simp [decimalValue], hv⟩
  | cons c cs ih =>
    rw [readDigits] at h
    split at h
    · next hc =>
      dsimp only at h
      split at h
      · cases h
      · next hle =>
        obtain ⟨hcs, hn, hlimit⟩ := ih (Nat.le_of_not_lt hle) h
        refine ⟨List.forall_mem_cons.2 ⟨hc, hcs⟩, ?_, hlimit⟩
        rw [decimalValue_cons, List.length_cons, ← hn]
        ring
    · cases h

theorem readDigits_eq_ok_iff {limit n : Nat} :
    readDigits limit 0 cs = .ok n ↔
      (∀ c ∈ cs, c.isDigit = true) ∧ decimalValue cs = n ∧ n ≤ limit := by
  have hzero : 0 * 10 ^ cs.length + decimalValue cs = decimalValue cs := by
    rw [Nat.zero_mul, Nat.zero_add]
  constructor
  · intro h
    have hread := digits_of_readDigits (Nat.zero_le limit) h
    rwa [hzero] at hread
  · rintro ⟨hdigits, rfl, hle⟩
    rw [readDigits_of_digits hdigits (hzero.symm ▸ hle), hzero]

theorem readNumeral_eq_ok_iff {limit n : Nat} :
    readNumeral limit cs = .ok n ↔ IsNumeral cs n ∧ n ≤ limit := by
  constructor
  · intro h
    unfold readNumeral at h
    split at h
    · cases h
    · cases h
    · next digits hdigits =>
      obtain ⟨hall, hn, hle⟩ := readDigits_eq_ok_iff.1 h
      exact ⟨⟨digits, .inr rfl, fun hnil => hdigits (by rw [hnil]), hall, hn⟩, hle⟩
    · next hne _ _ =>
      obtain ⟨hall, hn, hle⟩ := readDigits_eq_ok_iff.1 h
      exact ⟨⟨cs, .inl rfl, hne, hall, hn⟩, hle⟩
  · rintro ⟨⟨digits, rfl | rfl, hne, hdigits, rfl⟩, hle⟩
    · exact readNumeral_of_digits hne hdigits hle
    · obtain ⟨c, cs, rfl⟩ := List.exists_cons_of_ne_nil hne
      exact readDigits_eq_ok_iff.2 ⟨hdigits, rfl, hle⟩

end Text

namespace Direction

/-! ## Names of directions -/

/-- A word that is the name or the initial of a direction, up to the case of ASCII letters. -/
def Names (word : List Char) (d : Direction) : Prop :=
  word.map Char.toLower = d.name.toList ∨ word.map Char.toLower = d.initial.toList

theorem ofName?_eq_some_iff {word : List Char} {d : Direction} :
    ofName? (String.ofList word) = some d ↔ Names word d := by
  rw [ofName?, Names, String.toList_ofList]
  generalize word.map Char.toLower = lowered
  constructor
  · intro h
    have hd := List.find?_some h
    simp only [Bool.or_eq_true, beq_iff_eq] at hd
    exact hd.imp (fun hname => by rw [← hname, String.toList_ofList])
      fun hinitial => by rw [← hinitial, String.toList_ofList]
  · rintro (rfl | rfl)
    · rw [String.ofList_toList]
      cases d <;> decide
    · rw [String.ofList_toList]
      cases d <;> decide

theorem isAlpha_of_mem (d : Direction) :
    (∀ c ∈ d.name.toList, c.isAlpha = true) ∧ ∀ c ∈ d.initial.toList, c.isAlpha = true := by
  cases d <;> exact ⟨List.all_eq_true.1 rfl, List.all_eq_true.1 rfl⟩

theorem Names.no_blank {word : List Char} {d : Direction} (h : Names word d) :
    ∀ c ∈ word, Text.isBlank c = false := by
  intro c hc
  rw [← Bool.not_eq_true]
  intro hblank
  -- Lower case leaves a blank as it is, so it would be a letter of the name.
  have hmem : c ∈ word.map Char.toLower := List.mem_map.2 ⟨c, hc, Text.toLower_of_isBlank hblank⟩
  have halpha : c.isAlpha = true := by
    rcases h with h | h
    · exact d.isAlpha_of_mem.1 c (h ▸ hmem)
    · exact d.isAlpha_of_mem.2 c (h ▸ hmem)
  rw [Text.isBlank_of_isAlpha halpha] at hblank
  cases hblank

end Direction

namespace CommandLine

open Text

/-! ## Commas -/

theorem cutComma?_cons {c : Char} (hc : c ≠ ',') (cs : List Char) :
    cutComma? (c :: cs) = (cutComma? cs).map fun (part, rest) => (c :: part, rest) :=
  cutComma?.eq_3 c cs hc

theorem cutComma?_eq_some_iff {cs x y : List Char} :
    cutComma? cs = some (x, y) ↔ cs = x ++ ',' :: y ∧ ',' ∉ x := by
  constructor
  · intro h
    induction cs generalizing x with
    | nil => cases h
    | cons c cs ih =>
      by_cases hc : c = ','
      · subst hc
        cases h
        exact ⟨rfl, List.not_mem_nil⟩
      · rw [cutComma?_cons hc] at h
        obtain ⟨⟨part, rest⟩, hcut, heq⟩ := Option.map_eq_some_iff.1 h
        cases heq
        obtain ⟨rfl, hx⟩ := ih hcut
        exact ⟨rfl, List.not_mem_cons_of_ne_of_not_mem (Ne.symm hc) hx⟩
  · rintro ⟨rfl, hx⟩
    induction x with
    | nil => rfl
    | cons c x ih =>
      obtain ⟨hc, hx⟩ := List.ne_and_not_mem_of_not_mem_cons hx
      rw [List.cons_append, cutComma?_cons hc.symm, ih hx]
      rfl

/-! ## Coordinates -/

/-- A coordinate of the grid, with blanks around it. -/
def WritesCoordinate (part : List Char) (i : Fin 10) : Prop :=
  ∃ numeral, Padded numeral part ∧ IsNumeral numeral i.val

theorem writesCoordinate_iff {part : List Char} {i : Fin 10} :
    WritesCoordinate part i ↔ IsNumeral (trim part) i.val :=
  exists_padded_iff fun _ h => h.no_blank

theorem readCoordinate_eq_ok_iff {axis : String} {part : List Char} {i : Fin 10} :
    readCoordinate axis part = .ok i ↔ WritesCoordinate part i := by
  rw [writesCoordinate_iff]
  unfold readCoordinate
  constructor
  · intro h
    split at h
    · next v hv =>
      split at h
      · cases h
        exact (readNumeral_eq_ok_iff.1 hv).1
      · cases h
    · cases h
  · intro h
    have hread := readNumeral_eq_ok_iff.2 ⟨h, (by omega : i.val ≤ 255)⟩
    rw [hread]
    exact dif_pos i.isLt

/-- The text of a cell: its column and its row around the first comma. -/
def WritesCell (text : String) (c : Cell) : Prop :=
  ∃ x y, text.toList = x ++ ',' :: y ∧ ',' ∉ x ∧ WritesCoordinate x c.x ∧ WritesCoordinate y c.y

/-- The text of a pose: its column, its row and its direction around the first two commas. -/
def WritesPose (text : String) (p : Pose) : Prop :=
  ∃ x y facing, text.toList = x ++ ',' :: (y ++ ',' :: facing) ∧ ',' ∉ x ∧ ',' ∉ y ∧
    WritesCoordinate x p.cell.x ∧ WritesCoordinate y p.cell.y ∧
    ∃ word, Padded word facing ∧ p.direction.Names word

/-! ## Cells and poses -/

/-- A text is read as a cell exactly if it is the text of that cell. -/
theorem readCell_eq_ok_iff {text : String} {c : Cell} :
    readCell text = .ok c ↔ WritesCell text c := by
  constructor
  · intro h
    unfold readCell at h
    split at h
    · cases h
    · next x y hcut =>
      obtain ⟨i, hx, h⟩ := Except.bind_eq_ok_iff.1 h
      obtain ⟨j, hy, h⟩ := Except.bind_eq_ok_iff.1 h
      cases h
      obtain ⟨htext, hcomma⟩ := cutComma?_eq_some_iff.1 hcut
      exact ⟨x, y, htext, hcomma, readCoordinate_eq_ok_iff.1 hx, readCoordinate_eq_ok_iff.1 hy⟩
  · rintro ⟨x, y, htext, hcomma, hx, hy⟩
    have hcut := cutComma?_eq_some_iff.2 ⟨htext, hcomma⟩
    simp only [readCell, hcut, readCoordinate_eq_ok_iff.2 hx, readCoordinate_eq_ok_iff.2 hy]
    rfl

/-- A text is read as a pose exactly if it is the text of that pose. -/
theorem readPose_eq_ok_iff {text : String} {p : Pose} :
    readPose text = .ok p ↔ WritesPose text p := by
  constructor
  · intro h
    unfold readPose at h
    split at h
    · cases h
    · next x rest hcut =>
      split at h
      · cases h
      · next y facing hcut' =>
        obtain ⟨i, hx, h⟩ := Except.bind_eq_ok_iff.1 h
        obtain ⟨j, hy, h⟩ := Except.bind_eq_ok_iff.1 h
        dsimp only at h
        split at h
        · next d hd =>
          cases h
          obtain ⟨htext, hcomma⟩ := cutComma?_eq_some_iff.1 hcut
          obtain ⟨rfl, hcomma'⟩ := cutComma?_eq_some_iff.1 hcut'
          exact ⟨x, y, facing, htext, hcomma, hcomma', readCoordinate_eq_ok_iff.1 hx,
            readCoordinate_eq_ok_iff.1 hy, trim facing, padded_trim facing,
            Direction.ofName?_eq_some_iff.1 hd⟩
        · cases h
  · rintro ⟨x, y, facing, htext, hcomma, hcomma', hx, hy, hfacing⟩
    have hcut := cutComma?_eq_some_iff.2 ⟨htext, hcomma⟩
    have hcut' := cutComma?_eq_some_iff.2 ⟨(rfl : y ++ ',' :: facing = _), hcomma'⟩
    have hname : p.direction.Names (trim facing) :=
      (exists_padded_iff fun _ h => Direction.Names.no_blank h).1 hfacing
    simp only [readPose, hcut, hcut', readCoordinate_eq_ok_iff.2 hx,
      readCoordinate_eq_ok_iff.2 hy, Direction.ofName?_eq_some_iff.2 hname]
    rfl

end CommandLine

end Karel
