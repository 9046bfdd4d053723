import Karel.Proofs.Source.Count
import Karel.Proofs.Source.DescentSteps

/-! # The range of repeat counts

A `repeat` takes any digits whose value is from 2 to 32767, however many of them there are. Its
count is then read as that value and the token is passed. Any other digits are refused where they
stand and as they are written, and a descent that refuses them has moved neither of its variables.
-/
namespace Karel
open Text

theorem repeatCount?_of_digits {digits : String} (hd : ∀ a ∈ digits.toList, a.isDigit) {value : Nat}
    (hv : decimalValue digits.toList = value) :
    repeatCount? digits = if 2 ≤ value ∧ value ≤ 32767 then some value else none := by
  split
  · next hin => exact (repeatCount?_eq_some_iff hd).2 ⟨hv.symm, hin⟩
  · next hout =>
    rw [Option.eq_none_iff_forall_ne_some]
    intro n hn
    obtain ⟨rfl, hin⟩ := (repeatCount?_eq_some_iff hd).1 hn
    exact hout (hv ▸ hin)

theorem Issue.message_countOutOfRange (digits : String) :
    (countOutOfRange digits).message = digits ++ " out of range [2, 32767]" := by
  have hrange : " out of range [" ++ (toString leastCount ++ (", " ++
      (toString greatestCount ++ "]"))) = " out of range [2, 32767]" := by decide
  change digits ++ " out of range [" ++ toString leastCount ++ ", " ++ toString greatestCount ++ "]"
    = _
  rw [← hrange]
  simp only [String.append_assoc]

/-- In a list that ends with the end of the file there is a token behind every other one. -/
theorem Cursor.IsAt.lt_length {tokens : List Token} {c : Cursor} {i : Nat} (h : c.IsAt tokens i)
    (hend : tokens.getLast?.map Token.kind = some .eof) (hk : c.kind ≠ .eof) :
    i + 1 < tokens.length := by
  have hlength := h.length
  cases hrest : c.rest with
  | nil =>
    have hlast : (tokens.drop i).getLast? = tokens.getLast? := by
      rw [List.getLast?_drop, if_neg (by omega)]
    rw [← hlast, h, hrest] at hend
    exact absurd (Option.some.inj hend) hk
  | cons u us =>
    rw [remaining, hrest, List.length_cons] at hlength
    omega

theorem Reader.count_of_number {c : Cursor} {digits : String} (hk : c.kind = .number digits) :
    count c =
      match repeatCount? digits with
      | some value => .ok (value, c.advance)
      | none => .error ⟨.countOutOfRange digits, c.position⟩ := by
  cases h : repeatCount? digits with
  | some value => simp only [count, hk, h]
  | none => simp only [count, hk, h]

theorem Descent.count_of_number {tokens : List Token} {c : Cursor} {t : Trail} {digits : String}
    (hat : c.IsAt tokens t.now.index) (hk : c.kind = .number digits) :
    count tokens t =
      match repeatCount? digits with
      | some value => some (.ok value, t.onward tokens)
      | none => some (.error (.issue ⟨.countOutOfRange digits, c.position⟩), t) := by
  rw [count, bind_of_ok (kind_run hat)]
  cases h : repeatCount? digits with
  | some value =>
    simp only [hk, h]
    exact bind_of_ok (advance_run hat)
  | none =>
    simp only [hk, h]
    exact fail_run _ hat

/-- A count is judged by the exact value of its digits. It is read if and only if the value is from
2 to 32767, and then it is the value, which sixteen bits hold, and the next token comes up; only the
last token is not left, and that is no numeral in a list that ends with the end of the file. Any
other numeral is refused at its place and as it is written, and a descent stays where it is. -/
theorem Reader.count_judged_by_value {tokens : List Token} {c : Cursor} {t : Trail}
    {digits : String} {value : Nat} (hat : c.IsAt tokens t.now.index) (hk : c.kind = .number digits)
    (hd : ∀ a ∈ digits.toList, a.isDigit) (hv : decimalValue digits.toList = value) :
    ((∃ r, count c = .ok r) ↔ 2 ≤ value ∧ value ≤ 32767) ∧
    (2 ≤ value ∧ value ≤ 32767 →
      count c = .ok (value, c.advance) ∧ (UInt16.ofNat value).toNat = value ∧
      Descent.count tokens t = some (.ok value, t.onward tokens) ∧
      (tokens.getLast?.map Token.kind = some .eof →
        c.advance.IsAt tokens (t.now.index + 1) ∧
          (t.onward tokens).now = ⟨t.now.index + 1, t.now.depth⟩)) ∧
    (¬ (2 ≤ value ∧ value ≤ 32767) →
      ∃ x : Diagnostic, count c = .error x ∧
        Descent.count tokens t = some (.error (.issue x), t) ∧ x.position = c.position ∧
        x.issue.code = "P004" ∧ x.issue.message = digits ++ " out of range [2, 32767]") := by
  have hcount := count_of_number hk
  have hdescent := Descent.count_of_number hat hk
  have hread := repeatCount?_of_digits hd hv
  by_cases hin : 2 ≤ value ∧ value ≤ 32767
  · rw [if_pos hin] at hread
    rw [hread] at hcount hdescent
    refine ⟨⟨fun _ => hin, fun _ => ⟨_, hcount⟩⟩, fun _ => ⟨hcount, ?_, hdescent, fun hend => ?_⟩,
      fun hout => absurd hin hout⟩
    · rw [UInt16.toNat_ofNat']
      omega
    · have hlt := hat.lt_length hend (by rw [hk]; nofun)
      have hplace := hat.advance
      rw [if_pos hlt] at hplace
      rw [Trail.onward, if_pos hlt]
      exact ⟨hplace, rfl⟩
  · rw [if_neg hin] at hread
    rw [hread] at hcount hdescent
    refine ⟨⟨?_, fun h => absurd h hin⟩, fun h => absurd h hin, fun _ => ?_⟩
    · rintro ⟨r, hr⟩
      rw [hcount] at hr
      cases hr
    · exact ⟨_, hcount, hdescent, rfl, rfl, Issue.message_countOutOfRange digits⟩

/-- The greatest count with zeros in front of it, and a number that 32 bits would take for 2. -/
def Token.numerals : List Token :=
  [⟨.number "000032767", ⟨1, 9⟩⟩, ⟨.number "4294967298", ⟨2, 9⟩⟩, ⟨.eof, ⟨3, 1⟩⟩]

theorem Reader.numerals_judged_by_value :
    decimalValue "000032767".toList = 32767 ∧ decimalValue "4294967298".toList = 4294967298 ∧
      Descent.count Token.numerals ⟨⟨0, 1⟩, []⟩ = some (.ok 32767, ⟨⟨1, 1⟩, [⟨0, 1⟩]⟩) ∧
      ∃ x : Diagnostic, Descent.count Token.numerals ⟨⟨1, 1⟩, []⟩ =
          some (.error (.issue x), ⟨⟨1, 1⟩, []⟩) ∧ x.position = ⟨2, 9⟩ ∧ x.issue.code = "P004" ∧
        x.issue.message = "4294967298 out of range [2, 32767]" := by
  have hfirst : Cursor.IsAt Token.numerals ⟨⟨.number "000032767", ⟨1, 9⟩⟩, _⟩ 0 := rfl
  have hsecond : Cursor.IsAt Token.numerals ⟨⟨.number "4294967298", ⟨2, 9⟩⟩, _⟩ 1 := rfl
  obtain ⟨-, hread, -⟩ := count_judged_by_value (t := ⟨⟨0, 1⟩, []⟩) hfirst rfl (by simp) rfl
  obtain ⟨-, -, hrefused⟩ := count_judged_by_value (t := ⟨⟨1, 1⟩, []⟩) hsecond rfl (by simp) rfl
  obtain ⟨-, -, hdescent, -⟩ := hread (by decide)
  obtain ⟨x, -, hx⟩ := hrefused (by decide)
  exact ⟨rfl, rfl, hdescent, x, hx⟩

end Karel
