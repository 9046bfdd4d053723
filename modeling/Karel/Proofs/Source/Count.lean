import Karel.Source.ReadStatement
import Mathlib.Tactic.Ring

/-! # Repeat counts

A count is judged by its significant digits: those that are left when the zeros in front are gone.
They have the value of the whole numeral, and more than five of them are beyond every count.
-/
namespace Karel
namespace Text

theorem digitValue_lt {c : Char} (hc : c.isDigit) : digitValue c < 10 := by
  have h := Char.isDigit_iff_toNat.1 hc
  have hz : '0'.toNat = 48 := rfl
  have hn : '9'.toNat = 57 := rfl
  unfold digitValue
  omega

theorem digitValue_pos {c : Char} (hc : c.isDigit) (hz : c ≠ '0') : 0 < digitValue c := by
  have h := (Char.isDigit_iff_toNat.1 hc).1
  have hn : c.toNat ≠ '0'.toNat := fun he => hz (Char.toNat_inj.1 he)
  unfold digitValue
  omega

theorem foldl_digits (cs : List Char) (v : Nat) :
    cs.foldl (fun value c => value * 10 + digitValue c) v =
      v * 10 ^ cs.length + decimalValue cs := by
  induction cs generalizing v with
  | nil => simp [decimalValue]
  | cons c cs ih =>
    have h := ih (digitValue c)
    simp only [decimalValue, List.foldl_cons, Nat.zero_mul, Nat.zero_add] at ih h ⊢
    rw [ih, h, List.length_cons]
    ring

theorem decimalValue_cons (c : Char) (cs : List Char) :
    decimalValue (c :: cs) = digitValue c * 10 ^ cs.length + decimalValue cs := by
  have h := foldl_digits cs (digitValue c)
  simpa [decimalValue] using h

theorem decimalValue_lt_pow {cs : List Char} (hcs : ∀ c ∈ cs, c.isDigit) :
    decimalValue cs < 10 ^ cs.length := by
  induction cs with
  | nil => simp [decimalValue]
  | cons c cs ih =>
    have hc := digitValue_lt (hcs c (by simp))
    have ih := ih fun d hd => hcs d (by simp [hd])
    rw [decimalValue_cons, List.length_cons]
    calc digitValue c * 10 ^ cs.length + decimalValue cs
        < digitValue c * 10 ^ cs.length + 10 ^ cs.length := by omega
      _ = (digitValue c + 1) * 10 ^ cs.length := by ring
      _ ≤ 10 * 10 ^ cs.length := Nat.mul_le_mul_right _ (by omega)
      _ = 10 ^ (cs.length + 1) := by ring

theorem decimalValue_dropWhile_zero (cs : List Char) :
    decimalValue (cs.dropWhile (· == '0')) = decimalValue cs := by
  induction cs with
  | nil => rfl
  | cons c cs ih =>
    rw [List.dropWhile_cons]
    split
    · rename_i hz
      have hz : c = '0' := by simpa using hz
      subst hz
      rw [ih, decimalValue_cons]
      simp [digitValue]
    · rfl

/-- Without a zero in front every digit counts. -/
theorem pow_le_decimalValue {c : Char} {cs : List Char} (hc : c.isDigit) (hz : c ≠ '0') :
    10 ^ cs.length ≤ decimalValue (c :: cs) := by
  have hpos := digitValue_pos hc hz
  rw [decimalValue_cons]
  calc 10 ^ cs.length = 1 * 10 ^ cs.length := by rw [Nat.one_mul]
    _ ≤ digitValue c * 10 ^ cs.length := Nat.mul_le_mul_right _ hpos
    _ ≤ digitValue c * 10 ^ cs.length + decimalValue cs := Nat.le_add_right _ _

theorem byteLength_of_digits {cs : List Char} (hcs : ∀ c ∈ cs, c.isDigit) :
    byteLength cs = cs.length := by
  induction cs with
  | nil => rfl
  | cons c cs ih =>
    have hc := (Char.isDigit_iff_toNat.1 (hcs c (by simp))).2
    have hs : c.utf8Size = 1 := by
      have hn : '9'.toNat = 57 := rfl
      rw [Char.utf8Size_eq_one_iff, UInt32.le_iff_toNat_le]
      change c.toNat ≤ 127
      omega
    rw [byteLength, hs, ih fun d hd => hcs d (by simp [hd]), List.length_cons]
    omega

theorem readDigits_of_digits {cs : List Char} (hcs : ∀ c ∈ cs, c.isDigit) {limit v : Nat}
    (hle : v * 10 ^ cs.length + decimalValue cs ≤ limit) :
    readDigits limit v cs = .ok (v * 10 ^ cs.length + decimalValue cs) := by
  induction cs generalizing v with
  | nil => simp [readDigits, decimalValue]
  | cons c cs ih =>
    have hc := hcs c (by simp)
    have he : v * 10 ^ (c :: cs).length + decimalValue (c :: cs)
        = (v * 10 + digitValue c) * 10 ^ cs.length + decimalValue cs := by
      rw [decimalValue_cons, List.length_cons]
      ring
    rw [he] at hle ⊢
    have hle' : v * 10 + digitValue c ≤ limit :=
      calc v * 10 + digitValue c
          ≤ (v * 10 + digitValue c) * 10 ^ cs.length :=
            Nat.le_mul_of_pos_right _ (Nat.pow_pos (by decide))
        _ ≤ (v * 10 + digitValue c) * 10 ^ cs.length + decimalValue cs := Nat.le_add_right _ _
        _ ≤ limit := hle
    rw [readDigits, if_pos hc, if_neg (Nat.not_lt.2 hle')]
    exact ih (fun d hd => hcs d (by simp [hd])) hle

theorem readNumeral_of_digits {cs : List Char} (hne : cs ≠ []) (hcs : ∀ c ∈ cs, c.isDigit)
    {limit : Nat} (hle : decimalValue cs ≤ limit) :
    readNumeral limit cs = .ok (decimalValue cs) := by
  have hplus : ∀ ds, cs ≠ '+' :: ds := by
    rintro ds rfl
    exact absurd (hcs '+' (by simp)) (by decide)
  have hread : readNumeral limit cs = readDigits limit 0 cs := by
    unfold readNumeral
    split
    · exact absurd rfl hne
    · exact absurd rfl (hplus [])
    · exact absurd rfl (hplus _)
    · rfl
  have hzero : 0 * 10 ^ cs.length + decimalValue cs = decimalValue cs := by
    rw [Nat.zero_mul, Nat.zero_add]
  rw [hread, readDigits_of_digits hcs (hzero.symm ▸ hle), hzero]

end Text

open Text

/-- The significant digits of a numeral. -/
def significant (cs : List Char) : List Char := cs.dropWhile (· == '0')

theorem significant_digits {cs : List Char} (hcs : ∀ c ∈ cs, c.isDigit) :
    ∀ c ∈ significant cs, c.isDigit :=
  fun c hc => hcs c ((List.dropWhile_suffix _).subset hc)

/-- More than five significant digits make a value beyond every count. -/
theorem greatestCount_lt_of_significant {cs : List Char} (hcs : ∀ c ∈ cs, c.isDigit)
    (h : 5 < (significant cs).length) : greatestCount < decimalValue cs := by
  have hd := significant_digits hcs
  rw [← decimalValue_dropWhile_zero]
  change greatestCount < decimalValue (significant cs)
  cases he : significant cs with
  | nil => simp [he] at h
  | cons c ds =>
    have hz : c ≠ '0' := by
      intro hz
      have := List.head?_dropWhile_not (· == '0') cs
      simp [significant] at he
      simp [he, hz] at this
    have hc : c.isDigit := hd c (by simp [he])
    have hlen : 5 ≤ ds.length := by
      rw [he, List.length_cons] at h
      omega
    calc greatestCount < 10 ^ 5 := by decide
      _ ≤ 10 ^ ds.length := Nat.pow_le_pow_right (by decide) hlen
      _ ≤ decimalValue (c :: ds) := pow_le_decimalValue hc hz

/-- A numeral is accepted as a count exactly if its value is in range. -/
theorem repeatCount?_eq_some_iff {digits : String} (hd : ∀ c ∈ digits.toList, c.isDigit)
    {value : Nat} :
    repeatCount? digits = some value ↔
      value = decimalValue digits.toList ∧ leastCount ≤ value ∧ value ≤ greatestCount := by
  have hs := significant_digits hd
  have hv : decimalValue (significant digits.toList) = decimalValue digits.toList :=
    decimalValue_dropWhile_zero _
  have hlen := byteLength_of_digits hs
  have hdef : digits.toList.dropWhile (· == '0') = significant digits.toList := rfl
  unfold repeatCount?
  dsimp only
  rw [hdef, hlen]
  split
  · rename_i hlong
    have hbig := greatestCount_lt_of_significant hd hlong
    constructor
    · intro h
      cases h
    · rintro ⟨rfl, -, hle⟩
      omega
  · rename_i hshort
    by_cases hnil : significant digits.toList = []
    · rw [hnil] at hv ⊢
      have hzero : decimalValue digits.toList = 0 := hv.symm
      constructor
      · intro h
        cases h
      · rintro ⟨rfl, hge, -⟩
        rw [hzero] at hge
        cases hge
    · have hsmall : decimalValue (significant digits.toList) ≤ 0xffffffff :=
        calc decimalValue (significant digits.toList)
            ≤ 10 ^ (significant digits.toList).length := Nat.le_of_lt (decimalValue_lt_pow hs)
          _ ≤ 10 ^ 5 := Nat.pow_le_pow_right (by decide) (by omega)
          _ ≤ 0xffffffff := by decide
      rw [readNumeral_of_digits hnil hs hsmall, hv]
      simp only []
      split
      · rename_i hin
        constructor
        · intro h
          cases h
          exact ⟨rfl, hin⟩
        · rintro ⟨rfl, -⟩
          rfl
      · rename_i hout
        constructor
        · intro h
          cases h
        · rintro ⟨rfl, hin⟩
          exact absurd hin hout

end Karel
