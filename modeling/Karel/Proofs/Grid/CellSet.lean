import Mathlib.Algebra.Group.Nat.Defs
import Mathlib.Data.Fintype.Card
import Mathlib.Data.List.FinRange
import Karel.Grid.Beepers

/-! # Beepers as a set of cells

Every cell has one bit in one of the two words and shares it with no other cell, so that putting a
beeper down or taking it away changes what is said of its own cell and of no other. The words have
more bits than there are cells. As long as the spare ones are clear, the words say nothing but which
cells have a beeper: counting their bits counts cells, and words that say the same are equal.
-/
namespace Karel

namespace Cell

theorem mem_all (c : Cell) : c ∈ all := by
  have h := List.mem_map_of_mem (f := ofIndex) (List.mem_finRange c.index)
  rwa [ofIndex_index] at h

theorem nodup_all : all.Nodup := by
  have hinj : Function.Injective ofIndex := Function.LeftInverse.injective index_ofIndex
  exact (List.nodup_finRange 100).map hinj

instance : Fintype Cell := ⟨⟨all, nodup_all⟩, mem_all⟩

end Cell

namespace Beepers

/-- The word that a cell has its bit in. -/
def word (b : Beepers) (c : Cell) : UInt64 := if c.index.val < 64 then b.lo else b.hi

def withWord (b : Beepers) (c : Cell) (w : UInt64) : Beepers :=
  if c.index.val < 64 then { b with lo := w } else { b with hi := w }

/-! ## Bits of a word -/

theorem toBitVec_bit (c : Cell) : (bit c).toBitVec = BitVec.twoPow 64 (c.index.val % 64) := by
  have hshift {k : Nat} (hk : k < 64) :
      ((1 : UInt64) <<< k.toUInt64).toBitVec = BitVec.twoPow 64 k := by
    rw [UInt64.toBitVec_shiftLeft, BitVec.twoPow_eq]
    simp [Nat.mod_eq_of_lt hk]
  have hindex := c.index.isLt
  unfold bit
  split
  · next h => rw [hshift h, Nat.mod_eq_of_lt h]
  · have hmod : c.index.val % 64 = c.index.val - 64 := by omega
    rw [hshift (by omega), hmod]

theorem getLsbD_bit (c : Cell) (k : Nat) :
    (bit c).toBitVec.getLsbD k = decide (k = c.index.val % 64) := by
  have hlt : c.index.val % 64 < 64 := Nat.mod_lt _ (by decide)
  rw [toBitVec_bit, BitVec.getLsbD_twoPow]
  simp [hlt, eq_comm]

theorem bit_ne_zero (c : Cell) : bit c ≠ 0 := by
  intro h
  have hset := getLsbD_bit c (c.index.val % 64)
  rw [h] at hset
  simp at hset

theorem and_bit_eq (w : UInt64) (c : Cell) :
    w &&& bit c = if w.toBitVec.getLsbD (c.index.val % 64) then bit c else 0 := by
  apply UInt64.toBitVec_inj.1
  rw [UInt64.toBitVec_and, toBitVec_bit, BitVec.and_twoPow]
  split
  · rw [toBitVec_bit]
  · rfl

/-- A word has the bit of a cell or it has not. -/
theorem and_bit (w : UInt64) (c : Cell) : w &&& bit c = 0 ∨ w &&& bit c = bit c := by
  rw [and_bit_eq]
  split
  · exact .inr rfl
  · exact .inl rfl

theorem or_and_self (w m : UInt64) : (w ||| m) &&& m = m := by
  apply UInt64.toBitVec_inj.1
  ext i hi
  simp only [UInt64.toBitVec_and, UInt64.toBitVec_or, BitVec.getElem_and, BitVec.getElem_or]
  cases w.toBitVec[i] <;> simp

theorem clear_set {w m : UInt64} (h : w &&& m = 0) : (w ||| m) &&& ~~~ m = w := by
  apply UInt64.toBitVec_inj.1
  ext i hi
  have hbit := congrArg (fun v : UInt64 => v.toBitVec[i]) h
  simp only [UInt64.toBitVec_and, UInt64.toBitVec_or, UInt64.toBitVec_not, BitVec.getElem_and,
    BitVec.getElem_or, BitVec.getElem_not, UInt64.toBitVec_zero, BitVec.getElem_zero] at hbit ⊢
  cases hw : w.toBitVec[i] <;> simp_all

theorem set_clear {w m : UInt64} (h : w &&& m = m) : w &&& ~~~ m ||| m = w := by
  apply UInt64.toBitVec_inj.1
  ext i hi
  have hbit := congrArg (fun v : UInt64 => v.toBitVec[i]) h
  simp only [UInt64.toBitVec_and, UInt64.toBitVec_or, UInt64.toBitVec_not, BitVec.getElem_and,
    BitVec.getElem_or, BitVec.getElem_not] at hbit ⊢
  cases hw : w.toBitVec[i] <;> simp_all

/-! ## The beeper of one cell -/

variable (b : Beepers) (c : Cell)

theorem contains_eq : b.contains c = (b.word c &&& bit c != 0) := by
  unfold contains word
  split <;> rfl

theorem contains_eq_getLsbD : b.contains c = (b.word c).toBitVec.getLsbD (c.index.val % 64) := by
  rw [contains_eq, and_bit_eq]
  cases (b.word c).toBitVec.getLsbD (c.index.val % 64) with
  | false => rfl
  | true =>
    rw [if_pos rfl, bne_iff_ne]
    exact bit_ne_zero c

theorem insert_eq : b.insert c = b.withWord c (b.word c ||| bit c) := by
  unfold insert withWord word
  split <;> rfl

theorem erase_eq : b.erase c = b.withWord c (b.word c &&& ~~~ bit c) := by
  unfold erase withWord word
  split <;> rfl

@[simp] theorem word_withWord (w : UInt64) : (b.withWord c w).word c = w := by
  unfold withWord word
  split <;> rfl

@[simp] theorem withWord_withWord (w w' : UInt64) :
    (b.withWord c w).withWord c w' = b.withWord c w' := by
  unfold withWord
  split <;> rfl

@[simp] theorem withWord_word : b.withWord c (b.word c) = b := by
  unfold withWord word
  split <;> rfl

theorem contains_insert : (b.insert c).contains c = true := by
  rw [contains_eq, insert_eq, word_withWord, or_and_self, bne_iff_ne]
  exact bit_ne_zero c

theorem contains_erase : (b.erase c).contains c = false := by
  rw [contains_eq, erase_eq, word_withWord, UInt64.and_assoc, UInt64.not_and_self, UInt64.and_zero]
  rfl

variable {b c} {d : Cell}

/-- A beeper that is put down and taken away again leaves no trace. -/
theorem erase_insert (h : b.contains c = false) : (b.insert c).erase c = b := by
  have hclear : b.word c &&& bit c = 0 := by
    rw [contains_eq] at h
    simpa using h
  rw [erase_eq, insert_eq, word_withWord, withWord_withWord, clear_set hclear, withWord_word]

theorem insert_erase (h : b.contains c = true) : (b.erase c).insert c = b := by
  have hset : b.word c &&& bit c = bit c := by
    rw [contains_eq, bne_iff_ne] at h
    exact (and_bit _ c).resolve_left h
  rw [insert_eq, erase_eq, word_withWord, withWord_withWord, set_clear hset, withWord_word]

/-! ## The beepers of all cells -/

theorem word_withWord_of_same (w : UInt64) (h : c.index.val < 64 ↔ d.index.val < 64) :
    (b.withWord c w).word d = w := by
  by_cases hc : c.index.val < 64
  · simp only [withWord, word, hc, h.1 hc, if_true]
  · simp only [withWord, word, hc, mt h.2 hc, if_false]

theorem word_withWord_of_other (w : UInt64) (h : ¬ (c.index.val < 64 ↔ d.index.val < 64)) :
    (b.withWord c w).word d = b.word d := by
  by_cases hc : c.index.val < 64
  · have hd : ¬ d.index.val < 64 := fun hd => h ⟨fun _ => hd, fun _ => hc⟩
    simp only [withWord, word, hc, hd, if_true, if_false]
  · have hd : d.index.val < 64 := by tauto
    simp only [withWord, word, hc, hd, if_true, if_false]

/-- What is written over the bit of one cell is no other cell's concern. -/
theorem contains_withWord_of_ne {w : UInt64} (h : c ≠ d)
    (hw : ∀ k, k ≠ c.index.val % 64 → w.toBitVec.getLsbD k = (b.word c).toBitVec.getLsbD k) :
    (b.withWord c w).contains d = b.contains d := by
  rw [contains_eq_getLsbD, contains_eq_getLsbD]
  by_cases hside : c.index.val < 64 ↔ d.index.val < 64
  · -- Two cells with bits in one word have different bits there.
    have hindex : c.index.val ≠ d.index.val := fun hi => h (Cell.index_injective (Fin.ext hi))
    have hbits : d.index.val % 64 ≠ c.index.val % 64 := by omega
    have hsame : b.word d = b.word c := by simp only [word, hside]
    rw [word_withWord_of_same w hside, hsame]
    exact hw _ hbits
  · rw [word_withWord_of_other w hside]

theorem contains_insert_of_ne (h : c ≠ d) : (b.insert c).contains d = b.contains d := by
  rw [insert_eq]
  refine contains_withWord_of_ne h fun k hk => ?_
  rw [UInt64.toBitVec_or, BitVec.getLsbD_or, getLsbD_bit, decide_eq_false hk, Bool.or_false]

theorem contains_erase_of_ne (h : c ≠ d) : (b.erase c).contains d = b.contains d := by
  rw [erase_eq]
  refine contains_withWord_of_ne h fun k hk => ?_
  rw [UInt64.toBitVec_and, UInt64.toBitVec_not, BitVec.getLsbD_and, BitVec.getLsbD_not, getLsbD_bit,
    decide_eq_false hk]
  by_cases hlt : k < 64
  · simp [hlt]
  · simp [BitVec.getLsbD_of_ge _ _ (Nat.le_of_not_lt hlt)]

/-- The cells with a beeper. -/
def cells (b : Beepers) : Finset Cell := {c | b.contains c = true}

@[simp] theorem mem_cells : c ∈ b.cells ↔ b.contains c = true := by
  simp [cells]

theorem cells_insert (b : Beepers) (c : Cell) : (b.insert c).cells = Insert.insert c b.cells := by
  ext d
  by_cases h : c = d
  · simp [← h, contains_insert]
  · simp [contains_insert_of_ne h, Ne.symm h]

theorem cells_erase (b : Beepers) (c : Cell) : (b.erase c).cells = b.cells.erase c := by
  ext d
  by_cases h : c = d
  · simp [← h, contains_erase]
  · simp [contains_erase_of_ne h, Ne.symm h]

theorem cells_toggle (b : Beepers) (c : Cell) : (b.toggle c).cells = symmDiff b.cells {c} := by
  unfold toggle
  split
  · next h =>
    have hsub : {c} ⊆ b.cells := by simpa using h
    rw [cells_erase, symmDiff_of_ge hsub, Finset.sdiff_singleton_eq_erase]
  · next h =>
    have hdisj : Disjoint b.cells {c} := by simpa using h
    rw [cells_insert, hdisj.symmDiff_eq_sup, Finset.insert_eq, Finset.union_comm]
    rfl

/-! ## Spare bits -/

/-- No bit is set that stands for no cell. -/
def Trim (b : Beepers) : Prop := b.hi.toNat < 2 ^ 36

theorem trim_empty : empty.Trim := Nat.two_pow_pos 36

theorem trim_ofWords (lo hi : UInt64) : (ofWords lo hi).Trim := by
  have hle : (hi &&& highBits).toNat ≤ highBits.toNat := by
    rw [UInt64.toNat_and]
    exact Nat.and_le_right
  exact Nat.lt_of_le_of_lt hle (by decide)

theorem Trim.insert (hb : b.Trim) (c : Cell) : (b.insert c).Trim := by
  have hindex := c.index.isLt
  unfold Beepers.insert
  split
  · exact hb
  · have hbit : (bit c).toNat < 2 ^ 36 := by
      change (bit c).toBitVec.toNat < 2 ^ 36
      rw [toBitVec_bit, BitVec.toNat_twoPow_of_lt (Nat.mod_lt _ (by decide))]
      exact Nat.pow_lt_pow_right (by decide) (by omega)
    simp only [Trim, UInt64.toNat_or]
    exact Nat.or_lt_two_pow hb hbit

theorem Trim.erase (hb : b.Trim) (c : Cell) : (b.erase c).Trim := by
  unfold Beepers.erase
  split
  · exact hb
  · simp only [Trim, UInt64.toNat_and]
    exact Nat.lt_of_le_of_lt Nat.and_le_left hb

theorem Trim.toggle (hb : b.Trim) (c : Cell) : (b.toggle c).Trim := by
  unfold Beepers.toggle
  split
  · exact hb.erase c
  · exact hb.insert c

/-- Both words as one number, whose bits are the cells in the order of their numbers. -/
def number (b : Beepers) : Nat := 2 ^ 64 * b.hi.toNat + b.lo.toNat

theorem testBit_number (b : Beepers) (k : Nat) :
    b.number.testBit k = if k < 64 then b.lo.toNat.testBit k else b.hi.toNat.testBit (k - 64) :=
  Nat.testBit_two_pow_mul_add _ b.lo.toNat_lt k

theorem contains_eq_testBit (b : Beepers) (c : Cell) :
    b.contains c = b.number.testBit c.index.val := by
  have hindex := c.index.isLt
  rw [contains_eq_getLsbD, testBit_number, word]
  by_cases h : c.index.val < 64
  · rw [if_pos h, if_pos h, Nat.mod_eq_of_lt h]
    rfl
  · have hmod : c.index.val % 64 = c.index.val - 64 := by omega
    rw [if_neg h, if_neg h, hmod]
    rfl

theorem mem_cells_ofWords {lo hi : UInt64} :
    c ∈ (ofWords lo hi).cells ↔ (2 ^ 64 * hi.toNat + lo.toNat).testBit c.index.val = true := by
  have hindex := c.index.isLt
  have hspare : c.index.val - 64 < 36 := by omega
  have hmask : highBits.toNat.testBit (c.index.val - 64) = true := by
    change (2 ^ 36 - 1).testBit (c.index.val - 64) = true
    rw [Nat.testBit_two_pow_sub_one, decide_eq_true hspare]
  rw [mem_cells, contains_eq_testBit, testBit_number, Nat.testBit_two_pow_mul_add _ lo.toNat_lt]
  simp only [ofWords, UInt64.toNat_and, Nat.testBit_and, hmask, Bool.and_true]

theorem cells_full : full.cells = Finset.univ := by
  ext c
  have hindex := c.index.isLt
  have hnumber : 2 ^ 64 * highBits.toNat + (0xffffffffffffffff : UInt64).toNat = 2 ^ 100 - 1 := by
    decide
  rw [full, mem_cells_ofWords, hnumber, Nat.testBit_two_pow_sub_one]
  simp [hindex]

theorem number_injective {a : Beepers} (h : a.number = b.number) : a = b := by
  have ha := a.lo.toNat_lt
  have hb := b.lo.toNat_lt
  unfold number at h
  ext
  · omega
  · omega

theorem Trim.testBit_eq_false (hb : b.Trim) {k : Nat} (hk : 100 ≤ k) :
    b.number.testBit k = false := by
  have hlt : b.number < 2 ^ 100 := by
    have hlo := b.lo.toNat_lt
    unfold Trim at hb
    unfold number
    omega
  exact Nat.testBit_lt_two_pow (Nat.lt_of_lt_of_le hlt (Nat.pow_le_pow_right (by decide) hk))

theorem eq_of_cells_eq {a : Beepers} (ha : a.Trim) (hb : b.Trim) (h : a.cells = b.cells) :
    a = b := by
  apply number_injective
  apply Nat.eq_of_testBit_eq
  intro k
  by_cases hk : k < 100
  · have hcell : a.contains (Cell.ofIndex ⟨k, hk⟩) = b.contains (Cell.ofIndex ⟨k, hk⟩) := by
      rw [Bool.eq_iff_iff, ← mem_cells, ← mem_cells, h]
    rwa [contains_eq_testBit, contains_eq_testBit, Cell.index_ofIndex] at hcell
  · rw [ha.testBit_eq_false (by omega), hb.testBit_eq_false (by omega)]

theorem count_eq_countP (b : Beepers) :
    b.count = (List.range 128).countP fun k => b.number.testBit k := by
  have hlo : (List.range 64).countP (fun k => b.number.testBit k) = ones b.lo := by
    refine List.countP_congr fun k hk => ?_
    rw [testBit_number, if_pos (List.mem_range.1 hk)]
  have hhi : (List.range 64).countP (fun k => b.number.testBit (64 + k)) = ones b.hi := by
    refine List.countP_congr fun k hk => ?_
    rw [testBit_number, if_neg (by omega), Nat.add_sub_cancel_left]
  have hrange : List.range 128 = List.range 64 ++ (List.range 64).map (64 + ·) :=
    List.range_add (n := 64) (m := 64)
  rw [hrange, List.countP_append, List.countP_map, hlo]
  exact congrArg (ones b.lo + ·) hhi.symm

theorem card_cells (b : Beepers) :
    b.cells.card = (List.range 100).countP fun k => b.number.testBit k := by
  have hindices : Cell.all.map (fun c => c.index.val) = List.range 100 := by
    rw [Cell.all, List.map_map, ← List.map_coe_finRange_eq_range]
    refine List.map_congr_left fun i _ => ?_
    rw [Function.comp_apply, Cell.index_ofIndex]
  have hcontains : b.contains = (fun k => b.number.testBit k) ∘ fun c => c.index.val :=
    funext b.contains_eq_testBit
  calc b.cells.card = (Cell.all.filter fun c => b.contains c = true).length := rfl
    _ = Cell.all.countP b.contains := by simp [List.countP_eq_length_filter]
    _ = (List.range 100).countP fun k => b.number.testBit k := by
      rw [hcontains, ← List.countP_map, hindices]

/-- As long as the spare bits are clear, counting bits counts cells. -/
theorem Trim.count_eq_card (hb : b.Trim) : b.count = b.cells.card := by
  have hrange : List.range 128 = List.range 100 ++ (List.range 28).map (100 + ·) :=
    List.range_add (n := 100) (m := 28)
  have hspare : (List.range 28).countP ((fun k => b.number.testBit k) ∘ (100 + ·)) = 0 := by
    rw [List.countP_eq_zero]
    intro k _
    simp [hb.testBit_eq_false (Nat.le_add_right 100 k)]
  rw [count_eq_countP, card_cells, hrange, List.countP_append, List.countP_map, hspare,
    Nat.add_zero]

end Beepers
end Karel
