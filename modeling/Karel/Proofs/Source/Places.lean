import Mathlib.Data.List.Nodup
import Karel.Proofs.Source.Tiling

/-! # Where tokens stand

A token stands where its lexeme starts in the text, and the end of file stands behind everything. No
two tokens of a text stand at the same place, so a token is known by its position. A lexeme starts
with no blank, so no newline or carriage return stands where a token does.
-/
namespace Karel

open Text

namespace Position

/-- Further characters lead to another place. -/
theorem behind_append_ne (before : List Char) {text : List Char} (h : text ≠ []) :
    behind (before ++ text) ≠ behind before := by
  intro heq
  have hline := congrArg line heq
  have hcolumn := congrArg column heq
  simp only [behind, List.count_append, Nat.add_right_cancel_iff, Nat.add_eq_left,
    List.count_eq_zero] at hline
  have hsame : ∀ c ∈ text.reverse, (c != '\n') = true := by
    intro c hc
    rw [bne_iff_ne]
    rintro rfl
    exact hline (List.mem_reverse.1 hc)
  have hsplit : (before ++ text).rtakeWhile (· != '\n') =
      before.rtakeWhile (· != '\n') ++ text := by
    rw [List.rtakeWhile, List.reverse_append, List.takeWhile_append_of_pos hsame,
      List.reverse_append, List.reverse_reverse]
    rfl
  simp only [behind, hsplit, List.length_append] at hcolumn
  have hlength := List.length_pos_iff.2 h
  omega

end Position

/-- A token starts with this text: its lexeme is at the front, or it is the end of file and nothing
is left. -/
inductive Token.Starts (t : Token) : List Char → Prop where
  | eof (h : t.kind = .eof) : Starts t []
  | lexeme {text rest : List Char} (h : IsLexeme t.kind text rest) : Starts t (text ++ rest)

namespace IsLexeme

theorem head_not_blank {kind : Token.Kind} {c : Char} {cs rest : List Char}
    (h : IsLexeme kind (c :: cs) rest) : isBlank c = false := by
  generalize ht : c :: cs = text at h
  cases h with
  | keyword k =>
    obtain ⟨d, ds, hspelling, hd, -⟩ := k.spelled
    cases ht.trans hspelling
    exact isBlank_of_isNameRest (isNameRest_of_isNameStart hd)
  | identifier hname =>
    obtain ⟨d, ds, hspelling, hd, -⟩ := hname.spelled
    cases ht.trans hspelling
    exact isBlank_of_isNameRest (isNameRest_of_isNameStart hd)
  | number hne hdigits =>
    have hc : c.isDigit = true := hdigits c (ht ▸ List.mem_cons_self)
    exact isBlank_of_isNameRest (isNameRest_of_isDigit hc)
  | symbol s => cases s <;> cases ht <;> decide
  | lone hc =>
    cases ht
    rcases hc with rfl | rfl <;> decide
  | unclosed =>
    cases ht
    decide
  | slash =>
    cases ht
    decide
  | stray hmark hblank =>
    cases ht
    exact hblank

end IsLexeme

theorem Token.Starts.head_not_blank {t : Token} {text : List Char} (h : t.Starts text) :
    ∀ c ∈ text.head?, isBlank c = false := by
  cases h with
  | eof => simp
  | lexeme hlexeme =>
    obtain ⟨c, cs, rfl⟩ := hlexeme.exists_cons
    intro d hd
    cases hd
    exact hlexeme.head_not_blank

theorem Token.Starts.eof_iff {t : Token} {text : List Char} (h : t.Starts text) :
    t.kind = .eof ↔ text = [] := by
  cases h with
  | eof hkind => exact iff_of_true hkind rfl
  | lexeme hlexeme =>
    obtain ⟨c, cs, rfl⟩ := hlexeme.exists_cons
    exact iff_of_false hlexeme.ne_eof (List.cons_ne_nil _ _)

namespace Tile

variable {last : List Char} {tiles : List Tile}

theorem exists_place {t : Token} (hfit : Fit last tiles) {before : List Char}
    (ht : t ∈ tokensOf last before tiles) :
    ∃ passed rest, textOf last tiles = passed ++ rest ∧
      t.position = .behind (before ++ passed) ∧ t.Starts rest := by
  induction tiles generalizing before with
  | nil =>
    cases List.mem_singleton.1 ht
    exact ⟨last, [], (List.append_nil last).symm, rfl, .eof rfl⟩
  | cons tile tiles ih =>
    obtain ⟨-, hlexeme, hfit⟩ := hfit
    rcases List.mem_cons.1 ht with rfl | ht
    · exact ⟨tile.gap, _, rfl, rfl, .lexeme hlexeme⟩
    · obtain ⟨passed, rest, htext, hposition, hstarts⟩ := ih hfit ht
      refine ⟨tile.gap ++ (tile.lexeme ++ passed), rest, ?_, ?_, hstarts⟩
      · rw [textOf, htext]
        simp
      · rw [hposition]
        simp

theorem nodup_positions (hfit : Fit last tiles) (before : List Char) :
    ((tokensOf last before tiles).map Token.position).Nodup := by
  induction tiles generalizing before with
  | nil => exact List.nodup_singleton _
  | cons tile tiles ih =>
    obtain ⟨-, hlexeme, hfit⟩ := hfit
    refine List.nodup_cons.2 ⟨?_, ih hfit _⟩
    intro hmem
    obtain ⟨t, ht, hsame⟩ := List.mem_map.1 hmem
    obtain ⟨passed, rest, -, hposition, -⟩ := exists_place hfit ht
    obtain ⟨c, cs, htext⟩ := hlexeme.exists_cons
    rw [hposition, List.append_assoc] at hsame
    exact Position.behind_append_ne _ (by simp [htext]) hsame

end Tile

/-- The tokens of a text are those of tiles that fit. -/
theorem exists_tiles (source : String) :
    ∃ last tiles, Tile.Fit last tiles ∧ source.toList = Tile.textOf last tiles ∧
      tokenize source = Tile.tokensOf last [] tiles := by
  obtain ⟨last, tiles, hfit, htext⟩ := Tile.exists_fit .start source.toList
  refine ⟨last, tiles, hfit, htext.symm, ?_⟩
  rw [tokenize, ← htext]
  exact Tile.tokensFrom_textOf hfit []

/-- Every token of a text starts at its position. -/
theorem exists_place_of_mem_tokenize {source : String} {t : Token} (h : t ∈ tokenize source) :
    ∃ before rest, source.toList = before ++ rest ∧ t.position = .behind before ∧
      t.Starts rest := by
  obtain ⟨last, tiles, hfit, htext, htokens⟩ := exists_tiles source
  rw [htokens] at h
  obtain ⟨before, rest, hsplit, hposition, hstarts⟩ := Tile.exists_place hfit h
  exact ⟨before, rest, htext.trans hsplit, hposition, hstarts⟩

/-- A token of a text is known by its position. -/
theorem eq_of_position_eq {source : String} {t u : Token} (ht : t ∈ tokenize source)
    (hu : u ∈ tokenize source) (h : t.position = u.position) : t = u := by
  obtain ⟨last, tiles, hfit, -, htokens⟩ := exists_tiles source
  rw [htokens] at ht hu
  exact List.inj_on_of_nodup_map (Tile.nodup_positions hfit []) ht hu h

end Karel
