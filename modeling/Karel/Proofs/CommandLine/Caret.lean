import Karel.CommandLine.App
import Karel.Proofs.Executable.WellNamed
import Karel.Proofs.Source.Places
import Karel.Proofs.Source.ProgramGrammar
import Karel.Proofs.Source.Relocation
import Karel.Proofs.Text.Lines

/-! # The caret under an error

A report quotes the line that has the number of the diagnostic and puts a caret under its column.
The lines of the report are cut without looking at tokens, and the lines and columns of tokens are
counted without cutting lines. Both agree: what is wrong is wrong with a token of the text, and the
caret stands under the first character of it. At the end of the file it stands behind the last line.
If nothing stands on that line there is nothing to quote.
-/
namespace Karel

/-! ## Where a diagnostic stands -/

mutual

theorem Statement.mem_positions_of_mem_calls {call : Call} : ∀ s : Statement, call ∈ s.calls →
    call.position ∈ s.positions
  | .call _ _, h => by
    cases List.mem_singleton.1 h
    exact List.mem_singleton_self _
  | .repeat _ body _, h => List.mem_cons_of_mem _ (mem_blockPositions_of_mem_blockCalls body h)
  | .if _ yes _, h => by
    have hyes := mem_blockPositions_of_mem_blockCalls yes h
    simp [hyes]
  | .ifElse _ yes no _, h => by
    rcases List.mem_append.1 h with h | h
    · have hyes := mem_blockPositions_of_mem_blockCalls yes h
      simp [hyes]
    · have hno := mem_blockPositions_of_mem_blockCalls no h
      simp [hno]
  | .while _ body _, h => by
    have hbody := mem_blockPositions_of_mem_blockCalls body h
    simp [hbody]

theorem Statement.mem_blockPositions_of_mem_blockCalls {call : Call} :
    ∀ ss : List Statement, call ∈ blockCalls ss → call.position ∈ blockPositions ss
  | [], h => absurd h List.not_mem_nil
  | s :: ss, h => by
    rcases List.mem_append.1 h with h | h
    · exact List.mem_append_left _ (s.mem_positions_of_mem_calls h)
    · exact List.mem_append_right _ (mem_blockPositions_of_mem_blockCalls ss h)

end

namespace Program

variable {p : Program} {d : Diagnostic}

theorem mem_positions_of_mem_commands {c : Command} (h : c ∈ p.commands) :
    c.position ∈ p.positions :=
  List.mem_flatMap.2 ⟨c, h, List.mem_cons_self⟩

theorem mem_positions_of_mem_calls {call : Call} (h : call ∈ p.calls) :
    call.position ∈ p.positions := by
  obtain ⟨c, hc, hcall⟩ := List.mem_flatMap.1 h
  have hbody := Statement.mem_blockPositions_of_mem_blockCalls c.body hcall
  exact List.mem_flatMap.2 ⟨c, hc, List.mem_cons_of_mem _ hbody⟩

theorem NameIssue.mem_positions (h : p.NameIssue d) : d.position ∈ p.positions := by
  cases h with
  | builtin h _ _ hd | duplicate h _ _ _ hd =>
    rw [hd.position]
    exact mem_positions_of_mem_commands (by simp [h])

theorem EntryIssue.mem_positions {requested : Option String} (h : p.EntryIssue requested d)
    (hne : p.commands ≠ []) : d.position ∈ p.positions := by
  cases h with
  | undeclared _ hd =>
    obtain ⟨c, cs, hcs⟩ := List.exists_cons_of_ne_nil hne
    rw [hd.position, hcs]
    exact mem_positions_of_mem_commands (c := c) (by simp [hcs])
  | empty h => exact absurd h hne

theorem CallIssue.mem_positions (h : p.CallIssue d) : d.position ∈ p.positions := by
  cases h with
  | condition h _ _ _ hd | undefined h _ _ _ hd =>
    rw [hd.position]
    exact mem_positions_of_mem_calls (by simp [h])

theorem commands_ne_nil_of_read {c : Cursor} (h : read c = .ok p) : p.commands ≠ [] := by
  obtain ⟨hkind, hcommands⟩ := read_eq_ok.1 h
  rw [Reader.commands] at hcommands
  split at hcommands
  · next heof => exact absurd heof hkind
  · split at hcommands
    · cases hcommands
    · split at hcommands
      · cases hcommands
      · rw [← Except.ok.inj hcommands]
        exact List.cons_ne_nil _ _
  · cases hcommands

/-- What is wrong with a program that was read stands where one of its positions is. -/
theorem mem_positions_of_compile_error {requested : Option String} (hne : p.commands ≠ [])
    (h : p.compile requested = .error d) : d.position ∈ p.positions := by
  cases compile_error_iff_firstIssue.1 h with
  | name h => exact h.mem_positions
  | entry _ h => exact h.mem_positions hne
  | call _ _ h => exact h.mem_positions

end Program

/-- A diagnostic of a source text stands where a token of it does. -/
theorem exists_token_of_compile_error {source : String} {requested : Option String}
    {d : Diagnostic} (h : compile source requested = .error d) :
    ∃ t ∈ tokenize source, t.position = d.position := by
  have htokens := Program.ofTokens?_tokenize source
  cases hp : Program.parse source with
  | error d' =>
    rw [hp] at htokens
    have hd : d' = d := by
      rw [compile, hp] at h
      exact Except.error.inj h
    rw [← hd]
    exact Program.mem_of_error htokens
  | ok p =>
    rw [hp] at htokens
    have hne : p.commands ≠ [] := by
      obtain ⟨c, -, hread⟩ := Option.map_eq_some_iff.1 htokens
      exact Program.commands_ne_nil_of_read hread
    have hd : p.compile requested = .error d := by
      rw [compile, hp] at h
      exact h
    exact Program.mem_of_mem_positions htokens (Program.mem_positions_of_compile_error hne hd)

namespace CommandLine

open Grammar Text

/-! ## The pad before the caret -/

/-- What stands before a caret under a column of a line is as wide as what stands there on the line,
with a tab where the line has one and a blank elsewhere. -/
structure Underlines (quoted pad : List Char) (column : Nat) : Prop where
  length_eq : pad.length = column - 1
  tab_iff : ∀ i < column - 1, pad[i]? = some '\t' ↔ quoted[i]? = some '\t'
  blank : ∀ c ∈ pad, c = '\t' ∨ c = ' '

theorem underlines_caretPad {line : List Char} {column : Nat} (h : column - 1 ≤ line.length) :
    Underlines line (caretPad line column) column where
  length_eq := by rw [caretPad, List.length_map, List.length_take, Nat.min_eq_left h]
  tab_iff i hi := by
    have hline := List.getElem?_eq_getElem (Nat.lt_of_lt_of_le hi h)
    rw [caretPad, List.getElem?_map, List.getElem?_take_of_lt hi, hline]
    simp
  blank c hc := by
    obtain ⟨a, -, rfl⟩ := List.mem_map.1 hc
    exact ite_eq_or_eq _ _ _

/-- The first line of a report. -/
def headline (file : String) (d : Diagnostic) : String :=
  let p := d.position
  s!"{file}:{p.line}:{p.column}: error[{d.issue.code}]: {d.issue.message}\n"

/-- A line that is quoted and the caret under it. -/
def quotation (line pad : List Char) : String :=
  "    " ++ String.ofList line ++ "\n    " ++ String.ofList pad ++ "^\n"

theorem explain_eq_headline {file source : String} {d : Diagnostic}
    (h : (lines source.toList)[d.position.line - 1]? = none) :
    explain file source d = headline file d := by
  simp only [explain, h]
  rfl

theorem explain_eq_quotation {file source : String} {d : Diagnostic} {line : List Char}
    (h : (lines source.toList)[d.position.line - 1]? = some line) :
    explain file source d =
      headline file d ++ quotation line (caretPad line d.position.column) := by
  simp only [explain, h, quotation, ← String.append_assoc]
  rfl

/-- Where a token stands its line has been opened by what stands before it, and then the token
follows. -/
theorem exists_lineAround {t : Token} {rest : List Char} (h : t.Starts rest)
    (before : List Char) :
    ∃ more, lineAround before rest = lineStart before ++ more ∧ more.head? = rest.head? := by
  cases rest with
  | nil => exact ⟨[], by rw [lineAround_nil, List.append_nil], rfl⟩
  | cons c cs =>
    have hblank : isBlank c = false := h.head_not_blank c rfl
    have hnewline : c ≠ '\n' := by
      rintro rfl
      cases hblank
    have hreturn : c ≠ '\r' := by
      rintro rfl
      cases hblank
    obtain ⟨more, hline⟩ := lineAround_cons hnewline hreturn before cs
    exact ⟨c :: more, hline, rfl⟩

/-- The caret stands under the error. A diagnostic of a source text is about the one token of the
text that has its position, which is the place where the token starts. If that is the end of file
and the last line is empty, then the report is its first line only. Otherwise the report quotes the
line on which the token starts, which for the end of file is the last line, and the caret stands
under the first character of the token, or behind the line if the token is the end of file. -/
theorem caret_stands_under_token (file : String) {source : String} {requested : Option String}
    {d : Diagnostic} (h : compile source requested = .error d) :
    ∃ t ∈ tokenize source, t.position = d.position ∧
      (∀ u ∈ tokenize source, u.position = d.position → u = t) ∧
      ∃ before rest, source.toList = before ++ rest ∧ t.position = .behind before ∧
        t.Starts rest ∧
        let unquoted := t.kind = .eof ∧ (source.toList = [] ∨ source.toList.getLast? = some '\n')
        (unquoted ∧ explain file source d = headline file d ∨
          ¬ unquoted ∧ ∃ quoted pad, (lines source.toList)[d.position.line - 1]? = some quoted ∧
            quoted = lineAround before rest ∧ Underlines quoted pad d.position.column ∧
            quoted[d.position.column - 1]? = rest.head? ∧
            explain file source d = headline file d ++ quotation quoted pad) := by
  obtain ⟨t, ht, hd⟩ := exists_token_of_compile_error h
  obtain ⟨before, rest, hsource, hplace, hstarts⟩ := exists_place_of_mem_tokenize ht
  refine ⟨t, ht, hd, fun u hu hud => eq_of_position_eq hu ht (hud.trans hd.symm), before, rest,
    hsource, hplace, hstarts, ?_⟩
  intro unquoted
  have hposition : d.position = .behind before := hd.symm.trans hplace
  have hline : d.position.line - 1 = before.count '\n' := by
    rw [hposition]
    rfl
  have hcolumn : d.position.column - 1 = (lineStart before).length := by
    rw [hposition]
    rfl
  have hlines := getElem?_lines before rest
  rw [← hsource, ← hline] at hlines
  have hunquoted : unquoted ↔ rest = [] ∧ lineStart before = [] := by
    simp only [unquoted, hstarts.eof_iff]
    refine and_congr_right fun hrest => ?_
    rw [lineStart_eq_nil_iff, hsource, hrest, List.append_nil]
  by_cases hempty : unquoted
  · rw [if_pos (hunquoted.1 hempty)] at hlines
    exact .inl ⟨hempty, explain_eq_headline hlines⟩
  · rw [if_neg (mt hunquoted.2 hempty)] at hlines
    obtain ⟨more, haround, hhead⟩ := exists_lineAround hstarts before
    have hwidth : d.position.column - 1 ≤ (lineAround before rest).length := by
      rw [hcolumn, haround, List.length_append]
      exact Nat.le_add_right _ _
    refine .inr ⟨hempty, _, _, hlines, rfl, underlines_caretPad hwidth, ?_,
      explain_eq_quotation hlines⟩
    rw [haround, hcolumn, List.getElem?_append_right (Nat.le_refl _), Nat.sub_self, ← hhead,
      List.head?_eq_getElem?]

/-- A call of a command that is not declared, behind tabs, with line endings of two characters. -/
def nap : String := "/* a\r\n */ void main() \x7b\r\n\t \tnap();\r\n\x7d"

/-- Its tokens but for the end of file. -/
def napTokens : List Token :=
  [⟨.keyword .void, ⟨2, 5⟩⟩, ⟨.ident "main", ⟨2, 10⟩⟩, ⟨.symbol .openParen, ⟨2, 14⟩⟩,
    ⟨.symbol .closeParen, ⟨2, 15⟩⟩, ⟨.symbol .openBrace, ⟨2, 17⟩⟩, ⟨.ident "nap", ⟨3, 4⟩⟩,
    ⟨.symbol .openParen, ⟨3, 7⟩⟩, ⟨.symbol .closeParen, ⟨3, 8⟩⟩, ⟨.symbol .semicolon, ⟨3, 9⟩⟩,
    ⟨.symbol .closeBrace, ⟨4, 1⟩⟩]

theorem compile_nap : compile nap none = .error ⟨.undefinedCommand "nap", ⟨3, 4⟩⟩ := by
  have htokens : tokenize nap = napTokens ++ [⟨.eof, ⟨4, 2⟩⟩] := by decide +kernel
  have hcall : IsStatement 63 _ _ := .call "nap" ⟨3, 4⟩ ⟨3, 7⟩ ⟨3, 8⟩ ⟨3, 9⟩
  have hcommand : IsCommand nestingLimit _ _ :=
    .void "main" ⟨2, 5⟩ ⟨2, 10⟩ ⟨2, 14⟩ ⟨2, 15⟩ (.braces ⟨2, 17⟩ ⟨4, 1⟩ (.cons hcall .nil))
  have hprogram : IsProgram nestingLimit napTokens _ :=
    ⟨List.cons_ne_nil _ _, .cons hcommand .nil⟩
  have hparse := Program.ofTokens?_tokenize nap
  rw [htokens, Program.ofTokens?_append, Program.read_of_isProgram rfl hprogram] at hparse
  rw [compile, ← Option.some.inj hparse]
  rfl

theorem compile_void_newline :
    compile "void\n" none = .error ⟨.missing .identifier .eof, ⟨2, 1⟩⟩ := by
  have htokens : tokenize "void\n" = [⟨.keyword .void, ⟨1, 1⟩⟩] ++ [⟨.eof, ⟨2, 1⟩⟩] := by
    decide +kernel
  have hread : Program.read ⟨⟨.keyword .void, ⟨1, 1⟩⟩, [⟨.eof, ⟨2, 1⟩⟩]⟩ =
      .error ⟨.missing .identifier .eof, ⟨2, 1⟩⟩ := Program.read_of_command_error rfl rfl
  have hparse := Program.ofTokens?_tokenize "void\n"
  rw [htokens, Program.ofTokens?_append] at hparse
  replace hparse := (Option.some.inj hparse).symm.trans hread
  rw [compile, hparse]
  rfl

/-- The caret stands under the call, and nothing is quoted for a program that breaks off at the end
of a line. -/
theorem nap_caret_stands_under_token :
    compile nap none = .error ⟨.undefinedCommand "nap", ⟨3, 4⟩⟩ ∧
    (∃ pad, Underlines "\t \tnap();".toList pad 4 ∧
      explain "nap.k" nap ⟨.undefinedCommand "nap", ⟨3, 4⟩⟩ =
        headline "nap.k" ⟨.undefinedCommand "nap", ⟨3, 4⟩⟩ ++
          quotation "\t \tnap();".toList pad) ∧
    compile "void\n" none = .error ⟨.missing .identifier .eof, ⟨2, 1⟩⟩ ∧
    explain "nap.k" "void\n" ⟨.missing .identifier .eof, ⟨2, 1⟩⟩ =
      headline "nap.k" ⟨.missing .identifier .eof, ⟨2, 1⟩⟩ := by
  refine ⟨compile_nap, ?_, compile_void_newline, ?_⟩
  · have hlast : ¬ (nap.toList = [] ∨ nap.toList.getLast? = some '\n') := by decide
    have hthird : (lines nap.toList)[2]? = some "\t \tnap();".toList := by decide +kernel
    obtain ⟨t, -, -, -, before, rest, -, -, -, hcases⟩ :=
      caret_stands_under_token "nap.k" compile_nap
    rcases hcases with ⟨⟨-, hend⟩, -⟩ | ⟨-, line, pad, hline, -, hunder, -, hexplain⟩
    · exact absurd hend hlast
    · cases hline.symm.trans hthird
      exact ⟨pad, hunder, hexplain⟩
  · have hsecond : (lines "void\n".toList)[1]? = none := by decide +kernel
    obtain ⟨t, -, -, -, before, rest, -, -, -, hcases⟩ :=
      caret_stands_under_token "nap.k" compile_void_newline
    rcases hcases with ⟨-, hexplain⟩ | ⟨-, line, pad, hline, -⟩
    · exact hexplain
    · cases hline.symm.trans hsecond

end CommandLine

end Karel
