import Karel.Proofs.Source.ConditionGrammar
import Karel.Proofs.Source.Count

/-! # The readers of statements follow the grammar

A statement ends before an `else` only if that `else` is its own: after a statement of the grammar
there stands a brace or the start of another statement.
-/
namespace Karel
namespace Reader

open Cursor Grammar

theorem isCount_iff {digits : String} {value : Nat}
    (hd : digits.toList ≠ [] ∧ ∀ c ∈ digits.toList, c.isDigit) :
    repeatCount? digits = some value ↔ IsCount digits value := by
  rw [repeatCount?_eq_some_iff hd.2]
  constructor
  · intro h
    exact ⟨hd.1, hd.2, h⟩
  · intro h
    exact h.2.2

theorem read_count {digits : String} {value : Nat} (h : IsCount digits value) (p : Position)
    (d : Cursor) : count (push ⟨.number digits, p⟩ d) = .ok (value, d) := by
  have hv := (isCount_iff ⟨h.1, h.2.1⟩).2 h
  unfold count
  rw [kind_push]
  dsimp only
  rw [hv, advance_push]

theorem count_sound :
    count.Sound fun ts value => ∃ digits p, ts = [⟨.number digits, p⟩] ∧ IsCount digits value := by
  intro k c a d hc hk h
  unfold count at h
  split at h
  · rename_i digits hkind
    have hdigits := hc.digits hkind
    obtain ⟨p, hp, he⟩ := hc.advance hkind (by simp)
    split at h
    · rename_i value hv
      cases h
      exact ⟨[⟨.number digits, p⟩], hp, he, digits, p, rfl, (isCount_iff hdigits).1 hv⟩
    · cases h
  · exact absurd h (missing_ne_ok _ _ _)

theorem statements_sound {n : Nat} {mover : Mover Statement}
    (hs : mover.read.Sound (IsStatement n)) (opening : Position) :
    Sound (statements mover opening) fun ts ss =>
      ∃ us p, ts = us ++ [⟨.symbol .closeBrace, p⟩] ∧ IsSequence n us ss := by
  intro k c ss d hc hk h
  fun_induction statements mover opening c generalizing ss d k with
  | case1 c hkind =>
    cases h
    obtain ⟨p, hp, he⟩ := hc.advance hkind (by simp)
    exact ⟨[⟨.symbol .closeBrace, p⟩], hp, he, [], p, rfl, .nil⟩
  | case2 => cases h
  | case3 => cases h
  | case4 => cases h
  | case5 c s c' hread hlt ss' c'' hss _ _ ih =>
    cases h
    obtain ⟨ts, rfl, hc', hts⟩ := hs.ok hc hread
    obtain ⟨us, hus, hd, vs, p, rfl, hvs⟩ := ih _ hc' rfl hss
    refine ⟨ts ++ (vs ++ [⟨.symbol .closeBrace, p⟩]), ?_, hd, ts ++ vs, p, ?_, .cons hts hvs⟩
    · rw [unread_append, ← hus]
    · rw [List.append_assoc]

theorem braced_sound {n : Nat} {mover : Mover Statement}
    (hs : mover.read.Sound (IsStatement n)) : (braced mover).Sound (IsBlock (n + 1)) := by
  refine position_sound fun opening => symbol_sound ((statements_sound hs opening).mono ?_)
  rintro ts ss ⟨us, p₁, rfl, hus⟩ p
  exact .braces p p₁ hus

theorem callStatement_sound {n : Nat} : callStatement.Sound (IsStatement n) := by
  refine position_identifier_sound fun p name => ?_
  refine symbol_sound (symbol_sound (symbol_sound (pure_sound ?_)))
  intro p₃ p₂ p₁
  exact .call name p p₁ p₂ p₃

theorem repeatStatement_sound {n : Nat} {block : Mover (List Statement)}
    (hb : block.read.Sound (IsBlock n)) : (repeatStatement block).Sound (IsStatement n) := by
  refine position_keyword_sound fun p => symbol_sound (count_sound.bind fun value => ?_)
  refine symbol_sound (hb.bind fun body => pure_sound ?_)
  rintro us hus p₃ ts ⟨digits, p₂, rfl, hdigits⟩ p₁
  rw [List.append_nil]
  exact .repeat p p₁ p₂ p₃ hdigits hus

theorem whileStatement_sound {n : Nat} {block : Mover (List Statement)}
    (hb : block.read.Sound (IsBlock n)) : (whileStatement n block).Sound (IsStatement n) := by
  refine position_keyword_sound fun p => symbol_sound ((condition_sound n).bind fun cond => ?_)
  refine symbol_sound (hb.bind fun body => pure_sound ?_)
  intro us hus p₂ ts hts p₁
  rw [List.append_nil]
  exact .while p p₁ p₂ hts hus

/-- An `else if` link is an `if` one level deeper. -/
def IsLink (n : Nat) (ts : List Token) (s : Statement) : Prop := ∃ m, n = m + 1 ∧ IsBranch m ts s

theorem elsePart_sound {n : Nat} {block : Mover (List Statement)} {elseIf : Mover Statement}
    (hb : block.read.Sound (IsBlock n)) (he : elseIf.read.Sound (IsLink n)) (cond : Condition)
    (yes : List Statement) (p : Position) :
    (elsePart block elseIf cond yes p).Sound fun vs s => ∀ p₁ p₂ ts us,
      IsCondition n ts cond → IsBlock n us yes →
        IsBranch n (⟨.keyword .if, p⟩ :: ⟨.symbol .openParen, p₁⟩ ::
          (ts ++ ⟨.symbol .closeParen, p₂⟩ :: (us ++ vs))) s := by
  refine peek_sound fun k => ?_
  split
  · rename_i hk
    subst hk
    refine advance_sound (by simp) (peek_sound fun k => ?_)
    split
    · refine hb.bind (fun no => pure_sound ?_) _
      intro vs hvs p₃ p₁ p₂ ts us hts hus
      rw [List.append_nil]
      exact .orBlock p p₁ p₂ p₃ hts hus hvs
    · refine he.bind (fun link => pure_sound ?_) _
      rintro vs ⟨m, rfl, hvs⟩ p₃ p₁ p₂ ts us hts hus
      rw [List.append_nil]
      exact .orIf p p₁ p₂ p₃ hts hus hvs
    · exact fail_sound _ _
  · refine pure_sound ?_ k
    intro p₁ p₂ ts us hts hus
    rw [List.append_nil]
    exact .plain p p₁ p₂ hts hus

theorem ifStatement_sound {n : Nat} {block : Mover (List Statement)} {elseIf : Mover Statement}
    (hb : block.read.Sound (IsBlock n)) (he : elseIf.read.Sound (IsLink n)) :
    (ifStatement n block elseIf).Sound (IsBranch n) := by
  refine position_keyword_sound fun p => symbol_sound ((condition_sound n).bind fun cond => ?_)
  refine symbol_sound (hb.bind fun yes => (elsePart_sound hb he cond yes p).mono ?_)
  intro vs s h us hus p₂ ts hts p₁
  exact h p₁ p₂ ts us hts hus

theorem statement_sound {n : Nat} {block : Mover (List Statement)} {elseIf : Mover Statement}
    (hb : block.read.Sound (IsBlock n)) (he : elseIf.read.Sound (IsLink n)) :
    (statement n block elseIf).Sound (IsStatement n) := by
  refine peek_sound fun k => ?_
  split
  · exact callStatement_sound _
  · exact repeatStatement_sound hb _
  · refine (ifStatement_sound hb he).mono ?_ _
    intro ts s h
    exact .branch h
  · exact whileStatement_sound hb _
  · intro c a d hc hk h
    cases h
  · exact fail_sound _ _
  · exact fail_sound _ _
  · exact fail_sound _ _

/-- Whatever is read one level deeper is a block or a link of the grammar. -/
theorem level_sound (n : Nat) :
    (Level.ofNat n).block.read.Sound (IsBlock n) ∧
      (Level.ofNat n).elseIf.read.Sound (IsLink n) := by
  induction n with
  | zero => exact ⟨fail_sound _, fail_sound _⟩
  | succ n ih =>
    obtain ⟨hb, he⟩ := ih
    refine ⟨braced_sound (statement_sound hb he), (ifStatement_sound hb he).mono ?_⟩
    intro ts s h
    exact ⟨n, rfl, h⟩

/-- What a statement may start with. -/
def Opens : Token.Kind → Prop
  | .ident _ => True
  | .keyword w => w = .repeat ∨ w = .if ∨ w = .while
  | _ => False

theorem opens_branch {n : Nat} {ts : List Token} {s : Statement} (h : IsBranch n ts s)
    (d : Cursor) : (unread ts d).kind = .keyword .if := by
  cases h <;> rfl

theorem opens_statement {n : Nat} {ts : List Token} {s : Statement} (h : IsStatement n ts s)
    (d : Cursor) : Opens (unread ts d).kind := by
  cases h with
  | call => trivial
  | «repeat» => exact .inl rfl
  | «while» => exact .inr (.inr rfl)
  | branch h =>
    rw [opens_branch h d]
    exact .inr (.inl rfl)

theorem opens_block {n : Nat} {ts : List Token} {ss : List Statement} (h : IsBlock n ts ss)
    (d : Cursor) : (unread ts d).kind = .symbol .openBrace := by
  cases h
  rfl

theorem kind_sequence_ne_else {n : Nat} {ts : List Token} {ss : List Statement}
    (h : IsSequence n ts ss) {d : Cursor} (hd : d.kind = .symbol .closeBrace) :
    (unread ts d).kind ≠ .keyword .else := by
  cases h with
  | nil => simp [hd]
  | @cons _ ts us s ss h hs =>
    have hopens := opens_statement h (unread us d)
    rw [unread_append]
    intro he
    simp [he, Opens] at hopens

/-- Before the end of a block there is a statement and then the rest of the block. -/
theorem statements_eq_bind {mover : Mover Statement} {opening : Position} {c : Cursor}
    (hbrace : c.kind ≠ .symbol .closeBrace) (heof : c.kind ≠ .eof) :
    statements mover opening c =
      (do let s ← mover.read; let ss ← statements mover opening; return s :: ss :
        Reader (List Statement)) c := by
  rw [statements]
  split
  · rename_i hk
    exact absurd hk hbrace
  · rename_i hk
    exact absurd hk heof
  · split
    · rename_i he
      exact (bind_eq_error.2 (.inl he)).symm
    · rename_i s c' he
      rw [bind_of_ok he]
      split
      · rename_i hrest
        exact (bind_eq_error.2 (.inl hrest)).symm
      · rename_i hrest
        rw [bind_of_ok hrest]
        rfl

theorem statements_cons {mover : Mover Statement} {opening : Position} {c c' d : Cursor}
    {s : Statement} {ss : List Statement} (hc : Opens c.kind) (hs : mover.read c = .ok (s, c'))
    (hss : statements mover opening c' = .ok (ss, d)) :
    statements mover opening c = .ok (s :: ss, d) := by
  rw [statements]
  split
  · rename_i hk
    simp [hk, Opens] at hc
  · rename_i hk
    simp [hk, Opens] at hc
  · split
    · rename_i he
      cases hs.symm.trans he
    · rename_i he
      cases hs.symm.trans he
      rw [hss]

/-- The reader of the statements of a block. -/
def inner (n : Nat) : Mover Statement :=
  ⟨statement n (Level.ofNat n).block (Level.ofNat n).elseIf, statement_moves _ _ _⟩

theorem inner_ident (n : Nat) (name : String) (p : Position) (d : Cursor) :
    (inner n).read (push ⟨.ident name, p⟩ d) = callStatement (push ⟨.ident name, p⟩ d) := rfl

theorem inner_repeat (n : Nat) (p : Position) (d : Cursor) :
    (inner n).read (push ⟨.keyword .repeat, p⟩ d) =
      repeatStatement (Level.ofNat n).block (push ⟨.keyword .repeat, p⟩ d) := rfl

theorem inner_while (n : Nat) (p : Position) (d : Cursor) :
    (inner n).read (push ⟨.keyword .while, p⟩ d) =
      whileStatement n (Level.ofNat n).block (push ⟨.keyword .while, p⟩ d) := rfl

theorem inner_if {n : Nat} {c : Cursor} (hc : c.kind = .keyword .if) :
    (inner n).read c = ifStatement n (Level.ofNat n).block (Level.ofNat n).elseIf c := by
  change (peek >>= _) c = _
  rw [peek_bind, hc]

/-- A condition in the parentheses of a statement. -/
theorem guard_bind {β : Type} {n : Nat} {ts : List Token} {cond : Condition}
    (h : IsCondition n ts cond) (f : Condition → Reader β) (p₁ p₂ : Position) (e : Cursor) :
    (do symbol .openParen; let cond ← condition n; symbol .closeParen; f cond)
      (push ⟨.symbol .openParen, p₁⟩ (unread ts (push ⟨.symbol .closeParen, p₂⟩ e))) =
        f cond e := by
  rw [symbol_bind, bind_of_ok (read_condition h (by simp) (by simp)), symbol_bind]

theorem elsePart_done {block : Mover (List Statement)} {elseIf : Mover Statement}
    {cond : Condition} {yes : List Statement} {p : Position} {d : Cursor}
    (hd : d.kind ≠ .keyword .else) :
    elsePart block elseIf cond yes p d = .ok (.if cond yes p, d) := by
  unfold elsePart
  rw [peek_bind, if_neg hd]
  rfl

theorem elsePart_block {block : Mover (List Statement)} {elseIf : Mover Statement}
    {cond : Condition} {yes no : List Statement} {p p₃ : Position} {c d : Cursor}
    (hc : c.kind = .symbol .openBrace) (h : block.read c = .ok (no, d)) :
    elsePart block elseIf cond yes p (push ⟨.keyword .else, p₃⟩ c) =
      .ok (.ifElse cond yes no p, d) := by
  unfold elsePart
  rw [peek_bind, kind_push, if_pos rfl, advance_bind, advance_push, peek_bind, hc]
  exact bind_of_ok h

theorem elsePart_link {block : Mover (List Statement)} {elseIf : Mover Statement}
    {cond : Condition} {yes : List Statement} {link : Statement} {p p₃ : Position} {c d : Cursor}
    (hc : c.kind = .keyword .if) (h : elseIf.read c = .ok (link, d)) :
    elsePart block elseIf cond yes p (push ⟨.keyword .else, p₃⟩ c) =
      .ok (.ifElse cond yes [link] p, d) := by
  unfold elsePart
  rw [peek_bind, kind_push, if_pos rfl, advance_bind, advance_push, peek_bind, hc]
  exact bind_of_ok h

theorem ifStatement_push {n : Nat} {block : Mover (List Statement)} {elseIf : Mover Statement}
    {ts : List Token} {cond : Condition} {yes : List Statement} {e d : Cursor}
    (hc : IsCondition n ts cond) (p p₁ p₂ : Position) (hy : block.read e = .ok (yes, d)) :
    ifStatement n block elseIf (push ⟨.keyword .if, p⟩ (push ⟨.symbol .openParen, p₁⟩
      (unread ts (push ⟨.symbol .closeParen, p₂⟩ e)))) = elsePart block elseIf cond yes p d := by
  unfold ifStatement
  rw [position_bind, keyword_bind, guard_bind hc]
  exact bind_of_ok hy

mutual

theorem read_block {n : Nat} {ts : List Token} {ss : List Statement} (h : IsBlock n ts ss)
    (d : Cursor) : (Level.ofNat n).block.read (unread ts d) = .ok (ss, d) := by
  match h with
  | @IsBlock.braces n ts _ p p₁ h =>
    have hr := read_sequence h p (d := push ⟨.symbol .closeBrace, p₁⟩ d) rfl
    change braced (inner n) _ = _
    rw [unread_cons, unread_append, unread_cons, unread_nil, braced, position_bind, symbol_bind]
    exact hr

theorem read_sequence {n : Nat} {ts : List Token} {ss : List Statement} (h : IsSequence n ts ss)
    (opening : Position) {d : Cursor} (hd : d.kind = .symbol .closeBrace) :
    statements (inner n) opening (unread ts d) = .ok (ss, d.advance) := by
  match h with
  | .nil =>
    rw [unread_nil, statements, hd]
  | @IsSequence.cons _ ts us _ _ h hs =>
    have hr := read_statement h (kind_sequence_ne_else hs hd)
    have hrs := read_sequence hs opening hd
    rw [unread_append]
    exact statements_cons (opens_statement h _) hr hrs

theorem read_statement {n : Nat} {ts : List Token} {s : Statement} (h : IsStatement n ts s)
    {d : Cursor} (hd : d.kind ≠ .keyword .else) :
    (inner n).read (unread ts d) = .ok (s, d) := by
  match h with
  | .call name p p₁ p₂ p₃ =>
    simp only [unread_cons, unread_nil]
    rw [inner_ident, callStatement, position_bind, identifier_bind, symbol_bind, symbol_bind,
      symbol_bind]
    rfl
  | .repeat p p₁ p₂ p₃ hc hb =>
    have hr := read_block hb d
    simp only [unread_cons]
    rw [inner_repeat, repeatStatement, position_bind, keyword_bind, symbol_bind,
      bind_of_ok (read_count hc p₂ _), symbol_bind, bind_of_ok hr]
    rfl
  | .while p p₁ p₂ hc hb =>
    have hr := read_block hb d
    simp only [unread_cons, unread_append]
    rw [inner_while, whileStatement, position_bind, keyword_bind, guard_bind hc, bind_of_ok hr]
    rfl
  | .branch h =>
    have hr := read_branch h hd
    rw [inner_if (opens_branch h d)]
    exact hr

theorem read_branch {n : Nat} {ts : List Token} {s : Statement} (h : IsBranch n ts s)
    {d : Cursor} (hd : d.kind ≠ .keyword .else) :
    ifStatement n (Level.ofNat n).block (Level.ofNat n).elseIf (unread ts d) = .ok (s, d) := by
  match h with
  | .plain p p₁ p₂ hc hy =>
    have hr := read_block hy d
    simp only [unread_cons, unread_append]
    rw [ifStatement_push hc p p₁ p₂ hr, elsePart_done hd]
  | @IsBranch.orBlock _ _ _ vs _ _ _ p p₁ p₂ p₃ hc hy hn =>
    have hr := read_block hy (push ⟨.keyword .else, p₃⟩ (unread vs d))
    have hrn := read_block hn d
    simp only [unread_cons, unread_append]
    rw [ifStatement_push hc p p₁ p₂ hr, elsePart_block (opens_block hn d) hrn]
  | @IsBranch.orIf _ _ _ vs _ _ _ p p₁ p₂ p₃ hc hy hn =>
    have hr := read_block hy (push ⟨.keyword .else, p₃⟩ (unread vs d))
    have hrn := read_branch hn hd
    simp only [unread_cons, unread_append]
    rw [ifStatement_push hc p p₁ p₂ hr]
    exact elsePart_link (opens_branch hn d) hrn

end

end Reader
end Karel
