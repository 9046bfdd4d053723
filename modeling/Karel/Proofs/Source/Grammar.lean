import Karel.Source.ReadProgram

/-! # The grammar

What a list of tokens has to look like, said without any reader. Each rule relates the tokens of a
construct, from its first to its last, to the tree that they stand for; the tree takes its positions
from the first tokens of its constructs.

Every rule is given the nesting levels that are left. A block, an `else if` link, the operand of `!`
and a pair of parentheses go one level deeper. In a chain of operators each right operand goes one
level deeper than the one before it; the rules for chains therefore also say how many levels the
operators so far have left. Chains group from the left, and `&&` binds tighter than `||`.
-/
namespace Karel
namespace Grammar

/-- The digits of a repeat count and its value. -/
def IsCount (digits : String) (value : Nat) : Prop :=
  digits.toList ≠ [] ∧ (∀ c ∈ digits.toList, c.isDigit) ∧ value = Text.decimalValue digits.toList ∧
    leastCount ≤ value ∧ value ≤ greatestCount

mutual

/-- `! operand`, `( condition )` or `query ( )`. -/
inductive IsOperand : Nat → List Token → Condition → Prop where
  | query {levels : Nat} {name : String} {q : Query} (hq : Query.ofName? name = some q)
      (p p₁ p₂ : Position) :
      IsOperand levels
        [⟨.ident name, p⟩, ⟨.symbol .openParen, p₁⟩, ⟨.symbol .closeParen, p₂⟩] (.query q p)
  | not {levels : Nat} {ts : List Token} {c : Condition} (p : Position)
      (h : IsOperand levels ts c) : IsOperand (levels + 1) (⟨.symbol .bang, p⟩ :: ts) (.not c)
  | group {levels left : Nat} {ts : List Token} {c : Condition} (p p₁ : Position)
      (h : IsDisjunction levels ts c left) :
      IsOperand (levels + 1)
        (⟨.symbol .openParen, p⟩ :: (ts ++ [⟨.symbol .closeParen, p₁⟩])) c

/-- Operands joined by `&&`. -/
inductive IsConjunction : Nat → List Token → Condition → Nat → Prop where
  | one {levels : Nat} {ts : List Token} {c : Condition} (h : IsOperand levels ts c) :
      IsConjunction levels ts c levels
  | more {levels left : Nat} {ts us : List Token} {l r : Condition} (p : Position)
      (hl : IsConjunction levels ts l (left + 1)) (hr : IsOperand left us r) :
      IsConjunction levels (ts ++ ⟨.symbol .andAnd, p⟩ :: us) (.and l r) left

/-- Conjunctions joined by `||`. -/
inductive IsDisjunction : Nat → List Token → Condition → Nat → Prop where
  | one {levels left : Nat} {ts : List Token} {c : Condition}
      (h : IsConjunction levels ts c left) : IsDisjunction levels ts c levels
  | more {levels left left' : Nat} {ts us : List Token} {l r : Condition} (p : Position)
      (hl : IsDisjunction levels ts l (left + 1)) (hr : IsConjunction left us r left') :
      IsDisjunction levels (ts ++ ⟨.symbol .orOr, p⟩ :: us) (.or l r) left

end

/-- A condition. -/
def IsCondition (levels : Nat) (ts : List Token) (c : Condition) : Prop :=
  ∃ left, IsDisjunction levels ts c left

mutual

/-- `{ statements }`. -/
inductive IsBlock : Nat → List Token → List Statement → Prop where
  | braces {levels : Nat} {ts : List Token} {ss : List Statement} (p p₁ : Position)
      (h : IsSequence levels ts ss) :
      IsBlock (levels + 1)
        (⟨.symbol .openBrace, p⟩ :: (ts ++ [⟨.symbol .closeBrace, p₁⟩])) ss

/-- Statements one after the other. -/
inductive IsSequence : Nat → List Token → List Statement → Prop where
  | nil {levels : Nat} : IsSequence levels [] []
  | cons {levels : Nat} {ts us : List Token} {s : Statement} {ss : List Statement}
      (h : IsStatement levels ts s) (hs : IsSequence levels us ss) :
      IsSequence levels (ts ++ us) (s :: ss)

/-- A call, a `repeat`, a `while` or an `if`. -/
inductive IsStatement : Nat → List Token → Statement → Prop where
  | call {levels : Nat} (name : String) (p p₁ p₂ p₃ : Position) :
      IsStatement levels
        [⟨.ident name, p⟩, ⟨.symbol .openParen, p₁⟩, ⟨.symbol .closeParen, p₂⟩,
          ⟨.symbol .semicolon, p₃⟩] (.call name p)
  | repeat {levels count : Nat} {digits : String} {ts : List Token} {body : List Statement}
      (p p₁ p₂ p₃ : Position) (hc : IsCount digits count) (hb : IsBlock levels ts body) :
      IsStatement levels
        (⟨.keyword .repeat, p⟩ :: ⟨.symbol .openParen, p₁⟩ :: ⟨.number digits, p₂⟩ ::
          ⟨.symbol .closeParen, p₃⟩ :: ts) (.repeat count body p)
  | while {levels : Nat} {ts us : List Token} {c : Condition} {body : List Statement}
      (p p₁ p₂ : Position) (hc : IsCondition levels ts c) (hb : IsBlock levels us body) :
      IsStatement levels
        (⟨.keyword .while, p⟩ :: ⟨.symbol .openParen, p₁⟩ ::
          (ts ++ ⟨.symbol .closeParen, p₂⟩ :: us)) (.while c body p)
  | branch {levels : Nat} {ts : List Token} {s : Statement} (h : IsBranch levels ts s) :
      IsStatement levels ts s

/-- An `if`, with no `else`, with an `else` and a block, or with an `else` and another `if`. -/
inductive IsBranch : Nat → List Token → Statement → Prop where
  | plain {levels : Nat} {ts us : List Token} {c : Condition} {yes : List Statement}
      (p p₁ p₂ : Position) (hc : IsCondition levels ts c) (hy : IsBlock levels us yes) :
      IsBranch levels
        (⟨.keyword .if, p⟩ :: ⟨.symbol .openParen, p₁⟩ ::
          (ts ++ ⟨.symbol .closeParen, p₂⟩ :: us)) (.if c yes p)
  | orBlock {levels : Nat} {ts us vs : List Token} {c : Condition} {yes no : List Statement}
      (p p₁ p₂ p₃ : Position) (hc : IsCondition levels ts c) (hy : IsBlock levels us yes)
      (hn : IsBlock levels vs no) :
      IsBranch levels
        (⟨.keyword .if, p⟩ :: ⟨.symbol .openParen, p₁⟩ ::
          (ts ++ ⟨.symbol .closeParen, p₂⟩ :: (us ++ ⟨.keyword .else, p₃⟩ :: vs)))
        (.ifElse c yes no p)
  | orIf {levels : Nat} {ts us vs : List Token} {c : Condition} {yes : List Statement}
      {link : Statement} (p p₁ p₂ p₃ : Position) (hc : IsCondition (levels + 1) ts c)
      (hy : IsBlock (levels + 1) us yes) (hn : IsBranch levels vs link) :
      IsBranch (levels + 1)
        (⟨.keyword .if, p⟩ :: ⟨.symbol .openParen, p₁⟩ ::
          (ts ++ ⟨.symbol .closeParen, p₂⟩ :: (us ++ ⟨.keyword .else, p₃⟩ :: vs)))
        (.ifElse c yes [link] p)

end

/-- `void name ( ) block`. -/
inductive IsCommand (levels : Nat) : List Token → Command → Prop where
  | void {ts : List Token} {body : List Statement} (name : String) (p p₁ p₂ p₃ : Position)
      (hb : IsBlock levels ts body) :
      IsCommand levels
        (⟨.keyword .void, p⟩ :: ⟨.ident name, p₁⟩ :: ⟨.symbol .openParen, p₂⟩ ::
          ⟨.symbol .closeParen, p₃⟩ :: ts) ⟨name, body, p⟩

/-- Commands one after the other. -/
inductive AreCommands (levels : Nat) : List Token → List Command → Prop where
  | nil : AreCommands levels [] []
  | cons {ts us : List Token} {c : Command} {cs : List Command} (h : IsCommand levels ts c)
      (hs : AreCommands levels us cs) : AreCommands levels (ts ++ us) (c :: cs)

/-- A program has one command or more. -/
def IsProgram (levels : Nat) (ts : List Token) (p : Program) : Prop :=
  p.commands ≠ [] ∧ AreCommands levels ts p.commands

end Grammar
end Karel
