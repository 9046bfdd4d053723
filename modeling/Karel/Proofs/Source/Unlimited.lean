import Karel.Proofs.Source.Grammar

/-! # The grammar without a nesting limit

What can be derived with some levels can be derived with more. The constructs of the language as
such, however deep they are nested, are those that can be derived with some number of levels; the
rules of the grammar hold for them with no levels to count.
-/
namespace Karel
namespace Grammar

mutual

theorem IsOperand.succ {n : Nat} {ts : List Token} {c : Condition} (h : IsOperand n ts c) :
    IsOperand (n + 1) ts c := by
  match h with
  | .query hq p p₁ p₂ => exact .query hq p p₁ p₂
  | .not p h => exact .not p h.succ
  | .group p p₁ h => exact .group p p₁ h.succ

theorem IsConjunction.succ {n left : Nat} {ts : List Token} {c : Condition}
    (h : IsConjunction n ts c left) : IsConjunction (n + 1) ts c (left + 1) := by
  match h with
  | .one h => exact .one h.succ
  | .more p hl hr => exact .more p hl.succ hr.succ

theorem IsDisjunction.succ {n left : Nat} {ts : List Token} {c : Condition}
    (h : IsDisjunction n ts c left) : IsDisjunction (n + 1) ts c (left + 1) := by
  match h with
  | .one h => exact .one h.succ
  | .more p hl hr => exact .more p hl.succ hr.succ

end

theorem IsCondition.succ {n : Nat} {ts : List Token} {c : Condition} (h : IsCondition n ts c) :
    IsCondition (n + 1) ts c := by
  obtain ⟨left, h⟩ := h
  exact ⟨left + 1, h.succ⟩

mutual

theorem IsBlock.succ {n : Nat} {ts : List Token} {ss : List Statement} (h : IsBlock n ts ss) :
    IsBlock (n + 1) ts ss := by
  match h with
  | .braces p p₁ h => exact .braces p p₁ h.succ

theorem IsSequence.succ {n : Nat} {ts : List Token} {ss : List Statement}
    (h : IsSequence n ts ss) : IsSequence (n + 1) ts ss := by
  match h with
  | .nil => exact .nil
  | .cons h hs => exact .cons h.succ hs.succ

theorem IsStatement.succ {n : Nat} {ts : List Token} {s : Statement} (h : IsStatement n ts s) :
    IsStatement (n + 1) ts s := by
  match h with
  | .call name p p₁ p₂ p₃ => exact .call name p p₁ p₂ p₃
  | .repeat p p₁ p₂ p₃ hc hb => exact .repeat p p₁ p₂ p₃ hc hb.succ
  | .while p p₁ p₂ hc hb => exact .while p p₁ p₂ hc.succ hb.succ
  | .branch h => exact .branch h.succ

theorem IsBranch.succ {n : Nat} {ts : List Token} {s : Statement} (h : IsBranch n ts s) :
    IsBranch (n + 1) ts s := by
  match h with
  | .plain p p₁ p₂ hc hy => exact .plain p p₁ p₂ hc.succ hy.succ
  | .orBlock p p₁ p₂ p₃ hc hy hn => exact .orBlock p p₁ p₂ p₃ hc.succ hy.succ hn.succ
  | .orIf p p₁ p₂ p₃ hc hy hn => exact .orIf p p₁ p₂ p₃ hc.succ hy.succ hn.succ

end

theorem IsCommand.succ {n : Nat} {ts : List Token} {a : Command} (h : IsCommand n ts a) :
    IsCommand (n + 1) ts a := by
  cases h with
  | void name p p₁ p₂ p₃ hb => exact .void name p p₁ p₂ p₃ hb.succ

theorem AreCommands.succ {n : Nat} {ts : List Token} {cs : List Command}
    (h : AreCommands n ts cs) : AreCommands (n + 1) ts cs := by
  induction h with
  | nil => exact .nil
  | cons h _ ih => exact .cons h.succ ih

section Levels

variable {α : Type}

/-- Derivable with some number of levels. -/
def Unlimited (R : Nat → List Token → α → Prop) (ts : List Token) (a : α) : Prop := ∃ n, R n ts a

/-- More levels do no harm. -/
def Rising (R : Nat → List Token → α → Prop) : Prop := ∀ ⦃n ts a⦄, R n ts a → R (n + 1) ts a

theorem Rising.le {R : Nat → List Token → α → Prop} (hR : Rising R) {n m : Nat} {ts : List Token}
    {a : α} (h : R n ts a) (hnm : n ≤ m) : R m ts a := by
  induction hnm with
  | refl => exact h
  | step _ ih => exact hR ih

/-- What is derivable apart is derivable with one number of levels. -/
theorem Unlimited.both {β : Type} {R : Nat → List Token → α → Prop}
    {S : Nat → List Token → β → Prop} (hR : Rising R) (hS : Rising S) {ts us : List Token} {a : α}
    {b : β} (hr : Unlimited R ts a) (hs : Unlimited S us b) : ∃ n, R n ts a ∧ S n us b := by
  obtain ⟨n, hn⟩ := hr
  obtain ⟨m, hm⟩ := hs
  exact ⟨max n m, hR.le hn (Nat.le_max_left n m), hS.le hm (Nat.le_max_right n m)⟩

end Levels

/-- Operands joined by `&&`, whatever levels they leave. -/
def IsChain (n : Nat) (ts : List Token) (c : Condition) : Prop := ∃ left, IsConjunction n ts c left

theorem rising_operand : Rising IsOperand := fun _ _ _ h => h.succ

theorem rising_condition : Rising IsCondition := fun _ _ _ h => h.succ

theorem rising_chain : Rising IsChain := by
  rintro n ts c ⟨left, h⟩
  exact ⟨left + 1, h.succ⟩

theorem rising_block : Rising IsBlock := fun _ _ _ h => h.succ

theorem rising_sequence : Rising IsSequence := fun _ _ _ h => h.succ

theorem rising_statement : Rising IsStatement := fun _ _ _ h => h.succ

theorem rising_branch : Rising IsBranch := fun _ _ _ h => h.succ

theorem rising_command : Rising IsCommand := fun _ _ _ h => h.succ

theorem rising_commands : Rising AreCommands := fun _ _ _ h => h.succ

/-! ## The rules without levels -/

namespace Unlimited

section Conditions

variable {ts us : List Token} {c l r : Condition}

theorem query {name : String} {q : Query} (hq : Query.ofName? name = some q) (p p₁ p₂ : Position) :
    Unlimited IsOperand
      [⟨.ident name, p⟩, ⟨.symbol .openParen, p₁⟩, ⟨.symbol .closeParen, p₂⟩] (.query q p) :=
  ⟨0, .query hq p p₁ p₂⟩

theorem not (p : Position) (h : Unlimited IsOperand ts c) :
    Unlimited IsOperand (⟨.symbol .bang, p⟩ :: ts) (.not c) := by
  obtain ⟨n, h⟩ := h
  exact ⟨n + 1, .not p h⟩

theorem group (p p₁ : Position) (h : Unlimited IsCondition ts c) :
    Unlimited IsOperand (⟨.symbol .openParen, p⟩ :: (ts ++ [⟨.symbol .closeParen, p₁⟩])) c := by
  obtain ⟨n, left, h⟩ := h
  exact ⟨n + 1, .group p p₁ h⟩

theorem chain (h : Unlimited IsOperand ts c) : Unlimited IsChain ts c := by
  obtain ⟨n, h⟩ := h
  exact ⟨n, n, .one h⟩

theorem condition (h : Unlimited IsChain ts c) : Unlimited IsCondition ts c := by
  obtain ⟨n, left, h⟩ := h
  exact ⟨n, n, .one h⟩

/-- Levels added in front are left over behind, as many as the right operand asks for. -/
theorem and (p : Position) (hl : Unlimited IsChain ts l) (hr : Unlimited IsOperand us r) :
    Unlimited IsChain (ts ++ ⟨.symbol .andAnd, p⟩ :: us) (.and l r) := by
  obtain ⟨n, left, hl⟩ := hl
  obtain ⟨m, hr⟩ := hr
  have hraised : ∀ k, IsConjunction (n + k) ts l (left + k) := by
    intro k
    induction k with
    | zero => exact hl
    | succ k ih => exact ih.succ
  have hright : IsOperand (left + m) us r := rising_operand.le hr (Nat.le_add_left m left)
  exact ⟨n + (m + 1), left + m, .more p (hraised (m + 1)) hright⟩

theorem or (p : Position) (hl : Unlimited IsCondition ts l) (hr : Unlimited IsChain us r) :
    Unlimited IsCondition (ts ++ ⟨.symbol .orOr, p⟩ :: us) (.or l r) := by
  obtain ⟨n, left, hl⟩ := hl
  have hraised : ∀ k, IsDisjunction (n + k) ts l (left + k) := by
    intro k
    induction k with
    | zero => exact hl
    | succ k ih => exact ih.succ
  obtain ⟨m, hr⟩ := hr
  obtain ⟨left', hright⟩ := rising_chain.le hr (Nat.le_add_left m left)
  exact ⟨n + (m + 1), left + m, .more p (hraised (m + 1)) hright⟩

end Conditions

section Statements

variable {ts us vs : List Token} {c : Condition} {s : Statement} {ss yes no : List Statement}

theorem braces (p p₁ : Position) (h : Unlimited IsSequence ts ss) :
    Unlimited IsBlock (⟨.symbol .openBrace, p⟩ :: (ts ++ [⟨.symbol .closeBrace, p₁⟩])) ss := by
  obtain ⟨n, h⟩ := h
  exact ⟨n + 1, .braces p p₁ h⟩

theorem nil : Unlimited IsSequence [] [] := ⟨0, .nil⟩

theorem cons (h : Unlimited IsStatement ts s) (hs : Unlimited IsSequence us ss) :
    Unlimited IsSequence (ts ++ us) (s :: ss) := by
  obtain ⟨n, h, hs⟩ := h.both rising_statement rising_sequence hs
  exact ⟨n, .cons h hs⟩

theorem call (name : String) (p p₁ p₂ p₃ : Position) :
    Unlimited IsStatement [⟨.ident name, p⟩, ⟨.symbol .openParen, p₁⟩,
      ⟨.symbol .closeParen, p₂⟩, ⟨.symbol .semicolon, p₃⟩] (.call name p) :=
  ⟨0, .call name p p₁ p₂ p₃⟩

theorem «repeat» {digits : String} {count : Nat} (p p₁ p₂ p₃ : Position)
    (hc : IsCount digits count) (hb : Unlimited IsBlock ts ss) :
    Unlimited IsStatement (⟨.keyword .repeat, p⟩ :: ⟨.symbol .openParen, p₁⟩ ::
      ⟨.number digits, p₂⟩ :: ⟨.symbol .closeParen, p₃⟩ :: ts) (.repeat count ss p) := by
  obtain ⟨n, hb⟩ := hb
  exact ⟨n, .repeat p p₁ p₂ p₃ hc hb⟩

theorem «while» (p p₁ p₂ : Position) (hc : Unlimited IsCondition ts c)
    (hb : Unlimited IsBlock us ss) :
    Unlimited IsStatement (⟨.keyword .while, p⟩ :: ⟨.symbol .openParen, p₁⟩ ::
      (ts ++ ⟨.symbol .closeParen, p₂⟩ :: us)) (.while c ss p) := by
  obtain ⟨n, hc, hb⟩ := hc.both rising_condition rising_block hb
  exact ⟨n, .while p p₁ p₂ hc hb⟩

theorem branch (h : Unlimited IsBranch ts s) : Unlimited IsStatement ts s := by
  obtain ⟨n, h⟩ := h
  exact ⟨n, .branch h⟩

theorem plain (p p₁ p₂ : Position) (hc : Unlimited IsCondition ts c)
    (hy : Unlimited IsBlock us yes) :
    Unlimited IsBranch (⟨.keyword .if, p⟩ :: ⟨.symbol .openParen, p₁⟩ ::
      (ts ++ ⟨.symbol .closeParen, p₂⟩ :: us)) (.if c yes p) := by
  obtain ⟨n, hc, hy⟩ := hc.both rising_condition rising_block hy
  exact ⟨n, .plain p p₁ p₂ hc hy⟩

theorem orBlock (p p₁ p₂ p₃ : Position) (hc : Unlimited IsCondition ts c)
    (hy : Unlimited IsBlock us yes) (hn : Unlimited IsBlock vs no) :
    Unlimited IsBranch (⟨.keyword .if, p⟩ :: ⟨.symbol .openParen, p₁⟩ ::
      (ts ++ ⟨.symbol .closeParen, p₂⟩ :: (us ++ ⟨.keyword .else, p₃⟩ :: vs)))
      (.ifElse c yes no p) := by
  obtain ⟨n, hc, hy⟩ := hc.both rising_condition rising_block hy
  obtain ⟨m, hn⟩ := hn
  have hc := rising_condition.le hc (Nat.le_max_left n m)
  have hy := rising_block.le hy (Nat.le_max_left n m)
  have hn := rising_block.le hn (Nat.le_max_right n m)
  exact ⟨max n m, .orBlock p p₁ p₂ p₃ hc hy hn⟩

theorem orIf (p p₁ p₂ p₃ : Position) (hc : Unlimited IsCondition ts c)
    (hy : Unlimited IsBlock us yes) (hn : Unlimited IsBranch vs s) :
    Unlimited IsBranch (⟨.keyword .if, p⟩ :: ⟨.symbol .openParen, p₁⟩ ::
      (ts ++ ⟨.symbol .closeParen, p₂⟩ :: (us ++ ⟨.keyword .else, p₃⟩ :: vs)))
      (.ifElse c yes [s] p) := by
  obtain ⟨n, hc, hy⟩ := hc.both rising_condition rising_block hy
  obtain ⟨m, hn⟩ := hn
  have hc := rising_condition.le hc.succ (Nat.succ_le_succ (Nat.le_max_left n m))
  have hy := rising_block.le hy.succ (Nat.succ_le_succ (Nat.le_max_left n m))
  have hn := rising_branch.le hn (Nat.le_max_right n m)
  exact ⟨max n m + 1, .orIf p p₁ p₂ p₃ hc hy hn⟩

end Statements

section Commands

variable {ts us : List Token} {body : List Statement} {a : Command} {cs : List Command}

theorem void (name : String) (p p₁ p₂ p₃ : Position) (hb : Unlimited IsBlock ts body) :
    Unlimited IsCommand (⟨.keyword .void, p⟩ :: ⟨.ident name, p₁⟩ :: ⟨.symbol .openParen, p₂⟩ ::
      ⟨.symbol .closeParen, p₃⟩ :: ts) ⟨name, body, p⟩ := by
  obtain ⟨n, hb⟩ := hb
  exact ⟨n, .void name p p₁ p₂ p₃ hb⟩

theorem noCommands : Unlimited AreCommands [] [] := ⟨0, .nil⟩

theorem commands (h : Unlimited IsCommand ts a) (hs : Unlimited AreCommands us cs) :
    Unlimited AreCommands (ts ++ us) (a :: cs) := by
  obtain ⟨n, h, hs⟩ := h.both rising_command rising_commands hs
  exact ⟨n, .cons h hs⟩

end Commands

/-! ## There are constructs of every sort -/

theorem exists_operand : ∃ ts c, Unlimited IsOperand ts c :=
  ⟨_, _, query (Query.ofName?_name .onBeeper) .start .start .start⟩

theorem exists_chain : ∃ ts c, Unlimited IsChain ts c := by
  obtain ⟨ts, c, h⟩ := exists_operand
  exact ⟨ts, c, h.chain⟩

theorem exists_condition : ∃ ts c, Unlimited IsCondition ts c := by
  obtain ⟨ts, c, h⟩ := exists_chain
  exact ⟨ts, c, h.condition⟩

theorem exists_block : ∃ ts ss, Unlimited IsBlock ts ss := ⟨_, _, nil.braces .start .start⟩

theorem exists_branch : ∃ ts s, Unlimited IsBranch ts s := by
  obtain ⟨ts, c, hc⟩ := exists_condition
  obtain ⟨us, yes, hy⟩ := exists_block
  exact ⟨_, _, plain .start .start .start hc hy⟩

theorem exists_statement : ∃ ts s, Unlimited IsStatement ts s := by
  obtain ⟨ts, s, h⟩ := exists_branch
  exact ⟨ts, s, h.branch⟩

theorem exists_command : ∃ ts a, Unlimited IsCommand ts a := by
  obtain ⟨ts, body, hb⟩ := exists_block
  exact ⟨_, _, void "main" .start .start .start .start hb⟩

end Unlimited

/-! ## Braces -/

/-- The braces that are open after a token, the innermost first, by where they stand. -/
def enclose (stack : List Position) (t : Token) : List Position :=
  match t.kind with
  | .symbol .openBrace => t.position :: stack
  | .symbol .closeBrace => stack.tail
  | _ => stack

/-- The braces that some tokens open and do not close, the innermost first. -/
def openBraces (ts : List Token) : List Position := ts.foldl enclose []

/-- Tokens that close all braces that they open and no other. -/
def Balanced (ts : List Token) : Prop := ∀ stack, ts.foldl enclose stack = stack

theorem Balanced.append {ts us : List Token} (ht : Balanced ts) (hu : Balanced us) :
    Balanced (ts ++ us) := by
  intro stack
  rw [List.foldl_append, ht, hu]

/-- Tokens other than braces do not matter. -/
theorem Balanced.cons {t : Token} {ts : List Token} (ht : ∀ stack, enclose stack t = stack)
    (h : Balanced ts) : Balanced (t :: ts) := by
  intro stack
  rw [List.foldl_cons, ht, h]

theorem Balanced.braces {ts : List Token} (p p₁ : Position) (h : Balanced ts) :
    Balanced (⟨.symbol .openBrace, p⟩ :: (ts ++ [⟨.symbol .closeBrace, p₁⟩])) := by
  intro stack
  rw [List.foldl_cons, List.foldl_append, h]
  rfl

mutual

theorem IsOperand.balanced {n : Nat} {ts : List Token} {c : Condition} (h : IsOperand n ts c) :
    Balanced ts := by
  match h with
  | .query hq p p₁ p₂ => exact fun stack => rfl
  | .not p h => exact h.balanced.cons fun stack => rfl
  | .group p p₁ h => exact (h.balanced.append fun stack => rfl).cons fun stack => rfl

theorem IsConjunction.balanced {n left : Nat} {ts : List Token} {c : Condition}
    (h : IsConjunction n ts c left) : Balanced ts := by
  match h with
  | .one h => exact h.balanced
  | .more p hl hr => exact hl.balanced.append (hr.balanced.cons fun stack => rfl)

theorem IsDisjunction.balanced {n left : Nat} {ts : List Token} {c : Condition}
    (h : IsDisjunction n ts c left) : Balanced ts := by
  match h with
  | .one h => exact h.balanced
  | .more p hl hr => exact hl.balanced.append (hr.balanced.cons fun stack => rfl)

end

/-- A keyword and a condition in parentheses before the rest of a statement. -/
theorem IsCondition.balanced {n : Nat} {ts us : List Token} {c : Condition} {w : Keyword}
    (h : IsCondition n ts c) (hu : Balanced us) (p p₁ p₂ : Position) :
    Balanced (⟨.keyword w, p⟩ :: ⟨.symbol .openParen, p₁⟩ ::
      (ts ++ ⟨.symbol .closeParen, p₂⟩ :: us)) := by
  obtain ⟨left, h⟩ := h
  have htail := h.balanced.append (hu.cons (t := ⟨.symbol .closeParen, p₂⟩) fun stack => rfl)
  exact (htail.cons fun stack => rfl).cons fun stack => rfl

mutual

theorem IsBlock.balanced {n : Nat} {ts : List Token} {ss : List Statement} (h : IsBlock n ts ss) :
    Balanced ts := by
  match h with
  | .braces p p₁ h => exact h.balanced.braces p p₁

theorem IsSequence.balanced {n : Nat} {ts : List Token} {ss : List Statement}
    (h : IsSequence n ts ss) : Balanced ts := by
  match h with
  | .nil => exact fun stack => rfl
  | .cons h hs => exact h.balanced.append hs.balanced

theorem IsStatement.balanced {n : Nat} {ts : List Token} {s : Statement}
    (h : IsStatement n ts s) : Balanced ts := by
  match h with
  | .call name p p₁ p₂ p₃ => exact fun stack => rfl
  | .repeat p p₁ p₂ p₃ hc hb => exact fun stack => hb.balanced stack
  | .while p p₁ p₂ hc hb => exact hc.balanced hb.balanced p p₁ p₂
  | .branch h => exact h.balanced

theorem IsBranch.balanced {n : Nat} {ts : List Token} {s : Statement} (h : IsBranch n ts s) :
    Balanced ts := by
  match h with
  | .plain p p₁ p₂ hc hy => exact hc.balanced hy.balanced p p₁ p₂
  | .orBlock p p₁ p₂ p₃ hc hy hn =>
    have helse := hn.balanced.cons (t := ⟨.keyword .else, p₃⟩) fun stack => rfl
    have htail := hy.balanced.append helse
    exact hc.balanced htail p p₁ p₂
  | .orIf p p₁ p₂ p₃ hc hy hn =>
    have helse := hn.balanced.cons (t := ⟨.keyword .else, p₃⟩) fun stack => rfl
    have htail := hy.balanced.append helse
    exact hc.balanced htail p p₁ p₂

end

end Grammar
end Karel
