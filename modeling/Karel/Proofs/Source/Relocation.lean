import Karel.Proofs.Source.ProgramGrammar

/-! # Moving tokens to other places

A function on positions moves tokens, and with them everything that is read from them. No reader
looks at a position: it takes positions over into what it gives or into the diagnostic with which it
stops. So to move the tokens and read them is to read them and move the result, which is
`Program.ofTokens?_relocate`. It follows that no position is made up: what is read has the positions
of tokens and no others.
-/
namespace Karel

/-- A token of the same kind at another place. -/
def Token.relocate (f : Position → Position) (t : Token) : Token := ⟨t.kind, f t.position⟩

def Cursor.relocate (f : Position → Position) (c : Cursor) : Cursor :=
  ⟨c.current.relocate f, c.rest.map (Token.relocate f)⟩

/-- The same issue at another place. -/
def Diagnostic.relocate (f : Position → Position) (d : Diagnostic) : Diagnostic :=
  ⟨d.issue, f d.position⟩

@[simp]
def Condition.relocate (f : Position → Position) : Condition → Condition
  | .query q p => .query q (f p)
  | .not c => .not (c.relocate f)
  | .and l r => .and (l.relocate f) (r.relocate f)
  | .or l r => .or (l.relocate f) (r.relocate f)

mutual

@[simp]
def Statement.relocate (f : Position → Position) : Statement → Statement
  | .call name p => .call name (f p)
  | .repeat count body p => .repeat count (relocateBlock f body) (f p)
  | .if c yes p => .if (c.relocate f) (relocateBlock f yes) (f p)
  | .ifElse c yes no p => .ifElse (c.relocate f) (relocateBlock f yes) (relocateBlock f no) (f p)
  | .while c body p => .while (c.relocate f) (relocateBlock f body) (f p)

@[simp]
def Statement.relocateBlock (f : Position → Position) : List Statement → List Statement
  | [] => []
  | s :: ss => s.relocate f :: relocateBlock f ss

end

def Command.relocate (f : Position → Position) (c : Command) : Command :=
  ⟨c.name, Statement.relocateBlock f c.body, f c.position⟩

def Program.relocate (f : Position → Position) (p : Program) : Program :=
  ⟨p.commands.map (Command.relocate f)⟩

@[simp]
def Condition.positions : Condition → List Position
  | .query _ p => [p]
  | .not c => c.positions
  | .and l r => l.positions ++ r.positions
  | .or l r => l.positions ++ r.positions

mutual

@[simp]
def Statement.positions : Statement → List Position
  | .call _ p => [p]
  | .repeat _ body p => p :: blockPositions body
  | .if c yes p => p :: c.positions ++ blockPositions yes
  | .ifElse c yes no p => p :: c.positions ++ blockPositions yes ++ blockPositions no
  | .while c body p => p :: c.positions ++ blockPositions body

@[simp]
def Statement.blockPositions : List Statement → List Position
  | [] => []
  | s :: ss => s.positions ++ blockPositions ss

end

/-- All positions that a program keeps. -/
def Program.positions (p : Program) : List Position :=
  p.commands.flatMap fun c => c.position :: Statement.blockPositions c.body

/-- A result or a diagnostic, whichever it is, moved to where the tokens are moved. -/
def relocated {α : Type} (f : Position → Position) (move : α → α) :
    Except Diagnostic α → Except Diagnostic α
  | .ok a => .ok (move a)
  | .error diag => .error (diag.relocate f)

variable {f : Position → Position}

theorem Condition.positions_relocate (c : Condition) :
    (c.relocate f).positions = c.positions.map f := by
  induction c with
  | query q p => rfl
  | not c ih => exact ih
  | and l r ihl ihr => simp [ihl, ihr]
  | or l r ihl ihr => simp [ihl, ihr]

mutual

theorem Statement.positions_relocate : ∀ s : Statement,
    (s.relocate f).positions = s.positions.map f
  | .call _ _ => rfl
  | .repeat _ body _ => by simp [blockPositions_relocate body]
  | .if c yes _ => by simp [c.positions_relocate, blockPositions_relocate yes]
  | .ifElse c yes no _ => by
    simp [c.positions_relocate, blockPositions_relocate yes, blockPositions_relocate no]
  | .while c body _ => by simp [c.positions_relocate, blockPositions_relocate body]

theorem Statement.blockPositions_relocate : ∀ ss : List Statement,
    blockPositions (relocateBlock f ss) = (blockPositions ss).map f
  | [] => rfl
  | s :: ss => by simp [positions_relocate s, blockPositions_relocate ss]

end

theorem Program.positions_relocate (p : Program) :
    (p.relocate f).positions = p.positions.map f := by
  simp [positions, relocate, Command.relocate, Statement.blockPositions_relocate,
    List.flatMap_map, List.map_flatMap]

namespace Cursor

@[simp] theorem kind_relocate (c : Cursor) : (c.relocate f).kind = c.kind := rfl

@[simp] theorem position_relocate (c : Cursor) : (c.relocate f).position = f c.position := rfl

@[simp] theorem advance_relocate (c : Cursor) :
    (c.relocate f).advance = c.advance.relocate f := by
  obtain ⟨t, ts⟩ := c
  cases ts with
  | nil => rfl
  | cons u us => rfl

theorem kindAt_relocate (c : Cursor) (n : Nat) : (c.relocate f).kindAt n = c.kindAt n := by
  have htokens : (c.relocate f).current :: (c.relocate f).rest =
      (c.current :: c.rest).map (Token.relocate f) := rfl
  rw [kindAt, kindAt, htokens, List.getElem?_map]
  cases (c.current :: c.rest)[n]? with
  | none => rfl
  | some t => rfl

end Cursor

namespace Reader

variable {α β : Type}

/-- One reader does on tokens that are moved what another does on the tokens as they stand. -/
def Follows (f : Position → Position) (move : α → α) (r r' : Reader α) : Prop :=
  ∀ c, r' (c.relocate f) = relocated f (Prod.map move (Cursor.relocate f)) (r c)

variable {move : α → α} {move' : β → β}

theorem pure_follows {a b : α} (h : move a = b) : Follows f move (pure a) (pure b) := by
  intro c
  rw [← h]
  rfl

theorem fail_follows (issue : Issue) : Follows f move (fail issue) (fail issue) := fun _ => rfl

theorem missing_follows (what : Expected) : Follows f move (missing what) (missing what) := by
  intro c
  unfold missing
  rw [Cursor.kind_relocate]
  cases c.kind with
  | _ => rfl

theorem bind_relocate {r r' : Reader α} {k k' : α → Reader β} {c : Cursor}
    (hr : r' (c.relocate f) = relocated f (Prod.map move (Cursor.relocate f)) (r c))
    (hk : ∀ a d, r c = .ok (a, d) →
      k' (move a) (d.relocate f) = relocated f (Prod.map move' (Cursor.relocate f)) (k a d)) :
    (r' >>= k') (c.relocate f) =
      relocated f (Prod.map move' (Cursor.relocate f)) ((r >>= k) c) := by
  cases h : r c with
  | error diag =>
    rw [h] at hr
    rw [bind_eq_error.2 (.inl h), bind_eq_error.2 (.inl hr)]
    rfl
  | ok x =>
    obtain ⟨a, d⟩ := x
    rw [h] at hr
    rw [bind_of_ok h, bind_of_ok hr, ← hk a d h]

theorem Follows.bind {r r' : Reader α} {k k' : α → Reader β} (hr : Follows f move r r')
    (hk : ∀ a, Follows f move' (k a) (k' (move a))) :
    Follows f move' (r >>= k) (r' >>= k') :=
  fun c => bind_relocate (hr c) fun a d _ => hk a d

theorem peek_follows {k k' : Token.Kind → Reader β}
    (h : ∀ kind, Follows f move' (k kind) (k' kind)) :
    Follows f move' (peek >>= k) (peek >>= k') := fun c => h c.kind c

theorem position_follows : Follows f f position position := fun _ => rfl

theorem advance_follows : Follows f id advance advance := by
  intro c
  rw [advance, advance, Cursor.advance_relocate]
  rfl

theorem symbol_follows (s : Symbol) : Follows f id (symbol s) (symbol s) := by
  intro c
  rw [symbol, symbol, Cursor.kind_relocate, Cursor.advance_relocate]
  split
  · rfl
  · exact missing_follows _ c

theorem keyword_follows (w : Keyword) : Follows f id (keyword w) (keyword w) := by
  intro c
  rw [keyword, keyword, Cursor.kind_relocate, Cursor.advance_relocate]
  split
  · rfl
  · exact missing_follows _ c

theorem identifier_follows : Follows f id identifier identifier := by
  intro c
  rw [identifier, identifier, Cursor.kind_relocate, Cursor.advance_relocate]
  split
  · rfl
  · exact missing_follows _ c

theorem count_follows : Follows f id count count := by
  intro c
  rw [count, count, Cursor.kind_relocate, Cursor.advance_relocate, Cursor.position_relocate]
  split
  · split
    · rfl
    · rfl
  · exact missing_follows _ c

/-! ## Conditions -/

theorem query_follows (name : String) :
    Follows f (Condition.relocate f) (query name) (query name) := by
  unfold query
  split
  · exact position_follows.bind fun _ => advance_follows.bind fun _ => (symbol_follows _).bind
      fun _ => (symbol_follows _).bind fun _ => pure_follows rfl
  · exact fail_follows _

theorem operandWith_follows {negated grouped : Reader Condition}
    (hn : Follows f (Condition.relocate f) negated negated)
    (hg : Follows f (Condition.relocate f) grouped grouped) :
    Follows f (Condition.relocate f) (operandWith negated grouped)
      (operandWith negated grouped) := by
  refine peek_follows fun kind => ?_
  split
  · exact advance_follows.bind fun _ => hn.bind fun _ => pure_follows rfl
  · exact advance_follows.bind fun _ => hg.bind fun _ => (symbol_follows _).bind
      fun _ => pure_follows rfl
  · exact query_follows _
  · exact fail_follows _
  · exact missing_follows _

theorem tailWith_follows {more more' : Reader Condition} (operator : Symbol) (left : Condition)
    (hm : Follows f (Condition.relocate f) more more') :
    Follows f (Condition.relocate f) (tailWith operator left more)
      (tailWith operator (left.relocate f) more') := by
  refine peek_follows fun kind => ?_
  split
  · exact advance_follows.bind fun _ => hm
  · exact pure_follows rfl

/-- The readers with `n` levels left follow themselves; those that go on after a left part follow
from that part to where it is moved. -/
structure LevelFollows (f : Position → Position) (n : Nat) : Prop where
  operand : Follows f (Condition.relocate f) (operand n) (operand n)
  conjunctionTail : ∀ left, Follows f (Condition.relocate f) (conjunctionTail n left)
    (conjunctionTail n (left.relocate f))
  conditionTail : ∀ left, Follows f (Condition.relocate f) (conditionTail n left)
    (conditionTail n (left.relocate f))

namespace LevelFollows

variable {n : Nat}

theorem conjunction (h : LevelFollows f n) :
    Follows f (Condition.relocate f) (conjunction n) (conjunction n) :=
  h.operand.bind fun first => h.conjunctionTail first

theorem condition (h : LevelFollows f n) :
    Follows f (Condition.relocate f) (condition n) (condition n) :=
  h.conjunction.bind fun first => h.conditionTail first

theorem zero : LevelFollows f 0 where
  operand := operandWith_follows (fail_follows _) (fail_follows _)
  conjunctionTail left := tailWith_follows _ left (fail_follows _)
  conditionTail left := tailWith_follows _ left (fail_follows _)

theorem succ (h : LevelFollows f n) : LevelFollows f (n + 1) := by
  refine ⟨?_, fun left => ?_, fun left => ?_⟩
  · rw [operand_succ]
    exact operandWith_follows h.operand h.condition
  · rw [conjunctionTail_succ, conjunctionTail_succ]
    exact tailWith_follows _ left (h.operand.bind fun right => h.conjunctionTail (.and left right))
  · rw [conditionTail_succ, conditionTail_succ]
    exact tailWith_follows _ left
      (h.conjunction.bind fun right => h.conditionTail (.or left right))

end LevelFollows

theorem levelFollows (n : Nat) : LevelFollows f n := by
  induction n with
  | zero => exact .zero
  | succ n ih => exact ih.succ

theorem condition_follows (n : Nat) :
    Follows f (Condition.relocate f) (condition n) (condition n) := (levelFollows n).condition

/-! ## Statements -/

variable {block : Mover (List Statement)} {elseIf : Mover Statement}

theorem callStatement_follows :
    Follows f (Statement.relocate f) callStatement callStatement :=
  position_follows.bind fun _ => identifier_follows.bind fun _ => (symbol_follows _).bind
    fun _ => (symbol_follows _).bind fun _ => (symbol_follows _).bind fun _ => pure_follows rfl

theorem repeatStatement_follows
    (hb : Follows f (Statement.relocateBlock f) block.read block.read) :
    Follows f (Statement.relocate f) (repeatStatement block) (repeatStatement block) :=
  position_follows.bind fun _ => (keyword_follows _).bind fun _ => (symbol_follows _).bind
    fun _ => count_follows.bind fun _ => (symbol_follows _).bind fun _ => hb.bind
      fun _ => pure_follows rfl

theorem whileStatement_follows (n : Nat)
    (hb : Follows f (Statement.relocateBlock f) block.read block.read) :
    Follows f (Statement.relocate f) (whileStatement n block) (whileStatement n block) :=
  position_follows.bind fun _ => (keyword_follows _).bind fun _ => (symbol_follows _).bind
    fun _ => (condition_follows n).bind fun _ => (symbol_follows _).bind fun _ => hb.bind
      fun _ => pure_follows rfl

theorem elsePart_follows (hb : Follows f (Statement.relocateBlock f) block.read block.read)
    (he : Follows f (Statement.relocate f) elseIf.read elseIf.read) (c : Condition)
    (yes : List Statement) (p : Position) :
    Follows f (Statement.relocate f) (elsePart block elseIf c yes p)
      (elsePart block elseIf (c.relocate f) (Statement.relocateBlock f yes) (f p)) := by
  refine peek_follows fun kind => ?_
  split
  · refine advance_follows.bind fun _ => peek_follows fun next => ?_
    by_cases hbrace : next = .symbol .openBrace
    · subst hbrace
      exact hb.bind fun _ => pure_follows rfl
    · by_cases hif : next = .keyword .if
      · subst hif
        exact he.bind fun _ => pure_follows rfl
      · split
        · exact absurd rfl hbrace
        · exact absurd rfl hif
        · exact fail_follows _
  · exact pure_follows rfl

theorem ifStatement_follows (n : Nat)
    (hb : Follows f (Statement.relocateBlock f) block.read block.read)
    (he : Follows f (Statement.relocate f) elseIf.read elseIf.read) :
    Follows f (Statement.relocate f) (ifStatement n block elseIf) (ifStatement n block elseIf) :=
  position_follows.bind fun p => (keyword_follows _).bind fun _ => (symbol_follows _).bind
    fun _ => (condition_follows n).bind fun c => (symbol_follows _).bind fun _ => hb.bind
      fun yes => elsePart_follows hb he c yes p

theorem strayVoid_relocate (c : Cursor) : strayVoid (c.relocate f) = strayVoid c := by
  unfold strayVoid
  extract_lets header
  have hhead : ((c.relocate f).rest.dropWhile header).head? =
      (c.rest.dropWhile header).head?.map (Token.relocate f) := by
    change ((c.rest.map (Token.relocate f)).dropWhile header).head? = _
    rw [List.dropWhile_map, List.head?_map]
    rfl
  rw [hhead]
  cases (c.rest.dropWhile header).head? with
  | none => rfl
  | some t =>
    obtain ⟨kind, p⟩ := t
    cases kind with
    | symbol s => cases s <;> rfl
    | _ => rfl

theorem statement_follows (n : Nat)
    (hb : Follows f (Statement.relocateBlock f) block.read block.read)
    (he : Follows f (Statement.relocate f) elseIf.read elseIf.read) :
    Follows f (Statement.relocate f) (statement n block elseIf) (statement n block elseIf) := by
  refine peek_follows fun kind => ?_
  split
  · exact callStatement_follows
  · exact repeatStatement_follows hb
  · exact ifStatement_follows n hb he
  · exact whileStatement_follows n hb
  · intro c
    change fail (strayVoid (c.relocate f)) (c.relocate f) = _
    rw [strayVoid_relocate]
    exact fail_follows _ c
  · exact fail_follows _
  · exact fail_follows _
  · exact fail_follows _

theorem statements_follows {mover : Mover Statement}
    (hm : Follows f (Statement.relocate f) mover.read mover.read) (opening : Position) :
    Follows f (Statement.relocateBlock f) (statements mover opening)
      (statements mover (f opening)) := by
  intro c
  -- the statement that is read first leaves fewer tokens for the others
  induction hn : c.remaining using Nat.strong_induction_on generalizing c with
  | _ n ih =>
    by_cases hbrace : c.kind = .symbol .closeBrace
    · rw [statements, statements, Cursor.kind_relocate, hbrace, Cursor.advance_relocate]
      rfl
    · by_cases heof : c.kind = .eof
      · rw [statements, statements, Cursor.kind_relocate, heof]
        rfl
      · rw [statements_eq_bind hbrace heof, statements_eq_bind (c := c.relocate f) hbrace heof]
        refine bind_relocate (hm c) fun s d hread => ?_
        have hlt := mover.moves c d s hread
        exact bind_relocate (ih _ (hn ▸ hlt) d rfl) fun ss e _ => rfl

theorem braced_follows {mover : Mover Statement}
    (hm : Follows f (Statement.relocate f) mover.read mover.read) :
    Follows f (Statement.relocateBlock f) (braced mover) (braced mover) :=
  position_follows.bind fun opening => (symbol_follows _).bind fun _ =>
    statements_follows hm opening

theorem level_follows (n : Nat) :
    Follows f (Statement.relocateBlock f) (Level.ofNat n).block.read (Level.ofNat n).block.read ∧
      Follows f (Statement.relocate f) (Level.ofNat n).elseIf.read (Level.ofNat n).elseIf.read := by
  induction n with
  | zero => exact ⟨fail_follows _, fail_follows _⟩
  | succ n ih =>
    obtain ⟨hb, he⟩ := ih
    exact ⟨braced_follows (statement_follows n hb he), ifStatement_follows n hb he⟩

/-! ## Programs -/

theorem command_follows : Follows f (Command.relocate f) command command :=
  position_follows.bind fun _ => (keyword_follows _).bind fun _ => identifier_follows.bind
    fun _ => (symbol_follows _).bind fun _ => (symbol_follows _).bind fun _ =>
      (level_follows nestingLimit).1.bind fun _ => pure_follows rfl

theorem headsCall_relocate (c : Cursor) : headsCall (c.relocate f) = headsCall c := by
  simp only [headsCall, Cursor.kindAt_relocate]

theorem strayAtTop_relocate (c : Cursor) : strayAtTop (c.relocate f) = strayAtTop c := by
  rw [strayAtTop, strayAtTop, Cursor.kind_relocate, headsCall_relocate]

theorem commands_relocate (c : Cursor) :
    commands (c.relocate f) = relocated f (List.map (Command.relocate f)) (commands c) := by
  induction hn : c.remaining using Nat.strong_induction_on generalizing c with
  | _ n ih =>
    have hcommand := command_follows (f := f) c
    by_cases hvoid : c.kind = .keyword .void
    · cases hread : command c with
      | error diag =>
        rw [hread] at hcommand
        rw [commands_of_command_error hvoid hread]
        exact commands_of_command_error hvoid hcommand
      | ok x =>
        obtain ⟨a, d⟩ := x
        rw [hread] at hcommand
        have hlt := command_moves c d a hread
        rw [commands_of_command_ok hvoid hread,
          commands_of_command_ok (c := c.relocate f) hvoid hcommand, ih _ (hn ▸ hlt) d rfl]
        cases commands d with
        | error diag => rfl
        | ok others => rfl
    · by_cases heof : c.kind = .eof
      · rw [commands, commands, Cursor.kind_relocate, heof]
        rfl
      · rw [commands_of_stray heof hvoid, commands_of_stray (c := c.relocate f) heof hvoid,
          strayAtTop_relocate]
        rfl

end Reader

namespace Program

theorem read_relocate (c : Cursor) :
    read (c.relocate f) = relocated f (Program.relocate f) (read c) := by
  unfold read
  rw [Cursor.kind_relocate]
  split
  · rw [Reader.strayAtTop_relocate]
    rfl
  · rw [Reader.commands_relocate]
    cases Reader.commands c with
    | error diag => rfl
    | ok cs => rfl

/-- To move tokens and read them is to read them and move what is read. -/
theorem ofTokens?_relocate (f : Position → Position) (ts : List Token) :
    ofTokens? (ts.map (Token.relocate f)) =
      (ofTokens? ts).map (relocated f (Program.relocate f)) := by
  cases ts with
  | nil => rfl
  | cons t ts => exact congrArg some (read_relocate ⟨t, ts⟩)

/-! ## Where positions come from -/

/-- Leaves the tokens of a list where they stand and moves everything else. -/
def disturb (ts : List Token) (p : Position) : Position :=
  if p ∈ ts.map Token.position then p else ⟨p.line + 1, p.column⟩

theorem mem_of_disturb_eq {ts : List Token} {p : Position} (h : disturb ts p = p) :
    ∃ t ∈ ts, t.position = p := by
  unfold disturb at h
  split at h
  · next hp => exact List.mem_map.1 hp
  · have hline := congrArg Position.line h
    simp at hline

/-- What is read does not notice that everything else has moved. -/
theorem relocated_disturb {ts : List Token} {x : Except Diagnostic Program}
    (h : ofTokens? ts = some x) :
    relocated (disturb ts) (Program.relocate (disturb ts)) x = x := by
  have hsame : ts.map (Token.relocate (disturb ts)) = ts.map id := by
    refine List.map_congr_left fun t ht => ?_
    have hp : disturb ts t.position = t.position := if_pos (List.mem_map_of_mem ht)
    rw [Token.relocate, hp, id]
  have hread := ofTokens?_relocate (disturb ts) ts
  rw [hsame, List.map_id, h] at hread
  exact (Option.some.inj hread).symm

/-- The positions of a program that is read are positions of tokens. -/
theorem mem_of_mem_positions {ts : List Token} {p : Program} (h : ofTokens? ts = some (.ok p))
    {a : Position} (ha : a ∈ p.positions) : ∃ t ∈ ts, t.position = a := by
  have hsame : p.relocate (disturb ts) = p := Except.ok.inj (relocated_disturb h)
  have hpositions : p.positions.map (disturb ts) = p.positions.map id := by
    rw [← positions_relocate, hsame, List.map_id]
  exact mem_of_disturb_eq (List.map_inj_left.1 hpositions a ha)

/-- So is the position of a diagnostic. -/
theorem mem_of_error {ts : List Token} {diag : Diagnostic} (h : ofTokens? ts = some (.error diag)) :
    ∃ t ∈ ts, t.position = diag.position := by
  have hsame : diag.relocate (disturb ts) = diag := Except.error.inj (relocated_disturb h)
  exact mem_of_disturb_eq (congrArg Diagnostic.position hsame)

end Program

/-! ## Numbers in place of positions -/

/-- The number of a token in its list, in place of a position. -/
def Position.number (i : Nat) : Position := ⟨0, i⟩

/-- Tokens of given kinds that have their numbers for positions. -/
def numbered (kinds : List Token.Kind) : List Token := kinds.mapIdx fun i k => ⟨k, .number i⟩

/-- Where the token of a list stands that has a given number. -/
def placeIn (ts : List Token) (p : Position) : Position :=
  (ts[p.column]?.map Token.position).getD p

theorem placeIn_number {ts : List Token} {i : Nat} {t : Token} (h : ts[i]? = some t) :
    placeIn ts (.number i) = t.position := by
  simp [placeIn, Position.number, h]

theorem numbered_relocate (ts : List Token) :
    (numbered (ts.map Token.kind)).map (Token.relocate (placeIn ts)) = ts := by
  refine List.ext_getElem? fun i => ?_
  cases h : ts[i]? with
  | none => simp [numbered, h]
  | some t => simp [numbered, h, Token.relocate, placeIn_number h]

theorem exists_of_mem_numbered {kinds : List Token.Kind} {t : Token} (h : t ∈ numbered kinds) :
    ∃ i < kinds.length, t.position = .number i := by
  obtain ⟨i, hi, rfl⟩ := List.mem_mapIdx.1 h
  exact ⟨i, hi, rfl⟩

/-- Tokens are read by their kinds alone; their positions come in where the numbers stand. -/
theorem Program.ofTokens?_eq_numbered (ts : List Token) :
    ofTokens? ts = (ofTokens? (numbered (ts.map Token.kind))).map
      (relocated (placeIn ts) (Program.relocate (placeIn ts))) := by
  conv_lhs => rw [← numbered_relocate ts, ofTokens?_relocate]

end Karel
