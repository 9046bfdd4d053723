import Karel.Diagnostic

/-! # Reading tokens

A cursor stands on a token and has the later ones ahead of it. It never leaves the last token: to
advance from there is to stay. A `Reader` looks at the cursor, and either moves it on and gives a
result or stops with a diagnostic.

Since advancing may stay, a reader is not known to move just because it advances. It does move when
it finds two different tokens one after the other, and every statement and every command begins
with two such tokens; `Reader.Moves` is that property, `Reader.KeepsBehind` the weaker one that all
readers have.
-/

namespace Karel

structure Cursor where
  current : Token
  rest : List Token

namespace Cursor

/-- The cursor at the start of a list of tokens, unless there are none. -/
def ofList? : List Token → Option Cursor
  | [] => none
  | t :: ts => some ⟨t, ts⟩

def kind (c : Cursor) : Token.Kind := c.current.kind

def position (c : Cursor) : Position := c.current.position

def remaining (c : Cursor) : Nat := c.rest.length

/-- The cursor on the next token; the last token is never left. -/
def advance (c : Cursor) : Cursor :=
  match c.rest with
  | [] => c
  | t :: ts => ⟨t, ts⟩

/-- The kind of a token ahead; beyond the last token everything is the end of the file. -/
def kindAt (c : Cursor) (n : Nat) : Token.Kind :=
  match (c.current :: c.rest)[n]? with
  | some t => t.kind
  | none => .eof

theorem remaining_advance_le (c : Cursor) : c.advance.remaining ≤ c.remaining := by
  unfold advance remaining
  split <;> simp_all

theorem remaining_advance_lt {c : Cursor} (h : c.advance.kind ≠ c.kind) :
    c.advance.remaining < c.remaining := by
  unfold advance remaining at *
  split at h
  · exact absurd rfl h
  · simp_all

end Cursor

/-- A computation that reads tokens. -/
abbrev Reader (α : Type) := StateT Cursor (Except Diagnostic) α

namespace Reader

variable {α β : Type}

def peek : Reader Token.Kind := fun c => .ok (c.kind, c)

def position : Reader Position := fun c => .ok (c.position, c)

def advance : Reader Unit := fun c => .ok ((), c.advance)

/-- Stops with an issue at the token under the cursor. -/
def fail (issue : Issue) : Reader α := fun c => .error ⟨issue, c.position⟩

/-- Stops because something is not there; a token that is itself invalid is reported instead. -/
def missing (what : Expected) : Reader α := fun c =>
  match c.kind with
  | .invalid message => .error ⟨.invalidText message, c.position⟩
  | found => .error ⟨.missing what found, c.position⟩

def symbol (s : Symbol) : Reader Unit := fun c =>
  if c.kind = .symbol s then .ok ((), c.advance) else missing (.symbol s) c

def keyword (k : Keyword) : Reader Unit := fun c =>
  if c.kind = .keyword k then .ok ((), c.advance) else missing (.keyword k) c

def identifier : Reader String := fun c =>
  match c.kind with
  | .ident name => .ok (name, c.advance)
  | _ => missing .identifier c

def tooDeep : Reader α := fail .tooDeep

theorem bind_eq_ok {r : Reader α} {f : α → Reader β} {c d : Cursor} {b : β} :
    (r >>= f) c = .ok (b, d) ↔ ∃ a e, r c = .ok (a, e) ∧ f a e = .ok (b, d) := by
  change (Except.bind (r c) fun x => f x.1 x.2) = .ok (b, d) ↔ _
  cases r c with
  | error _ => simp [Except.bind]
  | ok x =>
    obtain ⟨a, e⟩ := x
    constructor
    · exact fun h => ⟨a, e, rfl, h⟩
    · rintro ⟨_, _, h, hf⟩
      cases h
      exact hf

theorem symbol_eq_ok {s : Symbol} {c d : Cursor} {u : Unit} :
    symbol s c = .ok (u, d) ↔ c.kind = .symbol s ∧ d = c.advance := by
  unfold symbol
  split
  · simp_all [eq_comm]
  · unfold missing
    split <;> simp_all

theorem keyword_eq_ok {k : Keyword} {c d : Cursor} {u : Unit} :
    keyword k c = .ok (u, d) ↔ c.kind = .keyword k ∧ d = c.advance := by
  unfold keyword
  split
  · simp_all [eq_comm]
  · unfold missing
    split <;> simp_all

theorem identifier_eq_ok {name : String} {c d : Cursor} :
    identifier c = .ok (name, d) ↔ c.kind = .ident name ∧ d = c.advance := by
  unfold identifier
  split
  · simp_all [eq_comm]
  · unfold missing
    split <;> simp_all

theorem missing_ne_ok (what : Expected) (c : Cursor) (r : α × Cursor) :
    missing what c ≠ .ok r := by
  unfold missing
  split <;> simp

/-- A reader that never goes back. -/
def KeepsBehind (r : Reader α) : Prop :=
  ∀ (c d : Cursor) (a : α), r c = .ok (a, d) → d.remaining ≤ c.remaining

/-- A reader that, when it succeeds, has gone on. -/
def Moves (r : Reader α) : Prop :=
  ∀ (c d : Cursor) (a : α), r c = .ok (a, d) → d.remaining < c.remaining

theorem Moves.keepsBehind {r : Reader α} (h : Moves r) : KeepsBehind r :=
  fun c d a e => Nat.le_of_lt (h c d a e)

theorem pure_keepsBehind (a : α) : KeepsBehind (pure a : Reader α) := by
  intro c d b h
  cases h
  exact Nat.le_refl _

theorem peek_keepsBehind : KeepsBehind peek := by
  intro c d a h
  cases h
  exact Nat.le_refl _

theorem position_keepsBehind : KeepsBehind position := by
  intro c d a h
  cases h
  exact Nat.le_refl _

theorem advance_keepsBehind : KeepsBehind advance := by
  intro c d a h
  cases h
  exact c.remaining_advance_le

theorem fail_moves (issue : Issue) : Moves (fail issue : Reader α) := by
  intro c d a h
  cases h

theorem missing_moves (what : Expected) : Moves (missing what : Reader α) :=
  fun _ _ _ h => absurd h (missing_ne_ok _ _ _)

theorem symbol_keepsBehind (s : Symbol) : KeepsBehind (symbol s) := by
  intro c d a h
  obtain ⟨-, rfl⟩ := symbol_eq_ok.1 h
  exact c.remaining_advance_le

theorem KeepsBehind.bind {r : Reader α} {f : α → Reader β} (hr : KeepsBehind r)
    (hf : ∀ a, KeepsBehind (f a)) : KeepsBehind (r >>= f) := by
  intro c d b h
  obtain ⟨a, e, he, hd⟩ := bind_eq_ok.1 h
  exact Nat.le_trans (hf a e d b hd) (hr c e a he)

theorem KeepsBehind.bind_moves {r : Reader α} {f : α → Reader β} (hr : KeepsBehind r)
    (hf : ∀ a, Moves (f a)) : Moves (r >>= f) := by
  intro c d b h
  obtain ⟨a, e, he, hd⟩ := bind_eq_ok.1 h
  exact Nat.lt_of_lt_of_le (hf a e d b hd) (hr c e a he)

/-- A keyword and a symbol after it are two different tokens. -/
theorem keyword_symbol_moves {k : Keyword} {s : Symbol} {f : Reader β} (hf : KeepsBehind f) :
    Moves (do keyword k; symbol s; f) := by
  intro c d b h
  obtain ⟨_, e, he, h⟩ := bind_eq_ok.1 h
  obtain ⟨_, e', he', h⟩ := bind_eq_ok.1 h
  obtain ⟨hk, rfl⟩ := keyword_eq_ok.1 he
  obtain ⟨hs, rfl⟩ := symbol_eq_ok.1 he'
  have h1 := Cursor.remaining_advance_lt (c := c) (by simp [hk, hs])
  have h2 := c.advance.remaining_advance_le
  have h3 := hf _ _ _ h
  omega

theorem keyword_identifier_moves {k : Keyword} {f : String → Reader β}
    (hf : ∀ name, KeepsBehind (f name)) :
    Moves (do keyword k; let name ← identifier; f name) := by
  intro c d b h
  obtain ⟨_, e, he, h⟩ := bind_eq_ok.1 h
  obtain ⟨name, e', he', h⟩ := bind_eq_ok.1 h
  obtain ⟨hk, rfl⟩ := keyword_eq_ok.1 he
  obtain ⟨hs, rfl⟩ := identifier_eq_ok.1 he'
  have h1 := Cursor.remaining_advance_lt (c := c) (by simp [hk, hs])
  have h2 := c.advance.remaining_advance_le
  have h3 := hf name _ _ _ h
  omega

theorem identifier_symbol_moves {s : Symbol} {f : String → Reader β}
    (hf : ∀ name, KeepsBehind (f name)) :
    Moves (do let name ← identifier; symbol s; f name) := by
  intro c d b h
  obtain ⟨name, e, he, h⟩ := bind_eq_ok.1 h
  obtain ⟨_, e', he', h⟩ := bind_eq_ok.1 h
  obtain ⟨hk, rfl⟩ := identifier_eq_ok.1 he
  obtain ⟨hs, rfl⟩ := symbol_eq_ok.1 he'
  have h1 := Cursor.remaining_advance_lt (c := c) (by simp [hk, hs])
  have h2 := c.advance.remaining_advance_le
  have h3 := hf name _ _ _ h
  omega

end Reader

/-- A reader together with the fact that it moves. -/
structure Mover (α : Type) where
  read : Reader α
  moves : Reader.Moves read

end Karel
