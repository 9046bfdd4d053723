import Karel.Source.Cursor

/-! # Going back over tokens

What a reader has read stands before the cursor that it leaves. `Cursor.unread` goes back over it,
so that a cursor is given by where a reader will leave it and the tokens up to there. A cursor is
`Closed` if its end of file is its last token: there alone a reader may advance without going on.
-/
namespace Karel
namespace Cursor

/-- The cursor on a token that stands right before another cursor. -/
def push (t : Token) (d : Cursor) : Cursor := ⟨t, d.current :: d.rest⟩

/-- The cursor on the first of the tokens that stand before another cursor. -/
def unread (ts : List Token) (d : Cursor) : Cursor := ts.foldr push d

@[simp] theorem kind_push (t : Token) (d : Cursor) : (push t d).kind = t.kind := rfl

@[simp] theorem advance_push (t : Token) (d : Cursor) : (push t d).advance = d := rfl

@[simp] theorem unread_nil (d : Cursor) : unread [] d = d := rfl

@[simp] theorem unread_cons (t : Token) (ts : List Token) (d : Cursor) :
    unread (t :: ts) d = push t (unread ts d) := rfl

@[simp] theorem unread_append (ts us : List Token) (d : Cursor) :
    unread (ts ++ us) d = unread ts (unread us d) := List.foldr_append

theorem tokens_unread (ts : List Token) (d : Cursor) :
    (unread ts d).current :: (unread ts d).rest = ts ++ d.current :: d.rest := by
  induction ts with
  | nil => rfl
  | cons t ts ih => exact congrArg (t :: ·) ih

/-- What stands under the cursor after going back over tokens does not depend on what stands beyond
the token where the cursor was. -/
theorem current_unread {d d' : Cursor} (h : d'.current = d.current) (ts : List Token) :
    (unread ts d').current = (unread ts d).current := by
  cases ts with
  | nil => exact h
  | cons t ts => rfl

theorem kind_unread {d d' : Cursor} (h : d'.current = d.current) (ts : List Token) :
    (unread ts d').kind = (unread ts d).kind := congrArg Token.kind (current_unread h ts)

theorem position_unread {d d' : Cursor} (h : d'.current = d.current) (ts : List Token) :
    (unread ts d').position = (unread ts d).position :=
  congrArg Token.position (current_unread h ts)

theorem ofList?_append (ts : List Token) (t : Token) :
    ofList? (ts ++ [t]) = some (unread ts ⟨t, []⟩) := by
  rw [← tokens_unread ts ⟨t, []⟩]
  rfl

/-- The last token is the only end of file, and every numeral is some digits. -/
inductive Closed : Cursor → Prop where
  | last {t : Token} (ht : t.kind = .eof) : Closed ⟨t, []⟩
  | push {t : Token} {d : Cursor} (ht : t.kind ≠ .eof)
      (hn : ∀ digits, t.kind = .number digits →
        digits.toList ≠ [] ∧ ∀ c ∈ digits.toList, c.isDigit)
      (hd : Closed d) : Closed (push t d)

theorem Closed.unread {ts : List Token} {d : Cursor} (ht : ∀ t ∈ ts, t.kind ≠ .eof)
    (hn : ∀ t ∈ ts, ∀ digits, t.kind = .number digits →
      digits.toList ≠ [] ∧ ∀ c ∈ digits.toList, c.isDigit)
    (hd : d.Closed) : (unread ts d).Closed := by
  induction ts with
  | nil => exact hd
  | cons t ts ih =>
    have htail := ih (fun u hu => ht u (by simp [hu])) fun u hu => hn u (by simp [hu])
    exact .push (ht t (by simp)) (hn t (by simp)) htail

/-- Before its last token a closed cursor goes on when it advances. -/
theorem Closed.advance {c : Cursor} (hc : c.Closed) {k : Token.Kind} (hk : c.kind = k)
    (hne : k ≠ .eof) : ∃ p, c = Cursor.push ⟨k, p⟩ c.advance ∧ c.advance.Closed := by
  subst hk
  cases hc with
  | last ht => exact absurd ht hne
  | @push t d ht hn hd => exact ⟨t.position, rfl, hd⟩

theorem Closed.of_push {t : Token} {d : Cursor} (h : (Cursor.push t d).Closed) : d.Closed := by
  generalize hc : Cursor.push t d = c at h
  cases h with
  | last ht => cases hc
  | @push t' d' ht hn hd =>
    cases d
    cases d'
    cases hc
    exact hd

theorem Closed.of_unread {ts : List Token} {d : Cursor} (h : (Cursor.unread ts d).Closed) :
    d.Closed := by
  induction ts with
  | nil => exact h
  | cons t ts ih => exact ih h.of_push

theorem Closed.rest_eq_nil {d : Cursor} (h : d.Closed) (hd : d.kind = .eof) : d.rest = [] := by
  cases h with
  | last ht => rfl
  | push ht hn hd' => exact absurd hd ht

theorem Closed.digits {c : Cursor} (hc : c.Closed) {digits : String}
    (hk : c.kind = .number digits) : digits.toList ≠ [] ∧ ∀ a ∈ digits.toList, a.isDigit := by
  cases hc with
  | last ht => exact absurd (ht.symm.trans hk) (by simp)
  | push ht hn hd => exact hn digits hk

end Cursor

namespace Reader

open Cursor

variable {α β : Type}

theorem bind_of_ok {r : Reader α} {f : α → Reader β} {c e : Cursor} {a : α}
    (h : r c = .ok (a, e)) : (r >>= f) c = f a e := by
  change (Except.bind (r c) fun x => f x.1 x.2) = f a e
  rw [h]
  rfl

theorem bind_eq_error {r : Reader α} {f : α → Reader β} {c : Cursor} {diag : Diagnostic} :
    (r >>= f) c = .error diag ↔
      r c = .error diag ∨ ∃ a e, r c = .ok (a, e) ∧ f a e = .error diag := by
  change (Except.bind (r c) fun x => f x.1 x.2) = .error diag ↔ _
  cases r c with
  | error diag' => simp [Except.bind]
  | ok x =>
    obtain ⟨a, e⟩ := x
    constructor
    · intro h
      exact .inr ⟨a, e, rfl, h⟩
    · rintro (h | ⟨_, _, h, hf⟩)
      · cases h
      · cases h
        exact hf

@[simp] theorem peek_bind (f : Token.Kind → Reader β) (c : Cursor) :
    (peek >>= f) c = f c.kind c := rfl

@[simp] theorem position_bind (f : Position → Reader β) (c : Cursor) :
    (position >>= f) c = f c.position c := rfl

@[simp] theorem advance_bind (f : Unit → Reader β) (c : Cursor) :
    (advance >>= f) c = f () c.advance := rfl

@[simp] theorem symbol_bind (s : Symbol) (p : Position) (f : Unit → Reader β) (d : Cursor) :
    (symbol s >>= f) (push ⟨.symbol s, p⟩ d) = f () d :=
  bind_of_ok (symbol_eq_ok.2 ⟨rfl, rfl⟩)

@[simp] theorem keyword_bind (k : Keyword) (p : Position) (f : Unit → Reader β) (d : Cursor) :
    (keyword k >>= f) (push ⟨.keyword k, p⟩ d) = f () d :=
  bind_of_ok (keyword_eq_ok.2 ⟨rfl, rfl⟩)

@[simp] theorem identifier_bind (name : String) (p : Position) (f : String → Reader β)
    (d : Cursor) : (identifier >>= f) (push ⟨.ident name, p⟩ d) = f name d :=
  bind_of_ok (identifier_eq_ok.2 ⟨rfl, rfl⟩)

/-- Whatever the reader accepts at a token of a given kind is related to its result. -/
def SoundAt (k : Token.Kind) (r : Reader α) (R : List Token → α → Prop) : Prop :=
  ∀ ⦃c : Cursor⦄ ⦃a : α⦄ ⦃d : Cursor⦄, c.Closed → c.kind = k → r c = .ok (a, d) →
    ∃ ts, c = unread ts d ∧ d.Closed ∧ R ts a

/-- Whatever the reader accepts is related to its result. -/
def Sound (r : Reader α) (R : List Token → α → Prop) : Prop := ∀ k, r.SoundAt k R

variable {R : List Token → β → Prop}

theorem Sound.ok {r : Reader β} (h : r.Sound R) {c d : Cursor} {b : β} (hc : c.Closed)
    (hr : r c = .ok (b, d)) : ∃ ts, c = unread ts d ∧ d.Closed ∧ R ts b :=
  h c.kind hc rfl hr

theorem Sound.mono {r : Reader β} {P : List Token → β → Prop} (h : r.Sound P)
    (himp : ∀ ts b, P ts b → R ts b) : r.Sound R := by
  intro k c b d hc hk hr
  obtain ⟨ts, hts, hd, hp⟩ := h k hc hk hr
  exact ⟨ts, hts, hd, himp ts b hp⟩

theorem fail_sound (issue : Issue) : (fail issue : Reader β).Sound R := by
  intro k c b d hc hk hr
  cases hr

theorem missing_sound (what : Expected) : (missing what : Reader β).Sound R := by
  intro k c b d hc hk hr
  exact absurd hr (missing_ne_ok _ _ _)

theorem pure_sound {b : β} (h : R [] b) : (pure b : Reader β).Sound R := by
  intro k c b' d hc hk hr
  cases hr
  exact ⟨[], rfl, hc, h⟩

theorem Sound.bind {r : Reader α} {P : List Token → α → Prop} {f : α → Reader β} (hr : r.Sound P)
    (hf : ∀ a, (f a).Sound fun us b => ∀ ts, P ts a → R (ts ++ us) b) : (r >>= f).Sound R := by
  intro k c b d hc hk h
  rw [bind_eq_ok] at h
  obtain ⟨a, e, ha, hb⟩ := h
  obtain ⟨ts, hts, he, hp⟩ := hr.ok hc ha
  obtain ⟨us, rfl, hd, hq⟩ := (hf a).ok he hb
  exact ⟨ts ++ us, by rw [hts, unread_append], hd, hq ts hp⟩

theorem peek_sound {f : Token.Kind → Reader β} (h : ∀ k, (f k).SoundAt k R) :
    (peek >>= f).Sound R := by
  intro k c b d hc hk hr
  subst hk
  exact h c.kind hc rfl hr

/-- The token is told by its kind, its place by the cursor before it. -/
theorem position_advance_sound {f : Position → Reader β} {k : Token.Kind} (hk : k ≠ .eof)
    (h : ∀ p, (f p).Sound fun ts b => R (⟨k, p⟩ :: ts) b) :
    (do let p ← position; advance; f p).SoundAt k R := by
  intro c b d hc hck hr
  obtain ⟨p, hp, he⟩ := hc.advance hck hk
  have hpos : c.position = p := by rw [hp]; rfl
  rw [position_bind, advance_bind, hpos] at hr
  obtain ⟨ts, hts, hd, hR⟩ := (h p).ok he hr
  exact ⟨⟨k, p⟩ :: ts, by rw [hp, hts, unread_cons], hd, hR⟩

theorem advance_sound {f : Reader β} {k : Token.Kind} (hk : k ≠ .eof)
    (h : f.Sound fun ts b => ∀ p, R (⟨k, p⟩ :: ts) b) : (do advance; f).SoundAt k R := by
  intro c b d hc hck hr
  obtain ⟨p, hp, he⟩ := hc.advance hck hk
  rw [advance_bind] at hr
  obtain ⟨ts, hts, hd, hR⟩ := h.ok he hr
  exact ⟨⟨k, p⟩ :: ts, by rw [hp, hts, unread_cons], hd, hR p⟩

theorem symbol_sound {s : Symbol} {f : Reader β}
    (h : f.Sound fun ts b => ∀ p, R (⟨.symbol s, p⟩ :: ts) b) : (do symbol s; f).Sound R := by
  intro k c b d hc hk hr
  rw [bind_eq_ok] at hr
  obtain ⟨_, e, hs, hr⟩ := hr
  obtain ⟨hkind, rfl⟩ := symbol_eq_ok.1 hs
  exact advance_sound (by simp) h hc hkind hr

theorem identifier_sound {f : String → Reader β}
    (h : ∀ name, (f name).Sound fun ts b => ∀ p, R (⟨.ident name, p⟩ :: ts) b) :
    (do let name ← identifier; f name).Sound R := by
  intro k c b d hc hk hr
  rw [bind_eq_ok] at hr
  obtain ⟨name, e, hn, hr⟩ := hr
  obtain ⟨hkind, rfl⟩ := identifier_eq_ok.1 hn
  exact advance_sound (by simp) (h name) hc hkind hr

theorem position_sound {f : Position → Reader β} (h : ∀ p, (f p).Sound R) :
    (position >>= f).Sound R := by
  intro k c b d hc hk hr
  exact h c.position k hc hk hr

theorem position_keyword_sound {w : Keyword} {f : Position → Reader β}
    (h : ∀ p, (f p).Sound fun ts b => R (⟨.keyword w, p⟩ :: ts) b) :
    (do let p ← position; keyword w; f p).Sound R := by
  intro k c b d hc hk hr
  rw [position_bind, bind_eq_ok] at hr
  obtain ⟨_, e, hw, hr⟩ := hr
  obtain ⟨hkind, rfl⟩ := keyword_eq_ok.1 hw
  exact position_advance_sound (by simp) h hc hkind hr

theorem position_identifier_sound {f : Position → String → Reader β}
    (h : ∀ p name, (f p name).Sound fun ts b => R (⟨.ident name, p⟩ :: ts) b) :
    (do let p ← position; let name ← identifier; f p name).Sound R := by
  intro k c b d hc hk hr
  rw [position_bind, bind_eq_ok] at hr
  obtain ⟨name, e, hn, hr⟩ := hr
  obtain ⟨hkind, rfl⟩ := identifier_eq_ok.1 hn
  exact position_advance_sound (by simp) (fun p => h p name) hc hkind hr

end Reader
end Karel
