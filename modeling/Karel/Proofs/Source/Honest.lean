import Karel.Proofs.Source.StatementGrammar

/-! # What readers blame

Where a reader stops it names a token and what is wrong with it. If the token is invalid text, then
what is wrong with it is what the token itself says. `Reader.Honest` is the property that a reader
goes on over no such token and, where it stops at one, passes its message on. Behind an `else` this
is not asked for.
-/
namespace Karel

/-- A token that is text of no other kind. -/
def Token.IsInvalid (t : Token) : Prop := ∃ message, t.kind = .invalid message

/-- The last of some tokens is an `else`. -/
def EndsInElse (ts : List Token) : Prop := ts.getLast?.map Token.kind = some (.keyword .else)

instance (ts : List Token) : Decidable (EndsInElse ts) :=
  inferInstanceAs (Decidable (_ = _))

theorem not_endsInElse_nil : ¬ EndsInElse [] := by decide

theorem endsInElse_singleton {t : Token} : EndsInElse [t] ↔ t.kind = .keyword .else := by
  simp [EndsInElse]

theorem endsInElse_append {ts us : List Token} :
    EndsInElse (ts ++ us) ↔ EndsInElse us ∨ us = [] ∧ EndsInElse ts := by
  rcases List.eq_nil_or_concat us with rfl | ⟨us, t, rfl⟩
  · simp [EndsInElse]
  · simp [EndsInElse, ← List.append_assoc]

namespace Cursor

/-- The last token, and no other, is the end of file. -/
inductive Ended : Cursor → Prop where
  | last {t : Token} (ht : t.kind = .eof) : Ended ⟨t, []⟩
  | push {t : Token} {d : Cursor} (ht : t.kind ≠ .eof) (hd : Ended d) : Ended (push t d)

theorem Ended.unread {ts : List Token} {d : Cursor} (ht : ∀ t ∈ ts, t.kind ≠ .eof)
    (hd : d.Ended) : (unread ts d).Ended := by
  induction ts with
  | nil => exact hd
  | cons t ts ih =>
    have htail := ih fun u hu => ht u (List.mem_cons_of_mem _ hu)
    exact .push (ht t List.mem_cons_self) htail

theorem Ended.advance {c : Cursor} (hc : c.Ended) {k : Token.Kind} (hk : c.kind = k)
    (hne : k ≠ .eof) : ∃ p, c = Cursor.push ⟨k, p⟩ c.advance ∧ c.advance.Ended := by
  subst hk
  cases hc with
  | last ht => exact absurd ht hne
  | @push t d ht hd => exact ⟨t.position, rfl, hd⟩

end Cursor

open Cursor

/-- Why a reader stops at a cursor after it has read some tokens. The nesting may be too deep, and a
block that has no end is reported where it starts. Otherwise the token under the cursor is reported,
as invalid text if that is what it is, except behind an `else`. -/
inductive Diagnostic.Blames (ts : List Token) (d : Cursor) : Diagnostic → Prop where
  | tooDeep {p : Position} : Blames ts d ⟨.tooDeep, p⟩
  | unclosed {p : Position} (h : ⟨.symbol .openBrace, p⟩ ∈ ts) : Blames ts d ⟨.unclosedBlock, p⟩
  | dangling (h : EndsInElse ts) : Blames ts d ⟨.danglingElse, d.position⟩
  | invalid {message : String} (hk : d.kind = .invalid message) (h : ¬ EndsInElse ts) :
      Blames ts d ⟨.invalidText message, d.position⟩
  | valid {issue : Issue} (hk : ¬ d.current.IsInvalid) : Blames ts d ⟨issue, d.position⟩

/-- No invalid token, and no `else` at the end. -/
structure Readable (ts : List Token) : Prop where
  valid : ∀ t ∈ ts, ¬ t.IsInvalid
  noElse : ¬ EndsInElse ts

namespace Readable

theorem nil : Readable [] := ⟨by simp, not_endsInElse_nil⟩

theorem singleton {t : Token} (hv : ¬ t.IsInvalid) (he : t.kind ≠ .keyword .else) :
    Readable [t] := by
  refine ⟨by simpa using hv, ?_⟩
  rwa [endsInElse_singleton]

theorem append {ts us : List Token} (ht : Readable ts) (hu : Readable us) :
    Readable (ts ++ us) := by
  refine ⟨List.forall_mem_append.2 ⟨ht.valid, hu.valid⟩, ?_⟩
  intro h
  rcases endsInElse_append.1 h with h | ⟨-, h⟩
  · exact hu.noElse h
  · exact ht.noElse h

end Readable

/-- Tokens may be put in front of those that have been read, unless that puts an `else` right before
an invalid token. -/
theorem Diagnostic.Blames.append {ts us : List Token} {d : Cursor} {diag : Diagnostic}
    (h : diag.Blames us d) (hts : EndsInElse ts → us = [] → ¬ d.current.IsInvalid) :
    diag.Blames (ts ++ us) d := by
  cases h with
  | tooDeep => exact .tooDeep
  | unclosed h => exact .unclosed (List.mem_append_right _ h)
  | dangling h => exact .dangling (endsInElse_append.2 (.inl h))
  | invalid hk h =>
    refine .invalid hk fun he => ?_
    rcases endsInElse_append.1 he with he | ⟨hus, he⟩
    · exact h he
    · exact hts he hus ⟨_, hk⟩
  | valid hk => exact .valid hk

namespace Reader
variable {α β : Type}

/-- At a token of a given kind the reader reads over no invalid token, and blames the right one. -/
structure HonestAt (k : Token.Kind) (r : Reader α) : Prop where
  ok : ∀ ⦃c a d⦄, c.Ended → c.kind = k → r c = .ok (a, d) →
    ∃ ts, c = unread ts d ∧ d.Ended ∧ Readable ts
  error : ∀ ⦃c diag⦄, c.Ended → c.kind = k → r c = .error diag →
    ∃ ts d, c = unread ts d ∧ diag.Blames ts d

def Honest (r : Reader α) : Prop := ∀ k, r.HonestAt k

theorem not_isInvalid {c : Cursor} {k : Token.Kind} (hc : c.kind = k)
    (hk : ∀ message, k ≠ .invalid message) : ¬ c.current.IsInvalid := by
  rintro ⟨message, hm⟩
  exact hk message (hc.symm.trans hm)

/-- A reader that only ever stops where it stands. -/
theorem honestAt_of_error {k : Token.Kind} {r : Reader α}
    (h : ∀ c : Cursor, c.kind = k → ∃ diag, r c = .error diag ∧ diag.Blames [] c) :
    r.HonestAt k := by
  constructor
  · intro c a d hc hk hr
    obtain ⟨diag, he, -⟩ := h c hk
    cases he.symm.trans hr
  · intro c diag hc hk hr
    obtain ⟨diag', he, hb⟩ := h c hk
    cases he.symm.trans hr
    exact ⟨[], c, rfl, hb⟩

theorem fail_honestAt {k : Token.Kind} (hk : ∀ message, k ≠ .invalid message) (issue : Issue) :
    (fail issue : Reader α).HonestAt k := by
  apply honestAt_of_error
  intro c hc
  exact ⟨_, rfl, .valid (not_isInvalid hc hk)⟩

theorem fail_invalidText_honestAt (message : String) :
    (fail (.invalidText message) : Reader α).HonestAt (.invalid message) := by
  apply honestAt_of_error
  intro c hc
  exact ⟨_, rfl, .invalid hc not_endsInElse_nil⟩

theorem tooDeep_honest : (tooDeep : Reader α).Honest := by
  intro k
  apply honestAt_of_error
  intro c _
  exact ⟨_, rfl, .tooDeep⟩

theorem missing_honest (what : Expected) : (missing what : Reader α).Honest := by
  intro k
  apply honestAt_of_error
  intro c _
  unfold missing
  split
  · next message hm => exact ⟨_, rfl, .invalid hm not_endsInElse_nil⟩
  · next hm =>
    exact ⟨_, rfl, .valid (not_isInvalid rfl hm)⟩

theorem pure_honest (a : α) : (pure a : Reader α).Honest := by
  intro k
  constructor
  · intro c b d hc hk hr
    cases hr
    exact ⟨[], rfl, hc, .nil⟩
  · intro c diag hc hk hr
    cases hr

theorem HonestAt.bind {k : Token.Kind} {r : Reader α} {f : α → Reader β} (hr : r.HonestAt k)
    (hf : ∀ a, (f a).Honest) : (r >>= f).HonestAt k := by
  constructor
  · intro c b d hc hk h
    obtain ⟨a, e, ha, hb⟩ := bind_eq_ok.1 h
    obtain ⟨ts, rfl, he, hts⟩ := hr.ok hc hk ha
    obtain ⟨us, rfl, hd, hus⟩ := (hf a _).ok he rfl hb
    exact ⟨ts ++ us, (unread_append ts us d).symm, hd, hts.append hus⟩
  · intro c diag hc hk h
    rcases bind_eq_error.1 h with hfirst | ⟨a, e, ha, hthen⟩
    · exact hr.error hc hk hfirst
    · obtain ⟨ts, rfl, he, hts⟩ := hr.ok hc hk ha
      obtain ⟨us, d, rfl, hb⟩ := (hf a _).error he rfl hthen
      have happ := hb.append fun he _ => absurd he hts.noElse
      exact ⟨ts ++ us, d, (unread_append ts us d).symm, happ⟩

theorem Honest.bind {r : Reader α} {f : α → Reader β} (hr : r.Honest) (hf : ∀ a, (f a).Honest) :
    (r >>= f).Honest := fun k => (hr k).bind hf

theorem peek_honest {f : Token.Kind → Reader β} (h : ∀ k, (f k).HonestAt k) :
    (peek >>= f).Honest := by
  intro k
  constructor
  · rintro c b d hc rfl hr
    exact (h c.kind).ok hc rfl hr
  · rintro c diag hc rfl hr
    exact (h c.kind).error hc rfl hr

theorem position_honestAt {k : Token.Kind} {f : Position → Reader β} (h : ∀ p, (f p).HonestAt k) :
    (position >>= f).HonestAt k := by
  constructor
  · intro c b d hc hk hr
    exact (h c.position).ok hc hk hr
  · intro c diag hc hk hr
    exact (h c.position).error hc hk hr

theorem position_honest {f : Position → Reader β} (h : ∀ p, (f p).Honest) :
    (position >>= f).Honest := fun k => position_honestAt fun p => h p k

/-- What a reader may go on over: anything but the end of file, an `else` and invalid text. -/
def Passable (k : Token.Kind) : Prop :=
  k ≠ .eof ∧ k ≠ .keyword .else ∧ ∀ message, k ≠ .invalid message

theorem ended_advance {c : Cursor} (hc : c.Ended) (hk : Passable c.kind) :
    ∃ ts, c = unread ts c.advance ∧ c.advance.Ended ∧ Readable ts := by
  obtain ⟨p, hpush, hend⟩ := hc.advance rfl hk.1
  refine ⟨[⟨c.kind, p⟩], hpush, hend, .singleton ?_ hk.2.1⟩
  rintro ⟨message, hm⟩
  exact hk.2.2 message hm

theorem advance_honestAt {k : Token.Kind} (hk : Passable k) : advance.HonestAt k := by
  constructor
  · rintro c a d hc rfl hr
    cases hr
    exact ended_advance hc hk
  · intro c diag hc hk hr
    cases hr

/-- A reader that goes on over one token or finds that something is missing. -/
theorem honest_of_missing {r : Reader α}
    (h : ∀ c, (∃ a, r c = .ok (a, c.advance) ∧ Passable c.kind) ∨ ∃ what, r c = missing what c) :
    r.Honest := by
  intro k
  constructor
  · intro c a d hc hk hr
    rcases h c with ⟨b, hb, hp⟩ | ⟨what, hm⟩
    · cases hb.symm.trans hr
      exact ended_advance hc hp
    · exact absurd (hm.symm.trans hr) (missing_ne_ok _ _ _)
  · intro c diag hc hk hr
    rcases h c with ⟨b, hb, -⟩ | ⟨what, hm⟩
    · cases hb.symm.trans hr
    · exact (missing_honest what k).error hc hk (hm.symm.trans hr)

theorem symbol_honest (s : Symbol) : (symbol s).Honest := by
  apply honest_of_missing
  intro c
  by_cases hk : c.kind = .symbol s
  · exact .inl ⟨(), by rw [symbol, if_pos hk], by simp [Passable, hk]⟩
  · exact .inr ⟨.symbol s, by rw [symbol, if_neg hk]⟩

theorem keyword_honest {w : Keyword} (hw : w ≠ .else) : (keyword w).Honest := by
  apply honest_of_missing
  intro c
  by_cases hk : c.kind = .keyword w
  · exact .inl ⟨(), by rw [keyword, if_pos hk], by simp [Passable, hk, hw]⟩
  · exact .inr ⟨.keyword w, by rw [keyword, if_neg hk]⟩

theorem identifier_honest : identifier.Honest := by
  apply honest_of_missing
  intro c
  unfold identifier
  split
  · next name hk => exact .inl ⟨name, rfl, by simp [Passable, hk]⟩
  · exact .inr ⟨.identifier, rfl⟩

theorem count_honest : count.Honest := by
  intro k
  constructor
  · intro c a d hc hk hr
    unfold count at hr
    split at hr
    · next digits hd =>
      split at hr
      · cases hr
        exact ended_advance hc (by simp [Passable, hd])
      · cases hr
    · exact absurd hr (missing_ne_ok _ _ _)
  · intro c diag hc hk hr
    unfold count at hr
    split at hr
    · next digits hd =>
      split at hr
      · cases hr
      · cases hr
        exact ⟨[], c, rfl, .valid (not_isInvalid hd (by simp))⟩
    · exact (missing_honest _ k).error hc hk hr

end Reader
end Karel
