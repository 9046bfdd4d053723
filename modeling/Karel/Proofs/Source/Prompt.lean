import Karel.Proofs.Source.StatementGrammar
import Karel.Proofs.Source.Unlimited

/-! # Readers that stop at once

A reader is prompt if it goes on only as long as what it has read can still become what it is asked
to read, and stops at the first token that makes this impossible.

That tokens can be continued is shown by continuing them. That they cannot be continued is shown by
a reader that has more levels left: it would have to accept what they are continued to, but it stops
at the same token, since neither reader looks beyond a token before it stops there. So each reader
is compared with a deeper one, on cursors that agree up to the token under them.
-/
namespace Karel
open Cursor Grammar

/-- A diagnostic is about the token under the cursor, or about the innermost brace that is open at
the end of the file. -/
inductive Diagnostic.PointsAt (ts : List Token) (d : Cursor) : Diagnostic → Prop where
  | here {issue : Issue} (h : issue ≠ .unclosedBlock) : PointsAt ts d ⟨issue, d.position⟩
  | opening {p : Position} (hd : d.kind = .eof)
      (h : ∀ stack, (ts.foldl enclose stack).head? = some p) : PointsAt ts d ⟨.unclosedBlock, p⟩

theorem Diagnostic.PointsAt.append {us : List Token} {d : Cursor} {diag : Diagnostic}
    (h : diag.PointsAt us d) (ts : List Token) : diag.PointsAt (ts ++ us) d := by
  cases h with
  | here h => exact .here h
  | opening hd h =>
    refine .opening hd fun stack => ?_
    rw [List.foldl_append]
    exact h _

namespace Reader
variable {α β : Type} {R : List Token → α → Prop}

/-- At a token of a given kind the reader goes on as long as what it reads can be continued, and a
deeper reader does so too. -/
structure PromptAt (k : Token.Kind) (r deep : Reader α) (R : List Token → α → Prop) : Prop where
  ok : ∀ ⦃c a d⦄, c.Closed → c.kind = k → r c = .ok (a, d) →
    ∃ ts, c = unread ts d ∧ d.Closed ∧ R ts a ∧
      ∀ d', d'.current = d.current → deep (unread ts d') = .ok (a, d')
  error : ∀ ⦃c diag⦄, c.Closed → c.kind = k → r c = .error diag → diag.issue ≠ .tooDeep →
    ∃ ts d, c = unread ts d ∧ diag.PointsAt ts d ∧ (∃ us a, R (ts ++ us) a) ∧
      ∀ d', d'.current = d.current → ∃ diag', deep (unread ts d') = .error diag'

structure Prompt (r deep : Reader α) (R : List Token → α → Prop) : Prop where
  inhabited : ∃ ts a, R ts a
  promptAt : ∀ k, r.PromptAt k deep R

theorem Prompt.mono {r deep : Reader α} {P : List Token → α → Prop} (h : r.Prompt deep P)
    (himp : ∀ ts a, P ts a → R ts a) : r.Prompt deep R := by
  constructor
  · obtain ⟨ts, a, hp⟩ := h.inhabited
    exact ⟨ts, a, himp ts a hp⟩
  · intro k
    constructor
    · intro c a d hc hk hr
      obtain ⟨ts, hts, hd, hp, hdeep⟩ := (h.promptAt k).ok hc hk hr
      exact ⟨ts, hts, hd, himp ts a hp, hdeep⟩
    · intro c diag hc hk hr hn
      obtain ⟨ts, d, hts, hat, ⟨us, a, hp⟩, hdeep⟩ := (h.promptAt k).error hc hk hr hn
      exact ⟨ts, d, hts, hat, ⟨us, a, himp _ a hp⟩, hdeep⟩

/-- A reader that only ever stops where it stands. -/
theorem promptAt_of_error {k : Token.Kind} {r : Reader α} (hR : ∃ ts a, R ts a)
    (h : ∀ c : Cursor, c.kind = k → ∃ issue, r c = .error ⟨issue, c.position⟩ ∧
      issue ≠ .unclosedBlock) : r.PromptAt k r R := by
  constructor
  · intro c a d hc hk hr
    obtain ⟨issue, he, -⟩ := h c hk
    cases he.symm.trans hr
  · intro c diag hc hk hr hn
    obtain ⟨issue, he, hi⟩ := h c hk
    cases he.symm.trans hr
    refine ⟨[], c, rfl, .here hi, hR, fun d' hd' => ?_⟩
    obtain ⟨issue', he', -⟩ := h d' ((congrArg Token.kind hd').trans hk)
    exact ⟨_, he'⟩

theorem fail_promptAt {k : Token.Kind} {issue : Issue} (hR : ∃ ts a, R ts a)
    (hi : issue ≠ .unclosedBlock) : (fail issue).PromptAt k (fail issue) R :=
  promptAt_of_error hR fun _ _ => ⟨issue, rfl, hi⟩

theorem missing_eq_error (what : Expected) (c : Cursor) :
    ∃ issue, (missing what : Reader α) c = .error ⟨issue, c.position⟩ ∧
      issue ≠ .unclosedBlock := by
  unfold missing
  split
  · exact ⟨_, rfl, by simp⟩
  · exact ⟨_, rfl, by simp⟩

theorem missing_promptAt {k : Token.Kind} (hR : ∃ ts a, R ts a) (what : Expected) :
    (missing what).PromptAt k (missing what) R :=
  promptAt_of_error hR fun c _ => missing_eq_error what c

/-- Nothing is said about a reader that has no levels left. -/
theorem tooDeep_prompt {deep : Reader α} (hR : ∃ ts a, R ts a) : tooDeep.Prompt deep R := by
  refine ⟨hR, fun k => ⟨?_, ?_⟩⟩
  · intro c a d hc hk hr
    cases hr
  · intro c diag hc hk hr hn
    cases hr
    exact absurd rfl hn

theorem pure_prompt {a : α} (h : R [] a) : (pure a : Reader α).Prompt (pure a) R := by
  refine ⟨⟨[], a, h⟩, fun k => ⟨?_, ?_⟩⟩
  · intro c b d hc hk hr
    cases hr
    exact ⟨[], rfl, hc, h, fun d' _ => rfl⟩
  · intro c diag hc hk hr
    cases hr

section Bind

variable {S : List Token → β → Prop}

theorem PromptAt.bind {k : Token.Kind} {r r' : Reader α} {f g : α → Reader β}
    (hr : r.PromptAt k r' R)
    (hf : ∀ a, (f a).Prompt (g a) fun us b => ∀ ts, R ts a → S (ts ++ us) b) :
    (r >>= f).PromptAt k (r' >>= g) S := by
  constructor
  · intro c b d hc hk h
    obtain ⟨a, e, ha, hb⟩ := bind_eq_ok.1 h
    obtain ⟨ts, rfl, he, hts, hdeep⟩ := hr.ok hc hk ha
    obtain ⟨us, rfl, hd, hus, hdeep'⟩ := ((hf a).promptAt _).ok he rfl hb
    refine ⟨ts ++ us, (unread_append ts us d).symm, hd, hus ts hts, fun d' hd' => ?_⟩
    rw [unread_append, bind_of_ok (hdeep _ (current_unread hd' us))]
    exact hdeep' d' hd'
  · intro c diag hc hk h hn
    rcases bind_eq_error.1 h with hfirst | ⟨a, e, ha, hthen⟩
    · obtain ⟨ts, d, hts, hat, ⟨us, a, hus⟩, hdeep⟩ := hr.error hc hk hfirst hn
      obtain ⟨vs, b, hvs⟩ := (hf a).inhabited
      refine ⟨ts, d, hts, hat, ⟨us ++ vs, b, ?_⟩, fun d' hd' => ?_⟩
      · rw [← List.append_assoc]
        exact hvs _ hus
      · obtain ⟨diag', he⟩ := hdeep d' hd'
        exact ⟨diag', bind_eq_error.2 (.inl he)⟩
    · obtain ⟨ts, rfl, he, hts, hdeep⟩ := hr.ok hc hk ha
      obtain ⟨us, d, rfl, hat, ⟨vs, b, hvs⟩, hdeep'⟩ := ((hf a).promptAt _).error he rfl hthen hn
      refine ⟨ts ++ us, d, (unread_append ts us d).symm, hat.append ts, ⟨vs, b, ?_⟩,
        fun d' hd' => ?_⟩
      · rw [List.append_assoc]
        exact hvs ts hts
      · obtain ⟨diag', he'⟩ := hdeep' d' hd'
        refine ⟨diag', ?_⟩
        rw [unread_append, bind_of_ok (hdeep _ (current_unread hd' us))]
        exact he'

theorem Prompt.bind {r r' : Reader α} {f g : α → Reader β} (hr : r.Prompt r' R)
    (hf : ∀ a, (f a).Prompt (g a) fun us b => ∀ ts, R ts a → S (ts ++ us) b) :
    (r >>= f).Prompt (r' >>= g) S := by
  refine ⟨?_, fun k => (hr.promptAt k).bind hf⟩
  obtain ⟨ts, a, hts⟩ := hr.inhabited
  obtain ⟨us, b, hus⟩ := (hf a).inhabited
  exact ⟨ts ++ us, b, hus ts hts⟩

theorem peek_prompt {f g : Token.Kind → Reader α} (hR : ∃ ts a, R ts a)
    (h : ∀ k, (f k).PromptAt k (g k) R) : (peek >>= f).Prompt (peek >>= g) R := by
  refine ⟨hR, fun k => ⟨?_, ?_⟩⟩
  · rintro c a d hc rfl hr
    obtain ⟨ts, rfl, hd, hts, hdeep⟩ := (h c.kind).ok hc rfl hr
    refine ⟨ts, rfl, hd, hts, fun d' hd' => ?_⟩
    rw [peek_bind, kind_unread hd' ts]
    exact hdeep d' hd'
  · rintro c diag hc rfl hr hn
    obtain ⟨ts, d, rfl, hat, hus, hdeep⟩ := (h c.kind).error hc rfl hr hn
    refine ⟨ts, d, rfl, hat, hus, fun d' hd' => ?_⟩
    rw [peek_bind, kind_unread hd' ts]
    exact hdeep d' hd'

/-- The position is that of the first token that is read, if one is read at all. -/
theorem position_promptAt {k : Token.Kind} {f g : Position → Reader α} (hR : ∃ ts a, R ts a)
    (h : ∀ p, (f p).PromptAt k (g p) fun ts a => (∀ t ∈ ts.head?, t.position = p) → R ts a) :
    (position >>= f).PromptAt k (position >>= g) R := by
  constructor
  · intro c a d hc hk hr
    obtain ⟨ts, rfl, hd, hts, hdeep⟩ := (h c.position).ok hc hk hr
    refine ⟨ts, rfl, hd, hts ?_, fun d' hd' => ?_⟩
    · cases ts <;> simp [unread, Cursor.position, push]
    · rw [position_bind, position_unread hd' ts]
      exact hdeep d' hd'
  · intro c diag hc hk hr hn
    obtain ⟨ts, d, rfl, hat, ⟨us, a, hus⟩, hdeep⟩ := (h c.position).error hc hk hr hn
    refine ⟨ts, d, rfl, hat, ?_, fun d' hd' => ?_⟩
    · cases ts with
      | nil => exact hR
      | cons t ts => exact ⟨us, a, hus (by simp [Cursor.position, push])⟩
    · rw [position_bind, position_unread hd' ts]
      exact hdeep d' hd'

end Bind

/-! ## Single tokens -/

/-- A reader of one token of certain kinds, which stops at every other. -/
theorem prompt_of_token {r : Reader α} {K : Token.Kind → α → Prop} (hK : ∃ k a, K k a)
    (heof : ∀ a, ¬ K .eof a)
    (hok : ∀ c a, K c.kind a → r c = .ok (a, c.advance))
    (herror : ∀ c : Cursor, (∀ digits, c.kind = .number digits →
        digits.toList ≠ [] ∧ ∀ a ∈ digits.toList, a.isDigit) → (∀ a, ¬ K c.kind a) →
      ∃ issue, r c = .error ⟨issue, c.position⟩ ∧ issue ≠ .unclosedBlock) :
    r.Prompt r fun ts a => ∃ k p, ts = [⟨k, p⟩] ∧ K k a := by
  obtain ⟨k₀, a₀, hK⟩ := hK
  refine ⟨⟨_, a₀, k₀, .start, rfl, hK⟩, fun k => ⟨?_, ?_⟩⟩
  · intro c a d hc _ hr
    by_cases hk : ∃ b, K c.kind b
    · obtain ⟨b, hb⟩ := hk
      cases (hok c b hb).symm.trans hr
      have hne : c.kind ≠ .eof := by
        intro he
        rw [he] at hb
        exact heof a hb
      obtain ⟨p, hp, hd⟩ := hc.advance rfl hne
      refine ⟨[⟨c.kind, p⟩], hp, hd, ⟨c.kind, p, rfl, hb⟩, fun d' _ => ?_⟩
      exact hok (push ⟨c.kind, p⟩ d') a hb
    · obtain ⟨issue, he, -⟩ := herror c (fun _ => hc.digits) (not_exists.1 hk)
      cases he.symm.trans hr
  · intro c diag hc _ hr hn
    have hk : ∀ b, ¬ K c.kind b := by
      intro b hb
      cases (hok c b hb).symm.trans hr
    obtain ⟨issue, he, hi⟩ := herror c (fun _ => hc.digits) hk
    cases he.symm.trans hr
    refine ⟨[], c, rfl, .here hi, ⟨_, a₀, k₀, .start, rfl, hK⟩, fun d' hd' => ?_⟩
    have hkind : d'.kind = c.kind := congrArg Token.kind hd'
    rw [← hkind] at hk
    obtain ⟨issue', he', -⟩ := herror d' (fun _ h => hc.digits (hkind.symm.trans h)) hk
    exact ⟨_, he'⟩

theorem advance_promptAt {k : Token.Kind} (hk : k ≠ .eof) :
    advance.PromptAt k advance fun ts _ => ∃ p, ts = [⟨k, p⟩] := by
  constructor
  · intro c a d hc hck hr
    cases hr
    obtain ⟨p, hp, hd⟩ := hc.advance hck hk
    exact ⟨[⟨k, p⟩], hp, hd, ⟨p, rfl⟩, fun d' _ => rfl⟩
  · intro c diag hc hck hr
    cases hr

theorem symbol_prompt (s : Symbol) :
    (symbol s).Prompt (symbol s) fun ts _ => ∃ k p, ts = [⟨k, p⟩] ∧ k = .symbol s := by
  refine prompt_of_token ⟨_, (), rfl⟩ (by simp) ?_ ?_
  · intro c a hk
    rw [symbol, if_pos hk]
  · intro c _ hk
    rw [symbol, if_neg (hk ())]
    exact missing_eq_error _ c

theorem keyword_prompt (w : Keyword) :
    (keyword w).Prompt (keyword w) fun ts _ => ∃ k p, ts = [⟨k, p⟩] ∧ k = .keyword w := by
  refine prompt_of_token ⟨_, (), rfl⟩ (by simp) ?_ ?_
  · intro c a hk
    rw [keyword, if_pos hk]
  · intro c _ hk
    rw [keyword, if_neg (hk ())]
    exact missing_eq_error _ c

theorem identifier_prompt :
    identifier.Prompt identifier fun ts name => ∃ k p, ts = [⟨k, p⟩] ∧ k = .ident name := by
  refine prompt_of_token ⟨_, "main", rfl⟩ (by simp) ?_ ?_
  · intro c name hk
    exact identifier_eq_ok.2 ⟨hk, rfl⟩
  · intro c _ hk
    unfold identifier
    split
    · next name hname => exact absurd hname (hk name)
    · exact missing_eq_error _ c

theorem count_prompt :
    count.Prompt count fun ts value =>
      ∃ k p, ts = [⟨k, p⟩] ∧ ∃ digits, k = .number digits ∧ IsCount digits value := by
  refine prompt_of_token ⟨_, 2, "2", rfl, by simp, by simp, rfl, by decide, by decide⟩ (by simp)
    ?_ ?_
  · rintro c value ⟨digits, hk, hcount⟩
    unfold count
    rw [hk]
    dsimp only
    rw [(isCount_iff ⟨hcount.1, hcount.2.1⟩).2 hcount]
  · intro c hd hk
    unfold count
    split
    · next digits hdigits =>
      split
      · next value hvalue =>
        exact absurd ⟨digits, hdigits, (isCount_iff (hd _ hdigits)).1 hvalue⟩ (hk value)
      · exact ⟨_, rfl, by simp⟩
    · exact missing_eq_error _ c

end Reader
end Karel
