import Karel.Proofs.Source.Descent

/-! # Descents and readers

A descent and a reader belong together if the descent ends, from every valid place and with every
valid number of open levels, with what the reader answers. The relation says more than that about
levels, since the levels that a reader has left are the levels that are not open: after a success
the number of open levels is one that is foreseen, and after a failure no level is closed that was
open at the start. The latter is what makes sure that there is always a level to give back.
-/
namespace Karel

/-- The cursor is on the token with this index. -/
def Cursor.IsAt (tokens : List Token) (c : Cursor) (i : Nat) : Prop :=
  tokens.drop i = c.current :: c.rest

def Stand.Valid (tokens : List Token) (s : Stand) : Prop :=
  s.index < tokens.length ∧ s.depth ≤ nestingLimit

/-- The variables are valid and have been so at all times. -/
def Trail.Sound (tokens : List Token) (t : Trail) : Prop :=
  ∀ s ∈ t.now :: t.past, s.Valid tokens

namespace Cursor
variable {tokens : List Token} {c : Cursor} {i : Nat}

theorem exists_isAt (h : i < tokens.length) : ∃ c : Cursor, c.IsAt tokens i :=
  ⟨⟨tokens[i], tokens.drop (i + 1)⟩, List.drop_eq_getElem_cons h⟩

theorem IsAt.getElem? (h : c.IsAt tokens i) (n : Nat) :
    tokens[i + n]? = (c.current :: c.rest)[n]? := by
  rw [← List.getElem?_drop, h]

theorem kindAt_eq (c : Cursor) (n : Nat) :
    c.kindAt n = (((c.current :: c.rest).drop n).head?.map Token.kind).getD .eof := by
  rw [List.head?_drop, kindAt]
  cases (c.current :: c.rest)[n]? <;> rfl

theorem IsAt.length (h : c.IsAt tokens i) : tokens.length = i + 1 + c.remaining := by
  have h := congrArg List.length h
  simp only [List.length_drop, List.length_cons] at h
  unfold remaining
  omega

theorem IsAt.advance (h : c.IsAt tokens i) :
    c.advance.IsAt tokens (if i + 1 < tokens.length then i + 1 else i) := by
  have hlength := h.length
  obtain ⟨current, rest⟩ := c
  cases rest with
  | nil =>
    rw [if_neg (by simp only [remaining, List.length_nil] at hlength; omega)]
    exact h
  | cons t ts =>
    rw [if_pos (by simp only [remaining, List.length_cons] at hlength; omega)]
    have h : tokens.drop i = current :: t :: ts := h
    change tokens.drop (i + 1) = t :: ts
    rw [← List.tail_drop, h, List.tail_cons]

end Cursor

namespace Trail
variable {tokens : List Token} {t : Trail} {s : Stand}

/-- The trail one token further; the last token is never left. -/
def onward (tokens : List Token) (t : Trail) : Trail :=
  if t.now.index + 1 < tokens.length then
    ⟨{ t.now with index := t.now.index + 1 }, t.now :: t.past⟩
  else t

theorem Sound.now (h : t.Sound tokens) : t.now.Valid tokens := h _ List.mem_cons_self

theorem Sound.go (h : t.Sound tokens) (hs : s.Valid tokens) :
    Trail.Sound tokens ⟨s, t.now :: t.past⟩ := by
  intro s' hs'
  rcases List.mem_cons.mp hs' with rfl | hs'
  · exact hs
  · exact h s' hs'

theorem Sound.deeper (h : t.Sound tokens) (hd : t.now.depth < nestingLimit) :
    Trail.Sound tokens ⟨{ t.now with depth := t.now.depth + 1 }, t.now :: t.past⟩ :=
  h.go ⟨h.now.1, hd⟩

end Trail

namespace Descent

variable {α β : Type} {tokens : List Token}

theorem bind_of_ok {p : Descent α} {f : α → Descent β} {t t' : Trail} {a : α}
    (h : p t = some (.ok a, t')) : (p >>= f) t = f a t' := by
  change (p t >>= fun x => ExceptT.bindCont f x.1 x.2) = f a t'
  rw [h]
  rfl

theorem bind_of_error {p : Descent α} {f : α → Descent β} {t t' : Trail} {stop : Stop}
    (h : p t = some (.error stop, t')) : (p >>= f) t = some (.error stop, t') := by
  change (p t >>= fun x => ExceptT.bindCont f x.1 x.2) = some (.error stop, t')
  rw [h]
  rfl

/-! ## Ends -/

/-- With as many calls as it needs, and with any more, a descent comes from one trail to a result
and another trail. -/
def Halts (p : Nat → Descent α) (t : Trail) (result : Except Stop α) (t' : Trail) : Prop :=
  ∃ n, ∀ m, n ≤ m → p m t = some (result, t')

namespace Halts
variable {p : Nat → Descent α} {f : Nat → α → Descent β} {t t' t'' : Trail}

theorem of_run {q : Descent α} {result : Except Stop α} (h : q t = some (result, t')) :
    Halts (fun _ => q) t result t' :=
  ⟨0, fun _ _ => h⟩

/-- What a descent does inside its first call. -/
theorem succ {result : Except Stop α} (h : Halts (fun n => p (n + 1)) t result t') :
    Halts p t result t' := by
  obtain ⟨n, h⟩ := h
  refine ⟨n + 1, fun m hm => ?_⟩
  obtain ⟨k, rfl⟩ : ∃ k, m = k + 1 := ⟨m - 1, by omega⟩
  exact h k (by omega)

theorem bind {a : α} {result : Except Stop β} (hp : Halts p t (.ok a) t')
    (hf : Halts (fun n => f n a) t' result t'') : Halts (fun n => p n >>= f n) t result t'' := by
  obtain ⟨n, hp⟩ := hp
  obtain ⟨k, hf⟩ := hf
  exact ⟨max n k, fun m hm => (bind_of_ok (hp m (by omega))).trans (hf m (by omega))⟩

theorem bind_error {stop : Stop} (hp : Halts p t (.error stop) t') :
    Halts (fun n => p n >>= f n) t (.error stop) t' := by
  obtain ⟨n, hp⟩ := hp
  exact ⟨n, fun m hm => bind_of_error (hp m hm)⟩

theorem unique {result result' : Except Stop α} (h : Halts p t result t')
    (h' : Halts p t result' t'') : result = result' := by
  obtain ⟨n, h⟩ := h
  obtain ⟨k, h'⟩ := h'
  have hboth := (h (max n k) (by omega)).symm.trans (h' (max n k) (by omega))
  cases hboth
  rfl

end Halts

/-- What a reader answers is what a descent, with `depth` levels open at its start, ends with: the
same result on the same token with a number of levels that `exit` admits, or the same issue with no
level closed. -/
inductive Answers (tokens : List Token) (depth : Nat) (exit : Nat → Prop) :
    Except Diagnostic (α × Cursor) → Except Stop α → Stand → Prop
  | ok {a : α} {c : Cursor} {s : Stand} (place : c.IsAt tokens s.index) (levels : exit s.depth) :
    Answers tokens depth exit (.ok (a, c)) (.ok a) s
  | issue {x : Diagnostic} {s : Stand} (levels : depth ≤ s.depth) :
    Answers tokens depth exit (.error x) (.error (.issue x)) s

/-- A descent that starts at the cursor with `depth` levels open ends with the answer. -/
def Gives (tokens : List Token) (depth : Nat) (exit : Nat → Prop) (c : Cursor)
    (p : Nat → Descent α) (answer : Except Diagnostic (α × Cursor)) : Prop :=
  ∀ t : Trail, t.Sound tokens → c.IsAt tokens t.now.index → t.now.depth = depth →
    ∃ result t', Halts p t result t' ∧ t'.Sound tokens ∧
      Answers tokens depth exit answer result t'.now

/-- A descent that reads what the reader reads and closes every level that it opens. -/
def Steady (tokens : List Token) (depth : Nat) (p : Nat → Descent α) (r : Reader α) : Prop :=
  ∀ c, Gives tokens depth (· = depth) c p (r c)

/-- A descent that reads what the reader reads and may leave levels open. -/
def Rising (tokens : List Token) (depth : Nat) (p : Nat → Descent α) (r : Reader α) : Prop :=
  ∀ c, Gives tokens depth (depth ≤ ·) c p (r c)

variable {depth : Nat} {exit exit' : Nat → Prop} {c : Cursor}

/-! ## Sequences -/

theorem Answers.weaken {e : Nat} {answer : Except Diagnostic (α × Cursor)} {result : Except Stop α}
    {s : Stand} (h : Answers tokens e exit answer result s) (hd : depth ≤ e)
    (he : ∀ n, exit n → exit' n) : Answers tokens depth exit' answer result s := by
  cases h with
  | ok hplace hl => exact .ok hplace (he _ hl)
  | issue hl => exact .issue (Nat.le_trans hd hl)

theorem Answers.le {answer : Except Diagnostic (α × Cursor)} {result : Except Stop α} {s : Stand}
    (h : Answers tokens depth exit answer result s) (he : ∀ n, exit n → depth ≤ n) :
    depth ≤ s.depth := by
  cases h with
  | ok hplace hl => exact he _ hl
  | issue hl => exact hl

section Sequences
variable {p : Nat → Descent α} {f : Nat → α → Descent β} {r : Reader α} {g : α → Reader β}

theorem Gives.mono {answer : Except Diagnostic (α × Cursor)}
    (h : Gives tokens depth exit c p answer) (he : ∀ n, exit n → exit' n) :
    Gives tokens depth exit' c p answer := by
  intro t ht hc hd
  obtain ⟨result, t', hrun, ht', ha⟩ := h t ht hc hd
  exact ⟨result, t', hrun, ht', ha.weaken (Nat.le_refl _) he⟩

theorem Gives.succ {answer : Except Diagnostic (α × Cursor)}
    (h : Gives tokens depth exit c (fun n => p (n + 1)) answer) :
    Gives tokens depth exit c p answer := by
  intro t ht hc hd
  obtain ⟨result, t', hrun, hrest⟩ := h t ht hc hd
  exact ⟨result, t', hrun.succ, hrest⟩

theorem Gives.bind (hp : Gives tokens depth exit c p (r c)) (he : ∀ e, exit e → depth ≤ e)
    (hf : ∀ a c' e, r c = .ok (a, c') → exit e →
      Gives tokens e exit' c' (fun n => f n a) (g a c')) :
    Gives tokens depth exit' c (fun n => p n >>= f n) ((r >>= g) c) := by
  intro t ht hc hd
  obtain ⟨result, t', hrun, ht', ha⟩ := hp t ht hc hd
  have hbind : (r >>= g) c = (r c).bind fun x => g x.1 x.2 := rfl
  rw [hbind]
  generalize r c = answer at ha hf ⊢
  cases ha with
  | ok hplace hl =>
    obtain ⟨result, t'', hrun', ht'', ha'⟩ := hf _ _ _ rfl hl t' ht' hplace rfl
    exact ⟨result, t'', hrun.bind hrun', ht'', ha'.weaken (he _ hl) fun _ h => h⟩
  | issue hl => exact ⟨_, t', hrun.bind_error, ht', .issue hl⟩

/-- What follows a steady descent starts with the same number of levels. -/
theorem Gives.andThen (hp : Gives tokens depth (· = depth) c p (r c))
    (hf : ∀ a c', r c = .ok (a, c') → Gives tokens depth exit c' (fun n => f n a) (g a c')) :
    Gives tokens depth exit c (fun n => p n >>= f n) ((r >>= g) c) := by
  refine hp.bind (fun e he => Nat.le_of_eq he.symm) ?_
  rintro a c' e hread rfl
  exact hf a c' hread

theorem Steady.succ (h : Steady tokens depth (fun n => p (n + 1)) r) : Steady tokens depth p r :=
  fun c => (h c).succ

theorem Rising.succ (h : Rising tokens depth (fun n => p (n + 1)) r) : Rising tokens depth p r :=
  fun c => (h c).succ

theorem Steady.bind (hp : Steady tokens depth p r)
    (hf : ∀ a, Steady tokens depth (fun n => f n a) (g a)) :
    Steady tokens depth (fun n => p n >>= f n) (r >>= g) :=
  fun c => (hp c).andThen fun a c' _ => hf a c'

end Sequences

/-- Looking at tokens changes nothing. -/
theorem Gives.look {q : Descent α} {f : Nat → α → Descent β} {a : α}
    {answer : Except Diagnostic (β × Cursor)}
    (hq : ∀ t : Trail, c.IsAt tokens t.now.index → q t = some (.ok a, t))
    (h : Gives tokens depth exit c (fun n => f n a) answer) :
    Gives tokens depth exit c (fun n => q >>= f n) answer := by
  intro t ht hc hd
  obtain ⟨result, t', hrun, hrest⟩ := h t ht hc hd
  exact ⟨result, t', (Halts.of_run (hq t hc)).bind hrun, hrest⟩

theorem gives_pure (a : α) (h : exit depth) :
    Gives tokens depth exit c (fun _ => pure a) (.ok (a, c)) := by
  intro t ht hc hd
  exact ⟨.ok a, t, .of_run rfl, ht, .ok hc (by rwa [hd])⟩

theorem pure_steady (a : α) : Steady tokens depth (fun _ => pure a) (pure a) :=
  fun _ => gives_pure a rfl

theorem gives_issue {p : Nat → Descent α} {x : Diagnostic}
    (hp : ∀ t : Trail, c.IsAt tokens t.now.index → Halts p t (.error (.issue x)) t) :
    Gives tokens depth exit c p (.error x) := by
  intro t ht hc hd
  exact ⟨_, t, hp t hc, ht, .issue (Nat.le_of_eq hd.symm)⟩

/-! ## Tokens -/

section Tokens
variable {t : Trail}

theorem now_run (t : Trail) : (now : Descent Stand) t = some (.ok t.now, t) := rfl

theorem token_run (hc : c.IsAt tokens t.now.index) :
    token tokens t = some (.ok c.current, t) := by
  have hget : tokens[t.now.index]? = some c.current := hc.getElem? 0
  rw [token, bind_of_ok (now_run t), hget]
  rfl

theorem kind_run (hc : c.IsAt tokens t.now.index) : kind tokens t = some (.ok c.kind, t) :=
  bind_of_ok (token_run hc)

theorem position_run (hc : c.IsAt tokens t.now.index) :
    position tokens t = some (.ok c.position, t) :=
  bind_of_ok (token_run hc)

theorem kindAt_run (hc : c.IsAt tokens t.now.index) (n : Nat) :
    kindAt tokens n t = some (.ok (c.kindAt n), t) := by
  change some (Except.ok ((tokens[t.now.index + n]?.map Token.kind).getD .eof), t) = _
  rw [hc.getElem? n]
  unfold Cursor.kindAt
  cases (c.current :: c.rest)[n]? <;> rfl

theorem fail_run (issue : Issue) (hc : c.IsAt tokens t.now.index) :
    (fail tokens issue : Descent α) t = some (.error (.issue ⟨issue, c.position⟩), t) :=
  bind_of_ok (position_run hc)

theorem advance_run (hc : c.IsAt tokens t.now.index) :
    advance tokens t = some (.ok (), t.onward tokens) := by
  rw [advance, bind_of_ok (token_run hc), bind_of_ok (now_run t), Trail.onward]
  split <;> rfl

end Tokens

theorem Gives.peek {f : Nat → Token.Kind → Descent α} {g : Token.Kind → Reader α}
    (h : ∀ k, c.kind = k → Gives tokens depth exit c (fun n => f n k) (g k c)) :
    Gives tokens depth exit c (fun n => kind tokens >>= f n) ((Reader.peek >>= g) c) :=
  Gives.look (fun _ => kind_run) (h _ rfl)

theorem fail_gives (issue : Issue) :
    Gives tokens depth exit c (fun _ => (fail tokens issue : Descent α))
      (.error ⟨issue, c.position⟩) :=
  gives_issue fun _ hc => .of_run (fail_run issue hc)

theorem missing_steady (what : Expected) :
    Steady tokens depth (fun _ => (missing tokens what : Descent α)) (Reader.missing what) := by
  intro c
  refine Gives.look (fun _ => kind_run) ?_
  unfold Reader.missing
  cases c.kind with
  | _ => exact fail_gives _

theorem advance_steady : Steady tokens depth (fun _ => advance tokens) Reader.advance := by
  intro c t ht hc hd
  have hplace := hc.advance
  refine ⟨_, _, .of_run (advance_run hc), ?_⟩
  unfold Trail.onward
  split
  · next hlt =>
    have hvalid : Stand.Valid tokens { t.now with index := t.now.index + 1 } := ⟨hlt, ht.now.2⟩
    rw [if_pos hlt] at hplace
    exact ⟨ht.go hvalid, .ok hplace hd⟩
  · next hlast =>
    -- the last token is not left, and the cursor stays on it as well
    rw [if_neg hlast] at hplace
    exact ⟨ht, .ok hplace hd⟩

theorem expect_gives (k : Token.Kind) (what : Expected) :
    Gives tokens depth (· = depth) c (fun _ => expect tokens k what)
      (if c.kind = k then .ok ((), c.advance) else Reader.missing what c) := by
  refine Gives.look (fun _ => kind_run) ?_
  split
  · exact advance_steady c
  · exact missing_steady what c

theorem symbol_steady (s : Symbol) :
    Steady tokens depth (fun _ => symbol tokens s) (Reader.symbol s) :=
  fun _ => expect_gives _ _

theorem keyword_steady (k : Keyword) :
    Steady tokens depth (fun _ => keyword tokens k) (Reader.keyword k) :=
  fun _ => expect_gives _ _

theorem position_steady : Steady tokens depth (fun _ => position tokens) Reader.position := by
  intro c t ht hc hd
  exact ⟨_, t, .of_run (position_run hc), ht, .ok hc hd⟩

theorem identifier_steady : Steady tokens depth (fun _ => identifier tokens) Reader.identifier := by
  intro c
  refine Gives.look (fun _ => kind_run) ?_
  unfold Reader.identifier
  cases c.kind with
  | ident name => exact (advance_steady.bind fun _ => pure_steady name) c
  | _ => exact missing_steady _ c

theorem count_steady : Steady tokens depth (fun _ => count tokens) Reader.count := by
  intro c
  refine Gives.look (fun _ => kind_run) ?_
  unfold Reader.count
  cases c.kind with
  | number digits =>
    simp only
    cases repeatCount? digits with
    | some value => exact (advance_steady.bind fun _ => pure_steady value) c
    | none => exact fail_gives _
  | _ => exact missing_steady _ c

/-! ## Levels -/

theorem descend_run {t : Trail} (h : t.now.depth < nestingLimit) :
    descend tokens t =
      some (.ok (), ⟨{ t.now with depth := t.now.depth + 1 }, t.now :: t.past⟩) := by
  rw [descend, bind_of_ok (now_run t), if_neg (Nat.not_le.mpr h)]
  rfl

theorem ascend_run {t : Trail} {d : Nat} (h : t.now.depth = d + 1) :
    ascend t = some (.ok (), ⟨{ t.now with depth := d }, t.now :: t.past⟩) := by
  rw [ascend, bind_of_ok (now_run t), h]
  rfl

/-- With no level left, a descent is too deep before it begins. -/
theorem descend_full (f : Nat → Unit → Descent α) :
    Gives tokens nestingLimit exit c (fun n => descend tokens >>= f n) (Reader.tooDeep c) := by
  intro t ht hc hd
  have hrun : descend tokens t = some (.error (.issue ⟨.tooDeep, c.position⟩), t) := by
    rw [descend, bind_of_ok (now_run t), if_pos (Nat.le_of_eq hd.symm)]
    exact fail_run _ hc
  exact ⟨_, t, (Halts.of_run hrun).bind_error, ht, .issue (Nat.le_of_eq hd.symm)⟩

theorem descend_gives {f : Nat → Unit → Descent α} {answer : Except Diagnostic (α × Cursor)}
    (hd : depth < nestingLimit) (hf : Gives tokens (depth + 1) exit c (fun n => f n ()) answer) :
    Gives tokens depth exit c (fun n => descend tokens >>= f n) answer := by
  intro t ht hc hdepth
  have hlt : t.now.depth < nestingLimit := hdepth ▸ hd
  obtain ⟨result, t', hrun, ht', ha⟩ := hf _ (ht.deeper hlt) hc (congrArg (· + 1) hdepth)
  exact ⟨result, t', (Halts.of_run (descend_run hlt)).bind hrun, ht',
    ha.weaken (Nat.le_succ _) fun _ h => h⟩

/-- A failure is held back like a result. -/
theorem Halts.held {p : Nat → Descent α} {t t' : Trail} {result : Except Stop α}
    (h : Halts p t result t') : Halts (fun n => ExceptT.lift (p n).run) t (.ok result) t' := by
  obtain ⟨n, h⟩ := h
  refine ⟨n, fun m hm => ?_⟩
  change (p m t >>= fun x => some (Except.ok x.1, x.2)) = _
  rw [h m hm]
  rfl

theorem nested_steady {p : Nat → Descent α} {r : Reader α} (hd : depth < nestingLimit)
    (hp : Steady tokens (depth + 1) p r) :
    Steady tokens depth (fun n => nested tokens (p n)) r := by
  intro c t ht hc hdepth
  have hlt : t.now.depth < nestingLimit := hdepth ▸ hd
  obtain ⟨result, t', hrun, ht', ha⟩ := hp c _ (ht.deeper hlt) hc (congrArg (· + 1) hdepth)
  -- a failure leaves levels open as well, so there is one to give back
  have hle : depth + 1 ≤ t'.now.depth := ha.le fun _ h => Nat.le_of_eq h.symm
  obtain ⟨d, hopen⟩ : ∃ d, t'.now.depth = d + 1 := ⟨t'.now.depth - 1, by omega⟩
  have hvalid : Stand.Valid tokens { t'.now with depth := d } := by
    have hlimit := ht'.now.2
    exact ⟨ht'.now.1, by simp only; omega⟩
  have hresult (t : Trail) : (MonadExcept.ofExcept result : Descent α) t = some (result, t) := by
    cases result <;> rfl
  refine ⟨result, _, (Halts.of_run (descend_run hlt)).bind (hrun.held.bind
    ((Halts.of_run (ascend_run hopen)).bind (.of_run (hresult _)))), ht'.go hvalid, ?_⟩
  generalize r c = answer at ha
  cases ha with
  | ok hplace hl => exact .ok hplace (by simp only; omega)
  | issue => exact .issue (by simp only; omega)

/-- Levels that are left open are closed when the depth is set back. -/
theorem restoring_steady {p : Nat → Descent α} {r : Reader α} (hp : Rising tokens depth p r) :
    Steady tokens depth (fun n => restoring (p n)) r := by
  intro c t ht hc hdepth
  obtain ⟨result, t', hrun, ht', ha⟩ := hp c t ht hc hdepth
  generalize r c = answer at ha
  cases ha with
  | ok hplace hl =>
    have hvalid : Stand.Valid tokens { t'.now with depth := t.now.depth } :=
      ⟨ht'.now.1, ht.now.2⟩
    exact ⟨_, _, (Halts.of_run (now_run t)).bind (hrun.bind (.of_run rfl)), ht'.go hvalid,
      .ok hplace hdepth⟩
  | issue hl =>
    exact ⟨_, t', (Halts.of_run (now_run t)).bind hrun.bind_error, ht', .issue hl⟩

end Descent
end Karel
