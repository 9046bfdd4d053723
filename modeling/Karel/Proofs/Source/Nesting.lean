import Karel.Proofs.Source.ProgramGrammar
import Mathlib.Tactic.Ring

/-! # How deep programs are nested

A route leads from a command down to a call or a query: first into blocks, then into operands of a
condition. Readers have a number of levels left, and the blocks, negations and right operands on a
route use them up one by one. A left operand is different. It has been read before its operator is
met, and the levels that it used are free again by then, so that an operator on top of an operand
that has operators of its own is not charged on the routes into that operand. What the levels bound
is therefore not the length of a route, which may come near their square.
-/
namespace Karel

/-- The operand of an operator that a route goes into. -/
inductive Side where
  | only
  | left
  | right
  deriving DecidableEq

namespace Side

/-- The operators that use up a level: all but those whose left operand is gone into and has
operators itself. -/
def charge : List Side → Nat
  | [] => 0
  | .left :: t :: ts => charge (t :: ts)
  | _ :: ts => charge ts + 1

theorem charge_le_succ (t : Side) (ts : List Side) : charge (t :: ts) ≤ charge ts + 1 := by
  cases t with
  | only => exact Nat.le_refl _
  | right => exact Nat.le_refl _
  | left =>
    cases ts with
    | nil => exact Nat.le_refl _
    | cons t ts => exact Nat.le_succ _

theorem charge_left_le {ts : List Side} {n : Nat} (h : charge ts ≤ n) (hn : 0 < n) :
    charge (.left :: ts) ≤ n := by
  cases ts with
  | nil => exact hn
  | cons t ts => exact h

/-- All operators are charged if no left operand is followed by another. -/
theorem charge_eq_length {ts : List Side} (h : .left ∉ ts.dropLast) : charge ts = ts.length := by
  induction ts with
  | nil => rfl
  | cons t ts ih =>
    cases ts with
    | nil => cases t <;> rfl
    | cons u ts =>
      rw [List.dropLast_cons_of_ne_nil (List.cons_ne_nil _ _), List.mem_cons, not_or] at h
      have htail := ih h.2
      have hcharge : charge (t :: u :: ts) = charge (u :: ts) + 1 := by
        cases t with
        | only => rfl
        | right => rfl
        | left => exact absurd rfl h.1
      rw [hcharge, htail]
      rfl

end Side

/-- A way from a command down to a call or a query: so many blocks, and the operands in the
condition with the outermost first. -/
structure Route where
  blocks : Nat
  sides : List Side
  deriving DecidableEq

namespace Route

/-- The same route from outside of one more block. -/
def deeper (r : Route) : Route := { r with blocks := r.blocks + 1 }

/-- The blocks and operators on a route. -/
def depth (r : Route) : Nat := r.blocks + r.sides.length

/-- Those of them that use up a level. -/
def charge (r : Route) : Nat := r.blocks + Side.charge r.sides

@[simp] theorem depth_deeper (r : Route) : r.deeper.depth = r.depth + 1 := by
  simp only [depth, deeper]
  omega

@[simp] theorem charge_deeper (r : Route) : r.deeper.charge = r.charge + 1 := by
  simp only [charge, deeper]
  omega

end Route

/-- The operands on the way from a condition to each of its queries. -/
def Condition.routes : Condition → List (List Side)
  | .query _ _ => [[]]
  | .not c => c.routes.map (.only :: ·)
  | .and l r | .or l r => l.routes.map (.left :: ·) ++ r.routes.map (.right :: ·)

mutual

/-- The routes from a statement to each call and query in it. An `else if` stands in a block of its
own. -/
def Statement.routes : Statement → List Route
  | .call _ _ => [⟨0, []⟩]
  | .repeat _ body _ => (blockRoutes body).map .deeper
  | .if c yes _ => c.routes.map (⟨0, ·⟩) ++ (blockRoutes yes).map .deeper
  | .ifElse c yes no _ =>
    c.routes.map (⟨0, ·⟩) ++ (blockRoutes yes).map .deeper ++ (blockRoutes no).map .deeper
  | .while c body _ => c.routes.map (⟨0, ·⟩) ++ (blockRoutes body).map .deeper

def Statement.blockRoutes : List Statement → List Route
  | [] => []
  | s :: ss => s.routes ++ blockRoutes ss

end

/-- The routes from the commands of a program to each call and query in them. -/
def Program.routes (p : Program) : List Route :=
  p.commands.flatMap fun c => (Statement.blockRoutes c.body).map .deeper

/-! ## Conditions -/

/-- Every route charges at most `n` levels and has at most `k` operators. -/
def Condition.Within (n k : Nat) (c : Condition) : Prop :=
  ∀ ts ∈ c.routes, Side.charge ts ≤ n ∧ ts.length ≤ k

namespace Condition

variable {n n' k k' : Nat} {c l r : Condition}

theorem Within.mono (h : c.Within n k) (hn : n ≤ n') (hk : k ≤ k') : c.Within n' k' :=
  fun ts hts => ⟨Nat.le_trans (h ts hts).1 hn, Nat.le_trans (h ts hts).2 hk⟩

theorem within_query (q : Query) (p : Position) : (query q p).Within n k := by
  intro ts hts
  rw [routes, List.mem_singleton] at hts
  subst hts
  exact ⟨Nat.zero_le _, Nat.zero_le _⟩

theorem Within.not (h : c.Within n k) : (Condition.not c).Within (n + 1) (k + 1) := by
  intro ts hts
  obtain ⟨us, hus, rfl⟩ := List.mem_map.1 hts
  obtain ⟨hcharge, hlength⟩ := h us hus
  exact ⟨Nat.succ_le_succ hcharge, Nat.succ_le_succ hlength⟩

/-- An operator makes all routes longer, but charges nothing to those through its left operand. -/
theorem Within.join {ts : List Side} (hl : l.Within n k) (hr : r.Within n' k) (hn : n' < n)
    (h : ts ∈ l.routes.map (.left :: ·) ++ r.routes.map (.right :: ·)) :
    Side.charge ts ≤ n ∧ ts.length ≤ k + 1 := by
  rcases List.mem_append.1 h with h | h
  · obtain ⟨us, hus, rfl⟩ := List.mem_map.1 h
    obtain ⟨hcharge, hlength⟩ := hl us hus
    exact ⟨Side.charge_left_le hcharge (by omega), Nat.succ_le_succ hlength⟩
  · obtain ⟨us, hus, rfl⟩ := List.mem_map.1 h
    obtain ⟨hcharge, hlength⟩ := hr us hus
    have hright := Side.charge_le_succ .right us
    exact ⟨by omega, Nat.succ_le_succ hlength⟩

theorem Within.and (hl : l.Within n k) (hr : r.Within n' k) (hn : n' < n) :
    (Condition.and l r).Within n (k + 1) := fun _ hts => hl.join hr hn hts

theorem Within.or (hl : l.Within n k) (hr : r.Within n' k) (hn : n' < n) :
    (Condition.or l r).Within n (k + 1) := fun _ hts => hl.join hr hn hts

end Condition

namespace Reader

variable {α β : Type} {P : α → Prop} {Q : β → Prop}

/-- Whatever a reader reads has a property. -/
def Yields (r : Reader α) (P : α → Prop) : Prop := ∀ c a d, r c = .ok (a, d) → P a

theorem Yields.mono {P' : α → Prop} {r : Reader α} (h : r.Yields P) (himp : ∀ a, P a → P' a) :
    r.Yields P' := fun c a d hr => himp a (h c a d hr)

theorem fail_yields (issue : Issue) : (fail issue).Yields P := by
  intro c a d h
  cases h

theorem missing_yields (what : Expected) : (missing what).Yields P :=
  fun _ _ _ h => absurd h (missing_ne_ok _ _ _)

theorem pure_yields {a : α} (h : P a) : (pure a : Reader α).Yields P := by
  intro c b d hr
  cases hr
  exact h

theorem Yields.bind {r : Reader α} {f : α → Reader β} (hr : r.Yields P)
    (hf : ∀ a, P a → (f a).Yields Q) : (r >>= f).Yields Q := by
  intro c b d h
  obtain ⟨a, e, ha, hb⟩ := bind_eq_ok.1 h
  exact hf a (hr c a e ha) e b d hb

/-- What has been read first does not matter. -/
theorem yields_bind {r : Reader α} {f : α → Reader β} (hf : ∀ a, (f a).Yields Q) :
    (r >>= f).Yields Q := by
  intro c b d h
  obtain ⟨a, e, -, hb⟩ := bind_eq_ok.1 h
  exact hf a e b d hb

theorem query_yields {n k : Nat} (name : String) : (query name).Yields (Condition.Within n k) := by
  unfold query
  split
  · exact yields_bind fun _ => yields_bind fun _ => yields_bind fun _ => yields_bind fun _ =>
      pure_yields (Condition.within_query _ _)
  · exact fail_yields _

theorem operandWith_yields {n k : Nat} {negated grouped : Reader Condition}
    (hn : negated.Yields fun c => c.not.Within n k) (hg : grouped.Yields (Condition.Within n k)) :
    (operandWith negated grouped).Yields (Condition.Within n k) := by
  refine yields_bind fun kind => ?_
  split
  · exact yields_bind fun _ => hn.bind fun _ h => pure_yields h
  · exact yields_bind fun _ => hg.bind fun _ h => yields_bind fun _ => pure_yields h
  · exact query_yields _
  · exact fail_yields _
  · exact missing_yields _

theorem tailWith_yields {operator : Symbol} {left : Condition} {more : Reader Condition}
    {P : Condition → Prop} (hleft : P left) (hmore : more.Yields P) :
    (tailWith operator left more).Yields P := by
  refine yields_bind fun kind => ?_
  split
  · exact yields_bind fun _ => hmore
  · exact pure_yields hleft

/-- The bounds for readers with `n` levels left. The tails go on with a chain that has been charged
at most `m` levels, and each operator of the chain makes it deeper by one. -/
structure LevelYields (n : Nat) : Prop where
  operand : (operand n).Yields (Condition.Within n (n * n))
  conjunctionTail : ∀ {m k left}, n ≤ m → n * n ≤ k → left.Within m k →
    (conjunctionTail n left).Yields (Condition.Within m (k + n))
  conditionTail : ∀ {m k left}, n ≤ m → n * n + n ≤ k → left.Within m k →
    (conditionTail n left).Yields (Condition.Within m (k + n))

namespace LevelYields

variable {n : Nat}

theorem conjunction (h : LevelYields n) :
    (conjunction n).Yields (Condition.Within n (n * n + n)) :=
  h.operand.bind fun _ hfirst => h.conjunctionTail (Nat.le_refl _) (Nat.le_refl _) hfirst

theorem condition (h : LevelYields n) :
    (condition n).Yields (Condition.Within n (n * n + 2 * n)) := by
  refine h.conjunction.bind fun _ hfirst => ?_
  refine (h.conditionTail (Nat.le_refl _) (Nat.le_refl _) hfirst).mono fun c hc => ?_
  exact hc.mono (Nat.le_refl _) (by omega)

theorem zero : LevelYields 0 := by
  refine ⟨?_, fun _ _ hleft => ?_, fun _ _ hleft => ?_⟩
  · exact operandWith_yields (fail_yields _) (fail_yields _)
  · exact tailWith_yields (hleft.mono (Nat.le_refl _) (by omega)) (fail_yields _)
  · exact tailWith_yields (hleft.mono (Nat.le_refl _) (by omega)) (fail_yields _)

theorem succ (h : LevelYields n) : LevelYields (n + 1) := by
  have hsquare : (n + 1) * (n + 1) = n * n + 2 * n + 1 := by ring
  refine ⟨?_, fun {m k left} hm hk hleft => ?_, fun {m k left} hm hk hleft => ?_⟩
  · rw [operand_succ]
    refine operandWith_yields (h.operand.mono fun c hc => ?_) (h.condition.mono fun c hc => ?_)
    · exact hc.not.mono (Nat.le_refl _) (by omega)
    · exact hc.mono (by omega) (by omega)
  · rw [conjunctionTail_succ]
    refine tailWith_yields (hleft.mono (Nat.le_refl _) (by omega)) ?_
    refine h.operand.bind fun right hright => ?_
    have hright : right.Within n k := hright.mono (Nat.le_refl _) (by omega)
    have hand : (Condition.and left right).Within m (k + 1) := hleft.and hright (by omega)
    refine (h.conjunctionTail (by omega) (by omega) hand).mono fun c hc => ?_
    exact hc.mono (Nat.le_refl _) (by omega)
  · rw [conditionTail_succ]
    refine tailWith_yields (hleft.mono (Nat.le_refl _) (by omega)) ?_
    refine h.conjunction.bind fun right hright => ?_
    have hright : right.Within n k := hright.mono (Nat.le_refl _) (by omega)
    have hor : (Condition.or left right).Within m (k + 1) := hleft.or hright (by omega)
    refine (h.conditionTail (by omega) (by omega) hor).mono fun c hc => ?_
    exact hc.mono (Nat.le_refl _) (by omega)

end LevelYields

theorem levelYields (n : Nat) : LevelYields n := by
  induction n with
  | zero => exact .zero
  | succ n ih => exact ih.succ

end Reader

/-! ## Statements -/

/-- A block around these routes charges at most `n` levels, and its square bounds their depth. -/
def Enclosed (n : Nat) (routes : List Route) : Prop :=
  ∀ r ∈ routes, r.charge < n ∧ r.depth < n * n

/-- With `n` levels left, the routes of a statement. -/
def Statement.Within (n : Nat) (s : Statement) : Prop :=
  ∀ r ∈ s.routes, r.charge ≤ n ∧ r.depth ≤ n * n + 2 * n

namespace Statement

variable {n : Nat} {c : Condition} {body yes no : List Statement} {p : Position}

theorem within_condition (h : c.Within n (n * n + 2 * n)) {r : Route}
    (hr : r ∈ c.routes.map (⟨0, ·⟩)) : r.charge ≤ n ∧ r.depth ≤ n * n + 2 * n := by
  obtain ⟨ts, hts, rfl⟩ := List.mem_map.1 hr
  obtain ⟨hcharge, hlength⟩ := h ts hts
  simp only [Route.charge, Route.depth]
  omega

theorem within_block (h : Enclosed n (blockRoutes body)) {r : Route}
    (hr : r ∈ (blockRoutes body).map .deeper) : r.charge ≤ n ∧ r.depth ≤ n * n := by
  obtain ⟨inner, hinner, rfl⟩ := List.mem_map.1 hr
  obtain ⟨hcharge, hdepth⟩ := h inner hinner
  rw [Route.charge_deeper, Route.depth_deeper]
  exact ⟨hcharge, hdepth⟩

theorem within_body (h : Enclosed n (blockRoutes body)) {r : Route}
    (hr : r ∈ (blockRoutes body).map .deeper) : r.charge ≤ n ∧ r.depth ≤ n * n + 2 * n := by
  obtain ⟨hcharge, hdepth⟩ := within_block h hr
  exact ⟨hcharge, by omega⟩

theorem within_call (name : String) : (call name p).Within n := by
  intro r hr
  rw [routes, List.mem_singleton] at hr
  subst hr
  exact ⟨Nat.zero_le _, Nat.zero_le _⟩

theorem within_repeat (count : Nat) (hb : Enclosed n (blockRoutes body)) :
    («repeat» count body p).Within n := fun _ hr => within_body hb hr

theorem within_while (hc : c.Within n (n * n + 2 * n)) (hb : Enclosed n (blockRoutes body)) :
    («while» c body p).Within n := by
  intro r hr
  rcases List.mem_append.1 hr with hr | hr
  · exact within_condition hc hr
  · exact within_body hb hr

theorem within_if (hc : c.Within n (n * n + 2 * n)) (hy : Enclosed n (blockRoutes yes)) :
    («if» c yes p).Within n := by
  intro r hr
  rcases List.mem_append.1 hr with hr | hr
  · exact within_condition hc hr
  · exact within_body hy hr

theorem within_ifElse (hc : c.Within n (n * n + 2 * n)) (hy : Enclosed n (blockRoutes yes))
    (hn : Enclosed n (blockRoutes no)) : (ifElse c yes no p).Within n := by
  intro r hr
  rcases List.mem_append.1 hr with hr | hr
  · exact within_if (p := p) hc hy r hr
  · exact within_body hn hr

theorem Within.enclosed {s : Statement} (h : s.Within n) : Enclosed (n + 1) s.routes := by
  intro r hr
  obtain ⟨hcharge, hdepth⟩ := h r hr
  have hsquare : (n + 1) * (n + 1) = n * n + 2 * n + 1 := by ring
  exact ⟨by omega, by omega⟩

theorem enclosed_cons {s : Statement} {ss : List Statement} (h : Enclosed n s.routes)
    (hs : Enclosed n (blockRoutes ss)) : Enclosed n (blockRoutes (s :: ss)) := by
  intro r hr
  rcases List.mem_append.1 hr with hr | hr
  · exact h r hr
  · exact hs r hr

theorem enclosed_nil : Enclosed n (blockRoutes []) := by
  intro r hr
  cases hr

end Statement

namespace Reader

open Statement

variable {n : Nat} {block : Mover (List Statement)} {elseIf : Mover Statement}

theorem callStatement_yields : callStatement.Yields (Statement.Within n) :=
  yields_bind fun _ => yields_bind fun _ => yields_bind fun _ => yields_bind fun _ =>
    yields_bind fun _ => pure_yields (within_call _)

theorem repeatStatement_yields (hb : block.read.Yields fun ss => Enclosed n (blockRoutes ss)) :
    (repeatStatement block).Yields (Statement.Within n) :=
  yields_bind fun _ => yields_bind fun _ => yields_bind fun _ => yields_bind fun _ =>
    yields_bind fun _ => hb.bind fun _ hbody => pure_yields (within_repeat _ hbody)

theorem whileStatement_yields (hb : block.read.Yields fun ss => Enclosed n (blockRoutes ss)) :
    (whileStatement n block).Yields (Statement.Within n) :=
  yields_bind fun _ => yields_bind fun _ => yields_bind fun _ =>
    (levelYields n).condition.bind fun _ hc => yields_bind fun _ =>
      hb.bind fun _ hbody => pure_yields (within_while hc hbody)

theorem elsePart_yields (hb : block.read.Yields fun ss => Enclosed n (blockRoutes ss))
    (he : elseIf.read.Yields fun s => Enclosed n s.routes) {c : Condition} {yes : List Statement}
    (hc : c.Within n (n * n + 2 * n)) (hy : Enclosed n (blockRoutes yes)) (p : Position) :
    (elsePart block elseIf c yes p).Yields (Statement.Within n) := by
  refine yields_bind fun kind => ?_
  split
  · refine yields_bind fun _ => yields_bind fun kind => ?_
    split
    · exact hb.bind fun _ hno => pure_yields (within_ifElse hc hy hno)
    · refine he.bind fun _ hlink => pure_yields (within_ifElse hc hy ?_)
      exact enclosed_cons hlink enclosed_nil
    · exact fail_yields _
  · exact pure_yields (within_if hc hy)

theorem ifStatement_yields (hb : block.read.Yields fun ss => Enclosed n (blockRoutes ss))
    (he : elseIf.read.Yields fun s => Enclosed n s.routes) :
    (ifStatement n block elseIf).Yields (Statement.Within n) :=
  yields_bind fun _ => yields_bind fun _ => yields_bind fun _ =>
    (levelYields n).condition.bind fun _ hc => yields_bind fun _ =>
      hb.bind fun _ hy => elsePart_yields hb he hc hy _

theorem statement_yields (hb : block.read.Yields fun ss => Enclosed n (blockRoutes ss))
    (he : elseIf.read.Yields fun s => Enclosed n s.routes) :
    (statement n block elseIf).Yields (Statement.Within n) := by
  refine yields_bind fun kind => ?_
  split
  · exact callStatement_yields
  · exact repeatStatement_yields hb
  · exact ifStatement_yields hb he
  · exact whileStatement_yields hb
  · exact fun c a d h => fail_yields _ c a d h
  · exact fail_yields _
  · exact fail_yields _
  · exact fail_yields _

theorem statements_yields {mover : Mover Statement} (hm : mover.read.Yields (Statement.Within n))
    (opening : Position) :
    Yields (statements mover opening) fun ss => Enclosed (n + 1) (blockRoutes ss) := by
  intro c ss d h
  fun_induction statements mover opening c generalizing ss d with
  | case1 =>
    cases h
    exact enclosed_nil
  | case2 => cases h
  | case3 => cases h
  | case4 => cases h
  | case5 c s c' hread hlt ss' c'' hss _ _ ih =>
    cases h
    exact enclosed_cons (hm _ _ _ hread).enclosed (ih _ _ hss)

theorem braced_yields {mover : Mover Statement} (hm : mover.read.Yields (Statement.Within n)) :
    (braced mover).Yields fun ss => Enclosed (n + 1) (blockRoutes ss) :=
  yields_bind fun opening => yields_bind fun _ => statements_yields hm opening

theorem level_yields (n : Nat) :
    ((Level.ofNat n).block.read.Yields fun ss => Enclosed n (blockRoutes ss)) ∧
      (Level.ofNat n).elseIf.read.Yields fun s => Enclosed n s.routes := by
  induction n with
  | zero => exact ⟨fail_yields _, fail_yields _⟩
  | succ n ih =>
    obtain ⟨hb, he⟩ := ih
    refine ⟨braced_yields (statement_yields hb he), ?_⟩
    exact (ifStatement_yields hb he).mono fun s hs => hs.enclosed

theorem command_yields :
    command.Yields fun a => Enclosed nestingLimit (blockRoutes a.body) :=
  yields_bind fun _ => yields_bind fun _ => yields_bind fun _ => yields_bind fun _ =>
    yields_bind fun _ => (level_yields nestingLimit).1.bind fun _ hbody => pure_yields hbody

theorem commands_yield {c : Cursor} {cs : List Command} (h : commands c = .ok cs) :
    ∀ a ∈ cs, Enclosed nestingLimit (blockRoutes a.body) := by
  fun_induction commands c generalizing cs with
  | case1 =>
    cases h
    simp
  | case2 => cases h
  | case3 => cases h
  | case4 c hk first c' hread hlt others hothers ih =>
    cases h
    exact List.forall_mem_cons.2 ⟨command_yields _ _ _ hread, ih hothers⟩
  | case5 => cases h

end Reader

namespace Program

open Grammar

/-- Reading bounds how deep a program is nested, whatever the tokens are. Of the blocks and
operators on a route at most `nestingLimit` are charged, and there are at most as many as its
square. They are all charged, so that the limit bounds them, if no operator stands in a left operand
on the route. -/
theorem charged_within_limit {tokens : List Token} {p : Program}
    (h : ofTokens? tokens = some (.ok p)) {r : Route} (hr : r ∈ p.routes) :
    r.charge ≤ nestingLimit ∧ r.depth ≤ nestingLimit * nestingLimit ∧
      (.left ∉ r.sides.dropLast → r.depth ≤ nestingLimit) := by
  obtain ⟨c, -, hread⟩ := Option.map_eq_some_iff.1 h
  obtain ⟨-, hcommands⟩ := read_eq_ok.1 hread
  obtain ⟨a, ha, hr⟩ := List.mem_flatMap.1 hr
  have henclosed := Reader.commands_yield hcommands a ha
  obtain ⟨hcharge, hdepth⟩ := Statement.within_block henclosed hr
  refine ⟨hcharge, hdepth, fun hleft => ?_⟩
  have hfull := Side.charge_eq_length hleft
  rw [Route.charge, hfull] at hcharge
  exact hcharge

/-- A negation of 63 levels stands in a command, with an `||` behind it. -/
def negations : String :=
  "void main() \x7b if (" ++ String.ofList (List.replicate 63 '!') ++
    "onBeeper() || onBeeper()) \x7b \x7d \x7d"

/-- The places of its exclamation marks. -/
def bangs : List Position := (List.range 63).map fun i => ⟨1, 19 + i⟩

/-- Its tokens but for the end of file. -/
def negationsTokens : List Token :=
  [⟨.keyword .void, ⟨1, 1⟩⟩, ⟨.ident "main", ⟨1, 6⟩⟩, ⟨.symbol .openParen, ⟨1, 10⟩⟩,
    ⟨.symbol .closeParen, ⟨1, 11⟩⟩, ⟨.symbol .openBrace, ⟨1, 13⟩⟩, ⟨.keyword .if, ⟨1, 15⟩⟩,
    ⟨.symbol .openParen, ⟨1, 18⟩⟩] ++
  bangs.map (⟨.symbol .bang, ·⟩) ++
  [⟨.ident "onBeeper", ⟨1, 82⟩⟩, ⟨.symbol .openParen, ⟨1, 90⟩⟩, ⟨.symbol .closeParen, ⟨1, 91⟩⟩,
    ⟨.symbol .orOr, ⟨1, 93⟩⟩, ⟨.ident "onBeeper", ⟨1, 96⟩⟩, ⟨.symbol .openParen, ⟨1, 104⟩⟩,
    ⟨.symbol .closeParen, ⟨1, 105⟩⟩, ⟨.symbol .closeParen, ⟨1, 106⟩⟩,
    ⟨.symbol .openBrace, ⟨1, 108⟩⟩, ⟨.symbol .closeBrace, ⟨1, 110⟩⟩,
    ⟨.symbol .closeBrace, ⟨1, 112⟩⟩]

theorem tokenize_negations : tokenize negations = negationsTokens ++ [⟨.eof, ⟨1, 113⟩⟩] := by
  decide +kernel

theorem isOperand_bangs {n : Nat} {ts : List Token} {c : Condition} (h : IsOperand n ts c)
    (ps : List Position) :
    IsOperand (n + ps.length) (ps.map (⟨.symbol .bang, ·⟩) ++ ts)
      (ps.foldr (fun _ c => .not c) c) := by
  induction ps with
  | nil => exact h
  | cons p ps ih => exact .not p ih

def negationsProgram : Program :=
  ⟨[⟨"main", [.if (.or (bangs.foldr (fun _ c => .not c) (.query .onBeeper ⟨1, 82⟩))
    (.query .onBeeper ⟨1, 96⟩)) [] ⟨1, 15⟩], ⟨1, 1⟩⟩]⟩

theorem isProgram_negations : IsProgram nestingLimit negationsTokens negationsProgram := by
  have hquery : IsOperand 0 _ _ :=
    .query (Query.ofName?_name .onBeeper) ⟨1, 82⟩ ⟨1, 90⟩ ⟨1, 91⟩
  have hnot : IsOperand 63 _ _ := isOperand_bangs hquery bangs
  have hor : IsDisjunction 63 _ _ 62 :=
    .more ⟨1, 93⟩ (.one (.one hnot))
      (.one (.query (Query.ofName?_name .onBeeper) ⟨1, 96⟩ ⟨1, 104⟩ ⟨1, 105⟩))
  have hif : IsStatement 63 _ _ :=
    .branch (.plain ⟨1, 15⟩ ⟨1, 18⟩ ⟨1, 106⟩ ⟨62, hor⟩ (.braces ⟨1, 108⟩ ⟨1, 110⟩ .nil))
  have hcommand : IsCommand 64 _ _ :=
    .void "main" ⟨1, 1⟩ ⟨1, 6⟩ ⟨1, 10⟩ ⟨1, 11⟩ (.braces ⟨1, 13⟩ ⟨1, 112⟩ (.cons hif .nil))
  have hcommands : AreCommands 64 _ _ := .cons hcommand .nil
  exact ⟨List.cons_ne_nil _ _, hcommands⟩

theorem read_negations : ofTokens? (tokenize negations) = some (.ok negationsProgram) := by
  rw [tokenize_negations, ofTokens?_append, read_of_isProgram rfl isProgram_negations]

/-- The route to the query under the negations. -/
def negationsRoute : Route := ⟨1, .left :: List.replicate 63 .only⟩

theorem mem_routes_negations : negationsRoute ∈ negationsProgram.routes := by decide

/-- The route charges all levels and is still longer. -/
theorem negations_charged_within_limit :
    ofTokens? (tokenize negations) = some (.ok negationsProgram) ∧
      negationsRoute ∈ negationsProgram.routes ∧ negationsRoute.charge = nestingLimit ∧
      negationsRoute.depth = nestingLimit + 1 ∧
      negationsRoute.depth ≤ nestingLimit * nestingLimit := by
  have hbound := charged_within_limit read_negations mem_routes_negations
  exact ⟨read_negations, mem_routes_negations, by decide, by decide, hbound.2.1⟩

/-- The limit does not bound the routes of all programs that are read. -/
theorem negations_exceed_limit :
    ¬ ∀ tokens p, ofTokens? tokens = some (.ok p) → ∀ r ∈ p.routes, r.depth ≤ nestingLimit := by
  intro h
  have hdepth := h _ _ read_negations _ mem_routes_negations
  revert hdepth
  decide

end Program
end Karel
