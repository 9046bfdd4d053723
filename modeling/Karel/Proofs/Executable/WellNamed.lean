import Mathlib.Data.List.Induction
import Mathlib.Data.List.Nodup
import Karel.Proofs.Executable.Linked

/-! # Well-named programs

What can be wrong with the names of a program is said here without compiling it. There are three
kinds of issues, each of them about the first place where something is wrong: a command takes a name
that is built in or that an earlier command has, the entry is not declared, and a call names neither
an action nor a declared command. Compiling reports the first kind of which there is an issue, and
it succeeds just when there is none of any kind.
-/
namespace Karel

/-- The name of an action or of a condition. -/
def IsBuiltin (name : String) : Prop :=
  (∃ p : Primitive, p.name = name) ∨ ∃ q : Query, q.name = name

/-- A diagnostic with a given code, issue and position. -/
structure Diagnostic.Is (d : Diagnostic) (code : String) (issue : Issue) (position : Position) :
    Prop where
  issue : d.issue = issue
  position : d.position = position
  code : d.issue.code = code

/-- A call and where it stands. -/
structure Call where
  name : String
  position : Position

mutual

/-- The calls of a statement in the order in which they are read. -/
def Statement.calls : Statement → List Call
  | .call name position => [⟨name, position⟩]
  | .repeat _ body _ => blockCalls body
  | .if _ yes _ => blockCalls yes
  | .ifElse _ yes no _ => blockCalls yes ++ blockCalls no
  | .while _ body _ => blockCalls body

def Statement.blockCalls : List Statement → List Call
  | [] => []
  | s :: ss => s.calls ++ blockCalls ss

end

/-- A command that may not follow on others: its name is built in or one of theirs. -/
def Command.Clashes (c : Command) (earlier : List Command) : Prop :=
  IsBuiltin c.name ∨ ∃ first ∈ earlier, first.name = c.name

/-- No name is built in and none is taken twice. -/
structure WellNamed (cs : List Command) : Prop where
  free : ∀ c ∈ cs, ¬ IsBuiltin c.name
  distinct : (cs.map Command.name).Nodup

namespace Program

def calls (p : Program) : List Call := p.commands.flatMap fun c => Statement.blockCalls c.body

def Declares (p : Program) (name : String) : Prop := ∃ c ∈ p.commands, c.name = name

/-- A name that may be called. -/
def Knows (p : Program) (name : String) : Prop :=
  (∃ a : Primitive, a.name = name) ∨ p.Declares name

/-- The first command whose name is built in or taken. -/
inductive NameIssue (p : Program) (d : Diagnostic) : Prop where
  | builtin {before after : List Command} {c : Command} (h : p.commands = before ++ c :: after)
      (hb : WellNamed before) (hn : IsBuiltin c.name)
      (hd : d.Is "C004" (.redefinedBuiltin c.name) c.position)
  | duplicate {before after : List Command} {first c : Command}
      (h : p.commands = before ++ c :: after) (hb : WellNamed before) (hf : first ∈ before)
      (hn : first.name = c.name)
      (hd : d.Is "C003" (.duplicateCommand c.name first.position.line) c.position)

/-- The entry that is asked for is not declared, or nothing is. -/
inductive EntryIssue (p : Program) : Option String → Diagnostic → Prop where
  | undeclared {name : String} {d : Diagnostic} (h : ¬ p.Declares name)
      (hd : d.Is "C002" (.entryNotFound name)
        ((p.commands.head?.map Command.position).getD ⟨1, 1⟩)) :
      EntryIssue p (some name) d
  | empty {d : Diagnostic} (h : p.commands = []) (hd : d.Is "C002" .noEntry ⟨1, 1⟩) :
      EntryIssue p none d

/-- The first call of a name that is neither an action nor declared. -/
inductive CallIssue (p : Program) (d : Diagnostic) : Prop where
  | condition {before after : List Call} {call : Call} {q : Query}
      (h : p.calls = before ++ call :: after) (hb : ∀ c ∈ before, p.Knows c.name)
      (hk : ¬ p.Knows call.name) (hq : q.name = call.name)
      (hd : d.Is "C005" (.conditionAsStatement call.name) call.position)
  | undefined {before after : List Call} {call : Call}
      (h : p.calls = before ++ call :: after) (hb : ∀ c ∈ before, p.Knows c.name)
      (hk : ¬ p.Knows call.name) (hq : ∀ q : Query, q.name ≠ call.name)
      (hd : d.Is "C001" (.undefinedCommand call.name) call.position)

/-- An issue of the first kind of which there is one. -/
inductive FirstIssue (p : Program) (requested : Option String) (d : Diagnostic) : Prop where
  | name (h : p.NameIssue d)
  | entry (hn : ∀ d', ¬ p.NameIssue d') (h : p.EntryIssue requested d)
  | call (hn : ∀ d', ¬ p.NameIssue d') (he : ∀ d', ¬ p.EntryIssue requested d') (h : p.CallIssue d)

end Program

theorem Diagnostic.Is.eq {d : Diagnostic} {code : String} {issue : Issue} {position : Position}
    (h : d.Is code issue position) : d = ⟨issue, position⟩ := by
  cases d
  rw [← h.issue, ← h.position]

theorem Primitive.ofName?_eq_some_iff {name : String} {p : Primitive} :
    ofName? name = some p ↔ p.name = name := by
  constructor
  · intro h
    simpa using List.find?_some h
  · rintro rfl
    exact p.ofName?_name

theorem Query.ofName?_eq_some_iff {name : String} {q : Query} :
    ofName? name = some q ↔ q.name = name := by
  constructor
  · intro h
    simpa using List.find?_some h
  · rintro rfl
    exact q.ofName?_name

theorem isVocabulary_iff {name : String} : isVocabulary name = true ↔ IsBuiltin name := by
  simp only [isVocabulary, IsBuiltin, Bool.or_eq_true, Option.isSome_iff_exists,
    Primitive.ofName?_eq_some_iff, Query.ofName?_eq_some_iff]

/-! ## Names of commands -/

theorem WellNamed.nil : WellNamed [] := ⟨fun _ hc => absurd hc List.not_mem_nil, List.nodup_nil⟩

theorem WellNamed.of_append {cs cs' : List Command} (h : WellNamed (cs ++ cs')) : WellNamed cs := by
  refine ⟨fun c hc => h.free c (List.mem_append_left _ hc), ?_⟩
  have hd := h.distinct
  rw [List.map_append] at hd
  exact hd.of_append_left

theorem wellNamed_concat_iff {cs : List Command} {c : Command} :
    WellNamed (cs ++ [c]) ↔ WellNamed cs ∧ ¬ c.Clashes cs := by
  constructor
  · intro h
    refine ⟨h.of_append, ?_⟩
    rintro (hb | ⟨first, hf, hn⟩)
    · exact h.free c (List.mem_append_right _ List.mem_cons_self) hb
    · have hd := h.distinct
      rw [List.map_append, List.nodup_append] at hd
      exact hd.2.2 first.name (List.mem_map_of_mem hf) c.name List.mem_cons_self hn
  · rintro ⟨h, hc⟩
    refine ⟨fun c' hc' => ?_, ?_⟩
    · rcases List.mem_append.1 hc' with hc' | hc'
      · exact h.free c' hc'
      · rw [List.mem_singleton.1 hc']
        exact fun hb => hc (.inl hb)
    · rw [List.map_append, List.nodup_append]
      refine ⟨h.distinct, List.nodup_singleton _, ?_⟩
      rintro name hname _ hc' rfl
      obtain ⟨first, hf, rfl⟩ := List.mem_map.1 hname
      exact hc (.inr ⟨first, hf, List.mem_singleton.1 hc'⟩)

theorem wellNamed_or_clashes (cs : List Command) :
    WellNamed cs ∨ ∃ before c after, cs = before ++ c :: after ∧ WellNamed before ∧
      c.Clashes before := by
  -- From the end of the list: the last command is the first to clash only if no earlier one does.
  induction cs using List.reverseRecOn with
  | nil => exact .inl .nil
  | append_singleton cs c ih =>
    rcases ih with h | ⟨before, first, after, rfl, hb, hc⟩
    · by_cases hc : c.Clashes cs
      · exact .inr ⟨cs, c, [], rfl, h, hc⟩
      · exact .inl (wellNamed_concat_iff.2 ⟨h, hc⟩)
    · exact .inr ⟨before, first, after ++ [c], by simp, hb, hc⟩

namespace NameTable

/-- The table of commands that are well named. -/
def ofCommands (cs : List Command) : NameTable :=
  cs.mapIdx fun index c => ⟨c.name, index, c.position.line⟩

theorem ofCommands_concat (cs : List Command) (c : Command) :
    ofCommands (cs ++ [c]) = ofCommands cs ++ [⟨c.name, cs.length, c.position.line⟩] :=
  List.mapIdx_concat

theorem length_ofCommands (cs : List Command) : (ofCommands cs).length = cs.length :=
  List.length_mapIdx

theorem mem_ofCommands {cs : List Command} {entry : NameEntry} (h : entry ∈ ofCommands cs) :
    ∃ c ∈ cs, c.name = entry.name ∧ c.position.line = entry.line := by
  obtain ⟨i, hi, rfl⟩ := List.mem_mapIdx.1 h
  exact ⟨cs[i], List.getElem_mem hi, rfl, rfl⟩

theorem entry?_ofCommands_eq_none_iff {cs : List Command} {name : String} :
    NameTable.entry? (ofCommands cs) name = none ↔ ∀ c ∈ cs, c.name ≠ name := by
  unfold entry?
  rw [List.find?_eq_none]
  constructor
  · intro h c hc hn
    obtain ⟨i, hi, rfl⟩ := List.getElem_of_mem hc
    exact h _ (List.mem_mapIdx.2 ⟨i, hi, rfl⟩) (by simpa using hn)
  · intro h entry he hn
    obtain ⟨c, hc, hname, -⟩ := mem_ofCommands he
    exact h c hc (hname.trans (by simpa using hn))

theorem line_of_entry {cs : List Command} (hw : WellNamed cs) {name : String} {entry : NameEntry}
    (h : NameTable.entry? (ofCommands cs) name = some entry) {c : Command} (hc : c ∈ cs)
    (hn : c.name = name) : entry.line = c.position.line := by
  obtain ⟨c', hc', hname, hline⟩ := mem_ofCommands (List.mem_of_find?_eq_some h)
  have hentry : entry.name = name := by simpa using List.find?_some h
  -- Names are distinct, so the entry stems from no other command.
  have heq : c' = c :=
    List.inj_on_of_nodup_map hw.distinct hc' hc (hname.trans (hentry.trans hn.symm))
  rw [← hline, heq]

theorem declareAll_cons {cs rest : List Command} {c : Command} (h : ¬ c.Clashes cs) :
    declareAll (ofCommands cs) (c :: rest) = declareAll (ofCommands (cs ++ [c])) rest := by
  have hv : isVocabulary c.name ≠ true := fun hb => h (.inl (isVocabulary_iff.1 hb))
  have he : NameTable.entry? (ofCommands cs) c.name = none :=
    entry?_ofCommands_eq_none_iff.2 fun first hf hn => h (.inr ⟨first, hf, hn⟩)
  rw [declareAll, if_neg hv, he, ofCommands_concat, length_ofCommands]

theorem declareAll_append (before : List Command) {cs : List Command}
    (h : WellNamed (before ++ cs)) (rest : List Command) :
    declareAll (ofCommands before) (cs ++ rest) = declareAll (ofCommands (before ++ cs)) rest := by
  induction cs generalizing before with
  | nil => rw [List.nil_append, List.append_nil]
  | cons c cs ih =>
    rw [List.append_cons] at h ⊢
    have hc := (wellNamed_concat_iff.1 h.of_append).2
    rw [List.cons_append, declareAll_cons hc, ih _ h]

theorem declareAll_builtin {cs rest : List Command} {c : Command} (h : IsBuiltin c.name) :
    declareAll (ofCommands cs) (c :: rest) = .error ⟨.redefinedBuiltin c.name, c.position⟩ := by
  rw [declareAll, if_pos (isVocabulary_iff.2 h)]

theorem declareAll_duplicate {cs rest : List Command} {first c : Command} (hw : WellNamed cs)
    (hf : first ∈ cs) (hn : first.name = c.name) :
    declareAll (ofCommands cs) (c :: rest) =
      .error ⟨.duplicateCommand c.name first.position.line, c.position⟩ := by
  have hv : isVocabulary c.name ≠ true := by
    intro hb
    rw [← hn] at hb
    exact hw.free first hf (isVocabulary_iff.1 hb)
  rw [declareAll, if_neg hv]
  cases he : NameTable.entry? (ofCommands cs) c.name with
  | none => exact absurd hn (entry?_ofCommands_eq_none_iff.1 he first hf)
  | some entry => rw [← line_of_entry hw he hf hn]

theorem ofProgram_of_wellNamed {p : Program} (h : WellNamed p.commands) :
    ofProgram p = .ok (ofCommands p.commands) := by
  have happend := declareAll_append [] h []
  rw [List.append_nil] at happend
  exact happend

theorem ofProgram_of_split {p : Program} {before after : List Command} {c : Command}
    (h : p.commands = before ++ c :: after) (hb : WellNamed before) :
    ofProgram p = declareAll (ofCommands before) (c :: after) := by
  rw [ofProgram, h]
  exact declareAll_append [] hb (c :: after)

theorem ofProgram_of_nameIssue {p : Program} {d : Diagnostic} (h : p.NameIssue d) :
    ofProgram p = .error d := by
  cases h with
  | builtin h hb hn hd =>
    rw [ofProgram_of_split h hb, declareAll_builtin hn, hd.eq]
  | duplicate h hb hf hn hd =>
    rw [ofProgram_of_split h hb, declareAll_duplicate hb hf hn, hd.eq]

theorem ofProgram_cases (p : Program) :
    ofProgram p = .ok (ofCommands p.commands) ∨ ∃ d, p.NameIssue d := by
  rcases wellNamed_or_clashes p.commands with h | ⟨before, c, after, h, hb, hn | ⟨first, hf, hn⟩⟩
  · exact .inl (ofProgram_of_wellNamed h)
  · exact .inr ⟨⟨.redefinedBuiltin c.name, c.position⟩, .builtin h hb hn ⟨rfl, rfl, rfl⟩⟩
  · exact .inr ⟨⟨.duplicateCommand c.name first.position.line, c.position⟩,
      .duplicate h hb hf hn ⟨rfl, rfl, rfl⟩⟩

theorem index?_ofCommands_eq_none_iff {p : Program} {name : String} :
    (ofCommands p.commands).index? name = none ↔ ¬ p.Declares name := by
  rw [index?, Option.map_eq_none_iff, entry?_ofCommands_eq_none_iff]
  simp [Program.Declares]

/-! ## The entry -/

theorem chooseEntry_eq_error_iff {p : Program} {requested : Option String} {d : Diagnostic} :
    (ofCommands p.commands).chooseEntry p requested = .error d ↔ p.EntryIssue requested d := by
  constructor
  · intro h
    cases requested with
    | none =>
      simp only [chooseEntry] at h
      split at h
      · next he =>
        cases h
        exact .empty (List.isEmpty_iff.1 he) ⟨rfl, rfl, rfl⟩
      · cases h
    | some name =>
      simp only [chooseEntry] at h
      split at h
      · cases h
      · next hi =>
        cases h
        refine .undeclared (index?_ofCommands_eq_none_iff.1 hi) ⟨rfl, ?_, rfl⟩
        unfold Program.entry?
        cases p.commands.head? <;> rfl
  · intro h
    cases h with
    | empty he hd => simp [chooseEntry, he, hd.eq, Position.start]
    | undeclared hn hd =>
      simp only [chooseEntry, index?_ofCommands_eq_none_iff.2 hn, hd.eq, Program.entry?]
      cases p.commands.head? <;> rfl

end NameTable

/-! ## Calls -/

/-- The error of a computation, if it has one. -/
def failure? {ε α : Type} : Except ε α → Option ε
  | .error err => some err
  | .ok _ => none

theorem failure?_eq_some_iff {ε α : Type} {x : Except ε α} {err : ε} :
    failure? x = some err ↔ x = .error err := by
  cases x <;> simp [failure?]

theorem failure?_bind {ε α β : Type} {x : Except ε α} {f : α → Except ε β} {o : Option ε}
    (h : ∀ a, failure? (f a) = o) : failure? (x >>= f) = (failure? x).or o := by
  cases x with
  | error err => rfl
  | ok a => exact h a

theorem failure?_bind_pure {ε α β : Type} (x : Except ε α) (f : α → β) :
    failure? (x >>= fun a => pure (f a)) = failure? x := by
  cases x <;> rfl

namespace NameTable

/-- What is wrong with a call, if something is. -/
def callFailure? (table : NameTable) (call : Call) : Option Diagnostic :=
  failure? (table.resolveCall call.name call.position)

mutual

theorem failure?_resolveStatement (table : NameTable) : ∀ s : Statement,
    failure? (table.resolveStatement s) = s.calls.findSome? table.callFailure?
  | .call name position => by
    rw [Statement.calls, List.findSome?_singleton]
    rfl
  | .repeat _ body _ => (failure?_bind_pure _ _).trans (failure?_resolveBlock table body)
  | .if _ yes _ => (failure?_bind_pure _ _).trans (failure?_resolveBlock table yes)
  | .ifElse _ yes no _ => by
    rw [Statement.calls, List.findSome?_append, ← failure?_resolveBlock table yes,
      ← failure?_resolveBlock table no]
    exact failure?_bind fun _ => failure?_bind_pure _ _
  | .while _ body _ => (failure?_bind_pure _ _).trans (failure?_resolveBlock table body)

/-- Resolving a block fails with the first of its calls that fails. -/
theorem failure?_resolveBlock (table : NameTable) : ∀ ss : List Statement,
    failure? (table.resolveBlock ss) = (Statement.blockCalls ss).findSome? table.callFailure?
  | [] => rfl
  | s :: ss => by
    rw [Statement.blockCalls, List.findSome?_append, ← failure?_resolveStatement table s,
      ← failure?_resolveBlock table ss]
    exact failure?_bind fun _ => failure?_bind_pure _ _

end

theorem failure?_resolveAll (table : NameTable) (p : Program) :
    failure? (table.resolveAll p) = p.calls.findSome? table.callFailure? := by
  unfold resolveAll Program.calls
  induction p.commands with
  | nil => rfl
  | cons c cs ih =>
    have hc : failure? (table.resolveCommand c) =
        (Statement.blockCalls c.body).findSome? table.callFailure? :=
      (failure?_bind_pure _ _).trans (failure?_resolveBlock table c.body)
    rw [List.mapM_cons, List.flatMap_cons, List.findSome?_append, ← hc, ← ih]
    exact failure?_bind fun _ => failure?_bind_pure _ _

variable {p : Program} {call : Call}

theorem callFailure?_of_knows (h : p.Knows call.name) :
    (ofCommands p.commands).callFailure? call = none := by
  unfold callFailure? resolveCall
  cases ha : Primitive.ofName? call.name with
  | some a => rfl
  | none =>
    have hdeclared : p.Declares call.name := by
      refine h.resolve_left ?_
      rintro ⟨a, hn⟩
      rw [Primitive.ofName?_eq_some_iff.2 hn] at ha
      cases ha
    cases hi : (ofCommands p.commands).index? call.name with
    | some target => rfl
    | none => exact absurd hdeclared (index?_ofCommands_eq_none_iff.1 hi)

theorem callFailure?_of_not_knows (h : ¬ p.Knows call.name) :
    (ofCommands p.commands).callFailure? call =
      match Query.ofName? call.name with
      | some _ => some ⟨.conditionAsStatement call.name, call.position⟩
      | none => some ⟨.undefinedCommand call.name, call.position⟩ := by
  have ha : Primitive.ofName? call.name = none := by
    by_contra hne
    obtain ⟨a, ha⟩ := Option.ne_none_iff_exists'.1 hne
    exact h (.inl ⟨a, Primitive.ofName?_eq_some_iff.1 ha⟩)
  have hi : (ofCommands p.commands).index? call.name = none :=
    index?_ofCommands_eq_none_iff.2 fun hd => h (.inr hd)
  simp only [callFailure?, resolveCall, ha, hi]
  cases Query.ofName? call.name <;> rfl

theorem callFailure?_eq_none_iff :
    (ofCommands p.commands).callFailure? call = none ↔ p.Knows call.name := by
  refine ⟨fun h => ?_, callFailure?_of_knows⟩
  by_contra hk
  rw [callFailure?_of_not_knows hk] at h
  split at h <;> cases h

theorem resolveAll_eq_error_iff {d : Diagnostic} :
    (ofCommands p.commands).resolveAll p = .error d ↔ p.CallIssue d := by
  rw [← failure?_eq_some_iff, failure?_resolveAll, List.findSome?_eq_some_iff]
  constructor
  · rintro ⟨before, call, after, h, hd, hb⟩
    have hknows : ∀ c ∈ before, p.Knows c.name := fun c hc => callFailure?_eq_none_iff.1 (hb c hc)
    have hunknown : ¬ p.Knows call.name := by
      intro hk
      rw [callFailure?_of_knows hk] at hd
      cases hd
    rw [callFailure?_of_not_knows hunknown] at hd
    split at hd
    · next q hq =>
      cases hd
      exact .condition h hknows hunknown (Query.ofName?_eq_some_iff.1 hq) ⟨rfl, rfl, rfl⟩
    · next hq =>
      cases hd
      refine .undefined h hknows hunknown (fun q hn => ?_) ⟨rfl, rfl, rfl⟩
      rw [Query.ofName?_eq_some_iff.2 hn] at hq
      cases hq
  · intro hissue
    cases hissue with
    | @condition before after call q h hb hk hq hd =>
      refine ⟨before, call, after, h, ?_, fun c hc => callFailure?_of_knows (hb c hc)⟩
      rw [callFailure?_of_not_knows hk, Query.ofName?_eq_some_iff.2 hq, hd.eq]
    | @undefined before after call h hb hk hq hd =>
      refine ⟨before, call, after, h, ?_, fun c hc => callFailure?_of_knows (hb c hc)⟩
      have hnone : Query.ofName? call.name = none := by
        by_contra hne
        obtain ⟨q, hn⟩ := Option.ne_none_iff_exists'.1 hne
        exact hq q (Query.ofName?_eq_some_iff.1 hn)
      rw [callFailure?_of_not_knows hk, hnone, hd.eq]

end NameTable

namespace Program
variable {p : Program} {requested : Option String}

theorem compile_of_nameIssue (requested : Option String) {d : Diagnostic} (h : p.NameIssue d) :
    p.compile requested = .error d := by
  unfold compile
  rw [NameTable.ofProgram_of_nameIssue h]
  rfl

/-- Of a program whose names are in order, compiling looks at the entry and then at the calls. -/
theorem compile_eq_error_iff (hn : ∀ d, ¬ p.NameIssue d) {d : Diagnostic} :
    p.compile requested = .error d ↔
      p.EntryIssue requested d ∨ (∀ d', ¬ p.EntryIssue requested d') ∧ p.CallIssue d := by
  have htable : NameTable.ofProgram p = .ok (.ofCommands p.commands) := by
    rcases NameTable.ofProgram_cases p with h | ⟨d, hd⟩
    · exact h
    · exact absurd hd (hn d)
  have hcompile : p.compile requested =
      (do
        let entry ← (NameTable.ofCommands p.commands).chooseEntry p requested
        let routines ← (NameTable.ofCommands p.commands).resolveAll p
        return ⟨entry, routines⟩) := by
    unfold compile
    rw [htable]
    rfl
  rw [hcompile, ← NameTable.resolveAll_eq_error_iff]
  simp only [← NameTable.chooseEntry_eq_error_iff]
  cases (NameTable.ofCommands p.commands).chooseEntry p requested with
  | error d' => simp [bind, Except.bind]
  | ok entry =>
    cases (NameTable.ofCommands p.commands).resolveAll p with
    | error d' => simp [bind, Except.bind]
    | ok routines => simp [bind, Except.bind, pure, Except.pure]

theorem compile_error_iff_firstIssue {d : Diagnostic} :
    p.compile requested = .error d ↔ p.FirstIssue requested d := by
  by_cases hname : ∃ d', p.NameIssue d'
  · obtain ⟨d', hd'⟩ := hname
    have hcompile := compile_of_nameIssue requested hd'
    constructor
    · intro h
      rw [hcompile] at h
      cases h
      exact .name hd'
    · intro h
      cases h with
      | name h => exact compile_of_nameIssue requested h
      | entry hn h => exact absurd hd' (hn d')
      | call hn he h => exact absurd hd' (hn d')
  · have hn : ∀ d, ¬ p.NameIssue d := fun d hd => hname ⟨d, hd⟩
    rw [compile_eq_error_iff hn]
    constructor
    · rintro (h | ⟨he, h⟩)
      · exact .entry hn h
      · exact .call hn he h
    · intro h
      cases h with
      | name h => exact absurd h (hn d)
      | entry _ h => exact .inl h
      | call _ he h => exact .inr ⟨he, h⟩

/-- Who declares a name for the second time is told on which line it was declared before. -/
theorem message_of_duplicate {d : Diagnostic} {name : String} {line : Nat}
    (h : p.compile requested = .error d) (hd : d.issue = .duplicateCommand name line) :
    ∃ before after first c, p.commands = before ++ c :: after ∧ first ∈ before ∧
      first.name = c.name ∧ d.position = c.position ∧
      d.issue.message = "duplicate command " ++ c.name ++ "(), first declared on line " ++
        toString first.position.line := by
  cases compile_error_iff_firstIssue.1 h with
  | name h =>
    cases h with
    | builtin _ _ _ hd' => cases hd'.issue.symm.trans hd
    | @duplicate before after first c hp _ hf hn hd' =>
      refine ⟨before, after, first, c, hp, hf, hn, hd'.position, ?_⟩
      rw [hd'.issue]
      rfl
  | entry _ h =>
    cases h with
    | undeclared _ hd' => cases hd'.issue.symm.trans hd
    | empty _ hd' => cases hd'.issue.symm.trans hd
  | call _ _ h =>
    cases h with
    | condition _ _ _ _ hd' => cases hd'.issue.symm.trans hd
    | undefined _ _ _ _ hd' => cases hd'.issue.symm.trans hd

/-- Compiling reports the first issue of a program: that of its names, else that of its entry, else
that of its calls. It gives an executable just when there is none. -/
theorem compile_reports_first_issue (p : Program) (requested : Option String) :
    (∀ d, p.compile requested = .error d ↔ p.FirstIssue requested d) ∧
      ((∃ e, p.compile requested = .ok e) ↔
        ∀ d, ¬ p.NameIssue d ∧ ¬ p.EntryIssue requested d ∧ ¬ p.CallIssue d) := by
  refine ⟨fun d => compile_error_iff_firstIssue, ?_⟩
  constructor
  · rintro ⟨e, he⟩
    have hnone : ∀ d, ¬ p.FirstIssue requested d := by
      intro d hd
      rw [compile_error_iff_firstIssue.2 hd] at he
      cases he
    have hname : ∀ d, ¬ p.NameIssue d := fun d h => hnone d (.name h)
    have hentry : ∀ d, ¬ p.EntryIssue requested d := fun d h => hnone d (.entry hname h)
    exact fun d => ⟨hname d, hentry d, fun h => hnone d (.call hname hentry h)⟩
  · intro hnone
    cases h : p.compile requested with
    | ok e => exact ⟨e, rfl⟩
    | error d =>
      obtain ⟨hname, hentry, hcall⟩ := hnone d
      cases compile_error_iff_firstIssue.1 h with
      | name h => exact absurd h hname
      | entry _ h => exact absurd h hentry
      | call _ _ h => exact absurd h hcall

/-- A second `main` is reported before the call of a condition that stands above it. -/
example : compile ⟨[⟨"main", [.call "onBeeper" ⟨2, 3⟩], ⟨1, 1⟩⟩, ⟨"main", [], ⟨4, 1⟩⟩]⟩ none =
    .error ⟨.duplicateCommand "main" 1, ⟨4, 1⟩⟩ := rfl

end Program

end Karel
