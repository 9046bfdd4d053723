import Karel.Proofs.Executable.Flat
import Karel.Proofs.Execution.Limits

/-! # Layout does not change meaning

Two lists of tokens that differ in nothing but positions are read alike, compiled alike and run
alike. A run carries lines along, for its trace and its faults, and never looks at them: one step of
a machine whose lines are forgotten is the step of the machine with its lines forgotten, and so for
the whole run.
-/
namespace Karel

/-- An outcome without the line of its fault. -/
def Outcome.flat : Outcome → Outcome
  | .fault f => .fault { f with line := Position.start.line }
  | .completed => .completed
  | .cancelled => .cancelled

/-- An action without the line that asked for it. -/
def Event.flat (event : Event) : Event := { event with line := Position.start.line }

def Report.flat (r : Report) : Report :=
  { r with outcome := r.outcome.flat, trace := r.trace.map Event.flat }

def Frame.flat : Frame → Frame
  | .block nodes call => .block (Node.flatBlock nodes) call
  | .repeat body left => .repeat (Node.flatBlock body) left
  | .while c body _ => .while (c.relocate toStart) (Node.flatBlock body) Position.start.line

def Phase.flat : Phase → Phase
  | .gate stage starting => .gate stage starting
  | .calling target _ => .calling target Position.start.line
  | .running => .running
  | .testing c _ yes no =>
    .testing (c.relocate toStart) Position.start.line (yes.map Frame.flat) (no.map Frame.flat)
  | .sensing c _ yes no =>
    .sensing (c.relocate toStart) Position.start.line (yes.map Frame.flat) (no.map Frame.flat)
  | .acting p _ => .acting p Position.start.line
  | .publishing p _ next => .publishing p Position.start.line next
  | .finished outcome => .finished outcome.flat
  | .lost target => .lost target

/-- A machine that has forgotten all lines. -/
def Machine.flat (m : Machine) : Machine :=
  { m with
    frames := m.frames.map Frame.flat, trace := m.trace.map Event.flat, phase := m.phase.flat }

/-- What an answer leaves, moved to where the condition is moved. -/
def Verdict.relocate (f : Position → Position) : Verdict → Verdict
  | .known value => .known value
  | .pending c => .pending (c.relocate f)

namespace Condition

variable {f : Position → Position}

theorem first_relocate (c : Condition) : (c.relocate f).first = c.first := by
  induction c with
  | query q p => rfl
  | not c ih => exact ih
  | and l r ihl ihr => exact ihl
  | or l r ihl ihr => exact ihl

theorem answer_relocate (c : Condition) (b : Bool) :
    (c.relocate f).answer b = (c.answer b).relocate f := by
  induction c with
  | query q p => rfl
  | not c ih =>
    rw [relocate, answer, answer, ih]
    cases c.answer b with
    | known v => rfl
    | pending c' => rfl
  | and l r ihl ihr =>
    rw [relocate, answer, answer, ihl]
    cases l.answer b with
    | known v => cases v <;> rfl
    | pending c' => rfl
  | or l r ihl ihr =>
    rw [relocate, answer, answer, ihl]
    cases l.answer b with
    | known v => cases v <;> rfl
    | pending c' => rfl

end Condition

theorem Frame.map_flat_ofBody (body : List Node) :
    (ofBody body).map flat = ofBody (Node.flatBlock body) := by
  cases body with
  | nil => rfl
  | cons node nodes => rfl

theorem Executable.getElem?_routines_flat (e : Executable) (i : Nat) :
    e.flat.routines[i]? = e.routines[i]?.map Routine.flat := List.getElem?_map

namespace Machine

variable {e : Executable} {limits : Limits}

@[simp] theorem control_flat (m : Machine) : m.flat.control = m.control := rfl

@[simp] theorem world_flat (m : Machine) : m.flat.world = m.world := rfl

@[simp] theorem depth_flat (m : Machine) : m.flat.depth = m.depth := rfl

@[simp] theorem steps_flat (m : Machine) : m.flat.steps = m.steps := rfl

theorem flat_pass (m : Machine) (starting : Bool) :
    (m.pass e starting).flat = m.flat.pass e.flat starting := by
  cases starting with
  | false => rfl
  | true =>
    have hentry : e.flat.entryRoutine? = e.entryRoutine?.map Routine.flat :=
      e.getElem?_routines_flat e.entry
    rw [pass, pass, hentry]
    cases e.entryRoutine? with
    | none => rfl
    | some r => rfl

theorem flat_passGate (m : Machine) (starting : Bool) (stage : Gate) :
    (m.passGate e starting stage).flat = m.flat.passGate e.flat starting stage := by
  cases stage with
  | askCancelled =>
    rw [passGate, passGate, control_flat]
    split
    · rfl
    · rfl
  | askPaused =>
    rw [passGate, passGate, control_flat]
    split
    · rfl
    · exact m.flat_pass starting
  | locked =>
    rw [passGate, passGate, control_flat]
    split
    · rfl
    · split
      · cases m.control.permits with
        | zero => rfl
        | succ n => exact flat_pass _ starting
      · exact m.flat_pass starting
  | asleep => rfl

theorem flat_openCall (m : Machine) (target line : Nat) :
    (m.openCall e limits target line).flat =
      m.flat.openCall e.flat limits target Position.start.line := by
  rw [openCall, openCall, e.getElem?_routines_flat]
  cases e.routines[target]? with
  | none => rfl
  | some r =>
    simp only [Option.map_some]
    rw [depth_flat]
    split
    · rfl
    · rfl

theorem flat_charge (m : Machine) (line : Nat) (next next' : Machine → Machine)
    (h : ∀ n : Machine, (next n).flat = next' n.flat) :
    (charge limits m line next).flat = charge limits m.flat Position.start.line next' := by
  simp only [charge]
  rw [control_flat, steps_flat]
  split
  · rfl
  · split
    · rfl
    · exact h _

theorem flat_execute (node : Node) (m : Machine) :
    (execute node m).flat = execute node.flat m.flat := by
  cases node with
  | «if» c yes no line =>
    have hyes := Frame.map_flat_ofBody yes
    have hno := Frame.map_flat_ofBody no
    simp only [execute, Node.flat, ← hyes, ← hno]
    rfl
  | _ => rfl

theorem flat_takeFrame (m : Machine) :
    (m.takeFrame limits).flat = m.flat.takeFrame limits := by
  obtain ⟨control, world, frames, depth, steps, trace, phase⟩ := m
  cases frames with
  | nil => rfl
  | cons frame rest =>
    cases frame with
    | block nodes call =>
      cases nodes with
      | nil => rfl
      | cons node nodes =>
        have hline : node.flat.line = Position.start.line := by cases node <;> rfl
        refine (flat_charge _ node.line _ _ (flat_execute node)).trans ?_
        rw [← hline]
        rfl
    | «repeat» body left =>
      cases left with
      | zero => rfl
      | succ n =>
        simp only [flat, takeFrame, List.map_cons, List.map_append, Frame.map_flat_ofBody,
          Frame.flat]
    | «while» c body line =>
      simp only [flat, takeFrame, List.map_cons, List.map_append, Frame.map_flat_ofBody,
        Frame.flat, Phase.flat, List.map_nil]

theorem flat_sense (m : Machine) (c : Condition) (line : Nat) (yes no : List Frame) :
    (m.sense c line yes no).flat =
      m.flat.sense (c.relocate toStart) Position.start.line (yes.map Frame.flat)
        (no.map Frame.flat) := by
  rw [sense, sense, Condition.first_relocate, Condition.answer_relocate, world_flat]
  cases c.answer (c.first.holds m.world) with
  | known value =>
    cases value with
    | true => simp [flat, Verdict.relocate, Phase.flat]
    | false => simp [flat, Verdict.relocate, Phase.flat]
  | pending c' => rfl

theorem flat_attempt (m : Machine) (p : Primitive) (line : Nat) :
    (m.attempt p line).flat = m.flat.attempt p Position.start.line := by
  rw [attempt, attempt, world_flat]
  cases p.check m.world with
  | error cause => rfl
  | ok u => rfl

/-- A machine takes the same step whether or not it has forgotten the lines. -/
theorem flat_step (m : Machine) : (m.step e limits).flat = m.flat.step e.flat limits := by
  obtain ⟨control, world, frames, depth, steps, trace, phase⟩ := m
  cases phase with
  | gate stage starting => exact flat_passGate _ starting stage
  | calling target line => exact flat_openCall _ target line
  | running => exact flat_takeFrame _
  | testing c line yes no =>
    exact flat_charge _ line (fun n => { n with phase := .sensing c line yes no })
      (fun n => { n with phase := (Phase.sensing c line yes no).flat }) fun _ => rfl
  | sensing c line yes no => exact flat_sense _ c line yes no
  | acting p line => exact flat_attempt _ p line
  | publishing p line next => rfl
  | finished outcome => rfl
  | lost target => rfl

theorem isResting_flat (m : Machine) : m.flat.isResting = m.isResting := by
  obtain ⟨control, world, frames, depth, steps, trace, phase⟩ := m
  cases phase with
  | gate stage starting => cases stage <;> rfl
  | _ => rfl

/-- And so the same run. -/
theorem flat_run (m : Machine) : (m.run e limits).flat = m.flat.run e.flat limits := by
  fun_induction run e limits m with
  | case1 m h => rw [run_of_isResting (m.isResting_flat.trans h)]
  | case2 m h _ ih => rw [ih, flat_step, run_step]

theorem report?_flat (m : Machine) : m.flat.report? = m.report?.map Report.flat := by
  obtain ⟨control, world, frames, depth, steps, trace, phase⟩ := m
  cases phase with
  | finished outcome => simp [report?, outcome?, flat, Phase.flat, Report.flat]
  | _ => rfl

end Machine

/-- Two runs that differ in nothing but lines: the same steps, the same actions with the same worlds
after them, and the same outcome up to the line of a fault. -/
structure Report.Alike (r r' : Report) : Prop where
  steps : r.steps = r'.steps
  world : r.world = r'.world
  actions : (r.trace.map fun event => (event.primitive, event.world)) =
    r'.trace.map fun event => (event.primitive, event.world)
  outcome : r.outcome.flat = r'.outcome.flat

theorem Report.alike_of_flat_eq {r r' : Report} (h : r.flat = r'.flat) : r.Alike r' := by
  obtain ⟨outcome, steps, trace, world⟩ := r
  obtain ⟨outcome', steps', trace', world'⟩ := r'
  simp only [flat, Report.mk.injEq] at h
  obtain ⟨houtcome, hsteps, htrace, hworld⟩ := h
  refine ⟨hsteps, hworld, ?_, houtcome⟩
  have hactions := congrArg (List.map fun event => (event.primitive, event.world)) htrace
  rw [List.map_map, List.map_map] at hactions
  exact hactions

namespace Executable

theorem flat_run (e : Executable) (limits : Limits) (w : World) :
    (e.run limits w).flat = e.flat.run limits w := Machine.flat_run _

theorem report?_of_flat_eq {e e' : Executable} (h : e.flat = e'.flat) (limits : Limits)
    (w : World) :
    (e.run limits w).report?.map Report.flat = (e'.run limits w).report?.map Report.flat := by
  rw [← Machine.report?_flat, ← Machine.report?_flat, flat_run, flat_run, h]

end Executable

namespace Program

open Grammar

/-- Two lists of tokens are read alike. Either both give a program, and the programs are one once
every position is replaced by the number of the token it was taken from, or both give the same issue
at tokens of the same number. Where there is no token there is nothing to read. -/
inductive ReadAlike (ts ts' : List Token) : Prop where
  | nothing (h : ts = []) (h' : ts' = [])
  | program {q : Program} (hq : ofTokens? (numbered (ts.map Token.kind)) = some (.ok q))
      (hnumber : ∀ p ∈ q.positions, ∃ i < ts.length, p = .number i)
      (h : ofTokens? ts = some (.ok (q.relocate (placeIn ts))))
      (h' : ofTokens? ts' = some (.ok (q.relocate (placeIn ts'))))
  | issue {issue : Issue} {i : Nat} {t t' : Token} (ht : ts[i]? = some t) (ht' : ts'[i]? = some t')
      (h : ofTokens? ts = some (.error ⟨issue, t.position⟩))
      (h' : ofTokens? ts' = some (.error ⟨issue, t'.position⟩))

variable {ts ts' : List Token}

theorem readAlike_of_kinds_eq (h : ts.map Token.kind = ts'.map Token.kind) : ReadAlike ts ts' := by
  have hlength : ts.length = ts'.length := by simpa using congrArg List.length h
  have hread := ofTokens?_eq_numbered ts
  have hread' := ofTokens?_eq_numbered ts'
  rw [← h] at hread'
  rcases hnumbered : ofTokens? (numbered (ts.map Token.kind)) with _ | (diag | q)
  · cases ts with
    | nil => exact .nothing rfl (List.length_eq_zero_iff.1 hlength.symm)
    | cons t ts =>
      rw [hnumbered] at hread
      cases hread
  · obtain ⟨u, hu, hposition⟩ := mem_of_error hnumbered
    obtain ⟨i, hi, hnumber⟩ := exists_of_mem_numbered hu
    rw [List.length_map] at hi
    have ht := List.getElem?_eq_getElem hi
    have ht' := List.getElem?_eq_getElem (hlength ▸ hi)
    rw [hnumbered, Option.map_some, relocated, Diagnostic.relocate, ← hposition, hnumber] at hread
    rw [hnumbered, Option.map_some, relocated, Diagnostic.relocate, ← hposition, hnumber] at hread'
    rw [placeIn_number ht] at hread
    rw [placeIn_number ht'] at hread'
    exact .issue ht ht' hread hread'
  · rw [hnumbered] at hread hread'
    refine .program hnumbered (fun p hp => ?_) hread hread'
    obtain ⟨u, hu, rfl⟩ := mem_of_mem_positions hnumbered hp
    obtain ⟨i, hi, hnumber⟩ := exists_of_mem_numbered hu
    rw [List.length_map] at hi
    exact ⟨i, hi, hnumber⟩

theorem flat_eq_of_kinds_eq (h : ts.map Token.kind = ts'.map Token.kind) {p p' : Program}
    (hp : ofTokens? ts = some (.ok p)) (hp' : ofTokens? ts' = some (.ok p')) :
    p.flat = p'.flat := by
  have htokens (us : List Token) :
      us.map (Token.relocate toStart) = (us.map Token.kind).map fun k => ⟨k, .start⟩ := by
    rw [List.map_map]
    rfl
  have hsame := ofTokens?_relocate toStart ts
  rw [htokens, h, ← htokens, ofTokens?_relocate, hp, hp'] at hsame
  exact (Except.ok.inj (Option.some.inj hsame)).symm

/-- Layout does not change meaning. Tokens of the same kinds are read alike, wherever they stand.
Where programs are read from both, either neither of them compiles and the codes of the diagnostics
are the same, or both do and run alike on every world. -/
theorem layout_keeps_meaning (h : ts.map Token.kind = ts'.map Token.kind) :
    ReadAlike ts ts' ∧
    ∀ p p' : Program, ofTokens? ts = some (.ok p) → ofTokens? ts' = some (.ok p') →
      ∀ requested : Option String,
        (∃ d d', p.compile requested = .error d ∧ p'.compile requested = .error d' ∧
          d.issue.code = d'.issue.code) ∨
        ∃ e e', p.compile requested = .ok e ∧ p'.compile requested = .ok e' ∧
          ∀ limits w, ∃ r r', (e.run limits w).report? = some r ∧
            (e'.run limits w).report? = some r' ∧ r.Alike r' := by
  refine ⟨readAlike_of_kinds_eq h, fun p p' hp hp' requested => ?_⟩
  have hflat := flat_eq_of_kinds_eq h hp hp'
  rcases compile_of_flat_eq hflat requested with herror | ⟨e, e', he, he', heq⟩
  · exact .inl herror
  · refine .inr ⟨e, e', he, he', fun limits w => ?_⟩
    obtain ⟨r, hr⟩ := Executable.exists_report?_run he limits w
    obtain ⟨r', hr'⟩ := Executable.exists_report?_run he' limits w
    have hreports := Executable.report?_of_flat_eq heq limits w
    rw [hr, hr'] at hreports
    exact ⟨r, r', hr, hr', Report.alike_of_flat_eq (Option.some.inj hreports)⟩

/-- The tokens of `void main() { if (!onBeeper()) { turnLeft(); } pickBeeper(); }`, each at the
place that is given for its number. -/
def grabTokens (place : Nat → Position) : List Token :=
  let kinds : List Token.Kind :=
    [.keyword .void, .ident "main", .symbol .openParen, .symbol .closeParen, .symbol .openBrace,
      .keyword .if, .symbol .openParen, .symbol .bang, .ident "onBeeper", .symbol .openParen,
      .symbol .closeParen, .symbol .closeParen, .symbol .openBrace,
      .ident "turnLeft", .symbol .openParen, .symbol .closeParen, .symbol .semicolon,
      .symbol .closeBrace,
      .ident "pickBeeper", .symbol .openParen, .symbol .closeParen, .symbol .semicolon,
      .symbol .closeBrace]
  kinds.zipIdx.map fun x => ⟨x.1, place x.2⟩

def grab (place : Nat → Position) : Program :=
  ⟨[⟨"main",
    [.if (.not (.query .onBeeper (place 8))) [.call "turnLeft" (place 13)] (place 5),
      .call "pickBeeper" (place 18)],
    place 0⟩]⟩

def grabCode (place : Nat → Position) : Executable :=
  ⟨0, [⟨"main",
    [.if (.not (.query .onBeeper (place 8))) [.action .turnLeft (place 13).line] [] (place 5).line,
      .action .pickBeeper (place 18).line],
    (place 0).line⟩]⟩

theorem read_grab (place : Nat → Position) :
    ofTokens? (grabTokens place ++ [⟨.eof, place 23⟩]) = some (.ok (grab place)) := by
  have hnot : IsOperand 63 _ _ :=
    .not (place 7) (.query (Query.ofName?_name .onBeeper) (place 8) (place 9) (place 10))
  have hturn : IsStatement 62 _ _ :=
    .call "turnLeft" (place 13) (place 14) (place 15) (place 16)
  have hif : IsStatement 63 _ _ :=
    .branch (.plain (place 5) (place 6) (place 11) ⟨63, .one (.one hnot)⟩
      (.braces (place 12) (place 17) (.cons hturn .nil)))
  have hpick : IsStatement 63 _ _ :=
    .call "pickBeeper" (place 18) (place 19) (place 20) (place 21)
  have hcommand : IsCommand 64 _ _ :=
    .void "main" (place 0) (place 1) (place 2) (place 3)
      (.braces (place 4) (place 22) (.cons hif (.cons hpick .nil)))
  have hprogram : IsProgram nestingLimit (grabTokens place) (grab place) :=
    ⟨List.cons_ne_nil _ _, .cons hcommand .nil⟩
  rw [ofTokens?_append, read_of_isProgram rfl hprogram]

def inOneLine (i : Nat) : Position := ⟨1, i + 1⟩

def lineByLine (i : Nat) : Position := ⟨i + 1, 1⟩

/-- In either layout the robot turns and then finds no beeper. Only the lines of the faults
differ. -/
theorem grab_layout_keeps_meaning :
    let ts := grabTokens inOneLine ++ [⟨.eof, inOneLine 23⟩]
    let ts' := grabTokens lineByLine ++ [⟨.eof, lineByLine 23⟩]
    ts.map Token.kind = ts'.map Token.kind ∧ ReadAlike ts ts' ∧
      ofTokens? ts = some (.ok (grab inOneLine)) ∧
      ofTokens? ts' = some (.ok (grab lineByLine)) ∧
      ∃ e e' r r', (grab inOneLine).compile none = .ok e ∧
        (grab lineByLine).compile none = .ok e' ∧
        (e.run ⟨30, 100⟩ .empty).report? = some r ∧
        (e'.run ⟨30, 100⟩ .empty).report? = some r' ∧ r.Alike r' ∧
        r.outcome = .fault ⟨1, .noBeeper ⟨0, 9⟩⟩ ∧
        r'.outcome = .fault ⟨19, .noBeeper ⟨0, 9⟩⟩ := by
  intro ts ts'
  have hkinds : ts.map Token.kind = ts'.map Token.kind := by decide
  have hread : ofTokens? ts = some (.ok (grab inOneLine)) := read_grab inOneLine
  have hread' : ofTokens? ts' = some (.ok (grab lineByLine)) := read_grab lineByLine
  obtain ⟨halike, hmeaning⟩ := layout_keeps_meaning hkinds
  refine ⟨hkinds, halike, hread, hread', ?_⟩
  rcases hmeaning _ _ hread hread' none with ⟨d, d', hd, -⟩ | ⟨e, e', he, he', hruns⟩
  · cases hd
  · obtain ⟨r, r', hr, hr', hreports⟩ := hruns ⟨30, 100⟩ .empty
    have hcode : e = grabCode inOneLine := (Except.ok.inj he).symm
    have hcode' : e' = grabCode lineByLine := (Except.ok.inj he').symm
    have hend : ((grabCode inOneLine).run ⟨30, 100⟩ .empty).report?.map Report.outcome =
        some (.fault ⟨1, .noBeeper ⟨0, 9⟩⟩) := by cbv
    have hend' : ((grabCode lineByLine).run ⟨30, 100⟩ .empty).report?.map Report.outcome =
        some (.fault ⟨19, .noBeeper ⟨0, 9⟩⟩) := by cbv
    rw [← hcode, hr] at hend
    rw [← hcode', hr'] at hend'
    exact ⟨e, e', r, r', he, he', hr, hr', hreports, Option.some.inj hend, Option.some.inj hend'⟩

end Program

end Karel
