import Karel.Executable.Compile
import Karel.Proofs.Source.Relocation

/-! # Compiling without a layout

Everything that is told apart by its place in the text can be put at the start of the text: the
program is then `flat`, and so are the executable, whose lines are all the first, and the
diagnostics. Compiling a flat program gives the flat executable or the flat diagnostic. The layout
therefore has no say in which names are known, where a call goes and whether anything is wrong.
-/
namespace Karel

/-- Forgets a position. -/
def toStart (_ : Position) : Position := .start

def Program.flat (p : Program) : Program := p.relocate toStart

mutual

/-- A node without its place in the text. -/
@[simp]
def Node.flat : Node → Node
  | .action p _ => .action p Position.start.line
  | .call target _ => .call target Position.start.line
  | .repeat count body _ => .repeat count (flatBlock body) Position.start.line
  | .if c yes no _ => .if (c.relocate toStart) (flatBlock yes) (flatBlock no) Position.start.line
  | .while c body _ => .while (c.relocate toStart) (flatBlock body) Position.start.line

@[simp]
def Node.flatBlock : List Node → List Node
  | [] => []
  | n :: ns => n.flat :: flatBlock ns

end

def Routine.flat (r : Routine) : Routine := ⟨r.name, Node.flatBlock r.body, Position.start.line⟩

def Executable.flat (e : Executable) : Executable := ⟨e.entry, e.routines.map Routine.flat⟩

/-- Only one issue mentions a line. -/
def Issue.flat : Issue → Issue
  | .duplicateCommand name _ => .duplicateCommand name Position.start.line
  | issue => issue

def Diagnostic.flat (d : Diagnostic) : Diagnostic := ⟨d.issue.flat, .start⟩

theorem Issue.code_flat (issue : Issue) : issue.flat.code = issue.code := by
  cases issue with
  | _ => rfl

/-- A result or a diagnostic, whichever it is, without its layout. -/
def flattened {α β : Type} (move : α → β) : Except Diagnostic α → Except Diagnostic β
  | .ok a => .ok (move a)
  | .error diag => .error diag.flat

section flattened

variable {α α' β β' : Type} {move : α → α'} {move' : β → β'}

theorem bind_flattened {x : Except Diagnostic α} {x' : Except Diagnostic α'}
    {k : α → Except Diagnostic β} {k' : α' → Except Diagnostic β'} (hx : x' = flattened move x)
    (hk : ∀ a, k' (move a) = flattened move' (k a)) :
    (x' >>= k') = flattened move' (x >>= k) := by
  rw [hx]
  cases x with
  | error diag => rfl
  | ok a => exact hk a

theorem mapM_flattened {g : α → Except Diagnostic β} {g' : α' → Except Diagnostic β'}
    (hg : ∀ a, g' (move a) = flattened move' (g a)) (xs : List α) :
    (xs.map move).mapM g' = flattened (List.map move') (xs.mapM g) := by
  induction xs with
  | nil => rfl
  | cons a as ih =>
    rw [List.map_cons, List.mapM_cons, List.mapM_cons]
    exact bind_flattened (hg a) fun b => bind_flattened ih fun bs => rfl

end flattened

namespace NameTable

def flat (table : NameTable) : NameTable :=
  table.map fun entry => { entry with line := Position.start.line }

variable {table : NameTable}

theorem entry?_flat (name : String) :
    table.flat.entry? name =
      (table.entry? name).map fun entry => { entry with line := Position.start.line } := by
  unfold entry?
  rw [flat, List.find?_map]
  rfl

theorem index?_flat (name : String) : table.flat.index? name = table.index? name := by
  rw [index?, index?, entry?_flat]
  cases table.entry? name with
  | none => rfl
  | some entry => rfl

theorem declareAll_flat (table : NameTable) (cs : List Command) :
    declareAll table.flat (cs.map (Command.relocate toStart)) =
      flattened NameTable.flat (declareAll table cs) := by
  induction cs generalizing table with
  | nil => rfl
  | cons c cs ih =>
    have hname : (c.relocate toStart).name = c.name := rfl
    rw [List.map_cons, declareAll, declareAll, hname, entry?_flat]
    split
    · rfl
    · cases table.entry? c.name with
      | some first => rfl
      | none =>
        have htable : table.flat ++ [⟨c.name, table.flat.length, Position.start.line⟩] =
            flat (table ++ [⟨c.name, table.length, c.position.line⟩]) := by
          simp [flat]
        simp only [Option.map_none]
        rw [← ih, ← htable]
        rfl

theorem ofProgram_flat (p : Program) :
    ofProgram p.flat = flattened NameTable.flat (ofProgram p) := declareAll_flat [] p.commands

theorem chooseEntry_flat (table : NameTable) (p : Program) (requested : Option String) :
    table.flat.chooseEntry p.flat requested = flattened id (table.chooseEntry p requested) := by
  obtain ⟨cs⟩ := p
  cases requested with
  | none => cases cs <;> rfl
  | some name =>
    unfold chooseEntry
    simp only [index?_flat]
    cases table.index? name with
    | some index => rfl
    | none => cases cs <;> rfl

theorem resolveCall_flat (table : NameTable) (name : String) (p : Position) :
    table.flat.resolveCall name (toStart p) = flattened Node.flat (table.resolveCall name p) := by
  unfold resolveCall
  rw [index?_flat]
  cases Primitive.ofName? name with
  | some action => rfl
  | none =>
    cases table.index? name with
    | some target => rfl
    | none =>
      cases Query.ofName? name with
      | some q => rfl
      | none => rfl

mutual

theorem resolveStatement_flat (table : NameTable) : ∀ s : Statement,
    table.flat.resolveStatement (s.relocate toStart) =
      flattened Node.flat (table.resolveStatement s)
  | .call name p => resolveCall_flat table name p
  | .repeat _ body _ => bind_flattened (resolveBlock_flat table body) fun _ => rfl
  | .if _ yes _ => bind_flattened (resolveBlock_flat table yes) fun _ => rfl
  | .ifElse _ yes no _ => bind_flattened (resolveBlock_flat table yes) fun _ =>
      bind_flattened (resolveBlock_flat table no) fun _ => rfl
  | .while _ body _ => bind_flattened (resolveBlock_flat table body) fun _ => rfl

theorem resolveBlock_flat (table : NameTable) : ∀ ss : List Statement,
    table.flat.resolveBlock (Statement.relocateBlock toStart ss) =
      flattened Node.flatBlock (table.resolveBlock ss)
  | [] => rfl
  | s :: ss => bind_flattened (resolveStatement_flat table s) fun _ =>
      bind_flattened (resolveBlock_flat table ss) fun _ => rfl

end

theorem resolveCommand_flat (table : NameTable) (c : Command) :
    table.flat.resolveCommand (c.relocate toStart) =
      flattened Routine.flat (table.resolveCommand c) :=
  bind_flattened (resolveBlock_flat table c.body) fun _ => rfl

theorem resolveAll_flat (table : NameTable) (p : Program) :
    table.flat.resolveAll p.flat = flattened (List.map Routine.flat) (table.resolveAll p) :=
  mapM_flattened (resolveCommand_flat table) p.commands

end NameTable

namespace Program

open NameTable

/-- Compiling a program without its layout gives the executable or the diagnostic without its
layout. -/
theorem compile_flat (p : Program) (requested : Option String) :
    p.flat.compile requested = flattened Executable.flat (p.compile requested) :=
  bind_flattened (ofProgram_flat p) fun table =>
    bind_flattened (chooseEntry_flat table p requested) fun _ =>
      bind_flattened (resolveAll_flat table p) fun _ => rfl

/-- Of two programs that differ in their layout both compile, to executables that differ in their
layout, or neither does, for the same reason. -/
theorem compile_of_flat_eq {p p' : Program} (h : p.flat = p'.flat) (requested : Option String) :
    (∃ d d', p.compile requested = .error d ∧ p'.compile requested = .error d' ∧
        d.issue.code = d'.issue.code) ∨
      ∃ e e', p.compile requested = .ok e ∧ p'.compile requested = .ok e' ∧ e.flat = e'.flat := by
  have hsame : flattened Executable.flat (p.compile requested) =
      flattened Executable.flat (p'.compile requested) := by
    rw [← compile_flat, ← compile_flat, h]
  cases hp : p.compile requested with
  | error d =>
    cases hp' : p'.compile requested with
    | ok e' =>
      rw [hp, hp'] at hsame
      cases hsame
    | error d' =>
      rw [hp, hp'] at hsame
      have hissue : d.issue.flat = d'.issue.flat :=
        congrArg Diagnostic.issue (Except.error.inj hsame)
      refine .inl ⟨d, d', rfl, rfl, ?_⟩
      rw [← Issue.code_flat d.issue, hissue, Issue.code_flat]
  | ok e =>
    cases hp' : p'.compile requested with
    | ok e' =>
      rw [hp, hp'] at hsame
      exact .inr ⟨e, e', rfl, rfl, Except.ok.inj hsame⟩
    | error d' =>
      rw [hp, hp'] at hsame
      cases hsame

end Program

end Karel
