import Karel.Proofs.Executable.WellNamed

/-! # Reading executables back

An executable still tells the program that it was compiled from. Actions and calls become calls by
name again and everything else is read back as it is stored, so that only the columns of statements
and commands are gone, and with them the difference between an `else` that is missing and one that
is empty. `outline` forgets just these. Calls go through places on the way, so that looking a name
up among the commands, in the name table and among the routines has to lead to the same place.
-/
namespace Karel

/-- A line with no column; the columns of a text count from one. -/
def Position.ofLine (line : Nat) : Position := ⟨line, 0⟩

mutual

/-- What a statement says apart from its columns; an `else` that is missing is taken for an empty
one. -/
def Statement.outline : Statement → Statement
  | .call name p => .call name (.ofLine p.line)
  | .repeat count body p => .repeat count (outlineBlock body) (.ofLine p.line)
  | .if c yes p => .ifElse c (outlineBlock yes) [] (.ofLine p.line)
  | .ifElse c yes no p => .ifElse c (outlineBlock yes) (outlineBlock no) (.ofLine p.line)
  | .while c body p => .while c (outlineBlock body) (.ofLine p.line)

def Statement.outlineBlock : List Statement → List Statement
  | [] => []
  | s :: ss => s.outline :: outlineBlock ss

end

def Command.outline (c : Command) : Command :=
  ⟨c.name, Statement.outlineBlock c.body, .ofLine c.position.line⟩

def Program.outline (p : Program) : Program := ⟨p.commands.map Command.outline⟩

namespace Executable

/-- The name of the routine at a place. -/
def nameAt? (e : Executable) (index : Nat) : Option String := e.routines[index]?.map Routine.name

mutual

/-- The statement that a node stands for, unless it calls a routine that is not there. -/
def statement? (e : Executable) : Node → Option Statement
  | .action a line => some (.call a.name (.ofLine line))
  | .call target line => do
    let name ← e.nameAt? target
    return .call name (.ofLine line)
  | .repeat count body line => do
    let body ← statements? e body
    return .repeat count body (.ofLine line)
  | .if c yes no line => do
    let yes ← statements? e yes
    let no ← statements? e no
    return .ifElse c yes no (.ofLine line)
  | .while c body line => do
    let body ← statements? e body
    return .while c body (.ofLine line)

def statements? (e : Executable) : List Node → Option (List Statement)
  | [] => some []
  | node :: nodes => do
    let s ← statement? e node
    let ss ← statements? e nodes
    return s :: ss

end

def command? (e : Executable) (r : Routine) : Option Command := do
  let body ← e.statements? r.body
  return ⟨r.name, body, .ofLine r.line⟩

/-- The program that an executable stands for. -/
def program? (e : Executable) : Option Program := do
  let commands ← e.routines.mapM e.command?
  return ⟨commands⟩

end Executable

/-! ## Names and places -/

/-- The place of the first command with a given name. -/
def Program.index? (p : Program) (name : String) : Option Nat :=
  (p.commands.map Command.name).findIdx? (· == name)

namespace NameTable

theorem wellNamed_of_ofProgram {p : Program} {table : NameTable} (h : ofProgram p = .ok table) :
    WellNamed p.commands := by
  rcases wellNamed_or_clashes p.commands with hw | ⟨before, c, after, hp, hb, hn | ⟨first, hf, hn⟩⟩
  · exact hw
  · rw [ofProgram_of_split hp hb, declareAll_builtin hn] at h
    cases h
  · rw [ofProgram_of_split hp hb, declareAll_duplicate hb hf hn] at h
    cases h

theorem index?_ofCommands (cs : List Command) (name : String) :
    (ofCommands cs).index? name = (cs.map Command.name).findIdx? (· == name) := by
  -- From the end of the list: there the table grows.
  induction cs using List.reverseRecOn with
  | nil => rfl
  | append_singleton cs c ih =>
    have hlast : (([⟨c.name, cs.length, c.position.line⟩] : NameTable).find?
          fun entry => entry.name == name).map (·.index) =
        ([c.name].findIdx? (· == name)).map (· + cs.length) := by
      by_cases hn : c.name = name
      · simp [hn]
      · simp [hn]
    have hlen : (cs.map Command.name).length = cs.length := List.length_map _
    rw [index?, NameTable.entry?] at ih ⊢
    rw [ofCommands_concat, List.find?_append, Option.map_or, ih, hlast, List.map_append,
      List.findIdx?_append, hlen]
    rfl

end NameTable

namespace Program
variable {p : Program} {name : String}

theorem nameAt_of_index? {i : Nat} (h : p.index? name = some i) :
    ∃ c, p.commands[i]? = some c ∧ c.name = name := by
  obtain ⟨hi, hn, -⟩ := List.findIdx?_eq_some_iff_getElem.1 h
  rw [List.length_map] at hi
  refine ⟨p.commands[i], List.getElem?_eq_getElem hi, ?_⟩
  rw [List.getElem_map] at hn
  exact beq_iff_eq.1 hn

theorem find?_eq_getElem? (p : Program) (name : String) :
    p.find? name = (p.index? name).bind fun i => p.commands[i]? := by
  unfold find? index?
  induction p.commands with
  | nil => rfl
  | cons c cs ih =>
    rw [List.map_cons, List.findIdx?_cons, List.find?_cons]
    by_cases hn : c.name == name
    · simp [hn]
    · simp only [hn, ih, Bool.false_eq_true, if_false]
      cases (cs.map Command.name).findIdx? (· == name) <;> simp

/-- No other command stands where the first one of a name does. -/
theorem index?_eq_some_iff (hw : WellNamed p.commands) {i : Nat} :
    p.index? name = some i ↔ ∃ c, p.find? name = some c ∧ p.commands[i]? = some c := by
  constructor
  · intro h
    obtain ⟨c, hc, -⟩ := nameAt_of_index? h
    refine ⟨c, ?_, hc⟩
    rw [find?_eq_getElem?, h]
    exact hc
  · rintro ⟨c, hfind, hc⟩
    rw [find?_eq_getElem?] at hfind
    obtain ⟨j, hj, hcj⟩ := Option.bind_eq_some_iff.1 hfind
    have hi : (p.commands.map Command.name)[i]? = some c.name := by simp [hc]
    have hij : i = j := by
      apply (List.getElem?_inj (List.getElem?_eq_some_iff.1 hi).1 hw.distinct).1
      rw [hi]
      simp [hcj]
    rw [hij]
    exact hj

end Program

/-! ## Bodies -/

namespace NameTable
variable {table : NameTable} {e : Executable}

/-- Whatever the table finds is called by its name in the executable. -/
def Names (table : NameTable) (e : Executable) : Prop :=
  ∀ name index, table.index? name = some index → e.nameAt? index = some name

theorem statement?_resolveCall (ht : table.Names e) {name : String} {p : Position} {node : Node}
    (h : table.resolveCall name p = .ok node) :
    e.statement? node = some (.call name (.ofLine p.line)) := by
  unfold resolveCall at h
  split at h
  · next a ha =>
    cases h
    have hname := Primitive.ofName?_eq_some_iff.1 ha
    rw [Executable.statement?, hname]
  · split at h
    · next target hi =>
      cases h
      have hname := ht name target hi
      rw [Executable.statement?, hname]
      rfl
    · split at h <;> cases h

mutual

theorem statement?_resolveStatement (ht : table.Names e) : ∀ (s : Statement) {node : Node},
    table.resolveStatement s = .ok node → e.statement? node = some s.outline
  | .call _ _, _, h => statement?_resolveCall ht h
  | .repeat _ body _, _, h => by
    obtain ⟨nodes, hb, h⟩ := Except.bind_eq_ok_iff.1 h
    cases h
    have hbody := statements?_resolveBlock ht body hb
    rw [Executable.statement?, hbody, Statement.outline]
    rfl
  | .if _ yes _, _, h => by
    obtain ⟨nodes, hy, h⟩ := Except.bind_eq_ok_iff.1 h
    cases h
    have hyes := statements?_resolveBlock ht yes hy
    rw [Executable.statement?, hyes, Executable.statements?, Statement.outline]
    rfl
  | .ifElse _ yes no _, _, h => by
    obtain ⟨nodes, hy, h⟩ := Except.bind_eq_ok_iff.1 h
    obtain ⟨nodes', hn, h⟩ := Except.bind_eq_ok_iff.1 h
    cases h
    have hyes := statements?_resolveBlock ht yes hy
    have hno := statements?_resolveBlock ht no hn
    rw [Executable.statement?, hyes, hno, Statement.outline]
    rfl
  | .while _ body _, _, h => by
    obtain ⟨nodes, hb, h⟩ := Except.bind_eq_ok_iff.1 h
    cases h
    have hbody := statements?_resolveBlock ht body hb
    rw [Executable.statement?, hbody, Statement.outline]
    rfl

theorem statements?_resolveBlock (ht : table.Names e) : ∀ (ss : List Statement) {nodes : List Node},
    table.resolveBlock ss = .ok nodes → e.statements? nodes = some (Statement.outlineBlock ss)
  | [], _, h => by
    cases h
    rfl
  | s :: ss, _, h => by
    obtain ⟨node, hs, h⟩ := Except.bind_eq_ok_iff.1 h
    obtain ⟨nodes, hss, h⟩ := Except.bind_eq_ok_iff.1 h
    cases h
    have hfirst := statement?_resolveStatement ht s hs
    have hrest := statements?_resolveBlock ht ss hss
    rw [Executable.statements?, hfirst, hrest, Statement.outlineBlock]
    rfl

end

theorem command?_resolveCommand (ht : table.Names e) {c : Command} {r : Routine}
    (h : table.resolveCommand c = .ok r) : e.command? r = some c.outline := by
  obtain ⟨body, hb, h⟩ := Except.bind_eq_ok_iff.1 h
  cases h
  have hbody := statements?_resolveBlock ht c.body hb
  rw [Executable.command?, hbody]
  rfl

theorem name_resolveCommand {c : Command} {r : Routine} (h : table.resolveCommand c = .ok r) :
    r.name = c.name := by
  obtain ⟨body, -, h⟩ := Except.bind_eq_ok_iff.1 h
  cases h
  rfl

theorem mapM_command? (ht : table.Names e) {cs : List Command} {rs : List Routine}
    (h : List.Forall₂ (fun c r => table.resolveCommand c = .ok r) cs rs) :
    rs.mapM e.command? = some (cs.map Command.outline) := by
  induction h with
  | nil => rfl
  | cons hc _ ih =>
    rw [List.mapM_cons, command?_resolveCommand ht hc, ih]
    rfl

theorem names_eq {cs : List Command} {rs : List Routine}
    (h : List.Forall₂ (fun c r => table.resolveCommand c = .ok r) cs rs) :
    rs.map Routine.name = cs.map Command.name := by
  induction h with
  | nil => rfl
  | cons hc _ ih => rw [List.map_cons, List.map_cons, name_resolveCommand hc, ih]

end NameTable

/-! ## Executables -/

theorem Executable.find?_eq_index? {e : Executable} {p : Program}
    (h : e.routines.map Routine.name = p.commands.map Command.name) (name : String) :
    e.find? name = p.index? name := by
  rw [Program.index?, ← h, List.findIdx?_map]
  rfl

theorem NameTable.names_ofCommands {e : Executable} {p : Program}
    (h : e.routines.map Routine.name = p.commands.map Command.name) :
    (ofCommands p.commands).Names e := by
  intro name index hi
  rw [index?_ofCommands] at hi
  obtain ⟨c, hc, hn⟩ := Program.nameAt_of_index? hi
  have hname : (p.commands.map Command.name)[index]? = some name := by simp [hc, hn]
  rw [Executable.nameAt?, ← List.getElem?_map, h]
  exact hname

namespace Program
variable {p : Program} {requested : Option String} {e : Executable}

/-- Compiling goes through the table, the entry and the routines. -/
theorem of_compile_eq_ok (h : p.compile requested = .ok e) :
    WellNamed p.commands ∧ NameTable.ofProgram p = .ok (.ofCommands p.commands) ∧
      (NameTable.ofCommands p.commands).chooseEntry p requested = .ok e.entry ∧
      List.Forall₂ (fun c r => (NameTable.ofCommands p.commands).resolveCommand c = .ok r)
        p.commands e.routines := by
  obtain ⟨table, htable, h⟩ := Except.bind_eq_ok_iff.1 h
  obtain ⟨entry, hentry, h⟩ := Except.bind_eq_ok_iff.1 h
  obtain ⟨routines, hroutines, h⟩ := Except.bind_eq_ok_iff.1 h
  cases h
  have hw := NameTable.wellNamed_of_ofProgram htable
  have htable' := NameTable.ofProgram_of_wellNamed hw
  have heq : table = .ofCommands p.commands := Except.ok.inj (htable.symm.trans htable')
  subst heq
  exact ⟨hw, htable', hentry, forall₂_of_mapM_eq_ok hroutines⟩

theorem entry_of_chooseEntry {entry : Nat}
    (h : (NameTable.ofCommands p.commands).chooseEntry p requested = .ok entry) :
    (∀ name, requested = some name → p.index? name = some entry) ∧
      (requested = none → entry = 0) := by
  constructor
  · rintro name rfl
    simp only [NameTable.chooseEntry] at h
    split at h
    · next i hi =>
      cases h
      rw [NameTable.index?_ofCommands] at hi
      exact hi
    · cases h
  · rintro rfl
    simp only [NameTable.chooseEntry] at h
    split at h
    · cases h
    · cases h
      rfl

/-- Compiling loses nothing but columns. The executable can be read back, and that gives the outline
of the program. Every name leads to the same place whether it is looked up in the executable, in the
name table or among the commands, and the entry is the place of the name that was asked for, or the
first place if none was. -/
theorem compile_loses_only_columns (h : p.compile requested = .ok e) :
    e.program? = some p.outline ∧
      (∃ table, NameTable.ofProgram p = .ok table ∧ ∀ name, table.index? name = e.find? name) ∧
      (∀ name i, e.find? name = some i ↔
        ∃ c, p.find? name = some c ∧ p.commands[i]? = some c) ∧
      (∀ name, requested = some name → e.find? name = some e.entry) ∧
      (requested = none → e.entry = 0) := by
  obtain ⟨hw, htable, hentry, hroutines⟩ := of_compile_eq_ok h
  have hnames := NameTable.names_eq hroutines
  have hfind : ∀ name, e.find? name = p.index? name := Executable.find?_eq_index? hnames
  refine ⟨?_, ⟨_, htable, fun name => ?_⟩, fun name i => ?_, ?_⟩
  · have hcommands := NameTable.mapM_command? (NameTable.names_ofCommands hnames) hroutines
    rw [Executable.program?, hcommands]
    rfl
  · rw [hfind, NameTable.index?_ofCommands, index?]
  · rw [hfind]
    exact index?_eq_some_iff hw
  · simp only [hfind]
    exact entry_of_chooseEntry hentry

/-- Calls go back and forth, an `else if` and a missing `else` stand side by side. -/
def rounds : Program where
  commands :=
    [⟨"main",
      [.ifElse (.query .onBeeper ⟨2, 7⟩) [.call "pickBeeper" ⟨2, 21⟩]
        [.if (.not (.query .frontIsClear ⟨3, 14⟩)) [.call "corner" ⟨3, 32⟩] ⟨3, 10⟩] ⟨2, 3⟩],
      ⟨1, 1⟩⟩,
      ⟨"corner", [.repeat 3 [.call "turnLeft" ⟨6, 17⟩] ⟨6, 3⟩, .call "main" ⟨7, 3⟩], ⟨5, 1⟩⟩]

theorem rounds_loses_only_columns :
    ∃ e, rounds.compile (some "corner") = .ok e ∧ e.entry = 1 ∧ e.find? "corner" = some 1 ∧
      e.program? = some
        ⟨[⟨"main",
          [.ifElse (.query .onBeeper ⟨2, 7⟩) [.call "pickBeeper" ⟨2, 0⟩]
            [.ifElse (.not (.query .frontIsClear ⟨3, 14⟩)) [.call "corner" ⟨3, 0⟩] [] ⟨3, 0⟩]
            ⟨2, 0⟩], ⟨1, 0⟩⟩,
          ⟨"corner", [.repeat 3 [.call "turnLeft" ⟨6, 0⟩] ⟨6, 0⟩, .call "main" ⟨7, 0⟩],
            ⟨5, 0⟩⟩]⟩ := by
  have h : rounds.compile (some "corner") = .ok
      ⟨1, [⟨"main",
        [.if (.query .onBeeper ⟨2, 7⟩) [.action .pickBeeper 2]
          [.if (.not (.query .frontIsClear ⟨3, 14⟩)) [.call 1 3] [] 3] 2], 1⟩,
        ⟨"corner", [.repeat 3 [.action .turnLeft 6] 6, .call 0 7], 5⟩]⟩ := rfl
  obtain ⟨hprogram, -, -, hentry, -⟩ := compile_loses_only_columns h
  exact ⟨_, h, rfl, hentry "corner" rfl, hprogram⟩

end Program
end Karel
