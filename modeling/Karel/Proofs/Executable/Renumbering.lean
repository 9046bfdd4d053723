import Karel.Proofs.Executable.ReadBack

/-! # Executables with their routines in another order

A call holds the place of the routine it goes to, so that declaring the commands of a program in
another order changes the numbers in all calls, whether they go forward or back. Besides that it
changes nothing: if one name table finds every name at the renumbered place at which another finds
it, then resolving through the one gives the renumbered nodes or the same diagnostic. Compiling a
program again after its commands have been put in another order therefore gives the executable with
its routines put in that order and its calls renumbered.
-/
namespace Karel

mutual

/-- A node whose calls go to the renumbered places. -/
@[simp]
def Node.renumber (σ : Nat → Nat) : Node → Node
  | .action p line => .action p line
  | .call target line => .call (σ target) line
  | .repeat count body line => .repeat count (renumberBlock σ body) line
  | .if c yes no line => .if c (renumberBlock σ yes) (renumberBlock σ no) line
  | .while c body line => .while c (renumberBlock σ body) line

@[simp]
def Node.renumberBlock (σ : Nat → Nat) : List Node → List Node
  | [] => []
  | node :: nodes => node.renumber σ :: renumberBlock σ nodes

end

theorem Node.line_renumber (σ : Nat → Nat) (node : Node) : (node.renumber σ).line = node.line := by
  cases node with
  | _ => rfl

def Routine.renumber (σ : Nat → Nat) (r : Routine) : Routine :=
  { r with body := Node.renumberBlock σ r.body }

/-- The second executable has the routines of the first at the renumbered places. A place without a
routine stays as it is. -/
structure Executable.Renumbered (σ : Nat → Nat) (e e' : Executable) : Prop where
  entry : e'.entry = σ e.entry
  routine : ∀ i r, e.routines[i]? = some r → e'.routines[σ i]? = some (r.renumber σ)
  missing : ∀ i, e.routines[i]? = none → σ i = i ∧ e'.routines[i]? = none

/-! ## Resolving -/

section bind
variable {ε α α' β β' : Type} {f : α → α'} {g : β → β'}

theorem Except.bind_eq_map {x : Except ε α} {x' : Except ε α'} {k : α → Except ε β}
    {k' : α' → Except ε β'} (hx : x' = x.map f) (hk : ∀ a, k' (f a) = (k a).map g) :
    (x' >>= k') = (x >>= k).map g := by
  rw [hx]
  cases x with
  | error err => rfl
  | ok a => exact hk a

theorem exists_mapM_eq_ok {k : α → Except ε β} {xs : List α} (h : ∀ x ∈ xs, ∃ y, k x = .ok y) :
    ∃ ys, xs.mapM k = .ok ys := by
  induction xs with
  | nil => exact ⟨[], rfl⟩
  | cons x xs ih =>
    obtain ⟨y, hy⟩ := h x List.mem_cons_self
    obtain ⟨ys, hys⟩ := ih fun x' hx' => h x' (List.mem_cons_of_mem x hx')
    refine ⟨y :: ys, ?_⟩
    rw [List.mapM_cons, hy, hys]
    rfl

theorem getElem?_of_forall₂ {R : α → β → Prop} {xs : List α} {ys : List β}
    (h : List.Forall₂ R xs ys) {i : Nat} {x : α} (hx : xs[i]? = some x) :
    ∃ y, ys[i]? = some y ∧ R x y := by
  obtain ⟨hi, rfl⟩ := List.getElem?_eq_some_iff.1 hx
  have hi' : i < ys.length := h.length_eq ▸ hi
  exact ⟨ys[i], List.getElem?_eq_getElem hi', h.get hi hi'⟩

end bind

namespace NameTable

/-- The second table finds every name at the renumbered place. -/
def Renumbered (σ : Nat → Nat) (table table' : NameTable) : Prop :=
  ∀ name, table'.index? name = (table.index? name).map σ

variable {σ : Nat → Nat} {table table' : NameTable}

theorem Renumbered.resolveCall (h : table.Renumbered σ table') (name : String) (p : Position) :
    table'.resolveCall name p = (table.resolveCall name p).map (Node.renumber σ) := by
  unfold NameTable.resolveCall
  rw [h name]
  cases Primitive.ofName? name with
  | some action => rfl
  | none =>
    cases table.index? name with
    | some target => rfl
    | none =>
      cases Query.ofName? name with
      | some q => rfl
      | none => rfl

mutual

theorem Renumbered.resolveStatement (h : table.Renumbered σ table') : ∀ s : Statement,
    table'.resolveStatement s = (table.resolveStatement s).map (Node.renumber σ)
  | .call name p => h.resolveCall name p
  | .repeat _ body _ => Except.bind_eq_map (h.resolveBlock body) fun _ => rfl
  | .if _ yes _ => Except.bind_eq_map (h.resolveBlock yes) fun _ => rfl
  | .ifElse _ yes no _ => Except.bind_eq_map (h.resolveBlock yes) fun _ =>
      Except.bind_eq_map (h.resolveBlock no) fun _ => rfl
  | .while _ body _ => Except.bind_eq_map (h.resolveBlock body) fun _ => rfl

theorem Renumbered.resolveBlock (h : table.Renumbered σ table') : ∀ ss : List Statement,
    table'.resolveBlock ss = (table.resolveBlock ss).map (Node.renumberBlock σ)
  | [] => rfl
  | s :: ss => Except.bind_eq_map (h.resolveStatement s) fun _ =>
      Except.bind_eq_map (h.resolveBlock ss) fun _ => rfl

end

theorem Renumbered.resolveCommand (h : table.Renumbered σ table') (c : Command) :
    table'.resolveCommand c = (table.resolveCommand c).map (Routine.renumber σ) :=
  Except.bind_eq_map (h.resolveBlock c.body) fun _ => rfl

end NameTable

/-! ## Commands in another order -/

theorem WellNamed.of_perm {cs cs' : List Command} (hw : WellNamed cs) (hp : cs'.Perm cs) :
    WellNamed cs' where
  free c hc := hw.free c (hp.mem_iff.1 hc)
  distinct := (hp.map Command.name).nodup_iff.2 hw.distinct

theorem WellNamed.eq_of_name {cs : List Command} (hw : WellNamed cs) {c c' : Command} (hc : c ∈ cs)
    (hc' : c' ∈ cs) (h : c.name = c'.name) : c = c' :=
  List.inj_on_of_nodup_map hw.distinct hc hc' h

namespace Program
variable {p p' : Program}

theorem index?_table (p : Program) (name : String) :
    (NameTable.ofCommands p.commands).index? name = p.index? name :=
  NameTable.index?_ofCommands p.commands name

theorem index?_eq_none_iff {name : String} : p.index? name = none ↔ ¬ p.Declares name := by
  rw [← NameTable.index?_ofCommands_eq_none_iff, index?_table]

/-- Where the command at a place of the first program is in the second. -/
def place (p p' : Program) (i : Nat) : Nat :=
  match p.commands[i]? with
  | some c => (p'.index? c.name).getD i
  | none => i

section perm
variable (hp : p'.commands.Perm p.commands)
include hp

theorem declares_of_perm {name : String} : p'.Declares name ↔ p.Declares name := by
  simp only [Declares, hp.mem_iff]

theorem index?_of_perm {i : Nat} {c : Command} (hc : p.commands[i]? = some c) :
    p'.index? c.name = some (p.place p' i) := by
  have hdeclared : p'.Declares c.name := (declares_of_perm hp).2 ⟨c, List.mem_of_getElem? hc, rfl⟩
  cases hi : p'.index? c.name with
  | none => exact absurd hdeclared (index?_eq_none_iff.1 hi)
  | some j => simp [place, hc, hi]

/-- A command is found again at its new place. -/
theorem getElem?_place (hw : WellNamed p.commands) {i : Nat} {c : Command}
    (hc : p.commands[i]? = some c) : p'.commands[p.place p' i]? = some c := by
  obtain ⟨c', hc', hname⟩ := nameAt_of_index? (index?_of_perm hp hc)
  have hmem : c' ∈ p.commands := hp.mem_iff.1 (List.mem_of_getElem? hc')
  rw [hc', hw.eq_of_name hmem (List.mem_of_getElem? hc) hname]

theorem renumbered_ofCommands :
    (NameTable.ofCommands p.commands).Renumbered (p.place p') (.ofCommands p'.commands) := by
  intro name
  rw [index?_table, index?_table]
  cases h : p.index? name with
  | some i =>
    obtain ⟨c, hc, rfl⟩ := nameAt_of_index? h
    exact index?_of_perm hp hc
  | none =>
    rw [index?_eq_none_iff, ← declares_of_perm hp] at h
    exact index?_eq_none_iff.2 h

variable {name : String} {e : Executable} (h : p.compile (some name) = .ok e)
include h

theorem chooseEntry_of_perm :
    (NameTable.ofCommands p'.commands).chooseEntry p' (some name) = .ok (p.place p' e.entry) := by
  obtain ⟨-, -, hentry, -⟩ := of_compile_eq_ok h
  have hi : p.index? name = some e.entry := (entry_of_chooseEntry hentry).1 name rfl
  have hi' := renumbered_ofCommands hp name
  rw [index?_table, index?_table, hi] at hi'
  rw [NameTable.chooseEntry, index?_table, hi']
  rfl

theorem exists_resolveAll_of_perm :
    ∃ routines, (NameTable.ofCommands p'.commands).resolveAll p' = .ok routines := by
  obtain ⟨-, -, -, hroutines⟩ := of_compile_eq_ok h
  apply exists_mapM_eq_ok
  intro c hc
  obtain ⟨i, hi⟩ := List.mem_iff_getElem?.1 (hp.mem_iff.1 hc)
  obtain ⟨r, -, hr⟩ := getElem?_of_forall₂ hroutines hi
  rw [(renumbered_ofCommands hp).resolveCommand, hr]
  exact ⟨r.renumber (p.place p'), rfl⟩

/-- Once the entry is named, a program compiles in whichever order its commands are declared. -/
theorem exists_compile_of_perm : ∃ e', p'.compile (some name) = .ok e' := by
  obtain ⟨hw, -⟩ := of_compile_eq_ok h
  have htable := NameTable.ofProgram_of_wellNamed (hw.of_perm hp)
  have hentry := chooseEntry_of_perm hp h
  obtain ⟨routines, hroutines⟩ := exists_resolveAll_of_perm hp h
  refine ⟨⟨p.place p' e.entry, routines⟩, ?_⟩
  rw [compile, htable]
  simp only [bind, Except.bind, hentry, hroutines]
  rfl

/-- And the executables differ in nothing but the numbers of their routines. -/
theorem renumbered_of_perm {e' : Executable} (h' : p'.compile (some name) = .ok e') :
    e.Renumbered (p.place p') e' := by
  obtain ⟨hw, -, -, hroutines⟩ := of_compile_eq_ok h
  obtain ⟨-, -, hentry', hroutines'⟩ := of_compile_eq_ok h'
  have hlength := hroutines.length_eq
  have hlength' := hroutines'.length_eq
  rw [hp.length_eq] at hlength'
  refine ⟨?_, fun i r hr => ?_, fun i hi => ?_⟩
  · rw [chooseEntry_of_perm hp h] at hentry'
    exact (Except.ok.inj hentry').symm
  · have hi : i < p.commands.length := hlength ▸ (List.getElem?_eq_some_iff.1 hr).1
    have hc := List.getElem?_eq_getElem hi
    obtain ⟨s, hs, hresolve⟩ := getElem?_of_forall₂ hroutines hc
    obtain ⟨r', hr', hresolve'⟩ := getElem?_of_forall₂ hroutines' (getElem?_place hp hw hc)
    rw [(renumbered_ofCommands hp).resolveCommand, hresolve] at hresolve'
    cases hr.symm.trans hs
    cases hresolve'
    exact hr'
  · have hi' := List.getElem?_eq_none_iff.1 hi
    refine ⟨?_, List.getElem?_eq_none (by omega)⟩
    rw [place, List.getElem?_eq_none (by omega)]

end perm

end Program

end Karel
