import Mathlib.Data.List.Forall2
import Karel.Executable.Compile

/-! # Compiled programs are linked

In a linked executable every call leads to a routine that is there, and so does the entry. Compiling
gives nothing else: the name table numbers the commands in order, a call is resolved through the
table, and there are as many routines as names.
-/
namespace Karel

theorem Except.bind_eq_ok_iff {ε α β : Type} {x : Except ε α} {f : α → Except ε β} {b : β} :
    (x >>= f) = .ok b ↔ ∃ a, x = .ok a ∧ f a = .ok b := by
  cases x with
  | error err => simp [bind, Except.bind]
  | ok a => simp [bind, Except.bind]

theorem forall₂_of_mapM_eq_ok {ε α β : Type} {f : α → Except ε β} {xs : List α} {ys : List β}
    (h : xs.mapM f = .ok ys) : List.Forall₂ (fun x y => f x = .ok y) xs ys := by
  induction xs generalizing ys with
  | nil =>
    cases h
    exact .nil
  | cons x xs ih =>
    rw [List.mapM_cons] at h
    obtain ⟨y, hy, h⟩ := Except.bind_eq_ok_iff.1 h
    obtain ⟨ys', hys, h⟩ := Except.bind_eq_ok_iff.1 h
    cases h
    exact .cons hy (ih hys)

theorem exists_of_forall₂_mem {α β : Type} {R : α → β → Prop} {xs : List α} {ys : List β}
    (h : List.Forall₂ R xs ys) {y : β} (hy : y ∈ ys) : ∃ x ∈ xs, R x y := by
  induction h with
  | nil => exact absurd hy List.not_mem_nil
  | cons hxy _ ih =>
    rcases List.mem_cons.1 hy with rfl | hy
    · exact ⟨_, List.mem_cons_self, hxy⟩
    · obtain ⟨x, hx, hr⟩ := ih hy
      exact ⟨x, List.mem_cons_of_mem _ hx, hr⟩

/-- Every call in a node leads to one of the first `count` routines. -/
inductive Node.Linked (count : Nat) : Node → Prop where
  | action (p : Primitive) (line : Nat) : Linked count (.action p line)
  | call {target : Nat} (line : Nat) (h : target < count) : Linked count (.call target line)
  | repeat (n : Nat) {body : List Node} (line : Nat) (h : ∀ node ∈ body, Linked count node) :
      Linked count (.repeat n body line)
  | if (c : Condition) {yes no : List Node} (line : Nat) (hy : ∀ node ∈ yes, Linked count node)
      (hn : ∀ node ∈ no, Linked count node) : Linked count (.if c yes no line)
  | while (c : Condition) {body : List Node} (line : Nat) (h : ∀ node ∈ body, Linked count node) :
      Linked count (.while c body line)

/-- The entry and every call lead to a routine that is there. -/
structure Executable.Linked (e : Executable) : Prop where
  entry : e.entry < e.routines.length
  bodies : ∀ r ∈ e.routines, ∀ node ∈ r.body, node.Linked e.routines.length

namespace NameTable

/-- The places in a table are those of a list as long as the table. -/
def Indexed (table : NameTable) : Prop := ∀ entry ∈ table, entry.index < table.length

theorem Indexed.index?_lt {table : NameTable} (ht : table.Indexed) {name : String} {index : Nat}
    (h : table.index? name = some index) : index < table.length := by
  obtain ⟨entry, he, rfl⟩ := Option.map_eq_some_iff.1 h
  exact ht entry (List.mem_of_find?_eq_some he)

theorem Indexed.snoc {table : NameTable} (ht : table.Indexed) (name : String) (line : Nat) :
    Indexed (table ++ [⟨name, table.length, line⟩]) := by
  intro entry he
  rw [List.length_append, List.length_singleton]
  rcases List.mem_append.1 he with h | h
  · have := ht entry h
    omega
  · rw [List.mem_singleton.1 h]
    exact Nat.lt_succ_self _

theorem declareAll_indexed {table table' : NameTable} {cs : List Command} (ht : table.Indexed)
    (h : table.declareAll cs = .ok table') :
    table'.Indexed ∧ table'.length = table.length + cs.length := by
  induction cs generalizing table with
  | nil =>
    cases h
    exact ⟨ht, rfl⟩
  | cons c cs ih =>
    rw [declareAll] at h
    split at h
    · cases h
    · split at h
      · cases h
      · obtain ⟨hi, hl⟩ := ih (ht.snoc c.name c.position.line) h
        refine ⟨hi, ?_⟩
        simp only [List.length_append, List.length_cons, List.length_nil] at hl ⊢
        omega

theorem chooseEntry_lt {table : NameTable} (ht : table.Indexed) {p : Program}
    (hl : table.length = p.commands.length) {requested : Option String} {entry : Nat}
    (h : table.chooseEntry p requested = .ok entry) : entry < p.commands.length := by
  cases requested with
  | some name =>
    simp only [chooseEntry] at h
    split at h
    · next index hi =>
      cases h
      exact hl ▸ ht.index?_lt hi
    · cases h
  | none =>
    simp only [chooseEntry] at h
    split at h
    · cases h
    · next hne =>
      cases h
      cases hc : p.commands with
      | nil => simp [hc] at hne
      | cons c cs => exact Nat.succ_pos _

theorem resolveCall_linked {table : NameTable} (ht : table.Indexed) {name : String}
    {position : Position} {node : Node} (h : table.resolveCall name position = .ok node) :
    node.Linked table.length := by
  unfold resolveCall at h
  split at h
  · cases h
    exact .action _ _
  · split at h
    · next target hi =>
      cases h
      exact .call _ (ht.index?_lt hi)
    · split at h
      · cases h
      · cases h

mutual

theorem resolveStatement_linked {table : NameTable} (ht : table.Indexed) :
    ∀ (s : Statement) {node : Node}, table.resolveStatement s = .ok node →
      node.Linked table.length
  | .call _ _, _, h => resolveCall_linked ht h
  | .repeat _ body _, _, h => by
    obtain ⟨nodes, hb, h⟩ := Except.bind_eq_ok_iff.1 h
    cases h
    exact .repeat _ _ (resolveBlock_linked ht body hb)
  | .if _ yes _, _, h => by
    obtain ⟨nodes, hy, h⟩ := Except.bind_eq_ok_iff.1 h
    cases h
    exact .if _ _ (resolveBlock_linked ht yes hy) (fun _ hn => absurd hn List.not_mem_nil)
  | .ifElse _ yes no _, _, h => by
    obtain ⟨nodes, hy, h⟩ := Except.bind_eq_ok_iff.1 h
    obtain ⟨nodes', hn, h⟩ := Except.bind_eq_ok_iff.1 h
    cases h
    exact .if _ _ (resolveBlock_linked ht yes hy) (resolveBlock_linked ht no hn)
  | .while _ body _, _, h => by
    obtain ⟨nodes, hb, h⟩ := Except.bind_eq_ok_iff.1 h
    cases h
    exact .while _ _ (resolveBlock_linked ht body hb)

theorem resolveBlock_linked {table : NameTable} (ht : table.Indexed) :
    ∀ (ss : List Statement) {nodes : List Node}, table.resolveBlock ss = .ok nodes →
      ∀ node ∈ nodes, node.Linked table.length
  | [], _, h => by
    cases h
    exact fun _ hn => absurd hn List.not_mem_nil
  | s :: ss, _, h => by
    obtain ⟨node, hs, h⟩ := Except.bind_eq_ok_iff.1 h
    obtain ⟨nodes, hss, h⟩ := Except.bind_eq_ok_iff.1 h
    cases h
    intro n hn
    rcases List.mem_cons.1 hn with rfl | hn
    · exact resolveStatement_linked ht s hs
    · exact resolveBlock_linked ht ss hss n hn

end

theorem resolveAll_linked {table : NameTable} (ht : table.Indexed) {p : Program}
    {routines : List Routine} (h : table.resolveAll p = .ok routines) :
    routines.length = p.commands.length ∧
      ∀ r ∈ routines, ∀ node ∈ r.body, node.Linked table.length := by
  have hall := forall₂_of_mapM_eq_ok h
  refine ⟨hall.length_eq.symm, fun r hr => ?_⟩
  obtain ⟨c, -, hc⟩ := exists_of_forall₂_mem hall hr
  obtain ⟨body, hb, hr⟩ := Except.bind_eq_ok_iff.1 hc
  cases hr
  exact resolveBlock_linked ht c.body hb

end NameTable

/-- Compiling gives linked executables. -/
theorem Program.linked_of_compile {p : Program} {requested : Option String} {e : Executable}
    (h : p.compile requested = .ok e) : e.Linked := by
  obtain ⟨table, htable, h⟩ := Except.bind_eq_ok_iff.1 h
  obtain ⟨entry, hentry, h⟩ := Except.bind_eq_ok_iff.1 h
  obtain ⟨routines, hroutines, h⟩ := Except.bind_eq_ok_iff.1 h
  cases h
  have hnil : NameTable.Indexed [] := fun _ he => absurd he List.not_mem_nil
  obtain ⟨hi, hl⟩ := NameTable.declareAll_indexed hnil htable
  rw [List.length_nil, Nat.zero_add] at hl
  obtain ⟨hlen, hbodies⟩ := NameTable.resolveAll_linked hi hroutines
  refine ⟨?_, ?_⟩
  · rw [hlen]
    exact NameTable.chooseEntry_lt hi hl hentry
  · rw [hlen, ← hl]
    exact hbodies

end Karel
