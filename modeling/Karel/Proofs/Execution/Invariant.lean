import Karel.Proofs.Execution.Turn
import Karel.Proofs.Executable.Linked

/-! # What steps keep

Four facts about every step: the machine itself never touches the flags of the control, it counts no
further than one beyond the budget, it sleeps only while it is paused, has no permit and is not
cancelled, and in a linked executable it never calls a routine that is not there.
-/
namespace Karel

/-- Every call in a frame leads to one of the first `count` routines. -/
def Frame.Linked (count : Nat) : Frame → Prop
  | .block nodes _ => ∀ node ∈ nodes, node.Linked count
  | .repeat body _ => ∀ node ∈ body, node.Linked count
  | .while _ body _ => ∀ node ∈ body, node.Linked count

def Phase.Linked (count : Nat) : Phase → Prop
  | .calling target _ => target < count
  | .testing _ _ yes no => (∀ f ∈ yes, f.Linked count) ∧ ∀ f ∈ no, f.Linked count
  | .sensing _ _ yes no => (∀ f ∈ yes, f.Linked count) ∧ ∀ f ∈ no, f.Linked count
  | .lost _ => False
  | _ => True

theorem Frame.linked_ofBody {count : Nat} {body : List Node} (h : ∀ node ∈ body, node.Linked count)
    {f : Frame} (hf : f ∈ ofBody body) : f.Linked count := by
  unfold ofBody at hf
  split at hf
  · exact absurd hf List.not_mem_nil
  · rw [List.mem_singleton.1 hf]
    exact h

theorem Frame.linked_tail {count : Nat} {node : Node} {nodes : List Node} {call : Bool}
    {rest : List Frame} (h : ∀ f ∈ block (node :: nodes) call :: rest, f.Linked count) :
    ∀ f ∈ block nodes call :: rest, f.Linked count := by
  obtain ⟨hb, hr⟩ := List.forall_mem_cons.1 h
  exact List.forall_mem_cons.2 ⟨fun k hk => hb k (List.mem_cons_of_mem _ hk), hr⟩

namespace Machine

/-- The budget holds as long as the run goes on. -/
def InBudget (limits : Limits) (m : Machine) : Prop :=
  m.isOver = false → m.steps ≤ limits.budget

/-- Who sleeps has a reason to. -/
def Wakeful (m : Machine) : Prop :=
  m.isAsleep = true → m.control.cancelled = false ∧ m.control.paused = true ∧ m.control.permits = 0

/-- Every call that a machine may still come to leads to a routine that is there. -/
structure Linked (e : Executable) (m : Machine) : Prop where
  frames : ∀ f ∈ m.frames, f.Linked e.routines.length
  phase : m.phase.Linked e.routines.length

variable {e : Executable} {limits : Limits} {m n : Machine}

@[simp] theorem pass_control (m : Machine) (starting : Bool) :
    (m.pass e starting).control = m.control := by
  unfold pass
  repeat' split
  all_goals rfl

@[simp] theorem pass_world (m : Machine) (starting : Bool) :
    (m.pass e starting).world = m.world := by
  unfold pass
  repeat' split
  all_goals rfl

@[simp] theorem pass_trace (m : Machine) (starting : Bool) :
    (m.pass e starting).trace = m.trace := by
  unfold pass
  repeat' split
  all_goals rfl

@[simp] theorem pass_frames (m : Machine) (starting : Bool) :
    (m.pass e starting).frames = m.frames := by
  unfold pass
  repeat' split
  all_goals rfl

theorem Turn.flags (h : Turn e limits m n) :
    n.control.cancelled = m.control.cancelled ∧ n.control.paused = m.control.paused := by
  cases h with
  | permit => simp
  | pass => simp
  | @node node => cases node <;> exact ⟨rfl, rfl⟩
  | _ => exact ⟨rfl, rfl⟩

theorem pass_isAsleep (m : Machine) (starting : Bool) : (m.pass e starting).isAsleep = false := by
  unfold pass
  repeat' split
  all_goals rfl

theorem pass_ne_finished (m : Machine) (starting : Bool) (outcome : Outcome) :
    (m.pass e starting).phase ≠ .finished outcome := by
  unfold pass
  repeat' split
  all_goals nofun

theorem Turn.isOver_eq_false (h : Turn e limits m n) : m.isOver = false := by
  cases h <;> simp [isOver, *]

theorem Turn.inBudget (hm : m.InBudget limits) (h : Turn e limits m n) : n.InBudget limits := by
  intro hn
  have hs := hm h.isOver_eq_false
  cases h with
  | overAtNode => simp [isOver, fail, finish] at hn
  | overAtTest => simp [isOver, fail, finish] at hn
  | @node node nodes call rest hp hf hc hb => cases node <;> exact hb
  | test hp hc hb => exact hb
  | permit => rwa [pass_steps]
  | pass => rwa [pass_steps]
  | _ => exact hs

theorem Turn.wakeful (h : Turn e limits m n) : n.Wakeful := by
  intro ha
  cases h with
  | sleep hp hc hq hn => exact ⟨hc, hq, hn⟩
  | permit => simp [pass_isAsleep] at ha
  | pass => simp [pass_isAsleep] at ha
  | @node node nodes call rest hp => cases node <;> simp [isAsleep, execute, hp] at ha
  | leave hp => simp [isAsleep, hp] at ha
  | repeatDone hp => simp [isAsleep, hp] at ha
  | repeatAgain hp => simp [isAsleep, hp] at ha
  | _ => simp [isAsleep, fail, finish] at ha

theorem linked_pass (he : e.Linked) (m : Machine) (starting : Bool)
    (hm : ∀ f ∈ m.frames, f.Linked e.routines.length) : (m.pass e starting).Linked e := by
  refine ⟨by simpa using hm, ?_⟩
  cases starting with
  | false => trivial
  | true =>
    have hlt := he.entry
    have hr : e.entryRoutine? = some e.routines[e.entry] := List.getElem?_eq_getElem hlt
    simp only [pass, hr, if_true]
    exact hlt

theorem linked_execute (m : Machine) {node : Node} (hn : node.Linked e.routines.length)
    (hm : ∀ f ∈ m.frames, f.Linked e.routines.length) (hp : m.phase = .running) :
    (execute node m).Linked e := by
  cases hn with
  | action p line => exact ⟨hm, trivial⟩
  | call line h => exact ⟨hm, h⟩
  | «repeat» k line h =>
    refine ⟨List.forall_mem_cons.2 ⟨h, hm⟩, ?_⟩
    simp only [execute, hp, Phase.Linked]
  | «if» c line hy hn =>
    exact ⟨hm, fun f hf => Frame.linked_ofBody hy hf, fun f hf => Frame.linked_ofBody hn hf⟩
  | «while» c line h =>
    refine ⟨List.forall_mem_cons.2 ⟨h, hm⟩, ?_⟩
    simp only [execute, hp, Phase.Linked]

/-- A step keeps a machine linked, so that it is never lost. -/
theorem Turn.linked (he : e.Linked) (hm : m.Linked e) (h : Turn e limits m n) : n.Linked e := by
  obtain ⟨hfs, hph⟩ := hm
  cases h with
  | permit hp hc hq hn => exact linked_pass he _ _ hfs
  | pass hp hq => exact linked_pass he _ _ hfs
  | call hp hr hd =>
    refine ⟨List.forall_mem_cons.2 ⟨?_, hfs⟩, trivial⟩
    exact he.bodies _ (List.mem_of_getElem? hr)
  | stray hp hr =>
    rw [hp] at hph
    exact absurd (List.getElem?_eq_none_iff.1 hr) (Nat.not_le_of_lt hph)
  | leave hp hf =>
    rw [hf] at hfs
    exact ⟨(List.forall_mem_cons.1 hfs).2, hph⟩
  | cancelAtNode hp hf hc =>
    rw [hf] at hfs
    exact ⟨Frame.linked_tail hfs, trivial⟩
  | overAtNode hp hf hc hb =>
    rw [hf] at hfs
    exact ⟨Frame.linked_tail hfs, trivial⟩
  | node hp hf hc hb =>
    rw [hf] at hfs
    have hn := (List.forall_mem_cons.1 hfs).1 _ List.mem_cons_self
    exact linked_execute _ hn (Frame.linked_tail hfs) hp
  | repeatDone hp hf =>
    rw [hf] at hfs
    exact ⟨(List.forall_mem_cons.1 hfs).2, hph⟩
  | repeatAgain hp hf =>
    rw [hf, List.forall_mem_cons] at hfs
    refine ⟨fun f hf => ?_, hph⟩
    rcases List.mem_append.1 hf with hf | hf
    · exact Frame.linked_ofBody hfs.1 hf
    · rcases List.mem_cons.1 hf with rfl | hf
      · exact hfs.1
      · exact hfs.2 f hf
  | loop hp hf =>
    rw [hf, List.forall_mem_cons] at hfs
    refine ⟨hfs.2, fun f hf => ?_, fun f hf => absurd hf List.not_mem_nil⟩
    rcases List.mem_append.1 hf with hf | hf
    · exact Frame.linked_ofBody hfs.1 hf
    · rw [List.mem_singleton.1 hf]
      exact hfs.1
  | test hp hc hb =>
    rw [hp] at hph
    exact ⟨hfs, hph⟩
  | @decided c line yes no value hp ha =>
    rw [hp] at hph
    refine ⟨fun f hf => ?_, trivial⟩
    rcases List.mem_append.1 hf with hf | hf
    · cases value
      · exact hph.2 f hf
      · exact hph.1 f hf
    · exact hfs f hf
  | undecided hp ha =>
    rw [hp] at hph
    exact ⟨hfs, hph⟩
  | _ => exact ⟨hfs, trivial⟩

theorem Linked.not_lost (hm : m.Linked e) (target : Nat) : m.phase ≠ .lost target := by
  intro hp
  have hph := hm.phase
  rw [hp] at hph
  exact hph

end Machine
end Karel
