import Karel.Proofs.Display.Watching

/-! # Looking at a slot

Worlds are published, handles on the slot are taken, and the animator looks, in any order. The
animator goes by the numbers of snapshots, which nobody sees. What it comes to can be said by what
has happened alone: it leaves a snapshot undrawn if it has drawn it before, and after a failure it
has not. A handle is a snapshot too, so it is the current one until the next publication, and it
keeps its world after that.
-/
namespace Karel

variable {σ : Type}

namespace Slot

theorem world_publishAll (slot : Slot) (ws : List World) :
    (slot.publishAll ws).world = ws.getLastD slot.world := by
  induction ws generalizing slot with
  | nil => rfl
  | cons w ws ih =>
    rw [List.getLastD_cons]
    exact ih (slot.publish w)

/-- A snapshot is the current one until something is published. -/
theorem shows_publishAll_iff (slot : Slot) (ws : List World) :
    (slot.publishAll ws).shows slot.current = true ↔ ws = [] := by
  rw [slot.issued_current.shows_publishAll_iff]
  exact and_iff_right (beq_self_eq_true _)

end Slot

namespace Animator

/-- What may be done: a world is published, a handle on the slot is taken, the animator looks. -/
inductive Deed where
  | publish (w : World)
  | hold
  | look

/-- The worlds that are published, in order. -/
def Deed.published (deeds : List Deed) : List World :=
  deeds.filterMap fun
    | .publish w => some w
    | .hold | .look => none

/-- What has been done, and what looking came to. -/
inductive Happening where
  | published
  | held
  | looked (drawing : Drawing)
  deriving DecidableEq

namespace Happening

/-- A look has drawn, and nothing was published since the last one that did. The latest happening
comes first. -/
def Seen (past : List Happening) : Prop :=
  ∃ since before, past = since ++ .looked .drawn :: before ∧
    .looked .drawn ∉ since ∧ .published ∉ since

variable {past : List Happening}

theorem not_seen_nil : ¬ Seen [] := by
  rintro ⟨since, before, h, -⟩
  exact List.append_ne_nil_of_right_ne_nil since (List.cons_ne_nil _ before) h.symm

theorem seen_drawn (past : List Happening) : Seen (.looked .drawn :: past) :=
  ⟨[], past, rfl, List.not_mem_nil, List.not_mem_nil⟩

theorem not_seen_published (past : List Happening) : ¬ Seen (.published :: past) := by
  rintro ⟨since, before, h, -, hpublished⟩
  cases since with
  | nil => cases h
  | cons e since =>
    cases h
    exact hpublished List.mem_cons_self

/-- Only drawing and publishing decide what has been seen. -/
theorem seen_cons_iff {e : Happening} (hd : e ≠ .looked .drawn) (hp : e ≠ .published) :
    Seen (e :: past) ↔ Seen past := by
  constructor
  · rintro ⟨since, before, h, hdrawn, hpublished⟩
    cases since with
    | nil =>
      cases h
      exact absurd rfl hd
    | cons e' since =>
      cases h
      exact ⟨since, before, rfl, fun hm => hdrawn (List.mem_cons_of_mem _ hm),
        fun hm => hpublished (List.mem_cons_of_mem _ hm)⟩
  · rintro ⟨since, before, rfl, hdrawn, hpublished⟩
    refine ⟨e :: since, before, rfl, ?_, ?_⟩
    · exact List.not_mem_cons_of_ne_of_not_mem hd.symm hdrawn
    · exact List.not_mem_cons_of_ne_of_not_mem hp.symm hpublished

end Happening

open Happening

/-- A slot with an animator before it: the screen and its record, the handles that have been taken
and all that has happened, the latest first. -/
structure Scene (σ : Type) where
  slot : Slot
  animator : Animator
  screen : σ × List Screen.Attempt
  held : List Snapshot
  past : List Happening

namespace Scene

/-- A slot with its first world and a new animator. -/
def opening (first : World) (s : σ) : Scene σ := ⟨.new first, {}, (s, []), [], []⟩

def record (scene : Scene σ) : List Screen.Attempt := scene.screen.2

/-- The animator looks at the slot. -/
def look (screen : Screen σ) (scene : Scene σ) : Drawing × Scene σ :=
  let (drawing, animator, s) := scene.animator.refresh screen.recorded scene.slot scene.screen
  (drawing, { scene with animator, screen := s, past := .looked drawing :: scene.past })

def step (screen : Screen σ) (scene : Scene σ) : Deed → Scene σ
  | .publish w => { scene with slot := scene.slot.publish w, past := .published :: scene.past }
  | .hold => { scene with held := scene.slot.current :: scene.held, past := .held :: scene.past }
  | .look => (scene.look screen).2

def after (screen : Screen σ) (scene : Scene σ) (deeds : List Deed) : Scene σ :=
  deeds.foldl (step screen) scene

/-- What a look does: nothing, or it asks the screen for a frame of the current world. -/
theorem look_cases (screen : Screen σ) (scene : Scene σ) :
    ∃ drawing next, scene.look screen = (drawing, next) ∧ scene.step screen .look = next ∧
      next.slot = scene.slot ∧ next.held = scene.held ∧
      next.past = .looked drawing :: scene.past ∧
      (drawing = .idle ∧ scene.animator.shown.any scene.slot.shows = true ∧
          next.animator = scene.animator ∧ next.screen = scene.screen ∨
        scene.animator.shown.any scene.slot.shows = false ∧
          ∃ requests, requests = frame (scene.animator.frames + 1) scene.slot.world ∧
            (drawing = .drawn ∧
                next.animator = ⟨some scene.slot.current, scene.animator.frames + 1⟩ ∧
                next.record = scene.record ++ requests.map .served ∨
              drawing = .failed ∧
                next.animator = { scene.animator with frames := scene.animator.frames + 1 } ∧
                ∃ done refused left, requests = done ++ refused :: left ∧
                  next.record = scene.record ++ done.map .served ++ [.refused refused])) := by
  unfold step look
  rcases scene.animator.refresh_cases screen scene.slot scene.screen with ⟨hshown, hrefresh⟩ |
    ⟨hnew, ⟨t, hrefresh, hrecord⟩ | ⟨t, done, refused, left, hrefresh, hframe, hrecord⟩⟩
  · rw [hrefresh]
    exact ⟨_, _, rfl, rfl, rfl, rfl, rfl, .inl ⟨rfl, hshown, rfl, rfl⟩⟩
  · rw [hrefresh]
    exact ⟨_, _, rfl, rfl, rfl, rfl, rfl, .inr ⟨hnew, _, rfl, .inl ⟨rfl, rfl, hrecord⟩⟩⟩
  · rw [hrefresh]
    exact ⟨_, _, rfl, rfl, rfl, rfl, rfl,
      .inr ⟨hnew, _, rfl, .inr ⟨rfl, rfl, done, refused, left, hframe, hrecord⟩⟩⟩

/-! ## Invariants of what happens -/

/-- The animator knows what has been seen, and how many looks have drawn or failed. -/
structure Aware (scene : Scene σ) : Prop where
  shown_iff : scene.animator.shown.any scene.slot.shows = true ↔ Seen scene.past
  issued : ∀ s, scene.animator.shown = some s → scene.slot.Issued s
  frames_eq : scene.animator.frames =
    scene.past.count (.looked .drawn) + scene.past.count (.looked .failed)

variable {scene : Scene σ}

theorem aware_opening (first : World) (s : σ) : (opening first s).Aware where
  shown_iff := iff_of_false (by simp [opening]) not_seen_nil
  issued := by simp [opening]
  frames_eq := rfl

theorem Aware.publish (h : scene.Aware) (screen : Screen σ) (w : World) :
    (scene.step screen (.publish w)).Aware where
  shown_iff := by
    refine iff_of_false (fun hshown => ?_) (not_seen_published scene.past)
    exact List.cons_ne_nil w [] (Slot.eq_nil_of_any_shows h.issued hshown)
  issued s hs := (h.issued s hs).publishAll [w]
  frames_eq := by
    rw [step, List.count_cons_of_ne (by simp), List.count_cons_of_ne (by simp)]
    exact h.frames_eq

theorem Aware.hold (h : scene.Aware) (screen : Screen σ) : (scene.step screen .hold).Aware where
  shown_iff := h.shown_iff.trans (seen_cons_iff (by simp) (by simp)).symm
  issued := h.issued
  frames_eq := by
    rw [step, List.count_cons_of_ne (by simp), List.count_cons_of_ne (by simp)]
    exact h.frames_eq

theorem Aware.look (h : scene.Aware) (screen : Screen σ) : (scene.step screen .look).Aware := by
  obtain ⟨drawing, next, -, hstep, hslot, -, hpast, hcases⟩ := scene.look_cases screen
  rw [hstep]
  rcases hcases with ⟨rfl, -, hanimator, -⟩ |
    ⟨hnew, _, -, ⟨rfl, hanimator, -⟩ | ⟨rfl, hanimator, -⟩⟩
  · refine ⟨?_, ?_, ?_⟩
    · rw [hanimator, hslot, hpast, seen_cons_iff (by simp) (by simp)]
      exact h.shown_iff
    · rw [hanimator, hslot]
      exact h.issued
    · rw [hanimator, hpast, List.count_cons_of_ne (by simp), List.count_cons_of_ne (by simp)]
      exact h.frames_eq
  · refine ⟨?_, ?_, ?_⟩
    · rw [hanimator, hslot, hpast]
      exact iff_of_true (beq_self_eq_true _) (seen_drawn scene.past)
    · rw [hanimator, hslot]
      intro s hs
      cases hs
      exact scene.slot.issued_current
    · have hframes : next.animator.frames = scene.animator.frames + 1 := by rw [hanimator]
      rw [hframes, hpast, List.count_cons_self, List.count_cons_of_ne (by simp), h.frames_eq]
      omega
  · have hunseen : ¬ Seen scene.past := by
      rw [← h.shown_iff, hnew]
      exact Bool.false_ne_true
    refine ⟨?_, ?_, ?_⟩
    · rw [hanimator, hslot, hpast, hnew, seen_cons_iff (by simp) (by simp)]
      exact iff_of_false Bool.false_ne_true hunseen
    · rw [hanimator, hslot]
      exact h.issued
    · have hframes : next.animator.frames = scene.animator.frames + 1 := by rw [hanimator]
      rw [hframes, hpast, List.count_cons_of_ne (by simp), List.count_cons_self, h.frames_eq]
      omega

theorem Aware.step (h : scene.Aware) (screen : Screen σ) : ∀ deed, (scene.step screen deed).Aware
  | .publish w => h.publish screen w
  | .hold => h.hold screen
  | .look => h.look screen

theorem Aware.after (h : scene.Aware) (screen : Screen σ) (deeds : List Deed) :
    (scene.after screen deeds).Aware := by
  induction deeds generalizing scene with
  | nil => exact h
  | cons deed deeds ih => exact ih (h.step screen deed)

theorem slot_step (screen : Screen σ) (scene : Scene σ) (deed : Deed) :
    (scene.step screen deed).slot = scene.slot.publishAll (Deed.published [deed]) := by
  cases deed with
  | publish w => rfl
  | hold => rfl
  | look =>
    obtain ⟨drawing, next, -, hstep, hslot, -⟩ := scene.look_cases screen
    rw [hstep]
    exact hslot

theorem slot_after (screen : Screen σ) (scene : Scene σ) (deeds : List Deed) :
    (scene.after screen deeds).slot = scene.slot.publishAll (Deed.published deeds) := by
  induction deeds generalizing scene with
  | nil => rfl
  | cons deed deeds ih =>
    have hpublished : Deed.published (deed :: deeds) =
        Deed.published [deed] ++ Deed.published deeds := List.filterMap_append (l := [deed])
    rw [hpublished, Slot.publishAll_append, ← slot_step screen]
    exact ih _

theorem held_step (screen : Screen σ) (scene : Scene σ) (deed : Deed) :
    scene.held <:+ (scene.step screen deed).held := by
  cases deed with
  | publish w => exact List.suffix_refl _
  | hold => exact List.suffix_cons _ _
  | look =>
    obtain ⟨drawing, next, -, hstep, -, hheld, -⟩ := scene.look_cases screen
    have hsame : (scene.step screen .look).held = scene.held := by rw [hstep, hheld]
    exact hsame ▸ List.suffix_refl _

/-- Handles stay as they are, and new ones come before them. -/
theorem held_after (screen : Screen σ) (scene : Scene σ) (deeds : List Deed) :
    scene.held <:+ (scene.after screen deeds).held := by
  induction deeds generalizing scene with
  | nil => exact List.suffix_refl _
  | cons deed deeds ih => exact (scene.held_step screen deed).trans (ih _)

/-- Only looking can make a snapshot one that has been seen. -/
theorem not_seen_after (screen : Screen σ) {scene : Scene σ} (h : ¬ Seen scene.past)
    {deeds : List Deed} (hdeeds : .look ∉ deeds) : ¬ Seen (scene.after screen deeds).past := by
  induction deeds generalizing scene with
  | nil => exact h
  | cons deed deeds ih =>
    obtain ⟨hdeed, hdeeds⟩ := List.ne_and_not_mem_of_not_mem_cons hdeeds
    have hstep : ¬ Seen (scene.step screen deed).past := by
      cases deed with
      | publish w => exact not_seen_published scene.past
      | hold =>
        change ¬ Seen (.held :: scene.past)
        rwa [seen_cons_iff (by simp) (by simp)]
      | look => exact absurd rfl hdeed
    exact ih hstep hdeeds

theorem Aware.look_idle_iff (h : scene.Aware) (screen : Screen σ) :
    (scene.look screen).1 = .idle ↔ Seen scene.past := by
  obtain ⟨drawing, next, hlook, -, -, -, -, hcases⟩ := scene.look_cases screen
  rw [hlook, ← h.shown_iff]
  rcases hcases with ⟨hidle, hshown, -⟩ | ⟨hnew, _, -, ⟨rfl, -⟩ | ⟨rfl, -⟩⟩
  · exact iff_of_true hidle hshown
  · rw [hnew]
    exact iff_of_false (by simp) Bool.false_ne_true
  · rw [hnew]
    exact iff_of_false (by simp) Bool.false_ne_true

end Scene

open Scene

/-- The animator draws what it has not drawn. After any deeds, with any screen, a look leaves the
screen alone just when a look before it has drawn and nothing was published since the last one that
did. Otherwise it asks the screen, up to the first request that is refused, to clear itself, to
write the number of the frame, which is one more than the number of looks before it that have drawn
or failed, and the picture of the world that was published last, and to show that. If the screen
refuses one of these, the next look asks again, whatever is published or not in between. A handle
that is taken keeps the world that was published last, and it is the current snapshot until
something is published. -/
theorem look_draws_unseen (screen : Screen σ) (first : World) (s : σ) (deeds : List Deed) :
    ∃ scene drawing next n w requests, (opening first s).after screen deeds = scene ∧
      scene.look screen = (drawing, next) ∧
      (drawing = .idle ↔ Seen scene.past) ∧
      (drawing = .idle → next.screen = scene.screen) ∧
      n = 1 + (scene.past.count (.looked .drawn) + scene.past.count (.looked .failed)) ∧
      w = (Deed.published deeds).getLastD first ∧
      requests = [.write "\x1b[2J\x1b[H", .write ("frame " ++ toString n ++ "\n"),
        .write (w.picture ++ "\n"), .flush] ∧
      (drawing = .drawn → next.record = scene.record ++ requests.map .served) ∧
      (drawing = .failed → ∃ done refused left, requests = done ++ refused :: left ∧
        next.record = scene.record ++ done.map .served ++ [.refused refused]) ∧
      (drawing = .failed → ∀ between : List Deed, .look ∉ between →
        ((next.after screen between).look screen).1 ≠ .idle) ∧
      ∀ later : List Deed, ∃ handle final, scene.after screen (.hold :: later) = final ∧
        handle :: scene.held <:+ final.held ∧ handle.world = w ∧
        (final.slot.shows handle = true ↔ Deed.published later = []) := by
  have haware := (aware_opening first s).after screen deeds
  have hslot := (opening first s).slot_after screen deeds
  generalize (opening first s).after screen deeds = scene at haware hslot
  have hworld : scene.slot.world = (Deed.published deeds).getLastD first := by
    rw [hslot, Slot.world_publishAll]
    rfl
  obtain ⟨drawing, next, hlook, hstep, -, -, hpast, hcases⟩ := scene.look_cases screen
  have hidle : drawing = .idle ↔ Seen scene.past := by
    rw [← haware.look_idle_iff screen, hlook]
  refine ⟨scene, drawing, next, _, _, _, rfl, hlook, hidle, fun h => ?_, rfl, rfl, rfl,
    fun h => ?_, fun h => ?_, fun h => ?_, ?_⟩
  · rcases hcases with ⟨-, -, -, hscreen⟩ | ⟨-, _, -, ⟨hd, -⟩ | ⟨hd, -⟩⟩
    · exact hscreen
    · cases hd.symm.trans h
    · cases hd.symm.trans h
  · rcases hcases with ⟨hd, -⟩ | ⟨-, _, rfl, ⟨-, -, hrecord⟩ | ⟨hd, -⟩⟩
    · cases hd.symm.trans h
    · rw [hrecord, haware.frames_eq, hworld, Nat.add_comm]
      rfl
    · cases hd.symm.trans h
  · rcases hcases with ⟨hd, -⟩ | ⟨-, _, rfl, ⟨hd, -⟩ | ⟨-, -, hfailed⟩⟩
    · cases hd.symm.trans h
    · cases hd.symm.trans h
    · rw [haware.frames_eq, hworld, Nat.add_comm] at hfailed
      exact hfailed
  · intro between hbetween
    have hunseen : ¬ Seen next.past := by
      rw [hpast, h, seen_cons_iff (by simp) (by simp), ← hidle, h]
      simp
    have hnext : next.Aware := hstep ▸ haware.look screen
    rw [Ne, (hnext.after screen between).look_idle_iff]
    exact not_seen_after screen hunseen hbetween
  · intro later
    have hheld := held_after screen (scene.step screen .hold) later
    refine ⟨scene.slot.current, _, rfl, hheld, hworld, ?_⟩
    have hfinal : (scene.after screen (.hold :: later)).slot =
        scene.slot.publishAll (Deed.published later) :=
      slot_after screen (scene.step screen .hold) later
    rw [hfinal]
    exact Slot.shows_publishAll_iff _ _

/-- A look that fails in the middle of a frame is made up for by the next one, and an equal world is
drawn again. -/
example : ((opening .empty [true, true, false]).after moody
    [.look, .look, .look, .publish .empty, .look]).past =
      [.looked .drawn, .published, .looked .idle, .looked .drawn, .looked .failed] := by rfl

end Animator
end Karel
