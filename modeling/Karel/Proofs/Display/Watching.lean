import Karel.Display.Animator

/-! # Watching a run to its end

Worlds are published while the animator asks, looks and draws. A round says what is published before
it asks and what between asking and looking; what is published after it has looked belongs to the
next round, so that every order of publications and of the animator's own steps is a list of rounds.
The animator asks first and looks then. If the answer is that the run is over, what it finds in the
slot is the last snapshot.

A frame is four requests to the screen, which may refuse any of them and keeps a record of all.
-/
namespace Karel

variable {σ : Type}

/-! ## The record of a screen -/

/-- What became of a request to a screen. -/
inductive Screen.Attempt where
  | served (request : Request)
  | refused (request : Request)
  deriving DecidableEq

/-- A screen with a record of what it was asked for, in order. -/
def Screen.recorded (screen : Screen σ) : Screen (σ × List Attempt) where
  serve s request :=
    match screen.serve s.1 request with
    | .ok t => .ok (t, s.2 ++ [.served request])
    | .error t => .error (t, s.2 ++ [.refused request])

/-- Requests are served one after the other up to the first that is refused. -/
theorem Screen.serveAll_recorded (screen : Screen σ) (s : σ × List Attempt)
    (requests : List Request) :
    (∃ t, screen.recorded.serveAll s requests = .ok t ∧ t.2 = s.2 ++ requests.map .served) ∨
    ∃ t done refused left, screen.recorded.serveAll s requests = .error t ∧
      requests = done ++ refused :: left ∧ t.2 = s.2 ++ done.map .served ++ [.refused refused] := by
  induction requests generalizing s with
  | nil => exact .inl ⟨s, rfl, by simp⟩
  | cons q qs ih =>
    have hserve : screen.recorded.serveAll s (q :: qs) =
        screen.recorded.serve s q >>= fun t => screen.recorded.serveAll t qs := List.foldlM_cons
    rw [hserve]
    cases h : screen.serve s.1 q with
    | error t =>
      have hq : screen.recorded.serve s q = .error (t, s.2 ++ [.refused q]) := by
        simp only [recorded, h]
      rw [hq]
      exact .inr ⟨_, [], q, qs, rfl, rfl, by simp⟩
    | ok t =>
      have hq : screen.recorded.serve s q = .ok (t, s.2 ++ [.served q]) := by
        simp only [recorded, h]
      rw [hq]
      rcases ih (t, s.2 ++ [.served q]) with ⟨u, hu, hrecord⟩ |
        ⟨u, done, refused, left, hu, rfl, hrecord⟩
      · exact .inl ⟨u, hu, by simp [hrecord]⟩
      · exact .inr ⟨u, q :: done, refused, left, hu, rfl, by simp [hrecord]⟩

/-! ## Snapshots of a slot -/

namespace Slot
variable {slot : Slot} {s : Snapshot}

theorem publishAll_append (slot : Slot) (ws vs : List World) :
    slot.publishAll (ws ++ vs) = (slot.publishAll ws).publishAll vs :=
  List.foldl_append

theorem number_publishAll (slot : Slot) (ws : List World) :
    (slot.publishAll ws).current.number = slot.current.number + ws.length := by
  induction ws generalizing slot with
  | nil => rfl
  | cons w ws ih =>
    have hnumber : (slot.publish w).current.number = slot.current.number + 1 := rfl
    have hws := ih (slot.publish w)
    rw [List.length_cons]
    change ((slot.publish w).publishAll ws).current.number = _
    omega

/-- A snapshot that was taken from a slot is not newer than the current one. -/
def Issued (slot : Slot) (s : Snapshot) : Prop := s.number ≤ slot.current.number

theorem issued_current (slot : Slot) : slot.Issued slot.current := Nat.le_refl _

theorem Issued.publishAll (h : slot.Issued s) (ws : List World) :
    (slot.publishAll ws).Issued s := by
  rw [Issued, number_publishAll]
  exact Nat.le_add_right_of_le h

/-- The snapshot that a slot shows is no longer shown when something is published. -/
theorem Issued.shows_publishAll_iff (h : slot.Issued s) (ws : List World) :
    (slot.publishAll ws).shows s = true ↔ slot.shows s = true ∧ ws = [] := by
  have hle : s.number ≤ slot.current.number := h
  rw [shows, shows, number_publishAll, beq_iff_eq, beq_iff_eq, ← List.length_eq_zero_iff]
  omega

theorem eq_nil_of_any_shows {shown : Option Snapshot} {ws : List World}
    (h : ∀ s, shown = some s → slot.Issued s)
    (hshown : shown.any (slot.publishAll ws).shows = true) : ws = [] := by
  cases hs : shown with
  | none =>
    rw [hs] at hshown
    cases hshown
  | some s =>
    rw [hs, Option.any_some] at hshown
    exact (((h s hs).shows_publishAll_iff ws).1 hshown).2

end Slot

namespace Animator

def Round.published (r : Round) : List World := r.before ++ r.between

/-- The animator is told at some time that the run is over, and nothing is published after the round
in which it is told. -/
structure Closing (rounds : List Round) : Prop where
  told : ∃ r ∈ rounds, r.runEnded = true
  last : ∀ earlier r later, rounds = earlier ++ r :: later → r.runEnded = true →
    ∀ r' ∈ later, r'.published = []

/-! ## One round -/

namespace Watch

def record (w : Watch (σ × List Screen.Attempt)) : List Screen.Attempt := w.screen.2

/-- What the animator takes for drawn, if it is still in the slot, is what the screen served last.
-/
structure Honest (w : Watch (σ × List Screen.Attempt)) : Prop where
  issued : ∀ s, w.animator.shown = some s → w.slot.Issued s
  drew : w.animator.shown.any w.slot.shows = true →
    (frame w.animator.frames w.slot.world).map .served <:+ w.record

/-- What is in the slot is what was drawn last. -/
def Current (w : Watch (σ × List Screen.Attempt)) : Prop :=
  w.animator.shown.any w.slot.shows = true

/-- Since then the screen served all that it was asked for. -/
def DrewAll (w w' : Watch (σ × List Screen.Attempt)) : Prop :=
  ∃ requests : List Screen.Request, w'.record = w.record ++ requests.map .served

/-- Since then the screen served all that it was asked for but the very last request. -/
def FailedAtLast (w w' : Watch (σ × List Screen.Attempt)) : Prop :=
  ∃ (requests : List Screen.Request) (last : Screen.Request),
    w'.record = w.record ++ requests.map .served ++ [.refused last]

end Watch

/-- What looking at the slot comes to. -/
theorem refresh_cases (screen : Screen σ) (a : Animator) (slot : Slot)
    (s : σ × List Screen.Attempt) :
    a.shown.any slot.shows = true ∧ a.refresh screen.recorded slot s = (.idle, a, s) ∨
    a.shown.any slot.shows = false ∧
      ((∃ t, a.refresh screen.recorded slot s =
            (.drawn, ⟨some slot.current, a.frames + 1⟩, t) ∧
          t.2 = s.2 ++ (frame (a.frames + 1) slot.world).map .served) ∨
        ∃ t done refused left, a.refresh screen.recorded slot s =
            (.failed, { a with frames := a.frames + 1 }, t) ∧
          frame (a.frames + 1) slot.world = done ++ refused :: left ∧
          t.2 = s.2 ++ done.map .served ++ [.refused refused]) := by
  unfold refresh
  cases hshown : a.shown.any slot.shows with
  | true => exact .inl ⟨rfl, if_pos rfl⟩
  | false =>
    rw [if_neg Bool.false_ne_true]
    rcases screen.serveAll_recorded s (frame (a.frames + 1) slot.world) with
      ⟨t, hserve, hrecord⟩ | ⟨t, done, refused, left, hserve, hframe, hrecord⟩
    · exact .inr ⟨rfl, .inl ⟨t, by simp only [hserve], hrecord⟩⟩
    · exact .inr ⟨rfl, .inr ⟨t, done, refused, left, by simp only [hserve], hframe, hrecord⟩⟩

/-- A round leaves what is in the slot drawn, or drawing fails in it. -/
theorem round_cases (screen : Screen σ) {w : Watch (σ × List Screen.Attempt)} (hw : w.Honest)
    (r : Round) :
    ∃ w', round screen.recorded w r = w' ∧ w'.slot = w.slot.publishAll r.published ∧ w'.Honest ∧
      (w'.ended = (if r.runEnded then some false else none) ∧ w'.Current ∧ w.DrewAll w' ∨
        w'.ended = some true ∧ w.FailedAtLast w') := by
  obtain ⟨slot, hslot⟩ : ∃ slot, (w.slot.publishAll r.before).publishAll r.between = slot :=
    ⟨_, rfl⟩
  have hpublished : slot = w.slot.publishAll r.published := by
    rw [← hslot, Round.published, Slot.publishAll_append]
  have hissued (s : Snapshot) (hs : w.animator.shown = some s) : slot.Issued s :=
    hpublished ▸ (hw.issued s hs).publishAll _
  simp only [round, hslot]
  refine ⟨_, rfl, ?_⟩
  rcases w.animator.refresh_cases screen slot w.screen with ⟨hshown, hrefresh⟩ |
    ⟨hnew, ⟨t, hrefresh, hrecord⟩ | ⟨t, done, refused, left, hrefresh, -, hrecord⟩⟩
  · -- nothing is drawn, and nothing can have been published since the last look that drew
    have hnone : r.published = [] := Slot.eq_nil_of_any_shows hw.issued (hpublished ▸ hshown)
    have hsame : slot = w.slot := by
      rw [hpublished, hnone]
      rfl
    rw [hrefresh, hsame]
    exact ⟨hsame ▸ hpublished, ⟨hsame ▸ hissued, hw.drew⟩, .inl ⟨rfl, hsame ▸ hshown, [],
      (List.append_nil _).symm⟩⟩
  · rw [hrefresh]
    have hdrew : (frame (w.animator.frames + 1) slot.world).map .served <:+ t.2 :=
      ⟨_, hrecord.symm⟩
    refine ⟨hpublished, ⟨?_, fun _ => hdrew⟩, .inl ⟨rfl, beq_self_eq_true _, _, hrecord⟩⟩
    intro s hs
    cases hs
    exact slot.issued_current
  · rw [hrefresh]
    refine ⟨hpublished, ⟨hissued, fun hshown => ?_⟩, .inr ⟨rfl, done, refused, hrecord⟩⟩
    rw [hnew] at hshown
    cases hshown

/-! ## All rounds -/

theorem Closing.tail {r : Round} {rounds : List Round} (h : Closing (r :: rounds))
    (hr : r.runEnded = false) : Closing rounds := by
  obtain ⟨⟨r', hmem, htold⟩, hlast⟩ := h
  refine ⟨⟨r', ?_, htold⟩, ?_⟩
  · rcases List.mem_cons.1 hmem with rfl | hmem
    · rw [hr] at htold
      cases htold
    · exact hmem
  · intro earlier r' later heq
    exact hlast (r :: earlier) r' later (by rw [heq, List.cons_append])

theorem Closing.published_nil {r : Round} {rounds : List Round} (h : Closing (r :: rounds))
    (hr : r.runEnded = true) : rounds.flatMap Round.published = [] := by
  exact List.flatMap_eq_nil_iff.2 (h.last [] r rounds rfl hr)

theorem Watch.DrewAll.trans {w w' w'' : Watch (σ × List Screen.Attempt)} (h : w.DrewAll w')
    (h' : w'.DrewAll w'') : w.DrewAll w'' := by
  obtain ⟨requests, hrecord⟩ := h
  obtain ⟨requests', hrecord'⟩ := h'
  refine ⟨requests ++ requests', ?_⟩
  rw [hrecord', hrecord, List.map_append, List.append_assoc]

theorem Watch.DrewAll.trans_failedAtLast {w w' w'' : Watch (σ × List Screen.Attempt)}
    (h : w.DrewAll w') (h' : w'.FailedAtLast w'') : w.FailedAtLast w'' := by
  obtain ⟨requests, hrecord⟩ := h
  obtain ⟨requests', last, hrecord'⟩ := h'
  refine ⟨requests ++ requests', last, ?_⟩
  rw [hrecord', hrecord, List.map_append, List.append_assoc w.record]

/-- How watching ends, with what is drawn and what is in the slot then. -/
theorem watch_cases (screen : Screen σ) {w : Watch (σ × List Screen.Attempt)} (hw : w.Honest)
    {rounds : List Round} (h : Closing rounds) :
    ∃ w', watch screen.recorded w rounds = w' ∧ w'.Honest ∧
      (w'.ended = some false ∧ w'.slot = w.slot.publishAll (rounds.flatMap Round.published) ∧
          w'.Current ∧ w.DrewAll w' ∨
        w'.ended = some true ∧ w.FailedAtLast w') := by
  induction rounds generalizing w with
  | nil =>
    obtain ⟨r, hr, -⟩ := h.told
    exact absurd hr List.not_mem_nil
  | cons r rounds ih =>
    obtain ⟨w₁, hround, hslot, hhonest, hcases⟩ := round_cases screen hw r
    simp only [watch, hround]
    rcases hcases with ⟨hended, hcurrent, hdrew⟩ | ⟨hended, hfailed⟩
    · cases hr : r.runEnded with
      | true =>
        rw [hr, if_pos rfl] at hended
        rw [hended, Option.isSome_some, if_pos rfl]
        refine ⟨w₁, rfl, hhonest, .inl ⟨hended, ?_, hcurrent, hdrew⟩⟩
        rw [List.flatMap_cons, h.published_nil hr, List.append_nil, hslot]
      | false =>
        rw [hr, if_neg Bool.false_ne_true] at hended
        rw [hended, Option.isSome_none, if_neg Bool.false_ne_true]
        obtain ⟨w₂, hwatch, hhonest₂, hcases₂⟩ := ih hhonest (h.tail hr)
        refine ⟨w₂, hwatch, hhonest₂, ?_⟩
        rcases hcases₂ with ⟨hended₂, hslot₂, hcurrent₂, hdrew₂⟩ | ⟨hended₂, hfailed₂⟩
        · refine .inl ⟨hended₂, ?_, hcurrent₂, hdrew.trans hdrew₂⟩
          rw [hslot₂, hslot, List.flatMap_cons, Slot.publishAll_append]
        · exact .inr ⟨hended₂, hdrew.trans_failedAtLast hfailed₂⟩
    · rw [hended, Option.isSome_some, if_pos rfl]
      exact ⟨w₁, rfl, hhonest, .inr ⟨hended, hfailed⟩⟩

/-- An animator about to watch. It may have looked at the slot before, with or without success. -/
def poised (screen : Screen σ) (slot : Slot) (s : σ) (looks : List Round) :
    Watch (σ × List Screen.Attempt) :=
  { looks.foldl (round screen.recorded) ⟨slot, {}, (s, []), 0, none⟩ with
    asked := 0, ended := none }

theorem honest_foldl (screen : Screen σ) {w : Watch (σ × List Screen.Attempt)} (hw : w.Honest)
    (looks : List Round) : (looks.foldl (round screen.recorded) w).Honest := by
  induction looks generalizing w with
  | nil => exact hw
  | cons r looks ih =>
    obtain ⟨w', hround, -, hhonest, -⟩ := round_cases screen hw r
    rw [List.foldl_cons, hround]
    exact ih hhonest

theorem honest_poised (screen : Screen σ) (slot : Slot) (s : σ) (looks : List Round) :
    (poised screen slot s looks).Honest := by
  have hfirst : Watch.Honest ⟨slot, {}, (s, []), 0, none⟩ := by
    constructor <;> nofun
  have hlooks := honest_foldl screen hfirst looks
  exact ⟨hlooks.issued, hlooks.drew⟩

/-- Watching ends on the last world and hides no failure. However worlds are published while the
animator watches and whatever the screen refuses, watching comes to an end. Either it ends well:
then the screen has served all that it was asked for, at last a frame with the picture of the last
snapshot published, and the control is left alone. Or it ends in a failure: then the last request
was refused, nothing was asked for after it, and the run is cancelled. -/
theorem watchRun_shows_last_or_cancels (screen : Screen σ) (slot : Slot) (s : σ)
    (looks : List Round) (control : Control) {rounds : List Round} (h : Closing rounds) :
    ∃ start w control', start = poised screen slot s looks ∧
      watchRun screen.recorded start control rounds = (w, control') ∧
      (w.ended = some false ∧ control' = control ∧ start.DrewAll w ∧
          (∃ final n earlier, final = start.slot.publishAll (rounds.flatMap Round.published) ∧
            n = w.animator.frames ∧
            w.record = earlier ++ [.served (.write "\x1b[2J\x1b[H"),
              .served (.write ("frame " ++ toString n ++ "\n")),
              .served (.write (final.world.picture ++ "\n")), .served .flush]) ∨
        w.ended = some true ∧ control' = { control with cancelled := true } ∧
          start.FailedAtLast w) := by
  obtain ⟨w, hwatch, hhonest, hcases⟩ := watch_cases screen (honest_poised screen slot s looks) h
  refine ⟨_, w, _, rfl, by rw [watchRun, hwatch], ?_⟩
  rcases hcases with ⟨hended, hslot, hcurrent, hdrew⟩ | ⟨hended, hfailed⟩
  · obtain ⟨earlier, hrecord⟩ := hhonest.drew hcurrent
    refine .inl ⟨hended, ?_, hdrew, _, _, earlier, rfl, rfl, ?_⟩
    · rw [hended, if_neg (by decide)]
    · rw [← hslot, ← hrecord]
      rfl
  · refine .inr ⟨hended, ?_, hfailed⟩
    rw [hended, if_pos rfl]
    rfl

/-- A screen that refuses when its list of moods says so. -/
def moody : Screen (List Bool) where
  serve
    | [], _ => .ok []
    | true :: moods, _ => .ok moods
    | false :: moods, _ => .error moods

/-- Rounds in which a world is published after each question, even after the last one. -/
def lateRounds : List Round :=
  [{ runEnded := false, between := [World.empty.turnLeft] },
    { before := [World.empty.turnRight], runEnded := true, between := [World.empty.turnAround] }]

theorem closing_lateRounds : Closing lateRounds := by
  refine ⟨⟨_, List.mem_cons_of_mem _ List.mem_cons_self, rfl⟩, ?_⟩
  intro earlier r later heq hr
  rcases earlier with _ | ⟨r₁, _ | ⟨r₂, earlier⟩⟩
  · cases heq
    cases hr
  · cases heq
    exact fun r' hr' => absurd hr' List.not_mem_nil
  · simp [lateRounds] at heq

/-- A look at the slot has failed before, in the middle of its frame. A screen in a good mood then
draws to the end, and one that refuses the picture in its third frame has the run cancelled. -/
theorem lateRounds_shows_last_or_cancels :
    Closing lateRounds ∧
    (∃ w earlier, watchRun moody.recorded
        (poised moody (.new .empty) [true, true, false] [{ runEnded := false }]) {} lateRounds =
          (w, {}) ∧
      w.record = earlier ++ [.served (.write "\x1b[2J\x1b[H"), .served (.write "frame 3\n"),
        .served (.write (World.empty.turnAround.picture ++ "\n")), .served .flush]) ∧
    ∃ w earlier, watchRun moody.recorded
        (poised moody (.new .empty) [true, true, false, true, true, true, true, true, true, false]
          [{ runEnded := false }]) {} lateRounds = (w, { cancelled := true }) ∧
      w.record = earlier ++ [.refused (.write (World.empty.turnAround.picture ++ "\n"))] := by
  refine ⟨closing_lateRounds, ?_, ?_⟩
  · obtain ⟨_, w, control', rfl, hrun, hcases⟩ := watchRun_shows_last_or_cancels moody
      (.new .empty) [true, true, false] [{ runEnded := false }] {} closing_lateRounds
    have hended : some false = w.ended := congrArg (fun p => p.1.ended) hrun
    have hframes : 3 = w.animator.frames := congrArg (fun p => p.1.animator.frames) hrun
    rcases hcases with ⟨-, rfl, -, _, _, earlier, rfl, rfl, hrecord⟩ | ⟨hfailed, -, -⟩
    · rw [← hframes] at hrecord
      exact ⟨w, earlier, hrun, hrecord⟩
    · rw [hfailed] at hended
      cases hended
  · obtain ⟨_, w, control', rfl, hrun, hcases⟩ := watchRun_shows_last_or_cancels moody
      (.new .empty) [true, true, false, true, true, true, true, true, true, false]
      [{ runEnded := false }] {} closing_lateRounds
    have hended : some true = w.ended := congrArg (fun p => p.1.ended) hrun
    have hlast : some (.refused (.write (World.empty.turnAround.picture ++ "\n"))) =
        w.record.getLast? := congrArg (fun p => p.1.record.getLast?) hrun
    rcases hcases with ⟨hwell, -, -⟩ | ⟨-, rfl, requests, last, hrecord⟩
    · rw [hwell] at hended
      cases hended
    · rw [hrecord, List.getLast?_concat] at hlast
      cases hlast
      exact ⟨w, _, hrun, hrecord⟩

end Animator
end Karel
