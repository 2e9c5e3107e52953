import LayerAnimation.Proofs.Double.Quotients
import LayerAnimation.Proofs.Sampling
import LayerAnimation.Proofs.Termination

/-!
# The frame loop ends

A simulation takes frame after frame until the script is over or a frame lies behind the time limit.
Nothing but the time of a frame bounds the loop, and that time is a count divided by the rate.

- `Script.Issues`, `Script.Frame` and `Script.Plays` are the loops of a simulation as they are meant,
  without fuel and with a count that has no limit.  A derivation of one of them is a run of the loop
  that ends.
- `Script.StopsAt` says that a frame is the last one at the latest; it needs no run of the loop to say
  so, and from one such frame on all frames are such (`Script.StopsAt.mono`).
- `Script.loop_ends` says that the loop always ends, in exactly one way, and when the frames that 64
  bits can count are enough for it.  Up to `Script.rateLimit` they are enough for every script.
- `Script.longFade_outOfFrames` is a script and a rate for which they are not enough.
-/

namespace LayerAnimation

open LawfulTime

variable {α : Type}

namespace Script

open PlainStage

variable [Scalar α]

/-! ## §1 The loops -/

/-- The steps whose time has come are issued one by one, each after the clock was moved to it. -/
inductive Issues (t : α) :
    PlainStage α × List (Step α) → PlainStage α × List (Step α) → Prop where
  | done {stage} : Issues t (stage, []) (stage, [])
  | wait {stage step steps} (early : ¬ step.time ≤ t) :
      Issues t (stage, step :: steps) (stage, step :: steps)
  | issue {stage step steps fs arrived state} (due : step.time ≤ t)
      (advance : Advances step.time stage fs arrived)
      (others : Issues t ((arrived.motion stageLayer step.intents step.options).1, steps) state) :
      Issues t (stage, step :: steps) state

/-- In a frame steps are issued, and then the clock is moved to the frame. -/
inductive Frame (t : α) :
    PlainStage α × List (Step α) → PlainStage α × List (Step α) → Prop where
  | intro {state issued steps fs arrived} (issues : Issues t state (issued, steps))
      (advance : Advances t issued fs arrived) : Frame t state (arrived, steps)

/-- No step is left and no job waits. -/
def Idle (state : PlainStage α × List (Step α)) : Prop :=
  state.2 = [] ∧ state.1.pending = 0

/-- Frames are taken one after the other, from a given one up to the last one, and lead to an
outcome. -/
inductive Plays (fps : α) : Nat → PlainStage α × List (Step α) → List (Sample α) → Nat →
    Except (Problem α) (Simulation α) → Prop where
  | late {n state taken} (late : timeLimit < frameTime fps n) :
      Plays fps n state taken n (.error .unfinished)
  | settled {n state state' taken} (inTime : ¬ timeLimit < frameTime fps n)
      (frame : Frame (frameTime fps n) state state') (idle : Idle state') :
      Plays fps n state taken n
        (.ok ⟨(⟨frameTime fps n, shown state'.1⟩ :: taken).reverse, held state'.1⟩)
  | next {n state state' taken last r} (inTime : ¬ timeLimit < frameTime fps n)
      (frame : Frame (frameTime fps n) state state') (busy : ¬ Idle state')
      (others : Plays fps (n + 1) state' (⟨frameTime fps n, shown state'.1⟩ :: taken) last r) :
      Plays fps n state taken last r

variable {s : Script α} {fps t start : α} {state state' : PlainStage α × List (Step α)}
  {taken : List (Sample α)} {n m last : Nat} {r : Except (Problem α) (Simulation α)}

/-! ## §2 Every loop has one outcome -/

theorem issues_iff {stage : PlainStage α} {steps : List (Step α)} :
    Issues t (stage, steps) state ↔ state = issueDue t steps stage := by
  -- The induction is on the steps that are left: the first one is issued with an advance to its
  -- time, or all of them wait.
  induction steps generalizing stage with
  | nil =>
    constructor
    · rintro ⟨⟩
      rfl
    · rintro rfl
      exact .done
  | cons step steps ih =>
    unfold issueDue
    by_cases due : step.time ≤ t
    · rw [if_pos due, ← ih, issue]
      constructor
      · intro h
        cases h with
        | wait early => exact absurd due early
        | issue due advance others =>
          rw [← advances_iff.mp advance]
          exact others
      · exact fun h => .issue due (advances_iff.mpr rfl) h
    · rw [if_neg due]
      constructor
      · intro h
        cases h with
        | wait early => rfl
        | issue due' advance others => exact absurd due' due
      · rintro rfl
        exact .wait due

theorem frame_iff : Frame t state state' ↔ state' = takeFrame t state := by
  obtain ⟨stage, steps⟩ := state
  constructor
  · rintro ⟨issues, advance⟩
    rw [takeFrame, ← issues_iff.mp issues, ← advances_iff.mp advance]
  · rintro rfl
    exact ⟨issues_iff.mpr rfl, advances_iff.mpr rfl⟩

theorem Plays.le_last (h : Plays fps n state taken last r) : n ≤ last := by
  induction h with
  | late => exact Nat.le_refl _
  | settled => exact Nat.le_refl _
  | next _ _ _ _ ih => omega

/-- A run that ends is given up behind the time limit, or it was sampled at every frame. -/
theorem Plays.outcome (h : Plays fps n state taken last r) :
    (r = .error .unfinished ∧ timeLimit < frameTime fps last) ∨
    ∃ sim, r = .ok sim ∧ ¬ timeLimit < frameTime fps last ∧
      sim.samples.length + n = taken.length + (last + 1) := by
  induction h with
  | late late => exact .inl ⟨rfl, late⟩
  | @settled n _ _ taken inTime _ _ =>
    refine .inr ⟨_, rfl, inTime, ?_⟩
    simp only [List.length_reverse, List.length_cons]
    omega
  | next _ _ _ _ ih =>
    rcases ih with ih | ⟨sim, hsim, inTime, hlength⟩
    · exact .inl ih
    · refine .inr ⟨sim, hsim, inTime, ?_⟩
      rw [List.length_cons] at hlength
      omega

/-- With some fuel the frames come to the outcome of the run if its last frame is among them. -/
theorem Plays.frames_eq (h : Plays fps n state taken last r) (fuel : Nat) :
    frames fps fuel n state.2 state.1 taken
      = if last < n + fuel then r else .error .outOfFrames := by
  -- The induction is on the frames that are played; without fuel the last frame is out of reach.
  induction h generalizing fuel with
  | late late =>
    cases fuel with
    | zero => rw [if_neg (by omega), frames]
    | succ fuel => rw [if_pos (by omega), frames, if_pos late]
  | settled inTime frame idle =>
    obtain rfl := frame_iff.mp frame
    cases fuel with
    | zero => rw [if_neg (by omega), frames]
    | succ fuel =>
      rw [if_pos (by omega), frames, if_neg inTime, if_pos]
      · rfl
      · simpa [Idle, takeFrame] using idle
  | next inTime frame busy others ih =>
    have hle := others.le_last
    obtain rfl := frame_iff.mp frame
    cases fuel with
    | zero => rw [if_neg (by omega), frames]
    | succ fuel =>
      rw [frames, if_neg inTime, if_neg]
      · rw [Nat.add_comm fuel, ← Nat.add_assoc, ← ih fuel]
        rfl
      · simpa [Idle, takeFrame] using busy

/-- The loop ends in one way only. -/
theorem Plays.unique (h : Plays fps n state taken last r) {last' : Nat}
    {r' : Except (Problem α) (Simulation α)} (h' : Plays fps n state taken last' r') :
    last' = last ∧ r' = r := by
  -- At each frame the three ways to go on exclude each other, and a frame leads to one state.
  induction h with
  | late late =>
    cases h' with
    | late => exact ⟨rfl, rfl⟩
    | settled inTime => exact absurd late inTime
    | next inTime => exact absurd late inTime
  | settled inTime frame idle =>
    obtain rfl := frame_iff.mp frame
    cases h' with
    | late late => exact absurd late inTime
    | settled _ frame' =>
      obtain rfl := frame_iff.mp frame'
      exact ⟨rfl, rfl⟩
    | next _ frame' busy =>
      obtain rfl := frame_iff.mp frame'
      exact absurd idle busy
  | next inTime frame busy _ ih =>
    obtain rfl := frame_iff.mp frame
    cases h' with
    | late late => exact absurd late inTime
    | settled _ frame' idle =>
      obtain rfl := frame_iff.mp frame'
      exact absurd idle busy
    | next _ frame' _ others' =>
      obtain rfl := frame_iff.mp frame'
      exact ih others'

/-- The loop ends if some frame lies behind the time limit. -/
theorem exists_plays (count : Nat) (late : timeLimit < frameTime fps (n + count)) :
    ∃ last r, Plays fps n state taken last r := by
  induction count generalizing n state taken with
  | zero => exact ⟨_, _, .late late⟩
  | succ count ih =>
    by_cases hlate : timeLimit < frameTime fps n
    · exact ⟨_, _, .late hlate⟩
    · have hframe : Frame (frameTime fps n) state (takeFrame (frameTime fps n) state) :=
        frame_iff.mpr rfl
      by_cases hidle : Idle (takeFrame (frameTime fps n) state)
      · exact ⟨_, _, .settled hlate hframe hidle⟩
      · rw [Nat.add_comm count, ← Nat.add_assoc] at late
        obtain ⟨last, r, hothers⟩ := ih late
        exact ⟨last, r, .next hlate hframe hidle hothers⟩

/-! ## §3 The last frame -/

/-- A frame lies behind the time limit, or the script by itself is over at it. -/
def StopsAt (s : Script α) (fps : α) (n : Nat) : Prop :=
  timeLimit < frameTime fps n ∨ s.OverAt (frameTime fps n)

section Last

variable [LawfulTime α]

theorem frameTime_mono (rising : ∀ n, frameTime fps n ≤ frameTime fps (n + 1)) (h : n ≤ m) :
    frameTime fps n ≤ frameTime fps m := by
  induction h with
  | refl => exact le_left (rising n)
  | step _ ih => exact le_trans ih (rising _)

/-- A frame that stops the loop is followed only by such frames. -/
theorem StopsAt.mono (rising : ∀ n, frameTime fps n ≤ frameTime fps (n + 1))
    (stops : s.StopsAt fps n) (h : n ≤ m) : s.StopsAt fps m := by
  have hle := frameTime_mono rising h
  exact stops.imp (fun late => lt_of_lt_of_le late hle) fun h => h.mono hle

/-- A frame leaves nothing to do exactly if the script is over at it. -/
theorem InStep.idle_iff {issued : List (Step α)}
    (inStep : InStep s start issued state.2 state.1) (ordered : s.Ordered) (le : start ≤ t) :
    Idle (takeFrame t state) ↔ s.OverAt t := by
  rw [← inStep.over_iff ordered le]
  simp [Idle, takeFrame]

/-- The loop ends at the first frame that stops it. -/
theorem Plays.stopsAt_iff (h : Plays fps n state taken last r) (ordered : s.Ordered)
    (rising : ∀ n, frameTime fps n ≤ frameTime fps (n + 1)) {issued : List (Step α)}
    (inStep : InStep s start issued state.2 state.1) (le : start ≤ frameTime fps n) (hm : n ≤ m) :
    s.StopsAt fps m ↔ last ≤ m := by
  induction h generalizing start issued with
  | late late => exact iff_of_true (StopsAt.mono rising (.inl late) hm) hm
  | settled inTime frame idle =>
    obtain rfl := frame_iff.mp frame
    have hover := (inStep.idle_iff ordered le).mp idle
    exact iff_of_true (StopsAt.mono rising (.inr hover) hm) hm
  | @next n _ _ _ _ _ inTime frame busy others ih =>
    have hlast := others.le_last
    obtain rfl := frame_iff.mp frame
    have hwaits := mt (inStep.idle_iff ordered le).mpr busy
    rcases Nat.eq_or_lt_of_le hm with rfl | hm
    · exact iff_of_false (not_or.mpr ⟨inTime, hwaits⟩) (by omega)
    · exact ih (inStep.frame ordered le) (rising n) hm

end Last

/-! ## §4 Rates -/

/-- The highest rate at which the frames that 64 bits can count come past the time limit. -/
def rateLimit : Float :=
  Float.ofNat 5124095576030430

theorem isFinite_of_usable {fps : Float} (usable : Options.usableDuration fps = true) :
    fps.isFinite = true ∧ ¬ fps ≤ 0.0 := by
  simp only [Options.usableDuration, Bool.and_eq_true, Bool.not_eq_true',
    decide_eq_false_iff_not] at usable
  exact usable

/-- At a rate up to the limit, and at no higher one, the last frame that can be counted lies behind
the time limit. -/
theorem le_rateLimit_iff {fps : Float} (usable : Options.usableDuration fps = true) :
    fps ≤ rateLimit ↔ timeLimit < frameTime fps (frameLimit - 1) := by
  obtain ⟨hfinite, hpos⟩ := isFinite_of_usable usable
  have hcount : (0.0 : Float) ≤ Float.ofNat (frameLimit - 1) :=
    (Double.ofNat_le_ofNat (Nat.le_refl _)).1
  have hlimit : (timeLimit : Float) < frameTime rateLimit (frameLimit - 1) := by decide +kernel
  constructor
  · intro hle
    exact lt_of_lt_of_le hlimit (Double.div_le_div_of_le hcount hfinite hpos rfl hle)
  · intro hlate
    by_contra hnot
    -- The next double behind the limit leads to the time limit and not past it.
    have hnext : frameTime (Float.ofNat (5124095576030430 + 1)) (frameLimit - 1)
        ≤ (timeLimit : Float) := by decide +kernel
    have hlt : rateLimit < fps := lt_iff.mpr
      ⟨le_of_not_le (le_self_of_isFinite hfinite) (le_self_of_isFinite rfl) hnot, hnot⟩
    have hsucc := Double.ofNat_succ_le (by norm_num) (by norm_num) hlt
    have hquotient := Double.div_le_div_of_le hcount rfl (by decide +kernel) hfinite hsucc
    exact (lt_iff.mp hlate).2 (le_trans hquotient hnext)

/-- At a usable rate the loop of a script that passes its check ends, at the first frame that stops
it. -/
theorem exists_last {s : Script Float} {fps : Float} (valid : s.check = .ok ())
    (usable : Options.usableDuration fps = true) :
    ∃ last r, Plays fps 0 (s.opening, s.steps) [] last r ∧ ∀ n, s.StopsAt fps n ↔ last ≤ n := by
  have hordered := ordered_of_check valid
  obtain ⟨hzero, hrising⟩ := frameTime_rising usable
  obtain ⟨hfinite, hpos⟩ := isFinite_of_usable usable
  obtain ⟨n, hlate⟩ := Double.exists_lt_ofNat_div (x := timeLimit) rfl hfinite hpos
  obtain ⟨last, r, hplays⟩ : ∃ last r, Plays fps 0 (s.opening, s.steps) [] last r :=
    exists_plays n (by rwa [Nat.zero_add])
  exact ⟨last, r, hplays, fun n =>
    hplays.stopsAt_iff hordered hrising (inStep_opening hordered) hzero (Nat.zero_le n)⟩

/-- At every usable rate the loop of a script that passes its check ends, in exactly one way.  Its last
frame is the first one that lies behind the time limit, where it is given up as unfinished, or at which
the script by itself is over, and then it was sampled at every frame.  The simulation comes to this end
if its last frame is one that 64 bits can count; else its frames are used up before.  They are enough
exactly if the rate is not above the limit or the script by itself is over at the last of them. -/
theorem loop_ends {s : Script Float} {fps : Float} (valid : s.check = .ok ())
    (usable : Options.usableDuration fps = true) :
    ∃ last r,
      (∀ last' r', Plays fps 0 (s.opening, s.steps) [] last' r' ↔ last' = last ∧ r' = r) ∧
      (∀ n, s.StopsAt fps n ↔ last ≤ n) ∧
      ((r = .error .unfinished ∧ timeLimit < frameTime fps last) ∨
        ∃ sim, r = .ok sim ∧ ¬ timeLimit < frameTime fps last ∧
          sim.samples.length = last + 1) ∧
      s.simulate fps = (if last < frameLimit then r else .error .outOfFrames) ∧
      (last < frameLimit ↔ fps ≤ rateLimit ∨ s.OverAt (frameTime fps (frameLimit - 1))) := by
  obtain ⟨last, r, hplays, hstops⟩ := exists_last valid usable
  refine ⟨last, r, fun last' r' => ⟨hplays.unique, ?_⟩, hstops, ?_, ?_, ?_⟩
  · rintro ⟨rfl, rfl⟩
    exact hplays
  · simpa using hplays.outcome
  · rw [simulate_of_check valid usable, hplays.frames_eq frameLimit, Nat.zero_add]
  · have hpos : 0 < frameLimit := Nat.two_pow_pos 64
    rw [le_rateLimit_iff usable, ← StopsAt, hstops]
    omega

/-- The brief fade comes to its end even at a rate above the limit, since it is over before its frames
are used up. -/
theorem loop_ends_briefFade :
    briefFade.check = .ok () ∧ Options.usableDuration (1e20 : Float) = true ∧
      ¬ (1e20 : Float) ≤ rateLimit ∧
      ∃ last r, Plays (1e20 : Float) 0 (briefFade.opening, briefFade.steps) [] last r ∧
        last < frameLimit ∧ briefFade.simulate 1e20 = r := by
  have hvalid : briefFade.check = .ok () := rfl
  have husable : Options.usableDuration (1e20 : Float) = true := by decide +kernel
  have hover : briefFade.OverAt (frameTime (1e20 : Float) (frameLimit - 1)) := by decide +kernel
  obtain ⟨last, r, hplays, -, -, hsimulate, hcount⟩ := loop_ends hvalid husable
  have hlast : last < frameLimit := hcount.mpr (.inr hover)
  rw [if_pos hlast] at hsimulate
  exact ⟨hvalid, husable, by decide +kernel, last, r, (hplays last r).mpr ⟨rfl, rfl⟩, hlast,
    hsimulate⟩

/-- A fade that takes longer than the time limit. -/
def longFade : Script Float :=
  ⟨.empty, [⟨0.0, { Options.standard with duration := 4000.0 }, [.fade 0.0]⟩]⟩

/-- At this rate the long fade is not given up as unfinished when it should be: the frames that 64
bits can count do not even come past its beginning. -/
theorem longFade_outOfFrames :
    longFade.check = .ok () ∧ Options.usableDuration (1e300 : Float) = true ∧
      longFade.simulate 1e300 = .error .outOfFrames ∧
      ∀ last r, Plays (1e300 : Float) 0 (longFade.opening, longFade.steps) [] last r →
        frameLimit ≤ last := by
  have hvalid : longFade.check = .ok () := rfl
  have husable : Options.usableDuration (1e300 : Float) = true := by decide +kernel
  have hinTime : ¬ (timeLimit : Float) < frameTime 1e300 (frameLimit - 1) := by decide +kernel
  have hwaits : ¬ longFade.OverAt (frameTime (1e300 : Float) (frameLimit - 1)) := by decide +kernel
  obtain ⟨last, r, hplays, hstops⟩ := exists_last hvalid husable
  have hlast : ¬ last ≤ frameLimit - 1 := mt (hstops _).mpr (not_or.mpr ⟨hinTime, hwaits⟩)
  refine ⟨hvalid, husable, ?_, fun last' r' hplays' => ?_⟩
  · rw [simulate_of_check hvalid husable, hplays.frames_eq frameLimit, if_neg (by omega)]
  · obtain ⟨rfl, -⟩ := hplays.unique hplays'
    omega

end Script

end LayerAnimation
