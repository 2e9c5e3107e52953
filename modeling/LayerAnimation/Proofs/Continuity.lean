import LayerAnimation.Proofs.CommitOrder
import LayerAnimation.Proofs.Exact
import LayerAnimation.Proofs.Finiteness

/-!
# No flicker at completion

When the clock ends a motion, the goals of its tracks become values of the layer.  What the layer
shows does not change thereby: each of these tracks has run its course and shows its goal already.

- `Value.lerp_one` and `Easing.apply_one` are the ends of the way and of the curve.
- `Playback.value?_of_isOver` says what a track of a motion shows once it is over.
- `PlainStage.presented?_startTimer` is the statement for all runs, with exact numbers.  An
  interrupted motion is another matter, since it may be cut short
  (`PlainStage.presented?_jumps_interrupted`).
-/

namespace LayerAnimation

open LawfulTime

variable {K : Type} [Field K] [LinearOrder K] [IsStrictOrderedRing K]

/-! ## §1 The end of the way -/

theorem Scalar.lerp_one {a b : Exact K} (ha : Scalar.isFinite a = true)
    (hb : Scalar.isFinite b = true) : Scalar.lerp a b 1.0 = b := by
  obtain ⟨x, rfl⟩ := Exact.isFinite_iff.mp ha
  obtain ⟨y, rfl⟩ := Exact.isFinite_iff.mp hb
  simp [Scalar.lerp]

/-- The way from one value to another ends at the other, of whatever kinds they are. -/
theorem Value.lerp_one {a b : Value (Exact K)} (ha : a.Finite) (hb : b.Finite) :
    a.lerp b 1.0 = b := by
  have hend : (1.0 : Exact K) ≤ 1.0 := by simp
  -- Values of two kinds, and outlines, step to the other value at the end by definition; the other
  -- kinds go there number by number.
  cases a <;> cases b <;> simp only [Value.lerp, if_pos hend]
  case scalar.scalar x y =>
    simp only [Finite, numbers, List.forall_mem_singleton] at ha hb
    rw [Scalar.lerp_one ha hb]
  case point.point p q =>
    obtain ⟨hpx, hpy⟩ := Point.forall_mem_numbers.mp ha
    obtain ⟨hqx, hqy⟩ := Point.forall_mem_numbers.mp hb
    rw [Point.lerp, Scalar.lerp_one hpx hqx, Scalar.lerp_one hpy hqy]
  case color.color c d =>
    obtain ⟨hcr, hcg, hcb, hca⟩ := Color.forall_mem_numbers.mp ha
    obtain ⟨hdr, hdg, hdb, hda⟩ := Color.forall_mem_numbers.mp hb
    rw [Color.lerp, Scalar.lerp_one hcr hdr, Scalar.lerp_one hcg hdg, Scalar.lerp_one hcb hdb,
      Scalar.lerp_one hca hda]
  case transform.transform m n =>
    have hentries : (m.lerp n 1.0).entries = n.entries := by
      apply Vector.ext
      intro i hi
      rw [Transform.lerp, Vector.getElem_zipWith]
      exact Scalar.lerp_one (ha _ (by simp [numbers, Transform.numbers]))
        (hb _ (by simp [numbers, Transform.numbers]))
    exact congrArg (fun entries => Value.transform ⟨entries⟩) hentries

theorem Scalar.clamp_of_one_le {x : K} (h : 1 ≤ x) :
    Scalar.clamp (0.0 : Exact K) 1.0 (.number x) = 1.0 := by
  have hlow : ¬ Exact.number x < 0.0 := by
    rw [Exact.zero_eq, Exact.number_lt_number]
    linarith
  rw [Scalar.clamp, if_neg hlow]
  split
  · rfl
  · next hhigh =>
    rw [Exact.one_eq, Exact.number_lt_number, not_lt] at hhigh
    rw [Exact.one_eq, le_antisymm hhigh h]

theorem Easing.apply_one (e : Easing (Exact K)) : e.apply 1.0 = 1.0 := by
  have hclamp : Scalar.clamp (0.0 : Exact K) 1.0 1.0 = 1.0 := by
    simpa using Scalar.clamp_of_one_le (le_refl (1 : K))
  have hend : ((1.0 : Exact K) == 1.0) = true := by simp
  simp only [apply, hclamp, hend, Bool.or_true, ↓reduceIte]

/-! ## §2 Tracks that are over -/

namespace Playback

variable {p : Playback (Exact K)} {now : Exact K}

/-- A track that is over has gone all of its way. -/
theorem progress_of_isOver (begins : 0.0 ≤ p.begin) (finite : Scalar.isFinite now = true)
    (ended : p.isOver now = true) : p.progress now = 1.0 := by
  unfold progress
  split
  · rfl
  · next hpositive =>
    have hover : p.begin + p.duration ≤ now := of_decide_eq_true ended
    obtain ⟨n, rfl⟩ := Exact.isFinite_iff.mp finite
    obtain ⟨b, d, hb, hd⟩ := Exact.exists_number_of_add_le begins hpositive hover
    simp only [hb, hd, Exact.zero_eq, Exact.number_le_number, not_le, Exact.number_add_number]
      at hover hpositive ⊢
    have hgone : 1 ≤ (n - b) / d := (one_le_div hpositive).mpr (by linarith)
    rw [Exact.number_sub_number, Exact.number_div_number _ hpositive.ne', ← Exact.zero_eq,
      Scalar.clamp_of_one_le hgone]

/-- A motion's track that is over shows its goal. -/
theorem value?_of_isOver (begins : 0.0 ≤ p.begin) (finite : Scalar.isFinite now = true)
    (ended : p.isOver now = true) (holds : p.fill.holdsAfterEnd = true)
    (start : ∀ v ∈ p.track.start, v.Finite) (goal : ∀ v ∈ p.track.goal, v.Finite) :
    p.value? now = p.track.goal := by
  unfold value?
  cases hgoal : p.track.goal with
  | none => rfl
  | some v =>
    have hv : v.Finite := goal v hgoal
    have hfrom : (p.track.start.getD v).Finite := by
      cases hstart : p.track.start with
      | none => exact hv
      | some w => exact start w hstart
    simp only [holds, Bool.not_true, Bool.and_false, Bool.false_eq_true, ↓reduceIte,
      progress_of_isOver begins finite ended, Easing.apply_one, Value.lerp_one hfrom hv]

end Playback

/-! ## §3 Commits that do not show -/

section Commit

variable {α : Type} [Scalar α]

/-- If an animation's own tracks show their goals, committing it changes nothing that is shown. -/
theorem Layer.presented?_commit (l : Layer α) (id : AnimationId) (a : Animation α)
    (arrived : ∀ k p, l.owned? id k = some p → p.value? l.clock = p.track.goal) (k : Attribute) :
    (l.commit id a).1.presented? k = l.presented? k := by
  have hclock : (l.commit id a).1.clock = l.clock := clock_commitTracks id _ l
  unfold presented?
  rw [hclock]
  by_cases hk : a.names k
  · obtain ⟨hplaying, hvalues⟩ := commit_of_names l id k hk
    rw [hplaying, hvalues, foreign?_of_owned?]
    cases howned : l.owned? id k with
    | none => rfl
    | some p =>
      -- The goal was shown by the track, and is shown as the value of the layer now.
      obtain ⟨hp, -⟩ := owned?_eq_some_iff.mp howned
      simp [hp, arrived k p howned, Option.or_assoc]
  · obtain ⟨hplaying, hvalues⟩ := commit_of_not_names l id k hk
    rw [hplaying, hvalues]

namespace Stage

variable {κ σ : Type} {early : AnimationId → Prop} {s : Stage α κ σ}
  {hand : Multiset (Completion α)}

/-- A layer on which a track runs has the time of the stage once the clocks are moved, unless it is
in use. -/
theorem OnTime.clock_sync (h : OnTime early s hand) {id : LayerId} {cell : Cell α}
    (found : s.sync.cell? id = some cell) (free : cell.hold = .free) {k : Attribute}
    {p : Playback α} (hp : cell.layer.playing.get? k = some p) : cell.layer.clock = s.now := by
  have hplaying : s.playing? id k = some p :=
    (keepsLayers_sync s).playing? (playing?_eq_some_iff.mpr ⟨cell, found, hp⟩)
  rw [cell?_sync, if_pos (h.followed id k p hplaying)] at found
  obtain ⟨before, -, rfl⟩ := Option.map_eq_some_iff.mp found
  rw [Cell.hold_sync] at free
  rw [Cell.sync_of_free free]
  rfl

/-- If the own tracks of a completion show their goals, firing it changes nothing that is shown. -/
theorem presented?_fire {c : Completion α} {ending : Ending}
    (arrived : ∀ cell, s.cell? c.layer = some cell → cell.hold = .free →
      ∀ k p, cell.layer.owned? c.id k = some p → p.value? cell.layer.clock = p.track.goal)
    (id : LayerId) (k : Attribute) :
    ((s.fire c ending).1.cell? id).map (·.layer.presented? k)
      = (s.cell? id).map (·.layer.presented? k) := by
  unfold fire
  cases hcell : s.cell? c.layer with
  | none => rfl
  | some cell =>
    -- A layer that is in use refuses the completion and stays as it is.
    by_cases hfree : cell.hold = .free
    · simp only [hfree, Hold.admitsWriter, ↓reduceIte]
      rw [cell?_setLayer]
      split
      · next hid =>
        rw [← hid, hcell, Option.map_map, Option.map_some, Option.map_some]
        exact congrArg some (Layer.presented?_commit cell.layer c.id c.animation
          (arrived cell hcell hfree) k)
      · rfl
    · simp only [mt Hold.admitsWriter_iff.mp hfree, Bool.false_eq_true, ↓reduceIte]

end Stage

end Commit

/-! ## §4 The statement -/

namespace PlainStage

open Stage

/-- When the clock ends a motion that was not interrupted, at a moment that is a number, and the
starts and goals of its tracks are made of numbers, then every layer shows for every attribute what
it showed right before. -/
theorem presented?_startTimer {layers : List (Layer (Exact K))}
    (rest : ∀ l ∈ layers, l.playing = .empty) {ops : List (Operation (Exact K))} {t : Exact K}
    {n : Nat} {u : Timer (Exact K) Empty} {r : PlainStage (Exact K)} {c : Completion (Exact K)}
    (popped : (startDue exec t n ((Stage.ofLayers layers).run ops)).1.popDue t = some (u, r))
    (job : u.job = .completion c) (spared : ¬ Interrupted c.id (Stage.ofLayers layers) ops)
    {members : List (Track (Exact K))} {duration : Exact K} {easing : Easing (Exact K)}
    (assembled : c.animation = .group (.assemble members duration easing))
    (finite : Scalar.isFinite u.due = true)
    (numbers : ∀ k p, (r.moveClock u.due).sync.playing? c.layer k = some p → p.id = c.id →
      (∀ v ∈ p.track.start, v.Finite) ∧ ∀ v ∈ p.track.goal, v.Finite) :
    ∀ id k, ((startTimer u r).1.cell? id).map (·.layer.presented? k)
      = ((r.moveClock u.due).sync.cell? id).map (·.layer.presented? k) := by
  have hontime : OnTime (Interrupted · (Stage.ofLayers layers) ops)
      ((Stage.ofLayers layers).run ops) 0 := onTime_run (onTime_ofLayers rest) fun _ hid => hid
  have hstarted := onTime_startDue hontime t n
  have hnow : (r.moveClock u.due).now = u.due := hstarted.timely.now_of_popDue popped
  have htaken := hstarted.take popped
  rw [startTimer_of_completion job]
  refine presented?_fire fun cell hcell hfree k p hp => ?_
  obtain ⟨hget, hid⟩ := Layer.owned?_eq_some_iff.mp hp
  have hplaying : (r.moveClock u.due).sync.playing? c.layer k = some p :=
    playing?_eq_some_iff.mpr ⟨cell, hcell, hget⟩
  have hclock : cell.layer.clock = u.due := (htaken.clock_sync hcell hfree hget).trans hnow
  have hbegins : 0.0 ≤ p.begin := htaken.sync.begins c.layer k p hplaying
  obtain ⟨htrack, hdue⟩ := waited_of_popDue hstarted popped job spared hplaying hid
  rw [assembled] at htrack hdue
  -- The tracks of a group are over when the longest of them is, and for that the completion has
  -- waited.
  have hpunctual := Animation.punctual_group _ c.id hbegins p htrack
  have hended : p.isOver u.due = true :=
    decide_eq_true (le_trans (of_decide_eq_true hpunctual) hdue)
  have hholds : p.fill.holdsAfterEnd = true := by
    obtain ⟨tr, -, htr⟩ := List.mem_map.mp htrack
    rw [← htr]
    rfl
  obtain ⟨hstart, hgoal⟩ := numbers k p hplaying hid
  rw [hclock]
  exact p.value?_of_isOver hbegins finite hended hholds hstart hgoal

/-- A motion that leads the opacity from one to zero along a line. -/
def exactFade : Animation (Exact ℚ) :=
  .group (.assemble [(Track.toward .opacity (.scalar 0.0)).startingAt (.scalar 1.0)] 0.5 .linear)

/-- A stage on which that motion has begun. -/
def exactFading : PlainStage (Exact ℚ) :=
  (Stage.ofLayers [.ofValues .empty]).run [.animate 0 exactFade]

theorem presented?_startTimer_fade :
    ∃ u r, exactFading.popDue 0.5 = some (u, r) ∧
      ∀ id k, ((startTimer u r).1.cell? id).map (·.layer.presented? k)
        = ((r.moveClock u.due).sync.cell? id).map (·.layer.presented? k) := by
  have hrest : ∀ l ∈ [Layer.ofValues (α := Exact ℚ) .empty], l.playing = .empty := by
    intro l hl
    rw [List.mem_singleton.mp hl]
    rfl
  have hspared : ∀ id, ¬ Interrupted id (Stage.ofLayers [.ofValues .empty])
      [.animate 0 exactFade] := by
    rintro id (⟨h, -⟩ | h)
    · cases h
    · exact h
  obtain ⟨⟨u, r⟩, hpopped⟩ : ∃ x, exactFading.popDue 0.5 = some x :=
    Option.isSome_iff_exists.mp (by decide +kernel)
  have htimers : exactFading.timers = [⟨_, _, .completion _⟩] := rfl
  obtain ⟨us, hus, hdue, rfl⟩ := popDue_eq_some_iff.mp hpopped
  obtain ⟨rfl, rfl⟩ := List.cons_eq_cons.mp (htimers.symm.trans hus)
  have hnumbers : ∀ k ∈ Attribute.all,
      ∀ p ∈ (({ exactFading with timers := [] } : PlainStage (Exact ℚ)).moveClock 0.5).sync.playing?
        0 k,
        (∀ v ∈ p.track.start, v.Finite) ∧ ∀ v ∈ p.track.goal, v.Finite := by
    decide +kernel
  have hstarted : (startDue exec 0.5 0 ((Stage.ofLayers [.ofValues .empty]).run
      [.animate 0 exactFade])).1.popDue 0.5 = some _ := hpopped
  exact ⟨_, _, hpopped, presented?_startTimer hrest hstarted rfl (hspared _) rfl
    (by decide +kernel) fun k p hp _ => hnumbers k (Attribute.mem_all k) p hp⟩

/-- A motion that was interrupted while its layer was in use waits for the clock, which cuts it short:
the layer shows a half before, and zero after. -/
theorem presented?_jumps_interrupted :
    ∃ u r, (exactFading.run
        [.advanceTo 0.25, .hold 0 .shared, .interrupt 1, .hold 0 .free]).popDue 0.25 = some (u, r) ∧
      u.job = .completion ⟨0, 1, exactFade⟩ ∧
      ((r.moveClock u.due).sync.cell? 0).bind
        (fun cell => (cell.layer.presented? .opacity).bind Value.scalar?) = some 0.5 ∧
      ((startTimer u r).1.cell? 0).bind
        (fun cell => (cell.layer.presented? .opacity).bind Value.scalar?) = some 0.0 := by
  let s := exactFading.run [.advanceTo 0.25, .hold 0 .shared, .interrupt 1, .hold 0 .free]
  obtain ⟨⟨u, r⟩, hpopped⟩ : ∃ x, s.popDue 0.25 = some x :=
    Option.isSome_iff_exists.mp (by decide +kernel)
  have htimers : s.timers = [⟨0.25, 2, .completion ⟨0, 1, exactFade⟩⟩] := by with_unfolding_all rfl
  obtain ⟨us, hus, hdue, rfl⟩ := popDue_eq_some_iff.mp hpopped
  obtain ⟨rfl, rfl⟩ := List.cons_eq_cons.mp (htimers.symm.trans hus)
  exact ⟨_, _, hpopped, rfl, by decide +kernel, by decide +kernel⟩

end PlainStage

end LayerAnimation
