import LayerAnimation.Proofs.Double.Sums
import LayerAnimation.Proofs.Ownership
import LayerAnimation.Proofs.Queue

/-!
# Completions that come in time

The clock ends an animation by its completion, which waits for as long as the animation takes.  How
long the tracks run is resolved on another path, so the two have to agree.

- `SteadyTime` adds to the laws of time that longer waits lead no less far.
- `Animation.Punctual` says that the tracks of an animation are over when its wait is.  Groups are
  (`Animation.punctual_group`); a lone track is unless its duration is not finite
  (`Animation.punctual_track_iff`).
- `Stage.OnTime` is the invariant: a running track is one of those of the animation that its
  completion carries, and the completion comes no earlier than the wait of the animation is over,
  unless someone has interrupted the animation.
- `PlainStage.wellTimed_iff` puts both together.
-/

namespace LayerAnimation

open LawfulTime

variable {α κ σ : Type}

/-! ## §1 Waits in order -/

/-- The laws of numbers on which the comparison of waits relies. -/
class SteadyTime (α : Type) [Scalar α] : Prop extends LawfulTime α where
  /-- A longer wait leads no less far. -/
  add_le_add {a b c : α} : 0.0 ≤ a → 0.0 ≤ b → b ≤ c → a + b ≤ a + c
  /-- A step back does not lead ahead. -/
  add_le {a d : α} : 0.0 ≤ a → Scalar.isFinite d = true → d ≤ 0.0 → a + d ≤ a

instance : SteadyTime Float where
  add_le_add := Double.add_le_add_left
  add_le := Double.add_le_of_nonpos

section Waits

variable [Scalar α] [LawfulTime α] {a b : α}

/-- The smaller one of two numbers is at most the second, even if the first is not a number. -/
theorem LawfulTime.smaller_le (hb : b ≤ b) (a : α) : Scalar.smaller a b ≤ b := by
  unfold Scalar.smaller
  split
  · next h => exact le_of_lt h
  · rwa [if_pos (beq_self_iff.mpr hb)]

/-- What is raised to zero stays below a bound that is not negative. -/
theorem LawfulTime.larger_zero_le (hb : 0.0 ≤ b) (h : a ≤ b) : Scalar.larger a 0.0 ≤ b := by
  by_cases hle : a ≤ (0.0 : α)
  · rwa [larger_of_le hle]
  · rwa [larger_of_not_le (le_left h) hle]

/-- A member runs no longer than its group waits. -/
theorem Group.trackDuration_le (g : Group α) (t : Track α) :
    0.0 ≤ g.trackDuration t ∧ g.trackDuration t ≤ Stage.wait g.duration := by
  have hwait : 0.0 ≤ Stage.wait g.duration := Stage.zero_le_wait g.duration
  have hspan : g.span = Stage.wait g.duration := rfl
  unfold trackDuration
  cases t.duration with
  | none =>
    rw [hspan]
    exact ⟨hwait, le_right hwait⟩
  | some d =>
    dsimp only
    rw [hspan]
    exact ⟨zero_le_larger_zero _, larger_zero_le hwait (smaller_le (le_right hwait) d)⟩

end Waits

/-! ## §2 Animations whose tracks are over in time -/

/-- Whether the tracks of an animation that begins at a moment are over when its wait is. -/
def Animation.Punctual [Scalar α] (a : Animation α) (id : AnimationId) (begin : α) : Prop :=
  ∀ p ∈ Layer.playbacks id begin a, p.isOver (begin + Stage.wait (Stage.completionDelay a))

namespace Animation

/-- The tracks of a group are over in time, since none runs longer than the group. -/
theorem punctual_group [Scalar α] [SteadyTime α] (g : Group α) (id : AnimationId) {begin : α}
    (h : 0.0 ≤ begin) : (Animation.group g).Punctual id begin := by
  intro p hp
  obtain ⟨t, -, rfl⟩ := List.mem_map.mp hp
  obtain ⟨hzero, hle⟩ := g.trackDuration_le t
  exact decide_eq_true (SteadyTime.add_le_add h hzero hle)

/-- A lone track is over in time if its duration is finite.  An infinite duration is too long, or
goes back, and no time at all is waited for it. -/
theorem punctual_track_iff (t : Track Float) (id : AnimationId) {begin : Float} (h : 0.0 ≤ begin) :
    (Animation.track t).Punctual id begin ↔
      Stage.completionDelay (.track t) ≤ Stage.completionDelay (.track t) ∧
      ((Stage.completionDelay (.track t)).isFinite = true ∨
        (begin.isFinite = true ↔ Stage.completionDelay (.track t) < 0.0)) := by
  have hover : (Animation.track t).Punctual id begin ↔
      begin + Stage.completionDelay (.track t)
        ≤ begin + Stage.wait (Stage.completionDelay (.track t)) := by
    rw [Punctual, Layer.playbacks, List.forall_mem_singleton]
    exact decide_eq_true_iff
  rw [hover]
  generalize Stage.completionDelay (.track t) = d
  have hback : begin + 0.0 ≤ begin := add_zero_le h
  have hahead : begin ≤ begin + 0.0 := le_add h isFinite_zero zero_le_zero
  cases hfinite : d.isFinite with
  | true =>
    have hd : d ≤ d := le_self_of_isFinite hfinite
    have hle : begin + d ≤ begin + Stage.wait d := by
      rw [Stage.wait, if_pos (show Scalar.isFinite d = true from hfinite)]
      by_cases hneg : d ≤ (0.0 : Float)
      · rw [larger_of_le hneg]
        exact le_trans (SteadyTime.add_le h hfinite hneg) hahead
      · rw [larger_of_not_le hd hneg]
        exact le_right (le_add h hfinite (le_of_not_le hd zero_le_zero hneg))
    simp [hd, hle]
  | false =>
    have hwait : Stage.wait d = 0.0 := if_neg (by simpa [Scalar.isFinite] using hfinite)
    have hiff : begin + d ≤ begin + 0.0 ↔ begin + d ≤ begin :=
      ⟨fun hle => le_trans hle hback, fun hle => le_trans hle hahead⟩
    rw [hwait, hiff]
    -- An infinite wait is not waited for, so it must not lead ahead.
    by_cases hd : d ≤ d
    · simp [hd, Double.add_infinite_le_iff h hd hfinite]
    · simp [hd, Double.not_add_le_of_not_proper hd]

end Animation

namespace Stage

/-! ## §3 Completions and the tracks that they end -/

variable {s s' : Stage α κ σ} {hand hand' : Multiset (Completion α)}

/-- A track runs on a layer that is alive. -/
theorem isAlive_of_playing? {id : LayerId} {k : Attribute} {p : Playback α}
    (hp : s.playing? id k = some p) : s.isAlive id = true := by
  obtain ⟨cell, hcell, -⟩ := playing?_eq_some_iff.mp hp
  rw [isAlive, hcell]
  rfl

/-- A completion that is fired starts no track. -/
theorem playing?_of_fire {c : Completion α} {ending : Ending} {result : Except (Completion α) Nat}
    (fired : s.fire c ending = (s', result)) {id : LayerId} {k : Attribute} {p : Playback α}
    (hp : s'.playing? id k = some p) : s.playing? id k = some p := by
  unfold fire at fired
  split at fired
  · cases fired
    exact hp
  · next cell hcell =>
    split at fired <;> cases fired
    · rcases playing?_of_setLayer hp with ⟨rfl, hnew⟩ | ⟨-, hold⟩
      · exact playing?_eq_some_iff.mpr
          ⟨cell, hcell, (Layer.playing_of_playing_commit _ _ _ hnew).1⟩
      · exact hold
    · exact hp

/-- A running track has a number that has been drawn. -/
theorem Linked.lt_of_playing? (h : Linked s hand) {id : LayerId} {k : Attribute}
    {p : Playback α} (hp : s.playing? id k = some p) : p.id < s.nextId := by
  obtain ⟨c, hc, hends⟩ := h.ended id k p hp
  rw [← hends.number]
  exact h.drawn c hc

/-- Firing a completion ends tracks of its own animation only. -/
theorem id_eq_of_fire {c : Completion α} {ending : Ending} {id : LayerId} {k : Attribute}
    {p : Playback α} (hp : s.playing? id k = some p)
    (ends : (s.fire c ending).1.playing? id k ≠ some p) : p.id = c.id := by
  unfold fire at ends
  split at ends
  · exact absurd hp ends
  · next cell hcell =>
    split at ends
    · obtain ⟨cell', hcell', hget⟩ := playing?_eq_some_iff.mp hp
      by_cases hid : c.layer = id
      · obtain rfl : cell = cell' := Option.some.inj (by rw [← hcell, hid, hcell'])
        by_contra hne
        -- Under every attribute a commit leaves what another animation owns.
        have hleft : (cell.layer.commit c.id c.animation).1.playing.get? k = some p := by
          by_cases hk : c.animation.names k
          · rw [(Layer.commit_of_names cell.layer c.id k hk).1, Layer.foreign?_eq_some_iff]
            exact ⟨hget, hne⟩
          · rwa [(Layer.commit_of_not_names cell.layer c.id k hk).1]
        apply ends
        rw [playing?, cell?_setLayer, if_pos hid, hcell']
        exact hleft
      · refine absurd ?_ ends
        rwa [playing?, cell?_setLayer, if_neg hid]
    · exact absurd hp ends

/-- When a completion can commit: at the moment for which it waits, or now if it is at hand. -/
inductive Comes [Scalar α] (s : Stage α κ σ) (hand : Multiset (Completion α)) (c : Completion α) :
    α → Prop where
  | waiting {u} (mem : u ∈ s.timers) (job : u.job = .completion c) : Comes s hand c u.due
  | atHand (mem : c ∈ hand) : Comes s hand c s.now

/-- Running tracks are those of the animations that completions carry, on layers that are followed,
and a completion comes when the wait of its animation is over, unless it comes early. -/
structure OnTime [Scalar α] (early : AnimationId → Prop) (s : Stage α κ σ)
    (hand : Multiset (Completion α)) : Prop where
  linked : Linked s hand
  timely : s.Timely
  followed : ∀ id k p, s.playing? id k = some p → id ∈ s.followed
  begins : ∀ id k p, s.playing? id k = some p → 0.0 ≤ p.begin
  own : ∀ c d, Comes s hand c d → ∀ id k p, s.playing? id k = some p → p.id = c.id →
    p ∈ Layer.playbacks c.id p.begin c.animation ∧
      (early c.id ∨ p.begin + wait (completionDelay c.animation) ≤ d)

variable [Scalar α] {early : AnimationId → Prop}

/-- A completion that can commit waits, or is at hand. -/
theorem Comes.mem {c : Completion α} {d : α} (h : Comes s hand c d) : c ∈ hand + s.waiting := by
  rcases h with ⟨mem, job⟩ | mem
  · exact Multiset.mem_add.mpr (.inr (mem_waiting.mpr ⟨_, mem, job⟩))
  · exact Multiset.mem_add.mpr (.inl mem)

/-- Where no track starts, completions may only come later. -/
theorem OnTime.mono [LawfulTime α] (h : OnTime early s hand) (linked : Linked s' hand')
    (timely : s'.Timely)
    (playing : ∀ id k p, s'.playing? id k = some p → s.playing? id k = some p)
    (followed : ∀ id k p, s'.playing? id k = some p → id ∈ s.followed → id ∈ s'.followed)
    (comes : ∀ c d', Comes s' hand' c d' → ∃ d, Comes s hand c d ∧ (early c.id ∨ d ≤ d')) :
    OnTime early s' hand' where
  linked := linked
  timely := timely
  followed := fun id k p hp => followed id k p hp (h.followed id k p (playing id k p hp))
  begins := fun id k p hp => h.begins id k p (playing id k p hp)
  own := by
    intro c d' hcomes id k p hp hid
    obtain ⟨d, hbefore, hlater⟩ := comes c d' hcomes
    obtain ⟨htrack, hdue⟩ := h.own c d hbefore id k p (playing id k p hp) hid
    refine ⟨htrack, ?_⟩
    rcases hlater with hearly | hle
    · exact .inl hearly
    · exact hdue.imp_right fun hwait => le_trans hwait hle

/-! ## §4 Every step keeps it -/

section Steps

variable [LawfulTime α]

/-- What concerns neither the clock nor the queue. -/
theorem OnTime.rearrange (h : OnTime early s hand) (step : Transition s hand none s' hand)
    (layers : KeepsLayers s s') (now : s'.now = s.now) (timers : s'.timers = s.timers)
    (followed : ∀ id k p, s'.playing? id k = some p → id ∈ s.followed → id ∈ s'.followed) :
    OnTime early s' hand := by
  refine h.mono (h.linked.transition step) (h.timely.transition step)
    (fun id k p hp => layers.playing? hp) followed ?_
  rintro c d (⟨mem, job⟩ | mem)
  · rw [timers] at mem
    exact ⟨_, .waiting mem job, .inr (h.timely.proper mem)⟩
  · exact ⟨_, .atHand mem, .inr (by rw [now]; exact h.timely.le_now)⟩

theorem OnTime.sync (h : OnTime early s hand) : OnTime early s.sync hand := by
  refine h.rearrange .sync (keepsLayers_sync s) rfl rfl fun id k p hp hid => ?_
  have halive := isAlive_of_playing? ((keepsLayers_sync s).playing? hp)
  exact List.mem_filter.mpr ⟨hid, halive⟩

theorem OnTime.follow (h : OnTime early s hand) (id : LayerId) :
    OnTime early (s.follow id) hand :=
  h.rearrange .follow (keepsLayers_follow s id) (now_follow s id) (timers_follow s id)
    fun _ _ _ _ hj => (mem_followed_follow s id).mpr (.inr hj)

theorem OnTime.setHold (h : OnTime early s hand) (id : LayerId) (hold : Hold) :
    OnTime early (s.setHold id hold) hand :=
  h.rearrange .hold (keepsLayers_setHold s id hold) rfl rfl fun _ _ _ _ hid => hid

theorem OnTime.dropLayer (h : OnTime early s hand) (id : LayerId) :
    OnTime early (s.dropLayer id) hand :=
  h.rearrange .drop (keepsLayers_dropLayer s id) rfl rfl fun _ _ _ _ hid => hid

theorem OnTime.drawId (h : OnTime early s hand) : OnTime early s.drawId hand :=
  h.rearrange .draw (.of_cell? rfl) rfl rfl fun _ _ _ _ hid => hid

/-- What is at hand can wait while the clock moves on. -/
theorem OnTime.arrive (h : OnTime early s hand) {t : α} (idle : s.popDue t = none) :
    OnTime early (s.moveClock t) hand := by
  have step : Transition s hand none (s.moveClock t) hand := .arrive idle
  refine h.mono (h.linked.transition step) (h.timely.transition step) (fun _ _ _ hp => hp)
    (fun _ _ _ _ hid => hid) ?_
  rintro c d (⟨mem, job⟩ | mem)
  · exact ⟨_, .waiting mem job, .inr (h.timely.proper mem)⟩
  · exact ⟨_, .atHand mem, .inr (le_larger h.timely.le_now t)⟩

/-- The completion that the clock takes comes at its due time. -/
theorem OnTime.take (h : OnTime early s hand) {r : Stage α κ σ} {t : α} {u : Timer α κ}
    (popped : s.popDue t = some (u, r)) :
    OnTime early (r.moveClock u.due) (↑u.completion?.toList + hand) := by
  have step : Transition s hand none (r.moveClock u.due) (↑u.completion?.toList + hand) :=
    .take popped
  have hnow := h.timely.now_of_popDue popped
  have hmem := mem_of_popDue popped
  have hproper := h.timely.proper hmem
  have hahead := h.timely.ahead u hmem
  obtain ⟨us, hus, -, rfl⟩ := popDue_eq_some_iff.mp popped
  refine h.mono (h.linked.transition step) (h.timely.transition step) (fun _ _ _ hp => hp)
    (fun _ _ _ _ hid => hid) ?_
  -- What still waits comes when it is due, and the one that was taken comes now, at its due time.
  rintro c d (⟨mem, job⟩ | mem)
  · have hrest : _ ∈ s.timers := hus ▸ List.mem_cons_of_mem u mem
    exact ⟨_, .waiting hrest job, .inr (h.timely.proper hrest)⟩
  · rw [hnow]
    rcases Multiset.mem_add.mp mem with mem | mem
    · have hjob : u.completion? = some c := by simpa using mem
      exact ⟨_, .waiting hmem (Timer.completion?_eq_some_iff.mp hjob), .inr hproper⟩
    · exact ⟨_, .atHand mem, .inr hahead⟩

/-- A motion that is put off starts nothing yet. -/
theorem OnTime.putOff (h : OnTime early s hand) (after : α) (d : Deferred α) :
    OnTime early (s.enqueue after (.deferred d)) hand := by
  have step : Transition s hand none (s.enqueue after (.deferred d)) hand := .putOff
  refine h.mono (h.linked.transition step) (h.timely.transition step) (fun _ _ _ hp => hp)
    (fun _ _ _ _ hid => hid) ?_
  rintro c _ (⟨mem, job⟩ | mem)
  · rcases Timer.mem_insert.mp mem with rfl | mem
    · cases job
    · exact ⟨_, .waiting mem job, .inr (h.timely.proper mem)⟩
  · exact ⟨_, .atHand mem, .inr h.timely.le_now⟩

/-- A completion at hand that waits again comes no earlier. -/
theorem OnTime.requeue {c : Completion α} (h : OnTime early s (c ::ₘ hand)) :
    OnTime early (s.enqueue 0.0 (.completion c)) hand := by
  have step : Transition s (c ::ₘ hand) none (s.enqueue 0.0 (.completion c)) hand := .requeue
  refine h.mono (h.linked.transition step) (h.timely.transition step) (fun _ _ _ hp => hp)
    (fun _ _ _ _ hid => hid) ?_
  rintro c' _ (⟨mem, job⟩ | mem)
  · rcases Timer.mem_insert.mp mem with rfl | mem
    · cases job
      exact ⟨_, .atHand (Multiset.mem_cons_self c hand), .inr (h.timely.le_add_wait 0.0)⟩
    · exact ⟨_, .waiting mem job, .inr (h.timely.proper mem)⟩
  · exact ⟨_, .atHand (Multiset.mem_cons_of_mem mem), .inr h.timely.le_now⟩

/-- A completion that is withdrawn may come early. -/
theorem OnTime.withdraw (h : OnTime early s hand) {id : AnimationId} {u : Timer α κ}
    {c : Completion α} (found : s.timers.find? (Timer.isCompletionOf id) = some u)
    (isCompletion : u.completion? = some c) (allowed : early id) :
    OnTime early (s.cancel id) (c ::ₘ hand) := by
  have step : Transition s hand none (s.cancel id) (c ::ₘ hand) := .withdraw found isCompletion
  have hjob := Timer.completion?_eq_some_iff.mp isCompletion
  have hid : c.id = id := by
    have hfound := List.find?_some found
    simpa [Timer.isCompletionOf, hjob] using hfound
  refine h.mono (h.linked.transition step) (h.timely.transition step) (fun _ _ _ hp => hp)
    (fun _ _ _ _ hid => hid) ?_
  rintro c' _ (⟨mem, job⟩ | mem)
  · have hmem := List.mem_of_mem_eraseP mem
    exact ⟨_, .waiting hmem job, .inr (h.timely.proper hmem)⟩
  -- The completion that was withdrawn commits now, which may be before its due time.
  · rcases Multiset.mem_cons.mp mem with rfl | mem
    · exact ⟨_, .waiting (List.mem_of_find?_eq_some found) hjob, .inl (hid ▸ allowed)⟩
    · exact ⟨_, .atHand mem, .inr h.timely.le_now⟩

/-- A commit ends tracks, and lets no completion come earlier. -/
theorem OnTime.commit {c : Completion α} {ending : Ending} {n : Nat}
    (h : OnTime early s (c ::ₘ hand)) (fired : s.fire c ending = (s', .ok n)) :
    OnTime early s' hand := by
  have step : Transition s (c ::ₘ hand) none s' hand := .commit fired
  refine h.mono (h.linked.transition step) (h.timely.transition step)
    (fun id k p hp => playing?_of_fire fired hp) ?_ ?_
  · obtain ⟨layers, rfl⟩ := exists_layers_of_fire fired
    exact fun _ _ _ _ hid => hid
  · obtain ⟨layers, rfl⟩ := exists_layers_of_fire fired
    rintro c' _ (⟨mem, job⟩ | mem)
    · exact ⟨_, .waiting mem job, .inr (h.timely.proper mem)⟩
    · exact ⟨_, .atHand (Multiset.mem_cons_of_mem mem), .inr h.timely.le_now⟩

omit [LawfulTime α] in
/-- After an attachment the tracks of the animation run on its layer, and what ran before. -/
theorem playing?_of_attach {id j : LayerId} {l : Layer α} {a : Animation α} {k : Attribute}
    {p : Playback α} (found : s.writable? id = some l)
    (hp : ((s.drawId.setLayer id (l.attach s.nextId s.now a).1).enqueueCompletion
      (completionDelay a) ⟨id, s.nextId, (l.attach s.nextId s.now a).2⟩).playing? j k = some p) :
    (j = id ∧ ∃ t ∈ (l.attach s.nextId s.now a).2.tracks,
      p = (l.attach s.nextId s.now a).2.playback s.nextId s.now t) ∨ s.playing? j k = some p := by
  obtain ⟨cell, hcell, -, hlayer⟩ := writable?_eq_some_iff.mp found
  have hset : (s.drawId.setLayer id (l.attach s.nextId s.now a).1).playing? j k = some p := by
    simpa [playing?, enqueueCompletion] using hp
  -- On the layer itself the last track of the animation for the attribute runs now, or what ran
  -- there before.
  rcases playing?_of_setLayer hset with ⟨rfl, hnew⟩ | ⟨-, hold⟩
  · rw [Layer.playing_attach] at hnew
    cases hlast : (l.attach s.nextId s.now a).2.lastTrack? k with
    | none =>
      rw [hlast, ← hlayer] at hnew
      exact .inr (playing?_eq_some_iff.mpr ⟨cell, hcell, hnew⟩)
    | some t =>
      rw [hlast] at hnew
      refine .inl ⟨rfl, t, (Animation.mem_of_lastTrack? hlast).1, ?_⟩
      simpa using hnew.symm
  · exact .inr hold

/-- Attaching registers a completion that comes when the wait of the animation is over. -/
theorem OnTime.attach (h : OnTime early s hand) {id : LayerId} {l : Layer α} (a : Animation α)
    (found : s.writable? id = some l) :
    OnTime early ((s.drawId.setLayer id (l.attach s.nextId s.now a).1).enqueueCompletion
      (completionDelay a) ⟨id, s.nextId, (l.attach s.nextId s.now a).2⟩) hand := by
  have step : Transition s hand _ _ hand := .attach a found
  have hdelay : completionDelay (l.attach s.nextId s.now a).2 = completionDelay a := by
    cases a <;> rfl
  have hnow : ((s.drawId.setLayer id (l.attach s.nextId s.now a).1).enqueueCompletion
      (completionDelay a) ⟨id, s.nextId, (l.attach s.nextId s.now a).2⟩).now = s.now :=
    now_follow _ _
  have hinsert := timers_enqueueCompletion (s.drawId.setLayer id (l.attach s.nextId s.now a).1)
    (completionDelay a) ⟨id, s.nextId, (l.attach s.nextId s.now a).2⟩
  have hrunning := fun j k p => playing?_of_attach (j := j) (k := k) (p := p) (a := a) found
  refine ⟨h.linked.transition step, h.timely.transition step, ?_, ?_, ?_⟩
  · intro j k p hp
    rcases hrunning j k p hp with ⟨rfl, -⟩ | hold
    · exact (mem_followed_follow _ _).mpr (.inl rfl)
    · exact (mem_followed_follow (s.drawId.setLayer id (l.attach s.nextId s.now a).1) id).mpr
        (.inr (h.followed j k p hold))
  · intro j k p hp
    rcases hrunning j k p hp with ⟨-, t, -, rfl⟩ | hold
    · cases (l.attach s.nextId s.now a).2 <;> exact h.timely.clock
    · exact h.begins j k p hold
  · -- What is new has the new number, and what was there before has others.
    have hbefore : ∀ c d, Comes s hand c d → ∀ j k p,
        ((s.drawId.setLayer id (l.attach s.nextId s.now a).1).enqueueCompletion (completionDelay a)
          ⟨id, s.nextId, (l.attach s.nextId s.now a).2⟩).playing? j k = some p → p.id = c.id →
        p ∈ Layer.playbacks c.id p.begin c.animation ∧
          (early c.id ∨ p.begin + wait (completionDelay c.animation) ≤ d) := by
      intro c d hcomes j k p hp hid
      rcases hrunning j k p hp with ⟨-, t, -, rfl⟩ | hold
      · have hlt := h.linked.drawn c hcomes.mem
        rw [← hid, Animation.id_playback] at hlt
        exact absurd hlt (Nat.lt_irrefl _)
      · exact h.own c d hcomes j k p hold hid
    rintro c d (⟨mem, job⟩ | mem) j k p hp hid
    · rw [hinsert] at mem
      rcases Timer.mem_insert.mp mem with rfl | mem
      · cases job
        rcases hrunning j k p hp with ⟨-, t, ht, hp'⟩ | hold
        · have hbegin : p.begin = s.now := by
            rw [hp']
            cases (l.attach s.nextId s.now a).2 <;> rfl
          rw [hbegin, hdelay, Layer.playbacks_eq]
          exact ⟨List.mem_map.mpr ⟨t, ht, hp'.symm⟩,
            .inr (le_right (h.timely.le_add_wait (completionDelay a)))⟩
        · exact absurd hid (Nat.ne_of_lt (h.linked.lt_of_playing? hold))
      · exact hbefore c _ (.waiting mem job) j k p hp hid
    · rw [hnow]
      exact hbefore c _ (.atHand mem) j k p hp hid

theorem OnTime.animate (h : OnTime early s hand) (id : LayerId) (a : Animation α) :
    OnTime early (s.animate id a).1 hand := by
  unfold Stage.animate Stage.attach
  cases found : s.writable? id with
  | none => exact h.drawId
  | some l => exact h.attach a found

theorem OnTime.perform (h : OnTime early s hand) (id : LayerId) (intents : List (Intent α))
    (duration : α) (easing : Easing α) :
    OnTime early (s.perform id intents duration easing).1 hand := by
  unfold Stage.perform
  cases s.readable? id with
  | none => exact h
  | some l => exact h.animate id _

theorem OnTime.motion (h : OnTime early s hand) (id : LayerId) (intents : List (Intent α))
    (o : Options α) : OnTime early (s.motion id intents o).1 hand := by
  unfold Stage.motion
  split
  · exact h.putOff _ _
  · exact h.perform id intents _ _

theorem OnTime.interrupt (h : OnTime early s hand) {id : AnimationId}
    (allowed : (s.interrupt id).2 = true → early id) : OnTime early (s.interrupt id).1 hand := by
  rcases interrupt_cases s id with ⟨-, hsame⟩ | ⟨u, c, hfind, hjob, hfired | ⟨-, hheld⟩, hfound⟩
  · rwa [hsame]
  · obtain ⟨n, hfired⟩ := hfired
    have hjob' := Timer.completion?_eq_some_iff.mpr hjob
    exact (h.withdraw hfind hjob' (allowed hfound)).commit hfired
  · rw [hheld]
    have hjob' := Timer.completion?_eq_some_iff.mpr hjob
    exact (h.withdraw hfind hjob' (allowed hfound)).requeue

theorem OnTime.requeueAll {cs : List (Completion α)} (h : OnTime early s (↑cs + hand)) :
    OnTime early (s.requeue cs) hand := by
  induction cs generalizing s with
  | nil => simpa [Stage.requeue] using h
  | cons c cs ih =>
    rw [← Multiset.cons_coe, Multiset.cons_add] at h
    exact ih h.requeue

end Steps

end Stage

namespace PlainStage

open Stage

variable [Scalar α] [LawfulTime α] {early : AnimationId → Prop} {s r : PlainStage α}
  {hand : Multiset (Completion α)} {t : α} {u : Timer α Empty}

/-! ## §5 Every run keeps it -/

/-- A completion that is refused stays at hand. -/
theorem onTime_startTimer (h : OnTime early s hand) (popped : s.popDue t = some (u, r)) :
    OnTime early (startTimer u r).1
      (↑(Firing.refused? ⟨u.due, u.seq, (startTimer u r).2⟩).toList + hand) := by
  have hsynced := (h.take popped).sync
  unfold startTimer Stage.start
  cases hjob : u.job with
  | completion c =>
    rw [Timer.completion?_eq_some_iff.mpr hjob, Option.toList_some, Multiset.coe_singleton,
      Multiset.singleton_add] at hsynced
    dsimp only
    split
    · next fired => simpa [Firing.refused?] using hsynced.commit fired
    · next fired =>
      obtain ⟨rfl, rfl⟩ := fire_of_error fired
      simpa [Firing.refused?] using hsynced
  | deferred d =>
    have hnone : u.completion? = none := by simp [Timer.completion?, hjob]
    rw [hnone] at hsynced
    exact hsynced.perform d.layer d.intents d.duration d.easing
  | routine r => exact r.elim

theorem onTime_startDue (h : OnTime early s hand) (t : α) (n : Nat) :
    OnTime early (startDue exec t n s).1
      (↑((startDue exec t n s).2.filterMap Firing.refused?) + hand) := by
  induction n generalizing s hand with
  | zero => simpa [startDue] using h
  | succ n ih =>
    unfold startDue
    cases popped : s.popDue t with
    | none => simpa using h
    | some pair =>
      obtain ⟨u, r⟩ := pair
      have hrest := ih (onTime_startTimer h popped)
      rw [startTimer] at hrest
      simp only [List.filterMap_cons]
      -- What this job leaves at hand is counted with what the others leave.
      cases hrefused : Firing.refused?
          ⟨u.due, u.seq, (start exec u.job (r.moveClock u.due).sync).2⟩ with
      | none => simpa [hrefused] using hrest
      | some c => simpa [hrefused, ← Multiset.cons_coe] using hrest

theorem onTime_advanceTo (h : OnTime early s hand) (t : α) :
    OnTime early (s.advanceTo t).1 hand :=
  ((onTime_startDue h t s.load).arrive (popDue_runDue s t)).requeueAll.sync

theorem onTime_settle (h : OnTime early s hand) : OnTime early s.settle.1 hand := by
  induction s using settle_induction with
  | empty s hidle => rwa [settle_of_empty hidle]
  | stuck s u us hcons hdone =>
    rw [settle_of_stuck hcons hdone]
    exact onTime_advanceTo h u.due
  | done s u us hcons hdone ih =>
    rw [settle_of_done hcons hdone]
    exact ih (onTime_advanceTo h u.due)

theorem onTime_perform (h : OnTime early s hand) (op : Operation α)
    (allowed : ∀ id, op = .interrupt id → (s.interrupt id).2 = true → early id) :
    OnTime early (op.perform s) hand := by
  cases op with
  | motion id intents o => exact h.motion id intents o
  | schedule id intents o => exact h.putOff _ _
  | animate id a => exact h.animate id a
  | advance dt => exact onTime_advanceTo h _
  | advanceTo t => exact onTime_advanceTo h t
  | settle => exact onTime_settle h
  | interrupt id => exact h.interrupt (allowed id rfl)
  | watch id => exact (h.follow id).sync
  | hold id hold => exact h.setHold id hold
  | drop id => exact h.dropLayer id

/-- Some operations interrupt an animation whose completion waits when they do. -/
def Interrupted (id : AnimationId) : PlainStage α → List (Operation α) → Prop
  | _, [] => False
  | s, op :: ops =>
      (op = .interrupt id ∧ (s.interrupt id).2 = true) ∨ Interrupted id (op.perform s) ops

/-- So do operations, if they interrupt only what is said to come early. -/
theorem onTime_run (h : OnTime early s hand) {ops : List (Operation α)}
    (allowed : ∀ id, Interrupted id s ops → early id) : OnTime early (s.run ops) hand := by
  induction ops generalizing s with
  | nil => exact h
  | cons op ops ih =>
    have hop := onTime_perform h op fun id hid hfound => allowed id (.inl ⟨hid, hfound⟩)
    exact ih hop fun id hid => allowed id (.inr hid)

/-- On resting layers no track runs that could end early. -/
theorem onTime_ofLayers {layers : List (Layer α)} (rest : ∀ l ∈ layers, l.playing = .empty) :
    OnTime early (Stage.ofLayers layers) 0 := by
  have hlinked := linked_ofLayers rest
  have hnone : ∀ id k p, (Stage.ofLayers layers).playing? id k ≠ some p := by
    intro id k p hp
    obtain ⟨c, hc, -⟩ := hlinked.ended id k p hp
    exact absurd hc (Multiset.notMem_zero c)
  exact ⟨hlinked, timely_ofLayers layers, fun id k p hp => absurd hp (hnone id k p),
    fun id k p hp => absurd hp (hnone id k p), fun _ _ _ id k p hp => absurd hp (hnone id k p)⟩

omit [LawfulTime α] in
theorem startTimer_of_completion {c : Completion α} (job : u.job = .completion c) :
    (startTimer u r).1 = ((r.moveClock u.due).sync.fire c .finished).1 := by
  unfold startTimer Stage.start
  rw [job]
  dsimp only
  split <;> next e => rw [e]

/-- When the clock starts a completion that no one has interrupted, the tracks that it ends are its
own, and its wait is over for each of them. -/
theorem waited_of_popDue (h : OnTime early s hand) (popped : s.popDue t = some (u, r))
    {c : Completion α} (job : u.job = .completion c) (notEarly : ¬ early c.id) {id : LayerId}
    {k : Attribute} {p : Playback α} (hp : (r.moveClock u.due).sync.playing? id k = some p)
    (hid : p.id = c.id) :
    p ∈ Layer.playbacks c.id p.begin c.animation ∧
      p.begin + wait (completionDelay c.animation) ≤ u.due := by
  have hsynced := (h.take popped).sync
  have hnow : (r.moveClock u.due).sync.now = u.due := h.timely.now_of_popDue popped
  have hmem : c ∈ (↑u.completion?.toList + hand : Multiset (Completion α)) := by
    simp [Timer.completion?_eq_some_iff.mpr job]
  obtain ⟨htrack, hdue⟩ := hsynced.own c _ (.atHand hmem) id k p hp hid
  rw [hnow] at hdue
  exact ⟨htrack, hdue.resolve_left notEarly⟩

end PlainStage

/-! ## §6 The statement -/

/-- Whether the duration that an animation asks for leaves its tracks in time: a group repairs
every duration, and a lone track takes a duration as it is.  An infinite one goes well only if it
leads back, or if the clock has come to infinity itself. -/
def Animation.WellTimed (a : Animation Float) (begin : Float) : Prop :=
  (∃ g, a = .group g) ∨
    (Stage.completionDelay a ≤ Stage.completionDelay a ∧
      ((Stage.completionDelay a).isFinite = true ∨
        (begin.isFinite = true ↔ Stage.completionDelay a < 0.0)))

theorem Animation.punctual_iff_wellTimed (a : Animation Float) (id : AnimationId) {begin : Float}
    (h : 0.0 ≤ begin) : a.Punctual id begin ↔ a.WellTimed begin := by
  cases a with
  | group g => exact iff_of_true (punctual_group g id h) (.inl ⟨g, rfl⟩)
  | track t => simp [punctual_track_iff t id h, WellTimed]

/-- To fill in starts changes no durations. -/
theorem Layer.wellTimed_attach (l : Layer Float) (id : AnimationId) (now : Float)
    (a : Animation Float) (begin : Float) :
    (l.attach id now a).2.WellTimed begin ↔ a.WellTimed begin := by
  cases a <;> simp [Animation.WellTimed, attach, fillStarts, Animation.mapTracks,
    Stage.completionDelay, Animation.durationOr]

namespace PlainStage

open Stage

/-- An animation that is attached registers a completion, and exactly if it is well timed all the
tracks that it starts have a proper duration and are over when the completion is due.  So whatever
the clock ends by a completion that no one has interrupted has run its course, if the animation was
well timed. -/
theorem wellTimed_iff {layers : List (Layer Float)} (rest : ∀ l ∈ layers, l.playing = .empty)
    (ops : List (Operation Float)) :
    (∀ id l a, ((Stage.ofLayers layers).run ops).writable? id = some l →
      ∃ u ∈ (((Stage.ofLayers layers).run ops).animate id a).1.timers, ∃ c,
        u.job = .completion c ∧ c.layer = id ∧ c.id = ((Stage.ofLayers layers).run ops).nextId ∧
        ((∀ p ∈ Layer.playbacks c.id ((Stage.ofLayers layers).run ops).now c.animation,
            p.duration.isNaN = false ∧ p.begin + p.duration ≤ u.due) ↔
          a.WellTimed ((Stage.ofLayers layers).run ops).now)) ∧
    ∀ t n u r c, (startDue exec t n ((Stage.ofLayers layers).run ops)).1.popDue t = some (u, r) →
      u.job = .completion c → ¬ Interrupted c.id (Stage.ofLayers layers) ops →
      ∀ id k p, (r.moveClock u.due).sync.playing? id k = some p →
        (startTimer u r).1.playing? id k ≠ some p → c.animation.WellTimed p.begin →
        p.begin + p.duration ≤ u.due := by
  constructor
  · intro id l a found
    have hclock : 0.0 ≤ ((Stage.ofLayers layers).run ops).now :=
      ((Reachable.ofLayers layers).run ops).timely.clock
    generalize (Stage.ofLayers layers).run ops = s at found hclock ⊢
    refine ⟨⟨s.now + wait (completionDelay a), s.seq + 1, .completion ⟨id, s.nextId, _⟩⟩, ?_,
      ⟨id, s.nextId, (l.attach s.nextId s.now a).2⟩, rfl, rfl, rfl, ?_⟩
    · simp only [Stage.animate, Stage.attach, found]
      rw [timers_enqueueCompletion]
      exact Timer.mem_insert.mpr (.inl rfl)
    · have hdelay : completionDelay (l.attach s.nextId s.now a).2 = completionDelay a := by
        cases a <;> rfl
      rw [← Layer.wellTimed_attach l s.nextId s.now a, ← Animation.punctual_iff_wellTimed _ s.nextId
        hclock, Animation.Punctual, hdelay]
      refine forall₂_congr fun p hp => ?_
      have hbegin : p.begin = s.now := by
        rw [Layer.playbacks_eq] at hp
        obtain ⟨t, -, rfl⟩ := List.mem_map.mp hp
        cases (l.attach s.nextId s.now a).2 <;> rfl
      rw [Playback.isOver, decide_eq_true_iff, hbegin, Double.isNaN_eq_false_iff]
      refine and_iff_right_of_imp fun hle => ?_
      -- A duration that is not a number leads nowhere, so the track is never over.
      by_contra hproper
      exact Double.not_add_le_of_not_proper hproper hle
  · intro t n u r c popped job spared id k p hp ends timed
    have hontime : OnTime (Interrupted · (Stage.ofLayers layers) ops)
        ((Stage.ofLayers layers).run ops) 0 := onTime_run (onTime_ofLayers rest) fun _ hid => hid
    have hstarted := onTime_startDue hontime t n
    rw [startTimer_of_completion job] at ends
    have hid := id_eq_of_fire hp ends
    obtain ⟨htrack, hdue⟩ := waited_of_popDue hstarted popped job spared hp hid
    have hclock : 0.0 ≤ p.begin := (hstarted.take popped).sync.begins id k p hp
    have hpunctual := (Animation.punctual_iff_wellTimed c.animation c.id hclock).mpr timed
    exact le_trans (of_decide_eq_true (hpunctual p htrack)) hdue

/-- A fade by itself of a given duration. -/
def loneFade (duration : Float) : Animation Float :=
  .track ((Track.toward .opacity (.scalar 0.0)).lasting duration)

/-- A lone fade of a duration that is longer than none is over when its completion is due. -/
theorem wellTimed_iff_loneFade :
    ∃ u ∈ ((Stage.ofLayers [.ofValues .empty]).animate 0 (loneFade 0.5)).1.timers,
      ∃ c, u.job = .completion c ∧ ∀ p ∈ Layer.playbacks c.id 0.0 c.animation,
        p.duration.isNaN = false ∧ p.begin + p.duration ≤ u.due := by
  have hrest : ∀ l ∈ [Layer.ofValues (α := Float) .empty], l.playing = .empty := by
    intro l hl
    rw [List.mem_singleton.mp hl]
    rfl
  obtain ⟨u, hu, c, hjob, -, -, hiff⟩ :=
    (wellTimed_iff hrest []).1 0 (Layer.ofValues .empty) (loneFade 0.5) rfl
  refine ⟨u, hu, c, hjob, hiff.mpr (.inr ⟨?_, .inl ?_⟩)⟩ <;> decide +kernel

/-- A lone fade whose duration is a not-a-number runs for that duration, and one that takes for ever
is ended by the clock at once, though it is not over. -/
theorem loneFade_ends_early :
    (∃ p, ((Stage.ofLayers [.ofValues .empty]).animate 0 (loneFade (0.0 / 0.0))).1.playing? 0
      .opacity = some p ∧ p.duration.isNaN = true) ∧
    ∃ p, ((Stage.ofLayers [.ofValues .empty]).animate 0 (loneFade (1.0 / 0.0))).1.playing? 0
      .opacity = some p ∧ ¬ p.begin + p.duration ≤ 0.0 ∧
      ((Stage.ofLayers [.ofValues .empty]).run
        [.animate 0 (loneFade (1.0 / 0.0)), .advanceTo 0.0]).playing? 0 .opacity = none := by
  refine ⟨⟨_, rfl, by decide +kernel⟩, _, rfl, by decide +kernel, ?_⟩
  exact Option.isNone_iff_eq_none.mp (by decide +kernel)

end PlainStage

end LayerAnimation
