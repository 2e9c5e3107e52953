import LayerAnimation.Proofs.Course
import LayerAnimation.Proofs.Layers
import Mathlib.Logic.Relation

/-!
# Clocks of layers follow the clock of the stage

A stage follows the layers that are watched or attached to, and moves their clocks with its own.  It
can only do so while a layer is not in use; and callers act between any two moves of the clock, some
of them inside tasks, where they may call the clock again.

- A `Moment` is a stage with those who act on it, and with the layers that were ever tended to:
  watched, or attached to.  `Step` is one step from a moment to another.
- `Stage.KeepsClocks` is all that a caller may do otherwise: whatever leaves the clocks alone.
- `Stage.Attends` is the invariant of all steps: no follower stands twice, and layers that were
  tended to are followed as long as they are alive.
- `Stage.InTime` says that they show the time of the stage.  A synchronisation brings it about for
  the layers that are not in use (`Stage.Attends.clock_sync`), and steps keep it as long as nobody
  uses a layer at the wrong moment (`Calm`).
- `Moment.clocks_follow` puts both together, and `Stage.Tours` says that the operations of a stage
  are made of such steps, the loops of its clock too (`Stage.clockClosed_tours`).

Moments are finer than the scenes of a course.  When a job starts, the clocks of layers have just
been moved and what the job does has not happened yet, and it is then that they have to show the
time; so the start of a job and what becomes of it are two steps here.  And what callers do to a
layer besides is not spelled out: any change is a step that leaves the clocks alone.
-/

namespace LayerAnimation

variable {α κ σ ρ : Type}

namespace Stage

/-! ## §1 Where clocks are left alone -/

/-- Neither the clock of the stage nor its followers nor the clock of any layer was changed; layers
may have been made, used, changed otherwise or given up, and jobs put into the queue or taken out of
it. -/
structure KeepsClocks (s s' : Stage α κ σ) : Prop where
  now : s'.now = s.now
  followed : s'.followed = s.followed
  /-- The name of a layer is never given to another one. -/
  places : s.layers.length ≤ s'.layers.length
  clocks : ∀ id < s.layers.length, ∀ cell', s'.cell? id = some cell' →
    ∃ cell, s.cell? id = some cell ∧ cell'.layer.clock = cell.layer.clock

variable {s s' s'' : Stage α κ σ}

theorem KeepsClocks.of_layers (layers : s'.layers = s.layers) (now : s'.now = s.now)
    (followed : s'.followed = s.followed) : KeepsClocks s s' where
  now := now
  followed := followed
  places := by rw [layers]
  clocks := by
    intro id _ cell' hcell'
    rw [cell?, layers] at hcell'
    exact ⟨cell', hcell', rfl⟩

theorem KeepsClocks.trans (h₁ : KeepsClocks s s') (h₂ : KeepsClocks s' s'') : KeepsClocks s s'' where
  now := h₂.now.trans h₁.now
  followed := h₂.followed.trans h₁.followed
  places := Nat.le_trans h₁.places h₂.places
  clocks := by
    intro id hid cell'' hcell''
    obtain ⟨cell', hcell', hclock'⟩ := h₂.clocks id (Nat.lt_of_lt_of_le hid h₁.places) cell'' hcell''
    obtain ⟨cell, hcell, hclock⟩ := h₁.clocks id hid cell' hcell'
    exact ⟨cell, hcell, hclock'.trans hclock⟩

theorem keepsClocks_modifyCell (s : Stage α κ σ) (id : LayerId) {f : Cell α → Option (Cell α)}
    (same : ∀ cell cell', s.cell? id = some cell → f cell = some cell' →
      cell'.layer.clock = cell.layer.clock) : KeepsClocks s (s.modifyCell id f) where
  now := rfl
  followed := rfl
  places := Nat.le_of_eq (List.length_modify _ _ _).symm
  clocks := by
    intro j _ cell' hcell'
    rw [cell?_modifyCell] at hcell'
    split at hcell'
    · next hid =>
      subst hid
      obtain ⟨cell, hcell, hsome⟩ := Option.bind_eq_some_iff.mp hcell'
      exact ⟨cell, hcell, same cell cell' hcell hsome⟩
    · exact ⟨cell', hcell', rfl⟩

theorem keepsClocks_setLayer (s : Stage α κ σ) (id : LayerId) {l : Layer α}
    (same : ∀ cell, s.cell? id = some cell → l.clock = cell.layer.clock) :
    KeepsClocks s (s.setLayer id l) := by
  refine keepsClocks_modifyCell s id fun cell cell' hcell hsome => ?_
  cases hsome
  exact same cell hcell

theorem keepsClocks_setHold (s : Stage α κ σ) (id : LayerId) (hold : Hold) :
    KeepsClocks s (s.setHold id hold) := by
  refine keepsClocks_modifyCell s id fun cell cell' _ hsome => ?_
  split at hsome <;> cases hsome
  rfl

theorem keepsClocks_dropLayer (s : Stage α κ σ) (id : LayerId) : KeepsClocks s (s.dropLayer id) := by
  refine keepsClocks_modifyCell s id fun cell cell' _ hsome => ?_
  split at hsome <;> cases hsome
  rfl

theorem keepsClocks_addLayer (s : Stage α κ σ) (l : Layer α) : KeepsClocks s (s.addLayer l).1 where
  now := rfl
  followed := rfl
  places := by simp [addLayer]
  clocks := by
    intro id hid cell' hcell'
    -- The new layer has a place of its own behind all others.
    have hsame : (s.addLayer l).1.cell? id = s.cell? id := by
      simp only [cell?, addLayer, List.getElem?_append_left hid]
    rw [hsame] at hcell'
    exact ⟨cell', hcell', rfl⟩

/-- A commit leaves the clock of its layer alone. -/
theorem keepsClocks_fire (s : Stage α κ σ) (c : Completion α) (ending : Ending) :
    KeepsClocks s (s.fire c ending).1 := by
  unfold fire
  split
  · exact .of_layers rfl rfl rfl
  · next cell hcell =>
    split
    · refine keepsClocks_setLayer s c.layer fun cell' hcell' => ?_
      obtain rfl := Option.some.inj (hcell.symm.trans hcell')
      exact Layer.clock_commitTracks c.id _ cell.layer
    · exact .of_layers rfl rfl rfl

variable [Scalar α]

theorem keepsClocks_enqueue (s : Stage α κ σ) (after : α) (job : Job α κ) :
    KeepsClocks s (s.enqueue after job) :=
  .of_layers rfl rfl rfl

theorem keepsClocks_interrupt (s : Stage α κ σ) (id : AnimationId) :
    KeepsClocks s (s.interrupt id).1 := by
  have hcancel : KeepsClocks s (s.cancel id) := .of_layers rfl rfl rfl
  rcases interrupt_cases s id with ⟨-, hsame⟩ | ⟨u, c, -, -, ⟨n, hfired⟩ | ⟨-, hheld⟩, -⟩
  · rw [hsame]
    exact .of_layers rfl rfl rfl
  · have hfire := keepsClocks_fire (s.cancel id) c .interrupted
    rw [hfired] at hfire
    exact hcancel.trans hfire
  · rw [hheld]
    exact hcancel.trans (keepsClocks_enqueue _ _ _)

end Stage

/-! ## §2 Moments and steps -/

/-- Who acts next. -/
inductive Actor (α : Type) where
  | caller
  | clock
  /-- The clock, which has started this completion. -/
  | firing (c : Completion α)

/-- A moment in the life of a stage. -/
structure Moment (α κ σ : Type) where
  stage : Stage α κ σ
  actor : Actor α
  /-- The advances in progress, the innermost first. -/
  passages : List (Passage α)
  /-- The layers that were ever watched or attached to. -/
  tended : List LayerId

/-- What a step was. -/
inductive Deed where
  /-- A layer was watched. -/
  | watched (id : LayerId)
  /-- The clock started a job. -/
  | started
  /-- An advance returned. -/
  | arrived
  | other
  deriving DecidableEq

/-- After these steps all followers have just been synchronised. -/
def Deed.Syncs (d : Deed) : Prop :=
  d ≠ .other

instance (d : Deed) : Decidable d.Syncs :=
  inferInstanceAs (Decidable (d ≠ .other))

/-- Who acts when a job starts: a task is a caller. -/
def Timer.actor (u : Timer α κ) : Actor α :=
  match u.job with
  | .completion c => .firing c
  | _ => .caller

/-- A stage without layers and jobs, on which nothing has happened yet. -/
def Moment.opening [Scalar α] (desk : σ) : Moment α κ σ :=
  ⟨.empty desk, .caller, [], []⟩

variable [Scalar α]

/-- One step from a moment to another. -/
inductive Moment.Step : Moment α κ σ → Deed → Moment α κ σ → Prop where
  /-- A caller does anything that leaves the clocks alone. -/
  | handle {s s' : Stage α κ σ} {ps ids} (kept : s.KeepsClocks s') :
      Step ⟨s, .caller, ps, ids⟩ .other ⟨s', .caller, ps, ids⟩
  /-- A caller lets the stage watch a layer. -/
  | watch {s : Stage α κ σ} {ps ids id} (alive : s.isAlive id = true) :
      Step ⟨s, .caller, ps, ids⟩ (.watched id) ⟨s.watch id, .caller, ps, id :: ids⟩
  /-- A caller attaches an animation to a layer. -/
  | attach {s s' : Stage α κ σ} {ps ids id a n} (attached : s.animate id a = (s', some n)) :
      Step ⟨s, .caller, ps, ids⟩ .other ⟨s', .caller, ps, id :: ids⟩
  /-- A caller calls the clock. -/
  | call {s ps ids} (t : α) : Step ⟨s, .caller, ps, ids⟩ .other ⟨s, .clock, ⟨t, []⟩ :: ps, ids⟩
  /-- A task returns to the advance that started it. -/
  | finish {s p ps ids} : Step ⟨s, .caller, p :: ps, ids⟩ .other ⟨s, .clock, p :: ps, ids⟩
  /-- The clock takes the first due job and starts it. -/
  | take {s r : Stage α κ σ} {t cs ps ids u} (popped : s.popDue t = some (u, r)) :
      Step ⟨s, .clock, ⟨t, cs⟩ :: ps, ids⟩ .started
        ⟨(r.moveClock u.due).sync, u.actor, ⟨t, cs⟩ :: ps, ids⟩
  /-- A completion that was started goes through. -/
  | commit {s s' : Stage α κ σ} {c n p ps ids} (fired : s.fire c .finished = (s', .ok n)) :
      Step ⟨s, .firing c, p :: ps, ids⟩ .other ⟨s', .clock, p :: ps, ids⟩
  /-- A completion that was started is handed back, and set aside. -/
  | refuse {s s' : Stage α κ σ} {c d t cs ps ids} (fired : s.fire c .finished = (s', .error d)) :
      Step ⟨s, .firing c, ⟨t, cs⟩ :: ps, ids⟩ .other ⟨s', .clock, ⟨t, cs ++ [d]⟩ :: ps, ids⟩
  /-- The clock arrives, registers again what was set aside, and returns to its caller. -/
  | arrive {s : Stage α κ σ} {t cs ps ids} (idle : s.popDue t = none) :
      Step ⟨s, .clock, ⟨t, cs⟩ :: ps, ids⟩ .arrived
        ⟨((s.moveClock t).requeue cs).sync, .caller, ps, ids⟩

/-- A step at the right moment: no layer is in use while the clock moves, and a layer that is watched
is not in use. -/
structure Calm (x : Moment α κ σ) (d : Deed) (y : Moment α κ σ) : Prop where
  moved : y.stage.now ≠ x.stage.now → x.stage.Unheld
  watched : ∀ id, d = .watched id → x.stage.hold? id = some .free

/-- One step of any kind. -/
def Moves (x y : Moment α κ σ) : Prop :=
  ∃ d, Moment.Step x d y

/-- One step at the right moment. -/
def MovesCalmly (x y : Moment α κ σ) : Prop :=
  ∃ d, Moment.Step x d y ∧ Calm x d y

namespace Stage

/-! ## §3 Who is followed -/

/-- No follower stands twice, and of the layers that were tended to all that are alive are
followed. -/
structure Attends (s : Stage α κ σ) (ids : List LayerId) : Prop where
  known : ∀ id ∈ ids, id < s.layers.length
  followed : ∀ id ∈ ids, s.isAlive id = true → id ∈ s.followed
  nodup : s.followed.Nodup

/-- The layers that were tended to show the time of the stage. -/
def InTime (s : Stage α κ σ) (ids : List LayerId) : Prop :=
  ∀ id ∈ ids, ∀ cell, s.cell? id = some cell → cell.layer.clock = s.now

/-- The layers that were tended to show the time of the stage unless they are in use, and no follower
is gone or stands twice. -/
structure UpToDate (s : Stage α κ σ) (ids : List LayerId) : Prop where
  clock : ∀ id ∈ ids, ∀ cell, s.cell? id = some cell → cell.hold = .free → cell.layer.clock = s.now
  alive : ∀ id ∈ s.followed, s.isAlive id = true
  nodup : s.followed.Nodup

variable {s s' r : Stage α κ σ} {ids : List LayerId} {id : LayerId}

omit [Scalar α] in
theorem isAlive_of_cell? {cell : Cell α} (found : s.cell? id = some cell) : s.isAlive id = true := by
  rw [isAlive, found]
  rfl

omit [Scalar α] in
theorem lt_length_of_isAlive (alive : s.isAlive id = true) : id < s.layers.length := by
  by_contra hle
  rw [isAlive, cell?, List.getElem?_eq_none (Nat.le_of_not_lt hle)] at alive
  cases alive

omit [Scalar α] in
theorem Attends.mono (h : s.Attends ids) (places : s.layers.length ≤ s'.layers.length)
    (alive : ∀ id < s.layers.length, s'.isAlive id = true → s.isAlive id = true)
    (followed : s'.followed = s.followed) : s'.Attends ids where
  known := fun id hid => Nat.lt_of_lt_of_le (h.known id hid) places
  followed := by
    intro id hid halive
    rw [followed]
    exact h.followed id hid (alive id (h.known id hid) halive)
  nodup := by
    rw [followed]
    exact h.nodup

omit [Scalar α] in
theorem Attends.of_layers (h : s.Attends ids) (layers : s'.layers = s.layers)
    (followed : s'.followed = s.followed) : s'.Attends ids := by
  refine h.mono (by rw [layers]) (fun id _ halive => ?_) followed
  rwa [isAlive, cell?, layers] at halive

omit [Scalar α] in
theorem Attends.keepsClocks (h : s.Attends ids) (kept : s.KeepsClocks s') : s'.Attends ids := by
  refine h.mono kept.places (fun id hid halive => ?_) kept.followed
  obtain ⟨cell', hcell'⟩ := Option.isSome_iff_exists.mp halive
  obtain ⟨cell, hcell, -⟩ := kept.clocks id hid cell' hcell'
  exact isAlive_of_cell? hcell

omit [Scalar α] in
theorem Attends.follow (h : s.Attends ids) (known : id < s.layers.length) :
    (s.follow id).Attends (id :: ids) := by
  have hplaces : (s.follow id).layers = s.layers := by
    unfold Stage.follow
    split <;> rfl
  refine ⟨?_, ?_, ?_⟩
  · rw [hplaces]
    exact List.forall_mem_cons.mpr ⟨known, h.known⟩
  · intro j hj halive
    rw [isAlive, cell?_follow] at halive
    rw [mem_followed_follow]
    rcases List.mem_cons.mp hj with rfl | hj
    · exact .inl rfl
    · exact .inr (h.followed j hj halive)
  · unfold Stage.follow
    split
    · exact h.nodup
    · next hnew =>
      refine List.nodup_append.mpr ⟨h.nodup, List.nodup_singleton id, ?_⟩
      intro j hj k hk
      rw [List.mem_singleton.mp hk]
      exact fun heq => hnew (heq ▸ hj)

omit [Scalar α] in
theorem Attends.sync (h : s.Attends ids) : s.sync.Attends ids where
  known := by
    intro id hid
    rw [Stage.sync, List.length_mapIdx]
    exact h.known id hid
  followed := by
    intro id hid halive
    rw [isAlive_sync] at halive
    exact List.mem_filter.mpr ⟨h.followed id hid halive, halive⟩
  nodup := h.nodup.filter _

omit [Scalar α] in
/-- After a synchronisation layers that were tended to and are not in use show the time. -/
theorem Attends.clock_sync (h : s.Attends ids) (tended : id ∈ ids) {cell : Cell α}
    (found : s.sync.cell? id = some cell) (free : cell.hold = .free) :
    cell.layer.clock = s.now := by
  have halive : s.isAlive id = true := by
    rw [← isAlive_sync]
    exact isAlive_of_cell? found
  rw [cell?_sync, if_pos (h.followed id tended halive)] at found
  obtain ⟨before, -, rfl⟩ := Option.map_eq_some_iff.mp found
  rw [Cell.hold_sync] at free
  rw [Cell.sync_of_free free]
  rfl

omit [Scalar α] in
theorem Attends.upToDate_sync (h : s.Attends ids) : s.sync.UpToDate ids where
  clock := fun _ hid _ hcell hfree => h.clock_sync hid hcell hfree
  alive := by
    intro id hid
    rw [isAlive_sync]
    exact (List.mem_filter.mp hid).2
  nodup := h.sync.nodup

/-! ## §4 Who shows the time -/

omit [Scalar α] in
/-- Where no layer is in use, a synchronisation leaves none behind. -/
theorem Attends.inTime_sync (h : s.Attends ids) (unheld : s.Unheld) : s.sync.InTime ids := by
  intro id hid cell hcell
  have hunheld : s.sync.Unheld := unheld.of_hold? (hold?_sync s)
  obtain ⟨cell', hcell', hfree⟩ := hunheld.exists_cell (isAlive_of_cell? hcell)
  obtain rfl := Option.some.inj (hcell.symm.trans hcell')
  exact h.clock_sync hid hcell hfree

omit [Scalar α] in
/-- A synchronisation moves no clock away from the time. -/
theorem InTime.sync (h : s.InTime ids) : s.sync.InTime ids := by
  intro id hid cell hcell
  rw [cell?_sync] at hcell
  split at hcell
  · obtain ⟨before, hbefore, rfl⟩ := Option.map_eq_some_iff.mp hcell
    by_cases hfree : before.hold = .free
    · rw [Cell.sync_of_free hfree]
      rfl
    · rw [Cell.sync_of_held hfree]
      exact h id hid before hbefore
  · exact h id hid cell hcell

omit [Scalar α] in
theorem InTime.keepsClocks (h : s.InTime ids) (attends : s.Attends ids)
    (kept : s.KeepsClocks s') : s'.InTime ids := by
  intro id hid cell' hcell'
  obtain ⟨cell, hcell, hclock⟩ := kept.clocks id (attends.known id hid) cell' hcell'
  rw [hclock, kept.now]
  exact h id hid cell hcell

omit [Scalar α] in
/-- The clock moves, and the followers with it. -/
theorem InTime.sync_of_moved (h : s.InTime ids) (attends : s.Attends ids)
    (layers : s'.layers = s.layers) (followed : s'.followed = s.followed)
    (moved : s'.now ≠ s.now → s.Unheld) : s'.sync.InTime ids := by
  have hcell : s'.cell? = s.cell? := by
    funext id
    rw [cell?, cell?, layers]
  -- If the clock stands, no one need be free: no layer was behind, and none is left behind.
  by_cases hnow : s'.now = s.now
  · have hinTime : s'.InTime ids := by
      intro id hid cell hfound
      rw [hcell] at hfound
      rw [hnow]
      exact h id hid cell hfound
    exact hinTime.sync
  · apply (attends.of_layers layers followed).inTime_sync
    apply (moved hnow).of_hold?
    funext id
    rw [hold?, hold?, hcell]

omit [Scalar α] in
theorem InTime.watch (h : s.InTime ids) (attends : s.Attends ids)
    (free : s.hold? id = some .free) : (s.watch id).InTime (id :: ids) := by
  have halive : s.isAlive id = true := by
    obtain ⟨cell, hcell, -⟩ := Option.map_eq_some_iff.mp free
    exact isAlive_of_cell? hcell
  have hnow : (s.follow id).now = s.now := now_follow s id
  have hfollow : (s.follow id).InTime ids := by
    intro j hj cell hcell
    rw [cell?_follow] at hcell
    rw [hnow]
    exact h j hj cell hcell
  intro j hj cell hcell
  -- The new layer is free, so the synchronisation reaches it; the others showed the time before.
  rcases List.mem_cons.mp hj with rfl | hj
  · apply (attends.follow (lt_length_of_isAlive halive)).clock_sync List.mem_cons_self hcell
    have hhold : (s.watch j).hold? j = some .free := by
      rw [Stage.watch, hold?_sync, hold?_follow, free]
    rw [hold?, hcell] at hhold
    exact Option.some.inj hhold
  · exact hfollow.sync j hj cell hcell

/-! ## §5 Attachments -/

/-- An animation that is attached was attached to a layer that was free. -/
theorem animate_of_some {a : Animation α} {n : AnimationId} (attached : s.animate id a = (s', some n)) :
    ∃ l, s.writable? id = some l ∧
      s' = (s.drawId.setLayer id (l.attach s.nextId s.now a).1).enqueueCompletion
        (completionDelay a) ⟨id, s.nextId, (l.attach s.nextId s.now a).2⟩ := by
  cases hwritable : s.writable? id with
  | none =>
    rw [animate_of_not_writable? hwritable] at attached
    cases attached
  | some l =>
    rw [animate_of_writable? hwritable] at attached
    obtain ⟨rfl, -⟩ := Prod.mk.inj attached
    exact ⟨l, rfl, rfl⟩

theorem Attends.attach {a : Animation α} {n : AnimationId} (h : s.Attends ids)
    (attached : s.animate id a = (s', some n)) : s'.Attends (id :: ids) := by
  obtain ⟨l, hwritable, rfl⟩ := animate_of_some attached
  obtain ⟨cell, hcell, -, -⟩ := writable?_eq_some_iff.mp hwritable
  -- The layer is in its place with another state, and then it is followed.
  have hset : (s.drawId.setLayer id (l.attach s.nextId s.now a).1).Attends ids := by
    refine h.mono (Nat.le_of_eq (List.length_modify _ _ _).symm) (fun j _ halive => ?_) rfl
    rwa [isAlive_of_hold? (hold?_setLayer s.drawId id _)] at halive
  have hknown : id < (s.drawId.setLayer id (l.attach s.nextId s.now a).1).layers.length := by
    rw [setLayer, modifyCell, List.length_modify]
    exact lt_length_of_isAlive (isAlive_of_cell? hcell)
  exact (hset.follow hknown).keepsClocks (keepsClocks_enqueue _ _ _)

theorem InTime.attach {a : Animation α} {n : AnimationId} (h : s.InTime ids)
    (attached : s.animate id a = (s', some n)) : s'.InTime (id :: ids) := by
  obtain ⟨l, -, rfl⟩ := animate_of_some attached
  have hnow : ((s.drawId.setLayer id (l.attach s.nextId s.now a).1).enqueueCompletion
      (completionDelay a) ⟨id, s.nextId, (l.attach s.nextId s.now a).2⟩).now = s.now :=
    now_follow _ id
  intro j hj cell hcell
  rw [enqueueCompletion, cell?_enqueue, cell?_follow, cell?_setLayer, cell?_drawId] at hcell
  rw [hnow]
  split at hcell
  · obtain ⟨before, -, rfl⟩ := Option.map_eq_some_iff.mp hcell
    exact Layer.clock_attach l s.nextId s.now a
  · next hother =>
    have hj : j ∈ ids := (List.mem_cons.mp hj).resolve_left (Ne.symm hother)
    exact h j hj cell hcell

end Stage

/-! ## §6 Every step -/

open Stage

namespace Moment.Step

variable {x y : Moment α κ σ} {d : Deed}

/-- Every step keeps the followers in order. -/
theorem attends (step : Step x d y) (h : x.stage.Attends x.tended) : y.stage.Attends y.tended := by
  -- Watching and attaching add a follower, and where the clock moves those that are gone are
  -- dropped; nothing else touches the followers.
  cases step with
  | handle kept => exact h.keepsClocks kept
  | watch alive => exact (h.follow (lt_length_of_isAlive alive)).sync
  | attach attached => exact h.attach attached
  | call | finish => exact h
  | take popped =>
    obtain ⟨us, -, -, rfl⟩ := popDue_eq_some_iff.mp popped
    apply Attends.sync
    exact h.of_layers rfl rfl
  | @commit s s' c n p ps ids fired | @refuse s s' c n t cs ps ids fired =>
    have hfire := keepsClocks_fire s c .finished
    rw [fired] at hfire
    exact h.keepsClocks hfire
  | @arrive s t cs ps ids idle =>
    obtain ⟨seq, timers, hrequeue⟩ := exists_requeue_eq (s.moveClock t) cs
    rw [hrequeue]
    apply Attends.sync
    exact h.of_layers rfl rfl

/-- After a call of the clock, after a layer was watched and when a job starts, a synchronisation has
just been made. -/
theorem exists_sync (step : Step x d y) (h : x.stage.Attends x.tended) (syncs : d.Syncs) :
    ∃ r : Stage α κ σ, r.Attends y.tended ∧ y.stage = r.sync := by
  cases step with
  | handle | attach | call | finish | commit | refuse => exact absurd rfl syncs
  | watch alive => exact ⟨_, h.follow (lt_length_of_isAlive alive), rfl⟩
  | take popped =>
    obtain ⟨us, -, -, rfl⟩ := popDue_eq_some_iff.mp popped
    refine ⟨_, ?_, rfl⟩
    exact h.of_layers rfl rfl
  | @arrive s t cs ps ids idle =>
    obtain ⟨seq, timers, hrequeue⟩ := exists_requeue_eq (s.moveClock t) cs
    refine ⟨_, ?_, rfl⟩
    rw [hrequeue]
    exact h.of_layers rfl rfl

/-- A step at the right moment leaves no layer behind. -/
theorem inTime (step : Step x d y) (calm : Calm x d y) (attends : x.stage.Attends x.tended)
    (h : x.stage.InTime x.tended) : y.stage.InTime y.tended := by
  -- Whatever moves the clock brings all followers up to its moment, because no layer is in use
  -- then.
  cases step with
  | handle kept => exact h.keepsClocks attends kept
  | watch alive => exact h.watch attends (calm.watched _ rfl)
  | attach attached => exact h.attach attached
  | call | finish => exact h
  | take popped =>
    obtain ⟨us, -, -, rfl⟩ := popDue_eq_some_iff.mp popped
    exact h.sync_of_moved attends rfl rfl calm.moved
  | @commit s s' c n p ps ids fired | @refuse s s' c n t cs ps ids fired =>
    have hfire := keepsClocks_fire s c .finished
    rw [fired] at hfire
    exact h.keepsClocks attends hfire
  | @arrive s t cs ps ids idle =>
    have hmoved := calm.moved
    obtain ⟨seq, timers, hrequeue⟩ := exists_requeue_eq (s.moveClock t) cs
    rw [hrequeue] at hmoved ⊢
    exact h.sync_of_moved attends rfl rfl hmoved

end Moment.Step

/-! ## §7 The operations of a stage -/

namespace Stage

open Relation (ReflTransGen)

/-- A caller can lead from a stage to another in steps, whatever advances are in progress, and tends
to some layers on the way. -/
def Tours (s : Stage α κ σ) (new : List LayerId) (s' : Stage α κ σ) : Prop :=
  ∀ ps ids, ReflTransGen Moves ⟨s, .caller, ps, ids⟩ ⟨s', .caller, ps, new ++ ids⟩

variable {s s' s'' r : Stage α κ σ} {id : LayerId}

theorem Tours.trans {new new' : List LayerId} (h₁ : Tours s new s') (h₂ : Tours s' new' s'') :
    Tours s (new' ++ new) s'' := by
  intro ps ids
  rw [List.append_assoc]
  exact (h₁ ps ids).trans (h₂ ps (new ++ ids))

theorem KeepsClocks.tours (h : KeepsClocks s s') : Tours s [] s' :=
  fun _ _ => .single ⟨_, .handle h⟩

theorem tours_watch (alive : s.isAlive id = true) : Tours s [id] (s.watch id) :=
  fun _ _ => .single ⟨_, .watch alive⟩

/-- Starting an animation tends to its layer, unless it is refused. -/
theorem tours_animate (id : LayerId) (a : Animation α) :
    Tours s ((s.animate id a).2.map fun _ => id).toList (s.animate id a).1 := by
  cases hwritable : s.writable? id with
  | none =>
    have hkept : KeepsClocks s s.drawId := .of_layers rfl rfl rfl
    rw [animate_of_not_writable? hwritable]
    exact hkept.tours
  | some l =>
    have hanimate := animate_of_writable? hwritable a
    rw [hanimate]
    exact fun _ _ => .single ⟨_, .attach hanimate⟩

theorem tours_perform (id : LayerId) (intents : List (Intent α)) (duration : α) (easing : Easing α) :
    Tours s ((s.perform id intents duration easing).2.map fun _ => id).toList
      (s.perform id intents duration easing).1 := by
  unfold perform
  cases s.readable? id with
  | none => exact fun _ _ => .refl
  | some l => exact tours_animate id _

theorem tours_schedule (id : LayerId) (intents : List (Intent α)) (o : Options α) :
    Tours s [] (s.schedule id intents o) :=
  (keepsClocks_enqueue _ _ _).tours

theorem tours_motion (id : LayerId) (intents : List (Intent α)) (o : Options α) :
    Tours s ((s.motion id intents o).2.map fun _ => id).toList (s.motion id intents o).1 := by
  unfold motion
  split
  · exact tours_schedule id intents o.repaired
  · exact tours_perform id intents _ _

theorem tours_interrupt (id : AnimationId) : Tours s [] (s.interrupt id).1 :=
  (keepsClocks_interrupt s id).tours

section Loops

variable {exec : κ → Stage α κ σ → Stage α κ σ × ρ} {cost : κ → Nat} {bound : Nat}

/-- Routines are made of steps, as long as they weigh no more than a bound together with what
waits. -/
def RoutinesTour (exec : κ → Stage α κ σ → Stage α κ σ × ρ) (cost : κ → Nat) (bound : Nat) : Prop :=
  ∀ k s, cost k + s.load cost ≤ bound → ∃ new, Tours s new (exec k s).1

/-- Within an advance to a moment the clock can lead from a stage to another in steps, whatever was
refused before, and these completions are refused meanwhile. -/
def ToursWithin (t : α) (s : Stage α κ σ) (refused : List (Completion α)) (s' : Stage α κ σ) :
    Prop :=
  ∃ new, ∀ before ps ids, ReflTransGen Moves ⟨s, .clock, ⟨t, before⟩ :: ps, ids⟩
    ⟨s', .clock, ⟨t, before ++ refused⟩ :: ps, new ++ ids⟩

variable {t : α} {u : Timer α κ} {c : Completion α} {cs cs' : List (Completion α)}

theorem ToursWithin.refl : ToursWithin t s [] s := by
  refine ⟨[], fun before ps ids => ?_⟩
  rw [List.append_nil]
  exact .refl

theorem ToursWithin.trans (h₁ : ToursWithin t s cs s') (h₂ : ToursWithin t s' cs' s'') :
    ToursWithin t s (cs ++ cs') s'' := by
  obtain ⟨new, hfirst⟩ := h₁
  obtain ⟨more, hothers⟩ := h₂
  refine ⟨more ++ new, fun before ps ids => ?_⟩
  have hall := (hfirst before ps ids).trans (hothers (before ++ cs) ps (new ++ ids))
  rwa [← List.append_assoc before, List.append_assoc more]

/-- The clock takes a job, and then whoever it has started acts. -/
theorem moves_take (popped : s.popDue t = some (u, r)) (before : List (Completion α))
    (ps : List (Passage α)) (ids : List LayerId) :
    Moves ⟨s, .clock, ⟨t, before⟩ :: ps, ids⟩
      ⟨(r.moveClock u.due).sync, u.actor, ⟨t, before⟩ :: ps, ids⟩ :=
  ⟨_, .take popped⟩

/-- A task that is started acts as a caller and returns. -/
theorem toursWithin_task {new : List LayerId} (popped : s.popDue t = some (u, r))
    (isTask : u.completion? = none) (acted : Tours (r.moveClock u.due).sync new s') :
    ToursWithin t s [] s' := by
  have hcaller : u.actor = .caller := by
    unfold Timer.actor
    split
    · next c hjob => rw [Timer.completion?_eq_some_iff.mpr hjob] at isTask; cases isTask
    · rfl
  refine ⟨new, fun before ps ids => ?_⟩
  have htake := moves_take popped before ps ids
  rw [hcaller] at htake
  rw [List.append_nil]
  exact ((ReflTransGen.single htake).trans (acted _ ids)).tail ⟨_, .finish⟩

omit [Scalar α] in
theorem actor_of_completion (isCompletion : u.completion? = some c) : u.actor = .firing c := by
  rw [Timer.actor, Timer.completion?_eq_some_iff.mp isCompletion]

/-- A completion that is started goes through. -/
theorem toursWithin_commit {n : Nat} (popped : s.popDue t = some (u, r))
    (isCompletion : u.completion? = some c)
    (fired : (r.moveClock u.due).sync.fire c .finished = (s', .ok n)) :
    ToursWithin t s [] s' := by
  refine ⟨[], fun before ps ids => ?_⟩
  have htake := moves_take popped before ps ids
  rw [actor_of_completion isCompletion] at htake
  rw [List.append_nil]
  exact (ReflTransGen.single htake).tail ⟨_, .commit fired⟩

/-- A completion that is started is set aside. -/
theorem toursWithin_refuse (popped : s.popDue t = some (u, r))
    (isCompletion : u.completion? = some c)
    (fired : (r.moveClock u.due).sync.fire c .finished = (s', .error c)) :
    ToursWithin t s [c] s' := by
  refine ⟨[], fun before ps ids => ?_⟩
  have htake := moves_take popped before ps ids
  rw [actor_of_completion isCompletion] at htake
  exact (ReflTransGen.single htake).tail ⟨_, .refuse fired⟩

/-- The last step of an advance is the one in which the clock arrives. -/
theorem ToursWithin.exists_arrived (run : ToursWithin t s cs s') (idle : s'.popDue t = none) :
    ∃ new, ∀ ps ids, ∃ x, ReflTransGen Moves ⟨s, .caller, ps, ids⟩ x ∧
      Moment.Step x .arrived ⟨((s'.moveClock t).requeue cs).sync, .caller, ps, new ++ ids⟩ := by
  obtain ⟨new, hrun⟩ := run
  refine ⟨new, fun ps ids => ?_⟩
  have hcall : Moves ⟨s, .caller, ps, ids⟩ ⟨s, .clock, ⟨t, []⟩ :: ps, ids⟩ := ⟨_, .call t⟩
  exact ⟨_, (ReflTransGen.single hcall).trans (hrun [] ps ids), .arrive idle⟩

theorem ToursWithin.arrive (run : ToursWithin t s cs s') (idle : s'.popDue t = none) :
    ∃ new, Tours s new ((s'.moveClock t).requeue cs).sync := by
  obtain ⟨new, harrived⟩ := run.exists_arrived idle
  refine ⟨new, fun ps ids => ?_⟩
  obtain ⟨x, hrun, hlast⟩ := harrived ps ids
  exact hrun.tail ⟨_, hlast⟩

/-- Runs of steps are closed under what the clock does.  Which jobs are started does not matter to
them. -/
theorem clockClosed_tours :
    ClockClosed (fun (s : Stage α κ σ) _ s' => ∃ new, Tours s new s')
      fun t s _ cs s' => ToursWithin t s cs s' where
  rest _ := ⟨[], fun _ _ => .refl⟩
  trans := by
    rintro s s' s'' l l' ⟨new, hfirst⟩ ⟨more, hothers⟩
    exact ⟨more ++ new, hfirst.trans hothers⟩
  perform _ id intents duration easing := ⟨_, tours_perform id intents duration easing⟩
  stay _ _ := .refl
  append := .trans
  task := by
    rintro t s r s' u l popped isTask ⟨new, acted⟩
    exact toursWithin_task popped isTask acted
  commit := toursWithin_commit
  refuse := toursWithin_refuse
  arrive := ToursWithin.arrive

/-- An advance ends with the step in which the clock arrives. -/
theorem exists_arrived (hcost : KeepsCost exec cost) (hexec : RoutinesTour exec cost bound) (t : α)
    {fuel : Nat} (s : Stage α κ σ) (enough : s.load cost ≤ bound) (hfuel : s.load cost ≤ fuel) :
    ∃ new, ∀ ps ids, ∃ x, ReflTransGen Moves ⟨s, .caller, ps, ids⟩ x ∧
      Moment.Step x .arrived ⟨(advanceWithin exec fuel t s).1, .caller, ps, new ++ ids⟩ :=
  (clockClosed_tours.startDue (fun _ => []) hexec hcost t fuel s enough).exists_arrived
    (hcost.popDue_startDue t fuel s hfuel)

theorem tours_advanceWithin (hcost : KeepsCost exec cost) (hexec : RoutinesTour exec cost bound)
    (t : α) {fuel : Nat} (s : Stage α κ σ) (enough : s.load cost ≤ bound)
    (hfuel : s.load cost ≤ fuel) : ∃ new, Tours s new (advanceWithin exec fuel t s).1 :=
  clockClosed_tours.advanceWithin (fun _ => []) hexec hcost t enough hfuel

/-- Settling is made of advances. -/
theorem tours_settleWithin (hcost : KeepsCost exec cost) (hexec : RoutinesTour exec cost bound)
    {fuel : Nat} (rounds : Nat) (s : Stage α κ σ) (enough : s.load cost ≤ bound)
    (hfuel : s.load cost ≤ fuel) : ∃ new, Tours s new (settleWithin exec fuel rounds s).1 :=
  clockClosed_tours.settleWithin (fun _ => []) hexec hcost rounds enough hfuel

end Loops

end Stage

/-! ## §8 The statement -/

namespace Moment

open Relation (ReflTransGen)

variable {desk : σ} {x : Moment α κ σ}

theorem attends_opening (desk : σ) : (opening desk : Moment α κ σ).stage.Attends [] :=
  ⟨fun _ h => absurd h List.not_mem_nil, fun _ h => absurd h List.not_mem_nil, List.nodup_nil⟩

theorem attends_of_moves (run : ReflTransGen Moves (opening desk) x) :
    x.stage.Attends x.tended := by
  induction run with
  | refl => exact attends_opening desk
  | tail _ last ih =>
    obtain ⟨d, step⟩ := last
    exact step.attends ih

omit [Scalar α] in
/-- A step in which the clock stands comes at the right moment. -/
theorem calm_of_now_eq {y : Moment α κ σ} (same : y.stage.now = x.stage.now) : Calm x .other y where
  moved := fun moved => absurd same moved
  watched := by
    intro id hid
    cases hid

theorem moves_of_calm (run : ReflTransGen MovesCalmly (opening desk) x) :
    ReflTransGen Moves (opening desk) x := by
  induction run with
  | refl => exact .refl
  | tail _ last ih =>
    obtain ⟨d, step, -⟩ := last
    exact ih.tail ⟨d, step⟩

theorem inTime_of_calm (run : ReflTransGen MovesCalmly (opening desk) x) :
    x.stage.InTime x.tended := by
  induction run with
  | refl => exact fun _ h => absurd h List.not_mem_nil
  | tail run last ih =>
    obtain ⟨d, step, calm⟩ := last
    exact step.inTime calm (attends_of_moves (moves_of_calm run)) ih

/-- After a call of the clock, after a layer was watched and when a job starts, a stage is up to
date. -/
theorem upToDate_of_syncs {y : Moment α κ σ} {d : Deed} (run : ReflTransGen Moves (opening desk) x)
    (step : Step x d y) (syncs : d.Syncs) : y.stage.UpToDate y.tended := by
  obtain ⟨r, hr, hsync⟩ := step.exists_sync (attends_of_moves run) syncs
  rw [hsync]
  exact hr.upToDate_sync

/-- Wherever a stage comes to, whatever its callers do but move the clocks of layers themselves, no
follower stands twice; and after every call of the clock, whenever a layer was watched and whenever a
job starts, the stage is up to date with all layers that were ever watched or attached to.  If no
layer is ever in use while the clock moves or while it is being watched, all these layers show the
time of the stage throughout.  An advance through tasks that act in this way is such a call. -/
theorem clocks_follow (desk : σ) :
    (∀ x : Moment α κ σ, ReflTransGen Moves (opening desk) x →
      x.stage.followed.Nodup ∧
      ∀ d y, Step x d y → d.Syncs → y.stage.UpToDate y.tended) ∧
    (∀ x : Moment α κ σ, ReflTransGen MovesCalmly (opening desk) x → x.stage.InTime x.tended) ∧
    ∀ (exec : κ → Stage α κ σ → Stage α κ σ × ρ) (cost : κ → Nat) (bound : Nat),
      KeepsCost exec cost → RoutinesTour exec cost bound →
      ∀ s ps ids, ReflTransGen Moves (opening desk) ⟨s, .caller, ps, ids⟩ →
      s.load cost ≤ bound → ∀ t fuel, s.load cost ≤ fuel →
        ∃ new, ReflTransGen Moves (opening desk)
            ⟨(advanceWithin exec fuel t s).1, .caller, ps, new ++ ids⟩ ∧
          (advanceWithin exec fuel t s).1.UpToDate (new ++ ids) := by
  refine ⟨fun x run => ⟨(attends_of_moves run).nodup, fun d y => upToDate_of_syncs run⟩,
    fun x run => inTime_of_calm run,
    fun exec cost bound hcost hexec s ps ids run enough t fuel hfuel => ?_⟩
  obtain ⟨new, harrived⟩ := exists_arrived hcost hexec t s enough hfuel
  obtain ⟨x, hrun, hlast⟩ := harrived ps ids
  have hbefore := run.trans hrun
  exact ⟨new, hbefore.tail ⟨_, hlast⟩, upToDate_of_syncs hbefore hlast (by decide)⟩

/-- A stage with one layer, before anything else happens. -/
def bareLayer : Stage Float Unit Unit :=
  ((Stage.empty ()).addLayer (.ofValues .empty)).1

/-- The same stage when it watches the layer. -/
def watchedLayer : Stage Float Unit Unit :=
  bareLayer.watch 0

/-- A task that lets a layer fade and moves the clock on before it returns. -/
def fadeAhead (_ : Unit) (s : Stage Float Unit Unit) : Stage Float Unit Unit × Unit :=
  let fading := (s.perform 0 [.fade 0.0] 0.1 .linear).1
  (advanceWithin (fun _ s => (s, ())) (fading.load fun _ => 2) 0.5 fading).map id fun _ => ()

/-- A routine that does nothing is done. -/
theorem keepsCost_idle :
    KeepsCost (fun (_ : Unit) (s : Stage Float Unit Unit) => (s, ())) fun _ => 2 := by
  intro k s
  show s.load _ + 1 ≤ 2 + s.load _
  omega

theorem keepsCost_fadeAhead : KeepsCost fadeAhead fun _ => 2 := by
  intro k s
  have hfade := load_perform (fun _ => 2) s 0 [.fade 0.0] 0.1 .linear
  have hadvance := keepsCost_idle.load_advanceWithin
    ((s.perform 0 [.fade 0.0] 0.1 .linear).1.load fun _ => 2) 0.5
    (s.perform 0 [.fade 0.0] 0.1 .linear).1
  show (advanceWithin _ _ _ _).1.load _ + 1 ≤ 2 + _
  omega

theorem routinesTour_fadeAhead (bound : Nat) : RoutinesTour fadeAhead (fun _ => 2) bound := by
  intro k s _
  have hidle : RoutinesTour (fun (_ : Unit) (s : Stage Float Unit Unit) => (s, ())) (fun _ => 2)
      ((s.perform 0 [.fade 0.0] 0.1 .linear).1.load fun _ => 2) :=
    fun _ _ _ => ⟨[], fun _ _ => .refl⟩
  obtain ⟨new, hadvance⟩ := tours_advanceWithin keepsCost_idle hidle 0.5 _ Nat.le.refl Nat.le.refl
  exact ⟨_, (tours_perform 0 [.fade 0.0] 0.1 .linear).trans hadvance⟩

/-- The watched layer after an advance on which nothing happens. -/
def idledLayer : Stage Float Unit Unit :=
  ((watchedLayer.moveClock 1.0).requeue []).sync

/-- The watched layer after an advance on which a task lets it fade and calls the clock itself. -/
def fadedLayer : Stage Float Unit Unit :=
  (advanceWithin fadeAhead 2 1.0 (watchedLayer.enqueue 0.2 (.routine ()))).1

/-- The watched layer shows the time after either advance. -/
theorem clocks_follow_watchedLayer :
    (∃ cell, idledLayer.cell? 0 = some cell ∧ cell.layer.clock = idledLayer.now) ∧
    ∃ cell, fadedLayer.cell? 0 = some cell ∧ cell.layer.clock = fadedLayer.now := by
  have hfree : bareLayer.hold? 0 = some .free := by decide +kernel
  have hunheld : watchedLayer.Unheld := by decide +kernel
  -- The layer is made and watched, and the clock is called.
  have hadd : Step (opening ()) .other ⟨bareLayer, .caller, [], []⟩ :=
    .handle (keepsClocks_addLayer _ _)
  have hwatch : Step ⟨bareLayer, .caller, [], []⟩ (.watched 0) ⟨watchedLayer, .caller, [], [0]⟩ :=
    .watch (by decide +kernel)
  have hcall : Step ⟨watchedLayer, .caller, [], [0]⟩ .other
      ⟨watchedLayer, .clock, [⟨1.0, []⟩], [0]⟩ :=
    .call 1.0
  have harrive : Step ⟨watchedLayer, .clock, [⟨1.0, []⟩], [0]⟩ .arrived
      ⟨idledLayer, .caller, [], [0]⟩ :=
    .arrive rfl
  have henqueue : Tours watchedLayer [] (watchedLayer.enqueue 0.2 (.routine ())) :=
    (keepsClocks_enqueue _ _ _).tours
  obtain ⟨-, hcalm, hadvance⟩ := clocks_follow (κ := Unit) (σ := Unit) (ρ := Unit) (α := Float) ()
  constructor
  · have hadded : MovesCalmly (opening ()) ⟨bareLayer, .caller, [], []⟩ :=
      ⟨_, hadd, calm_of_now_eq rfl⟩
    have hwatched : MovesCalmly ⟨bareLayer, .caller, [], []⟩ ⟨watchedLayer, .caller, [], [0]⟩ := by
      refine ⟨_, hwatch, fun moved => absurd (now_follow bareLayer 0) moved, fun id hid => ?_⟩
      rw [← Deed.watched.inj hid, hfree]
    have hcalled : MovesCalmly ⟨watchedLayer, .caller, [], [0]⟩
        ⟨watchedLayer, .clock, [⟨1.0, []⟩], [0]⟩ :=
      ⟨_, hcall, calm_of_now_eq rfl⟩
    have harrived : MovesCalmly ⟨watchedLayer, .clock, [⟨1.0, []⟩], [0]⟩
        ⟨idledLayer, .caller, [], [0]⟩ := by
      refine ⟨_, harrive, fun _ => hunheld, fun id hid => ?_⟩
      cases hid
    have hidled : idledLayer.isAlive 0 = true := by decide +kernel
    obtain ⟨cell, hcell⟩ := Option.isSome_iff_exists.mp hidled
    have hinTime : idledLayer.InTime [0] :=
      hcalm _ ((((ReflTransGen.single hadded).tail hwatched).tail hcalled).tail harrived)
    exact ⟨cell, hcell, hinTime 0 List.mem_cons_self cell hcell⟩
  · have hfaded : fadedLayer.hold? 0 = some .free := by decide +kernel
    obtain ⟨cell, hcell, hcellFree⟩ := Option.map_eq_some_iff.mp hfaded
    obtain ⟨new, -, hdone⟩ := hadvance fadeAhead (fun _ => 2) 2 keepsCost_fadeAhead
      (routinesTour_fadeAhead 2) _ [] [0]
      (((ReflTransGen.single ⟨_, hadd⟩).tail ⟨_, hwatch⟩).trans (henqueue [] [0])) Nat.le.refl
      1.0 2 Nat.le.refl
    have htended : 0 ∈ new ++ [0] := List.mem_append_right new List.mem_cons_self
    exact ⟨cell, hcell, hdone.clock 0 htended cell hcell hcellFree⟩

end Moment

end LayerAnimation
