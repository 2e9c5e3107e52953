import LayerAnimation.Proofs.Attachments
import LayerAnimation.Proofs.Isolation

/-!
# Jobs of one moment

Jobs that are due at the same moment stand next to each other in the queue, and start one after the
other while the clock stands.  Nothing comes between them: what they register is due no earlier, and
the clocks of the layers have nothing to follow.

- `Timer.insertAll` puts timers of one due time among others; they stay together
  (`Timer.insertAll_of_lt`, `Timer.insertAll_append`).
- `Stage.InStep` says that the clocks of the followed layers show the time of the stage, so that they
  need not be moved (`Stage.InStep.sync_eq`).  Jobs that start keep it (`PlainStage.inStep_start`).
- `PlainStage.startAll` starts jobs in a row, and `PlainStage.runDue_of_row` says that the clock does
  so with the first jobs of the queue if they are due together.
-/

namespace LayerAnimation

open LawfulTime

variable {α κ σ : Type}

/-! ## §1 Timers of one due time -/

namespace Timer

variable [Scalar α] {vs front back : List (Timer α κ)} {d : α}

/-- Put some timers among others, one after the other. -/
def insertAll (vs us : List (Timer α κ)) : List (Timer α κ) :=
  vs.foldl (fun us v => v.insert us) us

/-- Behind timers that are due no later all of them go among the others. -/
theorem insertAll_append (h : ∀ v ∈ vs, ∀ u ∈ front, ¬ v.due < u.due) (back : List (Timer α κ)) :
    insertAll vs (front ++ back) = front ++ insertAll vs back := by
  induction vs generalizing back with
  | nil => rfl
  | cons v vs ih =>
    obtain ⟨hv, hvs⟩ := List.forall_mem_cons.mp h
    show insertAll vs (v.insert (front ++ back)) = front ++ insertAll vs (v.insert back)
    rw [insert_append_of_not_lt hv, ih hvs]

/-- Before timers the first of which is due later they stand as they are. -/
theorem insertAll_of_lt (irrefl : ¬ d < d) (dues : ∀ v ∈ vs, v.due = d)
    (later : ∀ u ∈ back.head?, d < u.due) : insertAll vs back = vs ++ back := by
  induction vs with
  | nil => rfl
  | cons v vs ih =>
    obtain ⟨hv, hvs⟩ := List.forall_mem_cons.mp dues
    -- The first one goes in front of all, and the others behind it, since they are due with it.
    have hfirst : v.insert back = [v] ++ back := by
      cases back with
      | nil => rfl
      | cons u us => exact if_pos (hv ▸ later u rfl)
    have hlast : ∀ w ∈ vs, ∀ u ∈ [v], ¬ w.due < u.due := by
      intro w hw u hu
      rw [List.mem_singleton.mp hu, hvs w hw, hv]
      exact irrefl
    show insertAll vs (v.insert back) = v :: (vs ++ back)
    rw [hfirst, insertAll_append hlast, ih hvs]
    rfl

end Timer

/-! ## §2 Clocks in step -/

namespace Stage

/-- Every follower is alive, and shows the time of the stage unless it is in use. -/
def InStep (s : Stage α κ σ) : Prop :=
  ∀ id ∈ s.followed, ∃ cell, s.cell? id = some cell ∧ (cell.hold = .free → cell.layer.clock = s.now)

variable {s s' : Stage α κ σ}

theorem inStep_sync (s : Stage α κ σ) : s.sync.InStep := by
  intro id hid
  -- Who is still followed afterwards is alive, and was followed before.
  obtain ⟨hfollowed, halive⟩ := List.mem_filter.mp hid
  obtain ⟨cell, hcell⟩ := Option.isSome_iff_exists.mp halive
  refine ⟨cell.sync s.now, by rw [cell?_sync, if_pos hfollowed, hcell]; rfl, fun hfree => ?_⟩
  rw [Cell.hold_sync] at hfree
  rw [Cell.sync_of_free hfree]
  rfl

/-- Where the clocks are in step there is nothing to move and no one to forget. -/
theorem InStep.sync_eq (h : s.InStep) : s.sync = s := by
  have hfollowed : s.followed.filter s.isAlive = s.followed := by
    refine List.filter_eq_self.mpr fun id hid => ?_
    obtain ⟨cell, hcell, -⟩ := h id hid
    rw [isAlive, hcell]
    rfl
  have hlayers : s.sync.layers = s.layers := by
    refine List.ext_getElem? fun id => ?_
    rw [getElem?_layers_sync]
    by_cases hid : id ∈ s.followed
    · obtain ⟨cell, hcell, hclock⟩ := h id hid
      have hplace : s.layers[id]? = some (some cell) := Option.join_eq_some_iff.mp hcell
      -- A free layer has the time already, and one in use is left alone.
      have hsync : cell.sync s.now = cell := by
        by_cases hfree : cell.hold = .free
        · rw [Cell.sync_of_free hfree, Layer.sync, ← hclock hfree]
        · exact Cell.sync_of_held hfree s.now
      rw [hplace, Option.map_some, if_pos hid, Option.map_some, hsync]
    · simp only [if_neg hid, Option.map_id']
  exact Eq.mpr (Stage.mk.injEq ..) ⟨hlayers, rfl, rfl, rfl, rfl, hfollowed, rfl⟩

/-- A commit moves no clock. -/
theorem InStep.fire (h : s.InStep) (c : Completion α) (ending : Ending) :
    (s.fire c ending).1.InStep := by
  unfold Stage.fire
  split
  · exact h
  · next cell hcell =>
    split
    · intro id hid
      obtain ⟨cell', hcell', hclock⟩ := h id hid
      rw [cell?_setLayer]
      split
      · next hlayer =>
        obtain rfl : cell = cell' := Option.some.inj (hcell.symm.trans (hlayer ▸ hcell'))
        refine ⟨_, by rw [hcell', Option.map_some], fun hfree => ?_⟩
        exact (Layer.clock_commitTracks c.id _ cell.layer).trans (hclock hfree)
      · exact ⟨cell', hcell', hclock⟩
    · exact h

variable [Scalar α]

/-- An animation that is attached now moves the clock of its layer to where it has to be. -/
theorem InStep.animate (h : s.InStep) (id : LayerId) (a : Animation α) :
    (s.animate id a).1.InStep := by
  cases hwritable : s.writable? id with
  | none =>
    rw [animate_of_not_writable? hwritable]
    exact h
  | some l =>
    obtain ⟨cell, hcell, -, -⟩ := writable?_eq_some_iff.mp hwritable
    rw [animate_of_writable? hwritable]
    intro j hj
    have hnow : ((s.drawId.setLayer id (l.attach s.nextId s.now a).1).enqueueCompletion
        (completionDelay a) ⟨id, s.nextId, (l.attach s.nextId s.now a).2⟩).now = s.now :=
      now_follow _ _
    rw [cell?_enqueueCompletion, cell?_setLayer, cell?_drawId, hnow]
    -- The layer itself got the time when the animation was attached; all others are as they were.
    by_cases hid : id = j
    · subst hid
      exact ⟨_, by rw [if_pos rfl, hcell, Option.map_some], fun _ => Layer.clock_attach _ _ _ _⟩
    · rw [if_neg hid]
      exact h j (((mem_followed_follow _ _).mp hj).resolve_left (Ne.symm hid))

theorem InStep.perform (h : s.InStep) (id : LayerId) (intents : List (Intent α)) (duration : α)
    (easing : Easing α) : (s.perform id intents duration easing).1.InStep := by
  unfold Stage.perform
  split
  · exact h
  · exact h.animate id _

/-- A clock that stands, with the layers in step, is where it is to be moved. -/
theorem InStep.sync_moveClock (h : s.InStep) [LawfulTime α] (proper : s.now ≤ s.now) :
    (s.moveClock s.now).sync = s := by
  have hmove : s.moveClock s.now = s := by rw [moveClock, larger_of_le proper]
  rw [hmove, h.sync_eq]

end Stage

/-! ## §3 Jobs in a row -/

namespace PlainStage

open Stage

variable [Scalar α] {s : PlainStage α} {t : α}

theorem inStep_start (h : s.InStep) (job : Job α Empty) : (start exec job s).1.InStep := by
  cases job with
  | completion c =>
    have hfire := h.fire c .finished
    unfold start
    dsimp only
    split <;> next e => rwa [e] at hfire
  | deferred d => exact h.perform _ _ _ _
  | routine r => exact r.elim

theorem now_start (job : Job α Empty) (s : PlainStage α) : (start exec job s).1.now = s.now := by
  cases job with
  | completion c =>
    have hfire := now_fire s c .finished
    unfold start
    dsimp only
    split <;> next e => rwa [e] at hfire
  | deferred d => exact now_perform _ _ _ _ _
  | routine r => exact r.elim

/-- Start the jobs of some timers one after the other, where the clock stands. -/
def startAll (s : PlainStage α) : List (Timer α Empty) → PlainStage α × List (Firing α Empty)
  | [] => (s, [])
  | v :: vs =>
      let first := start exec v.job s
      let others := startAll first.1 vs
      (others.1, ⟨v.due, v.seq, first.2⟩ :: others.2)

/-- In front of the queue others may wait that are due where the clock stands: what a job registers
goes behind them. -/
theorem start_of_waiting [LawfulTime α] (clock : 0.0 ≤ s.now) {vs : List (Timer α Empty)}
    (dues : ∀ v ∈ vs, v.due = s.now) (job : Job α Empty) :
    start exec job { s with timers := vs ++ s.timers }
      = ({ (start exec job s).1 with timers := vs ++ (start exec job s).1.timers },
        (start exec job s).2) := by
  -- A job does the same whatever waits, and registers at most one job more.
  obtain ⟨s', new, o, hstart⟩ := start_withQueue job s
  have hwith : start exec job { s with timers := vs ++ s.timers }
      = ((s'.withQueue s.seq (vs ++ s.timers)).register new, o) := hstart s.seq (vs ++ s.timers)
  have halone : start exec job s = ((s'.withQueue s.seq s.timers).register new, o) :=
    hstart s.seq s.timers
  rw [hwith, halone]
  cases new with
  | none => rfl
  | some new =>
    obtain ⟨after, job'⟩ := new
    have hnow : s'.now = s.now := by
      have hsame := now_start job s
      rwa [halone] at hsame
    -- Waiting leads nowhere before the clock, so the new job is due no earlier than those in front.
    have hbehind : ∀ v ∈ vs, ¬ s'.now + wait after < v.due := by
      intro v hv hlt
      have hle : s.now ≤ s.now + wait after := le_add clock (isFinite_wait after) (zero_le_wait after)
      rw [dues v hv, hnow] at hlt
      exact (lt_iff.mp hlt).2 hle
    have hinsert := Timer.insert_append_of_not_lt
      (t := ⟨s'.now + wait after, s.seq + 1, job'⟩) hbehind s.timers
    exact Prod.ext (congrArg (s'.withQueue (s.seq + 1)) hinsert) rfl

/-- Jobs that are due where the clock stands, and are the first to wait, start in a row, and then
what else is due. -/
theorem runDue_append [LawfulTime α] (inStep : s.InStep) (clock : 0.0 ≤ s.now) (le : s.now ≤ t)
    {vs : List (Timer α Empty)} (dues : ∀ v ∈ vs, v.due = s.now) :
    runDue { s with timers := vs ++ s.timers } t
      = (((s.startAll vs).1.runDue t).1, (s.startAll vs).2 ++ ((s.startAll vs).1.runDue t).2) := by
  induction vs generalizing s with
  | nil => rfl
  | cons v vs ih =>
    obtain ⟨hv, hvs⟩ := List.forall_mem_cons.mp dues
    have hpopped : popDue { s with timers := v :: vs ++ s.timers } t
        = some (v, { s with timers := vs ++ s.timers }) :=
      popDue_eq_some_iff.mpr ⟨vs ++ s.timers, rfl, hv ▸ le, rfl⟩
    -- The clock is where the first job wants it, and the layers are in step with it.
    have hclock : (moveClock { s with timers := vs ++ s.timers } v.due).sync
        = { s with timers := vs ++ s.timers } := by
      rw [hv]
      exact InStep.sync_moveClock (s := { s with timers := vs ++ s.timers }) inStep (le_right clock)
    have hnow : (start exec v.job s).1.now = s.now := now_start v.job s
    have hrest := ih (inStep_start inStep v.job) (hnow.symm ▸ clock) (hnow.symm ▸ le)
      (fun w hw => (hvs w hw).trans hnow.symm)
    rw [runDue_of_popDue hpopped, startTimer, hclock, start_of_waiting clock hvs, hrest]
    rfl

/-- If the first jobs of the queue are due together, the clock stops at that moment, starts them in a
row, and goes on. -/
theorem runDue_of_row [LawfulTime α] (h : s.Timely) {d : α} (le : d ≤ t) {v : Timer α Empty}
    {vs ws : List (Timer α Empty)} (queue : s.timers = v :: vs ++ ws)
    (dues : ∀ u ∈ v :: vs, u.due = d) :
    let stop : PlainStage α := (Stage.moveClock { s with timers := ws } d).sync
    s.runDue t = (((stop.startAll (v :: vs)).1.runDue t).1,
      (stop.startAll (v :: vs)).2 ++ ((stop.startAll (v :: vs)).1.runDue t).2) := by
  intro stop
  obtain rfl := dues v List.mem_cons_self
  have hfirst : v ∈ s.timers := by
    rw [queue]
    exact List.mem_cons_self
  have hnow : stop.now = v.due := larger_of_le (h.ahead v hfirst)
  have hpopped : s.popDue t = some (v, { s with timers := vs ++ ws }) :=
    popDue_eq_some_iff.mpr ⟨vs ++ ws, queue, le, rfl⟩
  have hstop : (s.moveClock v.due).sync = { stop with timers := v :: vs ++ ws } :=
    congrArg (fun us => { (s.moveClock v.due).sync with timers := us }) queue
  have hrow := runDue_append (s := stop) (inStep_sync _)
    (hnow.symm ▸ le_trans h.clock (h.ahead v hfirst)) (hnow.symm ▸ le)
    fun u hu => (dues u hu).trans hnow.symm
  -- A stop before the first job makes no difference, so the clock may as well make one there.
  rw [← runDue_moveClock h (fun u hu => h.le_of_popDue hpopped hu) hpopped, hstop]
  exact hrow

end PlainStage

end LayerAnimation
