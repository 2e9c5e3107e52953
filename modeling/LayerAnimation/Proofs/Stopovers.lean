import LayerAnimation.Proofs.Settling

/-!
# Stopovers of the clock

While no layer is in use a clock may be moved to a moment at once or in several steps; it makes no
difference to the stage.

- Every job starts at its own due time, so a stopover changes neither the order in which jobs start
  nor what they meet (`PlainStage.runDue_eq_append`).
- What a stopover leaves on layers and followers is overwritten by the next move of the clock
  (`Stage.sync_moveClock_sync`).
- `PlainStage.advanceTo_eq_append` puts both together, and `PlainStage.values_settle_of_advanceTo`
  says that a clock which has come past everything finds the values to which settling leads.
- `PlainStage.stopover_eq` is the law of stopovers as a caller meets it.

A stage on which a layer is in use obeys no such law: a completion that is refused at a stopover
waits again from there on.
-/

namespace LayerAnimation

open LawfulTime

variable {α κ σ : Type}

namespace Stage

/-! ## §1 The clock alone -/

theorem getElem?_layers_sync (s : Stage α κ σ) (id : LayerId) :
    s.sync.layers[id]? = s.layers[id]?.map fun place =>
      if id ∈ s.followed then place.map (·.sync s.now) else place :=
  List.getElem?_mapIdx

variable [Scalar α] [LawfulTime α]

/-- Of two moves of the clock in a row only the later one is seen. -/
theorem sync_moveClock_sync {s : Stage α κ σ} (proper : s.now ≤ s.now) {t d : α} (le : t ≤ d) :
    ((s.moveClock t).sync.moveClock d).sync = (s.moveClock d).sync := by
  have hnow : Scalar.larger (Scalar.larger s.now t) d = Scalar.larger s.now d :=
    larger_larger proper le
  have hfollowed : (s.followed.filter s.isAlive).filter (s.moveClock t).sync.isAlive
      = s.followed.filter s.isAlive := by
    have halive : (s.moveClock t).sync.isAlive = s.isAlive := isAlive_sync _
    simp only [halive, List.filter_filter, Bool.and_self]
  -- A layer whose follower is forgotten is gone, so its empty place is the same in any case.
  have hlayers : ((s.moveClock t).sync.moveClock d).sync.layers = (s.moveClock d).sync.layers := by
    refine List.ext_getElem? fun id => ?_
    rw [getElem?_layers_sync, getElem?_layers_sync]
    show ((s.moveClock t).sync.layers[id]?).map _ = (s.layers[id]?).map _
    rw [getElem?_layers_sync]
    show ((s.layers[id]?).map _).map _ = (s.layers[id]?).map _
    rw [Option.map_map]
    refine Option.map_congr fun place hplace => ?_
    show (if id ∈ s.followed.filter s.isAlive then
        (if id ∈ s.followed then place.map _ else place).map _
      else if id ∈ s.followed then place.map _ else place)
        = if id ∈ s.followed then place.map _ else place
    by_cases hid : id ∈ s.followed
    · rw [if_pos hid, if_pos hid]
      cases place with
      | none => simp
      | some c =>
        have halive : s.isAlive id = true := by simp [isAlive, cell?, hplace]
        rw [if_pos (List.mem_filter.mpr ⟨hid, halive⟩)]
        show some ((c.sync _).sync (Scalar.larger (Scalar.larger s.now t) d)) = _
        rw [Cell.sync_sync, hnow]
        rfl
    · have hgone : id ∉ s.followed.filter s.isAlive := fun h => hid (List.mem_filter.mp h).1
      rw [if_neg hid, if_neg hid, if_neg hgone]
  exact Eq.mpr (Stage.mk.injEq ..) ⟨hlayers, rfl, hnow, rfl, rfl, hfollowed, rfl⟩

end Stage

namespace PlainStage

variable [Scalar α] [LawfulTime α] {s r : PlainStage α} {t d : α} {u : Timer α Empty}

/-! ## §2 The jobs on the way -/

/-- Where no layer is in use nothing is refused. -/
theorem refused_of_unheld (h : s.Timely) (unheld : s.Unheld) (t : α) :
    (s.runDue t).2.filterMap Firing.refused? = [] := by
  rw [List.eq_nil_iff_forall_not_mem]
  exact fun c hc => unheld.not_busy _ (busy_of_mem_refused h hc)

theorem advanceTo_of_unheld (h : s.Timely) (unheld : s.Unheld) (t : α) :
    (s.advanceTo t).1 = ((s.runDue t).1.moveClock t).sync := by
  rw [advanceTo_eq, refused_of_unheld h unheld]
  rfl

/-- What is due up to the later moment may be started in two portions. -/
theorem runDue_eq_append (s : PlainStage α) (le : t ≤ d) :
    s.runDue d = (((s.runDue t).1.runDue d).1, (s.runDue t).2 ++ ((s.runDue t).1.runDue d).2) := by
  induction s using runDue_induction t with
  | idle s hidle => rw [runDue_of_idle hidle, List.nil_append]
  | next s u r popped ih =>
    obtain ⟨us, hus, hdue, hr⟩ := Stage.popDue_eq_some_iff.mp popped
    have popped' : s.popDue d = some (u, r) :=
      Stage.popDue_eq_some_iff.mpr ⟨us, hus, le_trans hdue le, hr⟩
    rw [runDue_of_popDue popped, runDue_of_popDue popped', ih, List.cons_append]

/-- Where the clock stops before the first job, that job meets what it would have met. -/
theorem popDue_moveClock (h : s.Timely) (ahead : ∀ u ∈ s.timers, t ≤ u.due)
    (popped : s.popDue d = some (u, r)) :
    ∃ r', (s.moveClock t).sync.popDue d = some (u, r') ∧
      (r'.moveClock u.due).sync = (r.moveClock u.due).sync := by
  have hafter : t ≤ u.due := ahead u (Stage.mem_of_popDue popped)
  obtain ⟨us, hus, hdue, rfl⟩ := Stage.popDue_eq_some_iff.mp popped
  refine ⟨(Stage.moveClock { s with timers := us } t).sync, ?_, ?_⟩
  · exact Stage.popDue_eq_some_iff.mpr ⟨us, hus, hdue, rfl⟩
  · exact Stage.sync_moveClock_sync (s := { s with timers := us }) h.le_now hafter

theorem runDue_moveClock (h : s.Timely) (ahead : ∀ u ∈ s.timers, t ≤ u.due)
    (popped : s.popDue d = some (u, r)) : runDue (s.moveClock t).sync d = s.runDue d := by
  obtain ⟨r', popped', hclock⟩ := popDue_moveClock h ahead popped
  have hstart : startTimer u r' = startTimer u r := by
    rw [startTimer, startTimer, hclock]
  rw [runDue_of_popDue popped, runDue_of_popDue popped', hstart]

/-- A clock that stops before the first job goes on as if it had not. -/
theorem advanceTo_moveClock (h : s.Timely) (ahead : ∀ u ∈ s.timers, t ≤ u.due) (le : t ≤ d) :
    advanceTo (s.moveClock t).sync d = s.advanceTo d := by
  cases popped : s.popDue d with
  | none =>
    have hidle : (s.moveClock t).sync.popDue d = none :=
      Stage.popDue_eq_none_iff.mpr fun u us hus => Stage.popDue_eq_none_iff.mp popped u us hus
    rw [advanceTo_eq, advanceTo_eq, runDue_of_idle popped, runDue_of_idle hidle]
    exact Prod.ext (Stage.sync_moveClock_sync h.le_now le) rfl
  | some next =>
    obtain ⟨u, r⟩ := next
    rw [advanceTo_eq, advanceTo_eq, runDue_moveClock h ahead popped]

/-! ## §3 Stopovers -/

/-- While no layer is in use an advance is one to an earlier moment and one from there on. -/
theorem advanceTo_eq_append (h : s.Timely) (unheld : s.Unheld) (le : t ≤ d) :
    s.advanceTo d = (((s.advanceTo t).1.advanceTo d).1,
      (s.advanceTo t).2 ++ ((s.advanceTo t).1.advanceTo d).2) := by
  have hrun := timely_runDue h t
  have hahead : ∀ u ∈ (s.runDue t).1.timers, t ≤ u.due := fun u hu =>
    le_of_not_le (hrun.proper hu) (le_left le) (hrun.not_due (popDue_runDue s t) hu)
  have hstop : (s.advanceTo t).1.advanceTo d = (s.runDue t).1.advanceTo d := by
    rw [advanceTo_of_unheld h unheld, advanceTo_moveClock hrun hahead le]
  -- Nothing was refused up to the stopover, so nothing waits again from there on.
  rw [hstop, advanceTo_eq s d, runDue_eq_append s le, List.filterMap_append,
    refused_of_unheld h unheld, List.nil_append]
  rfl

/-- While no layer is in use a clock may stop on its way to a moment. -/
theorem advanceTo_advanceTo (h : s.Timely) (unheld : s.Unheld) (le : t ≤ d) :
    ((s.advanceTo t).1.advanceTo d).1 = (s.advanceTo d).1 := by
  rw [advanceTo_eq_append h unheld le]

/-- A clock that has come past everything finds the values to which settling leads. -/
theorem values_settle_of_advanceTo (h : s.Timely) (unheld : s.Unheld)
    (past : (s.advanceTo t).1.timers = []) (id : LayerId) :
    (s.settle.1.cell? id).map (·.layer.values)
      = ((s.advanceTo t).1.cell? id).map (·.layer.values) := by
  induction s using settle_induction with
  | empty s hempty =>
    have hidle : s.popDue t = none := by
      rw [Stage.popDue_eq_none_iff, hempty]
      intro u us hcons
      cases hcons
    rw [settle_of_empty hempty, advanceTo_of_unheld h unheld, runDue_of_idle hidle,
      Stage.cell?_sync]
    split
    · simp [Function.comp_def]
    · rfl
  | stuck s u us hus hdone =>
    exact absurd (busy_of_doneCount_eq_zero h hus hdone) (unheld.not_busy u.job)
  | done s u us hus hdone ih =>
    -- Otherwise the first job would still wait.
    have hdue : u.due ≤ t := by
      by_contra hdue
      have hidle : s.popDue t = none := by
        rw [Stage.popDue_eq_none_iff, hus]
        intro v vs hcons
        cases hcons
        exact hdue
      rw [advanceTo_of_unheld h unheld, runDue_of_idle hidle] at past
      rw [show ((s.moveClock t).sync).timers = s.timers from rfl, hus] at past
      cases past
    have hstop := advanceTo_advanceTo h unheld hdue
    have hunheld : (s.advanceTo u.due).1.Unheld := unheld.of_hold? (hold?_advanceTo s u.due)
    rw [← hstop] at past ⊢
    rw [settle_of_done hus hdone]
    exact ih (timely_advanceTo h u.due) hunheld past

/-! ## §4 Any stopover -/

/-- While no layer is in use, an advance to a moment and one from there to a later moment come to the
same as the second one alone: the same stage, the same jobs started in the same order, and as many
of them done. -/
theorem stopover_eq {s : PlainStage Float} (h : Reachable s)
    (unheld : ∀ id, s.hold? id = none ∨ s.hold? id = some .free) {t d : Float} (le : t ≤ d) :
    ((s.advanceTo t).1.advanceTo d).1 = (s.advanceTo d).1 ∧
    (s.advanceTo t).2 ++ ((s.advanceTo t).1.advanceTo d).2 = (s.advanceTo d).2 ∧
    doneCount (s.advanceTo t).2 + doneCount ((s.advanceTo t).1.advanceTo d).2
      = doneCount (s.advanceTo d).2 := by
  have happend := advanceTo_eq_append h.timely unheld le
  have hfirings : (s.advanceTo t).2 ++ ((s.advanceTo t).1.advanceTo d).2 = (s.advanceTo d).2 :=
    (congrArg Prod.snd happend).symm
  refine ⟨advanceTo_advanceTo h.timely unheld le, hfirings, ?_⟩
  rw [← hfirings, doneCount, doneCount, doneCount, List.countP_append]

/-- A stage with a motion that was put off behind another one on the same layer, so that a
completion which it registers falls due between the two. -/
def crossingFades : PlainStage Float :=
  (Stage.ofLayers [.ofValues .empty, .ofValues .empty]).run
    [.motion 0 [.fade 0.0] { Options.standard with duration := 0.3 },
      .motion 0 [.fade 1.0] { Options.standard with duration := 0.05, delay := 0.1 },
      .motion 1 [.scale 2.0] { Options.standard with duration := 0.2, delay := 0.1 }]

/-- A stopover between the start of the motions and their ends. -/
theorem stopover_eq_crossingFades :
    Reachable crossingFades ∧
    (∀ id, crossingFades.hold? id = none ∨ crossingFades.hold? id = some .free) ∧
    (0.12 : Float) ≤ 0.4 ∧
    ((crossingFades.advanceTo 0.12).1.advanceTo 0.4).1 = (crossingFades.advanceTo 0.4).1 ∧
    doneCount (crossingFades.advanceTo 0.12).2 = 2 ∧
    doneCount (crossingFades.advanceTo 0.4).2 = 5 ∧
    doneCount ((crossingFades.advanceTo 0.12).1.advanceTo 0.4).2 = 3 := by
  have hreachable : Reachable crossingFades := (Reachable.ofLayers _).run _
  have hunheld : crossingFades.Unheld := by decide +kernel
  have hle : (0.12 : Float) ≤ 0.4 := by decide +kernel
  have hfirst : doneCount (crossingFades.advanceTo 0.12).2 = 2 := by decide +kernel
  have hall : doneCount (crossingFades.advanceTo 0.4).2 = 5 := by decide +kernel
  obtain ⟨hsame, -, hcount⟩ := stopover_eq hreachable hunheld hle
  refine ⟨hreachable, hunheld, hle, hsame, hfirst, hall, ?_⟩
  omega

end PlainStage

end LayerAnimation
