import LayerAnimation.Proofs.Stopovers
import LayerAnimation.Proofs.Advances
import LayerAnimation.Proofs.Ownership

/-!
# Motions that are put off

A motion with a delay waits in the queue and is made while the clock moves.  It comes to the same as
if the caller had waited: had moved the clock ahead by the delay, made the motion without a delay and
then gone on.

- The queue can be set apart from the rest of a stage (`Stage.withQueue`): what a job does when it
  starts does not depend on it (`PlainStage.startTimer_withQueue`).
- The motion that waits takes a registration for itself, so the registrations that follow it have
  other numbers; `Stage.unnumbered` forgets them, and no advance depends on them
  (`PlainStage.unnumbered_advanceTo`).
- `PlainStage.Awaits` relates a stage on which one job more waits to one without it.  Jobs that start
  before keep the relation, and when the job starts both stages have come to the same.
- `PlainStage.motion_advanceTo` is the law for motions.
-/

namespace LayerAnimation

open LawfulTime

variable {α κ σ : Type}

namespace Stage

/-! ## §1 The queue set apart -/

/-- The stage with another queue. -/
def withQueue (s : Stage α κ σ) (seq : Nat) (timers : List (Timer α κ)) : Stage α κ σ :=
  { s with seq := seq, timers := timers }

variable (s : Stage α κ σ) (seq : Nat) (timers : List (Timer α κ))

theorem follow_withQueue (id : LayerId) :
    (s.withQueue seq timers).follow id = (s.follow id).withQueue seq timers := by
  unfold follow withQueue
  split <;> rfl

theorem fire_withQueue (c : Completion α) (ending : Ending) :
    (s.withQueue seq timers).fire c ending
      = ((s.fire c ending).1.withQueue seq timers, (s.fire c ending).2) := by
  have hcell : (s.withQueue seq timers).cell? c.layer = s.cell? c.layer := rfl
  unfold fire
  rw [hcell]
  cases s.cell? c.layer with
  | none => rfl
  | some cell =>
    dsimp only
    split <;> rfl

variable [Scalar α]

/-- Register a job, if there is one. -/
def register (s : Stage α κ σ) : Option (α × Job α κ) → Stage α κ σ
  | none => s
  | some (after, job) => s.enqueue after job

omit seq timers in
/-- An animation is started alike whatever waits. -/
theorem animate_withQueue (id : LayerId) (a : Animation α) :
    ∃ (s' : Stage α κ σ) (new : Option (α × Job α κ)) (o : Option AnimationId),
      ∀ seq timers, (s.withQueue seq timers).animate id a
        = ((s'.withQueue seq timers).register new, o) := by
  cases h : s.writable? id with
  | none =>
    refine ⟨s.drawId, none, none, fun seq timers => ?_⟩
    have hwritable : (s.withQueue seq timers).writable? id = none := h
    simp only [animate, attach, hwritable]
    rfl
  | some l =>
    refine ⟨(s.drawId.setLayer id (l.attach s.nextId s.now a).1).follow id,
      some (completionDelay a, .completion ⟨id, s.nextId, (l.attach s.nextId s.now a).2⟩),
      some s.nextId, fun seq timers => ?_⟩
    have hwritable : (s.withQueue seq timers).writable? id = some l := h
    simp only [animate, attach, hwritable, register, ← follow_withQueue]
    rfl

omit seq timers in
/-- So is a motion. -/
theorem perform_withQueue (id : LayerId) (intents : List (Intent α)) (duration : α)
    (easing : Easing α) :
    ∃ (s' : Stage α κ σ) (new : Option (α × Job α κ)) (o : Option AnimationId),
      ∀ seq timers, (s.withQueue seq timers).perform id intents duration easing
        = ((s'.withQueue seq timers).register new, o) := by
  cases h : s.readable? id with
  | none =>
    refine ⟨s, none, none, fun seq timers => ?_⟩
    have hreadable : (s.withQueue seq timers).readable? id = none := h
    simp only [perform, hreadable]
    rfl
  | some l =>
    obtain ⟨s', new, o, hanimate⟩ :=
      s.animate_withQueue id (.group (.assemble (l.compile intents) duration easing))
    refine ⟨s', new, o, fun seq timers => ?_⟩
    have hreadable : (s.withQueue seq timers).readable? id = some l := h
    simp only [perform, hreadable, hanimate]

end Stage

namespace PlainStage

variable [Scalar α]

theorem start_withQueue (job : Job α Empty) (s : PlainStage α) :
    ∃ (s' : PlainStage α) (new : Option (α × Job α Empty)) (o : Outcome α Empty),
      ∀ seq timers, Stage.start exec job (s.withQueue seq timers)
        = ((s'.withQueue seq timers).register new, o) := by
  -- Neither a commit nor a motion looks at the queue: the stage that comes of it is found once, for
  -- every queue.
  cases job with
  | completion c =>
    cases h : s.fire c .finished with
    | mk s' result =>
      cases result with
      | ok n =>
        refine ⟨s', none, .completed c.id n, fun seq timers => ?_⟩
        simp only [Stage.start, Stage.fire_withQueue, h, Stage.register]
      | error d =>
        refine ⟨s', none, .refused d, fun seq timers => ?_⟩
        simp only [Stage.start, Stage.fire_withQueue, h, Stage.register]
  | deferred d =>
    obtain ⟨s', new, o, hperform⟩ := s.perform_withQueue d.layer d.intents d.duration d.easing
    refine ⟨s', new, .started o, fun seq timers => ?_⟩
    simp only [Stage.start, Stage.startDeferred, hperform]
  | routine r => exact r.elim

/-- What a job does when it starts does not depend on the queue. -/
theorem startTimer_withQueue (u : Timer α Empty) (s : PlainStage α) :
    ∃ (s' : PlainStage α) (new : Option (α × Job α Empty)) (o : Outcome α Empty),
      ∀ seq timers, startTimer u (s.withQueue seq timers)
        = ((s'.withQueue seq timers).register new, o) :=
  start_withQueue u.job (s.moveClock u.due).sync

end PlainStage

/-! ## §2 Numbers of registrations -/

/-- The timer with the number of its registration forgotten. -/
def Timer.unnumbered (u : Timer α κ) : Timer α κ :=
  { u with seq := 0 }

namespace Stage

/-- The stage with the numbers of registrations forgotten. -/
def unnumbered (s : Stage α κ σ) : Stage α κ σ :=
  s.withQueue 0 (s.timers.map Timer.unnumbered)

/-- Stages that are the same but for the numbers differ in their queues only. -/
theorem exists_withQueue_of_unnumbered {s r : Stage α κ σ} (h : s.unnumbered = r.unnumbered) :
    ∃ seq timers, r = s.withQueue seq timers ∧
      s.timers.map Timer.unnumbered = timers.map Timer.unnumbered := by
  refine ⟨r.seq, r.timers, ?_, congrArg Stage.timers h⟩
  have hrest := congrArg (Stage.withQueue · r.seq r.timers) h
  exact hrest.symm

end Stage

section Numbers

variable [Scalar α]

theorem Timer.map_unnumbered_insert (t : Timer α κ) (us : List (Timer α κ)) :
    (t.insert us).map unnumbered = t.unnumbered.insert (us.map unnumbered) := by
  induction us with
  | nil => rfl
  | cons u us ih =>
    rw [List.map_cons]
    unfold insert
    have hdue : (t.unnumbered.due < u.unnumbered.due) = (t.due < u.due) := rfl
    by_cases hlt : t.due < u.due
    · rw [if_pos hlt, if_pos (by rwa [hdue])]
      rfl
    · rw [if_neg hlt, if_neg (by rwa [hdue]), List.map_cons, ih]

theorem Stage.unnumbered_register {s : Stage α κ σ} {seq seq' : Nat}
    {timers timers' : List (Timer α κ)}
    (same : timers.map Timer.unnumbered = timers'.map Timer.unnumbered)
    (new : Option (α × Job α κ)) :
    ((s.withQueue seq timers).register new).unnumbered
      = ((s.withQueue seq' timers').register new).unnumbered := by
  have hqueue : ∀ (q : Nat) (ts : List (Timer α κ)),
      (s.withQueue q ts).unnumbered = s.withQueue 0 (ts.map Timer.unnumbered) := fun _ _ => rfl
  cases new with
  | none => exact congrArg (s.withQueue 0) same
  | some job =>
    obtain ⟨after, job⟩ := job
    show (s.withQueue _ (Timer.insert _ timers)).unnumbered
      = (s.withQueue _ (Timer.insert _ timers')).unnumbered
    rw [hqueue, hqueue, Timer.map_unnumbered_insert, Timer.map_unnumbered_insert, same]
    rfl

namespace PlainStage

variable {s r : PlainStage α} {t : α} {u v : Timer α Empty}

/-- A job that starts on stages which are the same but for the numbers leaves such stages. -/
theorem unnumbered_start (h : s.unnumbered = r.unnumbered) (job : Job α Empty) :
    (Stage.start exec job s).1.unnumbered = (Stage.start exec job r).1.unnumbered ∧
      (Stage.start exec job s).2 = (Stage.start exec job r).2 := by
  obtain ⟨seq, timers, rfl, hsame⟩ := Stage.exists_withQueue_of_unnumbered h
  obtain ⟨s', new, o, hstart⟩ := start_withQueue job s
  have hs : Stage.start exec job s = ((s'.withQueue s.seq s.timers).register new, o) :=
    hstart s.seq s.timers
  rw [hs, hstart]
  exact ⟨Stage.unnumbered_register hsame new, rfl⟩

theorem unnumbered_moveClock (h : s.unnumbered = r.unnumbered) (t : α) :
    (s.moveClock t).unnumbered = (r.moveClock t).unnumbered := by
  obtain ⟨seq, timers, rfl, hsame⟩ := Stage.exists_withQueue_of_unnumbered h
  exact congrArg ((s.moveClock t).withQueue 0) hsame

omit [Scalar α] in
theorem unnumbered_sync (h : s.unnumbered = r.unnumbered) :
    s.sync.unnumbered = r.sync.unnumbered := by
  obtain ⟨seq, timers, rfl, hsame⟩ := Stage.exists_withQueue_of_unnumbered h
  exact congrArg (s.sync.withQueue 0) hsame

theorem unnumbered_requeue (h : s.unnumbered = r.unnumbered) (cs : List (Completion α)) :
    (s.requeue cs).unnumbered = (r.requeue cs).unnumbered := by
  induction cs generalizing s r with
  | nil => exact h
  | cons c cs ih =>
    apply ih
    obtain ⟨seq, timers, rfl, hsame⟩ := Stage.exists_withQueue_of_unnumbered h
    exact Stage.unnumbered_register (s := s) hsame (some (0.0, .completion c))

/-- Where the first jobs are the same but for the numbers, so are the others. -/
theorem unnumbered_popDue (h : s.unnumbered = r.unnumbered) {s' : PlainStage α}
    (popped : s.popDue t = some (u, s')) :
    ∃ v r', r.popDue t = some (v, r') ∧ v.due = u.due ∧ v.job = u.job ∧
      s'.unnumbered = r'.unnumbered := by
  obtain ⟨us, hus, hdue, rfl⟩ := Stage.popDue_eq_some_iff.mp popped
  obtain ⟨seq, timers, rfl, hsame⟩ := Stage.exists_withQueue_of_unnumbered h
  rw [hus, List.map_cons] at hsame
  obtain ⟨v, vs, rfl, hv, hvs⟩ := List.map_eq_cons_iff.mp hsame.symm
  have hvdue : v.due = u.due := (Timer.mk.inj hv).1
  refine ⟨v, s.withQueue seq vs, ?_, hvdue, (Timer.mk.inj hv).2.2, ?_⟩
  · exact Stage.popDue_eq_some_iff.mpr ⟨vs, rfl, by rwa [hvdue], rfl⟩
  · exact congrArg (s.withQueue 0) hvs.symm

theorem unnumbered_startTimer (h : s.unnumbered = r.unnumbered) (due : v.due = u.due)
    (job : v.job = u.job) :
    (startTimer u s).1.unnumbered = (startTimer v r).1.unnumbered ∧
      (startTimer u s).2 = (startTimer v r).2 := by
  unfold startTimer
  rw [due, job]
  exact unnumbered_start (unnumbered_sync (unnumbered_moveClock h u.due)) u.job

/-- The jobs that are due do the same on stages which are the same but for the numbers. -/
theorem unnumbered_runDue (h : s.unnumbered = r.unnumbered) (t : α) :
    (s.runDue t).1.unnumbered = (r.runDue t).1.unnumbered ∧
      (s.runDue t).2.filterMap Firing.refused? = (r.runDue t).2.filterMap Firing.refused? := by
  -- The induction is on the jobs that are due: a stage with the same jobs under other numbers takes
  -- the same ones, each with the same effect.
  induction s using runDue_induction t generalizing r with
  | idle s hidle =>
    have hidle' : r.popDue t = none := by
      cases popped : r.popDue t with
      | none => rfl
      | some next =>
        obtain ⟨v, s', hs, -⟩ := unnumbered_popDue h.symm popped
        rw [hidle] at hs
        cases hs
    rw [runDue_of_idle hidle, runDue_of_idle hidle']
    exact ⟨h, rfl⟩
  | next s u s' popped ih =>
    obtain ⟨v, r', popped', hdue, hjob, hrest⟩ := unnumbered_popDue h popped
    obtain ⟨hstage, houtcome⟩ := unnumbered_startTimer hrest hdue hjob
    obtain ⟨hrun, hrefused⟩ := ih hstage
    rw [runDue_of_popDue popped, runDue_of_popDue popped']
    refine ⟨hrun, ?_⟩
    have hfirst : (Firing.mk u.due u.seq (startTimer u s').2).refused?
        = (Firing.mk v.due v.seq (startTimer v r').2).refused? := by
      rw [houtcome]
      rfl
    rw [List.filterMap_cons, List.filterMap_cons, hfirst, hrefused]

/-- No advance depends on the numbers of registrations. -/
theorem unnumbered_advanceTo (h : s.unnumbered = r.unnumbered) (t : α) :
    (s.advanceTo t).1.unnumbered = (r.advanceTo t).1.unnumbered := by
  obtain ⟨hrun, hrefused⟩ := unnumbered_runDue h t
  rw [advanceTo_eq, advanceTo_eq, hrefused]
  exact unnumbered_sync (unnumbered_requeue (unnumbered_moveClock hrun t) _)

end PlainStage

/-! ## §3 One job more -/

namespace Timer

/-- A timer finds its place in every sorted queue. -/
theorem exists_insert_eq [LawfulTime α] {us : List (Timer α κ)} {t : Timer α κ}
    (sorted : us.Pairwise fun u v => u.due ≤ v.due) (proper : t.due ≤ t.due)
    (others : ∀ u ∈ us, u.due ≤ u.due) :
    ∃ front back, us = front ++ back ∧ t.insert us = front ++ t :: back ∧
      (∀ u ∈ front, u.due ≤ t.due) ∧ ∀ u ∈ back, t.due < u.due := by
  induction us with
  | nil =>
    have hnone : ∀ {p : Timer α κ → Prop}, ∀ u ∈ [], p u := fun _ hu => absurd hu List.not_mem_nil
    exact ⟨[], [], rfl, rfl, hnone, hnone⟩
  | cons u us ih =>
    obtain ⟨hfirst, hrest⟩ := List.pairwise_cons.mp sorted
    obtain ⟨hu, hus⟩ := List.forall_mem_cons.mp others
    by_cases hlt : t.due < u.due
    · -- The others are due no earlier than the first one.
      have hlater : ∀ v ∈ us, t.due < v.due := fun v hv => lt_of_lt_of_le hlt (hfirst v hv)
      exact ⟨[], u :: us, rfl, if_pos hlt, fun _ hv => absurd hv List.not_mem_nil,
        List.forall_mem_cons.mpr ⟨hlt, hlater⟩⟩
    · obtain ⟨front, back, rfl, hinsert, hfront, hback⟩ := ih hrest hus
      refine ⟨u :: front, back, rfl, ?_, List.forall_mem_cons.mpr ⟨?_, hfront⟩, hback⟩
      · rw [insert, if_neg hlt, hinsert]
        rfl
      · exact le_of_not_lt proper hu hlt

end Timer

namespace PlainStage

/-- The first stage is the second one but for one job more, which waits behind all that are due no
later; the numbers of registrations may differ. -/
inductive Awaits (u : Timer α Empty) : PlainStage α → PlainStage α → Prop where
  | intro {s : PlainStage α} {seq : Nat} {front back : List (Timer α Empty)}
      (others : (front ++ back).map Timer.unnumbered = s.timers.map Timer.unnumbered)
      (before : ∀ v ∈ front, v.due ≤ u.due) (behind : ∀ v ∈ back, u.due < v.due) :
      Awaits u (s.withQueue seq (front ++ u :: back)) s

variable [LawfulTime α] {s r : PlainStage α} {t : α} {u v : Timer α Empty}

/-- A job that was just registered is one job more. -/
theorem awaits_enqueue (h : s.Timely) (after : α) (job : Job α Empty) :
    Awaits ⟨s.now + Stage.wait after, s.seq + 1, job⟩ (s.enqueue after job) s := by
  obtain ⟨front, back, htimers, hinsert, hfront, hback⟩ := Timer.exists_insert_eq
    (t := ⟨s.now + Stage.wait after, s.seq + 1, job⟩) h.sorted (le_right (h.le_add_wait after))
    (fun _ => h.proper)
  have hqueue : s.enqueue after job = s.withQueue (s.seq + 1)
      (front ++ ⟨s.now + Stage.wait after, s.seq + 1, job⟩ :: back) :=
    congrArg (s.withQueue (s.seq + 1)) hinsert
  rw [hqueue]
  exact .intro (by rw [htimers]) hfront hback

/-- A job that is registered on both stages leaves one job more, unless it is due at the same
moment. -/
theorem Awaits.register {seq : Nat} {front back : List (Timer α Empty)}
    {new : Option (α × Job α Empty)}
    (others : (front ++ back).map Timer.unnumbered = s.timers.map Timer.unnumbered)
    (before : ∀ v ∈ front, v.due ≤ u.due) (behind : ∀ v ∈ back, u.due < v.due)
    (apart : ∀ after job, new = some (after, job) →
      s.now + Stage.wait after < u.due ∨ u.due < s.now + Stage.wait after) :
    Awaits u ((s.withQueue seq (front ++ u :: back)).register new) (s.register new) := by
  cases new with
  | none => exact .intro others before behind
  | some new =>
    obtain ⟨after, job⟩ := new
    have hsame : (Timer.insert ⟨s.now + Stage.wait after, seq + 1, job⟩ (front ++ back)).map
        Timer.unnumbered = (s.enqueue after job).timers.map Timer.unnumbered := by
      show _ = (Timer.insert ⟨s.now + Stage.wait after, s.seq + 1, job⟩ s.timers).map _
      rw [Timer.map_unnumbered_insert, Timer.map_unnumbered_insert, others]
      rfl
    show Awaits u ((s.enqueue after job).withQueue (seq + 1)
      (Timer.insert ⟨s.now + Stage.wait after, seq + 1, job⟩ (front ++ u :: back))) _
    rcases apart after job rfl with hlt | hlt
    · -- It goes among those that start before.
      have hback : ∀ v ∈ back, s.now + Stage.wait after < v.due :=
        fun v hv => lt_of_lt_of_le hlt (le_of_lt (behind v hv))
      rw [Timer.insert_append_of_lt hback] at hsame
      rw [Timer.insert_append_of_lt (List.forall_mem_cons.mpr ⟨hlt, hback⟩)]
      refine .intro hsame (fun v hv => ?_) behind
      rcases Timer.mem_insert.mp hv with rfl | hv
      · exact le_of_lt hlt
      · exact before v hv
    · -- It goes among those that start later.
      have hfront : ∀ v ∈ front, ¬ s.now + Stage.wait after < v.due := fun v hv hv' =>
        (lt_iff.mp hlt).2 (le_trans (le_of_lt hv') (before v hv))
      rw [Timer.insert_append_of_not_lt hfront] at hsame
      rw [Timer.insert_append_of_not_lt hfront, Timer.insert, if_neg fun hle =>
        (lt_iff.mp hlt).2 (le_of_lt hle)]
      refine .intro hsame before (fun v hv => ?_)
      rcases Timer.mem_insert.mp hv with rfl | hv
      · exact hlt
      · exact behind v hv

/-- While no layer is in use an advance starts the first job and goes on from there. -/
theorem advanceTo_of_popDue (h : s.Timely) (unheld : s.Unheld) (popped : s.popDue t = some (u, r)) :
    (s.advanceTo t).1 = ((startTimer u r).1.advanceTo t).1 := by
  rw [advanceTo_of_unheld h unheld, runDue_of_popDue popped,
    advanceTo_of_unheld (timely_startTimer h popped) (unheld.of_hold? (hold?_of_popDue popped))]

omit [LawfulTime α] in
theorem mem_registeredBy {after : α} {job : Job α Empty} {r' : PlainStage α}
    (h : (startTimer u r).1 = (r'.withQueue r.seq r.timers).register (some (after, job))) :
    ⟨r'.now + Stage.wait after, r.seq + 1, job⟩ ∈ registeredBy u r := by
  refine List.mem_filter.mpr ⟨?_, decide_eq_true (Nat.lt_succ_self r.seq)⟩
  rw [h]
  exact Timer.mem_insert.mpr (.inl rfl)

/-- While one job more waits, the first of the others starts alike on both stages. -/
theorem Awaits.startTimer {x : PlainStage α} (h : s.Timely) (more : Awaits u x s)
    (popped : s.popDue u.due = some (v, r)) (le : u.due ≤ t)
    (alone : ∀ w ∈ registeredBy v r, ¬ (w.due ≤ u.due ∧ u.due ≤ w.due)) :
    ∃ w y, x.popDue t = some (w, y) ∧ Awaits u (PlainStage.startTimer w y).1 (startTimer v r).1 := by
  obtain ⟨others, before, behind⟩ := more
  next seq front back =>
  have htimely := timely_startTimer h popped
  obtain ⟨us, hus, hdue, rfl⟩ := Stage.popDue_eq_some_iff.mp popped
  -- The first job is not behind the one more, so it is the first of both stages.
  obtain ⟨w, front, rfl⟩ : ∃ w ws, front = w :: ws := by
    cases front with
    | cons w ws => exact ⟨w, ws, rfl⟩
    | nil =>
      rw [List.nil_append, hus, List.map_cons] at others
      obtain ⟨w, ws, rfl, hw, -⟩ := List.map_eq_cons_iff.mp others
      have hwdue : w.due = v.due := (Timer.mk.inj hw).1
      exact absurd hdue (hwdue ▸ (lt_iff.mp (behind w List.mem_cons_self)).2)
  rw [List.cons_append, List.map_cons, hus, List.map_cons] at others
  obtain ⟨hw, hothers⟩ := List.cons.inj others
  have hwdue : w.due = v.due := (Timer.mk.inj hw).1
  have hwjob : w.job = v.job := (Timer.mk.inj hw).2.2
  obtain ⟨hwu, hfront⟩ := List.forall_mem_cons.mp before
  refine ⟨w, s.withQueue seq (front ++ u :: back),
    Stage.popDue_eq_some_iff.mpr ⟨_, rfl, le_trans hwu le, rfl⟩, ?_⟩
  have hstart : ∀ y : PlainStage α, PlainStage.startTimer w y = PlainStage.startTimer v y := by
    intro y
    rw [PlainStage.startTimer, PlainStage.startTimer, hwdue, hwjob]
  obtain ⟨r', new, o, hboth⟩ := startTimer_withQueue v s
  have hs : PlainStage.startTimer v { s with timers := us }
      = ((r'.withQueue s.seq us).register new, o) := hboth s.seq us
  rw [hs] at htimely
  rw [hstart, hboth, hs]
  refine Awaits.register (s := r'.withQueue s.seq us) hothers hfront behind ?_
  intro after job hnew
  subst hnew
  have hmem := mem_registeredBy (r := { s with timers := us }) (congrArg Prod.fst hs)
  have hproper := htimely.proper (Timer.mem_insert.mpr (.inl rfl))
  have hapart := alone _ hmem
  -- Of two moments which are not the same one comes first.
  rcases le_total hproper (le_right hdue) with hle | hle
  · exact .inl (lt_iff.mpr ⟨hle, fun hge => hapart ⟨hle, hge⟩⟩)
  · exact .inr (lt_iff.mpr ⟨hle, fun hge => hapart ⟨hge, hle⟩⟩)

/-- If nothing else that is registered on the way is due at the same moment, one job more starts
when everything else has come to its moment. -/
theorem Awaits.advanceTo {x : PlainStage α} (h : s.Timely) (unheld : s.Unheld)
    (held : x.hold? = s.hold?) (timely : x.Timely) (more : Awaits u x s) (le : u.due ≤ t)
    (alone : ∀ w ∈ s.registered u.due, ¬ (w.due ≤ u.due ∧ u.due ≤ w.due)) :
    (PlainStage.advanceTo x t).1.unnumbered
      = (PlainStage.advanceTo (Stage.start exec u.job (s.advanceTo u.due).1).1 t).1.unnumbered := by
  induction s using runDue_induction u.due generalizing x with
  | idle s hidle =>
    obtain ⟨others, before, behind⟩ := more
    next seq front back =>
    -- Nothing else is due, so the one more is the first.
    obtain rfl : front = [] := by
      cases front with
      | nil => rfl
      | cons w ws =>
        obtain ⟨v, vs, hv, hw, -⟩ := List.map_eq_cons_iff.mp others.symm
        have hdue : v.due = w.due := (Timer.mk.inj hw).1
        exact absurd (hdue ▸ before w List.mem_cons_self) (Stage.popDue_eq_none_iff.mp hidle v vs hv)
    have hpopped : (s.withQueue seq ([] ++ u :: back)).popDue t = some (u, s.withQueue seq back) :=
      Stage.popDue_eq_some_iff.mpr ⟨back, rfl, le, rfl⟩
    rw [advanceTo_of_popDue timely (unheld.of_hold? held) hpopped, advanceTo_of_unheld h unheld,
      runDue_of_idle hidle]
    have hsame : (s.withQueue seq back).unnumbered = s.unnumbered :=
      congrArg (s.withQueue 0) others
    apply unnumbered_advanceTo
    exact (unnumbered_start (unnumbered_sync (unnumbered_moveClock hsame u.due)) u.job).1
  | next s v r popped ih =>
    rw [registered_of_popDue popped] at alone
    obtain ⟨halone, hlater⟩ := List.forall_mem_append.mp alone
    obtain ⟨w, y, hpopped, hmore⟩ := more.startTimer h popped le halone
    have hunheld := unheld.of_hold? (hold?_of_popDue popped)
    rw [advanceTo_of_popDue timely (unheld.of_hold? held) hpopped,
      advanceTo_of_popDue h unheld popped]
    refine ih (timely_startTimer h popped) hunheld ?_ (timely_startTimer timely hpopped) hmore hlater
    rw [hold?_of_popDue hpopped, hold?_of_popDue popped, held]

end PlainStage

/-! ## §4 A motion that is put off -/

/-- A finite wait that is not over at once is taken as it is. -/
theorem Stage.wait_of_not_le [LawfulTime α] {after : α} (finite : Scalar.isFinite after = true)
    (not_le : ¬ after ≤ 0.0) : Stage.wait after = after := by
  rw [Stage.wait, if_pos finite]
  exact larger_of_not_le (le_self_of_isFinite finite) not_le

namespace Options

variable {o : Options α}

/-- Options that are not refused are taken as they are. -/
theorem repaired_of_check (h : o.check = .ok ()) : o.repaired = o := by
  unfold check at h
  split at h
  · cases h
  · next hduration =>
    split at h
    · cases h
    · next hdelay =>
      simp only [Bool.not_eq_true', Bool.not_eq_false] at hduration hdelay
      simp only [repaired, hduration, hdelay, h, ↓reduceIte]

theorem finite_of_check (h : o.check = .ok ()) :
    (Scalar.isFinite o.duration = true ∧ ¬ o.duration ≤ 0.0) ∧
      Scalar.isFinite o.delay = true ∧ ¬ o.delay < 0.0 := by
  unfold check usableDuration usableDelay at h
  split at h
  · cases h
  · split at h
    · cases h
    · simp_all

end Options

namespace PlainStage

variable [LawfulTime α] {s : PlainStage α} {t : α} {o : Options α}

omit [LawfulTime α] in
theorem motion_of_delayed (valid : o.check = .ok ()) (delayed : 0.0 < o.delay) (id : LayerId)
    (intents : List (Intent α)) :
    (s.motion id intents o).1
      = s.enqueue o.delay (.deferred ⟨id, intents, o.duration, o.easing⟩) := by
  rw [Stage.motion, Options.repaired_of_check valid, if_pos delayed]
  rfl

theorem motion_of_immediate (valid : o.check = .ok ()) (id : LayerId) (intents : List (Intent α)) :
    s.motion id intents { o with delay := 0.0 } = s.perform id intents o.duration o.easing := by
  have hrepaired : ({ o with delay := 0.0 } : Options α).repaired
      = { o.repaired with delay := 0.0 } := by
    simp [Options.repaired, Options.standardDelay]
  rw [Stage.motion, hrepaired, Options.repaired_of_check valid,
    if_neg fun h => (lt_iff.mp h).2 zero_le_zero]

/-- A motion that is put off comes to the same as a motion that is made later. -/
theorem unnumbered_advanceTo_motion (h : s.Timely) (unheld : s.Unheld) (valid : o.check = .ok ())
    (delayed : 0.0 < o.delay) (id : LayerId) (intents : List (Intent α))
    (le : s.now + o.delay ≤ t)
    (alone : ∀ u ∈ s.registered (s.now + o.delay),
      ¬ (u.due ≤ s.now + o.delay ∧ s.now + o.delay ≤ u.due)) :
    (PlainStage.advanceTo (s.motion id intents o).1 t).1.unnumbered
      = (PlainStage.advanceTo ((s.advanceTo (s.now + o.delay)).1.motion id intents
          { o with delay := 0.0 }).1 t).1.unnumbered := by
  obtain ⟨-, hfinite, -⟩ := Options.finite_of_check valid
  have hwait := Stage.wait_of_not_le hfinite (lt_iff.mp delayed).2
  have hmore := awaits_enqueue h o.delay (.deferred ⟨id, intents, o.duration, o.easing⟩)
  rw [hwait] at hmore
  have hheld : (s.enqueue o.delay (.deferred ⟨id, intents, o.duration, o.easing⟩)).hold? = s.hold? :=
    rfl
  have hlater := hmore.advanceTo h unheld hheld (h.enqueue _ _) le alone
  rw [motion_of_delayed valid delayed, motion_of_immediate valid]
  exact hlater

end PlainStage

/-! ## §5 Where a fade starts -/

/-- The track of a fade to an opacity on a layer that holds another one, or none. -/
def Intent.fadeFrom (held : Option (Value α)) (x : α) : Track α :=
  (Track.toward .opacity (.scalar x)).startingAt (held.getD (.scalar Intent.fullOpacity))

theorem Intent.key_track (opacity : Option (Value α)) (i : Intent α) :
    (i.track opacity).key = i.key := by
  cases i <;> rfl

/-- Of several intents the last one that fades decides. -/
theorem Layer.lastTrack?_fade (l : Layer α) {front back : List (Intent α)} {x : α}
    (last : ∀ i ∈ back, i.key ≠ .opacity) (duration : α) (easing : Easing α) :
    (l.fillStarts (.group (.assemble (l.compile (front ++ .fade x :: back)) duration
      easing))).lastTrack? .opacity = some (Intent.fadeFrom (l.values.get? .opacity) x) := by
  generalize hfill : (fun t : Track α => { t with start := t.start.or (l.presented? t.key) }) = fill
  have hkey : ∀ i : Intent α, (fill (i.track (l.values.get? .opacity))).key = i.key := by
    intro i
    rw [← hfill]
    exact Intent.key_track _ i
  have htracks : (l.fillStarts (.group (.assemble (l.compile (front ++ .fade x :: back)) duration
      easing))).tracks = (front ++ .fade x :: back).map
        fun i => fill (i.track (l.values.get? .opacity)) := by
    rw [← hfill]
    exact List.map_map
  -- None of the later tracks drives the opacity, and that of the fade has its start.
  have hnone : (back.reverse.find? fun i => i.key == .opacity) = none := by
    rw [List.find?_eq_none]
    intro i hi
    simpa using last i (List.mem_reverse.mp hi)
  rw [Animation.lastTrack?, htracks, ← List.map_reverse, List.find?_map]
  simp only [Function.comp_def, hkey, List.reverse_append, List.reverse_cons, List.append_assoc,
    List.find?_append, hnone, Option.none_or]
  rw [← hfill]
  rfl

theorem Animation.begin_playback (a : Animation α) (id : AnimationId) (now : α) (t : Track α) :
    (a.playback id now t).begin = now := by
  cases a <;> rfl

/-- A fade begins at the opacity that the layer holds. -/
theorem Layer.playing_attach_fade (l : Layer α) (id : AnimationId) (now : α)
    (front : List (Intent α)) (x : α) {back : List (Intent α)} (last : ∀ i ∈ back, i.key ≠ .opacity) (duration : α)
    (easing : Easing α) :
    ∃ p, (l.attach id now (.group (.assemble (l.compile (front ++ .fade x :: back)) duration
        easing))).1.playing.get? .opacity = some p ∧
      p.begin = now ∧ p.track = Intent.fadeFrom (l.values.get? .opacity) x := by
  have hlast : (l.attach id now (.group (.assemble (l.compile (front ++ .fade x :: back)) duration
      easing))).2.lastTrack? .opacity = some (Intent.fadeFrom (l.values.get? .opacity) x) :=
    (l.sync now).lastTrack?_fade last duration easing
  refine ⟨_, by rw [Layer.playing_attach, hlast]; rfl, ?_, ?_⟩
  · exact Animation.begin_playback _ _ _ _
  · exact Animation.track_playback _ _ _ _

namespace Stage

omit [Scalar α] in
theorem playing?_sync (s : Stage α κ σ) (id : LayerId) (k : Attribute) :
    s.sync.playing? id k = s.playing? id k := by
  rw [playing?, playing?, cell?_sync]
  split
  · cases s.cell? id <;> simp
  · rfl

/-- So does a fade that is made at once on a stage. -/
theorem playing?_perform_fade {s : Stage α κ σ} {id : LayerId} {cell : Cell α}
    (alive : s.cell? id = some cell) (free : cell.hold = .free) (front : List (Intent α)) (x : α)
    {back : List (Intent α)} (last : ∀ i ∈ back, i.key ≠ .opacity) (duration : α) (easing : Easing α) :
    ∃ p, (s.perform id (front ++ .fade x :: back) duration easing).1.playing? id .opacity = some p ∧
      p.begin = s.now ∧ p.track = Intent.fadeFrom (cell.layer.values.get? .opacity) x := by
  have hwritable : s.writable? id = some cell.layer :=
    writable?_eq_some_iff.mpr ⟨cell, alive, free, rfl⟩
  obtain ⟨p, hp, hbegin, htrack⟩ :=
    cell.layer.playing_attach_fade s.nextId s.now front x last duration easing
  refine ⟨p, ?_, hbegin, htrack⟩
  rw [perform_of_writable? hwritable, animate_of_writable? hwritable]
  simp [playing?, enqueueCompletion, cell?_setLayer, alive, hp]

end Stage

namespace PlainStage

variable [LawfulTime α] {s : PlainStage α} {t : α} {o : Options α}

omit [LawfulTime α] in
/-- Where nothing is due an advance leaves the running tracks as they are. -/
theorem playing?_advanceTo_of_idle (h : s.popDue t = none) (id : LayerId) (k : Attribute) :
    (s.advanceTo t).1.playing? id k = s.playing? id k := by
  rw [advanceTo_eq, runDue_of_idle h]
  exact Stage.playing?_sync (s.moveClock t) id k

/-- A motion that lasts brings nothing that is due. -/
theorem popDue_perform {r : PlainStage α} (rest : ∀ v ∈ r.timers, ¬ v.due ≤ t) {duration : α}
    (finite : Scalar.isFinite duration = true) (positive : ¬ duration ≤ 0.0)
    (lasts : t < r.now + duration) (id : LayerId) (intents : List (Intent α)) (easing : Easing α) :
    (r.perform id intents duration easing).1.popDue t = none := by
  refine Stage.popDue_eq_none_iff.mpr fun u us hus => ?_
  have hu : u ∈ (r.perform id intents duration easing).1.timers := by
    rw [hus]
    exact List.mem_cons_self
  rcases timers_perform (s := r) id intents duration easing with
    ⟨hsame, -⟩ | ⟨-, n, c, -, hinsert⟩
  · rw [hsame] at hu
    exact rest u hu
  · rw [hinsert] at hu
    rcases Timer.mem_insert.mp hu with rfl | hu
    · rw [Stage.wait_of_not_le finite positive]
      exact (lt_iff.mp lasts).2
    · exact rest u hu

/-- A fade that is put off starts at the opacity that its layer holds when it starts, and if it is
not over at once that is what runs then. -/
theorem playing?_advanceTo_fade (h : s.Timely) (unheld : s.Unheld) {id : LayerId}
    (alive : s.isAlive id = true) (front : List (Intent α)) (x : α) {back : List (Intent α)}
    (last : ∀ i ∈ back, i.key ≠ .opacity) (valid : o.check = .ok ()) (delayed : 0.0 < o.delay)
    (alone : ∀ u ∈ s.registered (s.now + o.delay),
      ¬ (u.due ≤ s.now + o.delay ∧ s.now + o.delay ≤ u.due)) :
    ∃ cell p, (s.advanceTo (s.now + o.delay)).1.cell? id = some cell ∧
      p.begin = s.now + o.delay ∧
      p.track = Intent.fadeFrom (cell.layer.values.get? .opacity) x ∧
      ((s.advanceTo (s.now + o.delay)).1.motion id (front ++ .fade x :: back)
        { o with delay := 0.0 }).1.playing? id .opacity = some p ∧
      (s.now + o.delay < s.now + o.delay + o.duration →
        (PlainStage.advanceTo (s.motion id (front ++ .fade x :: back) o).1
          (s.now + o.delay)).1.playing? id .opacity = some p) := by
  obtain ⟨⟨hfinite, hpositive⟩, hdelay, -⟩ := Options.finite_of_check valid
  have hproper : s.now + o.delay ≤ s.now + o.delay :=
    le_right (le_add h.clock hdelay (le_of_lt delayed))
  have hlater := unnumbered_advanceTo_motion h unheld valid delayed id (front ++ .fade x :: back)
    hproper alone
  have hnow : (s.advanceTo (s.now + o.delay)).1.now = s.now + o.delay := by
    apply now_advanceTo h
    exact le_add h.clock hdelay (le_of_lt delayed)
  have hheld := hold?_advanceTo s (s.now + o.delay)
  have hrest : ∀ v ∈ (s.advanceTo (s.now + o.delay)).1.timers, ¬ v.due ≤ s.now + o.delay :=
    fun v hv => not_due_of_mem_advanceTo h hv (unheld.not_busy v.job)
  generalize (s.advanceTo (s.now + o.delay)).1 = r at hlater hnow hheld hrest ⊢
  rw [motion_of_immediate valid] at hlater ⊢
  obtain ⟨cell, hcell, hfree⟩ :=
    (unheld.of_hold? hheld).exists_cell ((Stage.isAlive_of_hold? hheld id).trans alive)
  obtain ⟨p, hp, hbegin, htrack⟩ :=
    Stage.playing?_perform_fade hcell hfree front x last o.duration o.easing
  refine ⟨cell, p, hcell, by rw [hbegin, hnow], htrack, hp, fun lasts => ?_⟩
  -- The completion of the fade is due later, and so nothing ends it in the advance that starts it.
  have hidle := popDue_perform (r := r) hrest hfinite hpositive (by rw [hnow]; exact lasts) id
    (front ++ .fade x :: back) o.easing
  rw [← playing?_advanceTo_of_idle hidle] at hp
  exact (congrArg (Stage.playing? · id .opacity) hlater).trans hp

/-! ## §6 The law -/

/-- While no layer is in use, a motion with a delay comes to the same as if the caller had moved the
clock ahead by the delay, made the motion without a delay and gone on: at every later moment the
layers, the clock, the numbers of animations and the waiting jobs are the same, but for the numbers
of registrations.  All that is asked is that no job which is registered on the way falls due exactly
when the motion starts.

In particular a fade that is put off starts at the opacity which its layer holds then, and unless it
is over at once that fade is what runs. -/
theorem motion_advanceTo {s : PlainStage Float} (h : Reachable s)
    (unheld : ∀ id, s.hold? id = none ∨ s.hold? id = some .free) {id : LayerId}
    (alive : s.isAlive id = true) {o : Options Float} (valid : o.check = .ok ())
    (delayed : 0.0 < o.delay)
    (alone : ∀ u ∈ s.registered (s.now + o.delay),
      ¬ (u.due ≤ s.now + o.delay ∧ s.now + o.delay ≤ u.due)) :
    (∀ intents t, s.now + o.delay ≤ t →
      (PlainStage.advanceTo (s.motion id intents o).1 t).1.unnumbered
        = (PlainStage.advanceTo ((s.advanceTo (s.now + o.delay)).1.motion id intents
            { o with delay := 0.0 }).1 t).1.unnumbered) ∧
    ∀ front x back, (∀ i ∈ back, i.key ≠ .opacity) →
      ∃ cell p, (s.advanceTo (s.now + o.delay)).1.cell? id = some cell ∧
        p.begin = s.now + o.delay ∧
        p.track.start
          = some ((cell.layer.values.get? .opacity).getD (.scalar Intent.fullOpacity)) ∧
        ((s.advanceTo (s.now + o.delay)).1.motion id (front ++ .fade x :: back)
          { o with delay := 0.0 }).1.playing? id .opacity = some p ∧
        (s.now + o.delay < s.now + o.delay + o.duration →
          (PlainStage.advanceTo (s.motion id (front ++ .fade x :: back) o).1
            (s.now + o.delay)).1.playing? id .opacity = some p) := by
  have htimely := h.timely
  refine ⟨fun intents t le => ?_, fun front x back last => ?_⟩
  · exact unnumbered_advanceTo_motion htimely unheld valid delayed id intents le alone
  · obtain ⟨cell, p, hcell, hbegin, htrack, hplaying⟩ :=
      playing?_advanceTo_fade htimely unheld alive front x last valid delayed alone
    exact ⟨cell, p, hcell, hbegin, by rw [htrack]; rfl, hplaying⟩

/-- A stage on which a layer fades out, while a motion of another one is put off. -/
def fadingOut : PlainStage Float :=
  (Stage.ofLayers [.ofValues .empty, .ofValues .empty]).run
    [.motion 0 [.fade 0.0] { Options.standard with duration := 0.05 },
      .motion 1 [.scale 2.0] { Options.standard with duration := 0.05, delay := 0.02 }]

/-- Options of a motion that starts when the layer has faded out. -/
def afterwards : Options Float :=
  { Options.standard with delay := 0.1 }

/-- A fade that is put off until the first one is over starts where that one ended. -/
theorem motion_advanceTo_fadingOut :
    Reachable fadingOut ∧ (∀ id, fadingOut.hold? id = none ∨ fadingOut.hold? id = some .free) ∧
    fadingOut.isAlive 0 = true ∧ afterwards.check = .ok () ∧ 0.0 < afterwards.delay ∧
    (fadingOut.registered (fadingOut.now + afterwards.delay)).length = 1 ∧
    (PlainStage.advanceTo (fadingOut.motion 0 [.fade 1.0] afterwards).1 0.3).1.unnumbered
      = (PlainStage.advanceTo ((fadingOut.advanceTo (fadingOut.now + afterwards.delay)).1.motion 0
          [.fade 1.0] { afterwards with delay := 0.0 }).1 0.3).1.unnumbered ∧
    ∃ p, (PlainStage.advanceTo (fadingOut.motion 0 [.fade 1.0] afterwards).1
        (fadingOut.now + afterwards.delay)).1.playing? 0 .opacity = some p ∧
      (p.track.start == some (.scalar 0.0)) = true := by
  have hreachable : Reachable fadingOut := (Reachable.ofLayers _).run _
  have hunheld : fadingOut.Unheld := by decide +kernel
  have halive : fadingOut.isAlive 0 = true := by decide +kernel
  have hvalid : afterwards.check = .ok () := rfl
  have hdelayed : 0.0 < afterwards.delay := by decide +kernel
  have hregistered : (fadingOut.registered (fadingOut.now + afterwards.delay)).length = 1 := by
    decide +kernel
  have halone : ∀ u ∈ fadingOut.registered (fadingOut.now + afterwards.delay),
      ¬ (u.due ≤ fadingOut.now + afterwards.delay ∧ fadingOut.now + afterwards.delay ≤ u.due) := by
    decide +kernel
  obtain ⟨hlater, hfade⟩ := motion_advanceTo hreachable hunheld halive hvalid hdelayed halone
  refine ⟨hreachable, hunheld, halive, hvalid, hdelayed, hregistered,
    hlater [.fade 1.0] 0.3 (by decide +kernel), ?_⟩
  obtain ⟨cell, p, hcell, -, hstart, -, hplaying⟩ := hfade [] 1.0 [] (fun _ hi => absurd hi List.not_mem_nil)
  refine ⟨p, hplaying (by decide +kernel), ?_⟩
  have hopacity : ((fadingOut.advanceTo (fadingOut.now + afterwards.delay)).1.cell? 0).any
      (fun cell => some ((cell.layer.values.get? .opacity).getD (.scalar Intent.fullOpacity))
        == some (.scalar 0.0)) = true := by
    decide +kernel
  rw [hcell] at hopacity
  rw [hstart]
  exact hopacity

end PlainStage

end Numbers

end LayerAnimation
