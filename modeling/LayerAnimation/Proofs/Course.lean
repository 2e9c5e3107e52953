import LayerAnimation.Proofs.Loops

/-!
# Courses of events

What can come of a stage whose tasks run code of the caller's own.

A caller uses layers as it likes, registers jobs, attaches animations, interrupts them, and calls
the clock.  The clock starts the jobs that are due.  Every task among them is a caller again, which
may call the clock before it returns, so at any moment there may be several advances in progress,
each inside a task of the next.

- A `Scene` is such a moment, and `Next` is one step from a scene to another, with its events.
- A `Course` is a run of steps.  Nothing is assumed of callers, so an invariant of all steps holds
  wherever any caller can look at the stage.
- `Stage.Leads` says that a caller can lead from a stage to another.  The operations of a stage lead
  where they say, and so do the loops of its clock for any routines that lead somewhere themselves
  (`Stage.leads_advanceWithin`, `Stage.leads_settleWithin`): leading somewhere is closed under what
  the loops are made of (`Stage.clockClosed_leads`).
-/

namespace LayerAnimation

variable {α κ σ ρ : Type}

/-! ## §1 Scenes -/

/-- An advance in progress: where it goes, and the completions that it has refused on the way. -/
structure Passage (α : Type) where
  goal : α
  refused : List (Completion α)

/-- Who acts next. -/
inductive Turn where
  | caller
  | clock
  deriving DecidableEq

/-- A moment in the life of a stage. -/
structure Scene (α κ σ : Type) where
  stage : Stage α κ σ
  turn : Turn
  /-- The advances in progress, the innermost first. -/
  passages : List (Passage α)
  /-- The completions of animations that the caller attached and has neither handed over nor
  fired. -/
  kept : Multiset (Completion α)

namespace Scene

/-- A stage without layers and jobs, on which nothing has happened yet. -/
def opening [Scalar α] (desk : σ) : Scene α κ σ :=
  ⟨.empty desk, .caller, [], 0⟩

/-- The completions that the advances in progress have refused. -/
def refused (x : Scene α κ σ) : List (Completion α) :=
  x.passages.flatMap Passage.refused

end Scene

/-- What an observer can note. -/
inductive Event (α κ : Type) where
  /-- The clock started a job. -/
  | started (u : Timer α κ)
  /-- A completion was handed over to the stage. -/
  | registered (c : Completion α)
  /-- A completion was committed, or dropped with its layer. -/
  | ended (c : Completion α)

namespace Event

def started? : Event α κ → Option (Timer α κ)
  | .started u => some u
  | _ => none

def registered? : Event α κ → Option (Completion α)
  | .registered c => some c
  | _ => none

def ended? : Event α κ → Option (Completion α)
  | .ended c => some c
  | _ => none

end Event

/-! ## §2 Steps and courses -/

variable [Scalar α]

/-- One step from a scene to another, and the events that go with it. -/
inductive Next : Scene α κ σ → List (Event α κ) → Scene α κ σ → Prop where
  /-- A caller does anything that concerns neither the clock nor the queue nor the numbers of
  animations. -/
  | rearrange {s s' : Stage α κ σ} {ps kept} (now : s'.now = s.now) (nextId : s'.nextId = s.nextId)
      (seq : s'.seq = s.seq) (timers : s'.timers = s.timers) :
      Next ⟨s, .caller, ps, kept⟩ [] ⟨s', .caller, ps, kept⟩
  /-- A caller registers a task. -/
  | put {s ps kept after} {job : Job α κ} (task : ∀ c, job ≠ .completion c) :
      Next ⟨s, .caller, ps, kept⟩ [] ⟨s.enqueue after job, .caller, ps, kept⟩
  /-- A caller attaches an animation by some clock; if it succeeds the completion is the
  caller's. -/
  | attach {s : Stage α κ σ} {ps kept} (now : α) (id : LayerId) (a : Animation α) :
      Next ⟨s, .caller, ps, kept⟩ []
        ⟨(s.attach now id a).1, .caller, ps, ↑(s.attach now id a).2.toList + kept⟩
  /-- A caller hands a completion over to the stage. -/
  | handOver {s ps kept c} (after : α) :
      Next ⟨s, .caller, ps, c ::ₘ kept⟩ [.registered c]
        ⟨s.enqueueCompletion after c, .caller, ps, kept⟩
  /-- A caller is done with a completion of its own. -/
  | dispose {s ps kept c} : Next ⟨s, .caller, ps, c ::ₘ kept⟩ [] ⟨s, .caller, ps, kept⟩
  /-- A caller interrupts an animation, whose completion is over. -/
  | interrupt {s s' ps kept id u c n} (found : s.timers.find? (Timer.isCompletionOf id) = some u)
      (isCompletion : u.completion? = some c)
      (fired : (s.cancel id).fire c .interrupted = (s', .ok n)) :
      Next ⟨s, .caller, ps, kept⟩ [.ended c] ⟨s', .caller, ps, kept⟩
  /-- A caller interrupts an animation while its layer is in use, so the completion waits again. -/
  | suspend {s s' ps kept id u c} (found : s.timers.find? (Timer.isCompletionOf id) = some u)
      (isCompletion : u.completion? = some c)
      (fired : (s.cancel id).fire c .interrupted = (s', .error c)) :
      Next ⟨s, .caller, ps, kept⟩ [] ⟨s'.enqueue 0.0 (.completion c), .caller, ps, kept⟩
  /-- A caller calls the clock. -/
  | call {s ps kept} (t : α) : Next ⟨s, .caller, ps, kept⟩ [] ⟨s, .clock, ⟨t, []⟩ :: ps, kept⟩
  /-- A task returns to the advance that started it. -/
  | finish {s p ps kept} : Next ⟨s, .caller, p :: ps, kept⟩ [] ⟨s, .clock, p :: ps, kept⟩
  /-- The clock starts a task. -/
  | task {s r t cs ps kept u} (popped : s.popDue t = some (u, r)) (isTask : u.completion? = none) :
      Next ⟨s, .clock, ⟨t, cs⟩ :: ps, kept⟩ [.started u]
        ⟨(r.moveClock u.due).sync, .caller, ⟨t, cs⟩ :: ps, kept⟩
  /-- The clock starts a completion, which is over. -/
  | commit {s r s' t cs ps kept u c n} (popped : s.popDue t = some (u, r))
      (isCompletion : u.completion? = some c)
      (fired : (r.moveClock u.due).sync.fire c .finished = (s', .ok n)) :
      Next ⟨s, .clock, ⟨t, cs⟩ :: ps, kept⟩ [.started u, .ended c]
        ⟨s', .clock, ⟨t, cs⟩ :: ps, kept⟩
  /-- The clock starts a completion whose layer is in use, and sets it aside. -/
  | refuse {s r s' t cs ps kept u c} (popped : s.popDue t = some (u, r))
      (isCompletion : u.completion? = some c)
      (fired : (r.moveClock u.due).sync.fire c .finished = (s', .error c)) :
      Next ⟨s, .clock, ⟨t, cs⟩ :: ps, kept⟩ [.started u]
        ⟨s', .clock, ⟨t, cs ++ [c]⟩ :: ps, kept⟩
  /-- The clock arrives, registers again what it has refused, and returns to its caller. -/
  | arrive {s : Stage α κ σ} {t cs ps kept} (idle : s.popDue t = none) :
      Next ⟨s, .clock, ⟨t, cs⟩ :: ps, kept⟩ []
        ⟨((s.moveClock t).requeue cs).sync, .caller, ps, kept⟩

/-- A run of steps, with all events in their order. -/
inductive Course : Scene α κ σ → List (Event α κ) → Scene α κ σ → Prop where
  | refl {x} : Course x [] x
  | tail {x y z es ds} (run : Course x es y) (last : Next y ds z) : Course x (es ++ ds) z

theorem Next.course {x y : Scene α κ σ} {es : List (Event α κ)} (h : Next x es y) :
    Course x es y :=
  .tail .refl h

theorem Course.trans {x y z : Scene α κ σ} {es ds : List (Event α κ)} (h₁ : Course x es y)
    (h₂ : Course y ds z) : Course x (es ++ ds) z := by
  induction h₂ with
  | refl => rwa [List.append_nil]
  | tail _ last ih =>
    rw [← List.append_assoc]
    exact .tail ih last

/-! ## §3 Where a caller leads -/

/-- The jobs that were started, by their due times and registrations. -/
def Event.starts (es : List (Event α κ)) : List (α × Nat) :=
  (es.filterMap started?).map fun u => (u.due, u.seq)

omit [Scalar α] in
theorem Event.starts_append (es ds : List (Event α κ)) :
    starts (es ++ ds) = starts es ++ starts ds := by
  simp [starts]

namespace Stage

/-- A caller can lead from a stage to another, whatever advances are in progress, so that these jobs
are started meanwhile.  The completions that the caller keeps are to be found on its desk. -/
def Leads (keeps : σ → Multiset (Completion α)) (s : Stage α κ σ) (starts : List (α × Nat))
    (s' : Stage α κ σ) : Prop :=
  ∀ ps, ∃ es, Course ⟨s, .caller, ps, keeps s.desk⟩ es ⟨s', .caller, ps, keeps s'.desk⟩ ∧
    Event.starts es = starts

variable {keeps : σ → Multiset (Completion α)} {s s' s'' : Stage α κ σ}

theorem Leads.refl : Leads keeps s [] s :=
  fun _ => ⟨[], .refl, rfl⟩

theorem Leads.trans {l l' : List (α × Nat)} (h₁ : Leads keeps s l s') (h₂ : Leads keeps s' l' s'') :
    Leads keeps s (l ++ l') s'' := by
  intro ps
  obtain ⟨es, hes, rfl⟩ := h₁ ps
  obtain ⟨ds, hds, rfl⟩ := h₂ ps
  exact ⟨es ++ ds, hes.trans hds, Event.starts_append es ds⟩

/-- What concerns neither the clock nor the queue nor the numbers of animations nor the completions
that are kept. -/
theorem leads_rearrange (now : s'.now = s.now) (nextId : s'.nextId = s.nextId)
    (seq : s'.seq = s.seq) (timers : s'.timers = s.timers) (kept : keeps s'.desk = keeps s.desk) :
    Leads keeps s [] s' := by
  intro ps
  refine ⟨[], ?_, rfl⟩
  rw [kept]
  exact (Next.rearrange now nextId seq timers).course

theorem leads_put (after : α) {job : Job α κ} (task : ∀ c, job ≠ .completion c) :
    Leads keeps s [] (s.enqueue after job) :=
  fun _ => ⟨[], (Next.put task).course, rfl⟩

/-! ## §4 The operations of a stage -/

omit [Scalar α] in
theorem desk_follow (s : Stage α κ σ) (id : LayerId) : (s.follow id).desk = s.desk := by
  unfold follow
  split <;> rfl

theorem desk_requeue (s : Stage α κ σ) (cs : List (Completion α)) :
    (s.requeue cs).desk = s.desk := by
  obtain ⟨seq, timers, h⟩ := exists_requeue_eq s cs
  rw [h]

theorem leads_setHold (id : LayerId) (hold : Hold) : Leads keeps s [] (s.setHold id hold) :=
  leads_rearrange rfl rfl rfl rfl rfl

theorem leads_watch (id : LayerId) : Leads keeps s [] (s.watch id) :=
  leads_rearrange (now_follow s id) (nextId_follow s id) (seq_follow s id) (timers_follow s id)
    (congrArg keeps (desk_follow s id))

/-- A caller keeps the completion of what it attaches. -/
theorem course_attach {now : α} {id : LayerId} {a : Animation α} {attached : Option (Completion α)}
    (h : s.attach now id a = (s', attached)) (ps : List (Passage α)) :
    Course (⟨s, .caller, ps, keeps s.desk⟩ : Scene α κ σ) []
      ⟨s', .caller, ps, ↑attached.toList + keeps s'.desk⟩ := by
  have hdesk : (s.attach now id a).1.desk = s.desk := by
    unfold attach
    split <;> rfl
  -- The desk is as it was, so what it keeps is not the new completion.
  have hattach : Next ⟨s, .caller, ps, keeps s.desk⟩ [] _ := .attach now id a
  rw [h] at hattach hdesk
  rw [show s'.desk = s.desk from hdesk]
  exact hattach.course

/-- Starting an animation is attaching it and handing its completion over at once. -/
theorem leads_animate (id : LayerId) (a : Animation α) : Leads keeps s [] (s.animate id a).1 := by
  intro ps
  unfold animate
  split
  · next s' e => exact ⟨[], by simpa using course_attach e ps, rfl⟩
  · next s' c e =>
    have hdesk : (s'.enqueueCompletion (completionDelay a) c).desk = s'.desk :=
      desk_follow s' c.layer
    refine ⟨[.registered c], ?_, rfl⟩
    rw [hdesk]
    exact (course_attach e ps).tail (.handOver (completionDelay a))

theorem leads_perform (id : LayerId) (intents : List (Intent α)) (duration : α)
    (easing : Easing α) : Leads keeps s [] (s.perform id intents duration easing).1 := by
  unfold perform
  cases s.readable? id with
  | none => exact .refl
  | some l => exact leads_animate id _

theorem leads_schedule (id : LayerId) (intents : List (Intent α)) (o : Options α) :
    Leads keeps s [] (s.schedule id intents o) :=
  leads_put o.delay fun _ h => nomatch h

theorem leads_motion (id : LayerId) (intents : List (Intent α)) (o : Options α) :
    Leads keeps s [] (s.motion id intents o).1 := by
  unfold motion
  split
  · exact leads_schedule id intents o.repaired
  · exact leads_perform id intents _ _

theorem leads_interrupt (id : AnimationId) : Leads keeps s [] (s.interrupt id).1 := by
  intro ps
  rcases interrupt_cases s id with ⟨-, hsame⟩ | ⟨u, c, hfind, hc, hfired | ⟨hfired, hheld⟩, -⟩
  · rw [hsame]
    exact Leads.refl ps
  · obtain ⟨n, hfired⟩ := hfired
    have hcompletion := Timer.completion?_eq_some_iff.mpr hc
    obtain ⟨layers, hlayers⟩ := exists_layers_of_fire hfired
    rw [hlayers] at hfired ⊢
    exact ⟨_, (Next.interrupt hfind hcompletion hfired).course, rfl⟩
  · have hcompletion := Timer.completion?_eq_some_iff.mpr hc
    rw [hheld]
    exact ⟨_, (Next.suspend hfind hcompletion hfired).course, rfl⟩

/-! ## §5 The loops of the clock -/

section Loops

variable {exec : κ → Stage α κ σ → Stage α κ σ × ρ} {inner : ρ → List (α × Nat)} {cost : κ → Nat}
  {bound : Nat} {t : α} {r : Stage α κ σ} {u : Timer α κ} {c : Completion α}
  {l l' : List (α × Nat)} {cs cs' : List (Completion α)}

/-- Routines lead where they say, as long as they weigh no more than a bound together with what
waits. -/
def RoutinesLead (keeps : σ → Multiset (Completion α)) (exec : κ → Stage α κ σ → Stage α κ σ × ρ)
    (inner : ρ → List (α × Nat)) (cost : κ → Nat) (bound : Nat) : Prop :=
  ∀ r s, cost r + s.load cost ≤ bound → Leads keeps s (inner (exec r s).2) (exec r s).1

/-- Within an advance to a moment the clock can lead from a stage to another, whatever was refused
before, so that these jobs are started and these completions are refused meanwhile. -/
def LeadsWithin (keeps : σ → Multiset (Completion α)) (t : α) (s : Stage α κ σ)
    (starts : List (α × Nat)) (refused : List (Completion α)) (s' : Stage α κ σ) : Prop :=
  ∀ before ps, ∃ es, Course ⟨s, .clock, ⟨t, before⟩ :: ps, keeps s.desk⟩ es
      ⟨s', .clock, ⟨t, before ++ refused⟩ :: ps, keeps s'.desk⟩ ∧ Event.starts es = starts

theorem LeadsWithin.refl : LeadsWithin keeps t s [] [] s := by
  intro before ps
  rw [List.append_nil]
  exact ⟨[], .refl, rfl⟩

theorem LeadsWithin.trans (h₁ : LeadsWithin keeps t s l cs s')
    (h₂ : LeadsWithin keeps t s' l' cs' s'') :
    LeadsWithin keeps t s (l ++ l') (cs ++ cs') s'' := by
  intro before ps
  obtain ⟨es, hes, rfl⟩ := h₁ before ps
  obtain ⟨ds, hds, rfl⟩ := h₂ (before ++ cs) ps
  rw [← List.append_assoc]
  exact ⟨es ++ ds, hes.trans hds, Event.starts_append es ds⟩

/-- To take a job and move the clock to it leaves the desk alone. -/
theorem desk_of_popDue (popped : s.popDue t = some (u, r)) :
    (r.moveClock u.due).sync.desk = s.desk := by
  obtain ⟨us, -, -, rfl⟩ := popDue_eq_some_iff.mp popped
  rfl

/-- A task that is started acts as a caller and returns. -/
theorem leadsWithin_task (popped : s.popDue t = some (u, r)) (isTask : u.completion? = none)
    (acted : Leads keeps (r.moveClock u.due).sync l s') :
    LeadsWithin keeps t s ((u.due, u.seq) :: l) [] s' := by
  intro before ps
  obtain ⟨es, hes, rfl⟩ := acted (⟨t, before⟩ :: ps)
  rw [desk_of_popDue popped] at hes
  have hreturned := ((Next.task popped isTask).course.trans hes).tail .finish
  rw [List.append_nil] at hreturned ⊢
  exact ⟨_, hreturned, rfl⟩

/-- A completion that is started is over. -/
theorem leadsWithin_commit {n : Nat} (popped : s.popDue t = some (u, r))
    (isCompletion : u.completion? = some c)
    (fired : (r.moveClock u.due).sync.fire c .finished = (s', .ok n)) :
    LeadsWithin keeps t s [(u.due, u.seq)] [] s' := by
  intro before ps
  have hdesk := desk_of_popDue popped
  obtain ⟨layers, hlayers⟩ := exists_layers_of_fire fired
  have hdesk' : s'.desk = s.desk := by rwa [hlayers]
  rw [hdesk', List.append_nil]
  exact ⟨_, (Next.commit popped isCompletion fired).course, rfl⟩

/-- A completion that is started is set aside. -/
theorem leadsWithin_refuse (popped : s.popDue t = some (u, r))
    (isCompletion : u.completion? = some c)
    (fired : (r.moveClock u.due).sync.fire c .finished = (s', .error c)) :
    LeadsWithin keeps t s [(u.due, u.seq)] [c] s' := by
  intro before ps
  have hdesk := desk_of_popDue popped
  obtain ⟨hsame, -⟩ := fire_of_error fired
  rw [← hsame] at hdesk
  rw [hdesk]
  exact ⟨_, (Next.refuse popped isCompletion fired).course, rfl⟩

/-- The call opens a passage, and the arrival closes it. -/
theorem LeadsWithin.arrive (run : LeadsWithin keeps t s l cs s') (idle : s'.popDue t = none) :
    Leads keeps s l ((s'.moveClock t).requeue cs).sync := by
  intro ps
  obtain ⟨es, hes, rfl⟩ := run [] ps
  have hcall : Next ⟨s, .caller, ps, keeps s.desk⟩ [] _ := .call t
  have hdesk : ((s'.moveClock t).requeue cs).sync.desk = s'.desk := desk_requeue _ _
  have harrived := (hcall.course.trans hes).tail (.arrive idle)
  rw [List.nil_append, List.append_nil] at harrived
  rw [hdesk]
  exact ⟨es, harrived, rfl⟩

/-- Courses are closed under what the clock does. -/
theorem clockClosed_leads (keeps : σ → Multiset (Completion α)) :
    ClockClosed (Leads (α := α) (κ := κ) keeps) (LeadsWithin keeps) where
  rest _ := .refl
  trans := .trans
  perform _ := leads_perform
  stay _ _ := .refl
  append := .trans
  task := leadsWithin_task
  commit := leadsWithin_commit
  refuse := leadsWithin_refuse
  arrive := LeadsWithin.arrive

/-- Starting the due jobs leads where it says. -/
theorem leadsWithin_startDue (hcost : KeepsCost exec cost)
    (hexec : RoutinesLead keeps exec inner cost bound) (t : α) (fuel : Nat) (s : Stage α κ σ)
    (enough : s.load cost ≤ bound) :
    LeadsWithin keeps t s ((startDue exec t fuel s).2.flatMap (Firing.starts inner))
      ((startDue exec t fuel s).2.filterMap Firing.refused?) (startDue exec t fuel s).1 :=
  (clockClosed_leads keeps).startDue inner hexec hcost t fuel s enough

/-- An advance leads where it says. -/
theorem leads_advanceWithin (hcost : KeepsCost exec cost)
    (hexec : RoutinesLead keeps exec inner cost bound) (t : α) {fuel : Nat} {s : Stage α κ σ}
    (enough : s.load cost ≤ bound) (hfuel : s.load cost ≤ fuel) :
    Leads keeps s ((advanceWithin exec fuel t s).2.flatMap (Firing.starts inner))
      (advanceWithin exec fuel t s).1 :=
  (clockClosed_leads keeps).advanceWithin inner hexec hcost t enough hfuel

/-- Settling leads where it says. -/
theorem leads_settleWithin (hcost : KeepsCost exec cost)
    (hexec : RoutinesLead keeps exec inner cost bound) {fuel : Nat} (rounds : Nat)
    {s : Stage α κ σ} (enough : s.load cost ≤ bound) (hfuel : s.load cost ≤ fuel) :
    Leads keeps s ((settleWithin exec fuel rounds s).2.flatMap (Firing.starts inner))
      (settleWithin exec fuel rounds s).1 :=
  (clockClosed_leads keeps).settleWithin inner hexec hcost rounds enough hfuel

end Loops

end Stage

end LayerAnimation
