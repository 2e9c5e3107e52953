import LayerAnimation.Proofs.Course
import LayerAnimation.Session.Run

/-!
# Sessions are courses

Commands are calls of a caller, and the routines of a session are its tasks.  So whatever holds along
every course holds at every point of a session.

- `Session.load_perform`: a command leaves less behind than it weighed, whatever it causes.
- `Session.leads_perform`: with fuel for its cost and for what waits, a command leads from one stage
  to the next, starting the jobs of which its entry tells (`Entry.starts`).
- `Session.course_run`: a session is a course from the opening scene, for the fuel that it runs with.
-/

namespace LayerAnimation

variable {α : Type}

/-! ## §1 The jobs of an entry -/

mutual

/-- The jobs that were started for an entry, in the order of the starts, by due time and
registration. -/
def Entry.starts {α : Type} : Entry α → List (α × Nat)
  | .mk reply _ _ firings => Reply.starts reply ++ Entry.startsOfFirings firings

/-- The jobs of the entries inside a reply. -/
def Reply.starts {α : Type} : Reply α (Entry α) → List (α × Nat)
  | .entries es => Entry.startsOfAll es
  | _ => []

/-- The jobs of some entries. -/
def Entry.startsOfAll {α : Type} : List (Entry α) → List (α × Nat)
  | [] => []
  | e :: es => Entry.starts e ++ Entry.startsOfAll es

/-- The jobs of some firings: each of them, and behind it those that it started in turn. -/
def Entry.startsOfFirings {α : Type} : List (Firing α (Report α (Entry α))) → List (α × Nat)
  | [] => []
  | f :: fs => Entry.startsOfFiring f ++ Entry.startsOfFirings fs

/-- The job of a firing and those that it started in turn. -/
def Entry.startsOfFiring {α : Type} : Firing α (Report α (Entry α)) → List (α × Nat)
  | ⟨due, seq, outcome⟩ => (due, seq) :: Entry.startsOfOutcome outcome

/-- The jobs that a job started in turn. -/
def Entry.startsOfOutcome {α : Type} : Outcome α (Report α (Entry α)) → List (α × Nat)
  | .ran record => Report.starts record
  | _ => []

/-- The jobs that a routine started. -/
def Report.starts {α : Type} : Report α (Entry α) → List (α × Nat)
  | ⟨_, _, steps⟩ => Entry.startsOfAll steps

end

theorem Entry.startsOfFirings_eq (fs : List (Firing α (Report α (Entry α)))) :
    startsOfFirings fs = fs.flatMap (Firing.starts Report.starts) := by
  induction fs with
  | nil => rfl
  | cons f fs ih =>
    obtain ⟨due, seq, outcome⟩ := f
    rw [startsOfFirings, ih, List.flatMap_cons]
    congr 1
    cases outcome <;> rfl

/-! ## §2 Costs -/

/-- The cost of a routine: its start, and all that its commands can cause. -/
def Routine.cost (r : Routine α) : Nat :=
  1 + Command.costAll r.body

namespace Stage

variable {κ σ ρ : Type} [Scalar α] {exec : κ → Stage α κ σ → Stage α κ σ × ρ} {cost : κ → Nat}

/-- Settling leaves no more than there was. -/
theorem KeepsCost.load_settleWithin (h : KeepsCost exec cost) (fuel rounds : Nat)
    (s : Stage α κ σ) : (settleWithin exec fuel rounds s).1.load cost ≤ s.load cost := by
  induction rounds generalizing s with
  | zero => exact Nat.le_refl _
  | succ rounds ih =>
    unfold settleWithin
    cases s.timers with
    | nil => exact Nat.le_refl _
    | cons u us =>
      have hadvance := h.load_advanceWithin fuel u.due s
      have hrest := ih (advanceWithin exec fuel u.due s).1
      dsimp only
      split
      · omega
      · dsimp only
        omega

omit [Scalar α] in
/-- The completion that is withdrawn takes its own load away. -/
theorem load_cancel (cost : κ → Nat) {s : Stage α κ σ} {id : AnimationId} {u : Timer α κ}
    {c : Completion α} (found : s.timers.find? (Timer.isCompletionOf id) = some u)
    (hc : u.job = .completion c) : (s.cancel id).load cost + 1 = s.load cost := by
  obtain ⟨before, after, hsplit, hcancel⟩ := exists_split_of_find? found
  rw [load, load, hsplit, hcancel]
  clear hsplit hcancel
  induction before with
  | nil => simp [Timer.loads, hc, Job.load, Nat.add_comm]
  | cons v vs ih =>
    simp only [Timer.loads, List.cons_append, List.foldr_cons] at ih ⊢
    omega

/-- An interruption leaves no more than there was. -/
theorem load_interrupt (cost : κ → Nat) (s : Stage α κ σ) (id : AnimationId) :
    (s.interrupt id).1.load cost ≤ s.load cost := by
  rcases interrupt_cases s id with ⟨-, hsame⟩ | ⟨u, c, hfind, hc, ⟨n, hfired⟩ | ⟨-, hheld⟩, -⟩
  · rw [hsame]
  · have hfire := load_fire cost (s.cancel id) c .interrupted
    have hless := load_cancel cost hfind hc
    rw [hfired] at hfire
    dsimp only at hfire
    omega
  · have hless := load_cancel cost hfind hc
    rw [hheld, load_enqueue, Job.load]
    omega

/-- A motion brings at most the load of a motion that is put off. -/
theorem load_motion (cost : κ → Nat) (s : Stage α κ σ) (id : LayerId) (intents : List (Intent α))
    (o : Options α) : (s.motion id intents o).1.load cost ≤ 2 + s.load cost := by
  unfold motion
  split
  · exact Nat.le_of_eq (load_enqueue cost s _ _)
  · exact Nat.le_trans (load_perform cost s id intents _ _) (by omega)

end Stage

theorem Command.one_le_cost (c : Command α) : 1 ≤ c.cost := by
  cases c <;> simp only [cost] <;> omega

namespace Session

/-! ## §3 What commands leave behind -/

theorem timers_release (s : Session α) (name : String) : (s.release name).timers = s.timers := by
  unfold release
  split <;> rfl

theorem timers_addNamed (s : Session α) (name : String) (l : Layer α) :
    (s.addNamed name l).timers = s.timers :=
  timers_release s name

theorem asking_eq (s : Session α) (name : String) (answer : Layer α → Reply α (Entry α)) :
    (s.asking name answer).1 = s := by
  unfold asking
  split
  · rfl
  · split <;> rfl

/-- Changing a layer is setting it, if at all. -/
theorem changing_cases (s : Session α) (name : String)
    (change : Layer α → Layer α × Reply α (Entry α)) :
    (s.changing name change).1 = s ∨ ∃ id l, (s.changing name change).1 = s.setLayer id l := by
  unfold changing
  split
  · exact .inl rfl
  · split
    · exact .inl rfl
    · exact .inr ⟨_, _, rfl⟩

theorem load_acting (s : Session α) (name : String) (act : LayerId → Session α × Reply α (Entry α))
    {n : Nat} (hs : s.load Routine.cost ≤ n) (hact : ∀ id, (act id).1.load Routine.cost ≤ n) :
    (s.acting name act).1.load Routine.cost ≤ n := by
  unfold acting
  split
  · exact hs
  · exact hact _

theorem load_changing (s : Session α) (name : String)
    (change : Layer α → Layer α × Reply α (Entry α)) :
    (s.changing name change).1.load Routine.cost = s.load Routine.cost := by
  rcases changing_cases s name change with hsame | ⟨id, l, hset⟩
  · rw [hsame]
  · rw [hset]
    rfl

section Recorder

variable [Scalar α]

theorem timers_record (s : Session α) (id : LayerId) (a : Animation α) :
    (s.record id a).1.timers = s.timers := by
  have hattach := Stage.timers_attach s s.desk.clock id a
  unfold record
  split <;> next e =>
    rw [e] at hattach
    exact hattach

omit [Scalar α] in
theorem timers_fireRecording (s : Session α) (n : Nat) (ending : Ending) :
    (s.fireRecording n ending).1.timers = s.timers := by
  unfold fireRecording
  split
  · rfl
  · next r _ =>
    have hfire := Stage.timers_fire s r.completion ending
    split <;> next e =>
      rw [e] at hfire
      exact hfire

theorem load_handOver (s : Session α) (n : Nat) (after : α) :
    (s.handOver n after).1.load Routine.cost ≤ 1 + s.load Routine.cost := by
  unfold handOver
  split
  · exact Nat.le_add_left _ _
  · next r _ =>
    have hfollow := Stage.load_congr Routine.cost
      (Stage.timers_follow (s.useRecording n) r.completion.layer)
    rw [Stage.enqueueCompletion, Stage.load_enqueue, hfollow]
    exact Nat.le_refl _

end Recorder

section Load

variable [Scalar α] {step : Performer α}
  (hstep : ∀ c s, (step c s).1.load Routine.cost + 1 ≤ c.cost + s.load Routine.cost)

include hstep

omit [Scalar α] in
theorem load_performAll (cs : List (Command α)) (s : Session α) :
    (performAll step cs s).1.load Routine.cost ≤ Command.costAll cs + s.load Routine.cost := by
  induction cs generalizing s with
  | nil => simp [performAll, Command.costAll]
  | cons c cs ih =>
    have hfirst := hstep c s
    have hrest := ih (step c s).1
    simp only [performAll, Command.costAll]
    omega

omit [Scalar α] in
/-- Routines keep to their costs if the commands in them do. -/
theorem keepsCost_runRoutine : Stage.KeepsCost (runRoutine step) Routine.cost := by
  intro r s
  have hall := load_performAll hstep r.body s
  show (performAll step r.body s).1.load Routine.cost + 1 ≤ _
  rw [Routine.cost]
  omega

/-- A command weighs more than what it adds, if the commands in it do. -/
theorem load_respond (fuel : Nat) (c : Command α) (s : Session α) :
    (respond fuel step c s).1.load Routine.cost + 1 ≤ c.cost + s.load Routine.cost := by
  have hkeeps := keepsCost_runRoutine hstep
  -- Most commands leave the queue alone.
  have hsame {s' : Session α} (h : s'.timers = s.timers) :
      s'.load Routine.cost = s.load Routine.cost := Stage.load_congr _ h
  -- Some ask for a layer by its name first, and leave it at that if there is none.
  have hact {name : String} {act : LayerId → Session α × Reply α (Entry α)} (n : Nat)
      (h : ∀ id, (act id).1.load Routine.cost ≤ n + s.load Routine.cost) :
      (s.acting name act).1.load Routine.cost + 1 ≤ 1 + n + s.load Routine.cost := by
    have hle := load_acting s name act (Nat.le_add_left _ n) h
    omega
  cases c <;> simp only [respond, Command.cost, asking_eq, load_changing, moved]
  case newLayer name values =>
    have hadd := hsame (timers_addNamed s name (.ofValues values))
    omega
  case copyLayer name copy =>
    split
    · dsimp only
      omega
    · split
      · dsimp only
        omega
      · next l _ =>
        have hadd := hsame (timers_addNamed s copy l)
        dsimp only
        omega
  case dropLayer name =>
    have hrelease := hsame (timers_release s name)
    omega
  case whileHeld name hold body =>
    apply hact (Command.costAll body)
    intro id
    unfold Stage.whileHeld
    split
    · exact Nat.le_add_left _ _
    · split
      · exact load_performAll hstep body (s.setHold id hold)
      · exact Nat.le_add_left _ _
  case motion name intents options =>
    exact hact 2 fun id => Stage.load_motion _ s id intents options
  case schedule name intents options =>
    exact hact 2 fun id => Nat.le_of_eq (Stage.load_enqueue _ s _ _)
  case animate name animation =>
    exact hact 1 fun id => Stage.load_animate _ s id animation
  case record name animation =>
    apply hact 0
    intro id
    rw [Nat.zero_add]
    exact Nat.le_of_eq (hsame (timers_record s id animation))
  case fireRecording n ending =>
    have hfire := hsame (timers_fireRecording s n ending)
    omega
  case handOver n after =>
    have hover := load_handOver s n after
    omega
  case later delay label body =>
    have hlater := Stage.load_enqueue Routine.cost s delay (.routine ⟨label, body⟩)
    simp only [Job.load, Routine.cost] at hlater
    omega
  case watch name =>
    apply hact 0
    intro id
    rw [Nat.zero_add]
    exact Nat.le_of_eq (hsame (Stage.timers_follow s id))
  case advance dt =>
    have hadvance := hkeeps.load_advanceWithin fuel (s.ahead dt) s
    omega
  case advanceTo t =>
    have hadvance := hkeeps.load_advanceWithin fuel t s
    omega
  case settle =>
    have hsettle := hkeeps.load_settleWithin fuel fuel s
    omega
  case interrupt id =>
    have hinterrupt := Stage.load_interrupt Routine.cost s id
    omega
  case recorderClock t =>
    change s.load Routine.cost + 1 ≤ _
    omega
  all_goals omega

end Load

/-- A command weighs more than what it adds. -/
theorem load_perform [Scalar α] (fuel : Nat) (c : Command α) (s : Session α) :
    (perform fuel c s).1.load Routine.cost + 1 ≤ c.cost + s.load Routine.cost := by
  induction fuel generalizing c s with
  | zero =>
    have hcost := c.one_le_cost
    simp only [perform]
    omega
  | succ fuel ih => exact load_respond ih fuel c s

end Session

/-! ## §4 Where commands lead -/

/-- The completions that the recorder keeps. -/
def Desk.kept (d : Desk α) : Multiset (Completion α) :=
  ↑(d.recordings.filterMap (Option.map Recording.completion))

/-- The jobs that were started for an answer. -/
def Answer.starts (a : Answer α) : List (α × Nat) :=
  a.2.1.starts ++ a.2.2.flatMap (Firing.starts Report.starts)

theorem Answer.starts_mk (s : Session α) (reply : Reply α (Entry α)) :
    Answer.starts (s, reply, []) = reply.starts :=
  List.append_nil _

namespace Session

/-- A used recording is not kept any longer. -/
theorem kept_useRecording {s : Session α} {n : Nat} {r : Recording α}
    (h : s.recording? n = some r) :
    s.desk.kept = r.completion ::ₘ (s.useRecording n).desk.kept := by
  unfold recording? at h
  simp only [Desk.kept, useRecording, Multiset.cons_coe, Multiset.coe_eq_coe]
  generalize s.desk.recordings = rs at h
  -- The induction goes along the recordings to the one that is used.
  induction rs generalizing n with
  | nil => simp at h
  | cons first rest ih =>
    cases n with
    | zero =>
      obtain rfl : first = some r := by simpa using h
      simp
    | succ n =>
      have hrest := ih (n := n) (by simpa using h)
      rw [List.set_cons_succ, List.filterMap_cons, List.filterMap_cons]
      cases first with
      | none => exact hrest
      | some q => exact (hrest.cons q.completion).trans (.swap _ _ _)

variable [Scalar α] {s : Session α}

/-- Nothing happens to the stage of a session but to its layers and its names. -/
theorem leads_rename {s' : Session α} (now : s'.now = s.now) (nextId : s'.nextId = s.nextId)
    (seq : s'.seq = s.seq) (timers : s'.timers = s.timers)
    (recordings : s'.desk.recordings = s.desk.recordings) : Stage.Leads Desk.kept s [] s' :=
  Stage.leads_rearrange now nextId seq timers (by rw [Desk.kept, recordings, Desk.kept])

theorem leads_release (name : String) : Stage.Leads Desk.kept s [] (s.release name) := by
  unfold release
  split
  · exact .refl
  · exact leads_rename rfl rfl rfl rfl rfl

theorem leads_addNamed (name : String) (l : Layer α) :
    Stage.Leads Desk.kept s [] (s.addNamed name l) :=
  (leads_release name).trans (leads_rename rfl rfl rfl rfl rfl)

theorem leads_asking (name : String) {answer : Layer α → Reply α (Entry α)}
    (h : ∀ l, (answer l).starts = []) :
    Stage.Leads Desk.kept s (s.asking name answer).starts (s.asking name answer).1 := by
  unfold asking
  split
  · exact .refl
  · split
    · exact .refl
    · next l _ =>
      rw [Answer.starts_mk, h l]
      exact .refl

theorem leads_changing (name : String) {change : Layer α → Layer α × Reply α (Entry α)}
    (h : ∀ l, (change l).2.starts = []) :
    Stage.Leads Desk.kept s (s.changing name change).starts (s.changing name change).1 := by
  unfold changing
  split
  · exact .refl
  · split
    · exact .refl
    · next l _ =>
      rw [Answer.starts_mk, h l]
      exact leads_rename rfl rfl rfl rfl rfl

theorem leads_acting (name : String) {act : LayerId → Session α × Reply α (Entry α)}
    (h : ∀ id, Stage.Leads Desk.kept s (act id).2.starts (act id).1) :
    Stage.Leads Desk.kept s (s.acting name act).starts (s.acting name act).1 := by
  unfold acting
  split
  · exact .refl
  · next id _ =>
    rw [Answer.starts_mk]
    exact h id

/-- The recorder keeps the completion of what it attaches. -/
theorem leads_record (id : LayerId) (a : Animation α) :
    Stage.Leads Desk.kept s [] (s.record id a).1 := by
  intro ps
  unfold record
  split
  · next s' e => exact ⟨[], by simpa using Stage.course_attach e ps, rfl⟩
  · next s' c e =>
    refine ⟨[], (Stage.course_attach e ps).tail ?_, rfl⟩
    have hkept : (↑(some c).toList + s'.desk.kept : Multiset (Completion α))
        = Desk.kept { s'.desk with
          recordings := s'.desk.recordings ++ [some ⟨Stage.completionDelay a, c⟩] } := by
      simp [Desk.kept, List.filterMap_append, ← Multiset.coe_add, add_comm]
    rw [hkept]
    exact .rearrange rfl rfl rfl rfl

theorem leads_fireRecording (n : Nat) (ending : Ending) :
    Stage.Leads Desk.kept s (s.fireRecording n ending).2.starts (s.fireRecording n ending).1 := by
  unfold fireRecording
  split
  · exact .refl
  · next r hr =>
    split
    · next s' c e =>
      obtain ⟨layers, rfl⟩ := Stage.exists_layers_of_fire e
      exact leads_rename rfl rfl rfl rfl rfl
    · next s' count e =>
      obtain ⟨layers, rfl⟩ := Stage.exists_layers_of_fire e
      intro ps
      refine ⟨[], ?_, rfl⟩
      rw [kept_useRecording hr]
      exact Next.dispose.course.tail (.rearrange rfl rfl rfl rfl)

theorem leads_handOver (n : Nat) (after : α) :
    Stage.Leads Desk.kept s (s.handOver n after).2.starts (s.handOver n after).1 := by
  unfold handOver
  split
  · exact .refl
  · next r hr =>
    intro ps
    -- First the recording is used up, while the caller still keeps the completion.
    have hdesk := Stage.desk_follow (s.useRecording n) r.completion.layer
    refine ⟨[.registered r.completion], ?_, rfl⟩
    rw [kept_useRecording hr, show ((s.useRecording n).enqueueCompletion after r.completion).desk
      = (s.useRecording n).desk from hdesk]
    have huse : Next ⟨s, .caller, ps, r.completion ::ₘ (s.useRecording n).desk.kept⟩ []
        ⟨s.useRecording n, .caller, ps, r.completion ::ₘ (s.useRecording n).desk.kept⟩ :=
      .rearrange rfl rfl rfl rfl
    exact huse.course.tail (.handOver after)

section Leads

variable {step : Performer α} {fuel : Nat}
  (hload : ∀ c s, (step c s).1.load Routine.cost + 1 ≤ c.cost + s.load Routine.cost)
  (hstep : ∀ c s, c.cost + s.load Routine.cost ≤ fuel →
    Stage.Leads Desk.kept s (step c s).2.starts (step c s).1)

include hload hstep

theorem leads_performAll (cs : List (Command α)) (s : Session α)
    (enough : Command.costAll cs + s.load Routine.cost ≤ fuel) :
    Stage.Leads Desk.kept s (Entry.startsOfAll (performAll step cs s).2)
      (performAll step cs s).1 := by
  induction cs generalizing s with
  | nil => exact .refl
  | cons c cs ih =>
    simp only [Command.costAll] at enough
    have hfirst := hload c s
    exact (hstep c s (by omega)).trans (ih (step c s).1 (by omega))

theorem leads_whileHeld (id : LayerId) (hold : Hold) (body : List (Command α)) (s : Session α)
    (enough : Command.costAll body + s.load Routine.cost ≤ fuel) :
    let result := s.whileHeld id hold (performAll step body)
    Stage.Leads Desk.kept s (result.2.elim (.busy : Reply α (Entry α)) .entries).starts
      result.1 := by
  unfold Stage.whileHeld
  split
  · exact .refl
  · next c _ =>
    split
    · -- The layer is in use for the commands, and afterwards as it was.
      have hbody := leads_performAll hload hstep body (s.setHold id hold) enough
      have hall := ((Stage.leads_setHold id hold).trans hbody).trans
        (Stage.leads_setHold id c.hold)
      rwa [List.append_nil] at hall
    · exact .refl

/-- The routines of a session lead where they say. -/
theorem routinesLead : Stage.RoutinesLead Desk.kept (runRoutine step) Report.starts Routine.cost
    fuel := by
  intro r s enough
  rw [Routine.cost] at enough
  exact leads_performAll hload hstep r.body s (by omega)

/-- A command leads where it says if the commands in it do. -/
theorem leads_respond (c : Command α) (s : Session α)
    (enough : c.cost + s.load Routine.cost ≤ fuel + 1) :
    Stage.Leads Desk.kept s (respond fuel step c s).starts (respond fuel step c s).1 := by
  have hkeeps := keepsCost_runRoutine hload
  have hroutines := routinesLead hload hstep
  have hcost := c.one_le_cost
  -- Most commands look for a layer and act on it; those that hold a layer or move the clock run
  -- others, which have fuel left.
  cases c with
  | newLayer name values => exact leads_addNamed name _
  | copyLayer name copy =>
    simp only [respond]
    split
    · exact .refl
    · split
      · exact .refl
      · exact leads_addNamed copy _
  | dropLayer name => exact leads_release name
  | whileHeld name hold body =>
    simp only [Command.cost] at enough
    exact leads_acting name fun id => leads_whileHeld hload hstep id hold body s (by omega)
  | setValue | syncLayer | play | stop | commit => exact leads_changing _ fun _ => rfl
  | inspect | snapshot | compile => exact leads_asking _ fun _ => rfl
  | motion name intents options =>
    exact leads_acting name fun id => Stage.leads_motion id intents options
  | schedule name intents options =>
    exact leads_acting name fun id => Stage.leads_schedule id intents options
  | animate name a => exact leads_acting name fun id => Stage.leads_animate id a
  | record name a => exact leads_acting name fun id => leads_record id a
  | watch name => exact leads_acting name fun id => Stage.leads_watch id
  | fireRecording n ending =>
    rw [respond, Answer.starts_mk]
    exact leads_fireRecording n ending
  | handOver n after =>
    rw [respond, Answer.starts_mk]
    exact leads_handOver n after
  | later delay label body => exact Stage.leads_put delay fun _ h => nomatch h
  | advance dt => exact Stage.leads_advanceWithin hkeeps hroutines _ (by omega) (by omega)
  | advanceTo t => exact Stage.leads_advanceWithin hkeeps hroutines t (by omega) (by omega)
  | settle => exact Stage.leads_settleWithin hkeeps hroutines fuel (by omega) (by omega)
  | interrupt id => exact Stage.leads_interrupt id
  | recorderClock t => exact leads_rename rfl rfl rfl rfl rfl
  | dump | recordings | describe => exact .refl

end Leads

/-- With fuel for its cost and for what waits, a command leads from one stage to the next. -/
theorem leads_perform (fuel : Nat) (c : Command α) (s : Session α)
    (enough : c.cost + s.load Routine.cost ≤ fuel) :
    Stage.Leads Desk.kept s (perform fuel c s).2.starts (perform fuel c s).1 := by
  induction fuel generalizing c s with
  | zero =>
    have hcost := c.one_le_cost
    omega
  | succ fuel ih =>
    have hrespond := leads_respond (load_perform fuel) ih c s enough
    simp only [perform, Entry.starts, Entry.startsOfFirings_eq]
    exact hrespond

/-! ## §5 Whole sessions -/

/-- The session after some commands. -/
def after (commands : List (Command α)) : Session α :=
  (performAll (perform (Command.costAll commands)) commands fresh).1

/-- A session is a course from the opening scene, in which the jobs start of which its entries
tell. -/
theorem course_run (commands : List (Command α)) :
    ∃ es : List (Event α (Routine α)), Course (.opening ⟨[], 0.0, []⟩) es
        ⟨after commands, .caller, [], (after commands).desk.kept⟩ ∧
      Event.starts es = Entry.startsOfAll (run commands) :=
  leads_performAll (load_perform _) (leads_perform _) commands fresh (Nat.le_refl _) []

end Session

end LayerAnimation
