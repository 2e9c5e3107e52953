import LayerAnimation.Proofs.StartOrder

/-!
# What callers can see of completions

No completion is lost: whatever was registered and is not over yet waits on the stage, or has been
refused by an advance in progress, which registers it again when it arrives.  Until then it is at
hand of that advance, where neither the size of the queue nor an interruption takes notice of it.

- `Next.conserves`: a step keeps the completions that are not over, but for those of its events.
- `Scene.Numbered` is the invariant that tells completions apart by the numbers of their animations.
- `Course.visible_iff` says exactly what a caller can see: a completion that is not over is in the
  queue, and can be interrupted, if and only if no advance in progress has refused it.
-/

namespace LayerAnimation

open LawfulTime

variable {α κ σ : Type}

/-! ## §1 Completions that are not over -/

namespace Event

/-- The completions that were registered in the course of some events. -/
def registeredIn (es : List (Event α κ)) : Multiset (Completion α) :=
  ↑(es.filterMap registered?)

/-- The completions that were over in the course of some events. -/
def endedIn (es : List (Event α κ)) : Multiset (Completion α) :=
  ↑(es.filterMap ended?)

theorem registeredIn_append (es ds : List (Event α κ)) :
    registeredIn (es ++ ds) = registeredIn es + registeredIn ds := by
  simp [registeredIn, ← Multiset.coe_add]

theorem endedIn_append (es ds : List (Event α κ)) :
    endedIn (es ++ ds) = endedIn es + endedIn ds := by
  simp [endedIn, ← Multiset.coe_add]

theorem registered?_eq_some_iff {e : Event α κ} {c : Completion α} :
    e.registered? = some c ↔ e = .registered c := by
  cases e <;> simp [registered?]

theorem ended?_eq_some_iff {e : Event α κ} {c : Completion α} :
    e.ended? = some c ↔ e = .ended c := by
  cases e <;> simp [ended?]

theorem mem_registeredIn {es : List (Event α κ)} {c : Completion α} :
    c ∈ registeredIn es ↔ .registered c ∈ es := by
  simp [registeredIn, registered?_eq_some_iff]

theorem mem_endedIn {es : List (Event α κ)} {c : Completion α} :
    c ∈ endedIn es ↔ .ended c ∈ es := by
  simp [endedIn, ended?_eq_some_iff]

end Event

open Event

/-- The completions that wait on the stage of a scene or were refused by an advance in progress. -/
def Scene.unfinished (x : Scene α κ σ) : Multiset (Completion α) :=
  x.stage.waiting + ↑x.refused

section Steps

variable [Scalar α]

theorem Stage.waiting_requeue (s : Stage α κ σ) (cs : List (Completion α)) :
    (s.requeue cs).waiting = ↑cs + s.waiting := by
  induction cs generalizing s with
  | nil => simp [requeue]
  | cons c cs ih =>
    have hrest := ih (s.enqueue 0.0 (.completion c))
    rw [waiting_enqueue_completion] at hrest
    rw [← Multiset.cons_coe, Multiset.cons_add, ← Multiset.add_cons]
    exact hrest

/-- A step keeps what is not over: what it registers is added, and what it ends is gone. -/
theorem Next.conserves {x y : Scene α κ σ} {es : List (Event α κ)} (step : Next x es y) :
    x.unfinished + registeredIn es = y.unfinished + endedIn es := by
  -- Every case is an equation between the queues and what is at hand of the innermost advance.
  cases step with
  | @rearrange s s' ps kept now nextId seq timers =>
    show s.waiting + ↑(ps.flatMap Passage.refused) + 0
      = s'.waiting + ↑(ps.flatMap Passage.refused) + 0
    rw [Stage.waiting_congr timers]
  | @put s ps kept after job task =>
    show s.waiting + ↑(ps.flatMap Passage.refused) + 0
      = (s.enqueue after job).waiting + ↑(ps.flatMap Passage.refused) + 0
    have htask : Timer.completion? ⟨s.now + Stage.wait after, s.seq + 1, job⟩ = none := by
      cases job with
      | completion c => exact absurd rfl (task c)
      | deferred | routine => rfl
    rw [Stage.waiting_enqueue, htask, Option.toList_none, Multiset.coe_nil, zero_add]
  | @attach s ps kept now id a =>
    show s.waiting + ↑(ps.flatMap Passage.refused) + 0
      = (s.attach now id a).1.waiting + ↑(ps.flatMap Passage.refused) + 0
    rw [Stage.waiting_congr (Stage.timers_attach s now id a)]
  | @handOver s ps kept c after =>
    show s.waiting + ↑(ps.flatMap Passage.refused) + {c}
      = (s.enqueueCompletion after c).waiting + ↑(ps.flatMap Passage.refused) + 0
    rw [Stage.waiting_enqueueCompletion, ← Multiset.singleton_add]
    abel
  | dispose | call | finish => rfl
  | @interrupt s s' ps kept id u c n found isCompletion fired =>
    obtain ⟨layers, rfl⟩ := Stage.exists_layers_of_fire fired
    show s.waiting + ↑(ps.flatMap Passage.refused) + 0
      = (s.cancel id).waiting + ↑(ps.flatMap Passage.refused) + {c}
    rw [Stage.waiting_of_find? found isCompletion, ← Multiset.singleton_add]
    abel
  | @suspend s s' ps kept id u c found isCompletion fired =>
    obtain ⟨layers, rfl⟩ := Stage.exists_layers_of_fire fired
    show s.waiting + ↑(ps.flatMap Passage.refused) + 0
      = (Stage.enqueue _ 0.0 (.completion c)).waiting + ↑(ps.flatMap Passage.refused) + 0
    rw [Stage.waiting_of_find? found isCompletion, Stage.waiting_enqueue_completion]
    rfl
  | @task s r t cs ps kept u popped isTask =>
    show s.waiting + ↑(cs ++ ps.flatMap Passage.refused) + 0
      = r.waiting + ↑(cs ++ ps.flatMap Passage.refused) + 0
    rw [Stage.waiting_of_popDue popped, isTask, Option.toList_none, Multiset.coe_nil, zero_add]
  | @commit s r s' t cs ps kept u c n popped isCompletion fired =>
    obtain ⟨layers, rfl⟩ := Stage.exists_layers_of_fire fired
    show s.waiting + ↑(cs ++ ps.flatMap Passage.refused) + 0
      = r.waiting + ↑(cs ++ ps.flatMap Passage.refused) + {c}
    rw [Stage.waiting_of_popDue popped, isCompletion, Option.toList_some, Multiset.coe_singleton]
    abel
  | @refuse s r s' t cs ps kept u c popped isCompletion fired =>
    -- What leaves the queue here is neither over nor lost: the advance keeps it.
    obtain ⟨layers, rfl⟩ := Stage.exists_layers_of_fire fired
    show s.waiting + ↑(cs ++ ps.flatMap Passage.refused) + 0
      = r.waiting + ↑(cs ++ [c] ++ ps.flatMap Passage.refused) + 0
    rw [Stage.waiting_of_popDue popped, isCompletion, Option.toList_some, ← Multiset.coe_add,
      ← Multiset.coe_add, ← Multiset.coe_add]
    abel
  | @arrive s t cs ps kept idle =>
    have hrequeue := Stage.waiting_requeue (s.moveClock t) cs
    show s.waiting + ↑(cs ++ ps.flatMap Passage.refused) + 0
      = ((s.moveClock t).requeue cs).waiting + ↑(ps.flatMap Passage.refused) + 0
    rw [hrequeue, show (s.moveClock t).waiting = s.waiting from rfl, ← Multiset.coe_add]
    abel

theorem Course.conserves {x y : Scene α κ σ} {es : List (Event α κ)} (h : Course x es y) :
    x.unfinished + registeredIn es = y.unfinished + endedIn es := by
  induction h with
  | refl => rfl
  | @tail y z es ds run last ih =>
    calc x.unfinished + registeredIn (es ++ ds)
        = x.unfinished + registeredIn es + registeredIn ds := by
          rw [registeredIn_append, add_assoc]
      _ = y.unfinished + registeredIn ds + endedIn es := by rw [ih, add_right_comm]
      _ = z.unfinished + endedIn (es ++ ds) := by
          rw [last.conserves, endedIn_append, add_assoc, add_comm (endedIn ds)]

/-- Every completion that was registered is over, waits, or has been refused by an advance in
progress. -/
theorem Course.registeredIn_eq {desk : σ} {es : List (Event α κ)} {x : Scene α κ σ}
    (h : Course (.opening desk) es x) : registeredIn es = x.unfinished + endedIn es := by
  have hopening : (Scene.opening desk : Scene α κ σ).unfinished = 0 := rfl
  rw [← h.conserves, hopening, zero_add]

end Steps

/-! ## §2 The numbers of animations -/

/-- Completions that were registered or that a caller keeps have different numbers, which were drawn
already. -/
structure Scene.Numbered (x : Scene α κ σ) (registered : Multiset (Completion α)) : Prop where
  distinct : ((registered + x.kept).map Completion.id).Nodup
  drawn : ∀ c ∈ registered + x.kept, c.id < x.stage.nextId

theorem Stage.nextId_requeue [Scalar α] (s : Stage α κ σ) (cs : List (Completion α)) :
    (s.requeue cs).nextId = s.nextId := by
  obtain ⟨seq, timers, h⟩ := Stage.exists_requeue_eq s cs
  rw [h]

namespace Scene.Numbered

variable {x y : Scene α κ σ} {es : List (Event α κ)} {cs ds : Multiset (Completion α)}

theorem mono (h : x.Numbered cs) (nextId : x.stage.nextId ≤ y.stage.nextId)
    (le : ds + y.kept ≤ cs + x.kept) : y.Numbered ds where
  distinct := Multiset.nodup_of_le (Multiset.map_le_map le) h.distinct
  drawn := fun c hc => Nat.lt_of_lt_of_le (h.drawn c (Multiset.mem_of_le le hc)) nextId

/-- Where nothing is registered and the caller keeps what it kept. -/
theorem quiet (h : x.Numbered cs) (nextId : y.stage.nextId = x.stage.nextId)
    (kept : y.kept = x.kept) (none : registeredIn es = 0) : y.Numbered (cs + registeredIn es) :=
  h.mono nextId.ge (by rw [none, kept, add_zero])

variable [Scalar α]

/-- An animation that is attached has a new number. -/
theorem attach {s : Stage α κ σ} {ps : List (Passage α)} {kept : Multiset (Completion α)}
    (h : Numbered ⟨s, .caller, ps, kept⟩ cs) (now : α) (id : LayerId) (a : Animation α) :
    Numbered ⟨(s.attach now id a).1, .caller, ps, ↑(s.attach now id a).2.toList + kept⟩ cs := by
  unfold Stage.attach
  split
  · refine h.mono (Nat.le_succ _) ?_
    rw [Option.toList_none, Multiset.coe_nil, zero_add]
  · next l _ =>
    have hkept : cs + (↑(some (⟨id, s.nextId, (l.attach s.nextId now a).2⟩ : Completion α)).toList
        + kept) = ⟨id, s.nextId, (l.attach s.nextId now a).2⟩ ::ₘ (cs + kept) := by
      rw [Option.toList_some, Multiset.coe_singleton, Multiset.singleton_add, Multiset.add_cons]
    constructor
    · rw [hkept, Multiset.map_cons, Multiset.nodup_cons]
      refine ⟨fun hmem => ?_, h.distinct⟩
      -- All other numbers are lower.
      obtain ⟨c, hc, hid⟩ := Multiset.mem_map.mp hmem
      have hlt : c.id < s.nextId := h.drawn c hc
      exact absurd hid (Nat.ne_of_lt hlt)
    · rw [hkept]
      intro c hc
      rcases Multiset.mem_cons.mp hc with rfl | hc
      · exact Nat.lt_succ_self _
      · exact Nat.lt_succ_of_lt (h.drawn c hc)

/-- Every step keeps the numbers of animations apart. -/
theorem next (h : x.Numbered cs) (step : Next x es y) : y.Numbered (cs + registeredIn es) := by
  -- A completion that is handed over moves from those at hand to those registered, and one that is
  -- disposed of leaves; only an attachment draws a number.
  cases step with
  | rearrange now nextId seq timers => exact h.quiet nextId rfl rfl
  | put | call | finish => exact h.quiet rfl rfl rfl
  | attach now id a =>
    show Numbered _ (cs + 0)
    rw [add_zero]
    exact h.attach now id a
  | @handOver s ps kept c after =>
    refine h.mono (Stage.nextId_follow s c.layer).ge ?_
    show cs + {c} + kept ≤ cs + (c ::ₘ kept)
    rw [add_assoc, Multiset.singleton_add]
  | @dispose s ps kept c =>
    refine h.mono (Nat.le_refl _) ?_
    show cs + 0 + kept ≤ cs + (c ::ₘ kept)
    rw [add_zero, Multiset.add_cons]
    exact Multiset.le_cons_self _ _
  | interrupt found isCompletion fired | suspend found isCompletion fired =>
    obtain ⟨layers, rfl⟩ := Stage.exists_layers_of_fire fired
    exact h.quiet rfl rfl rfl
  | task popped isTask =>
    obtain ⟨us, -, -, rfl⟩ := Stage.popDue_eq_some_iff.mp popped
    exact h.quiet rfl rfl rfl
  | commit popped isCompletion fired | refuse popped isCompletion fired =>
    obtain ⟨us, -, -, rfl⟩ := Stage.popDue_eq_some_iff.mp popped
    obtain ⟨layers, rfl⟩ := Stage.exists_layers_of_fire fired
    exact h.quiet rfl rfl rfl
  | @arrive s t cs ps kept idle =>
    have hnext := Stage.nextId_requeue (s.moveClock t) cs
    exact h.quiet hnext rfl rfl

theorem course (h : x.Numbered cs) (run : Course x es y) : y.Numbered (cs + registeredIn es) := by
  induction run with
  | refl => exact h.quiet rfl rfl rfl
  | tail _ last ih =>
    rw [registeredIn_append, ← add_assoc]
    exact ih.next last

end Scene.Numbered

/-! ## §3 What a caller can see -/

namespace Course

variable [Scalar α] {desk : σ} {es : List (Event α κ)} {x : Scene α κ σ}

/-- On a course from the opening scene no two completions have the same number. -/
theorem numbered (h : Course (.opening desk) es x) : x.Numbered (registeredIn es) := by
  have hopening : (Scene.opening desk : Scene α κ σ).Numbered 0 :=
    ⟨Multiset.nodup_zero, fun c hc => absurd hc (Multiset.notMem_zero c)⟩
  have hcourse := hopening.course h
  rwa [zero_add] at hcourse

theorem nodup_registeredIn (h : Course (.opening desk) es x) :
    ((registeredIn es).map Completion.id).Nodup :=
  Multiset.nodup_of_le (Multiset.map_le_map (Multiset.le_add_right _ _)) h.numbered.distinct

/-- A completion that was registered and is not over waits or has been refused. -/
theorem mem_unfinished (h : Course (.opening desk) es x) {c : Completion α}
    (registered : .registered c ∈ es) (unfinished : .ended c ∉ es) :
    c ∈ x.stage.waiting ∨ c ∈ x.refused := by
  have hmem := mem_registeredIn.mpr registered
  rw [h.registeredIn_eq, Multiset.mem_add, Scene.unfinished, Multiset.mem_add] at hmem
  rcases hmem with hmem | hended
  · exact hmem
  · exact absurd (mem_endedIn.mp hended) unfinished

/-- What waits has not been refused. -/
theorem not_refused_of_waiting (h : Course (.opening desk) es x) {c : Completion α}
    (waiting : c ∈ x.stage.waiting) : c ∉ x.refused := by
  -- All that was registered has different numbers, so nothing is counted at two places.
  have hnodup := h.nodup_registeredIn.of_map
  rw [h.registeredIn_eq, Scene.unfinished] at hnodup
  obtain ⟨-, -, hdisjoint⟩ := Multiset.nodup_add.mp (Multiset.nodup_add.mp hnodup).1
  exact Multiset.disjoint_left.mp hdisjoint waiting

/-- What has been refused was registered and is not over. -/
theorem unfinished_of_refused (h : Course (.opening desk) es x) {c : Completion α}
    (refused : c ∈ x.refused) : .registered c ∈ es ∧ .ended c ∉ es := by
  have hnodup := h.nodup_registeredIn.of_map
  have hmem : c ∈ x.unfinished := Multiset.mem_add.mpr (.inr refused)
  rw [h.registeredIn_eq] at hnodup
  obtain ⟨-, -, hdisjoint⟩ := Multiset.nodup_add.mp hnodup
  refine ⟨mem_registeredIn.mp ?_, fun hended => ?_⟩
  · rw [h.registeredIn_eq]
    exact Multiset.mem_add.mpr (.inl hmem)
  · exact Multiset.disjoint_left.mp hdisjoint hmem (mem_endedIn.mpr hended)

/-- So a completion that is not over waits exactly if it has not been refused. -/
theorem waiting_iff (h : Course (.opening desk) es x) {c : Completion α}
    (registered : .registered c ∈ es) (unfinished : .ended c ∉ es) :
    c ∈ x.stage.waiting ↔ c ∉ x.refused :=
  ⟨h.not_refused_of_waiting, (h.mem_unfinished registered unfinished).resolve_right⟩

/-- The completion that an interruption finds is the one that was meant. -/
theorem eq_of_found (h : Course (.opening desk) es x) {c d : Completion α} {u : Timer α κ}
    (registered : .registered c ∈ es)
    (found : x.stage.timers.find? (Timer.isCompletionOf c.id) = some u)
    (hd : u.job = .completion d) : d = c := by
  have hwaiting : d ∈ x.stage.waiting :=
    Stage.mem_waiting.mpr ⟨u, List.mem_of_find?_eq_some found, hd⟩
  have hregistered : d ∈ registeredIn es := by
    rw [h.registeredIn_eq]
    exact Multiset.mem_add.mpr (.inl (Multiset.mem_add.mpr (.inl hwaiting)))
  have hid : d.id = c.id := by
    have hfound := List.find?_some found
    simp only [Timer.isCompletionOf, hd, beq_iff_eq] at hfound
    exact hfound
  exact Multiset.inj_on_of_nodup_map h.nodup_registeredIn d hregistered c
    (mem_registeredIn.mpr registered) hid

/-- An interruption takes notice of a completion exactly if it waits. -/
theorem interrupt_iff (h : Course (.opening desk) es x) {c : Completion α}
    (registered : .registered c ∈ es) :
    (x.stage.interrupt c.id).2 = true ↔ c ∈ x.stage.waiting := by
  rcases Stage.interrupt_cases x.stage c.id with ⟨hnone, hsame⟩ | ⟨u, d, hfind, hd, -, htrue⟩
  · rw [hsame]
    refine ⟨fun hfalse => (Bool.false_ne_true hfalse).elim, fun hwaiting => ?_⟩
    obtain ⟨u, hu, hc⟩ := Stage.mem_waiting.mp hwaiting
    have hnot := List.find?_eq_none.mp hnone u hu
    simp [Timer.isCompletionOf, hc] at hnot
  · obtain rfl := h.eq_of_found registered hfind hd
    refine ⟨fun _ => ?_, fun _ => htrue⟩
    exact Stage.mem_waiting.mpr ⟨u, List.mem_of_find?_eq_some hfind, hd⟩

/-- As many jobs wait as there are tasks, and completions that are neither over nor refused. -/
theorem pending_eq (h : Course (.opening desk) es x) :
    x.stage.pending + x.refused.length + (es.filterMap ended?).length
      = (es.filterMap registered?).length
        + x.stage.timers.countP fun u => u.completion?.isNone := by
  have hcard := congrArg Multiset.card h.registeredIn_eq
  simp only [registeredIn, endedIn, Scene.unfinished, Stage.waiting, Stage.completions,
    Multiset.card_add, Multiset.coe_card] at hcard
  -- The queue consists of completions and tasks.
  have hsplit : x.stage.pending = (x.stage.timers.filterMap Timer.completion?).length
      + x.stage.timers.countP fun u => u.completion?.isNone := by
    rw [Stage.pending, List.length_filterMap_eq_countP]
    induction x.stage.timers with
    | nil => rfl
    | cons u us ih =>
      rw [List.length_cons, List.countP_cons, List.countP_cons, ih]
      cases u.completion? <;> simp <;> omega
  omega

/-- What a caller can see, at any point of a course from the opening scene, of a completion that was
registered and is not over: it is in the queue, and can be interrupted, if and only if no advance in
progress has refused it.  Then an interruption ends it, or leaves it in the queue, due now.  Where no
advance is in progress, none has refused it.  The size of the queue counts the tasks that wait and
all such completions but the refused ones. -/
theorem visible_iff {desk : σ} {es : List (Event Float κ)} {x : Scene Float κ σ}
    (h : Course (.opening desk) es x) {c : Completion Float} (registered : .registered c ∈ es)
    (unfinished : .ended c ∉ es) :
    ((∃ u ∈ x.stage.timers, u.job = .completion c) ↔ c ∉ x.refused) ∧
    ((x.stage.interrupt c.id).2 = true ↔ c ∉ x.refused) ∧
    (c ∉ x.refused →
      (∃ n, (x.stage.cancel c.id).fire c .interrupted = ((x.stage.interrupt c.id).1, .ok n)) ∨
      ∃ u ∈ (x.stage.interrupt c.id).1.timers,
        u.job = .completion c ∧ (u.due == x.stage.now) = true) ∧
    (x.passages = [] → c ∉ x.refused) ∧
    x.stage.pending + x.refused.length + (es.filterMap ended?).length
      = (es.filterMap registered?).length
        + x.stage.timers.countP fun u => u.completion?.isNone := by
  have hwaiting := h.waiting_iff registered unfinished
  refine ⟨Stage.mem_waiting.symm.trans hwaiting, (h.interrupt_iff registered).trans hwaiting,
    fun hnot => ?_, fun hnone => ?_, h.pending_eq⟩
  · have htrue := (h.interrupt_iff registered).mpr (hwaiting.mpr hnot)
    rcases Stage.interrupt_cases x.stage c.id with
      ⟨-, hsame⟩ | ⟨u, d, hfind, hd, hfired | ⟨-, hheld⟩, -⟩
    · rw [hsame] at htrue
      exact (Bool.false_ne_true htrue).elim
    · obtain rfl := h.eq_of_found registered hfind hd
      exact .inl hfired
    · -- Its layer is in use, so it waits again.
      obtain rfl := h.eq_of_found registered hfind hd
      have hclock := h.underway.clock
      refine .inr ⟨_, by rw [hheld]; exact Timer.mem_insert.mpr (.inl rfl), rfl, ?_⟩
      show (x.stage.now + Stage.wait 0.0 == x.stage.now) = true
      rw [Stage.wait_zero]
      exact Double.add_zero_beq hclock
  · rw [Scene.refused, hnone]
    exact List.not_mem_nil

/-- A stage on which a layer in use fades, while a task waits for a later moment. -/
def fadeInUse : Stage Float Unit Unit :=
  ((((Stage.empty ()).addLayer (.ofValues .empty)).1.motion 0 [.fade 0.0]
    { Options.standard with duration := 0.1 }).1.enqueue 0.2 (.routine ())).setHold 0 .shared

theorem leads_fadeInUse : Stage.Leads (fun _ => 0) (Stage.empty ()) [] fadeInUse := by
  have hadd : Stage.Leads (fun _ => 0) (Stage.empty () : Stage Float Unit Unit) []
      ((Stage.empty ()).addLayer (.ofValues .empty)).1 :=
    Stage.leads_rearrange rfl rfl rfl rfl rfl
  have hfade := hadd.trans (Stage.leads_motion 0 [.fade 0.0]
    { Options.standard with duration := 0.1 })
  have htask : ∀ c, Job.routine () ≠ (Job.completion c : Job Float Unit) :=
    fun _ h => nomatch h
  exact (hfade.trans (Stage.leads_put 0.2 htask)).trans (Stage.leads_setHold 0 .shared)

/-- Tasks that do nothing. -/
def idleTask (_ : Unit) (s : Stage Float Unit Unit) : Stage Float Unit Unit × Unit :=
  (s, ())

/-- During the task the completion of the fade is at hand of the advance, and a caller cannot
interrupt the fade. -/
theorem visible_iff_fadeInUse :
    ∃ (es : List (Event Float Unit)) (x : Scene Float Unit Unit) (c : Completion Float),
      Course (.opening ()) es x ∧ .registered c ∈ es ∧ .ended c ∉ es ∧ x.turn = .caller ∧
      ¬ (∃ u ∈ x.stage.timers, u.job = .completion c) ∧ ¬ (x.stage.interrupt c.id).2 = true := by
  have hcost : Stage.KeepsCost idleTask fun _ => 1 := fun _ _ => Nat.le_of_eq (Nat.add_comm _ 1)
  have htasks (bound : Nat) :
      Stage.RoutinesLead (fun _ => 0) idleTask (fun _ => []) (fun _ => 1) bound :=
    fun _ _ _ => .refl
  -- The clock starts the fade, which is refused, and then the task.
  have hrefused : ((Stage.startDue idleTask 1.0 1 fadeInUse).2.filterMap Firing.refused?).isEmpty
      = false := by decide +kernel
  have hnext : ((Stage.startDue idleTask 1.0 1 fadeInUse).1.popDue 1.0).any
      (fun popped => popped.1.completion?.isNone) = true := by decide +kernel
  obtain ⟨es, hes, -⟩ := leads_fadeInUse []
  generalize fadeInUse = s at hrefused hnext hes
  obtain ⟨ds, hds, -⟩ := Stage.leadsWithin_startDue hcost (htasks _) 1.0 1 s (Nat.le_refl _) [] []
  generalize Stage.startDue idleTask 1.0 1 s = run at hrefused hnext hds
  obtain ⟨⟨u, r⟩, popped, isTask⟩ := (Option.any_eq_true _ _).mp hnext
  obtain ⟨c, cs, hcs⟩ := List.exists_cons_of_ne_nil (List.isEmpty_eq_false_iff.mp hrefused)
  have hcourse := (hes.tail (.call 1.0)).trans hds |>.tail
    (.task popped (Option.isNone_iff_eq_none.mp isTask))
  have hc : c ∈ Scene.refused ⟨(r.moveClock u.due).sync, .caller,
      [⟨1.0, [] ++ run.2.filterMap Firing.refused?⟩], 0⟩ := by
    rw [hcs]
    exact List.mem_cons_self
  obtain ⟨hregistered, hunfinished⟩ := hcourse.unfinished_of_refused hc
  obtain ⟨hqueue, hinterrupt, -⟩ := hcourse.visible_iff hregistered hunfinished
  exact ⟨_, _, c, hcourse, hregistered, hunfinished, rfl, fun h => hqueue.mp h hc,
    fun h => hinterrupt.mp h hc⟩

end Course

/-! ## §4 A fade that cannot be interrupted -/

/-- The entries of the commands inside a reply. -/
def Reply.inside (r : Reply α (Entry α)) : List (Entry α) :=
  match r with
  | .entries es => es
  | _ => []

/-- The answer to a question of yes or no. -/
def Reply.flag? (r : Reply α (Entry α)) : Option Bool :=
  match r with
  | .flag b => some b
  | _ => none

namespace Session

/-- A fade that ends while its layer is in use, before a task that interrupts it. -/
def lateInterrupt : List (Command Float) :=
  [.newLayer "a" .empty, .motion "a" [.fade 0.0] { Options.standard with duration := 0.1 },
    .later 0.2 (.text "t") [.interrupt 1], .whileHeld "a" .shared [.advanceTo 1.0], .interrupt 1]

/-- The task finds nothing to interrupt and no job in the queue.  After the advance the completion
of the fade waits again, and the same interruption ends it. -/
theorem interrupt_lateInterrupt :
    (((run lateInterrupt).flatMap fun e => e.reply.inside).flatMap fun e =>
        e.reports.flatMap fun report => report.steps.map fun e => (e.reply.flag?, e.pending))
      = [(some false, 0)] ∧
    (run lateInterrupt).map (fun e => (e.reply.flag?, e.pending))
      = [(none, 0), (none, 1), (none, 2), (none, 1), (some true, 0)] := by
  decide +kernel

end Session

end LayerAnimation
