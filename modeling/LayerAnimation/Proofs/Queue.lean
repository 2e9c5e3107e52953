import LayerAnimation.Proofs.Settling

/-!
# The order of the queue

Jobs start by due time, and among equal due times by registration.  The queue of a stage is kept in
that order, and the numbers of registrations tell its jobs apart.

- `Timer.Before` is the order in which jobs start, due times compared as numbers.
- `Stage.Queued` is the invariant: time is in order, the queue is sorted strictly, and no number is
  used twice or still to come.  Every transition keeps it, so it holds on every stage to which a
  caller can come (`PlainStage.Reachable.queued`).
-/

namespace LayerAnimation

open LawfulTime

variable {α κ σ : Type}

/-! ## §1 Which job starts first -/

namespace Timer

/-- A timer is due earlier than another one, or at the same time and was registered earlier. -/
def Before [Scalar α] (u v : Timer α κ) : Prop :=
  u.due < v.due ∨ u.due ≤ v.due ∧ u.seq < v.seq

variable [Scalar α]

theorem perm_insert (t : Timer α κ) (us : List (Timer α κ)) : (t.insert us).Perm (t :: us) := by
  induction us with
  | nil => exact .refl _
  | cons u us ih =>
    unfold insert
    split
    · exact .refl _
    · exact (ih.cons u).trans (.swap t u us)

/-- A timer goes behind those that are due no later and before those that are due later. -/
theorem insert_append {t : Timer α κ} {front back : List (Timer α κ)}
    (hfront : ∀ u ∈ front, ¬ t.due < u.due) (hback : ∀ u ∈ back, t.due < u.due) :
    t.insert (front ++ back) = front ++ t :: back := by
  induction front with
  | nil =>
    cases back with
    | nil => rfl
    | cons u us => exact if_pos (hback u List.mem_cons_self)
  | cons u us ih =>
    obtain ⟨hu, hus⟩ := List.forall_mem_cons.mp hfront
    show (if t.due < u.due then t :: u :: (us ++ back) else u :: t.insert (us ++ back)) = _
    rw [if_neg hu, ih hus]
    rfl

/-- Behind timers that are due no later a timer goes among the others. -/
theorem insert_append_of_not_lt {t : Timer α κ} {front : List (Timer α κ)}
    (h : ∀ u ∈ front, ¬ t.due < u.due) (back : List (Timer α κ)) :
    t.insert (front ++ back) = front ++ t.insert back := by
  induction front with
  | nil => rfl
  | cons u us ih =>
    obtain ⟨hu, hus⟩ := List.forall_mem_cons.mp h
    show (if t.due < u.due then _ else u :: t.insert (us ++ back)) = _
    rw [if_neg hu, ih hus]
    rfl

/-- Before timers that are due later a timer goes among the others. -/
theorem insert_append_of_lt {t : Timer α κ} {back : List (Timer α κ)}
    (h : ∀ u ∈ back, t.due < u.due) (front : List (Timer α κ)) :
    t.insert (front ++ back) = t.insert front ++ back := by
  induction front with
  | nil =>
    cases back with
    | nil => rfl
    | cons u us => exact if_pos (h u List.mem_cons_self)
  | cons u us ih =>
    show (if t.due < u.due then t :: u :: (us ++ back) else u :: t.insert (us ++ back))
      = (if t.due < u.due then t :: u :: us else u :: t.insert us) ++ back
    split
    · rfl
    · rw [ih]
      rfl

variable [LawfulTime α] {t u v : Timer α κ} {us : List (Timer α κ)}

theorem Before.due_le (h : u.Before v) : u.due ≤ v.due :=
  h.elim le_of_lt And.left

omit [LawfulTime α] in
theorem Before.of_le (due : u.due ≤ v.due) (seq : u.seq < v.seq) : u.Before v :=
  .inr ⟨due, seq⟩

/-- The queue stays sorted when a timer with a new number is put into it. -/
theorem pairwise_before_insert (sorted : us.Pairwise Before) (proper : t.due ≤ t.due)
    (others : ∀ u ∈ us, u.due ≤ u.due) (last : ∀ u ∈ us, u.seq < t.seq) :
    (t.insert us).Pairwise Before := by
  -- The induction goes along the queue to where the timer is put.
  induction us with
  | nil => exact List.pairwise_singleton _ t
  | cons u us ih =>
    obtain ⟨hfirst, hrest⟩ := List.pairwise_cons.mp sorted
    unfold insert
    split
    · next hlt =>
      refine List.pairwise_cons.mpr ⟨fun v hv => ?_, sorted⟩
      rcases List.mem_cons.mp hv with rfl | hv
      · exact .inl hlt
      · -- What is due no earlier than the first of the others is due later too.
        refine .inl (lt_iff.mpr ⟨le_trans (le_of_lt hlt) (hfirst v hv).due_le, fun hvt => ?_⟩)
        exact (lt_iff.mp hlt).2 (le_trans (hfirst v hv).due_le hvt)
    · next hlt =>
      -- The first one stays first: it is due no later and was registered earlier.
      have hut := le_of_not_lt proper (others u List.mem_cons_self) hlt
      refine List.pairwise_cons.mpr ⟨fun v hv => ?_, ih hrest
        (fun v hv => others v (List.mem_cons_of_mem u hv))
        (fun v hv => last v (List.mem_cons_of_mem u hv))⟩
      rcases mem_insert.mp hv with rfl | hv
      · exact .of_le hut (last u List.mem_cons_self)
      · exact hfirst v hv

end Timer

namespace Stage

/-! ## §2 What operations register -/

theorem seq_follow (s : Stage α κ σ) (id : LayerId) : (s.follow id).seq = s.seq := by
  unfold follow
  split <;> rfl

/-- Firing a completion touches layers only. -/
theorem exists_layers_of_fire {s s' : Stage α κ σ} {c : Completion α} {ending : Ending}
    {result : Except (Completion α) Nat} (fired : s.fire c ending = (s', result)) :
    ∃ layers, s' = { s with layers := layers } := by
  unfold fire at fired
  split at fired
  · cases fired
    exact ⟨s.layers, rfl⟩
  · split at fired <;> cases fired
    · exact ⟨_, rfl⟩
    · exact ⟨s.layers, rfl⟩

/-- A completion that is refused is handed back as it was, and nothing has changed. -/
theorem fire_of_error {s s' : Stage α κ σ} {c d : Completion α} {ending : Ending}
    (h : s.fire c ending = (s', .error d)) : s' = s ∧ d = c := by
  unfold fire at h
  split at h
  · cases h
  · split at h
    · cases h
    · cases h
      exact ⟨rfl, rfl⟩

section Operations

variable [Scalar α]

theorem timers_enqueueCompletion (s : Stage α κ σ) (after : α) (c : Completion α) :
    (s.enqueueCompletion after c).timers
      = Timer.insert ⟨s.now + wait after, s.seq + 1, .completion c⟩ s.timers := by
  rw [enqueueCompletion, enqueue, now_follow, seq_follow, timers_follow]

theorem seq_enqueueCompletion (s : Stage α κ σ) (after : α) (c : Completion α) :
    (s.enqueueCompletion after c).seq = s.seq + 1 := by
  rw [enqueueCompletion, enqueue, seq_follow]

/-- An animation that is started registers its completion with the next number, or nothing if it is
refused. -/
theorem enqueued_animate (s : Stage α κ σ) (id : LayerId) (a : Animation α) :
    (s.animate id a).1.timers = s.timers ∧ (s.animate id a).1.seq = s.seq ∨
    ∃ after c, (s.animate id a).1.timers
        = Timer.insert ⟨s.now + wait after, s.seq + 1, .completion c⟩ s.timers ∧
      (s.animate id a).1.seq = s.seq + 1 := by
  unfold animate attach
  cases s.writable? id with
  | none => exact .inl ⟨rfl, rfl⟩
  | some l =>
    exact .inr ⟨completionDelay a, ⟨id, s.nextId, (l.attach s.nextId s.now a).2⟩,
      timers_enqueueCompletion _ _ _, seq_enqueueCompletion _ _ _⟩

/-- So does a motion that is made at once. -/
theorem enqueued_perform (s : Stage α κ σ) (id : LayerId) (intents : List (Intent α)) (duration : α)
    (easing : Easing α) :
    (s.perform id intents duration easing).1.timers = s.timers ∧
      (s.perform id intents duration easing).1.seq = s.seq ∨
    ∃ after c, (s.perform id intents duration easing).1.timers
        = Timer.insert ⟨s.now + wait after, s.seq + 1, .completion c⟩ s.timers ∧
      (s.perform id intents duration easing).1.seq = s.seq + 1 := by
  unfold perform
  cases s.readable? id with
  | none => exact .inl ⟨rfl, rfl⟩
  | some l => exact enqueued_animate s id _

theorem now_animate (s : Stage α κ σ) (id : LayerId) (a : Animation α) :
    (s.animate id a).1.now = s.now := by
  unfold animate attach
  cases s.writable? id with
  | none => rfl
  | some l => exact now_follow _ _

/-- An interruption finds no completion, commits the one that it finds, or registers it again. -/
theorem interrupt_cases (s : Stage α κ σ) (id : AnimationId) :
    s.timers.find? (Timer.isCompletionOf id) = none ∧ s.interrupt id = (s, false) ∨
    ∃ u c, s.timers.find? (Timer.isCompletionOf id) = some u ∧ u.job = .completion c ∧
      ((∃ n, (s.cancel id).fire c .interrupted = ((s.interrupt id).1, .ok n)) ∨
        (s.cancel id).fire c .interrupted = (s.cancel id, .error c) ∧
          (s.interrupt id).1 = (s.cancel id).enqueue 0.0 (.completion c)) ∧
      (s.interrupt id).2 = true := by
  cases hfind : s.timers.find? (Timer.isCompletionOf id) with
  | none => exact .inl ⟨rfl, by simp only [interrupt, hfind]⟩
  | some u =>
    -- What is found is a completion.
    obtain ⟨c, hc⟩ : ∃ c, u.job = .completion c := by
      have hcompletion := List.find?_some hfind
      unfold Timer.isCompletionOf at hcompletion
      split at hcompletion
      · next c hc => exact ⟨c, hc⟩
      · cases hcompletion
    obtain ⟨due, seq, job⟩ := u
    obtain rfl : job = .completion c := hc
    refine .inr ⟨_, c, rfl, rfl, ?_⟩
    cases hfire : (s.cancel id).fire c .interrupted with
    | mk s' result =>
      simp only [interrupt, hfind, hfire]
      cases result with
      | ok n => exact ⟨.inl ⟨n, rfl⟩, rfl⟩
      | error d =>
        obtain ⟨rfl, rfl⟩ := fire_of_error hfire
        exact ⟨.inr ⟨rfl, rfl⟩, rfl⟩

theorem now_interrupt (s : Stage α κ σ) (id : AnimationId) : (s.interrupt id).1.now = s.now := by
  rcases interrupt_cases s id with ⟨-, hsame⟩ | ⟨u, c, -, -, hfired | ⟨-, hheld⟩, -⟩
  · rw [hsame]
  · obtain ⟨n, hfired⟩ := hfired
    obtain ⟨layers, hlayers⟩ := exists_layers_of_fire hfired
    rw [hlayers]
    rfl
  · rw [hheld]
    rfl

end Operations

/-! ## §3 The invariant -/

/-- Time is in order, jobs wait in the order in which they start, and each has a number of its
own. -/
structure Queued [Scalar α] (s : Stage α κ σ) : Prop extends Timely s where
  ordered : s.timers.Pairwise Timer.Before
  numbered : ∀ u ∈ s.timers, u.seq ≤ s.seq
  distinct : (s.timers.map Timer.seq).Nodup

theorem Queued.mono [Scalar α] {s s' : Stage α κ σ} (h : s.Queued) (now : s'.now = s.now)
    (seq : s'.seq = s.seq) (timers : s'.timers.Sublist s.timers) : s'.Queued where
  toTimely := h.toTimely.mono now timers
  ordered := h.ordered.sublist timers
  numbered := by
    intro u hu
    rw [seq]
    exact h.numbered u (timers.subset hu)
  distinct := h.distinct.sublist (timers.map Timer.seq)

theorem Queued.follow [Scalar α] {s : Stage α κ σ} (h : s.Queued) (id : LayerId) :
    (s.follow id).Queued :=
  h.mono (now_follow s id) (seq_follow s id) (by rw [timers_follow])

theorem Queued.fire [Scalar α] {s s' : Stage α κ σ} (h : s.Queued) {c : Completion α}
    {ending : Ending} {result : Except (Completion α) Nat}
    (fired : s.fire c ending = (s', result)) : s'.Queued := by
  obtain ⟨layers, rfl⟩ := exists_layers_of_fire fired
  exact h.mono rfl rfl (List.Sublist.refl _)

variable [Scalar α] [LawfulTime α] {s s' : Stage α κ σ}

theorem Queued.enqueue (h : s.Queued) (after : α) (job : Job α κ) :
    (s.enqueue after job).Queued where
  toTimely := h.toTimely.enqueue after job
  ordered := Timer.pairwise_before_insert h.ordered (le_right (h.le_add_wait after))
    (fun _ => h.proper) (fun u hu => Nat.lt_succ_of_le (h.numbered u hu))
  numbered := by
    intro u hu
    rcases Timer.mem_insert.mp hu with rfl | hu
    · exact Nat.le_refl _
    · exact Nat.le_succ_of_le (h.numbered u hu)
  distinct := by
    have hperm := (Timer.perm_insert ⟨s.now + wait after, s.seq + 1, job⟩ s.timers).map Timer.seq
    rw [List.map_cons] at hperm
    refine hperm.nodup_iff.mpr (List.nodup_cons.mpr ⟨fun hmem => ?_, h.distinct⟩)
    -- The numbers of the others are not new.
    obtain ⟨u, hu, hseq⟩ := List.mem_map.mp hmem
    exact absurd (h.numbered u hu) (by rw [hseq]; exact Nat.not_succ_le_self _)

theorem Queued.moveClock (h : s.Queued) {t : α} (idle : ∀ u ∈ s.timers, t ≤ t → t ≤ u.due) :
    (s.moveClock t).Queued where
  toTimely := h.toTimely.moveClock idle
  ordered := h.ordered
  numbered := h.numbered
  distinct := h.distinct

theorem Queued.arrive (h : s.Queued) {t : α} (idle : s.popDue t = none) :
    (s.moveClock t).Queued :=
  h.moveClock fun _ hu ht => le_of_not_le (h.proper hu) ht (h.not_due idle hu)

omit [LawfulTime α] in
/-- The job that is started first comes before all others that wait. -/
theorem Queued.before_of_popDue (h : s.Queued) {r : Stage α κ σ} {t : α} {u : Timer α κ}
    (popped : s.popDue t = some (u, r)) : ∀ v ∈ r.timers, u.Before v := by
  obtain ⟨us, hus, -, rfl⟩ := popDue_eq_some_iff.mp popped
  have hordered := h.ordered
  rw [hus, List.pairwise_cons] at hordered
  exact hordered.1

theorem Queued.take (h : s.Queued) {r : Stage α κ σ} {t : α} {u : Timer α κ}
    (popped : s.popDue t = some (u, r)) : (r.moveClock u.due).Queued := by
  have htimely := h.toTimely.take popped
  obtain ⟨us, hus, -, rfl⟩ := popDue_eq_some_iff.mp popped
  have hrest : Queued { s with timers := us } :=
    h.mono rfl rfl (by rw [hus]; exact List.sublist_cons_self u us)
  exact ⟨htimely, hrest.ordered, hrest.numbered, hrest.distinct⟩

theorem Queued.requeue (h : s.Queued) (cs : List (Completion α)) : (s.requeue cs).Queued := by
  induction cs generalizing s with
  | nil => exact h
  | cons c cs ih => exact ih (h.enqueue 0.0 (.completion c))

theorem Queued.enqueueCompletion (h : s.Queued) (after : α) (c : Completion α) :
    (s.enqueueCompletion after c).Queued :=
  (h.follow c.layer).enqueue after _

/-- Every transition keeps the order of the queue. -/
theorem Queued.transition {hand hand' : Multiset (Completion α)} {c : Option (Completion α)}
    (h : s.Queued) (t : Transition s hand c s' hand') : s'.Queued := by
  cases t with
  | arrive idle => exact h.arrive idle
  | sync | hold | drop | draw => exact h.mono rfl rfl (List.Sublist.refl _)
  | follow => exact h.follow _
  | attach a writable =>
    have hset : ∀ id l, (s.drawId.setLayer id l).Queued :=
      fun _ _ => h.mono rfl rfl (List.Sublist.refl _)
    exact (hset _ _).enqueueCompletion _ _
  | putOff => exact h.enqueue _ _
  | take popped => exact h.take popped
  | withdraw found isCompletion => exact h.mono rfl rfl List.eraseP_sublist
  | commit fired => exact h.fire fired
  | requeue => exact h.enqueue _ _

theorem Queued.transitions {hand hand' : Multiset (Completion α)} {cs : List (Completion α)}
    (h : s.Queued) (run : Transitions s hand cs s' hand') : s'.Queued := by
  induction run with
  | refl => exact h
  | tail _ last ih => exact ih.transition last

/-! ## §4 No way back -/

/-- Nothing is due at a moment that the clock has passed, and nothing ever at a not-a-number. -/
theorem Timely.popDue_of_not_le (h : s.Timely) {t : α} (not_le : ¬ s.now ≤ t) :
    s.popDue t = none :=
  popDue_eq_none_iff.mpr fun u us hus hdue =>
    not_le (le_trans (h.ahead u (by rw [hus]; exact List.mem_cons_self)) hdue)

/-- An advance to such a moment does no more than move the clocks of layers. -/
theorem Timely.advanceWithin_of_not_le {ρ : Type} (h : s.Timely) {t : α} (not_le : ¬ s.now ≤ t)
    (exec : κ → Stage α κ σ → Stage α κ σ × ρ) (fuel : Nat) :
    advanceWithin exec fuel t s = (s.sync, []) := by
  -- Nothing starts, whatever the fuel, and the clock is not moved.
  have hrun : startDue exec t fuel s = (s, []) := by
    cases fuel with
    | zero => rfl
    | succ fuel => simp only [startDue, h.popDue_of_not_le not_le]
  have hclock : s.moveClock t = s := by
    rw [Stage.moveClock, larger_of_not_le h.le_now not_le]
  simp only [advanceWithin, hrun, hclock, List.filterMap_nil, requeue, List.foldl_nil]

end Stage

/-! ## §5 Reachable stages -/

namespace PlainStage

variable [Scalar α] [LawfulTime α]

theorem queued_ofLayers (layers : List (Layer α)) : (Stage.ofLayers layers).Queued where
  toTimely := timely_ofLayers layers
  ordered := .nil
  numbered := fun _ hu => absurd hu List.not_mem_nil
  distinct := List.nodup_nil

/-- The queue is in order on every stage to which a caller can come. -/
theorem Reachable.queued {s : PlainStage α} (h : Reachable s) : s.Queued := by
  induction h with
  | ofLayers layers => exact queued_ofLayers layers
  | operation op _ ih => exact ih.transitions (transitions_perform op _ 0)
  | addLayer l _ ih => exact ih.mono rfl rfl (List.Sublist.refl _)
  | setLayer id l _ ih => exact ih.mono rfl rfl (List.Sublist.refl _)
  | drawId _ ih => exact ih.mono rfl rfl (List.Sublist.refl _)
  | enqueueCompletion after c _ ih => exact ih.enqueueCompletion after c

end PlainStage

end LayerAnimation
