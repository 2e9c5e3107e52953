import LayerAnimation.Proofs.Mirrors
import LayerAnimation.Proofs.Stopovers

/-!
# Layers do not interfere

Layers on one stage share its clock, its queue, its numbers and its registrations.  Even so, what can
be seen of a layer does not depend on what is done to other layers: not on their motions and
animations, on interruptions of these, nor on who uses or drops them.

- `Stage.Journaled`: a number names one completion only, so an interruption of an animation on
  another layer takes away nothing else (`Journaled.job_eq`).
- `Mirrors.arrival`: a move of the clock keeps a stage and its mirror together.  A job for another
  layer starts on the first stage alone; the clock of the second one may stop at the same moment, which
  changes nothing (`PlainStage.arrival_moveClock`).
- `Ledger.Mirrors.perform_alone` and `Ledger.Mirrors.perform` say what one call does, and
  `Ledger.views_filter_concerns` what a program does.

Settling is not among the calls: when it ends depends on the jobs of all layers.
-/

namespace LayerAnimation

open LawfulTime

variable {α κ σ : Type}

/-! ## §1 Numbers name animations -/

namespace Stage

/-- The completions that wait or are at hand were handed out, each under a number of its own. -/
structure Journaled (journal : List (Completion α)) (s : Stage α κ σ)
    (hand : Multiset (Completion α)) : Prop where
  nodup : (journal.map Completion.id).Nodup
  drawn : ∀ c ∈ journal, c.id < s.nextId
  handed : ∀ c ∈ hand + s.waiting, c ∈ journal

variable {s s' : Stage α κ σ} {journal : List (Completion α)} {hand hand' : Multiset (Completion α)}

theorem Journaled.mono (h : Journaled journal s hand) (number : s.nextId ≤ s'.nextId)
    (completions : hand' + s'.waiting ⊆ hand + s.waiting) : Journaled journal s' hand' where
  nodup := h.nodup
  drawn := fun c hc => Nat.lt_of_lt_of_le (h.drawn c hc) number
  handed := fun c hc => h.handed c (completions hc)

/-- Of the completions with one number only one can wait. -/
theorem Journaled.job_eq (h : Journaled journal s 0) {c : Completion α} (hc : c ∈ journal)
    {u : Timer α κ} (hu : u ∈ s.timers) (number : u.isCompletionOf c.id) :
    u.job = .completion c := by
  unfold Timer.isCompletionOf at number
  split at number
  · next d hd =>
    have hmem : d ∈ journal := by
      apply h.handed
      rw [Multiset.zero_add]
      exact mem_waiting.mpr ⟨u, hu, hd⟩
    rw [hd, List.inj_on_of_nodup_map h.nodup hmem hc (beq_iff_eq.mp number)]
  · cases number

variable [Scalar α]

theorem Journaled.attach (h : Journaled journal s hand) (id : LayerId) (l : Layer α) (after : α)
    (a : Animation α) :
    Journaled (journal ++ [⟨id, s.nextId, a⟩])
      ((s.drawId.setLayer id l).enqueueCompletion after ⟨id, s.nextId, a⟩) hand where
  nodup := by
    rw [List.map_append, List.nodup_append]
    -- The number that is drawn is above all numbers in the journal.
    refine ⟨h.nodup, List.nodup_singleton _, fun m hm n hn => ?_⟩
    obtain ⟨c, hc, rfl⟩ := List.mem_map.mp hm
    rw [List.mem_singleton.mp hn]
    exact Nat.ne_of_lt (h.drawn c hc)
  drawn := by
    intro c hc
    have hnext : ((s.drawId.setLayer id l).enqueueCompletion after ⟨id, s.nextId, a⟩).nextId
        = s.nextId + 1 := nextId_follow _ _
    rw [hnext]
    rcases List.mem_append.mp hc with hc | hc
    · exact Nat.lt_succ_of_lt (h.drawn c hc)
    · rw [List.mem_singleton.mp hc]
      exact Nat.lt_succ_self _
  handed := by
    intro c hc
    have hwaiting : ((s.drawId.setLayer id l).enqueueCompletion after ⟨id, s.nextId, a⟩).waiting
        = ⟨id, s.nextId, a⟩ ::ₘ s.waiting := waiting_enqueueCompletion _ _ _
    rw [hwaiting, Multiset.add_cons, Multiset.mem_cons] at hc
    rcases hc with rfl | hc
    · exact List.mem_append_right _ List.mem_cons_self
    · exact List.mem_append_left _ (h.handed c hc)

/-- A transition that attaches nothing neither takes a number back nor brings a completion. -/
theorem Transition.quiet (t : Transition s hand none s' hand') :
    s.nextId ≤ s'.nextId ∧ hand' + s'.waiting ≤ hand + s.waiting := by
  cases t with
  | arrive | sync | hold | drop => exact ⟨Nat.le_refl _, le_rfl⟩
  | draw => exact ⟨Nat.le_succ _, le_rfl⟩
  | follow =>
    refine ⟨Nat.le_of_eq (nextId_follow s _).symm, ?_⟩
    rw [waiting_congr (timers_follow s _)]
  | putOff =>
    refine ⟨Nat.le_refl _, ?_⟩
    rw [waiting_enqueue_deferred]
  | take popped =>
    obtain ⟨us, -, -, rfl⟩ := popDue_eq_some_iff.mp popped
    refine ⟨Nat.le_refl _, ?_⟩
    rw [waiting_of_popDue popped, Multiset.add_comm _ hand, Multiset.add_assoc]
    exact le_rfl
  | withdraw found isCompletion =>
    refine ⟨Nat.le_refl _, ?_⟩
    rw [waiting_of_find? found isCompletion, Multiset.cons_add, Multiset.add_cons]
  | commit fired =>
    obtain ⟨layers, rfl⟩ := exists_layers_of_fire fired
    refine ⟨Nat.le_refl _, ?_⟩
    rw [Multiset.cons_add]
    exact Multiset.le_cons_self _ _
  | requeue =>
    refine ⟨Nat.le_refl _, ?_⟩
    rw [waiting_enqueue_completion, Multiset.cons_add, Multiset.add_cons]

/-- Every transition keeps the journal. -/
theorem Journaled.transition {c : Option (Completion α)} (h : Journaled journal s hand)
    (t : Transition s hand c s' hand') : Journaled (journal ++ c.toList) s' hand' := by
  cases c with
  | none =>
    obtain ⟨hnumber, hle⟩ := t.quiet
    rw [Option.toList_none, List.append_nil]
    exact h.mono hnumber (Multiset.subset_of_le hle)
  | some c =>
    cases t with
    | attach a writable => exact h.attach _ _ (completionDelay a) _

theorem Journaled.transitions {cs : List (Completion α)} (h : Journaled journal s hand)
    (run : Transitions s hand cs s' hand') : Journaled (journal ++ cs) s' hand' := by
  induction run with
  | refl => rwa [List.append_nil]
  | tail _ last ih =>
    rw [← List.append_assoc]
    exact (ih h).transition last

end Stage

/-! ## §2 The clock -/

namespace Completion

variable {cs : List (Completion α)} {b : LayerId}

theorem filter_layer_of_eq (h : ∀ c ∈ cs, c.layer = b) : cs.filter (·.layer = b) = cs :=
  List.filter_eq_self.mpr fun c hc => decide_eq_true (h c hc)

theorem filter_layer_of_ne (h : ∀ c ∈ cs, c.layer ≠ b) : cs.filter (·.layer = b) = [] :=
  List.filter_eq_nil_iff.mpr fun c hc hb => h c hc (of_decide_eq_true hb)

end Completion

/-- Nothing that waits is due before the first job. -/
theorem Stage.Timely.le_of_popDue [Scalar α] [LawfulTime α] {s r : Stage α κ σ} {t : α} {u v : Timer α κ}
    (h : s.Timely) (popped : s.popDue t = some (u, r)) (hv : v ∈ s.timers) : u.due ≤ v.due := by
  obtain ⟨us, hus, -, -⟩ := popDue_eq_some_iff.mp popped
  have hproper := h.proper hv
  have hsorted := h.sorted
  rw [hus] at hv hsorted
  rcases List.mem_cons.mp hv with rfl | hv
  · exact hproper
  · exact (List.pairwise_cons.mp hsorted).1 v hv

namespace PlainStage

variable [Scalar α] {s r : PlainStage α} {t d : α} {u : Timer α Empty}

/-- The stage when the clock has arrived at a moment, where some completions were refused before the
due jobs were started. -/
def arrival (s : PlainStage α) (t : α) (held : List (Completion α)) : PlainStage α :=
  (((s.runDue t).1.moveClock t).requeue (held ++ (s.runDue t).2.filterMap Firing.refused?)).sync

theorem advanceTo_eq_arrival (s : PlainStage α) (t : α) : (s.advanceTo t).1 = s.arrival t [] :=
  rfl

theorem arrival_of_popDue (popped : s.popDue t = some (u, r)) (held : List (Completion α)) :
    s.arrival t held = (startTimer u r).1.arrival t
      (held ++ (Firing.refused? ⟨u.due, u.seq, (startTimer u r).2⟩).toList) := by
  unfold arrival
  rw [runDue_of_popDue popped, List.append_assoc, List.filterMap_cons]
  cases Firing.refused? ⟨u.due, u.seq, (startTimer u r).2⟩ <;> rfl

omit [Scalar α] in
theorem sync_requeue [Scalar α] (s : PlainStage α) (cs : List (Completion α)) :
    (s.requeue cs).sync = s.sync.requeue cs := by
  induction cs generalizing s with
  | nil => rfl
  | cons c cs ih => exact ih (s.enqueue 0.0 (.completion c))

theorem layer_of_attached? {id : LayerId} {a : Animation α} {c : Completion α}
    (h : s.attached? id a = some c) : c.layer = id := by
  unfold Stage.attached? Stage.attach at h
  split at h
  · cases h
  · cases h
    rfl

theorem layer_of_performed? {id : LayerId} {intents : List (Intent α)} {duration : α}
    {easing : Easing α} {c : Completion α} (h : s.performed? id intents duration easing = some c) :
    c.layer = id := by
  obtain ⟨l, -, h⟩ := Option.bind_eq_some_iff.mp h
  exact layer_of_attached? h

/-- What a job hands out is for the layer of the job. -/
theorem layer_of_startedBy {job : Job α Empty} {c : Completion α}
    (h : startedBy s job = some c) : c.layer = job.layer := by
  cases job with
  | completion c => cases h
  | deferred d => exact layer_of_performed? h
  | routine r => exact r.elim

/-- A completion that is refused is the job itself. -/
theorem layer_of_refused {due : α} {seq : Nat} {job : Job α Empty} {c : Completion α}
    (h : Firing.refused? ⟨due, seq, (Stage.start exec job s).2⟩ = some c) :
    c.layer = job.layer := by
  cases job with
  | completion d =>
    unfold Stage.start at h
    dsimp only at h
    split at h
    · cases h
    · next e =>
      cases h
      exact congrArg Completion.layer (Stage.fire_of_error e).2
  | deferred d => cases h
  | routine r => exact r.elim

variable [LawfulTime α]

/-- A clock that stops before the first job hands out what it would have handed out. -/
theorem attachedDue_moveClock (h : s.Timely) (ahead : ∀ u ∈ s.timers, d ≤ u.due) (t : α) :
    attachedDue t (load (s.moveClock d).sync) (s.moveClock d).sync = attachedDue t s.load s := by
  cases popped : s.popDue t with
  | none =>
    have hidle : (s.moveClock d).sync.popDue t = none :=
      Stage.popDue_eq_none_iff.mpr fun u us hus => Stage.popDue_eq_none_iff.mp popped u us hus
    rw [attachedDue_of_idle popped, attachedDue_of_idle hidle]
  | some next =>
    obtain ⟨u, r⟩ := next
    obtain ⟨r', popped', hclock⟩ := popDue_moveClock h ahead popped
    rw [attachedDue_of_popDue popped, attachedDue_of_popDue popped', startTimer, startTimer, hclock]

/-- It arrives where it would have arrived. -/
theorem arrival_moveClock (h : s.Timely) (ahead : ∀ u ∈ s.timers, d ≤ u.due) (le : d ≤ t)
    (held : List (Completion α)) : arrival (s.moveClock d).sync t held = s.arrival t held := by
  unfold arrival
  cases popped : s.popDue t with
  | none =>
    have hidle : (s.moveClock d).sync.popDue t = none :=
      Stage.popDue_eq_none_iff.mpr fun u us hus => Stage.popDue_eq_none_iff.mp popped u us hus
    rw [runDue_of_idle popped, runDue_of_idle hidle, sync_requeue, sync_requeue,
      Stage.sync_moveClock_sync h.le_now le]
  | some next =>
    obtain ⟨u, r⟩ := next
    rw [runDue_moveClock h ahead popped]

end PlainStage

namespace Mirrors

variable [Scalar α] [LawfulTime α] {b : LayerId} {pairs : List (Completion α × Completion α)}
  {s r : PlainStage α} {t : α}

omit [Scalar α] [LawfulTime α] in
theorem map_due (h : Mirrors b pairs s r) :
    r.timers.map Timer.due = (s.timers.filter (Timer.concerns b)).map Timer.due := by
  have hdue : ∀ us vs : List (Timer α Empty), List.Forall₂ (Timer.Alike b pairs) us vs →
      vs.map Timer.due = us.map Timer.due := by
    intro us vs huv
    induction huv with
    | nil => rfl
    | cons first rest ih => rw [List.map_cons, List.map_cons, ih, first.due]
  exact hdue _ _ h.timers

omit [Scalar α] [LawfulTime α] in
theorem exists_due (h : Mirrors b pairs s r) {v : Timer α Empty} (hv : v ∈ r.timers) :
    ∃ u ∈ s.timers, u.due = v.due := by
  have hmem : v.due ∈ (s.timers.filter (Timer.concerns b)).map Timer.due := by
    rw [← h.map_due]
    exact List.mem_map_of_mem hv
  obtain ⟨u, hu, hdue⟩ := List.mem_map.mp hmem
  exact ⟨u, (List.mem_filter.mp hu).1, hdue⟩

omit [LawfulTime α] in
/-- Time is in order on what a layer sees. -/
theorem timely (h : Mirrors b pairs s r) (timely : s.Timely) : r.Timely where
  clock := by
    rw [← h.now]
    exact timely.clock
  ahead := by
    intro v hv
    obtain ⟨u, hu, hdue⟩ := h.exists_due hv
    rw [← h.now, ← hdue]
    exact timely.ahead u hu
  sorted := by
    have hsorted := timely.sorted.filter (Timer.concerns b)
    rw [← List.pairwise_map (f := Timer.due)] at hsorted
    rw [← h.map_due] at hsorted
    exact List.pairwise_map.mp hsorted

/-- Completions that were refused wait again on both stages. -/
theorem requeue (h : Mirrors b pairs s r) (timely : s.Timely) {cs ds : List (Completion α)}
    (held : List.Forall₂ (fun c d => (c, d) ∈ pairs) (cs.filter (·.layer = b)) ds) :
    Mirrors b pairs (s.requeue cs) (r.requeue ds) := by
  induction cs generalizing s r ds with
  | nil =>
    cases held
    exact h
  | cons c cs ih =>
    have htimely := timely.enqueue 0.0 (.completion c)
    by_cases hc : c.layer = b
    · rw [List.filter_cons_of_pos (by simpa using hc)] at held
      obtain ⟨d, ds, mem, hrest, rfl⟩ := List.forall₂_cons_left_iff.mp held
      exact ih (h.enqueue timely 0.0 (.completion mem)) htimely hrest
    · -- What is refused for another layer waits again on the first stage alone.
      rw [List.filter_cons_of_neg (by simpa using hc)] at held
      have hother : (Job.completion c : Job α Empty).layer ≠ b := hc
      exact ih (h.enqueue_alone 0.0 hother) htimely held

omit [LawfulTime α] in
/-- Where the first job is for another layer it starts on the first stage alone, while the clock of
the second one stops. -/
theorem startTimer_alone (h : Mirrors b pairs s r) {s' : PlainStage α} {u : Timer α Empty}
    (popped : s.popDue t = some (u, s')) (other : u.job.layer ≠ b) :
    Mirrors b pairs (PlainStage.startTimer u s').1 (r.moveClock u.due).sync := by
  obtain ⟨us, hus, -, rfl⟩ := Stage.popDue_eq_some_iff.mp popped
  have hrest : Mirrors b pairs { s with timers := us } r := by
    refine h.alone rfl rfl Iff.rfl ?_ (Nat.le_refl _)
    rw [hus, List.filter_cons_of_neg]
    rwa [Timer.concerns_iff]
  exact (hrest.moveClock u.due).sync.start_alone other

/-- Where the first job is for the layer it is the first on both stages, and starts alike. -/
theorem startTimer (h : Mirrors b pairs s r) (timely : s.Timely) {s' : PlainStage α}
    {u : Timer α Empty} (popped : s.popDue t = some (u, s')) (own : u.job.layer = b) :
    ∃ v r', r.popDue t = some (v, r') ∧
      (∃ more, Mirrors b (pairs ++ more) (PlainStage.startTimer u s').1
          (PlainStage.startTimer v r').1 ∧
        more.map Prod.fst
          = (PlainStage.startedBy (s'.moveClock u.due).sync u.job).toList ∧
        more.map Prod.snd
          = (PlainStage.startedBy (r'.moveClock v.due).sync v.job).toList) ∧
      List.Forall₂ (fun c d => (c, d) ∈ pairs)
        (Firing.refused? ⟨u.due, u.seq, (PlainStage.startTimer u s').2⟩).toList
        (Firing.refused? ⟨v.due, v.seq, (PlainStage.startTimer v r').2⟩).toList := by
  have htimely := timely.take popped
  obtain ⟨us, hus, hdue, rfl⟩ := Stage.popDue_eq_some_iff.mp popped
  -- The first timer stays at the head of those that are for the layer.
  have htimers := h.timers
  rw [hus, List.filter_cons_of_pos (Timer.concerns_iff.mpr own)] at htimers
  obtain ⟨v, vs, alike, hrest, hvs⟩ := List.forall₂_cons_left_iff.mp htimers
  have hboth : Mirrors b pairs { s with timers := us } { r with timers := vs } :=
    { h with timers := hrest }
  refine ⟨v, { r with timers := vs },
    Stage.popDue_eq_some_iff.mpr ⟨vs, hvs, alike.due ▸ hdue, rfl⟩, ?_⟩
  have hclock := (hboth.moveClock u.due).sync
  unfold PlainStage.startTimer
  rw [← alike.due]
  exact hclock.start (htimely.mono rfl (List.Sublist.refl _)) alike

omit [Scalar α] [LawfulTime α] in
/-- The first completions of pairs are for the layer. -/
theorem filter_map_fst {more : List (Completion α × Completion α)}
    (h : Mirrors b (pairs ++ more) s r) :
    (more.map Prod.fst).filter (·.layer = b) = more.map Prod.fst := by
  refine Completion.filter_layer_of_eq fun c hc => ?_
  obtain ⟨pair, mem, rfl⟩ := List.mem_map.mp hc
  exact (h.paired pair.1 pair.2 (List.mem_append_right _ mem)).1

omit [Scalar α] [LawfulTime α] in
theorem filter_map_snd (h : Mirrors b pairs s r) :
    (pairs.map Prod.snd).filter (·.layer = b) = pairs.map Prod.snd := by
  refine Completion.filter_layer_of_eq fun c hc => ?_
  obtain ⟨pair, mem, rfl⟩ := List.mem_map.mp hc
  exact (h.paired pair.1 pair.2 mem).2.1

/-- Where nothing is due on the first stage nothing is due on the second one. -/
theorem popDue_of_idle (h : Mirrors b pairs s r) (timely : s.Timely) (idle : s.popDue t = none) :
    r.popDue t = none := by
  refine Stage.popDue_eq_none_iff.mpr fun v vs hvs => ?_
  obtain ⟨u, hu, hdue⟩ := h.exists_due (v := v) (by rw [hvs]; exact List.mem_cons_self)
  rw [← hdue]
  exact timely.not_due idle hu

/-- So both arrive alike. -/
theorem arrival_of_idle (h : Mirrors b pairs s r) (timely : s.Timely) (idle : s.popDue t = none)
    {cs ds : List (Completion α)}
    (held : List.Forall₂ (fun c d => (c, d) ∈ pairs) (cs.filter (·.layer = b)) ds) :
    Mirrors b pairs (s.arrival t cs) (r.arrival t ds) := by
  have hclock : (s.moveClock t).Timely := timely.moveClock fun u hu ht =>
    le_of_not_le (timely.proper hu) ht (timely.not_due idle hu)
  unfold PlainStage.arrival
  rw [PlainStage.runDue_of_idle idle, PlainStage.runDue_of_idle (h.popDue_of_idle timely idle),
    List.filterMap_nil, List.append_nil, List.append_nil]
  exact ((h.moveClock t).requeue hclock held).sync

/-- Both stages arrive alike at every moment, and hand out the same completions for the layer but for
numbers. -/
theorem arrival (h : Mirrors b pairs s r) (timely : s.Timely) (t : α) (cs ds : List (Completion α))
    (held : List.Forall₂ (fun c d => (c, d) ∈ pairs) (cs.filter (·.layer = b)) ds) :
    ∃ more, Mirrors b (pairs ++ more) (s.arrival t cs) (r.arrival t ds) ∧
      more.map Prod.fst = (PlainStage.attachedDue t s.load s).filter (·.layer = b) ∧
      more.map Prod.snd = PlainStage.attachedDue t r.load r := by
  induction s using PlainStage.runDue_induction t generalizing r pairs cs ds with
  | idle s hidle =>
    have hnone : PlainStage.attachedDue t s.load s = [] := PlainStage.attachedDue_of_idle hidle _
    have hnone' : PlainStage.attachedDue t r.load r = [] :=
      PlainStage.attachedDue_of_idle (h.popDue_of_idle timely hidle) _
    refine ⟨[], ?_, by rw [hnone]; rfl, by rw [hnone']; rfl⟩
    rw [List.append_nil]
    exact h.arrival_of_idle timely hidle held
  | next s u s' popped ih =>
    have htimely := PlainStage.timely_startTimer timely popped
    -- What the first job hands out and what is refused is for the layer of that job.
    have hstarted : ∀ c ∈ (PlainStage.startedBy (s'.moveClock u.due).sync u.job).toList,
        c.layer = u.job.layer :=
      fun c hc => PlainStage.layer_of_startedBy (Option.mem_toList.mp hc)
    have hrefused : ∀ c ∈ (Firing.refused? ⟨u.due, u.seq, (PlainStage.startTimer u s').2⟩).toList,
        c.layer = u.job.layer :=
      fun c hc => PlainStage.layer_of_refused (Option.mem_toList.mp hc)
    rw [PlainStage.arrival_of_popDue popped, PlainStage.attachedDue_of_popDue popped,
      List.filter_append]
    generalize hstarting : (PlainStage.startedBy (s'.moveClock u.due).sync u.job).toList = es
      at hstarted ⊢
    generalize hrefusal : (Firing.refused? ⟨u.due, u.seq, (PlainStage.startTimer u s').2⟩).toList = as
      at hrefused ⊢
    by_cases hu : u.job.layer = b
    · -- The job is the first one on the second stage, too.
      obtain ⟨v, r', popped', ⟨more, hstart, hfst, hsnd⟩, hheld⟩ := h.startTimer timely popped hu
      rw [PlainStage.arrival_of_popDue popped', PlainStage.attachedDue_of_popDue popped']
      rw [hstarting] at hfst
      rw [hrefusal] at hheld
      have hes : es.filter (·.layer = b) = es :=
        Completion.filter_layer_of_eq fun c hc => (hstarted c hc).trans hu
      have has : as.filter (·.layer = b) = as :=
        Completion.filter_layer_of_eq fun c hc => (hrefused c hc).trans hu
      have hboth := (List.rel_append held hheld).imp fun _ _ mem => List.mem_append_left more mem
      obtain ⟨rest, hrest, hfst', hsnd'⟩ := ih hstart htimely (cs ++ as) _
        (by rw [List.filter_append, has]; exact hboth)
      rw [List.append_assoc] at hrest
      refine ⟨more ++ rest, hrest, ?_, ?_⟩
      · rw [List.map_append, hfst, hfst', hes]
      · rw [List.map_append, hsnd, hsnd']
    · -- The second stage stops at the due time of the job, which changes nothing.
      have hahead : ∀ v ∈ r.timers, u.due ≤ v.due := by
        intro v hv
        obtain ⟨w, hw, hdue⟩ := h.exists_due hv
        rw [← hdue]
        exact timely.le_of_popDue popped hw
      obtain ⟨-, -, hdue, -⟩ := Stage.popDue_eq_some_iff.mp popped
      have hes : es.filter (·.layer = b) = [] :=
        Completion.filter_layer_of_ne fun c hc => hstarted c hc ▸ hu
      have has : as.filter (·.layer = b) = [] :=
        Completion.filter_layer_of_ne fun c hc => hrefused c hc ▸ hu
      obtain ⟨more, hrest, hfst, hsnd⟩ := ih (h.startTimer_alone popped hu) htimely (cs ++ as) ds
        (by rw [List.filter_append, has, List.append_nil]; exact held)
      rw [PlainStage.arrival_moveClock (h.timely timely) hahead hdue] at hrest
      rw [PlainStage.attachedDue_moveClock (h.timely timely) hahead] at hsnd
      exact ⟨more, hrest, by rw [hfst, hes, List.nil_append], hsnd⟩

end Mirrors

/-! ## §3 Programs -/

/-- A call of a program.  What is interrupted is the animation that was attached to a layer as the
first, second, third and so on; its number is for the run to say. -/
inductive Call (α : Type) where
  | motion (layer : LayerId) (intents : List (Intent α)) (options : Options α)
  | schedule (layer : LayerId) (intents : List (Intent α)) (options : Options α)
  | animate (layer : LayerId) (animation : Animation α)
  | interrupt (layer : LayerId) (index : Nat)
  /-- Someone begins or ends to use a layer. -/
  | hold (layer : LayerId) (hold : Hold)
  | drop (layer : LayerId)
  | advance (dt : α)
  | advanceTo (t : α)

namespace Call

/-- The layer that a call is for; a move of the clock is for all of them. -/
def layer? : Call α → Option LayerId
  | .motion id _ _ | .schedule id _ _ | .animate id _ | .interrupt id _ => some id
  | .hold id _ | .drop id => some id
  | .advance _ | .advanceTo _ => none

/-- Whether a call is for a layer, or for all of them. -/
def concerns (b : LayerId) (c : Call α) : Bool :=
  c.layer?.all (· == b)

theorem eq_of_concerns {b id : LayerId} {c : Call α} (h : c.concerns b = true)
    (layer : c.layer? = some id) : id = b := by
  simpa [concerns, layer] using h

theorem exists_of_not_concerns {b : LayerId} {c : Call α} (h : c.concerns b = false) :
    ∃ id, c.layer? = some id ∧ id ≠ b := by
  cases hlayer : c.layer? with
  | none => simp [concerns, hlayer] at h
  | some id => exact ⟨id, rfl, by simpa [concerns, hlayer] using h⟩

/-- The operation that a call comes to after some completions were handed out.  An animation that
was never attached cannot be interrupted. -/
def operation? (journal : List (Completion α)) : Call α → Option (Operation α)
  | .motion id intents o => some (.motion id intents o)
  | .schedule id intents o => some (.schedule id intents o)
  | .animate id a => some (.animate id a)
  | .interrupt id i => ((journal.filter (·.layer = id))[i]?).map fun c => .interrupt c.id
  | .hold id h => some (.hold id h)
  | .drop id => some (.drop id)
  | .advance dt => some (.advance dt)
  | .advanceTo t => some (.advanceTo t)

end Call

/-- A stage and the completions that were handed out on the way to it. -/
structure Ledger (α : Type) where
  stage : PlainStage α
  journal : List (Completion α)

/-- What can be seen of a layer: its values, its running tracks but for their numbers, its clock, and
what it shows. -/
def Stage.view? [Scalar α] (s : Stage α κ σ) (b : LayerId) :
    Option (Layer α × AttributeMap (Value α)) :=
  (s.cell? b).map fun c => (c.layer.anonymous, c.layer.snapshot)

namespace Ledger

variable [Scalar α]

/-- Some layers on a new stage. -/
def opening (layers : List (Layer α)) : Ledger α :=
  ⟨Stage.ofLayers layers, []⟩

/-- What a call leads to. -/
def perform (x : Ledger α) (c : Call α) : Ledger α :=
  match c.operation? x.journal with
  | none => x
  | some op => ⟨op.perform x.stage, x.journal ++ op.attached x.stage⟩

theorem perform_of_none {x : Ledger α} {c : Call α} (h : c.operation? x.journal = none) :
    x.perform c = x := by
  rw [perform, h]

theorem perform_of_some {x : Ledger α} {c : Call α} {op : Operation α}
    (h : c.operation? x.journal = some op) :
    x.perform c = ⟨op.perform x.stage, x.journal ++ op.attached x.stage⟩ := by
  rw [perform, h]

/-- What can be seen of a layer after each call of a program that is for it or for all layers. -/
def views (b : LayerId) (x : Ledger α) : List (Call α) → List (Option (Layer α × AttributeMap (Value α)))
  | [] => []
  | c :: cs =>
      if c.concerns b then (x.perform c).stage.view? b :: views b (x.perform c) cs
      else views b (x.perform c) cs

/-- The second ledger is the first one as a layer sees it. -/
structure Mirrors (b : LayerId) (x y : Ledger α) : Prop where
  timely : x.stage.Timely
  journaled : x.stage.Journaled x.journal 0
  stage : ∃ pairs, LayerAnimation.Mirrors b pairs x.stage y.stage ∧
    pairs.map Prod.fst = x.journal.filter (·.layer = b) ∧ pairs.map Prod.snd = y.journal

namespace Mirrors

variable [LawfulTime α] {b : LayerId} {x y : Ledger α}

/-- At the beginning both ledgers are the same. -/
theorem opening (b : LayerId) (layers : List (Layer α)) :
    Mirrors b (opening layers) (opening layers) where
  timely := PlainStage.timely_ofLayers layers
  journaled := ⟨List.nodup_nil, fun _ hc => absurd hc List.not_mem_nil,
    fun c hc => absurd hc (Multiset.notMem_zero c)⟩
  stage := by
    refine ⟨[], ?_, rfl, rfl⟩
    exact {
      now := rfl
      cell := by
        show Option.Rel _ ((Stage.ofLayers layers).cell? b) ((Stage.ofLayers layers).cell? b)
        cases (Stage.ofLayers layers).cell? b with
        | none => exact .none
        | some cell => exact .some ⟨rfl, rfl, rfl, fun _ _ mem => absurd mem List.not_mem_nil⟩
      followed := Iff.rfl
      timers := .nil
      paired := fun _ _ mem => absurd mem List.not_mem_nil
      drawn := fun _ _ mem => absurd mem List.not_mem_nil
      told := fun _ _ _ _ mem => absurd mem List.not_mem_nil }

omit [LawfulTime α] in
/-- What is seen of the layer on both is the same. -/
theorem view? (h : Mirrors b x y) : x.stage.view? b = y.stage.view? b := by
  obtain ⟨pairs, hstage, -, -⟩ := h.stage
  unfold Stage.view?
  rcases hstage.cell_cases with ⟨hs, hr⟩ | ⟨p, q, hs, hr, hpq⟩
  · rw [hs, hr]
  · have hlayer := hpq.layer.anonymous
    rw [hs, hr, Option.map_some, Option.map_some, ← Layer.snapshot_anonymous p.layer, hlayer,
      Layer.snapshot_anonymous]

/-- An operation on the first ledger alone. -/
theorem alone (h : Mirrors b x y) (op : Operation α)
    (stage : ∀ pairs, LayerAnimation.Mirrors b pairs x.stage y.stage →
      LayerAnimation.Mirrors b pairs (op.perform x.stage) y.stage)
    (apart : ∀ c ∈ op.attached x.stage, c.layer ≠ b) :
    Mirrors b ⟨op.perform x.stage, x.journal ++ op.attached x.stage⟩ y where
  timely := h.timely.transitions (PlainStage.transitions_perform op x.stage 0)
  journaled := h.journaled.transitions (PlainStage.transitions_perform op x.stage 0)
  stage := by
    obtain ⟨pairs, hstage, hfst, hsnd⟩ := h.stage
    refine ⟨pairs, stage pairs hstage, ?_, hsnd⟩
    rw [List.filter_append, Completion.filter_layer_of_ne apart, List.append_nil, hfst]

/-- An operation on both. -/
theorem both (h : Mirrors b x y) (op op' : Operation α) {pairs : List (Completion α × Completion α)}
    (fst : pairs.map Prod.fst = x.journal.filter (·.layer = b)) (snd : pairs.map Prod.snd = y.journal)
    (stage : ∃ more,
      LayerAnimation.Mirrors b (pairs ++ more) (op.perform x.stage) (op'.perform y.stage) ∧
        more.map Prod.fst = (op.attached x.stage).filter (·.layer = b) ∧
        more.map Prod.snd = op'.attached y.stage) :
    Mirrors b ⟨op.perform x.stage, x.journal ++ op.attached x.stage⟩
      ⟨op'.perform y.stage, y.journal ++ op'.attached y.stage⟩ where
  timely := h.timely.transitions (PlainStage.transitions_perform op x.stage 0)
  journaled := h.journaled.transitions (PlainStage.transitions_perform op x.stage 0)
  stage := by
    obtain ⟨more, hmore, hfst, hsnd⟩ := stage
    refine ⟨pairs ++ more, hmore, ?_, ?_⟩
    · rw [List.map_append, fst, hfst, List.filter_append]
    · rw [List.map_append, snd, hsnd]

/-- An operation on both that hands out nothing. -/
theorem both_silently (h : Mirrors b x y) (op op' : Operation α)
    {pairs : List (Completion α × Completion α)}
    (fst : pairs.map Prod.fst = x.journal.filter (·.layer = b)) (snd : pairs.map Prod.snd = y.journal)
    (stage : LayerAnimation.Mirrors b pairs (op.perform x.stage) (op'.perform y.stage))
    (silent : op.attached x.stage = []) (silent' : op'.attached y.stage = []) :
    Mirrors b ⟨op.perform x.stage, x.journal ++ op.attached x.stage⟩
      ⟨op'.perform y.stage, y.journal ++ op'.attached y.stage⟩ := by
  refine h.both op op' fst snd ⟨[], ?_, ?_, ?_⟩
  · rwa [List.append_nil]
  · rw [silent]
    rfl
  · rw [silent']
    rfl

/-- A call that is for another layer is not seen. -/
theorem perform_alone (h : Mirrors b x y) {c : Call α} (other : c.concerns b = false) :
    Mirrors b (x.perform c) y := by
  obtain ⟨id, hlayer, hid⟩ := Call.exists_of_not_concerns other
  cases c with
  | motion _ intents o =>
    cases hlayer
    refine h.alone (.motion id intents o) (fun _ hs => hs.motion_alone hid intents o) fun c hc => ?_
    simp only [Operation.attached] at hc
    split at hc
    · cases hc
    · rwa [PlainStage.layer_of_performed? (Option.mem_toList.mp hc)]
  | schedule _ intents o =>
    cases hlayer
    exact h.alone (.schedule id intents o) (fun _ hs => hs.enqueue_alone o.delay hid)
      fun _ hc => absurd hc List.not_mem_nil
  | animate _ a =>
    cases hlayer
    refine h.alone (.animate id a) (fun _ hs => hs.animate_alone hid a) fun c hc => ?_
    rwa [PlainStage.layer_of_attached? (Option.mem_toList.mp hc)]
  | interrupt _ i =>
    cases hlayer
    cases hc : (x.journal.filter (·.layer = id))[i]? with
    | none =>
      rw [perform_of_none (by rw [Call.operation?, hc]; rfl)]
      exact h
    | some c =>
      rw [perform_of_some (by rw [Call.operation?, hc]; rfl)]
      obtain ⟨hmem, hcid⟩ := List.mem_filter.mp (List.mem_of_getElem? hc)
      refine h.alone (.interrupt c.id) (fun _ hs => hs.interrupt_alone fun u hu hnumber => ?_)
        fun _ hd => absurd hd List.not_mem_nil
      -- Whatever waits under this number is that completion, so it is for the other layer.
      rw [h.journaled.job_eq hmem hu hnumber]
      exact fun hb => hid ((of_decide_eq_true hcid).symm.trans hb)
  | hold _ hold =>
    cases hlayer
    exact h.alone (.hold id hold) (fun _ hs => hs.modifyCell_alone hid _)
      fun _ hc => absurd hc List.not_mem_nil
  | drop _ =>
    cases hlayer
    exact h.alone (.drop id) (fun _ hs => hs.modifyCell_alone hid _)
      fun _ hc => absurd hc List.not_mem_nil
  | advance dt => cases hlayer
  | advanceTo t => cases hlayer

/-- A call that is for the layer, or for all layers, keeps both ledgers together. -/
theorem perform (h : Mirrors b x y) {c : Call α} (own : c.concerns b = true) :
    Mirrors b (x.perform c) (y.perform c) := by
  have htimely := h.timely
  obtain ⟨pairs, hs, hfst, hsnd⟩ := h.stage
  cases c with
  | motion id intents o =>
    obtain rfl := Call.eq_of_concerns own rfl
    obtain ⟨more, hmore, hfst', hsnd'⟩ := hs.motion htimely intents o
    refine h.both (.motion id intents o) (.motion id intents o) hfst hsnd ⟨more, hmore, ?_, hsnd'⟩
    rw [← hfst', hmore.filter_map_fst]
  | schedule id intents o =>
    obtain rfl := Call.eq_of_concerns own rfl
    exact h.both_silently (.schedule id intents o) (.schedule id intents o) hfst hsnd
      (hs.enqueue htimely o.delay (.deferred rfl)) rfl rfl
  | animate id a =>
    obtain rfl := Call.eq_of_concerns own rfl
    obtain ⟨more, hmore, hfst', hsnd'⟩ := hs.animate htimely a
    refine h.both (.animate id a) (.animate id a) hfst hsnd ⟨more, hmore, ?_, hsnd'⟩
    rw [Operation.attached, ← hfst', hmore.filter_map_fst]
  | interrupt id i =>
    obtain rfl := Call.eq_of_concerns own rfl
    have hown : y.journal.filter (·.layer = id) = pairs.map Prod.snd := by
      rw [← hsnd, hs.filter_map_snd]
    -- The animation is named by the same place among those of the layer.
    cases hi : pairs[i]? with
    | none =>
      rw [perform_of_none (by rw [Call.operation?, ← hfst, List.getElem?_map, hi]; rfl),
        perform_of_none (by rw [Call.operation?, hown, List.getElem?_map, hi]; rfl)]
      exact h
    | some pair =>
      obtain ⟨c, d⟩ := pair
      have mem : (c, d) ∈ pairs := List.mem_of_getElem? hi
      have hc : c ∈ x.journal ∧ c.layer = id := by
        have hmem : c ∈ x.journal.filter (·.layer = id) := by
          rw [← hfst]
          exact List.mem_map_of_mem (f := Prod.fst) mem
        exact ⟨(List.mem_filter.mp hmem).1, of_decide_eq_true (List.mem_filter.mp hmem).2⟩
      rw [perform_of_some (by rw [Call.operation?, ← hfst, List.getElem?_map, hi]; rfl),
        perform_of_some (by rw [Call.operation?, hown, List.getElem?_map, hi]; rfl)]
      refine h.both_silently (.interrupt c.id) (.interrupt d.id) hfst hsnd ?_ rfl rfl
      refine hs.interrupt htimely mem fun u hu hnumber => ?_
      rw [h.journaled.job_eq hc.1 hu hnumber]
      exact hc.2
  | hold id hold =>
    obtain rfl := Call.eq_of_concerns own rfl
    exact h.both_silently (.hold id hold) (.hold id hold) hfst hsnd (hs.setHold hold) rfl rfl
  | drop id =>
    obtain rfl := Call.eq_of_concerns own rfl
    exact h.both_silently (.drop id) (.drop id) hfst hsnd hs.dropLayer rfl rfl
  | advance dt =>
    -- Both clocks show the same time, so both are moved to the same moment.
    have hmoment : y.stage.ahead dt = x.stage.ahead dt :=
      congrArg (· + Scalar.larger dt 0.0) hs.now.symm
    have harrival := hs.arrival htimely (x.stage.ahead dt) [] [] .nil
    refine h.both (.advance dt) (.advance dt) hfst hsnd ?_
    simp only [Operation.perform, Operation.attached, PlainStage.advance,
      PlainStage.advanceTo_eq_arrival, hmoment]
    exact harrival
  | advanceTo t =>
    exact h.both (.advanceTo t) (.advanceTo t) hfst hsnd (hs.arrival htimely t [] [] .nil)

end Mirrors

/-- Calls for other layers may be left out of a program, and nothing that is seen of a layer
changes. -/
theorem Mirrors.views_eq [LawfulTime α] {b : LayerId} {x y : Ledger α} (h : Mirrors b x y)
    (calls : List (Call α)) : x.views b calls = y.views b (calls.filter (Call.concerns b)) := by
  induction calls generalizing x y with
  | nil => rfl
  | cons c calls ih =>
    cases hc : c.concerns b with
    | true =>
      have hboth := h.perform hc
      rw [List.filter_cons_of_pos hc, views, views, if_pos hc, if_pos hc, hboth.view?, ih hboth]
    | false =>
      rw [List.filter_cons_of_neg (by rw [hc]; exact Bool.false_ne_true), views, hc,
        if_neg Bool.false_ne_true]
      exact ih (h.perform_alone hc)

/-- Layers do not interfere.  Of a program over some layers all calls that are only for other layers
may be left out: after each of the calls that remain, the layer has the same values, the same running
tracks but for their numbers and the same clock, and it shows the same values. -/
theorem views_filter_concerns (layers : List (Layer Float)) (calls : List (Call Float))
    (b : LayerId) :
    (opening layers).views b calls = (opening layers).views b (calls.filter (Call.concerns b)) :=
  (Mirrors.opening b layers).views_eq calls

end Ledger

end LayerAnimation
