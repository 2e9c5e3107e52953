import LayerAnimation.Proofs.Division
import LayerAnimation.Proofs.Visibility

/-!
# Motions in groups

Two lists of intents that have no attribute in common may be issued as one motion or as two, in
either order: no later motion and no move of the clock can tell the difference.  The stages have
different numbers and different jobs, but the same layers.

- `Stage.Divided` says that a stage is another one on which some completions and motions are
  divided.
- Whatever both do keeps them together: attachments (`Stage.Divided.animate`,
  `Stage.Divided.animate_parts`), jobs that start (`Stage.Divided.start`) and the loops of the clock
  (`Stage.Divided.runDue`, `Stage.Divided.settle`).  Where the first stage starts one job the second
  one starts its parts, one after the other, at the same moment.
- `PlainStage.view?_motion_append` says what can be seen: nothing of it.

Interruptions are not among the operations: they end a part, and leave the others.
-/

namespace LayerAnimation

open LawfulTime

variable {α κ σ : Type}

/-! ## §1 A stage after an attachment -/

/-- Intents are compiled alike on layers with the same values. -/
theorem Layer.compile_congr [Scalar α] {l r : Layer α} (h : l.values = r.values)
    (intents : List (Intent α)) : l.compile intents = r.compile intents := by
  rw [compile, compile, h]

namespace Stage

theorem followed_follow_congr {s r : Stage α κ σ} (h : s.followed = r.followed) (id : LayerId) :
    (s.follow id).followed = (r.follow id).followed := by
  rw [follow, follow, h]
  split
  · exact h
  · rfl

theorem follow_follow (s : Stage α κ σ) (id : LayerId) : (s.follow id).follow id = s.follow id :=
  if_pos ((mem_followed_follow s id).mpr (.inl rfl))

variable [Scalar α] {s : Stage α κ σ} {id : LayerId} {l : Layer α}

section Animate

variable (found : s.writable? id = some l) (a : Animation α)

include found

theorem cell?_animate (j : LayerId) : (s.animate id a).1.cell? j =
    if id = j then (s.cell? j).map fun c => { c with layer := (l.attach s.nextId s.now a).1 }
    else s.cell? j := by
  rw [animate_of_writable? found, cell?_enqueueCompletion, cell?_setLayer]
  rfl

theorem writable?_animate :
    (s.animate id a).1.writable? id = some (l.attach s.nextId s.now a).1 := by
  obtain ⟨c, hc, hfree, -⟩ := writable?_eq_some_iff.mp found
  refine writable?_eq_some_iff.mpr
    ⟨{ c with layer := (l.attach s.nextId s.now a).1 }, ?_, hfree, rfl⟩
  rw [cell?_animate found, if_pos rfl, hc, Option.map_some]

theorem nextId_animate : (s.animate id a).1.nextId = s.nextId + 1 := by
  rw [animate_of_writable? found]
  exact nextId_follow _ _

theorem followed_animate : (s.animate id a).1.followed = (s.follow id).followed := by
  have hsame : (s.drawId.setLayer id (l.attach s.nextId s.now a).1).followed = s.followed := rfl
  rw [animate_of_writable? found]
  exact followed_follow_congr hsame id

theorem exists_timers_animate : ∃ v : Timer α κ, v.due = s.now + wait (completionDelay a) ∧
    v.job = .completion ⟨id, s.nextId, (l.attach s.nextId s.now a).2⟩ ∧
    (s.animate id a).1.timers = v.insert s.timers := by
  rw [animate_of_writable? found]
  exact ⟨_, rfl, rfl, timers_enqueueCompletion _ _ _⟩

end Animate

/-- Where a layer is gone or in use a motion takes no more than a number. -/
theorem perform_of_not_writable? (missing : s.writable? id = none) (intents : List (Intent α))
    (duration : α) (easing : Easing α) : ∃ n, s.nextId ≤ n ∧
      (s.perform id intents duration easing).1 = { s with nextId := n } := by
  unfold perform
  split
  · exact ⟨s.nextId, Nat.le_refl _, rfl⟩
  · rw [animate_of_not_writable? missing]
    exact ⟨s.nextId + 1, Nat.le_succ _, rfl⟩

/-- Register some jobs, one after the other. -/
def enqueueAll (s : Stage α κ σ) (after : α) (jobs : List (Job α κ)) : Stage α κ σ :=
  jobs.foldl (fun s job => s.enqueue after job) s

/-- They are due together. -/
theorem enqueueAll_eq (s : Stage α κ σ) (after : α) (jobs : List (Job α κ)) :
    ∃ seq vs,
      s.enqueueAll after jobs = { s with seq := seq, timers := Timer.insertAll vs s.timers } ∧
      vs.map Timer.job = jobs ∧ ∀ v ∈ vs, v.due = s.now + wait after := by
  induction jobs generalizing s with
  | nil => exact ⟨s.seq, [], rfl, rfl, fun v hv => absurd hv List.not_mem_nil⟩
  | cons job jobs ih =>
    obtain ⟨seq, vs, hrest, hjobs, hdues⟩ := ih (s.enqueue after job)
    exact ⟨seq, ⟨s.now + wait after, s.seq + 1, job⟩ :: vs, hrest, by rw [List.map_cons, hjobs],
      List.forall_mem_cons.mpr ⟨rfl, hdues⟩⟩

theorem requeue_eq_enqueueAll (s : Stage α κ σ) (cs : List (Completion α)) :
    s.requeue cs = s.enqueueAll 0.0 (cs.map .completion) := by
  rw [requeue, enqueueAll, List.foldl_map]

end Stage

/-! ## §2 Divided stages -/

/-- Cells with the same users, the layer of the second of which is divided. -/
structure Cell.Divided (divisions : List (Division α)) (b : LayerId) (x y : Cell α) : Prop where
  hold : x.hold = y.hold
  owned : x.owned = y.owned
  layer : x.layer.Divided divisions b y.layer

/-- The second stage is the first one, but for numbers and registrations, and with some completions
and motions divided. -/
structure Stage.Divided (divisions : List (Division α)) (s r : PlainStage α) : Prop where
  now : s.now = r.now
  cell : ∀ b, Option.Rel (Cell.Divided divisions b) (s.cell? b) (r.cell? b)
  followed : s.followed = r.followed
  timers : Timer.DividedAll divisions s.timers r.timers
  drawn : ∀ d ∈ divisions, d.whole.id < s.nextId ∧ ∀ c ∈ d.parts, c.id < r.nextId

theorem Cell.Divided.sync {divisions : List (Division α)} {b : LayerId} {x y : Cell α}
    (h : x.Divided divisions b y) (now : α) : (x.sync now).Divided divisions b (y.sync now) := by
  by_cases hfree : x.hold = .free
  · rw [sync_of_free hfree, sync_of_free (h.hold ▸ hfree)]
    exact ⟨h.hold, h.owned, h.layer.sync now⟩
  · rw [sync_of_held hfree, sync_of_held (h.hold ▸ hfree)]
    exact h

namespace Stage.Divided

variable {divisions : List (Division α)} {s r : PlainStage α}

/-- At first every completion that waits is its own part. -/
theorem refl (s : PlainStage α) (drawn : ∀ c ∈ s.waiting, c.id < s.nextId) :
    Stage.Divided (s.completions.map fun c => ⟨c, [c], by simp, by simp⟩) s s where
  now := rfl
  cell := by
    intro b
    cases s.cell? b with
    | none => exact .none
    | some x =>
      -- A completion that is its only part ends what it ends.
      refine .some ⟨rfl, rfl, rfl, fun d hd _ => ?_⟩
      obtain ⟨c, -, rfl⟩ := List.mem_map.mp hd
      ext k
      simp [Layer.mem_endedAll]
  followed := rfl
  timers := by
    refine .refl fun c hc => ⟨_, List.mem_map_of_mem ?_, rfl, rfl⟩
    exact Multiset.mem_coe.mp (Stage.mem_waiting.mpr hc)
  drawn := by
    intro d hd
    obtain ⟨c, hc, rfl⟩ := List.mem_map.mp hd
    have hlt : c.id < s.nextId := drawn c (Multiset.mem_coe.mpr hc)
    exact ⟨hlt, fun c' hc' => by rw [List.mem_singleton.mp hc']; exact hlt⟩

/-- A layer is gone from both stages, or stands on both. -/
theorem cell_cases (h : Stage.Divided divisions s r) (b : LayerId) :
    (s.cell? b = none ∧ r.cell? b = none) ∨
    ∃ x y, s.cell? b = some x ∧ r.cell? b = some y ∧ x.Divided divisions b y := by
  have hcell := h.cell b
  generalize s.cell? b = p at hcell ⊢
  generalize r.cell? b = q at hcell ⊢
  cases hcell with
  | none => exact .inl ⟨rfl, rfl⟩
  | some hxy => exact .inr ⟨_, _, rfl, rfl, hxy⟩

theorem isAlive_eq (h : Stage.Divided divisions s r) : s.isAlive = r.isAlive := by
  funext b
  rw [isAlive, isAlive]
  rcases h.cell_cases b with ⟨hs, hr⟩ | ⟨x, y, hs, hr, -⟩ <;> rw [hs, hr]
  rfl

/-- It can be written on neither, or on both. -/
theorem writable_cases (h : Stage.Divided divisions s r) (b : LayerId) :
    (s.writable? b = none ∧ r.writable? b = none) ∨
    ∃ l l', s.writable? b = some l ∧ r.writable? b = some l' ∧ l.Divided divisions b l' := by
  unfold Stage.writable?
  rcases h.cell_cases b with ⟨hs, hr⟩ | ⟨x, y, hs, hr, hxy⟩
  · rw [hs, hr]
    exact .inl ⟨rfl, rfl⟩
  · rw [hs, hr]
    dsimp only
    rw [hxy.hold]
    split
    · exact .inr ⟨x.layer, y.layer, rfl, rfl, hxy.layer⟩
    · exact .inl ⟨rfl, rfl⟩

/-- The first timers on both stages are due together. -/
theorem exists_first (h : Stage.Divided divisions s r) {u : Timer α Empty}
    {us : List (Timer α Empty)} (hus : s.timers = u :: us) :
    ∃ v vs, r.timers = v :: vs ∧ v.due = u.due := by
  obtain ⟨vs, ws, hws, timer, -⟩ := Timer.DividedAll.of_cons (hus ▸ h.timers)
  obtain ⟨v, vs, rfl⟩ := timer.exists_cons
  exact ⟨v, vs ++ ws, hws, timer.due v List.mem_cons_self⟩

/-- What can be seen of a layer on both is the same. -/
theorem view?_eq [Scalar α] (h : Stage.Divided divisions s r) (b : LayerId) :
    s.view? b = r.view? b := by
  unfold Stage.view?
  rcases h.cell_cases b with ⟨hs, hr⟩ | ⟨x, y, hs, hr, hxy⟩
  · rw [hs, hr]
  · rw [hs, hr, Option.map_some, Option.map_some, ← Layer.snapshot_anonymous x.layer,
      hxy.layer.anonymous, Layer.snapshot_anonymous]

/-! ### What changes cells, clocks and queues -/

theorem modifyCell (h : Stage.Divided divisions s r) (id : LayerId)
    {f g : Cell α → Option (Cell α)}
    (same : ∀ x y, x.Divided divisions id y → Option.Rel (Cell.Divided divisions id) (f x) (g y)) :
    Stage.Divided divisions (s.modifyCell id f) (r.modifyCell id g) where
  now := h.now
  cell := by
    intro b
    rw [cell?_modifyCell, cell?_modifyCell]
    by_cases hb : id = b
    · subst hb
      rw [if_pos rfl, if_pos rfl]
      rcases h.cell_cases id with ⟨hs, hr⟩ | ⟨x, y, hs, hr, hxy⟩
      · rw [hs, hr]
        exact .none
      · rw [hs, hr]
        exact same x y hxy
    · rw [if_neg hb, if_neg hb]
      exact h.cell b
  followed := h.followed
  timers := h.timers
  drawn := h.drawn

theorem setHold (h : Stage.Divided divisions s r) (id : LayerId) (hold : Hold) :
    Stage.Divided divisions (s.setHold id hold) (r.setHold id hold) := by
  refine h.modifyCell id fun x y hxy => ?_
  rw [hxy.owned]
  split
  · exact .none
  · exact .some ⟨rfl, rfl, hxy.layer⟩

theorem dropLayer (h : Stage.Divided divisions s r) (id : LayerId) :
    Stage.Divided divisions (s.dropLayer id) (r.dropLayer id) := by
  refine h.modifyCell id fun x y hxy => ?_
  rw [hxy.hold]
  split
  · exact .none
  · exact .some ⟨rfl, rfl, hxy.layer⟩

theorem follow (h : Stage.Divided divisions s r) (id : LayerId) :
    Stage.Divided divisions (s.follow id) (r.follow id) where
  now := by rw [now_follow, now_follow, h.now]
  cell := by
    intro b
    rw [cell?_follow, cell?_follow]
    exact h.cell b
  followed := followed_follow_congr h.followed id
  timers := by
    rw [timers_follow, timers_follow]
    exact h.timers
  drawn := by
    rw [nextId_follow, nextId_follow]
    exact h.drawn

theorem sync (h : Stage.Divided divisions s r) : Stage.Divided divisions s.sync r.sync where
  now := h.now
  cell := by
    intro b
    rw [cell?_sync, cell?_sync, ← h.now, ← h.followed]
    by_cases hb : b ∈ s.followed
    · rw [if_pos hb, if_pos hb]
      rcases h.cell_cases b with ⟨hs, hr⟩ | ⟨x, y, hs, hr, hxy⟩
      · rw [hs, hr]
        exact .none
      · rw [hs, hr]
        exact .some (hxy.sync s.now)
    · rw [if_neg hb, if_neg hb]
      exact h.cell b
  followed := by
    show s.followed.filter s.isAlive = r.followed.filter r.isAlive
    rw [h.followed, h.isAlive_eq]
  timers := h.timers
  drawn := h.drawn

/-- Both may leave numbers out. -/
theorem skip (h : Stage.Divided divisions s r) {m n : AnimationId} (hm : s.nextId ≤ m)
    (hn : r.nextId ≤ n) :
    Stage.Divided divisions { s with nextId := m } { r with nextId := n } :=
  { h with drawn := fun d hd => ⟨Nat.lt_of_lt_of_le (h.drawn d hd).1 hm,
      fun c hc => Nat.lt_of_lt_of_le ((h.drawn d hd).2 c hc) hn⟩ }

variable [Scalar α]

theorem moveClock (h : Stage.Divided divisions s r) (t : α) :
    Stage.Divided divisions (s.moveClock t) (r.moveClock t) :=
  { h with now := congrArg (Scalar.larger · t) h.now }

variable [LawfulTime α]

/-- Time is in order on a divided stage. -/
theorem timely (h : Stage.Divided divisions s r) (timely : s.Timely) : r.Timely where
  clock := h.now ▸ timely.clock
  ahead := by
    intro v hv
    obtain ⟨u, hu, hdue⟩ := h.timers.exists_due hv
    rw [← h.now, hdue]
    exact timely.ahead u hu
  sorted := h.timers.pairwise timely.sorted fun _ => timely.proper

/-- A job that is registered on one stage, and its parts on the other one. -/
theorem enqueue (h : Stage.Divided divisions s r) (after : α) {j : Job α Empty}
    {js : List (Job α Empty)} (job : j.Divided divisions js) :
    Stage.Divided divisions (s.enqueue after j) (r.enqueueAll after js) := by
  obtain ⟨seq, vs, hall, rfl, hdues⟩ := r.enqueueAll_eq after js
  have htimer : Timer.Divided divisions ⟨s.now + wait after, s.seq + 1, j⟩ vs :=
    ⟨job, fun v hv => by rw [hdues v hv, h.now]⟩
  rw [hall]
  exact { h with timers := h.timers.insert htimer }

/-- Completions that are registered again, and their parts. -/
theorem requeue (h : Stage.Divided divisions s r) {ds : List (Division α)}
    (known : ds ⊆ divisions) :
    Stage.Divided divisions (s.requeue (ds.map Division.whole))
      (r.requeue (ds.flatMap Division.parts)) := by
  induction ds generalizing s r with
  | nil => exact h
  | cons d ds ih =>
    obtain ⟨hd, hds⟩ := List.cons_subset.mp known
    have hfirst := h.enqueue 0.0 (.completion hd)
    rw [← requeue_eq_enqueueAll] at hfirst
    have hsplit : r.requeue ((d :: ds).flatMap Division.parts)
        = (r.requeue d.parts).requeue (ds.flatMap Division.parts) := by
      rw [List.flatMap_cons, Stage.requeue, List.foldl_append]
      rfl
    rw [hsplit]
    exact ih hfirst hds

/-! ## §3 Attachments -/

/-- A layer that is replaced on both stages, and a completion that is registered, with one division
more. -/
theorem attached (h : Stage.Divided divisions s r) {d : Division α} {s' r' : PlainStage α}
    {l l' : Layer α} {u : Timer α Empty} {vs : List (Timer α Empty)}
    (now : s'.now = s.now ∧ r'.now = r.now)
    (cells : ∀ b, s'.cell? b =
      if d.whole.layer = b then (s.cell? b).map fun c => { c with layer := l } else s.cell? b)
    (cells' : ∀ b, r'.cell? b =
      if d.whole.layer = b then (r.cell? b).map fun c => { c with layer := l' } else r.cell? b)
    (layers : l.Divided (divisions ++ [d]) d.whole.layer l')
    (followed : s'.followed = r'.followed)
    (timers : s'.timers = u.insert s.timers ∧ r'.timers = Timer.insertAll vs r.timers)
    (timer : u.Divided (divisions ++ [d]) vs)
    (numbers : s.nextId ≤ s'.nextId ∧ r.nextId ≤ r'.nextId)
    (drawn : d.whole.id < s'.nextId ∧ ∀ c ∈ d.parts, c.id < r'.nextId) :
    Stage.Divided (divisions ++ [d]) s' r' where
  now := now.1.trans (h.now.trans now.2.symm)
  cell := by
    intro b
    rw [cells, cells']
    by_cases hb : d.whole.layer = b
    · subst hb
      rw [if_pos rfl, if_pos rfl]
      rcases h.cell_cases d.whole.layer with ⟨hs, hr⟩ | ⟨x, y, hs, hr, hxy⟩
      · rw [hs, hr]
        exact .none
      · rw [hs, hr]
        exact .some ⟨hxy.hold, hxy.owned, layers⟩
    · -- On other layers there is nothing that the new completion could end.
      rw [if_neg hb, if_neg hb]
      rcases h.cell_cases b with ⟨hs, hr⟩ | ⟨x, y, hs, hr, hxy⟩
      · rw [hs, hr]
        exact .none
      · rw [hs, hr]
        exact .some ⟨hxy.hold, hxy.owned, hxy.layer.of_other hb⟩
  followed := followed
  timers := by
    rw [timers.1, timers.2]
    exact (h.timers.mono (List.subset_append_left _ _)).insert timer
  drawn := by
    intro d' hd'
    rcases List.mem_append.mp hd' with hd' | hd'
    · exact ⟨Nat.lt_of_lt_of_le (h.drawn d' hd').1 numbers.1,
        fun c hc => Nat.lt_of_lt_of_le ((h.drawn d' hd').2 c hc) numbers.2⟩
    · rw [List.mem_singleton.mp hd']
      exact drawn

/-- An animation that starts on both stages. -/
theorem animate (h : Stage.Divided divisions s r) (id : LayerId) (a : Animation α) :
    ∃ more, divisions ⊆ more ∧ Stage.Divided more (s.animate id a).1 (r.animate id a).1 := by
  rcases h.writable_cases id with ⟨hs, hr⟩ | ⟨l, l', hs, hr, layers⟩
  · rw [animate_of_not_writable? hs, animate_of_not_writable? hr]
    exact ⟨divisions, List.Subset.refl _, h.skip (Nat.le_succ _) (Nat.le_succ _)⟩
  · -- The numbers that are drawn now belong to no division yet.
    have hfresh : ∀ d ∈ divisions, d.whole.id ≠ s.nextId ∧ ∀ c ∈ d.parts, c.id ≠ r.nextId :=
      fun d hd => ⟨Nat.ne_of_lt (h.drawn d hd).1, fun c hc => Nat.ne_of_lt ((h.drawn d hd).2 c hc)⟩
    have hlayers := layers.attach hfresh s.now a
    have hcells := cell?_animate hr a
    obtain ⟨u, hu, huJob, htimers⟩ := exists_timers_animate hs a
    obtain ⟨v, hv, hvJob, htimers'⟩ := exists_timers_animate hr a
    rw [← h.now] at hcells hv hvJob
    have hparts : (r.animate id a).1.timers = Timer.insertAll [v] r.timers := htimers'
    refine ⟨_, List.subset_append_left _ _, h.attached ⟨now_animate s id a, now_animate r id a⟩
      (cell?_animate hs a) hcells hlayers ?_ ⟨htimers, hparts⟩ ⟨?_, ?_⟩ ?_ ?_⟩
    · rw [followed_animate hs, followed_animate hr, followed_follow_congr h.followed]
    · rw [huJob, List.map_singleton, hvJob]
      exact .of_parts (List.mem_append_right _ List.mem_cons_self) rfl rfl
    · intro w hw
      rw [List.mem_singleton.mp hw, hu, hv]
    · rw [nextId_animate hs, nextId_animate hr]
      exact ⟨Nat.le_succ _, Nat.le_succ _⟩
    · rw [nextId_animate hs, nextId_animate hr]
      refine ⟨Nat.lt_succ_self _, fun c hc => ?_⟩
      rw [List.mem_singleton.mp hc]
      exact Nat.lt_succ_self _

/-- An animation that starts on one stage, and on the other one two that split it. -/
theorem animate_parts (h : Stage.Divided divisions s r) {id : LayerId} {l l' : Layer α}
    (found : s.writable? id = some l) (found' : r.writable? id = some l')
    (layers : l.Divided divisions id l') {a first second : Animation α}
    (splits : a.Splits first second) :
    ∃ more, divisions ⊆ more ∧
      Stage.Divided more (s.animate id a).1 ((r.animate id first).1.animate id second).1 := by
  have hfresh : ∀ d ∈ divisions, d.whole.id ≠ s.nextId ∧
      ∀ c ∈ d.parts, c.id ≠ r.nextId ∧ c.id ≠ r.nextId + 1 := by
    intro d hd
    refine ⟨Nat.ne_of_lt (h.drawn d hd).1, fun c hc => ?_⟩
    have hlt := (h.drawn d hd).2 c hc
    exact ⟨Nat.ne_of_lt hlt, Nat.ne_of_lt (Nat.lt_succ_of_lt hlt)⟩
  have hlayers := layers.attach_parts splits hfresh s.now
  -- The second part meets the stage as the first one has left it: one number on, at the same time.
  have hfound := writable?_animate found' first
  have hnext := nextId_animate found' first
  have hnow := now_animate r id first
  have hcells := cell?_animate hfound second
  obtain ⟨u, hu, huJob, htimers⟩ := exists_timers_animate found a
  obtain ⟨v, hv, hvJob, htimers'⟩ := exists_timers_animate found' first
  obtain ⟨w, hw, hwJob, htimers''⟩ := exists_timers_animate hfound second
  simp only [hnow, hnext, ← h.now] at hcells hv hvJob hw hwJob
  have hparts : ((r.animate id first).1.animate id second).1.timers
      = Timer.insertAll [v, w] r.timers := htimers''.trans (congrArg w.insert htimers')
  refine ⟨_, List.subset_append_left _ _, h.attached
    ⟨now_animate s id a, (now_animate _ id second).trans hnow⟩ (cell?_animate found a) (fun b => ?_)
    hlayers ?_ ⟨htimers, hparts⟩ ⟨?_, ?_⟩ ?_ ?_⟩
  · rw [hcells, cell?_animate found']
    split
    · rw [Option.map_map]
      rfl
    · rfl
  · rw [followed_animate found, followed_animate hfound,
      followed_follow_congr (followed_animate found' first), follow_follow,
      followed_follow_congr h.followed]
  · rw [huJob, List.map_cons, List.map_singleton, hvJob, hwJob]
    exact .of_parts (List.mem_append_right _ List.mem_cons_self) rfl rfl
  · rw [List.forall_mem_cons, List.forall_mem_singleton, hu, hv, hw, splits.delay.1, splits.delay.2]
    exact ⟨rfl, rfl⟩
  · rw [nextId_animate found, nextId_animate hfound, hnext]
    exact ⟨Nat.le_succ _, Nat.le_add_right _ 2⟩
  · rw [nextId_animate found, nextId_animate hfound, hnext]
    exact ⟨Nat.lt_succ_self _, List.forall_mem_cons.mpr
      ⟨Nat.lt_succ_of_lt (Nat.lt_succ_self _), List.forall_mem_singleton.mpr (Nat.lt_succ_self _)⟩⟩

/-- A motion that starts on both stages. -/
theorem perform (h : Stage.Divided divisions s r) (id : LayerId) (intents : List (Intent α))
    (duration : α) (easing : Easing α) :
    ∃ more, divisions ⊆ more ∧ Stage.Divided more (s.perform id intents duration easing).1
      (r.perform id intents duration easing).1 := by
  rcases h.writable_cases id with ⟨hs, hr⟩ | ⟨l, l', hs, hr, layers⟩
  · obtain ⟨m, hm, hs⟩ := perform_of_not_writable? hs intents duration easing
    obtain ⟨n, hn, hr⟩ := perform_of_not_writable? hr intents duration easing
    rw [hs, hr]
    exact ⟨divisions, List.Subset.refl _, h.skip hm hn⟩
  · have hvalues := (Layer.anonymous_eq_iff.mp layers.anonymous).1
    rw [perform_of_writable? hs, perform_of_writable? hr, ← Layer.compile_congr hvalues]
    exact h.animate id _

/-- A motion that starts on one stage, and on the other one two that split it. -/
theorem perform_parts (h : Stage.Divided divisions s r) (id : LayerId)
    {zs first second : List (Intent α)} (splits : Intent.Splits zs first second) (duration : α)
    (easing : Easing α) :
    ∃ more, divisions ⊆ more ∧ Stage.Divided more (s.perform id zs duration easing).1
      ((r.perform id first duration easing).1.perform id second duration easing).1 := by
  rcases h.writable_cases id with ⟨hs, hr⟩ | ⟨l, l', hs, hr, layers⟩
  · obtain ⟨m, hm, hs⟩ := perform_of_not_writable? hs zs duration easing
    obtain ⟨n, hn, hfirst⟩ := perform_of_not_writable? hr first duration easing
    obtain ⟨n', hn', hsecond⟩ :=
      perform_of_not_writable? (s := { r with nextId := n }) hr second duration easing
    rw [hs, hfirst, hsecond]
    exact ⟨divisions, List.Subset.refl _, h.skip hm (Nat.le_trans hn hn')⟩
  · -- Both parts are compiled as the whole is: the first one changes no value.
    have hvalues := (Layer.anonymous_eq_iff.mp layers.anonymous).1
    have hfirst : l'.compile first = l.compile first := (Layer.compile_congr hvalues first).symm
    have hsecond : ∀ n a, (l'.attach n r.now a).1.compile second = l.compile second := fun n a =>
      Layer.compile_congr ((Layer.values_attach l' n r.now a).trans hvalues.symm) second
    rw [perform_of_writable? hs, perform_of_writable? hr, hfirst,
      perform_of_writable? (writable?_animate hr _), hsecond]
    exact h.animate_parts hs hr layers (splits.compile l duration easing)

end Stage.Divided

/-! ## §4 Jobs that start -/

namespace PlainStage

variable [Scalar α] {s : PlainStage α} {vs : List (Timer α Empty)} {cs : List (Completion α)}
  {b : LayerId}

theorem start_of_gone {c : Completion α} (gone : s.cell? c.layer = none) :
    Stage.start exec (.completion c) s = (s, .completed c.id 0) := by
  rw [Stage.start, Stage.fire, gone]

theorem start_of_held {c : Completion α} {hold : Hold} (inUse : s.hold? c.layer = some hold)
    (held : hold ≠ .free) : Stage.start exec (.completion c) s = (s, .refused c) := by
  rw [Stage.start, Stage.fire_of_held inUse held]

theorem start_of_free {c : Completion α} {cell : Cell α} (alive : s.cell? c.layer = some cell)
    (free : cell.hold = .free) : Stage.start exec (.completion c) s
      = (s.setLayer c.layer (cell.layer.commit c.id c.animation).1,
        .completed c.id (cell.layer.commit c.id c.animation).2) := by
  rw [Stage.start, Stage.fire, alive]
  simp only [Hold.admitsWriter_iff.mpr free, ↓reduceIte]

theorem length_startAll (s : PlainStage α) (vs : List (Timer α Empty)) :
    (s.startAll vs).2.length = vs.length := by
  induction vs generalizing s with
  | nil => rfl
  | cons v vs ih => exact congrArg (· + 1) (ih _)

variable (jobs : vs.map Timer.job = cs.map .completion)

include jobs

/-- Completions that leave the stage as it is. -/
theorem startAll_of_still {outcome : Completion α → Outcome α Empty}
    (still : ∀ c ∈ cs, Stage.start exec (.completion c) s = (s, outcome c)) (due : α) (seq : Nat) :
    (s.startAll vs).1 = s ∧ (s.startAll vs).2.filterMap Firing.refused?
      = cs.filterMap fun c => Firing.refused? ⟨due, seq, outcome c⟩ := by
  induction vs generalizing cs with
  | nil =>
    obtain rfl := List.map_eq_nil_iff.mp jobs.symm
    exact ⟨rfl, rfl⟩
  | cons v vs ih =>
    obtain ⟨c, cs, rfl, hc, hcs⟩ := List.map_eq_cons_iff.mp jobs.symm
    obtain ⟨hstill, hstills⟩ := List.forall_mem_cons.mp still
    obtain ⟨hstage, hrefused⟩ := ih hcs.symm hstills
    rw [startAll, ← hc, hstill]
    refine ⟨hstage, ?_⟩
    rw [List.filterMap_cons, List.filterMap_cons, hrefused]
    rfl

/-- The completions of a layer that no one uses commit one after the other. -/
theorem startAll_of_free {cell : Cell α} (alive : s.cell? b = some cell) (free : cell.hold = .free)
    (layers : ∀ c ∈ cs, c.layer = b) :
    (s.startAll vs).1 = s.setLayer b (cell.layer.commitAll cs).1 ∧
      (s.startAll vs).2.filterMap Firing.refused? = [] := by
  induction vs generalizing s cell cs with
  | nil =>
    obtain rfl := List.map_eq_nil_iff.mp jobs.symm
    exact ⟨(Stage.setLayer_self alive).symm, rfl⟩
  | cons v vs ih =>
    obtain ⟨c, cs, rfl, hc, hcs⟩ := List.map_eq_cons_iff.mp jobs.symm
    obtain ⟨rfl, hlayers⟩ := List.forall_mem_cons.mp layers
    -- The others find the layer as the first one has left it, and still free.
    have halive : (s.setLayer c.layer (cell.layer.commit c.id c.animation).1).cell? c.layer
        = some { cell with layer := (cell.layer.commit c.id c.animation).1 } := by
      rw [Stage.cell?_setLayer, if_pos rfl, alive, Option.map_some]
    obtain ⟨hstage, hrefused⟩ := ih hcs.symm halive free hlayers
    rw [Stage.setLayer_setLayer] at hstage
    rw [startAll, ← hc, start_of_free alive free]
    exact ⟨hstage, hrefused⟩

end PlainStage

/-- What became of jobs and of their parts: the parts of what was refused were refused, and if no
job is done, no part is. -/
structure Firing.Divided (divisions : List (Division α)) (fs gs : List (Firing α Empty)) :
    Prop where
  refused : ∃ ds ⊆ divisions, fs.filterMap Firing.refused? = ds.map Division.whole ∧
    gs.filterMap Firing.refused? = ds.flatMap Division.parts
  done : doneCount fs = 0 ↔ doneCount gs = 0

namespace Firing.Divided

variable {divisions more : List (Division α)} {fs gs fs' gs' : List (Firing α Empty)}

theorem nil : Firing.Divided divisions [] [] :=
  ⟨⟨[], List.nil_subset _, rfl, rfl⟩, Iff.rfl⟩

theorem mono (h : Firing.Divided divisions fs gs) (sub : divisions ⊆ more) :
    Firing.Divided more fs gs := by
  obtain ⟨ds, hds, hrefused⟩ := h.refused
  exact ⟨⟨ds, List.Subset.trans hds sub, hrefused⟩, h.done⟩

theorem append (h : Firing.Divided divisions fs gs) (h' : Firing.Divided divisions fs' gs') :
    Firing.Divided divisions (fs ++ fs') (gs ++ gs') where
  refused := by
    obtain ⟨ds, hds, hf, hg⟩ := h.refused
    obtain ⟨ds', hds', hf', hg'⟩ := h'.refused
    refine ⟨ds ++ ds', List.append_subset.mpr ⟨hds, hds'⟩, ?_, ?_⟩
    · rw [List.filterMap_append, hf, hf', List.map_append]
    · rw [List.filterMap_append, hg, hg', List.flatMap_append]
  done := by
    have hdone := h.done
    have hdone' := h'.done
    rw [doneCount, doneCount] at hdone hdone' ⊢
    rw [List.countP_append, List.countP_append]
    omega

/-- Where nothing is refused all jobs and all parts are done. -/
theorem of_done (hf : fs.filterMap Firing.refused? = []) (hg : gs.filterMap Firing.refused? = [])
    (empty : fs = [] ↔ gs = []) : Firing.Divided divisions fs gs where
  refused := ⟨[], List.nil_subset _, hf, hg⟩
  done := by
    have hfs := Stage.doneCount_add_refused fs
    have hgs := Stage.doneCount_add_refused gs
    rw [hf, List.length_nil, Nat.add_zero] at hfs
    rw [hg, List.length_nil, Nat.add_zero] at hgs
    rw [hfs, hgs, List.length_eq_zero_iff, List.length_eq_zero_iff, empty]

/-- Where a completion is refused and all its parts are, none of them is done. -/
theorem of_refused {d : Division α} (mem : d ∈ divisions)
    (hf : fs.filterMap Firing.refused? = [d.whole]) (hg : gs.filterMap Firing.refused? = d.parts)
    (single : fs.length = 1) (length : gs.length = d.parts.length) :
    Firing.Divided divisions fs gs where
  refused := ⟨[d], List.cons_subset.mpr ⟨mem, List.nil_subset _⟩, hf, by
    rw [hg, List.flatMap_singleton]⟩
  done := by
    have hfs := Stage.doneCount_add_refused fs
    have hgs := Stage.doneCount_add_refused gs
    rw [hf, List.length_singleton] at hfs
    rw [hg] at hgs
    omega

end Firing.Divided

namespace Stage.Divided

variable [Scalar α] {divisions : List (Division α)} {s r : PlainStage α}

/-- A completion fires on one stage, and its parts one after the other on the other stage. -/
theorem start_completion (h : Stage.Divided divisions s r) {d : Division α} (mem : d ∈ divisions)
    {vs : List (Timer α Empty)} (jobs : vs.map Timer.job = d.parts.map .completion) (due : α)
    (seq : Nat) :
    Stage.Divided divisions (Stage.start PlainStage.exec (.completion d.whole) s).1
        (r.startAll vs).1 ∧
      Firing.Divided divisions
        [⟨due, seq, (Stage.start PlainStage.exec (.completion d.whole) s).2⟩]
        (r.startAll vs).2 := by
  have hlength : (r.startAll vs).2.length = d.parts.length := by
    rw [PlainStage.length_startAll, ← List.length_map Timer.job, jobs, List.length_map]
  have hsome : [(⟨due, seq, (Stage.start PlainStage.exec (.completion d.whole) s).2⟩ :
      Firing α Empty)] = [] ↔ (r.startAll vs).2 = [] := by
    rw [← List.length_eq_zero_iff (l := (r.startAll vs).2), hlength, List.length_eq_zero_iff]
    exact iff_of_false (List.cons_ne_nil _ _) d.nonempty
  rcases h.cell_cases d.whole.layer with ⟨hs, hr⟩ | ⟨x, y, hs, hr, hxy⟩
  · -- With the layer all tracks are gone.
    obtain ⟨hstage, hrefused⟩ := PlainStage.startAll_of_still jobs (s := r)
      (fun c hc => PlainStage.start_of_gone (by rw [d.layer c hc, hr])) due seq
    refine ⟨?_, .of_done ?_ (hrefused.trans ?_) hsome⟩
    · rw [PlainStage.start_of_gone hs, hstage]
      exact h
    · rw [PlainStage.start_of_gone hs]
      rfl
    · exact List.filterMap_eq_nil_iff.mpr fun _ _ => rfl
  · by_cases hfree : x.hold = .free
    · -- No one uses the layer, and the parts end together what the whole ends.
      obtain ⟨hstage, hrefused⟩ :=
        PlainStage.startAll_of_free jobs hr (hxy.hold ▸ hfree) d.layer
      rw [PlainStage.start_of_free hs hfree] at hsome ⊢
      refine ⟨?_, .of_done rfl hrefused hsome⟩
      rw [hstage]
      exact h.modifyCell d.whole.layer fun x' y' hxy' =>
        .some ⟨hxy'.hold, hxy'.owned, hxy.layer.commit mem rfl⟩
    · -- The layer is in use on both stages, and nothing changes.
      have hheld : s.hold? d.whole.layer = some x.hold := by rw [hold?, hs, Option.map_some]
      have hheld' : ∀ c ∈ d.parts, r.hold? c.layer = some x.hold := fun c hc => by
        rw [d.layer c hc, hold?, hr, Option.map_some, hxy.hold]
      obtain ⟨hstage, hrefused⟩ := PlainStage.startAll_of_still jobs (s := r)
        (fun c hc => PlainStage.start_of_held (hheld' c hc) hfree) due seq
      rw [PlainStage.start_of_held hheld hfree, hstage]
      refine ⟨h, .of_refused mem rfl (hrefused.trans ?_) rfl hlength⟩
      exact List.filterMap_some

variable [LawfulTime α] {u : Timer α Empty} {vs : List (Timer α Empty)}

/-- A job starts on one stage, and its parts one after the other on the other stage. -/
theorem start (h : Stage.Divided divisions s r) (timer : u.Divided divisions vs) :
    ∃ more, divisions ⊆ more ∧
      Stage.Divided more (Stage.start PlainStage.exec u.job s).1 (r.startAll vs).1 ∧
      Firing.Divided more [⟨u.due, u.seq, (Stage.start PlainStage.exec u.job s).2⟩]
        (r.startAll vs).2 := by
  obtain ⟨due, seq, job⟩ := u
  have hjobs := timer.jobs
  generalize hjs : vs.map Timer.job = js at hjobs
  -- A completion is fired with its parts, a motion of one part is made on both sides, and a divided
  -- one is made part by part.
  cases hjobs with
  | @completion d mem =>
    exact ⟨divisions, List.Subset.refl _, h.start_completion mem hjs due seq⟩
  | @deferred d =>
    obtain ⟨v, rfl, hv⟩ := List.map_eq_singleton_iff.mp hjs
    obtain ⟨more, hsub, hmore⟩ := h.perform d.layer d.intents d.duration d.easing
    refine ⟨more, hsub, ?_⟩
    rw [PlainStage.startAll, PlainStage.startAll, hv]
    exact ⟨hmore, .of_done rfl rfl (iff_of_false (List.cons_ne_nil _ _) (List.cons_ne_nil _ _))⟩
  | @split id zs first second duration easing splits =>
    obtain ⟨v, ws, rfl, hv, hws⟩ := List.map_eq_cons_iff.mp hjs
    obtain ⟨w, rfl, hw⟩ := List.map_eq_singleton_iff.mp hws
    obtain ⟨more, hsub, hmore⟩ := h.perform_parts id splits duration easing
    refine ⟨more, hsub, ?_⟩
    rw [PlainStage.startAll, PlainStage.startAll, PlainStage.startAll, hv, hw]
    exact ⟨hmore, .of_done rfl rfl (iff_of_false (List.cons_ne_nil _ _) (List.cons_ne_nil _ _))⟩

/-! ## §5 The clock -/

/-- What is due up to a moment starts on both stages. -/
theorem runDue (h : Stage.Divided divisions s r) (timely : s.Timely) (t : α) :
    ∃ more, divisions ⊆ more ∧ Stage.Divided more (s.runDue t).1 (r.runDue t).1 ∧
      Firing.Divided more (s.runDue t).2 (r.runDue t).2 := by
  induction s using PlainStage.runDue_induction t generalizing r divisions with
  | idle s hidle =>
    have hidle' : r.popDue t = none := by
      refine popDue_eq_none_iff.mpr fun v vs hvs => ?_
      obtain ⟨u, hu, hdue⟩ := h.timers.exists_due (v := v) (by rw [hvs]; exact List.mem_cons_self)
      rw [hdue]
      exact timely.not_due hidle hu
    rw [PlainStage.runDue_of_idle hidle, PlainStage.runDue_of_idle hidle']
    exact ⟨divisions, List.Subset.refl _, h, .nil⟩
  | next s u s' popped ih =>
    have htimely := PlainStage.timely_startTimer timely popped
    obtain ⟨us, hus, hdue, rfl⟩ := popDue_eq_some_iff.mp popped
    obtain ⟨vs, ws, hws, timer, hrest⟩ := Timer.DividedAll.of_cons (hus ▸ h.timers)
    obtain ⟨v, vs', rfl⟩ := timer.exists_cons
    have hqueue : Stage.Divided divisions { s with timers := us } { r with timers := ws } :=
      { h with timers := hrest }
    have hclock := (hqueue.moveClock u.due).sync
    -- The second clock stops at the moment of the job, where the parts start in a row.
    have hrow := PlainStage.runDue_of_row (h.timely timely) hdue hws timer.due
    obtain ⟨more, hsub, hstart, hfired⟩ := hclock.start timer
    obtain ⟨more', hsub', hend, hfired'⟩ := ih hstart htimely
    rw [PlainStage.runDue_of_popDue popped, hrow]
    exact ⟨more', List.Subset.trans hsub hsub', hend, (hfired.mono hsub').append hfired'⟩

/-- Both clocks may be moved to a moment. -/
theorem advanceTo (h : Stage.Divided divisions s r) (timely : s.Timely) (t : α) :
    ∃ more, Stage.Divided more (s.advanceTo t).1 (r.advanceTo t).1 ∧
      (doneCount (s.advanceTo t).2 = 0 ↔ doneCount (r.advanceTo t).2 = 0) := by
  obtain ⟨more, -, hrun, hfired⟩ := h.runDue timely t
  obtain ⟨ds, hds, hs, hr⟩ := hfired.refused
  refine ⟨more, ?_, hfired.done⟩
  rw [PlainStage.advanceTo_eq, PlainStage.advanceTo_eq, hs, hr]
  exact ((hrun.moveClock t).requeue hds).sync

/-- Both stages may be settled: as long as something is done on one, something is on the other. -/
theorem settle (h : Stage.Divided divisions s r) (timely : s.Timely) :
    ∃ more, Stage.Divided more s.settle.1 r.settle.1 := by
  -- At each due time either both stages get something done or neither does, so both go on or stop.
  induction s using PlainStage.settle_induction generalizing r divisions with
  | empty s hempty =>
    have hempty' : r.timers = [] := by
      have htimers := h.timers
      rw [hempty] at htimers
      cases htimers' : r.timers with
      | nil => rfl
      | cons v vs =>
        have hv : v ∈ r.timers := htimers' ▸ List.mem_cons_self
        obtain ⟨u, hu, -⟩ := htimers.exists_due hv
        cases hu
    rw [PlainStage.settle_of_empty hempty, PlainStage.settle_of_empty hempty']
    exact ⟨divisions, h⟩
  | stuck s u us hus hdone =>
    obtain ⟨v, vs, hvs, hdue⟩ := h.exists_first hus
    obtain ⟨more, hmore, hsame⟩ := h.advanceTo timely u.due
    rw [PlainStage.settle_of_stuck hus hdone,
      PlainStage.settle_of_stuck hvs (hdue ▸ hsame.mp hdone), hdue]
    exact ⟨more, hmore⟩
  | done s u us hus hdone ih =>
    obtain ⟨v, vs, hvs, hdue⟩ := h.exists_first hus
    obtain ⟨more, hmore, hsame⟩ := h.advanceTo timely u.due
    rw [PlainStage.settle_of_done hus hdone,
      PlainStage.settle_of_done hvs (hdue ▸ mt hsame.mpr hdone), hdue]
    exact ih hmore (PlainStage.timely_advanceTo timely u.due)

/-! ## §6 Programs -/

/-- Every operation but an interruption keeps the stages together. -/
theorem operation (h : Stage.Divided divisions s r) (timely : s.Timely) {op : Operation α}
    (calm : ∀ n, op ≠ .interrupt n) : ∃ more, Stage.Divided more (op.perform s) (op.perform r) := by
  -- An interruption is left out: it would take one part away and leave the other.
  cases op with
  | motion id intents o =>
    simp only [Operation.perform, Stage.motion]
    split
    · exact ⟨divisions, h.enqueue _ .deferred⟩
    · obtain ⟨more, -, hmore⟩ := h.perform id intents o.repaired.duration o.repaired.easing
      exact ⟨more, hmore⟩
  | schedule id intents o => exact ⟨divisions, h.enqueue o.delay .deferred⟩
  | animate id a =>
    obtain ⟨more, -, hmore⟩ := h.animate id a
    exact ⟨more, hmore⟩
  | advance dt =>
    have hmoment : r.ahead dt = s.ahead dt := congrArg (· + Scalar.larger dt 0.0) h.now.symm
    obtain ⟨more, hmore, -⟩ := h.advanceTo timely (s.ahead dt)
    refine ⟨more, ?_⟩
    rw [Operation.perform, Operation.perform, PlainStage.advance, PlainStage.advance, hmoment]
    exact hmore
  | advanceTo t =>
    obtain ⟨more, hmore, -⟩ := h.advanceTo timely t
    exact ⟨more, hmore⟩
  | settle => exact h.settle timely
  | interrupt n => exact absurd rfl (calm n)
  | watch id => exact ⟨divisions, (h.follow id).sync⟩
  | hold id hold => exact ⟨divisions, h.setHold id hold⟩
  | drop id => exact ⟨divisions, h.dropLayer id⟩

theorem run (h : Stage.Divided divisions s r) (timely : s.Timely) {ops : List (Operation α)}
    (calm : ∀ n, Operation.interrupt n ∉ ops) :
    ∃ more, Stage.Divided more (s.run ops) (r.run ops) := by
  induction ops generalizing s r divisions with
  | nil => exact ⟨divisions, h⟩
  | cons op ops ih =>
    have hfirst : ∀ n, op ≠ .interrupt n := fun n hop => calm n (hop ▸ List.mem_cons_self)
    obtain ⟨more, hmore⟩ := h.operation timely hfirst
    exact ih hmore (timely.transitions (PlainStage.transitions_perform op s 0))
      fun n hn => calm n (List.mem_cons_of_mem op hn)

/-- A motion on one stage, and on the other one two that split it. -/
theorem motion_parts (h : Stage.Divided divisions s r) (id : LayerId)
    {zs first second : List (Intent α)} (splits : Intent.Splits zs first second) (o : Options α) :
    ∃ more, Stage.Divided more (s.motion id zs o).1
      ((r.motion id first o).1.motion id second o).1 := by
  simp only [Stage.motion]
  split
  · exact ⟨divisions, h.enqueue o.repaired.delay (.split splits)⟩
  · obtain ⟨more, -, hmore⟩ := h.perform_parts id splits o.repaired.duration o.repaired.easing
    exact ⟨more, hmore⟩

end Stage.Divided

/-- Every completion that waits has a number that was drawn. -/
theorem Course.id_lt_nextId [Scalar α] {desk : σ} {es : List (Event α κ)} {x : Scene α κ σ}
    (h : Course (.opening desk) es x) {c : Completion α} (waiting : c ∈ x.stage.waiting) :
    c.id < x.stage.nextId := by
  refine h.numbered.drawn c (Multiset.mem_add.mpr (.inl ?_))
  rw [h.registeredIn_eq]
  exact Multiset.mem_add.mpr (.inl (Multiset.mem_add.mpr (.inl waiting)))

namespace PlainStage

/-- Intents that have no attribute in common may be grouped at will.  Whether two lists of them are
issued as one motion or as two, and in which order, with the same options and at the same moment,
cannot be seen of any layer afterwards: whatever is done later, short of an interruption, it has the
same values, the same running tracks but for their numbers, the same clock, and shows the same. -/
theorem view?_motion_append {es : List (Event Float Empty)} {x : Scene Float Empty Unit}
    (h : Course (.opening ()) es x) (id : LayerId) (o : Options Float)
    {xs ys : List (Intent Float)} (apart : ∀ i ∈ xs, ∀ j ∈ ys, i.key ≠ j.key)
    {ops : List (Operation Float)} (calm : ∀ n, Operation.interrupt n ∉ ops) (b : LayerId) :
    let together := (x.stage.motion id (xs ++ ys) o).1
    let inOrder := ((x.stage.motion id xs o).1.motion id ys o).1
    let reversed := ((x.stage.motion id ys o).1.motion id xs o).1
    (run inOrder ops).view? b = (run together ops).view? b ∧
      (run reversed ops).view? b = (run together ops).view? b := by
  -- Either way of two motions is related to the way of one, and whatever comes keeps the relation.
  have hrefl := Stage.Divided.refl x.stage fun c hc => h.id_lt_nextId hc
  have htimely : (x.stage.motion id (xs ++ ys) o).1.Timely :=
    h.underway.toTimely.transitions
      (transitions_perform (.motion id (xs ++ ys) o) x.stage 0)
  have hapart : ∀ j ∈ ys, ∀ i ∈ xs, j.key ≠ i.key := fun j hj i hi => (apart i hi j hj).symm
  obtain ⟨_, hparts⟩ := hrefl.motion_parts id ⟨.inl rfl, apart⟩ o
  obtain ⟨_, hparts'⟩ := hrefl.motion_parts id ⟨.inr rfl, hapart⟩ o
  obtain ⟨_, hrun⟩ := hparts.run htimely calm
  obtain ⟨_, hrun'⟩ := hparts'.run htimely calm
  exact ⟨(hrun.view?_eq b).symm, (hrun'.view?_eq b).symm⟩

/-- A stage with a layer that fades, and that will grow. -/
def fadingThenGrowing : PlainStage Float :=
  (((Stage.empty ()).addLayer (.ofValues .empty)).1.motion 0 [.fade 0.0]
    { Options.standard with duration := 0.2 }).1.motion 0 [.scale 2.0]
      { Options.standard with delay := 0.1 } |>.1

/-- What is done later: the layer is stretched another way, while the motions are underway. -/
def stretchAgain : List (Operation Float) :=
  [.advance 0.15, .motion 0 [.scaleX 1.5] Options.standard, .advanceTo 0.5]

/-- With two motions in place of one there are five animations in all instead of four; the layer is
the same. -/
theorem view?_motion_append_stretchAgain :
    let o : Options Float := { Options.standard with delay := 0.05 }
    let xs : List (Intent Float) := [.fade 0.5, .scaleX 3.0]
    let ys : List (Intent Float) := [.rotate 90.0]
    let together := run (fadingThenGrowing.motion 0 (xs ++ ys) o).1 stretchAgain
    let inOrder := run ((fadingThenGrowing.motion 0 xs o).1.motion 0 ys o).1 stretchAgain
    let reversed := run ((fadingThenGrowing.motion 0 ys o).1.motion 0 xs o).1 stretchAgain
    (∃ es, Course (.opening ()) es (⟨fadingThenGrowing, .caller, [], 0⟩ : Scene Float Empty Unit)) ∧
    (∀ i ∈ xs, ∀ j ∈ ys, i.key ≠ j.key) ∧ (∀ n, Operation.interrupt n ∉ stretchAgain) ∧
    inOrder.view? 0 = together.view? 0 ∧ reversed.view? 0 = together.view? 0 ∧
    (together.nextId, inOrder.nextId) = (5, 6) ∧
    ((together.view? 0).map (fun seen => (seen.2.get? .opacity, seen.2.get? .scaleX))
      == some (some (.scalar 0.5), some (.scalar 1.5))) = true := by
  have hadd : Stage.Leads (fun _ => 0) (Stage.empty () : PlainStage Float) []
      ((Stage.empty ()).addLayer (.ofValues .empty)).1 :=
    Stage.leads_rearrange rfl rfl rfl rfl rfl
  have hfade := hadd.trans (Stage.leads_motion 0 [.fade 0.0]
    { Options.standard with duration := 0.2 })
  have hgrow := hfade.trans (Stage.leads_motion 0 [.scale 2.0]
    { Options.standard with delay := 0.1 })
  obtain ⟨es, hcourse, -⟩ := hgrow []
  have hapart : ∀ i ∈ ([.fade 0.5, .scaleX 3.0] : List (Intent Float)),
      ∀ j ∈ ([.rotate 90.0] : List (Intent Float)), i.key ≠ j.key := by
    simp [Intent.key]
  have hcalm : ∀ n, Operation.interrupt n ∉ stretchAgain := by simp [stretchAgain]
  obtain ⟨hsame, hsame'⟩ := view?_motion_append hcourse 0 { Options.standard with delay := 0.05 }
    hapart hcalm 0
  exact ⟨⟨es, hcourse⟩, hapart, hcalm, hsame, hsame', by decide +kernel, by decide +kernel⟩

end PlainStage

end LayerAnimation
