import LayerAnimation.Proofs.Transitions

/-!
# Time on a stage

What the clock needs to know about numbers, and what it makes of them.

- `LawfulTime` lists the laws: numbers other than a not-a-number are ordered totally, and time added
  to a moment does not lead back.  None of them says anything about the size of a sum, so rounding
  does no harm.
- `Stage.Timely` is the invariant: the clock is not before zero, the queue is sorted, and nothing
  that waits is already past.  Every transition keeps it.
-/

namespace LayerAnimation

variable {α κ σ : Type}

/-! ## §1 Laws of time -/

/-- The laws of numbers on which a clock relies.  A number is *proper* if it is at most itself;
a not-a-number is not. -/
class LawfulTime (α : Type) [Scalar α] : Prop where
  le_left {a b : α} : a ≤ b → a ≤ a
  le_right {a b : α} : a ≤ b → b ≤ b
  le_trans {a b c : α} : a ≤ b → b ≤ c → a ≤ c
  le_total {a b : α} : a ≤ a → b ≤ b → a ≤ b ∨ b ≤ a
  lt_iff {a b : α} : a < b ↔ a ≤ b ∧ ¬ b ≤ a
  beq_self_iff {a : α} : (a == a) = true ↔ a ≤ a
  zero_le_zero : (0.0 : α) ≤ 0.0
  isFinite_zero : Scalar.isFinite (0.0 : α) = true
  le_self_of_isFinite {a : α} : Scalar.isFinite a = true → a ≤ a
  /-- Time that is added to a moment does not lead back. -/
  le_add {a d : α} : 0.0 ≤ a → Scalar.isFinite d = true → 0.0 ≤ d → a ≤ a + d
  add_zero_le {a : α} : 0.0 ≤ a → a + 0.0 ≤ a

namespace LawfulTime

variable [Scalar α] [LawfulTime α] {a b c : α}

theorem le_of_not_le (ha : a ≤ a) (hb : b ≤ b) (h : ¬ a ≤ b) : b ≤ a :=
  (le_total ha hb).resolve_left h

theorem le_of_not_lt (ha : a ≤ a) (hb : b ≤ b) (h : ¬ a < b) : b ≤ a := by
  rcases le_total ha hb with hab | hba
  · by_contra hba
    exact h (lt_iff.mpr ⟨hab, hba⟩)
  · exact hba

theorem le_of_lt (h : a < b) : a ≤ b :=
  (lt_iff.mp h).1

theorem lt_of_lt_of_le (hab : a < b) (hbc : b ≤ c) : a < c :=
  lt_iff.mpr ⟨le_trans (le_of_lt hab) hbc, fun hca => (lt_iff.mp hab).2 (le_trans hbc hca)⟩

/-- Of two moments in order the later one is the larger one. -/
theorem larger_of_le (h : a ≤ b) : Scalar.larger a b = b := by
  have hlt : ¬ b < a := fun hba => (lt_iff.mp hba).2 h
  have hbeq : (b == b) = true := beq_self_iff.mpr (le_right h)
  simp only [Scalar.larger, hlt, hbeq, ↓reduceIte]

/-- A moment that does not lie behind another one, not even a proper one, gives way to it. -/
theorem larger_of_not_le (ha : a ≤ a) (h : ¬ a ≤ b) : Scalar.larger a b = a := by
  unfold Scalar.larger
  split
  · rfl
  · next hlt =>
    split
    · next hbeq => exact absurd (le_of_not_lt (beq_self_iff.mp hbeq) ha hlt) h
    · rfl

/-- A clock never moves back, whatever it is moved to. -/
theorem le_larger (ha : a ≤ a) (b : α) : a ≤ Scalar.larger a b := by
  by_cases h : a ≤ b
  · rwa [larger_of_le h]
  · rwa [larger_of_not_le ha h]

/-- Of three moments in order the one in the middle does not matter. -/
theorem larger_larger (ha : a ≤ a) (h : b ≤ c) :
    Scalar.larger (Scalar.larger a b) c = Scalar.larger a c := by
  -- The middle one is reached and passed, or it does not reach the first one.
  by_cases hab : a ≤ b
  · rw [larger_of_le hab, larger_of_le h, larger_of_le (le_trans hab h)]
  · rw [larger_of_not_le ha hab]

/-- Of any number and zero the larger one is not negative. -/
theorem zero_le_larger_zero (d : α) : 0.0 ≤ Scalar.larger d 0.0 := by
  by_cases hle : d ≤ (0.0 : α)
  · rw [larger_of_le hle]
    exact zero_le_zero
  · by_cases hproper : d ≤ d
    · rw [larger_of_not_le hproper hle]
      exact le_of_not_le hproper zero_le_zero hle
    · -- A not-a-number gives way.
      have hlt : ¬ (0.0 : α) < d := fun h => hproper (le_right (le_of_lt h))
      rw [Scalar.larger, if_neg hlt, if_pos (beq_self_iff.mpr zero_le_zero)]
      exact zero_le_zero

end LawfulTime

open LawfulTime

namespace Stage

section Wait

variable [Scalar α] [LawfulTime α] {after : α}

/-- Whatever wait is asked for, no one waits forever. -/
theorem isFinite_wait (after : α) : Scalar.isFinite (wait after) = true := by
  unfold wait
  split
  · next h =>
    by_cases hle : after ≤ (0.0 : α)
    · rw [larger_of_le hle]
      exact isFinite_zero
    · rwa [larger_of_not_le (le_self_of_isFinite h) hle]
  · exact isFinite_zero

/-- Nor does anyone wait for a negative time. -/
theorem zero_le_wait (after : α) : 0.0 ≤ wait after := by
  unfold wait
  split
  · next h =>
    have hafter := le_self_of_isFinite h
    by_cases hle : after ≤ (0.0 : α)
    · rw [larger_of_le hle]
      exact zero_le_zero
    · rw [larger_of_not_le hafter hle]
      exact le_of_not_le hafter zero_le_zero hle
  · exact zero_le_zero

theorem wait_zero : wait (0.0 : α) = 0.0 := by
  unfold wait
  rw [if_pos isFinite_zero]
  exact larger_of_le zero_le_zero

end Wait

/-! ## §2 The invariant -/

/-- The clock stands at a moment from zero on, and jobs wait in their order for moments from the
clock on. -/
structure Timely [Scalar α] (s : Stage α κ σ) : Prop where
  clock : 0.0 ≤ s.now
  ahead : ∀ u ∈ s.timers, s.now ≤ u.due
  sorted : s.timers.Pairwise fun u v => u.due ≤ v.due

/-- Jobs may leave the queue while the clock stands still. -/
theorem Timely.mono [Scalar α] {s s' : Stage α κ σ} (h : s.Timely) (now : s'.now = s.now)
    (timers : s'.timers.Sublist s.timers) : s'.Timely where
  clock := by
    rw [now]
    exact h.clock
  ahead := by
    intro u hu
    rw [now]
    exact h.ahead u (timers.subset hu)
  sorted := h.sorted.sublist timers

theorem now_follow (s : Stage α κ σ) (id : LayerId) : (s.follow id).now = s.now := by
  unfold follow
  split <;> rfl

theorem now_fire (s : Stage α κ σ) (c : Completion α) (ending : Ending) :
    (s.fire c ending).1.now = s.now := by
  unfold fire
  split
  · rfl
  · split <;> rfl

theorem now_perform [Scalar α] (s : Stage α κ σ) (id : LayerId) (intents : List (Intent α))
    (duration : α) (easing : Easing α) : (s.perform id intents duration easing).1.now = s.now := by
  unfold perform animate attach
  cases s.readable? id with
  | none => rfl
  | some l =>
    cases s.writable? id with
    | none => rfl
    | some l => exact now_follow _ _

theorem now_requeue [Scalar α] (s : Stage α κ σ) (cs : List (Completion α)) :
    (s.requeue cs).now = s.now := by
  obtain ⟨seq, timers, h⟩ := exists_requeue_eq s cs
  rw [h]

theorem Timely.follow [Scalar α] {s : Stage α κ σ} (h : s.Timely) (id : LayerId) :
    (s.follow id).Timely :=
  h.mono (now_follow s id) (by rw [timers_follow])

/-- A commit touches neither the clock nor the queue. -/
theorem Timely.commit [Scalar α] {s s' : Stage α κ σ} (h : s.Timely) {c : Completion α}
    {ending : Ending} {n : Nat} (fired : s.fire c ending = (s', .ok n)) : s'.Timely := by
  have hnow := now_fire s c ending
  have htimers := timers_fire s c ending
  rw [fired] at hnow htimers
  exact h.mono hnow (by rw [htimers])

end Stage

/-- Inserting a timer adds that timer and loses none. -/
theorem Timer.mem_insert [Scalar α] {t u : Timer α κ} {us : List (Timer α κ)} :
    u ∈ t.insert us ↔ u = t ∨ u ∈ us := by
  induction us with
  | nil => simp [Timer.insert]
  | cons v vs ih =>
    unfold Timer.insert
    split
    · simp
    · rw [List.mem_cons, ih, List.mem_cons]
      exact or_left_comm

variable [Scalar α] [LawfulTime α]

/-- A sorted queue stays sorted, since a timer goes in where it belongs. -/
theorem Timer.pairwise_insert {t : Timer α κ} {us : List (Timer α κ)}
    (sorted : us.Pairwise fun u v => u.due ≤ v.due) (proper : t.due ≤ t.due)
    (others : ∀ u ∈ us, u.due ≤ u.due) :
    (t.insert us).Pairwise fun u v => u.due ≤ v.due := by
  induction us with
  | nil => exact List.pairwise_singleton _ t
  | cons u us ih =>
    obtain ⟨hfirst, hrest⟩ := List.pairwise_cons.mp sorted
    unfold Timer.insert
    split
    · next hlt =>
      -- The new timer goes in front, so everything behind it is due later.
      have htu := le_of_lt hlt
      refine List.pairwise_cons.mpr ⟨fun v hv => ?_, sorted⟩
      rcases List.mem_cons.mp hv with rfl | hv
      · exact htu
      · exact le_trans htu (hfirst v hv)
    · next hlt =>
      have hut := le_of_not_lt proper (others u List.mem_cons_self) hlt
      refine List.pairwise_cons.mpr
        ⟨fun v hv => ?_, ih hrest (fun v hv => others v (List.mem_cons_of_mem u hv))⟩
      -- Behind a timer that is due no later stand the others and the new one.
      rcases Timer.mem_insert.mp hv with rfl | hv
      · exact hut
      · exact hfirst v hv

namespace Stage

variable {s s' : Stage α κ σ}

theorem Timely.le_now (h : s.Timely) : s.now ≤ s.now :=
  le_right h.clock

theorem Timely.proper (h : s.Timely) {u : Timer α κ} (hu : u ∈ s.timers) : u.due ≤ u.due :=
  le_right (h.ahead u hu)

/-- No wait ends in the past. -/
theorem Timely.le_add_wait (h : s.Timely) (after : α) : s.now ≤ s.now + wait after :=
  le_add h.clock (isFinite_wait after) (zero_le_wait after)

/-- A job may be put into the queue, whatever it is to wait for. -/
theorem Timely.enqueue (h : s.Timely) (after : α) (job : Job α κ) :
    (s.enqueue after job).Timely where
  clock := h.clock
  ahead := by
    intro u hu
    rcases Timer.mem_insert.mp hu with rfl | hu
    · exact h.le_add_wait after
    · exact h.ahead u hu
  sorted := Timer.pairwise_insert h.sorted (le_right (h.le_add_wait after)) (fun _ => h.proper)

/-- The clock may move to any moment up to which nothing waits. -/
theorem Timely.moveClock (h : s.Timely) {t : α} (idle : ∀ u ∈ s.timers, t ≤ t → t ≤ u.due) :
    (s.moveClock t).Timely where
  clock := le_trans h.clock (le_larger h.le_now t)
  ahead := by
    intro u hu
    -- The clock comes to stand at the moment, or stays where it is.
    show Scalar.larger s.now t ≤ u.due
    by_cases hle : s.now ≤ t
    · rw [larger_of_le hle]
      exact idle u hu (le_right hle)
    · rw [larger_of_not_le h.le_now hle]
      exact h.ahead u hu
  sorted := h.sorted

/-- Where the first job is not due none is. -/
theorem Timely.not_due (h : s.Timely) {t : α} (idle : s.popDue t = none) {u : Timer α κ}
    (hu : u ∈ s.timers) : ¬ u.due ≤ t := by
  have hfirst := popDue_eq_none_iff.mp idle
  have hsorted := h.sorted
  cases ht : s.timers with
  | nil =>
    rw [ht] at hu
    cases hu
  | cons v vs =>
    rw [ht] at hu hsorted
    intro hdue
    -- The first job of a sorted queue is due as soon as any job is.
    refine hfirst v vs ht ?_
    rcases List.mem_cons.mp hu with rfl | hmem
    · exact hdue
    · exact le_trans ((List.pairwise_cons.mp hsorted).1 u hmem) hdue

/-- The first job is due at the clock or later, and the clock comes to stand at its due time. -/
theorem Timely.now_of_popDue (h : s.Timely) {r : Stage α κ σ} {t : α} {u : Timer α κ}
    (popped : s.popDue t = some (u, r)) : (r.moveClock u.due).now = u.due := by
  have hahead := h.ahead u (mem_of_popDue popped)
  obtain ⟨us, -, -, rfl⟩ := popDue_eq_some_iff.mp popped
  exact larger_of_le hahead

/-- The first job may be taken: the clock comes up to it, and the others are due no earlier. -/
theorem Timely.take (h : s.Timely) {r : Stage α κ σ} {t : α} {u : Timer α κ}
    (popped : s.popDue t = some (u, r)) : (r.moveClock u.due).Timely := by
  obtain ⟨us, hus, -, rfl⟩ := popDue_eq_some_iff.mp popped
  have hsorted := h.sorted
  rw [hus, List.pairwise_cons] at hsorted
  have hrest : Timely { s with timers := us } :=
    h.mono rfl (by rw [hus]; exact List.sublist_cons_self u us)
  exact hrest.moveClock (fun v hv _ => hsorted.1 v hv)

/-- Every transition keeps the time. -/
theorem Timely.transition {hand hand' : Multiset (Completion α)} {c : Option (Completion α)}
    (h : s.Timely) (t : Transition s hand c s' hand') : s'.Timely := by
  cases t with
  | arrive idle =>
    exact h.moveClock (fun u hu ht => le_of_not_le (h.proper hu) ht (h.not_due idle hu))
  | sync | hold | drop | draw => exact h.mono rfl (List.Sublist.refl _)
  | follow => exact h.follow _
  | attach a writable =>
    have hset : ∀ id l, (s.drawId.setLayer id l).Timely :=
      fun _ _ => h.mono rfl (List.Sublist.refl _)
    exact ((hset _ _).follow _).enqueue _ _
  | putOff => exact h.enqueue _ _
  | take popped => exact h.take popped
  | withdraw found isCompletion => exact h.mono rfl List.eraseP_sublist
  | commit fired => exact h.commit fired
  | requeue => exact h.enqueue _ _

/-- So does every run. -/
theorem Timely.transitions {hand hand' : Multiset (Completion α)} {cs : List (Completion α)}
    (h : s.Timely) (run : Transitions s hand cs s' hand') : s'.Timely := by
  induction run with
  | refl => exact h
  | tail _ last ih => exact ih.transition last

end Stage

end LayerAnimation
