import LayerAnimation.Proofs.Queue

/-!
# Relations along the loops of the clock

The clock runs two loops around callers.  An advance starts the due jobs one by one and then arrives;
settling makes one advance after the other.  A job that is started may be a caller again.

What one wants to know about this differs: which events come of it, or which layers were tended to
meanwhile.  The way through the loops does not.  So it is gone once, for any two relations that keep
account of what callers do and of what an advance does before it arrives.

- `Stage.ClockClosed` says that two relations are closed under everything of which the loops are made.
- `Stage.ClockClosed.startDue`, `Stage.ClockClosed.advanceWithin` and
  `Stage.ClockClosed.settleWithin`: then they hold of the loops themselves, if fuel and load allow.
-/

namespace LayerAnimation

variable {α κ σ ρ : Type}

/-- The job of a report, and the jobs that its record tells of. -/
def Firing.starts (inner : ρ → List (α × Nat)) (f : Firing α ρ) : List (α × Nat) :=
  (f.due, f.seq) :: (f.record?.elim [] inner)

namespace Stage

variable [Scalar α]

/-! ## §1 What the loops are made of -/

/-- One relation holds of what a caller does from a stage to another, and one of what an advance to a
moment does before it arrives.  Both tell which jobs are started, by their due times and
registrations, and the second one which completions are refused. -/
structure ClockClosed (acts : Stage α κ σ → List (α × Nat) → Stage α κ σ → Prop)
    (runs : α → Stage α κ σ → List (α × Nat) → List (Completion α) → Stage α κ σ → Prop) :
    Prop where
  /-- A caller need not do anything. -/
  rest (s : Stage α κ σ) : acts s [] s
  /-- A caller may go on. -/
  trans {s s' s'' : Stage α κ σ} {l l' : List (α × Nat)} (first : acts s l s')
    (others : acts s' l' s'') : acts s (l ++ l') s''
  /-- A caller may make a motion. -/
  perform (s : Stage α κ σ) (id : LayerId) (intents : List (Intent α)) (duration : α)
    (easing : Easing α) : acts s [] (s.perform id intents duration easing).1
  /-- An advance need not start anything. -/
  stay (t : α) (s : Stage α κ σ) : runs t s [] [] s
  /-- An advance may go on. -/
  append {t : α} {s s' s'' : Stage α κ σ} {l l' : List (α × Nat)} {cs cs' : List (Completion α)}
    (first : runs t s l cs s') (others : runs t s' l' cs' s'') :
    runs t s (l ++ l') (cs ++ cs') s''
  /-- A task that is started is a caller. -/
  task {t : α} {s r s' : Stage α κ σ} {u : Timer α κ} {l : List (α × Nat)}
    (popped : s.popDue t = some (u, r)) (isTask : u.completion? = none)
    (acted : acts (r.moveClock u.due).sync l s') : runs t s ((u.due, u.seq) :: l) [] s'
  /-- A completion that is started is over. -/
  commit {t : α} {s r s' : Stage α κ σ} {u : Timer α κ} {c : Completion α} {n : Nat}
    (popped : s.popDue t = some (u, r)) (isCompletion : u.completion? = some c)
    (fired : (r.moveClock u.due).sync.fire c .finished = (s', .ok n)) :
    runs t s [(u.due, u.seq)] [] s'
  /-- A completion that is started is refused. -/
  refuse {t : α} {s r s' : Stage α κ σ} {u : Timer α κ} {c : Completion α}
    (popped : s.popDue t = some (u, r)) (isCompletion : u.completion? = some c)
    (fired : (r.moveClock u.due).sync.fire c .finished = (s', .error c)) :
    runs t s [(u.due, u.seq)] [c] s'
  /-- An advance that has nothing left to start arrives, and is a deed of its caller. -/
  arrive {t : α} {s s' : Stage α κ σ} {l : List (α × Nat)} {cs : List (Completion α)}
    (run : runs t s l cs s') (idle : s'.popDue t = none) :
    acts s l ((s'.moveClock t).requeue cs).sync

namespace ClockClosed

variable {acts : Stage α κ σ → List (α × Nat) → Stage α κ σ → Prop}
  {runs : α → Stage α κ σ → List (α × Nat) → List (Completion α) → Stage α κ σ → Prop}
  {exec : κ → Stage α κ σ → Stage α κ σ × ρ} {cost : κ → Nat} {bound : Nat}
  (h : ClockClosed acts runs) (inner : ρ → List (α × Nat))
  -- Routines are callers, as long as they weigh no more than a bound together with what waits.
  (hexec : ∀ k s, cost k + s.load cost ≤ bound → acts s (inner (exec k s).2) (exec k s).1)

include h hexec

/-! ## §2 The loops -/

/-- The first due job. -/
theorem start {s r : Stage α κ σ} {t : α} {u : Timer α κ} (popped : s.popDue t = some (u, r))
    (enough : s.load cost ≤ bound) :
    let started := Stage.start exec u.job (r.moveClock u.due).sync
    let firing : Firing α ρ := ⟨u.due, u.seq, started.2⟩
    runs t s (firing.starts inner) firing.refused?.toList started.1 := by
  have hload : u.job.load cost + (r.moveClock u.due).sync.load cost ≤ bound := by
    rwa [show (r.moveClock u.due).sync.load cost = r.load cost from rfl, ← load_popDue cost popped]
  obtain ⟨due, seq, job⟩ := u
  cases job with
  | completion c =>
    simp only [Stage.start]
    split
    · next s' n fired => exact h.commit popped rfl fired
    · next s' d fired =>
      -- What is handed back is the completion itself.
      obtain ⟨-, rfl⟩ := fire_of_error fired
      exact h.refuse popped rfl fired
  | deferred d => exact h.task popped rfl (h.perform _ d.layer d.intents d.duration d.easing)
  | routine k => exact h.task popped rfl (hexec k _ hload)

/-- The due jobs, one after the other. -/
theorem startDue (hcost : KeepsCost exec cost) (t : α) (fuel : Nat) (s : Stage α κ σ)
    (enough : s.load cost ≤ bound) :
    runs t s ((Stage.startDue exec t fuel s).2.flatMap (Firing.starts inner))
      ((Stage.startDue exec t fuel s).2.filterMap Firing.refused?)
      (Stage.startDue exec t fuel s).1 := by
  induction fuel generalizing s with
  | zero => exact h.stay t s
  | succ fuel ih =>
    unfold Stage.startDue
    cases popped : s.popDue t with
    | none => exact h.stay t s
    | some first =>
      obtain ⟨u, r⟩ := first
      have hstart := h.start inner hexec popped enough
      -- The job leaves less than it weighed, so the bound holds for the others too.
      have hpop := load_popDue cost popped
      have hfall := hcost.load_start u.job (r.moveClock u.due).sync
      have hsync : (r.moveClock u.due).sync.load cost = r.load cost := rfl
      have hothers := ih (Stage.start exec u.job (r.moveClock u.due).sync).1 (by omega)
      have hall := h.append hstart hothers
      -- A job that was refused stands at the head of the refused ones.
      simp only [List.flatMap_cons, List.filterMap_cons]
      cases hrefused : Firing.refused? ⟨u.due, u.seq,
        (Stage.start exec u.job (r.moveClock u.due).sync).2⟩ <;> simpa [hrefused] using hall

/-- An advance: with enough fuel no due job is left, so it arrives. -/
theorem advanceWithin (hcost : KeepsCost exec cost) (t : α) {fuel : Nat} {s : Stage α κ σ}
    (enough : s.load cost ≤ bound) (hfuel : s.load cost ≤ fuel) :
    acts s ((Stage.advanceWithin exec fuel t s).2.flatMap (Firing.starts inner))
      (Stage.advanceWithin exec fuel t s).1 :=
  h.arrive (h.startDue inner hexec hcost t fuel s enough) (hcost.popDue_startDue t fuel s hfuel)

/-- Settling: one advance after the other, each of which leaves no more load than it found. -/
theorem settleWithin (hcost : KeepsCost exec cost) {fuel : Nat} (rounds : Nat)
    {s : Stage α κ σ} (enough : s.load cost ≤ bound) (hfuel : s.load cost ≤ fuel) :
    acts s ((Stage.settleWithin exec fuel rounds s).2.flatMap (Firing.starts inner))
      (Stage.settleWithin exec fuel rounds s).1 := by
  induction rounds generalizing s with
  | zero => exact h.rest s
  | succ rounds ih =>
    unfold Stage.settleWithin
    cases s.timers with
    | nil => exact h.rest s
    | cons u us =>
      have hadvance := h.advanceWithin inner hexec hcost u.due enough hfuel
      have hfall := hcost.load_advanceWithin fuel u.due s
      dsimp only
      split
      · exact hadvance
      · rw [List.flatMap_append]
        exact h.trans hadvance (ih (by omega) (by omega))

end ClockClosed

end Stage

end LayerAnimation
