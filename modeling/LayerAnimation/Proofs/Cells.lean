import LayerAnimation.Stage.Clock

/-!
# Cells after an operation

What each operation of a stage does to a cell, as one equation through the lookup `Stage.cell?`.
Everything that is proved about layers on a stage rests on these equations; no later proof opens the
list of cells.

- `Stage.cell?_modifyCell` is the general equation; replacing a layer is a case of it.
- `Stage.cell?_sync` says which clocks a synchronisation moves.
- Registering jobs, moving the clock and following layers leave all cells alone.
- `Stage.KeepsLayers` relates stages between which no layer changed its values or running tracks.
- `Stage.hold?` says who is using a layer; neither commits nor attachments change it.
-/

namespace LayerAnimation

variable {α κ σ : Type}

/-! ## §1 Holds -/

/-- Only where nobody uses a layer it can be written. -/
theorem Hold.admitsWriter_iff {h : Hold} : h.admitsWriter = true ↔ h = .free := by
  cases h <;> simp [Hold.admitsWriter]

namespace Cell

@[simp] theorem hold_sync (c : Cell α) (now : α) : (c.sync now).hold = c.hold := by
  unfold sync
  split <;> simp_all

/-- A layer that is free takes over the time. -/
theorem sync_of_free {c : Cell α} (h : c.hold = .free) (now : α) :
    c.sync now = { c with layer := c.layer.sync now } := by
  simp only [sync, h]

/-- A layer in use goes on showing the time that it showed. -/
theorem sync_of_held {c : Cell α} (h : c.hold ≠ .free) (now : α) : c.sync now = c := by
  unfold sync
  split
  · contradiction
  · rfl

@[simp] theorem values_sync (c : Cell α) (now : α) :
    (c.sync now).layer.values = c.layer.values := by
  unfold sync
  split <;> rfl

@[simp] theorem playing_sync (c : Cell α) (now : α) :
    (c.sync now).layer.playing = c.layer.playing := by
  unfold sync
  split <;> rfl

/-- Of two synchronisations only the second one can be seen. -/
@[simp] theorem sync_sync (c : Cell α) (t u : α) : (c.sync t).sync u = c.sync u := by
  by_cases h : c.hold = .free
  · rw [sync_of_free h, sync_of_free h, sync_of_free (by exact h)]
    rfl
  · rw [sync_of_held h, sync_of_held h]

end Cell

namespace Stage

/-! ## §2 Lookups after changes of one cell -/

/-- A change of one cell is seen there and nowhere else. -/
theorem cell?_modifyCell (s : Stage α κ σ) (id j : LayerId) (f : Cell α → Option (Cell α)) :
    (s.modifyCell id f).cell? j = if id = j then (s.cell? j).bind f else s.cell? j := by
  simp only [cell?, modifyCell, List.getElem?_modify]
  by_cases h : id = j
  · subst h
    simp only [↓reduceIte, Option.map_eq_map]
    cases s.layers[id]? <;> rfl
  · simp [h]

/-- A layer that is replaced stays with those who use it, and no other cell changes. -/
theorem cell?_setLayer (s : Stage α κ σ) (id j : LayerId) (l : Layer α) :
    (s.setLayer id l).cell? j =
      if id = j then (s.cell? j).map fun c => { c with layer := l } else s.cell? j := by
  rw [setLayer, cell?_modifyCell]
  cases s.cell? j <;> rfl

/-! ## §3 Lookups after changes of the clock and the queue -/

/-- A synchronisation moves the clocks of the followed cells. -/
theorem cell?_sync (s : Stage α κ σ) (j : LayerId) :
    s.sync.cell? j = if j ∈ s.followed then (s.cell? j).map (·.sync s.now) else s.cell? j := by
  simp only [cell?, sync, List.getElem?_mapIdx]
  cases s.layers[j]? with
  | none => simp
  | some place => by_cases h : j ∈ s.followed <;> simp [h]

/-- Forgetting followers that are gone takes no layer away. -/
theorem isAlive_sync (s : Stage α κ σ) : s.sync.isAlive = s.isAlive := by
  funext id
  rw [isAlive, isAlive, cell?_sync]
  split
  · exact Option.isSome_map
  · rfl

@[simp] theorem cell?_drawId (s : Stage α κ σ) (j : LayerId) : s.drawId.cell? j = s.cell? j := rfl

@[simp] theorem cell?_follow (s : Stage α κ σ) (id j : LayerId) :
    (s.follow id).cell? j = s.cell? j := by
  unfold follow
  split <;> rfl

theorem mem_followed_follow {id : LayerId} (s : Stage α κ σ) (id' : LayerId) :
    id ∈ (s.follow id').followed ↔ id = id' ∨ id ∈ s.followed := by
  unfold follow
  split
  · next hmem =>
    constructor
    · exact .inr
    · rintro (rfl | hid)
      · exact hmem
      · exact hid
  · simp [or_comm]

@[simp] theorem nextId_follow (s : Stage α κ σ) (id : LayerId) :
    (s.follow id).nextId = s.nextId := by
  unfold follow
  split <;> rfl

@[simp] theorem cell?_moveClock [Scalar α] (s : Stage α κ σ) (t : α) (j : LayerId) :
    (s.moveClock t).cell? j = s.cell? j := rfl

@[simp] theorem cell?_enqueue [Scalar α] (s : Stage α κ σ) (after : α) (job : Job α κ)
    (j : LayerId) : (s.enqueue after job).cell? j = s.cell? j := rfl

/-! ## §4 Layers that are left alone -/

/-- The layers that are alive on the second stage have the values and the running tracks that they
have on the first one. -/
def KeepsLayers (s s' : Stage α κ σ) : Prop :=
  ∀ id cell', s'.cell? id = some cell' → ∃ cell, s.cell? id = some cell ∧
    cell'.layer.values = cell.layer.values ∧ cell'.layer.playing = cell.layer.playing

/-- Where no cell changes no layer does. -/
theorem KeepsLayers.of_cell? {s s' : Stage α κ σ} (h : s'.cell? = s.cell?) : KeepsLayers s s' := by
  intro id cell' hcell'
  rw [h] at hcell'
  exact ⟨cell', hcell', rfl, rfl⟩

theorem keepsLayers_follow (s : Stage α κ σ) (id : LayerId) : KeepsLayers s (s.follow id) :=
  .of_cell? (funext (cell?_follow s id))

/-- A synchronisation moves clocks and nothing else. -/
theorem keepsLayers_sync (s : Stage α κ σ) : KeepsLayers s s.sync := by
  intro id cell' hcell'
  rw [cell?_sync] at hcell'
  split at hcell'
  · obtain ⟨cell, hcell, rfl⟩ := Option.map_eq_some_iff.mp hcell'
    exact ⟨cell, hcell, Cell.values_sync cell _, Cell.playing_sync cell _⟩
  · exact ⟨cell', hcell', rfl, rfl⟩

/-- A change of a cell that keeps its layer or takes it away keeps all layers. -/
theorem keepsLayers_modifyCell (s : Stage α κ σ) (id : LayerId) {f : Cell α → Option (Cell α)}
    (same : ∀ cell cell', f cell = some cell' → cell'.layer = cell.layer) :
    KeepsLayers s (s.modifyCell id f) := by
  intro j cell' hcell'
  rw [cell?_modifyCell] at hcell'
  split at hcell'
  · obtain ⟨cell, hcell, hsome⟩ := Option.bind_eq_some_iff.mp hcell'
    rw [same cell cell' hsome]
    exact ⟨cell, hcell, rfl, rfl⟩
  · exact ⟨cell', hcell', rfl, rfl⟩

/-- It does not matter to a layer who uses it. -/
theorem keepsLayers_setHold (s : Stage α κ σ) (id : LayerId) (hold : Hold) :
    KeepsLayers s (s.setHold id hold) := by
  refine keepsLayers_modifyCell s id fun cell cell' hsome => ?_
  split at hsome <;> cases hsome
  rfl

/-- A layer that is given up goes as a whole, and the others stay as they are. -/
theorem keepsLayers_dropLayer (s : Stage α κ σ) (id : LayerId) :
    KeepsLayers s (s.dropLayer id) := by
  refine keepsLayers_modifyCell s id fun cell cell' hsome => ?_
  split at hsome <;> cases hsome
  rfl

/-! ## §5 Who uses a layer -/

/-- Who is using a layer that is alive. -/
def hold? (s : Stage α κ σ) (id : LayerId) : Option Hold :=
  (s.cell? id).map Cell.hold

/-- No layer is in use. -/
def Unheld (s : Stage α κ σ) : Prop :=
  ∀ id, s.hold? id = none ∨ s.hold? id = some .free

/-- Whether a layer is in use can be read off the cells. -/
theorem unheld_iff {s : Stage α κ σ} :
    s.Unheld ↔ ∀ place ∈ s.layers, ∀ c ∈ place, c.hold = .free := by
  constructor
  · intro h place hplace c hc
    obtain ⟨id, hid⟩ := List.mem_iff_getElem?.mp hplace
    have hhold : s.hold? id = some c.hold := by
      rw [hold?, cell?, hid, Option.mem_def.mp hc]
      rfl
    rcases h id with hnone | hfree
    · rw [hhold] at hnone
      cases hnone
    · rw [hhold] at hfree
      exact Option.some.inj hfree
  · intro h id
    cases hcell : s.cell? id with
    | none => exact .inl (by rw [hold?, hcell]; rfl)
    | some c =>
      have hplace : s.layers[id]? = some (some c) := Option.join_eq_some_iff.mp hcell
      -- A cell that is found stands in the list, so what holds of all places holds of it.
      have hfree := h (some c) (List.mem_of_getElem? hplace) c rfl
      exact .inr (by rw [hold?, hcell, Option.map_some, hfree])

instance (s : Stage α κ σ) : Decidable s.Unheld :=
  decidable_of_iff _ unheld_iff.symm

theorem Unheld.of_hold? {s s' : Stage α κ σ} (h : s.Unheld) (same : s'.hold? = s.hold?) :
    s'.Unheld := by
  intro id
  rw [same]
  exact h id

theorem isAlive_of_hold? {s s' : Stage α κ σ} (same : s'.hold? = s.hold?) (id : LayerId) :
    s'.isAlive id = s.isAlive id := by
  have hsome := congrArg Option.isSome (congrFun same id)
  rwa [hold?, hold?, Option.isSome_map, Option.isSome_map] at hsome

/-- While no layer is in use every layer that is alive is free. -/
theorem Unheld.exists_cell {s : Stage α κ σ} (h : s.Unheld) {id : LayerId}
    (alive : s.isAlive id = true) : ∃ cell, s.cell? id = some cell ∧ cell.hold = .free := by
  obtain ⟨cell, hcell⟩ := Option.isSome_iff_exists.mp alive
  have hhold : s.hold? id = some cell.hold := by rw [hold?, hcell, Option.map_some]
  rcases h id with hnone | hfree
  · rw [hhold] at hnone
    cases hnone
  · exact ⟨cell, hcell, Option.some.inj (hhold.symm.trans hfree)⟩

theorem hold?_setLayer (s : Stage α κ σ) (id : LayerId) (l : Layer α) :
    (s.setLayer id l).hold? = s.hold? := by
  funext j
  rw [hold?, hold?, cell?_setLayer]
  split
  · cases s.cell? j <;> rfl
  · rfl

theorem hold?_sync (s : Stage α κ σ) : s.sync.hold? = s.hold? := by
  funext j
  rw [hold?, hold?, cell?_sync]
  split
  · cases s.cell? j <;> simp
  · rfl

theorem hold?_follow (s : Stage α κ σ) (id : LayerId) : (s.follow id).hold? = s.hold? := by
  funext j
  rw [hold?, hold?, cell?_follow]

/-- What can be written is the layer of a free cell. -/
theorem writable?_eq_some_iff {s : Stage α κ σ} {id : LayerId} {l : Layer α} :
    s.writable? id = some l ↔ ∃ c, s.cell? id = some c ∧ c.hold = .free ∧ c.layer = l := by
  unfold writable?
  cases s.cell? id with
  | none => simp
  | some c => by_cases h : c.hold = .free <;> simp [h, Hold.admitsWriter_iff]

/-- A layer that cannot be written is gone or in use. -/
theorem writable?_eq_none_iff {s : Stage α κ σ} {id : LayerId} :
    s.writable? id = none ↔ s.hold? id ≠ some .free := by
  rw [Option.eq_none_iff_forall_ne_some]
  constructor
  · intro h hfree
    obtain ⟨c, hc, hhold⟩ := Option.map_eq_some_iff.mp hfree
    exact h c.layer (writable?_eq_some_iff.mpr ⟨c, hc, hhold, rfl⟩)
  · intro h l hl
    obtain ⟨c, hc, hhold, -⟩ := writable?_eq_some_iff.mp hl
    exact h (by rw [hold?, hc, Option.map_some, hhold])

/-- What can be written can be read. -/
theorem readable?_of_writable? {s : Stage α κ σ} {id : LayerId} {l : Layer α}
    (h : s.writable? id = some l) : s.readable? id = some l := by
  obtain ⟨c, hc, hhold, rfl⟩ := writable?_eq_some_iff.mp h
  simp [readable?, hc, hhold, Hold.admitsReader]

/-- Where the layer of a completion is in use, the completion is handed back as it was. -/
theorem fire_of_held {s : Stage α κ σ} {c : Completion α} {hold : Hold}
    (inUse : s.hold? c.layer = some hold) (held : hold ≠ .free) (ending : Ending) :
    s.fire c ending = (s, .error c) := by
  obtain ⟨cell, hcell, rfl⟩ := Option.map_eq_some_iff.mp inUse
  simp [fire, hcell, Hold.admitsWriter_iff, held]

/-- Where no one uses the layer of a completion, or the layer is gone, the completion goes through. -/
theorem fire_of_released {s : Stage α κ σ} {c : Completion α}
    (released : ∀ hold ∈ s.hold? c.layer, hold = .free) (ending : Ending) :
    ∃ n, (s.fire c ending).2 = .ok n := by
  unfold fire
  cases hcell : s.cell? c.layer with
  | none => exact ⟨0, rfl⟩
  | some cell =>
    have hfree : cell.hold = .free := released cell.hold (by rw [hold?, hcell]; rfl)
    exact ⟨(cell.layer.commit c.id c.animation).2, by simp [Hold.admitsWriter_iff.mpr hfree]⟩

/-- Whether a completion goes through or not, the layers stay in the same hands. -/
theorem hold?_fire (s : Stage α κ σ) (c : Completion α) (ending : Ending) :
    (s.fire c ending).1.hold? = s.hold? := by
  unfold fire
  split
  · rfl
  · split
    · exact hold?_setLayer s _ _
    · rfl

variable [Scalar α]

/-- On a layer that is free an animation starts, and its completion is registered. -/
theorem animate_of_writable? {s : Stage α κ σ} {id : LayerId} {l : Layer α}
    (found : s.writable? id = some l) (a : Animation α) :
    s.animate id a =
      ((s.drawId.setLayer id (l.attach s.nextId s.now a).1).enqueueCompletion (completionDelay a)
        ⟨id, s.nextId, (l.attach s.nextId s.now a).2⟩, some s.nextId) := by
  rw [animate, attach, found]

/-- Otherwise the number that was drawn is lost, and nothing else happens. -/
theorem animate_of_not_writable? {s : Stage α κ σ} {id : LayerId} (missing : s.writable? id = none)
    (a : Animation α) : s.animate id a = (s.drawId, none) := by
  rw [animate, attach, missing]

/-- On a layer that is free a motion is the group that its intents are compiled to. -/
theorem perform_of_writable? {s : Stage α κ σ} {id : LayerId} {l : Layer α}
    (found : s.writable? id = some l) (intents : List (Intent α)) (duration : α)
    (easing : Easing α) : s.perform id intents duration easing
      = s.animate id (.group (.assemble (l.compile intents) duration easing)) := by
  rw [perform, readable?_of_writable? found]

/-- An animation that starts leaves the layers in the same hands. -/
theorem hold?_animate (s : Stage α κ σ) (id : LayerId) (a : Animation α) :
    (s.animate id a).1.hold? = s.hold? := by
  cases h : s.writable? id with
  | none =>
    rw [animate_of_not_writable? h]
    rfl
  | some l =>
    rw [animate_of_writable? h]
    -- The layer is replaced and then followed; its completion only goes into the queue.
    exact (hold?_follow _ _).trans (hold?_setLayer s.drawId _ _)

theorem hold?_perform (s : Stage α κ σ) (id : LayerId) (intents : List (Intent α)) (duration : α)
    (easing : Easing α) : (s.perform id intents duration easing).1.hold? = s.hold? := by
  unfold perform
  split
  · rfl
  · exact hold?_animate s _ _

/-- Registering completions again changes nothing but the queue. -/
theorem exists_requeue_eq (s : Stage α κ σ) (cs : List (Completion α)) :
    ∃ seq timers, s.requeue cs = { s with seq := seq, timers := timers } := by
  induction cs generalizing s with
  | nil => exact ⟨s.seq, s.timers, rfl⟩
  | cons c cs ih => exact ih (s.enqueue 0.0 (.completion c))

theorem hold?_requeue (s : Stage α κ σ) (cs : List (Completion α)) :
    (s.requeue cs).hold? = s.hold? := by
  obtain ⟨seq, timers, h⟩ := exists_requeue_eq s cs
  rw [h]
  rfl

end Stage

end LayerAnimation
