import LayerAnimation.Proofs.Twins
import LayerAnimation.Session.Run

/-!
# Sessions cannot tell twins apart

The routines of a session are commands that wait.  Some of their replies tell how long a track runs,
but no command does anything else for it, so on twin sessions the same commands lead to twins.

- `Session.twin_respond` is the step: a command leads to twins if the commands in it do.
- `Session.twin_perform` is the statement for all commands, and `Session.blind_runRoutine` for the
  routines.
-/

namespace LayerAnimation

variable {α : Type} [Scalar α]

namespace Stage.Twin

variable {κ σ : Type} {s r : Stage α κ σ}

/-- The desk is not a part of what twins may differ in. -/
theorem withDesk (h : s.Twin r) {desk desk' : σ} (same : desk' = desk) :
    Stage.Twin { s with desk := desk } { r with desk := desk' } :=
  { h with desk := same }

/-- A layer may be added to both stages, under the same name. -/
theorem addLayer (h : s.Twin r) {l l' : Layer α} (layers : l.Twin l') :
    (s.addLayer l).1.Twin (r.addLayer l').1 ∧ (r.addLayer l').2 = (s.addLayer l).2 := by
  refine ⟨{ h with cell := fun b => ?_, places := ?_ }, h.places⟩
  · have hcell := h.cell b
    simp only [Stage.cell?, Stage.addLayer] at hcell ⊢
    rcases Nat.lt_trichotomy b s.layers.length with hlt | rfl | hgt
    · rw [List.getElem?_append_left hlt, List.getElem?_append_left (h.places ▸ hlt)]
      exact hcell
    · rw [List.getElem?_append_right (Nat.le_refl _), ← h.places,
        List.getElem?_append_right (Nat.le_refl _)]
      simp only [Nat.sub_self]
      exact .some ⟨layers, rfl, rfl⟩
    · rw [List.getElem?_eq_none (by simp; omega),
        List.getElem?_eq_none (by simp [h.places]; omega)]
      exact .none
  · simp [Stage.addLayer, h.places]

/-- While a layer is held on both stages, twins are left to those who hold it. -/
theorem whileHeld (h : s.Twin r) (id : LayerId) (hold : Hold) {β : Type}
    {body : Stage α κ σ → Stage α κ σ × β} (twins : ∀ s r, s.Twin r → (body s).1.Twin (body r).1) :
    (s.whileHeld id hold body).1.Twin (r.whileHeld id hold body).1 := by
  unfold Stage.whileHeld
  rcases h.cell_cases id with ⟨hs, hr⟩ | ⟨c, c', hs, hr, htwin⟩
  · simp only [hs, hr]
    exact h
  · simp only [hs, hr, htwin.hold]
    split
    · exact (twins _ _ (h.setHold id hold)).setHold id c.hold
    · exact h

/-- The same animation is attached with the same starts. -/
theorem attach_same (h : s.Twin r) (now : α) (id : LayerId) (a : Animation α) :
    (s.attach now id a).1.Twin (r.attach now id a).1 ∧
      (r.attach now id a).2 = (s.attach now id a).2 := by
  refine ⟨(h.attach now id (.refl a)).1, ?_⟩
  have hlayer := h.writable? id
  unfold Stage.attach
  generalize s.writable? id = p at hlayer ⊢
  generalize r.writable? id = q at hlayer ⊢
  cases hlayer with
  | none => rfl
  | @some l l' layers =>
    have hfilled : (l'.sync now).fillStarts a = (l.sync now).fillStarts a := by
      simp only [Layer.fillStarts, (layers.sync now).presented?_eq]
    simp only [Layer.attach, hfilled, h.nextId]

end Stage.Twin

namespace Session

variable {s r : Session α} {step : Performer α}

/-! ## §1 Names and the recorder -/

/-- A name leads to the same layer on both. -/
theorem layer?_eq (h : s.Twin r) (name : String) : r.layer? name = s.layer? name := by
  simp only [layer?, h.desk]

/-- A name may be released on both. -/
theorem twin_release (h : s.Twin r) (name : String) : (s.release name).Twin (r.release name) := by
  unfold release
  rw [layer?_eq h]
  split
  · exact h
  · next id _ =>
    exact (h.dropLayer id).withDesk (by rw [h.desk])

/-- A layer may be added to both under a name, which releases what had that name. -/
theorem twin_addNamed (h : s.Twin r) (name : String) {l l' : Layer α} (layers : l.Twin l') :
    (s.addNamed name l).Twin (r.addNamed name l') := by
  obtain ⟨hadded, hid⟩ := (twin_release h name).addLayer layers
  unfold addNamed
  exact hadded.withDesk (by rw [hadded.desk, hid])

/-- An answer leaves both as they are. -/
theorem twin_asking (h : s.Twin r) (name : String) (answer : Layer α → Reply α (Entry α)) :
    (s.asking name answer).1.Twin (r.asking name answer).1 := by
  have hs : (s.asking name answer).1 = s := by
    unfold asking
    split
    · rfl
    · split <;> rfl
  have hr : (r.asking name answer).1 = r := by
    unfold asking
    split
    · rfl
    · split <;> rfl
  -- Whatever the answer tells, nothing has been done for it.
  rw [hs, hr]
  exact h

/-- A layer may be changed on both, if the change leads twins to twins. -/
theorem twin_changing (h : s.Twin r) (name : String)
    {change : Layer α → Layer α × Reply α (Entry α)}
    (twins : ∀ l l', l.Twin l' → (change l).1.Twin (change l').1) :
    (s.changing name change).1.Twin (r.changing name change).1 := by
  unfold changing
  rw [layer?_eq h]
  cases s.layer? name with
  | none => exact h
  | some id =>
    have hlayer := h.writable? id
    dsimp only
    generalize s.writable? id = p at hlayer ⊢
    generalize r.writable? id = q at hlayer ⊢
    cases hlayer with
    | none => exact h
    | some layers => exact h.setLayer id (twins _ _ layers)

/-- So may a session as a whole. -/
theorem twin_acting (h : s.Twin r) (name : String)
    {act act' : LayerId → Session α × Reply α (Entry α)}
    (twins : ∀ id, (act id).1.Twin (act' id).1) :
    (s.acting name act).1.Twin (r.acting name act').1 := by
  unfold acting
  rw [layer?_eq h]
  cases s.layer? name with
  | none => exact h
  | some id => exact twins id

/-- An animation may be recorded on both, and is kept under the same number. -/
theorem twin_record (h : s.Twin r) (id : LayerId) (a : Animation α) :
    (s.record id a).1.Twin (r.record id a).1 := by
  obtain ⟨hstage, hsame⟩ := h.attach_same s.desk.clock id a
  unfold record
  rw [h.desk]
  generalize s.attach s.desk.clock id a = x at hstage hsame ⊢
  generalize r.attach s.desk.clock id a = y at hstage hsame ⊢
  obtain ⟨s', p⟩ := x
  obtain ⟨r', q⟩ := y
  obtain rfl : q = p := hsame
  cases q with
  | none => exact hstage
  | some c =>
    have hdesk : r'.desk = s'.desk := hstage.desk
    exact hstage.withDesk (by rw [hdesk])

/-- A recording may be fired on both. -/
theorem twin_fireRecording (h : s.Twin r) (n : Nat) (ending : Ending) :
    (s.fireRecording n ending).1.Twin (r.fireRecording n ending).1 := by
  have hkept : r.recording? n = s.recording? n := by simp only [recording?, h.desk]
  unfold fireRecording
  rw [hkept]
  cases s.recording? n with
  | none => exact h
  | some kept =>
    obtain ⟨hstage, hresult⟩ := h.fire (.refl kept.completion) ending
    dsimp only
    generalize s.fire kept.completion ending = x at hstage hresult ⊢
    generalize r.fire kept.completion ending = y at hstage hresult ⊢
    obtain ⟨s', x⟩ := x
    obtain ⟨r', y⟩ := y
    -- Either both recordings go through and are crossed out, or both are refused and kept.
    rcases hresult with ⟨n, rfl, rfl⟩ | ⟨rfl, rfl⟩
    · have hdesk : r'.desk = s'.desk := hstage.desk
      exact hstage.withDesk (by rw [hdesk])
    · exact hstage

/-- A recording may be handed over to the clocks of both. -/
theorem twin_handOver (h : s.Twin r) (n : Nat) (after : α) :
    (s.handOver n after).1.Twin (r.handOver n after).1 := by
  have hkept : r.recording? n = s.recording? n := by simp only [recording?, h.desk]
  unfold handOver
  rw [hkept]
  cases s.recording? n with
  | none => exact h
  | some kept =>
    have hused : (s.useRecording n).Twin (r.useRecording n) := h.withDesk (by rw [h.desk])
    exact hused.enqueueCompletion after (.refl kept.completion)

/-! ## §2 Commands -/

section Commands

variable (twins : ∀ c (s r : Session α), s.Twin r → (step c s).1.Twin (step c r).1)

include twins

/-- Commands may be given one after the other. -/
theorem twin_performAll (cs : List (Command α)) (h : s.Twin r) :
    (performAll step cs s).1.Twin (performAll step cs r).1 := by
  induction cs generalizing s r with
  | nil => exact h
  | cons c cs ih => exact ih (twins c s r h)

theorem blind_of_step : Stage.Blind (runRoutine step) :=
  fun task _ _ h => twin_performAll twins task.body h

/-- A command leads to twins if the commands in it do. -/
theorem twin_respond (fuel : Nat) (c : Command α) (h : s.Twin r) :
    (respond fuel step c s).1.Twin (respond fuel step c r).1 := by
  have hblind := blind_of_step twins
  cases c with
  | newLayer name values => exact twin_addNamed h name (.refl _)
  | copyLayer name copy =>
    simp only [respond]
    rw [layer?_eq h]
    cases s.layer? name with
    | none => exact h
    | some id =>
      have hlayer := h.readable? id
      dsimp only
      generalize s.readable? id = p at hlayer ⊢
      generalize r.readable? id = q at hlayer ⊢
      cases hlayer with
      | none => exact h
      | some layers => exact twin_addNamed h copy layers
  | dropLayer name => exact twin_release h name
  -- A command with others in it does the same to both before and after them.
  | whileHeld name hold body =>
    exact twin_acting h name fun id =>
      h.whileHeld id hold fun _ _ hbody => twin_performAll twins body hbody
  | setValue name key value => exact twin_changing h name fun _ _ hl => hl.setValue key value
  | syncLayer name t => exact twin_changing h name fun _ _ hl => hl.sync t
  | play name p => exact twin_changing h name fun _ _ hl => hl.play p
  | stop name key => exact twin_changing h name fun _ _ hl => hl.stop key
  | commit name id a => exact twin_changing h name fun _ _ hl => (hl.commit id rfl).1
  | inspect | snapshot | compile => exact twin_asking h _ _
  | motion name intents options =>
    exact twin_acting h name fun id => (h.motion id intents options).1
  | schedule name intents options =>
    exact twin_acting h name fun id => h.schedule id intents options
  | animate name a => exact twin_acting h name fun id => (h.animate id (.refl a)).1
  | record name a => exact twin_acting h name fun id => twin_record h id a
  | watch name => exact twin_acting h name fun id => h.watch id
  | fireRecording n ending => exact twin_fireRecording h n ending
  | handOver n after => exact twin_handOver h n after
  | later delay label body => exact h.enqueue delay (.routine _)
  | advance dt =>
    have hmoment : r.ahead dt = s.ahead dt := by simp only [Stage.ahead, h.now]
    simp only [respond, hmoment]
    exact (h.advanceWithin hblind fuel _).1
  | advanceTo t => exact (h.advanceWithin hblind fuel t).1
  | settle => exact (h.settleWithin hblind fuel fuel).1
  | interrupt id => exact (h.interrupt id).1
  | recorderClock t => exact h.withDesk (by rw [h.desk])
  | dump | recordings | describe => exact h

end Commands

/-- Whatever is commanded, twin sessions stay twins. -/
theorem twin_perform (fuel : Nat) (c : Command α) (h : s.Twin r) :
    (perform fuel c s).1.Twin (perform fuel c r).1 := by
  induction fuel generalizing c s r with
  | zero => exact h
  | succ fuel ih => exact twin_respond (fun c _ _ h => ih c h) fuel c h

/-- The routines of a session cannot tell twins apart. -/
theorem blind_runRoutine (fuel : Nat) : Stage.Blind (runRoutine (α := α) (perform fuel)) :=
  blind_of_step fun c _ _ h => twin_perform fuel c h

end Session

end LayerAnimation
