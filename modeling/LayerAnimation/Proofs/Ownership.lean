import LayerAnimation.Proofs.Layers
import LayerAnimation.Proofs.Operations

/-!
# Every running track has its completion

A track that runs on a layer is committed by the completion of its animation.  If that completion
were lost, the track would stay on screen for ever; if there were two, the second would meet a
layer that has moved on.

- `Stage.Linked` is the invariant: completions have different numbers below the next one, and behind
  every running track stands a completion for its layer that names its attribute.
- `Stage.Linked.mono` covers the transitions that neither lose completions nor start tracks;
  attaching and committing are `Stage.Linked.attach` and `Stage.Linked.commit`.
- `PlainStage.existsUnique_completion` is the statement for all runs.
-/

namespace LayerAnimation

variable {α κ σ : Type}

namespace Stage

/-! ## §1 Running tracks on a stage -/

/-- The track that runs on a layer under an attribute. -/
def playing? (s : Stage α κ σ) (id : LayerId) (k : Attribute) : Option (Playback α) :=
  (s.cell? id).bind (·.layer.playing.get? k)

theorem playing?_eq_some_iff {s : Stage α κ σ} {id : LayerId} {k : Attribute} {p : Playback α} :
    s.playing? id k = some p
      ↔ ∃ cell, s.cell? id = some cell ∧ cell.layer.playing.get? k = some p := by
  simp [playing?, Option.bind_eq_some_iff]

/-- Where layers are left alone nothing starts. -/
theorem KeepsLayers.playing? {s s' : Stage α κ σ} (h : KeepsLayers s s') {id : LayerId}
    {k : Attribute} {p : Playback α} (hp : s'.playing? id k = some p) :
    s.playing? id k = some p := by
  obtain ⟨cell', hcell', hget⟩ := playing?_eq_some_iff.mp hp
  obtain ⟨cell, hcell, -, hplaying⟩ := h id cell' hcell'
  exact playing?_eq_some_iff.mpr ⟨cell, hcell, by rw [← hplaying, hget]⟩

theorem playing?_of_setLayer {s : Stage α κ σ} {id j : LayerId} {l : Layer α} {k : Attribute}
    {p : Playback α} (h : (s.setLayer j l).playing? id k = some p) :
    (id = j ∧ l.playing.get? k = some p) ∨ (id ≠ j ∧ s.playing? id k = some p) := by
  obtain ⟨cell, hcell, hp⟩ := playing?_eq_some_iff.mp h
  rw [cell?_setLayer] at hcell
  by_cases hid : j = id
  · rw [if_pos hid] at hcell
    obtain ⟨before, -, rfl⟩ := Option.map_eq_some_iff.mp hcell
    exact .inl ⟨hid.symm, hp⟩
  · rw [if_neg hid] at hcell
    exact .inr ⟨Ne.symm hid, playing?_eq_some_iff.mpr ⟨cell, hcell, hp⟩⟩

/-! ## §2 The invariant -/

/-- A completion that will end a track of an animation on a layer under an attribute. -/
structure Ends (c : Completion α) (id : LayerId) (k : Attribute) (p : Playback α) : Prop where
  number : c.id = p.id
  target : c.layer = id
  names : c.animation.names k

/-- Completions, waiting or at hand, and running tracks belong together. -/
structure Linked (s : Stage α κ σ) (hand : Multiset (Completion α)) : Prop where
  /-- No two completions have the same number. -/
  nodup : ((hand + s.waiting).map Completion.id).Nodup
  /-- No completion has a number that is still to be drawn. -/
  drawn : ∀ c ∈ hand + s.waiting, c.id < s.nextId
  /-- A track runs under its own attribute. -/
  keyed : ∀ id k p, s.playing? id k = some p → p.key = k
  /-- Some completion ends every running track. -/
  ended : ∀ id k p, s.playing? id k = some p → ∃ c ∈ hand + s.waiting, Ends c id k p

variable {s s' : Stage α κ σ} {hand hand' : Multiset (Completion α)}

/-- Of the completions that wait, exactly one has the number of a running track. -/
theorem Linked.filter_completions (h : Linked s 0) {id : LayerId} {k : Attribute} {p : Playback α}
    (hp : s.playing? id k = some p) :
    ∃ c, s.completions.filter (fun c => c.id = p.id) = [c] ∧ Ends c id k p := by
  obtain ⟨c, hc, hends⟩ := h.ended id k p hp
  have hnodup := h.nodup
  rw [Multiset.zero_add] at hc hnodup
  have hmem : c ∈ s.completions := Multiset.mem_coe.mp hc
  have hlist : (s.completions.map Completion.id).Nodup := Multiset.coe_nodup.mp hnodup
  refine ⟨c, ?_, hends⟩
  -- Before and behind this completion all numbers are different from its own.
  obtain ⟨before, behind, hsplit⟩ := List.append_of_mem hmem
  rw [hsplit, List.map_append, List.map_cons, List.nodup_append, List.nodup_cons] at hlist
  obtain ⟨-, ⟨hbehind, -⟩, hbefore⟩ := hlist
  rw [hsplit, List.filter_append, List.filter_cons]
  have hnil : before.filter (fun d => d.id = p.id) = [] := by
    refine List.filter_eq_nil_iff.mpr (fun d hd => ?_)
    have hne := hbefore d.id (List.mem_map_of_mem hd) c.id List.mem_cons_self
    simpa [← hends.number] using hne
  have hnil' : behind.filter (fun d => d.id = p.id) = [] := by
    refine List.filter_eq_nil_iff.mpr (fun d hd => ?_)
    have hne : d.id ≠ c.id := fun h => hbehind (h ▸ List.mem_map_of_mem hd)
    simpa [← hends.number] using hne
  simp [hnil, hnil', hends.number]

theorem Linked.mono (h : Linked s hand) (completions : hand' + s'.waiting = hand + s.waiting)
    (number : s.nextId ≤ s'.nextId) (layers : KeepsLayers s s') : Linked s' hand' where
  nodup := by
    rw [completions]
    exact h.nodup
  drawn := by
    intro c hc
    rw [completions] at hc
    exact Nat.lt_of_lt_of_le (h.drawn c hc) number
  keyed := fun id k p hp => h.keyed id k p (layers.playing? hp)
  ended := by
    rw [completions]
    exact fun id k p hp => h.ended id k p (layers.playing? hp)

/-- Committing a completion at hand ends exactly the tracks that it was there for. -/
theorem Linked.commit {c : Completion α} {ending : Ending} {n : Nat}
    (h : Linked s (c ::ₘ hand)) (fired : s.fire c ending = (s', .ok n)) : Linked s' hand := by
  have hwaiting : s'.waiting = s.waiting := by
    have htimers := timers_fire s c ending
    rw [fired] at htimers
    exact waiting_congr htimers
  have hnumber : s'.nextId = s.nextId := by
    have hfire : (s.fire c ending).1.nextId = s.nextId := by
      unfold fire
      split
      · rfl
      · split <;> rfl
    rw [fired] at hfire
    exact hfire
  have hall : c ::ₘ hand + s'.waiting = c ::ₘ (hand + s.waiting) := by
    rw [hwaiting, Multiset.cons_add]
  have hmem : c ∈ c ::ₘ hand + s.waiting := by
    rw [Multiset.cons_add]
    exact Multiset.mem_cons_self c _
  -- What runs after the commit ran before, and was not there to be ended by this completion.
  have hleft : ∀ id k p, s'.playing? id k = some p →
      s.playing? id k = some p ∧ ¬ Ends c id k p := by
    intro id k p hp
    unfold fire at fired
    split at fired
    · next hgone =>
      cases fired
      -- The layer is gone, and nothing runs on it that the completion could end.
      refine ⟨hp, fun hends => ?_⟩
      obtain ⟨cell, hcell, -⟩ := playing?_eq_some_iff.mp hp
      rw [← hends.target, hgone] at hcell
      cases hcell
    · next cell hcell =>
      split at fired
      · cases fired
        rcases playing?_of_setLayer hp with ⟨rfl, hnew⟩ | ⟨hother, hold⟩
        · obtain ⟨hbefore, hnot⟩ := Layer.playing_of_playing_commit _ _ _ hnew
          exact ⟨playing?_eq_some_iff.mpr ⟨cell, hcell, hbefore⟩,
            fun hends => hnot hends.names hends.number.symm⟩
        · exact ⟨hold, fun hends => hother hends.target.symm⟩
      · cases fired
  refine ⟨?_, ?_, ?_, ?_⟩
  · have hnodup := h.nodup
    rw [Multiset.cons_add, Multiset.map_cons] at hnodup
    rw [hwaiting]
    exact (Multiset.nodup_cons.mp hnodup).2
  · intro d hd
    rw [hnumber]
    rw [hwaiting] at hd
    refine h.drawn d ?_
    rw [Multiset.cons_add]
    exact Multiset.mem_cons_of_mem hd
  · exact fun id k p hp => h.keyed id k p (hleft id k p hp).1
  · intro id k p hp
    obtain ⟨hbefore, hnot⟩ := hleft id k p hp
    obtain ⟨d, hd, hends⟩ := h.ended id k p hbefore
    rw [hwaiting]
    rw [Multiset.cons_add, Multiset.mem_cons] at hd
    rcases hd with rfl | hd
    · exact absurd hends hnot
    · exact ⟨d, hd, hends⟩

variable [Scalar α]

/-- Attaching starts tracks together with the completion that ends them. -/
theorem Linked.attach (h : Linked s hand) {id : LayerId} {l : Layer α} (after : α)
    (a : Animation α) (found : s.writable? id = some l) :
    Linked ((s.drawId.setLayer id (l.attach s.nextId s.now a).1).enqueueCompletion after
      ⟨id, s.nextId, (l.attach s.nextId s.now a).2⟩) hand := by
  generalize hattached : l.attach s.nextId s.now a = attached
  obtain ⟨cell, hcell, -, hlayer⟩ := writable?_eq_some_iff.mp found
  have hwaiting : ((s.drawId.setLayer id attached.1).enqueueCompletion after
      ⟨id, s.nextId, attached.2⟩).waiting = ⟨id, s.nextId, attached.2⟩ ::ₘ s.waiting :=
    waiting_enqueueCompletion _ _ _
  have hnumber : ((s.drawId.setLayer id attached.1).enqueueCompletion after
      ⟨id, s.nextId, attached.2⟩).nextId = s.nextId + 1 :=
    nextId_follow _ _
  -- What runs now was started by the animation, or ran before.
  have hrunning : ∀ j k p, ((s.drawId.setLayer id attached.1).enqueueCompletion after
      ⟨id, s.nextId, attached.2⟩).playing? j k = some p →
      (p.key = k ∧ Ends ⟨id, s.nextId, attached.2⟩ j k p) ∨ s.playing? j k = some p := by
    intro j k p hp
    have hset : (s.drawId.setLayer id attached.1).playing? j k = some p := by
      simpa [playing?, enqueueCompletion] using hp
    rcases playing?_of_setLayer hset with ⟨rfl, hnew⟩ | ⟨-, hold⟩
    · rw [← hattached, Layer.playing_attach, hattached] at hnew
      cases hlast : attached.2.lastTrack? k with
      | none =>
        rw [hlast, ← hlayer] at hnew
        exact .inr (playing?_eq_some_iff.mpr ⟨cell, hcell, hnew⟩)
      | some t =>
        obtain ⟨hmem, hkey⟩ := Animation.mem_of_lastTrack? hlast
        rw [hlast] at hnew
        obtain rfl : attached.2.playback s.nextId s.now t = p := by simpa using hnew
        refine .inl ⟨?_, ?_, rfl, t, hmem, hkey⟩
        · rw [Playback.key, Animation.track_playback, hkey]
        · rw [Animation.id_playback]
    · exact .inr hold
  refine ⟨?_, ?_, ?_, ?_⟩
  · rw [hwaiting, Multiset.add_cons, Multiset.map_cons, Multiset.nodup_cons]
    refine ⟨fun hmem => ?_, h.nodup⟩
    -- A completion with the number just drawn would have drawn it before.
    obtain ⟨d, hd, hid⟩ := Multiset.mem_map.mp hmem
    exact absurd (h.drawn d hd) (by rw [hid]; exact Nat.lt_irrefl _)
  · intro d hd
    rw [hwaiting, Multiset.add_cons, Multiset.mem_cons] at hd
    rw [hnumber]
    rcases hd with rfl | hd
    · exact Nat.lt_succ_self _
    · exact Nat.lt_succ_of_lt (h.drawn d hd)
  · intro j k p hp
    rcases hrunning j k p hp with ⟨hkey, -⟩ | hold
    · exact hkey
    · exact h.keyed j k p hold
  · intro j k p hp
    rw [hwaiting, Multiset.add_cons]
    rcases hrunning j k p hp with ⟨-, hends⟩ | hold
    · exact ⟨_, Multiset.mem_cons_self _ _, hends⟩
    · obtain ⟨d, hd, hends⟩ := h.ended j k p hold
      exact ⟨d, Multiset.mem_cons_of_mem hd, hends⟩

/-! ## §3 Every run keeps it -/

/-- Every transition keeps completions and running tracks together. -/
theorem Linked.transition {c : Option (Completion α)} (h : Linked s hand)
    (t : Transition s hand c s' hand') : Linked s' hand' := by
  -- Only an attachment starts tracks and only a commit ends them; the other transitions take a
  -- layer away with all its tracks, or move completions between the queue and the hand.
  cases t with
  | arrive idle => exact h.mono rfl (Nat.le_refl _) (.of_cell? rfl)
  | sync => exact h.mono rfl (Nat.le_refl _) (keepsLayers_sync s)
  | follow =>
    refine h.mono ?_ (Nat.le_of_eq (nextId_follow s _).symm) (keepsLayers_follow s _)
    rw [waiting_congr (timers_follow s _)]
  | hold => exact h.mono rfl (Nat.le_refl _) (keepsLayers_setHold s _ _)
  | drop => exact h.mono rfl (Nat.le_refl _) (keepsLayers_dropLayer s _)
  | draw => exact h.mono rfl (Nat.le_succ _) (.of_cell? rfl)
  | attach a writable => exact h.attach (completionDelay a) a writable
  | putOff =>
    refine h.mono ?_ (Nat.le_refl _) (.of_cell? rfl)
    rw [waiting_enqueue_deferred]
  | take popped =>
    obtain ⟨us, -, -, rfl⟩ := popDue_eq_some_iff.mp popped
    refine h.mono ?_ (Nat.le_refl _) (.of_cell? rfl)
    rw [waiting_of_popDue popped, Multiset.add_comm _ hand, Multiset.add_assoc]
    rfl
  | withdraw found isCompletion =>
    refine h.mono ?_ (Nat.le_refl _) (.of_cell? rfl)
    rw [waiting_of_find? found isCompletion, Multiset.cons_add, Multiset.add_cons]
  | commit fired => exact h.commit fired
  | requeue =>
    refine h.mono ?_ (Nat.le_refl _) (.of_cell? rfl)
    rw [waiting_enqueue_completion, Multiset.cons_add, Multiset.add_cons]

theorem Linked.transitions {cs : List (Completion α)} (h : Linked s hand)
    (run : Transitions s hand cs s' hand') : Linked s' hand' := by
  induction run with
  | refl => exact h
  | tail _ last ih => exact (ih h).transition last

end Stage

namespace PlainStage

variable [Scalar α]

theorem linked_ofLayers {layers : List (Layer α)} (rest : ∀ l ∈ layers, l.playing = .empty) :
    Stage.Linked (Stage.ofLayers layers) 0 := by
  have hnone : ∀ id k, (Stage.ofLayers layers).playing? id k = none := by
    intro id k
    rw [Option.eq_none_iff_forall_ne_some]
    intro p hp
    obtain ⟨cell, hcell, hget⟩ := Stage.playing?_eq_some_iff.mp hp
    rw [Stage.cell?_ofLayers] at hcell
    obtain ⟨l, hl, rfl⟩ := Option.map_eq_some_iff.mp hcell
    rw [rest l (List.mem_of_getElem? hl), AttributeMap.get?_empty] at hget
    cases hget
  refine ⟨Multiset.nodup_zero, fun c hc => absurd hc (Multiset.notMem_zero c), ?_, ?_⟩
  · intro id k p hp
    rw [hnone] at hp
    cases hp
  · intro id k p hp
    rw [hnone] at hp
    cases hp

/-- Wherever operations lead, completions and running tracks belong together. -/
theorem linked_run {layers : List (Layer α)} (rest : ∀ l ∈ layers, l.playing = .empty)
    (ops : List (Operation α)) : Stage.Linked ((Stage.ofLayers layers).run ops) 0 :=
  (linked_ofLayers rest).transitions (transitions_run ops _ 0)

/-- After any operations, exactly one completion waits with the number of a running track; it is for
the layer of the track, and its animation names the attribute.  No two completions that wait have
the same number. -/
theorem existsUnique_completion {layers : List (Layer α)} (rest : ∀ l ∈ layers, l.playing = .empty)
    (ops : List (Operation α)) :
    (∀ id cell k p, ((Stage.ofLayers layers).run ops).cell? id = some cell →
      cell.layer.playing.get? k = some p →
      p.track.key = k ∧
        ∃ c, ((Stage.ofLayers layers).run ops).completions.filter (fun c => c.id = p.id) = [c] ∧
          c.layer = id ∧ ∃ t ∈ c.animation.tracks, t.key = k) ∧
    (((Stage.ofLayers layers).run ops).completions.map Completion.id).Nodup := by
  have h := linked_run rest ops
  refine ⟨?_, ?_⟩
  · intro id cell k p hcell hp
    have hplaying := Stage.playing?_eq_some_iff.mpr ⟨cell, hcell, hp⟩
    obtain ⟨c, hc, hends⟩ := h.filter_completions hplaying
    exact ⟨h.keyed id k p hplaying, c, hc, hends.target, hends.names⟩
  · have hnodup := h.nodup
    rw [Multiset.zero_add] at hnodup
    exact Multiset.coe_nodup.mp hnodup

/-- Two layers before anything happens on them. -/
def twoLayers : List (Layer Float) :=
  [.ofValues .empty, .ofValues .empty]

/-- What is done on the two layers: a long fade of the first one is replaced by another one, and the
second one is in use when its own fade is over. -/
def crossFades : List (Operation Float) :=
  [.motion 0 [.fade 0.0] { Options.standard with duration := 10.0 },
    .motion 0 [.fade 0.5] { Options.standard with duration := 5.0 },
    .motion 1 [.fade 0.0] { Options.standard with duration := 0.5 },
    .hold 1 .shared,
    .advanceTo 1.0]

/-- The completion of the fade that was replaced waits on, and that of the fade of the layer in use was
held back and waits again, due first.  Behind either of the running tracks stands its own. -/
theorem existsUnique_completion_crossFades :
    ((Stage.ofLayers twoLayers).run crossFades).completions.map Completion.id = [3, 2, 1] ∧
    ((Stage.ofLayers twoLayers).run crossFades).timers.head?.map Timer.due = some 1.0 ∧
    (∃ p c, ((Stage.ofLayers twoLayers).run crossFades).playing? 0 .opacity = some p ∧ p.id = 2 ∧
      ((Stage.ofLayers twoLayers).run crossFades).completions.filter (fun c => c.id = p.id) = [c] ∧
      c.layer = 0) ∧
    ∃ p c, ((Stage.ofLayers twoLayers).run crossFades).playing? 1 .opacity = some p ∧ p.id = 3 ∧
      ((Stage.ofLayers twoLayers).run crossFades).completions.filter (fun c => c.id = p.id) = [c] ∧
      c.layer = 1 := by
  have hrest : ∀ l ∈ twoLayers, l.playing = .empty := by
    intro l hl
    rcases List.mem_cons.mp hl with rfl | hl
    · rfl
    · rw [List.mem_singleton.mp hl]
      rfl
  obtain ⟨hbehind, -⟩ := existsUnique_completion hrest crossFades
  -- The track that runs on a layer has the number that it should have, and so its completion.
  have hlayer (id : LayerId) (n : AnimationId)
      (hrunning : (((Stage.ofLayers twoLayers).run crossFades).playing? id .opacity).map Playback.id
        = some n) :
      ∃ p c, ((Stage.ofLayers twoLayers).run crossFades).playing? id .opacity = some p ∧ p.id = n ∧
        ((Stage.ofLayers twoLayers).run crossFades).completions.filter (fun c => c.id = p.id) = [c] ∧
        c.layer = id := by
    obtain ⟨p, hp, hid⟩ := Option.map_eq_some_iff.mp hrunning
    obtain ⟨cell, hcell, hget⟩ := Stage.playing?_eq_some_iff.mp hp
    obtain ⟨-, c, hc, htarget, -⟩ := hbehind id cell .opacity p hcell hget
    exact ⟨p, c, hp, hid, hc, htarget⟩
  exact ⟨by decide +kernel, by decide +kernel, hlayer 0 2 (by decide +kernel),
    hlayer 1 3 (by decide +kernel)⟩

end PlainStage

end LayerAnimation
