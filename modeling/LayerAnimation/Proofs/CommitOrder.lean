import LayerAnimation.Proofs.Ownership

/-!
# Commits in any order

Animations that were attached to one layer overlap on attributes in any way, and their completions
fire in an order that has nothing to do with that of the attachments.  Once all of them have fired,
each exactly once, the order can no longer be told.

- `Layer.settled` is a layer after all that runs on it has ended.  A commit does not change what a
  layer settles to (`Layer.settled_commit`).
- A commit leaves alone what other animations own (`Layer.owned?_commit_of_ne`), so how many values
  another one is going to write does not change either (`Layer.count_commit_congr`).
- `Stage.Outstanding` is the invariant: every running track is ended by one of the completions that
  are still to fire.
- `Stage.fireAll_attachAll` says where all orders lead and what each completion counts on the way.
-/

namespace LayerAnimation

variable {α κ σ : Type}

namespace Layer

/-! ## §1 Where commits lead -/

/-- The layer after everything on it has ended: goals are written where there are some. -/
def settled (l : Layer α) : Layer α where
  values := .ofFn fun k => ((l.playing.get? k).bind (·.track.goal)).or (l.values.get? k)
  playing := .empty
  clock := l.clock

theorem settled_of_rest {l : Layer α} (h : ∀ k, l.playing.get? k = none) : l.settled = l := by
  have hvalues : l.settled.values = l.values := by
    refine AttributeMap.ext_get? fun k => ?_
    simp [settled, h]
  have hplaying : l.settled.playing = l.playing := by
    refine AttributeMap.ext_get? fun k => ?_
    simp [settled, h]
  exact Eq.mpr (Layer.mk.injEq ..) ⟨hvalues, hplaying, rfl⟩

/-- A commit does not change what a layer settles to: it writes some of the goals before the others. -/
theorem settled_commit (l : Layer α) (id : AnimationId) (a : Animation α) :
    (l.commit id a).1.settled = l.settled := by
  have hvalues : (l.commit id a).1.settled.values = l.settled.values := by
    refine AttributeMap.ext_get? fun k => ?_
    simp only [settled, AttributeMap.get?_ofFn]
    by_cases hk : a.names k
    · obtain ⟨hplaying, hvalues⟩ := commit_of_names l id k hk
      rw [hplaying, hvalues, foreign?_of_owned?]
      cases ho : l.owned? id k with
      | none => rfl
      | some p =>
        obtain ⟨hp, -⟩ := owned?_eq_some_iff.mp ho
        simp [hp]
    · obtain ⟨hplaying, hvalues⟩ := commit_of_not_names l id k hk
      rw [hplaying, hvalues]
  exact Eq.mpr (Layer.mk.injEq ..) ⟨hvalues, rfl, clock_commitTracks id _ l⟩

/-! ## §2 What commits count -/

/-- A commit leaves alone what another animation owns. -/
theorem owned?_commit_of_ne (l : Layer α) {id other : AnimationId} (h : other ≠ id)
    (a : Animation α) (k : Attribute) : (l.commit other a).1.owned? id k = l.owned? id k := by
  by_cases hk : a.names k
  · rw [owned?, owned?, (commit_of_names l other k hk).1, foreign?]
    cases l.playing.get? k with
    | none => rfl
    | some p =>
      -- What one animation owns is not the other one's.
      by_cases hid : p.id = id
      · simp [Option.filter_some, hid, Ne.symm h]
      · by_cases hother : p.id = other
        · simp [Option.filter_some, hother, h]
        · simp [Option.filter_some, hid, hother]
  · rw [owned?, owned?, (commit_of_not_names l other k hk).1]

theorem owned?_commitTrack (l : Layer α) (id : AnimationId) (a k : Attribute) :
    (l.commitTrack id a).1.owned? id k = if a = k then none else l.owned? id k := by
  by_cases h : a = k
  · subst h
    rw [if_pos rfl, owned?, playing_commitTrack_self, foreign?, Option.filter_filter]
    simp
  · rw [if_neg h, owned?, owned?, playing_commitTrack_of_ne l id k h]

/-- A value is written where the animation owns a track that has a goal. -/
theorem count_commitTrack (l : Layer α) (id : AnimationId) (a : Attribute) :
    (l.commitTrack id a).2 = ((l.owned? id a).bind (·.track.goal)).isSome := by
  unfold commitTrack owned?
  cases l.playing.get? a with
  | none => rfl
  | some p =>
    by_cases hid : p.id = id
    · cases hg : p.track.goal <;> simp [hid, hg, Option.filter_some]
    · simp [hid, Option.filter_some]

/-- What a commit counts depends on what the animation owns, and on nothing else. -/
theorem count_commitTracks_congr {l r : Layer α} {id : AnimationId} (as : List Attribute)
    (h : ∀ k, l.owned? id k = r.owned? id k) :
    (commitTracks id as l).2 = (commitTracks id as r).2 := by
  induction as generalizing l r with
  | nil => rfl
  | cons a as ih =>
    have hrest : ∀ k, (l.commitTrack id a).1.owned? id k = (r.commitTrack id a).1.owned? id k := by
      intro k
      rw [owned?_commitTrack, owned?_commitTrack, h]
    show (commitTracks id as _).2 + (l.commitTrack id a).2.toNat
      = (commitTracks id as _).2 + (r.commitTrack id a).2.toNat
    rw [ih hrest, count_commitTrack, count_commitTrack, h]

/-- The commit of one animation does not change what the commit of another one counts. -/
theorem count_commit_congr (l : Layer α) {id other : AnimationId} (h : other ≠ id)
    (a b : Animation α) : ((l.commit other a).1.commit id b).2 = (l.commit id b).2 :=
  count_commitTracks_congr _ (owned?_commit_of_ne l h a)

end Layer

namespace Stage

/-! ## §3 Attaching and firing one after the other -/

/-- Fire completions one after the other, however each of the animations came to its end. -/
def fireAll (s : Stage α κ σ) :
    List (Completion α × Ending) → Stage α κ σ × List (Except (Completion α) Nat)
  | [] => (s, [])
  | (c, ending) :: rest =>
      let fired := s.fire c ending
      let others := fireAll fired.1 rest
      (others.1, fired.2 :: others.2)

theorem setLayer_setLayer (s : Stage α κ σ) (id : LayerId) (l r : Layer α) :
    (s.setLayer id l).setLayer id r = s.setLayer id r := by
  have hlayers : ((s.setLayer id l).setLayer id r).layers = (s.setLayer id r).layers := by
    refine List.ext_getElem? fun j => ?_
    simp only [setLayer, modifyCell, List.getElem?_modify]
    by_cases h : id = j
    · cases s.layers[j]? with
      | none => simp
      | some place => cases place <;> simp [h]
    · simp [h]
  exact Eq.mpr (Stage.mk.injEq ..) ⟨hlayers, rfl, rfl, rfl, rfl, rfl, rfl⟩

theorem setLayer_self {s : Stage α κ σ} {id : LayerId} {cell : Cell α}
    (h : s.cell? id = some cell) : s.setLayer id cell.layer = s := by
  have hlayers : (s.setLayer id cell.layer).layers = s.layers := by
    refine List.ext_getElem? fun j => ?_
    simp only [setLayer, modifyCell, List.getElem?_modify]
    by_cases hj : id = j
    · subst hj
      have hplace : s.layers[id]? = some (some cell) := Option.join_eq_some_iff.mp h
      simp [hplace]
    · simp [hj]
  exact Eq.mpr (Stage.mk.injEq ..) ⟨hlayers, rfl, rfl, rfl, rfl, rfl, rfl⟩

/-- The completions that are still to fire for a layer that no one is using: they have different
numbers, and every track that runs on the layer is ended by one of them. -/
structure Outstanding (s : Stage α κ σ) (id : LayerId) (cell : Cell α)
    (cs : List (Completion α)) : Prop where
  alive : s.cell? id = some cell
  free : cell.hold = .free
  target : ∀ c ∈ cs, c.layer = id
  nodup : (cs.map Completion.id).Nodup
  drawn : ∀ c ∈ cs, c.id < s.nextId
  ended : ∀ k p, cell.layer.playing.get? k = some p → ∃ c ∈ cs, Ends c id k p

section Fire

variable {s : Stage α κ σ} {id : LayerId} {cell : Cell α} {cs ds : List (Completion α)}
  {c : Completion α}

theorem Outstanding.perm (h : Outstanding s id cell cs) (perm : cs.Perm ds) :
    Outstanding s id cell ds where
  alive := h.alive
  free := h.free
  target := fun c hc => h.target c (perm.mem_iff.mpr hc)
  nodup := (perm.map Completion.id).nodup_iff.mp h.nodup
  drawn := fun c hc => h.drawn c (perm.mem_iff.mpr hc)
  ended := by
    intro k p hp
    obtain ⟨c, hc, hends⟩ := h.ended k p hp
    exact ⟨c, perm.mem_iff.mp hc, hends⟩

/-- The completion of a layer that no one is using commits. -/
theorem Outstanding.fire_eq (h : Outstanding s id cell (c :: cs)) (ending : Ending) :
    s.fire c ending = (s.setLayer id (cell.layer.commit c.id c.animation).1,
      .ok (cell.layer.commit c.id c.animation).2) := by
  have htarget : c.layer = id := h.target c List.mem_cons_self
  simp [fire, htarget, h.alive, Hold.admitsWriter_iff.mpr h.free]

/-- When a completion has fired, the others end what is left. -/
theorem Outstanding.fire (h : Outstanding s id cell (c :: cs)) :
    Outstanding (s.setLayer id (cell.layer.commit c.id c.animation).1) id
      { cell with layer := (cell.layer.commit c.id c.animation).1 } cs where
  alive := by rw [cell?_setLayer, if_pos rfl, h.alive, Option.map_some]
  free := h.free
  target := fun d hd => h.target d (List.mem_cons_of_mem c hd)
  nodup := (List.nodup_cons.mp h.nodup).2
  drawn := fun d hd => h.drawn d (List.mem_cons_of_mem c hd)
  ended := by
    intro k p hp
    obtain ⟨hbefore, hnot⟩ := Layer.playing_of_playing_commit _ _ _ hp
    obtain ⟨d, hd, hends⟩ := h.ended k p hbefore
    rcases List.mem_cons.mp hd with rfl | hd
    · exact absurd hends.number.symm (hnot hends.names)
    · exact ⟨d, hd, hends⟩

/-- Firing all outstanding completions settles their layer, and each of them counts what it would
count if it were the first. -/
theorem Outstanding.fireAll_eq {order : List (Completion α × Ending)}
    (h : Outstanding s id cell (order.map Prod.fst)) :
    s.fireAll order = (s.setLayer id cell.layer.settled,
      order.map fun e => .ok (cell.layer.commit e.1.id e.1.animation).2) := by
  induction order generalizing s cell with
  | nil =>
    -- Nothing is left that could end a track, so none runs.
    have hrest : ∀ k, cell.layer.playing.get? k = none := by
      intro k
      rw [Option.eq_none_iff_forall_ne_some]
      intro p hp
      obtain ⟨c, hc, -⟩ := h.ended k p hp
      exact absurd hc List.not_mem_nil
    rw [Layer.settled_of_rest hrest, setLayer_self h.alive]
    rfl
  | cons first rest ih =>
    obtain ⟨c, ending⟩ := first
    have hrest := ih h.fire
    rw [setLayer_setLayer, Layer.settled_commit] at hrest
    -- The others own what they owned before, so they count the same.
    have hcounts : ∀ e ∈ rest, ((cell.layer.commit c.id c.animation).1.commit e.1.id
        e.1.animation).2 = (cell.layer.commit e.1.id e.1.animation).2 := by
      intro e he
      have hne : c.id ≠ e.1.id := by
        intro hid
        refine (List.nodup_cons.mp h.nodup).1 ?_
        rw [hid]
        exact List.mem_map_of_mem (List.mem_map_of_mem he)
      exact Layer.count_commit_congr _ hne _ _
    simp only [fireAll, h.fire_eq ending, hrest, List.map_cons]
    congr 2
    exact List.map_congr_left fun e he => congrArg Except.ok (hcounts e he)

end Fire

variable [Scalar α]

/-- Attach animations to a layer one after the other, each at a moment of its own, and collect the
completions.  Where `none` stands a number is drawn for something else. -/
def attachAll (s : Stage α κ σ) (id : LayerId) :
    List (Option (α × Animation α)) → Stage α κ σ × List (Completion α)
  | [] => (s, [])
  | none :: rest => attachAll s.drawId id rest
  | some (now, a) :: rest =>
      let attached := s.attach now id a
      let others := attachAll attached.1 id rest
      (others.1, attached.2.toList ++ others.2)

section Attach

variable {s : Stage α κ σ} {id : LayerId} {cell : Cell α} {cs : List (Completion α)}

omit [Scalar α] in
theorem Outstanding.drawId (h : Outstanding s id cell cs) : Outstanding s.drawId id cell cs where
  alive := h.alive
  free := h.free
  target := h.target
  nodup := h.nodup
  drawn := fun c hc => Nat.lt_succ_of_lt (h.drawn c hc)
  ended := h.ended

/-- An attachment to a layer that no one is using succeeds, and its completion joins the others. -/
theorem Outstanding.attach (h : Outstanding s id cell cs) (now : α) (a : Animation α) :
    ∃ s' l c, s.attach now id a = (s', some c) ∧
      Outstanding s' id { cell with layer := l } (cs ++ [c]) := by
  have hwritable : s.writable? id = some cell.layer :=
    writable?_eq_some_iff.mpr ⟨cell, h.alive, h.free, rfl⟩
  generalize hattached : cell.layer.attach s.nextId now a = attached
  refine ⟨s.drawId.setLayer id attached.1, attached.1, ⟨id, s.nextId, attached.2⟩, ?_, ?_⟩
  · simp only [Stage.attach, hwritable, hattached]
  refine ⟨?_, h.free, ?_, ?_, ?_, ?_⟩
  · rw [cell?_setLayer, if_pos rfl, cell?_drawId, h.alive, Option.map_some]
  · intro c hc
    rcases List.mem_append.mp hc with hc | hc
    · exact h.target c hc
    · rw [List.mem_singleton.mp hc]
  · rw [List.map_append, List.nodup_append]
    refine ⟨h.nodup, List.nodup_singleton _, ?_⟩
    -- The numbers of the others were drawn before.
    intro n hn m hm hnm
    obtain ⟨c, hc, rfl⟩ := List.mem_map.mp hn
    obtain rfl : m = s.nextId := List.mem_singleton.mp hm
    exact absurd (h.drawn c hc) (by rw [hnm]; exact Nat.lt_irrefl _)
  · intro c hc
    rcases List.mem_append.mp hc with hc | hc
    · exact Nat.lt_succ_of_lt (h.drawn c hc)
    · rw [List.mem_singleton.mp hc]
      exact Nat.lt_succ_self _
  · intro k p hp
    rw [← hattached, Layer.playing_attach, hattached] at hp
    cases hlast : attached.2.lastTrack? k with
    | none =>
      rw [hlast] at hp
      obtain ⟨c, hc, hends⟩ := h.ended k p hp
      exact ⟨c, List.mem_append_left _ hc, hends⟩
    | some t =>
      obtain ⟨hmem, hkey⟩ := Animation.mem_of_lastTrack? hlast
      rw [hlast] at hp
      obtain rfl : attached.2.playback s.nextId now t = p := by simpa using hp
      refine ⟨_, List.mem_append_right _ List.mem_cons_self, ?_, rfl, t, hmem, hkey⟩
      rw [Animation.id_playback]

theorem Outstanding.attachAll (h : Outstanding s id cell cs)
    (as : List (Option (α × Animation α))) :
    (∃ l, Outstanding (s.attachAll id as).1 id { cell with layer := l }
      (cs ++ (s.attachAll id as).2)) ∧
    (s.attachAll id as).2.length = as.countP Option.isSome := by
  induction as generalizing s cell cs with
  | nil => exact ⟨⟨cell.layer, by rwa [Stage.attachAll, List.append_nil]⟩, rfl⟩
  | cons first rest ih =>
    cases first with
    | none => simpa [Stage.attachAll] using ih h.drawId
    | some step =>
      obtain ⟨now, a⟩ := step
      obtain ⟨s', l, c, hattach, hnext⟩ := h.attach now a
      obtain ⟨⟨l', hlast⟩, hcount⟩ := ih hnext
      simp only [Stage.attachAll, hattach, Option.toList_some, List.singleton_append]
      refine ⟨⟨l', ?_⟩, ?_⟩
      · rwa [List.append_assoc] at hlast
      · simp [hcount]

end Attach

/-! ## §4 All orders -/

/-- Attach any animations to a layer on which nothing runs, and fire all their completions, each
once and in any order, whether the animations were finished or interrupted.  Every attachment hands
out a completion; no completion is refused, each counts what it would count if it were the first,
and the layer ends settled.  None of this depends on the order. -/
theorem fireAll_attachAll {s : Stage α κ σ} {id : LayerId} {cell : Cell α}
    (alive : s.cell? id = some cell) (free : cell.hold = .free)
    (rest : cell.layer.playing = .empty) (as : List (Option (α × Animation α))) :
    (s.attachAll id as).2.length = as.countP Option.isSome ∧
    ∃ l, (s.attachAll id as).1.cell? id = some { cell with layer := l } ∧
      ∀ order : List (Completion α × Ending), (order.map Prod.fst).Perm (s.attachAll id as).2 →
        (s.attachAll id as).1.fireAll order =
          ((s.attachAll id as).1.setLayer id l.settled,
            order.map fun e => .ok (l.commit e.1.id e.1.animation).2) := by
  -- Nothing runs on the layer, so before the first attachment no completion is outstanding.
  have hnone : Outstanding s id cell [] := by
    have hnil : ∀ c ∈ ([] : List (Completion α)), False := fun c hc => List.not_mem_nil hc
    refine ⟨alive, free, fun c hc => (hnil c hc).elim, List.nodup_nil,
      fun c hc => (hnil c hc).elim, fun k p hp => ?_⟩
    rw [rest, AttributeMap.get?_empty] at hp
    cases hp
  obtain ⟨⟨l, hall⟩, hcount⟩ := hnone.attachAll as
  refine ⟨hcount, l, hall.alive, fun order horder => ?_⟩
  exact (hall.perm horder.symm).fireAll_eq

/-- A fade, a number drawn for another layer, and a group that fades twice and turns. -/
def overlapping : List (Option (Float × Animation Float)) :=
  [some (0.0, .track (.toward .opacity (.scalar 0.0))), none,
    some (0.05, .group (.assemble [.toward .opacity (.scalar 0.3), .toward .rotation (.scalar 1.0),
      ⟨.opacity, none, none, none⟩] 0.1 .linear))]

/-- The stage after these attachments, and their completions. -/
def overlapped : PlainStage Float × List (Completion Float) :=
  (ofLayers [.ofValues .empty]).attachAll 0 overlapping

/-- Finished in the order of their attachment or interrupted in the reverse order, both animations
commit, and the stage ends the same. -/
theorem fireAll_attachAll_overlapping :
    overlapped.2.length = 2 ∧
      (overlapped.1.fireAll (overlapped.2.map fun c => (c, .finished))).1
        = (overlapped.1.fireAll (overlapped.2.reverse.map fun c => (c, .interrupted))).1 := by
  have hcell : (ofLayers [Layer.ofValues (α := Float) .empty]).cell? 0
      = some ⟨.ofValues .empty, .free, true⟩ := rfl
  obtain ⟨hcount, l, -, hall⟩ := fireAll_attachAll hcell rfl rfl overlapping
  have hforward : ((overlapped.2.map fun c => (c, Ending.finished)).map Prod.fst).Perm
      overlapped.2 := by
    rw [List.map_map]
    simp [Function.comp_def]
  have hbackward : ((overlapped.2.reverse.map fun c => (c, Ending.interrupted)).map Prod.fst).Perm
      overlapped.2 := by
    rw [List.map_map]
    simp [Function.comp_def]
  refine ⟨hcount, ?_⟩
  exact (congrArg Prod.fst (hall _ hforward)).trans (congrArg Prod.fst (hall _ hbackward)).symm

end Stage

end LayerAnimation
