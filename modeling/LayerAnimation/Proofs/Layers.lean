import LayerAnimation.Layer

/-!
# Attaching and committing, seen attribute by attribute

Attaching walks over the tracks of an animation twice, and committing reads and removes entries
while it walks over attributes that may repeat.  Seen through the lookups of a layer each of them is
one simultaneous update:

- `Layer.playing_attach`: an attribute that the animation names gets the playback of the last track
  that names it, and every other attribute keeps what it has.
- `Layer.commit_of_names` and `Layer.commit_of_not_names`: exactly the playbacks that the animation
  still owns go, and their goals are written.
- `Layer.destined?` is the value that an attribute comes to hold if nothing else is attached; a
  commit does not change it (`Layer.destined?_commit`).
-/

namespace LayerAnimation

variable {α : Type}

namespace Animation

/-! ## §1 Tracks of an animation -/

/-- The last track of an animation that names an attribute. -/
def lastTrack? (a : Animation α) (k : Attribute) : Option (Track α) :=
  a.tracks.reverse.find? fun t => t.key == k

/-- Whether a track of an animation names an attribute. -/
def names (a : Animation α) (k : Attribute) : Prop :=
  ∃ t ∈ a.tracks, t.key = k

/-- The last track that names an attribute is a track of the animation. -/
theorem mem_of_lastTrack? {a : Animation α} {k : Attribute} {t : Track α}
    (h : a.lastTrack? k = some t) : t ∈ a.tracks ∧ t.key = k := by
  have hmem := List.mem_of_find?_eq_some h
  have hkey := List.find?_some h
  exact ⟨List.mem_reverse.mp hmem, by simpa using hkey⟩

variable [Scalar α]

/-- The playback of one track of an animation that begins at a moment. -/
def playback (a : Animation α) (id : AnimationId) (now : α) (t : Track α) : Playback α :=
  match a with
  | .track _ => ⟨id, t, now, t.duration.getD Options.standardDuration, .easeInOut, .forwards⟩
  | .group g => ⟨id, t, now, g.trackDuration t, g.easing, g.fill⟩

@[simp] theorem id_playback (a : Animation α) (id : AnimationId) (now : α) (t : Track α) :
    (a.playback id now t).id = id := by
  cases a <;> rfl

@[simp] theorem track_playback (a : Animation α) (id : AnimationId) (now : α) (t : Track α) :
    (a.playback id now t).track = t := by
  cases a <;> rfl

end Animation

namespace Layer

/-! ## §2 Attaching -/

/-- Of playbacks that start one after the other the last one of its attribute runs there. -/
theorem playing_foldl_play (ps : List (Playback α)) (l : Layer α) (k : Attribute) :
    (ps.foldl play l).playing.get? k
      = (ps.reverse.find? fun p => p.key == k).or (l.playing.get? k) := by
  induction ps generalizing l with
  | nil => rfl
  | cons p ps ih =>
    rw [List.foldl_cons, ih, List.reverse_cons, List.find?_append]
    simp only [play, AttributeMap.get?_insert, List.find?_cons, List.find?_nil]
    -- The playback at the head counts unless a later one has the same attribute.
    by_cases hp : p.key = k
    · simp [hp]
    · have hbeq : (p.key == k) = false := beq_eq_false_iff_ne.mpr hp
      simp [hp, hbeq]

/-- Playbacks that start write no value. -/
theorem values_foldl_play (ps : List (Playback α)) (l : Layer α) :
    (ps.foldl play l).values = l.values := by
  induction ps generalizing l with
  | nil => rfl
  | cons p ps ih => exact ih (l.play p)

section Attach

variable [Scalar α] (l : Layer α) (id : AnimationId) (now : α) (a : Animation α)

/-- An attachment starts one playback for each track. -/
theorem playbacks_eq : playbacks id now a = a.tracks.map (a.playback id now) := by
  cases a <;> rfl

@[simp] theorem values_attach : (l.attach id now a).1.values = l.values :=
  values_foldl_play _ _

/-- Attaching moves the clock of a layer to the moment of the attachment. -/
theorem clock_attach : (l.attach id now a).1.clock = now := by
  have hplay : ∀ (ps : List (Playback α)) (l : Layer α), (ps.foldl play l).clock = l.clock := by
    intro ps
    induction ps with
    | nil => exact fun _ => rfl
    | cons p ps ih => exact fun l => ih (l.play p)
  exact hplay _ _

/-- After an attachment the last track that names an attribute runs there, and on attributes that
no track names the same runs as before. -/
theorem playing_attach (k : Attribute) :
    (l.attach id now a).1.playing.get? k
      = (((l.attach id now a).2.lastTrack? k).map ((l.attach id now a).2.playback id now)).or
          (l.playing.get? k) := by
  change ((playbacks id now ((l.sync now).fillStarts a)).foldl play (l.sync now)).playing.get? k = _
  rw [playing_foldl_play, playbacks_eq, ← List.map_reverse, List.find?_map]
  -- A playback has the key of its track, so the search goes through to the tracks.
  have hkey : ((fun p : Playback α => p.key == k)
      ∘ ((l.sync now).fillStarts a).playback id now) = fun t => t.key == k := by
    funext t
    simp [Playback.key]
  rw [hkey]
  rfl

end Attach

/-! ## §3 Committing -/

/-- The playback that an animation still owns under an attribute. -/
def owned? (l : Layer α) (id : AnimationId) (k : Attribute) : Option (Playback α) :=
  (l.playing.get? k).filter fun p => p.id = id

/-- What runs under an attribute and is owned by another animation. -/
def foreign? (l : Layer α) (id : AnimationId) (k : Attribute) : Option (Playback α) :=
  (l.playing.get? k).filter fun p => p.id ≠ id

variable (l : Layer α) (id : AnimationId) (k : Attribute)

theorem owned?_eq_some_iff {l : Layer α} {id : AnimationId} {k : Attribute} {p : Playback α} :
    l.owned? id k = some p ↔ l.playing.get? k = some p ∧ p.id = id := by
  simp [owned?, Option.filter_eq_some_iff]

theorem foreign?_eq_some_iff {l : Layer α} {id : AnimationId} {k : Attribute} {p : Playback α} :
    l.foreign? id k = some p ↔ l.playing.get? k = some p ∧ p.id ≠ id := by
  simp [foreign?, Option.filter_eq_some_iff]

/-- What runs under an attribute is owned by the animation or by another one, never by both. -/
theorem foreign?_of_owned? : l.foreign? id k =
    match l.owned? id k with
    | none => l.playing.get? k
    | some _ => none := by
  unfold foreign? owned?
  cases l.playing.get? k with
  | none => rfl
  | some p => by_cases hid : p.id = id <;> simp [hid, Option.filter_some]

variable {l id k} in
theorem commitTrack_of_not_owned (h : l.owned? id k = none) : (l.commitTrack id k).1 = l := by
  unfold owned? at h
  unfold commitTrack
  cases hp : l.playing.get? k with
  | none => rfl
  | some p =>
    have hid : p.id ≠ id := by simpa [hp, Option.filter_some] using h
    simp [hid]

variable {l id k} in
/-- Committing one track ends what the animation owns there, and nothing else. -/
theorem commitTrack_of_owned {p : Playback α} (h : l.owned? id k = some p) :
    (l.commitTrack id k).1 =
      { values := p.track.goal.elim l.values (l.values.insert k)
        playing := l.playing.erase k
        clock := l.clock } := by
  obtain ⟨hp, hid⟩ := owned?_eq_some_iff.mp h
  unfold commitTrack
  rw [hp]
  cases hg : p.track.goal <;> simp [hid, hg, setValue, stop]

/-- Committing a track leaves under its attribute what other animations own. -/
theorem playing_commitTrack_self :
    (l.commitTrack id k).1.playing.get? k = l.foreign? id k := by
  rw [foreign?_of_owned?]
  cases h : l.owned? id k with
  | none => rw [commitTrack_of_not_owned h]
  | some p => simp [commitTrack_of_owned h, AttributeMap.get?_erase]

/-- Under other attributes the same runs as before. -/
theorem playing_commitTrack_of_ne {a : Attribute} (h : a ≠ k) :
    (l.commitTrack id a).1.playing.get? k = l.playing.get? k := by
  cases ho : l.owned? id a with
  | none => rw [commitTrack_of_not_owned ho]
  | some p => simp [commitTrack_of_owned ho, AttributeMap.get?_erase, h]

/-- Committing a track writes the goal of what the animation owns there. -/
theorem values_commitTrack_self : (l.commitTrack id k).1.values.get? k
      = ((l.owned? id k).bind (·.track.goal)).or (l.values.get? k) := by
  cases h : l.owned? id k with
  | none => rw [commitTrack_of_not_owned h]; rfl
  | some p =>
    rw [commitTrack_of_owned h]
    cases hg : p.track.goal <;> simp [hg, AttributeMap.get?_insert]

theorem values_commitTrack_of_ne {a : Attribute} (h : a ≠ k) :
    (l.commitTrack id a).1.values.get? k = l.values.get? k := by
  cases ho : l.owned? id a with
  | none => rw [commitTrack_of_not_owned ho]
  | some p =>
    rw [commitTrack_of_owned ho]
    cases p.track.goal <;> simp [AttributeMap.get?_insert, h]

/-- Committing tracks leaves the attributes alone that none of them names. -/
theorem commitTracks_of_notMem {as : List Attribute} (h : k ∉ as) :
    (commitTracks id as l).1.playing.get? k = l.playing.get? k
      ∧ (commitTracks id as l).1.values.get? k = l.values.get? k := by
  induction as generalizing l with
  | nil => exact ⟨rfl, rfl⟩
  | cons a as ih =>
    obtain ⟨hne, hmem⟩ : k ≠ a ∧ k ∉ as := by simpa using h
    obtain ⟨hplaying, hvalues⟩ := ih (l.commitTrack id a).1 hmem
    -- The track at the head names another attribute too.
    refine ⟨hplaying.trans ?_, hvalues.trans ?_⟩
    · exact playing_commitTrack_of_ne l id k (Ne.symm hne)
    · exact values_commitTrack_of_ne l id k (Ne.symm hne)

/-- What the animation owns under a committed attribute ends at its goal. -/
theorem commitTracks_of_mem {as : List Attribute} (h : k ∈ as) :
    (commitTracks id as l).1.playing.get? k = l.foreign? id k
      ∧ (commitTracks id as l).1.values.get? k
          = ((l.owned? id k).bind (·.track.goal)).or (l.values.get? k) := by
  induction as generalizing l with
  | nil => exact absurd h List.not_mem_nil
  | cons a as ih =>
    show (commitTracks id as (l.commitTrack id a).1).1.playing.get? k = _
      ∧ (commitTracks id as (l.commitTrack id a).1).1.values.get? k = _
    by_cases ha : a = k
    · subst ha
      have hplaying := playing_commitTrack_self l id a
      have hvalues := values_commitTrack_self l id a
      by_cases hmem : a ∈ as
      · -- An attribute that repeats finds nothing left to end.
        obtain ⟨hplaying', hvalues'⟩ := ih (l.commitTrack id a).1 hmem
        have hforeign : (l.commitTrack id a).1.foreign? id a = l.foreign? id a := by
          simp [foreign?, hplaying, Option.filter_filter]
        have howned : (l.commitTrack id a).1.owned? id a = none := by
          rw [Option.eq_none_iff_forall_ne_some]
          intro p hp
          rw [owned?_eq_some_iff, hplaying, foreign?_eq_some_iff] at hp
          exact hp.1.2 hp.2
        rw [hforeign] at hplaying'
        rw [howned] at hvalues'
        exact ⟨hplaying', hvalues'.trans hvalues⟩
      · obtain ⟨hplaying', hvalues'⟩ := commitTracks_of_notMem (l.commitTrack id a).1 id a hmem
        exact ⟨hplaying'.trans hplaying, hvalues'.trans hvalues⟩
    · have hmem : k ∈ as := (List.mem_cons.mp h).resolve_left (Ne.symm ha)
      have hplaying := playing_commitTrack_of_ne l id k ha
      have hvalues := values_commitTrack_of_ne l id k ha
      obtain ⟨hplaying', hvalues'⟩ := ih (l.commitTrack id a).1 hmem
      refine ⟨hplaying'.trans ?_, hvalues'.trans ?_⟩
      · simp [foreign?, hplaying]
      · simp [owned?, hplaying, hvalues]

/-- A commit does not move the clock of the layer. -/
theorem clock_commitTracks (id : AnimationId) (as : List Attribute) (l : Layer α) :
    (commitTracks id as l).1.clock = l.clock := by
  induction as generalizing l with
  | nil => rfl
  | cons a as ih =>
    refine (ih (l.commitTrack id a).1).trans ?_
    cases h : l.owned? id a with
    | none => rw [commitTrack_of_not_owned h]
    | some p => rw [commitTrack_of_owned h]

section Commit

variable (a : Animation α)

theorem mem_keys_iff : k ∈ a.tracks.map Track.key ↔ a.names k := by
  simp [Animation.names]

/-- A commit ends what the animation owns under the attributes it names. -/
theorem commit_of_names {a : Animation α} (h : a.names k) :
    (l.commit id a).1.playing.get? k = l.foreign? id k
      ∧ (l.commit id a).1.values.get? k
          = ((l.owned? id k).bind (·.track.goal)).or (l.values.get? k) :=
  commitTracks_of_mem l id k ((mem_keys_iff k a).mpr h)

/-- Under the attributes that an animation does not name its commit changes nothing. -/
theorem commit_of_not_names {a : Animation α} (h : ¬ a.names k) :
    (l.commit id a).1.playing.get? k = l.playing.get? k
      ∧ (l.commit id a).1.values.get? k = l.values.get? k :=
  commitTracks_of_notMem l id k (mt (mem_keys_iff k a).mp h)

/-- A playback that a commit leaves has been there before, and is not the animation's own under an
attribute that it names. -/
theorem playing_of_playing_commit {k : Attribute} {p : Playback α}
    (h : (l.commit id a).1.playing.get? k = some p) :
    l.playing.get? k = some p ∧ (a.names k → p.id ≠ id) := by
  by_cases hk : a.names k
  · rw [(commit_of_names l id k hk).1, foreign?_eq_some_iff] at h
    exact ⟨h.1, fun _ => h.2⟩
  · rw [(commit_of_not_names l id k hk).1] at h
    exact ⟨h, fun hk' => absurd hk' hk⟩

end Commit

/-! ## §4 Destined values -/

/-- The value an attribute comes to hold if nothing else is attached. -/
def destined? (l : Layer α) (k : Attribute) : Option (Value α) :=
  match l.playing.get? k with
  | some p => p.track.goal
  | none => l.values.get? k

/-- Whether every running track has a goal. -/
def Aimed (l : Layer α) : Prop :=
  ∀ k p, l.playing.get? k = some p → p.track.goal.isSome

/-- A commit starts nothing, so what runs after it still has goals. -/
theorem Aimed.commit {l : Layer α} (h : l.Aimed) (id : AnimationId) (a : Animation α) :
    (l.commit id a).1.Aimed :=
  fun k p hp => h k p (playing_of_playing_commit l id a hp).1

/-- A commit changes no destined value. -/
theorem destined?_commit {l : Layer α} (h : l.Aimed) (id : AnimationId) (a : Animation α)
    (k : Attribute) : (l.commit id a).1.destined? k = l.destined? k := by
  unfold destined?
  by_cases hk : a.names k
  · obtain ⟨hplaying, hvalues⟩ := commit_of_names l id k hk
    rw [hplaying, hvalues, foreign?_of_owned?]
    cases ho : l.owned? id k with
    | none => rfl
    | some p =>
      -- What is owned goes and leaves its goal; only without a goal would an old value show again.
      obtain ⟨hp, -⟩ := owned?_eq_some_iff.mp ho
      obtain ⟨v, hv⟩ := Option.isSome_iff_exists.mp (h k p hp)
      simp [hp, hv]
  · obtain ⟨hplaying, hvalues⟩ := commit_of_not_names l id k hk
    rw [hplaying, hvalues]

/-- An attachment aims the attributes its tracks name, at the goals of the last of them. -/
theorem destined?_attach [Scalar α] (now : α) (a : Animation α) :
    (l.attach id now a).1.destined? k =
      match (l.attach id now a).2.lastTrack? k with
      | some t => t.goal
      | none => l.destined? k := by
  unfold destined?
  rw [playing_attach, values_attach]
  cases (l.attach id now a).2.lastTrack? k with
  | none => rfl
  | some t => simp

/-- An animation whose tracks have goals may be attached. -/
theorem Aimed.attach [Scalar α] {l : Layer α} (h : l.Aimed) (id : AnimationId) (now : α)
    {a : Animation α} (goals : ∀ t ∈ (l.attach id now a).2.tracks, t.goal.isSome) :
    (l.attach id now a).1.Aimed := by
  intro k p hp
  rw [playing_attach] at hp
  -- What runs was started by the animation, or ran before.
  cases ht : (l.attach id now a).2.lastTrack? k with
  | none =>
    rw [ht] at hp
    exact h k p hp
  | some t =>
    rw [ht] at hp
    obtain ⟨hmem, -⟩ := Animation.mem_of_lastTrack? ht
    obtain rfl : (l.attach id now a).2.playback id now t = p := by simpa using hp
    rw [Animation.track_playback]
    exact goals t hmem

end Layer

end LayerAnimation
