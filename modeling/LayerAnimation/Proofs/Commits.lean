import LayerAnimation.Proofs.CommitOrder
import Mathlib.Data.Finset.Card

/-!
# What a commit does

A commit walks over the tracks of an animation, which may repeat an attribute, and ends one entry of
its layer after the other.  All of it is one simultaneous update of the layer, decided by what runs
there before: the attributes that the animation names and still owns.

- `Layer.ended` are these attributes; `Layer.playing_commit` and `Layer.values_commit` say what the
  update does to an attribute, and `Layer.count_commit` how many values it writes.
- `Layer.EndsAt` is such an update, whatever carries it out.  There is only one for given attributes
  (`Layer.EndsAt.unique`), and for those of a commit it is the commit (`Layer.endsAt_commit`).
- So the tracks of the animation matter only through the attributes that they name
  (`Layer.commit_congr`), a second commit finds nothing (`Layer.commit_commit`), and commits of
  different animations commute (`Layer.commit_comm`).
- `Layer.commit_effect` puts all of it together.
-/

namespace LayerAnimation

variable {α : Type}

instance Animation.decidableNames (a : Animation α) (k : Attribute) : Decidable (a.names k) :=
  inferInstanceAs (Decidable (∃ t ∈ a.tracks, t.key = k))

namespace Layer

variable (l : Layer α) (id : AnimationId) (a : Animation α)

/-! ## §1 What ends -/

/-- The attributes under which a commit ends a track: those that the animation names and still
owns. -/
def ended : Finset Attribute :=
  (a.tracks.map Track.key).toFinset.filter fun k => (l.owned? id k).isSome

/-- Of some attributes those under which a commit writes a value: where an owned track has a goal. -/
def writes (ks : Finset Attribute) : Finset Attribute :=
  ks.filter fun k => ((l.owned? id k).bind (·.track.goal)).isSome

variable {l id a}

theorem mem_ended {k : Attribute} :
    k ∈ l.ended id a ↔ a.names k ∧ ∃ p, l.playing.get? k = some p ∧ p.id = id := by
  simp only [ended, Finset.mem_filter, List.mem_toFinset, mem_keys_iff, Option.isSome_iff_exists,
    owned?_eq_some_iff]

/-- What the animation names and does not end it does not own. -/
theorem owned?_of_notMem_ended {k : Attribute} (names : a.names k) (h : k ∉ l.ended id a) :
    l.owned? id k = none := by
  rw [Option.eq_none_iff_forall_ne_some]
  intro p hp
  exact h (mem_ended.mpr ⟨names, p, owned?_eq_some_iff.mp hp⟩)

/-! ## §2 The update -/

variable (l id a)

theorem playing_commit (k : Attribute) :
    (l.commit id a).1.playing.get? k = if k ∈ l.ended id a then none else l.playing.get? k := by
  by_cases hk : a.names k
  · rw [(commit_of_names l id k hk).1, foreign?_of_owned?]
    by_cases hended : k ∈ l.ended id a
    · obtain ⟨-, p, hp⟩ := mem_ended.mp hended
      rw [owned?_eq_some_iff.mpr hp, if_pos hended]
    · -- What runs under a name of the animation may have come later, and then runs on.
      rw [owned?_of_notMem_ended hk hended, if_neg hended]
  · have hended : k ∉ l.ended id a := fun h => hk (mem_ended.mp h).1
    rw [(commit_of_not_names l id k hk).1, if_neg hended]

theorem values_commit (k : Attribute) :
    (l.commit id a).1.values.get? k =
      if k ∈ l.ended id a then ((l.playing.get? k).bind (·.track.goal)).or (l.values.get? k)
      else l.values.get? k := by
  by_cases hk : a.names k
  · rw [(commit_of_names l id k hk).2]
    split
    · next hended =>
      obtain ⟨-, p, hp⟩ := mem_ended.mp hended
      rw [owned?_eq_some_iff.mpr hp, hp.1]
    · next hended => rw [owned?_of_notMem_ended hk hended]; rfl
  · have hended : k ∉ l.ended id a := fun h => hk (mem_ended.mp h).1
    rw [(commit_of_not_names l id k hk).2, if_neg hended]

theorem clock_commit : (l.commit id a).1.clock = l.clock :=
  clock_commitTracks id _ l

/-- An attribute that repeats is counted once: after the first time nothing is owned there. -/
theorem count_commitTracks (as : List Attribute) :
    (commitTracks id as l).2 = (l.writes id as.toFinset).card := by
  induction as generalizing l with
  | nil => rfl
  | cons k as ih =>
    -- Behind the first attribute that one is no longer owned, so only the others can write.
    have hrest : (l.commitTrack id k).1.writes id as.toFinset
        = (l.writes id (insert k as.toFinset)).erase k := by
      ext j
      simp only [writes, Finset.mem_filter, Finset.mem_erase, Finset.mem_insert, owned?_commitTrack]
      by_cases hj : k = j
      · simp [hj]
      · simp [hj, Ne.symm hj]
    have hcount : (commitTracks id (k :: as) l).2
        = (commitTracks id as (l.commitTrack id k).1).2 + (l.commitTrack id k).2.toNat := rfl
    rw [hcount, ih, hrest, count_commitTrack, List.toFinset_cons]
    cases hk : ((l.owned? id k).bind (·.track.goal)).isSome with
    | true =>
      have hmem : k ∈ l.writes id (insert k as.toFinset) :=
        Finset.mem_filter.mpr ⟨Finset.mem_insert_self k _, hk⟩
      exact Finset.card_erase_add_one hmem
    | false =>
      have hmem : k ∉ l.writes id (insert k as.toFinset) := by
        intro h
        rw [(Finset.mem_filter.mp h).2] at hk
        cases hk
      rw [Finset.erase_eq_of_notMem hmem]
      rfl

/-- A commit counts the attributes that it ends with a goal. -/
theorem count_commit : (l.commit id a).2
    = ((l.ended id a).filter fun k => ((l.playing.get? k).bind (·.track.goal)).isSome).card := by
  refine (count_commitTracks l id _).trans (congrArg Finset.card ?_)
  rw [ended, Finset.filter_filter]
  refine Finset.filter_congr fun k _ => ?_
  unfold owned?
  cases l.playing.get? k with
  | none => simp
  | some p => by_cases hid : p.id = id <;> simp [hid, Option.filter_some]

/-! ## §3 One update -/

/-- The result of an update that ends the tracks under the attributes `ks` all at once.  Beside the
layer stands how many values were written. -/
structure EndsAt (l : Layer α) (ks : Finset Attribute) (r : Layer α × Nat) : Prop where
  /-- Nothing runs there any more. -/
  stopped : ∀ k ∈ ks, r.1.playing.get? k = none
  /-- Everything else runs on. -/
  running : ∀ k ∉ ks, r.1.playing.get? k = l.playing.get? k
  /-- The goal of the track that ran is held. -/
  written : ∀ k ∈ ks, ∀ p v, l.playing.get? k = some p → p.track.goal = some v →
    r.1.values.get? k = some v
  /-- Where no track ended, or one that had no goal, the value stays. -/
  kept : ∀ k, (k ∈ ks → (l.playing.get? k).bind (·.track.goal) = none) →
    r.1.values.get? k = l.values.get? k
  clock : r.1.clock = l.clock
  count : r.2 = (ks.filter fun k => ((l.playing.get? k).bind (·.track.goal)).isSome).card

/-- Layers with the same entries and the same clock are the same. -/
theorem ext_get? {l r : Layer α} (playing : ∀ k, l.playing.get? k = r.playing.get? k)
    (values : ∀ k, l.values.get? k = r.values.get? k) (clock : l.clock = r.clock) : l = r :=
  Eq.mpr (Layer.mk.injEq ..)
    ⟨AttributeMap.ext_get? values, AttributeMap.ext_get? playing, clock⟩

namespace EndsAt

variable {l : Layer α} {ks : Finset Attribute} {r r' : Layer α × Nat}

/-- The value of an attribute is the goal of what ended there, or the value from before. -/
theorem values_eq (h : l.EndsAt ks r) (k : Attribute) :
    r.1.values.get? k =
      if k ∈ ks then ((l.playing.get? k).bind (·.track.goal)).or (l.values.get? k)
      else l.values.get? k := by
  by_cases hk : k ∈ ks
  · rw [if_pos hk]
    cases hgoal : (l.playing.get? k).bind (·.track.goal) with
    | none => rw [h.kept k fun _ => hgoal, Option.none_or]
    | some v =>
      obtain ⟨p, hp, hv⟩ := Option.bind_eq_some_iff.mp hgoal
      rw [h.written k hk p v hp hv, Option.some_or]
  · rw [if_neg hk, h.kept k fun hk' => absurd hk' hk]

theorem playing_eq (h : l.EndsAt ks r) (k : Attribute) :
    r.1.playing.get? k = if k ∈ ks then none else l.playing.get? k := by
  split
  · next hk => exact h.stopped k hk
  · next hk => exact h.running k hk

/-- Nothing about such an update is left open. -/
theorem unique (h : l.EndsAt ks r) (h' : l.EndsAt ks r') : r = r' :=
  Prod.ext (ext_get? (fun k => (h.playing_eq k).trans (h'.playing_eq k).symm)
      (fun k => (h.values_eq k).trans (h'.values_eq k).symm) (h.clock.trans h'.clock.symm))
    (h.count.trans h'.count.symm)

end EndsAt

/-- Ending nothing changes nothing. -/
theorem endsAt_empty (l : Layer α) : l.EndsAt ∅ (l, 0) where
  stopped := fun k hk => absurd hk (Finset.notMem_empty k)
  running := fun _ _ => rfl
  written := fun k hk => absurd hk (Finset.notMem_empty k)
  kept := fun _ _ => rfl
  clock := rfl
  count := rfl

/-- A commit ends what the animation names and still owns. -/
theorem endsAt_commit (l : Layer α) (id : AnimationId) (a : Animation α) :
    l.EndsAt (l.ended id a) (l.commit id a) where
  stopped := fun k hk => by rw [playing_commit, if_pos hk]
  running := fun k hk => by rw [playing_commit, if_neg hk]
  written := by
    intro k hk p v hp hv
    rw [values_commit, if_pos hk, hp, Option.bind_some, hv, Option.some_or]
  kept := by
    intro k hkept
    rw [values_commit]
    split
    · next hk => rw [hkept hk, Option.none_or]
    · rfl
  clock := clock_commit l id a
  count := count_commit l id a

/-! ## §4 What follows -/

variable {l id a} {b : Animation α}

/-- What is ended depends only on what is named and on what is owned. -/
theorem ended_congr {r : Layer α} (names : ∀ k, b.names k ↔ a.names k)
    (owned : ∀ k, r.owned? id k = l.owned? id k) : r.ended id b = l.ended id a := by
  ext k
  simp only [ended, Finset.mem_filter, List.mem_toFinset, mem_keys_iff, names, owned]

/-- Animations that name the same attributes commit the same, whatever the order of their tracks,
how often they repeat, and where they start and lead. -/
theorem commit_congr (names : ∀ k, b.names k ↔ a.names k) : l.commit id b = l.commit id a := by
  have hended : l.ended id b = l.ended id a := ended_congr names fun _ => rfl
  exact (hended ▸ endsAt_commit l id b).unique (endsAt_commit l id a)

/-- A second commit finds nothing that it could end. -/
theorem commit_commit : (l.commit id a).1.commit id a = ((l.commit id a).1, 0) := by
  have hended : (l.commit id a).1.ended id a = ∅ := by
    refine Finset.eq_empty_of_forall_notMem fun k hk => ?_
    obtain ⟨hnames, p, hp, hid⟩ := mem_ended.mp hk
    exact (playing_of_playing_commit l id a hp).2 hnames hid
  exact (hended ▸ endsAt_commit (l.commit id a).1 id a).unique (endsAt_empty _)

section Other

variable {other : AnimationId} (h : other ≠ id)

include h

/-- What one animation ends does not depend on the commit of another one. -/
theorem ended_commit_of_ne : (l.commit other b).1.ended id a = l.ended id a :=
  ended_congr (fun _ => Iff.rfl) (owned?_commit_of_ne l h b)

/-- No attribute is ended for two animations. -/
theorem notMem_ended_of_ne {k : Attribute} (hk : k ∈ l.ended id a) : k ∉ l.ended other b := by
  intro hk'
  obtain ⟨-, p, hp, hid⟩ := mem_ended.mp hk
  obtain ⟨-, q, hq, hother⟩ := mem_ended.mp hk'
  obtain rfl : p = q := Option.some.inj (hp.symm.trans hq)
  exact h (hother.symm.trans hid)

/-- Commits of different animations commute. -/
theorem commit_comm :
    ((l.commit id a).1.commit other b).1 = ((l.commit other b).1.commit id a).1 := by
  -- An attribute is ended for at most one of the two, so at most one goal is written there.
  refine ext_get? (fun k => ?_) (fun k => ?_) ?_
  · simp only [playing_commit, ended_commit_of_ne h, ended_commit_of_ne h.symm]
    split <;> split <;> rfl
  · simp only [values_commit, playing_commit, ended_commit_of_ne h, ended_commit_of_ne h.symm]
    by_cases hk : k ∈ l.ended id a
    · simp [hk, notMem_ended_of_ne h hk]
    · simp [hk]
  · simp only [clock_commit]

end Other

/-- What a commit does, on any layer and for any animation, whether or not it is the one that was
attached.  The tracks that end are those that run under an attribute named by the animation and
have its number; all of them end at once.  So only the names in the animation matter, a second commit
finds nothing, and commits of different animations commute without changing what they count. -/
theorem commit_effect (l : Layer α) (id : AnimationId) (a : Animation α) :
    ∃ ks : Finset Attribute,
      (∀ k, k ∈ ks ↔ (∃ t ∈ a.tracks, t.key = k) ∧ ∃ p, l.playing.get? k = some p ∧ p.id = id) ∧
      l.EndsAt ks (l.commit id a) ∧
      (∀ b : Animation α, (∀ k, b.names k ↔ a.names k) → l.commit id b = l.commit id a) ∧
      (l.commit id a).1.commit id a = ((l.commit id a).1, 0) ∧
      ∀ (other : AnimationId) (b : Animation α), other ≠ id →
        ((l.commit id a).1.commit other b).1 = ((l.commit other b).1.commit id a).1 ∧
        ((l.commit id a).1.commit other b).2 = (l.commit other b).2 ∧
        ((l.commit other b).1.commit id a).2 = (l.commit id a).2 :=
  ⟨l.ended id a, fun _ => mem_ended, endsAt_commit l id a, fun _ names => commit_congr names,
    commit_commit, fun _ _ h => ⟨commit_comm h, count_commit_congr l h.symm _ _,
      count_commit_congr l h _ _⟩⟩

/-- A layer on which an animation fades out and moves to nowhere while another one grows. -/
def crowded : Layer Float :=
  (((Layer.ofValues .empty).play ⟨1, .toward .opacity (.scalar 0.0), 0.0, 1.0, .linear, .forwards⟩).play
    ⟨1, ⟨.position, none, none, none⟩, 0.0, 1.0, .linear, .forwards⟩).play
      ⟨2, .toward .scale (.scalar 2.0), 0.0, 1.0, .linear, .forwards⟩

/-- An animation that names opacity twice, each time with another goal than the one that runs. -/
def fadesAndGrows : Animation Float :=
  .group (.assemble [.toward .opacity (.scalar 0.5), .toward .scale (.scalar 3.0),
    .toward .opacity (.scalar 0.7), .toward .position (.point ⟨1.0, 1.0⟩)] 1.0 .linear)

/-- The same attributes in another order and without repetition. -/
def movesAndGrows : Animation Float :=
  .group (.assemble [.toward .position (.scalar 1.0), .toward .scale (.scalar 1.0),
    .toward .opacity (.scalar 1.0)] 2.0 .easeIn)

theorem names_movesAndGrows (k : Attribute) : movesAndGrows.names k ↔ fadesAndGrows.names k := by
  simp only [Animation.names, movesAndGrows, fadesAndGrows, Group.assemble, Animation.tracks,
    Track.toward, List.mem_cons, List.not_mem_nil, or_false, exists_eq_or_imp, exists_eq_left]
  tauto

/-- The goal that runs is written, nothing is written for the position, the growth goes on, and the
animation with the same names does the same. -/
theorem commit_crowded :
    (crowded.commit 1 fadesAndGrows).2 = 1 ∧
      (crowded.commit 1 fadesAndGrows).1.values.get? .opacity = some (.scalar 0.0) ∧
      (crowded.commit 1 fadesAndGrows).1.values.get? .position = none ∧
      (crowded.commit 1 fadesAndGrows).1.playing.get? .position = none ∧
      (crowded.commit 1 fadesAndGrows).1.playing.get? .scale = crowded.playing.get? .scale ∧
      crowded.commit 1 movesAndGrows = crowded.commit 1 fadesAndGrows ∧
      ((crowded.commit 1 fadesAndGrows).1.commit 2 movesAndGrows).1
        = ((crowded.commit 2 movesAndGrows).1.commit 1 fadesAndGrows).1 := by
  obtain ⟨ks, hks, hends, hnames, -, hother⟩ := commit_effect crowded 1 fadesAndGrows
  have hopacity : Attribute.opacity ∈ ks := by
    refine (hks _).mpr ⟨⟨.toward .opacity (.scalar 0.5), ?_, rfl⟩, _, rfl, rfl⟩
    exact List.mem_cons_self
  have hposition : Attribute.position ∈ ks := by
    refine (hks _).mpr ⟨⟨.toward .position (.point ⟨1.0, 1.0⟩), ?_, rfl⟩, _, rfl, rfl⟩
    simp [fadesAndGrows, Group.assemble, Animation.tracks]
  have hscale : Attribute.scale ∉ ks := by
    intro h
    obtain ⟨-, p, hp, hid⟩ := (hks _).mp h
    obtain rfl := Option.some.inj hp
    exact absurd hid (by decide)
  exact ⟨rfl, hends.written _ hopacity _ _ rfl rfl, hends.kept _ fun _ => rfl,
    hends.stopped _ hposition, hends.running _ hscale, hnames _ names_movesAndGrows,
    (hother 2 movesAndGrows (by decide)).1⟩

end Layer

end LayerAnimation
