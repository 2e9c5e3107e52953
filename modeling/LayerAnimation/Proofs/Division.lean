import LayerAnimation.Proofs.Commits
import LayerAnimation.Proofs.Isolation
import LayerAnimation.Proofs.SameMoment

/-!
# Animations that are divided

What one animation does to a layer several can do together, if each attribute is led by one of them:
they run the same tracks under other numbers, and their commits, one after the other, end what the
commit of the one ends.

- `Layer.commitAll` are commits in a row, which again are one update (`Layer.endsAt_commitAll`).
- A `Division` says among which completions one is divided.  `Layer.Divided` relates a layer to
  another one on which some animations are divided; commits keep it (`Layer.Divided.commit`), and so
  does an animation that is attached to both, whole or in two parts (`Layer.Divided.attach`,
  `Layer.Divided.attach_parts`).
- `Timer.Divided` relates a timer to those that wait in its place, and `Timer.DividedAll` whole
  queues.  The parts go to the place of the whole (`Timer.DividedAll.insert`).
-/

namespace LayerAnimation

variable {α κ σ : Type}

namespace Layer

/-! ## §1 Commits in a row -/

theorem EndsAt.trans {l m r : Layer α} {ks js : Finset Attribute} {i n : Nat}
    (first : l.EndsAt ks (m, i)) (second : m.EndsAt js (r, n)) (disjoint : Disjoint ks js) :
    l.EndsAt (ks ∪ js) (r, i + n) := by
  -- What the second update finds is what was there before the first one.
  have hrunning : ∀ k ∈ js, m.playing.get? k = l.playing.get? k := fun k hk =>
    first.running k fun hk' => Finset.disjoint_left.mp disjoint hk' hk
  constructor
  case stopped =>
    intro k hk
    by_cases hjs : k ∈ js
    · exact second.stopped k hjs
    · rw [second.running k hjs]
      exact first.stopped k ((Finset.mem_union.mp hk).resolve_right hjs)
  case running =>
    intro k hk
    obtain ⟨hks, hjs⟩ := not_or.mp (mt Finset.mem_union.mpr hk)
    rw [second.running k hjs, first.running k hks]
  case written =>
    intro k hk p v hp hv
    by_cases hjs : k ∈ js
    · exact second.written k hjs p v ((hrunning k hjs).trans hp) hv
    · rw [second.kept k fun hjs' => absurd hjs' hjs]
      exact first.written k ((Finset.mem_union.mp hk).resolve_right hjs) p v hp hv
  case kept =>
    intro k hk
    rw [second.kept k fun hjs => ?_, first.kept k fun hks => hk (Finset.mem_union_left js hks)]
    rw [hrunning k hjs]
    exact hk (Finset.mem_union_right ks hjs)
  case clock => exact second.clock.trans first.clock
  case count =>
    have hlater : (js.filter fun k => ((m.playing.get? k).bind (·.track.goal)).isSome)
        = js.filter fun k => ((l.playing.get? k).bind (·.track.goal)).isSome :=
      Finset.filter_congr fun k hk => by rw [hrunning k hk]
    rw [Finset.filter_union, Finset.card_union_of_disjoint (Finset.disjoint_filter_filter disjoint),
      ← hlater]
    exact congrArg₂ (· + ·) first.count second.count

/-- What can be ended after such an update are those attributes that it has not ended. -/
theorem EndsAt.mem_ended {l : Layer α} {ks : Finset Attribute} {r : Layer α × Nat}
    (h : l.EndsAt ks r) {id : AnimationId} {a : Animation α} {k : Attribute} :
    k ∈ r.1.ended id a ↔ k ∈ l.ended id a ∧ k ∉ ks := by
  rw [Layer.mem_ended, Layer.mem_ended, h.playing_eq]
  by_cases hk : k ∈ ks <;> simp [hk]

/-- Commit some completions on a layer, one after the other. -/
def commitAll (l : Layer α) : List (Completion α) → Layer α × Nat
  | [] => (l, 0)
  | c :: cs =>
      let first := l.commit c.id c.animation
      let others := commitAll first.1 cs
      (others.1, first.2 + others.2)

/-- The attributes that some completions end together. -/
def endedAll (l : Layer α) (cs : List (Completion α)) : Finset Attribute :=
  cs.foldr (fun c ks => l.ended c.id c.animation ∪ ks) ∅

theorem mem_endedAll {l : Layer α} {cs : List (Completion α)} {k : Attribute} :
    k ∈ l.endedAll cs ↔ ∃ c ∈ cs, k ∈ l.ended c.id c.animation := by
  induction cs with
  | nil => simp [endedAll]
  | cons c cs ih =>
    simp only [endedAll, List.foldr_cons, Finset.mem_union, List.exists_mem_cons_iff, ← ih]

/-- Commits in a row are one update: none of them finds what an earlier one has ended. -/
theorem endsAt_commitAll (l : Layer α) (cs : List (Completion α)) :
    l.EndsAt (l.endedAll cs) (l.commitAll cs) := by
  induction cs generalizing l with
  | nil => exact endsAt_empty l
  | cons c cs ih =>
    have hfirst := endsAt_commit l c.id c.animation
    -- The others find what all would have ended together, less what the first one has ended.
    have hrest : (l.commit c.id c.animation).1.endedAll cs
        = l.endedAll cs \ l.ended c.id c.animation := by
      ext k
      simp only [mem_endedAll, Finset.mem_sdiff, hfirst.mem_ended]
      exact ⟨fun ⟨d, hd, hk, hnot⟩ => ⟨⟨d, hd, hk⟩, hnot⟩, fun ⟨⟨d, hd, hk⟩, hnot⟩ => ⟨d, hd, hk, hnot⟩⟩
    have hboth := hfirst.trans (ih (l.commit c.id c.animation).1) (hrest ▸ Finset.disjoint_sdiff)
    rw [hrest, Finset.union_sdiff_self_eq_union] at hboth
    exact hboth

/-- The same update of layers which are the same but for numbers leaves such layers. -/
theorem EndsAt.anonymous {l r : Layer α} {ks : Finset Attribute} {x y : Layer α × Nat}
    (h : l.EndsAt ks x) (h' : r.EndsAt ks y) (same : l.anonymous = r.anonymous) :
    x.1.anonymous = y.1.anonymous := by
  obtain ⟨hvalues, hplaying, hclock⟩ := anonymous_eq_iff.mp same
  -- To forget a number is not to forget a goal, so the same values are written.
  have hgoal : ∀ k,
      (l.playing.get? k).bind (·.track.goal) = (r.playing.get? k).bind (·.track.goal) := by
    intro k
    have hforget : ∀ o : Option (Playback α), o.bind (·.track.goal)
        = (o.map Playback.anonymous).bind (·.track.goal) := fun o => by cases o <;> rfl
    rw [hforget, hplaying, ← hforget]
  refine anonymous_eq_iff.mpr ⟨AttributeMap.ext_get? fun k => ?_, fun k => ?_, ?_⟩
  · rw [h.values_eq, h'.values_eq, hgoal, hvalues]
  · rw [h.playing_eq, h'.playing_eq]
    split
    · rfl
    · exact hplaying k
  · rw [h.clock, h'.clock, hclock]

end Layer

/-! ## §2 Divided layers -/

/-- A completion, and those among which it is divided elsewhere, all for the same layer. -/
structure Division (α : Type) where
  whole : Completion α
  parts : List (Completion α)
  nonempty : parts ≠ []
  layer : ∀ c ∈ parts, c.layer = whole.layer

namespace Layer

/-- The second layer is the first one, but for numbers, and some animations on the layer `b` are
divided: what the parts would end there is what the whole would end here. -/
structure Divided (divisions : List (Division α)) (b : LayerId) (l r : Layer α) : Prop where
  anonymous : l.anonymous = r.anonymous
  ended : ∀ d ∈ divisions, d.whole.layer = b →
    l.ended d.whole.id d.whole.animation = r.endedAll d.parts

variable {divisions : List (Division α)} {b : LayerId} {l r : Layer α} {d : Division α}

/-- The commit of a whole is that of its parts. -/
theorem Divided.commit (h : Divided divisions b l r) (mem : d ∈ divisions)
    (layer : d.whole.layer = b) :
    Divided divisions b (l.commit d.whole.id d.whole.animation).1 (r.commitAll d.parts).1 := by
  have hl := endsAt_commit l d.whole.id d.whole.animation
  have hr := endsAt_commitAll r d.parts
  rw [← h.ended d mem layer] at hr
  -- The same attributes were ended on both layers, so the same are left for any other division.
  refine ⟨hl.anonymous hr h.anonymous, fun d' mem' layer' => ?_⟩
  ext k
  rw [hl.mem_ended, h.ended d' mem' layer', mem_endedAll, mem_endedAll]
  simp only [hr.mem_ended]
  exact ⟨fun ⟨⟨c, hc, hk⟩, hnot⟩ => ⟨c, hc, hk, hnot⟩, fun ⟨c, hc, hk, hnot⟩ => ⟨⟨c, hc, hk⟩, hnot⟩⟩

theorem Divided.sync (h : Divided divisions b l r) (now : α) :
    Divided divisions b (l.sync now) (r.sync now) where
  anonymous := by rw [anonymous_sync, anonymous_sync, h.anonymous]
  ended := h.ended

/-- A division of an animation on another layer changes nothing. -/
theorem Divided.of_other (h : Divided divisions b l r) (other : d.whole.layer ≠ b) :
    Divided (divisions ++ [d]) b l r where
  anonymous := h.anonymous
  ended := by
    intro d' mem layer
    rcases List.mem_append.mp mem with mem | mem
    · exact h.ended d' mem layer
    · rw [List.mem_singleton.mp mem] at layer
      exact absurd layer other

/-- New tracks run on both layers, the same but for their numbers, which no division knows yet. -/
theorem Divided.drive (h : Divided divisions b l r) {l' r' : Layer α}
    {f g : Attribute → Option (Playback α)}
    (left : l'.values = l.values ∧ ∀ k, l'.playing.get? k = (f k).or (l.playing.get? k))
    (right : r'.values = r.values ∧ ∀ k, r'.playing.get? k = (g k).or (r.playing.get? k))
    (clock : l'.clock = r'.clock)
    (same : ∀ k, (f k).map Playback.anonymous = (g k).map Playback.anonymous)
    (fresh : ∀ d ∈ divisions, (∀ k, ∀ p ∈ f k, p.id ≠ d.whole.id) ∧
      ∀ c ∈ d.parts, ∀ k, ∀ p ∈ g k, p.id ≠ c.id)
    (new : l'.ended d.whole.id d.whole.animation = r'.endedAll d.parts) :
    Divided (divisions ++ [d]) b l' r' := by
  obtain ⟨hvalues, hplaying, -⟩ := anonymous_eq_iff.mp h.anonymous
  refine ⟨anonymous_eq_iff.mpr ⟨?_, fun k => ?_, clock⟩, fun d' mem layer => ?_⟩
  · rw [left.1, right.1, hvalues]
  · rw [left.2, right.2, Option.map_or, Option.map_or, same, hplaying]
  · rcases List.mem_append.mp mem with mem | mem
    · have hended := h.ended d' mem layer
      obtain ⟨hleft, hright⟩ := fresh d' mem
      ext k
      rw [mem_endedAll, mem_ended, left.2]
      simp only [mem_ended, right.2]
      cases hf : f k with
      | none =>
        have hg : g k = none := Option.map_eq_none_iff.mp ((same k).symm.trans (by rw [hf]; rfl))
        have hk := Finset.ext_iff.mp hended k
        rw [mem_endedAll, mem_ended] at hk
        simpa only [hg, Option.none_or, mem_ended] using hk
      | some p =>
        -- A new track is owned by none of the old ones.
        obtain ⟨q, hq⟩ : ∃ q, g k = some q := by
          have hsome := same k
          rw [hf] at hsome
          obtain ⟨q, hq, -⟩ := Option.map_eq_some_iff.mp hsome.symm
          exact ⟨q, hq⟩
        constructor
        · rintro ⟨-, p', hp', hid⟩
          rw [← Option.some.inj hp'] at hid
          exact absurd hid (hleft k p hf)
        · rintro ⟨c, hc, -, q', hq', hid⟩
          rw [hq, Option.some_or] at hq'
          rw [← Option.some.inj hq'] at hid
          exact absurd hid (hright c hc k q hq)
    · rw [List.mem_singleton.mp mem]
      exact new

end Layer

/-! ## §3 Divided animations -/

/-- Each attribute of an animation is led by one of two others, in the same way and time. -/
structure Animation.Splits [Scalar α] (a first second : Animation α) : Prop where
  last : ∀ k, a.lastTrack? k = (first.lastTrack? k).or (second.lastTrack? k)
  apart : ∀ k, first.names k → ¬ second.names k
  timing : ∀ id now t, first.playback id now t = a.playback id now t ∧
    second.playback id now t = a.playback id now t
  delay : Stage.completionDelay first = Stage.completionDelay a ∧
    Stage.completionDelay second = Stage.completionDelay a

theorem Animation.Splits.names_iff [Scalar α] {a first second : Animation α}
    (h : a.Splits first second) (k : Attribute) : a.names k ↔ first.names k ∨ second.names k := by
  rw [← isSome_lastTrack?_iff, h.last, Option.isSome_or, Bool.or_eq_true, isSome_lastTrack?_iff,
    isSome_lastTrack?_iff]

namespace Layer

variable [Scalar α] {divisions : List (Division α)} {b : LayerId} {l r : Layer α}
  {m n n' : AnimationId} {now : α} {a first second : Animation α}

/-- Right after its attachment an animation owns all that it names. -/
theorem mem_ended_attach {k : Attribute} :
    k ∈ (l.attach m now a).1.ended m (l.attach m now a).2 ↔ a.names k := by
  rw [mem_ended, names_attach, and_iff_left_iff_imp]
  intro hk
  obtain ⟨t, ht⟩ := Option.isSome_iff_exists.mp (Animation.isSome_lastTrack?_iff.mpr hk)
  exact ⟨_, (l.attached_attach m now a).last k t ht, Animation.id_playback _ _ _ _⟩

theorem id_of_incoming? {k : Attribute} {p : Playback α} (h : p ∈ l.incoming? m now a k) :
    p.id = m := by
  obtain ⟨t, -, rfl⟩ := Option.map_eq_some_iff.mp h
  exact Animation.id_playback _ _ _ _

theorem incoming?_of_not_names {k : Attribute} (h : ¬ a.names k) :
    l.incoming? m now a k = none := by
  rw [incoming?, Animation.lastTrack?_eq_none_iff.mpr h, Option.map_none]

/-- What an attachment brings does not depend on numbers, and on nothing of the animation but its
last tracks and its timing. -/
theorem anonymous_incoming? (same : l.anonymous = r.anonymous) {a' : Animation α}
    (timing : ∀ id now t, a'.playback id now t = a.playback id now t) (m n : AnimationId) (now : α)
    (k : Attribute) : ((a'.lastTrack? k).map fun t =>
        a.playback m now (t.startingFrom ((l.sync now).presented? k))).map Playback.anonymous
      = (r.incoming? n now a' k).map Playback.anonymous := by
  have hshown : (l.sync now).presented? k = (r.sync now).presented? k := by
    rw [← presented?_anonymous, anonymous_sync, same, ← anonymous_sync, presented?_anonymous]
  rw [incoming?, Option.map_map, Option.map_map, hshown]
  congr 1
  funext t
  rw [Function.comp_apply, Function.comp_apply, timing]
  cases a <;> rfl

/-- An animation that is attached to both layers. -/
theorem Divided.attach (h : Divided divisions b l r)
    (fresh : ∀ d ∈ divisions, d.whole.id ≠ m ∧ ∀ c ∈ d.parts, c.id ≠ n) (now : α)
    (a : Animation α) :
    Divided (divisions ++ [⟨⟨b, m, (l.attach m now a).2⟩, [⟨b, n, (r.attach n now a).2⟩],
        by simp, by simp⟩]) b
      (l.attach m now a).1 (r.attach n now a).1 := by
  refine h.drive ⟨values_attach l m now a, playing_attach_eq l m now a⟩
    ⟨values_attach r n now a, playing_attach_eq r n now a⟩ ?_
    (anonymous_incoming? h.anonymous (fun _ _ _ => rfl) m n now) (fun d hd => ⟨?_, ?_⟩) ?_
  · rw [clock_attach, clock_attach]
  · intro k p hp
    rw [id_of_incoming? hp]
    exact ((fresh d hd).1).symm
  · intro c hc k p hp
    rw [id_of_incoming? hp]
    exact ((fresh d hd).2 c hc).symm
  · ext k
    simp [mem_endedAll, mem_ended_attach]

section Apart

variable (apart : ∀ k, first.names k → ¬ second.names k)

include apart

/-- Where two animations have no attribute in common, the second brings what it would have brought
without the first. -/
theorem incoming?_attach (k : Attribute) :
    (r.attach n now first).1.incoming? n' now second k = r.incoming? n' now second k := by
  by_cases hk : second.names k
  · have hshown : ((r.attach n now first).1.sync now).presented? k = (r.sync now).presented? k := by
      rw [sync_of_clock (clock_attach r n now first)]
      exact presented?_attach_of_not_names (r.sync now) n rfl fun hk' => apart k hk' hk
    rw [incoming?, incoming?, hshown]
  · rw [incoming?_of_not_names hk, incoming?_of_not_names hk]

/-- The first keeps what it has. -/
theorem mem_ended_attach_attach {k : Attribute} :
    k ∈ ((r.attach n now first).1.attach n' now second).1.ended n (r.attach n now first).2
      ↔ first.names k := by
  have hfirst : k ∈ (r.attach n now first).1.ended n (r.attach n now first).2 ↔ first.names k :=
    mem_ended_attach
  rw [← hfirst, mem_ended, mem_ended, and_congr_right_iff]
  intro hk
  rw [names_attach] at hk
  rw [((r.attach n now first).1.attached_attach n' now second).others k (apart k hk)]

end Apart

/-- An animation that is attached to one layer, and to the other one in two parts. -/
theorem Divided.attach_parts (h : Divided divisions b l r) (splits : a.Splits first second)
    (fresh : ∀ d ∈ divisions, d.whole.id ≠ m ∧ ∀ c ∈ d.parts, c.id ≠ n ∧ c.id ≠ n') (now : α) :
    Divided (divisions ++ [⟨⟨b, m, (l.attach m now a).2⟩,
        [⟨b, n, (r.attach n now first).2⟩,
          ⟨b, n', ((r.attach n now first).1.attach n' now second).2⟩], by simp, by simp⟩]) b
      (l.attach m now a).1 ((r.attach n now first).1.attach n' now second).1 := by
  refine h.drive (f := l.incoming? m now a)
    (g := fun k => (r.incoming? n now first k).or (r.incoming? n' now second k))
    ⟨values_attach l m now a, playing_attach_eq l m now a⟩ ⟨?_, fun k => ?_⟩ ?_
    (fun k => ?_) (fun d hd => ⟨?_, ?_⟩) ?_
  · rw [values_attach, values_attach]
  · rw [playing_attach_eq, playing_attach_eq, incoming?_attach splits.apart]
    -- At most one of the two brings a track, so it does not matter which one came first.
    by_cases hk : first.names k
    · rw [incoming?_of_not_names (splits.apart k hk), Option.none_or, Option.or_none]
    · rw [incoming?_of_not_names hk, Option.none_or, Option.none_or]
  · rw [clock_attach, clock_attach]
  · rw [incoming?, splits.last, Option.map_or, Option.map_or, Option.map_or,
      anonymous_incoming? h.anonymous (fun id now t => (splits.timing id now t).1) m n now,
      anonymous_incoming? h.anonymous (fun id now t => (splits.timing id now t).2) m n' now]
  · intro k p hp
    rw [id_of_incoming? hp]
    exact ((fresh d hd).1).symm
  · intro c hc k p hp
    obtain ⟨hn, hn'⟩ := (fresh d hd).2 c hc
    rcases Option.or_eq_some_iff.mp hp with hp | ⟨-, hp⟩
    · rw [id_of_incoming? hp]
      exact hn.symm
    · rw [id_of_incoming? hp]
      exact hn'.symm
  · ext k
    rw [mem_ended_attach, splits.names_iff, mem_endedAll]
    simp only [List.mem_cons, List.not_mem_nil, or_false, exists_eq_or_imp, exists_eq_left,
      mem_ended_attach_attach splits.apart, mem_ended_attach]

end Layer

/-! ## §4 Divided motions -/

namespace Intent

/-- The intents of a motion are those of two others in a row, without a common attribute. -/
structure Splits (zs first second : List (Intent α)) : Prop where
  order : zs = first ++ second ∨ zs = second ++ first
  apart : ∀ x ∈ first, ∀ y ∈ second, x.key ≠ y.key

variable [Scalar α] {zs first second : List (Intent α)} {l : Layer α} {duration : α}
  {easing : Easing α} {k : Attribute}

theorem lastTrack?_compile_append (xs ys : List (Intent α)) :
    (Animation.group (.assemble (l.compile (xs ++ ys)) duration easing)).lastTrack? k
      = ((Animation.group (.assemble (l.compile ys) duration easing)).lastTrack? k).or
        ((Animation.group (.assemble (l.compile xs) duration easing)).lastTrack? k) := by
  simp only [Animation.lastTrack?, Animation.tracks, Group.assemble, Layer.compile,
    List.map_append, List.reverse_append, List.find?_append]

/-- On any layer such a motion is compiled into an animation that the others split. -/
theorem Splits.compile (h : Splits zs first second) (l : Layer α) (duration : α)
    (easing : Easing α) : (Animation.group (.assemble (l.compile zs) duration easing)).Splits
      (.group (.assemble (l.compile first) duration easing))
      (.group (.assemble (l.compile second) duration easing)) where
  last := by
    intro k
    rcases h.order with rfl | rfl
    · rw [lastTrack?_compile_append]
      by_cases hk : ∃ x ∈ first, x.key = k
      · -- Nothing of the second drives the attribute, so the order does not matter.
        obtain ⟨x, hx, rfl⟩ := hk
        have hnot : ¬ ∃ y ∈ second, y.key = x.key :=
          fun ⟨y, hy, hkey⟩ => h.apart x hx y hy hkey.symm
        have hnames := mt (l.names_compile second duration easing x.key).mp hnot
        rw [Animation.lastTrack?_eq_none_iff.mpr hnames, Option.none_or, Option.or_none]
      · have hnames := mt (l.names_compile first duration easing k).mp hk
        rw [Animation.lastTrack?_eq_none_iff.mpr hnames, Option.or_none, Option.none_or]
    · exact lastTrack?_compile_append second first
  apart := by
    intro k hfirst hsecond
    obtain ⟨x, hx, rfl⟩ := (l.names_compile first duration easing k).mp hfirst
    obtain ⟨y, hy, hkey⟩ := (l.names_compile second duration easing _).mp hsecond
    exact h.apart x hx y hy hkey.symm
  timing := fun _ _ _ => ⟨rfl, rfl⟩
  delay := ⟨rfl, rfl⟩

end Intent

/-! ## §5 Divided queues -/

section Queue

variable {divisions more : List (Division α)}

/-- What waits in the place of a job: the parts of a completion, and for a motion that motion or two
others that split it. -/
inductive Job.Divided (divisions : List (Division α)) :
    Job α Empty → List (Job α Empty) → Prop where
  | completion {d} (mem : d ∈ divisions) :
      Divided divisions (.completion d.whole) (d.parts.map .completion)
  | deferred {d} : Divided divisions (.deferred d) [.deferred d]
  | split {id zs first second duration easing} (splits : Intent.Splits zs first second) :
      Divided divisions (.deferred ⟨id, zs, duration, easing⟩)
        [.deferred ⟨id, first, duration, easing⟩, .deferred ⟨id, second, duration, easing⟩]

theorem Job.Divided.of_parts {d : Division α} {j : Job α Empty} {js : List (Job α Empty)}
    (mem : d ∈ divisions) (job : j = .completion d.whole) (jobs : js = d.parts.map .completion) :
    j.Divided divisions js := by
  rw [job, jobs]
  exact .completion mem

theorem Job.Divided.mono {j : Job α Empty} {js : List (Job α Empty)} (h : j.Divided divisions js)
    (sub : divisions ⊆ more) : j.Divided more js := by
  cases h with
  | completion mem => exact .completion (sub mem)
  | deferred => exact .deferred
  | split splits => exact .split splits

/-- Timers that are due together, with such jobs. -/
structure Timer.Divided (divisions : List (Division α)) (u : Timer α Empty)
    (vs : List (Timer α Empty)) : Prop where
  jobs : u.job.Divided divisions (vs.map Timer.job)
  due : ∀ v ∈ vs, v.due = u.due

/-- In the place of each timer stand its parts. -/
inductive Timer.DividedAll (divisions : List (Division α)) :
    List (Timer α Empty) → List (Timer α Empty) → Prop where
  | nil : DividedAll divisions [] []
  | cons {u vs us ws} (first : u.Divided divisions vs) (rest : DividedAll divisions us ws) :
      DividedAll divisions (u :: us) (vs ++ ws)

namespace Timer

variable {u v : Timer α Empty} {us vs ws : List (Timer α Empty)}

/-- Something waits in the place of every timer. -/
theorem Divided.exists_cons (h : u.Divided divisions vs) : ∃ w ws, vs = w :: ws := by
  refine List.exists_cons_of_ne_nil fun hnil => ?_
  have hjobs := h.jobs
  rw [hnil, List.map_nil] at hjobs
  generalize hj : u.job = j at hjobs
  generalize hjs : ([] : List (Job α Empty)) = js at hjobs
  cases hjobs with
  | @completion d mem => exact d.nonempty (List.map_eq_nil_iff.mp hjs.symm)
  | deferred | split => cases hjs

theorem DividedAll.mono (h : DividedAll divisions us ws) (sub : divisions ⊆ more) :
    DividedAll more us ws := by
  induction h with
  | nil => exact .nil
  | cons first rest ih => exact .cons ⟨first.jobs.mono sub, first.due⟩ ih

theorem DividedAll.of_cons (h : DividedAll divisions (u :: us) ws) :
    ∃ vs rest, ws = vs ++ rest ∧ u.Divided divisions vs ∧ DividedAll divisions us rest := by
  cases h with
  | cons first rest => exact ⟨_, _, rfl, first, rest⟩

theorem DividedAll.exists_due (h : DividedAll divisions us ws) (hv : v ∈ ws) :
    ∃ u ∈ us, v.due = u.due := by
  induction h with
  | nil => cases hv
  | @cons u vs us ws first rest ih =>
    rcases List.mem_append.mp hv with hv | hv
    · exact ⟨u, List.mem_cons_self, first.due v hv⟩
    · obtain ⟨u', hu', hdue⟩ := ih hv
      exact ⟨u', List.mem_cons_of_mem u hu', hdue⟩

/-- A queue of timers that have no parts but themselves. -/
theorem DividedAll.refl {us : List (Timer α Empty)}
    (known : ∀ c, (∃ u ∈ us, u.job = .completion c) →
      ∃ d ∈ divisions, d.whole = c ∧ d.parts = [c]) :
    DividedAll divisions us us := by
  induction us with
  | nil => exact .nil
  | cons u us ih =>
    have hrest := ih fun c ⟨v, hv, hc⟩ => known c ⟨v, List.mem_cons_of_mem u hv, hc⟩
    have hjob : u.job.Divided divisions [u.job] := by
      -- A completion is its own only part, and a motion that was put off needs no such entry.
      cases hu : u.job with
      | completion c =>
        obtain ⟨d, hd, rfl, hparts⟩ := known c ⟨u, List.mem_cons_self, hu⟩
        exact .of_parts hd rfl (by rw [hparts]; rfl)
      | deferred d => exact .deferred
      | routine r => exact r.elim
    have htimer : u.Divided divisions [u] :=
      ⟨hjob, fun v hv => by rw [List.mem_singleton.mp hv]⟩
    exact .cons htimer hrest

variable [Scalar α]

/-- A queue in order remains so when its timers are divided. -/
theorem DividedAll.pairwise (h : DividedAll divisions us ws)
    (sorted : us.Pairwise fun u v => u.due ≤ v.due) (proper : ∀ u ∈ us, u.due ≤ u.due) :
    ws.Pairwise fun u v => u.due ≤ v.due := by
  induction h with
  | nil => exact .nil
  | @cons u vs us ws first rest ih =>
    obtain ⟨hfirst, hrest⟩ := List.pairwise_cons.mp sorted
    obtain ⟨hu, hus⟩ := List.forall_mem_cons.mp proper
    refine List.pairwise_append.mpr ⟨?_, ih hrest hus, fun v hv w hw => ?_⟩
    · refine List.pairwise_of_forall_mem_list fun v hv w hw => ?_
      rw [first.due v hv, first.due w hw]
      exact hu
    · obtain ⟨u', hu', hdue⟩ := rest.exists_due hw
      rw [first.due v hv, hdue]
      exact hfirst u' hu'

/-- The parts of a timer go to the place to which the timer goes. -/
theorem DividedAll.insert [LawfulTime α] (h : DividedAll divisions us ws)
    (t : u.Divided divisions vs) :
    DividedAll divisions (u.insert us) (insertAll vs ws) := by
  have hirrefl : ¬ u.due < u.due := fun hlt =>
    (LawfulTime.lt_iff.mp hlt).2 (LawfulTime.le_of_lt hlt)
  induction h with
  | nil =>
    rw [insertAll_of_lt hirrefl t.due fun v hv => by cases hv]
    exact .cons t .nil
  | @cons w others us ws first rest ih =>
    by_cases hlt : u.due < w.due
    · -- All parts of the first timer are due with it, and so are those of the new one with that one.
      rw [Timer.insert, if_pos hlt, insertAll_of_lt hirrefl t.due]
      · exact .cons t (.cons first rest)
      · obtain ⟨v, vs, rfl⟩ := first.exists_cons
        intro v' hv'
        obtain rfl : v = v' := Option.some.inj hv'
        rw [first.due v List.mem_cons_self]
        exact hlt
    · rw [Timer.insert, if_neg hlt, insertAll_append]
      · exact .cons first ih
      · intro v hv v' hv'
        rw [t.due v hv, first.due v' hv']
        exact hlt

end Timer

end Queue

end LayerAnimation
