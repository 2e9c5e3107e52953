import LayerAnimation.Proofs.CommitOrder
import LayerAnimation.Proofs.Queue

/-!
# Two stages that agree on a layer

A stage can be looked at with the eyes of one layer.  Then nothing counts but the clock, the layer
itself and the jobs that wait for it.  Numbers and registrations do not count either, since they are
drawn for all layers in turn.

- `Layer.Alike`: layers that are the same but for the numbers of their running tracks.  Such layers
  remain alike when completions that belong together commit (`Layer.Alike.commit`) and when an
  animation is attached to both (`Layer.Alike.attach`).
- `Mirrors` says that a stage is another one as a layer sees it; it carries along which completions
  belong together.
- The first stage may do something for another layer alone (`Mirrors.start_alone` and others).
- What both stages do for the layer keeps them together, and pairs what they hand out
  (`Mirrors.start`, `Mirrors.motion`, `Mirrors.animate`, `Mirrors.interrupt`).
-/

namespace LayerAnimation

open LawfulTime

variable {α κ σ : Type}

/-! ## §1 Layers but for numbers -/

/-- The playback with its number forgotten. -/
def Playback.anonymous (p : Playback α) : Playback α :=
  { p with id := 0 }

namespace Layer

/-- The layer with the numbers of its running tracks forgotten. -/
def anonymous (l : Layer α) : Layer α :=
  { l with playing := .ofFn fun k => (l.playing.get? k).map Playback.anonymous }

theorem clock_anonymous (l : Layer α) : l.anonymous.clock = l.clock := by
  simp only [anonymous]

theorem values_anonymous (l : Layer α) : l.anonymous.values = l.values := by
  simp only [anonymous]

theorem playing_anonymous (l : Layer α) (k : Attribute) :
    l.anonymous.playing.get? k = (l.playing.get? k).map Playback.anonymous := by
  rw [anonymous, AttributeMap.get?_ofFn]

theorem anonymous_sync (l : Layer α) (now : α) : (l.sync now).anonymous = l.anonymous.sync now :=
  rfl

variable {l r : Layer α}

theorem anonymous_eq_iff : l.anonymous = r.anonymous ↔ l.values = r.values ∧
    (∀ k, (l.playing.get? k).map Playback.anonymous = (r.playing.get? k).map Playback.anonymous) ∧
      l.clock = r.clock := by
  constructor
  · intro h
    obtain ⟨hvalues, -, hclock⟩ := Layer.mk.inj h
    refine ⟨hvalues, fun k => ?_, hclock⟩
    rw [← playing_anonymous, ← playing_anonymous, h]
  · rintro ⟨hvalues, hplaying, hclock⟩
    have hmaps : l.anonymous.playing = r.anonymous.playing := by
      refine AttributeMap.ext_get? fun k => ?_
      rw [playing_anonymous, playing_anonymous, hplaying]
    show Layer.mk l.values l.anonymous.playing l.clock = ⟨r.values, r.anonymous.playing, r.clock⟩
    rw [hvalues, hmaps, hclock]

section Attach

variable [Scalar α]

/-- What a layer shows does not depend on numbers. -/
theorem presented?_anonymous (l : Layer α) : l.anonymous.presented? = l.presented? := by
  funext k
  rw [presented?, presented?, playing_anonymous, values_anonymous, clock_anonymous]
  cases l.playing.get? k <;> rfl

theorem snapshot_anonymous (l : Layer α) : l.anonymous.snapshot = l.snapshot := by
  rw [snapshot, presented?_anonymous, snapshot]

/-- Nor do the starts of an animation. -/
theorem animation_attach_congr (h : l.anonymous = r.anonymous) (m n : AnimationId) (now : α)
    (a : Animation α) : (l.attach m now a).2 = (r.attach n now a).2 := by
  have hfill : ∀ l : Layer α, (l.attach m now a).2
      = a.mapTracks fun t => { t with start := t.start.or ((l.anonymous.sync now).presented? t.key) } := by
    intro l
    rw [← anonymous_sync, presented?_anonymous]
    rfl
  rw [hfill, h, ← hfill]
  rfl

theorem anonymous_attach (h : l.anonymous = r.anonymous) (m n : AnimationId) (now : α)
    (a : Animation α) : (l.attach m now a).1.anonymous = (r.attach n now a).1.anonymous := by
  obtain ⟨hvalues, hplaying, -⟩ := anonymous_eq_iff.mp h
  have hplayback : ∀ (a : Animation α) (t : Track α),
      (a.playback m now t).anonymous = (a.playback n now t).anonymous := by
    intro a t
    cases a <;> rfl
  refine anonymous_eq_iff.mpr ⟨by rw [values_attach, values_attach, hvalues], fun k => ?_, ?_⟩
  · rw [playing_attach, playing_attach, animation_attach_congr h m n now a, Option.map_or,
      Option.map_or, hplaying, Option.map_map, Option.map_map]
    congr 2
    funext t
    exact hplayback _ t
  · rw [clock_attach, clock_attach]

end Attach

/-- Layers that are the same but for numbers, with pairs of completions that own the same on
both. -/
structure Alike (pairs : List (Completion α × Completion α)) (l r : Layer α) : Prop where
  anonymous : l.anonymous = r.anonymous
  owned : ∀ c d, (c, d) ∈ pairs → ∀ k, c.animation.names k →
    (l.owned? c.id k).isSome = (r.owned? d.id k).isSome

variable {pairs : List (Completion α × Completion α)} {c d : Completion α}

/-- What a pair owns under an attribute that it names is the same but for the numbers. -/
theorem Alike.owned_cases (h : Alike pairs l r) (mem : (c, d) ∈ pairs) {k : Attribute}
    (names : c.animation.names k) :
    (l.owned? c.id k = none ∧ r.owned? d.id k = none) ∨
    ∃ p q, l.owned? c.id k = some p ∧ r.owned? d.id k = some q ∧ p.anonymous = q.anonymous := by
  have howned := h.owned c d mem k names
  cases hl : l.owned? c.id k with
  | none =>
    rw [hl] at howned
    exact .inl ⟨rfl, Option.isSome_eq_false_iff.mp howned.symm |> Option.isNone_iff_eq_none.mp⟩
  | some p =>
    rw [hl] at howned
    obtain ⟨q, hr⟩ := Option.isSome_iff_exists.mp howned.symm
    have hplaying := (anonymous_eq_iff.mp h.anonymous).2.1 k
    rw [(owned?_eq_some_iff.mp hl).1, (owned?_eq_some_iff.mp hr).1] at hplaying
    exact .inr ⟨p, q, rfl, hr, Option.some.inj hplaying⟩

/-- What a commit leaves under an attribute on layers that are alike. -/
theorem Alike.playing_commit (h : Alike pairs l r) (mem : (c, d) ∈ pairs) (k : Attribute) :
    ((l.commit c.id c.animation).1.playing.get? k = l.playing.get? k ∧
      (r.commit d.id c.animation).1.playing.get? k = r.playing.get? k) ∨
    ((l.commit c.id c.animation).1.playing.get? k = none ∧
      (r.commit d.id c.animation).1.playing.get? k = none) := by
  by_cases hk : c.animation.names k
  · rw [(commit_of_names l c.id k hk).1, (commit_of_names r d.id k hk).1, foreign?_of_owned?,
      foreign?_of_owned?]
    rcases h.owned_cases mem hk with ⟨hl, hr⟩ | ⟨p, q, hl, hr, -⟩
    · exact .inl (by rw [hl, hr]; exact ⟨rfl, rfl⟩)
    · exact .inr (by rw [hl, hr]; exact ⟨rfl, rfl⟩)
  · exact .inl ⟨(commit_of_not_names l c.id k hk).1, (commit_of_not_names r d.id k hk).1⟩

/-- A completion and its pair commit the same on layers that are alike. -/
theorem Alike.commit (h : Alike pairs l r) (mem : (c, d) ∈ pairs)
    (same : d.animation = c.animation) :
    Alike pairs (l.commit c.id c.animation).1 (r.commit d.id d.animation).1 := by
  obtain ⟨hvalues, hplaying, hclock⟩ := anonymous_eq_iff.mp h.anonymous
  rw [same]
  refine ⟨anonymous_eq_iff.mpr ⟨AttributeMap.ext_get? fun k => ?_, fun k => ?_, ?_⟩, ?_⟩
  · by_cases hk : c.animation.names k
    · -- Tracks that both own have the same goal, which becomes the value.
      rw [(commit_of_names l c.id k hk).2, (commit_of_names r d.id k hk).2, hvalues]
      rcases h.owned_cases mem hk with ⟨hl, hr⟩ | ⟨p, q, hl, hr, hpq⟩
      · rw [hl, hr]
      · have hgoal : p.track.goal = q.track.goal := congrArg (·.track.goal) hpq
        rw [hl, hr, Option.bind_some, Option.bind_some, hgoal]
    · rw [(commit_of_not_names l c.id k hk).2, (commit_of_not_names r d.id k hk).2, hvalues]
  · rcases h.playing_commit mem k with ⟨hl, hr⟩ | ⟨hl, hr⟩
    · rw [hl, hr, hplaying]
    · rw [hl, hr]
  · exact (clock_commitTracks ..).trans (hclock.trans (clock_commitTracks ..).symm)
  · intro c' d' mem' k names
    rcases h.playing_commit mem k with ⟨hl, hr⟩ | ⟨hl, hr⟩
    · rw [owned?, owned?, hl, hr]
      exact h.owned c' d' mem' k names
    · rw [owned?, owned?, hl, hr]
      rfl

section Attach

variable [Scalar α]

/-- An animation that is attached to layers which are alike leaves such layers, and its completions
are one pair more. -/
theorem Alike.attach (h : Alike pairs l r) {m n : AnimationId}
    (fresh : ∀ c d, (c, d) ∈ pairs → c.id ≠ m ∧ d.id ≠ n) (b : LayerId) (now : α) (a : Animation α) :
    Alike (pairs ++ [(⟨b, m, (l.attach m now a).2⟩, ⟨b, n, (r.attach n now a).2⟩)])
      (l.attach m now a).1 (r.attach n now a).1 := by
  have hsame := animation_attach_congr h.anonymous m n now a
  refine ⟨anonymous_attach h.anonymous m n now a, fun c d mem k names => ?_⟩
  rw [owned?, owned?, playing_attach, playing_attach, ← hsame]
  cases hlast : (l.attach m now a).2.lastTrack? k with
  | none =>
    rcases List.mem_append.mp mem with mem | mem
    · exact h.owned c d mem k names
    · -- What the new animation names it drives with a last track.
      obtain ⟨rfl, rfl⟩ := Prod.mk.inj (List.mem_singleton.mp mem)
      obtain ⟨t, ht, hkey⟩ := names
      have hnone := List.find?_eq_none.mp hlast t (List.mem_reverse.mpr ht)
      exact absurd (beq_iff_eq.mpr hkey) hnone
  | some t =>
    simp only [Option.map_some, Option.some_or, Option.filter_some, Animation.id_playback]
    rcases List.mem_append.mp mem with mem | mem
    · obtain ⟨hm, hn⟩ := fresh c d mem
      simp [hm.symm, hn.symm]
    · obtain ⟨rfl, rfl⟩ := Prod.mk.inj (List.mem_singleton.mp mem)
      simp

end Attach

end Layer

/-! ## §2 The jobs of one layer -/

/-- The layer that a job is for. -/
def Job.layer : Job α Empty → LayerId
  | .completion c => c.layer
  | .deferred d => d.layer
  | .routine r => r.elim

/-- Whether the job of a timer is for a layer. -/
def Timer.concerns (b : LayerId) (u : Timer α Empty) : Bool :=
  u.job.layer == b

theorem Timer.concerns_iff {b : LayerId} {u : Timer α Empty} : u.concerns b ↔ u.job.layer = b :=
  beq_iff_eq

namespace Timer

variable [Scalar α] [LawfulTime α] {t : Timer α κ} {us : List (Timer α κ)} {p : Timer α κ → Bool}

/-- In a sorted queue a timer goes to the same place among some of the others. -/
theorem filter_insert_of_pos (h : p t) (sorted : us.Pairwise fun u v => u.due ≤ v.due) :
    (t.insert us).filter p = t.insert (us.filter p) := by
  induction us with
  | nil => exact List.filter_cons_of_pos h
  | cons u us ih =>
    obtain ⟨hfirst, hrest⟩ := List.pairwise_cons.mp sorted
    by_cases hlt : t.due < u.due
    · -- All others are due later, so those among which it goes are due later.
      have hlater : ∀ v ∈ (u :: us).filter p, t.due < v.due := by
        intro v hv
        rcases List.mem_cons.mp (List.mem_filter.mp hv).1 with rfl | hv
        · exact hlt
        · exact lt_of_lt_of_le hlt (hfirst v hv)
      rw [insert, if_pos hlt, List.filter_cons_of_pos h]
      exact (insert_append_of_lt hlater []).symm
    · rw [insert, if_neg hlt]
      by_cases hu : p u
      · rw [List.filter_cons_of_pos hu, List.filter_cons_of_pos hu, ih hrest, insert, if_neg hlt]
      · rw [List.filter_cons_of_neg hu, List.filter_cons_of_neg hu, ih hrest]

omit [LawfulTime α] in
theorem filter_insert_of_neg (h : ¬ p t) (us : List (Timer α κ)) :
    (t.insert us).filter p = us.filter p := by
  induction us with
  | nil => exact List.filter_cons_of_neg h
  | cons u us ih =>
    unfold insert
    split
    · rw [List.filter_cons_of_neg h]
    · rw [List.filter_cons, List.filter_cons, ih]

end Timer

section Erase

variable {us : List (Timer α κ)} {p q : Timer α κ → Bool}

/-- What is taken from a queue and is not among some of its timers leaves these as they are. -/
theorem Timer.filter_eraseP_of_not (h : ∀ u ∈ us, q u → ¬ p u) :
    (us.eraseP q).filter p = us.filter p := by
  rcases List.eraseP_eq_iff.mp (rfl : us.eraseP q = us.eraseP q) with
    ⟨-, hsame⟩ | ⟨u, before, after, -, hq, hsplit, herase⟩
  · rw [← hsame]
  · have hu : ¬ p u := h u (by rw [hsplit]; simp) hq
    rw [herase, hsplit, List.filter_append, List.filter_append, List.filter_cons_of_neg hu]

/-- What is taken from a queue and is among some of its timers is taken from these. -/
theorem Timer.filter_eraseP_of_imp (h : ∀ u ∈ us, q u → p u) :
    (us.eraseP q).filter p = (us.filter p).eraseP q := by
  rw [List.eraseP_filter]
  congr 1
  induction us with
  | nil => rfl
  | cons u us ih =>
    obtain ⟨hu, hus⟩ := List.forall_mem_cons.mp h
    have hboth : (q u && p u) = q u := by
      cases hq : q u with
      | true => rw [hu hq, Bool.and_self]
      | false => rfl
    rw [List.eraseP_cons, List.eraseP_cons, hboth, ih hus]

theorem Timer.find?_filter_of_imp (h : ∀ u ∈ us, q u → p u) :
    (us.filter p).find? q = us.find? q := by
  rw [List.find?_filter]
  refine List.find?_congr fun u hu => ?_
  cases hq : q u with
  | true => simp [h u hu hq]
  | false => simp

end Erase

/-! ### Lists side by side -/

section Beside

variable {β γ : Type} {R : β → γ → Prop} {xs : List β} {ys : List γ} {p : β → Bool} {q : γ → Bool}

/-- In lists that correspond a search finds what corresponds. -/
theorem find?_of_forall₂ (h : List.Forall₂ R xs ys) (same : ∀ x y, R x y → p x = q y) :
    Option.Rel R (xs.find? p) (ys.find? q) := by
  induction h with
  | nil => exact .none
  | @cons x y xs ys first rest ih =>
    rw [List.find?_cons, List.find?_cons, same x y first]
    cases q y with
    | true => exact .some first
    | false => exact ih

/-- What is taken away from such lists corresponds. -/
theorem eraseP_of_forall₂ (h : List.Forall₂ R xs ys) (same : ∀ x y, R x y → p x = q y) :
    List.Forall₂ R (xs.eraseP p) (ys.eraseP q) := by
  induction h with
  | nil => exact .nil
  | @cons x y xs ys first rest ih =>
    rw [List.eraseP_cons, List.eraseP_cons, same x y first]
    cases q y with
    | true => exact rest
    | false => exact .cons first ih

end Beside

variable {b : LayerId} {pairs : List (Completion α × Completion α)}

/-- Jobs for a layer that are the same, or the two completions of a pair. -/
inductive Job.Alike (b : LayerId) (pairs : List (Completion α × Completion α)) :
    Job α Empty → Job α Empty → Prop where
  | completion {c d} (mem : (c, d) ∈ pairs) : Alike b pairs (.completion c) (.completion d)
  | deferred {d} (layer : d.layer = b) : Alike b pairs (.deferred d) (.deferred d)

/-- Timers with such jobs that are due at the same moment. -/
structure Timer.Alike (b : LayerId) (pairs : List (Completion α × Completion α))
    (u v : Timer α Empty) : Prop where
  due : u.due = v.due
  job : u.job.Alike b pairs v.job

theorem Job.Alike.mono {more : List (Completion α × Completion α)} {j k : Job α Empty}
    (h : j.Alike b pairs k) (sub : pairs ⊆ more) : j.Alike b more k := by
  cases h with
  | completion mem => exact .completion (sub mem)
  | deferred layer => exact .deferred layer

theorem Timer.Alike.mono {more : List (Completion α × Completion α)} {u v : Timer α Empty}
    (h : u.Alike b pairs v) (sub : pairs ⊆ more) : u.Alike b more v :=
  ⟨h.due, h.job.mono sub⟩

/-- Timers that are alike go to the same place in queues that are alike. -/
theorem Timer.Alike.insert [Scalar α] {t t' : Timer α Empty} {us vs : List (Timer α Empty)}
    (h : t.Alike b pairs t') (others : List.Forall₂ (Timer.Alike b pairs) us vs) :
    List.Forall₂ (Timer.Alike b pairs) (t.insert us) (t'.insert vs) := by
  induction others with
  | nil => exact .cons h .nil
  | @cons u v us vs first rest ih =>
    unfold Timer.insert
    rw [← h.due, ← first.due]
    split
    · exact .cons h (.cons first rest)
    · exact .cons first ih

/-! ## §3 Two stages and one layer -/

/-- Cells with the same users whose layers are alike. -/
structure Cell.Alike (pairs : List (Completion α × Completion α)) (x y : Cell α) : Prop where
  hold : x.hold = y.hold
  owned : x.owned = y.owned
  layer : x.layer.Alike pairs y.layer

theorem Cell.Alike.sync {x y : Cell α} (h : x.Alike pairs y) (now : α) :
    (x.sync now).Alike pairs (y.sync now) := by
  by_cases hfree : x.hold = .free
  · rw [sync_of_free hfree, sync_of_free (h.hold ▸ hfree)]
    have hlayers : (x.layer.sync now).anonymous = (y.layer.sync now).anonymous := by
      rw [Layer.anonymous_sync, Layer.anonymous_sync, h.layer.anonymous]
    exact ⟨h.hold, h.owned, hlayers, h.layer.owned⟩
  · rw [sync_of_held hfree, sync_of_held (h.hold ▸ hfree)]
    exact h

/-- The second stage is the first one as a layer sees it: the layer is the same on both but for
numbers, and nothing waits on the second stage but what waits for the layer on the first.  Completions
with different numbers belong together in pairs. -/
structure Mirrors (b : LayerId) (pairs : List (Completion α × Completion α)) (s r : PlainStage α) :
    Prop where
  now : s.now = r.now
  cell : Option.Rel (Cell.Alike pairs) (s.cell? b) (r.cell? b)
  followed : b ∈ s.followed ↔ b ∈ r.followed
  timers : List.Forall₂ (Timer.Alike b pairs) (s.timers.filter (Timer.concerns b)) r.timers
  paired : ∀ c d, (c, d) ∈ pairs → c.layer = b ∧ d.layer = b ∧ d.animation = c.animation
  drawn : ∀ c d, (c, d) ∈ pairs → c.id < s.nextId ∧ d.id < r.nextId
  told : ∀ c d c' d', (c, d) ∈ pairs → (c', d') ∈ pairs → (c'.id = c.id ↔ d'.id = d.id)

namespace Mirrors

variable {s s' r : PlainStage α}

/-- What the first stage does alone and apart from the layer is not seen. -/
theorem alone (h : Mirrors b pairs s r) (now : s'.now = s.now) (cell : s'.cell? b = s.cell? b)
    (followed : b ∈ s'.followed ↔ b ∈ s.followed)
    (timers : s'.timers.filter (Timer.concerns b) = s.timers.filter (Timer.concerns b))
    (number : s.nextId ≤ s'.nextId) : Mirrors b pairs s' r where
  now := now.trans h.now
  cell := by
    rw [cell]
    exact h.cell
  followed := followed.trans h.followed
  timers := by
    rw [timers]
    exact h.timers
  paired := h.paired
  drawn := fun c d mem => ⟨Nat.lt_of_lt_of_le (h.drawn c d mem).1 number, (h.drawn c d mem).2⟩
  told := h.told

/-! ## §4 What the first stage does alone -/

section Alone

theorem follow_alone (h : Mirrors b pairs s r) {id : LayerId} (other : id ≠ b) :
    Mirrors b pairs (s.follow id) r := by
  refine h.alone (Stage.now_follow s id) (Stage.cell?_follow s id b) ?_
    (by rw [Stage.timers_follow]) (Nat.le_of_eq (Stage.nextId_follow s id).symm)
  rw [Stage.mem_followed_follow]
  exact or_iff_right other.symm

theorem modifyCell_alone (h : Mirrors b pairs s r) {id : LayerId} (other : id ≠ b)
    (f : Cell α → Option (Cell α)) : Mirrors b pairs (s.modifyCell id f) r := by
  refine h.alone rfl ?_ Iff.rfl rfl (Nat.le_refl _)
  rw [Stage.cell?_modifyCell, if_neg other]

theorem drawId_alone (h : Mirrors b pairs s r) : Mirrors b pairs s.drawId r :=
  h.alone rfl rfl Iff.rfl rfl (Nat.le_succ _)

theorem fire_alone (h : Mirrors b pairs s r) {c : Completion α} (other : c.layer ≠ b)
    (ending : Ending) : Mirrors b pairs (s.fire c ending).1 r := by
  unfold Stage.fire
  split
  · exact h
  · split
    · exact h.modifyCell_alone other _
    · exact h

variable [Scalar α]

theorem enqueue_alone (h : Mirrors b pairs s r) (after : α) {job : Job α Empty}
    (other : job.layer ≠ b) : Mirrors b pairs (s.enqueue after job) r := by
  refine h.alone rfl rfl Iff.rfl ?_ (Nat.le_refl _)
  apply Timer.filter_insert_of_neg
  rw [Timer.concerns_iff]
  exact other

theorem animate_alone (h : Mirrors b pairs s r) {id : LayerId} (other : id ≠ b) (a : Animation α) :
    Mirrors b pairs (s.animate id a).1 r := by
  unfold Stage.animate Stage.attach
  cases s.writable? id with
  | none => exact h.drawId_alone
  | some l =>
    have hset : Mirrors b pairs (s.drawId.setLayer id (l.attach s.nextId s.now a).1) r :=
      h.drawId_alone.modifyCell_alone other _
    exact (hset.follow_alone other).enqueue_alone _ other

theorem perform_alone (h : Mirrors b pairs s r) {id : LayerId} (other : id ≠ b)
    (intents : List (Intent α)) (duration : α) (easing : Easing α) :
    Mirrors b pairs (s.perform id intents duration easing).1 r := by
  unfold Stage.perform
  cases s.readable? id with
  | none => exact h
  | some l => exact h.animate_alone other _

theorem start_alone (h : Mirrors b pairs s r) {job : Job α Empty} (other : job.layer ≠ b) :
    Mirrors b pairs (Stage.start PlainStage.exec job s).1 r := by
  cases job with
  | completion c =>
    have hfire := h.fire_alone other .finished
    unfold Stage.start
    dsimp only
    split <;> next e => rwa [e] at hfire
  | deferred d => exact h.perform_alone other _ _ _
  | routine r => exact r.elim

theorem motion_alone (h : Mirrors b pairs s r) {id : LayerId} (other : id ≠ b)
    (intents : List (Intent α)) (o : Options α) : Mirrors b pairs (s.motion id intents o).1 r := by
  unfold Stage.motion
  split
  · exact h.enqueue_alone _ other
  · exact h.perform_alone other _ _ _

/-- An interruption that finds no completion for the layer. -/
theorem interrupt_alone (h : Mirrors b pairs s r) {id : AnimationId}
    (other : ∀ u ∈ s.timers, u.isCompletionOf id → u.job.layer ≠ b) :
    Mirrors b pairs (s.interrupt id).1 r := by
  rcases Stage.interrupt_cases s id with ⟨-, hsame⟩ | ⟨u, c, hfound, hc, hdone, -⟩
  · rwa [hsame]
  · have hmem := List.mem_of_find?_eq_some hfound
    have hother : c.layer ≠ b := by
      have hu := other u hmem (List.find?_some hfound)
      rwa [hc] at hu
    -- The job that is taken back is none of those that concern the layer.
    have hcancel : Mirrors b pairs (s.cancel id) r := by
      refine h.alone rfl rfl Iff.rfl ?_ (Nat.le_refl _)
      apply Timer.filter_eraseP_of_not
      intro v hv hid
      rw [Timer.concerns_iff]
      exact other v hv hid
    rcases hdone with ⟨n, hfired⟩ | ⟨-, hheld⟩
    · have hfire := hcancel.fire_alone hother .interrupted
      rwa [hfired] at hfire
    · rw [hheld]
      exact hcancel.enqueue_alone _ hother

end Alone

/-! ## §5 What both stages do -/

/-- The layer is gone from both stages, or stands on both. -/
theorem cell_cases (h : Mirrors b pairs s r) :
    (s.cell? b = none ∧ r.cell? b = none) ∨
    ∃ x y, s.cell? b = some x ∧ r.cell? b = some y ∧ x.Alike pairs y := by
  have hcell := h.cell
  cases hs : s.cell? b with
  | none =>
    cases hr : r.cell? b with
    | none => exact .inl ⟨rfl, rfl⟩
    | some y => rw [hs, hr] at hcell; cases hcell
  | some x =>
    cases hr : r.cell? b with
    | none => rw [hs, hr] at hcell; cases hcell
    | some y =>
      rw [hs, hr] at hcell
      cases hcell with
      | some hxy => exact .inr ⟨x, y, rfl, rfl, hxy⟩

theorem readable? (h : Mirrors b pairs s r) :
    Option.Rel (Layer.Alike pairs) (s.readable? b) (r.readable? b) := by
  unfold Stage.readable?
  rcases h.cell_cases with ⟨hs, hr⟩ | ⟨x, y, hs, hr, hxy⟩
  · rw [hs, hr]
    exact .none
  · rw [hs, hr]
    dsimp only
    rw [hxy.hold]
    split
    · exact .some hxy.layer
    · exact .none

theorem writable? (h : Mirrors b pairs s r) :
    Option.Rel (Layer.Alike pairs) (s.writable? b) (r.writable? b) := by
  unfold Stage.writable?
  rcases h.cell_cases with ⟨hs, hr⟩ | ⟨x, y, hs, hr, hxy⟩
  · rw [hs, hr]
    exact .none
  · rw [hs, hr]
    dsimp only
    rw [hxy.hold]
    split
    · exact .some hxy.layer
    · exact .none

/-- A change of the layer on both stages that leaves it alike. -/
theorem modifyCell (h : Mirrors b pairs s r) {f g : Cell α → Option (Cell α)}
    (alike : ∀ x y, s.cell? b = some x → r.cell? b = some y → Cell.Alike pairs x y →
      Option.Rel (Cell.Alike pairs) (f x) (g y)) :
    Mirrors b pairs (s.modifyCell b f) (r.modifyCell b g) where
  now := h.now
  cell := by
    rw [Stage.cell?_modifyCell, Stage.cell?_modifyCell, if_pos rfl, if_pos rfl]
    rcases h.cell_cases with ⟨hs, hr⟩ | ⟨x, y, hs, hr, hxy⟩
    · rw [hs, hr]
      exact .none
    · rw [hs, hr]
      exact alike x y hs hr hxy
  followed := h.followed
  timers := h.timers
  paired := h.paired
  drawn := h.drawn
  told := h.told

theorem setHold (h : Mirrors b pairs s r) (hold : Hold) :
    Mirrors b pairs (s.setHold b hold) (r.setHold b hold) := by
  refine h.modifyCell fun x y _ _ hxy => ?_
  rw [hxy.owned]
  split
  · exact .none
  · exact .some ⟨rfl, rfl, hxy.layer⟩

theorem dropLayer (h : Mirrors b pairs s r) :
    Mirrors b pairs (s.dropLayer b) (r.dropLayer b) := by
  refine h.modifyCell fun x y _ _ hxy => ?_
  rw [hxy.hold]
  split
  · exact .none
  · exact .some ⟨rfl, rfl, hxy.layer⟩

theorem sync (h : Mirrors b pairs s r) : Mirrors b pairs s.sync r.sync where
  now := h.now
  cell := by
    rw [Stage.cell?_sync, Stage.cell?_sync, ← h.now]
    by_cases hb : b ∈ s.followed
    · rw [if_pos hb, if_pos (h.followed.mp hb)]
      rcases h.cell_cases with ⟨hs, hr⟩ | ⟨x, y, hs, hr, hxy⟩
      · rw [hs, hr]
        exact .none
      · rw [hs, hr]
        exact .some (hxy.sync s.now)
    · rw [if_neg hb, if_neg fun hr => hb (h.followed.mpr hr)]
      exact h.cell
  followed := by
    have halive : s.isAlive b = r.isAlive b := by
      rcases h.cell_cases with ⟨hs, hr⟩ | ⟨x, y, hs, hr, -⟩ <;>
        rw [Stage.isAlive, Stage.isAlive, hs, hr]
      rfl
    show b ∈ s.followed.filter s.isAlive ↔ b ∈ r.followed.filter r.isAlive
    rw [List.mem_filter, List.mem_filter, h.followed, halive]
  timers := h.timers
  paired := h.paired
  drawn := h.drawn
  told := h.told

/-- A completion fires alike on both stages, or is refused on both. -/
theorem fire (h : Mirrors b pairs s r) {c d : Completion α} (mem : (c, d) ∈ pairs)
    (ending : Ending) :
    Mirrors b pairs (s.fire c ending).1 (r.fire d ending).1 ∧
      ((∃ m n, (s.fire c ending).2 = .ok m ∧ (r.fire d ending).2 = .ok n) ∨
        (s.fire c ending).2 = .error c ∧ (r.fire d ending).2 = .error d) := by
  obtain ⟨rfl, hd, hsame⟩ := h.paired c d mem
  unfold Stage.fire
  rw [hd]
  rcases h.cell_cases with ⟨hs, hr⟩ | ⟨x, y, hs, hr, hxy⟩
  · rw [hs, hr]
    exact ⟨h, .inl ⟨0, 0, rfl, rfl⟩⟩
  · rw [hs, hr]
    dsimp only
    rw [hxy.hold]
    split
    · refine ⟨h.modifyCell fun x' y' _ _ hxy' => ?_, .inl ⟨_, _, rfl, rfl⟩⟩
      exact .some ⟨hxy'.hold, hxy'.owned, hxy.layer.commit mem hsame⟩
    · exact ⟨h, .inr ⟨rfl, rfl⟩⟩

/-- A pair is cancelled on both stages, if no other animation has the number. -/
theorem cancel (h : Mirrors b pairs s r) {c d : Completion α} (mem : (c, d) ∈ pairs)
    (own : ∀ u ∈ s.timers, u.isCompletionOf c.id → u.job.layer = b) :
    Option.Rel (Timer.Alike b pairs) (s.timers.find? (Timer.isCompletionOf c.id))
        (r.timers.find? (Timer.isCompletionOf d.id)) ∧
      Mirrors b pairs (s.cancel c.id) (r.cancel d.id) := by
  have himp : ∀ u ∈ s.timers, u.isCompletionOf c.id → u.concerns b :=
    fun u hu hid => Timer.concerns_iff.mpr (own u hu hid)
  -- The two stages look for different numbers, and find what belongs together.
  have hsame : ∀ u v : Timer α Empty, u.Alike b pairs v →
      u.isCompletionOf c.id = v.isCompletionOf d.id := by
    rintro ⟨due, seq, job⟩ ⟨due', seq', job'⟩ ⟨-, hjob⟩
    cases hjob with
    | completion mem' =>
      apply Bool.eq_iff_iff.mpr
      simp only [Timer.isCompletionOf, beq_iff_eq]
      exact h.told c d _ _ mem mem'
    | deferred layer => rfl
  rw [← Timer.find?_filter_of_imp himp]
  refine ⟨find?_of_forall₂ h.timers hsame, ?_⟩
  exact {
    now := h.now
    cell := h.cell
    followed := h.followed
    timers := by
      show List.Forall₂ _ ((s.timers.eraseP _).filter _) (r.timers.eraseP _)
      rw [Timer.filter_eraseP_of_imp himp]
      exact eraseP_of_forall₂ h.timers hsame
    paired := h.paired
    drawn := h.drawn
    told := h.told }

theorem follow (h : Mirrors b pairs s r) : Mirrors b pairs (s.follow b) (r.follow b) where
  now := by rw [Stage.now_follow, Stage.now_follow, h.now]
  cell := by
    rw [Stage.cell?_follow, Stage.cell?_follow]
    exact h.cell
  followed := by simp only [Stage.mem_followed_follow, true_or]
  timers := by
    rw [Stage.timers_follow, Stage.timers_follow]
    exact h.timers
  paired := h.paired
  drawn := by
    rw [Stage.nextId_follow, Stage.nextId_follow]
    exact h.drawn
  told := h.told

theorem drawId (h : Mirrors b pairs s r) : Mirrors b pairs s.drawId r.drawId where
  now := h.now
  cell := h.cell
  followed := h.followed
  timers := h.timers
  paired := h.paired
  drawn := fun c d mem =>
    ⟨Nat.lt_succ_of_lt (h.drawn c d mem).1, Nat.lt_succ_of_lt (h.drawn c d mem).2⟩
  told := h.told

/-- The next numbers of both stages belong together when an animation begins on the layer. -/
theorem pair (h : Mirrors b pairs s r) {l l' : Layer α} {a : Animation α}
    (layers : l.Alike (pairs ++ [(⟨b, s.nextId, a⟩, ⟨b, r.nextId, a⟩)]) l') :
    Mirrors b (pairs ++ [(⟨b, s.nextId, a⟩, ⟨b, r.nextId, a⟩)])
      (s.drawId.setLayer b l) (r.drawId.setLayer b l') where
  now := h.now
  cell := by
    rw [Stage.cell?_setLayer, Stage.cell?_setLayer, if_pos rfl, if_pos rfl, Stage.cell?_drawId,
      Stage.cell?_drawId]
    rcases h.cell_cases with ⟨hs, hr⟩ | ⟨x, y, hs, hr, hxy⟩
    · rw [hs, hr]
      exact .none
    · rw [hs, hr]
      exact .some ⟨hxy.hold, hxy.owned, layers⟩
  followed := h.followed
  timers := h.timers.imp fun _ _ huv => huv.mono (List.subset_append_left _ _)
  paired := by
    intro c d mem
    rcases List.mem_append.mp mem with mem | mem
    · exact h.paired c d mem
    · obtain ⟨rfl, rfl⟩ := Prod.mk.inj (List.mem_singleton.mp mem)
      exact ⟨rfl, rfl, rfl⟩
  drawn := by
    intro c d mem
    rcases List.mem_append.mp mem with mem | mem
    · exact ⟨Nat.lt_succ_of_lt (h.drawn c d mem).1, Nat.lt_succ_of_lt (h.drawn c d mem).2⟩
    · obtain ⟨rfl, rfl⟩ := Prod.mk.inj (List.mem_singleton.mp mem)
      exact ⟨Nat.lt_succ_self _, Nat.lt_succ_self _⟩
  told := by
    intro c d c' d' mem mem'
    -- New numbers are different from those that were drawn before.
    rcases List.mem_append.mp mem with mem | mem <;> rcases List.mem_append.mp mem' with mem' | mem'
    · exact h.told c d c' d' mem mem'
    · obtain ⟨rfl, rfl⟩ := Prod.mk.inj (List.mem_singleton.mp mem')
      obtain ⟨hc, hd⟩ := h.drawn c d mem
      exact ⟨fun e => absurd e (Nat.ne_of_gt hc), fun e => absurd e (Nat.ne_of_gt hd)⟩
    · obtain ⟨rfl, rfl⟩ := Prod.mk.inj (List.mem_singleton.mp mem)
      obtain ⟨hc, hd⟩ := h.drawn c' d' mem'
      exact ⟨fun e => absurd e (Nat.ne_of_lt hc), fun e => absurd e (Nat.ne_of_lt hd)⟩
    · obtain ⟨rfl, rfl⟩ := Prod.mk.inj (List.mem_singleton.mp mem)
      obtain ⟨rfl, rfl⟩ := Prod.mk.inj (List.mem_singleton.mp mem')
      exact ⟨fun _ => rfl, fun _ => rfl⟩

variable [Scalar α]

theorem moveClock (h : Mirrors b pairs s r) (t : α) :
    Mirrors b pairs (s.moveClock t) (r.moveClock t) where
  now := congrArg (Scalar.larger · t) h.now
  cell := h.cell
  followed := h.followed
  timers := h.timers
  paired := h.paired
  drawn := h.drawn
  told := h.told

variable [LawfulTime α]

/-- A job for the layer that is registered on both stages. -/
theorem enqueue (h : Mirrors b pairs s r) (timely : s.Timely) (after : α) {j k : Job α Empty}
    (job : j.Alike b pairs k) : Mirrors b pairs (s.enqueue after j) (r.enqueue after k) where
  now := h.now
  cell := h.cell
  followed := h.followed
  timers := by
    have hlayer : j.layer = b := by
      cases job with
      | completion mem => exact (h.paired _ _ mem).1
      | deferred layer => exact layer
    have hnew : Timer.Alike b pairs ⟨s.now + Stage.wait after, s.seq + 1, j⟩
        ⟨r.now + Stage.wait after, r.seq + 1, k⟩ := ⟨congrArg (· + Stage.wait after) h.now, job⟩
    -- The other stage has no other jobs, so the new one stands among those for the layer as it
    -- stands there.
    have hfilter := Timer.filter_insert_of_pos
      (t := ⟨s.now + Stage.wait after, s.seq + 1, j⟩) (Timer.concerns_iff.mpr hlayer) timely.sorted
    show List.Forall₂ _ ((Timer.insert _ s.timers).filter _) (Timer.insert _ r.timers)
    rw [hfilter]
    exact hnew.insert h.timers
  paired := h.paired
  drawn := h.drawn
  told := h.told

/-- An animation that is attached on both stages brings one pair more. -/
theorem attach (h : Mirrors b pairs s r) (timely : s.Timely) {l l' : Layer α}
    (layers : l.Alike pairs l') (after : α) (a : Animation α) :
    Mirrors b (pairs ++ [(⟨b, s.nextId, (l.attach s.nextId s.now a).2⟩,
        ⟨b, r.nextId, (l'.attach r.nextId r.now a).2⟩)])
      ((s.drawId.setLayer b (l.attach s.nextId s.now a).1).enqueueCompletion after
        ⟨b, s.nextId, (l.attach s.nextId s.now a).2⟩)
      ((r.drawId.setLayer b (l'.attach r.nextId r.now a).1).enqueueCompletion after
        ⟨b, r.nextId, (l'.attach r.nextId r.now a).2⟩) := by
  have hsame := Layer.animation_attach_congr layers.anonymous s.nextId r.nextId s.now a
  have hlayers := layers.attach (m := s.nextId) (n := r.nextId)
    (fun c d mem => ⟨Nat.ne_of_lt (h.drawn c d mem).1, Nat.ne_of_lt (h.drawn c d mem).2⟩) b s.now a
  rw [← h.now]
  rw [← hsame] at hlayers ⊢
  have hpair := (h.pair hlayers).follow
  have htimely : (s.drawId.setLayer b (l.attach s.nextId s.now a).1).Timely :=
    timely.mono rfl (List.Sublist.refl _)
  exact hpair.enqueue (htimely.follow b) after (.completion (List.mem_append_right _ List.mem_cons_self))

/-- An animation is started alike on both stages. -/
theorem animate (h : Mirrors b pairs s r) (timely : s.Timely) (a : Animation α) :
    ∃ more, Mirrors b (pairs ++ more) (s.animate b a).1 (r.animate b a).1 ∧
      more.map Prod.fst = (s.attached? b a).toList ∧
      more.map Prod.snd = (r.attached? b a).toList := by
  have hwritable := h.writable?
  unfold Stage.attached? Stage.animate Stage.attach
  generalize s.writable? b = o at hwritable ⊢
  generalize r.writable? b = o' at hwritable ⊢
  cases hwritable with
  | none =>
    refine ⟨[], ?_, rfl, rfl⟩
    rw [List.append_nil]
    exact h.drawId
  | some layers => exact ⟨_, h.attach timely layers (Stage.completionDelay a) a, rfl, rfl⟩

/-- So is a motion. -/
theorem perform (h : Mirrors b pairs s r) (timely : s.Timely) (intents : List (Intent α))
    (duration : α) (easing : Easing α) :
    ∃ more, Mirrors b (pairs ++ more) (s.perform b intents duration easing).1
        (r.perform b intents duration easing).1 ∧
      more.map Prod.fst = (s.performed? b intents duration easing).toList ∧
      more.map Prod.snd = (r.performed? b intents duration easing).toList := by
  have hreadable := h.readable?
  unfold Stage.performed? Stage.perform
  generalize s.readable? b = o at hreadable ⊢
  generalize r.readable? b = o' at hreadable ⊢
  cases hreadable with
  | none =>
    refine ⟨[], ?_, rfl, rfl⟩
    rw [List.append_nil]
    exact h
  | @some l l' layers =>
    -- The intents are compiled alike, since the layers hold the same opacity.
    have hcompile : l.compile intents = l'.compile intents := by
      have hvalues := (Layer.anonymous_eq_iff.mp layers.anonymous).1
      rw [Layer.compile, Layer.compile, hvalues]
    dsimp only
    rw [Option.bind_some, Option.bind_some, ← hcompile]
    exact h.animate timely _

/-- The jobs of timers that are alike start alike on both stages; a completion that is refused is
refused together with its pair. -/
theorem start (h : Mirrors b pairs s r) (timely : s.Timely) {u v : Timer α Empty}
    (alike : u.Alike b pairs v) :
    (∃ more, Mirrors b (pairs ++ more) (Stage.start PlainStage.exec u.job s).1
        (Stage.start PlainStage.exec v.job r).1 ∧
      more.map Prod.fst = (PlainStage.startedBy s u.job).toList ∧
      more.map Prod.snd = (PlainStage.startedBy r v.job).toList) ∧
    List.Forall₂ (fun c d => (c, d) ∈ pairs)
      (Firing.refused? ⟨u.due, u.seq, (Stage.start PlainStage.exec u.job s).2⟩).toList
      (Firing.refused? ⟨v.due, v.seq, (Stage.start PlainStage.exec v.job r).2⟩).toList := by
  obtain ⟨due, seq, job⟩ := u
  obtain ⟨due', seq', job'⟩ := v
  obtain ⟨-, hjob⟩ := alike
  -- A commit pairs nothing new; a motion draws a number on either side, and these two make a new
  -- pair.
  cases hjob with
  | @completion c d mem =>
    obtain ⟨hstage, hresult⟩ := h.fire mem .finished
    unfold Stage.start
    dsimp only
    generalize s.fire c .finished = x at hstage hresult ⊢
    generalize r.fire d .finished = y at hstage hresult ⊢
    obtain ⟨s', result⟩ := x
    obtain ⟨r', result'⟩ := y
    rcases hresult with ⟨m, n, rfl, rfl⟩ | ⟨rfl, rfl⟩
    · exact ⟨⟨[], by rwa [List.append_nil], rfl, rfl⟩, .nil⟩
    · exact ⟨⟨[], by rwa [List.append_nil], rfl, rfl⟩, .cons mem .nil⟩
  | @deferred d layer =>
    obtain rfl := layer
    exact ⟨h.perform timely d.intents d.duration d.easing, .nil⟩

/-- A motion is made or put off alike on both stages. -/
theorem motion (h : Mirrors b pairs s r) (timely : s.Timely) (intents : List (Intent α))
    (o : Options α) :
    ∃ more, Mirrors b (pairs ++ more) (s.motion b intents o).1 (r.motion b intents o).1 ∧
      more.map Prod.fst = ((Operation.motion b intents o).attached s) ∧
      more.map Prod.snd = ((Operation.motion b intents o).attached r) := by
  simp only [Stage.motion, Operation.attached]
  split
  · refine ⟨[], ?_, rfl, rfl⟩
    rw [List.append_nil]
    exact h.enqueue timely _ (.deferred rfl)
  · exact h.perform timely _ _ _

/-- So an interruption of a pair is the same on both stages. -/
theorem interrupt (h : Mirrors b pairs s r) (timely : s.Timely) {c d : Completion α}
    (mem : (c, d) ∈ pairs) (own : ∀ u ∈ s.timers, u.isCompletionOf c.id → u.job.layer = b) :
    Mirrors b pairs (s.interrupt c.id).1 (r.interrupt d.id).1 := by
  obtain ⟨hfound, hcancel⟩ := h.cancel mem own
  have htimely : (s.cancel c.id).Timely := timely.mono rfl List.eraseP_sublist
  unfold Stage.interrupt
  generalize s.timers.find? (Timer.isCompletionOf c.id) = o at hfound ⊢
  generalize r.timers.find? (Timer.isCompletionOf d.id) = o' at hfound ⊢
  cases hfound with
  | none => exact h
  | @some u v alike =>
    obtain ⟨due, seq, job⟩ := u
    obtain ⟨due', seq', job'⟩ := v
    obtain ⟨-, hjob⟩ := alike
    cases hjob with
    | deferred layer => exact h
    | @completion c' d' mem' =>
      obtain ⟨hstage, hresult⟩ := hcancel.fire mem' .interrupted
      have htimely' : ((s.cancel c.id).fire c' .interrupted).1.Timely :=
        htimely.mono (Stage.now_fire _ _ _) (by rw [Stage.timers_fire])
      dsimp only
      generalize (s.cancel c.id).fire c' .interrupted = x at hstage hresult htimely' ⊢
      generalize (r.cancel d.id).fire d' .interrupted = y at hstage hresult ⊢
      obtain ⟨s', result⟩ := x
      obtain ⟨r', result'⟩ := y
      -- What was refused waits again.
      rcases hresult with ⟨m, n, rfl, rfl⟩ | ⟨rfl, rfl⟩
      · exact hstage
      · exact hstage.enqueue htimely' 0.0 (.completion mem')

end Mirrors

end LayerAnimation
