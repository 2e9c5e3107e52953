import LayerAnimation.Proofs.Attachments
import LayerAnimation.Proofs.Double.Zeros
import LayerAnimation.Proofs.Finiteness

/-!
# No jump at the start

When an animation is attached to a layer, what the layer shows does not change at that moment: a
track without a start of its own begins where the screen is, and nothing else is touched.  The
statement is about doubles as programs compute with them; a zero may change its sign on the way, so
values are the same in the sense of the program's own comparison.

- `Value.lerp_of_isZero` is the beginning of the way from one value to another, of any kinds.
- `Playback.value?_begin` says what a track shows when it begins, along any curve and with any fill.
- `Stage.animate_continuous` is the statement for a whole stage.
-/

namespace LayerAnimation

variable {κ σ : Type}

open Double

/-! ## §1 Comparing values -/

/-- Points are compared coordinate by coordinate. -/
theorem Point.beq_iff {p q : Point Float} :
    (p == q) = true ↔ (p.x == q.x) = true ∧ (p.y == q.y) = true :=
  Bool.and_eq_true_iff

theorem Color.beq_iff {c d : Color Float} : (c == d) = true ↔
    (c.r == d.r) = true ∧ (c.g == d.g) = true ∧ (c.b == d.b) = true ∧ (c.a == d.a) = true := by
  have hbeq : (c == d) = (c.r == d.r && (c.g == d.g && (c.b == d.b && c.a == d.a))) := rfl
  simp only [hbeq, Bool.and_eq_true]

/-- Transforms are compared entry by entry. -/
theorem Transform.beq_iff {m n : Transform Float} :
    (m == n) = true ↔ ∀ i (hi : i < 16), (m.entries[i] == n.entries[i]) = true :=
  Vector.isEqv_iff_rel

theorem Point.beq_self {p : Point Float} (h : ∀ x ∈ p.numbers, x.isFinite = true) :
    (p == p) = true := by
  obtain ⟨hx, hy⟩ := Point.forall_mem_numbers.mp h
  exact Point.beq_iff.mpr ⟨beq_self_of_isFinite hx, beq_self_of_isFinite hy⟩

/-- A piece of an outline whose numbers are finite equals itself. -/
theorem PathElement.beq_self {e : PathElement Float} (h : ∀ x ∈ e.numbers, x.isFinite = true) :
    (e == e) = true := by
  cases e with
  | moveTo p => exact Point.beq_self h
  | lineTo p => exact Point.beq_self h
  | quadTo q p =>
    obtain ⟨hq, hp⟩ := List.forall_mem_append.mp h
    exact Bool.and_eq_true_iff.mpr ⟨Point.beq_self hq, Point.beq_self hp⟩
  | curveTo q r p =>
    obtain ⟨hqr, hp⟩ := List.forall_mem_append.mp h
    obtain ⟨hq, hr⟩ := List.forall_mem_append.mp hqr
    exact Bool.and_eq_true_iff.mpr ⟨Point.beq_self hq,
      Bool.and_eq_true_iff.mpr ⟨Point.beq_self hr, Point.beq_self hp⟩⟩
  | close => rfl

theorem Path.beq_self {p : Path Float} (h : ∀ e ∈ p, ∀ x ∈ e.numbers, x.isFinite = true) :
    (p == p) = true := by
  induction p with
  | nil => rfl
  | cons e es ih =>
    obtain ⟨he, hes⟩ := List.forall_mem_cons.mp h
    exact Bool.and_eq_true_iff.mpr ⟨PathElement.beq_self he, ih hes⟩

namespace Value

theorem point_beq_point (p q : Point Float) : (Value.point p == .point q) = (p == q) := rfl

theorem color_beq_color (c d : Color Float) : (Value.color c == .color d) = (c == d) := rfl

theorem transform_beq_transform (m n : Transform Float) :
    (Value.transform m == .transform n) = (m == n) := rfl

end Value

/-- A value made of finite numbers is the same as itself. -/
theorem Value.beq_self {v : Value Float} (h : v.Finite) : (v == v) = true := by
  cases v with
  | scalar x => exact beq_self_of_isFinite (h x List.mem_cons_self)
  | point p => exact Point.beq_self h
  | color c =>
    obtain ⟨hr, hg, hb, ha⟩ := Color.forall_mem_numbers.mp h
    exact Color.beq_iff.mpr ⟨beq_self_of_isFinite hr, beq_self_of_isFinite hg,
      beq_self_of_isFinite hb, beq_self_of_isFinite ha⟩
  | transform m =>
    refine Transform.beq_iff.mpr fun i hi => beq_self_of_isFinite (h _ ?_)
    simp [numbers, Transform.numbers]
  | path p => exact Path.beq_self (List.forall_mem_flatMap.mp h)

/-! ## §2 The beginning of the way -/

section Differences

variable {α : Type} [Scalar α]

/-- By how much the numbers of a value fall short of those of another one.  Where there is no way
from one to the other there is nothing to list. -/
def Value.differences : Value α → Value α → List α
  | .scalar x, .scalar y => [y - x]
  | .point p, .point q => [q.x - p.x, q.y - p.y]
  | .color c, .color d => [d.r - c.r, d.g - c.g, d.b - c.b, d.a - c.a]
  | .transform m, .transform n => (Vector.zipWith (fun x y => y - x) m.entries n.entries).toList
  | _, _ => []

end Differences

/-- At the beginning nothing of the way from one number to another is gone. -/
theorem Scalar.lerp_of_isZero {a b t : Float} (ha : a.isFinite = true)
    (hd : (b - a).isFinite = true) (ht : IsZero t) : (Scalar.lerp a b t == a) = true :=
  beq_add_of_isZero ha (isZero_mul hd ht)

/-- The way from one value to another begins at the one, of whatever kinds they are. -/
theorem Value.lerp_of_isZero {a b : Value Float} {t : Float} (ha : a.Finite)
    (hd : ∀ x ∈ a.differences b, x.isFinite = true) (ht : IsZero t) : (a.lerp b t == a) = true := by
  have hbegin : ¬ (1.0 : Float) ≤ t := by
    have hone : placeOf? (1.0 : Float) = some (Double.point 1) := placeOf?_one
    rw [le_iff_of_placeOf? hone ht.placeOf?, point_le_point]
    norm_num
  cases a <;> cases b <;> simp only [Value.lerp, if_neg hbegin]
  case scalar.scalar x y =>
    exact Scalar.lerp_of_isZero (ha x List.mem_cons_self) (hd _ List.mem_cons_self) ht
  case point.point p q =>
    obtain ⟨hx, hy⟩ := Point.forall_mem_numbers.mp ha
    obtain ⟨hdx, hdy⟩ := Point.forall_mem_numbers (b := ⟨_, _⟩).mp hd
    rw [point_beq_point]
    exact Point.beq_iff.mpr ⟨Scalar.lerp_of_isZero hx hdx ht, Scalar.lerp_of_isZero hy hdy ht⟩
  case color.color c d =>
    obtain ⟨hr, hg, hb, ha⟩ := Color.forall_mem_numbers.mp ha
    obtain ⟨hdr, hdg, hdb, hda⟩ := Color.forall_mem_numbers (c := ⟨_, _, _, _⟩).mp hd
    rw [color_beq_color]
    exact Color.beq_iff.mpr ⟨Scalar.lerp_of_isZero hr hdr ht, Scalar.lerp_of_isZero hg hdg ht,
      Scalar.lerp_of_isZero hb hdb ht, Scalar.lerp_of_isZero ha hda ht⟩
  case transform.transform m n =>
    rw [transform_beq_transform]
    refine Transform.beq_iff.mpr fun i hi => ?_
    have hentry : m.entries[i] ∈ (Value.transform m).numbers := by
      simp [numbers, Transform.numbers]
    have hdifference : n.entries[i] - m.entries[i]
        ∈ (Value.transform m).differences (.transform n) := by
      rw [differences, Vector.mem_toList_iff, Vector.mem_iff_getElem]
      exact ⟨i, hi, Vector.getElem_zipWith ..⟩
    rw [Transform.lerp, Vector.getElem_zipWith]
    exact Scalar.lerp_of_isZero (ha _ hentry) (hd _ hdifference) ht
  -- Between different kinds, and between outlines, nothing moves before the end.
  all_goals exact Value.beq_self ha

/-- Every curve begins at zero. -/
theorem Easing.apply_of_isZero (e : Easing Float) {t : Float} (h : IsZero t) : e.apply t = t := by
  have hzero : (t == 0.0) = true := Double.beq_iff.mpr ⟨_, _, h.placeOf?, placeOf?_zero, rfl⟩
  simp only [apply, clamp_of_isZero h, hzero, Bool.true_or, ↓reduceIte]

/-! ## §3 Tracks that begin -/

namespace Playback

variable {p : Playback Float}

/-- A track that leads ahead has gone nothing of its way when it begins. -/
theorem isZero_progress_begin (ahead : p.begin < p.begin + p.duration) :
    IsZero (p.progress p.begin) := by
  have hduration : (0.0 : Float) < p.duration := zero_lt_of_lt_add ahead
  have hquotient : IsZero ((p.begin - p.begin) / p.duration) :=
    isZero_div (isZero_sub_self (isFinite_of_lt_add ahead)) hduration
  rw [progress, if_neg (LawfulTime.lt_iff.mp hduration).2, clamp_of_isZero hquotient]
  exact hquotient

/-- When a track begins it shows its start. -/
theorem value?_begin (ahead : p.begin < p.begin + p.duration) {v w : Value Float}
    (start : p.track.start = some v) (goal : p.track.goal = some w) (finite : v.Finite)
    (differences : ∀ x ∈ v.differences w, x.isFinite = true) :
    ∃ v', p.value? p.begin = some v' ∧ (v' == v) = true := by
  have hover : p.isOver p.begin = false := decide_eq_false (LawfulTime.lt_iff.mp ahead).2
  have hbegin := isZero_progress_begin ahead
  refine ⟨v.lerp w (p.easing.apply (p.progress p.begin)), ?_, ?_⟩
  · simp only [value?, goal, start, hover, Bool.false_and, Bool.false_eq_true, ↓reduceIte,
      Option.getD_some]
  · rw [Easing.apply_of_isZero _ hbegin]
    exact Value.lerp_of_isZero finite differences hbegin

end Playback

/-! ## §4 The statement -/

namespace Stage

/-- The start of an animation does not show.  What it does not name is shown as before.  Where the
last track that names an attribute has a goal but no start, and leads ahead, the value on screen stays
the same, whatever was running there, whatever is to run now, and of whatever kinds the two values
are.  The numbers of the value on screen are finite, and so is what lies between them and the goal. -/
theorem animate_continuous {s : Stage Float κ σ} {id : LayerId} {cell : Cell Float}
    (alive : s.cell? id = some cell) (free : cell.hold = .free) (synced : cell.layer.clock = s.now)
    (a : Animation Float) :
    ∃ s' l, s.animate id a = (s', some s.nextId) ∧ s'.cell? id = some { cell with layer := l } ∧
      (∀ k, ¬ a.names k → l.presented? k = cell.layer.presented? k) ∧
      ∀ k t v w, a.lastTrack? k = some t → t.start = none → t.goal = some w →
        s.now < s.now + a.resolvedDuration t →
        cell.layer.presented? k = some v → v.Finite →
        (∀ x ∈ v.differences w, x.isFinite = true) →
        ∃ v', l.presented? k = some v' ∧ (v' == v) = true := by
  have hwritable : s.writable? id = some cell.layer :=
    writable?_eq_some_iff.mpr ⟨cell, alive, free, rfl⟩
  refine ⟨_, (cell.layer.attach s.nextId s.now a).1, animate_of_writable? hwritable a, ?_,
    fun k names => Layer.presented?_attach_of_not_names cell.layer s.nextId synced names, ?_⟩
  · rw [cell?_enqueueCompletion, cell?_setLayer, if_pos rfl, cell?_drawId, alive, Option.map_some]
  · intro k t v w last start goal ahead shown finite differences
    rw [Layer.presented?_attach_of_last cell.layer s.nextId synced last, shown]
    -- The track that runs now starts at the value on screen and begins at this moment.
    generalize hp : a.playback s.nextId s.now (t.startingFrom (some v)) = p
    have hbegin : p.begin = s.now := by rw [← hp, Animation.begin_playback]
    have hduration : p.duration = a.resolvedDuration t := by
      rw [← hp, Animation.duration_playback, Animation.resolvedDuration_startingFrom]
    have htrack : p.track = t.startingFrom (some v) := by rw [← hp, Animation.track_playback]
    have hstart : p.track.start = some v := by rw [htrack, Track.startingFrom, start]; rfl
    have hgoal : p.track.goal = some w := by rw [htrack, ← goal]; rfl
    rw [← hbegin, ← hduration] at ahead
    obtain ⟨v', hv', hsame⟩ := p.value?_begin ahead hstart hgoal finite differences
    exact ⟨v', by rw [← hbegin, hv', Option.some_or], hsame⟩

/-- An animation that takes over the opacity in mid-fade, and leads a number to a point. -/
def takesOver : Animation Float :=
  .group (.assemble [.toward .cornerRadius (.point ⟨1.0, 2.0⟩), .toward .opacity (.scalar 0.25)] 1.0
    .easeIn)

/-- Neither the opacity nor the radius jumps, and the scale is not touched at all. -/
theorem animate_takesOver :
    ∃ s' l, fadingIn.animate 0 takesOver = (s', some 2) ∧
      (s'.cell? 0).map Cell.layer = some l ∧
      (∃ v, l.presented? .opacity = some v ∧ (v == .scalar 0.5) = true) ∧
      (∃ v, l.presented? .cornerRadius = some v ∧ (v == .scalar 0.0) = true) ∧
      l.presented? .scale = some (.scalar 1.0) := by
  obtain ⟨s', l, hanimate, hcell, hothers, hlast⟩ :=
    animate_continuous (show fadingIn.cell? 0 = some _ from rfl) rfl rfl takesOver
  refine ⟨s', l, hanimate, by rw [hcell]; rfl, ?_, ?_, (hothers .scale ?_).trans rfl⟩
  · exact hlast .opacity _ (.scalar 0.5) _ rfl rfl rfl (by decide +kernel) rfl (by decide +kernel)
      (by decide +kernel)
  · exact hlast .cornerRadius _ (.scalar 0.0) _ rfl rfl rfl (by decide +kernel) rfl
      (by decide +kernel) (by decide +kernel)
  · rw [← Animation.lastTrack?_eq_none_iff]
    rfl

end Stage

end LayerAnimation
