import LayerAnimation.Proofs.Ownership
import LayerAnimation.Proofs.Settling

/-!
# The last attachment wins

Completions start in an order that has nothing to do with the order in which animations were
attached: short ones end before long ones, interrupted ones before their time, and those that find
their layer in use wait.  All the same an attribute comes to hold what the last animation that named
it was made for.

- `lastOn?` is the last track of the last attached animation on a layer that names an attribute, and
  `aim?` is the value that it leads to, or the initial one.
- `Stage.Aiming` is the invariant: every attribute of every layer is destined for its aim.  Every
  transition keeps it; committing does not change what an attribute is destined for.
- When nothing waits any more nothing runs either, and every attribute holds what it was destined
  for (`PlainStage.values_settle`).
-/

open LayerAnimation.LawfulTime

namespace LayerAnimation

variable {α κ σ : Type}

/-! ## §1 Aims -/

/-- The last track that names an attribute of a layer, of the last attached animation that does. -/
def lastOn? (journal : List (Completion α)) (id : LayerId) (k : Attribute) : Option (Track α) :=
  journal.reverse.findSome? fun c => if c.layer = id then c.animation.lastTrack? k else none

/-- The value to which the last track that names an attribute leads; a value that was there before
counts where no track does. -/
def aim? (initial : LayerId → Attribute → Option (Value α)) (journal : List (Completion α))
    (id : LayerId) (k : Attribute) : Option (Value α) :=
  match lastOn? journal id k with
  | some t => t.goal
  | none => initial id k

theorem lastOn?_append_singleton (journal : List (Completion α)) (c : Completion α) (id : LayerId)
    (k : Attribute) : lastOn? (journal ++ [c]) id k
      = (if c.layer = id then c.animation.lastTrack? k else none).or (lastOn? journal id k) := by
  rw [lastOn?, List.reverse_append, List.reverse_singleton, List.singleton_append,
    List.findSome?_cons]
  cases if c.layer = id then c.animation.lastTrack? k else none <;> rfl

theorem aim?_append_singleton (initial : LayerId → Attribute → Option (Value α))
    (journal : List (Completion α)) (c : Completion α) (k : Attribute) :
    aim? initial (journal ++ [c]) c.layer k =
      match c.animation.lastTrack? k with
      | some t => t.goal
      | none => aim? initial journal c.layer k := by
  rw [aim?, lastOn?_append_singleton, if_pos rfl]
  cases c.animation.lastTrack? k <;> rfl

theorem aim?_append_of_ne (initial : LayerId → Attribute → Option (Value α))
    (journal : List (Completion α)) {c : Completion α} {id : LayerId} (h : c.layer ≠ id)
    (k : Attribute) : aim? initial (journal ++ [c]) id k = aim? initial journal id k := by
  rw [aim?, lastOn?_append_singleton, if_neg h]
  rfl

namespace Stage

/-! ## §2 The invariant -/

/-- Every attribute of every layer that is alive is destined for its aim. -/
def Aiming (initial : LayerId → Attribute → Option (Value α)) (s : Stage α κ σ)
    (journal : List (Completion α)) : Prop :=
  ∀ id cell, s.cell? id = some cell →
    cell.layer.Aimed ∧ ∀ k, cell.layer.destined? k = aim? initial journal id k

variable {initial : LayerId → Attribute → Option (Value α)} {s s' : Stage α κ σ}
  {journal : List (Completion α)}

theorem Aiming.mono (h : Aiming initial s journal) (layers : KeepsLayers s s') :
    Aiming initial s' journal := by
  intro id cell' hcell'
  obtain ⟨cell, hcell, hvalues, hplaying⟩ := layers id cell' hcell'
  obtain ⟨haimed, hdestined⟩ := h id cell hcell
  refine ⟨?_, fun k => ?_⟩
  · unfold Layer.Aimed
    rw [hplaying]
    exact haimed
  · rw [← hdestined k, Layer.destined?, Layer.destined?, hplaying, hvalues]

/-- A commit brings attributes where they are destined. -/
theorem Aiming.commit (h : Aiming initial s journal) {c : Completion α} {ending : Ending} {n : Nat}
    (fired : s.fire c ending = (s', .ok n)) : Aiming initial s' journal := by
  unfold fire at fired
  split at fired
  · cases fired
    exact h
  · next cell hcell =>
    split at fired
    · cases fired
      obtain ⟨haimed, hdestined⟩ := h c.layer cell hcell
      intro id cell' hcell'
      rw [cell?_setLayer] at hcell'
      split at hcell'
      · next hid =>
        -- On its own layer a commit writes what the attributes were destined for.
        subst hid
        rw [hcell, Option.map_some, Option.some.injEq] at hcell'
        subst hcell'
        refine ⟨haimed.commit c.id c.animation, fun k => ?_⟩
        rw [Layer.destined?_commit haimed, hdestined]
      · exact h id cell' hcell'
    · cases fired

variable [Scalar α]

/-- An attachment destines attributes for its goals. -/
theorem Aiming.attach (h : Aiming initial s journal) {id : LayerId} {l : Layer α} (after : α)
    {a : Animation α} (found : s.writable? id = some l)
    (goals : ∀ t ∈ (l.attach s.nextId s.now a).2.tracks, t.goal.isSome) :
    Aiming initial ((s.drawId.setLayer id (l.attach s.nextId s.now a).1).enqueueCompletion after
      ⟨id, s.nextId, (l.attach s.nextId s.now a).2⟩)
      (journal ++ [⟨id, s.nextId, (l.attach s.nextId s.now a).2⟩]) := by
  obtain ⟨cell, hcell, -, rfl⟩ := writable?_eq_some_iff.mp found
  obtain ⟨haimed, hdestined⟩ := h id cell hcell
  intro j cell' hcell'
  have hset : (s.drawId.setLayer id (cell.layer.attach s.nextId s.now a).1).cell? j
      = some cell' := by
    simpa [enqueueCompletion] using hcell'
  rw [cell?_setLayer, cell?_drawId] at hset
  split at hset
  · next hid =>
    -- The journal and the layer take the same track, the last one that names the attribute.
    subst hid
    rw [hcell, Option.map_some, Option.some.injEq] at hset
    subst hset
    refine ⟨haimed.attach s.nextId s.now goals, fun k => ?_⟩
    rw [Layer.destined?_attach, hdestined]
    exact (aim?_append_singleton initial journal ⟨id, s.nextId, _⟩ k).symm
  · next hid =>
    obtain ⟨haimed', hdestined'⟩ := h j cell' hset
    refine ⟨haimed', fun k => ?_⟩
    rw [hdestined' k]
    exact (aim?_append_of_ne initial journal hid k).symm

/-- Every transition leads attributes to their aims or leaves them alone, if every track that is
attached has a goal. -/
theorem Aiming.transition {hand hand' : Multiset (Completion α)} {c : Option (Completion α)}
    (h : Aiming initial s journal) (t : Transition s hand c s' hand')
    (goals : ∀ d ∈ c.toList, ∀ t ∈ d.animation.tracks, t.goal.isSome) :
    Aiming initial s' (journal ++ c.toList) := by
  cases c with
  | none =>
    -- Nothing is attached, so all layers are left alone or one completion is committed.
    rw [Option.toList_none, List.append_nil]
    rcases t.keepsLayers with hkeeps | ⟨d, ending, n, hfired⟩
    · exact h.mono hkeeps
    · exact h.commit hfired
  | some c =>
    cases t with
    | attach a writable => exact h.attach _ writable (goals _ List.mem_cons_self)

theorem Aiming.transitions {hand hand' : Multiset (Completion α)} {cs : List (Completion α)}
    (h : Aiming initial s journal) (run : Transitions s hand cs s' hand')
    (goals : ∀ c ∈ cs, ∀ t ∈ c.animation.tracks, t.goal.isSome) :
    Aiming initial s' (journal ++ cs) := by
  induction run with
  | refl => rwa [List.append_nil]
  | tail _ last ih =>
    rw [← List.append_assoc]
    exact (ih fun c hc => goals c (List.mem_append_left _ hc)).transition last
      fun c hc => goals c (List.mem_append_right _ hc)

end Stage

namespace PlainStage

/-! ## §3 At rest -/

/-- The values that some layers hold. -/
def valuesOf? (layers : List (Layer α)) (id : LayerId) (k : Attribute) : Option (Value α) :=
  layers[id]?.bind fun l => l.values.get? k

/-- Where no completion waits nothing runs. -/
theorem playing?_of_timers_eq_nil {s : PlainStage α} (h : Stage.Linked s 0) (idle : s.timers = [])
    (id : LayerId) (k : Attribute) : s.playing? id k = none := by
  rw [Option.eq_none_iff_forall_ne_some]
  intro p hp
  obtain ⟨c, hc, -⟩ := h.ended id k p hp
  have hwaiting : s.waiting = 0 := by
    rw [Stage.waiting, Stage.completions, idle]
    rfl
  rw [hwaiting] at hc
  exact absurd hc (Multiset.notMem_zero c)

variable [Scalar α]

/-- On layers at rest every attribute is destined for what it holds. -/
theorem aiming_ofLayers {layers : List (Layer α)} (rest : ∀ l ∈ layers, l.playing = .empty) :
    Stage.Aiming (valuesOf? layers) (Stage.ofLayers layers) [] := by
  intro id cell hcell
  rw [Stage.cell?_ofLayers] at hcell
  obtain ⟨l, hl, rfl⟩ := Option.map_eq_some_iff.mp hcell
  have hempty := rest l (List.mem_of_getElem? hl)
  refine ⟨fun k p hp => ?_, fun k => ?_⟩
  · rw [hempty, AttributeMap.get?_empty] at hp
    cases hp
  · rw [Layer.destined?, hempty, AttributeMap.get?_empty, aim?, valuesOf?, hl]
    rfl

/-- A layer on which nothing runs shows what a new layer with the same values shows. -/
theorem snapshot_of_rest {l : Layer α} (h : ∀ k, l.playing.get? k = none)
    (values : Attribute → Option (Value α)) (hvalues : ∀ k, l.values.get? k = values k) :
    l.snapshot = (Layer.ofValues (.ofFn values)).snapshot := by
  refine AttributeMap.ext_get? fun k => ?_
  simp only [Layer.snapshot, AttributeMap.get?_ofFn, Layer.presented?, h, hvalues, Layer.ofValues,
    AttributeMap.get?_empty, Option.bind_none]

/-- Take layers at rest, do anything with them in any order, release them and settle.  Then nothing
runs on any layer that is alive, and every attribute holds the goal of the last track that names it,
of the last animation attached to the layer that does; if there is none it holds its first value.
The layer shows what a new layer with these values shows. -/
theorem values_settle {layers : List (Layer Float)} (rest : ∀ l ∈ layers, l.playing = .empty)
    {ops : List (Operation Float)}
    (goals : ∀ c ∈ (Stage.ofLayers layers).journal (ops ++ [.settle]),
      ∀ t ∈ c.animation.tracks, t.goal.isSome)
    (released : ∀ id, ((Stage.ofLayers layers).run ops).hold? id = none ∨
      ((Stage.ofLayers layers).run ops).hold? id = some .free)
    {id : LayerId} {cell : Cell Float}
    (alive : ((Stage.ofLayers layers).run (ops ++ [.settle])).cell? id = some cell) :
    (∀ k, cell.layer.playing.get? k = none ∧ cell.layer.values.get? k
        = aim? (valuesOf? layers) ((Stage.ofLayers layers).journal (ops ++ [.settle])) id k) ∧
    cell.layer.snapshot = (Layer.ofValues (.ofFn (aim? (valuesOf? layers)
      ((Stage.ofLayers layers).journal (ops ++ [.settle])) id))).snapshot := by
  have hsettle : (Stage.ofLayers layers).run (ops ++ [.settle])
      = ((Stage.ofLayers layers).run ops).settle.1 := by
    rw [run, List.foldl_append]
    rfl
  have htimely := ((Reachable.ofLayers layers).run ops).timely
  have hidle : ((Stage.ofLayers layers).run (ops ++ [.settle])).timers = [] := by
    rw [hsettle]
    exact timers_settle_of_unheld htimely released
  -- Nothing waits any more, and nothing runs without a completion that waits.
  have hplaying : ∀ k, cell.layer.playing.get? k = none := by
    intro k
    have hnone := playing?_of_timers_eq_nil (linked_run rest (ops ++ [.settle])) hidle id k
    rwa [Stage.playing?, alive] at hnone
  -- Where nothing runs an attribute holds what it is destined for.
  have hvalues : ∀ k, cell.layer.values.get? k = aim? (valuesOf? layers)
      ((Stage.ofLayers layers).journal (ops ++ [.settle])) id k := by
    intro k
    have haiming :=
      (aiming_ofLayers rest).transitions (transitions_run (ops ++ [.settle]) _ 0) goals
    have hdestined := (haiming id cell alive).2 k
    rwa [Layer.destined?, hplaying k, List.nil_append] at hdestined
  exact ⟨fun k => ⟨hplaying k, hvalues k⟩, snapshot_of_rest hplaying _ hvalues⟩

/-- Two fades of one layer, the longer one first. -/
def fades : List (Operation Float) :=
  [.motion 0 [.fade 0.0] { Options.standard with duration := 0.3 },
    .motion 0 [.fade 0.5] { Options.standard with duration := 0.15 }]

/-- Of two fades the one that was attached last wins, though the other one ends last. -/
theorem values_settle_fades :
    ∃ cell, ((Stage.ofLayers [Layer.ofValues .empty]).run (fades ++ [.settle])).cell? 0
        = some cell ∧
      (cell.layer.values.get? .opacity == some (.scalar 0.5)) = true := by
  have hrest : ∀ l ∈ [Layer.ofValues (α := Float) .empty], l.playing = .empty := by
    intro l hl
    rw [List.mem_singleton.mp hl]
    rfl
  have hgoals : ∀ c ∈ (Stage.ofLayers [Layer.ofValues .empty]).journal (fades ++ [.settle]),
      ∀ t ∈ c.animation.tracks, t.goal.isSome := by
    decide +kernel
  have hreleased : ∀ id, ((Stage.ofLayers [Layer.ofValues .empty]).run fades).hold? id = none ∨
      ((Stage.ofLayers [Layer.ofValues .empty]).run fades).hold? id = some .free := by
    have hholds : ((Stage.ofLayers [Layer.ofValues .empty]).run fades).layers.map
        (Option.map Cell.hold) = [some .free] := by
      decide +kernel
    intro id
    have hhold : ((Stage.ofLayers [Layer.ofValues .empty]).run fades).hold? id
        = [some Hold.free][id]?.join := by
      rw [← hholds, List.getElem?_map, Stage.hold?, Stage.cell?]
      cases ((Stage.ofLayers [Layer.ofValues .empty]).run fades).layers[id]? <;> rfl
    rw [hhold]
    cases id with
    | zero => exact .inr rfl
    | succ id => exact .inl rfl
  have halive : (((Stage.ofLayers [Layer.ofValues .empty]).run
      (fades ++ [.settle])).cell? 0).isSome := by
    decide +kernel
  obtain ⟨cell, hcell⟩ := Option.isSome_iff_exists.mp halive
  refine ⟨cell, hcell, ?_⟩
  rw [((values_settle hrest hgoals hreleased hcell).1 .opacity).2]
  decide +kernel

end PlainStage

end LayerAnimation
