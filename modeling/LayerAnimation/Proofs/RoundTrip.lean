import LayerAnimation.Format.Script
import LayerAnimation.Proofs.Format.Faithful

/-!
# Scripts and their texts

A script whose numbers are finite and that passes its check is read again from its own text, and
every script that is read at all is of that sort.

- `faithful_number` starts from single numbers: the shortest decimal of a finite double is read as
  that double, and no text is read as a number that is not finite.
- `faithful_step` is where the options of a step, kept until its end, find their way back.
- `Script.parse_pretty` is the statement about texts.
-/

namespace LayerAnimation

namespace Format

open Document (ofJson ofMembers ofMembers_eq_map plain plainMembers)
open Reader

/-! ## §1 Texts -/

section Texts

variable {β : Type} {f : Format β} {p : β → Prop}

/-- What was written with a faithful format is read again from its text. -/
theorem Faithful.parse_written (h : f.Faithful p) {b : β} (hb : p b) :
    f.parse (f.pretty b) = .ok b := by
  rw [parse, pretty, Document.read_pretty]
  show (do
    let value ← f.read (ofJson (f.write b))
    closing true
    return value : Except Objection β) = .ok b
  rw [h.read_write b hb]
  rfl

/-- What is read from any text has the property of the format. -/
theorem Faithful.of_parse (h : f.Faithful p) {s : String} {b : β} (hb : f.parse s = .ok b) : p b := by
  obtain ⟨value, hread, hb⟩ := bind_eq_ok.mp hb
  obtain ⟨-, -, hb⟩ := bind_eq_ok.mp hb
  obtain rfl := Except.ok.inj hb
  exact h.sound _ _ hread

end Texts

/-! ## §2 Numbers -/

theorem ofJson_number {x : Float} (hx : x.isFinite = true) :
    ofJson (number.write x) = .number (Decimal.shortest .even x) false := by
  show ofJson (.number x) = _
  rw [ofJson, if_pos hx]

/-- Finite doubles are read again, and no others are read. -/
theorem faithful_number : number.Faithful fun x => x.isFinite = true where
  read_write x hx := by
    rw [ofJson_number hx]
    simp only [number, Reader.number, Decimal.toFloat?_shortest _ hx]
  sound d x hx := by
    simp only [number, Reader.number] at hx
    split at hx
    · split at hx
      · next y hy =>
        obtain rfl := Except.ok.inj hx
        exact Decimal.isFinite_of_toFloat? hy
      · contradiction
    · contradiction

theorem ofJson_number_ne_null (x : Float) (hx : x.isFinite = true) :
    ofJson (number.write x) ≠ .null := by
  rw [ofJson_number hx]
  exact nofun

theorem plain_number {x : Float} (hx : x.isFinite = true) (depth : ℕ) :
    plain depth (ofJson (number.write x)) = true := by
  rw [ofJson_number hx, plain, Decimal.toFloat?_shortest _ hx]
  rfl

/-! ## §3 Options -/

/-- A written curve is nested in two containers at most. -/
theorem plain_easing {e : Easing Float} (he : ∀ x ∈ e.numbers, x.isFinite = true) (depth : ℕ) :
    plain (depth + 2) (ofJson ((easing number).write e)) = true := by
  cases e with
  | linear | easeIn | easeOut | easeInOut | standard => rfl
  | bezier c =>
    obtain ⟨hx₁, hy₁, hx₂, hy₂⟩ := Easing.forall_mem_numbers_bezier.mp he
    simp [easing, controlPoints, ofJson, ofMembers, plain, plainMembers, plain_number hx₁,
      plain_number hy₁, plain_number hx₂, plain_number hy₂]

/-- Written options do not run out of room. -/
theorem plain_optionMembers {o : Options Float} (ho : ∀ x ∈ o.numbers, x.isFinite = true)
    (depth : ℕ) :
    ∀ m ∈ optionMembers number o, plain (depth + 2) (ofJson m.2) = true := by
  obtain ⟨hduration, heasing, hdelay⟩ := Options.forall_mem_numbers.mp ho
  simp only [optionMembers, List.forall_mem_cons]
  exact ⟨plain_number hduration _, plain_easing heasing _, plain_number hdelay _,
    List.forall_mem_nil _⟩

/-- Options that were kept are read again. -/
theorem faithful_keptOptions :
    Faithful ⟨fun d => (Reader.record (optionFields number (keptEasing number)) d).map optionsOf,
      fun o => .object (optionMembers number o)⟩ fun o => ∀ x ∈ o.numbers, x.isFinite = true := by
  have h := faithful_number
  refine .record (by simp [optionFields, Format.fieldOr]) (fun o ho => ?_)
    fun (duration, e, delay, _) ⟨hduration, he, hdelay, _⟩ => Options.forall_mem_numbers.mpr
      ⟨h.of_fieldOr (by decide +kernel) hduration, h.keptEasing.of_fieldOr (List.forall_mem_nil _) he,
        h.of_fieldOr (by decide +kernel) hdelay⟩
  obtain ⟨hduration, he, hdelay⟩ := Options.forall_mem_numbers.mp ho
  exact ⟨_, .cons (h.read_write _ hduration) (.cons (h.keptEasing.read_write _ he)
    (.cons (h.read_write _ hdelay) .nil)), rfl⟩

/-! ## §4 Steps -/

section Steps

variable {room : ℕ} {draft draft' : StepDraft Float} {key : String} {d : Document}

theorem faithful_intents : (list (intent number)).Faithful
    fun is => ∀ i ∈ is, ∀ x ∈ i.numbers, x.isFinite = true :=
  (faithful_number.intent ofJson_number_ne_null).list

/-- Members that are kept stand in front of those kept before, last one first. -/
theorem acceptAll_append_of_kept {members : List (String × Json)}
    (hnames : ∀ m ∈ members, m.1 ≠ "at" ∧ m.1 ≠ "intents")
    (hplain : ∀ m ∈ members, plain room (ofJson m.2) = true)
    (rest : List (Option String × Document)) (draft : StepDraft Float) :
    StepDraft.acceptAll number room (ofMembers members ++ rest) draft
      = StepDraft.acceptAll number room rest
          { draft with kept := (ofMembers members).reverse ++ draft.kept } := by
  induction members generalizing draft with
  | nil => rfl
  | cons m members ih =>
    obtain ⟨hm, hnames⟩ := List.forall_mem_cons.mp hnames
    obtain ⟨hd, hplain⟩ := List.forall_mem_cons.mp hplain
    have haccept : draft.accept number room m.1 (ofJson m.2)
        = .ok { draft with kept := (some m.1, ofJson m.2) :: draft.kept } := by
      rw [StepDraft.accept, if_neg hm.1, if_neg hm.2, if_pos hd]
    rw [ofMembers, List.cons_append, StepDraft.acceptAll, haccept]
    refine (ih hnames hplain _).trans ?_
    simp

/-- What is known of a written step at its end. -/
theorem acceptAll_written {s : Step Float} (hs : ∀ x ∈ s.numbers, x.isFinite = true) :
    StepDraft.acceptAll number (room + 2) (ofMembers (("at", number.write s.time) ::
        (optionMembers number s.options ++ [("intents", (list (intent number)).write s.intents)]))) {}
      = .ok ⟨some s.time, some s.intents, (ofMembers (optionMembers number s.options)).reverse⟩ := by
  obtain ⟨htime, hoptions, hintents⟩ := Step.forall_mem_numbers.mp hs
  have hat : ({} : StepDraft Float).accept number (room + 2) "at" (ofJson (number.write s.time))
      = .ok { time := some s.time } := by
    rw [StepDraft.accept, if_pos rfl, faithful_number.read_write _ htime]
    rfl
  have hnames : ∀ m ∈ optionMembers number s.options, m.1 ≠ "at" ∧ m.1 ≠ "intents" := by
    simp [optionMembers]
  -- The intents stand last and are not kept, so they find the draft with all options in it.
  have happend : ofMembers (optionMembers number s.options
        ++ [("intents", (list (intent number)).write s.intents)])
      = ofMembers (optionMembers number s.options)
        ++ [(some "intents", ofJson ((list (intent number)).write s.intents))] := by
    simp only [ofMembers_eq_map, List.map_append, List.map_cons, List.map_nil]
  rw [ofMembers, StepDraft.acceptAll, hat, happend]
  refine (acceptAll_append_of_kept hnames (plain_optionMembers hoptions room) _ _).trans ?_
  rw [StepDraft.acceptAll, StepDraft.accept, if_neg (by decide), if_pos rfl,
    faithful_intents.read_write _ hintents]
  simp only [List.append_nil]
  rfl

/-- At its end a written step is complete, and its options are read from what was kept. -/
theorem finish_written {s : Step Float} (hs : ∀ x ∈ s.numbers, x.isFinite = true) :
    StepDraft.finish number
        ⟨some s.time, some s.intents, (ofMembers (optionMembers number s.options)).reverse⟩ = .ok s := by
  obtain ⟨values, hvalues, hmake⟩ := map_eq_ok.mp
    (faithful_keptOptions.read_write s.options (Step.forall_mem_numbers.mp hs).2.1)
  -- Put back in their order, the members that were kept are those of the options.
  have hrecord : Reader.record (optionFields number (keptEasing number))
      (.object (ofMembers (optionMembers number s.options)) true) = .ok values := hvalues
  simp only [StepDraft.finish, List.reverse_reverse, hrecord]
  exact congrArg (fun o => Except.ok (⟨s.time, o, s.intents⟩ : Step Float)) hmake

/-- What is known of a step has finite numbers. -/
structure StepDraft.Finite (draft : StepDraft Float) : Prop where
  time : ∀ t ∈ draft.time, t.isFinite = true
  intents : ∀ is ∈ draft.intents, ∀ i ∈ is, ∀ x ∈ i.numbers, x.isFinite = true

/-- Each member adds finite numbers only. -/
theorem StepDraft.Finite.accept (h : draft.Finite)
    (accepted : draft.accept number room key d = .ok draft') : draft'.Finite := by
  unfold StepDraft.accept at accepted
  split_ifs at accepted
  · split at accepted
    · contradiction
    · obtain ⟨t, ht, rfl⟩ := map_eq_ok.mp accepted
      exact ⟨fun u hu => Option.some_inj.mp hu ▸ faithful_number.sound d t ht, h.intents⟩
  · split at accepted
    · contradiction
    · obtain ⟨is, his, rfl⟩ := map_eq_ok.mp accepted
      exact ⟨h.time, fun js hjs => Option.some_inj.mp hjs ▸ faithful_intents.sound d is his⟩
  · obtain rfl := Except.ok.inj accepted
    exact ⟨h.time, h.intents⟩

theorem StepDraft.Finite.acceptAll {members : List (Option String × Document)} (h : draft.Finite)
    (accepted : StepDraft.acceptAll number room members draft = .ok draft') : draft'.Finite := by
  induction members generalizing draft with
  | nil =>
    obtain rfl := Except.ok.inj accepted
    exact h
  | cons m members ih =>
    obtain ⟨key | key, d⟩ := m
    · contradiction
    · obtain ⟨next, hnext, accepted⟩ := bind_eq_ok.mp accepted
      exact ih (h.accept hnext) accepted

/-- So the step that is made of a draft has finite numbers. -/
theorem StepDraft.Finite.finish {s : Step Float} (h : draft.Finite)
    (finished : draft.finish number = .ok s) : ∀ x ∈ s.numbers, x.isFinite = true := by
  unfold StepDraft.finish at finished
  split at finished
  · contradiction
  · next intents hintents =>
    obtain ⟨values, hvalues, hs⟩ := bind_eq_ok.mp finished
    obtain rfl := Except.ok.inj hs
    refine Step.forall_mem_numbers.mpr ⟨?_, ?_, h.intents intents hintents⟩
    -- A step without a time begins at zero.
    · cases htime : draft.time with
      | none =>
        show (0.0 : Float).isFinite = true
        decide +kernel
      | some t => exact h.time t htime
    · exact faithful_keptOptions.sound _ _ (map_eq_ok.mpr ⟨values, hvalues, rfl⟩)

end Steps

/-- A step is read again wherever its options leave room for nesting. -/
theorem faithful_step {depth : ℕ} (hdepth : depth + 3 ≤ nestingLimit) :
    (step number depth).Faithful fun s => ∀ x ∈ s.numbers, x.isFinite = true where
  read_write s hs := by
    -- A curve with control points of its own needs two more levels.
    obtain ⟨room, hroom⟩ : ∃ room, nestingLimit - (depth + 1) = room + 2 :=
      ⟨nestingLimit - (depth + 1) - 2, by omega⟩
    show (do
      let draft ← StepDraft.acceptAll number (nestingLimit - (depth + 1)) (ofMembers
        (("at", number.write s.time) :: (optionMembers number s.options
          ++ [("intents", (list (intent number)).write s.intents)]))) {}
      closing true
      draft.finish number) = .ok s
    rw [hroom, acceptAll_written hs]
    exact finish_written hs
  sound d s hs := by
    simp only [step] at hs
    split at hs
    · obtain ⟨draft, hdraft, hs⟩ := bind_eq_ok.mp hs
      obtain ⟨-, -, hs⟩ := bind_eq_ok.mp hs
      have hempty : StepDraft.Finite {} := ⟨nofun, nofun⟩
      exact (hempty.acceptAll hdraft).finish hs
    · contradiction

/-! ## §5 Scripts -/

/-- Scripts with finite numbers are read again, and no others are read. -/
theorem faithful_script : (script number).Faithful Script.Finite := by
  have hinitial := faithful_number.value.attributeMap
  have hsteps := (faithful_step (show 2 + 3 ≤ nestingLimit by decide)).list
  refine .record (by simp [Format.fieldOr]) (fun s hs => ?_)
    fun (initial, steps, _) ⟨hi, hs, _⟩ => Script.forall_mem_numbers.mpr
      ⟨AttributeMap.forall_mem_numbers.mpr (hinitial.of_fieldOr (by simp) hi),
        hsteps.of_fieldOr (List.forall_mem_nil _) hs⟩
  obtain ⟨hi, hs⟩ := Script.forall_mem_numbers.mp hs
  exact ⟨_, .cons (hinitial.read_write _ (AttributeMap.forall_mem_numbers.mp hi))
    (.cons (hsteps.read_write _ hs) .nil), rfl⟩

end Format

namespace Script

open Reader (bind_eq_ok mapError_eq_ok)

/-- To parse a script is to read it and to check it. -/
theorem parse_eq_ok {text : String} {s : Script Float} :
    parse text = .ok s ↔
      (Format.script Format.number).parse text = .ok s ∧ s.check = .ok () := by
  constructor
  · intro h
    obtain ⟨t, ht, h⟩ := bind_eq_ok.mp h
    obtain ⟨⟨⟩, hcheck, h⟩ := bind_eq_ok.mp h
    obtain rfl := Except.ok.inj h
    exact ⟨mapError_eq_ok.mp ht, mapError_eq_ok.mp hcheck⟩
  · rintro ⟨hs, hcheck⟩
    exact bind_eq_ok.mpr ⟨s, mapError_eq_ok.mpr hs,
      bind_eq_ok.mpr ⟨(), mapError_eq_ok.mpr hcheck, rfl⟩⟩

/-- A script with finite numbers that passes its check is read again from its text.  No other script
is ever read, so the text of a script that was read is read as that script and written once more
without a change. -/
theorem parse_pretty :
    (∀ s : Script Float, s.Finite → s.check = .ok () → parse s.pretty = .ok s) ∧
    ∀ (text : String) (s : Script Float), parse text = .ok s →
      s.Finite ∧ s.check = .ok () ∧ parse s.pretty = .ok s ∧
        (parse s.pretty).map pretty = .ok s.pretty := by
  have hwrite (s : Script Float) (hs : s.Finite) (hcheck : s.check = .ok ()) :
      parse s.pretty = .ok s :=
    parse_eq_ok.mpr ⟨Format.faithful_script.parse_written hs, hcheck⟩
  refine ⟨hwrite, fun text s h => ?_⟩
  obtain ⟨hparse, hcheck⟩ := parse_eq_ok.mp h
  have hfinite := Format.faithful_script.of_parse hparse
  have hagain := hwrite s hfinite hcheck
  exact ⟨hfinite, hcheck, hagain, by rw [hagain]; rfl⟩

/-- A script with a value of every kind, a track of its own and a curve of its own. -/
def specimen : Script Float where
  initial := .ofList [
    (.opacity, .scalar 0.5),
    (.position, .point ⟨-0.0, 1e300⟩),
    (.backgroundColor, .color .white),
    (.transform, .transform .identity),
    (.shadowPath, .path [.moveTo ⟨0.0, 0.1⟩, .quadTo ⟨1.5, 0.1⟩ ⟨2.0, 3.0⟩, .close])]
  steps := [
    ⟨0.0, .standard, [.custom ((Track.toward .cornerRadius (.scalar 0.3)).lasting 0.25), .spin 1.0]⟩,
    ⟨0.1, ⟨0.2, .bezier ⟨0.1, -0.7, 1.0, 1.3⟩, 0.0⟩, [.shadow [], .translate ⟨5e-324, -2.0⟩]⟩]

theorem parse_pretty_specimen : specimen.Finite ∧ specimen.check = .ok () ∧
    parse specimen.pretty = .ok specimen ∧
    (parse specimen.pretty).map pretty = .ok specimen.pretty := by
  have hfinite : specimen.Finite := by decide +kernel
  have hcheck : specimen.check = .ok () := rfl
  have hparse := parse_pretty.1 specimen hfinite hcheck
  exact ⟨hfinite, hcheck, hparse, (parse_pretty.2 _ _ hparse).2.2.2⟩

end Script

end LayerAnimation
