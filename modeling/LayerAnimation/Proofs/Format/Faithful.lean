import LayerAnimation.Format.Animation
import LayerAnimation.Proofs.Finiteness
import LayerAnimation.Proofs.Format.Readers

/-!
# Faithful formats

A format is faithful for a property if it reads every value with that property from what it writes
of it, and never reads a value without.  Formats that are put together from faithful formats are
faithful: `Faithful.record`, `Faithful.choice` and their like say so for each way of putting them
together, and §3 and §4 go through the formats of values and of intents.

The format of numbers stays a parameter.  Where it is faithful for some numbers, the format of
another type is faithful for the values that are made of such numbers alone.
-/

namespace LayerAnimation

/-! ## §1 Maps from their entries -/

namespace AttributeMap

variable {β : Type}

/-- Entries of a map that are added to another one replace what was there. -/
theorem get?_foldl_insert {m : AttributeMap β} {entries : List (Attribute × β)}
    (h : ∀ e ∈ entries, m.get? e.1 = some e.2) (m₀ : AttributeMap β) (a : Attribute) :
    (entries.foldl (fun m e => m.insert e.1 e.2) m₀).get? a
      = if a ∈ entries.map Prod.fst then m.get? a else m₀.get? a := by
  -- All entries for one attribute say the same, so it does not matter which of them comes last.
  induction entries generalizing m₀ with
  | nil => simp
  | cons e entries ih =>
    obtain ⟨he, hrest⟩ := List.forall_mem_cons.mp h
    rw [List.foldl_cons, ih hrest, get?_insert, List.map_cons]
    by_cases hlater : a ∈ entries.map Prod.fst
    · rw [if_pos hlater, if_pos (List.mem_cons_of_mem _ hlater)]
    · by_cases hhere : e.1 = a
      · rw [if_neg hlater, if_pos hhere, if_pos (hhere ▸ List.mem_cons_self), ← hhere, he]
      · rw [if_neg hlater, if_neg hhere,
          if_neg fun hmem => (List.mem_cons.mp hmem).elim (fun heq => hhere heq.symm) hlater]

/-- The entries of a map make up that map. -/
theorem ofList_toList (m : AttributeMap β) : ofList m.toList = m := by
  refine ext_get? fun a => ?_
  rw [ofList, get?_foldl_insert fun e he => mem_toList.mp he]
  split
  · rfl
  · next hkey =>
    rw [get?_empty]
    refine (Option.eq_none_iff_forall_not_mem.mpr fun b hb => hkey ?_).symm
    exact List.mem_map_of_mem (mem_toList.mpr hb)

end AttributeMap

namespace Format

open Document (ofJson ofItems ofMembers ofItems_eq_map ofMembers_eq_map)
open Reader

variable {α β γ : Type}

/-- What is written of a value with the property is read as that value, and what is read has the
property. -/
structure Faithful (f : Format β) (p : β → Prop) : Prop where
  read_write : ∀ b, p b → f.read (ofJson (f.write b)) = .ok b
  sound : ∀ d b, f.read d = .ok b → p b

namespace Faithful

/-! ## §1 Parts -/

section Parts

variable {f : Format β} {p q : β → Prop}

/-- A format is faithful for any other way of saying the same property. -/
theorem congr (h : f.Faithful p) (hpq : ∀ b, p b ↔ q b) : f.Faithful q where
  read_write b hb := h.read_write b ((hpq b).mpr hb)
  sound d b hb := (hpq b).mp (h.sound d b hb)

/-- A field that has to be there has values with the property only. -/
theorem of_field (h : f.Faithful p) {name : String} {b : β} (hb : (f.field name).Gives b) : p b := by
  obtain ⟨d, hd⟩ | habsent := hb
  · exact h.sound d b hd
  · contradiction

/-- So does one that may be absent, if what stands for it has the property. -/
theorem of_fieldOr (h : f.Faithful p) {name : String} {absent : β} (hp : p absent) {b : β}
    (hb : (f.fieldOr name absent).Gives b) : p b := by
  obtain ⟨d, hd⟩ | habsent := hb
  · exact h.sound d b hd
  · exact Option.some_inj.mp habsent ▸ hp

end Parts

/-! ## §2 Ways of putting formats together -/

section Containers

variable {f : Format β} {p : β → Prop}

/-- Lists of values with the property are read again. -/
theorem list (h : f.Faithful p) : (Format.list f).Faithful fun bs => ∀ b ∈ bs, p b where
  read_write bs hbs := by
    show (do
      let values ← items f.read (ofItems (bs.map f.write))
      closing true
      return values : Except Objection (List β)) = _
    rw [items_of_written fun b hb => h.read_write b (hbs b hb)]
    rfl
  sound d bs hbs := by
    simp only [Format.list, Reader.list] at hbs
    split at hbs
    · obtain ⟨bs', hitems, hbs⟩ := bind_eq_ok.mp hbs
      obtain ⟨-, -, hbs⟩ := bind_eq_ok.mp hbs
      obtain rfl := Except.ok.inj hbs
      intro b hb
      obtain ⟨d, hd⟩ := mem_of_items hitems b hb
      exact h.sound d b hd
    · contradiction

/-- What may be absent is written as null, so nothing else may be. -/
theorem optional (h : f.Faithful p) (hnull : ∀ b, p b → ofJson (f.write b) ≠ .null) :
    (Format.optional f).Faithful fun o => ∀ b ∈ o, p b where
  read_write o ho := by
    cases o with
    | none => rfl
    | some b =>
      have hb := h.read_write b (ho b rfl)
      have hne := hnull b (ho b rfl)
      simp only [Format.optional, Option.elim_some, Reader.optional]
      rw [hb]
      rfl
  sound d o ho := by
    simp only [Format.optional, Reader.optional] at ho
    split at ho
    · obtain rfl := Except.ok.inj ho
      exact nofun
    · obtain ⟨b, hb, rfl⟩ := map_eq_ok.mp ho
      intro c hc
      obtain rfl := Option.some_inj.mp hc
      exact h.sound d b hb

/-- Values in a fixed count. -/
theorem vector (h : f.Faithful p) (n : ℕ) :
    Faithful (β := Vector β n) ⟨Reader.vector n f.read, fun v => .array (v.toList.map f.write)⟩
      fun v => ∀ b ∈ v.toList, p b where
  read_write v hv := by
    have hlength : (ofItems (v.toList.map f.write)).length = n := by
      rw [ofItems_eq_map, List.length_map, List.length_map, Vector.length_toList]
    exact vector_of_items hlength (items_of_written fun b hb => h.read_write b (hv b hb))
  sound d v hv := by
    simp only [Reader.vector] at hv
    split at hv
    · obtain ⟨bs, hitems, hv⟩ := bind_eq_ok.mp hv
      obtain ⟨-, -, hv⟩ := bind_eq_ok.mp hv
      split at hv
      · obtain rfl := Except.ok.inj hv
        intro b hb
        obtain ⟨d, hd⟩ := mem_of_items hitems b (by simpa using hb)
        exact h.sound d b hd
      · contradiction
    · contradiction

end Containers

/-- A record is faithful if its fields are. -/
theorem record {fs : List Field} {members : β → List (String × Json)} {make : Values fs → β}
    {p : β → Prop} (names : (fs.map Field.name).Nodup)
    (written : ∀ b, p b → ∃ vs, Values.Written fs (members b) vs ∧ make vs = b)
    (given : ∀ vs, Values.Given fs vs → p (make vs)) :
    Faithful ⟨fun d => (Reader.record fs d).map make, fun b => .object (members b)⟩ p where
  read_write b hb := by
    obtain ⟨vs, hvs, hmake⟩ := written b hb
    show (Reader.record fs (ofJson (.object (members b)))).map make = .ok b
    rw [record_of_written names hvs, ← hmake]
    rfl
  sound d b hb := by
    obtain ⟨vs, hvs, rfl⟩ := map_eq_ok.mp hb
    exact given vs (given_of_record hvs)

section Choices

variable {variants : List (Variant β)} {write : β → Json} {p : β → Prop}

/-- A choice is faithful if its variants are. -/
theorem choice (chosen : ∀ b, p b → Chosen variants (write b) b)
    (ensured : ∀ v ∈ variants, v.Ensures p) : Faithful ⟨Reader.choice variants, write⟩ p where
  read_write b hb := choice_of_chosen (chosen b hb)
  sound _ _ := choice_induction ensured

theorem keptChoice (chosen : ∀ b, p b → Chosen variants (write b) b)
    (ensured : ∀ v ∈ variants, v.Ensures p) : Faithful ⟨Reader.keptChoice variants, write⟩ p where
  read_write b hb := keptChoice_of_chosen (chosen b hb)
  sound _ _ := keptChoice_induction ensured

end Choices

/-! ## §3 Attributes -/

/-- An attribute is read again from its path. -/
theorem attributePath : Format.attributePath.Faithful fun _ => True where
  read_write a _ := by
    show attributeOfPath a.path = .ok a
    rw [attributeOfPath, Attribute.ofPath?_path]
  sound _ _ _ := trivial

section Maps

variable {f : Format β} {p : β → Prop}

/-- Entries that were written are added one by one. -/
theorem readEntries_of_written (h : f.Faithful p) {entries : List (Attribute × β)}
    (hentries : ∀ e ∈ entries, p e.2) (m : AttributeMap β) :
    readEntries f.read (ofMembers (entries.map fun (a, b) => (a.path, f.write b))) m
      = .ok (entries.foldl (fun m e => m.insert e.1 e.2) m) := by
  induction entries generalizing m with
  | nil => rfl
  | cons e entries ih =>
    obtain ⟨he, hrest⟩ := List.forall_mem_cons.mp hentries
    rw [List.map_cons, ofMembers, readEntries, attributeOfPath, Attribute.ofPath?_path,
      h.read_write _ he]
    exact ih hrest _

/-- Entries that are read are values with the property. -/
theorem entries_of_readEntries (h : f.Faithful p) {members : List (Option String × Document)}
    {m m' : AttributeMap β} (hm : ∀ a, ∀ b ∈ m.get? a, p b)
    (hread : readEntries f.read members m = .ok m') : ∀ a, ∀ b ∈ m'.get? a, p b := by
  induction members generalizing m with
  | nil =>
    obtain rfl := Except.ok.inj hread
    exact hm
  | cons member members ih =>
    -- A member without a readable key is refused.
    obtain ⟨path | path, d⟩ := member
    · contradiction
    · obtain ⟨a, -, hread⟩ := bind_eq_ok.mp hread
      obtain ⟨b, hb, hread⟩ := bind_eq_ok.mp hread
      refine ih (fun c v hv => ?_) hread
      rw [AttributeMap.get?_insert] at hv
      split at hv
      · obtain rfl := Option.some_inj.mp hv
        exact h.sound d b hb
      · exact hm c v hv

/-- Maps of values with the property are read again. -/
theorem attributeMap (h : f.Faithful p) :
    (Format.attributeMap f).Faithful fun m => ∀ a, ∀ b ∈ m.get? a, p b where
  read_write m hm := by
    have hentries : ∀ e ∈ m.toList, p e.2 := fun (a, b) he => hm a b (AttributeMap.mem_toList.mp he)
    show (do
      let m ← readEntries f.read (ofMembers (m.toList.map fun (a, b) => (a.path, f.write b))) .empty
      closing true
      return m : Except Objection (AttributeMap β)) = .ok m
    rw [h.readEntries_of_written hentries]
    exact congrArg Except.ok m.ofList_toList
  sound d m hm := by
    simp only [Format.attributeMap] at hm
    split at hm
    · obtain ⟨m', hread, hm⟩ := bind_eq_ok.mp hm
      obtain ⟨-, -, hm⟩ := bind_eq_ok.mp hm
      obtain rfl := Except.ok.inj hm
      exact h.entries_of_readEntries (fun a b hb => by simp at hb) hread
    · contradiction

end Maps

/-! ## §4 Values -/

section Values

variable {num : Format α} {p : α → Prop}

/-- A lone number. -/
theorem single (h : num.Faithful p) : num.Faithful fun x => ∀ y ∈ [x], p y :=
  h.congr fun _ => List.forall_mem_singleton.symm

theorem point (h : num.Faithful p) : (Format.point num).Faithful fun b => ∀ x ∈ b.numbers, p x := by
  refine record (by simp [Format.field]) (fun b hb => ?_) fun (x, y, _) ⟨hx, hy, _⟩ =>
    Point.forall_mem_numbers.mpr ⟨h.of_field hx, h.of_field hy⟩
  obtain ⟨hx, hy⟩ := Point.forall_mem_numbers.mp hb
  exact ⟨_, .cons (h.read_write _ hx) (.cons (h.read_write _ hy) .nil), rfl⟩

theorem color (h : num.Faithful p) : (Format.color num).Faithful fun c => ∀ x ∈ c.numbers, p x := by
  refine record (by simp [Format.field]) (fun c hc => ?_) fun (r, g, b, a, _) ⟨hr, hg, hb, ha, _⟩ =>
    Color.forall_mem_numbers.mpr ⟨h.of_field hr, h.of_field hg, h.of_field hb, h.of_field ha⟩
  obtain ⟨hr, hg, hb, ha⟩ := Color.forall_mem_numbers.mp hc
  exact ⟨_, .cons (h.read_write _ hr) (.cons (h.read_write _ hg) (.cons (h.read_write _ hb)
    (.cons (h.read_write _ ha) .nil))), rfl⟩

theorem transform (h : num.Faithful p) :
    (Format.transform num).Faithful fun t => ∀ x ∈ t.numbers, p x := by
  have hentries : (Format.entries num).Faithful fun v => ∀ x ∈ v.toList, p x := h.vector 16
  exact record (by simp [Format.field])
    (fun t ht => ⟨_, .cons (hentries.read_write _ ht) .nil, rfl⟩)
    fun (m, _) ⟨hm, _⟩ => hentries.of_field hm

theorem pathElement (h : num.Faithful p) :
    (Format.pathElement num).Faithful fun e => ∀ x ∈ e.numbers, p x := by
  refine choice (fun e he => ?_) ?_
  · cases e with
    | moveTo q => exact .holding rfl (congrArg (Except.map _) (h.point.read_write q he))
    | lineTo q => exact .holding rfl (congrArg (Except.map _) (h.point.read_write q he))
    | quadTo q r =>
      obtain ⟨hq, hr⟩ := List.forall_mem_append.mp he
      exact .holding rfl (map_eq_ok.mpr ⟨(q, r, ()), tuple_of_written
        (.cons (h.point.read_write q hq) (.cons (h.point.read_write r hr) .nil)) rfl, rfl⟩)
    | curveTo q r s =>
      obtain ⟨hqr, hs⟩ := List.forall_mem_append.mp he
      obtain ⟨hq, hr⟩ := List.forall_mem_append.mp hqr
      exact .holding rfl (map_eq_ok.mpr ⟨(q, r, s, ()), tuple_of_written
        (.cons (h.point.read_write q hq) (.cons (h.point.read_write r hr)
          (.cons (h.point.read_write s hs) .nil))) rfl, rfl⟩)
    | close => exact .unit rfl
  · simp only [List.forall_mem_cons]
    refine ⟨Variant.ensures_map h.point.sound fun _ hq => hq,
      Variant.ensures_map h.point.sound fun _ hq => hq,
      Variant.ensures_map (fun _ _ => given_of_tuple) fun (q, r, _) ⟨hq, hr, _⟩ => ?_,
      Variant.ensures_map (fun _ _ => given_of_tuple) fun (q, r, s, _) ⟨hq, hr, hs, _⟩ => ?_,
      List.forall_mem_nil _, List.forall_mem_nil _⟩
    · exact List.forall_mem_append.mpr ⟨h.point.of_field hq, h.point.of_field hr⟩
    · exact List.forall_mem_append.mpr ⟨List.forall_mem_append.mpr
        ⟨h.point.of_field hq, h.point.of_field hr⟩, h.point.of_field hs⟩

theorem path (h : num.Faithful p) :
    (Format.path num).Faithful fun q => ∀ x ∈ q.flatMap PathElement.numbers, p x :=
  h.pathElement.list.congr fun _ => List.forall_mem_flatMap.symm

theorem value (h : num.Faithful p) : (Format.value num).Faithful fun v => ∀ x ∈ v.numbers, p x := by
  refine choice (fun v hv => ?_) ?_
  · cases v with
    | scalar x => exact .holding rfl (congrArg (Except.map _) (h.single.read_write x hv))
    | point q => exact .holding rfl (congrArg (Except.map _) (h.point.read_write q hv))
    | color c => exact .holding rfl (congrArg (Except.map _) (h.color.read_write c hv))
    | transform t => exact .holding rfl (congrArg (Except.map _) (h.transform.read_write t hv))
    | path q => exact .holding rfl (congrArg (Except.map _) (h.path.read_write q hv))
  · simp only [List.forall_mem_cons]
    exact ⟨Variant.ensures_map h.single.sound fun _ hc => hc,
      Variant.ensures_map h.point.sound fun _ hc => hc,
      Variant.ensures_map h.color.sound fun _ hc => hc,
      Variant.ensures_map h.transform.sound fun _ hc => hc,
      Variant.ensures_map h.path.sound fun _ hc => hc, List.forall_mem_nil _⟩

end Values

/-! ## §5 Animations and intents -/

section Animations

variable {num : Format α} {p : α → Prop}

theorem controlPoints (h : num.Faithful p) :
    (Format.controlPoints num).Faithful fun c => ∀ x ∈ (Easing.bezier c).numbers, p x := by
  refine record (by simp [Format.field]) (fun c hc => ?_)
    fun (x₁, y₁, x₂, y₂, _) ⟨hx₁, hy₁, hx₂, hy₂, _⟩ => Easing.forall_mem_numbers_bezier.mpr
      ⟨h.of_field hx₁, h.of_field hy₁, h.of_field hx₂, h.of_field hy₂⟩
  obtain ⟨hx₁, hy₁, hx₂, hy₂⟩ := Easing.forall_mem_numbers_bezier.mp hc
  exact ⟨_, .cons (h.read_write _ hx₁) (.cons (h.read_write _ hy₁) (.cons (h.read_write _ hx₂)
    (.cons (h.read_write _ hy₂) .nil))), rfl⟩

theorem chosen_easing (h : num.Faithful p) (e : Easing α) (he : ∀ x ∈ e.numbers, p x) :
    Chosen (easings num) ((Format.easing num).write e) e := by
  cases e with
  | linear | easeIn | easeOut | easeInOut | standard => exact .unit rfl
  | bezier c => exact .holding rfl (congrArg (Except.map _) (h.controlPoints.read_write c he))

theorem ensures_easings (h : num.Faithful p) :
    ∀ v ∈ easings num, v.Ensures fun e => ∀ x ∈ e.numbers, p x := by
  simp only [easings, List.forall_mem_cons]
  exact ⟨List.forall_mem_nil _, List.forall_mem_nil _, List.forall_mem_nil _, List.forall_mem_nil _,
    List.forall_mem_nil _, Variant.ensures_map h.controlPoints.sound fun _ hc => hc,
    List.forall_mem_nil _⟩

theorem easing (h : num.Faithful p) : (Format.easing num).Faithful fun e => ∀ x ∈ e.numbers, p x :=
  choice h.chosen_easing h.ensures_easings

theorem keptEasing (h : num.Faithful p) :
    (Format.keptEasing num).Faithful fun e => ∀ x ∈ e.numbers, p x :=
  keptChoice h.chosen_easing h.ensures_easings

theorem outline (h : num.Faithful p) :
    (Format.outline num).Faithful fun q => ∀ x ∈ q.flatMap PathElement.numbers, p x :=
  record (by simp [Format.field]) (fun q hq => ⟨_, .cons (h.path.read_write q hq) .nil, rfl⟩)
    fun (q, _) ⟨hq, _⟩ => h.path.of_field hq

variable (hnull : ∀ x, p x → ofJson (num.write x) ≠ .null)

include hnull

/-- What a track lacks is written as null, so no number may be. -/
theorem track (h : num.Faithful p) : (Format.track num).Faithful fun t => ∀ x ∈ t.numbers, p x := by
  have hvalue := h.value.optional fun v _ => by cases v <;> nofun
  have hduration := h.optional hnull
  refine record (by simp [Format.field, Format.fieldOr]) (fun t ht => ?_)
    fun (key, start, goal, duration, _) ⟨_, hstart, hgoal, hdur, _⟩ => Track.forall_mem_numbers.mpr
      ⟨hvalue.of_fieldOr (by simp) hstart, hvalue.of_fieldOr (by simp) hgoal,
        hduration.of_fieldOr (by simp) hdur⟩
  obtain ⟨hstart, hgoal, hdur⟩ := Track.forall_mem_numbers.mp ht
  exact ⟨_, .cons (attributePath.read_write t.key trivial) (.cons (hvalue.read_write _ hstart)
    (.cons (hvalue.read_write _ hgoal) (.cons (hduration.read_write _ hdur) .nil))), rfl⟩

/-- Every intent holds a track, a value or numbers, under its own name. -/
theorem intent (h : num.Faithful p) :
    (Format.intent num).Faithful fun i => ∀ x ∈ i.numbers, p x := by
  refine choice (fun i hi => ?_) ?_
  · cases i with
    | custom t => exact .holding rfl (congrArg (Except.map _) ((h.track hnull).read_write t hi))
    | backgroundColor c => exact .holding rfl (congrArg (Except.map _) (h.color.read_write c hi))
    | transform t => exact .holding rfl (congrArg (Except.map _) (h.transform.read_write t hi))
    | translate q | position q =>
      exact .holding rfl (congrArg (Except.map _) (h.point.read_write q hi))
    | shadow q => exact .holding rfl (congrArg (Except.map _) (h.outline.read_write q hi))
    | corners x | rotate x | rotateX x | rotateY x | rotateZ x | spin x | spinX x | spinY x
    | spinZ x | scale x | scaleX x | scaleY x | scaleZ x | translateX x | translateY x
    | translateZ x | fade x =>
      exact .holding rfl (congrArg (Except.map _) (h.single.read_write x hi))
  -- Most variants hold a single number or a point.
  · have hnumber {name : String} {f : α → Intent α} (hf : ∀ x, (f x).numbers = [x]) :
        (Variant.holding name fun d => (num.read d).map f).Ensures fun i => ∀ x ∈ i.numbers, p x :=
      Variant.ensures_map h.single.sound fun x hx => (hf x).symm ▸ hx
    have hpoint {name : String} {f : Point α → Intent α} (hf : ∀ q, (f q).numbers = q.numbers) :
        (Variant.holding name fun d => ((Format.point num).read d).map f).Ensures
          fun i => ∀ x ∈ i.numbers, p x :=
      Variant.ensures_map h.point.sound fun q hq => (hf q).symm ▸ hq
    simp only [List.forall_mem_cons]
    exact ⟨Variant.ensures_map (h.track hnull).sound fun _ ht => ht,
      Variant.ensures_map h.color.sound fun _ hc => hc, hnumber fun _ => rfl,
      Variant.ensures_map h.transform.sound fun _ ht => ht,
      hnumber fun _ => rfl, hnumber fun _ => rfl, hnumber fun _ => rfl, hnumber fun _ => rfl,
      hnumber fun _ => rfl, hnumber fun _ => rfl, hnumber fun _ => rfl, hnumber fun _ => rfl,
      hnumber fun _ => rfl, hnumber fun _ => rfl, hnumber fun _ => rfl, hnumber fun _ => rfl,
      hpoint fun _ => rfl, hnumber fun _ => rfl, hnumber fun _ => rfl, hnumber fun _ => rfl,
      hpoint fun _ => rfl, Variant.ensures_map h.outline.sound fun _ hq => hq,
      hnumber fun _ => rfl, List.forall_mem_nil _⟩

end Animations

end Faithful

end Format

end LayerAnimation
