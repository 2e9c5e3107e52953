import LayerAnimation.Proofs.Format.Faithful
import LayerAnimation.Proofs.Format.Orders
import LayerAnimation.Proofs.Json.Edits

/-!
# Lenient formats

A format is lenient at a place of a script if, however a document that it wrote is edited, it reads
the value that was written.  As with faithful formats, lenient formats are put together from lenient
formats, in the same ways, and the format of numbers stays a parameter.

- `Reader.Values.Offered` and `record_of_edited`: a record from which members with defaults are left
  out and whose other members stand in any order.
- `chosen_of_edited`: the only member of a choice can neither be left out nor change its place.
- `Lenient.attributeMap` is where the order of the entries of a map is lost and found again.
-/

namespace LayerAnimation

open Document (ofJson ofItems ofMembers ofItems_eq_map ofMembers_eq_map ofMembers_perm)
open Json (Place Edited EditedItems EditedMembers)

namespace Reader

variable {β γ : Type} {place : Place}

/-! ## §1 Elements and members -/

section Items

variable {read : Reader β} {write : β → Json} {R : β → β → Prop} {bs : List β}
  {js : List Json}

/-- Elements that are edited one by one are read one by one. -/
theorem items_of_edited
    (h : ∀ b ∈ bs, ∀ j, Edited place (write b) j → ∃ c, read (ofJson j) = .ok c ∧ R b c)
    (edits : EditedItems place (bs.map write) js) :
    ∃ cs, items read (ofItems js) = .ok cs ∧ List.Forall₂ R bs cs := by
  induction bs generalizing js with
  | nil =>
    cases edits
    exact ⟨[], rfl, .nil⟩
  | cons b bs ih =>
    cases edits with
    | cons edit edits =>
      obtain ⟨c, hread, hc⟩ := h b List.mem_cons_self _ edit
      obtain ⟨cs, hitems, hcs⟩ := ih (fun b hb => h b (List.mem_cons_of_mem _ hb)) edits
      exact ⟨c :: cs, bind_eq_ok.mpr ⟨c, hread, bind_eq_ok.mpr ⟨cs, hitems, rfl⟩⟩, .cons hc hcs⟩

end Items

/-- Members in the order of some fields.  However each of them is edited, it gives its field a value
with some property, and where it can be left out the value that stands for an absent one has that
property too. -/
inductive Values.Offered (place : Place) :
    (fs : List Field) → List (String × Json) → (Values fs → Prop) → Prop where
  | nil : Offered place [] [] fun _ => True
  | cons {f : Field} {fs : List Field} {j : Json} {members : List (String × Json)}
      {P : f.Val → Prop} {Q : Values fs → Prop}
      (read : ∀ j', Edited (place.member f.name) j j' → ∃ v, f.read (ofJson j') = .ok v ∧ P v)
      (absent : place.holdsDefault f.name j = true → ∃ v, f.absent = some v ∧ P v)
      (rest : Offered place fs members Q) :
      Offered place (f :: fs) ((f.name, j) :: members) fun (v, vs) => P v ∧ Q vs

section Records

variable {fs : List Field} {members kept : List (String × Json)} {P : Values fs → Prop}

theorem Values.Offered.keys (h : Offered place fs members P) :
    members.map Prod.fst = fs.map Field.name := by
  induction h with
  | nil => rfl
  | cons _ _ _ ih => rw [List.map_cons, List.map_cons, ih]

/-- Each member that is kept fills its slot, and every other slot can be done without. -/
theorem acceptAll_of_edited (names : (fs.map Field.name).Nodup)
    (offered : Values.Offered place fs members P) (edits : EditedMembers place members kept) :
    ∃ slots vs, Slots.acceptAll fs (ofMembers kept) (Slots.empty fs) = .ok slots ∧
      Slots.finish fs slots = .ok vs ∧ P vs := by
  induction offered generalizing kept with
  | nil =>
    cases edits
    exact ⟨(), (), rfl, rfl, trivial⟩
  | @cons f fs j members P Q read absent rest ih =>
    obtain ⟨hnew, hnames⟩ := List.nodup_cons.mp names
    -- Neither are there further members of this name after an edit.
    have hother {kept : List (String × Json)} (edits : EditedMembers place members kept) :
        ∀ m ∈ kept, m.1 ≠ f.name := by
      rintro m hm heq
      rw [← rest.keys, ← heq] at hnew
      exact hnew (edits.keys_sublist.subset (List.mem_map_of_mem hm))
    cases edits with
    | keep edit edits =>
      obtain ⟨v, hread, hv⟩ := read _ edit
      obtain ⟨slots, vs, haccepted, hfinish, hvs⟩ := ih hnames edits
      refine ⟨(some v, slots), (v, vs), ?_, ?_, hv, hvs⟩
      · rw [ofMembers, Slots.acceptAll, Slots.empty, Slots.accept, if_pos rfl, hread]
        exact (Slots.acceptAll_cons_of_ne (hother edits) _ _).trans (by rw [haccepted]; rfl)
      · rw [Slots.finish, Option.some_or, hfinish]
        rfl
    | drop holds edits =>
      -- The slot stays empty, and at the end the value for an absent member takes its place.
      obtain ⟨v, habsent, hv⟩ := absent holds
      obtain ⟨slots, vs, haccepted, hfinish, hvs⟩ := ih hnames edits
      refine ⟨(none, slots), (v, vs), ?_, ?_, hv, hvs⟩
      · exact (Slots.acceptAll_cons_of_ne (hother edits) _ _).trans (by rw [haccepted]; rfl)
      · rw [Slots.finish, Option.none_or, habsent, hfinish]
        rfl

theorem record_of_editedMembers (names : (fs.map Field.name).Nodup)
    (offered : Values.Offered place fs members P) (edits : EditedMembers place members kept) :
    ∃ vs, record fs (.object (ofMembers kept) true) = .ok vs ∧ P vs := by
  obtain ⟨slots, vs, haccepted, hfinish, hvs⟩ := acceptAll_of_edited names offered edits
  exact ⟨vs, bind_eq_ok.mpr ⟨slots, haccepted, hfinish⟩, hvs⟩

/-- A record that was written in the order of its fields is read after any edits. -/
theorem record_of_edited (names : (fs.map Field.name).Nodup)
    (offered : Values.Offered place fs members P) {j : Json}
    (edit : Edited place (.object members) j) : ∃ vs, record fs (ofJson j) = .ok vs ∧ P vs := by
  cases edit with
  | object edits order =>
    obtain ⟨vs, hread, hvs⟩ := record_of_editedMembers names offered edits
    exact ⟨vs, record_perm (ofMembers_perm order) hread, hvs⟩

end Records

/-! ## §2 Choices -/

section Choices

variable {variants : List (Variant β)} {name : String} {b : β}

/-- A choice that is written as a text has no parts that an edit could touch. -/
theorem chosen_of_text (found : findVariant variants name = .ok (.unit name b)) {j : Json}
    (edit : Edited place (.text name) j) : Chosen variants j b := by
  cases edit
  exact .unit found

/-- A lone member without a default is still alone after an edit. -/
theorem chosen_of_edited {read : Reader β} {j₀ j : Json}
    (found : findVariant variants name = .ok (.holding name read))
    (required : place.holdsDefault name j₀ = false)
    (contents : ∀ j, Edited (place.member name) j₀ j → read (ofJson j) = .ok b)
    (edit : Edited place (.object [(name, j₀)]) j) : Chosen variants j b := by
  cases edit with
  | object edits order =>
    cases edits with
    | keep edit edits =>
      cases edits
      obtain rfl := List.singleton_perm.mp order
      exact .holding found (contents _ edit)
    | drop holds edits => exact absurd holds (by simp [required])

end Choices

end Reader

namespace Format

open Reader

variable {α β : Type}

/-- However what was written of a value with the property is edited, it is read as that value. -/
def Lenient (f : Format β) (place : Place) (p : β → Prop) : Prop :=
  ∀ b, p b → ∀ j, Edited place (f.write b) j → f.read (ofJson j) = .ok b

namespace Lenient

/-! ## §3 Ways of putting formats together -/

section Containers

variable {f : Format β} {p q : β → Prop} {place : Place}

theorem congr (h : f.Lenient place p) (hpq : ∀ b, p b ↔ q b) : f.Lenient place q :=
  fun b hb => h b ((hpq b).mpr hb)

section Fields

variable {name : String} {b : β} {fs : List Field} {members : List (String × Json)}
  {Q : Values fs → Prop}

/-- A value for a field that may not be absent. -/
theorem offer (h : f.Lenient (place.member name) p) (hb : p b)
    (required : place.holdsDefault name (f.write b) = false)
    (rest : Values.Offered place fs members Q) :
    Values.Offered place (f.field name :: fs) ((name, f.write b) :: members)
      fun (v, vs) => b = v ∧ Q vs :=
  .cons (f := f.field name) (fun j edit => ⟨b, h b hb j edit, rfl⟩)
    (fun holds => absurd holds (by simp [field, required])) rest

/-- A value for a field that may be absent. -/
theorem offerOr {absent : β} (h : f.Lenient (place.member name) p) (hb : p b)
    (default : place.holdsDefault name (f.write b) = true → b = absent)
    (rest : Values.Offered place fs members Q) :
    Values.Offered place (f.fieldOr name absent :: fs) ((name, f.write b) :: members)
      fun (v, vs) => b = v ∧ Q vs :=
  .cons (f := f.fieldOr name absent) (fun j edit => ⟨b, h b hb j edit, rfl⟩)
    (fun holds => ⟨absent, rfl, default holds⟩) rest

end Fields

/-- Elements are read one by one as what was written of each. -/
theorem items (h : f.Lenient place p) {bs : List β} (hbs : ∀ b ∈ bs, p b) {js : List Json}
    (edits : EditedItems place (bs.map f.write) js) :
    Reader.items f.read (ofItems js) = .ok bs := by
  obtain ⟨cs, hitems, hcs⟩ := items_of_edited (R := Eq)
    (fun b hb j edit => ⟨b, h b (hbs b hb) j edit, rfl⟩) edits
  rw [List.forall₂_eq_eq_eq] at hcs
  rw [hcs, hitems]

/-- Lists are lenient if their elements are. -/
theorem list (h : f.Lenient place.item p) :
    (Format.list f).Lenient place fun bs => ∀ b ∈ bs, p b := by
  intro bs hbs j edit
  cases edit with
  | array edits => exact bind_eq_ok.mpr ⟨bs, h.items hbs edits, rfl⟩

/-- What may be absent is lenient if nothing that is there turns into null. -/
theorem optional (h : f.Lenient place p)
    (hnull : ∀ b, p b → ∀ j, Edited place (f.write b) j → ofJson j ≠ .null) :
    (Format.optional f).Lenient place fun o => ∀ b ∈ o, p b := by
  intro o ho j edit
  cases o with
  | none =>
    cases edit
    rfl
  | some b =>
    have hread := h b (ho b rfl) j edit
    have hne := hnull b (ho b rfl) j edit
    simp only [Format.optional, Reader.optional]
    rw [hread]
    rfl

/-- Only nothing is written as a null, which a track may lack. -/
theorem eq_none_of_holdsDefault
    (hnull : ∀ b, p b → ∀ j, Edited .other (f.write b) j → ofJson j ≠ .null) {o : Option β}
    (ho : ∀ b ∈ o, p b) {name : String}
    (holds : Place.track.holdsDefault name ((Format.optional f).write o) = true) : o = none := by
  cases o with
  | none => rfl
  | some b =>
    have hwritten : f.write b = .null := Place.eq_null_of_holdsDefault holds
    exact absurd (congrArg ofJson hwritten) (hnull b (ho b rfl) _ (Edited.refl _ _))

/-- No edit changes the count of the elements. -/
theorem vector (h : f.Lenient place.item p) (n : ℕ) :
    Lenient (β := Vector β n) ⟨Reader.vector n f.read, fun v => .array (v.toList.map f.write)⟩ place
      fun v => ∀ b ∈ v.toList, p b := by
  intro v hv j edit
  cases edit with
  | array edits =>
    refine vector_of_items ?_ (h.items hv edits)
    rw [ofItems_eq_map, List.length_map, edits.length_eq, List.length_map, Vector.length_toList]

end Containers

/-- A record is lenient if its fields are. -/
theorem record {fs : List Field} {members : β → List (String × Json)} {make : Values fs → β}
    {place : Place} {p : β → Prop} (names : (fs.map Field.name).Nodup)
    (offered : ∀ b, p b → ∃ P, Values.Offered place fs (members b) P ∧ ∀ vs, P vs → make vs = b) :
    Lenient ⟨fun d => (Reader.record fs d).map make, fun b => .object (members b)⟩ place p := by
  intro b hb j edit
  obtain ⟨P, hoffered, hmake⟩ := offered b hb
  obtain ⟨vs, hread, hvs⟩ := record_of_edited names hoffered edit
  exact map_eq_ok.mpr ⟨vs, hread, hmake vs hvs⟩

section Choices

variable {variants : List (Variant β)} {write : β → Json} {place : Place} {p : β → Prop}

/-- A choice is lenient if its variants are. -/
theorem choice (chosen : ∀ b, p b → ∀ j, Edited place (write b) j → Chosen variants j b) :
    Lenient ⟨Reader.choice variants, write⟩ place p :=
  fun b hb j edit => choice_of_chosen (chosen b hb j edit)

theorem keptChoice (chosen : ∀ b, p b → ∀ j, Edited place (write b) j → Chosen variants j b) :
    Lenient ⟨Reader.keptChoice variants, write⟩ place p :=
  fun b hb j edit => keptChoice_of_chosen (chosen b hb j edit)

/-- A variant is lenient if its contents are. -/
theorem chosen {γ : Type} {g : Format γ} {q : γ → Prop} {name : String} {c : γ} {make : γ → β}
    {j : Json} (edit : Edited place (.object [(name, g.write c)]) j)
    (h : g.Lenient (place.member name) q) (hc : q c)
    (found : findVariant variants name = .ok (.holding name fun d => (g.read d).map make))
    (required : place.holdsDefault name (g.write c) = false) : Chosen variants j (make c) :=
  chosen_of_edited found required (fun j edit => congrArg (Except.map make) (h c hc j edit)) edit

end Choices

/-! ## §4 Values -/

section Values

variable {num : Format α} {p : α → Prop}

theorem single {place : Place} (h : num.Lenient place p) :
    num.Lenient place fun x => ∀ y ∈ [x], p y :=
  h.congr fun _ => List.forall_mem_singleton.symm

theorem point (h : num.Lenient .other p) :
    (Format.point num).Lenient .other fun b => ∀ x ∈ b.numbers, p x := by
  refine record (by simp [Format.field]) fun b hb => ?_
  obtain ⟨hx, hy⟩ := Point.forall_mem_numbers.mp hb
  refine ⟨_, h.offer hx rfl (h.offer hy rfl .nil), ?_⟩
  rintro ⟨x, y, _⟩ ⟨rfl, rfl, -⟩
  rfl

theorem color (h : num.Lenient .other p) :
    (Format.color num).Lenient .other fun c => ∀ x ∈ c.numbers, p x := by
  refine record (by simp [Format.field]) fun c hc => ?_
  obtain ⟨hr, hg, hb, ha⟩ := Color.forall_mem_numbers.mp hc
  refine ⟨_, h.offer hr rfl (h.offer hg rfl (h.offer hb rfl (h.offer ha rfl .nil))), ?_⟩
  rintro ⟨r, g, b, a, _⟩ ⟨rfl, rfl, rfl, rfl, -⟩
  rfl

theorem transform (h : num.Lenient .other p) :
    (Format.transform num).Lenient .other fun t => ∀ x ∈ t.numbers, p x := by
  have hentries : (Format.entries num).Lenient .other fun v => ∀ x ∈ v.toList, p x :=
    vector h 16
  refine record (by simp [Format.field]) fun t ht => ⟨_, hentries.offer ht rfl .nil, ?_⟩
  rintro ⟨v, _⟩ ⟨rfl, -⟩
  rfl

theorem pathElement (h : num.Lenient .other p) :
    (Format.pathElement num).Lenient .other fun e => ∀ x ∈ e.numbers, p x := by
  -- Nothing in an outline has a default: arrays keep their length, and an element keeps its one
  -- member.
  refine choice fun e he j edit => ?_
  cases e with
  | moveTo q | lineTo q =>
    exact chosen edit h.point he rfl rfl
  | quadTo q r =>
    obtain ⟨hq, hr⟩ := List.forall_mem_append.mp he
    refine chosen_of_edited rfl rfl (fun j edit => ?_) edit
    cases edit with
    | array edits =>
      obtain _ | ⟨edit₁, _ | ⟨edit₂, edits⟩⟩ := edits
      cases edits
      exact map_eq_ok.mpr ⟨(q, r, ()), tuple_of_written
        (.cons (h.point q hq _ edit₁) (.cons (h.point r hr _ edit₂) .nil)) rfl, rfl⟩
  | curveTo q r s =>
    obtain ⟨hqr, hs⟩ := List.forall_mem_append.mp he
    obtain ⟨hq, hr⟩ := List.forall_mem_append.mp hqr
    refine chosen_of_edited rfl rfl (fun j edit => ?_) edit
    cases edit with
    | array edits =>
      obtain _ | ⟨edit₁, _ | ⟨edit₂, _ | ⟨edit₃, edits⟩⟩⟩ := edits
      cases edits
      exact map_eq_ok.mpr ⟨(q, r, s, ()), tuple_of_written
        (.cons (h.point q hq _ edit₁) (.cons (h.point r hr _ edit₂)
          (.cons (h.point s hs _ edit₃) .nil))) rfl, rfl⟩
  | close => exact chosen_of_text rfl edit

theorem path (h : num.Lenient .other p) :
    (Format.path num).Lenient .other fun q => ∀ x ∈ q.flatMap PathElement.numbers, p x := by
  have hlist : (Format.path num).Lenient .other fun q => ∀ e ∈ q, ∀ x ∈ e.numbers, p x :=
    list h.pathElement
  exact hlist.congr fun _ => List.forall_mem_flatMap.symm

theorem value (h : num.Lenient .other p) :
    (Format.value num).Lenient .other fun v => ∀ x ∈ v.numbers, p x := by
  refine choice fun v hv j edit => ?_
  cases v with
  | scalar x => exact chosen edit h.single hv rfl rfl
  | point q => exact chosen edit h.point hv rfl rfl
  | color c => exact chosen edit h.color hv rfl rfl
  | transform t => exact chosen edit h.transform hv rfl rfl
  | path q => exact chosen edit h.path hv rfl rfl

end Values

/-! ## §5 Attributes -/

/-- A path is a text, and edits leave texts alone. -/
theorem attributePath {place : Place} : Format.attributePath.Lenient place fun _ => True := by
  intro a _ j edit
  cases edit
  exact Faithful.attributePath.read_write a trivial

/-- The entries of a map are read in whatever order they stand. -/
theorem attributeMap {f : Format β} {p : β → Prop} (h : f.Lenient .other p) :
    (Format.attributeMap f).Lenient .other fun m => ∀ a, ∀ b ∈ m.get? a, p b := by
  intro m hm j edit
  cases edit with
  | @object _ _ kept members' edits order =>
    have hperm := ofMembers_perm order
    -- Each member still says what the map holds for its attribute.
    have hagrees : ∀ e ∈ ofMembers members',
        ∃ a b, e.1 = some a.path ∧ f.read e.2 = .ok b ∧ m.get? a = some b := by
      intro e he
      obtain ⟨e, hkept, rfl⟩ := List.mem_map.mp (ofMembers_eq_map kept ▸ hperm.mem_iff.mpr he)
      obtain ⟨j, hj, edit⟩ := edits.exists_of_mem hkept
      obtain ⟨⟨a, b⟩, hab, heq⟩ := List.mem_map.mp hj
      obtain ⟨hkey, rfl⟩ := Prod.mk.inj heq
      have hget := AttributeMap.mem_toList.mp hab
      exact ⟨a, b, congrArg some hkey.symm, h b (hm a b hget) _ edit, hget⟩
    -- None is left out, since an entry of a map has no default.
    have hkeys : ∀ a b, m.get? a = some b → some a.path ∈ (ofMembers members').map Prod.fst := by
      intro a b hget
      refine (hperm.map Prod.fst).mem_iff.mp ?_
      rw [ofMembers_eq_map, List.map_map]
      have hmem : a.path ∈ kept.map Prod.fst := by
        rw [edits.keys_eq, List.map_map]
        exact List.mem_map_of_mem (AttributeMap.mem_toList.mpr hget)
      obtain ⟨e, he, heq⟩ := List.mem_map.mp hmem
      exact List.mem_map.mpr ⟨e, he, congrArg some heq⟩
    -- Entries that agree with the map and miss no attribute of it make it up, in any order.
    exact bind_eq_ok.mpr ⟨m, readEntries_eq_of_agrees hagrees hkeys, rfl⟩

/-! ## §6 Animations and intents -/

section Animations

variable {num : Format α} {p : α → Prop}

theorem controlPoints (h : num.Lenient .other p) :
    (Format.controlPoints num).Lenient .other fun c => ∀ x ∈ (Easing.bezier c).numbers, p x := by
  refine record (by simp [Format.field]) fun c hc => ?_
  obtain ⟨hx₁, hy₁, hx₂, hy₂⟩ := Easing.forall_mem_numbers_bezier.mp hc
  refine ⟨_, h.offer hx₁ rfl (h.offer hy₁ rfl (h.offer hx₂ rfl (h.offer hy₂ rfl .nil))), ?_⟩
  rintro ⟨x₁, y₁, x₂, y₂, _⟩ ⟨rfl, rfl, rfl, rfl, -⟩
  rfl

/-- A curve is a name, or control points under a name. -/
theorem chosen_easing (h : num.Lenient .other p) (e : Easing α) (he : ∀ x ∈ e.numbers, p x)
    (j : Json) (edit : Edited .other ((Format.easing num).write e) j) :
    Chosen (easings num) j e := by
  cases e with
  | linear | easeIn | easeOut | easeInOut | standard => exact chosen_of_text rfl edit
  | bezier c => exact chosen edit h.controlPoints he rfl rfl

theorem easing (h : num.Lenient .other p) :
    (Format.easing num).Lenient .other fun e => ∀ x ∈ e.numbers, p x :=
  choice h.chosen_easing

theorem keptEasing (h : num.Lenient .other p) :
    (Format.keptEasing num).Lenient .other fun e => ∀ x ∈ e.numbers, p x :=
  keptChoice h.chosen_easing

theorem outline (h : num.Lenient .other p) :
    (Format.outline num).Lenient .other fun q => ∀ x ∈ q.flatMap PathElement.numbers, p x := by
  refine record (by simp [Format.field]) fun q hq => ⟨_, h.path.offer hq rfl .nil, ?_⟩
  rintro ⟨q, _⟩ ⟨rfl, -⟩
  rfl

variable (hnull : ∀ x, p x → ∀ j, Edited .other (num.write x) j → ofJson j ≠ .null)

include hnull

/-- A track may lack its start, its goal and its duration where they are null. -/
theorem track (h : num.Lenient .other p) :
    (Format.track num).Lenient .track fun t => ∀ x ∈ t.numbers, p x := by
  have hobject : ∀ v : Value α, (∀ x ∈ v.numbers, p x) → ∀ j,
      Edited .other ((Format.value num).write v) j → ofJson j ≠ .null :=
    fun v _ j edit => by cases v <;> cases edit <;> nofun
  have hvalue := h.value.optional hobject
  have hduration := h.optional hnull
  refine record (by simp [Format.field, Format.fieldOr]) fun t ht => ?_
  obtain ⟨hstart, hgoal, hdur⟩ := Track.forall_mem_numbers.mp ht
  refine ⟨_, attributePath.offer trivial rfl
    (hvalue.offerOr hstart (eq_none_of_holdsDefault hobject hstart)
      (hvalue.offerOr hgoal (eq_none_of_holdsDefault hobject hgoal)
        (hduration.offerOr hdur (eq_none_of_holdsDefault hnull hdur) .nil))), ?_⟩
  rintro ⟨key, start, goal, duration, _⟩ ⟨rfl, rfl, rfl, rfl, -⟩
  rfl

/-- Below an intent only a track of its own has members with defaults. -/
theorem intent (h : num.Lenient .other p) :
    (Format.intent num).Lenient .intent fun i => ∀ x ∈ i.numbers, p x := by
  refine choice fun i hi j edit => ?_
  cases i with
  | custom t => exact chosen edit (h.track hnull) hi rfl rfl
  | backgroundColor c => exact chosen edit h.color hi rfl rfl
  | transform t => exact chosen edit h.transform hi rfl rfl
  | translate q | position q => exact chosen edit h.point hi rfl rfl
  | shadow q => exact chosen edit h.outline hi rfl rfl
  | corners x | rotate x | rotateX x | rotateY x | rotateZ x | spin x | spinX x | spinY x
  | spinZ x | scale x | scaleX x | scaleY x | scaleZ x | translateX x | translateY x
  | translateZ x | fade x => exact chosen edit h.single hi rfl rfl

end Animations

end Lenient

end Format

end LayerAnimation
