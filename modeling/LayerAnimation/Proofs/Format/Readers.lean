import LayerAnimation.Format.Basic
import LayerAnimation.Proofs.Json.Pretty

/-!
# What readers give

Two facts for each way of putting readers together.  What was written in the order of the fields is
read as the values that were written, and whatever is read at all consists of values that the parts
give.

- `Values.Written` and `record_of_written`: a record whose members stand in the order of its fields.
- `Values.Given` and `given_of_record`: the values of any record, in whatever order, as an object or
  an array, with whatever members beside.
- `Chosen` and `choice_of_chosen`: one variant of several under its name.
- `Variant.Ensures` and `choice_induction`: what everything that is read as a choice has in common.
-/

namespace LayerAnimation

namespace Reader

open Document (ofJson ofItems ofMembers)

variable {β γ : Type}

/-! ## §1 Steps that may fail -/

section Steps

variable {ε : Type}

/-- Two steps succeed if the first one does and the second one does with its result. -/
theorem bind_eq_ok {x : Except ε β} {f : β → Except ε γ} {c : γ} :
    x >>= f = .ok c ↔ ∃ b, x = .ok b ∧ f b = .ok c := by
  cases x with
  | error e => exact ⟨nofun, fun ⟨_, h, _⟩ => nomatch h⟩
  | ok b => exact ⟨fun h => ⟨b, rfl, h⟩, fun ⟨_, h, h'⟩ => by cases h; exact h'⟩

theorem map_eq_ok {x : Except ε β} {f : β → γ} {c : γ} :
    x.map f = .ok c ↔ ∃ b, x = .ok b ∧ f b = c := by
  cases x with
  | error e => exact ⟨nofun, fun ⟨_, h, _⟩ => nomatch h⟩
  | ok b => simp [Except.map]

theorem mapError_eq_ok {δ : Type} {x : Except ε β} {f : ε → δ} {b : β} :
    x.mapError f = .ok b ↔ x = .ok b := by
  cases x <;> simp [Except.mapError]

end Steps

/-! ## §2 Elements -/

section Items

variable {read : Reader β}

/-- Elements that are read one by one are read as a list. -/
theorem items_of_written {write : β → Json} {bs : List β}
    (h : ∀ b ∈ bs, read (ofJson (write b)) = .ok b) :
    items read (ofItems (bs.map write)) = .ok bs := by
  induction bs with
  | nil => rfl
  | cons b bs ih =>
    rw [List.map_cons, ofItems, items, h b List.mem_cons_self,
      ih fun c hc => h c (List.mem_cons_of_mem b hc)]
    rfl

/-- Every element of a list was read from a document of its own. -/
theorem mem_of_items {ds : List Document} {bs : List β} (h : items read ds = .ok bs) :
    ∀ b ∈ bs, ∃ d, read d = .ok b := by
  induction ds generalizing bs with
  | nil =>
    obtain rfl : [] = bs := Except.ok.inj h
    simp
  | cons d ds ih =>
    obtain ⟨b, hb, h⟩ := bind_eq_ok.mp h
    obtain ⟨rest, hrest, h⟩ := bind_eq_ok.mp h
    obtain rfl : b :: rest = bs := Except.ok.inj h
    exact List.forall_mem_cons.mpr ⟨⟨d, hb⟩, ih hrest⟩

/-- As many elements as are wanted make up a vector. -/
theorem vector_of_items {n : ℕ} {ds : List Document} {v : Vector β n} (hlength : ds.length = n)
    (h : items read ds = .ok v.toList) : vector n read (.array ds true) = .ok v := by
  -- There are as many elements as are wanted, so none is left unread.
  simp only [vector]
  rw [List.take_of_length_le hlength.le, h, hlength, beq_self_eq_true]
  show (if hsize : v.toList.toArray.size = n then .ok ⟨v.toList.toArray, hsize⟩
    else .error .malformed : Except Objection (Vector β n)) = .ok v
  rw [dif_pos (by simp)]
  simp [Vector.toArray_toList]

end Items

/-! ## §3 Records -/

/-- A value that a field can have: one that is read, or that stands for an absent one. -/
def Field.Gives (f : Field) (v : f.Val) : Prop :=
  (∃ d, f.read d = .ok v) ∨ f.absent = some v

/-- Values that the fields can have. -/
def Values.Given : (fs : List Field) → Values fs → Prop
  | [], _ => True
  | f :: fs, (v, vs) => f.Gives v ∧ Values.Given fs vs

/-- Members that give values to the fields, in the order of the fields. -/
inductive Values.Written : (fs : List Field) → List (String × Json) → Values fs → Prop where
  | nil : Written [] [] ()
  | cons {f fs j v members vs} (read : f.read (ofJson j) = .ok v)
      (rest : Written fs members vs) : Written (f :: fs) ((f.name, j) :: members) (v, vs)

/-- Every slot is filled. -/
def Slots.full : (fs : List Field) → Values fs → Slots fs
  | [], _ => ()
  | _ :: fs, (v, vs) => (some v, Slots.full fs vs)

/-- Where every slot is filled no field needs to be absent. -/
theorem Slots.finish_full (fs : List Field) (vs : Values fs) :
    Slots.finish fs (Slots.full fs vs) = .ok vs := by
  induction fs with
  | nil => rfl
  | cons f fs ih =>
    obtain ⟨v, vs⟩ := vs
    rw [Slots.full, Slots.finish, Option.some_or, ih]
    rfl

theorem Slots.accept_cons_of_ne {f : Field} {fs : List Field} {key : String} (h : key ≠ f.name)
    (d : Document) (slot : Option f.Val) (slots : Slots fs) :
    Slots.accept (f :: fs) key d (slot, slots)
      = (Slots.accept fs key d slots).map fun slots => (slot, slots) :=
  if_neg h

/-- Members of other names leave the first slot alone. -/
theorem Slots.acceptAll_cons_of_ne {f : Field} {fs : List Field}
    {members : List (String × Json)} (h : ∀ m ∈ members, m.1 ≠ f.name) (slot : Option f.Val)
    (slots : Slots fs) :
    Slots.acceptAll (f :: fs) (ofMembers members) (slot, slots)
      = (Slots.acceptAll fs (ofMembers members) slots).map fun slots => (slot, slots) := by
  induction members generalizing slots with
  | nil => rfl
  | cons m members ih =>
    obtain ⟨hm, hrest⟩ := List.forall_mem_cons.mp h
    rw [ofMembers, Slots.acceptAll]
    refine (congrArg (· >>= _) (Slots.accept_cons_of_ne hm _ slot slots)).trans ?_
    cases Slots.accept fs m.1 (ofJson m.2) slots with
    | error e => rfl
    | ok slots => exact ih hrest slots

/-- Such members have the names of the fields. -/
theorem Values.Written.keys {fs : List Field} {members : List (String × Json)} {vs : Values fs}
    (h : Written fs members vs) : members.map Prod.fst = fs.map Field.name := by
  induction h with
  | nil => rfl
  | cons _ _ ih => rw [List.map_cons, List.map_cons, ih]

/-- Each member fills the next slot. -/
theorem acceptAll_of_written {fs : List Field} {members : List (String × Json)} {vs : Values fs}
    (names : (fs.map Field.name).Nodup) (h : Values.Written fs members vs) :
    Slots.acceptAll fs (ofMembers members) (Slots.empty fs) = .ok (Slots.full fs vs) := by
  induction h with
  | nil => rfl
  | @cons f fs j v members vs read rest ih =>
    obtain ⟨hnew, hnames⟩ := List.nodup_cons.mp names
    -- No later member has this name, so all of them pass by the slot that is filled first.
    have hother : ∀ m ∈ members, m.1 ≠ f.name := by
      rintro m hm heq
      rw [← rest.keys, ← heq] at hnew
      exact hnew (List.mem_map_of_mem hm)
    rw [ofMembers, Slots.acceptAll, Slots.empty, Slots.accept, if_pos rfl, read]
    exact (Slots.acceptAll_cons_of_ne hother _ _).trans (by rw [ih hnames]; rfl)

/-- A record that is written in the order of its fields is read as its values. -/
theorem record_of_written {fs : List Field} {members : List (String × Json)} {vs : Values fs}
    (names : (fs.map Field.name).Nodup) (h : Values.Written fs members vs) :
    record fs (ofJson (.object members)) = .ok vs := by
  rw [ofJson, record, acceptAll_of_written names h]
  exact Slots.finish_full fs vs

/-- The same values in an array, without their names. -/
theorem tuple_of_written {fs : List Field} {members : List (String × Json)} {vs : Values fs}
    (h : Values.Written fs members vs) {js : List Json} (hjs : members.map Prod.snd = js) :
    tuple fs (ofJson (.array js)) = .ok vs := by
  subst hjs
  show Values.ofItems fs (ofItems (members.map Prod.snd)) true = .ok vs
  induction h with
  | nil => rfl
  | cons read rest ih =>
    rw [List.map_cons, ofItems, Values.ofItems, read, ih]
    rfl

/-- Every slot that is filled holds a value that was read. -/
def Slots.Given : (fs : List Field) → Slots fs → Prop
  | [], _ => True
  | f :: fs, (slot, slots) => (∀ v ∈ slot, ∃ d, f.read d = .ok v) ∧ Slots.Given fs slots

theorem Slots.given_empty (fs : List Field) : Slots.Given fs (Slots.empty fs) := by
  induction fs with
  | nil => trivial
  | cons f fs ih => exact ⟨nofun, ih⟩

/-- A member fills its slot with what was read, or passes by. -/
theorem Slots.Given.accept {fs : List Field} {key : String} {d : Document} {slots slots' : Slots fs}
    (h : Slots.Given fs slots) (accepted : Slots.accept fs key d slots = .ok slots') :
    Slots.Given fs slots' := by
  induction fs with
  | nil => trivial
  | cons f fs ih =>
    obtain ⟨slot, slots⟩ := slots
    by_cases hkey : key = f.name
    · cases slot with
      -- A second member of one name is refused.
      | some v => exact nomatch (if_pos hkey).symm.trans accepted
      | none =>
        obtain ⟨v, hv, rfl⟩ := map_eq_ok.mp ((if_pos hkey).symm.trans accepted)
        exact ⟨fun w hw => ⟨d, by rw [hv, Option.some_inj.mp hw]⟩, h.2⟩
    · obtain ⟨rest, hrest, rfl⟩ := map_eq_ok.mp
        ((Slots.accept_cons_of_ne hkey d slot slots).symm.trans accepted)
      exact ⟨h.1, ih h.2 hrest⟩

/-- So do any members, one after the other. -/
theorem Slots.Given.acceptAll {fs : List Field} {members : List (Option String × Document)}
    {slots slots' : Slots fs} (h : Slots.Given fs slots)
    (accepted : Slots.acceptAll fs members slots = .ok slots') : Slots.Given fs slots' := by
  induction members generalizing slots with
  | nil =>
    obtain rfl := Except.ok.inj accepted
    exact h
  | cons m members ih =>
    obtain ⟨key | key, d⟩ := m
    · contradiction
    · obtain ⟨next, hnext, haccepted⟩ := bind_eq_ok.mp accepted
      exact ih (h.accept hnext) haccepted

/-- A slot that is still empty at the end holds what stands for an absent member. -/
theorem Slots.Given.finish {fs : List Field} {slots : Slots fs} {vs : Values fs}
    (h : Slots.Given fs slots) (finished : Slots.finish fs slots = .ok vs) : Values.Given fs vs := by
  induction fs with
  | nil => trivial
  | cons f fs ih =>
    obtain ⟨slot, slots⟩ := slots
    rw [Slots.finish] at finished
    split at finished
    · contradiction
    · next value hvalue =>
      obtain ⟨rest, hrest, rfl⟩ := map_eq_ok.mp finished
      refine ⟨?_, ih h.2 hrest⟩
      cases slot with
      | some v =>
        obtain rfl := Option.some_inj.mp hvalue
        exact .inl (h.1 v rfl)
      | none => exact .inr hvalue

/-- Without names the elements of an array are the fields in their order. -/
theorem given_of_ofItems {fs : List Field} {ds : List Document} {closed : Bool} {vs : Values fs}
    (h : Values.ofItems fs ds closed = .ok vs) : Values.Given fs vs := by
  induction fs generalizing ds with
  | nil => trivial
  | cons f fs ih =>
    cases ds with
    | nil =>
      -- An array that is too short leaves its last fields absent.
      obtain ⟨-, -, h⟩ := bind_eq_ok.mp h
      split at h
      · contradiction
      · next value hvalue =>
        obtain ⟨rest, hrest, rfl⟩ := map_eq_ok.mp h
        exact ⟨.inr hvalue, ih hrest⟩
    | cons d ds =>
      obtain ⟨v, hv, h⟩ := bind_eq_ok.mp h
      obtain ⟨rest, hrest, h⟩ := bind_eq_ok.mp h
      obtain rfl := Except.ok.inj h
      exact ⟨.inl ⟨d, hv⟩, ih hrest⟩

/-- The values of a record are such as its fields can have. -/
theorem given_of_record {fs : List Field} {d : Document} {vs : Values fs}
    (h : record fs d = .ok vs) : Values.Given fs vs := by
  unfold record at h
  split at h
  · obtain ⟨slots, hslots, h⟩ := bind_eq_ok.mp h
    obtain ⟨-, -, h⟩ := bind_eq_ok.mp h
    exact ((Slots.given_empty fs).acceptAll hslots).finish h
  · exact given_of_ofItems h
  · contradiction

theorem given_of_tuple {fs : List Field} {d : Document} {vs : Values fs}
    (h : tuple fs d = .ok vs) : Values.Given fs vs := by
  unfold tuple at h
  split at h
  · exact given_of_ofItems h
  · contradiction

/-! ## §4 Choices -/

section Choices

variable {variants : List (Variant β)} {name : String} {b : β}

/-- How a choice is written: a variant without contents by its name, and one with contents as an
object with its name as the only key. -/
inductive Chosen (variants : List (Variant β)) : Json → β → Prop where
  | unit {name : String} {b : β} (found : findVariant variants name = .ok (.unit name b)) :
      Chosen variants (.text name) b
  | holding {name : String} {read : Reader β} {j : Json} {b : β}
      (found : findVariant variants name = .ok (.holding name read))
      (contents : read (ofJson j) = .ok b) : Chosen variants (.object [(name, j)]) b

/-- A choice that was written is read as what was chosen. -/
theorem choice_of_chosen {j : Json} (h : Chosen variants j b) : choice variants (ofJson j) = .ok b := by
  cases h with
  | unit found =>
    rw [ofJson, choice, found]
    rfl
  | @holding name read j b found contents =>
    rw [ofJson, ofMembers, ofMembers, choice, found]
    show (do let value ← read (ofJson j); closing true; return value : Except Objection β) = .ok b
    rw [contents]
    rfl

theorem keptChoice_of_chosen {j : Json} (h : Chosen variants j b) :
    keptChoice variants (ofJson j) = .ok b := by
  cases h with
  | unit found =>
    rw [ofJson, keptChoice, found]
    rfl
  | holding found contents =>
    rw [ofJson, ofMembers, ofMembers, keptChoice, found]
    exact contents

/-- Every value of a variant has a property. -/
def Variant.Ensures (p : β → Prop) : Variant β → Prop
  | .unit _ value => p value
  | .holding _ read => ∀ d b, read d = .ok b → p b

/-- The contents of a variant have a property if what they are made from has one. -/
theorem Variant.ensures_map {p : β → Prop} {q : γ → Prop} {read : Reader γ} {f : γ → β}
    (h : ∀ d c, read d = .ok c → q c) (hf : ∀ c, q c → p (f c)) :
    (Variant.holding name fun d => (read d).map f).Ensures p := by
  intro d b hb
  obtain ⟨c, hc, rfl⟩ := map_eq_ok.mp hb
  exact hf c (h d c hc)

variable {p : β → Prop}

/-- A variant that is found is one of those that there are. -/
theorem ensures_of_findVariant (h : ∀ v ∈ variants, v.Ensures p) {v : Variant β}
    (found : findVariant variants name = .ok v) : v.Ensures p := by
  unfold findVariant at found
  split at found
  · next w hw =>
    obtain rfl := Except.ok.inj found
    exact h w (List.mem_of_find?_eq_some hw)
  · contradiction

theorem Variant.Ensures.alone {v : Variant β} (h : v.Ensures p) (hb : v.alone = .ok b) : p b := by
  cases v with
  | unit name value =>
    obtain rfl := Except.ok.inj hb
    exact h
  | holding name read => contradiction

theorem Variant.Ensures.contents {v : Variant β} (h : v.Ensures p) {d : Document}
    (hb : v.contents d = .ok b) : p b := by
  cases v with
  | unit name value =>
    simp only [Variant.contents] at hb
    split at hb
    · obtain rfl := Except.ok.inj hb
      exact h
    · contradiction
  | holding name read => exact h d b hb

theorem Variant.Ensures.keptContents {v : Variant β} (h : v.Ensures p) {d : Document}
    (hb : v.keptContents d = .ok b) : p b := by
  cases v with
  | unit name value =>
    simp only [Variant.keptContents] at hb
    split at hb
    · obtain rfl := Except.ok.inj hb
      exact h
    · obtain rfl := Except.ok.inj hb
      exact h
    · contradiction
  | holding name read => exact h d b hb

/-- What is read as a choice has the property that all its variants ensure. -/
theorem choice_induction (h : ∀ v ∈ variants, v.Ensures p) {d : Document}
    (hb : choice variants d = .ok b) : p b := by
  unfold choice at hb
  split at hb
  · obtain ⟨v, hv, hb⟩ := bind_eq_ok.mp hb
    exact (ensures_of_findVariant h hv).alone hb
  · obtain ⟨v, hv, hb⟩ := bind_eq_ok.mp hb
    obtain ⟨value, hvalue, hb⟩ := bind_eq_ok.mp hb
    obtain ⟨-, -, hb⟩ := bind_eq_ok.mp hb
    obtain rfl := Except.ok.inj hb
    exact (ensures_of_findVariant h hv).contents hvalue
  · contradiction

theorem keptChoice_induction (h : ∀ v ∈ variants, v.Ensures p) {d : Document}
    (hb : keptChoice variants d = .ok b) : p b := by
  unfold keptChoice at hb
  split at hb
  · obtain ⟨v, hv, hb⟩ := bind_eq_ok.mp hb
    exact (ensures_of_findVariant h hv).alone hb
  · obtain ⟨v, hv, hb⟩ := bind_eq_ok.mp hb
    exact (ensures_of_findVariant h hv).keptContents hb
  · contradiction

end Choices

end Reader

end LayerAnimation
