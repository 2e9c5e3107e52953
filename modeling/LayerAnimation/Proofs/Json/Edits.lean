import LayerAnimation.Options
import LayerAnimation.Proofs.Json.Pretty

/-!
# Edited documents

Whoever edits the document of a script by hand leaves out what holds its default and puts the
members of an object in any order.

- `Json.Place` says where a value stands in the document of a script, and `Place.holdsDefault` which
  members may be left out there.
- `Json.Edited` relates a document to what such edits, in any number and at any depth, make of it.
- `Edited.plain` is what edits leave as it was: a document that can be kept for later still can.
-/

namespace LayerAnimation

namespace Json

/-! ## §1 Places -/

/-- Where a value stands in the document of a script. -/
inductive Place where
  | script
  | steps
  | step
  | intents
  | intent
  | track
  /-- Anywhere else.  There no member has a default. -/
  | other
  deriving DecidableEq, Repr

namespace Place

/-- Where the value of a member stands. -/
def member : Place → String → Place
  | .script, "steps" => .steps
  | .step, "intents" => .intents
  | .intent, "custom" => .track
  | _, _ => .other

/-- Where an element of an array stands. -/
def item : Place → Place
  | .steps => .step
  | .intents => .intent
  | _ => .other

/-- Whether a member may be left out because its value is the default. -/
def holdsDefault : Place → String → Json → Bool
  | .script, "initial", .object [] => true
  | .script, "steps", .array [] => true
  -- Numbers are compared as the program compares them, so either zero is the default.
  | .step, "at", .number x => x == 0.0
  | .step, "duration", .number x => x == Options.standardDuration
  | .step, "timing", .text name => name == "ease_in_ease_out"
  | .step, "delay", .number x => x == Options.standardDelay
  | .track, "from_value", .null => true
  | .track, "to_value", .null => true
  | .track, "duration", .null => true
  | _, _, _ => false

/-- A track has no defaults but null. -/
theorem eq_null_of_holdsDefault {name : String} {j : Json}
    (h : track.holdsDefault name j = true) : j = .null := by
  unfold holdsDefault at h
  split at h <;> trivial

end Place

/-! ## §2 Edits -/

mutual

/-- The second document is the first one, standing at the given place, after members that hold
their defaults have been left out and the members of objects have been put in another order. -/
inductive Edited : Place → Json → Json → Prop where
  | null {p : Place} : Edited p .null .null
  | bool {p : Place} (b : Bool) : Edited p (.bool b) (.bool b)
  | integer {p : Place} (n : Int) : Edited p (.integer n) (.integer n)
  | number {p : Place} (x : Float) : Edited p (.number x) (.number x)
  | text {p : Place} (s : String) : Edited p (.text s) (.text s)
  | array {p : Place} {items items' : List Json} (edits : EditedItems p.item items items') :
      Edited p (.array items) (.array items')
  | object {p : Place} {members kept members' : List (String × Json)}
      (edits : EditedMembers p members kept) (order : kept.Perm members') :
      Edited p (.object members) (.object members')

/-- The elements of an array are edited one by one. -/
inductive EditedItems : Place → List Json → List Json → Prop where
  | nil {p : Place} : EditedItems p [] []
  | cons {p : Place} {item item' : Json} {rest rest' : List Json} (edit : Edited p item item')
      (edits : EditedItems p rest rest') : EditedItems p (item :: rest) (item' :: rest')

/-- Each member of an object is kept with its value edited, or left out. -/
inductive EditedMembers : Place → List (String × Json) → List (String × Json) → Prop where
  | nil {p : Place} : EditedMembers p [] []
  | keep {p : Place} {name : String} {value value' : Json} {rest rest' : List (String × Json)}
      (edit : Edited (p.member name) value value') (edits : EditedMembers p rest rest') :
      EditedMembers p ((name, value) :: rest) ((name, value') :: rest')
  | drop {p : Place} {name : String} {value : Json} {rest rest' : List (String × Json)}
      (holds : p.holdsDefault name value = true) (edits : EditedMembers p rest rest') :
      EditedMembers p ((name, value) :: rest) rest'

end

mutual

/-- Nothing need be edited. -/
theorem Edited.refl (p : Place) : (j : Json) → Edited p j j
  | .null => .null
  | .bool b => .bool b
  | .integer n => .integer n
  | .number x => .number x
  | .text s => .text s
  | .array items => .array (EditedItems.refl p.item items)
  | .object members => .object (EditedMembers.refl p members) (List.Perm.refl members)

theorem EditedItems.refl (p : Place) : (items : List Json) → EditedItems p items items
  | [] => .nil
  | item :: rest => .cons (Edited.refl p item) (EditedItems.refl p rest)

theorem EditedMembers.refl (p : Place) :
    (members : List (String × Json)) → EditedMembers p members members
  | [] => .nil
  | (name, value) :: rest => .keep (Edited.refl (p.member name) value) (EditedMembers.refl p rest)

end

/-! ## §3 What edits leave as it was -/

/-- No element of an array is left out. -/
theorem EditedItems.length_eq {p : Place} {items items' : List Json}
    (h : EditedItems p items items') : items'.length = items.length := by
  induction items generalizing items' with
  | nil =>
    cases h
    rfl
  | cons item items ih =>
    cases h with
    | cons edit edits => rw [List.length_cons, List.length_cons, ih edits]

section Members

variable {p : Place} {members members' : List (String × Json)}

/-- The members that are left keep their keys and stand in the order of the object. -/
theorem EditedMembers.keys_sublist (h : EditedMembers p members members') :
    (members'.map Prod.fst).Sublist (members.map Prod.fst) := by
  induction members generalizing members' with
  | nil =>
    cases h
    exact List.Sublist.slnil
  | cons m members ih =>
    cases h with
    | keep edit edits => exact (ih edits).cons_cons _
    | drop holds edits => exact (ih edits).cons _

/-- A member that is left is an edited member of the object. -/
theorem EditedMembers.exists_of_mem (h : EditedMembers p members members') {m : String × Json}
    (hm : m ∈ members') : ∃ j, (m.1, j) ∈ members ∧ Edited (p.member m.1) j m.2 := by
  induction members generalizing members' with
  | nil =>
    cases h
    contradiction
  | cons _ members ih =>
    cases h with
    | keep edit edits =>
      cases hm with
      | head => exact ⟨_, List.mem_cons_self, edit⟩
      | tail _ hm =>
        obtain ⟨j, hj, edit⟩ := ih edits hm
        exact ⟨j, List.mem_cons_of_mem _ hj, edit⟩
    | drop holds edits =>
      obtain ⟨j, hj, edit⟩ := ih edits hm
      exact ⟨j, List.mem_cons_of_mem _ hj, edit⟩

/-- Where no member has a default, none is left out. -/
theorem EditedMembers.keys_eq (h : EditedMembers .other members members') :
    members'.map Prod.fst = members.map Prod.fst := by
  induction members generalizing members' with
  | nil =>
    cases h
    rfl
  | cons m members ih =>
    cases h with
    | keep edit edits => rw [List.map_cons, List.map_cons, ih edits]
    | drop holds edits => contradiction

/-- Members that stand in a row are edited apart from those behind. -/
theorem EditedMembers.of_append {behind : List (String × Json)}
    (h : EditedMembers p (members ++ behind) members') :
    ∃ front back, members' = front ++ back ∧ EditedMembers p members front ∧
      EditedMembers p behind back := by
  induction members generalizing members' with
  | nil => exact ⟨[], members', rfl, .nil, h⟩
  | cons m members ih =>
    cases h with
    | keep edit edits =>
      obtain ⟨front, back, rfl, hfront, hback⟩ := ih edits
      exact ⟨_ :: front, back, rfl, .keep edit hfront, hback⟩
    | drop holds edits =>
      obtain ⟨front, back, rfl, hfront, hback⟩ := ih edits
      exact ⟨front, back, rfl, .drop holds hfront, hback⟩

end Members

end Json

namespace Document

/-- Members that are put in another order are read in that order. -/
theorem ofMembers_perm {members members' : List (String × Json)} (h : members.Perm members') :
    (ofMembers members).Perm (ofMembers members') := by
  rw [ofMembers_eq_map, ofMembers_eq_map]
  exact h.map _

/-- Members can be kept for later if each of them can, under a readable key. -/
theorem plainMembers_iff {depth : ℕ} {members : List (Option String × Document)} :
    plainMembers depth members = true
      ↔ ∀ m ∈ members, m.1.isSome = true ∧ m.2.plain depth = true := by
  induction members with
  | nil => simp [plainMembers]
  | cons m members ih => simp [plainMembers, ih, and_assoc]

end Document

namespace Json

open Document (ofJson ofItems ofMembers ofMembers_perm plainItems plainMembers plainMembers_iff)

mutual

/-- A document that can be kept for later still can. -/
theorem Edited.plain {p : Place} {j j' : Json} (h : Edited p j j') {depth : ℕ}
    (hj : (ofJson j).plain depth = true) : (ofJson j').plain depth = true := by
  match h, depth with
  | .null, _ | .bool _, _ | .integer _, _ | .number _, _ | .text _, _ => exact hj
  | .array edits, 0 => exact hj
  | .array edits, depth + 1 =>
    simp only [ofJson, Document.plain, Bool.and_true] at hj ⊢
    exact edits.plain hj
  | .object edits order, 0 => exact hj
  | .object edits order, depth + 1 =>
    simp only [ofJson, Document.plain, Bool.and_true] at hj ⊢
    have hkept := plainMembers_iff.mp (edits.plain hj)
    -- The order does not matter for what holds of every member.
    exact plainMembers_iff.mpr fun m hm => hkept m ((ofMembers_perm order).mem_iff.mpr hm)

theorem EditedItems.plain {p : Place} {items items' : List Json} (h : EditedItems p items items')
    {depth : ℕ} (hitems : plainItems depth (ofItems items) = true) :
    plainItems depth (ofItems items') = true := by
  match h with
  | .nil => rfl
  | .cons edit edits =>
    simp only [ofItems, plainItems, Bool.and_eq_true] at hitems ⊢
    exact ⟨edit.plain hitems.1, edits.plain hitems.2⟩

theorem EditedMembers.plain {p : Place} {members members' : List (String × Json)}
    (h : EditedMembers p members members') {depth : ℕ}
    (hmembers : plainMembers depth (ofMembers members) = true) :
    plainMembers depth (ofMembers members') = true := by
  match h with
  | .nil => rfl
  | .keep edit edits =>
    simp only [ofMembers, plainMembers, Bool.and_eq_true] at hmembers ⊢
    exact ⟨⟨hmembers.1.1, edit.plain hmembers.1.2⟩, edits.plain hmembers.2⟩
  | .drop _ edits =>
    simp only [ofMembers, plainMembers, Bool.and_eq_true] at hmembers
    exact edits.plain hmembers.2

end

end Json

end LayerAnimation
