import LayerAnimation.Value

/-!
# Attributes

The eighteen attributes of a layer that can be animated, their written paths and their resting
values, and maps that hold at most one entry per attribute.

- `Attribute.all` lists the attributes in their fixed order, which is the order of every map.
- `Attribute.ofPath?` finds the attribute with a given path.
- `AttributeMap` has one slot per attribute, so two maps with equal lookups are equal.
-/

namespace LayerAnimation

/-! ## §1 The attributes and their paths -/

/-- An attribute of a layer. -/
inductive Attribute where
  | backgroundColor
  | cornerRadius
  | transform
  | rotation
  | rotationX
  | rotationY
  | rotationZ
  | scale
  | scaleX
  | scaleY
  | scaleZ
  | translation
  | translationX
  | translationY
  | translationZ
  | position
  | shadowPath
  | opacity
  deriving DecidableEq, Repr

namespace Attribute

/-- Every attribute, in the order of the type. -/
def all : List Attribute :=
  [.backgroundColor, .cornerRadius, .transform,
   .rotation, .rotationX, .rotationY, .rotationZ,
   .scale, .scaleX, .scaleY, .scaleZ,
   .translation, .translationX, .translationY, .translationZ,
   .position, .shadowPath, .opacity]

/-- The place of an attribute in the order. -/
def index : Attribute → Fin 18
  | .backgroundColor => 0
  | .cornerRadius => 1
  | .transform => 2
  | .rotation => 3
  | .rotationX => 4
  | .rotationY => 5
  | .rotationZ => 6
  | .scale => 7
  | .scaleX => 8
  | .scaleY => 9
  | .scaleZ => 10
  | .translation => 11
  | .translationX => 12
  | .translationY => 13
  | .translationZ => 14
  | .position => 15
  | .shadowPath => 16
  | .opacity => 17

/-- The attribute at a place of the order. -/
def ofIndex (i : Fin 18) : Attribute :=
  all[i.val]

/-- The written path of an attribute. -/
def path : Attribute → String
  | .backgroundColor => "backgroundColor"
  | .cornerRadius => "cornerRadius"
  | .transform => "transform"
  | .rotation => "transform.rotation"
  | .rotationX => "transform.rotation.x"
  | .rotationY => "transform.rotation.y"
  | .rotationZ => "transform.rotation.z"
  | .scale => "transform.scale"
  | .scaleX => "transform.scale.x"
  | .scaleY => "transform.scale.y"
  | .scaleZ => "transform.scale.z"
  | .translation => "transform.translation"
  | .translationX => "transform.translation.x"
  | .translationY => "transform.translation.y"
  | .translationZ => "transform.translation.z"
  | .position => "position"
  | .shadowPath => "shadowPath"
  | .opacity => "opacity"

/-- The attribute with the given path. -/
def ofPath? (s : String) : Option Attribute :=
  all.find? fun a => a.path == s

/-- No attribute is missing from the list. -/
theorem mem_all (a : Attribute) : a ∈ all := by
  cases a <;> decide

/-- The place of an attribute holds that attribute. -/
@[simp] theorem ofIndex_index (a : Attribute) : ofIndex a.index = a := by
  cases a <;> rfl

/-- The attribute at a place has that place. -/
@[simp] theorem index_ofIndex (i : Fin 18) : (ofIndex i).index = i := by
  revert i
  decide

/-- Attributes at the same place are equal. -/
theorem index_inj {a b : Attribute} : a.index = b.index ↔ a = b :=
  ⟨fun h => by rw [← ofIndex_index a, h, ofIndex_index], fun h => h ▸ rfl⟩

/-- The path of an attribute leads back to it. -/
@[simp] theorem ofPath?_path (a : Attribute) : ofPath? a.path = some a := by
  cases a <;> decide

/-- Only its own path leads to an attribute. -/
theorem ofPath?_eq_some_iff {s : String} {a : Attribute} : ofPath? s = some a ↔ s = a.path :=
  ⟨fun h => (by simpa using List.find?_some h : a.path = s).symm, fun h => h ▸ ofPath?_path a⟩

/-- Whether the path leads below the transform of the layer. -/
def isTransformPart (a : Attribute) : Bool :=
  "transform.".isPrefixOf a.path

instance : Ord Attribute where
  compare a b := compare a.index.val b.index.val

/-- A list of attributes in the order of the type; repeated ones stay. -/
def sort (as : List Attribute) : List Attribute :=
  as.mergeSort fun a b => a.index ≤ b.index

/-! ## §2 Resting values -/

section Rest

variable {α : Type} [Scalar α]

/-- What a layer shows for an attribute that was never set.  Only the shadow outline has no
resting value: there is no shadow until one is set. -/
def rest? : Attribute → Option (Value α)
  | .backgroundColor => some (.color .transparent)
  | .cornerRadius => some (.scalar 0.0)
  | .transform => some (.transform .identity)
  | .rotation | .rotationX | .rotationY | .rotationZ => some (.scalar 0.0)
  | .scale | .scaleX | .scaleY | .scaleZ => some (.scalar 1.0)
  | .translation | .position => some (.point .zero)
  | .translationX | .translationY | .translationZ => some (.scalar 0.0)
  | .shadowPath => none
  | .opacity => some (.scalar 1.0)

end Rest

end Attribute

/-! ## §3 Maps -/

/-- At most one entry per attribute. -/
structure AttributeMap (β : Type) where
  slots : Vector (Option β) 18
  deriving BEq, Repr

namespace AttributeMap

variable {β γ : Type}

/-- No entry. -/
def empty : AttributeMap β :=
  ⟨Vector.replicate 18 none⟩

/-- The entry of an attribute. -/
def get? (m : AttributeMap β) (a : Attribute) : Option β :=
  m.slots[a.index]

/-- The map with the entry of one attribute set. -/
def insert (m : AttributeMap β) (a : Attribute) (b : β) : AttributeMap β :=
  ⟨m.slots.set a.index (some b)⟩

/-- The map without the entry of one attribute. -/
def erase (m : AttributeMap β) (a : Attribute) : AttributeMap β :=
  ⟨m.slots.set a.index none⟩

/-- The map with the given entry for every attribute. -/
def ofFn (f : Attribute → Option β) : AttributeMap β :=
  ⟨Vector.ofFn fun i => f (.ofIndex i)⟩

/-- The map of a list of entries; of two entries for one attribute the later stays. -/
def ofList (entries : List (Attribute × β)) : AttributeMap β :=
  entries.foldl (fun m e => m.insert e.1 e.2) empty

/-- The entries in the order of the attributes. -/
def toList (m : AttributeMap β) : List (Attribute × β) :=
  Attribute.all.filterMap fun a => (m.get? a).map (a, ·)

/-- The attributes that have an entry, in order. -/
def keys (m : AttributeMap β) : List Attribute :=
  Attribute.all.filter fun a => (m.get? a).isSome

/-- Whether no attribute has an entry. -/
def isEmpty (m : AttributeMap β) : Bool :=
  m.keys.isEmpty

/-! ## §4 Lookups -/

/-- A lookup reads the slot at the place of the attribute. -/
theorem slots_eq_get? (m : AttributeMap β) (i : Fin 18) : m.slots[i] = m.get? (.ofIndex i) := by
  simp [get?]

/-- Maps with the same lookups are equal. -/
theorem ext_get? {m n : AttributeMap β} (h : ∀ a, m.get? a = n.get? a) : m = n := by
  obtain ⟨v⟩ := m
  obtain ⟨w⟩ := n
  congr
  ext i hi : 1
  have := h (.ofIndex ⟨i, hi⟩)
  rwa [← slots_eq_get?, ← slots_eq_get?] at this

/-- The empty map has no entries. -/
@[simp] theorem get?_empty (a : Attribute) : (empty : AttributeMap β).get? a = none := by
  simp [get?, empty]

/-- An entry that is set hides what was there, and no other entry. -/
theorem get?_insert (m : AttributeMap β) (a c : Attribute) (b : β) :
    (m.insert a b).get? c = if a = c then some b else m.get? c := by
  simp [get?, insert, Vector.getElem_set, Fin.val_inj, Attribute.index_inj]

/-- An entry that is taken away is gone, and no other entry. -/
theorem get?_erase (m : AttributeMap β) (a c : Attribute) :
    (m.erase a).get? c = if a = c then none else m.get? c := by
  simp [get?, erase, Vector.getElem_set, Fin.val_inj, Attribute.index_inj]

/-- A map given by a function holds its values. -/
@[simp] theorem get?_ofFn (f : Attribute → Option β) (a : Attribute) : (ofFn f).get? a = f a := by
  simp [get?, ofFn]

/-- The entries of a map are its lookups. -/
theorem mem_toList {m : AttributeMap β} {a : Attribute} {b : β} :
    (a, b) ∈ m.toList ↔ m.get? a = some b := by
  simp only [toList, List.mem_filterMap, Option.map_eq_some_iff, Prod.mk.injEq]
  exact ⟨fun ⟨_, _, _, h, ha, hb⟩ => ha ▸ hb ▸ h,
    fun h => ⟨a, Attribute.mem_all a, b, h, rfl, rfl⟩⟩

/-- The keys of a map are the attributes with an entry. -/
theorem mem_keys {m : AttributeMap β} {a : Attribute} : a ∈ m.keys ↔ (m.get? a).isSome := by
  simp [keys, Attribute.mem_all]

end AttributeMap

end LayerAnimation
