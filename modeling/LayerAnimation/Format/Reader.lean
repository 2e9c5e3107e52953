import LayerAnimation.Json.Document
import LayerAnimation.Problem

/-!
# Reading typed values from documents

A reader turns a document into a value or says why it cannot.  Readers walk the document from left
to right and stop at their first objection, so the objection reported is the first one in the order
of the text.

- `Reader.items` reads the elements of an array one after the other.
- `Reader.record` reads a record from an object, in any order of its members, or from an array of
  its fields in their fixed order.
- `Reader.choice` reads one of several named variants.
-/

namespace LayerAnimation

/-! ## §1 Objections -/

/-- Why a document is not read. -/
inductive Objection where
  /-- The text breaks the grammar, or holds another sort of value than expected. -/
  | malformed
  /-- A field without which a record is incomplete. -/
  | missing (field : String)
  /-- A field that is given twice. -/
  | duplicate (field : String)
  /-- A variant that does not exist, and those that do. -/
  | unknownVariant (got : String) (expected : List String)
  /-- A path that names no attribute. -/
  | unknownAttribute (path : String)
  deriving BEq, Repr

namespace Objection

/-- A name between backquotes. -/
def quotedName (name : String) : String :=
  "`" ++ name ++ "`"

/-- The names that would have been accepted. -/
def expectedNames : List String → String
  | [] => "there are no variants"
  | [one] => "expected " ++ quotedName one
  | [one, two] => "expected " ++ quotedName one ++ " or " ++ quotedName two
  | names => "expected one of " ++ ", ".intercalate (names.map quotedName)

/-- The text of an objection, except where the grammar or the sort of value is at fault. -/
def message? : Objection → Option String
  | .malformed => none
  | .missing field => some ("missing field " ++ quotedName field)
  | .duplicate field => some ("duplicate field " ++ quotedName field)
  | .unknownVariant got expected =>
      some ("unknown variant " ++ quotedName got ++ ", " ++ expectedNames expected)
  | .unknownAttribute path =>
      some (Problem.unknownAttribute path).fault.message

end Objection

/-- How a value is read from a document. -/
abbrev Reader (β : Type) := Document → Except Objection β

namespace Reader

variable {β γ : Type}

/-! ## §2 Scalars and containers -/

/-- A number that has a double. -/
def number : Reader Float
  | .number n _ =>
      match n.toFloat? with
      | some x => .ok x
      | none => .error .malformed
  | _ => .error .malformed

/-- A whole number of at most 64 bits. -/
def natural : Reader Nat
  | .number n true =>
      let value := n.mantissa * Nat.pow 10 n.exponent.toNat
      if n.negative ∨ Nat.pow 2 64 ≤ value then .error .malformed else .ok value
  | _ => .error .malformed

/-- A truth value. -/
def bool : Reader Bool
  | .bool b => .ok b
  | _ => .error .malformed

/-- A text. -/
def text : Reader String
  | .text (some s) => .ok s
  | _ => .error .malformed

/-- A value that may be null. -/
def optional (read : Reader β) : Reader (Option β)
  | .null => .ok none
  | d => (read d).map some

/-- The values of some elements, in order. -/
def items (read : Reader β) : List Document → Except Objection (List β)
  | [] => .ok []
  | d :: rest => do return (← read d) :: (← items read rest)

/-- Object to a container that is not closed. -/
def closing (closed : Bool) : Except Objection Unit :=
  if closed then .ok () else .error .malformed

/-- An array of values. -/
def list (read : Reader β) : Reader (List β)
  | .array ds closed => do
      let values ← items read ds
      closing closed
      return values
  | _ => .error .malformed

/-- An array with a fixed count of values. -/
def vector (n : Nat) (read : Reader β) : Reader (Vector β n)
  | .array ds closed => do
      -- A value beyond the count is refused without being read.
      let values ← items read (ds.take n)
      closing (closed && ds.length == n)
      if h : values.toArray.size = n then return ⟨values.toArray, h⟩ else .error .malformed
  | _ => .error .malformed

/-- Walk past a value that is not wanted. -/
def skip (d : Document) : Except Objection Unit :=
  if d.intact then .ok () else .error .malformed

/-! ## §3 Records -/

/-- A field of a record: its name, how its value is read, and the value that stands for an absent
one, if it may be absent. -/
structure Field where
  {Val : Type}
  name : String
  read : Reader Val
  absent : Option Val := none

/-- A value for each of some fields. -/
def Values : List Field → Type
  | [] => Unit
  | f :: fs => f.Val × Values fs

/-- A value for some of the fields. -/
def Slots : List Field → Type
  | [] => Unit
  | f :: fs => Option f.Val × Slots fs

/-- No value yet. -/
def Slots.empty : (fs : List Field) → Slots fs
  | [] => ()
  | _ :: fs => (none, Slots.empty fs)

/-- Read a member into its slot.  A second value for a slot is refused before it is looked at, and
a member that belongs to no field is passed by. -/
def Slots.accept : (fs : List Field) → String → Document → Slots fs → Except Objection (Slots fs)
  | [], _, d, slots => (skip d).map fun _ => slots
  | f :: fs, key, d, (slot, slots) =>
      if key = f.name then
        match slot with
        -- The second value is not looked at.
        | some _ => .error (.duplicate f.name)
        | none => (f.read d).map fun value => (some value, slots)
      else
        (Slots.accept fs key d slots).map fun slots => (slot, slots)

/-- Read members into their slots. -/
def Slots.acceptAll (fs : List Field) :
    List (Option String × Document) → Slots fs → Except Objection (Slots fs)
  | [], slots => .ok slots
  | (none, _) :: _, _ => .error .malformed
  | (some key, d) :: rest, slots => do
      let slots ← slots.accept fs key d
      Slots.acceptAll fs rest slots

/-- The values of all fields, once every member is read. -/
def Slots.finish : (fs : List Field) → Slots fs → Except Objection (Values fs)
  | [], _ => .ok ()
  | f :: fs, (slot, slots) =>
      match slot.or f.absent with
      | none => .error (.missing f.name)
      | some value => (Slots.finish fs slots).map fun values => (value, values)

/-- The values of all fields from elements in the order of the fields.  Missing ones at the end
must be such as may be absent. -/
def Values.ofItems : (fs : List Field) → List Document → Bool → Except Objection (Values fs)
  | [], [], closed => closing closed
  | [], _ :: _, _ => .error .malformed
  | f :: fs, d :: ds, closed => do
      let value ← f.read d
      let values ← Values.ofItems fs ds closed
      return (value, values)
  | f :: fs, [], closed => do
      closing closed
      match f.absent with
      | none => .error .malformed
      | some value => (Values.ofItems fs [] closed).map fun values => (value, values)

/-- A record, from an object or an array. -/
def record (fs : List Field) : Reader (Values fs)
  | .object members closed => do
      let slots ← Slots.acceptAll fs members (Slots.empty fs)
      closing closed
      -- What is missing shows only at the end.
      slots.finish fs
  | .array ds closed => Values.ofItems fs ds closed
  | _ => .error .malformed

/-- The values of some fields from an array alone. -/
def tuple (fs : List Field) : Reader (Values fs)
  | .array ds closed => Values.ofItems fs ds closed
  | _ => .error .malformed

/-! ## §4 Choices -/

/-- A named variant: a single value, or one with contents that are read. -/
inductive Variant (β : Type) where
  | unit (name : String) (value : β)
  | holding (name : String) (read : Reader β)

/-- The name of a variant. -/
def Variant.name : Variant β → String
  | .unit name _ => name
  | .holding name _ => name

/-- The variant with a given name. -/
def findVariant (variants : List (Variant β)) (name : String) : Except Objection (Variant β) :=
  match variants.find? fun v => v.name == name with
  | some v => .ok v
  | none => .error (.unknownVariant name (variants.map Variant.name))

/-- The contents of a variant; a variant without contents takes null. -/
def Variant.contents : Variant β → Reader β
  | .unit _ value, d => match d with
      | .null => .ok value
      | _ => .error .malformed
  | .holding _ read, d => read d

/-- A variant without contents by its name alone. -/
def Variant.alone : Variant β → Except Objection β
  | .unit _ value => .ok value
  | .holding _ _ => .error .malformed

/-- One of several variants: the name alone, or an object with the name as its only key. -/
def choice (variants : List (Variant β)) : Reader β
  | .text (some name) => do (← findVariant variants name).alone
  | .object ((some name, d) :: rest) closed => do
      let value ← (← findVariant variants name).contents d
      closing (closed && rest.isEmpty)
      return value
  | _ => .error .malformed

/-- The contents of a variant in a document that was kept; a variant without contents takes null or
an empty object. -/
def Variant.keptContents : Variant β → Reader β
  | .unit _ value, d => match d with
      | .null | .object [] _ => .ok value
      | _ => .error .malformed
  | .holding _ read, d => read d

/-- One of several variants in a document that was kept.  That the object has a single member is
checked before the name is. -/
def keptChoice (variants : List (Variant β)) : Reader β
  | .text (some name) => do (← findVariant variants name).alone
  | .object [(some name, d)] _ => do (← findVariant variants name).keptContents d
  | _ => .error .malformed

end Reader

end LayerAnimation
