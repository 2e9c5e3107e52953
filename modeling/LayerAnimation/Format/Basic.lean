import LayerAnimation.Format.Reader
import LayerAnimation.Attribute

/-!
# Formats

A format says how the values of a type stand in documents, in both directions.  Formats of numbers
are a parameter of all others, so the same definitions serve documents, which have no infinite
numbers, and any other notation for numbers.
-/

namespace LayerAnimation

/-- How the values of a type are read and written. -/
structure Format (β : Type) where
  read : Reader β
  write : β → Json

namespace Format

variable {α β : Type}

/-! ## §1 Documents -/

/-- Read a text that holds one value and nothing else. -/
def parse (f : Format β) (s : String) : Except Objection β := do
  let (d, ended) := Document.read s
  let value ← f.read d
  Reader.closing ended
  return value

/-- Write a value without blanks. -/
def compact (f : Format β) (b : β) : String :=
  (f.write b).compact

/-- Write a value with one element or member per line. -/
def pretty (f : Format β) (b : β) : String :=
  (f.write b).pretty

/-! ## §2 Scalars and containers -/

/-- Numbers. -/
def number : Format Float :=
  ⟨Reader.number, Json.number⟩

/-- Whole numbers of at most 64 bits. -/
def natural : Format Nat :=
  ⟨Reader.natural, fun n => .integer n⟩

/-- Truth values. -/
def bool : Format Bool :=
  ⟨Reader.bool, Json.bool⟩

/-- Values that may be null. -/
def optional (f : Format β) : Format (Option β) :=
  ⟨Reader.optional f.read, fun b => b.elim .null f.write⟩

/-- Lists of values. -/
def list (f : Format β) : Format (List β) :=
  ⟨Reader.list f.read, fun bs => .array (bs.map f.write)⟩

/-- A required field of a record. -/
def field (f : Format β) (name : String) : Reader.Field :=
  ⟨name, f.read, none⟩

/-- A field of a record that may be absent. -/
def fieldOr (f : Format β) (name : String) (absent : β) : Reader.Field :=
  ⟨name, f.read, some absent⟩

/-! ## §3 Attributes -/

/-- Find the attribute with a path. -/
def attributeOfPath (path : String) : Except Objection Attribute :=
  match Attribute.ofPath? path with
  | some a => .ok a
  | none => .error (.unknownAttribute path)

/-- Attributes by their paths. -/
def attributePath : Format Attribute where
  read d := do attributeOfPath (← Reader.text d)
  write a := .text a.path

/-- Add the members of an object to a map; a later member replaces an earlier one. -/
def readEntries (read : Reader β) :
    List (Option String × Document) → AttributeMap β → Except Objection (AttributeMap β)
  | [], m => .ok m
  | (none, _) :: _, _ => .error .malformed
  | (some path, d) :: rest, m => do
      let a ← attributeOfPath path
      let b ← read d
      readEntries read rest (m.insert a b)

/-- Maps as objects with the paths of the attributes as keys. -/
def attributeMap (f : Format β) : Format (AttributeMap β) where
  read
    | .object members closed => do
        let m ← readEntries f.read members .empty
        Reader.closing closed
        return m
    | _ => .error .malformed
  write m := .object (m.toList.map fun (a, b) => (a.path, f.write b))

end Format

end LayerAnimation
