import LayerAnimation.Decimal.Layout

/-!
# JSON documents

Documents as trees and their two written forms.

- `Json.compact` writes a document without blanks.
- `Json.pretty` writes one member or element per line, indented by two blanks a level; empty
  containers stay closed up.

Members keep their order.  A number that has no digits is written as null.
-/

namespace LayerAnimation

/-- A JSON document. -/
inductive Json where
  | null
  | bool (b : Bool)
  | integer (n : Int)
  | number (x : Float)
  | text (s : String)
  | array (items : List Json)
  | object (members : List (String × Json))
  deriving Repr

namespace Json

/-! ## §1 Scalars -/

/-- The hexadecimal digit for a number below sixteen. -/
def hexDigit (n : Nat) : Char :=
  if n < 10 then Char.ofNat (48 + n) else Char.ofNat (87 + n)

/-- A character inside a quoted text. -/
def escape (c : Char) : List Char :=
  if c = '"' then ['\\', '"']
  else if c = '\\' then ['\\', '\\']
  else if c = '\x08' then ['\\', 'b']
  else if c = '\t' then ['\\', 't']
  else if c = '\n' then ['\\', 'n']
  else if c = '\x0c' then ['\\', 'f']
  else if c = '\r' then ['\\', 'r']
  else if c.toNat < 32 then ['\\', 'u', '0', '0', hexDigit (c.toNat / 16), hexDigit (c.toNat % 16)]
  else [c]

/-- A quoted text. -/
def quoted (s : String) : List Char :=
  '"' :: (s.toList.flatMap escape ++ ['"'])

/-- The characters of a truth value. -/
def boolChars (b : Bool) : List Char :=
  (if b then "true" else "false").toList

/-- The characters of a whole number. -/
def integerChars (n : Int) : List Char :=
  if n < 0 then '-' :: Decimal.digitChars n.natAbs else Decimal.digitChars n.natAbs

/-- The characters of a number in a document. -/
def numberChars (x : Float) : List Char :=
  Decimal.Layout.json.chars x

/-! ## §2 Compact form -/

mutual

/-- The characters of a document without blanks. -/
def compactChars : Json → List Char
  | .null => "null".toList
  | .bool b => boolChars b
  | .integer n => integerChars n
  | .number x => numberChars x
  | .text s => quoted s
  | .array items => '[' :: (compactItems items ++ [']'])
  | .object members => '\x7b' :: (compactMembers members ++ ['\x7d'])

/-- Elements with commas between them. -/
def compactItems : List Json → List Char
  | [] => []
  | [item] => compactChars item
  | item :: rest => compactChars item ++ ',' :: compactItems rest

/-- Members with commas between them. -/
def compactMembers : List (String × Json) → List Char
  | [] => []
  | [(key, value)] => quoted key ++ ':' :: compactChars value
  | (key, value) :: rest => quoted key ++ ':' :: (compactChars value ++ ',' :: compactMembers rest)

end

/-- A document without blanks. -/
def compact (j : Json) : String :=
  String.ofList j.compactChars

/-! ## §3 Indented form -/

/-- A new line at a level of nesting. -/
def newLine (level : Nat) : List Char :=
  '\n' :: List.replicate (2 * level) ' '

mutual

/-- The characters of a document with one element or member per line. -/
def prettyChars (level : Nat) : Json → List Char
  | .null => "null".toList
  | .bool b => boolChars b
  | .integer n => integerChars n
  | .number x => numberChars x
  | .text s => quoted s
  | .array [] => ['[', ']']
  | .array items => '[' :: (prettyItems (level + 1) items ++ newLine level ++ [']'])
  | .object [] => ['\x7b', '\x7d']
  | .object members =>
      '\x7b' :: (prettyMembers (level + 1) members ++ newLine level ++ ['\x7d'])

/-- Elements on lines of their own with commas after all but the last. -/
def prettyItems (level : Nat) : List Json → List Char
  | [] => []
  | [item] => newLine level ++ prettyChars level item
  | item :: rest => newLine level ++ prettyChars level item ++ ',' :: prettyItems level rest

/-- Members on lines of their own with commas after all but the last. -/
def prettyMembers (level : Nat) : List (String × Json) → List Char
  | [] => []
  | [(key, value)] => newLine level ++ quoted key ++ ':' :: ' ' :: prettyChars level value
  | (key, value) :: rest =>
      newLine level ++ quoted key ++ ':' :: ' ' ::
        (prettyChars level value ++ ',' :: prettyMembers level rest)

end

/-- A document with one element or member per line. -/
def pretty (j : Json) : String :=
  String.ofList (j.prettyChars 0)

end Json

end LayerAnimation
