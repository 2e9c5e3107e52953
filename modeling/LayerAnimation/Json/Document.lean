import LayerAnimation.Json.Basic

/-!
# Reading documents

`Document.read` reads a text from left to right and keeps everything that it says up to the first
place where it stops being a JSON text.  That place is marked: by `broken` where a value was
expected, and by a container that is not closed where a separator was expected.  A consumer that
walks the tree from left to right therefore meets its own first objection and the first objection
of the grammar in the order of the text.

Two questions separate documents by how closely they are looked at:

- `Document.intact`: is the grammar kept?  This is all that a skipped value has to satisfy.
- `Document.plain`: can the value be kept for later?  Numbers must have a double, texts must be
  Unicode and the nesting is bounded.
-/

namespace LayerAnimation

open Decimal (Numeral digitsValue)

/-- What a text says, as far as it is a JSON text. -/
inductive Document where
  /-- Here the text is not a value. -/
  | broken
  | null
  | bool (b : Bool)
  /-- A number, and whether it is written without fraction and exponent. -/
  | number (n : Numeral) (whole : Bool)
  /-- A quoted text; `none` if an escape in it is half of a surrogate pair without its partner. -/
  | text (s : Option String)
  /-- The elements, and whether they are followed by the closing bracket. -/
  | array (items : List Document) (closed : Bool)
  /-- The members, and whether they are followed by the closing brace. -/
  | object (members : List (Option String × Document)) (closed : Bool)
  deriving Repr

namespace Document

/-! ## §1 Quoted texts -/

/-- A piece of a quoted text: a character or one half of a surrogate pair. -/
inductive Piece where
  | char (c : Char)
  | half (unit : Nat)
  deriving DecidableEq, Repr

/-- The value of a hexadecimal digit. -/
def hexValue? (c : Char) : Option Nat :=
  if '0' ≤ c ∧ c ≤ '9' then some (c.toNat - '0'.toNat)
  else if 'a' ≤ c ∧ c ≤ 'f' then some (c.toNat - 'a'.toNat + 10)
  else if 'A' ≤ c ∧ c ≤ 'F' then some (c.toNat - 'A'.toNat + 10)
  else none

/-- The number that four hexadecimal digits write. -/
def hexUnit? (a b c d : Char) : Option Nat := do
  return (((← hexValue? a) * 16 + (← hexValue? b)) * 16 + (← hexValue? c)) * 16 + (← hexValue? d)

/-- The character that an escape with one letter stands for. -/
def shortEscape? (c : Char) : Option Char :=
  if c = '"' then some '"'
  else if c = '\\' then some '\\'
  else if c = '/' then some '/'
  else if c = 'b' then some '\x08'
  else if c = 'f' then some '\x0c'
  else if c = 'n' then some '\n'
  else if c = 'r' then some '\r'
  else if c = 't' then some '\t'
  else none

/-- The piece for a 16-bit unit. -/
def pieceOfUnit (unit : Nat) : Piece :=
  if 0xD800 ≤ unit ∧ unit ≤ 0xDFFF then .half unit else .char (Char.ofNat unit)

/-- The pieces up to the closing quote and what follows it; `none` if the text breaks off, holds a
bare control character or an unknown escape.  Pieces already read are passed in reverse. -/
def scanPieces (done : List Piece) : List Char → Option (List Piece × List Char)
  | [] => none
  | c :: rest =>
      if c = '"' then some (done.reverse, rest)
      else if c = '\\' then
        match rest with
        | [] => none
        -- Halves of surrogate pairs are kept apart until the whole text is read.
        | 'u' :: h₁ :: h₂ :: h₃ :: h₄ :: rest =>
            match hexUnit? h₁ h₂ h₃ h₄ with
            | none => none
            | some unit => scanPieces (pieceOfUnit unit :: done) rest
        | e :: rest =>
            match shortEscape? e with
            | none => none
            | some c => scanPieces (.char c :: done) rest
      else if c.toNat < 32 then none
      else scanPieces (.char c :: done) rest

/-- Join the halves of surrogate pairs; `none` if a half is without its partner.  Characters
already joined are passed in reverse. -/
def joinHalves (done : List Char) : List Piece → Option String
  | [] => some (String.ofList done.reverse)
  | .char c :: rest => joinHalves (c :: done) rest
  | .half high :: .half low :: rest =>
      if high < 0xDC00 ∧ 0xDC00 ≤ low then
        joinHalves (Char.ofNat (0x10000 + (high - 0xD800) * 0x400 + (low - 0xDC00)) :: done) rest
      else none
  | .half _ :: _ => none

/-- A quoted text after its opening quote. -/
def scanText (cs : List Char) : Option (Option String × List Char) :=
  (scanPieces [] cs).map fun (pieces, rest) => (joinHalves [] pieces, rest)

/-! ## §2 Numbers -/

/-- Whether a character is a decimal digit. -/
def isDigit (c : Char) : Bool :=
  decide ('0' ≤ c ∧ c ≤ '9')

/-- The leading digits of a text and the rest. -/
def scanDigits (cs : List Char) : List Char × List Char :=
  (cs.takeWhile isDigit, cs.dropWhile isDigit)

/-- An exponent after its letter: an optional sign and at least one digit. -/
def scanExponent (cs : List Char) : Option (Int × List Char) :=
  let (negative, cs) :=
    match cs with
    | '-' :: rest => (true, rest)
    | '+' :: rest => (false, rest)
    | cs => (false, cs)
  let (digits, rest) := scanDigits cs
  if digits.isEmpty then none
  else
    let n : Int := digitsValue digits
    some (if negative then -n else n, rest)

/-- An optional exponent; without its letter it is zero. -/
def scanOptionalExponent (cs : List Char) : Option (Option Int × List Char) :=
  match cs with
  | c :: rest =>
      if c = 'e' ∨ c = 'E' then (scanExponent rest).map fun (n, rest) => (some n, rest)
      else some (none, cs)
  | [] => some (none, [])

/-- An optional fraction: a point and at least one digit. -/
def scanOptionalFraction (cs : List Char) : Option (Option (List Char) × List Char) :=
  match cs with
  | '.' :: rest =>
      let (digits, rest) := scanDigits rest
      if digits.isEmpty then none else some (some digits, rest)
  | cs => some (none, cs)

/-- A number without its sign.  The whole part has no leading zero. -/
def scanMagnitude (negative : Bool) (cs : List Char) : Option (Document × List Char) := do
  let (whole, cs) := scanDigits cs
  -- A zero stands alone or before the point.
  if whole.isEmpty || (whole.length > 1 && whole.head? == some '0') then none
  let (fraction, cs) ← scanOptionalFraction cs
  let (exponent, cs) ← scanOptionalExponent cs
  let places := fraction.getD []
  let numeral : Numeral :=
    ⟨negative, digitsValue (whole ++ places), exponent.getD 0 - places.length⟩
  return (.number numeral.normal (fraction.isNone && exponent.isNone), cs)

/-- A number. -/
def scanNumber : List Char → Option (Document × List Char)
  | '-' :: rest => scanMagnitude true rest
  | cs => scanMagnitude false cs

/-! ## §3 Documents -/

/-- The four characters that may stand between tokens. -/
def isBlank (c : Char) : Bool :=
  c == ' ' || c == '\n' || c == '\t' || c == '\r'

/-- A text without the blanks at its start. -/
def skipBlanks (cs : List Char) : List Char :=
  cs.dropWhile isBlank

/-- A word that stands for a value. -/
def scanWord (word : List Char) (value : Document) (cs : List Char) : Option (Document × List Char) :=
  if word.isPrefixOf cs then some (value, cs.drop word.length) else none

/-- A scalar that is not a quoted text. -/
def scanScalar (cs : List Char) : Option (Document × List Char) :=
  match cs with
  | 'n' :: _ => scanWord "null".toList .null cs
  | 't' :: _ => scanWord "true".toList (.bool true) cs
  | 'f' :: _ => scanWord "false".toList (.bool false) cs
  | cs => scanNumber cs

mutual

/-- Read a value.  Beside it stands what follows, unless reading stopped inside; `fuel` bounds the
nesting and the number of elements. -/
def readValue : Nat → List Char → Document × Option (List Char)
  | 0, _ => (.broken, none)
  | fuel + 1, cs =>
      match skipBlanks cs with
      | [] => (.broken, none)
      | c :: rest =>
          if c = '"' then
            match scanText rest with
            | none => (.broken, none)
            | some (s, rest) => (.text s, some rest)
          else if c = '[' then
            match skipBlanks rest with
            -- Only here may the bracket close without an element in front of it.
            | ']' :: rest => (.array [] true, some rest)
            | rest => readItems fuel [] rest
          else if c = '\x7b' then
            match skipBlanks rest with
            | '\x7d' :: rest => (.object [] true, some rest)
            | rest => readMembers fuel [] rest
          else
            match scanScalar (c :: rest) with
            | none => (.broken, none)
            | some (value, rest) => (value, some rest)

/-- Read the elements of an array from where one is expected; those already read are passed in
reverse. -/
def readItems : Nat → List Document → List Char → Document × Option (List Char)
  | 0, done, _ => (.array done.reverse false, none)
  | fuel + 1, done, cs =>
      match readValue fuel cs with
      | (item, none) => (.array (item :: done).reverse false, none)
      | (item, some rest) =>
          match skipBlanks rest with
          | ',' :: rest => readItems fuel (item :: done) rest
          | ']' :: rest => (.array (item :: done).reverse true, some rest)
          | _ => (.array (item :: done).reverse false, none)

/-- Read the members of an object from where one is expected; those already read are passed in
reverse. -/
def readMembers : Nat → List (Option String × Document) → List Char → Document × Option (List Char)
  | 0, done, _ => (.object done.reverse false, none)
  | fuel + 1, done, cs =>
      match skipBlanks cs with
      | '"' :: rest =>
          match scanText rest with
          | none => (.object done.reverse false, none)
          | some (key, rest) =>
              match skipBlanks rest with
              | ':' :: rest =>
                  match readValue fuel rest with
                  | (value, none) => (.object ((key, value) :: done).reverse false, none)
                  | (value, some rest) =>
                      match skipBlanks rest with
                      | ',' :: rest => readMembers fuel ((key, value) :: done) rest
                      | '\x7d' :: rest => (.object ((key, value) :: done).reverse true, some rest)
                      | _ => (.object ((key, value) :: done).reverse false, none)
              -- The key was read, so whoever walks the members gets to see it.
              | _ => (.object ((key, .broken) :: done).reverse false, none)
      | _ => (.object done.reverse false, none)

end

/-- Read a text: what it says, and whether nothing but blanks follows. -/
def read (s : String) : Document × Bool :=
  let cs := s.toList
  match readValue (cs.length + 1) cs with
  | (value, none) => (value, false)
  | (value, some rest) => (value, (skipBlanks rest).isEmpty)

/-! ## §4 How closely a document is looked at -/

mutual

/-- Whether the grammar is kept throughout. -/
def intact : Document → Bool
  | .broken => false
  | .array items closed => intactItems items && closed
  | .object members closed => intactMembers members && closed
  | _ => true

/-- Whether the grammar is kept in every element. -/
def intactItems : List Document → Bool
  | [] => true
  | item :: rest => intact item && intactItems rest

/-- Whether the grammar is kept in every member. -/
def intactMembers : List (Option String × Document) → Bool
  | [] => true
  | (_, value) :: rest => intact value && intactMembers rest

end

mutual

/-- Whether a document can be kept for later: the grammar is kept, numbers have a double, texts are
Unicode, and containers are nested at most `depth` deep. -/
def plain (depth : Nat) : Document → Bool
  | .broken => false
  | .null => true
  | .bool _ => true
  | .number n _ => n.toFloat?.isSome
  | .text s => s.isSome
  | .array items closed =>
      match depth with
      | 0 => false
      | depth + 1 => plainItems depth items && closed
  | .object members closed =>
      match depth with
      | 0 => false
      | depth + 1 => plainMembers depth members && closed

/-- Whether every element can be kept for later. -/
def plainItems (depth : Nat) : List Document → Bool
  | [] => true
  | item :: rest => plain depth item && plainItems depth rest

/-- Whether every member can be kept for later. -/
def plainMembers (depth : Nat) : List (Option String × Document) → Bool
  | [] => true
  | (key, value) :: rest => key.isSome && plain depth value && plainMembers depth rest

end

end Document

end LayerAnimation
