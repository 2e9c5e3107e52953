import LayerAnimation.Proofs.Decimal.ReadBack
import LayerAnimation.Proofs.Json.Numbers

/-!
# Reading what was written

A document that is written with one element or member per line is read as itself.

- `Document.ofJson` is what the text of a document says: each finite number by its shortest decimal,
  and null for a number that has no digits.
- `scanText_quoted` finds a text again between its quotes.
- `readValue_prettyChars` is the statement for a document in the midst of a text, and
  `read_pretty` the one for a whole text.
-/

namespace LayerAnimation

namespace Document

open Decimal (Numeral)

mutual

/-- What the text of a document says. -/
def ofJson : Json → Document
  | .null => .null
  | .bool b => .bool b
  | .integer n => .number (Numeral.normal ⟨decide (n < 0), n.natAbs, 0⟩) true
  | .number x => if x.isFinite then .number (Decimal.shortest .even x) false else .null
  | .text s => .text (some s)
  | .array items => .array (ofItems items) true
  | .object members => .object (ofMembers members) true

/-- What the texts of the elements of an array say. -/
def ofItems : List Json → List Document
  | [] => []
  | item :: rest => ofJson item :: ofItems rest

/-- What the texts of the members of an object say. -/
def ofMembers : List (String × Json) → List (Option String × Document)
  | [] => []
  | (key, value) :: rest => (some key, ofJson value) :: ofMembers rest

end

/-- Each element of an array is read for itself. -/
theorem ofItems_eq_map (items : List Json) : ofItems items = items.map ofJson := by
  induction items with
  | nil => rfl
  | cons item rest ih => rw [ofItems, ih, List.map_cons]

/-- Each member of an object is read for itself, under its key. -/
theorem ofMembers_eq_map (members : List (String × Json)) :
    ofMembers members = members.map fun m => (some m.1, ofJson m.2) := by
  induction members with
  | nil => rfl
  | cons m rest ih => rw [ofMembers, ih, List.map_cons]

/-! ## §1 Quoted texts -/

/-- A hexadecimal digit is read as the number that it stands for. -/
theorem hexValue?_hexDigit : ∀ n < 16, hexValue? (Json.hexDigit n) = some n := by
  decide

theorem pieceOfUnit_toNat {c : Char} (h : c.toNat < 32) : pieceOfUnit c.toNat = .char c := by
  rw [pieceOfUnit, if_neg (by omega), Char.ofNat_toNat]

/-- An escaped character is read as that character. -/
theorem scanPieces_escape (done : List Piece) (c : Char) (t : List Char) :
    scanPieces done (Json.escape c ++ t) = scanPieces (.char c :: done) t := by
  unfold Json.escape
  split_ifs with hquote hslash hback htab hline hfeed hreturn hcontrol
  · subst hquote
    rfl
  · subst hslash
    rfl
  · subst hback
    rfl
  · subst htab
    rfl
  · subst hline
    rfl
  · subst hfeed
    rfl
  · subst hreturn
    rfl
  -- The other control characters are written by their number, in four digits.
  · have hunit : hexUnit? '0' '0' (Json.hexDigit (c.toNat / 16)) (Json.hexDigit (c.toNat % 16))
        = some c.toNat := by
      have hzero : hexValue? '0' = some 0 := rfl
      have hsplit : c.toNat / 16 * 16 + c.toNat % 16 = c.toNat := by omega
      simp [hexUnit?, hzero, hexValue?_hexDigit _ (show c.toNat / 16 < 16 by omega),
        hexValue?_hexDigit _ (show c.toNat % 16 < 16 by omega), hsplit]
    simp only [List.cons_append, List.nil_append]
    rw [scanPieces, if_neg (by decide), if_pos rfl]
    simp only [hunit, pieceOfUnit_toNat hcontrol]
  · rw [List.singleton_append, scanPieces.eq_def]
    simp only [hquote, hslash, hcontrol, ↓reduceIte]

/-- A text whose characters are escaped goes up to its closing quote. -/
theorem scanPieces_escaped (done : List Piece) (cs rest : List Char) :
    scanPieces done (cs.flatMap Json.escape ++ '"' :: rest)
      = some (done.reverse ++ cs.map .char, rest) := by
  induction cs generalizing done with
  | nil =>
    rw [List.flatMap_nil, List.nil_append, List.map_nil, List.append_nil, scanPieces.eq_def]
    rfl
  | cons c cs ih =>
    rw [List.flatMap_cons, List.append_assoc, scanPieces_escape, ih]
    simp

/-- Whole characters are joined to a text. -/
theorem joinHalves_chars (done cs : List Char) :
    joinHalves done (cs.map .char) = some (String.ofList (done.reverse ++ cs)) := by
  induction cs generalizing done with
  | nil => simp [joinHalves]
  | cons c cs ih =>
    rw [List.map_cons, joinHalves, ih]
    simp

/-- A text is found again between its quotes. -/
theorem scanText_quoted (s : String) (rest : List Char) :
    scanText (s.toList.flatMap Json.escape ++ '"' :: rest) = some (some s, rest) := by
  simp [scanText, scanPieces_escaped, joinHalves_chars]

/-! ## §2 Blanks and beginnings -/

theorem skipBlanks_append {bs : List Char} (h : ∀ c ∈ bs, isBlank c = true) (cs : List Char) :
    skipBlanks (bs ++ cs) = skipBlanks cs :=
  List.dropWhile_append_of_pos h

theorem skipBlanks_cons {c : Char} (h : isBlank c = false) (cs : List Char) :
    skipBlanks (c :: cs) = c :: cs := by
  simp [skipBlanks, h]

/-- A line break and the indentation after it are blank. -/
theorem isBlank_of_mem_newLine {level : ℕ} : ∀ c ∈ Json.newLine level, isBlank c = true := by
  intro c hc
  rcases List.mem_cons.mp hc with rfl | hc
  · rfl
  · rw [List.eq_of_mem_replicate hc]
    rfl

/-- Blanks in front of a value are passed over. -/
theorem readValue_append {bs : List Char} (h : ∀ c ∈ bs, isBlank c = true) (fuel : ℕ)
    (cs : List Char) : readValue fuel (bs ++ cs) = readValue fuel cs := by
  cases fuel with
  | zero => rfl
  | succ fuel => rw [readValue, readValue, skipBlanks_append h]

theorem readItems_append {bs : List Char} (h : ∀ c ∈ bs, isBlank c = true) (fuel : ℕ)
    (done : List Document) (cs : List Char) :
    readItems fuel done (bs ++ cs) = readItems fuel done cs := by
  cases fuel with
  | zero => rfl
  | succ fuel => rw [readItems, readItems, readValue_append h]

theorem readMembers_append {bs : List Char} (h : ∀ c ∈ bs, isBlank c = true) (fuel : ℕ)
    (done : List (Option String × Document)) (cs : List Char) :
    readMembers fuel done (bs ++ cs) = readMembers fuel done cs := by
  cases fuel with
  | zero => rfl
  | succ fuel => rw [readMembers, readMembers, skipBlanks_append h]

/-- A number ends before a character that could not go on with it. -/
theorem endsNumber_cons {c : Char} (cs : List Char) (h : isDigit c = false ∧ c ≠ '.' ∧ c ≠ 'e' ∧ c ≠ 'E') :
    EndsNumber (c :: cs) := by
  intro d hd
  obtain rfl := Option.some_inj.mp hd
  exact h

/-! ## §3 Values without parts -/

/-- A character with which no number begins is another one than that with which one does. -/
theorem ne_of_begins {c : Char} (hc : c = '-' ∨ isDigit c = true) {c' : Char} (hminus : c' ≠ '-')
    (hdigit : isDigit c' = false) : c ≠ c' := by
  rintro rfl
  rcases hc with rfl | hc
  · contradiction
  · rw [hc] at hdigit
    contradiction

theorem isBlank_of_begins {c : Char} (hc : c = '-' ∨ isDigit c = true) : isBlank c = false := by
  simp only [isBlank, Bool.or_eq_false_iff, beq_eq_false_iff_ne]
  exact ⟨⟨⟨ne_of_begins hc (by decide) rfl, ne_of_begins hc (by decide) rfl⟩,
    ne_of_begins hc (by decide) rfl⟩, ne_of_begins hc (by decide) rfl⟩

/-- A value that can be scanned as a number is that number. -/
theorem readValue_of_scanNumber {cs rest : List Char} {d : Document}
    (h : scanNumber cs = some (d, rest)) (fuel : ℕ) :
    readValue (fuel + 1) cs = (d, some rest) := by
  obtain ⟨c, t, rfl, hc⟩ := exists_head_of_scanNumber h
  have hscalar : scanScalar (c :: t) = some (d, rest) := by
    unfold scanScalar
    split
    · next heq => exact absurd (List.cons_eq_cons.mp heq).1 (ne_of_begins hc (by decide) rfl)
    · next heq => exact absurd (List.cons_eq_cons.mp heq).1 (ne_of_begins hc (by decide) rfl)
    · next heq => exact absurd (List.cons_eq_cons.mp heq).1 (ne_of_begins hc (by decide) rfl)
    · exact h
  have hquote : c ≠ '"' := ne_of_begins hc (by decide) rfl
  have hbracket : c ≠ '[' := ne_of_begins hc (by decide) rfl
  have hbrace : c ≠ '\x7b' := ne_of_begins hc (by decide) rfl
  rw [readValue, skipBlanks_cons (isBlank_of_begins hc)]
  simp only [hquote, hbracket, hbrace, ↓reduceIte, hscalar]

/-- A quoted text is read as that text. -/
theorem readValue_quoted (s : String) (fuel : ℕ) (rest : List Char) :
    readValue (fuel + 1) (Json.quoted s ++ rest) = (.text (some s), some rest) := by
  have hquote : isBlank '"' = false := rfl
  rw [Json.quoted, List.cons_append, List.append_assoc, List.singleton_append, readValue,
    skipBlanks_cons hquote]
  simp only [↓reduceIte, scanText_quoted]

/-- A finite number is read as its shortest decimal, and any other one was written as null. -/
theorem readValue_numberChars (x : Float) (fuel : ℕ) {rest : List Char} (h : EndsNumber rest) :
    readValue (fuel + 1) (Json.numberChars x ++ rest) = (ofJson (.number x), some rest) := by
  rw [Json.numberChars, Decimal.Layout.chars, ofJson]
  by_cases hfinite : x.isFinite = true
  · have hnumber : x.isNaN = false := by
      rw [Float.isNaN_eq_decide_eq_nan, decide_eq_false_iff_not]
      rintro rfl
      contradiction
    simp only [hnumber, hfinite, Bool.false_eq_true, ↓reduceIte]
    exact readValue_of_scanNumber (scanNumber_numeral (Decimal.isNormal_shortest _ _) h) fuel
  · simp only [hfinite, ↓reduceIte, Bool.false_eq_true]
    split
    · rfl
    · split <;> rfl

/-! ## §4 Values with parts -/

section Steps

variable {fuel : ℕ} {bs cs rest : List Char} {c : Char} {d : Document}

/-- A bracket opens an array, unless another one closes it at once. -/
theorem readValue_bracket (hbs : ∀ c ∈ bs, isBlank c = true) (hblank : isBlank c = false)
    (hc : c ≠ ']') :
    readValue (fuel + 1) ('[' :: (bs ++ c :: cs)) = readItems fuel [] (bs ++ c :: cs) := by
  have hopen : isBlank '[' = false := rfl
  rw [readValue, skipBlanks_cons hopen]
  simp only [Char.reduceEq, ↓reduceIte, skipBlanks_append hbs, skipBlanks_cons hblank]
  split
  · next heq => exact absurd (List.cons_eq_cons.mp heq).1 hc
  · rw [readItems_append hbs]

/-- A brace opens an object if a key follows. -/
theorem readValue_brace (hbs : ∀ c ∈ bs, isBlank c = true) :
    readValue (fuel + 1) ('\x7b' :: (bs ++ '"' :: cs)) = readMembers fuel [] (bs ++ '"' :: cs) := by
  have hopen : isBlank '\x7b' = false := rfl
  have hquote : isBlank '"' = false := rfl
  rw [readValue, skipBlanks_cons hopen]
  simp only [Char.reduceEq, ↓reduceIte, skipBlanks_append hbs, skipBlanks_cons hquote]
  exact (readMembers_append hbs _ _ _).symm

/-- After an element and a comma the next element is read. -/
theorem readItems_comma {done : List Document}
    (h : readValue fuel cs = (d, some (',' :: rest))) :
    readItems (fuel + 1) done cs = readItems fuel (d :: done) rest := by
  have hcomma : isBlank ',' = false := rfl
  simp only [readItems, h, skipBlanks_cons hcomma]

/-- After an element and a bracket the array is complete. -/
theorem readItems_bracket {done : List Document} (hbs : ∀ c ∈ bs, isBlank c = true)
    (h : readValue fuel cs = (d, some (bs ++ ']' :: rest))) :
    readItems (fuel + 1) done cs = (.array (d :: done).reverse true, some rest) := by
  have hclose : isBlank ']' = false := rfl
  simp only [readItems, h, skipBlanks_append hbs, skipBlanks_cons hclose]

variable {done : List (Option String × Document)} {key : String}

/-- After a member and a comma the next member is read. -/
theorem readMembers_comma (hbs : ∀ c ∈ bs, isBlank c = true)
    (h : readValue fuel cs = (d, some (',' :: rest))) :
    readMembers (fuel + 1) done (bs ++ (Json.quoted key ++ ':' :: cs))
      = readMembers fuel ((some key, d) :: done) rest := by
  have hquote : isBlank '"' = false := rfl
  have hcolon : isBlank ':' = false := rfl
  have hcomma : isBlank ',' = false := rfl
  simp only [Json.quoted, List.cons_append, List.append_assoc, List.nil_append, readMembers,
    skipBlanks_append hbs, skipBlanks_cons hquote, scanText_quoted, skipBlanks_cons hcolon, h,
    skipBlanks_cons hcomma]

/-- After a member and a brace the object is complete. -/
theorem readMembers_brace (hbs : ∀ c ∈ bs, isBlank c = true) {after : List Char}
    (hafter : ∀ c ∈ after, isBlank c = true)
    (h : readValue fuel cs = (d, some (after ++ '\x7d' :: rest))) :
    readMembers (fuel + 1) done (bs ++ (Json.quoted key ++ ':' :: cs))
      = (.object ((some key, d) :: done).reverse true, some rest) := by
  have hquote : isBlank '"' = false := rfl
  have hcolon : isBlank ':' = false := rfl
  have hclose : isBlank '\x7d' = false := rfl
  simp only [Json.quoted, List.cons_append, List.append_assoc, List.nil_append, readMembers,
    skipBlanks_append hbs, skipBlanks_cons hquote, scanText_quoted, skipBlanks_cons hcolon, h,
    skipBlanks_append hafter, skipBlanks_cons hclose]

end Steps

/-- A document does not begin with a blank, and not like the end of an array. -/
theorem exists_head_prettyChars (j : Json) (level : ℕ) :
    ∃ c t, j.prettyChars level = c :: t ∧ isBlank c = false ∧ c ≠ ']' := by
  -- What is scanned as a number begins with a digit or a sign.
  have hnumber : ∀ {cs : List Char} {r : Document × List Char}, scanNumber (cs ++ []) = some r →
      ∃ c t, cs = c :: t ∧ isBlank c = false ∧ c ≠ ']' := by
    intro cs r hscan
    obtain ⟨c, t, hcs, hc⟩ := exists_head_of_scanNumber hscan
    rw [List.append_nil] at hcs
    exact ⟨c, t, hcs, isBlank_of_begins hc, ne_of_begins hc (by decide) rfl⟩
  have hend : EndsNumber [] := fun c hc => nomatch hc
  match j with
  | .null => exact ⟨_, _, rfl, rfl, by decide⟩
  | .bool true => exact ⟨_, _, rfl, rfl, by decide⟩
  | .bool false => exact ⟨_, _, rfl, rfl, by decide⟩
  | .integer n => exact hnumber (scanNumber_integerChars n hend)
  | .number x =>
    show ∃ c t, Decimal.Layout.json.chars x = c :: t ∧ _
    unfold Decimal.Layout.chars
    split_ifs
    · exact ⟨_, _, rfl, rfl, by decide⟩
    · exact hnumber (scanNumber_numeral (Decimal.isNormal_shortest _ x) hend)
    · exact ⟨_, _, rfl, rfl, by decide⟩
    · exact ⟨_, _, rfl, rfl, by decide⟩
  | .text s => exact ⟨_, _, rfl, rfl, by decide⟩
  | .array [] => exact ⟨_, _, rfl, rfl, by decide⟩
  | .array (item :: items) => exact ⟨_, _, rfl, rfl, by decide⟩
  | .object [] => exact ⟨_, _, rfl, rfl, by decide⟩
  | .object (m :: members) => exact ⟨_, _, rfl, rfl, by decide⟩

/-- Every element stands in a line of its own, and all but the last have a comma behind them. -/
theorem prettyItems_cons_cons (level : ℕ) (item next : Json) (items : List Json) :
    Json.prettyItems level (item :: next :: items) = Json.newLine level
      ++ (item.prettyChars level ++ ',' :: Json.prettyItems level (next :: items)) := by
  rw [Json.prettyItems, List.append_assoc]
  simp

/-- So do members, each behind its key. -/
theorem prettyMembers_cons_cons (level : ℕ) (m next : String × Json)
    (members : List (String × Json)) :
    Json.prettyMembers level (m :: next :: members) = Json.newLine level ++ (Json.quoted m.1 ++ ':' ::
      ' ' :: (m.2.prettyChars level ++ ',' :: Json.prettyMembers level (next :: members))) := by
  rw [Json.prettyMembers, List.append_assoc]
  simp

theorem prettyItems_cons (level : ℕ) (item : Json) (items : List Json) :
    ∃ t, Json.prettyItems level (item :: items)
      = Json.newLine level ++ (item.prettyChars level ++ t) := by
  cases items with
  | nil => exact ⟨[], by rw [Json.prettyItems, List.append_nil]⟩
  | cons next items => exact ⟨_, prettyItems_cons_cons level item next items⟩

theorem prettyMembers_cons (level : ℕ) (m : String × Json) (members : List (String × Json)) :
    ∃ t, Json.prettyMembers level (m :: members) = Json.newLine level ++ '"' :: t := by
  cases members with
  | nil => exact ⟨_, by rw [Json.prettyMembers, Json.quoted, List.append_assoc]; rfl⟩
  | cons next members => exact ⟨_, prettyMembers_cons_cons level m next members⟩

theorem length_newLine (level : ℕ) : (Json.newLine level).length = 2 * level + 1 := by
  simp [Json.newLine]

theorem endsNumber_comma (cs : List Char) : EndsNumber (',' :: cs) :=
  endsNumber_cons _ ⟨rfl, by decide, by decide, by decide⟩

theorem endsNumber_newLine (level : ℕ) (cs : List Char) : EndsNumber (Json.newLine level ++ cs) :=
  endsNumber_cons _ ⟨rfl, by decide, by decide, by decide⟩

-- The induction is on the document.  Every part is shorter than the whole by at least one character,
-- so a fuel as long as the whole leaves one as long as the part.
mutual

/-- A document is read as itself in the midst of a text. -/
theorem readValue_prettyChars (j : Json) (level fuel : ℕ) {rest : List Char}
    (hrest : EndsNumber rest) (hfuel : (j.prettyChars level).length ≤ fuel) :
    readValue fuel (j.prettyChars level ++ rest) = (ofJson j, some rest) := by
  obtain ⟨fuel, rfl⟩ : ∃ n, fuel = n + 1 := by
    obtain ⟨c, t, hhead, -⟩ := exists_head_prettyChars j level
    rw [hhead, List.length_cons] at hfuel
    exact ⟨fuel - 1, by omega⟩
  match j with
  | .null => rfl
  | .bool b => cases b <;> rfl
  | .integer n => exact readValue_of_scanNumber (scanNumber_integerChars n hrest) fuel
  | .number x => exact readValue_numberChars x fuel hrest
  | .text s => exact readValue_quoted s fuel rest
  | .array [] => rfl
  | .array (item :: items) =>
    have hchars : Json.prettyChars level (.array (item :: items))
        = '[' :: (Json.prettyItems (level + 1) (item :: items) ++ Json.newLine level ++ [']']) := by
      rw [Json.prettyChars]
      simp
    rw [hchars] at hfuel ⊢
    simp only [List.length_cons, List.length_append] at hfuel
    have hitems := readItems_prettyItems (item :: items) (by simp) (level + 1) level fuel [] rest
      (by omega)
    obtain ⟨t, ht⟩ := prettyItems_cons (level + 1) item items
    obtain ⟨c, u, hu, hblank, hc⟩ := exists_head_prettyChars item (level + 1)
    -- The first element tells that the array is not empty.
    rw [ht, hu] at hitems ⊢
    simp only [List.cons_append, List.append_assoc, List.nil_append] at hitems ⊢
    rw [readValue_bracket isBlank_of_mem_newLine hblank hc, hitems]
    rfl
  | .object [] => rfl
  | .object (m :: members) =>
    have hchars : Json.prettyChars level (.object (m :: members)) = '\x7b' ::
        (Json.prettyMembers (level + 1) (m :: members) ++ Json.newLine level ++ ['\x7d']) := by
      rw [Json.prettyChars]
      simp
    rw [hchars] at hfuel ⊢
    simp only [List.length_cons, List.length_append] at hfuel
    have hmembers := readMembers_prettyMembers (m :: members) (by simp) (level + 1) level fuel []
      rest (by omega)
    obtain ⟨t, ht⟩ := prettyMembers_cons (level + 1) m members
    rw [ht] at hmembers ⊢
    simp only [List.cons_append, List.append_assoc, List.nil_append] at hmembers ⊢
    rw [readValue_brace isBlank_of_mem_newLine, hmembers]
    rfl

/-- The elements of an array are read up to its end. -/
theorem readItems_prettyItems (items : List Json) (hne : items ≠ []) (level outer fuel : ℕ)
    (done : List Document) (rest : List Char)
    (hfuel : (Json.prettyItems level items).length ≤ fuel) :
    readItems fuel done (Json.prettyItems level items ++ (Json.newLine outer ++ ']' :: rest))
      = (.array (done.reverse ++ ofItems items) true, some rest) := by
  match items with
  | [] => exact absurd rfl hne
  -- Behind the last element the line breaks once more, and the bracket follows.
  | [item] =>
    rw [Json.prettyItems] at hfuel ⊢
    rw [List.length_append, length_newLine] at hfuel
    obtain ⟨fuel, rfl⟩ : ∃ n, fuel = n + 1 := ⟨fuel - 1, by omega⟩
    have hvalue := readValue_prettyChars item level fuel (endsNumber_newLine outer (']' :: rest))
      (by omega)
    rw [List.append_assoc, readItems_append isBlank_of_mem_newLine,
      readItems_bracket isBlank_of_mem_newLine hvalue]
    simp [ofItems]
  | item :: next :: items =>
    rw [prettyItems_cons_cons] at hfuel ⊢
    simp only [List.length_append, List.length_cons, length_newLine] at hfuel
    obtain ⟨fuel, rfl⟩ : ∃ n, fuel = n + 1 := ⟨fuel - 1, by omega⟩
    have hvalue := readValue_prettyChars item level fuel
      (endsNumber_comma (Json.prettyItems level (next :: items)
        ++ (Json.newLine outer ++ ']' :: rest))) (by omega)
    have hitems := readItems_prettyItems (next :: items) (by simp) level outer fuel
      (ofJson item :: done) rest (by omega)
    simp only [List.append_assoc, List.cons_append]
    rw [readItems_append isBlank_of_mem_newLine, readItems_comma hvalue, hitems]
    simp [ofItems]

/-- The members of an object are read up to its end. -/
theorem readMembers_prettyMembers (members : List (String × Json)) (hne : members ≠ [])
    (level outer fuel : ℕ) (done : List (Option String × Document)) (rest : List Char)
    (hfuel : (Json.prettyMembers level members).length ≤ fuel) :
    readMembers fuel done
        (Json.prettyMembers level members ++ (Json.newLine outer ++ '\x7d' :: rest))
      = (.object (done.reverse ++ ofMembers members) true, some rest) := by
  have hspace : ∀ c ∈ [' '], isBlank c = true := by simp; rfl
  match members with
  | [] => exact absurd rfl hne
  | [(key, value)] =>
    rw [Json.prettyMembers] at hfuel ⊢
    simp only [List.length_append, List.length_cons, length_newLine] at hfuel
    obtain ⟨fuel, rfl⟩ : ∃ n, fuel = n + 1 := ⟨fuel - 1, by omega⟩
    have hvalue := readValue_prettyChars value level fuel
      (endsNumber_newLine outer ('\x7d' :: rest)) (by omega)
    rw [← readValue_append hspace] at hvalue
    simp only [List.append_assoc, List.cons_append, List.nil_append] at hvalue ⊢
    rw [readMembers_brace isBlank_of_mem_newLine isBlank_of_mem_newLine hvalue]
    simp [ofMembers]
  | (key, value) :: next :: members =>
    rw [prettyMembers_cons_cons] at hfuel ⊢
    simp only [List.length_append, List.length_cons, length_newLine] at hfuel
    obtain ⟨fuel, rfl⟩ : ∃ n, fuel = n + 1 := ⟨fuel - 1, by omega⟩
    have hvalue := readValue_prettyChars value level fuel
      (endsNumber_comma (Json.prettyMembers level (next :: members)
        ++ (Json.newLine outer ++ '\x7d' :: rest))) (by omega)
    rw [← readValue_append hspace] at hvalue
    have hmembers := readMembers_prettyMembers (next :: members) (by simp) level outer fuel
      ((some key, ofJson value) :: done) rest (by omega)
    simp only [List.append_assoc, List.cons_append, List.nil_append] at hvalue ⊢
    rw [readMembers_comma isBlank_of_mem_newLine hvalue, hmembers]
    simp [ofMembers]

end

/-- A written document is read as itself, and nothing follows it. -/
theorem read_pretty (j : Json) : read j.pretty = (ofJson j, true) := by
  have hend : EndsNumber [] := fun c hc => nomatch hc
  have hvalue := readValue_prettyChars j 0 ((j.prettyChars 0).length + 1) hend (by omega)
  rw [List.append_nil] at hvalue
  simp [read, Json.pretty, hvalue, skipBlanks]

end Document

end LayerAnimation
