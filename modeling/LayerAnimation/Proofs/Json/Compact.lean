import LayerAnimation.Proofs.Json.Pretty

/-!
# Reading what was written without blanks

A document that is written without blanks is read as itself, as one with an element or member per
line is.  Scalars are written alike in both forms.
-/

namespace LayerAnimation

namespace Document

theorem compactItems_cons_cons (item next : Json) (items : List Json) :
    Json.compactItems (item :: next :: items)
      = item.compactChars ++ ',' :: Json.compactItems (next :: items) := by
  rw [Json.compactItems]
  simp

theorem compactMembers_cons_cons (m next : String × Json) (members : List (String × Json)) :
    Json.compactMembers (m :: next :: members) = Json.quoted m.1 ++ ':' ::
      (m.2.compactChars ++ ',' :: Json.compactMembers (next :: members)) := by
  rw [Json.compactMembers]
  simp

theorem compactItems_cons (item : Json) (items : List Json) :
    ∃ t, Json.compactItems (item :: items) = item.compactChars ++ t := by
  cases items with
  | nil => exact ⟨[], by rw [Json.compactItems, List.append_nil]⟩
  | cons next items => exact ⟨_, compactItems_cons_cons item next items⟩

theorem compactMembers_cons (m : String × Json) (members : List (String × Json)) :
    ∃ t, Json.compactMembers (m :: members) = '"' :: t := by
  cases members with
  | nil => exact ⟨_, by rw [Json.compactMembers, Json.quoted]; rfl⟩
  | cons next members => exact ⟨_, compactMembers_cons_cons m next members⟩

/-- Nothing stands where a blank could. -/
theorem isBlank_of_mem_nil : ∀ c ∈ ([] : List Char), isBlank c = true :=
  nofun

theorem endsNumber_close {c : Char} (hc : c = ']' ∨ c = '\x7d') (cs : List Char) :
    EndsNumber (c :: cs) := by
  rcases hc with rfl | rfl <;> exact endsNumber_cons _ ⟨rfl, by decide, by decide, by decide⟩

/-- A document does not begin with a blank, and not like the end of an array. -/
theorem exists_head_compactChars (j : Json) :
    ∃ c t, j.compactChars = c :: t ∧ isBlank c = false ∧ c ≠ ']' := by
  match j with
  | .null => exact exists_head_prettyChars .null 0
  | .bool b => exact exists_head_prettyChars (.bool b) 0
  | .integer n => exact exists_head_prettyChars (.integer n) 0
  | .number x => exact exists_head_prettyChars (.number x) 0
  | .text s => exact exists_head_prettyChars (.text s) 0
  | .array _ => exact ⟨_, _, rfl, rfl, by decide⟩
  | .object _ => exact ⟨_, _, rfl, rfl, by decide⟩

-- The induction is the one for the indented form: every part is shorter than the whole.
mutual

/-- A document is read as itself in the midst of a text. -/
theorem readValue_compactChars (j : Json) (fuel : ℕ) {rest : List Char} (hrest : EndsNumber rest)
    (hfuel : j.compactChars.length ≤ fuel) :
    readValue fuel (j.compactChars ++ rest) = (ofJson j, some rest) := by
  obtain ⟨fuel, rfl⟩ : ∃ n, fuel = n + 1 := by
    obtain ⟨c, t, hhead, -⟩ := exists_head_compactChars j
    rw [hhead, List.length_cons] at hfuel
    exact ⟨fuel - 1, by omega⟩
  -- Where there is nothing to lay out both layouts have the same characters.
  match j with
  | .null => exact readValue_prettyChars .null 0 (fuel + 1) hrest hfuel
  | .bool b => exact readValue_prettyChars (.bool b) 0 (fuel + 1) hrest hfuel
  | .integer n => exact readValue_prettyChars (.integer n) 0 (fuel + 1) hrest hfuel
  | .number x => exact readValue_prettyChars (.number x) 0 (fuel + 1) hrest hfuel
  | .text s => exact readValue_prettyChars (.text s) 0 (fuel + 1) hrest hfuel
  | .array [] => rfl
  | .array (item :: items) =>
    rw [Json.compactChars] at hfuel ⊢
    simp only [List.length_cons, List.length_append, List.length_nil] at hfuel
    have hitems := readItems_compactItems (item :: items) (by simp) fuel [] rest (by omega)
    obtain ⟨t, ht⟩ := compactItems_cons item items
    obtain ⟨c, u, hu, hblank, hc⟩ := exists_head_compactChars item
    rw [ht, hu] at hitems ⊢
    simp only [List.cons_append, List.append_assoc, List.nil_append] at hitems ⊢
    exact (readValue_bracket isBlank_of_mem_nil hblank hc).trans hitems
  | .object [] => rfl
  | .object (m :: members) =>
    rw [Json.compactChars] at hfuel ⊢
    simp only [List.length_cons, List.length_append, List.length_nil] at hfuel
    have hmembers := readMembers_compactMembers (m :: members) (by simp) fuel [] rest (by omega)
    obtain ⟨t, ht⟩ := compactMembers_cons m members
    rw [ht] at hmembers ⊢
    simp only [List.cons_append, List.append_assoc, List.nil_append] at hmembers ⊢
    exact (readValue_brace isBlank_of_mem_nil).trans hmembers

/-- The elements of an array are read up to its end. -/
theorem readItems_compactItems (items : List Json) (hne : items ≠ []) (fuel : ℕ)
    (done : List Document) (rest : List Char) (hfuel : (Json.compactItems items).length < fuel) :
    readItems fuel done (Json.compactItems items ++ ']' :: rest)
      = (.array (done.reverse ++ ofItems items) true, some rest) := by
  obtain ⟨fuel, rfl⟩ : ∃ n, fuel = n + 1 := ⟨fuel - 1, by omega⟩
  match items with
  | [] => exact absurd rfl hne
  | [item] =>
    rw [Json.compactItems] at hfuel ⊢
    have hvalue := readValue_compactChars item fuel (endsNumber_close (.inl rfl) rest) (by omega)
    rw [readItems_bracket isBlank_of_mem_nil hvalue]
    simp [ofItems]
  | item :: next :: items =>
    rw [compactItems_cons_cons] at hfuel ⊢
    simp only [List.length_append, List.length_cons] at hfuel
    have hvalue := readValue_compactChars item fuel
      (endsNumber_comma (Json.compactItems (next :: items) ++ ']' :: rest)) (by omega)
    have hitems := readItems_compactItems (next :: items) (by simp) fuel (ofJson item :: done) rest
      (by omega)
    simp only [List.append_assoc, List.cons_append]
    rw [readItems_comma hvalue, hitems]
    simp [ofItems]

/-- The members of an object are read up to its end. -/
theorem readMembers_compactMembers (members : List (String × Json)) (hne : members ≠ [])
    (fuel : ℕ) (done : List (Option String × Document)) (rest : List Char)
    (hfuel : (Json.compactMembers members).length < fuel) :
    readMembers fuel done (Json.compactMembers members ++ '\x7d' :: rest)
      = (.object (done.reverse ++ ofMembers members) true, some rest) := by
  obtain ⟨fuel, rfl⟩ : ∃ n, fuel = n + 1 := ⟨fuel - 1, by omega⟩
  match members with
  | [] => exact absurd rfl hne
  | [(key, value)] =>
    rw [Json.compactMembers] at hfuel ⊢
    simp only [List.length_append, List.length_cons] at hfuel
    have hvalue := readValue_compactChars value fuel (endsNumber_close (.inr rfl) rest) (by omega)
    simp only [List.append_assoc, List.cons_append]
    refine (readMembers_brace isBlank_of_mem_nil isBlank_of_mem_nil hvalue).trans ?_
    simp [ofMembers]
  | (key, value) :: next :: members =>
    rw [compactMembers_cons_cons] at hfuel ⊢
    simp only [List.length_append, List.length_cons] at hfuel
    have hvalue := readValue_compactChars value fuel
      (endsNumber_comma (Json.compactMembers (next :: members) ++ '\x7d' :: rest)) (by omega)
    have hmembers := readMembers_compactMembers (next :: members) (by simp) fuel
      ((some key, ofJson value) :: done) rest (by omega)
    simp only [List.append_assoc, List.cons_append]
    refine (readMembers_comma isBlank_of_mem_nil hvalue).trans (hmembers.trans ?_)
    simp [ofMembers]

end

/-- A document that is written without blanks is read as itself, and nothing follows it. -/
theorem read_compact (j : Json) : read j.compact = (ofJson j, true) := by
  have hend : EndsNumber [] := fun c hc => nomatch hc
  have hvalue := readValue_compactChars j (j.compactChars.length + 1) hend (by omega)
  rw [List.append_nil] at hvalue
  simp [read, Json.compact, hvalue, skipBlanks]

end Document

end LayerAnimation
