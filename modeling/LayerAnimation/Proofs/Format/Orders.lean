import LayerAnimation.Format.Script
import LayerAnimation.Proofs.Format.Readers

/-!
# The order of members

An object says the same in whatever order its members stand.

- `Reader.record_perm` is that statement for records: two members that are read one after the other
  can be read the other way round, because a field that would be given twice is refused either way.
- `Format.step_perm` is the statement for steps, whose options are kept in the order in which they
  are found and read at the end.
- `Format.readEntries_eq_of_agrees` is what takes its place for maps, where a second entry for an
  attribute would replace the first.
-/

namespace LayerAnimation

namespace Reader

/-! ## §1 Records -/

section Records

variable {fs : List Field} {slots slots' : Slots fs}
  {members members' : List (Option String × Document)}

/-- A member fills the slot of its name, which must be empty, or is left to the other fields. -/
theorem Slots.accept_cons_eq_ok_iff {f : Field} {key : String} {d : Document} {slot : Option f.Val}
    {filled : Slots (f :: fs)} :
    accept (f :: fs) key d (slot, slots) = .ok filled ↔
      (key = f.name ∧ slot = none ∧ ∃ v, f.read d = .ok v ∧ (some v, slots) = filled) ∨
      (key ≠ f.name ∧ ∃ rest, accept fs key d slots = .ok rest ∧ (slot, rest) = filled) := by
  by_cases hkey : key = f.name
  · constructor
    · intro h
      cases slot with
      | some v => exact nomatch (if_pos hkey).symm.trans h
      | none => exact .inl ⟨hkey, rfl, map_eq_ok.mp ((if_pos hkey).symm.trans h)⟩
    · rintro (⟨-, rfl, h⟩ | ⟨hne, -⟩)
      · exact (if_pos hkey).trans (map_eq_ok.mpr h)
      · exact absurd hkey hne
  · constructor
    · intro h
      exact .inr ⟨hkey, map_eq_ok.mp ((if_neg hkey).symm.trans h)⟩
    · rintro (⟨heq, -⟩ | ⟨-, h⟩)
      · exact absurd heq hkey
      · exact (if_neg hkey).trans (map_eq_ok.mpr h)

theorem Slots.accept_comm {key₁ key₂ : String} {d₁ d₂ : Document} {first both : Slots fs}
    (h₁ : accept fs key₁ d₁ slots = .ok first) (h₂ : accept fs key₂ d₂ first = .ok both) :
    ∃ second, accept fs key₂ d₂ slots = .ok second ∧ accept fs key₁ d₁ second = .ok both := by
  induction fs with
  | nil =>
    -- Neither member belongs to a field.
    obtain ⟨_, hskip₁, rfl⟩ := map_eq_ok.mp h₁
    obtain ⟨_, hskip₂, rfl⟩ := map_eq_ok.mp h₂
    exact ⟨slots, map_eq_ok.mpr ⟨_, hskip₂, rfl⟩, map_eq_ok.mpr ⟨_, hskip₁, rfl⟩⟩
  | cons f fs ih =>
    obtain ⟨slot, slots⟩ := slots
    rcases accept_cons_eq_ok_iff.mp h₁ with ⟨hkey₁, rfl, v, hv, rfl⟩ | ⟨hkey₁, rest, hrest, rfl⟩
    · rcases accept_cons_eq_ok_iff.mp h₂ with ⟨-, hslot, -⟩ | ⟨hkey₂, rest, hrest, rfl⟩
      · contradiction
      · exact ⟨(none, rest), accept_cons_eq_ok_iff.mpr (.inr ⟨hkey₂, rest, hrest, rfl⟩),
          accept_cons_eq_ok_iff.mpr (.inl ⟨hkey₁, rfl, v, hv, rfl⟩)⟩
    · rcases accept_cons_eq_ok_iff.mp h₂ with ⟨hkey₂, rfl, v, hv, rfl⟩ | ⟨hkey₂, last, hlast, rfl⟩
      · exact ⟨(some v, slots), accept_cons_eq_ok_iff.mpr (.inl ⟨hkey₂, rfl, v, hv, rfl⟩),
          accept_cons_eq_ok_iff.mpr (.inr ⟨hkey₁, rest, hrest, rfl⟩)⟩
      -- Both members belong to later fields.
      · obtain ⟨second, hsecond, hboth⟩ := ih hrest hlast
        exact ⟨(slot, second), accept_cons_eq_ok_iff.mpr (.inr ⟨hkey₂, second, hsecond, rfl⟩),
          accept_cons_eq_ok_iff.mpr (.inr ⟨hkey₁, last, hboth, rfl⟩)⟩

theorem Slots.acceptAll_perm (h : members.Perm members')
    (accepted : acceptAll fs members slots = .ok slots') :
    acceptAll fs members' slots = .ok slots' := by
  induction h generalizing slots with
  | nil => exact accepted
  | cons m _ ih =>
    obtain ⟨key | key, d⟩ := m
    · contradiction
    · obtain ⟨next, hnext, accepted⟩ := bind_eq_ok.mp accepted
      exact bind_eq_ok.mpr ⟨next, hnext, ih accepted⟩
  | swap m₁ m₂ _ =>
    -- A key that is no text stops the reading wherever it stands.
    obtain ⟨key₁ | key₁, d₁⟩ := m₁ <;> obtain ⟨key₂ | key₂, d₂⟩ := m₂
    · contradiction
    · obtain ⟨_, -, accepted⟩ := bind_eq_ok.mp accepted
      contradiction
    · contradiction
    · obtain ⟨first, hfirst, accepted⟩ := bind_eq_ok.mp accepted
      obtain ⟨both, hboth, accepted⟩ := bind_eq_ok.mp accepted
      obtain ⟨second, hsecond, hboth⟩ := accept_comm hfirst hboth
      exact bind_eq_ok.mpr ⟨second, hsecond, bind_eq_ok.mpr ⟨both, hboth, accepted⟩⟩
  | trans _ _ ih₁ ih₂ => exact ih₂ (ih₁ accepted)

/-- A record is read from its members in whatever order they stand. -/
theorem record_perm (h : members.Perm members') {closed : Bool} {vs : Values fs}
    (hread : record fs (.object members closed) = .ok vs) :
    record fs (.object members' closed) = .ok vs := by
  obtain ⟨slots, hslots, hread⟩ := bind_eq_ok.mp hread
  exact bind_eq_ok.mpr ⟨slots, Slots.acceptAll_perm h hslots, hread⟩

end Records

end Reader

namespace Format

open Reader

/-! ## §2 Steps -/

section Steps

variable {α : Type} {num : Format α} {room : ℕ} {draft draft' first both : StepDraft α}
  {members members' : List (Option String × Document)} {key key₁ key₂ : String}
  {d d₁ d₂ : Document}

namespace StepDraft

/-- What a member of a step does to the draft of that step. -/
inductive Takes (num : Format α) (room : ℕ) (draft : StepDraft α) :
    String → Document → StepDraft α → Prop where
  | time {d : Document} {t : α} (free : draft.time = none) (read : num.read d = .ok t) :
      Takes num room draft "at" d { draft with time := some t }
  | intents {d : Document} {is : List (Intent α)} (free : draft.intents = none)
      (read : (list (intent num)).read d = .ok is) :
      Takes num room draft "intents" d { draft with intents := some is }
  | kept {key : String} {d : Document} (name : key ≠ "at" ∧ key ≠ "intents")
      (plain : d.plain room = true) :
      Takes num room draft key d { draft with kept := (some key, d) :: draft.kept }

theorem accept_eq_ok_iff :
    draft.accept num room key d = .ok draft' ↔ Takes num room draft key d draft' := by
  constructor
  · intro h
    unfold accept at h
    split_ifs at h with hat hintents hplain
    · subst hat
      split at h
      · contradiction
      · obtain ⟨t, ht, rfl⟩ := map_eq_ok.mp h
        exact .time ‹_› ht
    · subst hintents
      split at h
      · contradiction
      · obtain ⟨is, his, rfl⟩ := map_eq_ok.mp h
        exact .intents ‹_› his
    · obtain rfl := Except.ok.inj h
      exact .kept ⟨hat, hintents⟩ hplain
  · intro h
    cases h with
    | time free read => simp [accept, free, read, Except.map]
    | intents free read => simp [accept, free, read, Except.map]
    | kept name plain => simp [accept, name, plain]

/-- Two drafts that differ at most in the order of the members that are kept. -/
structure Alike (draft draft' : StepDraft α) : Prop where
  time : draft.time = draft'.time
  intents : draft.intents = draft'.intents
  kept : draft.kept.Perm draft'.kept

theorem Alike.refl (draft : StepDraft α) : draft.Alike draft :=
  ⟨rfl, rfl, List.Perm.refl _⟩

theorem Alike.trans {draft'' : StepDraft α} (h : draft.Alike draft') (h' : draft'.Alike draft'') :
    draft.Alike draft'' :=
  ⟨h.time.trans h'.time, h.intents.trans h'.intents, h.kept.trans h'.kept⟩

/-- Two members do the same to a draft in either order. -/
theorem Takes.comm (h₁ : Takes num room draft key₁ d₁ first)
    (h₂ : Takes num room first key₂ d₂ both) :
    ∃ second both', Takes num room draft key₂ d₂ second ∧ Takes num room second key₁ d₁ both' ∧
      both.Alike both' := by
  cases h₁ with
  | time free read =>
    cases h₂ with
    -- A second time would have been refused.
    | time free' => contradiction
    | intents free' read' => exact ⟨_, _, .intents free' read', .time free read, .refl _⟩
    | kept name' plain' => exact ⟨_, _, .kept name' plain', .time free read, .refl _⟩
  | intents free read =>
    cases h₂ with
    | time free' read' => exact ⟨_, _, .time free' read', .intents free read, .refl _⟩
    | intents free' => contradiction
    | kept name' plain' => exact ⟨_, _, .kept name' plain', .intents free read, .refl _⟩
  | kept name plain =>
    cases h₂ with
    | time free' read' => exact ⟨_, _, .time free' read', .kept name plain, .refl _⟩
    | intents free' read' => exact ⟨_, _, .intents free' read', .kept name plain, .refl _⟩
    | kept name' plain' =>
      -- Only here do the two orders leave different drafts.
      exact ⟨_, _, .kept name' plain', .kept name plain, rfl, rfl, List.Perm.swap _ _ _⟩

/-- A member does the same to drafts that are alike. -/
theorem Takes.alike {other : StepDraft α} (h : Takes num room draft key d draft')
    (alike : draft.Alike other) :
    ∃ other', Takes num room other key d other' ∧ draft'.Alike other' := by
  cases h with
  | time free read =>
    exact ⟨_, .time (alike.time.symm.trans free) read, rfl, alike.intents, alike.kept⟩
  | intents free read =>
    exact ⟨_, .intents (alike.intents.symm.trans free) read, alike.time, rfl, alike.kept⟩
  | kept name plain => exact ⟨_, .kept name plain, alike.time, alike.intents, alike.kept.cons _⟩

theorem acceptAll_alike {other : StepDraft α} (alike : draft.Alike other)
    (accepted : acceptAll num room members draft = .ok draft') :
    ∃ other', acceptAll num room members other = .ok other' ∧ draft'.Alike other' := by
  induction members generalizing draft other with
  | nil =>
    obtain rfl := Except.ok.inj accepted
    exact ⟨other, rfl, alike⟩
  | cons m members ih =>
    obtain ⟨key | key, d⟩ := m
    · contradiction
    · obtain ⟨next, hnext, accepted⟩ := bind_eq_ok.mp accepted
      obtain ⟨next', htakes, halike⟩ := (accept_eq_ok_iff.mp hnext).alike alike
      obtain ⟨other', hother, halike⟩ := ih halike accepted
      exact ⟨other', bind_eq_ok.mpr ⟨next', accept_eq_ok_iff.mpr htakes, hother⟩, halike⟩

theorem acceptAll_perm (h : members.Perm members')
    (accepted : acceptAll num room members draft = .ok draft') :
    ∃ other, acceptAll num room members' draft = .ok other ∧ draft'.Alike other := by
  -- A permutation is built of swaps of two neighbours, which take their members in either order.
  induction h generalizing draft draft' with
  | nil => exact ⟨draft', accepted, .refl _⟩
  | cons m _ ih =>
    obtain ⟨key | key, d⟩ := m
    · contradiction
    · obtain ⟨next, hnext, accepted⟩ := bind_eq_ok.mp accepted
      obtain ⟨other, hother, halike⟩ := ih accepted
      exact ⟨other, bind_eq_ok.mpr ⟨next, hnext, hother⟩, halike⟩
  | swap m₁ m₂ _ =>
    obtain ⟨key₁ | key₁, d₁⟩ := m₁ <;> obtain ⟨key₂ | key₂, d₂⟩ := m₂
    · contradiction
    · obtain ⟨_, -, accepted⟩ := bind_eq_ok.mp accepted
      contradiction
    · contradiction
    · obtain ⟨first, hfirst, accepted⟩ := bind_eq_ok.mp accepted
      obtain ⟨both, hboth, accepted⟩ := bind_eq_ok.mp accepted
      obtain ⟨second, both', hsecond, hboth', halike⟩ :=
        (accept_eq_ok_iff.mp hfirst).comm (accept_eq_ok_iff.mp hboth)
      obtain ⟨other, hother, halike⟩ := acceptAll_alike halike accepted
      exact ⟨other, bind_eq_ok.mpr ⟨second, accept_eq_ok_iff.mpr hsecond,
        bind_eq_ok.mpr ⟨both', accept_eq_ok_iff.mpr hboth', hother⟩⟩, halike⟩
  | trans _ _ ih₁ ih₂ =>
    obtain ⟨middle, hmiddle, halike⟩ := ih₁ accepted
    obtain ⟨other, hother, halike'⟩ := ih₂ hmiddle
    exact ⟨other, hother, halike.trans halike'⟩

variable [Scalar α]

theorem finish_alike {s : Step α} (alike : draft.Alike draft')
    (finished : draft.finish num = .ok s) : draft'.finish num = .ok s := by
  unfold finish at finished ⊢
  rw [← alike.time, ← alike.intents]
  split at finished
  · contradiction
  · obtain ⟨values, hvalues, hs⟩ := bind_eq_ok.mp finished
    -- What was kept is read as a record, whose members may stand in any order.
    have hkept : draft.kept.reverse.Perm draft'.kept.reverse :=
      (List.reverse_perm _).trans (alike.kept.trans (List.reverse_perm _).symm)
    exact bind_eq_ok.mpr ⟨values, record_perm hkept hvalues, hs⟩

end StepDraft

/-- A step is read from its members in whatever order they stand. -/
theorem step_perm [Scalar α] (h : members.Perm members') {depth : ℕ} {closed : Bool} {s : Step α}
    (hread : (step num depth).read (.object members closed) = .ok s) :
    (step num depth).read (.object members' closed) = .ok s := by
  obtain ⟨draft, hdraft, hread⟩ := bind_eq_ok.mp hread
  obtain ⟨closing, hclosed, hfinish⟩ := bind_eq_ok.mp hread
  obtain ⟨draft', hdraft', halike⟩ := StepDraft.acceptAll_perm h hdraft
  exact bind_eq_ok.mpr ⟨draft', hdraft', bind_eq_ok.mpr ⟨closing, hclosed,
    StepDraft.finish_alike halike hfinish⟩⟩

end Steps

/-! ## §3 Maps -/

section Maps

variable {β : Type} {read : Reader β} {m : AttributeMap β}

/-- Members that each say what a map holds for some attribute lead to that map in any order. -/
theorem readEntries_of_agrees {members : List (Option String × Document)}
    (agrees : ∀ e ∈ members, ∃ a b, e.1 = some a.path ∧ read e.2 = .ok b ∧ m.get? a = some b)
    (m₀ : AttributeMap β) :
    ∃ m₁, readEntries read members m₀ = .ok m₁ ∧ ∀ a, m₁.get? a
      = if some a.path ∈ members.map Prod.fst then m.get? a else m₀.get? a := by
  induction members generalizing m₀ with
  | nil => exact ⟨m₀, rfl, by simp⟩
  | cons e members ih =>
    obtain ⟨⟨a, b, hkey, hread, hget⟩, hrest⟩ := List.forall_mem_cons.mp agrees
    obtain ⟨key, d⟩ := e
    obtain rfl : key = some a.path := hkey
    obtain ⟨m₁, hm₁, hlookups⟩ := ih hrest (m₀.insert a b)
    have hpath : attributeOfPath a.path = .ok a := by
      rw [attributeOfPath, Attribute.ofPath?_path]
    refine ⟨m₁, bind_eq_ok.mpr ⟨a, hpath, bind_eq_ok.mpr ⟨b, hread, hm₁⟩⟩, fun c => ?_⟩
    rw [hlookups, AttributeMap.get?_insert, List.map_cons]
    -- Only the attribute of the first member can have changed, and to what the map holds.
    by_cases hc : a = c
    · subst hc
      simp [hget]
    · have hne : c.path ≠ a.path := fun heq => hc (by
        simpa using congrArg Attribute.ofPath? heq.symm)
      simp only [if_neg hc, List.mem_cons, Option.some.injEq, hne, false_or]

/-- If nothing that the map holds is missing among them, they make up that map. -/
theorem readEntries_eq_of_agrees {members : List (Option String × Document)}
    (agrees : ∀ e ∈ members, ∃ a b, e.1 = some a.path ∧ read e.2 = .ok b ∧ m.get? a = some b)
    (complete : ∀ a b, m.get? a = some b → some a.path ∈ members.map Prod.fst) :
    readEntries read members .empty = .ok m := by
  obtain ⟨m₁, hread, hlookups⟩ := readEntries_of_agrees agrees .empty
  have heq : m₁ = m := by
    refine AttributeMap.ext_get? fun a => ?_
    rw [hlookups]
    split
    · rfl
    · next hkey =>
      rw [AttributeMap.get?_empty]
      exact (Option.eq_none_iff_forall_not_mem.mpr fun b hb => hkey (complete a b hb)).symm
  rw [hread, heq]

end Maps

end Format

end LayerAnimation
