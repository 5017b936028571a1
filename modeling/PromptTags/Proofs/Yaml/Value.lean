import PromptTags.Yaml.Value

/-! Values within values. A value can be told not to break off anywhere, and to have a collection in the place of
a key somewhere, by the values within it. -/
namespace PromptTags.Yaml.Value

variable {v w : Value} {items : List Value} {entries : List (Value × Value)}

/-- The keys and values of a mapping are smaller than it. -/
theorem sizeOf_lt_of_mem {entry : Value × Value} (h : entry ∈ entries) :
    sizeOf entry.1 < sizeOf (mapping entries) ∧ sizeOf entry.2 < sizeOf (mapping entries) := by
  obtain ⟨k, v⟩ := entry
  have := List.sizeOf_lt_of_mem h
  rw [Prod.mk.sizeOf_spec] at this
  rw [Value.mapping.sizeOf_spec]
  dsimp only
  omega

def isCollection : Value → Bool
  | sequence _ => true
  | mapping _ => true
  | _ => false

/-- The text of a value that is no collection. A null has the empty text, and numbers and truth values have the
text that they are written with. -/
def text? : Value → Option Text
  | null => some []
  | bool b => some (Text.lit (if b then "true" else "false"))
  | int i => some (Text.ofInt i)
  | float x => some x.text
  | text t => some t
  | sequence _ => none
  | mapping _ => none
  | broken _ => none

/-- Only collections, and what breaks off, have no text. -/
theorem text?_eq_none_iff : v.text? = none ↔ v.isCollection = true ∨ ∃ fault, v = broken fault := by
  cases v <;> simp [text?, isCollection]

/-- What every value with a text has, and every collection as soon as all values in it have it, every value has that
does not break off. -/
@[elab_as_elim, induction_eliminator]
theorem ind {motive : Value → Prop} (plain : ∀ v t, v.text? = some t → motive v)
    (sequence : ∀ items, (∀ item ∈ items, motive item) → motive (.sequence items))
    (mapping : ∀ entries, (∀ entry ∈ entries, motive entry.1 ∧ motive entry.2) → motive (.mapping entries))
    (broken : ∀ fault, motive (.broken fault)) : ∀ v, motive v
  | .null => plain .null _ rfl
  | .bool b => plain (.bool b) _ rfl
  | .int i => plain (.int i) _ rfl
  | .float x => plain (.float x) _ rfl
  | .text t => plain (.text t) _ rfl
  | .sequence items => sequence items fun item _h => ind plain sequence mapping broken item
  | .mapping entries => mapping entries fun entry _h =>
    ⟨ind plain sequence mapping broken entry.1, ind plain sequence mapping broken entry.2⟩
  | .broken fault => broken fault
termination_by v => sizeOf v
decreasing_by
  · have := List.sizeOf_lt_of_mem _h
    rw [Value.sequence.sizeOf_spec]
    omega
  · exact (sizeOf_lt_of_mem _h).1
  · exact (sizeOf_lt_of_mem _h).2

/-- A value stands within itself, and within a collection if it stands within an item, a key or a value of it. -/
inductive Within (v : Value) : Value → Prop
  | refl : Within v v
  | item {items : List Value} {item : Value} (hitem : item ∈ items) (h : Within v item) :
      Within v (sequence items)
  | key {entries : List (Value × Value)} {entry : Value × Value} (hentry : entry ∈ entries)
      (h : Within v entry.1) : Within v (mapping entries)
  | value {entries : List (Value × Value)} {entry : Value × Value} (hentry : entry ∈ entries)
      (h : Within v entry.2) : Within v (mapping entries)

theorem within_sequence : Within v (sequence items) ↔ v = sequence items ∨ ∃ item ∈ items, Within v item := by
  constructor
  · intro h
    cases h with
    | refl => exact .inl rfl
    | item hitem h => exact .inr ⟨_, hitem, h⟩
  · rintro (rfl | ⟨item, hitem, h⟩)
    · exact .refl
    · exact .item hitem h

theorem within_mapping : Within v (mapping entries) ↔
    v = mapping entries ∨ ∃ entry ∈ entries, Within v entry.1 ∨ Within v entry.2 := by
  constructor
  · intro h
    cases h with
    | refl => exact .inl rfl
    | key hentry h => exact .inr ⟨_, hentry, .inl h⟩
    | value hentry h => exact .inr ⟨_, hentry, .inr h⟩
  · rintro (rfl | ⟨entry, hentry, h | h⟩)
    · exact .refl
    · exact .key hentry h
    · exact .value hentry h

/-- Within a value with a text there is nothing but itself. -/
theorem eq_of_within {t : Text} (ht : w.text? = some t) (h : Within v w) : v = w := by
  cases h with
  | refl => rfl
  | item => cases ht
  | key => cases ht
  | value => cases ht

/-- A value that breaks off nowhere. -/
def Intact (v : Value) : Prop := ∀ fault, ¬ Within (broken fault) v

/-- Somewhere within a value a mapping has a collection as a key. -/
def HasCollectionKey (v : Value) : Prop :=
  ∃ entries, Within (mapping entries) v ∧ ∃ entry ∈ entries, entry.1.isCollection = true

@[simp] theorem not_intact_broken (fault : Fault) : ¬ Intact (broken fault) := fun h => h fault .refl

theorem intact_of_text? {t : Text} (ht : v.text? = some t) : Intact v := by
  intro fault h
  rw [← eq_of_within ht h] at ht
  cases ht

theorem not_hasCollectionKey_of_text? {t : Text} (ht : v.text? = some t) : ¬ HasCollectionKey v := by
  rintro ⟨entries, h, -⟩
  rw [← eq_of_within ht h] at ht
  cases ht

@[simp] theorem intact_null : Intact null := intact_of_text? rfl

@[simp] theorem intact_bool (b : Bool) : Intact (bool b) := intact_of_text? rfl

@[simp] theorem intact_int (i : Int) : Intact (int i) := intact_of_text? rfl

@[simp] theorem intact_float (x : Binary64) : Intact (float x) := intact_of_text? rfl

@[simp] theorem intact_text (t : Text) : Intact (text t) := intact_of_text? rfl

@[simp] theorem intact_sequence : Intact (sequence items) ↔ ∀ item ∈ items, Intact item := by
  simp only [Intact, within_sequence, reduceCtorEq, false_or, not_exists, not_and]
  exact ⟨fun h item hitem fault => h fault item hitem, fun h fault item hitem => h item hitem fault⟩

@[simp] theorem intact_mapping :
    Intact (mapping entries) ↔ ∀ entry ∈ entries, Intact entry.1 ∧ Intact entry.2 := by
  simp only [Intact, within_mapping, reduceCtorEq, false_or, not_exists, not_and, not_or]
  exact ⟨fun h entry hentry => ⟨fun fault => (h fault entry hentry).1, fun fault => (h fault entry hentry).2⟩,
    fun h fault entry hentry => ⟨(h entry hentry).1 fault, (h entry hentry).2 fault⟩⟩

theorem hasCollectionKey_sequence : HasCollectionKey (sequence items) ↔ ∃ item ∈ items, HasCollectionKey item := by
  constructor
  · rintro ⟨entries, h, hkey⟩
    rcases within_sequence.1 h with h | ⟨item, hitem, h⟩
    · cases h
    · exact ⟨item, hitem, entries, h, hkey⟩
  · rintro ⟨item, hitem, entries, h, hkey⟩
    exact ⟨entries, .item hitem h, hkey⟩

theorem hasCollectionKey_mapping : HasCollectionKey (mapping entries) ↔ ∃ entry ∈ entries,
    entry.1.isCollection = true ∨ HasCollectionKey entry.1 ∨ HasCollectionKey entry.2 := by
  constructor
  · rintro ⟨entries', h, hkey⟩
    rcases within_mapping.1 h with h | ⟨entry, hentry, h | h⟩
    · cases h
      obtain ⟨entry, hentry, hkey⟩ := hkey
      exact ⟨entry, hentry, .inl hkey⟩
    · exact ⟨entry, hentry, .inr (.inl ⟨entries', h, hkey⟩)⟩
    · exact ⟨entry, hentry, .inr (.inr ⟨entries', h, hkey⟩)⟩
  · rintro ⟨entry, hentry, hkey | ⟨entries', h, hkey⟩ | ⟨entries', h, hkey⟩⟩
    · exact ⟨entries, .refl, entry, hentry, hkey⟩
    · exact ⟨entries', .key hentry h, hkey⟩
    · exact ⟨entries', .value hentry h, hkey⟩

end PromptTags.Yaml.Value
