import PromptTags.Proofs.Toml.Number
import PromptTags.Proofs.Toml.Quoted
import PromptTags.Toml.Document

/-! Documents of one line for each entry, under bare keys that are all distinct, are read as just these
entries. What stands on a line is read with the text after the line left open. -/
namespace PromptTags.Toml

/-! ### Values -/

/-- A text that is read as a value where it fills the rest of its line. -/
structure Stands (written : Text) (value : Value) : Prop where
  visible : ∀ c ∈ written.head?, isBlank c = false
  reads : ∀ rest, readValue depthBound (written ++ '\n' :: rest) = some (value, '\n' :: rest)

theorem readValue_scalar {t : Text} (ht : ∀ c ∈ t.head?, c ≠ '[' ∧ c ≠ '\x7b') :
    readValue depthBound t = readScalar t := by
  change readValue (79 + 1) t = _
  rw [readValue]
  · rintro rest rfl
    exact (ht _ rfl).1 rfl
  · rintro rest rfl
    exact (ht _ rfl).2 rfl

theorem stands_boolean (b : Bool) : Stands (Text.lit (if b then "true" else "false")) (.boolean b) := by
  cases b with
  | false => exact ⟨fun c hc => Option.some.inj hc ▸ (by decide), fun _ => rfl⟩
  | true => exact ⟨fun c hc => Option.some.inj hc ▸ (by decide), fun _ => rfl⟩

theorem stands_string (t : Text) : Stands (writeString t) (.string t) := by
  have hsign := (Form.of t).sign_cases
  have hbreak (rest : Text) : ('\n' :: rest).head? ≠ some (Form.of t).sign := by
    rcases hsign with h | h <;> simp [h]
  have hread (rest : Text) := readString_writeString t (hbreak rest)
  obtain ⟨u, hu⟩ : ∃ u, writeString t = (Form.of t).sign :: u := by
    simp only [writeString, Form.quotes]
    split <;> exact ⟨_, rfl⟩
  rw [hu] at hread ⊢
  generalize (Form.of t).sign = sign at *
  constructor
  · rcases hsign with rfl | rfl <;> simp [isBlank]
  · intro rest
    have hscalar : readScalar (sign :: u ++ '\n' :: rest) =
        (readString (sign :: u ++ '\n' :: rest)).map fun r => (.string r.1, r.2) := by
      rcases hsign with rfl | rfl <;> rfl
    rw [readValue_scalar (by rcases hsign with rfl | rfl <;> simp), hscalar, hread]
    rfl

theorem readScalar_digit {c : Char} (hc : c.isDigit = true) (u : Text) :
    readScalar (c :: u) = readNumeral (c :: u) := by
  unfold readScalar
  split <;> first
    | rfl
    | next h => exact absurd ((List.cons.inj h).1 ▸ hc) (by decide)

theorem stands_integer {n : Nat} (hn : n < integerBound) : Stands (Text.ofNat n) (.integer n) := by
  have hread := readNumeral_ofNat hn
  obtain ⟨c, ds, hds⟩ := List.exists_cons_of_ne_nil (Nat.toDigits_ne_nil (n := n) (b := 10))
  have hofNat : Text.ofNat n = c :: ds := hds
  have hc : c.isDigit = true := Text.isDigit_of_mem_ofNat (hofNat ▸ List.mem_cons_self)
  rw [hofNat] at hread ⊢
  constructor
  · have hspace : c ≠ ' ' := ne_of_kind Char.isDigit hc (by decide)
    have htab : c ≠ '\t' := ne_of_kind Char.isDigit hc (by decide)
    simp [isBlank, hspace, htab]
  · intro rest
    have hopen : c ≠ '[' ∧ c ≠ '\x7b' :=
      ⟨ne_of_kind Char.isDigit hc (by decide), ne_of_kind Char.isDigit hc (by decide)⟩
    rw [readValue_scalar (by simpa using hopen), List.cons_append, readScalar_digit hc]
    exact hread rest

/-! ### Lines -/

theorem skipBlanks_eq_self {t : Text} (h : ∀ c ∈ t.head?, isBlank c = false) : skipBlanks t = t := by
  cases t with
  | nil => rfl
  | cons c t => exact List.dropWhile_cons_of_neg (by simpa using h c rfl)

/-- An entry on a line of its own. -/
structure Field where
  key : Text
  written : Text
  value : Value
  key_ne_nil : key ≠ []
  bare : ∀ c ∈ key, isBareChar c = true
  stands : Stands written value

namespace Field

variable (e : Field)

def line : Text := e.key ++ [' ', '=', ' '] ++ e.written ++ ['\n']

def pair : Text × Value := (e.key, e.value)

theorem line_append (rest : Text) :
    e.line ++ rest = e.key ++ ' ' :: '=' :: ' ' :: (e.written ++ '\n' :: rest) := by
  simp [line]

/-- A line starts with a character of its key. -/
theorem exists_line_eq_cons : ∃ c u, isBareChar c = true ∧ e.line = c :: u := by
  obtain ⟨c, key, hkey⟩ := List.exists_cons_of_ne_nil e.key_ne_nil
  refine ⟨c, key ++ [' ', '=', ' '] ++ e.written ++ ['\n'], e.bare c ?_, ?_⟩
  · simp [hkey]
  · simp [line, hkey]

theorem skipBlanks_key_append (t : Text) : skipBlanks (e.key ++ t) = e.key ++ t := by
  refine skipBlanks_eq_self fun c hc => ?_
  rw [List.head?_append, Option.or_of_isSome (by simpa using e.key_ne_nil)] at hc
  have hbare := e.bare c (List.mem_of_mem_head? hc)
  have hspace : c ≠ ' ' := ne_of_kind isBareChar hbare (by decide)
  have htab : c ≠ '\t' := ne_of_kind isBareChar hbare (by decide)
  simp [isBlank, hspace, htab]

theorem readSpacedPart_key (t : Text) :
    readSpacedPart (e.key ++ ' ' :: '=' :: t) = some (e.key, '=' :: t) := by
  have hkey : (e.key ++ ' ' :: '=' :: t).takeWhile isBareChar = e.key := by
    rw [List.takeWhile_append_of_pos e.bare, List.takeWhile_cons_of_neg (by decide), List.append_nil]
  have hrest : (e.key ++ ' ' :: '=' :: t).dropWhile isBareChar = ' ' :: '=' :: t := by
    rw [List.dropWhile_append_of_pos e.bare, List.dropWhile_cons_of_neg (by decide)]
  rw [readSpacedPart, skipBlanks_key_append, readPart]
  simp only [hkey, hrest, List.isEmpty_eq_false_iff.2 e.key_ne_nil, Bool.false_eq_true, if_false]
  rfl

theorem readKey_key (t : Text) : readKey (e.key ++ ' ' :: '=' :: t) = some ([e.key], '=' :: t) := by
  rw [readKey, separated, readSpacedPart_key]
  rfl

theorem readEntry_line (rest : Text) :
    readEntry (readValue depthBound) (e.line ++ rest) = some (([e.key], e.value), '\n' :: rest) := by
  have hspace : skipBlanks (' ' :: (e.written ++ '\n' :: rest)) = e.written ++ '\n' :: rest := by
    rw [skipBlanks, List.dropWhile_cons_of_pos (by decide)]
    refine skipBlanks_eq_self fun c hc => ?_
    rw [List.head?_append] at hc
    cases hw : e.written.head? with
    | none =>
      rw [hw] at hc
      cases hc
      decide
    | some x =>
      rw [hw] at hc
      cases hc
      exact e.stands.visible c hw
  have hend : skipBlanks ('\n' :: rest) = '\n' :: rest :=
    List.dropWhile_cons_of_neg (by decide)
  rw [line_append, readEntry, readKey_key]
  simp only [Option.bind_eq_bind, Option.bind_some, afterSign, if_true, hspace, e.stands.reads, hend]
  rfl

theorem readNextLine_line (rest : Text) :
    readNextLine (e.line ++ rest) = some (some (.entry [e.key] e.value), rest) := by
  have hentry : readEntryLine (e.line ++ rest) = some (.entry [e.key] e.value, rest) := by
    rw [readEntryLine, readEntry_line]
    rfl
  obtain ⟨c, u, hc, hline⟩ := e.exists_line_eq_cons
  rw [hline] at hentry ⊢
  -- No comment, header or empty line starts with a character of a key.
  unfold readNextLine
  split <;> first
    | next h => exact absurd ((List.cons.inj h).1 ▸ hc) (by decide)
    | next h => rw [hentry]; rfl

theorem ofText_line_append (rest : Text) :
    Line.ofText (e.line ++ rest) = (Line.ofText rest).map (Line.entry [e.key] e.value :: ·) := by
  have hstart : skipBlanks (e.line ++ rest) = e.line ++ rest := by
    rw [line_append]
    exact e.skipBlanks_key_append _
  obtain ⟨c, u, -, hline⟩ := e.exists_line_eq_cons
  rw [Line.ofText]
  split
  · next h =>
    rw [hstart, hline] at h
    cases h
  · next x cs h =>
    have hcs : u ++ rest = cs := by
      rw [hstart, hline] at h
      exact (List.cons.inj h).2
    have hshorter : rest.length ≤ cs.length := by simp [← hcs]
    rw [← h, hstart, readNextLine_line]
    simp only [hshorter, if_true]
    rfl

end Field

/-! ### Documents -/

variable (fields : List Field)

theorem Line.ofText_fields :
    Line.ofText (fields.flatMap Field.line) =
      some (fields.map fun e => .entry [e.key] e.value) := by
  induction fields with
  | nil =>
    rw [List.flatMap_nil, Line.ofText]
    rfl
  | cons e fields ih =>
    rw [List.flatMap_cons, e.ofText_line_append, ih]
    rfl

theorem Section.ofLines_fields :
    Section.ofLines (fields.map fun e => .entry [e.key] e.value) =
      (fields.map fun e => ([e.key], e.value), []) := by
  induction fields with
  | nil => rfl
  | cons e fields ih => simp only [List.map_cons, Section.ofLines, ih]

theorem Entries.get?_eq_none {key : Text} {entries : Entries} :
    Entries.get? key entries = none ↔ key ∉ entries.map Prod.fst := by
  rw [Entries.get?, List.lookup_eq_none_iff, List.mem_map]
  simp only [bne_iff_ne]
  exact ⟨fun h ⟨p, hp, he⟩ => h p hp he.symm, fun h p hp he => h ⟨p, hp, he.symm⟩⟩

theorem Entries.assign_of_notMem {key : Text} {entries : Entries}
    (h : key ∉ entries.map Prod.fst) (value : Value) :
    Entries.assign key value entries = entries ++ [(key, value)] := by
  induction entries with
  | nil => rfl
  | cons entry entries ih =>
    obtain ⟨k, v⟩ := entry
    obtain ⟨hne, hrest⟩ := not_or.1 fun hmem => h (List.mem_cons.2 hmem)
    rw [Entries.assign, if_neg hne, ih hrest, List.cons_append]

theorem Entries.get?_fields (hkeys : (fields.map Field.key).Nodup) {e : Field} (he : e ∈ fields) :
    Entries.get? e.key (fields.map Field.pair) = some e.value := by
  induction fields with
  | nil => cases he
  | cons first fields ih =>
    obtain ⟨hfirst, hrest⟩ := List.nodup_cons.1 hkeys
    rw [List.map_cons, Field.pair, Entries.get?, List.lookup_cons]
    rcases List.mem_cons.1 he with rfl | he
    · rw [beq_self_eq_true]
    · have hne : (e.key == first.key) = false :=
        beq_false_of_ne fun h => hfirst (h ▸ List.mem_map_of_mem he)
      rw [hne]
      exact ih hrest he

/-- Entries under new keys are put behind those that are there. -/
theorem Entries.addAll_fields (entries : Entries)
    (hkeys : (entries.map Prod.fst ++ fields.map Field.key).Nodup) :
    Entries.addAll (fields.map fun e => ([e.key], e.value)) entries =
      some (entries ++ fields.map Field.pair) := by
  induction fields generalizing entries with
  | nil => simp [Entries.addAll]
  | cons e fields ih =>
    have hnew : e.key ∉ entries.map Prod.fst := fun hmem =>
      (List.nodup_append.1 hkeys).2.2 e.key hmem e.key List.mem_cons_self rfl
    have hadd : Entries.addAt e.value [e.key] entries = some (entries ++ [e.pair]) := by
      rw [Entries.addAt, Entries.get?_eq_none.2 hnew, Entries.assign_of_notMem hnew]
      rfl
    have hrest := ih (entries ++ [e.pair]) (by simpa [Field.pair] using hkeys)
    rw [List.map_cons, Entries.addAll, List.foldlM_cons, hadd]
    simpa [Entries.addAll] using hrest

/-- A document of entries under distinct keys is read as these entries, in their order. -/
theorem Entries.ofText_fields (hkeys : (fields.map Field.key).Nodup) :
    Entries.ofText (fields.flatMap Field.line) = some (fields.map Field.pair) := by
  have hlines : (Line.ofText (fields.flatMap Field.line)).bind Entries.ofLines =
      some (fields.map Field.pair) := by
    rw [Line.ofText_fields, Option.bind_some, Entries.ofLines, Section.ofLines_fields]
    simp [Entries.addAll_fields fields [] (by simpa using hkeys)]
  unfold Entries.ofText
  split
  · next rest h =>
    -- A byte order mark would be the first character of a key.
    cases fields with
    | nil => cases h
    | cons e fields =>
      obtain ⟨c, u, hc, hline⟩ := e.exists_line_eq_cons
      rw [List.flatMap_cons, hline] at h
      exact absurd ((List.cons.inj h).1 ▸ hc) (by decide)
  · exact hlines

end PromptTags.Toml
