import PromptTags.Toml.Document

/-! Integers of a document lie in the range of 64 bits with a sign. Only numerals are read as integers, so this
is a matter of values that have no other in them; the entries of a document pass it on. -/
namespace PromptTags.Toml

/-- Not an integer, or one that 64 bits with a sign can hold. -/
def Fits (v : Value) : Prop := ∀ i, v = .integer i → -integerBound ≤ i ∧ i < integerBound

variable {v : Value} {t rest : Text} {entries entries' : Entries}

theorem fits_of_ne_integer (h : ∀ i, v ≠ .integer i) : Fits v := fun i hi => absurd hi (h i)

/-! ### Values -/

theorem fits_integer? {i : Int} (h : integer? i = some v) : Fits v := by
  rw [integer?] at h
  split at h
  · next hrange =>
    rintro j rfl
    cases h
    exact hrange
  · cases h

theorem fits_float? (h : float? t = some v) : Fits v := by
  rw [float?] at h
  split at h
  · cases h
  · cases h
    exact fits_of_ne_integer nofun
  · cases h

theorem fits_basedInteger {base : Nat} (h : basedInteger base t = some (v, rest)) : Fits v := by
  simp only [basedInteger, Option.bind_eq_bind, Option.bind_eq_some_iff] at h
  obtain ⟨_, _, n, _, v', hv, h⟩ := h
  cases h
  exact fits_integer? hv

theorem fits_namedNumber? (h : namedNumber? t = some (v, rest)) : Fits v := by
  rw [namedNumber?] at h
  split at h
  · cases h
    exact fits_of_ne_integer nofun
  · cases h
    exact fits_of_ne_integer nofun
  · cases h

theorem fits_decimalNumber (h : decimalNumber t = some (v, rest)) : Fits v := by
  simp only [decimalNumber, Option.bind_eq_bind, Option.bind_eq_some_iff] at h
  obtain ⟨_, _, _, _, _, _, h⟩ := h
  split at h
  · obtain ⟨v', hv, h⟩ := Option.bind_eq_some_iff.1 h
    cases h
    exact fits_integer? hv
  · obtain ⟨v', hv, h⟩ := Option.bind_eq_some_iff.1 h
    cases h
    exact fits_float? hv

theorem fits_readNumber (h : readNumber t = some (v, rest)) : Fits v := by
  unfold readNumber at h
  split at h
  · exact fits_basedInteger h
  · exact fits_basedInteger h
  · exact fits_basedInteger h
  · split at h
    · next found hfound =>
      cases h
      exact fits_namedNumber? hfound
    · exact fits_decimalNumber h

theorem fits_readNumeral (h : readNumeral t = some (v, rest)) : Fits v := by
  have hwritten {after : Option Text} {written : Text → Text}
      (h : (after.map fun r => (Value.dateTime (written r), r)) = some (v, rest)) : Fits v := by
    obtain ⟨r, -, hr⟩ := Option.map_eq_some_iff.1 h
    cases hr
    exact fits_of_ne_integer nofun
  rw [readNumeral] at h
  split at h
  · exact hwritten h
  · split at h
    · exact hwritten h
    · exact fits_readNumber h

theorem fits_readScalar (h : readScalar t = some (v, rest)) : Fits v := by
  have hstring {read : Option (Text × Text)}
      (h : (read.map fun r => (Value.string r.1, r.2)) = some (v, rest)) : Fits v := by
    obtain ⟨r, -, hr⟩ := Option.map_eq_some_iff.1 h
    cases hr
    exact fits_of_ne_integer nofun
  unfold readScalar at h
  split at h
  · cases h
    exact fits_of_ne_integer nofun
  · cases h
    exact fits_of_ne_integer nofun
  · exact hstring h
  · exact hstring h
  · exact fits_readNumeral h

/-- What holds other values is no integer itself. -/
theorem fits_readValue {depth : Nat} (h : readValue depth t = some (v, rest)) : Fits v := by
  unfold readValue at h
  split at h
  · cases h
  · split at h
    · split at h
      · cases h
      · obtain ⟨r, -, hr⟩ := Option.map_eq_some_iff.1 h
        cases hr
        exact fits_of_ne_integer nofun
    · split at h
      · cases h
      · split at h
        · cases h
        · obtain ⟨r, -, hr⟩ := Option.map_eq_some_iff.1 h
          cases hr
          exact fits_of_ne_integer nofun
    · exact fits_readScalar h

/-! ### Lines -/

/-- A header, or an entry whose value fits. -/
def Line.Fits : Line → Prop
  | .entry _ value => Toml.Fits value
  | .table _ => True
  | .tables _ => True

theorem fits_readNextLine {line : Line} (h : readNextLine t = some (some line, rest)) :
    line.Fits := by
  have hheader {close u : Text} {f : List Text → Line} (hfits : ∀ keys, (f keys).Fits)
      (h : ((readHeader close f u).map fun r => (some r.1, r.2)) = some (some line, rest)) :
      line.Fits := by
    obtain ⟨⟨line', r⟩, hr, heq⟩ := Option.map_eq_some_iff.1 h
    cases heq
    simp only [readHeader, Option.bind_eq_bind, Option.bind_eq_some_iff] at hr
    obtain ⟨_, _, _, _, _, _, hr⟩ := hr
    cases hr
    exact hfits _
  have hnone {after : Option Text}
      (h : (after.map fun rest => ((none : Option Line), rest)) = some (some line, rest)) : line.Fits := by
    obtain ⟨r, -, hr⟩ := Option.map_eq_some_iff.1 h
    cases hr
  unfold readNextLine at h
  split at h
  · exact hnone h
  · cases h
  · exact hnone h
  · exact hheader (f := .tables) (fun _ => trivial) h
  · exact hheader (f := .table) (fun _ => trivial) h
  · obtain ⟨⟨line', r⟩, hr, heq⟩ := Option.map_eq_some_iff.1 h
    cases heq
    simp only [readEntryLine, readEntry, Option.bind_eq_bind, Option.bind_eq_some_iff] at hr
    obtain ⟨⟨⟨keys, v⟩, u⟩, ⟨_, _, _, _, ⟨v', u'⟩, hv, he⟩, _, _, hr⟩ := hr
    cases he
    cases hr
    exact fits_readValue hv

theorem fits_lines {lines : List Line} (h : Line.ofText t = some lines) :
    ∀ line ∈ lines, line.Fits := by
  fun_induction Line.ofText t generalizing lines with
  | case1 t hblank =>
    cases h
    simp
  | case2 t c cs hblank hnext => cases h
  | case3 t c cs hblank line rest hnext hshort ih =>
    obtain ⟨more, hmore, rfl⟩ := Option.map_eq_some_iff.1 h
    intro l hl
    rcases List.mem_append.1 hl with hl | hl
    · rw [Option.mem_toList.1 hl] at hnext
      exact fits_readNextLine hnext
    · exact ih hmore l hl
  | case4 => cases h

/-! ### Entries -/

namespace Entries

/-- The values that stand in a table itself fit. -/
def Fits (entries : Entries) : Prop := ∀ e ∈ entries, Toml.Fits e.2

theorem fits_assign (h : entries.Fits) (key : Text) (hv : Toml.Fits v) :
    Fits (assign key v entries) := by
  induction entries with
  | nil => simpa [Fits, assign] using hv
  | cons entry entries ih =>
    obtain ⟨k, v'⟩ := entry
    obtain ⟨hfirst, hrest⟩ := List.forall_mem_cons.1 h
    rw [assign]
    split
    · exact List.forall_mem_cons.2 ⟨hv, hrest⟩
    · exact List.forall_mem_cons.2 ⟨hfirst, ih hrest⟩

/-- A table put under a key is no integer. -/
theorem fits_map_assign {α : Type} {found : Option α} (h : entries.Fits) (key : Text)
    (table : α → Value) (htable : ∀ a i, table a ≠ .integer i)
    (hfound : (found.map fun a => assign key (table a) entries) = some entries') : entries'.Fits := by
  obtain ⟨a, -, rfl⟩ := Option.map_eq_some_iff.1 hfound
  exact fits_assign h key (fits_of_ne_integer (htable a))

theorem fits_addAt {keys : List Text} (hv : Toml.Fits v) (h : entries.Fits)
    (hadd : addAt v keys entries = some entries') : entries'.Fits := by
  unfold addAt at hadd
  split at hadd
  · cases hadd
  · split at hadd
    · cases hadd
    · cases hadd
      exact fits_assign h _ hv
  · -- only a table on the way is put into the table itself
    dsimp only at hadd
    split at hadd
    · exact fits_map_assign h _ (.table .dotted) (fun _ _ => nofun) hadd
    · split at hadd
      · cases hadd
      · exact fits_map_assign h _ (.table _) (fun _ _ => nofun) hadd
    · exact fits_map_assign h _ .tables (fun _ _ => nofun) hadd
    · cases hadd

theorem fits_changeAt {f : Entries → Option Entries} {keys : List Text} (h : entries.Fits)
    (hf : ∀ before after : Entries, before.Fits → f before = some after → after.Fits)
    (hchange : changeAt f keys entries = some entries') : entries'.Fits := by
  unfold changeAt at hchange
  split at hchange
  · exact hf _ _ h hchange
  · split at hchange
    · exact fits_map_assign h _ (.table .implied) (fun _ _ => nofun) hchange
    · split at hchange
      · cases hchange
      · exact fits_map_assign h _ (.table _) (fun _ _ => nofun) hchange
    · exact fits_map_assign h _ .tables (fun _ _ => nofun) hchange
    · cases hchange

/-- What every step keeps is kept by all of them. -/
theorem foldlM_keeps {α β : Type} {P : β → Prop} {f : β → α → Option β} {l : List α}
    (hstep : ∀ a ∈ l, ∀ b b', P b → f b a = some b' → P b') {b b' : β} (hb : P b)
    (h : l.foldlM f b = some b') : P b' := by
  induction l generalizing b with
  | nil =>
    cases h
    exact hb
  | cons a l ih =>
    rw [List.foldlM_cons] at h
    obtain ⟨b₁, hb₁, h⟩ := Option.bind_eq_some_iff.1 h
    obtain ⟨hfirst, hrest⟩ := List.forall_mem_cons.1 hstep
    exact ih hrest (hfirst b b₁ hb hb₁) h

theorem fits_addAll {lines : List (List Text × Value)} (hlines : ∀ l ∈ lines, Toml.Fits l.2)
    (h : entries.Fits) (hadd : addAll lines entries = some entries') : entries'.Fits :=
  foldlM_keeps (fun l hl _ _ hb => fits_addAt (hlines l hl) hb) h hadd

theorem fits_openIn {s : Section} {key : Text} {before after : Entries} (h : before.Fits)
    (hopen : s.openIn key before = some after) : after.Fits := by
  unfold Section.openIn at hopen
  dsimp only at hopen
  split at hopen
  · exact fits_map_assign h key (.table .header) (fun _ _ => nofun) hopen
  · exact fits_map_assign h key (.table .header) (fun _ _ => nofun) hopen
  · exact fits_map_assign h key (fun own => .tables [own]) (fun _ _ => nofun) hopen
  · exact fits_map_assign h key (fun own => .tables (_ ++ [own])) (fun _ _ => nofun) hopen
  · cases hopen

theorem fits_addTo {s : Section} (h : entries.Fits) (hadd : s.addTo entries = some entries') :
    entries'.Fits := by
  rw [Section.addTo] at hadd
  split at hadd
  · cases hadd
  · exact fits_changeAt h (fun _ _ => fits_openIn) hadd

theorem fits_own {lines : List Line} (h : ∀ line ∈ lines, line.Fits) :
    ∀ l ∈ (Section.ofLines lines).1, Toml.Fits l.2 := by
  induction lines with
  | nil => nofun
  | cons line lines ih =>
    obtain ⟨hfirst, hrest⟩ := List.forall_mem_cons.1 h
    cases line with
    | entry keys value => exact List.forall_mem_cons.2 ⟨hfirst, ih hrest⟩
    | table keys => nofun
    | tables keys => nofun

/-- Every integer among the entries of a document is in range. -/
theorem fits_ofText (h : ofText t = some entries) : entries.Fits := by
  obtain ⟨lines, hlines, h⟩ := Option.bind_eq_some_iff.1 h
  obtain ⟨own, hown, h⟩ := Option.bind_eq_some_iff.1 h
  have hfits := fits_addAll (fits_own (fits_lines hlines)) (by simp [Fits]) hown
  exact foldlM_keeps (fun _ _ _ _ => fits_addTo) hfits h

theorem fits_get? (h : entries.Fits) {key : Text} (hv : get? key entries = some v) :
    Toml.Fits v := by
  induction entries with
  | nil => cases hv
  | cons entry entries ih =>
    obtain ⟨hfirst, hrest⟩ := List.forall_mem_cons.1 h
    rw [get?, List.lookup_cons] at hv
    split at hv
    · cases hv
      exact hfirst
    · exact ih hrest hv

end Entries

end PromptTags.Toml
