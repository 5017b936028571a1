import PromptTags.Text.Basic

/-!
Values under text keys, listed by key in the order of code points. `insert` is the only way the
library builds such a list, and it keeps the keys strictly increasing.
-/

namespace PromptTags

/-- Values under keys. -/
abbrev Keyed (α : Type) := List (Text × α)

namespace Keyed

variable {α : Type}

def keys (entries : Keyed α) : List Text := entries.map Prod.fst

def get? (key : Text) : Keyed α → Option α
  | [] => none
  | (k, v) :: rest => if key = k then some v else get? key rest

/-- Put a value under a key, in place of the value that was there. -/
def insert (key : Text) (value : α) : Keyed α → Keyed α
  | [] => [(key, value)]
  | (k, v) :: rest =>
    if key = k then (key, value) :: rest
    else if key < k then (key, value) :: (k, v) :: rest
    else (k, v) :: insert key value rest

def ofList (entries : List (Text × α)) : Keyed α :=
  entries.foldl (fun acc entry => insert entry.1 entry.2 acc) []

/-- Keys are strictly increasing. -/
def Sorted (entries : Keyed α) : Prop := entries.Pairwise fun x y => x.1 < y.1

theorem get?_insert (key k : Text) (value : α) (entries : Keyed α) :
    get? k (insert key value entries) = if k = key then some value else get? k entries := by
  induction entries with
  | nil => simp [insert, get?]
  | cons entry rest ih =>
    obtain ⟨k', v'⟩ := entry
    simp only [insert]
    split
    · next h => subst h; by_cases hk : k = key <;> simp [get?, hk]
    · split
      · simp [get?]
      · next h _ =>
        simp only [get?, ih]
        by_cases hk : k = k'
        · subst hk
          have : k ≠ key := fun h' => h h'.symm
          simp [this]
        · simp [hk]

/-- A value that is found stands in the list under its key. -/
theorem mem_of_get? {key : Text} {value : α} {entries : Keyed α}
    (h : get? key entries = some value) : (key, value) ∈ entries := by
  induction entries with
  | nil => simp [get?] at h
  | cons entry rest ih =>
    obtain ⟨k, v⟩ := entry
    simp only [get?] at h
    split at h
    · next hk => cases h; simp [hk]
    · exact List.mem_cons_of_mem _ (ih h)

/-- Where the keys increase, every entry is found under its key. -/
theorem get?_of_mem {entries : Keyed α} (hs : Sorted entries) {entry : Text × α}
    (h : entry ∈ entries) : get? entry.1 entries = some entry.2 := by
  induction entries with
  | nil => cases h
  | cons first rest ih =>
    obtain ⟨hfirst, hrest⟩ := List.pairwise_cons.1 hs
    rcases List.mem_cons.1 h with rfl | h
    · simp [get?]
    · have hne : entry.1 ≠ first.1 := fun he => absurd (hfirst _ h) (he ▸ List.lt_irrefl _)
      rw [get?, if_neg hne]
      exact ih hrest h

theorem mem_iff_get? {entries : Keyed α} (hs : Sorted entries) {entry : Text × α} :
    entry ∈ entries ↔ get? entry.1 entries = some entry.2 :=
  ⟨get?_of_mem hs, mem_of_get?⟩

/-- Where the keys increase, the values under the keys are all there is to a list. -/
theorem ext_of_sorted {a b : Keyed α} (ha : Sorted a) (hb : Sorted b)
    (h : ∀ key, get? key a = get? key b) : a = b := by
  have hmem (entry : Text × α) : entry ∈ a ↔ entry ∈ b := by
    rw [mem_iff_get? ha, mem_iff_get? hb, h]
  have hne {x y : Text × α} (hlt : x.1 < y.1) : x ≠ y := by
    rintro rfl
    exact List.lt_irrefl _ hlt
  have hperm : a.Perm b := (List.perm_ext_iff_of_nodup (ha.imp hne) (hb.imp hne)).2 hmem
  exact hperm.eq_of_pairwise (fun x y _ _ hxy hyx => absurd hyx (List.lt_asymm hxy)) ha hb

theorem mem_insert {key : Text} {value : α} {entries : Keyed α} {e : Text × α}
    (h : e ∈ insert key value entries) : e = (key, value) ∨ e ∈ entries := by
  induction entries with
  | nil => simp_all [insert]
  | cons entry rest ih =>
    obtain ⟨k, v⟩ := entry
    simp only [insert] at h
    split at h
    · rcases List.mem_cons.1 h with h | h
      · exact .inl h
      · exact .inr (List.mem_cons_of_mem _ h)
    · split at h
      · rcases List.mem_cons.1 h with h | h
        · exact .inl h
        · exact .inr h
      · rcases List.mem_cons.1 h with h | h
        · exact .inr (h ▸ List.mem_cons_self)
        · rcases ih h with h | h
          · exact .inl h
          · exact .inr (List.mem_cons_of_mem _ h)

theorem sorted_insert (key : Text) (value : α) {entries : Keyed α} (h : Sorted entries) :
    Sorted (insert key value entries) := by
  induction entries with
  | nil => simp [insert, Sorted]
  | cons entry rest ih =>
    obtain ⟨k, v⟩ := entry
    obtain ⟨hk, hr⟩ := List.pairwise_cons.1 h
    simp only [insert]
    split
    · next heq => exact List.pairwise_cons.2 ⟨fun e he => heq ▸ hk e he, hr⟩
    · split
      · next _ hlt =>
        refine List.pairwise_cons.2 ⟨fun e he => ?_, h⟩
        rcases List.mem_cons.1 he with rfl | he
        · exact hlt
        · exact List.lt_trans hlt (hk e he)
      · next hne hge =>
        refine List.pairwise_cons.2 ⟨fun e he => ?_, ih hr⟩
        rcases mem_insert he with rfl | he
        · rcases List.le_iff_lt_or_eq.1 (List.not_lt.1 hge) with h' | h'
          · exact h'
          · exact absurd h'.symm hne
        · exact hk e he

end Keyed

end PromptTags
