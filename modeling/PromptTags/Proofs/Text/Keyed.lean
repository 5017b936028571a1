import PromptTags.Text.Keyed

/-! Entries put into a keyed list one after the other. What is found under a key is the last value that was
put there, so putting the same entries in again changes nothing; and where the keys are all different, the
entries are all that the list holds in the end. -/
namespace PromptTags.Keyed

variable {α : Type}

/-- The list after all entries have been put in, one after the other. -/
def insertAll (entries : List (Text × α)) (before : Keyed α) : Keyed α :=
  entries.foldl (fun acc entry => insert entry.1 entry.2 acc) before

theorem get?_append (key : Text) (a b : Keyed α) :
    get? key (a ++ b) = (get? key a).or (get? key b) := by
  induction a with
  | nil => simp [get?]
  | cons entry rest ih =>
    rw [List.cons_append, get?, get?]
    split
    · rfl
    · exact ih

/-- The entry that was put in last is found first. -/
theorem get?_insertAll (key : Text) (entries : List (Text × α)) (before : Keyed α) :
    get? key (insertAll entries before) = (get? key entries.reverse).or (get? key before) := by
  induction entries generalizing before with
  | nil => rfl
  | cons entry rest ih =>
    change get? key (insertAll rest (insert entry.1 entry.2 before)) = _
    rw [ih, get?_insert, List.reverse_cons, get?_append, Option.or_assoc]
    congr 1
    by_cases h : key = entry.1 <;> simp [get?, h]

theorem sorted_insertAll (entries : List (Text × α)) {before : Keyed α} (h : Sorted before) :
    Sorted (insertAll entries before) := by
  induction entries generalizing before with
  | nil => exact h
  | cons entry rest ih => exact ih (sorted_insert entry.1 entry.2 h)

/-- Putting the same entries in a second time changes nothing. -/
theorem insertAll_insertAll (entries : List (Text × α)) {before : Keyed α} (h : Sorted before) :
    insertAll entries (insertAll entries before) = insertAll entries before := by
  have honce := sorted_insertAll entries h
  apply ext_of_sorted (sorted_insertAll entries honce) honce
  intro key
  rw [get?_insertAll, get?_insertAll, ← Option.or_assoc, Option.or_self]

theorem perm_insert {key : Text} (value : α) {entries : Keyed α} (h : key ∉ keys entries) :
    (insert key value entries).Perm ((key, value) :: entries) := by
  induction entries with
  | nil => exact List.Perm.refl _
  | cons entry rest ih =>
    obtain ⟨k, v⟩ := entry
    simp only [keys, List.map_cons, List.mem_cons, not_or] at h
    rw [insert, if_neg h.1]
    split
    · exact List.Perm.refl _
    · exact ((ih h.2).cons (k, v)).trans (List.Perm.swap (key, value) (k, v) rest)

/-- Entries of different keys are all kept. -/
theorem perm_insertAll {entries : List (Text × α)} {before : Keyed α}
    (h : (keys (entries ++ before)).Nodup) : (insertAll entries before).Perm (entries ++ before) := by
  induction entries generalizing before with
  | nil => exact List.Perm.refl _
  | cons entry rest ih =>
    have hnew : entry.1 ∉ keys before := by
      intro hmem
      apply (List.nodup_cons.1 h).1
      exact List.map_subset _ (List.subset_append_right rest before) hmem
    have hfirst : (rest ++ insert entry.1 entry.2 before).Perm (entry :: (rest ++ before)) :=
      ((perm_insert entry.2 hnew).append_left rest).trans List.perm_middle
    have hkeys : (keys (rest ++ insert entry.1 entry.2 before)).Nodup :=
      ((hfirst.map Prod.fst).nodup_iff).2 h
    exact (ih hkeys).trans hfirst

end PromptTags.Keyed
