import Mathlib.Tactic.SplitIfs
import PromptTags.Text.Keyed

/-! The order of texts. Texts are compared by code points, and their octets compare alike: the form of a
character starts with the bits that weigh most, and longer forms start with greater octets. -/
namespace PromptTags

namespace Text

/-- Texts that differ in a character are told apart by its octets, whatever follows it. -/
theorem utf8EncodeChar_append_lt {c d : Char} (h : c < d) (x y : List UInt8) :
    String.utf8EncodeChar c ++ x < String.utf8EncodeChar d ++ y := by
  have hlt : c.val.toNat < d.val.toNat := h
  have hmax : d.val.toNat < 1114112 := by
    rcases d.valid with h | h
    · exact Nat.lt_trans h (by decide)
    · exact h.2
  simp only [String.utf8EncodeChar]
  generalize c.val.toNat = v at *
  generalize d.val.toNat = w at *
  -- six bits at a time: either what stands before them differs, or they do
  have hsix (a b : Nat) (hab : a < b) :
      a / 64 < b / 64 ∨ a / 64 = b / 64 ∧ a % 64 < b % 64 := by omega
  have h₁ := hsix v w hlt
  have h₂ := hsix (v / 64) (w / 64)
  have h₃ := hsix (v / 64 / 64) (w / 64 / 64)
  simp only [Nat.div_div_eq_div_mul, Nat.reduceMul] at h₂ h₃
  split_ifs
  all_goals simp only [List.cons_append, List.nil_append, List.cons_lt_cons_iff,
    UInt8.lt_iff_toNat_lt, ← UInt8.toNat_inj, UInt8.toNat_ofNat']
  all_goals simp (disch := omega) only [Nat.mod_eq_of_lt]
  all_goals try omega

theorem octets_lt_octets_of_lt {a b : Text} (h : a < b) : octets a < octets b := by
  induction a generalizing b with
  | nil =>
    cases b with
    | nil => exact absurd h (List.lt_irrefl _)
    | cons d ds =>
      cases hd : octets (d :: ds) with
      | nil => simp [octets] at hd
      | cons => exact List.nil_lt_cons _ _
  | cons c cs ih =>
    cases b with
    | nil => cases h
    | cons d ds =>
      rcases List.cons_lt_cons_iff.1 h with hc | ⟨rfl, hcs⟩
      · exact utf8EncodeChar_append_lt hc _ _
      · exact List.append_left_lt (ih hcs)

theorem octets_lt_octets {a b : Text} : octets a < octets b ↔ a < b := by
  refine ⟨fun h => ?_, octets_lt_octets_of_lt⟩
  apply Classical.byContradiction
  intro hab
  rcases List.le_iff_lt_or_eq.1 (List.not_lt.1 hab) with hba | rfl
  · exact List.lt_asymm h (octets_lt_octets_of_lt hba)
  · exact List.lt_irrefl _ h

/-- Lists of keys compare by the octets of the first key in which they differ. -/
theorem map_octets_lt (front : List Text) {k k' : Text} (h : k < k') (more more' : List Text) :
    (front ++ k :: more).map octets < (front ++ k' :: more').map octets := by
  rw [List.map_append, List.map_append]
  apply List.append_left_lt
  rw [List.map_cons, List.map_cons, List.cons_lt_cons_iff]
  exact .inl (octets_lt_octets.2 h)

end Text

/-- Keys that increase do so by their octets. -/
theorem Keyed.sorted_iff_octets {α : Type} {entries : Keyed α} :
    Sorted entries ↔ entries.Pairwise fun x y => Text.octets x.1 < Text.octets y.1 := by
  simp only [Sorted, Text.octets_lt_octets]

end PromptTags
