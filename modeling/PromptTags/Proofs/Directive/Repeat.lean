import Mathlib.Data.List.TakeWhile
import PromptTags.Directive.Repeat
import PromptTags.Proofs.Text.Numeral
import PromptTags.Proofs.Text.Parts

/-! Repeat ranges as they are written: a count, or two counts with a hyphen between them in either order. A
count is a numeral of any length whose number fits, so no other character stands in one, and a second hyphen
has no place at all. -/
namespace PromptTags.RepeatRange

open Text (IsNumeral)

variable {a b t : Text} {m n : Nat} {r : RepeatRange}

/-! ### Counts -/

/-- A numeral of a number that fits into 32 bits. -/
def IsCount (t : Text) (n : Nat) : Prop := IsNumeral t n ∧ n < UInt32.size

theorem count?_eq_some_iff : count? t = some n ↔ IsCount t n := by
  rw [count?, Option.filter_eq_some_iff, Text.natural?_eq_some_iff, decide_eq_true_iff]
  rfl

theorem count?_ofNat (h : n < countBound) : count? (Text.ofNat n) = some n := by
  simp [count?, Text.natural?_ofNat, h]

/-- A text is no count if it is empty, if a character in it is no digit, or if its number does not fit. -/
theorem count?_eq_none_iff :
    count? t = none ↔ t = [] ∨ (∃ c ∈ t, c.isDigit = false) ∨ ∃ n, IsNumeral t n ∧ UInt32.size ≤ n := by
  constructor
  · intro h
    -- a run of digits is a numeral, so that only its number can be at fault
    by_cases hne : t = []
    · exact .inl hne
    by_cases hdigits : ∀ c ∈ t, c.isDigit = true
    · have hnatural := Text.natural?_eq_some_iff_digits.2 ⟨hne, hdigits, rfl⟩
      have hnumeral := Text.natural?_eq_some_iff.1 hnatural
      refine .inr (.inr ⟨_, hnumeral, Nat.not_lt.1 fun hlt => ?_⟩)
      rw [count?_eq_some_iff.2 ⟨hnumeral, hlt⟩] at h
      cases h
    · simp only [not_forall, Bool.not_eq_true] at hdigits
      obtain ⟨c, hc, hdigit⟩ := hdigits
      exact .inr (.inl ⟨c, hc, hdigit⟩)
  · rw [Option.eq_none_iff_forall_ne_some]
    rintro h n hn
    obtain ⟨hnumeral, hlt⟩ := count?_eq_some_iff.1 hn
    rcases h with rfl | ⟨c, hc, hdigit⟩ | ⟨n', hnumeral', hle⟩
    · exact hnumeral.ne_nil rfl
    · rw [hnumeral.isDigit hc] at hdigit
      cases hdigit
    · rw [← Text.natural?_eq_some_iff] at hnumeral hnumeral'
      rw [hnumeral] at hnumeral'
      obtain rfl := Option.some.inj hnumeral'
      exact Nat.not_le.2 hlt hle

theorem count?_eq_none_of_hyphen (h : '-' ∈ t) : count? t = none :=
  count?_eq_none_iff.2 (.inr (.inl ⟨'-', h, rfl⟩))

theorem count?_replicate_append (ht : t ≠ []) (k : Nat) :
    count? (List.replicate k '0' ++ t) = count? t := by
  rw [count?, count?, Text.natural?_replicate_append ht]

/-! ### Counts and ranges -/

theorem ofBounds_comm (m n : Nat) : ofBounds m n = ofBounds n m :=
  congrArg₂ RepeatRange.mk (Nat.min_comm m n) (Nat.max_comm m n)

theorem ofBounds_self (n : Nat) : ofBounds n n = ⟨n, n⟩ :=
  congrArg₂ RepeatRange.mk (Nat.min_self n) (Nat.max_self n)

/-- A text without a hyphen is read as a count. -/
theorem parse?_of_notMem (h : '-' ∉ t) : parse? t = (count? t).map fun n => ⟨n, n⟩ := by
  have hrest : t.dropWhile (· ≠ '-') = [] :=
    List.dropWhile_eq_nil_iff.2 fun c hc => decide_eq_true fun heq => h (heq ▸ hc)
  rw [parse?, hrest]
  exact congrArg (Option.map · (count? t)) (funext ofBounds_self)

/-- A text with a hyphen is read as two counts, whichever hyphen is taken. -/
theorem parse?_hyphen (a b : Text) :
    parse? (a ++ '-' :: b) = (count? a).bind fun m => (count? b).map (ofBounds m) := by
  have hfirst (a b : Text) (ha : '-' ∉ a) :
      parse? (a ++ '-' :: b) = (count? a).bind fun m => (count? b).map (ofBounds m) := by
    obtain ⟨hbefore, hbehind⟩ := Text.takeWhile_ne_append_cons ha b
    rw [parse?, hbehind, hbefore]
    change ((count? a).bind fun m => (count? b).bind fun n => some (ofBounds m n)) = _
    cases count? a <;> cases count? b <;> rfl
  by_cases ha : '-' ∈ a
  · -- the first hyphen leaves another one to the second count
    obtain ⟨front, back, rfl, hfront⟩ := List.eq_append_cons_of_mem ha
    have hback : count? (back ++ '-' :: b) = none := count?_eq_none_of_hyphen (by simp)
    rw [List.append_assoc, List.cons_append, hfirst front _ hfront, hback, count?_eq_none_of_hyphen ha]
    cases count? front <;> rfl
  · exact hfirst a b ha

theorem parse?_hyphen_comm (a b : Text) : parse? (a ++ '-' :: b) = parse? (b ++ '-' :: a) := by
  rw [parse?_hyphen, parse?_hyphen]
  cases count? a <;> cases count? b <;> simp [ofBounds_comm]

/-- Two numbers with a hyphen between them are read as the range from one to the other. -/
theorem parse?_ofNat_hyphen (hm : m < countBound) (hn : n < countBound) :
    parse? (Text.ofNat m ++ '-' :: Text.ofNat n) = some (ofBounds m n) := by
  rw [parse?_hyphen, count?_ofNat hm, count?_ofNat hn]
  rfl

/-- A text is refused if it has more than one hyphen, or if a piece between hyphens is no count. -/
theorem parse?_eq_none_iff :
    parse? t = none ↔ 2 < (Text.split '-' t).length ∨ ∃ piece ∈ Text.split '-' t, count? piece = none := by
  by_cases ht : '-' ∈ t
  · obtain ⟨a, b, rfl, ha⟩ := List.eq_append_cons_of_mem ht
    rw [parse?_hyphen, Text.split_append_cons ha]
    by_cases hb : '-' ∈ b
    · -- the second count is refused, and there are at least three pieces
      have hrefused := count?_eq_none_of_hyphen hb
      obtain ⟨c, d, rfl, hc⟩ := List.eq_append_cons_of_mem hb
      have hpieces : 0 < (Text.split '-' d).length := List.length_pos_iff.2 (Text.split_ne_nil '-' d)
      rw [hrefused, Text.split_append_cons hc, List.length_cons, List.length_cons]
      refine iff_of_true ?_ (.inl (by omega))
      cases count? a <;> rfl
    · have hpieces : (∃ piece ∈ [a, b], count? piece = none) ↔ count? a = none ∨ count? b = none := by simp
      rw [Text.split_of_notMem hb, hpieces]
      cases count? a <;> cases count? b <;> simp
  · rw [parse?_of_notMem ht, Text.split_of_notMem ht]
    simp

/-- What is read is a count, or the range between two counts. -/
theorem parse?_eq_some_iff :
    parse? t = some r ↔ (∃ n, IsCount t n ∧ r = ⟨n, n⟩) ∨
      ∃ a b m n, t = a ++ '-' :: b ∧ IsCount a m ∧ IsCount b n ∧ r = ⟨Nat.min m n, Nat.max m n⟩ := by
  simp only [← count?_eq_some_iff]
  constructor
  · intro h
    by_cases ht : '-' ∈ t
    · obtain ⟨a, b, rfl⟩ := List.append_of_mem ht
      rw [parse?_hyphen] at h
      obtain ⟨m, hm, h⟩ := Option.bind_eq_some_iff.1 h
      obtain ⟨n, hn, rfl⟩ := Option.map_eq_some_iff.1 h
      exact .inr ⟨a, b, m, n, rfl, hm, hn, rfl⟩
    · rw [parse?_of_notMem ht] at h
      obtain ⟨n, hn, rfl⟩ := Option.map_eq_some_iff.1 h
      exact .inl ⟨n, hn, rfl⟩
  · rintro (⟨n, hn, rfl⟩ | ⟨a, b, m, n, rfl, hm, hn, rfl⟩)
    · have ht : '-' ∉ t := fun ht => by simp [count?_eq_none_of_hyphen ht] at hn
      rw [parse?_of_notMem ht, hn]
      rfl
    · rw [parse?_hyphen, hm, hn]
      rfl

theorem min_le_max_of_parse? (h : parse? t = some r) : r.min ≤ r.max ∧ r.max < UInt32.size := by
  rcases parse?_eq_some_iff.1 h with ⟨n, hn, rfl⟩ | ⟨a, b, m, n, -, hm, hn, rfl⟩
  · exact ⟨Nat.le_refl n, hn.2⟩
  · exact ⟨Nat.le_trans (Nat.min_le_left m n) (Nat.le_max_left m n), Nat.max_lt.2 ⟨hm.2, hn.2⟩⟩

/-- Zeros in front of a count count for nothing. -/
theorem parse?_replicate_append (ha : IsNumeral a m) (hb : IsNumeral b n) (k l : Nat) :
    parse? (List.replicate k '0' ++ a) = parse? a ∧
      parse? (List.replicate k '0' ++ a ++ '-' :: (List.replicate l '0' ++ b)) = parse? (a ++ '-' :: b) := by
  have hzeros := count?_replicate_append ha.ne_nil k
  have hhyphen : '-' ∉ a := fun h => by simpa using ha.isDigit h
  constructor
  · rw [parse?_of_notMem hhyphen, parse?_of_notMem (by simp [hhyphen]), hzeros]
  · rw [parse?_hyphen, parse?_hyphen, hzeros, count?_replicate_append hb.ne_nil]

/-- A text is read as a repeat range just if it is a numeral of a number of 32 bits or two of them with a hyphen
between them, and then the range goes from the smaller number to the greater one. So it does not matter in which
order they stand or how many zeros are in front of them, and all pairs of numbers can be written. Any other text
has a second hyphen, an empty side, a character that is no digit, or a number that does not fit. -/
theorem parse?_accepts_counts_and_ranges :
    (∀ t r, parse? t = some r ↔ (∃ n, IsCount t n ∧ r = ⟨n, n⟩) ∨
      ∃ a b m n, t = a ++ '-' :: b ∧ IsCount a m ∧ IsCount b n ∧ r = ⟨Nat.min m n, Nat.max m n⟩) ∧
    (∀ t r, parse? t = some r → r.min ≤ r.max ∧ r.max < UInt32.size) ∧
    (∀ t, parse? t = none ↔ 2 < (Text.split '-' t).length ∨ ∃ piece ∈ Text.split '-' t,
      piece = [] ∨ (∃ c ∈ piece, c.isDigit = false) ∨ ∃ n, IsNumeral piece n ∧ UInt32.size ≤ n) ∧
    (∀ a b, parse? (a ++ '-' :: b) = parse? (b ++ '-' :: a)) ∧
    (∀ a b m n, IsNumeral a m → IsNumeral b n → ∀ k l,
      parse? (List.replicate k '0' ++ a) = parse? a ∧
      parse? (List.replicate k '0' ++ a ++ '-' :: (List.replicate l '0' ++ b)) = parse? (a ++ '-' :: b)) ∧
    ∀ m n : UInt32,
      let range : RepeatRange := ⟨Nat.min m.toNat n.toNat, Nat.max m.toNat n.toNat⟩
      parse? (Text.ofNat m.toNat) = some ⟨m.toNat, m.toNat⟩ ∧
      parse? (Text.ofNat m.toNat ++ '-' :: Text.ofNat n.toNat) = some range ∧
      parse? (Text.ofNat n.toNat ++ '-' :: Text.ofNat m.toNat) = some range := by
  refine ⟨fun _ _ => parse?_eq_some_iff, fun _ _ => min_le_max_of_parse?, fun t => ?_, parse?_hyphen_comm,
    fun a b m n => parse?_replicate_append, fun m n => ?_⟩
  · simp only [parse?_eq_none_iff, count?_eq_none_iff]
  · have hrange := parse?_ofNat_hyphen m.toNat_lt_size n.toNat_lt_size
    have hcount : IsCount (Text.ofNat m.toNat) m.toNat :=
      count?_eq_some_iff.1 (count?_ofNat m.toNat_lt_size)
    exact ⟨parse?_eq_some_iff.2 (.inl ⟨_, hcount, rfl⟩), hrange, (parse?_hyphen_comm _ _).trans hrange⟩

/-- The greatest number before a smaller one, both behind zeros; and the next number, which does not fit. -/
theorem parse?_accepts_counts_and_ranges_at_bound :
    IsNumeral (Text.lit "4294967295") 4294967295 ∧ IsNumeral (Text.lit "7") 7 ∧
    parse? (Text.lit "4294967295-7") = some ⟨7, 4294967295⟩ ∧
    parse? (Text.lit "04294967295-0007") = some ⟨7, 4294967295⟩ ∧
    parse? (Text.lit "7-4294967296") = none := by
  obtain ⟨hsome, -, hnone, hcomm, hzeros, -⟩ := parse?_accepts_counts_and_ranges
  have hlast : IsNumeral (Text.lit "4294967295") 4294967295 := Text.natural?_eq_some_iff.1 (by decide)
  have hseven : IsNumeral (Text.lit "7") 7 := Text.natural?_eq_some_iff.1 (by decide)
  have hrange : parse? (Text.lit "4294967295-7") = some ⟨7, 4294967295⟩ :=
    (hsome _ _).2 (.inr ⟨_, _, _, _, rfl, ⟨hlast, by decide⟩, ⟨hseven, by decide⟩, by decide⟩)
  refine ⟨hlast, hseven, hrange, (hzeros _ _ _ _ hlast hseven 1 3).2.trans hrange, ?_⟩
  refine (hnone _).2 (.inr ⟨Text.lit "4294967296", by decide, .inr (.inr ⟨4294967296, ?_, by decide⟩)⟩)
  exact Text.natural?_eq_some_iff.1 (by decide)

end PromptTags.RepeatRange
