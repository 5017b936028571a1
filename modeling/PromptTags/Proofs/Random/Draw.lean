import PromptTags.Tag.Pick

/-! Range draws. A draw below `n` is the high half of a product that a second word may carry into, and it
stays below `n` with the carry. Every number below `n` is drawn from some words, and where a draw begins
with given words nothing else of the source matters. -/
namespace PromptTags.Source

/-- The high half of a word times a positive number is below that number. -/
theorem word_mul_div_lt (w : UInt32) {n : Nat} (hn : 0 < n) : w.toNat * n / wordCount < n :=
  Nat.div_lt_of_lt_mul (Nat.mul_lt_mul_of_pos_right w.toNat_lt hn)

theorem below_lt {n : Nat} (hn : 0 < n) (s : Source) : (s.below n).1 < n := by
  have hsecond := word_mul_div_lt s.step.peek hn
  have hprod : s.peek.toNat * n + n ≤ wordCount * n := by
    rw [← Nat.succ_mul]
    exact Nat.mul_le_mul_right n s.peek.toNat_lt
  simp only [below]
  split
  · -- the two halves carry as one sum: `(product + second) / 2^32`
    simp only [wordCount, UInt32.size] at *
    omega
  · exact word_mul_div_lt s.peek hn

variable {α : Type}

theorem choose_nil (s : Source) : s.choose ([] : List α) = (none, s) := rfl

def draw (items : List α) (h : items ≠ []) (s : Source) : α × Source :=
  (items.get ⟨(s.below items.length).1, below_lt (List.length_pos_iff.2 h) s⟩,
    (s.below items.length).2)

theorem draw_mem {items : List α} (h : items ≠ []) (s : Source) : (s.draw items h).1 ∈ items :=
  List.get_mem _ _

/-- A choice fails for want of elements only: what is drawn is always in range. -/
theorem choose_eq_draw {items : List α} (h : items ≠ []) (s : Source) :
    s.choose items = (some (s.draw items h).1, (s.draw items h).2) := by
  have hlt := below_lt (List.length_pos_iff.2 h) s
  simp only [choose, List.isEmpty_iff, h, if_false, draw, List.get_eq_getElem,
    List.getElem?_eq_getElem hlt]

/-- Every number below `n` is the high half of a product: of the least word for which the product is
large enough. -/
theorem exists_word_mul_div {n i : Nat} (hi : i < n) (hn : n ≤ wordCount) :
    ∃ w : UInt32, w.toNat * n / wordCount = i := by
  obtain ⟨w, hw⟩ : ∃ w, w = (i * wordCount + (n - 1)) / n := ⟨_, rfl⟩
  have hle : w * n ≤ i * wordCount + (n - 1) := hw ▸ Nat.div_mul_le_self _ _
  have hlt : i * wordCount + (n - 1) < n * (w + 1) :=
    hw ▸ Nat.lt_mul_div_succ _ (Nat.zero_lt_of_lt hi)
  have hmul : (i + 1) * wordCount ≤ n * wordCount := Nat.mul_le_mul_right wordCount hi
  rw [Nat.mul_succ, Nat.mul_comm n w] at hlt
  rw [Nat.succ_mul] at hmul
  have hword : w < UInt32.size := by
    refine Nat.lt_of_mul_lt_mul_right (a := n) ?_
    rw [Nat.mul_comm UInt32.size n]
    change w * n < n * wordCount
    omega
  refine ⟨UInt32.ofNat w, ?_⟩
  rw [UInt32.toNat_ofNat_of_lt' hword]
  exact Nat.div_eq_of_lt_le (by omega) (by rw [Nat.succ_mul]; omega)

/-- The next words of a source are the given ones. -/
def Begins : Source → List UInt32 → Prop
  | _, [] => True
  | s, w :: ws => s.peek = w ∧ s.step.Begins ws

/-- There are words that make a draw below `n` give `i`, whatever comes after them. -/
theorem exists_words_below {n i : Nat} (hi : i < n) (hn : n ≤ wordCount) :
    ∃ ws, ∀ more s, Begins s (ws ++ more) → ∃ s', s.below n = (i, s') ∧ s'.Begins more := by
  obtain ⟨w, hw⟩ := exists_word_mul_div hi hn
  by_cases hcarry : wordCount < w.toNat * n % wordCount + n
  · -- a second word is taken, and zero carries nothing
    refine ⟨[w, 0], ?_⟩
    rintro more s ⟨h₁, h₂, hmore⟩
    refine ⟨s.step.step, ?_, hmore⟩
    have hlow : w.toNat * n % wordCount / wordCount = 0 :=
      Nat.div_eq_of_lt (Nat.mod_lt _ (Nat.zero_lt_of_lt w.toNat_lt_size))
    simp only [below, h₁, h₂, if_pos hcarry, UInt32.toNat_zero, Nat.zero_mul, Nat.zero_div,
      Nat.add_zero, hlow, hw]
  · refine ⟨[w], ?_⟩
    rintro more s ⟨h₁, hmore⟩
    refine ⟨s.step, ?_, hmore⟩
    simp only [below, h₁, if_neg hcarry, hw]

/-- There are words that make a list give one of its elements, whatever comes after them. -/
theorem exists_words_draw {items : List α} {a : α} (ha : a ∈ items)
    (hlen : items.length ≤ wordCount) :
    ∃ ws, ∀ more s, Begins s (ws ++ more) →
      ∃ s', s.draw items (List.ne_nil_of_mem ha) = (a, s') ∧ s'.Begins more := by
  obtain ⟨i, hi, rfl⟩ := List.mem_iff_getElem.1 ha
  obtain ⟨ws, hws⟩ := exists_words_below hi hlen
  refine ⟨ws, ?_⟩
  intro more s hs
  obtain ⟨s', hbelow, hs'⟩ := hws more s hs
  exact ⟨s', by simp only [draw, hbelow, List.get_eq_getElem], hs'⟩

theorem begins_of_word {s : Source} {ws : List UInt32}
    (h : ∀ i (hi : i < ws.length), s.word (s.place + i) = ws[i]) : s.Begins ws := by
  induction ws generalizing s with
  | nil => trivial
  | cons w ws ih =>
    refine ⟨h 0 (by simp), ih ?_⟩
    intro i hi
    have hword := h (i + 1) (by simpa using hi)
    rw [List.getElem_cons_succ] at hword
    rw [← hword, step, Nat.add_assoc, Nat.add_comm 1 i]

theorem begins_cycle (ws : List UInt32) : (cycle ws).Begins ws := by
  apply begins_of_word
  intro i hi
  simp [cycle, Nat.mod_eq_of_lt hi, hi]

end PromptTags.Source
