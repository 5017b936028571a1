import PromptTags.Text.Basic

/-! Parts of texts: what a joined text is made of, where a text is cut at a character, and what replacing a first
occurrence keeps. -/
namespace PromptTags.Text

/-- What stands in a joined text comes from a piece or from between two of them. -/
theorem mem_join {c : Char} {sep : Text} {pieces : List Text} (h : c ∈ join sep pieces) :
    c ∈ sep ∨ ∃ piece ∈ pieces, c ∈ piece := by
  simp only [join, List.intercalate, List.mem_flatten] at h
  obtain ⟨part, hpart, hc⟩ := h
  induction pieces with
  | nil => simp at hpart
  | cons p ps ih =>
    cases ps with
    | nil =>
      rw [List.intersperse_singleton, List.mem_singleton] at hpart
      exact .inr ⟨p, List.mem_cons_self, hpart ▸ hc⟩
    | cons q qs =>
      simp only [List.intersperse_cons_cons, List.mem_cons] at hpart
      rcases hpart with rfl | rfl | hpart
      · exact .inr ⟨part, List.mem_cons_self, hc⟩
      · exact .inl hc
      · rcases ih (by simpa using hpart) with h | ⟨piece, hp, hc⟩
        · exact .inl h
        · exact .inr ⟨piece, List.mem_cons_of_mem _ hp, hc⟩

/-- Pieces that are joined behind others have a separator in front each. -/
theorem join_append (sep : Text) {pieces : List Text} (h : pieces ≠ []) (more : List Text) :
    join sep (pieces ++ more) = join sep pieces ++ more.flatMap (sep ++ ·) := by
  induction pieces with
  | nil => exact absurd rfl h
  | cons p ps ih =>
    cases ps with
    | nil =>
      clear ih
      induction more generalizing p with
      | nil => simp
      | cons q qs ih =>
        have htail := ih q (List.cons_ne_nil _ _)
        simp only [join, List.intercalate, List.singleton_append, List.intersperse_cons_cons,
          List.flatten_cons, List.intersperse_singleton, List.flatMap_cons] at htail ⊢
        rw [htail]
        simp
    | cons q qs =>
      have htail := ih (List.cons_ne_nil q qs)
      simp only [join, List.intercalate, List.cons_append, List.intersperse_cons_cons,
        List.flatten_cons] at htail ⊢
      rw [htail, List.append_assoc, List.append_assoc]

/-- A text is read up to the first occurrence of a character in one piece. -/
theorem takeWhile_ne_append_cons {c : Char} {a : Text} (h : c ∉ a) (b : Text) :
    (a ++ c :: b).takeWhile (· ≠ c) = a ∧ (a ++ c :: b).dropWhile (· ≠ c) = c :: b := by
  have hall : ∀ x ∈ a, decide (x ≠ c) = true := fun x hx => decide_eq_true fun hxc => h (hxc ▸ hx)
  constructor
  · rw [List.takeWhile_append_of_pos hall, List.takeWhile_cons_of_neg (by simp), List.append_nil]
  · rw [List.dropWhile_append_of_pos hall, List.dropWhile_cons_of_neg (by simp)]

@[simp] theorem replaceFirst_append_self (old new post : Text) :
    replaceFirst old new (old ++ post) = new ++ post := by
  cases h : old ++ post with
  | nil =>
    obtain ⟨rfl, rfl⟩ := List.append_eq_nil_iff.1 h
    simp [replaceFirst]
  | cons c cs =>
    have hp : old.isPrefixOf (c :: cs) = true := by
      rw [List.isPrefixOf_iff_prefix, ← h]
      exact List.prefix_append old post
    rw [replaceFirst, if_pos hp, ← h, List.drop_left]

/-- A part that is present is replaced where it stands or further to the left, so that everything to
the right of it is kept. -/
theorem replaceFirst_present (old new pre post : Text) :
    ∃ a b, pre ++ old = a ++ (old ++ b) ∧
      replaceFirst old new (pre ++ (old ++ post)) = a ++ (new ++ (b ++ post)) := by
  induction pre with
  | nil => exact ⟨[], [], by simp, by simp⟩
  | cons c cs ih =>
    by_cases hp : old <+: c :: (cs ++ (old ++ post))
    · -- an earlier occurrence cannot reach past the one that is known
      have hknown : c :: cs ++ old <+: c :: (cs ++ (old ++ post)) := ⟨post, by simp⟩
      have hle : old.length ≤ (c :: cs ++ old).length := by
        rw [List.length_append]
        omega
      obtain ⟨b, hb⟩ := List.prefix_of_prefix_length_le hp hknown hle
      refine ⟨[], b, by simp [hb], ?_⟩
      rw [show c :: cs ++ (old ++ post) = old ++ (b ++ post) by
        rw [← List.append_assoc, ← hb, List.append_assoc]]
      simp
    · obtain ⟨a, b, hab, hr⟩ := ih
      refine ⟨c :: a, b, by simp [hab], ?_⟩
      rw [List.cons_append, replaceFirst, if_neg (by simpa using hp), hr]
      rfl

/-- A text that holds the part has its first occurrence there, whatever is put after it. -/
theorem replaceFirst_append_of_infix {old t : Text} (h : old <:+: t) (new post : Text) :
    replaceFirst old new (t ++ post) = replaceFirst old new t ++ post := by
  induction t with
  | nil =>
    obtain rfl := List.infix_nil.1 h
    rw [List.nil_append]
    exact replaceFirst_append_self [] new post
  | cons c cs ih =>
    by_cases hp : old <+: c :: cs
    · obtain ⟨r, hr⟩ := hp
      rw [← hr, List.append_assoc, replaceFirst_append_self, replaceFirst_append_self,
        List.append_assoc]
    · have hcs : old <:+: cs := (List.infix_cons_iff.1 h).resolve_left hp
      -- an occurrence at the front would have to be short enough to lie within the text
      have hfront : ¬ old <+: c :: (cs ++ post) := by
        intro hfront
        have hlen : old.length ≤ (c :: cs).length := Nat.le_succ_of_le hcs.length_le
        exact hp (List.prefix_of_prefix_length_le hfront (List.prefix_append (c :: cs) post) hlen)
      rw [List.cons_append, replaceFirst, if_neg (by simpa using hfront), ih hcs, replaceFirst,
        if_neg (by simpa using hp), List.cons_append]

/-- The first occurrence of each text replaced by its value, one pair after the other. -/
def replaceInTurn (pairs : List (Text × Text)) (t : Text) : Text :=
  pairs.foldl (fun t pair => replaceFirst pair.1 pair.2 t) t

@[simp] theorem replaceInTurn_nil (t : Text) : replaceInTurn [] t = t := rfl

@[simp] theorem replaceInTurn_cons (old new : Text) (pairs : List (Text × Text)) (t : Text) :
    replaceInTurn ((old, new) :: pairs) t = replaceInTurn pairs (replaceFirst old new t) := rfl

/-- Pairs that are all found in turn within a text leave alone what is put after it. -/
theorem replaceInTurn_append_of_infix {pairs : List (Text × Text)} {t : Text}
    (h : ∀ i (hi : i < pairs.length), pairs[i].1 <:+: replaceInTurn (pairs.take i) t)
    (post : Text) : replaceInTurn pairs (t ++ post) = replaceInTurn pairs t ++ post := by
  induction pairs generalizing t with
  | nil => rfl
  | cons pair pairs ih =>
    obtain ⟨old, new⟩ := pair
    have hfirst : old <:+: t := h 0 (Nat.zero_lt_succ _)
    have hmore : ∀ i (hi : i < pairs.length),
        pairs[i].1 <:+: replaceInTurn (pairs.take i) (replaceFirst old new t) := by
      intro i hi
      exact h (i + 1) (Nat.succ_lt_succ hi)
    rw [replaceInTurn_cons, replaceInTurn_cons, replaceFirst_append_of_infix hfirst, ih hmore]

end PromptTags.Text
