import PromptTags.Proofs.Directive.Gap

/-! The grammar of directives by positions in a text, and that scanning computes exactly its leftmost
matches. At one position the reading with a repeat text goes before the one without, and either closes
at the first marker that it can. -/
namespace PromptTags.Grammar

/-- A directive with a repeat text opens at `i`, has its two signs at `k`, and closes at `j`. -/
structure Counted (t : Text) (i k j : Nat) : Prop where
  opens : t[i]? = some marker
  count_le : i + 1 ≤ k
  count : ∀ c ∈ t.extract (i + 1) k, c ≠ marker ∧ c ≠ barrier ∧ c ≠ repeatSign
  sign : t[k]? = some repeatSign
  second_sign : t[k + 1]? = some repeatSign
  path_le : k + 3 ≤ j
  path : barrier ∉ t.extract (k + 2) j
  closes : t[j]? = some marker

/-- A directive without a repeat text opens at `i` and closes at `j`. -/
structure Plain (t : Text) (i j : Nat) : Prop where
  opens : t[i]? = some marker
  path_le : i + 2 ≤ j
  path : barrier ∉ t.extract (i + 1) j
  closes : t[j]? = some marker

def Opens (t : Text) (i : Nat) : Prop := (∃ k j, Counted t i k j) ∨ ∃ j, Plain t i j

/-- The directive that is read at `i`, and where it closes. -/
inductive Reads (t : Text) (i : Nat) : Directive → Nat → Prop
  | counted {k j : Nat} (h : Counted t i k j) (least : ∀ k' j', j' < j → ¬ Counted t i k' j') :
    Reads t i ⟨t.extract i (j + 1), (RepeatRange.parse? (t.extract (i + 1) k)).getD .once,
      Text.split keySeparator (t.extract (k + 2) j)⟩ j
  | plain {j : Nat} (none : ∀ k' j', ¬ Counted t i k' j') (h : Plain t i j)
      (least : ∀ j', j' < j → ¬ Plain t i j') :
    Reads t i ⟨t.extract i (j + 1), .once, Text.split keySeparator (t.extract (i + 1) j)⟩ j

/-- The directives found from a position on: the one that opens first, and those found after it. -/
inductive Finds (t : Text) : Nat → List Directive → Prop
  | done {pos : Nat} (h : ∀ i, pos ≤ i → ¬ Opens t i) : Finds t pos []
  | next {pos i j : Nat} {d : Directive} {ds : List Directive} (hi : pos ≤ i)
      (first : ∀ i', pos ≤ i' → i' < i → ¬ Opens t i') (h : Reads t i d j)
      (more : Finds t (j + 1) ds) : Finds t pos (d :: ds)

section Positions

variable {t u w : Text} {c : Char} {i j : Nat}

theorem mem_extract_iff : c ∈ t.extract i j ↔ ∃ x, i ≤ x ∧ x < j ∧ t[x]? = some c := by
  rw [List.mem_iff_getElem?]
  constructor
  · rintro ⟨n, hn⟩
    rw [List.extract, List.getElem?_take] at hn
    split at hn
    · rw [List.getElem?_drop] at hn
      exact ⟨i + n, by omega, by omega, hn⟩
    · cases hn
  · rintro ⟨x, hi, hj, hx⟩
    refine ⟨x - i, ?_⟩
    rw [List.extract, List.getElem?_take, if_pos (by omega), List.getElem?_drop,
      show i + (x - i) = x by omega, hx]

theorem drop_eq_extract_append (hij : i ≤ j) (h : t[j]? = some c) :
    t.drop i = t.extract i j ++ c :: t.drop (j + 1) := by
  obtain ⟨hlt, rfl⟩ := List.getElem?_eq_some_iff.1 h
  rw [List.extract]
  conv => lhs; rw [← List.take_append_drop (j - i) (t.drop i)]
  rw [List.drop_drop, show i + (j - i) = j by omega, List.drop_eq_getElem_cons hlt]

theorem extract_ne_nil (hij : i < j) (h : t[j]? = some c) : t.extract i j ≠ [] := by
  obtain ⟨hlt, -⟩ := List.getElem?_eq_some_iff.1 h
  apply List.ne_nil_of_mem (a := t[i])
  exact mem_extract_iff.2 ⟨i, Nat.le_refl i, hij, List.getElem?_eq_getElem _⟩

theorem getElem?_of_drop (h : t.drop i = u ++ c :: w) : t[i + u.length]? = some c := by
  rw [← List.getElem?_drop, h]
  simp

theorem extract_of_drop (h : t.drop i = u ++ w) : t.extract i (i + u.length) = u := by
  rw [List.extract, h]
  simp

theorem drop_of_drop (h : t.drop i = u ++ c :: w) : t.drop (i + u.length + 1) = w := by
  rw [Nat.add_assoc, ← List.drop_drop, h]
  simp

end Positions

section Readings

variable {t cs rest : Text} {m : Mention} {d : Directive} {i j k : Nat}

/-- The two signs are at the first sign after the opening marker. -/
theorem Counted.signs_unique {k' j' : Nat} (h : Counted t i k j) (h' : Counted t i k' j') :
    k = k' := by
  rcases Nat.lt_trichotomy k k' with hlt | heq | hgt
  · exact absurd rfl (h'.count _ (mem_extract_iff.2 ⟨k, h.count_le, hlt, h.sign⟩)).2.2
  · exact heq
  · exact absurd rfl (h.count _ (mem_extract_iff.2 ⟨k', h'.count_le, hgt, h'.sign⟩)).2.2

theorem opens_of_reads (h : Reads t i d j) : Opens t i := by
  cases h with
  | counted h _ => exact .inl ⟨_, _, h⟩
  | plain _ h _ => exact .inr ⟨_, h⟩

theorem lt_of_reads (h : Reads t i d j) : i < j := by
  cases h with
  | counted h _ =>
    have hcount := h.count_le
    have hpath := h.path_le
    omega
  | plain _ h _ =>
    have hpath := h.path_le
    omega

theorem getElem?_of_opens (h : Opens t i) : t[i]? = some marker := by
  rcases h with ⟨k, j, h⟩ | ⟨j, h⟩
  · exact h.opens
  · exact h.opens

theorem counted?_isSome (hd : t.drop i = marker :: cs) (h : Counted t i k j) :
    (Mention.counted? cs).isSome := by
  have hpath := h.path_le
  have hcs : t.drop (i + 1) = cs := drop_of_drop (u := []) hd
  have hbody : Mention.IsBody (t.extract (k + 2) j) :=
    ⟨extract_ne_nil (by omega) h.closes, h.path⟩
  have hcount : Mention.count? cs = some (t.extract (i + 1) k, t.drop (k + 2)) := by
    rw [Mention.count?_eq_some_iff, ← hcs, drop_eq_extract_append h.count_le h.sign,
      List.drop_eq_getElem_cons (List.getElem?_eq_some_iff.1 h.second_sign).1,
      (List.getElem?_eq_some_iff.1 h.second_sign).2]
    exact ⟨rfl, h.count⟩
  obtain ⟨r, hr⟩ := Option.isSome_iff_exists.1
    (Mention.path?_isSome hbody (t.drop (j + 1)))
  rw [← drop_eq_extract_append (by omega) h.closes] at hr
  simp [Mention.counted?, hcount, hr]

theorem plain?_isSome (hd : t.drop i = marker :: cs) (h : Plain t i j) :
    (Mention.plain? cs).isSome := by
  have hpath := h.path_le
  have hcs : t.drop (i + 1) = cs := drop_of_drop (u := []) hd
  have hbody : Mention.IsBody (t.extract (i + 1) j) :=
    ⟨extract_ne_nil (by omega) h.closes, h.path⟩
  obtain ⟨r, hr⟩ := Option.isSome_iff_exists.1
    (Mention.path?_isSome hbody (t.drop (j + 1)))
  rw [← drop_eq_extract_append (by omega) h.closes, hcs] at hr
  simp [Mention.plain?, hr]

/-- The scanner finds nothing at a marker only if no directive opens there. -/
theorem not_opens_of_after? (hd : t.drop i = marker :: cs) (h : Mention.after? cs = none) :
    ¬ Opens t i := by
  simp only [Mention.after?] at h
  split at h
  · cases h
  · next hnone =>
    rintro (⟨k, j, hc⟩ | ⟨j, hp⟩)
    · have hsome := counted?_isSome hd hc
      rw [hnone] at hsome
      cases hsome
    · have hsome := plain?_isSome hd hp
      rw [h] at hsome
      cases hsome

/-- No marker stands inside of a path, so the closing one is the first that can close it. -/
theorem le_of_closes {path : Text} {x : Nat} (hd : t.drop i = path ++ marker :: rest)
    (hp : Mention.IsPath path) (hx : i + 1 ≤ x) (hc : t[x]? = some marker) :
    i + path.length ≤ x := by
  apply Nat.le_of_not_lt
  intro hlt
  apply hp.inner
  have htail : path.tail = t.extract (i + 1) (i + path.length) := by
    rw [List.extract, ← List.drop_drop, hd, ← List.drop_one, List.drop_append_of_le_length (by omega),
      List.take_append_of_le_length (by simp; omega), List.take_of_length_le (by simp; omega)]
  rw [htail]
  exact mem_extract_iff.2 ⟨x, hx, hlt, hc⟩

theorem extract_raw (hd : t.drop i = m.raw ++ rest) (hj : i + m.raw.length = j + 1) :
    t.extract i (j + 1) = m.raw := by
  rw [← hj]
  exact extract_of_drop hd

theorem reads_of_counted? (hd : t.drop i = marker :: cs)
    (h : Mention.counted? cs = some (m, rest)) :
    ∃ j, Reads t i m.directive j ∧ t.drop (j + 1) = rest := by
  obtain ⟨count, hm, hcount, hpath, hcs⟩ := Mention.counted?_eq_some_iff.1 h
  obtain ⟨mcount, path⟩ := m
  dsimp only at hm hpath hcs
  subst hm
  have hopens : t[i]? = some marker := getElem?_of_drop (u := []) hd
  have h₀ : t.drop (i + 1) = cs := drop_of_drop (u := []) hd
  rw [hcs] at h₀
  have h₁ := drop_of_drop h₀
  have h₂ : t.drop (i + 1 + count.length + 2) = path ++ marker :: rest :=
    drop_of_drop (u := []) h₁
  have hcountText := extract_of_drop h₀
  have hpathText := extract_of_drop h₂
  have hlen : 0 < path.length := List.length_pos_iff.2 hpath.ne_nil
  have hc : Counted t i (i + 1 + count.length) (i + 1 + count.length + 2 + path.length) := by
    refine ⟨hopens, by omega, ?_, getElem?_of_drop h₀, getElem?_of_drop (u := []) h₁, by omega,
      ?_, getElem?_of_drop h₂⟩
    · rw [hcountText]
      exact hcount
    · rw [hpathText]
      exact hpath.within
  refine ⟨_, ?_, drop_of_drop h₂⟩
  have hread := Reads.counted hc ?_
  · have hraw : t.drop i = Mention.raw ⟨some count, path⟩ ++ rest := by
      rw [hd, hcs]
      simp [Mention.raw]
    rw [hcountText, hpathText, extract_raw hraw (by simp [Mention.raw]; omega)] at hread
    exact hread
  · -- an earlier end would stand inside of the path
    intro k' j' hlt hc'
    have hk := hc.signs_unique hc'
    have hpath' := hc'.path_le
    have hle := le_of_closes h₂ hpath (by omega) hc'.closes
    omega

theorem reads_of_plain? (hd : t.drop i = marker :: cs) (hnone : Mention.counted? cs = none)
    (h : Mention.plain? cs = some (m, rest)) :
    ∃ j, Reads t i m.directive j ∧ t.drop (j + 1) = rest := by
  obtain ⟨hm, hpath, hcs⟩ := Mention.plain?_eq_some_iff.1 h
  obtain ⟨mcount, path⟩ := m
  dsimp only at hm hpath hcs
  subst hm
  have hopens : t[i]? = some marker := getElem?_of_drop (u := []) hd
  have h₀ : t.drop (i + 1) = cs := drop_of_drop (u := []) hd
  rw [hcs] at h₀
  have hpathText := extract_of_drop h₀
  have hlen : 0 < path.length := List.length_pos_iff.2 hpath.ne_nil
  have hp : Plain t i (i + 1 + path.length) := by
    refine ⟨hopens, by omega, ?_, getElem?_of_drop h₀⟩
    rw [hpathText]
    exact hpath.within
  refine ⟨_, ?_, drop_of_drop h₀⟩
  have hread := Reads.plain ?_ hp ?_
  · have hraw : t.drop i = Mention.raw ⟨none, path⟩ ++ rest := by
      rw [hd, hcs]
      simp [Mention.raw]
    rw [hpathText, extract_raw hraw (by simp [Mention.raw]; omega)] at hread
    exact hread
  · -- with a repeat text the scanner would have found that reading first
    intro k' j' hc
    have hsome := counted?_isSome hd hc
    rw [hnone] at hsome
    cases hsome
  · intro j' hlt hp'
    have hpath' := hp'.path_le
    have hle := le_of_closes h₀ hpath (by omega) hp'.closes
    omega

theorem reads_of_after? (hd : t.drop i = marker :: cs)
    (h : Mention.after? cs = some (m, rest)) :
    ∃ j, Reads t i m.directive j ∧ t.drop (j + 1) = rest := by
  simp only [Mention.after?] at h
  split at h
  · next found hf =>
    cases h
    exact reads_of_counted? hd hf
  · next hnone => exact reads_of_plain? hd hnone h

end Readings

section Uniqueness

variable {t : Text} {d d' : Directive} {i i' j j' k k' pos : Nat} {ds ds' : List Directive}

theorem reads_unique (h : Reads t i d j) (h' : Reads t i d' j') : d = d' ∧ j = j' := by
  cases h with
  | counted hc least =>
    cases h' with
    | counted hc' least' =>
      have hk := hc.signs_unique hc'
      obtain rfl : j = j' := Nat.le_antisymm
        (Nat.le_of_not_lt fun hlt => least _ _ hlt hc')
        (Nat.le_of_not_lt fun hlt => least' _ _ hlt hc)
      subst hk
      exact ⟨rfl, rfl⟩
    | plain hnone' _ _ => exact absurd hc (hnone' _ _)
  | plain hnone hp least =>
    cases h' with
    | counted hc' _ => exact absurd hc' (hnone _ _)
    | plain _ hp' least' =>
      obtain rfl : j = j' := Nat.le_antisymm
        (Nat.le_of_not_lt fun hlt => least _ hlt hp')
        (Nat.le_of_not_lt fun hlt => least' _ hlt hp)
      exact ⟨rfl, rfl⟩

theorem finds_unique (h : Finds t pos ds) (h' : Finds t pos ds') : ds = ds' := by
  induction h generalizing ds' with
  | done hnone =>
    cases h' with
    | done _ => rfl
    | next hi _ hr _ => exact absurd (opens_of_reads hr) (hnone _ hi)
  | next hi hfirst hr _ ih =>
    cases h' with
    | done hnone => exact absurd (opens_of_reads hr) (hnone _ hi)
    | next hi' hfirst' hr' hmore' =>
      have heq := Nat.le_antisymm
        (Nat.le_of_not_lt fun hlt => hfirst _ hi' hlt (opens_of_reads hr'))
        (Nat.le_of_not_lt fun hlt => hfirst' _ hi hlt (opens_of_reads hr))
      subst heq
      obtain ⟨rfl, rfl⟩ := reads_unique hr hr'
      rw [ih hmore']

theorem finds_of_not_opens (hpos : ¬ Opens t pos) (h : Finds t (pos + 1) ds) :
    Finds t pos ds := by
  have hskip {i : Nat} (hi : pos ≤ i) (ho : Opens t i) : pos + 1 ≤ i := by
    apply Nat.lt_of_le_of_ne hi
    intro heq
    exact hpos (heq ▸ ho)
  cases h with
  | done hnone => exact .done fun i hi ho => hnone i (hskip hi ho) ho
  | next hi hfirst hr hmore =>
    exact .next (by omega) (fun i' hi' hlt ho => hfirst i' (hskip hi' ho) hlt ho) hr hmore

end Uniqueness

/-- Scanning what follows a position finds the directives from there on. -/
theorem finds_scan_drop (t : Text) (pos : Nat) : Finds t pos (Directive.scan (t.drop pos)) := by
  -- by what is left of the text: a step goes on behind one character or behind one directive
  induction hn : t.length - pos using Nat.strongRecOn generalizing pos with
  | ind n ih =>
    cases hd : t.drop pos with
    | nil =>
      rw [Directive.scan_nil]
      apply Finds.done
      intro i hi ho
      have hlen := List.drop_eq_nil_iff.1 hd
      have hlt := (List.getElem?_eq_some_iff.1 (getElem?_of_opens ho)).1
      omega
    | cons c cs =>
      have hlt : pos < t.length := by
        apply Nat.lt_of_not_le
        intro hle
        rw [List.drop_eq_nil_of_le hle] at hd
        cases hd
      have hnext := ih _ (by omega) (pos + 1) rfl
      rw [show t.drop (pos + 1) = cs from drop_of_drop (u := []) hd] at hnext
      by_cases hc : c = marker
      · subst hc
        cases ha : Mention.after? cs with
        | none =>
          rw [Directive.scan_marker_of_none ha]
          exact finds_of_not_opens (not_opens_of_after? hd ha) hnext
        | some found =>
          obtain ⟨m, rest⟩ := found
          obtain ⟨j, hr, hrest⟩ := reads_of_after? hd ha
          have hj := lt_of_reads hr
          have hmore := ih _ (by omega) (j + 1) rfl
          rw [Directive.scan_marker_of_some ha, ← hrest]
          exact .next (Nat.le_refl pos) (fun i' h₁ h₂ => absurd h₁ (by omega)) hr hmore
      · rw [Directive.scan_cons_of_ne hc]
        apply finds_of_not_opens _ hnext
        intro ho
        have hpos : t[pos]? = some c := getElem?_of_drop (u := []) hd
        rw [getElem?_of_opens ho] at hpos
        exact hc (Option.some.inj hpos).symm

/-- Scanning accepts exactly the grammar: the directives of a text are those found from its start. -/
theorem scan_eq_iff_finds (t : Text) (ds : List Directive) :
    Directive.scan t = ds ↔ Finds t 0 ds := by
  have h := finds_scan_drop t 0
  rw [List.drop_zero] at h
  constructor
  · intro hd
    exact hd ▸ h
  · intro hd
    exact finds_unique h hd

/-- At the end of a text the signs belong to a path; with a later marker they follow a repeat text. -/
example : (Directive.scan (Text.lit "@2$$@")).map Directive.path = [[Text.lit "2$$"]] ∧
    (Directive.scan (Text.lit "@2$$@ a@")).map Directive.range = [⟨2, 2⟩] := by
  decide +kernel

end PromptTags.Grammar
