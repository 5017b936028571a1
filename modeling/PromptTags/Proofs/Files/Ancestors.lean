import PromptTags.Proofs.Files.Path

/-! Going up from a path. The parent of a path has all of its components but the last, so that a path is left
behind after as many steps as it has components, and its ancestors are the directories that are reached on the
way, without a gap. -/
namespace PromptTags.Path

variable {p q : Path} {n : Nat}

/-! ### Components of a parent -/

theorem filter_dropWhile_isSilent (pieces : List Text) :
    ((pieces.dropWhile isSilent).reverse.filter fun piece => !isSilent piece) =
      pieces.reverse.filter fun piece => !isSilent piece := by
  have hsilent : ((pieces.takeWhile isSilent).filter fun piece => !isSilent piece) = [] :=
    List.filter_eq_nil_iff.2 fun piece hpiece => by
      simpa using List.all_eq_true.1 List.all_takeWhile piece hpiece
  have hpieces := congrArg (List.filter fun piece => !isSilent piece)
    (List.takeWhile_append_dropWhile (p := isSilent) (l := pieces))
  rw [List.filter_append, hsilent, List.nil_append] at hpieces
  rw [List.filter_reverse, List.filter_reverse, hpieces]

/-- A path starts as its front before a slash does. -/
theorem cutStart_front (hq : q ≠ []) (rest : Text) : (cutStart (q ++ '/' :: rest)).1 = (cutStart q).1 := by
  obtain ⟨c, cs, rfl⟩ := List.exists_cons_of_ne_nil hq
  rcases cs with _ | ⟨c', cs⟩
  · by_cases hslash : c = '/' <;> by_cases hdot : c = '.' <;> simp [cutStart, hslash, hdot]
  · by_cases hslash : c = '/' <;> by_cases hdot : c = '.' <;> by_cases hslash' : c' = '/' <;>
      simp [cutStart, hslash, hdot, hslash']

theorem cutStart_of_parent? (h : parent? p = some q) (hq : q ≠ []) : (cutStart q).1 = (cutStart p).1 := by
  rcases append_of_parent? h hq with ⟨rfl, habs⟩ | ⟨rest, rfl⟩
  · obtain ⟨rest, rfl⟩ : ∃ rest, p = '/' :: rest := List.head?_eq_some_iff.1 (by simpa [isAbsolute] using habs)
    rfl
  · exact (cutStart_front hq rest).symm

/-- A path that is written as a start and pieces counts those of its pieces that are not silent. -/
theorem loud_of_cutStart {pieces : List Text} (hbody : (cutStart q).2 = Text.join ['/'] pieces)
    (hpieces : ∀ piece ∈ pieces, '/' ∉ piece) : loud q = pieces.filter fun piece => !isSilent piece := by
  rw [← loud_eq_body, hbody]
  cases pieces with
  | nil => rfl
  | cons first rest => rw [Text.split_join (List.cons_ne_nil first rest) hpieces]

theorem pieceComponent_ne_root (piece : Text) : pieceComponent piece ≠ .root := by
  rw [pieceComponent]
  split <;> simp

/-- A path has one component more than its parent, and that is not the root. -/
theorem components_of_parent? (h : parent? p = some q) :
    ∃ last, last ≠ .root ∧ components p = components q ++ [last] := by
  have hstart := cutStart_of_parent? h
  have hkept := filter_dropWhile_isSilent (Text.split '/' (cutStart p).2).reverse
  rw [List.reverse_reverse, loud_eq_body] at hkept
  simp only [parent?] at h
  split at h
  · next hnone =>
    -- there is nothing but a leading dot
    split at h
    · next hdot =>
      obtain rfl := Option.some.inj h
      refine ⟨.here, by simp, ?_⟩
      rw [components_eq, ← hkept, hnone, hdot]
      rfl
    · cases h
  · next piece before hsome =>
    obtain rfl := Option.some.inj h
    -- the piece that is cut off is the last that counts
    have hpiece : isSilent piece = false := by
      have hhead := List.head?_dropWhile_not isSilent (Text.split '/' (cutStart p).2).reverse
      rw [hsome] at hhead
      simpa using hhead
    have hslash : ∀ piece ∈ (before.dropWhile isSilent).reverse, '/' ∉ piece := by
      intro piece' hmem
      have hbefore := (List.dropWhile_suffix isSilent).subset (List.mem_reverse.1 hmem)
      have hpieces := (List.dropWhile_suffix isSilent).subset (hsome ▸ List.mem_cons_of_mem piece hbefore)
      exact Text.notMem_of_mem_split (List.mem_reverse.1 hpieces)
    -- the parent starts as the path does, and what follows are the pieces that were kept
    have hfirst : (cutStart ((cutStart p).1 ++ Text.join ['/'] (before.dropWhile isSilent).reverse)).1 =
        (cutStart p).1 := by
      by_cases hnil : (cutStart p).1 ++ Text.join ['/'] (before.dropWhile isSilent).reverse = []
      · rw [hnil, (List.append_eq_nil_iff.1 hnil).1]
        rfl
      · exact hstart hnil
    have hbody := cutStart_append ((cutStart p).1 ++ Text.join ['/'] (before.dropWhile isSilent).reverse)
    rw [hfirst, List.append_cancel_left_eq] at hbody
    refine ⟨pieceComponent piece, pieceComponent_ne_root piece, ?_⟩
    rw [components_eq, components_eq, hfirst, loud_of_cutStart hbody hslash, ← hkept, hsome, List.reverse_cons,
      List.filter_append, filter_dropWhile_isSilent]
    simp [hpiece]

/-- Only the root and the empty path have no parent. -/
theorem parent?_eq_none_iff : parent? p = none ↔ components p = [] ∨ components p = [.root] := by
  constructor
  · intro h
    have hkept := filter_dropWhile_isSilent (Text.split '/' (cutStart p).2).reverse
    rw [List.reverse_reverse, loud_eq_body] at hkept
    simp only [parent?] at h
    split at h
    · next hnone =>
      split at h
      · cases h
      · next hdot =>
        rw [components_eq, ← hkept, hnone]
        revert hdot
        unfold cutStart
        split <;> simp [startComponents]
    · cases h
  · intro h
    rw [Option.eq_none_iff_forall_ne_some]
    intro q hq
    obtain ⟨last, hlast, hcomponents⟩ := components_of_parent? hq
    have hend : (components p).getLast? = some last := by rw [hcomponents, List.getLast?_concat]
    rcases h with h | h
    · simp [h] at hend
    · exact hlast (by simpa [h] using hend.symm)

/-! ### The way up -/

/-- The directory that is reached from a path in a number of steps to a parent. -/
def above? : (n : Nat) → Path → Option Path
  | 0, p => some p
  | n + 1, p => (parent? p).bind (above? n)

theorem ancestors_of_parent? (h : parent? p = some q) : ancestors p = p :: ancestors q := by
  rw [ancestors]
  split
  · next hnone => simp [h] at hnone
  · next hsome =>
    rw [h] at hsome
    rw [Option.some.inj hsome]

theorem ancestors_of_parent?_eq_none (h : parent? p = none) : ancestors p = [p] := by
  rw [ancestors]
  split
  · rfl
  · next hsome => simp [h] at hsome

/-- The ancestors are the directories on the way up, in order. -/
theorem getElem?_ancestors (n : Nat) (p : Path) : (ancestors p)[n]? = above? n p := by
  induction n generalizing p with
  | zero => cases h : parent? p with
    | none => rw [ancestors_of_parent?_eq_none h]; rfl
    | some q => rw [ancestors_of_parent? h]; rfl
  | succ n ih =>
    rw [above?]
    cases h : parent? p with
    | none => rw [ancestors_of_parent?_eq_none h]; rfl
    | some q =>
      rw [ancestors_of_parent? h, List.getElem?_cons_succ]
      exact ih q

theorem mem_ancestors : q ∈ ancestors p ↔ ∃ n, above? n p = some q := by
  simp only [List.mem_iff_getElem?, getElem?_ancestors]

/-- The first ancestor of some kind is the one below which there is none of that kind. -/
theorem find?_ancestors_eq_some_iff {kind : Path → Bool} :
    (ancestors p).find? kind = some q ↔
      ∃ n, above? n p = some q ∧ kind q = true ∧ ∀ k < n, ∀ dir, above? k p = some dir → kind dir = false := by
  rw [List.find?_eq_some_iff_getElem]
  constructor
  · rintro ⟨hkind, n, hn, hget, hbefore⟩
    refine ⟨n, by rw [← getElem?_ancestors, List.getElem?_eq_getElem hn, hget], hkind, ?_⟩
    intro k hk dir hdir
    obtain ⟨hlt, rfl⟩ := List.getElem?_eq_some_iff.1 ((getElem?_ancestors k p).trans hdir)
    simpa using hbefore k hk
  · rintro ⟨n, hn, hkind, hbefore⟩
    obtain ⟨hlt, hget⟩ := List.getElem?_eq_some_iff.1 ((getElem?_ancestors n p).trans hn)
    refine ⟨hkind, n, hlt, hget, fun k hk => ?_⟩
    have hdir := hbefore k hk _ ((getElem?_ancestors k p).symm.trans (List.getElem?_eq_getElem (Nat.lt_trans hk hlt)))
    simpa using hdir

theorem above?_succ (n : Nat) (p : Path) : above? (n + 1) p = (above? n p).bind parent? := by
  induction n generalizing p with
  | zero =>
    change (parent? p).bind some = parent? p
    cases parent? p <;> rfl
  | succ n ih =>
    rw [above?, above?, Option.bind_assoc]
    exact congrArg (Option.bind (parent? p)) (funext ih)

/-- Every step up takes the last component away. -/
theorem components_of_above? (h : above? n p = some q) :
    ∃ passed, components p = components q ++ passed ∧ passed.length = n := by
  -- the first step takes the last component away, and the others are taken from the parent
  induction n generalizing p with
  | zero =>
    obtain rfl := Option.some.inj h
    exact ⟨[], (List.append_nil _).symm, rfl⟩
  | succ n ih =>
    obtain ⟨parent, hparent, h⟩ := Option.bind_eq_some_iff.1 h
    obtain ⟨passed, hpassed, hlength⟩ := ih h
    obtain ⟨last, -, hlast⟩ := components_of_parent? hparent
    refine ⟨passed ++ [last], ?_, by simp [hlength]⟩
    rw [hlast, hpassed, List.append_assoc]

theorem length_ancestors_le (p : Path) : (ancestors p).length ≤ (components p).length + 1 := by
  cases hlength : (ancestors p).length with
  | zero => exact Nat.zero_le _
  | succ n =>
    have hlast : n < (ancestors p).length := by omega
    obtain ⟨passed, hpassed, hn⟩ := components_of_above? ((getElem?_ancestors n p).symm.trans (List.getElem?_eq_getElem hlast))
    rw [hpassed, List.length_append]
    omega

end PromptTags.Path
