import PromptTags.Directive.Scan

/-! What the readers of a mention accept, as equations between texts. A path text is not empty, holds
no barrier, and holds the marker at most as its first character; a count text holds neither marker,
barrier nor repeat sign. A marker starts no mention exactly if every later marker is out of its reach. -/
namespace PromptTags.Mention

/-- A path as it may stand between two markers. -/
structure IsPath (p : Text) : Prop where
  ne_nil : p ≠ []
  inner : marker ∉ p.tail
  within : barrier ∉ p

/-- A repeat text as it may stand before two repeat signs. -/
def IsCount (count : Text) : Prop :=
  ∀ c ∈ count, c ≠ marker ∧ c ≠ barrier ∧ c ≠ repeatSign

def body (m : Mention) : Text :=
  match m.count with
  | none => m.path
  | some count => count ++ repeatSign :: repeatSign :: m.path

theorem raw_eq (m : Mention) : m.raw = marker :: (m.body ++ [marker]) := by
  obtain ⟨count, path⟩ := m
  cases count <;> simp [raw, body]

/-- A text that a mention may have between its markers: some text, and no barrier. -/
structure IsBody (b : Text) : Prop where
  ne_nil : b ≠ []
  within : barrier ∉ b

theorem isBody_of_isPath {p : Text} (h : IsPath p) : IsBody p := ⟨h.ne_nil, h.within⟩

theorem isBody_of_isCount {count p : Text} (hc : IsCount count) (hp : IsPath p) :
    IsBody (count ++ repeatSign :: repeatSign :: p) := by
  refine ⟨by simp, ?_⟩
  intro h
  rcases List.mem_append.1 h with h | h
  · exact (hc _ h).2.1 rfl
  · have hs : barrier ≠ repeatSign := by decide
    simp only [List.mem_cons, hs, false_or] at h
    exact hp.within h

theorem closing_eq_some_iff {t p rest : Text} :
    closing t = some (p, rest) ↔ t = p ++ marker :: rest ∧ marker ∉ p ∧ barrier ∉ p := by
  induction t generalizing p with
  | nil => simp [closing]
  | cons c cs ih =>
    simp only [closing]
    split
    -- the marker closes the path here and now
    · next hc =>
      subst hc
      cases p with
      | nil => simp
      | cons x xs =>
        simp only [Option.some.injEq, Prod.mk.injEq, List.cons_append, List.cons.injEq,
          List.mem_cons, not_or, false_iff, reduceCtorEq, false_and]
        intro h
        exact h.2.1.1 h.1.1
    · next hm =>
      split
      -- behind a barrier nothing closes
      · next hb =>
        subst hb
        simp only [reduceCtorEq, false_iff]
        intro h
        cases p with
        | nil => exact hm (List.cons.inj h.1).1
        | cons x xs => exact h.2.2 ((List.cons.inj h.1).1 ▸ List.mem_cons_self)
      -- any other character is one of the path
      · next hb =>
        rw [Option.map_eq_some_iff]
        constructor
        · rintro ⟨⟨q, r⟩, hq, he⟩
          cases he
          obtain ⟨h₁, h₂, h₃⟩ := ih.1 hq
          simp [h₁, h₂, h₃, Ne.symm hm, Ne.symm hb]
        · rintro ⟨h₁, h₂, h₃⟩
          cases p with
          | nil => exact absurd (List.cons.inj h₁).1 hm
          | cons x xs =>
            obtain ⟨rfl, ht⟩ := List.cons.inj h₁
            simp only [List.mem_cons, not_or] at h₂ h₃
            exact ⟨(xs, rest), ih.2 ⟨ht, h₂.2, h₃.2⟩, rfl⟩

theorem path?_eq_some_iff {t p rest : Text} :
    path? t = some (p, rest) ↔ t = p ++ marker :: rest ∧ IsPath p := by
  cases t with
  | nil => simp [path?]
  | cons c cs =>
    -- the first character may be a marker, so only the barrier is a case of its own
    simp only [path?]
    split
    · next hb =>
      subst hb
      simp only [reduceCtorEq, false_iff]
      rintro ⟨h, hp⟩
      cases p with
      | nil => exact hp.ne_nil rfl
      | cons x xs => exact hp.within ((List.cons.inj h).1 ▸ List.mem_cons_self)
    · next hb =>
      rw [Option.map_eq_some_iff]
      constructor
      · rintro ⟨⟨q, r⟩, hq, he⟩
        cases he
        obtain ⟨h₁, h₂, h₃⟩ := closing_eq_some_iff.1 hq
        refine ⟨by simp [h₁], by simp, h₂, ?_⟩
        simp [h₃, Ne.symm hb]
      · rintro ⟨h, hp⟩
        cases p with
        | nil => exact absurd rfl hp.ne_nil
        | cons x xs =>
          obtain ⟨rfl, ht⟩ := List.cons.inj h
          have hx : barrier ∉ xs := fun hx => hp.within (List.mem_cons_of_mem _ hx)
          exact ⟨(xs, rest), closing_eq_some_iff.2 ⟨ht, hp.inner, hx⟩, rfl⟩

theorem count?_eq_some_iff {t count rest : Text} :
    count? t = some (count, rest) ↔
      t = count ++ repeatSign :: repeatSign :: rest ∧ IsCount count := by
  induction t generalizing count with
  | nil => simp [count?]
  | cons c cs ih =>
    simp only [count?]
    split
    -- at the first sign the count ends, and the second sign has to follow
    · next hc =>
      subst hc
      cases count with
      | nil =>
        cases cs with
        | nil => simp
        | cons d ds =>
          by_cases hd : d = repeatSign
          · simp [hd, IsCount, eq_comm]
          · simp [hd]
      | cons x xs =>
        have hx : ¬ (repeatSign :: cs = x :: xs ++ repeatSign :: repeatSign :: rest ∧
            IsCount (x :: xs)) := by
          rintro ⟨h, hcount⟩
          exact (hcount x List.mem_cons_self).2.2 (List.cons.inj h).1.symm
        cases cs with
        | nil => simp
        | cons d ds =>
          simp only [hx, iff_false]
          split <;> simp
    · next hs =>
      split
      -- a marker or a barrier cannot be part of a count
      · next hmb =>
        simp only [reduceCtorEq, false_iff]
        rintro ⟨h, hcount⟩
        cases count with
        | nil => exact hs (List.cons.inj h).1
        | cons x xs =>
          obtain ⟨hm, hb, -⟩ := hcount x List.mem_cons_self
          rw [(List.cons.inj h).1] at hmb
          exact hmb.elim hm hb
      · next hmb =>
        rw [not_or] at hmb
        rw [Option.map_eq_some_iff]
        constructor
        · rintro ⟨⟨q, r⟩, hq, he⟩
          cases he
          obtain ⟨h₁, h₂⟩ := ih.1 hq
          refine ⟨by simp [h₁], ?_⟩
          intro x hx
          rcases List.mem_cons.1 hx with rfl | hx
          · exact ⟨hmb.1, hmb.2, hs⟩
          · exact h₂ x hx
        · rintro ⟨h, hcount⟩
          cases count with
          | nil => exact absurd (List.cons.inj h).1 hs
          | cons x xs =>
            obtain ⟨rfl, ht⟩ := List.cons.inj h
            exact ⟨(xs, rest), ih.2 ⟨ht, fun y hy => hcount y (List.mem_cons_of_mem _ hy)⟩, rfl⟩

theorem plain?_eq_some_iff {t rest : Text} {m : Mention} :
    plain? t = some (m, rest) ↔ m.count = none ∧ IsPath m.path ∧ t = m.path ++ marker :: rest := by
  obtain ⟨count, path⟩ := m
  simp only [plain?, Option.bind_eq_bind, Option.bind_eq_some_iff, Prod.exists, path?_eq_some_iff,
    Option.pure_def, Option.some.injEq, Prod.mk.injEq, mk.injEq]
  constructor
  · rintro ⟨p, r, ⟨h, hp⟩, ⟨rfl, rfl⟩, rfl⟩
    exact ⟨rfl, hp, h⟩
  · rintro ⟨rfl, hp, h⟩
    exact ⟨path, rest, ⟨h, hp⟩, ⟨rfl, rfl⟩, rfl⟩

theorem counted?_eq_some_iff {t rest : Text} {m : Mention} :
    counted? t = some (m, rest) ↔ ∃ count, m.count = some count ∧ IsCount count ∧
      IsPath m.path ∧ t = count ++ repeatSign :: repeatSign :: (m.path ++ marker :: rest) := by
  obtain ⟨mcount, path⟩ := m
  simp only [counted?, Option.bind_eq_bind, Option.bind_eq_some_iff, Prod.exists,
    path?_eq_some_iff, count?_eq_some_iff, Option.pure_def, Option.some.injEq, Prod.mk.injEq,
    mk.injEq]
  constructor
  · rintro ⟨count, t₁, ⟨h₁, hc⟩, p, r, ⟨h₂, hp⟩, ⟨rfl, rfl⟩, rfl⟩
    exact ⟨count, rfl, hc, hp, by rw [h₁, h₂]⟩
  · rintro ⟨count, rfl, hc, hp, h⟩
    exact ⟨count, _, ⟨h, hc⟩, path, rest, ⟨rfl, hp⟩, ⟨rfl, rfl⟩, rfl⟩

/-- A path text that no reading takes apart: some text, without marker and barrier and without two signs in
a row. -/
structure IsBare (p : Text) : Prop where
  ne_nil : p ≠ []
  unmarked : marker ∉ p
  within : barrier ∉ p
  unsigned : ¬ [repeatSign, repeatSign] <:+: p

theorem IsBare.isPath {p : Text} (h : IsBare p) : IsPath p :=
  ⟨h.ne_nil, fun hm => h.unmarked (List.mem_of_mem_tail hm), h.within⟩

/-- Behind an opening marker a bare path text is the path, whatever follows its closing marker. -/
theorem after?_of_isBare {p : Text} (h : IsBare p) (rest : Text) :
    after? (p ++ marker :: rest) = some (⟨none, p⟩, rest) := by
  have hnone : counted? (p ++ marker :: rest) = none := by
    rw [Option.eq_none_iff_forall_ne_some]
    rintro ⟨m, r⟩ hsome
    obtain ⟨count, -, hcount, -, ht⟩ := counted?_eq_some_iff.1 hsome
    -- the two signs would stand before the first marker, where the path is
    rcases List.append_eq_append_iff.1 ht with ⟨l, hl, hr⟩ | ⟨l, hl, hr⟩
    · cases l with
      | nil => exact absurd (List.cons.inj hr).1 (by decide)
      | cons x xs =>
        obtain ⟨rfl, -⟩ := List.cons.inj hr
        exact (hcount marker (by rw [hl]; simp)).1 rfl
    · match l with
      | [] => exact absurd (List.cons.inj hr).1 (by decide)
      | [x] => exact absurd (List.cons.inj (List.cons.inj hr).2).1 (by decide)
      | x :: y :: l =>
        obtain ⟨rfl, htail⟩ := List.cons.inj hr
        obtain ⟨rfl, -⟩ := List.cons.inj htail
        exact h.unsigned ⟨count, l, by rw [hl]; simp⟩
  have hplain : plain? (p ++ marker :: rest) = some (⟨none, p⟩, rest) :=
    plain?_eq_some_iff.2 ⟨rfl, h.isPath, rfl⟩
  simp only [after?, hnone, hplain]

/-- The reading with a repeat text goes first. -/
theorem after?_eq_some_iff {t : Text} {found : Mention × Text} :
    after? t = some found ↔
      counted? t = some found ∨ counted? t = none ∧ plain? t = some found := by
  simp only [after?]
  cases counted? t <;> simp

/-- A mention stands at the start of what it was read from, up to its closing marker. -/
theorem body_of_after? {t rest : Text} {m : Mention} (h : after? t = some (m, rest)) :
    IsBody m.body ∧ t = m.body ++ marker :: rest := by
  rcases after?_eq_some_iff.1 h with h | ⟨-, h⟩
  · obtain ⟨count, hcount, hc, hp, ht⟩ := counted?_eq_some_iff.1 h
    simp only [body, hcount]
    exact ⟨isBody_of_isCount hc hp, by simp [ht]⟩
  · obtain ⟨hcount, hp, ht⟩ := plain?_eq_some_iff.1 h
    simp only [body, hcount]
    exact ⟨isBody_of_isPath hp, ht⟩

theorem isPath_of_after? {t rest : Text} {m : Mention} (h : after? t = some (m, rest)) :
    IsPath m.path := by
  rcases after?_eq_some_iff.1 h with h | ⟨-, h⟩
  · obtain ⟨-, -, -, hp, -⟩ := counted?_eq_some_iff.1 h
    exact hp
  · exact (plain?_eq_some_iff.1 h).2.1

/-- The reading with a repeat text does not depend on what follows its closing marker. -/
theorem counted?_append {t rest : Text} {m : Mention} (h : counted? t = some (m, rest)) (u : Text) :
    counted? (t ++ u) = some (m, rest ++ u) := by
  obtain ⟨count, hcount, hc, hp, ht⟩ := counted?_eq_some_iff.1 h
  refine counted?_eq_some_iff.2 ⟨count, hcount, hc, hp, ?_⟩
  simp [ht]

theorem counted?_body {m : Mention} {count : Text} (hcount : m.count = some count)
    (hc : IsCount count) (hp : IsPath m.path) (rest : Text) :
    counted? (m.body ++ marker :: rest) = some (m, rest) :=
  counted?_eq_some_iff.2 ⟨count, hcount, hc, hp, by simp [body, hcount]⟩

theorem plain?_body {m : Mention} (hcount : m.count = none) (hp : IsPath m.path) (rest : Text) :
    plain? (m.body ++ marker :: rest) = some (m, rest) :=
  plain?_eq_some_iff.2 ⟨hcount, hp, by simp [body, hcount]⟩

/-- A mention cut off behind its closing marker is read as the same mention. -/
theorem after?_body {m : Mention} {rest : Text}
    (h : after? (m.body ++ marker :: rest) = some (m, rest)) :
    after? (m.body ++ [marker]) = some (m, []) := by
  rcases after?_eq_some_iff.1 h with h | ⟨hnone, h⟩
  · obtain ⟨count, hcount, hc, hp, -⟩ := counted?_eq_some_iff.1 h
    exact after?_eq_some_iff.2 (.inl (counted?_body hcount hc hp []))
  · obtain ⟨hcount, hp, -⟩ := plain?_eq_some_iff.1 h
    -- a repeat text that could close in the shorter text could close in the longer one as well
    have hshort : counted? (m.body ++ [marker]) = none := by
      rw [Option.eq_none_iff_forall_ne_some]
      intro found hfound
      have hlong := counted?_append hfound rest
      rw [List.append_assoc, List.singleton_append, hnone] at hlong
      cases hlong
    exact after?_eq_some_iff.2 (.inr ⟨hshort, plain?_body hcount hp []⟩)

theorem closing_isSome {b : Text} (h : barrier ∉ b) (rest : Text) :
    (closing (b ++ marker :: rest)).isSome := by
  induction b with
  | nil => simp [closing]
  | cons c cs ih =>
    simp only [List.mem_cons, not_or] at h
    simp only [List.cons_append, closing, Ne.symm h.1, if_false]
    split
    · rfl
    · simpa using ih h.2

theorem path?_isSome {b : Text} (h : IsBody b) (rest : Text) :
    (path? (b ++ marker :: rest)).isSome := by
  obtain ⟨hne, hb⟩ := h
  cases b with
  | nil => exact absurd rfl hne
  | cons c cs =>
    simp only [List.mem_cons, not_or] at hb
    simpa [path?, Ne.symm hb.1] using closing_isSome hb.2 rest

/-- Every later marker that no barrier hides closes some mention. -/
theorem after?_isSome {b : Text} (h : IsBody b) (rest : Text) :
    (after? (b ++ marker :: rest)).isSome := by
  simp only [after?]
  split
  · rfl
  · obtain ⟨r, hr⟩ := Option.isSome_iff_exists.1 (path?_isSome h rest)
    simp [plain?, hr]

theorem closing_append_barrier (a b : Text) :
    closing (a ++ barrier :: b) = (closing a).map fun r => (r.1, r.2 ++ barrier :: b) := by
  induction a with
  | nil =>
    have hb : barrier ≠ marker := by decide
    simp [closing, hb]
  | cons c cs ih =>
    simp only [List.cons_append, closing]
    split
    · rfl
    · split
      · rfl
      · simp [ih, Function.comp_def]

theorem path?_append_barrier (a b : Text) :
    path? (a ++ barrier :: b) = (path? a).map fun r => (r.1, r.2 ++ barrier :: b) := by
  cases a with
  | nil => simp [path?]
  | cons c cs =>
    simp only [List.cons_append, path?]
    split
    · rfl
    · simp [closing_append_barrier, Function.comp_def]

theorem count?_append_barrier (a b : Text) :
    count? (a ++ barrier :: b) = (count? a).map fun r => (r.1, r.2 ++ barrier :: b) := by
  have hs : barrier ≠ repeatSign := by decide
  induction a with
  | nil => simp [count?, hs]
  | cons c cs ih =>
    simp only [List.cons_append, count?]
    split
    · cases cs with
      | nil => simp [hs]
      | cons d ds =>
        simp only [List.cons_append]
        split <;> rfl
    · split
      · rfl
      · simp [ih, Function.comp_def]

/-- No reader looks past a barrier. -/
theorem after?_append_barrier (a b : Text) :
    after? (a ++ barrier :: b) = (after? a).map fun r => (r.1, r.2 ++ barrier :: b) := by
  have hc : counted? (a ++ barrier :: b) =
      (counted? a).map fun r => (r.1, r.2 ++ barrier :: b) := by
    simp only [counted?, count?_append_barrier]
    cases count? a with
    | none => rfl
    | some r =>
      simp only [Option.map_some, Option.bind_eq_bind, Option.bind_some, path?_append_barrier]
      cases path? r.2 <;> rfl
  have hp : plain? (a ++ barrier :: b) = (plain? a).map fun r => (r.1, r.2 ++ barrier :: b) := by
    simp only [plain?, path?_append_barrier]
    cases path? a <;> rfl
  simp only [after?, hc, hp]
  cases counted? a <;> rfl

end PromptTags.Mention
