import PromptTags.Proofs.Text.Numeral
import PromptTags.Toml.Number

/-! A number in decimal at the end of a line is read as the integer it is: it starts with no zero, so no
other base is meant, and nothing in it looks like a date or a time. -/
namespace PromptTags.Toml

def AllDigits (ds : Text) : Prop := ∀ c ∈ ds, c.isDigit = true

variable {ds rest : Text}

theorem allDigits_cons {c : Char} : AllDigits (c :: ds) ↔ c.isDigit = true ∧ AllDigits ds :=
  List.forall_mem_cons

theorem dropWhile_digits (h : AllDigits ds) {x : Char} (hx : x.isDigit = false) (rest : Text) :
    (ds ++ x :: rest).dropWhile Char.isDigit = x :: rest := by
  rw [List.dropWhile_append_of_pos h, List.dropWhile_cons_of_neg (by simp [hx])]

theorem startsDate_digits (h : AllDigits ds) (rest : Text) :
    startsDate (ds ++ '\n' :: rest) = false := by
  have hend := dropWhile_digits h (x := '\n') (by decide) rest
  generalize ds ++ '\n' :: rest = t at hend ⊢
  unfold startsDate
  split
  · next a b c d r =>
    refine Bool.eq_false_iff.2 fun hdate => ?_
    have hfour : AllDigits [a, b, c, d] := by simpa [AllDigits, and_assoc] using hdate
    have hminus : '-' :: r = '\n' :: rest :=
      (dropWhile_digits hfour (x := '-') (by decide) r).symm.trans hend
    exact absurd (List.cons.inj hminus).1 (by decide)
  · rfl

theorem startsTime_digits (h : AllDigits ds) (rest : Text) :
    startsTime (ds ++ '\n' :: rest) = false := by
  have hend := dropWhile_digits h (x := '\n') (by decide) rest
  generalize ds ++ '\n' :: rest = t at hend ⊢
  unfold startsTime
  split
  · next a b r =>
    refine Bool.eq_false_iff.2 fun htime => ?_
    have htwo : AllDigits [a, b] := by simpa [AllDigits] using htime
    have hcolon : ':' :: r = '\n' :: rest :=
      (dropWhile_digits htwo (x := ':') (by decide) r).symm.trans hend
    exact absurd (List.cons.inj hcolon).1 (by decide)
  · rfl

/-- A character of a kind is none that is not of that kind. -/
theorem ne_of_kind (kind : Char → Bool) {c d : Char} (hc : kind c = true) (hd : kind d = false) :
    c ≠ d := by
  rintro rfl
  simp [hc] at hd

theorem moreDigits_digits (h : AllDigits ds) (rest : Text) :
    moreDigits Char.isDigit (ds ++ '\n' :: rest) = some (ds, '\n' :: rest) := by
  induction ds with
  | nil => cases rest <;> simp [moreDigits]
  | cons c ds ih =>
    obtain ⟨hc, hds⟩ := allDigits_cons.1 h
    have hscore : c ≠ '_' := ne_of_kind Char.isDigit hc (by decide)
    have hrest := ih hds
    cases hu : ds ++ '\n' :: rest with
    | nil => simp at hu
    | cons x u =>
      rw [hu] at hrest
      simp [hu, moreDigits, hscore, hc, hrest]

/-- The digits of a number without leading zeros are its whole part. -/
theorem wholeDigits_ofNat (n : Nat) (rest : Text) :
    wholeDigits (Text.ofNat n ++ '\n' :: rest) = some (Text.ofNat n, '\n' :: rest) := by
  by_cases hn : n = 0
  · subst hn
    rfl
  · have hds : AllDigits (Text.ofNat n) := fun c => Text.isDigit_of_mem_ofNat
    have hzero := Text.head?_ofNat_ne_zero hn
    cases hd : Text.ofNat n with
    | nil => exact absurd hd Nat.toDigits_ne_nil
    | cons c ds =>
      rw [hd] at hds hzero
      obtain ⟨hc, hds⟩ := allDigits_cons.1 hds
      have hzero : c ≠ '0' := by simpa using hzero
      rw [List.cons_append, wholeDigits]
      · simp [someDigits, hc, moreDigits_digits hds]
      · simpa using hzero

theorem head_digits (h : AllDigits ds) {x : Char} {u : Text} (hu : ds ++ '\n' :: rest = x :: u) :
    x.isDigit = true ∨ x = '\n' := by
  cases ds with
  | nil => exact .inr (List.cons.inj hu).1.symm
  | cons c ds => exact .inl ((List.cons.inj hu).1 ▸ (allDigits_cons.1 h).1)

theorem cutSign_digits (h : AllDigits ds) (rest : Text) :
    cutSign (ds ++ '\n' :: rest) = ([], ds ++ '\n' :: rest) := by
  unfold cutSign
  split
  · next hu => exact absurd (head_digits h hu) (by decide)
  · next hu => exact absurd (head_digits h hu) (by decide)
  · rfl

theorem namedNumber?_digits (h : AllDigits ds) (rest : Text) :
    namedNumber? (ds ++ '\n' :: rest) = none := by
  rw [namedNumber?, cutSign_digits h]
  split
  · next hu => exact absurd (head_digits h (Prod.mk.inj hu).2) (by decide)
  · next hu => exact absurd (head_digits h (Prod.mk.inj hu).2) (by decide)
  · rfl

/-- No mark of a base stands behind the first digit. -/
theorem readNumber_digits (h : AllDigits ds) (rest : Text) :
    readNumber (ds ++ '\n' :: rest) = decimalNumber (ds ++ '\n' :: rest) := by
  have hmark {x : Char} {u : Text} (hx : ¬ (x.isDigit = true ∨ x = '\n')) :
      ds ++ '\n' :: rest ≠ '0' :: x :: u := by
    intro hu
    cases ds with
    | nil => cases hu
    | cons c ds => exact hx (head_digits (allDigits_cons.1 h).2 (List.cons.inj hu).2)
  unfold readNumber
  split
  · next hu => exact absurd hu (hmark (by decide))
  · next hu => exact absurd hu (hmark (by decide))
  · next hu => exact absurd hu (hmark (by decide))
  · rw [namedNumber?_digits h]

theorem integer?_natCast {n : Nat} (hn : n < integerBound) :
    integer? (n : Int) = some (.integer n) := by
  have hneg : -integerBound ≤ 0 := by decide
  exact if_pos ⟨Int.le_trans hneg (Int.natCast_nonneg n), hn⟩

/-- A whole part without a sign, a fraction or an exponent is an integer. -/
theorem decimalNumber_whole {t whole : Text} (hsign : cutSign t = ([], t))
    (hwhole : wholeDigits t = some (whole, rest)) (hfraction : fractionPart rest = some ([], rest))
    (hexponent : exponentPart rest = some ([], rest)) :
    decimalNumber t =
      (integer? (Text.decimalValue 0 whole)).bind fun value => some (value, rest) := by
  have hinteger : (List.isEmpty ([] : Text) && List.isEmpty ([] : Text)) = true := rfl
  unfold decimalNumber
  rw [hsign]
  simp only [hwhole, hfraction, Option.bind_eq_bind, Option.bind_some]
  -- Not by `simp`: its proof of this step is too deep for the kernel.
  rw [hexponent, Option.bind_some]
  dsimp only
  rw [if_pos hinteger, if_neg (by simp)]
  rfl

/-- A number that fits into 64 bits with a sign is read as it is. -/
theorem readNumeral_ofNat {n : Nat} (hn : n < integerBound) (rest : Text) :
    readNumeral (Text.ofNat n ++ '\n' :: rest) = some (.integer n, '\n' :: rest) := by
  have hds : AllDigits (Text.ofNat n) := fun c => Text.isDigit_of_mem_ofNat
  simp only [readNumeral, startsDate_digits hds, startsTime_digits hds, Bool.false_eq_true, if_false]
  rw [readNumber_digits hds, decimalNumber_whole (cutSign_digits hds rest) (wholeDigits_ofNat n rest)
    rfl rfl, Text.decimalValue_ofNat, integer?_natCast hn, Option.bind_some]

end PromptTags.Toml
