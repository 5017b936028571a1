import PromptTags.Text.Numeral

/-! Numbers in decimal. What is read as a number are the numerals, the non-empty runs of digits, and zeros in
front of one count for nothing. The characters of a number as it is written are digits, the first of which is
no zero unless the number is zero, and the number is what they are read as. -/
namespace PromptTags.Text

theorem decimalValue_ofNat (n : Nat) : decimalValue 0 (ofNat n) = n :=
  Nat.ofDigitChars_ten_toDigits

theorem isDigit_of_mem_ofNat {n : Nat} {c : Char} (h : c ∈ ofNat n) : c.isDigit = true :=
  Nat.isDigit_of_mem_toDigits (Nat.zero_lt_succ 9) (Nat.le_refl 10) h

theorem head?_ofNat_ne_zero {n : Nat} (hn : n ≠ 0) : (ofNat n).head? ≠ some '0' := by
  induction n using Nat.strongRecOn with
  | ind n ih =>
    rw [ofNat, Nat.toDigits_eq_if (by decide)]
    split
    · next h => simpa [Nat.digitChar_eq_zero] using hn
    · next h =>
      have hrest := ih (n / 10) (by omega) (by omega)
      rwa [List.head?_append, Option.or_of_isSome (by simp [Nat.toDigits_ne_nil])]

theorem natural?_eq_some_iff_digits {t : Text} {n : Nat} :
    natural? t = some n ↔ t ≠ [] ∧ (∀ c ∈ t, c.isDigit = true) ∧ decimalValue 0 t = n := by
  rw [natural?, ← List.all_eq_true]
  cases t with
  | nil => simp
  | cons c cs => cases (c :: cs).all Char.isDigit <;> simp

/-- A number written in decimal is read as that number. -/
theorem natural?_ofNat (n : Nat) : natural? (ofNat n) = some n :=
  natural?_eq_some_iff_digits.2 ⟨Nat.toDigits_ne_nil, fun _ => isDigit_of_mem_ofNat, decimalValue_ofNat n⟩

/-! ### Numerals -/

/-- A non-empty run of ASCII digits, with the number it stands for. -/
inductive IsNumeral : Text → Nat → Prop
  | digit {d : Nat} (hd : d < 10) : IsNumeral [Nat.digitChar d] d
  | snoc {t : Text} {n d : Nat} (ht : IsNumeral t n) (hd : d < 10) :
      IsNumeral (t ++ [Nat.digitChar d]) (10 * n + d)

theorem digitValue_digitChar {d : Nat} (hd : d < 10) : digitValue (Nat.digitChar d) = d := by
  rw [digitValue, Nat.toNat_digitChar_of_lt_ten hd]
  exact Nat.add_sub_cancel_left 48 d

theorem digitChar_digitValue {c : Char} (hc : c.isDigit = true) :
    Nat.digitChar (digitValue c) = c ∧ digitValue c < 10 := by
  obtain ⟨hle, hge⟩ := Char.isDigit_iff_toNat.1 hc
  have hzero : '0'.toNat = 48 := rfl
  have hnine : '9'.toNat = 57 := rfl
  have hlt : digitValue c < 10 := by rw [digitValue]; omega
  refine ⟨Char.toNat_inj.1 ?_, hlt⟩
  rw [Nat.toNat_digitChar_of_lt_ten hlt, digitValue]
  omega

/-- Digits behind a numeral make a longer one, which is read on from its number. -/
theorem IsNumeral.append {t digits : Text} {n : Nat} (ht : IsNumeral t n)
    (hdigits : ∀ c ∈ digits, c.isDigit = true) :
    IsNumeral (t ++ digits) (decimalValue n digits) := by
  induction digits generalizing t n with
  | nil => rwa [List.append_nil]
  | cons c cs ih =>
    obtain ⟨hchar, hlt⟩ := digitChar_digitValue (hdigits c List.mem_cons_self)
    have hnext := ht.snoc hlt
    rw [hchar] at hnext
    have hrest := ih hnext fun d hd => hdigits d (List.mem_cons_of_mem c hd)
    rwa [List.append_assoc] at hrest

/-- Numerals, and nothing else, are read as numbers. -/
theorem natural?_eq_some_iff {t : Text} {n : Nat} : natural? t = some n ↔ IsNumeral t n := by
  rw [natural?_eq_some_iff_digits]
  constructor
  · rintro ⟨hne, hdigits, rfl⟩
    -- the first digit is a numeral, and the others are read on from it
    obtain ⟨c, cs, rfl⟩ := List.exists_cons_of_ne_nil hne
    obtain ⟨hchar, hlt⟩ := digitChar_digitValue (hdigits c List.mem_cons_self)
    have hfirst := IsNumeral.digit hlt
    rw [hchar] at hfirst
    have hvalue : decimalValue 0 (c :: cs) = decimalValue (digitValue c) cs := by simp [decimalValue]
    rw [hvalue]
    exact hfirst.append fun d hd => hdigits d (List.mem_cons_of_mem c hd)
  · intro h
    induction h with
    | digit hd => simp [Nat.isDigit_digitChar, hd, decimalValue, digitValue_digitChar hd]
    | snoc ht hd ih =>
      obtain ⟨hne, hdigits, rfl⟩ := ih
      refine ⟨by simp, fun c hc => ?_, by simp [decimalValue, digitValue_digitChar hd]⟩
      rcases List.mem_append.1 hc with hc | hc
      · exact hdigits c hc
      · rw [List.mem_singleton.1 hc, Nat.isDigit_digitChar, decide_eq_true hd]

theorem IsNumeral.ne_nil {t : Text} {n : Nat} (h : IsNumeral t n) : t ≠ [] :=
  (natural?_eq_some_iff_digits.1 (natural?_eq_some_iff.2 h)).1

theorem IsNumeral.isDigit {t : Text} {n : Nat} (h : IsNumeral t n) {c : Char} (hc : c ∈ t) : c.isDigit = true :=
  (natural?_eq_some_iff_digits.1 (natural?_eq_some_iff.2 h)).2.1 c hc

/-- Zeros in front count for nothing. -/
theorem natural?_replicate_append {t : Text} (ht : t ≠ []) (k : Nat) :
    natural? (List.replicate k '0' ++ t) = natural? t := by
  induction k with
  | zero => rfl
  | succ k ih =>
    have hne : (List.replicate k '0' ++ t).isEmpty = false := by simp [ht]
    rw [← ih, List.replicate_succ, List.cons_append, natural?, natural?, hne]
    rfl

end PromptTags.Text
