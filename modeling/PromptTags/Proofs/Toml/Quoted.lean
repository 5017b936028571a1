import PromptTags.Toml.Quoted

/-! Strings read back as they were written. Whatever stands before it, a character comes back from the form
in which it is written, one at a time; only quotes within quotes that are written three times need a look
ahead, and there never stand more than two of them bare in a row. -/
namespace PromptTags.Toml

variable {f : Form} {rest : Text}

/-- One character and the string behind it. -/
theorem map_consTo {c : Char} {t : Text} {head tail : Option (Text × Text)}
    (hstep : head = tail.map (consTo c)) (h : tail = some (t, rest)) : head = some (c :: t, rest) := by
  rw [hstep, h]
  rfl

/-! ### Single characters -/

theorem isPrintable_of_not_isControl {c : Char} (h : isControl c = false) (hn : c ≠ '\n') :
    isPrintable c = true := by
  simp only [isControl, Bool.or_eq_false_iff, Bool.and_eq_false_iff, decide_eq_false_iff_not] at h
  simp only [isPrintable, Bool.or_eq_true, Bool.and_eq_true, decide_eq_true_eq]
  by_cases ht : c = '\t'
  · exact .inl ht
  · have hlow : ¬ c.toNat < 0x20 := by simpa [ht, hn] using h.1
    exact .inr ⟨Nat.le_of_not_lt hlow, h.2⟩

theorem ne_return_of_not_isControl {c : Char} (h : isControl c = false) : c ≠ '\r' := by
  rintro rfl
  exact absurd h (by decide)

/-- A character that means nothing within the quotes is read as it stands. -/
theorem readQuoted_literal {c : Char} (hc : isControl c = false) (hn : c ≠ '\n') (hs : c ≠ f.sign)
    (he : c = '\\' → f.double = false) (cs : Text) :
    readQuoted f .text (c :: cs) = (readQuoted f .text cs).map (consTo c) := by
  have hr := ne_return_of_not_isControl hc
  have hp := isPrintable_of_not_isControl hc hn
  by_cases hb : c = '\\'
  · simp [readQuoted, hn, hr, hs, hp, he hb]
  · simp [readQuoted, hn, hr, hs, hp, hb]

theorem readQuoted_newline (ht : f.tripled = true) (cs : Text) :
    readQuoted f .text ('\n' :: cs) = (readQuoted f .text cs).map (consTo '\n') := by
  simp [readQuoted, ht]

theorem afterBreak?_eq_none {u : Text} (h : ∀ x ∈ u.head?, x ≠ '\r' ∧ x ≠ '\n') :
    afterBreak? u = none := by
  cases u with
  | nil => rfl
  | cons x u =>
    obtain ⟨hr, hn⟩ := h x rfl
    rw [afterBreak?]
    · simpa using hn
    · exact fun _ h => absurd (List.cons.inj h).1 hr

/-- A backslash starts an escape, unless it hides a line break. -/
theorem readQuoted_backslash (hd : f.double = true) {x : Char} (hb : isBlank x = false)
    (hn : x ≠ '\n') (hr : x ≠ '\r') (cs : Text) :
    readQuoted f .text ('\\' :: x :: cs) = readQuoted f .escape (x :: cs) := by
  have hs : '\\' ≠ f.sign := by
    rw [Form.sign, if_pos hd]
    decide
  have hbreak : afterBreak? (skipBlanks (x :: cs)) = none := by
    rw [skipBlanks, List.dropWhile_cons_of_neg (by simpa using hb)]
    exact afterBreak?_eq_none fun y hy => Option.some.inj hy ▸ ⟨hr, hn⟩
  simp [readQuoted, hs, hd, hbreak]

/-- An escape of one letter. -/
theorem readQuoted_letter (hd : f.double = true) {x c : Char} (hx : escape? x = some c)
    (cs : Text) :
    readQuoted f .text ('\\' :: x :: cs) = (readQuoted f .text cs).map (consTo c) := by
  have hu : x ≠ 'u' := by
    rintro rfl
    cases hx
  have hU : x ≠ 'U' := by
    rintro rfl
    cases hx
  have hplain : isBlank x = false ∧ x ≠ '\n' ∧ x ≠ '\r' := by
    simp only [escape?] at hx
    split at hx <;> first | decide | cases hx
  rw [readQuoted_backslash hd hplain.1 hplain.2.1 hplain.2.2]
  simp [readQuoted, hu, hU, hx]

/-- A code below 256 has two zeros and two digits in its escape. -/
theorem numericEscape_eq {c : Char} (h : c.toNat < 256) :
    numericEscape c = ['\\', 'u', '0', '0', (Nat.digitChar (c.toNat / 16)).toUpper,
      (Nat.digitChar (c.toNat % 16)).toUpper] := by
  rw [numericEscape]
  by_cases hlow : c.toNat < 16
  · have hdiv : c.toNat / 16 = 0 := Nat.div_eq_of_lt hlow
    rw [Nat.toDigits_of_lt_base hlow, Nat.mod_eq_of_lt hlow, hdiv]
    rfl
  · have hdiv : c.toNat / 16 < 16 := by omega
    rw [Nat.toDigits_of_base_le (by decide) (by omega), Nat.toDigits_of_lt_base hdiv]
    rfl

theorem digitIn?_toUpper_digitChar :
    ∀ d < 16, Text.digitIn? 16 (Nat.digitChar d).toUpper = some d := by decide

theorem charOfCode?_toNat (c : Char) : Text.charOfCode? c.toNat = some c := by
  have hvalid : c.toNat.isValidChar := c.valid
  rw [Text.charOfCode?, dif_pos hvalid]
  rfl

theorem readQuoted_numericEscape (hd : f.double = true) {c : Char} (hc : c.toNat < 256)
    (cs : Text) :
    readQuoted f .text (numericEscape c ++ cs) = (readQuoted f .text cs).map (consTo c) := by
  have hhigh := digitIn?_toUpper_digitChar (c.toNat / 16) (by omega)
  have hlow := digitIn?_toUpper_digitChar (c.toNat % 16) (by omega)
  have hzero : Text.digitIn? 16 '0' = some 0 := digitIn?_toUpper_digitChar 0 (by decide)
  have hcode : 16 * (c.toNat / 16) + c.toNat % 16 = c.toNat := Nat.div_add_mod ..
  rw [numericEscape_eq hc]
  simp only [List.cons_append, List.nil_append]
  rw [readQuoted_backslash hd (by decide) (by decide) (by decide)]
  simp [readQuoted, hzero, hhigh, hlow, hcode, charOfCode?_toNat]

theorem toNat_lt_of_isControl {c : Char} (h : isControl c = true) : c.toNat < 256 := by
  simp only [isControl, Bool.or_eq_true, Bool.and_eq_true, decide_eq_true_eq] at h
  omega

/-- Between double quotes every other character comes back from its escape, or as it stands. -/
theorem readQuoted_escaped (hd : f.double = true) {c : Char} (hc : c ≠ '\x22') (cs : Text) :
    readQuoted f .text (escaped f.tripled c ++ cs) = (readQuoted f .text cs).map (consTo c) := by
  have hs : c ≠ f.sign := by rwa [Form.sign, if_pos hd]
  unfold escaped
  split
  case h_6 =>
    split
    · next ht => exact readQuoted_newline ht cs
    · exact readQuoted_letter hd rfl cs
  case h_7 =>
    split
    · next hctrl => exact readQuoted_numericEscape hd (toNat_lt_of_isControl hctrl) cs
    · next hback hn hctrl =>
      exact readQuoted_literal (by simpa using hctrl) hn hs (fun h => absurd h hback) cs
  all_goals exact readQuoted_letter hd rfl cs

/-! ### Quotes within quotes -/

theorem Form.sign_cases (f : Form) : f.sign = '\x22' ∨ f.sign = '\x27' := by
  unfold Form.sign
  split
  · exact .inl rfl
  · exact .inr rfl

/-- A quote of the other kind ends a string that is written once. -/
theorem readQuoted_close (ht : f.tripled = false) (rest : Text) :
    readQuoted f .text (f.sign :: rest) = some ([], rest) := by
  rcases f.sign_cases with h | h <;> simp [readQuoted, h, ht]

theorem takeWhile_run {c : Char} (h : rest.head? ≠ some c) (n : Nat) :
    (List.replicate n c ++ rest).takeWhile (fun x => decide (x = c)) = List.replicate n c := by
  have hrest : rest.takeWhile (fun x => decide (x = c)) = [] := by
    cases rest with
    | nil => rfl
    | cons x rest =>
      have hx : x ≠ c := by simpa using h
      exact List.takeWhile_cons_of_neg (by simpa using hx)
  rw [List.takeWhile_append_of_pos (by simp +contextual), hrest, List.append_nil]

/-- One quote or two do not end a string whose quotes are written three times. -/
theorem readQuoted_fewSigns (ht : f.tripled = true) (hrest : rest.head? ≠ some f.sign) {n : Nat}
    (hn : n < 2) :
    readQuoted f .text (f.sign :: (List.replicate n f.sign ++ rest)) =
      (readQuoted f .text (List.replicate n f.sign ++ rest)).map (consTo f.sign) := by
  have hrun := takeWhile_run hrest (n + 1)
  rw [List.replicate_succ, List.cons_append] at hrun
  have hfew : n + 1 < 3 := by omega
  rcases f.sign_cases with h | h <;> rw [h] at hrun ⊢ <;> simp [readQuoted, h, ht, hrun, hfew]

/-- Of a run of quotes the last three end the string. -/
theorem readQuoted_manySigns (ht : f.tripled = true) (hrest : rest.head? ≠ some f.sign) {n : Nat}
    (hn : n ≤ 2) :
    readQuoted f .text (List.replicate (n + 3) f.sign ++ rest) =
      some (List.replicate n f.sign, rest) := by
  have hrun := takeWhile_run hrest (n + 3)
  have hmany : ¬ n + 2 + 1 < 3 := by omega
  have hkept : n.min 2 = n := Nat.min_eq_left hn
  have hcut : (n + 3).min 5 = n + 3 := Nat.min_eq_left (by omega)
  have hdrop : (List.replicate (n + 3) f.sign ++ rest).drop (n + 3) = rest := by simp
  rw [List.replicate_succ, List.cons_append] at hrun hdrop ⊢
  rcases f.sign_cases with h | h <;> rw [h] at hrun hdrop ⊢ <;>
    simp [readQuoted, h, ht, hrun, hmany, hkept, hcut, hdrop]

/-- A quote belongs to the string in front of the closing quotes unless it is the first of three in
a row. -/
theorem readQuoted_sign (ht : f.tripled = true) {u : Text} (hu : ¬ [f.sign, f.sign] <+: u)
    (hrest : rest.head? ≠ some f.sign) :
    readQuoted f .text (f.sign :: (u ++ f.quotes ++ rest)) =
      (readQuoted f .text (u ++ f.quotes ++ rest)).map (consTo f.sign) := by
  have hquotes : f.quotes = [f.sign, f.sign, f.sign] := by rw [Form.quotes, if_pos ht]
  have hone := readQuoted_manySigns ht hrest (n := 1) (by decide)
  rw [hquotes]
  -- At the end of the string the quote stands in one run with the closing ones.
  match u with
  | [] =>
    have hnone := readQuoted_manySigns ht hrest (n := 0) (by decide)
    exact hone.trans (map_consTo rfl hnone).symm
  | [x] =>
    by_cases hx : x = f.sign
    · subst hx
      have htwo := readQuoted_manySigns ht hrest (n := 2) (by decide)
      exact htwo.trans (map_consTo rfl hone).symm
    · exact readQuoted_fewSigns ht (n := 0) (by simpa using hx) (by decide)
  | x :: y :: u =>
    by_cases hx : x = f.sign
    · subst hx
      have hy : y ≠ f.sign := by
        rintro rfl
        exact hu ⟨u, rfl⟩
      have hhead : (y :: (u ++ [f.sign, f.sign, f.sign] ++ rest)).head? ≠ some f.sign := by
        simpa using hy
      exact readQuoted_fewSigns ht hhead (n := 1) (by decide)
    · have hhead : (x :: y :: (u ++ [f.sign, f.sign, f.sign] ++ rest)).head? ≠ some f.sign := by
        simpa using hx
      exact readQuoted_fewSigns ht hhead (n := 0) (by decide)

/-! ### Whole strings -/

theorem readQuoted_quotes (hrest : rest.head? ≠ some f.sign) :
    readQuoted f .text (f.quotes ++ rest) = some ([], rest) := by
  rw [Form.quotes]
  split
  · next ht => exact readQuoted_manySigns ht hrest (n := 0) (by decide)
  · next ht => exact readQuoted_close (by simpa using ht) rest

theorem Form.holds_cons (hd : f.double = false) {c : Char} {t : Text} :
    f.holds (c :: t) = true ↔ isControl c = false ∧
      (if f.tripled then ¬ [f.sign, f.sign, f.sign] <+: c :: t else c ≠ f.sign ∧ c ≠ '\n') ∧
      f.holds t = true := by
  have hprefix : [f.sign, f.sign, f.sign].isPrefixOf (c :: t) = false ↔
      ¬ [f.sign, f.sign, f.sign] <+: c :: t := by
    rw [Bool.eq_false_iff, ne_eq, List.isPrefixOf_iff_prefix]
  cases ht : f.tripled with
  | false =>
    simp only [holds, hd, ht, List.any_cons, List.mem_cons, Bool.false_and, Bool.not_false,
      Bool.and_true, Bool.and_eq_true, Bool.not_eq_true', Bool.or_eq_false_iff, Bool.false_eq_true,
      if_false, decide_eq_true_eq, not_or]
    constructor
    · rintro ⟨⟨hc, hany⟩, ⟨hs, hsign⟩, hn, hbreak⟩
      exact ⟨hc, ⟨Ne.symm hs, Ne.symm hn⟩, hany, hsign, hbreak⟩
    · rintro ⟨hc, ⟨hs, hn⟩, hany, hsign, hbreak⟩
      exact ⟨⟨hc, hany⟩, ⟨Ne.symm hs, hsign⟩, Ne.symm hn, hbreak⟩
  | true =>
    simp only [holds, hd, ht, List.any_cons, hasTriple, Text.hasPart, Bool.false_and, Bool.not_false,
      Bool.and_true, Bool.and_eq_true, Bool.not_eq_true', Bool.or_eq_false_iff, if_true, hprefix]
    constructor
    · rintro ⟨⟨hc, hany⟩, hrun, hrest⟩
      exact ⟨hc, hrun, hany, hrest⟩
    · rintro ⟨hc, hrun, hany, hrest⟩
      exact ⟨⟨hc, hany⟩, hrun, hrest⟩

/-- A string that stands as it is is read back where its form can hold it. -/
theorem readQuoted_verbatim (hd : f.double = false) {t : Text} (h : f.holds t = true)
    (hrest : rest.head? ≠ some f.sign) :
    readQuoted f .text (t ++ f.quotes ++ rest) = some (t, rest) := by
  induction t with
  | nil => exact readQuoted_quotes hrest
  | cons c t ih =>
    obtain ⟨hctrl, hform, ht⟩ := (Form.holds_cons hd).1 h
    refine map_consTo ?_ (ih ht)
    change readQuoted f .text (c :: (t ++ f.quotes ++ rest)) = _
    split at hform
    · next htripled =>
      by_cases hs : c = f.sign
      · subst hs
        exact readQuoted_sign htripled (fun hp => hform (List.cons_prefix_cons.2 ⟨rfl, hp⟩)) hrest
      by_cases hn : c = '\n'
      · subst hn
        exact readQuoted_newline htripled _
      · exact readQuoted_literal hctrl hn hs (fun _ => hd) _
    · exact readQuoted_literal hctrl hform.2 hform.1 (fun _ => hd) _

/-- An escape starts with a backslash, and what is not escaped is neither a quote nor a carriage
return. -/
theorem exists_escaped_eq_cons (tripled : Bool) {c : Char} (hc : c ≠ '\x22') :
    ∃ x cs, escaped tripled c = x :: cs ∧ x ≠ '\x22' ∧ x ≠ '\r' ∧ (x = '\n' → c = '\n') := by
  unfold escaped
  split
  case h_6 => split <;> exact ⟨_, _, rfl, by decide, by decide, by decide⟩
  case h_7 =>
    split
    · exact ⟨_, _, rfl, by decide, by decide, fun h => absurd h (by decide)⟩
    · next hctrl =>
      exact ⟨c, [], rfl, hc, ne_return_of_not_isControl (by simpa using hctrl), id⟩
  all_goals exact ⟨_, _, rfl, by decide, by decide, by decide⟩

theorem add_le_of_replicate_prefix_escapeText {run : Nat} (hrun : run ≤ 2) (t : Text) {n : Nat}
    (h : List.replicate n '\x22' <+: escapeText true run t) : run + n ≤ 2 := by
  -- Only a bare quote goes on with the run, and it is counted; an escape starts with a backslash.
  induction t generalizing run n with
  | nil =>
    have hnil := List.prefix_nil.1 h
    simp only [List.replicate_eq_nil_iff] at hnil
    omega
  | cons c t ih =>
    cases n with
    | zero => exact hrun
    | succ n =>
      rw [List.replicate_succ, escapeText] at h
      split at h
      · split at h
        · next hlow =>
          have hlow : run < 2 := by simpa using hlow
          have hrest := ih hlow (List.cons_prefix_cons.1 h).2
          omega
        · exact absurd (List.cons_prefix_cons.1 h).1 (by decide)
      · next hc =>
        obtain ⟨x, cs, he, hx, -⟩ := exists_escaped_eq_cons true hc
        rw [he, List.cons_append] at h
        exact absurd (List.cons_prefix_cons.1 h).1.symm hx

/-- Every string comes back from between double quotes, whatever its characters. -/
theorem readQuoted_escapeText (hd : f.double = true) {run : Nat} (hrun : run ≤ 2) (t : Text)
    (hrest : rest.head? ≠ some f.sign) :
    readQuoted f .text (escapeText f.tripled run t ++ f.quotes ++ rest) = some (t, rest) := by
  have hsign : f.sign = '\x22' := by rw [Form.sign, if_pos hd]
  induction t generalizing run with
  | nil => exact readQuoted_quotes hrest
  | cons c t ih =>
    rw [escapeText]
    split
    · next hc =>
      subst hc
      split
      · next hbare =>
        -- No two bare quotes follow this one, so it is not taken for the end.
        obtain ⟨ht, hlow⟩ : f.tripled = true ∧ run < 2 := by simpa using hbare
        have hu : ¬ [f.sign, f.sign] <+: escapeText f.tripled (run + 1) t := by
          intro hp
          rw [hsign, ht] at hp
          have := add_le_of_replicate_prefix_escapeText hlow t (n := 2) hp
          omega
        have hstep := readQuoted_sign ht hu hrest
        rw [hsign] at hstep
        exact map_consTo hstep (ih hlow)
      · exact map_consTo (readQuoted_letter hd rfl _) (ih (Nat.zero_le 2))
    · next hc =>
      have hstep := readQuoted_escaped hd hc (escapeText f.tripled 0 t ++ f.quotes ++ rest)
      rw [← List.append_assoc, ← List.append_assoc] at hstep
      exact map_consTo hstep (ih (Nat.zero_le 2))

/-- What stands between the quotes of a string. -/
def Form.body (f : Form) (t : Text) : Text := if f.double then escapeText f.tripled 0 t else t

/-- Whether a string can be written in a form: with escapes, or as it stands. -/
def Form.Takes (f : Form) (t : Text) : Prop := f.double = true ∨ f.holds t = true

theorem readQuoted_body {t : Text} (h : f.Takes t) (hrest : rest.head? ≠ some f.sign) :
    readQuoted f .text (f.body t ++ f.quotes ++ rest) = some (t, rest) := by
  rw [Form.body]
  split
  · next hd => exact readQuoted_escapeText hd (Nat.zero_le 2) t hrest
  · next hd => exact readQuoted_verbatim (by simpa using hd) (h.resolve_left hd) hrest

/-- What stands between the quotes starts with a line break only if the string has one, and with a
quote only where the quotes around it are written three times. -/
theorem head_body {t : Text} (h : f.Takes t) {x : Char}
    (hx : x ∈ (f.body t).head?) :
    x ≠ '\r' ∧ (x = '\n' → '\n' ∈ t) ∧ (x = f.sign → f.tripled = true) := by
  cases t with
  | nil => simp [Form.body, escapeText] at hx
  | cons c t =>
    rw [Form.body] at hx
    split at hx
    · next hd =>
      have hsign : f.sign = '\x22' := by rw [Form.sign, if_pos hd]
      rw [escapeText] at hx
      split at hx
      · split at hx
        · next hbare =>
          obtain rfl : '\x22' = x := by simpa using hx
          exact ⟨by decide, by simp, fun _ => by simp_all⟩
        · obtain rfl : '\\' = x := by simpa using hx
          exact ⟨by decide, by simp, fun h => absurd (h.trans hsign) (by decide)⟩
      · next hc =>
        obtain ⟨y, cs, he, hquote, hr, hn⟩ := exists_escaped_eq_cons f.tripled hc
        rw [he] at hx
        obtain rfl : y = x := by simpa using hx
        exact ⟨hr, fun h => hn h ▸ List.mem_cons_self, fun h => absurd (h.trans hsign) hquote⟩
    · next hd =>
      obtain rfl : c = x := by simpa using hx
      have hd : f.double = false := by simpa using hd
      obtain ⟨hctrl, hform, -⟩ := (Form.holds_cons hd).1 (h.resolve_left (by simp [hd]))
      refine ⟨ne_return_of_not_isControl hctrl, fun h => h ▸ List.mem_cons_self, fun h => ?_⟩
      split at hform
      · next ht => exact ht
      · exact absurd h hform.1

theorem Form.of_takes (t : Text) : (Form.of t).Takes t := by
  unfold Form.of
  split
  · exact .inl rfl
  · split
    · next h => exact .inr h
    · split
      · exact .inl rfl
      · split
        · next h => exact .inr h
        · exact .inl rfl

theorem readString_quotes (ht : f.tripled = false) {u : Text} (hu : ¬ [f.sign, f.sign] <+: u) :
    readString (f.quotes ++ u) = readQuoted f .text u := by
  have htriple (rest : Text) : u = f.sign :: f.sign :: rest → False := by
    rintro rfl
    exact hu ⟨rest, rfl⟩
  obtain ⟨double, tripled⟩ := f
  cases ht
  cases double with
  | false =>
    change readString ('\x27' :: u) = readQuoted ⟨false, false⟩ .text u
    have hthree (v : Text) : u ≠ '\x27' :: '\x27' :: v := htriple v
    rw [readString, readLine] <;> simp [hthree]
  | true =>
    change readString ('\x22' :: u) = readQuoted ⟨true, false⟩ .text u
    have hthree (v : Text) : u ≠ '\x22' :: '\x22' :: v := htriple v
    rw [readString, readLine] <;> simp [hthree]

theorem readString_quotes_tripled (ht : f.tripled = true) (u : Text) :
    readString (f.quotes ++ u) = readQuoted f .text ((afterBreak? u).getD u) := by
  obtain ⟨double, tripled⟩ := f
  cases ht
  cases double <;> rfl

/-- A string is read back as it was written, where no further quote follows. -/
theorem readString_writeString (t : Text)
    (hrest : rest.head? ≠ some (Form.of t).sign) :
    readString (writeString t ++ rest) = some (t, rest) := by
  have hbody := readQuoted_body (Form.of_takes t) hrest
  have hhead := fun x hx => head_body (Form.of_takes t) (x := x) hx
  have hwrite : writeString t ++ rest = (Form.of t).quotes ++
      ((if (Form.of t).tripled && '\n' ∈ t then ['\n'] else []) ++
        ((Form.of t).body t ++ (Form.of t).quotes ++ rest)) := by
    simp only [writeString, Form.body, List.append_assoc]
  rw [hwrite]
  generalize Form.of t = f at *
  cases ht : f.tripled with
  | false =>
    have hquotes : f.quotes = [f.sign] := by rw [Form.quotes, if_neg (by simp [ht])]
    have hone : ¬ [f.sign, f.sign] <+: f.body t ++ f.quotes ++ rest := by
      intro hp
      cases hb : f.body t with
      | nil =>
        obtain ⟨v, hv⟩ := hp
        simp only [hb, hquotes, List.nil_append, List.cons_append, List.cons.injEq] at hv
        exact hrest (hv.2 ▸ rfl)
      | cons x v =>
        rw [hb] at hp
        have hx := (hhead x (by rw [hb]; rfl)).2.2 (List.cons_prefix_cons.1 hp).1.symm
        rw [ht] at hx
        cases hx
    exact (readString_quotes ht hone).trans hbody
  | true =>
    by_cases hn : '\n' ∈ t
    · -- The line break behind the quotes is not the first of the string.
      simp only [hn, decide_true, Bool.and_self, if_true]
      exact (readString_quotes_tripled ht _).trans hbody
    · have hbreak : afterBreak? (f.body t ++ f.quotes ++ rest) = none := by
        refine afterBreak?_eq_none fun x hx => ?_
        cases hb : f.body t with
        | nil =>
          rw [hb, Form.quotes, if_pos ht] at hx
          obtain rfl : f.sign = x := by simpa using hx
          rcases f.sign_cases with h | h <;> rw [h] <;> decide
        | cons y v =>
          rw [hb] at hx
          obtain rfl : y = x := by simpa using hx
          have hy := hhead y (by rw [hb]; rfl)
          exact ⟨hy.1, fun h => hn (hy.2.1 h)⟩
      simp only [hn, decide_false, Bool.and_false, Bool.false_eq_true, if_false, List.nil_append]
      rw [readString_quotes_tripled ht, hbreak]
      exact hbody

-- Triples of both kinds leave the last form only, where the third double quote in a row is escaped.
example : writeString (Text.lit "'''\"\"\"\n") = Text.lit "\"\"\"\n'''\"\"\\\"\n\"\"\"" := by decide

end PromptTags.Toml
