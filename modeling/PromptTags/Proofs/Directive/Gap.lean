import PromptTags.Proofs.Directive.Mention

/-! How a scan cuts a text. The text is its gaps and its mentions in turn, and every gap before a
mention is sealed: no mention starts in it, whatever is put after it. This is what lets the gaps be
moved in front of other texts without changing what is found there. -/
namespace PromptTags

namespace Scan

/-- No mention starts in the text, whatever follows it. -/
def Sealed : Text → Prop
  | [] => True
  | c :: cs => (c = marker → ∀ rest, Mention.after? (cs ++ rest) = none) ∧ Sealed cs

theorem sealed_of_notMem {g : Text} (h : marker ∉ g) : Sealed g := by
  induction g with
  | nil => trivial
  | cons c cs ih =>
    simp only [List.mem_cons, not_or] at h
    exact ⟨fun hc => absurd hc.symm h.1, ih h.2⟩

theorem sealed_append {a b : Text} (ha : Sealed a) (hb : Sealed b) : Sealed (a ++ b) := by
  induction a with
  | nil => exact hb
  | cons c cs ih =>
    refine ⟨?_, ih ha.2⟩
    intro hc rest
    change Mention.after? ((cs ++ b) ++ rest) = none
    rw [List.append_assoc]
    exact ha.1 hc (b ++ rest)

/-- A marker that starts no mention although another mention follows is shut off by a barrier in
between, and so starts none in front of any other text. -/
theorem sealed_marker_cons {g rest : Text} {m : Mention} (hm : Mention.IsBody m.body)
    (hg : Sealed g) (h : Mention.after? (g ++ (m.raw ++ rest)) = none) : Sealed (marker :: g) := by
  refine ⟨?_, hg⟩
  intro _ z
  -- without a barrier the closing marker of the mention would close this one too
  have hb : barrier ∈ g := by
    apply Classical.byContradiction
    intro hb
    have hbody : Mention.IsBody (g ++ marker :: m.body) := by
      refine ⟨by simp, ?_⟩
      have hne : barrier ≠ marker := by decide
      simp [hb, hne, hm.within]
    have hsome := Mention.after?_isSome hbody rest
    rw [show (g ++ marker :: m.body) ++ marker :: rest = g ++ (m.raw ++ rest) by
      simp [Mention.raw_eq], h] at hsome
    exact absurd hsome (by simp)
  obtain ⟨x, y, rfl⟩ := List.append_of_mem hb
  have hx : Mention.after? x = none := by
    simpa [Mention.after?_append_barrier] using h
  simp [Mention.after?_append_barrier, hx]

/-- A text put in front of the plain text a scan begins with. -/
def lead (g : Text) (s : Scan) : Scan := g.foldr plain s

@[simp] theorem lead_found_nil (g rest : Text) : lead g ⟨[], rest⟩ = ⟨[], g ++ rest⟩ := by
  induction g with
  | nil => rfl
  | cons c cs ih =>
    change plain c (lead cs ⟨[], rest⟩) = _
    rw [ih]
    rfl

@[simp] theorem lead_found_cons (g gap : Text) (m : Mention) (more : List (Text × Mention))
    (rest : Text) : lead g ⟨(gap, m) :: more, rest⟩ = ⟨(g ++ gap, m) :: more, rest⟩ := by
  induction g with
  | nil => rfl
  | cons c cs ih =>
    change plain c (lead cs ⟨(gap, m) :: more, rest⟩) = _
    rw [ih]
    rfl

@[simp] theorem mentions_lead (g : Text) (s : Scan) : (lead g s).mentions = s.mentions := by
  obtain ⟨found, rest⟩ := s
  cases found with
  | nil => simp [mentions]
  | cons entry more =>
    obtain ⟨gap, m⟩ := entry
    simp [mentions]

@[simp] theorem mentions_plain (c : Char) (s : Scan) : (plain c s).mentions = s.mentions :=
  mentions_lead [c] s

theorem ofText_nil : ofText [] = ⟨[], []⟩ := by rw [ofText]

theorem ofText_cons_of_ne {c : Char} (h : c ≠ marker) (cs : Text) :
    ofText (c :: cs) = plain c (ofText cs) := by
  rw [ofText, if_neg h]

theorem ofText_marker_of_none {cs : Text} (h : Mention.after? cs = none) :
    ofText (marker :: cs) = plain marker (ofText cs) := by
  rw [ofText, if_pos rfl]
  split
  · next hs => rw [h] at hs; cases hs
  · rfl

theorem ofText_marker_of_some {cs rest : Text} {m : Mention}
    (h : Mention.after? cs = some (m, rest)) :
    ofText (marker :: cs) = mention m (ofText rest) := by
  rw [ofText, if_pos rfl]
  split
  · next hs => rw [h] at hs; cases hs; rfl
  · next hs => rw [h] at hs; cases hs

/-- A sealed text takes no part in the scan of what follows it. -/
theorem ofText_append {g : Text} (h : Sealed g) (t : Text) :
    ofText (g ++ t) = lead g (ofText t) := by
  induction g with
  | nil => rfl
  | cons c cs ih =>
    change ofText (c :: (cs ++ t)) = plain c (lead cs (ofText t))
    by_cases hc : c = marker
    · rw [hc, ofText_marker_of_none (h.1 hc t), ih h.2]
    · rw [ofText_cons_of_ne hc, ih h.2]

theorem plain_eq_cons {c : Char} {s : Scan} {g rest : Text} {m : Mention}
    {more : List (Text × Mention)} (h : plain c s = ⟨(g, m) :: more, rest⟩) :
    ∃ g', g = c :: g' ∧ s = ⟨(g', m) :: more, rest⟩ := by
  obtain ⟨found, r⟩ := s
  cases found with
  | nil => cases h
  | cons entry more' => cases h; exact ⟨_, rfl, rfl⟩

theorem plain_eq_nil {c : Char} {s : Scan} {rest : Text} (h : plain c s = ⟨[], rest⟩) :
    ∃ rest', rest = c :: rest' ∧ s = ⟨[], rest'⟩ := by
  obtain ⟨found, r⟩ := s
  cases found with
  | nil => cases h; exact ⟨_, rfl, rfl⟩
  | cons entry more' => cases h

/-- The first step of a scan: a sealed gap, the mention that is read behind it, and the scan of what
follows. -/
theorem reads_of_ofText {t g rest : Text} {m : Mention} {more : List (Text × Mention)}
    (h : ofText t = ⟨(g, m) :: more, rest⟩) :
    ∃ t', t = g ++ (m.raw ++ t') ∧ ofText t' = ⟨more, rest⟩ ∧ Sealed g ∧
      Mention.after? (m.body ++ marker :: t') = some (m, t') := by
  -- the recursion of the scanner: a mention ends the gap, any other character joins it
  fun_induction ofText t generalizing g with
  | case1 => cases h
  | case2 cs m' t' hf _ =>
    obtain ⟨-, hcs⟩ := Mention.body_of_after? hf
    cases h
    refine ⟨t', ?_, rfl, trivial, hcs ▸ hf⟩
    simp [Mention.raw_eq, hcs]
  | case3 cs hf ih =>
    obtain ⟨g', rfl, hs⟩ := plain_eq_cons h
    obtain ⟨t', rfl, ht', hg', hread⟩ := ih hs
    have hbody := (Mention.body_of_after? hread).1
    exact ⟨t', rfl, ht', sealed_marker_cons hbody hg' hf, hread⟩
  | case4 c cs hc ih =>
    obtain ⟨g', rfl, hs⟩ := plain_eq_cons h
    obtain ⟨t', rfl, ht', hg', hread⟩ := ih hs
    exact ⟨t', rfl, ht', ⟨fun hm => absurd hm hc, hg'⟩, hread⟩

theorem split_of_ofText {t g rest : Text} {m : Mention} {more : List (Text × Mention)}
    (h : ofText t = ⟨(g, m) :: more, rest⟩) :
    ∃ t', t = g ++ (m.raw ++ t') ∧ ofText t' = ⟨more, rest⟩ ∧ Sealed g ∧
      Mention.IsBody m.body := by
  obtain ⟨t', ht, ht', hg, hread⟩ := reads_of_ofText h
  exact ⟨t', ht, ht', hg, (Mention.body_of_after? hread).1⟩

theorem eq_rest_of_ofText {t rest : Text} (h : ofText t = ⟨[], rest⟩) : t = rest := by
  fun_induction ofText t generalizing rest with
  | case1 => cases h; rfl
  | case2 => cases h
  | case3 cs _ ih =>
    obtain ⟨rest', rfl, hs⟩ := plain_eq_nil h
    rw [ih hs]
  | case4 c cs _ ih =>
    obtain ⟨rest', rfl, hs⟩ := plain_eq_nil h
    rw [ih hs]

/-- A sealed gap and the mention that is read behind it are the first step of a scan. -/
theorem ofText_gap_mention {g t : Text} {m : Mention} (hg : Sealed g)
    (hread : Mention.after? (m.body ++ marker :: t) = some (m, t)) :
    ofText (g ++ (m.raw ++ t)) = ⟨(g, m) :: (ofText t).found, (ofText t).rest⟩ := by
  have hmention : ofText (m.raw ++ t) = mention m (ofText t) := by
    rw [Mention.raw_eq, List.cons_append, List.append_assoc, List.singleton_append,
      ofText_marker_of_some hread]
  rw [ofText_append hg, hmention, mention, lead_found_cons, List.append_nil]

/-- Induction along a scan, from the text behind the last mention to the front. -/
@[elab_as_elim]
theorem ind {motive : Text → Prop} (last : ∀ rest, ofText rest = ⟨[], rest⟩ → motive rest)
    (step : ∀ g m t, Sealed g → Mention.after? (m.body ++ marker :: t) = some (m, t) →
      motive t → motive (g ++ (m.raw ++ t)))
    (t : Text) : motive t := by
  generalize hs : ofText t = s
  obtain ⟨found, rest⟩ := s
  induction found generalizing t with
  | nil =>
    obtain rfl : t = rest := eq_rest_of_ofText hs
    exact last t hs
  | cons entry more ih =>
    obtain ⟨g, m⟩ := entry
    obtain ⟨t', rfl, ht', hg, hread⟩ := reads_of_ofText hs
    exact step g m t' hg hread (ih t' ht')

/-- The text before the first mention; all of it, if there is none. -/
def head (s : Scan) : Text :=
  match s.found with
  | [] => s.rest
  | (g, _) :: _ => g

def raws (s : Scan) : List Text := s.mentions.map Mention.raw

@[simp] theorem raws_nil (rest : Text) : raws ⟨[], rest⟩ = [] := rfl

@[simp] theorem raws_cons (g : Text) (m : Mention) (more : List (Text × Mention)) (rest : Text) :
    raws ⟨(g, m) :: more, rest⟩ = m.raw :: raws ⟨more, rest⟩ := rfl

theorem length_raws (s : Scan) : s.raws.length = s.found.length := by
  simp [raws, mentions]

/-- The gaps of a scan with values in place of the mentions. -/
def fill (s : Scan) (values : List Text) : Text :=
  (List.zipWith (fun entry value => entry.1 ++ value) s.found values).flatten ++ s.rest

@[simp] theorem fill_found_nil (rest : Text) (values : List Text) :
    fill ⟨[], rest⟩ values = rest := by simp [fill]

@[simp] theorem fill_found_cons (g : Text) (m : Mention) (more : List (Text × Mention))
    (rest v : Text) (vs : List Text) :
    fill ⟨(g, m) :: more, rest⟩ (v :: vs) = g ++ (v ++ fill ⟨more, rest⟩ vs) := by
  simp [fill]

/-- Gaps and mentions in turn are the text that was scanned. -/
theorem fill_raw (t : Text) : (ofText t).fill ((ofText t).mentions.map Mention.raw) = t := by
  induction t using ind with
  | last rest h => simp [h]
  | step g m t hg hread ih =>
    rw [ofText_gap_mention hg hread]
    simpa [mentions] using ih

/-- Sealed values leave nothing to be found. -/
theorem ofText_fill {t : Text} {values : List Text} (hv : ∀ v ∈ values, Sealed v)
    (hlen : values.length = (ofText t).found.length) :
    ofText ((ofText t).fill values) = ⟨[], (ofText t).fill values⟩ := by
  induction t using ind generalizing values with
  | last rest h =>
    -- what followed the last mention is scanned as it was
    rw [h, fill_found_nil]
    exact h
  | step g m t hg hread ih =>
    rw [ofText_gap_mention hg hread] at hlen ⊢
    cases values with
    | nil => simp at hlen
    | cons v vs =>
      have hrest := ih (fun w hw => hv w (List.mem_cons_of_mem _ hw)) (by simpa using hlen)
      rw [fill_found_cons, ofText_append hg, ofText_append (hv v List.mem_cons_self), hrest]
      simp

end Scan

namespace Directive

theorem length_scan (t : Text) : (scan t).length = (Scan.ofText t).found.length := by
  simp [scan, Scan.mentions]

theorem map_raw_scan (t : Text) : (scan t).map raw = (Scan.ofText t).raws := by
  simp [scan, Scan.raws, Mention.directive, Function.comp_def]

theorem scan_append {g : Text} (hg : Scan.Sealed g) (t : Text) : scan (g ++ t) = scan t := by
  simp only [scan, Scan.ofText_append hg, Scan.mentions_lead]

theorem scan_nil : scan [] = [] := by simp [scan, Scan.ofText_nil, Scan.mentions]

theorem scan_of_sealed {g : Text} (hg : Scan.Sealed g) : scan g = [] := by
  have happend := scan_append hg []
  rwa [List.append_nil, scan_nil] at happend

theorem scan_cons_of_ne {c : Char} (h : c ≠ marker) (cs : Text) : scan (c :: cs) = scan cs := by
  simp only [scan, Scan.ofText_cons_of_ne h, Scan.mentions_plain]

theorem scan_marker_of_none {cs : Text} (h : Mention.after? cs = none) :
    scan (marker :: cs) = scan cs := by
  simp only [scan, Scan.ofText_marker_of_none h, Scan.mentions_plain]

theorem scan_marker_of_some {cs rest : Text} {m : Mention}
    (h : Mention.after? cs = some (m, rest)) :
    scan (marker :: cs) = m.directive :: scan rest := by
  simp [scan, Scan.ofText_marker_of_some h, Scan.mention, Scan.mentions]

end Directive

end PromptTags
