import PromptTags.Proofs.Expansion.Substitution

/-! Texts made of plain pieces and of directives that name a path. In such a text markers come in pairs,
so that scanning gives its directives back, and the text of a directive can only be found at a directive
or, across two of them, at the plain text from a closing marker to the next opening one. -/
namespace PromptTags

/-- A piece of a template: plain text, or a directive by the keys of its path. -/
inductive Piece where
  | plain (text : Text)
  | directive (keys : List Text)
  deriving DecidableEq, Repr

namespace Piece

/-- The text between the markers of a directive. -/
def pathText (keys : List Text) : Text := Text.join [keySeparator] keys

def text : Piece → Text
  | plain t => t
  | directive keys => marker :: (pathText keys ++ [marker])

/-- A key that means itself within a directive. -/
def IsKey (key : Text) : Prop :=
  key ≠ [] ∧ ∀ c ∈ key, c ≠ marker ∧ c ≠ barrier ∧ c ≠ repeatSign ∧ c ≠ keySeparator

-- for a statement about characters of a list, not about all characters
instance (key : Text) : Decidable (IsKey key) :=
  @instDecidableAnd _ _ _ (List.decidableBAll _ key)

/-- Plain text holds neither markers nor barriers, and a directive has at least one key. -/
def Proper : Piece → Prop
  | plain t => marker ∉ t ∧ barrier ∉ t
  | directive keys => keys ≠ [] ∧ ∀ key ∈ keys, IsKey key

instance : (p : Piece) → Decidable p.Proper
  | plain _ => inferInstanceAs (Decidable (_ ∧ _))
  | directive _ => inferInstanceAs (Decidable (_ ∧ _))

variable {keys keys' : List Text}

theorem notMem_pathText {c : Char} (hk : (directive keys).Proper) (hsep : c ≠ keySeparator)
    (h : ∀ key, IsKey key → c ∉ key) : c ∉ pathText keys := by
  intro hc
  rcases Text.mem_join hc with hc | ⟨key, hkey, hc⟩
  · exact hsep (List.mem_singleton.1 hc)
  · exact h key (hk.2 key hkey) hc

theorem marker_notMem_pathText (hk : (directive keys).Proper) : marker ∉ pathText keys :=
  notMem_pathText hk (by decide) fun _ h hc => (h.2 _ hc).1 rfl

theorem repeatSign_notMem_pathText (hk : (directive keys).Proper) : repeatSign ∉ pathText keys :=
  notMem_pathText hk (by decide) fun _ h hc => (h.2 _ hc).2.2.1 rfl

theorem split_pathText (hk : (directive keys).Proper) :
    Text.split keySeparator (pathText keys) = keys :=
  Text.split_join hk.1 fun key hkey hc => ((hk.2 key hkey).2 _ hc).2.2.2 rfl

theorem pathText_inj (hk : (directive keys).Proper) (hk' : (directive keys').Proper)
    (h : pathText keys = pathText keys') : keys = keys' := by
  rw [← split_pathText hk, h, split_pathText hk']

theorem isBare_pathText (hk : (directive keys).Proper) : Mention.IsBare (pathText keys) := by
  refine ⟨?_, marker_notMem_pathText hk, ?_, ?_⟩
  · intro hnil
    have hsplit := split_pathText hk
    rw [hnil] at hsplit
    exact (hk.2 [] (by rw [← hsplit]; exact List.mem_singleton.2 rfl)).1 rfl
  · exact notMem_pathText hk (by decide) fun _ h hc => (h.2 _ hc).2.1 rfl
  · exact fun hsigns => repeatSign_notMem_pathText hk (hsigns.subset List.mem_cons_self)

end Piece

/-- Plain pieces and directives in turn, in any number and order. -/
abbrev Template := List Piece

namespace Template

def text (T : Template) : Text := T.flatMap Piece.text

def Proper (T : Template) : Prop := ∀ p ∈ T, p.Proper

instance (T : Template) : Decidable T.Proper := inferInstanceAs (Decidable (∀ p ∈ T, p.Proper))

/-- The key lists of the directives, from left to right. -/
def named : Template → List (List Text)
  | [] => []
  | .plain _ :: T => named T
  | .directive keys :: T => keys :: named T

variable {T U : Template} {x : Text} {keys k : List Text}

@[simp] theorem text_nil : text [] = [] := rfl

@[simp] theorem text_plain : text (.plain x :: T) = x ++ text T := rfl

@[simp] theorem text_directive :
    text (.directive keys :: T) = marker :: (Piece.pathText keys ++ marker :: text T) := by
  simp [text, Piece.text]

@[simp] theorem text_append : text (T ++ U) = text T ++ text U := by simp [text]

@[simp] theorem named_append : named (T ++ U) = named T ++ named U := by
  induction T with
  | nil => rfl
  | cons p T ih => cases p <;> simp [named, ih]

theorem proper_cons {p : Piece} : Proper (p :: T) ↔ p.Proper ∧ Proper T := List.forall_mem_cons

theorem proper_append : Proper (T ++ U) ↔ Proper T ∧ Proper U := List.forall_mem_append

theorem proper_of_mem_named (hT : Proper T) (h : keys ∈ named T) :
    (Piece.directive keys).Proper := by
  induction T with
  | nil => cases h
  | cons p T ih =>
    obtain ⟨hp, htail⟩ := proper_cons.1 hT
    cases p with
    | plain x => exact ih htail h
    | directive k =>
      rcases List.mem_cons.1 h with rfl | h
      · exact hp
      · exact ih htail h

theorem scan_plain (h : (Piece.plain x).Proper) :
    Scan.ofText (text (.plain x :: T)) = Scan.lead x (Scan.ofText (text T)) :=
  Scan.ofText_append (Scan.sealed_of_notMem h.1) _

theorem scan_directive (h : (Piece.directive keys).Proper) :
    Scan.ofText (text (.directive keys :: T)) =
      Scan.mention ⟨none, Piece.pathText keys⟩ (Scan.ofText (text T)) := by
  rw [text_directive]
  exact Scan.ofText_marker_of_some (Mention.after?_of_isBare (Piece.isBare_pathText h) _)

def directiveOf (keys : List Text) : Directive := ⟨(Piece.directive keys).text, .once, keys⟩

theorem scan_text (hT : Proper T) : Directive.scan (text T) = (named T).map directiveOf := by
  induction T with
  | nil => exact Directive.scan_nil
  | cons p T ih =>
    obtain ⟨hp, htail⟩ := proper_cons.1 hT
    cases p with
    | plain x =>
      rw [text_plain, Directive.scan_append (Scan.sealed_of_notMem hp.1), ih htail]
      rfl
    | directive k =>
      rw [text_directive, Directive.scan_marker_of_some
        (Mention.after?_of_isBare (Piece.isBare_pathText hp) _), ih htail]
      simp only [Mention.directive, Piece.split_pathText hp]
      rfl

/-- The first directive with the given keys replaced by a template. -/
def put (keys : List Text) (inner : Template) : Template → Template
  | [] => []
  | .plain x :: T => .plain x :: put keys inner T
  | .directive k :: T => if k = keys then inner ++ T else .directive k :: put keys inner T

/-- The plain text in front of the first directive, if there is a directive. -/
def gap? : Template → Option Text
  | [] => none
  | .plain x :: T => (gap? T).map (x ++ ·)
  | .directive _ :: _ => some []

/-- Two neighbouring directives have the path text of the given keys between them, and the left one
stands before every directive with these keys. -/
def Shadowed (keys : List Text) : Template → Prop
  | [] => False
  | .plain _ :: T => Shadowed keys T
  | .directive k :: T => k ≠ keys ∧ (gap? T = some (Piece.pathText keys) ∨ Shadowed keys T)

instance decidableShadowed (keys : List Text) : (T : Template) → Decidable (Shadowed keys T)
  | [] => inferInstanceAs (Decidable False)
  | .plain _ :: T => decidableShadowed keys T
  | .directive k :: T =>
    have := decidableShadowed keys T
    inferInstanceAs (Decidable (k ≠ keys ∧ (gap? T = some (Piece.pathText keys) ∨
      Shadowed keys T)))

theorem gap?_of_text (hT : Proper T) (hx : marker ∉ x) {rest : Text}
    (h : text T = x ++ marker :: rest) : gap? T = some x := by
  induction T generalizing x with
  | nil => simp at h
  | cons p T ih =>
    obtain ⟨hp, htail⟩ := proper_cons.1 hT
    cases p with
    | plain y =>
      rw [text_plain] at h
      -- the plain piece ends before the marker, since it has none itself
      rcases List.append_eq_append_iff.1 h with ⟨l, rfl, hl⟩ | ⟨l, rfl, hl⟩
      · rw [List.mem_append, not_or] at hx
        simp [gap?, ih htail hx.2 hl]
      · cases l with
        | nil =>
          have hnil := ih htail List.not_mem_nil hl.symm
          simp [gap?, hnil]
        | cons c cs =>
          obtain ⟨rfl, -⟩ := List.cons.inj hl
          exact absurd (by simp) hp.1
    | directive k =>
      cases x with
      | nil => rfl
      | cons c cs =>
        rw [text_directive] at h
        exact absurd ((List.cons.inj h).1 ▸ List.mem_cons_self) hx

theorem replaceFirst_cons {old new : Text} {c : Char} {cs : Text}
    (h : ∀ rest, old ++ rest ≠ c :: cs) :
    Text.replaceFirst old new (c :: cs) = c :: Text.replaceFirst old new cs := by
  have hp : ¬ old.isPrefixOf (c :: cs) = true := by
    rw [List.isPrefixOf_iff_prefix]
    rintro ⟨rest, hr⟩
    exact h rest hr
  rw [Text.replaceFirst, if_neg hp]

/-- Replacing the first occurrence of the text of a directive replaces the first directive with its
keys, unless it is shadowed. -/
theorem replaceFirst_text (hT : Proper T) (hk : keys ∈ named T) (hs : ¬ Shadowed keys T)
    (inner : Template) :
    Text.replaceFirst (Piece.directive keys).text (text inner) (text T) =
      text (put keys inner T) := by
  have hproper := proper_of_mem_named hT hk
  have hskip {g : Text} (hg : marker ∉ g) (t : Text) :
      Text.replaceFirst (Piece.directive keys).text (text inner) (g ++ t) =
        g ++ Text.replaceFirst (Piece.directive keys).text (text inner) t :=
    Scan.replaceFirst_append (m := ⟨none, Piece.pathText keys⟩) (Scan.sealed_of_notMem hg)
      (Mention.isBody_of_isPath (Piece.isBare_pathText hproper).isPath) _ _
  induction T with
  | nil => cases hk
  | cons p T ih =>
    obtain ⟨hp, htail⟩ := proper_cons.1 hT
    cases p with
    | plain x => rw [text_plain, hskip hp.1, ih htail hk hs, put, text_plain]
    | directive k =>
      by_cases heq : k = keys
      · subst heq
        rw [put, if_pos rfl, text_append, show text (.directive k :: T) =
          (Piece.directive k).text ++ text T from rfl, Text.replaceFirst_append_self]
      · have hmem : keys ∈ named T := (List.mem_cons.1 hk).resolve_left (Ne.symm heq)
        rw [Shadowed, not_and, not_or] at hs
        obtain ⟨hgap, hshadow⟩ := hs heq
        rw [put, if_neg heq, text_directive, text_directive, ← ih htail hmem hshadow,
          replaceFirst_cons, hskip (Piece.marker_notMem_pathText hp), replaceFirst_cons]
        · -- an occurrence at the closing marker would end at the next opening one
          intro rest h
          apply hgap
          apply gap?_of_text htail (Piece.marker_notMem_pathText hproper)
          simpa [Piece.text] using (List.cons.inj h).2.symm
        · -- an occurrence at the opening marker would be read as both directives
          intro rest h
          have htext : Piece.pathText keys ++ marker :: rest =
              Piece.pathText k ++ marker :: text T := by
            simpa [Piece.text] using h
          have hread := Mention.after?_of_isBare (Piece.isBare_pathText hp) (text T)
          rw [← htext, Mention.after?_of_isBare (Piece.isBare_pathText hproper)] at hread
          injection hread with hread
          injection (Prod.mk.inj hread).1 with _ hpath
          exact heq (Piece.pathText_inj hproper hp hpath).symm

theorem proper_put (hT : Proper T) {inner : Template} (hi : Proper inner) :
    Proper (put keys inner T) := by
  induction T with
  | nil => exact hT
  | cons p T ih =>
    obtain ⟨hp, htail⟩ := proper_cons.1 hT
    cases p with
    | plain x => exact proper_cons.2 ⟨hp, ih htail⟩
    | directive k =>
      rw [put]
      split
      · exact proper_append.2 ⟨hi, htail⟩
      · exact proper_cons.2 ⟨hp, ih htail⟩

theorem named_put (h : keys ∈ named T) (inner : Template) :
    ∃ others, (named T).Perm (keys :: others) ∧
      (named (put keys inner T)).Perm (named inner ++ others) := by
  induction T with
  | nil => cases h
  | cons p T ih =>
    cases p with
    | plain x => exact ih h
    | directive k =>
      by_cases heq : k = keys
      -- the directives of the other template come in the place of this one
      · subst heq
        refine ⟨named T, List.Perm.refl _, ?_⟩
        rw [put, if_pos rfl, named_append]
      · obtain ⟨others, h₁, h₂⟩ := ih ((List.mem_cons.1 h).resolve_left (Ne.symm heq))
        refine ⟨k :: others, ?_, ?_⟩
        · exact (h₁.cons k).trans (List.Perm.swap keys k others)
        · rw [put, if_neg heq]
          exact (h₂.cons k).trans List.perm_middle.symm

/-- The template that a scan stands for: its gaps are plain, its mentions directives. -/
def ofScan (s : Scan) : Template :=
  (s.found.flatMap fun entry =>
    [.plain entry.1, .directive (Text.split keySeparator entry.2.path)]) ++ [.plain s.rest]

/-- The template that a text is read as. -/
def ofText (t : Text) : Template := ofScan (Scan.ofText t)

theorem ofScan_lead (x : Text) (s : Scan) :
    ∃ y U, ofScan s = .plain y :: U ∧ ofScan (Scan.lead x s) = .plain (x ++ y) :: U := by
  obtain ⟨found, rest⟩ := s
  cases found with
  | nil => exact ⟨rest, [], by simp [ofScan], by simp [ofScan]⟩
  | cons entry more =>
    obtain ⟨g, m⟩ := entry
    rw [Scan.lead_found_cons]
    exact ⟨g, _, rfl, rfl⟩

theorem ofText_nil : ofText [] = [.plain []] := by
  simp [ofText, ofScan, Scan.ofText_nil]

theorem ofText_plain (h : (Piece.plain x).Proper) (T : Template) :
    ∃ y U, ofText (text T) = .plain y :: U ∧
      ofText (text (.plain x :: T)) = .plain (x ++ y) :: U := by
  rw [ofText, ofText, scan_plain h]
  exact ofScan_lead x _

theorem ofText_directive (h : (Piece.directive keys).Proper) (T : Template) :
    ofText (text (.directive keys :: T)) =
      .plain [] :: .directive keys :: ofText (text T) := by
  rw [ofText, scan_directive h]
  simp [ofScan, ofText, Scan.mention, Piece.split_pathText h]

/-- Reading the text of a template changes it only in how plain text is cut into pieces. -/
theorem ofText_text (hT : Proper T) : Proper (ofText (text T)) ∧
    text (ofText (text T)) = text T ∧ named (ofText (text T)) = named T := by
  induction T with
  | nil =>
    rw [text_nil, ofText_nil]
    exact ⟨by decide, rfl, rfl⟩
  | cons p T ih =>
    obtain ⟨hp, htail⟩ := proper_cons.1 hT
    obtain ⟨hproper, htext, hnamed⟩ := ih htail
    cases p with
    | plain x =>
      obtain ⟨y, U, h₁, h₂⟩ := ofText_plain hp T
      rw [h₁] at hproper htext hnamed
      rw [h₂]
      obtain ⟨hy, hU⟩ := proper_cons.1 hproper
      refine ⟨proper_cons.2 ⟨?_, hU⟩, ?_, hnamed⟩
      · exact ⟨by simp [hp.1, hy.1], by simp [hp.2, hy.2]⟩
      · rw [text_plain, text_plain, ← htext, text_plain, List.append_assoc]
    | directive k =>
      rw [ofText_directive hp]
      refine ⟨proper_cons.2 ⟨by decide, proper_cons.2 ⟨hp, hproper⟩⟩, ?_, ?_⟩
      · rw [text_plain, text_directive, text_directive, htext, List.nil_append]
      · rw [named, named, named, hnamed]

end Template

end PromptTags
