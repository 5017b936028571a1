import PromptTags.Yaml.Node

/-! Texts in which there is nothing to read. A text has no token in it if each of its lines is void, that is
if it has nothing but spaces in front of a comment or of its end; a byte order mark may come before those. -/
namespace PromptTags.Yaml

/-- The lines of a text, whichever line breaks end them. -/
def lines (t : Text) : List Text := t.splitOnP isBreak

/-- Spaces, and then a comment or the end. -/
def isVoidRest (t : Text) : Bool :=
  match t.dropWhile (· = ' ') with
  | [] => true
  | c :: _ => c = '#'

def isVoidLine : Text → Bool
  | [] => true
  | c :: cs => if c = byteOrderMark then isVoidRest cs else isVoidRest (c :: cs)

def AllVoid (t : Text) : Prop := ∀ line ∈ lines t, isVoidLine line = true

/-- The text is at its end once its blanks, comments and line breaks have been passed over. -/
def Vacant (t : Text) : Prop := (Cursor.skipGap false true false t .start).2.rest = []

variable {c : Char} {cs t rest : Text}

/-! ### Lines -/

theorem lines_cons_of_break (hc : isBreak c = true) : lines (c :: t) = [] :: lines t := by
  rw [lines, List.splitOnP_cons_eq_if_modifyHead, if_pos hc]
  rfl

theorem lines_cons (hc : ¬isBreak c = true) {first : Text} {more : List Text}
    (h : lines t = first :: more) : lines (c :: t) = (c :: first) :: more := by
  rw [lines] at h
  rw [lines, List.splitOnP_cons_eq_if_modifyHead, if_neg hc, h, List.modifyHead_cons]

theorem exists_lines_eq_cons (t : Text) : ∃ first more, lines t = first :: more :=
  List.exists_cons_of_ne_nil (List.splitOnP_ne_nil isBreak t)

theorem head?_of_lines {first : Text} {more : List Text} (h : lines t = first :: more)
    (hc : first.head? = some c) : t.head? = some c := by
  cases t with
  | nil =>
    obtain ⟨rfl, rfl⟩ := List.cons.inj h
    cases hc
  | cons d ds =>
    by_cases hd : isBreak d = true
    · rw [lines_cons_of_break hd] at h
      obtain ⟨rfl, rfl⟩ := List.cons.inj h
      cases hc
    · obtain ⟨next, others, hnext⟩ := exists_lines_eq_cons ds
      rw [lines_cons hd hnext] at h
      obtain ⟨rfl, rfl⟩ := List.cons.inj h
      exact hc

@[simp] theorem allVoid_nil : AllVoid [] := by
  simp [AllVoid, lines, List.splitOnP_nil, isVoidLine]

/-- A line break divides a text. -/
theorem allVoid_append_cons (hc : isBreak c = true) :
    AllVoid (t ++ c :: rest) ↔ AllVoid t ∧ AllVoid rest := by
  simp only [AllVoid, lines, List.splitOnP_append_cons t rest hc, List.forall_mem_append]

@[simp] theorem isVoidLine_nil : isVoidLine [] = true := rfl

@[simp] theorem isVoidRest_nil : isVoidRest [] = true := rfl

theorem isVoidRest_cons : isVoidRest (c :: cs) = if c = ' ' then isVoidRest cs else c = '#' := by
  by_cases hc : c = ' ' <;> simp [isVoidRest, hc]

/-! ### Passing over a text -/

/-- What is left of a line is void, seen from within a comment or from a column. -/
def isVoidFrom (inComment : Bool) (column : Nat) (line : Text) : Bool :=
  inComment || if column = 0 then isVoidLine line else isVoidRest line

@[simp] theorem isVoidFrom_nil (inComment : Bool) (column : Nat) :
    isVoidFrom inComment column [] = true := by
  simp [isVoidFrom]

theorem isVoidFrom_cons_of_skipped {inComment : Bool} {column : Nat}
    (h : (inComment || c = ' ' || c = '#' || (c = byteOrderMark && column = 0)) = true) :
    isVoidFrom inComment column (c :: cs) = isVoidFrom (inComment || c = '#') (column + 1) cs := by
  cases inComment with
  | true => rfl
  | false =>
    simp only [Bool.false_or, Bool.or_eq_true, Bool.and_eq_true, decide_eq_true_eq] at h
    rcases h with (rfl | rfl) | ⟨rfl, rfl⟩
    · simp [isVoidFrom, isVoidLine, isVoidRest_cons, byteOrderMark]
    · simp [isVoidFrom, isVoidLine, isVoidRest_cons, byteOrderMark]
    · simp [isVoidFrom, isVoidLine, byteOrderMark]

theorem isVoidFrom_cons_of_not_skipped {inComment : Bool} {column : Nat}
    (h : ¬(inComment || c = ' ' || c = '#' || (c = byteOrderMark && column = 0)) = true) :
    isVoidFrom inComment column (c :: cs) = false := by
  simp only [Bool.or_eq_true, Bool.and_eq_true, decide_eq_true_eq, not_or, Bool.not_eq_true] at h
  obtain ⟨⟨⟨rfl, hspace⟩, hsign⟩, hmark⟩ := h
  have hrest : isVoidRest (c :: cs) = false := by simp [isVoidRest_cons, hspace, hsign]
  by_cases hcolumn : column = 0
  · have hc : c ≠ byteOrderMark := fun hc => hmark ⟨hc, hcolumn⟩
    simp [isVoidFrom, isVoidLine, hc, hrest]
  · simp [isVoidFrom, hcolumn, hrest]

theorem rest_skipGap_eq_nil_iff {keyAllowed inComment : Bool} {m : Mark} {first : Text} {more : List Text}
    (hkey : keyAllowed = true) (h : lines t = first :: more) :
    (Cursor.skipGap false keyAllowed inComment t m).2.rest = [] ↔
      isVoidFrom inComment m.column first = true ∧ ∀ line ∈ more, isVoidLine line = true := by
  fun_induction Cursor.skipGap false keyAllowed inComment t m generalizing first more with
  | case1 inComment keyAllowed m =>
    obtain ⟨rfl, rfl⟩ := List.cons.inj h
    simp
  | case2 inComment keyAllowed cs m ih =>
    -- the pair is one line break, and the line between its two characters is void
    obtain ⟨next, rest, hnext⟩ := exists_lines_eq_cons cs
    rw [lines_cons_of_break (by decide), lines_cons_of_break (by decide), hnext] at h
    obtain ⟨rfl, rfl⟩ := List.cons.inj h
    rw [ih (by simp [hkey]) hnext]
    simp [isVoidFrom, Mark.newline]
  | case3 inComment keyAllowed c cs m hpair hbreak ih =>
    obtain ⟨next, rest, hnext⟩ := exists_lines_eq_cons cs
    rw [lines_cons_of_break hbreak, hnext] at h
    obtain ⟨rfl, rfl⟩ := List.cons.inj h
    rw [ih (by simp [hkey]) hnext]
    simp [isVoidFrom, Mark.newline]
  | case4 inComment keyAllowed c cs m hpair hbreak hskip ih =>
    obtain ⟨next, rest, hnext⟩ := exists_lines_eq_cons cs
    rw [lines_cons hbreak hnext] at h
    obtain ⟨rfl, rfl⟩ := List.cons.inj h
    subst hkey
    rw [ih rfl hnext, isVoidFrom_cons_of_skipped (by simpa using hskip)]
    rfl
  | case5 inComment keyAllowed c cs m hpair hbreak hskip =>
    obtain ⟨next, rest, hnext⟩ := exists_lines_eq_cons cs
    rw [lines_cons hbreak hnext] at h
    obtain ⟨rfl, rfl⟩ := List.cons.inj h
    subst hkey
    rw [isVoidFrom_cons_of_not_skipped (by simpa using hskip)]
    simp

theorem vacant_iff_allVoid : Vacant t ↔ AllVoid t := by
  obtain ⟨first, more, hlines⟩ := exists_lines_eq_cons t
  rw [Vacant, rest_skipGap_eq_nil_iff rfl hlines, AllVoid, hlines, List.forall_mem_cons]
  rfl

/-! ### What is read -/

theorem readable_of_allowed (done block : Text) (room : Nat) (h : t.all isAllowed = true) :
    readable done block room t = ((block ++ done).reverse ++ t, none) := by
  induction t generalizing done block room with
  | nil => simp [readable]
  | cons c cs ih =>
    obtain ⟨hc, hcs⟩ := Bool.and_eq_true_iff.1 h
    rw [readable, if_pos hc]
    split
    · simp [ih _ _ _ hcs]
    · simp [ih _ _ _ hcs]

/-- A character that may not occur ends what can be read, somewhere in front of it. -/
theorem readable_of_not_allowed (done block : Text) (room : Nat) (h : ¬t.all isAllowed = true) :
    ∃ known, readable done block room t = (known, some .controlCharacter) ∧
      known <+: (block ++ done).reverse ++ t := by
  induction t generalizing done block room with
  | nil => exact absurd rfl h
  | cons c cs ih =>
    rw [readable]
    by_cases hc : isAllowed c = true
    · have hcs : ¬cs.all isAllowed = true := fun hcs => h (Bool.and_eq_true_iff.2 ⟨hc, hcs⟩)
      rw [if_pos hc]
      split
      · next hfull =>
        obtain ⟨known, hknown, hprefix⟩ := ih (block ++ done) [c] (blockSize - c.utf8Size) hcs
        exact ⟨known, by simpa [hfull] using hknown, by simpa using hprefix⟩
      · next hfull =>
        obtain ⟨known, hknown, hprefix⟩ := ih done (c :: block) (room - c.utf8Size) hcs
        exact ⟨known, by simpa [hfull] using hknown, by simpa using hprefix⟩
    · -- the block with the character is lost, those before it can be read
      rw [if_neg hc]
      refine ⟨_, rfl, ?_⟩
      split
      · exact List.prefix_append _ _
      · rw [List.reverse_append, List.append_assoc]
        exact List.prefix_append _ _

theorem isVoidRest_of_append (h : isVoidRest (cs ++ rest) = true) : isVoidRest cs = true := by
  induction cs with
  | nil => rfl
  | cons c cs ih =>
    rw [List.cons_append, isVoidRest_cons] at h
    rw [isVoidRest_cons]
    by_cases hc : c = ' '
    · rw [if_pos hc] at h ⊢
      exact ih h
    · rwa [if_neg hc] at h ⊢

theorem isVoidLine_of_append (h : isVoidLine (cs ++ rest) = true) : isVoidLine cs = true := by
  cases cs with
  | nil => rfl
  | cons c cs =>
    rw [List.cons_append, isVoidLine] at h
    rw [isVoidLine]
    by_cases hc : c = byteOrderMark
    · rw [if_pos hc] at h ⊢
      exact isVoidRest_of_append h
    · rw [if_neg hc, ← List.cons_append] at h
      rw [if_neg hc]
      exact isVoidRest_of_append h

/-- The first line of a text reaches at least as far as that of a text it starts with, and all others of the
shorter text are void if they are in the longer one. -/
theorem lines_append {first first' : Text} {more more' : List Text} (h : lines t = first :: more)
    (h' : lines (t ++ rest) = first' :: more') :
    first <+: first' ∧
      ((∀ line ∈ more', isVoidLine line = true) → ∀ line ∈ more, isVoidLine line = true) := by
  induction t generalizing first first' more more' with
  | nil =>
    obtain ⟨rfl, rfl⟩ := List.cons.inj h
    simp
  | cons c cs ih =>
    obtain ⟨next, others, hnext⟩ := exists_lines_eq_cons cs
    obtain ⟨next', others', hnext'⟩ := exists_lines_eq_cons (cs ++ rest)
    obtain ⟨⟨behind, hprefix⟩, hothers⟩ := ih hnext hnext'
    rw [List.cons_append] at h'
    by_cases hc : isBreak c = true
    · -- the lines behind the break start anew, so what was the first one is one of the others
      rw [lines_cons_of_break hc, hnext] at h
      rw [lines_cons_of_break hc, hnext'] at h'
      obtain ⟨rfl, rfl⟩ := List.cons.inj h
      obtain ⟨rfl, rfl⟩ := List.cons.inj h'
      refine ⟨List.prefix_rfl, fun hvoid => ?_⟩
      obtain ⟨hfirst, hmore⟩ := List.forall_mem_cons.1 hvoid
      rw [← hprefix] at hfirst
      exact List.forall_mem_cons.2 ⟨isVoidLine_of_append hfirst, hothers hmore⟩
    · rw [lines_cons hc hnext] at h
      rw [lines_cons hc hnext'] at h'
      obtain ⟨rfl, rfl⟩ := List.cons.inj h
      obtain ⟨rfl, rfl⟩ := List.cons.inj h'
      exact ⟨⟨behind, congrArg (c :: ·) hprefix⟩, hothers⟩

theorem allVoid_of_append (h : AllVoid (t ++ rest)) : AllVoid t := by
  obtain ⟨first, more, hlines⟩ := exists_lines_eq_cons t
  obtain ⟨first', more', hlines'⟩ := exists_lines_eq_cons (t ++ rest)
  obtain ⟨⟨behind, hprefix⟩, hmore⟩ := lines_append hlines hlines'
  rw [AllVoid, hlines', List.forall_mem_cons, ← hprefix] at h
  rw [AllVoid, hlines, List.forall_mem_cons]
  exact ⟨isVoidLine_of_append h.1, hmore h.2⟩

namespace Lexer

/-- The start of a text once its token has been taken, at a place of it. -/
def started (ending : Option Fault) (keyAllowed : Bool) (cursor : Cursor) : Lexer :=
  { start [] ending with cursor, keyAllowed, queue := [], delivered := 1 }

/-- In a vacant text the first token is looked for at its end. -/
theorem fetch_of_vacant (h : Vacant t) (ending : Option Fault) :
    ∃ keyAllowed m, (started ending true ⟨t, .start⟩).fetch = (do
      let l := started ending keyAllowed ⟨[], m⟩
      l.require 4
      let l ← l.fetchEnd
      l.require 1
      return l) := by
  obtain ⟨keyAllowed, ⟨left, m⟩, hgap⟩ : ∃ keyAllowed cursor,
      Cursor.skipGap false true false t .start = (keyAllowed, cursor) := ⟨_, _, rfl⟩
  rw [Vacant, hgap] at h
  obtain rfl : left = [] := h
  have hstart : Cursor.skipGap (started ending true ⟨t, .start⟩).inFlow true false t .start =
      (keyAllowed, ⟨[], m⟩) := hgap
  refine ⟨keyAllowed, m, ?_⟩
  rw [fetch]
  simp only [started] at hstart ⊢
  rw [hstart]
  rfl

theorem fetchEnd_started (keyAllowed : Bool) (m : Mark) :
    ∃ cursor, (started none keyAllowed ⟨[], m⟩).fetchEnd =
      .ok { started none false cursor with queue := [.streamEnd] } := by
  refine ⟨⟨[], if m.column = 0 then m else m.newline 0⟩, ?_⟩
  change (if m.column = 0 then started none keyAllowed ⟨[], m⟩
    else started none keyAllowed ⟨[], m.newline 0⟩).leaveBlocks.bind (fun l => .ok (l.push .streamEnd)) = _
  -- only the place at which the text ends depends on the column
  split <;> rfl

theorem drain_of_fetch {l l' : Lexer} (hqueue : l.queue = []) (h : l.fetch = .ok l') (fuel : Nat) :
    l.drain (fuel + 1) = l'.drain fuel := by
  rw [drain]
  simp only [hqueue, h]

theorem drain_of_fetch_error {l : Lexer} {fault : Fault} (hqueue : l.queue = [])
    (h : l.fetch = .error fault) (fuel : Nat) : l.drain (fuel + 1) = ([], some fault) := by
  rw [drain]
  simp only [hqueue, h]

/-- What the lexer finds in a vacant text: its end, or what is wrong there. -/
theorem drain_of_vacant (h : Vacant t) (ending : Option Fault) (fuel : Nat) :
    (started ending true ⟨t, .start⟩).drain (fuel + 2) = (ending.elim [.streamEnd] fun _ => [], ending) := by
  obtain ⟨keyAllowed, m, hfetch⟩ := fetch_of_vacant h ending
  cases ending with
  | some fault => exact drain_of_fetch_error rfl hfetch (fuel + 1)
  | none =>
    obtain ⟨cursor, hend⟩ := fetchEnd_started keyAllowed m
    have hdone : (started none true ⟨t, .start⟩).fetch =
        .ok { started none false cursor with queue := [.streamEnd] } := by
      rw [hfetch]
      change (started none keyAllowed ⟨[], m⟩).fetchEnd.bind (fun l => (l.require 1).bind fun _ => .ok l) = _
      rw [hend]
      rfl
    rw [drain_of_fetch rfl hdone]
    rfl

end Lexer

/-- Nothing but the start and the end of the text are read of a vacant one, if the end can be reached. -/
theorem Token.ofText_of_vacant {known : Text} {ending : Option Fault}
    (hread : readable [] [] blockSize t = (known, ending)) (h : Vacant known) :
    Token.ofText t = (.streamStart :: ending.elim [.streamEnd] fun _ => [], ending) := by
  have hstart : Token.ofText t =
      ((Lexer.started ending true ⟨known, .start⟩).drain (8 * t.length + 15)).map (.streamStart :: ·) id := by
    rw [Token.ofText, hread]
    rfl
  rw [hstart, Lexer.drain_of_vacant h]
  rfl

/-- A vacant text is read as a null; if it has a character in it that may not occur, that is what is wrong
with it. -/
theorem Node.ofText_of_allVoid (h : AllVoid t) :
    Node.ofText t =
      if t.all isAllowed then .ok .null else .error (.unreadable .controlCharacter) := by
  split
  · next hallowed =>
    have hread := readable_of_allowed [] [] blockSize hallowed
    have htokens := Token.ofText_of_vacant hread (vacant_iff_allVoid.2 h)
    rw [Node.ofText, Document.ofText, Event.ofText, htokens]
    rfl
  · next hallowed =>
    obtain ⟨known, hread, rest, hprefix⟩ := readable_of_not_allowed [] [] blockSize hallowed
    obtain rfl : known ++ rest = t := hprefix
    -- only the part in front of the character is seen, and it is vacant as well
    have htokens := Token.ofText_of_vacant hread (vacant_iff_allVoid.2 (allVoid_of_append h))
    rw [Node.ofText, Document.ofText, Event.ofText, htokens]
    rfl

end PromptTags.Yaml
