import PromptTags.Proofs.Directive.Gap
import PromptTags.Proofs.Directive.Repeat

/-! Directives as they are written. A repeat text, two signs and a path between two markers are read back as
they were put there, whatever the path holds besides markers and barriers, and the scan goes on behind
them. -/
namespace PromptTags

namespace Mention

theorem isCount_of_notMem {count : Text} (hmarker : marker ∉ count) (hbarrier : barrier ∉ count)
    (hsign : repeatSign ∉ count) : IsCount count := by
  intro c hc
  refine ⟨?_, ?_, ?_⟩ <;> rintro rfl
  · exact hmarker hc
  · exact hbarrier hc
  · exact hsign hc

theorem isCount_hyphen (a b : Nat) : IsCount (Text.ofNat a ++ '-' :: Text.ofNat b) := by
  have hdigit (c : Char) (hc : c.isDigit = true) : c ≠ marker ∧ c ≠ barrier ∧ c ≠ repeatSign := by
    refine ⟨?_, ?_, ?_⟩ <;> rintro rfl <;> cases hc
  intro c hc
  rcases List.mem_append.1 hc with hc | hc
  · exact hdigit c (Text.isDigit_of_mem_ofNat hc)
  · rcases List.mem_cons.1 hc with rfl | hc
    · decide
    · exact hdigit c (Text.isDigit_of_mem_ofNat hc)

end Mention

theorem Directive.scan_append_mention {pre count p : Text} (hpre : marker ∉ pre)
    (hcount : Mention.IsCount count) (hp : Mention.IsPath p) (post : Text) :
    Directive.scan (pre ++ ((Mention.mk (some count) p).raw ++ post)) =
      (Mention.mk (some count) p).directive :: Directive.scan post := by
  have hread : Mention.after? ((Mention.mk (some count) p).body ++ marker :: post) =
      some (⟨some count, p⟩, post) :=
    Mention.after?_eq_some_iff.2 (.inl (Mention.counted?_body rfl hcount hp post))
  rw [Directive.scan_append (Scan.sealed_of_notMem hpre), Mention.raw_eq, List.cons_append,
    List.append_assoc, List.singleton_append, Directive.scan_marker_of_some hread]

/-- A directive written with a repeat text and keys is scanned as that directive, behind any text without a
marker and in front of any text at all. -/
theorem scan_written_directive {pre count : Text} {keys : List Text} (hpre : marker ∉ pre)
    (hcount : marker ∉ count ∧ barrier ∉ count ∧ repeatSign ∉ count)
    (hkeys : keys ≠ []) (hseparator : ∀ key ∈ keys, keySeparator ∉ key)
    (hpath : Text.join [keySeparator] keys ≠ [])
    (hmarker : marker ∉ Text.join [keySeparator] keys)
    (hbarrier : barrier ∉ Text.join [keySeparator] keys) (post : Text) :
    let written (count : Text) : Text :=
      marker :: (count ++ [repeatSign, repeatSign] ++ Text.join [keySeparator] keys ++ [marker])
    Directive.scan (pre ++ written count ++ post) =
        ⟨written count, (RepeatRange.parse? count).getD ⟨1, 1⟩, keys⟩ :: Directive.scan post ∧
    ∀ a b : UInt32,
      let range := Text.ofNat a.toNat ++ '-' :: Text.ofNat b.toNat
      Directive.scan (pre ++ written range ++ post) =
        ⟨written range, ⟨Nat.min a.toNat b.toNat, Nat.max a.toNat b.toNat⟩, keys⟩ ::
          Directive.scan post := by
  intro written
  have hp : Mention.IsPath (Text.join [keySeparator] keys) :=
    ⟨hpath, fun h => hmarker (List.mem_of_mem_tail h), hbarrier⟩
  have hscan (count : Text) (hcount : Mention.IsCount count) :
      Directive.scan (pre ++ written count ++ post) =
        ⟨written count, (RepeatRange.parse? count).getD ⟨1, 1⟩, keys⟩ :: Directive.scan post := by
    have hraw : (Mention.mk (some count) (Text.join [keySeparator] keys)).raw = written count := by
      simp [Mention.raw, written]
    have hdirective : (Mention.mk (some count) (Text.join [keySeparator] keys)).directive =
        ⟨written count, (RepeatRange.parse? count).getD ⟨1, 1⟩, keys⟩ := by
      rw [Mention.directive, hraw, Text.split_join hkeys hseparator]
      rfl
    rw [← hdirective, ← hraw, List.append_assoc]
    exact Directive.scan_append_mention hpre hcount hp post
  constructor
  · exact hscan count (Mention.isCount_of_notMem hcount.1 hcount.2.1 hcount.2.2)
  · intro a b range
    rw [hscan range (Mention.isCount_hyphen a.toNat b.toNat),
      RepeatRange.parse?_ofNat_hyphen a.toNat_lt_size b.toNat_lt_size]
    rfl

/-- An empty key and two signs in a key, in front of a directive and of two signs that belong to none. -/
theorem scan_written_directive_signs_in_keys :
    let pre := Text.lit "a > b "
    let keys := [[], Text.lit "x$$", Text.lit "y"]
    let z : Directive := ⟨Text.lit "@z@", ⟨1, 1⟩, [Text.lit "z"]⟩
    marker ∉ pre ∧ (marker ∉ Text.lit "x" ∧ barrier ∉ Text.lit "x" ∧ repeatSign ∉ Text.lit "x") ∧
    keys ≠ [] ∧ (∀ key ∈ keys, keySeparator ∉ key) ∧
    Text.join [keySeparator] keys ≠ [] ∧ marker ∉ Text.join [keySeparator] keys ∧
    barrier ∉ Text.join [keySeparator] keys ∧
    Directive.scan (Text.lit "a > b @x$$:x$$:y@@z@ 2$$@") =
      [⟨Text.lit "@x$$:x$$:y@", ⟨1, 1⟩, keys⟩, z] ∧
    Directive.scan (Text.lit "a > b @4294967295-7$$:x$$:y@@z@ 2$$@") =
      [⟨Text.lit "@4294967295-7$$:x$$:y@", ⟨7, 4294967295⟩, keys⟩, z] := by
  intro pre keys z
  have hpre : marker ∉ pre := by decide
  have hcount : marker ∉ Text.lit "x" ∧ barrier ∉ Text.lit "x" ∧ repeatSign ∉ Text.lit "x" := by
    decide
  have hkeys : keys ≠ [] := by decide
  have hseparator : ∀ key ∈ keys, keySeparator ∉ key := by decide
  have hpath : Text.join [keySeparator] keys ≠ [] := by decide
  have hmarker : marker ∉ Text.join [keySeparator] keys := by decide
  have hbarrier : barrier ∉ Text.join [keySeparator] keys := by decide
  obtain ⟨hword, hrange⟩ :=
    scan_written_directive hpre hcount hkeys hseparator hpath hmarker hbarrier (Text.lit "@z@ 2$$@")
  refine ⟨hpre, hcount, hkeys, hseparator, hpath, hmarker, hbarrier, ?_, ?_⟩
  · exact (congrArg Directive.scan (by decide)).trans (hword.trans (by decide +kernel))
  · exact (congrArg Directive.scan (by decide +kernel)).trans
      ((hrange 4294967295 7).trans (by decide +kernel))

end PromptTags
