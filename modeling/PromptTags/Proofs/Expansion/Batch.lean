import Mathlib.Data.List.Nodup
import PromptTags.Expansion.Request
import PromptTags.Proofs.Expansion.Substitution
import PromptTags.Proofs.Text.Keyed

/-! A request is answered prompt by prompt. The loop over the items takes one seed after the other, and
hands the texts that are recorded on from prompt to prompt and from item to item; yet every expanded text
depends on its own prompt and the seed of its item alone, and every item records the same. -/
namespace PromptTags

namespace Source

theorem length_seeds (n : Nat) (s : Source) : (s.seeds n).length = n := by
  induction n generalizing s with
  | zero => rfl
  | succ n ih =>
    rw [seeds, List.length_cons, ih]

/-- Asking for fewer seeds gives the first of them. -/
theorem take_seeds {n m : Nat} (h : n ≤ m) (s : Source) : (s.seeds m).take n = s.seeds n := by
  induction n generalizing m s with
  | zero => rfl
  | succ n ih =>
    cases m with
    | zero => omega
    | succ m => rw [seeds, seeds, List.take_succ_cons, ih (Nat.le_of_succ_le_succ h)]

end Source

/-- A text without a marker is its own expansion. -/
theorem Expander.expand_of_notMem (e : Expander) (namespaces : Keyed Node) {t : Text} (h : marker ∉ t)
    (seed : UInt64) : (e.expand namespaces t seed).text = t := by
  have hscan : Directive.scan t = [] := Directive.scan_of_sealed (Scan.sealed_of_notMem h)
  exact (e.passes_of_scan_nil namespaces hscan e.maxPasses 0 (.ofSeed seed)).1

theorem Item.get?_of_mem {item : Item} (hdistinct : (item.prompts.map Prod.fst).Nodup)
    {variant : Variant} {t : Text} (h : (variant, t) ∈ item.prompts) : item.get? variant = some t := by
  obtain ⟨seed, prompts⟩ := item
  rw [get?]
  induction prompts with
  | nil => cases h
  | cons first rest ih =>
    obtain ⟨hfirst, hrest⟩ := List.nodup_cons.1 hdistinct
    rcases List.mem_cons.1 h with rfl | h
    · simp
    · have hne : first.1 ≠ variant := by
        intro heq
        apply hfirst
        rw [heq]
        exact List.mem_map_of_mem h
      rw [List.find?_cons_of_neg (by simpa using hne)]
      exact ih hrest h

namespace Request

def expanded (e : Expander) (namespaces : Keyed Node) (seed : UInt64)
    (variants : List (Variant × Text)) : List (Variant × Text) :=
  variants.map fun p => (p.1, (e.expand namespaces p.2 seed).text)

/-- What is recorded of prompts: the texts with a marker, under their names and on one line. -/
def records (variants : List (Variant × Text)) : List (Text × Text) :=
  (variants.filter fun p => marker ∈ p.2).map fun p => (p.1.parameterName.toList, onOneLine p.2)

variable (e : Expander) (namespaces : Keyed Node) (saveRaw : Bool)

theorem prompts_expandVariants (seed : UInt64) (variants : List (Variant × Text)) (raw : Keyed Text) :
    (expandVariants e namespaces saveRaw seed variants raw).1 =
      expanded e namespaces seed variants := by
  induction variants generalizing raw with
  | nil => rfl
  | cons p more ih =>
    obtain ⟨variant, text⟩ := p
    rw [expandVariants]
    split
    · exact congrArg (_ :: ·) (ih _)
    · next h =>
      -- the shortcut gives what the expansion would have given
      rw [expanded, List.map_cons, e.expand_of_notMem namespaces h]
      exact congrArg (_ :: ·) (ih raw)

theorem recorded_expandVariants (seed : UInt64) (variants : List (Variant × Text)) (raw : Keyed Text) :
    (expandVariants e namespaces saveRaw seed variants raw).2.1 =
      if saveRaw then Keyed.insertAll (records variants) raw else raw := by
  induction variants generalizing raw with
  | nil => cases saveRaw <;> rfl
  | cons p more ih =>
    obtain ⟨variant, text⟩ := p
    rw [expandVariants]
    split
    · next h =>
      change (expandVariants e namespaces saveRaw seed more _).2.1 = _
      rw [ih]
      cases saveRaw with
      | false => rfl
      | true => simp [records, Keyed.insertAll, h]
    · next h =>
      change (expandVariants e namespaces saveRaw seed more raw).2.1 = _
      rw [ih]
      simp [records, h]

variable (variants : List (Variant × Text))

theorem items_expandItems (n : Nat) (seeds : Source) (raw : Keyed Text) :
    (expandItems e namespaces saveRaw variants n seeds raw).1 =
      (seeds.seeds n).map fun seed => ⟨seed, expanded e namespaces seed variants⟩ := by
  induction n generalizing seeds raw with
  | zero => rfl
  | succ n ih =>
    rw [Source.seeds, List.map_cons, ← prompts_expandVariants e namespaces saveRaw _ variants raw]
    exact congrArg (_ :: ·) (ih _ _)

/-- The first item records everything, and the others record the same again. -/
theorem recorded_expandItems (n : Nat) (seeds : Source) {raw : Keyed Text} (h : Keyed.Sorted raw) :
    (expandItems e namespaces saveRaw variants n seeds raw).2.1 =
      if saveRaw ∧ 0 < n then Keyed.insertAll (records variants) raw else raw := by
  induction n generalizing seeds raw with
  | zero => simp [expandItems]
  | succ n ih =>
    change (expandItems e namespaces saveRaw variants n _
      (expandVariants e namespaces saveRaw _ variants raw).2.1).2.1 = _
    rw [recorded_expandVariants]
    cases saveRaw with
    | false => simpa using ih _ h
    | true =>
      have hsorted := Keyed.sorted_insertAll (records variants) h
      rw [if_pos rfl, ih _ hsorted, Keyed.insertAll_insertAll _ h]
      simp

/-- Every variant occurs at most once in a request, and always at the same turn. -/
theorem variants_sublist (r : Request) :
    (r.variants.map Prod.fst).Sublist [.positive, .negative, .hiresPositive, .hiresNegative] := by
  have hoptional (variant : Variant) (text : Option Text) :
      ((optional variant text).map Prod.fst).Sublist [variant] := by
    cases text with
    | none => exact List.nil_sublist _
    | some text =>
      rw [optional]
      split
      · exact List.nil_sublist _
      · exact List.Sublist.refl _
  rw [variants, List.map_append, List.map_append]
  exact ((List.Sublist.refl [.positive, .negative]).append (hoptional _ _)).append (hoptional _ _)

theorem nodup_variants (r : Request) : (r.variants.map Prod.fst).Nodup :=
  (by decide : [Variant.positive, .negative, .hiresPositive, .hiresNegative].Nodup).sublist
    r.variants_sublist

theorem nodup_keys_records {prompts : List (Variant × Text)} (h : (prompts.map Prod.fst).Nodup) :
    (Keyed.keys (records prompts)).Nodup := by
  have hname : Function.Injective fun v : Variant => v.parameterName.toList := by
    intro v w
    cases v <;> cases w <;> decide
  have hkeys : Keyed.keys (records prompts) =
      ((prompts.filter fun p => marker ∈ p.2).map Prod.fst).map fun v => v.parameterName.toList := by
    simp [Keyed.keys, records, Function.comp_def]
  rw [hkeys]
  apply List.Nodup.map hname
  exact h.sublist (List.filter_sublist.map Prod.fst)

theorem items_expand (r : Request) (seeds : Source) :
    (r.expand e namespaces saveRaw seeds).1.items =
      (seeds.seeds r.batch).map fun seed => ⟨seed, expanded e namespaces seed r.variants⟩ :=
  items_expandItems e namespaces saveRaw r.variants r.batch seeds []

theorem rawPrompts_expand (r : Request) (seeds : Source) :
    (r.expand e namespaces saveRaw seeds).1.rawPrompts =
      if saveRaw ∧ 0 < r.batch then Keyed.insertAll (records r.variants) [] else [] :=
  recorded_expandItems e namespaces saveRaw r.variants r.batch seeds List.Pairwise.nil

theorem perm_records (r : Request) :
    (Keyed.insertAll (records r.variants) []).Perm (records r.variants) := by
  have hkeys : (Keyed.keys (records r.variants ++ [])).Nodup := by
    rw [List.append_nil]
    exact nodup_keys_records r.nodup_variants
  have hperm := Keyed.perm_insertAll hkeys
  rwa [List.append_nil] at hperm

/-- Under the name of a variant an item has the expansion of its text. -/
theorem get?_expanded (r : Request) (seed : UInt64) {variant : Variant} {t : Text}
    (h : (variant, t) ∈ r.variants) :
    Item.get? ⟨seed, expanded e namespaces seed r.variants⟩ variant =
      some (e.expand namespaces t seed).text := by
  apply Item.get?_of_mem
  · simpa [expanded, Function.comp_def] using r.nodup_variants
  · exact List.mem_map.2 ⟨(variant, t), h, rfl⟩

/-- Expanding a request is to expand every prompt by itself, with each of the seeds in turn. What is
recorded are the texts with a marker, each once, and only if there is an item. So a smaller batch is the
start of a larger one, and equal texts are expanded alike in every item. -/
theorem expand_is_promptwise (r : Request) (seeds : Source) :
    let batch := (r.expand e namespaces saveRaw seeds).1
    batch.items.length = r.batch ∧
    batch.items = (seeds.seeds r.batch).map (fun seed =>
      ⟨seed, r.variants.map fun p => (p.1, (e.expand namespaces p.2 seed).text)⟩) ∧
    (saveRaw = true → 0 < r.batch →
      Keyed.Sorted batch.rawPrompts ∧
      batch.rawPrompts.Perm ((r.variants.filter fun p => marker ∈ p.2).map fun p =>
        (p.1.parameterName.toList, p.2.map fun c => if c = '\n' then ' ' else c))) ∧
    (saveRaw = false ∨ r.batch = 0 → batch.rawPrompts = []) ∧
    (∀ n, n ≤ r.batch →
      (Request.expand e namespaces { r with batch := n } saveRaw seeds).1.items =
        batch.items.take n) ∧
    ∀ item ∈ batch.items, ∀ v w t, (v, t) ∈ r.variants → (w, t) ∈ r.variants →
      ∃ out, item.get? v = some out ∧ item.get? w = some out := by
  intro batch
  have hitems := items_expand e namespaces saveRaw r seeds
  have hraw := rawPrompts_expand e namespaces saveRaw r seeds
  refine ⟨?_, hitems, ?_, ?_, ?_, ?_⟩
  · rw [hitems, List.length_map, Source.length_seeds]
  · intro hsave hpos
    rw [hraw, if_pos ⟨hsave, hpos⟩]
    exact ⟨Keyed.sorted_insertAll _ List.Pairwise.nil, perm_records r⟩
  · intro hnone
    rw [hraw, if_neg]
    rintro ⟨hsave, hpos⟩
    rcases hnone with hnone | hnone
    · exact absurd hsave (by simp [hnone])
    · omega
  · -- the variants do not depend on the size of the batch, and the seeds start alike
    intro n hn
    rw [hitems, items_expand, ← List.map_take, Source.take_seeds hn]
    rfl
  · intro item hitem v w t hv hw
    rw [hitems] at hitem
    obtain ⟨seed, -, rfl⟩ := List.mem_map.1 hitem
    exact ⟨_, get?_expanded e namespaces r seed hv, get?_expanded e namespaces r seed hw⟩

/-- Two equal prompts of two lines, one with a marker that opens nothing, and an empty one. -/
theorem expand_is_promptwise_equal_texts :
    let namespaces : Keyed Node := [(Text.lit "c", .list [Text.lit "a", Text.lit "b"])]
    let r : Request :=
      ⟨Text.lit "x\n@c@", Text.lit "x\n@c@", some (Text.lit "y @ z"), some [], 2⟩
    let expander : Expander := ⟨100, 100⟩
    let batch := (r.expand expander namespaces true (.ofSeed 7)).1
    0 < r.batch ∧ 1 ≤ r.batch ∧
    batch.items.length = 2 ∧
    batch.rawPrompts.Perm [(Text.lit "Input Prompt", Text.lit "x @c@"),
      (Text.lit "Input NegativePrompt", Text.lit "x @c@"),
      (Text.lit "Input Prompt(Hires)", Text.lit "y @ z")] ∧
    (Request.expand expander namespaces { r with batch := 1 } true (.ofSeed 7)).1.items =
      batch.items.take 1 ∧
    (Variant.positive, Text.lit "x\n@c@") ∈ r.variants ∧
    (Variant.negative, Text.lit "x\n@c@") ∈ r.variants ∧
    ∀ item ∈ batch.items, ∃ out, item.get? .positive = some out ∧ item.get? .negative = some out := by
  intro namespaces r expander batch
  obtain ⟨hlength, -, hraw, -, hfewer, hequal⟩ :=
    expand_is_promptwise expander namespaces true r (.ofSeed 7)
  have hpos : 0 < r.batch := by decide
  have hpositive : (Variant.positive, Text.lit "x\n@c@") ∈ r.variants := by decide
  have hnegative : (Variant.negative, Text.lit "x\n@c@") ∈ r.variants := by decide
  exact ⟨hpos, hpos, hlength, (hraw rfl hpos).2, hfewer 1 hpos, hpositive, hnegative,
    fun item hitem => hequal item hitem _ _ _ hpositive hnegative⟩

end Request

end PromptTags
