import PromptTags.Proofs.Files.Disk
import PromptTags.Proofs.Toml.Document
import PromptTags.Workspace.Root

/-! A stored configuration is read back as it was. -/
namespace PromptTags.Config

open Toml (Field Stands Value)

theorem bare_key (s : Setting) :
    s.key.toList ≠ [] ∧ ∀ c ∈ s.key.toList, Toml.isBareChar c = true := by
  have hall : s.key.toList.all Toml.isBareChar = true := by cases s <;> decide
  exact ⟨by cases s <;> decide, List.all_eq_true.1 hall⟩

def entry (s : Setting) {written : Text} {value : Value} (h : Stands written value) : Field :=
  ⟨s.key.toList, written, value, (bare_key s).1, (bare_key s).2, h⟩

theorem line_entry (s : Setting) {written : Text} {value : Value} (h : Stands written value) :
    (entry s h).line = line s written := rfl

theorem stands_count {n : Nat} (h : n < storableBound) : Stands (Text.ofNat n) (.integer n) := by
  have hbound : (storableBound : Int) = Toml.integerBound := rfl
  exact Toml.stands_integer (hbound ▸ Int.ofNat_lt.2 h)

theorem lt_storableBound (n : UInt32) : n.toNat < storableBound :=
  Nat.lt_trans n.toNat_lt (by decide)

def entries (c : Config) (h : c.maxPasses.toNat < storableBound) : List Field :=
  let tagsDir := match c.tagsDir with
    | none => []
    | some dir => [entry .tagsDir (Toml.stands_string dir)]
  tagsDir ++ [entry .saveRawPrompt (Toml.stands_boolean c.saveRawPrompt),
    entry .maxPasses (stands_count h),
    entry .maxRepeat (stands_count (lt_storableBound c.maxRepeat)),
    entry .namespaceKeying (Toml.stands_string c.keying.name),
    entry .debug (Toml.stands_boolean c.debug)]

variable (c : Config) (h : c.maxPasses.toNat < storableBound)

theorem stored_eq_entries : c.stored = .ok ((c.entries h).flatMap Field.line) := by
  rw [stored, if_neg (Nat.not_le.2 h), entries]
  cases c.tagsDir <;> simp [line_entry, get, boolWord]

theorem nodup_keys : ((c.entries h).map Field.key).Nodup := by
  rw [entries]
  cases c.tagsDir <;> simp only [entry, List.map_append, List.map_cons, List.map_nil] <;> decide

/-- An entry that is there gives its setting what its value stands for. -/
theorem field_entry {α : Type} (s : Setting) (ofValue : Value → Option α) {written : Text}
    {v : Value} (hs : Stands written v) (he : entry s hs ∈ c.entries h) {a : α} (ha : ofValue v = some a)
    {standard : α} :
    field s standard ofValue ((c.entries h).map Field.pair) = .ok a := by
  have hget : Toml.Entries.get? s.key.toList ((c.entries h).map Field.pair) = some v :=
    Toml.Entries.get?_fields (c.entries h) (c.nodup_keys h) he
  rw [field, hget]
  simp only [ha]

/-- A directory that is not set has no entry, and reading leaves it unset. -/
theorem field_tagsDir :
    field .tagsDir none (fun v => (stringOf? v).map some)
      ((c.entries h).map Field.pair) = .ok c.tagsDir := by
  cases hdir : c.tagsDir with
  | none =>
    have hget : Toml.Entries.get? Setting.tagsDir.key.toList
        ((c.entries h).map Field.pair) = none := by
      rw [Toml.Entries.get?_eq_none, entries, hdir]
      simp only [entry, Field.pair, List.nil_append, List.map_cons, List.map_nil]
      decide
    rw [field, hget]
  | some dir =>
    have hmem : entry .tagsDir (Toml.stands_string dir) ∈ c.entries h := by simp [entries, hdir]
    exact c.field_entry h .tagsDir (fun v => (stringOf? v).map some) _ hmem rfl

/-- An integer in range is read as the number it is. -/
theorem countOf?_natCast {n bound : Nat} (hn : n < bound) : countOf? bound (.integer n) = some n := by
  have hrange : 0 ≤ (n : Int) ∧ (n : Int) < bound := ⟨Int.natCast_nonneg n, Int.ofNat_lt.2 hn⟩
  rw [countOf?, if_pos hrange, Int.toNat_natCast]

theorem ofEntries_entries :
    ofEntries ((c.entries h).map Field.pair) = .ok c := by
  have hpasses := congrArg (Option.map Nat.toUInt64) (countOf?_natCast c.maxPasses.toNat_lt)
  have hrepeat := congrArg (Option.map Nat.toUInt32) (countOf?_natCast c.maxRepeat.toNat_lt)
  have hkeying : keyingOf? (.string c.keying.name) = some c.keying := by
    cases c.keying <;> decide
  rw [ofEntries, c.field_tagsDir h,
    c.field_entry h .saveRawPrompt booleanOf? (Toml.stands_boolean c.saveRawPrompt)
      (by simp [entries]) rfl,
    c.field_entry h .maxPasses (fun v => (countOf? UInt64.size v).map Nat.toUInt64)
      (stands_count h) (by simp [entries]) hpasses,
    c.field_entry h .maxRepeat (fun v => (countOf? UInt32.size v).map Nat.toUInt32)
      (stands_count (lt_storableBound c.maxRepeat)) (by simp [entries]) hrepeat,
    c.field_entry h .namespaceKeying keyingOf? (Toml.stands_string c.keying.name)
      (by simp [entries]) hkeying,
    c.field_entry h .debug booleanOf? (Toml.stands_boolean c.debug) (by simp [entries]) rfl,
    Nat.toUInt64_eq, UInt64.ofNat_toNat, Nat.toUInt32_eq, UInt32.ofNat_toNat]
  rfl

/-- What is stored can be read, and gives the configuration back. -/
theorem ofStored_entries : ofStored ((c.entries h).flatMap Field.line) = .ok c := by
  rw [ofStored, Toml.Entries.ofText_fields _ (c.nodup_keys h)]
  exact c.ofEntries_entries h

end PromptTags.Config

namespace PromptTags.Workspace

/-- What a command makes of a disk: its result or why it fails, and the disk it leaves. -/
abbrev OnDisk (α : Type) : Type := ExceptT Failure (StateM Disk) α

/-! ### Running on a disk -/

section Run

variable {α β : Type} {d d₁ : Disk}

theorem run_bind_of_ok {x : OnDisk α} {a : α} (h : x.run d = (.ok a, d₁))
    (f : α → OnDisk β) : (x >>= f).run d = (f a).run d₁ := by
  rw [ExceptT.run_bind, Disk.bind_apply, h]

theorem run_bind_of_error {x : OnDisk α} {e : Failure}
    (h : x.run d = (.error e, d₁)) (f : α → OnDisk β) :
    (x >>= f).run d = (.error e, d₁) := by
  rw [ExceptT.run_bind, Disk.bind_apply, h]
  rfl

/-- A change that may fail leaves its fault as the failure, or the disk it gives. -/
theorem run_attempt (change : Disk → Except FileFault Disk) (d : Disk) :
    (Failure.orFiles (Disk.attempt change)).run d =
      match change d with
      | .error fault => (.error (.files fault), d)
      | .ok d₁ => (.ok (), d₁) := by
  cases h : change d with
  | error fault =>
    have hattempt : Disk.attempt change d = (.error fault, d) := by rw [Disk.attempt, h]
    exact congrArg (fun r => (Failure.ofFiles r.1, r.2)) hattempt
  | ok d₁ =>
    have hattempt : Disk.attempt change d = (.ok (), d₁) := by rw [Disk.attempt, h]
    exact congrArg (fun r => (Failure.ofFiles r.1, r.2)) hattempt

end Run

variable (root : Path) {c : Config} {text : Text}

/-- A configuration that was written is the one that is loaded. -/
theorem loadConfig_of_store {d d' : Disk} (hc : Config.ofStored text = .ok c)
    (h : d.store (configFile root) (.text text) = .ok d') :
    (loadConfig root : OnDisk Config).run d' = (.ok c, d') := by
  have hread : (liftM (FileAccess.read (m := StateM Disk) (configFile root)) : OnDisk _).run d' =
      (.ok (.ok text), d') := congrArg (fun r => (Except.ok r, d')) (Disk.read_of_store h)
  rw [loadConfig, run_bind_of_ok hread]
  simp only [hc]
  rfl

/-- Saving makes the state directory if it is missing, and then writes the configuration. -/
theorem saveConfig_run (hc : c.stored = .ok text) (d : Disk) :
    (saveConfig root c : OnDisk Unit).run d =
      match if (d.find? (stateDir root)).isSome then .ok d else d.makeDirectory (stateDir root) with
      | .error fault => (.error (.files fault), d)
      | .ok d₁ =>
        match d₁.store (configFile root) (.text text) with
        | .error fault => (.error (.files fault), d₁)
        | .ok d' => (.ok (), d') := by
  have hwrite (d₁ : Disk) : (do
      let text ← Failure.orConfig (m := StateM Disk) c.stored
      Failure.orFiles (FileAccess.write (configFile root) text)).run d₁ =
        match d₁.store (configFile root) (.text text) with
        | .error fault => (.error (.files fault), d₁)
        | .ok d' => (.ok (), d') := by
    rw [hc]
    exact (run_bind_of_ok rfl _).trans (run_attempt _ d₁)
  have hmake : (Failure.orFiles (FileAccess.makeDirectory (m := StateM Disk) (stateDir root))).run d =
      match d.makeDirectory (stateDir root) with
      | .error fault => (.error (.files fault), d)
      | .ok d₁ => (.ok (), d₁) := run_attempt _ d
  have hpresent :
      (liftM (FileAccess.isPresent (m := StateM Disk) (stateDir root)) : OnDisk Bool).run d =
        (.ok ((d.find? (stateDir root)).map Disk.kindOf).isSome, d) := rfl
  rw [saveConfig, run_bind_of_ok hpresent, Option.isSome_map]
  cases (d.find? (stateDir root)).isSome with
  | true => exact hwrite d
  | false =>
    cases hm : d.makeDirectory (stateDir root) with
    | error fault =>
      rw [hm] at hmake
      exact run_bind_of_error hmake _
    | ok d₁ =>
      rw [hm] at hmake
      exact (run_bind_of_ok hmake _).trans (hwrite d₁)

/-- Saving a configuration on a disk leaves a disk from which the same configuration is loaded. -/
def Survives (root : Path) (c : Config) (d : Disk) : Prop :=
  ∃ d', (saveConfig root c : OnDisk Unit).run d = (.ok (), d') ∧
    (loadConfig root : OnDisk Config).run d' = (.ok c, d')

def configName : Text := Text.lit "config.toml"

/-- The state directory is there, without a directory in the place of the configuration, or it is missing
and can be made. -/
structure Writable (root : Path) (d : Disk) : Prop where
  state : (∃ entries, d.find? (stateDir root) = some (.directory entries) ∧
      ∀ inner, entries.lookup configName ≠ some (.directory inner)) ∨
    d.find? (stateDir root) = none ∧ ∃ d₁, d.makeDirectory (stateDir root) = .ok d₁
  form : Disk.formFault? (configFile root) = none

theorem getLast?_stateDir : (stateDir root).getLast? = some 'l' := by
  simp only [stateDir, Path.join]
  split
  · rfl
  · split <;> rw [List.getLast?_append] <;> rfl

theorem configFile_eq : configFile root = stateDir root ++ '/' :: configName := by
  have hlast := getLast?_stateDir root
  have hne : stateDir root ≠ [] := by
    intro hnil
    simp [hnil] at hlast
  rw [configFile, Path.join, if_neg (by decide), if_neg (by simp [hne, hlast])]
  rfl

/-- Within a state directory the configuration can be stored unless a directory has its name. -/
theorem exists_store_configFile {d : Disk} {entries : List (Text × FileTree)}
    (hdir : d.find? (stateDir root) = some (.directory entries))
    (hfree : ∀ inner, entries.lookup configName ≠ some (.directory inner))
    (hform : Disk.formFault? (configFile root) = none) (content : Content) :
    ∃ d', d.store (configFile root) content = .ok d' := by
  have hname : Disk.IsFileName configName := ⟨by decide, by decide, by decide, by decide, by decide⟩
  have hslash : (stateDir root).getLast? ≠ some '/' := by
    rw [getLast?_stateDir]
    decide
  rw [configFile_eq] at hform ⊢
  exact Disk.exists_store_eq_ok hdir hslash hname hfree hform content

theorem survives_of_writable {d : Disk} (hstored : c.stored = .ok text)
    (hread : Config.ofStored text = .ok c) (h : Writable root d) : Survives root c d := by
  rw [Survives, saveConfig_run root hstored]
  rcases h.state with ⟨entries, hdir, hfree⟩ | ⟨habsent, d₁, hmake⟩
  · -- The state directory is there, so nothing is made before the configuration is written.
    obtain ⟨d', hstore⟩ := exists_store_configFile root hdir hfree h.form (.text text)
    refine ⟨d', ?_, loadConfig_of_store root hread hstore⟩
    simp only [hdir, Option.isSome_some, if_true, hstore]
  · have hdir : d₁.find? (stateDir root) = some (.directory []) :=
      Disk.find?_of_makeDirectory hmake (by rw [getLast?_stateDir]; decide)
    obtain ⟨d', hstore⟩ := exists_store_configFile root hdir nofun h.form (.text text)
    refine ⟨d', ?_, loadConfig_of_store root hread hstore⟩
    simp only [habsent, Option.isSome_none, Bool.false_eq_true, if_false, hmake, hstore]

/-- Every configuration whose cap on passes fits into 63 bits has a stored form, and that form is read as
the very same configuration. So saving it and loading it again gives it back on every disk that has a state
directory to write into or room for one; on any other disk it does so too, or else it is the disk that
refuses the state directory or the file. -/
theorem saveConfig_then_loadConfig (c : Config)
    (h : c.maxPasses.toNat < Config.storableBound) :
    ∃ text, c.stored = .ok text ∧ Config.ofStored text = .ok c ∧
      ∀ (root : Path) (d : Disk), (Writable root d → Survives root c d) ∧
        (Survives root c d ∨
          ∃ fault d', (saveConfig root c : OnDisk Unit).run d = (.error (.files fault), d') ∧
            (d.find? (stateDir root) = none ∧ d.makeDirectory (stateDir root) = .error fault ∨
              d'.store (configFile root) (.text text) = .error fault)) := by
  have hstored := c.stored_eq_entries h
  have hread := c.ofStored_entries h
  refine ⟨_, hstored, hread, fun root d => ⟨survives_of_writable root hstored hread, ?_⟩⟩
  rw [Survives, saveConfig_run root hstored]
  split
  · next fault hfault =>
    split at hfault
    · cases hfault
    · next habsent => exact .inr ⟨fault, d, rfl, .inl ⟨by simpa using habsent, hfault⟩⟩
  · next d₁ _ =>
    split
    · next fault hfault => exact .inr ⟨fault, d₁, rfl, .inr hfault⟩
    · next d' hstore => exact .inl ⟨d', rfl, loadConfig_of_store root hread hstore⟩

/-- A directory with quotes of both kinds, a backslash, a line break and a control character in its name
takes the longest form and comes back from it. -/
theorem saveConfig_then_loadConfig_quotes :
    let c := { Config.standard with
      tagsDir := some (Text.lit "\"\"\"'''\\\n\t\x01\""), maxPasses := 0x7FFFFFFFFFFFFFFF }
    c.maxPasses.toNat < Config.storableBound ∧
      (∃ text, c.stored = .ok text ∧ Config.ofStored text = .ok c) ∧
        Survives ['/'] c ⟨.directory [], [], []⟩ := by
  intro c
  have hbound : c.maxPasses.toNat < Config.storableBound := by decide
  obtain ⟨text, hstored, hread, hdisk⟩ := saveConfig_then_loadConfig c hbound
  exact ⟨hbound, ⟨text, hstored, hread⟩, (hdisk _ _).1 ⟨.inr ⟨rfl, _, rfl⟩, by decide⟩⟩

end PromptTags.Workspace
