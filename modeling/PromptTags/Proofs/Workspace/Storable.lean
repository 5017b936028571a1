import PromptTags.Proofs.Toml.Range
import PromptTags.Proofs.Workspace.Change

/-! Which values of settings can be stored. A cap on passes is checked against 64 bits without a sign, and stored
in 64 bits with one; every other value that is accepted has a stored form. -/
namespace PromptTags.Config

/-- A text that stands for a cap on passes and one that is too great for the stored form. -/
def BeyondFormat (value : Text) : Prop :=
  ∃ n ∈ Text.boundedNumber? UInt64.size value, storableBound ≤ n

instance (value : Text) : Decidable (BeyondFormat value) :=
  inferInstanceAs (Decidable (∃ n ∈ Text.boundedNumber? UInt64.size value, storableBound ≤ n))

variable (c : Config) {c' : Config} {key value : Text}

/-! ### Stored forms -/

theorem stored_eq_tooGreat_iff : c.stored = .error .tooGreat ↔ storableBound ≤ c.maxPasses.toNat := by
  refine ⟨fun h => Nat.le_of_not_lt fun hlt => ?_, fun h => if_pos h⟩
  rw [c.stored_eq_entries hlt] at h
  cases h

theorem exists_stored_of_ne (h : c.stored ≠ .error .tooGreat) :
    ∃ text, c.stored = .ok text ∧ ofStored text = .ok c := by
  have hlt : c.maxPasses.toNat < storableBound :=
    Nat.lt_of_not_le fun hle => h (c.stored_eq_tooGreat_iff.2 hle)
  exact ⟨_, c.stored_eq_entries hlt, c.ofStored_entries hlt⟩

/-! ### Accepted values -/

theorem toNat_toUInt64 {n : Nat} (h : n < UInt64.size) : n.toUInt64.toNat = n := by
  rw [Nat.toUInt64_eq, UInt64.toNat_ofNat_of_lt' h]

theorem read_maxPasses_eq_ok_iff {v : UInt64} :
    Setting.maxPasses.read value = .ok v ↔ Text.boundedNumber? UInt64.size value = some v.toNat := by
  rw [Setting.read, readCount]
  cases hn : Text.boundedNumber? UInt64.size value with
  | none => simp [Except.map]
  | some n =>
    have hback := toNat_toUInt64 (Text.lt_of_boundedNumber? hn)
    constructor
    · intro h
      rw [← Except.ok.inj h, hback]
    · intro h
      rw [Option.some.inj h, Except.map, Nat.toUInt64_eq, UInt64.ofNat_toNat]

theorem beyondFormat_iff {v : UInt64} (h : Setting.maxPasses.read value = .ok v) :
    BeyondFormat value ↔ storableBound ≤ v.toNat := by
  rw [BeyondFormat, read_maxPasses_eq_ok_iff.1 h]
  simp

/-- A call that is not refused makes a configuration that cannot be stored by the cap it gives, or leaves one so
that could not be stored before. -/
theorem stored_setKey_eq_tooGreat_iff (h : c.setKey key value = .ok c') :
    c'.stored = .error .tooGreat ↔
      if key = Setting.maxPasses.key.toList then BeyondFormat value else c.stored = .error .tooGreat := by
  obtain ⟨s, v, rfl, hread, rfl⟩ := c.setKey_eq_ok_iff.1 h
  rw [stored_eq_tooGreat_iff]
  change storableBound ≤ UInt64.toNat ((c.put s v).held .maxPasses) ↔ _
  by_cases hs : s = .maxPasses
  · subst hs
    rw [if_pos rfl, held_put, beyondFormat_iff hread]
  · rw [if_neg (hs ∘ Setting.key_toList_inj.1), c.held_put_of_ne (Ne.symm hs), stored_eq_tooGreat_iff]
    rfl

/-- Calls make a configuration that cannot be stored just when the last of them that gives a cap on passes
gives one that is too great. -/
theorem stored_run_eq_tooGreat_iff (calls : List Call) :
    (standard.run calls).stored = .error .tooGreat ↔
      ∃ before value after, calls = before ++ (Setting.maxPasses.key.toList, value) :: after ∧
        LeavesAlone after .maxPasses ∧ BeyondFormat value := by
  rw [stored_eq_tooGreat_iff]
  -- the cap is the last one that was put into its cell, or the standard one, which is not too great
  change storableBound ≤ UInt64.toNat ((standard.run calls).held .maxPasses) ↔ _
  rw [held_run]
  constructor
  · intro h
    cases hlast : (calls.filterMap (accepted? .maxPasses)).getLast? with
    | none =>
      rw [hlast] at h
      exact absurd h (by decide)
    | some v =>
      rw [hlast] at h
      obtain ⟨before, value, after, hcalls, hafter, hread⟩ := getLast?_accepted?_eq_some_iff.1 hlast
      exact ⟨before, value, after, hcalls, hafter, (beyondFormat_iff hread).2 h⟩
  · rintro ⟨before, value, after, hcalls, hafter, hbeyond⟩
    obtain ⟨n, hn, -⟩ := id hbeyond
    have hread : Setting.maxPasses.read value = .ok n.toUInt64 := by
      rw [Setting.read, readCount, hn]
      rfl
    have hlast := getLast?_accepted?_eq_some_iff.2 ⟨before, value, after, hcalls, hafter, hread⟩
    rw [hlast]
    exact (beyondFormat_iff hread).1 hbeyond

/-! ### Loaded configurations -/

theorem bind_eq_ok_iff {α β : Type} {x : Except ConfigFault α} {f : α → Except ConfigFault β} {b : β} :
    (x >>= f) = .ok b ↔ ∃ a, x = .ok a ∧ f a = .ok b := by
  cases x <;> simp [bind, Except.bind]

/-- A field of a document has the standard value or one that is read from a value of the document. -/
theorem field_eq_ok {α : Type} {s : Setting} {standard a : α} {ofValue : Toml.Value → Option α}
    {entries : Toml.Entries} (h : field s standard ofValue entries = .ok a) :
    a = standard ∨ ∃ v, Toml.Entries.get? s.key.toList entries = some v ∧ ofValue v = some a := by
  rw [field] at h
  split at h
  · cases h
    exact .inl rfl
  · next v hv =>
    split at h
    · next b hb =>
      cases h
      exact .inr ⟨v, hv, hb⟩
    · cases h

theorem eq_of_countOf? {v : Toml.Value} {n bound : Nat} (h : countOf? bound v = some n) :
    v = .integer n ∧ n < bound := by
  unfold countOf? at h
  split at h
  · split at h
    · next hrange =>
      cases h
      rw [Int.toNat_of_nonneg hrange.1]
      exact ⟨rfl, by omega⟩
    · cases h
  · cases h

/-- What a document holds fits into the numbers that documents can hold. -/
theorem stored_ne_of_ofStored {text : Text} (h : ofStored text = .ok c) :
    c.stored ≠ .error .tooGreat := by
  rw [ne_eq, stored_eq_tooGreat_iff, Nat.not_le]
  rw [ofStored] at h
  split at h
  · cases h
  · next entries hentries =>
    simp only [ofEntries, bind_eq_ok_iff] at h
    obtain ⟨_, _, _, _, n, hn, _, _, _, _, _, _, h⟩ := h
    obtain rfl := Except.ok.inj h
    -- an integer of the document lies in the range of the stored form, whatever the setting takes
    change n.toNat < storableBound
    rcases field_eq_ok hn with rfl | ⟨v, hv, hcount⟩
    · decide
    · obtain ⟨k, hk, rfl⟩ := Option.map_eq_some_iff.1 hcount
      obtain ⟨rfl, hsize⟩ := eq_of_countOf? hk
      have hfits := (Toml.Entries.fits_get? (Toml.Entries.fits_ofText hentries) hv k rfl).2
      have hlt : k < storableBound := Int.ofNat_lt.1 hfits
      rwa [toNat_toUInt64 hsize]

end PromptTags.Config

namespace PromptTags.Workspace

/-- What is accepted can be stored, but for caps on passes that do not fit into 63 bits. Of the configurations
that calls make of the standard one, those have no stored form in which the last cap that was given is such a
one; every other has one, which is read as the same configuration. An accepted call makes a configuration
without a stored form of one with it by such a cap and in no other way. So a change of a configuration that
was loaded is refused by the save after it, with nothing written, if it is to such a cap; any other change that
is accepted comes down to writing the changed configuration. -/
theorem accepted_values_are_stored_up_to_the_format (calls : List Config.Call) :
    let c := Config.standard.run calls
    (c.stored = .error .tooGreat ↔
      ∃ before value after, calls = before ++ (Setting.maxPasses.key.toList, value) :: after ∧
        Config.LeavesAlone after .maxPasses ∧ Config.BeyondFormat value) ∧
    (c.stored ≠ .error .tooGreat → ∃ text, c.stored = .ok text ∧ Config.ofStored text = .ok c) ∧
    (∀ key value c', c.setKey key value = .ok c' →
      (c'.stored = .error .tooGreat ↔
        if key = Setting.maxPasses.key.toList then Config.BeyondFormat value
        else c.stored = .error .tooGreat)) ∧
    ∀ (root : Path) (key value : Text) (d : Disk) (c₀ c' : Config),
      (loadConfig root : OnDisk Config).run d = (.ok c₀, d) → c₀.setKey key value = .ok c' →
      if key = Setting.maxPasses.key.toList ∧ Config.BeyondFormat value then
        (setSetting root key value : OnDisk Unit).run d = (.error (.config .tooGreat), d)
      else ∃ text, c'.stored = .ok text ∧ Config.ofStored text = .ok c' ∧
        (setSetting root key value : OnDisk Unit).run d =
          (Failure.orFiles (FileAccess.write (configFile root) text) : OnDisk Unit).run d := by
  intro c
  refine ⟨Config.stored_run_eq_tooGreat_iff calls, c.exists_stored_of_ne,
    fun key value c' => c.stored_setKey_eq_tooGreat_iff, fun root key value d c₀ c' hload hset => ?_⟩
  have hstored := c₀.stored_setKey_eq_tooGreat_iff hset
  rw [setSetting_run root hload, hset]
  split
  · next hbeyond =>
    rw [if_pos hbeyond.1] at hstored
    rw [Except.bind, hstored.2 hbeyond.2]
  · next hwithin =>
    have hne : c'.stored ≠ .error .tooGreat := by
      rw [ne_eq, hstored]
      split
      · next hkey => exact fun hbeyond => hwithin ⟨hkey, hbeyond⟩
      · -- another setting was changed, and what was loaded has a stored form
        obtain ⟨_, -, hread⟩ := exists_read_of_loadConfig root hload
        exact c₀.stored_ne_of_ofStored hread
    obtain ⟨text, htext, hread⟩ := c'.exists_stored_of_ne hne
    refine ⟨text, htext, hread, ?_⟩
    simp only [Except.bind, htext]

/-- The greatest cap that can be stored, and then one more, on a disk with an empty configuration file. -/
theorem accepted_values_are_stored_up_to_the_format_at_bound :
    let key := Setting.maxPasses.key.toList
    let c := Config.standard.run [(key, Text.lit "9223372036854775807"), (Text.lit "debug", Text.lit "on")]
    let d : Disk := ⟨.directory [(Text.lit ".promptsel", .directory [(configName, .file (.text []))])], [], []⟩
    (∃ text, c.stored = .ok text ∧ Config.ofStored text = .ok c) ∧
      (setSetting ['/'] key (Text.lit "+9223372036854775808") : OnDisk Unit).run d =
        (.error (.config .tooGreat), d) := by
  intro key c d
  obtain ⟨-, hwithin, -, hsave⟩ := accepted_values_are_stored_up_to_the_format
    [(key, Text.lit "9223372036854775807"), (Text.lit "debug", Text.lit "on")]
  have hload := loadConfig_of_read ['/'] (show d.read (configFile ['/']) = .ok [] from rfl) ofStored_nil
  have hset := hsave ['/'] key (Text.lit "+9223372036854775808") d _ _ hload rfl
  rw [if_pos ⟨rfl, by decide +kernel⟩] at hset
  refine ⟨hwithin ?_, hset⟩
  rw [ne_eq, Config.stored_eq_tooGreat_iff]
  decide +kernel

/-- Not every cap that is accepted can be stored. -/
theorem accepted_passes_without_stored_form :
    ∃ c, Config.standard.setKey (Text.lit "max_passes") (Text.lit "9223372036854775808") = .ok c ∧
      c.stored = .error .tooGreat :=
  ⟨_, rfl, rfl⟩

end PromptTags.Workspace
