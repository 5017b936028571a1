import PromptTags.Proofs.Workspace.Cells
import PromptTags.Proofs.Workspace.Stored
import PromptTags.Workspace.Commands

/-! Changing a setting of a workspace. The configuration is loaded, changed and saved; whatever fails leaves the
disk as it was. -/
namespace PromptTags.Workspace

variable (root : Path) {key value : Text} {c : Config} {d d' : Disk}

/-- Loading looks at the file with the configuration, and changes nothing. -/
theorem loadConfig_run (d : Disk) :
    (loadConfig root : OnDisk Config).run d =
      (match d.read (configFile root) with
        | .ok text => Failure.ofConfig (Config.ofStored text)
        | .error .notFound => .error (.notWorkspace root)
        | .error fault => .error (.files fault), d) := by
  have hread : (liftM (FileAccess.read (m := StateM Disk) (configFile root)) : OnDisk _).run d =
      (.ok (d.read (configFile root)), d) := rfl
  rw [loadConfig, run_bind_of_ok hread]
  cases d.read (configFile root) with
  | ok text => rfl
  | error fault => cases fault <;> rfl

/-- An empty file has the standard configuration in it. -/
theorem ofStored_nil : Config.ofStored [] = .ok Config.standard := by
  have hentries : Toml.Entries.ofText [] = some [] := Toml.Entries.ofText_fields [] List.nodup_nil
  rw [Config.ofStored, hentries]
  rfl

theorem loadConfig_of_read {text : Text} (h : d.read (configFile root) = .ok text)
    (hc : Config.ofStored text = .ok c) : (loadConfig root : OnDisk Config).run d = (.ok c, d) := by
  rw [loadConfig_run, h]
  exact congrArg (fun r => (Failure.ofConfig r, d)) hc

theorem exists_read_of_loadConfig (h : (loadConfig root : OnDisk Config).run d = (.ok c, d')) :
    ∃ text, d.read (configFile root) = .ok text ∧ Config.ofStored text = .ok c := by
  rw [loadConfig_run] at h
  cases hread : d.read (configFile root) with
  | ok text =>
    rw [hread] at h
    have hread' : Failure.ofConfig (Config.ofStored text) = .ok c := congrArg Prod.fst h
    refine ⟨text, rfl, ?_⟩
    cases hstored : Config.ofStored text <;> rw [hstored] at hread' <;> cases hread'
    rfl
  | error fault =>
    rw [hread] at h
    cases fault <;> cases h

/-- Where a configuration is loaded from, the state directory is there. -/
theorem isSome_stateDir_of_loadConfig (h : (loadConfig root : OnDisk Config).run d = (.ok c, d')) :
    (d.find? (stateDir root)).isSome = true := by
  have hname : Disk.IsFileName configName := ⟨by decide, by decide, by decide, by decide, by decide⟩
  have hlast := getLast?_stateDir root
  have hne : stateDir root ≠ [] := by
    intro hnil
    simp [hnil] at hlast
  obtain ⟨text, hread, -⟩ := exists_read_of_loadConfig root h
  rw [configFile_eq] at hread
  exact Disk.isSome_find?_of_read_below hne (by rw [hlast]; decide) hname hread

/-- What cannot be stored is refused before anything is written, if the state directory is there. -/
theorem saveConfig_run_of_error {fault : ConfigFault} (hdir : (d.find? (stateDir root)).isSome = true)
    (hc : c.stored = .error fault) :
    (saveConfig root c : OnDisk Unit).run d = (.error (.config fault), d) := by
  have hpresent :
      (liftM (FileAccess.isPresent (m := StateM Disk) (stateDir root)) : OnDisk Bool).run d =
        (.ok ((d.find? (stateDir root)).map Disk.kindOf).isSome, d) := rfl
  rw [saveConfig, run_bind_of_ok hpresent, Option.isSome_map, hdir, hc]
  rfl

theorem write_run (path : Path) (text : Text) (d : Disk) :
    (Failure.orFiles (FileAccess.write path text) : OnDisk Unit).run d =
      match d.store path (.text text) with
      | .error fault => (.error (.files fault), d)
      | .ok d' => (.ok (), d') := run_attempt _ d

/-- Once the configuration is loaded, its change can be refused, its stored form, or the writing of that. -/
theorem setSetting_run (h : (loadConfig root : OnDisk Config).run d = (.ok c, d)) (key value : Text) :
    (setSetting root key value : OnDisk Unit).run d =
      match (c.setKey key value).bind Config.stored with
      | .error fault => (.error (.config fault), d)
      | .ok text => (Failure.orFiles (FileAccess.write (configFile root) text) : OnDisk Unit).run d := by
  have hdir := isSome_stateDir_of_loadConfig root h
  rw [setSetting, run_bind_of_ok h]
  cases hset : c.setKey key value with
  | error fault => exact run_bind_of_error rfl _
  | ok c' =>
    have hsave : (do
        let c ← Failure.orConfig (m := StateM Disk) (.ok c')
        saveConfig root c : OnDisk Unit).run d = (saveConfig root c' : OnDisk Unit).run d :=
      run_bind_of_ok rfl _
    rw [hsave]
    cases hstored : c'.stored with
    | error fault =>
      rw [saveConfig_run_of_error root hdir hstored, Except.bind, hstored]
    | ok text =>
      rw [saveConfig_run root hstored, hdir, Except.bind, hstored]
      exact (write_run (configFile root) text d).symm

/-- A change that fails, for whatever reason, leaves the disk as it was. -/
theorem disk_of_setSetting_error {e : Failure}
    (h : (setSetting root key value : OnDisk Unit).run d = (.error e, d')) : d' = d := by
  cases hload : (loadConfig root : OnDisk Config).run d with
  | mk loaded d₁ =>
    obtain rfl : d₁ = d := by
      rw [loadConfig_run] at hload
      exact (congrArg Prod.snd hload).symm
    cases loaded with
    | error e' =>
      have hrun := run_bind_of_error hload fun c => do
        let c ← Failure.orConfig (c.setKey key value)
        saveConfig root c
      exact congrArg Prod.snd (h.symm.trans hrun)
    | ok c =>
      rw [setSetting_run root hload] at h
      split at h
      · exact (congrArg Prod.snd h).symm
      · rw [write_run] at h
        split at h
        · exact (congrArg Prod.snd h).symm
        · cases h

/-- The settings are independent of each other in every configuration that calls with keys and texts make of
the standard one. A call that is refused changes nothing, and would be refused anywhere; any other call changes
the one setting with its key, to what it would be changed to anywhere. So the text of a setting is the one that
the last call for it gave it that was not refused; and giving a setting its own text changes nothing. On a disk,
a change that fails leaves everything as it was, as it does if the call is refused or has no stored form. -/
theorem settings_are_independent_cells (calls : List Config.Call) :
    let c := Config.standard.run calls
    (∀ key value fault, c.setKey key value = .error fault →
      Config.standard.run (calls ++ [(key, value)]) = c ∧
        ∀ c₀ : Config, c₀.setKey key value = .error fault) ∧
    (∀ key value c', c.setKey key value = .ok c' →
      Config.standard.run (calls ++ [(key, value)]) = c' ∧
        ∃ s : Setting, key = s.key.toList ∧ (∀ s', s' ≠ s → c'.held s' = c.held s') ∧
          ∀ c₀ : Config, ∃ c₁, c₀.setKey key value = .ok c₁ ∧ c₁.held s = c'.held s) ∧
    (∀ (s : Setting) before value after c', calls = before ++ (s.key.toList, value) :: after →
      Config.LeavesAlone after s → Config.standard.setKey s.key.toList value = .ok c' →
      c.held s = c'.held s ∧ c.getKey s.key.toList = c'.getKey s.key.toList) ∧
    (∀ s : Setting, Config.LeavesAlone calls s →
      c.held s = Config.standard.held s ∧
        c.getKey s.key.toList = Config.standard.getKey s.key.toList) ∧
    (∀ key value, c.getKey key = .ok value → c.setKey key value = .ok c) ∧
    (∀ (root : Path) (key value : Text) (d d' : Disk) (e : Failure),
      (setSetting root key value : OnDisk Unit).run d = (.error e, d') → d' = d) ∧
    ∀ (root : Path) (key value : Text) (d : Disk) (c₀ : Config) (fault : ConfigFault),
      (loadConfig root : OnDisk Config).run d = (.ok c₀, d) →
      (c₀.setKey key value).bind Config.stored = .error fault →
      (setSetting root key value : OnDisk Unit).run d = (.error (.config fault), d) := by
  intro c
  have hnext (call : Config.Call) : Config.standard.run (calls ++ [call]) = c.attempt call :=
    Config.run_append _ _ _
  have hget {s : Setting} {c' : Config} (h : c.held s = c'.held s) :
      c.held s = c'.held s ∧ c.getKey s.key.toList = c'.getKey s.key.toList := by
    refine ⟨h, ?_⟩
    rw [Config.getKey_key, Config.getKey_key, h]
  refine ⟨?_, ?_, ?_, ?_, ?_, fun root key value d d' e => disk_of_setSetting_error root, ?_⟩
  · intro key value fault h
    refine ⟨?_, fun c₀ => (Config.setKey_eq_error_iff c c₀).1 h⟩
    rw [hnext, Config.attempt, h]
  · intro key value c' h
    refine ⟨by rw [hnext, Config.attempt, h], ?_⟩
    obtain ⟨s, v, rfl, hread, rfl⟩ := c.setKey_eq_ok_iff.1 h
    refine ⟨s, rfl, fun s' hne => c.held_put_of_ne hne v, fun c₀ => ⟨c₀.put s v, ?_, ?_⟩⟩
    · exact c₀.setKey_eq_ok_iff.2 ⟨s, v, rfl, hread, rfl⟩
    · rw [Config.held_put, Config.held_put]
  · intro s before value after c' hcalls hafter h
    apply hget
    -- the cell holds what the call put there, and nothing was put there later
    have hlast : c = ((Config.standard.run before).attempt (s.key.toList, value)).run after := by
      rw [show c = Config.standard.run calls from rfl, hcalls, Config.run_append]
      rfl
    rw [hlast, Config.held_run_of_leavesAlone _ hafter, Config.held_attempt]
    obtain ⟨v, hread, rfl⟩ := (Config.standard.setKey_key_eq_ok_iff s).1 h
    rw [Config.accepted?_eq_some_iff.2 ⟨rfl, hread⟩, Config.held_put]
    rfl
  · intro s h
    exact hget (Config.held_run_of_leavesAlone _ h)
  · intro key value h
    obtain ⟨s, rfl, rfl⟩ := c.exists_of_getKey h
    have hsteady : s.read (s.write (c.held s)) = .ok (c.held s) := Config.steady_run s calls
    rw [Config.setKey_key, hsteady]
    exact congrArg Except.ok (c.put_held s)
  · intro root key value d c₀ fault hload h
    rw [setSetting_run root hload, h]

/-- A cap with a sign, then one that is refused and a change of another setting; and a key that there is not,
on a disk with an empty configuration file. -/
theorem settings_are_independent_cells_refused_after :
    let key := Setting.maxPasses.key.toList
    let after : List Config.Call := [(key, Text.lit "-1"), (Text.lit "debug", Text.lit "YES")]
    let c := Config.standard.run ((key, Text.lit "+07") :: after)
    let d : Disk := ⟨.directory [(Text.lit ".promptsel", .directory [(configName, .file (.text []))])], [], []⟩
    Config.LeavesAlone after .maxPasses ∧
      c.getKey key = .ok (Text.lit "7") ∧ c.setKey key (Text.lit "7") = .ok c ∧
      (setSetting ['/'] (Text.lit "editor") [] : OnDisk Unit).run d =
        (.error (.config (.unknownKey (Text.lit "editor"))), d) := by
  intro key after c d
  obtain ⟨-, -, hlast, -, hback, -, hdisk⟩ := settings_are_independent_cells ((key, Text.lit "+07") :: after)
  have hafter : Config.LeavesAlone after .maxPasses := by
    intro call hcall hkey
    rcases List.mem_cons.1 hcall with rfl | hcall
    · exact ⟨_, rfl⟩
    · obtain rfl := List.mem_singleton.1 hcall
      exact absurd hkey (by decide)
  have hget : c.getKey key = .ok (Text.lit "7") :=
    (hlast .maxPasses [] (Text.lit "+07") after _ rfl hafter rfl).2
  have hload := loadConfig_of_read ['/'] (show d.read (configFile ['/']) = .ok [] from rfl) ofStored_nil
  exact ⟨hafter, hget, hback key _ hget, hdisk ['/'] _ [] d Config.standard _ hload rfl⟩

end PromptTags.Workspace
