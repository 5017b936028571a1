import PromptTags.Proofs.Text.Numeral
import PromptTags.Workspace.Config

/-! The settings of a configuration as cells. To change a setting is to read a value from a text and to put it
into the cell of the setting; no other cell is touched, and what was in the cell before does not matter. -/
namespace PromptTags

/-- What the cell of a setting can hold. -/
abbrev Setting.Held : Setting → Type
  | tagsDir => Option Path
  | saveRawPrompt => Bool
  | maxPasses => UInt64
  | maxRepeat => UInt32
  | namespaceKeying => Keying
  | debug => Bool

namespace Setting

def read : (s : Setting) → Text → Except ConfigFault s.Held
  | tagsDir, value => .ok (if value.isEmpty then none else some value)
  | saveRawPrompt, value => Config.readBool saveRawPrompt value
  | maxPasses, value => (Config.readCount UInt64.size maxPasses value).map Nat.toUInt64
  | maxRepeat, value => (Config.readCount UInt32.size maxRepeat value).map Nat.toUInt32
  | namespaceKeying, value =>
    match Keying.ofWord? value with
    | some keying => .ok keying
    | none => .error (.unknownKeying value)
  | debug, value => Config.readBool debug value

def write : (s : Setting) → s.Held → Text
  | tagsDir, v => Option.getD v []
  | saveRawPrompt, v => Config.boolWord v
  | maxPasses, v => Text.ofNat (UInt64.toNat v)
  | maxRepeat, v => Text.ofNat (UInt32.toNat v)
  | namespaceKeying, v => Keying.name v
  | debug, v => Config.boolWord v

theorem ofKey?_key (s : Setting) : ofKey? s.key.toList = some s := by
  cases s <;> decide

theorem ofKey?_eq_some_iff {key : Text} {s : Setting} : ofKey? key = some s ↔ key = s.key.toList := by
  constructor
  · intro h
    have hs := List.find?_some h
    exact (of_decide_eq_true hs).symm
  · rintro rfl
    exact s.ofKey?_key

theorem key_toList_inj {s s' : Setting} : s.key.toList = s'.key.toList ↔ s = s' := by
  rw [← ofKey?_eq_some_iff, ofKey?_key, Option.some.injEq]

end Setting

namespace Config

/-! ### Cells -/

def held (c : Config) : (s : Setting) → s.Held
  | .tagsDir => c.tagsDir
  | .saveRawPrompt => c.saveRawPrompt
  | .maxPasses => c.maxPasses
  | .maxRepeat => c.maxRepeat
  | .namespaceKeying => c.keying
  | .debug => c.debug

def put (c : Config) : (s : Setting) → s.Held → Config
  | .tagsDir, v => { c with tagsDir := v }
  | .saveRawPrompt, v => { c with saveRawPrompt := v }
  | .maxPasses, v => { c with maxPasses := v }
  | .maxRepeat, v => { c with maxRepeat := v }
  | .namespaceKeying, v => { c with keying := v }
  | .debug, v => { c with debug := v }

variable (c d : Config) (s : Setting)

@[simp] theorem held_put (v : s.Held) : (c.put s v).held s = v := by
  cases s <;> rfl

theorem held_put_of_ne {s s' : Setting} (h : s' ≠ s) (v : s.Held) :
    (c.put s v).held s' = c.held s' := by
  cases s <;> cases s' <;> first | rfl | exact absurd rfl h

@[simp] theorem put_held : c.put s (c.held s) = c := by
  cases s <;> rfl

/-- The text of a setting is what its cell is written as. -/
theorem get_eq_write : c.get s = s.write (c.held s) := by
  cases s <;> rfl

/-- Changing a setting is reading a value and putting it into the cell. -/
theorem set_eq_put (value : Text) : c.set s value = (s.read value).map (c.put s) := by
  cases s with
  | tagsDir => rfl
  | saveRawPrompt => rfl
  | maxPasses =>
    rw [set, Setting.read]
    cases readCount UInt64.size .maxPasses value <;> rfl
  | maxRepeat =>
    rw [set, Setting.read]
    cases readCount UInt32.size .maxRepeat value <;> rfl
  | namespaceKeying =>
    rw [set, Setting.read]
    cases Keying.ofWord? value <;> rfl
  | debug => rfl

end Config

/-! ### Texts of values -/

theorem Text.boundedNumber?_ofNat {n bound : Nat} (h : n < bound) :
    boundedNumber? bound (ofNat n) = some n := by
  have hplus (rest : Text) (heq : ofNat n = '+' :: rest) : False := by
    have hdigit : '+'.isDigit = true := isDigit_of_mem_ofNat (heq ▸ List.mem_cons_self)
    exact absurd hdigit (by decide)
  rw [boundedNumber?, natural?_ofNat, Option.filter_some, if_pos (decide_eq_true h)]
  exact hplus

theorem Text.lt_of_boundedNumber? {n bound : Nat} {t : Text} (h : boundedNumber? bound t = some n) :
    n < bound := by
  unfold boundedNumber? at h
  exact of_decide_eq_true (Option.filter_eq_some_iff.1 h).2

theorem Config.readCount_ofNat {n bound : Nat} (s : Setting) (h : n < bound) :
    readCount bound s (Text.ofNat n) = .ok n := by
  rw [readCount, Text.boundedNumber?_ofNat h]

namespace Setting

/-- A value that its own text stands for. -/
def Steady (s : Setting) (v : s.Held) : Prop := s.read (s.write v) = .ok v

theorem steady_bool {s : Setting} (b : Bool) :
    Config.readBool s (Config.boolWord b) = .ok b := by
  cases b <;> rfl

theorem steady_keying (k : Keying) : namespaceKeying.Steady k := by
  cases k <;> rfl

theorem steady_maxPasses (n : UInt64) : maxPasses.Steady n := by
  rw [Steady, read, write, Config.readCount_ofNat maxPasses n.toNat_lt]
  exact congrArg Except.ok (Nat.toUInt64_eq.trans UInt64.ofNat_toNat)

theorem steady_maxRepeat (n : UInt32) : maxRepeat.Steady n := by
  rw [Steady, read, write, Config.readCount_ofNat maxRepeat n.toNat_lt]
  exact congrArg Except.ok (Nat.toUInt32_eq.trans UInt32.ofNat_toNat)

/-- The empty directory is the only value without a text of its own, and no text stands for it. -/
theorem steady_of_read {s : Setting} {value : Text} {v : s.Held} (h : s.read value = .ok v) :
    s.Steady v := by
  cases s with
  | tagsDir =>
    obtain rfl := Except.ok.inj h
    cases value <;> rfl
  | saveRawPrompt => exact steady_bool v
  | maxPasses => exact steady_maxPasses v
  | maxRepeat => exact steady_maxRepeat v
  | namespaceKeying => exact steady_keying v
  | debug => exact steady_bool v

theorem steady_standard (s : Setting) : s.Steady (Config.standard.held s) := by
  cases s with
  | tagsDir => rfl
  | saveRawPrompt => rfl
  | maxPasses => exact steady_maxPasses _
  | maxRepeat => exact steady_maxRepeat _
  | namespaceKeying => rfl
  | debug => rfl

end Setting

/-! ### Calls -/

namespace Config

/-- A call that changes the setting with a key: the key and a text for the value. -/
abbrev Call := Text × Text

/-- The configuration after a call. One that is refused changes nothing. -/
def attempt (c : Config) (call : Call) : Config :=
  match c.setKey call.1 call.2 with
  | .ok c' => c'
  | .error _ => c

def run (c : Config) (calls : List Call) : Config := calls.foldl attempt c

/-- The value that a call puts into the cell of a setting, if it is for that setting and not refused. -/
def accepted? (s : Setting) (call : Call) : Option s.Held :=
  if call.1 = s.key.toList then (s.read call.2).toOption else none

variable (c d : Config) {s : Setting} {key value : Text}

theorem setKey_key (s : Setting) (value : Text) :
    c.setKey s.key.toList value = (s.read value).map (c.put s) := by
  rw [setKey, settingOf, s.ofKey?_key]
  exact c.set_eq_put s value

theorem setKey_of_ofKey?_none (h : Setting.ofKey? key = none) (value : Text) :
    c.setKey key value = .error (.unknownKey key) := by
  rw [setKey, settingOf, h]
  rfl

theorem getKey_key (s : Setting) : c.getKey s.key.toList = .ok (s.write (c.held s)) := by
  rw [getKey, settingOf, s.ofKey?_key]
  exact congrArg Except.ok (c.get_eq_write s)

theorem exists_of_getKey (h : c.getKey key = .ok value) :
    ∃ s : Setting, key = s.key.toList ∧ value = s.write (c.held s) := by
  cases hs : Setting.ofKey? key with
  | none =>
    rw [getKey, settingOf, hs] at h
    cases h
  | some s =>
    obtain rfl := Setting.ofKey?_eq_some_iff.1 hs
    rw [getKey_key] at h
    exact ⟨s, rfl, (Except.ok.inj h).symm⟩

theorem setKey_key_eq_ok_iff (s : Setting) {c' : Config} :
    c.setKey s.key.toList value = .ok c' ↔ ∃ v, s.read value = .ok v ∧ c' = c.put s v := by
  rw [setKey_key]
  cases s.read value <;> simp [Except.map, eq_comm]

/-- A call that is not refused puts a value into the cell of the setting with its key. -/
theorem setKey_eq_ok_iff {c' : Config} :
    c.setKey key value = .ok c' ↔
      ∃ (s : Setting) (v : s.Held), key = s.key.toList ∧ s.read value = .ok v ∧ c' = c.put s v := by
  constructor
  · intro h
    cases hs : Setting.ofKey? key with
    | none =>
      rw [c.setKey_of_ofKey?_none hs] at h
      cases h
    | some s =>
      obtain rfl := Setting.ofKey?_eq_some_iff.1 hs
      obtain ⟨v, hv, rfl⟩ := (c.setKey_key_eq_ok_iff s).1 h
      exact ⟨s, v, rfl, hv, rfl⟩
  · rintro ⟨s, v, rfl, hv, rfl⟩
    exact (c.setKey_key_eq_ok_iff s).2 ⟨v, hv, rfl⟩

/-- Whether a call is refused, and why, does not depend on the configuration. -/
theorem setKey_eq_error_iff {fault : ConfigFault} :
    c.setKey key value = .error fault ↔ d.setKey key value = .error fault := by
  cases hs : Setting.ofKey? key with
  | none => rw [c.setKey_of_ofKey?_none hs, d.setKey_of_ofKey?_none hs]
  | some s =>
    obtain rfl := Setting.ofKey?_eq_some_iff.1 hs
    rw [setKey_key, setKey_key]
    cases s.read value <;> simp [Except.map]

theorem accepted?_eq_some_iff {call : Call} {v : s.Held} :
    accepted? s call = some v ↔ call.1 = s.key.toList ∧ s.read call.2 = .ok v := by
  rw [accepted?]
  split
  · next hkey => cases s.read call.2 <;> simp [hkey, Except.toOption]
  · next hkey => simp [hkey]

theorem held_attempt (s : Setting) (call : Call) :
    (c.attempt call).held s = (accepted? s call).getD (c.held s) := by
  obtain ⟨key, value⟩ := call
  rw [attempt, accepted?]
  cases hs : Setting.ofKey? key with
  | none =>
    have hkey : key ≠ s.key.toList := by
      intro hkey
      rw [hkey, s.ofKey?_key] at hs
      cases hs
    simp only [c.setKey_of_ofKey?_none hs, if_neg hkey, Option.getD_none]
  | some s' =>
    obtain rfl := Setting.ofKey?_eq_some_iff.1 hs
    by_cases hsame : s = s'
    · subst hsame
      rw [if_pos rfl, setKey_key]
      cases s.read value with
      | error fault => rfl
      | ok v => exact c.held_put s v
    · have hkey : s'.key.toList ≠ s.key.toList := fun hkey => hsame (Setting.key_toList_inj.1 hkey).symm
      rw [if_neg hkey, setKey_key]
      cases s'.read value with
      | error fault => rfl
      | ok v => exact c.held_put_of_ne hsame v

theorem run_append (calls more : List Call) : c.run (calls ++ more) = (c.run calls).run more :=
  List.foldl_append

/-- After calls a cell holds the last value that was put into it, or what it held before. -/
theorem held_run (s : Setting) (calls : List Call) :
    (c.run calls).held s = ((calls.filterMap (accepted? s)).getLast?).getD (c.held s) := by
  induction calls generalizing c with
  | nil => rfl
  | cons call calls ih =>
    change ((c.attempt call).run calls).held s = _
    rw [ih, held_attempt, List.filterMap_cons]
    cases accepted? s call with
    | none => rfl
    | some v => simp [List.getLast?_cons]

/-- None of some calls changes a setting: all that are for it are refused. -/
def LeavesAlone (calls : List Call) (s : Setting) : Prop :=
  ∀ call ∈ calls, call.1 = s.key.toList → ∃ fault, standard.setKey call.1 call.2 = .error fault

theorem leavesAlone_iff {calls : List Call} :
    LeavesAlone calls s ↔ ∀ call ∈ calls, accepted? s call = none := by
  refine forall₂_congr fun call _ => ?_
  rw [accepted?]
  split
  · next hkey =>
    rw [hkey, setKey_key]
    cases s.read call.2 <;> simp [Except.map, Except.toOption]
  · next hkey => simp [hkey]

theorem filterMap_accepted?_eq_nil {calls : List Call} (h : LeavesAlone calls s) :
    calls.filterMap (accepted? s) = [] := List.filterMap_eq_nil_iff.2 (leavesAlone_iff.1 h)

/-- The value that was put into a cell last is the one of a call after which all others leave the cell alone. -/
theorem getLast?_accepted?_eq_some_iff {calls : List Call} {v : s.Held} :
    (calls.filterMap (accepted? s)).getLast? = some v ↔
      ∃ before value after, calls = before ++ (s.key.toList, value) :: after ∧
        LeavesAlone after s ∧ s.read value = .ok v := by
  rw [List.getLast?_filterMap, List.findSome?_eq_some_iff]
  constructor
  · rintro ⟨after, ⟨key, value⟩, before, hcalls, hcall, hafter⟩
    obtain ⟨rfl, hread⟩ := accepted?_eq_some_iff.1 hcall
    refine ⟨before.reverse, value, after.reverse, ?_, ?_, hread⟩
    · rw [← List.reverse_reverse calls, hcalls, List.reverse_append, List.reverse_cons, List.append_assoc]
      rfl
    · exact leavesAlone_iff.2 fun call hmem => hafter call (List.mem_reverse.1 hmem)
  · rintro ⟨before, value, after, rfl, hafter, hread⟩
    refine ⟨after.reverse, (s.key.toList, value), before.reverse, by simp,
      accepted?_eq_some_iff.2 ⟨rfl, hread⟩, fun call hmem => ?_⟩
    exact leavesAlone_iff.1 hafter call (List.mem_reverse.1 hmem)

theorem held_run_of_leavesAlone {calls : List Call} (h : LeavesAlone calls s) :
    (c.run calls).held s = c.held s := by
  rw [held_run, filterMap_accepted?_eq_nil h]
  rfl

theorem steady_run (s : Setting) (calls : List Call) : s.Steady ((standard.run calls).held s) := by
  rw [held_run]
  cases hlast : (calls.filterMap (accepted? s)).getLast? with
  | none => exact s.steady_standard
  | some v =>
    -- what was put last is what some text was read as
    obtain ⟨call, -, hcall⟩ := List.mem_filterMap.1 (List.mem_of_getLast? hlast)
    exact Setting.steady_of_read (accepted?_eq_some_iff.1 hcall).2

end Config

end PromptTags
