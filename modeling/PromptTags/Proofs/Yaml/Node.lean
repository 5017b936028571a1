import PromptTags.Proofs.Dictionary.Ordered
import PromptTags.Proofs.Yaml.Value

/-! Reading values. A mapping is read entry by entry, each put over those before, so that under a key text stands
the last value with it; but every key and value is read, and a collection as a key is refused also where nothing
of it would be kept. -/
namespace PromptTags.Yaml

/-- The entries of a mapping with a key text, in their order. -/
def Value.under (key : Text) (entries : List (Value × Value)) : List (Value × Value) :=
  entries.filter fun entry => entry.1.text? = some key

namespace Node

open Value (Intact HasCollectionKey Within under)

variable {v w : Value} {items : List Value} {nodes : List Node} {entries : List (Value × Value)} {key : Text}
  {node : Node} {e : Refusal}

/-! ### Plain values -/

theorem ofValue_of_text? {t : Text} (h : v.text? = some t) : ∃ node, ofValue v = .ok node ∧ node.plain? = some t := by
  cases v with
  | null => exact ⟨_, rfl, h⟩
  | bool b => cases b <;> exact ⟨_, rfl, h⟩
  | int i => exact ⟨_, rfl, h⟩
  | float x => exact ⟨_, rfl, h⟩
  | text t => exact ⟨_, rfl, h⟩
  | sequence => cases h
  | mapping => cases h
  | broken => cases h

theorem ofValue_sequence_eq_ok_iff :
    ofValue (.sequence items) = .ok node ↔ ∃ nodes, ofItems items = .ok nodes ∧ node = .sequence nodes := by
  rw [ofValue]
  cases ofItems items <;> simp [eq_comm]

theorem ofValue_sequence_eq_error_iff : ofValue (.sequence items) = .error e ↔ ofItems items = .error e := by
  rw [ofValue]
  cases ofItems items <;> simp

theorem ofValue_mapping_eq_ok_iff :
    ofValue (.mapping entries) = .ok node ↔ ∃ nodes, ofEntries [] entries = .ok nodes ∧ node = .mapping nodes := by
  rw [ofValue]
  cases ofEntries [] entries <;> simp [eq_comm]

theorem ofValue_mapping_eq_error_iff : ofValue (.mapping entries) = .error e ↔ ofEntries [] entries = .error e := by
  rw [ofValue]
  cases ofEntries [] entries <;> simp

/-- What is read of a value has its text, and a collection has none. -/
theorem plain?_of_ofValue (h : ofValue v = .ok node) : node.plain? = v.text? := by
  cases htext : v.text? with
  | some t =>
    obtain ⟨node', hnode', hplain⟩ := ofValue_of_text? htext
    rw [← hplain, Except.ok.inj (h.symm.trans hnode')]
  | none =>
    cases v with
    | sequence => obtain ⟨nodes, -, rfl⟩ := ofValue_sequence_eq_ok_iff.1 h; rfl
    | mapping => obtain ⟨nodes, -, rfl⟩ := ofValue_mapping_eq_ok_iff.1 h; rfl
    | broken => cases h
    | _ => cases htext

/-! ### Items and entries -/

theorem ofItems_eq_ok_iff : ofItems items = .ok nodes ↔ items.map ofValue = nodes.map .ok := by
  induction items generalizing nodes with
  | nil => cases nodes <;> simp [ofItems]
  | cons v vs ih =>
    rw [ofItems]
    cases hv : ofValue v with
    | error e => cases nodes <;> simp [hv]
    | ok node =>
      cases hvs : ofItems vs with
      | error e =>
        rw [hvs] at ih
        cases nodes <;> simp [hv, ← ih]
      | ok rest =>
        rw [hvs] at ih
        cases nodes <;> simp [hv, ← ih]

/-- An item that cannot be read is met where reading a sequence fails. -/
theorem exists_of_ofItems_eq_error (h : ofItems items = .error e) : ∃ item ∈ items, ofValue item = .error e := by
  induction items with
  | nil => cases h
  | cons v vs ih =>
    rw [ofItems] at h
    split at h
    · next hv => exact ⟨v, List.mem_cons_self, Except.error.inj h ▸ hv⟩
    · split at h
      · next hvs =>
        obtain ⟨item, hitem, herror⟩ := ih (Except.error.inj h ▸ hvs)
        exact ⟨item, List.mem_cons_of_mem v hitem, herror⟩
      · cases h

variable {before after : Keyed Node} {entry : Value × Value}

/-- An entry is read if its key has a text and its value is read, and is put over the entries before. -/
theorem ofEntries_cons_eq_ok_iff : ofEntries before (entry :: entries) = .ok after ↔
    ∃ text node, entry.1.text? = some text ∧ ofValue entry.2 = .ok node ∧
      ofEntries (Keyed.insert text node before) entries = .ok after := by
  obtain ⟨k, v⟩ := entry
  rw [ofEntries]
  constructor
  · intro h
    split at h
    · cases h
    · next key hkey =>
      split at h
      · cases h
      · next node hnode =>
        split at h
        · cases h
        · next text htext => exact ⟨text, node, plain?_of_ofValue hkey ▸ htext, hnode, h⟩
  · rintro ⟨text, node, htext, hnode, h⟩
    obtain ⟨key, hkey, hplain⟩ := ofValue_of_text? htext
    simpa only [hkey, hnode, hplain] using h

/-- Reading entries fails at a key or a value that cannot be read, or at a collection as a key. -/
theorem exists_of_ofEntries_eq_error (h : ofEntries before entries = .error e) :
    ∃ entry ∈ entries, ofValue entry.1 = .error e ∨ ofValue entry.2 = .error e ∨
      e = .collectionKey ∧ entry.1.isCollection = true := by
  induction entries generalizing before with
  | nil => cases h
  | cons entry rest ih =>
    obtain ⟨k, v⟩ := entry
    rw [ofEntries] at h
    split at h
    · next hk => exact ⟨(k, v), List.mem_cons_self, .inl (Except.error.inj h ▸ hk)⟩
    · next key hkey =>
      split at h
      · next hv => exact ⟨(k, v), List.mem_cons_self, .inr (.inl (Except.error.inj h ▸ hv))⟩
      · split at h
        · next hplain =>
          rw [plain?_of_ofValue hkey, Value.text?_eq_none_iff] at hplain
          rcases hplain with hcollection | ⟨fault, rfl⟩
          · exact ⟨(k, v), List.mem_cons_self, .inr (.inr ⟨(Except.error.inj h).symm, hcollection⟩)⟩
          · cases hkey
        · obtain ⟨entry, hentry, herror⟩ := ih h
          exact ⟨entry, List.mem_cons_of_mem _ hentry, herror⟩

/-- All entries of a mapping that is read have a key text and a value that is read. -/
theorem of_mem_of_ofEntries (h : ofEntries before entries = .ok after) (hentry : entry ∈ entries) :
    (∃ text, entry.1.text? = some text) ∧ ∃ node, ofValue entry.2 = .ok node := by
  induction entries generalizing before with
  | nil => cases hentry
  | cons first rest ih =>
    obtain ⟨text, node, htext, hnode, h⟩ := ofEntries_cons_eq_ok_iff.1 h
    rcases List.mem_cons.1 hentry with rfl | hentry
    · exact ⟨⟨text, htext⟩, node, hnode⟩
    · exact ih h hentry

/-- Under a key text stands the value of the last entry with that text, if there is one. -/
theorem get?_ofEntries (h : ofEntries before entries = .ok after) (key : Text) :
    Keyed.get? key after =
      (under key entries).getLast?.elim (Keyed.get? key before) fun entry => (ofValue entry.2).toOption := by
  -- what is read before is left open, since the first entry is put over it
  induction entries generalizing before with
  | nil =>
    cases h
    rfl
  | cons entry rest ih =>
    obtain ⟨text, node, htext, hnode, h⟩ := ofEntries_cons_eq_ok_iff.1 h
    rw [ih h, Keyed.get?_insert]
    by_cases hkey : key = text
    · have hunder : under key (entry :: rest) = entry :: under key rest := by
        rw [under, List.filter_cons_of_pos (by simp [htext, hkey])]
        rfl
      rw [hunder, List.getLast?_cons, if_pos hkey]
      cases (under key rest).getLast? <;> simp [hnode, Except.toOption]
    · have hunder : under key (entry :: rest) = under key rest := by
        rw [under, List.filter_cons_of_neg (by simp [htext, Ne.symm hkey])]
        rfl
      rw [hunder, if_neg hkey]

/-! ### Failures -/

/-- Why a value can be refused: it breaks off somewhere, or has a collection as a key somewhere. -/
def IsBlamed (e : Refusal) (v : Value) : Prop :=
  (∃ fault, Within (.broken fault) v) ∨ e = .collectionKey ∧ HasCollectionKey v

theorem IsBlamed.mono (h : IsBlamed e v) (hwithin : ∀ u, Within u v → Within u w) : IsBlamed e w := by
  rcases h with ⟨fault, hbroken⟩ | ⟨he, entries, hmapping, hkey⟩
  · exact .inl ⟨fault, hwithin _ hbroken⟩
  · exact .inr ⟨he, entries, hwithin _ hmapping, hkey⟩

theorem isBlamed_of_ofValue (h : ofValue v = .error e) : IsBlamed e v := by
  induction v with
  | plain v t ht =>
    obtain ⟨node, hnode, -⟩ := ofValue_of_text? ht
    rw [hnode] at h
    cases h
  | broken fault => exact .inl ⟨fault, .refl⟩
  | sequence items ih =>
    obtain ⟨item, hitem, herror⟩ := exists_of_ofItems_eq_error (ofValue_sequence_eq_error_iff.1 h)
    exact (ih item hitem herror).mono fun _ => .item hitem
  | mapping entries ih =>
    obtain ⟨entry, hentry, herror⟩ := exists_of_ofEntries_eq_error (ofValue_mapping_eq_error_iff.1 h)
    rcases herror with herror | herror | ⟨rfl, hcollection⟩
    · exact ((ih entry hentry).1 herror).mono fun _ => .key hentry
    · exact ((ih entry hentry).2 herror).mono fun _ => .value hentry
    · exact .inr ⟨rfl, entries, .refl, entry, hentry, hcollection⟩

/-- A value that is read has no collection as a key, not even in what is not kept of it. -/
theorem not_hasCollectionKey_of_ofValue (h : ofValue v = .ok node) : ¬ HasCollectionKey v := by
  induction v generalizing node with
  | plain v t ht => exact Value.not_hasCollectionKey_of_text? ht
  | broken => cases h
  | sequence items ih =>
    obtain ⟨nodes, hitems, -⟩ := ofValue_sequence_eq_ok_iff.1 h
    rw [Value.hasCollectionKey_sequence]
    rintro ⟨item, hitem, hkey⟩
    have hmem := List.mem_map_of_mem (f := ofValue) hitem
    rw [ofItems_eq_ok_iff.1 hitems] at hmem
    obtain ⟨node, -, hnode⟩ := List.mem_map.1 hmem
    exact ih item hitem hnode.symm hkey
  | mapping entries ih =>
    obtain ⟨nodes, hentries, -⟩ := ofValue_mapping_eq_ok_iff.1 h
    rw [Value.hasCollectionKey_mapping]
    rintro ⟨entry, hentry, hkey⟩
    obtain ⟨⟨text, htext⟩, node, hnode⟩ := of_mem_of_ofEntries hentries hentry
    -- the key has a text, so that it is no collection and nothing is within it
    rcases hkey with hcollection | hkey | hkey
    · rw [Value.text?_eq_none_iff.2 (.inl hcollection)] at htext
      cases htext
    · exact Value.not_hasCollectionKey_of_text? htext hkey
    · exact (ih entry hentry).2 hnode hkey

/-- A value that breaks off nowhere is read unless it has a collection as a key somewhere. -/
theorem ofValue_eq_error_iff (h : Intact v) : ofValue v = .error e ↔ e = .collectionKey ∧ HasCollectionKey v := by
  constructor
  · intro herror
    exact (isBlamed_of_ofValue herror).resolve_left fun ⟨fault, hbroken⟩ => h fault hbroken
  · rintro ⟨rfl, hkey⟩
    -- it is refused, and there is nothing else to blame
    cases hv : ofValue v with
    | ok node => exact absurd hkey (not_hasCollectionKey_of_ofValue hv)
    | error e =>
      obtain ⟨rfl, -⟩ := (isBlamed_of_ofValue hv).resolve_left fun ⟨fault, hbroken⟩ => h fault hbroken
      rfl

theorem exists_ofValue_eq_ok (h : Intact v) (hkey : ¬ HasCollectionKey v) : ∃ node, ofValue v = .ok node := by
  cases hv : ofValue v with
  | ok node => exact ⟨node, rfl⟩
  | error e => exact absurd ((ofValue_eq_error_iff h).1 hv).2 hkey

/-! ### What is read -/

/-- What a value is read as, level by level: a mapping has the key texts of its entries for its keys, and under each
of them what the last entry with that key text is read as. -/
inductive IsRead : Value → Node → Prop
  | null : IsRead .null .null
  | plain {v : Value} {text : Text} (hv : v ≠ .null) (htext : v.text? = some text) : IsRead v (.scalar text)
  | sequence {items : List Value} {nodes : List Node} (hlength : items.length = nodes.length)
      (h : ∀ (i : Nat) item node, items[i]? = some item → nodes[i]? = some node → IsRead item node) :
      IsRead (.sequence items) (.sequence nodes)
  | mapping {entries : List (Value × Value)} {nodes : Keyed Node} (hsorted : Keyed.Sorted nodes)
      (hkeys : ∀ key, (Keyed.get? key nodes).isSome = (under key entries).getLast?.isSome)
      (h : ∀ key last node, (under key entries).getLast? = some last → Keyed.get? key nodes = some node →
        IsRead last.2 node) :
      IsRead (.mapping entries) (.mapping nodes)

theorem isRead_of_text? {t : Text} (ht : v.text? = some t) (h : ofValue v = .ok node) : IsRead v node := by
  cases v with
  | null => cases h; exact .null
  | bool b => cases b <;> cases h <;> exact .plain nofun rfl
  | int => cases h; exact .plain nofun rfl
  | float => cases h; exact .plain nofun rfl
  | text => cases h; exact .plain nofun rfl
  | sequence => cases ht
  | mapping => cases ht
  | broken => cases ht

theorem isRead_of_ofValue (h : ofValue v = .ok node) : IsRead v node := by
  induction v generalizing node with
  | plain v t ht => exact isRead_of_text? ht h
  | broken => cases h
  | sequence items ih =>
    obtain ⟨nodes, hitems, rfl⟩ := ofValue_sequence_eq_ok_iff.1 h
    have hmap := ofItems_eq_ok_iff.1 hitems
    refine .sequence (by simpa using congrArg List.length hmap) fun i item node hitem hnode => ?_
    refine ih item (List.mem_of_getElem? hitem) ?_
    simpa [hitem, hnode] using congrArg (·[i]?) hmap
  | mapping entries ih =>
    obtain ⟨nodes, hentries, rfl⟩ := ofValue_mapping_eq_ok_iff.1 h
    have hget := get?_ofEntries hentries
    have hlast {key : Text} {last : Value × Value} (h : (under key entries).getLast? = some last) :
        last ∈ entries ∧ ∃ node, ofValue last.2 = .ok node := by
      have hmem := (List.mem_filter.1 (List.mem_of_getLast? h)).1
      exact ⟨hmem, (of_mem_of_ofEntries hentries hmem).2⟩
    refine .mapping (entriesOrdered_ofEntries List.Pairwise.nil trivial hentries).1 (fun key => ?_) ?_
    · rw [hget]
      cases h : (under key entries).getLast? with
      | none => rfl
      | some last =>
        obtain ⟨-, node, hnode⟩ := hlast h
        simp [hnode, Except.toOption]
    · intro key last node h hnode
      obtain ⟨hmem, node', hnode'⟩ := hlast h
      rw [hget, h] at hnode
      simp only [Option.elim_some, hnode', Except.toOption, Option.some.injEq] at hnode
      exact (ih last hmem).2 (hnode ▸ hnode')

/-- A value is read as one node only. -/
theorem IsRead.unique {node' : Node} (h : IsRead v node) (h' : IsRead v node') : node = node' := by
  induction h generalizing node' with
  | null =>
    cases h' with
    | null => rfl
    | plain hv => exact absurd rfl hv
  | plain hv htext =>
    cases h' with
    | null => exact absurd rfl hv
    | plain _ htext' => rw [Option.some.inj (htext.symm.trans htext')]
    | sequence => cases htext
    | mapping => cases htext
  | @sequence items nodes hlength _ ih =>
    cases h' with
    | plain _ htext => cases htext
    | @sequence _ nodes' hlength' h' =>
      refine congrArg Node.sequence (List.ext_getElem (hlength.symm.trans hlength') fun i hi hi' => ?_)
      have hitem := List.getElem?_eq_getElem (hlength ▸ hi : i < items.length)
      exact ih i _ _ hitem (List.getElem?_eq_getElem hi) (h' i _ _ hitem (List.getElem?_eq_getElem hi'))
  | @mapping entries nodes hsorted hkeys _ ih =>
    cases h' with
    | plain _ htext => cases htext
    | @mapping _ nodes' hsorted' hkeys' h' =>
      -- both are sorted by key, so it is enough that they agree under each key
      refine congrArg Node.mapping (Keyed.ext_of_sorted hsorted hsorted' fun key => ?_)
      have hsome := hkeys key
      have hsome' := hkeys' key
      cases hlast : (under key entries).getLast? with
      | none =>
        rw [hlast] at hsome hsome'
        rw [Option.isNone_iff_eq_none.1 (Option.isSome_eq_false_iff.1 hsome),
          Option.isNone_iff_eq_none.1 (Option.isSome_eq_false_iff.1 hsome')]
      | some last =>
        rw [hlast] at hsome hsome'
        obtain ⟨node, hnode⟩ := Option.isSome_iff_exists.1 hsome
        obtain ⟨node', hnode'⟩ := Option.isSome_iff_exists.1 hsome'
        rw [hnode, hnode', ih key last node hlast hnode (h' key last node' hlast hnode')]

/-! ### The order of entries -/

/-- Neighbouring entries of mappings that change places, within a value and any number of times. Entries with the
same key text stay in their order. -/
inductive Reordered : Value → Value → Prop
  | refl (v : Value) : Reordered v v
  | trans {u v w : Value} (h : Reordered u v) (h' : Reordered v w) : Reordered u w
  | swap {front back : List (Value × Value)} {a b : Value × Value} (h : a.1.text? ≠ b.1.text?) :
      Reordered (.mapping (front ++ a :: b :: back)) (.mapping (front ++ b :: a :: back))
  | item {front back : List Value} {v w : Value} (h : Reordered v w) :
      Reordered (.sequence (front ++ v :: back)) (.sequence (front ++ w :: back))
  | value {front back : List (Value × Value)} {key v w : Value} (h : Reordered v w) :
      Reordered (.mapping (front ++ (key, v) :: back)) (.mapping (front ++ (key, w) :: back))

theorem under_swap {front back : List (Value × Value)} {a b : Value × Value} (h : a.1.text? ≠ b.1.text?) (key : Text) :
    under key (front ++ a :: b :: back) = under key (front ++ b :: a :: back) := by
  simp only [under, List.filter_append]
  congr 1
  by_cases ha : a.1.text? = some key
  · have hb : b.1.text? ≠ some key := fun hb => h (ha.trans hb.symm)
    simp [ha, hb]
  · simp [List.filter_cons, ha]

/-- For what a mapping is read as, only the entries under each key text matter. -/
theorem IsRead.congr_under {entries' : List (Value × Value)} (h : IsRead (.mapping entries) node)
    (hunder : ∀ key, under key entries = under key entries') : IsRead (.mapping entries') node := by
  cases h with
  | plain _ htext => cases htext
  | mapping hsorted hkeys h =>
    simp only [hunder] at hkeys h
    exact .mapping hsorted hkeys h

/-- A mapping is read alike as long as it has the same entries, and those under each key text in the same order. -/
theorem ofValue_mapping_congr {entries' : List (Value × Value)} (h : Intact (.mapping entries))
    (hperm : entries.Perm entries') (hunder : ∀ key, under key entries = under key entries') :
    ofValue (.mapping entries') = ofValue (.mapping entries) := by
  have h' : Intact (.mapping entries') := by
    rw [Value.intact_mapping] at h ⊢
    exact fun entry hentry => h entry (hperm.mem_iff.2 hentry)
  have hkey' : HasCollectionKey (.mapping entries') ↔ HasCollectionKey (.mapping entries) := by
    simp only [Value.hasCollectionKey_mapping, hperm.mem_iff]
  -- either both are refused, or both are read and the entries under each key text say as what
  by_cases hkey : HasCollectionKey (.mapping entries)
  · rw [(ofValue_eq_error_iff h).2 ⟨rfl, hkey⟩, (ofValue_eq_error_iff h').2 ⟨rfl, hkey'.2 hkey⟩]
  · obtain ⟨node, hnode⟩ := exists_ofValue_eq_ok h hkey
    obtain ⟨node', hnode'⟩ := exists_ofValue_eq_ok h' (mt hkey'.1 hkey)
    rw [hnode, hnode', (isRead_of_ofValue hnode').unique ((isRead_of_ofValue hnode).congr_under hunder)]

theorem ofItems_congr (h : ofValue v = ofValue w) (front back : List Value) :
    ofItems (front ++ v :: back) = ofItems (front ++ w :: back) := by
  induction front with
  | nil => rw [List.nil_append, List.nil_append, ofItems, ofItems, h]
  | cons first front ih => rw [List.cons_append, List.cons_append, ofItems, ofItems, ih]

theorem ofEntries_congr (h : ofValue v = ofValue w) (key : Value) (front back : List (Value × Value)) :
    ofEntries before (front ++ (key, v) :: back) = ofEntries before (front ++ (key, w) :: back) := by
  induction front generalizing before with
  | nil => rw [List.nil_append, List.nil_append, ofEntries, ofEntries, h]
  | cons first front ih => simp only [List.cons_append, ofEntries, ih]

/-- Entries that change places leave a value intact, and it is read as before. -/
theorem Reordered.ofValue_eq (h : Reordered v w) (hv : Intact v) : Intact w ∧ ofValue w = ofValue v := by
  induction h with
  | refl => exact ⟨hv, rfl⟩
  | trans _ _ ih ih' =>
    obtain ⟨hmid, heq⟩ := ih hv
    obtain ⟨hend, heq'⟩ := ih' hmid
    exact ⟨hend, heq'.trans heq⟩
  | @swap front back a b hab =>
    have hperm : (front ++ a :: b :: back).Perm (front ++ b :: a :: back) := (List.Perm.swap b a back).append_left front
    refine ⟨?_, ofValue_mapping_congr hv hperm (under_swap hab)⟩
    rw [Value.intact_mapping] at hv ⊢
    exact fun entry hentry => hv entry (hperm.mem_iff.2 hentry)
  | @item front back v w _ ih =>
    rw [Value.intact_sequence, List.forall_mem_append, List.forall_mem_cons] at hv
    obtain ⟨hw, heq⟩ := ih hv.2.1
    refine ⟨?_, by rw [ofValue, ofValue, ofItems_congr heq]⟩
    rw [Value.intact_sequence, List.forall_mem_append, List.forall_mem_cons]
    exact ⟨hv.1, hw, hv.2.2⟩
  | @value front back key v w _ ih =>
    rw [Value.intact_mapping, List.forall_mem_append, List.forall_mem_cons] at hv
    obtain ⟨hw, heq⟩ := ih hv.2.1.2
    refine ⟨?_, by rw [ofValue, ofValue, ofEntries_congr heq]⟩
    rw [Value.intact_mapping, List.forall_mem_append, List.forall_mem_cons]
    exact ⟨hv.1, ⟨hv.2.1.1, hw⟩, hv.2.2⟩

/-- Reading a value that breaks off nowhere fails just if a mapping at any depth has a collection as a key, be it in an
entry that comes again or in an item that is a collection. Otherwise it is read level by level: a mapping has the key
texts of its entries for keys, and under each of them what its last entry with that text is read as. So it does not
matter in which order entries with different key texts stand. -/
theorem ofValue_keeps_last_entries (h : Intact v) :
    (∀ e, ofValue v = .error e ↔ e = .collectionKey ∧ HasCollectionKey v) ∧
    (¬ HasCollectionKey v → ∃ node, ofValue v = .ok node ∧ IsRead v node ∧ ∀ node', IsRead v node' → node' = node) ∧
    ∀ w, Reordered v w → ofValue w = ofValue v := by
  refine ⟨fun e => ofValue_eq_error_iff h, fun hkey => ?_, fun w hw => (hw.ofValue_eq h).2⟩
  obtain ⟨node, hnode⟩ := exists_ofValue_eq_ok h hkey
  have hread := isRead_of_ofValue hnode
  exact ⟨node, hnode, hread, fun node' hread' => hread'.unique hread⟩

/-- The number one and its text as keys, a null and the empty text below them, and the same with a collection as a key
in an entry that comes again. -/
theorem ofValue_keeps_last_entries_colliding :
    let one : Value × Value := (.int 1, .sequence [.mapping [(.null, .bool true), (.text [], .int 2)]])
    let other : Value × Value := (.bool true, .null)
    let text : Value × Value := (.text (Text.lit "1"), .mapping [(.null, .bool true), (.text [], .int 2)])
    let nested : Value × Value := (.int 1, .sequence [.mapping [(.sequence [], .null)]])
    Intact (.mapping [one, other, text]) ∧ ¬ HasCollectionKey (.mapping [one, other, text]) ∧
    IsRead (.mapping [one, other, text]) (.mapping [(Text.lit "1", .mapping [([], .scalar (Text.lit "2"))]),
      (Text.lit "true", .null)]) ∧
    ofValue (.mapping [other, one, text]) = ofValue (.mapping [one, other, text]) ∧
    Intact (.mapping [nested, other, text]) ∧
    ofValue (.mapping [nested, other, text]) = .error .collectionKey := by
  intro one other text nested
  have hintact : Intact (.mapping [one, other, text]) := by simp [one, other, text]
  have hnested : Intact (.mapping [nested, other, text]) := by simp [nested, other, text]
  have hread : ofValue (.mapping [one, other, text]) = .ok (.mapping
      [(Text.lit "1", .mapping [([], .scalar (Text.lit "2"))]), (Text.lit "true", .null)]) := rfl
  have hkey := not_hasCollectionKey_of_ofValue hread
  obtain ⟨-, hok, horder⟩ := ofValue_keeps_last_entries hintact
  obtain ⟨node, hnode, hisRead, -⟩ := hok hkey
  refine ⟨hintact, hkey, ?_, ?_, hnested, ?_⟩
  · rwa [← Except.ok.inj (hnode.symm.trans hread)]
  · have hswap : Reordered (.mapping [one, other, text]) (.mapping [other, one, text]) :=
      @Reordered.swap [] [text] one other (by decide)
    exact horder _ hswap
  · refine ((ofValue_keeps_last_entries hnested).1 _).2 ⟨rfl, ?_⟩
    exact ⟨[(.sequence [], .null)], .value List.mem_cons_self (.item List.mem_cons_self .refl),
      _, List.mem_cons_self, rfl⟩

end Node

end PromptTags.Yaml
