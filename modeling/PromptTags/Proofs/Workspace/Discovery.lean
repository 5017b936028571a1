import PromptTags.Proofs.Files.Ancestors
import PromptTags.Proofs.Files.Directories
import PromptTags.Workspace.Root

/-! Finding the workspace that a directory belongs to. The directories on the way up are looked at one after the
other until one of them holds a state directory, so that the nearest workspace is found, and the way is no longer
than the path. -/
namespace PromptTags.Workspace

variable {σ : Type}

theorem run_lift_bind {α β : Type} (x : StateM σ α) (f : α → ExceptT Failure (StateM σ) β) (s : σ) :
    ((liftM x : ExceptT Failure (StateM σ) α) >>= f).run s = (f (x s).1).run (x s).2 := rfl

variable [FileAccess (StateM σ)]

/-- What stands at a path can be seen in every state, and looking there changes nothing of what stands anywhere. -/
structure Lookups (kind : σ → Path → Option FileKind) (look : Path → σ → σ) : Prop where
  kind?_eq : ∀ p s, (FileAccess.kind? p : StateM σ _) s = (kind s p, look p s)
  kind_look : ∀ p s, kind (look p s) = kind s

/-- On a disk looking changes nothing at all. -/
theorem lookups_disk : Lookups (fun (d : Disk) p => (d.find? p).map Disk.kindOf) fun _ d => d where
  kind?_eq _ _ := rfl
  kind_look _ _ := rfl

variable {kind : σ → Path → Option FileKind} {look : Path → σ → σ}

/-- Looking at a directory for its state directory. -/
theorem isRoot_eq (h : Lookups kind look) (dir : Path) (s : σ) :
    (isRoot dir : StateM σ Bool) s =
      (decide (kind s (stateDir dir) = some .directory), look (stateDir dir) s) := by
  have hlook := congrArg (fun r => (decide (r.1 = some FileKind.directory), r.2)) (h.kind?_eq (stateDir dir) s)
  exact hlook

/-- The first root among some directories is found by looking at them up to it. -/
theorem firstRoot_run (h : Lookups kind look) (dirs : List Path) (s : σ) :
    (firstRoot dirs : StateM σ _) s =
      (dirs.find? fun dir => kind s (stateDir dir) = some .directory,
        (dirs.take (dirs.findIdx (fun dir => kind s (stateDir dir) = some .directory) + 1)).foldl
          (fun s dir => look (stateDir dir) s) s) := by
  induction dirs generalizing s with
  | nil => rfl
  | cons dir dirs ih =>
    have hstep : (firstRoot (dir :: dirs) : StateM σ _) s =
        (if ((isRoot dir : StateM σ Bool) s).1 then pure (some dir) else firstRoot dirs : StateM σ _)
          ((isRoot dir : StateM σ Bool) s).2 := rfl
    rw [hstep, isRoot_eq h, List.find?_cons, List.findIdx_cons]
    cases decide (kind s (stateDir dir) = some .directory) with
    | true => simp; rfl
    | false =>
      -- a look at the first directory does not change what is seen at the others
      simp [ih, h.kind_look]

/-- The way up is searched for a root, and the failure names the directory that it starts from. -/
theorem discoverFrom_run (h : Lookups kind look) (start : Path) (s : σ) :
    (discoverFrom start : ExceptT Failure (StateM σ) Path).run s =
      (match start.ancestors.find? fun dir => kind s (stateDir dir) = some .directory with
        | some root => .ok root
        | none => .error (.notWorkspace start),
        ((firstRoot start.ancestors : StateM σ _) s).2) := by
  rw [discoverFrom, run_lift_bind, firstRoot_run h]
  cases start.ancestors.find? fun dir => decide (kind s (stateDir dir) = some .directory) <;> rfl

/-- The workspace that is found is the nearest one on the way up, and if there is none there the failure names the
directory where the way starts. The directories on the way are looked at one after the other, none of them twice,
and there is at most one more of them than the path has components: each step takes the last component away, until
the root or the empty path is reached. -/
theorem discoverFrom_finds_nearest_root (h : Lookups kind look) (start : Path) (s : σ) :
    let holds (dir : Path) : Prop := kind s (Path.join dir (Text.lit ".promptsel")) = some .directory
    let found := (discoverFrom start : ExceptT Failure (StateM σ) Path).run s
    (∀ root, found.1 = .ok root ↔ ∃ n, Path.above? n start = some root ∧ holds root ∧
      ∀ k < n, ∀ dir, Path.above? k start = some dir → ¬ holds dir) ∧
    (∀ e, found.1 = .error e ↔
      e = .notWorkspace start ∧ ∀ n dir, Path.above? n start = some dir → ¬ holds dir) ∧
    (∃ looked : List Path, found.2 = looked.foldl (fun s dir => look (stateDir dir) s) s ∧
      (∀ i dir, looked[i]? = some dir → Path.above? i start = some dir) ∧
      looked.length ≤ (Path.components start).length + 1) ∧
    ∀ n dir, Path.above? n start = some dir →
      (∃ passed, Path.components start = Path.components dir ++ passed ∧ passed.length = n) ∧
      (Path.above? (n + 1) start = none → Path.components dir = [] ∨ Path.components dir = [.root]) := by
  intro holds found
  have hfound : found = _ := discoverFrom_run h start s
  have hsome (root : Path) : (start.ancestors.find? fun dir => kind s (stateDir dir) = some .directory) = some root ↔
      ∃ n, Path.above? n start = some root ∧ holds root ∧
        ∀ k < n, ∀ dir, Path.above? k start = some dir → ¬ holds dir := by
    rw [Path.find?_ancestors_eq_some_iff]
    simp only [decide_eq_true_eq, decide_eq_false_iff_not]
    rfl
  have hnone : (start.ancestors.find? fun dir => kind s (stateDir dir) = some .directory) = none ↔
      ∀ n dir, Path.above? n start = some dir → ¬ holds dir := by
    simp only [List.find?_eq_none, Path.mem_ancestors, decide_eq_true_eq]
    exact ⟨fun h n dir hdir => h dir ⟨n, hdir⟩, fun h dir ⟨n, hdir⟩ => h n dir hdir⟩
  refine ⟨fun root => ?_, fun e => ?_, ?_, fun n dir hdir => ⟨Path.components_of_above? hdir, fun hend => ?_⟩⟩
  · rw [hfound, ← hsome]
    cases start.ancestors.find? fun dir => decide (kind s (stateDir dir) = some .directory) <;> simp
  · rw [hfound, ← hnone]
    cases start.ancestors.find? fun dir => decide (kind s (stateDir dir) = some .directory) <;> simp [eq_comm]
  · refine ⟨_, by rw [hfound, firstRoot_run h], fun i dir hi => ?_, ?_⟩
    · rw [List.getElem?_take] at hi
      split at hi
      · rwa [← Path.getElem?_ancestors]
      · cases hi
    · exact Nat.le_trans (List.length_take_le' _ _) (Path.length_ancestors_le start)
  · rw [Path.above?_succ, hdir] at hend
    exact Path.parent?_eq_none_iff.1 hend

/-- Two steps up, past a file with the name of a state directory; and out of the reach of the workspace, by a path
that is taken from the current directory. -/
theorem discoverFrom_finds_nearest_root_past_file :
    let state : Text × FileTree := (Text.lit ".promptsel", .directory [])
    let inner : Text × FileTree := (Text.lit "a", .directory
      [(Text.lit ".promptsel", .file (.text [])), (Text.lit "b", .directory [])])
    let d : Disk := ⟨.directory [(Text.lit "w", .directory [state, inner])], [Text.lit "w", Text.lit "a"], []⟩
    Lookups (fun (d : Disk) p => (d.find? p).map Disk.kindOf) (fun _ d => d) ∧
    ((discoverFrom (Text.lit "/w/a//b/.") : ExceptT Failure (StateM Disk) Path).run d).1 = .ok (Text.lit "/w") ∧
    ((discoverFrom (Text.lit "./b") : ExceptT Failure (StateM Disk) Path).run d).1 =
      .error (.notWorkspace (Text.lit "./b")) := by
  intro state inner d
  refine ⟨lookups_disk, ?_, ?_⟩
  · obtain ⟨hroot, -⟩ := discoverFrom_finds_nearest_root lookups_disk (Text.lit "/w/a//b/.") d
    have hbefore : ∀ k < 2, ∀ dir ∈ Path.above? k (Text.lit "/w/a//b/."),
        ¬ (d.find? (Path.join dir (Text.lit ".promptsel"))).map Disk.kindOf = some .directory := by decide
    exact (hroot _).2 ⟨2, by decide, by decide, hbefore⟩
  · obtain ⟨-, hnone, -, hway⟩ := discoverFrom_finds_nearest_root lookups_disk (Text.lit "./b") d
    have hall : ∀ n < 3, ∀ dir ∈ Path.above? n (Text.lit "./b"),
        ¬ (d.find? (Path.join dir (Text.lit ".promptsel"))).map Disk.kindOf = some .directory := by decide
    refine (hnone _).2 ⟨rfl, fun n dir hdir => hall n ?_ dir hdir⟩
    obtain ⟨⟨passed, hpassed, rfl⟩, -⟩ := hway n dir hdir
    have hlength : (Path.components (Text.lit "./b")).length = 2 := by decide
    rw [hpassed, List.length_append] at hlength
    omega

end PromptTags.Workspace
