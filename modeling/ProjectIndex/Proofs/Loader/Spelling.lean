import Mathlib
import ProjectIndex.Proofs.Searches

/-!
# Spellings of a directory

A directory has many spellings: relative and absolute ones, some through links, some that go up and down
again, some with slashes and periods that say nothing.  What is listed below a directory, found there or
loaded from it depends on the place to which the spelling leads, since everything goes on from the
canonical form of that place.

There is one way in which a spelling shows.  It is made canonical by asking for the absolute path of every
node that it passes, and where one of these is too long there is no canonical form and nothing is listed.
Up to that, all spellings of a directory give the same: `Settings.loadProject_spelling`.  The exception is
real: deep in the tree a step down and up again is enough to lose a project (`Settings.loadProject_shaft`).

Only a failure may show more of the spelling, because its message shows the path as it was given.
-/

namespace ProjectIndex

variable {d : Disk} {p q root : Path} {place : List FileName} {children : List (FileName × Tree)}

namespace Disk

theorem LeadsTo.resolve {t : Tree} (leads : d.LeadsTo p place) (there : d.root.find? place = some t) :
    d.resolve p = .ok (place, t) :=
  resolve_eq_ok_iff.mpr ⟨locate_eq_ok_iff.mpr leads, there⟩

theorem LeadsTo.node? {t : Tree} (leads : d.LeadsTo p place) (there : d.root.find? place = some t) :
    d.node? p = some t :=
  node?_eq_some_iff.mpr ⟨place, leads.resolve there⟩

theorem LeadsTo.isDirectory (leads : d.LeadsTo p place)
    (there : d.root.find? place = some (.directory children)) : d.isDirectory p = true :=
  isDirectory_iff.mpr ⟨children, leads.node? there⟩

/-- **The canonical form of a path that leads to a directory is another one,** and its own canonical form,
if it can be asked for at all. -/
theorem LeadsTo.canonical (proper : d.root.Proper) (storable : d.root.Storable) (leads : d.LeadsTo p place)
    (there : d.root.find? place = some (.directory children)) (canonical : d.canonical p = .ok root)
    (short : root.bytes.length ≤ pathLimit) : d.LeadsTo root place ∧ d.canonical root = .ok root := by
  obtain ⟨⟨names, t, resolved, rfl⟩, -⟩ := canonical_eq_ok_iff.mp canonical
  obtain ⟨rfl, -⟩ := Prod.mk.inj (Except.ok.inj (resolved.symm.trans (leads.resolve there)))
  have straight := resolve_ofNames proper storable there nofun (.inr rfl) short
  exact ⟨locate_eq_ok_iff.mp (resolve_eq_ok_iff.mp straight).1,
    canonical_ofNames proper storable there nofun (.inr rfl) short⟩

/-- In a directory without a canonical form nothing is listed. -/
theorem value_list_of_canonical_error {e : IoError} (refused : d.canonical p = .error e) (isDeep : Bool) :
    (d.list p isDeep).value = [] := by
  cases there : d.isDirectory p with
  | false => exact value_list_of_not_isDirectory there
  | true =>
      rw [list, there, refused]
      rfl

section Spelling

variable (hp : d.LeadsTo p place) (there : d.root.find? place = some (.directory children))

include hp there

theorem LeadsTo.canonical_eq :
    d.canonical p = if d.StaysShort p then .ok (.ofNames place) else .error .nameTooLong :=
  canonical_of_resolve (hp.resolve there)

variable (hq : d.LeadsTo q place) (same : d.StaysShort p ↔ d.StaysShort q)

include hq same

theorem canonical_spelling : d.canonical p = d.canonical q := by
  rw [hp.canonical_eq there, hq.canonical_eq there]
  exact if_congr same rfl rfl

theorem value_list_spelling (isDeep : Bool) : (d.list p isDeep).value = (d.list q isDeep).value := by
  rw [list, list, hp.isDirectory there, hq.isDirectory there, hp.node? there, hq.node? there,
    canonical_spelling hp there hq same]
  cases d.canonical q <;> rfl

end Spelling

end Disk

namespace Settings

variable {s : Settings} {project : Project}

/-- A directory below which nothing is listed holds no project. -/
theorem loadProject_of_list_eq_nil (there : d.isDirectory p = true)
    (unlisted : (d.list p true).value = []) :
    (s.loadProject d p).value = .error (.emptyProject p) := by
  rw [value_loadProject, there, unlisted]
  rfl

/-- A project that is loaded from one spelling is loaded from the other. -/
theorem loadProject_of_spelling (hp : d.LeadsTo p place) (hq : d.LeadsTo q place)
    (there : d.root.find? place = some (.directory children))
    (same : d.StaysShort p ↔ d.StaysShort q)
    (loaded : (s.loadProject d p).value = .ok project) : (s.loadProject d q).value = .ok project := by
  have canonical := Disk.canonical_spelling hp there hq same
  have root : rootOf d p = rootOf d q := by
    rw [rootOf, rootOf, ← canonical, (loadProject_ok loaded).2.1]
  rw [value_loadProject, hp.isDirectory there, Disk.value_list_spelling hp there hq same, root] at loaded
  rw [value_loadProject, hq.isDirectory there]
  dsimp only at loaded ⊢
  split at loaded
  · cases loaded
  split at loaded
  · cases loaded
  next listed =>
  rw [if_neg (by decide), if_neg listed]
  exact loaded

/-- **The spelling of a directory does not matter, unless it asks for too long a path.**  Let two paths
lead to one directory.
* If the paths that are asked for in order to make them canonical stay short for both, or for neither,
  then they have the same canonical form, if any, what is listed below them or found there is the same,
  and a project is loaded from one exactly if it is loaded from the other, and it is the same project.
* A path that does not stay short has no canonical form.  Nothing is listed or found there, and loading
  a project fails as it does for an empty directory.
* On a disk whose paths are short every path to the directory stays short.
* The canonical form is a spelling of the directory too, unless it is too long itself, and so is every
  path that says what one of the two says, with other slashes and periods. -/
theorem loadProject_spelling (hp : d.LeadsTo p place) (hq : d.LeadsTo q place)
    (there : d.root.find? place = some (.directory children)) :
    ((d.StaysShort p ↔ d.StaysShort q) →
        d.canonical p = d.canonical q ∧
          (∀ isDeep, (d.list p isDeep).value = (d.list q isDeep).value) ∧
          (∀ suffixes isDeep, (d.findWithSuffixes p suffixes isDeep).value =
            (d.findWithSuffixes q suffixes isDeep).value) ∧
          (∀ name isDeep, (d.findNamedBelow p name isDeep).value =
            (d.findNamedBelow q name isDeep).value) ∧
          ∀ (s : Settings) (project : Project),
            (s.loadProject d p).value = .ok project ↔ (s.loadProject d q).value = .ok project) ∧
      (¬ d.StaysShort p →
        d.canonical p = .error .nameTooLong ∧
          (∀ isDeep, (d.list p isDeep).value = []) ∧
          (∀ suffixes isDeep, (d.findWithSuffixes p suffixes isDeep).value = none) ∧
          (∀ name isDeep, (d.findNamedBelow p name isDeep).value = none) ∧
          ∀ s : Settings, (s.loadProject d p).value = .error (.emptyProject p)) ∧
      (d.root.FitsIn pathLimit → d.StaysShort p) ∧
      (d.root.Proper → d.root.Storable → ∀ root, d.canonical p = .ok root →
        root.bytes.length ≤ pathLimit → d.LeadsTo root place ∧ d.canonical root = .ok root) ∧
      ∀ r : Path, r.Askable → r.components = p.components → d.LeadsTo r place := by
  refine ⟨fun same => ?_, fun spoiled => ?_, hp.staysShort, fun proper storable root canonical short =>
    hp.canonical proper storable there canonical short,
    fun r askable same => hp.of_components there same askable⟩
  · have listed := Disk.value_list_spelling hp there hq same
    refine ⟨Disk.canonical_spelling hp there hq same, listed, fun suffixes isDeep => ?_,
      fun name isDeep => ?_, fun s project => ⟨loadProject_of_spelling hp hq there same,
        loadProject_of_spelling hq hp there same.symm⟩⟩
    · rw [d.value_findWithSuffixes, d.value_findWithSuffixes, listed]
    · rw [d.value_findNamedBelow, d.value_findNamedBelow, listed]
  · have refused : d.canonical p = .error .nameTooLong := by
      rw [hp.canonical_eq there, if_neg spoiled]
    have unlisted := Disk.value_list_of_canonical_error refused
    refine ⟨refused, unlisted, fun suffixes isDeep => ?_, fun name isDeep => ?_, fun s => ?_⟩
    · rw [d.value_findWithSuffixes, unlisted]
      rfl
    · rw [d.value_findNamedBelow, unlisted]
      rfl
    · exact loadProject_of_list_eq_nil (hp.isDirectory there) (unlisted true)

/-- A disk with one directory `/p`, in which there are a link `l` to the root and a source file, and from
which relative paths begin. -/
def attic : Disk :=
  ⟨.directory [(Utf8.encode "p", .directory
    [(Utf8.encode "l", .link (.ofString "/")), (Utf8.encode "a.clua", .file 0)])],
    [⟨[], none⟩], [Utf8.encode "p"]⟩

/-- The directory `/p` through the link, there and back, is the directory `/p`. -/
theorem loadProject_spelling_attic :
    let s := default ⟨none, .ofString "/c"⟩
    attic.LeadsTo (.ofString "l/./p//l/../p/.") [Utf8.encode "p"] ∧
      attic.LeadsTo (.ofString "/p") [Utf8.encode "p"] ∧
      attic.LeadsTo (.ofString "//p/./") [Utf8.encode "p"] ∧
      attic.StaysShort (.ofString "/p") ∧ attic.StaysShort (.ofString "l/./p//l/../p/.") ∧
      (attic.list (.ofString "l/./p//l/../p/.") true).value =
        [.ofPath (.ofString "/p/a.clua") .file, .ofPath (.ofString "/p/l") .other] ∧
      ∃ project, (s.loadProject attic (.ofString "/p")).value = .ok project ∧
        (s.loadProject attic (.ofString "l/./p//l/../p/.")).value = .ok project := by
  intro s
  have winding : attic.LeadsTo (.ofString "l/./p//l/../p/.") [Utf8.encode "p"] :=
    Disk.locate_eq_ok_iff.mp rfl
  have straight : attic.LeadsTo (.ofString "/p") [Utf8.encode "p"] := Disk.locate_eq_ok_iff.mp rfl
  have short : attic.StaysShort (.ofString "/p") := Disk.staysShort_iff.mpr rfl
  have short' : attic.StaysShort (.ofString "l/./p//l/../p/.") := Disk.staysShort_iff.mpr rfl
  have there : attic.isDirectory (.ofString "/p") = true := rfl
  have listed : (attic.list (.ofString "/p") true).value =
      [.ofPath (.ofString "/p/a.clua") .file, .ofPath (.ofString "/p/l") .other] := by cbv
  obtain ⟨project, loaded⟩ : ∃ project, (s.loadProject attic (.ofString "/p")).value = .ok project := by
    rw [value_loadProject, there, listed]
    exact ⟨_, rfl⟩
  obtain ⟨equal, -, -, -, respelled⟩ := loadProject_spelling straight winding rfl
  obtain ⟨-, same, -, -, projects⟩ := equal (iff_of_true short short')
  exact ⟨winding, straight, respelled _ ⟨by decide, by decide, by decide⟩ rfl, short, short',
    (same true).symm.trans listed, project, loaded, (projects s project).mp loaded⟩

-- What the winding path asks for: both links, the directory, and in the end the directory as such.
example : attic.asked (.ofString "l/./p//l/../p/.") =
    [.ofString "/p/l", .ofString "/p", .ofString "/p/l", .ofString "/p/"] := by decide

/-! ### A detour deep in the tree -/

/-- A name that is as long as names may be. -/
def longName : FileName := List.replicate nameLimit 0x61

theorem longName_length : longName.length = nameLimit := List.length_replicate

theorem isName_longName : Path.IsName longName := by decide

/-- A node under `depth` long names, one in another. -/
def deepTree (t : Tree) : (depth : Nat) → Tree
  | 0 => t
  | depth + 1 => .directory [(longName, deepTree t depth)]

/-- The place of the node. -/
def deepPlace (depth : Nat) : List FileName := List.replicate depth longName

theorem deepPlace_succ (depth : Nat) : deepPlace (depth + 1) = longName :: deepPlace depth := rfl

/-- What lies at the bottom of the disk below: one more directory with a long name. -/
def shaftBottom : List (FileName × Tree) := [(longName, .directory [])]

/-- What lies in its root: the bottom under fifteen long names, and a link to it. -/
def shaftTop : List (FileName × Tree) :=
  [(longName, deepTree (.directory shaftBottom) 14), (Utf8.encode "l", .link (.ofNames (deepPlace 15)))]

/-- A disk so deep that no straight path leads to its last directory. -/
def shaft : Disk := ⟨.directory shaftTop, [], []⟩

/-- The path `/l`, and behind it down to the last directory and up again. -/
def detour : Path :=
  ⟨(Path.ofString "/l").bytes ++ Path.slash :: longName ++ Path.slash :: Utf8.encode ".."⟩

theorem find?_deepTree (t : Tree) (depth : Nat) : (deepTree t depth).find? (deepPlace depth) = some t := by
  induction depth with
  | zero => rfl
  | succ depth ih =>
      rw [deepTree, deepPlace_succ, Tree.find?_directory_cons, List.lookup_cons_self, Option.bind_some,
        ih]

theorem find?_shaft : shaft.root.find? (deepPlace 15) = some (.directory shaftBottom) := by
  have first : shaftTop.lookup longName = some (deepTree (.directory shaftBottom) 14) := List.lookup_cons_self
  have root : shaft.root = .directory shaftTop := rfl
  rw [root, deepPlace_succ, Tree.find?_directory_cons, first, Option.bind_some, find?_deepTree]

theorem length_deepPlace (depth : Nat) :
    (Path.ofNames (deepPlace (depth + 1))).bytes.length = (depth + 1) * 256 := by
  have below : ((deepPlace depth).flatMap fun m => Path.slash :: m).length = depth * 256 := by
    simp [deepPlace, List.length_flatMap, longName_length, nameLimit]
  rw [deepPlace_succ, Path.ofNames_cons]
  simp only [List.cons_append, List.length_cons, List.length_append, longName_length, nameLimit, below]
  omega

theorem steps_deepPlace : (Path.ofNames (deepPlace 15)).steps = .stay :: (deepPlace 15).map .down := by
  refine Path.steps_ofNames (fun m member => ?_) (List.cons_ne_nil _ _)
  rw [List.eq_of_mem_replicate member]
  exact isName_longName

theorem leadsTo_shaft : shaft.LeadsTo (.ofString "/l") (deepPlace 15) := by
  have short : ∀ n ∈ deepPlace 15, n.length ≤ nameLimit := fun n member => by
    rw [List.eq_of_mem_replicate member, longName_length]
  have walk : shaft.walk true 0 [] ((deepPlace 15).map .down) = .ok (deepPlace 15) :=
    Disk.walkSteps_down find?_shaft nofun short
  obtain ⟨links, none, route⟩ := Disk.exists_route_of_walk walk
  obtain rfl := Nat.le_zero.mp none
  have onward : shaft.Route 0 ((Path.ofNames (deepPlace 15)).origin [])
      ((Path.ofNames (deepPlace 15)).steps ++ []) (deepPlace 15) := by
    rw [List.append_nil, steps_deepPlace]
    exact .stay rfl route
  exact ⟨⟨by decide, by decide, by decide⟩, 1, by decide, .stay rfl (.follow rfl (by decide) rfl onward)⟩

theorem staysShort_shaft : shaft.StaysShort (.ofString "/l") := by
  have link : shaft.root.find? ([] ++ [Utf8.encode "l"]) = some (.link (.ofNames (deepPlace 15))) := rfl
  have steps : (Path.ofString "/l").steps = [.stay, .down (Utf8.encode "l")] := rfl
  have origin : (Path.ofString "/l").origin shaft.here = [] := rfl
  intro a member
  rw [Disk.asked, steps, origin, Disk.askedAlong_stay, linkLimit, Disk.askedAlong_follow link,
    steps_deepPlace, List.append_nil, Disk.askedAlong_stay] at member
  rcases List.mem_cons.mp member with rfl | below
  · decide
  · have whole : shaft.root.find? ([] ++ deepPlace 15) = some (.directory shaftBottom) := by
      rw [List.nil_append, find?_shaft]
    have most := Disk.asked_le_of_straight whole (by simp) a below
    rw [List.nil_append, length_deepPlace] at most
    exact most.trans (by decide)

theorem askable_detour : detour.Askable where
  nonzero := by
    have ends : 0 ∉ (Path.ofString "/l").bytes ∧ 0 ∉ Utf8.encode ".." := by decide
    simpa [detour, longName, Path.slash] using ends
  nonempty := List.cons_ne_nil _ _
  short := by
    have length : detour.bytes.length = nameLimit + 6 := by
      rw [detour, List.length_append, List.length_append, List.length_cons, longName_length]
      rfl
    rw [length]
    decide

theorem steps_detour : detour.steps = (Path.ofString "/l").steps ++ [.down longName, .up] := by
  have name : Path.slash ∉ longName := fun member =>
    absurd (List.eq_of_mem_replicate member) (by decide)
  have last : Step.ofSegment longName = .down longName := by
    rw [Step.ofSegment, isName_longName.component?]
  rw [detour, Path.steps, Path.segments_append_slash, Path.segments_append_slash,
    Path.segments_of_notMem name, List.map_append, List.map_append, List.map_singleton, last]
  rfl

theorem visits_shaftBottom_ne_nil (isDeep : Bool) :
    Tree.entries (Tree.visits (.ofNames (deepPlace 15)) shaftBottom isDeep) ≠ [] := by
  have sorted : sortByName shaftBottom = shaftBottom := List.mergeSort_singleton _
  have short : (Path.ofNames (deepPlace 15)).bytes.length ≤ pathLimit := by
    rw [length_deepPlace]
    decide
  cases isDeep with
  | true =>
      rw [Tree.visits_deep short, Tree.visitsBelow_eq, sorted, shaftBottom, List.flatMap_singleton,
        Tree.walk_directory]
      exact List.cons_ne_nil _ _
  | false =>
      rw [Tree.visits_shallow short, Tree.visitsWithin, sorted]
      exact List.cons_ne_nil _ _

/-- The path `/l` leads to the directory, and so does the detour.  Through `/l` its child is listed and a
project is loaded; by the detour, which asks for the path of the child, nothing is. -/
theorem loadProject_shaft :
    let p := Path.ofString "/l"
    let s := default ⟨none, .ofString "/c"⟩
    shaft.LeadsTo p (deepPlace 15) ∧ shaft.LeadsTo detour (deepPlace 15) ∧
      shaft.root.find? (deepPlace 15) = some (.directory shaftBottom) ∧
      (∀ isDeep, (shaft.list p isDeep).value ≠ (shaft.list detour isDeep).value) ∧
      (∃ project, (s.loadProject shaft p).value = .ok project) ∧
      (s.loadProject shaft detour).value = .error (.emptyProject detour) := by
  intro p s
  have child : shaftBottom.lookup longName = some (.directory []) := List.lookup_cons_self
  have begins : detour.origin shaft.here = (Path.ofString "/l").origin shaft.here :=
    (if_pos (by decide)).trans (if_pos (by decide)).symm
  have leads : shaft.LeadsTo detour (deepPlace 15) :=
    leadsTo_shaft.of_detour find?_shaft child begins steps_detour longName_length.le askable_detour
  have spoiled : ¬ shaft.StaysShort detour := by
    refine leadsTo_shaft.not_staysShort_of_detour find?_shaft child begins steps_detour ?_
    have deeper : deepPlace 15 ++ [longName] = deepPlace 16 := List.replicate_succ'.symm
    rw [deeper, length_deepPlace]
    decide
  have canonical : shaft.canonical p = .ok (.ofNames (deepPlace 15)) := by
    rw [leadsTo_shaft.canonical_eq find?_shaft, if_pos staysShort_shaft]
  have refused : shaft.canonical detour = .error .nameTooLong := by
    rw [leads.canonical_eq find?_shaft, if_neg spoiled]
  have listed (isDeep : Bool) : (shaft.list p isDeep).value ≠ [] := by
    rw [Disk.value_list_directory (leadsTo_shaft.node? find?_shaft) canonical]
    exact visits_shaftBottom_ne_nil isDeep
  have unlisted := Disk.value_list_of_canonical_error refused
  refine ⟨leadsTo_shaft, leads, find?_shaft, fun isDeep => ?_, ?_, ?_⟩
  · rw [unlisted]
    exact listed isDeep
  · rw [value_loadProject, leadsTo_shaft.isDirectory find?_shaft]
    exact ⟨_, (if_neg (by decide)).trans (if_neg (listed true))⟩
  · exact loadProject_of_list_eq_nil (leads.isDirectory find?_shaft) (unlisted true)

end Settings

end ProjectIndex
