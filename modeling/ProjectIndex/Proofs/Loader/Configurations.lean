import Mathlib
import ProjectIndex.Proofs.Documents.Collected
import ProjectIndex.Proofs.Listing
import ProjectIndex.Proofs.Loader.Project
import ProjectIndex.Proofs.Path.Parent
import ProjectIndex.Proofs.Table
import ProjectIndex.Proofs.Topics

/-!
# The configurations of a project

A project load collects the documents of all entries that bear the name of configurations, each for the
directory around its entry.  Nothing is lost on the way: `Settings.loadProject_configurations`.

Two tables are filled one after the other, by the path of the entry and then by its parent.  Paths of one
listing are all different, and so are their parents if the last names are the same
(`Path.components_eq_of_parent?`).  So both tables are filled with items of different keys, no key is ever
there already, and what is in the second table is what the entries hold
(`Settings.toList_loadConfigurations`).
-/

namespace ProjectIndex

/-! ### Reports of keys that come again -/

namespace Logged

variable {α β : Type}

/-- It is not reported that a key came again. -/
def NoDuplicate (x : Logged α) : Prop := ∀ key, LogEvent.duplicateKey key ∉ x.events

theorem NoDuplicate.pure (a : α) : (Pure.pure a : Logged α).NoDuplicate := fun _ => List.not_mem_nil

theorem NoDuplicate.report {e : LogEvent} (other : ∀ key, e ≠ .duplicateKey key) :
    (Logged.report e).NoDuplicate := fun key member =>
  other key (List.mem_singleton.mp member).symm

theorem NoDuplicate.bind {x : Logged α} {f : α → Logged β} (first : x.NoDuplicate)
    (then_ : (f x.value).NoDuplicate) : (x >>= f).NoDuplicate := fun key member =>
  (List.mem_append.mp member).elim (first key) (then_ key)

theorem IsQuiet.noDuplicate {x : Logged α} (quiet : x.IsQuiet) : x.NoDuplicate := by
  intro key member
  cases quiet _ member

end Logged

open Logged (NoDuplicate)

/-! ### Loading the documents of a name -/

namespace Disk

variable {d : Disk} {tree : List Entry} {name : String} {allowEmpty : Bool} {e : Entry}

theorem noDuplicate_list (d : Disk) (p : Path) (isDeep : Bool) : (d.list p isDeep).NoDuplicate :=
  (isQuiet_list d p isDeep).noDuplicate

theorem noDuplicate_loadDocument (d : Disk) (p : Path) (allowEmpty : Bool) :
    (d.loadDocument p allowEmpty).NoDuplicate :=
  (isQuiet_loadDocument d p allowEmpty).noDuplicate

theorem noDuplicate_loadInto (d : Disk) (allowEmpty : Bool) (loaded : Table Path Document) (e : Entry) :
    (d.loadInto allowEmpty loaded e).NoDuplicate := by
  refine .bind (noDuplicate_loadDocument d e.path allowEmpty) ?_
  split
  · exact .pure _
  · exact .bind (.report nofun) (.pure _)
  · exact .bind (.report nofun) (.pure _)

/-- Loading the document of an entry into a table adds it under the path of the entry. -/
theorem loadInto_adds (d : Disk) (allowEmpty : Bool) :
    Table.Adds (d.loadInto allowEmpty) (d.documentAt? allowEmpty)
      fun e => (d.loadInto allowEmpty ∅ e).events where
  nothing t e missing := by
    rw [documentAt?] at missing
    rw [loadInto, loadInto]
    generalize d.loadDocument e.path allowEmpty = outcome at missing
    obtain ⟨outcome, events⟩ := outcome
    cases outcome with
    | found document => cases missing
    | notFound => rfl
    | invalid reason => rfl
  fresh t e k v there new := by
    rw [documentAt?] at there
    rw [loadInto, loadInto]
    generalize d.loadDocument e.path allowEmpty = outcome at there
    obtain ⟨outcome, events⟩ := outcome
    cases outcome with
    | found document =>
        obtain ⟨rfl, rfl⟩ := Prod.mk.inj (Option.some.inj there)
        rw [← Table.put_of_fresh new]
        rfl
    | notFound => cases there
    | invalid reason => cases there

/-- **Of entries with different paths the documents of a name are all loaded**, and no key comes
again. -/
theorem toList_loadAllNamed (d : Disk) (name : String) (allowEmpty : Bool)
    (distinct : tree.Pairwise fun a b => a.path.components ≠ b.path.components) :
    (d.loadAllNamed tree name allowEmpty).NoDuplicate ∧
      ((d.loadAllNamed tree name allowEmpty).value.getD ∅).toList.Perm
        (d.documentsNamed tree name allowEmpty) := by
  have keys : Table.DistinctKeys (d.documentsNamed tree name allowEmpty) := by
    refine List.pairwise_filterMap.mpr ((distinct.filter _).imp fun {a b} different k hk m hm same => ?_)
    obtain ⟨pathA, -⟩ := documentAt?_eq_some_iff.mp hk
    obtain ⟨pathB, -⟩ := documentAt?_eq_some_iff.mp hm
    rw [← pathA, ← pathB, Path.compare_eq_iff] at same
    exact different same
  obtain ⟨events, list⟩ := (loadInto_adds d allowEmpty).fill_emptyc keys
  rw [loadAllNamed, findNamed, documentsNamed]
  cases found : tree.filter (·.isNamed name) with
  | nil => exact ⟨.pure _, .refl _⟩
  | cons e named =>
      rw [found] at events list
      rw [nonEmpty?_of_ne_nil (List.cons_ne_nil _ _)]
      refine ⟨.bind (fun key member => ?_) (.pure _), ?_⟩
      · rw [events] at member
        obtain ⟨f, -, member⟩ := List.mem_flatMap.mp member
        exact noDuplicate_loadInto d allowEmpty ∅ f key member
      · -- A table in which nothing was loaded is as good as none.
        simp only [Logged.value_bind, Logged.value_pure]
        split
        · next empty =>
            rw [Std.TreeMap.isEmpty_toList.symm, List.isEmpty_iff] at empty
            rw [empty] at list
            exact list
        · exact list

end Disk

/-! ### From files to directories -/

theorem Entry.isNamed_iff {e : Entry} {name : String} :
    e.isNamed name = true ↔ e.path.nameBytes? = some (Utf8.encode name) := by
  rw [isNamed, decide_eq_true_iff, name?, Path.name?_eq_some_iff]

/-- What has a name lies in a directory. -/
theorem Entry.exists_parent?_of_isNamed {e : Entry} {name : String} (named : e.isNamed name = true) :
    ∃ parent, e.parent? = some parent :=
  Path.exists_parent?_of_nameBytes? (isNamed_iff.mp named)

namespace Settings

variable {s : Settings} {d : Disk} {root : Path} {tree : List Entry} {e f : Entry}
  {directory directory' : Path}

/-- The entry is the configuration file of the directory, whatever is in the file. -/
def Configures (s : Settings) (tree : List Entry) (e : Entry) (directory : Path) : Prop :=
  e ∈ tree ∧ e.isNamed s.configuration = true ∧ e.parent? = some directory

/-- What loading the configuration file leads to. -/
def outcome (d : Disk) (e : Entry) : Outcome := (d.loadDocument e.path true).value

/-- The document of an entry with the name of configurations under the directory around the entry. -/
def configurationAt? (s : Settings) (d : Disk) (e : Entry) : Option (Path × Document) :=
  if e.isNamed s.configuration then
    e.parent?.bind fun directory => (outcome d e).document?.map (directory, ·)
  else none

theorem configurationAt?_eq_some_iff {document : Document} :
    s.configurationAt? d e = some (directory, document) ↔
      e.isNamed s.configuration = true ∧ e.parent? = some directory ∧
        (outcome d e).document? = some document := by
  rw [configurationAt?]
  split
  · next named =>
      rw [Option.bind_eq_some_iff]
      constructor
      · rintro ⟨_, parent, holds⟩
        obtain ⟨_, there, same⟩ := Option.map_eq_some_iff.mp holds
        obtain ⟨rfl, rfl⟩ := Prod.mk.inj same
        exact ⟨named, parent, there⟩
      · rintro ⟨-, parent, there⟩
        exact ⟨directory, parent, by rw [there]; rfl⟩
  · next other => exact ⟨nofun, fun h => absurd h.1 other⟩

/-- Entries with the name of configurations in the same directory have the same path. -/
theorem components_eq_of_configures (he : s.Configures tree e directory)
    (hf : s.Configures tree f directory') (same : directory.components = directory'.components) :
    e.path.components = f.path.components :=
  Path.components_eq_of_parent? he.2.2 hf.2.2 (Entry.isNamed_iff.mp he.2.1)
    (Entry.isNamed_iff.mp hf.2.1) same

/-- Taking a configuration adds it under the directory around the file. -/
theorem takeConfiguration_adds (root : Path) :
    Table.Adds (takeConfiguration root)
      (fun loaded => some (loaded.1.parent?.getD root, loaded.2)) fun _ => [] where
  nothing := nofun
  fresh t loaded k v same new := by
    obtain ⟨rfl, rfl⟩ := Prod.mk.inj (Option.some.inj same)
    rw [takeConfiguration, Table.insertOnce_of_fresh new]
    rfl

theorem loadConfigurations_eq (s : Settings) (d : Disk) (root : Path) (tree : List Entry) :
    s.loadConfigurations d root tree = (do
      let loaded ← d.loadAllNamed tree s.configuration true
      (loaded.getD ∅).toList.foldlM (takeConfiguration root) ∅) := by
  rw [loadConfigurations]
  generalize d.loadAllNamed tree s.configuration true = loaded
  obtain ⟨loaded, events⟩ := loaded
  cases loaded <;> rfl

/-- The documents of a name, put under the parents of their paths, are the configurations. -/
theorem map_documentsNamed (s : Settings) (d : Disk) (root : Path) (tree : List Entry) :
    (d.documentsNamed tree s.configuration true).map
        (fun loaded => (loaded.1.parent?.getD root, loaded.2)) =
      tree.filterMap (s.configurationAt? d) := by
  rw [Disk.documentsNamed, List.map_filterMap, List.filterMap_filter]
  refine List.filterMap_congr fun e _ => ?_
  rw [configurationAt?]
  split
  · next named =>
      obtain ⟨parent, has⟩ := Entry.exists_parent?_of_isNamed named
      rw [Disk.documentAt?, Option.map_map, has, Option.bind_some]
      refine congrArg (fun f => Option.map f _) (funext fun document => ?_)
      exact congrArg (·, document) (congrArg (·.getD root) has)
  · rfl

/-- **The configurations are those of the entries that have one, each under the directory around its
entry**, and no key comes again. -/
theorem toList_loadConfigurations (s : Settings) (d : Disk) (root : Path)
    (distinct : tree.Pairwise fun a b => a.path.components ≠ b.path.components) :
    (s.loadConfigurations d root tree).NoDuplicate ∧
      (s.loadConfigurations d root tree).value.toList.Perm (tree.filterMap (s.configurationAt? d)) := by
  obtain ⟨loads, loaded⟩ := d.toList_loadAllNamed s.configuration true distinct
  have all := (loaded.map fun l : Path × Document => (l.1.parent?.getD root, l.2)).trans
    (.of_eq (map_documentsNamed s d root tree))
  have keys : Table.DistinctKeys (tree.filterMap (s.configurationAt? d)) := by
    refine List.pairwise_filterMap.mpr (distinct.imp_of_mem fun {e f} he hf different k hk m hm same => ?_)
    obtain ⟨namedE, parentE, -⟩ := configurationAt?_eq_some_iff.mp hk
    obtain ⟨namedF, parentF, -⟩ := configurationAt?_eq_some_iff.mp hm
    exact different (components_eq_of_configures ⟨he, namedE, parentE⟩ ⟨hf, namedF, parentF⟩
      (Path.compare_eq_iff.mp same))
  rw [loadConfigurations_eq]
  generalize d.loadAllNamed tree s.configuration true = x at loads all
  have steps := (takeConfiguration_adds root).fill_emptyc (l := (x.value.getD ∅).toList) (by
    rw [List.filterMap_eq_map']
    exact keys.perm all.symm)
  rw [List.filterMap_eq_map'] at steps
  refine ⟨.bind loads fun key member => ?_, steps.2.trans all⟩
  rw [steps.1] at member
  simp at member

/-! ### What is found -/

section DistinctPaths

variable (distinct : tree.Pairwise fun a b => a.path.components ≠ b.path.components)

include distinct

/-- What is found under a key is in a configuration file of a directory of that key. -/
theorem get?_loadConfigurations {key : Path} {document : Document} :
    (s.loadConfigurations d root tree).value.get? key = some document ↔
      ∃ e directory, s.Configures tree e directory ∧ directory.components = key.components ∧
        (outcome d e).document? = some document := by
  obtain ⟨-, list⟩ := toList_loadConfigurations s d root distinct
  rw [Table.get?_eq_some_iff]
  constructor
  · rintro ⟨directory, same, member⟩
    obtain ⟨e, he, holds⟩ := List.mem_filterMap.mp (list.mem_iff.mp member)
    obtain ⟨named, parent, there⟩ := configurationAt?_eq_some_iff.mp holds
    exact ⟨e, directory, ⟨he, named, parent⟩, (Path.compare_eq_iff.mp same).symm, there⟩
  · rintro ⟨e, directory, ⟨he, named, parent⟩, same, there⟩
    refine ⟨directory, Path.compare_eq_iff.mpr same.symm, list.mem_iff.mpr ?_⟩
    exact List.mem_filterMap.mpr ⟨e, he, configurationAt?_eq_some_iff.mpr ⟨named, parent, there⟩⟩

/-- There are as many configurations as configuration files that hold one. -/
theorem size_loadConfigurations :
    (s.loadConfigurations d root tree).value.size =
      tree.countP fun e => e.isNamed s.configuration && (outcome d e).isFound := by
  obtain ⟨-, list⟩ := toList_loadConfigurations s d root distinct
  rw [← Std.TreeMap.length_toList, list.length_eq, List.length_filterMap_eq_countP]
  refine List.countP_congr fun e _ => ?_
  rw [configurationAt?]
  split
  · next named =>
      obtain ⟨parent, has⟩ := Entry.exists_parent?_of_isNamed named
      rw [has, Option.bind_some, Option.isSome_map, named, Bool.true_and, Outcome.isFound]
  · next other => simp [other]

/-- A directory has one configuration file at most. -/
theorem Configures.unique (he : s.Configures tree e directory) (hf : s.Configures tree f directory')
    (same : directory.components = directory'.components) : e = f := by
  by_contra different
  have : Std.Symm fun a b : Entry => a.path.components ≠ b.path.components := ⟨fun _ _ => Ne.symm⟩
  exact distinct.forall he.1 hf.1 different (components_eq_of_configures he hf same)

/-- What is found under the directory of a configuration file is the document of that file. -/
theorem get?_of_configures (h : s.Configures tree e directory) :
    (s.loadConfigurations d root tree).value.get? directory = (outcome d e).document? := by
  refine Option.ext fun document => ?_
  rw [get?_loadConfigurations distinct]
  constructor
  · rintro ⟨f, _, hf, same, there⟩
    rwa [h.unique distinct hf same.symm]
  · exact fun there => ⟨e, directory, h, rfl, there⟩

/-- Only the outcome of the configuration file of a directory counts for that directory. -/
theorem get?_loadConfigurations_congr {d' : Disk} {root' key : Path}
    (same : ∀ e directory, s.Configures tree e directory → directory.components = key.components →
      outcome d' e = outcome d e) :
    (s.loadConfigurations d' root' tree).value.get? key =
      (s.loadConfigurations d root tree).value.get? key := by
  refine Option.ext fun document => ?_
  rw [get?_loadConfigurations distinct, get?_loadConfigurations distinct]
  refine exists_congr fun e => exists_congr fun directory => and_congr_right fun h =>
    and_congr_right fun keyed => ?_
  rw [same e directory h keyed]

end DistinctPaths

/-! ### Directories of the tree -/

end Settings

/-- What is listed lies in a directory that is the root or is listed as well. -/
theorem Tree.Lists.parent {place ns : List FileName} {children : List (FileName × Tree)} {e : Entry}
    (names : ∀ m ∈ place, Path.IsName m) (proper : (Tree.directory children).Proper)
    (listed : Tree.Lists (.ofNames place) children ns e) :
    ∃ directory, e.parent? = some directory ∧ (directory = .ofNames place ∨
      ∃ ms, Tree.Lists (.ofNames place) children ms (.ofPath directory .directory)) := by
  obtain ⟨nonempty, opens, t, found, rfl⟩ := listed
  have inner := (proper.of_find? found).2
  obtain ⟨ms, n, rfl⟩ : ∃ ms n, ns = ms ++ [n] :=
    ⟨_, _, (List.dropLast_append_getLast nonempty).symm⟩
  obtain ⟨above, last⟩ := List.forall_mem_append.mp inner
  refine ⟨.ofNames (place ++ ms), ?_, ?_⟩
  · rw [Entry.parent?, Entry.path_ofPath, Path.join_ofNames names inner nonempty, ← List.append_assoc]
    exact Path.parent?_ofNames (List.forall_mem_append.mpr ⟨names, above⟩)
      (last n List.mem_cons_self)
  · by_cases top : ms = []
    · exact .inl (by rw [top, List.append_nil])
    · obtain ⟨within, directory⟩ := Tree.isDirectory_of_find?_append (List.cons_ne_nil n []) found
      refine .inr ⟨ms, top, fun ls start _ => ?_, _, directory, ?_⟩
      · exact opens ls (start.trans (List.prefix_append ms [n])) fun same => by
          have shorter := start.length_le
          rw [same, List.length_append] at shorter
          exact absurd shorter (by simp)
      · rw [Path.join_ofNames names above top]
        rfl

namespace Settings

variable {d : Disk} {p : Path} {s : Settings} {project : Project}

/-- The keys of configurations are the root and the directories of the tree, as they are spelled there. -/
theorem directory_of_mem_keys {root key : Path} {children : List (FileName × Tree)}
    (proper : d.root.Proper) (there : d.node? p = some (.directory children))
    (canonical : d.canonical p = .ok root)
    (member : key ∈ (s.loadConfigurations d root (d.list p true).value).value.keys) :
    key = root ∨ ∃ e ∈ (d.list p true).value, e.isDirectory = true ∧ e.path = key := by
  have listed : ∀ {e}, _ ↔ _ := fun {e} => Disk.mem_list_deep (e := e) proper there canonical
  obtain ⟨⟨place, _, resolved, rfl⟩, -⟩ := Disk.canonical_eq_ok_iff.mp canonical
  have names := (proper.of_find? (Disk.resolve_eq_ok_iff.mp resolved).2).2
  obtain ⟨-, list⟩ := toList_loadConfigurations s d (.ofNames place)
    (Disk.list_deep_increasing proper there canonical).distinct
  rw [← Std.TreeMap.map_fst_toList_eq_keys] at member
  obtain ⟨⟨_, document⟩, held, rfl⟩ := List.mem_map.mp member
  obtain ⟨e, he, holds⟩ := List.mem_filterMap.mp (list.mem_iff.mp held)
  obtain ⟨-, parent, -⟩ := configurationAt?_eq_some_iff.mp holds
  obtain ⟨ns, lists⟩ := listed.mp he
  obtain ⟨directory, parent', place⟩ := lists.parent names (Disk.proper_of_node? proper there)
  obtain rfl := Option.some.inj (parent.symm.trans parent')
  rcases place with top | ⟨ms, above⟩
  · exact .inl top
  · exact .inr ⟨_, listed.mpr ⟨ms, above⟩, rfl, rfl⟩

/-- Loading a project reports no key that comes again, unless loading its configurations does. -/
theorem noDuplicate_loadProject
    (configurations : ∀ root, (s.loadConfigurations d root (d.list p true).value).NoDuplicate) :
    (s.loadProject d p).NoDuplicate := by
  rw [loadProject]
  split
  · exact .pure _
  refine .bind (Disk.noDuplicate_list d p true) ?_
  split
  · exact .pure _
  -- Whether a lack of sources is reported or not, the same follows.
  have last : ∀ root sources (result : Table Path Document → Except LoadError Project), (do
      let configurations ← s.loadConfigurations d root (d.list p true).value
      Logged.report (.projectLoaded root (d.list p true).value.length sources configurations.size)
      pure (result configurations)).NoDuplicate :=
    fun root sources result => .bind (configurations root)
      (.bind (.report fun _ same => by cases same) (.pure _))
  dsimp only
  split
  · exact .bind (.report fun _ same => by cases same) (last _ _ fun table => .ok ⟨_, _, _, table⟩)
  · exact last _ _ fun table => .ok ⟨_, _, _, table⟩

/-- **The configurations of a project are complete.**  Let a project have been loaded from a directory of
a proper disk.
* A key has a document exactly if a configuration file of that directory holds it.
* A directory has one configuration file at most, so that no two of them share a key; no key is reported
  to come again; and there are as many configurations as configuration files that can be loaded.
* The keys are the root and directories of the tree, as they are spelled there.
* What is under the key of a file is the document of that file, if it has one, whatever the others are.
  Another disk with the same tree, on which another outcome is found for one file alone, gives the same
  project configurations for all other directories. -/
theorem loadProject_configurations (proper : d.root.Proper)
    (loaded : (s.loadProject d p).value = .ok project) :
    (∀ key document, project.configuration? key = some document ↔
        ∃ e directory, s.Configures project.tree e directory ∧
          directory.components = key.components ∧ outcome d e = .found document) ∧
      (∀ e f directory directory', s.Configures project.tree e directory →
        s.Configures project.tree f directory' → directory.components = directory'.components → e = f) ∧
      (s.loadProject d p).NoDuplicate ∧
      project.configurations.size =
        project.tree.countP (fun e => e.isNamed s.configuration && (outcome d e).isFound) ∧
      (∀ key ∈ project.configurations.keys,
        key = project.root ∨ ∃ e ∈ project.tree, e.isDirectory = true ∧ e.path = key) ∧
      (∀ e directory, s.Configures project.tree e directory →
        project.configuration? directory = (outcome d e).document?) ∧
      ∀ (d' : Disk) (project' : Project), (s.loadProject d' p).value = .ok project' →
        project'.tree = project.tree → ∀ bad directory, s.Configures project.tree bad directory →
          (∀ e directory', s.Configures project.tree e directory' → e ≠ bad →
            outcome d' e = outcome d e) →
          ∀ key, key.components ≠ directory.components →
            project'.configuration? key = project.configuration? key := by
  obtain ⟨⟨children, there⟩, canonical, tree, -⟩ := loadProject_ok loaded
  have distinct : project.tree.Pairwise fun e f => e.path.components ≠ f.path.components := by
    rw [tree]
    exact (Disk.list_deep_increasing proper there canonical).distinct
  have configurations := configurations_of_loadProject loaded
  refine ⟨fun key document => ?_, fun e f directory directory' he hf => he.unique distinct hf,
    noDuplicate_loadProject fun root => ?_, ?_, fun key member => ?_, fun e directory h => ?_, ?_⟩
  · rw [Project.configuration?, configurations, get?_loadConfigurations distinct]
    refine exists_congr fun e => exists_congr fun directory => and_congr_right fun _ =>
      and_congr_right fun _ => Outcome.document?_eq_some_iff
  · rw [← tree]
    exact (toList_loadConfigurations s d root distinct).1
  · rw [configurations, size_loadConfigurations distinct]
  · rw [configurations, tree] at member
    rw [tree]
    exact directory_of_mem_keys proper there canonical member
  · rw [Project.configuration?, configurations, get?_of_configures distinct h]
  · intro d' project' loaded' sameTree bad directory hbad others key apart
    rw [Project.configuration?, Project.configuration?, configurations,
      configurations_of_loadProject loaded', sameTree]
    refine get?_loadConfigurations_congr distinct fun e directory' he keyed => ?_
    refine others e directory' he fun same => apart ?_
    -- The one file whose outcome is another lies in the other directory.
    obtain rfl := Option.some.inj (he.2.2.symm.trans (same ▸ hbad.2.2))
    exact keyed.symm

/-- What lies in the directory `/p` of the disk below: a configuration file that is blank, and a
directory with one that cannot be read. -/
def farmChildren : List (FileName × Tree) :=
  [(Utf8.encode "sub", .directory [(Utf8.encode "clua.config.yaml", .file 1)]),
    (Utf8.encode "clua.config.yaml", .file 0)]

/-- A disk with that directory. -/
def farm : Disk :=
  ⟨.directory [(Utf8.encode "p", .directory farmChildren)],
    [⟨Utf8.encode "# none\n", none⟩, ⟨[], some .inputOutput⟩], []⟩

theorem farm_proper : farm.root.Proper := by
  have sub : (Tree.directory [(Utf8.encode "clua.config.yaml", .file 1)]).Proper :=
    .directory (by decide) (by decide) (by simpa using .file 1)
  have children : (Tree.directory farmChildren).Proper :=
    .directory (by decide) (by decide) (by simpa [farmChildren] using ⟨sub, .file 0⟩)
  exact .directory (by decide) (by decide) (by simpa using children)

/-- The listing of the project. -/
def farmTree : List Entry :=
  [.ofPath (.ofString "/p/clua.config.yaml") .file, .ofPath (.ofString "/p/sub") .directory,
    .ofPath (.ofString "/p/sub/clua.config.yaml") .file]

theorem farm_list : (farm.list (.ofString "/p") true).value = farmTree := by cbv

theorem farm_blank : outcome farm (.ofPath (.ofString "/p/clua.config.yaml") .file) = .found [] := by cbv

theorem farm_unreadable : outcome farm (.ofPath (.ofString "/p/sub/clua.config.yaml") .file) =
    .invalid (.unreadable .inputOutput) := by cbv

/-- The file that cannot be read leaves its own directory without a configuration and the other one with
its own. -/
theorem loadProject_configurations_farm :
    let s := default ⟨none, .ofString "/p"⟩
    ∃ project, farm.root.Proper ∧ (s.loadProject farm (.ofString "/p")).value = .ok project ∧
      project.configuration? (.ofString "/p") = some [] ∧
      project.configuration? (.ofString "/p/sub") = none ∧ project.configurations.size = 1 := by
  intro s
  obtain ⟨project, loaded⟩ : ∃ project, (s.loadProject farm (.ofString "/p")).value = .ok project := by
    have isDirectory : farm.isDirectory (.ofString "/p") = true := rfl
    rw [value_loadProject, isDirectory, farm_list]
    exact ⟨_, rfl⟩
  have tree := (loadProject_ok loaded).2.2.1.trans farm_list
  obtain ⟨-, -, -, size, -, own, -⟩ := loadProject_configurations farm_proper loaded
  rw [tree] at size own
  have top : s.Configures farmTree (.ofPath (.ofString "/p/clua.config.yaml") .file) (.ofString "/p") :=
    ⟨.head _, rfl, rfl⟩
  have sub : s.Configures farmTree (.ofPath (.ofString "/p/sub/clua.config.yaml") .file)
      (.ofString "/p/sub") := ⟨.tail _ (.tail _ (.head _)), rfl, rfl⟩
  refine ⟨project, farm_proper, loaded, ?_, ?_, ?_⟩
  · rw [own _ _ top, farm_blank]
    rfl
  · rw [own _ _ sub, farm_unreadable]
    rfl
  · have other : (Entry.ofPath (.ofString "/p/sub") .directory).isNamed s.configuration = false := rfl
    rw [size, farmTree, List.countP_cons, List.countP_cons, List.countP_cons, top.2.1, sub.2.1, other,
      farm_blank, farm_unreadable]
    rfl

end Settings

end ProjectIndex
