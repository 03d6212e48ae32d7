import Mathlib
import ProjectIndex.Proofs.Disk.Alike
import ProjectIndex.Proofs.Disk.Asked
import ProjectIndex.Proofs.Disk.Change
import ProjectIndex.Proofs.Listing
import ProjectIndex.Proofs.Loader.Project

/-!
# What a project load depends on

Two disks may differ in everything but one directory.  Loading the project in that directory gives the
same tree and the same sources on both, since the listing follows no link and only entries of files count
as sources.  Configurations are looked for by name, whatever kind of entry bears it, and so they are the
same as long as no link in the project has the name of a configuration: `Settings.loadProject_confined`.

Such a link does lead out of the project, and its target is loaded as the configuration of the directory
in which the link lies: `Settings.loadProject_follows_link`.
-/

namespace ProjectIndex

/-- What follows a result depends on its value alone. -/
theorem Logged.bind_congr {α β : Type} {x : Logged α} {f g : α → Logged β}
    (h : f x.value = g x.value) : x >>= f = x >>= g :=
  congrArg (fun y : Logged β => (⟨y.value, x.events ++ y.events⟩ : Logged β)) h

/-- A disk with a directory at a place, every node having a name that a path can spell. -/
structure Disk.Holds (d : Disk) (place : List FileName) (children : List (FileName × Tree)) : Prop where
  proper : d.root.Proper
  storable : d.root.Storable
  found : d.root.find? place = some (.directory children)

namespace Disk

variable {d d' : Disk} {place ns : List FileName} {children children' : List (FileName × Tree)}
  {p : Path} {t : Tree} {e : Entry} {name suffix : String}

namespace Holds

theorem inner (h : d.Holds place children) : (Tree.directory children).Proper :=
  (h.proper.of_find? h.found).1

section Short

variable (h : d.Holds place children) (short : (Path.ofNames place).bytes.length ≤ pathLimit)

include h short

theorem resolve : d.resolve (.ofNames place) = .ok (place, .directory children) :=
  resolve_ofNames h.proper h.storable h.found nofun (.inr rfl) short

theorem node? : d.node? (.ofNames place) = some (.directory children) :=
  node?_eq_some_iff.mpr ⟨place, h.resolve short⟩

theorem canonical : d.canonical (.ofNames place) = .ok (.ofNames place) :=
  canonical_ofNames h.proper h.storable h.found nofun (.inr rfl) short

/-- What the path of a node below the directory leads to, unless the node is a link. -/
theorem node?_below (found : (Tree.directory children).find? ns = some t)
    (straight : ∀ target, t ≠ .link target) (nonempty : ns ≠ []) :
    let q := (Path.ofNames place).join (.relative ns)
    d.node? q = if q.bytes.length ≤ pathLimit then some t else none := by
  intro q
  split
  · next fits =>
      obtain ⟨_, resolved⟩ := resolve_below h.proper h.storable (h.node? short) (h.canonical short)
        found straight nonempty fits
      exact node?_eq_some_iff.mpr ⟨_, resolved⟩
  · next long =>
      obtain ⟨error, refused⟩ := resolve_of_long (d := d) (Nat.lt_of_not_le long)
      rw [Disk.node?, refused]

end Short

end Holds

/-! ### What is asked of a path -/

theorem isFile_congr (alike : Option.Rel (Alike d d') (d.node? p) (d'.node? p)) :
    d.isFile p = d'.isFile p := by
  rw [isFile, isFile]
  generalize d.node? p = t, d'.node? p = t' at alike
  cases alike with
  | none => rfl
  | @some t t' alike =>
      have same := alike.sight_eq
      cases t <;> cases t' <;> first | rfl | cases same

/-- A path that leads to files with the same contents leads to the same text. -/
theorem readText_congr (alike : Option.Rel (Alike d d') (d.node? p) (d'.node? p))
    (leads : d.isFile p = true) : d.readText p = d'.readText p := by
  obtain ⟨id, there⟩ := isFile_iff.mp leads
  obtain ⟨id', there'⟩ := isFile_iff.mp ((isFile_congr alike).symm.trans leads)
  obtain ⟨names, resolved⟩ := node?_eq_some_iff.mp there
  obtain ⟨names', resolved'⟩ := node?_eq_some_iff.mp there'
  rw [there, there'] at alike
  cases alike with
  | some alike =>
      have data := Sight.file.inj alike.sight_eq
      rw [readText, readText, readBytes, readBytes, resolved, resolved']
      simp only [bind, Except.bind, data]

theorem loadDocument_congr (alike : Option.Rel (Alike d d') (d.node? p) (d'.node? p))
    (allowEmpty : Bool) : d.loadDocument p allowEmpty = d'.loadDocument p allowEmpty := by
  rw [loadDocument, loadDocument, isFileWith, isFileWith, ← isFile_congr alike]
  cases leads : d.isFile p with
  | false => rfl
  | true => rw [readText_congr alike leads]

/-- Loading all documents of a name asks the disk for the entries of that name alone. -/
theorem loadAllNamed_congr {tree : List Entry} {allowEmpty : Bool}
    (same : ∀ e ∈ tree, e.isNamed name = true →
      d.loadDocument e.path allowEmpty = d'.loadDocument e.path allowEmpty) :
    d.loadAllNamed tree name allowEmpty = d'.loadAllNamed tree name allowEmpty := by
  have fold : ∀ (named : List Entry), (∀ e ∈ named, e ∈ tree ∧ e.isNamed name = true) →
      ∀ loaded, named.foldlM (d.loadInto allowEmpty) loaded =
        named.foldlM (d'.loadInto allowEmpty) loaded := by
    intro named
    induction named with
    | nil => exact fun _ _ => rfl
    | cons e named ih =>
        intro members loaded
        obtain ⟨⟨member, bears⟩, members⟩ := List.forall_mem_cons.mp members
        rw [List.foldlM_cons, List.foldlM_cons, loadInto, loadInto, same e member bears]
        exact congrArg _ (funext (ih members))
  rw [loadAllNamed, loadAllNamed, findNamed]
  cases found : tree.filter (·.isNamed name) with
  | nil => rfl
  | cons e named =>
      rw [nonEmpty?_of_ne_nil (List.cons_ne_nil _ _)]
      dsimp only
      rw [fold (e :: named) fun f member => List.mem_filter.mp (found ▸ member)]

/-! ### Two disks with the same project -/

section TwoDisks

variable (h : d.Holds place children) (h' : d'.Holds place children')
  (alike : Alike d d' (.directory children) (.directory children'))
  (short : (Path.ofNames place).bytes.length ≤ pathLimit)

include h h' alike short

theorem list_alike : d.list (.ofNames place) true = d'.list (.ofNames place) true := by
  have visits : Tree.visits (.ofNames place) children true =
      Tree.visits (.ofNames place) children' true := by
    rw [Tree.visits_deep short, Tree.visits_deep short]
    obtain ⟨_, same, lookup⟩ := alike.directory
    obtain rfl := Tree.directory.inj same
    exact Alike.visitsBelow h.inner h'.inner lookup (fun n c c' hc hc' inner path =>
      inner.walk (h.inner.inner _ (h.inner.mem_iff.mpr hc))
        (h'.inner.inner _ (h'.inner.mem_iff.mpr hc')) path) _
  rw [list, list, isDirectory, isDirectory, h.node? short, h'.node? short, h.canonical short,
    h'.canonical short]
  dsimp only
  rw [visits]

/-- The path of an entry that is listed leads to nodes that look alike, unless the entry is that of a
link. -/
theorem node?_alike (listed : Tree.Lists (.ofNames place) children ns e)
    (straight : ∀ target, (Tree.directory children).find? ns ≠ some (.link target)) :
    Option.Rel (Alike d d') (d.node? e.path) (d'.node? e.path) := by
  obtain ⟨nonempty, -, t, found, rfl⟩ := listed
  have there := alike.find? ns
  rw [found] at there straight
  generalize found' : (Tree.directory children').find? ns = t' at there
  obtain @⟨_, t', same⟩ := there
  have straight' : ∀ target, t' ≠ .link target := by
    rintro target rfl
    have seen := same.sight_eq
    cases t with
    | link target => exact straight target rfl
    | _ => exact nomatch seen
  rw [Entry.path_ofPath, h.node?_below short found (fun _ link => straight _ (congrArg some link))
    nonempty, h'.node?_below short found' straight' nonempty]
  split
  · exact .some same
  · exact .none

/-- On both disks the same entries count as sources. -/
theorem sources_alike (suffix : String) :
    (d.list (.ofNames place) true).value.filter (d.isSource suffix) =
      (d.list (.ofNames place) true).value.filter (d'.isSource suffix) := by
  refine List.filter_congr fun e member => ?_
  obtain ⟨ns, listed⟩ := (mem_list_deep h.proper (h.node? short) (h.canonical short)).mp member
  rw [isSource, isSource, isFileWith, isFileWith]
  cases isFile : e.isFile with
  | false => rfl
  | true =>
      rw [isFile_congr (node?_alike h h' alike short listed fun target link => ?_)]
      obtain ⟨-, -, t, found, rfl⟩ := listed
      obtain rfl := Option.some.inj (link.symm.trans found)
      cases isFile

/-- Unless a link bears the name of configurations, both disks give the same. -/
theorem configurations_alike (s : Settings) (unlinked : ∀ ns target,
      (Tree.directory children).find? ns = some (.link target) →
        ns.getLast? ≠ some (Utf8.encode s.configuration)) :
    s.loadConfigurations d (.ofNames place) (d.list (.ofNames place) true).value =
      s.loadConfigurations d' (.ofNames place) (d.list (.ofNames place) true).value := by
  rw [Settings.loadConfigurations, Settings.loadConfigurations,
    loadAllNamed_congr fun e member bears => ?_]
  obtain ⟨ns, listed⟩ := (mem_list_deep h.proper (h.node? short) (h.canonical short)).mp member
  refine loadDocument_congr (node?_alike h h' alike short listed fun target link => ?_) true
  obtain ⟨nonempty, -, t, found, rfl⟩ := listed
  rw [Entry.isNamed, decide_eq_true_iff, Entry.name?, Path.name?_eq_some_iff, Entry.path_ofPath,
    Path.nameBytes?_join_relative (h.inner.of_find? found).2 nonempty] at bears
  exact unlinked ns target link bears

end TwoDisks

end Disk

/-! ### Loading -/

namespace Settings

variable {d d' : Disk} {place : List FileName} {children children' : List (FileName × Tree)}

/-- What of a project does not concern configurations. -/
def outline (p : Project) : Path × List Entry × List Entry := (p.root, p.tree, p.sources)

/-- **A project load is confined to the project, up to links that bear the name of configurations.**
Let two disks hold directories at one place that look alike, while everything else on them may differ.
Loading the project in that place fails on both for the same reason, or gives the same root, tree and
sources.  If no link in the project has the name of configurations, then the results are altogether the
same, with all that is reported on the way. -/
theorem loadProject_confined (s : Settings) (h : d.Holds place children)
    (h' : d'.Holds place children')
    (alike : Alike d d' (.directory children) (.directory children')) :
    (s.loadProject d (.ofNames place)).value.map outline =
        (s.loadProject d' (.ofNames place)).value.map outline ∧
      ((∀ ns target, (Tree.directory children).find? ns = some (.link target) →
          ns.getLast? ≠ some (Utf8.encode s.configuration)) →
        s.loadProject d (.ofNames place) = s.loadProject d' (.ofNames place)) := by
  rcases Nat.lt_or_ge pathLimit (Path.ofNames place).bytes.length with long | short
  · have nowhere : ∀ d : Disk, d.isDirectory (.ofNames place) = false := fun d => by
      obtain ⟨error, refused⟩ := Disk.resolve_of_long (d := d) long
      rw [Disk.isDirectory, Disk.node?, refused]
    have both : s.loadProject d (.ofNames place) = s.loadProject d' (.ofNames place) := by
      rw [loadProject, loadProject, nowhere, nowhere, if_pos Bool.not_false, if_pos Bool.not_false]
    exact ⟨by rw [both], fun _ => both⟩
  have isDirectory : d.isDirectory (.ofNames place) = true :=
    Disk.isDirectory_iff.mpr ⟨_, h.node? short⟩
  have isDirectory' : d'.isDirectory (.ofNames place) = true :=
    Disk.isDirectory_iff.mpr ⟨_, h'.node? short⟩
  have listed := Disk.list_alike h h' alike short
  have sources := Disk.sources_alike h h' alike short s.sourceSuffix
  constructor
  · rw [value_loadProject, value_loadProject, isDirectory, isDirectory', rootOf, rootOf,
      h.canonical short, h'.canonical short, ← listed]
    simp only [Bool.true_eq_false, if_false, sources]
    split
    · rfl
    · rfl
  · intro unlinked
    have configurations := Disk.configurations_alike h h' alike short s unlinked
    have traced : d.traceSources (d.list (.ofNames place) true).value s.sourceSuffix s.order =
        d'.traceSources (d.list (.ofNames place) true).value s.sourceSuffix s.order := by
      rw [Disk.traceSources, Disk.traceSources, Disk.findFiles, Disk.findFiles, sources]
    rw [loadProject, loadProject, isDirectory, isDirectory', h.canonical short, h'.canonical short,
      ← listed]
    simp only [Bool.not_true, Bool.false_eq_true, if_false]
    refine Logged.bind_congr ?_
    rw [traced, configurations]

/-- What lies in the directory `/p` of the disks below: a source file, and a link that has the usual
name of configurations and leads out of the directory. -/
def yardChildren : List (FileName × Tree) :=
  [(Utf8.encode "a.clua", .file 0),
    (Utf8.encode "clua.config.yaml", .link (.ofString "../out/c.yaml"))]

/-- A disk with that directory and another one. -/
def yard (outside : List (FileName × Tree)) : Disk :=
  ⟨.directory [(Utf8.encode "p", .directory yardChildren), (Utf8.encode "out", .directory outside)],
    [⟨[], none⟩, ⟨Utf8.encode "a: 1", none⟩], []⟩

/-- The file that the link leads to. -/
def outsideFile : List (FileName × Tree) := [(Utf8.encode "c.yaml", .file 1)]

theorem yard_built_file : (yard outsideFile).Built :=
  (((Disk.Built.empty []).writeFile (.ofString "/p/a.clua") [] rfl).makeLink
    (.ofString "/p/clua.config.yaml") (.ofString "../out/c.yaml") rfl).writeFile
      (.ofString "/out/c.yaml") (Utf8.encode "a: 1") rfl

theorem yard_built_empty : (yard []).Built := yard_built_file.remove (.ofString "/out/c.yaml") rfl

theorem yard_holds_file : (yard outsideFile).Holds [Utf8.encode "p"] yardChildren :=
  ⟨yard_built_file.proper, yard_built_file.storable, rfl⟩

theorem yard_holds_empty : (yard []).Holds [Utf8.encode "p"] yardChildren :=
  ⟨yard_built_empty.proper, yard_built_empty.storable, rfl⟩

/-- With configurations of another name the project is the same, whatever the link leads to. -/
theorem loadProject_confined_yard :
    let s : Settings := { default ⟨none, .ofString "/p"⟩ with configuration := "other.yaml" }
    (yard []).Holds [Utf8.encode "p"] yardChildren ∧
      (yard outsideFile).Holds [Utf8.encode "p"] yardChildren ∧
      Alike (yard []) (yard outsideFile) (.directory yardChildren) (.directory yardChildren) ∧
      s.loadProject (yard []) (.ofString "/p") = s.loadProject (yard outsideFile) (.ofString "/p") := by
  intro s
  have alike : Alike (yard []) (yard outsideFile) (.directory yardChildren)
      (.directory yardChildren) := fun _ => rfl
  refine ⟨yard_holds_empty, yard_holds_file, alike,
    (loadProject_confined s yard_holds_empty yard_holds_file alike).2 fun ns target link => ?_⟩
  obtain ⟨n, ns, rfl⟩ : ∃ n ms, ns = n :: ms := by
    cases ns with
    | nil => exact nomatch link
    | cons n ms => exact ⟨n, ms, rfl⟩
  obtain ⟨child, member, inside⟩ := Tree.mem_of_find?_cons link
  simp only [yardChildren, List.mem_cons, Prod.mk.injEq, List.not_mem_nil, or_false] at member
  rcases member with ⟨rfl, rfl⟩ | ⟨rfl, rfl⟩
  · exact nomatch (Tree.find?_leaf rfl inside).2
  · obtain ⟨rfl, -⟩ := Tree.find?_leaf rfl inside
    decide

/-- The listing of the project: the link is an entry like any other. -/
def yardTree : List Entry :=
  [.ofPath (.ofString "/p/a.clua") .file, .ofPath (.ofString "/p/clua.config.yaml") .other]

theorem yard_list (outside : List (FileName × Tree)) :
    ((yard outside).list (.ofString "/p") true).value = yardTree := by
  cbv

theorem findNamed_yardTree :
    findNamed yardTree (default ⟨none, .ofString "/p"⟩).configuration =
      some [.ofPath (.ofString "/p/clua.config.yaml") .other] := rfl

theorem yard_document_none :
    ((yard []).loadDocument (.ofString "/p/clua.config.yaml") true).value = .notFound := rfl

theorem yard_document_found :
    ((yard outsideFile).loadDocument (.ofString "/p/clua.config.yaml") true).value =
      .found [(.string "a", .int 1)] := by
  have isFile : (yard outsideFile).isFileWith (.ofString "/p/clua.config.yaml")
      (some Names.documentSuffix) = true := rfl
  have text : (yard outsideFile).readText (.ofString "/p/clua.config.yaml") = .ok "a: 1" := rfl
  have document : Outcome.ofText "a: 1" true = .found [(.string "a", .int 1)] := by cbv
  rw [Disk.loadDocument, isFile, text]
  simp only [document]
  rfl

/-- The configuration of the directory `/p` after loading it with the usual settings. -/
def yardConfiguration (outside : List (FileName × Tree)) : Option (Option Document) :=
  ((default ⟨none, .ofString "/p"⟩).loadProject (yard outside) (.ofString "/p")).value.toOption.map
    (·.configuration? (.ofString "/p"))

theorem yardConfiguration_eq (outside : List (FileName × Tree)) :
    yardConfiguration outside = some (((default ⟨none, .ofString "/p"⟩).loadConfigurations
      (yard outside) (.ofString "/p") yardTree).value.get? (.ofString "/p")) := by
  have isDirectory : (yard outside).isDirectory (.ofString "/p") = true := rfl
  have root : rootOf (yard outside) (.ofString "/p") = .ofString "/p" := rfl
  rw [yardConfiguration, value_loadProject, isDirectory, yard_list, root]
  rfl

/-- With the usual name of configurations the link is followed, and what lies outside of the project
decides what is loaded. -/
theorem loadProject_follows_link :
    (yard []).Holds [Utf8.encode "p"] yardChildren ∧
      (yard outsideFile).Holds [Utf8.encode "p"] yardChildren ∧
      Alike (yard []) (yard outsideFile) (.directory yardChildren) (.directory yardChildren) ∧
      yardConfiguration [] = some none ∧
      yardConfiguration outsideFile = some (some [(.string "a", .int 1)]) := by
  refine ⟨yard_holds_empty, yard_holds_file, fun _ => rfl, ?_, ?_⟩
  · rw [yardConfiguration_eq]
    simp only [loadConfigurations, Disk.loadAllNamed, findNamed_yardTree, List.foldlM_cons,
      List.foldlM_nil, Disk.loadInto, Logged.value_bind, Entry.path_ofPath, yard_document_none]
    rfl
  · rw [yardConfiguration_eq]
    simp only [loadConfigurations, Disk.loadAllNamed, findNamed_yardTree, List.foldlM_cons,
      List.foldlM_nil, Disk.loadInto, Logged.value_bind, Entry.path_ofPath, yard_document_found]
    rfl

end Settings

end ProjectIndex
