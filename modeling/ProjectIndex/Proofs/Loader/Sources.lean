import Mathlib
import ProjectIndex.Proofs.Cursor.Bookmark
import ProjectIndex.Proofs.Disk.Change
import ProjectIndex.Proofs.Listing
import ProjectIndex.Proofs.Loader.Project
import ProjectIndex.Proofs.Text.Utf8
import ProjectIndex.Proofs.TraceOrder

/-!
# Opening the sources of a session

A session opens a source file by its name, and it opens exactly the files that lie in the project:
`openSource_exact`.  Three views of a file have to agree for this.  The listing knows it by the names
that lead to it, without any link; the search for sources asks what its path leads to, links followed;
the cursor asks this once more.  They agree because the path of a file that is listed is straight, so
that it leads back to the file (`Disk.resolve_below`).

`Tree.IsSource` says what the files in question are in terms of the tree alone.
-/

namespace ProjectIndex

namespace Tree

variable {root q : Path} {children : List (FileName × Tree)} {ns : List FileName} {e : Entry}
  {suffix name : String} {id : Nat}

/-- Directories on the way to a path that can be opened can be opened as well. -/
theorem opens_of_short (names : ∀ m ∈ ns, Path.IsName m)
    (short : (root.descend ns).bytes.length ≤ pathLimit) : Opens root ns := by
  rintro ms ⟨more, rfl⟩ -
  rw [Path.descend_append] at short
  exact (Path.length_le_descend (fun m hm => names m (List.mem_append_right _ hm)) _).trans short

/-! ### Source files -/

/-- A source file of a project whose directory has the canonical form `root` and holds `children`: names
lead to the file without any link, the last of them is the given one, and the path of the file can be
opened and ends in the suffix. -/
def IsSource (root : Path) (children : List (FileName × Tree)) (suffix name : String) (q : Path)
    (id : Nat) : Prop :=
  ∃ ns, (directory children).find? ns = some (.file id) ∧ ns.getLast? = some (Utf8.encode name) ∧
    q = root.join (.relative ns) ∧ q.bytes.length ≤ pathLimit ∧ q.suffix? = some suffix

theorem ne_nil_of_find?_file (found : (directory children).find? ns = some (.file id)) : ns ≠ [] := by
  rintro rfl
  exact nomatch found

/-- The listing holds every source file. -/
theorem IsSource.lists (proper : (directory children).Proper)
    (h : IsSource root children suffix name q id) :
    ∃ ns, Lists root children ns (.ofPath q .file) := by
  obtain ⟨ns, found, -, rfl, short, -⟩ := h
  have nonempty := ne_nil_of_find?_file found
  have names := (proper.of_find? found).2
  obtain ⟨n, ns, rfl⟩ := List.exists_cons_of_ne_nil nonempty
  rw [Path.join_relative names] at short ⊢
  refine ⟨n :: ns, nonempty, opens_of_short names short, .file id, found, ?_⟩
  rw [Path.join_relative names]
  rfl

end Tree

namespace Disk

variable {d : Disk} {p q root : Path} {children : List (FileName × Tree)} {ns : List FileName}
  {e : Entry} {suffix name : String} {id : Nat}

/-- What a search for sources takes for one. -/
theorem isSource_iff : d.isSource suffix e = true ↔
    e.kind = .file ∧ (∃ id, d.node? e.path = some (.file id)) ∧ e.path.suffix? = some suffix := by
  rw [isSource, Entry.isFile, Bool.and_eq_true, decide_eq_true_iff, isFileWith_iff]

section Project

variable (proper : d.root.Proper) (storable : d.root.Storable)
  (there : d.node? p = some (.directory children)) (canonical : d.canonical p = .ok root)

include proper storable there canonical

/-- The path of a source file leads to the file. -/
theorem resolve_source (h : Tree.IsSource root children suffix name q id) :
    ∃ names, d.resolve q = .ok (names, .file id) := by
  obtain ⟨ns, found, -, rfl, short, -⟩ := h
  obtain ⟨place, resolved⟩ := resolve_below proper storable there canonical found (by simp)
    (Tree.ne_nil_of_find?_file found) short
  exact ⟨_, resolved⟩

/-- **The entries of a name that a search for sources finds are those of the source files.** -/
theorem mem_sources_iff :
    (e ∈ ((d.list p true).value.filter (d.isSource suffix)) ∧ e.isNamed name = true) ↔
      ∃ q id, Tree.IsSource root children suffix name q id ∧ e = .ofPath q .file := by
  have dir := proper_of_node? proper there
  rw [List.mem_filter, mem_list_deep proper there canonical, isSource_iff, Entry.isNamed,
    decide_eq_true_iff, Entry.name?, Path.name?_eq_some_iff]
  constructor
  · rintro ⟨⟨⟨ns, nonempty, -, t, found, rfl⟩, kind, ⟨id, leads⟩, ends⟩, named⟩
    rw [Entry.path_ofPath] at leads ends named
    -- What is listed as a file is one, and a path that leads somewhere is short.
    cases t with
    | file id' =>
        have names := (dir.of_find? found).2
        rw [Path.nameBytes?_join_relative names nonempty] at named
        refine ⟨_, id', ⟨ns, found, named, rfl, ?_, ends⟩, rfl⟩
        by_contra long
        obtain ⟨error, refused⟩ := resolve_of_long (d := d) (Nat.lt_of_not_le long)
        rw [node?, refused] at leads
        cases leads
    | directory inner => cases kind
    | link target => cases kind
    | special => cases kind
  · rintro ⟨q, id, source, rfl⟩
    obtain ⟨names, leads⟩ := resolve_source proper storable there canonical source
    obtain ⟨ms, listed⟩ := source.lists dir
    obtain ⟨ns, found, last, rfl, -, ends⟩ := source
    refine ⟨⟨⟨ms, listed⟩, rfl, ⟨id, node?_eq_some_iff.mpr ⟨names, leads⟩⟩, ends⟩, ?_⟩
    rw [Entry.path_ofPath, Path.nameBytes?_join_relative (dir.of_find? found).2
      (Tree.ne_nil_of_find?_file found), last]

omit storable in
/-- The order of source files tells all entries that a search finds apart. -/
theorem distinct_sources (suffix : String) :
    ((d.list p true).value.filter (d.isSource suffix)).Pairwise fun a b =>
      a.path.components ≠ b.path.components :=
  (list_deep_increasing proper there canonical).distinct.filter _

/-- A cursor for the suffix opens on a source file. -/
theorem openOn_source (h : Tree.IsSource root children suffix name q id) :
    ∃ r, r.file = id ∧ ((Cursor.forSuffix suffix).openOn d q).value =
      (.ok (), ⟨.reading r, suffix, some q, 0, [], 0, ""⟩) := by
  obtain ⟨names, resolved⟩ := resolve_source proper storable there canonical h
  obtain ⟨-, -, -, -, -, ends⟩ := h
  have accepted : d.isFileWith q (some suffix) = true := by
    rw [isFileWith, isFile, node?, resolved]
    simp [ends]
  have opens : ∃ supply, d.openFile q = .ok ⟨id, 0, [], supply⟩ := by
    rw [openFile, resolved]
    exact ⟨_, rfl⟩
  obtain ⟨supply, opens⟩ := opens
  refine ⟨⟨id, 0, [], supply⟩, rfl, ?_⟩
  rw [Cursor.openOn, Cursor.forSuffix]
  simp only [accepted, opens, Bool.not_true, Bool.false_eq_true, if_false, Logged.value_bind,
    Logged.value_pure]

end Project

end Disk

/-! ### Reading to the end -/

/-- **Reading a file that was just opened gives its lines one by one, and then an empty line.** -/
theorem Scene.answers_to_end {d : Disk} {c c₀ : Cursor} {p : Path} {r : Reader}
    (opened : (c.openOn d p).value = (.ok (), c₀)) (reading : c₀.stage = .reading r)
    (readable : (d.fileData r.file).failure = none) :
    let lines := cutLines (d.contents r)
    Scene.answers ⟨d, c₀⟩ (List.replicate (lines.length + 1) (.use .readLine)) =
      lines.map (fun line => .text (Utf8.lossy line)) ++ [.text ""] := by
  intro lines
  have spares : ∀ e ∈ List.replicate (lines.length + 1) (Event.use .readLine),
      e.Spares r.file (d.contents r) := fun e he => by
    rw [List.eq_of_mem_replicate he]
    trivial
  have shown := (run_shows (s := ⟨d, c₀⟩) _ spares rfl (shows_opened opened reading readable)).1
  have known : (List.range lines.length).map (fun i => Answer.text (Utf8.lossy (lineAt lines i))) =
      lines.map fun line => .text (Utf8.lossy line) := by
    refine List.ext_getElem (by simp) fun i _ hi => ?_
    rw [List.length_map] at hi
    simp [lineAt, hi]
  have behind : lineAt lines lines.length = [] := by simp [lineAt]
  rw [shown, Bookmark.answers_readLine, Bookmark.start, ← List.range_eq_range', List.range_succ,
    List.map_append, known, List.map_singleton, behind]
  rfl

/-! ### Opening by name -/

section Opening

variable {d : Disk} {p : Path} {s : Settings} {session : Session} {name : String}

/-- A session that knows no source of a name refuses to open one. -/
theorem openSource_none (none : session.project.source? name = none) :
    (openSource session d name).value = .error (.invalidSource
      (session.project.root.join (.ofString name))
      ((Path.ofString name).suffix?.getD Names.sourceSuffix)) := by
  rw [openSource, none]
  rfl

/-- A session opens the source it knows with a cursor for the suffix of that source. -/
theorem openSource_some {q : Path} {suffix : String} {c : Cursor}
    (known : session.project.source? name = some (.ofPath q .file)) (ends : q.suffix? = some suffix)
    (opened : ((Cursor.forSuffix suffix).openOn d q).value = (.ok (), c)) :
    (openSource session d name).value = .ok c := by
  rw [openSource, known]
  simp only [Entry.suffix_ofPath, Entry.path_ofPath, ends, Logged.value_bind]
  rw [opened]
  rfl

/-- **Opening the sources of a session is exact.**  Let a session have been loaded from a directory of
a disk on which every node has a name that a path can spell.  A name can be opened if and only if the
project has a source file of that name; otherwise the answer is that it is no valid source.  The cursor
then is open on the one that comes before all others in the order of the settings.  If that file can be
read, reading gives its lines one by one, of which none is empty, and then the empty line that marks the
end. -/
theorem openSource_exact (proper : d.root.Proper) (storable : d.root.Storable)
    (loaded : (s.loadSession d p).value = .ok session) :
    ∃ children, d.node? p = some (.directory children) ∧ d.canonical p = .ok session.project.root ∧
      ∀ name : String,
        let root := session.project.root
        let opened := (openSource session d name).value
        let IsSource := Tree.IsSource root children s.sourceSuffix name
        ((∃ c, opened = .ok c) ↔ ∃ q id, IsSource q id) ∧
        ((∀ c, opened ≠ .ok c) → opened = .error (.invalidSource (root.join (.ofString name))
          ((Path.ofString name).suffix?.getD Names.sourceSuffix))) ∧
        ∀ c, opened = .ok c → ∃ q id r, IsSource q id ∧
          (∀ q' id', IsSource q' id' → q' = q ∨ s.order.comparePaths q q' = .lt) ∧
          c.path = some q ∧ c.stage = .reading r ∧ r.file = id ∧
          ((d.fileData id).failure = none →
            let lines := cutLines (d.fileData id).bytes
            Scene.answers ⟨d, c⟩ (List.replicate (lines.length + 1) (.use .readLine)) =
                lines.map (fun line => .text (Utf8.lossy line)) ++ [.text ""] ∧
              ∀ line ∈ lines, Utf8.lossy line ≠ "") := by
  obtain ⟨⟨children, there⟩, canonical, tree, sources⟩ :=
    Settings.loadProject_ok (Settings.loadSession_ok loaded)
  refine ⟨children, there, canonical, fun name => ?_⟩
  intro root opened IsSource
  rw [tree] at sources
  have members : ∀ e, (e ∈ (d.list p true).value.filter (d.isSource s.sourceSuffix) ∧
      e.isNamed name = true) ↔ ∃ q id, IsSource q id ∧ e = .ofPath q .file := fun _ =>
    Disk.mem_sources_iff proper storable there canonical
  cases known : session.project.source? name with
  | none =>
      have refused : opened = _ := openSource_none known
      have noSource : ¬ ∃ q id, IsSource q id := by
        rintro ⟨q, id, source⟩
        obtain ⟨member, named⟩ := (members _).mpr ⟨q, id, source, rfl⟩
        rw [Project.source?, sources, List.find?_eq_none] at known
        exact known _ (TraceOrder.mem_sort.mpr member) named
      rw [refused]
      exact ⟨⟨fun ⟨_, h⟩ => (nomatch h), fun h => absurd h noSource⟩, fun _ => rfl,
        fun _ h => (nomatch h)⟩
  | some e =>
      have found := known
      rw [Project.source?, sources] at found
      obtain ⟨member, least⟩ := TraceOrder.least_of_find?_sort
        (Disk.distinct_sources proper there canonical s.sourceSuffix) found
      obtain ⟨q, id, source, rfl⟩ := (members e).mp member
      obtain ⟨r, file, opens⟩ := Disk.openOn_source proper storable there canonical source
      have ends : q.suffix? = some s.sourceSuffix := source.choose_spec.2.2.2.2
      have done : opened = _ := openSource_some known ends opens
      rw [done]
      refine ⟨⟨fun _ => ⟨q, id, source⟩, fun _ => ⟨_, rfl⟩⟩, fun h => absurd rfl (h _), ?_⟩
      rintro c h
      obtain rfl := Except.ok.inj h
      refine ⟨q, id, r, source, fun q' id' other => ?_, rfl, rfl, file, fun readable => ?_⟩
      · obtain ⟨memberToo, namedToo⟩ := (members _).mpr ⟨q', id', other, rfl⟩
        exact (least _ memberToo namedToo).imp_left fun same => congrArg Entry.path same
      · subst file
        exact ⟨Scene.answers_to_end opens rfl readable, fun line hline empty =>
          ne_nil_of_mem_cutLines hline (Utf8.lossy_eq_empty_iff.mp empty)⟩

end Opening

/-- What lies in the directory `/p` of the disk below: a directory with a source file, a source file of
the same name, and a link to the former. -/
def shelfChildren : List (FileName × Tree) :=
  [(Utf8.encode "b.clua", .link (.ofString "sub/a.clua")),
    (Utf8.encode "sub", .directory [(Utf8.encode "a.clua", .file 0)]),
    (Utf8.encode "a.clua", .file 1)]

/-- A disk with one directory in its root. -/
def shelf : Disk :=
  ⟨.directory [(Utf8.encode "p", .directory shelfChildren)],
    [⟨Utf8.encode "x\n\ny", none⟩, ⟨[], none⟩], []⟩

/-- Settings under which that directory is its own data directory, and deep files come first. -/
def shelfSettings : Settings :=
  { Settings.default ⟨none, .ofString "/p"⟩ with
    dataSuffixes := [".clua"], dataFiles := [], order := .deepFirst }

theorem shelf_built : shelf.Built :=
  (((Disk.Built.empty []).makeLink (.ofString "/p/b.clua") (.ofString "sub/a.clua") rfl).writeFile
    (.ofString "/p/sub/a.clua") (Utf8.encode "x\n\ny") rfl).writeFile (.ofString "/p/a.clua") [] rfl

/-- The two files are the only sources, and only under their own name. -/
theorem shelf_sources {name : String} {q : Path} {id : Nat}
    (h : Tree.IsSource (.ofString "/p") shelfChildren ".clua" name q id) :
    name = "a.clua" ∧
      (q = .ofString "/p/sub/a.clua" ∧ id = 0 ∨ q = .ofString "/p/a.clua" ∧ id = 1) := by
  obtain ⟨ns, found, last, rfl, -⟩ := h
  have named : some (Utf8.encode "a.clua") = some (Utf8.encode name) → name = "a.clua" := fun same =>
    (Utf8.encode_injective (Option.some.inj same)).symm
  obtain ⟨n, ns, rfl⟩ := List.exists_cons_of_ne_nil (Tree.ne_nil_of_find?_file found)
  obtain ⟨child, member, inside⟩ := Tree.mem_of_find?_cons found
  simp only [shelfChildren, List.mem_cons, Prod.mk.injEq, List.not_mem_nil, or_false] at member
  rcases member with ⟨rfl, rfl⟩ | ⟨rfl, rfl⟩ | ⟨rfl, rfl⟩
  · exact nomatch (Tree.find?_leaf rfl inside).2
  · obtain ⟨m, ms, rfl⟩ := List.exists_cons_of_ne_nil (Tree.ne_nil_of_find?_file inside)
    obtain ⟨inner, only, below⟩ := Tree.mem_of_find?_cons inside
    obtain ⟨rfl, rfl⟩ := Prod.mk.inj (List.mem_singleton.mp only)
    obtain ⟨rfl, same⟩ := Tree.find?_leaf rfl below
    exact ⟨named last, .inl ⟨rfl, Tree.file.inj same⟩⟩
  · obtain ⟨rfl, same⟩ := Tree.find?_leaf rfl inside
    exact ⟨named last, .inr ⟨rfl, Tree.file.inj same⟩⟩

/-- The deeper one of two files of a name is opened and read, and a link to it is not. -/
theorem openSource_exact_shelf : ∃ session, shelf.root.Proper ∧ shelf.root.Storable ∧
    (shelfSettings.loadSession shelf (.ofString "/p")).value = .ok session ∧
    (∃ c, (openSource session shelf "a.clua").value = .ok c ∧
      c.path = some (.ofString "/p/sub/a.clua") ∧
      Scene.answers ⟨shelf, c⟩ (List.replicate 4 (.use .readLine)) =
        [.text "x\n", .text "\n", .text "y", .text ""]) ∧
    (openSource session shelf "b.clua").value =
      .error (.invalidSource (.ofString "/p/b.clua") ".clua") := by
  have succeeds : (shelfSettings.loadSession shelf (.ofString "/p")).value.isOk = true := by cbv
  obtain ⟨session, loaded⟩ : ∃ session,
      (shelfSettings.loadSession shelf (.ofString "/p")).value = .ok session := by
    cases h : (shelfSettings.loadSession shelf (.ofString "/p")).value with
    | ok session => exact ⟨session, rfl⟩
    | error e => rw [h] at succeeds; cases succeeds
  obtain ⟨children, there, canonical, exactly⟩ :=
    openSource_exact shelf_built.proper shelf_built.storable loaded
  have leads : shelf.node? (.ofString "/p") = some (.directory shelfChildren) := rfl
  obtain rfl := Tree.directory.inj (Option.some.inj (leads.symm.trans there))
  have root : session.project.root = .ofString "/p" :=
    (Except.ok.inj (canonical.symm.trans (show shelf.canonical (.ofString "/p") = _ from rfl)))
  rw [root] at exactly
  have deep : Tree.IsSource (.ofString "/p") shelfChildren ".clua" "a.clua"
      (.ofString "/p/sub/a.clua") 0 :=
    ⟨[Utf8.encode "sub", Utf8.encode "a.clua"], rfl, rfl, rfl, by decide, rfl⟩
  refine ⟨session, shelf_built.proper, shelf_built.storable, loaded, ?_, ?_⟩
  · obtain ⟨opens, -, reads⟩ := exactly "a.clua"
    obtain ⟨c, opened⟩ := opens.mpr ⟨_, _, deep⟩
    obtain ⟨q, id, r, source, least, path, -, -, lines⟩ := reads c opened
    -- The other file of the name does not come before the deeper one.
    obtain ⟨rfl, rfl⟩ : q = .ofString "/p/sub/a.clua" ∧ id = 0 := by
      obtain ⟨-, found | ⟨rfl, rfl⟩⟩ := shelf_sources source
      · exact found
      · obtain same | smaller := least _ _ deep
        · exact absurd same (by decide)
        · exact absurd smaller (by decide)
    exact ⟨c, opened, path, (lines rfl).1⟩
  · obtain ⟨opens, refused, -⟩ := exactly "b.clua"
    refine refused fun c opened => ?_
    obtain ⟨q, id, source⟩ := opens.mp ⟨c, opened⟩
    exact absurd (shelf_sources source).1 (by decide)

end ProjectIndex
