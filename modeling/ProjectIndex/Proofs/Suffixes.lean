import ProjectIndex.Proofs.Path.Suffix
import ProjectIndex.Proofs.Searches
import ProjectIndex.Proofs.SourceTrace

/-!
# Searches by suffix

Every search by suffix compares the text that is asked for with the suffix of some path.  So what bytes a
suffix is read from settles which texts can be found at all: one period and at least one further character,
none of them a period or a slash.  A search for any other text finds nothing, whatever files there are.

Where the suffix is asked of a path this is `Path.isSuffix_iff`.  The search of a directory asks the entries
that are listed there, and a listing makes every entry from its path; `Tree.made_of_mem_walk` shows it for each
node of any tree, whether or not names in it are such as files can have.
-/

namespace ProjectIndex

namespace Tree

variable {e : Entry}

mutual

/-- Whatever a walk meets was made from its path, in any tree. -/
theorem made_of_mem_walk : ∀ (t : Tree) (path : Path), Visit.entry e ∈ t.walk path → e = .ofPath e.path e.kind
  | .file _, _, met | .link _, _, met | .special, _, met => by
      unfold walk at met
      obtain rfl := Visit.entry.inj (List.mem_singleton.mp met)
      rfl
  | .directory children, path, met => by
      unfold walk at met
      rcases List.mem_cons.mp met with first | below
      · obtain rfl := Visit.entry.inj first
        rfl
      · split at below
        · exact nomatch List.mem_singleton.mp below
        · obtain ⟨c, among, met⟩ := List.mem_flatMap.mp below
          exact made_of_mem_walkEach children path c (mem_sortByName.mp among) met

theorem made_of_mem_walkEach : ∀ (children : List (FileName × Tree)) (path : Path),
    ∀ c ∈ walkEach path children, Visit.entry e ∈ c.2 → e = .ofPath e.path e.kind
  | [], _, _, among, _ => by
      unfold walkEach at among
      exact nomatch among
  | (n, t) :: children, path, c, among, met => by
      unfold walkEach at among
      rcases List.mem_cons.mp among with rfl | rest
      · exact made_of_mem_walk t (path.child n) met
      · exact made_of_mem_walkEach children path c rest met

end

theorem made_of_mem_visits {root : Path} {children : List (FileName × Tree)} {isDeep : Bool}
    (met : Visit.entry e ∈ visits root children isDeep) : e = .ofPath e.path e.kind := by
  rw [visits] at met
  split at met
  · exact nomatch List.mem_singleton.mp met
  split at met
  · obtain ⟨c, among, met⟩ := List.mem_flatMap.mp met
    exact made_of_mem_walkEach children root c (mem_sortByName.mp among) met
  · obtain ⟨c, -, same⟩ := List.mem_map.mp met
    obtain rfl := Visit.entry.inj same
    rfl

end Tree

namespace Disk

variable {d : Disk} {p : Path} {tree found : List Entry} {e : Entry} {isDeep : Bool} {s : String}

/-- Whatever is listed was made from its path. -/
theorem made_of_mem_list (h : e ∈ (d.list p isDeep).value) : e = .ofPath e.path e.kind := by
  unfold list at h
  split at h
  · cases h
  · split at h
    · exact Tree.made_of_mem_visits (Tree.mem_entries.mp h)
    · cases h
    · cases h

theorem isSuffix_of_isFileWith (h : d.isFileWith p (some s) = true) : IsSuffix s :=
  Path.isSuffix_iff.mpr ⟨p, (isFileWith_iff.mp h).2⟩

/-- What is found among entries by a suffix is found by one that a path can have. -/
theorem isSuffix_of_findFiles (h : d.findFiles tree s = some found) : IsSuffix s := by
  obtain ⟨nonempty, -⟩ := nonEmpty?_eq_some_iff.mp h
  obtain ⟨e, source⟩ := List.exists_mem_of_ne_nil _ nonempty
  exact isSuffix_of_isFileWith (mem_sources source).2.2

theorem isSuffix_of_traceSources {order : TraceOrder} (h : d.traceSources tree s order = some found) :
    IsSuffix s := by
  obtain ⟨sources, files, -⟩ := Option.map_eq_some_iff.mp h
  exact isSuffix_of_findFiles files

/-- What is found below a directory by some suffixes is found by those among them that a path can have. -/
theorem isSuffix_of_findWithSuffixes {suffixes : List String}
    (h : (d.findWithSuffixes p suffixes isDeep).value = some found) :
    ∀ e ∈ found, ∃ s ∈ suffixes, e.suffix = some s ∧ IsSuffix s := by
  intro e member
  rw [value_findWithSuffixes] at h
  obtain ⟨-, rfl⟩ := nonEmpty?_eq_some_iff.mp h
  obtain ⟨listed, wanted⟩ := List.mem_filter.mp member
  have made := congrArg Entry.suffix (made_of_mem_list listed)
  rw [Entry.suffix_ofPath] at made
  cases suffix : e.suffix with
  | none =>
      rw [suffix] at wanted
      cases wanted
  | some s =>
      rw [suffix] at wanted made
      exact ⟨s, List.contains_iff_mem.mp wanted, rfl, Path.isSuffix_iff.mpr ⟨e.path, made.symm⟩⟩

end Disk

/-! ### Main statement -/

/-- **Suffixes are read from the bytes of names.**
* A path has a suffix exactly if it ends in a name that has a last period with something before it and a
  text behind it that is not empty; the suffix is that period and that text.  That a path ends in a name is
  said of its bytes, and it means that the name is the last component.
* Paths that say the same have the same suffix.
* The suffixes of paths are the texts of one period and at least one further character, none of them a period
  or a slash.  Whatever the files are, nothing else is found: not by asking whether a path leads to a file
  with the suffix, not by a search or a trace of some entries, and not by a search below a directory. -/
theorem suffixes_read_from_bytes :
    (∀ (p : Path) (s : String), p.suffix? = some s ↔
      ∃ stem e : Bytes, p.EndsIn (stem ++ Path.dot :: e) ∧ stem ≠ [] ∧ e ≠ [] ∧ Path.dot ∉ e ∧
        ∃ text, Utf8.text? e = some text ∧ s = "." ++ text) ∧
    (∀ (p : Path) (n : Bytes), p.EndsIn n ↔ p.components.getLast? = some (.name n)) ∧
    (∀ p q : Path, p.same q = true → p.suffix? = q.suffix?) ∧
    (∀ s : String, (∃ p : Path, p.suffix? = some s) ↔ IsSuffix s) ∧
    ∀ d : Disk,
      (∀ p s, d.isFileWith p (some s) = true → IsSuffix s) ∧
      (∀ tree s found, d.findFiles tree s = some found → IsSuffix s) ∧
      (∀ tree s order found, d.traceSources tree s order = some found → IsSuffix s) ∧
      ∀ p suffixes isDeep found, (d.findWithSuffixes p suffixes isDeep).value = some found →
        ∀ e ∈ found, ∃ s ∈ suffixes, e.suffix = some s ∧ IsSuffix s := by
  refine ⟨fun p s => Path.suffix?_eq_some_iff, fun p n => Path.endsIn_iff, ?_, ?_, ?_⟩
  · intro p q same
    apply Path.suffix?_congr
    exact beq_iff_eq.mp same
  · exact fun s => Path.isSuffix_iff.symm
  · intro d
    refine ⟨?_, ?_, ?_, ?_⟩
    · exact fun p s file => Disk.isSuffix_of_isFileWith file
    · exact fun tree s found files => Disk.isSuffix_of_findFiles files
    · exact fun tree s order found trace => Disk.isSuffix_of_traceSources trace
    · exact fun p suffixes isDeep found below => Disk.isSuffix_of_findWithSuffixes below

/-- What stands before the last period may end in a period and need not be a text; and the suffix of a file that
is there has the form that is asked for. -/
theorem suffixes_read_from_bytes_two :
    let p := Path.mk [0x78, Path.slash, 0xFF, Path.dot, Path.dot, 0x62, Path.slash, Path.dot, Path.slash]
    let d : Disk := ⟨.directory [(Utf8.encode "x.yaml", .file 0)], [], []⟩
    p.EndsIn ([0xFF, Path.dot] ++ Path.dot :: [0x62]) ∧ p.suffix? = some ".b" ∧
      d.isFileWith (.ofString "/x.yaml") (some ".yaml") = true ∧ IsSuffix ".yaml" := by
  intro p d
  obtain ⟨reads, ends, -, -, found⟩ := suffixes_read_from_bytes
  have last : p.EndsIn ([0xFF, Path.dot] ++ Path.dot :: [0x62]) := (ends p _).mpr (by decide +kernel)
  have text : Utf8.text? [0x62] = some "b" := by decide +kernel
  have isFile : d.isFileWith (.ofString "/x.yaml") (some ".yaml") = true := rfl
  refine ⟨last, ?_, isFile, (found d).1 _ _ isFile⟩
  exact (reads p ".b").mpr ⟨_, _, last, by decide, by decide, by decide, "b", text, by decide⟩

end ProjectIndex
