import ProjectIndex.Proofs.Documents.Picked
import ProjectIndex.Proofs.Searches

/-!
# Documents that are there

A document that lies below a directory can be reported missing.  Copies are picked by their names alone, and
whether the copy that was picked is a file is asked only then: a directory named like a document, or a link
to one, is a copy too, and if it stands behind all files of the name it is the last one
(`Disk.loadPicked_passes_over_file`).

Nothing else hides a file.  What is listed as a file with a path that can be opened leads back to that file
(`Disk.isFileWith_of_mem_list`); so if a document is there, and the copy that is picked is such a file, it is
loaded: `Disk.loadPicked_of_present`.
-/

namespace ProjectIndex

/-! ### Outcomes -/

theorem Outcome.ofText_ne_notFound (text : String) (allowEmpty : Bool) :
    Outcome.ofText text allowEmpty ≠ .notFound := by
  have nothing : Outcome.ofNothing allowEmpty ≠ .notFound := by
    intro missing
    cases allowEmpty <;> cases missing
  intro missing
  rw [ofText] at missing
  split at missing
  · exact nothing missing
  split at missing
  · next v _ =>
      cases v with
      | null => exact nothing missing
      | _ => cases missing
  · cases missing

/-- The entry is of a file for documents, with a path short enough to be opened. -/
def Entry.IsDocumentFile (e : Entry) : Prop :=
  e.kind = .file ∧ e.suffix = some Names.documentSuffix ∧ e.path.bytes.length ≤ pathLimit

namespace Disk

variable {d : Disk} {p : Path} {tree : List Entry} {e : Entry} {isDeep allowEmpty : Bool}
  {name suffix : String} {pick : Pick}

/-- No document is found at a path exactly if the path leads to no file for documents. -/
theorem loadDocument_eq_notFound_iff : (d.loadDocument p allowEmpty).value = .notFound ↔
    d.isFileWith p (some Names.documentSuffix) = false := by
  rw [loadDocument]
  cases d.isFileWith p (some Names.documentSuffix) with
  | false => exact ⟨fun _ => rfl, fun _ => rfl⟩
  | true =>
      simp only [Bool.not_true, Bool.false_eq_true, if_false, Bool.true_eq_false, iff_false]
      intro missing
      split at missing
      · cases missing
      · next text _ =>
          have there := Outcome.ofText_ne_notFound text allowEmpty
          split at missing
          · cases missing
          · exact there missing

/-! ### What is listed -/

/-- The entries are those of a listing of a directory, or those found in it by their suffixes. -/
inductive Finds (d : Disk) (p : Path) : List Entry → Prop
  | listed (isDeep : Bool) : Finds d p (d.list p isDeep).value
  | suffixed {tree : List Entry} (suffixes : List String) (isDeep : Bool)
    (found : (d.findWithSuffixes p suffixes isDeep).value = some tree) : Finds d p tree

theorem Finds.sublist (h : d.Finds p tree) : ∃ isDeep, tree.Sublist (d.list p isDeep).value := by
  cases h with
  | listed isDeep => exact ⟨isDeep, List.Sublist.refl _⟩
  | suffixed suffixes isDeep found =>
      have same := getD_nonEmpty? ((d.list p isDeep).value.filter fun e => e.suffix.any suffixes.contains)
      rw [← value_findWithSuffixes, found, Option.getD_some] at same
      exact ⟨isDeep, same ▸ List.filter_sublist⟩

/-- Something is listed only in a directory with a canonical form. -/
theorem exists_canonical_of_mem_list (h : e ∈ (d.list p isDeep).value) :
    ∃ children root, d.node? p = some (.directory children) ∧ d.canonical p = .ok root := by
  by_cases isDirectory : d.isDirectory p = true
  · obtain ⟨children, there⟩ := isDirectory_iff.mp isDirectory
    cases canonical : d.canonical p with
    | ok root => exact ⟨children, root, there, rfl⟩
    | error error =>
        rw [list, isDirectory, canonical] at h
        cases h
  · rw [value_list_of_not_isDirectory (Bool.not_eq_true _ ▸ isDirectory)] at h
    cases h

theorem list_increasing (proper : d.root.Proper) : Tree.IncreasingPaths (d.list p isDeep).value := by
  cases listed : (d.list p isDeep).value with
  | nil => exact List.Pairwise.nil
  | cons e es =>
      rw [← listed]
      obtain ⟨children, root, there, canonical⟩ :=
        exists_canonical_of_mem_list (listed ▸ List.mem_cons_self : e ∈ (d.list p isDeep).value)
      have deep := list_deep_increasing proper there canonical
      cases isDeep with
      | true => exact deep
      | false =>
          rw [list_shallow_eq proper there canonical]
          exact deep.filter _

/-- **What is listed as a file leads back to it**, if its path can be opened. -/
theorem isFileWith_of_mem_list (proper : d.root.Proper) (storable : d.root.Storable)
    (h : e ∈ (d.list p isDeep).value) (file : e.kind = .file) (short : e.path.bytes.length ≤ pathLimit)
    (ends : e.suffix = some suffix) : d.isFileWith e.path (some suffix) = true := by
  obtain ⟨children, root, there, canonical⟩ := exists_canonical_of_mem_list h
  obtain ⟨ns, nonempty, -, t, found, rfl⟩ := exists_lists_of_mem_list proper there canonical h
  cases t with
  | file id =>
      obtain ⟨place, leads⟩ := resolve_below proper storable there canonical found nofun nonempty short
      exact isFileWith_iff.mpr ⟨⟨id, node?_eq_some_iff.mpr ⟨_, leads⟩⟩, ends⟩
  | directory children => cases file
  | link target => cases file
  | special => cases file

theorem suffix_of_mem_list (proper : d.root.Proper) (h : e ∈ (d.list p isDeep).value) :
    e.suffix = e.path.suffix? := by
  obtain ⟨children, root, there, canonical⟩ := exists_canonical_of_mem_list h
  obtain ⟨ns, -, -, t, -, rfl⟩ := exists_lists_of_mem_list proper there canonical h
  rfl

/-! ### Main statement -/

/-- **A document that is there is missed only for another copy.**  Take the first or the last copy of a name
among what is listed in a directory or found there by suffixes.
* The copies stand in the order of their paths.
* No document is found exactly if there is no copy, or the copy taken leads to no file for documents.
* What is listed as a file for documents leads to one, if its path can be opened.
* If such a file is among the copies, some copy is taken, and the outcome is that of loading it.  If the copy
  taken is a file whose path can be opened, it is a file for documents itself, and found or invalid. -/
theorem loadPicked_of_present (proper : d.root.Proper) (storable : d.root.Storable)
    (finds : d.Finds p tree) (name : String) (allowEmpty : Bool)
    (outermost : pick = .first ∨ pick = .last) :
    let copies := tree.filter (·.isNamed name)
    let outcome := (d.loadPicked tree name pick allowEmpty).value
    (copies.Pairwise fun a b => compare a.path b.path = .lt) ∧
      (outcome = .notFound ↔ ∀ e, pick.select copies = some e →
        d.isFileWith e.path (some Names.documentSuffix) = false) ∧
      (∀ e ∈ copies, e.IsDocumentFile → d.isFileWith e.path (some Names.documentSuffix) = true) ∧
      ((∃ e ∈ copies, e.IsDocumentFile) → ∃ e ∈ copies, pick.select copies = some e ∧
        outcome = (d.loadDocument e.path allowEmpty).value ∧
        (e.kind = .file → e.path.bytes.length ≤ pathLimit → e.IsDocumentFile ∧ outcome ≠ .notFound)) := by
  intro copies outcome
  obtain ⟨isDeep, part⟩ := finds.sublist
  have rises : tree.Pairwise fun a b => compare a.path b.path = .lt := (list_increasing proper).sublist part
  have own : ∀ e ∈ copies, e ∈ (d.list p isDeep).value ∧ e.path.nameBytes? = some (Utf8.encode name) := by
    intro e among
    obtain ⟨member, named⟩ := List.mem_filter.mp among
    exact ⟨part.mem member, Path.name?_eq_some_iff.mp (of_decide_eq_true named)⟩
  have present : ∀ e ∈ copies, e.IsDocumentFile →
      d.isFileWith e.path (some Names.documentSuffix) = true := fun e among ⟨file, ends, short⟩ =>
    isFileWith_of_mem_list proper storable (own e among).1 file short ends
  have selected : outcome = d.outcomeOf allowEmpty (pick.select copies) := by
    have inOrder : copiesOf tree name = copies := copiesOf_of_increasing rises
    rw [← inOrder]
    exact value_loadPicked
  refine ⟨rises.filter _, ?_, present, ?_⟩
  · rw [selected]
    cases pick.select copies with
    | none => exact ⟨fun _ => nofun, fun _ => rfl⟩
    | some e =>
        refine loadDocument_eq_notFound_iff.trans ⟨?_, fun leads => leads e rfl⟩
        rintro leads _ ⟨⟩
        exact leads
  · rintro ⟨f, amongF, -, ends, -⟩
    obtain ⟨e, among, taken⟩ := Pick.exists_select outermost (List.ne_nil_of_mem amongF)
    have loaded : outcome = (d.loadDocument e.path allowEmpty).value := by rw [selected, taken]; rfl
    refine ⟨e, among, taken, loaded, fun file short => ?_⟩
    -- Copies bear one name, so they end alike.
    have alike : e.suffix = f.suffix := by
      rw [suffix_of_mem_list proper (own e among).1, suffix_of_mem_list proper (own f amongF).1, Path.suffix?,
        Path.suffix?, (own e among).2, (own f amongF).2]
    have document : e.IsDocumentFile := ⟨file, alike.trans ends, short⟩
    refine ⟨document, fun missing => ?_⟩
    rw [loaded, loadDocument_eq_notFound_iff, present e among document] at missing
    cases missing

/-- What lies in the directory `/c` of the disk below: a blank document, and a directory with a directory in
it that has the name of the document. -/
def cabinetChildren : List (FileName × Tree) :=
  [(Utf8.encode "tokens.yaml", .file 0),
    (Utf8.encode "z", .directory [(Utf8.encode "tokens.yaml", .directory [])])]

/-- A disk with that directory. -/
def cabinet : Disk :=
  ⟨.directory [(Utf8.encode "c", .directory cabinetChildren)], [⟨Utf8.encode "# none\n", none⟩], []⟩

theorem cabinet_built : cabinet.Built :=
  ((Built.empty []).writeFile (.ofString "/c/tokens.yaml") (Utf8.encode "# none\n") rfl).makeDirectory
    (.ofString "/c/z/tokens.yaml") rfl

/-- What is found in that directory by the suffix of documents. -/
def cabinetTree : List Entry :=
  [.ofPath (.ofString "/c/tokens.yaml") .file, .ofPath (.ofString "/c/z/tokens.yaml") .directory]

theorem cabinet_found :
    (cabinet.findWithSuffixes (.ofString "/c") [Names.documentSuffix] true).value = some cabinetTree := by
  cbv

/-- The first copy is the document, and it is found. -/
theorem loadPicked_of_present_cabinet :
    let e := Entry.ofPath (.ofString "/c/tokens.yaml") .file
    cabinet.root.Proper ∧ cabinet.root.Storable ∧ cabinet.Finds (.ofString "/c") cabinetTree ∧
      e ∈ cabinetTree ∧ e.IsDocumentFile ∧
      (cabinet.loadPicked cabinetTree "tokens.yaml" .first true).value = .found [] ∧
      (cabinet.loadPicked cabinetTree "tokens.yaml" .first false).value ≠ .notFound := by
  intro e
  have finds : cabinet.Finds (.ofString "/c") cabinetTree := .suffixed _ true cabinet_found
  have document : e.IsDocumentFile := ⟨rfl, by decide, by decide⟩
  have among : e ∈ cabinetTree.filter (·.isNamed "tokens.yaml") := by decide
  obtain ⟨-, -, -, loads⟩ := loadPicked_of_present cabinet_built.proper cabinet_built.storable finds "tokens.yaml" true
    (.inl rfl)
  obtain ⟨-, -, -, refuses⟩ := loadPicked_of_present cabinet_built.proper cabinet_built.storable finds "tokens.yaml" false
    (.inl rfl)
  obtain ⟨f, -, taken, outcome, -⟩ := loads ⟨e, among, document⟩
  obtain ⟨f', -, taken', -, there⟩ := refuses ⟨e, among, document⟩
  obtain rfl : e = f := Option.some.inj taken
  obtain rfl : e = f' := Option.some.inj taken'
  refine ⟨cabinet_built.proper, cabinet_built.storable, finds, .head _, document, outcome.trans (by cbv), ?_⟩
  exact (there rfl document.2.2).2

/-- The last copy is the directory: no document is found, though one is there. -/
theorem loadPicked_passes_over_file :
    let e := Entry.ofPath (.ofString "/c/tokens.yaml") .file
    (cabinet.findWithSuffixes (.ofString "/c") [Names.documentSuffix] true).value = some cabinetTree ∧
      e ∈ cabinetTree ∧ e.isNamed "tokens.yaml" = true ∧
      cabinet.isFileWith e.path (some Names.documentSuffix) = true ∧
      (cabinet.loadDocument e.path true).value = .found [] ∧
      (cabinet.loadPicked cabinetTree "tokens.yaml" .last true).value = .notFound :=
  ⟨cabinet_found, .head _, by decide, by decide, by cbv, by cbv⟩

end Disk

end ProjectIndex
