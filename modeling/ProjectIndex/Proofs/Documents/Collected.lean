import ProjectIndex.Proofs.Disk.Route
import ProjectIndex.Proofs.Documents.Present
import ProjectIndex.Proofs.Table

/-!
# Documents collected by path

All documents of a name can be loaded at once, into a table by path.  It is filled entry by entry, and a
later document replaces an earlier one if their paths say the same.  Still the entries may come in any order
and in several parts: `Disk.loadAllNamed_pointwise`.

What this needs is a fact about disks.  Paths that say the same need not load alike, since a slash behind
the name of a file leads nowhere; but if there is a document under both of them, they lead to the same file
(`Disk.loadDocument_of_components`).  So a document is only ever replaced by itself.
-/

namespace ProjectIndex.Disk

variable {d : Disk} {p q key : Path} {t t' : Tree} {names names' : List FileName}
  {tree tree' : List Entry} {name : String} {allowEmpty : Bool} {e : Entry} {document : Document}

/-! ### Paths that say the same -/

/-- Paths that say the same lead to one node, if both lead anywhere. -/
theorem resolve_of_components (found : d.resolve p = .ok (names, t)) (found' : d.resolve q = .ok (names', t'))
    (same : q.components = p.components) : d.resolve q = d.resolve p := by
  obtain ⟨leads, there⟩ := resolve_eq_ok_iff.mp found
  obtain ⟨leads', there'⟩ := resolve_eq_ok_iff.mp found'
  obtain rfl := (locate_eq_ok_iff.mp leads).unique (locate_eq_ok_iff.mp leads') same
  obtain rfl := Option.some.inj (there.symm.trans there')
  rw [found, found']

/-- **Paths that say the same load alike, if there is a document under both**, be it valid or not. -/
theorem loadDocument_of_components (there : (d.loadDocument p allowEmpty).value ≠ .notFound)
    (there' : (d.loadDocument q allowEmpty).value ≠ .notFound) (same : q.components = p.components) :
    (d.loadDocument q allowEmpty).value = (d.loadDocument p allowEmpty).value := by
  rw [Ne, loadDocument_eq_notFound_iff, Bool.not_eq_false] at there there'
  obtain ⟨⟨_, node⟩, -⟩ := isFileWith_iff.mp there
  obtain ⟨⟨_, node'⟩, -⟩ := isFileWith_iff.mp there'
  obtain ⟨_, found⟩ := node?_eq_some_iff.mp node
  obtain ⟨_, found'⟩ := node?_eq_some_iff.mp node'
  have text : d.readText q = d.readText p := by
    rw [readText, readText, readBytes, readBytes, resolve_of_components found found' same]
  rw [loadDocument, loadDocument, there, there', text]
  cases d.readText p with
  | error e => rfl
  | ok text =>
      dsimp only
      cases Outcome.ofText text allowEmpty <;> rfl

/-! ### Collecting -/

/-- The document of an entry under the path of the entry, if there is a document. -/
def documentAt? (d : Disk) (allowEmpty : Bool) (e : Entry) : Option (Path × Document) :=
  (d.loadDocument e.path allowEmpty).value.document?.map (e.path, ·)

theorem documentAt?_eq_some_iff :
    d.documentAt? allowEmpty e = some (key, document) ↔
      e.path = key ∧ (d.loadDocument e.path allowEmpty).value = .found document := by
  rw [documentAt?, Option.map_eq_some_iff]
  constructor
  · rintro ⟨_, there, same⟩
    obtain ⟨rfl, rfl⟩ := Prod.mk.inj same
    exact ⟨rfl, Outcome.document?_eq_some_iff.mp there⟩
  · rintro ⟨rfl, there⟩
    exact ⟨document, Outcome.document?_eq_some_iff.mpr there, rfl⟩

/-- The documents of the entries of a name, each under the path of its entry. -/
def documentsNamed (d : Disk) (tree : List Entry) (name : String) (allowEmpty : Bool) :
    List (Path × Document) :=
  (tree.filter (·.isNamed name)).filterMap (d.documentAt? allowEmpty)

theorem mem_documentsNamed :
    (key, document) ∈ d.documentsNamed tree name allowEmpty ↔
      ∃ e ∈ tree, e.isNamed name = true ∧ e.path = key ∧
        (d.loadDocument e.path allowEmpty).value = .found document := by
  rw [documentsNamed, List.mem_filterMap]
  simp only [List.mem_filter, documentAt?_eq_some_iff, and_assoc]

theorem documentsNamed_consistent : Table.Consistent (d.documentsNamed tree name allowEmpty) := by
  rintro ⟨_, a⟩ memberA ⟨_, b⟩ memberB same
  obtain ⟨e, -, -, rfl, foundA⟩ := mem_documentsNamed.mp memberA
  obtain ⟨f, -, -, rfl, foundB⟩ := mem_documentsNamed.mp memberB
  have there : (d.loadDocument e.path allowEmpty).value ≠ .notFound := by rw [foundA]; exact nofun
  have there' : (d.loadDocument f.path allowEmpty).value ≠ .notFound := by rw [foundB]; exact nofun
  have alike := loadDocument_of_components there there' (Path.compare_eq_iff.mp same).symm
  rw [foundA, foundB] at alike
  exact (Outcome.found.inj alike).symm

/-- An entry whose document is found sets it in the table; any other entry leaves the table as it is. -/
theorem value_loadInto (loaded : Table Path Document) :
    (d.loadInto allowEmpty loaded e).value = Table.putAll loaded (d.documentAt? allowEmpty e).toList := by
  rw [loadInto, documentAt?, Logged.value_bind]
  cases (d.loadDocument e.path allowEmpty).value <;> rfl

theorem value_foldlM_loadInto (named : List Entry) (loaded : Table Path Document) :
    (named.foldlM (d.loadInto allowEmpty) loaded).value =
      Table.putAll loaded (named.filterMap (d.documentAt? allowEmpty)) := by
  induction named generalizing loaded with
  | nil => rfl
  | cons e named ih =>
      rw [List.foldlM_cons, Logged.value_bind, ih, value_loadInto]
      cases there : d.documentAt? allowEmpty e with
      | none => rw [List.filterMap_cons_none there]; rfl
      | some item => rw [List.filterMap_cons_some there]; rfl

/-- The table is made by setting the documents one after the other; an empty one counts for none. -/
theorem value_loadAllNamed : (d.loadAllNamed tree name allowEmpty).value =
    let table := Table.putAll ∅ (d.documentsNamed tree name allowEmpty)
    if table.isEmpty then none else some table := by
  rw [loadAllNamed, findNamed, documentsNamed]
  cases tree.filter (·.isNamed name) with
  | nil => rfl
  | cons e named =>
      rw [nonEmpty?_of_ne_nil (List.cons_ne_nil e named)]
      simp only [Logged.value_bind, Logged.value_pure, value_foldlM_loadInto]

/-- The document under a path, once those of a name are collected. -/
def documentUnder (d : Disk) (tree : List Entry) (name : String) (allowEmpty : Bool) (key : Path) :
    Option Document :=
  (d.loadAllNamed tree name allowEmpty).value.bind (·.get? key)

theorem documentUnder_eq_get? : d.documentUnder tree name allowEmpty key =
    (Table.putAll ∅ (d.documentsNamed tree name allowEmpty)).get? key := by
  rw [documentUnder, value_loadAllNamed]
  dsimp only
  split
  · next empty => exact (Std.TreeMap.getElem?_of_isEmpty empty).symm
  · rfl

/-- **A document is under a path exactly if an entry whose path says the same holds it.** -/
theorem documentUnder_eq_some_iff : d.documentUnder tree name allowEmpty key = some document ↔
    ∃ e ∈ tree, e.isNamed name = true ∧ e.path.components = key.components ∧
      (d.loadDocument e.path allowEmpty).value = .found document := by
  rw [documentUnder_eq_get?, Table.get?_putAll_emptyc documentsNamed_consistent]
  constructor
  · rintro ⟨_, same, member⟩
    obtain ⟨e, he, named, rfl, found⟩ := mem_documentsNamed.mp member
    exact ⟨e, he, named, (Path.compare_eq_iff.mp same).symm, found⟩
  · rintro ⟨e, he, named, same, found⟩
    exact ⟨e.path, Path.compare_eq_iff.mpr same.symm, mem_documentsNamed.mpr ⟨e, he, named, rfl, found⟩⟩

/-- There is no table exactly if no entry of the name holds a document. -/
theorem loadAllNamed_eq_none_iff : (d.loadAllNamed tree name allowEmpty).value = none ↔
    ∀ e ∈ tree, e.isNamed name = true → ∀ document,
      (d.loadDocument e.path allowEmpty).value ≠ .found document := by
  constructor
  · intro missing e he named document found
    have under : d.documentUnder tree name allowEmpty e.path = some document :=
      documentUnder_eq_some_iff.mpr ⟨e, he, named, rfl, found⟩
    rw [documentUnder, missing] at under
    cases under
  · intro missing
    have nothing : d.documentsNamed tree name allowEmpty = [] := by
      rw [List.eq_nil_iff_forall_not_mem]
      rintro ⟨_, document⟩ member
      obtain ⟨e, he, named, -, found⟩ := mem_documentsNamed.mp member
      exact missing e he named document found
    rw [value_loadAllNamed, nothing]
    rfl

/-! ### Other trees -/

theorem documentUnder_perm (perm : tree'.Perm tree) :
    d.documentUnder tree' name allowEmpty key = d.documentUnder tree name allowEmpty key := by
  ext document
  simp only [documentUnder_eq_some_iff, perm.mem_iff]

/-- What is under a path stays there if there are more entries. -/
theorem documentUnder_subset (subset : tree ⊆ tree')
    (under : d.documentUnder tree name allowEmpty key = some document) :
    d.documentUnder tree' name allowEmpty key = some document := by
  obtain ⟨e, he, holds⟩ := documentUnder_eq_some_iff.mp under
  exact documentUnder_eq_some_iff.mpr ⟨e, subset he, holds⟩

/-- Two trees do not disagree about a path, since they would together. -/
theorem documentUnder_unique {document' : Document}
    (under : d.documentUnder tree name allowEmpty key = some document)
    (under' : d.documentUnder tree' name allowEmpty key = some document') : document = document' := by
  have both := documentUnder_subset (List.subset_append_left tree tree') under
  rw [documentUnder_subset (List.subset_append_right tree tree') under'] at both
  exact (Option.some.inj both).symm

/-- Under a path is what the one tree or else the other has there. -/
theorem documentUnder_append (tree tree' : List Entry) (key : Path) :
    d.documentUnder (tree ++ tree') name allowEmpty key =
      (d.documentUnder tree name allowEmpty key).or (d.documentUnder tree' name allowEmpty key) := by
  have inOne : ∀ document, d.documentUnder (tree ++ tree') name allowEmpty key = some document →
      d.documentUnder tree name allowEmpty key = some document ∨
        d.documentUnder tree' name allowEmpty key = some document := by
    intro document both
    obtain ⟨e, member, holds⟩ := documentUnder_eq_some_iff.mp both
    rcases List.mem_append.mp member with he | he
    · exact .inl (documentUnder_eq_some_iff.mpr ⟨e, he, holds⟩)
    · exact .inr (documentUnder_eq_some_iff.mpr ⟨e, he, holds⟩)
  cases one : d.documentUnder tree name allowEmpty key with
  | some document => exact documentUnder_subset (List.subset_append_left tree tree') one
  | none =>
      rw [Option.none_or]
      ext document
      constructor
      · intro both
        exact (inOne document both).resolve_left (by rw [one]; exact nofun)
      · exact documentUnder_subset (List.subset_append_right tree tree')

/-- **Documents are collected path by path.**  Whatever the entries of a tree are, in any order, repeated, and
with the same path in several spellings:
* a document is under a path exactly if an entry of the name whose path says the same holds it;
* there is no table exactly if no entry of the name holds a document;
* another order of the entries gives the same documents under the same paths;
* two trees together give the documents of the one and of the other.  A path that has a document from both
  has the same from both. -/
theorem loadAllNamed_pointwise (d : Disk) (name : String) (allowEmpty : Bool) :
    let loaded := fun tree : List Entry => (d.loadAllNamed tree name allowEmpty).value
    let under := fun tree key => d.documentUnder tree name allowEmpty key
    (∀ tree key document, under tree key = some document ↔
        ∃ e ∈ tree, e.isNamed name = true ∧ e.path.components = key.components ∧
          (d.loadDocument e.path allowEmpty).value = .found document) ∧
      (∀ tree, loaded tree = none ↔ ∀ e ∈ tree, e.isNamed name = true → ∀ document,
        (d.loadDocument e.path allowEmpty).value ≠ .found document) ∧
      (∀ tree tree', tree'.Perm tree →
        (loaded tree' = none ↔ loaded tree = none) ∧
          ∀ key, under tree' key = under tree key) ∧
      ∀ tree tree',
        (loaded (tree ++ tree') = none ↔ loaded tree = none ∧ loaded tree' = none) ∧
          (∀ key, under (tree ++ tree') key = (under tree key).or (under tree' key)) ∧
          ∀ key document document', under tree key = some document →
            under tree' key = some document' → document = document' := by
  intro loaded under
  have absent : ∀ tree, loaded tree = none ↔ ∀ e ∈ tree, e.isNamed name = true → ∀ document,
      (d.loadDocument e.path allowEmpty).value ≠ .found document := fun _ => loadAllNamed_eq_none_iff
  refine ⟨fun _ _ _ => documentUnder_eq_some_iff, absent, ?_, ?_⟩
  · intro tree tree' perm
    refine ⟨?_, fun _ => documentUnder_perm perm⟩
    simp only [absent, perm.mem_iff]
  · intro tree tree'
    refine ⟨?_, documentUnder_append tree tree', fun _ _ _ => documentUnder_unique⟩
    simp only [absent, List.forall_mem_append]

/-- A slash behind the name of a file leads nowhere, any other spelling to the one document. -/
example :
    let spellings := ["/a/x.yaml/", "/a//x.yaml", "/a/./x.yaml", "/a/x.yaml/."]
    let tree := spellings.map fun path => Entry.ofPath (.ofString path) .file
    tree.all (·.isNamed "x.yaml") = true ∧
      (threeCopies.loadAllNamed tree "x.yaml" true).value.map (·.toList) =
        some [(.ofString "/a//x.yaml", [])] := by
  cbv

end ProjectIndex.Disk
