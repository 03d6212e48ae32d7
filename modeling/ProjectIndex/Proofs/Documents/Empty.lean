import Mathlib.Data.List.Find
import ProjectIndex.Proofs.Documents.Collected

/-!
# Empty documents

A text without content may be taken for an empty document, or be refused.  The caller says which, and this is
all that the choice decides: `Disk.allowEmpty_adds_only_empty`.

For a single document that is one function on outcomes (`Outcome.admitEmpty`), which every way of loading
one commutes with.  For the documents of a name it takes more.  The table of documents keeps the spelling of
the path that held a document first, and with empty documents refused this could be a later one.  It is
not, since paths that say the same and lead to files lead to one file: either all of them are refused or
none (`isFoundAnyway_congr`).  So the smaller table is a part of the larger one, spellings included
(`Disk.items_false`).
-/

namespace ProjectIndex

/-! ### One document -/

namespace Outcome

/-- The outcome if a text without content is taken for an empty document instead of being refused. -/
def admitEmpty : Outcome → Outcome
  | invalid .empty => found []
  | outcome => outcome

theorem ofNothing_true : ofNothing true = (ofNothing false).admitEmpty := rfl

theorem ofValue_true (v : Yaml.Value) : ofValue true v = (ofValue false v).admitEmpty := by
  cases v <;> rfl

theorem ofText_true (text : String) : ofText text true = (ofText text false).admitEmpty := by
  unfold ofText
  split
  · exact ofNothing_true
  · split
    · exact ofValue_true _
    · rfl

/-- What is found if empty documents are allowed is found anyway, or is an empty document that is refused. -/
theorem found_or_of_admitEmpty {outcome : Outcome} {document : Document}
    (h : outcome.admitEmpty = .found document) :
    outcome = .found document ∨ outcome = .invalid .empty ∧ document = [] := by
  unfold admitEmpty at h
  split at h
  · exact .inr ⟨rfl, (found.inj h).symm⟩
  · exact .inl h

end Outcome

namespace Disk

variable {d : Disk} {p q : Path} {tree : List Entry} {name : String} {pick : Pick} {allowEmpty : Bool}
  {item item' : Path × Document}

theorem value_loadDocument (d : Disk) (p : Path) (allowEmpty : Bool) :
    (d.loadDocument p allowEmpty).value =
      if d.isFileWith p (some Names.documentSuffix) then
        match d.readText p with
        | .error e => .invalid (.unreadable e)
        | .ok text => Outcome.ofText text allowEmpty
      else .notFound := by
  unfold loadDocument
  cases d.isFileWith p (some Names.documentSuffix) with
  | false => rfl
  | true =>
      cases d.readText p with
      | error e => rfl
      | ok text =>
          dsimp only
          cases Outcome.ofText text allowEmpty <;> rfl

theorem loadDocument_true (d : Disk) (p : Path) :
    (d.loadDocument p true).value = (d.loadDocument p false).value.admitEmpty := by
  rw [value_loadDocument, value_loadDocument]
  split
  · cases d.readText p with
    | error e => rfl
    | ok text => exact Outcome.ofText_true text
  · rfl

theorem outcomeOf_true (d : Disk) (copy : Option Entry) :
    d.outcomeOf true copy = (d.outcomeOf false copy).admitEmpty := by
  cases copy with
  | none => rfl
  | some e => exact loadDocument_true d e.path

/-! ### The documents of a name -/

/-- The document is found even if empty documents are refused. -/
def isFoundAnyway (d : Disk) (item : Path × Document) : Bool := (d.loadDocument item.1 false).value.isFound

/-- Without empty documents, an entry gives what it gives with them, unless that is refused. -/
theorem documentAt?_false (d : Disk) (e : Entry) :
    d.documentAt? false e = (d.documentAt? true e).filter d.isFoundAnyway := by
  have anyway : ∀ document, d.isFoundAnyway (e.path, document) = (d.loadDocument e.path false).value.isFound :=
    fun _ => rfl
  unfold documentAt?
  rw [loadDocument_true]
  cases outcome : (d.loadDocument e.path false).value with
  | found document => simp [Outcome.admitEmpty, Outcome.document?, Outcome.isFound, Option.filter, anyway, outcome]
  | notFound => rfl
  | invalid reason =>
      cases reason with
      | empty => simp [Outcome.admitEmpty, Outcome.document?, Outcome.isFound, Option.filter, anyway, outcome]
      | _ => rfl

theorem documentsNamed_false (d : Disk) (tree : List Entry) (name : String) :
    d.documentsNamed tree name false = (d.documentsNamed tree name true).filter d.isFoundAnyway := by
  unfold documentsNamed
  rw [List.filter_filterMap]
  congr 1
  funext e
  exact documentAt?_false d e

/-- **Documents under paths that say the same are both found anyway, or both not.** -/
theorem isFoundAnyway_congr (h : item ∈ d.documentsNamed tree name true)
    (h' : item' ∈ d.documentsNamed tree name true) (same : compare item.1 item'.1 = .eq) :
    d.isFoundAnyway item = d.isFoundAnyway item' := by
  -- No path in question leads nowhere, for a document is found there if empty ones are allowed.
  have there : ∀ i ∈ d.documentsNamed tree name true, (d.loadDocument i.1 false).value ≠ .notFound := by
    rintro ⟨_, document⟩ member missing
    obtain ⟨e, -, -, rfl, found⟩ := mem_documentsNamed.mp member
    rw [loadDocument_true, missing] at found
    cases found
  unfold isFoundAnyway
  rw [loadDocument_of_components (there item' h') (there item h) (Path.compare_eq_iff.mp same)]

/-- The documents of a name that are loaded, by path. -/
def items (d : Disk) (tree : List Entry) (name : String) (allowEmpty : Bool) : List (Path × Document) :=
  ((d.loadAllNamed tree name allowEmpty).value.map (·.toList)).getD []

theorem items_eq (d : Disk) (tree : List Entry) (name : String) (allowEmpty : Bool) :
    d.items tree name allowEmpty = (Table.putAll ∅ (d.documentsNamed tree name allowEmpty)).toList := by
  unfold items
  rw [value_loadAllNamed]
  dsimp only
  split
  · next empty =>
      rw [Std.TreeMap.isEmpty_toList.symm, List.isEmpty_iff] at empty
      exact empty.symm
  · rfl

theorem mem_items : item ∈ d.items tree name allowEmpty ↔
    (d.documentsNamed tree name allowEmpty).find? (fun other => compare other.1 item.1 == .eq) =
      some item := by
  rw [items_eq, Table.mem_toList_iff, Table.item?_putAll_emptyc documentsNamed_consistent]

/-- A document stands under a path at which it is found. -/
theorem loadDocument_of_mem_items (h : item ∈ d.items tree name allowEmpty) :
    (d.loadDocument item.1 allowEmpty).value = .found item.2 := by
  obtain ⟨path, document⟩ := item
  have among := List.mem_of_find?_eq_some (mem_items.mp h)
  obtain ⟨e, -, -, rfl, found⟩ := mem_documentsNamed.mp among
  exact found

/-- **If empty documents are refused, those are left that are found anyway.** -/
theorem items_false (d : Disk) (tree : List Entry) (name : String) :
    d.items tree name false = (d.items tree name true).filter d.isFoundAnyway := by
  have rises : ∀ allowEmpty, (d.items tree name allowEmpty).Pairwise fun a b => compare a.1 b.1 = .lt := by
    intro allowEmpty
    rw [items_eq]
    exact Std.TreeMap.ordered_keys_toList
  -- A search for the key of a document that is found anyway passes over nothing that is refused.
  have search : ∀ item ∈ d.documentsNamed tree name true, d.isFoundAnyway item = true →
      (d.documentsNamed tree name false).find? (fun other => compare other.1 item.1 == .eq) =
        (d.documentsNamed tree name true).find? fun other => compare other.1 item.1 == .eq := by
    intro item among anyway
    rw [documentsNamed_false, List.find?_filter]
    refine List.find?_congr ?_
    intro other member
    by_cases same : compare other.1 item.1 = .eq
    · simp [same, isFoundAnyway_congr member among same, anyway]
    · simp [same]
  refine eq_of_pairwise_lt_of_mem_iff (rises false) ((rises true).filter _) ?_
  intro item
  rw [List.mem_filter, mem_items, mem_items]
  constructor
  · intro first
    have left := List.mem_of_find?_eq_some first
    rw [documentsNamed_false, List.mem_filter] at left
    exact ⟨(search item left.1 left.2).symm.trans first, left.2⟩
  · rintro ⟨first, anyway⟩
    exact (search item (List.mem_of_find?_eq_some first) anyway).trans first

/-- **Allowing empty documents adds empty documents and changes nothing else.**
* The outcome for a text, for a file, and for a copy of whatever place, is the outcome without them, save that
  an empty document is found where it was refused.
* All documents of a name that are loaded without them are loaded with them, under the same path in the
  same spelling.
* What is loaded besides these is empty, and the file at its path is refused as empty without them. -/
theorem allowEmpty_adds_only_empty (d : Disk) (tree : List Entry) (name : String) :
    let items := fun allowEmpty => ((d.loadAllNamed tree name allowEmpty).value.map (·.toList)).getD []
    (∀ text, Outcome.ofText text true = (Outcome.ofText text false).admitEmpty) ∧
      (∀ p, (d.loadDocument p true).value = (d.loadDocument p false).value.admitEmpty) ∧
      (∀ pick, (d.loadPicked tree name pick true).value =
        (d.loadPicked tree name pick false).value.admitEmpty) ∧
      (∀ path document, (path, document) ∈ items false → (path, document) ∈ items true) ∧
      ∀ path document, (path, document) ∈ items true → (path, document) ∉ items false →
        document = [] ∧ (d.loadDocument path false).value = .invalid .empty := by
  intro items
  have part : items false = (items true).filter d.isFoundAnyway := items_false d tree name
  refine ⟨Outcome.ofText_true, loadDocument_true d, ?_, ?_, ?_⟩
  · intro pick
    rw [value_loadPicked, value_loadPicked]
    exact outcomeOf_true d _
  · intro path document member
    rw [part, List.mem_filter] at member
    exact member.1
  · intro path document member other
    have found : (d.loadDocument path true).value = .found document := loadDocument_of_mem_items member
    rw [loadDocument_true] at found
    rcases Outcome.found_or_of_admitEmpty found with anyway | ⟨refused, empty⟩
    · -- Such a document would have been loaded without empty ones as well.
      have passes : d.isFoundAnyway (path, document) = true := by
        unfold isFoundAnyway
        rw [anyway]
        rfl
      rw [part, List.mem_filter] at other
      exact absurd ⟨member, passes⟩ other
    · exact ⟨empty, refused⟩

/-- Of three files one is blank and the others cannot be read: only with empty documents there is a table. -/
theorem allowEmpty_adds_only_empty_three :
    let blank := Path.ofString "/a/x.yaml"
    let items := fun allowEmpty =>
      ((threeCopies.loadAllNamed threeCopiesTree "x.yaml" allowEmpty).value.map (·.toList)).getD []
    items false = [] ∧ items true = [(blank, [])] ∧
      (threeCopies.loadDocument blank false).value = .invalid .empty := by
  intro blank items
  have refused : items false = [] := by cbv
  have allowed : items true = [(blank, [])] := by cbv
  obtain ⟨-, -, -, -, added⟩ := allowEmpty_adds_only_empty threeCopies threeCopiesTree "x.yaml"
  have member : (blank, []) ∈ items true := by
    rw [allowed]
    exact List.mem_singleton_self _
  have other : (blank, []) ∉ items false := by
    rw [refused]
    exact List.not_mem_nil
  exact ⟨refused, allowed, (added blank [] member other).2⟩

end Disk

end ProjectIndex
