import ProjectIndex.Proofs.Documents.Collected
import ProjectIndex.Proofs.Loader.Compiler
import ProjectIndex.Proofs.Topics

/-!
# What is not loaded is reported

A lenient run goes on without the documents that it cannot load, and the log is where this shows.  The log
tells of each of them once, and of nothing else: `loads_or_reports`.

Two loops can do without a document, and each reports on a topic of its own.

* The names of data files are taken one after the other.  `Accounts` is the run of this loop, with one
  `Account` for each name: an item that is added to the database, or an event.
* The entries of a name are taken one after the other.  What the log says of them is the list of what it says
  of each (`Disk.reports_loadAllNamed`), and if no two paths say the same, one of these is about a given path.
-/

namespace ProjectIndex

open Logged (reports_bind value_bind value_pure reports_pure reports_report)

/-! ### The names of data files -/

section Accounts

variable {outcome : String → Outcome} {t t' : Table String Document} {name : String} {names : List String}
  {reports : List LogEvent}

/-- What one name does to the database: its document is added, or the database stays and one event says
why. -/
inductive Account (outcome : Outcome) (name : String) (t : Table String Document) :
    Table String Document → List LogEvent → Prop
  /-- A document is found, and is the first one of the name. -/
  | added {document : Document} (found : outcome = .found document) (new : t.contains name = false) :
    Account outcome name t (t.insert name document) []
  /-- A document is found, but the name came before. -/
  | again {document : Document} (found : outcome = .found document) (there : t.contains name = true) :
    Account outcome name t t [.duplicateKey (.text name)]
  | missing (absent : outcome = .notFound) : Account outcome name t t [.dataFileMissing name]
  | invalid {reason : InvalidReason} (refused : outcome = .invalid reason) :
    Account outcome name t t [.dataFileInvalid name reason.message]

/-- What names do to the database, one after the other. -/
inductive Accounts (outcome : String → Outcome) :
    Table String Document → List String → Table String Document → List LogEvent → Prop
  | nil (t : Table String Document) : Accounts outcome t [] t []
  | cons {t t' t'' : Table String Document} {name : String} {names : List String} {own rest : List LogEvent}
    (first : Account (outcome name) name t t' own) (behind : Accounts outcome t' names t'' rest) :
    Accounts outcome t (name :: names) t'' (own ++ rest)

theorem Account.balance {outcome : Outcome} (h : Account outcome name t t' reports) :
    reports.length + t'.size = t.size + 1 := by
  cases h with
  | added found new =>
      rw [Table.size_insert_of_fresh new]
      exact Nat.zero_add _
  | again found there => exact Nat.add_comm _ _
  | missing absent => exact Nat.add_comm _ _
  | invalid refused => exact Nat.add_comm _ _

/-- **There are as many items and events as names.** -/
theorem Accounts.balance (h : Accounts outcome t names t' reports) :
    reports.length + t'.size = names.length + t.size := by
  induction h with
  | nil t => rfl
  | cons first behind ih =>
      have one := first.balance
      rw [List.length_append, List.length_cons]
      omega

theorem Account.level {outcome : Outcome} (h : Account outcome name t t' reports) :
    ∀ event ∈ reports, event.level = .warn := by
  cases h with
  | added found new => exact nofun
  | again found there => exact List.forall_mem_singleton.mpr rfl
  | missing absent => exact List.forall_mem_singleton.mpr rfl
  | invalid refused => exact List.forall_mem_singleton.mpr rfl

theorem Accounts.level (h : Accounts outcome t names t' reports) : ∀ event ∈ reports, event.level = .warn := by
  induction h with
  | nil t => exact nofun
  | cons first behind ih => exact List.forall_mem_append.mpr ⟨first.level, ih⟩

end Accounts

namespace Settings

variable {s : Settings} {d : Disk} {c : CompilerData}

/-- What the name of a data file leads to. -/
def dataOutcome (s : Settings) (d : Disk) (tree : List Entry) (name : String) : Outcome :=
  (d.loadPicked tree name s.pick false).value

/-- One name is accounted for. -/
theorem account_loadData (lenient : s.isStrict = false) (d : Disk) (tree : List Entry)
    (t : Table String Document) (name : String) :
    ∃ t', (s.loadData d tree t name).value = some t' ∧
      Account (s.dataOutcome d tree name) name t t' ((s.loadData d tree t name).reports Topic.isShortfall) := by
  have quiet := (d.isQuiet_loadPicked tree name s.pick false).reports_eq Topic.isShortfall rfl
  unfold loadData
  rw [lenient, reports_bind, value_bind, quiet, List.nil_append]
  show ∃ t', _ = _ ∧ Account (d.loadPicked tree name s.pick false).value _ _ _ _
  cases (d.loadPicked tree name s.pick false).value with
  | found document =>
      dsimp only
      unfold Table.insertOnce
      cases present : t.contains name with
      | true => exact ⟨t, rfl, .again rfl present⟩
      | false => exact ⟨_, rfl, .added rfl present⟩
  | notFound => exact ⟨t, rfl, .missing rfl⟩
  | invalid reason => exact ⟨t, rfl, .invalid rfl⟩

/-- **All names are accounted for**, one after the other. -/
theorem accounts_loadDatabase (lenient : s.isStrict = false) (d : Disk) (tree : List Entry)
    (t : Table String Document) (names : List String) :
    ∃ t', (s.loadDatabase d tree t names).value = .ok t' ∧
      Accounts (s.dataOutcome d tree) t names t' ((s.loadDatabase d tree t names).reports Topic.isShortfall) := by
  induction names generalizing t with
  | nil => exact ⟨t, rfl, .nil t⟩
  | cons name names ih =>
      obtain ⟨t', first, account⟩ := account_loadData lenient d tree t name
      obtain ⟨t'', rest, accounts⟩ := ih t'
      unfold loadDatabase
      rw [value_bind, reports_bind, first]
      exact ⟨t'', rest, .cons account accounts⟩

/-- The compiler phase reports what its loop over the names does. -/
theorem accounts_loadCompiler (lenient : s.isStrict = false) (loaded : (s.loadCompiler d).value = .ok c) :
    Accounts (s.dataOutcome d c.tree) ∅ s.dataFiles c.database ((s.loadCompiler d).reports Topic.isShortfall) := by
  have quiet := (d.isQuiet_findWithSuffixes s.compilerDirectory s.dataSuffixes true).reports_eq
    Topic.isShortfall rfl
  unfold loadCompiler at loaded ⊢
  dsimp only at loaded ⊢
  split at loaded
  · cases loaded
  · next there =>
    rw [if_neg there]
    rw [value_bind] at loaded
    rw [reports_bind, quiet, List.nil_append]
    cases found : (d.findWithSuffixes s.compilerDirectory s.dataSuffixes true).value with
    | none =>
        rw [found] at loaded
        cases loaded
    | some tree =>
        obtain ⟨database, value, accounts⟩ := accounts_loadDatabase lenient d tree ∅ s.dataFiles
        rw [found] at loaded
        simp only [value_bind, value, value_pure] at loaded
        obtain rfl := Except.ok.inj loaded
        simp only [reports_bind, value, reports_pure, reports_report]
        -- The two events around the loop are on other topics.
        show Accounts _ ∅ s.dataFiles database ([] ++ (_ ++ ([] ++ [])))
        rw [List.nil_append, List.append_nil, List.append_nil]
        exact accounts

end Settings

/-! ### The entries of a name -/

/-- The document at a path is loaded under this path, or one event says why not. -/
inductive LoadsOrSkips (p : Path) : Outcome → (isKey : Bool) → List LogEvent → Prop
  | loaded {document : Document} : LoadsOrSkips p (.found document) true []
  | other : LoadsOrSkips p .notFound false [.skippedOther p]
  | refused {reason : InvalidReason} : LoadsOrSkips p (.invalid reason) false [.skippedInvalid p reason.message]

theorem LoadsOrSkips.level {p : Path} {outcome : Outcome} {isKey : Bool} {own : List LogEvent}
    (h : LoadsOrSkips p outcome isKey own) :
    ∀ event ∈ own, event.level = if outcome.isNotFound then .debug else .warn := by
  cases h with
  | loaded => exact nofun
  | other => exact List.forall_mem_singleton.mpr rfl
  | refused => exact List.forall_mem_singleton.mpr rfl

namespace Disk

variable {d : Disk} {tree : List Entry} {name : String} {allowEmpty : Bool} {e : Entry} {p : Path}
  {on : Topic → Bool}

/-- What is reported of an entry that is passed over. -/
def skip? (d : Disk) (allowEmpty : Bool) (e : Entry) : Option LogEvent :=
  match (d.loadDocument e.path allowEmpty).value with
  | .found _ => none
  | .notFound => some (.skippedOther e.path)
  | .invalid reason => some (.skippedInvalid e.path reason.message)

theorem topic_of_skip? {event : LogEvent} (h : d.skip? allowEmpty e = some event) :
    event.topic = .skip e.path := by
  unfold skip? at h
  split at h
  · cases h
  · obtain rfl := Option.some.inj h
    rfl
  · obtain rfl := Option.some.inj h
    rfl

/-- An entry is reported of on its own path only. -/
theorem filter_skip? (e : Entry) (p : Path) :
    (d.skip? allowEmpty e).filter (fun event => event.topic.isSkipOf p) =
      if e.path.same p then d.skip? allowEmpty e else none := by
  cases said : d.skip? allowEmpty e with
  | none =>
      rw [ite_self]
      rfl
  | some event =>
      show (if event.topic.isSkipOf p then some event else none) = if e.path.same p then some event else none
      rw [topic_of_skip? said]
      rfl

theorem reports_loadInto (off : on .other = false) (t : Table Path Document) (e : Entry) :
    (d.loadInto allowEmpty t e).reports on =
      (d.skip? allowEmpty e).toList.filter fun event => on event.topic := by
  have quiet := (d.isQuiet_loadDocument e.path allowEmpty).reports_eq on off
  unfold loadInto skip?
  rw [reports_bind, quiet, List.nil_append]
  cases (d.loadDocument e.path allowEmpty).value with
  | found document => rfl
  | notFound => rfl
  | invalid reason => rfl

theorem reports_foldlM_loadInto (off : on .other = false) (named : List Entry) (t : Table Path Document) :
    (named.foldlM (d.loadInto allowEmpty) t).reports on =
      (named.filterMap (d.skip? allowEmpty)).filter fun event => on event.topic := by
  induction named generalizing t with
  | nil => rfl
  | cons e named ih =>
      rw [List.foldlM_cons, reports_bind, ih, reports_loadInto off, ← List.filter_append]
      congr 1
      cases said : d.skip? allowEmpty e with
      | none => rw [List.filterMap_cons_none said]; rfl
      | some event => rw [List.filterMap_cons_some said]; rfl

/-- **What is reported of all entries of a name is what is reported of each.** -/
theorem reports_loadAllNamed (off : on .other = false) (tree : List Entry) (name : String) :
    (d.loadAllNamed tree name allowEmpty).reports on =
      ((tree.filter (·.isNamed name)).filterMap (d.skip? allowEmpty)).filter fun event => on event.topic := by
  unfold loadAllNamed findNamed
  cases tree.filter (·.isNamed name) with
  | nil => rfl
  | cons e named =>
      rw [nonEmpty?_of_ne_nil (List.cons_ne_nil e named)]
      simp only [reports_bind, reports_pure, List.append_nil, reports_foldlM_loadInto off]

section Distinct

variable (distinct : tree.Pairwise fun a b => a.path.components ≠ b.path.components)

include distinct

theorem eq_of_components {e f : Entry} (he : e ∈ tree) (hf : f ∈ tree)
    (same : e.path.components = f.path.components) : e = f := by
  have nodup : (tree.map (·.path.components)).Nodup := List.pairwise_map.mpr distinct
  exact List.inj_on_of_nodup_map nodup he hf same

/-- Where no two paths say the same, what is reported of an entry is all that is reported of its path. -/
theorem reports_of_path (among : e ∈ tree) (named : e.isNamed name = true) :
    (d.loadAllNamed tree name allowEmpty).reports (Topic.isSkipOf e.path) =
      (d.skip? allowEmpty e).toList := by
  rw [reports_loadAllNamed rfl, List.filter_filterMap]
  simp only [filter_skip?]
  have silent : ∀ others : List Entry, (∀ f ∈ others, f.path.components ≠ e.path.components) →
      others.filterMap (fun f => if f.path.same e.path then d.skip? allowEmpty f else none) = [] := by
    intro others differ
    apply List.filterMap_eq_nil_iff.mpr
    intro f member
    exact if_neg fun same => differ f member (beq_iff_eq.mp same)
  have own : (if e.path.same e.path then d.skip? allowEmpty e else none) = d.skip? allowEmpty e :=
    if_pos (beq_self_eq_true e.path.components)
  -- The entry has its place among those of the name, and all others have other paths.
  have member : e ∈ tree.filter (·.isNamed name) := List.mem_filter.mpr ⟨among, named⟩
  obtain ⟨before, behind, split⟩ := List.append_of_mem member
  have apart := distinct.filter (·.isNamed name)
  rw [split, List.pairwise_append, List.pairwise_cons] at apart
  obtain ⟨-, ⟨later, -⟩, earlier⟩ := apart
  rw [split, List.filterMap_append, silent before fun f hf => earlier f hf e List.mem_cons_self,
    List.nil_append, List.filterMap_cons, own, silent behind fun f hf => (later f hf).symm]
  cases d.skip? allowEmpty e <;> rfl

theorem contains_loadAllNamed (among : e ∈ tree) (named : e.isNamed name = true) :
    (d.loadAllNamed tree name allowEmpty).value.any (·.contains e.path) =
      (d.loadDocument e.path allowEmpty).value.isFound := by
  have under : (d.loadAllNamed tree name allowEmpty).value.any (·.contains e.path) =
      (d.documentUnder tree name allowEmpty e.path).isSome := by
    unfold documentUnder
    cases (d.loadAllNamed tree name allowEmpty).value with
    | none => rfl
    | some table => exact Table.contains_eq_isSome
  rw [under, Bool.eq_iff_iff, Option.isSome_iff_exists, Outcome.isFound, Option.isSome_iff_exists]
  simp only [documentUnder_eq_some_iff, Outcome.document?_eq_some_iff]
  refine exists_congr ?_
  intro document
  constructor
  · rintro ⟨f, hf, -, same, found⟩
    obtain rfl := eq_of_components distinct hf among same
    exact found
  · exact fun found => ⟨e, among, named, rfl, found⟩

theorem loadsOrSkips_loadAllNamed (among : e ∈ tree) (named : e.isNamed name = true) :
    LoadsOrSkips e.path (d.loadDocument e.path allowEmpty).value
      ((d.loadAllNamed tree name allowEmpty).value.any (·.contains e.path))
      ((d.loadAllNamed tree name allowEmpty).reports (Topic.isSkipOf e.path)) := by
  rw [contains_loadAllNamed distinct among named, reports_of_path distinct among named]
  unfold skip?
  cases (d.loadDocument e.path allowEmpty).value with
  | found document => exact .loaded
  | notFound => exact .other
  | invalid reason => exact .refused

end Distinct

end Disk

/-! ### Main statement -/

/-- **What is not loaded is reported, and nothing else is.**
* A compiler phase that is not strict and succeeds accounts for every name of a data file, in order: the name
  adds its document to the database, or one event says that it came before, that there is no such file, or
  that the file is invalid.  These are warnings, and there are no others of this kind.  So there are as many
  documents in the database and warnings as names.
* When the documents of a name are loaded from entries of which no two paths say the same, the path of each
  entry of the name is a key, or the log says once that it was passed over: as a detail if no document is
  there, and as a warning if it is invalid. -/
theorem loads_or_reports (s : Settings) (d : Disk) :
    (∀ c, s.isStrict = false → (s.loadCompiler d).value = .ok c →
      let reports := (s.loadCompiler d).reports Topic.isShortfall
      Accounts (fun name => (d.loadPicked c.tree name s.pick false).value) ∅ s.dataFiles c.database reports ∧
        (∀ event ∈ reports, event.level = .warn) ∧
        reports.length + c.database.size = s.dataFiles.length) ∧
    ∀ tree name allowEmpty, (tree.Pairwise fun a b => a.path.components ≠ b.path.components) →
      ∀ e ∈ tree, e.isNamed name = true →
        let loaded := d.loadAllNamed tree name allowEmpty
        let outcome := (d.loadDocument e.path allowEmpty).value
        let own := loaded.reports (Topic.isSkipOf e.path)
        LoadsOrSkips e.path outcome (loaded.value.any (·.contains e.path)) own ∧
          ∀ event ∈ own, event.level = if outcome.isNotFound then .debug else .warn := by
  constructor
  · intro c lenient loaded reports
    have accounts := Settings.accounts_loadCompiler lenient loaded
    refine ⟨accounts, accounts.level, ?_⟩
    have balance := accounts.balance
    rwa [Std.TreeMap.size_emptyc, Nat.add_zero] at balance
  · intro tree name allowEmpty distinct e among named loaded outcome own
    have settled : LoadsOrSkips e.path outcome (loaded.value.any (·.contains e.path)) own :=
      Disk.loadsOrSkips_loadAllNamed distinct among named
    exact ⟨settled, settled.level⟩

/-- Of three names one comes twice and one leads to nothing; of three files of one name one cannot be read. -/
theorem loads_or_reports_few :
    let s := Settings.pantrySettings ["tokens.yaml", "absent.yaml", "tokens.yaml"]
    let phase := s.loadCompiler Settings.pantry
    let broken := Path.ofString "/a-b/x.yaml"
    let loaded := Disk.threeCopies.loadAllNamed Disk.threeCopiesTree "x.yaml" true
    s.isStrict = false ∧
      (∃ c, phase.value = .ok c ∧ (phase.reports Topic.isShortfall).length + c.database.size = 3) ∧
      (Disk.threeCopiesTree.Pairwise fun a b => a.path.components ≠ b.path.components) ∧
      loaded.value.any (·.contains broken) = false ∧
      loaded.reports (Topic.isSkipOf broken) =
        [.skippedInvalid broken "unreadable document: Input/output error (os error 5)"] := by
  intro s phase broken loaded
  have succeeds := Settings.pantry_loadCompiler ["tokens.yaml", "absent.yaml", "tokens.yaml"]
  obtain ⟨-, -, balance⟩ := (loads_or_reports s Settings.pantry).1 _ rfl succeeds
  have distinct : Disk.threeCopiesTree.Pairwise fun a b => a.path.components ≠ b.path.components := by decide
  have outcome : (Disk.threeCopies.loadDocument broken true).value = .invalid (.unreadable .inputOutput) := by
    cbv
  obtain ⟨settled, -⟩ := (loads_or_reports s Disk.threeCopies).2 Disk.threeCopiesTree "x.yaml" true distinct
    (.ofPath broken .file) List.mem_cons_self (by cbv)
  rw [Entry.path_ofPath, outcome] at settled
  generalize key : loaded.value.any (·.contains broken) = isKey at settled
  generalize log : loaded.reports (Topic.isSkipOf broken) = own at settled
  refine ⟨rfl, ⟨_, succeeds, balance⟩, distinct, ?_⟩
  cases settled with
  | refused => exact ⟨key, log⟩

end ProjectIndex
