import Mathlib
import ProjectIndex.Proofs.Keys
import ProjectIndex.Proofs.Loader.Project
import ProjectIndex.Proofs.Results
import ProjectIndex.Proofs.Table

/-!
# The compiler phase

The compiler phase loads data files by name, one after the other.  What a name leads to depends on the
tree, on the name and on which of several files is picked, but not on what was loaded before.  So the
database is what the names lead to (`get?_addData`), and neither the order of the names nor how often
they come matters: `Settings.loadCompiler_exact`.

Strictness turns the first name that leads to no document into a failure, and that is all it does.
`Settings.value_loadDatabase` says so for the loop, with one condition for both kinds of settings, and
`Settings.loadCompiler_strict` compares the two.
-/

namespace ProjectIndex

/-! ### The loop over the names -/

/-- The table with the documents that names lead to, as far as they lead to one. -/
def addData (found : String → Option Document) :
    (database : Table String Document) → (names : List String) → Table String Document
  | database, [] => database
  | database, name :: names =>
    match found name with
    | some document => addData found (Table.insertOnce database name document).value.2 names
    | none => addData found database names

/-- The first name that leads to no document. -/
def firstLacking? (found : String → Option Document) (names : List String) : Option String :=
  names.find? fun name => (found name).isNone

/-- **Under a key is found what the key leads to, if it is one of the names.** -/
theorem get?_addData {found : String → Option Document} {database : Table String Document}
    {names : List String} (key : String) :
    (addData found database names).get? key =
      (database.get? key).or (if key ∈ names then found key else none) := by
  induction names generalizing database with
  | nil => rw [addData, if_neg List.not_mem_nil, Option.or_none]
  | cons name names ih =>
      rw [addData]
      by_cases same : name = key
      · subst same
        rw [if_pos List.mem_cons_self]
        cases there : found name with
        | some document =>
            dsimp only
            rw [ih, Table.get?_insertOnce, Std.compare_self, if_pos rfl, there, Option.or_assoc]
            split <;> rfl
        | none =>
            dsimp only
            rw [ih, there, ite_self]
      · have other : compare name key ≠ .eq := fun equal => same (Std.LawfulEqOrd.eq_of_compare equal)
        have among : key ∈ name :: names ↔ key ∈ names := by
          rw [List.mem_cons, or_iff_right (Ne.symm same)]
        simp only [among]
        cases found name with
        | some document =>
            dsimp only
            rw [ih, Table.get?_insertOnce, if_neg other, Option.or_none]
        | none => exact ih

/-- A database that is filled from nothing holds what the names lead to. -/
theorem get?_addData_emptyc {found : String → Option Document} {names : List String} (key : String) :
    (addData found ∅ names).get? key = if key ∈ names then found key else none := by
  have nothing : (∅ : Table String Document).get? key = none := Std.TreeMap.getElem?_emptyc
  rw [get?_addData, nothing, Option.none_or]

namespace Settings

variable {s : Settings} {d : Disk} {tree : List Entry} {database : Table String Document}
  {names : List String} {name : String}

/-- The document that a name leads to in a tree. -/
def dataDocument? (s : Settings) (d : Disk) (tree : List Entry) (name : String) : Option Document :=
  (d.loadPicked tree name s.pick false).value.document?

theorem value_loadData :
    (s.loadData d tree database name).value =
      match s.dataDocument? d tree name with
      | some document => some (Table.insertOnce database name document).value.2
      | none => if s.isStrict then none else some database := by
  rw [loadData, dataDocument?]
  generalize d.loadPicked tree name s.pick false = outcome
  obtain ⟨outcome, events⟩ := outcome
  cases outcome <;> rfl

/-- **The loop gives what the names lead to, unless strictness asks for a document that is lacking.** -/
theorem value_loadDatabase :
    (s.loadDatabase d tree database names).value =
      match if s.isStrict then firstLacking? (s.dataDocument? d tree) names else none with
      | some name => .error (.missingData name)
      | none => .ok (addData (s.dataDocument? d tree) database names) := by
  induction names generalizing database with
  | nil => cases h : s.isStrict <;> rfl
  | cons name names ih =>
      rw [loadDatabase, Logged.value_bind, value_loadData, addData, firstLacking?, List.find?_cons]
      cases there : s.dataDocument? d tree name with
      | some document => exact ih
      | none =>
          cases strict : s.isStrict with
          | true => rfl
          | false =>
              have onward := @ih database
              rw [strict] at onward
              exact onward

/-! ### The phase -/

/-- The data files: what lies below the data directory and carries one of the suffixes. -/
def dataTree (s : Settings) (d : Disk) : List Entry :=
  (d.list s.compilerDirectory true).value.filter fun e => ∃ suffix ∈ s.dataSuffixes, e.suffix = some suffix

/-- What the phase gives if it succeeds. -/
def compilerData (s : Settings) (d : Disk) : CompilerData :=
  let tree := s.dataTree d
  let database := addData (s.dataDocument? d tree) ∅ s.dataFiles
  ⟨tree, database, ((database.get? Names.tokens).map tokenNames).getD []⟩

theorem value_findWithSuffixes (there : d.isDirectory s.compilerDirectory = true) :
    (d.findWithSuffixes s.compilerDirectory s.dataSuffixes true).value = nonEmpty? (s.dataTree d) := by
  have carries : ∀ e : Entry, e.suffix.any s.dataSuffixes.contains =
      decide (∃ suffix ∈ s.dataSuffixes, e.suffix = some suffix) := fun e => by
    rw [Bool.eq_iff_iff, decide_eq_true_iff, Option.any_eq_true]
    simp only [List.contains_iff_mem]
    exact exists_congr fun suffix => and_comm
  rw [Disk.findWithSuffixes, there, dataTree, ← List.filter_congr fun e _ => carries e]
  rfl

/-- **The result of the compiler phase.** -/
theorem value_loadCompiler (s : Settings) (d : Disk) :
    (s.loadCompiler d).value =
      if d.isDirectory s.compilerDirectory = false then
        .error (.notACompilerDirectory s.compilerDirectory)
      else if s.dataTree d = [] then .error (.noCompilerData s.compilerDirectory)
      else
        match if s.isStrict then firstLacking? (s.dataDocument? d (s.dataTree d)) s.dataFiles else none with
        | some name => .error (.missingData name)
        | none => .ok (s.compilerData d) := by
  rw [loadCompiler]
  cases there : d.isDirectory s.compilerDirectory with
  | false => rfl
  | true =>
      have found := value_findWithSuffixes there
      simp only [Bool.not_true, Bool.false_eq_true, if_false, Bool.true_eq_false, Logged.value_bind, found]
      by_cases empty : s.dataTree d = []
      · rw [empty, if_pos rfl]
        rfl
      · rw [nonEmpty?_of_ne_nil empty, if_neg empty]
        simp only [Logged.value_bind, value_loadDatabase]
        generalize (if s.isStrict then firstLacking? (s.dataDocument? d (s.dataTree d)) s.dataFiles
          else none) = lacking
        cases lacking <;> rfl

/-- When a phase that is not strict succeeds, and with what. -/
theorem loadCompiler_eq_ok_iff {c : CompilerData} (lenient : s.isStrict = false) :
    (s.loadCompiler d).value = .ok c ↔
      d.isDirectory s.compilerDirectory = true ∧ s.dataTree d ≠ [] ∧ c = s.compilerData d := by
  rw [value_loadCompiler, lenient]
  split
  · next none => simp [none]
  next there =>
  split
  · next empty => simp [empty]
  · next listed =>
      constructor
      · exact fun h => ⟨Bool.not_eq_false _ ▸ there, listed, (Except.ok.inj h).symm⟩
      · rintro ⟨-, -, rfl⟩
        rfl

end Settings

/-! ### Strictness -/

/-- The data, unless a name has no document in it. -/
def CompilerData.require (names : List String) (c : CompilerData) : Except LoadError CompilerData :=
  match names.find? fun name => !c.database.contains name with
  | some name => .error (.missingData name)
  | none => .ok c

namespace CompilerData

variable {names : List String} {c c' : CompilerData} {name : String}

theorem require_of_forall (all : ∀ name ∈ names, c.database.contains name = true) :
    c.require names = .ok c := by
  have none : (names.find? fun name => !c.database.contains name) = none :=
    List.find?_eq_none.mpr fun name among => by rw [all name among]; decide
  rw [require, none]

theorem require_of_first {before behind : List String} (split : names = before ++ name :: behind)
    (all : ∀ n ∈ before, c.database.contains n = true) (lacks : c.database.contains name = false) :
    c.require names = .error (.missingData name) := by
  have first : (names.find? fun name => !c.database.contains name) = some name :=
    List.find?_eq_some_iff_append.mpr ⟨by rw [lacks]; rfl, before, behind, split, fun n among => by
      rw [all n among]; rfl⟩
  rw [require, first]

theorem forall_of_require (h : c.require names = .ok c') :
    c' = c ∧ ∀ name ∈ names, c.database.contains name = true := by
  rw [require] at h
  split at h
  · cases h
  · next none =>
      refine ⟨(Except.ok.inj h).symm, fun name among => ?_⟩
      simpa using List.find?_eq_none.mp none name among

end CompilerData

namespace Settings

variable {s : Settings} {d : Disk} {name : String}

theorem contains_compilerData (among : name ∈ s.dataFiles) :
    (s.compilerData d).database.contains name = (s.dataDocument? d (s.dataTree d) name).isSome := by
  rw [Table.contains_eq_isSome, compilerData, get?_addData_emptyc, if_pos among]

/-- The first name that leads to no document is the first one that is missing in the database. -/
theorem firstLacking?_eq (s : Settings) (d : Disk) :
    firstLacking? (s.dataDocument? d (s.dataTree d)) s.dataFiles =
      s.dataFiles.find? fun name => !(s.compilerData d).database.contains name := by
  refine List.find?_congr fun name among => ?_
  rw [contains_compilerData among, Option.not_isSome]

/-- **A strict phase is a lenient one and the demand that no name is missing.** -/
theorem value_loadCompiler_strict (s : Settings) (d : Disk) :
    ({ s with isStrict := true }.loadCompiler d).value =
      ({ s with isStrict := false }.loadCompiler d).value.bind (CompilerData.require s.dataFiles) := by
  rw [value_loadCompiler, value_loadCompiler]
  -- What is loaded does not depend on strictness.
  show (if d.isDirectory s.compilerDirectory = false then _ else if s.dataTree d = [] then _ else
      match firstLacking? (s.dataDocument? d (s.dataTree d)) s.dataFiles with
      | some name => _
      | none => .ok (s.compilerData d)) =
    Except.bind (if d.isDirectory s.compilerDirectory = false then _ else if s.dataTree d = [] then _ else
      .ok (s.compilerData d)) _
  split
  · rfl
  split
  · rfl
  rw [firstLacking?_eq]
  rfl

/-- What lies in the data directory `/c` of the disk below: a table of tokens, and a file that is no
document. -/
def pantryChildren : List (FileName × Tree) :=
  [(Utf8.encode "tokens.yaml", .file 0), (Utf8.encode "notes.txt", .file 1)]

/-- A disk with that directory. -/
def pantry : Disk :=
  ⟨.directory [(Utf8.encode "c", .directory pantryChildren)], [⟨Utf8.encode "b:\na:", none⟩], []⟩

/-- The usual settings for that directory, but for the names of the data files. -/
def pantrySettings (files : List String) : Settings :=
  { default ⟨none, .ofString "/c"⟩ with dataFiles := files }

/-- The data files of that directory. -/
def pantryTree : List Entry := [.ofPath (.ofString "/c/tokens.yaml") .file]

/-- The table of tokens. -/
def pantryTokens : Document := [(.string "b", .null), (.string "a", .null)]

theorem pantry_dataTree (files : List String) : (pantrySettings files).dataTree pantry = pantryTree := by
  have listed : (pantry.list (.ofString "/c") true).value =
      [.ofPath (.ofString "/c/notes.txt") .file, .ofPath (.ofString "/c/tokens.yaml") .file] := by cbv
  have directory : (pantrySettings files).compilerDirectory = .ofString "/c" := rfl
  rw [dataTree, directory, listed]
  rfl

theorem pantry_tokens :
    (pantry.loadPicked pantryTree "tokens.yaml" .last false).value = .found pantryTokens := by
  have one : findNamed pantryTree "tokens.yaml" = some pantryTree := rfl
  have isFile : pantry.isFileWith (.ofString "/c/tokens.yaml") (some Names.documentSuffix) = true := rfl
  have text : pantry.readText (.ofString "/c/tokens.yaml") = .ok "b:\na:" := rfl
  have document : Outcome.ofText "b:\na:" false = .found pantryTokens := by cbv
  have loaded : (pantry.loadDocument (.ofString "/c/tokens.yaml") false).value = .found pantryTokens := by
    rw [Disk.loadDocument, isFile, text]
    simp only [document]
    rfl
  have sorted : sortByPath pantryTree = pantryTree := List.mergeSort_singleton _
  have last : Pick.last.select pantryTree = some (.ofPath (.ofString "/c/tokens.yaml") .file) := rfl
  rw [Disk.loadPicked, one]
  simp only [sorted, if_neg (show ¬ 1 < pantryTree.length by decide), last, Entry.path_ofPath, loaded]

theorem pantry_absent : (pantry.loadPicked pantryTree "absent.yaml" .last false).value = .notFound := rfl

theorem pantry_loadCompiler (files : List String) :
    ((pantrySettings files).loadCompiler pantry).value = .ok ((pantrySettings files).compilerData pantry) :=
  (loadCompiler_eq_ok_iff rfl).mpr ⟨rfl, by rw [pantry_dataTree]; exact List.cons_ne_nil _ _, rfl⟩

/-- **Strict loading is lenient loading and completeness.**  Let two settings differ in strictness alone.
What makes the lenient phase fail makes the strict one fail.  If the lenient database has all names of
data files, the strict phase gives the same data; if not, it fails for the first one that is missing.  So
a strict phase never succeeds with a name missing. -/
theorem loadCompiler_strict (s : Settings) (d : Disk) :
    let lenient := ({ s with isStrict := false }.loadCompiler d).value
    let strict := ({ s with isStrict := true }.loadCompiler d).value
    (∀ e, lenient = .error e → strict = .error e) ∧
      (∀ c, lenient = .ok c → (∀ name ∈ s.dataFiles, c.database.contains name = true) →
        strict = .ok c) ∧
      (∀ c before name behind, lenient = .ok c → s.dataFiles = before ++ name :: behind →
        (∀ n ∈ before, c.database.contains n = true) → c.database.contains name = false →
        strict = .error (.missingData name)) ∧
      ∀ c, strict = .ok c → ∀ name ∈ s.dataFiles, c.database.contains name = true := by
  intro lenient strict
  have both : strict = lenient.bind (CompilerData.require s.dataFiles) := value_loadCompiler_strict s d
  refine ⟨fun e failed => ?_, fun c loaded all => ?_, fun c before name behind loaded split all lacks => ?_,
    fun c loaded => ?_⟩
  · rw [both, failed]
    rfl
  · rw [both, loaded]
    exact CompilerData.require_of_forall all
  · rw [both, loaded]
    exact CompilerData.require_of_first split all lacks
  · rw [both] at loaded
    obtain ⟨c', -, required⟩ := eq_ok_of_bind loaded
    obtain ⟨rfl, all⟩ := CompilerData.forall_of_require required
    exact all

/-- The table of tokens is there, the other file is not: the lenient phase does without it and the strict
one fails for it.  For the table alone the strict phase succeeds. -/
theorem loadCompiler_strict_pantry :
    let s := pantrySettings ["tokens.yaml", "absent.yaml"]
    (∃ c, ({ s with isStrict := false }.loadCompiler pantry).value = .ok c ∧
        c.database.contains "tokens.yaml" = true ∧ c.database.contains "absent.yaml" = false) ∧
      ({ s with isStrict := true }.loadCompiler pantry).value = .error (.missingData "absent.yaml") ∧
      ∃ c, ({ pantrySettings ["tokens.yaml"] with isStrict := true }.loadCompiler pantry).value = .ok c := by
  intro s
  have found (files : List String) (among : "tokens.yaml" ∈ files) :
      ((pantrySettings files).compilerData pantry).database.contains "tokens.yaml" = true := by
    rw [contains_compilerData among, pantry_dataTree, dataDocument?]
    exact congrArg (fun o : Outcome => o.document?.isSome) pantry_tokens
  have lacking : (s.compilerData pantry).database.contains "absent.yaml" = false := by
    rw [contains_compilerData (by decide), pantry_dataTree, dataDocument?]
    exact congrArg (fun o : Outcome => o.document?.isSome) pantry_absent
  obtain ⟨-, -, fails, -⟩ := loadCompiler_strict s pantry
  obtain ⟨-, succeeds, -⟩ := loadCompiler_strict (pantrySettings ["tokens.yaml"]) pantry
  refine ⟨⟨_, pantry_loadCompiler _, found _ (by decide), lacking⟩, ?_, _,
    succeeds _ (pantry_loadCompiler _) ?_⟩
  · exact fails _ ["tokens.yaml"] _ [] (pantry_loadCompiler _) rfl
      (List.forall_mem_singleton.mpr (found _ (by decide))) lacking
  · exact List.forall_mem_singleton.mpr (found _ List.mem_cons_self)

/-! ### The order of names -/

end Settings

/-- A value that is a text under tags is this text, and nothing else is a text. -/
theorem Yaml.Value.asText?_eq_some_iff {v : Yaml.Value} {text : String} :
    v.asText? = some text ↔ ∃ tags : List String, v = tags.foldr .tagged (.string text) := by
  constructor
  · intro h
    fun_induction Yaml.Value.asText? v with
    | case1 s => exact ⟨[], by rw [Option.some.inj h]; rfl⟩
    | case2 tag v ih =>
        obtain ⟨tags, rfl⟩ := ih h
        exact ⟨tag :: tags, rfl⟩
    | case3 => cases h
  · rintro ⟨tags, rfl⟩
    induction tags with
    | nil => rfl
    | cons tag tags ih => exact ih

theorem tokenNames_perm (table : Document) : (tokenNames table).Perm (table.filterMap (·.1.asText?)) :=
  List.mergeSort_perm _ _

/-- The names of tokens never fall. -/
theorem tokenNames_sorted (table : Document) : (tokenNames table).Pairwise (· ≤ ·) := by
  have isLE : ∀ {a b : String}, (compare a b).isLE = true ↔ a ≤ b := fun {a b} =>
    isLE_compareOfLessAndEq String.le_antisymm String.not_le String.le_total
  have rises : (tokenNames table).Pairwise fun a b => (compare a b).isLE = true :=
    pairwise_isLE_mergeSort id _
  exact rises.imp isLE.mp

namespace Settings

variable {s : Settings} {d : Disk} {c : CompilerData}

/-- The same suffixes, in any order and any number, give the same tree. -/
theorem dataTree_congr {files suffixes : List String} (ends : ∀ x, x ∈ suffixes ↔ x ∈ s.dataSuffixes) :
    { s with dataFiles := files, dataSuffixes := suffixes }.dataTree d = s.dataTree d := by
  refine List.filter_congr fun e _ => ?_
  simp only [ends]

/-- The same names and suffixes, in any order and any number, give the same data. -/
theorem compilerData_congr {files suffixes : List String} (names : ∀ n, n ∈ files ↔ n ∈ s.dataFiles)
    (ends : ∀ x, x ∈ suffixes ↔ x ∈ s.dataSuffixes) :
    let c := { s with dataFiles := files, dataSuffixes := suffixes }.compilerData d
    c.tree = (s.compilerData d).tree ∧ c.database.toList = (s.compilerData d).database.toList ∧
      c.tokens = (s.compilerData d).tokens := by
  intro c
  have found : ∀ key, c.database.get? key = (s.compilerData d).database.get? key := fun key => by
    simp only [c, compilerData, get?_addData_emptyc, dataTree_congr ends, names]
    rfl
  refine ⟨dataTree_congr ends, Table.toList_eq_of_get? found, ?_⟩
  show ((c.database.get? Names.tokens).map tokenNames).getD [] = _
  rw [found]
  rfl

/-- **The data of the compiler is what can be loaded, whatever the order of names.**  Let a compiler phase
that is not strict have succeeded.
* Under a name is found the document that the name leads to, if it is one of the data files.
* The tree is what lies below the data directory and carries one of the suffixes, in the order of the
  listing.
* The tokens are the keys of the table of tokens that are texts, under tags or not, each as often as it
  occurs, and they never fall; without a table there are none.
* Lists with the same names and the same suffixes give the same tree, the same database and the same
  tokens, whatever their order and however often a name or a suffix occurs. -/
theorem loadCompiler_exact (lenient : s.isStrict = false) (loaded : (s.loadCompiler d).value = .ok c) :
    (∀ name document, c.document? name = some document ↔
        name ∈ s.dataFiles ∧ (d.loadPicked c.tree name s.pick false).value = .found document) ∧
      c.tree = (d.list s.compilerDirectory true).value.filter
        (fun e => ∃ suffix ∈ s.dataSuffixes, e.suffix = some suffix) ∧
      (c.tokenTable? = none → c.tokens = []) ∧
      (∀ table, c.tokenTable? = some table → c.tokens.Pairwise (· ≤ ·) ∧
        c.tokens.Perm (table.filterMap (·.1.asText?)) ∧
        ∀ text, text ∈ c.tokens ↔ ∃ e ∈ table, ∃ tags : List String,
          e.1 = tags.foldr .tagged (.string text)) ∧
      ∀ files suffixes, (∀ n, n ∈ files ↔ n ∈ s.dataFiles) → (∀ x, x ∈ suffixes ↔ x ∈ s.dataSuffixes) →
        ∃ c', ({ s with dataFiles := files, dataSuffixes := suffixes }.loadCompiler d).value = .ok c' ∧
          c'.tree = c.tree ∧ c'.database.toList = c.database.toList ∧ c'.tokens = c.tokens := by
  obtain ⟨there, listed, rfl⟩ := (loadCompiler_eq_ok_iff lenient).mp loaded
  have tokens : (s.compilerData d).tokens = ((s.compilerData d).tokenTable?.map tokenNames).getD [] := rfl
  refine ⟨fun name document => ?_, rfl, fun none => ?_, fun table some => ?_,
    fun files suffixes names ends => ?_⟩
  · have found : (s.compilerData d).document? name = _ := get?_addData_emptyc name
    rw [found, Option.ite_none_right_eq_some, dataDocument?, Outcome.document?_eq_some_iff]
    rfl
  · rw [tokens, none]
    rfl
  · have perm := tokenNames_perm table
    rw [tokens, some]
    refine ⟨tokenNames_sorted table, perm, fun text => ?_⟩
    rw [Option.map_some, Option.getD_some, perm.mem_iff, List.mem_filterMap]
    simp only [Yaml.Value.asText?_eq_some_iff]
  · let s' : Settings := { s with dataFiles := files, dataSuffixes := suffixes }
    have listed' : s'.dataTree d ≠ [] := by rwa [dataTree_congr ends]
    exact ⟨s'.compilerData d, (loadCompiler_eq_ok_iff (s := s') lenient).mpr ⟨there, listed', rfl⟩,
      compilerData_congr names ends⟩

/-- The table of tokens is loaded once, the name that leads to nothing is no key, and the names of tokens
come sorted, also if the names of files come in another order. -/
theorem loadCompiler_exact_pantry :
    let s := pantrySettings ["absent.yaml", "tokens.yaml", "tokens.yaml"]
    let s' := { s with dataFiles := ["tokens.yaml", "absent.yaml"], dataSuffixes := [".yaml", ".yaml"] }
    ∃ c c', s.isStrict = false ∧ (s.loadCompiler pantry).value = .ok c ∧
      c.document? "tokens.yaml" = some pantryTokens ∧ c.document? "absent.yaml" = none ∧
      c.tokens = ["a", "b"] ∧ (s'.loadCompiler pantry).value = .ok c' ∧ c'.tokens = ["a", "b"] := by
  intro s s'
  have loaded := pantry_loadCompiler ["absent.yaml", "tokens.yaml", "tokens.yaml"]
  obtain ⟨exact, -, -, tokens, congr⟩ := loadCompiler_exact rfl loaded
  have tree : (s.compilerData pantry).tree = pantryTree := pantry_dataTree _
  have table : (s.compilerData pantry).document? "tokens.yaml" = some pantryTokens :=
    (exact _ _).mpr ⟨by decide, tree.symm ▸ pantry_tokens⟩
  obtain ⟨sorted, perm, -⟩ := tokens _ table
  have names : (s.compilerData pantry).tokens = ["a", "b"] :=
    (perm.trans (.swap "a" "b" [])).eq_of_pairwise (fun _ _ _ _ => String.le_antisymm) sorted (by decide)
  obtain ⟨c', loaded', -, -, tokens'⟩ := congr ["tokens.yaml", "absent.yaml"] [".yaml", ".yaml"]
    (by simp [pantrySettings, or_comm]) (by simp [pantrySettings, default, Names.documentSuffix])
  refine ⟨_, c', rfl, loaded, table, ?_, names, loaded', tokens'.trans names⟩
  refine Option.eq_none_iff_forall_ne_some.mpr fun document some => ?_
  have found := ((exact _ _).mp some).2
  rw [tree] at found
  cases pantry_absent.symm.trans found

end Settings

end ProjectIndex
