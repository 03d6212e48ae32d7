import Mathlib
import ProjectIndex.Proofs.Path.Parent
import ProjectIndex.Proofs.Yaml.QuietDocument
import ProjectIndex.Settings

/-!
# What settings files set

A settings file sets some of the eight settings, and the defaults stand for the others:
`Settings.ofFile_exact`.  A `Setting` is one of the eight, with its key, with its value in given
settings, and with what a node of a document says as its value (`Setting.meaning?`).

The directory of the compiler's data is the exception.  When the file does not set it, the default is
treated as if the file had: if it is relative, the directory of the file is put in front of it, unless
the file is blank (`Settings.ofFile_rebases_default`).
-/

namespace ProjectIndex

open Yaml

/-- One of the settings. -/
inductive Setting
  | compilerDirectory
  | dataSuffixes
  | dataFiles
  | sourceSuffix
  | configuration
  | order
  | pick
  | isStrict
  deriving DecidableEq, Repr

namespace Setting

/-- The key of a setting in documents. -/
def key : Setting → String
  | compilerDirectory => "compiler_dir"
  | dataSuffixes => "data_extensions"
  | dataFiles => "data_files"
  | sourceSuffix => "source_extension"
  | configuration => "config_filename"
  | order => "trace_order"
  | pick => "pick"
  | isStrict => "strict_data"

/-- The type of a setting. -/
def Value : Setting → Type
  | compilerDirectory => Path
  | dataSuffixes => List String
  | dataFiles => List String
  | sourceSuffix => String
  | configuration => String
  | order => TraceOrder
  | pick => Pick
  | isStrict => Bool

/-- The setting in given settings. -/
def get (s : Settings) : (f : Setting) → f.Value
  | compilerDirectory => s.compilerDirectory
  | dataSuffixes => s.dataSuffixes
  | dataFiles => s.dataFiles
  | sourceSuffix => s.sourceSuffix
  | configuration => s.configuration
  | order => s.order
  | pick => s.pick
  | isStrict => s.isStrict

/-- The settings with another value of one of them. -/
def set (s : Settings) : (f : Setting) → f.Value → Settings
  | compilerDirectory, v => { s with compilerDirectory := v }
  | dataSuffixes, v => { s with dataSuffixes := v }
  | dataFiles, v => { s with dataFiles := v }
  | sourceSuffix, v => { s with sourceSuffix := v }
  | configuration, v => { s with configuration := v }
  | order, v => { s with order := v }
  | pick, v => { s with pick := v }
  | isStrict, v => { s with isStrict := v }

@[simp] theorem get_set (s : Settings) (f : Setting) (v : f.Value) : get (set s f v) f = v := by
  cases f <;> rfl

theorem get_set_of_ne (s : Settings) {f g : Setting} (h : g ≠ f) (v : f.Value) :
    get (set s f v) g = get s g := by
  cases f <;> cases g <;> first | rfl | exact absurd rfl h

/-- Settings are the same if each of them is. -/
theorem ext {s s' : Settings} (h : ∀ f, get s f = get s' f) : s = s' := by
  obtain ⟨a₁, a₂, a₃, a₄, a₅, a₆, a₇, a₈⟩ := s
  obtain ⟨b₁, b₂, b₃, b₄, b₅, b₆, b₇, b₈⟩ := s'
  obtain rfl : a₁ = b₁ := h compilerDirectory
  obtain rfl : a₂ = b₂ := h dataSuffixes
  obtain rfl : a₃ = b₃ := h dataFiles
  obtain rfl : a₄ = b₄ := h sourceSuffix
  obtain rfl : a₅ = b₅ := h configuration
  obtain rfl : a₆ = b₆ := h order
  obtain rfl : a₇ = b₇ := h pick
  obtain rfl : a₈ = b₈ := h isStrict
  rfl

theorem key_mem (f : Setting) : f.key ∈ Settings.fields.known := by
  cases f <;> decide

theorem exists_of_mem {name : String} (h : name ∈ Settings.fields.known) :
    ∃ f : Setting, f.key = name := by
  simp only [Settings.fields, List.mem_cons, List.not_mem_nil, or_false] at h
  obtain rfl | rfl | rfl | rfl | rfl | rfl | rfl | rfl := h
  · exact ⟨compilerDirectory, rfl⟩
  · exact ⟨dataSuffixes, rfl⟩
  · exact ⟨dataFiles, rfl⟩
  · exact ⟨sourceSuffix, rfl⟩
  · exact ⟨configuration, rfl⟩
  · exact ⟨order, rfl⟩
  · exact ⟨pick, rfl⟩
  · exact ⟨isStrict, rfl⟩

end Setting

/-! ### What a node says -/

/-- The order that a node names. -/
def TraceOrder.of? (c : Content) (n : Node) : Option TraceOrder := do
  let (name, _) ← c.variantOf? n
  TraceOrder.ofName? name

theorem TraceOrder.read_meant {c : Content} {t : Trail} {n : Node} {k l : Nat} {o : TraceOrder}
    (h : TraceOrder.read c t n k = .ok (o, l)) : TraceOrder.of? c n = some o := by
  obtain ⟨name, content, i, named, known, build⟩ := Content.variant_meant h
  obtain ⟨-, j, -, build⟩ := Reading.of_bind build
  obtain rfl := Reading.of_pure build
  rw [TraceOrder.of?, named]
  obtain ⟨o, -, rfl⟩ := List.mem_map.mp known
  cases o <;> rfl

/-- The pick that a node names, with the count that follows the name. -/
def Pick.of? (c : Content) (n : Node) : Option Pick := do
  let (name, content) ← c.variantOf? n
  if name = "first" then some .first
  else if name = "last" then some .last
  else if name = "nth" then (content.bind c.countOf?).map .nth
  else (content.bind c.countOf?).map .fromEnd

theorem Content.countContent_meant {c : Content} {t : Trail} {content : Option Node} {i k l : Nat}
    (h : c.countContent t content k = .ok (i, l)) : content.bind c.countOf? = some i := by
  cases content with
  | none => exact nomatch h
  | some n => exact Content.count_meant h

theorem Pick.read_meant {c : Content} {t : Trail} {n : Node} {k l : Nat} {p : Pick}
    (h : Pick.read c t n k = .ok (p, l)) : Pick.of? c n = some p := by
  obtain ⟨name, content, i, named, known, build⟩ := Content.variant_meant h
  rw [Pick.of?, named]
  simp only [Pick.names, List.mem_cons, List.not_mem_nil, or_false] at known
  obtain rfl | rfl | rfl | rfl := known
  · obtain ⟨-, j, -, build⟩ := Reading.of_bind build
    exact congrArg some (Reading.of_pure build)
  · obtain ⟨-, j, -, build⟩ := Reading.of_bind build
    exact congrArg some (Reading.of_pure build)
  · obtain ⟨i, count, rfl⟩ := Reading.of_map build
    exact congrArg (Option.map Pick.nth) (Content.countContent_meant count)
  · obtain ⟨i, count, rfl⟩ := Reading.of_map build
    exact congrArg (Option.map Pick.fromEnd) (Content.countContent_meant count)

namespace Setting

/-- What a node says as the value of a setting. -/
def meaning? (c : Content) (n : Node) : (f : Setting) → Option f.Value
  | compilerDirectory => (c.textOf? n).map Path.ofString
  | dataSuffixes => c.listOf? c.textOf? n
  | dataFiles => c.listOf? c.textOf? n
  | sourceSuffix => c.textOf? n
  | configuration => c.textOf? n
  | order => TraceOrder.of? c n
  | pick => Pick.of? c n
  | isStrict => c.boolOf? n

/-- **Reading a field sets its setting to what the node says, and no other setting.** -/
theorem readField_meant {c : Content} {s s' : Settings} {t : Trail} {n : Node} {k l : Nat} (f : Setting)
    (h : Settings.readField c s f.key t n k = .ok (s', l)) :
    ∃ v, meaning? c n f = some v ∧ s' = set s f v := by
  cases f with
  | compilerDirectory =>
      obtain ⟨text, i, read, h⟩ := Reading.of_bind h
      obtain rfl := Reading.of_pure h
      exact ⟨_, congrArg (Option.map Path.ofString) (Content.text_meant read), rfl⟩
  | dataSuffixes =>
      obtain ⟨texts, i, read, h⟩ := Reading.of_bind h
      obtain rfl := Reading.of_pure h
      exact ⟨texts, Content.texts_meant read, rfl⟩
  | dataFiles =>
      obtain ⟨texts, i, read, h⟩ := Reading.of_bind h
      obtain rfl := Reading.of_pure h
      exact ⟨texts, Content.texts_meant read, rfl⟩
  | sourceSuffix =>
      obtain ⟨text, i, read, h⟩ := Reading.of_bind h
      obtain rfl := Reading.of_pure h
      exact ⟨text, Content.text_meant read, rfl⟩
  | configuration =>
      obtain ⟨text, i, read, h⟩ := Reading.of_bind h
      obtain rfl := Reading.of_pure h
      exact ⟨text, Content.text_meant read, rfl⟩
  | order =>
      obtain ⟨o, i, read, h⟩ := Reading.of_bind h
      obtain rfl := Reading.of_pure h
      exact ⟨o, TraceOrder.read_meant read, rfl⟩
  | pick =>
      obtain ⟨p, i, read, h⟩ := Reading.of_bind h
      obtain rfl := Reading.of_pure h
      exact ⟨p, Pick.read_meant read, rfl⟩
  | isStrict =>
      obtain ⟨b, i, read, h⟩ := Reading.of_bind h
      obtain rfl := Reading.of_pure h
      exact ⟨b, Content.bool_meant read, rfl⟩

/-- What the value of a setting means in a settings file: a relative data directory begins in the
directory of the file. -/
def within (directory : Path) : (f : Setting) → f.Value → f.Value
  | compilerDirectory, p => directory.join p
  | dataSuffixes, v => v
  | dataFiles, v => v
  | sourceSuffix, v => v
  | configuration, v => v
  | order, v => v
  | pick, v => v
  | isStrict, v => v

theorem within_of_ne {f : Setting} (h : f ≠ compilerDirectory) (directory : Path) (v : f.Value) :
    f.within directory v = v := by
  cases f <;> first | rfl | exact absurd rfl h

end Setting

namespace Settings

variable {env : Environment} {d : Disk} {file directory : Path} {text : String} {s s' : Settings}

/-- A text sets a setting to what a node says. -/
def Sets (text : String) (f : Setting) (n : Node) : Prop :=
  let c := Content.ofText text.toList
  c.HasField c.root f.key n

/-- **Each setting is what the text says, or the default if the text does not set it.** -/
theorem readText_meant (h : readText text (read env) = .ok s) (f : Setting) :
    ((∀ n, ¬ Sets text f n) → f.get s = f.get (default env)) ∧
    ∀ n, Sets text f n → f.meaning? (Content.ofText text.toList) n = some (f.get s) := by
  obtain ⟨⟨k, h⟩, -⟩ := Content.run_eq_ok_iff.mp h
  let c := Content.ofText text.toList
  refine Content.record_meant f.get (fun n v => f.meaning? c n = some v) f.key_mem ?_ ?_ h
  · intro s t n k s' l read
    obtain ⟨v, said, rfl⟩ := Setting.readField_meant f read
    rw [Setting.get_set]
    exact said
  · intro s name t n k s' l known differs read
    obtain ⟨g, rfl⟩ := Setting.exists_of_mem known
    obtain ⟨v, -, rfl⟩ := Setting.readField_meant g read
    exact Setting.get_set_of_ne s (fun same => differs (congrArg Setting.key same).symm) v

/-- Quiet texts set nothing. -/
theorem not_sets_of_isQuiet (quiet : isQuiet .margin text.toList = true) (f : Setting) (n : Node) :
    ¬ Sets text f n := by
  rintro ⟨k, member, -⟩
  have root := root_quiet quiet
  generalize Content.ofText text.toList = c at root member
  obtain ⟨r, anchors, size, error, hasMore⟩ := c
  cases root <;> exact nomatch member

/-- The data directory is seen from the directory of the file. -/
theorem rebase_eq (parent : file.parent? = some directory) (s : Settings) :
    s.rebase file = Setting.set s .compilerDirectory (directory.join s.compilerDirectory) := by
  rw [rebase, parent]
  split
  · next absolute => rw [Path.join_of_isAbsolute directory absolute]; rfl
  · rfl

theorem get_rebase (parent : file.parent? = some directory) (s : Settings) (f : Setting) :
    f.get (s.rebase file) = f.within directory (f.get s) := by
  rw [rebase_eq parent]
  cases f <;> rfl

/-- A default stands in the directory of a file, unless it is a relative data directory. -/
theorem within_default {f : Setting} (directory : Path)
    (absolute : f = .compilerDirectory → (default env).compilerDirectory.isAbsolute = true) :
    f.within directory (f.get (default env)) = f.get (default env) := by
  by_cases same : f = .compilerDirectory
  · subst same
    exact Path.join_of_isAbsolute directory (absolute rfl)
  · exact Setting.within_of_ne same directory _

/-- Settings are what a text says, seen from a directory, and the defaults where it says nothing. -/
structure FilledFrom (env : Environment) (text : String) (directory : Path) (s : Settings) : Prop where
  given : ∀ f n, Sets text f n →
    ∃ v, f.meaning? (Content.ofText text.toList) n = some v ∧ f.get s = f.within directory v
  /-- A relative default for the data directory need not stand, unless the text is blank. -/
  kept : ∀ f, (∀ n, ¬ Sets text f n) →
    (f = .compilerDirectory → (default env).compilerDirectory.isAbsolute = true ∨
      text.toList.all Text.isBlank = true) → f.get s = f.get (default env)

/-- Texts that set nothing give the defaults. -/
theorem FilledFrom.eq_default (filled : s.FilledFrom env text directory)
    (absolute : (default env).compilerDirectory.isAbsolute = true)
    (nothing : ∀ f n, ¬ Sets text f n) : s = default env :=
  Setting.ext fun f => filled.kept f (nothing f) fun _ => .inl absolute

/-- **A settings file sets what its text sets, and the defaults stand for the rest.**  A relative data
directory in the file begins in the directory of the file; that the file has one is no assumption.
Files that set nothing give the defaults, and files of blanks and comments set nothing. -/
theorem ofFile_exact (read : (ofFile env d file).value = .ok s) :
    ∃ text directory, d.readText file = .ok text ∧ file.parent? = some directory ∧
      s.FilledFrom env text directory ∧
      ((default env).compilerDirectory.isAbsolute = true → (∀ f n, ¬ Sets text f n) → s = default env) ∧
      (isQuiet .margin text.toList = true → ∀ f n, ¬ Sets text f n) := by
  rw [ofFile] at read
  cases found : d.readText file with
  | error e => rw [found] at read; exact nomatch read
  | ok text =>
      rw [found] at read
      obtain ⟨directory, parent⟩ := Disk.exists_parent?_of_readText found
      suffices filled : s.FilledFrom env text directory from
        ⟨text, directory, rfl, parent, filled, filled.eq_default, not_sets_of_isQuiet⟩
      dsimp only at read
      split at read
      · next blank =>
          obtain rfl := Except.ok.inj read
          have quiet := isQuiet_of_blank (s := .margin) (List.all_eq_true.mp blank)
          exact ⟨fun f n sets => absurd sets (not_sets_of_isQuiet quiet f n), fun _ _ _ => rfl⟩
      next busy =>
      split at read
      · exact nomatch read
      next s₀ parsed =>
      obtain rfl := Except.ok.inj read
      constructor
      · intro f n sets
        exact ⟨f.get s₀, (readText_meant parsed f).2 n sets, get_rebase parent s₀ f⟩
      · intro f absent stands
        have absolute := fun same => (stands same).resolve_right busy
        rw [get_rebase parent, (readText_meant parsed f).1 absent, within_default directory absolute]

/-! ### A settings file -/

/-- A disk with one file, `/conf/s.yaml`. -/
def confWith (text : String) : Disk where
  root := .directory [(Utf8.encode "conf", .directory [(Utf8.encode "s.yaml", .file 0)])]
  files := [⟨Utf8.encode text, none⟩]
  here := []

/-- The path of the file. -/
def confFile : Path := .ofString "/conf/s.yaml"

theorem readText_confWith (text : String) : (confWith text).readText confFile = .ok text := by
  have bytes : (confWith text).readBytes confFile = .ok (Utf8.encode text) := rfl
  rw [Disk.readText, bytes]
  simp only [bind, Except.bind, Utf8.text?_eq_some_iff.mpr rfl]

theorem ofFile_confWith (busy : text.toList.all Text.isBlank = false)
    (parsed : readText text (read env) = .ok s) :
    (ofFile env (confWith text) confFile).value = .ok (s.rebase confFile) := by
  rw [ofFile, readText_confWith]
  simp only [busy, parsed]
  rfl

theorem content_compilerDirectory : Content.ofText "compiler_dir: d".toList =
    ⟨.mapping ⟨0, 0, 0⟩ none [(.scalar ⟨0, 0, 0⟩ none "compiler_dir".toList .plain,
      .scalar ⟨14, 0, 14⟩ none "d".toList .plain)], [], 4, none, false⟩ := by
  cbv

/-- The data directory of the file lies where the file does, and nothing else is set. -/
theorem ofFile_exact_conf :
    let env : Environment := ⟨none, .ofString "/usr/lib/clua"⟩
    let s := { default env with compilerDirectory := .ofString "/conf/d" }
    (ofFile env (confWith "compiler_dir: d") confFile).value = .ok s ∧
      s.FilledFrom env "compiler_dir: d" (.ofString "/conf") := by
  intro env s
  have parsed : readText "compiler_dir: d" (Settings.read env) =
      .ok { default env with compilerDirectory := .ofString "d" } := by
    rw [readText, content_compilerDirectory]
    rfl
  have read : (ofFile env (confWith "compiler_dir: d") confFile).value = .ok s :=
    ofFile_confWith (by decide) parsed
  obtain ⟨text, directory, found, parent, filled, -⟩ := ofFile_exact read
  obtain rfl := Except.ok.inj ((readText_confWith _).symm.trans found)
  obtain rfl : .ofString "/conf" = directory := Option.some.inj parent
  exact ⟨read, filled⟩

theorem content_isStrict : Content.ofText "strict_data: true".toList =
    ⟨.mapping ⟨0, 0, 0⟩ none [(.scalar ⟨0, 0, 0⟩ none "strict_data".toList .plain,
      .scalar ⟨13, 0, 13⟩ none "true".toList .plain)], [], 4, none, false⟩ := by
  cbv

/-- A relative default for the data directory is taken for a path in the directory of the file, although
the file does not set it.  In an empty file it stands. -/
theorem ofFile_rebases_default :
    let env : Environment := ⟨some (.ofString "rel"), .ofString "/usr/lib/clua"⟩
    let s := { default env with compilerDirectory := .ofString "/conf/rel", isStrict := true }
    (∀ n, ¬ Sets "strict_data: true" .compilerDirectory n) ∧
      (default env).compilerDirectory = .ofString "rel" ∧
      (ofFile env (confWith "strict_data: true") confFile).value = .ok s ∧
      (ofFile env (confWith "") confFile).value = .ok (default env) := by
  intro env s
  have parsed : readText "strict_data: true" (Settings.read env) =
      .ok { default env with isStrict := true } := by
    rw [readText, content_isStrict]
    rfl
  refine ⟨?_, rfl, ofFile_confWith (by decide) parsed, ?_⟩
  · rintro n ⟨k, member, named⟩
    rw [content_isStrict] at member named
    obtain ⟨rfl, -⟩ := Prod.mk.inj (List.mem_singleton.mp member)
    exact absurd named (by decide)
  · rw [ofFile, readText_confWith]
    rfl

end Settings

end ProjectIndex
