import ProjectIndex.Loader
import ProjectIndex.Proofs.Disk.Resolve

/-!
# The project phase

What the project phase gives, step by step: the canonical root, the deep listing, the source files among
what is listed, and the configurations.  A phase that succeeds has listed something, and so it knows the
canonical form of the directory (`Settings.loadProject_ok`).
-/

namespace ProjectIndex

variable {d : Disk} {p : Path} {s : Settings}

/-- The source files are the entries found, sorted, whether there are any or none. -/
theorem Disk.getD_traceSources (d : Disk) (tree : List Entry) (suffix : String) (order : TraceOrder) :
    (d.traceSources tree suffix order).getD [] = order.sort (tree.filter (d.isSource suffix)) := by
  rw [traceSources, findFiles]
  cases tree.filter (d.isSource suffix) with
  | nil => simp [nonEmpty?, TraceOrder.sort]
  | cons e es => rfl

theorem Disk.isDirectory_iff :
    d.isDirectory p = true ↔ ∃ children, d.node? p = some (.directory children) := by
  rw [isDirectory]
  split
  · next children there => simp [there]
  · next other =>
      simp only [Bool.false_eq_true, false_iff]
      rintro ⟨children, there⟩
      exact other children there

namespace Settings

/-- What the project phase calls the root: the canonical form of the directory. -/
def rootOf (d : Disk) (p : Path) : Path :=
  match d.canonical p with
  | .ok root => root
  | .error _ => p

/-- The result of the project phase. -/
theorem value_loadProject (s : Settings) (d : Disk) (p : Path) :
    (s.loadProject d p).value =
      if d.isDirectory p = false then .error (.notAProject p)
      else
        let tree := (d.list p true).value
        if tree = [] then .error (.emptyProject p)
        else .ok ⟨rootOf d p, tree, s.order.sort (tree.filter (d.isSource s.sourceSuffix)),
          (s.loadConfigurations d (rootOf d p) tree).value⟩ := by
  rw [loadProject]
  cases d.isDirectory p with
  | false => rfl
  | true =>
      simp only [Bool.not_true, Bool.false_eq_true, if_false, Bool.true_eq_false, List.isEmpty_iff,
        d.getD_traceSources, Logged.value_bind]
      split
      · rfl
      · rw [rootOf]
        cases d.canonical p <;> split <;> rfl

/-- **A project phase that succeeds.**  The path led to a directory with a canonical form; the tree is
the deep listing of that directory, and the sources are the source files in it, in their order. -/
theorem loadProject_ok {project : Project} (loaded : (s.loadProject d p).value = .ok project) :
    (∃ children, d.node? p = some (.directory children)) ∧ d.canonical p = .ok project.root ∧
      project.tree = (d.list p true).value ∧
      project.sources = s.order.sort (project.tree.filter (d.isSource s.sourceSuffix)) := by
  rw [value_loadProject] at loaded
  split at loaded
  · exact nomatch loaded
  next there =>
  rw [Bool.not_eq_false] at there
  dsimp only at loaded
  split at loaded
  · exact nomatch loaded
  next listed =>
  obtain rfl := Except.ok.inj loaded
  refine ⟨Disk.isDirectory_iff.mp there, ?_, rfl, rfl⟩
  -- Without a canonical form nothing is listed.
  rw [Disk.list, there] at listed
  cases canonical : d.canonical p with
  | error e => rw [canonical] at listed; exact absurd rfl listed
  | ok root => rw [rootOf, canonical]

/-- The configurations of a project are those of its tree. -/
theorem configurations_of_loadProject {project : Project}
    (loaded : (s.loadProject d p).value = .ok project) :
    project.configurations = (s.loadConfigurations d project.root project.tree).value := by
  rw [value_loadProject] at loaded
  split at loaded
  · exact nomatch loaded
  dsimp only at loaded
  split at loaded
  · exact nomatch loaded
  obtain rfl := Except.ok.inj loaded
  rfl

/-- Loading a session succeeds only if the project phase does. -/
theorem loadSession_ok {session : Session} (loaded : (s.loadSession d p).value = .ok session) :
    (s.loadProject d p).value = .ok session.project := by
  simp only [loadSession, Logged.value_bind] at loaded
  cases compiler : (s.loadCompiler d).value with
  | error e =>
      cases project : (s.loadProject d p).value <;> rw [compiler, project] at loaded <;>
        exact nomatch loaded
  | ok c =>
      cases project : (s.loadProject d p).value with
      | error e => rw [compiler, project] at loaded; exact nomatch loaded
      | ok q =>
          simp only [compiler, project, Logged.value_bind, Logged.value_pure] at loaded
          obtain rfl := Except.ok.inj loaded
          rfl

end Settings

end ProjectIndex
