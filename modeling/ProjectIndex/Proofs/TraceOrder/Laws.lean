import ProjectIndex.Proofs.Path.Order
import ProjectIndex.Proofs.Path.Suffix
import ProjectIndex.Proofs.TraceOrder

/-!
# The laws of the orders by depth

Sorting relies on a comparison that puts all paths in one order, whatever three spellings it is asked about.
`Path.OrderedBy` says what that takes: the usual laws, and that paths have one place exactly if they say the
same.  The order of paths has these laws, and so have the two orders by depth that refine it
(`TraceOrder.comparePaths_total`).

Nothing that entries are asked for tells paths of one place apart.  Depth, name and suffix are read off what a
path says.  A parent is cut out of the spelling, and that it says the same for every spelling is
`Path.parent?_congr`.

Among paths below one directory the order of paths keeps together what belongs together.  The directory comes
first.  Two paths that lie in it have equally many components, so neither begins the other
(`Path.LiesIn.apart`), and they pass their order on to all that lies below them.
-/

namespace ProjectIndex

namespace Path

variable {p q dir : Path}

theorem same_iff : p.same q = true ↔ p.components = q.components := beq_iff_eq

/-- The comparison puts all paths in one order, in which just those that say the same share a place. -/
structure OrderedBy (cmp : Path → Path → Ordering) : Prop where
  /-- A path shares its own place. -/
  refl : ∀ p, cmp p p = .eq
  /-- Asked the other way round, the comparison gives the opposite answer. -/
  swap : ∀ p q, cmp q p = (cmp p q).swap
  /-- Where the first path is to the second one as that is to the third, the first is so to the third. -/
  trans : ∀ answer p q r, cmp p q = answer → cmp q r = answer → cmp p r = answer
  /-- What is not behind a path is not behind anything that this path is not behind. -/
  isLE_trans : ∀ p q r, (cmp p q).isLE = true → (cmp q r).isLE = true → (cmp p r).isLE = true
  /-- Of two paths one is not behind the other. -/
  total : ∀ p q, (cmp p q).isLE = true ∨ (cmp q p).isLE = true
  /-- Paths share a place exactly if they say the same. -/
  eq_iff : ∀ p q, cmp p q = .eq ↔ p.same q = true

/-- A lawful comparison orders all paths as soon as it gives one place just to those that say the same. -/
theorem orderedBy_of_places {cmp : Path → Path → Ordering} [Std.TransCmp cmp]
    (places : ∀ p q, cmp p q = .eq ↔ p.components = q.components) : OrderedBy cmp where
  refl p := (places p p).mpr rfl
  swap p q := Std.OrientedCmp.eq_swap
  trans answer p q r := by
    intro first second
    cases answer with
    | lt => exact Std.TransCmp.lt_trans first second
    | eq => exact Std.TransCmp.eq_trans first second
    | gt => exact Std.TransCmp.gt_trans first second
  isLE_trans p q r := Std.TransCmp.isLE_trans
  total p q := by
    have either : ((cmp p q).isLE || (cmp q p).isLE) = true := isLE_total p q
    rwa [Bool.or_eq_true] at either
  eq_iff p q := by rw [places, same_iff]

/-! ### What paths of one place share -/

/-- The paths agree in depth, name and suffix, and have parents that say the same, or both have none. -/
structure SameParts (p q : Path) : Prop where
  depth : p.depth = q.depth
  name : p.name? = q.name?
  parent : Option.Rel (fun a b => a.same b = true) p.parent? q.parent?
  suffix : p.suffix? = q.suffix?

theorem sameParts_of_same (h : p.same q = true) : SameParts p q := by
  have said := same_iff.mp h
  refine ⟨congrArg List.length said, ?_, parent?_congr said, suffix?_congr said⟩
  unfold name?
  rw [nameBytes?_congr said]

/-! ### Paths in one directory -/

/-- The path lies in the directory: its parent says what the directory does. -/
def LiesIn (p dir : Path) : Prop := ∃ parent, p.parent? = some parent ∧ parent.same dir = true

theorem LiesIn.length_components (h : p.LiesIn dir) :
    p.components.length = dir.components.length + 1 := by
  obtain ⟨parent, cut, same⟩ := h
  obtain ⟨c, -, split⟩ := exists_last_of_parent? cut
  rw [split, List.length_append, same_iff.mp same, List.length_singleton]

/-- Different paths in one directory stand apart. -/
theorem LiesIn.apart (hp : p.LiesIn dir) (hq : q.LiesIn dir) (different : p.same q = false) :
    p.Apart q := by
  have differ : p.components ≠ q.components := fun said => by
    rw [same_iff.mpr said] at different
    cases different
  have even : p.components.length = q.components.length := by
    rw [hp.length_components, hq.length_components]
  constructor
  · exact fun begins => differ (begins.eq_of_length even)
  · exact fun begins => differ (begins.eq_of_length even.symm).symm

end Path

namespace TraceOrder

/-- **The orders by depth are total, and compatible with what paths say.**
* The order of paths puts all paths in one order, in which just those that say the same share a place, and so
  do both orders by depth.  By depth, a path is not behind another one exactly if it has the depth that comes
  first, or both have one depth and it is not the greater path.
* Paths that say the same have the same depth, name and suffix, and parents that say the same.
* In the order of paths a directory comes before all that lies below it.  Different paths in one directory have
  different places there, and everything below the one has its place before, or behind, everything below the
  other, as the two have. -/
theorem comparePaths_total :
    Path.OrderedBy compare ∧
    (∀ o : TraceOrder, Path.OrderedBy o.comparePaths ∧
      ∀ p q, (o.comparePaths p q).isLE = true ↔ o.Precedes p q) ∧
    (∀ p q : Path, p.same q = true → Path.SameParts p q) ∧
    ∀ dir : Path,
      (∀ p, dir.Above p → compare dir p = .lt) ∧
      ∀ p q : Path, p.LiesIn dir → q.LiesIn dir → p.same q = false →
        compare p q ≠ .eq ∧ ∀ x y, p.Begins x → q.Begins y → compare x y = compare p q := by
  have paths : Path.OrderedBy compare := Path.orderedBy_of_places fun p q => Path.compare_eq_iff
  refine ⟨paths, ?_, ?_, ?_⟩
  · intro o
    refine ⟨Path.orderedBy_of_places fun p q => comparePaths_eq_iff, ?_⟩
    exact fun p q => precedes_iff.symm
  · exact fun p q same => Path.sameParts_of_same same
  · intro dir
    refine ⟨fun p above => above.lt, ?_⟩
    intro p q hp hq different
    refine ⟨?_, ?_⟩
    · intro shared
      rw [(paths.eq_iff p q).mp shared] at different
      cases different
    · exact fun x y hx hy => (hp.apart hq different).compare_eq hx hy

/-- The file `/p/a.b` stands behind the directory `/p/a`, in whatever spelling, and so behind all that lies
below it; the bytes of the spellings would put it first. -/
theorem comparePaths_total_siblings :
    let dir := Path.ofString "/p"
    let a := Path.ofString "//p/./a/"
    let file := Path.ofString "/p/a.b"
    let inner := Path.ofString "/p/a/z"
    a.LiesIn dir ∧ file.LiesIn dir ∧ compare inner file = .lt ∧ compare file.bytes inner.bytes = .lt ∧
      Path.SameParts a (.ofString "/p/a") := by
  intro dir a file inner
  obtain ⟨-, -, parts, below⟩ := comparePaths_total
  have ha : a.LiesIn dir := ⟨.ofString "//p", by decide +kernel, by decide +kernel⟩
  have hfile : file.LiesIn dir := ⟨dir, by decide +kernel, by decide +kernel⟩
  have passed := ((below dir).2 a file ha hfile (by decide +kernel)).2 inner file (by decide +kernel)
    (by decide +kernel)
  refine ⟨ha, hfile, ?_, by decide +kernel, parts _ _ (by decide +kernel)⟩
  rw [passed]
  decide +kernel

end TraceOrder

end ProjectIndex
