import ProjectIndex.Disk.Change
import ProjectIndex.Proofs.Disk.Route
import ProjectIndex.Proofs.Disk.Straight
import ProjectIndex.Proofs.Results

/-!
# Disks that are built

What is proved about a disk asks that its tree is proper and that paths can step down to all of its names.
Every disk is like that which is built from an empty one by making directories, files and links, by adding
to files and by removing: `Disk.Built.sound`.

A change puts one node under one new name, and this name is a step of the path that was given, whatever
links the path goes through: what stands between two slashes of a path is a name as soon as it is a step
down (`Path.isName_of_mem_steps`), and a name that is too long or has a zero byte is refused.  The names
before it are those of directories that are already there, so nothing has to be known about them.
-/

namespace ProjectIndex

open ProjectIndex.Path (IsName)

/-! ### The names in a path -/

namespace Path

theorem slash_notMem_of_mem_segments {bs s : Bytes} (h : s ∈ segments bs) : slash ∉ s := by
  induction bs generalizing s with
  | nil =>
      rw [List.mem_singleton.mp h]
      exact List.not_mem_nil
  | cons b bs ih =>
      by_cases hb : b = slash
      · rw [hb, segments_slash] at h
        rcases List.mem_cons.mp h with rfl | later
        · exact List.not_mem_nil
        · exact ih later
      · obtain ⟨first, rest, hs⟩ := List.exists_cons_of_ne_nil (segments_ne_nil bs)
        rw [segments_cons hb hs] at h
        rw [hs] at ih
        rcases List.mem_cons.mp h with rfl | later
        · rw [List.mem_cons, not_or]
          exact ⟨Ne.symm hb, ih List.mem_cons_self⟩
        · exact ih (List.mem_cons_of_mem _ later)

theorem isName_of_component? {s : Bytes} {n : FileName} (free : slash ∉ s)
    (h : component? s = some (.name n)) : IsName n := by
  rw [component?] at h
  split at h
  · contradiction
  · next inner =>
      split at h
      · cases h
      · next ne_dots =>
          obtain rfl := Component.name.inj (Option.some.inj h)
          exact ⟨(not_or.mp inner).1, (not_or.mp inner).2, ne_dots, free⟩

/-- What a path steps down to is a name. -/
theorem isName_of_mem_steps {p : Path} {n : FileName} (h : Step.down n ∈ p.steps) : IsName n := by
  obtain ⟨s, hs, step⟩ := List.mem_map.mp h
  refine isName_of_component? (slash_notMem_of_mem_segments hs) ?_
  rw [Step.ofSegment] at step
  split at step
  · cases step
  · next same => rw [same, Step.down.inj step]
  · cases step

end Path

/-- A name that a node can be given. -/
structure GivenName (n : FileName) : Prop where
  isName : IsName n
  short : n.length ≤ nameLimit
  nonzero : 0 ∉ n

theorem GivenName.of_checkName {n : FileName} (isName : IsName n) (checked : Disk.checkName n = .ok ()) :
    GivenName n := by
  rw [Disk.checkName] at checked
  split at checked
  · cases checked
  next nonzero =>
  split at checked
  · cases checked
  next short =>
  exact ⟨isName, Nat.not_lt.mp short, mt List.contains_iff_mem.mpr nonzero⟩

/-! ### Trees that are changed -/

namespace Tree

variable {t c : Tree} {new : Option Tree} {n : FileName} {ns : List FileName}
  {children : List (FileName × Tree)}

/-- The tree is proper, and a path can step down to each of its names. -/
structure Sound (t : Tree) : Prop where
  proper : t.Proper
  storable : t.Storable

namespace Sound

theorem file (id : Nat) : (Tree.file id).Sound := ⟨.file id, storable_leaf rfl⟩

theorem link (target : Path) : (Tree.link target).Sound := ⟨.link target, storable_leaf rfl⟩

theorem directory (names : ∀ c ∈ children, GivenName c.1) (distinct : (children.map (·.1)).Nodup)
    (inner : ∀ c ∈ children, c.2.Sound) : (Tree.directory children).Sound where
  proper := .directory (fun c hc => (names c hc).isName) distinct fun c hc => (inner c hc).proper
  storable := storable_directory (fun c hc => ⟨(names c hc).short, (names c hc).nonzero⟩)
    fun c hc => (inner c hc).storable

theorem emptyDirectory : (Tree.directory []).Sound := directory nofun List.nodup_nil nofun

theorem names (h : (Tree.directory children).Sound) : ∀ c ∈ children, GivenName c.1 := by
  intro c hc
  have found : (Tree.directory children).find? [c.1] = some c.2 := by
    rw [find?_directory_cons, h.proper.mem_iff.mp hc]
    rfl
  obtain ⟨short, nonzero⟩ := h.storable _ _ found c.1 List.mem_cons_self
  exact ⟨h.proper.names c hc, short, nonzero⟩

theorem inner (h : (Tree.directory children).Sound) : ∀ c ∈ children, c.2.Sound := by
  intro c hc
  refine ⟨h.proper.inner c hc, fun ns below found n member => ?_⟩
  have whole : (Tree.directory children).find? (c.1 :: ns) = some below := by
    rw [find?_directory_cons, h.proper.mem_iff.mp hc, Option.bind_some, found]
  exact h.storable _ _ whole n (List.mem_cons_of_mem _ member)

/-- A child that is taken away leaves a directory sound. -/
theorem removeChild (h : (Tree.directory children).Sound) (n : FileName) :
    (Tree.directory (Tree.setChild children n none)).Sound :=
  directory (fun c hc => h.names c (List.mem_of_mem_filter hc))
    (h.proper.distinct.sublist (List.filter_sublist.map Prod.fst))
    fun c hc => h.inner c (List.mem_of_mem_filter hc)

/-- A child that is put under a name leaves a directory sound. -/
theorem setChild (h : (Tree.directory children).Sound) (hn : GivenName n) (hc : c.Sound) :
    (Tree.directory (Tree.setChild children n (some c))).Sound := by
  rw [Tree.setChild]
  split
  -- The child takes the place of one of its name, or stands at the end under a new one.
  · have same : (children.map fun b => if b.1 == n then (n, c) else b).map (·.1) =
        children.map (·.1) := by
      rw [List.map_map]
      refine List.map_congr_left fun b _ => ?_
      rw [Function.comp]
      split
      · next found => exact (beq_iff_eq.mp found).symm
      · rfl
    refine directory (fun b hb => ?_) (same ▸ h.proper.distinct) fun b hb => ?_
    · obtain ⟨old, member, rfl⟩ := List.mem_map.mp hb
      split
      · exact hn
      · exact h.names old member
    · obtain ⟨old, member, rfl⟩ := List.mem_map.mp hb
      split
      · exact hc
      · exact h.inner old member
  · next missing =>
      have fresh : n ∉ children.map (·.1) := by
        intro found
        obtain ⟨b, hb, rfl⟩ := List.mem_map.mp found
        exact missing (List.lookup_isSome_iff.mpr ⟨b, hb, beq_self_eq_true _⟩)
      refine directory ?_ ?_ ?_
      · exact List.forall_mem_append.mpr ⟨h.names, List.forall_mem_singleton.mpr hn⟩
      · rw [List.map_append, List.nodup_append]
        refine ⟨h.proper.distinct, List.nodup_singleton _, fun m hm last hlast same => fresh ?_⟩
        have last_eq : last = n := List.mem_singleton.mp hlast
        rwa [same, last_eq] at hm
      · exact List.forall_mem_append.mpr ⟨h.inner, List.forall_mem_singleton.mpr hc⟩

/-- A node that is put under names or taken away leaves a tree sound.  Only the last name can be new. -/
theorem set (hnew : ∀ c ∈ new, c.Sound ∧ ∀ n ∈ ns.getLast?, GivenName n) (sound : t.Sound) :
    (t.set new ns).Sound := by
  induction ns generalizing t with
  | nil =>
      cases new with
      | none => exact sound
      | some c => exact (hnew c rfl).1
  | cons n ns ih =>
      cases t with
      | file id => exact sound
      | link target => exact sound
      | special => exact sound
      | directory children =>
          cases ns with
          | nil =>
              cases new with
              | none => exact sound.removeChild n
              | some c => exact sound.setChild ((hnew c rfl).2 n rfl) (hnew c rfl).1
          | cons m ns =>
              cases found : children.lookup n with
              | none =>
                  have same : (Tree.directory children).set new (n :: m :: ns) =
                      .directory children := by simp only [Tree.set, found]
                  rw [same]
                  exact sound
              | some c =>
                  have changed : (Tree.directory children).set new (n :: m :: ns) =
                      .directory (Tree.setChild children n (some (c.set new (m :: ns)))) := by
                    simp only [Tree.set, found]
                  have member := sound.proper.mem_iff.mpr found
                  rw [changed]
                  exact sound.setChild (sound.names _ member) (ih hnew (sound.inner _ member))

end Sound

end Tree

/-! ### Disks that are changed -/

namespace Disk

variable {d d' : Disk} {p : Path} {place names : List FileName} {n : FileName}

theorem sound_set (h : d.root.Sound) {new : Tree} (hnew : new.Sound) (hn : GivenName n) :
    (d.set (place ++ [n]) (some new)).root.Sound := by
  refine Tree.Sound.set (fun c hc => ?_) h
  obtain rfl := Option.some.inj hc
  refine ⟨hnew, fun m hm => ?_⟩
  rw [List.getLast?_concat] at hm
  obtain rfl := Option.some.inj hm
  exact hn

/-- Making directories leaves a disk sound. -/
theorem sound_makeSteps (steps : List Step) : ∀ {d : Disk} {base place : List FileName} {d' : Disk},
    d.root.Sound → (∀ n, Step.down n ∈ steps → IsName n) →
      d.makeSteps base steps = .ok (d', place) → d'.root.Sound := by
  induction steps with
  | nil =>
      intro d base place d' h _ made
      obtain ⟨rfl, rfl⟩ := Prod.mk.inj (Except.ok.inj made)
      exact h
  | cons s rest ih =>
      intro d base place d' h named made
      have others : ∀ n, Step.down n ∈ rest → IsName n := fun n hn =>
        named n (List.mem_cons_of_mem _ hn)
      unfold Disk.makeSteps at made
      split at made
      · exact ih h others made
      · exact ih h others made
      · split at made
        · obtain ⟨_, checked, made⟩ := eq_ok_of_bind made
          have given := GivenName.of_checkName (named _ List.mem_cons_self) checked
          exact ih (sound_set h .emptyDirectory given) others made
        -- Nothing is made on the way of a link; what it leads to must be there.
        · obtain ⟨onward, -, made⟩ := eq_ok_of_bind made
          exact ih h others made
        · exact ih h others made
      · cases made
      · cases made

theorem sound_makeParent (h : d.root.Sound) (made : d.makeParent p = .ok (d', place, n)) :
    d'.root.Sound ∧ GivenName n := by
  rw [makeParent] at made
  split at made
  · next name last =>
      obtain ⟨_, checked, made⟩ := eq_ok_of_bind made
      obtain ⟨⟨d₁, place₁⟩, steps, made⟩ := eq_ok_of_bind made
      obtain ⟨rfl, rfl, rfl⟩ := by simpa using Except.ok.inj made
      have named : ∀ n, Step.down n ∈ p.steps → IsName n := fun n => Path.isName_of_mem_steps
      exact ⟨sound_makeSteps _ h (fun n hn => named n (List.dropLast_subset _ hn)) steps,
        .of_checkName (named _ (List.mem_of_getLast? last)) checked⟩
  · cases made

/-- A file that is there keeps its name, and so only a new one needs a name that can be given. -/
theorem sound_setFile (h : d.root.Sound) {data : FileData}
    (hn : d.root.find? names = none → ∃ place n, names = place ++ [n] ∧ GivenName n)
    (made : d.setFile names data = .ok d') : d'.root.Sound := by
  rw [setFile] at made
  split at made
  · obtain rfl := Except.ok.inj made
    exact h
  · cases made
  · cases made
  · cases made
  · next absent =>
      obtain ⟨place, n, rfl, given⟩ := hn absent
      obtain rfl := Except.ok.inj made
      exact sound_set h (.file _) given

theorem sound_writeFile (h : d.root.Sound) {bytes : Bytes} (made : d.writeFile p bytes = .ok d') :
    d'.root.Sound := by
  obtain ⟨⟨d₁, place, n⟩, parent, made⟩ := eq_ok_of_bind made
  obtain ⟨sound, given⟩ := sound_makeParent h parent
  dsimp only at made
  split at made
  · next target link =>
      obtain ⟨onward, walked, made⟩ := eq_ok_of_bind made
      obtain ⟨links, -, route⟩ := exists_route_of_walk walked
      -- A link is followed to something that is there, so no name is given.
      obtain ⟨t, found⟩ := route.exists_find? (exists_find?_origin target (exists_find?_of_append ⟨_, link⟩))
      exact sound_setFile sound (fun absent => nomatch found.symm.trans absent) made
  · exact sound_setFile sound (fun _ => ⟨place, n, rfl, given⟩) made

theorem sound_makeLink (h : d.root.Sound) {target : Path} (made : d.makeLink p target = .ok d') :
    d'.root.Sound := by
  obtain ⟨⟨d₁, place, n⟩, parent, made⟩ := eq_ok_of_bind made
  obtain ⟨sound, given⟩ := sound_makeParent h parent
  dsimp only at made
  split at made
  · obtain rfl := Except.ok.inj made
    exact sound_set sound (.link target) given
  · cases made

theorem sound_makeDirectory (h : d.root.Sound) (made : d.makeDirectory p = .ok d') :
    d'.root.Sound := by
  obtain ⟨⟨d₁, place⟩, steps, made⟩ := eq_ok_of_bind made
  have sound := sound_makeSteps _ h (fun n => Path.isName_of_mem_steps) steps
  dsimp only at made
  split at made
  · obtain rfl := Except.ok.inj made
    exact sound
  · cases made

/-- One disk becomes another by a change. -/
inductive Change (d d' : Disk) : Prop
  | makeDirectory {p : Path} (h : d.makeDirectory p = .ok d')
  | writeFile {p : Path} {bytes : Bytes} (h : d.writeFile p bytes = .ok d')
  | makeLink {p target : Path} (h : d.makeLink p target = .ok d')
  | appendFile {p : Path} {bytes : Bytes} (h : d.appendFile p bytes = .ok d')
  | remove {p : Path} (h : d.remove p = .ok d')

/-- **Every change leaves a disk sound.** -/
theorem Change.sound (change : d.Change d') (h : d.root.Sound) : d'.root.Sound := by
  cases change with
  | makeDirectory made => exact sound_makeDirectory h made
  | writeFile made => exact sound_writeFile h made
  | makeLink made => exact sound_makeLink h made
  | appendFile made =>
      obtain ⟨⟨names, t⟩, -, made⟩ := eq_ok_of_bind made
      dsimp only at made
      split at made
      · obtain rfl := Except.ok.inj made
        exact h
      · cases made
      · cases made
  | remove made =>
      obtain ⟨names, -, made⟩ := eq_ok_of_bind made
      obtain rfl := Except.ok.inj made
      exact Tree.Sound.set nofun h

/-- A disk that changes have made of an empty one. -/
inductive Built : Disk → Prop
  | empty (here : List FileName) : Built ⟨.directory [], [], here⟩
  | change {d d' : Disk} (built : Built d) (change : d.Change d') : Built d'

namespace Built

/-- **A disk that is built is proper, and paths can step down to all of its names.** -/
theorem sound (built : d.Built) : d.root.Sound := by
  induction built with
  | empty here => exact .emptyDirectory
  | change _ change ih => exact change.sound ih

theorem proper (built : d.Built) : d.root.Proper := built.sound.proper

theorem storable (built : d.Built) : d.root.Storable := built.sound.storable

theorem makeDirectory (built : d.Built) (p : Path) (h : d.makeDirectory p = .ok d') : d'.Built :=
  .change built (.makeDirectory h)

theorem writeFile (built : d.Built) (p : Path) (bytes : Bytes) (h : d.writeFile p bytes = .ok d') :
    d'.Built :=
  .change built (.writeFile h)

theorem makeLink (built : d.Built) (p target : Path) (h : d.makeLink p target = .ok d') : d'.Built :=
  .change built (.makeLink h)

theorem remove (built : d.Built) (p : Path) (h : d.remove p = .ok d') : d'.Built :=
  .change built (.remove h)

end Built

end Disk

end ProjectIndex
