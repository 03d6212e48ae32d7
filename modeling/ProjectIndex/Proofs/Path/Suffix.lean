import ProjectIndex.Proofs.Path.Parent

/-!
# Suffixes

The suffix of a path is read from the bytes of its spelling: from the name that the spelling ends in, slashes
and periods behind it left out, and of this name from what stands behind its last period.  Both cuts are made
at the last place of one byte, and `exists_last` makes either.

* `EndsIn` says in bytes what it means that a spelling ends in a name, and `endsIn_iff` that this is the name
  in the last component.
* `extensionBytes?_eq_some_iff` gives the bytes behind the last period of a name.
* `suffix?_eq_some_iff` puts the two together.

Only the bytes behind the period have to be a text; what stands before it has to be there, and nothing else is
asked of it.  So the texts that are the suffix of some path are just those of one period and at least one
further character, none of them a period or a slash: `isSuffix_iff`.
-/

namespace ProjectIndex

/-- The text is a period and at least one further character, none of them a period or a slash. -/
def IsSuffix (s : String) : Prop :=
  ∃ text : String, s = "." ++ text ∧ text ≠ "" ∧ '.' ∉ text.toList ∧ '/' ∉ text.toList

namespace Path

variable {p : Path} {n front tail : Bytes}

/-! ### The name that a path ends in -/

/-- The bytes add nothing to what is said before them: there are none, or they begin with a slash and no
more than a period stands between any two slashes or behind the last one. -/
def SaysNothing (tail : Bytes) : Prop :=
  tail = [] ∨ tail.head? = some slash ∧ ∀ s ∈ segments tail, s = [] ∨ s = [dot]

/-- The spelling ends in the name, but for bytes that say nothing: the name stands at its start or behind a
slash. -/
def EndsIn (p : Path) (n : Bytes) : Prop :=
  IsName n ∧ ∃ front tail, p.bytes = front ++ n ++ tail ∧
    (front = [] ∨ front.getLast? = some slash) ∧ SaysNothing tail

theorem inner_append_slash (a b : Bytes) : inner (a ++ slash :: b) = inner a ++ inner b := by
  unfold inner
  rw [segments_append_slash, List.filterMap_append]

theorem component?_eq_none_iff {s : Bytes} : component? s = none ↔ s = [] ∨ s = [dot] := by
  unfold component?
  split_ifs with nothing parent
  · exact ⟨fun _ => nothing, fun _ => rfl⟩
  · exact ⟨nofun, fun h => absurd h nothing⟩
  · exact ⟨nofun, fun h => absurd h nothing⟩

/-- A segment that stands for a name is that name. -/
theorem component?_eq_name_iff {s : Bytes} (whole : slash ∉ s) :
    component? s = some (.name n) ↔ s = n ∧ IsName n := by
  constructor
  · intro h
    unfold component? at h
    split_ifs at h with nothing parent
    · cases h
    · obtain ⟨nonempty, notDot⟩ := not_or.mp nothing
      obtain rfl := Component.name.inj (Option.some.inj h)
      exact ⟨rfl, nonempty, notDot, parent, whole⟩
  · rintro ⟨rfl, name⟩
    exact name.component?

/-- One more segment that stands for nothing adds nothing. -/
theorem SaysNothing.append_slash {s : Bytes} (h : SaysNothing tail) (whole : slash ∉ s)
    (none : component? s = none) : SaysNothing (tail ++ slash :: s) := by
  have last : ∀ x ∈ segments s, x = [] ∨ x = [dot] := by
    intro x member
    rw [segments_of_notMem whole, List.mem_singleton] at member
    exact component?_eq_none_iff.mp (member ▸ none)
  refine .inr ?_
  rw [segments_append_slash, List.forall_mem_append]
  rcases h with rfl | ⟨begins, segs⟩
  · refine ⟨rfl, ?_, last⟩
    intro x member
    exact .inl (List.mem_singleton.mp member)
  · refine ⟨?_, segs, last⟩
    rw [List.head?_append, begins]
    rfl

theorem SaysNothing.inner_append (h : SaysNothing tail) (body : Bytes) :
    inner (body ++ tail) = inner body := by
  rcases h with rfl | ⟨begins, segs⟩
  · rw [List.append_nil]
  · obtain ⟨rest, rfl⟩ := List.head?_eq_some_iff.mp begins
    rw [segments_slash] at segs
    have rest_nothing : inner rest = [] := by
      apply List.filterMap_eq_nil_iff.mpr
      intro s member
      exact component?_eq_none_iff.mpr (segs s (List.mem_cons_of_mem _ member))
    rw [inner_append_slash, rest_nothing, List.append_nil]

/-- Where the last component of some bytes is a name, they end in it.  The segments are taken away from the
end until one stands for something. -/
theorem exists_split_of_getLast?_inner {body : Bytes} (last : (inner body).getLast? = some (.name n)) :
    IsName n ∧ ∃ front tail, body = front ++ n ++ tail ∧
      (front = [] ∨ front.getLast? = some slash) ∧ SaysNothing tail := by
  induction length : body.length using Nat.strongRecOn generalizing body with
  | ind size ih =>
    by_cases slashed : slash ∈ body
    · obtain ⟨a, s, whole, rfl⟩ := exists_last slashed
      have one : inner s = (component? s).toList := by
        rw [inner_eq s, (segment_of_notMem whole).1, (segment_of_notMem whole).2]
        rfl
      rw [inner_append_slash, one] at last
      cases stands : component? s with
      | none =>
          rw [stands, Option.toList_none, List.append_nil] at last
          have shorter : a.length < size := by
            rw [← length, List.length_append, List.length_cons]
            omega
          obtain ⟨name, front, tail, rfl, begins, nothing⟩ := ih a.length shorter last rfl
          exact ⟨name, front, tail ++ slash :: s, by simp, begins, nothing.append_slash whole stands⟩
      | some c =>
          rw [stands, Option.toList_some, List.getLast?_concat] at last
          obtain ⟨rfl, name⟩ := (component?_eq_name_iff whole).mp (stands.trans last)
          exact ⟨name, a ++ [slash], [], by simp, .inr List.getLast?_concat, .inl rfl⟩
    · rw [inner_eq, (segment_of_notMem slashed).1, (segment_of_notMem slashed).2] at last
      cases stands : component? body with
      | none =>
          rw [stands] at last
          cases last
      | some c =>
          rw [stands] at last
          obtain ⟨rfl, name⟩ := (component?_eq_name_iff slashed).mp (stands.trans last)
          exact ⟨name, [], [], by simp, .inl rfl, .inl rfl⟩

/-- Whether the last component is a name does not depend on how the path begins. -/
theorem getLast?_components_eq_name_iff :
    p.components.getLast? = some (.name n) ↔ (inner p.bytes).getLast? = some (.name n) := by
  have behind : ∀ (c : Component), (∀ m, c ≠ .name m) →
      ((c :: inner p.bytes).getLast? = some (.name n) ↔ (inner p.bytes).getLast? = some (.name n)) := by
    intro c other
    cases inner p.bytes with
    | nil => exact ⟨fun h => absurd (Option.some.inj h) (other n), nofun⟩
    | cons d ds => rw [List.getLast?_cons_cons]
  show (if p.isAbsolute then Component.root :: inner p.bytes
    else if p.startsHere then .current :: inner p.bytes else inner p.bytes).getLast? = _ ↔ _
  split_ifs
  · exact behind .root nofun
  · exact behind .current nofun
  · rfl

/-- **A path ends in a name exactly if that name is its last component.** -/
theorem endsIn_iff : p.EndsIn n ↔ p.components.getLast? = some (.name n) := by
  rw [getLast?_components_eq_name_iff]
  constructor
  · rintro ⟨name, front, tail, split, begins, nothing⟩
    have alone : inner n = [.name n] := by
      unfold inner
      rw [segments_of_notMem name.slash_notMem, List.filterMap_cons_some name.component?,
        List.filterMap_nil]
    rw [split, nothing.inner_append]
    rcases begins with rfl | slashed
    · rw [List.nil_append, alone]
      rfl
    · obtain ⟨a, rfl⟩ := List.getLast?_eq_some_iff.mp slashed
      rw [List.append_assoc, List.singleton_append, inner_append_slash, alone, List.getLast?_concat]
  · exact exists_split_of_getLast?_inner

theorem nameBytes?_eq_some_iff : p.nameBytes? = some n ↔ p.EndsIn n := by
  rw [endsIn_iff]
  unfold nameBytes?
  constructor
  · intro h
    split at h
    · next b last => rw [last, Option.some.inj h]
    · cases h
  · intro last
    rw [last]

/-- What paths say settles their name. -/
theorem nameBytes?_congr {q : Path} (h : p.components = q.components) : p.nameBytes? = q.nameBytes? := by
  unfold nameBytes?
  rw [h]

/-! ### The last period -/

theorem extensionBytes?_append {stem e : Bytes} (whole : dot ∉ e) :
    extensionBytes? (stem ++ dot :: e) = if stem = [] then none else some e := by
  have short : (stem ++ dot :: e).length ≤ e.length + 1 ↔ stem = [] := by
    rw [List.length_append, List.length_cons, ← List.length_eq_zero_iff]
    omega
  unfold extensionBytes?
  simp only [behind_last stem whole, short]

theorem extensionBytes?_of_notMem (none : dot ∉ n) : extensionBytes? n = .none := by
  have taken := (takeWhile_reverse none []).1
  rw [List.append_nil, List.takeWhile_nil, List.append_nil] at taken
  unfold extensionBytes?
  simp only [taken, List.reverse_reverse]
  exact if_pos (Nat.le_succ _)

/-- **What stands behind the last period of a name**, if something stands before it. -/
theorem extensionBytes?_eq_some_iff {e : Bytes} :
    extensionBytes? n = some e ↔ ∃ stem, stem ≠ [] ∧ n = stem ++ dot :: e ∧ dot ∉ e := by
  constructor
  · intro h
    by_cases dotted : dot ∈ n
    · obtain ⟨stem, behind, whole, rfl⟩ := exists_last dotted
      rw [extensionBytes?_append whole] at h
      split_ifs at h with empty
      obtain rfl := Option.some.inj h
      exact ⟨stem, empty, rfl, whole⟩
    · rw [extensionBytes?_of_notMem dotted] at h
      cases h
  · rintro ⟨stem, nonempty, rfl, whole⟩
    rw [extensionBytes?_append whole, if_neg nonempty]

/-! ### The suffix -/

/-- **The suffix is a period and the text behind the last period of the name** that the path ends in; before
this period something stands, and so behind it. -/
theorem suffix?_eq_some_iff {s : String} : p.suffix? = some s ↔
    ∃ stem e, p.EndsIn (stem ++ dot :: e) ∧ stem ≠ [] ∧ e ≠ [] ∧ dot ∉ e ∧
      ∃ text, Utf8.text? e = some text ∧ s = "." ++ text := by
  have bound : p.suffix? = some s ↔ ∃ name, p.nameBytes? = some name ∧ ∃ e, extensionBytes? name = some e ∧
      ∃ text, Utf8.text? e = some text ∧ (if text.isEmpty then none else some ("." ++ text)) = some s := by
    unfold suffix?
    simp only [Option.bind_eq_bind, Option.bind_eq_some_iff]
  have empty : ∀ {e : Bytes} {text : String}, Utf8.text? e = some text → (text.isEmpty = true ↔ e = []) := by
    intro e text read
    obtain rfl := Utf8.text?_eq_some_iff.mp read
    rw [Utf8.encode_eq_nil_iff, String.isEmpty_iff]
  rw [bound]
  constructor
  · rintro ⟨name, ends, e, extension, text, read, shown⟩
    obtain ⟨stem, nonempty, rfl, whole⟩ := extensionBytes?_eq_some_iff.mp extension
    split_ifs at shown with nothing
    refine ⟨stem, e, nameBytes?_eq_some_iff.mp ends, nonempty, ?_, whole, text, read, ?_⟩
    · exact mt (empty read).mpr nothing
    · exact (Option.some.inj shown).symm
  · rintro ⟨stem, e, ends, nonempty, something, whole, text, read, rfl⟩
    refine ⟨_, nameBytes?_eq_some_iff.mpr ends, e, ?_, text, read, ?_⟩
    · exact extensionBytes?_eq_some_iff.mpr ⟨stem, nonempty, rfl, whole⟩
    · rw [if_neg (mt (empty read).mp something)]

/-- What paths say settles their suffix. -/
theorem suffix?_congr {q : Path} (h : p.components = q.components) : p.suffix? = q.suffix? := by
  unfold suffix?
  rw [nameBytes?_congr h]

/-- **A text is the suffix of some path exactly if it is a period and further characters**, none of them a
period or a slash. -/
theorem isSuffix_iff {s : String} : IsSuffix s ↔ ∃ p : Path, p.suffix? = some s := by
  have dots : ∀ text : String, dot ∈ Utf8.encode text ↔ '.' ∈ text.toList := fun text =>
    Utf8.mem_encode_iff (by decide)
  have slashes : ∀ text : String, slash ∈ Utf8.encode text ↔ '/' ∈ text.toList := fun text =>
    Utf8.mem_encode_iff (by decide)
  constructor
  · rintro ⟨text, rfl, nonempty, noDot, noSlash⟩
    -- Any byte that is no period and no slash will do for what stands before the period.
    have ends : (Path.mk (0x61 :: dot :: Utf8.encode text)).EndsIn ([0x61] ++ dot :: Utf8.encode text) := by
      refine ⟨⟨nofun, nofun, ?_, ?_⟩, [], [], ?_, .inl rfl, .inl rfl⟩
      · intro same
        exact absurd (List.cons.inj same).1 (by decide)
      · intro inside
        rw [List.mem_append, List.mem_singleton, List.mem_cons, slashes] at inside
        rcases inside with first | period | behind
        · exact absurd first (by decide)
        · exact absurd period (by decide)
        · exact noSlash behind
      · rw [List.append_nil]
        rfl
    exact ⟨_, suffix?_eq_some_iff.mpr ⟨[0x61], _, ends, nofun, mt Utf8.encode_eq_nil_iff.mp nonempty,
      mt (dots text).mp noDot, text, Utf8.text?_eq_some_iff.mpr rfl, rfl⟩⟩
  · rintro ⟨p, suffixed⟩
    obtain ⟨stem, e, ends, -, something, whole, text, read, rfl⟩ := suffix?_eq_some_iff.mp suffixed
    obtain rfl := Utf8.text?_eq_some_iff.mp read
    refine ⟨text, rfl, mt Utf8.encode_eq_nil_iff.mpr something, mt (dots text).mpr whole, ?_⟩
    intro slashed
    have inside : slash ∈ stem ++ dot :: Utf8.encode text :=
      List.mem_append_right _ (List.mem_cons_of_mem _ ((slashes text).mpr slashed))
    exact ends.1.slash_notMem inside

end Path

end ProjectIndex
