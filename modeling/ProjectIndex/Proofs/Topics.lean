import ProjectIndex.Document

/-!
# Topics of the log

Some events tell that one thing which was asked for is not there in the end: something that adds nothing to a
table, or a document that is passed over.  `LogEvent.topic` sorts events by this, and `Logged.reports` are
the events on some topics.  Reports of one step and of the next are the reports of both, so a loop can be
followed step by step.

Most functions report on none of these topics.  Where nothing else matters of a function, it is enough to know
that it is quiet (`Logged.IsQuiet`).
-/

namespace ProjectIndex

/-- What an event is reported for. -/
inductive Topic
  /-- Something adds nothing to a table: its key comes again, or a data file cannot be loaded. -/
  | shortfall
  /-- The document at a path is passed over. -/
  | skip (path : Path)
  | other
  deriving DecidableEq

namespace Topic

/-- Whether the topic is that something adds nothing. -/
def isShortfall : Topic → Bool
  | shortfall => true
  | _ => false

/-- Whether the topic is a document at a path that says the same. -/
def isSkipOf (p : Path) : Topic → Bool
  | skip q => q.same p
  | _ => false

end Topic

/-- What the event is reported for. -/
def LogEvent.topic : LogEvent → Topic
  | duplicateKey _ => .shortfall
  | dataFileMissing _ => .shortfall
  | dataFileInvalid .. => .shortfall
  | skippedOther p => .skip p
  | skippedInvalid p _ => .skip p
  | _ => .other

namespace Logged

variable {α β : Type} {on : Topic → Bool} {x : Logged α} {f : α → Logged β} {event : LogEvent}

/-- The events on some topics, in the order in which they happened. -/
def reports (on : Topic → Bool) (x : Logged α) : List LogEvent := x.events.filter fun event => on event.topic

@[simp] theorem reports_pure (a : α) : (pure a : Logged α).reports on = [] := rfl

@[simp] theorem reports_bind (x : Logged α) (f : α → Logged β) :
    (x >>= f).reports on = x.reports on ++ (f x.value).reports on := List.filter_append ..

@[simp] theorem reports_report (event : LogEvent) :
    (report event).reports on = if on event.topic then [event] else [] := by
  unfold reports
  rw [events_report, List.filter_cons, List.filter_nil]

/-- Nothing is reported on any topic. -/
def IsQuiet (x : Logged α) : Prop := ∀ event ∈ x.events, event.topic = .other

theorem isQuiet_pure (a : α) : (pure a : Logged α).IsQuiet := nofun

theorem isQuiet_report (other : event.topic = .other) : (report event).IsQuiet := by
  intro event' member
  rw [List.mem_singleton.mp member, other]

theorem IsQuiet.bind (first : x.IsQuiet) (rest : (f x.value).IsQuiet) : (x >>= f).IsQuiet := by
  intro event member
  rcases List.mem_append.mp member with early | late
  · exact first event early
  · exact rest event late

theorem IsQuiet.reports_eq (quiet : x.IsQuiet) (on : Topic → Bool) (off : on .other = false) :
    x.reports on = [] := by
  apply List.filter_eq_nil_iff.mpr
  intro event member
  rw [quiet event member, off]
  exact Bool.false_ne_true

end Logged

open Logged (isQuiet_pure isQuiet_report)

/-! ### Quiet functions -/

namespace Disk

variable {d : Disk} {tree : List Entry} {name : String} {pick : Pick} {allowEmpty : Bool} {p : Path}

theorem isQuiet_loadDocument (d : Disk) (p : Path) (allowEmpty : Bool) : (d.loadDocument p allowEmpty).IsQuiet := by
  unfold loadDocument
  split
  · exact (isQuiet_report rfl).bind (isQuiet_pure _)
  split
  · exact (isQuiet_report rfl).bind (isQuiet_pure _)
  split
  · exact (isQuiet_report rfl).bind (isQuiet_pure _)
  · exact isQuiet_pure _

theorem isQuiet_loadPicked (d : Disk) (tree : List Entry) (name : String) (pick : Pick) (allowEmpty : Bool) :
    (d.loadPicked tree name pick allowEmpty).IsQuiet := by
  unfold loadPicked
  split
  · exact (isQuiet_report rfl).bind (isQuiet_pure _)
  · dsimp only
    -- Several copies are reported first; then a copy is picked, or there is none to pick.
    split
    · refine (isQuiet_report rfl).bind ?_
      split
      · exact isQuiet_loadDocument d _ allowEmpty
      · exact (isQuiet_report rfl).bind (isQuiet_pure _)
    · split
      · exact isQuiet_loadDocument d _ allowEmpty
      · exact (isQuiet_report rfl).bind (isQuiet_pure _)

theorem isQuiet_list (d : Disk) (p : Path) (isDeep : Bool) : (d.list p isDeep).IsQuiet := by
  unfold list
  split
  · exact (isQuiet_report rfl).bind (isQuiet_pure _)
  split
  · intro event member
    rcases List.mem_append.mp member with unread | last
    · obtain ⟨visit, -, shown⟩ := List.mem_filterMap.mp unread
      cases visit with
      | entry e => cases shown
      | unopened q =>
          obtain rfl := Option.some.inj shown
          rfl
    · rw [List.mem_singleton.mp last]
      rfl
  · exact (isQuiet_report rfl).bind (isQuiet_pure _)
  · exact isQuiet_pure _

theorem isQuiet_findWithSuffixes (d : Disk) (p : Path) (suffixes : List String) (isDeep : Bool) :
    (d.findWithSuffixes p suffixes isDeep).IsQuiet := by
  unfold findWithSuffixes
  split
  · exact isQuiet_pure _
  · exact (isQuiet_list d p isDeep).bind (isQuiet_pure _)

end Disk

end ProjectIndex
