import ProjectIndex.Log

/-!
# Tables

Finite maps in the order of their keys: texts in the order of their characters, paths in the order
of paths, where paths that say the same are one key.

There are two ways to fill a table.  `insertOnce` keeps what is there and reports a key that comes
again; `put` replaces the value and keeps the key as it was spelled first.
-/

namespace ProjectIndex

/-- A finite map in the order of its keys. -/
abbrev Table (κ : Type) (ν : Type) [Ord κ] := Std.TreeMap κ ν

/-- A type of keys that the log can show. -/
class LogKey (κ : Type) where
  /-- The key as the log shows it. -/
  shown : κ → LoggedKey

instance : LogKey String := ⟨.text⟩

instance : LogKey Path := ⟨.path⟩

namespace Table

variable {κ ν : Type} [Ord κ]

/-- Adds a value under a key, unless the key is there.  The answer tells whether it was added. -/
def insertOnce [LogKey κ] (t : Table κ ν) (k : κ) (v : ν) : Logged (Bool × Table κ ν) :=
  if t.contains k then do
    Logged.report (.duplicateKey (LogKey.shown k))
    pure (false, t)
  else pure (true, t.insert k v)

/-- Sets the value under a key, whose first spelling stays. -/
def put (t : Table κ ν) (k : κ) (v : ν) : Table κ ν :=
  t.insert (t.getKeyD k k) v

end Table

end ProjectIndex
