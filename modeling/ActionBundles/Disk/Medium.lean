import ActionBundles.Disk.Tree

/-!
# Media

What is written to a disk goes to a medium, and a medium may be full: then an entry that is to be
added is refused, or only a first part of a content gets into its file. What a medium takes may
depend on everything that is on the disk, so that of the writes of a run it may refuse any.

`Medium.ample` takes everything. It is what an action runs on where no other medium is given.
-/

namespace ActionBundles

/-- What a disk takes of what is written to it. -/
class Medium where
  /-- Whether an entry can be added at an address. -/
  adds : Tree → Address → Bool
  /-- After how many bytes writing a content to an address stops, if not all of it is written. -/
  stops : Tree → Address → Bytes → Option Nat

namespace Medium

/-- The medium with room for everything. -/
instance ample : Medium where
  adds _ _ := true
  stops _ _ _ := none

/-- The medium that is full where it comes to what `full` names, and takes everything else. -/
abbrev fullAt (full : Address → Bool) : Medium where
  adds _ _ := true
  stops _ a _ := if full a then some 0 else none

end Medium

end ActionBundles
