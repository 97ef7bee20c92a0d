import CallReach.Files.Fault
import CallReach.Files.Path

/-!
# File systems

What the command line needs from a file system, in any monad: a tree of files
that is a value, or the disk.
-/

namespace CallReach.Files

/-- The operations of a file system. -/
structure System (m : Type → Type) where
  /-- Whether something is at a path. -/
  isThere : Path → m (Except Fault Bool)
  /-- The contents of a file. -/
  read : Path → m (Except Fault (List UInt8))
  /-- Writes a file at the place of a path, seen from the working directory.
  Missing directories on the way are made. -/
  write : Path → List UInt8 → m (Except Fault Unit)

end CallReach.Files
