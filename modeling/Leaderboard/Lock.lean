import Leaderboard.File

/-!
# Lock files

A store directory is used by one holder at a time.  The holder has the lock of a
file in the directory and leaves its own mark, a line of text, in that file.  A
lock is not waited for: while one holder has it, the others are refused, and
they leave the mark as it is.

`LockDirectory` is a directory of such files with the names of the holders.  No
directories are in it, so a path leads to a file by a single name, which only dots
and double dots may precede (`LockDirectory.resolve`).
-/

namespace Leaderboard

/-! ## One lock file -/

/-- A lock file. -/
structure LockFile where
  /-- The file. -/
  disk : Disk := {}
  /-- Whether someone has the lock. -/
  held : Bool := false
deriving DecidableEq, Repr

namespace LockFile

/-- Takes the lock and leaves a mark.  A fault while the mark is written gives
the lock back. -/
def acquire (mark : String) : ExceptT Failure (StateM LockFile) Unit := fun lock =>
  match (File.create : FileM Disk Unit) lock.disk with
  | (.error cause, disk) => (.error (.io cause), { lock with disk })
  | (.ok (), disk) =>
      if lock.held then (.error (.locked .unavailable), { lock with disk })
      else
        let leave : FileM Disk Unit := do
          File.resize 0
          File.append (Bytes.ofString mark)
          File.append [0x0a]
        match leave disk with
        | (.error cause, disk) => (.error (.io cause), { disk, held := false })
        | (.ok (), disk) => (.ok (), { disk, held := true })

/-- Gives the lock back.  The mark stays. -/
def release (lock : LockFile) : LockFile := { lock with held := false }

end LockFile

/-! ## A directory of lock files -/

/-- A directory of lock files. -/
structure LockDirectory where
  /-- The files by name. -/
  files : List (String × LockFile) := []
  /-- The holders, each with the name of the file whose lock it has. -/
  holders : List (String × String) := []
deriving DecidableEq, Repr

namespace LockDirectory

/-- What is found under a name. -/
def lookup (d : LockDirectory) (name : String) : LockFile := (d.files.lookup name).getD {}

/-- Puts a file under a name. -/
def store (d : LockDirectory) (name : String) (lock : LockFile) : LockDirectory :=
  { d with files := (name, lock) :: d.files.filter (·.1 ≠ name) }

/-! ### Paths -/

/-- The most bytes that a name may have. -/
def maxName : Nat := 255

/-- The most bytes that a path may have, not counting that of the directory. -/
def maxPath : Nat := 4079

/-- The name of the file that a path leads to, which need not be there.  It begins
with two dots for each directory that the path climbs. -/
def resolve (d : LockDirectory) (path : String) : Except IoFault String :=
  let parts := path.splitOn "/"
  let given := parts.filter (· ≠ "")
  let names := given.filter (· ≠ ".")
  let above := names.takeWhile (· = "..")
  if '\x00' ∈ path.toList then .error .nulInPath
  else if path.utf8ByteSize > maxPath then .error .nameTooLong
  else
    match names.drop above.length with
    | [] => .error .isDirectory
    | name :: rest =>
        let file := "/".intercalate (above ++ [name])
        if given.getLast? = some name ∧ rest = [] ∧ parts.getLast? = some "" then
          .error .isDirectory
        else if name.utf8ByteSize > maxName then .error .nameTooLong
        else if given.getLast? = some name ∧ rest = [] then .ok file
        else if (d.lookup file).disk.file?.isSome then .error .notDirectory
        else .error .notFound

example : resolve {} "./l" = .ok "l" := by cbv
example : resolve {} "" = .error .isDirectory := by cbv
example : resolve {} "l/" = .error .isDirectory := by cbv
example : resolve {} "l/x" = .error .notFound := by cbv
example : resolve { files := [("l", { disk := { entry := .file [] } })] } "l/x" =
    .error .notDirectory := by cbv

/-! ### Holders -/

/-- Gives back what a holder has, and tells whether it had something. -/
def release (d : LockDirectory) (holder : String) : Bool × LockDirectory :=
  match d.holders.lookup holder with
  | none => (false, d)
  | some name =>
      let d := d.store name (d.lookup name).release
      (true, { d with holders := d.holders.filter (·.1 ≠ holder) })

/-- Takes the lock of a file for a holder, which gives back what it had before. -/
def acquire (d : LockDirectory) (path holder mark : String) :
    Except Failure Unit × LockDirectory :=
  match d.resolve path with
  | .error cause => (.error (.io cause), d)
  | .ok name =>
      let (result, lock) := LockFile.acquire mark (d.lookup name)
      let d := d.store name lock
      match result with
      | .error failure => (.error failure, d)
      | .ok () =>
          let d := (d.release holder).2
          (.ok (), { d with holders := (holder, name) :: d.holders })

/-! ### Contents -/

/-- Replaces the content of a file, if the path leads to one. -/
def write (d : LockDirectory) (path : String) (content : Bytes) : LockDirectory :=
  match d.resolve path with
  | .error _ => d
  | .ok name =>
      let lock := d.lookup name
      d.store name { lock with disk := lock.disk.fill content }

/-- The content of a file, if there is one. -/
def content? (d : LockDirectory) (path : String) : Option Bytes :=
  match d.resolve path with
  | .error _ => none
  | .ok name => (d.lookup name).disk.file?

end LockDirectory

end Leaderboard
