import SweepRegex.Bytes

/-!
# Files

A file system is seen from outside: a path leads to a directory or to a file, or the system refuses
to open it and says why.  `ofFiles` builds a file system from the files in it; their parent
directories are there as well, and nothing else is.
-/

namespace SweepRegex

/-- Why the system does not do what it is asked for, in its own words. -/
structure Refusal where
  words : Bytes
deriving DecidableEq

namespace Refusal

/-- There is nothing at a path. -/
def notFound : Refusal := ⟨ascii "No such file or directory"⟩

/-- What is to be read is a directory. -/
def isDirectory : Refusal := ⟨ascii "Is a directory"⟩

end Refusal

/-- What a path leads to. -/
inductive Node where
  | refused (why : Refusal)
  | directory
  | file (content : Bytes)
deriving DecidableEq

/-- A file system, as what each path in it leads to. -/
structure FileSystem where
  lookup : Bytes → Node

namespace FileSystem

/-- No files. -/
def empty : FileSystem := ⟨fun _ => .refused .notFound⟩

/-- What a path leads to; a path ends before its first zero byte. -/
def node (fs : FileSystem) (path : Bytes) : Node := fs.lookup (Bytes.untilNul path)

/-- Is the path that of a directory around the named file? -/
def isParent (path name : Bytes) : Bool := path ≠ [] && (path ++ ascii "/").isPrefixOf name

/-- The file system with these files, given by name and content, and no others. -/
def ofFiles (files : List (Bytes × Bytes)) : FileSystem where
  lookup path :=
    match files.lookup path with
    | some content => .file content
    | none =>
      if files.any fun (name, _) => isParent path name then .directory else .refused .notFound

end FileSystem

end SweepRegex
