import StackText.Files.Basic

/-! A working directory given as a list of its files and directories. -/

namespace StackText

/-- A file with its bytes, or a directory without. -/
structure FileTree.Entry where
  path : List String
  bytes : Option (List UInt8)

/-- The contents of a working directory. The directories above an entry exist with it. -/
structure FileTree where
  entries : List FileTree.Entry := []

namespace FileTree

/-- Adds a file. -/
def addFile (tree : FileTree) (path : Path) (bytes : List UInt8) : FileTree :=
  ⟨tree.entries ++ [⟨path.parts, some bytes⟩]⟩

/-- Adds an empty directory. -/
def addDirectory (tree : FileTree) (path : Path) : FileTree :=
  ⟨tree.entries ++ [⟨path.parts, none⟩]⟩

/-- What stands at a place below the working directory; the last file written there counts. -/
def at? (tree : FileTree) (place : List String) : FileEntry :=
  match tree.entries.reverse.find? fun entry => entry.path = place && entry.bytes.isSome with
  | some ⟨_, some bytes⟩ => .file bytes
  | _ =>
      if place.isEmpty || tree.entries.any fun entry => place.isPrefixOf entry.path then .directory
      else .missing

/-- Follows components from a place below the working directory, or from outside of it (none).
Nothing is known of the outside but that it has directories.
-/
def follow (tree : FileTree) : Option (List String) → List String → FileEntry
  | none, [] => .directory
  | none, ".." :: rest => tree.follow none rest
  | none, _ :: _ => .missing
  | some place, [] => tree.at? place
  | some place, part :: rest =>
      match tree.at? place with
      | .directory =>
          if part = ".." then tree.follow (if place.isEmpty then none else some place.dropLast) rest
          else tree.follow (some (place ++ [part])) rest
      | .file _ => .throughFile
      | entry => entry

/-- What a path leads to. -/
def files (tree : FileTree) : Files := fun path =>
  if path.parts.any fun part => part.toList.contains '\x00' then .unusable
  else tree.follow (if path.isAbsolute then none else some []) path.parts

end FileTree

end StackText
