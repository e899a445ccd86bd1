import LoxLexis.Failure

/-! A directory with what lies below it, and how paths into it are followed. -/
namespace LoxLexis

inductive FileNode
  | file (bytes : List UInt8)
  | directory
deriving DecidableEq, Repr

/-- A directory, given by the paths from it to what it holds. A directory on the way to something
need not be listed. Of two entries with one path the first counts. -/
structure FileTree where
  entries : List (List String × FileNode) := []
deriving DecidableEq, Repr

/-- A place that a path can lead to: at some names below the directory of the tree, or outside
it. -/
inductive FilePlace
  | below (names : List String)
  | outside
deriving DecidableEq, Repr

namespace FileTree

/-- The longest name and the longest path, in bytes. -/
def maxNameBytes : Nat := 255

def maxPathBytes : Nat := 4095

def node? (t : FileTree) (names : List String) : Option FileNode :=
  match t.entries.find? (·.1 == names) with
  | some (_, node) => some node
  | none =>
    if names.isEmpty || t.entries.any (names.isPrefixOf ·.1) then some .directory else none

/-- Goes on from a place by one name. Nothing is known to be outside the tree. -/
def follow (t : FileTree) (place : FilePlace) (name : String) : Except ReadError FilePlace :=
  match place with
  | .outside =>
    if name = "" ∨ name = "." ∨ name = ".." then .ok .outside
    else if maxNameBytes < name.utf8ByteSize then .error .nameTooLong
    else .error .missing
  | .below names =>
    match t.node? names with
    | none => .error .missing
    | some (.file _) => .error .notDirectory
    | some .directory =>
      if name = "" ∨ name = "." then .ok (.below names)
      else if name = ".." then .ok (if names.isEmpty then .outside else .below names.dropLast)
      else if maxNameBytes < name.utf8ByteSize then .error .nameTooLong
      else if (t.node? (names ++ [name])).isNone then .error .missing
      else .ok (.below (names ++ [name]))

/-- Follows a path from the directory of the tree. A path that begins with a slash leads outside,
and the empty path leads nowhere. -/
def resolve (t : FileTree) (path : String) : Except ReadError FilePlace :=
  if path.isEmpty then .error .missing
  else if maxPathBytes < path.utf8ByteSize then .error .nameTooLong
  else
    let start : FilePlace := if path.toList.head? = some '/' then .outside else .below []
    (path.splitOn "/").foldlM t.follow start

def readBytes (t : FileTree) (path : String) : Except ReadError (List UInt8) :=
  match t.resolve path with
  | .error e => .error e
  | .ok .outside => .error .isDirectory
  | .ok (.below names) =>
    match t.node? names with
    | some (.file bytes) => .ok bytes
    | some .directory => .error .isDirectory
    | none => .error .missing

end FileTree
end LoxLexis
