import LambdaMachine.Source.Feed

/-!
Opening a path in a tree of directories. Every part of a path but the last has to lead to a
directory. A directory can be opened like a file, and then fails to be read.
-/

namespace LambdaMachine

inductive PathError where
  | noSuchFile
  /-- The path goes on after something that is not a directory. -/
  | notADirectory
  | nameTooLong
  deriving DecidableEq

def PathError.message : PathError → String
  | .noSuchFile => "No such file or directory (os error 2)"
  | .notADirectory => "Not a directory (os error 20)"
  | .nameTooLong => "File name too long (os error 36)"

inductive OpenedFile where
  | feed (feed : Feed)
  | standardInput

def OpenedFile.ofDirectory : OpenedFile :=
  .feed [.failure "Is a directory (os error 21)"]

inductive Entry where
  | file (bytes : List UInt8)
  | standardInput
  | directory (entries : List (String × Entry))

structure Directory where
  entries : List (String × Entry)
  above : List (List (String × Entry))

namespace Directory

def parent : Directory → Directory
  | ⟨entries, []⟩ => ⟨entries, []⟩
  | ⟨_, entries :: above⟩ => ⟨entries, above⟩

def root (directory : Directory) : Directory :=
  ⟨directory.above.getLast?.getD directory.entries, []⟩

def child (directory : Directory) (entries : List (String × Entry)) : Directory :=
  ⟨entries, directory.entries :: directory.above⟩

def longestName : Nat := 255

def longestPath : Nat := 4095

/-- Follows the parts of a path. A part that is empty or a dot stays where it is, and two dots lead
up. A file has to come last, and even an empty part after it is one too many. -/
def follow (directory : Directory) : List String → Except PathError OpenedFile
  | [] => .ok .ofDirectory
  | part :: rest =>
      if part = "" || part = "." then directory.follow rest
      else if part = ".." then directory.parent.follow rest
      else if longestName < part.utf8ByteSize then .error .nameTooLong
      else match directory.entries.lookup part with
        | none => .error .noSuchFile
        | some (.directory entries) => (directory.child entries).follow rest
        | some (.file bytes) =>
            if rest.isEmpty then .ok (.feed (Feed.ofBytes bytes)) else .error .notADirectory
        | some .standardInput =>
            if rest.isEmpty then .ok .standardInput else .error .notADirectory

def openFile (directory : Directory) (path : String) : Except PathError OpenedFile :=
  if path.isEmpty then .error .noSuchFile
  else if longestPath < path.utf8ByteSize then .error .nameTooLong
  else
    let start := if path.toList.head? = some '/' then directory.root else directory
    start.follow (path.splitOn "/")

def devices : List (String × Entry) :=
  [("null", .file []), ("stdin", .standardInput), ("fd", .directory [("0", .standardInput)])]

def systemRoot : List (String × Entry) :=
  ("dev", .directory devices) ::
    ["bin", "boot", "etc", "home", "lib", "media", "mnt", "opt", "proc", "root", "run", "sbin",
      "srv", "sys", "tmp", "usr", "var"].map fun name => (name, .directory [])

def holding (files : List (String × List UInt8)) : Directory :=
  ⟨files.map fun (name, bytes) => (name, .file bytes), [[], systemRoot]⟩

end Directory

end LambdaMachine
