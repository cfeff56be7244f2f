/-!
# File stores

A tree of files held in memory, in which a command can be run without a disk. A path is a
list of names from the root; the text of a path is relative to the working directory unless
it starts with a slash.

A file can be written where its directory exists. The reasons why it cannot be are those of
the operating system, with its wording and numbers.
-/

namespace RegIR

namespace Cli

/-- Why a file cannot be written. -/
inductive FileError where
  | notFound
  | notDirectory
  | isDirectory
deriving DecidableEq, Repr

def FileError.message : FileError → String
  | notFound => "No such file or directory (os error 2)"
  | notDirectory => "Not a directory (os error 20)"
  | isDirectory => "Is a directory (os error 21)"

/-- Files in memory. The root is a directory whether it is listed or not. -/
structure FileStore where
  directories : List (List String)
  /-- Paths and contents, the last written first. -/
  files : List (List String × String)
  /-- The working directory. -/
  here : List String
deriving DecidableEq, Repr

namespace FileStore

def isDirectory (store : FileStore) (path : List String) : Bool :=
  path.isEmpty || store.directories.contains path

def isFile (store : FileStore) (path : List String) : Bool :=
  store.files.any (·.1 == path)

/-- The path of a file, from a directory and the names that are still to be followed. A name
with nothing but slashes behind it can only be a directory. -/
def locate (store : FileStore) (dir : List String) : List String → Except FileError (List String)
  | [] => .error .isDirectory
  | "" :: names => store.locate dir names
  | "." :: names => store.locate dir names
  | ".." :: names => store.locate dir.dropLast names
  | name :: names =>
      let path := dir ++ [name]
      if store.isDirectory path then store.locate path names
      else if names.isEmpty then .ok path
      else if names.all (·.isEmpty) then .error .isDirectory
      else if store.isFile path then .error .notDirectory
      else .error .notFound

/-- The path that a text names. -/
def resolve (store : FileStore) (path : String) : Except FileError (List String) :=
  store.locate (if path.startsWith "/" then [] else store.here) (path.splitOn "/")

/-- Write a file, replacing what it held. -/
def write (store : FileStore) (path content : String) : Except FileError FileStore := do
  let path ← store.resolve path
  return { store with files := (path, content) :: store.files }

/-- The content of a file, if it exists. -/
def read? (store : FileStore) (path : String) : Option String :=
  match store.resolve path with
  | .ok path => store.files.lookup path
  | .error _ => none

end FileStore

end Cli

end RegIR
