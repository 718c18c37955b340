/-!
Files and directories, with the rules by which a path finds one.

A path is resolved name by name from the working directory, or from the root if it starts with a
slash. Every name but the last has to lead to a directory; an empty name and a dot stay where they
are, and two dots go up. A file is read whole, and writing replaces a file or makes a new one in a
directory that exists.
-/

namespace PauliLowering

inductive FileFault where
  | missing
  | notDirectory
  | isDirectory
  | notText
  deriving DecidableEq, Repr

def FileFault.message : FileFault → String
  | missing => "No such file or directory (os error 2)"
  | notDirectory => "Not a directory (os error 20)"
  | isDirectory => "Is a directory (os error 21)"
  | notText => "stream did not contain valid UTF-8"

def decodeText (bytes : ByteArray) : Except FileFault String :=
  match String.fromUTF8? bytes with
  | some text => .ok text
  | none => .error .notText

abbrev FileReader := String → Except FileFault ByteArray

inductive Entry where
  | file (content : ByteArray)
  | directory

/-- The names that lead from the root to a file or directory. -/
abbrev Path := List String

/-- A file system with a working directory. -/
structure FileTree where
  workingDirectory : Path
  entries : Path → Option Entry

namespace FileTree

/-- What stands at a place; the root is always a directory. -/
def entry? (t : FileTree) (p : Path) : Option Entry :=
  if p.isEmpty then some .directory else t.entries p

def insert (t : FileTree) (p : Path) (e : Entry) : FileTree :=
  { t with entries := fun q => if q = p then some e else t.entries q }

/-- Go on only from a directory. -/
def enter (t : FileTree) (p : Path) : Except FileFault Unit :=
  match t.entry? p with
  | some .directory => .ok ()
  | some (.file _) => .error .notDirectory
  | none => .error .missing

/-- Follow one name. The place that it leads to need not exist. -/
def follow (t : FileTree) (p : Path) (name : String) : Except FileFault Path := do
  t.enter p
  return match name with
    | "" | "." => p
    | ".." => p.dropLast
    | _ => p ++ [name]

/-- The place where the names of a path start. -/
def start (t : FileTree) (names : List String) : Path :=
  if names.head? = some "" then [] else t.workingDirectory

def read (t : FileTree) (path : String) : Except FileFault ByteArray := do
  if path.isEmpty then throw .missing
  let names := path.splitOn "/"
  let p ← names.foldlM t.follow (t.start names)
  match t.entry? p with
  | some (.file content) => return content
  | some .directory => throw .isDirectory
  | none => throw .missing

/-- The tree after writing a file. The last name must name the file itself: a path that ends in a
slash or in dots means a directory. -/
def write (t : FileTree) (path : String) (content : ByteArray) : Except FileFault FileTree := do
  if path.isEmpty then throw .missing
  let all := path.splitOn "/"
  let names := (all.reverse.dropWhile String.isEmpty).reverse
  let parent ← names.dropLast.foldlM t.follow (t.start all)
  t.enter parent
  let name := names.getLast?.getD "."
  if names.length < all.length || name == "." || name == ".." then throw .isDirectory
  match t.entry? (parent ++ [name]) with
  | some .directory => throw .isDirectory
  | _ => return t.insert (parent ++ [name]) (.file content)

end FileTree

end PauliLowering
