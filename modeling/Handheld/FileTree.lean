import Handheld.Path
import Std.Data.TreeMap

/-!
# Files

Where files come from is left to a source: the disk, or a tree of files that is known beforehand.
-/

namespace Handheld

/-- Why a file cannot be read. -/
inductive FileFault
  /-- There is nothing at the path. -/
  | missing (path : String)
  /-- The path leads through a file. -/
  | notFolder (path : String)
  /-- The path is that of a folder. -/
  | folder (path : String)
  /-- Another failure. -/
  | other (path cause : String)
deriving DecidableEq, Repr

namespace FileFault

/-- The wording of the fault. -/
def message : FileFault → String
  | missing path => s!"open {path}: no such file or directory"
  | notFolder path => s!"open {path}: not a directory"
  | folder path => s!"read {path}: is a directory"
  | other path cause => s!"open {path}: {cause}"

end FileFault

/-- A source of files. -/
structure Files (m : Type → Type) where
  /-- The folder that relative paths start from. -/
  current : String
  /-- The folder of the user. -/
  home : String
  /-- The text of a file. -/
  read : String → m (Except FileFault String)

/-- The files of a folder, by absolute path. -/
structure FileTree where
  /-- The folder. -/
  root : String
  /-- The texts of the files. -/
  texts : Std.TreeMap String String

namespace FileTree

/-- A folder with files that are given by their paths in it. -/
def ofList (root : String) (files : List (String × String)) : FileTree :=
  ⟨root, .ofList (files.map fun (path, text) => (Path.join root path, text))⟩

/-- The absolute path of some names, the last one first. -/
def pathOf (names : List String) : String := "/" ++ "/".intercalate names.reverse

/-- The absolute path is that of a folder: the root, or one that something lies in. -/
def isFolder (t : FileTree) (path : String) : Bool :=
  let start := if path == "/" then "/" else path ++ "/"
  let inside (p : String) : Bool := p == path || p.startsWith start
  inside t.root || t.texts.keys.any fun p => p != path && inside p

/-- Follows some names from a folder, whose own names are given with the last one first. -/
def follow (t : FileTree) (path : String) (trail : List String) :
    List String → Except FileFault String
  | [] => .error (.folder path)
  | name :: more =>
    if name == "" || name == "." then follow t path trail more
    else if name == ".." then follow t path trail.tail more
    else
      let here := pathOf (name :: trail)
      match t.texts[here]? with
      | some text => if more.isEmpty then .ok text else .error (.notFolder path)
      | none =>
        if t.isFolder here then follow t path (name :: trail) more else .error (.missing path)

/-- The text of the file at a path. -/
def read (t : FileTree) (current path : String) : Except FileFault String :=
  if path == "" then .error (.missing path)
  else
    let start := if Path.isAbsolute path then [] else (Path.names current).filter (· != "")
    t.follow path start.reverse (Path.names path)

/-- The tree as a source of files. -/
def files (t : FileTree) (current home : String) : Files Id := ⟨current, home, t.read current⟩

end FileTree

end Handheld
