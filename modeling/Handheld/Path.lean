import Handheld.Name
import Handheld.Text.Lines
import Handheld.Text.Uppercase

/-!
# Paths of files

A path is a list of names between slashes. Cleaning removes empty names and the names `.` and `..`
without looking at any files.
-/

namespace Handheld.Path

/-- The names between the slashes of a path. -/
def names (path : String) : List String :=
  (Text.cutAt (· == '/') path.toList).map String.ofList

/-- The path starts at the root. -/
def isAbsolute (path : String) : Bool := path.toList.head? == some '/'

/-- Takes one more name into account; `kept` holds the names so far, the last one first. -/
def step (rooted : Bool) (kept : List String) (name : String) : List String :=
  if name == "" || name == "." then kept
  else if name == ".." then
    match kept with
    | [] => if rooted then [] else [".."]
    | k :: ks => if k == ".." then ".." :: k :: ks else ks
  else name :: kept

/-- The shortest path that means the same. -/
def clean (path : String) : String :=
  let rooted := isAbsolute path
  match ((names path).foldl (step rooted) []).reverse with
  | [] => if rooted then "/" else "."
  | ks => (if rooted then "/" else "") ++ "/".intercalate ks

/-- The path of something inside a folder. -/
def join (folder path : String) : String :=
  clean ("/".intercalate ([folder, path].filter (· != "")))

/-- The folder that a path lies in. -/
def folder (path : String) : String :=
  clean (String.ofList (path.toList.reverse.dropWhile (· != '/')).reverse)

/-- The last name of a path. -/
def base (path : String) : String :=
  if path == "" then "."
  else
    match path.toList.reverse.dropWhile (· == '/') with
    | [] => "/"
    | cs => String.ofList (cs.takeWhile (· != '/')).reverse

/-- The absolute form of a path that is relative to a folder. -/
def absolute (folder path : String) : String :=
  if isAbsolute path then clean path else join folder path

/-- Replaces `~` in front of a slash by the home folder. -/
def expandHome (home path : String) : String :=
  match path.toList with
  | '~' :: '/' :: cs => join home (String.ofList cs)
  | _ => path

/-- The name up to its first dot; a name that starts with a dot is kept whole. -/
def stem (name : String) : String :=
  match name.toList with
  | '.' :: _ => name
  | cs => String.ofList (cs.takeWhile (· != '.'))

/-- The name of the program in a file: the stem in capital letters, as far as it fits. -/
def programName (path : String) : String :=
  String.ofList (((stem (base path)).toList.map Text.upper).take Name.maxProgramName)

end Handheld.Path
