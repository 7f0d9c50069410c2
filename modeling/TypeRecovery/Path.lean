import TypeRecovery.Text.Split

/- Paths as text: parts between slashes, with `.` and `..` taken out where that needs no look at the
   file system. -/
namespace TypeRecovery.Path

def isAbsolute (path : String) : Bool := path.toList.head? == some '/'

def parts (path : String) : List String := (Text.splitAt '/' path.toList).map String.ofList

/-- Adds a part below others, given from the last to the first. A step up takes the last part away;
    it stays where there is none, unless the path starts at the root. -/
def descend (rooted : Bool) (above : List String) (part : String) : List String :=
  if part = "" || part = "." then above
  else if part = ".." then
    match above with
    | [] => if rooted then [] else [".."]
    | p :: ps => if p = ".." then ".." :: p :: ps else ps
  else part :: above

/-- The shortest path that leads to the same place. -/
def clean (path : String) : String :=
  let rooted := isAbsolute path
  let names := ((parts path).foldl (descend rooted) []).reverse
  let body := String.intercalate "/" names
  if rooted then "/" ++ body else if body = "" then "." else body

/-- A path taken from a directory. -/
def join (dir path : String) : String :=
  match dir, path with
  | "", "" => ""
  | "", p => clean p
  | d, "" => clean d
  | d, p => clean (d ++ "/" ++ p)

/-- The directory that holds the last part. -/
def dir (path : String) : String :=
  match (parts path).dropLast with
  | [] => "."
  | above => clean (String.intercalate "/" above ++ "/")

end TypeRecovery.Path
