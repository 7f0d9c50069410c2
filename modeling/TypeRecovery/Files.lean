import TypeRecovery.Document
import TypeRecovery.Hierarchy.Store
import TypeRecovery.Path

/- Files as a run sees them: documents to be read and class stores. The operations are a parameter, so
   a run works the same on a real directory and on a tree that is a plain value. -/
namespace TypeRecovery

/-- Why a file cannot be used. -/
inductive FileError where
  | absent
  | directory
  /-- A file stands where the path needs a directory. -/
  | underFile
  | noDocument
  | noStore
  | noPlace
  | refused (reason : String)
deriving DecidableEq, Repr

namespace FileError

def message (path : String) : FileError → String
  | absent => s!"open {path}: no such file or directory"
  | directory => s!"read {path}: is a directory"
  | underFile => s!"open {path}: not a directory"
  | noDocument => s!"parsing {path}: no document"
  | noStore => "file is not a database (26)"
  | noPlace => "unable to open database file: out of memory (14)"
  | refused reason => reason

/-- The message about a file that was to be read as something. A text that is no document was read. -/
def readingMessage (what path : String) : FileError → String
  | noDocument => noDocument.message path
  | e => s!"reading {what} {path}: {e.message path}"

end FileError

/-- The operations on files. A store that is not there is made when it is opened, empty. -/
structure FileAccess (m : Type → Type) where
  read : String → m (Except FileError Document)
  present : String → m Bool
  openStore : String → m (Except FileError ClassStore)
  saveStore : String → ClassStore → m Unit

/-- What the name of a class store stands for. A store without a file is empty when opened and gone when
    closed; one with a refusal is refused as soon as its file is there. -/
structure StorePlace where
  file : Option String
  refusal : Option String := none

inductive FileEntry where
  /-- Made, and nothing written to it. -/
  | blank
  | document (d : Document)
  | store (s : ClassStore)
deriving Repr, Inhabited

def StorePlace.storeIn (p : StorePlace) (e : FileEntry) : Except FileError ClassStore :=
  match p.refusal, e with
  | some reason, _ => .error (.refused reason)
  | none, .blank => .ok {}
  | none, .document _ => .error .noStore
  | none, .store s => .ok s

/-- Files by their clean paths, and directories that hold none. -/
structure FileTree where
  files : List (String × FileEntry) := []
  emptyDirs : List String := []
deriving Repr, Inhabited

namespace FileTree

def write (t : FileTree) (path : String) (e : FileEntry) : FileTree :=
  let path := Path.clean path
  { t with files := (path, e) :: t.files.filter (·.1 != path) }

def makeDir (t : FileTree) (path : String) : FileTree :=
  { t with emptyDirs := Path.clean path :: t.emptyDirs }

def isBelow (dir path : String) : Bool := (dir ++ "/").toList.isPrefixOf path.toList

/-- The directory of the tree, those above it, and the root. -/
def isAbove (path : String) : Bool :=
  path == "." || path == "/" || (Path.parts path).all (· == "..")

def isDirectory (t : FileTree) (path : String) : Bool :=
  isAbove path || t.emptyDirs.contains path ||
    (t.emptyDirs ++ t.files.map Prod.fst).any (isBelow path)

/-- Follows the parts of a path from a directory. A step up leads out of a directory that is there;
    a slash at the end asks for a directory. -/
def follow (t : FileTree) (dir : String) : List String → Except FileError FileEntry
  | [] => .error .directory
  | part :: rest =>
    let place := Path.join dir part
    match List.lookup place t.files with
    | some e => if rest.isEmpty then .ok e else .error .underFile
    | none => if t.isDirectory place then t.follow place rest else .error .absent

def lookup (t : FileTree) (path : String) : Except FileError FileEntry :=
  if path = "" then .error .absent
  else t.follow (if Path.isAbsolute path then "/" else ".") (Path.parts path)

def read (t : FileTree) (path : String) : Except FileError Document :=
  match t.lookup path with
  | .ok .blank => .ok .null
  | .ok (.document d) => .ok d
  | .ok (.store _) => .error .noDocument
  | .error e => .error e

def present (t : FileTree) (path : String) : Bool :=
  match t.lookup path with
  | .ok _ | .error .directory => true
  | .error _ => false

/-- The clean path of a store. A step up needs nothing to step out of, but no part may lie under a
    file. -/
def storePath? (t : FileTree) (path : String) : Option String :=
  (Path.parts path).foldlM (fun dir part =>
    let place := Path.join dir part
    if t.files.any fun f => isBelow f.1 place then none else some place)
    (if Path.isAbsolute path then "/" else ".")

/-- The clean path of a store with what is there. A new file needs a directory to stand in. -/
def reach (t : FileTree) (path : String) : Except FileError (String × FileEntry) :=
  match t.storePath? path with
  | none => .error .noPlace
  | some place =>
    match List.lookup place t.files with
    | some e => .ok (place, e)
    | none =>
      if !t.isDirectory place && t.isDirectory (Path.dir place) then .ok (place, .blank)
      else .error .noPlace

def openStore (t : FileTree) (p : StorePlace) : Except FileError ClassStore × FileTree :=
  match p.file with
  | none => (p.storeIn .blank, t)
  | some path =>
    match t.reach path with
    | .error e => (.error e, t)
    | .ok (place, entry) =>
      match p.storeIn entry with
      | .error e => (.error e, t.write place entry)
      | .ok s => (.ok s, t.write place (.store s))

def saveStore (t : FileTree) (p : StorePlace) (s : ClassStore) : FileTree :=
  match p.file with
  | none => t
  | some path => t.write path (.store s)

/-- The operations on a tree that is carried along, under a rule for the names of stores. -/
def access (place : String → StorePlace) : FileAccess (StateM FileTree) where
  read path := return (← get).read path
  present path := return (← get).present path
  openStore name := modifyGet fun t => t.openStore (place name)
  saveStore name s := modify fun t => t.saveStore (place name) s

end FileTree

end TypeRecovery
