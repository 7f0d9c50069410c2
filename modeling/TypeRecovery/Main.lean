import TypeRecovery.CommandLine.Run
import TypeRecovery.Document.Printer
import TypeRecovery.Document.Reader

/- The program: the commands on real files. Documents are text; a class store is kept as the document
   of its classes. -/
namespace TypeRecovery.Main

/-- Why a file could not be read. -/
def errorOf : IO.Error → FileError
  | .noFileOrDirectory .. => .absent
  | _ => .directory

/-- The text of a file. -/
def readText (path : String) : IO (Except FileError String) := do
  try return .ok (← IO.FS.readFile path)
  catch e => return .error (errorOf e)

def readDocument (path : String) : IO (Except FileError Document) := do
  match ← readText path with
  | .error e => return .error e
  | .ok text =>
    match Document.ofText? text with
    | some d => return .ok d
    | none => return .error .noDocument

def isPresent (path : String) : IO Bool := do
  match ← readText path with
  | .error .absent => return false
  | _ => return true

def classDocument (c : ClassDecl) : Document := .mapping [("name", .text c.name),
  ("super", .text c.super), ("interfaces", .list (c.interfaces.map .text)),
  ("interface", .bool c.isInterface), ("type_params", .list (c.typeParams.map .text))]

def saveStore (path : String) (s : ClassStore) : IO Unit := do
  let classes := if s.count = 0 then [] else s.load.table.map classDocument
  IO.FS.writeFile path (Document.mapping [("classes", .list classes)]).toText

/-- Opens the store of a file. One that is not there, or that nothing is written to, is made. -/
def openStore (path : String) : IO (Except FileError ClassStore) := do
  match ← readText path with
  | .error .absent | .ok "" =>
    try
      saveStore path {}
      return .ok {}
    catch _ => return .error .noPlace
  | .error _ => return .error .noPlace
  | .ok text =>
    match (Document.ofText? text).bind ClassDecl.listOfDocument? with
    | some classes => return .ok (classes.foldl ClassStore.put {})
    | none => return .error .noStore

def files : FileAccess IO where
  read := readDocument
  present := isPresent
  openStore := openStore
  saveStore := saveStore

/-- A fresh name for a run. -/
def newRunName : IO String := do
  let digits (n : Nat) : IO String := do
    let ds ← (List.range n).mapM fun _ => return Document.hexDigit (← IO.rand 0 15)
    return String.ofList ds
  let groups ← [8, 4, 4, 4, 12].mapM digits
  return String.intercalate "-" groups

end TypeRecovery.Main

open TypeRecovery in
def main (args : List String) : IO UInt32 := do
  let out ← IO.getStdout
  let surroundings : CommandLine.Surroundings := {
    directory := (← IO.currentDir).toString
    runName := ← Main.newRunName
    coloured := (← out.isTty) && (← IO.getEnv "NO_COLOR").getD "" == "" }
  let some reply ← (CommandLine.run Main.files surroundings args).run
    | do
      IO.eprintln "fatal error: stack overflow"
      return 2
  out.putStr reply.output
  for record in reply.log do IO.eprintln record.text
  match reply.error with
  | none => return 0
  | some e =>
    IO.eprintln s!"Error: {e}"
    return 1
