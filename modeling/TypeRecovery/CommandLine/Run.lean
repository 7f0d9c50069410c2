import TypeRecovery.CommandLine.Command
import TypeRecovery.Run.Report
import TypeRecovery.Text.LetterCase

/- The commands: `infer` reports on method files, `classpath import` and `classpath show` work on
   class lists, and `version` names the program. -/
namespace TypeRecovery.CommandLine

/-- What surrounds a command. -/
structure Surroundings where
  /-- The directory from which a configuration is looked for upwards. -/
  directory : String := "."
  /-- The name of the run in its report. -/
  runName : String
  /-- The output can show colours. -/
  coloured : Bool := false
  /-- The commands to propose for a word that names none. -/
  propose : String → List String := fun _ => []

/-- What a command has to say. -/
structure Reply where
  output : String := ""
  error : Option String := none
  /-- The records for the log. -/
  log : List Inference.LogRecord := []

/-- Commands work on files and may stop with an error text, or find no end. -/
abbrev CommandM (m : Type → Type) := ExceptT String (OptionT m)

variable {m : Type → Type} [Monad m]

/-! ## Configuration -/

/-- A directory and those above it, from the inside out. -/
def directoriesFrom (start : String) : List String :=
  let start := Path.clean start
  let names := (Path.parts start).filter fun p => p != "" && p != "."
  let root := if Path.isAbsolute start then "/" else "."
  (List.range (names.length + 1)).map fun n =>
    (names.take (names.length - n)).foldl Path.join root

/-- The nearest configuration file at or above a directory. -/
def findConfig (files : FileAccess m) (start : String) : m (Option String) :=
  ((directoriesFrom start).flatMap fun dir => Config.fileNames.map (Path.join dir)).findM?
    files.present

def loadConfig (files : FileAccess m) (path : String) : CommandM m Config := do
  match ← files.read path with
  | .error e => throw (e.readingMessage "config" path)
  | .ok d =>
    match Config.ofDocument path d with
    | .ok c => return c
    | .error e => throw (e.message path)

/-- Where classes come from: a document or a store, as someone named it or as a path that starts at
    the surrounding directory. -/
inductive ClassSource where
  | named (name : String)
  | path (path : String)
deriving DecidableEq, Repr

namespace ClassSource

def text : ClassSource → String
  | named s | path s => s

/-- The source as the name of a store. A path is nothing else, whatever it looks like. -/
def storeName : ClassSource → String
  | named s => s
  | path s => if Path.isAbsolute s then s else "./" ++ s

end ClassSource

/-- The configuration of a path, else the nearest one, else the default; and its class source. -/
def configFor (files : FileAccess m) (s : Surroundings) (path : String) :
    CommandM m (Config × ClassSource) := do
  if path ≠ "" then
    let config ← loadConfig files path
    return (config, .named config.classpath)
  match ← (findConfig files s.directory : m (Option String)) with
  | some found =>
    let config ← loadConfig files found
    return (config, .path config.classpath)
  | none => return ({}, .named "")

/-! ## Classes -/

/-- The extension of the last part of a path, in lower case, with its dot. -/
def extension (path : String) : String :=
  let name := ((Path.parts path).getLast?.getD "").toList
  let back := name.reverse.takeWhile (· != '.')
  if back.length = name.length then ""
  else String.ofList (Text.lower ('.' :: back.reverse))

def isStorePath (path : String) : Bool := [".db", ".sqlite"].contains (extension path)

def openStore (files : FileAccess m) (source : ClassSource) : CommandM m ClassStore := do
  match ← files.openStore source.storeName with
  | .ok s => return s
  | .error e => throw s!"initializing classpath store {source.text}: {e.message source.text}"

def readClasses (files : FileAccess m) (path : String) : CommandM m Hierarchy := do
  match ← files.read path with
  | .error e => throw (e.readingMessage "classpath" path)
  | .ok d =>
    match Hierarchy.ofDocument path d with
    | .ok h => return h
    | .error e => throw (e.message path)

/-- The classes of a document or a store; an empty path names none. -/
def openClasses (files : FileAccess m) (source : ClassSource) :
    CommandM m (Option Hierarchy) := do
  if source.text = "" then return none
  if isStorePath source.text then return some (← openStore files source).load
  return some (← readClasses files source.text)

/-- A class with its supertypes, in one line. -/
def classLine (h : Hierarchy) (c : ClassDecl) : String :=
  let kind := if c.isInterface then "interface" else "class"
  let above := h.ancestors c.name
  let list := if above.isEmpty then "" else " : [" ++ String.intercalate " " above ++ "]"
  s!"{kind} {c.name}{list}\n"

/-! ## Commands -/

def runInfer (files : FileAccess m) (s : Surroundings) (o : Options) (paths : List String) :
    CommandM m Reply := do
  let (config, configured) ← configFor files s o.config
  let base ← openClasses files (if o.classpath ≠ "" then .named o.classpath else configured)
  let setup : Run.Setup := { config, base, traced := o.verbose }
  let report ← Run.overFiles files setup paths
  let layout : Run.Layout :=
    { verbose := config.debug || o.verbose, coloured := s.coloured && !o.noColor }
  let totals := report.summary
  return {
    output := report.text s.runName layout
    error :=
      if report.failed then
        some <| s!"inference failed: {totals.fileErrors} file errors, " ++
          s!"{totals.unresolved} unresolved, {totals.aborted} aborted, " ++
          s!"{totals.mismatched} mismatched"
      else none
    log := report.methods.flatMap fun r => r.outcome.log }

/-- Adds classes to a store. -/
def runImport (files : FileAccess m) (source store : String) : CommandM m Reply := do
  let h ← readClasses files source
  let before ← openStore files (.named store)
  let saved := before.save h
  files.saveStore store saved
  return { output := s!"imported {saved.count} classes into {store}\n" }

def runShow (files : FileAccess m) (path : String) : CommandM m Reply := do
  match ← openClasses files (.named path) with
  | none => return {}
  | some h => return { output := String.join (h.table.map (classLine h)) }

/-- What the program is called and which release it is. -/
def versionText : String := "dextype dev\n"

def helpText : String :=
  "dextype infer <methods.yaml...>\n" ++
  "dextype classpath import <classes.yaml> <store.db>\n" ++
  "dextype classpath show <classes.yaml|store.db>\n" ++
  "dextype version\n"

/-- Runs the command that the arguments name. There is no reply if it finds no end. -/
def run (files : FileAccess m) (s : Surroundings) (args : List String) : OptionT m Reply := do
  match parse s.propose args with
  | .error e => return { error := some e.message }
  | .ok (o, command) =>
    let work : CommandM m Reply :=
      match command with
      | .infer paths => runInfer files s o paths
      | .importClasses source store => runImport files source store
      | .showClasses path => runShow files path
      | .version => return { output := versionText }
      | .help => return { output := helpText }
    match ← work.run with
    | .ok reply => return reply
    | .error e => return { error := some e }

end TypeRecovery.CommandLine
