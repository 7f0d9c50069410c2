import TypeRecovery.Files
import TypeRecovery.Run.Method

/- The report of a run: for each file its errors and the results of its methods, and totals at the
   end. A method whose inference finds no end takes the whole run with it: nothing is reported then, of
   the files before it either. -/
namespace TypeRecovery

/-- The text of a refused document. -/
def DocumentError.message (path : String) : DocumentError → String
  | .shape => s!"parsing {path}: a value has the wrong shape"
  | .invalid message => message

namespace Run

inductive Status where
  | ok | unresolved | aborted | mismatch
deriving DecidableEq, Repr

namespace Status

def name : Status → String
  | ok => "ok" | unresolved => "unresolved" | aborted => "aborted" | mismatch => "mismatch"

def style : Status → Text.Style
  | ok => .good
  | unresolved => .caution
  | aborted | mismatch => .bad

end Status

/-- An abort outweighs a mismatch, and that an open type. -/
def MethodResult.status (r : MethodResult) : Status :=
  if r.outcome.fault.isSome then .aborted
  else if !r.mismatches.isEmpty then .mismatch
  else if !r.outcome.resolved then .unresolved
  else .ok

structure FileReport where
  path : String
  errors : List String := []
  methods : List MethodResult := []

/-- What all files of a run share. -/
structure Setup where
  config : Config := {}
  /-- Classes known to every file; a file's own classes go over them. -/
  base : Option Hierarchy := none
  /-- The run was called off before it began. -/
  cancelled : Bool := false
  traced : Bool := false

namespace FileReport

def hierarchy (s : Setup) (l : Listing) : Hierarchy :=
  Hierarchy.ofClasses (((s.base.map Hierarchy.table).getD []) ++ l.classes)

/-- The results for a listing: each method is built and inferred on its own. -/
def ofListing (s : Setup) (path : String) (l : Listing) : Option FileReport :=
  let built := l.methods.map Listing.MethodDecl.build
  let errors := built.filterMap fun
    | .error e => some s!"{path}: {e.message}"
    | .ok _ => none
  let methods := built.filterMap Except.toOption
  if s.cancelled && !methods.isEmpty then
    some { path, errors := errors ++ [s!"{path}: context canceled"] }
  else
    let c : Inference.Context :=
      { hierarchy := hierarchy s l, config := s.config, traced := s.traced }
    (methods.mapM (MethodResult.of c)).map fun methods => { path, errors, methods }

/-- The results for what was read under a path. -/
def ofRead (s : Setup) (path : String) : Except FileError Document → Option FileReport
  | .error e => some { path, errors := [e.message path] }
  | .ok d =>
    match Listing.ofDocument path d with
    | .error e => some { path, errors := [e.message path] }
    | .ok l => ofListing s path l

end FileReport

structure Report where
  files : List FileReport

/-- Runs over files in order. -/
def overFiles {m : Type → Type} [Monad m] (files : FileAccess m) (s : Setup)
    (paths : List String) : OptionT m Report :=
  return ⟨← paths.mapM fun path => do
    OptionT.mk (return FileReport.ofRead s path (← files.read path))⟩

/-! ## Totals -/

structure Summary where
  files : Nat
  fileErrors : Nat
  methods : Nat
  resolved : Nat
  unresolved : Nat
  aborted : Nat
  mismatched : Nat
deriving DecidableEq, Repr

namespace Report

def methods (r : Report) : List MethodResult := r.files.flatMap FileReport.methods

def summary (r : Report) : Summary :=
  let count (s : Status) : Nat := r.methods.countP (·.status == s)
  { files := r.files.length
    fileErrors := (r.files.flatMap (·.errors)).length
    methods := r.methods.length
    resolved := count .ok
    unresolved := count .unresolved
    aborted := count .aborted
    mismatched := count .mismatch }

/-- Something needs attention. -/
def failed (r : Report) : Bool :=
  let s := r.summary
  0 < s.fileErrors || 0 < s.unresolved || 0 < s.aborted || 0 < s.mismatched

end Report

/-! ## Text -/

/-- Puts a margin before every line. -/
def indent (margin : List Char) (inLine : Bool) : List Char → List Char
  | [] => []
  | c :: cs => (if inLine then [] else margin) ++ c :: indent margin (c != '\n') cs

/-- Fills a text up to a width. -/
def padded (width : Nat) (s : String) : String :=
  s ++ String.ofList (List.replicate (width - s.length) ' ')

def Mismatch.line (m : Mismatch) : String :=
  let want := (m.want.map Ty.text).getD "%!s(<nil>)"
  s!"    {m.var}: expected {want}, got {m.got.text}\n"

/-- How a report is written. -/
structure Layout where
  /-- All types and the debug notes are shown. -/
  verbose : Bool := false
  coloured : Bool := false

def MethodResult.text (l : Layout) (r : MethodResult) : String :=
  let g := r.outcome.graph
  let status := r.status.style.paint l.coloured (padded 10 r.status.name)
  let abort := r.outcome.fault.map fun f => s!"    {Inference.abortText g.fullName f}\n"
  let types := if l.verbose then namedTypes r.built g else []
  let notes := r.outcome.journal.report l.verbose l.coloured
  s!"  {status} {g.fullName}\n" ++ abort.getD "" ++
    String.join (r.mismatches.map Mismatch.line) ++
    String.join (types.map fun (name, t) => s!"    {name}: {t.text}\n") ++
    String.ofList (indent "    ".toList false notes.toList)

def FileReport.text (l : Layout) (f : FileReport) : String :=
  let mark := Text.Style.bad.paint l.coloured "  error"
  Text.Style.heading.paint l.coloured f.path ++ "\n" ++
    String.join (f.errors.map fun e => s!"{mark} {e}\n") ++
    String.join (f.methods.map (MethodResult.text l))

/-- The whole report; the name of the run shows in its last line. -/
def Report.text (r : Report) (runName : String) (l : Layout) : String :=
  let s := r.summary
  String.join (r.files.map (FileReport.text l)) ++
    s!"run {runName}: {s.methods} methods, {s.resolved} resolved, {s.unresolved} unresolved, " ++
    s!"{s.aborted} aborted, {s.mismatched} mismatched\n"

end Run

end TypeRecovery
