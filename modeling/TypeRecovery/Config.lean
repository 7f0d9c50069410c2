import TypeRecovery.Hierarchy.Document
import TypeRecovery.Path
import TypeRecovery.Text.Quoted

/- The options of a run: where classes come from, how far inference may go, and which resolvers take
   part. -/
namespace TypeRecovery

/-- The helpers that inference turns to, one after the other, while a type is still open. -/
inductive Resolver where
  | restoreTypeVarCasts
  | insertCasts
  | deduceTypes
  | splitConsts
  | fixPrimitives
  | forceImmutable
  | insertMoves
  | search
  | removeGenerics
deriving DecidableEq, Repr, Inhabited

namespace Resolver

/-- All resolvers, in the order in which they run. -/
def all : List Resolver := [restoreTypeVarCasts, insertCasts, deduceTypes, splitConsts,
  fixPrimitives, forceImmutable, insertMoves, search, removeGenerics]

def name : Resolver → String
  | restoreTypeVarCasts => "restore-type-var-casts"
  | insertCasts => "insert-casts"
  | deduceTypes => "deduce-types"
  | splitConsts => "split-consts"
  | fixPrimitives => "fix-primitives"
  | forceImmutable => "force-immutable"
  | insertMoves => "insert-moves"
  | search => "search"
  | removeGenerics => "remove-generics"

def ofName? (s : String) : Option Resolver := all.find? (·.name == s)

end Resolver

structure Limits where
  finalizeRounds : Nat := 1000
  /-- Variables of a method that is still searched. -/
  searchVars : Nat := 5000
  searchCandidates : Nat := 10
  searchIterations : Nat := 1000000
  /-- Nested proposals of one attempt. -/
  updateDepth : Nat := 10000
deriving DecidableEq, Repr, Inhabited

structure Config where
  classpath : String := ""
  workers : Option Nat := none
  debug : Bool := false
  limits : Limits := {}
  /-- The resolvers that take part; none listed means all. -/
  resolvers : List Resolver := []
deriving DecidableEq, Repr, Inhabited

namespace Config

def enables (c : Config) (r : Resolver) : Bool := c.resolvers.isEmpty || c.resolvers.contains r

def fileNames : List String := ["dextype.yaml", "dextype.yml"]

/-- The numbers that must not be negative, as the document gives them. -/
structure Numbers where
  workers : Int
  finalizeRounds : Int
  searchVars : Int
  searchCandidates : Int
  searchIterations : Int
  updateDepth : Int

namespace Numbers

def named (n : Numbers) : List (String × Int) := [("workers", n.workers),
  ("limits.finalize_rounds", n.finalizeRounds), ("limits.search_vars", n.searchVars),
  ("limits.search_candidates", n.searchCandidates),
  ("limits.search_iterations", n.searchIterations), ("limits.update_depth", n.updateDepth)]

def problem? (n : Numbers) : Option String :=
  (n.named.find? (·.2 < 0)).map fun (name, _) => name ++ " must not be negative"

/-- A number, or the default where it is zero. -/
def orDefault (n : Int) (default : Nat) : Nat := if n = 0 then default else n.toNat

def limits (n : Numbers) : Limits :=
  let d : Limits := {}
  { finalizeRounds := orDefault n.finalizeRounds d.finalizeRounds
    searchVars := orDefault n.searchVars d.searchVars
    searchCandidates := orDefault n.searchCandidates d.searchCandidates
    searchIterations := orDefault n.searchIterations d.searchIterations
    updateDepth := orDefault n.updateDepth d.updateDepth }

end Numbers

/-- The resolvers by name, or what is wrong with the first bad name. -/
def resolversOf (before : List Resolver) (i : Nat) : List String → Except String (List Resolver)
  | [] => .ok before
  | s :: rest =>
    match Resolver.ofName? s with
    | none => .error s!"resolvers[{i}]: unknown resolver {Text.quoted s}"
    | some r =>
      if before.contains r then .error s!"resolvers[{i}]: duplicate resolver {Text.quoted s}"
      else resolversOf (before ++ [r]) (i + 1) rest

def entriesOf? (d : Document) : Option (String × Bool × Numbers × List String) := do
  let e ← d.entries?
  let l ← (Entries.get e "limits").entries?
  let numbers : Numbers := {
    workers := ← (Entries.get e "workers").int?
    finalizeRounds := ← (Entries.get l "finalize_rounds").int?
    searchVars := ← (Entries.get l "search_vars").int?
    searchCandidates := ← (Entries.get l "search_candidates").int?
    searchIterations := ← (Entries.get l "search_iterations").int?
    updateDepth := ← (Entries.get l "update_depth").int? }
  return (← (Entries.get e "classpath").text?, ← (Entries.get e "debug").bool?, numbers,
    ← (Entries.get e "resolvers").textList?)

/-- Reads a configuration. A relative class path is taken from the directory of the file. -/
def ofDocument (path : String) (d : Document) : Except DocumentError Config :=
  match entriesOf? d with
  | none => .error .shape
  | some (classpath, debug, numbers, names) =>
    match numbers.problem?, resolversOf [] 0 names with
    | some p, _ => .error (.invalid s!"{path}: {p}")
    | none, .error p => .error (.invalid s!"{path}: {p}")
    | none, .ok resolvers => .ok {
        classpath :=
          if classpath = "" || Path.isAbsolute classpath then classpath
          else Path.join (Path.dir path) classpath
        workers := if numbers.workers = 0 then none else some numbers.workers.toNat
        debug
        limits := numbers.limits
        resolvers }

end Config

end TypeRecovery
