import TypeRecovery.Hierarchy.Walk
import TypeRecovery.Ty.Relation

/- The class hierarchy: a table of declarations by name. It may be incomplete, and nothing forbids
   cycles. A class without a superclass of its own extends the universal one. -/
namespace TypeRecovery

/-- One class or interface declaration. -/
structure ClassDecl where
  name : String
  /-- The direct superclass; empty means the universal class. -/
  super : String := ""
  interfaces : List String := []
  isInterface : Bool := false
  typeParams : List String := []
deriving DecidableEq, Repr, Inhabited

namespace ClassDecl

/-- The superclass by name; only the universal class may have none. -/
def superName (c : ClassDecl) : String :=
  if c.super = "" && c.name ≠ Ty.objectClass then Ty.objectClass else c.super

/-- The supertypes that the declaration names, each as often as it does. -/
def parents (c : ClassDecl) : List String :=
  if c.superName = "" then c.interfaces else c.superName :: c.interfaces

end ClassDecl

/-- Declarations in ascending order of names, one for each name, and who stands below whom. -/
structure Hierarchy where
  table : List ClassDecl
  /-- A supertype with a class below it, once for each time that the class names it. -/
  links : List (String × String) := []
deriving DecidableEq, Repr, Inhabited

namespace Hierarchy

/-- Puts a declaration in its place, over an earlier one of the same name. -/
def insertDecl (c : ClassDecl) : List ClassDecl → List ClassDecl
  | [] => [c]
  | d :: ds =>
    if c.name < d.name then c :: d :: ds
    else if c.name = d.name then c :: ds
    else d :: insertDecl c ds

/-- Puts a class below its supertypes. -/
def link (c : ClassDecl) (links : List (String × String)) : List (String × String) :=
  links ++ c.parents.map fun p => (p, c.name)

/-- Takes a class from below its supertypes, one link for each time that it names one. -/
def unlink (c : ClassDecl) (links : List (String × String)) : List (String × String) :=
  (c.superName :: c.interfaces).foldl (fun links p => links.erase (p, c.name)) links

/-- The hierarchy of the universal class alone. -/
def base : Hierarchy := { table := [{ name := Ty.objectClass }] }

def lookup? (h : Hierarchy) (name : String) : Option ClassDecl := h.table.find? (·.name == name)

/-- Declares a class; an earlier declaration of the name is dropped with its links. -/
def addClass (h : Hierarchy) (c : ClassDecl) : Hierarchy where
  table := insertDecl c h.table
  links := link c (match h.lookup? c.name with
    | some old => unlink old h.links
    | none => h.links)

def ofClasses (cs : List ClassDecl) : Hierarchy := cs.foldl addClass base

def isDeclared (h : Hierarchy) (name : String) : Bool := (h.lookup? name).isSome

/-- Adds plain classes; one that is declared already is left alone. -/
def addPlain (h : Hierarchy) (names : List String) : Hierarchy :=
  names.foldl (fun h name => if h.isDeclared name then h else h.addClass { name }) h

def size (h : Hierarchy) : Nat := h.table.length

def names (h : Hierarchy) : List String := h.table.map ClassDecl.name

def isInterface (h : Hierarchy) (name : String) : Bool :=
  (h.lookup? name).any ClassDecl.isInterface

def typeParams (h : Hierarchy) (name : String) : List String :=
  ((h.lookup? name).map ClassDecl.typeParams).getD []

def interfaces (h : Hierarchy) (name : String) : List String :=
  ((h.lookup? name).map ClassDecl.interfaces).getD []

/-- The declarations whose names are not among `seen`. -/
def unseen (h : Hierarchy) (seen : List String) : Nat :=
  (h.table.filter (!seen.contains ·.name)).length

theorem unseen_cons_lt {h : Hierarchy} {seen : List String} {name : String} {d : ClassDecl}
    (hd : h.lookup? name = some d) (hs : seen.contains name = false) :
    h.unseen (name :: seen) < h.unseen seen := by
  have hname : d.name = name := by simpa using List.find?_some hd
  have hmem : d ∈ h.table := List.mem_of_find?_eq_some hd
  unfold unseen
  have hsub : h.table.filter (!(name :: seen).contains ·.name) =
      (h.table.filter (!seen.contains ·.name)).filter (·.name != name) := by
    rw [List.filter_filter]
    congr 1
    funext c
    by_cases hc : c.name = name <;> simp [hc]
  rw [hsub]
  refine List.length_filter_lt_length_iff_exists.2 ⟨d, ?_, by simp [hname]⟩
  exact List.mem_filter.2 ⟨hmem, by rw [hname, hs]; rfl⟩

/-- The superclasses of `c` from nearest to farthest. The chain stops before the universal class,
    after an undeclared class, and where it would repeat. -/
def superChainFrom (h : Hierarchy) (seen : List String) (c : ClassDecl) : List String :=
  if _hstop : c.superName = "" ∨ c.superName = Ty.objectClass ∨ seen.contains c.superName then []
  else
    match _hd : h.lookup? c.superName with
    | none => [c.superName]
    | some d => c.superName :: h.superChainFrom (c.superName :: seen) d
termination_by h.unseen seen
decreasing_by exact unseen_cons_lt _hd (by simp_all)

def superChain (h : Hierarchy) (name : String) : List String :=
  match h.lookup? name with
  | none => []
  | some c => h.superChainFrom [name] c

/-- All supertypes: the superclasses, then the interfaces breadth first, and the universal class
    last. An undeclared name has none. -/
def ancestors (h : Hierarchy) (name : String) : List String :=
  if h.isDeclared name then
    let chain := h.superChain name
    let declared := (name :: chain).flatMap h.interfaces
    chain ++ Walk.breadthFirst h.names h.interfaces (Ty.objectClass :: name :: chain) declared ++
      if name = Ty.objectClass then [] else [Ty.objectClass]
  else []

/-- The declared classes directly below a name. -/
def children (h : Hierarchy) (name : String) : List String :=
  (h.links.filter (·.1 == name)).map Prod.snd

/-- Puts a name in its place among ascending ones. -/
def insertName (name : String) : List String → List String
  | [] => [name]
  | n :: ns => if n < name then n :: insertName name ns else name :: n :: ns

def sortNames (names : List String) : List String := names.foldr insertName []

/-- All declared subtypes, in ascending order. -/
def implementations (h : Hierarchy) (name : String) : List String :=
  sortNames (Walk.breadthFirst h.names h.children [] (h.children name))

/-- `name` is `of` or below it; everything is below the universal class. -/
def isInstanceOf (h : Hierarchy) (name of : String) : Bool :=
  name == of || of == Ty.objectClass || (h.ancestors name).contains of

/-- Searches the superclasses of a declaration upwards for one that `b` is an instance of. The search
    gives up for the universal class after an undeclared class, where there is no superclass, and where
    it would repeat. -/
def sharedFrom (h : Hierarchy) (b : String) (seen : List String) : Option ClassDecl → String
  | none => Ty.objectClass
  | some c =>
    if _hstop : c.superName = "" ∨ seen.contains c.superName then Ty.objectClass
    else if h.isInstanceOf b c.superName then c.superName
    else h.sharedFrom b (c.superName :: seen) (h.lookup? c.superName)
termination_by start => start.elim 0 fun _ => h.unseen seen + 1
decreasing_by
  cases hd : h.lookup? c.superName with
  | none => exact Nat.zero_lt_succ _
  | some d => exact Nat.succ_lt_succ (unseen_cons_lt hd (by simp_all))

/-- The nearest superclass of `a` that `b` is an instance of. An interface only comes out when one side
    is below the other already. -/
def commonAncestor? (h : Hierarchy) (a b : String) : Option String :=
  if h.isInstanceOf a b then some b
  else if h.isInstanceOf b a then some a
  else if h.isDeclared a && h.isDeclared b then some (h.sharedFrom b [] (h.lookup? a))
  else none

/-- The hierarchy as comparing and merging see it. -/
def oracle (h : Hierarchy) : ClassOracle where
  declared := h.isDeclared
  instanceOf := h.isInstanceOf
  commonAncestor a b := (h.commonAncestor? a b).filter (· != "")

end Hierarchy

end TypeRecovery
