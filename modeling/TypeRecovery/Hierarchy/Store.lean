import TypeRecovery.Hierarchy.Basic
import TypeRecovery.Text.Split

/- The class store: two keyed tables, one row for each class and one for each declared interface.
   Type parameters share a column, with commas between them. -/
namespace TypeRecovery

structure ClassRow where
  name : String
  super : String
  isInterface : Bool
  typeParams : String
deriving DecidableEq, Repr, Inhabited

/-- The interface at a position of a class. -/
structure InterfaceRow where
  cls : String
  position : Nat
  interface : String
deriving DecidableEq, Repr, Inhabited

/-- Class rows in ascending order of names; interface rows by class and position. -/
structure ClassStore where
  classes : List ClassRow := []
  interfaces : List InterfaceRow := []
deriving DecidableEq, Repr, Inhabited

namespace ClassStore

def joinParams (params : List String) : String := String.intercalate "," params

/-- An empty column holds no parameter. -/
def splitParams (column : String) : List String :=
  if column = "" then [] else (Text.splitAt ',' column.toList).map String.ofList

def rowOf (c : ClassDecl) : ClassRow := ⟨c.name, c.super, c.isInterface, joinParams c.typeParams⟩

def interfaceRows (c : ClassDecl) : List InterfaceRow :=
  c.interfaces.zipIdx.map fun (name, i) => ⟨c.name, i, name⟩

/-- Inserts the row, or puts it over the one of its name. -/
def upsertRow (r : ClassRow) : List ClassRow → List ClassRow
  | [] => [r]
  | s :: ss =>
    if r.name < s.name then r :: s :: ss
    else if r.name = s.name then r :: ss
    else s :: upsertRow r ss

/-- Stores a class; its interface list is replaced as a whole. -/
def put (s : ClassStore) (c : ClassDecl) : ClassStore where
  classes := upsertRow (rowOf c) s.classes
  interfaces := s.interfaces.filter (·.cls != c.name) ++ interfaceRows c

def save (s : ClassStore) (h : Hierarchy) : ClassStore := h.table.foldl put s

def count (s : ClassStore) : Nat := s.classes.length

def interfacesOf (s : ClassStore) (name : String) : List String :=
  (s.interfaces.filter (·.cls == name)).map InterfaceRow.interface

def declOf (s : ClassStore) (r : ClassRow) : ClassDecl where
  name := r.name
  super := r.super
  interfaces := s.interfacesOf r.name
  isInterface := r.isInterface
  typeParams := splitParams r.typeParams

def load (s : ClassStore) : Hierarchy := Hierarchy.ofClasses (s.classes.map s.declOf)

end ClassStore

end TypeRecovery
