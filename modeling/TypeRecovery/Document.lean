/- Documents: the values that configuration, class and method files hold. A missing entry and an
   explicit null both stand for the empty value of what is wanted; a null among the items of a list is
   passed over; entries that nobody asks for are ignored; a value of the wrong shape is refused. -/
namespace TypeRecovery

inductive Document where
  | null
  | bool (value : Bool)
  | int (value : Int)
  | text (value : String)
  | list (items : List Document)
  | mapping (entries : List (String × Document))
deriving Repr, Inhabited

namespace Document

/-- A scalar by its text. -/
def text? : Document → Option String
  | .null => some ""
  | .text s => some s
  | .int n => some (toString n)
  | .bool b => some (if b then "true" else "false")
  | .list _ | .mapping _ => none

def int? : Document → Option Int
  | .null => some 0
  | .int n => some n
  | _ => none

def bool? : Document → Option Bool
  | .null => some false
  | .bool b => some b
  | _ => none

def isNull : Document → Bool
  | .null => true
  | _ => false

def list? {α : Type} (item : Document → Option α) : Document → Option (List α)
  | .null => some []
  | .list items => (items.filter (!·.isNull)).mapM item
  | _ => none

/-- A list for which being absent differs from being empty. -/
def optionalList? {α : Type} (item : Document → Option α) : Document → Option (Option (List α))
  | .null => some none
  | .list items => some <$> (items.filter (!·.isNull)).mapM item
  | _ => none

def entries? : Document → Option (List (String × Document))
  | .null => some []
  | .mapping entries => some entries
  | _ => none

def textList? : Document → Option (List String) := list? text?

/-- Something that may be absent. -/
def optional? {α : Type} (item : Document → Option α) : Document → Option (Option α)
  | .null => some none
  | d => some <$> item d

end Document

/-- The entries of a mapping. -/
abbrev Entries := List (String × Document)

/-- The value under a key, null when there is none. -/
def Entries.get (entries : Entries) (key : String) : Document :=
  (List.lookup key entries).getD .null

end TypeRecovery
