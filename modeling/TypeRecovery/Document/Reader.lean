import TypeRecovery.Document.Token

/- Reading a document from text: lists in brackets, mappings in braces with quoted keys, quoted texts,
   integers, `true`, `false` and `null`. What is open at a point of the text is a stack of frames. -/
namespace TypeRecovery.Document

/-- A list or mapping that is not closed yet; items and entries in reverse. -/
inductive Frame where
  | list (items : List Document)
  | mapping (entries : List (String × Document)) (key : String)

/-- What the reader waits for. -/
inductive ReadState where
  | value (stack : List Frame)
  /-- A first item, or the end of the list. -/
  | firstItem (stack : List Frame)
  /-- A first key, or the end of the mapping. -/
  | firstKey (stack : List Frame)
  | key (stack : List Frame) (entries : List (String × Document))
  | colon (stack : List Frame) (entries : List (String × Document)) (key : String)
  /-- A comma or the end of what is open. -/
  | comma (stack : List Frame)
  | done (d : Document)

namespace ReadState

/-- Puts a finished value where it belongs. -/
def complete (d : Document) : List Frame → ReadState
  | [] => .done d
  | .list items :: stack => .comma (.list (d :: items) :: stack)
  | .mapping entries name :: stack => .comma (.mapping ((name, d) :: entries) "" :: stack)

def ofWord? (s : String) : Option Document :=
  match s with
  | "null" => some .null
  | "true" => some (.bool true)
  | "false" => some (.bool false)
  | s => if s.toList.contains '_' then none else s.toInt?.map .int

/-- A value starts with this token. -/
def startValue (stack : List Frame) : Token → Option ReadState
  | .openList => some (.firstItem stack)
  | .openMapping => some (.firstKey stack)
  | .word s => (ofWord? s).map fun d => complete d stack
  | .text s => some (complete (.text s) stack)
  | .closeList | .closeMapping | .colon | .comma => none

def step (s : ReadState) (t : Token) : Option ReadState :=
  match s, t with
  | .value stack, t => startValue stack t
  | .firstItem stack, .closeList => some (complete (.list []) stack)
  | .firstItem stack, t => startValue (.list [] :: stack) t
  | .firstKey stack, .closeMapping => some (complete (.mapping []) stack)
  | .firstKey stack, .text name => some (.colon stack [] name)
  | .key stack entries, .text name => some (.colon stack entries name)
  | .colon stack entries name, .colon => some (.value (.mapping entries name :: stack))
  | .comma (.list items :: stack), .comma => some (.value (.list items :: stack))
  | .comma (.list items :: stack), .closeList => some (complete (.list items.reverse) stack)
  | .comma (.mapping entries _ :: stack), .comma => some (.key stack entries)
  | .comma (.mapping entries _ :: stack), .closeMapping =>
    some (complete (.mapping entries.reverse) stack)
  | _, _ => none

end ReadState

def ofTokens? (ts : List Token) : Option Document :=
  match ts.foldlM ReadState.step (.value []) with
  | some (.done d) => some d
  | _ => none

/-- The document that a text holds. -/
def ofText? (s : String) : Option Document := (tokens? s.toList).bind ofTokens?

end TypeRecovery.Document
