import TypeRecovery.Ty.Basic

/- The text of a type. Class arguments stand in angle brackets, an inner class after its enclosing
   type and a dollar sign, and a placeholder is `?` with its kinds, which are left out when it has
   all of them. -/
namespace TypeRecovery.Ty

/-- The last part of a dotted or nested name. -/
def shortName (name : List Char) : List Char :=
  (name.reverse.takeWhile fun c => c != '.' && c != '$').reverse

/-- Texts one after another with a separator between. -/
def separated (sep : List Char) : List (List Char) → List Char
  | [] => []
  | [t] => t
  | t :: ts => t ++ sep ++ separated sep ts

def kindsText (ks : List Kind) : List Char :=
  if ks.length = Kind.all.length then ['?']
  else "?[".toList ++ separated ", ".toList (ks.map (·.name.toList)) ++ [']']

def boundsText (name : List Char) : List (List Char) → List Char
  | [] => name
  | ts => name ++ " extends ".toList ++ separated " & ".toList ts

def argsText : List (List Char) → List Char
  | [] => []
  | ts => '<' :: (separated ", ".toList ts ++ ['>'])

mutual
def chars : Ty → List Char
  | .prim k => k.name.toList
  | .cls name args none => name.toList ++ argsText (charsList args)
  | .cls name args (some outer) =>
    outer.chars ++ '$' :: (shortName name.toList ++ argsText (charsList args))
  | .var name bounds => boundsText name.toList (charsList bounds)
  | .wildcard .upper (some t) => "? extends ".toList ++ t.chars
  | .wildcard .lower (some t) => "? super ".toList ++ t.chars
  | .wildcard _ _ => ['?']
  | .array t => t.chars ++ "[]".toList
  | .hole ks => kindsText ks
def charsList : List Ty → List (List Char)
  | [] => []
  | t :: ts => t.chars :: charsList ts
end

section Equations

@[simp] theorem chars_prim (k : Kind) : (prim k).chars = k.name.toList := rfl

@[simp] theorem chars_cls (name : String) (args : List Ty) :
    (cls name args none).chars = name.toList ++ argsText (charsList args) := rfl

@[simp] theorem chars_var (name : String) (bounds : List Ty) :
    (var name bounds).chars = boundsText name.toList (charsList bounds) := rfl

@[simp] theorem chars_free : (wildcard .free none).chars = ['?'] := rfl

@[simp] theorem chars_upper (t : Ty) :
    (wildcard .upper (some t)).chars = "? extends ".toList ++ t.chars := rfl

@[simp] theorem chars_lower (t : Ty) :
    (wildcard .lower (some t)).chars = "? super ".toList ++ t.chars := rfl

@[simp] theorem chars_array (t : Ty) : (array t).chars = t.chars ++ "[]".toList := rfl

@[simp] theorem chars_hole (ks : List Kind) : (hole ks).chars = kindsText ks := rfl

theorem charsList_eq_map (ts : List Ty) : charsList ts = ts.map chars := by
  induction ts with
  | nil => rfl
  | cons t ts ih => exact congrArg (t.chars :: ·) ih

end Equations

def text (t : Ty) : String := String.ofList t.chars

end TypeRecovery.Ty

/-- The text of a declaration is that of the variable. -/
def TypeRecovery.TypeVar.text (v : TypeVar) : String := v.ty.text
