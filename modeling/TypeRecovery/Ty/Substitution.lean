import TypeRecovery.Ty.Basic

/- Replacing type variables. Variables without a replacement stay, and the bounds of a variable are
   left alone. -/
namespace TypeRecovery

/-- Replacements by name; the first entry of a name counts. -/
abbrev Substitution := List (String × Ty)

namespace Substitution

def find? (s : Substitution) (name : String) : Option Ty := List.lookup name s

end Substitution

namespace Ty

mutual
def replace (s : Substitution) : Ty → Ty
  | .var name bounds => (s.find? name).getD (.var name bounds)
  | .array t => .array (t.replace s)
  | .wildcard v inner => .wildcard v (replaceOption s inner)
  | .cls name args outer => .cls name (replaceList s args) (replaceOption s outer)
  | .prim k => .prim k
  | .hole ks => .hole ks
def replaceList (s : Substitution) : List Ty → List Ty
  | [] => []
  | t :: ts => t.replace s :: replaceList s ts
def replaceOption (s : Substitution) : Option Ty → Option Ty
  | none => none
  | some t => some (t.replace s)
end

end Ty

end TypeRecovery
