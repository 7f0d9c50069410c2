import TypeRecovery.Hierarchy.Basic
import TypeRecovery.Ty.Substitution

/- Type arguments seen through a receiver: the parameters that a class declares stand for the
   arguments that the receiver's type carries. -/
namespace TypeRecovery

/-- A wildcard by its bound, an unbounded one as the universal class; other types as they are. -/
def Ty.unwrapped : Ty → Ty
  | .wildcard _ none => Ty.object
  | .wildcard _ (some t) => t
  | t => t

namespace Hierarchy

/-- What the declared parameters of a class stand for. The arguments of an enclosing class count
    too; a type variable counts as its first bound. -/
def substitution (h : Hierarchy) : Ty → Substitution
  | .cls name args outer =>
    let params := h.typeParams name
    let own := if params.length = args.length then (params.zip args).reverse else []
    match outer with
    | some t => own ++ h.substitution t
    | none => own
  | .var _ (bound :: _) => h.substitution bound
  | _ => []

/-- A declared type with its class variables replaced, if the receiver carries arguments. -/
def seenThrough? (h : Hierarchy) (receiver t : Ty) : Option Ty :=
  match h.substitution receiver with
  | [] => none
  | s => some (t.replace s)

end Hierarchy

end TypeRecovery
