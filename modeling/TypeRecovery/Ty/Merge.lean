import TypeRecovery.Ty.Printer
import TypeRecovery.Ty.Relation

/- The most specific type compatible with two others. Placeholders intersect, a type variable wins
   over what it meets, unrelated classes meet in their common superclass, and primitives of one width
   in the lower of them. -/
namespace TypeRecovery.Ty

/-- The kinds common to two open types. One kind alone is a primitive, unless it is a reference. -/
def intersect? (a b : Ty) : Option Ty :=
  match a.possibleKinds.filter b.admits with
  | [] => none
  | [.object] => some (holeOf [.object])
  | [.array] => some (holeOf [.array])
  | [k] => some (.prim k)
  | ks => some (holeOf ks)

/-- Two references, neither of them a type variable. -/
def mergeReferences? (h : Option ClassOracle) (a b : Ty) : Option Ty :=
  if a.className = b.className then some (if a.isGeneric then a else b)
  else if a.className = objectClass then some b
  else if b.className = objectClass then some a
  else h.bind fun o => (o.commonAncestor a.className b.className).map raw

mutual
def merge? (h : Option ClassOracle) (a b : Ty) : Option Ty :=
  if a = b then some a
  else
    match mergeInto? h a b with
    | some t => some t
    | none => mergeInto? h b a
termination_by 2 * (sizeOf a + sizeOf b) + 1
/-- One direction of merging: what is known of `b` refines `a`. -/
def mergeInto? (h : Option ClassOracle) (a b : Ty) : Option Ty :=
  if a = anything then some b
  else if !a.isKnown then
    if b.isKnown then if b.kind?.any a.admits then some b else none
    else intersect? a b
  else if a.isVar then some a
  else if b.isVar then some b
  else if a.isReference && b.isReference then mergeReferences? h a b
  else
    match a, b with
    | .array x, .array y =>
      if x.isPrim && y.isPrim then some object else (merge? h x y).map .array
    | .array _, t => if t.isObjectClass then some object else none
    | .prim k, .prim l => if k.registers = l.registers then some (.prim (k.lower l)) else none
    | _, _ => none
termination_by 2 * (sizeOf a + sizeOf b)
end

/-- The text for two types without a merge. -/
def incompatibleText (a b : Ty) : String := s!"incompatible types: {a.text} and {b.text}"

end TypeRecovery.Ty
