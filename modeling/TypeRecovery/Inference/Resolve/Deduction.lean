import TypeRecovery.Inference.Session

/- Resolvers that try further types without changing the code: what a placeholder may be, supertypes
   of what is asked for, pinned types of arrays, and classes without their arguments. -/
namespace TypeRecovery.Inference

/-- The known types an open type may become, level by level for arrays. -/
def possibleTypes : Ty → List Ty
  | .array t => (possibleTypes t).map .array
  | t => (t.possibleKinds.filter (· != .void)).map Ty.ofKind

/-- The known types that an open variable is tried with; none if a reference is asked for. -/
def openCandidates (c : Context) (g : MethodGraph) (v : VarId) : List Ty :=
  let t := (g.var v).ty
  if !t.isArray && (boundTypes c g v).any fun b => b.isReference || b.isArray then []
  else possibleTypes t

/-- The distinct known references among the bounds. -/
def referenceBounds (c : Context) (g : MethodGraph) (v : VarId) : List Ty :=
  ((boundTypes c g v).filter fun t => t.isKnown && t.isReference).foldl
    (fun ts t => if ts.contains t then ts else ts ++ [t]) []

/-- The supertypes of what the bounds ask for. -/
def widerReferences (c : Context) (g : MethodGraph) (v : VarId) : List Ty :=
  (referenceBounds c g v).flatMap fun t => (c.hierarchy.ancestors t.className).map Ty.raw

/-! ## Deducing types -/

def changes (v : VarId) (flags : Flags) (t : Ty) : Infer Bool :=
  return (← apply v t flags) == .changed

def deduceType (v : VarId) : Infer Bool := do
  let var := (← theGraph).var v
  if var.isPinned || var.ty.isKnown then return false
  if ← applyBest v then return true
  if ← firstOf (changes v {}) (openCandidates (← read) (← theGraph) v) then return true
  firstOf (changes v { acceptWider := true }) (widerReferences (← read) (← theGraph) v)

def deduceTypes : Infer Bool := do anyOf deduceType (← theGraph).live

/-! ## Pinned arrays -/

/-- The variable is used as an array. -/
def isIndexed (g : MethodGraph) (v : VarId) : Bool :=
  (g.var v).uses.any fun s => (g.site s).owner.any fun i =>
    (g.insn i).opcode == .aget || (g.insn i).opcode == .aput

/-- Gives an open pinned variable its type if it is used as an array. -/
def forcePin (v : VarId) : Infer Bool :=
  edit fun g =>
    let x := g.var v
    if !x.ty.isKnown && x.isPinned && isIndexed g v then (true, g.setVarType v x.pin) else (false, g)

def forceImmutable : Infer Bool := do
  if ← anyOf forcePin (← theGraph).live then
    propagate
    return true
  else return false

/-! ## Raw types -/

/-- The type carries arguments, or is a type variable or a wildcard. -/
def hasArguments (t : Ty) : Bool := t.isVar || t.isWildcard || t.isGeneric

/-- The class of a type without arguments. -/
def rawOf (t : Ty) : Ty := if t.isVar || t.isWildcard then Ty.object else Ty.raw t.className

def applyRaw (v : VarId) : Infer Bool := do
  let types := referenceBounds (← read) (← theGraph) v
  let generic := types.filter hasArguments
  let applied ← firstOf (fun t => changes v { acceptWider := true } (rawOf t)) generic
  if applied then
    let list := "[" ++ String.intercalate ", " (types.map Ty.text) ++ "]"
    report (.rawApplied ((← theGraph).varText v) list)
  return applied

/-- Falls back to raw classes. Helps only if no open variable is left without one. -/
def removeGenerics : Infer Bool := do
  let failed ← anyOf (fun v => do
    let var := (← theGraph).var v
    if var.ty.isKnown || var.isPinned then return false
    return !(← applyRaw v)) (← theGraph).live
  return !failed

end TypeRecovery.Inference
