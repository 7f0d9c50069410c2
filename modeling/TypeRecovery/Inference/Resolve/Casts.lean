import TypeRecovery.Inference.Session

/- Resolvers that work with checked casts: a cast is turned back to the type variable it stands for,
   and soft casts are put where a bound asks for a type variable. -/
namespace TypeRecovery.Inference

/-- Edits for one item after the other, and how many there were in all. -/
def tally {α : Type} (step : MethodGraph → α → Nat × MethodGraph) :
    List α → MethodGraph → Nat × MethodGraph
  | [], g => (0, g)
  | a :: rest, g =>
    let (n, g) := step g a
    let (m, g) := tally step rest g
    (n + m, g)

/-! ## Restoring -/

/-- The casts among the bounds of a variable. -/
def boundCasts (bounds : List Bound) : List InsnId :=
  bounds.filterMap fun
    | .castResult i => some i
    | _ => none

/-- The type variable a variable is bound to, with its only bound. -/
def boundVariable? (c : Context) (g : MethodGraph) (v : VarId) : Option (Ty × Ty) :=
  if (boundTypes c g v).any Ty.isVar then
    match bestBound? c g v with
    | some (.var name [bound]) => some (.var name [bound], bound)
    | _ => none
  else none

/-- Turns the casts among the bounds of a variable to its type variable, if the bound of that is the
    cast type, or differs from it by type arguments only. -/
def restoreCasts (c : Context) (g : MethodGraph) (v : VarId) : Nat × MethodGraph :=
  match boundVariable? c g v with
  | none => (0, g)
  | some (t, bound) =>
    tally (fun g i =>
      let r := (g.insn i).type.map (c.compare bound)
      if r = some .equal || r = some .narrowByArgs then
        (1, g.updateInsn i fun x => { x with type := some t })
      else (0, g)) (boundCasts (g.var v).bounds) g

def restoreTypeVarCasts : Infer Bool := do
  let c ← read
  let restored ← edit fun g => tally (restoreCasts c) g.live g
  if restored = 0 then return false
  report (.castsRestored restored)
  reinit
  return true

/-! ## Inserting -/

/-- Puts a soft cast after the definition of a variable. -/
def castDefinition (g : MethodGraph) (v : VarId) (t : Ty) : Bool × MethodGraph :=
  match (g.var v).assign, g.assignInsn? v with
  | some s, some i =>
    if (g.insn i).opcode = .phi || (g.insn i).block.isNone then (false, g)
    else
      let (fresh, g) := g.duplicateFresh s
      let g := g.setResult i (some fresh)
      let (source, g) := g.duplicate fresh
      let (cast, g) := g.buildInsn
        { opcode := .checkCast, type := some t, soft := true, synthetic := true } (some s) [source]
      g.insertAfter i cast
  | _, _ => (false, g)

/-- The instruction compares with zero. -/
def comparesWithZero (g : MethodGraph) (i : InsnId) : Bool :=
  match (g.insn i).opcode with
  | .branch _ => ((g.insn i).args[1]?).any fun s => g.literal? s == some 0
  | _ => false

/-- Puts a soft cast to the declared type before a use. -/
def castUse (g : MethodGraph) (s : SiteId) : Bool × MethodGraph :=
  match (g.site s).owner with
  | none => (false, g)
  | some i =>
    if (g.insn i).opcode = .phi || (g.insn i).block.isNone || comparesWithZero g i then (false, g)
    else
      let t := (g.site s).declared
      let (result, g) := g.duplicateFresh s
      let (source, g) := g.duplicate s
      let (cast, g) := g.buildInsn
        { opcode := .checkCast, type := some t, soft := true, synthetic := true }
        (some result) [source]
      let (replacement, g) := g.duplicate result
      match g.replaceArg i s replacement with
      | (false, g) => (false, g)
      | (true, g) => g.insertBefore i cast

/-- The first type among the bounds that mentions type variables of the method and that the variable
    does not have. -/
def wantedCast? (c : Context) (g : MethodGraph) (v : VarId) : Option Ty :=
  (boundTypes c g v).find? fun t =>
    t.isKnown && t != (g.var v).ty && t.mentionsVar && !outOfScope g t

/-- Casts the definition of a variable or, where that cannot be, its uses. -/
def insertVarCasts (c : Context) (g : MethodGraph) (v : VarId) : Nat × MethodGraph :=
  match wantedCast? c g v with
  | none => (0, g)
  | some t =>
    match castDefinition g v t with
    | (true, g) => (1, g)
    | (false, g) =>
      tally (fun g s =>
        let (done, g) := castUse g s
        (done.toNat, g)) (g.var v).uses g

def insertCasts : Infer Bool := do
  let c ← read
  let added ← edit fun g => tally (insertVarCasts c) g.live g
  if added = 0 then return false
  report (.inserted added "cast")
  reinit
  return true

end TypeRecovery.Inference
