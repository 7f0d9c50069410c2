import TypeRecovery.Inference.Context

/- Bounds: what the instructions around a variable ask of its type. The definition limits it from
   below and every use from above; variables that meet in a phi share their bounds. -/
namespace TypeRecovery.Inference

/-! ## The type of a bound -/

/-- The type a bound asks for, with the types of sites read through `view`. -/
def boundType? (c : Context) (g : MethodGraph) (view : SiteId → Ty) : Bound → Option Ty
  | .fixed _ t => some t
  | .callResult i declared =>
    let plain := (g.insn i).callee.map Callee.result
    match g.instanceArg? i with
    | none => plain
    | some receiver =>
      match c.hierarchy.seenThrough? (view receiver) declared with
      | none => plain
      | some t => some t.unwrapped
  | .callArgument i _ declared =>
    (g.instanceArg? i).bind fun receiver => c.hierarchy.seenThrough? (view receiver) declared
  | .fieldRead i declared =>
    match (g.insn i).args.head?.bind fun s => c.hierarchy.seenThrough? (view s) declared with
    | some t => some t.unwrapped
    | none => some declared.erase
  | .castResult i =>
    match (g.insn i).soft, (g.insn i).args.head?, (g.insn i).type with
    | true, some source, some t =>
      if (c.compare (view source) t).isNarrow then some (view source) else some t
    | _, _, t => t

/-- The types that the bounds of a variable ask for at present. -/
def boundTypes (c : Context) (g : MethodGraph) (v : VarId) : List Ty :=
  (g.var v).bounds.filterMap (boundType? c g g.typeAt)

/-! ## Passing a bound -/

/-- A known type fills an open type that has a place for its kind, level by level for arrays. -/
def fills : (hole candidate : Ty) → Bool
  | .array h, .array t => fills h t
  | hole, t =>
    hole == Ty.anything || (t.isArray && hole.admits .array) ||
      (t.isReference && hole.admits .object) ||
      match t with
      | .prim k => hole.admits k
      | _ => false

/-- A bound of this side and type lets the candidate pass. Where the classes cannot be compared it
    gets the benefit of the doubt. -/
def admits (c : Context) (side : BoundSide) (bound candidate : Ty) : Bool :=
  match c.compare candidate bound with
  | .equal | .widerByArgs | .narrowByArgs | .undetermined => true
  | .wider => side == .assign
  | .narrow => side == .use || (!bound.isKnown && fills bound candidate)
  | .conflict | .conflictByArgs => false

/-- The candidate passes all bounds; one without a type at present asks for nothing. -/
def withinBounds (c : Context) (g : MethodGraph) (view : SiteId → Ty) (bounds : List Bound)
    (candidate : Ty) : Bool :=
  bounds.all fun b => (boundType? c g view b).all fun t => admits c b.side t candidate

/-- The warnings about bounds that could not be compared, up to the first that is not passed. -/
def boundWarnings (c : Context) (g : MethodGraph) (view : SiteId → Ty) (candidate : Ty) :
    List Bound → List LogRecord
  | [] => []
  | b :: bs =>
    match boundType? c g view b with
    | none => boundWarnings c g view candidate bs
    | some t =>
      if c.compare candidate t = .undetermined then
        { level := .warn
          message := "can't compare types, unknown hierarchy"
          fields := [("candidate", candidate.text), ("bound", t.text)] } ::
          boundWarnings c g view candidate bs
      else if admits c b.side t candidate then boundWarnings c g view candidate bs
      else []

/-! ## Attaching bounds -/

/-- Adds a bound unless it is there already or says nothing. -/
def addBound (bounds : List Bound) (b : Bound) : List Bound :=
  let empty := match b with
    | .fixed _ t => t == Ty.anything
    | _ => false
  if empty || bounds.contains b then bounds else bounds ++ [b]

/-- The bound on the result of a call, if the callee tells. -/
def callResultBound? (i : InsnId) (insn : Insn) : Option Bound :=
  insn.callee.map fun callee =>
    match callee.genericResult with
    | none => .fixed .assign callee.result
    | some t =>
      if !t.mentionsVar then .fixed .assign t
      else if insn.args.isEmpty || callee.isStatic || callee.kind = .super then
        .fixed .assign callee.result
      else .callResult i t

/-- The bounds that an instruction puts on its result; none leaves it to the declared type. -/
def resultBounds? (g : MethodGraph) (i : InsnId) (declared : Ty) : Option (List Bound) :=
  let insn := g.insn i
  let fixed (t : Option Ty) : Option (List Bound) := t.map fun t => [.fixed .assign t]
  match insn.opcode with
  | .newInstance => fixed insn.type
  | .constructor =>
    fixed (insn.anonymousBase <|> insn.type <|> insn.callee.map fun m => Ty.raw m.cls)
  | .const => fixed (insn.args.head?.map g.typeAt)
  | .moveException =>
    if insn.catches.isEmpty then none
    else some (insn.catches.filterMap fun t => t.map (.fixed .assign))
  | .invoke => (callResultBound? i insn).map fun b => [b]
  | .invokeCustom =>
    match insn.target with
    | none => none
    | some target =>
      match target.markers with
      | t :: _ => some (t.map (.fixed .assign)).toList
      | [] => fixed target.primary
  | .iget =>
    let t := (insn.field.bind FieldRef.type).getD declared
    if t.mentionsVar && !insn.args.isEmpty then some [.fieldRead i t] else none
  | .checkCast => if insn.type.isSome then some [.castResult i] else none
  | _ => none

/-- The bounds from the definition of a variable. -/
def definitionBounds (g : MethodGraph) (v : VarId) (s : SiteId) : List Bound :=
  let site := g.site s
  let declared := [Bound.fixed .assign site.declared]
  match (g.var v).pin, site.owner with
  | some t, _ => [.fixed .assign t]
  | none, none => declared
  | none, some i =>
    if (g.insn i).result.isNone then declared
    else (resultBounds? g i site.declared).getD declared

/-- The bound on an argument of a call whose declaration was found. The receiver is of the class
    that first declares the method. -/
def callUseBound? (g : MethodGraph) (i : InsnId) (s : SiteId) : Option Bound := do
  let receiver ← g.instanceArg? i
  let callee ← (g.insn i).callee
  guard callee.resolved
  if receiver = s then return .fixed .use (.raw callee.originClass)
  let n ← (g.insn i).args.idxOf? s
  guard (g.paramOffset i ≤ n)
  let t ← (callee.paramTypes[n - g.paramOffset i]?).join
  guard t.mentionsVar
  return .callArgument i s t

/-- The bound from a use; the operand of a soft cast is free. -/
def useBound? (g : MethodGraph) (s : SiteId) : Option Bound :=
  let declared := Bound.fixed .use (g.site s).declared
  match (g.site s).owner with
  | none => some declared
  | some i =>
    match (g.insn i).opcode with
    | .invoke | .constructor => some ((callUseBound? g i s).getD declared)
    | .checkCast => if (g.insn i).soft then none else some declared
    | _ => some declared

/-- The bounds from the definition and the uses of a variable. -/
def ownBounds (g : MethodGraph) (v : VarId) : List Bound :=
  let x := g.var v
  let defined := (x.assign.map (definitionBounds g v)).getD []
  (defined ++ x.uses.filterMap (useBound? g)).foldl addBound []

/-- The variables that a phi reads, after the one it defines. -/
def phiVars (g : MethodGraph) (phi : InsnId) : List VarId :=
  ((g.insn phi).result.toList ++ (g.insn phi).args).filterMap g.varOf?

/-- Adds the bounds of one variable to those of another. -/
def copyBounds (g : MethodGraph) (target source : VarId) : MethodGraph :=
  let bounds := (g.var source).bounds
  g.updateVar target fun x => { x with bounds := bounds.foldl addBound x.bounds }

/-- Adds to a variable the bounds of all that it meets in a phi. -/
def shareBounds (g : MethodGraph) (v : VarId) : MethodGraph :=
  ((g.var v).phis.flatMap (phiVars g)).foldl (fun g w => copyBounds g v w) g

/-- Drops all types and finds the bounds anew. -/
def initBounds (g : MethodGraph) : MethodGraph :=
  let g := g.live.foldl MethodGraph.resetVar g
  let g := g.live.foldl (fun g v =>
    let bounds := ownBounds g v
    g.updateVar v fun x => { x with bounds }) g
  g.live.foldl shareBounds g

end TypeRecovery.Inference
