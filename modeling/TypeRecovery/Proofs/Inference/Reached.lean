import TypeRecovery.Proofs.Inference.Upkeep
import TypeRecovery.Proofs.Listing.Build
import TypeRecovery.Proofs.Listing.Wiring

/- The graphs that resolvers can reach from the graph of a method, in any order and with any faults on
   the way. If all variables of the method have a definition, then all these graphs are well formed, and
   the resolvers that insert casts, split constants and insert moves change the code by copies only. -/
namespace TypeRecovery.Inference

open MethodGraph Listing

section
variable {c : Context} {g : MethodGraph} {P : Set VarId}

/-! ## One step -/

theorem sameLinks_pinVar (v : VarId) (t : Ty) : SameLinks g (g.pinVar v t) := by
  have hpin : SameLinks g (g.updateVar v fun x => { x with pin := some t }) := by
    have hvar {α : Type} (f : Var → α) (hf : ∀ x : Var, f { x with pin := some t } = f x) :=
      g.updateVar_same (v := v) f hf
    exact ⟨fun _ => rfl, fun _ => rfl, rfl, fun _ => ⟨rfl, rfl⟩, fun _ => rfl, fun _ => ⟨rfl, rfl⟩,
      fun w => ⟨hvar Var.uses (fun _ => rfl) w, hvar Var.phis (fun _ => rfl) w⟩,
      hvar Var.assign fun _ => rfl, Array.size_modify, rfl, rfl⟩
  unfold pinVar
  simp only
  split
  · refine trans_of SameLinks hpin ?_
    exact sameLinks_updateSite _ (fun _ => rfl) fun _ => rfl
  · exact hpin

theorem sameLinks_pinVars (g : MethodGraph) : SameLinks g (pinVars g) := by
  refine rel_foldl (R := SameLinks) (fun v _ g' => ?_) g
  split
  · exact refl_of SameLinks g'
  · split
    · exact sameLinks_pinVar v _
    · exact refl_of SameLinks g'

/-- Nothing is open in the graph, and its types pass their bounds. -/
structure Sound (P : Set VarId) (c : Context) (g : MethodGraph) : Prop where
  wired : g.Wired P ∅ ∅
  coherent : Coherent c g

/-- What a step keeps both in the links and in the types holds afterwards, with a fault or without. -/
theorem Sound.after {α : Type} {m : Infer α} {s : Session} (h : Sound P c s.graph)
    (hlinks : Upholds P c s.graph m) (htypes : Steps (Advance c) c s.graph m anyResult) :
    Sound P c (m.after c s).2.graph :=
  ⟨Ends.iff_after.mp hlinks s rfl, (htypes s (refl_of (Advance c) _)).1.graph.coherent h.coherent⟩

/-! ## All that can be reached -/

/-- A graph that inference can come to from the graph `g`: `g` itself with or without its pins, and
    what starting over or a resolver makes of a graph that was reached, even if a fault ends it. -/
inductive Reached (c : Context) (g : MethodGraph) : MethodGraph → Prop where
  | start : Reached c g g
  | pinned : Reached c g (pinVars g)
  | reinit (s : Session) : Reached c g s.graph → Reached c g (reinit.after c s).2.graph
  | resolver (r : Resolver) (s : Session) :
      Reached c g s.graph → Reached c g ((resolverStep r).after c s).2.graph

theorem sound_of_reached (hstart : Sound P c g) (hpinned : Coherent c (pinVars g)) {g' : MethodGraph}
    (h : Reached c g g') : Sound P c g' := by
  induction h with
  | start => exact hstart
  | pinned => exact ⟨hstart.wired.congr (sameLinks_pinVars g), hpinned⟩
  | reinit s _ ih => exact ih.after (ends_reinit (typeless_wired P) ih.wired) steps_reinit
  | resolver r s _ ih =>
    exact ih.after (upholds_resolverStep ih.wired ih.coherent r) (steps_resolverStep ih.coherent r)

/-! ## Methods -/

/-- Every variable of the graph has a definition. -/
def Defined (g : MethodGraph) : Prop := ∀ v ∈ g.live, (g.var v).assign.isSome = true

instance : Decidable (Defined g) := inferInstanceAs (Decidable (∀ v ∈ g.live, _))

variable {m : MethodDecl} {b : Built}

/-- A method whose variables all have a definition starts with nothing open. -/
theorem sound_of_build (hb : m.build = .ok b) (hdef : Defined b.graph) (c : Context) :
    Sound (paramVars m b.named) c b.graph := by
  have h := wired_build hb
  obtain ⟨hintact, htyping⟩ := build_intact hb
  refine ⟨⟨h.slots, h.lists, h.seats, h.names, h.tight, fun v hv _ => h.defined v hv fun hn => ?_⟩,
    hintact, fun v => settled_of_open (congrArg Prod.fst (htyping v))⟩
  have hsome := hdef v ((mem_live h.names).mpr hv)
  rw [show (b.graph.var v).assign = none from hn] at hsome
  cases hsome

theorem sound_of_build_reached (hb : m.build = .ok b) (hdef : Defined b.graph) {g : MethodGraph}
    (hg : Reached c b.graph g) : Sound (paramVars m b.named) c g := by
  obtain ⟨hintact, htyping⟩ := build_intact hb
  exact sound_of_reached (sound_of_build hb hdef c)
    (coherent_pinVars hintact fun v => congrArg Prod.fst (htyping v)) hg

/-- If every variable of a method has a definition, then its graph is well formed, and so is every
    graph that the resolvers reach from it, in any order, as often as they like, and also where one
    ends in a fault. -/
theorem resolvers_keep_wellFormed (hb : m.build = .ok b) (hdef : Defined b.graph) (c : Context) :
    b.graph.WellFormed (paramVars m b.named) ∧
      ∀ g, Reached c b.graph g → g.WellFormed (paramVars m b.named) :=
  ⟨(sound_of_build hb hdef c).wired.wellFormed, fun _ hg =>
    (sound_of_build_reached hb hdef hg).wired.wellFormed⟩

/-- A zero that is thrown, and that also meets a number. -/
def thrownZero : MethodDecl :=
  { (default : MethodDecl) with
    cls := "a.Main"
    name := "m"
    params := [{ (default : ParamDecl) with var := "a", type := "int" }]
    blocks := [{ (default : BlockDecl) with
      insns := [
        { (default : InsnDecl) with op := "const", result := "z", args := ["#0"] },
        { (default : InsnDecl) with op := "phi", result := "p", args := ["a", "z"], incoming := [0, 0] },
        { (default : InsnDecl) with op := "throw", args := ["z:java.lang.Error"] },
        { (default : InsnDecl) with op := "return", args := ["p:int"] }] }] }

/-- The search ends in a fault on it; then the constant is split, which adds an instruction and a
    variable. -/
theorem resolvers_keep_wellFormed_at_zero :
    let c : Context := { hierarchy := Hierarchy.ofClasses [] }
    let b := thrownZero.build.toOption.getD default
    let s := (reinit.after c { graph := pinVars b.graph }).2
    let searched := (resolverStep .search).after c s
    let split := (resolverStep .splitConsts).after c searched.2
    thrownZero.build = .ok b ∧ Defined b.graph ∧ searched.1.toOption = none ∧
      split.1.toOption = some true ∧ split.2.graph.placed.length = b.graph.placed.length + 1 ∧
      split.2.graph.live.length = b.graph.live.length + 1 ∧
      split.2.graph.WellFormed (paramVars thrownZero b.named) := by
  intro c b s searched split
  have hb : thrownZero.build = .ok b := ok_getD (by decide +kernel)
  have hdef : Defined b.graph := by decide +kernel
  have hruns : searched.1.toOption = none ∧ split.1.toOption = some true ∧
      split.2.graph.placed.length = b.graph.placed.length + 1 ∧
      split.2.graph.live.length = b.graph.live.length + 1 := by decide +kernel
  obtain ⟨hsearch, hsplit, hplaced, hlive⟩ := hruns
  have hwf : ∀ x, x = (resolverStep .splitConsts).after c searched.2 →
      x.2.graph.WellFormed (paramVars thrownZero b.named) := by
    rintro _ rfl
    have hs := Reached.reinit (c := c) { graph := pinVars b.graph } Reached.pinned
    exact (resolvers_keep_wellFormed hb hdef c).2 _ (.resolver _ _ (.resolver _ _ hs))
  exact ⟨hb, hdef, hsearch, hsplit, hplaced, hlive, hwf split rfl⟩

/-- Where the links of a graph are in order and nothing in it is open, inserting casts, splitting constants
    and inserting moves only adds copies. These resolvers may run in any order, as often as they like, and
    also into faults: the code contracts to what it was. The graph of a method whose variables all have a
    definition is of this kind, and so is every graph that resolvers reach from it. -/
theorem copying_resolvers_contract {s : Session} (hs : s.graph.Wired P ∅ ∅) {rs : List Resolver}
    (hrs : ∀ r ∈ rs, r ∈ copying) :
    ∃ original name, Contraction s.graph (runAll c rs s).graph original name :=
  (contracted_runAll hrs (contracted_refl hs)).contraction

/-- A method that uses a constant as a text, as a number and as an error, and a text as a type
    variable. -/
def mixedZero : MethodDecl :=
  { (default : MethodDecl) with
    cls := "a.Main"
    name := "m"
    typeVars := ["T"]
    params := [{ (default : ParamDecl) with var := "a", type := "int" },
      { (default : ParamDecl) with var := "x", type := "java.lang.String" }]
    blocks := [
      { (default : BlockDecl) with
        succs := [1, 2]
        insns := [{ (default : InsnDecl) with op := "const", result := "z", args := ["#0"] }] },
      { (default : BlockDecl) with succs := [2] },
      { (default : BlockDecl) with
        insns := [
          { (default : InsnDecl) with
            op := "phi", result := "p", args := ["x", "z"], incoming := [0, 1] },
          { (default : InsnDecl) with
            op := "phi", result := "q", args := ["a", "z"], incoming := [0, 1] },
          { (default : InsnDecl) with op := "throw", args := ["z:java.lang.Error"] },
          { (default : InsnDecl) with op := "return", args := ["x:T"] }] }] }

/-- Each of the three resolvers adds copies to it. -/
theorem copying_resolvers_contract_at_mixedZero :
    let c : Context := { hierarchy := Hierarchy.ofClasses [] }
    let b := mixedZero.build.toOption.getD default
    let s := (reinit.after c { graph := pinVars b.graph }).2
    let size := fun rs => (runAll c rs s).graph.placed.length
    mixedZero.build = .ok b ∧ Defined b.graph ∧ Reached c b.graph s.graph ∧
      size [] = 5 ∧ size [.insertMoves] = 7 ∧ size [.insertMoves, .insertCasts] = 9 ∧
      size [.insertMoves, .insertCasts, .splitConsts] = 10 ∧
      ∃ original name, Contraction s.graph
        (runAll c [.insertMoves, .insertCasts, .splitConsts] s).graph original name := by
  intro c b s size
  have hb : mixedZero.build = .ok b := ok_getD (by decide +kernel)
  have hdef : Defined b.graph := by decide +kernel
  have hs := Reached.reinit (c := c) { graph := pinVars b.graph } Reached.pinned
  have hsizes : size [] = 5 ∧ size [.insertMoves] = 7 ∧ size [.insertMoves, .insertCasts] = 9 ∧
      size [.insertMoves, .insertCasts, .splitConsts] = 10 := by decide +kernel
  obtain ⟨hnone, hmoves, hcasts, hsplit⟩ := hsizes
  refine ⟨hb, hdef, hs, hnone, hmoves, hcasts, hsplit, ?_⟩
  exact copying_resolvers_contract (sound_of_build_reached hb hdef hs).wired (by simp [copying])

end
end TypeRecovery.Inference
