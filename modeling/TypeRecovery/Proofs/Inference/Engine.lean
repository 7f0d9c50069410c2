import TypeRecovery.Proofs.Inference.Finishing
import TypeRecovery.Proofs.Inference.Resolvers
import TypeRecovery.Proofs.Listing.Build

/- What holds of the inference of every method that can be built. Until finishing, every known type
   passes the fixed bounds of its variable, and a pinned variable is open or has its pin. Finishing
   leaves a pinned variable alone once its type is known, but merges into one that the run left open:
   that is the only way in which a pin can be lost. -/
namespace TypeRecovery.Inference

open MethodGraph Listing

/-! ## The run -/

section
variable {m : MethodDecl} {b : Built}

/-- The graph in which a run starts its propagation. -/
theorem coherent_of_build (hb : m.build = .ok b) (c : Context) : Coherent c (pinVars b.graph) := by
  obtain ⟨hintact, htyping⟩ := build_intact hb
  exact coherent_pinVars hintact fun v => congrArg Prod.fst (htyping v)

/-- All graphs that a run goes through are coherent, with the pins that were set at first. -/
theorem coherent_of_through (hb : m.build = .ok b) {c : Context} {g : MethodGraph}
    (hg : Through run c b.graph g) :
    Coherent c g ∧ ∀ v, (g.var v).pin = ((pinVars b.graph).var v).pin := by
  have hstart := coherent_of_build hb c
  have hadv := advance_of_through_run hstart hg
  exact ⟨hadv.coherent hstart, hadv.pin⟩

/-- At every moment of a run a known type of a variable without a pin passes the fixed bounds that the
    variable has at that moment. -/
theorem run_keeps_fixed_bounds (hb : m.build = .ok b) (c : Context) {g : MethodGraph}
    (hg : Through run c b.graph g) {v : VarId} (hp : (g.var v).pin = none)
    (hk : (g.var v).ty.isKnown = true) {side : BoundSide} {t : Ty}
    (ht : Bound.fixed side t ∈ (g.var v).bounds) : admits c side t (g.var v).ty = true :=
  ((coherent_of_through hb hg).1.settled v hk).bounds hp side t ht

/-- Two numbers meet in a phi whose result is returned. -/
def joinedNumbers : MethodDecl :=
  { (default : MethodDecl) with
    cls := "a.Main"
    name := "pick"
    params := [{ (default : ParamDecl) with var := "a", type := "int" },
      { (default : ParamDecl) with var := "b", type := "int" }]
    blocks := [{ (default : BlockDecl) with
      insns := [
        { (default : InsnDecl) with op := "phi", result := "p", args := ["a", "b"], incoming := [0, 0] },
        { (default : InsnDecl) with op := "return", args := ["p:int"] }] }] }

/-- The first number is settled, and passes the bound of the returned value that it shares. -/
theorem run_keeps_fixed_bounds_at_phi :
    let c : Context := { hierarchy := Hierarchy.ofClasses [] }
    let b := joinedNumbers.build.toOption.getD default
    let g := (run.after c { graph := b.graph }).2.graph
    joinedNumbers.build = .ok b ∧ (g.var ⟨0⟩).pin = none ∧ (g.var ⟨0⟩).ty = Ty.int ∧
      Bound.fixed .use Ty.int ∈ (g.var ⟨0⟩).bounds ∧ admits c .use Ty.int (g.var ⟨0⟩).ty = true := by
  intro c b g
  have hb : joinedNumbers.build = .ok b := ok_getD (by decide +kernel)
  have hp : (g.var ⟨0⟩).pin = none := by decide +kernel
  have ht : (g.var ⟨0⟩).ty = Ty.int := by decide +kernel
  have hmem : Bound.fixed .use Ty.int ∈ (g.var ⟨0⟩).bounds := by decide +kernel
  have hk : (g.var ⟨0⟩).ty.isKnown = true := by rw [ht]; rfl
  exact ⟨hb, hp, ht, hmem, run_keeps_fixed_bounds hb c (.inr rfl) hp hk hmem⟩

/-- A pinned variable keeps its pin throughout a run and is at every moment open or of exactly that
    type. From then on no change that finishing makes touches its type once that is known. -/
theorem pinned_types_stand (hb : m.build = .ok b) (c : Context) :
    (∀ g, Through run c b.graph g → ∀ v, (g.var v).pin = ((pinVars b.graph).var v).pin ∧
      ∀ t, (g.var v).pin = some t → (g.var v).ty.isKnown = true → (g.var v).ty = t) ∧
    ∀ s v, (∀ x y, (finish.after c s).2.changes x y → (x.var v).isPinned = true →
        (x.var v).ty.isKnown = true → (y.var v).ty = (x.var v).ty) ∧
      ((s.graph.var v).isPinned = true → (s.graph.var v).ty.isKnown = true →
        ((finish.after c s).2.graph.var v).ty = (s.graph.var v).ty) := by
  refine ⟨fun g hg v => ?_, fun s v => ?_⟩
  · obtain ⟨hcoh, hpin⟩ := coherent_of_through hb hg
    exact ⟨hpin v, fun t ht hk => (hcoh.settled v hk).pin t ht⟩
  · have hkept := kept_finish (c := c) s
    refine ⟨fun x y hxy hp hk => ?_, hkept.graph.ty⟩
    rcases hkept.changes x y hxy with hf | ⟨-, hstep, -⟩
    · exact hf.elim
    · exact hstep.ty hp hk

/-- A text is pinned and returned as a number. -/
def returnedText : MethodDecl :=
  { (default : MethodDecl) with
    cls := "a.Main"
    name := "m"
    params := [{ (default : ParamDecl) with var := "x", type := "java.lang.String", pinned := true }]
    blocks := [{ (default : BlockDecl) with
      insns := [{ (default : InsnDecl) with op := "return", args := ["x:int"] }] }] }

/-- With all resolvers the run settles the text on its pin, and finishing leaves it there. -/
theorem pinned_types_stand_at_text :
    let c : Context := { hierarchy := Hierarchy.ofClasses [] }
    let b := returnedText.build.toOption.getD default
    let s := (run.after c { graph := b.graph }).2
    returnedText.build = .ok b ∧ (s.graph.var ⟨0⟩).pin = some (Ty.raw "java.lang.String") ∧
      (s.graph.var ⟨0⟩).ty = Ty.raw "java.lang.String" ∧
      ((finish.after c s).2.graph.var ⟨0⟩).ty = Ty.raw "java.lang.String" := by
  intro c b s
  have hb : returnedText.build = .ok b := ok_getD (by decide +kernel)
  obtain ⟨hrun, hfinish⟩ := pinned_types_stand hb c
  obtain ⟨hpins, hexact⟩ := hrun s.graph (.inr rfl) ⟨0⟩
  have hp : (s.graph.var ⟨0⟩).pin = some (Ty.raw "java.lang.String") := by
    rw [hpins]
    decide +kernel
  have hk : (s.graph.var ⟨0⟩).ty.isKnown = true := by decide +kernel
  have ht := hexact _ hp hk
  refine ⟨hb, hp, ht, ?_⟩
  rw [(hfinish s ⟨0⟩).2 (by rw [Var.isPinned, hp]; rfl) hk, ht]

/-! ## The outcome -/

/-- Without a fault, the outcome is what finishing makes of the run. -/
theorem infer_graph {c : Context} {g : MethodGraph} (hcode : g.noCode = false)
    (hok : (infer c g).fault = none) :
    (infer c g).graph = (finish.after c (run.after c { graph := g }).2).2.graph := by
  unfold infer at hok ⊢
  rw [hcode] at hok ⊢
  simp only [Bool.false_eq_true, if_false, after_bind] at hok ⊢
  generalize run.after c { graph := g } = r at hok ⊢
  obtain ⟨fault | _, s⟩ := r
  · -- the run itself has ended in a fault
    cases hok
  · simp only
    split <;> rfl

/-- A chain of changes that ends where a pinned variable is known has one at which it became known,
    with the type that it has in the end. -/
theorem settling_change {changes : MethodGraph → MethodGraph → Prop} {g g' : MethodGraph} {v : VarId}
    (hchain : Relation.ReflTransGen changes g g')
    (hlater : ∀ x y, changes x y → Finishing x y ∧ Finishing y g')
    (hp : (g'.var v).isPinned = true) (hk : (g'.var v).ty.isKnown = true)
    (hopen : (g.var v).ty.isKnown = false) :
    ∃ x y, changes x y ∧ (x.var v).ty.isKnown = false ∧ (y.var v).ty = (g'.var v).ty := by
  induction hchain using Relation.ReflTransGen.head_induction_on with
  | refl =>
    rw [hk] at hopen
    cases hopen
  | @head x y hxy _ ih =>
    obtain ⟨-, hy⟩ := hlater x y hxy
    cases hyk : (y.var v).ty.isKnown with
    | false => exact ih hyk
    | true => exact ⟨x, y, hxy, hopen, (hy.ty (hy.isPinned v ▸ hp) hyk).symm⟩

/-- A variable that was pinned to a known type ends with it exactly if the run has settled it, or if a
    change of finishing gives it that type while it is open. -/
theorem pinned_result_iff (hb : m.build = .ok b) (c : Context) (hcode : b.graph.noCode = false)
    (hok : (infer c b.graph).fault = none) {v : VarId} {t : Ty}
    (hp : ((pinVars b.graph).var v).pin = some t) (hk : t.isKnown = true) :
    ((infer c b.graph).graph.var v).ty = t ↔
      ((run.after c { graph := b.graph }).2.graph.var v).ty.isKnown = true ∨
      ∃ x y, (finish.after c (run.after c { graph := b.graph }).2).2.changes x y ∧
        (x.var v).ty.isKnown = false ∧ (y.var v).ty = t := by
  rw [infer_graph hcode hok]
  obtain ⟨hcoh, hpins⟩ := coherent_of_through (c := c) hb (.inr rfl)
  generalize (run.after c { graph := b.graph }).2 = s at hcoh hpins ⊢
  have hkept := kept_finish (c := c) s
  generalize (finish.after c s).2 = s' at hkept ⊢
  have hpin : (s.graph.var v).pin = some t := (hpins v).trans hp
  have hpinned : (s.graph.var v).isPinned = true := by rw [Var.isPinned, hpin]; rfl
  have hlater : ∀ x y, s'.changes x y → Finishing s.graph x ∧ Finishing x y ∧ Finishing y s'.graph := by
    intro x y hxy
    rcases hkept.changes x y hxy with hf | h
    · exact hf.elim
    · exact h
  constructor
  · intro hfinal
    cases hrun : (s.graph.var v).ty.isKnown with
    | true => exact .inl rfl
    | false =>
      right
      have hchange := settling_change hkept.chain (fun x y hxy => (hlater x y hxy).2)
        (hkept.graph.isPinned v ▸ hpinned) (by rw [hfinal]; exact hk) hrun
      rwa [hfinal] at hchange
  · rintro (hrun | ⟨x, y, hxy, -, hy⟩)
    · -- settled by the run: then on the pin, and finishing leaves it
      rw [hkept.graph.ty hpinned hrun]
      exact (hcoh.settled v hrun).pin t hpin
    · obtain ⟨hx, hstep, hend⟩ := hlater x y hxy
      have hyp : (y.var v).isPinned = true := by
        rw [hstep.isPinned, hx.isPinned]
        exact hpinned
      rw [hend.ty hyp (by rw [hy]; exact hk), hy]

/-- With deduction alone the run leaves the text open, and finishing makes a number of it: no change of
    finishing gives it its pin. -/
theorem pinned_result_iff_at_text :
    let c : Context :=
      { hierarchy := Hierarchy.ofClasses [], config := { resolvers := [.deduceTypes] } }
    let b := returnedText.build.toOption.getD default
    returnedText.build = .ok b ∧ (infer c b.graph).fault = none ∧
      ((pinVars b.graph).var ⟨0⟩).pin = some (Ty.raw "java.lang.String") ∧
      ((infer c b.graph).graph.var ⟨0⟩).ty = Ty.int ∧
      ¬∃ x y, (finish.after c (run.after c { graph := b.graph }).2).2.changes x y ∧
        (x.var ⟨0⟩).ty.isKnown = false ∧ (y.var ⟨0⟩).ty = Ty.raw "java.lang.String" := by
  intro c b
  have hb : returnedText.build = .ok b := ok_getD (by decide +kernel)
  have hok : (infer c b.graph).fault = none := by decide +kernel
  have hp : ((pinVars b.graph).var ⟨0⟩).pin = some (Ty.raw "java.lang.String") := by decide +kernel
  have ht : ((infer c b.graph).graph.var ⟨0⟩).ty = Ty.int := by decide +kernel
  refine ⟨hb, hok, hp, ht, fun hchange => ?_⟩
  have hpin := (pinned_result_iff hb c (by decide +kernel) hok hp rfl).mpr (.inr hchange)
  rw [ht] at hpin
  cases hpin

end
end TypeRecovery.Inference
