import TypeRecovery.Inference.Engine
import TypeRecovery.Proofs.Inference.Wheels

/- Each resolver advances: what it does to the code is a sequence of edits that keep the graph intact,
   what it does to types are attempts and, for the search and pinned arrays, writes of types that fit.
   So the whole run advances from the graph with its pins, through every change that it makes, also
   where a fault cuts a resolver short. -/
namespace TypeRecovery.Inference

open MethodGraph

section
variable {c : Context} {g : MethodGraph}

/-! ## Casts -/

theorem edited_tally {α : Type} {step : MethodGraph → α → Nat × MethodGraph}
    (h : ∀ g, g.Intact → ∀ a, Edited g (step g a).2) (l : List α) (hg : g.Intact) :
    Edited g (tally step l g).2 := by
  induction l generalizing g with
  | nil => exact .refl g
  | cons a l ih =>
    have ha := h g hg a
    exact ha.trans (ih (ha.intact hg))

theorem edited_restoreCasts (hg : g.Intact) (v : VarId) : Edited g (restoreCasts c g v).2 := by
  unfold restoreCasts
  split
  · exact .refl g
  · refine edited_tally (fun g' _ i => ?_) _ hg
    simp only
    split
    · exact edited_touchInsn fun _ => rfl
    · exact .refl g'

/-- Edits that are counted: where there were some, they are reported and inference starts over. -/
theorem steps_counted (hg : Coherent c g) {f : MethodGraph → Nat × MethodGraph}
    (hf : ∀ g, g.Intact → Edited g (f g).2) (notice : Nat → Notice) :
    Steps (Advance c) c g (do
      let n ← edit f
      if n = 0 then return false
      report (notice n)
      reinit
      return true) anyResult := by
  refine .bind' (.change' fun g' hg' => ?_) fun _ _ _ _ => .ite' (fun _ => .done' _) fun _ => ?_
  · exact advance_of_edited (hf g' (hg'.coherent hg).intact)
  · exact .bind' (.report' _) fun _ _ _ _ => .bind' steps_reinit fun _ _ _ _ => .done' _

theorem steps_restoreTypeVarCasts (hg : Coherent c g) :
    Steps (Advance c) c g restoreTypeVarCasts anyResult := by
  refine .read' (steps_counted hg (fun g' h => ?_) _)
  exact edited_tally (fun _ h v => edited_restoreCasts h v) _ h

theorem edited_castDefinition (hg : g.Intact) (v : VarId) (t : Ty) :
    Edited g (castDefinition g v t).2 := by
  unfold castDefinition
  split
  · next s i hs hi =>
    split
    · exact .refl g
    · -- the definition moves to a fresh variable, and the cast defines the old one
      have hheld : g.Holds s := hg.ofVar v s (by simp [Var.sites, hs])
      have hfresh := edited_freshResult (g := g) i s
      simp only
      refine Edited.trans (Edited.trans hfresh ?_) (edited_insertAfter _ _)
      refine edited_buildFrom ?_ (hfresh.holds hheld) _
      rfl
  · exact .refl g

theorem edited_castUse (s : SiteId) : Edited g (castUse g s).2 := by
  unfold castUse
  split
  · exact .refl g
  · next i _ =>
    split
    · exact .refl g
    · -- the cast reads a copy of the use and defines a fresh variable, which the instruction then reads
      simp only
      have hcast : Edited g (((g.duplicateFresh s).2.duplicate s).2.buildInsn
          { opcode := .checkCast, type := some (g.site s).declared, soft := true, synthetic := true }
          (some (g.duplicateFresh s).1) [((g.duplicateFresh s).2.duplicate s).1]).2 :=
        (edited_duplicateFresh s).trans (edited_buildFrom rfl (holds_duplicateFresh s) s)
      have harg := hcast.trans (edited_replaceByCopy i s (g.duplicateFresh s).1)
      split
      · next he =>
        rw [he] at harg
        exact harg
      · next he =>
        rw [he] at harg
        exact harg.trans (edited_insertBefore _ _)

theorem edited_insertVarCasts (hg : g.Intact) (v : VarId) : Edited g (insertVarCasts c g v).2 := by
  unfold insertVarCasts
  split
  · exact .refl g
  · next t _ =>
    have hdef := edited_castDefinition hg v t
    split
    · next he =>
      rw [he] at hdef
      exact hdef
    · next he =>
      rw [he] at hdef
      exact hdef.trans (edited_tally (fun g' _ s => edited_castUse s) _ (hdef.intact hg))

theorem steps_insertCasts (hg : Coherent c g) : Steps (Advance c) c g insertCasts anyResult := by
  refine .read' (steps_counted hg (fun g' h => ?_) fun n => .inserted n "cast")
  exact edited_tally (fun _ h v => edited_insertVarCasts h v) _ h

/-! ## Constants -/

theorem edited_copyAfter (i : InsnId) (synthetic : Bool) : Edited g (copyAfter g i synthetic).2 := by
  unfold copyAfter
  simp only
  refine Edited.trans ?_ (edited_insertAfter _ _)
  split
  · exact (edited_copyFresh i).trans (edited_touchInsn fun _ => rfl)
  · exact edited_copyFresh i

theorem edited_redirect (i : InsnId) (s : SiteId) (v : VarId) : Edited g (redirect g i s v) :=
  (edited_newSite _).trans (edited_replaceArg i s (holds_newSite _))

theorem edited_splitByPhi (v : VarId) : Edited g (splitByPhi g v).2 := by
  unfold splitByPhi
  split
  · next i _ phi phis _ _ =>
    -- one phi after the other; each gets its copy in the graph that the ones before it left
    refine rel_foldl (R := Edited) (fun phi _ g' => ?_) g
    have hcopy := edited_copyAfter (g := g') i true
    split
    · next he =>
      rw [he] at hcopy
      split
      · exact hcopy.trans (edited_redirect _ _ _)
      · exact hcopy
    · next he =>
      rw [he] at hcopy
      exact hcopy
  · exact .refl g

theorem edited_splitByUse (v : VarId) : Edited g (splitByUse g v).2 := by
  unfold splitByUse
  split
  · next i _ use uses _ _ =>
    refine rel_foldl (R := Edited) (fun s _ g' => ?_) g
    split
    · exact .refl g'
    · have hcopy := edited_copyAfter (g := g') i false
      split
      · next he =>
        rw [he] at hcopy
        exact hcopy.trans (edited_redirect _ _ _)
      · next he =>
        rw [he] at hcopy
        exact hcopy
  · exact .refl g

theorem steps_splitConst (v : VarId) : Steps (Advance c) c g (splitConst v) anyResult := by
  refine .change' fun g' _ => advance_of_edited ?_
  simp only
  split
  · exact .refl g'
  · have hphi := edited_splitByPhi (g := g') v
    split
    · next he =>
      rw [he] at hphi
      exact hphi
    · next he =>
      rw [he] at hphi
      exact hphi.trans (edited_splitByUse v)

theorem steps_splitConsts : Steps (Advance c) c g splitConsts anyResult := by
  refine .theGraph' fun _ _ => .bind' (.anyOf' _ fun v _ _ _ => steps_splitConst v) fun _ _ _ _ => ?_
  refine .ite' (fun _ => ?_) fun _ => .done' _
  exact .bind' steps_reinit fun _ _ _ _ => .done' _

/-! ## Further types -/

theorem steps_changes (v : VarId) (flags : Flags) (t : Ty) :
    Steps (Retyped c) c g (changes v flags t) anyResult :=
  .bind' (steps_apply v t flags) fun _ _ _ _ => .done' _

theorem steps_deduceType (v : VarId) : Steps (Retyped c) c g (deduceType v) anyResult := by
  refine .theGraph' fun _ _ => .ite' (fun _ => .done' _) fun _ => ?_
  refine .bind' (steps_applyBest v) fun _ _ _ _ => .ite' (fun _ => .done' _) fun _ => ?_
  refine .read' (.theGraph' fun _ _ => ?_)
  refine .bind' (.firstOf' _ fun t _ _ _ => steps_changes v _ t) fun _ _ _ _ => ?_
  refine .ite' (fun _ => .done' _) fun _ => .read' (.theGraph' fun _ _ => ?_)
  exact .firstOf' _ fun t _ _ _ => steps_changes v _ t

theorem steps_deduceTypes : Steps (Retyped c) c g deduceTypes anyResult :=
  .theGraph' fun _ _ => .anyOf' _ fun v _ _ _ => steps_deduceType v

/-- A pinned variable takes its pin, which fits it. -/
theorem steps_forcePin (v : VarId) : Steps (Retyped c) c g (forcePin v) anyResult := by
  refine .change' fun g' _ => ?_
  simp only
  split
  · exact retyped_setVarType fun u hu _ => fits_pin hu
  · exact refl_of (Retyped c) g'

theorem steps_forceImmutable : Steps (Retyped c) c g forceImmutable anyResult := by
  refine .theGraph' fun _ _ => .bind' (.anyOf' _ fun v _ _ _ => steps_forcePin v) fun _ _ _ _ => ?_
  refine .ite' (fun _ => ?_) fun _ => .done' _
  exact .bind' steps_propagate fun _ _ _ _ => .done' _

theorem steps_applyRaw (v : VarId) : Steps (Retyped c) c g (applyRaw v) anyResult := by
  refine .read' (.theGraph' fun _ _ => ?_)
  refine .bind' (.firstOf' _ fun t _ _ _ => steps_changes v _ _) fun _ _ _ _ => ?_
  refine .ite' (fun _ => .theGraph' fun _ _ => ?_) fun _ => .done' _
  exact .bind' (.report' _) fun _ _ _ _ => .done' _

theorem steps_removeGenerics : Steps (Retyped c) c g removeGenerics anyResult := by
  refine .theGraph' fun _ _ => .bind' (.anyOf' _ fun v _ _ _ => ?_) fun _ _ _ _ => ?_
  · refine .theGraph' fun _ _ => .ite' (fun _ => .done' _) fun _ => ?_
    exact .bind' (steps_applyRaw v) fun _ _ _ _ => .done' _
  · exact .done' _

/-! ## Moves -/

theorem steps_totalOf {α : Type} {step : α → Infer Nat}
    (h : ∀ a g, Steps (Advance c) c g (step a) anyResult) (l : List α) :
    Steps (Advance c) c g (totalOf step l) anyResult := by
  induction l generalizing g with
  | nil => exact .done' _
  | cons a l ih =>
    refine .bind' (h a g) fun _ _ _ _ => .bind' ih fun _ _ _ _ => ?_
    exact .done' _

theorem steps_allPlaced (inputs : List (SiteId × Option BlockId)) :
    Steps (Advance c) c g (allPlaced inputs) anyResult := by
  induction inputs generalizing g with
  | nil => exact .done' _
  | cons input inputs ih =>
    obtain ⟨s, _ | b⟩ := input
    · exact .bind' (.report' _) fun _ _ _ _ => .done' _
    · refine .theGraph' fun _ _ => ?_
      split
      · exact .throw' _
      · exact .bind' (.report' _) fun _ _ _ _ => .done' _
      · exact ih

theorem steps_moveInput (phi : InsnId) (input : SiteId × Option BlockId) :
    Steps (Advance c) c g (moveInput phi input) anyResult := by
  refine .theGraph' fun _ _ => ?_
  split
  · refine .ite' (fun _ => .done' _) fun _ => ?_
    split
    · exact .throw' _
    · exact .throw' _
    · -- the move reads the input and defines a fresh variable, which the phi reads from then on
      refine .change' fun g' _ => advance_of_edited ?_
      simp only
      refine Edited.trans ?_ (edited_replaceByCopy _ _ _)
      refine Edited.trans ?_ (edited_insertAt _ _ _)
      refine (edited_duplicateFresh _).trans (edited_buildFrom ?_ (holds_duplicateFresh _) _)
      rfl
  · exact .done' _

theorem steps_movePhiInputs (phi : InsnId) : Steps (Advance c) c g (movePhiInputs phi) anyResult := by
  refine .theGraph' fun _ _ => .ite' (fun _ => .done' _) fun _ => ?_
  refine .bind' (steps_allPlaced _) fun _ _ _ _ => .ite' (fun _ => .done' _) fun _ => ?_
  exact steps_totalOf (fun input _ => steps_moveInput phi input) _

theorem steps_insertMoves : Steps (Advance c) c g insertMoves anyResult := by
  refine .theGraph' fun _ _ => .bind' (steps_totalOf (fun b _ => ?_) _) fun _ _ _ _ => ?_
  · exact .theGraph' fun _ _ => steps_totalOf (fun phi _ => steps_movePhiInputs phi) _
  · refine .ite' (fun _ => .done' _) fun _ => ?_
    refine .bind' (.report' _) fun _ _ _ _ => .bind' steps_reinit fun _ _ _ _ => ?_
    refine .theGraph' fun _ _ => .ite' (fun _ => .done' _) fun _ => ?_
    exact .advance fun _ _ => steps_deduceTypes

/-! ## Truth values -/

theorem edited_conversion {result : Option SiteId} (hr : ∀ u, result = some u → g.Holds u) (s : SiteId)
    (t : Option Ty) :
    Edited g (let (test, g) := g.duplicate s
      let g := g.updateSite test fun x => { x with declared := Ty.boolean }
      let (one, g) := g.newLit 1 t
      let (zero, g) := g.newLit 0 t
      (g.buildInsn { opcode := .ternary, synthetic := true } result [test, one, zero]).2) := by
  simp only
  have htest : Edited g ((g.duplicate s).2.updateSite (g.duplicate s).1
      fun x => { x with declared := Ty.boolean }) :=
    (edited_newSite _).trans (edited_updateSite fun _ => rfl)
  have hheld : ((g.duplicate s).2.updateSite (g.duplicate s).1
      fun x => { x with declared := Ty.boolean }).Holds (g.duplicate s).1 := by
    rw [Holds, size_updateSite]
    exact holds_newSite _
  generalize (g.duplicate s).2.updateSite (g.duplicate s).1
    (fun x => { x with declared := Ty.boolean }) = g₁ at htest hheld ⊢
  have hone : Edited g₁ (g₁.newLit 1 t).2 := edited_newSite _
  have hzero : Edited (g₁.newLit 1 t).2 ((g₁.newLit 1 t).2.newLit 0 t).2 := edited_newSite _
  have hlits := hone.trans hzero
  refine (htest.trans hlits).trans (edited_buildInsn rfl (fun u hu => ?_) fun u hu => ?_)
  · exact (htest.trans hlits).holds (hr u hu)
  · simp only [List.mem_cons, List.not_mem_nil, or_false] at hu
    rcases hu with rfl | rfl | rfl
    · exact hlits.holds hheld
    · exact hzero.holds (holds_newSite _)
    · exact holds_newSite _

theorem steps_buildConversion {result : Option SiteId} (hr : ∀ u, result = some u → g.Holds u)
    (cond : VarId) (t : Option Ty) :
    Steps (Advance c) c g (buildConversion result cond t) anyResult := by
  refine .theGraph' fun g₁ h₁ => ?_
  split
  · exact .throw' _
  · next s _ =>
    refine .change' fun g₂ h₂ => advance_of_edited (edited_conversion (fun u hu => ?_) s t)
    exact h₂.holds (h₁.holds (hr u hu))

theorem edited_buildNegation {result operand : SiteId} (hr : g.Holds result) (ho : g.Holds operand) :
    Edited g (buildNegation g result operand).2 := by
  have hsite : Edited g (g.updateSite operand fun x => { x with declared := Ty.boolean }) :=
    edited_updateSite fun _ => rfl
  refine hsite.trans (edited_buildInsn rfl (fun u hu => ?_) fun u hu => ?_)
  · cases hu
    exact hsite.holds hr
  · rw [List.mem_singleton.mp hu]
    exact hsite.holds ho

theorem steps_negateXor (hg : Coherent c g) (i : InsnId) (s : SiteId) :
    Steps (Advance c) c g (negateXor i s) anyResult := by
  refine .theGraph' fun g₁ h₁ => ?_
  split
  · exact .throw' _
  · next result hres =>
    have hr : g₁.Holds result := (h₁.coherent hg).intact.ofInsn i result (by simp [Insn.sites, hres])
    have hcopy : Steps (Advance c) c g₁ (edit fun g => g.duplicate s) fun u g' => g'.Holds u :=
      .edit' fun _ _ => ⟨advance_of_edited (edited_newSite _), holds_newSite _⟩
    refine .bind' hcopy fun operand g₂ h₂ ho => .theGraph' fun g₃ h₃ => .ite' (fun _ => ?_) fun _ => ?_
    · refine .bind' (.change' fun g₄ h₄ => advance_of_edited (edited_buildNegation ?_ ?_))
        fun _ _ _ _ => .change' fun _ _ => advance_of_edited (edited_replaceInsn _ _)
      · exact h₄.holds (h₃.holds (h₂.holds hr))
      · exact h₄.holds (h₃.holds ho)
    · -- the negation goes to a fresh variable, and the old result is converted from that
      have hfresh : Steps (Advance c) c g₃ (edit fun g =>
          let (fresh, g) := g.duplicateFresh result
          (fresh, g.updateSite fresh fun x => { x with declared := Ty.boolean }))
          fun u g' => g'.Holds u := by
        refine .edit' fun g' _ => ⟨advance_of_edited ?_, ?_⟩
        · exact (edited_duplicateFresh _).trans (edited_updateSite fun _ => rfl)
        · simp only
          rw [Holds, size_updateSite]
          exact holds_duplicateFresh _
      refine .bind' hfresh fun fresh g₄ h₄ hf => ?_
      refine .bind' (.change' fun g₅ h₅ => advance_of_edited (edited_buildNegation (h₅.holds hf) ?_))
        fun _ g₅ h₅ _ => ?_
      · exact h₅.holds (h₄.holds (h₃.holds ho))
      · refine .bind' (.change' fun _ _ => advance_of_edited (edited_insertBefore _ _))
          fun _ g₆ h₆ _ => ?_
        refine .ite' (fun _ => .done' _) fun _ => .theGraph' fun g₇ h₇ => ?_
        split
        · exact .throw' _
        · refine .bind' (steps_buildConversion (fun u hu => ?_) _ _) fun _ _ _ _ => ?_
          · cases hu
            exact h₇.holds (h₆.holds (h₅.holds (h₄.holds (h₃.holds (h₂.holds hr)))))
          · exact .change' fun _ _ => advance_of_edited (edited_replaceInsn _ _)

theorem steps_convertUse (i : InsnId) (s : SiteId) (cond : VarId) (t : Ty) :
    Steps (Advance c) c g (convertUse i s cond t) anyResult := by
  have hfresh : Steps (Advance c) c g (edit fun g => g.duplicateFresh s) fun u g' => g'.Holds u :=
    .edit' fun _ _ => ⟨advance_of_edited (edited_duplicateFresh s), holds_duplicateFresh s⟩
  refine .bind' hfresh fun result g₁ h₁ hr => ?_
  refine .bind' (steps_buildConversion (fun u hu => ?_) _ _) fun _ _ _ _ => ?_
  · cases hu
    exact hr
  · refine .bind' (.change' fun _ _ => advance_of_edited (edited_insertBefore _ _)) fun _ _ _ _ => ?_
    refine .ite' (fun _ => .done' _) fun _ => ?_
    exact .change' fun _ _ => advance_of_edited (edited_replaceByCopy i s result)

theorem steps_fixTruthUse (hg : Coherent c g) (s : SiteId) :
    Steps (Advance c) c g (fixTruthUse s) anyResult := by
  refine .theGraph' fun g₁ h₁ => .ite' (fun _ => .done' _) fun _ => ?_
  have hg₁ := h₁.coherent hg
  split
  · next i v _ _ =>
    refine .ite' (fun _ => .done' _) fun _ => ?_
    split
    · exact .done' _
    · refine .bind' (steps_buildConversion (fun u hu => ?_) v _) fun _ _ _ _ => ?_
      · exact hg₁.intact.ofInsn i u (by simp [Insn.sites, hu])
      · exact .change' fun _ _ => advance_of_edited (edited_replaceInsn _ _)
    · exact .ite' (fun _ => steps_negateXor hg₁ i s) fun _ => steps_convertUse i s v _
  · exact .done' _

theorem steps_fixTruth (hg : Coherent c g) (v : VarId) :
    Steps (Advance c) c g (fixTruth v) anyResult := by
  refine .theGraph' fun g₁ h₁ => .read' (.ite' (fun _ => .done' _) fun _ => ?_)
  exact .anyOf' _ fun s _ g₂ h₂ => steps_fixTruthUse (h₂.coherent (h₁.coherent hg)) s

theorem steps_fixPrimitives (hg : Coherent c g) : Steps (Advance c) c g fixPrimitives anyResult := by
  refine .theGraph' fun g₁ h₁ => .bind' (.anyOf' _ fun v _ g₂ h₂ => ?_) fun _ _ _ _ => ?_
  · exact steps_fixTruth (h₂.coherent (h₁.coherent hg)) v
  · refine .ite' (fun _ => ?_) fun _ => .done' _
    exact .bind' steps_reinit fun _ _ _ _ => .done' _

/-! ## The run -/

theorem steps_resolverStep (hg : Coherent c g) (r : Resolver) :
    Steps (Advance c) c g (resolverStep r) anyResult := by
  cases r with
  | restoreTypeVarCasts => exact steps_restoreTypeVarCasts hg
  | insertCasts => exact steps_insertCasts hg
  | deduceTypes => exact .advance fun _ _ => steps_deduceTypes
  | splitConsts => exact steps_splitConsts
  | fixPrimitives => exact steps_fixPrimitives hg
  | forceImmutable => exact .advance fun _ _ => steps_forceImmutable
  | insertMoves => exact steps_insertMoves
  | search => exact .advance fun _ h => steps_search (h.coherent hg)
  | removeGenerics => exact .advance fun _ _ => steps_removeGenerics

section
variable {K : MethodGraph → MethodGraph → Prop} [IsPreorder MethodGraph K]

theorem Steps.resolve' {r : Resolver} (h : Steps K c g (resolverStep r) anyResult) :
    Steps K c g (resolve r) anyResult := by
  -- a fault that does not end the method is reported, in the graph that the resolver left behind
  refine .tryCatch' h fun fault g' _ => .ite' (fun _ => ?_) fun _ => ?_
  · refine .bind' (Q := anyResult) (.throw' _) fun _ _ _ _ => .bind' (.report' _) fun _ _ _ _ => ?_
    exact .done' _
  · exact .bind' (.report' _) fun _ _ _ _ => .done' _

/-- Resolvers that each move along a relation do so together. -/
theorem Steps.escalate' (rs : List Resolver)
    (h : ∀ r ∈ rs, ∀ g', K g g' → Steps K c g' (resolverStep r) anyResult) :
    Steps K c g (escalate rs) anyResult := by
  induction rs generalizing g with
  | nil => exact .done' _
  | cons r rs ih =>
    have hfirst := (h r List.mem_cons_self g (refl_of K g)).resolve'
    refine .bind' hfirst fun _ g₁ h₁ _ => .theGraph' fun g₂ h₂ => .ite' (fun _ => .note' _) fun _ => ?_
    exact ih fun r' hr' g₃ h₃ => h r' (List.mem_cons_of_mem r hr') g₃
      (trans_of K h₁ (trans_of K h₂ h₃))

end

/-- The run advances from the graph with its pins. -/
theorem kept_run (hg : Coherent c (pinVars g)) :
    Kept (Advance c) { graph := pinVars g, changes := fun x y => False ∨ (x = g ∧ y = pinVars g) }
      (run.after c { graph := g }).2 := by
  have hrest : Steps (Advance c) c (pinVars g) (do
      reinit
      if !allKnown (← theGraph) then
        escalate (Resolver.all.filter (← read).config.enables)) anyResult := by
    refine .bind' steps_reinit fun _ g₁ h₁ _ => .theGraph' fun g₂ h₂ => .ite' (fun _ => ?_) fun _ => ?_
    · refine .read' (.escalate' _ fun r _ g₃ h₃ => steps_resolverStep ?_ r)
      exact h₃.coherent (h₂.coherent (h₁.coherent hg))
    · exact .done' _
  exact (hrest _ (refl_of (Advance c) _)).1

theorem advance_of_through_run {g' : MethodGraph} (hg : Coherent c (pinVars g))
    (h : Through run c g g') : Advance c (pinVars g) g' := by
  have hkept := kept_run hg
  rcases h with ⟨x, h⟩ | rfl
  · rcases hkept.changes x g' h with hfirst | ⟨hx, hxg, -⟩
    · -- the first change of all sets the pins
      rcases hfirst with hf | ⟨-, rfl⟩
      · exact hf.elim
      · exact refl_of (Advance c) _
    · exact trans_of (Advance c) hx hxg
  · exact hkept.graph

end
end TypeRecovery.Inference
