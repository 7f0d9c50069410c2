import TypeRecovery.Inference.Finish
import TypeRecovery.Proofs.Graph.Tables
import TypeRecovery.Proofs.Inference.Runs

/- Finishing writes types only, and none over the known type of a pinned variable. All ways of mending
   an instruction ask for the pin first; merging asks for it only where the type is known, so a pinned
   variable that is still open is merged like any other. -/
namespace TypeRecovery.Inference

open MethodGraph

/-- Types were written, but no pinned variable lost a known type. -/
structure Finishing (g g' : MethodGraph) : Prop where
  framed : Framed g g'
  kept : ∀ v, (g.var v).isPinned = true → (g.var v).ty.isKnown = true →
    (g'.var v).type = (g.var v).type

theorem Finishing.isPinned {g g' : MethodGraph} (h : Finishing g g') (v : VarId) :
    (g'.var v).isPinned = (g.var v).isPinned := by
  rw [Var.isPinned, Var.isPinned, h.framed.pin]

theorem Finishing.ty {g g' : MethodGraph} (h : Finishing g g') {v : VarId}
    (hp : (g.var v).isPinned = true) (hk : (g.var v).ty.isKnown = true) :
    (g'.var v).ty = (g.var v).ty := by
  rw [Var.ty, Var.ty, h.kept v hp hk]

instance : IsPreorder MethodGraph Finishing where
  refl g := ⟨refl_of Framed g, fun _ _ _ => rfl⟩
  trans g₁ g₂ g₃ h h' := by
    refine ⟨trans_of Framed h.framed h'.framed, fun v hp hk => ?_⟩
    rw [← h.isPinned v] at hp
    have hk' : (g₂.var v).ty.isKnown = true := by
      rw [h.ty (h.isPinned v ▸ hp) hk]
      exact hk
    exact (h'.kept v hp hk').trans (h.kept v (h.isPinned v ▸ hp) hk)

section
variable {c : Context} {g : MethodGraph}

/-! ## Writes -/

/-- A type is written at a literal, or at a variable that is open or has no pin. -/
theorem finishing_setType {s : SiteId} {t : Option Ty} (h : ∀ v, g.varOf? s = some v →
    (g.var v).isPinned = true → (g.var v).ty.isKnown = false) : Finishing g (g.setType s t) := by
  refine ⟨framed_setType s t, fun v hp hk => ?_⟩
  rcases var_setType (g := g) s t v with heq | ⟨hs, -⟩
  · rw [heq]
  · rw [h v hs hp] at hk
    cases hk

theorem finishing_of_free {s : SiteId} {t : Option Ty} (h : g.isPinnedAt s = false) :
    Finishing g (g.setType s t) := by
  refine finishing_setType fun v hv hp => ?_
  rw [isPinnedAt_of_varOf? hv, hp] at h
  cases h

theorem varOf?_of_literal {s : SiteId} {value : Int} (h : g.literal? s = some value) :
    g.varOf? s = none := by
  unfold literal? at h
  unfold varOf?
  split at h
  · cases h
  · rfl

/-! ## Merging -/

theorem steps_reportIncompatible {K : MethodGraph → MethodGraph → Prop} [IsPreorder MethodGraph K]
    (s : SiteId) (t u : Ty) : Steps K c g (reportIncompatible s t u) anyResult := by
  refine .get' fun st => .ite' (fun _ => ?_) fun _ => .done' _
  refine .bind' (.modify' (fun _ => rfl) fun _ => rfl) fun _ _ _ _ => ?_
  exact .theGraph' fun _ _ => .report' _

/-- Merging looks at the pin of a known type only, in the graph that it then writes. -/
theorem steps_mergeAt (s : SiteId) (t : Ty) : Steps Finishing c g (mergeAt s t) anyResult := by
  -- `Steps` allows changes between the look at the pin and the write; here there are none
  intro st _
  refine ⟨?_, fun _ _ => trivial⟩
  unfold mergeAt
  rw [after_read, after_theGraph]
  simp only
  split
  · exact kept_of_same rfl rfl
  · next hguard =>
    split
    · have hreport : Steps Finishing c st.graph (do
          if (st.graph.typeAt s).isKnown && t.isKnown then
            reportIncompatible s (st.graph.typeAt s) t
          return false) anyResult := by
        refine .ite' (fun _ => ?_) fun _ => .done' _
        exact .bind' (steps_reportIncompatible _ _ _) fun _ _ _ _ => .done' _
      exact (hreport st (refl_of Finishing _)).1
    · split
      · exact kept_of_same rfl rfl
      · split
        · exact kept_of_same rfl rfl
        · refine kept_of_change (finishing_setType fun v hv hp => ?_) rfl rfl
          rw [typeAt_of_varOf? hv, isPinnedAt_of_varOf? hv, hp, Bool.and_true] at hguard
          simpa using hguard

theorem steps_mergeBoth (a b : SiteId) : Steps Finishing c g (mergeBoth a b) anyResult := by
  refine .theGraph' fun _ _ => .bind' (steps_mergeAt a _) fun _ _ _ _ => ?_
  refine .theGraph' fun _ _ => .bind' (steps_mergeAt b _) fun _ _ _ _ => ?_
  exact .done' _

/-! ## Mending -/

theorem steps_fixConst (result literal : SiteId) :
    Steps Finishing c g (fixConst result literal) anyResult := by
  refine .theGraph' fun g₁ _ => ?_
  split
  · next value hvalue =>
    refine .ite' (fun hfree => .change' fun g₂ h₂ => ?_) fun _ => steps_mergeAt _ _
    have hlit : g₂.varOf? literal = none := by
      rw [h₂.framed.varOf]
      exact varOf?_of_literal hvalue
    have hfirst : ∀ t, Finishing g₂ (g₂.setType literal t) := fun t =>
      finishing_setType fun v hv => by rw [hlit] at hv; cases hv
    refine trans_of Finishing (hfirst _) (finishing_setType fun v hv hp => ?_)
    -- neither write touches a pin, so the result is as free as it was found to be
    have hpair := trans_of Finishing h₂ (hfirst (some (if value = 1 then Ty.boolean else Ty.int)))
    rw [hpair.framed.varOf] at hv
    rw [hpair.isPinned v] at hp
    simp [isPinnedAt_of_varOf? hv, hp] at hfree
  · exact steps_mergeAt _ _

theorem steps_fixArray (array elem : SiteId) :
    Steps Finishing c g (fixArray array elem) anyResult := by
  have hsecond (first : Bool) (g' : MethodGraph) : Steps Finishing c g' (do
      let g ← theGraph
      let second ←
        if (g.typeAt array).isKnown then pure false else mergeAt array (.array (g.typeAt elem))
      return first || second) anyResult := by
    refine .theGraph' fun _ _ => .ite' (fun _ => ?_) fun _ => ?_
    · exact .done' _
    · exact .bind' (steps_mergeAt array _) fun _ _ _ _ => .done' _
  refine .theGraph' fun g₁ _ => ?_
  split
  · exact .bind' (steps_mergeAt elem _) fun first g₂ _ _ => hsecond first g₂
  · exact hsecond false _

theorem finishing_fixOverloaded (insn : Insn) : Finishing g (fixOverloaded g insn).2 := by
  unfold fixOverloaded
  split
  · exact refl_of Finishing g
  · split
    · exact refl_of Finishing g
    · refine List.foldlRecOn (motive := fun p : Bool × MethodGraph => Finishing g p.2) _ _
        (refl_of Finishing g) fun p hp e _ => ?_
      obtain ⟨changed, g'⟩ := p
      obtain ⟨s, t⟩ := e
      simp only
      split
      · next hfree =>
        simp only [Bool.and_eq_true, Bool.not_eq_true'] at hfree
        exact trans_of Finishing hp (finishing_of_free hfree.1.2)
      · exact hp

theorem finishing_fixCast (insn : Insn) : Finishing g (fixCast g insn).2 := by
  unfold fixCast
  split
  · simp only
    split
    · exact refl_of Finishing g
    · next hfree =>
      simp only [Bool.or_eq_true, not_or, Bool.not_eq_true] at hfree
      exact finishing_of_free hfree.1.1
  · exact refl_of Finishing g

theorem finishing_assignType (t : Ty) (p : Bool × MethodGraph) (s : SiteId) :
    Finishing p.2 (assignType t p s).2 := by
  unfold assignType
  simp only
  split
  · exact refl_of Finishing p.2
  · next hfree =>
    simp only [Bool.or_eq_true, not_or, Bool.not_eq_true] at hfree
    exact finishing_of_free hfree.1

theorem finishing_fixPhi (insn : Insn) : Finishing g (fixPhi g insn).2 := by
  unfold fixPhi
  split
  · exact refl_of Finishing g
  · refine List.foldlRecOn (motive := fun p : Bool × MethodGraph => Finishing g p.2) _ _
      (refl_of Finishing g) fun p hp s _ => ?_
    exact trans_of Finishing hp (finishing_assignType _ p s)

theorem steps_fixInsn (i : InsnId) : Steps Finishing c g (fixInsn i) anyResult := by
  refine .theGraph' fun g₁ _ => ?_
  simp only
  split
  · exact steps_fixConst _ _
  · exact steps_mergeBoth _ _
  · exact steps_fixArray _ _
  · exact steps_fixArray _ _
  · exact steps_mergeBoth _ _
  · exact .change' fun _ _ => finishing_fixOverloaded _
  · exact .change' fun _ _ => finishing_fixCast _
  · exact .change' fun _ _ => finishing_fixPhi _
  · exact .done' _

theorem steps_fixRounds (rounds : Nat) : Steps Finishing c g (fixRounds rounds) anyResult := by
  induction rounds generalizing g with
  | zero => exact .done' _
  | succ rounds ih =>
    refine .theGraph' fun _ _ => .bind' (.anyOf' _ fun i _ _ _ => steps_fixInsn i) fun _ _ _ _ => ?_
    exact .ite' (fun _ => ih) fun _ => .done' _

theorem steps_settleSite (s : SiteId) : Steps Finishing c g (settleSite s) anyResult := by
  refine .theGraph' fun _ _ => ?_
  simp only
  split
  · exact .bind' (steps_mergeAt s _) fun _ _ _ _ => .done' _
  · exact .done' _

/-! ## All of it -/

/-- Finishing starts a record of its own and follows it to the end. -/
theorem kept_finish (s : Session) : Kept Finishing (beginStage s) (finish.after c s).2 := by
  have hrest : Steps Finishing c s.graph (do
      let rounds := (← read).limits.finalizeRounds
      if !(← fixRounds rounds) then report (.unsettled rounds)
      let g ← theGraph
      g.placed.forM fun i => (sitesOf (g.insn i)).forM settleSite
      g.params.forM fun v => (g.var v).assign.toList.forM settleSite
      let notices := openNotices (← theGraph)
      notices.forM report
      return notices.length) anyResult := by
    have hsettle (g' : MethodGraph) : Steps Finishing c g' (do
        let g ← theGraph
        g.placed.forM fun i => (sitesOf (g.insn i)).forM settleSite
        g.params.forM fun v => (g.var v).assign.toList.forM settleSite
        let notices := openNotices (← theGraph)
        notices.forM report
        return notices.length) anyResult := by
      refine .theGraph' fun _ _ => .bind' (.forM' _ fun i _ _ _ => ?_) fun _ _ _ _ => ?_
      · exact .forM' _ fun s _ _ _ => steps_settleSite s
      · refine .bind' (.forM' _ fun v _ _ _ => ?_) fun _ _ _ _ => .theGraph' fun _ _ => ?_
        · exact .forM' _ fun s _ _ _ => steps_settleSite s
        · refine .bind' (.forM' _ fun n _ _ _ => .report' n) fun _ _ _ _ => ?_
          exact .done' _
    refine .read' (.bind' (steps_fixRounds _) fun _ _ _ _ => .ite' (fun _ => ?_) fun _ => hsettle _)
    exact .bind' (.report' _) fun _ _ _ _ => hsettle _
  exact (hrest (beginStage s) (refl_of Finishing _)).1

end
end TypeRecovery.Inference
