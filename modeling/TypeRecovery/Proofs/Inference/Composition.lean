import TypeRecovery.Inference.Engine
import TypeRecovery.Proofs.Graph.Supply
import TypeRecovery.Proofs.Inference.Advance
import TypeRecovery.Proofs.Inference.Faults
import TypeRecovery.Proofs.Inference.Finishing

/- What inference is put together from. `Composes P` says that a property of steps survives all ways in
   which steps are put together, and that the elementary steps have it: a look at the graph, an edit, a
   note, a report of anything but an open site. Then all of inference has it, up to the reports at the
   very end. There is one lemma for each function. An edit may ask for what all edits of inference do,
   namely that the sites go on reading variables of the table. Propagation and all resolvers but one ask
   for less: `Combines P` leaves out the one fault that only the search for the place of a move raises.
   Finishing asks for least: it raises no fault at all, and `Chains P` leaves them out. -/
namespace TypeRecovery.Inference

open MethodGraph

section
variable {c : Context} {g : MethodGraph}

/-! ## Edits -/

theorem supplied_pinVars (g : MethodGraph) : Supplied g (pinVars g) := by
  refine rel_foldl (R := Supplied) (fun v _ g' => ?_) g
  split
  · exact .refl g'
  · split
    · exact supplied_pinVar v _
    · exact .refl g'

theorem supplied_tally {α : Type} {step : MethodGraph → α → Nat × MethodGraph}
    (h : ∀ g a, Supplied g (step g a).2) (l : List α) (g : MethodGraph) :
    Supplied g (tally step l g).2 := by
  induction l generalizing g with
  | nil => exact .refl g
  | cons a l ih => exact (h g a).trans (ih _)

theorem supplied_restoreCasts (g : MethodGraph) (v : VarId) : Supplied g (restoreCasts c g v).2 := by
  unfold restoreCasts
  split
  · exact .refl g
  · refine supplied_tally (fun g' i => ?_) _ g
    simp only
    split
    · exact supplied_updateInsn _ _
    · exact .refl g'

theorem supplied_castDefinition (v : VarId) (t : Ty) : Supplied g (castDefinition g v t).2 := by
  unfold castDefinition
  split
  · split
    · exact .refl g
    · simp only
      refine Supplied.trans ?_ (supplied_insertAfter _ _)
      refine Supplied.trans ?_ (supplied_buildInsn _ _ _)
      exact (supplied_freshResult _ _).trans (supplied_duplicate _)
  · exact .refl g

theorem supplied_replaceByCopy (i : InsnId) (old s : SiteId) :
    Supplied g ((g.duplicate s).2.replaceArg i old (g.duplicate s).1).2 :=
  (supplied_duplicate s).trans (supplied_replaceArg i old _)

theorem supplied_castUse (g : MethodGraph) (s : SiteId) : Supplied g (castUse g s).2 := by
  unfold castUse
  split
  · exact .refl g
  · next i _ =>
    split
    · exact .refl g
    · simp only
      have hcast : Supplied g (((g.duplicateFresh s).2.duplicate s).2.buildInsn
          { opcode := .checkCast, type := some (g.site s).declared, soft := true, synthetic := true }
          (some (g.duplicateFresh s).1) [((g.duplicateFresh s).2.duplicate s).1]).2 :=
        ((supplied_duplicateFresh s).trans (supplied_duplicate s)).trans (supplied_buildInsn _ _ _)
      have harg := hcast.trans (supplied_replaceByCopy i s (g.duplicateFresh s).1)
      split
      · next he =>
        rw [he] at harg
        exact harg
      · next he =>
        rw [he] at harg
        exact harg.trans (supplied_insertBefore _ _)

theorem supplied_insertVarCasts (g : MethodGraph) (v : VarId) :
    Supplied g (insertVarCasts c g v).2 := by
  unfold insertVarCasts
  split
  · exact .refl g
  · next t _ =>
    have hdef := supplied_castDefinition (g := g) v t
    split
    · next he =>
      rw [he] at hdef
      exact hdef
    · next he =>
      rw [he] at hdef
      exact hdef.trans (supplied_tally supplied_castUse _ _)

/-- The variable of the copy is one that its result reads. -/
theorem supplied_copyAfter (i : InsnId) (synthetic : Bool) : Supplied g (copyAfter g i synthetic).2 ∧
    ∀ w, (copyAfter g i synthetic).1 = some w → ∃ u, (copyAfter g i synthetic).2.varOf? u = some w := by
  refine ⟨?_, fun w hw => ?_⟩
  · unfold copyAfter
    simp only
    refine Supplied.trans ?_ (supplied_insertAfter _ _)
    split
    · exact (supplied_copyFresh i).trans (supplied_updateInsn _ _)
    · exact supplied_copyFresh i
  · obtain ⟨u, -, hu⟩ := Option.bind_eq_some_iff.mp hw
    exact ⟨u, hu⟩

theorem supplied_redirect (i : InsnId) (s : SiteId) {w : VarId} (hw : ∃ u, g.varOf? u = some w) :
    Supplied g (redirect g i s w) :=
  (supplied_duplicateWith hw s).trans (supplied_replaceArg i s _)

theorem supplied_splitByPhi (v : VarId) : Supplied g (splitByPhi g v).2 := by
  unfold splitByPhi
  split
  · next i _ phi phis _ _ =>
    refine rel_foldl (R := Supplied) (fun phi _ g' => ?_) g
    obtain ⟨hcopy, hread⟩ := supplied_copyAfter (g := g') i true
    split
    · next w _ he =>
      rw [he] at hcopy hread
      split
      · exact hcopy.trans (supplied_redirect _ _ (hread w rfl))
      · exact hcopy
    · next he =>
      rw [he] at hcopy
      exact hcopy
  · exact .refl g

theorem supplied_splitByUse (v : VarId) : Supplied g (splitByUse g v).2 := by
  unfold splitByUse
  split
  · next i _ use uses _ _ =>
    refine rel_foldl (R := Supplied) (fun s _ g' => ?_) g
    split
    · exact .refl g'
    · obtain ⟨hcopy, hread⟩ := supplied_copyAfter (g := g') i false
      split
      · next w _ he =>
        rw [he] at hcopy hread
        exact hcopy.trans (supplied_redirect _ _ (hread w rfl))
      · next he =>
        rw [he] at hcopy
        exact hcopy
  · exact .refl g

theorem supplied_splitConst (v : VarId) (g : MethodGraph) : Supplied g (
    if (g.var v).ty.isKnown || (g.var v).isPinned then (false, g)
    else
      match splitByPhi g v with
      | (true, g) => (true, g)
      | (false, g) => splitByUse g v).2 := by
  split
  · exact .refl g
  · have hphi := supplied_splitByPhi (g := g) v
    split
    · next he =>
      rw [he] at hphi
      exact hphi
    · next he =>
      rw [he] at hphi
      exact hphi.trans (supplied_splitByUse v)

theorem supplied_conversion (result : Option SiteId) (s : SiteId) (t : Option Ty) :
    Supplied g (let (test, g) := g.duplicate s
      let g := g.updateSite test fun x => { x with declared := Ty.boolean }
      let (one, g) := g.newLit 1 t
      let (zero, g) := g.newLit 0 t
      (g.buildInsn { opcode := .ternary, synthetic := true } result [test, one, zero]).2) := by
  simp only
  refine Supplied.trans ?_ (supplied_buildInsn _ _ _)
  refine Supplied.trans ?_ (supplied_newLit 0 t)
  refine Supplied.trans ?_ (supplied_newLit 1 t)
  exact (supplied_duplicate s).trans (supplied_updateSite fun _ => rfl)

theorem supplied_buildNegation (result operand : SiteId) :
    Supplied g (buildNegation g result operand).2 := by
  have hsite : Supplied g (g.updateSite operand fun x => { x with declared := Ty.boolean }) :=
    supplied_updateSite fun _ => rfl
  exact hsite.trans (supplied_buildInsn _ _ _)

end

/-! ## Properties of steps -/

/-- What steps that raise no fault are put together from. -/
structure Chains (P : ∀ {α : Type}, Infer α → Prop) : Prop where
  pure' {α : Type} (a : α) : P (pure a)
  bind' {α β : Type} {m : Infer α} {f : α → Infer β} (hm : P m) (hf : ∀ a, P (f a)) : P (m >>= f)
  read' {α : Type} {f : Context → Infer α} (hf : ∀ c, P (f c)) : P (read >>= f)
  theGraph' {α : Type} {f : MethodGraph → Infer α} (hf : ∀ g, P (f g)) : P (theGraph >>= f)
  reported' {α : Type} {f : List SiteId → Infer α} (hf : ∀ sites, P (f sites)) :
    P (get >>= fun s => f s.reported)
  edit' {α : Type} {f : MethodGraph → α × MethodGraph} (hf : ∀ g, Supplied g (f g).2) : P (edit f)
  note' (records : List LogRecord) : P (note records)
  report' {n : Notice} (hn : ∀ site place, n ≠ .unresolved site place) : P (report n)
  mark' (s : SiteId) : P (modify fun st => { st with reported := s :: st.reported } : Infer PUnit)
  begin' : P (modify beginStage : Infer PUnit)

structure Combines (P : ∀ {α : Type}, Infer α → Prop) : Prop extends Chains P where
  throw' {α : Type} {f : Fault} (hf : f ≠ .endless) : P (throw f : Infer α)

structure Composes (P : ∀ {α : Type}, Infer α → Prop) : Prop extends Combines P where
  endless' {α : Type} : P (throw .endless : Infer α)
  tryCatch' {α : Type} {m : Infer α} {handler : Fault → Infer α} (hm : P m)
    (hh : ∀ f, P (handler f)) : P (tryCatch m handler)

/-- Settles the sites of the placed instructions and the parameters. -/
def settleSites : Infer Unit := do
  let g ← theGraph
  g.placed.forM fun i => (sitesOf (g.insn i)).forM settleSite
  g.params.forM fun v => (g.var v).assign.toList.forM settleSite

/-- Finishing up to the look at what is still open. -/
def settleAll : Infer Unit := do
  modify beginStage
  let rounds := (← read).limits.finalizeRounds
  if !(← fixRounds rounds) then report (.unsettled rounds)
  settleSites

theorem finish_eq : finish = (do
    settleAll
    let notices := openNotices (← theGraph)
    notices.forM report
    return notices.length) := by
  simp only [finish, settleAll, settleSites, bind_assoc]
  refine bind_congr fun _ => bind_congr fun c => bind_congr fun settled => ?_
  split <;> simp only [bind_assoc]

namespace Chains

variable {P : ∀ {α : Type}, Infer α → Prop}

theorem ite' (_ : Chains P) {α : Type} {p : Prop} [Decidable p] {m n : Infer α} (hm : P m) (hn : P n) :
    P (if p then m else n) := by
  by_cases hp : p
  · rw [if_pos hp]; exact hm
  · rw [if_neg hp]; exact hn

variable (h : Chains P)
include h

/-! Steps over lists. -/

section
variable {α β : Type}

theorem anyOf' {step : α → Infer Bool} (hs : ∀ a, P (step a)) (l : List α) :
    P (anyOf step l) := by
  induction l with
  | nil => exact h.pure' _
  | cons a l ih => exact h.bind' (hs a) fun _ => h.bind' ih fun _ => h.pure' _

theorem firstOf' {step : α → Infer Bool} (hs : ∀ a, P (step a)) (l : List α) :
    P (firstOf step l) := by
  induction l with
  | nil => exact h.pure' _
  | cons a l ih => exact h.bind' (hs a) fun _ => h.ite' (h.pure' _) ih

theorem totalOf' {step : α → Infer Nat} (hs : ∀ a, P (step a)) (l : List α) :
    P (totalOf step l) := by
  induction l with
  | nil => exact h.pure' _
  | cons a l ih => exact h.bind' (hs a) fun _ => h.bind' ih fun _ => h.pure' _

theorem forM' {step : α → Infer PUnit} (hs : ∀ a, P (step a)) (l : List α) :
    P (l.forM step) := by
  induction l with
  | nil => exact h.pure' _
  | cons a l ih => exact h.bind' (hs a) fun _ => ih

theorem mapM' {step : α → Infer β} (hs : ∀ a, P (step a)) (l : List α) :
    P (l.mapM step) := by
  induction l with
  | nil => exact h.pure' _
  | cons a l ih =>
    rw [List.mapM_cons]
    exact h.bind' (hs a) fun _ => h.bind' ih fun _ => h.pure' _

theorem foldlM' {step : β → α → Infer β} (hs : ∀ b a, P (step b a)) (l : List α) (b : β) :
    P (l.foldlM step b) := by
  induction l generalizing b with
  | nil => exact h.pure' b
  | cons a l ih =>
    rw [List.foldlM_cons]
    exact h.bind' (hs b a) ih

theorem filterM' {step : α → Infer Bool} (hs : ∀ a, P (step a)) (l : List α) :
    P (l.filterM step) := by
  have haux : ∀ kept, P (l.filterAuxM step kept) := by
    induction l with
    | nil => exact fun _ => h.pure' _
    | cons a l ih => exact fun _ => h.bind' (hs a) fun _ => ih _
  exact h.bind' (haux []) fun _ => h.pure' _

end

/-! ## Finishing -/

theorem mergeAt' (s : SiteId) (t : Ty) : P (mergeAt s t) := by
  have hreport (u : Ty) : P (reportIncompatible s u t) := by
    refine h.reported' (f := fun sites => if !sites.contains s then _ else _) fun _ => ?_
    refine h.ite' (h.bind' (h.mark' s) fun _ => ?_) (h.pure' _)
    exact h.theGraph' fun _ => h.report' nofun
  refine h.read' fun c => h.theGraph' fun g => h.ite' (h.pure' _) ?_
  split
  · exact h.ite' (h.bind' (hreport _) fun _ => h.pure' _) (h.pure' _)
  · refine h.ite' (h.pure' _) (h.ite' (h.pure' _) (h.edit' fun _ => ?_))
    exact (framed_setType _ _).supplied

theorem mergeBoth' (a b : SiteId) : P (mergeBoth a b) :=
  h.theGraph' fun _ => h.bind' (h.mergeAt' a _) fun _ =>
    h.theGraph' fun _ => h.bind' (h.mergeAt' b _) fun _ => h.pure' _

theorem fixConst' (result literal : SiteId) : P (fixConst result literal) := by
  refine h.theGraph' fun _ => ?_
  split
  · refine h.ite' (h.edit' fun _ => ?_) (h.mergeAt' _ _)
    exact (framed_setType _ _).supplied.trans (framed_setType _ _).supplied
  · exact h.mergeAt' _ _

theorem fixArray' (array elem : SiteId) : P (fixArray array elem) := by
  have hsecond (first : Bool) : P (do
      let g ← theGraph
      let second ←
        if (g.typeAt array).isKnown then pure false else mergeAt array (.array (g.typeAt elem))
      return first || second) :=
    h.theGraph' fun _ => h.ite' (h.bind' (h.pure' _) fun _ => h.pure' _)
      (h.bind' (h.mergeAt' _ _) fun _ => h.pure' _)
  refine h.theGraph' fun _ => ?_
  split
  · exact h.bind' (h.mergeAt' _ _) hsecond
  · exact h.bind' (h.pure' _) hsecond

theorem fixInsn' (i : InsnId) : P (fixInsn i) := by
  refine h.theGraph' fun _ => ?_
  simp only
  split
  · exact h.fixConst' _ _
  · exact h.mergeBoth' _ _
  · exact h.fixArray' _ _
  · exact h.fixArray' _ _
  · exact h.mergeBoth' _ _
  · exact h.edit' fun _ => (finishing_fixOverloaded _).framed.supplied
  · exact h.edit' fun _ => (finishing_fixCast _).framed.supplied
  · exact h.edit' fun _ => (finishing_fixPhi _).framed.supplied
  · exact h.pure' _

theorem fixRounds' (rounds : Nat) : P (fixRounds rounds) := by
  induction rounds with
  | zero => exact h.pure' _
  | succ rounds ih =>
    exact h.theGraph' fun _ => h.bind' (h.anyOf' h.fixInsn' _) fun _ => h.ite' ih (h.pure' _)

theorem settleSite' (s : SiteId) : P (settleSite s) := by
  refine h.theGraph' fun _ => ?_
  simp only
  split
  · exact h.bind' (h.mergeAt' s _) fun _ => h.pure' _
  · exact h.pure' _

theorem settleSites' : P settleSites :=
  h.theGraph' fun _ => h.bind' (h.forM' (fun _ => h.forM' h.settleSite' _) _) fun _ =>
    h.forM' (fun _ => h.forM' h.settleSite' _) _

theorem settleAll' : P settleAll := by
  refine h.bind' h.begin' fun _ => h.read' fun _ => ?_
  refine h.bind' (h.fixRounds' _) fun _ => ?_
  exact h.ite' (h.bind' (h.report' nofun) fun _ => h.settleSites') h.settleSites'

/-- Finishing has what reports of open sites have too. -/
theorem finish' (hr : ∀ n, P (report n)) : P finish := by
  rw [finish_eq]
  exact h.bind' h.settleAll' fun _ => h.theGraph' fun _ => h.bind' (h.forM' hr _) fun _ => h.pure' _

end Chains

namespace Combines

variable {P : ∀ {α : Type}, Infer α → Prop} (h : Combines P)
include h

/-! ## Propagation -/

theorem apply' (v : VarId) (t : Ty) (flags : Flags) : P (apply v t flags) := by
  refine h.theGraph' fun g => ?_
  split
  · exact h.pure' _
  · next s _ =>
    refine h.ite' (h.pure' _) (h.read' fun c => ?_)
    simp only
    have hfault := Trial.run_ne_endless (x := { context := c, graph := g, flags }) s t
    generalize Trial.run { context := c, graph := g, flags } s t = r at hfault ⊢
    obtain ⟨outcome, attempt⟩ := r
    refine h.bind' (h.note' _) fun _ => ?_
    split
    · next fault hout =>
      refine h.throw' ?_
      rintro rfl
      exact hfault hout
    · exact h.bind' (h.note' _) fun _ => h.pure' _
    · refine h.ite' (h.pure' _) (h.bind' (h.note' _) fun _ => h.bind' (h.edit' fun g' => ?_) fun _ => ?_)
      · exact (attempt.proposal.framed_commit g').supplied
      · exact h.pure' _

theorem applyBest' (v : VarId) : P (applyBest v) := by
  refine h.read' fun _ => h.theGraph' fun _ => ?_
  split
  · exact h.pure' _
  · exact h.bind' (h.apply' v _ _) fun _ => h.pure' _

theorem applyPin' (v : VarId) : P (applyPin v) := by
  refine h.theGraph' fun _ => ?_
  split
  · exact h.pure' _
  · exact h.bind' (h.apply' v _ _) fun _ => h.ite' (h.theGraph' fun _ => h.note' _) (h.pure' _)

theorem propagate' : P propagate :=
  h.theGraph' fun _ => h.bind' (h.forM' h.applyPin' _) fun _ =>
    h.forM' (fun v => h.bind' (h.applyBest' v) fun _ => h.pure' _) _

theorem reinit' : P reinit :=
  h.bind' (h.edit' fun g => (initBounds_frame g).1.supplied) fun _ => h.propagate'

/-- A resolver that helped starts inference over. -/
theorem walk' {step : VarId → Infer Bool} (hs : ∀ v, P (step v)) {restart : Infer Unit}
    (hr : P restart) : P (do
      if ← anyOf step (← theGraph).live then
        restart
        return true
      else return false) :=
  h.theGraph' fun _ => h.bind' (h.anyOf' hs _) fun _ =>
    h.ite' (h.bind' hr fun _ => h.pure' _) (h.pure' _)

/-! ## Resolvers -/

theorem counted' {edits : MethodGraph → Nat × MethodGraph} (he : ∀ g, Supplied g (edits g).2)
    {f : Nat → Notice} (hf : ∀ n site place, f n ≠ .unresolved site place) : P (do
      let n ← edit edits
      if n = 0 then return false
      report (f n)
      reinit
      return true) :=
  h.bind' (h.edit' he) fun n => h.ite' (h.pure' _) (h.bind' (h.report' (hf n)) fun _ =>
    h.bind' h.reinit' fun _ => h.pure' _)

theorem changes' (v : VarId) (flags : Flags) (t : Ty) : P (changes v flags t) :=
  h.bind' (h.apply' v t flags) fun _ => h.pure' _

theorem deduceType' (v : VarId) : P (deduceType v) := by
  refine h.theGraph' fun _ => h.ite' (h.pure' _) (h.bind' (h.applyBest' v) fun _ => ?_)
  refine h.ite' (h.pure' _) (h.read' fun _ => h.theGraph' fun _ => ?_)
  refine h.bind' (h.firstOf' (h.changes' v _) _) fun _ => h.ite' (h.pure' _) ?_
  exact h.read' fun _ => h.theGraph' fun _ => h.firstOf' (h.changes' v _) _

theorem deduceTypes' : P deduceTypes := h.theGraph' fun _ => h.anyOf' h.deduceType' _

theorem applyRaw' (v : VarId) : P (applyRaw v) := by
  refine h.read' fun _ => h.theGraph' fun _ => ?_
  refine h.bind' (h.firstOf' (fun t => h.changes' v _ _) _) fun _ => ?_
  exact h.ite' (h.theGraph' fun _ => h.bind' (h.report' nofun) fun _ => h.pure' _) (h.pure' _)

theorem removeGenerics' : P removeGenerics := by
  refine h.theGraph' fun _ => h.bind' (h.anyOf' (fun v => ?_) _) fun _ => h.pure' _
  exact h.theGraph' fun _ => h.ite' (h.pure' _) (h.bind' (h.applyRaw' v) fun _ => h.pure' _)

theorem buildConversion' (result : Option SiteId) (cond : VarId) (t : Option Ty) :
    P (buildConversion result cond t) := by
  refine h.theGraph' fun _ => ?_
  split
  · exact h.throw' nofun
  · exact h.edit' fun _ => supplied_conversion _ _ _

theorem negateXor' (i : InsnId) (s : SiteId) : P (negateXor i s) := by
  refine h.theGraph' fun _ => ?_
  split
  · exact h.throw' nofun
  · have hnegation (result operand : SiteId) : P (edit fun g => buildNegation g result operand) :=
      h.edit' fun _ => supplied_buildNegation _ _
    refine h.bind' (h.edit' fun _ => supplied_duplicate s) fun _ => h.theGraph' fun _ => h.ite' ?_ ?_
    · exact h.bind' (hnegation _ _) fun _ => h.edit' fun _ => supplied_replaceInsn _ _
    · refine h.bind' (h.edit' fun _ => ?_) fun _ => h.bind' (hnegation _ _) fun _ => ?_
      · exact (supplied_duplicateFresh _).trans (supplied_updateSite fun _ => rfl)
      · refine h.bind' (h.edit' fun _ => supplied_insertBefore _ _) fun _ => ?_
        refine h.ite' (h.pure' _) (h.theGraph' fun _ => ?_)
        split
        · exact h.throw' nofun
        · exact h.bind' (h.buildConversion' _ _ _) fun _ => h.edit' fun _ => supplied_replaceInsn _ _

theorem convertUse' (i : InsnId) (s : SiteId) (cond : VarId) (t : Ty) :
    P (convertUse i s cond t) := by
  refine h.bind' (h.edit' fun _ => supplied_duplicateFresh s) fun _ => ?_
  refine h.bind' (h.buildConversion' _ _ _) fun _ => ?_
  refine h.bind' (h.edit' fun _ => supplied_insertBefore _ _) fun _ => h.ite' (h.pure' _) ?_
  exact h.edit' fun _ => supplied_replaceByCopy _ _ _

theorem fixTruthUse' (s : SiteId) : P (fixTruthUse s) := by
  refine h.theGraph' fun g => h.ite' (h.pure' _) ?_
  split
  · refine h.ite' (h.pure' _) ?_
    split
    · exact h.pure' _
    · exact h.bind' (h.buildConversion' _ _ _) fun _ => h.edit' fun _ => supplied_replaceInsn _ _
    · exact h.ite' (h.negateXor' _ _) (h.convertUse' _ _ _ _)
  · exact h.pure' _

theorem fixTruth' (v : VarId) : P (fixTruth v) :=
  h.theGraph' fun _ => h.read' fun _ => h.ite' (h.pure' _) (h.anyOf' h.fixTruthUse' _)

open Search in
theorem wheelOf' (v : VarId) : P (wheelOf v) := by
  refine h.read' fun c => h.theGraph' fun g => ?_
  simp only
  split
  · exact h.pure' _
  · exact h.pure' _
  · refine h.bind' (h.foldlM' (fun found t => ?_) _ _) fun ts => ?_
    · exact h.ite' (h.pure' _) (h.bind' (h.note' _) fun _ => h.pure' _)
    · split
      · exact h.throw' nofun
      · exact h.pure' _
      · exact h.pure' _

open Search in
theorem turnWheels' (o : Option ClassOracle) (ws : List Wheel) : P (turnWheels o ws) := by
  refine h.ite' (h.pure' _) (h.read' fun _ => h.bind' (h.note' _) fun _ => h.ite' (h.pure' _) ?_)
  exact h.bind' (h.note' _) fun _ => h.pure' _

theorem confirmWheel' (w : Search.Wheel) : P (confirmWheel w) := by
  refine h.bind' (h.apply' _ _ _) fun _ => h.ite' (h.theGraph' fun _ => ?_) (h.pure' _)
  exact h.bind' (h.report' nofun) fun _ => h.pure' _

theorem writeWheel' (w : Search.Wheel) : P (writeWheel w) := by
  refine h.edit' fun g => ?_
  split
  · exact (framed_setVarType _ _).supplied
  · exact .refl g

theorem searchTypes' : P searchTypes := by
  refine h.read' fun c => h.theGraph' fun g => h.ite' ?_ ?_
  · exact h.bind' (h.report' nofun) fun _ => h.pure' _
  · refine h.bind' (h.mapM' h.wheelOf' _) fun _ => h.bind' (h.turnWheels' _ _) fun _ => ?_
    split
    · exact h.pure' _
    · refine h.bind' (h.filterM' h.writeWheel' _) fun _ => ?_
      refine h.bind' (h.anyOf' (fun w => ?_) _) fun _ => h.pure' _
      exact h.bind' (h.confirmWheel' w) fun _ => h.pure' _

theorem search' : P search := by
  refine h.bind' h.searchTypes' fun _ => h.ite' ?_ (h.theGraph' fun _ => h.pure' _)
  exact h.bind' (h.report' nofun) fun _ => h.theGraph' fun _ => h.pure' _

theorem forcePin' (v : VarId) : P (forcePin v) := by
  refine h.edit' fun g => ?_
  simp only
  split
  · exact (framed_setVarType _ _).supplied
  · exact .refl g

/-- All resolvers but the one that inserts moves. -/
theorem resolverStep' {r : Resolver} (hr : r ≠ .insertMoves) : P (resolverStep r) := by
  cases r with
  | restoreTypeVarCasts =>
    refine h.read' fun c => h.counted' (fun g => ?_) (f := .castsRestored) nofun
    exact supplied_tally supplied_restoreCasts _ g
  | insertCasts =>
    refine h.read' fun c => h.counted' (fun g => ?_) (f := fun n => .inserted n "cast") nofun
    exact supplied_tally supplied_insertVarCasts _ g
  | deduceTypes => exact h.deduceTypes'
  | splitConsts => exact h.walk' (fun v => h.edit' (supplied_splitConst v)) h.reinit'
  | fixPrimitives => exact h.walk' h.fixTruth' h.reinit'
  | forceImmutable => exact h.walk' h.forcePin' h.propagate'
  | insertMoves => exact absurd rfl hr
  | search => exact h.search'
  | removeGenerics => exact h.removeGenerics'

end Combines

namespace Composes

variable {P : ∀ {α : Type}, Infer α → Prop} (h : Composes P)
include h

theorem raise' {α : Type} (f : Fault) : P (throw f : Infer α) := by
  by_cases hf : f = .endless
  · rw [hf]
    exact h.endless'
  · exact h.throw' hf

theorem allPlaced' (inputs : List (SiteId × Option BlockId)) : P (allPlaced inputs) := by
  induction inputs with
  | nil => exact h.pure' _
  | cons input inputs ih =>
    obtain ⟨s, _ | b⟩ := input
    · exact h.bind' (h.report' nofun) fun _ => h.pure' _
    · refine h.theGraph' fun g => ?_
      split
      · exact h.raise' _
      · exact h.bind' (h.report' nofun) fun _ => h.pure' _
      · exact ih

theorem moveInput' (phi : InsnId) (input : SiteId × Option BlockId) :
    P (moveInput phi input) := by
  refine h.theGraph' fun g => ?_
  split
  · refine h.ite' (h.pure' _) ?_
    split
    · exact h.raise' _
    · exact h.raise' _
    · refine h.edit' fun g' => ?_
      simp only
      refine Supplied.trans ?_ (supplied_replaceByCopy _ _ _)
      refine Supplied.trans ?_ (supplied_insertAt _ _ _)
      refine Supplied.trans ?_ (supplied_buildInsn _ _ _)
      exact (supplied_duplicateFresh _).trans (supplied_duplicate _)
  · exact h.pure' _

theorem movePhiInputs' (phi : InsnId) : P (movePhiInputs phi) := by
  refine h.theGraph' fun _ => h.ite' (h.pure' _) (h.bind' (h.allPlaced' _) fun _ => ?_)
  exact h.ite' (h.pure' _) (h.totalOf' (h.moveInput' phi) _)

theorem insertMoves' : P insertMoves := by
  refine h.theGraph' fun _ => h.bind' (h.totalOf' (fun b => ?_) _) fun n => h.ite' (h.pure' _) ?_
  · exact h.theGraph' fun _ => h.totalOf' h.movePhiInputs' _
  · refine h.bind' (h.report' nofun) fun _ => h.bind' h.reinit' fun _ => ?_
    exact h.theGraph' fun _ => h.ite' (h.pure' _) h.deduceTypes'

theorem resolverStep' (r : Resolver) : P (resolverStep r) := by
  by_cases hr : r = .insertMoves
  · rw [hr]
    exact h.insertMoves'
  · exact h.toCombines.resolverStep' hr

theorem resolve' (r : Resolver) : P (resolve r) := by
  refine h.tryCatch' (h.resolverStep' r) fun _ => h.ite' (h.bind' (h.raise' _) fun _ => ?_) ?_ <;>
  exact h.bind' (h.report' nofun) fun _ => h.pure' _

theorem escalate' (rs : List Resolver) : P (escalate rs) := by
  induction rs with
  | nil => exact h.pure' _
  | cons r rs ih =>
    exact h.bind' (h.resolve' r) fun _ => h.theGraph' fun _ => h.ite' (h.note' _) ih

theorem run' : P run := by
  refine h.bind' (h.edit' supplied_pinVars) fun _ => h.bind' h.reinit' fun _ => ?_
  refine h.theGraph' fun _ => ?_
  exact h.ite' (h.read' fun _ => h.escalate' _) (h.pure' _)

end Composes

/-- Where every elementary step moves the state along a preorder, all steps do. -/
theorem composes_of_session {R : Session → Session → Prop} [IsPreorder Session R]
    (hedit : ∀ s g changes, Supplied s.graph g → R s { s with graph := g, changes })
    (hlog : ∀ s log, R s { s with log })
    (hreport : ∀ (s : Session) (n : Notice), (∀ site place, n ≠ .unresolved site place) →
      R s { s with journal := s.journal ++ [n.diagnostic s.graph.fullName] })
    (hmark : ∀ s reported changes, R s { s with reported, changes }) :
    Composes fun m => ∀ c s, R s (m.after c s).2 where
  pure' _ _ s := refl_of R s
  throw' _ _ s := refl_of R s
  endless' _ s := refl_of R s
  bind' {_ _ m _} hm hf c s := by
    have h := hm c s
    rw [after_bind]
    rcases hr : m.after c s with ⟨_ | a, s'⟩
    · rw [hr] at h
      exact h
    · rw [hr] at h
      exact trans_of R h (hf a c s')
  tryCatch' {_ m _} hm hh c s := by
    have h := hm c s
    rw [after_tryCatch]
    rcases hr : m.after c s with ⟨f | _, s'⟩
    · rw [hr] at h
      exact trans_of R h (hh f c s')
    · rw [hr] at h
      exact h
  read' hf c s := hf c c s
  theGraph' hf c s := hf s.graph c s
  reported' hf c s := hf s.reported c s
  edit' hf _ s := hedit s _ _ (hf s.graph)
  note' records c s := by
    rw [note, after_read]
    split
    · exact hlog s _
    · exact refl_of R s
  report' hn _ s := hreport s _ hn
  mark' _ _ s := hmark s _ _
  begin' _ s := hmark s _ _

end TypeRecovery.Inference
