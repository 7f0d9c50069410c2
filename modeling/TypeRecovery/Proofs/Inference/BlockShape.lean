import TypeRecovery.Proofs.Graph.Shape
import TypeRecovery.Proofs.Inference.Reached

/- The order within blocks under the resolvers. All insertions but two keep the phis of a block first and
   the jump last: a truth value is converted before whatever reads it as a number, which may be a phi,
   and a definition is cast right after its instruction, which may be a jump that has a result. Both give
   themselves away, by a new input of the phi and by a new result of the jump. -/
namespace TypeRecovery.Inference

open MethodGraph

/-- What two walks say of a step holds together. -/
theorem Ends.both {α : Type} {c : Context} {g : MethodGraph} {m : Infer α}
    {Q Q' : α → MethodGraph → Prop} {D E E' : MethodGraph → Prop} (h : Ends c g m Q E)
    (h' : Ends c g m Q' E') (hD : ∀ g', E g' → E' g' → D g') :
    Ends c g m (fun a g' => Q a g' ∧ Q' a g') D := by
  refine ⟨fun s hs => ?_⟩
  have hend := h.outcome s hs
  have hend' := h'.outcome s hs
  rcases hr : m.after c s with ⟨_ | _, s'⟩
  · rw [hr] at hend hend'
    exact hD _ hend hend'
  · rw [hr] at hend hend'
    exact ⟨hend, hend'⟩

section
variable {c : Context} {g g₀ g' : MethodGraph} {w : Rule} {P : Set VarId} {s : SiteId} {i : InsnId}

theorem typeless_calm (w : Rule) (g₀ : MethodGraph) : Typeless (Calm w g₀) :=
  fun _ _ hf h => h.trans hf.still.calm

theorem typeless_traced (w : Rule) (g₀ : MethodGraph) : Typeless (Traced w g₀) :=
  fun _ _ hf h => h.trans hf.still.calm.traced

/-- What each edit of a walk keeps holds after the walk. -/
theorem tally_keeps {α : Type} {K : MethodGraph → Prop} {f : MethodGraph → α → Nat × MethodGraph}
    {l : List α} (hstep : ∀ a ∈ l, ∀ g', K g' → K (f g' a).2) (h : K g) : K (tally f l g).2 := by
  induction l generalizing g with
  | nil => exact h
  | cons a l ih =>
    exact ih (fun b hb => hstep b (List.mem_cons_of_mem a hb)) (hstep a List.mem_cons_self g h)

/-! ## Casts -/

theorem calm_castDefinition (v : VarId) (t : Ty)
    (hw : ∀ i, g.assignInsn? v = some i → g.role i ≠ .phi →
      w.After (g.role i) ∧ w.SparesResult (g.role i)) :
    Calm w g (castDefinition g v t).2 := by
  unfold castDefinition
  split
  · next s i hs hi =>
    split
    · exact refl_of (Calm w) g
    · next hcond =>
      have hphi : g.role i ≠ .phi := by
        rw [role, Ne, Opcode.role_eq_phi]
        intro hop
        simp [hop] at hcond
      obtain ⟨hafter, hspared⟩ := hw i hi hphi
      have hfresh := still_duplicateFresh (w := w) (g := g) s
      have hset := hfresh.trans (still_setResult (i := i) (by rw [hfresh.role]; exact hspared)
        (some (g.duplicateFresh s).1))
      simp only
      generalize (g.duplicateFresh s).2.setResult i (some (g.duplicateFresh s).1) = g₁ at hset ⊢
      have hbuild := hset.trans ((still_duplicate (g.duplicateFresh s).1).trans (still_buildInsn
        (x := { opcode := .checkCast, type := some t, soft := true, synthetic := true }) rfl (some s)
        [(g₁.duplicate (g.duplicateFresh s).1).1]))
      refine hbuild.calm.trans (calm_insertAfter (role_buildInsn rfl _ _) ?_)
      rw [hbuild.role]
      exact hafter
  · exact refl_of (Calm w) g

theorem calm_castUse (hw : ∀ x, w.SparesArgs x) (s : SiteId) : Calm w g (castUse g s).2 := by
  unfold castUse
  split
  · exact refl_of (Calm w) g
  · next i hi =>
    split
    · exact refl_of (Calm w) g
    · next hcond =>
      have hphi : g.role i ≠ .phi := by
        rw [role, Ne, Opcode.role_eq_phi]
        intro hop
        simp [hop] at hcond
      have hfeed := still_feed (w := w) (g := g)
        (x := { opcode := .checkCast, type := some (g.site s).declared, soft := true,
                synthetic := true }) rfl s
      simp only at hfeed ⊢
      generalize (g.duplicateFresh s).1 = result at hfeed ⊢
      generalize ((g.duplicateFresh s).2.duplicate s).2.buildInsn _ _ _ = r at hfeed ⊢
      obtain ⟨cast, g₁⟩ := r
      obtain ⟨hbuild, hcast⟩ := hfeed
      have hread : Still w g₁ ((g₁.duplicate result).2.replaceArg i s (g₁.duplicate result).1).2 :=
        still_swapArg (hw (g₁.role i)) s _
      generalize (g₁.duplicate result).2.replaceArg i s (g₁.duplicate result).1 = r at hread ⊢
      obtain ⟨_ | _, g₂⟩ := r
      · exact (hbuild.trans hread).calm
      · refine (hbuild.trans hread).calm.trans (calm_insertBefore ?_ ?_)
        · rw [hread.role]
          exact hcast
        · rw [(hbuild.trans hread).role]
          exact w.lead hphi

/-- Where no phi inputs are watched, casts keep the phis first. -/
theorem calm_insertVarCasts (v : VarId) :
    Calm Rule.phisFirst.blind g (insertVarCasts c g v).2 := by
  unfold insertVarCasts
  split
  · exact refl_of (Calm _) g
  · next t _ =>
    have hdef : Calm Rule.phisFirst.blind g (castDefinition g v t).2 :=
      calm_castDefinition v t fun i _ hphi =>
        ⟨Rule.after_phisFirst hphi, fun _ _ _ _ => rfl⟩
    generalize castDefinition g v t = r at hdef ⊢
    obtain ⟨_ | _, g₁⟩ := r
    · exact tally_keeps (K := Calm _ g) (fun s _ g₂ h₂ =>
        h₂.trans (calm_castUse (fun _ _ _ _ _ => rfl) s)) hdef
    · exact hdef

theorem ends_calm_insertCasts :
    Ends c g insertCasts (fun _ => Calm Rule.phisFirst.blind g) (Calm Rule.phisFirst.blind g) := by
  have hf := tally_keeps (K := Calm Rule.phisFirst.blind g) (f := insertVarCasts c) (l := g.live)
    (fun v _ g₁ h₁ => h₁.trans (calm_insertVarCasts v)) (refl_of (Calm _) g)
  exact .read' (ends_counted (typeless_calm _ g)
    (f := fun g => tally (insertVarCasts c) g.live g) hf fun n => .inserted n "cast")

theorem ends_calm_restoreTypeVarCasts :
    Ends c g restoreTypeVarCasts (fun _ => Calm w g) (Calm w g) := by
  have hf := tally_keeps (K := Calm w g) (f := restoreCasts c) (l := g.live) (fun v _ g₁ h₁ => ?_)
    (refl_of (Calm w) g)
  · exact .read' (ends_counted (typeless_calm w g)
      (f := fun g => tally (restoreCasts c) g.live g) hf _)
  · refine h₁.trans ?_
    unfold restoreCasts
    split
    · exact refl_of (Calm w) g₁
    · next t _ _ =>
      refine tally_keeps (K := Calm w g₁) (fun i _ g₂ h₂ => ?_) (refl_of (Calm w) g₁)
      simp only
      split
      · exact h₂.trans (still_updateInsn i (fun x => { x with type := some t }) (fun _ => rfl)
          fun _ _ => rfl).calm
      · exact h₂

/-! ## Constants -/

theorem calm_copyAfter (hi : g.role i = .plain) (synthetic : Bool) :
    Calm w g (copyAfter g i synthetic).2 := by
  have hcopy := still_copyFresh (w := w) hi
  have hnew : g.role (g.copyFresh i).1 = .plain := by
    obtain ⟨_, _, _, _, _, heq⟩ := copyFresh_eq (g := g) i
    rw [heq]
    exact role_of_size_le (Nat.le_refl _)
  unfold copyAfter
  simp only
  generalize (g.copyFresh i).1 = copy at hnew ⊢
  generalize (g.copyFresh i).2 = g₁ at hcopy ⊢
  have hmark : Still w g (if synthetic then g₁.updateInsn copy fun x => { x with synthetic := true }
      else g₁) := by
    split
    · exact hcopy.trans (still_updateInsn copy _ (fun _ => rfl) fun _ _ => rfl)
    · exact hcopy
  generalize (if synthetic then g₁.updateInsn copy fun x => { x with synthetic := true }
    else g₁) = g₂ at hmark ⊢
  refine hmark.calm.trans (calm_insertAfter ?_ ?_)
  · rw [hmark.role, hnew]
  · rw [hmark.role, hi]
    exact Rule.after_plain

theorem calm_copyFor (hw : ∀ x, w.SparesArgs x) (h : Calm w g₀ g) (hi : g₀.role i = .plain)
    (synthetic : Bool) : Calm w g₀ (copyAfter g i synthetic).2 ∧
      ∀ user s v, Calm w g₀ (redirect (copyAfter g i synthetic).2 user s v) := by
  have hcopy := h.trans (calm_copyAfter (by rw [h.role, hi]) synthetic)
  exact ⟨hcopy, fun user s v => hcopy.trans (still_swapArg (hw _) s _).calm⟩

theorem role_of_sharedConst? {v : VarId} (hi : sharedConst? g v = some i) : g.role i = .plain := by
  obtain ⟨-, hcond⟩ := Option.filter_eq_some_iff.mp hi
  rw [Bool.and_eq_true, beq_iff_eq] at hcond
  rw [role, hcond.1]
  rfl

theorem calm_splitByPhi (hw : ∀ x, w.SparesArgs x) (v : VarId) : Calm w g (splitByPhi g v).2 := by
  unfold splitByPhi
  split
  · next i _ _ _ hi _ =>
    refine List.foldlRecOn _ _ (refl_of (Calm w) g) fun g₁ h phi _ => ?_
    obtain ⟨hcopy, hread⟩ := calm_copyFor hw h (role_of_sharedConst? hi) true
    generalize copyAfter g₁ i true = r at hcopy hread ⊢
    obtain ⟨_ | x, g₂⟩ := r
    · exact hcopy
    · simp only
      split
      · exact hread phi _ x
      · exact hcopy
  · exact refl_of (Calm w) g

theorem calm_splitByUse (hw : ∀ x, w.SparesArgs x) (v : VarId) : Calm w g (splitByUse g v).2 := by
  unfold splitByUse
  split
  · next i _ _ _ hi _ =>
    refine List.foldlRecOn _ _ (refl_of (Calm w) g) fun g₁ h s _ => ?_
    split
    · exact h
    · next user _ =>
      obtain ⟨hcopy, hread⟩ := calm_copyFor hw h (role_of_sharedConst? hi) false
      generalize copyAfter g₁ i false = r at hcopy hread ⊢
      obtain ⟨_ | x, g₂⟩ := r
      · exact hcopy
      · exact hread user s x
  · exact refl_of (Calm w) g

theorem ends_calm_splitConsts (hw : ∀ x, w.SparesArgs x) :
    Ends c g splitConsts (fun _ => Calm w g) (Calm w g) := by
  refine ends_walk (typeless_calm w g) (refl_of (Calm w) g) fun v g₁ h => ?_
  refine .edit' (Q := fun _ => Calm w g) ?_
  simp only
  split
  · exact h
  · have hphi := h.trans (calm_splitByPhi (g := g₁) hw v)
    generalize splitByPhi g₁ v = r at hphi ⊢
    obtain ⟨_ | _, g₂⟩ := r
    · exact hphi.trans (calm_splitByUse hw v)
    · exact hphi

/-! ## Moves -/

/-- The way up ends at a block that does not end in a jump. -/
theorem last_of_ascend {v : Option VarId} {steps : Nat} {b place : BlockId}
    (hp : ascend g v steps b = .place place) : (g.roles place).getLast? ≠ some .jump := by
  have hopen : ∀ b, (!(g.lastInsn? b).any fun i => (g.insn i).opcode.isSeparate) = true →
      (g.roles b).getLast? ≠ some .jump := by
    intro b hb hlast
    rw [roles, List.getLast?_map] at hlast
    obtain ⟨i, hi, hrole⟩ := Option.map_eq_some_iff.mp hlast
    simp [lastInsn?, hi, Opcode.role_eq_jump.mp hrole] at hb
  induction steps generalizing b with
  | zero =>
    unfold ascend at hp
    simp only at hp
    grind
  | succ steps ih =>
    unfold ascend at hp
    simp only at hp
    grind

theorem ends_calm_moveInput (hw : ∀ x, w.SparesArgs x) (h : Calm w g₀ g) (phi : InsnId)
    (input : SiteId × Option BlockId) :
    Ends c g (moveInput phi input) (fun _ => Calm w g₀) (Calm w g₀) := by
  refine .theGraph' ?_
  split
  · refine .ite' (fun _ => .pure' h) fun _ => ?_
    split
    · exact .throw' _ h
    · exact .throw' _ h
    · next place hp =>
      have hfeed := still_feed (w := w) (g := g) (x := { opcode := .move, synthetic := true }) rfl
        input.1
      refine .edit' (Q := fun _ => Calm w g₀) ?_
      simp only at hfeed ⊢
      generalize (g.duplicateFresh input.1).1 = result at hfeed ⊢
      generalize ((g.duplicateFresh input.1).2.duplicate input.1).2.buildInsn _ _ _ = r at hfeed ⊢
      obtain ⟨move, g₁⟩ := r
      obtain ⟨hbuild, hmove⟩ := hfeed
      have hplaced : Calm w g₁ (g₁.append place move) := calm_append hmove (by
        rw [hbuild.roles]
        exact last_of_ascend hp)
      exact h.trans (hbuild.calm.trans (hplaced.trans (still_swapArg (hw _) input.1 _).calm))
  · exact .pure' h

theorem ends_calm_insertMoves (hw : ∀ x, w.SparesArgs x) :
    Ends c g insertMoves (fun _ => Calm w g) (Calm w g) := by
  have hphi : ∀ (phi : InsnId) (g₁ : MethodGraph), Calm w g g₁ →
      Ends c g₁ (movePhiInputs phi) (fun _ => Calm w g) (Calm w g) := by
    intro phi g₁ h₁
    refine .theGraph' (.ite' (fun _ => .pure' h₁) fun _ => ?_)
    refine .bind' (ends_allPlaced _ h₁) fun _ g₂ h₂ => .ite' (fun _ => .pure' h₂) fun _ => ?_
    exact .totalOf' _ (fun input _ g₃ h₃ => ends_calm_moveInput hw h₃ phi input) h₂
  refine .theGraph' (.bind' (.totalOf' _ (fun b _ g₁ h₁ => ?_) (refl_of (Calm w) g)) fun _ g₁ h₁ => ?_)
  · exact .theGraph' (.totalOf' _ (fun phi _ => hphi phi) h₁)
  · refine .ite' (fun _ => .pure' h₁) fun _ => ?_
    refine .bind' (Q := fun _ => Calm w g) (.report' _ h₁) fun _ g₂ h₂ => ?_
    refine .bind' (ends_reinit (typeless_calm w g) h₂) fun _ g₃ h₃ =>
      .theGraph' (.ite' (fun _ => .pure' h₃) fun _ => ?_)
    exact ends_retyped (typeless_calm w g) h₃ steps_deduceTypes

/-! ## Truth values -/

theorem ends_calm_buildConversion (h : Calm w g₀ g) (r : Option SiteId) (cond : VarId)
    (t : Option Ty) : Ends c g (buildConversion r cond t)
      (fun x g' => Calm w g₀ g' ∧ g'.role x = .plain) (Calm w g₀) := by
  refine .theGraph' ?_
  split
  · exact .throw' _ h
  · next d _ =>
    apply Ends.edit'
    simp only
    have htest : Still w g ((g.duplicate d).2.updateSite (g.duplicate d).1
        fun x => { x with declared := Ty.boolean }) :=
      (still_duplicate d).trans (still_updateSite _ _)
    generalize (g.duplicate d).1 = test at htest ⊢
    generalize (g.duplicate d).2.updateSite test _ = g₁ at htest ⊢
    have hone : Still w g₁ (g₁.newLit 1 t).2 := still_newSite _
    generalize (g₁.newLit 1 t).1 = one at ⊢
    generalize (g₁.newLit 1 t).2 = g₂ at hone ⊢
    have hzero : Still w g₂ (g₂.newLit 0 t).2 := still_newSite _
    generalize (g₂.newLit 0 t).1 = zero at ⊢
    generalize (g₂.newLit 0 t).2 = g₃ at hzero ⊢
    have hbuild := (htest.trans hone).trans (hzero.trans (still_buildInsn
      (x := { opcode := .ternary, synthetic := true }) rfl r [test, one, zero]))
    exact ⟨h.trans hbuild.calm, role_buildInsn rfl _ _⟩

/-- A conversion takes the place of plain code. -/
theorem ends_calm_replaceByConversion (h : Calm w g₀ g) (hi : g₀.role i = .plain)
    (r : Option SiteId) (cond : VarId) (t : Option Ty) :
    Ends c g (do
      let conversion ← buildConversion r cond t
      edit fun g => g.replaceInsn i conversion) (fun _ => Calm w g₀) (Calm w g₀) := by
  refine .bind' (ends_calm_buildConversion h r cond t) ?_
  rintro x g₁ ⟨h₁, hx⟩
  refine .edit' (Q := fun _ => Calm w g₀) ?_
  exact h₁.trans (still_replaceInsn (by rw [h₁.role, hi]) hx).calm

theorem still_buildNegation (result operand : SiteId) :
    Still w g (buildNegation g result operand).2 ∧
      (buildNegation g result operand).2.role (buildNegation g result operand).1 = .plain :=
  ⟨(still_updateSite operand _).trans (still_buildInsn rfl _ _), role_buildInsn rfl _ _⟩

theorem ends_calm_negateXor (h : Calm w g₀ g) (hi : g₀.role i = .plain) (s : SiteId) :
    Ends c g (negateXor i s) (fun _ => Calm w g₀) (Calm w g₀) := by
  refine .theGraph' ?_
  split
  · exact .throw' _ h
  · next result _ =>
    refine .editThen' ?_
    have hoperand := h.trans (still_duplicate s).calm
    generalize (g.duplicate s).1 = operand
    generalize (g.duplicate s).2 = g₁ at hoperand ⊢
    refine .theGraph' (.ite' (fun _ => ?_) fun _ => ?_)
    · refine .editThen' ?_
      obtain ⟨hbuild, hnew⟩ := still_buildNegation (w := w) (g := g₁) result operand
      have h₂ := hoperand.trans hbuild.calm
      refine .edit' (Q := fun _ => Calm w g₀) ?_
      exact h₂.trans (still_replaceInsn (by rw [h₂.role, hi]) hnew).calm
    · refine .editThen' ?_
      have hfresh := hoperand.trans ((still_duplicateFresh result).trans (still_updateSite
        (g₁.duplicateFresh result).1 fun x => { x with declared := Ty.boolean })).calm
      simp only
      generalize (g₁.duplicateFresh result).1 = fresh at hfresh ⊢
      generalize (g₁.duplicateFresh result).2.updateSite fresh _ = g₂ at hfresh ⊢
      refine .editThen' ?_
      obtain ⟨hbuild, hnew⟩ := still_buildNegation (w := w) (g := g₂) fresh operand
      have h₃ := hfresh.trans hbuild.calm
      have hplaced := h₃.trans (calm_insertBefore (a := i) hnew (by
        rw [h₃.role, hi]
        exact w.lead (by decide)))
      refine .editThen' ?_
      generalize ((buildNegation g₂ fresh operand).2.insertBefore i
        (buildNegation g₂ fresh operand).1).2 = g₄ at hplaced ⊢
      refine .ite' (fun _ => .pure' hplaced) fun _ => .theGraph' ?_
      split
      · exact .throw' _ hplaced
      · exact ends_calm_replaceByConversion hplaced hi _ _ _

theorem ends_calm_convertUse (h : Calm w g₀ g) (hi : w.Before (g₀.role i))
    (hargs : w.SparesArgs (g₀.role i)) (s : SiteId) (v : VarId) (t : Ty) :
    Ends c g (convertUse i s v t) (fun _ => Calm w g₀) (Calm w g₀) := by
  refine .editThen' ?_
  have hfresh := h.trans (still_duplicateFresh s).calm
  generalize (g.duplicateFresh s).1 = result
  generalize (g.duplicateFresh s).2 = g₁ at hfresh ⊢
  refine .bind' (ends_calm_buildConversion hfresh _ _ _) ?_
  rintro x g₂ ⟨h₂, hx⟩
  have hplaced := h₂.trans (calm_insertBefore (a := i) hx (by rw [h₂.role]; exact hi))
  refine .editThen' ?_
  generalize (g₂.insertBefore i x).2 = g₃ at hplaced ⊢
  refine .ite' (fun _ => .pure' hplaced) fun _ => .edit' (Q := fun _ => Calm w g₀) ?_
  exact hplaced.trans (still_swapArg (by rw [hplaced.role]; exact hargs) s _).calm

theorem role_of_flipsBit (h : flipsBit g i = true) : g.role i = .plain := by
  unfold flipsBit at h
  split at h
  · next hop _ =>
    rw [role, hop]
    rfl
  · cases h

theorem ends_calm_fixTruthUse (h : Calm w g₀ g)
    (hw : ∀ i, (g.site s).owner = some i → w.Before (g₀.role i) ∧ w.SparesArgs (g₀.role i)) :
    Ends c g (fixTruthUse s) (fun _ => Calm w g₀) (Calm w g₀) := by
  refine .theGraph' (.ite' (fun _ => .pure' h) fun _ => ?_)
  split
  · next i v hi _ =>
    obtain ⟨hbefore, hargs⟩ := hw i hi
    refine .ite' (fun _ => .pure' h) fun _ => ?_
    split
    · exact .pure' h
    · next hop =>
      refine ends_calm_replaceByConversion h ?_ _ _ _
      rw [← h.role, role, hop]
      rfl
    · refine .ite' (fun hflip => ?_) fun _ => ?_
      · exact ends_calm_negateXor h (by rw [← h.role]; exact role_of_flipsBit hflip) s
      · exact ends_calm_convertUse h hbefore hargs s v _
  · exact .pure' h

/-- Where plain code may be put before anything, truth values are no matter for the rule. -/
theorem ends_calm_fixPrimitives (hbefore : ∀ x, w.Before x) (hargs : ∀ x, w.SparesArgs x) :
    Ends c g fixPrimitives (fun _ => Calm w g) (Calm w g) := by
  refine ends_walk (typeless_calm w g) (refl_of (Calm w) g) fun v g₁ h₁ => ?_
  refine .theGraph' (.read' (.ite' (fun _ => .pure' h₁) fun _ => ?_))
  exact .anyOf' _ (fun s _ g₂ h₂ => ends_calm_fixTruthUse h₂ fun _ _ => ⟨hbefore _, hargs _⟩) h₁

/-! ## A cast after a jump -/

/-- An instruction hands its definition over to a cast. It has a fresh result then, and else the roles
    and the results of jumps are as they were. -/
theorem still_handOver (h : g.Wired P ∅ ∅) {v : VarId} (hs : (g.var v).assign = some s)
    (hi : (g.site s).owner = some i) (hplaced : (g.insn i).block.isSome = true) (t : Ty) :
    ∃ g₁ g₂ b n, (g.duplicateFresh s).2.setResult i (some (g.duplicateFresh s).1) = g₁ ∧
      (g₁.duplicate (g.duplicateFresh s).1).2.buildInsn
        { opcode := .checkCast, type := some t, soft := true, synthetic := true } (some s)
        [(g₁.duplicate (g.duplicateFresh s).1).1] = (⟨g.insns.size⟩, g₂) ∧
      g₂.place? i = some (b, n) ∧ Still Rule.jumpsLast.blind g g₂ ∧
      ∀ j, g.role j = .jump → Rule.jumpsLast.watched (g₂.insn j) =
        if j = i then [(g.duplicateFresh s).1] else Rule.jumpsLast.watched (g.insn j) := by
  obtain ⟨hvs, hheld, hno⟩ := h.slots.assign v s hs
  have hlt := placed_lt hplaced
  have hres : (g.insn i).result = some s := (h.slots.owned s i hi).resolve_left (hno i)
  obtain ⟨g₁, g₂, hg₁, hg₂, e, hblocks⟩ := drafted_handOver hlt hres hheld hvs
    (x := { opcode := .checkCast, type := some t, soft := true, synthetic := true })
    ⟨rfl, rfl, rfl, rfl⟩ (.inr ⟨rfl, rfl⟩)
  obtain ⟨b, n, hplace, -⟩ := h.seats.place? hplaced
  have hset : Still Rule.jumpsLast.blind g g₁ := by
    rw [← hg₁]
    exact (still_duplicateFresh s).trans (still_setResult (fun _ _ _ _ => rfl) _)
  have hbuild : ∀ w : Rule, Still w g₁ g₂ := by
    intro w
    have hboth := (still_duplicate (w := w) (g := g₁) (g.duplicateFresh s).1).trans
      (still_buildInsn (x := { opcode := .checkCast, type := some t, soft := true, synthetic := true })
        rfl (some s) [(g₁.duplicate (g.duplicateFresh s).1).1])
    rwa [hg₂] at hboth
  refine ⟨g₁, g₂, b, n, hg₁, hg₂, ?_, hset.trans (hbuild _), fun j hj => ?_⟩
  · rw [e.carried.place? hblocks hlt, hplace]
  · have hsame := insns_duplicateFresh (g := g) s
    rw [(hbuild .jumpsLast).slots j ((hset.role j).trans hj), ← hg₁,
      insn_setResult (by rw [hsame]; exact hlt), insn_congr hsame]
    split
    · rfl
    · rfl

/-- The cast of a definition breaks the rule just where the definition is that of a jump. -/
theorem traced_castDefinition (h : g.Wired P ∅ ∅) (v : VarId) (t : Ty) :
    Traced .jumpsLast g (castDefinition g v t).2 := by
  by_cases hany : ∃ i, g.assignInsn? v = some i ∧ g.role i = .jump
  · obtain ⟨i, hassign, hjump⟩ := hany
    rcases castDefinition_cases g v t with heq | ⟨s, i', hs, hi, hplaced, heq⟩
    · rw [heq]
      exact refl_of (Traced _) g
    rw [assignInsn?, hs, Option.bind_some, hi] at hassign
    cases hassign
    obtain ⟨g₁, g₂, b, n, hg₁, hg₂, hplace, hstill, hslots⟩ := still_handOver h hs hi hplaced t
    have hcast : g₂.role ⟨g.insns.size⟩ = .plain := by
      rw [hstill.role]
      exact role_of_size_le (Nat.le_refl _)
    have hbroken : ¬(g₂.insertAfter i ⟨g.insns.size⟩).2.Obeys .jumpsLast := fun hobeys =>
      order_of_insertAfter hcast hplace hobeys ((hstill.role i).trans hjump)
    have hput := steady_insertAt (w := .jumpsLast) (g := g₂) b (n + 1) ⟨g.insns.size⟩
    have hwatched : ∀ j, g.role j = .jump → _ := fun j hj =>
      (hput.slots j ((hstill.role j).trans hj)).trans (hslots j hj)
    simp only [heq, hg₁, hg₂]
    rw [insertAfter, hplace] at hbroken ⊢
    refine traced_of_break (i := i) (s := (g.duplicateFresh s).1)
      (fun j => (hput.role j).trans (hstill.role j)) (Nat.le_trans hstill.grows hput.grows)
      (fun j hne hj => ?_) hjump ?_ ?_ (not_holds_duplicateFresh s) hbroken
    · rw [hwatched j hj, if_neg hne]
    · obtain ⟨-, -, hno⟩ := h.slots.assign v s hs
      simp [Rule.watched, Rule.jumpsLast, (h.slots.owned s i hi).resolve_left (hno i)]
    · rw [hwatched i hjump, if_pos rfl]
      exact List.mem_cons_self
  · refine (calm_castDefinition v t fun i hi _ => ?_).traced
    have hne : g.role i ≠ .jump := fun hjump => hany ⟨i, hi, hjump⟩
    exact ⟨⟨hne, (Rule.before_jumpsLast _).2⟩, fun hjump => absurd hjump hne⟩

theorem traced_insertVarCasts (h : g.Wired P ∅ ∅) (v : VarId) :
    (insertVarCasts c g v).2.Wired P ∅ ∅ ∧ Traced .jumpsLast g (insertVarCasts c g v).2 ∧
      Later g (insertVarCasts c g v).2 := by
  unfold insertVarCasts
  split
  · exact ⟨h, refl_of (Traced _) g, refl_of Later g⟩
  · next t _ =>
    obtain ⟨hw, hlater⟩ := wired_castDefinition h v t
    have htraced := traced_castDefinition h v t
    generalize castDefinition g v t = r at hw hlater htraced ⊢
    obtain ⟨_ | _, g₁⟩ := r
    · obtain ⟨⟨hw₂, htraced₂⟩, hlater₂⟩ := kept_tally
        (K := fun g' => g'.Wired P ∅ ∅ ∧ Traced .jumpsLast g g') (l := (g₁.var v).uses)
        (f := fun g s => ((castUse g s).1.toNat, (castUse g s).2))
        (fun s hs g' h' hl => by
          obtain ⟨hw', hl'⟩ := wired_castUse h'.1 (hl.reads (reads_of_use hw hs))
          exact ⟨⟨hw', h'.2.trans (calm_castUse (fun _ heq _ _ _ => rfl) s).traced⟩, hl'⟩)
        ⟨hw, htraced⟩
      exact ⟨hw₂, htraced₂, trans_of Later hlater hlater₂⟩
    · exact ⟨hw, htraced, hlater⟩

theorem ends_traced_insertCasts (h : g.Wired P ∅ ∅) :
    Ends c g insertCasts (fun _ => Traced .jumpsLast g) (Traced .jumpsLast g) := by
  have hf := kept_tally (K := fun g' => g'.Wired P ∅ ∅ ∧ Traced .jumpsLast g g') (l := g.live)
    (f := insertVarCasts c) (fun v _ g₁ h₁ _ => by
      obtain ⟨hw, htraced, hlater⟩ := traced_insertVarCasts (c := c) h₁.1 v
      exact ⟨⟨hw, h₁.2.trans htraced⟩, hlater⟩) ⟨h, refl_of (Traced _) g⟩
  exact .read' (ends_counted (typeless_traced _ g)
    (f := fun g => tally (insertVarCasts c) g.live g) hf.1.2 fun n => .inserted n "cast")

/-! ## A conversion before a phi -/

/-- Where the phis have lost their place, a phi reads a new site in the place of an input. -/
theorem traced_swapInput {g₁ : MethodGraph} (h : Steady .phisFirst g g₁)
    (hbroken : ¬g₁.Obeys .phisFirst) (hphi : g.role i = .phi) (hs : s ∈ (g.insn i).args) (x : Site) :
    Traced .phisFirst g ((g₁.newSite x).2.replaceArg i s (g₁.newSite x).1).2 := by
  have hargs : ((g₁.newSite x).2.insn i).args = (g.insn i).args := h.slots i hphi
  have hswap : Still Rule.phisFirst.blind g₁ ((g₁.newSite x).2.replaceArg i s (g₁.newSite x).1).2 :=
    still_swapArg (fun _ _ _ _ => rfl) s x
  refine traced_of_break (i := i) (s := (g₁.newSite x).1) (fun j => ?_)
    (Nat.le_trans h.grows hswap.grows) (fun j hne hj => ?_) hphi (List.ne_nil_of_mem hs)
    (mem_args_replaceArg (by rw [hargs]; exact hs) _) (fun hold => ?_) fun hobeys => ?_
  · exact (hswap.role j).trans (h.role j)
  · rw [insn_replaceArg_of_ne hne]
    exact h.slots j hj
  · exact not_holds_newSite x (Nat.lt_of_lt_of_le hold h.grows)
  · exact hbroken (hswap.calm.obeys.mp hobeys)

/-- The conversion for a phi stands before it, and the phi reads it. -/
theorem ends_traced_convertUse (h : g.Wired P ∅ ∅) (hphi : g.role i = .phi)
    (hplaced : (g.insn i).block.isSome = true) {v : VarId} (hs : Reads g v s)
    (hi : (g.site s).owner = some i) (t : Ty) :
    Ends c g (convertUse i s v t) (fun _ => Traced .phisFirst g) (Traced .phisFirst g) := by
  obtain ⟨d, hd, hheld⟩ := assigned_of_read h hs.held hs.varOf
  have harg := hs.arg h hi
  obtain ⟨x, h₁, hfree, hdef, hext⟩ := wired_duplicateFresh h hs.isRegister
  have hfresh := still_duplicateFresh (w := .phisFirst) (g := g) s
  refine .editThen' ?_
  generalize (g.duplicateFresh s).1 = result at h₁ hfree hdef ⊢
  generalize (g.duplicateFresh s).2 = g₁ at h₁ hfree hdef hext hfresh ⊢
  have hd₁ : (g₁.var v).assign = some d := by
    rcases hext.var v with hv | ⟨hle, -⟩
    · rw [hv, hd]
    · exact absurd (h.names.var s v hs.held hs.varOf) (Nat.not_lt.mpr hle)
  refine .bind' (.both (ends_buildConversion (E := Traced .phisFirst g) h₁ (offered_free hfree hdef)
    hd₁ (hext.holds hheld) (V := ∅) (fun v hv => .inr ?_) (some t))
    (ends_calm_buildConversion hfresh.calm _ _ _) fun _ ht _ => ht) ?_
  · rw [Option.bind_some, hdef.varOf, show v = x from hv.resolve_right id]
  rintro new g₂ ⟨⟨-, h₂, e₂⟩, hcalm, hnew⟩
  have hinsn : g₂.insn i = g.insn i := by
    rw [e₂.insn i (by rw [hext.insns]; exact placed_lt hplaced), hext.insn]
  obtain ⟨b, n, hplace, -⟩ := h₂.seats.place? (i := i) (by rw [hinsn]; exact hplaced)
  have hbroken : ¬(g₂.insertBefore i new).2.Obeys .phisFirst := fun hobeys =>
    absurd (order_of_insertBefore hnew hplace hobeys ((hcalm.role i).trans hphi)) (by decide)
  rw [insertBefore, hplace] at hbroken
  refine .editThen' ?_
  rw [insertBefore, hplace]
  have hput := hcalm.toSteady.trans (steady_insertAt b n new)
  simp only at hbroken ⊢
  generalize g₂.insertAt b n new = g₃ at hbroken hput ⊢
  exact .ite' (fun hno => absurd hno (by decide)) fun _ =>
    .edit' (Q := fun _ => Traced .phisFirst g) (traced_swapInput hput hbroken hphi harg _)

theorem ends_traced_fixTruthUse (h : g.Wired P ∅ ∅) {v : VarId} (hs : Reads g v s) :
    Ends c g (fixTruthUse s) (fun _ => Traced .phisFirst g) (Traced .phisFirst g) := by
  by_cases hany : ∃ i, (g.site s).owner = some i ∧ g.role i = .phi
  · obtain ⟨i, hi, hphi⟩ := hany
    have hop := Opcode.role_eq_phi.mp hphi
    have hrefl := refl_of (Traced .phisFirst) g
    refine .theGraph' (.ite' (fun _ => .pure' hrefl) fun _ => ?_)
    rw [hi, hs.varOf]
    simp only
    refine .ite' (fun _ => .pure' hrefl) fun hblock => ?_
    have hplaced : (g.insn i).block.isSome = true := by
      rw [Option.isSome_iff_ne_none]
      simpa using hblock
    rw [hop]
    refine .ite' (fun hflip => ?_) fun _ => ends_traced_convertUse h hphi hplaced hs hi _
    rw [role_of_flipsBit hflip] at hphi
    cases hphi
  · refine .imp (ends_calm_fixTruthUse (refl_of (Calm .phisFirst) g) fun i hi => ?_)
      fun _ => Calm.traced
    have hne : g.role i ≠ .phi := fun hphi => hany ⟨i, hi, hphi⟩
    exact ⟨Rule.phisFirst.lead hne, fun hphi => absurd hphi hne⟩

theorem ends_traced_fixPrimitives (h : g.Wired P ∅ ∅) :
    Ends c g fixPrimitives (fun _ => Traced .phisFirst g) (Traced .phisFirst g) := by
  let K := fun g' : MethodGraph => g'.Wired P ∅ ∅ ∧ Traced .phisFirst g g'
  have hK : Typeless K := fun g₁ g₂ hf h₁ =>
    ⟨typeless_wired P g₁ g₂ hf h₁.1, typeless_traced _ g g₁ g₂ hf h₁.2⟩
  refine .imp (D := K) ?_ fun _ => And.right
  refine ends_walk hK ⟨h, refl_of (Traced _) g⟩ fun v g₁ h₁ => ?_
  refine .theGraph' (.read' (.ite' (fun _ => .pure' h₁) fun _ => ?_))
  refine .imp (D := fun g' => Revised P g₁ g' ∧ Traced .phisFirst g g') ?_ fun _ h₂ =>
    ⟨h₂.1.1, h₂.2⟩
  refine .anyOf' _ (fun s hs g₂ h₂ => ?_) ⟨⟨h₁.1, refl_of Later g₁⟩, h₁.2⟩
  have hreads := h₂.1.2.reads (reads_of_use h₁.1 hs)
  exact .both (ends_fixTruthUse h₂.1 hreads) (.imp (ends_traced_fixTruthUse h₂.1.1 hreads)
    fun _ => h₂.2.trans) fun _ => And.intro

/-! ## All resolvers -/

/-- The resolvers that neither cast nor convert keep to both rules. -/
theorem ends_calm_resolverStep (hw : ∀ x, w.SparesArgs x) (hg : Coherent c g) {r : Resolver}
    (hcasts : r ≠ .insertCasts) (hfix : r ≠ .fixPrimitives) :
    Ends c g (resolverStep r) (fun _ => Calm w g) (Calm w g) := by
  have hrefl := refl_of (Calm w) g
  have htypes := typeless_calm w g
  cases r with
  | restoreTypeVarCasts => exact ends_calm_restoreTypeVarCasts
  | insertCasts => exact absurd rfl hcasts
  | deduceTypes => exact ends_retyped htypes hrefl steps_deduceTypes
  | splitConsts => exact ends_calm_splitConsts hw
  | fixPrimitives => exact absurd rfl hfix
  | forceImmutable => exact ends_retyped htypes hrefl steps_forceImmutable
  | insertMoves => exact ends_calm_insertMoves hw
  | search => exact ends_retyped htypes hrefl (steps_search hg)
  | removeGenerics => exact ends_retyped htypes hrefl steps_removeGenerics

/-- Phis come first after a resolver if and only if they did before, and converting truth values has
    left their inputs alone. -/
theorem phisLead_step (h : Sound P c g) (r : Resolver) :
    Ends c g (resolverStep r)
      (fun _ g' => g'.PhisLead ↔ g.PhisLead ∧ (r = .fixPrimitives → SameInputs g g'))
      (fun g' => g'.PhisLead ↔ g.PhisLead ∧ (r = .fixPrimitives → SameInputs g g')) := by
  by_cases hfix : r = .fixPrimitives
  · subst hfix
    refine .imp (ends_traced_fixPrimitives h.wired) fun g' ht => ?_
    simp only [phisLead_iff, sameInputs_iff, forall_const]
    exact ht.obeys_iff fun i _ s hs => h.wired.slots.holds_arg hs
  · have hcalm : Ends c g (resolverStep r) (fun _ => Calm Rule.phisFirst.blind g)
        (Calm Rule.phisFirst.blind g) := by
      by_cases hcasts : r = .insertCasts
      · subst hcasts
        exact ends_calm_insertCasts
      · exact ends_calm_resolverStep (fun _ _ _ _ _ => rfl) h.coherent hcasts hfix
    refine hcalm.imp fun g' hc => ?_
    rw [phisLead_iff, phisLead_iff, and_iff_left fun h => absurd h hfix]
    exact hc.obeys

theorem ends_calm_jumps (hg : Coherent c g) {r : Resolver} (hr : r ≠ .insertCasts) :
    Ends c g (resolverStep r) (fun _ => Calm .jumpsLast g) (Calm .jumpsLast g) := by
  by_cases hfix : r = .fixPrimitives
  · subst hfix
    exact ends_calm_fixPrimitives Rule.before_jumpsLast fun _ _ _ _ _ => rfl
  · exact ends_calm_resolverStep (fun _ _ _ _ _ => rfl) hg hr hfix

/-- Jumps end their blocks after a resolver if and only if they did before, and inserting casts has
    left their results alone. -/
theorem jumpsEnd_step (h : Sound P c g) (r : Resolver) :
    Ends c g (resolverStep r)
      (fun _ g' => g'.JumpsEnd ↔ g.JumpsEnd ∧ (r = .insertCasts → SameResults g g'))
      (fun g' => g'.JumpsEnd ↔ g.JumpsEnd ∧ (r = .insertCasts → SameResults g g')) := by
  by_cases hcasts : r = .insertCasts
  · subst hcasts
    refine .imp (ends_traced_insertCasts h.wired) fun g' ht => ?_
    simp only [jumpsEnd_iff, sameResults_iff, forall_const]
    exact ht.obeys_iff fun i _ s hs => h.wired.slots.holds_result (Option.mem_toList.mp hs)
  · refine (ends_calm_jumps h.coherent hcasts).imp fun g' hc => ?_
    rw [jumpsEnd_iff, jumpsEnd_iff, and_iff_left fun h => absurd h hcasts]
    exact hc.obeys

/-- Jumps that have no results stay as they are. -/
theorem jumpsYieldNothing_step (h : Sound P c g) (hg : g.JumpsYieldNothing) (r : Resolver) :
    Ends c g (resolverStep r) (fun _ g' => g'.JumpsYieldNothing ∧ SameResults g g')
      (fun g' => g'.JumpsYieldNothing ∧ SameResults g g') := by
  have htraced : Ends c g (resolverStep r) (fun _ => Traced .jumpsLast g) (Traced .jumpsLast g) := by
    by_cases hcasts : r = .insertCasts
    · subst hcasts
      exact ends_traced_insertCasts h.wired
    · exact (ends_calm_jumps h.coherent hcasts).imp fun _ => Calm.traced
  rw [jumpsYieldNothing_iff] at hg
  refine htraced.imp fun g' ht => ⟨jumpsYieldNothing_iff.mpr fun i hi => ?_,
    sameResults_iff.mpr fun i hi => ?_⟩
  · rw [ht.role] at hi
    exact ht.empty i hi (hg i hi)
  · rw [ht.empty i hi (hg i hi), hg i hi]

/-! ## Runs -/

/-- What holds after one resolver just if it held before and the resolver `r₀` has left something
    alone holds after a run just if it held before and each `r₀` of the run has left that alone. -/
theorem runAll_iff {K : MethodGraph → Prop} {S : MethodGraph → MethodGraph → Prop} {r₀ : Resolver}
    (hstep : ∀ (r : Resolver) (s : Session), Reached c g s.graph →
      (K ((resolverStep r).after c s).2.graph ↔
        K s.graph ∧ (r = r₀ → S s.graph ((resolverStep r).after c s).2.graph)))
    (rs : List Resolver) {s : Session} (hs : Reached c g s.graph) :
    K (runAll c rs s).graph ↔ K s.graph ∧ ∀ before after, rs = before ++ r₀ :: after →
      S (runAll c before s).graph (runAll c (before ++ [r₀]) s).graph := by
  induction rs generalizing s with
  | nil =>
    refine (and_iff_left fun before after h => ?_).symm
    exact absurd h.symm (List.append_ne_nil_of_right_ne_nil _ (List.cons_ne_nil _ _))
  | cons r rs ih =>
    have htail := ih (.resolver r s hs)
    rw [hstep r s hs, and_assoc] at htail
    refine htail.trans (and_congr_right fun _ => ⟨fun h before after heq => ?_, fun h => ?_⟩)
    · cases before with
      | nil =>
        obtain ⟨rfl, rfl⟩ := List.cons_eq_cons.mp heq
        exact h.1 rfl
      | cons r' before =>
        obtain ⟨rfl, htl⟩ := List.cons_eq_cons.mp heq
        exact h.2 before after htl
    · refine ⟨fun hr => ?_, fun before after heq => ?_⟩
      · subst hr
        exact h [] rs rfl
      · exact h (r :: before) after (congrArg (r :: ·) heq)

theorem reached_runAll (rs : List Resolver) {s : Session} (hs : Reached c g s.graph) :
    Reached c g (runAll c rs s).graph := by
  induction rs generalizing s with
  | nil => exact hs
  | cons r rs ih => exact ih (.resolver r s hs)

theorem runAll_concat (rs : List Resolver) (r : Resolver) (s : Session) :
    runAll c (rs ++ [r]) s = ((resolverStep r).after c (runAll c rs s)).2 := by
  rw [runAll, List.foldl_append]
  rfl

theorem jumpsYieldNothing_runAll (h : ∀ g', Reached c g g' → Sound P c g') (rs : List Resolver)
    {s : Session} (hs : Reached c g s.graph) (hnone : s.graph.JumpsYieldNothing) :
    (runAll c rs s).graph.JumpsYieldNothing := by
  induction rs generalizing s with
  | nil => exact hnone
  | cons r rs ih =>
    exact ih (.resolver r s hs)
      (Ends.iff_after.mp (jumpsYieldNothing_step (h _ hs) hnone r) s rfl).1

open Listing in
/-- How the order within blocks fares in a run of resolvers, from any graph that resolvers reach. The
    phis come first at the end if and only if they did at the start and no conversion of truth values
    has changed the inputs of a phi. Nothing follows a jump if and only if that was so at the start and
    no insertion of casts has changed the result of a jump; this is so whenever jumps have no
    results. -/
theorem block_shape_kept_iff {m : MethodDecl} {b : Built} (hb : m.build = .ok b)
    (hdef : Defined b.graph) {s : Session} (hs : Reached c b.graph s.graph) (rs : List Resolver) :
    ((runAll c rs s).graph.PhisLead ↔ s.graph.PhisLead ∧
      ∀ before after, rs = before ++ .fixPrimitives :: after →
        SameInputs (runAll c before s).graph (runAll c (before ++ [.fixPrimitives]) s).graph) ∧
    ((runAll c rs s).graph.JumpsEnd ↔ s.graph.JumpsEnd ∧
      ∀ before after, rs = before ++ .insertCasts :: after →
        SameResults (runAll c before s).graph (runAll c (before ++ [.insertCasts]) s).graph) ∧
    (s.graph.JumpsEnd → s.graph.JumpsYieldNothing → (runAll c rs s).graph.JumpsEnd) := by
  have hsound : ∀ g', Reached c b.graph g' → Sound (paramVars m b.named) c g' := fun g' =>
    sound_of_build_reached hb hdef
  have hphis := runAll_iff (c := c) (g := b.graph) (K := PhisLead) (S := SameInputs)
    (fun r s hs => Ends.iff_after.mp (phisLead_step (hsound _ hs) r) s rfl) rs hs
  have hjumps := runAll_iff (c := c) (g := b.graph) (K := JumpsEnd) (S := SameResults)
    (fun r s hs => Ends.iff_after.mp (jumpsEnd_step (hsound _ hs) r) s rfl) rs hs
  refine ⟨hphis, hjumps, fun hend hnone => hjumps.mpr ⟨hend, fun before after _ => ?_⟩⟩
  have hreached := reached_runAll before hs
  have hstep := jumpsYieldNothing_step (hsound _ hreached)
    (jumpsYieldNothing_runAll hsound before hs hnone) .insertCasts
  rw [runAll_concat]
  exact (Ends.iff_after.mp hstep _ rfl).2

open Listing in
/-- A method that joins a truth value which is a number elsewhere. Its throw may have a result. -/
def joinedTruth (result use : String) : MethodDecl :=
  { (default : MethodDecl) with
    cls := "a.Main"
    name := "m"
    typeVars := ["T"]
    blocks := [
      { (default : BlockDecl) with
        succs := [1]
        insns := [
          { (default : InsnDecl) with op := "sget", result := "v:boolean" },
          { (default : InsnDecl) with op := "arith.add", result := "w:int", args := ["v:int", "#1:int"] },
          { (default : InsnDecl) with op := "goto" }] },
      { (default : BlockDecl) with
        succs := [2]
        insns := [
          { (default : InsnDecl) with op := "phi", result := "p", args := ["v"], incoming := [0] },
          { (default : InsnDecl) with op := "throw", result := result, args := ["p"] }] },
      { (default : BlockDecl) with
        insns := [{ (default : InsnDecl) with op := "return", args := [use] }] }] }

/-- Without a result of the throw only the phi loses its place, to the conversion of its input. With
    one, a cast comes to stand after the throw. -/
theorem joinedTruth_loses_shape :
    let c : Context := { hierarchy := Hierarchy.ofClasses [] }
    let b := (joinedTruth "" "w:int").build.toOption.getD default
    let s := (reinit.after c { graph := pinVars b.graph }).2
    let b' := (joinedTruth "e:int[]" "e:T").build.toOption.getD default
    let s' := (reinit.after c { graph := pinVars b'.graph }).2
    ((joinedTruth "" "w:int").build = .ok b ∧ Defined b.graph ∧ Reached c b.graph s.graph ∧
      s.graph.PhisLead ∧ s.graph.JumpsEnd ∧ s.graph.JumpsYieldNothing ∧
      ¬(runAll c [.fixPrimitives] s).graph.PhisLead ∧
      ¬SameInputs s.graph (runAll c [.fixPrimitives] s).graph ∧
      (runAll c [.insertMoves, .insertCasts, .splitConsts] s).graph.PhisLead ∧
      (runAll c [.insertMoves, .fixPrimitives, .insertCasts] s).graph.JumpsEnd) ∧
    ((joinedTruth "e:int[]" "e:T").build = .ok b' ∧ Defined b'.graph ∧
      Reached c b'.graph s'.graph ∧ s'.graph.JumpsEnd ∧
      ¬(runAll c [.insertCasts] s').graph.JumpsEnd ∧
      ¬SameResults s'.graph (runAll c [.insertCasts] s').graph) := by
  intro c b s b' s'
  have hb : (joinedTruth "" "w:int").build = .ok b := ok_getD (by decide +kernel)
  have hb' : (joinedTruth "e:int[]" "e:T").build = .ok b' := ok_getD (by decide +kernel)
  have hdef : Defined b.graph ∧ Defined b'.graph := by decide +kernel
  have hs := Reached.reinit (c := c) { graph := pinVars b.graph } Reached.pinned
  have hs' := Reached.reinit (c := c) { graph := pinVars b'.graph } Reached.pinned
  have hstart : s.graph.PhisLead ∧ s.graph.JumpsEnd ∧ s.graph.JumpsYieldNothing ∧
      s'.graph.JumpsEnd := by decide +kernel
  obtain ⟨hphis, hjumps, hnone, hjumps'⟩ := hstart
  have hbroken : ¬(runAll c [.fixPrimitives] s).graph.PhisLead ∧
      ¬(runAll c [.insertCasts] s').graph.JumpsEnd := by decide +kernel
  have hkept := fun rs => block_shape_kept_iff hb hdef.1 hs rs
  have hkept' := fun rs => block_shape_kept_iff hb' hdef.2 hs' rs
  refine ⟨⟨hb, hdef.1, hs, hphis, hjumps, hnone, hbroken.1, fun hsame => ?_, ?_, ?_⟩,
    hb', hdef.2, hs', hjumps', hbroken.2, fun hsame => ?_⟩
  · refine hbroken.1 ((hkept _).1.mpr ⟨hphis, fun before after heq => ?_⟩)
    cases before with
    | nil => exact hsame
    | cons r before => simp at heq
  · refine (hkept _).1.mpr ⟨hphis, fun before after heq => ?_⟩
    have hmem : Resolver.fixPrimitives ∈ [Resolver.insertMoves, .insertCasts, .splitConsts] := by
      rw [heq]
      simp
    simp at hmem
  · exact (hkept _).2.2 hjumps hnone
  · refine hbroken.2 ((hkept' _).2.1.mpr ⟨hjumps', fun before after heq => ?_⟩)
    cases before with
    | nil => exact hsame
    | cons r before => simp at heq

end
end TypeRecovery.Inference
