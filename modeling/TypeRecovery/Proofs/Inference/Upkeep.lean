import TypeRecovery.Proofs.Inference.Copies

/- Each resolver leaves a graph in which nothing is open, also where it fails. A resolver can go through
   graphs that are not of that kind, so what it does is told step by step. -/
namespace TypeRecovery.Inference

open MethodGraph

/-- From the graph the step leads to a graph in which nothing is open. -/
def Upholds {α : Type} (P : Set VarId) (c : Context) (g : MethodGraph) (m : Infer α) : Prop :=
  Ends c g m (fun _ => Wired P ∅ ∅) (Wired P ∅ ∅)

section
variable {c : Context} {g : MethodGraph} {P : Set VarId} {α : Type}

theorem upholds_retyped {m : Infer α} (h : g.Wired P ∅ ∅)
    (hm : Steps (Retyped c) c g m anyResult) : Upholds P c g m :=
  ends_retyped (typeless_wired P) h hm

/-! ## Casts, constants and moves -/

theorem upholds_restoreTypeVarCasts (h : g.Wired P ∅ ∅) : Upholds P c g restoreTypeVarCasts := by
  have hf := kept_tally (K := Wired P ∅ ∅) (l := g.live)
    (fun v _ _ h' _ => wired_restoreCasts (c := c) h' v) h
  exact .read' (ends_counted (typeless_wired P) (f := fun g => tally (restoreCasts c) g.live g) hf.1 _)

theorem upholds_copying (h : g.Wired P ∅ ∅) {r : Resolver} (hr : r ∈ copying) :
    Upholds P c g (resolverStep r) :=
  (ends_copying hr (contracted_refl h)).imp fun _ => Contracted.wired

/-! ## Truth values -/

/-- Nothing is open, and the graph comes later than another. -/
def Revised (P : Set VarId) (g g' : MethodGraph) : Prop := g'.Wired P ∅ ∅ ∧ Later g g'

/-- A variable that is read has a definition. -/
theorem assigned_of_read (h : g.Wired P ∅ ∅) {s : SiteId} (hs : g.Holds s) {v : VarId}
    (hv : g.varOf? s = some v) : ∃ d, (g.var v).assign = some d ∧ g.Holds d := by
  obtain ⟨d, hd, -⟩ := h.defined v (h.names.var s v hs hv) id
  exact ⟨d, hd, (h.slots.assign v d hd).2.1⟩

theorem ends_buildConversion {F : Set InsnId} {U V : Set VarId} {E : MethodGraph → Prop}
    (h : g.Wired P F U) {r : Option SiteId} (hr : Offered F g r) {cond : VarId} {d : SiteId}
    (hd : (g.var cond).assign = some d) (hheld : g.Holds d)
    (hU : ∀ v ∈ U, v ∈ V ∨ r.bind g.varOf? = some v) (t : Option Ty) :
    Ends c g (buildConversion r cond t) (fun i g' => i = ⟨g.insns.size⟩ ∧
      g'.Wired P (insert ⟨g.insns.size⟩ F) V ∧ Assembled g r g') E := by
  refine .theGraph' ?_
  simp only [hd]
  have hconv := wired_conversion h hheld t hr hU
  apply Ends.edit'
  simp only at hconv ⊢
  obtain ⟨g', hbuild, h', e⟩ := hconv
  rw [hbuild]
  exact ⟨rfl, h', e⟩

/-- An instruction that was built with the result of another replaces it. -/
theorem revised_supersede {g₀ g' : MethodGraph} (h : Revised P g₀ g) {i : InsnId}
    (hplaced : (g.insn i).block.isSome = true) (hop : (g.insn i).opcode ≠ .phi)
    (h' : g'.Wired P (insert ⟨g.insns.size⟩ (insert i ∅)) ∅) (e : Assembled g (g.insn i).result g') :
    Revised P g₀ (g'.replaceInsn i ⟨g.insns.size⟩).2 := by
  obtain ⟨h₁, hlater⟩ := wired_supersede h' hplaced hop e
  refine ⟨h₁, trans_of Later (e.later g₀ h.2 fun s v hs hv hold => ?_) hlater⟩
  obtain ⟨w, hw, ha⟩ := h.1.slots.result i s hs
  rw [hv] at hw
  cases hw
  exact h.2.assign v s hold ha

/-- A conversion from another variable replaces an instruction. -/
theorem ends_replaceByConversion {g₀ : MethodGraph} (h : Revised P g₀ g) {i : InsnId}
    (hplaced : (g.insn i).block.isSome = true) (hop : (g.insn i).opcode ≠ .phi) {s : SiteId}
    (hs : g.Holds s) {cond : VarId} (hcond : g.varOf? s = some cond) (t : Option Ty) :
    Ends c g (do
      let conversion ← buildConversion (g.insn i).result cond t
      edit fun g => g.replaceInsn i conversion) (fun _ => Revised P g₀) (Revised P g₀) := by
  obtain ⟨d, hd, hheld⟩ := assigned_of_read h.1 hs hcond
  have hopen : g.Wired P (insert i ∅) ∅ := h.1.weaken (Set.empty_subset _) (Set.Subset.refl _)
  refine .bind' (ends_buildConversion hopen (offered_result h.1 hplaced) hd hheld
    (V := ∅) (fun v hv => absurd hv id) t) ?_
  rintro _ g' ⟨rfl, h', e⟩
  exact .edit' (Q := fun _ => Revised P g₀) (revised_supersede h hplaced hop h' e)

theorem ends_convertUse {g₀ : MethodGraph} (h : Revised P g₀ g) {i : InsnId}
    (hplaced : (g.insn i).block.isSome = true) {s : SiteId} {v : VarId} (hs : Reads g v s) (t : Ty) :
    Ends c g (convertUse i s v t) (fun _ => Revised P g₀) (Revised P g₀) := by
  obtain ⟨d, hd, hheld⟩ := assigned_of_read h.1 hs.held hs.varOf
  have hlt := placed_lt hplaced
  obtain ⟨w, h₁, hfree, hdef, hext⟩ := wired_duplicateFresh h.1 hs.isRegister
  have hnew := not_holds_duplicateFresh (g := g) s
  refine .editThen' ?_
  generalize (g.duplicateFresh s).1 = result at h₁ hfree hdef hnew ⊢
  generalize (g.duplicateFresh s).2 = g₁ at h₁ hfree hdef hext ⊢
  have hd₁ : (g₁.var v).assign = some d := by
    rcases hext.var v with hv | ⟨hle, -⟩
    · rw [hv, hd]
    · exact absurd (h.1.names.var s v hs.held hs.varOf) (Nat.not_lt.mpr hle)
  refine .bind' (ends_buildConversion h₁ (offered_free hfree hdef) hd₁ (hext.holds hheld)
    (V := ∅) (fun v hv => .inr ?_) (some t)) ?_
  · rw [Option.bind_some, hdef.varOf, show v = w from hv.resolve_right id]
  rintro _ g₂ ⟨rfl, h₂, e₂⟩
  have hlater₂ : Later g₀ g₂ := by
    refine e₂.later g₀ (trans_of Later h.2 (later_extended hext)) fun u x hu _ hold => ?_
    cases hu
    exact absurd (h.2.holds hold) hnew
  -- the conversion is placed, so nothing is open any more
  obtain ⟨b, n, -, h₃, e₃⟩ := wired_insertBefore i h₂ e₂.loose (by
    rw [e₂.insn i (by rw [hext.insns]; exact hlt), hext.insn]
    exact hplaced)
  have hlater₃ := later_insnPlaced e₃
  refine .bind' (Q := fun _ g₃ => Revised P g₀ g₃ ∧ g₃.Holds result)
    (.edit' ⟨⟨h₃, trans_of Later hlater₂ hlater₃⟩,
      hlater₃.holds (holds_of_owner (e₂.result result rfl))⟩) ?_
  rintro done g₃ ⟨h₃, hheld₃⟩
  refine .ite' (fun _ => .pure' h₃) fun _ => .edit' (Q := fun _ => Revised P g₀) ?_
  obtain ⟨h₄, e₄⟩ := wired_swapCopy h₃.1 i s hheld₃
  exact ⟨h₄, trans_of Later h₃.2 e₄.later⟩

/-- The negation takes the place of the instruction, with its result. -/
theorem ends_replaceByNegation {g₀ : MethodGraph} (h : Revised P g₀ g) {i : InsnId}
    (hplaced : (g.insn i).block.isSome = true) (hop : (g.insn i).opcode ≠ .phi)
    {result operand : SiteId} (hres : (g.insn i).result = some result) (ho : g.Free operand) :
    Ends c g (do
      let negation ← edit fun g => buildNegation g result operand
      edit fun g => g.replaceInsn i negation) (fun _ => Revised P g₀) (Revised P g₀) := by
  have hopen : g.Wired P (insert i ∅) ∅ := h.1.weaken (Set.empty_subset _) (Set.Subset.refl _)
  have hne : result ≠ operand := by
    rintro rfl
    obtain ⟨v, -, hv⟩ := h.1.slots.result i result hres
    exact ho.assign v hv
  obtain ⟨g₁, hbuild, h₁, e₁⟩ := wired_buildNegation (V := ∅) hopen
    (hres ▸ offered_result h.1 hplaced) ho hne fun v hv => absurd hv id
  refine .editThen' ?_
  rw [hbuild]
  refine .edit' (Q := fun _ => Revised P g₀) ?_
  exact revised_supersede h hplaced hop h₁ (hres ▸ e₁)

/-- A negation on a fresh variable is put before an instruction. -/
theorem revised_negateBefore {g₀ : MethodGraph} (h : Revised P g₀ g) {i : InsnId}
    (hplaced : (g.insn i).block.isSome = true) {operand result : SiteId} (ho : g.Free operand)
    (hreg : g.isRegister result = true) :
    ∃ g₁ g₂, (g.duplicateFresh result).2.updateSite (g.duplicateFresh result).1
        (fun x => { x with declared := Ty.boolean }) = g₁ ∧
      buildNegation g₁ (g.duplicateFresh result).1 operand = (⟨g.insns.size⟩, g₂) ∧
      Revised P g₀ (g₂.insertBefore i ⟨g.insns.size⟩).2 ∧
      (g₂.insertBefore i ⟨g.insns.size⟩).2.insn i = g.insn i ∧
      (g₂.insertBefore i ⟨g.insns.size⟩).2.Holds (g.duplicateFresh result).1 := by
  obtain ⟨w, h₁, hfree, hdef, hext⟩ := wired_duplicateFresh h.1 hreg
  have hnew := not_holds_duplicateFresh (g := g) result
  have hlt := placed_lt hplaced
  generalize (g.duplicateFresh result).1 = fresh at h₁ hfree hdef hnew ⊢
  generalize (g.duplicateFresh result).2 = g₁ at h₁ hfree hdef hext ⊢
  have hne : fresh ≠ operand := by
    rintro rfl
    exact hnew ho.held
  have e := sameLinks_declare (g := g₁) fresh Ty.boolean
  have hext' := hext.updateSite hnew fun x => { x with declared := Ty.boolean }
  refine ⟨g₁.updateSite fresh fun x => { x with declared := Ty.boolean }, ?_⟩
  have hvarOf := e.varOf fresh
  have hfresh := offered_sameLinks (F := ∅) e (offered_free hfree hdef)
  have h₁' := h₁.congr e
  generalize g₁.updateSite fresh (fun x => { x with declared := Ty.boolean }) = g₂
    at h₁' hext' hvarOf hfresh ⊢
  have hsize : g₂.insns.size = g.insns.size := congrArg Array.size hext'.insns
  obtain ⟨g₃, hbuild, h₃, e₃⟩ := wired_buildNegation (V := ∅) h₁' hfresh (hext'.free ho) hne
    fun v hv => .inr (by rw [hvarOf, hdef.varOf, show v = w from hv.resolve_right id])
  have hinsn : g₃.insn i = g.insn i := by rw [e₃.insn i (hsize ▸ hlt), hext'.insn]
  have hloose := e₃.loose
  have hresult := e₃.result fresh rfl
  rw [hsize] at hbuild h₃ hloose hresult
  obtain ⟨b, n, -, h₄, e₄⟩ := wired_insertBefore i h₃ hloose (by rw [hinsn]; exact hplaced)
  have hlater₃ : Later g₀ g₃ := by
    refine e₃.later g₀ (trans_of Later h.2 (later_extended hext')) fun u x hu _ hold => ?_
    cases hu
    exact absurd (h.2.holds hold) hnew
  have hlater₄ := later_insnPlaced e₄
  refine ⟨g₃, rfl, hbuild, ⟨h₄, trans_of Later hlater₃ hlater₄⟩, ?_, ?_⟩
  · rw [e₄.insn, if_neg, hinsn]
    rintro rfl
    exact Nat.lt_irrefl _ hlt
  · exact hlater₄.holds (holds_of_owner hresult)

theorem ends_negateXor {g₀ : MethodGraph} (h : Revised P g₀ g) {i : InsnId}
    (hplaced : (g.insn i).block.isSome = true) (hop : (g.insn i).opcode ≠ .phi) {s : SiteId}
    (hs : g.Holds s) : Ends c g (negateXor i s) (fun _ => Revised P g₀) (Revised P g₀) := by
  refine .theGraph' ?_
  split
  · exact .throw' _ h
  · next result hres =>
    obtain ⟨h₁, hfree⟩ := wired_duplicate h.1 hs
    have hext := extended_duplicate (g := g) s
    refine .editThen' ?_
    generalize (g.duplicate s).1 = operand at hfree ⊢
    generalize (g.duplicate s).2 = g₁ at h₁ hfree hext ⊢
    have hrev : Revised P g₀ g₁ := ⟨h₁, trans_of Later h.2 (later_extended hext)⟩
    have hplaced₁ : (g₁.insn i).block.isSome = true := by rw [hext.insn]; exact hplaced
    have hop₁ : (g₁.insn i).opcode ≠ .phi := by rw [hext.insn]; exact hop
    have hres₁ : (g₁.insn i).result = some result := by rw [hext.insn, hres]
    refine .theGraph' (.ite' (fun _ => ?_) fun _ => ?_)
    · exact ends_replaceByNegation hrev hplaced₁ hop₁ hres₁ hfree
    · -- the negation goes to a fresh variable, and the old result is converted from that
      obtain ⟨v, hv, -⟩ := h₁.slots.result i result hres₁
      obtain ⟨g₂, g₃, hg₂, hbuild, h₄, hinsn, hheld⟩ := revised_negateBefore hrev hplaced₁ hfree
        (show g₁.isRegister result = true by rw [isRegister, hv]; rfl)
      refine .editThen' ?_
      simp only [hg₂]
      refine .editThen' ?_
      simp only [hbuild]
      refine .editThen' ?_
      generalize (g₃.insertBefore i ⟨g₁.insns.size⟩).2 = g₄ at h₄ hinsn hheld ⊢
      refine .ite' (fun _ => .pure' h₄) fun _ => .theGraph' ?_
      split
      · exact .throw' _ h₄
      · next cond hcond =>
        rw [← hres₁, ← hinsn]
        exact ends_replaceByConversion h₄ (by rw [hinsn]; exact hplaced₁) (by rw [hinsn]; exact hop₁)
          hheld hcond _

theorem flipsBit_ne_phi {i : InsnId} (h : flipsBit g i = true) : (g.insn i).opcode ≠ .phi := by
  intro hphi
  rw [flipsBit, hphi] at h
  cases h

theorem ends_fixTruthUse {g₀ : MethodGraph} (h : Revised P g₀ g) {v : VarId} {s : SiteId}
    (hs : Reads g v s) : Ends c g (fixTruthUse s) (fun _ => Revised P g₀) (Revised P g₀) := by
  refine .theGraph' (.ite' (fun _ => .pure' h) fun _ => ?_)
  split
  · next i v' hi hv =>
    have hs : Reads g v' s := by
      rw [hs.varOf] at hv
      cases hv
      exact hs
    refine .ite' (fun _ => .pure' h) fun hblock => ?_
    have hplaced : (g.insn i).block.isSome = true := by
      rw [Option.isSome_iff_ne_none]
      simpa using hblock
    split
    · exact .pure' h
    · next hop =>
      exact ends_replaceByConversion h hplaced (by rw [hop]; nofun) hs.held hs.varOf _
    · refine .ite' (fun hflip => ?_) fun _ => ?_
      · exact ends_negateXor h hplaced (flipsBit_ne_phi hflip) hs.held
      · exact ends_convertUse h hplaced hs _
  · exact .pure' h

theorem upholds_fixTruth (h : g.Wired P ∅ ∅) (v : VarId) : Upholds P c g (fixTruth v) := by
  refine .theGraph' (.read' (.ite' (fun _ => .pure' h) fun _ =>
    .imp (D := Revised P g) ?_ fun _ => And.left))
  refine .anyOf' _ (fun s hs g' h' => ?_) ⟨h, refl_of Later g⟩
  exact ends_fixTruthUse h' (h'.2.reads (reads_of_use h hs))

theorem upholds_fixPrimitives (h : g.Wired P ∅ ∅) : Upholds P c g fixPrimitives :=
  ends_walk (typeless_wired P) h fun v _ h' => upholds_fixTruth h' v

/-! ## All resolvers -/

theorem upholds_resolverStep (h : g.Wired P ∅ ∅) (hg : Coherent c g) (r : Resolver) :
    Upholds P c g (resolverStep r) := by
  cases r with
  | restoreTypeVarCasts => exact upholds_restoreTypeVarCasts h
  | insertCasts => exact upholds_copying h (by simp [copying])
  | deduceTypes => exact upholds_retyped h steps_deduceTypes
  | splitConsts => exact upholds_copying h (by simp [copying])
  | fixPrimitives => exact upholds_fixPrimitives h
  | forceImmutable => exact upholds_retyped h steps_forceImmutable
  | insertMoves => exact upholds_copying h (by simp [copying])
  | search => exact upholds_retyped h (steps_search hg)
  | removeGenerics => exact upholds_retyped h steps_removeGenerics

end
end TypeRecovery.Inference
