import TypeRecovery.Proofs.Inference.Ascents
import TypeRecovery.Proofs.Inference.Composition
import TypeRecovery.Proofs.Inference.Reached

/- Inserting moves, and when it does not come to an end. The moves that are added stand at the end of
   blocks that end in no jump, so no way up sees them, and the phis that wait for their turn keep their
   inputs. So what each phi comes to can be told from the graph before the first move. That is decided by
   its inputs in order: the first refusal ends the phi, and a circle before it ends everything. -/
namespace TypeRecovery.Inference

open MethodGraph Listing

/-! ## What the moves leave as it is -/

/-- Moves have been added that no way up sees: the older entries are as they were, up to the arguments
    of instructions outside `A`. -/
structure Paved (A : InsnId → Prop) (g g' : MethodGraph) : Prop where
  vars : g.vars.size ≤ g'.vars.size
  sites : g.sites.size ≤ g'.sites.size
  insns : g.insns.size ≤ g'.insns.size
  blocks : g'.blocks.size = g.blocks.size
  operand : ∀ s, g.Holds s → (g'.site s).operand = (g.site s).operand
  ty : ∀ v, v.index < g.vars.size → (g'.var v).ty = (g.var v).ty
  assign : ∀ v, v.index < g.vars.size → (g'.var v).assign = (g.var v).assign
  owner : ∀ v s, v.index < g.vars.size → (g.var v).assign = some s →
    (g'.site s).owner = (g.site s).owner
  insn : ∀ i, i.index < g.insns.size → (g'.insn i).block = (g.insn i).block ∧
    (g'.insn i).incoming = (g.insn i).incoming
  args : ∀ i, i.index < g.insns.size → A i → (g'.insn i).args = (g.insn i).args
  edges : ∀ b, (g'.block b).preds = (g.block b).preds ∧
    (g'.block b).synthetic = (g.block b).synthetic
  closed : ∀ b, endsInJump g' b = endsInJump g b
  phis : ∀ b, g'.leadingPhis b = g.leadingPhis b

section
variable {c : Context} {g g₁ g₂ g' : MethodGraph} {P U : Set VarId} {A B : InsnId → Prop} {b : BlockId}

theorem Paved.refl (A : InsnId → Prop) (g : MethodGraph) : Paved A g g :=
  ⟨Nat.le_refl _, Nat.le_refl _, Nat.le_refl _, rfl, fun _ _ => rfl, fun _ _ => rfl, fun _ _ => rfl,
    fun _ _ _ _ => rfl, fun _ _ => ⟨rfl, rfl⟩, fun _ _ _ => rfl, fun _ => ⟨rfl, rfl⟩, fun _ => rfl,
    fun _ => rfl⟩

theorem Paved.trans (h : Paved A g g₁) (h' : Paved A g₁ g₂) : Paved A g g₂ where
  vars := Nat.le_trans h.vars h'.vars
  sites := Nat.le_trans h.sites h'.sites
  insns := Nat.le_trans h.insns h'.insns
  blocks := h'.blocks.trans h.blocks
  operand s hs := (h'.operand s (Nat.lt_of_lt_of_le hs h.sites)).trans (h.operand s hs)
  ty v hv := (h'.ty v (Nat.lt_of_lt_of_le hv h.vars)).trans (h.ty v hv)
  assign v hv := (h'.assign v (Nat.lt_of_lt_of_le hv h.vars)).trans (h.assign v hv)
  owner v s hv hs := (h'.owner v s (Nat.lt_of_lt_of_le hv h.vars) ((h.assign v hv).trans hs)).trans
    (h.owner v s hv hs)
  insn i hi :=
    have h₁ := h'.insn i (Nat.lt_of_lt_of_le hi h.insns)
    ⟨h₁.1.trans (h.insn i hi).1, h₁.2.trans (h.insn i hi).2⟩
  args i hi ha := (h'.args i (Nat.lt_of_lt_of_le hi h.insns) ha).trans (h.args i hi ha)
  edges b := ⟨(h'.edges b).1.trans (h.edges b).1, (h'.edges b).2.trans (h.edges b).2⟩
  closed b := (h'.closed b).trans (h.closed b)
  phis b := (h'.phis b).trans (h.phis b)

theorem Paved.mono (h : Paved A g g') (hB : ∀ i, B i → A i) : Paved B g g' :=
  { h with args := fun i hi hb => h.args i hi (hB i hb) }

/-! ### Reading the older entries -/

theorem Paved.varOf (h : Paved A g g') {s : SiteId} (hs : g.Holds s) : g'.varOf? s = g.varOf? s :=
  varOf?_congr (h.operand s hs)

theorem Paved.typeAt (h : Paved A g g') (hn : g.Named) {s : SiteId} (hs : g.Holds s) :
    g'.typeAt s = g.typeAt s := by
  rcases hv : g.varOf? s with _ | v
  · exact typeAt_congr hv (h.operand s hs)
  · rw [typeAt_of_varOf? hv, typeAt_of_varOf? ((h.varOf hs).trans hv), h.ty v (hn.var s v hs hv)]

theorem Paved.definedIn (h : Paved A g g') (hg : g.Slotted) {v : Option VarId}
    (hv : ∀ w, v = some w → w.index < g.vars.size) (b : BlockId) :
    definedIn g' v b = definedIn g v b := by
  cases v with
  | none => rfl
  | some w =>
    have hw := hv w rfl
    have hinsn : g'.assignInsn? w = g.assignInsn? w := by
      rw [assignInsn?, assignInsn?, h.assign w hw]
      rcases hs : (g.var w).assign with _ | s
      · rfl
      · exact h.owner w s hw hs
    rw [Inference.definedIn, Inference.definedIn, Option.bind_some, Option.bind_some, hinsn]
    rcases hi : g.assignInsn? w with _ | i
    · rfl
    · obtain ⟨s, -, hs⟩ := Option.bind_eq_some_iff.mp hi
      rw [Option.bind_some, Option.bind_some, (h.insn i (hg.owner_lt hs)).1]

/-- The way up is the same. -/
theorem Paved.ascend (h : Paved A g g') (hg : g.Slotted) {v : Option VarId}
    (hv : ∀ w, v = some w → w.index < g.vars.size) (n : Nat) (b : BlockId) :
    ascend g' v n b = ascend g v n b := by
  have hclosed := h.closed
  unfold endsInJump at hclosed
  induction n generalizing b with
  | zero =>
    unfold Inference.ascend
    simp only [(h.edges b).1, (h.edges b).2, hclosed, h.definedIn hg hv]
  | succ n ih =>
    unfold Inference.ascend
    simp only [(h.edges b).1, (h.edges b).2, hclosed, h.definedIn hg hv, ih]

theorem Paved.movePlace (h : Paved A g g') (hg : g.Slotted) {v : Option VarId}
    (hv : ∀ w, v = some w → w.index < g.vars.size) (b : BlockId) :
    movePlace g' v b = movePlace g v b := by
  rw [Inference.movePlace, Inference.movePlace, h.blocks, h.ascend hg hv]

/-! ### One move -/

theorem takeWhile_congr {α : Type} {p q : α → Bool} {l : List α} (h : ∀ a ∈ l, p a = q a) :
    l.takeWhile p = l.takeWhile q := by
  induction l with
  | nil => rfl
  | cons a l ih =>
    rw [List.takeWhile_cons, List.takeWhile_cons, h a List.mem_cons_self,
      ih fun b hb => h b (List.mem_cons_of_mem a hb)]

/-- A block that holds the same instructions looks the same to the way up. -/
theorem code_of_insns (hinsns : (g'.block b).insns = (g.block b).insns)
    (hop : ∀ i ∈ (g.block b).insns, (g'.insn i).opcode = (g.insn i).opcode) :
    endsInJump g' b = endsInJump g b ∧ g'.leadingPhis b = g.leadingPhis b := by
  rw [endsInJump, endsInJump, lastInsn?, lastInsn?, leadingPhis, leadingPhis, hinsns]
  constructor
  · rcases hlast : (g.block b).insns.getLast? with _ | i
    · rfl
    · rw [Option.any_some, Option.any_some, hop i (List.mem_of_getLast? hlast)]
  · exact takeWhile_congr fun i hi => by rw [hop i hi]

/-- So does one that takes a move at its end, where there is no jump. -/
theorem code_of_move {i : InsnId} (hinsns : (g'.block b).insns = (g.block b).insns ++ [i])
    (hop : ∀ j ∈ (g.block b).insns, (g'.insn j).opcode = (g.insn j).opcode)
    (hmove : (g'.insn i).opcode = .move) (hopen : endsInJump g b = false) :
    endsInJump g' b = endsInJump g b ∧ g'.leadingPhis b = g.leadingPhis b := by
  constructor
  · have hlast : g'.lastInsn? b = some i := by rw [lastInsn?, hinsns, List.getLast?_concat]
    rw [endsInJump, hlast, Option.any_some, hmove, hopen]
    rfl
  · have hphis : (g.block b).insns.takeWhile (fun j => (g'.insn j).opcode == .phi) =
        g.leadingPhis b := takeWhile_congr fun j hj => by rw [hop j hj]
    -- the move is not a phi, so it is left out even if there are none but phis before it
    have hall (h : (g.leadingPhis b).length = (g.block b).insns.length) :
        (g.block b).insns = g.leadingPhis b :=
      ((List.takeWhile_prefix _).eq_of_length h).symm
    rw [leadingPhis, hinsns, List.takeWhile_append, hphis]
    simpa [hmove] using hall

theorem paved_code (hg : g.Seated) (hblocks : g'.blocks = g.blocks)
    (hop : ∀ i, i.index < g.insns.size → (g'.insn i).opcode = (g.insn i).opcode) (b : BlockId) :
    endsInJump g' b = endsInJump g b ∧ g'.leadingPhis b = g.leadingPhis b := by
  refine code_of_insns (by rw [MethodGraph.block, MethodGraph.block, hblocks]) fun i hi => ?_
  exact hop i (placed_lt (by rw [(hg.block i b).mp hi]; rfl))

theorem paved_extended (hg : g.Wired P ∅ U) (h : Extended g g') : Paved A g g' := by
  have hvar : ∀ v, v.index < g.vars.size → g'.var v = g.var v := fun v hv =>
    (h.var v).resolve_right fun hle => Nat.not_le_of_lt hv hle.1
  have hcode := paved_code hg.seats h.blocks fun i _ => by rw [h.insn]
  refine ⟨h.vars, h.sites, Nat.le_of_eq (congrArg Array.size h.insns).symm,
    congrArg Array.size h.blocks, fun s hs => by rw [h.site s hs], fun v hv => by rw [hvar v hv],
    fun v hv => by rw [hvar v hv], fun v s _ hs => by rw [h.site s (hg.slots.assign v s hs).2.1],
    fun i _ => by rw [h.insn]; exact ⟨rfl, rfl⟩, fun i _ _ => by rw [h.insn], fun b => ?_,
    fun b => (hcode b).1, fun b => (hcode b).2⟩
  rw [MethodGraph.block, MethodGraph.block, h.blocks]
  exact ⟨rfl, rfl⟩

theorem operand_linkUse (i : InsnId) (s u : SiteId) :
    ((g.linkUse i s).site u).operand = (g.site u).operand := by
  unfold linkUse
  split <;> rfl

theorem operand_setOwner (s u : SiteId) (owner : Option InsnId) :
    ((g.updateSite s fun x => { x with owner }).site u).operand = (g.site u).operand :=
  g.updateSite_same (f := fun x => { x with owner }) Site.operand (fun _ => rfl) u

theorem operand_setResult (i : InsnId) (r u : SiteId) :
    ((g.setResult i (some r)).site u).operand = (g.site u).operand := by
  unfold setResult
  simp only
  cases (g.insn i).result with
  | none =>
    split
    · exact operand_setOwner r u _
    · exact operand_setOwner r u _
  | some old =>
    split
    · exact (operand_setOwner r u _).trans (operand_setOwner old u none)
    · exact (operand_setOwner r u _).trans (operand_setOwner old u none)

theorem operand_addArg (i : InsnId) (s u : SiteId) :
    ((g.addArg i s).site u).operand = (g.site u).operand :=
  (operand_linkUse i s u).trans (operand_setOwner s u (some i))

/-- Building an instruction leaves the operands of all sites. -/
theorem operand_buildInsn (x : Insn) (r a u : SiteId) :
    ((g.buildInsn x (some r) [a]).2.site u).operand = (g.site u).operand := by
  unfold MethodGraph.buildInsn
  simp only [Option.isSome_some, if_true, List.foldl_cons, List.foldl_nil]
  rw [operand_addArg, operand_setResult]
  rfl

theorem operand_replaceArg (i : InsnId) (old new u : SiteId) :
    ((g.replaceArg i old new).2.site u).operand = (g.site u).operand := by
  unfold replaceArg
  split
  · rfl
  · refine (operand_linkUse i new u).trans ?_
    unfold unlinkUse
    split <;> exact (operand_setOwner old u none).trans (operand_setOwner new u _)

/-- A move with a fresh result, at the end of a block that takes it. -/
theorem paved_placed (hg : g.Wired P ∅ U) (hext : Extended g g₁) {r a : SiteId} (hr : g₁.Free r)
    (ha : g₁.Free a) (hfresh : g₁.varOf? r = some ⟨g.vars.size⟩)
    (e : InsnBuilt g₁ { opcode := .move, synthetic := true } (some r) [a] g₂)
    (hoperand : ∀ s, (g₂.site s).operand = (g₁.site s).operand)
    (hty : ∀ v, (g₂.var v).ty = (g₁.var v).ty)
    (hopen : endsInJump g b = false)
    (e' : InsnPlaced g₂ b (g₂.block b).insns.length ⟨g.insns.size⟩ g') : Paved A g g' := by
  have hsize : g₁.insns.size = g.insns.size := congrArg Array.size hext.insns
  have hp := paved_extended (A := A) hg hext
  have hvar : ∀ v, g'.var v = g₂.var v := fun v => by rw [MethodGraph.var, MethodGraph.var, e'.vars]
  have hsite : ∀ s, g'.site s = g₂.site s := site_congr e'.sites
  have hold : ∀ i, i.index < g.insns.size → g'.insn i = g.insn i := by
    intro i hi
    have hne : i ≠ ⟨g.insns.size⟩ := by
      rintro rfl
      exact Nat.lt_irrefl _ hi
    rw [e'.insn, if_neg hne, e.insn, hsize, if_neg hne, hext.insn]
  have hmove : (g'.insn ⟨g.insns.size⟩).opcode = .move := by
    rw [e'.insn, if_pos rfl, e.insn, hsize, if_pos rfl]
  have hblock : ∀ d, g₂.block d = g.block d := fun d => by
    rw [MethodGraph.block, MethodGraph.block, e.blocks, hext.blocks]
  have hlt : ∀ d, ∀ i ∈ (g.block d).insns, g'.insn i = g.insn i := fun d i hi =>
    hold i (placed_lt (by rw [(hg.seats.block i d).mp hi]; rfl))
  have hcode : ∀ d, endsInJump g' d = endsInJump g d ∧ g'.leadingPhis d = g.leadingPhis d := by
    intro d
    by_cases hd : d = b
    · subst hd
      refine code_of_move ?_ (fun i hi => by rw [hlt d i hi]) hmove hopen
      rw [e'.block, if_pos rfl, List.insertIdx_length_self, hblock]
    · refine code_of_insns ?_ fun i hi => by rw [hlt d i hi]
      rw [e'.block, if_neg hd, hblock]
  refine ⟨Nat.le_trans hext.vars ?_, Nat.le_trans hext.sites ?_, ?_, ?_, fun s hs => ?_, fun v hv => ?_,
    fun v hv => ?_, fun v s hv hs => ?_, fun i hi => ?_, fun i hi _ => by rw [hold i hi],
    fun d => ?_, fun d => (hcode d).1, fun d => (hcode d).2⟩
  · rw [e'.vars, e.vars]
  · rw [e'.sites, e.sites]
  · rw [e'.insns, e.insns, hsize]
    exact Nat.le_succ _
  · rw [e'.size, e.blocks, hext.blocks]
  · rw [hsite, hoperand, hp.operand s hs]
  · rw [hvar, hty, hp.ty v hv]
  · have hne : (⟨g.vars.size⟩ : VarId) ≠ v := by
      rintro rfl
      exact Nat.lt_irrefl _ hv
    rw [hvar, e.assign, Option.bind_some, hfresh, if_neg (by simpa using hne), hp.assign v hv]
  · -- a definition is neither the new result nor the new argument, which define nothing yet
    have hs₁ : (g₁.var v).assign = some s := (hp.assign v hv).trans hs
    have hnot : ¬(s ∈ [a] ∨ some r = some s) := by
      rintro (h | h)
      · exact ha.assign v (List.mem_singleton.mp h ▸ hs₁)
      · cases h
        exact hr.assign v hs₁
    rw [hsite, e.owner, if_neg hnot, hp.owner v s hv hs]
  · rw [hold i hi]
    exact ⟨rfl, rfl⟩
  · rw [e'.block]
    split <;> simp only [hblock, and_self]

/-- An argument of a phi makes room for a new site. -/
theorem paved_swapped (hg : g.Wired P ∅ U) (phi : InsnId) (old : SiteId) {new : SiteId}
    (hs : g.Free new) : Paved (· ≠ phi) g (g.replaceArg phi old new).2 := by
  by_cases hmem : old ∈ (g.insn phi).args
  · obtain ⟨n, hn, -⟩ := replaceArg_of_mem hmem new
    have e := argReplaced_replaceArg hg hn hs
    have hcode := paved_code hg.seats e.blocks fun i _ => by rw [e.insn]; split <;> rfl
    have htyping := (edited_replaceArg (g := g) phi old hs.held).typing
    have hty : ∀ v, ((g.replaceArg phi old new).2.var v).ty = (g.var v).ty := fun v => by
      rw [Var.ty, Var.ty, show ((g.replaceArg phi old new).2.var v).type = (g.var v).type from
        congrArg Prod.fst (htyping v)]
    refine ⟨Nat.le_of_eq e.vars.symm, Nat.le_of_eq e.sites.symm, Nat.le_of_eq e.insns.symm,
      congrArg Array.size e.blocks, fun s _ => operand_replaceArg phi old new s, fun v _ => hty v,
      fun v _ => e.assign v, fun v s _ hv => ?_, fun i _ => ?_, fun i _ hi => ?_, fun b => ?_,
      fun b => (hcode b).1, fun b => (hcode b).2⟩
    · rw [e.owner, if_neg, if_neg]
      · rintro rfl
        exact hs.assign v hv
      · rintro rfl
        exact (hg.slots.assign v s hv).2.2 phi hmem
    · rw [e.insn]
      split <;> exact ⟨rfl, rfl⟩
    · rw [e.insn, if_neg hi]
    · rw [MethodGraph.block, MethodGraph.block, e.blocks]
      exact ⟨rfl, rfl⟩
  · rw [replaceArg_of_not_mem hmem]
    exact .refl _ g

theorem varOf?_duplicateFresh {s : SiteId} {v : VarId} (hv : g.varOf? s = some v) :
    (g.duplicateFresh s).2.varOf? (g.duplicateFresh s).1 = some ⟨g.vars.size⟩ := by
  unfold duplicateFresh
  rw [hv]
  exact varOf?_eq_some.mpr (congrArg Site.operand ((site_newSite _ _).trans (if_pos rfl)))

/-- **A move is not in the way.** Routing an input of a phi through a move changes that phi alone. -/
theorem paved_move (hg : g.Wired P ∅ U) {s : SiteId} (hs : g.Holds s) {v : VarId}
    (hv : g.varOf? s = some v) (phi : InsnId) (hb : b.index < g.blocks.size)
    (hopen : endsInJump g b = false) :
    let (result, g₁) := g.duplicateFresh s
    let (source, g₁) := g₁.duplicate s
    let (move, g₁) := g₁.buildInsn { opcode := .move, synthetic := true } (some result) [source]
    let g₁ := g₁.append b move
    let (d, g₁) := g₁.duplicate result
    (g₁.replaceArg phi s d).2.Wired P ∅ U ∧ Paved (· ≠ phi) g (g₁.replaceArg phi s d).2 := by
  have hreg : g.isRegister s = true := by
    rw [isRegister, hv]
    rfl
  have hfresh := varOf?_duplicateFresh hv
  obtain ⟨w, h₁, hfree, hdef, hext⟩ := wired_duplicateFresh hg hreg
  have hw : w = ⟨g.vars.size⟩ := Option.some.inj (hdef.varOf.symm.trans hfresh)
  have hsize : g.insns.size = (g.duplicateFresh s).2.insns.size :=
    (congrArg Array.size hext.insns).symm
  simp only
  generalize (g.duplicateFresh s).1 = r at hfree hdef hfresh ⊢
  generalize (g.duplicateFresh s).2 = g₁ at h₁ hfree hdef hext hfresh hsize ⊢
  have hext₂ := extended_duplicate (g := g₁) s
  obtain ⟨h₂, hfree₂⟩ := wired_duplicate h₁ (hext.holds hs)
  have hne : r ≠ (g₁.duplicate s).1 := by
    rintro rfl
    exact not_holds_newSite _ hdef.held
  have hsize₂ : (g₁.duplicate s).2.insns.size = g.insns.size := hsize.symm
  generalize (g₁.duplicate s).1 = a at hfree₂ hne ⊢
  generalize (g₁.duplicate s).2 = g₂ at h₂ hfree₂ hext₂ hsize₂ ⊢
  have hr₂ := hext₂.free hfree
  have hresult : Result ∅ g₂ [a] (some r) := by
    intro u hu
    cases hu
    refine ⟨by simpa using hne, ⟨w, hext₂.defines hdef⟩, fun j hj => ?_⟩
    rw [hr₂.owner] at hj
    cases hj
  have hsource : ∀ u ∈ [a], g₂.Free u := fun u hu => List.mem_singleton.mp hu ▸ hfree₂
  obtain ⟨h₃, e₃⟩ := wired_buildInsn h₂ (x := { opcode := .move, synthetic := true }) (V := U)
    ⟨rfl, rfl, rfl, rfl⟩ (by decide) hresult hsource (List.nodup_singleton a) fun u hu => by
      refine (Set.mem_insert_iff.mp hu).symm.imp_right fun huw => ?_
      rw [huw, Option.bind_some, (hext₂.defines hdef).varOf]
  have hedit : Edited g₂ (g₂.buildInsn { opcode := .move, synthetic := true } (some r) [a]).2 :=
    edited_buildInsn rfl (fun u hu => by cases hu; exact hr₂.held) fun u hu => (hsource u hu).held
  have hoperand := operand_buildInsn (g := g₂) { opcode := .move, synthetic := true } r a
  have hloose := e₃.loose ⟨rfl, rfl, rfl, rfl⟩
  have hheld : (g₂.buildInsn { opcode := .move, synthetic := true } (some r) [a]).2.Holds r := by
    rw [Holds, e₃.sites]
    exact hr₂.held
  rw [buildInsn_eq]
  simp only
  rw [hsize₂] at h₃ hloose ⊢
  generalize (g₂.buildInsn { opcode := .move, synthetic := true } (some r) [a]).2 = g₃
    at h₃ e₃ hedit hoperand hloose hheld ⊢
  have hb₃ : b.index < g₃.blocks.size := by
    rw [e₃.blocks, hext₂.blocks, hext.blocks]
    exact hb
  obtain ⟨h₄, e₄⟩ := wired_place h₃ hloose hb₃ (Nat.le_refl _)
  have hpaved : Paved (· ≠ phi) g (g₃.append b ⟨g.insns.size⟩) := by
    refine paved_placed hg (trans_of Extended hext hext₂) hr₂ hfree₂ ?_ e₃ hoperand (fun v => ?_)
      hopen e₄
    · exact (hext₂.varOf hfree.held).trans hfresh
    · rw [Var.ty, Var.ty, show (g₃.var v).type = (g₂.var v).type from
        congrArg Prod.fst (hedit.typing v)]
  have hheld₄ : (g₃.append b ⟨g.insns.size⟩).Holds r := (later_insnPlaced e₄).holds hheld
  change (g₃.append b ⟨g.insns.size⟩).Wired P ∅ U at h₄
  generalize g₃.append b ⟨g.insns.size⟩ = g₄ at h₄ hpaved hheld₄ ⊢
  obtain ⟨h₅, hfree₅⟩ := wired_duplicate h₄ hheld₄
  refine ⟨wired_replaceArg h₅ phi s hfree₅, hpaved.trans ?_⟩
  exact (paved_extended h₄ (extended_duplicate r)).trans (paved_swapped h₅ phi s hfree₅)

/-! ## Inputs without a place -/

/-- The input has a place for its move. -/
def Placed (g : MethodGraph) (input : SiteId × Option BlockId) : Prop :=
  ∃ b place, input.2 = some b ∧ Ascends g (g.varOf? input.1) b (.place place)

/-- Before any input is refused, there is one whose way up goes around in a circle. -/
def Snagged (g : MethodGraph) (inputs : List (SiteId × Option BlockId)) : Prop :=
  ∃ front s b rest, inputs = front ++ (s, some b) :: rest ∧ (∀ input ∈ front, Placed g input) ∧
    Circles g (g.varOf? s) b

/-- The inputs of the phi do not agree, and placing their moves comes to a circle. -/
def Snared (g : MethodGraph) (phi : InsnId) : Prop :=
  inputsAgree g phi = false ∧ Snagged g (phiInputs g phi)

theorem not_snagged_nil : ¬Snagged g [] := by
  rintro ⟨front, s, b, rest, heq, -⟩
  simp at heq

theorem snagged_cons {input : SiteId × Option BlockId} {rest : List (SiteId × Option BlockId)} :
    Snagged g (input :: rest) ↔
      (∃ b, input.2 = some b ∧ Circles g (g.varOf? input.1) b) ∨ Placed g input ∧ Snagged g rest := by
  constructor
  · rintro ⟨front, s, b, rest', heq, hfront, hcircle⟩
    cases front with
    | nil =>
      obtain ⟨rfl, rfl⟩ := List.cons.inj heq
      exact .inl ⟨b, rfl, hcircle⟩
    | cons x front =>
      obtain ⟨rfl, rfl⟩ := List.cons.inj heq
      refine .inr ⟨hfront _ List.mem_cons_self, front, s, b, rest', rfl, fun y hy => ?_, hcircle⟩
      exact hfront y (List.mem_cons_of_mem _ hy)
  · rintro (⟨b, hb, hcircle⟩ | ⟨hplaced, front, s, b, rest', rfl, hfront, hcircle⟩)
    · exact ⟨[], input.1, b, rest, by rw [← hb]; rfl, fun _ h => (by cases h), hcircle⟩
    · refine ⟨input :: front, s, b, rest', rfl, fun y hy => ?_, hcircle⟩
      rcases List.mem_cons.mp hy with rfl | hy
      · exact hplaced
      · exact hfront y hy

theorem not_snagged_none {s : SiteId} {rest : List (SiteId × Option BlockId)} :
    ¬Snagged g ((s, none) :: rest) := by
  simp [snagged_cons, Placed]

theorem snagged_some {s : SiteId} {rest : List (SiteId × Option BlockId)} :
    Snagged g ((s, some b) :: rest) ↔ movePlace g (g.varOf? s) b = .endless ∨
      (∃ place, movePlace g (g.varOf? s) b = .place place) ∧ Snagged g rest := by
  simp [snagged_cons, Placed, ascends_iff, movePlace_eq_endless_iff]

/-! ### The same inputs later -/

section
variable (hg : g.Wired P ∅ U) (h : Paved A g g')
include hg h

theorem Paved.movePlace_input {s : SiteId} (hs : g.Holds s) (b : BlockId) :
    Inference.movePlace g' (g'.varOf? s) b = Inference.movePlace g (g.varOf? s) b := by
  rw [h.varOf hs]
  exact h.movePlace hg.slots (fun w hw => hg.names.var s w hs hw) b

theorem Paved.placed_iff {input : SiteId × Option BlockId} (hs : g.Holds input.1) :
    Placed g' input ↔ Placed g input := by
  simp only [Placed, ascends_iff, h.movePlace_input hg hs]

theorem Paved.snagged_iff {inputs : List (SiteId × Option BlockId)}
    (hs : ∀ input ∈ inputs, g.Holds input.1) : Snagged g' inputs ↔ Snagged g inputs := by
  induction inputs with
  | nil => exact iff_of_false not_snagged_nil not_snagged_nil
  | cons input inputs ih =>
    have hinput := hs input List.mem_cons_self
    rw [snagged_cons, snagged_cons, h.placed_iff hg hinput,
      ih fun x hx => hs x (List.mem_cons_of_mem input hx)]
    simp only [← movePlace_eq_endless_iff, h.movePlace_input hg hinput]

theorem Paved.inputsAgree {phi : InsnId} (hphi : phi.index < g.insns.size) (hA : A phi) :
    Inference.inputsAgree g' phi = Inference.inputsAgree g phi := by
  have htypes : (g'.insn phi).args.map g'.typeAt = (g.insn phi).args.map g.typeAt := by
    rw [h.args phi hphi hA]
    exact List.map_congr_left fun s hs => h.typeAt hg.names (hg.slots.holds_arg hs)
  rw [Inference.inputsAgree, Inference.inputsAgree, htypes]

omit hg in
theorem Paved.phiInputs {phi : InsnId} (hphi : phi.index < g.insns.size) (hA : A phi) :
    Inference.phiInputs g' phi = Inference.phiInputs g phi := by
  rw [Inference.phiInputs, Inference.phiInputs, h.args phi hphi hA, (h.insn phi hphi).2]

end

/-! ## Runs into a circle -/

/-- From the graph `g` the step comes to a result for which `Q` holds, or if `bad` holds it finds no
    end. -/
structure Traps {α : Type} (bad : Prop) (c : Context) (g : MethodGraph) (m : Infer α)
    (Q : α → MethodGraph → Prop) : Prop where
  outcome : ∀ s, s.graph = g →
    match m.after c s with
    | (.ok a, s') => ¬bad ∧ Q a s'.graph
    | (.error f, _) => bad ∧ f = .endless

namespace Traps

variable {α β : Type} {bad bad' : Prop} {Q : α → MethodGraph → Prop} {R : β → MethodGraph → Prop}

theorem pure' {a : α} (hbad : ¬bad) (h : Q a g) : Traps bad c g (pure a) Q := by
  refine ⟨fun s hs => ?_⟩
  subst hs
  exact ⟨hbad, h⟩

theorem endless' (hbad : bad) : Traps bad c g (throw .endless : Infer α) Q :=
  ⟨fun _ _ => ⟨hbad, rfl⟩⟩

theorem congr' {m : Infer α} (h : Traps bad c g m Q) (hbad : bad ↔ bad') : Traps bad' c g m Q :=
  ⟨fun s hs => by rw [← hbad]; exact h.outcome s hs⟩

theorem weaken {Q' : α → MethodGraph → Prop} {m : Infer α} (h : Traps bad c g m Q)
    (hQ : ∀ a g', Q a g' → Q' a g') : Traps bad c g m Q' := by
  refine ⟨fun s hs => ?_⟩
  have hout := h.outcome s hs
  rcases hr : m.after c s with ⟨e | a, s'⟩
  · rw [hr] at hout
    exact hout
  · rw [hr] at hout
    exact ⟨hout.1, hQ a _ hout.2⟩

theorem bind' {m : Infer α} {f : α → Infer β} (hm : Traps bad c g m Q)
    (hf : ∀ a g', Q a g' → Traps bad' c g' (f a) R) : Traps (bad ∨ bad') c g (m >>= f) R := by
  refine ⟨fun s hs => ?_⟩
  have h := hm.outcome s hs
  rw [after_bind]
  rcases hr : m.after c s with ⟨e | a, s'⟩
  · rw [hr] at h
    exact ⟨.inl h.1, h.2⟩
  · rw [hr] at h
    have h' := (hf a s'.graph h.2).outcome s' rfl
    rcases hr' : (f a).after c s' with ⟨e | b, s''⟩
    · rw [hr'] at h'
      simp only [hr']
      exact ⟨.inr h'.1, h'.2⟩
    · rw [hr'] at h'
      simp only [hr']
      exact ⟨not_or.mpr ⟨h.1, h'.1⟩, h'.2⟩

/-- A second step that always comes to a result. -/
theorem before' {m : Infer α} {f : α → Infer β} (hm : Traps bad c g m Q)
    (hf : ∀ a g', Q a g' → Traps False c g' (f a) R) : Traps bad c g (m >>= f) R :=
  (bind' hm hf).congr' (iff_of_eq (or_false bad))

/-- A first step that always comes to a result. -/
theorem after' {m : Infer α} {f : α → Infer β} (hm : Traps False c g m Q)
    (hf : ∀ a g', Q a g' → Traps bad c g' (f a) R) : Traps bad c g (m >>= f) R :=
  (bind' hm hf).congr' (iff_of_eq (false_or bad))

theorem theGraph' {f : MethodGraph → Infer α} (h : Traps bad c g (f g) Q) :
    Traps bad c g (theGraph >>= f) Q := by
  refine ⟨fun s hs => ?_⟩
  subst hs
  exact h.outcome s rfl

theorem report' (n : Notice) {Q : Unit → MethodGraph → Prop} (h : Q () g) :
    Traps False c g (report n) Q := by
  refine ⟨fun s hs => ?_⟩
  subst hs
  exact ⟨not_false, h⟩

theorem edit' {f : MethodGraph → α × MethodGraph} (h : Q (f g).1 (f g).2) :
    Traps False c g (edit f) Q := by
  refine ⟨fun s hs => ?_⟩
  subst hs
  exact ⟨not_false, h⟩

/-- A walk over a list, where `I` says what holds as long as certain items are left. -/
theorem totalOf' {step : α → Infer Nat} {stuck : α → Prop} {I : List α → MethodGraph → Prop}
    (hstep : ∀ a l g', I (a :: l) g' → Traps (stuck a) c g' (step a) fun _ => I l) (l : List α)
    (hg : I l g) : Traps (∃ a ∈ l, stuck a) c g (totalOf step l) fun _ => I [] := by
  induction l generalizing g with
  | nil => exact pure' (by simp) hg
  | cons a l ih =>
    have hall : Traps (stuck a ∨ ∃ b ∈ l, stuck b) c g (totalOf step (a :: l)) fun _ => I [] :=
      bind' (hstep a l g hg) fun _ _ h₁ => before' (ih h₁) fun _ _ h₂ => pure' not_false h₂
    exact hall.congr' (by simp)

end Traps

/-! ### Placing moves -/

theorem traps_allPlaced (inputs : List (SiteId × Option BlockId)) :
    Traps (Snagged g inputs) c g (allPlaced inputs) fun placed g' =>
      g' = g ∧ (placed = true → ∀ input ∈ inputs, Placed g input) := by
  induction inputs with
  | nil => exact .pure' not_snagged_nil ⟨rfl, fun _ _ h => by cases h⟩
  | cons input inputs ih =>
    obtain ⟨s, b?⟩ := input
    have hrefused (hbad : ¬Snagged g ((s, b?) :: inputs)) (n : Notice) :
        Traps (Snagged g ((s, b?) :: inputs)) c g (do report n; return false)
          fun placed g' => g' = g ∧ (placed = true → ∀ x ∈ (s, b?) :: inputs, Placed g x) :=
      .after' (.report' n (Q := fun _ g' => g' = g) rfl) fun _ _ h =>
        .pure' hbad ⟨h, fun h => by cases h⟩
    cases b? with
    | none => exact hrefused not_snagged_none _
    | some b =>
      refine .theGraph' ?_
      split
      · next hplace => exact .endless' (by simp [snagged_some, hplace])
      · next hplace => exact hrefused (by simp [snagged_some, hplace]) _
      · next place hplace =>
        have hplaced : Placed g (s, some b) := ⟨b, place, rfl, ascends_iff.mpr ⟨hplace, by simp⟩⟩
        have hbad : Snagged g inputs ↔ Snagged g ((s, some b) :: inputs) := by
          simp [snagged_some, hplace]
        refine (ih.weaken fun placed g' h => ⟨h.1, fun hp x hx => ?_⟩).congr' hbad
        rcases List.mem_cons.mp hx with rfl | hx
        · exact hplaced
        · exact h.2 hp x hx

/-- The block that takes a move does not end in a jump. -/
theorem open_of_ascends {v : Option VarId} {place : BlockId} (h : Ascends g v b (.place place)) :
    endsInJump g place = false := by
  generalize hr : Ascent.place place = r at h
  induction h with
  | here _ hopen => cases hr; exact hopen
  | up _ _ ih => exact ih hr
  | _ => cases hr

section
variable (hg : g.Wired P ∅ U) {phi : InsnId} {S : InsnId → Prop}
include hg

/-- An input that had a place at the start gets its move, and the phis in `S` go on waiting. -/
theorem traps_moveInput (hphi : ¬S phi) (hw : g₁.Wired P ∅ U) (hp : Paved S g g₁)
    {input : SiteId × Option BlockId} (hi : input ∈ phiInputs g phi) (hplaced : Placed g input) :
    Traps False c g₁ (moveInput phi input) fun _ g' => g'.Wired P ∅ U ∧ Paved S g g' := by
  obtain ⟨hheld, hblock⟩ := isInput_of_mem hg hi
  obtain ⟨s, b?⟩ := input
  obtain ⟨b, place, rfl, hascends⟩ := hplaced
  have hmove : movePlace g₁ (g₁.varOf? s) b = .place place :=
    (hp.movePlace_input hg hheld b).trans (ascends_iff.mp hascends).1
  refine .theGraph' ?_
  split
  · next v d hv hd =>
    cases hd
    simp only at hv
    rw [hv] at hmove
    by_cases hapart : isApart g₁ v = true
    · rw [if_pos hapart]
      exact .pure' not_false ⟨hw, hp⟩
    · rw [if_neg hapart]
      simp only [hmove]
      have hlt : place.index < g₁.blocks.size :=
        ascend_lt hw.seats (some v) (by rw [hp.blocks]; exact hblock b rfl) hmove
      have hopen := open_of_ascends (ascends_iff.mpr ⟨hmove, by simp⟩)
      have hadd := paved_move hw (Nat.lt_of_lt_of_le hheld hp.sites) hv phi hlt hopen
      refine .edit' ?_
      simp only at hadd ⊢
      refine ⟨hadd.1, hp.trans (hadd.2.mono fun i hS => ?_)⟩
      rintro rfl
      exact hphi hS
  · exact .pure' not_false ⟨hw, hp⟩

theorem traps_movePhiInputs (hlt : phi.index < g.insns.size) (hphi : ¬S phi)
    (hw : g₁.Wired P ∅ U) (hp : Paved (fun i => i = phi ∨ S i) g g₁) :
    Traps (Snared g phi) c g₁ (movePhiInputs phi) fun _ g' => g'.Wired P ∅ U ∧ Paved S g g' := by
  have hkept : g₁.Wired P ∅ U ∧ Paved S g g₁ := ⟨hw, hp.mono fun _ => .inr⟩
  have hheld : ∀ input ∈ phiInputs g phi, g.Holds input.1 := fun input hi =>
    (isInput_of_mem hg hi).1
  refine .theGraph' ?_
  simp only [hp.inputsAgree hg hlt (.inl rfl), hp.phiInputs hlt (.inl rfl)]
  by_cases hagree : inputsAgree g phi = true
  · rw [if_pos hagree]
    refine .pure' (fun h => ?_) hkept
    rw [h.1] at hagree
    cases hagree
  · rw [if_neg hagree]
    have hbad : Snagged g₁ (phiInputs g phi) ↔ Snared g phi := by
      rw [hp.snagged_iff hg hheld, Snared, Bool.eq_false_iff.mpr hagree]
      simp
    refine ((traps_allPlaced (phiInputs g phi)).before' ?_).congr' hbad
    rintro placed g₂ ⟨rfl, hall⟩
    cases placed with
    | false => exact .pure' not_false hkept
    | true =>
      have hplaced : ∀ input ∈ phiInputs g phi, Placed g input := fun input hi =>
        (hp.placed_iff hg (hheld input hi)).mp (hall rfl input hi)
      have hmoves : Traps (∃ input ∈ phiInputs g phi, False) c g₂
          (totalOf (moveInput phi) (phiInputs g phi)) fun _ g' =>
            (∀ input ∈ [], input ∈ phiInputs g phi) ∧ g'.Wired P ∅ U ∧ Paved S g g' := by
        refine .totalOf' (I := fun l g' => (∀ input ∈ l, input ∈ phiInputs g phi) ∧
          g'.Wired P ∅ U ∧ Paved S g g') (fun input l g₃ ⟨hl, hw₃, hp₃⟩ => ?_) _ ⟨fun _ => id, hkept⟩
        have hi := hl input List.mem_cons_self
        exact (traps_moveInput hg hphi hw₃ hp₃ hi (hplaced input hi)).weaken fun _ _ h =>
          ⟨fun x hx => hl x (List.mem_cons_of_mem input hx), h⟩
      exact (hmoves.congr' (by simp)).weaken fun _ _ h => h.2

end

/-! ## All phis -/

/-- The phis that wait for their turn: the rest of a block, then those of the blocks after it. -/
def Waiting (g : MethodGraph) (phis : List InsnId) (bs : List BlockId) (i : InsnId) : Prop :=
  i ∈ phis ∨ ∃ b ∈ bs, i ∈ g.leadingPhis b

/-- A step that can raise anything but the fault of a way without an end. -/
theorem combines_ne_endless :
    Combines fun {α} (m : Infer α) => ∀ c s, (m.after c s).1 ≠ .error .endless where
  pure' _ _ _ h := by cases h
  throw' hf _ _ h := hf (Except.error.inj h)
  bind' {_ _ m f} hm hf c s h := by
    have hfault := hm c s
    rw [after_bind] at h
    rcases hr : m.after c s with ⟨e | a, s'⟩
    · rw [hr] at h hfault
      cases h
      exact hfault rfl
    · rw [hr] at h
      exact hf a c s' h
  read' hf c s := hf c c s
  theGraph' hf c s := hf s.graph c s
  reported' hf c s := hf s.reported c s
  edit' _ _ _ h := by cases h
  note' records c s h := by
    rw [note, after_read] at h
    split at h <;> cases h
  report' _ _ _ h := by cases h
  mark' _ _ _ h := by cases h
  begin' _ _ h := by cases h

section
variable (hg : g.Wired P ∅ U)
include hg

theorem lt_of_leadingPhi {phi : InsnId} (h : phi ∈ g.leadingPhis b) :
    (g.insn phi).block = some b ∧ phi.index < g.insns.size := by
  have hblock := (hg.seats.block phi b).mp ((List.takeWhile_sublist _).subset h)
  exact ⟨hblock, placed_lt (by rw [hblock]; rfl)⟩

/-- A phi has one turn. -/
theorem traps_block {bs : List BlockId} (hb : b ∉ bs) (hw : g₁.Wired P ∅ U)
    (hp : Paved (Waiting g [] (b :: bs)) g g₁) :
    Traps (∃ phi ∈ g.leadingPhis b, Snared g phi) c g₁
      (do totalOf movePhiInputs ((← theGraph).leadingPhis b))
      fun _ g' => g'.Wired P ∅ U ∧ Paved (Waiting g [] bs) g g' := by
  refine .theGraph' ?_
  rw [hp.phis]
  have honce : (g.leadingPhis b).Nodup := (hg.seats.once b).sublist (List.takeWhile_sublist _)
  refine (Traps.totalOf' (I := fun phis g' => (phis.Nodup ∧ ∀ phi ∈ phis, phi ∈ g.leadingPhis b) ∧
    g'.Wired P ∅ U ∧ Paved (Waiting g phis bs) g g') (fun phi phis g₂ h₂ => ?_) _
    ⟨⟨honce, fun _ => id⟩, hw, hp.mono fun i hi => ?_⟩).weaken fun _ _ h => h.2
  · obtain ⟨⟨hnodup, hmem⟩, hw₂, hp₂⟩ := h₂
    obtain ⟨hnot, hnodup⟩ := List.nodup_cons.mp hnodup
    obtain ⟨hblock, hlt⟩ := lt_of_leadingPhi hg (hmem phi List.mem_cons_self)
    have hdone : ¬Waiting g phis bs phi := by
      rintro (h | ⟨d, hd, h⟩)
      · exact hnot h
      · have heq := (lt_of_leadingPhi hg h).1.symm.trans hblock
        cases heq
        exact hb hd
    refine (traps_movePhiInputs hg hlt hdone hw₂ (hp₂.mono fun i hi => ?_)).weaken fun _ _ h =>
      ⟨⟨hnodup, fun x hx => hmem x (List.mem_cons_of_mem phi hx)⟩, h⟩
    rcases hi with rfl | hi | hi
    · exact .inl List.mem_cons_self
    · exact .inl (List.mem_cons_of_mem phi hi)
    · exact .inr hi
  · rcases hi with hi | ⟨d, hd, hi⟩
    · exact .inr ⟨b, List.mem_cons_self, hi⟩
    · exact .inr ⟨d, List.mem_cons_of_mem b hd, hi⟩

/-- **Only circles keep it from ending.** Inserting moves finds no end just if, for some phi whose inputs
    do not agree, placing the moves comes to a circle before an input is refused. -/
theorem insertMoves_endless_iff (c : Context) {s : Session} (hs : s.graph = g) :
    (insertMoves.after c s).1 = .error .endless ↔
      ∃ b ∈ g.blockIds, ∃ phi ∈ g.leadingPhis b, Snared g phi := by
  have honce : g.blockIds.Nodup := List.nodup_range.map fun _ _ h => (BlockId.mk.inj h)
  have hwalk : Traps (∃ b ∈ g.blockIds, ∃ phi ∈ g.leadingPhis b, Snared g phi) c g
      (totalOf (fun b => do totalOf movePhiInputs ((← theGraph).leadingPhis b)) g.blockIds)
      fun _ _ => True := by
    refine (Traps.totalOf' (I := fun bs g' => bs.Nodup ∧ g'.Wired P ∅ U ∧
      Paved (Waiting g [] bs) g g') (fun b bs g₁ h₁ => ?_) _ ⟨honce, hg, .refl _ g⟩).weaken
        fun _ _ _ => trivial
    obtain ⟨hnodup, hw, hp⟩ := h₁
    obtain ⟨hb, hnodup⟩ := List.nodup_cons.mp hnodup
    exact (traps_block hg hb hw hp).weaken fun _ _ h => ⟨hnodup, h⟩
  subst hs
  have hout := hwalk.outcome s rfl
  have h := combines_ne_endless
  unfold insertMoves
  rw [after_theGraph, after_bind]
  rcases hr : (totalOf (fun b => do totalOf movePhiInputs ((← theGraph).leadingPhis b))
    s.graph.blockIds).after c s with ⟨f | added, s'⟩
  · rw [hr] at hout
    obtain ⟨hbad, rfl⟩ := hout
    exact iff_of_true rfl hbad
  · rw [hr] at hout
    refine iff_of_false ?_ hout.1
    refine h.ite' (h.pure' _) (h.bind' (h.report' ?_) fun _ => h.bind' h.reinit' fun _ => ?_) c s'
    · intro site place heq
      cases heq
    · exact h.theGraph' fun _ => h.ite' (h.pure' _) h.deduceTypes'

end

/-! ## Methods -/

variable {m : MethodDecl} {built : Built}

/-- The way up from a block of a method has an end just if it does not come to a block that leads back
    to itself, and the count of steps finds the end wherever there is one. Inserting moves loses its way
    just if placing the moves of some phi comes to such a circle. This holds of the graph of every
    method, and if all variables have a definition, of every graph that resolvers reach from it. -/
theorem way_up_ends_unless_circles (hb : m.build = .ok built) (c : Context) (s : Session)
    (hs : s.graph = built.graph ∨ Defined built.graph ∧ Reached c built.graph s.graph) :
    (∀ v b, (∃ r, Ascends s.graph v b r) ↔ ¬Circles s.graph v b) ∧
      (∀ v b r, Ascends s.graph v b r ↔ movePlace s.graph v b = r ∧ r ≠ .endless) ∧
      ((insertMoves.after c s).1 = .error .endless ↔
        ∃ b ∈ s.graph.blockIds, ∃ phi ∈ s.graph.leadingPhis b, Snared s.graph phi) := by
  refine ⟨fun v b => ?_, fun v b r => ascends_iff, ?_⟩
  · simp only [ascends_iff, ← movePlace_eq_endless_iff]
    exact ⟨fun ⟨r, h, hr⟩ he => hr (h.symm.trans he), fun h => ⟨_, rfl, h⟩⟩
  · rcases hs with hs | ⟨hdef, hs⟩
    · exact insertMoves_endless_iff (hs ▸ wired_build hb) c rfl
    · exact insertMoves_endless_iff (sound_of_build_reached hb hdef hs).wired c rfl

/-- A block that jumps to itself, with a phi that reads a parameter. -/
def selfLoop : MethodDecl :=
  { (default : MethodDecl) with
    cls := "a.Main"
    name := "m"
    params := [{ (default : ParamDecl) with var := "p" }]
    blocks := [{ (default : BlockDecl) with
      insns := [
        { (default : InsnDecl) with op := "phi", result := "v", args := ["p"], incoming := [0] },
        { (default : InsnDecl) with op := "goto" }]
      succs := [0] }] }

/-- The block is above itself, so the way has no end, and inserting moves loses its way. -/
theorem way_up_ends_unless_circles_at_selfLoop :
    let c : Context := { hierarchy := Hierarchy.ofClasses [] }
    let g := (selfLoop.build.toOption.getD default).graph
    (∃ built, selfLoop.build = .ok built ∧ built.graph = g) ∧
      (insertMoves.after c { graph := g }).1 = .error .endless ∧
      (∃ b ∈ g.blockIds, ∃ phi ∈ g.leadingPhis b, Snared g phi) ∧
      Circles g (some ⟨0⟩) ⟨0⟩ ∧ ¬∃ r, Ascends g (some ⟨0⟩) ⟨0⟩ r := by
  intro c g
  have hb : ∃ built, selfLoop.build = .ok built ∧ built.graph = g :=
    ⟨_, ok_getD (by decide +kernel), rfl⟩
  have hplace : movePlace g (some ⟨0⟩) ⟨0⟩ = .endless := by decide +kernel
  have hagree : inputsAgree g ⟨0⟩ = false := by decide +kernel
  have hinputs : (phiInputs g ⟨0⟩).map (fun x => (g.varOf? x.1, x.2)) =
      [(some ⟨0⟩, some ⟨0⟩)] := by decide +kernel
  have hphi : ⟨0⟩ ∈ g.blockIds ∧ ⟨0⟩ ∈ g.leadingPhis ⟨0⟩ := by decide +kernel
  -- what is computed is computed, and the graph is not to be built again
  clear_value g c
  obtain ⟨built, hbuild, rfl⟩ := hb
  obtain ⟨hends, hfound, hmoves⟩ :=
    way_up_ends_unless_circles hbuild c { graph := built.graph } (.inl rfl)
  have hnone : ¬∃ r, Ascends built.graph (some ⟨0⟩) ⟨0⟩ r := by
    rintro ⟨r, h⟩
    obtain ⟨hr, hne⟩ := (hfound _ _ r).mp h
    exact hne (hr.symm.trans hplace)
  have hcircle : Circles built.graph (some ⟨0⟩) ⟨0⟩ := not_not.mp fun h => hnone ((hends _ _).mpr h)
  have hsnared : Snared built.graph ⟨0⟩ := by
    obtain ⟨⟨u, d⟩, hu, heq⟩ := List.map_eq_singleton_iff.mp hinputs
    obtain ⟨hvar, rfl⟩ := Prod.mk.inj heq
    refine ⟨hagree, [], u, ⟨0⟩, [], hu, fun _ h => (by cases h), ?_⟩
    rw [hvar]
    exact hcircle
  have hsome : ∃ b ∈ built.graph.blockIds, ∃ phi ∈ built.graph.leadingPhis b,
      Snared built.graph phi := ⟨⟨0⟩, hphi.1, ⟨0⟩, hphi.2, hsnared⟩
  exact ⟨⟨built, hbuild, rfl⟩, hmoves.mpr hsome, hsome, hcircle, hnone⟩

end

end TypeRecovery.Inference
