import TypeRecovery.Proofs.Graph.Contraction
import TypeRecovery.Proofs.Inference.Ends
import TypeRecovery.Proofs.Inference.Resolvers
import TypeRecovery.Proofs.Inference.Rewrites

/- The resolvers that insert casts, split constants and insert moves add copies and nothing else. Each
   of their steps builds one instruction on one fresh variable, puts it into a block, and lets a slot
   change between the fresh variable and the one it stands for. So from step to step the code contracts
   to the code at the start, and nothing is left open in it. -/
namespace TypeRecovery.Inference

open MethodGraph

section
variable {c : Context} {g g' : MethodGraph} {P : Set VarId} {u v : VarId} {s : SiteId}

/-! ## Copies under construction -/

/-- One instruction and one variable were added, which make the variable the same as `u`. Where the
    instruction stands is left open. -/
structure Drafted (g : MethodGraph) (u : VarId) (g' : MethodGraph) : Prop where
  carried : Carried (naming ⟨g.vars.size⟩ u) g.insns.size g g'
  insns : g.insns.size < g'.insns.size
  vars : g'.vars.size = g.vars.size + 1
  copy : IsCopy g ⟨g.vars.size⟩ u g' ⟨g.insns.size⟩

/-- The block of the copy, and nothing in any other, has changed. -/
structure Inserted (g : MethodGraph) (x : InsnId) (g' : MethodGraph) : Prop where
  size : g'.blocks.size = g.blocks.size
  block : ∃ b n, n ≤ (g.block b).insns.length ∧ ∀ d, g'.block d =
    if d = b then { g.block d with insns := (g.block d).insns.insertIdx n x } else g.block d

theorem filter_insertIdx {α : Type} [DecidableEq α] {l : List α} {x : α} (hx : x ∉ l) (n : Nat) :
    (l.insertIdx n x).filter (· ≠ x) = l := by
  have hself : ∀ {k : List α}, x ∉ k → k.filter (· ≠ x) = k := fun hk =>
    List.filter_eq_self.mpr fun a ha => by simpa using fun heq : a = x => hk (heq ▸ ha)
  induction l generalizing n with
  | nil => cases n <;> simp
  | cons a l ih =>
    cases n with
    | zero => simpa using hself hx
    | succ n =>
      obtain ⟨hne, hl⟩ := not_or.mp (fun h => hx (List.mem_cons.mpr h))
      rw [List.insertIdx_succ_cons, List.filter_cons_of_pos (by simpa using Ne.symm hne), ih hl]

theorem copyAdded_of_drafted (h : g.Wired P ∅ ∅) (h' : g'.Wired P ∅ ∅) (hu : u.index < g.vars.size)
    (e : Drafted g u g') (hins : Inserted g ⟨g.insns.size⟩ g') :
    CopyAdded g ⟨g.insns.size⟩ ⟨g.vars.size⟩ u g' := by
  have hout : (⟨g.insns.size⟩ : InsnId) ∉ g.placed := fun hx =>
    Nat.lt_irrefl _ (placed_lt (h.seats.mem_placed.mp hx))
  obtain ⟨b, n, hn, hblock⟩ := hins.block
  have hnot : ∀ d, (⟨g.insns.size⟩ : InsnId) ∉ (g.block d).insns := fun d hd =>
    hout (mem_placed.mpr ⟨d, hd⟩)
  refine ⟨fun d => ?_, hins.size, hout, mem_placed.mpr ⟨b, ?_⟩, fun i hi => ?_, ?_, ?_, fun w => ?_,
    e.copy⟩
  · rw [hblock]
    split
    · simp only [filter_insertIdx (hnot d)]
    · have hall : (g.block d).insns.filter (· ≠ ⟨g.insns.size⟩) = (g.block d).insns :=
        List.filter_eq_self.mpr fun i hi => by
          simpa using fun heq : i = ⟨g.insns.size⟩ => hnot d (heq ▸ hi)
      rw [hall]
  · rw [hblock, if_pos rfl]
    exact (List.mem_insertIdx hn).mpr (.inl rfl)
  · have hlt := placed_lt (h.seats.mem_placed.mp hi)
    rw [e.carried.lines h.intact i hlt]
    refine rename_line h.names h.intact (fun w hw => naming_of_ne ?_) i
    rintro rfl
    exact Nat.lt_irrefl _ hw
  · rw [mem_live h.names]
    exact Nat.lt_irrefl _
  · exact (mem_live h.names).mpr hu
  · obtain ⟨m⟩ := w
    rw [mem_live h'.names, mem_live h.names, e.vars, VarId.mk.injEq]
    simp only
    omega

/-! A site may be added, the copy may be placed, and an argument may change to a site that reads like
    it. -/

namespace Drafted

theorem newSite (hg : g.Intact) (e : Drafted g u g') (y : Site) : Drafted g u (g'.newSite y).2 := by
  have hline := line_newSite (e.carried.edited.intact hg) y
  exact ⟨trans_of (Carried _ _) e.carried (carried_newSite y), e.insns, e.vars,
    e.copy.congr (hline _) fun j => by rw [hline]⟩

theorem insertAt (e : Drafted g u g') (b : BlockId) (n : Nat) :
    Drafted g u (g'.insertAt b n ⟨g.insns.size⟩) := by
  have hline := line_insertAt (g := g') b n ⟨g.insns.size⟩
  have hsize : (g'.insertAt b n ⟨g.insns.size⟩).insns.size = g'.insns.size := Array.size_modify
  refine ⟨trans_of (Carried _ _) e.carried (carried_insertAt b n (Nat.le_refl _)), ?_, e.vars,
    e.copy.congr (hline _) fun j => by rw [hline]⟩
  rw [hsize]
  exact e.insns

theorem replaceArg (hg : g.Intact) (e : Drafted g u g') {i : InsnId} (hi : i.index < g.insns.size)
    (hs : g'.Holds s) {y : Site}
    (heq : y.bare.rename (naming ⟨g.vars.size⟩ u) =
      (g'.site s).bare.rename (naming ⟨g.vars.size⟩ u)) :
    Drafted g u ((g'.newSite y).2.replaceArg i s (g'.newSite y).1).2 := by
  have e₁ := e.newSite hg y
  have hi₁ : i.index < (g'.newSite y).2.insns.size := Nat.lt_trans hi e.insns
  have hnew : (g'.newSite y).2.site (g'.newSite y).1 = y := by rw [site_newSite, if_pos rfl]
  have hold : (g'.newSite y).2.site s = g'.site s := by
    rw [site_newSite, if_neg]
    rintro rfl
    exact not_holds_newSite y hs
  have hheld := holds_newSite (g := g') y
  generalize (g'.newSite y).1 = d at hnew hheld ⊢
  generalize (g'.newSite y).2 = g₁ at e₁ hi₁ hnew hold hheld ⊢
  have hne : (⟨g.insns.size⟩ : InsnId) ≠ i := fun h => Nat.lt_irrefl _ (congrArg InsnId.index h ▸ hi)
  refine ⟨trans_of (Carried _ _) e₁.carried (carried_replaceArg hi₁ hheld ?_), ?_, ?_,
    e₁.copy.congr (line_replaceArg hne hi₁ s d) (result_replaceArg hi₁ s d)⟩
  · rw [hnew, hold, heq]
  · rw [(same_replaceArg i s d).1]
    exact e₁.insns
  · rw [(same_replaceArg i s d).2.1]
    exact e₁.vars

end Drafted

theorem inserted_insertAt (hblocks : g'.blocks = g.blocks) {b : BlockId} (hb : b.index < g.blocks.size)
    {n : Nat} (hn : n ≤ (g.block b).insns.length) (x : InsnId) : Inserted g x (g'.insertAt b n x) := by
  have hblock : ∀ d, g'.block d = g.block d := fun d => by
    rw [MethodGraph.block, MethodGraph.block, hblocks]
  refine ⟨?_, b, n, hn, fun d => ?_⟩
  · rw [← hblocks]
    exact Array.size_modify
  · rw [← hblock]
    exact block_set (hblocks ▸ hb) (fun y => { y with insns := y.insns.insertIdx n x }) d

theorem Inserted.congr {g'' : MethodGraph} {x : InsnId} (h : Inserted g x g')
    (hblocks : g''.blocks = g'.blocks) : Inserted g x g'' := by
  refine ⟨by rw [hblocks, h.size], ?_⟩
  obtain ⟨b, n, hn, hblock⟩ := h.block
  refine ⟨b, n, hn, fun d => ?_⟩
  rw [← hblock, MethodGraph.block, MethodGraph.block, hblocks]

/-! ## Casts -/

/-- A soft cast or a move is built that reads a copy of a site, between the fresh variable and the
    other. -/
theorem drafted_buildFrom {g₁ : MethodGraph}
    (hc : Carried (naming ⟨g.vars.size⟩ u) g.insns.size g g₁)
    (hinsns : g₁.insns.size = g.insns.size) (hvars : g₁.vars.size = g.vars.size + 1) {x : Insn}
    (hx : Insn.Bare x) (hcode : x.opcode = .move ∨ (x.opcode = .checkCast ∧ x.soft = true))
    {r a : SiteId} (hr : g₁.Holds r)
    (hends : (g₁.varOf? r = some ⟨g.vars.size⟩ ∧ g₁.varOf? a = some u) ∨
      (g₁.varOf? r = some u ∧ g₁.varOf? a = some ⟨g.vars.size⟩)) :
    ∃ g₂, (g₁.duplicate a).2.buildInsn x (some r) [(g₁.duplicate a).1] = (⟨g.insns.size⟩, g₂) ∧
      Drafted g u g₂ ∧ g₂.blocks = g₁.blocks ∧ Carried id g.insns.size g₁ g₂ := by
  have hsites : x.sites = [] := by
    rw [Insn.sites, hx.result, hx.args]
    rfl
  have hdup : ∀ σ, Carried σ g.insns.size g₁ (g₁.duplicate a).2 := fun _ => carried_newSite _
  have hread : (g₁.duplicate a).2.varOf? (g₁.duplicate a).1 = g₁.varOf? a := by
    refine varOf?_congr ?_
    rw [duplicate, site_newSite, if_pos rfl]
  have hheld : (g₁.duplicate a).2.Holds (g₁.duplicate a).1 := holds_newSite _
  have hsame : (g₁.duplicate a).2.insns = g₁.insns ∧ (g₁.duplicate a).2.vars = g₁.vars ∧
      (g₁.duplicate a).2.blocks = g₁.blocks := ⟨rfl, rfl, rfl⟩
  generalize (g₁.duplicate a).1 = d at hread hheld ⊢
  generalize (g₁.duplicate a).2 = g₂ at hdup hread hheld hsame ⊢
  obtain ⟨hinsns₂, hvars₂, hblocks₂⟩ := hsame
  have hsize : g₂.insns.size = g.insns.size := (congrArg Array.size hinsns₂).trans hinsns
  have hr₂ := (hdup id).edited.holds hr
  have hbuild : ∀ σ, Carried σ g.insns.size g₂ (g₂.buildInsn x (some r) [d]).2 := fun _ =>
    carried_buildInsn hsites hr₂ (fun y hy => List.mem_singleton.mp hy ▸ hheld) (Nat.le_of_eq hsize.symm)
  obtain ⟨hsize₃, hvars₃, hblocks₃⟩ := same_buildInsn (g := g₂) x r [d]
  have hinsn := insn_buildInsn (g := g₂) x r [d]
  rw [buildInsn_eq, hsize]
  generalize (g₂.buildInsn x (some r) [d]).2 = g₃ at hbuild hsize₃ hvars₃ hblocks₃ hinsn ⊢
  have hnew : g₃.insn ⟨g.insns.size⟩ = { x with result := some r, args := [d] } := by
    rw [hinsn, if_pos (by rw [hsize]), hx.args, List.nil_append]
  have hline : ∀ {v w}, g₁.varOf? r = some v → g₁.varOf? a = some w →
      (g₃.line ⟨g.insns.size⟩).Forwards v w := by
    intro v w hv hw
    refine forwards_line ?_ (by rw [hnew]) (by rw [hnew]) ?_ ?_
    · rw [hnew]
      exact hcode
    · rw [(hbuild id).varOf hr₂, (hdup id).varOf hr, hv]
    · rw [(hbuild id).varOf hheld, hread, hw]
  refine ⟨g₃, rfl, ⟨?_, ?_, ?_, ?_⟩, hblocks₃.trans hblocks₂,
    trans_of (Carried _ _) (hdup id) (hbuild id)⟩
  · exact trans_of (Carried _ _) hc (trans_of (Carried _ _) (hdup _) (hbuild _))
  · rw [hsize₃, hsize]
    exact Nat.lt_succ_self _
  · rw [hvars₃, hvars₂, hvars]
  · rcases hends with ⟨hv, hw⟩ | ⟨hv, hw⟩
    · exact .inl (hline hv hw)
    · exact .inr (.inl (hline hv hw))

/-- An instruction that reads a copy of a register site and defines a fresh variable. -/
theorem drafted_feed (hs : g.Holds s) (hv : g.varOf? s = some v) {x : Insn}
    (hx : Insn.Bare x) (hcode : x.opcode = .move ∨ (x.opcode = .checkCast ∧ x.soft = true)) :
    ∃ g₁, ((g.duplicateFresh s).2.duplicate s).2.buildInsn x (some (g.duplicateFresh s).1)
        [((g.duplicateFresh s).2.duplicate s).1] = (⟨g.insns.size⟩, g₁) ∧
      Drafted g v g₁ ∧ g₁.blocks = g.blocks ∧ g₁.Holds (g.duplicateFresh s).1 ∧
      (g₁.site (g.duplicateFresh s).1).bare =
        { (g.site s).bare with operand := .reg ⟨g.vars.size⟩ } := by
  have hcarried := carried_duplicateFresh (σ := naming ⟨g.vars.size⟩ v) (n := g.insns.size) (g := g) s
  have hinsns := insns_duplicateFresh (g := g) s
  obtain ⟨hvars, hblocks⟩ := same_duplicateFresh hv
  have hbare := bare_duplicateFresh hv
  have hheld := holds_duplicateFresh (g := g) s
  generalize (g.duplicateFresh s).1 = r at hbare hheld ⊢
  generalize (g.duplicateFresh s).2 = g₁ at hcarried hinsns hvars hblocks hbare hheld ⊢
  have hfresh : g₁.varOf? r = some ⟨g.vars.size⟩ := varOf?_of_bare_reg (by rw [hbare])
  obtain ⟨g₂, hbuild, e, hblocks₂, hcarried₂⟩ := drafted_buildFrom hcarried
    (congrArg Array.size hinsns) hvars hx hcode hheld
    (.inl ⟨hfresh, (hcarried.varOf hs).trans hv⟩)
  exact ⟨g₂, hbuild, e, hblocks₂.trans hblocks, hcarried₂.edited.holds hheld,
    (hcarried₂.bare r hheld).trans hbare⟩

theorem bare_operand (hv : g.varOf? s = some v) : (g.site s).bare.operand = .reg v := by
  simp [Site.bare, varOf?_eq_some.mp hv, Operand.bare]

/-- A site on a variable reads like one on another that has the same name. -/
theorem rename_bare {w : VarId} (hv : g.varOf? s = some v) {y : Site}
    (hy : y.bare = { (g.site s).bare with operand := .reg w }) :
    y.bare.rename (naming w v) = (g.site s).bare.rename (naming w v) := by
  rw [hy]
  exact rename_fresh (bare_operand hv) (by simp)

/-- The graph is as it was, or has one copy more. -/
def AtMostCopy (g : MethodGraph) (g' : MethodGraph) : Prop :=
  g' = g ∨ ∃ u, CopyAdded g ⟨g.insns.size⟩ ⟨g.vars.size⟩ u g'

theorem atMostCopy_castUse (h : g.Wired P ∅ ∅) (hs : Reads g v s) :
    AtMostCopy g (castUse g s).2 := by
  have h' := (wired_castUse h hs).1
  rcases castUse_cases h hs with heq | ⟨i, hplaced, heq⟩
  · exact .inl heq
  have hlt := placed_lt hplaced
  obtain ⟨g₁, hbuild, e₁, hblocks, hheld, hbare⟩ := drafted_feed hs.held hs.varOf
    (x := { opcode := .checkCast, type := some (g.site s).declared, soft := true, synthetic := true })
    ⟨rfl, rfl, rfl, rfl⟩ (.inr ⟨rfl, rfl⟩)
  simp only [heq, hbuild] at h' ⊢
  generalize (g.duplicateFresh s).1 = r at hheld hbare h' ⊢
  have e₂ : Drafted g v ((g₁.duplicate r).2.replaceArg i s (g₁.duplicate r).1).2 :=
    e₁.replaceArg h.intact hlt (e₁.carried.edited.holds hs.held) (y := { g₁.site r with owner := none })
      (rename_bare ((e₁.carried.varOf hs.held).trans hs.varOf)
        (by rw [e₁.carried.bare s hs.held]; exact hbare))
  have hblocks₂ := (same_replaceArg (g := (g₁.duplicate r).2) i s (g₁.duplicate r).1).2.2.trans hblocks
  generalize ((g₁.duplicate r).2.replaceArg i s (g₁.duplicate r).1).2 = g₂ at e₂ hblocks₂ h' ⊢
  obtain ⟨b, n, hplace, -, -, hb, hn⟩ := h.seats.place? hplaced
  have hbefore : g₂.insertBefore i ⟨g.insns.size⟩ = (true, g₂.insertAt b n ⟨g.insns.size⟩) := by
    rw [insertBefore, e₂.carried.place? hblocks₂ hlt, hplace]
  rw [hbefore] at h' ⊢
  exact .inr ⟨v, copyAdded_of_drafted h h' (h.names.var s v hs.held hs.varOf) (e₂.insertAt b n)
    (inserted_insertAt hblocks₂ hb (Nat.le_of_lt hn) _)⟩

/-- An instruction hands its definition of a variable over to one that reads a fresh variable. -/
theorem drafted_handOver {i : InsnId} (hi : i.index < g.insns.size)
    (hres : (g.insn i).result = some s) (hs : g.Holds s) (hv : g.varOf? s = some v) {x : Insn}
    (hx : Insn.Bare x) (hcode : x.opcode = .move ∨ (x.opcode = .checkCast ∧ x.soft = true)) :
    ∃ g₁ g₂, (g.duplicateFresh s).2.setResult i (some (g.duplicateFresh s).1) = g₁ ∧
      (g₁.duplicate (g.duplicateFresh s).1).2.buildInsn x (some s)
        [(g₁.duplicate (g.duplicateFresh s).1).1] = (⟨g.insns.size⟩, g₂) ∧
      Drafted g v g₂ ∧ g₂.blocks = g.blocks := by
  have hcarried := carried_duplicateFresh (σ := naming ⟨g.vars.size⟩ v) (n := g.insns.size) (g := g) s
  have hinsns := insns_duplicateFresh (g := g) s
  obtain ⟨hvars, hblocks⟩ := same_duplicateFresh hv
  have hbare := bare_duplicateFresh hv
  have hheld := holds_duplicateFresh (g := g) s
  generalize (g.duplicateFresh s).1 = fresh at hbare hheld ⊢
  generalize (g.duplicateFresh s).2 = g₁ at hcarried hinsns hvars hblocks hbare hheld ⊢
  -- the fresh result reads like the old one
  have hset : Carried (naming ⟨g.vars.size⟩ v) g.insns.size g₁ (g₁.setResult i (some fresh)) := by
    refine carried_setResult (by rw [hinsns]; exact hi) hheld fun _ =>
      ⟨s, by rw [insn_congr hinsns, hres], ?_⟩
    exact rename_bare ((hcarried.varOf hs).trans hv) (by rw [hbare, hcarried.bare s hs])
  obtain ⟨hsize₂, hvars₂, hblocks₂⟩ := same_setResult (g := g₁) i fresh
  refine ⟨g₁.setResult i (some fresh), ?_⟩
  generalize g₁.setResult i (some fresh) = g₂ at hset hsize₂ hvars₂ hblocks₂ ⊢
  have hboth := trans_of (Carried _ _) hcarried hset
  have hfresh : g₂.varOf? fresh = some ⟨g.vars.size⟩ :=
    varOf?_of_bare_reg (by rw [hset.bare fresh hheld, hbare])
  obtain ⟨g₃, hbuild, e, hblocks₃, -⟩ := drafted_buildFrom hboth
    (hsize₂.trans (congrArg Array.size hinsns)) (hvars₂.trans hvars) hx hcode
    (hboth.edited.holds hs) (.inr ⟨(hboth.varOf hs).trans hv, hfresh⟩)
  exact ⟨g₃, rfl, hbuild, e, hblocks₃.trans (hblocks₂.trans hblocks)⟩

theorem atMostCopy_castDefinition (h : g.Wired P ∅ ∅) (v : VarId) (t : Ty) :
    AtMostCopy g (castDefinition g v t).2 := by
  have h' := (wired_castDefinition h v t).1
  rcases castDefinition_cases g v t with heq | ⟨s, i, hs, hi, hplaced, heq⟩
  · exact .inl heq
  have hlt := placed_lt hplaced
  obtain ⟨hvs, hheld, hno⟩ := h.slots.assign v s hs
  have hres : (g.insn i).result = some s := (h.slots.owned s i hi).resolve_left (hno i)
  obtain ⟨g₁, g₂, hg₁, hg₂, e, hblocks⟩ := drafted_handOver hlt hres hheld hvs
    (x := { opcode := .checkCast, type := some t, soft := true, synthetic := true })
    ⟨rfl, rfl, rfl, rfl⟩ (.inr ⟨rfl, rfl⟩)
  simp only [heq, hg₁, hg₂] at h' ⊢
  obtain ⟨b, n, hplace, -, -, hb, hn⟩ := h.seats.place? hplaced
  have hafter : g₂.insertAfter i ⟨g.insns.size⟩ =
      (true, g₂.insertAt b (n + 1) ⟨g.insns.size⟩) := by
    rw [insertAfter, e.carried.place? hblocks hlt, hplace]
  rw [hafter] at h' ⊢
  exact .inr ⟨v, copyAdded_of_drafted h h' (h.names.var s v hheld hvs) (e.insertAt b (n + 1))
    (inserted_insertAt hblocks hb hn _)⟩

/-! ## Moves -/

/-- The move is put at the end of a block, and a phi reads through it. -/
theorem copyAdded_move (h : g.Wired P ∅ ∅) (hs : g.Holds s) (hv : g.varOf? s = some v)
    {phi : InsnId} (hphi : phi.index < g.insns.size) {b : BlockId} (hb : b.index < g.blocks.size) :
    let (result, g₁) := g.duplicateFresh s
    let (source, g₁) := g₁.duplicate s
    let (move, g₁) := g₁.buildInsn { opcode := .move, synthetic := true } (some result) [source]
    let g₁ := g₁.append b move
    let (d, g₁) := g₁.duplicate result
    CopyAdded g ⟨g.insns.size⟩ ⟨g.vars.size⟩ v (g₁.replaceArg phi s d).2 := by
  have hmove := wired_move h hs (by rw [isRegister, hv]; rfl) phi hb
  obtain ⟨g₁, hbuild, e₁, hblocks, hheld, hbare⟩ := drafted_feed hs hv
    (x := { opcode := .move, synthetic := true }) ⟨rfl, rfl, rfl, rfl⟩ (.inl rfl)
  simp only [hbuild] at hmove ⊢
  have hblock : g₁.block b = g.block b := by rw [MethodGraph.block, MethodGraph.block, hblocks]
  have hins : Inserted g ⟨g.insns.size⟩ (g₁.append b ⟨g.insns.size⟩) :=
    inserted_insertAt hblocks hb (by rw [hblock]) _
  have e₂ : Drafted g v (g₁.append b ⟨g.insns.size⟩) := e₁.insertAt b _
  generalize (g.duplicateFresh s).1 = r at hheld hbare hmove ⊢
  have hbare₂ : ((g₁.append b ⟨g.insns.size⟩).site r).bare =
      { (g.site s).bare with operand := .reg ⟨g.vars.size⟩ } := hbare
  generalize g₁.append b ⟨g.insns.size⟩ = g₂ at hins e₂ hbare₂ hmove ⊢
  have e₃ := e₂.replaceArg h.intact hphi (e₂.carried.edited.holds hs)
    (y := { g₂.site r with owner := none })
    (rename_bare ((e₂.carried.varOf hs).trans hv) (by rw [e₂.carried.bare s hs]; exact hbare₂))
  refine copyAdded_of_drafted h hmove.1 (h.names.var s v hs hv) e₃ (hins.congr ?_)
  exact (same_replaceArg _ _ _).2.2

/-! ## Constants -/

theorem defines_iff {i : InsnId} : (g.line i).Defines v ↔
    ∃ s, (g.insn i).result = some s ∧ g.varOf? s = some v := by
  constructor
  · rintro ⟨y, hy, hv⟩
    obtain ⟨s, hs, rfl⟩ := Option.map_eq_some_iff.mp hy
    exact ⟨s, hs, varOf?_of_bare_reg hv⟩
  · rintro ⟨s, hs, hv⟩
    exact defines_line hs hv

/-- Marking the copy changes nothing that it repeats. -/
theorem carried_mark {n : Nat} {x : InsnId} (hx : n ≤ x.index) (synthetic : Bool) :
    ∃ g', g' = (if synthetic then g.updateInsn x fun y => { y with synthetic := true } else g) ∧
      (∀ σ, Carried σ n g g') ∧ (g'.line x).content = (g.line x).content ∧
      g'.insns.size = g.insns.size ∧ g'.vars.size = g.vars.size ∧ g'.blocks = g.blocks := by
  refine ⟨_, rfl, ?_⟩
  split
  · refine ⟨fun σ => carried_of_insn (edited_touchInsn fun _ => rfl) (fun _ _ => rfl) fun i hi => ?_, ?_,
      Array.size_modify, rfl, rfl⟩
    · rw [insn_updateInsn, if_neg]
      rintro ⟨rfl, -⟩
      exact Nat.lt_irrefl _ (Nat.lt_of_lt_of_le hi hx)
    · rw [line, insn_updateInsn]
      split <;> rfl
  · exact ⟨fun σ => refl_of (Carried σ n) g, rfl, rfl, rfl, rfl⟩

/-- A copy of a constant has the fresh variable and reads like the constant. -/
theorem drafted_copyFresh (h : g.Wired P ∅ ∅) {i : InsnId} (hi : i ∈ g.placed)
    (hop : (g.insn i).opcode = .const) (hv : (g.line i).Defines v) (synthetic : Bool) :
    ∃ g₁, g₁ = (if synthetic then
        (g.copyFresh i).2.updateInsn ⟨g.insns.size⟩ fun x => { x with synthetic := true }
      else (g.copyFresh i).2) ∧ Drafted g v g₁ ∧ g₁.blocks = g.blocks ∧ g₁.line i = g.line i ∧
      (g₁.line ⟨g.insns.size⟩).Defines ⟨g.vars.size⟩ := by
  have hlt := placed_lt (h.seats.mem_placed.mp hi)
  obtain ⟨r, hr, hvr⟩ := defines_iff.mp hv
  have hcarried : ∀ σ, Carried σ g.insns.size g (g.copyFresh i).2 := fun _ =>
    carried_copyFresh h.intact hr (Nat.le_refl _)
  have hcontent := content_copyFresh h.intact hr hvr
  obtain ⟨hinsns, hvars, hblocks⟩ := same_copyFresh h.intact hr hvr
  generalize (g.copyFresh i).2 = g₁ at hcarried hcontent hinsns hvars hblocks ⊢
  obtain ⟨g₂, hg₂, hmark, hcontent₂, hinsns₂, hvars₂, hblocks₂⟩ :=
    carried_mark (g := g₁) (x := ⟨g.insns.size⟩) (Nat.le_refl _) synthetic
  have hboth : ∀ σ, Carried σ g.insns.size g g₂ := fun σ =>
    trans_of (Carried σ _) (hcarried σ) (hmark σ)
  have hline : g₂.line i = g.line i := by
    have hid := (hboth id).lines h.intact i hlt
    rwa [Line.rename_id, Line.rename_id] at hid
  rw [hcontent] at hcontent₂
  have hnew : (g₂.line ⟨g.insns.size⟩).Defines ⟨g.vars.size⟩ :=
    ⟨_, congrArg Line.result hcontent₂, rfl⟩
  -- under the new name the copy is the constant again
  have hrepeats : Repeats g i ((g₂.line ⟨g.insns.size⟩).rename (naming ⟨g.vars.size⟩ v)) := by
    refine ⟨hi, hop, ?_⟩
    have hself := rename_line (σ := naming ⟨g.vars.size⟩ v) h.names h.intact
      (fun w hw => naming_of_ne fun heq => Nat.lt_irrefl _ (congrArg VarId.index heq ▸ hw)) i
    have hfresh := rename_fresh (σ := naming ⟨g.vars.size⟩ v) (w := ⟨g.vars.size⟩) (bare_operand hvr)
      (by simp)
    rw [← hself, Line.content_rename, Line.content_rename, hcontent₂]
    simp only [Line.rename, Line.content, line, hr, Option.map_some, hfresh]
  refine ⟨g₂, hg₂, ⟨hboth _, ?_, hvars₂.trans hvars, .inr (.inr ⟨i, hrepeats, ?_, hnew⟩)⟩,
    hblocks₂.trans hblocks, hline, hnew⟩
  · rw [hinsns₂, hinsns]
    exact Nat.lt_succ_self _
  · rw [hline]
    exact hv

theorem drafted_copyAfter (h : g.Wired P ∅ ∅) {i : InsnId} (hi : i ∈ g.placed)
    (hop : (g.insn i).opcode = .const) (hv : (g.line i).Defines v) (synthetic : Bool) :
    (copyAfter g i synthetic).1 = some ⟨g.vars.size⟩ ∧ Drafted g v (copyAfter g i synthetic).2 ∧
      Inserted g ⟨g.insns.size⟩ (copyAfter g i synthetic).2 ∧
      (copyAfter g i synthetic).2.line i = g.line i := by
  have hplaced := h.seats.mem_placed.mp hi
  obtain ⟨g₁, hg₁, e, hblocks, hline, hnew⟩ := drafted_copyFresh h hi hop hv synthetic
  have hid := (wired_copyFresh h (show (g.insn i).opcode ≠ .phi by rw [hop]; nofun)).1
  obtain ⟨b, n, hplace, -, -, hb, hn⟩ := h.seats.place? hplaced
  have hafter : g₁.insertAfter i ⟨g.insns.size⟩ = (true, g₁.insertAt b (n + 1) ⟨g.insns.size⟩) := by
    rw [insertAfter, e.carried.place? hblocks (placed_lt hplaced), hplace]
  have hlines := line_insertAt (g := g₁) b (n + 1) ⟨g.insns.size⟩
  unfold copyAfter
  simp only [hid, ← hg₁, hafter]
  refine ⟨?_, e.insertAt b (n + 1), inserted_insertAt hblocks hb hn _, by rw [hlines, hline]⟩
  rw [← hlines] at hnew
  obtain ⟨s, hs, hvar⟩ := defines_iff.mp hnew
  rw [hs]
  exact hvar

/-! ## Runs of steps -/

/-- Nothing is open, and the code contracts to that of the older graph. -/
structure Contracted (P : Set VarId) (g g' : MethodGraph) : Prop where
  wired : g'.Wired P ∅ ∅
  contraction : ∃ original name, Contraction g g' original name

theorem typeless_contracted (P : Set VarId) (g : MethodGraph) : Typeless (Contracted P g) := by
  rintro g₁ g₂ hf ⟨hw, original, name, hc⟩
  exact ⟨typeless_wired P g₁ g₂ hf hw, original, name, hc.framed hf⟩

theorem contracted_refl (h : g.Wired P ∅ ∅) : Contracted P g g := ⟨h, id, id, contraction_refl g id⟩

section
variable {g₁ g₂ : MethodGraph}

theorem Contracted.step (h : Contracted P g g₁) (hw : g₂.Wired P ∅ ∅) (hc : AtMostCopy g₁ g₂) :
    Contracted P g g₂ := by
  obtain ⟨original, name, hg⟩ := h.contraction
  rcases hc with rfl | ⟨u, e⟩
  · exact h
  · obtain ⟨original', hg'⟩ := hg.copy e
    exact ⟨hw, original', _, hg'⟩

theorem contracted_castUse (h : Contracted P g g₁) (hs : Reads g₁ v s) :
    Contracted P g (castUse g₁ s).2 ∧ Later g₁ (castUse g₁ s).2 := by
  obtain ⟨hw, hlater⟩ := wired_castUse h.wired hs
  exact ⟨h.step hw (atMostCopy_castUse h.wired hs), hlater⟩

theorem contracted_insertVarCasts (h : Contracted P g g₁) (v : VarId) :
    Contracted P g (insertVarCasts c g₁ v).2 ∧ Later g₁ (insertVarCasts c g₁ v).2 := by
  unfold insertVarCasts
  split
  · exact ⟨h, refl_of Later g₁⟩
  · next t _ =>
    obtain ⟨hw, hlater⟩ := wired_castDefinition h.wired v t
    have h₂ := h.step hw (atMostCopy_castDefinition h.wired v t)
    generalize castDefinition g₁ v t = r at h₂ hlater ⊢
    obtain ⟨_ | _, g₂⟩ := r
    · obtain ⟨h₃, hlater₃⟩ := kept_tally (K := Contracted P g) (l := (g₂.var v).uses)
        (f := fun g s => ((castUse g s).1.toNat, (castUse g s).2))
        (fun s hs g' h' hl => contracted_castUse h' (hl.reads (reads_of_use h₂.wired hs))) h₂
      exact ⟨h₃, trans_of Later hlater hlater₃⟩
    · exact ⟨h₂, hlater⟩

/-- What was read stays true: sites keep their variables, and blocks and instructions stay. -/
structure Onward (g g' : MethodGraph) : Prop where
  holds : ∀ s, g.Holds s → g'.Holds s
  varOf : ∀ s, g.Holds s → g'.varOf? s = g.varOf? s
  blocks : g.blocks.size ≤ g'.blocks.size
  placed : ∀ i ∈ g.placed, i ∈ g'.placed

instance : IsPreorder MethodGraph Onward where
  refl _ := ⟨fun _ => id, fun _ _ => rfl, Nat.le_refl _, fun _ => id⟩
  trans _ _ _ h h' := ⟨fun s hs => h'.holds s (h.holds s hs),
    fun s hs => (h'.varOf s (h.holds s hs)).trans (h.varOf s hs), Nat.le_trans h.blocks h'.blocks,
    fun i hi => h'.placed i (h.placed i hi)⟩

theorem onward_of_drafted (e : Drafted g₁ u g₂) {x : InsnId} {w : VarId}
    (hc : CopyAdded g₁ x w u g₂) : Onward g₁ g₂ :=
  ⟨fun _ => e.carried.edited.holds, fun _ => e.carried.varOf, Nat.le_of_eq hc.size.symm,
    fun _ => hc.still_placed⟩

/-- What splitting a constant relies on: it stays where it is and keeps its variable. -/
structure Splits (P : Set VarId) (g : MethodGraph) (i : InsnId) (v : VarId) (g' : MethodGraph) :
    Prop where
  contracted : Contracted P g g'
  placed : i ∈ g'.placed
  const : (g'.insn i).opcode = .const
  defines : (g'.line i).Defines v

/-- A copy is made, and then one argument may read its variable. -/
theorem Splits.copy {i : InsnId} (h : Splits P g i v g₁) (synthetic : Bool) :
    (copyAfter g₁ i synthetic).1 = some ⟨g₁.vars.size⟩ ∧
      Splits P g i v (copyAfter g₁ i synthetic).2 ∧ Onward g₁ (copyAfter g₁ i synthetic).2 ∧
      ∀ user s, user.index < g₁.insns.size → (copyAfter g₁ i synthetic).2.Holds s →
        (copyAfter g₁ i synthetic).2.varOf? s = some v →
        Splits P g i v (redirect (copyAfter g₁ i synthetic).2 user s ⟨g₁.vars.size⟩) ∧
        Onward g₁ (redirect (copyAfter g₁ i synthetic).2 user s ⟨g₁.vars.size⟩) := by
  have hwired := h.contracted.wired
  obtain ⟨hvar, e, hins, hline⟩ := drafted_copyAfter hwired h.placed h.const h.defines synthetic
  have hsplit : Splitting P i g₁ := ⟨hwired, hwired.seats.mem_placed.mp h.placed, h.const⟩
  obtain ⟨hcopy, hread⟩ := hsplit.copy synthetic
  obtain ⟨r, hr, hvr⟩ := defines_iff.mp h.defines
  have hv := hwired.names.var r v (hwired.slots.holds_result hr) hvr
  generalize copyAfter g₁ i synthetic = k at hvar e hins hline hcopy hread ⊢
  obtain ⟨w?, g₂⟩ := k
  cases hvar
  have hadd := copyAdded_of_drafted hwired hcopy.wired hv e hins
  have honward := onward_of_drafted e hadd
  refine ⟨rfl, ⟨h.contracted.step hcopy.wired (.inr ⟨v, hadd⟩), honward.placed i h.placed, ?_, ?_⟩,
    honward, fun user s huser hs hsv => ?_⟩
  · exact hcopy.opcode
  · rw [hline]
    exact h.defines
  · have hsplit' := hread _ rfl user s
    have e' := e.replaceArg hwired.intact huser hs
      (y := { g₂.site s with owner := none, operand := .reg ⟨g₁.vars.size⟩ }) (rename_bare hsv rfl)
    have hadd' := copyAdded_of_drafted hwired hsplit'.wired hv e'
      (hins.congr (same_replaceArg _ _ _).2.2)
    have honward' := onward_of_drafted e' hadd'
    refine ⟨⟨h.contracted.step hsplit'.wired (.inr ⟨v, hadd'⟩), honward'.placed i h.placed,
      hsplit'.opcode, ?_⟩, honward'⟩
    obtain ⟨y, hy, hyv⟩ := h.defines
    have hres := result_replaceArg (g := (g₂.duplicateWith s ⟨g₁.vars.size⟩).2) (i := user)
      (Nat.lt_trans huser e.insns) s (g₂.duplicateWith s ⟨g₁.vars.size⟩).1 i
    refine ⟨y, hres.trans ?_, hyv⟩
    rw [duplicateWith, line_newSite (e.carried.edited.intact hwired.intact), hline, hy]

theorem splits_start (h : Contracted P g g₁) {i : InsnId} (hi : sharedConst? g₁ v = some i) :
    Splits P g i v g₁ := by
  have hsplit := splitting_start h.wired hi
  obtain ⟨hassign, -⟩ := Option.filter_eq_some_iff.mp hi
  obtain ⟨s, hs, howner⟩ := Option.bind_eq_some_iff.mp hassign
  obtain ⟨hvs, -, hno⟩ := h.wired.slots.assign v s hs
  exact ⟨h, h.wired.seats.mem_placed.mpr hsplit.placed, hsplit.opcode,
    defines_line ((h.wired.slots.owned s i howner).resolve_left (hno i)) hvs⟩

/-- A walk over a list keeps what its steps keep, if what they ask of an item lasts. -/
theorem splits_foldl {α : Type} {i : InsnId} {A : α → MethodGraph → Prop}
    {step : MethodGraph → α → MethodGraph} (hA : ∀ a g g', Onward g g' → A a g → A a g')
    (hstep : ∀ g₁ a, Splits P g i v g₁ → A a g₁ →
      Splits P g i v (step g₁ a) ∧ Onward g₁ (step g₁ a)) (l : List α)
    (h : Splits P g i v g₁) (hl : ∀ a ∈ l, A a g₁) : Splits P g i v (l.foldl step g₁) := by
  induction l generalizing g₁ with
  | nil => exact h
  | cons a l ih =>
    obtain ⟨h₂, honward⟩ := hstep g₁ a h (hl a List.mem_cons_self)
    exact ih h₂ fun b hb => hA b _ _ honward (hl b (List.mem_cons_of_mem a hb))

theorem contracted_splitByPhi (h : Contracted P g g₁) (v : VarId) :
    Contracted P g (splitByPhi g₁ v).2 := by
  unfold splitByPhi
  split
  · next i first phi phis hi hphis =>
    refine (splits_foldl (A := fun phi g' => phi ∈ g'.placed) (fun _ _ _ ho => ho.placed _)
      (fun g' phi hs hphi => ?_) _ (splits_start h hi) fun phi hmem => ?_).contracted
    · obtain ⟨hvar, hcopy, honward, hread⟩ := hs.copy true
      have hwired := hcopy.contracted.wired
      have hlt := placed_lt (hs.contracted.wired.seats.mem_placed.mp hphi)
      generalize copyAfter g' i true = k at hvar hcopy honward hread hwired ⊢
      obtain ⟨w?, g₂⟩ := k
      cases hvar
      simp only
      split
      · next s hs =>
        have hmem := List.mem_of_find?_eq_some hs
        have hsv : g₂.varOf? s = some v := by simpa using List.find?_some hs
        exact hread phi s hlt (hwired.slots.holds_arg hmem) hsv
      · exact ⟨hcopy, honward⟩
    · have hmem : phi ∈ (g₁.var v).phis := by
        rw [hphis]
        exact List.mem_cons_of_mem _ hmem
      exact ((h.wired.wellFormed.phis v phi).mp hmem).1
  · exact h

theorem contracted_splitByUse (h : Contracted P g g₁) (v : VarId) :
    Contracted P g (splitByUse g₁ v).2 := by
  unfold splitByUse
  split
  · next i first use uses hi huses =>
    refine (splits_foldl (A := fun s g' => g'.Holds s ∧ g'.varOf? s = some v)
      (fun s _ _ ho ha => ⟨ho.holds s ha.1, (ho.varOf s ha.1).trans ha.2⟩)
      (fun g' s hs ha => ?_) _ (splits_start h hi) fun s hmem => ?_).contracted
    · split
      · exact ⟨hs, refl_of Onward g'⟩
      · next user huser =>
        obtain ⟨hvar, hcopy, honward, hread⟩ := hs.copy false
        have hlt := hs.contracted.wired.slots.owner_lt huser
        generalize copyAfter g' i false = k at hvar hcopy honward hread ⊢
        obtain ⟨w?, g₂⟩ := k
        cases hvar
        exact hread user s hlt (honward.holds s ha.1) ((honward.varOf s ha.1).trans ha.2)
    · have hmem : s ∈ (g₁.var v).uses := by
        rw [huses]
        exact List.mem_cons_of_mem _ hmem
      have hreads := reads_of_use h.wired hmem
      exact ⟨hreads.held, hreads.varOf⟩
  · exact h

/-! ## Resolvers -/

theorem ends_insertCasts (h : Contracted P g g₁) :
    Ends c g₁ insertCasts (fun _ => Contracted P g) (Contracted P g) := by
  have hf := kept_tally (K := Contracted P g) (l := g₁.live)
    (fun v _ _ h' _ => contracted_insertVarCasts (c := c) h' v) h
  exact .read' (ends_counted (typeless_contracted P g)
    (f := fun g => tally (insertVarCasts c) g.live g) hf.1 fun n => .inserted n "cast")

theorem ends_splitConst (h : Contracted P g g₁) (v : VarId) :
    Ends c g₁ (splitConst v) (fun _ => Contracted P g) (Contracted P g) := by
  refine .edit' (Q := fun _ => Contracted P g) ?_
  simp only
  split
  · exact h
  · have hphi := contracted_splitByPhi h v
    generalize splitByPhi g₁ v = r at hphi ⊢
    obtain ⟨_ | _, g₂⟩ := r
    · exact contracted_splitByUse hphi v
    · exact hphi

theorem ends_splitConsts (h : Contracted P g g₁) :
    Ends c g₁ splitConsts (fun _ => Contracted P g) (Contracted P g) :=
  ends_walk (typeless_contracted P g) h fun v _ h' => ends_splitConst h' v

theorem ends_allPlaced {E : MethodGraph → Prop} (inputs : List (SiteId × Option BlockId)) (h : E g) :
    Ends c g (allPlaced inputs) (fun _ => E) E := by
  induction inputs with
  | nil => exact .pure' h
  | cons input inputs ih =>
    obtain ⟨s, _ | b⟩ := input
    · exact .bind' (Q := fun _ => E) (.report' _ h) fun _ _ h₁ => .pure' h₁
    · refine .theGraph' ?_
      split
      · exact .throw' _ h
      · exact .bind' (Q := fun _ => E) (.report' _ h) fun _ _ h₁ => .pure' h₁
      · exact ih

/-- An input of a phi, as it was read with its block. -/
def IsInput (g : MethodGraph) (input : SiteId × Option BlockId) : Prop :=
  g.Holds input.1 ∧ ∀ b, input.2 = some b → b.index < g.blocks.size

theorem isInput_of_mem {U : Set VarId} (h : g.Wired P ∅ U) {phi : InsnId} {input : SiteId × Option BlockId}
    (hi : input ∈ phiInputs g phi) : IsInput g input := by
  simp only [phiInputs, List.mem_map] at hi
  obtain ⟨⟨s, n⟩, hs, rfl⟩ := hi
  refine ⟨h.slots.holds_arg (List.fst_mem_of_mem_zipIdx hs), fun b hb => ?_⟩
  exact h.seats.incoming phi b (List.mem_of_getElem? hb)

/-- The code contracts to that of `g`, and what was read in `g₁` stays true. -/
structure Routed (P : Set VarId) (g g₁ g₂ : MethodGraph) : Prop where
  contracted : Contracted P g g₂
  onward : Onward g₁ g₂

theorem ends_moveInput {phi : InsnId} (hphi : phi ∈ g₁.placed) (h : Routed P g g₁ g₂)
    {input : SiteId × Option BlockId} (hi : IsInput g₁ input) :
    Ends c g₂ (moveInput phi input) (fun _ => Routed P g g₁) (Routed P g g₁) := by
  obtain ⟨s, b?⟩ := input
  have hwired := h.contracted.wired
  have hlt := placed_lt (hwired.seats.mem_placed.mp (h.onward.placed phi hphi))
  refine .theGraph' ?_
  split
  · next v b hv hb =>
    refine .ite' (fun _ => .pure' h) fun _ => ?_
    split
    · exact .throw' _ h
    · exact .throw' _ h
    · next place hp =>
      have hplace := ascend_lt hwired.seats (some v)
        (Nat.lt_of_lt_of_le (hi.2 b hb) h.onward.blocks) hp
      have hheld := h.onward.holds s hi.1
      have hmove := wired_move hwired hheld (by rw [isRegister, hv]; rfl) phi hplace
      have hadd := copyAdded_move hwired hheld hv hlt hplace
      refine .edit' (Q := fun _ => Routed P g g₁) ?_
      simp only at hmove hadd ⊢
      obtain ⟨hw, hlater⟩ := hmove
      refine ⟨h.contracted.step hw (.inr ⟨v, hadd⟩), trans_of Onward h.onward ?_⟩
      exact ⟨fun _ => hlater.holds, hlater.varOf, hlater.blocks, fun _ => hadd.still_placed⟩
  · exact .pure' h

theorem ends_movePhiInputs {phi : InsnId} (hphi : phi ∈ g₁.placed) (h : Routed P g g₁ g₂) :
    Ends c g₂ (movePhiInputs phi) (fun _ => Routed P g g₁) (Routed P g g₁) := by
  refine .theGraph' (.ite' (fun _ => .pure' h) fun _ => ?_)
  -- the inputs are read here, so what is kept from now on is about this graph
  have hrefl : Routed P g g₂ g₂ := ⟨h.contracted, refl_of Onward g₂⟩
  have hphi₂ := h.onward.placed phi hphi
  refine .imp (D := Routed P g g₂) ?_ fun g₃ h₃ =>
    ⟨h₃.contracted, trans_of Onward h.onward h₃.onward⟩
  refine .bind' (ends_allPlaced _ hrefl) fun _ g₃ h₃ => .ite' (fun _ => .pure' h₃) fun _ => ?_
  exact .totalOf' _ (fun input hi g₄ h₄ =>
    ends_moveInput hphi₂ h₄ (isInput_of_mem h.contracted.wired hi)) h₃

theorem ends_insertMoves (h : Contracted P g g₁) :
    Ends c g₁ insertMoves (fun _ => Contracted P g) (Contracted P g) := by
  refine .theGraph' (.bind' (.totalOf' _ (fun b _ g₂ h₂ => ?_) h) fun _ g₂ h₂ => ?_)
  · refine .theGraph' (.imp (D := Routed P g g₂) ?_ fun _ => Routed.contracted)
    refine .totalOf' _ (fun phi hphi g₃ h₃ => ends_movePhiInputs (mem_placed.mpr ⟨b, ?_⟩) h₃)
      ⟨h₂, refl_of Onward g₂⟩
    exact (List.takeWhile_sublist _).subset hphi
  · refine .ite' (fun _ => .pure' h₂) fun _ => ?_
    refine .bind' (Q := fun _ => Contracted P g) (.report' _ h₂) fun _ g₃ h₃ => ?_
    refine .bind' (ends_reinit (typeless_contracted P g) h₃) fun _ g₄ h₄ =>
      .theGraph' (.ite' (fun _ => .pure' h₄) fun _ => ?_)
    exact ends_retyped (typeless_contracted P g) h₄ steps_deduceTypes

/-- The resolvers that insert casts, split constants and insert moves. -/
def copying : List Resolver := [.insertCasts, .splitConsts, .insertMoves]

theorem ends_copying {r : Resolver} (hr : r ∈ copying) (h : Contracted P g g₁) :
    Ends c g₁ (resolverStep r) (fun _ => Contracted P g) (Contracted P g) := by
  simp only [copying, List.mem_cons, List.not_mem_nil, or_false] at hr
  rcases hr with rfl | rfl | rfl
  · exact ends_insertCasts h
  · exact ends_splitConsts h
  · exact ends_insertMoves h

end

/-- Runs resolvers one after the other, each from where the one before it ended. -/
def runAll (c : Context) (rs : List Resolver) (start : Session) : Session :=
  rs.foldl (fun s r => ((resolverStep r).after c s).2) start

theorem contracted_runAll {rs : List Resolver} (hrs : ∀ r ∈ rs, r ∈ copying) {s : Session}
    (h : Contracted P g s.graph) : Contracted P g (runAll c rs s).graph := by
  unfold runAll
  induction rs generalizing s with
  | nil => exact h
  | cons r rs ih =>
    have hstep := Ends.iff_after.mp (ends_copying (c := c) (hrs r List.mem_cons_self) h) s rfl
    exact ih (fun r' hr' => hrs r' (List.mem_cons_of_mem r hr')) hstep

end
end TypeRecovery.Inference
