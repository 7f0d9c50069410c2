import TypeRecovery.Proofs.Inference.Routing

/- What one move does to the tables. The input is copied to a fresh variable and to an argument of the
   move, the move comes to stand at the end of a block, and the phi reads another copy. Nothing else is
   written but the owner of the old input, which is let go. The argument of the move is a use where the
   input was one, so the counts of uses stay the same, and with them the inputs that need no move. -/
namespace TypeRecovery.MethodGraph

/-! ## Sites after an edit -/

section
variable {g : MethodGraph} {i : InsnId} {s r a : SiteId} {x : Insn}

theorem site_addArg (hs : g.Holds s) (i : InsnId) (u : SiteId) :
    (g.addArg i s).site u = if u = s then { g.site u with owner := some i } else g.site u :=
  (site_congr (same_linkUse i s).2.1 u).trans (site_set hs _ u)

theorem sites_addArg (i : InsnId) (s : SiteId) : (g.addArg i s).sites.size = g.sites.size :=
  (congrArg Array.size (same_linkUse i s).2.1).trans (size_updateSite g s _)

theorem disown_of_none (hi : (g.insn i).result = none) : g.disown i = g := by
  unfold disown
  rw [hi]

/-- An instruction without a result gets one. -/
theorem site_setResult (hi : (g.insn i).result = none) (hr : g.Holds r) (u : SiteId) :
    (g.setResult i (some r)).site u =
      if u = r then { g.site u with owner := some i } else g.site u := by
  rw [setResult_some, disown_of_none hi, site_congr (same_define r).2.1]
  exact site_set (g := g.updateInsn i _) hr _ u

theorem sites_setResult (hi : (g.insn i).result = none) (r : SiteId) :
    (g.setResult i (some r)).sites.size = g.sites.size := by
  rw [setResult_some, disown_of_none hi, (same_define r).2.1]
  exact size_updateSite _ _ _

theorem buildInsn_one (x : Insn) (r a : SiteId) : (g.buildInsn x (some r) [a]).2 =
    ((g.newInsn x).2.setResult ⟨g.insns.size⟩ (some r)).addArg ⟨g.insns.size⟩ a := by
  unfold buildInsn
  simp only [Option.isSome_some, if_true, List.foldl_cons, List.foldl_nil]
  rfl

/-- The slots of a new instruction belong to it. -/
theorem site_buildInsn (hx : x.result = none) (hr : g.Holds r) (ha : g.Holds a) (u : SiteId) :
    (g.buildInsn x (some r) [a]).2.site u =
      if u = a ∨ u = r then { g.site u with owner := some ⟨g.insns.size⟩ } else g.site u := by
  have hnone : ((g.newInsn x).2.insn ⟨g.insns.size⟩).result = none :=
    (congrArg Insn.result ((insn_newInsn x _).trans (if_pos rfl))).trans hx
  have hsite : ((g.newInsn x).2.setResult ⟨g.insns.size⟩ (some r)).site u =
      if u = r then { g.site u with owner := some ⟨g.insns.size⟩ } else g.site u :=
    site_setResult hnone hr u
  have hsize := sites_setResult hnone r
  rw [buildInsn_one]
  generalize (g.newInsn x).2.setResult ⟨g.insns.size⟩ (some r) = g₁ at hsite hsize
  rw [site_addArg (by rw [Holds, hsize]; exact ha), hsite]
  by_cases hur : u = r
  · rw [if_pos hur, if_pos (Or.inr hur), ite_self]
  · by_cases hua : u = a
    · rw [if_pos hua, if_neg hur, if_pos (Or.inl hua)]
    · rw [if_neg hua, if_neg hur, if_neg (not_or.mpr ⟨hua, hur⟩)]

theorem sites_buildInsn (hx : x.result = none) (r a : SiteId) :
    (g.buildInsn x (some r) [a]).2.sites.size = g.sites.size := by
  have hnone : ((g.newInsn x).2.insn ⟨g.insns.size⟩).result = none :=
    (congrArg Insn.result ((insn_newInsn x _).trans (if_pos rfl))).trans hx
  rw [buildInsn_one, sites_addArg, sites_setResult hnone]
  rfl

section
variable {old new : SiteId}

theorem site_replaceArg (h : old ∈ (g.insn i).args) (hold : g.Holds old) (hnew : g.Holds new)
    (u : SiteId) : (g.replaceArg i old new).2.site u =
      if u = old then { g.site u with owner := none }
      else if u = new then { g.site u with owner := some i } else g.site u := by
  obtain ⟨n, hn, -⟩ := replaceArg_of_mem h new
  unfold replaceArg
  rw [hn]
  simp only
  rw [site_congr (same_linkUse i new).2.1, site_congr (same_unlinkUse i old).2.1,
    site_set (by rw [Holds, size_updateSite]; exact hold), site_set (g := g.updateInsn i _) hnew]
  by_cases hu : u = old
  · simp only [hu, if_true]
    split <;> rfl
  · simp only [hu, if_false]
    rfl

theorem sites_replaceArg (i : InsnId) (old new : SiteId) :
    (g.replaceArg i old new).2.sites.size = g.sites.size := by
  unfold replaceArg
  split
  · rfl
  · simp only
    rw [(same_linkUse i new).2.1, (same_unlinkUse i old).2.1, size_updateSite, size_updateSite]
    rfl

/-- Among arguments that stand there once each, the old one is written over in its place. -/
theorem insn_replaceArg_of_mem (h : old ∈ (g.insn i).args) (honce : (g.insn i).args.Nodup)
    (hi : i.index < g.insns.size) (new : SiteId) (j : InsnId) : (g.replaceArg i old new).2.insn j =
      if j = i then { g.insn j with args := (g.insn j).args.map fun u => if u = old then new else u }
      else g.insn j := by
  obtain ⟨n, hn, -⟩ := replaceArg_of_mem h new
  obtain ⟨hlt, hat, -⟩ := List.idxOf?_eq_some_iff.mp hn
  unfold replaceArg
  rw [hn]
  simp only
  rw [insn_congr (same_linkUse i new).1, insn_congr (same_unlinkUse i old).1]
  refine (insn_set hi (fun x => { x with args := x.args.set n new }) j).trans ?_
  split
  · next hj =>
    subst hj
    have hset : (g.insn j).args.set n new =
        (g.insn j).args.map fun u => if u = old then new else u := by
      refine List.ext_getElem (by simp) fun k hk _ => ?_
      rw [List.length_set] at hk
      have hiff : n = k ↔ (g.insn j).args[k] = old := by
        rw [← hat, honce.getElem_inj_iff, eq_comm]
      rw [List.getElem_set, List.getElem_map]
      simp only [hiff]
    rw [hset]
  · rfl

end

theorem ne_of_holds {n : Nat} (hs : g.Holds s) (hn : g.sites.size ≤ n) : s ≠ ⟨n⟩ := by
  rintro rfl
  exact Nat.not_lt_of_le hn hs

/-! ## Copies of a site -/

/-- The site `x` was added, under the number `r`. -/
structure SiteAdded (g : MethodGraph) (x : Site) (r : SiteId) (g' : MethodGraph) : Prop where
  number : r = ⟨g.sites.size⟩
  sites : g'.sites.size = g.sites.size + 1
  site : ∀ u, g'.site u = if u = ⟨g.sites.size⟩ then x else g.site u
  insns : g'.insns = g.insns
  blocks : g'.blocks = g.blocks

theorem siteAdded_duplicate (g : MethodGraph) (s : SiteId) :
    SiteAdded g { g.site s with owner := none } (g.duplicate s).1 (g.duplicate s).2 :=
  ⟨rfl, Array.size_push _, site_newSite _, rfl, rfl⟩

theorem siteAdded_duplicateFresh {v : VarId} (hv : g.varOf? s = some v) :
    SiteAdded g { g.site s with owner := none, operand := .reg ⟨g.vars.size⟩ }
      (g.duplicateFresh s).1 (g.duplicateFresh s).2 := by
  rw [duplicateFresh_of_varOf? hv]
  exact ⟨rfl, Array.size_push _, site_newSite (g := (g.newVar (g.var v).reg).2) _, rfl, rfl⟩

theorem vars_duplicateFresh {v : VarId} (hv : g.varOf? s = some v) :
    (g.duplicateFresh s).2.vars.size = g.vars.size + 1 := by
  rw [duplicateFresh_of_varOf? hv]
  exact Array.size_push _

end

end TypeRecovery.MethodGraph

namespace TypeRecovery.Inference

open MethodGraph

/-! ## One move -/

/-- A move with these slots. -/
def moveInsn (place : Option BlockId) (result source : SiteId) : Insn :=
  { opcode := .move, synthetic := true, result := some result, args := [source], block := place }

/-- A move of the site to a fresh variable was built, and has no place yet. -/
structure MoveDrafted (g : MethodGraph) (s : SiteId) (g' : MethodGraph) : Prop where
  vars : g'.vars.size = g.vars.size + 1
  sites : g'.sites.size = g.sites.size + 2
  insns : g'.insns.size = g.insns.size + 1
  blocks : g'.blocks = g.blocks
  insn : ∀ i, g'.insn i =
    if i = ⟨g.insns.size⟩ then moveInsn none ⟨g.sites.size⟩ ⟨g.sites.size + 1⟩ else g.insn i
  result : g'.site ⟨g.sites.size⟩ =
    { g.site s with operand := .reg ⟨g.vars.size⟩, owner := some ⟨g.insns.size⟩ }
  source : g'.site ⟨g.sites.size + 1⟩ = { g.site s with owner := some ⟨g.insns.size⟩ }
  site : ∀ u, g.Holds u → g'.site u = g.site u

/-- The input `s` of the phi was routed through a move at the end of the block. -/
structure MoveAdded (g : MethodGraph) (phi : InsnId) (s : SiteId) (place : BlockId) (g' : MethodGraph) :
    Prop where
  vars : g'.vars.size = g.vars.size + 1
  sites : g'.sites.size = g.sites.size + 3
  insns : g'.insns.size = g.insns.size + 1
  blocks : g'.blocks.size = g.blocks.size
  move : g'.insn ⟨g.insns.size⟩ = moveInsn (some place) ⟨g.sites.size⟩ ⟨g.sites.size + 1⟩
  args : g'.insn phi = { g.insn phi with args := (g.insn phi).args.map fun u =>
    if u = s then ⟨g.sites.size + 2⟩ else u }
  insn : ∀ i, i ≠ phi → i ≠ ⟨g.insns.size⟩ → g'.insn i = g.insn i
  block : ∀ b, g'.block b = if b = place then
    { g.block b with insns := (g.block b).insns ++ [⟨g.insns.size⟩] } else g.block b
  result : g'.site ⟨g.sites.size⟩ =
    { g.site s with operand := .reg ⟨g.vars.size⟩, owner := some ⟨g.insns.size⟩ }
  source : g'.site ⟨g.sites.size + 1⟩ = { g.site s with owner := some ⟨g.insns.size⟩ }
  input : g'.site ⟨g.sites.size + 2⟩ =
    { g.site s with operand := .reg ⟨g.vars.size⟩, owner := some phi }
  old : g'.site s = { g.site s with owner := none }
  site : ∀ u, g.Holds u → u ≠ s → g'.site u = g.site u

section
variable {g g' : MethodGraph} {phi : InsnId} {s : SiteId} {v : VarId} {place : BlockId}

theorem moveDrafted_feed (hv : g.varOf? s = some v) (hs : g.Holds s) :
    let (result, g₁) := g.duplicateFresh s
    let (source, g₁) := g₁.duplicate s
    MoveDrafted g s
      (g₁.buildInsn { opcode := .move, synthetic := true } (some result) [source]).2 := by
  have c₁ := siteAdded_duplicateFresh hv
  have hvars₁ := vars_duplicateFresh hv
  generalize g.duplicateFresh s = copy₁ at c₁ hvars₁ ⊢
  obtain ⟨result, g₁⟩ := copy₁
  obtain rfl := c₁.number
  have c₂ := siteAdded_duplicate g₁ s
  have hvars₂ : (g₁.duplicate s).2.vars.size = g.vars.size + 1 := hvars₁
  simp only
  generalize g₁.duplicate s = copy₂ at c₂ hvars₂ ⊢
  obtain ⟨source, g₂⟩ := copy₂
  obtain rfl : source = ⟨g.sites.size + 1⟩ := c₂.number.trans (congrArg SiteId.mk c₁.sites)
  simp only at c₁ c₂ hvars₂ ⊢
  have hsame : g₁.site s = g.site s := (c₁.site s).trans (if_neg (ne_of_holds hs (Nat.le_refl _)))
  have hsite₂ : ∀ u, g₂.site u =
      if u = ⟨g.sites.size + 1⟩ then { g.site s with owner := none } else g₁.site u := by
    intro u
    rw [c₂.site, c₁.sites, hsame]
  have hsites₂ : g₂.sites.size = g.sites.size + 2 := by rw [c₂.sites, c₁.sites]
  have hinsns₂ : g₂.insns = g.insns := c₂.insns.trans c₁.insns
  have hsize : g₂.insns.size = g.insns.size := congrArg Array.size hinsns₂
  have hr₂ : g₂.Holds ⟨g.sites.size⟩ := by
    show g.sites.size < g₂.sites.size
    omega
  have ha₂ : g₂.Holds ⟨g.sites.size + 1⟩ := by
    show g.sites.size + 1 < g₂.sites.size
    omega
  -- the slots of the instruction are the two copies
  obtain ⟨hinsns₃, hvars₃, hblocks₃⟩ := same_buildInsn (g := g₂) { opcode := .move, synthetic := true }
    ⟨g.sites.size⟩ [⟨g.sites.size + 1⟩]
  have hsite₃ := site_buildInsn (g := g₂) (x := { opcode := .move, synthetic := true }) rfl hr₂ ha₂
  have hinsn₃ := insn_buildInsn (g := g₂) { opcode := .move, synthetic := true } ⟨g.sites.size⟩
    [⟨g.sites.size + 1⟩]
  have hsites₃ := sites_buildInsn (g := g₂) (x := { opcode := .move, synthetic := true }) rfl
    ⟨g.sites.size⟩ ⟨g.sites.size + 1⟩
  generalize (g₂.buildInsn { opcode := .move, synthetic := true } (some ⟨g.sites.size⟩)
    [⟨g.sites.size + 1⟩]).2 = g₃ at hinsns₃ hvars₃ hblocks₃ hsite₃ hinsn₃ hsites₃ ⊢
  refine ⟨hvars₃.trans hvars₂, hsites₃.trans hsites₂, by rw [hinsns₃, hsize],
    hblocks₃.trans (c₂.blocks.trans c₁.blocks), fun i => ?_, ?_, ?_, fun u hu => ?_⟩
  · rw [hinsn₃, hsize, insn_congr hinsns₂]
    rfl
  · rw [hsite₃, if_pos (Or.inr rfl), hsite₂, if_neg (by simp), c₁.site, if_pos rfl, hsize]
  · rw [hsite₃, if_pos (Or.inl rfl), hsite₂, if_pos rfl, hsize]
  · have hur := ne_of_holds hu (Nat.le_refl _)
    have hua := ne_of_holds hu (Nat.le_succ _)
    rw [hsite₃, if_neg (not_or.mpr ⟨hua, hur⟩), hsite₂, if_neg hua, c₁.site, if_neg hur]

/-- The move gets its place, and the phi reads a copy of its result. -/
theorem MoveDrafted.moveAdded {g₁ : MethodGraph} (e : MoveDrafted g s g₁) (hs : g.Holds s)
    (hmem : s ∈ (g.insn phi).args) (honce : (g.insn phi).args.Nodup) (hphi : phi.index < g.insns.size)
    (hplace : place.index < g.blocks.size) :
    let (d, g₂) := (g₁.append place ⟨g.insns.size⟩).duplicate ⟨g.sites.size⟩
    MoveAdded g phi s place (g₂.replaceArg phi s d).2 := by
  have hne : phi ≠ ⟨g.insns.size⟩ := by
    rintro rfl
    exact Nat.lt_irrefl _ hphi
  have e' : InsnPlaced g₁ place (g₁.block place).insns.length ⟨g.insns.size⟩
      (g₁.append place ⟨g.insns.size⟩) :=
    insnPlaced_insertAt (by rw [e.blocks]; exact hplace) _ (by rw [e.insns]; exact Nat.lt_succ_self _)
  generalize g₁.append place ⟨g.insns.size⟩ = g₂ at e' ⊢
  have hsite₂ := site_congr e'.sites
  have hsize₂ : g₂.sites.size = g.sites.size + 2 := (congrArg Array.size e'.sites).trans e.sites
  have c := siteAdded_duplicate g₂ ⟨g.sites.size⟩
  have hvars₃ : (g₂.duplicate ⟨g.sites.size⟩).2.vars.size = g.vars.size + 1 :=
    (congrArg Array.size e'.vars).trans e.vars
  generalize g₂.duplicate ⟨g.sites.size⟩ = copy at c hvars₃ ⊢
  obtain ⟨d, g₃⟩ := copy
  obtain rfl : d = ⟨g.sites.size + 2⟩ := c.number.trans (congrArg SiteId.mk hsize₂)
  simp only at c hvars₃ ⊢
  have hsite₃ : ∀ u, g₃.site u = if u = ⟨g.sites.size + 2⟩ then
      { g.site s with operand := .reg ⟨g.vars.size⟩, owner := none } else g₁.site u := by
    intro u
    rw [c.site, hsize₂, hsite₂, hsite₂, e.result]
  have hsites₃ : g₃.sites.size = g.sites.size + 3 := by rw [c.sites, hsize₂]
  have hinsn₃ : ∀ i, i ≠ ⟨g.insns.size⟩ → g₃.insn i = g.insn i := by
    intro i hi
    rw [insn_congr c.insns, e'.insn, if_neg hi, e.insn, if_neg hi]
  have hmove₃ : g₃.insn ⟨g.insns.size⟩ =
      moveInsn (some place) ⟨g.sites.size⟩ ⟨g.sites.size + 1⟩ := by
    rw [insn_congr c.insns, e'.insn, if_pos rfl, e.insn, if_pos rfl]
    rfl
  have hsize₃ : g₃.insns.size = g.insns.size + 1 := by rw [c.insns, e'.insns, e.insns]
  have hmem₃ : s ∈ (g₃.insn phi).args := by
    rw [hinsn₃ phi hne]
    exact hmem
  have hs₃ : g₃.Holds s := by
    rw [Holds, hsites₃]
    exact Nat.lt_add_right 3 hs
  have hd₃ : g₃.Holds ⟨g.sites.size + 2⟩ := by
    rw [Holds, hsites₃]
    exact Nat.lt_succ_self _
  have hsite₄ := site_replaceArg hmem₃ hs₃ hd₃
  have hinsn₄ := insn_replaceArg_of_mem hmem₃ (by rw [hinsn₃ phi hne]; exact honce)
    (by rw [hsize₃]; exact Nat.lt_succ_of_lt hphi) ⟨g.sites.size + 2⟩
  obtain ⟨hinsns₄, hvars₄, hblocks₄⟩ := same_replaceArg (g := g₃) phi s ⟨g.sites.size + 2⟩
  have hsites₄ := sites_replaceArg (g := g₃) phi s ⟨g.sites.size + 2⟩
  generalize (g₃.replaceArg phi s ⟨g.sites.size + 2⟩).2 = g₄
    at hsite₄ hinsn₄ hinsns₄ hvars₄ hblocks₄ hsites₄ ⊢
  -- a site besides the copy and the old input is as the draft has it
  have hdraft : ∀ u, u ≠ s → u ≠ ⟨g.sites.size + 2⟩ → g₄.site u = g₁.site u := by
    intro u hus hud
    rw [hsite₄, if_neg hus, if_neg hud, hsite₃, if_neg hud]
  have hnew : ∀ n, g.sites.size ≤ n → (⟨n⟩ : SiteId) ≠ s := fun n hn => (ne_of_holds hs hn).symm
  refine ⟨hvars₄.trans hvars₃, hsites₄.trans hsites₃, hinsns₄.trans hsize₃, ?_, ?_, ?_,
    fun i hi hi' => ?_, fun b => ?_, ?_, ?_, ?_, ?_, fun u hu hus => ?_⟩
  · rw [hblocks₄, c.blocks, e'.size, e.blocks]
  · rw [hinsn₄, if_neg (Ne.symm hne), hmove₃]
  · rw [hinsn₄, if_pos rfl, hinsn₃ phi hne]
  · rw [hinsn₄, if_neg hi, hinsn₃ i hi']
  · have hblock : g₁.block b = g.block b := by rw [MethodGraph.block, MethodGraph.block, e.blocks]
    rw [MethodGraph.block, hblocks₄, c.blocks]
    refine (e'.block b).trans ?_
    split
    · next hb =>
      subst hb
      rw [List.insertIdx_length_self, hblock]
    · exact hblock
  · exact (hdraft _ (hnew _ (Nat.le_refl _)) (by simp)).trans e.result
  · exact (hdraft _ (hnew _ (Nat.le_succ _)) (by simp)).trans e.source
  · rw [hsite₄, if_neg (hnew _ (Nat.le_add_right _ 2)), if_pos rfl, hsite₃, if_pos rfl]
  · rw [hsite₄, if_pos rfl, hsite₃, if_neg (ne_of_holds hs (Nat.le_add_right _ 2)), e.site s hs]
  · exact (hdraft u hus (ne_of_holds hu (Nat.le_add_right _ 2))).trans (e.site u hu)

theorem moveAdded_move (hv : g.varOf? s = some v) (hs : g.Holds s) (hmem : s ∈ (g.insn phi).args)
    (honce : (g.insn phi).args.Nodup) (hphi : phi.index < g.insns.size)
    (hplace : place.index < g.blocks.size) :
    let (result, g₁) := g.duplicateFresh s
    let (source, g₁) := g₁.duplicate s
    let (move, g₁) := g₁.buildInsn { opcode := .move, synthetic := true } (some result) [source]
    let g₁ := g₁.append place move
    let (d, g₁) := g₁.duplicate result
    MoveAdded g phi s place (g₁.replaceArg phi s d).2 := by
  have e := moveDrafted_feed hv hs
  have hinsns : ((g.duplicateFresh s).2.duplicate s).2.insns.size = g.insns.size :=
    congrArg Array.size (insns_duplicateFresh s)
  simp only at e ⊢
  rw [buildInsn_eq]
  simp only
  rw [hinsns]
  generalize (((g.duplicateFresh s).2.duplicate s).2.buildInsn { opcode := .move, synthetic := true }
    (some (g.duplicateFresh s).1) [((g.duplicateFresh s).2.duplicate s).1]).2 = g₁ at e ⊢
  rw [(siteAdded_duplicateFresh hv).number]
  exact e.moveAdded hs hmem honce hphi hplace

/-! ## Inputs that need no move -/

/-- The variable is defined by a constant, or by a move and used once. -/
def Apart (g : MethodGraph) (v : VarId) : Prop :=
  ∃ i, g.assignInsn? v = some i ∧
    ((g.insn i).opcode = .const ∨ (g.insn i).opcode = .move ∧ (g.var v).uses.length = 1)

theorem isApart_iff : isApart g v = true ↔ Apart g v := by
  unfold isApart Apart
  cases h : g.assignInsn? v with
  | none => simp
  | some i =>
    simp only [Option.map_some, Option.some.injEq, exists_eq_left']
    cases hop : (g.insn i).opcode <;> simp

/-- The input is a register that needs a move. -/
def Routes (g : MethodGraph) (s : SiteId) : Prop := ∃ v, g.varOf? s = some v ∧ ¬Apart g v

namespace MoveAdded
variable {P U : Set VarId} (e : MoveAdded g phi s place g')
include e

theorem opcode {i : InsnId} (hi : i.index < g.insns.size) : (g'.insn i).opcode = (g.insn i).opcode := by
  by_cases hp : i = phi
  · rw [hp, e.args]
  · rw [e.insn i hp]
    rintro rfl
    exact Nat.lt_irrefl _ hi

theorem varOf {u : SiteId} (hu : g.Holds u) : g'.varOf? u = g.varOf? u := by
  apply varOf?_congr
  by_cases hs : u = s
  · rw [hs, e.old]
  · rw [e.site u hu hs]

/-- The uses of an older variable, with the argument of the move for the input. -/
theorem uses_perm (hg : g.Wired P ∅ U) (hg' : g'.Wired P ∅ U) (hmem : s ∈ (g.insn phi).args)
    (hv : v.index < g.vars.size) :
    (g'.var v).uses.Perm ((g.var v).uses.map fun u => if u = s then ⟨g.sites.size + 1⟩ else u) := by
  have hheld : ∀ {i u}, u ∈ (g.insn i).args → g.Holds u := fun h => hg.slots.holds_arg h
  have huse : ∀ u ∈ (g.var v).uses, u ≠ ⟨g.sites.size + 1⟩ := by
    intro u hu
    obtain ⟨-, i, hi⟩ := (hg.lists.uses v u).mp hu
    exact ne_of_holds (hheld hi) (Nat.le_succ _)
  have honce : ((g.var v).uses.map fun u => if u = s then ⟨g.sites.size + 1⟩ else u).Nodup := by
    refine (hg.lists.usesOnce v).map_on fun x hx y hy hxy => ?_
    have hx' := huse x hx
    have hy' := huse y hy
    grind
  refine (List.perm_ext_iff_of_nodup (hg'.lists.usesOnce v) honce).mpr fun u => ?_
  rw [hg'.lists.uses, List.mem_map]
  constructor
  · rintro ⟨hu, i, hi⟩
    by_cases hmove : i = ⟨g.insns.size⟩
    · rw [hmove, e.move] at hi
      obtain rfl : u = ⟨g.sites.size + 1⟩ := List.mem_singleton.mp hi
      have hsv : g.varOf? s = some v := by
        rw [← hu]
        exact (varOf?_congr (by rw [e.source])).symm
      exact ⟨s, (hg.lists.uses v s).mpr ⟨hsv, phi, hmem⟩, if_pos rfl⟩
    by_cases hphi : i = phi
    · rw [hphi, e.args] at hi
      obtain ⟨x, hx, rfl⟩ := List.mem_map.mp hi
      by_cases hxs : x = s
      · -- the phi reads the fresh variable there, which is none of the older ones
        rw [if_pos hxs, varOf?_eq_some, e.input] at hu
        cases hu
        exact absurd hv (Nat.lt_irrefl _)
      · rw [if_neg hxs] at hu ⊢
        exact ⟨x, (hg.lists.uses v x).mpr ⟨(e.varOf (hheld hx)).symm.trans hu, phi, hx⟩, if_neg hxs⟩
    · rw [e.insn i hphi hmove] at hi
      have hus : u ≠ s := by
        rintro rfl
        have howner := (hg.slots.arg i u hi).symm.trans (hg.slots.arg phi u hmem)
        exact hphi (Option.some.inj howner)
      exact ⟨u, (hg.lists.uses v u).mpr ⟨(e.varOf (hheld hi)).symm.trans hu, i, hi⟩, if_neg hus⟩
  · rintro ⟨x, hx, rfl⟩
    obtain ⟨hxv, i, hi⟩ := (hg.lists.uses v x).mp hx
    by_cases hxs : x = s
    · rw [if_pos hxs]
      refine ⟨(varOf?_congr (by rw [e.source, hxs])).trans hxv, ⟨g.insns.size⟩, ?_⟩
      rw [e.move]
      exact List.mem_singleton_self _
    · rw [if_neg hxs]
      refine ⟨(e.varOf (hheld hi)).trans hxv, i, ?_⟩
      by_cases hphi : i = phi
      · rw [hphi, e.args]
        rw [hphi] at hi
        exact List.mem_map.mpr ⟨x, hi, if_neg hxs⟩
      · rw [e.insn i hphi]
        · exact hi
        · rintro rfl
          exact Nat.lt_irrefl _ (hg.slots.owner_lt (hg.slots.arg _ x hi))

/-- The same inputs need a move afterwards. -/
theorem routes_iff (hg : g.Wired P ∅ U) (hg' : g'.Wired P ∅ U) (hmem : s ∈ (g.insn phi).args)
    (hp : Paved (· ≠ phi) g g') {u : SiteId} (hu : g.Holds u) : Routes g' u ↔ Routes g u := by
  unfold Routes
  rw [e.varOf hu]
  refine exists_congr fun v => and_congr_right fun huv => not_congr ?_
  have hv := hg.names.var u v hu huv
  have huses : (g'.var v).uses.length = (g.var v).uses.length := by
    rw [(e.uses_perm hg hg' hmem hv).length_eq, List.length_map]
  have hassign : g'.assignInsn? v = g.assignInsn? v := by
    rw [assignInsn?, assignInsn?, hp.assign v hv]
    cases hs : (g.var v).assign with
    | none => rfl
    | some r => exact hp.owner v r hv hs
  unfold Apart
  rw [hassign, huses]
  refine exists_congr fun i => and_congr_right fun hi => ?_
  obtain ⟨r, -, hr⟩ := Option.bind_eq_some_iff.mp hi
  rw [e.opcode (hg.slots.owner_lt hr)]

end MoveAdded

end

end TypeRecovery.Inference
