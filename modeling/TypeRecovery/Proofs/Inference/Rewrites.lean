import TypeRecovery.Inference.Engine
import TypeRecovery.Proofs.Graph.Construction

/- What the resolvers write. Each rewrite opens instructions and variables and closes them again, so
   that a graph in which nothing is open is left as one. `Later` is what a walk over a list relies on
   that was read before: sites and blocks stay, a site keeps its variable, and one that defined nothing
   still defines nothing. -/
namespace TypeRecovery.Inference

open MethodGraph

structure Later (g g' : MethodGraph) : Prop where
  sites : g.sites.size ≤ g'.sites.size
  blocks : g.blocks.size ≤ g'.blocks.size
  varOf : ∀ s, g.Holds s → g'.varOf? s = g.varOf? s
  assign : ∀ v s, g.Holds s → (g'.var v).assign = some s → (g.var v).assign = some s

instance : IsPreorder MethodGraph Later where
  refl _ := ⟨Nat.le_refl _, Nat.le_refl _, fun _ _ => rfl, fun _ _ _ => id⟩
  trans g₁ g₂ g₃ h h' := by
    have hholds : ∀ {s}, g₁.Holds s → g₂.Holds s := fun hs => Nat.lt_of_lt_of_le hs h.sites
    exact ⟨Nat.le_trans h.sites h'.sites, Nat.le_trans h.blocks h'.blocks,
      fun s hs => (h'.varOf s (hholds hs)).trans (h.varOf s hs),
      fun v s hs ha => h.assign v s hs (h'.assign v s (hholds hs) ha)⟩

section
variable {c : Context} {g g₀ g' : MethodGraph} {P U : Set VarId} {F : Set InsnId}

theorem Later.holds (h : Later g g') {s : SiteId} (hs : g.Holds s) : g'.Holds s :=
  Nat.lt_of_lt_of_le hs h.sites

theorem later_extended (h : Extended g g') : Later g g' :=
  ⟨h.sites, Nat.le_of_eq (congrArg Array.size h.blocks).symm, fun _ => h.varOf, fun _ _ _ => h.assign⟩

theorem later_argReplaced {i : InsnId} {old new : SiteId} {n : Nat} (e : ArgReplaced g i old new n g') :
    Later g g' :=
  ⟨Nat.le_of_eq e.sites.symm, Nat.le_of_eq (congrArg Array.size e.blocks).symm, fun s _ => e.varOf s,
    fun v _ _ hs => (e.assign v).symm.trans hs⟩

theorem later_insnPlaced {b : BlockId} {n : Nat} {i : InsnId} (e : InsnPlaced g b n i g') :
    Later g g' := by
  refine ⟨Nat.le_of_eq (congrArg Array.size e.sites).symm, Nat.le_of_eq e.size.symm, fun s _ => ?_,
    fun v s _ hs => ?_⟩
  · exact varOf?_congr (congrArg Site.operand (site_congr e.sites s))
  · rwa [var, e.vars] at hs

theorem later_insnReplaced {old new : InsnId} {b : BlockId} {n : Nat}
    (e : InsnReplaced g old new b n g') : Later g g' :=
  ⟨Nat.le_of_eq e.sites.symm, Nat.le_of_eq e.blocks.symm, fun s _ => e.varOf s,
    fun v _ _ hs => (e.rest v).1.symm.trans hs⟩

theorem later_sameLinks (e : SameLinks g g') : Later g g' :=
  ⟨Nat.le_of_eq e.size.symm, Nat.le_of_eq (congrArg Array.size e.blocks).symm, fun s _ => e.varOf s,
    fun v _ _ hs => (e.assign v).symm.trans hs⟩

/-- A result that is set is new, or defines its variable already. -/
theorem later_resultSet {i : InsnId} {s : SiteId} (h : Later g₀ g) (e : ResultSet g i s g')
    (hs : ∀ v, g.varOf? s = some v → g₀.Holds s → (g₀.var v).assign = some s) : Later g₀ g' := by
  refine ⟨Nat.le_trans h.sites (Nat.le_of_eq e.sites.symm),
    Nat.le_trans h.blocks (Nat.le_of_eq (congrArg Array.size e.blocks).symm),
    fun u hu => (e.varOf u).trans (h.varOf u hu), fun v u hu ha => ?_⟩
  rw [e.var] at ha
  split at ha
  · next hv =>
    cases ha
    exact hs v hv hu
  · exact h.assign v u hu ha

theorem later_insnBuilt {x : Insn} {r : Option SiteId} {args : List SiteId} (h : Later g₀ g)
    (e : InsnBuilt g x r args g')
    (hr : ∀ s v, r = some s → g.varOf? s = some v → g₀.Holds s → (g₀.var v).assign = some s) :
    Later g₀ g' := by
  refine ⟨Nat.le_trans h.sites (Nat.le_of_eq e.sites.symm),
    Nat.le_trans h.blocks (Nat.le_of_eq (congrArg Array.size e.blocks).symm),
    fun u hu => (e.varOf u).trans (h.varOf u hu), fun v u hu ha => ?_⟩
  rw [e.assign] at ha
  split at ha
  · next hv =>
    subst ha
    exact hr u v rfl hv hu
  · exact h.assign v u hu ha

/-! ## Reading sites -/

/-- The site reads the variable: it is in the table and defines nothing. -/
structure Reads (g : MethodGraph) (v : VarId) (s : SiteId) : Prop where
  held : g.Holds s
  varOf : g.varOf? s = some v
  assign : ∀ w, (g.var w).assign ≠ some s

theorem Later.reads (h : Later g g') {v : VarId} {s : SiteId} (hs : Reads g v s) : Reads g' v s :=
  ⟨h.holds hs.held, (h.varOf s hs.held).trans hs.varOf,
    fun w hw => hs.assign w (h.assign w s hs.held hw)⟩

/-- A use of a variable is an argument, and an argument defines nothing. -/
theorem reads_of_use (h : g.Wired P F U) {v : VarId} {s : SiteId} (hs : s ∈ (g.var v).uses) :
    Reads g v s := by
  obtain ⟨hv, i, hi⟩ := (h.lists.uses v s).mp hs
  exact ⟨h.slots.holds_arg hi, hv, fun w hw => (h.slots.assign w s hw).2.2 i hi⟩

theorem Reads.isRegister {v : VarId} {s : SiteId} (h : Reads g v s) : g.isRegister s = true := by
  rw [MethodGraph.isRegister, h.varOf]
  rfl

/-- The owner of such a site has it as an argument. -/
theorem Reads.arg {v : VarId} {s : SiteId} (hs : Reads g v s) (h : g.Wired P F U) {i : InsnId}
    (hi : (g.site s).owner = some i) : s ∈ (g.insn i).args := by
  rcases h.slots.owned s i hi with harg | hres
  · exact harg
  · obtain ⟨w, -, hw⟩ := h.slots.result i s hres
    exact absurd hw (hs.assign w)

/-! ## New instructions -/

/-- An instruction was built and has no place yet; the others are as they were. -/
structure Assembled (g : MethodGraph) (r : Option SiteId) (g' : MethodGraph) : Prop where
  loose : g'.Loose ⟨g.insns.size⟩
  insn : ∀ j, j.index < g.insns.size → g'.insn j = g.insn j
  blocks : g'.blocks = g.blocks
  result : ∀ s, r = some s → (g'.site s).owner = some ⟨g.insns.size⟩
  later : ∀ g₀, Later g₀ g →
    (∀ s v, r = some s → g.varOf? s = some v → g₀.Holds s → (g₀.var v).assign = some s) → Later g₀ g'

/-- The result that an instruction is to have: it can be made a definition, and what has it is open. -/
def Offered (F : Set InsnId) (g : MethodGraph) (r : Option SiteId) : Prop :=
  ∀ s, r = some s → (∃ v, g.Defines s v) ∧ ∀ j, (g.site s).owner = some j → j ∈ F

/-- Builds an instruction after sites for its arguments were added. -/
theorem wired_buildOn {g₁ : MethodGraph} (h : g₁.Wired P F U) (hext : Extended g g₁) {x : Insn}
    (hx : Insn.Bare x) (hop : x.opcode ≠ .phi) {r : Option SiteId} (hr : Offered F g r)
    {args : List SiteId} (hfree : ∀ a ∈ args, g₁.Free a) (honce : args.Nodup)
    (hapart : ∀ s, r = some s → s ∉ args) {V : Set VarId}
    (hU : ∀ v ∈ U, v ∈ V ∨ r.bind g.varOf? = some v) :
    ∃ g', g₁.buildInsn x r args = (⟨g.insns.size⟩, g') ∧
      g'.Wired P (insert ⟨g.insns.size⟩ F) V ∧ Assembled g r g' := by
  have hsize : g₁.insns.size = g.insns.size := congrArg Array.size hext.insns
  have hbuild := buildInsn_eq (g := g₁) x r args
  have hvarOf : r.bind g₁.varOf? = r.bind g.varOf? := by
    cases r with
    | none => rfl
    | some s =>
      obtain ⟨⟨v, hv⟩, -⟩ := hr s rfl
      exact hext.varOf hv.held
  obtain ⟨h', e⟩ := wired_buildInsn h hx hop (V := V) (r := r)
    (fun s hs => by
      obtain ⟨⟨v, hv⟩, howner⟩ := hr s hs
      refine ⟨hapart s hs, ⟨v, hext.defines hv⟩, fun j hj => howner j ?_⟩
      rwa [hext.site s hv.held] at hj)
    hfree honce (by rw [hvarOf]; exact hU)
  have hloose := e.loose hx
  rw [hsize] at hbuild h' hloose
  refine ⟨_, hbuild, h', hloose, fun j hj => ?_, e.blocks.trans hext.blocks, fun s hs => ?_,
    fun g₀ h₀ hr₀ => ?_⟩
  · rw [e.insn, if_neg, hext.insn]
    rintro rfl
    rw [hsize] at hj
    exact Nat.lt_irrefl _ hj
  · rw [e.owner, if_pos (.inr hs), hsize]
  · refine later_insnBuilt (trans_of Later h₀ (later_extended hext)) e fun s v hs hv hold => ?_
    obtain ⟨⟨w, hw⟩, -⟩ := hr s hs
    rw [hext.varOf hw.held] at hv
    exact hr₀ s v hs hv hold

/-- Builds an instruction that reads a copy of a site. -/
theorem wired_buildFrom (h : g.Wired P F U) {x : Insn} (hx : Insn.Bare x) (hop : x.opcode ≠ .phi)
    {s r : SiteId} (hs : g.Holds s) (hr : Offered F g (some r)) {V : Set VarId}
    (hU : ∀ v ∈ U, v ∈ V ∨ g.varOf? r = some v) :
    ∃ g', (g.duplicate s).2.buildInsn x (some r) [(g.duplicate s).1] = (⟨g.insns.size⟩, g') ∧
      g'.Wired P (insert ⟨g.insns.size⟩ F) V ∧ Assembled g (some r) g' := by
  obtain ⟨h₁, hfree⟩ := wired_duplicate h hs
  obtain ⟨⟨v, hv⟩, -⟩ := hr r rfl
  have hne : r ≠ (g.duplicate s).1 := by
    rintro rfl
    exact not_holds_newSite _ hv.held
  refine wired_buildOn h₁ (extended_duplicate s) hx hop hr (fun a ha => ?_) (List.nodup_singleton _)
    (fun u hu => ?_) hU
  · rw [List.mem_singleton.mp ha]
    exact hfree
  · cases hu
    simpa using hne

theorem offered_free {r : SiteId} {w : VarId} (hfree : g.Free r) (hdef : g.Defines r w) :
    Offered F g (some r) := by
  intro s hs
  cases hs
  refine ⟨⟨w, hdef⟩, fun j hj => ?_⟩
  rw [hfree.owner] at hj
  cases hj

/-- Builds an instruction that reads a copy of a register site and defines a fresh variable. -/
theorem wired_feed (h : g.Wired P F U) {x : Insn} (hx : Insn.Bare x) (hop : x.opcode ≠ .phi)
    {s : SiteId} (hs : g.Holds s) (hreg : g.isRegister s = true) :
    ∃ g', ((g.duplicateFresh s).2.duplicate s).2.buildInsn x (some (g.duplicateFresh s).1)
        [((g.duplicateFresh s).2.duplicate s).1] = (⟨g.insns.size⟩, g') ∧
      g'.Wired P (insert ⟨g.insns.size⟩ F) U ∧ g'.Loose ⟨g.insns.size⟩ ∧
      (∀ j, j.index < g.insns.size → g'.insn j = g.insn j) ∧ g'.blocks = g.blocks ∧
      g'.Holds (g.duplicateFresh s).1 ∧ Later g g' := by
  obtain ⟨w, h₁, hfree, hdef, hext⟩ := wired_duplicateFresh h hreg
  have hnew := not_holds_duplicateFresh (g := g) s
  generalize (g.duplicateFresh s).1 = r at h₁ hfree hdef hnew ⊢
  generalize (g.duplicateFresh s).2 = g₁ at h₁ hfree hdef hext ⊢
  have hsize : g₁.insns.size = g.insns.size := congrArg Array.size hext.insns
  obtain ⟨g₂, hbuild, h₂, e⟩ := wired_buildFrom (V := U) h₁ hx hop (hext.holds hs)
    (offered_free hfree hdef) fun v hv => by
      rw [hdef.varOf, Option.some_inj, eq_comm]
      exact hv.symm
  have hloose := e.loose
  rw [hsize] at hbuild h₂ hloose
  refine ⟨g₂, hbuild, h₂, hloose, fun j hj => ?_, e.blocks.trans hext.blocks,
    holds_of_owner (e.result r rfl), e.later g (later_extended hext) fun u v hu _ hold => ?_⟩
  · rw [e.insn j (hsize ▸ hj), hext.insn]
  · cases hu
    exact absurd hold hnew

/-! ## New arguments -/

/-- An argument was replaced, or nothing was done. -/
structure Swapped (i : InsnId) (g g' : MethodGraph) : Prop where
  insn : ∀ j, (g'.insn j).block = (g.insn j).block ∧ (g'.insn j).opcode = (g.insn j).opcode
  loose : ∀ j, j ≠ i → g.Loose j → g'.Loose j
  later : Later g g'

theorem wired_swapArg (h : g.Wired P F U) (i : InsnId) (old : SiteId) {new : SiteId} (hs : g.Free new) :
    (g.replaceArg i old new).2.Wired P F U ∧ Swapped i g (g.replaceArg i old new).2 := by
  refine ⟨wired_replaceArg h i old hs, ?_⟩
  by_cases hmem : old ∈ (g.insn i).args
  · obtain ⟨n, hn, -⟩ := replaceArg_of_mem hmem new
    have e := argReplaced_replaceArg h hn hs
    refine ⟨fun j => ⟨(e.rest j).2.1, (e.rest j).2.2.1⟩, fun j hj hl => ?_, later_argReplaced e⟩
    exact e.loose h.slots hn hs hl hj
  · rw [replaceArg_of_not_mem hmem]
    exact ⟨fun _ => ⟨rfl, rfl⟩, fun _ _ => id, refl_of Later g⟩

/-- An instruction gets a copy of a site in the place of an argument. -/
theorem wired_swapCopy (h : g.Wired P F U) (i : InsnId) (old : SiteId) {r : SiteId} (hr : g.Holds r) :
    ((g.duplicate r).2.replaceArg i old (g.duplicate r).1).2.Wired P F U ∧
      Swapped i g ((g.duplicate r).2.replaceArg i old (g.duplicate r).1).2 := by
  obtain ⟨h₁, hfree⟩ := wired_duplicate h hr
  have hext := extended_duplicate (g := g) r
  generalize (g.duplicate r).1 = d at hfree ⊢
  generalize (g.duplicate r).2 = g₁ at h₁ hfree hext ⊢
  obtain ⟨h₂, e⟩ := wired_swapArg h₁ i old hfree
  refine ⟨h₂, fun j => ?_, fun j hj hl => ?_, trans_of Later (later_extended hext) e.later⟩
  · rw [← hext.insn]
    exact e.insn j
  · exact e.loose j hj (hext.loose h.slots hl)

/-! ## Casts -/

/-- A placed instruction hands its definition of a variable over: it defines a fresh variable from then
    on, and the site it had can be made the result of another. -/
theorem wired_handOver (h : g.Wired P ∅ ∅) {v : VarId} {s : SiteId} (hs : (g.var v).assign = some s)
    {i : InsnId} (hi : (g.site s).owner = some i) (hplaced : (g.insn i).block.isSome = true) :
    ∃ g₁ g₂, (g.duplicateFresh s).2 = g₁ ∧ g₁.setResult i (some (g.duplicateFresh s).1) = g₂ ∧
      g₂.Wired P ∅ {v} ∧ g₂.Holds (g.duplicateFresh s).1 ∧ g₂.Defines s v ∧
      (g₂.site s).owner = none ∧ (g₂.insn i).block = (g.insn i).block ∧
      g₂.insns.size = g.insns.size ∧ Later g g₂ := by
  obtain ⟨hvs, hheld, hno⟩ := h.slots.assign v s hs
  have hlt := h.names.var s v hheld hvs
  have hres : (g.insn i).result = some s := (h.slots.owned s i hi).resolve_left (hno i)
  obtain ⟨w, h₁, hfree, hdef, hext⟩ := wired_duplicateFresh h
    (show g.isRegister s = true by rw [isRegister, hvs]; rfl)
  have hnew := not_holds_duplicateFresh (g := g) s
  refine ⟨_, _, rfl, rfl, ?_⟩
  generalize (g.duplicateFresh s).1 = fresh at h₁ hfree hdef hnew ⊢
  generalize (g.duplicateFresh s).2 = g₁ at h₁ hfree hdef hext ⊢
  have hsite := hext.site s hheld
  have hres₁ : (g₁.insn i).result = some s := by rw [hext.insn, hres]
  have hi₁ : i.index < g₁.insns.size := by
    rw [hext.insns]
    exact placed_lt hplaced
  have hne : s ≠ fresh := by
    rintro rfl
    exact hnew hheld
  have hassign : (g₁.var v).assign = some s := by
    rcases hext.var v with hv | ⟨hle, -⟩
    · rw [hv, hs]
    · exact absurd hlt (Nat.not_lt.mpr hle)
  have hwv : w ≠ v := by
    rintro rfl
    rcases hdef.assign with ha | ha
    · rw [hassign] at ha
      cases ha
    · rw [hassign] at ha
      exact hne (Option.some_inj.mp ha)
  -- the variable is open until another instruction takes its definition
  have h₁' : g₁.Wired P ∅ (insert w {v}) :=
    h₁.weaken (Set.Subset.refl _) (Set.insert_subset_insert (Set.empty_subset _))
  have e := resultSet_setResult h₁ hi₁ hfree.held
  have h₂ := wired_setResult h₁' hi₁ hdef
    (fun u hu => by
      rw [hres₁] at hu
      cases hu
      rw [hsite, hi])
    (fun u x hu hx => by
      rw [hres₁] at hu
      cases hu
      rw [hext.varOf hheld, hvs] at hx
      exact (Option.some_inj.mp hx).symm)
    (fun j hj => by
      rw [hfree.owner] at hj
      cases hj)
    (.inr (by rw [hext.insn]; exact hplaced))
  generalize g₁.setResult i (some fresh) = g₂ at e h₂ ⊢
  have hargs : ∀ j, (g₂.insn j).args = (g₁.insn j).args := fun j => by
    rw [e.insn]
    split <;> rfl
  refine ⟨h₂, ?_, ⟨?_, ?_, fun j => ?_, .inr ?_⟩, ?_, ?_, ?_, ?_⟩
  · rw [Holds, e.sites]
    exact hfree.held
  · rw [Holds, e.sites]
    exact hext.holds hheld
  · rw [e.varOf, hext.varOf hheld, hvs]
  · rw [hargs, hext.insn]
    exact hno j
  · rw [e.var, hdef.varOf, if_neg (by simpa using hwv)]
    exact hassign
  · rw [e.owner, if_neg hne, if_pos hres₁]
  · rw [e.insn, hext.insn]
    split <;> rfl
  · rw [e.insns, hext.insns]
  · exact later_resultSet (later_extended hext) e fun _ _ hold => absurd hold hnew

/-- A definition is left alone, or its instruction hands it over to a soft cast right after it. -/
theorem castDefinition_cases (g : MethodGraph) (v : VarId) (t : Ty) :
    (castDefinition g v t).2 = g ∨ ∃ s i, (g.var v).assign = some s ∧ (g.site s).owner = some i ∧
      (g.insn i).block.isSome = true ∧
      castDefinition g v t =
        let (fresh, g₁) := g.duplicateFresh s
        let g₁ := g₁.setResult i (some fresh)
        let (source, g₁) := g₁.duplicate fresh
        let (cast, g₁) := g₁.buildInsn
          { opcode := .checkCast, type := some t, soft := true, synthetic := true } (some s) [source]
        g₁.insertAfter i cast := by
  unfold castDefinition
  split
  · next s i hs hi =>
    rw [assignInsn?, hs, Option.bind_some] at hi
    split
    · exact .inl rfl
    · next hcond =>
      refine .inr ⟨s, i, hs, hi, ?_, rfl⟩
      rw [Option.isSome_iff_ne_none]
      intro hb
      simp [hb] at hcond
  · exact .inl rfl

/-- The cast takes the definition over. -/
theorem wired_castDefinition (h : g.Wired P ∅ ∅) (v : VarId) (t : Ty) :
    (castDefinition g v t).2.Wired P ∅ ∅ ∧ Later g (castDefinition g v t).2 := by
  rcases castDefinition_cases g v t with heq | ⟨s, i, hs, hi, hplaced, heq⟩
  · rw [heq]
    exact ⟨h, refl_of Later g⟩
  obtain ⟨g₁, g₂, hg₁, hg₂, h₂, hfresh, hdef, howner, hblock, hsize, hlater⟩ :=
    wired_handOver h hs hi hplaced
  simp only [heq, hg₁, hg₂]
  generalize (g.duplicateFresh s).1 = fresh at hg₂ hfresh ⊢
  obtain ⟨g₃, hbuild, h₃, e₃⟩ := wired_buildFrom (V := ∅) h₂
    (x := { opcode := .checkCast, type := some t, soft := true, synthetic := true })
    ⟨rfl, rfl, rfl, rfl⟩ nofun hfresh
    (fun u hu => by
      cases hu
      exact ⟨⟨v, hdef⟩, fun j hj => by rw [howner] at hj; cases hj⟩)
    fun w hw => .inr (by rw [hdef.varOf, hw])
  simp only [hbuild]
  have hlater₃ := e₃.later g hlater fun u w hu hw _ => by
    cases hu
    rw [hdef.varOf] at hw
    cases hw
    exact hs
  obtain ⟨b, n, -, h₄, e₄⟩ := wired_insertAfter i h₃ e₃.loose (by
    rw [e₃.insn i (by rw [hsize]; exact placed_lt hplaced), hblock]
    exact hplaced)
  exact ⟨h₄, trans_of Later hlater₃ (later_insnPlaced e₄)⟩

/-- A use is left alone, or its owner comes to read a soft cast of it, which is put right before. -/
theorem castUse_cases (h : g.Wired P F U) {v : VarId} {s : SiteId} (hs : Reads g v s) :
    (castUse g s).2 = g ∨ ∃ i, (g.insn i).block.isSome = true ∧
      castUse g s =
        let (result, g₁) := g.duplicateFresh s
        let (source, g₁) := g₁.duplicate s
        let (cast, g₁) := g₁.buildInsn
          { opcode := .checkCast, type := some (g.site s).declared, soft := true, synthetic := true }
          (some result) [source]
        let (replacement, g₁) := g₁.duplicate result
        (g₁.replaceArg i s replacement).2.insertBefore i cast := by
  unfold castUse
  split
  · exact .inl rfl
  · next i hi =>
    split
    · exact .inl rfl
    · next hcond =>
      have hplaced : (g.insn i).block.isSome = true := by
        rw [Option.isSome_iff_ne_none]
        intro hb
        simp [hb] at hcond
      refine .inr ⟨i, hplaced, ?_⟩
      obtain ⟨g₁, hbuild, -, -, hinsn, -⟩ := wired_feed h
        (x := { opcode := .checkCast, type := some (g.site s).declared, soft := true,
                synthetic := true })
        ⟨rfl, rfl, rfl, rfl⟩ nofun hs.held hs.isRegister
      simp only [hbuild]
      -- the use is an argument of its owner, so it is replaced
      have harg : s ∈ ((g₁.duplicate (g.duplicateFresh s).1).2.insn i).args := by
        rw [(extended_duplicate _).insn, hinsn i (placed_lt hplaced)]
        exact hs.arg h hi
      obtain ⟨n, -, hdone⟩ := replaceArg_of_mem harg (g₁.duplicate (g.duplicateFresh s).1).1
      generalize (g₁.duplicate (g.duplicateFresh s).1).2.replaceArg i s
        (g₁.duplicate (g.duplicateFresh s).1).1 = r at hdone ⊢
      obtain ⟨done, g₂⟩ := r
      cases hdone
      rfl

/-- The cast reads the use and defines a fresh variable, which the instruction then reads. -/
theorem wired_castUse (h : g.Wired P ∅ ∅) {v : VarId} {s : SiteId} (hs : Reads g v s) :
    (castUse g s).2.Wired P ∅ ∅ ∧ Later g (castUse g s).2 := by
  rcases castUse_cases h hs with heq | ⟨i, hplaced, heq⟩
  · rw [heq]
    exact ⟨h, refl_of Later g⟩
  have hlt := placed_lt hplaced
  obtain ⟨g₁, hbuild, h₁, hloose₁, hinsn, -, hheld, hlater₁⟩ := wired_feed h
    (x := { opcode := .checkCast, type := some (g.site s).declared, soft := true, synthetic := true })
    ⟨rfl, rfl, rfl, rfl⟩ nofun hs.held hs.isRegister
  simp only [heq, hbuild]
  obtain ⟨h₂, e₂⟩ := wired_swapCopy h₁ i s hheld
  generalize ((g₁.duplicate (g.duplicateFresh s).1).2.replaceArg i s
    (g₁.duplicate (g.duplicateFresh s).1).1).2 = g₂ at h₂ e₂ ⊢
  have hne : (⟨g.insns.size⟩ : InsnId) ≠ i := fun heq =>
    Nat.lt_irrefl _ (congrArg InsnId.index heq ▸ hlt)
  obtain ⟨b, n, -, h₃, e₃⟩ := wired_insertBefore i h₂ (e₂.loose _ hne hloose₁) (by
    rw [(e₂.insn i).1, hinsn i hlt]
    exact hplaced)
  exact ⟨h₃, trans_of Later (trans_of Later hlater₁ e₂.later) (later_insnPlaced e₃)⟩

/-- What each edit of a walk keeps holds after the walk. -/
theorem kept_tally {α : Type} {K : MethodGraph → Prop} {f : MethodGraph → α → Nat × MethodGraph}
    {l : List α} (hstep : ∀ a ∈ l, ∀ g', K g' → Later g g' → K (f g' a).2 ∧ Later g' (f g' a).2)
    (h : K g) : K (tally f l g).2 ∧ Later g (tally f l g).2 := by
  induction l generalizing g with
  | nil => exact ⟨h, refl_of Later g⟩
  | cons a l ih =>
    obtain ⟨h₁, hlater₁⟩ := hstep a List.mem_cons_self g h (refl_of Later g)
    obtain ⟨h₂, hlater₂⟩ := ih (fun b hb g' h' hl =>
      hstep b (List.mem_cons_of_mem a hb) g' h' (trans_of Later hlater₁ hl)) h₁
    exact ⟨h₂, trans_of Later hlater₁ hlater₂⟩

theorem wired_restoreCasts (h : g.Wired P ∅ ∅) (v : VarId) :
    (restoreCasts c g v).2.Wired P ∅ ∅ ∧ Later g (restoreCasts c g v).2 := by
  unfold restoreCasts
  split
  · exact ⟨h, refl_of Later g⟩
  · next t bound _ =>
    refine kept_tally (K := Wired P ∅ ∅) (fun i _ g' h' _ => ?_) h
    simp only
    split
    · have e : SameLinks g' (g'.updateInsn i fun x => { x with type := some t }) :=
        sameLinks_updateInsn i (fun _ => ⟨rfl, rfl⟩) (fun _ => rfl) fun _ => ⟨rfl, rfl⟩
      exact ⟨h'.congr e, later_sameLinks e⟩
    · exact ⟨h', refl_of Later g'⟩

/-! ## Constants -/

/-- The copy is closed where it is put, right after what it copies. -/
theorem wired_copyAfter (h : g.Wired P F U) {i : InsnId} (hplaced : (g.insn i).block.isSome = true)
    (hop : (g.insn i).opcode ≠ .phi) (synthetic : Bool) :
    (copyAfter g i synthetic).2.Wired P F U ∧
      ((copyAfter g i synthetic).2.insn i).block = (g.insn i).block ∧
      ((copyAfter g i synthetic).2.insn i).opcode = (g.insn i).opcode ∧
      ∀ w, (copyAfter g i synthetic).1 = some w →
        w.index < (copyAfter g i synthetic).2.vars.size := by
  have hlt := placed_lt hplaced
  have hne : i ≠ ⟨g.insns.size⟩ := fun heq => Nat.lt_irrefl _ (congrArg InsnId.index heq ▸ hlt)
  unfold copyAfter
  simp only
  obtain ⟨hid, h₁, hloose, hblocks, hinsn⟩ := wired_copyFresh h hop
  rw [hid]
  generalize (g.copyFresh i).2 = g₁ at h₁ hloose hblocks hinsn ⊢
  -- that the copy is synthetic is no link
  obtain ⟨g₂, hg₂⟩ : ∃ g₂, g₂ = (if synthetic = true then
      g₁.updateInsn ⟨g.insns.size⟩ (fun x => { x with synthetic := true }) else g₁) := ⟨_, rfl⟩
  have e : SameLinks g₁ g₂ := by
    rw [hg₂]
    split
    · exact sameLinks_updateInsn _ (fun _ => ⟨rfl, rfl⟩) (fun _ => rfl) fun _ => ⟨rfl, rfl⟩
    · exact refl_of SameLinks g₁
  have hsize : g₂.insns.size = g₁.insns.size := by
    rw [hg₂]
    split
    · exact Array.size_modify
    · rfl
  have hloose₂ := e.loose hsize hloose
  rw [← hg₂]
  obtain ⟨b, n, -, h₃, e₃⟩ := wired_insertAfter i (h₁.congr e) hloose₂
    (by rw [e.place, hinsn i hlt]; exact hplaced)
  generalize (g₂.insertAfter i ⟨g.insns.size⟩).2 = g₃ at h₃ e₃ ⊢
  have hsame : g₃.insn i = g₂.insn i := by rw [e₃.insn, if_neg hne]
  refine ⟨h₃, ?_, ?_, fun w hw => ?_⟩
  · rw [hsame, e.place, hinsn i hlt]
  · rw [hsame, (e.code i).1, hinsn i hlt]
  · obtain ⟨s, hs, hsw⟩ := Option.bind_eq_some_iff.mp hw
    exact h₃.names.var s w (h₃.slots.holds_result hs) hsw

theorem wired_redirect (h : g.Wired P F U) (i : InsnId) (s : SiteId) {w : VarId}
    (hw : w.index < g.vars.size) :
    (redirect g i s w).Wired P F U ∧ ∀ j, ((redirect g i s w).insn j).block = (g.insn j).block ∧
      ((redirect g i s w).insn j).opcode = (g.insn j).opcode := by
  unfold redirect
  simp only
  obtain ⟨h₁, hfree⟩ := wired_duplicateWith h s hw
  have hext : Extended g (g.duplicateWith s w).2 := extended_newSite _
  generalize (g.duplicateWith s w).1 = d at hfree ⊢
  generalize (g.duplicateWith s w).2 = g₁ at h₁ hfree hext ⊢
  obtain ⟨h₂, e⟩ := wired_swapArg h₁ i s hfree
  refine ⟨h₂, fun j => ?_⟩
  rw [← hext.insn]
  exact e.insn j

/-- What splitting a constant relies on: the constant stays where it is. -/
structure Splitting (P : Set VarId) (i : InsnId) (g : MethodGraph) : Prop where
  wired : g.Wired P ∅ ∅
  placed : (g.insn i).block.isSome = true
  opcode : (g.insn i).opcode = .const

theorem splitting_start (h : g.Wired P ∅ ∅) {v : VarId} {i : InsnId}
    (hi : sharedConst? g v = some i) : Splitting P i g := by
  obtain ⟨-, hcond⟩ := Option.filter_eq_some_iff.mp hi
  rw [Bool.and_eq_true, beq_iff_eq] at hcond
  exact ⟨h, hcond.2, hcond.1⟩

/-- A copy is made for an argument, which then reads the copy. -/
theorem Splitting.copy {i : InsnId} (h : Splitting P i g) (synthetic : Bool) :
    Splitting P i (copyAfter g i synthetic).2 ∧ ∀ w, (copyAfter g i synthetic).1 = some w →
      ∀ user s, Splitting P i (redirect (copyAfter g i synthetic).2 user s w) := by
  obtain ⟨h₁, hblock, hop, hvar⟩ := wired_copyAfter h.wired h.placed (by rw [h.opcode]; nofun) synthetic
  generalize copyAfter g i synthetic = r at h₁ hblock hop hvar ⊢
  obtain ⟨w?, g₁⟩ := r
  have hsplit : Splitting P i g₁ := ⟨h₁, by rw [hblock]; exact h.placed, by rw [hop]; exact h.opcode⟩
  refine ⟨hsplit, fun w hw user s => ?_⟩
  obtain ⟨h₂, hinsn⟩ := wired_redirect h₁ user s (hvar w hw)
  exact ⟨h₂, by rw [(hinsn i).1]; exact hsplit.placed, by rw [(hinsn i).2]; exact hsplit.opcode⟩

/-! ## Moves -/

/-- The way up leads from one block to another of the table. -/
theorem ascend_lt (h : g.Seated) (v : Option VarId) {steps : Nat} {b place : BlockId}
    (hb : b.index < g.blocks.size) (hp : ascend g v steps b = .place place) :
    place.index < g.blocks.size := by
  induction steps generalizing b with
  | zero =>
    unfold ascend at hp
    simp only at hp
    grind
  | succ steps ih =>
    unfold ascend at hp
    simp only at hp
    have hpreds := h.preds b
    grind

/-- The move reads the input and defines a fresh variable, which the phi then reads. -/
theorem wired_move (h : g.Wired P ∅ ∅) {s : SiteId} (hs : g.Holds s) (hreg : g.isRegister s = true)
    (phi : InsnId) {b : BlockId} (hb : b.index < g.blocks.size) :
    let (result, g₁) := g.duplicateFresh s
    let (source, g₁) := g₁.duplicate s
    let (move, g₁) := g₁.buildInsn { opcode := .move, synthetic := true } (some result) [source]
    let g₁ := g₁.append b move
    let (d, g₁) := g₁.duplicate result
    (g₁.replaceArg phi s d).2.Wired P ∅ ∅ ∧ Later g (g₁.replaceArg phi s d).2 := by
  obtain ⟨g₁, hbuild, h₁, hloose, -, hblocks, hheld, hlater⟩ := wired_feed h
    (x := { opcode := .move, synthetic := true }) ⟨rfl, rfl, rfl, rfl⟩ nofun hs hreg
  simp only [hbuild]
  obtain ⟨h₂, e₂⟩ := wired_place h₁ hloose (by rw [hblocks]; exact hb) (Nat.le_refl _)
  have hlater₂ := later_insnPlaced e₂
  obtain ⟨h₃, e₃⟩ := wired_swapCopy h₂ phi s (hlater₂.holds hheld)
  exact ⟨h₃, trans_of Later (trans_of Later hlater hlater₂) e₃.later⟩

/-! ## Truth values -/

theorem sameLinks_declare (s : SiteId) (t : Ty) :
    SameLinks g (g.updateSite s fun x => { x with declared := t }) :=
  sameLinks_updateSite s (fun _ => rfl) fun _ => rfl

theorem offered_sameLinks (e : SameLinks g g') {r : Option SiteId} (hr : Offered F g r) :
    Offered F g' r := by
  intro s hs
  obtain ⟨⟨v, hv⟩, howner⟩ := hr s hs
  refine ⟨⟨v, by rw [Holds, e.size]; exact hv.held, by rw [e.varOf, hv.varOf], fun i => ?_, ?_⟩,
    fun j hj => howner j (by rwa [e.owner] at hj)⟩
  · rw [(e.slots i).2]
    exact hv.apart i
  · rw [e.assign]
    exact hv.assign

/-- The instruction `cond ? 1 : 0`. -/
theorem wired_conversion (h : g.Wired P F U) {s : SiteId} (hs : g.Holds s) (t : Option Ty)
    {r : Option SiteId} (hr : Offered F g r) {V : Set VarId}
    (hU : ∀ v ∈ U, v ∈ V ∨ r.bind g.varOf? = some v) :
    let (test, g₁) := g.duplicate s
    let g₁ := g₁.updateSite test fun x => { x with declared := Ty.boolean }
    let (one, g₁) := g₁.newLit 1 t
    let (zero, g₁) := g₁.newLit 0 t
    ∃ g', g₁.buildInsn { opcode := .ternary, synthetic := true } r [test, one, zero] =
        (⟨g.insns.size⟩, g') ∧ g'.Wired P (insert ⟨g.insns.size⟩ F) V ∧ Assembled g r g' := by
  obtain ⟨h₁, htest⟩ := wired_duplicate h hs
  have hnew : ¬g.Holds (g.duplicate s).1 := not_holds_newSite _
  have hext₁ := (extended_duplicate (g := g) s).updateSite hnew fun x =>
    { x with declared := Ty.boolean }
  have hsame := sameLinks_declare (g := (g.duplicate s).2) (g.duplicate s).1 Ty.boolean
  simp only
  generalize (g.duplicate s).1 = test at htest hnew hext₁ hsame ⊢
  generalize (g.duplicate s).2 = g₁ at h₁ htest hext₁ hsame ⊢
  have htest := hsame.free htest
  have h₁ := h₁.congr hsame
  generalize g₁.updateSite test (fun x => { x with declared := Ty.boolean }) = g₂ at h₁ htest hext₁ ⊢
  -- each literal is a site that was not there before
  obtain ⟨h₂, hone⟩ := wired_newLit h₁ 1 t
  have hext₂ : Extended g₂ (g₂.newLit 1 t).2 := extended_newSite _
  have hnone : ¬g₂.Holds (g₂.newLit 1 t).1 := not_holds_newSite _
  generalize (g₂.newLit 1 t).1 = one at hone hnone ⊢
  generalize (g₂.newLit 1 t).2 = g₃ at h₂ hone hext₂ ⊢
  obtain ⟨h₃, hzero⟩ := wired_newLit h₂ 0 t
  have hext₃ : Extended g₃ (g₃.newLit 0 t).2 := extended_newSite _
  have hnzero : ¬g₃.Holds (g₃.newLit 0 t).1 := not_holds_newSite _
  generalize (g₃.newLit 0 t).1 = zero at hzero hnzero ⊢
  generalize (g₃.newLit 0 t).2 = g₄ at h₃ hzero hext₃ ⊢
  have hext := trans_of Extended hext₁ (trans_of Extended hext₂ hext₃)
  have hne₁ : test ≠ one := fun heq => hnone (heq ▸ htest.held)
  have hne₂ : test ≠ zero := fun heq => hnzero (heq ▸ hext₂.holds htest.held)
  have hne₃ : one ≠ zero := fun heq => hnzero (heq ▸ hone.held)
  refine wired_buildOn h₃ hext ⟨rfl, rfl, rfl, rfl⟩ (by decide) hr (fun a ha => ?_) ?_
    (fun u hu => ?_) hU
  · simp only [List.mem_cons, List.not_mem_nil, or_false] at ha
    rcases ha with rfl | rfl | rfl
    · exact hext₃.free (hext₂.free htest)
    · exact hext₃.free hone
    · exact hzero
  · simp [hne₁, hne₂, hne₃]
  · obtain ⟨⟨v, hv⟩, -⟩ := hr u hu
    have h₀ : u ≠ test := fun heq => hnew (heq ▸ hv.held)
    have h₁ : u ≠ one := fun heq => hnone (heq ▸ hext₁.holds hv.held)
    have h₂ : u ≠ zero := fun heq => hnzero (heq ▸ hext₂.holds (hext₁.holds hv.held))
    simp [h₀, h₁, h₂]

/-- A negation reads a site that was made for it. -/
theorem wired_buildNegation (h : g.Wired P F U) {result operand : SiteId}
    (hr : Offered F g (some result)) (ho : g.Free operand) (hne : result ≠ operand) {V : Set VarId}
    (hU : ∀ v ∈ U, v ∈ V ∨ g.varOf? result = some v) :
    ∃ g', buildNegation g result operand = (⟨g.insns.size⟩, g') ∧
      g'.Wired P (insert ⟨g.insns.size⟩ F) V ∧ Assembled g (some result) g' := by
  have e := sameLinks_declare (g := g) operand Ty.boolean
  have hinsns : (g.updateSite operand fun x => { x with declared := Ty.boolean }).insns = g.insns := rfl
  unfold buildNegation
  simp only
  generalize g.updateSite operand (fun x => { x with declared := Ty.boolean }) = g₁ at e hinsns ⊢
  have hsize : g₁.insns.size = g.insns.size := congrArg Array.size hinsns
  obtain ⟨g', hbuild, h', hbuilt⟩ := wired_buildOn (V := V) (h.congr e) (refl_of Extended g₁)
    (x := { opcode := .not, synthetic := true }) ⟨rfl, rfl, rfl, rfl⟩ nofun (offered_sameLinks e hr)
    (fun a ha => by rw [List.mem_singleton.mp ha]; exact e.free ho)
    (List.nodup_singleton operand) (fun u hu => by cases hu; simpa using hne)
    (fun v hv => by rw [Option.bind_some, e.varOf]; exact hU v hv)
  have hloose := hbuilt.loose
  have hresult := hbuilt.result
  rw [hsize] at hbuild h' hloose hresult
  refine ⟨g', hbuild, h', hloose, fun j hj => ?_, hbuilt.blocks.trans e.blocks, hresult,
    fun g₀ h₀ hr₀ => hbuilt.later g₀ (trans_of Later h₀ (later_sameLinks e)) fun u v hu hv hold => ?_⟩
  · rw [hbuilt.insn j (hsize ▸ hj), insn_congr hinsns]
  · rw [e.varOf] at hv
    exact hr₀ u v hu hv hold

/-- A placed instruction offers its result to one that is to take its place. -/
theorem offered_result (h : g.Wired P ∅ ∅) {i : InsnId} (hplaced : (g.insn i).block.isSome = true) :
    Offered (insert i ∅) g (g.insn i).result := by
  intro s hs
  obtain ⟨v, hv, ha⟩ := h.slots.result i s hs
  obtain ⟨-, hheld, hno⟩ := h.slots.assign v s ha
  refine ⟨⟨v, hheld, hv, hno, .inr ha⟩, fun j hj => ?_⟩
  have howner := ((h.tight i id).result s hs).mpr hplaced
  rw [howner] at hj
  cases hj
  exact Set.mem_insert i ∅

/-- The instruction that was built with the result of another takes its place. -/
theorem wired_supersede {i : InsnId} (h : g'.Wired P (insert ⟨g.insns.size⟩ (insert i ∅)) ∅)
    (hplaced : (g.insn i).block.isSome = true) (hop : (g.insn i).opcode ≠ .phi)
    (e : Assembled g (g.insn i).result g') :
    (g'.replaceInsn i ⟨g.insns.size⟩).2.Wired P ∅ ∅ ∧ Later g' (g'.replaceInsn i ⟨g.insns.size⟩).2 := by
  have hlt := placed_lt hplaced
  have hne : (⟨g.insns.size⟩ : InsnId) ≠ i := fun heq =>
    Nat.lt_irrefl _ (congrArg InsnId.index heq ▸ hlt)
  have hinsn := e.insn i hlt
  have hplaced' : (g'.insn i).block.isSome = true := by rw [hinsn]; exact hplaced
  have hop' : (g'.insn i).opcode ≠ .phi := by rw [hinsn]; exact hop
  refine ⟨wired_replaceInsn h hplaced' hop' (fun s hs => ?_) e.loose, ?_⟩
  · rw [e.result s (hinsn ▸ hs)]
    exact fun heq => hne (Option.some_inj.mp heq)
  · obtain ⟨b, n, -, -, -, e'⟩ := insnReplaced_replaceInsn h hplaced' hop' e.loose.lt hne
    exact later_insnReplaced e'

end
end TypeRecovery.Inference
