import Mathlib.Data.List.InsertIdx
import Mathlib.Data.List.Nodup
import Mathlib.Data.Set.Insert
import TypeRecovery.Proofs.Graph.Edits

/- The links of a graph. Instructions, sites, variables and blocks name each other, and every edit
   writes several of these names one after the other. `Wired P F U g` holds also in between: all links
   agree and the variables in `P` are the parameters, except that the instructions in `F` are under
   construction (linked but not placed, or placed but without their result) and the variables in `U`
   have no definition yet. There is one lemma for each edit that says which instructions and variables
   it opens or closes. A graph is well formed when nothing is left open. -/
namespace TypeRecovery.MethodGraph

/-! ## Well-formed graphs -/

/-- The graph of a method with the given parameters is well formed. -/
structure WellFormed (P : Set VarId) (g : MethodGraph) : Prop where
  /-- An instruction is placed at most once. -/
  placed : g.placed.Nodup
  /-- A block lists the instructions that know it as theirs. -/
  block : ∀ i b, i ∈ (g.block b).insns ↔ (g.insn i).block = some b
  /-- A variable in use has a definition: the slot of a parameter, or the result of a placed
      instruction that owns it. -/
  defined : ∀ v ∈ g.live, ∃ s, (g.var v).assign = some s ∧ g.varOf? s = some v ∧
    ((v ∈ P ∧ (g.site s).owner = none) ∨
      ∃ i ∈ g.placed, (g.site s).owner = some i ∧ (g.insn i).result = some s)
  /-- The result of a placed instruction is the definition of its variable, so there is no other. -/
  result : ∀ i ∈ g.placed, ∀ s, (g.insn i).result = some s → (g.site s).owner = some i ∧
    ∃ v ∈ g.live, g.varOf? s = some v ∧ (g.var v).assign = some s
  /-- The uses of a variable are the arguments of placed instructions that read it, each once. -/
  uses : ∀ v s, s ∈ (g.var v).uses ↔ g.varOf? s = some v ∧ ∃ i ∈ g.placed, s ∈ (g.insn i).args
  usesOnce : ∀ v, (g.var v).uses.Nodup
  /-- An argument belongs to the instruction that lists it. -/
  owner : ∀ i ∈ g.placed, ∀ s ∈ (g.insn i).args, (g.site s).owner = some i
  /-- The phis of a variable are the placed phis that read it, each once. -/
  phis : ∀ v i, i ∈ (g.var v).phis ↔
    i ∈ g.placed ∧ (g.insn i).opcode = .phi ∧ ∃ s ∈ (g.insn i).args, g.varOf? s = some v
  phisOnce : ∀ v, (g.var v).phis.Nodup
  /-- A phi has a block for each input. -/
  incoming : ∀ i ∈ g.placed, (g.insn i).opcode = .phi →
    (g.insn i).incoming.length = (g.insn i).args.length
  /-- The variables in use are listed once, and all that are read or defined are among them. -/
  live : g.live.Nodup
  known : ∀ i ∈ g.placed, ∀ s ∈ (g.insn i).sites, ∀ v, g.varOf? s = some v → v ∈ g.live

/-! ## Links -/

/-- Who owns which site. -/
structure Slotted (g : MethodGraph) : Prop where
  arg : ∀ i, ∀ s ∈ (g.insn i).args, (g.site s).owner = some i
  once : ∀ i, (g.insn i).args.Nodup
  owned : ∀ s i, (g.site s).owner = some i → s ∈ (g.insn i).args ∨ (g.insn i).result = some s
  result : ∀ i s, (g.insn i).result = some s →
    ∃ v, g.varOf? s = some v ∧ (g.var v).assign = some s
  assign : ∀ v s, (g.var v).assign = some s →
    g.varOf? s = some v ∧ g.Holds s ∧ ∀ i, s ∉ (g.insn i).args

/-- The lists of a variable: its uses and the phis that read it. -/
structure Listed (g : MethodGraph) : Prop where
  uses : ∀ v s, s ∈ (g.var v).uses ↔ g.varOf? s = some v ∧ ∃ i, s ∈ (g.insn i).args
  usesOnce : ∀ v, (g.var v).uses.Nodup
  phis : ∀ v i, i ∈ (g.var v).phis ↔
    (g.insn i).opcode = .phi ∧ ∃ s ∈ (g.insn i).args, g.varOf? s = some v
  phisOnce : ∀ v, (g.var v).phis.Nodup

/-- Blocks and what they hold. -/
structure Seated (g : MethodGraph) : Prop where
  block : ∀ i b, i ∈ (g.block b).insns ↔ (g.insn i).block = some b
  once : ∀ b, (g.block b).insns.Nodup
  preds : ∀ b, ∀ p ∈ (g.block b).preds, p.index < g.blocks.size
  incoming : ∀ i, ∀ b ∈ (g.insn i).incoming, b.index < g.blocks.size
  paired : ∀ i, (g.insn i).opcode = .phi → (g.insn i).incoming.length = (g.insn i).args.length

/-- The table of variables is what is in use, and sites name variables of the table. -/
structure Named (g : MethodGraph) : Prop where
  live : g.live = (List.range g.vars.size).map VarId.mk
  var : ∀ s v, g.Holds s → g.varOf? s = some v → v.index < g.vars.size

/-- A placed instruction owns its result; one that is not placed has neither result nor arguments. -/
structure Tight (g : MethodGraph) (i : InsnId) : Prop where
  args : (g.insn i).block = none → (g.insn i).args = []
  result : ∀ s, (g.insn i).result = some s →
    ((g.site s).owner = some i ↔ (g.insn i).block.isSome = true)

/-- The variable has a definition, and only that of a parameter stands outside any instruction. -/
def Sourced (P : Set VarId) (g : MethodGraph) (v : VarId) : Prop :=
  ∃ s, (g.var v).assign = some s ∧ ((g.site s).owner = none → v ∈ P)

structure Wired (P : Set VarId) (F : Set InsnId) (U : Set VarId) (g : MethodGraph) : Prop where
  slots : g.Slotted
  lists : g.Listed
  seats : g.Seated
  names : g.Named
  tight : ∀ i, i ∉ F → g.Tight i
  defined : ∀ v, v.index < g.vars.size → v ∉ U → g.Sourced P v

section
variable {g g' : MethodGraph} {P U : Set VarId} {F : Set InsnId}

theorem Wired.weaken {F' : Set InsnId} {U' : Set VarId} (h : g.Wired P F U) (hF : F ⊆ F')
    (hU : U ⊆ U') : g.Wired P F' U' :=
  ⟨h.slots, h.lists, h.seats, h.names, fun i hi => h.tight i fun hF' => hi (hF hF'),
    fun v hv hU' => h.defined v hv fun h' => hU' (hU h')⟩

/-! Entries beyond the tables are empty. -/

theorem insn_of_size_le {i : InsnId} (h : g.insns.size ≤ i.index) : g.insn i = default := by
  simp [insn, h]

theorem site_of_size_le {s : SiteId} (h : g.sites.size ≤ s.index) : g.site s = default := by
  simp [site, h]

theorem block_of_size_le {b : BlockId} (h : g.blocks.size ≤ b.index) : g.block b = default := by
  simp [block, h]

theorem block_of_lt {n : Nat} (h : n < g.blocks.size) : g.block ⟨n⟩ = g.blocks.toList[n] := by
  simp [block, h]

/-- A site with an owner is in the table. -/
theorem holds_of_owner {s : SiteId} {i : InsnId} (h : (g.site s).owner = some i) : g.Holds s := by
  refine Nat.lt_of_not_le fun hs => ?_
  rw [site_of_size_le hs] at h
  cases h

theorem Slotted.holds_arg (h : g.Slotted) {i : InsnId} {s : SiteId} (hs : s ∈ (g.insn i).args) :
    g.Holds s := holds_of_owner (h.arg i s hs)

theorem Slotted.holds_result (h : g.Slotted) {i : InsnId} {s : SiteId}
    (hs : (g.insn i).result = some s) : g.Holds s := by
  obtain ⟨v, -, hv⟩ := h.result i s hs
  exact (h.assign v s hv).2.1

/-- An instruction that owns a site is in the table. -/
theorem Slotted.owner_lt (h : g.Slotted) {s : SiteId} {i : InsnId}
    (hs : (g.site s).owner = some i) : i.index < g.insns.size := by
  refine Nat.lt_of_not_le fun hi => ?_
  have howned := h.owned s i hs
  rw [insn_of_size_le hi] at howned
  rcases howned with h | h
  · cases h
  · cases h

theorem block_lt {i : InsnId} {b : BlockId} (h : i ∈ (g.block b).insns) :
    b.index < g.blocks.size := by
  refine Nat.lt_of_not_le fun hb => ?_
  rw [block_of_size_le hb] at h
  cases h

theorem placed_lt {i : InsnId} (h : (g.insn i).block.isSome = true) : i.index < g.insns.size := by
  refine Nat.lt_of_not_le fun hi => ?_
  rw [insn_of_size_le hi] at h
  cases h

theorem mem_live (h : g.Named) {v : VarId} : v ∈ g.live ↔ v.index < g.vars.size := by
  obtain ⟨n⟩ := v
  rw [h.live]
  simp

/-! ## What is left when nothing is open -/

theorem mem_placed {i : InsnId} : i ∈ g.placed ↔ ∃ b, i ∈ (g.block b).insns := by
  unfold MethodGraph.placed
  rw [List.mem_flatMap]
  constructor
  · rintro ⟨x, hx, hi⟩
    obtain ⟨n, hn, rfl⟩ := List.getElem_of_mem hx
    exact ⟨⟨n⟩, block_of_lt (by simpa using hn) ▸ hi⟩
  · rintro ⟨b, hi⟩
    have hb := block_lt hi
    refine ⟨g.block b, ?_, hi⟩
    simp [block, hb]

theorem Seated.mem_placed (h : g.Seated) {i : InsnId} :
    i ∈ g.placed ↔ (g.insn i).block.isSome = true := by
  rw [MethodGraph.mem_placed, Option.isSome_iff_exists]
  exact exists_congr fun b => h.block i b

/-- No instruction stands in two blocks, and none twice in one. -/
theorem Seated.placed_nodup (h : g.Seated) : g.placed.Nodup := by
  unfold MethodGraph.placed
  rw [List.nodup_flatMap]
  constructor
  · intro x hx
    obtain ⟨n, hn, rfl⟩ := List.getElem_of_mem hx
    exact block_of_lt (by simpa using hn) ▸ h.once ⟨n⟩
  · rw [List.pairwise_iff_getElem]
    intro n m hn hm hnm i hi hi'
    have h₁ : (g.insn i).block = some ⟨n⟩ :=
      (h.block i ⟨n⟩).mp (block_of_lt (by simpa using hn) ▸ hi)
    have h₂ : (g.insn i).block = some ⟨m⟩ :=
      (h.block i ⟨m⟩).mp (block_of_lt (by simpa using hm) ▸ hi')
    rw [h₁] at h₂
    cases h₂
    exact Nat.lt_irrefl _ hnm

theorem Wired.wellFormed (h : g.Wired P ∅ ∅) : g.WellFormed P := by
  have hplaced : ∀ {i}, i ∈ g.placed ↔ (g.insn i).block.isSome = true := h.seats.mem_placed
  have htight : ∀ i, g.Tight i := fun i => h.tight i id
  have hargs : ∀ {i s}, s ∈ (g.insn i).args → i ∈ g.placed := by
    intro i s hs
    rw [hplaced]
    cases hb : (g.insn i).block with
    | some b => rfl
    | none =>
      rw [(htight i).args hb] at hs
      cases hs
  have hlive : ∀ {s v}, g.Holds s → g.varOf? s = some v → v ∈ g.live := fun hs hv =>
    (mem_live h.names).mpr (h.names.var _ _ hs hv)
  refine ⟨h.seats.placed_nodup, h.seats.block, ?_, ?_, ?_, h.lists.usesOnce, ?_, ?_,
    h.lists.phisOnce, fun i _ => h.seats.paired i, ?_, ?_⟩
  · intro v hv
    obtain ⟨s, hs, hparam⟩ := h.defined v ((mem_live h.names).mp hv) id
    obtain ⟨hvar, -, hno⟩ := h.slots.assign v s hs
    refine ⟨s, hs, hvar, ?_⟩
    cases hi : (g.site s).owner with
    | none => exact .inl ⟨hparam hi, rfl⟩
    | some i =>
      have hres := (h.slots.owned s i hi).resolve_left (hno i)
      exact .inr ⟨i, hplaced.mpr (((htight i).result s hres).mp hi), rfl, hres⟩
  · intro i hi s hs
    obtain ⟨v, hvar, hv⟩ := h.slots.result i s hs
    refine ⟨((htight i).result s hs).mpr (hplaced.mp hi), v, ?_, hvar, hv⟩
    exact hlive (h.slots.assign v s hv).2.1 hvar
  · intro v s
    rw [h.lists.uses]
    exact and_congr_right fun _ => exists_congr fun i => ⟨fun hs => ⟨hargs hs, hs⟩, And.right⟩
  · exact fun i _ => h.slots.arg i
  · intro v i
    rw [h.lists.phis]
    refine ⟨fun ⟨hop, s, hs, hv⟩ => ⟨hargs hs, hop, s, hs, hv⟩, And.right⟩
  · rw [h.names.live]
    exact List.nodup_range.map fun _ _ hne => by simpa using hne
  · intro i _ s hs v hv
    rcases List.mem_append.mp hs with hs | hs
    · exact hlive (h.slots.holds_result (by simpa using hs)) hv
    · exact hlive (h.slots.holds_arg hs) hv

/-! ## Graphs with the same links -/

/-- The graphs differ in nothing that links. -/
structure SameLinks (g g' : MethodGraph) : Prop where
  owner : ∀ s, (g'.site s).owner = (g.site s).owner
  varOf : ∀ s, g'.varOf? s = g.varOf? s
  size : g'.sites.size = g.sites.size
  slots : ∀ i, (g'.insn i).result = (g.insn i).result ∧ (g'.insn i).args = (g.insn i).args
  place : ∀ i, (g'.insn i).block = (g.insn i).block
  code : ∀ i, (g'.insn i).opcode = (g.insn i).opcode ∧ (g'.insn i).incoming = (g.insn i).incoming
  lists : ∀ v, (g'.var v).uses = (g.var v).uses ∧ (g'.var v).phis = (g.var v).phis
  assign : ∀ v, (g'.var v).assign = (g.var v).assign
  vars : g'.vars.size = g.vars.size
  live : g'.live = g.live
  blocks : g'.blocks = g.blocks

theorem Slotted.congr (h : g.Slotted)
    (hi : ∀ i, (g'.insn i).result = (g.insn i).result ∧ (g'.insn i).args = (g.insn i).args)
    (ho : ∀ s, (g'.site s).owner = (g.site s).owner) (hv : ∀ s, g'.varOf? s = g.varOf? s)
    (ha : ∀ v, (g'.var v).assign = (g.var v).assign) (hs : g'.sites.size = g.sites.size) :
    g'.Slotted := by
  obtain ⟨harg, honce, howned, hresult, hassign⟩ := h
  constructor
  · grind
  · grind
  · grind
  · grind
  · grind [Holds]

theorem Listed.congr (h : g.Listed) (ha : ∀ i, (g'.insn i).args = (g.insn i).args)
    (hc : ∀ i, (g'.insn i).opcode = (g.insn i).opcode) (hv : ∀ s, g'.varOf? s = g.varOf? s)
    (hl : ∀ v, (g'.var v).uses = (g.var v).uses ∧ (g'.var v).phis = (g.var v).phis) :
    g'.Listed := by
  obtain ⟨huses, honce, hphis, honce'⟩ := h
  constructor
  · grind
  · grind
  · grind
  · grind

theorem Seated.congr (h : g.Seated) (hb : g'.blocks = g.blocks)
    (hp : ∀ i, (g'.insn i).block = (g.insn i).block)
    (hc : ∀ i, (g'.insn i).opcode = (g.insn i).opcode ∧ (g'.insn i).incoming = (g.insn i).incoming)
    (ha : ∀ i, (g.insn i).opcode = .phi → (g'.insn i).args.length = (g.insn i).args.length) :
    g'.Seated := by
  have hblock : ∀ b, g'.block b = g.block b := fun b => by
    rw [MethodGraph.block, MethodGraph.block, hb]
  obtain ⟨hmem, honce, hpreds, hincoming, hpaired⟩ := h
  constructor
  · grind
  · grind
  · grind
  · grind
  · grind

theorem Named.congr (h : g.Named) (hl : g'.live = g.live) (hn : g'.vars.size = g.vars.size)
    (hs : g'.sites.size = g.sites.size) (hv : ∀ s, g'.varOf? s = g.varOf? s) : g'.Named := by
  refine ⟨by rw [hl, hn, h.live], fun s v hm hsv => ?_⟩
  rw [Holds, hs] at hm
  rw [hn]
  exact h.var s v hm (hv s ▸ hsv)

theorem Tight.congr {i : InsnId} (h : g.Tight i) (hb : (g'.insn i).block = (g.insn i).block)
    (hi : (g'.insn i).result = (g.insn i).result ∧ (g'.insn i).args = (g.insn i).args)
    (ho : ∀ s, (g.insn i).result = some s →
      ((g'.site s).owner = some i ↔ (g.site s).owner = some i)) : g'.Tight i := by
  obtain ⟨hargs, hresult⟩ := h
  constructor
  · grind
  · grind

theorem Sourced.congr {v : VarId} (h : g.Sourced P v)
    (ha : (g'.var v).assign = (g.var v).assign)
    (ho : ∀ s, (g.var v).assign = some s → (g'.site s).owner = none → (g.site s).owner = none) :
    g'.Sourced P v := by
  obtain ⟨s, hs, hparam⟩ := h
  exact ⟨s, ha.trans hs, fun hn => hparam (ho s hs hn)⟩

theorem Wired.congr (h : g.Wired P F U) (e : SameLinks g g') : g'.Wired P F U := by
  refine ⟨h.slots.congr e.slots e.owner e.varOf e.assign e.size,
    h.lists.congr (fun i => (e.slots i).2) (fun i => (e.code i).1) e.varOf e.lists,
    h.seats.congr e.blocks e.place e.code (fun i _ => by rw [(e.slots i).2]),
    h.names.congr e.live e.vars e.size e.varOf, fun i hi => ?_, fun v hv hU => ?_⟩
  · exact (h.tight i hi).congr (e.place i) (e.slots i) fun s _ => by rw [e.owner]
  · exact (h.defined v (e.vars ▸ hv) hU).congr (e.assign v) fun s _ hs => by rwa [e.owner] at hs

instance : IsPreorder MethodGraph SameLinks where
  refl _ := ⟨fun _ => rfl, fun _ => rfl, rfl, fun _ => ⟨rfl, rfl⟩, fun _ => rfl, fun _ => ⟨rfl, rfl⟩,
    fun _ => ⟨rfl, rfl⟩, fun _ => rfl, rfl, rfl, rfl⟩
  trans g₁ g₂ g₃ h h' := by
    constructor
    · grind [SameLinks]
    · grind [SameLinks]
    · exact h'.size.trans h.size
    · grind [SameLinks]
    · grind [SameLinks]
    · grind [SameLinks]
    · grind [SameLinks]
    · grind [SameLinks]
    · exact h'.vars.trans h.vars
    · exact h'.live.trans h.live
    · exact h'.blocks.trans h.blocks

theorem Framed.sameLinks (h : Framed g g') : SameLinks g g' := by
  have hinsn : ∀ i, g'.insn i = g.insn i := fun i => by rw [insn, insn, h.insns]
  refine ⟨h.owner, h.varOf, h.size, fun i => by rw [hinsn]; exact ⟨rfl, rfl⟩,
    fun i => by rw [hinsn], fun i => by rw [hinsn]; exact ⟨rfl, rfl⟩, fun v => ⟨h.uses v, h.phis v⟩,
    h.assign, h.vars, h.live, h.blocks⟩

theorem sameLinks_updateSite (s : SiteId) {f : Site → Site} (ho : ∀ x, (f x).owner = x.owner)
    (hv : ∀ x, (f x).operand = x.operand) : SameLinks g (g.updateSite s f) :=
  ⟨g.updateSite_same Site.owner ho, fun u => varOf?_congr (g.updateSite_same Site.operand hv u),
    size_updateSite _ _ _, fun _ => ⟨rfl, rfl⟩, fun _ => rfl, fun _ => ⟨rfl, rfl⟩,
    fun _ => ⟨rfl, rfl⟩, fun _ => rfl, rfl, rfl, rfl⟩

theorem sameLinks_updateInsn (i : InsnId) {f : Insn → Insn}
    (hs : ∀ x, (f x).result = x.result ∧ (f x).args = x.args) (hb : ∀ x, (f x).block = x.block)
    (hc : ∀ x, (f x).opcode = x.opcode ∧ (f x).incoming = x.incoming) :
    SameLinks g (g.updateInsn i f) := by
  have hinsn : ∀ j, (g.updateInsn i f).insn j = g.insn j ∨
      (g.updateInsn i f).insn j = f (g.insn j) := by
    intro j
    rw [insn_updateInsn]
    split
    · exact .inr rfl
    · exact .inl rfl
  refine ⟨fun _ => rfl, fun _ => rfl, rfl, fun j => ?_, fun j => ?_, fun j => ?_, fun _ => ⟨rfl, rfl⟩,
    fun _ => rfl, rfl, rfl, rfl⟩
  · rcases hinsn j with h | h
    · rw [h]
      exact ⟨rfl, rfl⟩
    · rw [h]
      exact hs _
  · rcases hinsn j with h | h
    · rw [h]
    · rw [h, hb]
  · rcases hinsn j with h | h
    · rw [h]
      exact ⟨rfl, rfl⟩
    · rw [h]
      exact hc _

end
end TypeRecovery.MethodGraph
