import TypeRecovery.Proofs.Graph.Rewiring

/- Instructions as a whole. Sites and variables that are added leave everything that was there as it is
   (`Extended`), so what is known about the parts of an instruction is still known when it is put
   together. A built instruction is linked and owns its result but has no place (`InsnBuilt`); putting it
   into a block, alone or in the place of another, closes it. -/
namespace TypeRecovery.MethodGraph

section
variable {g g' : MethodGraph} {P U : Set VarId} {F : Set InsnId}

/-! ## Adding sites and variables -/

/-- Sites and variables were added, and nothing else was written. -/
structure Extended (g g' : MethodGraph) : Prop where
  insns : g'.insns = g.insns
  blocks : g'.blocks = g.blocks
  sites : g.sites.size ≤ g'.sites.size
  vars : g.vars.size ≤ g'.vars.size
  site : ∀ s, g.Holds s → g'.site s = g.site s
  var : ∀ v, g'.var v = g.var v ∨ (g.vars.size ≤ v.index ∧ (g'.var v).assign = none)

instance : IsPreorder MethodGraph Extended where
  refl _ := ⟨rfl, rfl, Nat.le_refl _, Nat.le_refl _, fun _ _ => rfl, fun _ => .inl rfl⟩
  trans g₁ g₂ g₃ h h' := by
    refine ⟨h'.insns.trans h.insns, h'.blocks.trans h.blocks, Nat.le_trans h.sites h'.sites,
      Nat.le_trans h.vars h'.vars, fun s hs => ?_, fun v => ?_⟩
    · exact (h'.site s (Nat.lt_of_lt_of_le hs h.sites)).trans (h.site s hs)
    · rcases h'.var v with h₂ | ⟨hle, h₂⟩
      · rw [h₂]
        exact h.var v
      · exact .inr ⟨Nat.le_trans h.vars hle, h₂⟩

namespace Extended

theorem insn (h : Extended g g') (i : InsnId) : g'.insn i = g.insn i := insn_congr h.insns i

theorem holds (h : Extended g g') {s : SiteId} (hs : g.Holds s) : g'.Holds s :=
  Nat.lt_of_lt_of_le hs h.sites

theorem varOf (h : Extended g g') {s : SiteId} (hs : g.Holds s) : g'.varOf? s = g.varOf? s :=
  varOf?_congr (congrArg Site.operand (h.site s hs))

theorem assign (h : Extended g g') {v : VarId} {s : SiteId} (hs : (g'.var v).assign = some s) :
    (g.var v).assign = some s := by
  rcases h.var v with hv | ⟨-, hv⟩
  · rw [← hv]
    exact hs
  · rw [hv] at hs
    cases hs

theorem free (h : Extended g g') {s : SiteId} (hs : g.Free s) : g'.Free s :=
  ⟨h.holds hs.held, by rw [h.site s hs.held, hs.owner], fun v hv => hs.assign v (h.assign hv)⟩

/-- A site that was added may still be written. -/
theorem updateSite (h : Extended g g') {s : SiteId} (hs : ¬g.Holds s) (f : Site → Site) :
    Extended g (g'.updateSite s f) := by
  refine ⟨h.insns, h.blocks, by rw [size_updateSite]; exact h.sites, h.vars, fun u hu => ?_, h.var⟩
  rw [site_updateSite, if_neg]
  · exact h.site u hu
  · rintro ⟨rfl, -⟩
    exact hs hu

theorem defines (h : Extended g g') {s : SiteId} {v : VarId} (hs : g.Defines s v) :
    g'.Defines s v := by
  refine ⟨h.holds hs.held, (h.varOf hs.held).trans hs.varOf, fun i => ?_, ?_⟩
  · rw [h.insn]
    exact hs.apart i
  · rcases h.var v with hv | ⟨-, hv⟩
    · rw [hv]
      exact hs.assign
    · exact .inl hv

end Extended

theorem SameLinks.free (e : SameLinks g g') {s : SiteId} (hs : g.Free s) : g'.Free s :=
  ⟨by rw [Holds, e.size]; exact hs.held, by rw [e.owner, hs.owner],
    fun v => by rw [e.assign]; exact hs.assign v⟩

theorem extended_newSite (x : Site) : Extended g (g.newSite x).2 := by
  refine ⟨rfl, rfl, (edited_newSite x).grows, Nat.le_refl _, fun s hs => ?_, fun _ => .inl rfl⟩
  rw [site_newSite, if_neg]
  rintro rfl
  exact not_holds_newSite x hs

theorem extended_newVar (reg : Int) (name : String) : Extended g (g.newVar reg name).2 := by
  have hsize : (g.newVar reg name).2.vars.size = g.vars.size + 1 := Array.size_push _
  refine ⟨rfl, rfl, Nat.le_refl _, by rw [hsize]; exact Nat.le_succ _, fun _ _ => rfl, fun v => ?_⟩
  rw [var_newVar]
  split
  · next hv =>
    subst hv
    exact .inr ⟨Nat.le_refl _, rfl⟩
  · exact .inl rfl

/-- A copy of a register site is free and reads the same variable. -/
theorem wired_duplicate (h : g.Wired P F U) {s : SiteId} (hs : g.Holds s) :
    (g.duplicate s).2.Wired P F U ∧ (g.duplicate s).2.Free (g.duplicate s).1 :=
  ⟨wired_newSite h rfl fun v hv => h.names.var s v hs (varOf?_eq_some.mpr hv), free_newSite h rfl⟩

theorem extended_duplicate (s : SiteId) : Extended g (g.duplicate s).2 := extended_newSite _

theorem wired_duplicateWith (h : g.Wired P F U) (s : SiteId) {v : VarId} (hv : v.index < g.vars.size) :
    (g.duplicateWith s v).2.Wired P F U ∧ (g.duplicateWith s v).2.Free (g.duplicateWith s v).1 := by
  refine ⟨wired_newSite h rfl fun w hw => ?_, free_newSite h rfl⟩
  cases hw
  exact hv

theorem wired_newLit (h : g.Wired P F U) (value : Int) (t : Option Ty) :
    (g.newLit value t).2.Wired P F U ∧ (g.newLit value t).2.Free (g.newLit value t).1 :=
  ⟨wired_newSite h rfl fun _ hv => (by cases hv), free_newSite h rfl⟩

/-- A copy on a fresh variable is free, and can be made the definition of that variable. -/
theorem wired_duplicateFresh (h : g.Wired P F U) {s : SiteId} (hs : g.isRegister s = true) :
    ∃ w, (g.duplicateFresh s).2.Wired P F (insert w U) ∧
      (g.duplicateFresh s).2.Free (g.duplicateFresh s).1 ∧
      (g.duplicateFresh s).2.Defines (g.duplicateFresh s).1 w ∧
      Extended g (g.duplicateFresh s).2 := by
  obtain ⟨v, hv⟩ := Option.isSome_iff_exists.mp hs
  unfold duplicateFresh
  rw [hv]
  simp only
  have hsize : (g.newVar (g.var v).reg "").2.vars.size = g.vars.size + 1 := Array.size_push _
  have hnew := var_newVar (g := g) (g.var v).reg "" (g.newVar (g.var v).reg "").1
  have h₁ := wired_newVar h (g.var v).reg ""
  have hext := extended_newVar (g := g) (g.var v).reg ""
  have hlt : (g.newVar (g.var v).reg "").1.index < (g.newVar (g.var v).reg "").2.vars.size := by
    rw [hsize]
    exact Nat.lt_succ_self _
  generalize (g.newVar (g.var v).reg "").1 = w at h₁ hlt hnew ⊢
  generalize (g.newVar (g.var v).reg "").2 = g₁ at h₁ hlt hext hnew ⊢
  obtain ⟨h₂, hfree⟩ := wired_duplicateWith h₁ s hlt
  refine ⟨w, h₂, hfree, ⟨hfree.held, varOf?_eq_some.mpr ?_, hfree.not_arg h₂.slots, .inl ?_⟩,
    trans_of Extended hext (extended_newSite _)⟩
  · exact congrArg Site.operand ((site_newSite _ _).trans (if_pos rfl))
  · refine (congrArg Var.assign hnew).trans ?_
    rw [if_pos rfl]

theorem not_holds_duplicateFresh (s : SiteId) : ¬g.Holds (g.duplicateFresh s).1 := by
  unfold duplicateFresh
  split
  · exact Nat.lt_irrefl _
  · exact Nat.lt_irrefl _

/-! ## Building an instruction -/

theorem ArgAdded.free {i : InsnId} {s u : SiteId} (e : ArgAdded g i s g') (hu : g.Free u)
    (hus : u ≠ s) : g'.Free u := by
  refine ⟨?_, by rw [e.owner, if_neg hus, hu.owner], fun v => by rw [e.assign]; exact hu.assign v⟩
  rw [Holds, e.sites]
  exact hu.held

/-- Free sites have become the arguments of an instruction. -/
structure ArgsAdded (g : MethodGraph) (i : InsnId) (args : List SiteId) (g' : MethodGraph) : Prop where
  insn : ∀ j, g'.insn j =
    if j = i then { g.insn j with args := (g.insn j).args ++ args } else g.insn j
  owner : ∀ u, (g'.site u).owner = if u ∈ args then some i else (g.site u).owner
  varOf : ∀ u, g'.varOf? u = g.varOf? u
  assign : ∀ v, (g'.var v).assign = (g.var v).assign
  insns : g'.insns.size = g.insns.size
  sites : g'.sites.size = g.sites.size
  vars : g'.vars.size = g.vars.size
  blocks : g'.blocks = g.blocks

theorem wired_addArgs {i : InsnId} (args : List SiteId) (h : g.Wired P F U)
    (hi : i.index < g.insns.size) (hF : i ∈ F) (hop : (g.insn i).opcode ≠ .phi)
    (hfree : ∀ a ∈ args, g.Free a) (honce : args.Nodup) :
    (args.foldl (fun g s => g.addArg i s) g).Wired P F U ∧
      ArgsAdded g i args (args.foldl (fun g s => g.addArg i s) g) := by
  induction args generalizing g with
  | nil =>
    refine ⟨h, ⟨fun j => ?_, fun u => by simp, fun _ => rfl, fun _ => rfl, rfl, rfl, rfl, rfl⟩⟩
    split
    · next hj => simp
    · rfl
  | cons a args ih =>
    rw [List.foldl_cons]
    have ha := hfree a List.mem_cons_self
    obtain ⟨hnot, honce⟩ := List.nodup_cons.mp honce
    have e := argAdded_addArg h hi ha.held
    have h₁ := wired_addArg h hi hF ha hop
    generalize g.addArg i a = g₁ at e h₁ ⊢
    -- the other arguments are still free
    have hrest : ∀ b ∈ args, g₁.Free b := fun b hb =>
      e.free (hfree b (List.mem_cons_of_mem a hb)) fun heq => hnot (heq ▸ hb)
    obtain ⟨h₂, e₂⟩ := ih h₁ (e.insns ▸ hi) (by rw [(e.rest i).2.2.1]; exact hop) hrest honce
    refine ⟨h₂, ⟨fun j => ?_, fun u => ?_, fun u => ?_, fun v => ?_, ?_, ?_, ?_, ?_⟩⟩
    · rw [e₂.insn, e.insn]
      split
      · simp
      · rfl
    · rw [e₂.owner, e.owner]
      by_cases hu : u = a
      · simp [hu]
      · simp [hu]
    · rw [e₂.varOf, e.varOf]
    · rw [e₂.assign, e.assign]
    · rw [e₂.insns, e.insns]
    · rw [e₂.sites, e.sites]
    · rw [e₂.vars, e.vars]
    · rw [e₂.blocks, e.blocks]

/-- An instruction has been built from a description, and is in no block. -/
structure InsnBuilt (g : MethodGraph) (x : Insn) (r : Option SiteId) (args : List SiteId)
    (g' : MethodGraph) : Prop where
  insn : ∀ j, g'.insn j = if j = ⟨g.insns.size⟩ then { x with result := r, args := args } else g.insn j
  owner : ∀ u, (g'.site u).owner =
    if u ∈ args ∨ r = some u then some ⟨g.insns.size⟩ else (g.site u).owner
  varOf : ∀ u, g'.varOf? u = g.varOf? u
  assign : ∀ v, (g'.var v).assign = if r.bind g.varOf? = some v then r else (g.var v).assign
  insns : g'.insns.size = g.insns.size + 1
  sites : g'.sites.size = g.sites.size
  vars : g'.vars.size = g.vars.size
  blocks : g'.blocks = g.blocks

/-- The result that an instruction is built with: a site that can be made a definition, is no argument,
    and belongs to none but instructions under construction. -/
def Result (F : Set InsnId) (g : MethodGraph) (args : List SiteId) (r : Option SiteId) : Prop :=
  ∀ s, r = some s → s ∉ args ∧ (∃ v, g.Defines s v) ∧ ∀ j, (g.site s).owner = some j → j ∈ F

/-- The new instruction with its result, before the arguments. -/
theorem insnBuilt_of_result (h : g.Wired P F U) {x : Insn} (hx : Insn.Bare x) {r : Option SiteId}
    (hr : Result F g [] r) {V : Set VarId} (hU : ∀ v ∈ U, v ∈ V ∨ r.bind g.varOf? = some v) :
    ∃ g', g' = (if r.isSome then (g.newInsn x).2.setResult (g.newInsn x).1 r else (g.newInsn x).2) ∧
      g'.Wired P (insert ⟨g.insns.size⟩ F) V ∧ InsnBuilt g x r [] g' := by
  have hinsn := insn_newInsn (g := g) x
  have hsize : (g.newInsn x).2.insns.size = g.insns.size + 1 := Array.size_push _
  have h₁ := (wired_newInsn h hx).weaken (Set.subset_insert ⟨g.insns.size⟩ F) (Set.Subset.refl U)
  have hid : (g.newInsn x).1 = ⟨g.insns.size⟩ := rfl
  have hsame : (g.newInsn x).2.sites = g.sites ∧ (g.newInsn x).2.vars = g.vars ∧
      (g.newInsn x).2.blocks = g.blocks := ⟨rfl, rfl, rfl⟩
  generalize (g.newInsn x).2 = g₁ at hinsn hsize h₁ hsame ⊢
  rw [hid] at hinsn ⊢
  have hsite := site_congr hsame.1
  have hvarOf : ∀ u, g₁.varOf? u = g.varOf? u := fun u =>
    varOf?_congr (congrArg Site.operand (hsite u))
  have hvar : ∀ v, g₁.var v = g.var v := fun v => by rw [var, var, hsame.2.1]
  cases r with
  | none =>
    refine ⟨g₁, rfl, h₁.weaken (Set.Subset.refl _) fun v hv => ?_, fun j => ?_, fun u => ?_, hvarOf,
      fun v => ?_, hsize, by rw [hsame.1], by rw [hsame.2.1], hsame.2.2⟩
    · simpa using hU v hv
    · rw [hinsn, ← hx.result, ← hx.args]
    · simp [hsite]
    · simp [hvar]
  | some s =>
    obtain ⟨-, ⟨v, hdef⟩, htaken⟩ := hr s rfl
    have hold : (g₁.insn ⟨g.insns.size⟩).result = none := by rw [hinsn, if_pos rfl, hx.result]
    have hdef₁ : g₁.Defines s v := by
      refine ⟨?_, (hvarOf s).trans hdef.varOf, fun j => ?_, by rw [hvar]; exact hdef.assign⟩
      · rw [Holds, hsame.1]
        exact hdef.held
      · rw [hinsn]
        split
        · rw [hx.args]
          exact List.not_mem_nil
        · exact hdef.apart j
    have hlt : (⟨g.insns.size⟩ : InsnId).index < g₁.insns.size := by
      rw [hsize]
      exact Nat.lt_succ_self _
    have h₁' : g₁.Wired P (insert ⟨g.insns.size⟩ F) (insert v V) := by
      refine h₁.weaken (Set.Subset.refl _) fun w hw => ?_
      rcases hU w hw with hw | hw
      · exact Set.mem_insert_of_mem v hw
      · rw [Option.bind_some, hdef.varOf] at hw
        cases hw
        exact Set.mem_insert _ V
    have e := resultSet_setResult h₁ hlt hdef₁.held
    have h₂ := wired_setResult h₁' hlt hdef₁ (fun u hu => by rw [hold] at hu; cases hu)
      (fun u w hu => by rw [hold] at hu; cases hu)
      (fun j hj => Set.mem_insert_of_mem _ (htaken j (by rw [hsite] at hj; exact hj)))
      (.inl (Set.mem_insert _ F))
    refine ⟨g₁.setResult ⟨g.insns.size⟩ (some s), rfl, h₂, fun j => ?_, fun u => ?_, fun u => ?_,
      fun w => ?_, ?_, ?_, ?_, ?_⟩
    · rw [e.insn, hinsn, ← hx.args]
      split <;> rfl
    · rw [e.owner, hold, hsite]
      by_cases hu : u = s
      · simp [hu]
      · simp [hu, Ne.symm hu]
    · rw [e.varOf, hvarOf]
    · rw [e.var, hvarOf, hvar, Option.bind_some]
      split <;> rfl
    · rw [e.insns, hsize]
    · rw [e.sites, hsame.1]
    · rw [e.vars, hsame.2.1]
    · rw [e.blocks, hsame.2.2]

theorem buildInsn_eq (x : Insn) (r : Option SiteId) (args : List SiteId) :
    g.buildInsn x r args = (⟨g.insns.size⟩, (g.buildInsn x r args).2) := rfl

theorem wired_buildInsn (h : g.Wired P F U) {x : Insn} (hx : Insn.Bare x) (hop : x.opcode ≠ .phi)
    {r : Option SiteId} {args : List SiteId} (hr : Result F g args r)
    (hfree : ∀ a ∈ args, g.Free a) (honce : args.Nodup) {V : Set VarId}
    (hU : ∀ v ∈ U, v ∈ V ∨ r.bind g.varOf? = some v) :
    (g.buildInsn x r args).2.Wired P (insert ⟨g.insns.size⟩ F) V ∧
      InsnBuilt g x r args (g.buildInsn x r args).2 := by
  obtain ⟨g₁, hg₁, h₁, e₁⟩ := insnBuilt_of_result h hx
    (fun s hs => ⟨List.not_mem_nil, (hr s hs).2⟩) hU
  have hbuild : (g.buildInsn x r args).2 =
      args.foldl (fun g' s => g'.addArg ⟨g.insns.size⟩ s) g₁ := by
    rw [hg₁]
    rfl
  have hlt : (⟨g.insns.size⟩ : InsnId).index < g₁.insns.size := by
    rw [e₁.insns]
    exact Nat.lt_succ_self _
  have hnew : g₁.insn ⟨g.insns.size⟩ = { x with result := r, args := [] } := by
    rw [e₁.insn, if_pos rfl]
  -- the result is none of the arguments, so these are still free
  have hfree₁ : ∀ a ∈ args, g₁.Free a := by
    intro a ha
    have hne : r ≠ some a := fun hra => (hr a hra).1 ha
    obtain ⟨hheld, howner, hassign⟩ := hfree a ha
    refine ⟨?_, ?_, fun v => ?_⟩
    · rw [Holds, e₁.sites]
      exact hheld
    · rw [e₁.owner, if_neg (by simpa using hne), howner]
    · rw [e₁.assign]
      split
      · exact hne
      · exact hassign v
  obtain ⟨h₂, e₂⟩ := wired_addArgs args h₁ hlt (Set.mem_insert _ F)
    (by rw [hnew]; exact hop) hfree₁ honce
  rw [← hbuild] at h₂ e₂
  generalize (g.buildInsn x r args).2 = g₂ at h₂ e₂
  refine ⟨h₂, fun j => ?_, fun u => ?_, fun u => ?_, fun v => ?_, ?_, ?_, ?_, ?_⟩
  · rw [e₂.insn, e₁.insn]
    split
    · simp
    · rfl
  · rw [e₂.owner, e₁.owner]
    by_cases hu : u ∈ args
    · simp [hu]
    · simp [hu]
  · rw [e₂.varOf, e₁.varOf]
  · rw [e₂.assign, e₁.assign]
  · rw [e₂.insns, e₁.insns]
  · rw [e₂.sites, e₁.sites]
  · rw [e₂.vars, e₁.vars]
  · rw [e₂.blocks, e₁.blocks]

/-- The instruction is complete but for its place. -/
structure Loose (g : MethodGraph) (i : InsnId) : Prop where
  lt : i.index < g.insns.size
  block : (g.insn i).block = none
  owned : ∀ s, (g.insn i).result = some s → (g.site s).owner = some i

theorem InsnBuilt.loose {x : Insn} {r : Option SiteId} {args : List SiteId}
    (e : InsnBuilt g x r args g') (hx : Insn.Bare x) : g'.Loose ⟨g.insns.size⟩ := by
  refine ⟨by rw [e.insns]; exact Nat.lt_succ_self _, by rw [e.insn, if_pos rfl]; exact hx.block, ?_⟩
  intro s hs
  rw [e.insn, if_pos rfl] at hs
  rw [e.owner, if_pos (.inr hs)]

theorem SameLinks.loose {i : InsnId} (e : SameLinks g g') (hn : g'.insns.size = g.insns.size)
    (h : g.Loose i) : g'.Loose i := by
  refine ⟨by rw [hn]; exact h.lt, (e.place i).trans h.block, fun s hs => ?_⟩
  rw [(e.slots i).1] at hs
  rw [e.owner, h.owned s hs]

theorem Extended.loose {i : InsnId} (e : Extended g g') (hg : g.Slotted) (h : g.Loose i) :
    g'.Loose i := by
  refine ⟨by rw [e.insns]; exact h.lt, by rw [e.insn]; exact h.block, fun s hs => ?_⟩
  rw [e.insn] at hs
  rw [e.site s (hg.holds_result hs), h.owned s hs]

theorem ArgReplaced.loose {i j : InsnId} {old new : SiteId} {n : Nat}
    (e : ArgReplaced g i old new n g') (hg : g.Slotted) (hn : (g.insn i).args.idxOf? old = some n)
    (hs : g.Free new) (h : g.Loose j) (hji : j ≠ i) : g'.Loose j := by
  obtain ⟨hres, hblock, -⟩ := e.rest j
  refine ⟨by rw [e.insns]; exact h.lt, hblock.trans h.block, fun s hs' => ?_⟩
  have howner := h.owned s (hres ▸ hs')
  have hold : s ≠ old := by
    rintro rfl
    rw [hg.arg i s (mem_of_idxOf hn)] at howner
    exact hji (Option.some_inj.mp howner).symm
  have hnew : s ≠ new := by
    rintro rfl
    rw [hs.owner] at howner
    cases howner
  rw [e.owner, if_neg hold, if_neg hnew, howner]

/-- A loose instruction is put into a block. -/
theorem wired_place {i : InsnId} (h : g.Wired P (insert i F) U) (hi : g.Loose i) {b : BlockId}
    (hb : b.index < g.blocks.size) {n : Nat} (hn : n ≤ (g.block b).insns.length) :
    (g.insertAt b n i).Wired P F U ∧ InsnPlaced g b n i (g.insertAt b n i) :=
  ⟨wired_insertAt h hb hn hi.lt hi.block hi.owned, insnPlaced_insertAt hb n hi.lt⟩

theorem wired_insertBefore {i : InsnId} (anchor : InsnId) (h : g.Wired P (insert i F) U) (hi : g.Loose i)
    (ha : (g.insn anchor).block.isSome = true) : ∃ b n, (g.insertBefore anchor i).1 = true ∧
      (g.insertBefore anchor i).2.Wired P F U ∧ InsnPlaced g b n i (g.insertBefore anchor i).2 := by
  obtain ⟨b, n, heq, hb, hn⟩ := insertBefore_eq h.seats ha i
  rw [heq]
  exact ⟨b, n, rfl, wired_place h hi hb hn⟩

theorem wired_insertAfter {i : InsnId} (anchor : InsnId) (h : g.Wired P (insert i F) U) (hi : g.Loose i)
    (ha : (g.insn anchor).block.isSome = true) : ∃ b n, (g.insertAfter anchor i).1 = true ∧
      (g.insertAfter anchor i).2.Wired P F U ∧ InsnPlaced g b n i (g.insertAfter anchor i).2 := by
  obtain ⟨b, n, heq, hb, hn⟩ := insertAfter_eq h.seats ha i
  rw [heq]
  exact ⟨b, n, rfl, wired_place h hi hb hn⟩

/-! ## Replacing an instruction -/

/-- Sites have left the argument list of an instruction. -/
structure Released (g : MethodGraph) (args : List SiteId) (g' : MethodGraph) : Prop where
  insns : g'.insns = g.insns
  blocks : g'.blocks = g.blocks
  live : g'.live = g.live
  sites : g'.sites.size = g.sites.size
  vars : g'.vars.size = g.vars.size
  owner : ∀ u, (g'.site u).owner = if u ∈ args then none else (g.site u).owner
  varOf : ∀ u, g'.varOf? u = g.varOf? u
  rest : ∀ v, (g'.var v).assign = (g.var v).assign ∧ (g'.var v).phis = (g.var v).phis
  uses : ∀ v u, u ∈ (g'.var v).uses ↔ u ∈ (g.var v).uses ∧ u ∉ args
  usesOnce : ∀ v, (g'.var v).uses.Nodup

/-- What `release` asks for, so that an argument of an instruction that is no phi leaves cleanly. -/
structure Releasable (g : MethodGraph) (i : InsnId) (args : List SiteId) : Prop where
  opcode : (g.insn i).opcode ≠ .phi
  once : args.Nodup
  owner : ∀ u ∈ args, (g.site u).owner = some i
  names : ∀ u v, g.Holds u → g.varOf? u = some v → v.index < g.vars.size
  uses : ∀ v, ∀ u ∈ (g.var v).uses, g.varOf? u = some v
  usesOnce : ∀ v, (g.var v).uses.Nodup

theorem released_release {i : InsnId} {s : SiteId} (h : g.Releasable i [s]) :
    Released g [s] (g.release i s) := by
  have hheld := holds_of_owner (h.owner s List.mem_cons_self)
  have hvar := var_unlinkUse (fun v => h.names s v hheld) i
  obtain ⟨hinsns, hsites, hblocks, hlive, hvars⟩ := same_unlinkUse (g := g) i s
  unfold release
  generalize g.unlinkUse i s = g₁ at hvar hinsns hsites hblocks hlive hvars
  have hsite := site_congr hsites
  refine ⟨hinsns, hblocks, hlive, ?_, hvars, fun u => ?_, fun u => ?_, fun v => ?_, fun v u => ?_,
    fun v => ?_⟩
  · rw [size_updateSite, hsites]
  · rw [owner_set (by rw [Holds, hsites]; exact hheld), hsite]
    simp only [List.mem_singleton]
  · rw [varOf?_setOwner, varOf?_congr (congrArg Site.operand (hsite u))]
  · change (g₁.var v).assign = _ ∧ (g₁.var v).phis = _
    rw [hvar]
    split
    · simp [h.opcode]
    · exact ⟨rfl, rfl⟩
  · change u ∈ (g₁.var v).uses ↔ _
    rw [hvar, List.mem_singleton]
    split
    · rw [(h.usesOnce v).mem_erase_iff, and_comm]
    · next hv =>
      -- the site is among the uses of its own variable only
      refine ⟨fun hu => ⟨hu, ?_⟩, And.left⟩
      rintro rfl
      exact hv (h.uses v u hu)
  · change (g₁.var v).uses.Nodup
    rw [hvar]
    split
    · exact (h.usesOnce v).erase s
    · exact h.usesOnce v

theorem released_all {i : InsnId} (args : List SiteId) (h : g.Releasable i args) :
    Released g args (args.foldl
      (fun g s => if (g.site s).owner = some i then g.release i s else g) g) := by
  induction args generalizing g with
  | nil =>
    exact ⟨rfl, rfl, rfl, rfl, rfl, fun u => by simp, fun _ => rfl, fun _ => ⟨rfl, rfl⟩,
      fun v u => by simp, h.usesOnce⟩
  | cons s args ih =>
    obtain ⟨hnot, honce⟩ := List.nodup_cons.mp h.once
    rw [List.foldl_cons, if_pos (h.owner s List.mem_cons_self)]
    have e := released_release (s := s) ⟨h.opcode, List.nodup_singleton s,
      fun u hu => h.owner u (by simp_all), h.names, h.uses, h.usesOnce⟩
    generalize g.release i s = g₁ at e ⊢
    have h₁ : g₁.Releasable i args := by
      refine ⟨by rw [insn_congr e.insns]; exact h.opcode, honce, fun u hu => ?_, fun u v hu hv => ?_,
        fun v u hu => ?_, e.usesOnce⟩
      · have hus : u ≠ s := fun heq => hnot (heq ▸ hu)
        rw [e.owner, if_neg (by simpa using hus)]
        exact h.owner u (List.mem_cons_of_mem s hu)
      · rw [Holds, e.sites] at hu
        rw [e.vars]
        exact h.names u v hu (e.varOf u ▸ hv)
      · rw [e.varOf]
        exact h.uses v u ((e.uses v u).mp hu).1
    have e₂ := ih h₁
    refine ⟨e₂.insns.trans e.insns, e₂.blocks.trans e.blocks, e₂.live.trans e.live,
      e₂.sites.trans e.sites, e₂.vars.trans e.vars, fun u => ?_, fun u => (e₂.varOf u).trans (e.varOf u),
      fun v => ⟨(e₂.rest v).1.trans (e.rest v).1, (e₂.rest v).2.trans (e.rest v).2⟩, fun v u => ?_,
      e₂.usesOnce⟩
    · rw [e₂.owner, e.owner]
      by_cases hu : u ∈ args
      · simp [hu]
      · simp [hu]
    · rw [e₂.uses, e.uses]
      simp [and_assoc]

/-- An instruction has taken the place of another, which has given up its arguments. -/
structure InsnReplaced (g : MethodGraph) (old new : InsnId) (b : BlockId) (n : Nat)
    (g' : MethodGraph) : Prop where
  insn : ∀ j, g'.insn j =
    if j = old then { g.insn j with args := [], block := none }
    else if j = new then { g.insn j with block := some b } else g.insn j
  block : ∀ d, g'.block d =
    if d = b then { g.block d with insns := (g.block d).insns.set n new } else g.block d
  live : g'.live = g.live
  insns : g'.insns.size = g.insns.size
  blocks : g'.blocks.size = g.blocks.size
  sites : g'.sites.size = g.sites.size
  vars : g'.vars.size = g.vars.size
  owner : ∀ u, (g'.site u).owner = if u ∈ (g.insn old).args then none else (g.site u).owner
  varOf : ∀ u, g'.varOf? u = g.varOf? u
  rest : ∀ v, (g'.var v).assign = (g.var v).assign ∧ (g'.var v).phis = (g.var v).phis
  uses : ∀ v u, u ∈ (g'.var v).uses ↔ u ∈ (g.var v).uses ∧ u ∉ (g.insn old).args
  usesOnce : ∀ v, (g'.var v).uses.Nodup

/-- The arguments of a cleared instruction are still owned by it, and can leave. -/
theorem releasable_cleared (h : g.Wired P F U) {i : InsnId} (hi : i.index < g.insns.size)
    (hop : (g.insn i).opcode ≠ .phi) :
    (g.updateInsn i fun x => { x with args := [] }).Releasable i (g.insn i).args := by
  have hinsn := insn_set hi (fun x => { x with args := [] }) i
  rw [if_pos rfl] at hinsn
  refine ⟨?_, h.slots.once i, h.slots.arg i, h.names.var, fun v u hu => ?_, h.lists.usesOnce⟩
  · rw [hinsn]
    exact hop
  · exact ((h.lists.uses v u).mp hu).1

/-- One instruction takes the place of another. -/
theorem insn_changePlaces {old new : InsnId} (hold : old.index < g.insns.size)
    (hnew : new.index < g.insns.size) (hne : new ≠ old) (b : BlockId) (f : Block → Block) (j : InsnId) :
    (((g.updateBlock b f).updateInsn new fun x => { x with block := some b }).updateInsn old
      fun x => { x with block := none }).insn j =
    if j = old then { g.insn j with block := none }
    else if j = new then { g.insn j with block := some b } else g.insn j := by
  have hlt : old.index < ((g.updateBlock b f).updateInsn new
      fun x => { x with block := some b }).insns.size := by
    rw [updateInsn, Array.size_modify]
    exact hold
  have hset := insn_set (g := g.updateBlock b f) hnew (fun x => { x with block := some b }) j
  have hblock : (g.updateBlock b f).insn j = g.insn j := rfl
  rw [insn_set hlt, hset, hblock]
  by_cases hj : j = old
  · simp [hj, Ne.symm hne]
  · simp [hj]

theorem insnReplaced_replaceInsn (h : g.Wired P F U) {old new : InsnId}
    (hold : (g.insn old).block.isSome = true) (hop : (g.insn old).opcode ≠ .phi)
    (hnew : new.index < g.insns.size) (hne : new ≠ old) :
    ∃ b n, (g.block b).insns.idxOf? old = some n ∧ (g.insn old).block = some b ∧
      (g.replaceInsn old new).1 = true ∧ InsnReplaced g old new b n (g.replaceInsn old new).2 := by
  obtain ⟨b, n, hplace, hn, hb, hlt, -⟩ := h.seats.place? hold
  have hi := placed_lt hold
  refine ⟨b, n, hn, hb, by rw [replaceInsn, hplace], ?_⟩
  -- first the arguments leave, then the two instructions change places
  have hinsn₁ := insn_set hi fun x => { x with args := [] }
  have hsize₁ : (g.updateInsn old fun x => { x with args := [] }).insns.size = g.insns.size :=
    Array.size_modify
  have e := released_all _ (releasable_cleared h hi hop)
  unfold replaceInsn
  rw [hplace]
  simp only
  generalize (g.insn old).args.foldl
    (fun g s => if (g.site s).owner = some old then g.release old s else g)
    (g.updateInsn old fun x => { x with args := [] }) = g₂ at e ⊢
  have hinsns₂ : g₂.insns.size = g.insns.size := by rw [e.insns, hsize₁]
  refine ⟨fun j => ?_, fun d => ?_, e.live, ?_, ?_, e.sites, e.vars, e.owner, e.varOf, e.rest, e.uses,
    e.usesOnce⟩
  · rw [insn_changePlaces (hinsns₂ ▸ hi) (hinsns₂ ▸ hnew) hne, insn_congr e.insns, hinsn₁]
    by_cases hj : j = old
    · simp [hj]
    · simp [hj]
  · refine (block_set (g := g₂) (by rw [e.blocks]; exact hlt)
      (fun x => { x with insns := x.insns.set n new }) d).trans ?_
    rw [block, e.blocks]
    rfl
  · exact Array.size_modify.trans (Array.size_modify.trans hinsns₂)
  · refine Array.size_modify.trans ?_
    rw [e.blocks]
    rfl

section
variable {old new : InsnId} {b : BlockId} {n : Nat}

theorem InsnReplaced.args (e : InsnReplaced g old new b n g') (j : InsnId) :
    (g'.insn j).args = if j = old then [] else (g.insn j).args := by
  rw [e.insn]
  split
  · rfl
  · split <;> rfl

theorem InsnReplaced.code (e : InsnReplaced g old new b n g') (j : InsnId) :
    (g'.insn j).result = (g.insn j).result ∧ (g'.insn j).opcode = (g.insn j).opcode ∧
      (g'.insn j).incoming = (g.insn j).incoming := by
  rw [e.insn]
  split
  · exact ⟨rfl, rfl, rfl⟩
  · split <;> exact ⟨rfl, rfl, rfl⟩

theorem InsnReplaced.place (e : InsnReplaced g old new b n g') (j : InsnId) :
    (g'.insn j).block =
      if j = old then none else if j = new then some b else (g.insn j).block := by
  rw [e.insn]
  split
  · rfl
  · split <;> rfl

theorem slotted_replaceInsn (h : g.Slotted) (e : InsnReplaced g old new b n g') : g'.Slotted := by
  have hargs := e.args
  have hres := fun j => (e.code j).1
  have howner := e.owner
  have hvarOf := e.varOf
  have hassign' := fun v => (e.rest v).1
  have hsites := e.sites
  obtain ⟨harg, honce, howned, hresult, hassign⟩ := h
  constructor
  · grind
  · grind
  · grind
  · grind
  · grind [Holds]

theorem listed_replaceInsn (h : g.Listed) (hsl : g.Slotted) (e : InsnReplaced g old new b n g')
    (hop : (g.insn old).opcode ≠ .phi) : g'.Listed := by
  have hargs := e.args
  have hcode := fun j => (e.code j).2.1
  have hphis' := fun v => (e.rest v).2
  have harg := hsl.arg
  obtain ⟨huses, honce, hphis, honce'⟩ := h
  refine ⟨fun v u => ?_, e.usesOnce, fun v i => ?_, fun v => ?_⟩
  · have := e.uses v u
    rw [e.varOf]
    grind
  · have := e.varOf
    grind
  · rw [hphis']
    exact honce' v

theorem seated_replaceInsn (h : g.Seated) (e : InsnReplaced g old new b n g')
    (hn : (g.block b).insns.idxOf? old = some n) (hold : (g.insn old).block = some b)
    (hop : (g.insn old).opcode ≠ .phi) (hnew : (g.insn new).block = none) : g'.Seated := by
  have hplace := e.place
  have hcode := e.code
  have hne : new ≠ old := by
    rintro rfl
    rw [hold] at hnew
    cases hnew
  have hmem : ∀ i, i ∈ (g.block b).insns.set n new ↔ i = new ∨ (i ∈ (g.block b).insns ∧ i ≠ old) :=
    fun _ => mem_set_idxOf (h.once b) hn
  have hout : ∀ d, new ∉ (g.block d).insns := by
    intro d hd
    rw [(h.block new d).mp hd] at hnew
    cases hnew
  constructor
  · intro i d
    have := h.block i d
    rw [e.block, hplace]
    grind
  · intro d
    rw [e.block]
    split
    · exact (h.once d).set (hout d)
    · exact h.once d
  · intro d
    rw [e.blocks, e.block]
    have := h.preds d
    split
    · exact this
    · exact this
  · intro i
    rw [e.blocks, (hcode i).2.2]
    exact h.incoming i
  · intro i hi
    rw [(hcode i).2.1] at hi
    have hio : i ≠ old := fun heq => hop (heq ▸ hi)
    rw [(hcode i).2.2, e.args, if_neg hio]
    exact h.paired i hi

end

/-- The replaced instruction must have lost its result before, to the new one or another. -/
theorem wired_replaceInsn {old new : InsnId} (h : g.Wired P (insert new (insert old F)) U)
    (hold : (g.insn old).block.isSome = true) (hop : (g.insn old).opcode ≠ .phi)
    (hres : ∀ s, (g.insn old).result = some s → (g.site s).owner ≠ some old) (hnew : g.Loose new) :
    (g.replaceInsn old new).2.Wired P F U := by
  have hne : new ≠ old := by
    rintro rfl
    rw [hnew.block] at hold
    cases hold
  obtain ⟨b, n, hn, hb, -, e⟩ := insnReplaced_replaceInsn h hold hop hnew.lt hne
  generalize (g.replaceInsn old new).2 = g' at e
  -- results are no arguments, so their owners stay
  have howner : ∀ {i s}, (g.insn i).result = some s → (g'.site s).owner = (g.site s).owner := by
    intro i s hs
    obtain ⟨v, -, hv⟩ := h.slots.result i s hs
    rw [e.owner, if_neg ((h.slots.assign v s hv).2.2 old)]
  refine ⟨slotted_replaceInsn h.slots e, listed_replaceInsn h.lists h.slots e hop,
    seated_replaceInsn h.seats e hn hb hop hnew.block, h.names.congr e.live e.vars e.sites e.varOf,
    fun i hi => ?_, fun v hv hU => ?_⟩
  · by_cases hio : i = old
    · subst hio
      refine ⟨fun _ => by rw [e.args, if_pos rfl], fun s hs => ?_⟩
      rw [(e.code i).1] at hs
      rw [howner hs, e.place, if_pos rfl]
      simpa using hres s hs
    · by_cases hin : i = new
      · subst hin
        refine ⟨fun hnone => ?_, fun s hs => ?_⟩
        · rw [e.place, if_neg hio, if_pos rfl] at hnone
          cases hnone
        · rw [(e.code i).1] at hs
          rw [howner hs, e.place, if_neg hio, if_pos rfl, hnew.owned s hs]
          simp
      · refine (h.tight i (by simp [hio, hin, hi])).congr ?_ ⟨(e.code i).1, ?_⟩ fun s hs => ?_
        · rw [e.place, if_neg hio, if_neg hin]
        · rw [e.args, if_neg hio]
        · rw [howner hs]
  · refine (h.defined v (e.vars ▸ hv) hU).congr (e.rest v).1 fun s hs hnone => ?_
    rwa [e.owner, if_neg ((h.slots.assign v s hs).2.2 old)] at hnone

/-! ## Copying an instruction -/

/-- Sites and variables were added and one instruction was written; what was there reads the same. -/
structure Grown (i : InsnId) (g g' : MethodGraph) : Prop where
  insns : g'.insns.size = g.insns.size
  blocks : g'.blocks = g.blocks
  sites : g.sites.size ≤ g'.sites.size
  insn : ∀ j, j ≠ i → g'.insn j = g.insn j
  self : (g'.insn i).block = (g.insn i).block ∧ (g'.insn i).opcode = (g.insn i).opcode ∧
    (g'.insn i).result = (g.insn i).result
  varOf : ∀ s, g.Holds s → g'.varOf? s = g.varOf? s

instance (i : InsnId) : IsPreorder MethodGraph (Grown i) where
  refl _ := ⟨rfl, rfl, Nat.le_refl _, fun _ _ => rfl, ⟨rfl, rfl, rfl⟩, fun _ _ => rfl⟩
  trans g₁ g₂ g₃ h h' := by
    obtain ⟨hb, ho, hr⟩ := h.self
    obtain ⟨hb', ho', hr'⟩ := h'.self
    refine ⟨h'.insns.trans h.insns, h'.blocks.trans h.blocks, Nat.le_trans h.sites h'.sites,
      fun j hj => (h'.insn j hj).trans (h.insn j hj), ⟨hb'.trans hb, ho'.trans ho, hr'.trans hr⟩,
      fun s hs => ?_⟩
    exact (h'.varOf s (Nat.lt_of_lt_of_le hs h.sites)).trans (h.varOf s hs)

theorem Extended.grown (h : Extended g g') (i : InsnId) : Grown i g g' :=
  ⟨by rw [h.insns], h.blocks, h.sites, fun j _ => h.insn j, by rw [h.insn]; exact ⟨rfl, rfl, rfl⟩,
    fun _ => h.varOf⟩

theorem ArgAdded.grown {i : InsnId} {s : SiteId} (e : ArgAdded g i s g') : Grown i g g' := by
  obtain ⟨hres, hblock, hop, -⟩ := e.rest i
  exact ⟨e.insns, e.blocks, Nat.le_of_eq e.sites.symm, fun j hj => by rw [e.insn, if_neg hj],
    ⟨hblock, hop, hres⟩, fun s _ => e.varOf s⟩

/-- An instruction takes copies of the arguments of another. -/
theorem wired_copyArgs {i : InsnId} (args : List SiteId) (h : g.Wired P F U)
    (hi : i.index < g.insns.size) (hF : i ∈ F) (hop : (g.insn i).opcode ≠ .phi)
    (hargs : ∀ a ∈ args, g.Holds a) :
    (args.foldl (fun g s => (g.duplicate s).2.addArg i (g.duplicate s).1) g).Wired P F U ∧
      Grown i g (args.foldl (fun g s => (g.duplicate s).2.addArg i (g.duplicate s).1) g) := by
  induction args generalizing g with
  | nil => exact ⟨h, refl_of (Grown i) g⟩
  | cons a args ih =>
    rw [List.foldl_cons]
    obtain ⟨h₁, hfree⟩ := wired_duplicate h (hargs a List.mem_cons_self)
    have hext := extended_duplicate (g := g) a
    generalize (g.duplicate a).1 = d at h₁ hfree hext ⊢
    generalize (g.duplicate a).2 = g₁ at h₁ hfree hext ⊢
    have hi₁ : i.index < g₁.insns.size := hext.insns ▸ hi
    have hop₁ : (g₁.insn i).opcode ≠ .phi := by rwa [hext.insn]
    have h₂ := wired_addArg h₁ hi₁ hF hfree hop₁
    have hgrown := trans_of (Grown i) (hext.grown i) (argAdded_addArg h₁ hi₁ hfree.held).grown
    generalize g₁.addArg i d = g₂ at h₂ hgrown ⊢
    obtain ⟨h₃, hrest⟩ := ih h₂ (hgrown.insns ▸ hi) (by rwa [hgrown.self.2.1])
      fun b hb => Nat.lt_of_lt_of_le (hargs b (List.mem_cons_of_mem a hb)) hgrown.sites
    exact ⟨h₃, trans_of (Grown i) hgrown hrest⟩

/-- A copy of a result is made the result of an instruction under construction that has none. -/
theorem wired_copyResult {i : InsnId} {r : SiteId} (h : g.Wired P F U) (hi : i.index < g.insns.size)
    (hF : i ∈ F) (hnone : (g.insn i).result = none) (hr : g.isRegister r = true) :
    ((g.duplicateFresh r).2.setResult i (some (g.duplicateFresh r).1)).Wired P F U ∧
      ResultSet (g.duplicateFresh r).2 i (g.duplicateFresh r).1
        ((g.duplicateFresh r).2.setResult i (some (g.duplicateFresh r).1)) := by
  obtain ⟨w, h₁, hfree, hdef, hext⟩ := wired_duplicateFresh h hr
  generalize (g.duplicateFresh r).1 = d at h₁ hfree hdef ⊢
  generalize (g.duplicateFresh r).2 = g₁ at h₁ hfree hdef hext ⊢
  have hi₁ : i.index < g₁.insns.size := hext.insns ▸ hi
  have hnone₁ : (g₁.insn i).result = none := by rw [hext.insn, hnone]
  refine ⟨wired_setResult h₁ hi₁ hdef ?_ ?_ ?_ (.inl hF), resultSet_setResult h₁ hi₁ hdef.held⟩
  · intro u hu
    rw [hnone₁] at hu
    cases hu
  · intro u _ hu
    rw [hnone₁] at hu
    cases hu
  · intro j hj
    rw [hfree.owner] at hj
    cases hj

theorem copyFresh_eq (i : InsnId) : ∃ x : Insn, Insn.Bare x ∧ x.opcode = (g.insn i).opcode ∧
    ∃ g₁, g₁ = (g.insn i).args.foldl
        (fun g' s => (g'.duplicate s).2.addArg ⟨g.insns.size⟩ (g'.duplicate s).1)
      (g.newInsn x).2 ∧
    g.copyFresh i = (⟨g.insns.size⟩, match (g.insn i).result with
      | none => g₁
      | some r => (g₁.duplicateFresh r).2.setResult ⟨g.insns.size⟩ (some (g₁.duplicateFresh r).1)) := by
  refine ⟨{ g.insn i with result := none, args := [], block := none, incoming := [] },
    ⟨rfl, rfl, rfl, rfl⟩, rfl, _, rfl, ?_⟩
  unfold copyFresh
  simp only
  cases (g.insn i).result with
  | none => rfl
  | some r => rfl

/-- A copy is linked to arguments and a variable of its own, and has no place yet. -/
theorem wired_copyFresh (h : g.Wired P F U) {i : InsnId} (hop : (g.insn i).opcode ≠ .phi) :
    (g.copyFresh i).1 = ⟨g.insns.size⟩ ∧ (g.copyFresh i).2.Wired P (insert ⟨g.insns.size⟩ F) U ∧
      (g.copyFresh i).2.Loose ⟨g.insns.size⟩ ∧ (g.copyFresh i).2.blocks = g.blocks ∧
      ∀ j, j.index < g.insns.size → (g.copyFresh i).2.insn j = g.insn j := by
  obtain ⟨x, hx, hcode, g₁, hg₁, hcopy⟩ := copyFresh_eq (g := g) i
  rw [hcopy]
  -- the new instruction
  have hinsn := insn_newInsn (g := g) x
  have hsize : (g.newInsn x).2.insns.size = g.insns.size + 1 := Array.size_push _
  have h₀ := (wired_newInsn h hx).weaken (Set.subset_insert ⟨g.insns.size⟩ F) (Set.Subset.refl U)
  have hid : (g.newInsn x).1 = ⟨g.insns.size⟩ := rfl
  have hsame : (g.newInsn x).2.sites = g.sites ∧ (g.newInsn x).2.blocks = g.blocks := ⟨rfl, rfl⟩
  generalize (g.newInsn x).2 = g₀ at hinsn hsize h₀ hsame hg₁
  rw [hid] at hinsn
  have hnew : g₀.insn ⟨g.insns.size⟩ = x := by rw [hinsn, if_pos rfl]
  have hlt : (⟨g.insns.size⟩ : InsnId).index < g₀.insns.size := by
    rw [hsize]
    exact Nat.lt_succ_self _
  -- its arguments
  obtain ⟨h₁, hgrown⟩ := wired_copyArgs (g.insn i).args h₀ hlt (Set.mem_insert _ F)
    (by rw [hnew, hcode]; exact hop) (fun a ha => by
      rw [Holds, hsame.1]
      exact h.slots.holds_arg ha)
  rw [← hg₁] at h₁ hgrown
  have hnone : (g₁.insn ⟨g.insns.size⟩).result = none := by rw [hgrown.self.2.2, hnew, hx.result]
  have hplace : (g₁.insn ⟨g.insns.size⟩).block = none := by rw [hgrown.self.1, hnew, hx.block]
  have hlt₁ : (⟨g.insns.size⟩ : InsnId).index < g₁.insns.size := hgrown.insns ▸ hlt
  have hold : ∀ j, j.index < g.insns.size → g₁.insn j = g.insn j := by
    intro j hj
    have hne : j ≠ ⟨g.insns.size⟩ := fun heq => Nat.lt_irrefl _ (congrArg InsnId.index heq ▸ hj)
    rw [hgrown.insn j hne, hinsn, if_neg hne]
  have hblocks : g₁.blocks = g.blocks := hgrown.blocks.trans hsame.2
  refine ⟨rfl, ?_⟩
  cases hr : (g.insn i).result with
  | none => exact ⟨h₁, ⟨hlt₁, hplace, fun s hs => by rw [hnone] at hs; cases hs⟩, hblocks, hold⟩
  | some r =>
    -- and its result
    have hreg : g₁.isRegister r = true := by
      obtain ⟨v, hv, -⟩ := h.slots.result i r hr
      have hheld : g₀.Holds r := by
        rw [Holds, hsame.1]
        exact h.slots.holds_result hr
      rw [isRegister, hgrown.varOf r hheld,
        varOf?_congr (congrArg Site.operand (site_congr hsame.1 r)), hv]
      rfl
    obtain ⟨-, -, -, -, hext⟩ := wired_duplicateFresh h₁ hreg
    obtain ⟨h₂, e⟩ := wired_copyResult h₁ hlt₁ (Set.mem_insert _ F) hnone hreg
    refine ⟨h₂, ⟨?_, ?_, fun s hs => ?_⟩, ?_, fun j hj => ?_⟩
    · rw [e.insns, hext.insns]
      exact hlt₁
    · rw [e.insn, if_pos rfl, hext.insn]
      exact hplace
    · rw [e.insn, if_pos rfl] at hs
      cases hs
      rw [e.owner, if_pos rfl]
    · rw [e.blocks, hext.blocks, hblocks]
    · have hne : j ≠ ⟨g.insns.size⟩ := fun heq => Nat.lt_irrefl _ (congrArg InsnId.index heq ▸ hj)
      rw [e.insn, if_neg hne, hext.insn, hold j hj]

end
end TypeRecovery.MethodGraph
