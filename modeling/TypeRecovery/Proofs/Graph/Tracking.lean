import TypeRecovery.Proofs.Graph.Construction

/- The lists that variables keep of their uses and of the phis that read them, under edits in any order.
   Nothing is asked of the graph here but that its arguments have one owner each: instructions may stand
   nowhere or twice, variables may be defined again or not at all. An edit writes the arguments first and
   the lists afterwards. In between, some new arguments of one instruction are not yet listed and some
   that left it still are; `Tracked i N D` says that the lists are right up to these. Entering a use
   takes a site out of `N` and taking out a use takes one out of `D`, so every edit comes to an end with
   nothing pending. -/
namespace TypeRecovery.MethodGraph

/-! ## Versions -/

/-- The registers of all variables with their versions, in the order of creation. -/
def numbers (g : MethodGraph) : List (Int × Nat) := g.vars.toList.map fun x => (x.reg, x.version)

/-- No version of a register is given out twice, and all are below the number of those given out. -/
structure Numbered (l : List (Int × Nat)) : Prop where
  once : l.Nodup
  below : ∀ e ∈ l, e.2 < l.countP (·.1 == e.1)

section
variable {g : MethodGraph}

theorem Numbered.next {l : List (Int × Nat)} (h : Numbered l) (reg : Int) :
    Numbered (l ++ [(reg, l.countP (·.1 == reg))]) := by
  have hnew : (reg, l.countP (·.1 == reg)) ∉ l := by
    intro hmem
    have hlt := h.below _ hmem
    simp at hlt
  constructor
  · exact h.once.append (List.nodup_singleton _) (by simpa using hnew)
  · intro e he
    rw [List.countP_append]
    rcases List.mem_append.mp he with he | he
    · have hlt := h.below e he
      omega
    · rw [List.mem_singleton.mp he]
      simp

theorem versionsOf_eq (reg : Int) : g.versionsOf reg = g.numbers.countP (·.1 == reg) := by
  rw [versionsOf, numbers, List.countP_map]
  rfl

theorem numbers_newVar (reg : Int) (name : String) : (g.newVar reg name).2.numbers =
    g.numbers ++ [(reg, g.numbers.countP (·.1 == reg))] := by
  rw [← versionsOf_eq]
  simp [numbers, newVar]

theorem numbers_updateVar (v : VarId) {f : Var → Var}
    (hf : ∀ x, (f x).reg = x.reg ∧ (f x).version = x.version) :
    (g.updateVar v f).numbers = g.numbers := by
  refine List.ext_getElem (by simp [numbers, updateVar]) fun n hn hn' => ?_
  simp only [numbers, updateVar, Array.toList_modify, List.getElem_map, List.getElem_modify]
  split
  · rw [(hf _).1, (hf _).2]
  · rfl

/-- A register and a version belong to one variable. -/
theorem eq_of_numbered (h : Numbered g.numbers) {v w : VarId} (hv : v.index < g.vars.size)
    (hw : w.index < g.vars.size) (hreg : (g.var v).reg = (g.var w).reg)
    (hversion : (g.var v).version = (g.var w).version) : v = w := by
  obtain ⟨n⟩ := v
  obtain ⟨m⟩ := w
  have hlen : g.numbers.length = g.vars.size := by simp [numbers]
  have hat : ∀ k (hk : k < g.vars.size),
      g.numbers[k] = ((g.var ⟨k⟩).reg, (g.var ⟨k⟩).version) := by
    intro k hk
    simp [numbers, var, hk]
  have heq : g.numbers[n] = g.numbers[m] := by
    rw [hat n hv, hat m hw, hreg, hversion]
  exact congrArg VarId.mk ((List.Nodup.getElem_inj_iff h.once).mp heq)

end

/-! ## Lists up to what is pending -/

/-- Every argument belongs to the instruction that lists it, results are no arguments, and sites read
    variables of the table. -/
structure Arranged (g : MethodGraph) : Prop where
  arg : ∀ j, ∀ s ∈ (g.insn j).args, (g.site s).owner = some j
  once : ∀ j, (g.insn j).args.Nodup
  result : ∀ j s, (g.insn j).result = some s → g.Holds s ∧ ∀ k, s ∉ (g.insn k).args
  reads : ∀ s v, g.Holds s → g.varOf? s = some v → v.index < g.vars.size
  numbered : Numbered g.numbers

/-- The lists of uses and phis follow the arguments, except that the arguments `N` of the instruction
    are not yet listed, and the sites `D`, which it has given up, still are. -/
structure Tracked (i : InsnId) (N D : List SiteId) (g : MethodGraph) : Prop where
  arranged : g.Arranged
  new : N.Nodup ∧ ∀ s ∈ N, s ∈ (g.insn i).args
  gone : D.Nodup ∧ ∀ s ∈ D, g.Holds s ∧ ∀ j, s ∉ (g.insn j).args
  uses : ∀ v s, s ∈ (g.var v).uses ↔
    g.varOf? s = some v ∧ ((∃ j, s ∈ (g.insn j).args ∧ s ∉ N) ∨ s ∈ D)
  usesOnce : ∀ v, (g.var v).uses.Nodup
  /-- A phi is listed as long as an input reads the variable, and may be as long as one that it has
      given up does. -/
  phiArg : ∀ j s v, (g.insn j).opcode = .phi → s ∈ (g.insn j).args → s ∉ N → g.varOf? s = some v →
    j ∈ (g.var v).phis
  phis : ∀ v, ∀ j ∈ (g.var v).phis, (g.insn j).opcode = .phi ∧
    ∃ s, g.varOf? s = some v ∧ (s ∈ (g.insn j).args ∨ (j = i ∧ s ∈ D))
  phisOnce : ∀ v, (g.var v).phis.Nodup

section
variable {g g' : MethodGraph} {i : InsnId} {s : SiteId} {N D : List SiteId}

theorem Arranged.holds (h : g.Arranged) {j : InsnId} (hs : s ∈ (g.insn j).args) : g.Holds s :=
  holds_of_owner (h.arg j s hs)

theorem Arranged.owner_eq (h : g.Arranged) {j k : InsnId} (hj : s ∈ (g.insn j).args)
    (hk : s ∈ (g.insn k).args) : j = k := by
  have howner := h.arg j s hj
  rw [h.arg k s hk] at howner
  exact (Option.some_inj.mp howner).symm

theorem Arranged.congr (h : g.Arranged)
    (hslots : ∀ j, (g'.insn j).args = (g.insn j).args ∧ (g'.insn j).result = (g.insn j).result)
    (howner : ∀ j, ∀ s ∈ (g.insn j).args, (g'.site s).owner = (g.site s).owner)
    (hvarOf : ∀ s, g'.varOf? s = g.varOf? s) (hsites : g'.sites.size = g.sites.size)
    (hvars : g'.vars.size = g.vars.size) (hnumbers : g'.numbers = g.numbers) : g'.Arranged := by
  have hheld : ∀ s, g'.Holds s ↔ g.Holds s := fun s => by rw [Holds, Holds, hsites]
  obtain ⟨harg, honce, hresult, hreads, hnumbered⟩ := h
  constructor
  · grind
  · grind
  · grind
  · intro s v hs
    rw [hvarOf, hvars]
    exact hreads s v ((hheld s).mp hs)
  · rw [hnumbers]
    exact hnumbered

/-- What is read of the instructions, the sites and the lists is the same. -/
theorem Tracked.congr (h : Tracked i N D g) (ha : g'.Arranged)
    (hinsn : ∀ j, (g'.insn j).args = (g.insn j).args ∧ (g'.insn j).opcode = (g.insn j).opcode)
    (hvarOf : ∀ s, g'.varOf? s = g.varOf? s) (hsites : g'.sites.size = g.sites.size)
    (hlists : ∀ v, (g'.var v).uses = (g.var v).uses ∧ (g'.var v).phis = (g.var v).phis) :
    Tracked i N D g' := by
  obtain ⟨-, hnew, hgone, huses, husesOnce, hphiArg, hphis, hphisOnce⟩ := h
  refine ⟨ha, ?_, ?_, ?_, ?_, ?_, ?_, ?_⟩
  · grind
  · grind [Holds]
  · grind
  · grind
  · grind
  · grind
  · grind

/-- With nothing pending, it does not matter for which instruction. -/
theorem Tracked.elsewhere (h : Tracked i [] [] g) (j : InsnId) : Tracked j [] [] g :=
  { h with
    new := ⟨List.nodup_nil, fun s hs => (by cases hs)⟩
    phis := fun v k hk => by simpa using h.phis v k hk }

/-! ## Entering and taking out a use -/

theorem numbers_linkUse (i : InsnId) (s : SiteId) : (g.linkUse i s).numbers = g.numbers := by
  unfold linkUse
  split
  · rfl
  · exact numbers_updateVar _ fun x => ⟨rfl, rfl⟩

theorem numbers_unlinkUse (i : InsnId) (s : SiteId) : (g.unlinkUse i s).numbers = g.numbers := by
  unfold unlinkUse
  split
  · rfl
  · exact numbers_updateVar _ fun x => ⟨rfl, rfl⟩

/-- A write of variables that leaves their numbers alone. -/
theorem Arranged.relisted (h : g.Arranged) (hinsns : g'.insns = g.insns) (hsites : g'.sites = g.sites)
    (hvars : g'.vars.size = g.vars.size) (hnumbers : g'.numbers = g.numbers) : g'.Arranged := by
  refine h.congr (fun j => ?_) (fun _ s _ => ?_) (fun s => ?_) (by rw [hsites]) hvars hnumbers
  · rw [insn_congr hinsns]
    exact ⟨rfl, rfl⟩
  · rw [site_congr hsites]
  · exact varOf?_congr (congrArg Site.operand (site_congr hsites s))

theorem tracked_linkUse (h : Tracked i (s :: N) D g) : Tracked i N D (g.linkUse i s) := by
  have hin : s ∈ (g.insn i).args := h.new.2 s List.mem_cons_self
  obtain ⟨hnotN, honceN⟩ := List.nodup_cons.mp h.new.1
  have hvar := var_linkUse (fun v => h.arranged.reads s v (h.arranged.holds hin)) i
  obtain ⟨hinsns, hsites, -, -, hvars⟩ := same_linkUse (g := g) i s
  have ha := h.arranged.relisted hinsns hsites hvars (numbers_linkUse i s)
  generalize g.linkUse i s = g' at hvar hinsns hsites hvars ha
  have hinsn := insn_congr hinsns
  have hvarOf : ∀ u, g'.varOf? u = g.varOf? u := fun u =>
    varOf?_congr (congrArg Site.operand (site_congr hsites u))
  have hone : ∀ j, s ∈ (g.insn j).args → j = i := fun j hj => h.arranged.owner_eq hj hin
  have hunlisted : ∀ v, s ∉ (g.var v).uses := by
    intro v hv
    rcases ((h.uses v s).mp hv).2 with ⟨j, -, hj⟩ | hgone
    · exact hj List.mem_cons_self
    · exact (h.gone.2 s hgone).2 i hin
  obtain ⟨-, hnew, hgone, huses, husesOnce, hphiArg, hphis, hphisOnce⟩ := h
  simp only [List.mem_cons, not_or] at huses hphiArg
  refine ⟨ha, ?_, ?_, ?_, ?_, ?_, ?_, ?_⟩
  · simp only [hinsn]
    exact ⟨honceN, fun u hu => hnew.2 u (List.mem_cons_of_mem s hu)⟩
  · simpa only [hinsn, Holds, hsites] using hgone
  · intro v u
    rw [hvarOf, hvar]
    grind
  · intro v
    rw [hvar]
    grind
  · intro j u v
    rw [hinsn, hvarOf, hvar]
    grind
  · intro v j
    rw [hinsn, hvar]
    simp only [hvarOf]
    grind
  · intro v
    rw [hvar]
    grind

/-- A phi leaves the list when no input reads the variable any more. That may be before the last of the
    pending sites is taken out. -/
theorem tracked_unlinkUse (h : Tracked i N (s :: D) g) : Tracked i N D (g.unlinkUse i s) := by
  obtain ⟨hheld, hout⟩ := h.gone.2 s List.mem_cons_self
  obtain ⟨hnotD, honceD⟩ := List.nodup_cons.mp h.gone.1
  have hvar := var_unlinkUse (fun v => h.arranged.reads s v hheld) i
  obtain ⟨hinsns, hsites, -, -, hvars⟩ := same_unlinkUse (g := g) i s
  have ha := h.arranged.relisted hinsns hsites hvars (numbers_unlinkUse i s)
  generalize g.unlinkUse i s = g' at hvar hinsns hsites hvars ha
  have hinsn := insn_congr hinsns
  have hvarOf : ∀ u, g'.varOf? u = g.varOf? u := fun u =>
    varOf?_congr (congrArg Site.operand (site_congr hsites u))
  obtain ⟨-, hnew, hgone, huses, husesOnce, hphiArg, hphis, hphisOnce⟩ := h
  have herase : ∀ v u, u ∈ (g.var v).uses.erase s ↔ u ≠ s ∧ u ∈ (g.var v).uses :=
    fun v u => (husesOnce v).mem_erase_iff
  have herasePhi : ∀ v j, j ∈ (g.var v).phis.erase i ↔ j ≠ i ∧ j ∈ (g.var v).phis :=
    fun v j => (hphisOnce v).mem_erase_iff
  simp only [List.mem_cons] at huses hphis
  refine ⟨ha, ?_, ?_, ?_, ?_, ?_, ?_, ?_⟩
  · simpa only [hinsn] using hnew
  · simp only [hinsn, Holds, hsites]
    exact ⟨honceD, fun u hu => hgone.2 u (List.mem_cons_of_mem s hu)⟩
  · intro v u
    rw [hvarOf, hvar]
    grind
  · intro v
    rw [hvar]
    split
    · exact (husesOnce v).erase s
    · exact husesOnce v
  · intro j u v
    rw [hinsn, hvarOf, hvar]
    grind
  · intro v j
    rw [hinsn, hvar]
    simp only [hvarOf]
    grind
  · intro v
    rw [hvar]
    split
    · simp only
      split
      · exact (hphisOnce v).erase i
      · exact hphisOnce v
    · exact hphisOnce v

/-! ## Writes beside the lists -/

theorem tracked_updateInsn (h : Tracked i N D g) (j : InsnId) {f : Insn → Insn}
    (hf : ∀ x, (f x).args = x.args ∧ (f x).result = x.result ∧ (f x).opcode = x.opcode) :
    Tracked i N D (g.updateInsn j f) := by
  have hinsn : ∀ k, ((g.updateInsn j f).insn k).args = (g.insn k).args ∧
      ((g.updateInsn j f).insn k).result = (g.insn k).result ∧
      ((g.updateInsn j f).insn k).opcode = (g.insn k).opcode := by
    intro k
    rw [insn_updateInsn]
    split
    · exact hf _
    · exact ⟨rfl, rfl, rfl⟩
  refine h.congr ?_ (fun k => ⟨(hinsn k).1, (hinsn k).2.2⟩) (fun _ => rfl) rfl fun _ => ⟨rfl, rfl⟩
  exact h.arranged.congr (fun k => ⟨(hinsn k).1, (hinsn k).2.1⟩) (fun _ _ _ => rfl) (fun _ => rfl)
    rfl rfl rfl

theorem tracked_updateVar (h : Tracked i N D g) (v : VarId) {f : Var → Var}
    (hf : ∀ x, (f x).uses = x.uses ∧ (f x).phis = x.phis)
    (hn : ∀ x, (f x).reg = x.reg ∧ (f x).version = x.version) : Tracked i N D (g.updateVar v f) := by
  refine h.congr ?_ (fun _ => ⟨rfl, rfl⟩) (fun _ => rfl) rfl fun w =>
    ⟨g.updateVar_same Var.uses (fun x => (hf x).1) w, g.updateVar_same Var.phis (fun x => (hf x).2) w⟩
  exact h.arranged.relisted rfl rfl Array.size_modify (numbers_updateVar v hn)

theorem tracked_updateBlock (h : Tracked i N D g) (b : BlockId) (f : Block → Block) :
    Tracked i N D (g.updateBlock b f) :=
  { h with arranged := { h.arranged with } }

/-- The owner of a site that is no argument. -/
theorem tracked_setOwner (h : Tracked i N D g) (hs : ∀ j, s ∉ (g.insn j).args) (o : Option InsnId) :
    Tracked i N D (g.updateSite s fun x => { x with owner := o }) := by
  have hvarOf := varOf?_setOwner (g := g) s o
  refine h.congr ?_ (fun _ => ⟨rfl, rfl⟩) hvarOf (size_updateSite _ _ _) fun _ => ⟨rfl, rfl⟩
  refine h.arranged.congr (fun _ => ⟨rfl, rfl⟩) (fun j u hu => ?_) hvarOf (size_updateSite _ _ _) rfl
    rfl
  have hus : s ≠ u := fun heq => hs j (heq ▸ hu)
  rw [site_updateSite, if_neg fun hsu => hus hsu.1]

/-! ## New entries -/

theorem tracked_newVar (h : Tracked i N D g) (reg : Int) (name : String) :
    Tracked i N D (g.newVar reg name).2 := by
  have hvar := var_newVar (g := g) reg name
  have hsize : (g.newVar reg name).2.vars.size = g.vars.size + 1 := Array.size_push _
  -- no argument, and none that was given up, reads the new variable
  have hunread : ∀ s, g.Holds s → g.varOf? s ≠ some (g.newVar reg name).1 := fun s hs hv =>
    Nat.lt_irrefl _ (h.arranged.reads s _ hs hv)
  have harg : ∀ {j s}, s ∈ (g.insn j).args → g.varOf? s ≠ some (g.newVar reg name).1 := fun hs =>
    hunread _ (h.arranged.holds hs)
  refine ⟨⟨h.arranged.arg, h.arranged.once, h.arranged.result, fun s v hs hv => ?_, ?_⟩, h.new, h.gone,
    fun v s => ?_, fun v => ?_, fun j s v hop hs hN hv => ?_, fun v j hj => ?_, fun v => ?_⟩
  · rw [hsize]
    exact Nat.lt_succ_of_lt (h.arranged.reads s v hs hv)
  · rw [numbers_newVar]
    exact h.arranged.numbered.next reg
  · have huses := h.uses v s
    rw [hvar]
    split
    · next hv =>
      subst hv
      refine ⟨fun hs => (by cases hs), fun ⟨hv, hwhere⟩ => ?_⟩
      rcases hwhere with ⟨j, hj, -⟩ | hgone
      · exact absurd hv (harg hj)
      · exact absurd hv (hunread s (h.gone.2 s hgone).1)
    · exact huses
  · rw [hvar]
    split
    · exact List.nodup_nil
    · exact h.usesOnce v
  · have hne : v ≠ (g.newVar reg name).1 := by
      rintro rfl
      exact harg hs hv
    rw [hvar, if_neg hne]
    exact h.phiArg j s v hop hs hN hv
  · rw [hvar] at hj
    split at hj
    · cases hj
    · exact h.phis v j hj
  · rw [hvar]
    split
    · exact List.nodup_nil
    · exact h.phisOnce v

theorem tracked_newSite (h : Tracked i N D g) {x : Site}
    (hx : ∀ v, x.operand = .reg v → v.index < g.vars.size) : Tracked i N D (g.newSite x).2 := by
  have hvarOf : ∀ {u}, g.Holds u → (g.newSite x).2.varOf? u = g.varOf? u := varOf?_newSite
  have hgrows : ∀ {u}, g.Holds u → (g.newSite x).2.Holds u := (edited_newSite x).holds
  have hargs : ∀ {j s}, s ∈ (g.insn j).args → (g.newSite x).2.varOf? s = g.varOf? s := fun hs =>
    hvarOf (h.arranged.holds hs)
  have hlisted : ∀ {s}, ((∃ j, s ∈ (g.insn j).args ∧ s ∉ N) ∨ s ∈ D) →
      (g.newSite x).2.varOf? s = g.varOf? s := by
    rintro s (⟨j, hj, -⟩ | hgone)
    · exact hargs hj
    · exact hvarOf (h.gone.2 s hgone).1
  refine ⟨⟨fun j s hs => ?_, h.arranged.once, fun j s hs => ?_, fun s v hs hv => ?_,
    h.arranged.numbered⟩, h.new, ⟨h.gone.1, fun s hs => ?_⟩, fun v s => ?_, h.usesOnce,
    fun j s v hop hs hN hv => ?_, fun v j hj => ?_, h.phisOnce⟩
  · have hne : s ≠ (g.newSite x).1 := by
      rintro rfl
      exact not_holds_newSite x (h.arranged.holds hs)
    rw [site_newSite, if_neg hne]
    exact h.arranged.arg j s hs
  · obtain ⟨hheld, hout⟩ := h.arranged.result j s hs
    exact ⟨hgrows hheld, hout⟩
  · rcases holds_of_newSite hs with rfl | hs
    · refine hx v (varOf?_eq_some.mp hv ▸ ?_)
      rw [site_newSite, if_pos rfl]
    · exact h.arranged.reads s v hs (hvarOf hs ▸ hv)
  · obtain ⟨hheld, hout⟩ := h.gone.2 s hs
    exact ⟨hgrows hheld, hout⟩
  · refine (h.uses v s).trans (and_congr_left fun hwhere => ?_)
    rw [hlisted hwhere]
  · exact h.phiArg j s v hop hs hN (hargs hs ▸ hv)
  · obtain ⟨hop, s, hv, hwhere⟩ := h.phis v j hj
    refine ⟨hop, s, ?_, hwhere⟩
    rcases hwhere with hs | ⟨-, hgone⟩
    · rw [hargs hs]
      exact hv
    · rw [hvarOf (h.gone.2 s hgone).1]
      exact hv

theorem tracked_newInsn (h : Tracked i [] [] g) {x : Insn} (hx : Insn.Bare x) :
    Tracked i [] [] (g.newInsn x).2 := by
  have hempty : g.insn (g.newInsn x).1 = default := insn_of_size_le (Nat.le_refl _)
  have hinsn := insn_newInsn (g := g) x
  have hslots : ∀ j, ((g.newInsn x).2.insn j).args = (g.insn j).args ∧
      ((g.newInsn x).2.insn j).result = (g.insn j).result := by
    intro j
    rw [hinsn]
    split
    · next hj => rw [hj, hempty, hx.result, hx.args]; exact ⟨rfl, rfl⟩
    · exact ⟨rfl, rfl⟩
  -- the code of an instruction with arguments is the same
  have hcode : ∀ {j s}, s ∈ (g.insn j).args → ((g.newInsn x).2.insn j).opcode = (g.insn j).opcode := by
    intro j s hs
    rw [hinsn, if_neg]
    rintro rfl
    rw [hempty] at hs
    cases hs
  refine ⟨h.arranged.congr hslots (fun _ _ _ => rfl) (fun _ => rfl) rfl rfl rfl, ?_, ?_, fun v s => ?_,
    h.usesOnce, fun j s v hop hs hN hv => ?_, fun v j hj => ?_, h.phisOnce⟩
  · exact ⟨List.nodup_nil, fun s hs => (by cases hs)⟩
  · exact ⟨List.nodup_nil, fun s hs => (by cases hs)⟩
  · simp only [hslots]
    exact h.uses v s
  · rw [(hslots j).1] at hs
    exact h.phiArg j s v (hcode hs ▸ hop) hs hN hv
  · obtain ⟨hop, s, hv, hs⟩ := h.phis v j hj
    have hs : s ∈ (g.insn j).args := by simpa using hs
    refine ⟨(hcode hs).trans hop, s, hv, .inl ?_⟩
    rw [(hslots j).1]
    exact hs

/-- The site is in the table and in no instruction. A site that was just made is, and one that has left
    its instruction is again. -/
structure Fresh (g : MethodGraph) (s : SiteId) : Prop where
  held : g.Holds s
  unused : ∀ j, s ∉ (g.insn j).sites

theorem fresh_iff : g.Fresh s ↔
    s.index < g.sites.size ∧ ∀ n < g.insns.size, s ∉ (g.insn ⟨n⟩).sites := by
  refine ⟨fun h => ⟨h.held, fun n _ => h.unused ⟨n⟩⟩, fun h => ⟨h.1, fun j hj => ?_⟩⟩
  by_cases hlt : j.index < g.insns.size
  · exact h.2 j.index hlt hj
  · rw [insn_of_size_le (Nat.le_of_not_lt hlt)] at hj
    cases hj

instance (g : MethodGraph) (s : SiteId) : Decidable (g.Fresh s) := decidable_of_iff _ fresh_iff.symm

theorem Fresh.arg (h : g.Fresh s) (j : InsnId) : s ∉ (g.insn j).args := fun hs =>
  h.unused j (List.mem_append_right _ hs)

theorem Fresh.result (h : g.Fresh s) (j : InsnId) : (g.insn j).result ≠ some s := fun hs =>
  h.unused j (List.mem_append_left _ (by rw [hs]; exact List.mem_singleton_self s))

theorem fresh_newSite (h : g.Arranged) (x : Site) : (g.newSite x).2.Fresh (g.newSite x).1 := by
  refine ⟨holds_newSite x, fun j hs => not_holds_newSite (g := g) x ?_⟩
  rcases List.mem_append.mp hs with hs | hs
  · exact (h.result j _ (Option.mem_toList.mp hs)).1
  · exact h.holds hs

/-! ## Results -/

theorem tracked_disown (h : Tracked i N D g) (j : InsnId) : Tracked i N D (g.disown j) := by
  unfold disown
  split
  · next old hold => exact tracked_setOwner h (h.arranged.result j old hold).2 none
  · exact h

/-- The result slot is written, before its owner is. -/
theorem tracked_writeResult (h : Tracked i N D g) (j : InsnId) {r : Option SiteId}
    (hr : ∀ s, r = some s → g.Holds s ∧ ∀ k, s ∉ (g.insn k).args) :
    Tracked i N D (g.updateInsn j fun x => { x with result := r }) := by
  have hinsn : ∀ k, ((g.updateInsn j fun x => { x with result := r }).insn k).args = (g.insn k).args ∧
      ((g.updateInsn j fun x => { x with result := r }).insn k).opcode = (g.insn k).opcode := by
    intro k
    rw [insn_updateInsn]
    split <;> exact ⟨rfl, rfl⟩
  refine h.congr ⟨fun k s hs => ?_, fun k => ?_, fun k s hs => ?_, h.arranged.reads,
    h.arranged.numbered⟩ hinsn (fun _ => rfl) rfl fun _ => ⟨rfl, rfl⟩
  · rw [(hinsn k).1] at hs
    exact h.arranged.arg k s hs
  · rw [(hinsn k).1]
    exact h.arranged.once k
  · simp only [hinsn]
    rw [insn_updateInsn] at hs
    split at hs
    · exact hr s hs
    · exact h.arranged.result k s hs

theorem tracked_define (h : Tracked i N D g) (s : SiteId) : Tracked i N D (g.define s) := by
  unfold define
  split
  · exact tracked_updateVar h _ (fun _ => ⟨rfl, rfl⟩) fun _ => ⟨rfl, rfl⟩
  · exact h

theorem tracked_setResult (h : Tracked i N D g) (j : InsnId) {r : Option SiteId}
    (hr : ∀ s, r = some s → g.Fresh s) : Tracked i N D (g.setResult j r) := by
  have h₁ := tracked_disown h j
  obtain ⟨hinsns, -, -, -, hsites⟩ := same_disown (g := g) j
  have hr₁ : ∀ s, r = some s → (g.disown j).Holds s ∧ ∀ k, s ∉ ((g.disown j).insn k).args := by
    intro s hs
    rw [Holds, hsites]
    simp only [insn_congr hinsns]
    exact ⟨(hr s hs).held, (hr s hs).arg⟩
  have h₂ := tracked_writeResult h₁ j hr₁
  cases r with
  | none => exact h₂
  | some s =>
    rw [setResult_some]
    refine tracked_define (tracked_setOwner h₂ (fun k hk => ?_) (some j)) s
    refine (hr₁ s rfl).2 k ?_
    rw [insn_updateInsn] at hk
    split at hk <;> exact hk

/-! ## Arguments -/

/-- The slots of an instruction are written: it gives up some arguments and takes fresh ones. The lists
    of the variables are as before. -/
structure Reslotted (g : MethodGraph) (i : InsnId) (N D : List SiteId) (g' : MethodGraph) : Prop where
  others : ∀ j, j ≠ i → (g'.insn j).args = (g.insn j).args
  once : (g'.insn i).args.Nodup
  mem : ∀ u, u ∈ (g'.insn i).args ↔ (u ∈ (g.insn i).args ∧ u ∉ D) ∨ u ∈ N
  rest : ∀ j, (g'.insn j).opcode = (g.insn j).opcode ∧ (g'.insn j).result = (g.insn j).result
  owner : ∀ u, u ∉ D → (g'.site u).owner = if u ∈ N then some i else (g.site u).owner
  varOf : ∀ u, g'.varOf? u = g.varOf? u
  sites : g'.sites.size = g.sites.size
  vars : g'.vars = g.vars

/-- What an instruction has as arguments afterwards, in terms of before. -/
theorem Reslotted.mem_args (e : Reslotted g i N D g') (ha : g.Arranged)
    (hD : ∀ s ∈ D, s ∈ (g.insn i).args) (j : InsnId) (u : SiteId) :
    u ∈ (g'.insn j).args ↔ (u ∈ (g.insn j).args ∧ u ∉ D) ∨ (j = i ∧ u ∈ N) := by
  by_cases hj : j = i
  · subst hj
    simp [e.mem]
  · rw [e.others j hj]
    simp only [hj, false_and, or_false]
    exact ⟨fun hu => ⟨hu, fun hud => hj (ha.owner_eq hu (hD u hud))⟩, And.left⟩

theorem Reslotted.arranged (e : Reslotted g i N D g') (ha : g.Arranged)
    (hN : ∀ s ∈ N, g.Fresh s) (hD : ∀ s ∈ D, s ∈ (g.insn i).args) : g'.Arranged := by
  have hheld : ∀ s, g'.Holds s ↔ g.Holds s := fun s => by rw [Holds, Holds, e.sites]
  have hmem := e.mem_args ha hD
  refine ⟨fun j u hu => ?_, fun j => ?_, fun j u hu => ?_, fun u v hu => ?_, ?_⟩
  · rcases (hmem j u).mp hu with ⟨hold, hnot⟩ | ⟨rfl, hnew⟩
    · rw [e.owner u hnot, if_neg fun hn => (hN u hn).arg j hold]
      exact ha.arg j u hold
    · rw [e.owner u fun hd => (hN u hnew).arg j (hD u hd), if_pos hnew]
  · by_cases hj : j = i
    · exact hj ▸ e.once
    · rw [e.others j hj]
      exact ha.once j
  · rw [(e.rest j).2] at hu
    obtain ⟨hu', hout⟩ := ha.result j u hu
    refine ⟨(hheld u).mpr hu', fun k hk => ?_⟩
    rcases (hmem k u).mp hk with ⟨hold, -⟩ | ⟨-, hnew⟩
    · exact hout k hold
    · exact (hN u hnew).result j hu
  · rw [e.varOf, e.vars]
    exact ha.reads u v ((hheld u).mp hu)
  · rw [numbers, e.vars]
    exact ha.numbered

theorem Reslotted.tracked (e : Reslotted g i N D g') (h : Tracked i [] [] g)
    (hN : N.Nodup ∧ ∀ s ∈ N, g.Fresh s) (hD : D.Nodup ∧ ∀ s ∈ D, s ∈ (g.insn i).args) :
    Tracked i N D g' := by
  have ha := h.arranged
  have hvar : ∀ v, g'.var v = g.var v := fun v => by rw [var, var, e.vars]
  have hfresh : ∀ {u}, u ∈ N → ∀ j, u ∉ (g.insn j).args := fun hu => (hN.2 _ hu).arg
  have hmem := e.mem_args ha hD.2
  refine ⟨e.arranged ha hN.2 hD.2, ⟨hN.1, fun u hu => (hmem i u).mpr (.inr ⟨rfl, hu⟩)⟩,
    ⟨hD.1, fun u hu => ?_⟩, fun v u => ?_, fun v => ?_, fun j u v hop hu hnot hv => ?_, fun v j hj => ?_,
    fun v => ?_⟩
  · refine ⟨by rw [Holds, e.sites]; exact ha.holds (hD.2 u hu), fun j hj => ?_⟩
    rcases (hmem j u).mp hj with ⟨-, hnot⟩ | ⟨-, hnew⟩
    · exact hnot hu
    · exact hfresh hnew i (hD.2 u hu)
  · have huses := h.uses v u
    rw [hvar, e.varOf, huses]
    refine and_congr_right fun _ => ?_
    simp only [hmem]
    constructor
    · rintro (⟨j, hj, -⟩ | hnil)
      · by_cases hd : u ∈ D
        · exact .inr hd
        · exact .inl ⟨j, .inl ⟨hj, hd⟩, fun hn => hfresh hn j hj⟩
      · cases hnil
    · rintro (⟨j, ⟨hj, -⟩ | ⟨-, hn⟩, hnot⟩ | hd)
      · exact .inl ⟨j, hj, List.not_mem_nil⟩
      · exact absurd hn hnot
      · exact .inl ⟨i, hD.2 u hd, List.not_mem_nil⟩
  · rw [hvar]
    exact h.usesOnce v
  · rw [hvar]
    rw [(e.rest j).1] at hop
    rw [e.varOf] at hv
    rcases (hmem j u).mp hu with ⟨hold, -⟩ | ⟨-, hnew⟩
    · exact h.phiArg j u v hop hold List.not_mem_nil hv
    · exact absurd hnew hnot
  · rw [hvar] at hj
    obtain ⟨hop, u, hv, hu⟩ := h.phis v j hj
    have hu : u ∈ (g.insn j).args := by simpa using hu
    refine ⟨(e.rest j).1.trans hop, u, (e.varOf u).trans hv, ?_⟩
    by_cases hd : u ∈ D
    · exact .inr ⟨ha.owner_eq hu (hD.2 u hd), hd⟩
    · exact .inl ((hmem j u).mpr (.inl ⟨hu, hd⟩))
  · rw [hvar]
    exact h.phisOnce v

theorem tracked_addArg (h : Tracked i [] [] g) (hi : i.index < g.insns.size) (hs : g.Fresh s) :
    Tracked i [] [] (g.addArg i s) := by
  have hinsn := insn_set (g := g.updateSite s fun x => { x with owner := some i }) hi
    fun x => { x with args := x.args ++ [s] }
  have hargs : ∀ j, (((g.updateSite s fun x => { x with owner := some i }).updateInsn i
      fun x => { x with args := x.args ++ [s] }).insn j).args =
      if j = i then (g.insn j).args ++ [s] else (g.insn j).args := by
    intro j
    rw [hinsn]
    split <;> rfl
  refine tracked_linkUse (Reslotted.tracked (D := []) ?_ h
    ⟨List.nodup_singleton s, fun u hu => by rwa [List.mem_singleton.mp hu]⟩
    ⟨List.nodup_nil, fun u hu => (by cases hu)⟩)
  refine ⟨fun j hj => ?_, ?_, fun u => ?_, fun j => ?_, fun u _ => ?_, fun u => ?_, ?_, rfl⟩
  · rw [hargs, if_neg hj]
  · rw [hargs, if_pos rfl]
    exact (h.arranged.once i).append (List.nodup_singleton s) (by simpa using hs.arg i)
  · rw [hargs, if_pos rfl]
    simp
  · rw [hinsn]
    split <;> exact ⟨rfl, rfl⟩
  · simp only [List.mem_singleton]
    exact owner_set hs.held (some i) u
  · exact varOf?_setOwner s (some i) u
  · exact size_updateSite _ _ _

theorem tracked_addPhiArg (h : Tracked i [] [] g) (hi : i.index < g.insns.size) (hs : g.Fresh s)
    (source : BlockId) : Tracked i [] [] (g.addPhiArg i s source) :=
  tracked_updateInsn (tracked_addArg h hi hs) i fun _ => ⟨rfl, rfl, rfl⟩

theorem tracked_replaceArg (h : Tracked i [] [] g) (hi : i.index < g.insns.size) (old : SiteId)
    (hs : g.Fresh s) : Tracked i [] [] (g.replaceArg i old s).2 := by
  unfold replaceArg
  split
  · exact h
  · next n hn =>
    have hold := mem_of_idxOf hn
    have hne : s ≠ old := fun heq => hs.arg i (heq ▸ hold)
    have e := slotReplaced_updates hi (h.arranged.holds hold) hs.held n
    refine tracked_linkUse (tracked_unlinkUse (Reslotted.tracked ?_ h
      ⟨List.nodup_singleton s, fun u hu => by rwa [List.mem_singleton.mp hu]⟩
      ⟨List.nodup_singleton old, fun u hu => by rwa [List.mem_singleton.mp hu]⟩))
    refine ⟨fun j hj => ?_, ?_, fun u => ?_, fun j => ?_, fun u hu => ?_, e.varOf, e.sites, e.vars⟩
    · rw [e.insn, if_neg hj]
    · rw [e.insn, if_pos rfl]
      exact (h.arranged.once i).set (hs.arg i)
    · rw [e.insn, if_pos rfl]
      refine (mem_set_idxOf (h.arranged.once i) hn).trans ?_
      simp [or_comm]
    · rw [e.insn]
      split <;> exact ⟨rfl, rfl⟩
    · rw [e.owner, if_neg (by simpa using hu)]
      simp only [List.mem_singleton]

/-! ## Instructions that come and go -/

theorem tracked_insertAt (h : Tracked i N D g) (b : BlockId) (n : Nat) (j : InsnId) :
    Tracked i N D (g.insertAt b n j) :=
  tracked_updateInsn (tracked_updateBlock h b _) j fun _ => ⟨rfl, rfl, rfl⟩

theorem tracked_insertBefore (h : Tracked i N D g) (anchor j : InsnId) :
    Tracked i N D (g.insertBefore anchor j).2 := by
  unfold insertBefore
  split
  · exact h
  · exact tracked_insertAt h _ _ j

theorem tracked_insertAfter (h : Tracked i N D g) (anchor j : InsnId) :
    Tracked i N D (g.insertAfter anchor j).2 := by
  unfold insertAfter
  split
  · exact h
  · exact tracked_insertAt h _ _ j

theorem lt_of_place? {p : BlockId × Nat} (h : g.place? i = some p) : i.index < g.insns.size := by
  obtain ⟨b, hb, -⟩ := Option.bind_eq_some_iff.mp h
  exact placed_lt (by rw [hb]; rfl)

/-- All arguments leave, before their uses are taken out. -/
theorem tracked_clear (h : Tracked i [] [] g) (hi : i.index < g.insns.size) :
    Tracked i [] (g.insn i).args (g.updateInsn i fun x => { x with args := [] }) := by
  have hinsn := insn_set hi fun x => { x with args := [] }
  refine Reslotted.tracked ?_ h ⟨List.nodup_nil, fun u hu => (by cases hu)⟩
    ⟨h.arranged.once i, fun u hu => hu⟩
  refine ⟨fun j hj => ?_, ?_, fun u => ?_, fun j => ?_, fun u hu => ?_, fun _ => rfl, rfl, rfl⟩
  · rw [hinsn, if_neg hj]
  · rw [hinsn, if_pos rfl]
    exact List.nodup_nil
  · rw [hinsn, if_pos rfl]
    simp
  · rw [hinsn]
    split <;> exact ⟨rfl, rfl⟩
  · rw [if_neg List.not_mem_nil]
    rfl

theorem tracked_release (h : Tracked i N (s :: D) g) : Tracked i N D (g.release i s) := by
  refine tracked_setOwner (tracked_unlinkUse h) (fun j hj => ?_) none
  rw [insn_congr (same_unlinkUse i s).1] at hj
  exact (h.gone.2 s List.mem_cons_self).2 j hj

theorem tracked_releaseAll (h : Tracked i N D g) :
    Tracked i N [] (D.foldl (fun g s => g.release i s) g) := by
  induction D generalizing g with
  | nil => exact h
  | cons s D ih => exact ih (tracked_release h)

theorem owner_release {u : SiteId} (hu : u ≠ s) :
    ((g.release i s).site u).owner = (g.site u).owner := by
  rw [release, site_updateSite, if_neg fun h => hu h.1.symm, site_congr (same_unlinkUse i s).2.1]

/-- An instruction that still owns all of its arguments releases each. -/
theorem releaseOwned_eq (hD : D.Nodup) (hown : ∀ s ∈ D, (g.site s).owner = some i) :
    D.foldl (fun g s => if (g.site s).owner = some i then g.release i s else g) g =
      D.foldl (fun g s => g.release i s) g := by
  induction D generalizing g with
  | nil => rfl
  | cons s D ih =>
    obtain ⟨hs, hD⟩ := List.nodup_cons.mp hD
    obtain ⟨howns, hown⟩ := List.forall_mem_cons.mp hown
    rw [List.foldl_cons, List.foldl_cons, if_pos howns]
    refine ih hD fun u hu => ?_
    have hne : u ≠ s := fun heq => hs (heq ▸ hu)
    rw [owner_release hne]
    exact hown u hu

theorem tracked_removeInsn (h : Tracked i [] [] g) : Tracked i [] [] (g.removeInsn i).2 := by
  unfold removeInsn
  split
  · exact h
  · next b n hplace =>
    have hcleared := tracked_clear h (lt_of_place? hplace)
    exact tracked_updateInsn (tracked_updateBlock (tracked_releaseAll hcleared) b _) i
      fun _ => ⟨rfl, rfl, rfl⟩

theorem tracked_replaceInsn (h : Tracked i [] [] g) (j : InsnId) :
    Tracked i [] [] (g.replaceInsn i j).2 := by
  unfold replaceInsn
  split
  · exact h
  · next b n hplace =>
    have hcleared := tracked_clear h (lt_of_place? hplace)
    have howned := releaseOwned_eq (g := g.updateInsn i fun x => { x with args := [] })
      (h.arranged.once i) (h.arranged.arg i)
    simp only
    rw [howned]
    refine tracked_updateInsn ?_ i fun _ => ⟨rfl, rfl, rfl⟩
    refine tracked_updateInsn ?_ j fun _ => ⟨rfl, rfl, rfl⟩
    exact tracked_updateBlock (tracked_releaseAll hcleared) b _

/-! ## Copies -/

/-- A site to copy reads a variable of the table. -/
theorem tracked_duplicate (h : Tracked i N D g) (hs : g.Holds s) : Tracked i N D (g.duplicate s).2 :=
  tracked_newSite h fun v hv => h.arranged.reads s v hs (varOf?_eq_some.mpr hv)

theorem tracked_duplicateWith (h : Tracked i N D g) (s : SiteId) {v : VarId}
    (hv : v.index < g.vars.size) : Tracked i N D (g.duplicateWith s v).2 := by
  refine tracked_newSite h fun w hw => ?_
  cases hw
  exact hv

theorem tracked_duplicateFresh (h : Tracked i N D g) (hs : g.Holds s) :
    Tracked i N D (g.duplicateFresh s).2 := by
  unfold duplicateFresh
  split
  · next v hv =>
    exact tracked_duplicateWith (tracked_newVar h _ _) s (by simp [newVar])
  · exact tracked_duplicate h hs

theorem fresh_duplicateFresh (h : Tracked i N D g) (s : SiteId) :
    (g.duplicateFresh s).2.Fresh (g.duplicateFresh s).1 := by
  unfold duplicateFresh
  split
  · exact fresh_newSite (tracked_newVar h _ _).arranged _
  · exact fresh_newSite h.arranged _

theorem size_addArg (j : InsnId) (s : SiteId) : (g.addArg j s).insns.size = g.insns.size := by
  rw [addArg, (same_linkUse j s).1]
  exact Array.size_modify

/-- Copies of sites become the arguments of an instruction. -/
theorem tracked_copyArgs (args : List SiteId) (h : Tracked i [] [] g) (hi : i.index < g.insns.size)
    (hargs : ∀ s ∈ args, g.Holds s) :
    let g' := args.foldl (fun g s => (g.duplicate s).2.addArg i (g.duplicate s).1) g
    Tracked i [] [] g' ∧ g.sites.size ≤ g'.sites.size := by
  induction args generalizing g with
  | nil => exact ⟨h, Nat.le_refl _⟩
  | cons s args ih =>
    obtain ⟨hs, hargs⟩ := List.forall_mem_cons.mp hargs
    have hfresh := fresh_newSite h.arranged { g.site s with owner := none }
    have h₁ := tracked_addArg (tracked_duplicate h hs) hi hfresh
    have hgrows := (trans_of Edited (edited_newSite _) (edited_addArg i hfresh.held)).grows
    obtain ⟨h₂, hgrows₂⟩ := ih h₁ (by rw [size_addArg]; exact hi) fun u hu =>
      Nat.lt_of_lt_of_le (hargs u hu) hgrows
    exact ⟨h₂, Nat.le_trans hgrows hgrows₂⟩

theorem tracked_copyFresh (h : Tracked i [] [] g) (j : InsnId) : Tracked i [] [] (g.copyFresh j).2 := by
  obtain ⟨x, hx, -, g₁, hg₁, hcopy⟩ := copyFresh_eq (g := g) j
  have hnew := (tracked_newInsn h hx).elsewhere ⟨g.insns.size⟩
  have hsize : g.insns.size < (g.newInsn x).2.insns.size := by simp [newInsn]
  obtain ⟨hargs, hgrows⟩ := tracked_copyArgs (g.insn j).args hnew hsize fun s hs => h.arranged.holds hs
  rw [hcopy]
  rw [← hg₁] at hargs hgrows
  cases hr : (g.insn j).result with
  | none => exact hargs.elsewhere i
  | some r =>
    have hheld : g₁.Holds r := Nat.lt_of_lt_of_le (h.arranged.result j r hr).1 hgrows
    have hset := tracked_setResult (tracked_duplicateFresh hargs hheld) ⟨g.insns.size⟩
      (r := some (g₁.duplicateFresh r).1) (by
        rintro s ⟨⟩
        exact fresh_duplicateFresh hargs r)
    exact hset.elsewhere i

end
end TypeRecovery.MethodGraph
