import TypeRecovery.Proofs.Inference.Verdict

/- Inference a second time. What inference does depends on the graph in which it starts: the pins set,
   and nothing known of the variables. A run that only finds types leaves that graph as it was, and then
   a second run has the outcome of the first, down to its reports. A run that rewrites the code need
   not: the resolvers that came first have not seen the new code. Nor need a run that settles the type
   of a literal, since the next one takes that type for given. -/
namespace TypeRecovery.Inference

open MethodGraph Listing

/-! ## Runs from like states -/

/-- The states differ in the record of changes alone. -/
structure Alike (s s' : Session) : Prop where
  graph : s'.graph = s.graph
  journal : s'.journal = s.journal
  log : s'.log = s.log
  reported : s'.reported = s.reported

/-- From like states the step has the same result and leaves like states. -/
def Blind {α : Type} (m : Infer α) : Prop :=
  ∀ c s s', Alike s s' →
    (m.after c s').1 = (m.after c s).1 ∧ Alike (m.after c s).2 (m.after c s').2

theorem blind_report (n : Notice) : Blind (report n) := by
  intro c s s' h
  refine ⟨rfl, h.graph, ?_, h.log, h.reported⟩
  change s'.journal ++ [n.diagnostic s'.graph.fullName] = s.journal ++ [n.diagnostic s.graph.fullName]
  rw [h.journal, h.graph]

/-- No step of inference looks at the record of changes. -/
theorem composes_blind : Composes Blind where
  pure' _ _ _ _ h := ⟨rfl, h⟩
  throw' _ _ _ _ h := ⟨rfl, h⟩
  endless' _ _ _ h := ⟨rfl, h⟩
  bind' {_ _ m f} hm hf c s s' h := by
    obtain ⟨hres, hend⟩ := hm c s s' h
    rw [after_bind, after_bind]
    generalize m.after c s = r₁ at hres hend ⊢
    generalize m.after c s' = r₂ at hres hend ⊢
    obtain ⟨r, s₁⟩ := r₁
    obtain ⟨r', s₁'⟩ := r₂
    obtain rfl : r' = r := hres
    cases r' with
    | error e => exact ⟨rfl, hend⟩
    | ok a => exact hf a c s₁ s₁' hend
  tryCatch' {_ m handler} hm hh c s s' h := by
    obtain ⟨hres, hend⟩ := hm c s s' h
    rw [after_tryCatch, after_tryCatch]
    generalize m.after c s = r₁ at hres hend ⊢
    generalize m.after c s' = r₂ at hres hend ⊢
    obtain ⟨r, s₁⟩ := r₁
    obtain ⟨r', s₁'⟩ := r₂
    obtain rfl : r' = r := hres
    cases r' with
    | error e => exact hh e c s₁ s₁' hend
    | ok a => exact ⟨rfl, hend⟩
  read' hf c := hf c c
  theGraph' {_ f} hf c s s' h := by
    rw [after_theGraph, after_theGraph, h.graph]
    exact hf s.graph c s s' h
  reported' {_ f} hf c s s' h := by
    change ((f s'.reported).after c s').1 = ((f s.reported).after c s).1 ∧
      Alike ((f s.reported).after c s).2 ((f s'.reported).after c s').2
    rw [h.reported]
    exact hf s.reported c s s' h
  edit' {_ f} _ c s s' h := by
    have hf : f s'.graph = f s.graph := congrArg f h.graph
    refine ⟨?_, congrArg Prod.snd hf, h.journal, h.log, h.reported⟩
    exact congrArg (fun r : _ × MethodGraph => Except.ok r.1) hf
  note' records c s s' h := by
    rw [note, after_read, after_read]
    split
    · refine ⟨rfl, h.graph, h.journal, ?_, h.reported⟩
      exact congrArg (fun log : Array LogRecord => log ++ records) h.log
    · exact ⟨rfl, h⟩
  report' {n} _ := blind_report n
  mark' s _ _ _ h := ⟨rfl, h.graph, h.journal, h.log, congrArg (s :: ·) h.reported⟩
  begin' _ _ _ h := ⟨rfl, h.graph, h.journal, h.log, rfl⟩

/-! ## The start of a run -/

/-- The graph in which inference starts: the pins are set, and nothing is known of the variables. -/
def startOf (g : MethodGraph) : MethodGraph := (pinVars g).live.foldl resetVar (pinVars g)

section
variable {c : Context} {g g' : MethodGraph}

theorem sites_startOf (g : MethodGraph) : (startOf g).sites = (pinVars g).sites := by
  have hreset (l : List VarId) (g : MethodGraph) : (l.foldl resetVar g).sites = g.sites := by
    induction l generalizing g with
    | nil => rfl
    | cons v l ih => exact ih _
  exact hreset _ _

/-- The first bounds come from the start alone. -/
theorem initBounds_pinVars (h : startOf g' = startOf g) :
    initBounds (pinVars g') = initBounds (pinVars g) := by
  -- what comes after the reset of the variables
  let own (g : MethodGraph) : MethodGraph :=
    g.live.foldl (fun g v => g.updateVar v fun x => { x with bounds := ownBounds g v }) g
  have hshare (g : MethodGraph) : initBounds (pinVars g) =
      (own (startOf g)).live.foldl shareBounds (own (startOf g)) := rfl
  rw [hshare, hshare, h]

/-- The pins are set, and what they hang on stays. -/
structure Pinning (g g' : MethodGraph) : Prop where
  header : g'.header = g.header
  links : SameLinks g g'
  marks : ∀ s, (g'.site s).pinned = (g.site s).pinned
  pins : ∀ v, (g.var v).isPinned = true → (g'.var v).isPinned = true

instance : IsPreorder MethodGraph Pinning where
  refl g := ⟨rfl, refl_of SameLinks g, fun _ => rfl, fun _ => id⟩
  trans _ _ _ h h' := ⟨h'.header.trans h.header, trans_of SameLinks h.links h'.links,
    fun s => (h'.marks s).trans (h.marks s), fun v => h'.pins v ∘ h.pins v⟩

theorem pinning_pinVar (v : VarId) (t : Ty) : Pinning g (g.pinVar v t) := by
  have hpins (w : VarId) (hw : (g.var w).isPinned = true) :
      ((g.updateVar v fun x => { x with pin := some t }).var w).isPinned = true := by
    rw [var_updateVar]
    split
    · rfl
    · exact hw
  have hlinks := sameLinks_pinVar (g := g) v t
  unfold pinVar at hlinks ⊢
  simp only at hlinks ⊢
  split
  · next s hs =>
    rw [hs] at hlinks
    exact ⟨rfl, hlinks, updateSite_same _ Site.pinned fun _ => rfl, hpins⟩
  · next hs =>
    rw [hs] at hlinks
    exact ⟨rfl, hlinks, fun _ => rfl, hpins⟩

/-- Sets the pin of one variable. -/
def pinOne (g : MethodGraph) (v : VarId) : MethodGraph :=
  if (g.var v).isPinned then g
  else
    match pinnedSlot? g v with
    | some t => g.pinVar v t
    | none => g

theorem pinning_pinOne (g : MethodGraph) (v : VarId) : Pinning g (pinOne g v) := by
  unfold pinOne
  split
  · exact refl_of Pinning g
  · split
    · exact pinning_pinVar v _
    · exact refl_of Pinning g

theorem pinning_pinVars (g : MethodGraph) : Pinning g (pinVars g) :=
  rel_foldl (fun v _ g' => pinning_pinOne g' v) g

theorem header_startOf (g : MethodGraph) : (startOf g).header = g.header :=
  (framed_resetVars _ _).header.trans (pinning_pinVars g).header

/-- A run after the first bounds are found. -/
def runOn : Infer Unit := do
  propagate
  if !allKnown (← theGraph) then
    escalate (Resolver.all.filter (← read).config.enables)

theorem after_run (c : Context) (g : MethodGraph) : ∃ changes,
    run.after c { graph := g } = runOn.after c { graph := initBounds (pinVars g), changes } :=
  ⟨_, rfl⟩

theorem blind_runOn : Blind runOn := by
  have h := composes_blind
  exact h.bind' h.propagate' fun _ => h.theGraph' fun _ =>
    h.ite' (h.read' fun _ => h.escalate' _) (h.pure' _)

/-- From graphs with the same start a run and finishing come to the same. -/
theorem alike_of_startOf (h : startOf g' = startOf g) :
    ((run >>= fun _ => finish).after c { graph := g' }).1 =
      ((run >>= fun _ => finish).after c { graph := g }).1 ∧
    Alike ((run >>= fun _ => finish).after c { graph := g }).2
      ((run >>= fun _ => finish).after c { graph := g' }).2 := by
  have hblind : Blind (runOn >>= fun _ => finish) :=
    composes_blind.bind' blind_runOn fun _ => composes_blind.finish' blind_report
  obtain ⟨changes, hrun⟩ := after_run c g
  obtain ⟨changes', hrun'⟩ := after_run c g'
  rw [after_bind, after_bind, hrun, hrun', ← after_bind, ← after_bind]
  exact hblind c _ _ ⟨initBounds_pinVars h, rfl, rfl, rfl⟩

/-- Graphs with the same start have the same inference. -/
theorem infer_congr (hcode : g.noCode = false) (h : startOf g' = startOf g) :
    infer c g' = infer c g := by
  have hheader : g'.header = g.header := by rw [← header_startOf, h, header_startOf]
  have hcode' : g'.noCode = false := (congrArg (·.2.2.2) hheader).trans hcode
  have hname : g'.fullName = g.fullName :=
    congrArg (fun k : String × String × List TypeVar × Bool => k.1 ++ "." ++ k.2.1) hheader
  obtain ⟨hres, hend⟩ := alike_of_startOf (c := c) h
  unfold infer
  rw [hcode, hcode', hname]
  simp only [Bool.false_eq_true, if_false]
  generalize Infer.after _ c { graph := g } = r at hres hend ⊢
  generalize Infer.after _ c { graph := g' } = r' at hres hend ⊢
  obtain ⟨result, s⟩ := r
  obtain ⟨result', s'⟩ := r'
  obtain rfl : result' = result := hres
  simp only at hend ⊢
  rw [hend.graph, hend.journal, hend.log]

/-! ## Pins that are set -/

/-- The pin of a variable is set, or no slot asks for one. -/
def PinSet (g : MethodGraph) (v : VarId) : Prop :=
  (g.var v).isPinned = true ∨ ∀ s ∈ (g.var v).sites, (g.site s).pinned = false

theorem pinnedSlot?_eq_none {v : VarId} :
    pinnedSlot? g v = none ↔ ∀ s ∈ (g.var v).sites, (g.site s).pinned = false := by
  rw [pinnedSlot?, Option.map_eq_none_iff, List.find?_eq_none]
  simp only [Var.sites, Bool.not_eq_true]

theorem Pinning.pinSet (h : Pinning g g') {v : VarId} (hv : PinSet g v) : PinSet g' v := by
  refine hv.imp (h.pins v) fun hslots s hs => ?_
  rw [Var.sites, h.links.assign, (h.links.lists v).1] at hs
  rw [h.marks]
  exact hslots s hs

theorem PinSet.framed {v : VarId} (hv : PinSet g v) (h : Framed g g') : PinSet g' v := by
  refine hv.imp (fun hp => ?_) fun hslots s hs => ?_
  · rw [Var.isPinned, h.pin]
    exact hp
  · rw [Var.sites, h.assign, h.uses] at hs
    exact (h.pinned s).trans (hslots s hs)

theorem pinSet_pinOne (g : MethodGraph) (v : VarId) : PinSet (pinOne g v) v := by
  unfold pinOne
  split
  · next hp => exact .inl hp
  · split
    · next t ht =>
      -- a variable with a slot is in the table, so the pin is written
      have hv : v.index < g.vars.size := by
        refine Nat.lt_of_not_le fun hle => ?_
        rw [pinnedSlot?_eq_none.mpr] at ht
        · cases ht
        · rw [var_of_size_le hle]
          intro s hs
          cases hs
      refine .inl ?_
      have hvar : (g.pinVar v t).var v = { g.var v with pin := some t } := by
        unfold pinVar
        simp only
        split <;> exact (var_updateVar _ _ _ _).trans (if_pos ⟨rfl, hv⟩)
      rw [hvar]
      rfl
    · next hnone => exact .inr (pinnedSlot?_eq_none.mp hnone)

theorem pinSet_pinVars {v : VarId} (hv : v ∈ g.live) : PinSet (pinVars g) v := by
  have hfold (l : List VarId) (g : MethodGraph) (hv : v ∈ l) : PinSet (l.foldl pinOne g) v := by
    induction l generalizing g with
    | nil => cases hv
    | cons w l ih =>
      rw [List.foldl_cons]
      rcases List.mem_cons.mp hv with rfl | hv
      · have hrest : Pinning (pinOne g v) (l.foldl pinOne (pinOne g v)) :=
          rel_foldl (fun w _ g' => pinning_pinOne g' w) _
        exact hrest.pinSet (pinSet_pinOne g v)
      · exact ih _ hv
  exact hfold g.live g hv

/-- Once the pins are set, setting them changes nothing. -/
theorem pinVars_eq_self (h : ∀ v ∈ g.live, PinSet g v) : pinVars g = g := by
  have hfold (l : List VarId) (hl : ∀ v ∈ l, PinSet g v) : l.foldl pinOne g = g := by
    induction l with
    | nil => rfl
    | cons v l ih =>
      have hone : pinOne g v = g := by
        unfold pinOne
        rcases hl v List.mem_cons_self with hp | hslots
        · rw [if_pos hp]
        · rw [pinnedSlot?_eq_none.mpr hslots]
          exact ite_self g
      rw [List.foldl_cons, hone]
      exact ih fun w hw => hl w (List.mem_cons_of_mem v hw)
  exact hfold g.live h

/-! ## Runs that leave the code as it is -/

theorem sites_ext (hsize : g'.sites.size = g.sites.size) (h : ∀ s, g.Holds s → g'.site s = g.site s) :
    g'.sites = g.sites := by
  refine Array.ext hsize fun i hi' hi => ?_
  have hs := h ⟨i⟩ hi
  simpa [site, hi, hi'] using hs

theorem vars_ext (hsize : g'.vars.size = g.vars.size)
    (h : ∀ v, v.index < g.vars.size → g'.var v = g.var v) : g'.vars = g.vars := by
  refine Array.ext hsize fun i hi' hi => ?_
  have hv := h ⟨i⟩ hi
  simpa [var, hi, hi'] using hv

theorem graph_ext (hheader : g'.header = g.header) (hblocks : g'.blocks = g.blocks)
    (hinsns : g'.insns = g.insns) (hsites : g'.sites = g.sites) (hvars : g'.vars = g.vars)
    (hlive : g'.live = g.live) : g' = g := by
  cases g
  cases g'
  simp only [header, Prod.mk.injEq] at hheader
  simp_all

/-- The slot of a register says nothing of types. -/
theorem site_of_framed (h : Framed g g') {s : SiteId} (hs : g.isRegister s = true) :
    g'.site s = g.site s := by
  obtain ⟨v, hv⟩ := Option.isSome_iff_exists.mp hs
  have hoperand : (g'.site s).operand = (g.site s).operand := by
    rw [varOf?_eq_some.mp hv]
    exact varOf?_eq_some.mp ((h.varOf s).trans hv)
  have hrest := h.site s
  have howner := h.owner s
  rcases hsite : g.site s with ⟨operand, declared, owner, pinned, receiver⟩
  rcases hsite' : g'.site s with ⟨operand', declared', owner', pinned', receiver'⟩
  simp only [hsite, hsite', Site.bare, Site.mk.injEq] at hoperand hrest howner ⊢
  exact ⟨hoperand, hrest.2.1, howner, hrest.2.2.2⟩

/-- Where no slot holds a literal, a graph that differs from the one with its pins in types and bounds
    alone starts inference like the first. -/
theorem startOf_of_framed (hlive : ∀ v, v.index < g.vars.size → v ∈ g.live)
    (hregs : ∀ s, g.Holds s → g.isRegister s = true) (h : Framed (pinVars g) g') :
    startOf g' = startOf g := by
  have hpin := pinning_pinVars g
  -- the pins are set already, in the graph from which the other one came
  have hself : pinVars g' = g' := by
    refine pinVars_eq_self fun v hv => ?_
    rw [h.live, hpin.links.live] at hv
    exact (pinSet_pinVars hv).framed h
  have hsites : g'.sites = (pinVars g).sites := by
    refine sites_ext h.size fun s hs => site_of_framed h ?_
    rw [isRegister, hpin.links.varOf]
    refine hregs s ?_
    rw [Holds, ← hpin.links.size]
    exact hs
  have hstart := framed_resetVars (pinVars g).live (pinVars g)
  have hstart' := framed_resetVars g'.live g'
  have hvars : (startOf g').vars = (startOf g).vars := by
    unfold startOf
    rw [hself]
    refine vars_ext ?_ fun v hv => ?_
    · rw [hstart'.vars, hstart.vars, h.vars]
    · rw [hstart.vars, hpin.links.vars] at hv
      have hmem : v ∈ (pinVars g).live := by
        rw [hpin.links.live]
        exact hlive v hv
      rw [var_resetVars, var_resetVars, h.live, if_pos hmem, if_pos hmem]
      exact h.var v
  refine graph_ext ?_ ?_ ?_ ?_ hvars ?_
  · rw [header_startOf, header_startOf, h.header, hpin.header]
  · rw [startOf, startOf, hself, hstart'.blocks, hstart.blocks, h.blocks]
  · rw [startOf, startOf, hself, hstart'.insns, hstart.insns, h.insns]
  · rw [sites_startOf, sites_startOf, hself, hsites]
  · rw [startOf, startOf, hself, hstart'.live, hstart.live, h.live]

/-- Types and bounds alone have changed, and coherence is kept. -/
structure Typed (c : Context) (g g' : MethodGraph) : Prop where
  framed : Framed g g'
  coherent : Coherent c g → Coherent c g'

instance : IsPreorder MethodGraph (Typed c) where
  refl g := ⟨refl_of Framed g, id⟩
  trans _ _ _ h h' := ⟨trans_of Framed h.framed h'.framed, h'.coherent ∘ h.coherent⟩

theorem Steps.typed {α : Type} {m : Infer α} {Q : α → MethodGraph → Prop}
    (h : ∀ g', Typed c g g' → Steps (Retyped c) c g' m Q) : Steps (Typed c) c g m Q :=
  Steps.weaken (fun _ _ h => ⟨h.framed, h.coherent⟩) (refl_of (Retyped c)) h

/-- The resolver tries types and leaves the code as it is. -/
def retypes : Resolver → Bool
  | .deduceTypes | .forceImmutable | .search | .removeGenerics => true
  | .restoreTypeVarCasts | .insertCasts | .splitConsts | .fixPrimitives | .insertMoves => false

theorem steps_of_retypes (hg : Coherent c g) {r : Resolver} (hr : retypes r = true) :
    Steps (Typed c) c g (resolverStep r) anyResult := by
  cases r with
  | deduceTypes => exact .typed fun _ _ => steps_deduceTypes
  | forceImmutable => exact .typed fun _ _ => steps_forceImmutable
  | search => exact .typed fun _ h => steps_search (h.coherent hg)
  | removeGenerics => exact .typed fun _ _ => steps_removeGenerics
  | restoreTypeVarCasts => cases hr
  | insertCasts => cases hr
  | splitConsts => cases hr
  | fixPrimitives => cases hr
  | insertMoves => cases hr

/-- The graph before the first resolver. -/
def propagated (c : Context) (g : MethodGraph) : MethodGraph :=
  (propagate.after c { graph := initBounds (pinVars g) }).2.graph

/-- Propagation leaves nothing for the resolvers, or the enabled ones leave the code as it is. -/
def SparesCode (c : Context) (g : MethodGraph) : Prop :=
  allKnown (propagated c g) = true ∨ ∀ r, c.config.enables r = true → retypes r = true

/-- With the first bounds no variable has a type yet, whatever it had before. -/
theorem coherent_initBounds {P U : Set VarId} {F : Set InsnId} (hg : g.Wired P F U) (c : Context) :
    Coherent c (initBounds (pinVars g)) := by
  have hpinned := hg.congr (sameLinks_pinVars g)
  obtain ⟨hframed, hvar⟩ := initBounds_frame (pinVars g)
  refine ⟨hframed.intact hpinned.intact, fun v => settled_of_open ?_⟩
  rcases hvar v with ⟨hunused, hsame⟩ | hopen
  · have hbeyond : (pinVars g).vars.size ≤ v.index := by
      apply Nat.le_of_not_lt
      intro hv
      exact hunused ((mem_live hpinned.names).mpr hv)
    rw [hsame, var_of_size_le hbeyond]
    rfl
  · exact hopen

theorem framed_run (hg : Coherent c (initBounds (pinVars g))) (h : SparesCode c g) :
    Framed (pinVars g) (run.after c { graph := g }).2.graph := by
  obtain ⟨changes, hrun⟩ := after_run c g
  have hbounds := (initBounds_frame (pinVars g)).1
  -- the record of changes makes no difference to what propagation leaves open
  obtain ⟨-, halike⟩ := composes_blind.propagate' c { graph := initBounds (pinVars g) }
    { graph := initBounds (pinVars g), changes } ⟨rfl, rfl, rfl, rfl⟩
  have hpropagate := (steps_propagate (c := c) (g := initBounds (pinVars g))
    { graph := initBounds (pinVars g), changes } (refl_of (Retyped c) _)).1.graph
  rw [hrun, runOn, after_bind]
  rcases hp : propagate.after c { graph := initBounds (pinVars g), changes } with ⟨e | a, s⟩
  · rw [hp] at hpropagate
    exact trans_of Framed hbounds hpropagate.framed
  · rw [hp] at hpropagate halike
    have hknown : s.graph = propagated c g := halike.graph
    have hframed := trans_of Framed hbounds hpropagate.framed
    simp only [after_theGraph]
    -- resolvers are run only if something is open, and then they are among those that spare the code
    by_cases hall : allKnown s.graph = true
    · rw [hall]
      exact hframed
    · rcases h with hfirst | henabled
      · rw [← hknown] at hfirst
        exact absurd hfirst hall
      · have hrest : Steps (Typed c) c s.graph
            (escalate (Resolver.all.filter c.config.enables)) anyResult := by
          refine .escalate' _ fun r hr g' hg' => ?_
          exact steps_of_retypes (hg'.coherent (hpropagate.coherent hg))
            (henabled r (List.mem_filter.mp hr).2)
        have hend := (hrest s (refl_of (Typed c) _)).1.graph
        rw [Bool.not_eq_true] at hall
        rw [hall]
        exact trans_of Framed hframed hend.framed

theorem framed_infer (hg : Coherent c (initBounds (pinVars g))) (hcode : g.noCode = false)
    (hok : (infer c g).fault = none) (h : SparesCode c g) : Framed (pinVars g) (infer c g).graph := by
  have hfinish := (kept_finish (c := c) (run.after c { graph := g }).2).graph.framed
  rw [infer_graph hcode hok]
  exact trans_of Framed (framed_run hg h) hfinish

theorem infer_graph_of_noCode (hcode : g.noCode = true) : (infer c g).graph = g := by
  unfold infer
  rw [hcode]
  rfl

/-- Inference of the graph is about types alone: no slot holds a literal, and the code is spared. -/
structure TypesOnly (c : Context) (g : MethodGraph) : Prop where
  registers : ∀ s, g.Holds s → g.isRegister s = true
  code : SparesCode c g

/-- Inference about types alone leaves the start as it was. -/
theorem startOf_infer {P U : Set VarId} {F : Set InsnId} (hg : g.Wired P F U)
    (hok : (infer c g).fault = none) (h : TypesOnly c g) :
    startOf (infer c g).graph = startOf g := by
  cases hcode : g.noCode with
  | true => rw [infer_graph_of_noCode hcode]
  | false =>
    refine startOf_of_framed (fun v hv => (mem_live hg.names).mpr hv) h.registers ?_
    exact framed_infer (coherent_initBounds hg c) hcode hok h.code

end

/-! ## Inference a second time -/

/-- If inference of any graph succeeds and leaves its start as it was, then inference of the graph that it
    leaves succeeds as well: it resolves all sites, gives every variable the same type, and agrees with the
    first also in what it reports. Inference about types alone leaves the start of a graph whose links are in
    order, as those of every method that is built are. -/
theorem infer_twice (c : Context) (g : MethodGraph) (hok : (infer c g).fault = none)
    (hres : (infer c g).resolved = true)
    (h : startOf (infer c g).graph = startOf g ∨ (∃ P F U, g.Wired P F U) ∧ TypesOnly c g) :
    (infer c (infer c g).graph).fault = none ∧ (infer c (infer c g).graph).resolved = true ∧
      (∀ v ∈ (infer c g).graph.live,
        ((infer c (infer c g).graph).graph.var v).ty = ((infer c g).graph.var v).ty) ∧
      infer c (infer c g).graph = infer c g := by
  have hstart : startOf (infer c g).graph = startOf g := by
    rcases h with hstart | ⟨⟨P, F, U, hwired⟩, htypes⟩
    · exact hstart
    · exact startOf_infer hwired hok htypes
  have hsame : infer c (infer c g).graph = infer c g := by
    cases hcode : g.noCode with
    | true => rw [infer_graph_of_noCode hcode]
    | false => exact infer_congr hcode hstart
  rw [hsame]
  exact ⟨hok, hres, fun _ _ => rfl, rfl⟩

/-- An element of an array of numbers is read at an index of which nothing is known. -/
def readElement : MethodDecl :=
  { (default : MethodDecl) with
    cls := "a.Main"
    name := "m"
    params := [{ (default : ParamDecl) with var := "a", type := "int[]", pinned := true }]
    blocks := [{ (default : BlockDecl) with
      insns := [
        { (default : InsnDecl) with op := "sget", result := "i" },
        { (default : InsnDecl) with op := "aget", result := "r", args := ["a", "i"] },
        { (default : InsnDecl) with op := "return", args := ["r"] }] }] }

/-- The index is open after propagation, and both runs deduce its type. -/
theorem infer_twice_at_element :
    let c : Context :=
      { hierarchy := Hierarchy.ofClasses [], config := { resolvers := [.deduceTypes, .search] } }
    let b := readElement.build.toOption.getD default
    readElement.build = .ok b ∧ allKnown (propagated c b.graph) = false ∧
      (infer c b.graph).fault = none ∧ (infer c b.graph).resolved = true ∧
      TypesOnly c b.graph ∧ infer c (infer c b.graph).graph = infer c b.graph := by
  intro c b
  have hb : readElement.build = .ok b := ok_getD (by decide +kernel)
  have hregisters : ∀ i < b.graph.sites.size, b.graph.isRegister ⟨i⟩ = true := by decide +kernel
  have hopen : allKnown (propagated c b.graph) = false := by decide +kernel
  have hend : (infer c b.graph).fault = none ∧ (infer c b.graph).resolved = true := by decide +kernel
  have htypes : TypesOnly c b.graph := by
    refine ⟨fun s hs => hregisters s.index hs, .inr fun r hr => ?_⟩
    cases r <;> first | rfl | cases hr
  obtain ⟨hok, hres⟩ := hend
  have hwired : ∃ P F U, b.graph.Wired P F U := ⟨_, _, _, wired_build hb⟩
  obtain ⟨-, -, -, hsame⟩ := infer_twice c b.graph hok hres (.inr ⟨hwired, htypes⟩)
  exact ⟨hb, hopen, hok, hres, htypes, hsame⟩

/-- A truth value is stored in an array of numbers, at an index of which nothing is known. -/
def storedTruth : MethodDecl :=
  { (default : MethodDecl) with
    cls := "a.Main"
    name := "m"
    blocks := [{ (default : BlockDecl) with
      insns := [
        { (default : InsnDecl) with op := "sget", result := "a:int[]" },
        { (default : InsnDecl) with op := "sget", result := "i" },
        { (default : InsnDecl) with op := "sget", result := "z:boolean" },
        { (default : InsnDecl) with op := "aput", args := ["a", "i", "z"] }] }] }

/-- The first run deduces a type for the index, converts the truth value and starts over, which drops
    that type; finishing then settles the index as a number. In the second run nothing is left to
    convert, so the deduced type stays. -/
theorem infer_twice_differs_after_conversion :
    let c : Context :=
      { hierarchy := Hierarchy.ofClasses [], config := { resolvers := [.deduceTypes, .fixPrimitives] } }
    let b := storedTruth.build.toOption.getD default
    let first := infer c b.graph
    let again := infer c first.graph
    storedTruth.build = .ok b ∧ first.fault = none ∧ first.resolved = true ∧
      again.fault = none ∧ again.resolved = true ∧ ⟨1⟩ ∈ first.graph.live ∧
      (first.graph.var ⟨1⟩).ty = Ty.int ∧ (again.graph.var ⟨1⟩).ty = Ty.boolean := by
  intro c b first again
  have hb : storedTruth.build = .ok b := ok_getD (by decide +kernel)
  have hfirst : first.fault = none ∧ first.resolved = true ∧ ⟨1⟩ ∈ first.graph.live ∧
      (first.graph.var ⟨1⟩).ty = Ty.int := by decide +kernel
  have hagain : again.fault = none ∧ again.resolved = true ∧
      (again.graph.var ⟨1⟩).ty = Ty.boolean := by decide +kernel
  obtain ⟨hok, hres, hlive, hint⟩ := hfirst
  obtain ⟨hok', hres', htruth⟩ := hagain
  exact ⟨hb, hok, hres, hok', hres', hlive, hint, htruth⟩

/-- The number one, of which it is only known that it is a reference. -/
def openLiteral : MethodDecl :=
  { (default : MethodDecl) with
    cls := "a.Main"
    name := "m"
    blocks := [{ (default : BlockDecl) with
      insns := [
        { (default : InsnDecl) with op := "const", result := "v", args := ["#1:?[object, array]"] }] }] }

/-- No code is rewritten here, but the first run settles the literal as an object, and the second one starts
    from that. -/
theorem infer_twice_differs_after_literal :
    let c : Context :=
      { hierarchy := Hierarchy.ofClasses [], config := { resolvers := [.removeGenerics] } }
    let b := openLiteral.build.toOption.getD default
    let first := infer c b.graph
    let again := infer c first.graph
    openLiteral.build = .ok b ∧ SparesCode c b.graph ∧ first.fault = none ∧ first.resolved = true ∧
      again.fault = none ∧ again.resolved = true ∧ first.graph.typeAt ⟨1⟩ = Ty.object ∧
      (first.graph.var ⟨0⟩).ty = Ty.int ∧ (again.graph.var ⟨0⟩).ty = Ty.boolean := by
  intro c b first again
  have hb : openLiteral.build = .ok b := ok_getD (by decide +kernel)
  have hcode : SparesCode c b.graph := by
    refine .inr fun r hr => ?_
    cases r <;> first | rfl | cases hr
  have hends : first.fault = none ∧ first.resolved = true ∧ again.fault = none ∧ again.resolved = true ∧
      first.graph.typeAt ⟨1⟩ = Ty.object ∧ (first.graph.var ⟨0⟩).ty = Ty.int ∧
      (again.graph.var ⟨0⟩).ty = Ty.boolean := by decide +kernel
  exact ⟨hb, hcode, hends⟩

end TypeRecovery.Inference
