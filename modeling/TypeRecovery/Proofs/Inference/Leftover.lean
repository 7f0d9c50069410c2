import TypeRecovery.Proofs.Inference.Converged

/- What finishing leaves open. It raises no fault, so it always comes to the settling of types, whether
   mending has converged or not; and settling never refuses, since a placeholder admits the kind that is
   chosen for it. Only two sorts of types have no such kind: a placeholder for nothing but `void`, and an
   array, which is left as it is even if its innermost element is open. -/
namespace TypeRecovery

namespace Ty

/-- An open type that settling has to leave as it is. -/
inductive Unsettleable : Ty → Prop
  | array {t : Ty} {ks : List Kind} (h : t.root = .hole ks) : Unsettleable (.array t)
  | void {ks : List Kind} (h : ∀ k ∈ ks, k = .void) : Unsettleable (.hole ks)

theorem isKnown_eq_false_iff {t : Ty} : t.isKnown = false ↔ ∃ ks, t.root = .hole ks := by
  fun_induction root t with
  | case1 t ih => exact ih
  | case2 t harray =>
    cases t with
    | hole ks => exact ⟨fun _ => ⟨ks, rfl⟩, fun _ => rfl⟩
    | array t => exact absurd rfl (harray t)
    | _ => exact ⟨nofun, nofun⟩

theorem Unsettleable.isKnown {t : Ty} (h : t.Unsettleable) : t.isKnown = false := by
  cases h with
  | array h => exact isKnown_eq_false_iff.mpr ⟨_, h⟩
  | void _ => rfl

/-- Every kind but `void` is one to settle on. -/
theorem mem_settleOrder {k : Kind} (h : k ≠ .void) : k ∈ settleOrder := by
  cases k with
  | void => exact absurd rfl h
  | _ => decide

/-- A settled type is open only where it could not be settled. -/
theorem isKnown_settled_eq_false_iff (t : Ty) :
    t.settled.isKnown = false ↔ t.settled.Unsettleable := by
  refine ⟨fun h => ?_, Unsettleable.isKnown⟩
  cases t with
  | hole ks =>
    rw [settled_hole] at h ⊢
    cases hfind : settleOrder.find? (ks.contains ·) with
    | some k =>
      rw [hfind, Option.map_some, Option.getD_some, isKnown_ofKind] at h
      cases h
    | none =>
      refine .void fun k hk => Classical.byContradiction fun hvoid => ?_
      exact List.find?_eq_none.mp hfind k (mem_settleOrder hvoid) (List.contains_iff_mem.mpr hk)
  | array t =>
    obtain ⟨ks, hroot⟩ := isKnown_eq_false_iff.mp h
    exact .array hroot
  | _ => cases h

end Ty

namespace Inference

open MethodGraph Listing

section
variable {c : Context} {g g' : MethodGraph} {m : MethodDecl} {b : Built}

/-! ## Finishing comes to an end -/

/-- Steps that always come to a result. -/
theorem chains_concludes :
    Chains fun {α} (m : Infer α) => ∀ c s, ∃ a s', m.after c s = (.ok a, s') where
  pure' a _ s := ⟨a, s, rfl⟩
  bind' {_ _ m f} hm hf c s := by
    obtain ⟨a, s₁, h₁⟩ := hm c s
    obtain ⟨b, s₂, h₂⟩ := hf a c s₁
    refine ⟨b, s₂, ?_⟩
    rw [after_bind, h₁]
    exact h₂
  read' hf c s := hf c c s
  theGraph' hf c s := hf s.graph c s
  reported' hf c s := hf s.reported c s
  edit' _ _ _ := ⟨_, _, rfl⟩
  note' records c s := by
    rw [note, after_read]
    split <;> exact ⟨_, _, rfl⟩
  report' _ _ _ := ⟨_, _, rfl⟩
  mark' _ _ _ := ⟨_, _, rfl⟩
  begin' _ _ := ⟨_, _, rfl⟩

/-! ## Links -/

/-- The links lead into the tables: a site of an instruction or a variable is one of the graph, and such
    a site reads a variable of the graph. -/
structure Anchored (g : MethodGraph) : Prop where
  intact : g.Intact
  reads : ∀ s, g.Holds s → Grounded g s

theorem Anchored.congr (h : Anchored g) (hf : Framed g g') : Anchored g' := by
  refine ⟨hf.intact h.intact, fun s hs => (h.reads s ?_).congr hf⟩
  rw [Holds, ← hf.size]
  exact hs

theorem tabled_of_reached (hg : g.Tabled) (h : Reached c g g') : g'.Tabled := by
  induction h with
  | start => exact hg
  | pinned => exact (supplied_pinVars g).tabled hg
  | reinit s _ ih => exact Supplied.tabled (composes_keepsTable.reinit' c s) ih
  | resolver r s _ ih => exact Supplied.tabled (composes_keepsTable.resolverStep' r c s) ih

theorem coherent_of_reached (hstart : Coherent c g) (hpinned : Coherent c (pinVars g))
    (h : Reached c g g') : Coherent c g' := by
  induction h with
  | start => exact hstart
  | pinned => exact hpinned
  | reinit s _ ih => exact (steps_reinit s (refl_of (Advance c) _)).1.graph.coherent ih
  | resolver r s _ ih =>
    exact (steps_resolverStep ih r s (refl_of (Advance c) _)).1.graph.coherent ih

/-- All graphs that resolvers reach from the graph of a method are anchored, also if the method has
    variables without a definition. -/
theorem anchored_of_reached (hb : m.build = .ok b) (h : Reached c b.graph g) : Anchored g := by
  obtain ⟨hintact, htyping⟩ := build_intact hb
  have hstart : Coherent c b.graph :=
    ⟨hintact, fun v => settled_of_open (congrArg Prod.fst (htyping v))⟩
  refine ⟨(coherent_of_reached hstart (coherent_of_build hb c) h).intact, fun s hs v hv => ?_⟩
  rcases Nat.eq_zero_or_pos b.graph.vars.size with hnone | hsome
  · -- a site beyond the table counts as one of a first variable, which is missing here; but without
    -- variables there is none without a definition
    have hdef : Defined b.graph := by
      intro v hv
      rw [(wired_build hb).names.live, hnone] at hv
      cases hv
    exact (sound_of_build_reached hb hdef h).wired.names.var s v hs hv
  · exact tabled_of_reached (tabled_of_wired (wired_build hb) hsome) h s v hv

/-! ## What is left -/

/-- At the sites of the placed instructions and at the parameters, the open types are those that could
    not be settled. -/
structure LeftOver (g : MethodGraph) : Prop where
  site : ∀ i ∈ g.placed, ∀ s ∈ sitesOf (g.insn i),
    (g.typeAt s).isKnown = false ↔ (g.typeAt s).Unsettleable
  param : ∀ v ∈ g.params, (g.var v).ty.isKnown = false ↔ (g.var v).ty.Unsettleable

theorem leftOver_of_settled (hf : Framed g g') (h : Anchored g)
    (hsites : ∀ i ∈ g.placed, ∀ s ∈ sitesOf (g.insn i), g'.typeAt s = (g.typeAt s).settled)
    (hparams : ∀ v ∈ g.params, ∀ s ∈ (g.var v).assign, g'.typeAt s = (g.typeAt s).settled) :
    LeftOver g' := by
  constructor
  · intro i hi s hs
    rw [placed, hf.blocks] at hi
    rw [insn_congr hf.insns] at hs
    rw [hsites i hi s hs]
    exact Ty.isKnown_settled_eq_false_iff _
  · intro v hv
    obtain ⟨hlive, hassign⟩ := List.mem_filter.mp hv
    obtain ⟨s, hs, howner⟩ := (Option.any_eq_true _ _).mp hassign
    rw [hf.assign] at hs
    have hparam : v ∈ g.params := by
      refine List.mem_filter.mpr ⟨hf.live ▸ hlive, ?_⟩
      rw [hs, Option.any_some, ← hf.owner]
      exact howner
    have hlink : g.varOf? s = some v := h.intact.linked v s (by simp [Var.sites, hs])
    rw [← typeAt_of_varOf? ((hf.varOf s).trans hlink), hparams v hparam s hs]
    exact Ty.isKnown_settled_eq_false_iff _

/-- Finishing comes to a result on any anchored graph, writes types only, and leaves open only what it
    cannot settle. -/
theorem outcome_finish (st : Session) (h : Anchored st.graph) : ∃ n st',
    finish.after c st = (.ok n, st') ∧ Framed st.graph st'.graph ∧ LeftOver st'.graph := by
  obtain ⟨n, st', hend⟩ := chains_concludes.finish' (fun _ _ _ => ⟨_, _, rfl⟩) c st
  refine ⟨n, st', hend, ?_⟩
  obtain ⟨_, st₁, st₂, st₃, hrounds, ⟨hsame, -⟩, hsites, hg, -⟩ := stages_of_finish hend
  have hmended := (steps_fixRounds (c := c) c.limits.finalizeRounds (beginStage st)
    (refl_of Finishing st.graph)).1.graph.framed
  rw [hrounds, ← hsame] at hmended
  have h₂ := h.congr hmended
  obtain ⟨_, hsettle, hsettling, hplaced, hparams⟩ := outcome_settleSites c
    (fun i _ s hs => h₂.reads s (h₂.intact.ofInsn i s hs))
    fun v _ s hs => h₂.reads s (h₂.intact.ofVar v s (by simp [Var.sites, Option.mem_def.mp hs]))
  rw [hsites] at hsettle
  cases hsettle
  rw [hg]
  exact ⟨trans_of Framed hmended hsettling.framed,
    leftOver_of_settled hsettling.framed h₂ hplaced hparams⟩

/-- Finishing a method, from any graph that resolvers reach and with whatever types were written since,
    comes to a result; and then a site of a placed instruction or a parameter is open only if its type
    is an array of a placeholder or a placeholder for nothing but `void`. So it is at the end of
    inference. -/
theorem finish_leaves_unsettleable (hb : m.build = .ok b) (c : Context) :
    (∀ g, Reached c b.graph g → ∀ st : Session, Framed g st.graph → ∃ n st',
      finish.after c st = (.ok n, st') ∧ Framed st.graph st'.graph ∧ LeftOver st'.graph) ∧
    (b.graph.noCode = false → (infer c b.graph).fault = none → LeftOver (infer c b.graph).graph) := by
  refine ⟨fun g hg st hst => outcome_finish st ((anchored_of_reached hb hg).congr hst), ?_⟩
  intro hcode hok
  obtain ⟨n, st, hfinish, hg, -⟩ := infer_verdict hcode hok
  have hreached := reached_run (c := c) { graph := b.graph } rfl
  obtain ⟨_, _, hend, -, hleft⟩ := outcome_finish _ (anchored_of_reached hb hreached)
  rw [hfinish] at hend
  cases hend
  rw [hg]
  exact hleft

/-- An element of an array of which nothing is known is read, a parameter is not used, and the result
    can only be `void`. -/
def openEnds : MethodDecl :=
  { (default : MethodDecl) with
    cls := "a.Main"
    name := "m"
    params := [{ (default : ParamDecl) with var := "q", type := "?[]", pinned := true },
      { (default : ParamDecl) with var := "x" }]
    blocks := [{ (default : BlockDecl) with
      insns := [
        { (default : InsnDecl) with op := "aget", result := "r", args := ["q", "#0:int"] },
        { (default : InsnDecl) with op := "return", args := ["#1:?[void]"] }] }] }

/-- Without a round to mend in, finishing gives up at once. It settles the element and the other
    parameter, and leaves the array and the result open; so it does if it comes before all else. -/
theorem finish_leaves_unsettleable_at_openEnds :
    let c : Context := { hierarchy := Hierarchy.ofClasses [], config :=
      { resolvers := [.forceImmutable], limits := { finalizeRounds := 0 } } }
    let b := openEnds.build.toOption.getD default
    let g := (infer c b.graph).graph
    openEnds.build = .ok b ∧ b.graph.noCode = false ∧ (infer c b.graph).fault = none ∧
      (∃ d ∈ (infer c b.graph).journal, d.code = "W004") ∧
      sitesOf (g.insn ⟨0⟩) = [⟨2⟩, ⟨3⟩, ⟨4⟩] ∧ g.typeAt ⟨2⟩ = Ty.int ∧ (g.typeAt ⟨3⟩).Unsettleable ∧
      sitesOf (g.insn ⟨1⟩) = [⟨5⟩] ∧ (g.typeAt ⟨5⟩).Unsettleable ∧
      g.params = [⟨0⟩, ⟨1⟩] ∧ (g.var ⟨0⟩).ty.Unsettleable ∧ (g.var ⟨1⟩).ty = Ty.int ∧
      ∃ n st', finish.after c { graph := b.graph } = (.ok n, st') ∧ LeftOver st'.graph := by
  intro c b g
  have hb : openEnds.build = .ok b := ok_getD (by decide +kernel)
  have hend : b.graph.noCode = false ∧ (infer c b.graph).fault = none ∧
      ∃ d ∈ (infer c b.graph).journal, d.code = "W004" := by decide +kernel
  have hcode : ⟨0⟩ ∈ g.placed ∧ ⟨1⟩ ∈ g.placed ∧ sitesOf (g.insn ⟨0⟩) = [⟨2⟩, ⟨3⟩, ⟨4⟩] ∧
      sitesOf (g.insn ⟨1⟩) = [⟨5⟩] ∧ g.params = [⟨0⟩, ⟨1⟩] := by decide +kernel
  have htypes : g.typeAt ⟨2⟩ = Ty.int ∧ (g.typeAt ⟨3⟩).isKnown = false ∧
      (g.typeAt ⟨5⟩).isKnown = false ∧ (g.var ⟨0⟩).ty.isKnown = false ∧ (g.var ⟨1⟩).ty = Ty.int := by
    decide +kernel
  obtain ⟨hnoCode, hok, hgaveUp⟩ := hend
  obtain ⟨hread, hreturn, hsites, hsites', hparams⟩ := hcode
  obtain ⟨helem, harray, hvoid, hparam, hother⟩ := htypes
  obtain ⟨hfinish, hinfer⟩ := finish_leaves_unsettleable hb c
  have hleft := hinfer hnoCode hok
  obtain ⟨n, st', hst', -, hleft'⟩ := hfinish _ .start { graph := b.graph } (refl_of Framed _)
  refine ⟨hb, hnoCode, hok, hgaveUp, hsites, helem, ?_, hsites', ?_, hparams, ?_, hother, n, st', hst',
    hleft'⟩
  · exact (hleft.site ⟨0⟩ hread ⟨3⟩ (by rw [hsites]; simp)).mp harray
  · exact (hleft.site ⟨1⟩ hreturn ⟨5⟩ (by rw [hsites']; simp)).mp hvoid
  · exact (hleft.param ⟨0⟩ (by rw [hparams]; simp)).mp hparam

end
end Inference
end TypeRecovery
