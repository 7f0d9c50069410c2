import TypeRecovery.Proofs.Inference.Engine
import TypeRecovery.Proofs.Inference.Reached
import TypeRecovery.Proofs.Inference.Reports

/- The verdict on a method. Finishing looks for open sites at the placed instructions and at the
   parameters, and not in the list of variables. That this finds every open variable rests on the
   graph being well formed: each variable is a parameter or the result of a placed instruction. -/
namespace TypeRecovery.Inference

open MethodGraph Listing

section
variable {c : Context} {g : MethodGraph} {P : Set VarId}

/-! ## The end of a run -/

theorem ends_resolve {g' : MethodGraph} (h : Reached c g g') (r : Resolver) :
    Ends c g' (resolve r) (fun _ => Reached c g) (Reached c g) := by
  have hstep : Ends c g' (resolverStep r) (fun _ => Reached c g) (Reached c g) :=
    Ends.iff_after.mpr fun s hs => .resolver r s (hs ▸ h)
  refine .tryCatch' hstep fun fault g₁ h₁ => .ite' (fun _ => ?_) fun _ => ?_
  · exact .bind' (Q := fun _ => Reached c g) (.throw' _ h₁) fun _ _ h₂ =>
      .bind' (Q := fun _ => Reached c g) (.report' _ h₂) fun _ _ h₃ => .pure' h₃
  · exact .bind' (Q := fun _ => Reached c g) (.report' _ h₁) fun _ _ h₂ => .pure' h₂

theorem ends_escalate {g' : MethodGraph} (h : Reached c g g') (rs : List Resolver) :
    Ends c g' (escalate rs) (fun _ => Reached c g) (Reached c g) := by
  induction rs generalizing g' with
  | nil => exact .pure' h
  | cons r rs ih =>
    refine .bind' (ends_resolve h r) fun _ g₁ h₁ => .theGraph' ?_
    exact .ite' (fun _ => .note' _ h₁) fun _ => ih h₁

/-- A run ends in a graph that resolvers reach. -/
theorem reached_run (s : Session) (hs : s.graph = g) : Reached c g (run.after c s).2.graph := by
  have hrun : Ends c g run (fun _ => Reached c g) (Reached c g) := by
    refine .editThen' (.bind' (Q := fun _ => Reached c g) ?_ fun _ g₁ h₁ => .theGraph' ?_)
    · exact Ends.iff_after.mpr fun s hs => .reinit s (hs ▸ .pinned)
    · exact .ite' (fun _ => .read' (ends_escalate h₁ _)) fun _ => .pure' h₁
  exact Ends.iff_after.mp hrun s hs

/-! ## What is open -/

/-- Finishing has nothing to report if the sites of the placed instructions and the parameters have
    known types. -/
theorem openNotices_eq_nil : openNotices g = [] ↔
    (∀ i ∈ g.placed, ∀ s ∈ sitesOf (g.insn i), (g.typeAt s).isKnown = true) ∧
      ∀ v ∈ g.params, (g.var v).ty.isKnown = true := by
  unfold openNotices openSite?
  rw [List.append_eq_nil_iff, List.filterMap_eq_nil_iff, List.map_eq_nil_iff, List.filter_eq_nil_iff]
  simp

/-- A variable in use is a parameter of the graph, or stands at a placed instruction. -/
theorem param_or_result (h : g.WellFormed P) {v : VarId} (hv : v ∈ g.live) :
    v ∈ g.params ∨ ∃ i ∈ g.placed, ∃ s ∈ sitesOf (g.insn i), g.varOf? s = some v := by
  obtain ⟨s, hs, hvar, ⟨-, howner⟩ | ⟨i, hi, -, hres⟩⟩ := h.defined v hv
  · refine .inl (List.mem_filter.mpr ⟨hv, ?_⟩)
    rw [hs, Option.any_some, howner]
    rfl
  · refine .inr ⟨i, hi, s, ?_, hvar⟩
    rw [sitesOf, hres]
    exact List.mem_cons_self

theorem literal_of_varOf?_none {s : SiteId} (h : g.varOf? s = none) :
    ∃ value, g.literal? s = some value := by
  unfold varOf? at h
  unfold literal?
  split at h
  · cases h
  · next value _ _ => exact ⟨value, rfl⟩

/-- In a well-formed graph that is so if all variables, and all literals that are arguments, have
    known types. -/
theorem openNotices_eq_nil_iff (h : g.WellFormed P) : openNotices g = [] ↔
    (∀ v ∈ g.live, (g.var v).ty.isKnown = true) ∧
      ∀ i ∈ g.placed, ∀ s ∈ (g.insn i).args, ∀ value, g.literal? s = some value →
        (g.typeAt s).isKnown = true := by
  rw [openNotices_eq_nil]
  constructor
  · rintro ⟨hsites, hparams⟩
    refine ⟨fun v hv => ?_, fun i hi s hs _ _ => hsites i hi s (List.mem_append_right _ hs)⟩
    rcases param_or_result h hv with hp | ⟨i, hi, s, hs, hvar⟩
    · exact hparams v hp
    · rw [← typeAt_of_varOf? hvar]
      exact hsites i hi s hs
  · rintro ⟨hvars, hlits⟩
    refine ⟨fun i hi s hs => ?_, fun v hv => hvars v (List.mem_of_mem_filter hv)⟩
    cases hvar : g.varOf? s with
    | some v =>
      rw [typeAt_of_varOf? hvar]
      exact hvars v (h.known i hi s hs v hvar)
    | none =>
      -- a result is a register, so this is an argument
      rcases List.mem_append.mp hs with hs | hs
      · obtain ⟨-, v, -, hv, -⟩ := h.result i hi s (by simpa using hs)
        rw [hv] at hvar
        cases hvar
      · obtain ⟨value, hvalue⟩ := literal_of_varOf?_none hvar
        exact hlits i hi s hs value hvalue

/-! ## The verdict -/

/-- Without a fault, the verdict is the result of finishing. -/
theorem infer_verdict (hcode : g.noCode = false) (hok : (infer c g).fault = none) :
    ∃ n s, finish.after c (run.after c { graph := g }).2 = (.ok n, s) ∧
      (infer c g).graph = s.graph ∧ (infer c g).resolved = (n == 0) ∧
      (infer c g).unresolved = n ∧ (infer c g).journal = s.journal := by
  unfold infer at hok ⊢
  rw [hcode] at hok ⊢
  simp only [Bool.false_eq_true, if_false, after_bind] at hok ⊢
  generalize run.after c { graph := g } = r at hok ⊢
  obtain ⟨fault | _, s⟩ := r
  · cases hok
  · simp only at hok ⊢
    generalize finish.after c s = r at hok ⊢
    obtain ⟨fault | n, s'⟩ := r
    · cases hok
    · exact ⟨n, s', rfl, rfl, rfl, rfl, rfl⟩

variable {m : MethodDecl} {b : Built}

/-- If every variable of a method has a definition and inference ends without a fault, then the method
    counts as resolved exactly if all variables of the final graph and all literals at its placed
    instructions have known types; and as many places are unresolved as open sites were reported. -/
theorem resolved_iff_all_known (hb : m.build = .ok b) (hdef : Defined b.graph) (c : Context)
    (hcode : b.graph.noCode = false) (hok : (infer c b.graph).fault = none) :
    ((infer c b.graph).resolved = true ↔
      (∀ v ∈ (infer c b.graph).graph.live, ((infer c b.graph).graph.var v).ty.isKnown = true) ∧
      ∀ i ∈ (infer c b.graph).graph.placed, ∀ s ∈ ((infer c b.graph).graph.insn i).args,
        ∀ value, (infer c b.graph).graph.literal? s = some value →
          ((infer c b.graph).graph.typeAt s).isKnown = true) ∧
    (infer c b.graph).unresolved =
      (infer c b.graph).journal.countP fun d => d.code == "E001" := by
  obtain ⟨n, s, hfinish, hg, hresolved, hunresolved, hjournal⟩ := infer_verdict hcode hok
  obtain ⟨hcount, hreports⟩ := finish_counts hfinish
  have hquiet := quiet_run.count c { graph := b.graph }
  have hrun := (sound_of_build_reached hb hdef (reached_run (c := c) { graph := b.graph } rfl)).wired
  -- finishing writes types only, so the graph at the end has the links of the one before
  have hkept := kept_finish (c := c) (run.after c { graph := b.graph }).2
  rw [hfinish] at hkept
  have hwired := hrun.congr hkept.graph.framed.sameLinks
  rw [hg, hresolved, hunresolved, hjournal, ← openNotices_eq_nil_iff hwired.wellFormed, beq_iff_eq,
    hcount, List.length_eq_zero_iff]
  refine ⟨Iff.rfl, ?_⟩
  change _ = openReports s.journal
  rw [hreports, hquiet]
  exact (Nat.zero_add _).symm

/-- A zero that is thrown, and that is also an index into an array of which nothing is known. -/
def indexedZero : MethodDecl :=
  { (default : MethodDecl) with
    cls := "a.Main"
    name := "m"
    params := [{ (default : ParamDecl) with var := "q" }]
    blocks := [{ (default : BlockDecl) with
      insns := [
        { (default : InsnDecl) with op := "const", result := "z", args := ["#0"] },
        { (default : InsnDecl) with op := "aget", result := "r", args := ["q", "z:int"] },
        { (default : InsnDecl) with op := "throw", args := ["z:java.lang.Error"] }] }] }

/-- Splitting the constant settles all but the array, which is reported as a parameter and where it is
    read. -/
theorem resolved_iff_all_known_at_zero :
    let c : Context :=
      { hierarchy := Hierarchy.ofClasses [], config := { resolvers := [.splitConsts] } }
    let b := indexedZero.build.toOption.getD default
    indexedZero.build = .ok b ∧ Defined b.graph ∧ (infer c b.graph).fault = none ∧
      (infer c b.graph).resolved = false ∧
      (infer c b.graph).graph.live.length = b.graph.live.length + 1 ∧
      ((infer c b.graph).journal.countP fun d => d.code == "E001") = 2 ∧
      ¬((∀ v ∈ (infer c b.graph).graph.live, ((infer c b.graph).graph.var v).ty.isKnown = true) ∧
        ∀ i ∈ (infer c b.graph).graph.placed, ∀ s ∈ ((infer c b.graph).graph.insn i).args,
          ∀ value, (infer c b.graph).graph.literal? s = some value →
            ((infer c b.graph).graph.typeAt s).isKnown = true) := by
  intro c b
  have hb : indexedZero.build = .ok b := ok_getD (by decide +kernel)
  have hstart : Defined b.graph ∧ b.graph.noCode = false := by decide +kernel
  have hend : (infer c b.graph).fault = none ∧ (infer c b.graph).resolved = false ∧
      (infer c b.graph).unresolved = 2 ∧
      (infer c b.graph).graph.live.length = b.graph.live.length + 1 := by decide +kernel
  obtain ⟨hdef, hcode⟩ := hstart
  obtain ⟨hok, hopen, hcount, hlive⟩ := hend
  obtain ⟨hiff, hreports⟩ := resolved_iff_all_known hb hdef c hcode hok
  rw [hcount] at hreports
  rw [hopen] at hiff
  exact ⟨hb, hdef, hok, hopen, hlive, hreports.symm, fun hall => Bool.noConfusion (hiff.mpr hall)⟩

end
end TypeRecovery.Inference
