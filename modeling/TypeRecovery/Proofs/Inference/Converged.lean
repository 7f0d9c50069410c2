import TypeRecovery.Proofs.Inference.Repeated
import TypeRecovery.Proofs.Inference.Settling

/- What finishing guarantees when it converges. A round of mending without a change is a common fixed
   point of all its rules, since each step says whether it has changed the graph. Settling then moves
   all sites of a phi by one rule, and leaves known types alone, so it breaks neither the phis nor the
   arguments of overloaded calls. -/
namespace TypeRecovery.Inference

open MethodGraph Listing

/-! ## Rounds without a change -/

/-- A step that ends in `false` has left the graph as it was. -/
def Tells (m : Infer Bool) : Prop :=
  ∀ c st st', m.after c st = (.ok false, st') → st'.graph = st.graph

/-- The step never ends in `false`. -/
def Insists (m : Infer Bool) : Prop := ∀ c st st', m.after c st ≠ (.ok false, st')

section
variable {c : Context} {g : MethodGraph} {st st' : Session}

theorem insists_or (m : Infer Bool) : Insists (m >>= fun second => pure (true || second)) := by
  intro c st st' h
  obtain ⟨second, st₁, -, h⟩ := ok_of_after_bind h
  cases h

theorem insists_theGraph {f : MethodGraph → Infer Bool} (hf : ∀ g, Insists (f g)) :
    Insists (theGraph >>= f) := fun c st st' h => hf st.graph c st st' h

theorem insists_ite {p : Prop} [Decidable p] {m n : Infer Bool} (hm : Insists m) (hn : Insists n) :
    Insists (if p then m else n) := by
  by_cases hp : p
  · rw [if_pos hp]; exact hm
  · rw [if_neg hp]; exact hn

/-- A step whose `true` what follows does not take back. -/
theorem tells_bind {m : Infer Bool} {f : Bool → Infer Bool} (hm : Tells m) (hf : Tells (f false))
    (ht : Insists (f true)) : Tells (m >>= f) := by
  intro c st st' h
  obtain ⟨first, st₁, h₁, h₂⟩ := ok_of_after_bind h
  cases first with
  | true => exact absurd h₂ (ht c st₁ st')
  | false => exact (hf c st₁ st' h₂).trans (hm c st st₁ h₁)

theorem tells_pure (b : Bool) : Tells (pure b) := by
  intro c st st' h
  cases h
  rfl

theorem tells_ite {p : Prop} [Decidable p] {m n : Infer Bool} (hm : Tells m) (hn : Tells n) :
    Tells (if p then m else n) := by
  by_cases hp : p
  · rw [if_pos hp]; exact hm
  · rw [if_neg hp]; exact hn

theorem tells_theGraph {f : MethodGraph → Infer Bool} (hf : ∀ g, Tells (f g)) :
    Tells (theGraph >>= f) := fun c st st' h => hf st.graph c st st' h

theorem tells_edit {f : MethodGraph → Bool × MethodGraph} (hf : ∀ g, (f g).1 = false → (f g).2 = g) :
    Tells (edit f) := by
  intro c st st' h
  obtain ⟨hfalse, rfl⟩ := Prod.mk.inj h
  exact hf st.graph (Except.ok.inj hfalse)

theorem tells_mergeAt (s : SiteId) (t : Ty) : Tells (mergeAt s t) := by
  intro c st st' h
  rw [mergeAt, after_read, after_theGraph] at h
  simp only at h
  split at h
  · cases h
    rfl
  · split at h
    · have hreport : Steps Eq c st.graph (do
          if (st.graph.typeAt s).isKnown && t.isKnown then
            reportIncompatible s (st.graph.typeAt s) t
          return false) anyResult := by
        refine .ite' (fun _ => ?_) fun _ => .done' _
        exact .bind' (steps_reportIncompatible _ _ _) fun _ _ _ _ => .done' _
      have hkept := (hreport st rfl).1.graph
      rw [h] at hkept
      exact hkept.symm
    · split at h
      · cases h
        rfl
      · split at h
        · cases h
          rfl
        · cases h

theorem tells_second {m : Infer Bool} (hm : Tells m) :
    Tells (m >>= fun second => pure (false || second)) :=
  tells_bind hm (tells_pure _) fun c st st' h => by cases h

theorem tells_mergeBoth (a b : SiteId) : Tells (mergeBoth a b) := by
  refine tells_theGraph fun _ => tells_bind (tells_mergeAt a _) ?_ ?_
  · exact tells_theGraph fun _ => tells_second (tells_mergeAt b _)
  · exact insists_theGraph fun _ => insists_or _

theorem tells_fixConst (result literal : SiteId) : Tells (fixConst result literal) := by
  refine tells_theGraph fun g => ?_
  split
  · exact tells_ite (tells_edit fun _ h => by cases h) (tells_mergeAt _ _)
  · exact tells_mergeAt _ _

theorem tells_fixArray (array elem : SiteId) : Tells (fixArray array elem) := by
  have hpair {m : Infer Bool} (hm : Tells m) : Tells (do
      let first ← m
      let g ← theGraph
      let second ←
        if (g.typeAt array).isKnown then pure false else mergeAt array (.array (g.typeAt elem))
      return first || second) := by
    refine tells_bind hm ?_ ?_
    · refine tells_theGraph fun _ => tells_ite ?_ ?_
      · exact tells_second (tells_pure false)
      · exact tells_second (tells_mergeAt _ _)
    · exact insists_theGraph fun _ => insists_ite (insists_or _) (insists_or _)
  refine tells_theGraph fun g => ?_
  split
  · exact hpair (tells_mergeAt elem _)
  · exact hpair (tells_pure false)

/-! Steps over a graph that note a change. -/

/-- A fold of steps that each leave all as it is or note a change. -/
theorem foldl_noted {σ α : Type} {step : Bool × σ → α → Bool × σ}
    (hstep : ∀ x a, step x a = x ∨ (step x a).1 = true) {l : List α} {s : σ}
    (h : (l.foldl step (false, s)).1 = false) :
    l.foldl step (false, s) = (false, s) ∧ ∀ a ∈ l, step (false, s) a = (false, s) := by
  -- a change that was noted stays noted
  have htrue (l : List α) (x : Bool × σ) (hx : x.1 = true) : (l.foldl step x).1 = true := by
    induction l generalizing x with
    | nil => exact hx
    | cons a l ih =>
      refine ih _ ?_
      rcases hstep x a with ha | ha
      · rw [ha]
        exact hx
      · exact ha
  induction l with
  | nil => exact ⟨rfl, nofun⟩
  | cons a l ih =>
    rcases hstep (false, s) a with ha | ha
    · rw [List.foldl_cons, ha] at h ⊢
      obtain ⟨hall, heach⟩ := ih h
      exact ⟨hall, List.forall_mem_cons.mpr ⟨ha, heach⟩⟩
    · rw [List.foldl_cons, htrue l _ ha] at h
      cases h

/-- A phi that is not mended gives its unpinned sites the type of its unpinned result. -/
theorem fixPhi_false {insn : Insn} (h : (fixPhi g insn).1 = false) : (fixPhi g insn).2 = g ∧
    ∀ r, insn.result = some r → g.isPinnedAt r = false →
      ∀ s ∈ insn.args, g.isPinnedAt s = false → g.typeAt s = g.typeAt r := by
  unfold fixPhi at h ⊢
  cases hr : insn.result with
  | none => exact ⟨rfl, nofun⟩
  | some r =>
    rw [hr] at h
    simp only at h ⊢
    -- which type the phi would spread does not matter, since the result has it already
    generalize (if (g.typeAt r).isKnown = true then g.typeAt r else _) = t at h ⊢
    have hstep (x : Bool × MethodGraph) (s : SiteId) :
        assignType t x s = x ∨ (assignType t x s).1 = true := by
      unfold assignType
      simp only
      split
      · exact .inl rfl
      · exact .inr rfl
    obtain ⟨hall, heach⟩ := foldl_noted hstep h
    have htype (s : SiteId) (hs : s ∈ r :: insn.args) (hp : g.isPinnedAt s = false) :
        g.typeAt s = t := by
      have hs := heach s hs
      unfold assignType at hs
      simp only [hp, Bool.false_or, decide_eq_true_eq] at hs
      split at hs
      · next ht => exact ht
      · cases hs
    refine ⟨congrArg Prod.snd hall, fun r' hr' hp s hs hps => ?_⟩
    cases hr'
    rw [htype s (List.mem_cons_of_mem r hs) hps, htype r List.mem_cons_self hp]

/-- An overloaded call that is not mended has the declared types at its unpinned registers. -/
theorem fixOverloaded_false {insn : Insn} (h : (fixOverloaded g insn).1 = false) :
    (fixOverloaded g insn).2 = g ∧ ∀ callee, insn.callee = some callee → callee.overloaded = true →
      ∀ s t, (s, t) ∈ insn.args.reverse.zip callee.params.reverse → g.isRegister s = true →
        g.isPinnedAt s = false → t = some (g.typeAt s) := by
  unfold fixOverloaded at h ⊢
  cases hc : insn.callee with
  | none => exact ⟨rfl, nofun⟩
  | some callee =>
    rw [hc] at h
    simp only at h ⊢
    split at h
    · next hover =>
      rw [if_pos hover]
      refine ⟨rfl, fun callee' hc' hover' => ?_⟩
      cases hc'
      rw [hover'] at hover
      cases hover
    · next hover =>
      rw [if_neg hover]
      have hstep (x : Bool × MethodGraph) (e : SiteId × Option Ty) :
          (if x.2.isRegister e.1 && !x.2.isPinnedAt e.1 && e.2 != some (x.2.typeAt e.1) then
            (true, x.2.setType e.1 e.2) else (x.1, x.2)) = x ∨
          (if x.2.isRegister e.1 && !x.2.isPinnedAt e.1 && e.2 != some (x.2.typeAt e.1) then
            (true, x.2.setType e.1 e.2) else (x.1, x.2)).1 = true := by
        split
        · exact .inr rfl
        · exact .inl rfl
      obtain ⟨hall, heach⟩ := foldl_noted hstep h
      refine ⟨congrArg Prod.snd hall, fun callee' hc' _ s t hst hreg hp => ?_⟩
      cases hc'
      have hs := heach (s, t) hst
      simp only [hreg, hp, Bool.not_false, Bool.and_true, Bool.true_and] at hs
      split at hs
      · cases hs
      · next ht => simpa using ht

theorem fixCast_false {insn : Insn} (h : (fixCast g insn).1 = false) : (fixCast g insn).2 = g := by
  unfold fixCast at h ⊢
  split
  · next hr ht =>
    rw [hr, ht] at h
    simp only at h ⊢
    split at h
    · next hkeep => rw [if_pos hkeep]
    · cases h
  · rfl

theorem tells_fixInsn (i : InsnId) : Tells (fixInsn i) := by
  refine tells_theGraph fun g => ?_
  simp only
  split
  · exact tells_fixConst _ _
  · exact tells_mergeBoth _ _
  · exact tells_fixArray _ _
  · exact tells_fixArray _ _
  · exact tells_mergeBoth _ _
  · exact tells_edit fun _ h => (fixOverloaded_false h).1
  · exact tells_edit fun _ h => fixCast_false h
  · exact tells_edit fun _ h => (fixPhi_false h).1
  · exact tells_pure false

/-- Mending the instruction would change nothing. -/
def Mended (c : Context) (g : MethodGraph) (i : InsnId) : Prop :=
  ∃ st st', st.graph = g ∧ (fixInsn i).after c st = (.ok false, st')

/-- A round without a change is a fixed point of each of its steps. -/
theorem mended_of_round {l : List InsnId} (h : (anyOf fixInsn l).after c st = (.ok false, st')) :
    st'.graph = st.graph ∧ ∀ i ∈ l, Mended c st.graph i := by
  induction l generalizing st with
  | nil =>
    cases h
    exact ⟨rfl, nofun⟩
  | cons i l ih =>
    obtain ⟨first, st₁, h₁, h⟩ := ok_of_after_bind h
    obtain ⟨others, st₂, h₂, h⟩ := ok_of_after_bind h
    cases first with
    | true => cases h
    | false =>
      cases others with
      | true => cases h
      | false =>
        cases h
        -- the first step leaves its graph to the others
        have hg := tells_fixInsn i c st st₁ h₁
        obtain ⟨hg', hrest⟩ := ih h₂
        rw [hg] at hg' hrest
        exact ⟨hg', List.forall_mem_cons.mpr ⟨⟨st, st₁, rfl, h₁⟩, hrest⟩⟩

theorem mended_of_fixRounds {rounds : Nat} (h : (fixRounds rounds).after c st = (.ok true, st')) :
    ∀ i ∈ st'.graph.placed, Mended c st'.graph i := by
  induction rounds generalizing st with
  | zero => cases h
  | succ rounds ih =>
    rw [fixRounds, after_theGraph] at h
    obtain ⟨changed, st₁, h₁, h⟩ := ok_of_after_bind h
    cases changed with
    | true => exact ih h
    | false =>
      cases h
      obtain ⟨hg, hround⟩ := mended_of_round h₁
      rw [hg]
      exact hround

theorem Mended.phi {i : InsnId} (h : Mended c g i) (hop : (g.insn i).opcode = .phi) :
    ∀ r, (g.insn i).result = some r → g.isPinnedAt r = false →
      ∀ s ∈ (g.insn i).args, g.isPinnedAt s = false → g.typeAt s = g.typeAt r := by
  obtain ⟨st, st', rfl, h⟩ := h
  rw [fixInsn, after_theGraph] at h
  simp only [hop] at h
  exact (fixPhi_false (Except.ok.inj (Prod.mk.inj h).1)).2

theorem Mended.call {i : InsnId} (h : Mended c g i) (hop : (g.insn i).opcode = .invoke) {callee : Callee}
    (hc : (g.insn i).callee = some callee) (ho : callee.overloaded = true) :
    ∀ s t, (s, t) ∈ (g.insn i).args.reverse.zip callee.params.reverse → g.isRegister s = true →
      g.isPinnedAt s = false → t = some (g.typeAt s) := by
  obtain ⟨st, st', rfl, h⟩ := h
  rw [fixInsn, after_theGraph] at h
  simp only [hop] at h
  exact (fixOverloaded_false (Except.ok.inj (Prod.mk.inj h).1)).2 callee hc ho

/-! ## What was reported -/

/-- Reports are only added. -/
def Recorded (s s' : Session) : Prop := s.journal <+: s'.journal

instance : IsPreorder Session Recorded where
  refl _ := List.prefix_rfl
  trans _ _ _ h h' := h.trans h'

theorem composes_recorded : Composes fun m => ∀ c s, Recorded s (m.after c s).2 :=
  composes_of_session (fun _ _ _ _ => List.prefix_rfl) (fun _ _ => List.prefix_rfl)
    (fun _ _ _ => List.prefix_append _ _) fun _ _ _ => List.prefix_rfl

/-- The sites read variables of the table as before. -/
def KeepsTable (s s' : Session) : Prop := Supplied s.graph s'.graph

instance : IsPreorder Session KeepsTable where
  refl _ := .refl _
  trans _ _ _ h h' := h.trans h'

theorem composes_keepsTable : Composes fun m => ∀ c s, KeepsTable s (m.after c s).2 :=
  composes_of_session (fun _ _ _ h => h) (fun _ _ => .refl _) (fun _ _ _ => .refl _)
    fun _ _ _ => .refl _

/-! ## The end of finishing -/

/-- Settling comes to a result, and settles the sites of the placed instructions and the definitions of
    the parameters. -/
theorem outcome_settleSites (c : Context) (hst : ∀ i ∈ st.graph.placed,
      ∀ s ∈ sitesOf (st.graph.insn i), Grounded st.graph s)
    (hparams : ∀ v ∈ st.graph.params, ∀ s ∈ (st.graph.var v).assign, Grounded st.graph s) :
    ∃ st', settleSites.after c st = (.ok (), st') ∧ Settling st.graph st'.graph ∧
      (∀ i ∈ st.graph.placed, ∀ s ∈ sitesOf (st.graph.insn i),
        st'.graph.typeAt s = (st.graph.typeAt s).settled) ∧
      ∀ v ∈ st.graph.params, ∀ s ∈ (st.graph.var v).assign,
        st'.graph.typeAt s = (st.graph.typeAt s).settled := by
  have hsettles := (Settles.forM' (c := c) (fun i => .sites' (sitesOf (st.graph.insn i)))
    st.graph.placed).bind' (Settles.forM' (fun v => .sites' (st.graph.var v).assign.toList)
      st.graph.params)
  obtain ⟨st', hend, hsettling, hsites⟩ := hsettles.outcome st fun s hs => by
    rcases List.mem_append.mp hs with hs | hs
    · obtain ⟨i, hi, hs⟩ := List.mem_flatMap.mp hs
      exact hst i hi s hs
    · obtain ⟨v, hv, hs⟩ := List.mem_flatMap.mp hs
      exact hparams v hv s (Option.mem_toList.mp hs)
  refine ⟨st', ?_, hsettling, fun i hi s hs => hsites s ?_, fun v hv s hs => hsites s ?_⟩
  · rw [settleSites, after_theGraph]
    exact hend
  · exact List.mem_append_left _ (List.mem_flatMap.mpr ⟨i, hi, hs⟩)
  · exact List.mem_append_right _ (List.mem_flatMap.mpr ⟨v, hv, Option.mem_toList.mpr hs⟩)

theorem after_settleSites (hst : st.graph.Tabled) (h : settleSites.after c st = (.ok (), st')) :
    Settling st.graph st'.graph ∧ ∀ i ∈ st.graph.placed, ∀ s ∈ sitesOf (st.graph.insn i),
      st'.graph.typeAt s = (st.graph.typeAt s).settled := by
  obtain ⟨st₁, h₁, hsettling, hsites, -⟩ :=
    outcome_settleSites c (fun _ _ s _ => hst s) fun _ _ s _ => hst s
  rw [h₁] at h
  cases h
  exact ⟨hsettling, hsites⟩

/-- What finishing does: it mends, reports if it gave up on that, settles, and reports what is open. -/
theorem stages_of_finish {n : Nat} (h : finish.after c st = (.ok n, st')) : ∃ converged st₁ st₂ st₃,
    (fixRounds c.limits.finalizeRounds).after c (beginStage st) = (.ok converged, st₁) ∧
      (st₂.graph = st₁.graph ∧ (converged = false →
        (Notice.unsettled c.limits.finalizeRounds).diagnostic st₁.graph.fullName ∈ st₂.journal)) ∧
      settleSites.after c st₂ = (.ok (), st₃) ∧ st'.graph = st₃.graph ∧ st₃.journal <+: st'.journal := by
  rw [finish_eq] at h
  obtain ⟨_, st₃, hsettle, h⟩ := ok_of_after_bind h
  rw [after_theGraph] at h
  obtain ⟨_, st₄, hreports, h⟩ := ok_of_after_bind h
  cases h
  obtain ⟨-, hg, hj⟩ := after_reports (openNotices st₃.graph) c st₃
  rw [hreports] at hg hj
  have hprefix : st₃.journal <+: st'.journal := hj ▸ List.prefix_append _ _
  rw [settleAll] at hsettle
  obtain ⟨_, st₀, hbegin, hsettle⟩ := ok_of_after_bind hsettle
  cases hbegin
  rw [after_read] at hsettle
  obtain ⟨converged, st₁, hrounds, hsettle⟩ := ok_of_after_bind hsettle
  cases converged with
  | true =>
    refine ⟨true, st₁, st₁, st₃, hrounds, ⟨rfl, fun hgaveUp => ?_⟩, hsettle, hg, hprefix⟩
    cases hgaveUp
  | false =>
    have hreport : (report (.unsettled c.limits.finalizeRounds) >>= fun _ => settleSites).after c st₁ =
        (.ok (), st₃) := hsettle
    obtain ⟨_, st₂, h₂, hrest⟩ := ok_of_after_bind hreport
    cases h₂
    refine ⟨false, st₁, _, st₃, hrounds, ?_, hrest, hg, hprefix⟩
    exact ⟨rfl, fun _ => List.mem_append_right _ List.mem_cons_self⟩

/-- Finishing that does not report that it gave up has come to a graph in which every placed instruction
    is mended, and settled its sites. -/
theorem finish_converged {n : Nat} (h : finish.after c st = (.ok n, st'))
    (hw : ∀ d ∈ st'.journal, d.code ≠ "W004") :
    ∃ g, Supplied st.graph g ∧ (∀ i ∈ g.placed, Mended c g i) ∧
      (g.Tabled → Settling g st'.graph ∧ ∀ i ∈ g.placed, ∀ s ∈ sitesOf (g.insn i),
        st'.graph.typeAt s = (g.typeAt s).settled) := by
  obtain ⟨converged, st₁, st₂, st₃, hrounds, ⟨hsame, hgaveUp⟩, hsites, hg, hj⟩ := stages_of_finish h
  rw [hg]
  cases converged with
  | true =>
    have htable := composes_keepsTable.fixRounds' c.limits.finalizeRounds c (beginStage st)
    rw [hrounds] at htable
    refine ⟨st₁.graph, htable, mended_of_fixRounds hrounds, fun hst => ?_⟩
    rw [← hsame] at hst ⊢
    exact after_settleSites hst hsites
  | false =>
    -- that it gave up is reported, and stays reported
    exfalso
    have hlater := composes_recorded.settleSites' c st₂
    rw [hsites] at hlater
    exact hw _ (hj.subset (hlater.subset (hgaveUp rfl))) rfl

/-! ## Graphs whose links are in order -/

variable {P U : Set VarId} {F : Set InsnId}

theorem tabled_of_wired (hg : g.Wired P F U) (hv : 0 < g.vars.size) : g.Tabled := by
  intro s v hs
  by_cases hheld : g.Holds s
  · exact hg.names.var s v hheld hs
  · -- a site beyond the table counts as one of the first variable
    rw [varOf?, site_of_size_le (Nat.le_of_not_lt hheld)] at hs
    cases hs
    exact hv

/-- Where there are no variables, propagation leaves nothing to the resolvers. -/
theorem allKnown_propagated (h : g.live = []) : allKnown (propagated c g) = true := by
  have hbounds := (initBounds_frame (pinVars g)).1.live
  have hpropagate := (steps_propagate (c := c) (g := initBounds (pinVars g))
    { graph := initBounds (pinVars g) } (refl_of (Retyped c) _)).1.graph.framed.live
  have hlive : (propagated c g).live = [] := by
    rw [propagated, hpropagate, hbounds, (sameLinks_pinVars g).live, h]
  rw [allKnown, hlive]
  rfl

/-- A graph without variables has no results and no registers as arguments, and inference adds none. -/
theorem infer_of_no_vars (hg : g.Wired P F U) (hcode : g.noCode = false)
    (hok : (infer c g).fault = none) (hv : g.vars.size = 0) (i : InsnId) :
    ((infer c g).graph.insn i).result = none ∧
      ∀ s ∈ ((infer c g).graph.insn i).args, (infer c g).graph.isRegister s = false := by
  have hlive : g.live = [] := by rw [hg.names.live, hv]; rfl
  have hframed := framed_infer (coherent_initBounds hg c) hcode hok (.inl (allKnown_propagated hlive))
  have hend := (hg.congr (sameLinks_pinVars _)).congr hframed.sameLinks
  have hnone : (infer c g).graph.vars.size = 0 := by
    rw [hframed.vars, (sameLinks_pinVars _).vars, hv]
  constructor
  · cases hr : ((infer c g).graph.insn i).result with
    | none => rfl
    | some r =>
      obtain ⟨v, -, hassign⟩ := hend.slots.result i r hr
      rw [var_of_size_le (Nat.le_of_eq hnone |>.trans (Nat.zero_le _))] at hassign
      cases hassign
  · intro s hs
    rw [isRegister, Option.isSome_eq_false_iff, Option.isNone_iff_eq_none,
      Option.eq_none_iff_forall_ne_some]
    intro v hvar
    have hlt := hend.names.var s v (hend.slots.holds_arg hs) hvar
    rw [hnone] at hlt
    exact Nat.not_lt_zero _ hlt

/-- If a graph has code, its links are in order, as those of every method that is built are, and finishing
    converges, then the unpinned inputs of every phi with an unpinned result have the type of that result,
    and in every overloaded call the unpinned registers have the known parameter types with which they are
    paired from the right. -/
theorem converged_types {start : MethodGraph} (hg : start.Wired P F U) (c : Context)
    (hcode : start.noCode = false) (hok : (infer c start).fault = none)
    (hw : ∀ d ∈ (infer c start).journal, d.code ≠ "W004") :
    let g := (infer c start).graph
    (∀ i ∈ g.placed, (g.insn i).opcode = .phi → ∀ r, (g.insn i).result = some r →
      g.isPinnedAt r = false → ∀ s ∈ (g.insn i).args, g.isPinnedAt s = false →
        g.typeAt s = g.typeAt r) ∧
    ∀ i ∈ g.placed, (g.insn i).opcode = .invoke → ∀ callee, (g.insn i).callee = some callee →
      callee.overloaded = true → ∀ (k : Nat) (s : SiteId) (t : Ty),
        (g.insn i).args.reverse[k]? = some s → callee.params.reverse[k]? = some (some t) →
        t.isKnown = true → g.isRegister s = true → g.isPinnedAt s = false → g.typeAt s = t := by
  intro g
  rcases Nat.eq_zero_or_pos start.vars.size with hnone | hsome
  · -- no phi has a result, and no call has a register
    have hempty := infer_of_no_vars hg hcode hok hnone
    refine ⟨fun i _ _ r hr => ?_, fun i _ _ callee _ _ k s t hs _ _ hreg => ?_⟩
    · rw [(hempty i).1] at hr
      cases hr
    · have hs := List.mem_reverse.mp (List.mem_of_getElem? hs)
      rw [(hempty i).2 s hs] at hreg
      cases hreg
  · obtain ⟨n, st, hfinish, hend, -, -, hj⟩ := infer_verdict hcode hok
    rw [hj] at hw
    obtain ⟨g₁, htable, hmended, hsettle⟩ := finish_converged hfinish hw
    have hrun := composes_keepsTable.run' c { graph := start }
    have htabled := htable.tabled (Supplied.tabled hrun (tabled_of_wired hg hsome))
    obtain ⟨hsettling, hsites⟩ := hsettle htabled
    rw [← hend] at hsettling hsites
    have hframed : Framed g₁ g := hsettling.framed
    have hplaced : g.placed = g₁.placed := by rw [placed, placed, hframed.blocks]
    have hinsn (i : InsnId) : g.insn i = g₁.insn i := insn_congr hframed.insns i
    simp only [hplaced, hinsn, hframed.isPinnedAt]
    refine ⟨fun i hi hop r hr hp s hs hps => ?_, fun i hi hop callee hc ho k s t hs ht hk hreg hp => ?_⟩
    · -- both were settled from one type
      have hsame := (hmended i hi).phi hop r hr hp s hs hps
      rw [hsites i hi s (List.mem_append_right _ hs), hsame,
        hsites i hi r (List.mem_append_left _ (Option.mem_toList.mpr hr))]
    · -- the declared type was there when the rounds ended, and settling leaves a known type alone
      have hpair : (s, some t) ∈ (g₁.insn i).args.reverse.zip callee.params.reverse :=
        List.mem_iff_getElem?.mpr ⟨k, List.getElem?_zip_eq_some.mpr ⟨hs, ht⟩⟩
      rw [isRegister, hframed.varOf] at hreg
      have hdeclared := Option.some.inj ((hmended i hi).call hop hc ho s (some t) hpair hreg hp)
      have harg := List.mem_reverse.mp (List.mem_of_getElem? hs)
      rw [hsites i hi s (List.mem_append_right _ harg), ← hdeclared, Ty.settled_of_isKnown hk]

/-- Two values of which nothing is known meet in a phi, and a parameter without a type is passed to an
    overloaded method. -/
def joinAndCall : MethodDecl :=
  { (default : MethodDecl) with
    cls := "a.Main"
    name := "m"
    params := [{ (default : ParamDecl) with var := "x" }]
    blocks := [
      { (default : BlockDecl) with
        insns := [{ (default : InsnDecl) with op := "sget", result := "a" }]
        succs := [1, 2] },
      { (default : BlockDecl) with
        insns := [{ (default : InsnDecl) with op := "sget", result := "b" }]
        succs := [2] },
      { (default : BlockDecl) with
        insns := [
          { (default : InsnDecl) with op := "phi", result := "p", args := ["a", "b"], incoming := [0, 1] },
          { (default : InsnDecl) with
            op := "invoke.static"
            args := ["p", "x"]
            callee := some { (default : CalleeDecl) with
              cls := "a.Util", name := "f", params := ["long"], overloaded := true } }] }] }

/-- The run leaves all variables open. Finishing takes the type of the last argument from the call and
    settles the rest. -/
theorem converged_types_at_join :
    let c : Context :=
      { hierarchy := Hierarchy.ofClasses [], config := { resolvers := [.forceImmutable] } }
    let b := joinAndCall.build.toOption.getD default
    let g := (infer c b.graph).graph
    joinAndCall.build = .ok b ∧ b.graph.noCode = false ∧ (infer c b.graph).fault = none ∧
      (∀ d ∈ (infer c b.graph).journal, d.code ≠ "W004") ∧
      (g.insn ⟨2⟩).opcode = .phi ∧ (g.insn ⟨2⟩).result = some ⟨3⟩ ∧ (g.insn ⟨2⟩).args = [⟨4⟩, ⟨5⟩] ∧
      g.typeAt ⟨4⟩ = g.typeAt ⟨3⟩ ∧ g.typeAt ⟨5⟩ = g.typeAt ⟨3⟩ ∧
      (g.insn ⟨3⟩).args = [⟨6⟩, ⟨7⟩] ∧ g.typeAt ⟨7⟩ = .prim .long := by
  intro c b g
  have hb : joinAndCall.build = .ok b := ok_getD (by decide +kernel)
  have hend : b.graph.noCode = false ∧ (infer c b.graph).fault = none ∧
      ∀ d ∈ (infer c b.graph).journal, d.code ≠ "W004" := by decide +kernel
  have hphi : ⟨2⟩ ∈ g.placed ∧ (g.insn ⟨2⟩).opcode = .phi ∧ (g.insn ⟨2⟩).result = some ⟨3⟩ ∧
      (g.insn ⟨2⟩).args = [⟨4⟩, ⟨5⟩] := by decide +kernel
  let callee := (g.insn ⟨3⟩).callee.getD default
  have hcall : ⟨3⟩ ∈ g.placed ∧ (g.insn ⟨3⟩).opcode = .invoke ∧ (g.insn ⟨3⟩).args = [⟨6⟩, ⟨7⟩] ∧
      (g.insn ⟨3⟩).callee = some callee ∧ callee.overloaded = true ∧
      callee.params = [some (.prim .long)] := by decide +kernel
  have hfree : g.isPinnedAt ⟨3⟩ = false ∧ g.isPinnedAt ⟨4⟩ = false ∧ g.isPinnedAt ⟨5⟩ = false ∧
      g.isPinnedAt ⟨7⟩ = false ∧ g.isRegister ⟨7⟩ = true := by decide +kernel
  obtain ⟨hcode, hok, hw⟩ := hend
  obtain ⟨hi, hop, hr, hargs⟩ := hphi
  obtain ⟨hi', hop', hargs', hcallee, hover, hparams⟩ := hcall
  obtain ⟨hp₃, hp₄, hp₅, hp₇, hreg⟩ := hfree
  obtain ⟨hphis, hcalls⟩ := converged_types (wired_build hb) c hcode hok hw
  have hjoin := hphis ⟨2⟩ hi hop ⟨3⟩ hr hp₃
  have hlong := hcalls ⟨3⟩ hi' hop' callee hcallee hover 0 ⟨7⟩ (.prim .long) (by rw [hargs']; rfl)
    (by rw [hparams]; rfl) rfl hreg hp₇
  refine ⟨hb, hcode, hok, hw, hop, hr, hargs, hjoin ⟨4⟩ ?_ hp₄, hjoin ⟨5⟩ ?_ hp₅, hargs', hlong⟩ <;>
  · rw [hargs]
    simp

/-- A method that is declared to have no code, and lists a call all the same. -/
def uncodedCall : MethodDecl :=
  { (default : MethodDecl) with
    cls := "a.Main"
    name := "m"
    noCode := true
    params := [{ (default : ParamDecl) with var := "x" }]
    blocks := [{ (default : BlockDecl) with
      insns := [{ (default : InsnDecl) with
        op := "invoke.static"
        args := ["x"]
        callee := some { (default : CalleeDecl) with
          cls := "a.Util", name := "f", params := ["int"], overloaded := true } }] }] }

/-- Nothing is inferred for it: the register stays open that is passed for a number. -/
theorem uncoded_call_stays_open :
    let c : Context := { hierarchy := Hierarchy.ofClasses [] }
    let b := uncodedCall.build.toOption.getD default
    let g := (infer c b.graph).graph
    uncodedCall.build = .ok b ∧ (infer c b.graph).fault = none ∧ (infer c b.graph).journal = [] ∧
      ⟨0⟩ ∈ g.placed ∧ (g.insn ⟨0⟩).opcode = .invoke ∧ (g.insn ⟨0⟩).args = [⟨1⟩] ∧
      ((g.insn ⟨0⟩).callee.map fun callee => (callee.overloaded, callee.params)) =
        some (true, [some Ty.int]) ∧
      g.isRegister ⟨1⟩ = true ∧ g.isPinnedAt ⟨1⟩ = false ∧ g.typeAt ⟨1⟩ = Ty.anything := by
  intro c b g
  have hb : uncodedCall.build = .ok b := ok_getD (by decide +kernel)
  refine ⟨hb, ?_⟩
  decide +kernel

end
end TypeRecovery.Inference
