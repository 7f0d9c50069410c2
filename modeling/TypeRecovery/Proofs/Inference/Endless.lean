import TypeRecovery.Proofs.Inference.Routing
import TypeRecovery.Proofs.Inference.Verdict

/- Inference without an end. Of all that inference does, only inserting moves can lose its way, on a walk
   up from block to block that goes around in a circle. So inference finds no end just if inserting moves
   has its turn and does not end there. It has its turn if it is enabled, something is open after the first
   propagation, and each enabled resolver before it ends and leaves something open. -/
namespace TypeRecovery.Inference

open MethodGraph Listing

/-- Inference before the resolvers. -/
def startUp : Infer Unit := do
  edit fun g => ((), pinVars g)
  reinit

/-- From one state the resolvers of a list come to the turn of `r` in another: those before it end, and no
    one of them settles the method. -/
inductive Turn (c : Context) (r : Resolver) : List Resolver → Session → Session → Prop
  | now {rs s} : Turn c r (r :: rs) s s
  | later {q rs s helped s' t} (hended : (resolve q).after c s = (.ok helped, s'))
      (hopen : (helped && allKnown s'.graph) = false) (hrest : Turn c r rs s' t) :
      Turn c r (q :: rs) s t

/-- Inference of a graph comes to the turn of a resolver in a state. -/
def ComesTo (c : Context) (g : MethodGraph) (r : Resolver) (t : Session) : Prop :=
  ∃ s, startUp.after c { graph := g } = (.ok (), s) ∧ allKnown s.graph = false ∧
    Turn c r (Resolver.all.filter c.config.enables) s t

/-- Inserting moves has its turn, and does not end. -/
def LosesWay (c : Context) (g : MethodGraph) : Prop :=
  g.noCode = false ∧ ∃ t, ComesTo c g .insertMoves t ∧ (insertMoves.after c t).1 = .error .endless

section
variable {c : Context} {g : MethodGraph} {s t : Session}

/-- The fault of a way without an end is not caught, and no other resolver raises it. -/
theorem resolve_endless_iff {r : Resolver} : ((resolve r).after c s).1 = .error .endless ↔
    r = .insertMoves ∧ (insertMoves.after c s).1 = .error .endless := by
  have hothers : r ≠ .insertMoves → ((resolverStep r).after c s).1 ≠ .error .endless := by
    intro hr
    exact combines_ne_endless.resolverStep' hr c s
  have hstep : ((resolve r).after c s).1 = .error .endless ↔
      ((resolverStep r).after c s).1 = .error .endless := by
    rw [resolve, after_tryCatch]
    rcases (resolverStep r).after c s with ⟨fault | helped, s'⟩
    · cases fault with
      | endless => exact iff_of_true rfl rfl
      | tooDeep | noCandidates | missing => exact iff_of_false (fun h => by cases h) fun h => by cases h
    · simp
  rw [hstep]
  constructor
  · intro hend
    have hr : r = .insertMoves := by
      by_contra hr
      exact hothers hr hend
    subst hr
    exact ⟨rfl, hend⟩
  · intro h
    obtain ⟨rfl, hend⟩ := h
    exact hend

/-- Resolvers go on after one that ends and leaves something open, and only then. -/
theorem escalate_cons_endless_iff {q : Resolver} {rs : List Resolver} :
    ((escalate (q :: rs)).after c s).1 = .error .endless ↔
      ((resolve q).after c s).1 = .error .endless ∨
        ∃ helped s', (resolve q).after c s = (.ok helped, s') ∧
          (helped && allKnown s'.graph) = false ∧ ((escalate rs).after c s').1 = .error .endless := by
  rw [escalate, after_bind]
  rcases (resolve q).after c s with ⟨fault | helped, s'⟩
  · simp
  · have hnote := combines_ne_endless.note'
      [{ message := "types resolved", fields := [("resolver", q.name)] }] c s'
    cases helped <;> cases hknown : allKnown s'.graph <;> simp [after_theGraph, hknown, hnote]

theorem exists_turn_cons_iff {q r : Resolver} {rs : List Resolver} {E : Session → Prop} :
    (∃ t, Turn c r (q :: rs) s t ∧ E t) ↔ (q = r ∧ E s) ∨
      ∃ helped s', (resolve q).after c s = (.ok helped, s') ∧
        (helped && allKnown s'.graph) = false ∧ ∃ t, Turn c r rs s' t ∧ E t := by
  constructor
  · intro h
    obtain ⟨t, hturn, ht⟩ := h
    cases hturn with
    | now => exact .inl ⟨rfl, ht⟩
    | later hended hopen hrest => exact .inr ⟨_, _, hended, hopen, t, hrest, ht⟩
  · intro h
    rcases h with ⟨rfl, hs⟩ | ⟨helped, s', hended, hopen, t, hrest, ht⟩
    · exact ⟨s, .now, hs⟩
    · exact ⟨t, .later hended hopen hrest, ht⟩

/-- Resolvers find no end just if inserting moves is one of them, has its turn and does not end. -/
theorem escalate_endless_iff (rs : List Resolver) : ((escalate rs).after c s).1 = .error .endless ↔
    ∃ t, Turn c .insertMoves rs s t ∧ (insertMoves.after c t).1 = .error .endless := by
  induction rs generalizing s with
  | nil =>
    refine iff_of_false (combines_ne_endless.pure' () c s) ?_
    intro h
    obtain ⟨t, hturn, -⟩ := h
    cases hturn
  | cons q rs ih =>
    rw [escalate_cons_endless_iff, exists_turn_cons_iff, resolve_endless_iff]
    simp only [ih]

theorem run_endless_iff : (run.after c { graph := g }).1 = .error .endless ↔
    ∃ t, ComesTo c g .insertMoves t ∧ (insertMoves.after c t).1 = .error .endless := by
  have h := combines_ne_endless
  have hstart : (startUp.after c { graph := g }).1 ≠ .error .endless :=
    h.bind' (h.edit' supplied_pinVars) (fun _ => h.reinit') c _
  have hrun : run = (do
      startUp
      if !allKnown (← theGraph) then escalate (Resolver.all.filter (← read).config.enables)) := by
    simp only [run, startUp, bind_assoc]
  rw [hrun, after_bind]
  unfold ComesTo
  generalize startUp.after c { graph := g } = r at hstart ⊢
  obtain ⟨fault | ⟨⟩, s⟩ := r
  · refine iff_of_false (by simpa using hstart) ?_
    intro h
    obtain ⟨t, ⟨s', hs, -⟩, -⟩ := h
    cases hs
  · simp only [after_theGraph]
    cases hknown : allKnown s.graph with
    | true =>
      refine iff_of_false (h.pure' () c s) ?_
      intro h
      obtain ⟨t, ⟨s', hs, hopen, -⟩, -⟩ := h
      cases hs
      cases hknown.symm.trans hopen
    | false =>
      apply (escalate_endless_iff _).trans
      simp [hknown]

/-- **Inference finds no end just if inserting moves loses its way.** -/
theorem infer_endless_iff (c : Context) (g : MethodGraph) :
    (infer c g).fault = some .endless ↔ LosesWay c g := by
  have hfinish : ∀ s, (finish.after c s).1 ≠ .error .endless := by
    intro s
    exact combines_ne_endless.finish' (fun _ _ _ h => by cases h) c s
  unfold LosesWay
  rw [← run_endless_iff]
  cases hcode : g.noCode with
  | true => simp [infer, hcode]
  | false =>
    unfold infer
    rw [hcode]
    simp only [Bool.false_eq_true, if_false, after_bind, true_and]
    rcases run.after c { graph := g } with ⟨fault | ⟨⟩, s⟩
    · simp
    · have hend := hfinish s
      simp only
      generalize finish.after c s = r at hend ⊢
      obtain ⟨fault | n, s'⟩ := r
      · simpa using hend
      · simp

/-! ## Methods -/

theorem reached_turn {r : Resolver} {rs : List Resolver} (h : Turn c r rs s t)
    (hs : Reached c g s.graph) : Reached c g t.graph := by
  induction h with
  | now => exact hs
  | @later q _ s _ _ _ hended _ _ ih =>
    have hnext := Ends.iff_after.mp (ends_resolve hs q) s rfl
    rw [hended] at hnext
    exact ih hnext

theorem reached_comesTo {r : Resolver} (h : ComesTo c g r t) : Reached c g t.graph := by
  obtain ⟨s, hs, -, hturn⟩ := h
  refine reached_turn hturn ?_
  have hstart : Reached c g (startUp.after c { graph := g }).2.graph := .reinit _ .pinned
  rw [hs] at hstart
  exact hstart

variable {m : MethodDecl} {b : Built}

/-- If all variables of a method have a definition, then its inference loses its way just if it comes to
    inserting moves in a graph with a snared phi. -/
theorem losesWay_iff (hb : m.build = .ok b) (hdef : Defined b.graph) : LosesWay c b.graph ↔
    b.graph.noCode = false ∧ ∃ t, ComesTo c b.graph .insertMoves t ∧
      ∃ d ∈ t.graph.blockIds, ∃ phi ∈ t.graph.leadingPhis d, Snared t.graph phi := by
  refine and_congr_right fun _ => exists_congr fun t => and_congr_right fun hcomes => ?_
  have hwired := (sound_of_build_reached hb hdef (reached_comesTo hcomes)).wired
  exact insertMoves_endless_iff hwired c rfl

end

end TypeRecovery.Inference
