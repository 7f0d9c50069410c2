import TypeRecovery.Proofs.Inference.MoveSteps

/- Moves for one phi are all or nothing. Every input is checked for a place before the first edit, and
   each place is looked up again when its turn comes, with the earlier moves already standing in the
   blocks. A move is appended where no jump ends the block, so the way up from every other input stays as
   it was (`Paved`), and the inputs that need no move are the same (`routes_iff`). The moves are therefore
   the ones of a plan made before the first of them, and no input is refused midway. -/
namespace TypeRecovery.Inference

open MethodGraph Listing

section
variable {g : MethodGraph} {phi : InsnId} {s : SiteId} {place : BlockId}

/-! ## Plans -/

/-- The moves for these inputs with their places, in the order of the inputs. All is read in one graph. -/
inductive Plan (g : MethodGraph) : List (SiteId × Option BlockId) → List (SiteId × BlockId) → Prop where
  | nil : Plan g [] []
  /-- A literal, or a variable that is apart. -/
  | keep {s : SiteId} {b : Option BlockId} {inputs : List (SiteId × Option BlockId)}
      {moves : List (SiteId × BlockId)} :
      ¬Routes g s → Plan g inputs moves → Plan g ((s, b) :: inputs) moves
  | move {s : SiteId} {b place : BlockId} {inputs : List (SiteId × Option BlockId)}
      {moves : List (SiteId × BlockId)} :
      Routes g s → Ascends g (g.varOf? s) b (.place place) → Plan g inputs moves →
        Plan g ((s, some b) :: inputs) ((s, place) :: moves)

/-! The entries that the move with the number `k` adds: its variable, itself, its slots, and what the phi
    reads. -/

def freshVar (g : MethodGraph) (k : Nat) : VarId := ⟨g.vars.size + k⟩
def freshInsn (g : MethodGraph) (k : Nat) : InsnId := ⟨g.insns.size + k⟩
def moveResult (g : MethodGraph) (k : Nat) : SiteId := ⟨g.sites.size + 3 * k⟩
def moveSource (g : MethodGraph) (k : Nat) : SiteId := ⟨g.sites.size + 3 * k + 1⟩
def routedInput (g : MethodGraph) (k : Nat) : SiteId := ⟨g.sites.size + 3 * k + 2⟩

/-- What the phi reads in the place of an input. -/
def standIn (g : MethodGraph) (moves : List (SiteId × BlockId)) (s : SiteId) : SiteId :=
  ((moves.findIdx? (·.1 = s)).map (routedInput g)).getD s

/-- The moves that a block gets, in their order. -/
def movesInto (g : MethodGraph) (moves : List (SiteId × BlockId)) (b : BlockId) : List InsnId :=
  ((moves.zipIdx g.insns.size).filter (·.1.2 = b)).map fun m => ⟨m.2⟩

/-- The move with the number `k` moves the input `s` to a fresh variable, at a place, and the phi reads
    that variable. -/
structure RoutedBy (g : MethodGraph) (phi : InsnId) (k : Nat) (s : SiteId) (place : BlockId)
    (g' : MethodGraph) : Prop where
  insn : g'.insn (freshInsn g k) = moveInsn (some place) (moveResult g k) (moveSource g k)
  result : g'.site (moveResult g k) =
    { g.site s with operand := .reg (freshVar g k), owner := some (freshInsn g k) }
  source : g'.site (moveSource g k) = { g.site s with owner := some (freshInsn g k) }
  input : g'.site (routedInput g k) =
    { g.site s with operand := .reg (freshVar g k), owner := some phi }

/-- The graph `g'` is `g` with these moves: each stands at the end of its block, the phi reads their
    variables in the places of the inputs, and all else is as it was. -/
structure Rerouted (g : MethodGraph) (phi : InsnId) (moves : List (SiteId × BlockId)) (g' : MethodGraph) :
    Prop where
  vars : g'.vars.size = g.vars.size + moves.length
  insns : g'.insns.size = g.insns.size + moves.length
  blocks : g'.blocks.size = g.blocks.size
  insn : ∀ i, i.index < g.insns.size → i ≠ phi → g'.insn i = g.insn i
  args : g'.insn phi = { g.insn phi with args := (g.insn phi).args.map (standIn g moves) }
  block : ∀ b, g'.block b = { g.block b with insns := (g.block b).insns ++ movesInto g moves b }
  site : ∀ u, g.Holds u → (∀ m ∈ moves, m.1 ≠ u) → g'.site u = g.site u
  routed : ∀ k s place, moves[k]? = some (s, place) → RoutedBy g phi k s place g'

theorem standIn_of_not_mem {moves : List (SiteId × BlockId)} {u : SiteId} (h : ∀ m ∈ moves, m.1 ≠ u) :
    standIn g moves u = u := by
  have hnone : moves.findIdx? (·.1 = u) = none := by
    simpa using h
  rw [standIn, hnone]
  rfl

theorem Rerouted.nil (g : MethodGraph) (phi : InsnId) : Rerouted g phi [] g := by
  refine ⟨rfl, rfl, rfl, fun _ _ _ => rfl, ?_, fun b => ?_, fun _ _ _ => rfl, fun k s place h => ?_⟩
  · have hsame : (g.insn phi).args.map (standIn g []) = (g.insn phi).args :=
      List.map_id'' (fun u => standIn_of_not_mem fun _ h => by cases h) _
    rw [hsame]
  · simp [movesInto]
  · simp at h

section
variable {g₁ : MethodGraph} (e : MoveAdded g phi s place g₁)
include e

/-- The numbers of the later moves start with one. -/
theorem MoveAdded.numbers (k : Nat) : freshVar g₁ k = freshVar g (k + 1) ∧
    freshInsn g₁ k = freshInsn g (k + 1) ∧ moveResult g₁ k = moveResult g (k + 1) ∧
    moveSource g₁ k = moveSource g (k + 1) ∧ routedInput g₁ k = routedInput g (k + 1) := by
  simp only [freshVar, freshInsn, moveResult, moveSource, routedInput, e.vars, e.insns, e.sites,
    VarId.mk.injEq, InsnId.mk.injEq, SiteId.mk.injEq]
  omega

theorem MoveAdded.standIn_cons {moves : List (SiteId × BlockId)} (hmoves : ∀ m ∈ moves, g.Holds m.1)
    (u : SiteId) : standIn g₁ moves (if u = s then ⟨g.sites.size + 2⟩ else u) =
      standIn g ((s, place) :: moves) u := by
  by_cases hu : u = s
  · have hnot : ∀ m ∈ moves, m.1 ≠ ⟨g.sites.size + 2⟩ := fun m hm =>
      ne_of_holds (hmoves m hm) (Nat.le_add_right _ 2)
    rw [if_pos hu, standIn_of_not_mem hnot, standIn, List.findIdx?_cons]
    simp [hu, routedInput]
  · rw [if_neg hu, standIn, standIn, List.findIdx?_cons]
    have hinput : routedInput g₁ = routedInput g ∘ Nat.succ := funext fun k => (e.numbers k).2.2.2.2
    simp [Ne.symm hu, hinput, Function.comp_def]

theorem MoveAdded.movesInto_cons (moves : List (SiteId × BlockId)) (b : BlockId) :
    movesInto g ((s, place) :: moves) b =
      (if b = place then [⟨g.insns.size⟩] else []) ++ movesInto g₁ moves b := by
  rw [movesInto, movesInto, List.zipIdx_cons, List.filter_cons, e.insns]
  by_cases hb : b = place
  · simp [hb]
  · simp [hb, Ne.symm hb]

theorem MoveAdded.routedBy {g' : MethodGraph} {moves : List (SiteId × BlockId)}
    (h : Rerouted g₁ phi moves g') (hphi : phi.index < g.insns.size)
    (hmoves : ∀ m ∈ moves, g.Holds m.1) : RoutedBy g phi 0 s place g' := by
  -- the sites of this move are no inputs of later ones
  have hsite : ∀ n, g.sites.size ≤ n → n < g.sites.size + 3 → g'.site ⟨n⟩ = g₁.site ⟨n⟩ := by
    intro n hn hn'
    refine h.site ⟨n⟩ (by rw [Holds, e.sites]; exact hn') fun m hm hmn => ?_
    exact ne_of_holds (hmoves m hm) hn hmn
  have hne : (⟨g.insns.size⟩ : InsnId) ≠ phi := by
    rintro rfl
    exact Nat.lt_irrefl _ hphi
  refine ⟨?_, ?_, ?_, ?_⟩
  · exact (h.insn ⟨g.insns.size⟩ (by rw [e.insns]; exact Nat.lt_succ_self _) hne).trans e.move
  · exact (hsite _ (by omega) (by omega)).trans e.result
  · exact (hsite _ (by omega) (by omega)).trans e.source
  · exact (hsite _ (by omega) (by omega)).trans e.input

/-- A move, then the others. -/
theorem Rerouted.cons {g' : MethodGraph} {moves : List (SiteId × BlockId)}
    (h : Rerouted g₁ phi moves g') (hphi : phi.index < g.insns.size)
    (hmoves : ∀ m ∈ moves, g.Holds m.1 ∧ m.1 ≠ s) : Rerouted g phi ((s, place) :: moves) g' := by
  refine ⟨?_, ?_, h.blocks.trans e.blocks, fun i hi hip => ?_, ?_, fun b => ?_, fun u hu hus => ?_,
    fun k u p hk => ?_⟩
  · rw [h.vars, e.vars, List.length_cons]
    omega
  · rw [h.insns, e.insns, List.length_cons]
    omega
  · have hiI : i ≠ ⟨g.insns.size⟩ := by
      rintro rfl
      exact Nat.lt_irrefl _ hi
    rw [h.insn i (by rw [e.insns]; omega) hip, e.insn i hip hiI]
  · have hargs : ((g.insn phi).args.map fun u => if u = s then ⟨g.sites.size + 2⟩ else u).map
        (standIn g₁ moves) = (g.insn phi).args.map (standIn g ((s, place) :: moves)) := by
      rw [List.map_map]
      exact List.map_congr_left fun u _ => e.standIn_cons (fun m hm => (hmoves m hm).1) u
    rw [h.args, e.args, ← hargs]
  · rw [h.block, e.block, e.movesInto_cons]
    by_cases hb : b = place
    · simp [hb]
    · simp [hb]
  · have hu₁ : g₁.Holds u := by
      rw [Holds, e.sites]
      exact Nat.lt_add_right 3 hu
    rw [h.site u hu₁ fun m hm => hus m (List.mem_cons_of_mem _ hm)]
    exact e.site u hu fun heq => hus (s, place) List.mem_cons_self heq.symm
  · cases k with
    | zero =>
      cases hk
      exact e.routedBy h hphi fun m hm => (hmoves m hm).1
    | succ k =>
      rw [List.getElem?_cons_succ] at hk
      obtain ⟨hu, hus⟩ := hmoves (u, p) (List.mem_of_getElem? hk)
      obtain ⟨hinsn, hresult, hsource, hinput⟩ := h.routed k u p hk
      obtain ⟨hv, hi, hr, ha, hd⟩ := e.numbers k
      rw [hi, hr, ha] at hinsn
      rw [hr, hv, hi, e.site u hu hus] at hresult
      rw [ha, hi, e.site u hu hus] at hsource
      rw [hd, hv, e.site u hu hus] at hinput
      exact ⟨hinsn, hresult, hsource, hinput⟩

end

/-! ## The run over the inputs -/

/-- The input belongs to the phi and has a place for its move. -/
structure Pending (g : MethodGraph) (phi : InsnId) (input : SiteId × Option BlockId) : Prop where
  arg : input.1 ∈ (g.insn phi).args
  block : ∀ b, input.2 = some b → b.index < g.blocks.size
  placed : Placed g input

section
variable {c : Context} {P U : Set VarId} {g' : MethodGraph} (hg : g.Wired P ∅ U)
include hg

/-- An input is left alone, or gets its move. -/
theorem traps_routeInput {input : SiteId × Option BlockId} (hi : Pending g phi input) :
    Traps False c g (moveInput phi input) fun n g' => g'.Wired P ∅ U ∧
      (¬Routes g input.1 ∧ n = 0 ∧ g' = g ∨
        ∃ b place, input.2 = some b ∧ Routes g input.1 ∧ Ascends g (g.varOf? input.1) b (.place place) ∧
          n = 1 ∧ MoveAdded g phi input.1 place g' ∧ Paved (· ≠ phi) g g') := by
  obtain ⟨hmem, hblock, hplaced⟩ := hi
  obtain ⟨s, b?⟩ := input
  obtain ⟨b, place, rfl, hascends⟩ := hplaced
  have hheld := hg.slots.holds_arg hmem
  refine .theGraph' ?_
  split
  · next v d hv hd =>
    cases hd
    simp only at hv hascends
    rw [hv] at hascends
    have hmove := (ascends_iff.mp hascends).1
    by_cases hapart : isApart g v = true
    · rw [if_pos hapart]
      refine .pure' not_false ⟨hg, .inl ⟨?_, rfl, rfl⟩⟩
      rintro ⟨w, hw, hno⟩
      cases hv.symm.trans hw
      exact hno (isApart_iff.mp hapart)
    · rw [if_neg hapart]
      simp only [hmove]
      have hlt : place.index < g.blocks.size := ascend_lt hg.seats (some v) (hblock b rfl) hmove
      have hphi := hg.slots.owner_lt (hg.slots.arg phi s hmem)
      have hadd := paved_move hg hheld hv phi hlt (open_of_ascends hascends)
      have e := moveAdded_move hv hheld hmem (hg.slots.once phi) hphi hlt
      have hroutes : Routes g s := ⟨v, hv, fun h => hapart (isApart_iff.mpr h)⟩
      refine .edit' ?_
      simp only at hadd e ⊢
      refine ⟨hadd.1, .inr ⟨b, place, rfl, hroutes, ?_, trivial, e, hadd.2⟩⟩
      rw [hv]
      exact hascends
  · next hno =>
    refine .pure' not_false ⟨hg, .inl ⟨?_, rfl, rfl⟩⟩
    rintro ⟨v, hv, -⟩
    exact hno v b hv rfl

omit hg in
theorem Plan.subset {inputs : List (SiteId × Option BlockId)} {moves : List (SiteId × BlockId)}
    (h : Plan g inputs moves) {m : SiteId × BlockId} (hm : m ∈ moves) : m.1 ∈ inputs.map Prod.fst := by
  induction h with
  | nil => cases hm
  | keep _ _ ih => exact List.mem_cons_of_mem _ (ih hm)
  | move _ _ _ ih =>
    rcases List.mem_cons.mp hm with rfl | hm
    · exact List.mem_cons_self
    · exact List.mem_cons_of_mem _ (ih hm)

/-- The plan for the other inputs is the same after a move. -/
theorem MoveAdded.plan {g₁ : MethodGraph} (e : MoveAdded g phi s place g₁) (hg₁ : g₁.Wired P ∅ U)
    (hmem : s ∈ (g.insn phi).args) (hp : Paved (· ≠ phi) g g₁)
    {inputs : List (SiteId × Option BlockId)} (hin : ∀ input ∈ inputs, Pending g phi input)
    {moves : List (SiteId × BlockId)} (h : Plan g₁ inputs moves) : Plan g inputs moves := by
  induction h with
  | nil => exact .nil
  | keep hno _ ih =>
    have hheld := hg.slots.holds_arg (hin _ List.mem_cons_self).arg
    refine .keep (fun h => hno ((e.routes_iff hg hg₁ hmem hp hheld).mpr h)) (ih fun x hx => ?_)
    exact hin x (List.mem_cons_of_mem _ hx)
  | move hroutes hascends _ ih =>
    have hheld := hg.slots.holds_arg (hin _ List.mem_cons_self).arg
    refine .move ((e.routes_iff hg hg₁ hmem hp hheld).mp hroutes) ?_ (ih fun x hx => ?_)
    · rw [ascends_iff, hp.movePlace_input hg hheld] at hascends
      exact ascends_iff.mpr hascends
    · exact hin x (List.mem_cons_of_mem _ hx)

/-- The other inputs still have their places. -/
theorem Pending.later {g₁ : MethodGraph} (e : MoveAdded g phi s place g₁) (hp : Paved (· ≠ phi) g g₁)
    {input : SiteId × Option BlockId} (h : Pending g phi input) (hne : input.1 ≠ s) :
    Pending g₁ phi input := by
  refine ⟨?_, fun b hb => by rw [e.blocks]; exact h.block b hb, ?_⟩
  · rw [e.args]
    exact List.mem_map.mpr ⟨input.1, h.arg, if_neg hne⟩
  · exact (hp.placed_iff hg (hg.slots.holds_arg h.arg)).mpr h.placed

/-- **All inputs get their moves.** By induction on the inputs that are left: a move leaves the others
    where they were. -/
theorem traps_routeInputs (inputs : List (SiteId × Option BlockId))
    (honce : (inputs.map Prod.fst).Nodup) (hin : ∀ input ∈ inputs, Pending g phi input) :
    Traps False c g (totalOf (moveInput phi) inputs) fun n g' => g'.Wired P ∅ U ∧
      ∃ moves, Plan g inputs moves ∧ n = moves.length ∧ Rerouted g phi moves g' ∧
        (moves = [] → g' = g) := by
  induction inputs generalizing g with
  | nil => exact .pure' not_false ⟨hg, [], .nil, rfl, .nil g phi, fun _ => rfl⟩
  | cons input inputs ih =>
    rw [List.map_cons, List.nodup_cons] at honce
    have hfirst := hin input List.mem_cons_self
    have hrest := fun x hx => hin x (List.mem_cons_of_mem input hx)
    refine .after' (traps_routeInput hg hfirst) fun n₁ g₁ h₁ => ?_
    obtain ⟨hg₁, ⟨hno, rfl, rfl⟩ | ⟨b, place, hb, hroutes, hascends, rfl, e, hp⟩⟩ := h₁
    · refine .after' (ih hg₁ honce.2 hrest) fun n₂ g₂ h₂ => .pure' not_false ?_
      obtain ⟨hg₂, moves, hplan, rfl, hroute⟩ := h₂
      exact ⟨hg₂, moves, .keep hno hplan, Nat.zero_add _, hroute⟩
    · have hne : ∀ x ∈ inputs, x.1 ≠ input.1 := fun x hx heq =>
        honce.1 (heq ▸ List.mem_map_of_mem hx)
      have hlater := fun x hx => (hrest x hx).later hg e hp (hne x hx)
      refine .after' (ih hg₁ honce.2 hlater) fun n₂ g₂ h₂ => .pure' not_false ?_
      obtain ⟨hg₂, moves, hplan, rfl, hroute, -⟩ := h₂
      have hmoves : ∀ m ∈ moves, g.Holds m.1 ∧ m.1 ≠ input.1 := by
        intro m hm
        obtain ⟨x, hx, hxm⟩ := List.mem_map.mp (hplan.subset hm)
        rw [← hxm]
        exact ⟨hg.slots.holds_arg (hrest x hx).arg, hne x hx⟩
      refine ⟨hg₂, (input.1, place) :: moves, ?_, Nat.add_comm _ _, ?_, fun h => by cases h⟩
      · obtain ⟨s, b?⟩ := input
        cases hb
        exact .move hroutes hascends (e.plan hg hg₁ hfirst.arg hp hrest hplan)
      · exact hroute.cons e (hg.slots.owner_lt (hg.slots.arg phi _ hfirst.arg)) hmoves

/-! ## All or nothing -/

omit hg in
/-- If every input has a place, the check of all of them passes and reports nothing. -/
theorem after_allPlaced {st : Session} (hst : st.graph = g) (inputs : List (SiteId × Option BlockId))
    (h : ∀ input ∈ inputs, Placed g input) : (allPlaced inputs).after c st = (.ok true, st) := by
  subst hst
  induction inputs with
  | nil => rfl
  | cons input inputs ih =>
    obtain ⟨s, b?⟩ := input
    obtain ⟨b, place, rfl, hascends⟩ := h _ List.mem_cons_self
    unfold allPlaced
    rw [after_theGraph]
    simp only [(ascends_iff.mp hascends).1]
    exact ih fun x hx => h x (List.mem_cons_of_mem _ hx)

omit hg in
theorem after_of_agree {st : Session} (hagree : inputsAgree st.graph phi = true) :
    (movePhiInputs phi).after c st = (.ok 0, st) := by
  unfold movePhiInputs
  rw [after_theGraph]
  simp only [hagree]
  rfl

omit hg in
theorem after_of_disagree {st : Session} (hagree : inputsAgree st.graph phi = false) :
    (movePhiInputs phi).after c st = ((do
      if !(← allPlaced (phiInputs st.graph phi)) then return 0
      totalOf (moveInput phi) (phiInputs st.graph phi) : Infer Nat)).after c st := by
  unfold movePhiInputs
  rw [after_theGraph]
  simp only [hagree]
  rfl

omit hg in
/-- On the way into a circle nothing was written. -/
theorem after_of_snared {st : Session} (h : Snared st.graph phi) :
    ((movePhiInputs phi).after c st).1 = .error .endless ∧
      ((movePhiInputs phi).after c st).2.graph = st.graph := by
  have htraps := (traps_allPlaced (c := c) (phiInputs st.graph phi)).outcome st rfl
  have hsame : ((allPlaced (phiInputs st.graph phi)).after c st).2.graph = st.graph :=
    Ends.iff_after.mp (ends_allPlaced (E := (· = st.graph)) (phiInputs st.graph phi) rfl) st rfl
  rw [after_of_disagree h.1, after_bind]
  rcases hr : (allPlaced (phiInputs st.graph phi)).after c st with ⟨f | placed, st'⟩
  · rw [hr] at htraps hsame
    exact ⟨congrArg Except.error htraps.2, hsame⟩
  · rw [hr] at htraps
    exact absurd h.2 htraps.1

omit hg in
/-- One input without a place, and none gets a move. -/
theorem after_of_refused {st : Session} (hagree : inputsAgree st.graph phi = false)
    (hnot : ¬Snared st.graph phi) (h : ∃ input ∈ phiInputs st.graph phi, ¬Placed st.graph input) :
    ((movePhiInputs phi).after c st).1 = .ok 0 ∧
      ((movePhiInputs phi).after c st).2.graph = st.graph := by
  obtain ⟨input, hi, hrefused⟩ := h
  have htraps := (traps_allPlaced (c := c) (phiInputs st.graph phi)).outcome st rfl
  rw [after_of_disagree hagree, after_bind]
  rcases hr : (allPlaced (phiInputs st.graph phi)).after c st with ⟨f | placed, st'⟩
  · rw [hr] at htraps
    exact absurd ⟨hagree, htraps.1⟩ hnot
  · rw [hr] at htraps
    cases placed with
    | false => exact ⟨rfl, htraps.2.1⟩
    | true => exact absurd (htraps.2.2 rfl input hi) hrefused

theorem pending_of_mem {input : SiteId × Option BlockId} (hi : input ∈ phiInputs g phi)
    (hplaced : Placed g input) : Pending g phi input := by
  refine ⟨?_, (isInput_of_mem hg hi).2, hplaced⟩
  simp only [phiInputs, List.mem_map] at hi
  obtain ⟨⟨s, n⟩, hs, rfl⟩ := hi
  exact List.fst_mem_of_mem_zipIdx hs

/-- A phi with a place for each input gets the moves of a plan. -/
theorem after_of_placed {st : Session} (hst : st.graph = g) (hagree : inputsAgree g phi = false)
    (hall : ∀ input ∈ phiInputs g phi, Placed g input) :
    ∃ moves, Plan g (phiInputs g phi) moves ∧
      ((movePhiInputs phi).after c st).1 = .ok moves.length ∧
      ((movePhiInputs phi).after c st).2.graph.Wired P ∅ U ∧
      Rerouted g phi moves ((movePhiInputs phi).after c st).2.graph ∧
      (moves = [] → ((movePhiInputs phi).after c st).2.graph = g) := by
  subst hst
  have honce : ((phiInputs st.graph phi).map Prod.fst).Nodup := by
    have hargs : (phiInputs st.graph phi).map Prod.fst = (st.graph.insn phi).args := by
      simp [phiInputs, Function.comp_def]
    rw [hargs]
    exact hg.slots.once phi
  have hmoves := (traps_routeInputs (c := c) hg (phiInputs st.graph phi) honce fun input hi =>
    pending_of_mem hg hi (hall input hi)).outcome st rfl
  have hrun : (movePhiInputs phi).after c st =
      (totalOf (moveInput phi) (phiInputs st.graph phi)).after c st := by
    rw [after_of_disagree hagree, after_bind, after_allPlaced rfl _ hall]
    rfl
  rw [hrun]
  rcases hr : (totalOf (moveInput phi) (phiInputs st.graph phi)).after c st with ⟨f | n, st'⟩
  · rw [hr] at hmoves
    exact hmoves.1.elim
  · rw [hr] at hmoves
    obtain ⟨-, hg', moves, hplan, rfl, hroute⟩ := hmoves
    exact ⟨moves, hplan, rfl, hg', hroute⟩

end

/-! ## The places and the definitions -/

theorem real_of_ascends {w : Option VarId} {b : BlockId} (h : Ascends g w b (.place place)) :
    (g.block place).synthetic = false := by
  generalize hr : Ascent.place place = r at h
  induction h with
  | here hreal _ => cases hr; exact hreal
  | up _ _ ih => exact ih hr
  | _ => cases hr

/-- A block that takes a move is one of the code, and does not end in a jump. -/
theorem Plan.open_place {inputs : List (SiteId × Option BlockId)} {moves : List (SiteId × BlockId)}
    (h : Plan g inputs moves) {m : SiteId × BlockId} (hm : m ∈ moves) :
    (g.block m.2).synthetic = false ∧ endsInJump g m.2 = false := by
  induction h with
  | nil => cases hm
  | keep _ _ ih => exact ih hm
  | move _ hascends _ ih =>
    rcases List.mem_cons.mp hm with rfl | hm
    · exact ⟨real_of_ascends hascends, open_of_ascends hascends⟩
    · exact ih hm

/-- A move is the one definition of its variable. -/
theorem RoutedBy.defines {P U : Set VarId} {g' : MethodGraph} (hg' : g'.Wired P ∅ U) {k : Nat}
    (h : RoutedBy g phi k s place g') (i : InsnId) :
    (i ∈ g'.placed ∧ ∃ r, (g'.insn i).result = some r ∧ g'.varOf? r = some (freshVar g k)) ↔
      i = freshInsn g k := by
  have hresult : (g'.insn (freshInsn g k)).result = some (moveResult g k) := by
    rw [h.insn]
    rfl
  have hvar : g'.varOf? (moveResult g k) = some (freshVar g k) :=
    varOf?_eq_some.mpr (congrArg Site.operand h.result)
  constructor
  · -- two results on one variable are one slot, and the slot has one owner
    rintro ⟨hi, r, hr, hrv⟩
    obtain ⟨v, hv, hdef⟩ := hg'.slots.result i r hr
    obtain ⟨v', hv', hdef'⟩ := hg'.slots.result _ _ hresult
    cases hv.symm.trans hrv
    cases hv'.symm.trans hvar
    cases hdef.symm.trans hdef'
    have howner := ((hg'.tight i id).result _ hr).mpr (hg'.seats.mem_placed.mp hi)
    rw [h.result] at howner
    exact (Option.some.inj howner).symm
  · rintro rfl
    refine ⟨hg'.seats.mem_placed.mpr ?_, _, hresult, hvar⟩
    rw [h.insn]
    rfl

/-- Moves for a phi are all or nothing, in every graph whose links agree. If the way up from an input runs
    in a circle before one is refused, that is the fault, with nothing written. If the inputs agree, or one
    of them has no place, there are no moves and the graph is the same. Otherwise no input is refused:
    each register that is neither a constant nor a move used once is replaced, where it stands, by a fresh
    variable with one definition, a move of the old input at the end of a block of the code that no jump
    ended. All else is as it was, and if no input needs a move, so is the whole graph. -/
theorem phi_moves_all_or_nothing {P U : Set VarId} (c : Context) (phi : InsnId) (st : Session)
    (hg : st.graph.Wired P ∅ U) :
    let g := st.graph
    let out := (movePhiInputs phi).after c st
    (Snared g phi → out.1 = .error .endless ∧ out.2.graph = g) ∧
    (¬Snared g phi → inputsAgree g phi = true ∨ (∃ input ∈ phiInputs g phi, ¬Placed g input) →
      out.1 = .ok 0 ∧ out.2.graph = g) ∧
    (inputsAgree g phi = false → (∀ input ∈ phiInputs g phi, Placed g input) →
      ∃ moves, Plan g (phiInputs g phi) moves ∧ out.1 = .ok moves.length ∧
        Rerouted g phi moves out.2.graph ∧ (moves = [] → out.2.graph = g) ∧
        (∀ m ∈ moves, (g.block m.2).synthetic = false ∧ endsInJump g m.2 = false) ∧
        ∀ k < moves.length, ∀ i, (i ∈ out.2.graph.placed ∧ ∃ r, (out.2.graph.insn i).result = some r ∧
          out.2.graph.varOf? r = some (freshVar g k)) ↔ i = freshInsn g k) := by
  intro g out
  refine ⟨after_of_snared, fun hnot hcase => ?_, fun hagree hall => ?_⟩
  · by_cases hagree : inputsAgree g phi = true
    · have hout : out = (.ok 0, st) := after_of_agree hagree
      rw [hout]
      exact ⟨rfl, rfl⟩
    · exact after_of_refused (Bool.eq_false_iff.mpr hagree) hnot (hcase.resolve_left hagree)
  · obtain ⟨moves, hplan, hn, hg', hroute, hsame⟩ := after_of_placed (c := c) hg rfl hagree hall
    refine ⟨moves, hplan, hn, hroute, hsame, fun m hm => hplan.open_place hm, fun k hk i => ?_⟩
    exact (hroute.routed k _ _ (List.getElem?_eq_getElem hk)).defines hg' i

/-- The inputs are a parameter, a constant, a move used once, a field and a literal. One way to the phi
    goes through a block that ends in a jump, the other through an empty one. -/
def mixedInputs : MethodDecl :=
  { (default : MethodDecl) with
    cls := "a.Main"
    name := "m"
    params := [{ (default : ParamDecl) with var := "p" }]
    blocks := [
      { (default : BlockDecl) with
        succs := [1, 2]
        insns := [
          { (default : InsnDecl) with op := "const", result := "c", args := ["#0"] },
          { (default : InsnDecl) with op := "sget", result := "x" },
          { (default : InsnDecl) with op := "move", result := "m", args := ["x"] }] },
      { (default : BlockDecl) with
        succs := [3]
        insns := [{ (default : InsnDecl) with op := "goto" }] },
      { (default : BlockDecl) with succs := [3] },
      { (default : BlockDecl) with
        insns := [{ (default : InsnDecl) with
          op := "phi", result := "r", args := ["p", "c", "m", "x", "#1:int"]
          incoming := [1, 2, 1, 2, 0] }] }] }

/-- The parameter is moved above the jump and the field in the empty block. The other inputs stay. -/
theorem phi_moves_all_or_nothing_at_mixedInputs :
    let c : Context := { hierarchy := Hierarchy.ofClasses [] }
    let g := (mixedInputs.build.toOption.getD default).graph
    let out := (movePhiInputs ⟨4⟩).after c { graph := g }
    (∃ built, mixedInputs.build = .ok built ∧ built.graph = g) ∧
      inputsAgree g ⟨4⟩ = false ∧ (∀ input ∈ phiInputs g ⟨4⟩, Placed g input) ∧
      (g.insn ⟨4⟩).args = [⟨7⟩, ⟨8⟩, ⟨9⟩, ⟨10⟩, ⟨11⟩] ∧
      (out.2.graph.insn ⟨4⟩).args = [⟨14⟩, ⟨8⟩, ⟨9⟩, ⟨17⟩, ⟨11⟩] ∧
      ∃ moves, moves.length = 2 ∧ Plan g (phiInputs g ⟨4⟩) moves ∧
        Rerouted g ⟨4⟩ moves out.2.graph := by
  intro c g out
  have hb : ∃ built, mixedInputs.build = .ok built ∧ built.graph = g :=
    ⟨_, ok_getD (by decide +kernel), rfl⟩
  have hagree : inputsAgree g ⟨4⟩ = false := by decide +kernel
  have hplaces : ∀ input ∈ phiInputs g ⟨4⟩, input.2.map (movePlace g (g.varOf? input.1)) ∈
      [⟨0⟩, ⟨2⟩].map (some ∘ Ascent.place) := by decide +kernel
  have hargs : (g.insn ⟨4⟩).args = [⟨7⟩, ⟨8⟩, ⟨9⟩, ⟨10⟩, ⟨11⟩] := by decide +kernel
  have hread : (out.2.graph.insn ⟨4⟩).args = [⟨14⟩, ⟨8⟩, ⟨9⟩, ⟨17⟩, ⟨11⟩] := by decide +kernel
  have hcount : out.1.toOption = some 2 := by decide +kernel
  -- what is computed is computed, and the graph is not to be built again
  clear_value g c
  have hplaced : ∀ input ∈ phiInputs g ⟨4⟩, Placed g input := by
    intro input hi
    obtain ⟨place, -, hplace⟩ := List.mem_map.mp (hplaces input hi)
    obtain ⟨b, hinput, hmove⟩ := Option.map_eq_some_iff.mp hplace.symm
    exact ⟨b, place, hinput, ascends_iff.mpr ⟨hmove, Ascent.noConfusion⟩⟩
  obtain ⟨built, hbuild, rfl⟩ := hb
  obtain ⟨-, -, hmoves⟩ :=
    phi_moves_all_or_nothing c ⟨4⟩ { graph := built.graph } (wired_build hbuild)
  obtain ⟨moves, hplan, hlength, hroute, -⟩ := hmoves hagree hplaced
  have hcount : some moves.length = some 2 := by
    rw [← hcount]
    exact (congrArg Except.toOption hlength).symm
  exact ⟨⟨built, hbuild, rfl⟩, hagree, hplaced, hargs, hread, moves, Option.some.inj hcount, hplan,
    hroute⟩

end

end TypeRecovery.Inference
