import Mathlib.Logic.Relation
import TypeRecovery.Proofs.Inference.Reached

/- Which bounds a variable has when inference starts. A phi passes the bounds of its result and of its
   inputs on to each of the inputs, one variable after the other, and what is copied late has grown from
   what was copied early. So a variable gets more than the bounds of those that it meets in a phi, but
   nothing from beyond the web of phis around it: each copy goes along one edge of the web, and what was
   attached to a variable stays with it. -/
namespace TypeRecovery.Inference

open MethodGraph Listing

section
variable {g g' : MethodGraph} {v w : VarId} {b : Bound} {bounds l : List Bound}

/-! ## Lists of bounds -/

/-- A fixed bound that asks for nothing. -/
def Idle (b : Bound) : Prop := ∃ side, b = .fixed side Ty.anything

theorem addBound_cases (bounds : List Bound) (b : Bound) :
    (addBound bounds b = bounds ∧ (Idle b ∨ b ∈ bounds)) ∨
      (addBound bounds b = bounds ++ [b] ∧ ¬Idle b ∧ b ∉ bounds) := by
  have hmem : bounds.contains b = true ↔ b ∈ bounds := List.contains_iff_mem
  cases b with
  | fixed side t =>
    have hidle : Idle (.fixed side t) ↔ t = Ty.anything :=
      ⟨fun ⟨_, h⟩ => (Bound.fixed.inj h).2, fun h => ⟨side, by rw [h]⟩⟩
    simp only [addBound, Bool.or_eq_true, beq_iff_eq, hmem, hidle]
    split
    · next h => exact .inl ⟨rfl, h⟩
    · next h => exact .inr ⟨rfl, not_or.mp h⟩
  | _ =>
    simp only [addBound, Bool.false_or, hmem]
    split
    · next h => exact .inl ⟨rfl, .inr h⟩
    · next h => exact .inr ⟨rfl, nofun, h⟩

theorem mem_addBound {b' : Bound} : b ∈ addBound bounds b' ↔ b ∈ bounds ∨ (b = b' ∧ ¬Idle b) := by
  rcases addBound_cases bounds b' with ⟨heq, hskip⟩ | ⟨heq, hidle, -⟩
  · rw [heq]
    refine ⟨.inl, ?_⟩
    rintro (h | ⟨rfl, hidle⟩)
    · exact h
    · exact hskip.resolve_left hidle
  · rw [heq, List.mem_append, List.mem_singleton]
    exact or_congr_right ⟨fun h => ⟨h, h ▸ hidle⟩, And.left⟩

theorem mem_foldl_addBound : b ∈ l.foldl addBound bounds ↔ b ∈ bounds ∨ (b ∈ l ∧ ¬Idle b) := by
  induction l generalizing bounds with
  | nil => simp
  | cons b' l ih => rw [List.foldl_cons, ih, mem_addBound, List.mem_cons, or_assoc, or_and_right]

theorem nodup_foldl_addBound (h : bounds.Nodup) : (l.foldl addBound bounds).Nodup := by
  induction l generalizing bounds with
  | nil => exact h
  | cons b l ih =>
    refine ih ?_
    rcases addBound_cases bounds b with ⟨heq, -⟩ | ⟨heq, -, hnew⟩
    · rw [heq]
      exact h
    · rw [heq]
      refine List.nodup_append.mpr ⟨h, List.nodup_singleton b, fun x hx y hy => ?_⟩
      rw [List.mem_singleton.mp hy]
      rintro rfl
      exact hnew hx

/-! ## Writing bounds -/

/-- Nothing but bounds was written. -/
structure Bounding (g g' : MethodGraph) : Prop where
  insns : g'.insns = g.insns
  sites : g'.sites = g.sites
  live : g'.live = g.live
  size : g'.vars.size = g.vars.size
  var : ∀ w, { g'.var w with bounds := [] } = { g.var w with bounds := [] }

instance : IsPreorder MethodGraph Bounding where
  refl _ := ⟨rfl, rfl, rfl, rfl, fun _ => rfl⟩
  trans _ _ _ h h' := ⟨h'.insns.trans h.insns, h'.sites.trans h.sites, h'.live.trans h.live,
    h'.size.trans h.size, fun w => (h'.var w).trans (h.var w)⟩

theorem bounding_updateVar (v : VarId) (f : Var → List Bound) :
    Bounding g (g.updateVar v fun x => { x with bounds := f x }) := by
  refine ⟨rfl, rfl, rfl, Array.size_modify, fun w => ?_⟩
  rw [var_updateVar]
  split <;> rfl

namespace Bounding

variable (h : Bounding g g')
include h

theorem assign (v : VarId) : (g'.var v).assign = (g.var v).assign :=
  (congrArg Var.assign (h.var v) :)

theorem uses (v : VarId) : (g'.var v).uses = (g.var v).uses := (congrArg Var.uses (h.var v) :)

theorem phis (v : VarId) : (g'.var v).phis = (g.var v).phis := (congrArg Var.phis (h.var v) :)

theorem pin (v : VarId) : (g'.var v).pin = (g.var v).pin := (congrArg Var.pin (h.var v) :)

theorem type (v : VarId) : (g'.var v).type = (g.var v).type := (congrArg Var.type (h.var v) :)

theorem insn : g'.insn = g.insn := funext (insn_congr h.insns)

theorem site : g'.site = g.site := by
  funext s
  rw [MethodGraph.site, h.sites]
  rfl

theorem varOf : g'.varOf? = g.varOf? := by
  funext s
  rw [varOf?, h.site]
  rfl

theorem typeAt : g'.typeAt = g.typeAt := by
  funext s
  simp only [MethodGraph.typeAt, h.site, Var.ty, h.type]

theorem phiVars (i : InsnId) : phiVars g' i = phiVars g i := by
  rw [Inference.phiVars, h.insn, h.varOf]
  rfl

/-- What is attached to a variable does not depend on bounds. -/
theorem ownBounds (v : VarId) : ownBounds g' v = ownBounds g v := by
  have hresult (i : InsnId) (t : Ty) : resultBounds? g' i t = resultBounds? g i t := by
    simp only [resultBounds?, h.insn, h.typeAt]
  have hdefined : definitionBounds g' v = definitionBounds g v := by
    funext s
    simp only [definitionBounds, h.site, h.pin, h.insn, hresult]
  have hcall (i : InsnId) (s : SiteId) : callUseBound? g' i s = callUseBound? g i s := by
    have hreceiver : g'.instanceArg? i = g.instanceArg? i := by rw [instanceArg?, h.insn]; rfl
    have hoffset : g'.paramOffset i = g.paramOffset i := by rw [paramOffset, hreceiver]; rfl
    rw [callUseBound?, hreceiver, hoffset, h.insn]
    rfl
  have huse : useBound? g' = useBound? g := by
    funext s
    simp only [useBound?, h.site, h.insn, hcall]
  simp only [Inference.ownBounds, h.assign, h.uses, hdefined, huse]

end Bounding

/-- Attaching bounds to the variables of a list. -/
theorem attach_foldl (l : List VarId) (g : MethodGraph) :
    Bounding g (l.foldl (fun g v => g.updateVar v fun x => { x with bounds := ownBounds g v }) g) ∧
      ∀ w, ((l.foldl (fun g v => g.updateVar v fun x => { x with bounds := ownBounds g v }) g).var
        w).bounds = if w ∈ l ∧ w.index < g.vars.size then ownBounds g w else (g.var w).bounds := by
  induction l generalizing g with
  | nil => exact ⟨refl_of Bounding g, fun w => by simp⟩
  | cons v l ih =>
    have hfirst := bounding_updateVar (g := g) v fun _ => ownBounds g v
    obtain ⟨hrest, hbounds⟩ := ih (g.updateVar v fun x => { x with bounds := ownBounds g v })
    refine ⟨trans_of Bounding hfirst hrest, fun w => ?_⟩
    rw [List.foldl_cons, hbounds, hfirst.size, hfirst.ownBounds, var_updateVar]
    by_cases hw : w.index < g.vars.size
    · by_cases hv : v = w
      · simp [hv, hw]
      · simp [hv, hw, Ne.symm hv]
    · simp [hw]

/-- Beyond the table there is nothing to attach. -/
theorem ownBounds_of_size_le (h : g.vars.size ≤ v.index) : ownBounds g v = [] := by
  rw [ownBounds, var_of_size_le h]
  rfl

/-! ## The web of phis -/

/-- The variable is an input of the phi. -/
def Joins (g : MethodGraph) (i : InsnId) (v : VarId) : Prop :=
  (g.insn i).opcode = .phi ∧ ∃ s ∈ (g.insn i).args, g.varOf? s = some v

/-- From an input of some phi to its result, or to one of its inputs. -/
def Meets (g : MethodGraph) (v w : VarId) : Prop := ∃ i, Joins g i v ∧ w ∈ phiVars g i

/-- All variables are in use, and each lists the phis that read it. -/
structure PhisListed (g : MethodGraph) : Prop where
  live : ∀ v, v.index < g.vars.size → v ∈ g.live
  phis : ∀ v i, i ∈ (g.var v).phis ↔ Joins g i v

theorem joins_congr (h : Framed g g') (i : InsnId) (v : VarId) : Joins g' i v ↔ Joins g i v := by
  rw [Joins, Joins, insn_congr h.insns]
  simp only [h.varOf]

theorem meets_congr (h : Framed g g') : Meets g' = Meets g := by
  have hvarOf : g'.varOf? = g.varOf? := funext h.varOf
  funext v w
  simp only [Meets, joins_congr h, phiVars, insn_congr h.insns, hvarOf]

theorem PhisListed.congr (h : PhisListed g) (hf : Framed g g') : PhisListed g' := by
  refine ⟨fun v hv => ?_, fun v i => ?_⟩
  · rw [hf.live]
    exact h.live v (hf.vars ▸ hv)
  · rw [hf.phis, joins_congr hf]
    exact h.phis v i

/-- The phis of a variable name those that it meets. -/
theorem PhisListed.mem_flatMap_iff (h : PhisListed g) :
    w ∈ (g.var v).phis.flatMap (phiVars g) ↔ Meets g v w := by
  simp only [List.mem_flatMap, h.phis, Meets]

theorem PhisListed.lt_of_meets (h : PhisListed g) (hm : Meets g v w) : v.index < g.vars.size := by
  obtain ⟨i, hi, -⟩ := hm
  refine Nat.lt_of_not_le fun hle => ?_
  have hmem := (h.phis v i).mpr hi
  rw [var_of_size_le hle] at hmem
  cases hmem

/-! ## Sharing -/

/-- The variables have lost none of their bounds. -/
def Gaining (g g' : MethodGraph) : Prop := ∀ v, (g.var v).bounds ⊆ (g'.var v).bounds

instance : IsPreorder MethodGraph Gaining where
  refl _ _ := List.Subset.refl _
  trans _ _ _ h h' v := List.Subset.trans (h v) (h' v)

/-- On the way from `g`: each variable has the bounds that were attached to it, and of all others only
    such as were attached to variables that the web of phis leads to. -/
structure Shared (g g' : MethodGraph) : Prop where
  frame : Bounding g g'
  own : ∀ v, ownBounds g v ⊆ (g'.var v).bounds
  origin : ∀ v, ∀ b ∈ (g'.var v).bounds,
    ∃ w, Relation.ReflTransGen (Meets g) v w ∧ b ∈ ownBounds g w
  once : ∀ v, (g'.var v).bounds.Nodup

/-- No bound is attached that asks for nothing. -/
theorem not_idle_of_own (h : b ∈ ownBounds g v) : ¬Idle b :=
  ((mem_foldl_addBound.mp h).resolve_left (by simp)).2

theorem bounds_copyBounds (g : MethodGraph) (v w u : VarId) : ((copyBounds g v w).var u).bounds =
    if v = u ∧ u.index < g.vars.size then (g.var w).bounds.foldl addBound (g.var u).bounds
    else (g.var u).bounds := by
  rw [copyBounds, var_updateVar]
  split <;> rfl

theorem mem_copyBounds {u : VarId} : b ∈ ((copyBounds g v w).var u).bounds ↔
    b ∈ (g.var u).bounds ∨
      ((v = u ∧ u.index < g.vars.size) ∧ b ∈ (g.var w).bounds ∧ ¬Idle b) := by
  rw [bounds_copyBounds]
  split
  · next h => rw [mem_foldl_addBound, and_iff_right h]
  · next h => simp [h]

theorem gaining_copyBounds (v w : VarId) : Gaining g (copyBounds g v w) :=
  fun _ _ hb => mem_copyBounds.mpr (.inl hb)

/-- One copy, along one edge of the web. -/
theorem Shared.copy (h : Shared g g') (hm : Meets g v w) : Shared g (copyBounds g' v w) := by
  refine ⟨trans_of Bounding h.frame (bounding_updateVar v _), fun u => ?_, fun u b hb => ?_, fun u => ?_⟩
  · exact List.Subset.trans (h.own u) (gaining_copyBounds v w u)
  · rcases mem_copyBounds.mp hb with hb | ⟨⟨rfl, -⟩, hb, -⟩
    · exact h.origin u b hb
    · obtain ⟨x, hpath, hx⟩ := h.origin w b hb
      exact ⟨x, hpath.head hm, hx⟩
  · rw [bounds_copyBounds]
    split
    · exact nodup_foldl_addBound (h.once u)
    · exact h.once u

/-- A fold of steps that keep `I` and move along `R`, each of which establishes something that lasts. -/
theorem foldl_establishes {σ α : Type} {I : σ → Prop} {R : σ → σ → Prop} [IsPreorder σ R]
    {D : α → σ → Prop} (hlasts : ∀ a s s', R s s' → D a s → D a s') {f : σ → α → σ} {l : List α}
    (hstep : ∀ a ∈ l, ∀ s, I s → I (f s a) ∧ R s (f s a) ∧ D a (f s a)) {s : σ} (hs : I s) :
    I (l.foldl f s) ∧ R s (l.foldl f s) ∧ ∀ a ∈ l, D a (l.foldl f s) := by
  induction l generalizing s with
  | nil => exact ⟨hs, refl_of R s, nofun⟩
  | cons a l ih =>
    obtain ⟨hI, hR, hD⟩ := hstep a List.mem_cons_self s hs
    obtain ⟨hI', hR', hD'⟩ := ih (fun x hx => hstep x (List.mem_cons_of_mem a hx)) hI
    exact ⟨hI', trans_of R hR hR', List.forall_mem_cons.mpr ⟨hlasts a _ _ hR' hD, hD'⟩⟩

/-- Sharing gives a variable all that was attached to those that it meets. -/
theorem Shared.share (hg : PhisListed g) (h : Shared g g') (v : VarId) :
    Shared g (shareBounds g' v) ∧ Gaining g' (shareBounds g' v) ∧
      ∀ w, Meets g v w → ownBounds g w ⊆ ((shareBounds g' v).var v).bounds := by
  have hlist : (g'.var v).phis.flatMap (phiVars g') = (g.var v).phis.flatMap (phiVars g) := by
    rw [h.frame.phis, funext h.frame.phiVars]
  -- the lists that are copied have grown by then, but have kept what was attached
  have hcopy : ∀ w ∈ (g.var v).phis.flatMap (phiVars g), ∀ g', Shared g g' →
      Shared g (copyBounds g' v w) ∧ Gaining g' (copyBounds g' v w) ∧
        ownBounds g w ⊆ ((copyBounds g' v w).var v).bounds := by
    intro w hw g' hs
    have hm := hg.mem_flatMap_iff.mp hw
    refine ⟨hs.copy hm, gaining_copyBounds v w, fun b hb => mem_copyBounds.mpr (.inr ?_)⟩
    exact ⟨⟨rfl, hs.frame.size ▸ hg.lt_of_meets hm⟩, hs.own w hb, not_idle_of_own hb⟩
  obtain ⟨hshared, hgains, hall⟩ := foldl_establishes
    (D := fun w g' => ownBounds g w ⊆ (g'.var v).bounds)
    (fun _ _ _ hgains hD => List.Subset.trans hD (hgains v)) hcopy h
  rw [shareBounds, hlist]
  exact ⟨hshared, hgains, fun w hw => hall w (hg.mem_flatMap_iff.mpr hw)⟩

/-! ## The start of inference -/

/-- The bounds of all variables are attached first. -/
theorem shared_attach (hg : PhisListed g) : Shared g
    (g.live.foldl (fun g v => g.updateVar v fun x => { x with bounds := ownBounds g v }) g) := by
  obtain ⟨hframe, hbounds⟩ := attach_foldl g.live g
  generalize g.live.foldl _ g = g' at hframe hbounds ⊢
  have hown (w : VarId) : (g'.var w).bounds = ownBounds g w := by
    rw [hbounds]
    by_cases hw : w.index < g.vars.size
    · rw [if_pos ⟨hg.live w hw, hw⟩]
    · have hle := Nat.le_of_not_lt hw
      rw [if_neg fun h => hw h.2, ownBounds_of_size_le hle, var_of_size_le hle]
      rfl
  refine ⟨hframe, fun v => ?_, fun v b hb => ⟨v, .refl, hown v ▸ hb⟩, fun v => ?_⟩
  · rw [hown]
    exact List.Subset.refl _
  · rw [hown]
    exact nodup_foldl_addBound List.nodup_nil

/-- Then all variables take their turn in sharing them. -/
theorem shared_foldl (hg : PhisListed g) (h : Shared g g') :
    Shared g (g'.live.foldl shareBounds g') ∧
      ∀ v w, Meets g v w → ownBounds g w ⊆ ((g'.live.foldl shareBounds g').var v).bounds := by
  obtain ⟨hend, -, hall⟩ := foldl_establishes
    (D := fun v g' => ∀ w, Meets g v w → ownBounds g w ⊆ (g'.var v).bounds)
    (fun v _ _ hgains hD w hw => List.Subset.trans (hD w hw) (hgains v))
    (fun v _ _ hs => hs.share hg v) (l := g'.live) h
  refine ⟨hend, fun v w hm => hall v ?_ w hm⟩
  rw [h.frame.live]
  exact hg.live v (hg.lt_of_meets hm)

/-- The bounds that the definition and the uses of a variable put on it, once all types are dropped. -/
def attached (g : MethodGraph) (v : VarId) : List Bound := ownBounds (g.live.foldl resetVar g) v

/-- The bounds in `g'` are those attached in `g`, shared along the phis. -/
structure SharesBounds (g g' : MethodGraph) : Prop where
  own : ∀ v, attached g v ⊆ (g'.var v).bounds
  /-- An input of a phi has what was attached to the result and to all inputs. -/
  complete : ∀ v w, Meets g v w → attached g w ⊆ (g'.var v).bounds
  /-- There is a way from the variable, through phis, to one to which the bound was attached. -/
  origin : ∀ v, ∀ b ∈ (g'.var v).bounds,
    ∃ w, Relation.ReflTransGen (Meets g) v w ∧ b ∈ attached g w
  once : ∀ v, (g'.var v).bounds.Nodup
  asks : ∀ v side, .fixed side Ty.anything ∉ (g'.var v).bounds

theorem sharesBounds_initBounds (hg : PhisListed g) : SharesBounds g (initBounds g) := by
  have hreset := framed_resetVars g.live g
  have hlisted := hg.congr hreset
  obtain ⟨hend, hcomplete⟩ := shared_foldl hlisted (shared_attach hlisted)
  have hmeets := meets_congr hreset
  refine ⟨hend.own, fun v w hm => hcomplete v w (hmeets ▸ hm), fun v b hb => ?_, hend.once,
    fun v side hb => ?_⟩
  · rw [← hmeets]
    exact hend.origin v b hb
  · obtain ⟨w, -, hw⟩ := hend.origin v _ hb
    exact not_idle_of_own hw ⟨side, rfl⟩

/-! ## Methods -/

theorem phisListed_of_wired {P U : Set VarId} {F : Set InsnId} (h : g.Wired P F U) : PhisListed g :=
  ⟨fun _ hv => (mem_live h.names).mpr hv, h.lists.phis⟩

/-- When inference on a method starts, each input of a phi has the bounds that were attached to the
    result and to all inputs; each bound of a variable was attached to one that phis lead to from there;
    none is listed twice or asks for nothing. So it is with or without pins, and, if every variable of
    the method has a definition, whenever inference starts over on what resolvers made of it. -/
theorem initBounds_shares {m : MethodDecl} {b : Built} (hb : m.build = .ok b) :
    SharesBounds b.graph (initBounds b.graph) ∧
      SharesBounds (pinVars b.graph) (initBounds (pinVars b.graph)) ∧
      (Defined b.graph → ∀ c g, Reached c b.graph g → SharesBounds g (initBounds g)) := by
  have hwired := wired_build hb
  refine ⟨sharesBounds_initBounds (phisListed_of_wired hwired), ?_, fun hdef c g hg => ?_⟩
  · exact sharesBounds_initBounds (phisListed_of_wired (hwired.congr (sameLinks_pinVars _)))
  · exact sharesBounds_initBounds (phisListed_of_wired (sound_of_build_reached hb hdef hg).wired)

/-- A loop with two phis that read each other. -/
def phiLoop : MethodDecl :=
  { (default : MethodDecl) with
    cls := "a.Main"
    name := "m"
    params := [{ (default : ParamDecl) with var := "u", type := "long" }]
    blocks := [
      { (default : BlockDecl) with succs := [1] },
      { (default : BlockDecl) with
        succs := [1]
        insns := [
          { (default : InsnDecl) with op := "phi", result := "q", args := ["u", "p"], incoming := [0, 1] },
          { (default : InsnDecl) with op := "phi", result := "p", args := ["q", "z"], incoming := [0, 1] },
          { (default : InsnDecl) with op := "sget", result := "z:int" }] }] }

/-- The bound of the parameter comes to the last variable by way of the second phi, though no phi reads
    both. The bound of the last variable does not come back, since the parameter has had its turn. -/
theorem initBounds_shares_at_loop :
    let b := phiLoop.build.toOption.getD default
    let g := initBounds b.graph
    phiLoop.build = .ok b ∧ Defined b.graph ∧
      attached b.graph ⟨0⟩ = [.fixed .assign (.prim .long)] ∧
      attached b.graph ⟨3⟩ = [.fixed .assign Ty.int] ∧
      (∀ v ∈ b.graph.live, .fixed .assign (.prim .long) ∈ attached b.graph v → v = ⟨0⟩) ∧
      (g.var ⟨0⟩).bounds = [.fixed .assign (.prim .long)] ∧
      (g.var ⟨3⟩).bounds = [.fixed .assign Ty.int, .fixed .assign (.prim .long)] ∧
      (∃ w, Relation.ReflTransGen (Meets b.graph) ⟨3⟩ w ∧
        .fixed .assign (.prim .long) ∈ attached b.graph w) ∧
      SharesBounds (pinVars b.graph) (initBounds (pinVars b.graph)) ∧
      ∀ c g', Reached c b.graph g' → SharesBounds g' (initBounds g') := by
  intro b g
  have hb : phiLoop.build = .ok b := ok_getD (by decide +kernel)
  have hdef : Defined b.graph := by decide +kernel
  have hown : attached b.graph ⟨0⟩ = [.fixed .assign (.prim .long)] ∧
      attached b.graph ⟨3⟩ = [.fixed .assign Ty.int] ∧
      ∀ v ∈ b.graph.live, .fixed .assign (.prim .long) ∈ attached b.graph v → v = ⟨0⟩ := by
    decide +kernel
  have hbounds : (g.var ⟨0⟩).bounds = [.fixed .assign (.prim .long)] ∧
      (g.var ⟨3⟩).bounds = [.fixed .assign Ty.int, .fixed .assign (.prim .long)] := by
    decide +kernel
  obtain ⟨hfirst, hlast, honly⟩ := hown
  obtain ⟨hfirst', hlast'⟩ := hbounds
  obtain ⟨hshares, hpinned, hreached⟩ := initBounds_shares hb
  have horigin := hshares.origin ⟨3⟩ (.fixed .assign (.prim .long)) (by rw [hlast']; simp)
  exact ⟨hb, hdef, hfirst, hlast, honly, hfirst', hlast', horigin, hpinned, hreached hdef⟩

end
end TypeRecovery.Inference
