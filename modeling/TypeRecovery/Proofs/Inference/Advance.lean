import TypeRecovery.Proofs.Graph.Edits
import TypeRecovery.Proofs.Inference.Attempts

/- What the stages of inference keep. A graph is coherent if it is intact and every known type fits its
   variable. Two relations lead from one graph to the next: `Retyped` along writes of types alone, and
   `Advance`, the larger one, also along edits of the code and where the bounds are found anew. Both
   keep pins and coherence. Trying types is of the first kind, starting over of the second. -/
namespace TypeRecovery.Inference

open MethodGraph

/-- A known type of the variable fits it. -/
def Settled (c : Context) (x : Var) : Prop := x.ty.isKnown = true → Fits c x x.ty

structure Coherent (c : Context) (g : MethodGraph) : Prop where
  intact : g.Intact
  settled : ∀ v, Settled c (g.var v)

structure Retyped (c : Context) (g g' : MethodGraph) : Prop where
  framed : Framed g g'
  bounds : ∀ v, (g'.var v).bounds = (g.var v).bounds
  coherent : Coherent c g → Coherent c g'

structure Advance (c : Context) (g g' : MethodGraph) : Prop where
  grows : g.sites.size ≤ g'.sites.size
  pin : ∀ v, (g'.var v).pin = (g.var v).pin
  coherent : Coherent c g → Coherent c g'

section
variable {c : Context} {g g' : MethodGraph}

instance : IsPreorder MethodGraph (Retyped c) where
  refl g := ⟨refl_of Framed g, fun _ => rfl, id⟩
  trans _ _ _ h h' := ⟨trans_of Framed h.framed h'.framed,
    fun v => (h'.bounds v).trans (h.bounds v), h'.coherent ∘ h.coherent⟩

instance : IsPreorder MethodGraph (Advance c) where
  refl _ := ⟨Nat.le_refl _, fun _ => rfl, id⟩
  trans _ _ _ h h' := ⟨Nat.le_trans h.grows h'.grows, fun v => (h'.pin v).trans (h.pin v),
    h'.coherent ∘ h.coherent⟩

theorem Retyped.advance (h : Retyped c g g') : Advance c g g' :=
  ⟨Nat.le_of_eq h.framed.size.symm, h.framed.pin, h.coherent⟩

theorem Advance.holds (h : Advance c g g') {s : SiteId} (hs : g.Holds s) : g'.Holds s :=
  Nat.lt_of_lt_of_le hs h.grows

/-! ## Settled variables -/

/-- Whether a type fits is a matter of the pin and the bounds. -/
theorem Fits.congr {x y : Var} {t : Ty} (h : Fits c x t) (hp : y.pin = x.pin)
    (hb : y.bounds = x.bounds) : Fits c y t :=
  ⟨fun p hy => h.pin p (hp ▸ hy), fun hy side b hm => h.bounds (hp ▸ hy) side b (hb ▸ hm)⟩

theorem fits_pin {x : Var} {t : Ty} (h : x.pin = some t) : Fits c x t := by
  refine ⟨fun p hp => ?_, fun hn => ?_⟩
  · rw [h] at hp
    cases hp
    rfl
  · rw [h] at hn
    cases hn

theorem Settled.congr {x y : Var} (h : Settled c x) (hxy : y.typing = x.typing) : Settled c y := by
  have ht : y.ty = x.ty := congrArg (fun k => k.1.getD Ty.anything) hxy
  intro hk
  rw [ht] at hk ⊢
  exact (h hk).congr (congrArg (·.2.2) hxy) (congrArg (·.2.1) hxy)

theorem settled_of_open {x : Var} (h : x.type = none) : Settled c x := by
  intro hk
  rw [Var.ty, h] at hk
  cases hk

theorem advance_of_edited (h : Edited g g') : Advance c g g' where
  grows := h.grows
  pin v := congrArg (·.2.2) (h.typing v)
  coherent hg := ⟨h.intact hg.intact, fun v => (hg.settled v).congr (h.typing v)⟩

/-! ## Writing types -/

/-- A variable is given a type that fits, or becomes open. -/
theorem retyped_setVarType {v : VarId} {t : Option Ty}
    (h : ∀ u, t = some u → u.isKnown = true → Fits c (g.var v) u) : Retyped c g (g.setVarType v t) := by
  refine ⟨framed_setVarType v t, g.updateVar_same Var.bounds fun _ => rfl, fun hg => ?_⟩
  refine ⟨(framed_setVarType v t).intact hg.intact, fun w => ?_⟩
  rw [setVarType, var_updateVar]
  split
  · next hvw =>
    obtain ⟨rfl, -⟩ := hvw
    cases t with
    | none => exact settled_of_open rfl
    | some u => exact fun hk => (h u rfl hk).congr rfl rfl
  · exact hg.settled w

/-- A commit of what was cleared. -/
theorem retyped_commit {flags : Flags} {p : Proposal}
    (hp : Linked g → p.Only (Cleared ⟨c, g, flags⟩)) : Retyped c g (p.commit g) := by
  have hf : Framed g (p.commit g) := p.framed_commit g
  refine ⟨hf, fun v => ?_, fun hg => ⟨hf.intact hg.intact, fun v => ?_⟩⟩
  · rcases p.var_commit g v with heq | ⟨s, t, -, -, heq⟩
    · rw [heq]
    · rw [heq]
  · -- what is written was cleared for this variable, whatever site it was asked for
    rcases p.var_commit g v with heq | ⟨s, t, hmem, hs, heq⟩
    · rw [heq]
      exact hg.settled v
    · rw [heq]
      exact fun _ => ((hp hg.intact.linked s t hmem).fits v hs).congr rfl rfl

theorem steps_apply (v : VarId) (t : Ty) (flags : Flags) :
    Steps (Retyped c) c g (apply v t flags) anyResult := by
  intro s _
  have h := apply_tried v t flags c s
  refine ⟨?_, fun _ _ => trivial⟩
  generalize (apply v t flags).after c s = r at h ⊢
  cases h with
  | unchanged _ hg hc => exact kept_of_same hg hc
  | committed hp hg hc => exact kept_of_change (retyped_commit hp) hg hc

theorem steps_applyBest (v : VarId) : Steps (Retyped c) c g (applyBest v) anyResult := by
  refine .read' (.theGraph' fun g' _ => ?_)
  split
  · exact .done' _
  · exact .bind' (steps_apply v _ _) fun _ _ _ _ => .done' _

theorem steps_applyPin (v : VarId) : Steps (Retyped c) c g (applyPin v) anyResult := by
  refine .theGraph' fun g' _ => ?_
  split
  · exact .done' _
  · refine .bind' (steps_apply v _ _) fun r _ _ _ => .ite' (fun _ => ?_) fun _ => ?_
    · exact .theGraph' fun _ _ => .note' _
    · exact .done' _

theorem steps_propagate : Steps (Retyped c) c g propagate anyResult := by
  refine .theGraph' fun g' _ => ?_
  refine .bind' (.forM' _ fun v _ _ _ => steps_applyPin v) fun _ _ _ _ => ?_
  refine .forM' _ fun v _ _ _ => ?_
  exact .bind' (steps_applyBest v) fun _ _ _ _ => .done' _

/-- A step that only writes types is one along the larger relation. -/
theorem Steps.advance {α : Type} {m : Infer α} {Q : α → MethodGraph → Prop}
    (h : ∀ g', Advance c g g' → Steps (Retyped c) c g' m Q) : Steps (Advance c) c g m Q :=
  Steps.weaken (fun _ _ h => h.advance) (refl_of (Retyped c)) h

/-! ## Starting over -/

theorem var_resetVars (l : List VarId) (g : MethodGraph) (w : VarId) : (l.foldl resetVar g).var w =
    if w ∈ l then { g.var w with type := none, bounds := [] } else g.var w := by
  induction l generalizing g with
  | nil => rfl
  | cons v l ih =>
    have hv : (g.resetVar v).var w =
        if v = w ∧ w.index < g.vars.size then { g.var w with type := none, bounds := [] }
        else g.var w := var_updateVar _ _ _ _
    rw [List.foldl_cons, ih, hv]
    by_cases hvw : v = w
    · by_cases hw : w.index < g.vars.size
      · simp [hvw, hw]
      · -- beyond the table there is nothing to reset
        have hbeyond := var_of_size_le (Nat.le_of_not_lt hw)
        have hnone : { g.var w with type := none, bounds := [] } = g.var w := by rw [hbeyond]; rfl
        simp [hw, hnone]
    · have hwv : w ≠ v := fun h => hvw h.symm
      simp [hvw, hwv]

theorem framed_resetVars (l : List VarId) (g : MethodGraph) : Framed g (l.foldl resetVar g) := by
  refine rel_foldl (R := Framed) (fun v _ g' => ?_) g
  exact framed_updateVar fun _ => rfl

/-- Only the bounds of variables of the list are written. -/
structure Rebound (l : List VarId) (g g' : MethodGraph) : Prop where
  framed : Framed g g'
  type : ∀ w, (g'.var w).type = (g.var w).type
  others : ∀ w, w ∉ l → g'.var w = g.var w

instance (l : List VarId) : IsPreorder MethodGraph (Rebound l) where
  refl g := ⟨refl_of Framed g, fun _ => rfl, fun _ _ => rfl⟩
  trans _ _ _ h h' := ⟨trans_of Framed h.framed h'.framed, fun w => (h'.type w).trans (h.type w),
    fun w hw => (h'.others w hw).trans (h.others w hw)⟩

theorem rebound_updateVar {l : List VarId} {v : VarId} (hv : v ∈ l) (f : Var → List Bound) :
    Rebound l g (g.updateVar v fun x => { x with bounds := f x }) := by
  refine ⟨framed_updateVar fun _ => rfl, g.updateVar_same Var.type fun _ => rfl, fun w hw => ?_⟩
  rw [var_updateVar, if_neg]
  rintro ⟨rfl, -⟩
  exact hw hv

theorem rebound_shareBounds {l : List VarId} {v : VarId} (hv : v ∈ l) :
    Rebound l g (shareBounds g v) :=
  rel_foldl (R := Rebound l) (fun _ _ _ => rebound_updateVar hv _) g

/-- The variables in use lose their types and get new bounds; nothing else is written. -/
theorem initBounds_frame (g : MethodGraph) : Framed g (initBounds g) ∧
    ∀ w, w ∉ g.live ∧ (initBounds g).var w = g.var w ∨ ((initBounds g).var w).type = none := by
  unfold initBounds
  simp only
  have hreset := framed_resetVars g.live g
  have hvar := var_resetVars g.live g
  generalize g.live.foldl resetVar g = g₁ at hreset hvar ⊢
  have hown : Rebound g₁.live g₁ (g₁.live.foldl (fun g v =>
      g.updateVar v fun x => { x with bounds := ownBounds g v }) g₁) :=
    rel_foldl (R := Rebound _) (fun v hv g' => rebound_updateVar hv fun _ => ownBounds g' v) g₁
  generalize g₁.live.foldl (fun g v =>
    g.updateVar v fun x => { x with bounds := ownBounds g v }) g₁ = g₂ at hown ⊢
  have hshare : Rebound g₁.live g₂ (g₂.live.foldl shareBounds g₂) := by
    rw [← hown.framed.live]
    exact rel_foldl (R := Rebound _) (fun v hv _ => rebound_shareBounds hv) g₂
  have hall := trans_of (Rebound g₁.live) hown hshare
  refine ⟨trans_of Framed hreset hall.framed, fun w => ?_⟩
  rw [hreset.live] at hall
  -- a variable in use was reset and kept no type, any other was left alone throughout
  by_cases hw : w ∈ g.live
  · right
    rw [hall.type, hvar, if_pos hw]
  · left
    rw [hall.others w hw, hvar, if_neg hw]
    exact ⟨hw, rfl⟩

theorem advance_initBounds : Advance c g (initBounds g) := by
  obtain ⟨hf, hvar⟩ := initBounds_frame g
  refine ⟨Nat.le_of_eq hf.size.symm, hf.pin, fun hg => ⟨hf.intact hg.intact, fun v => ?_⟩⟩
  rcases hvar v with ⟨-, h⟩ | h
  · rw [h]
    exact hg.settled v
  · exact settled_of_open h

theorem steps_reinit : Steps (Advance c) c g reinit anyResult :=
  .bind' (.change' fun _ _ => advance_initBounds) fun _ _ _ _ =>
    .advance fun _ _ => steps_propagate

/-! ## Pinning -/

/-- Pins may have been set, and no types. -/
structure Labelled (g g' : MethodGraph) : Prop where
  type : ∀ v, (g'.var v).type = (g.var v).type
  intact : g.Intact → g'.Intact

instance : IsPreorder MethodGraph Labelled where
  refl _ := ⟨fun _ => rfl, id⟩
  trans _ _ _ h h' := ⟨fun v => (h'.type v).trans (h.type v), h'.intact ∘ h.intact⟩

theorem labelled_pinVar (v : VarId) (t : Ty) : Labelled g (g.pinVar v t) := by
  have hpin : Labelled g (g.updateVar v fun x => { x with pin := some t }) :=
    ⟨g.updateVar_same Var.type fun _ => rfl, fun hg => intact_updateVar hg fun _ hs => .inl hs⟩
  have hslot (s : SiteId) (g' : MethodGraph) :
      Labelled g' (g'.updateSite s fun x => { x with declared := t }) := by
    have hedit : Edited g' (g'.updateSite s fun x => { x with declared := t }) :=
      edited_updateSite fun _ => rfl
    exact ⟨fun _ => rfl, hedit.intact⟩
  unfold pinVar
  simp only
  split
  · exact trans_of Labelled hpin (hslot _ _)
  · exact hpin

theorem labelled_pinVars (g : MethodGraph) : Labelled g (pinVars g) := by
  refine rel_foldl (R := Labelled) (fun v _ g' => ?_) g
  split
  · exact refl_of Labelled g'
  · split
    · exact labelled_pinVar v _
    · exact refl_of Labelled g'

/-- Where no variable has a type yet, pinning leaves a coherent graph. -/
theorem coherent_pinVars (hg : g.Intact) (ht : ∀ v, (g.var v).type = none) :
    Coherent c (pinVars g) :=
  ⟨(labelled_pinVars g).intact hg,
    fun v => settled_of_open (((labelled_pinVars g).type v).trans (ht v))⟩

end
end TypeRecovery.Inference
