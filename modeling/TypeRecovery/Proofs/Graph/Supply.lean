import TypeRecovery.Proofs.Graph.Tables

/- Which variables the sites read. `Supplied g g'`: the table of variables only grows, and a variable
   that a site reads afterwards is in the table or was read by some site before. No edit asks for more
   than the graph for this, since new sites are copies of old ones, or literals, or read a variable that
   was just made. So sites that read only variables of the table (`Tabled`) go on doing so. -/
namespace TypeRecovery.MethodGraph

structure Supplied (g g' : MethodGraph) : Prop where
  vars : g.vars.size ≤ g'.vars.size
  reads : ∀ s v, g'.varOf? s = some v → v.index < g'.vars.size ∨ ∃ u, g.varOf? u = some v

instance : IsPreorder MethodGraph Supplied where
  refl _ := ⟨Nat.le_refl _, fun s _ hv => .inr ⟨s, hv⟩⟩
  trans _ _ _ h h' := by
    refine ⟨Nat.le_trans h.vars h'.vars, fun s v hv => ?_⟩
    rcases h'.reads s v hv with hlt | ⟨u, hu⟩
    · exact .inl hlt
    · exact (h.reads u v hu).imp_left fun hlt => Nat.lt_of_lt_of_le hlt h'.vars

/-- Every variable that a site reads is in the table. A site beyond the table of sites counts as one that
    reads the first variable, so there is one. -/
def Tabled (g : MethodGraph) : Prop := ∀ s v, g.varOf? s = some v → v.index < g.vars.size

section
variable {g g' : MethodGraph}

theorem Supplied.refl (g : MethodGraph) : Supplied g g := refl_of Supplied g

theorem Supplied.trans {g'' : MethodGraph} (h : Supplied g g') (h' : Supplied g' g'') : Supplied g g'' :=
  trans_of Supplied h h'

theorem Supplied.tabled (h : Supplied g g') (hg : g.Tabled) : g'.Tabled := by
  intro s v hv
  rcases h.reads s v hv with hlt | ⟨u, hu⟩
  · exact hlt
  · exact Nat.lt_of_lt_of_le (hg u v hu) h.vars

/-! ## Entries -/

theorem supplied_of_varOf (hv : g.vars.size ≤ g'.vars.size) (hs : ∀ s, g'.varOf? s = g.varOf? s) :
    Supplied g g' :=
  ⟨hv, fun s _ h => .inr ⟨s, hs s ▸ h⟩⟩

theorem Framed.supplied (h : Framed g g') : Supplied g g' :=
  supplied_of_varOf (Nat.le_of_eq h.vars.symm) h.varOf

theorem supplied_updateVar (v : VarId) (f : Var → Var) : Supplied g (g.updateVar v f) :=
  supplied_of_varOf (Nat.le_of_eq Array.size_modify.symm) fun _ => rfl

theorem supplied_updateInsn (i : InsnId) (f : Insn → Insn) : Supplied g (g.updateInsn i f) :=
  supplied_of_varOf (Nat.le_refl _) fun _ => rfl

theorem supplied_updateBlock (b : BlockId) (f : Block → Block) : Supplied g (g.updateBlock b f) :=
  supplied_of_varOf (Nat.le_refl _) fun _ => rfl

theorem supplied_updateSite {s : SiteId} {f : Site → Site} (hf : ∀ x, (f x).operand = x.operand) :
    Supplied g (g.updateSite s f) :=
  supplied_of_varOf (Nat.le_refl _) fun u => varOf?_congr (g.updateSite_same Site.operand hf u)

theorem supplied_newVar (reg : Int) (name : String) : Supplied g (g.newVar reg name).2 := by
  have hsize : (g.newVar reg name).2.vars.size = g.vars.size + 1 := Array.size_push _
  exact supplied_of_varOf (by omega) fun _ => rfl

theorem supplied_newInsn (i : Insn) : Supplied g (g.newInsn i).2 :=
  supplied_of_varOf (Nat.le_refl _) fun _ => rfl

theorem supplied_newSite {x : Site}
    (hx : ∀ v, x.operand = .reg v → v.index < g.vars.size ∨ ∃ u, g.varOf? u = some v) :
    Supplied g (g.newSite x).2 := by
  refine ⟨Nat.le_refl _, fun s v hv => ?_⟩
  have hsite : (g.newSite x).2.site s = if s.index = g.sites.size then x else g.site s :=
    getD_push _ _ _ _
  rw [varOf?_eq_some, hsite] at hv
  split at hv
  · exact hx v hv
  · exact .inr ⟨s, varOf?_eq_some.mpr hv⟩

theorem supplied_newLit (value : Int) (t : Option Ty) : Supplied g (g.newLit value t).2 :=
  supplied_newSite nofun

theorem supplied_duplicate (s : SiteId) : Supplied g (g.duplicate s).2 :=
  supplied_newSite fun _ hv => .inr ⟨s, varOf?_eq_some.mpr hv⟩

theorem supplied_duplicateWith {w : VarId} (hw : ∃ u, g.varOf? u = some w) (s : SiteId) :
    Supplied g (g.duplicateWith s w).2 :=
  supplied_newSite fun _ hv => .inr (by cases hv; exact hw)

theorem supplied_duplicateFresh (s : SiteId) : Supplied g (g.duplicateFresh s).2 := by
  unfold duplicateFresh
  split
  · next v _ =>
    refine (supplied_newVar (g.var v).reg "").trans (supplied_newSite fun w hw => .inl ?_)
    cases hw
    exact Nat.lt_of_lt_of_eq (Nat.lt_succ_self _) (Array.size_push _).symm
  · exact supplied_duplicate s

/-! ## Slots -/

theorem supplied_linkUse (i : InsnId) (s : SiteId) : Supplied g (g.linkUse i s) := by
  unfold linkUse
  split
  · exact .refl g
  · exact supplied_updateVar _ _

theorem supplied_unlinkUse (i : InsnId) (s : SiteId) : Supplied g (g.unlinkUse i s) := by
  unfold unlinkUse
  split
  · exact .refl g
  · exact supplied_updateVar _ _

theorem supplied_setResult (i : InsnId) (s : Option SiteId) : Supplied g (g.setResult i s) := by
  have hold (old : SiteId) : Supplied g (g.updateSite old fun x => { x with owner := none }) :=
    supplied_updateSite fun _ => rfl
  have hset {g' : MethodGraph} (h : Supplied g g') :
      Supplied g (g'.updateInsn i fun x => { x with result := s }) := h.trans (supplied_updateInsn i _)
  unfold setResult
  cases s with
  | none =>
    cases (g.insn i).result with
    | none => exact hset (.refl g)
    | some old => exact hset (hold old)
  | some s =>
    have hown {g' : MethodGraph} (h : Supplied g g') := (hset h).trans
      (supplied_updateSite (s := s) (f := fun x => { x with owner := some i }) fun _ => rfl)
    cases (g.insn i).result with
    | none =>
      simp only
      split
      · exact (hown (.refl g)).trans (supplied_updateVar _ _)
      · exact hown (.refl g)
    | some old =>
      simp only
      split
      · exact (hown (hold old)).trans (supplied_updateVar _ _)
      · exact hown (hold old)

theorem supplied_addArg (i : InsnId) (s : SiteId) : Supplied g (g.addArg i s) := by
  have hown : Supplied g (g.updateSite s fun x => { x with owner := some i }) :=
    supplied_updateSite fun _ => rfl
  have harg := hown.trans (supplied_updateInsn i fun x => { x with args := x.args ++ [s] })
  exact harg.trans (supplied_linkUse i s)

theorem supplied_replaceArg (i : InsnId) (old new : SiteId) : Supplied g (g.replaceArg i old new).2 := by
  unfold replaceArg
  split
  · exact .refl g
  · refine Supplied.trans ?_ (supplied_linkUse _ _)
    refine Supplied.trans ?_ (supplied_unlinkUse _ _)
    refine Supplied.trans ?_ (supplied_updateSite fun _ => rfl)
    exact (supplied_updateInsn _ _).trans (supplied_updateSite fun _ => rfl)

theorem supplied_buildInsn (x : Insn) (result : Option SiteId) (args : List SiteId) :
    Supplied g (g.buildInsn x result args).2 := by
  unfold buildInsn
  refine Supplied.trans ?_ (rel_foldl (R := Supplied) (fun s _ g' => supplied_addArg _ s) _)
  split
  · exact (supplied_newInsn x).trans (supplied_setResult _ _)
  · exact supplied_newInsn x

/-! ## Places -/

theorem supplied_insertAt (b : BlockId) (n : Nat) (i : InsnId) : Supplied g (g.insertAt b n i) :=
  (supplied_updateBlock _ _).trans (supplied_updateInsn _ _)

theorem supplied_insertBefore (anchor i : InsnId) : Supplied g (g.insertBefore anchor i).2 := by
  unfold insertBefore
  split
  · exact .refl g
  · exact supplied_insertAt _ _ _

theorem supplied_insertAfter (anchor i : InsnId) : Supplied g (g.insertAfter anchor i).2 := by
  unfold insertAfter
  split
  · exact .refl g
  · exact supplied_insertAt _ _ _

theorem supplied_replaceInsn (old new : InsnId) : Supplied g (g.replaceInsn old new).2 := by
  have hout (g' : MethodGraph) (s : SiteId) :
      Supplied g' (if (g'.site s).owner = some old then g'.release old s else g') := by
    split
    · exact (supplied_unlinkUse _ _).trans (supplied_updateSite fun _ => rfl)
    · exact .refl g'
  unfold replaceInsn
  split
  · exact .refl g
  · refine Supplied.trans ?_ (supplied_updateInsn _ _)
    refine Supplied.trans ?_ (supplied_updateInsn _ _)
    refine Supplied.trans ?_ (supplied_updateBlock _ _)
    exact (supplied_updateInsn _ _).trans (rel_foldl (R := Supplied) (fun s _ g' => hout g' s) _)

theorem supplied_freshResult (i : InsnId) (r : SiteId) :
    Supplied g ((g.duplicateFresh r).2.setResult i (some (g.duplicateFresh r).1)) :=
  (supplied_duplicateFresh r).trans (supplied_setResult i _)

theorem supplied_copyFresh (i : InsnId) : Supplied g (g.copyFresh i).2 := by
  have hargs (id : InsnId) (g' : MethodGraph) (s : SiteId) :
      Supplied g' ((g'.duplicate s).2.addArg id (g'.duplicate s).1) :=
    (supplied_duplicate s).trans (supplied_addArg _ _)
  unfold copyFresh
  simp only
  split
  · exact (supplied_newInsn _).trans (rel_foldl (R := Supplied) (fun s _ g' => hargs _ g' s) _)
  · dsimp only
    refine Supplied.trans ?_ (supplied_freshResult _ _)
    exact (supplied_newInsn _).trans (rel_foldl (R := Supplied) (fun s _ g' => hargs _ g' s) _)

theorem supplied_pinVar (v : VarId) (t : Ty) : Supplied g (g.pinVar v t) := by
  unfold pinVar
  simp only
  split
  · exact (supplied_updateVar _ _).trans (supplied_updateSite fun _ => rfl)
  · exact supplied_updateVar _ _

end
end TypeRecovery.MethodGraph
