import TypeRecovery.Proofs.Graph.Tables

/- What every edit of a graph leaves in order. `Intact g`: the sites that variables and instructions name
   are in the table of sites, and those that a variable lists are its own. `Edited g g'`: the edit
   leaves the typing of all variables as it was (a fresh variable has none), the table of sites only
   grows, and an intact graph stays intact. There is one lemma for each edit; an edit that takes a
   site asks for one that the graph holds, which a new site is and an old one stays. -/
namespace TypeRecovery

/-- What inference finds out about a variable, and its pin. -/
def Var.typing (x : Var) : Option Ty × List Bound × Option Ty := (x.type, x.bounds, x.pin)

/-- The result and the arguments of an instruction. -/
def Insn.sites (i : Insn) : List SiteId := i.result.toList ++ i.args

namespace MethodGraph

/-- The site is in the table. -/
def Holds (g : MethodGraph) (s : SiteId) : Prop := s.index < g.sites.size

structure Intact (g : MethodGraph) : Prop where
  linked : Linked g
  ofVar : ∀ v, ∀ s ∈ (g.var v).sites, g.Holds s
  ofInsn : ∀ i, ∀ s ∈ (g.insn i).sites, g.Holds s

structure Edited (g g' : MethodGraph) : Prop where
  typing : ∀ v, (g'.var v).typing = (g.var v).typing
  grows : g.sites.size ≤ g'.sites.size
  intact : g.Intact → g'.Intact

instance : IsPreorder MethodGraph Edited where
  refl _ := ⟨fun _ => rfl, Nat.le_refl _, id⟩
  trans _ _ _ h h' := ⟨fun v => (h'.typing v).trans (h.typing v), Nat.le_trans h.grows h'.grows,
    h'.intact ∘ h.intact⟩

section
variable {g g' : MethodGraph}

theorem Edited.refl (g : MethodGraph) : Edited g g := refl_of Edited g

theorem Edited.trans {g'' : MethodGraph} (h : Edited g g') (h' : Edited g' g'') : Edited g g'' :=
  trans_of Edited h h'

theorem Edited.holds (h : Edited g g') {s : SiteId} (hs : g.Holds s) : g'.Holds s :=
  Nat.lt_of_lt_of_le hs h.grows

/-- Writing types and bounds leaves a graph intact. -/
theorem Framed.intact (h : Framed g g') (hg : g.Intact) : g'.Intact := by
  have hsites : ∀ v, (g'.var v).sites = (g.var v).sites := fun v => by
    rw [Var.sites, Var.sites, h.assign, h.uses]
  refine ⟨fun v s hs => ?_, fun v s hs => ?_, fun i s hs => ?_⟩
  · rw [h.varOf]
    exact hg.linked v s (hsites v ▸ hs)
  · rw [Holds, h.size]
    exact hg.ofVar v s (hsites v ▸ hs)
  · have hinsn : g'.insn i = g.insn i := by rw [insn, insn, h.insns]
    rw [Holds, h.size]
    exact hg.ofInsn i s (hinsn ▸ hs)

/-! ## Writing one entry -/

/-- Only blocks or names are written. -/
theorem edited_of_same (hv : g'.vars = g.vars) (hs : g'.sites = g.sites) (hi : g'.insns = g.insns) :
    Edited g g' := by
  have hvar : ∀ v, g'.var v = g.var v := fun v => by rw [var, var, hv]
  have hvarOf : ∀ s, g'.varOf? s = g.varOf? s := fun s => varOf?_congr (by rw [site, site, hs])
  refine ⟨fun v => by rw [hvar], Nat.le_of_eq (by rw [hs]), fun h => ⟨?_, ?_, ?_⟩⟩
  · intro v s hm
    rw [hvarOf]
    exact h.linked v s (hvar v ▸ hm)
  · intro v s hm
    rw [Holds, hs]
    exact h.ofVar v s (hvar v ▸ hm)
  · intro i s hm
    rw [Holds, hs]
    have hinsn : g'.insn i = g.insn i := by rw [insn, insn, hi]
    exact h.ofInsn i s (hinsn ▸ hm)

theorem edited_updateBlock (b : BlockId) (f : Block → Block) : Edited g (g.updateBlock b f) :=
  edited_of_same rfl rfl rfl

theorem edited_updateSite {s : SiteId} {f : Site → Site} (hf : ∀ x, (f x).operand = x.operand) :
    Edited g (g.updateSite s f) := by
  have hsize : (g.updateSite s f).sites.size = g.sites.size := size_updateSite _ _ _
  refine ⟨fun _ => rfl, Nat.le_of_eq hsize.symm, fun h => ⟨?_, ?_, ?_⟩⟩
  · intro v u hu
    rw [varOf?_congr (g.updateSite_same Site.operand hf u)]
    exact h.linked v u hu
  · intro v u hu
    rw [Holds, hsize]
    exact h.ofVar v u hu
  · intro i u hu
    rw [Holds, hsize]
    exact h.ofInsn i u hu

theorem edited_updateInsn {i : InsnId} {f : Insn → Insn}
    (hf : ∀ s ∈ (f (g.insn i)).sites, s ∈ (g.insn i).sites ∨ g.Holds s) :
    Edited g (g.updateInsn i f) := by
  refine ⟨fun _ => rfl, Nat.le_refl _, fun h => ⟨h.linked, h.ofVar, ?_⟩⟩
  intro j s hs
  rw [insn_updateInsn] at hs
  split at hs
  · next hij =>
    obtain ⟨rfl, -⟩ := hij
    rcases hf s hs with hs | hs
    · exact h.ofInsn _ s hs
    · exact hs
  · exact h.ofInsn j s hs

theorem edited_touchInsn {i : InsnId} {f : Insn → Insn} (hf : ∀ x, (f x).sites = x.sites) :
    Edited g (g.updateInsn i f) :=
  edited_updateInsn fun _ hs => .inl (hf _ ▸ hs)

/-- A variable may list a further site if it is one of its own. -/
theorem intact_updateVar {v : VarId} {f : Var → Var} (hg : g.Intact)
    (hf : ∀ s ∈ (f (g.var v)).sites, s ∈ (g.var v).sites ∨ (g.Holds s ∧ g.varOf? s = some v)) :
    (g.updateVar v f).Intact := by
  have hsites : ∀ w, ∀ s ∈ ((g.updateVar v f).var w).sites, g.Holds s ∧ g.varOf? s = some w := by
    intro w s hs
    rw [var_updateVar] at hs
    split at hs
    · next hvw =>
      obtain ⟨rfl, -⟩ := hvw
      rcases hf s hs with hs | hs
      · exact ⟨hg.ofVar _ s hs, hg.linked _ s hs⟩
      · exact hs
    · exact ⟨hg.ofVar w s hs, hg.linked w s hs⟩
  exact ⟨fun w s hs => (hsites w s hs).2, fun w s hs => (hsites w s hs).1, hg.ofInsn⟩

theorem edited_updateVar {v : VarId} {f : Var → Var} (ht : ∀ x, (f x).typing = x.typing)
    (hf : ∀ s ∈ (f (g.var v)).sites, s ∈ (g.var v).sites ∨ (g.Holds s ∧ g.varOf? s = some v)) :
    Edited g (g.updateVar v f) :=
  ⟨g.updateVar_same Var.typing ht, Nat.le_refl _, fun h => intact_updateVar h hf⟩

/-! ## New entries -/

theorem edited_newBlock (synthetic : Bool) : Edited g (g.newBlock synthetic).2 :=
  edited_of_same rfl rfl rfl

theorem edited_connect (a b : BlockId) : Edited g (g.connect a b) := edited_of_same rfl rfl rfl

theorem edited_newVar (reg : Int) (name : String) : Edited g (g.newVar reg name).2 := by
  have hvar : ∀ w, (g.newVar reg name).2.var w =
      if w.index = g.vars.size then { reg, version := g.versionsOf reg, name } else g.var w := by
    intro w
    exact getD_push _ _ _ _
  have hsites : ∀ w, ∀ s ∈ ((g.newVar reg name).2.var w).sites, s ∈ (g.var w).sites := by
    intro w s hs
    rw [hvar] at hs
    split at hs
    · cases hs
    · exact hs
  refine ⟨fun w => ?_, Nat.le_refl _, fun h => ⟨?_, ?_, h.ofInsn⟩⟩
  · rw [hvar]
    split
    · next hw =>
      rw [var_of_size_le (Nat.le_of_eq hw.symm)]
      rfl
    · rfl
  · exact fun w s hs => h.linked w s (hsites w s hs)
  · exact fun w s hs => h.ofVar w s (hsites w s hs)

theorem edited_newSite (x : Site) : Edited g (g.newSite x).2 := by
  have hsize : (g.newSite x).2.sites.size = g.sites.size + 1 := Array.size_push _
  have hle : g.sites.size ≤ (g.newSite x).2.sites.size := by omega
  refine ⟨fun _ => rfl, hle, fun h => ⟨fun v s hs => ?_, ?_, ?_⟩⟩
  · -- an old site is not the new one, since it was in the table
    have hold := h.ofVar v s hs
    have hsite : (g.newSite x).2.site s = g.site s :=
      (getD_push _ _ _ _).trans (if_neg (Nat.ne_of_lt hold))
    rw [varOf?_congr (congrArg Site.operand hsite)]
    exact h.linked v s hs
  · exact fun v s hs => Nat.lt_of_lt_of_le (h.ofVar v s hs) hle
  · exact fun i s hs => Nat.lt_of_lt_of_le (h.ofInsn i s hs) hle

theorem holds_newSite (x : Site) : (g.newSite x).2.Holds (g.newSite x).1 := by
  have hsize : (g.newSite x).2.sites.size = g.sites.size + 1 := Array.size_push _
  rw [Holds, hsize]
  exact Nat.lt_succ_self _

/-- The slot of a new parameter is a site of its variable. -/
theorem edited_newParam (reg : Int) (declared : Option Ty) (name : String) :
    Edited g (g.newParam reg declared name).2 := by
  have hnew : Edited g ((g.newVar reg name).2.newReg (g.newVar reg name).1 declared).2 :=
    (edited_newVar reg name).trans (edited_newSite _)
  refine hnew.trans (edited_updateVar (fun _ => rfl) fun u hu => ?_)
  simp only [Var.sites, Option.toList_some, List.singleton_append, List.mem_cons] at hu
  rcases hu with rfl | hu
  · refine .inr ⟨holds_newSite _, varOf?_eq_some.mpr ?_⟩
    exact congrArg Site.operand ((getD_push _ _ _ _).trans (if_pos rfl))
  · exact .inl (List.mem_append_right _ hu)

theorem edited_newInsn {i : Insn} (hi : i.sites = []) : Edited g (g.newInsn i).2 := by
  refine ⟨fun _ => rfl, Nat.le_refl _, fun h => ⟨h.linked, h.ofVar, fun j s hs => ?_⟩⟩
  have hinsn : (g.newInsn i).2.insn j = if j.index = g.insns.size then i else g.insn j :=
    getD_push _ _ _ _
  rw [hinsn] at hs
  split at hs
  · rw [hi] at hs
    cases hs
  · exact h.ofInsn j s hs

theorem edited_duplicateFresh (s : SiteId) : Edited g (g.duplicateFresh s).2 := by
  unfold duplicateFresh
  split
  · exact (edited_newVar _ _).trans (edited_newSite _)
  · exact edited_newSite _

theorem holds_duplicateFresh (s : SiteId) : (g.duplicateFresh s).2.Holds (g.duplicateFresh s).1 := by
  unfold duplicateFresh
  split
  · exact holds_newSite _
  · exact holds_newSite _

/-! ## Uses and slots -/

theorem edited_linkUse (i : InsnId) {s : SiteId} (hs : g.Holds s) : Edited g (g.linkUse i s) := by
  unfold linkUse
  split
  · exact .refl g
  · next v hv =>
    refine edited_updateVar (fun _ => rfl) fun u hu => ?_
    simp only [Var.sites, ← List.append_assoc, List.mem_append, List.mem_singleton] at hu
    rcases hu with hu | rfl
    · exact .inl (by simpa [Var.sites] using hu)
    · exact .inr ⟨hs, hv⟩

theorem edited_unlinkUse (i : InsnId) (s : SiteId) : Edited g (g.unlinkUse i s) := by
  unfold unlinkUse
  split
  · exact .refl g
  · refine edited_updateVar (fun _ => rfl) fun u hu => .inl ?_
    rcases List.mem_append.mp hu with hu | hu
    · exact List.mem_append_left _ hu
    · exact List.mem_append_right _ (List.mem_of_mem_erase hu)

/-- A site becomes the definition of its variable. -/
theorem edited_define {s : SiteId} (hs : g.Holds s) (i : InsnId) :
    Edited g (match (g.updateSite s fun x => { x with owner := some i }).varOf? s with
      | some v => (g.updateSite s fun x => { x with owner := some i }).updateVar v
          fun x => { x with assign := some s }
      | none => g.updateSite s fun x => { x with owner := some i }) := by
  have hown : Edited g (g.updateSite s fun x => { x with owner := some i }) :=
    edited_updateSite fun _ => rfl
  split
  · next v hv =>
    refine hown.trans (edited_updateVar (fun _ => rfl) fun u hu => ?_)
    simp only [Var.sites, Option.toList_some, List.singleton_append, List.mem_cons] at hu
    rcases hu with rfl | hu
    · exact .inr ⟨hown.holds hs, hv⟩
    · exact .inl (List.mem_append_right _ hu)
  · exact hown

theorem edited_setResult (i : InsnId) {s : Option SiteId} (hs : ∀ u, s = some u → g.Holds u) :
    Edited g (g.setResult i s) := by
  have hrest : ∀ {g' : MethodGraph}, Edited g g' →
      Edited g (g'.updateInsn i fun x => { x with result := s }) := by
    intro g' h
    refine h.trans (edited_updateInsn fun u hu => ?_)
    rcases List.mem_append.mp hu with hu | hu
    · exact .inr (h.holds (hs u (by simpa using hu)))
    · exact .inl (List.mem_append_right _ hu)
  unfold setResult
  -- the old slot is let go, then the new one is entered and becomes a definition
  cases s with
  | none =>
    cases (g.insn i).result with
    | none => exact hrest (.refl g)
    | some old => exact hrest (edited_updateSite fun _ => rfl)
  | some s =>
    have hdefine {g' : MethodGraph} (h : Edited g g') :=
      (hrest h).trans (edited_define ((hrest h).holds (hs s rfl)) i)
    cases (g.insn i).result with
    | none => exact hdefine (.refl g)
    | some old => exact hdefine (edited_updateSite fun _ => rfl)

theorem edited_addArg (i : InsnId) {s : SiteId} (hs : g.Holds s) : Edited g (g.addArg i s) := by
  have hown : Edited g (g.updateSite s fun x => { x with owner := some i }) :=
    edited_updateSite fun _ => rfl
  have harg := hown.trans (edited_updateInsn (i := i) (f := fun x => { x with args := x.args ++ [s] })
    fun u hu => by
      simp only [Insn.sites, ← List.append_assoc, List.mem_append, List.mem_singleton] at hu
      rcases hu with hu | rfl
      · exact .inl (by simpa [Insn.sites] using hu)
      · exact .inr (hown.holds hs))
  exact harg.trans (edited_linkUse i (harg.holds hs))

theorem edited_addPhiArg (i : InsnId) {s : SiteId} (hs : g.Holds s) (source : BlockId) :
    Edited g (g.addPhiArg i s source) :=
  (edited_addArg i hs).trans (edited_touchInsn fun _ => rfl)

theorem edited_replaceArg (i : InsnId) (old : SiteId) {new : SiteId} (hs : g.Holds new) :
    Edited g (g.replaceArg i old new).2 := by
  unfold replaceArg
  split
  · exact .refl g
  · next n _ =>
    have harg : Edited g (g.updateInsn i fun x => { x with args := x.args.set n new }) := by
      refine edited_updateInsn fun u hu => ?_
      rcases List.mem_append.mp hu with hu | hu
      · exact .inl (List.mem_append_left _ hu)
      · rcases List.mem_or_eq_of_mem_set hu with hu | rfl
        · exact .inl (List.mem_append_right _ hu)
        · exact .inr hs
    have hout := ((harg.trans (edited_updateSite (s := new) (f := fun x => { x with owner := some i })
      fun _ => rfl)).trans (edited_updateSite (s := old) (f := fun x => { x with owner := none })
      fun _ => rfl)).trans (edited_unlinkUse i old)
    exact hout.trans (edited_linkUse i (hout.holds hs))

theorem edited_buildInsn {x : Insn} (hx : x.sites = []) {result : Option SiteId}
    (hr : ∀ u, result = some u → g.Holds u) {args : List SiteId} (ha : ∀ u ∈ args, g.Holds u) :
    Edited g (g.buildInsn x result args).2 := by
  -- adding one argument keeps the others held, so the induction carries the edits made so far
  have hargs : ∀ (id : InsnId) {g' : MethodGraph}, Edited g g' →
      Edited g (args.foldl (fun g s => g.addArg id s) g') := by
    intro id
    induction args with
    | nil => exact fun h => h
    | cons a args ih =>
      intro g' h
      have hadd := h.trans (edited_addArg id (h.holds (ha a List.mem_cons_self)))
      exact ih (fun u hu => ha u (List.mem_cons_of_mem a hu)) hadd
  have hnew : Edited g (g.newInsn x).2 := edited_newInsn hx
  refine hargs _ ?_
  split
  · exact hnew.trans (edited_setResult _ fun u hu => hnew.holds (hr u hu))
  · exact hnew

/-! ## Places -/

theorem edited_insertAt (b : BlockId) (n : Nat) (i : InsnId) : Edited g (g.insertAt b n i) :=
  (edited_updateBlock b _).trans (edited_touchInsn fun _ => rfl)

theorem edited_insertBefore (anchor i : InsnId) : Edited g (g.insertBefore anchor i).2 := by
  unfold insertBefore
  split
  · exact .refl g
  · exact edited_insertAt _ _ _

theorem edited_insertAfter (anchor i : InsnId) : Edited g (g.insertAfter anchor i).2 := by
  unfold insertAfter
  split
  · exact .refl g
  · exact edited_insertAt _ _ _

theorem edited_release (i : InsnId) (s : SiteId) : Edited g (g.release i s) :=
  (edited_unlinkUse i s).trans (edited_updateSite fun _ => rfl)

theorem edited_replaceInsn (old new : InsnId) : Edited g (g.replaceInsn old new).2 := by
  unfold replaceInsn
  split
  · exact .refl g
  · next b n _ =>
    have hfree : Edited g (g.updateInsn old fun x => { x with args := [] }) :=
      edited_updateInsn fun u hu => .inl (List.mem_append_left _ (by simpa [Insn.sites] using hu))
    have hout (g' : MethodGraph) (s : SiteId) :
        Edited g' (if (g'.site s).owner = some old then g'.release old s else g') := by
      split
      · exact edited_release old s
      · exact .refl g'
    refine Edited.trans ?_ (edited_touchInsn fun _ => rfl)
    refine Edited.trans ?_ (edited_touchInsn fun _ => rfl)
    exact (hfree.trans (rel_foldl (fun s _ g' => hout g' s) _)).trans (edited_updateBlock b _)

theorem edited_freshResult (i : InsnId) (r : SiteId) :
    Edited g ((g.duplicateFresh r).2.setResult i (some (g.duplicateFresh r).1)) := by
  refine (edited_duplicateFresh r).trans (edited_setResult i fun u hu => ?_)
  cases hu
  exact holds_duplicateFresh r

theorem edited_copyFresh (i : InsnId) : Edited g (g.copyFresh i).2 := by
  have hargs (id : InsnId) (g' : MethodGraph) (s : SiteId) :
      Edited g' ((g'.duplicate s).2.addArg id (g'.duplicate s).1) :=
    (edited_newSite _).trans (edited_addArg id (holds_newSite _))
  unfold copyFresh
  simp only
  split
  · exact (edited_newInsn rfl).trans (rel_foldl (fun s _ g' => hargs _ g' s) _)
  · dsimp only
    refine Edited.trans ?_ (edited_freshResult _ _)
    exact (edited_newInsn rfl).trans (rel_foldl (fun s _ g' => hargs _ g' s) _)

/-- Builds an instruction that reads a copy of a site. -/
theorem edited_buildFrom {x : Insn} (hx : x.sites = []) {r : SiteId} (hr : g.Holds r) (s : SiteId) :
    Edited g ((g.duplicate s).2.buildInsn x (some r) [(g.duplicate s).1]).2 := by
  have hcopy : Edited g (g.duplicate s).2 := edited_newSite _
  refine hcopy.trans (edited_buildInsn hx (fun u hu => ?_) fun u hu => ?_)
  · cases hu
    exact hcopy.holds hr
  · rw [List.mem_singleton.mp hu]
    exact holds_newSite _

/-- Puts a copy of a site in the place of an argument. -/
theorem edited_replaceByCopy (i : InsnId) (old s : SiteId) :
    Edited g ((g.duplicate s).2.replaceArg i old (g.duplicate s).1).2 :=
  (edited_newSite _).trans (edited_replaceArg i old (holds_newSite _))

end
end MethodGraph
end TypeRecovery
