import Mathlib.Order.Defs.Unbundled
import TypeRecovery.Graph.Edit

/- Reading the tables of a graph after an entry was written or added, and the frame of the writes that
   only touch typing: `Framed g g'` holds if the graphs differ in types and bounds alone. -/
namespace TypeRecovery

theorem getD_modify {α : Type} (xs : Array α) (i j : Nat) (f : α → α) (d : α) :
    (xs.modify i f).getD j d = if i = j ∧ j < xs.size then f (xs.getD j d) else xs.getD j d := by
  simp only [Array.getD_eq_getD_getElem?, Array.getElem?_modify]
  by_cases hij : i = j
  · by_cases hj : j < xs.size
    · simp [hij, hj]
    · simp [hij, hj]
  · simp [hij]

theorem getD_push {α : Type} (xs : Array α) (x : α) (j : Nat) (d : α) :
    (xs.push x).getD j d = if j = xs.size then x else xs.getD j d := by
  simp only [Array.getD_eq_getD_getElem?, Array.getElem?_push]
  split <;> rfl

/-- What a fold of steps along a preorder does. -/
theorem rel_foldl {σ α : Type} {R : σ → σ → Prop} [IsPreorder σ R] {f : σ → α → σ} {l : List α}
    (h : ∀ a ∈ l, ∀ s, R s (f s a)) (s : σ) : R s (l.foldl f s) := by
  induction l generalizing s with
  | nil => exact refl_of R s
  | cons a l ih =>
    exact trans_of R (h a List.mem_cons_self s) (ih (fun b hb => h b (List.mem_cons_of_mem a hb)) _)

/-- The definition and the uses of a variable. -/
def Var.sites (x : Var) : List SiteId := x.assign.toList ++ x.uses

/-- The variable without what inference finds out about it. -/
def Var.bare (x : Var) : Var := { x with type := none, bounds := [] }

/-- The operand without what inference finds out about it. -/
def Operand.bare : Operand → Operand
  | .reg v => .reg v
  | .lit value _ => .lit value Ty.anything

/-- The site without its owner and what inference finds out about it. -/
def Site.bare (x : Site) : Site := { x with owner := none, operand := x.operand.bare }

namespace MethodGraph

/-! ## Written entries -/

section
variable (g : MethodGraph)

theorem var_updateVar (v w : VarId) (f : Var → Var) :
    (g.updateVar v f).var w = if v = w ∧ w.index < g.vars.size then f (g.var w) else g.var w := by
  obtain ⟨i⟩ := v
  obtain ⟨j⟩ := w
  simp only [updateVar, var, getD_modify, VarId.mk.injEq]

theorem site_updateSite (s u : SiteId) (f : Site → Site) :
    (g.updateSite s f).site u = if s = u ∧ u.index < g.sites.size then f (g.site u) else g.site u := by
  obtain ⟨i⟩ := s
  obtain ⟨j⟩ := u
  simp only [updateSite, site, getD_modify, SiteId.mk.injEq]

theorem insn_updateInsn (i j : InsnId) (f : Insn → Insn) :
    (g.updateInsn i f).insn j = if i = j ∧ j.index < g.insns.size then f (g.insn j) else g.insn j := by
  obtain ⟨n⟩ := i
  obtain ⟨m⟩ := j
  simp only [updateInsn, insn, getD_modify, InsnId.mk.injEq]

/-- What the writer leaves alone in a variable stays the same in all. -/
theorem updateVar_same {β : Type} (p : Var → β) {v : VarId} {f : Var → Var} (hf : ∀ x, p (f x) = p x)
    (w : VarId) : p ((g.updateVar v f).var w) = p (g.var w) := by
  rw [var_updateVar]
  split
  · exact hf _
  · rfl

theorem updateSite_same {β : Type} (p : Site → β) {s : SiteId} {f : Site → Site}
    (hf : ∀ x, p (f x) = p x) (u : SiteId) : p ((g.updateSite s f).site u) = p (g.site u) := by
  rw [site_updateSite]
  split
  · exact hf _
  · rfl

@[simp] theorem size_updateSite (s : SiteId) (f : Site → Site) :
    (g.updateSite s f).sites.size = g.sites.size := Array.size_modify

end

/-! ## Sites and their variables -/

section
variable {g : MethodGraph} {s : SiteId} {v : VarId}

/-- What lies beyond the table of variables. -/
theorem var_of_size_le (h : g.vars.size ≤ v.index) : g.var v = default := by
  simp [var, h]

theorem varOf?_eq_some : g.varOf? s = some v ↔ (g.site s).operand = .reg v := by
  unfold varOf?
  split <;> simp_all

theorem varOf?_congr {g' : MethodGraph} {u : SiteId} (h : (g'.site u).operand = (g.site s).operand) :
    g'.varOf? u = g.varOf? s := by
  rw [varOf?, varOf?, h]

theorem typeAt_of_varOf? (h : g.varOf? s = some v) : g.typeAt s = (g.var v).ty := by
  rw [typeAt, varOf?_eq_some.mp h]

/-- The type of a literal stands in its own site. -/
theorem typeAt_congr {g' : MethodGraph} (hs : g.varOf? s = none)
    (h : (g'.site s).operand = (g.site s).operand) : g'.typeAt s = g.typeAt s := by
  rw [typeAt, typeAt, h]
  split
  · next v h' => rw [varOf?_eq_some.mpr h'] at hs; cases hs
  · rfl

theorem isPinnedAt_of_varOf? (h : g.varOf? s = some v) : g.isPinnedAt s = (g.var v).isPinned := by
  rw [isPinnedAt, varOf?_eq_some.mp h]

theorem isPinnedAt_of_none (h : g.varOf? s = none) : g.isPinnedAt s = (g.site s).pinned := by
  unfold varOf? at h
  unfold isPinnedAt
  split at h
  · cases h
  · rfl

/-- All sites that a variable lists as its definition and its uses are sites of the variable. -/
def Linked (g : MethodGraph) : Prop := ∀ v, ∀ s ∈ (g.var v).sites, g.varOf? s = some v

theorem linked_iff {g : MethodGraph} : Linked g ↔ ∀ i < g.vars.size,
    ∀ s ∈ (g.var ⟨i⟩).sites, g.varOf? s = some ⟨i⟩ := by
  refine ⟨fun h i _ => h ⟨i⟩, fun h v s hs => ?_⟩
  by_cases hv : v.index < g.vars.size
  · exact h v.index hv s hs
  · rw [var_of_size_le (Nat.le_of_not_lt hv)] at hs
    cases hs

instance (g : MethodGraph) : Decidable (Linked g) := decidable_of_iff _ linked_iff.symm

end

/-! ## Writing types -/

/-- What a graph says of its method outside the tables. -/
def header (g : MethodGraph) : String × String × List TypeVar × Bool :=
  (g.cls, g.name, g.typeVars, g.noCode)

/-- The graphs differ in types and bounds alone. -/
structure Framed (g g' : MethodGraph) : Prop where
  header : g'.header = g.header
  var : ∀ v, (g'.var v).bare = (g.var v).bare
  vars : g'.vars.size = g.vars.size
  varOf : ∀ s, g'.varOf? s = g.varOf? s
  owner : ∀ s, (g'.site s).owner = (g.site s).owner
  site : ∀ s, (g'.site s).bare = (g.site s).bare
  size : g'.sites.size = g.sites.size
  insns : g'.insns = g.insns
  blocks : g'.blocks = g.blocks
  live : g'.live = g.live

instance : IsPreorder MethodGraph Framed where
  refl _ := ⟨rfl, fun _ => rfl, rfl, fun _ => rfl, fun _ => rfl, fun _ => rfl, rfl, rfl, rfl, rfl⟩
  trans _ _ _ h h' := ⟨h'.header.trans h.header, fun v => (h'.var v).trans (h.var v),
    h'.vars.trans h.vars, fun s => (h'.varOf s).trans (h.varOf s),
    fun s => (h'.owner s).trans (h.owner s), fun s => (h'.site s).trans (h.site s),
    h'.size.trans h.size, h'.insns.trans h.insns, h'.blocks.trans h.blocks, h'.live.trans h.live⟩

section
variable {g g' : MethodGraph}

theorem Framed.assign (h : Framed g g') (v : VarId) : (g'.var v).assign = (g.var v).assign := by
  have e := congrArg Var.assign (h.var v)
  exact e

theorem Framed.uses (h : Framed g g') (v : VarId) : (g'.var v).uses = (g.var v).uses := by
  have e := congrArg Var.uses (h.var v)
  exact e

theorem Framed.phis (h : Framed g g') (v : VarId) : (g'.var v).phis = (g.var v).phis := by
  have e := congrArg Var.phis (h.var v)
  exact e

theorem Framed.pin (h : Framed g g') (v : VarId) : (g'.var v).pin = (g.var v).pin := by
  have e := congrArg Var.pin (h.var v)
  exact e

theorem Framed.pinned (h : Framed g g') (s : SiteId) : (g'.site s).pinned = (g.site s).pinned := by
  have e := congrArg Site.pinned (h.site s)
  exact e

/-- What is pinned is not a matter of types. -/
theorem Framed.isPinnedAt (h : Framed g g') (s : SiteId) : g'.isPinnedAt s = g.isPinnedAt s := by
  cases hs : g.varOf? s with
  | some v =>
    rw [isPinnedAt_of_varOf? hs, isPinnedAt_of_varOf? ((h.varOf s).trans hs), Var.isPinned,
      Var.isPinned, h.pin]
  | none => rw [isPinnedAt_of_none hs, isPinnedAt_of_none ((h.varOf s).trans hs), h.pinned]

theorem framed_updateVar {v : VarId} {f : Var → Var} (hf : ∀ x, (f x).bare = x.bare) :
    Framed g (g.updateVar v f) :=
  ⟨rfl, g.updateVar_same Var.bare hf, Array.size_modify, fun _ => rfl, fun _ => rfl, fun _ => rfl, rfl,
    rfl, rfl, rfl⟩

theorem framed_setVarType (v : VarId) (t : Option Ty) : Framed g (g.setVarType v t) :=
  framed_updateVar fun _ => rfl

theorem varOf?_setType (s u : SiteId) (t : Option Ty) : (g.setType s t).varOf? u = g.varOf? u := by
  unfold setType
  split
  · rfl
  · next value old h =>
    by_cases hu : s = u ∧ u.index < g.sites.size
    · obtain ⟨rfl, hs⟩ := hu
      rw [varOf?, varOf?, site_updateSite, if_pos ⟨rfl, hs⟩, h]
    · exact varOf?_congr (by rw [site_updateSite, if_neg hu])

theorem framed_setType (s : SiteId) (t : Option Ty) : Framed g (g.setType s t) := by
  have hvarOf := fun u => varOf?_setType (g := g) s u t
  unfold setType at hvarOf ⊢
  split
  · exact framed_setVarType _ _
  · next value old h =>
    rw [h] at hvarOf
    refine ⟨rfl, fun _ => rfl, rfl, hvarOf, g.updateSite_same Site.owner fun _ => rfl, fun u => ?_,
      size_updateSite _ _ _, rfl, rfl, rfl⟩
    rw [site_updateSite]
    split
    · next hu =>
      obtain ⟨rfl, -⟩ := hu
      simp only [Site.bare, h, Operand.bare]
    · rfl

/-- A written type is read at the variable of the site. -/
theorem var_setType (s : SiteId) (t : Option Ty) (v : VarId) :
    (g.setType s t).var v = g.var v ∨
      (g.varOf? s = some v ∧ (g.setType s t).var v = { g.var v with type := t }) := by
  unfold setType
  split
  · next w h =>
    rw [setVarType, var_updateVar]
    split
    · next hv => obtain ⟨rfl, -⟩ := hv; exact .inr ⟨varOf?_eq_some.mpr h, rfl⟩
    · exact .inl rfl
  · exact .inl rfl

/-- A written type is read at a literal. -/
theorem typeAt_setType {u : SiteId} (hu : g.varOf? u = none) (s : SiteId) (t : Ty) :
    (g.setType s (some t)).typeAt u = g.typeAt u ∨
      (s = u ∧ (g.setType s (some t)).typeAt u = t) := by
  unfold setType
  split
  · exact .inl (typeAt_congr hu rfl)
  · next value old h =>
    by_cases hs : s = u ∧ u.index < g.sites.size
    · refine .inr ⟨hs.1, ?_⟩
      rw [typeAt, site_updateSite, if_pos hs]
      rfl
    · exact .inl (typeAt_congr hu (by rw [site_updateSite, if_neg hs]))

end

end MethodGraph
end TypeRecovery
