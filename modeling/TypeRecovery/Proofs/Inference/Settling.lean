import TypeRecovery.Proofs.Graph.Supply
import TypeRecovery.Proofs.Graph.Wiring
import TypeRecovery.Proofs.Inference.Finishing

/- Settling open types. A site that is settled takes the preferred kind of its type, whatever else is
   known of it, so sites of one type end with one type; and settling a second time, through another site
   of the same variable, changes nothing more. -/
namespace TypeRecovery

namespace Ty

/-- What settling makes of a type. -/
def settled (t : Ty) : Ty := t.settle?.getD t

theorem isKnown_ofKind (k : Kind) : (ofKind k).isKnown = true := by cases k <;> rfl

theorem kind?_ofKind (k : Kind) : (ofKind k).kind? = some k := by cases k <;> rfl

theorem settled_hole (ks : List Kind) : (hole ks).settled =
    ((settleOrder.find? (ks.contains ·)).map ofKind).getD (hole ks) := rfl

/-- Only a placeholder is settled. -/
theorem settled_of_isKnown {t : Ty} (h : t.isKnown = true) : t.settled = t := by
  cases t with
  | hole ks => cases h
  | _ => rfl

theorem settled_eq_or_isKnown (t : Ty) : t.settled = t ∨ t.settled.isKnown = true := by
  cases t with
  | hole ks =>
    rw [settled_hole]
    cases settleOrder.find? (ks.contains ·) with
    | none => exact .inl rfl
    | some k => exact .inr (isKnown_ofKind k)
  | _ => exact .inl rfl

theorem settled_settled (t : Ty) : t.settled.settled = t.settled := by
  rcases settled_eq_or_isKnown t with h | h
  · rw [h, h]
  · exact settled_of_isKnown h

/-- A placeholder admits the kind on which it is settled. -/
theorem merge?_settle (o : Option ClassOracle) {t d : Ty} (h : t.settle? = some d) :
    merge? o t d = some d := by
  cases t with
  | hole ks =>
    obtain ⟨k, hk, rfl⟩ := Option.map_eq_some_iff.mp h
    have hadmits : (hole ks).admits k = true := List.find?_some hk
    have hne : hole ks ≠ ofKind k := by cases k <;> exact nofun
    have hinto : mergeInto? o (hole ks) (ofKind k) = some (ofKind k) := by
      have hopen : (hole ks).isKnown = false := rfl
      unfold mergeInto?
      split
      · rfl
      · simp [hopen, isKnown_ofKind, kind?_ofKind, hadmits]
    rw [merge?, if_neg hne, hinto]
  | _ =>
    cases h
    rw [merge?, if_pos rfl]

end Ty

namespace Inference

open MethodGraph

section
variable {c : Context} {g g' : MethodGraph}

/-! ## Written types -/

/-- A site beyond the table counts as a register. -/
theorem holds_of_varOf?_none {s : SiteId} (h : g.varOf? s = none) : g.Holds s := by
  refine Nat.lt_of_not_le fun hle => ?_
  rw [varOf?, site_of_size_le hle] at h
  cases h

/-- The variable that the site reads, if it reads one, is in the table. -/
def Grounded (g : MethodGraph) (s : SiteId) : Prop := ∀ v, g.varOf? s = some v → v.index < g.vars.size

theorem Grounded.congr {s : SiteId} (h : Grounded g s) (hf : Framed g g') : Grounded g' s := by
  intro v hv
  rw [hf.varOf] at hv
  rw [hf.vars]
  exact h v hv

/-- A written type is read at the site. -/
theorem typeAt_setType_self {s : SiteId} (hs : Grounded g s) (t : Ty) :
    (g.setType s (some t)).typeAt s = t := by
  cases hvar : g.varOf? s with
  | some v =>
    have htype : (g.setType s (some t)).var v = { g.var v with type := some t } := by
      rw [setType, varOf?_eq_some.mp hvar]
      exact (var_updateVar _ _ _ _).trans (if_pos ⟨rfl, hs v hvar⟩)
    rw [typeAt_of_varOf? ((varOf?_setType s s _).trans hvar), htype]
    rfl
  | none =>
    unfold setType
    split
    · next v h =>
      rw [varOf?_eq_some.mpr h] at hvar
      cases hvar
    · next value old h =>
      rw [typeAt, site_updateSite, if_pos ⟨rfl, holds_of_varOf?_none hvar⟩]
      rfl

/-- Where a written type is read, the type was that of the site before. -/
theorem typeAt_setType_or (s u : SiteId) (t : Ty) :
    (g.setType s (some t)).typeAt u = g.typeAt u ∨
      ((g.setType s (some t)).typeAt u = t ∧ g.typeAt u = g.typeAt s) := by
  cases hu : g.varOf? u with
  | some v =>
    rw [typeAt_of_varOf? ((varOf?_setType s u _).trans hu), typeAt_of_varOf? hu]
    rcases var_setType (g := g) s (some t) v with h | ⟨hs, h⟩
    · rw [h]
      exact .inl rfl
    · rw [h, typeAt_of_varOf? hs]
      exact .inr ⟨rfl, rfl⟩
  | none =>
    rcases typeAt_setType hu s t with h | ⟨rfl, h⟩
    · exact .inl h
    · exact .inr ⟨h, rfl⟩

/-! ## Settling -/

/-- Some sites were settled, and nothing else has changed. -/
structure Settling (g g' : MethodGraph) : Prop where
  framed : Framed g g'
  types : ∀ u, g'.typeAt u = g.typeAt u ∨ g'.typeAt u = (g.typeAt u).settled

instance : IsPreorder MethodGraph Settling where
  refl g := ⟨refl_of Framed g, fun _ => .inl rfl⟩
  trans g₁ g₂ g₃ h h' := by
    refine ⟨trans_of Framed h.framed h'.framed, fun u => ?_⟩
    rcases h.types u with h₁ | h₁
    · rw [← h₁]
      exact h'.types u
    · have h₂ := h'.types u
      rw [h₁, Ty.settled_settled, or_self] at h₂
      exact .inr h₂

theorem Settling.settled (h : Settling g g') (u : SiteId) :
    (g'.typeAt u).settled = (g.typeAt u).settled := by
  rcases h.types u with h | h
  · rw [h]
  · rw [h, Ty.settled_settled]

theorem settling_setType (s : SiteId) :
    Settling g (g.setType s (some (g.typeAt s).settled)) := by
  refine ⟨framed_setType s _, fun u => ?_⟩
  rcases typeAt_setType_or (g := g) s u (g.typeAt s).settled with h | ⟨h, hu⟩
  · exact .inl h
  · rw [h, hu]
    exact .inr rfl

/-- What settling one site does. -/
theorem after_settleSite (s : SiteId) (c : Context) (st : Session) :
    ∃ st', (settleSite s).after c st = (.ok (), st') ∧
      st'.graph = if (st.graph.typeAt s).settled = st.graph.typeAt s then st.graph
        else st.graph.setType s (some (st.graph.typeAt s).settled) := by
  rw [settleSite, after_theGraph]
  simp only
  split
  · next d hopen hd =>
    have hsettled : (st.graph.typeAt s).settled = d := by rw [Ty.settled, hd]; rfl
    have hmerge : ∃ helped st', (mergeAt s d).after c st = (.ok helped, st') ∧
        st'.graph = if d = st.graph.typeAt s then st.graph else st.graph.setType s (some d) := by
      rw [mergeAt, after_read, after_theGraph]
      simp only [hopen, Ty.merge?_settle c.oracle hd, Bool.false_and, Bool.false_eq_true, if_false]
      split
      · exact ⟨false, st, rfl, rfl⟩
      · exact ⟨true, _, rfl, rfl⟩
    obtain ⟨helped, st', hend, hg⟩ := hmerge
    refine ⟨st', ?_, hsettled ▸ hg⟩
    change (mergeAt s d >>= fun _ => pure ()).after c st = _
    rw [after_bind, hend]
    rfl
  · next hcase =>
    refine ⟨st, rfl, (if_pos ?_).symm⟩
    cases hopen : (st.graph.typeAt s).isKnown with
    | true => exact Ty.settled_of_isKnown hopen
    | false =>
      cases hd : (st.graph.typeAt s).settle? with
      | none => rw [Ty.settled, hd]; rfl
      | some d => exact absurd hd (hcase d hopen)

/-- The step settles the sites of the list, and perhaps others, and comes to a result. -/
structure Settles (c : Context) (l : List SiteId) (m : Infer PUnit) : Prop where
  outcome : ∀ st, (∀ s ∈ l, Grounded st.graph s) → ∃ st', m.after c st = (.ok (), st') ∧
    Settling st.graph st'.graph ∧ ∀ s ∈ l, st'.graph.typeAt s = (st.graph.typeAt s).settled

namespace Settles

theorem site' (s : SiteId) : Settles c [s] (settleSite s) := by
  refine ⟨fun st hst => ?_⟩
  obtain ⟨st', hend, hg⟩ := after_settleSite s c st
  refine ⟨st', hend, ?_⟩
  rw [hg]
  simp only [List.mem_singleton, forall_eq]
  split
  · next h => exact ⟨refl_of Settling _, h.symm⟩
  · exact ⟨settling_setType s, typeAt_setType_self (hst s List.mem_cons_self) _⟩

theorem pure' : Settles c [] (pure ()) :=
  ⟨fun st _ => ⟨st, rfl, refl_of Settling _, nofun⟩⟩

theorem bind' {l l' : List SiteId} {m n : Infer PUnit} (hm : Settles c l m) (hn : Settles c l' n) :
    Settles c (l ++ l') (m >>= fun _ => n) := by
  refine ⟨fun st hst => ?_⟩
  obtain ⟨st₁, h₁, hs₁, hl⟩ := hm.outcome st fun s hs => hst s (List.mem_append_left _ hs)
  obtain ⟨st₂, h₂, hs₂, hl'⟩ := hn.outcome st₁ fun s hs =>
    (hst s (List.mem_append_right _ hs)).congr hs₁.framed
  refine ⟨st₂, ?_, trans_of Settling hs₁ hs₂, fun s hs => ?_⟩
  · rw [after_bind, h₁]
    exact h₂
  · rcases List.mem_append.mp hs with hs | hs
    · -- a site that was settled before is settled no further
      have h := hs₂.types s
      rw [hl s hs, Ty.settled_settled, or_self] at h
      exact h
    · rw [hl' s hs, hs₁.settled]

theorem forM' {α : Type} {f : α → List SiteId} {step : α → Infer PUnit}
    (h : ∀ a, Settles c (f a) (step a)) (l : List α) : Settles c (l.flatMap f) (l.forM step) := by
  induction l with
  | nil => exact pure'
  | cons a l ih =>
    rw [List.flatMap_cons]
    exact (h a).bind' ih

theorem sites' (l : List SiteId) : Settles c l (l.forM settleSite) := by
  have h := forM' (c := c) (f := fun s => [s]) site' l
  rwa [List.flatMap_singleton'] at h

end Settles

end
end Inference
end TypeRecovery
