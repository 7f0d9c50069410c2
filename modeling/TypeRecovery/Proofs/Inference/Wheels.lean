import TypeRecovery.Inference.Resolve.Search
import TypeRecovery.Proofs.Inference.Advance

/- The search writes types that no attempt has checked. A wheel can only show what its candidates are,
   however the wheels are turned, and the candidates were held against the bounds; so whatever the
   search writes fits its variable. -/
namespace TypeRecovery.Inference

open MethodGraph

namespace Search

/-! ## Turning wheels -/

/-- Every known type that the wheel may show has the property for its variable. -/
structure Wheel.Bears (P : VarId → Ty → Prop) (w : Wheel) : Prop where
  candidates : ∀ t ∈ w.candidates, P w.var t
  current : w.current.isKnown = true → P w.var w.current

def AllBear (P : VarId → Ty → Prop) (ws : List Wheel) : Prop := ∀ w ∈ ws, w.Bears P

section
variable {P : VarId → Ty → Prop} {w : Wheel} {ws : List Wheel}

theorem Wheel.Bears.showing (h : w.Bears P) (n : Nat) : (w.showing n).Bears P := by
  refine ⟨h.candidates, fun hk => ?_⟩
  cases hc : w.candidates[n]? with
  | none =>
    simp only [Wheel.showing, hc, Option.getD_none] at hk ⊢
    exact h.current hk
  | some t =>
    simp only [Wheel.showing, hc, Option.getD_some]
    exact h.candidates t (List.mem_of_getElem? hc)

theorem Wheel.Bears.turn (h : w.Bears P) : w.turn.2.Bears P := by
  unfold Wheel.turn
  split
  · exact h.showing _
  · exact h.showing 0

theorem Wheel.Bears.settle (h : w.Bears P) (o : Option ClassOracle) : (settle o ws w).Bears P := by
  unfold Search.settle
  simp only
  split
  · next n _ => exact ⟨(h.showing n).candidates, (h.showing n).current⟩
  · exact h.showing 0

theorem AllBear.advance (h : AllBear P ws) : AllBear P (advance ws).2 := by
  induction ws with
  | nil => exact h
  | cons w ws ih =>
    obtain ⟨hw, hws⟩ := List.forall_mem_cons.mp h
    have hturn := hw.turn
    unfold Search.advance
    split
    · next w' he =>
      rw [he] at hturn
      exact List.forall_mem_cons.mpr ⟨hturn, hws⟩
    · next w' he =>
      rw [he] at hturn
      exact List.forall_mem_cons.mpr ⟨hturn, ih hws⟩

theorem AllBear.spin (o : Option ClassOracle) (left turns : Nat) (h : AllBear P ws) :
    AllBear P (spin o left turns ws).2 := by
  fun_induction Search.spin o left turns ws with
  | case1 left turns ws _ =>
    intro x hx
    obtain ⟨w, hw, rfl⟩ := List.mem_map.mp hx
    exact ⟨(h w hw).candidates, (h w hw).current⟩
  | case2 left turns ws _ ws' hadv =>
    have hws := h.advance
    rwa [hadv] at hws
  | case3 turns ws _ ws' hadv =>
    have hws := h.advance
    rwa [hadv] at hws
  | case4 turns ws _ ws' left hadv ih =>
    have hws := h.advance
    rw [hadv] at hws
    exact ih hws

theorem AllBear.settleIndependent (o : Option ClassOracle) (h : AllBear P ws) :
    AllBear P (settleIndependent o ws) := by
  refine List.foldlRecOn _ _ h fun ws' hws' w hw => ?_
  split
  · intro x hx
    obtain ⟨y, hy, rfl⟩ := List.mem_map.mp hx
    split
    · exact (h w (List.mem_filter.mp hw).1).settle o
    · exact hws' y hy
  · exact hws'

/-- Wheels that were turned take the places of those with their variables. -/
theorem AllBear.replaced {turned : List Wheel} (h : AllBear P ws) (ht : AllBear P turned) :
    AllBear P (ws.map fun w => (turned.find? (·.var == w.var)).getD w) := by
  intro x hx
  obtain ⟨w, hw, rfl⟩ := List.mem_map.mp hx
  cases hf : turned.find? (·.var == w.var) with
  | none => exact h w hw
  | some w' => exact ht w' (List.mem_of_find?_eq_some hf)

theorem AllBear.turnOpen (o : Option ClassOracle) (limit : Nat) (h : AllBear P ws) :
    AllBear P (turnOpen o limit ws).2 := by
  -- freezing writes constraints only, which say nothing of types
  refine h.replaced (AllBear.spin o limit 0 fun x hx => ?_)
  obtain ⟨y, hy, rfl⟩ := List.mem_map.mp hx
  obtain ⟨w, hw, rfl⟩ := List.mem_map.mp hy
  have hbears := h w (List.mem_filter.mp hw).1
  refine Wheel.Bears.showing ?_ 0
  exact ⟨hbears.candidates, hbears.current⟩

end

/-! ## Candidates -/

theorem mem_sink {before : Ty → Ty → Bool} {t u : Ty} {us : List Ty} (h : u ∈ sink before t us) :
    u = t ∨ u ∈ us := by
  induction us with
  | nil => exact .inl (List.mem_singleton.mp h)
  | cons a us ih =>
    unfold sink at h
    split at h
    · rcases List.mem_cons.mp h with rfl | h
      · exact .inr List.mem_cons_self
      · exact (ih h).imp id (List.mem_cons_of_mem a)
    · exact List.mem_cons.mp h

theorem mem_arrange {before : Ty → Ty → Bool} {u : Ty} {ts : List Ty} (h : u ∈ arrange before ts) :
    u ∈ ts := by
  refine List.foldlRecOn (motive := fun placed => u ∈ placed → u ∈ ts) ts
    (fun placed t => sink before t placed) (fun hu => by cases hu) (fun placed ih t ht hu => ?_)
    (List.mem_reverse.mp h)
  rcases mem_sink hu with rfl | hu
  · exact ht
  · exact ih hu

/-- The types that fit the variables of a graph. -/
def fitting (c : Context) (g : MethodGraph) : VarId → Ty → Prop := fun v t => Fits c (g.var v) t

section
variable {c : Context} {g : MethodGraph}

theorem Wheel.Bears.retyped {g' : MethodGraph} {w : Wheel} (h : w.Bears (fitting c g))
    (hg : Retyped c g g') : w.Bears (fitting c g') :=
  ⟨fun t ht => (h.candidates t ht).congr (hg.framed.pin _) (hg.bounds _),
    fun hk => (h.current hk).congr (hg.framed.pin _) (hg.bounds _)⟩

theorem AllBear.retyped {g' : MethodGraph} {ws : List Wheel} (h : AllBear (fitting c g) ws)
    (hg : Retyped c g g') : AllBear (fitting c g') ws := fun w hw => (h w hw).retyped hg

/-- The candidates of a variable without a pin fit it. -/
theorem steps_consider {x : Var} (hx : x.pin = none) (g' : MethodGraph) {found : List Ty}
    (hf : ∀ u ∈ found, Fits c x u) (t : Ty) :
    Steps (Retyped c) c g (consider c g' x.bounds found t) fun ts _ => ∀ u ∈ ts, Fits c x u := by
  refine .ite' (fun _ => .pure' fun _ _ => hf) fun _ => ?_
  refine .bind' (.note' _) fun _ _ _ _ => .pure' fun _ _ => ?_
  split
  · next hb =>
    refine List.forall_mem_append.mpr ⟨hf, List.forall_mem_singleton.mpr ⟨fun p hp => ?_, fun _ => ?_⟩⟩
    · rw [hx] at hp
      cases hp
    · exact admits_of_withinBounds hb
  · exact hf

theorem steps_wheelOf (hg : Coherent c g) (v : VarId) :
    Steps (Retyped c) c g (wheelOf v) fun w g' => w.Bears (fitting c g') := by
  have hnone (g' : MethodGraph) {t : Ty} (ht : Fits c (g'.var v) t) :
      Wheel.Bears (fitting c g') { var := v, current := t, resolved := true } :=
    ⟨List.forall_mem_nil _, fun _ => ht⟩
  refine .read' (.theGraph' fun g₁ h₁ => ?_)
  simp only
  split
  · next t hp => exact .pure' fun g' hg' => (hnone g₁ (fits_pin hp)).retyped hg'
  · next hp hk => exact .pure' fun g' hg' => (hnone g₁ ((h₁.coherent hg).settled v hk)).retyped hg'
  · next hp hk =>
    -- an open variable without a pin: every candidate was held against its bounds
    have hfound : Steps (Retyped c) c g₁
        ((considered c g₁ v).foldlM (consider c g₁ (g₁.var v).bounds) [])
        fun ts _ => ∀ u ∈ ts, Fits c (g₁.var v) u :=
      .foldlM' (fun _ _ _ _ h => h) _ (fun t _ found _ _ hf => steps_consider hp g₁ hf t)
        (List.forall_mem_nil _)
    refine .bind' hfound fun ts g₂ h₂ hts => ?_
    split
    · exact .throw' _
    · next t =>
      exact .pure' fun g' hg' => (hnone g₁ (hts t List.mem_cons_self)).retyped (trans_of _ h₂ hg')
    · refine .pure' fun g' hg' => Wheel.Bears.retyped (g := g₁) ⟨fun u hu => ?_, fun hk => ?_⟩
        (trans_of _ h₂ hg')
      · exact hts u (mem_arrange hu)
      · cases hk

theorem Wheel.Bears.constrain {P : VarId → Ty → Prop} {w : Wheel} (h : w.Bears P) :
    (constrain g w).Bears P := by
  unfold Search.constrain
  split
  · exact h
  · exact ⟨h.candidates, h.current⟩

end

end Search

/-! ## The search -/

open Search

section
variable {c : Context} {g : MethodGraph}

theorem steps_turnWheels (o : Option ClassOracle) {ws : List Wheel} (h : AllBear (fitting c g) ws) :
    Steps (Retyped c) c g (turnWheels o ws)
      fun r g' => ∀ ws', r = some ws' → AllBear (fitting c g') ws' := by
  refine .ite' (fun _ => .pure' fun g' hg' => ?_) fun _ => .read' ?_
  · rintro _ ⟨⟩
    exact h.retyped hg'
  · refine .bind' (.note' _) fun _ g₁ h₁ _ => .ite' (fun _ => .pure' fun g' hg' => ?_) fun _ => ?_
    · rintro _ ⟨⟩
      exact (h.turnOpen o _).retyped (trans_of _ h₁ hg')
    · exact .bind' (.note' _) fun _ _ _ _ => .pure' fun _ _ _ hn => by cases hn

theorem steps_writeWheel {w : Wheel} (h : w.Bears (fitting c g)) :
    Steps (Retyped c) c g (writeWheel w) anyResult := by
  refine .change' fun g' hg' => ?_
  split
  · refine retyped_setVarType fun u hu hk => ?_
    cases hu
    exact (h.retyped hg').current hk
  · exact refl_of (Retyped c) g'

theorem steps_confirmWheel (w : Wheel) : Steps (Retyped c) c g (confirmWheel w) anyResult := by
  refine .bind' (steps_apply _ _ _) fun r _ _ _ => .ite' (fun _ => ?_) fun _ => ?_
  · exact .theGraph' fun _ _ => .bind' (.report' _) fun _ _ _ _ => .done' _
  · exact .done' _

theorem steps_applyWheels {ws : List Wheel} (h : AllBear (fitting c g) ws) :
    Steps (Retyped c) c g (applyWheels ws) anyResult := by
  have hwrites : Steps (Retyped c) c g (ws.filterM writeWheel) anyResult :=
    .filterM' ws fun w hw g' hg' => steps_writeWheel ((h w hw).retyped hg')
  refine .bind' hwrites fun _ _ _ _ => ?_
  refine .bind' (.anyOf' _ fun w _ _ _ => ?_) fun _ _ _ _ => .done' _
  exact .bind' (steps_confirmWheel w) fun _ _ _ _ => .done' _

theorem steps_searchTypes (hg : Coherent c g) : Steps (Retyped c) c g searchTypes anyResult := by
  refine .read' (.theGraph' fun g₁ h₁ => .ite' (fun _ => ?_) fun _ => ?_)
  · exact .bind' (.report' _) fun _ _ _ _ => .done' _
  · -- what the wheels bear stays true while only types are written
    have hwheels := Steps.mapM' (fun _ _ _ h hw => hw.retyped h) g₁.live
      fun v _ g' hg' => steps_wheelOf (hg'.coherent (h₁.coherent hg)) v
    refine .bind' hwheels fun ws g₂ h₂ hws => ?_
    have hall : AllBear (fitting c g₂) (ws.map (constrain g₁)) := by
      intro x hx
      obtain ⟨w, hw, rfl⟩ := List.mem_map.mp hx
      exact (hws w hw).constrain
    refine .bind' (steps_turnWheels _ (hall.settleIndependent _)) fun r g₃ h₃ hr => ?_
    split
    · exact .done' _
    · next ws' => exact steps_applyWheels (hr ws' rfl)

theorem steps_search (hg : Coherent c g) : Steps (Retyped c) c g search anyResult := by
  have hend (g' : MethodGraph) :
      Steps (Retyped c) c g' (do return allKnown (← theGraph) : Infer Bool) anyResult :=
    .theGraph' fun _ _ => .done' _
  refine .bind' (steps_searchTypes hg) fun _ _ _ _ => .ite' (fun _ => ?_) fun _ => hend _
  exact .bind' (.report' _) fun _ _ _ _ => hend _

end
end TypeRecovery.Inference
