import TypeRecovery.Inference.Resolve.Moves
import TypeRecovery.Proofs.Graph.Wiring
import TypeRecovery.Proofs.Inference.Advance

/- Where a step ends. `Ends c g m Q E` says that from the graph `g` the step `m` ends in a result and a
   graph for which `Q` holds, or in a fault and a graph for which `E` holds. There is one lemma for each
   way that steps are put together, and what says nothing about types survives that inference starts
   over. -/
namespace TypeRecovery.Inference

open MethodGraph

structure Ends {α : Type} (c : Context) (g : MethodGraph) (m : Infer α) (Q : α → MethodGraph → Prop)
    (E : MethodGraph → Prop) : Prop where
  outcome : ∀ s, s.graph = g →
    match m.after c s with
    | (.ok a, s') => Q a s'.graph
    | (.error _, s') => E s'.graph

namespace Ends

section
variable {c : Context} {g : MethodGraph} {α β : Type} {E : MethodGraph → Prop}
variable {Q : α → MethodGraph → Prop} {R : β → MethodGraph → Prop}

theorem pure' {a : α} (h : Q a g) : Ends c g (pure a) Q E := by
  refine ⟨fun s hs => ?_⟩
  subst hs
  exact h

theorem throw' (f : Fault) (h : E g) : Ends c g (throw f : Infer α) Q E := by
  refine ⟨fun s hs => ?_⟩
  subst hs
  exact h

theorem bind' {m : Infer α} {f : α → Infer β} (hm : Ends c g m Q E)
    (hf : ∀ a g', Q a g' → Ends c g' (f a) R E) : Ends c g (m >>= f) R E := by
  refine ⟨fun s hs => ?_⟩
  have h := hm.outcome s hs
  rw [after_bind]
  rcases hr : m.after c s with ⟨e | a, s'⟩
  · rw [hr] at h
    exact h
  · rw [hr] at h
    exact (hf a s'.graph h).outcome s' rfl

theorem ite' {p : Prop} [Decidable p] {m n : Infer α} (hm : p → Ends c g m Q E)
    (hn : ¬p → Ends c g n Q E) : Ends c g (if p then m else n) Q E := by
  by_cases h : p
  · rw [if_pos h]; exact hm h
  · rw [if_neg h]; exact hn h

theorem read' {f : Context → Infer α} (h : Ends c g (f c) Q E) : Ends c g (read >>= f) Q E :=
  ⟨h.outcome⟩

theorem theGraph' {f : MethodGraph → Infer α} (h : Ends c g (f g) Q E) :
    Ends c g (theGraph >>= f) Q E := by
  refine ⟨fun s hs => ?_⟩
  subst hs
  exact h.outcome s rfl

theorem edit' {f : MethodGraph → α × MethodGraph} (h : Q (f g).1 (f g).2) :
    Ends c g (edit f) Q E := by
  refine ⟨fun s hs => ?_⟩
  subst hs
  exact h

/-- An edit and what follows it. -/
theorem editThen' {f : MethodGraph → α × MethodGraph} {k : α → Infer β}
    (hk : Ends c (f g).2 (k (f g).1) R E) : Ends c g (edit f >>= k) R E := by
  refine bind' (Q := fun a g' => a = (f g).1 ∧ g' = (f g).2) (edit' ⟨rfl, rfl⟩) ?_
  rintro _ _ ⟨rfl, rfl⟩
  exact hk

theorem report' (n : Notice) {Q : Unit → MethodGraph → Prop} (h : Q () g) :
    Ends c g (report n) Q E := by
  refine ⟨fun s hs => ?_⟩
  subst hs
  exact h

theorem note' (records : List LogRecord) {Q : Unit → MethodGraph → Prop} (h : Q () g) :
    Ends c g (note records) Q E := by
  refine read' (ite' (fun _ => ⟨fun s hs => ?_⟩) fun _ => pure' h)
  subst hs
  exact h

theorem tryCatch' {D : MethodGraph → Prop} {m : Infer α} {handler : Fault → Infer α}
    (hm : Ends c g m Q D) (hh : ∀ f g', D g' → Ends c g' (handler f) Q E) :
    Ends c g (tryCatch m handler) Q E := by
  refine ⟨fun s hs => ?_⟩
  have h := hm.outcome s hs
  rw [after_tryCatch]
  rcases hr : m.after c s with ⟨f | a, s'⟩
  · rw [hr] at h
    exact (hh f s'.graph h).outcome s' rfl
  · rw [hr] at h
    exact h

/-- The same of the graph at the end, with a fault or without. -/
theorem iff_after {m : Infer α} : Ends c g m (fun _ => E) E ↔
    ∀ s : Session, s.graph = g → E (m.after c s).2.graph := by
  constructor
  · intro h s hs
    have hend := h.outcome s hs
    rcases hr : m.after c s with ⟨_ | _, s'⟩ <;>
    · rw [hr] at hend
      exact hend
  · refine fun h => ⟨fun s hs => ?_⟩
    have hend := h s hs
    rcases hr : m.after c s with ⟨_ | _, s'⟩ <;>
    · rw [hr] at hend
      exact hend

/-- What is known of the graph at the end may be weakened. -/
theorem imp {D : MethodGraph → Prop} {m : Infer α} (h : Ends c g m (fun _ => D) D)
    (hE : ∀ g', D g' → E g') : Ends c g m (fun _ => E) E :=
  iff_after.mpr fun s hs => hE _ (iff_after.mp h s hs)

/-- A step along a relation that leads to the wanted graphs only. -/
theorem of_steps {K : MethodGraph → MethodGraph → Prop} [IsPreorder MethodGraph K] {m : Infer α}
    (h : Steps K c g m anyResult) (hK : ∀ g', K g g' → E g') : Ends c g m (fun _ => E) E := by
  refine iff_after.mpr fun s hs => hK _ ?_
  subst hs
  exact (h s (refl_of K _)).1.graph

/-! Steps over lists keep what each of them keeps. -/

theorem anyOf' {step : α → Infer Bool} (l : List α)
    (h : ∀ a ∈ l, ∀ g', E g' → Ends c g' (step a) (fun _ => E) E) (hg : E g) :
    Ends c g (anyOf step l) (fun _ => E) E := by
  induction l generalizing g with
  | nil => exact pure' hg
  | cons a l ih =>
    refine bind' (h a List.mem_cons_self g hg) fun _ g₁ h₁ => ?_
    refine bind' (ih (fun b hb => h b (List.mem_cons_of_mem a hb)) h₁) fun _ _ h₂ => ?_
    exact pure' h₂

theorem totalOf' {step : α → Infer Nat} (l : List α)
    (h : ∀ a ∈ l, ∀ g', E g' → Ends c g' (step a) (fun _ => E) E) (hg : E g) :
    Ends c g (totalOf step l) (fun _ => E) E := by
  induction l generalizing g with
  | nil => exact pure' hg
  | cons a l ih =>
    refine bind' (h a List.mem_cons_self g hg) fun _ g₁ h₁ => ?_
    refine bind' (ih (fun b hb => h b (List.mem_cons_of_mem a hb)) h₁) fun _ _ h₂ => ?_
    exact pure' h₂

end
end Ends

/-! ## Starting over -/

/-- What is said of the graph is not about its types. -/
def Typeless (E : MethodGraph → Prop) : Prop := ∀ g g', Framed g g' → E g → E g'

theorem typeless_wired (P : Set VarId) : Typeless (Wired P ∅ ∅) := fun _ _ hf h => h.congr hf.sameLinks

section
variable {c : Context} {g : MethodGraph} {E : MethodGraph → Prop} {α : Type}

theorem ends_retyped (hE : Typeless E) {m : Infer α} (h : E g)
    (hm : Steps (Retyped c) c g m anyResult) : Ends c g m (fun _ => E) E :=
  .of_steps hm fun g' hk => hE g g' hk.framed h

theorem ends_reinit (hE : Typeless E) (h : E g) : Ends c g reinit (fun _ => E) E := by
  have hbounds : E (initBounds g) := hE g _ (initBounds_frame g).1 h
  refine .bind' (Q := fun _ => E) (.edit' hbounds) fun _ _ h₁ => ?_
  exact ends_retyped hE h₁ steps_propagate

/-- A resolver that helped starts inference over. -/
theorem ends_restart (hE : Typeless E) (h : E g) (b : Bool) :
    Ends c g (do reinit; return b) (fun _ => E) E :=
  .bind' (ends_reinit hE h) fun _ _ h₁ => .pure' h₁

theorem ends_walk (hE : Typeless E) {step : VarId → Infer Bool} (h : E g)
    (hstep : ∀ v g', E g' → Ends c g' (step v) (fun _ => E) E) :
    Ends c g (do
      if ← anyOf step (← theGraph).live then
        reinit
        return true
      else return false) (fun _ => E) E := by
  refine .theGraph' (.bind' (.anyOf' _ (fun v _ => hstep v) h) fun helped g₁ h₁ => ?_)
  exact .ite' (fun _ => ends_restart hE h₁ true) fun _ => .pure' h₁

theorem ends_counted (hE : Typeless E) {f : MethodGraph → Nat × MethodGraph} (hf : E (f g).2)
    (notice : Nat → Notice) :
    Ends c g (do
      let n ← edit f
      if n = 0 then return false
      report (notice n)
      reinit
      return true) (fun _ => E) E := by
  refine .bind' (Q := fun _ => E) (.edit' hf) fun n g₁ h₁ => ?_
  refine .ite' (fun _ => .pure' h₁) fun _ => ?_
  exact .bind' (Q := fun _ => E) (.report' _ h₁) fun _ _ h₂ => ends_restart hE h₂ true

end
end TypeRecovery.Inference
