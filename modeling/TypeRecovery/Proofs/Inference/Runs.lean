import Mathlib.Logic.Relation
import Mathlib.Order.Defs.Unbundled
import TypeRecovery.Inference.Session

/- Runs of steps that carry a state and can end in a fault. `Follows R m`: from every state the run of
   `m` ends in a state to which `R` leads, also when a fault ends it. For steps of inference there is
   more to say, since their state records every change of the graph: `Steps K c g m Q` says that from
   every graph to which `K` leads from `g`, each change that `m` makes is one of `K`, and that `Q`
   holds of its result. For preorders both are closed under the ways in which steps are put together,
   so what holds along a run comes from what its elementary steps do. -/
namespace TypeRecovery.Inference

/-! ## Steps with a state -/

section
variable {σ ε α β : Type}

theorem run_bind (m : ExceptT ε (StateM σ) α) (f : α → ExceptT ε (StateM σ) β) (s : σ) :
    (m >>= f).run.run s =
      match m.run.run s with
      | (.ok a, s') => (f a).run.run s'
      | (.error e, s') => (.error e, s') := by
  simp only [ExceptT.run_bind, StateT.run_bind]
  rcases m.run.run s with ⟨_ | _, _⟩ <;> rfl

theorem ok_of_toOption {r : Except ε α} {a : α} (h : r.toOption = some a) : r = .ok a := by
  cases r with
  | error e => cases h
  | ok b => cases h; rfl

theorem ok_getD [Inhabited α] {r : Except ε α} (h : r.toOption.isSome = true) :
    r = .ok (r.toOption.getD default) := by
  cases r with
  | error e => cases h
  | ok b => rfl

/-- Every run of `m` moves the state along `R`. -/
def Follows (R : σ → σ → Prop) (m : ExceptT ε (StateM σ) α) : Prop := ∀ s, R s (m.run.run s).2

end

namespace Follows

variable {σ ε α β : Type} {R : σ → σ → Prop}

theorem get' {f : σ → ExceptT ε (StateM σ) α} (hf : ∀ s, Follows R (f s)) : Follows R (get >>= f) :=
  fun s => hf s s

theorem modify' {f : σ → σ} (hf : ∀ s, R s (f s)) :
    Follows R (modify f : ExceptT ε (StateM σ) PUnit) := hf

theorem ite' {c : Prop} [Decidable c] {m n : ExceptT ε (StateM σ) α} (hm : c → Follows R m)
    (hn : ¬c → Follows R n) : Follows R (if c then m else n) := by
  by_cases h : c
  · rw [if_pos h]; exact hm h
  · rw [if_neg h]; exact hn h

variable [IsPreorder σ R]

theorem pure' (a : α) : Follows R (pure a : ExceptT ε (StateM σ) α) := fun s => refl_of R s

theorem throw' (e : ε) : Follows R (throw e : ExceptT ε (StateM σ) α) := fun s => refl_of R s

/-- Two steps one after the other, where every result of the first has a property. -/
theorem bind_of {Q : α → Prop} {m : ExceptT ε (StateM σ) α} {f : α → ExceptT ε (StateM σ) β}
    (hm : Follows R m) (hq : ∀ s a, (m.run.run s).1 = .ok a → Q a) (hf : ∀ a, Q a → Follows R (f a)) :
    Follows R (m >>= f) := by
  intro s
  have h := hm s
  have hq := hq s
  rw [run_bind]
  rcases hr : m.run.run s with ⟨r, s'⟩
  rw [hr] at h hq
  cases r with
  | error e => exact h
  | ok a => exact trans_of R h (hf a (hq a rfl) s')

theorem bind' {m : ExceptT ε (StateM σ) α} {f : α → ExceptT ε (StateM σ) β} (hm : Follows R m)
    (hf : ∀ a, Follows R (f a)) : Follows R (m >>= f) :=
  bind_of (Q := fun _ => True) hm (fun _ _ _ => trivial) fun a _ => hf a

end Follows

/-! ## Steps of inference -/

/-- The graph is one that a step has made of `g`, at some moment or in the end. -/
def Through {α : Type} (m : Infer α) (c : Context) (g g' : MethodGraph) : Prop :=
  (∃ x, (m.after c { graph := g }).2.changes x g') ∨ g' = (m.after c { graph := g }).2.graph

/-- `K` leads from the old graph through each change recorded since to the new graph, and the recorded
    changes lead there without a gap. -/
structure Kept (K : MethodGraph → MethodGraph → Prop) (s s' : Session) : Prop where
  graph : K s.graph s'.graph
  record : ∀ x y, s.changes x y → s'.changes x y
  changes : ∀ x y, s'.changes x y → s.changes x y ∨ (K s.graph x ∧ K x y ∧ K y s'.graph)
  chain : Relation.ReflTransGen s'.changes s.graph s'.graph

section
variable {K : MethodGraph → MethodGraph → Prop} [IsPreorder MethodGraph K] {s s' : Session}

theorem kept_of_same (hg : s'.graph = s.graph) (hc : s'.changes = s.changes) : Kept K s s' := by
  refine ⟨?_, fun x y h => hc ▸ h, fun x y h => .inl (hc ▸ h), ?_⟩
  · rw [hg]
    exact refl_of K _
  · rw [hg]

theorem kept_of_change {g : MethodGraph} (hk : K s.graph g) (hg : s'.graph = g)
    (hc : s'.changes = fun x y => s.changes x y ∨ (x = s.graph ∧ y = g)) : Kept K s s' := by
  refine ⟨hg ▸ hk, fun x y h => ?_, fun x y h => ?_, .single ?_⟩
  · rw [hc]
    exact .inl h
  · rw [hc] at h
    rcases h with h | ⟨rfl, rfl⟩
    · exact .inl h
    · refine .inr ⟨refl_of K _, hk, ?_⟩
      rw [hg]
      exact refl_of K _
  · rw [hc]
    exact .inr ⟨rfl, hg⟩

instance : IsPreorder Session (Kept K) where
  refl _ := kept_of_same rfl rfl
  trans s₁ s₂ s₃ h₁₂ h₂₃ := by
    refine ⟨trans_of K h₁₂.graph h₂₃.graph, fun x y h => h₂₃.record x y (h₁₂.record x y h),
      fun x y h => ?_, (Relation.ReflTransGen.mono h₂₃.record _ _ h₁₂.chain).trans h₂₃.chain⟩
    -- a change of either part has the other part before or after it
    rcases h₂₃.changes x y h with h | ⟨hx, hxy, hy⟩
    · rcases h₁₂.changes x y h with h | ⟨hx, hxy, hy⟩
      · exact .inl h
      · exact .inr ⟨hx, hxy, trans_of K hy h₂₃.graph⟩
    · exact .inr ⟨trans_of K h₁₂.graph hx, hxy, hy⟩

end

/-- From every graph to which `K` leads from `g`, the step makes changes of `K` only, and `Q` holds
    of its result and the graph it leaves. -/
def Steps {α : Type} (K : MethodGraph → MethodGraph → Prop) (c : Context) (g : MethodGraph)
    (m : Infer α) (Q : α → MethodGraph → Prop) : Prop :=
  ∀ s, K g s.graph → Kept K s (m.after c s).2 ∧
    ∀ a, (m.after c s).1 = .ok a → Q a (m.after c s).2.graph

/-- Nothing is said of a result. -/
def anyResult {α : Type} (_ : α) (_ : MethodGraph) : Prop := True

theorem after_bind {α β : Type} (m : Infer α) (f : α → Infer β) (c : Context) (s : Session) :
    (m >>= f).after c s =
      match m.after c s with
      | (.ok a, s') => (f a).after c s'
      | (.error e, s') => (.error e, s') := by
  have h := run_bind (m.run c) (fun a => (f a).run c) s
  rw [Infer.after, ReaderT.run_bind, h, Infer.after]
  rcases ((m.run c).run).run s with ⟨_ | _, _⟩ <;> rfl

/-- A handler goes on in the state that the fault left, not in the one before. -/
theorem after_tryCatch {α : Type} (m : Infer α) (handler : Fault → Infer α) (c : Context)
    (s : Session) : (tryCatch m handler : Infer α).after c s =
      match m.after c s with
      | (.ok a, s') => (.ok a, s')
      | (.error e, s') => (handler e).after c s' := by
  unfold Infer.after ReaderT.run ExceptT.run StateT.run
  simp only [tryCatch, tryCatchThe, MonadExceptOf.tryCatch, ExceptT.tryCatch, ExceptT.mk, bind,
    StateT.bind]
  rcases m c s with ⟨_ | _, _⟩ <;> rfl

/-- Two steps that come to a result together each come to one. -/
theorem ok_of_after_bind {α β : Type} {m : Infer α} {f : α → Infer β} {c : Context} {s s' : Session}
    {b : β} (h : (m >>= f).after c s = (.ok b, s')) :
    ∃ a s₁, m.after c s = (.ok a, s₁) ∧ (f a).after c s₁ = (.ok b, s') := by
  rw [after_bind] at h
  rcases hm : m.after c s with ⟨e | a, s₁⟩
  · rw [hm] at h
    cases h
  · rw [hm] at h
    exact ⟨a, s₁, rfl, h⟩

theorem after_theGraph {α : Type} (f : MethodGraph → Infer α) (c : Context) (s : Session) :
    (theGraph >>= f).after c s = (f s.graph).after c s := rfl

theorem after_read {α : Type} (f : Context → Infer α) (c : Context) (s : Session) :
    (read >>= f).after c s = (f c).after c s := rfl

theorem after_note_bind {α : Type} (records : List LogRecord) (m : Infer α) (c : Context)
    (s : Session) : ∃ log, (note records >>= fun _ => m).after c s = m.after c { s with log } := by
  by_cases h : c.traced
  · refine ⟨s.log ++ records, ?_⟩
    rw [after_bind, note, after_read, if_pos h]
    rfl
  · refine ⟨s.log, ?_⟩
    rw [after_bind, note, after_read, if_neg h]
    rfl

namespace Steps

section
variable {K : MethodGraph → MethodGraph → Prop} {c : Context} {g : MethodGraph} {α β : Type}
variable {Q : α → MethodGraph → Prop} {P : β → MethodGraph → Prop}

/-- What a step of changes of `K` is worth for a larger relation. -/
theorem weaken {K' : MethodGraph → MethodGraph → Prop} {m : Infer α}
    (hK : ∀ x y, K x y → K' x y) (hr : ∀ x, K x x) (h : ∀ g', K' g g' → Steps K c g' m Q) :
    Steps K' c g m Q := by
  intro s hs
  obtain ⟨hk, hq⟩ := h s.graph hs s (hr _)
  refine ⟨⟨hK _ _ hk.graph, hk.record, fun x y hxy => ?_, hk.chain⟩, hq⟩
  rcases hk.changes x y hxy with hf | ⟨h₁, h₂, h₃⟩
  · exact .inl hf
  · exact .inr ⟨hK _ _ h₁, hK _ _ h₂, hK _ _ h₃⟩

theorem ite' {p : Prop} [Decidable p] {m n : Infer α} (hm : p → Steps K c g m Q)
    (hn : ¬p → Steps K c g n Q) : Steps K c g (if p then m else n) Q := by
  by_cases h : p
  · rw [if_pos h]; exact hm h
  · rw [if_neg h]; exact hn h

theorem read' {f : Context → Infer α} (h : Steps K c g (f c) Q) : Steps K c g (read >>= f) Q := h

theorem get' {f : Session → Infer α} (h : ∀ st, Steps K c g (f st) Q) :
    Steps K c g (get >>= f) Q := fun s hs => h s s hs

variable [IsPreorder MethodGraph K]

theorem pure' {a : α} (h : ∀ g', K g g' → Q a g') : Steps K c g (pure a) Q := by
  intro s hs
  refine ⟨refl_of (Kept K) s, fun b hb => ?_⟩
  cases hb
  exact h s.graph hs

theorem done' (a : α) : Steps K c g (pure a) anyResult := pure' fun _ _ => trivial

theorem throw' (f : Fault) : Steps K c g (throw f : Infer α) Q :=
  fun s _ => ⟨refl_of (Kept K) s, fun _ hb => by cases hb⟩

theorem bind' {m : Infer α} {f : α → Infer β} (hm : Steps K c g m Q)
    (hf : ∀ a g', K g g' → Q a g' → Steps K c g' (f a) P) : Steps K c g (m >>= f) P := by
  intro s hs
  obtain ⟨hk, hq⟩ := hm s hs
  rw [after_bind]
  rcases hr : m.after c s with ⟨r, s'⟩
  rw [hr] at hk hq
  cases r with
  | error e => exact ⟨hk, fun _ hb => by cases hb⟩
  | ok a =>
    have hg : K g s'.graph := trans_of K hs hk.graph
    obtain ⟨hk', hq'⟩ := hf a s'.graph hg (hq a rfl) s' (refl_of K _)
    exact ⟨trans_of (Kept K) hk hk', hq'⟩

theorem theGraph' {f : MethodGraph → Infer α} (h : ∀ g', K g g' → Steps K c g' (f g') Q) :
    Steps K c g (theGraph >>= f) Q := by
  intro s hs
  exact h s.graph hs s (refl_of K _)

theorem edit' {f : MethodGraph → α × MethodGraph}
    (h : ∀ g', K g g' → K g' (f g').2 ∧ Q (f g').1 (f g').2) : Steps K c g (edit f) Q := by
  intro s hs
  obtain ⟨hk, hq⟩ := h s.graph hs
  refine ⟨kept_of_change hk rfl rfl, fun a ha => ?_⟩
  cases ha
  exact hq

theorem change' {f : MethodGraph → α × MethodGraph} (h : ∀ g', K g g' → K g' (f g').2) :
    Steps K c g (edit f) anyResult := edit' fun g' hg => ⟨h g' hg, trivial⟩

/-- A step that leaves the graph and its record alone. -/
theorem modify' {f : Session → Session} (hg : ∀ s, (f s).graph = s.graph)
    (hc : ∀ s, (f s).changes = s.changes) : Steps K c g (modify f : Infer PUnit) anyResult :=
  fun s _ => ⟨kept_of_same (hg s) (hc s), fun _ _ => trivial⟩

theorem note' (records : List LogRecord) : Steps K c g (note records) anyResult :=
  read' (ite' (fun _ => modify' (fun _ => rfl) fun _ => rfl) fun _ => done' _)

theorem report' (n : Notice) : Steps K c g (report n) anyResult :=
  modify' (fun _ => rfl) fun _ => rfl

/-! Steps over lists. -/

theorem anyOf' {step : α → Infer Bool} (l : List α)
    (h : ∀ a ∈ l, ∀ g', K g g' → Steps K c g' (step a) anyResult) :
    Steps K c g (anyOf step l) anyResult := by
  induction l generalizing g with
  | nil => exact done' _
  | cons a l ih =>
    refine bind' (h a List.mem_cons_self g (refl_of K g)) fun _ g₁ h₁ _ => ?_
    refine bind' (ih fun b hb g₂ h₂ => ?_) fun _ _ _ _ => done' _
    exact h b (List.mem_cons_of_mem a hb) g₂ (trans_of K h₁ h₂)

theorem firstOf' {step : α → Infer Bool} (l : List α)
    (h : ∀ a ∈ l, ∀ g', K g g' → Steps K c g' (step a) anyResult) :
    Steps K c g (firstOf step l) anyResult := by
  induction l generalizing g with
  | nil => exact done' _
  | cons a l ih =>
    refine bind' (h a List.mem_cons_self g (refl_of K g)) fun helped g₁ h₁ _ => ?_
    refine ite' (fun _ => done' _) fun _ => ih fun b hb g₂ h₂ => ?_
    exact h b (List.mem_cons_of_mem a hb) g₂ (trans_of K h₁ h₂)

theorem forM' {step : α → Infer PUnit} (l : List α)
    (h : ∀ a ∈ l, ∀ g', K g g' → Steps K c g' (step a) anyResult) :
    Steps K c g (l.forM step) anyResult := by
  induction l generalizing g with
  | nil => exact done' _
  | cons a l ih =>
    refine bind' (h a List.mem_cons_self g (refl_of K g)) fun _ g₁ h₁ _ => ih fun b hb g₂ h₂ => ?_
    exact h b (List.mem_cons_of_mem a hb) g₂ (trans_of K h₁ h₂)

/-- All results of a list have what later changes leave as it is. -/
theorem mapM' {step : α → Infer β} (hP : ∀ b x y, K x y → P b x → P b y) (l : List α)
    (h : ∀ a ∈ l, ∀ g', K g g' → Steps K c g' (step a) P) :
    Steps K c g (l.mapM step) fun bs g' => ∀ b ∈ bs, P b g' := by
  induction l generalizing g with
  | nil => exact pure' fun _ _ b hb => by cases hb
  | cons a l ih =>
    rw [List.mapM_cons]
    refine bind' (h a List.mem_cons_self g (refl_of K g)) fun b g₁ h₁ hb => ?_
    refine bind' (ih fun a' ha' g₂ h₂ => ?_) fun bs g₂ h₂ hbs => pure' fun g₃ h₃ b' hb' => ?_
    · exact h a' (List.mem_cons_of_mem a ha') g₂ (trans_of K h₁ h₂)
    · rcases List.mem_cons.mp hb' with rfl | hb'
      · exact hP _ _ _ (trans_of K h₂ h₃) hb
      · exact hP _ _ _ h₃ (hbs b' hb')

theorem foldlM' {step : β → α → Infer β} (hP : ∀ b x y, K x y → P b x → P b y) (l : List α)
    (h : ∀ a ∈ l, ∀ b g', K g g' → P b g' → Steps K c g' (step b a) P) {b : β} (hb : P b g) :
    Steps K c g (l.foldlM step b) P := by
  induction l generalizing g b with
  | nil => exact pure' fun g' hg' => hP b g g' hg' hb
  | cons a l ih =>
    rw [List.foldlM_cons]
    refine bind' (h a List.mem_cons_self b g (refl_of K g) hb) fun b' g₁ h₁ hb' => ?_
    refine ih (fun a' ha' b'' g₂ h₂ => ?_) hb'
    exact h a' (List.mem_cons_of_mem a ha') b'' g₂ (trans_of K h₁ h₂)

theorem filterM' {step : α → Infer Bool} (l : List α)
    (h : ∀ a ∈ l, ∀ g', K g g' → Steps K c g' (step a) anyResult) :
    Steps K c g (l.filterM step) anyResult := by
  have haux : ∀ kept, Steps K c g (l.filterAuxM step kept) anyResult := by
    induction l generalizing g with
    | nil => exact fun _ => done' _
    | cons a l ih =>
      intro kept
      rw [List.filterAuxM]
      refine bind' (h a List.mem_cons_self g (refl_of K g)) fun _ g₁ h₁ _ => ih (fun b hb g₂ h₂ => ?_) _
      exact h b (List.mem_cons_of_mem a hb) g₂ (trans_of K h₁ h₂)
  exact bind' (haux []) fun _ _ _ _ => done' _

/-- A fault that is caught leaves what was done before. -/
theorem tryCatch' {m : Infer α} {handler : Fault → Infer α} (hm : Steps K c g m Q)
    (hh : ∀ f g', K g g' → Steps K c g' (handler f) Q) : Steps K c g (tryCatch m handler) Q := by
  intro s hs
  obtain ⟨hk, hq⟩ := hm s hs
  rw [after_tryCatch]
  rcases hr : m.after c s with ⟨r, s'⟩
  rw [hr] at hk hq
  cases r with
  | ok a => exact ⟨hk, hq⟩
  | error e =>
    obtain ⟨hk', hq'⟩ := hh e s'.graph (trans_of K hs hk.graph) s' (refl_of K _)
    exact ⟨trans_of (Kept K) hk hk', hq'⟩

end

end Steps
end TypeRecovery.Inference
