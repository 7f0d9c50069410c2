import TypeRecovery.Proofs.Inference.Runs

/- The faults of an attempt. `Raises F m`: every fault that ends a run of `m` is in `F`. Passing a type
   on through an instruction raises what the offers raise, or reports a phi without a result; and a
   request is too deep, or asks for a definition that is missing. So no attempt ever loses its way as
   the search for the place of a move can. -/
namespace TypeRecovery.Inference

def Raises {σ ε α : Type} (F : ε → Prop) (m : ExceptT ε (StateM σ) α) : Prop :=
  ∀ s e, (m.run.run s).1 = .error e → F e

namespace Raises

variable {σ ε α β : Type} {F : ε → Prop}

theorem pure' (a : α) : Raises F (pure a : ExceptT ε (StateM σ) α) := fun _ _ h => by cases h

theorem throw' {e : ε} (h : F e) : Raises F (throw e : ExceptT ε (StateM σ) α) := by
  intro s e' he
  cases he
  exact h

theorem get' {f : σ → ExceptT ε (StateM σ) α} (hf : ∀ s, Raises F (f s)) : Raises F (get >>= f) :=
  fun s => hf s s

theorem modify' (f : σ → σ) : Raises F (modify f : ExceptT ε (StateM σ) PUnit) :=
  fun _ _ h => by cases h

theorem ite' {c : Prop} [Decidable c] {m n : ExceptT ε (StateM σ) α} (hm : Raises F m)
    (hn : Raises F n) : Raises F (if c then m else n) := by
  by_cases h : c
  · rw [if_pos h]; exact hm
  · rw [if_neg h]; exact hn

theorem bind' {m : ExceptT ε (StateM σ) α} {f : α → ExceptT ε (StateM σ) β} (hm : Raises F m)
    (hf : ∀ a, Raises F (f a)) : Raises F (m >>= f) := by
  intro s e he
  rw [run_bind] at he
  have h := hm s
  rcases hr : m.run.run s with ⟨_ | a, s'⟩
  · rw [hr] at he h
    cases he
    exact h _ rfl
  · rw [hr] at he
    exact hf a s' e he

end Raises

namespace Trial

open Raises

section
variable {x : Trial} {F : Fault → Prop} {i : InsnId} {s : SiteId} {t : Ty}

theorem raises_note (records : List LogRecord) : Raises F (x.note records) :=
  ite' (modify' _) (pure' _)

theorem raises_passesBounds (bounds : List Bound) (t : Ty) : Raises F (x.passesBounds bounds t) :=
  get' fun _ => bind' (raises_note _) fun _ => pure' _

theorem raises_passesAt (s : SiteId) (t : Ty) : Raises F (x.passesAt s t) := by
  unfold passesAt
  split
  · exact raises_passesBounds _ _
  · exact pure' _

/-! ## Instructions -/

section
variable {offer : Offer} (ho : ∀ u r, Raises F (offer u r))
include ho

theorem raises_offerAll (t : Ty) : ∀ sites, Raises F (offerAll offer t sites)
  | [] => pure' _
  | s :: rest => by
    refine bind' (ho s t) fun verdict => ?_
    cases verdict with
    | rejected => exact pure' _
    | same => exact raises_offerAll t rest
    | changed => exact bind' (raises_offerAll t rest) fun _ => pure' _

theorem raises_suggestAll (t : Ty) : ∀ sites, Raises F (suggestAll offer t sites)
  | [] => pure' _
  | s :: rest => bind' (ho s t) fun _ => bind' (raises_suggestAll t rest) fun _ => pure' _

theorem raises_throughConst : Raises F (x.throughConst offer i s t) := by
  unfold throughConst
  simp only
  split
  · exact pure' _
  · exact ho _ _

theorem raises_throughMove : Raises F (x.throughMove offer i s t) := by
  unfold throughMove
  simp only
  split
  · refine ite' (ite' (pure' _) (bind' (raises_passesAt _ t) fun _ => ?_)) (bind' (ho _ _) fun _ => pure' _)
    exact ite' (pure' _) (bind' (ho _ _) fun _ => pure' _)
  · exact pure' _

theorem raises_throughPhi (hmissing : F .missing) : Raises F (x.throughPhi offer i s t) := by
  unfold throughPhi
  simp only
  refine ite' (bind' (raises_offerAll ho t _) fun _ => pure' _) ?_
  split
  · exact throw' hmissing
  · exact ho _ _

theorem raises_throughOperands (skip : Option SiteId) :
    Raises F (x.throughOperands offer i s t skip) := by
  unfold throughOperands
  simp only
  have hrest (sites : List SiteId) : Raises F (do
      return if ← suggestAll offer t sites then Verdict.same else .changed) :=
    bind' (raises_suggestAll ho t sites) fun _ => pure' _
  refine ite' ?_ (hrest _)
  split
  · exact bind' (ho _ _) fun _ => hrest _
  · exact hrest _

theorem raises_throughArith (op : ArithOp) : Raises F (x.throughArith offer op i s t) := by
  unfold throughArith
  simp only
  refine ite' (bind' (raises_offerAll ho t _) fun _ => pure' _) ?_
  exact ite' (pure' _) (raises_throughOperands ho _)

theorem raises_throughArrayRead : Raises F (x.throughArrayRead offer i s t) := by
  unfold throughArrayRead
  simp only
  split
  · exact pure' _
  · refine ite' ?_ (ite' ?_ (pure' _))
    · exact bind' (ho _ _) fun _ => bind' (get' fun _ => pure' _) fun _ => pure' _
    · split
      · exact pure' _
      · exact pure' _
      · exact ho _ _

theorem raises_throughArrayWrite : Raises F (x.throughArrayWrite offer i s t) := by
  unfold throughArrayWrite
  simp only
  split
  · refine ite' ?_ (ite' ?_ (pure' _))
    · split
      · exact pure' _
      · exact bind' (ho _ _) fun _ => pure' _
    · exact bind' (ho _ _) fun _ => bind' (get' fun _ => pure' _) fun _ => pure' _
  · exact pure' _

theorem raises_throughBranch : Raises F (x.throughBranch offer i s t) := by
  unfold throughBranch
  simp only
  split
  · exact bind' (ho _ _) fun _ => pure' _
  · exact pure' _

theorem raises_throughCast : Raises F (x.throughCast offer i s t) := by
  unfold throughCast
  simp only
  refine ite' ?_ ?_
  · split
    · exact pure' _
    · exact bind' (ho _ _) fun _ => pure' _
  · split
    · exact pure' _
    · split <;> exact pure' _

theorem raises_offerDeclared (unchanged : Bool) : ∀ slots : List (SiteId × Option Ty),
    Raises F (x.offerDeclared offer unchanged slots)
  | [] => pure' _
  | (s, declared) :: rest => by
    have hrest := fun unchanged => raises_offerDeclared unchanged rest
    unfold offerDeclared
    refine ite' (hrest _) ?_
    split
    · exact hrest _
    · refine bind' (ho _ _) fun verdict => ?_
      cases verdict with
      | rejected => exact pure' _
      | same => exact hrest _
      | changed => exact hrest _

theorem raises_throughCall : Raises F (x.throughCall offer i s t) := by
  unfold throughCall
  simp only
  refine ite' (pure' _) ?_
  split
  · exact pure' _
  · exact ite' (pure' _) (raises_offerDeclared ho _ _)

theorem raises_through (hmissing : F .missing) (s : SiteId) (t : Ty) :
    Raises F (x.through offer s t) := by
  unfold through
  split
  · exact pure' _
  · split
    · exact raises_throughConst ho
    · exact raises_throughMove ho
    · exact raises_throughPhi ho hmissing
    · exact raises_throughArrayRead ho
    · exact raises_throughArrayWrite ho
    · exact raises_throughBranch ho
    · exact raises_throughArith ho _
    · exact raises_throughOperands ho _
    · exact raises_throughOperands ho _
    · exact raises_throughCast ho
    · exact raises_throughCall ho
    · exact raises_throughCall ho
    · exact pure' _
    · exact pure' _

end

/-! ## Variables and sites -/

section
variable {request : Request} (hr : ∀ u r, Raises F (request u r))
include hr

theorem raises_offerVar (v : VarId) (t : Ty) : Raises F (x.offerVar request v t) := by
  unfold offerVar
  simp only
  refine ite' (pure' _) (bind' (raises_passesBounds _ t) fun _ => ?_)
  refine ite' (bind' (raises_note _) fun _ => pure' _) (bind' (hr _ t) fun _ => ?_)
  have huses := raises_offerAll (fun s t => hr (some s) t) t (x.graph.var v).uses
  have hback (rest : Option Bool) : Raises F (do
      if rest.isNone then takeBack ((x.graph.var v).assign.toList ++ (x.graph.var v).uses)
      return unanimous rest) :=
    ite' (bind' (modify' _) fun _ => pure' _) (pure' _)
  split
  · exact bind' (pure' _) hback
  · exact bind' huses hback

theorem raises_offerSite (s : SiteId) (t : Ty) : Raises F (x.offerSite request s t) := by
  unfold offerSite
  simp only
  refine get' fun _ => ite' (pure' _) (bind' (raises_note _) fun _ => ?_)
  split
  · exact pure' _
  · split
    · exact raises_offerVar hr _ t
    · exact hr _ t
  · exact pure' _

end

theorem raises_request (hmissing : F .missing) (hdeep : ∀ site limit, F (.tooDeep site limit))
    (depth : Nat) (s : Option SiteId) (t : Ty) : Raises F (x.request depth s t) := by
  induction depth generalizing s t with
  | zero =>
    cases s with
    | none => exact throw' (hdeep _ _)
    | some s => exact get' fun _ => ite' (pure' _) (bind' (modify' _) fun _ => throw' (hdeep _ _))
  | succ depth ih =>
    cases s with
    | none => exact throw' hmissing
    | some s =>
      refine get' fun _ => ite' (pure' _) (bind' (modify' _) fun _ => ?_)
      refine bind' (raises_through (raises_offerSite ih) hmissing s t) fun _ => ?_
      exact ite' (bind' (modify' _) fun _ => pure' _) (pure' _)

/-- An attempt is too deep, or something is missing, and nothing else ever ends it. -/
theorem run_ne_endless (s : SiteId) (t : Ty) : (x.run s t).1 ≠ .error .endless := by
  have hrequest := raises_request (x := x) (F := (· ≠ .endless)) (by decide)
    (fun _ _ h => by cases h) x.context.limits.updateDepth
  exact fun he => raises_offerSite (x := x) hrequest s t {} .endless he rfl

end

end Trial

end TypeRecovery.Inference
