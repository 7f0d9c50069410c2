import TypeRecovery.Proofs.Graph.Edits
import TypeRecovery.Proofs.Inference.Runs

/- What an instruction passes on. A type that is proposed at a site goes to other sites of the same
   instruction: as it is, with one array level more or less where an element is read or written, or
   as what a resolved method declares. Each listener is taken with an arbitrary offer; it moves the
   attempt along every relation that its offers and the log follow. -/
namespace TypeRecovery.Inference

open MethodGraph

/-- The type `t` at `s` can be passed on to `u` as this type. -/
inductive Passes (g : MethodGraph) (s : SiteId) (t : Ty) (u : SiteId) : Ty → Prop
  | same {i : InsnId} (hs : (g.site s).owner = some i) (hu : u ∈ (g.insn i).sites)
    (hcode : (g.insn i).opcode ≠ .aget ∧ (g.insn i).opcode ≠ .aput) : Passes g s t u t
  | wrap {i : InsnId} (hs : (g.site s).owner = some i) (hu : u ∈ (g.insn i).sites)
    (hcode : (g.insn i).opcode = .aget ∨ (g.insn i).opcode = .aput) : Passes g s t u (.array t)
  | unwrap {i : InsnId} {e : Ty} (hs : (g.site s).owner = some i) (hu : u ∈ (g.insn i).sites)
    (hcode : (g.insn i).opcode = .aget ∨ (g.insn i).opcode = .aput) (he : t.elem? = some e) :
    Passes g s t u e
  | declared {i : InsnId} {r : Ty} (hs : (g.site s).owner = some i) (hu : u ∈ (g.insn i).sites)
    (hcode : (g.insn i).opcode = .invoke ∨ (g.insn i).opcode = .constructor)
    (hcallee : (g.insn i).callee.any (·.resolved) = true) : Passes g s t u r

namespace Trial

open Follows

/-- The types that a called method declares for the result and the arguments of a call, as a receiver of
    type `t` makes them. -/
def declaredSlots (x : Trial) (i : InsnId) (callee : Callee) (t : Ty) : List (SiteId × Option Ty) :=
  let seen (d : Option Ty) : Option Ty := d.map (Ty.replace (x.context.hierarchy.substitution t))
  ((x.graph.insn i).result.toList.map fun r =>
      (r, seen (some (callee.genericResult.getD callee.result)))) ++
    ((x.graph.insn i).args.drop (x.graph.paramOffset i)).zip (callee.paramTypes.map seen)

/-- With a receiver of type `t`, the resolved method of a call declares `r` for a site, and the type can
    be used there. -/
def Declares (x : Trial) (i : InsnId) (t : Ty) (u : SiteId) (r : Ty) : Prop :=
  ∃ callee, (x.graph.insn i).callee = some callee ∧ callee.resolved = true ∧
    ∃ d, (u, d) ∈ x.declaredSlots i callee t ∧ x.usable? d = some r

/-- The type `t` at `s` is passed on to `u` as `r`, and if a call does it, as the called method declares. -/
structure Conveys (x : Trial) (s : SiteId) (t : Ty) (u : SiteId) (r : Ty) : Prop where
  passes : Passes x.graph s t u r
  declares : ∀ i, (x.graph.site s).owner = some i →
    (x.graph.insn i).opcode = .invoke ∨ (x.graph.insn i).opcode = .constructor → x.Declares i t u r

section
variable {x : Trial} {K : Attempt → Attempt → Prop} [IsPreorder Attempt K]
  (hlog : ∀ a log, K a { a with log })
include hlog

theorem follows_note (records : List LogRecord) : Follows K (x.note records) :=
  ite' (fun _ => modify' fun a => hlog a _) fun _ => pure' _

theorem follows_passesBounds (bounds : List Bound) (t : Ty) : Follows K (x.passesBounds bounds t) :=
  get' fun _ => bind' (follows_note hlog _) fun _ => pure' _

theorem follows_passesAt (s : SiteId) (t : Ty) : Follows K (x.passesAt s t) := by
  unfold passesAt
  split
  · exact follows_passesBounds hlog _ _
  · exact pure' _

end

section
variable {x : Trial} {K : Attempt → Attempt → Prop} [IsPreorder Attempt K] {offer : Offer}
  {i : InsnId} {s : SiteId} {t : Ty}

theorem mem_sites_of_result {u : SiteId} (h : (x.graph.insn i).result = some u) :
    u ∈ (x.graph.insn i).sites := by simp [Insn.sites, h]

theorem mem_sites_of_arg {u : SiteId} (h : u ∈ (x.graph.insn i).args) :
    u ∈ (x.graph.insn i).sites := List.mem_append_right _ h

theorem follows_offerAll (t : Ty) : ∀ sites, (∀ s ∈ sites, Follows K (offer s t)) →
    Follows K (offerAll offer t sites)
  | [], _ => pure' _
  | s :: rest, ho => by
    have hrest := follows_offerAll t rest fun u hu => ho u (List.mem_cons_of_mem s hu)
    refine bind' (ho s List.mem_cons_self) fun verdict => ?_
    cases verdict with
    | rejected => exact pure' _
    | same => exact hrest
    | changed => exact bind' hrest fun _ => pure' _

theorem follows_suggestAll (t : Ty) : ∀ sites, (∀ s ∈ sites, Follows K (offer s t)) →
    Follows K (suggestAll offer t sites)
  | [], _ => pure' _
  | s :: rest, ho =>
    bind' (ho s List.mem_cons_self) fun _ =>
      bind' (follows_suggestAll t rest fun u hu => ho u (List.mem_cons_of_mem s hu)) fun _ => pure' _

section
variable (ho : ∀ u ∈ (x.graph.insn i).sites, Follows K (offer u t))
include ho

theorem follows_throughConst : Follows K (x.throughConst offer i s t) := by
  unfold throughConst
  simp only
  split
  · exact pure' _
  · next a ha =>
    refine ho a ?_
    split at ha
    · exact mem_sites_of_arg (List.mem_of_mem_head? ha)
    · exact mem_sites_of_result ha

theorem follows_throughMove (hlog : ∀ a log, K a { a with log }) :
    Follows K (x.throughMove offer i s t) := by
  unfold throughMove
  simp only
  split
  · next result source hresult hsource =>
    have hother : Follows K (offer (if x.graph.isAssign s then source else result) t) := by
      refine ho _ ?_
      split
      · exact mem_sites_of_arg (List.mem_of_mem_head? hsource)
      · exact mem_sites_of_result hresult
    refine ite' (fun _ => ?_) fun _ => bind' hother fun _ => pure' _
    refine ite' (fun _ => pure' _) fun _ => bind' (follows_passesAt hlog _ t) fun _ => ?_
    exact ite' (fun _ => pure' _) fun _ => bind' hother fun _ => pure' _
  · exact pure' _

theorem follows_throughPhi : Follows K (x.throughPhi offer i s t) := by
  unfold throughPhi
  simp only
  refine ite' (fun _ => bind' (follows_offerAll t _ fun u hu => ?_) fun _ => pure' _) fun _ => ?_
  · exact ho u (mem_sites_of_arg (List.mem_filter.mp hu).1)
  · split
    · exact throw' _
    · next result hresult => exact ho result (mem_sites_of_result hresult)

theorem follows_throughOperands (skip : Option SiteId) :
    Follows K (x.throughOperands offer i s t skip) := by
  unfold throughOperands
  simp only
  have hrest : Follows K (suggestAll offer t
      ((x.graph.insn i).args.filter fun a => a != s && some a != skip)) :=
    follows_suggestAll t _ fun u hu => ho u (mem_sites_of_arg (List.mem_filter.mp hu).1)
  refine ite' (fun _ => ?_) fun _ => bind' hrest fun _ => pure' _
  split
  · next result hresult =>
    exact bind' (ho result (mem_sites_of_result hresult)) fun _ => bind' hrest fun _ => pure' _
  · exact bind' hrest fun _ => pure' _

theorem follows_throughArith (op : ArithOp) : Follows K (x.throughArith offer op i s t) := by
  unfold throughArith
  simp only
  refine ite' (fun _ => bind' (follows_offerAll t _ fun u hu => ?_) fun _ => pure' _) fun _ => ?_
  · exact ho u (List.mem_filter.mp hu).1
  · exact ite' (fun _ => pure' _) fun _ => follows_throughOperands ho _

theorem follows_throughBranch : Follows K (x.throughBranch offer i s t) := by
  unfold throughBranch
  simp only
  split
  · next a b rest hargs =>
    refine bind' (ho _ (mem_sites_of_arg ?_)) fun _ => pure' _
    split <;> simp [hargs]
  · exact pure' _

theorem follows_throughCast : Follows K (x.throughCast offer i s t) := by
  unfold throughCast
  simp only
  refine ite' (fun _ => ?_) fun _ => ?_
  · split
    · exact pure' _
    · next source hsource =>
      exact bind' (ho source (mem_sites_of_arg (List.mem_of_mem_head? hsource))) fun _ => pure' _
  · split
    · exact pure' _
    · split <;> exact pure' _

end

section
variable (hwrap : ∀ u ∈ (x.graph.insn i).sites, Follows K (offer u (.array t)))
  (hunwrap : ∀ u ∈ (x.graph.insn i).sites, ∀ e, t.elem? = some e → Follows K (offer u e))
include hwrap hunwrap

theorem follows_throughArrayRead : Follows K (x.throughArrayRead offer i s t) := by
  unfold throughArrayRead
  simp only
  split
  · exact pure' _
  · next array harray =>
    refine ite' (fun _ => ?_) fun _ => ite' (fun _ => ?_) fun _ => pure' _
    · exact bind' (hwrap array (mem_sites_of_arg (List.mem_of_mem_head? harray))) fun _ =>
        bind' (get' fun _ => pure' _) fun _ => pure' _
    · split
      · exact pure' _
      · exact pure' _
      · next e result he hresult => exact hunwrap result (mem_sites_of_result hresult) e he

theorem follows_throughArrayWrite : Follows K (x.throughArrayWrite offer i s t) := by
  unfold throughArrayWrite
  simp only
  split
  · next array _ value rest hargs =>
    refine ite' (fun _ => ?_) fun _ => ite' (fun _ => ?_) fun _ => pure' _
    · split
      · exact pure' _
      · next e he =>
        exact bind' (hunwrap value (mem_sites_of_arg (by simp [hargs])) e he) fun _ => pure' _
    · exact bind' (hwrap array (mem_sites_of_arg (by simp [hargs]))) fun _ =>
        bind' (get' fun _ => pure' _) fun _ => pure' _
  · exact pure' _

end

theorem follows_offerDeclared (unchanged : Bool) : ∀ slots : List (SiteId × Option Ty),
    (∀ u d, (u, d) ∈ slots → ∀ r, x.usable? d = some r → Follows K (offer u r)) →
    Follows K (x.offerDeclared offer unchanged slots)
  | [], _ => pure' _
  | (s, declared) :: rest, ho => by
    have hrest := fun unchanged =>
      follows_offerDeclared unchanged rest fun u d hd => ho u d (List.mem_cons_of_mem _ hd)
    unfold offerDeclared
    refine ite' (fun _ => hrest unchanged) fun _ => ?_
    split
    · exact hrest unchanged
    · next r hr =>
      refine bind' (ho s declared List.mem_cons_self r hr) fun verdict => ?_
      cases verdict with
      | rejected => exact pure' _
      | same => exact hrest unchanged
      | changed => exact hrest false

theorem follows_throughCall (ho : ∀ u r, x.Declares i t u r → Follows K (offer u r)) :
    Follows K (x.throughCall offer i s t) := by
  unfold throughCall
  simp only
  refine ite' (fun _ => pure' _) fun _ => ?_
  split
  · exact pure' _
  · next callee hcallee =>
    refine ite' (fun _ => pure' _) fun hresolved => ?_
    refine follows_offerDeclared true _ fun u d hd r hr => ho u r ⟨callee, hcallee, ?_, d, hd, hr⟩
    simpa using hresolved

theorem mem_sites_of_declares {u : SiteId} {r : Ty} (h : x.Declares i t u r) :
    u ∈ (x.graph.insn i).sites := by
  obtain ⟨callee, -, -, d, hd, -⟩ := h
  rcases List.mem_append.mp hd with hd | hd
  · obtain ⟨v, hv, heq⟩ := List.mem_map.mp hd
    cases heq
    exact List.mem_append_left _ hv
  · exact mem_sites_of_arg (List.mem_of_mem_drop (List.of_mem_zip hd).1)

/-- An instruction moves the attempt as its log and what it passes on do. -/
theorem follows_conveyed (hlog : ∀ a log, K a { a with log })
    (ho : ∀ u r, x.Conveys s t u r → Follows K (offer u r)) : Follows K (x.through offer s t) := by
  unfold through
  split
  · exact pure' _
  · next i hi =>
    -- what is passed on by an instruction other than a call
    have plain {u : SiteId} {r : Ty} (hpass : Passes x.graph s t u r)
        (hcode : (x.graph.insn i).opcode ≠ .invoke ∧ (x.graph.insn i).opcode ≠ .constructor) :
        Follows K (offer u r) := by
      refine ho u r ⟨hpass, fun j hj hcall => ?_⟩
      rw [hi] at hj
      cases hj
      exact absurd hcall (not_or.mpr hcode)
    have same (hcode : (x.graph.insn i).opcode ≠ .aget ∧ (x.graph.insn i).opcode ≠ .aput ∧
        (x.graph.insn i).opcode ≠ .invoke ∧ (x.graph.insn i).opcode ≠ .constructor) :
        ∀ u ∈ (x.graph.insn i).sites, Follows K (offer u t) :=
      fun u hu => plain (.same hi hu ⟨hcode.1, hcode.2.1⟩) hcode.2.2
    have element (hcode : (x.graph.insn i).opcode = .aget ∨ (x.graph.insn i).opcode = .aput) :
        (x.graph.insn i).opcode ≠ .invoke ∧ (x.graph.insn i).opcode ≠ .constructor := by
      rcases hcode with hcode | hcode <;> simp [hcode]
    have wrap (hcode : (x.graph.insn i).opcode = .aget ∨ (x.graph.insn i).opcode = .aput) :
        ∀ u ∈ (x.graph.insn i).sites, Follows K (offer u (.array t)) :=
      fun u hu => plain (.wrap hi hu hcode) (element hcode)
    have unwrap (hcode : (x.graph.insn i).opcode = .aget ∨ (x.graph.insn i).opcode = .aput) :
        ∀ u ∈ (x.graph.insn i).sites, ∀ e, t.elem? = some e → Follows K (offer u e) :=
      fun u hu e he => plain (.unwrap hi hu hcode he) (element hcode)
    have call (hcode : (x.graph.insn i).opcode = .invoke ∨ (x.graph.insn i).opcode = .constructor) :
        ∀ u r, x.Declares i t u r → Follows K (offer u r) := by
      intro u r hdecl
      refine ho u r ⟨.declared hi (mem_sites_of_declares hdecl) hcode ?_, fun j hj _ => ?_⟩
      · obtain ⟨callee, hcallee, hresolved, -⟩ := hdecl
        rw [hcallee]
        exact hresolved
      · rw [hi] at hj
        cases hj
        exact hdecl
    split
    · next hcode => exact follows_throughConst (same (by simp [hcode]))
    · next hcode => exact follows_throughMove (same (by simp [hcode])) hlog
    · next hcode => exact follows_throughPhi (same (by simp [hcode]))
    · next hcode => exact follows_throughArrayRead (wrap (.inl hcode)) (unwrap (.inl hcode))
    · next hcode => exact follows_throughArrayWrite (wrap (.inr hcode)) (unwrap (.inr hcode))
    · next hcode => exact follows_throughBranch (same (by simp [hcode]))
    · next hcode => exact follows_throughArith (same (by simp [hcode])) _
    · next hcode => exact follows_throughOperands (same (by simp [hcode])) none
    · next hcode => exact follows_throughOperands (same (by simp [hcode])) none
    · next hcode => exact follows_throughCast (same (by simp [hcode]))
    · next hcode => exact follows_throughCall (call (.inl hcode))
    · next hcode => exact follows_throughCall (call (.inr hcode))
    · exact pure' _
    · exact pure' _

theorem follows_through (hlog : ∀ a log, K a { a with log })
    (ho : ∀ u r, Passes x.graph s t u r → Follows K (offer u r)) :
    Follows K (x.through offer s t) := follows_conveyed hlog fun u r h => ho u r h.passes

end

end Trial

end TypeRecovery.Inference
