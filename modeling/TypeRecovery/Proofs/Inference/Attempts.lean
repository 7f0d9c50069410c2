import TypeRecovery.Proofs.Inference.Passing

/- What one attempt can propose and what its commit can write. Every entry of a proposal was put there by
   a request, and a request is only made for a site and a type that passed the checks (`Cleared`): for
   a variable the check is made at one of its sites and holds at all of them, since they have one type
   and one pin. Entries can be taken back later but are never changed otherwise. So every type that a
   commit writes to a variable is one that was checked for that variable. -/
namespace TypeRecovery.Inference

open MethodGraph

/-! ## What is checked -/

/-- The type may be given to the variable: the pin is the type, or there is none and the type passes
    all fixed bounds. -/
structure Fits (c : Context) (x : Var) (t : Ty) : Prop where
  pin : ∀ p, x.pin = some p → t = p
  bounds : x.pin = none → ∀ side b, Bound.fixed side b ∈ x.bounds → admits c side b t = true

theorem admits_of_withinBounds {c : Context} {g : MethodGraph} {view : SiteId → Ty}
    {bounds : List Bound} {t : Ty} (h : withinBounds c g view bounds t = true) :
    ∀ side b, Bound.fixed side b ∈ bounds → admits c side b t = true := by
  intro side b hb
  have hall := List.all_eq_true.mp h _ hb
  simpa [boundType?, Bound.side] using hall

/-- The type passed a first look at the site, and fits the variable of the site if there is one. -/
structure Cleared (x : Trial) (s : SiteId) (t : Ty) : Prop where
  examined : x.examine s t = .passed
  fits : ∀ v, x.graph.varOf? s = some v → Fits x.context (x.graph.var v) t

namespace Trial

variable {x : Trial}

/-- The first look comes out the same at all sites of a variable. -/
theorem examine_congr {s u : SiteId} {v : VarId} (hs : x.graph.varOf? s = some v)
    (hu : x.graph.varOf? u = some v) (t : Ty) : x.examine u t = x.examine s t := by
  unfold examine
  rw [typeAt_of_varOf? hs, typeAt_of_varOf? hu, isPinnedAt_of_varOf? hs, isPinnedAt_of_varOf? hu]

/-- A type that passes is the current one, or it stands in no way against it. -/
theorem of_examine_passed {s : SiteId} {t : Ty} (h : x.examine s t = .passed) :
    x.graph.typeAt s = t ∨
      (t.isWildcard = false ∧ (x.context.compare t (x.graph.typeAt s)).isConflict = false ∧
        ((x.context.compare t (x.graph.typeAt s)).isWider = true → x.flags.acceptWider = true) ∧
        outOfScope x.graph t = false) := by
  unfold examine at h
  simp only at h
  split at h
  · next heq => exact .inl heq
  · refine .inr ?_
    split at h
    · cases h
    · split at h
      · cases h
      · split at h
        · cases h
        · split at h
          · cases h
          · split at h
            · cases h
            · split at h
              · cases h
              · simp_all

end Trial

/-! ## Proposals -/

namespace Proposal

/-- Every proposed type has the property at its site. -/
def Only (P : SiteId → Ty → Prop) (p : Proposal) : Prop := ∀ s t, (s, some t) ∈ p.entries → P s t

variable {P : SiteId → Ty → Prop}

theorem mem_set {s : SiteId} {t : Option Ty} {e : SiteId × Option Ty} :
    ∀ {es : List (SiteId × Option Ty)}, e ∈ set s t es → e = (s, t) ∨ e ∈ es
  | [], h => by simpa [set] using h
  | e' :: es, h => by
    unfold set at h
    split at h
    · rcases List.mem_cons.mp h with h | h
      · exact .inl h
      · exact .inr (List.mem_cons_of_mem _ h)
    · rcases List.mem_cons.mp h with h | h
      · exact .inr (h ▸ List.mem_cons_self)
      · exact (mem_set h).imp id (List.mem_cons_of_mem _)

theorem Only.request {p : Proposal} {s : SiteId} {t : Ty} (hp : p.Only P) (h : P s t) :
    (p.request s t).Only P := by
  intro u r hmem
  rcases mem_set hmem with heq | hmem
  · cases heq
    exact h
  · exact hp u r hmem

theorem Only.rollback {p : Proposal} (hp : p.Only P) (s : SiteId) : (p.rollback s).Only P := by
  intro u r hmem
  obtain ⟨e, he, heq⟩ := List.mem_map.mp hmem
  split at heq
  · cases heq
  · exact hp u r (heq ▸ he)

/-! What a commit writes. The inductions are on the entries that are still to be written, so that the
    graph before each write is arbitrary. -/

/-- Writes the type of an entry, if there is one. -/
def write (g : MethodGraph) (e : SiteId × Option Ty) : MethodGraph :=
  if e.2.isSome then g.setType e.1 e.2 else g

theorem framed_write (g : MethodGraph) (e : SiteId × Option Ty) : Framed g (write g e) := by
  unfold write
  split
  · exact framed_setType _ _
  · exact refl_of Framed g

theorem framed_commit (p : Proposal) (g : MethodGraph) : Framed g (p.commit g) :=
  rel_foldl (fun e _ g => framed_write g e) g

theorem var_write (g : MethodGraph) (e : SiteId × Option Ty) (v : VarId) :
    (write g e).var v = g.var v ∨ ∃ t, e.2 = some t ∧ g.varOf? e.1 = some v ∧
      (write g e).var v = { g.var v with type := some t } := by
  obtain ⟨s, _ | t⟩ := e
  · exact .inl rfl
  · rcases var_setType (g := g) s (some t) v with h | ⟨hs, h⟩
    · exact .inl h
    · exact .inr ⟨t, rfl, hs, h⟩

theorem var_writes (v : VarId) : ∀ (es : List (SiteId × Option Ty)) (g : MethodGraph),
    (es.foldl write g).var v = g.var v ∨ ∃ s t, (s, some t) ∈ es ∧ g.varOf? s = some v ∧
      (es.foldl write g).var v = { g.var v with type := some t }
  | [], _ => .inl rfl
  | e :: es, g => by
    rw [List.foldl_cons]
    rcases var_writes v es (write g e) with h | ⟨s, t, hmem, hs, h⟩
    · rcases var_write g e v with h' | ⟨t, ht, hs, h'⟩
      · exact .inl (h.trans h')
      · exact .inr ⟨e.1, t, by rw [← ht]; exact List.mem_cons_self, hs, h.trans h'⟩
    · rw [(framed_write g e).varOf] at hs
      refine .inr ⟨s, t, List.mem_cons_of_mem e hmem, hs, ?_⟩
      rcases var_write g e v with h' | ⟨_, -, -, h'⟩
      · rw [h, h']
      · rw [h, h']

/-- A committed type of a variable is the old one or was proposed for one of its sites. -/
theorem var_commit (p : Proposal) (g : MethodGraph) (v : VarId) :
    (p.commit g).var v = g.var v ∨ ∃ s t, (s, some t) ∈ p.entries ∧ g.varOf? s = some v ∧
      (p.commit g).var v = { g.var v with type := some t } :=
  var_writes v p.entries g

theorem typeAt_writes {u : SiteId} : ∀ (es : List (SiteId × Option Ty)) (g : MethodGraph),
    g.varOf? u = none → (es.foldl write g).typeAt u = g.typeAt u ∨
      ∃ t, (u, some t) ∈ es ∧ (es.foldl write g).typeAt u = t
  | [], _, _ => .inl rfl
  | (s, none) :: es, g, hu =>
    (typeAt_writes es g hu).imp id fun ⟨t, hmem, h⟩ => ⟨t, List.mem_cons_of_mem _ hmem, h⟩
  | (s, some t) :: es, g, hu => by
    rw [List.foldl_cons]
    have hu' : (write g (s, some t)).varOf? u = none := by rw [(framed_write g _).varOf, hu]
    rcases typeAt_writes es _ hu' with h | ⟨r, hmem, h⟩
    · rcases typeAt_setType hu s t with h' | ⟨rfl, h'⟩
      · exact .inl (h.trans h')
      · exact .inr ⟨t, List.mem_cons_self, h.trans h'⟩
    · exact .inr ⟨r, List.mem_cons_of_mem _ hmem, h⟩

/-- A committed type of a literal is the old one or was proposed for it. -/
theorem typeAt_commit (p : Proposal) (g : MethodGraph) {u : SiteId} (hu : g.varOf? u = none) :
    (p.commit g).typeAt u = g.typeAt u ∨ (u, some ((p.commit g).typeAt u)) ∈ p.entries := by
  rcases typeAt_writes p.entries g hu with h | ⟨t, hmem, h⟩
  · exact .inl h
  · rw [← h] at hmem
    exact .inr hmem

end Proposal

/-! ## One attempt -/

/-- The attempt proposes only types with the property if it did before. -/
def Keeping (P : SiteId → Ty → Prop) (a b : Attempt) : Prop := a.proposal.Only P → b.proposal.Only P

instance (P : SiteId → Ty → Prop) : IsPreorder Attempt (Keeping P) where
  refl _ h := h
  trans _ _ _ h h' := fun ha => h' (h ha)

theorem keeping_log {P : SiteId → Ty → Prop} (a : Attempt) (log : Array LogRecord) :
    Keeping P a { a with log } := id

namespace Trial

open Follows

section
variable {x : Trial} {P : SiteId → Ty → Prop}

/-- Whatever the proposal, a type that passes bounds passes the fixed ones. -/
theorem admits_of_passesBounds {bounds : List Bound} {t : Ty} {a : Attempt}
    (h : ((x.passesBounds bounds t).run.run a).1 = .ok true) :
    ∀ side b, Bound.fixed side b ∈ bounds → admits x.context side b t = true := by
  have hrun : ((x.passesBounds bounds t).run.run a).1 =
      .ok (withinBounds x.context x.graph (a.proposal.typeAt x.graph) bounds t) := by
    unfold passesBounds note
    split <;> rfl
  rw [hrun] at h
  exact admits_of_withinBounds (Except.ok.inj h)

theorem takeBack_keeps (sites : List SiteId) : Follows (Keeping P) (takeBack sites) := by
  refine modify' fun a ha => ?_
  show (sites.foldl Proposal.rollback a.proposal).Only P
  induction sites generalizing a with
  | nil => exact ha
  | cons s sites ih => exact ih { a with proposal := a.proposal.rollback s } (ha.rollback s)

end

/-! The recursion, for any relation that the log follows: an offer to a variable comes down to requests
    at its sites, an offer to a site to one of the two, and a request to what the instruction passes
    on. -/

section
variable {x : Trial} {K : Attempt → Attempt → Prop} [IsPreorder Attempt K]
  (hlog : ∀ a log, K a { a with log }) {request : Request} {t : Ty}
include hlog

theorem follows_offerVar {v : VarId} (hr : Fits x.context (x.graph.var v) t → ∀ s,
      (∀ u, s = some u → u ∈ (x.graph.var v).sites) → Follows K (request s t))
    (hback : Follows K (takeBack (x.graph.var v).sites)) : Follows K (x.offerVar request v t) := by
  unfold offerVar
  simp only
  refine ite' (fun _ => pure' _) fun hpin => ?_
  -- the check of the bounds looks at the proposal, so what it finds is a property of its result
  refine bind_of (Q := fun b => b = true → ∀ side b, Bound.fixed side b ∈ (x.graph.var v).bounds →
    admits x.context side b t = true) (follows_passesBounds hlog _ t) ?_ fun passed hpassed => ?_
  · rintro a b hab rfl
    exact admits_of_passesBounds hab
  refine ite' (fun _ => bind' (follows_note hlog _) fun _ => pure' _) fun hp => ?_
  have hfits : Fits x.context (x.graph.var v) t := by
    refine ⟨fun p hp => ?_, fun _ => hpassed (by simpa using hp)⟩
    rw [hp] at hpin
    have hpt : p = t := by simpa using hpin
    exact hpt.symm
  -- from here on the type is asked for at the definition and at all uses
  refine bind' (hr hfits _ fun u hu => by simp [Var.sites, hu]) fun first => ?_
  have huses : Follows K (offerAll (fun s t => request (some s) t) t (x.graph.var v).uses) := by
    refine follows_offerAll t _ fun u hu => hr hfits (some u) fun w hw => ?_
    cases hw
    exact List.mem_append_right _ hu
  have hend : ∀ rest : Option Bool, Follows K (do
      if rest.isNone then takeBack ((x.graph.var v).assign.toList ++ (x.graph.var v).uses)
      return unanimous rest : Propagation Verdict) := fun rest =>
    ite' (fun _ => bind' hback fun _ => pure' _) fun _ => pure' _
  refine ite' (fun _ => ?_) fun _ => ?_
  · exact bind' (pure' _) hend
  · exact bind' huses hend

theorem follows_offerSite {s : SiteId}
    (hvar : ∀ v, x.graph.varOf? s = some v → x.examine s t = .passed →
      Follows K (x.offerVar request v t))
    (hlit : x.graph.varOf? s = none → x.examine s t = .passed → Follows K (request (some s) t)) :
    Follows K (x.offerSite request s t) := by
  unfold offerSite
  simp only
  refine get' fun a => ite' (fun _ => pure' _) fun _ => bind' (follows_note hlog _) fun _ => ?_
  split
  · exact pure' _
  · next hs =>
    split
    · next v hv => exact hvar v hv hs
    · next hv => exact hlit hv hs
  · exact pure' _

theorem follows_request_conveyed {s : SiteId}
    (hask : ∀ a, K a { a with proposal := a.proposal.request s t })
    (hback : Follows K (takeBack [s])) {depth : Nat}
    (ho : ∀ d < depth, ∀ u r, x.Conveys s t u r → Follows K (x.offerSite (x.request d) u r)) :
    Follows K (x.request depth (some s) t) := by
  cases depth with
  | zero =>
    unfold Trial.request
    simp only
    refine get' fun a => ite' (fun _ => pure' _) fun _ => bind' ?_ fun _ => throw' _
    exact modify' hask
  | succ depth =>
    unfold Trial.request
    simp only
    refine get' fun a => ite' (fun _ => pure' _) fun _ => bind' (modify' hask) fun _ => ?_
    refine bind' (follows_conveyed hlog (ho depth (Nat.lt_succ_self depth))) fun _ => ?_
    exact ite' (fun _ => bind' hback fun _ => pure' _) fun _ => pure' _

theorem follows_request {s : SiteId} (hask : ∀ a, K a { a with proposal := a.proposal.request s t })
    (hback : Follows K (takeBack [s])) {depth : Nat}
    (ho : ∀ d < depth, ∀ u r, Passes x.graph s t u r → Follows K (x.offerSite (x.request d) u r)) :
    Follows K (x.request depth (some s) t) :=
  follows_request_conveyed hlog hask hback fun d hd u r h => ho d hd u r h.passes

omit hlog in
theorem follows_request_none (depth : Nat) (t : Ty) : Follows K (x.request depth none t) := by
  unfold Trial.request
  exact throw' _

end

/-! Requests are only made for sites and types that are cleared. -/

section
variable {x : Trial} (hl : Linked x.graph)

/-- A request of a cleared type keeps proposals cleared. -/
def RequestKeeps (x : Trial) (request : Request) : Prop :=
  ∀ s t, (∀ u, s = some u → Cleared x u t) → Follows (Keeping (Cleared x)) (request s t)

include hl

/-- A type that passed at one site of a variable, and fits the variable, is cleared at all its sites. -/
theorem cleared_of_site {s : SiteId} {v : VarId} (hv : x.graph.varOf? s = some v) {t : Ty}
    (hs : x.examine s t = .passed) (hf : Fits x.context (x.graph.var v) t) :
    ∀ u ∈ (x.graph.var v).sites, Cleared x u t := by
  intro u hu
  have huv := hl v u hu
  refine ⟨(examine_congr hv huv t).trans hs, fun w hw => ?_⟩
  rw [huv] at hw
  cases hw
  exact hf

theorem offerSite_keeps {request : Request} (hr : RequestKeeps x request) (s : SiteId) (t : Ty) :
    Follows (Keeping (Cleared x)) (x.offerSite request s t) := by
  refine follows_offerSite keeping_log (fun v hv hs => ?_) fun hv hs => ?_
  · exact follows_offerVar keeping_log
      (fun hf w hw => hr w t fun u hu => cleared_of_site hl hv hs hf u (hw u hu)) (takeBack_keeps _)
  · refine hr (some s) t fun u hu => ?_
    cases hu
    exact ⟨hs, fun v hv' => by rw [hv] at hv'; cases hv'⟩

-- The recursion is on the levels that are left; the listeners below see the offer of one level less.
theorem request_keeps (depth : Nat) : RequestKeeps x (x.request depth) := by
  induction depth using Nat.strongRecOn with
  | _ depth ih =>
    rintro (_ | s) t hs
    · exact follows_request_none depth t
    · exact follows_request keeping_log (fun a ha => ha.request (hs s rfl)) (takeBack_keeps _)
        fun d hd u r _ => offerSite_keeps hl (ih d hd) u r

/-- A whole attempt proposes only what was cleared. -/
theorem run_cleared (s : SiteId) (t : Ty) : (x.run s t).2.proposal.Only (Cleared x) :=
  offerSite_keeps hl (request_keeps hl _) s t {} fun _ _ h => by cases h

end
end Trial

/-! ## Trying a type -/

/-- What trying a type on a variable comes to: nothing is changed, or what was cleared is committed. -/
inductive Tried (c : Context) (flags : Flags) (s : Session) : Except Fault Verdict × Session → Prop
  | unchanged {r : Except Fault Verdict} {s' : Session} (hr : r ≠ .ok .changed)
    (hg : s'.graph = s.graph) (hc : s'.changes = s.changes) : Tried c flags s (r, s')
  | committed {p : Proposal} {s' : Session}
    (hp : Linked s.graph → p.Only (Cleared ⟨c, s.graph, flags⟩)) (hg : s'.graph = p.commit s.graph)
    (hc : s'.changes = fun x y => s.changes x y ∨ (x = s.graph ∧ y = p.commit s.graph)) :
    Tried c flags s (.ok .changed, s')

theorem apply_tried (v : VarId) (t : Ty) (flags : Flags) (c : Context) (s : Session) :
    Tried c flags s ((apply v t flags).after c s) := by
  unfold apply
  rw [after_theGraph]
  split
  · exact .unchanged (by simp) rfl rfl
  · next site hsite =>
    split
    · exact .unchanged (by simp) rfl rfl
    · rw [after_read]
      simp only
      have hcleared (hl : Linked s.graph) := Trial.run_cleared (x := ⟨c, s.graph, flags⟩) hl site t
      -- nothing but the proposal of the attempt matters below
      generalize Trial.run ⟨c, s.graph, flags⟩ site t = outcome at hcleared ⊢
      obtain ⟨r, attempt⟩ := outcome
      obtain ⟨log, hlog⟩ := after_note_bind attempt.log.toList _ c s
      simp only
      rw [hlog]
      split
      · exact .unchanged (by simp) rfl rfl
      · obtain ⟨log', hlog'⟩ := after_note_bind _ _ c { s with log }
        rw [hlog']
        exact .unchanged (by simp) rfl rfl
      · split
        · exact .unchanged (by simp) rfl rfl
        · obtain ⟨log', hlog'⟩ := after_note_bind _ _ c { s with log }
          rw [hlog']
          exact .committed hcleared rfl rfl

/-- A change of type that an accepted attempt may make. -/
structure Accepted (c : Context) (g : MethodGraph) (flags : Flags) (old new : Ty) : Prop where
  noConflict : (c.compare new old).isConflict = false
  noWider : flags.acceptWider = false → (c.compare new old).isWider = false
  noWildcard : new.isWildcard = false
  inScope : ∀ a ∈ new.typeVars, a.name ∈ g.typeVars.map TypeVar.name

theorem Cleared.accepted {x : Trial} {s : SiteId} {t : Ty} (h : Cleared x s t)
    (hne : x.graph.typeAt s ≠ t) : Accepted x.context x.graph x.flags (x.graph.typeAt s) t := by
  rcases Trial.of_examine_passed h.examined with heq | ⟨hw, hc, hwider, hscope⟩
  · exact absurd heq hne
  · refine ⟨hc, fun hf => ?_, hw, fun a ha => ?_⟩
    · cases hr : (x.context.compare t (x.graph.typeAt s)).isWider with
      | false => rfl
      | true => rw [hwider hr] at hf; cases hf
    · have hin := List.any_eq_false.mp hscope a ha
      simpa using hin

/-- An accepted attempt changes types only as the checks allow, at each variable and each literal, and
    a pinned variable only to its pin. One that is not accepted, or that a fault ends, changes
    nothing. -/
theorem apply_changes_checked (c : Context) (s : Session) (hl : Linked s.graph) (v : VarId) (t : Ty)
    (flags : Flags) (r : Except Fault Verdict) (s' : Session)
    (hr : (apply v t flags).after c s = (r, s')) :
    (r = .ok .changed →
      (∀ w, (s'.graph.var w).ty ≠ (s.graph.var w).ty →
        Accepted c s.graph flags (s.graph.var w).ty (s'.graph.var w).ty ∧
          ∀ p, (s.graph.var w).pin = some p → (s'.graph.var w).ty = p) ∧
      ∀ u, s.graph.isRegister u = false → s'.graph.typeAt u ≠ s.graph.typeAt u →
        Accepted c s.graph flags (s.graph.typeAt u) (s'.graph.typeAt u)) ∧
    (r ≠ .ok .changed → s'.graph = s.graph) := by
  have htried := apply_tried v t flags c s
  rw [hr] at htried
  cases htried with
  | unchanged hne hg hc => exact ⟨fun h => absurd h hne, fun _ => hg⟩
  | @committed p _ hp hg hc =>
    refine ⟨fun _ => ⟨fun w hw => ?_, fun u hu hne => ?_⟩, fun h => absurd rfl h⟩
    · rw [hg] at hw ⊢
      rcases p.var_commit s.graph w with heq | ⟨site, n, hmem, hsite, heq⟩
      · rw [heq] at hw
        exact absurd rfl hw
      · have hcl := hp hl site n hmem
        have hty : ((p.commit s.graph).var w).ty = n := by rw [heq]; rfl
        rw [hty] at hw ⊢
        refine ⟨?_, (hcl.fits w hsite).pin⟩
        have hat := typeAt_of_varOf? hsite
        have hacc := hcl.accepted (by rw [hat]; exact hw.symm)
        rwa [hat] at hacc
    · rw [hg] at hne ⊢
      have hnone : s.graph.varOf? u = none := by simpa [isRegister] using hu
      rcases p.typeAt_commit s.graph hnone with heq | hmem
      · exact absurd heq hne
      · exact (hp hl u _ hmem).accepted hne.symm

/-- A constant and a pinned parameter meet in a phi. -/
def constMeetsParam : MethodGraph where
  cls := "a.Main"
  name := "pick"
  blocks := #[{ insns := [⟨0⟩, ⟨1⟩] }]
  insns := #[{ opcode := .const, result := some ⟨0⟩, args := [⟨1⟩], block := some ⟨0⟩ },
    { opcode := .phi, result := some ⟨2⟩, args := [⟨3⟩, ⟨4⟩], block := some ⟨0⟩,
      incoming := [⟨0⟩, ⟨0⟩] }]
  sites := #[{ operand := .reg ⟨0⟩, declared := Ty.anything, owner := some ⟨0⟩ },
    { operand := .lit 0 Ty.anything, declared := Ty.anything, owner := some ⟨0⟩ },
    { operand := .reg ⟨1⟩, declared := Ty.anything, owner := some ⟨1⟩ },
    { operand := .reg ⟨0⟩, declared := Ty.anything, owner := some ⟨1⟩ },
    { operand := .reg ⟨2⟩, declared := Ty.anything, owner := some ⟨1⟩ },
    { operand := .reg ⟨2⟩, declared := Ty.raw "a.Main", pinned := true }]
  vars := #[{ reg := 0, version := 0, assign := some ⟨0⟩, uses := [⟨3⟩], phis := [⟨1⟩] },
    { reg := 1, version := 0, assign := some ⟨2⟩ },
    { reg := 2, version := 0, assign := some ⟨5⟩, uses := [⟨4⟩], phis := [⟨1⟩],
      pin := some (Ty.raw "a.Main") }]
  live := [⟨0⟩, ⟨1⟩, ⟨2⟩]

/-- The type of the parameter reaches the literal through the phi and the constant, and all three
    variables change. -/
theorem apply_changes_checked_at_phi :
    let c : Context := { hierarchy := Hierarchy.ofClasses [] }
    let s : Session := { graph := constMeetsParam }
    let after := (apply ⟨2⟩ (Ty.raw "a.Main") {}).after c s
    Linked s.graph ∧ after.1 = .ok .changed ∧
      (∀ w ∈ [VarId.mk 0, ⟨1⟩, ⟨2⟩], (after.2.graph.var w).ty ≠ (s.graph.var w).ty ∧
        Accepted c s.graph {} (s.graph.var w).ty (after.2.graph.var w).ty) ∧
      after.2.graph.typeAt ⟨1⟩ = Ty.raw "a.Main" ∧
      Accepted c s.graph {} (s.graph.typeAt ⟨1⟩) (after.2.graph.typeAt ⟨1⟩) := by
  intro c s after
  have hl : Linked s.graph := by decide
  have hr : after.1 = .ok .changed := ok_of_toOption (by decide +kernel)
  have hw : ∀ w ∈ [VarId.mk 0, ⟨1⟩, ⟨2⟩], (after.2.graph.var w).ty ≠ (s.graph.var w).ty := by
    decide +kernel
  have hlit : after.2.graph.typeAt ⟨1⟩ = Ty.raw "a.Main" := by decide +kernel
  obtain ⟨hchanged, -⟩ := apply_changes_checked c s hl ⟨2⟩ (Ty.raw "a.Main") {} after.1 after.2 rfl
  obtain ⟨hvars, hlits⟩ := hchanged hr
  refine ⟨hl, hr, fun w h => ⟨hw w h, (hvars w (hw w h)).1⟩, hlit, hlits ⟨1⟩ (by decide) ?_⟩
  rw [hlit]
  decide

end TypeRecovery.Inference
