import TypeRecovery.Proofs.Inference.Attempts

/- What an accepted attempt leaves at the variable it was made for. A site that was asked is not asked
   again, but the other sites of its variable are: propagation can come back to the variable through
   one of them, with another type (array levels come and go where elements are read and written), and
   the commit writes the types of all sites of the variable one after the other. So the variable need
   not end with the candidate. It does if no way leads from one of its sites to another, and where
   types are only passed on as they are it ends with the candidate or keeps its type. -/
namespace TypeRecovery.Inference

open MethodGraph

/-! ## Ways of propagation -/

/-- A type at a site leads to a type at another one: through their instruction, or because both are
    sites of a variable in `A`. -/
inductive Hop (g : MethodGraph) (A : VarId → Prop) : SiteId × Ty → SiteId × Ty → Prop
  | pass {s u : SiteId} {t r : Ty} (h : Passes g s t u r) : Hop g A (s, t) (u, r)
  | spread {s u : SiteId} {t : Ty} {w : VarId} (hw : A w) (hs : g.varOf? s = some w)
    (hu : u ∈ (g.var w).sites) : Hop g A (s, t) (u, t)

abbrev Leads (g : MethodGraph) (A : VarId → Prop) : SiteId × Ty → SiteId × Ty → Prop :=
  Relation.ReflTransGen (Hop g A)

/-- No way leads from a site of `v` with the type `t` to another site of `v`, except through `v`. -/
def NoReturn (g : MethodGraph) (v : VarId) (t : Ty) : Prop :=
  ∀ s ∈ (g.var v).sites, ∀ u r, g.varOf? u = some v → Leads g (· ≠ v) (s, t) (u, r) → u = s

/-- Propagation of `t` from the definition of `v` can bring `r` to the site `u`. -/
def Brings (g : MethodGraph) (v : VarId) (t : Ty) (u : SiteId) (r : Ty) : Prop :=
  ∃ s, (g.var v).assign = some s ∧ Leads g (fun _ => True) (s, t) (u, r)

/-- Types only pass through the instruction as they are. -/
def Uniform (i : Insn) : Prop :=
  i.opcode ≠ .aget ∧ i.opcode ≠ .aput ∧ i.callee.any (·.resolved) = false

theorem Passes.eq_of_uniform {g : MethodGraph} {s u : SiteId} {t r : Ty} (h : Passes g s t u r)
    (hu : ∀ i, (g.site s).owner = some i → Uniform (g.insn i)) : r = t := by
  cases h with
  | same _ _ _ => rfl
  | wrap hs _ hcode => exact absurd hcode (not_or.mpr ⟨(hu _ hs).1, (hu _ hs).2.1⟩)
  | unwrap hs _ hcode _ => exact absurd hcode (not_or.mpr ⟨(hu _ hs).1, (hu _ hs).2.1⟩)
  | declared hs _ _ hcallee =>
    rw [(hu _ hs).2.2] at hcallee
    cases hcallee

theorem Passes.mem_sites {g : MethodGraph} {s u : SiteId} {t r : Ty} (h : Passes g s t u r) :
    ∃ i, (g.site s).owner = some i ∧ u ∈ (g.insn i).sites := by
  cases h with
  | same hs hu _ => exact ⟨_, hs, hu⟩
  | wrap hs hu _ => exact ⟨_, hs, hu⟩
  | unwrap hs hu _ _ => exact ⟨_, hs, hu⟩
  | declared hs hu _ _ => exact ⟨_, hs, hu⟩

/-- A set of sites that no instruction and no variable leads out of. -/
theorem Leads.mem_of_closed {g : MethodGraph} {A : VarId → Prop} {S : SiteId → Prop}
    (hinsn : ∀ s i, S s → (g.site s).owner = some i → ∀ u ∈ (g.insn i).sites, S u)
    (hvar : ∀ s w, S s → A w → g.varOf? s = some w → ∀ u ∈ (g.var w).sites, S u)
    {p q : SiteId × Ty} (h : Leads g A p q) (hp : S p.1) : S q.1 := by
  induction h with
  | refl => exact hp
  | tail _ hop ih =>
    cases hop with
    | pass hpass =>
      obtain ⟨i, hi, hu⟩ := hpass.mem_sites
      exact hinsn _ i ih hi _ hu
    | spread hw hs hu => exact hvar _ _ ih hw hs _ hu

theorem Leads.eq_of_uniform {g : MethodGraph} {A : VarId → Prop} {s : SiteId} {t : Ty}
    {p : SiteId × Ty} (h : Leads g A (s, t) p)
    (hu : ∀ u r i, Leads g A (s, t) (u, r) → (g.site u).owner = some i → Uniform (g.insn i)) :
    p.2 = t := by
  induction h with
  | refl => rfl
  | tail hpath hop ih =>
    cases hop with
    | pass hpass => exact (hpass.eq_of_uniform (hu _ _ · hpath)).trans ih
    | spread _ _ _ => exact ih

/-! ## Entries -/

namespace Proposal

theorem lookup_cons_eq (u k : SiteId) (o : Option Ty) (es : List (SiteId × Option Ty)) :
    List.lookup u ((k, o) :: es) = if u = k then some o else List.lookup u es := by
  rw [List.lookup_cons]
  by_cases hu : u = k
  · simp [hu]
  · simp [hu, beq_false_of_ne hu]

theorem lookup_set (s u : SiteId) (t : Option Ty) (es : List (SiteId × Option Ty)) :
    List.lookup u (set s t es) = if u = s then some t else List.lookup u es := by
  induction es with
  | nil => simp [set, lookup_cons_eq]
  | cons e es ih =>
    obtain ⟨k, o⟩ := e
    unfold set
    by_cases hk : k = s
    · by_cases hu : u = s <;> simp [hk, lookup_cons_eq, hu]
    · by_cases hu : u = s
      · subst hu
        simpa [hk, lookup_cons_eq, Ne.symm hk] using ih
      · simp [hk, lookup_cons_eq, hu, ih]

theorem find?_request (p : Proposal) (s u : SiteId) (t : Ty) :
    (p.request s t).find? u = if u = s then some t else p.find? u := by
  rw [find?, request, lookup_set]
  split <;> rfl

theorem find?_rollback (p : Proposal) (s u : SiteId) :
    (p.rollback s).find? u = if u = s then none else p.find? u := by
  simp only [find?, rollback]
  induction p.entries with
  | nil => simp
  | cons e es ih =>
    obtain ⟨k, o⟩ := e
    by_cases hk : k = s
    · by_cases hu : u = s
      · simp [hk, hu]
      · simpa [lookup_cons_eq, hk, hu] using ih
    · by_cases hu : u = k
      · simp [hk, hu]
      · simpa [lookup_cons_eq, hk, hu] using ih

theorem find?_rollbacks (sites : List SiteId) (p : Proposal) {u : SiteId} (hu : u ∉ sites) :
    (sites.foldl rollback p).find? u = p.find? u := by
  induction sites generalizing p with
  | nil => rfl
  | cons s sites ih =>
    obtain ⟨hs, hu⟩ := not_or.mp (mt List.mem_cons.mpr hu)
    rw [List.foldl_cons, ih _ hu, find?_rollback, if_neg hs]

theorem mem_of_find? {p : Proposal} {s : SiteId} {t : Ty} (h : p.find? s = some t) :
    (s, some t) ∈ p.entries := by
  obtain ⟨es, es', hsplit, -⟩ := List.lookup_eq_some_iff.mp (Option.join_eq_some_iff.mp h)
  simp [hsplit]

theorem isOpen_eq_false {p : Proposal} {s : SiteId} {t : Ty} (h : p.find? s = some t) :
    p.isOpen s = false := by
  rw [isOpen, h]
  rfl

/-- If anything is proposed for a variable, the commit gives it a type that was. -/
theorem var_writes_of_mem {v : VarId} : ∀ (es : List (SiteId × Option Ty)) (g : MethodGraph),
    v.index < g.vars.size → (∃ s t, (s, some t) ∈ es ∧ g.varOf? s = some v) →
      ∃ s t, (s, some t) ∈ es ∧ g.varOf? s = some v ∧
        (es.foldl write g).var v = { g.var v with type := some t }
  | [], _, _, h => by simp at h
  | e :: es, g, hv, ⟨s, t, hmem, hs⟩ => by
    have hframe := framed_write g e
    rw [List.foldl_cons]
    by_cases hlater : ∃ s t, (s, some t) ∈ es ∧ g.varOf? s = some v
    · obtain ⟨s, t, hmem, hs, h⟩ := var_writes_of_mem es (write g e) (hframe.vars ▸ hv)
        (by simpa only [hframe.varOf] using hlater)
      rw [hframe.varOf] at hs
      refine ⟨s, t, List.mem_cons_of_mem e hmem, hs, h.trans ?_⟩
      rcases var_write g e v with h' | ⟨_, -, -, h'⟩ <;> rw [h']
    · -- the entry is the last one for the variable, and nothing overwrites it
      have he : (s, some t) = e :=
        (List.mem_cons.mp hmem).resolve_right fun hmem => hlater ⟨s, t, hmem, hs⟩
      subst he
      refine ⟨s, t, List.mem_cons_self, hs, ?_⟩
      have hwrite : (write g (s, some t)).var v = { g.var v with type := some t } := by
        simp [write, setType, varOf?_eq_some.mp hs, setVarType, var_updateVar, hv]
      rcases var_writes v es (write g (s, some t)) with h | ⟨u, r, hmem, hu, -⟩
      · exact h.trans hwrite
      · exact absurd ⟨u, r, hmem, by rwa [hframe.varOf] at hu⟩ hlater

end Proposal

/-! ## Where requests can come from -/

namespace Trial

open Follows

section
variable {x : Trial} {start : SiteId × Ty}

/-- What is asked for lies on a way of propagation. -/
def RequestReaches (x : Trial) (start : SiteId × Ty) (request : Request) : Prop :=
  ∀ s t, (∀ u, s = some u → Leads x.graph (fun _ => True) start (u, t)) →
    Follows (Keeping fun u r => Leads x.graph (fun _ => True) start (u, r)) (request s t)

theorem offerSite_reaches {request : Request} (hr : RequestReaches x start request) {s : SiteId} {t : Ty}
    (hs : Leads x.graph (fun _ => True) start (s, t)) :
    Follows (Keeping fun u r => Leads x.graph (fun _ => True) start (u, r))
      (x.offerSite request s t) := by
  refine follows_offerSite keeping_log (fun v hv _ => ?_) fun _ _ => ?_
  · exact follows_offerVar keeping_log
      (fun _ w hw => hr w t fun u hu => hs.tail (.spread trivial hv (hw u hu))) (takeBack_keeps _)
  · exact hr (some s) t fun u hu => by cases hu; exact hs

theorem request_reaches (depth : Nat) : RequestReaches x start (x.request depth) := by
  induction depth using Nat.strongRecOn with
  | _ depth ih =>
    rintro (_ | s) t hs
    · exact follows_request_none depth t
    · exact follows_request keeping_log (fun a ha => ha.request (hs s rfl)) (takeBack_keeps _)
        fun d hd u r hpass => offerSite_reaches (ih d hd) ((hs s rfl).tail (.pass hpass))

theorem run_reaches (s : SiteId) (t : Ty) :
    (x.run s t).2.proposal.Only fun u r => Leads x.graph (fun _ => True) (s, t) (u, r) :=
  offerSite_reaches (request_reaches _) .refl {} fun _ _ h => by cases h

end

/-! ## Away from the variable

    While `t` is proposed at a site `s` of `v`, and no way leads from there to another site of `v`, the
    propagation from `s` leaves all entries of `v` alone. -/

/-- All entries for sites of `v` have the type `t`. -/
abbrev OnlyFor (g : MethodGraph) (v : VarId) (t : Ty) (p : Proposal) : Prop :=
  p.Only fun u r => g.varOf? u = some v → r = t

/-- With `t` proposed at `s`, nothing changes at the sites of `v`. -/
def Away (g : MethodGraph) (v : VarId) (s : SiteId) (t : Ty) (a b : Attempt) : Prop :=
  a.proposal.find? s = some t → b.proposal.find? s = some t ∧
    (∀ u, g.varOf? u = some v → b.proposal.find? u = a.proposal.find? u) ∧
    (OnlyFor g v t a.proposal → OnlyFor g v t b.proposal)

instance (g : MethodGraph) (v : VarId) (s : SiteId) (t : Ty) :
    IsPreorder Attempt (Away g v s t) where
  refl _ h := ⟨h, fun _ _ => rfl, id⟩
  trans _ _ _ hab hbc h := by
    obtain ⟨hb, hfind, honly⟩ := hab h
    obtain ⟨hc, hfind', honly'⟩ := hbc hb
    exact ⟨hc, fun u hu => (hfind' u hu).trans (hfind u hu), fun h => honly' (honly h)⟩

section
variable {x : Trial} {v : VarId} {s : SiteId} {t : Ty}

theorem away_log (a : Attempt) (log : Array LogRecord) :
    Away x.graph v s t a { a with log } := fun h => ⟨h, fun _ _ => rfl, id⟩

/-- A step that starts by looking at the attempt. -/
theorem run_get {α : Type} (f : Attempt → Propagation α) (a : Attempt) :
    (get >>= f).run.run a = (f a).run.run a := rfl

theorem eq_of_examine_same (h : x.examine s t = .same) : x.graph.typeAt s = t := by
  unfold examine at h
  simp only at h
  split at h
  · next heq => exact heq
  · repeat' split at h
    all_goals cases h

theorem offerSite_of_closed (request : Request) {a : Attempt} (h : a.proposal.isOpen s = false)
    (r : Ty) : (x.offerSite request s r).run.run a = (.ok .changed, a) := by
  rw [offerSite, run_get, h]
  rfl

theorem request_of_closed (depth : Nat) {a : Attempt} (h : a.proposal.isOpen s = false) (r : Ty) :
    (x.request depth (some s) r).run.run a = (.ok .changed, a) := by
  cases depth <;> rw [Trial.request, run_get, h] <;> rfl

/-- A step that leaves the attempt alone once the site has been asked. -/
theorem away_of_closed {α : Type} {m : Propagation α} {r : Except Fault α}
    (h : ∀ a, a.proposal.isOpen s = false → m.run.run a = (r, a)) : Follows (Away x.graph v s t) m := by
  intro a ha
  rw [h a (Proposal.isOpen_eq_false ha)]
  exact ⟨ha, fun _ _ => rfl, id⟩

theorem takeBack_away (hs : x.graph.varOf? s = some v) {sites : List SiteId}
    (h : ∀ u ∈ sites, x.graph.varOf? u ≠ some v) : Follows (Away x.graph v s t) (takeBack sites) := by
  refine modify' fun a ha => ?_
  have hfind : ∀ u, x.graph.varOf? u = some v →
      (sites.foldl Proposal.rollback a.proposal).find? u = a.proposal.find? u :=
    fun u hu => Proposal.find?_rollbacks sites _ fun hmem => h u hmem hu
  exact ⟨(hfind s hs).trans ha, hfind, takeBack_keeps sites a⟩

section
variable (hl : Linked x.graph) (hv : NoReturn x.graph v t) (hs : s ∈ (x.graph.var v).sites)
include hl hv hs

theorem offerSite_away {request : Request}
    (hr : ∀ u r, (∀ w, u = some w → Leads x.graph (· ≠ v) (s, t) (w, r)) →
      Follows (Away x.graph v s t) (request u r))
    {u : SiteId} {r : Ty} (hu : Leads x.graph (· ≠ v) (s, t) (u, r)) :
    Follows (Away x.graph v s t) (x.offerSite request u r) := by
  by_cases hus : u = s
  · subst hus
    exact away_of_closed fun a ha => offerSite_of_closed request ha r
  have huv : x.graph.varOf? u ≠ some v := fun h => hus (hv s hs u r h hu)
  refine follows_offerSite away_log (fun w hw _ => ?_) fun _ _ => ?_
  · have hne : w ≠ v := fun h => huv (h ▸ hw)
    refine follows_offerVar away_log
      (fun _ o ho => hr o r fun y hy => hu.tail (.spread hne hw (ho y hy)))
      (takeBack_away (hl v s hs) fun y hy h => hne (Option.some.inj ((hl w y hy).symm.trans h)))
  · exact hr (some u) r fun w hw => by cases hw; exact hu

theorem request_away (depth : Nat) :
    ∀ u r, (∀ w, u = some w → Leads x.graph (· ≠ v) (s, t) (w, r)) →
      Follows (Away x.graph v s t) (x.request depth u r) := by
  induction depth using Nat.strongRecOn with
  | _ depth ih =>
    rintro (_ | u) r hu
    · exact follows_request_none depth r
    · have hu := hu u rfl
      by_cases hus : u = s
      · subst hus
        exact away_of_closed fun a ha => request_of_closed depth ha r
      have huv : x.graph.varOf? u ≠ some v := fun h => hus (hv s hs u r h hu)
      refine follows_request away_log (fun a ha => ?_) (takeBack_away (hl v s hs) (by simpa using huv))
        fun d hd w q hpass => offerSite_away hl hv hs (ih d hd) (hu.tail (.pass hpass))
      have hfind : ∀ w, x.graph.varOf? w = some v →
          (a.proposal.request u r).find? w = a.proposal.find? w := fun w hw => by
        rw [Proposal.find?_request, if_neg (by rintro rfl; exact huv hw)]
      exact ⟨(hfind s (hl v s hs)).trans ha, hfind, fun h => h.request fun h' => absurd h' huv⟩

end

/-! ## The sites of the variable -/

/-- Where the step gets to a result, the result and the attempt have the property. -/
def Yields {α : Type} (I : Attempt → Prop) (m : Propagation α) (Q : α → Attempt → Prop) : Prop :=
  ∀ a, I a → ∀ r, (m.run.run a).1 = .ok r → Q r (m.run.run a).2

theorem yields_pure {α : Type} {I : Attempt → Prop} {Q : α → Attempt → Prop} {r : α}
    (h : ∀ a, I a → Q r a) : Yields I (pure r) Q := by
  intro a ha q hq
  cases hq
  exact h a ha

theorem Yields.weaken {α : Type} {I J : Attempt → Prop} {Q : α → Attempt → Prop} {m : Propagation α}
    (h : Yields I m Q) (hI : ∀ a, J a → I a) : Yields J m Q := fun a ha => h a (hI a ha)

theorem Yields.imp {α : Type} {I : Attempt → Prop} {Q R : α → Attempt → Prop} {m : Propagation α}
    (h : Yields I m Q) (hQ : ∀ r a, Q r a → R r a) : Yields I m R :=
  fun a ha r hr => hQ r _ (h a ha r hr)

theorem yields_of_follows {α : Type} {K : Attempt → Attempt → Prop} {I J : Attempt → Prop}
    {m : Propagation α} (h : Follows K m) (hJ : ∀ a b, I a → K a b → J b) : Yields I m fun _ => J :=
  fun a ha _ _ => hJ a _ ha (h a)

theorem yields_ite {α : Type} {I : Attempt → Prop} {Q : α → Attempt → Prop} {p : Prop} [Decidable p]
    {m n : Propagation α} (hm : p → Yields I m Q) (hn : ¬p → Yields I n Q) :
    Yields I (if p then m else n) Q := by
  by_cases h : p
  · rw [if_pos h]
    exact hm h
  · rw [if_neg h]
    exact hn h

theorem yields_get {α : Type} {I : Attempt → Prop} {Q : α → Attempt → Prop}
    {f : Attempt → Propagation α} (h : ∀ a, I a → Yields (· = a) (f a) Q) : Yields I (get >>= f) Q :=
  fun a ha => h a ha a rfl

theorem yields_bind {α β : Type} {I : Attempt → Prop} {Q : α → Attempt → Prop} {R : β → Attempt → Prop}
    {m : Propagation α} {f : α → Propagation β} (hm : Yields I m Q) (hf : ∀ r, Yields (Q r) (f r) R) :
    Yields I (m >>= f) R := by
  intro a ha q hq
  rw [run_bind] at hq ⊢
  have hm := hm a ha
  generalize m.run.run a = outcome at hm hq ⊢
  obtain ⟨r | r, b⟩ := outcome
  · cases hq
  · exact hf r b (hm r rfl) q hq

/-- The log may grow, and nothing else changes. -/
def LogOnly (a b : Attempt) : Prop := b.proposal = a.proposal

instance : IsPreorder Attempt LogOnly where
  refl _ := rfl
  trans _ _ _ h h' := h'.trans h

/-- `t` is proposed at all these sites, and nothing else at any site of `v`. -/
structure Done (g : MethodGraph) (v : VarId) (t : Ty) (sites : List SiteId) (a : Attempt) : Prop where
  at_sites : ∀ u ∈ sites, a.proposal.find? u = some t
  only : OnlyFor g v t a.proposal

theorem request_done (hl : Linked x.graph) (hv : NoReturn x.graph v t)
    (hs : s ∈ (x.graph.var v).sites) (depth : Nat) {sites : List SiteId}
    (hsites : ∀ u ∈ sites, x.graph.varOf? u = some v) :
    Yields (Done x.graph v t sites) (x.request depth (some s) t) fun verdict a =>
      verdict ≠ .rejected → Done x.graph v t (s :: sites) a := by
  intro a ha verdict hverdict hne
  cases hopen : a.proposal.isOpen s with
  | false =>
    rw [request_of_closed depth hopen]
    obtain ⟨r, hr⟩ := Option.isSome_iff_exists.mp (by simpa [Proposal.isOpen] using hopen)
    obtain rfl : r = t := ha.only s r (Proposal.mem_of_find? hr) (hl v s hs)
    exact ⟨List.forall_mem_cons.mpr ⟨hr, ha.at_sites⟩, ha.only⟩
  | true =>
    cases depth with
    | zero =>
      rw [Trial.request, run_get, hopen] at hverdict
      cases hverdict
    | succ depth =>
      let asked : Attempt := { a with proposal := a.proposal.request s t }
      have hrun : (x.request (depth + 1) (some s) t).run.run a = (do
          let v ← x.through (x.offerSite (x.request depth)) s t
          if v = .rejected then takeBack [s]
          return v : Propagation Verdict).run.run asked := by
        rw [Trial.request, run_get, hopen]
        rfl
      rw [hrun, run_bind] at hverdict ⊢
      have haway : Follows (Away x.graph v s t) (x.through (x.offerSite (x.request depth)) s t) :=
        follows_through away_log fun u r hpass =>
          offerSite_away hl hv hs (request_away hl hv hs depth) (.single (.pass hpass))
      have hfind : ∀ u, asked.proposal.find? u = if u = s then some t else a.proposal.find? u :=
        fun u => Proposal.find?_request a.proposal s u t
      obtain ⟨hat, hsame, honly⟩ := haway asked ((hfind s).trans (if_pos rfl))
      generalize (x.through (x.offerSite (x.request depth)) s t).run.run asked = outcome at *
      obtain ⟨r | r, b⟩ := outcome
      · cases hverdict
      · by_cases hr : r = .rejected
        · subst hr
          cases hverdict
          exact absurd rfl hne
        · simp only [hr, if_false] at hverdict ⊢
          refine ⟨List.forall_mem_cons.mpr ⟨hat, fun u hu => ?_⟩, honly (ha.only.request fun _ => rfl)⟩
          have hu' := hsame u (hsites u hu)
          rw [hfind, ha.at_sites u hu, ite_self] at hu'
          exact hu'

theorem Done.sublist {g : MethodGraph} {sites sites' : List SiteId} {a : Attempt}
    (h : Done g v t sites a) (hsub : sites' ⊆ sites) : Done g v t sites' a :=
  ⟨fun u hu => h.at_sites u (hsub hu), h.only⟩

section
variable (hl : Linked x.graph) (hv : NoReturn x.graph v t) (depth : Nat)
include hl hv

theorem offerAll_done {sites : List SiteId} (hsites : ∀ u ∈ sites, x.graph.varOf? u = some v) :
    ∀ uses : List SiteId, (∀ u ∈ uses, u ∈ (x.graph.var v).sites) →
      Yields (Done x.graph v t sites) (offerAll (fun s t => x.request depth (some s) t) t uses)
        fun r a => r ≠ none → Done x.graph v t sites a
  | [], _ => yields_pure fun a ha _ => ha
  | s :: rest, huses => by
    have hrest := offerAll_done hsites rest fun u hu => huses u (List.mem_cons_of_mem s hu)
    refine yields_bind (request_done hl hv (huses s List.mem_cons_self) depth hsites) fun verdict => ?_
    cases verdict with
    | rejected => exact yields_pure fun _ _ h => absurd rfl h
    | same => exact hrest.weaken fun a ha => (ha (by simp)).sublist (List.subset_cons_self s sites)
    | changed =>
      exact yields_bind
        (hrest.weaken fun a ha => (ha (by simp)).sublist (List.subset_cons_self s sites))
        fun r => yields_pure fun a ha h => ha fun hr => h (by simp [hr])

/-- An offer to the variable itself that is not rejected leaves the type at its definition, and no
    other type at any of its sites. -/
theorem offerVar_done {s : SiteId} (hassign : (x.graph.var v).assign = some s) :
    Yields (fun a => a.proposal = {}) (x.offerVar (x.request depth) v t) fun verdict a =>
      verdict ≠ .rejected → Done x.graph v t [s] a := by
  have hs : s ∈ (x.graph.var v).sites := by simp [Var.sites, hassign]
  have hrejected : ∀ I, Yields I (pure Verdict.rejected : Propagation Verdict) fun verdict a =>
      verdict ≠ .rejected → Done x.graph v t [s] a := fun I => yields_pure fun _ _ h => absurd rfl h
  unfold offerVar
  simp only
  refine yields_ite (fun _ => hrejected _) fun _ => ?_
  have hbounds : Follows LogOnly (x.passesBounds (x.graph.var v).bounds t) :=
    follows_passesBounds (fun _ _ => rfl) _ t
  refine yields_bind (yields_of_follows (J := fun a => a.proposal = {}) hbounds
    fun a b ha hab => hab.trans ha) fun passed => ?_
  refine yields_ite (fun _ => yields_bind (Q := fun _ _ => True) (fun _ _ _ _ => trivial)
    fun _ => hrejected _) fun _ => ?_
  have hfirst := (request_done hl hv hs depth (List.forall_mem_nil _)).weaken
    (J := fun a => a.proposal = {}) fun a ha => ⟨List.forall_mem_nil _, fun u r hmem => by
      rw [ha] at hmem
      cases hmem⟩
  rw [hassign]
  refine yields_bind hfirst fun first => ?_
  -- what is left at the end, whether the uses were asked or not
  have hend : ∀ rest : Option Bool, Yields (fun a => rest ≠ none → Done x.graph v t [s] a) (do
      if rest.isNone then takeBack ((some s).toList ++ (x.graph.var v).uses)
      return unanimous rest : Propagation Verdict) fun verdict a =>
        verdict ≠ .rejected → Done x.graph v t [s] a := by
    rintro (_ | same)
    · exact yields_bind (Q := fun _ _ => True) (fun _ _ _ _ => trivial) fun _ => hrejected _
    · exact yields_pure fun a ha _ => ha (by simp)
  refine yields_ite (fun _ => ?_) fun hne => ?_
  · exact yields_bind (yields_pure fun _ _ h => absurd rfl h) hend
  · exact yields_bind ((offerAll_done hl hv depth (by simpa using hl v s hs) (x.graph.var v).uses
      fun u hu => List.mem_append_right _ hu).weaken fun a ha => ha hne) hend

/-- A whole attempt that is not rejected: the type is there already, or it is proposed at the
    definition and no other type at any site of the variable. -/
theorem run_done {s : SiteId} (hassign : (x.graph.var v).assign = some s) {verdict : Verdict}
    (hr : (x.run s t).1 = .ok verdict) (hne : verdict ≠ .rejected) :
    ((x.run s t).2.proposal = {} ∧ x.graph.typeAt s = t) ∨ Done x.graph v t [s] (x.run s t).2 := by
  have hs : x.graph.varOf? s = some v := hl v s (by simp [Var.sites, hassign])
  have key : Yields (fun a => a.proposal = {})
      (x.offerSite (x.request x.context.limits.updateDepth) s t) fun verdict a =>
        verdict ≠ .rejected → (a.proposal = {} ∧ x.graph.typeAt s = t) ∨ Done x.graph v t [s] a := by
    have hnote : Follows LogOnly (x.note (x.findingRecords s t (x.examine s t))) :=
      follows_note (fun _ _ => rfl) _
    unfold offerSite
    refine yields_get fun a ha => ?_
    have hopen : a.proposal.isOpen s = true := by rw [ha]; rfl
    simp only [hopen, Bool.not_true, Bool.false_eq_true, if_false]
    refine yields_bind (yields_of_follows (J := fun a => a.proposal = {}) hnote
      fun b b' hb hab => hab.trans (hb ▸ ha)) fun _ => ?_
    split
    · next hsame => exact yields_pure fun a ha _ => .inl ⟨ha, eq_of_examine_same hsame⟩
    · rw [hs]
      exact (offerVar_done hl hv _ hassign).imp fun _ _ h hne => .inr (h hne)
    · exact yields_pure fun _ _ h => absurd rfl h
  exact key {} rfl verdict hr hne

end

end

end Trial

/-! ## Trying the candidate -/

theorem Proposal.commit_of_isEmpty {p : Proposal} (h : p.isEmpty = true) (g : MethodGraph) :
    p.commit g = g := by
  obtain ⟨es⟩ := p
  have hnone : ∀ e ∈ es, e.2.isNone = true := List.all_eq_true.mp h
  clear h
  unfold commit
  induction es with
  | nil => rfl
  | cons e es ih =>
    have he : e.2 = none := by simpa using hnone e List.mem_cons_self
    rw [List.foldl_cons, he]
    exact ih fun e he => hnone e (List.mem_cons_of_mem _ he)

theorem apply_accepted {c : Context} {s s' : Session} {v : VarId} {t : Ty} {flags : Flags}
    {verdict : Verdict} (hr : (apply v t flags).after c s = (.ok verdict, s'))
    (hne : verdict ≠ .rejected) :
    ∃ site outcome, (s.graph.var v).assign = some site ∧
      (Trial.run ⟨c, s.graph, flags⟩ site t).1 = .ok outcome ∧ outcome ≠ .rejected ∧
      s'.graph = (Trial.run ⟨c, s.graph, flags⟩ site t).2.proposal.commit s.graph := by
  unfold apply at hr
  rw [after_theGraph] at hr
  split at hr
  · cases hr
    exact absurd rfl hne
  · next site hsite =>
    split at hr
    · cases hr
      exact absurd rfl hne
    · rw [after_read] at hr
      simp only at hr
      refine ⟨site, ?_⟩
      generalize Trial.run ⟨c, s.graph, flags⟩ site t = outcome at hr ⊢
      obtain ⟨r, attempt⟩ := outcome
      obtain ⟨log, hlog⟩ := after_note_bind attempt.log.toList _ c s
      simp only at hr
      rw [hlog] at hr
      split at hr
      · cases hr
      · obtain ⟨log', hlog'⟩ := after_note_bind _ _ c { s with log }
        rw [hlog'] at hr
        cases hr
        exact absurd rfl hne
      · next w hw _ =>
        refine ⟨w, hsite, rfl, hw, ?_⟩
        split at hr
        · next hempty =>
          cases hr
          exact (Proposal.commit_of_isEmpty hempty _).symm
        · obtain ⟨log', hlog'⟩ := after_note_bind _ _ c { s with log }
          rw [hlog'] at hr
          cases hr
          rfl

/-- What an accepted candidate comes to at its variable. The variable keeps its type or gets one that
    propagation can bring to one of its sites. If propagation cannot come back to it, that is the
    candidate; and if types are passed on as they are wherever propagation gets, the variable ends with
    the candidate or keeps its type. -/
theorem accepted_candidate_ends (c : Context) (s : Session) (hl : Linked s.graph) (v : VarId) (t : Ty)
    (flags : Flags) (verdict : Verdict) (s' : Session)
    (hr : (apply v t flags).after c s = (.ok verdict, s')) (hne : verdict ≠ .rejected) :
    ((s'.graph.var v).ty = (s.graph.var v).ty ∨
      ∃ u, s.graph.varOf? u = some v ∧ Brings s.graph v t u (s'.graph.var v).ty) ∧
    (NoReturn s.graph v t → (s'.graph.var v).ty = t) ∧
    ((∀ u r i, Brings s.graph v t u r → (s.graph.site u).owner = some i → Uniform (s.graph.insn i)) →
      (s'.graph.var v).ty = t ∨ (s'.graph.var v).ty = (s.graph.var v).ty) := by
  obtain ⟨site, outcome, hassign, hrun, hout, hg⟩ := apply_accepted hr hne
  have hreach := Trial.run_reaches (x := ⟨c, s.graph, flags⟩) site t
  have hdone := fun hv => Trial.run_done (x := ⟨c, s.graph, flags⟩) hl hv hassign hrun hout
  generalize (Trial.run ⟨c, s.graph, flags⟩ site t).2 = attempt at hg hreach hdone
  have hends : (s'.graph.var v).ty = (s.graph.var v).ty ∨
      ∃ u, s.graph.varOf? u = some v ∧ Brings s.graph v t u (s'.graph.var v).ty := by
    rw [hg]
    rcases attempt.proposal.var_commit s.graph v with h | ⟨u, r, hmem, hu, h⟩
    · exact .inl (congrArg Var.ty h)
    · refine .inr ⟨u, hu, site, hassign, ?_⟩
      rw [h]
      exact hreach u r hmem
  refine ⟨hends, fun hv => ?_, fun huniform => ?_⟩
  · have hs : s.graph.varOf? site = some v := hl v site (by simp [Var.sites, hassign])
    rcases hdone hv with ⟨hempty, hty⟩ | hdone
    · rw [hg, hempty]
      exact (typeAt_of_varOf? hs).symm.trans hty
    · have hsize : v.index < s.graph.vars.size := Nat.lt_of_not_le fun hle => by
        rw [var_of_size_le hle] at hassign
        cases hassign
      obtain ⟨u, r, hmem, hu, h⟩ := Proposal.var_writes_of_mem attempt.proposal.entries s.graph hsize
        ⟨site, t, Proposal.mem_of_find? (hdone.at_sites site (by simp)), hs⟩
      have hrt : r = t := hdone.only u r hmem hu
      have hvar : s'.graph.var v = { s.graph.var v with type := some r } := hg ▸ h
      rw [hvar, hrt]
      rfl
  · rcases hends with h | ⟨u, hu, w, hw, hpath⟩
    · exact .inr h
    · exact .inl (hpath.eq_of_uniform fun u r i hpath => huniform u r i ⟨w, hw, hpath⟩)

/-- An element of the array that a phi gives goes into the phi. -/
def elementMeetsParam : MethodGraph where
  cls := "a.Main"
  name := "descend"
  blocks := #[{ insns := [⟨0⟩, ⟨1⟩] }]
  insns := #[
    { opcode := .phi, result := some ⟨0⟩, args := [⟨1⟩, ⟨2⟩], block := some ⟨0⟩,
      incoming := [⟨0⟩, ⟨0⟩] },
    { opcode := .aget, result := some ⟨3⟩, args := [⟨4⟩, ⟨5⟩], block := some ⟨0⟩ }]
  sites := #[{ operand := .reg ⟨1⟩, declared := Ty.anything, owner := some ⟨0⟩ },
    { operand := .reg ⟨0⟩, declared := Ty.anything, owner := some ⟨0⟩ },
    { operand := .reg ⟨2⟩, declared := Ty.anything, owner := some ⟨0⟩ },
    { operand := .reg ⟨2⟩, declared := Ty.anything, owner := some ⟨1⟩ },
    { operand := .reg ⟨1⟩, declared := Ty.anything, owner := some ⟨1⟩ },
    { operand := .lit 0 Ty.anything, declared := Ty.anything, owner := some ⟨1⟩ },
    { operand := .reg ⟨0⟩, declared := Ty.anything }]
  vars := #[{ reg := 0, version := 0, assign := some ⟨6⟩, uses := [⟨1⟩], phis := [⟨0⟩] },
    { reg := 1, version := 0, assign := some ⟨0⟩, uses := [⟨4⟩] },
    { reg := 2, version := 0, assign := some ⟨3⟩, uses := [⟨2⟩], phis := [⟨0⟩] }]
  live := [⟨0⟩, ⟨1⟩, ⟨2⟩]

/-- In `constMeetsParam` no way leads from the phi back to the parameter. -/
theorem noReturn_constMeetsParam (t : Ty) : NoReturn constMeetsParam ⟨2⟩ t := by
  -- the definition of the parameter is a site of no instruction, and the others are the first five
  have hinsn : ∀ n < 5, ∀ i ∈ (constMeetsParam.site ⟨n⟩).owner, ∀ u ∈ (constMeetsParam.insn i).sites,
      u.index < 5 := by decide
  have hvar : ∀ n < 5, ∀ w ∈ constMeetsParam.varOf? ⟨n⟩, w ≠ ⟨2⟩ →
      ∀ u ∈ (constMeetsParam.var w).sites, u.index < 5 := by decide
  have hsites : ∀ n < 5, constMeetsParam.varOf? ⟨n⟩ = some ⟨2⟩ → n = 4 := by decide
  intro s hs u r hu hpath
  have hs : s = ⟨5⟩ ∨ s = ⟨4⟩ := by simpa [constMeetsParam, var, Var.sites] using hs
  rcases hs with rfl | rfl
  · refine Leads.mem_of_closed (S := (· = ⟨5⟩)) ?_ ?_ hpath rfl
    · rintro _ i rfl ho
      cases ho
    · rintro _ w rfl hw hv
      cases hv
      exact absurd rfl hw
  · have hlt : u.index < 5 := Leads.mem_of_closed (S := (·.index < 5))
      (fun s i hs ho => hinsn s.index hs i ho) (fun s w hs hw hv => hvar s.index hs w hv hw) hpath
      (show 4 < 5 by decide)
    obtain ⟨n⟩ := u
    exact congrArg SiteId.mk (hsites n hlt hu)

/-- The candidate comes back to the result of the phi from the array read, with one array level more,
    and the use at the read is written last. The parameter of `constMeetsParam` gets its candidate. -/
theorem accepted_candidate_ends_at_phi :
    let c : Context := { hierarchy := Hierarchy.ofClasses [] }
    let t : Ty := Ty.raw "java.lang.String"
    let s : Session := { graph := elementMeetsParam }
    let after := (apply ⟨1⟩ t {}).after c s
    let s₁ : Session := { graph := constMeetsParam }
    let after₁ := (apply ⟨2⟩ (Ty.raw "a.Main") {}).after c s₁
    (Linked s.graph ∧ after.1 = .ok .changed ∧ (after.2.graph.var ⟨1⟩).ty = .array t ∧
      ∃ u, s.graph.varOf? u = some ⟨1⟩ ∧ Brings s.graph ⟨1⟩ t u (.array t)) ∧
    (Linked s₁.graph ∧ after₁.1 = .ok .changed ∧ NoReturn s₁.graph ⟨2⟩ (Ty.raw "a.Main") ∧
      (after₁.2.graph.var ⟨2⟩).ty = Ty.raw "a.Main") := by
  intro c t s after s₁ after₁
  have hl : Linked s.graph := by decide
  have hr : after.1 = .ok .changed := ok_of_toOption (by decide +kernel)
  have hty : (after.2.graph.var ⟨1⟩).ty = .array t := by decide +kernel
  have hne : (after.2.graph.var ⟨1⟩).ty ≠ (s.graph.var ⟨1⟩).ty := by rw [hty]; decide
  have hl₁ : Linked s₁.graph := by decide
  have hr₁ : after₁.1 = .ok .changed := ok_of_toOption (by decide +kernel)
  have hv₁ := noReturn_constMeetsParam (Ty.raw "a.Main")
  obtain ⟨hends, -⟩ := accepted_candidate_ends c s hl ⟨1⟩ t {} .changed after.2
    (Prod.ext hr rfl) (by decide)
  obtain ⟨-, hgets, -⟩ := accepted_candidate_ends c s₁ hl₁ ⟨2⟩ (Ty.raw "a.Main") {} .changed after₁.2
    (Prod.ext hr₁ rfl) (by decide)
  exact ⟨⟨hl, hr, hty, hty ▸ hends.resolve_left hne⟩, hl₁, hr₁, hv₁, hgets hv₁⟩

end TypeRecovery.Inference
