import TypeRecovery.Listing.Build
import TypeRecovery.Proofs.Graph.Construction

/- What a listing builds is wired. While an instruction is read it is open, and a variable is open until
   its definition comes. The parameters are read before all else, so the variables that are there by
   then are those that the parameters name. -/
namespace TypeRecovery

namespace MethodGraph

section
variable {g : MethodGraph} {P U : Set VarId} {F : Set InsnId}

theorem Wired.mono {Q : Set VarId} (h : g.Wired P F U) (hP : P ⊆ Q) : g.Wired Q F U :=
  ⟨h.slots, h.lists, h.seats, h.names, h.tight, fun v hv hU => by
    obtain ⟨s, hs, hparam⟩ := h.defined v hv hU
    exact ⟨s, hs, fun hn => hP (hparam hn)⟩⟩

/-! ## Blocks and edges -/

theorem block_newBlock (synthetic : Bool) (d : BlockId) : (g.newBlock synthetic).2.block d =
    if d = ⟨g.blocks.size⟩ then { synthetic } else g.block d := by
  obtain ⟨n⟩ := d
  simp only [newBlock, BlockId.mk.injEq]
  exact getD_push _ _ _ _

theorem wired_newBlock (h : g.Wired P F U) (synthetic : Bool) :
    (g.newBlock synthetic).2.Wired P F U := by
  have hblock := block_newBlock (g := g) synthetic
  have hsize : (g.newBlock synthetic).2.blocks.size = g.blocks.size + 1 := Array.size_push _
  have hseats : (g.newBlock synthetic).2.Seated := by
    obtain ⟨hmem, honce, hpreds, hin, hpaired⟩ := h.seats
    refine ⟨fun i b => ?_, fun b => ?_, fun b p hp => ?_, fun i b hb => ?_, hpaired⟩
    · have hold := hmem i b
      rw [hblock]
      split
      · next hb =>
        -- nothing is in a block beyond the table
        have hempty : g.block b = default := by
          rw [hb]
          exact block_of_size_le (Nat.le_refl _)
        rw [hempty] at hold
        exact hold
      · exact hold
    · rw [hblock]
      split
      · exact List.nodup_nil
      · exact honce b
    · rw [hblock] at hp
      rw [hsize]
      split at hp
      · cases hp
      · exact Nat.lt_succ_of_lt (hpreds b p hp)
    · rw [hsize]
      exact Nat.lt_succ_of_lt (hin i b hb)
  exact ⟨⟨h.slots.arg, h.slots.once, h.slots.owned, h.slots.result, h.slots.assign⟩,
    ⟨h.lists.uses, h.lists.usesOnce, h.lists.phis, h.lists.phisOnce⟩, hseats,
    ⟨h.names.live, h.names.var⟩, fun i hi => ⟨(h.tight i hi).args, (h.tight i hi).result⟩, h.defined⟩

theorem block_connect {a b : BlockId} (ha : a.index < g.blocks.size) (hb : b.index < g.blocks.size)
    (d : BlockId) : ((g.connect a b).block d).insns = (g.block d).insns ∧
      ((g.connect a b).block d).preds =
        if d = b then (g.block d).preds ++ [a] else (g.block d).preds := by
  have hsize : (g.updateBlock a fun x => { x with succs := x.succs ++ [b] }).blocks.size =
    g.blocks.size := Array.size_modify
  unfold connect
  rw [block_set (by rw [hsize]; exact hb), block_set ha]
  split <;> split <;> exact ⟨rfl, rfl⟩

theorem wired_connect (h : g.Wired P F U) {a b : BlockId} (ha : a.index < g.blocks.size)
    (hb : b.index < g.blocks.size) : (g.connect a b).Wired P F U := by
  have hblock := block_connect ha hb
  have hsize : (g.connect a b).blocks.size = g.blocks.size :=
    Array.size_modify.trans Array.size_modify
  have hseats : (g.connect a b).Seated := by
    obtain ⟨hmem, honce, hpreds, hin, hpaired⟩ := h.seats
    refine ⟨fun i d => ?_, fun d => ?_, fun d p hp => ?_, fun i d hd => ?_, hpaired⟩
    · rw [(hblock d).1]
      exact hmem i d
    · rw [(hblock d).1]
      exact honce d
    · rw [(hblock d).2] at hp
      rw [hsize]
      split at hp
      · rcases List.mem_append.mp hp with hp | hp
        · exact hpreds d p hp
        · rw [List.mem_singleton.mp hp]
          exact ha
      · exact hpreds d p hp
    · rw [hsize]
      exact hin i d hd
  exact ⟨⟨h.slots.arg, h.slots.once, h.slots.owned, h.slots.result, h.slots.assign⟩,
    ⟨h.lists.uses, h.lists.usesOnce, h.lists.phis, h.lists.phisOnce⟩, hseats,
    ⟨h.names.live, h.names.var⟩, fun i hi => ⟨(h.tight i hi).args, (h.tight i hi).result⟩, h.defined⟩

/-! ## Slots -/

theorem wired_newReg (h : g.Wired P F U) {v : VarId} (hv : v.index < g.vars.size) (t : Option Ty) :
    (g.newReg v t).2.Wired P F U ∧ (g.newReg v t).2.Free (g.newReg v t).1 ∧
      (g.newReg v t).2.varOf? (g.newReg v t).1 = some v ∧ Extended g (g.newReg v t).2 := by
  refine ⟨wired_newSite h rfl fun w hw => ?_, free_newSite h rfl, ?_, extended_newSite _⟩
  · cases hw
    exact hv
  · exact varOf?_eq_some.mpr (congrArg Site.operand ((site_newSite _ _).trans (if_pos rfl)))

/-- A new slot may be pinned at once. -/
theorem wired_newPinned (h : g.Wired P F U) {v : VarId} (hv : v.index < g.vars.size) (t : Option Ty)
    (pinned : Bool) :
    let g' := (g.newReg v t).2.updateSite (g.newReg v t).1 fun x => { x with pinned }
    g'.Wired P F U ∧ g'.Free (g.newReg v t).1 ∧ Extended g g' := by
  obtain ⟨h₁, hfree, -, hext⟩ := wired_newReg h hv t
  have e : SameLinks (g.newReg v t).2
      ((g.newReg v t).2.updateSite (g.newReg v t).1 fun x => { x with pinned }) :=
    sameLinks_updateSite _ (fun _ => rfl) fun _ => rfl
  exact ⟨h₁.congr e, e.free hfree, hext.updateSite (not_holds_newSite _) _⟩

/-! ## Parameters -/

/-- Nothing is open in a graph with empty tables. -/
theorem wired_empty (hs : g.sites = #[]) (hi : g.insns = #[]) (hv : g.vars = #[])
    (hb : g.blocks = #[]) (hl : g.live = []) : g.Wired P F U := by
  have hsite : ∀ s, g.site s = default := fun s => site_of_size_le (by simp [hs])
  have hinsn : ∀ i, g.insn i = default := fun i => insn_of_size_le (by simp [hi])
  have hvar : ∀ v, g.var v = default := fun v => by simp [var, hv]
  have hblock : ∀ b, g.block b = default := fun b => block_of_size_le (by simp [hb])
  have hslots : ∀ i, (g.insn i).args = [] ∧ (g.insn i).result = none ∧ (g.insn i).block = none ∧
    (g.insn i).incoming = [] := fun i => by rw [hinsn]; exact ⟨rfl, rfl, rfl, rfl⟩
  have hlists : ∀ v, (g.var v).assign = none ∧ (g.var v).uses = [] ∧ (g.var v).phis = [] :=
    fun v => by rw [hvar]; exact ⟨rfl, rfl, rfl⟩
  have hseats : ∀ b, (g.block b).insns = [] ∧ (g.block b).preds = [] := fun b => by
    rw [hblock]; exact ⟨rfl, rfl⟩
  have howner : ∀ s, (g.site s).owner = none := fun s => by rw [hsite]; rfl
  have hno : ∀ s, ¬g.Holds s := fun s => by simp [Holds, hs]
  refine ⟨⟨?_, ?_, ?_, ?_, ?_⟩, ⟨?_, ?_, ?_, ?_⟩, ⟨?_, ?_, ?_, ?_, ?_⟩, ⟨by simp [hl, hv], ?_⟩,
    fun i _ => ⟨?_, ?_⟩, ?_⟩
  all_goals simp [hslots, hlists, hseats, howner, hno, hv]

/-- A free site becomes the definition of its variable, which is a parameter then. -/
theorem wired_assign {v : VarId} (h : g.Wired P F (insert v U)) {s : SiteId} (hs : g.Free s)
    (hv : g.varOf? s = some v) (hnone : (g.var v).assign = none) :
    (g.updateVar v fun x => { x with assign := some s }).Wired (insert v P) F U := by
  have hlt := h.names.var s v hs.held hv
  have hvar : ∀ w, (g.updateVar v fun x => { x with assign := some s }).var w =
      if w = v then { g.var w with assign := some s } else g.var w := var_set hlt _
  have hlists : ∀ w, ((g.updateVar v fun x => { x with assign := some s }).var w).uses =
      (g.var w).uses ∧ ((g.updateVar v fun x => { x with assign := some s }).var w).phis =
      (g.var w).phis := by
    intro w
    rw [hvar]
    split <;> exact ⟨rfl, rfl⟩
  have hsize : (g.updateVar v fun x => { x with assign := some s }).vars.size = g.vars.size :=
    Array.size_modify
  refine ⟨⟨h.slots.arg, h.slots.once, h.slots.owned, fun i u hu => ?_, fun w u hu => ?_⟩,
    h.lists.congr (fun _ => rfl) (fun _ => rfl) (fun _ => rfl) hlists,
    ⟨h.seats.block, h.seats.once, h.seats.preds, h.seats.incoming, h.seats.paired⟩,
    h.names.congr rfl hsize rfl fun _ => rfl,
    fun i hi => ⟨(h.tight i hi).args, (h.tight i hi).result⟩, fun w hw hU => ?_⟩
  · obtain ⟨w, hwu, ha⟩ := h.slots.result i u hu
    have hwv : w ≠ v := by
      rintro rfl
      rw [hnone] at ha
      cases ha
    exact ⟨w, hwu, by rw [hvar, if_neg hwv, ha]⟩
  · rw [hvar] at hu
    split at hu
    · next hw =>
      cases hu
      subst hw
      exact ⟨hv, hs.held, hs.not_arg h.slots⟩
    · exact h.slots.assign w u hu
  · by_cases hwv : w = v
    · subst hwv
      exact ⟨s, by rw [hvar, if_pos rfl], fun _ => Set.mem_insert w P⟩
    · obtain ⟨u, hu, hparam⟩ := h.defined w (hsize ▸ hw) (by simp [hwv, hU])
      exact ⟨u, by rw [hvar, if_neg hwv, hu], fun hn => Set.mem_insert_of_mem v (hparam hn)⟩

/-- The variables without a definition. -/
def unassigned (g : MethodGraph) : Set VarId := {v | (g.var v).assign = none}

theorem unassigned_congr {g' : MethodGraph} (h : ∀ v, (g'.var v).assign = (g.var v).assign) :
    g'.unassigned = g.unassigned := by
  simp only [unassigned, h]

theorem wired_newParam (h : g.Wired P F g.unassigned) (reg : Int) (t : Option Ty) (name : String) :
    (g.newParam reg t name).2.Wired (insert ⟨g.vars.size⟩ P) F (g.newParam reg t name).2.unassigned ∧
      (g.newParam reg t name).2.vars.size = g.vars.size + 1 := by
  have h₁ := wired_newVar h reg name
  have hvar := var_newVar (g := g) reg name
  have hid : (g.newVar reg name).1 = ⟨g.vars.size⟩ := rfl
  have hsize : (g.newVar reg name).2.vars.size = g.vars.size + 1 := Array.size_push _
  unfold newParam
  simp only
  rw [hid] at h₁ hvar ⊢
  generalize (g.newVar reg name).2 = g₁ at h₁ hvar hsize ⊢
  have hlt : (⟨g.vars.size⟩ : VarId).index < g₁.vars.size := by
    rw [hsize]
    exact Nat.lt_succ_self _
  obtain ⟨h₂, hfree, hread, -⟩ := wired_newReg h₁ hlt t
  have hsame : (g₁.newReg ⟨g.vars.size⟩ t).2.vars = g₁.vars := rfl
  generalize (g₁.newReg ⟨g.vars.size⟩ t).1 = s at hfree hread ⊢
  generalize (g₁.newReg ⟨g.vars.size⟩ t).2 = g₂ at h₂ hfree hread hsame ⊢
  have hvar₂ : ∀ w, g₂.var w = g₁.var w := fun w => by rw [var, var, hsame]
  have hset := var_set (g := g₂) (v := ⟨g.vars.size⟩) (by rw [hsame]; exact hlt)
    (fun x => { x with assign := some s })
  refine ⟨wired_assign (h₂.weaken (Set.Subset.refl F) fun w hw => ?_) hfree hread ?_, ?_⟩
  · by_cases hwv : w = ⟨g.vars.size⟩
    · exact .inl hwv
    · refine .inr ?_
      change ((g₂.updateVar _ _).var w).assign = none
      rw [hset, if_neg hwv, hvar₂, hvar, if_neg hwv]
      exact hw.resolve_left hwv
  · rw [hvar₂, hvar, if_pos rfl]
  · rw [updateVar, Array.size_modify, hsame, hsize]

end
end MethodGraph

namespace Listing

open MethodGraph

/-! ## Steps of building -/

/-- If the step has a result from the draft, then `Q` holds of it and the draft it leaves. -/
structure Yields {ε α : Type} (d : Draft) (x : Build ε α) (Q : α → Draft → Prop) : Prop where
  outcome : ∀ a d', x d = .ok (a, d') → Q a d'

namespace Yields

section
variable {ε δ α β : Type} {d : Draft} {Q : α → Draft → Prop} {R : β → Draft → Prop}

theorem pure' {a : α} (h : Q a d) : Yields d (pure a : Build ε α) Q := by
  refine ⟨fun b d' hx => ?_⟩
  cases hx
  exact h

theorem throw' (e : ε) : Yields d (throw e : Build ε α) Q := by
  refine ⟨fun b d' hx => ?_⟩
  cases hx

theorem bind' {x : Build ε α} {f : α → Build ε β} (hx : Yields d x Q)
    (hf : ∀ a d', Q a d' → Yields d' (f a) R) : Yields d (x >>= f) R := by
  refine ⟨fun b d'' h => ?_⟩
  have h : (x d >>= fun p => f p.1 p.2) = .ok (b, d'') := h
  rcases hr : x d with e | ⟨a, d'⟩
  · rw [hr] at h
    cases h
  · rw [hr] at h
    exact (hf a d' (hx.outcome a d' hr)).outcome b d'' h

theorem get' {f : Draft → Build ε β} (hf : Yields d (f d) R) : Yields d (get >>= f) R := ⟨hf.outcome⟩

theorem ite' {c : Prop} [Decidable c] {x y : Build ε α} (hx : c → Yields d x Q)
    (hy : ¬c → Yields d y Q) : Yields d (if c then x else y) Q := by
  by_cases h : c
  · rw [if_pos h]; exact hx h
  · rw [if_neg h]; exact hy h

/-- A check before the rest of a step. -/
theorem guard' {c : Prop} [Decidable c] {e : ε} {rest : PUnit → Build ε α}
    (h : ¬c → Yields d (rest ⟨⟩) Q) : Yields d (if c then throw e >>= rest else rest ⟨⟩) Q :=
  ite' (fun _ => ⟨fun _ _ hx => by cases hx⟩) h

/-- A step that is sometimes taken before the rest. -/
theorem first' {c : Prop} [Decidable c] {I : Draft → Prop} {x : Build ε PUnit}
    {rest : PUnit → Build ε α} (hd : I d) (hx : Yields d x fun _ => I)
    (h : ∀ d', I d' → Yields d' (rest ⟨⟩) Q) : Yields d (if c then x >>= rest else rest ⟨⟩) Q :=
  ite' (fun _ => bind' hx fun _ => h) fun _ => h d hd

theorem within {f : ε → δ} {x : Build ε α} (h : Yields d x Q) : Yields d (Build.within f x) Q := by
  refine ⟨fun a d' hx => ?_⟩
  unfold Build.within at hx
  split at hx
  · next r hr =>
    cases hx
    exact h.outcome a d' hr
  · cases hx

theorem onGraph' {f : MethodGraph → MethodGraph} {Q : Unit → Draft → Prop}
    (h : Q () { d with graph := f d.graph }) : Yields d (onGraph f : Build ε Unit) Q := by
  refine ⟨fun a d' hx => ?_⟩
  cases hx
  exact h

theorem fromGraph' {f : MethodGraph → α × MethodGraph}
    (h : Q (f d.graph).1 { d with graph := (f d.graph).2 }) :
    Yields d (fromGraph f : Build ε α) Q := by
  refine ⟨fun a d' hx => ?_⟩
  cases hx
  exact h

theorem modify' {f : Draft → Draft} {Q : Unit → Draft → Prop} (h : Q () (f d)) :
    Yields d (modify f : Build ε Unit) Q := by
  refine ⟨fun a d' hx => ?_⟩
  cases hx
  exact h

theorem forM' {I : Draft → Prop} {f : α → Build ε Unit} (l : List α)
    (h : ∀ a ∈ l, ∀ d', I d' → Yields d' (f a) fun _ => I) (hd : I d) :
    Yields d (l.forM f) fun _ => I := by
  induction l generalizing d with
  | nil => exact pure' hd
  | cons a l ih =>
    refine bind' (h a List.mem_cons_self d hd) fun _ d' hd' => ?_
    exact ih (fun b hb => h b (List.mem_cons_of_mem a hb)) hd'

end
end Yields

/-- The step reads only. -/
def Still {ε α : Type} (x : Build ε α) : Prop := ∀ d, Yields d x fun _ d' => d' = d

namespace Still

section
variable {ε δ α β : Type}

theorem pure' (a : α) : Still (pure a : Build ε α) := fun _ => .pure' rfl

theorem bind' {x : Build ε α} {f : α → Build ε β} (hx : Still x) (hf : ∀ a, Still (f a)) :
    Still (x >>= f) := fun d => .bind' (hx d) fun a d' h => by
  subst h
  exact hf a d'

theorem within {f : ε → δ} {x : Build ε α} (h : Still x) : Still (Build.within f x) :=
  fun d => (h d).within

theorem lift' (x : Except ε α) : Still (liftM x : Build ε α) := by
  refine fun d => ⟨fun a d' hx => ?_⟩
  cases x with
  | error e => cases hx
  | ok b =>
    cases hx
    rfl

theorem mapM' {f : α → Build ε β} (l : List α) (h : ∀ a, Still (f a)) : Still (l.mapM f) := by
  induction l with
  | nil => exact pure' _
  | cons a l ih =>
    rw [List.mapM_cons]
    exact bind' (h a) fun _ => bind' ih fun _ => pure' _

/-- What holds before a step that reads only holds after it. -/
theorem then' {d : Draft} {x : Build ε α} {f : α → Build ε β} {R : β → Draft → Prop} (hx : Still x)
    (hf : ∀ a, Yields d (f a) R) : Yields d (x >>= f) R := .bind' (hx d) fun a d' h => by
  subst h
  exact hf a

end
end Still

theorem still_readType? (extra : List TypeVar) (s : String) : Still (readType? extra s) := by
  intro d
  refine .ite' (fun _ => .pure' rfl) fun _ => .get' ?_
  split
  · exact .pure' rfl
  · exact .throw' _

theorem still_readTypes (extra : List TypeVar) (ss : List String) : Still (readTypes extra ss) :=
  .mapM' ss (still_readType? extra)

theorem still_readOptional {ε α β : Type} {read : α → Build ε β} (h : ∀ a, Still (read a))
    (a : Option α) : Still (readOptional read a) := by
  cases a with
  | none => exact .pure' _
  | some a =>
    rw [readOptional, map_eq_pure_bind]
    exact .bind' (h a) fun _ => .pure' _

theorem still_readCallee (d : CalleeDecl) (kind : String) : Still (readCallee d kind) := by
  refine .bind' (.lift' _) fun kind => Still.within ?_
  refine .bind' (still_readType? _ _) fun _ => .bind' (still_readType? _ _) fun _ => ?_
  refine .bind' (still_readTypes _ _) fun _ => ?_
  exact .bind' (still_readOptional (still_readTypes _) _) fun _ => .pure' _

theorem still_readField (d : FieldDecl) : Still (readField d) :=
  .bind' (still_readType? _ _) fun _ => .pure' _

theorem still_readTarget (d : TargetDecl) : Still (readTarget d) :=
  .bind' (still_readType? _ _) fun _ => .bind' (still_readTypes _ _) fun _ => .pure' _

/-! ## Drafts -/

/-- All that is open of the graph of a draft are the instructions in `F` and the variables without a
    definition. The names are those of `L` and further ones. -/
structure Drafted (P : Set VarId) (F : Set InsnId) (L : List (String × VarId)) (n : Nat)
    (d : Draft) : Prop where
  wired : d.graph.Wired P F d.graph.unassigned
  named : ∀ name v, d.named.lookup name = some v → v.index < d.graph.vars.size
  kept : ∀ name v, L.lookup name = some v → d.named.lookup name = some v
  blocks : d.graph.blocks.size = n

section
variable {P : Set VarId} {F : Set InsnId} {L : List (String × VarId)} {n : Nat} {d : Draft}

theorem yields_registerFor {ε : Type} (name : String) : Yields d (registerFor name : Build ε Int)
    fun _ d' => d'.graph = d.graph ∧ d'.named = d.named := by
  unfold registerFor
  split
  · exact .pure' ⟨rfl, rfl⟩
  · refine .get' (.bind' (.modify' (Q := fun _ d' => d'.graph = d.graph ∧ d'.named = d.named)
      ⟨rfl, rfl⟩) fun _ d' h => .pure' h)

/-- A name that stood for a variable still does when another is added. -/
theorem lookup_append_of_some {named : List (String × VarId)} {name : String} {v : VarId}
    (h : named.lookup name = some v) (more : List (String × VarId)) :
    (named ++ more).lookup name = some v := by
  rw [List.lookup_append, h]
  rfl

theorem lookup_append_one {named : List (String × VarId)} {name name' : String} {v w : VarId}
    (h : (named ++ [(name', w)]).lookup name = some v) : named.lookup name = some v ∨ v = w := by
  rw [List.lookup_append] at h
  cases hl : named.lookup name with
  | some x =>
    rw [hl] at h
    exact .inl h
  | none =>
    rw [hl] at h
    simp only [List.lookup_cons, List.lookup_nil, Option.none_or] at h
    split at h
    · exact .inr (Option.some_inj.mp h).symm
    · cases h

theorem yields_varNamed {ε : Type} (h : Drafted P F L n d) (name : String) :
    Yields d (varNamed name : Build ε VarId) fun v d' =>
      Drafted P F L n d' ∧ v.index < d'.graph.vars.size ∧ Extended d.graph d'.graph := by
  refine .get' ?_
  split
  · next v hv => exact .pure' ⟨h, h.named name v hv, refl_of Extended d.graph⟩
  · refine .bind' (yields_registerFor name) fun reg d₁ h₁ => ?_
    obtain ⟨hg, hn⟩ := h₁
    have hwired := wired_newVar h.wired reg name
    have hvar := var_newVar (g := d.graph) reg name
    have hsize : (d.graph.newVar reg name).2.vars.size = d.graph.vars.size + 1 := Array.size_push _
    have hext := extended_newVar (g := d.graph) reg name
    have hid : (d.graph.newVar reg name).1 = ⟨d.graph.vars.size⟩ := rfl
    refine .bind' (Q := fun v d₂ => v = (d.graph.newVar reg name).1 ∧
      d₂.graph = (d.graph.newVar reg name).2 ∧ d₂.named = d.named) (.fromGraph' ?_) ?_
    · rw [hg]
      exact ⟨rfl, rfl, hn⟩
    rintro v d₂ ⟨rfl, hg₂, hn₂⟩
    refine .bind' (.modify' (Q := fun _ d₃ => d₃.graph = (d.graph.newVar reg name).2 ∧
      d₃.named = d.named ++ [(name, (d.graph.newVar reg name).1)]) ⟨hg₂, by rw [hn₂]⟩) ?_
    rintro _ d₃ ⟨hg₃, hn₃⟩
    refine .pure' ?_
    rw [hid] at hwired hvar hn₃ ⊢
    generalize (d.graph.newVar reg name).2 = g' at hwired hvar hsize hext hg₃
    refine ⟨⟨?_, fun x v hx => ?_, fun x v hx => ?_, ?_⟩, ?_, ?_⟩
    · rw [hg₃]
      refine hwired.weaken (Set.Subset.refl F) fun w hw => ?_
      change (g'.var w).assign = none
      rw [hvar]
      split
      · rfl
      · next hne => exact hw.resolve_left hne
    · rw [hg₃, hsize]
      rw [hn₃] at hx
      rcases lookup_append_one hx with hx | rfl
      · exact Nat.lt_succ_of_lt (h.named x v hx)
      · exact Nat.lt_succ_self _
    · rw [hn₃]
      exact lookup_append_of_some (h.kept x v hx) _
    · rw [hg₃, hext.blocks]
      exact h.blocks
    · rw [hg₃, hsize]
      exact Nat.lt_succ_self _
    · rw [hg₃]
      exact hext

/-- Only the graph of a draft has changed, and not in its variables and blocks. -/
theorem Drafted.ofGraph {g : MethodGraph} (h : Drafted P F L n d) {F' : Set InsnId}
    (hw : g.Wired P F' g.unassigned) (hv : g.vars.size = d.graph.vars.size)
    (hb : g.blocks.size = d.graph.blocks.size) : Drafted P F' L n { d with graph := g } :=
  ⟨hw, fun name v hx => hv ▸ h.named name v hx, h.kept, hb.trans h.blocks⟩

theorem yields_readSite (h : Drafted P F L n d) (text : String) :
    Yields d (readSite text) fun s d' =>
      Drafted P F L n d' ∧ d'.graph.Free s ∧ Extended d.graph d'.graph := by
  unfold readSite
  simp only
  refine Still.then' (still_readType? _ _).within fun t => ?_
  split
  · split
    · next value _ =>
      obtain ⟨h₁, hfree⟩ := wired_newLit h.wired value t
      exact .fromGraph' ⟨h.ofGraph h₁ rfl rfl, hfree, extended_newSite _⟩
    · exact .throw' _
  · next ref _ =>
    refine .guard' fun _ => .bind' (yields_varNamed h _) ?_
    rintro v d₁ ⟨h₁, hlt, hext⟩
    have hslot := wired_newPinned h₁.wired hlt t
    refine .fromGraph' ⟨h₁.ofGraph (hslot _).1 rfl rfl, (hslot _).2.1, ?_⟩
    exact trans_of Extended hext (hslot _).2.2

/-! ## Instructions -/

/-- The instruction that is being read is open, and all it lacks is a place. -/
structure Reading (P : Set VarId) (L : List (String × VarId)) (n : Nat) (i : InsnId) (op : Opcode)
    (d : Draft) : Prop where
  drafted : Drafted P (insert i ∅) L n d
  loose : d.graph.Loose i
  opcode : (d.graph.insn i).opcode = op

variable {i : InsnId} {op : Opcode}

theorem Reading.extended {d' : Draft} (h : Reading P L n i op d) (h' : Drafted P (insert i ∅) L n d')
    (e : Extended d.graph d'.graph) : Reading P L n i op d' :=
  ⟨h', e.loose h.drafted.wired.slots h.loose, by rw [e.insn]; exact h.opcode⟩

theorem yields_addResult (h : Reading P L n i op d) (hnone : (d.graph.insn i).result = none)
    (text : String) : Yields d (addResult i text) fun _ => Reading P L n i op := by
  refine .bind' (yields_readSite h.drafted text).within ?_
  rintro s d₁ ⟨h₁, hfree, hext⟩
  have hread := h.extended h₁ hext
  have hnone₁ : (d₁.graph.insn i).result = none := by rw [hext.insn, hnone]
  refine .get' ?_
  split
  · exact .throw' _
  · next v hv =>
    refine .get' (.guard' fun hassign => .onGraph' ?_)
    have hopen : (d₁.graph.var v).assign = none := by simpa using hassign
    have hdef : d₁.graph.Defines s v :=
      ⟨hfree.held, hv, hfree.not_arg h₁.wired.slots, .inl hopen⟩
    have e := resultSet_setResult h₁.wired hread.loose.lt hfree.held
    have hvar : ∀ w, ((d₁.graph.setResult i (some s)).var w).assign =
        if w = v then some s else (d₁.graph.var w).assign := by
      intro w
      rw [e.var, hv]
      by_cases hw : w = v
      · simp [hw]
      · simp [hw, Ne.symm hw]
    -- the variable is open no more
    have hwired : d₁.graph.Wired P (insert i ∅)
        (insert v (d₁.graph.setResult i (some s)).unassigned) := by
      refine h₁.wired.weaken (Set.Subset.refl _) fun w hw => ?_
      by_cases hwv : w = v
      · exact .inl hwv
      · refine .inr ?_
        change ((d₁.graph.setResult i (some s)).var w).assign = none
        rw [hvar, if_neg hwv]
        exact hw
    have hset := wired_setResult hwired hread.loose.lt hdef hread.loose.owned
      (fun u _ hu => by rw [hnone₁] at hu; cases hu)
      (fun j hj => by rw [hfree.owner] at hj; cases hj) (.inl (Set.mem_insert i ∅))
    refine ⟨h₁.ofGraph hset e.vars (by rw [e.blocks]), ⟨?_, ?_, fun u hu => ?_⟩, ?_⟩
    · rw [e.insns]
      exact hread.loose.lt
    · rw [e.insn, if_pos rfl]
      exact hread.loose.block
    · rw [e.insn, if_pos rfl] at hu
      cases hu
      rw [e.owner, if_pos rfl]
    · rw [e.insn, if_pos rfl]
      exact hread.opcode

/-- An argument was added: what else is known of the instruction stays. -/
theorem Reading.argAdded {g : MethodGraph} {s : SiteId} (h : Reading P L n i op d)
    (e : ArgAdded d.graph i s g) (hw : g.Wired P (insert i ∅) d.graph.unassigned) :
    Reading P L n i op { d with graph := g } := by
  obtain ⟨hres, hblock, hop, -⟩ := e.rest i
  refine ⟨h.drafted.ofGraph ?_ e.vars (by rw [e.blocks]), ⟨?_, hblock.trans h.loose.block,
    fun u hu => ?_⟩, hop.trans h.opcode⟩
  · rw [unassigned_congr e.assign]
    exact hw
  · rw [e.insns]
    exact h.loose.lt
  · rw [e.owner]
    split
    · rfl
    · exact h.loose.owned u (hres ▸ hu)

theorem Reading.addArg {s : SiteId} (h : Reading P L n i op d) (hs : d.graph.Free s)
    (hop : op ≠ .phi) : Reading P L n i op { d with graph := d.graph.addArg i s } := by
  refine h.argAdded (argAdded_addArg h.drafted.wired h.loose.lt hs.held) ?_
  exact wired_addArg h.drafted.wired h.loose.lt (Set.mem_insert i ∅) hs (by rw [h.opcode]; exact hop)

theorem Reading.addPhiArg {s : SiteId} (h : Reading P L n i op d) (hs : d.graph.Free s)
    {source : BlockId} (hb : source.index < d.graph.blocks.size) :
    Reading P L n i op { d with graph := d.graph.addPhiArg i s source } := by
  have hw := wired_addPhiArg h.drafted.wired h.loose.lt (Set.mem_insert i ∅) hs hb
  have e := argAdded_addArg h.drafted.wired h.loose.lt hs.held
  unfold MethodGraph.addPhiArg at hw ⊢
  generalize d.graph.addArg i s = g₁ at e hw ⊢
  obtain ⟨hres, hblock, hop, -⟩ := e.rest i
  have hinsn := insn_set (g := g₁) (i := i) (by rw [e.insns]; exact h.loose.lt)
    (fun x => { x with incoming := x.incoming ++ [source] }) i
  rw [if_pos rfl] at hinsn
  have hsize : (g₁.updateInsn i fun x => { x with incoming := x.incoming ++ [source] }).insns.size =
    g₁.insns.size := Array.size_modify
  have hrest : (g₁.updateInsn i fun x => { x with incoming := x.incoming ++ [source] }).sites =
      g₁.sites ∧ (g₁.updateInsn i fun x => { x with incoming := x.incoming ++ [source] }).vars =
      g₁.vars ∧ (g₁.updateInsn i fun x => { x with incoming := x.incoming ++ [source] }).blocks =
      g₁.blocks := ⟨rfl, rfl, rfl⟩
  generalize g₁.updateInsn i (fun x => { x with incoming := x.incoming ++ [source] }) = g₂
    at hw hinsn hsize hrest ⊢
  refine ⟨h.drafted.ofGraph ?_ ?_ ?_, ⟨?_, ?_, fun u hu => ?_⟩, ?_⟩
  · rw [unassigned_congr (g := d.graph) fun v => by rw [var, hrest.2.1]; exact e.assign v]
    exact hw
  · rw [hrest.2.1, e.vars]
  · rw [hrest.2.2, e.blocks]
  · rw [hsize, e.insns]
    exact h.loose.lt
  · rw [hinsn]
    exact hblock.trans h.loose.block
  · rw [hinsn] at hu
    rw [site_congr hrest.1, e.owner]
    split
    · rfl
    · exact h.loose.owned u (hres ▸ hu)
  · rw [hinsn]
    exact hop.trans h.opcode

theorem yields_addArgs (h : Reading P L n i op d) (k : Nat) (texts : List String)
    (sources : List Int) :
    Yields d (addArgs i (op = .phi) k texts sources) fun _ => Reading P L n i op := by
  induction texts generalizing d k sources with
  | nil => exact .pure' h
  | cons text texts ih =>
    unfold addArgs
    refine .bind' (yields_readSite h.drafted text).within ?_
    rintro s d₁ ⟨h₁, hfree, hext⟩
    have hread := h.extended h₁ hext
    refine .ite' (fun hphi => ?_) fun hphi => ?_
    · refine .get' (.guard' fun hrange => .bind' (Q := fun _ => Reading P L n i op) (.onGraph' ?_)
        fun _ d₂ h₂ => ih h₂ _ _)
      refine hread.addPhiArg hfree ?_
      simp only [Bool.or_eq_true, decide_eq_true_eq, not_or, Int.not_lt, Int.not_le] at hrange
      simp only
      omega
    · refine .bind' (Q := fun _ => Reading P L n i op) (.onGraph' ?_) fun _ d₂ h₂ => ih h₂ _ _
      exact hread.addArg hfree (by simpa using hphi)

theorem yields_buildInsn (h : Drafted P ∅ L n d) (x : InsnDecl) :
    Yields d (buildInsn x) fun i d' => Drafted P (insert i ∅) L n d' ∧ d'.graph.Loose i := by
  refine Still.then' (.lift' _) fun (op, sub) => ?_
  -- a new instruction has neither slots nor a place
  have hbare : Insn.Bare { opcode := op, soft := x.soft } := ⟨rfl, rfl, rfl, rfl⟩
  have hinsn := insn_newInsn (g := d.graph) { opcode := op, soft := x.soft }
    (d.graph.newInsn { opcode := op, soft := x.soft }).1
  rw [if_pos rfl] at hinsn
  refine .bind' (Q := fun i d' => Reading P L n i op d' ∧ (d'.graph.insn i).result = none)
    (.fromGraph' ⟨⟨h.ofGraph ?_ rfl rfl, ⟨?_, ?_, ?_⟩, ?_⟩, ?_⟩) ?_
  · exact (wired_newInsn h.wired hbare).weaken (Set.empty_subset _) (Set.Subset.refl _)
  · exact Nat.lt_of_lt_of_eq (Nat.lt_succ_self _) (Array.size_push _).symm
  · rw [hinsn]
  · intro s hs
    rw [hinsn] at hs
    cases hs
  · rw [hinsn]
  · rw [hinsn]
  rintro i d₁ ⟨h₁, hnone⟩
  refine .first' h₁ (yields_addResult h₁ hnone x.result) fun d₂ h₂ => .guard' fun _ => ?_
  refine .bind' (yields_addArgs h₂ 0 x.args x.incoming) fun _ d₃ h₃ => ?_
  refine Still.then' (still_readType? _ _).within fun _ => ?_
  refine Still.then' (still_readType? _ _).within fun _ => ?_
  refine Still.then' (still_readTypes _ _).within fun _ => ?_
  refine Still.then' (still_readOptional (fun a => still_readCallee a _) _).within fun _ => ?_
  refine Still.then' (still_readOptional still_readField _).within fun _ => ?_
  refine Still.then' (still_readOptional still_readTarget _).within fun _ => .guard' fun _ => ?_
  refine .bind' (.onGraph' (Q := fun _ d' => Drafted P (insert i ∅) L n d' ∧ d'.graph.Loose i) ?_)
    fun _ d₄ h₄ => .pure' h₄
  refine ⟨h₃.drafted.ofGraph (h₃.drafted.wired.congr ?_) rfl rfl,
    SameLinks.loose ?_ Array.size_modify h₃.loose⟩ <;>
  exact sameLinks_updateInsn i (fun _ => ⟨rfl, rfl⟩) (fun _ => rfl) fun _ => ⟨rfl, rfl⟩

/-! ## Methods -/

theorem yields_addCode {k : Nat} (hk : k < n) (b : BlockDecl) (h : Drafted P ∅ L n d) :
    Yields d (addCode k b) fun _ => Drafted P ∅ L n := by
  refine .forM' _ (fun (x, j) _ d₁ h₁ => .bind' (yields_buildInsn h₁ x).within ?_) h
  rintro i d₂ ⟨h₂, hloose⟩
  refine .onGraph' ?_
  obtain ⟨h₃, e⟩ := wired_place h₂.wired hloose (b := ⟨k⟩) (by rw [h₂.blocks]; exact hk) (Nat.le_refl _)
  refine h₂.ofGraph ?_ (by rw [append, e.vars]) (by rw [append, e.size])
  rw [unassigned_congr (g := d₂.graph) fun v => by rw [var, append, e.vars]; rfl]
  exact h₃

theorem yields_addEdges {k : Nat} (hk : k < n) (b : BlockDecl) (h : Drafted P ∅ L n d) :
    Yields d (addEdges k b) fun _ => Drafted P ∅ L n := by
  refine .forM' _ (fun s _ d₁ h₁ => .get' (.guard' fun hrange => .onGraph' ?_)) h
  simp only [Bool.or_eq_true, decide_eq_true_eq, not_or, Int.not_lt, Int.not_le] at hrange
  refine h₁.ofGraph (wired_connect h₁.wired ?_ ?_) rfl (Array.size_modify.trans Array.size_modify)
  · rw [h₁.blocks]
    exact hk
  · simp only
    omega

/-- While the parameters are read, each variable is named by one of them. -/
structure Parametric (params : List ParamDecl) (d : Draft) : Prop where
  drafted : Drafted {v | v.index < d.graph.vars.size} ∅ [] 0 d
  declared : ∀ v, v.index < d.graph.vars.size → ∃ p ∈ params, d.named.lookup p.var = some v

theorem yields_addParam {params : List ParamDecl} (h : Parametric params d) {p : ParamDecl}
    (hp : p ∈ params) : Yields d (addParam p) fun _ => Parametric params := by
  refine .get' (.guard' fun htwice => Still.then' (still_readType? _ _).within fun t => ?_)
  have hfresh : d.named.lookup p.var = none := Option.not_isSome_iff_eq_none.mp htwice
  refine .bind' (yields_registerFor p.var) ?_
  rintro reg d₁ ⟨hg, hn⟩
  obtain ⟨hw, hsize⟩ := wired_newParam h.drafted.wired reg t p.var
  have hid : (d.graph.newParam reg t p.var).1 = ⟨d.graph.vars.size⟩ := rfl
  have hblocks : (d.graph.newParam reg t p.var).2.blocks = d.graph.blocks := rfl
  refine .bind' (Q := fun v d₂ => v = ⟨d.graph.vars.size⟩ ∧
    d₂.graph = (d.graph.newParam reg t p.var).2 ∧ d₂.named = d.named) (.fromGraph' ?_) ?_
  · rw [hg]
    exact ⟨hid, rfl, hn⟩
  rintro v d₂ ⟨rfl, hg₂, hn₂⟩
  generalize (d.graph.newParam reg t p.var).2 = g₂ at hw hsize hblocks hg₂
  refine .bind' (Q := fun _ d₃ => SameLinks g₂ d₃.graph ∧ d₃.graph.vars = g₂.vars ∧
    d₃.graph.blocks = g₂.blocks ∧ d₃.named = d.named) (.onGraph' ?_) ?_
  · rw [hg₂]
    split
    · exact ⟨sameLinks_updateSite _ (fun _ => rfl) fun _ => rfl, rfl, rfl, hn₂⟩
    · exact ⟨refl_of SameLinks g₂, rfl, rfl, hn₂⟩
  rintro _ d₃ ⟨e, hv₃, hb₃, hn₃⟩
  refine .modify' ⟨⟨?_, fun x v hx => ?_, (fun _ _ hx => nomatch hx), ?_⟩, fun v hv => ?_⟩
  · have hunassigned : d₃.graph.unassigned = g₂.unassigned :=
      unassigned_congr fun v => by rw [var, hv₃]; rfl
    simp only
    rw [hunassigned, hv₃, hsize]
    refine (hw.congr e).mono fun v hv => ?_
    rcases hv with rfl | hv
    · exact Nat.lt_succ_self _
    · exact Nat.lt_succ_of_lt hv
  · simp only [hn₃, hv₃, hsize] at hx ⊢
    rcases lookup_append_one hx with hx | rfl
    · exact Nat.lt_succ_of_lt (h.drafted.named x v hx)
    · exact Nat.lt_succ_self _
  · rw [hb₃, hblocks]
    exact h.drafted.blocks
  · simp only [hn₃, hv₃, hsize] at hv ⊢
    rcases Nat.lt_succ_iff_lt_or_eq.mp hv with hv | hv
    · obtain ⟨q, hq, hv⟩ := h.declared v hv
      exact ⟨q, hq, lookup_append_of_some hv _⟩
    · refine ⟨p, hp, ?_⟩
      rw [List.lookup_append, hfresh, ← hv]
      simp

/-- The variables that the parameters of a method name. -/
def paramVars (m : MethodDecl) (named : List (String × VarId)) : Set VarId :=
  {v | ∃ p ∈ m.params, named.lookup p.var = some v}

theorem yields_addTypeVar {params : List ParamDecl} (h : Parametric params d) (text : String) :
    Yields d (addTypeVar text) fun _ => Parametric params := by
  refine .get' ?_
  split
  · next tv _ =>
    have e : SameLinks d.graph { d.graph with typeVars := d.graph.typeVars ++ [tv] } :=
      ⟨fun _ => rfl, fun _ => rfl, rfl, fun _ => ⟨rfl, rfl⟩, fun _ => rfl, fun _ => ⟨rfl, rfl⟩,
        fun _ => ⟨rfl, rfl⟩, fun _ => rfl, rfl, rfl, rfl⟩
    exact .onGraph' ⟨h.drafted.ofGraph (h.drafted.wired.congr e) rfl rfl, h.declared⟩
  · exact .throw' _

theorem yields_newBlock (b : BlockDecl) (h : Drafted P F L n d) :
    Yields d (onGraph fun g => (g.newBlock b.synthetic).2 : Build Problem Unit) fun _ =>
      Drafted P F L (n + 1) := by
  refine .onGraph' ⟨wired_newBlock h.wired _, h.named, h.kept, ?_⟩
  rw [← h.blocks]
  exact Array.size_push _

theorem yields_newBlocks (bs : List BlockDecl) (h : Drafted P F L n d) :
    Yields d (bs.forM fun b => onGraph fun g => (g.newBlock b.synthetic).2 : Build Problem Unit)
      fun _ => Drafted P F L (n + bs.length) := by
  induction bs generalizing d n with
  | nil => exact .pure' h
  | cons b bs ih =>
    refine .bind' (yields_newBlock b h) fun _ d' h' => ?_
    rw [List.length_cons, Nat.add_comm bs.length, ← Nat.add_assoc]
    exact ih h'

theorem still_readExpected (name text : String) : Still (readExpected name text) := fun _ =>
  .get' (.guard' fun _ => Still.then' (still_readType? _ _).within fun _ => .pure' rfl)

theorem parametric_start (m : MethodDecl) : Parametric m.params
    { graph := { cls := m.cls, name := m.name, noCode := m.noCode } } := by
  exact ⟨⟨wired_empty rfl rfl rfl rfl rfl, nofun, nofun, rfl⟩, nofun⟩

theorem yields_buildMethod (m : MethodDecl) (h : Parametric m.params d) :
    Yields d (buildMethod m) fun _ d' =>
      d'.graph.Wired (paramVars m d'.named) ∅ d'.graph.unassigned := by
  refine .bind' (.forM' (I := Parametric m.params) _ (fun text _ _ h => yields_addTypeVar h text) h)
    fun _ d₁ h₁ => ?_
  refine .bind' (.forM' (I := Parametric m.params) _ (fun p hp _ h => yields_addParam h hp) h₁)
    fun _ d₂ h₂ => ?_
  -- from here on the names of the parameters stay
  have hstart : Drafted (paramVars m d₂.named) ∅ d₂.named 0 d₂ :=
    ⟨h₂.drafted.wired.mono fun v hv => h₂.declared v hv, h₂.drafted.named, fun _ _ hx => hx,
      h₂.drafted.blocks⟩
  refine .bind' (yields_newBlocks m.blocks hstart) fun _ d₃ h₃ => ?_
  rw [Nat.zero_add] at h₃
  have hindex : ∀ b k, (b, k) ∈ m.blocks.zipIdx → k < m.blocks.length := fun b k hb => by
    simpa using List.snd_lt_of_mem_zipIdx hb
  refine .bind' (.forM' _ (fun (b, k) hb d h => yields_addEdges (hindex b k hb) b h) h₃)
    fun _ d₄ h₄ => ?_
  refine .bind' (.forM' _ (fun (b, k) hb d h => yields_addCode (hindex b k hb) b h) h₄)
    fun _ d₅ h₅ => ?_
  refine ⟨fun expect d₆ hx => ?_⟩
  have hsame := (Still.mapM' m.expect fun e => still_readExpected e.1 e.2) d₅
  rw [hsame.outcome expect d₆ hx]
  exact h₅.wired.mono fun v ⟨p, hp, hv⟩ => ⟨p, hp, h₅.kept p.var v hv⟩

theorem wired_build {m : MethodDecl} {b : Built} (hb : m.build = .ok b) :
    b.graph.Wired (paramVars m b.named) ∅ b.graph.unassigned := by
  unfold MethodDecl.build at hb
  simp only at hb
  split at hb
  · next expect d hd =>
    cases hb
    exact (yields_buildMethod m (parametric_start m)).outcome expect d hd
  · cases hb

end
end Listing
end TypeRecovery
