import TypeRecovery.Proofs.Graph.Tracking

/- Sequences of edits. An edit is written down with the entries it names, and a sequence of edits is
   carried out from a method without code. All that is asked is that the entries are there, and that a
   site which is handed to an edit, to become a result or an argument, is in no instruction. A site
   stays out of all instructions until it is handed in, so each site may be handed in once, at any time
   after it was made. Then the lists of all variables are right after every sequence. -/
namespace TypeRecovery.MethodGraph

/-! ## Edits -/

inductive Edit where
  | newVar (reg : Int) (name : String)
  | newParam (reg : Int) (declared : Option Ty) (name : String)
  | newBlock (synthetic : Bool)
  | connect (a b : BlockId)
  | newReg (v : VarId) (declared : Option Ty)
  | newLit (value : Int) (type : Option Ty)
  | duplicate (s : SiteId)
  | duplicateWith (s : SiteId) (v : VarId)
  | duplicateFresh (s : SiteId)
  /-- An instruction is built; what the description says of slots and place does not count. -/
  | newInsn (description : Insn) (result : Option SiteId) (args : List SiteId)
  | copyFresh (i : InsnId)
  | setResult (i : InsnId) (s : Option SiteId)
  | addArg (i : InsnId) (s : SiteId)
  | addPhiArg (i : InsnId) (s : SiteId) (source : BlockId)
  | replaceArg (i : InsnId) (old new : SiteId)
  | append (b : BlockId) (i : InsnId)
  | insertBefore (anchor i : InsnId)
  | insertAfter (anchor i : InsnId)
  | replaceInsn (old new : InsnId)
  | removeInsn (i : InsnId)
  | removeVar (v : VarId)

namespace Edit

def apply (g : MethodGraph) : Edit → MethodGraph
  | newVar reg name => (g.newVar reg name).2
  | newParam reg declared name => (g.newParam reg declared name).2
  | newBlock synthetic => (g.newBlock synthetic).2
  | connect a b => g.connect a b
  | newReg v declared => (g.newReg v declared).2
  | newLit value type => (g.newLit value type).2
  | duplicate s => (g.duplicate s).2
  | duplicateWith s v => (g.duplicateWith s v).2
  | duplicateFresh s => (g.duplicateFresh s).2
  | newInsn x result args =>
    (g.buildInsn { x with result := none, args := [], block := none, incoming := [] } result args).2
  | copyFresh i => (g.copyFresh i).2
  | setResult i s => g.setResult i s
  | addArg i s => g.addArg i s
  | addPhiArg i s source => g.addPhiArg i s source
  | replaceArg i old new => (g.replaceArg i old new).2
  | append b i => g.append b i
  | insertBefore anchor i => (g.insertBefore anchor i).2
  | insertAfter anchor i => (g.insertAfter anchor i).2
  | replaceInsn old new => (g.replaceInsn old new).2
  | removeInsn i => (g.removeInsn i).2
  | removeVar v => g.removeVar v

/-- The sites that the edit puts into an instruction, or would if the slot it is to fill is there. -/
def handed : Edit → List SiteId
  | newInsn _ result args => result.toList ++ args
  | setResult _ s => s.toList
  | addArg _ s | addPhiArg _ s _ | replaceArg _ _ s => [s]
  | _ => []

/-- The variables that a new site is to read. -/
def reads : Edit → List VarId
  | newReg v _ | duplicateWith _ v => [v]
  | _ => []

/-- The instructions whose slots are to be written. -/
def writes : Edit → List InsnId
  | setResult i _ | addArg i _ | addPhiArg i _ _ | replaceArg i _ _ => [i]
  | _ => []

/-- The sites to be copied. -/
def copies : Edit → List SiteId
  | duplicate s | duplicateFresh s => [s]
  | _ => []

/-- The edit names what is there, and hands in sites that are in no instruction, each once. -/
structure Allowed (g : MethodGraph) (e : Edit) : Prop where
  reads : ∀ v ∈ e.reads, v.index < g.vars.size
  writes : ∀ i ∈ e.writes, i.index < g.insns.size
  copies : ∀ s ∈ e.copies, g.Holds s
  fresh : ∀ s ∈ e.handed, g.Fresh s
  once : e.handed.Nodup

theorem allowed_iff {g : MethodGraph} {e : Edit} : e.Allowed g ↔
    (∀ v ∈ e.reads, v.index < g.vars.size) ∧ (∀ i ∈ e.writes, i.index < g.insns.size) ∧
    (∀ s ∈ e.copies, s.index < g.sites.size) ∧ (∀ s ∈ e.handed, g.Fresh s) ∧ e.handed.Nodup :=
  ⟨fun h => ⟨h.reads, h.writes, h.copies, h.fresh, h.once⟩,
    fun h => ⟨h.1, h.2.1, h.2.2.1, h.2.2.2.1, h.2.2.2.2⟩⟩

instance (g : MethodGraph) (e : Edit) : Decidable (e.Allowed g) := decidable_of_iff _ allowed_iff.symm

end Edit

/-- Carries out edits one after the other. -/
def applyAll (g : MethodGraph) (es : List Edit) : MethodGraph := es.foldl Edit.apply g

/-- Each edit is allowed when its turn comes. -/
def AllowedAll : MethodGraph → List Edit → Prop
  | _, [] => True
  | g, e :: es => e.Allowed g ∧ AllowedAll (e.apply g) es

instance decidableAllowedAll : (g : MethodGraph) → (es : List Edit) → Decidable (AllowedAll g es)
  | _, [] => isTrue trivial
  | g, e :: es =>
    have := decidableAllowedAll (e.apply g) es
    inferInstanceAs (Decidable (_ ∧ _))

/-! ## Which sites instructions take -/

/-- The sites that instructions have afterwards they had before, or they are among the given ones, or
    they are new. -/
structure Takes (S : List SiteId) (g g' : MethodGraph) : Prop where
  sites : g.sites.size ≤ g'.sites.size
  insn : ∀ j, ∀ s ∈ (g'.insn j).sites, s ∈ (g.insn j).sites ∨ s ∈ S ∨ ¬g.Holds s

instance (S : List SiteId) : IsPreorder MethodGraph (Takes S) where
  refl _ := ⟨Nat.le_refl _, fun _ _ hs => .inl hs⟩
  trans _ _ _ h h' := by
    refine ⟨Nat.le_trans h.sites h'.sites, fun j s hs => ?_⟩
    rcases h'.insn j s hs with hs | hs | hs
    · exact h.insn j s hs
    · exact .inr (.inl hs)
    · exact .inr (.inr fun hheld => hs (Nat.lt_of_lt_of_le hheld h.sites))

section
variable {g g' g'' : MethodGraph} {i : InsnId} {s : SiteId} {S : List SiteId}

theorem Takes.trans (h : Takes S g g') (h' : Takes S g' g'') : Takes S g g'' := trans_of (Takes S) h h'

/-- A site stays fresh that is not among those taken. -/
theorem Takes.fresh (h : Takes S g g') (hs : g.Fresh s) (hS : s ∉ S) : g'.Fresh s := by
  refine ⟨Nat.lt_of_lt_of_le hs.held h.sites, fun j hj => ?_⟩
  rcases h.insn j s hj with hj | hj | hj
  · exact hs.unused j hj
  · exact hS hj
  · exact hj hs.held

theorem takes_of_insns (hi : g'.insns = g.insns) (hs : g.sites.size ≤ g'.sites.size) : Takes S g g' :=
  ⟨hs, fun j _ hj => .inl (insn_congr hi j ▸ hj)⟩

theorem takes_updateSite (s : SiteId) (f : Site → Site) : Takes S g (g.updateSite s f) :=
  takes_of_insns rfl (Nat.le_of_eq (size_updateSite g s f).symm)

theorem takes_updateInsn (i : InsnId) {f : Insn → Insn}
    (hf : ∀ x : Insn, ∀ s ∈ (f x).sites, s ∈ x.sites ∨ s ∈ S) : Takes S g (g.updateInsn i f) := by
  refine ⟨Nat.le_refl _, fun j s hs => ?_⟩
  rw [insn_updateInsn] at hs
  split at hs
  · exact (hf _ s hs).imp_right .inl
  · exact .inl hs

theorem takes_newSite (x : Site) : Takes S g (g.newSite x).2 :=
  takes_of_insns rfl (edited_newSite x).grows

theorem takes_newInsn {x : Insn} (hx : Insn.Bare x) : Takes S g (g.newInsn x).2 := by
  refine ⟨Nat.le_refl _, fun j s hs => ?_⟩
  rw [insn_newInsn] at hs
  split at hs
  · simp [Insn.sites, hx.result, hx.args] at hs
  · exact .inl hs

theorem takes_linkUse (i : InsnId) (s : SiteId) : Takes S g (g.linkUse i s) := by
  obtain ⟨hinsns, hsites, -⟩ := same_linkUse (g := g) i s
  exact takes_of_insns hinsns (Nat.le_of_eq (by rw [hsites]))

theorem takes_unlinkUse (i : InsnId) (s : SiteId) : Takes S g (g.unlinkUse i s) := by
  obtain ⟨hinsns, hsites, -⟩ := same_unlinkUse (g := g) i s
  exact takes_of_insns hinsns (Nat.le_of_eq (by rw [hsites]))

theorem takes_addArg (i : InsnId) (hs : s ∈ S) : Takes S g (g.addArg i s) := by
  refine (takes_updateSite s _).trans (.trans (takes_updateInsn i fun x u hu => ?_) (takes_linkUse i s))
  simp only [Insn.sites, List.mem_append, List.mem_singleton] at hu ⊢
  rcases hu with hu | hu | rfl
  · exact .inl (.inl hu)
  · exact .inl (.inr hu)
  · exact .inr hs

theorem takes_setResult (i : InsnId) {r : Option SiteId} (hr : ∀ s ∈ r, s ∈ S) :
    Takes S g (g.setResult i r) := by
  obtain ⟨hinsns, -, -, -, hsites⟩ := same_disown (g := g) i
  have hdisown : Takes S g (g.disown i) := takes_of_insns hinsns (Nat.le_of_eq hsites.symm)
  have hwrite : Takes S g ((g.disown i).updateInsn i fun x => { x with result := r }) := by
    refine hdisown.trans (takes_updateInsn i fun x u hu => ?_)
    rcases List.mem_append.mp hu with hu | hu
    · exact .inr (hr u (Option.mem_toList.mp hu))
    · exact .inl (List.mem_append_right _ hu)
  cases r with
  | none => exact hwrite
  | some s =>
    have henter : Takes S g ((g.disown i).enter i s) := hwrite.trans (takes_updateSite s _)
    obtain ⟨hinsns, hsites, -⟩ := same_define (g := (g.disown i).enter i s) s
    rw [setResult_some]
    exact henter.trans (takes_of_insns hinsns (Nat.le_of_eq (by rw [hsites])))

theorem takes_replaceArg (i : InsnId) (old : SiteId) (hs : s ∈ S) :
    Takes S g (g.replaceArg i old s).2 := by
  unfold replaceArg
  split
  · exact refl_of (Takes S) g
  · refine .trans (takes_updateInsn i fun x u hu => ?_) ((takes_updateSite s _).trans
      ((takes_updateSite old _).trans ((takes_unlinkUse i old).trans (takes_linkUse i s))))
    simp only [Insn.sites, List.mem_append] at hu ⊢
    rcases hu with hu | hu
    · exact .inl (.inl hu)
    · rcases List.mem_or_eq_of_mem_set hu with hu | rfl
      · exact .inl (.inr hu)
      · exact .inr hs

/-- A write of instructions that adds no site. -/
theorem takes_touchInsn (i : InsnId) {f : Insn → Insn}
    (hf : ∀ x : Insn, ∀ s ∈ (f x).sites, s ∈ x.sites) : Takes S g (g.updateInsn i f) :=
  takes_updateInsn i fun x s hs => .inl (hf x s hs)

theorem takes_updateBlock (b : BlockId) (f : Block → Block) : Takes S g (g.updateBlock b f) :=
  takes_of_insns rfl (Nat.le_refl _)

theorem takes_insertAt (b : BlockId) (n : Nat) (i : InsnId) : Takes S g (g.insertAt b n i) :=
  (takes_updateBlock b _).trans (takes_touchInsn i fun _ _ hs => hs)

theorem takes_release (i : InsnId) (s : SiteId) : Takes S g (g.release i s) :=
  (takes_unlinkUse i s).trans (takes_updateSite s _)

/-- An instruction without its arguments. -/
theorem takes_clear (i : InsnId) : Takes S g (g.updateInsn i fun x => { x with args := [] }) :=
  takes_touchInsn i fun _ s hs => List.mem_append_left _ (by simpa [Insn.sites] using hs)

theorem takes_foldl {α : Type} {f : MethodGraph → α → MethodGraph} {l : List α}
    (h : ∀ a ∈ l, ∀ g, Takes S g (f g a)) (g : MethodGraph) : Takes S g (l.foldl f g) :=
  rel_foldl h g

theorem takes_removeInsn (i : InsnId) : Takes S g (g.removeInsn i).2 := by
  have hreleased := (takes_clear (S := S) (g := g) i).trans
    (takes_foldl (l := (g.insn i).args) (fun s _ _ => takes_release i s) _)
  unfold removeInsn
  split
  · exact refl_of (Takes S) g
  · exact hreleased.trans ((takes_updateBlock _ _).trans (takes_touchInsn i fun _ _ hs => hs))

theorem takes_replaceInsn (i j : InsnId) : Takes S g (g.replaceInsn i j).2 := by
  have hrelease : ∀ s ∈ (g.insn i).args, ∀ g' : MethodGraph,
      Takes S g' (if (g'.site s).owner = some i then g'.release i s else g') := by
    intro s _ g'
    split
    · exact takes_release i s
    · exact refl_of (Takes S) g'
  have hreleased := (takes_clear (S := S) (g := g) i).trans (takes_foldl hrelease _)
  unfold replaceInsn
  split
  · exact refl_of (Takes S) g
  · refine Takes.trans ?_ (takes_touchInsn i fun _ _ hs => hs)
    refine Takes.trans ?_ (takes_touchInsn j fun _ _ hs => hs)
    exact hreleased.trans (takes_updateBlock _ _)

theorem takes_duplicateFresh (s : SiteId) : Takes S g (g.duplicateFresh s).2 := by
  unfold duplicateFresh
  split
  · exact takes_of_insns rfl (edited_newSite _).grows
  · exact takes_newSite _

/-- A site that is new for a graph may be taken. -/
theorem Takes.ofNew (h : Takes (s :: S) g g') (hs : ¬g.Holds s) : Takes S g g' := by
  refine ⟨h.sites, fun j u hu => ?_⟩
  rcases h.insn j u hu with hu | hu | hu
  · exact .inl hu
  · rcases List.mem_cons.mp hu with rfl | hu
    · exact .inr (.inr hs)
    · exact .inr (.inl hu)
  · exact .inr (.inr hu)

theorem takes_copyFresh (i : InsnId) : Takes S g (g.copyFresh i).2 := by
  obtain ⟨x, hx, -, g₁, hg₁, hcopy⟩ := copyFresh_eq (g := g) i
  have hargs : Takes S g g₁ := by
    rw [hg₁]
    refine (takes_newInsn hx).trans (takes_foldl (fun s _ g' => ?_) _)
    exact .ofNew ((takes_newSite _).trans (takes_addArg _ List.mem_cons_self)) (not_holds_newSite _)
  rw [hcopy]
  cases (g.insn i).result with
  | none => exact hargs
  | some r =>
    have hset := takes_setResult (g := (g₁.duplicateFresh r).2) ⟨g.insns.size⟩
      (r := some (g₁.duplicateFresh r).1) (S := (g₁.duplicateFresh r).1 :: S)
      (by simp)
    exact hargs.trans (.ofNew ((takes_duplicateFresh r).trans hset) (not_holds_duplicateFresh r))

theorem takes_buildInsn {x : Insn} (hx : Insn.Bare x) {r : Option SiteId} {args : List SiteId}
    (hr : ∀ s ∈ r, s ∈ S) (hargs : ∀ s ∈ args, s ∈ S) : Takes S g (g.buildInsn x r args).2 := by
  have hresult : Takes S g (if r.isSome then (g.newInsn x).2.setResult (g.newInsn x).1 r
      else (g.newInsn x).2) := by
    refine (takes_newInsn hx).trans ?_
    split
    · exact takes_setResult _ hr
    · exact refl_of (Takes S) _
  exact hresult.trans (takes_foldl (fun s hs g' => takes_addArg _ (hargs s hs)) _)

/-- An edit puts the sites it is handed into instructions, and otherwise only such as it makes. -/
theorem takes_apply (e : Edit) : Takes e.handed g (e.apply g) := by
  cases e with
  | newVar reg name => exact takes_of_insns rfl (Nat.le_refl _)
  | newParam reg declared name => exact takes_of_insns rfl (edited_newSite _).grows
  | newBlock synthetic => exact takes_of_insns rfl (Nat.le_refl _)
  | connect a b => exact takes_of_insns rfl (Nat.le_refl _)
  | newReg v declared => exact takes_newSite _
  | newLit value type => exact takes_newSite _
  | duplicate s => exact takes_newSite _
  | duplicateWith s v => exact takes_newSite _
  | duplicateFresh s => exact takes_duplicateFresh s
  | newInsn x result args =>
    refine takes_buildInsn ⟨rfl, rfl, rfl, rfl⟩ (fun s hs => ?_) fun s hs => ?_
    · exact List.mem_append_left _ (Option.mem_toList.mpr hs)
    · exact List.mem_append_right _ hs
  | copyFresh i => exact takes_copyFresh i
  | setResult i r => exact takes_setResult i fun s hs => Option.mem_toList.mpr hs
  | addArg i s => exact takes_addArg i List.mem_cons_self
  | addPhiArg i s source =>
    exact (takes_addArg i List.mem_cons_self).trans (takes_touchInsn i fun _ _ hs => hs)
  | replaceArg i old s => exact takes_replaceArg i old List.mem_cons_self
  | append b i => exact takes_insertAt b _ i
  | insertBefore anchor i =>
    unfold Edit.apply insertBefore
    simp only
    split
    · exact refl_of (Takes _) g
    · exact takes_insertAt _ _ i
  | insertAfter anchor i =>
    unfold Edit.apply insertAfter
    simp only
    split
    · exact refl_of (Takes _) g
    · exact takes_insertAt _ _ i
  | replaceInsn old new => exact takes_replaceInsn old new
  | removeInsn i => exact takes_removeInsn i
  | removeVar v => exact takes_of_insns rfl (Nat.le_refl _)

end

/-! ## Sequences -/

section
variable {g : MethodGraph} {i : InsnId}

/-- Fresh sites become the arguments of an instruction, one after the other. -/
theorem tracked_addArgs (args : List SiteId) (h : Tracked i [] [] g) (hi : i.index < g.insns.size)
    (hfresh : ∀ s ∈ args, g.Fresh s) (honce : args.Nodup) :
    Tracked i [] [] (args.foldl (fun g s => g.addArg i s) g) := by
  induction args generalizing g with
  | nil => exact h
  | cons s args ih =>
    obtain ⟨hs, hfresh⟩ := List.forall_mem_cons.mp hfresh
    obtain ⟨hnot, honce⟩ := List.nodup_cons.mp honce
    refine ih (tracked_addArg h hi hs) (by rw [size_addArg]; exact hi) (fun u hu => ?_) honce
    have hne : u ∉ [s] := fun heq => hnot (List.mem_singleton.mp heq ▸ hu)
    exact (takes_addArg i List.mem_cons_self).fresh (hfresh u hu) hne

theorem size_setResult (i : InsnId) (s : SiteId) :
    (g.setResult i (some s)).insns.size = g.insns.size := by
  have hdisown : (g.disown i).insns.size = g.insns.size := by rw [(same_disown i).1]
  rw [setResult_some, (same_define s).1]
  exact Array.size_modify.trans hdisown

theorem tracked_buildInsn (h : Tracked i [] [] g) {x : Insn} (hx : Insn.Bare x) {r : Option SiteId}
    {args : List SiteId} (hfresh : ∀ s ∈ r.toList ++ args, g.Fresh s)
    (honce : (r.toList ++ args).Nodup) : Tracked i [] [] (g.buildInsn x r args).2 := by
  have hnew := (tracked_newInsn h hx).elsewhere ⟨g.insns.size⟩
  have hsize : g.insns.size < (g.newInsn x).2.insns.size := by simp [newInsn]
  have hfresh₁ : ∀ s ∈ r.toList ++ args, (g.newInsn x).2.Fresh s := fun s hs =>
    (takes_newInsn (S := []) hx).fresh (hfresh s hs) List.not_mem_nil
  refine Tracked.elsewhere (i := ⟨g.insns.size⟩) ?_ i
  cases r with
  | none => exact tracked_addArgs args hnew hsize hfresh₁ honce
  | some s =>
    obtain ⟨hnot, honceArgs⟩ : s ∉ args ∧ args.Nodup := List.nodup_cons.mp honce
    have hset := tracked_setResult hnew ⟨g.insns.size⟩ (r := some s) (by
      rintro _ ⟨⟩
      exact hfresh₁ s List.mem_cons_self)
    have htakes := takes_setResult (g := (g.newInsn x).2) (S := [s]) ⟨g.insns.size⟩ (r := some s)
      (by simp)
    have hsize₁ := size_setResult (g := (g.newInsn x).2) ⟨g.insns.size⟩ s
    refine tracked_addArgs args hset (hsize₁ ▸ hsize) (fun u hu => ?_) honceArgs
    have hne : u ∉ [s] := fun heq => hnot (List.mem_singleton.mp heq ▸ hu)
    exact htakes.fresh (hfresh₁ u (List.mem_append_right _ hu)) hne

/-- One edit. -/
theorem tracked_apply {e : Edit} (h : Tracked i [] [] g) (he : e.Allowed g) :
    Tracked i [] [] (e.apply g) := by
  obtain ⟨hreads, hwrites, hcopies, hfresh, honce⟩ := he
  cases e with
  | newVar reg name => exact tracked_newVar h reg name
  | newParam reg declared name =>
    refine tracked_updateVar (tracked_newSite (tracked_newVar h reg name) fun v hv => ?_) _
      (fun _ => ⟨rfl, rfl⟩) fun _ => ⟨rfl, rfl⟩
    cases hv
    simp [MethodGraph.newVar]
  | newBlock synthetic => exact { h with arranged := { h.arranged with } }
  | connect a b => exact tracked_updateBlock (tracked_updateBlock h a _) b _
  | newReg v declared =>
    refine tracked_newSite h fun w hw => ?_
    cases hw
    exact hreads v List.mem_cons_self
  | newLit value type => exact tracked_newSite h fun w hw => (by cases hw)
  | duplicate s => exact tracked_duplicate h (hcopies s List.mem_cons_self)
  | duplicateWith s v => exact tracked_duplicateWith h s (hreads v List.mem_cons_self)
  | duplicateFresh s => exact tracked_duplicateFresh h (hcopies s List.mem_cons_self)
  | newInsn x result args => exact tracked_buildInsn h ⟨rfl, rfl, rfl, rfl⟩ hfresh honce
  | copyFresh j => exact tracked_copyFresh h j
  | setResult j r =>
    exact tracked_setResult h j fun s hs => hfresh s (Option.mem_toList.mpr hs)
  | addArg j s =>
    exact (tracked_addArg (h.elsewhere j) (hwrites j List.mem_cons_self)
      (hfresh s List.mem_cons_self)).elsewhere i
  | addPhiArg j s source =>
    exact (tracked_addPhiArg (h.elsewhere j) (hwrites j List.mem_cons_self)
      (hfresh s List.mem_cons_self) source).elsewhere i
  | replaceArg j old s =>
    exact (tracked_replaceArg (h.elsewhere j) (hwrites j List.mem_cons_self) old
      (hfresh s List.mem_cons_self)).elsewhere i
  | append b j => exact tracked_insertAt h b _ j
  | insertBefore anchor j => exact tracked_insertBefore h anchor j
  | insertAfter anchor j => exact tracked_insertAfter h anchor j
  | replaceInsn old new => exact (tracked_replaceInsn (h.elsewhere old) new).elsewhere i
  | removeInsn j => exact (tracked_removeInsn (h.elsewhere j)).elsewhere i
  | removeVar v => exact { h with arranged := { h.arranged with } }

theorem tracked_applyAll {es : List Edit} (h : Tracked i [] [] g) (hes : AllowedAll g es) :
    Tracked i [] [] (applyAll g es) := by
  induction es generalizing g with
  | nil => exact h
  | cons e es ih => exact ih (tracked_apply h hes.1) hes.2

theorem fresh_applyAll {es : List Edit} {s : SiteId} (hs : g.Fresh s)
    (hnot : s ∉ es.flatMap Edit.handed) : (applyAll g es).Fresh s := by
  induction es generalizing g with
  | nil => exact hs
  | cons e es ih =>
    rw [List.flatMap_cons, List.mem_append, not_or] at hnot
    exact ih ((takes_apply e).fresh hs hnot.1) hnot.2

/-- A method with no code yet. -/
theorem tracked_empty (cls name : String) (i : InsnId) : Tracked i [] [] { cls, name } := by
  have hinsn : ∀ j, ({ cls, name } : MethodGraph).insn j = default := fun j =>
    insn_of_size_le (Nat.zero_le _)
  have hvar : ∀ v, ({ cls, name } : MethodGraph).var v = default := fun v =>
    var_of_size_le (Nat.zero_le _)
  refine ⟨⟨fun j s hs => ?_, fun j => ?_, fun j s hs => ?_, fun s v hs => ?_, ⟨List.nodup_nil, ?_⟩⟩,
    ⟨List.nodup_nil, fun s hs => (by cases hs)⟩, ⟨List.nodup_nil, fun s hs => (by cases hs)⟩,
    fun v s => ?_, fun v => ?_, fun j s v _ hs => ?_, fun v j hj => ?_, fun v => ?_⟩
  · rw [hinsn] at hs
    cases hs
  · rw [hinsn]
    exact List.nodup_nil
  · rw [hinsn] at hs
    cases hs
  · exact absurd hs (Nat.not_lt_zero _)
  · intro e he
    cases he
  · rw [hvar]
    refine ⟨fun hs => (by cases hs), ?_⟩
    rintro ⟨-, ⟨j, hj, -⟩ | hs⟩
    · rw [hinsn] at hj
      cases hj
    · cases hs
  · rw [hvar]
    exact List.nodup_nil
  · rw [hinsn] at hs
    cases hs
  · rw [hvar] at hj
    cases hj
  · rw [hvar]
    exact List.nodup_nil

end

/-- After any sequence of edits the lists of every variable are right. A site is among the uses of a
    variable, once, exactly if it reads the variable and is an argument of the instruction it belongs
    to; an instruction is among the phis of a variable, once, exactly if it is a phi and one of its
    arguments reads the variable; and no two variables have the same register and version. A site is
    fresh when it is made and stays so until it is handed to an edit, so no more is asked of the edits
    than that they are handed new sites. -/
theorem edits_keep_lists (cls name : String) {es : List Edit} (hes : AllowedAll { cls, name } es) :
    let g := applyAll { cls, name } es
    (∀ v s, s ∈ (g.var v).uses ↔
      g.varOf? s = some v ∧ ∃ i, (g.site s).owner = some i ∧ s ∈ (g.insn i).args) ∧
    (∀ v, (g.var v).uses.Nodup) ∧
    (∀ v i, i ∈ (g.var v).phis ↔
      (g.insn i).opcode = .phi ∧ ∃ s ∈ (g.insn i).args, g.varOf? s = some v) ∧
    (∀ v, (g.var v).phis.Nodup) ∧
    (∀ v w : VarId, v.index < g.vars.size → w.index < g.vars.size → (g.var v).reg = (g.var w).reg →
      (g.var v).version = (g.var w).version → v = w) ∧
    (∀ x : Site, (g.newSite x).2.Fresh (g.newSite x).1) ∧
    ∀ s, g.Fresh s → ∀ es', s ∉ es'.flatMap Edit.handed → (applyAll g es').Fresh s := by
  intro g
  have hg : Tracked ⟨0⟩ [] [] g := tracked_applyAll (tracked_empty cls name ⟨0⟩) hes
  refine ⟨fun v s => ?_, hg.usesOnce, fun v i => ?_, hg.phisOnce, fun v w => ?_,
    fresh_newSite hg.arranged, fun s hs es' => fresh_applyAll hs⟩
  · rw [hg.uses]
    refine and_congr_right fun _ => ?_
    constructor
    · rintro (⟨i, hi, -⟩ | hs)
      · exact ⟨i, hg.arranged.arg i s hi, hi⟩
      · cases hs
    · rintro ⟨i, -, hi⟩
      exact .inl ⟨i, hi, List.not_mem_nil⟩
  · constructor
    · intro hi
      obtain ⟨hop, s, hv, hs⟩ := hg.phis v i hi
      exact ⟨hop, s, by simpa using hs, hv⟩
    · rintro ⟨hop, s, hs, hv⟩
      exact hg.phiArg i s v hop hs List.not_mem_nil hv
  · exact eq_of_numbered hg.arranged.numbered

/-- A phi reads a variable twice. One input is replaced, the phi is copied, and the first one goes. -/
def phiEdits : List Edit :=
  [.newBlock false, .newVar 0 "a", .newVar 1 "b", .newVar 0 "c",
    .newReg ⟨0⟩ none, .newReg ⟨0⟩ none, .newReg ⟨1⟩ none, .newReg ⟨2⟩ none,
    .newInsn { opcode := .phi } (some ⟨3⟩) [], .append ⟨0⟩ ⟨0⟩,
    .addPhiArg ⟨0⟩ ⟨0⟩ ⟨0⟩, .addPhiArg ⟨0⟩ ⟨1⟩ ⟨0⟩, .replaceArg ⟨0⟩ ⟨0⟩ ⟨2⟩, .copyFresh ⟨0⟩,
    .removeInsn ⟨0⟩]

/-- The copy is the only phi left that reads the first variable, through the copy of one input. -/
theorem phiEdits_keep_lists :
    let g := applyAll { cls := "a.Main", name := "pick" } phiEdits
    AllowedAll { cls := "a.Main", name := "pick" } phiEdits ∧
    (∀ i, (g.insn i).opcode = .phi ∧ (∃ s ∈ (g.insn i).args, g.varOf? s = some ⟨0⟩) ↔ i = ⟨1⟩) ∧
    ∀ s, (g.varOf? s = some ⟨0⟩ ∧ ∃ i, (g.site s).owner = some i ∧ s ∈ (g.insn i).args) ↔ s = ⟨5⟩ := by
  intro g
  have hes : AllowedAll { cls := "a.Main", name := "pick" } phiEdits := by decide +kernel
  have hphi : (g.var ⟨0⟩).phis = [⟨1⟩] := by decide +kernel
  have huse : (g.var ⟨0⟩).uses = [⟨5⟩] := by decide +kernel
  obtain ⟨huses, -, hphis, -⟩ := edits_keep_lists "a.Main" "pick" hes
  refine ⟨hes, fun i => ?_, fun s => ?_⟩
  · rw [← hphis ⟨0⟩ i, hphi, List.mem_singleton]
  · rw [← huses ⟨0⟩ s, huse, List.mem_singleton]

end TypeRecovery.MethodGraph
