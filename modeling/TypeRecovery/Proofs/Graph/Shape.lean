import Mathlib.Data.List.InsertIdx
import TypeRecovery.Proofs.Graph.Construction

/- The order of the instructions within a block: phis come first, and nothing follows a jump. Both are
   rules about the roles that instructions play, and edits keep roles: what is added is plain code. So
   an edit either leaves the roles of a block as they are, or puts one plain instruction between them.
   Whether the second keeps a rule depends on the neighbour only. A rule can also name the slots whose
   change gives a break of it away. -/
namespace TypeRecovery

/-- The part an instruction plays in the order of its block. -/
inductive Role where
  | phi
  | jump
  | plain
deriving DecidableEq, Repr

def Opcode.role (op : Opcode) : Role :=
  if op = .phi then .phi else if op.isSeparate then .jump else .plain

theorem Opcode.role_eq_phi {op : Opcode} : op.role = .phi ↔ op = .phi := by
  unfold role
  by_cases hphi : op = .phi
  · simp [hphi]
  · cases hsep : op.isSeparate with
    | true => simp [hphi]
    | false => simp [hphi]

theorem Opcode.role_eq_jump {op : Opcode} : op.role = .jump ↔ op.isSeparate = true := by
  cases op with
  | phi => decide
  | _ => simp [role, isSeparate]

/-! ## Rules -/

/-- What may come before what in a block, and slots to watch in the instructions of one role. -/
structure Rule where
  order : Role → Role → Prop
  role : Role
  slots : Option SiteId → List SiteId → List SiteId
  /-- Plain code is not watched. -/
  special : role ≠ .plain
  /-- What has a successor may have plain code after it. -/
  spread {x y : Role} : order x y → order x .plain
  /-- Only a jump can forbid plain code after it. -/
  follow {x : Role} : x ≠ .jump → order x .plain
  /-- Only a phi can forbid plain code before it. -/
  lead {x : Role} : x ≠ .phi → order .plain x ∧ ∀ y, order x y → order .plain y

namespace Rule

/-- The phis come first. -/
def phisFirst : Rule where
  order x y := y = .phi → x = .phi
  role := .phi
  slots _ args := args
  special := by decide
  spread _ hplain := by cases hplain
  follow _ hplain := by cases hplain
  lead hx := ⟨fun h => absurd h hx, fun _ hy h => absurd (hy h) hx⟩

/-- Nothing follows a jump. -/
def jumpsLast : Rule where
  order x _ := x ≠ .jump
  role := .jump
  slots result _ := result.toList
  special := by decide
  spread := id
  follow := id
  lead _ := ⟨by decide, fun _ _ => by decide⟩

section
variable (w : Rule)

/-- The rule alone, with no slots to watch. -/
def blind : Rule := { w with slots := fun _ _ => [] }

/-- The watched slots of an instruction. -/
def watched (x : Insn) : List SiteId := w.slots x.result x.args

/-- Plain code may be put before the role. -/
def Before (x : Role) : Prop := w.order .plain x ∧ ∀ y, w.order x y → w.order .plain y

/-- Plain code may be put after the role. -/
def After (x : Role) : Prop := w.order x .plain ∧ ∀ y, w.order x y → w.order .plain y

/-- The arguments of an instruction are not watched. -/
def SparesArgs (x : Role) : Prop := x = w.role → ∀ r l l', w.slots r l = w.slots r l'

/-- The result of an instruction is not watched. -/
def SparesResult (x : Role) : Prop := x = w.role → ∀ r r' l, w.slots r l = w.slots r' l

end

section
variable {w : Rule}

theorem after_plain : w.After .plain := ⟨w.follow (by decide), fun _ => id⟩

theorem after_phisFirst {x : Role} (hx : x ≠ .phi) : phisFirst.After x :=
  ⟨fun h => (by cases h), (phisFirst.lead hx).2⟩

theorem before_jumpsLast (x : Role) : jumpsLast.Before x :=
  ⟨fun h => (by cases h), fun _ _ h => (by cases h)⟩

theorem sparesArgs_plain : w.SparesArgs .plain := fun h => absurd h.symm w.special

theorem sparesResult_plain : w.SparesResult .plain := fun h => absurd h.symm w.special

/-- How a list is ordered after one more item was put into it. -/
theorem pairwise_insertIdx {α : Type} {R : α → α → Prop} {l : List α} {n : Nat} (hn : n ≤ l.length)
    (x : α) : (l.insertIdx n x).Pairwise R ↔
      l.Pairwise R ∧ (∀ y ∈ l.take n, R y x) ∧ ∀ y ∈ l.drop n, R x y := by
  induction l generalizing n with
  | nil =>
    cases Nat.le_zero.mp hn
    simp
  | cons a l ih =>
    cases n with
    | zero => simp [and_comm]
    | succ n =>
      have hn' : n ≤ l.length := Nat.le_of_succ_le_succ hn
      simp only [List.insertIdx_succ_cons, List.pairwise_cons, List.mem_insertIdx hn', ih hn',
        List.take_succ_cons, List.mem_cons, List.drop_succ_cons, forall_eq_or_imp]
      tauto

/-- A list around one of its items. -/
theorem pairwise_at {α : Type} {R : α → α → Prop} {l : List α} {n : Nat} {a : α} (ha : l[n]? = some a)
    (h : l.Pairwise R) : (∀ y ∈ l.take n, R y a) ∧ ∀ y ∈ l.drop (n + 1), R a y := by
  obtain ⟨hlt, rfl⟩ := List.getElem?_eq_some_iff.mp ha
  rw [← List.take_append_drop n l, List.drop_eq_getElem_cons hlt, List.pairwise_append,
    List.pairwise_cons] at h
  obtain ⟨-, ⟨hafter, -⟩, hbefore⟩ := h
  exact ⟨fun y hy => hbefore y hy _ List.mem_cons_self, hafter⟩

variable {l : List Role} {n : Nat} {x : Role}

theorem pairwise_before (hx : l[n]? = some x) (hb : w.Before x) :
    (l.insertIdx n .plain).Pairwise w.order ↔ l.Pairwise w.order := by
  obtain ⟨hlt, hget⟩ := List.getElem?_eq_some_iff.mp hx
  rw [pairwise_insertIdx (Nat.le_of_lt hlt)]
  refine and_iff_left_of_imp fun h => ?_
  obtain ⟨hbefore, hafter⟩ := pairwise_at hx h
  refine ⟨fun y hy => w.spread (hbefore y hy), fun y hy => ?_⟩
  rw [List.drop_eq_getElem_cons hlt, hget] at hy
  rcases List.mem_cons.mp hy with rfl | hy
  · exact hb.1
  · exact hb.2 y (hafter y hy)

theorem pairwise_after (hx : l[n]? = some x) (ha : w.After x) :
    (l.insertIdx (n + 1) .plain).Pairwise w.order ↔ l.Pairwise w.order := by
  obtain ⟨hlt, hget⟩ := List.getElem?_eq_some_iff.mp hx
  rw [pairwise_insertIdx hlt]
  refine and_iff_left_of_imp fun h => ?_
  obtain ⟨hbefore, hafter⟩ := pairwise_at hx h
  refine ⟨fun y hy => ?_, fun y hy => ha.2 y (hafter y hy)⟩
  rw [List.take_succ_eq_append_getElem hlt, hget] at hy
  rcases List.mem_append.mp hy with hy | hy
  · exact w.spread (hbefore y hy)
  · rw [List.mem_singleton.mp hy]
    exact ha.1

theorem pairwise_last (hl : l.getLast? ≠ some .jump) :
    (l.insertIdx l.length .plain).Pairwise w.order ↔ l.Pairwise w.order := by
  rw [pairwise_insertIdx (Nat.le_refl _), List.take_length, List.drop_length]
  refine and_iff_left_of_imp fun h => ⟨fun y hy => ?_, fun y hy => (by cases hy)⟩
  obtain ⟨x, hx⟩ : ∃ x, l.getLast? = some x :=
    Option.ne_none_iff_exists'.mp (List.getLast?_eq_none_iff.not.mpr (List.ne_nil_of_mem hy))
  have hsplit : l.dropLast ++ [x] = l := List.dropLast_append_getLast? x hx
  rw [← hsplit] at h hy
  obtain ⟨-, -, hbefore⟩ := List.pairwise_append.mp h
  rcases List.mem_append.mp hy with hy | hy
  · exact w.spread (hbefore y hy x List.mem_cons_self)
  · rw [List.mem_singleton.mp hy]
    exact w.follow fun hjump => hl (hjump ▸ hx)

end
end Rule

namespace MethodGraph

/-! ## Blocks -/

def role (g : MethodGraph) (i : InsnId) : Role := (g.insn i).opcode.role

/-- The roles of the instructions of a block, in order. -/
def roles (g : MethodGraph) (b : BlockId) : List Role := (g.block b).insns.map g.role

/-- Every block keeps to the rule. -/
def Obeys (g : MethodGraph) (w : Rule) : Prop := ∀ b, (g.roles b).Pairwise w.order

/-- The phis of each block come first. -/
def PhisLead (g : MethodGraph) : Prop :=
  ∀ b, (g.block b).insns.Pairwise fun i j => (g.insn j).opcode = .phi → (g.insn i).opcode = .phi

/-- No instruction follows a jump. -/
def JumpsEnd (g : MethodGraph) : Prop :=
  ∀ b, (g.block b).insns.Pairwise fun i _ => (g.insn i).opcode.isSeparate = false

/-- Every phi has the inputs that it had. -/
def SameInputs (g g' : MethodGraph) : Prop :=
  ∀ i, (g.insn i).opcode = .phi → (g'.insn i).args = (g.insn i).args

/-- Every jump has the result that it had, or none as before. -/
def SameResults (g g' : MethodGraph) : Prop :=
  ∀ i, (g.insn i).opcode.isSeparate = true → (g'.insn i).result = (g.insn i).result

/-- No jump has a result. -/
def JumpsYieldNothing (g : MethodGraph) : Prop :=
  ∀ x ∈ g.insns, x.opcode.isSeparate = true → x.result = none

instance (g : MethodGraph) : Decidable g.JumpsYieldNothing :=
  inferInstanceAs (Decidable (∀ x ∈ g.insns, _))

section
variable {g g' : MethodGraph} {w : Rule} {i x a : InsnId} {b : BlockId} {n : Nat}

theorem forall_block_iff {p : List InsnId → Prop} (hp : p []) :
    (∀ b, p (g.block b).insns) ↔ ∀ b ∈ g.blockIds, p (g.block b).insns := by
  refine ⟨fun h b _ => h b, fun h b => ?_⟩
  by_cases hb : b.index < g.blocks.size
  · exact h b (List.mem_map.mpr ⟨b.index, List.mem_range.mpr hb, rfl⟩)
  · rw [block_of_size_le (Nat.le_of_not_lt hb)]
    exact hp

instance : Decidable g.PhisLead := decidable_of_iff _ (forall_block_iff .nil).symm

instance : Decidable g.JumpsEnd := decidable_of_iff _ (forall_block_iff .nil).symm

theorem phisLead_iff : g.PhisLead ↔ g.Obeys .phisFirst := by
  refine forall_congr' fun b => ?_
  simp only [roles, List.pairwise_map, Rule.phisFirst, role, Opcode.role_eq_phi]

theorem jumpsEnd_iff : g.JumpsEnd ↔ g.Obeys .jumpsLast := by
  refine forall_congr' fun b => ?_
  simp only [roles, List.pairwise_map, Rule.jumpsLast, role, ne_eq, Opcode.role_eq_jump,
    Bool.not_eq_true]

theorem jumpsYieldNothing_iff : g.JumpsYieldNothing ↔
    ∀ i, g.role i = .jump → Rule.jumpsLast.watched (g.insn i) = [] := by
  simp only [role, Opcode.role_eq_jump, Rule.watched, Rule.jumpsLast, Option.toList_eq_nil_iff]
  constructor
  · intro h i hi
    by_cases hlt : i.index < g.insns.size
    · refine h _ ?_ hi
      simp [insn, hlt]
    · rw [insn_of_size_le (Nat.le_of_not_lt hlt)]
      rfl
  · intro h x hx
    obtain ⟨n, hn, rfl⟩ := Array.mem_iff_getElem.mp hx
    simpa [insn, hn] using h ⟨n⟩

theorem sameInputs_iff : SameInputs g g' ↔ ∀ i, g.role i = .phi →
    Rule.phisFirst.watched (g'.insn i) = Rule.phisFirst.watched (g.insn i) := by
  simp only [role, Opcode.role_eq_phi]
  rfl

theorem sameResults_iff : SameResults g g' ↔ ∀ i, g.role i = .jump →
    Rule.jumpsLast.watched (g'.insn i) = Rule.jumpsLast.watched (g.insn i) := by
  simp only [role, Opcode.role_eq_jump]
  refine forall₂_congr fun i _ => ⟨fun h => congrArg Option.toList h, fun h => ?_⟩
  have hhead := congrArg List.head? h
  simpa [Rule.watched, Rule.jumpsLast] using hhead

/-- What is beyond the table is plain. -/
theorem role_of_size_le (h : g.insns.size ≤ i.index) : g.role i = .plain := by
  rw [role, insn_of_size_le h]
  rfl

/-! ## Edits that place nothing -/

/-- Roles and watched slots stay. -/
structure Steady (w : Rule) (g g' : MethodGraph) : Prop where
  role : ∀ i, g'.role i = g.role i
  slots : ∀ i, g.role i = w.role → w.watched (g'.insn i) = w.watched (g.insn i)
  grows : g.sites.size ≤ g'.sites.size

/-- Also the roles of every block stay. -/
structure Still (w : Rule) (g g' : MethodGraph) : Prop extends Steady w g g' where
  roles : ∀ b, g'.roles b = g.roles b

/-- The rule is kept or broken as before. -/
structure Calm (w : Rule) (g g' : MethodGraph) : Prop extends Steady w g g' where
  obeys : g'.Obeys w ↔ g.Obeys w

theorem Steady.trans {g'' : MethodGraph} (h : Steady w g g') (h' : Steady w g' g'') :
    Steady w g g'' :=
  ⟨fun i => (h'.role i).trans (h.role i),
    fun i hi => (h'.slots i ((h.role i).trans hi)).trans (h.slots i hi), Nat.le_trans h.grows h'.grows⟩

instance (w : Rule) : IsPreorder MethodGraph (Still w) where
  refl _ := ⟨⟨fun _ => rfl, fun _ _ => rfl, Nat.le_refl _⟩, fun _ => rfl⟩
  trans _ _ _ h h' := ⟨h.toSteady.trans h'.toSteady, fun b => (h'.roles b).trans (h.roles b)⟩

instance (w : Rule) : IsPreorder MethodGraph (Calm w) where
  refl _ := ⟨⟨fun _ => rfl, fun _ _ => rfl, Nat.le_refl _⟩, Iff.rfl⟩
  trans _ _ _ h h' := ⟨h.toSteady.trans h'.toSteady, h'.obeys.trans h.obeys⟩

theorem Still.trans {g'' : MethodGraph} (h : Still w g g') (h' : Still w g' g'') : Still w g g'' :=
  trans_of (Still w) h h'

theorem Calm.trans {g'' : MethodGraph} (h : Calm w g g') (h' : Calm w g' g'') : Calm w g g'' :=
  trans_of (Calm w) h h'

theorem Still.calm (h : Still w g g') : Calm w g g' := by
  refine ⟨h.toSteady, forall_congr' fun b => ?_⟩
  rw [h.roles]

theorem still_of_insn (hblocks : g'.blocks = g.blocks) (hsites : g.sites.size ≤ g'.sites.size)
    (hrole : ∀ i, g'.role i = g.role i)
    (hslots : ∀ i, g.role i = w.role → w.watched (g'.insn i) = w.watched (g.insn i)) :
    Still w g g' := by
  refine ⟨⟨hrole, hslots, hsites⟩, fun b => ?_⟩
  rw [roles, roles, show g'.block b = g.block b by rw [block, block, hblocks], funext hrole]

theorem still_of_same (hinsns : g'.insns = g.insns) (hblocks : g'.blocks = g.blocks)
    (hsites : g.sites.size ≤ g'.sites.size) : Still w g g' :=
  still_of_insn hblocks hsites (fun i => by rw [role, role, insn_congr hinsns])
    fun i _ => by rw [insn_congr hinsns]

theorem Framed.still (h : Framed g g') : Still w g g' :=
  still_of_same h.insns h.blocks (Nat.le_of_eq h.size.symm)

theorem still_updateInsn (i : InsnId) (f : Insn → Insn) (hop : ∀ x, (f x).opcode = x.opcode)
    (hslots : g.role i = w.role → ∀ x, w.watched (f x) = w.watched x) :
    Still w g (g.updateInsn i f) := by
  refine still_of_insn rfl (Nat.le_refl _) (fun j => ?_) fun j hj => ?_
  · rw [role, role, insn_updateInsn]
    split
    · rw [hop]
    · rfl
  · rw [insn_updateInsn]
    split
    · next h =>
      rw [h.1] at hslots
      exact hslots hj _
    · rfl

theorem still_updateSite (s : SiteId) (f : Site → Site) : Still w g (g.updateSite s f) :=
  still_of_same rfl rfl (Nat.le_of_eq (size_updateSite g s f).symm)

theorem still_newSite (x : Site) : Still w g (g.newSite x).2 :=
  still_of_same rfl rfl (edited_newSite x).grows

theorem still_duplicate (s : SiteId) : Still w g (g.duplicate s).2 := still_newSite _

theorem still_duplicateFresh (s : SiteId) : Still w g (g.duplicateFresh s).2 := by
  unfold duplicateFresh
  split
  · exact still_of_same rfl rfl (edited_newSite _).grows
  · exact still_newSite _

theorem still_newInsn {x : Insn} (hx : x.opcode.role = .plain) : Still w g (g.newInsn x).2 := by
  have hold : g.role (g.newInsn x).1 = .plain := role_of_size_le (Nat.le_refl _)
  refine still_of_insn rfl (Nat.le_refl _) (fun j => ?_) fun j hj => ?_
  · rw [role, insn_newInsn]
    split
    · next h => rw [hx, h, hold]
    · rfl
  · rw [insn_newInsn, if_neg]
    rintro rfl
    exact w.special (hj.symm.trans hold)

theorem still_linkUse (i : InsnId) (s : SiteId) : Still w g (g.linkUse i s) := by
  obtain ⟨hinsns, hsites, hblocks, -⟩ := same_linkUse (g := g) i s
  exact still_of_same hinsns hblocks (Nat.le_of_eq (by rw [hsites]))

theorem still_unlinkUse (i : InsnId) (s : SiteId) : Still w g (g.unlinkUse i s) := by
  obtain ⟨hinsns, hsites, hblocks, -⟩ := same_unlinkUse (g := g) i s
  exact still_of_same hinsns hblocks (Nat.le_of_eq (by rw [hsites]))

theorem still_addArg (hi : w.SparesArgs (g.role i)) (s : SiteId) : Still w g (g.addArg i s) := by
  have hown := still_updateSite (w := w) (g := g) s fun x => { x with owner := some i }
  have harg := still_updateInsn (w := w) (g := g.updateSite s fun x => { x with owner := some i }) i
    (fun x => { x with args := x.args ++ [s] }) (fun _ => rfl) fun h _ => hi h _ _ _
  exact hown.trans (harg.trans (still_linkUse i s))

theorem still_addArgs (hi : w.SparesArgs (g.role i)) (args : List SiteId) :
    Still w g (args.foldl (fun g s => g.addArg i s) g) := by
  refine List.foldlRecOn args _ (refl_of (Still w) g) fun g₁ h s _ => h.trans (still_addArg ?_ s)
  rw [h.role]
  exact hi

theorem still_setResult (hi : w.SparesResult (g.role i)) (r : Option SiteId) :
    Still w g (g.setResult i r) := by
  obtain ⟨hinsns, -, hblocks, -, hsites⟩ := same_disown (g := g) i
  have hdisown : Still w g (g.disown i) := still_of_same hinsns hblocks (Nat.le_of_eq hsites.symm)
  have hwrite : Still w g ((g.disown i).updateInsn i fun x => { x with result := r }) := by
    refine hdisown.trans (still_updateInsn i _ (fun _ => rfl) fun h _ => ?_)
    rw [hdisown.role] at h
    exact hi h _ _ _
  cases r with
  | none => exact hwrite
  | some s =>
    have henter : Still w g ((g.disown i).enter i s) := hwrite.trans (still_updateSite s _)
    obtain ⟨hinsns, hsites, hblocks, -⟩ := same_define (g := (g.disown i).enter i s) s
    rw [setResult_some]
    exact henter.trans (still_of_same hinsns hblocks (Nat.le_of_eq (by rw [hsites])))

theorem still_replaceArg (hi : w.SparesArgs (g.role i)) (old new : SiteId) :
    Still w g (g.replaceArg i old new).2 := by
  unfold replaceArg
  split
  · exact refl_of (Still w) g
  · next n _ =>
    have hset := still_updateInsn (w := w) (g := g) i (fun x => { x with args := x.args.set n new })
      (fun _ => rfl) fun h _ => hi h _ _ _
    exact hset.trans ((still_updateSite new _).trans ((still_updateSite old _).trans
      ((still_unlinkUse i old).trans (still_linkUse i new))))

theorem mem_args_replaceArg {old : SiteId} (h : old ∈ (g.insn i).args) (new : SiteId) :
    new ∈ ((g.replaceArg i old new).2.insn i).args := by
  have hi : i.index < g.insns.size := by
    rw [← Nat.not_le]
    intro hle
    rw [insn_of_size_le hle] at h
    cases h
  obtain ⟨n, hn, -⟩ := replaceArg_of_mem h new
  obtain ⟨hlt, -⟩ := List.idxOf?_eq_some_iff.mp hn
  unfold replaceArg
  rw [hn]
  simp only
  rw [insn_congr (same_linkUse i new).1, insn_congr (same_unlinkUse i old).1]
  change new ∈ ((g.updateInsn i _).insn i).args
  rw [insn_updateInsn, if_pos ⟨rfl, hi⟩]
  exact List.mem_set hlt new

theorem insn_replaceArg_of_ne {j : InsnId} (hj : j ≠ i) (old new : SiteId) :
    (g.replaceArg i old new).2.insn j = g.insn j := by
  unfold replaceArg
  split
  · rfl
  · simp only
    rw [insn_congr (same_linkUse i new).1, insn_congr (same_unlinkUse i old).1]
    change (g.updateInsn i _).insn j = _
    rw [insn_updateInsn, if_neg fun h => hj h.1.symm]

/-- An argument gives way to a new site. -/
theorem still_swapArg (hi : w.SparesArgs (g.role i)) (old : SiteId) (x : Site) :
    Still w g ((g.newSite x).2.replaceArg i old (g.newSite x).1).2 :=
  (still_newSite x).trans (still_replaceArg (by rwa [(still_newSite (w := w) x).role]) old _)

theorem still_buildInsn {x : Insn} (hx : x.opcode.role = .plain) (r : Option SiteId)
    (args : List SiteId) : Still w g (g.buildInsn x r args).2 := by
  have hnew := still_newInsn (w := w) (g := g) hx
  have hplain : g.role ⟨g.insns.size⟩ = .plain := role_of_size_le (Nat.le_refl _)
  have hresult : Still w g (if r.isSome then (g.newInsn x).2.setResult ⟨g.insns.size⟩ r
      else (g.newInsn x).2) := by
    split
    · refine hnew.trans (still_setResult ?_ r)
      rw [hnew.role, hplain]
      exact Rule.sparesResult_plain
    · exact hnew
  refine hresult.trans (still_addArgs ?_ args)
  rw [hresult.role, hplain]
  exact Rule.sparesArgs_plain

theorem role_buildInsn {x : Insn} (hx : x.opcode.role = .plain) (r : Option SiteId)
    (args : List SiteId) : (g.buildInsn x r args).2.role (g.buildInsn x r args).1 = .plain := by
  rw [(still_buildInsn (w := .phisFirst) hx r args).role]
  exact role_of_size_le (Nat.le_refl _)

/-- An instruction that reads a copy of a site and defines a fresh variable. -/
theorem still_feed {x : Insn} (hx : x.opcode.role = .plain) (s : SiteId) :
    let (result, g₁) := g.duplicateFresh s
    let (source, g₁) := g₁.duplicate s
    let (new, g₁) := g₁.buildInsn x (some result) [source]
    Still w g g₁ ∧ g₁.role new = .plain := by
  have hfresh := still_duplicateFresh (w := w) (g := g) s
  simp only
  generalize (g.duplicateFresh s).1 = result
  generalize (g.duplicateFresh s).2 = g₁ at hfresh ⊢
  have hsource := hfresh.trans (still_duplicate s)
  generalize (g₁.duplicate s).1 = source
  generalize (g₁.duplicate s).2 = g₂ at hsource ⊢
  exact ⟨hsource.trans (still_buildInsn hx _ _), role_buildInsn hx _ _⟩

theorem still_copyFresh (hi : g.role i = .plain) : Still w g (g.copyFresh i).2 := by
  obtain ⟨x, -, hop, g₁, hg₁, hcopy⟩ := copyFresh_eq (g := g) i
  have hplain : g.role ⟨g.insns.size⟩ = .plain := role_of_size_le (Nat.le_refl _)
  have hargs : Still w g g₁ := by
    rw [hg₁]
    refine List.foldlRecOn _ _ (still_newInsn (by rw [hop]; exact hi)) fun g₂ h₂ s _ => ?_
    have hdup := h₂.trans (still_duplicate s)
    refine hdup.trans (still_addArg ?_ _)
    rw [hdup.role, hplain]
    exact Rule.sparesArgs_plain
  rw [hcopy]
  cases (g.insn i).result with
  | none => exact hargs
  | some r =>
    have hdup := hargs.trans (still_duplicateFresh r)
    have hspared : w.SparesResult ((g₁.duplicateFresh r).2.role ⟨g.insns.size⟩) := by
      rw [hdup.role, hplain]
      exact Rule.sparesResult_plain
    exact hdup.trans (still_setResult hspared (some (g₁.duplicateFresh r).1))

/-! ## Edits that place an instruction -/

theorem block_updateBlock (b d : BlockId) (f : Block → Block) : (g.updateBlock b f).block d =
    if b = d ∧ d.index < g.blocks.size then f (g.block d) else g.block d := by
  obtain ⟨n⟩ := b
  obtain ⟨m⟩ := d
  simp only [updateBlock, block, getD_modify, BlockId.mk.injEq]

/-- The index of an instruction in its block is that of its role. -/
theorem roles_of_place? (h : g.place? a = some (b, n)) :
    b.index < g.blocks.size ∧ (g.roles b)[n]? = some (g.role a) := by
  obtain ⟨d, -, hd⟩ := Option.bind_eq_some_iff.mp h
  obtain ⟨m, hm, heq⟩ := Option.map_eq_some_iff.mp hd
  cases heq
  obtain ⟨hlt, hget, -⟩ := List.idxOf?_eq_some_iff.mp hm
  have hat : (g.block b).insns[n]? = some a := by
    rw [List.getElem?_eq_some_iff]
    exact ⟨hlt, by simpa using hget⟩
  refine ⟨?_, by rw [roles, List.getElem?_map, hat, Option.map_some]⟩
  rw [← Nat.not_le]
  intro hle
  rw [block_of_size_le hle] at hlt
  exact Nat.not_lt_zero _ hlt

/-- Putting an instruction into a block changes its place only. -/
theorem steady_insertAt (b : BlockId) (n : Nat) (x : InsnId) : Steady w g (g.insertAt b n x) := by
  have hinsn : ∀ j, ((g.insertAt b n x).insn j).opcode = (g.insn j).opcode ∧
      w.watched ((g.insertAt b n x).insn j) = w.watched (g.insn j) := by
    intro j
    unfold insertAt
    rw [insn_updateInsn]
    split
    · exact ⟨rfl, rfl⟩
    · exact ⟨rfl, rfl⟩
  exact ⟨fun j => congrArg Opcode.role (hinsn j).1, fun j _ => (hinsn j).2, Nat.le_refl _⟩

theorem roles_insertAt (hx : g.role x = .plain) (d : BlockId) : (g.insertAt b n x).roles d =
    if b = d ∧ d.index < g.blocks.size then (g.roles d).insertIdx n .plain else g.roles d := by
  have hblock : (g.insertAt b n x).block d =
      (g.updateBlock b fun y => { y with insns := y.insns.insertIdx n x }).block d := rfl
  rw [roles, hblock, block_updateBlock, funext (steady_insertAt (w := .phisFirst) b n x).role]
  split
  · rw [List.map_insertIdx, hx, roles]
  · rfl

/-- The rule is about the block only into which the instruction is put. -/
theorem calm_insertAt (hx : g.role x = .plain)
    (h : ((g.roles b).insertIdx n .plain).Pairwise w.order ↔ (g.roles b).Pairwise w.order) :
    Calm w g (g.insertAt b n x) := by
  refine ⟨steady_insertAt b n x, forall_congr' fun d => ?_⟩
  rw [roles_insertAt hx]
  split
  · next hd =>
    rw [← hd.1]
    exact h
  · rfl

theorem calm_insertBefore (hx : g.role x = .plain) (ha : w.Before (g.role a)) :
    Calm w g (g.insertBefore a x).2 := by
  unfold insertBefore
  split
  · exact refl_of (Calm w) g
  · next b n hp => exact calm_insertAt hx (Rule.pairwise_before (roles_of_place? hp).2 ha)

theorem calm_insertAfter (hx : g.role x = .plain) (ha : w.After (g.role a)) :
    Calm w g (g.insertAfter a x).2 := by
  unfold insertAfter
  split
  · exact refl_of (Calm w) g
  · next b n hp => exact calm_insertAt hx (Rule.pairwise_after (roles_of_place? hp).2 ha)

theorem calm_append (hx : g.role x = .plain) (hb : (g.roles b).getLast? ≠ some .jump) :
    Calm w g (g.append b x) := by
  refine calm_insertAt hx ?_
  have hlen : (g.block b).insns.length = (g.roles b).length := (List.length_map _).symm
  rw [hlen]
  exact Rule.pairwise_last hb

/-- Where the rule holds after an instruction was put into a block, it allows it there. -/
theorem order_of_insertAt (hx : g.role x = .plain) (hb : b.index < g.blocks.size)
    (hn : n ≤ (g.roles b).length) (h : (g.insertAt b n x).Obeys w) :
    (∀ y ∈ (g.roles b).take n, w.order y .plain) ∧ ∀ y ∈ (g.roles b).drop n, w.order .plain y := by
  have hd := h b
  rw [roles_insertAt hx, if_pos ⟨rfl, hb⟩, Rule.pairwise_insertIdx hn] at hd
  exact hd.2

theorem order_of_insertBefore (hx : g.role x = .plain) (hp : g.place? a = some (b, n))
    (h : (g.insertBefore a x).2.Obeys w) : w.order .plain (g.role a) := by
  obtain ⟨hb, hn⟩ := roles_of_place? hp
  obtain ⟨hlt, hget⟩ := List.getElem?_eq_some_iff.mp hn
  rw [insertBefore, hp] at h
  refine (order_of_insertAt hx hb (Nat.le_of_lt hlt) h).2 _ ?_
  rw [List.drop_eq_getElem_cons hlt, hget]
  exact List.mem_cons_self

theorem order_of_insertAfter (hx : g.role x = .plain) (hp : g.place? a = some (b, n))
    (h : (g.insertAfter a x).2.Obeys w) : w.order (g.role a) .plain := by
  obtain ⟨hb, hn⟩ := roles_of_place? hp
  obtain ⟨hlt, hget⟩ := List.getElem?_eq_some_iff.mp hn
  rw [insertAfter, hp] at h
  refine (order_of_insertAt hx hb hlt h).1 _ ?_
  rw [List.take_succ_eq_append_getElem hlt, hget]
  exact List.mem_append_right _ List.mem_cons_self

/-- Plain code in the place of plain code. -/
theorem still_replaceInsn {old new : InsnId} (hold : g.role old = .plain) (hnew : g.role new = .plain) :
    Still w g (g.replaceInsn old new).2 := by
  unfold replaceInsn
  split
  · exact refl_of (Still w) g
  next b n hp =>
  obtain ⟨-, hn⟩ := roles_of_place? hp
  have hclear : Still w g (g.updateInsn old fun x => { x with args := [] }) :=
    still_updateInsn old _ (fun _ => rfl) fun h => absurd (h.symm.trans hold) w.special
  have hrelease : Still w g ((g.insn old).args.foldl (fun g s =>
      if (g.site s).owner = some old then g.release old s else g)
      (g.updateInsn old fun x => { x with args := [] })) := by
    refine List.foldlRecOn _ _ hclear fun g₁ h₁ s _ => ?_
    split
    · exact h₁.trans ((still_unlinkUse old s).trans (still_updateSite s _))
    · exact h₁
  simp only
  generalize (g.insn old).args.foldl _ _ = g₁ at hrelease ⊢
  have hplace : ∀ (g₂ : MethodGraph) (i : InsnId) (d : Option BlockId),
      Still w g₂ (g₂.updateInsn i fun x => { x with block := d }) := fun g₂ i d =>
    still_updateInsn i _ (fun _ => rfl) fun _ _ => rfl
  -- the list of roles is written with what stood there
  have hset : Still w g (g₁.updateBlock b fun x => { x with insns := x.insns.set n new }) := by
    refine ⟨⟨hrelease.role, hrelease.slots, hrelease.grows⟩, fun d => ?_⟩
    rw [← hrelease.roles]
    change ((g₁.updateBlock b _).block d).insns.map g₁.role = _
    rw [block_updateBlock]
    split
    · next hd =>
      obtain ⟨rfl, -⟩ := hd
      rw [← hrelease.roles] at hn
      obtain ⟨hlt, hget⟩ := List.getElem?_eq_some_iff.mp hn
      rw [List.map_set, hrelease.role, hnew, ← hold, ← hget]
      exact List.set_getElem_self hlt
    · rfl
  exact hset.trans ((hplace _ new (some b)).trans (hplace _ old none))

/-! ## Traces -/

/-- The step keeps or breaks the rule as it was, or it breaks the rule and gives that away: a watched
    instruction has a slot that is new. -/
structure Traced (w : Rule) (g g' : MethodGraph) : Prop where
  role : ∀ i, g'.role i = g.role i
  grows : g.sites.size ≤ g'.sites.size
  empty : ∀ i, g.role i = w.role → w.watched (g.insn i) = [] → w.watched (g'.insn i) = []
  outcome : ((∀ i, g.role i = w.role → w.watched (g'.insn i) = w.watched (g.insn i)) ∧
      (g'.Obeys w ↔ g.Obeys w)) ∨
    ((∃ i, g.role i = w.role ∧ ∃ s ∈ w.watched (g'.insn i), ¬g.Holds s) ∧ ¬g'.Obeys w)

theorem Calm.traced (h : Calm w g g') : Traced w g g' :=
  ⟨h.role, h.grows, fun i hi he => (h.slots i hi).trans he, .inl ⟨h.slots, h.obeys⟩⟩

theorem Traced.trans {g'' : MethodGraph} (h : Traced w g g') (h' : Traced w g' g'') :
    Traced w g g'' := by
  refine ⟨fun i => (h'.role i).trans (h.role i), Nat.le_trans h.grows h'.grows,
    fun i hi he => h'.empty i ((h.role i).trans hi) (h.empty i hi he), ?_⟩
  rcases h'.outcome with ⟨hsame', hobeys'⟩ | ⟨⟨i, hi, s, hs, hnew⟩, hbroken⟩
  · rcases h.outcome with ⟨hsame, hobeys⟩ | ⟨⟨i, hi, s, hs, hnew⟩, hbroken⟩
    · exact .inl ⟨fun i hi => (hsame' i ((h.role i).trans hi)).trans (hsame i hi),
        hobeys'.trans hobeys⟩
    · refine .inr ⟨⟨i, hi, s, ?_, hnew⟩, fun hobeys => hbroken (hobeys'.mp hobeys)⟩
      rw [hsame' i ((h.role i).trans hi)]
      exact hs
  · refine .inr ⟨⟨i, (h.role i).symm.trans hi, s, hs, fun hheld => hnew ?_⟩, hbroken⟩
    exact Nat.lt_of_lt_of_le hheld h.grows

/-- A step breaks the rule, and one watched instruction has a new slot. -/
theorem traced_of_break (hrole : ∀ j, g'.role j = g.role j) (hgrows : g.sites.size ≤ g'.sites.size)
    (hrest : ∀ j, j ≠ i → g.role j = w.role → w.watched (g'.insn j) = w.watched (g.insn j))
    (hi : g.role i = w.role) (hne : w.watched (g.insn i) ≠ []) {s : SiteId}
    (hs : s ∈ w.watched (g'.insn i)) (hnew : ¬g.Holds s) (hbroken : ¬g'.Obeys w) : Traced w g g' := by
  refine ⟨hrole, hgrows, fun j hj he => ?_, .inr ⟨⟨i, hi, s, hs, hnew⟩, hbroken⟩⟩
  have hji : j ≠ i := by
    rintro rfl
    exact hne he
  rw [hrest j hji hj, he]

instance (w : Rule) : IsPreorder MethodGraph (Traced w) where
  refl g := (refl_of (Calm w) g).traced
  trans _ _ _ := Traced.trans

/-- The rule holds afterwards if and only if it held before and the watched slots are the same. -/
theorem Traced.obeys_iff (h : Traced w g g')
    (hheld : ∀ i, g.role i = w.role → ∀ s ∈ w.watched (g.insn i), g.Holds s) :
    g'.Obeys w ↔ g.Obeys w ∧ ∀ i, g.role i = w.role → w.watched (g'.insn i) = w.watched (g.insn i) := by
  rcases h.outcome with ⟨hsame, hobeys⟩ | ⟨⟨i, hi, s, hs, hnew⟩, hbroken⟩
  · rw [hobeys]
    exact (and_iff_left hsame).symm
  · refine ⟨fun hobeys => absurd hobeys hbroken, fun hboth => absurd ?_ hnew⟩
    rw [hboth.2 i hi] at hs
    exact hheld i hi s hs

end
end MethodGraph
end TypeRecovery
