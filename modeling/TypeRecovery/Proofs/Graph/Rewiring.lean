import TypeRecovery.Proofs.Graph.Wiring

/- Each edit of a wired graph leaves it wired. For every edit there are first equations that read the
   tables after it, then the lemma that says what the edit asks for, and which instructions and
   variables it leaves open. -/
namespace TypeRecovery

/-! ## Lists with one entry replaced -/

section
variable {α : Type} [DecidableEq α] {l : List α} {old new a : α} {n : Nat}

theorem mem_set_idxOf (hl : l.Nodup) (hn : l.idxOf? old = some n) :
    a ∈ l.set n new ↔ a = new ∨ (a ∈ l ∧ a ≠ old) := by
  obtain ⟨hlt, hat, -⟩ := List.idxOf?_eq_some_iff.mp hn
  constructor
  · intro ha
    obtain ⟨m, hm, rfl⟩ := List.getElem_of_mem ha
    rw [List.getElem_set]
    rw [List.length_set] at hm
    split
    · exact .inl rfl
    · next hne =>
      refine .inr ⟨List.getElem_mem hm, fun heq => hne ?_⟩
      exact (List.Nodup.getElem_inj_iff hl).mp (hat.trans heq.symm)
  · rintro (rfl | ⟨ha, hne⟩)
    · exact List.mem_set hlt a
    · obtain ⟨m, hm, rfl⟩ := List.getElem_of_mem ha
      have hnm : n ≠ m := by
        rintro rfl
        exact hne hat
      rw [← List.getElem_set_ne hnm (a := new) (by simpa using hm)]
      exact List.getElem_mem _

theorem mem_of_idxOf (hn : l.idxOf? old = some n) : old ∈ l := by
  obtain ⟨hlt, rfl, -⟩ := List.idxOf?_eq_some_iff.mp hn
  exact List.getElem_mem hlt

end

namespace MethodGraph

section
variable {g : MethodGraph} {P U : Set VarId} {F : Set InsnId}

/-! ## Entries that are there -/

theorem site_set {s : SiteId} (hs : g.Holds s) (f : Site → Site) (u : SiteId) :
    (g.updateSite s f).site u = if u = s then f (g.site u) else g.site u := by
  rw [site_updateSite]
  by_cases h : u = s
  · subst h
    simp [show u.index < g.sites.size from hs]
  · simp [h, Ne.symm h]

theorem insn_set {i : InsnId} (hi : i.index < g.insns.size) (f : Insn → Insn) (j : InsnId) :
    (g.updateInsn i f).insn j = if j = i then f (g.insn j) else g.insn j := by
  rw [insn_updateInsn]
  by_cases h : j = i
  · subst h
    simp [hi]
  · simp [h, Ne.symm h]

theorem var_set {v : VarId} (hv : v.index < g.vars.size) (f : Var → Var) (w : VarId) :
    (g.updateVar v f).var w = if w = v then f (g.var w) else g.var w := by
  rw [var_updateVar]
  by_cases h : w = v
  · subst h
    simp [hv]
  · simp [h, Ne.symm h]

theorem block_set {b : BlockId} (hb : b.index < g.blocks.size) (f : Block → Block) (d : BlockId) :
    (g.updateBlock b f).block d = if d = b then f (g.block d) else g.block d := by
  obtain ⟨n⟩ := b
  obtain ⟨m⟩ := d
  simp only [updateBlock, block, getD_modify, BlockId.mk.injEq]
  by_cases h : m = n
  · subst h
    simp [show m < g.blocks.size from hb]
  · simp [h, Ne.symm h]

theorem owner_set {s : SiteId} (hs : g.Holds s) (o : Option InsnId) (u : SiteId) :
    ((g.updateSite s fun x => { x with owner := o }).site u).owner =
      if u = s then o else (g.site u).owner := by
  rw [site_set hs]
  split <;> rfl

theorem varOf?_setOwner (s : SiteId) (o : Option InsnId) (u : SiteId) :
    (g.updateSite s fun x => { x with owner := o }).varOf? u = g.varOf? u :=
  varOf?_congr (g.updateSite_same (f := fun x => { x with owner := o }) Site.operand (fun _ => rfl) u)

theorem insn_congr {g' : MethodGraph} (h : g'.insns = g.insns) (i : InsnId) : g'.insn i = g.insn i := by
  rw [insn, insn, h]

theorem site_congr {g' : MethodGraph} (h : g'.sites = g.sites) (s : SiteId) : g'.site s = g.site s := by
  rw [site, site, h]

/-! ## New entries -/

theorem var_newVar (reg : Int) (name : String) (w : VarId) : (g.newVar reg name).2.var w =
    if w = (g.newVar reg name).1 then { reg, version := g.versionsOf reg, name } else g.var w := by
  obtain ⟨n⟩ := w
  simp only [newVar, VarId.mk.injEq]
  exact getD_push _ _ _ _

theorem wired_newVar (h : g.Wired P F U) (reg : Int) (name : String) :
    (g.newVar reg name).2.Wired P F (insert (g.newVar reg name).1 U) := by
  have hvar := var_newVar (g := g) reg name
  have hsize : (g.newVar reg name).2.vars.size = g.vars.size + 1 := Array.size_push _
  -- no site of the table names the new variable
  have hunread : ∀ s, g.Holds s → g.varOf? s ≠ some (g.newVar reg name).1 := fun s hs hv =>
    Nat.lt_irrefl _ (h.names.var s _ hs hv)
  have hargs := fun i s hs => hunread s (h.slots.holds_arg (i := i) hs)
  refine ⟨⟨h.slots.arg, h.slots.once, h.slots.owned, ?_, ?_⟩, ⟨?_, ?_, ?_, ?_⟩,
    ⟨h.seats.block, h.seats.once, h.seats.preds, h.seats.incoming, h.seats.paired⟩, ⟨?_, ?_⟩,
    fun i hi => ⟨(h.tight i hi).args, (h.tight i hi).result⟩, ?_⟩
  · intro i s hs
    obtain ⟨v, hv, ha⟩ := h.slots.result i s hs
    have hne := hunread s (h.slots.holds_result hs)
    refine ⟨v, hv, ?_⟩
    rw [hvar, if_neg]
    · exact ha
    · rintro rfl
      exact hne hv
  · intro v s hs
    rw [hvar] at hs
    split at hs
    · cases hs
    · exact h.slots.assign v s hs
  · intro v s
    have huses := h.lists.uses v s
    rw [hvar]
    split
    · next hv =>
      subst hv
      refine ⟨fun hs => (by cases hs), fun ⟨hv, i, hs⟩ => absurd hv (hargs i s hs)⟩
    · exact huses
  · intro v
    rw [hvar]
    split
    · exact List.nodup_nil
    · exact h.lists.usesOnce v
  · intro v i
    have hphis := h.lists.phis v i
    rw [hvar]
    split
    · next hv =>
      subst hv
      refine ⟨fun hi => (by cases hi), fun ⟨_, s, hs, hv⟩ => absurd hv (hargs i s hs)⟩
    · exact hphis
  · intro v
    rw [hvar]
    split
    · exact List.nodup_nil
    · exact h.lists.phisOnce v
  · rw [hsize, List.range_succ, List.map_append, ← h.names.live]
    rfl
  · intro s v hs hv
    rw [hsize]
    exact Nat.lt_succ_of_lt (h.names.var s v hs hv)
  · intro v hv hU
    rw [Set.mem_insert_iff, not_or] at hU
    obtain ⟨n⟩ := v
    have hn : n ≠ g.vars.size := fun hn => hU.1 (congrArg VarId.mk hn)
    rw [hsize] at hv
    have hold := h.defined ⟨n⟩ (Nat.lt_of_le_of_ne (Nat.le_of_lt_succ hv) hn) hU.2
    exact hold.congr (by rw [hvar, if_neg hU.1]) fun _ _ => id

/-- The site belongs to no instruction and defines no variable. -/
structure Free (g : MethodGraph) (s : SiteId) : Prop where
  held : g.Holds s
  owner : (g.site s).owner = none
  assign : ∀ v, (g.var v).assign ≠ some s

theorem site_newSite (x : Site) (u : SiteId) :
    (g.newSite x).2.site u = if u = (g.newSite x).1 then x else g.site u := by
  obtain ⟨n⟩ := u
  simp only [newSite, SiteId.mk.injEq]
  exact getD_push _ _ _ _

theorem not_holds_newSite (x : Site) : ¬g.Holds (g.newSite x).1 := Nat.lt_irrefl _

theorem varOf?_newSite {x : Site} {s : SiteId} (hs : g.Holds s) :
    (g.newSite x).2.varOf? s = g.varOf? s := by
  apply varOf?_congr
  rw [site_newSite, if_neg]
  rintro rfl
  exact not_holds_newSite x hs

theorem holds_of_newSite {x : Site} {s : SiteId} (hs : (g.newSite x).2.Holds s) :
    s = (g.newSite x).1 ∨ g.Holds s := by
  obtain ⟨n⟩ := s
  have hsize : (g.newSite x).2.sites.size = g.sites.size + 1 := Array.size_push _
  rw [Holds, hsize] at hs
  rcases Nat.lt_succ_iff_lt_or_eq.mp hs with hs | hs
  · exact .inr hs
  · exact .inl (congrArg SiteId.mk hs)

theorem wired_newSite (h : g.Wired P F U) {x : Site} (ho : x.owner = none)
    (hv : ∀ v, x.operand = .reg v → v.index < g.vars.size) : (g.newSite x).2.Wired P F U := by
  have howner : ∀ u, ((g.newSite x).2.site u).owner = (g.site u).owner := by
    intro u
    rw [site_newSite]
    split
    · next hu =>
      rw [ho, site_of_size_le (Nat.le_of_eq (congrArg SiteId.index hu).symm)]
      rfl
    · rfl
  have hvarOf : ∀ {u}, g.Holds u → (g.newSite x).2.varOf? u = g.varOf? u := varOf?_newSite
  have hgrows : ∀ {u}, g.Holds u → (g.newSite x).2.Holds u := (edited_newSite x).holds
  refine ⟨⟨?_, h.slots.once, ?_, ?_, ?_⟩, ⟨?_, h.lists.usesOnce, ?_, h.lists.phisOnce⟩,
    ⟨h.seats.block, h.seats.once, h.seats.preds, h.seats.incoming, h.seats.paired⟩,
    ⟨h.names.live, ?_⟩, ?_, ?_⟩
  · intro i s hs
    rw [howner]
    exact h.slots.arg i s hs
  · intro s i hs
    rw [howner] at hs
    exact h.slots.owned s i hs
  · intro i s hs
    obtain ⟨v, hsv, ha⟩ := h.slots.result i s hs
    exact ⟨v, (hvarOf (h.slots.holds_result hs)).trans hsv, ha⟩
  · intro v s hs
    obtain ⟨hsv, hheld, hno⟩ := h.slots.assign v s hs
    exact ⟨(hvarOf hheld).trans hsv, hgrows hheld, hno⟩
  · intro v s
    refine (h.lists.uses v s).trans ⟨fun ⟨hsv, i, hs⟩ => ⟨?_, i, hs⟩, fun ⟨hsv, i, hs⟩ => ⟨?_, i, hs⟩⟩
    · rw [hvarOf (h.slots.holds_arg hs)]
      exact hsv
    · rw [hvarOf (h.slots.holds_arg hs)] at hsv
      exact hsv
  · intro v i
    refine (h.lists.phis v i).trans (and_congr_right fun _ => exists_congr fun s =>
      and_congr_right fun hs => ?_)
    rw [hvarOf (h.slots.holds_arg hs)]
  · intro s v hs hsv
    rcases holds_of_newSite hs with rfl | hs
    · refine hv v (varOf?_eq_some.mp hsv ▸ ?_)
      rw [site_newSite, if_pos rfl]
    · exact h.names.var s v hs (hvarOf hs ▸ hsv)
  · intro i hi
    exact (h.tight i hi).congr rfl ⟨rfl, rfl⟩ fun s _ => by rw [howner]
  · intro v hlt hU
    exact (h.defined v hlt hU).congr rfl fun s _ hs => by rwa [howner] at hs

theorem free_newSite (h : g.Wired P F U) {x : Site} (ho : x.owner = none) :
    (g.newSite x).2.Free (g.newSite x).1 := by
  refine ⟨holds_newSite x, by rw [site_newSite, if_pos rfl, ho], fun v hv => ?_⟩
  exact not_holds_newSite x (h.slots.assign v _ hv).2.1

/-- The description of an instruction without slots and place. -/
structure Insn.Bare (x : Insn) : Prop where
  result : x.result = none
  args : x.args = []
  block : x.block = none
  incoming : x.incoming = []

theorem insn_newInsn (x : Insn) (j : InsnId) :
    (g.newInsn x).2.insn j = if j = (g.newInsn x).1 then x else g.insn j := by
  obtain ⟨n⟩ := j
  simp only [newInsn, InsnId.mk.injEq]
  exact getD_push _ _ _ _

/-- A new instruction differs from an entry beyond the table in its code only. -/
theorem wired_newInsn (h : g.Wired P F U) {x : Insn} (hx : Insn.Bare x) :
    (g.newInsn x).2.Wired P F U := by
  have hempty : g.insn (g.newInsn x).1 = default := insn_of_size_le (Nat.le_refl _)
  have hinsn := insn_newInsn (g := g) x
  have hslots : ∀ i, ((g.newInsn x).2.insn i).result = (g.insn i).result ∧
      ((g.newInsn x).2.insn i).args = (g.insn i).args := by
    intro i
    rw [hinsn]
    split
    · next hi => rw [hi, hempty, hx.result, hx.args]; exact ⟨rfl, rfl⟩
    · exact ⟨rfl, rfl⟩
  have hplace : ∀ i, ((g.newInsn x).2.insn i).block = (g.insn i).block ∧
      ((g.newInsn x).2.insn i).incoming = (g.insn i).incoming := by
    intro i
    rw [hinsn]
    split
    · next hi => rw [hi, hempty, hx.block, hx.incoming]; exact ⟨rfl, rfl⟩
    · exact ⟨rfl, rfl⟩
  have hcode : ∀ i, (g.insn i).args ≠ [] →
      ((g.newInsn x).2.insn i).opcode = (g.insn i).opcode := by
    intro i hi
    rw [hinsn, if_neg]
    rintro rfl
    rw [hempty] at hi
    exact hi rfl
  refine ⟨h.slots.congr hslots (fun _ => rfl) (fun _ => rfl) (fun _ => rfl) rfl,
    ⟨?_, h.lists.usesOnce, ?_, h.lists.phisOnce⟩, ⟨?_, h.seats.once, h.seats.preds, ?_, ?_⟩,
    ⟨h.names.live, h.names.var⟩, fun i hi => ?_, h.defined⟩
  · intro v s
    refine (h.lists.uses v s).trans (and_congr_right fun _ => exists_congr fun i => ?_)
    rw [(hslots i).2]
  · intro v i
    refine (h.lists.phis v i).trans ?_
    rw [(hslots i).2]
    cases hargs : (g.insn i).args with
    | nil => simp
    | cons a as =>
      rw [hcode i (by rw [hargs]; exact List.cons_ne_nil a as)]
      rfl
  · intro i b
    rw [(hplace i).1]
    exact h.seats.block i b
  · intro i
    rw [(hplace i).2]
    exact h.seats.incoming i
  · intro i hphi
    rw [(hslots i).2, (hplace i).2]
    rw [hinsn] at hphi
    split at hphi
    · next hi => rw [hi, hempty]; rfl
    · exact h.seats.paired i hphi
  · exact (h.tight i hi).congr (hplace i).1 (hslots i) fun _ _ => Iff.rfl

/-! ## Results -/

/-- A site has become the result of an instruction and the definition of its variable. -/
structure ResultSet (g : MethodGraph) (i : InsnId) (s : SiteId) (g' : MethodGraph) : Prop where
  insn : ∀ j, g'.insn j = if j = i then { g.insn j with result := some s } else g.insn j
  owner : ∀ u, (g'.site u).owner =
    if u = s then some i else if (g.insn i).result = some u then none else (g.site u).owner
  varOf : ∀ u, g'.varOf? u = g.varOf? u
  var : ∀ v, g'.var v = if g.varOf? s = some v then { g.var v with assign := some s } else g.var v
  insns : g'.insns.size = g.insns.size
  sites : g'.sites.size = g.sites.size
  vars : g'.vars.size = g.vars.size
  blocks : g'.blocks = g.blocks
  live : g'.live = g.live

/-- The result of an instruction is let go. -/
def disown (g : MethodGraph) (i : InsnId) : MethodGraph :=
  match (g.insn i).result with
  | some old => g.updateSite old fun x => { x with owner := none }
  | none => g

/-- A site is entered as the result of an instruction. -/
def enter (g : MethodGraph) (i : InsnId) (s : SiteId) : MethodGraph :=
  (g.updateInsn i fun x => { x with result := some s }).updateSite s fun x =>
    { x with owner := some i }

/-- A site becomes the definition of its variable. -/
def define (g : MethodGraph) (s : SiteId) : MethodGraph :=
  match g.varOf? s with
  | some v => g.updateVar v fun x => { x with assign := some s }
  | none => g

theorem setResult_some (i : InsnId) (s : SiteId) :
    g.setResult i (some s) = (((g.disown i).enter i s).define s) := rfl

theorem site_disown (h : g.Slotted) (i : InsnId) (u : SiteId) : (g.disown i).site u =
    if (g.insn i).result = some u then { g.site u with owner := none } else g.site u := by
  unfold disown
  split
  · next old hr =>
    rw [site_set (h.holds_result hr), hr]
    simp only [Option.some_inj, eq_comm]
  · next hr => rw [if_neg (by rw [hr]; simp)]

theorem same_disown (i : InsnId) : (g.disown i).insns = g.insns ∧ (g.disown i).vars = g.vars ∧
    (g.disown i).blocks = g.blocks ∧ (g.disown i).live = g.live ∧
    (g.disown i).sites.size = g.sites.size := by
  unfold disown
  split
  · exact ⟨rfl, rfl, rfl, rfl, size_updateSite _ _ _⟩
  · exact ⟨rfl, rfl, rfl, rfl, rfl⟩

theorem var_define {s : SiteId} (hs : ∀ v, g.varOf? s = some v → v.index < g.vars.size) (w : VarId) :
    (g.define s).var w =
      if g.varOf? s = some w then { g.var w with assign := some s } else g.var w := by
  unfold define
  split
  · next v hv =>
    rw [var_set (hs v hv), hv]
    simp only [Option.some_inj, eq_comm]
  · next hv => rw [if_neg (by rw [hv]; simp)]

theorem same_define (s : SiteId) : (g.define s).insns = g.insns ∧ (g.define s).sites = g.sites ∧
    (g.define s).blocks = g.blocks ∧ (g.define s).live = g.live ∧
    (g.define s).vars.size = g.vars.size := by
  unfold define
  split
  · exact ⟨rfl, rfl, rfl, rfl, Array.size_modify⟩
  · exact ⟨rfl, rfl, rfl, rfl, rfl⟩

theorem resultSet_setResult (h : g.Wired P F U) {i : InsnId} (hi : i.index < g.insns.size) {s : SiteId}
    (hs : g.Holds s) : ResultSet g i s (g.setResult i (some s)) := by
  rw [setResult_some]
  have hsite := site_disown h.slots i
  obtain ⟨hinsns, hvars, hblocks, hlive, hsites⟩ := same_disown (g := g) i
  have hvarOf : ∀ u, (g.disown i).varOf? u = g.varOf? u := by
    intro u
    apply varOf?_congr
    rw [hsite]
    split <;> rfl
  generalize g.disown i = g₁ at hsite hinsns hvars hblocks hlive hsites hvarOf
  -- what is entered is read at the instruction and at the site
  have hinsn : ∀ j, (g₁.enter i s).insn j =
      if j = i then { g.insn j with result := some s } else g.insn j := by
    intro j
    have hj : g₁.insn j = g.insn j := by rw [insn, insn, hinsns]
    rw [← hj]
    exact insn_set (by rw [hinsns]; exact hi) _ j
  have hsite' : ∀ u, (g₁.enter i s).site u =
      if u = s then { g₁.site u with owner := some i } else g₁.site u :=
    site_set (g := g₁.updateInsn i _) (by rw [Holds]; exact hsites ▸ hs) _
  have hvarOf' : ∀ u, (g₁.enter i s).varOf? u = g.varOf? u := by
    intro u
    rw [← hvarOf]
    apply varOf?_congr
    rw [hsite']
    split <;> rfl
  have hvars' : (g₁.enter i s).vars = g.vars := hvars
  have hinsns' : (g₁.enter i s).insns.size = g.insns.size := by
    rw [← hinsns]
    exact Array.size_modify
  have hsites' : (g₁.enter i s).sites.size = g.sites.size := by
    rw [← hsites]
    exact size_updateSite _ _ _
  have hrest : (g₁.enter i s).blocks = g.blocks ∧ (g₁.enter i s).live = g.live := ⟨hblocks, hlive⟩
  generalize g₁.enter i s = g₂ at hinsn hsite' hvarOf' hvars' hinsns' hsites' hrest
  have hvar := var_define (g := g₂) (s := s) fun v hv => by
    rw [hvars']
    exact h.names.var s v hs (hvarOf' s ▸ hv)
  obtain ⟨hi₃, hs₃, hb₃, hl₃, hv₃⟩ := same_define (g := g₂) s
  have hsite₃ : ∀ u, (g₂.define s).site u = g₂.site u := fun u => by rw [site, site, hs₃]
  refine ⟨fun j => ?_, fun u => ?_, fun u => ?_, fun v => ?_, ?_, ?_, ?_, hb₃.trans hrest.1,
    hl₃.trans hrest.2⟩
  · rw [← hinsn, insn, insn, hi₃]
  · rw [hsite₃, hsite', hsite]
    split
    · rfl
    · split <;> rfl
  · rw [varOf?_congr (congrArg Site.operand (hsite₃ u)), hvarOf']
  · have hv : g₂.var v = g.var v := by rw [MethodGraph.var, MethodGraph.var, hvars']
    rw [hvar, hvarOf', hv]
  · rw [hi₃, hinsns']
  · rw [hs₃, hsites']
  · rw [hv₃, hvars']

/-- The site can be made the definition of the variable: it is no argument, and the variable has no
    other definition. -/
structure Defines (g : MethodGraph) (s : SiteId) (v : VarId) : Prop where
  held : g.Holds s
  varOf : g.varOf? s = some v
  apart : ∀ i, s ∉ (g.insn i).args
  assign : (g.var v).assign = none ∨ (g.var v).assign = some s

theorem slotted_setResult {g' : MethodGraph} {i : InsnId} {s : SiteId} {v : VarId} (h : g.Slotted)
    (e : ResultSet g i s g') (hs : g.Defines s v) : g'.Slotted := by
  obtain ⟨harg, honce, howned, hresult, hassign⟩ := h
  obtain ⟨hheld, hvarOf, hapart, hdef⟩ := hs
  have hargs : ∀ j, (g'.insn j).args = (g.insn j).args := by
    intro j
    rw [e.insn]
    split <;> rfl
  have hres : ∀ j, (g'.insn j).result = if j = i then some s else (g.insn j).result := by
    intro j
    rw [e.insn]
    split <;> rfl
  have hvar : ∀ w, (g'.var w).assign = if w = v then some s else (g.var w).assign := by
    intro w
    rw [e.var, hvarOf]
    by_cases hw : w = v
    · simp [hw]
    · simp [hw, Ne.symm hw]
  constructor
  · -- the old result was no argument, so no argument is let go
    intro j u hu
    rw [hargs] at hu
    have hus : u ≠ s := fun heq => hapart j (heq ▸ hu)
    have hold : (g.insn i).result ≠ some u := by
      intro hr
      obtain ⟨w, -, hw⟩ := hresult i u hr
      exact (hassign w u hw).2.2 j hu
    rw [e.owner, if_neg hus, if_neg hold]
    exact harg j u hu
  · intro j
    rw [hargs]
    exact honce j
  · intro u j hu
    rw [e.owner] at hu
    rw [hargs, hres]
    grind
  · intro j u hu
    rw [hres] at hu
    split at hu
    · cases hu
      exact ⟨v, by rw [e.varOf, hvarOf], by rw [hvar, if_pos rfl]⟩
    · obtain ⟨w, hw, ha⟩ := hresult j u hu
      refine ⟨w, by rw [e.varOf, hw], ?_⟩
      rw [hvar]
      split
      · next hwv =>
        -- the variable had this definition before
        subst hwv
        rw [ha] at hdef
        simpa [eq_comm] using hdef
      · exact ha
  · intro w u hu
    rw [hvar] at hu
    rw [e.varOf, Holds, e.sites]
    split at hu
    · next hw =>
      cases hu
      subst hw
      exact ⟨hvarOf, hheld, fun j => by rw [hargs]; exact hapart j⟩
    · obtain ⟨h₁, h₂, h₃⟩ := hassign w u hu
      exact ⟨h₁, h₂, fun j => by rw [hargs]; exact h₃ j⟩

theorem wired_setResult {i : InsnId} {s : SiteId} {v : VarId} (h : g.Wired P F (insert v U))
    (hi : i.index < g.insns.size) (hs : g.Defines s v)
    (hold : ∀ u, (g.insn i).result = some u → (g.site u).owner = some i)
    (hgone : ∀ u w, (g.insn i).result = some u → g.varOf? u = some w → w ∈ U)
    (htaken : ∀ j, (g.site s).owner = some j → j ∈ F)
    (hF : i ∈ F ∨ (g.insn i).block.isSome = true) : (g.setResult i (some s)).Wired P F U := by
  have e := resultSet_setResult h hi hs.held
  generalize g.setResult i (some s) = g' at e
  have hinsn : ∀ j, (g'.insn j).args = (g.insn j).args ∧ (g'.insn j).block = (g.insn j).block ∧
      (g'.insn j).opcode = (g.insn j).opcode ∧ (g'.insn j).incoming = (g.insn j).incoming := by
    intro j
    rw [e.insn]
    split <;> exact ⟨rfl, rfl, rfl, rfl⟩
  refine ⟨slotted_setResult h.slots e hs, ?_, ?_, ?_, ?_, ?_⟩
  · refine h.lists.congr (fun j => (hinsn j).1) (fun j => (hinsn j).2.2.1) e.varOf fun w => ?_
    rw [e.var]
    split <;> exact ⟨rfl, rfl⟩
  · exact h.seats.congr e.blocks (fun j => (hinsn j).2.1) (fun j => (hinsn j).2.2)
      fun j _ => by rw [(hinsn j).1]
  · exact h.names.congr e.live e.vars e.sites e.varOf
  · intro j hj
    by_cases hji : j = i
    · -- the instruction itself: it is placed and owns its new result
      subst hji
      have hplaced : (g.insn j).block.isSome = true := hF.resolve_left hj
      refine ⟨fun hb => ?_, fun u hu => ?_⟩
      · rw [(hinsn j).2.1] at hb
        rw [hb] at hplaced
        cases hplaced
      · rw [e.insn, if_pos rfl] at hu
        cases hu
        rw [e.owner, if_pos rfl, (hinsn j).2.1]
        exact ⟨fun _ => hplaced, fun _ => rfl⟩
    · have hres : (g'.insn j).result = (g.insn j).result := by rw [e.insn, if_neg hji]
      refine (h.tight j hj).congr (hinsn j).2.1 ⟨hres, (hinsn j).1⟩ fun u hu => ?_
      rw [e.owner]
      have htight := (h.tight j hj).result u hu
      grind
  · intro w hw hU
    rw [e.vars] at hw
    by_cases hwv : w = v
    · subst hwv
      refine ⟨s, by rw [e.var, if_pos hs.varOf], fun hn => ?_⟩
      rw [e.owner, if_pos rfl] at hn
      cases hn
    · have hold := h.defined w hw (by simp [hwv, hU])
      refine hold.congr ?_ fun u hu hn => ?_
      · rw [e.var, hs.varOf, if_neg (by simpa using Ne.symm hwv)]
      · -- what the instruction lets go defines a variable that is open
        have hus : u ≠ s := by
          rintro rfl
          have hv := (h.slots.assign w u hu).1
          rw [hs.varOf] at hv
          exact hwv (Option.some_inj.mp hv).symm
        have hres : (g.insn i).result ≠ some u := fun hr =>
          hU (hgone u w hr (h.slots.assign w u hu).1)
        rwa [e.owner, if_neg hus, if_neg hres] at hn

/-! ## Arguments -/

theorem same_linkUse (i : InsnId) (s : SiteId) : (g.linkUse i s).insns = g.insns ∧
    (g.linkUse i s).sites = g.sites ∧ (g.linkUse i s).blocks = g.blocks ∧
    (g.linkUse i s).live = g.live ∧ (g.linkUse i s).vars.size = g.vars.size := by
  unfold linkUse
  split
  · exact ⟨rfl, rfl, rfl, rfl, rfl⟩
  · exact ⟨rfl, rfl, rfl, rfl, Array.size_modify⟩

theorem var_linkUse {s : SiteId} (hs : ∀ v, g.varOf? s = some v → v.index < g.vars.size) (i : InsnId)
    (w : VarId) : (g.linkUse i s).var w =
      if g.varOf? s = some w then
        { g.var w with
          uses := (g.var w).uses ++ [s]
          phis := if (g.insn i).opcode = .phi ∧ i ∉ (g.var w).phis then (g.var w).phis ++ [i]
            else (g.var w).phis }
      else g.var w := by
  unfold linkUse
  split
  · next hv => rw [if_neg (by rw [hv]; simp)]
  · next v hv =>
    rw [var_set (hs v hv), hv]
    simp only [Option.some_inj]
    by_cases hw : w = v
    · simp [hw]
    · simp [hw, Ne.symm hw]

theorem same_unlinkUse (i : InsnId) (s : SiteId) : (g.unlinkUse i s).insns = g.insns ∧
    (g.unlinkUse i s).sites = g.sites ∧ (g.unlinkUse i s).blocks = g.blocks ∧
    (g.unlinkUse i s).live = g.live ∧ (g.unlinkUse i s).vars.size = g.vars.size := by
  unfold unlinkUse
  split
  · exact ⟨rfl, rfl, rfl, rfl, rfl⟩
  · exact ⟨rfl, rfl, rfl, rfl, Array.size_modify⟩

theorem phiInput?_isNone {i : InsnId} {v : VarId} :
    (g.phiInput? i v).isNone = true ↔ ∀ a ∈ (g.insn i).args, g.varOf? a ≠ some v := by
  simp [phiInput?]

theorem var_unlinkUse {s : SiteId} (hs : ∀ v, g.varOf? s = some v → v.index < g.vars.size)
    (i : InsnId) (w : VarId) : (g.unlinkUse i s).var w =
      if g.varOf? s = some w then
        { g.var w with
          uses := (g.var w).uses.erase s
          phis := if (g.insn i).opcode = .phi ∧ (∀ a ∈ (g.insn i).args, g.varOf? a ≠ some w) then
            (g.var w).phis.erase i else (g.var w).phis }
      else g.var w := by
  unfold unlinkUse
  split
  · next hv => rw [if_neg (by rw [hv]; simp)]
  · next v hv =>
    rw [var_set (hs v hv), hv]
    simp only [Option.some_inj]
    by_cases hw : w = v
    · subst hw
      simp [← phiInput?_isNone]
    · simp [hw, Ne.symm hw]

/-- A free site has become the last argument of an instruction. -/
structure ArgAdded (g : MethodGraph) (i : InsnId) (s : SiteId) (g' : MethodGraph) : Prop where
  insn : ∀ j, g'.insn j =
    if j = i then { g.insn j with args := (g.insn j).args ++ [s] } else g.insn j
  owner : ∀ u, (g'.site u).owner = if u = s then some i else (g.site u).owner
  varOf : ∀ u, g'.varOf? u = g.varOf? u
  assign : ∀ v, (g'.var v).assign = (g.var v).assign
  uses : ∀ v, (g'.var v).uses =
    if g.varOf? s = some v then (g.var v).uses ++ [s] else (g.var v).uses
  phis : ∀ v, (g'.var v).phis =
    if g.varOf? s = some v ∧ (g.insn i).opcode = .phi ∧ i ∉ (g.var v).phis then
      (g.var v).phis ++ [i] else (g.var v).phis
  insns : g'.insns.size = g.insns.size
  sites : g'.sites.size = g.sites.size
  vars : g'.vars.size = g.vars.size
  blocks : g'.blocks = g.blocks
  live : g'.live = g.live

theorem argAdded_addArg (h : g.Wired P F U) {i : InsnId} (hi : i.index < g.insns.size) {s : SiteId}
    (hs : g.Holds s) : ArgAdded g i s (g.addArg i s) := by
  have hinsn := insn_set (g := g.updateSite s fun x => { x with owner := some i }) hi
    fun x => { x with args := x.args ++ [s] }
  have howner := owner_set hs (some i)
  have hvarOf := varOf?_setOwner (g := g) s (some i)
  have hsites : (g.updateSite s fun x => { x with owner := some i }).sites.size = g.sites.size :=
    size_updateSite _ _ _
  have hinsns : ((g.updateSite s fun x => { x with owner := some i }).updateInsn i
      fun x => { x with args := x.args ++ [s] }).insns.size = g.insns.size := Array.size_modify
  -- the site and the instruction are written before the lists of the variable
  obtain ⟨g₁, hg₁⟩ : ∃ g₁, g₁ = (g.updateSite s fun x => { x with owner := some i }).updateInsn i
      fun x => { x with args := x.args ++ [s] } := ⟨_, rfl⟩
  have hadd : g.addArg i s = g₁.linkUse i s := by rw [hg₁]; rfl
  have hvarOf₁ : ∀ u, g₁.varOf? u = g.varOf? u := by rw [hg₁]; exact hvarOf
  have hvar := var_linkUse (g := g₁) (s := s) (fun v hv => by
    rw [hg₁]
    exact h.names.var s v hs (hvarOf₁ s ▸ hv)) i
  have hop : (g₁.insn i).opcode = (g.insn i).opcode := by rw [hg₁, hinsn, if_pos rfl]; rfl
  have hold : ∀ v, g₁.var v = g.var v := by rw [hg₁]; exact fun _ => rfl
  obtain ⟨hi₁, hs₁, hb₁, hl₁, hv₁⟩ := same_linkUse (g := g₁) i s
  rw [hadd]
  refine ⟨fun j => ?_, fun u => ?_, fun u => ?_, fun v => ?_, fun v => ?_, fun v => ?_, ?_, ?_, ?_, ?_,
    ?_⟩
  · rw [insn_congr hi₁, hg₁, hinsn]
    rfl
  · rw [site_congr hs₁, hg₁]
    exact howner u
  · rw [varOf?_congr (congrArg Site.operand (site_congr hs₁ u)), hvarOf₁]
  · rw [hvar, hold]
    split <;> rfl
  · rw [hvar, hold, hvarOf₁]
    split <;> rfl
  · rw [hvar, hold, hvarOf₁, hop]
    split
    · next hv => simp [hv]
    · next hv => simp [hv]
  · rw [hi₁, hg₁, hinsns]
  · rw [hs₁, hg₁]
    exact hsites
  · rw [hv₁, hg₁]
    rfl
  · rw [hb₁, hg₁]
    rfl
  · rw [hl₁, hg₁]
    rfl

theorem Free.not_arg {s : SiteId} (h : g.Free s) (hg : g.Slotted) (i : InsnId) :
    s ∉ (g.insn i).args := by
  intro hs
  have howner := hg.arg i s hs
  rw [h.owner] at howner
  cases howner

section
variable {g' : MethodGraph} {i : InsnId} {s : SiteId}

theorem ArgAdded.args (e : ArgAdded g i s g') (j : InsnId) : (g'.insn j).args =
    if j = i then (g.insn j).args ++ [s] else (g.insn j).args := by
  rw [e.insn]
  split <;> rfl

theorem ArgAdded.rest (e : ArgAdded g i s g') (j : InsnId) : (g'.insn j).result = (g.insn j).result ∧
    (g'.insn j).block = (g.insn j).block ∧ (g'.insn j).opcode = (g.insn j).opcode ∧
    (g'.insn j).incoming = (g.insn j).incoming := by
  rw [e.insn]
  split <;> exact ⟨rfl, rfl, rfl, rfl⟩

theorem ArgAdded.sourced (e : ArgAdded g i s g') {v : VarId} (h : g.Sourced P v) :
    g'.Sourced P v := by
  refine h.congr (e.assign v) fun u _ hu => ?_
  rw [e.owner] at hu
  split at hu
  · cases hu
  · exact hu

theorem slotted_addArg (h : g.Slotted) (e : ArgAdded g i s g') (hs : g.Free s) : g'.Slotted := by
  have hargs := e.args
  have hres := fun j => (e.rest j).1
  have hnew := hs.not_arg h
  obtain ⟨harg, honce, howned, hresult, hassign⟩ := h
  constructor
  · intro j u hu
    rw [hargs] at hu
    rw [e.owner]
    grind
  · intro j
    rw [hargs]
    split
    · exact (honce j).append (List.nodup_singleton s) (by simpa using hnew j)
    · exact honce j
  · intro u j hu
    rw [e.owner] at hu
    rw [hargs, hres]
    grind
  · intro j u hu
    rw [hres] at hu
    rw [e.varOf]
    obtain ⟨v, hv, ha⟩ := hresult j u hu
    exact ⟨v, hv, (e.assign v).trans ha⟩
  · intro v u hu
    rw [e.assign] at hu
    obtain ⟨hv, hh, hno⟩ := hassign v u hu
    rw [e.varOf, Holds, e.sites]
    refine ⟨hv, hh, fun j => ?_⟩
    have hus : u ≠ s := fun heq => hs.assign v (heq ▸ hu)
    rw [hargs]
    split
    · simp [hno j, hus]
    · exact hno j

theorem listed_addArg (h : g.Listed) (hsl : g.Slotted) (e : ArgAdded g i s g') (hs : g.Free s) :
    g'.Listed := by
  have hargs := e.args
  have hop := fun j => (e.rest j).2.2.1
  have hvarOf := e.varOf
  have huses' := e.uses
  have hphis' := e.phis
  obtain ⟨huses, honce, hphis, honce'⟩ := h
  have hnew : ∀ v, s ∉ (g.var v).uses := by
    intro v hv
    obtain ⟨-, j, hj⟩ := (huses v s).mp hv
    exact hs.not_arg hsl j hj
  constructor
  · grind
  · grind
  · grind
  · grind

theorem tight_addArg (e : ArgAdded g i s g') (hs : g.Free s) (hg : g.Slotted) {j : InsnId}
    (h : g.Tight j) (hj : j ≠ i) : g'.Tight j := by
  obtain ⟨hres, hblock, -⟩ := e.rest j
  refine h.congr hblock ⟨hres, by rw [e.args, if_neg hj]⟩ fun u hu => ?_
  -- the result of another instruction is not the free site
  obtain ⟨v, -, hv⟩ := hg.result j u hu
  have hus : u ≠ s := fun heq => hs.assign v (heq ▸ hv)
  rw [e.owner, if_neg hus]

end

theorem wired_addArg {i : InsnId} {s : SiteId} (h : g.Wired P F U) (hi : i.index < g.insns.size)
    (hF : i ∈ F) (hs : g.Free s) (hop : (g.insn i).opcode ≠ .phi) : (g.addArg i s).Wired P F U := by
  have e := argAdded_addArg h hi hs.held
  generalize g.addArg i s = g' at e
  refine ⟨slotted_addArg h.slots e hs, listed_addArg h.lists h.slots e hs, ?_,
    h.names.congr e.live e.vars e.sites e.varOf, ?_, ?_⟩
  · refine h.seats.congr e.blocks (fun j => (e.rest j).2.1) (fun j => (e.rest j).2.2) fun j hj => ?_
    have hji : j ≠ i := fun heq => hop (heq ▸ hj)
    rw [e.args, if_neg hji]
  · intro j hj
    exact tight_addArg e hs h.slots (h.tight j hj) fun heq => hj (heq ▸ hF)
  · intro v hv hU
    exact e.sourced (h.defined v (e.vars ▸ hv) hU)

theorem seated_addPhiArg {g' : MethodGraph} {i : InsnId} {s : SiteId} {source : BlockId}
    (h : g.Seated) (hblocks : g'.blocks = g.blocks)
    (hcode : ∀ j, (g'.insn j).opcode = (g.insn j).opcode ∧ (g'.insn j).block = (g.insn j).block)
    (hincoming : ∀ j, (g'.insn j).incoming =
      if j = i then (g.insn j).incoming ++ [source] else (g.insn j).incoming)
    (hargs : ∀ j, (g'.insn j).args = if j = i then (g.insn j).args ++ [s] else (g.insn j).args)
    (hb : source.index < g.blocks.size) : g'.Seated := by
  have hblock : ∀ b, g'.block b = g.block b := fun b => by rw [block, block, hblocks]
  obtain ⟨hmem, honce, hpreds, hin, hpaired⟩ := h
  constructor
  · intro j b
    rw [hblock, (hcode j).2]
    exact hmem j b
  · intro b
    rw [hblock]
    exact honce b
  · intro b
    rw [hblock, hblocks]
    exact hpreds b
  · intro j b hj
    rw [hblocks]
    rw [hincoming] at hj
    split at hj
    · rcases List.mem_append.mp hj with hj | hj
      · exact hin j b hj
      · rw [List.mem_singleton.mp hj]
        exact hb
    · exact hin j b hj
  · intro j hj
    rw [(hcode j).1] at hj
    have hlen := hpaired j hj
    rw [hincoming, hargs]
    split
    · rw [List.length_append, List.length_append, hlen]
      rfl
    · exact hlen

/-- An input of a phi comes with its block. -/
theorem wired_addPhiArg {i : InsnId} {s : SiteId} (h : g.Wired P F U) (hi : i.index < g.insns.size)
    (hF : i ∈ F) (hs : g.Free s) {source : BlockId} (hb : source.index < g.blocks.size) :
    (g.addPhiArg i s source).Wired P F U := by
  have e := argAdded_addArg h hi hs.held
  unfold addPhiArg
  generalize g.addArg i s = g₁ at e
  have hinsn := insn_set (g := g₁) (e.insns ▸ hi) fun x => { x with incoming := x.incoming ++ [source] }
  have hsame : ∀ j, ((g₁.updateInsn i fun x => { x with incoming := x.incoming ++ [source] }).insn
      j).result = (g₁.insn j).result ∧ ((g₁.updateInsn i fun x => { x with
        incoming := x.incoming ++ [source] }).insn j).args = (g₁.insn j).args := by
    intro j
    rw [hinsn]
    split <;> exact ⟨rfl, rfl⟩
  have hcode : ∀ j, ((g₁.updateInsn i fun x => { x with incoming := x.incoming ++ [source] }).insn
      j).opcode = (g.insn j).opcode ∧ ((g₁.updateInsn i fun x => { x with
        incoming := x.incoming ++ [source] }).insn j).block = (g.insn j).block := by
    intro j
    rw [← (e.rest j).2.1, ← (e.rest j).2.2.1, hinsn]
    split <;> exact ⟨rfl, rfl⟩
  have hincoming : ∀ j, ((g₁.updateInsn i fun x => { x with incoming := x.incoming ++ [source] }).insn
      j).incoming = if j = i then (g.insn j).incoming ++ [source] else (g.insn j).incoming := by
    intro j
    rw [hinsn, ← (e.rest j).2.2.2]
    split <;> rfl
  have hslots := slotted_addArg h.slots e hs
  have hlists := listed_addArg h.lists h.slots e hs
  refine ⟨hslots.congr hsame (fun _ => rfl) (fun _ => rfl) (fun _ => rfl) rfl,
    hlists.congr (fun j => (hsame j).2) (fun j => (hcode j).1.trans (e.rest j).2.2.1.symm)
      (fun _ => rfl) (fun _ => ⟨rfl, rfl⟩),
    seated_addPhiArg h.seats e.blocks hcode hincoming (fun j => (hsame j).2.trans (e.args j)) hb,
    h.names.congr e.live e.vars e.sites e.varOf, ?_, ?_⟩
  · intro j hj
    have hji : j ≠ i := fun heq => hj (heq ▸ hF)
    have htight := tight_addArg e hs h.slots (h.tight j hj) hji
    exact htight.congr ((hcode j).2.trans (e.rest j).2.1.symm) (hsame j) fun _ _ => Iff.rfl
  · intro v hv hU
    have hv' : v.index < g₁.vars.size := hv
    exact e.sourced (h.defined v (e.vars ▸ hv') hU)

/-- A free site has taken the place of an argument. -/
structure ArgReplaced (g : MethodGraph) (i : InsnId) (old new : SiteId) (n : Nat)
    (g' : MethodGraph) : Prop where
  insn : ∀ j, g'.insn j =
    if j = i then { g.insn j with args := (g.insn j).args.set n new } else g.insn j
  owner : ∀ u, (g'.site u).owner =
    if u = old then none else if u = new then some i else (g.site u).owner
  varOf : ∀ u, g'.varOf? u = g.varOf? u
  assign : ∀ v, (g'.var v).assign = (g.var v).assign
  uses : ∀ v, (g'.var v).uses =
    (if g.varOf? old = some v then (g.var v).uses.erase old else (g.var v).uses) ++
      if g.varOf? new = some v then [new] else []
  phis : ∀ v, ∃ phis, phis =
      (if g.varOf? old = some v ∧ (g.insn i).opcode = .phi ∧
        (∀ a ∈ (g.insn i).args.set n new, g.varOf? a ≠ some v) then (g.var v).phis.erase i
      else (g.var v).phis) ∧
    (g'.var v).phis =
      if g.varOf? new = some v ∧ (g.insn i).opcode = .phi ∧ i ∉ phis then phis ++ [i] else phis
  insns : g'.insns.size = g.insns.size
  sites : g'.sites.size = g.sites.size
  vars : g'.vars.size = g.vars.size
  blocks : g'.blocks = g.blocks
  live : g'.live = g.live

/-- The slots of the replacement are written, and not yet the lists of the two variables. -/
structure SlotReplaced (g : MethodGraph) (i : InsnId) (old new : SiteId) (n : Nat)
    (g' : MethodGraph) : Prop where
  insn : ∀ j, g'.insn j =
    if j = i then { g.insn j with args := (g.insn j).args.set n new } else g.insn j
  owner : ∀ u, (g'.site u).owner =
    if u = old then none else if u = new then some i else (g.site u).owner
  varOf : ∀ u, g'.varOf? u = g.varOf? u
  insns : g'.insns.size = g.insns.size
  sites : g'.sites.size = g.sites.size
  vars : g'.vars = g.vars
  blocks : g'.blocks = g.blocks
  live : g'.live = g.live

theorem slotReplaced_updates {i : InsnId} {old new : SiteId} (hi : i.index < g.insns.size)
    (hold : g.Holds old) (hnew : g.Holds new) (n : Nat) :
    SlotReplaced g i old new n (((g.updateInsn i fun x => { x with args := x.args.set n new
      }).updateSite new fun x => { x with owner := some i }).updateSite old
      fun x => { x with owner := none }) := by
  refine ⟨insn_set hi _, fun u => ?_, fun u => ?_, Array.size_modify, ?_, rfl, rfl, rfl⟩
  · rw [owner_set (by rw [Holds, size_updateSite]; exact hold),
      owner_set (g := g.updateInsn i _) hnew]
    rfl
  · rw [varOf?_setOwner, varOf?_setOwner]
    rfl
  · rw [size_updateSite, size_updateSite]
    rfl

theorem argReplaced_replaceArg (h : g.Wired P F U) {i : InsnId} {old new : SiteId} {n : Nat}
    (hn : (g.insn i).args.idxOf? old = some n) (hs : g.Free new) :
    ArgReplaced g i old new n (g.replaceArg i old new).2 := by
  have hold := mem_of_idxOf hn
  have hheld := h.slots.holds_arg hold
  have e := slotReplaced_updates (h.slots.owner_lt (h.slots.arg i old hold)) hheld hs.held n
  unfold replaceArg
  rw [hn]
  simp only
  generalize ((g.updateInsn i fun x => { x with args := x.args.set n new }).updateSite new
    fun x => { x with owner := some i }).updateSite old (fun x => { x with owner := none }) = g₁
    at e ⊢
  have hold₁ : ∀ v, g₁.var v = g.var v := fun v => by rw [var, var, e.vars]
  have hop : (g₁.insn i).opcode = (g.insn i).opcode := by rw [e.insn, if_pos rfl]
  have hargs : (g₁.insn i).args = (g.insn i).args.set n new := by rw [e.insn, if_pos rfl]
  have hvar₁ := var_unlinkUse (g := g₁) (s := old) (fun v hv => by
    rw [e.vars]
    exact h.names.var old v hheld (e.varOf old ▸ hv)) i
  obtain ⟨hi₂, hs₂, hb₂, hl₂, hv₂⟩ := same_unlinkUse (g := g₁) i old
  generalize g₁.unlinkUse i old = g₂ at hvar₁ hi₂ hs₂ hb₂ hl₂ hv₂ ⊢
  have hvarOf₂ : ∀ u, g₂.varOf? u = g.varOf? u := fun u => by
    rw [varOf?_congr (congrArg Site.operand (site_congr hs₂ u)), e.varOf]
  have hvar₂ := var_linkUse (g := g₂) (s := new) (fun v hv => by
    rw [hv₂, e.vars]
    exact h.names.var new v hs.held (hvarOf₂ new ▸ hv)) i
  obtain ⟨hi₃, hs₃, hb₃, hl₃, hv₃⟩ := same_linkUse (g := g₂) i new
  generalize g₂.linkUse i new = g₃ at hvar₂ hi₃ hs₃ hb₃ hl₃ hv₃ ⊢
  have hop₂ : (g₂.insn i).opcode = (g.insn i).opcode := by rw [insn_congr hi₂, hop]
  refine ⟨fun j => ?_, fun u => ?_, fun u => ?_, fun v => ?_, fun v => ?_, fun v => ?_, ?_, ?_, ?_, ?_,
    ?_⟩
  · rw [insn_congr hi₃, insn_congr hi₂, e.insn]
  · rw [site_congr hs₃, site_congr hs₂, e.owner]
  · rw [varOf?_congr (congrArg Site.operand (site_congr hs₃ u)), hvarOf₂]
  · rw [hvar₂, hvar₁, hold₁]
    split <;> split <;> rfl
  · rw [hvar₂, hvarOf₂, hvar₁, e.varOf, hold₁]
    by_cases ho : g.varOf? old = some v
    · by_cases hw : g.varOf? new = some v
      · simp only [ho, hw, if_true]
      · simp only [ho, hw, if_true, if_false, List.append_nil]
    · by_cases hw : g.varOf? new = some v
      · simp only [ho, hw, if_true, if_false]
      · simp only [ho, hw, if_false, List.append_nil]
  · refine ⟨_, rfl, ?_⟩
    rw [hvar₂, hvarOf₂, hvar₁, e.varOf, hold₁, hop₂, hop, hargs]
    simp only [e.varOf]
    by_cases ho : g.varOf? old = some v
    · by_cases hw : g.varOf? new = some v
      · simp only [ho, hw, if_true, true_and]
      · simp only [ho, hw, if_true, if_false, true_and, false_and]
    · by_cases hw : g.varOf? new = some v
      · simp only [ho, hw, if_true, if_false, true_and, false_and]
      · simp only [ho, hw, if_false, false_and]
  · rw [hi₃, hi₂, e.insns]
  · rw [hs₃, hs₂, e.sites]
  · rw [hv₃, hv₂, e.vars]
  · rw [hb₃, hb₂, e.blocks]
  · rw [hl₃, hl₂, e.live]

section
variable {g' : MethodGraph} {i : InsnId} {old new : SiteId} {n : Nat}

theorem ArgReplaced.rest (e : ArgReplaced g i old new n g') (j : InsnId) :
    (g'.insn j).result = (g.insn j).result ∧ (g'.insn j).block = (g.insn j).block ∧
      (g'.insn j).opcode = (g.insn j).opcode ∧ (g'.insn j).incoming = (g.insn j).incoming := by
  rw [e.insn]
  split <;> exact ⟨rfl, rfl, rfl, rfl⟩

theorem ArgReplaced.length_args (e : ArgReplaced g i old new n g') (j : InsnId) :
    (g'.insn j).args.length = (g.insn j).args.length := by
  rw [e.insn]
  split
  · exact List.length_set
  · rfl

/-- The arguments after one was replaced, as sites. -/
theorem ArgReplaced.mem_args (e : ArgReplaced g i old new n g') (h : g.Slotted)
    (hn : (g.insn i).args.idxOf? old = some n) (j : InsnId) (u : SiteId) :
    u ∈ (g'.insn j).args ↔ (u = new ∧ j = i) ∨ (u ∈ (g.insn j).args ∧ u ≠ old) := by
  rw [e.insn]
  split
  · next hji =>
    subst hji
    simp [mem_set_idxOf (h.once j) hn]
  · next hji =>
    -- the replaced argument was in no other list
    have hold : u ∈ (g.insn j).args → u ≠ old := by
      rintro hu rfl
      have h₁ := h.arg j u hu
      rw [h.arg i u (mem_of_idxOf hn)] at h₁
      exact hji (Option.some_inj.mp h₁).symm
    simp only [hji, and_false, false_or]
    exact ⟨fun hu => ⟨hu, hold hu⟩, And.left⟩

theorem slotted_replaceArg (h : g.Slotted) (e : ArgReplaced g i old new n g')
    (hn : (g.insn i).args.idxOf? old = some n) (hs : g.Free new) : g'.Slotted := by
  have hargs := e.mem_args h hn
  have hres := fun j => (e.rest j).1
  have howner := e.owner
  have hnew := hs.not_arg h
  have hfree := hs.assign
  have hmem := mem_of_idxOf hn
  obtain ⟨harg, honce, howned, hresult, hassign⟩ := h
  constructor
  · grind
  · intro j
    rw [e.insn]
    split
    · exact (honce j).set (hnew j)
    · exact honce j
  · grind
  · intro j u hu
    rw [hres] at hu
    rw [e.varOf]
    obtain ⟨v, hv, ha⟩ := hresult j u hu
    exact ⟨v, hv, (e.assign v).trans ha⟩
  · intro v u hu
    rw [e.assign] at hu
    obtain ⟨hv, hh, hno⟩ := hassign v u hu
    rw [e.varOf, Holds, e.sites]
    refine ⟨hv, hh, fun j hj => ?_⟩
    rcases (hargs j u).mp hj with ⟨rfl, -⟩ | ⟨hj, -⟩
    · exact hfree v hu
    · exact hno j hj

/-- The uses without the old site. -/
theorem mem_uses_without (h : g.Listed) (old : SiteId) (v : VarId) (u : SiteId) :
    u ∈ (if g.varOf? old = some v then (g.var v).uses.erase old else (g.var v).uses) ↔
      u ∈ (g.var v).uses ∧ u ≠ old := by
  split
  · rw [(h.usesOnce v).mem_erase_iff, and_comm]
  · next hv =>
    refine ⟨fun hu => ⟨hu, ?_⟩, And.left⟩
    rintro rfl
    exact hv ((h.uses v u).mp hu).1

/-- The phis of a variable are still those that read it. -/
theorem mem_phis_replaceArg (h : g.Listed) (hsl : g.Slotted) (e : ArgReplaced g i old new n g')
    (hn : (g.insn i).args.idxOf? old = some n) (v : VarId) (j : InsnId) :
    j ∈ (g'.var v).phis ↔
      (g'.insn j).opcode = .phi ∧ ∃ s ∈ (g'.insn j).args, g'.varOf? s = some v := by
  have hargs := e.mem_args hsl hn
  have hop := fun j => (e.rest j).2.2.1
  obtain ⟨phis, hphis, hfinal⟩ := e.phis v
  have hold := h.phis v j
  simp only [hop, hargs, e.varOf, hfinal]
  by_cases hji : j = i
  · subst hji
    have hset : ∀ a, a ∈ (g.insn j).args.set n new ↔ a = new ∨ (a ∈ (g.insn j).args ∧ a ≠ old) :=
      fun a => mem_set_idxOf (hsl.once j) hn
    have herase := (h.phisOnce v).mem_erase_iff (a := j) (b := j)
    by_cases hphi : (g.insn j).opcode = .phi
    · grind
    · simp_all
  · -- another phi neither loses nor gains an input
    have hj : j ∈ phis ↔ j ∈ (g.var v).phis := by
      rw [hphis]
      split
      · rw [(h.phisOnce v).mem_erase_iff]
        exact and_iff_right hji
      · exact Iff.rfl
    have hother : ∀ u, u ∈ (g.insn j).args → u ≠ old := by
      rintro u hu rfl
      have h₁ := hsl.arg j u hu
      rw [hsl.arg i u (mem_of_idxOf hn)] at h₁
      exact hji (Option.some_inj.mp h₁).symm
    grind

theorem listed_replaceArg (h : g.Listed) (hsl : g.Slotted) (e : ArgReplaced g i old new n g')
    (hn : (g.insn i).args.idxOf? old = some n) (hs : g.Free new) : g'.Listed := by
  have hargs := e.mem_args hsl hn
  have hnew : ∀ v, new ∉ (g.var v).uses := by
    intro v hv
    obtain ⟨-, j, hj⟩ := (h.uses v new).mp hv
    exact hs.not_arg hsl j hj
  refine ⟨fun v u => ?_, fun v => ?_, mem_phis_replaceArg h hsl e hn, fun v => ?_⟩
  · rw [e.uses, List.mem_append, mem_uses_without h, h.uses, e.varOf]
    simp only [hargs]
    grind
  · rw [e.uses]
    refine List.Nodup.append ?_ ?_ ?_
    · split
      · exact (h.usesOnce v).erase old
      · exact h.usesOnce v
    · split
      · exact List.nodup_singleton new
      · exact List.nodup_nil
    · intro u hu hu'
      rw [mem_uses_without h] at hu
      split at hu'
      · rw [List.mem_singleton.mp hu'] at hu
        exact hnew v hu.1
      · cases hu'
  · obtain ⟨phis, hphis, hfinal⟩ := e.phis v
    have honce : phis.Nodup := by
      rw [hphis]
      split
      · exact (h.phisOnce v).erase i
      · exact h.phisOnce v
    rw [hfinal]
    split
    · next hi => exact honce.append (List.nodup_singleton i) (by simpa using hi.2.2)
    · exact honce

end

theorem replaceArg_of_not_mem {i : InsnId} {old new : SiteId} (h : old ∉ (g.insn i).args) :
    g.replaceArg i old new = (false, g) := by
  unfold replaceArg
  rw [List.idxOf?_eq_none_iff.mpr h]

theorem replaceArg_of_mem {i : InsnId} {old : SiteId} (h : old ∈ (g.insn i).args) (new : SiteId) :
    ∃ n, (g.insn i).args.idxOf? old = some n ∧ (g.replaceArg i old new).1 = true := by
  cases hn : (g.insn i).args.idxOf? old with
  | none => exact absurd h (List.idxOf?_eq_none_iff.mp hn)
  | some n => exact ⟨n, rfl, by rw [replaceArg, hn]⟩

theorem wired_replaceArg (h : g.Wired P F U) (i : InsnId) (old : SiteId) {new : SiteId}
    (hs : g.Free new) : (g.replaceArg i old new).2.Wired P F U := by
  by_cases hmem : old ∈ (g.insn i).args
  · obtain ⟨n, hn, -⟩ := replaceArg_of_mem hmem new
    have e := argReplaced_replaceArg h hn hs
    generalize (g.replaceArg i old new).2 = g' at e
    refine ⟨slotted_replaceArg h.slots e hn hs, listed_replaceArg h.lists h.slots e hn hs,
      h.seats.congr e.blocks (fun j => (e.rest j).2.1) (fun j => (e.rest j).2.2)
        fun j _ => e.length_args j, h.names.congr e.live e.vars e.sites e.varOf, ?_, ?_⟩
    · intro j hj
      obtain ⟨hargs, hresult⟩ := h.tight j hj
      obtain ⟨hres, hblock, -⟩ := e.rest j
      constructor
      · intro hb
        rw [hblock] at hb
        rw [← List.length_eq_zero_iff, e.length_args, hargs hb]
        rfl
      · intro u hu
        rw [hres] at hu
        -- the result is neither of the two arguments
        obtain ⟨v, -, hv⟩ := h.slots.result j u hu
        have hold : u ≠ old := by
          rintro rfl
          exact (h.slots.assign v u hv).2.2 i hmem
        have hnew : u ≠ new := fun heq => hs.assign v (heq ▸ hv)
        rw [e.owner, if_neg hold, if_neg hnew, hblock]
        exact hresult u hu
    · intro v hv hU
      refine (h.defined v (e.vars ▸ hv) hU).congr (e.assign v) fun u hu hn => ?_
      -- the argument that left defines nothing
      have hold : u ≠ old := by
        rintro rfl
        exact (h.slots.assign v u hu).2.2 i hmem
      rw [e.owner, if_neg hold] at hn
      split at hn
      · cases hn
      · exact hn
  · rw [replaceArg_of_not_mem hmem]
    exact h

/-! ## Places -/

/-- An instruction has been put into a block. -/
structure InsnPlaced (g : MethodGraph) (b : BlockId) (n : Nat) (i : InsnId) (g' : MethodGraph) :
    Prop where
  insn : ∀ j, g'.insn j = if j = i then { g.insn j with block := some b } else g.insn j
  block : ∀ d, g'.block d =
    if d = b then { g.block d with insns := (g.block d).insns.insertIdx n i } else g.block d
  sites : g'.sites = g.sites
  vars : g'.vars = g.vars
  live : g'.live = g.live
  size : g'.blocks.size = g.blocks.size
  insns : g'.insns.size = g.insns.size

theorem insnPlaced_insertAt {b : BlockId} (hb : b.index < g.blocks.size) (n : Nat) {i : InsnId}
    (hi : i.index < g.insns.size) : InsnPlaced g b n i (g.insertAt b n i) :=
  ⟨insn_set (g := g.updateBlock b _) hi _, block_set hb _, rfl, rfl, rfl, Array.size_modify,
    Array.size_modify⟩

theorem seated_insertAt {g' : MethodGraph} {b : BlockId} {n : Nat} {i : InsnId} (h : g.Seated)
    (e : InsnPlaced g b n i g') (hn : n ≤ (g.block b).insns.length) (hi : (g.insn i).block = none) :
    g'.Seated := by
  have hsame : ∀ j, (g'.insn j).args = (g.insn j).args ∧ (g'.insn j).opcode = (g.insn j).opcode ∧
      (g'.insn j).incoming = (g.insn j).incoming := by
    intro j
    rw [e.insn]
    split <;> exact ⟨rfl, rfl, rfl⟩
  have hpreds : ∀ d, (g'.block d).preds = (g.block d).preds := by
    intro d
    rw [e.block]
    split <;> rfl
  have hout : ∀ d, i ∉ (g.block d).insns := by
    intro d hd
    rw [(h.block i d).mp hd] at hi
    cases hi
  constructor
  · intro j d
    have hold := h.block j d
    rw [e.insn, e.block]
    by_cases hd : d = b
    · subst hd
      rw [if_pos rfl]
      simp only [List.mem_insertIdx hn]
      by_cases hj : j = i
      · simp [hj]
      · simp [hj, hold]
    · rw [if_neg hd]
      by_cases hj : j = i
      · subst hj
        simp [hout d, Ne.symm hd]
      · simp [hj, hold]
  · intro d
    rw [e.block]
    split
    · next hd =>
      subst hd
      exact (List.perm_insertIdx i _ hn).nodup_iff.mpr
        (List.nodup_cons.mpr ⟨hout d, h.once d⟩)
    · exact h.once d
  · intro d
    rw [hpreds, e.size]
    exact h.preds d
  · intro j
    rw [(hsame j).2.2, e.size]
    exact h.incoming j
  · intro j
    rw [(hsame j).1, (hsame j).2.1, (hsame j).2.2]
    exact h.paired j

theorem wired_insertAt {i : InsnId} (h : g.Wired P (insert i F) U) {b : BlockId}
    (hb : b.index < g.blocks.size) {n : Nat} (hn : n ≤ (g.block b).insns.length)
    (hlt : i.index < g.insns.size) (hi : (g.insn i).block = none)
    (hres : ∀ s, (g.insn i).result = some s → (g.site s).owner = some i) :
    (g.insertAt b n i).Wired P F U := by
  have e := insnPlaced_insertAt hb n hlt
  generalize g.insertAt b n i = g' at e
  have hsame : ∀ j, ((g'.insn j).result = (g.insn j).result ∧ (g'.insn j).args = (g.insn j).args) ∧
      (g'.insn j).opcode = (g.insn j).opcode := by
    intro j
    rw [e.insn]
    split <;> exact ⟨⟨rfl, rfl⟩, rfl⟩
  have hsite := site_congr e.sites
  have hvarOf : ∀ s, g'.varOf? s = g.varOf? s := fun s =>
    varOf?_congr (congrArg Site.operand (hsite s))
  have hvar : ∀ v, g'.var v = g.var v := fun v => by rw [var, var, e.vars]
  refine ⟨h.slots.congr (fun j => (hsame j).1) (fun s => by rw [hsite]) hvarOf
      (fun v => by rw [hvar]) (by rw [e.sites]),
    h.lists.congr (fun j => (hsame j).1.2) (fun j => (hsame j).2) hvarOf
      (fun v => by rw [hvar]; exact ⟨rfl, rfl⟩), seated_insertAt h.seats e hn hi,
    h.names.congr e.live (by rw [e.vars]) (by rw [e.sites]) hvarOf, fun j hj => ?_, fun v hv hU => ?_⟩
  · by_cases hji : j = i
    · subst hji
      have hblock : (g'.insn j).block = some b := by rw [e.insn, if_pos rfl]
      refine ⟨fun hb' => (by rw [hblock] at hb'; cases hb'), fun s hs => ?_⟩
      rw [(hsame j).1.1] at hs
      rw [hsite, hres s hs, hblock]
      simp
    · have hblock : (g'.insn j).block = (g.insn j).block := by rw [e.insn, if_neg hji]
      exact (h.tight j (by simp [hji, hj])).congr hblock (hsame j).1 fun s _ => by rw [hsite]
  · exact (h.defined v (e.vars ▸ hv) hU).congr (by rw [hvar]) fun s _ hs => by rwa [hsite] at hs

/-- A placed instruction is found in its block. -/
theorem Seated.place? (h : g.Seated) {i : InsnId} (hi : (g.insn i).block.isSome = true) :
    ∃ b n, g.place? i = some (b, n) ∧ (g.block b).insns.idxOf? i = some n ∧
      (g.insn i).block = some b ∧ b.index < g.blocks.size ∧ n < (g.block b).insns.length := by
  obtain ⟨b, hb⟩ := Option.isSome_iff_exists.mp hi
  have hmem := (h.block i b).mpr hb
  cases hn : (g.block b).insns.idxOf? i with
  | none => exact absurd hmem (List.idxOf?_eq_none_iff.mp hn)
  | some n =>
    obtain ⟨hlt, -⟩ := List.idxOf?_eq_some_iff.mp hn
    refine ⟨b, n, ?_, hn, hb, block_lt hmem, hlt⟩
    simp [MethodGraph.place?, hb, hn]

theorem insertBefore_eq (h : g.Seated) {anchor : InsnId}
    (ha : (g.insn anchor).block.isSome = true) (i : InsnId) :
    ∃ b n, g.insertBefore anchor i = (true, g.insertAt b n i) ∧ b.index < g.blocks.size ∧
      n ≤ (g.block b).insns.length := by
  obtain ⟨b, n, hp, -, -, hb, hn⟩ := h.place? ha
  exact ⟨b, n, by rw [insertBefore, hp], hb, Nat.le_of_lt hn⟩

theorem insertAfter_eq (h : g.Seated) {anchor : InsnId}
    (ha : (g.insn anchor).block.isSome = true) (i : InsnId) :
    ∃ b n, g.insertAfter anchor i = (true, g.insertAt b n i) ∧ b.index < g.blocks.size ∧
      n ≤ (g.block b).insns.length := by
  obtain ⟨b, n, hp, -, -, hb, hn⟩ := h.place? ha
  exact ⟨b, n + 1, by rw [insertAfter, hp], hb, hn⟩

end
end MethodGraph
end TypeRecovery
