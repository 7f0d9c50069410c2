import TypeRecovery.Proofs.Graph.Construction

/- The code of a graph as it reads. A line is an instruction with what stands in its slots; links,
   places and inferred types are left aside. `Carried σ n g g'` says that an edit leaves what stands in
   the sites that were there, and that the first `n` instructions read the same once the variables are
   named by `σ`. There is one lemma for each edit that the rewriting steps are made of. -/
namespace TypeRecovery

/-! ## Lines -/

def Operand.rename (σ : VarId → VarId) : Operand → Operand
  | .reg v => .reg (σ v)
  | .lit value t => .lit value t

def Site.rename (σ : VarId → VarId) (x : Site) : Site := { x with operand := x.operand.rename σ }

/-- The instruction without its slots and its place. -/
def Insn.bare (i : Insn) : Insn := { i with result := none, args := [], block := none }

/-- An instruction as it reads. The incoming blocks of a phi are part of what it is, in the order of
    its arguments. -/
structure Line where
  code : Insn
  result : Option Site
  args : List Site
deriving DecidableEq, Repr

namespace Line

/-- The line with other names for the variables. -/
def rename (σ : VarId → VarId) (l : Line) : Line :=
  { l with result := l.result.map (Site.rename σ), args := l.args.map (Site.rename σ) }

/-- The line says which variable it defines. -/
def Defines (l : Line) (v : VarId) : Prop := ∃ x, l.result = some x ∧ x.operand = .reg v

/-- A soft cast or a move, which hands a variable on to the one it defines. -/
structure Forwards (l : Line) (v w : VarId) : Prop where
  code : l.code.opcode = .move ∨ (l.code.opcode = .checkCast ∧ l.code.soft = true)
  result : l.Defines v
  arg : ∃ x, l.args = [x] ∧ x.operand = .reg w

/-- What a copy repeats: all but the mark that inference has made the line, and the incoming blocks,
    which only a phi has. -/
def content (l : Line) : Line := { l with code := { l.code with synthetic := false, incoming := [] } }

variable {l l' : Line} {σ ρ : VarId → VarId} {v v' w w' : VarId}

theorem rename_rename (ρ σ : VarId → VarId) (l : Line) : (l.rename σ).rename ρ = l.rename (ρ ∘ σ) := by
  have hsite : Site.rename ρ ∘ Site.rename σ = Site.rename (ρ ∘ σ) := by
    funext ⟨operand, _, _, _, _⟩
    cases operand <;> rfl
  simp only [rename, Option.map_map, List.map_map, hsite]

theorem rename_id (l : Line) : l.rename id = l := by
  have hsite : Site.rename id = id := by
    funext ⟨operand, _, _, _, _⟩
    cases operand <;> rfl
  simp only [rename, hsite, Option.map_id, List.map_id, id]

theorem content_rename (σ : VarId → VarId) (l : Line) :
    (l.rename σ).content = l.content.rename σ := rfl

theorem Defines.unique (h : l.Defines v) (h' : l.Defines v') : v = v' := by
  obtain ⟨x, hx, hv⟩ := h
  obtain ⟨y, hy, hv'⟩ := h'
  rw [hx] at hy
  cases hy
  rw [hv] at hv'
  cases hv'
  rfl

theorem Defines.rename (h : l.Defines v) (σ : VarId → VarId) : (l.rename σ).Defines (σ v) := by
  obtain ⟨x, hx, hv⟩ := h
  exact ⟨x.rename σ, by simp [Line.rename, hx], by simp [Site.rename, hv, Operand.rename]⟩

theorem operand_of_rename {x : Site} (h : (x.rename σ).operand = .reg v) :
    ∃ u, σ u = v ∧ x.operand = .reg u := by
  cases hx : x.operand with
  | reg u => exact ⟨u, by simpa [Site.rename, hx, Operand.rename] using h, rfl⟩
  | lit value t => simp [Site.rename, hx, Operand.rename] at h

theorem Defines.of_rename (h : (l.rename σ).Defines v) : ∃ u, σ u = v ∧ l.Defines u := by
  obtain ⟨y, hy, hv⟩ := h
  obtain ⟨x, hx, rfl⟩ := Option.map_eq_some_iff.mp hy
  obtain ⟨u, hu, hreg⟩ := operand_of_rename hv
  exact ⟨u, hu, x, hx, hreg⟩

theorem Forwards.unique (h : l.Forwards v w) (h' : l.Forwards v' w') : v = v' ∧ w = w' := by
  refine ⟨h.result.unique h'.result, ?_⟩
  obtain ⟨x, hx, hw⟩ := h.arg
  obtain ⟨y, hy, hw'⟩ := h'.arg
  rw [hx] at hy
  cases hy
  rw [hw] at hw'
  cases hw'
  rfl

theorem Forwards.rename (h : l.Forwards v w) (σ : VarId → VarId) :
    (l.rename σ).Forwards (σ v) (σ w) := by
  obtain ⟨x, hx, hw⟩ := h.arg
  refine ⟨h.code, h.result.rename σ, x.rename σ, by simp [Line.rename, hx], ?_⟩
  simp [Site.rename, hw, Operand.rename]

theorem Forwards.of_rename (h : (l.rename σ).Forwards v w) :
    ∃ v' w', σ v' = v ∧ σ w' = w ∧ l.Forwards v' w' := by
  obtain ⟨v', hv, hdef⟩ := h.result.of_rename
  obtain ⟨y, hy, hw⟩ := h.arg
  obtain ⟨x, hx, rfl⟩ := List.map_eq_singleton_iff.mp hy
  obtain ⟨w', hw', hreg⟩ := operand_of_rename hw
  exact ⟨v', w', hv, hw', h.code, hdef, x, hx, hreg⟩

/-- A constant hands nothing on. -/
theorem Forwards.not_const (h : l.Forwards v w) : l.code.opcode ≠ .const := by
  rcases h.code with hop | ⟨hop, -⟩
  · rw [hop]; nofun
  · rw [hop]; nofun

end Line

namespace MethodGraph

def line (g : MethodGraph) (i : InsnId) : Line where
  code := (g.insn i).bare
  result := (g.insn i).result.map fun s => (g.site s).bare
  args := (g.insn i).args.map fun s => (g.site s).bare

section
variable {g g' : MethodGraph} {σ : VarId → VarId} {n : Nat}

theorem forwards_line {i : InsnId} {r a : SiteId} {v w : VarId}
    (hcode : (g.insn i).opcode = .move ∨ ((g.insn i).opcode = .checkCast ∧ (g.insn i).soft = true))
    (hr : (g.insn i).result = some r) (ha : (g.insn i).args = [a]) (hv : g.varOf? r = some v)
    (hw : g.varOf? a = some w) : (g.line i).Forwards v w := by
  refine ⟨hcode, ⟨(g.site r).bare, by simp [line, hr], ?_⟩, (g.site a).bare, by simp [line, ha], ?_⟩
  · simp [Site.bare, varOf?_eq_some.mp hv, Operand.bare]
  · simp [Site.bare, varOf?_eq_some.mp hw, Operand.bare]

theorem defines_line {i : InsnId} {s : SiteId} {v : VarId} (hs : (g.insn i).result = some s)
    (hv : g.varOf? s = some v) : (g.line i).Defines v := by
  refine ⟨(g.site s).bare, by simp [line, hs], ?_⟩
  simp [Site.bare, varOf?_eq_some.mp hv, Operand.bare]

/-- Sites that read the same are sites of the same variable. -/
theorem varOf?_of_bare {s u : SiteId} (h : (g'.site u).bare = (g.site s).bare) :
    g'.varOf? u = g.varOf? s := by
  have hop : (g'.site u).operand.bare = (g.site s).operand.bare := congrArg Site.operand h
  unfold varOf?
  revert hop
  cases (g'.site u).operand <;> cases (g.site s).operand <;> simp [Operand.bare]

theorem varOf?_of_bare_reg {v : VarId} {s : SiteId} (h : (g.site s).bare.operand = .reg v) :
    g.varOf? s = some v := by
  rw [varOf?_eq_some]
  unfold Site.bare at h
  cases hop : (g.site s).operand with
  | reg w => simpa [hop, Operand.bare] using h
  | lit value t => simp [hop, Operand.bare] at h

/-- In a wired graph, what variables and instructions name is there. -/
theorem Wired.intact {P U : Set VarId} {F : Set InsnId} (h : g.Wired P F U) : g.Intact := by
  have huse : ∀ {v s}, s ∈ (g.var v).uses → g.varOf? s = some v ∧ g.Holds s := by
    intro v s hs
    obtain ⟨hv, i, hi⟩ := (h.lists.uses v s).mp hs
    exact ⟨hv, h.slots.holds_arg hi⟩
  refine ⟨fun v s hs => ?_, fun v s hs => ?_, fun i s hs => ?_⟩
  · rcases List.mem_append.mp hs with hs | hs
    · exact (h.slots.assign v s (by simpa using hs)).1
    · exact (huse hs).1
  · rcases List.mem_append.mp hs with hs | hs
    · exact (h.slots.assign v s (by simpa using hs)).2.1
    · exact (huse hs).2
  · rcases List.mem_append.mp hs with hs | hs
    · exact h.slots.holds_result (by simpa using hs)
    · exact h.slots.holds_arg hs

/-- New names for variables that are none of the graph's change nothing in its code. -/
theorem rename_line (hnames : g.Named) (hg : g.Intact) (hσ : ∀ v, v.index < g.vars.size → σ v = v)
    (i : InsnId) : (g.line i).rename σ = g.line i := by
  have hsite : ∀ s ∈ (g.insn i).sites, (g.site s).bare.rename σ = (g.site s).bare := by
    intro s hs
    have hvar := hnames.var s
    unfold varOf? at hvar
    simp only [Site.rename, Site.bare]
    cases hop : (g.site s).operand with
    | reg v =>
      have hv := hvar v (hg.ofInsn i s hs) (by rw [hop])
      simp [Operand.bare, Operand.rename, hσ v hv]
    | lit value t => rfl
  simp only [Line.rename, line, Option.map_map, List.map_map]
  congr 1
  · refine Option.map_congr fun s hs => hsite s (List.mem_append_left _ ?_)
    simpa using hs
  · exact List.map_congr_left fun s hs => hsite s (List.mem_append_right _ hs)

/-! ## What edits carry over -/

structure Carried (σ : VarId → VarId) (n : Nat) (g g' : MethodGraph) : Prop where
  edited : Edited g g'
  bare : ∀ s, g.Holds s → (g'.site s).bare = (g.site s).bare
  place : ∀ i, i.index < n → (g'.insn i).block = (g.insn i).block
  lines : g.Intact → ∀ i, i.index < n → (g'.line i).rename σ = (g.line i).rename σ

instance (σ : VarId → VarId) (n : Nat) : IsPreorder MethodGraph (Carried σ n) where
  refl g := ⟨.refl g, fun _ _ => rfl, fun _ _ => rfl, fun _ _ _ => rfl⟩
  trans _ _ _ h h' := ⟨h.edited.trans h'.edited,
    fun s hs => (h'.bare s (h.edited.holds hs)).trans (h.bare s hs),
    fun i hi => (h'.place i hi).trans (h.place i hi),
    fun hg i hi => (h'.lines (h.edited.intact hg) i hi).trans (h.lines hg i hi)⟩

theorem Carried.varOf (h : Carried σ n g g') {s : SiteId} (hs : g.Holds s) :
    g'.varOf? s = g.varOf? s := varOf?_of_bare (h.bare s hs)

/-- An instruction with the same slots reads the same if what stands in them does. -/
theorem line_congr {i : InsnId} (hcode : ∃ b, g'.insn i = { g.insn i with block := b })
    (hbare : ∀ s ∈ (g.insn i).sites, (g'.site s).bare = (g.site s).bare) : g'.line i = g.line i := by
  obtain ⟨b, hi⟩ := hcode
  simp only [line, hi]
  congr 1
  · refine Option.map_congr fun s hs => hbare s (List.mem_append_left _ ?_)
    simpa using hs
  · exact List.map_congr_left fun s hs => hbare s (List.mem_append_right _ hs)

/-- The edit leaves the first instructions alone. -/
theorem carried_of_insn (he : Edited g g')
    (hbare : ∀ s, g.Holds s → (g'.site s).bare = (g.site s).bare)
    (hi : ∀ i : InsnId, i.index < n → g'.insn i = g.insn i) : Carried σ n g g' := by
  refine ⟨he, hbare, fun i hlt => by rw [hi i hlt], fun hg i hlt => ?_⟩
  rw [line_congr ⟨(g.insn i).block, hi i hlt⟩ fun s hs => hbare s (hg.ofInsn i s hs)]

theorem carried_newVar (reg : Int) (name : String) : Carried σ n g (g.newVar reg name).2 :=
  carried_of_insn (edited_newVar reg name) (fun _ _ => rfl) fun _ _ => rfl

theorem carried_newSite (x : Site) : Carried σ n g (g.newSite x).2 := by
  refine carried_of_insn (edited_newSite x) (fun s hs => ?_) fun _ _ => rfl
  rw [site_newSite, if_neg]
  rintro rfl
  exact not_holds_newSite x hs

theorem line_newSite (hg : g.Intact) (x : Site) (i : InsnId) : (g.newSite x).2.line i = g.line i :=
  line_congr ⟨(g.insn i).block, rfl⟩ fun s hs =>
    (carried_newSite (σ := id) (n := 0) x).bare s (hg.ofInsn i s hs)

theorem carried_duplicateFresh (s : SiteId) : Carried σ n g (g.duplicateFresh s).2 := by
  unfold duplicateFresh
  split
  · exact trans_of (Carried σ n) (carried_newVar _ _) (carried_newSite _)
  · exact carried_newSite _

/-- Where an instruction stands is not part of its line. -/
theorem insn_insertAt (b : BlockId) (m : Nat) (i j : InsnId) :
    ∃ place, (g.insertAt b m i).insn j = { g.insn j with block := place } := by
  have hinsn : (g.insertAt b m i).insn j = if i = j ∧ j.index < g.insns.size then
      { g.insn j with block := some b } else g.insn j := insn_updateInsn _ _ _ _
  rw [hinsn]
  split
  · exact ⟨some b, rfl⟩
  · exact ⟨(g.insn j).block, rfl⟩

theorem line_insertAt (b : BlockId) (m : Nat) (i j : InsnId) :
    (g.insertAt b m i).line j = g.line j := line_congr (insn_insertAt b m i j) fun _ _ => rfl

theorem carried_insertAt (b : BlockId) (m : Nat) {i : InsnId} (hi : n ≤ i.index) :
    Carried σ n g (g.insertAt b m i) := by
  refine carried_of_insn (edited_insertAt b m i) (fun _ _ => rfl) fun j hj => ?_
  refine (insn_updateInsn _ _ _ _).trans (if_neg ?_)
  rintro ⟨rfl, -⟩
  exact Nat.lt_irrefl _ (Nat.lt_of_lt_of_le hj hi)

/-- An instruction that was there is still found in its place. -/
theorem Carried.place? (h : Carried σ n g g') (hblocks : g'.blocks = g.blocks) {i : InsnId}
    (hi : i.index < n) : g'.place? i = g.place? i := by
  simp only [MethodGraph.place?, h.place i hi, MethodGraph.block, hblocks]

/-! ## Slots that are written -/

/-- Who owns a site is not part of what stands in it. -/
theorem bare_setOwner (s : SiteId) (o : Option InsnId) (u : SiteId) :
    ((g.updateSite s fun x => { x with owner := o }).site u).bare = (g.site u).bare :=
  g.updateSite_same (f := fun x => { x with owner := o }) Site.bare (fun _ => rfl) u

theorem bare_setResult (i : InsnId) (s : SiteId) (u : SiteId) :
    ((g.setResult i (some s)).site u).bare = (g.site u).bare := by
  have hdefine : (g.setResult i (some s)).sites = ((g.disown i).enter i s).sites :=
    (same_define (g := (g.disown i).enter i s) s).2.1
  have henter : (((g.disown i).enter i s).site u).bare = ((g.disown i).site u).bare :=
    bare_setOwner (g := (g.disown i).updateInsn i fun x => { x with result := some s }) s (some i) u
  rw [site_congr hdefine, henter]
  unfold disown
  split
  · exact bare_setOwner _ _ u
  · rfl

theorem insn_setResult {i : InsnId} (hi : i.index < g.insns.size) (s : SiteId) (j : InsnId) :
    (g.setResult i (some s)).insn j =
      if j = i then { g.insn j with result := some s } else g.insn j := by
  have hdefine : (g.setResult i (some s)).insns = ((g.disown i).enter i s).insns :=
    (same_define (g := (g.disown i).enter i s) s).1
  have hsame := (same_disown (g := g) i).1
  rw [insn_congr hdefine, ← insn_congr hsame j]
  exact insn_set (g := g.disown i) (by rw [hsame]; exact hi) (fun x => { x with result := some s }) j

theorem same_setResult (i : InsnId) (s : SiteId) :
    (g.setResult i (some s)).insns.size = g.insns.size ∧
      (g.setResult i (some s)).vars.size = g.vars.size ∧
      (g.setResult i (some s)).blocks = g.blocks := by
  obtain ⟨hinsns, -, hblocks, -, hvars⟩ := same_define (g := (g.disown i).enter i s) s
  obtain ⟨hinsns', hvars', hblocks', -⟩ := same_disown (g := g) i
  refine ⟨(congrArg Array.size hinsns).trans ?_, hvars.trans (congrArg Array.size hvars'),
    hblocks.trans hblocks'⟩
  rw [← hinsns']
  exact Array.size_modify

theorem bare_addArg (i : InsnId) (s : SiteId) (u : SiteId) :
    ((g.addArg i s).site u).bare = (g.site u).bare := by
  unfold addArg
  rw [site_congr (same_linkUse i s).2.1]
  exact bare_setOwner s (some i) u

theorem same_addArg (i : InsnId) (s : SiteId) : (g.addArg i s).insns.size = g.insns.size ∧
    (g.addArg i s).vars.size = g.vars.size ∧ (g.addArg i s).blocks = g.blocks := by
  obtain ⟨hinsns, -, hblocks, -, hvars⟩ := same_linkUse (g := (g.updateSite s
    fun x => { x with owner := some i }).updateInsn i fun x => { x with args := x.args ++ [s] }) i s
  exact ⟨(congrArg Array.size hinsns).trans Array.size_modify, hvars, hblocks⟩

theorem insn_addArg {i : InsnId} (hi : i.index < g.insns.size) (s : SiteId) (j : InsnId) :
    (g.addArg i s).insn j =
      if j = i then { g.insn j with args := (g.insn j).args ++ [s] } else g.insn j := by
  unfold addArg
  rw [insn_congr (same_linkUse i s).1]
  exact insn_set (g := g.updateSite s fun x => { x with owner := some i }) hi
    (fun x => { x with args := x.args ++ [s] }) j

theorem bare_replaceArg (i : InsnId) (old new : SiteId) (u : SiteId) :
    ((g.replaceArg i old new).2.site u).bare = (g.site u).bare := by
  unfold replaceArg
  split
  · rfl
  · simp only
    rw [site_congr (same_linkUse i new).2.1, site_congr (same_unlinkUse i old).2.1, bare_setOwner,
      bare_setOwner]
    rfl

theorem same_replaceArg (i : InsnId) (old new : SiteId) :
    (g.replaceArg i old new).2.insns.size = g.insns.size ∧
      (g.replaceArg i old new).2.vars.size = g.vars.size ∧
      (g.replaceArg i old new).2.blocks = g.blocks := by
  unfold replaceArg
  split
  · exact ⟨rfl, rfl, rfl⟩
  · simp only
    rw [(same_linkUse i new).1, (same_unlinkUse i old).1, (same_linkUse i new).2.2.2.2,
      (same_unlinkUse i old).2.2.2.2, (same_linkUse i new).2.2.1, (same_unlinkUse i old).2.2.1]
    exact ⟨Array.size_modify, rfl, rfl⟩

/-- Replacing an argument writes the place that had it. -/
theorem insn_replaceArg {i : InsnId} (hi : i.index < g.insns.size) (old new : SiteId) (j : InsnId) :
    (g.replaceArg i old new).2.insn j = g.insn j ∨
      (j = i ∧ ∃ m, (g.insn i).args[m]? = some old ∧
        (g.replaceArg i old new).2.insn j = { g.insn j with args := (g.insn j).args.set m new }) := by
  unfold replaceArg
  split
  · exact .inl rfl
  · next m hm =>
    simp only
    rw [insn_congr (same_linkUse i new).1, insn_congr (same_unlinkUse i old).1]
    have hset := insn_set hi (fun x => { x with args := x.args.set m new }) j
    obtain ⟨hlt, hat, -⟩ := List.idxOf?_eq_some_iff.mp hm
    by_cases hj : j = i
    · rw [if_pos hj] at hset
      exact .inr ⟨hj, m, by simp [hlt, hat], hset⟩
    · rw [if_neg hj] at hset
      exact .inl hset

theorem line_replaceArg {i j : InsnId} (hne : j ≠ i) (hi : i.index < g.insns.size)
    (old new : SiteId) : (g.replaceArg i old new).2.line j = g.line j := by
  refine line_congr ⟨(g.insn j).block, ?_⟩ fun s _ => bare_replaceArg i old new s
  rcases insn_replaceArg hi old new j with hj | ⟨rfl, -⟩
  · exact hj
  · exact absurd rfl hne

theorem result_replaceArg {i : InsnId} (hi : i.index < g.insns.size) (old new : SiteId) (j : InsnId) :
    ((g.replaceArg i old new).2.line j).result = (g.line j).result := by
  simp only [line, bare_replaceArg]
  rcases insn_replaceArg hi old new j with hj | ⟨rfl, m, -, hj⟩
  · rw [hj]
  · rw [hj]

/-- An instruction gets a result that reads like the one it had. -/
theorem carried_setResult {i : InsnId} (hi : i.index < g.insns.size) {s : SiteId} (hs : g.Holds s)
    (hres : i.index < n → ∃ r, (g.insn i).result = some r ∧
      (g.site s).bare.rename σ = (g.site r).bare.rename σ) :
    Carried σ n g (g.setResult i (some s)) := by
  have hbare := bare_setResult (g := g) i s
  refine ⟨edited_setResult i fun u hu => by cases hu; exact hs, fun u _ => hbare u, fun j _ => ?_,
    fun _ j hj => ?_⟩
  · rw [insn_setResult hi]
    split <;> rfl
  rw [Line.rename, Line.rename, line, line, insn_setResult hi]
  simp only [hbare]
  split
  · next hji =>
    subst hji
    obtain ⟨r, hr, heq⟩ := hres hj
    simp [hr, heq, Insn.bare]
  · rfl

/-- An argument is replaced by one that reads like it. -/
theorem carried_replaceArg {i : InsnId} (hi : i.index < g.insns.size) {old new : SiteId}
    (hnew : g.Holds new) (heq : (g.site new).bare.rename σ = (g.site old).bare.rename σ) :
    Carried σ n g (g.replaceArg i old new).2 := by
  have hbare := bare_replaceArg (g := g) i old new
  refine ⟨edited_replaceArg i old hnew, fun u _ => hbare u, fun j _ => ?_, fun _ j _ => ?_⟩
  · rcases insn_replaceArg hi old new j with hj | ⟨-, m, -, hj⟩
    · rw [hj]
    · rw [hj]
  rw [Line.rename, Line.rename, line, line]
  simp only [hbare]
  rcases insn_replaceArg hi old new j with hj | ⟨rfl, m, hm, hj⟩
  · rw [hj]
  · rw [hj]
    simp only [Insn.bare, List.map_set, heq, List.map_map]
    congr 1
    obtain ⟨hlt, hat⟩ := List.getElem?_eq_some_iff.mp hm
    refine List.ext_getElem (by simp) fun k hk _ => ?_
    rw [List.getElem_set]
    split
    · next hmk =>
      subst hmk
      simp [hat]
    · rfl

/-! ## New instructions -/

/-- Arguments are added to an instruction one after the other. -/
theorem insn_addArgs {i : InsnId} (args : List SiteId) (hi : i.index < g.insns.size) (j : InsnId) :
    (args.foldl (fun g s => g.addArg i s) g).insn j =
      if j = i then { g.insn j with args := (g.insn j).args ++ args } else g.insn j := by
  induction args generalizing g with
  | nil => simp
  | cons a args ih =>
    have hsize : i.index < (g.addArg i a).insns.size := by
      rw [(same_addArg i a).1]
      exact hi
    rw [List.foldl_cons, ih hsize, insn_addArg hi]
    split <;> simp

theorem bare_addArgs (i : InsnId) (args : List SiteId) (u : SiteId) :
    ((args.foldl (fun g s => g.addArg i s) g).site u).bare = (g.site u).bare := by
  induction args generalizing g with
  | nil => rfl
  | cons a args ih => rw [List.foldl_cons, ih, bare_addArg]

theorem same_addArgs (i : InsnId) (args : List SiteId) :
    (args.foldl (fun g s => g.addArg i s) g).insns.size = g.insns.size ∧
      (args.foldl (fun g s => g.addArg i s) g).vars.size = g.vars.size ∧
      (args.foldl (fun g s => g.addArg i s) g).blocks = g.blocks := by
  induction args generalizing g with
  | nil => exact ⟨rfl, rfl, rfl⟩
  | cons a args ih =>
    obtain ⟨hinsns, hvars, hblocks⟩ := ih (g := g.addArg i a)
    obtain ⟨hinsns', hvars', hblocks'⟩ := same_addArg (g := g) i a
    exact ⟨hinsns.trans hinsns', hvars.trans hvars', hblocks.trans hblocks'⟩

theorem same_buildInsn (x : Insn) (r : SiteId) (args : List SiteId) :
    (g.buildInsn x (some r) args).2.insns.size = g.insns.size + 1 ∧
      (g.buildInsn x (some r) args).2.vars.size = g.vars.size ∧
      (g.buildInsn x (some r) args).2.blocks = g.blocks := by
  obtain ⟨hinsns, hvars, hblocks⟩ := same_addArgs ⟨g.insns.size⟩ args
    (g := (g.newInsn x).2.setResult ⟨g.insns.size⟩ (some r))
  obtain ⟨hinsns', hvars', hblocks'⟩ := same_setResult (g := (g.newInsn x).2) ⟨g.insns.size⟩ r
  refine ⟨hinsns.trans (hinsns'.trans ?_), hvars.trans hvars', hblocks.trans hblocks'⟩
  exact Array.size_push _

theorem bare_buildInsn (x : Insn) (r : SiteId) (args : List SiteId) (u : SiteId) :
    ((g.buildInsn x (some r) args).2.site u).bare = (g.site u).bare :=
  (bare_addArgs _ args u).trans (bare_setResult (g := (g.newInsn x).2) _ r u)

theorem insn_buildInsn (x : Insn) (r : SiteId) (args : List SiteId) (j : InsnId) :
    (g.buildInsn x (some r) args).2.insn j =
      if j = ⟨g.insns.size⟩ then { x with result := some r, args := x.args ++ args } else g.insn j := by
  have hnew := insn_newInsn (g := g) x
  have hlt : (⟨g.insns.size⟩ : InsnId).index < (g.newInsn x).2.insns.size := by simp [newInsn]
  have hlt' : (⟨g.insns.size⟩ : InsnId).index <
      ((g.newInsn x).2.setResult ⟨g.insns.size⟩ (some r)).insns.size := by
    rw [(same_setResult _ r).1]
    exact hlt
  refine (insn_addArgs args hlt' j).trans ?_
  rw [insn_setResult hlt, hnew]
  by_cases hj : j = ⟨g.insns.size⟩
  · simp [hj, newInsn]
  · simp [hj, newInsn]

theorem carried_buildInsn {x : Insn} (hx : x.sites = []) {r : SiteId} (hr : g.Holds r)
    {args : List SiteId} (ha : ∀ u ∈ args, g.Holds u) (hn : n ≤ g.insns.size) :
    Carried σ n g (g.buildInsn x (some r) args).2 := by
  have hedited : Edited g (g.buildInsn x (some r) args).2 :=
    edited_buildInsn hx (fun u hu => by cases hu; exact hr) ha
  refine carried_of_insn hedited (fun u _ => bare_buildInsn x r args u) fun j hj => ?_
  rw [insn_buildInsn, if_neg]
  rintro rfl
  exact Nat.lt_irrefl _ (Nat.lt_of_lt_of_le hj hn)

/-- A register site is copied to a site of its own on a new variable. -/
theorem duplicateFresh_of_varOf? {s : SiteId} {v : VarId} (hv : g.varOf? s = some v) :
    g.duplicateFresh s = (g.newVar (g.var v).reg).2.duplicateWith s ⟨g.vars.size⟩ := by
  unfold duplicateFresh
  rw [hv]
  rfl

theorem insns_duplicateFresh (s : SiteId) : (g.duplicateFresh s).2.insns = g.insns := by
  unfold duplicateFresh
  split <;> rfl

theorem same_duplicateFresh {s : SiteId} {v : VarId} (hv : g.varOf? s = some v) :
    (g.duplicateFresh s).2.vars.size = g.vars.size + 1 ∧ (g.duplicateFresh s).2.blocks = g.blocks := by
  rw [duplicateFresh_of_varOf? hv]
  exact ⟨Array.size_push _, rfl⟩

theorem bare_duplicateFresh {s : SiteId} {v : VarId} (hv : g.varOf? s = some v) :
    ((g.duplicateFresh s).2.site (g.duplicateFresh s).1).bare =
      { (g.site s).bare with operand := .reg ⟨g.vars.size⟩ } := by
  rw [duplicateFresh_of_varOf? hv, duplicateWith, site_newSite, if_pos rfl]
  rfl

/-- It reads like the site if the new variable is named like the old one. -/
theorem rename_fresh {x : Site} {v w : VarId} (hx : x.operand = .reg v) (hσ : σ w = σ v) :
    Site.rename σ { x with operand := .reg w } = x.rename σ := by
  simp [Site.rename, hx, Operand.rename, hσ]

/-! ## Copies of instructions -/

/-- An instruction has been given copies of some arguments. -/
structure ArgsCopied (i : InsnId) (args : List SiteId) (g g' : MethodGraph) : Prop where
  sites : g.sites.size ≤ g'.sites.size
  insns : g'.insns.size = g.insns.size
  vars : g'.vars.size = g.vars.size
  blocks : g'.blocks = g.blocks
  bare : ∀ s, g.Holds s → (g'.site s).bare = (g.site s).bare
  insn : ∀ j, j ≠ i → g'.insn j = g.insn j
  self : ∃ new, g'.insn i = { g.insn i with args := (g.insn i).args ++ new } ∧
    (∀ s ∈ new, g'.Holds s) ∧
    new.map (fun s => (g'.site s).bare) = args.map fun s => (g.site s).bare

theorem argsCopied_copyArgs {i : InsnId} (args : List SiteId) (hi : i.index < g.insns.size)
    (hargs : ∀ a ∈ args, g.Holds a) :
    ArgsCopied i args g
      (args.foldl (fun g s => (g.duplicate s).2.addArg i (g.duplicate s).1) g) := by
  induction args generalizing g with
  | nil =>
    exact ⟨Nat.le_refl _, rfl, rfl, rfl, fun _ _ => rfl, fun _ _ => rfl, [], by simp, by simp, rfl⟩
  | cons a args ih =>
    rw [List.foldl_cons]
    have hheld := holds_newSite (g := g) { g.site a with owner := none }
    have hnew : (g.duplicate a).2.site (g.duplicate a).1 = { g.site a with owner := none } := by
      rw [duplicate, site_newSite, if_pos rfl]
    have hext := extended_duplicate (g := g) a
    have hvars : (g.duplicate a).2.vars.size = g.vars.size := rfl
    change (g.duplicate a).2.Holds (g.duplicate a).1 at hheld
    generalize (g.duplicate a).1 = d at hheld hnew ⊢
    generalize (g.duplicate a).2 = g₁ at hheld hnew hext hvars ⊢
    have hi₁ : i.index < g₁.insns.size := hext.insns ▸ hi
    have hinsn := insn_addArg hi₁ d
    have hbare := bare_addArg (g := g₁) i d
    have hgrow₁ := (edited_addArg i hheld).grows
    obtain ⟨hinsns₂, hvars₂, hblocks₂⟩ := same_addArg (g := g₁) i d
    generalize g₁.addArg i d = g₂ at hinsn hbare hgrow₁ hinsns₂ hvars₂ hblocks₂ ⊢
    have hkeep : ∀ {s}, g.Holds s → (g₂.site s).bare = (g.site s).bare := fun hs => by
      rw [hbare, hext.site _ hs]
    have hle : g.sites.size ≤ g₂.sites.size := Nat.le_trans hext.sites hgrow₁
    obtain ⟨hgrow, hins, hv, hblocks, hb, hothers, new, hself, hnews, hmap⟩ := ih (g := g₂)
      (by rw [hinsns₂]; exact hi₁)
      fun b hb => Nat.lt_of_lt_of_le (hargs b (List.mem_cons_of_mem a hb)) hle
    have hd : g₂.Holds d := Nat.lt_of_lt_of_le hheld hgrow₁
    refine ⟨Nat.le_trans hle hgrow, by rw [hins, hinsns₂, hext.insns], by rw [hv, hvars₂, hvars],
      by rw [hblocks, hblocks₂, hext.blocks], fun s hs => ?_, fun j hj => ?_, d :: new, ?_, ?_, ?_⟩
    · rw [hb s (Nat.lt_of_lt_of_le hs hle), hkeep hs]
    · rw [hothers j hj, hinsn, if_neg hj, hext.insn]
    · rw [hself, hinsn, if_pos rfl, hext.insn]
      simp
    · intro s hs
      rcases List.mem_cons.mp hs with rfl | hs
      · exact Nat.lt_of_lt_of_le hd hgrow
      · exact hnews s hs
    · rw [List.map_cons, List.map_cons, hmap, hb d hd, hbare, hnew]
      congr 1
      refine List.map_congr_left fun s hs => hkeep (hargs s (List.mem_cons_of_mem a hs))

/-- The description that a copy starts from. -/
def blank (g : MethodGraph) (i : InsnId) : Insn :=
  { g.insn i with result := none, args := [], block := none, incoming := [] }

/-- A copy without its result. -/
def copySlots (g : MethodGraph) (i : InsnId) : MethodGraph :=
  (g.insn i).args.foldl (fun g' s => (g'.duplicate s).2.addArg ⟨g.insns.size⟩ (g'.duplicate s).1)
    (g.newInsn (g.blank i)).2

theorem copyFresh_of_result {i : InsnId} {r : SiteId} (hr : (g.insn i).result = some r) :
    (g.copyFresh i).2 = ((g.copySlots i).duplicateFresh r).2.setResult ⟨g.insns.size⟩
      (some ((g.copySlots i).duplicateFresh r).1) := by
  unfold copyFresh
  simp only [hr]
  rfl

theorem argsCopied_copySlots (hg : g.Intact) (i : InsnId) :
    ArgsCopied ⟨g.insns.size⟩ (g.insn i).args (g.newInsn (g.blank i)).2 (g.copySlots i) :=
  argsCopied_copyArgs (g.insn i).args (by simp [newInsn]) fun a ha =>
    hg.ofInsn i a (List.mem_append_right _ ha)

/-- The copy reads like the instruction, but on a new variable. -/
theorem content_copyFresh (hg : g.Intact) {i : InsnId} {r : SiteId} {v : VarId}
    (hr : (g.insn i).result = some r) (hv : g.varOf? r = some v) :
    ((g.copyFresh i).2.line ⟨g.insns.size⟩).content =
      { (g.line i).content with
        result := some { (g.site r).bare with operand := .reg ⟨g.vars.size⟩ } } := by
  rw [copyFresh_of_result hr]
  have hnew : (g.newInsn (g.blank i)).2.insn ⟨g.insns.size⟩ = g.blank i :=
    (insn_newInsn (g := g) (g.blank i) ⟨g.insns.size⟩).trans (if_pos rfl)
  obtain ⟨-, hinsns, hvars, -, hbare, -, new, hself, hnews, hmap⟩ := argsCopied_copySlots hg i
  have hrbare := hbare r (hg.ofInsn i r (List.mem_append_left _ (by simp [hr])))
  have hlt : (⟨g.insns.size⟩ : InsnId).index < (g.copySlots i).insns.size := by
    rw [hinsns]
    simp [newInsn]
  generalize g.copySlots i = g₁ at hvars hself hnews hmap hrbare hlt ⊢
  -- then the result
  have hfresh := bare_duplicateFresh (g := g₁) (s := r) ((varOf?_of_bare hrbare).trans hv)
  have hcarried := carried_duplicateFresh (σ := id) (n := 0) (g := g₁) r
  have hinsns₁ := insns_duplicateFresh (g := g₁) r
  generalize (g₁.duplicateFresh r).1 = d at hfresh ⊢
  generalize (g₁.duplicateFresh r).2 = g₂ at hfresh hcarried hinsns₁ ⊢
  have hset := insn_setResult (g := g₂) (by rw [hinsns₁]; exact hlt) d ⟨g.insns.size⟩
  have hbare₂ := bare_setResult (g := g₂) ⟨g.insns.size⟩ d
  rw [if_pos rfl, insn_congr hinsns₁, hself, hnew] at hset
  rw [line, hset]
  simp only [hbare₂, hfresh, hrbare, hvars, Line.content, line, blank, Insn.bare, List.nil_append,
    Option.map_some]
  congr 1
  exact (List.map_congr_left fun s hs => hcarried.bare s (hnews s hs)).trans hmap

theorem same_copyFresh (hg : g.Intact) {i : InsnId} {r : SiteId} {v : VarId}
    (hr : (g.insn i).result = some r) (hv : g.varOf? r = some v) :
    (g.copyFresh i).2.insns.size = g.insns.size + 1 ∧ (g.copyFresh i).2.vars.size = g.vars.size + 1 ∧
      (g.copyFresh i).2.blocks = g.blocks := by
  rw [copyFresh_of_result hr]
  obtain ⟨-, hinsns, hvars, hblocks, hbare, -⟩ := argsCopied_copySlots hg i
  have hrbare := hbare r (hg.ofInsn i r (List.mem_append_left _ (by simp [hr])))
  obtain ⟨hvars₁, hblocks₁⟩ := same_duplicateFresh ((varOf?_of_bare hrbare).trans hv)
  obtain ⟨hinsns₂, hvars₂, hblocks₂⟩ := same_setResult (g := ((g.copySlots i).duplicateFresh r).2)
    ⟨g.insns.size⟩ ((g.copySlots i).duplicateFresh r).1
  refine ⟨?_, ?_, ?_⟩
  · rw [hinsns₂, insns_duplicateFresh, hinsns]
    exact Array.size_push _
  · rw [hvars₂, hvars₁, hvars]
    rfl
  · rw [hblocks₂, hblocks₁, hblocks]
    rfl

theorem carried_copyFresh (hg : g.Intact) {i : InsnId} {r : SiteId}
    (hr : (g.insn i).result = some r) (hn : n ≤ g.insns.size) : Carried σ n g (g.copyFresh i).2 := by
  have hedited := edited_copyFresh (g := g) i
  rw [copyFresh_of_result hr] at hedited ⊢
  obtain ⟨hgrow, hinsns, -, -, hbare, hothers, -⟩ := argsCopied_copySlots hg i
  have hlt : (⟨g.insns.size⟩ : InsnId).index < (g.copySlots i).insns.size := by
    rw [hinsns]
    simp [newInsn]
  have hcarried := carried_duplicateFresh (σ := σ) (n := n) (g := g.copySlots i) r
  have hinsn := insns_duplicateFresh (g := g.copySlots i) r
  refine carried_of_insn hedited (fun s hs => ?_) fun j hj => ?_
  · rw [bare_setResult, hcarried.bare s (Nat.lt_of_lt_of_le hs hgrow)]
    exact hbare s hs
  · have hne : j ≠ ⟨g.insns.size⟩ := by
      rintro rfl
      exact Nat.lt_irrefl _ (Nat.lt_of_lt_of_le hj hn)
    rw [insn_setResult (by rw [hinsn]; exact hlt), if_neg hne, insn_congr hinsn, hothers j hne]
    exact (insn_newInsn (g := g) (g.blank i) j).trans (if_neg hne)

end
end MethodGraph
end TypeRecovery
