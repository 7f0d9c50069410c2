import Mathlib.Logic.Function.Basic
import Mathlib.Logic.Relation
import TypeRecovery.Proofs.Graph.Lines

/- Graphs that differ by copies alone. In a contraction the variables of a graph are named by variables
   of an older one, such that the added instructions say no more than which variables are the same: soft
   casts and moves from a variable to itself, and constants that are repeated. Under these names and
   without the added instructions the code is that of the older graph. Adding one copy to a graph, with
   a variable of its own, extends a contraction. -/
namespace TypeRecovery.MethodGraph

/-! ## Contractions -/

/-- The instruction is in the code now and was not in that of `g`. -/
def Added (g g' : MethodGraph) (i : InsnId) : Prop := i ∈ g'.placed ∧ i ∉ g.placed

/-- What the added instructions make the same: the variable that a soft cast or a move defines and the
    one it reads, and the variables that a repeated constant and the original constant define. -/
inductive Identified (g g' : MethodGraph) (original : InsnId → InsnId) : VarId → VarId → Prop where
  | forwarded {i : InsnId} {v w : VarId} : Added g g' i → (g'.line i).Forwards v w →
      Identified g g' original v w
  | repeated {i : InsnId} {v w : VarId} : Added g g' i → (g'.line i).code.opcode = .const →
      (g'.line i).Defines v → (g'.line (original i)).Defines w → Identified g g' original v w

/-- The line repeats a constant of the older graph. -/
structure Repeats (g : MethodGraph) (j : InsnId) (l : Line) : Prop where
  placed : j ∈ g.placed
  const : (g.line j).code.opcode = .const
  content : l.content = (g.line j).content

structure Contraction (g g' : MethodGraph) (original : InsnId → InsnId) (name : VarId → VarId) :
    Prop where
  /-- Without the added instructions, every block has its instructions in their order. -/
  block : ∀ b, { g'.block b with insns := (g'.block b).insns.filter (· ∈ g.placed) } = g.block b
  size : g'.blocks.size = g.blocks.size
  /-- Under their names, every instruction reads as it did. -/
  line : ∀ i ∈ g.placed, (g'.line i).rename name = g.line i
  /-- All that is added are soft casts, moves and repeated constants. -/
  added : ∀ i, Added g g' i →
    (∃ v w, (g'.line i).Forwards v w) ∨ Repeats g (original i) ((g'.line i).rename name)
  /-- The older variables keep their names, and every variable has the name of one of them. -/
  kept : ∀ v ∈ g.live, v ∈ g'.live ∧ name v = v
  /-- Variables have the same name just if the added instructions make them the same. -/
  named : ∀ v ∈ g'.live, name v ∈ g.live ∧ Relation.EqvGen (Identified g g' original) v (name v)
  identified : ∀ v w, Identified g g' original v w → name v = name w

section
variable {g g₁ g₂ : MethodGraph} {original original' : InsnId → InsnId} {name : VarId → VarId}
variable {x : InsnId} {u w : VarId}

theorem contraction_refl (g : MethodGraph) (original : InsnId → InsnId) :
    Contraction g g original id where
  block b := by
    have hall : ∀ i ∈ (g.block b).insns, i ∈ g.placed := fun i hi => mem_placed.mpr ⟨b, hi⟩
    have hfilter : (g.block b).insns.filter (· ∈ g.placed) = (g.block b).insns :=
      List.filter_eq_self.mpr fun i hi => by simpa using hall i hi
    rw [hfilter]
  size := rfl
  line i _ := (g.line i).rename_id
  added i hi := absurd hi.1 hi.2
  kept v hv := ⟨hv, rfl⟩
  named v hv := ⟨hv, .refl v⟩
  identified v w h := by
    cases h with
    | forwarded hi _ => exact absurd hi.1 hi.2
    | repeated hi _ _ _ => exact absurd hi.1 hi.2

/-- The instructions of the older graph are still there. -/
theorem Contraction.placed (h : Contraction g g₁ original name) {i : InsnId} (hi : i ∈ g.placed) :
    i ∈ g₁.placed := by
  obtain ⟨b, hb⟩ := mem_placed.mp hi
  rw [← h.block b] at hb
  exact mem_placed.mpr ⟨b, (List.mem_filter.mp hb).1⟩

/-- A constant that is copied is one of the older graph, or repeats one of them. -/
theorem Contraction.origin (h : Contraction g g₁ original name) {j : InsnId} (hj : j ∈ g₁.placed)
    (hop : (g₁.line j).code.opcode = .const) :
    ∃ k, Repeats g k ((g₁.line j).rename name) ∧ (j = k ∨ (Added g g₁ j ∧ k = original j)) := by
  by_cases hold : j ∈ g.placed
  · refine ⟨j, ⟨hold, ?_, by rw [h.line j hold]⟩, .inl rfl⟩
    rw [← h.line j hold]
    exact hop
  · rcases h.added j ⟨hj, hold⟩ with ⟨a, b, hab⟩ | hrep
    · exact absurd hop hab.not_const
    · exact ⟨original j, hrep, .inr ⟨⟨hj, hold⟩, rfl⟩⟩

/-! ## One more copy -/

/-- The name of a fresh variable. -/
def naming (w u : VarId) : VarId → VarId := Function.update id w u

@[simp] theorem naming_self (w u : VarId) : naming w u w = u := Function.update_self _ _ _

@[simp] theorem naming_right (w u : VarId) : naming w u u = u := by
  by_cases h : u = w
  · rw [h, naming_self]
  · exact Function.update_of_ne h _ _

theorem naming_of_ne {v : VarId} (h : v ≠ w) : naming w u v = v := Function.update_of_ne h _ _

/-- In the graph `g'`, the instruction `x` makes a fresh variable `w` the same as a variable `u` of
    `g`. -/
def IsCopy (g : MethodGraph) (w u : VarId) (g' : MethodGraph) (x : InsnId) : Prop :=
  (g'.line x).Forwards w u ∨ (g'.line x).Forwards u w ∨
    ∃ j, Repeats g j ((g'.line x).rename (naming w u)) ∧ (g'.line j).Defines u ∧ (g'.line x).Defines w

theorem IsCopy.congr (h : IsCopy g w u g₁ x) (hx : g₂.line x = g₁.line x)
    (hres : ∀ j, (g₂.line j).result = (g₁.line j).result) : IsCopy g w u g₂ x := by
  unfold IsCopy
  rw [hx]
  refine h.imp_right (Or.imp_right ?_)
  rintro ⟨j, hrep, ⟨y, hy, hu⟩, hw⟩
  exact ⟨j, hrep, ⟨y, (hres j).trans hy, hu⟩, hw⟩

/-- A copy has been added to the code. Some slots may have changed from one of its variables to the
    other. -/
structure CopyAdded (g : MethodGraph) (x : InsnId) (w u : VarId) (g' : MethodGraph) : Prop where
  block : ∀ b, { g'.block b with insns := (g'.block b).insns.filter (· ≠ x) } = g.block b
  size : g'.blocks.size = g.blocks.size
  unplaced : x ∉ g.placed
  placed : x ∈ g'.placed
  line : ∀ i ∈ g.placed, (g'.line i).rename (naming w u) = g.line i
  fresh : w ∉ g.live
  old : u ∈ g.live
  live : ∀ v, v ∈ g'.live ↔ v = w ∨ v ∈ g.live
  copy : IsCopy g w u g' x

theorem CopyAdded.mem_placed (e : CopyAdded g₁ x w u g₂) {i : InsnId} (hi : i ≠ x) :
    i ∈ g₂.placed ↔ i ∈ g₁.placed := by
  rw [MethodGraph.mem_placed, MethodGraph.mem_placed]
  refine exists_congr fun b => ?_
  rw [← e.block b]
  simp [hi]

theorem CopyAdded.still_placed (e : CopyAdded g₁ x w u g₂) {i : InsnId} (hi : i ∈ g₁.placed) :
    i ∈ g₂.placed :=
  (e.mem_placed fun heq => e.unplaced (heq ▸ hi)).mpr hi

theorem CopyAdded.added (e : CopyAdded g₁ x w u g₂) {i : InsnId} (hi : i ≠ x) :
    Added g g₂ i ↔ Added g g₁ i := by
  rw [Added, Added, e.mem_placed hi]

section
variable (h : Contraction g g₁ original name) (e : CopyAdded g₁ x w u g₂)
include h e

theorem added_copy : Added g g₂ x := ⟨e.placed, fun hx => e.unplaced (h.placed hx)⟩

/-- What an older instruction makes the same now, it did before under the names. -/
theorem identified_before {i : InsnId} {v v' : VarId} (hadd : Added g g₁ i)
    (hv : (g₂.line i).Forwards v v' ∨ ((g₂.line i).code.opcode = .const ∧
      (g₂.line i).Defines v ∧ (g₂.line (original i)).Defines v')) :
    Identified g g₁ original (naming w u v) (naming w u v') := by
  have hline := e.line i hadd.1
  rcases hv with hv | ⟨hop, hv, hv'⟩
  · exact .forwarded hadd (hline ▸ hv.rename _)
  · rcases h.added i hadd with ⟨a, b, hab⟩ | hrep
    · rw [← hline] at hab
      obtain ⟨a', b', -, -, hf⟩ := hab.of_rename
      exact absurd hop hf.not_const
    · have hline' := e.line (original i) (h.placed hrep.placed)
      refine .repeated hadd ?_ (hline ▸ hv.rename _) (hline' ▸ hv'.rename _)
      rw [← hline]
      exact hop

/-- What an instruction made the same before, it still does, once the two variables of the copy are
    the same. -/
theorem identified_after (hsame : ∀ i, i ≠ x → original' i = original i)
    (hlink : Relation.EqvGen (Identified g g₂ original') w u) {v v' : VarId}
    (hv : Identified g g₁ original v v') : Relation.EqvGen (Identified g g₂ original') v v' := by
  have hname : ∀ a, Relation.EqvGen (Identified g g₂ original') (naming w u a) a := by
    intro a
    by_cases ha : a = w
    · subst ha
      rw [naming_self]
      exact .symm _ _ hlink
    · rw [naming_of_ne ha]
      exact .refl a
  have hboth : ∀ a b, Identified g g₂ original' a b →
      Relation.EqvGen (Identified g g₂ original') (naming w u a) (naming w u b) := fun a b hab =>
    .trans _ _ _ (hname a) (.trans _ _ _ (.rel _ _ hab) (.symm _ _ (hname b)))
  cases hv with
  | @forwarded i _ _ hadd hf =>
    have hne : i ≠ x := fun heq => e.unplaced (heq ▸ hadd.1)
    rw [← e.line i hadd.1] at hf
    obtain ⟨a, b, rfl, rfl, hab⟩ := hf.of_rename
    exact hboth a b (.forwarded ((e.added hne).mpr hadd) hab)
  | @repeated i _ _ hadd hop hdef hdef' =>
    have hne : i ≠ x := fun heq => e.unplaced (heq ▸ hadd.1)
    have hline := e.line i hadd.1
    rcases h.added i hadd with ⟨a, b, hab⟩ | hrep
    · exact absurd hop hab.not_const
    · rw [← hline] at hop hdef
      rw [← e.line (original i) (h.placed hrep.placed)] at hdef'
      obtain ⟨a, rfl, ha⟩ := hdef.of_rename
      obtain ⟨b, rfl, hb⟩ := hdef'.of_rename
      exact hboth a b (.repeated ((e.added hne).mpr hadd) hop ha
        (by rw [hsame i hne]; exact hb))

/-- A contraction goes on over a copy, if the copy itself is in order. -/
theorem Contraction.extend (hsame : ∀ i, i ≠ x → original' i = original i)
    (hcopy : (∃ a b, (g₂.line x).Forwards a b) ∨
      Repeats g (original' x) ((g₂.line x).rename (name ∘ naming w u)))
    (hlink : Relation.EqvGen (Identified g g₂ original') w u)
    (hsound : ∀ a b, ((g₂.line x).Forwards a b ∨ ((g₂.line x).code.opcode = .const ∧
      (g₂.line x).Defines a ∧ (g₂.line (original' x)).Defines b)) →
      name (naming w u a) = name (naming w u b)) :
    Contraction g g₂ original' (name ∘ naming w u) := by
  have hx : x ∉ g.placed := (added_copy h e).2
  have hafter : ∀ {a b}, Relation.EqvGen (Identified g g₁ original) a b →
      Relation.EqvGen (Identified g g₂ original') a b := by
    intro a b hab
    induction hab with
    | rel a b hab => exact identified_after h e hsame hlink hab
    | refl a => exact .refl a
    | symm a b _ ih => exact .symm _ _ ih
    | trans a b c _ _ ih ih' => exact .trans _ _ _ ih ih'
  refine ⟨fun b => ?_, e.size.trans h.size, fun i hi => ?_, fun i hadd => ?_, fun v hv => ?_,
    fun v hv => ?_, fun v v' hv => ?_⟩
  · -- the copy is none of the older instructions, so leaving it out first changes nothing
    rw [← h.block b, ← e.block b]
    simp only [List.filter_filter]
    congr 1
    refine List.filter_congr fun i _ => ?_
    by_cases hi : i = x
    · simp [hi, hx]
    · simp [hi]
  · rw [← Line.rename_rename, e.line i (h.placed hi), h.line i hi]
  · by_cases hi : i = x
    · subst hi
      exact hcopy
    · have hadd := (e.added hi).mp hadd
      rw [hsame i hi, ← Line.rename_rename, e.line i hadd.1]
      rcases h.added i hadd with ⟨a, b, hab⟩ | hrep
      · rw [← e.line i hadd.1] at hab
        obtain ⟨a', b', -, -, hf⟩ := hab.of_rename
        exact .inl ⟨a', b', hf⟩
      · exact .inr hrep
  · obtain ⟨hlive, hname⟩ := h.kept v hv
    refine ⟨(e.live v).mpr (.inr hlive), ?_⟩
    rw [Function.comp_apply, naming_of_ne, hname]
    rintro rfl
    exact e.fresh hlive
  · rw [Function.comp_apply]
    rcases (e.live v).mp hv with rfl | hv
    · rw [naming_self]
      obtain ⟨hlive, hu⟩ := h.named u e.old
      exact ⟨hlive, .trans _ _ _ hlink (hafter hu)⟩
    · have hne : v ≠ w := fun heq => e.fresh (heq ▸ hv)
      rw [naming_of_ne hne]
      obtain ⟨hlive, hv⟩ := h.named v hv
      exact ⟨hlive, hafter hv⟩
  · rw [Function.comp_apply, Function.comp_apply]
    cases hv with
    | @forwarded i _ _ hadd hf =>
      by_cases hi : i = x
      · subst hi
        exact hsound _ _ (.inl hf)
      · have hadd := (e.added hi).mp hadd
        exact h.identified _ _ (identified_before h e hadd (.inl hf))
    | @repeated i _ _ hadd hop hdef hdef' =>
      by_cases hi : i = x
      · subst hi
        exact hsound _ _ (.inr ⟨hop, hdef, hdef'⟩)
      · have hadd := (e.added hi).mp hadd
        rw [hsame i hi] at hdef'
        exact h.identified _ _ (identified_before h e hadd (.inr ⟨hop, hdef, hdef'⟩))

/-- A contraction goes on over a copy. -/
theorem Contraction.copy : ∃ original', Contraction g g₂ original' (name ∘ naming w u) := by
  have hu := naming_right w u
  rcases e.copy with hf | hf | ⟨j, hrep, hu₂, hw⟩
  · refine ⟨original, h.extend e (fun _ _ => rfl) (.inl ⟨w, u, hf⟩)
      (.rel _ _ (.forwarded (added_copy h e) hf)) ?_⟩
    rintro a b (hab | ⟨hop, -⟩)
    · obtain ⟨rfl, rfl⟩ := hf.unique hab
      rw [hu, naming_self]
    · exact absurd hop hf.not_const
  · refine ⟨original, h.extend e (fun _ _ => rfl) (.inl ⟨u, w, hf⟩)
      (.symm _ _ (.rel _ _ (.forwarded (added_copy h e) hf))) ?_⟩
    rintro a b (hab | ⟨hop, -⟩)
    · obtain ⟨rfl, rfl⟩ := hf.unique hab
      rw [hu, naming_self]
    · exact absurd hop hf.not_const
  · obtain ⟨k, hk, hkj⟩ := h.origin hrep.placed hrep.const
    have hop : (g₂.line x).code.opcode = .const := by
      have hcode := congrArg (fun l : Line => l.code.opcode) hrep.content
      exact hcode.trans hrep.const
    -- the original constant defines a variable of the same name
    obtain ⟨b, hb, hbk⟩ : ∃ b, name (naming w u b) = name u ∧ (g₂.line k).Defines b := by
      have hdef : (g₁.line j).Defines u := by
        have hren := hu₂.rename (naming w u)
        rwa [hu, e.line j hrep.placed] at hren
      have hdefk : (g.line k).Defines (name u) := by
        obtain ⟨y, hy, hv⟩ := hdef.rename name
        exact ⟨y, (congrArg Line.result hk.content).symm.trans hy, hv⟩
      rw [← h.line k hk.placed, ← e.line k (h.placed hk.placed), Line.rename_rename] at hdefk
      exact hdefk.of_rename
    have hx : x ≠ j := fun heq => e.unplaced (heq ▸ hrep.placed)
    refine ⟨Function.update original x k, h.extend e (fun i hi => Function.update_of_ne hi _ _)
      (.inr ?_) ?_ ?_⟩
    · rw [Function.update_self, ← Line.rename_rename]
      refine ⟨hk.placed, hk.const, ?_⟩
      rw [Line.content_rename, hrep.content, ← Line.content_rename, hk.content]
    · have hwb : Identified g g₂ (Function.update original x k) w b :=
        .repeated (added_copy h e) hop hw (by rwa [Function.update_self])
      rcases hkj with rfl | ⟨hadd, rfl⟩
      · rw [hu₂.unique hbk]
        exact .rel _ _ hwb
      · have hopj : (g₂.line j).code.opcode = .const := by
          have hline := congrArg (fun l : Line => l.code.opcode) (e.line j hrep.placed)
          exact hline.trans hrep.const
        have hub : Identified g g₂ (Function.update original x (original j)) u b :=
          .repeated ((e.added hx.symm).mpr hadd) hopj hu₂
            (by rwa [Function.update_of_ne hx.symm])
        exact .trans _ _ _ (.rel _ _ hwb) (.symm _ _ (.rel _ _ hub))
    · rintro a b' (hab | ⟨-, ha, hb'⟩)
      · exact absurd hop hab.not_const
      · rw [Function.update_self] at hb'
        rw [← hw.unique ha, ← hbk.unique hb', naming_self, hb]

end

/-- Writing types changes nothing in the code. -/
theorem Framed.line (h : Framed g₁ g₂) (i : InsnId) : g₂.line i = g₁.line i := by
  simp only [MethodGraph.line, insn_congr h.insns, h.site]

theorem Contraction.framed (h : Contraction g g₁ original name) (e : Framed g₁ g₂) :
    Contraction g g₂ original name := by
  have hblock : ∀ b, g₂.block b = g₁.block b := fun b => by
    rw [MethodGraph.block, MethodGraph.block, e.blocks]
  have hplaced : g₂.placed = g₁.placed := by rw [MethodGraph.placed, MethodGraph.placed, e.blocks]
  have hadded : ∀ i, Added g g₂ i ↔ Added g g₁ i := fun i => by rw [Added, Added, hplaced]
  have hsame : Identified g g₂ original = Identified g g₁ original := by
    funext v w
    refine propext ⟨fun hv => ?_, fun hv => ?_⟩
    · cases hv with
      | forwarded hi hf => exact .forwarded ((hadded _).mp hi) (e.line _ ▸ hf)
      | repeated hi hop hv hw =>
        exact .repeated ((hadded _).mp hi) (e.line _ ▸ hop) (e.line _ ▸ hv) (e.line _ ▸ hw)
    · cases hv with
      | forwarded hi hf => exact .forwarded ((hadded _).mpr hi) (e.line _ ▸ hf)
      | repeated hi hop hv hw =>
        exact .repeated ((hadded _).mpr hi) (e.line _ ▸ hop) (e.line _ ▸ hv) (e.line _ ▸ hw)
  refine ⟨fun b => ?_, ?_, fun i hi => ?_, fun i hi => ?_, ?_, ?_, ?_⟩
  · rw [hblock]
    exact h.block b
  · rw [e.blocks, h.size]
  · rw [e.line]
    exact h.line i hi
  · rw [e.line]
    exact h.added i ((hadded i).mp hi)
  · rw [e.live]
    exact h.kept
  · rw [e.live, hsame]
    exact h.named
  · rw [hsame]
    exact h.identified

end
end TypeRecovery.MethodGraph
