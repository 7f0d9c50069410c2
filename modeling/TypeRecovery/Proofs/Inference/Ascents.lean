import Mathlib.Data.Finset.Card
import Mathlib.Logic.Relation
import TypeRecovery.Inference.Resolve.Moves
import TypeRecovery.Proofs.Graph.Wiring

/- The way up to a place for a move. A block that ends in a jump hands the move on to the one block
   above it, as long as the variable is not defined in between. Nothing marks the blocks that were
   passed, so the way has an end just if it does not come to a block that leads back to itself. The
   count of steps in `movePlace` decides this for every graph: one step more than there are blocks
   means that a block was passed twice. -/
namespace TypeRecovery.Inference

open MethodGraph

/-- The last instruction of the block is one that nothing can follow. -/
def endsInJump (g : MethodGraph) (b : BlockId) : Bool :=
  (g.lastInsn? b).any fun i => (g.insn i).opcode.isSeparate

/-- The way leads from a block to the one above it. -/
structure Climbs (g : MethodGraph) (v : Option VarId) (b a : BlockId) : Prop where
  real : (g.block b).synthetic = false
  closed : endsInJump g b = true
  above : (g.block b).preds = [a]
  undefined : definedIn g v b = false

/-- Where the way up ends, however long it is. -/
inductive Ascends (g : MethodGraph) (v : Option VarId) : BlockId → Ascent → Prop where
  /-- The block takes the move. -/
  | here {b : BlockId} : (g.block b).synthetic = false →
      endsInJump g b = false → Ascends g v b (.place b)
  /-- There is no such block in the code. -/
  | synthetic {b : BlockId} : (g.block b).synthetic = true → Ascends g v b .refused
  /-- There is no block above, or more than one. -/
  | fork {b : BlockId} : endsInJump g b = true →
      (∀ a, (g.block b).preds ≠ [a]) → Ascends g v b .refused
  /-- Further up there is no value to move. -/
  | defined {b : BlockId} : endsInJump g b = true →
      definedIn g v b = true → Ascends g v b .refused
  | up {b a : BlockId} {r : Ascent} : Climbs g v b a → Ascends g v a r → Ascends g v b r

/-- The way comes to a block that leads back to itself. -/
def Circles (g : MethodGraph) (v : Option VarId) (b : BlockId) : Prop :=
  ∃ a, Relation.ReflTransGen (Climbs g v) b a ∧ Relation.TransGen (Climbs g v) a a

section
variable {g : MethodGraph} {v : Option VarId} {a b : BlockId} {r : Ascent}

/-! ## One step -/

/-- Only a block of the table ends in a jump. -/
theorem Climbs.lt (h : Climbs g v b a) : b.index < g.blocks.size := by
  refine Nat.lt_of_not_le fun hb => ?_
  have hclosed := h.closed
  rw [endsInJump, lastInsn?, block_of_size_le hb] at hclosed
  cases hclosed

theorem ascend_zero_of_climbs (h : Climbs g v b a) : ascend g v 0 b = .endless := by
  have hclosed := h.closed
  unfold endsInJump at hclosed
  unfold ascend
  simp [h.real, hclosed, h.above, h.undefined]

theorem ascend_succ_of_climbs (h : Climbs g v b a) (n : Nat) :
    ascend g v (n + 1) b = ascend g v n a := by
  have hclosed := h.closed
  unfold endsInJump at hclosed
  conv_lhs => unfold ascend
  simp [h.real, hclosed, h.above, h.undefined]

/-- A block from which the way does not lead up ends it. -/
theorem climbs_or_ascends (g : MethodGraph) (v : Option VarId) (b : BlockId) :
    (∃ a, Climbs g v b a) ∨ ∃ r, Ascends g v b r ∧ r ≠ .endless ∧ ∀ n, ascend g v n b = r := by
  by_cases hsynth : (g.block b).synthetic = true
  · refine .inr ⟨.refused, .synthetic hsynth, by decide, fun n => ?_⟩
    unfold ascend
    simp [hsynth]
  have hreal := Bool.eq_false_iff.mpr hsynth
  by_cases hclosed : endsInJump g b = true
  · have hlast := hclosed
    unfold endsInJump at hlast
    by_cases hpreds : ∃ a, (g.block b).preds = [a]
    · obtain ⟨a, ha⟩ := hpreds
      by_cases hdef : definedIn g v b = true
      · refine .inr ⟨.refused, .defined hclosed hdef, by decide, fun n => ?_⟩
        unfold ascend
        simp [hreal, hlast, ha, hdef]
      · exact .inl ⟨a, hreal, hclosed, ha, Bool.eq_false_iff.mpr hdef⟩
    · refine .inr ⟨.refused, .fork hclosed (not_exists.mp hpreds), by decide, fun n => ?_⟩
      unfold ascend
      simp only [hreal, hlast, Bool.not_true, Bool.false_eq_true, if_false]
      split
      · next a ha => exact absurd ⟨a, ha⟩ hpreds
      · rfl
  · have hopen := Bool.eq_false_iff.mpr hclosed
    have hlast := hopen
    unfold endsInJump at hlast
    refine .inr ⟨.place b, .here hreal hopen, by simp, fun n => ?_⟩
    unfold ascend
    simp [hreal, hlast]

/-! ## Circles -/

theorem Circles.climbs (h : Circles g v b) : ∃ a, Climbs g v b a ∧ Circles g v a := by
  obtain ⟨d, hbd, hd⟩ := h
  rcases hbd.cases_head with rfl | ⟨a, hba, had⟩
  · obtain ⟨a, hba, had⟩ := Relation.TransGen.head'_iff.mp hd
    exact ⟨a, hba, b, had, hd⟩
  · exact ⟨a, hba, d, had, hd⟩

theorem ascend_of_circles (h : Circles g v b) (n : Nat) : ascend g v n b = .endless := by
  induction n generalizing b with
  | zero =>
    obtain ⟨a, ha, -⟩ := h.climbs
    exact ascend_zero_of_climbs ha
  | succ n ih =>
    obtain ⟨a, ha, hcircle⟩ := h.climbs
    rw [ascend_succ_of_climbs ha, ih hcircle]

/-- A way that uses up its steps leads through one block more than it has steps. -/
theorem path_of_ascend {n : Nat} (h : ascend g v n b = .endless) :
    ∃ path : Nat → BlockId, path 0 = b ∧ ∀ k ≤ n, Climbs g v (path k) (path (k + 1)) := by
  induction n generalizing b with
  | zero =>
    rcases climbs_or_ascends g v b with ⟨a, ha⟩ | ⟨r, -, hr, hend⟩
    · refine ⟨fun k => if k = 0 then b else a, rfl, fun k hk => ?_⟩
      cases Nat.le_zero.mp hk
      exact ha
    · exact absurd ((hend 0).symm.trans h) hr
  | succ n ih =>
    rcases climbs_or_ascends g v b with ⟨a, ha⟩ | ⟨r, -, hr, hend⟩
    · rw [ascend_succ_of_climbs ha] at h
      obtain ⟨path, hstart, hpath⟩ := ih h
      refine ⟨fun k => if k = 0 then b else path (k - 1), rfl, fun k hk => ?_⟩
      cases k with
      | zero => simpa [hstart] using ha
      | succ k => simpa using hpath k (Nat.le_of_succ_le_succ hk)
    · exact absurd ((hend _).symm.trans h) hr

theorem reflTransGen_of_path {path : Nat → BlockId} {n : Nat}
    (h : ∀ k ≤ n, Climbs g v (path k) (path (k + 1))) {i j : Nat} (hij : i ≤ j) (hj : j ≤ n + 1) :
    Relation.ReflTransGen (Climbs g v) (path i) (path j) := by
  induction j, hij using Nat.le_induction with
  | base => exact .refl
  | succ j hij ih => exact .tail (ih (by omega)) (h j (by omega))

/-- **Too many steps make a circle.** There are more blocks on the way than in the table. -/
theorem circles_of_movePlace (h : movePlace g v b = .endless) : Circles g v b := by
  obtain ⟨path, rfl, hpath⟩ := path_of_ascend h
  have hmaps : ∀ k ∈ Finset.range (g.blocks.size + 1),
      (path k).index ∈ Finset.range g.blocks.size := by
    intro k hk
    exact Finset.mem_range.mpr (hpath k (Nat.le_of_lt_succ (Finset.mem_range.mp hk))).lt
  obtain ⟨i, hi, j, hj, hne, heq⟩ :=
    Finset.exists_ne_map_eq_of_card_lt_of_maps_to (by simp) hmaps
  -- the two visits stand in one order or the other
  wlog hij : i < j generalizing i j
  · exact this j hj i hi hne.symm heq.symm (by omega)
  have hsame : path i = path j := congrArg BlockId.mk heq
  have hjn := Nat.le_of_lt_succ (Finset.mem_range.mp hj)
  refine ⟨path i, reflTransGen_of_path hpath (Nat.zero_le i) (by omega), ?_⟩
  refine .head' (hpath i (by omega)) ?_
  have hback := reflTransGen_of_path hpath (i := i + 1) (j := j) hij (by omega)
  rwa [← hsame] at hback

theorem movePlace_eq_endless_iff : movePlace g v b = .endless ↔ Circles g v b :=
  ⟨circles_of_movePlace, fun h => ascend_of_circles h _⟩

/-! ## Ends -/

theorem ascends_of_ascend {n : Nat} (h : ascend g v n b = r) (hr : r ≠ .endless) :
    Ascends g v b r := by
  induction n generalizing b with
  | zero =>
    rcases climbs_or_ascends g v b with ⟨a, ha⟩ | ⟨r', hend, -, hall⟩
    · exact absurd (h.symm.trans (ascend_zero_of_climbs ha)) hr
    · exact h ▸ hall 0 ▸ hend
  | succ n ih =>
    rcases climbs_or_ascends g v b with ⟨a, ha⟩ | ⟨r', hend, -, hall⟩
    · rw [ascend_succ_of_climbs ha] at h
      exact .up ha (ih h)
    · exact h ▸ hall (n + 1) ▸ hend

/-- A way that has an end comes to it in any number of steps that is large enough. -/
theorem Ascends.ascend_eq (h : Ascends g v b r) : ∃ n, ∀ m, n ≤ m → ascend g v m b = r := by
  induction h with
  | here hreal hopen =>
    refine ⟨0, fun m _ => ?_⟩
    unfold endsInJump at hopen
    unfold ascend
    simp [hreal, hopen]
  | synthetic hsynth =>
    refine ⟨0, fun m _ => ?_⟩
    unfold ascend
    simp [hsynth]
  | @fork b hclosed hpreds =>
    refine ⟨0, fun m _ => ?_⟩
    rcases climbs_or_ascends g v b with ⟨a, ha⟩ | ⟨r, hend, -, hall⟩
    · exact absurd ha.above (hpreds a)
    · rw [hall]
      cases hend with
      | here _ hopen => rw [hclosed] at hopen; cases hopen
      | up ha _ => exact absurd ha.above (hpreds _)
      | _ => rfl
  | @defined b hclosed hdef =>
    refine ⟨0, fun m _ => ?_⟩
    rcases climbs_or_ascends g v b with ⟨a, ha⟩ | ⟨r, hend, -, hall⟩
    · exact absurd ha.undefined (by simp [hdef])
    · rw [hall]
      cases hend with
      | here _ hopen => rw [hclosed] at hopen; cases hopen
      | up ha _ => exact absurd ha.undefined (by simp [hdef])
      | _ => rfl
  | up hb _ ih =>
    obtain ⟨n, hn⟩ := ih
    refine ⟨n + 1, fun m hm => ?_⟩
    obtain ⟨m, rfl⟩ := Nat.exists_eq_succ_of_ne_zero (by omega : m ≠ 0)
    rw [ascend_succ_of_climbs hb]
    exact hn m (Nat.le_of_succ_le_succ hm)

theorem Ascends.ne_endless (h : Ascends g v b r) : r ≠ .endless := by
  induction h with
  | up _ _ ih => exact ih
  | _ => simp

/-- The count of steps hides no end of the way, and makes up none. -/
theorem ascends_iff : Ascends g v b r ↔ movePlace g v b = r ∧ r ≠ .endless := by
  refine ⟨fun h => ⟨?_, h.ne_endless⟩, fun ⟨h, hr⟩ => ascends_of_ascend h hr⟩
  obtain ⟨n, hn⟩ := h.ascend_eq
  have hne : movePlace g v b ≠ .endless := fun he =>
    h.ne_endless ((hn n (Nat.le_refl n)).symm.trans (ascend_of_circles (circles_of_movePlace he) n))
  obtain ⟨k, hk⟩ := (ascends_of_ascend rfl hne : Ascends g v b (movePlace g v b)).ascend_eq
  exact (hk (max n k) (Nat.le_max_right n k)).symm.trans (hn (max n k) (Nat.le_max_left n k))

end

end TypeRecovery.Inference
