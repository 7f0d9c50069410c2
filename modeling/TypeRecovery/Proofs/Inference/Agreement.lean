import Mathlib.Tactic.Choose
import TypeRecovery.Proofs.Inference.Wheels

/- What the search has found when it goes on to apply types: every move and every phi at a variable
   that was open at first agrees with the types that the wheels show in the end. The constraints are
   looked at three times, against different lists of wheels. A wheel that is settled alone is held
   against settled ones only, and a settled wheel never turns again; the wheels that turn carry
   constraints in which the types of the settled ones have been written down. So what was checked at
   any of the three moments holds for the wheels as they stand at the end. -/
namespace TypeRecovery.Inference

open MethodGraph

namespace Search

/-! ## Constraints -/

section
variable {o : Option ClassOracle} {types types' : VarId → Option Ty} {k : Constraint}

/-- Whether a constraint holds is a matter of the variables in its slots. -/
theorem Constraint.holds_congr (h : ∀ s ∈ k.slots, ∀ v, s.var = some v → types v = types' v) :
    k.holds o types = k.holds o types' := by
  have hslot : ∀ s ∈ k.slots, s.shown types = s.shown types' := by
    intro s hs
    unfold Slot.shown
    cases hv : s.var with
    | none => rfl
    | some v => simp [h s hs v hv]
  cases k with
  | move result source others =>
    have hr := hslot result (by simp [slots])
    have hs := hslot source (by simp [slots])
    simp only [holds, hr, hs]
  | phi result inputs =>
    have hr := hslot result (by simp [slots])
    simp only [holds, hr]
    rw [Bool.eq_iff_iff, List.all_eq_true, List.all_eq_true]
    refine forall₂_congr fun s hs => ?_
    rw [hslot s (by simp [slots, hs])]

/-- A frozen slot shows what the slot shows. -/
theorem Constraint.shown_freeze (h : ∀ v t, types v = some t → types' v = some t) (s : Slot) :
    (freeze.slot types s).shown types' = s.shown types' := by
  unfold freeze.slot Slot.shown
  cases hv : s.var with
  | none => simp [hv]
  | some v =>
    cases ht : types v with
    | none => simp [hv, ht]
    | some t => simp [ht, h v t ht]

theorem Constraint.holds_freeze (h : ∀ v t, types v = some t → types' v = some t) :
    (k.freeze types).holds o types' = k.holds o types' := by
  cases k with
  | move result source others => simp only [freeze, holds, shown_freeze h]
  | phi result inputs => simp only [freeze, holds, shown_freeze h, List.all_map, Function.comp_def]

/-- No settled variable is left in a frozen constraint. -/
theorem Constraint.open_of_freeze {s : Slot} (hs : s ∈ (k.freeze types).slots) {v : VarId}
    (hv : s.var = some v) : types v = none := by
  have hslot : ∀ u : Slot, (freeze.slot types u).var = some v → types v = none := by
    intro u hu
    unfold freeze.slot at hu
    split at hu
    · cases hu
    · next hnone =>
      rw [hu] at hnone
      exact hnone
  cases k with
  | move result source others =>
    simp only [freeze, slots, List.mem_cons, List.mem_map] at hs
    rcases hs with rfl | rfl | ⟨u, -, rfl⟩
    · exact hslot result hv
    · exact hslot source hv
    · exact hslot u hv
  | phi result inputs =>
    simp only [freeze, slots, List.mem_cons, List.mem_map] at hs
    rcases hs with rfl | ⟨u, -, rfl⟩
    · exact hslot result hv
    · exact hslot u hv

end

/-! ## Wheels by variable -/

/-- Two wheels of one variable are the same. -/
def Unambiguous (ws : List Wheel) : Prop := ∀ w ∈ ws, ∀ x ∈ ws, w.var = x.var → w = x

section
variable {o : Option ClassOracle} {ws : List Wheel} {w : Wheel}

theorem Unambiguous.find? (h : Unambiguous ws) (hw : w ∈ ws) :
    ws.find? (·.var == w.var) = some w := by
  cases hf : ws.find? (·.var == w.var) with
  | none => simpa using List.find?_eq_none.mp hf w hw
  | some x =>
    have hx : x.var = w.var := by simpa using List.find?_some hf
    rw [h x (List.mem_of_find?_eq_some hf) w hw hx]

theorem Unambiguous.shown (h : Unambiguous ws) (hw : w ∈ ws) : shown ws w.var = some w.current := by
  rw [Search.shown, h.find? hw]
  rfl

/-- Looking up a variable after all wheels were replaced by wheels of the same variables. -/
theorem find?_map_var {f : Wheel → Wheel} (hf : ∀ x ∈ ws, (f x).var = x.var) (v : VarId) :
    (ws.map f).find? (·.var == v) = (ws.find? (·.var == v)).map f := by
  induction ws with
  | nil => rfl
  | cons x ws ih =>
    have hx := hf x List.mem_cons_self
    have hrest := ih fun y hy => hf y (List.mem_cons_of_mem x hy)
    rw [List.map_cons, List.find?_cons, List.find?_cons, hx]
    split
    · rfl
    · exact hrest

end

/-! ## Wheels that are settled alone -/

section
variable {o : Option ClassOracle} {ws ws' start : List Wheel} {w x : Wheel}

@[simp] theorem settle_var : (settle o ws w).var = w.var := by
  unfold settle
  simp only
  split <;> rfl

@[simp] theorem settle_constraints : (settle o ws w).constraints = w.constraints := by
  unfold settle
  simp only
  split <;> rfl

/-- The variables in the slots of a wheel's constraints are its own and the related ones. -/
theorem mem_related {k : Constraint} (hk : k ∈ w.constraints) {s : Slot} (hs : s ∈ k.slots)
    {v : VarId} (hv : s.var = some v) (hne : v ≠ w.var) : v ∈ related w := by
  simp only [related, List.mem_filter, List.mem_flatMap, List.mem_filterMap, bne_iff_ne]
  exact ⟨⟨k, hk, s, hs, hv⟩, hne⟩

/-- Settling looks at the wheels of related variables only. -/
theorem settle_congr (h : ∀ v ∈ related w, shown ws v = shown ws' v) :
    settle o ws w = settle o ws' w := by
  have hholds : ∀ t, ∀ k ∈ w.constraints,
      k.holds o (fun v => if v = w.var then some t else shown ws v) =
        k.holds o (fun v => if v = w.var then some t else shown ws' v) := by
    intro t k hk
    apply Constraint.holds_congr
    intro s hs v hv
    by_cases hvw : v = w.var
    · simp [hvw]
    · simp only [hvw, if_false]
      exact h v (mem_related hk hs hv hvw)
  have hall : ∀ t, (w.constraints.all (Constraint.holds o fun v =>
      if v = w.var then some t else shown ws v)) = w.constraints.all (Constraint.holds o fun v =>
      if v = w.var then some t else shown ws' v) := by
    intro t
    rw [Bool.eq_iff_iff, List.all_eq_true, List.all_eq_true]
    exact forall₂_congr fun k hk => by rw [hholds t k hk]
  unfold settle
  simp only [hall]

/-- A wheel that was settled satisfies its constraints with the type it shows. -/
theorem holds_of_settle (hw : w.resolved = false) (hs : (settle o ws w).resolved = true)
    {k : Constraint} (hk : k ∈ w.constraints) :
    k.holds o (fun v => if v = w.var then some (settle o ws w).current else shown ws v) = true := by
  revert hs
  unfold settle
  simp only
  split
  · next n hn =>
    intro _
    obtain ⟨hlt, hall, -⟩ := List.findIdx?_eq_some_iff_getElem.mp hn
    have hk := List.all_eq_true.mp hall k hk
    simpa [Wheel.showing, List.getElem?_eq_getElem hlt] using hk
  · intro hs
    simp [Wheel.reset, Wheel.showing, hw] at hs

/-- How the wheels stand while the independent ones are settled. -/
structure Settling (o : Option ClassOracle) (start ws : List Wheel) : Prop where
  one : Unambiguous ws
  covers : ∀ w ∈ start, ∃ x ∈ ws, x.var = w.var ∧ x.constraints = w.constraints
  settled : ∀ w ∈ start, w.resolved = false → ∀ x ∈ ws, x.var = w.var → x.resolved = true →
    isIndependent ws w = true ∧ x = settle o ws w

theorem settling_start (h : Unambiguous start) : Settling o start start := by
  refine ⟨h, fun w hw => ⟨w, hw, rfl, rfl⟩, fun w hw hopen x hx hvar hres => ?_⟩
  rw [h x hx w hw hvar, hopen] at hres
  cases hres

/-- The wheels keep their variables when one is settled. -/
theorem var_settled (w x : Wheel) : (if x.var = w.var then settle o ws w else x).var = x.var := by
  split
  · next hvar => rw [settle_var, hvar]
  · rfl

/-- A wheel that is not tied to the one that is settled does not notice. -/
theorem settled_apart {y : Wheel} (hy : isIndependent ws y = true) (hapart : w.var ∉ related y) :
    isIndependent (ws.map fun x => if x.var = w.var then settle o ws w else x) y = true ∧
      settle o ws y = settle o (ws.map fun x => if x.var = w.var then settle o ws w else x) y := by
  have hfind : ∀ v ∈ related y,
      (ws.map fun x => if x.var = w.var then settle o ws w else x).find? (·.var == v) =
        ws.find? (·.var == v) := by
    intro v hv
    have hne : v ≠ w.var := fun h => hapart (h ▸ hv)
    rw [find?_map_var fun x _ => var_settled w x]
    cases hf : ws.find? (·.var == v) with
    | none => rfl
    | some x =>
      have hx : x.var = v := by simpa using List.find?_some hf
      simp [hx, hne]
  constructor
  · simp only [isIndependent, List.all_eq_true] at hy ⊢
    intro v hv
    rw [hfind v hv]
    exact hy v hv
  · refine settle_congr fun v hv => ?_
    rw [shown, shown, hfind v hv]

/-- Settling one open wheel leaves all others as they are, and with them what was settled before. -/
theorem Settling.step (hstart : Unambiguous start) (h : Settling o start ws) (hw : w ∈ start)
    (hopen : w.resolved = false) (hind : isIndependent ws w = true) :
    Settling o start (ws.map fun x => if x.var = w.var then settle o ws w else x) := by
  obtain ⟨x₀, hx₀, hvar₀, -⟩ := h.covers w hw
  cases hres₀ : x₀.resolved with
  | true =>
    -- the wheel was settled before, and comes out the same
    have hsame : ∀ x ∈ ws, (if x.var = w.var then settle o ws w else x) = x := by
      intro x hx
      split
      · next hvar =>
        rw [h.one x hx x₀ hx₀ (hvar.trans hvar₀.symm)]
        exact (h.settled w hw hopen x₀ hx₀ hvar₀ hres₀).2.symm
      · rfl
    rw [List.map_congr_left hsame, List.map_id']
    exact h
  | false =>
    refine ⟨?_, ?_, ?_⟩
    · intro y' hy' z' hz' hvar
      obtain ⟨y, hy, rfl⟩ := List.mem_map.mp hy'
      obtain ⟨z, hz, rfl⟩ := List.mem_map.mp hz'
      rw [var_settled, var_settled] at hvar
      rw [h.one y hy z hz hvar]
    · intro y hy
      obtain ⟨x, hx, hvar, hcon⟩ := h.covers y hy
      refine ⟨_, List.mem_map_of_mem hx, (var_settled w x).trans hvar, ?_⟩
      split
      · next hxw =>
        rw [settle_constraints, hstart w hw y hy (hxw.symm.trans hvar)]
      · exact hcon
    · intro y hy hyopen z hz hvar hres
      obtain ⟨x, hx, rfl⟩ := List.mem_map.mp hz
      rw [var_settled] at hvar
      by_cases hyw : y.var = w.var
      · obtain rfl := hstart y hy w hw hyw
        have hapart : y.var ∉ related y := by simp [related]
        obtain ⟨hind', hsettle⟩ := settled_apart (o := o) hind hapart
        refine ⟨hind', ?_⟩
        rw [if_pos hvar, ← hsettle]
      · have hxw : x.var ≠ w.var := fun he => hyw (hvar.symm.trans he)
        rw [if_neg hxw] at hres ⊢
        obtain ⟨hindy, hxy⟩ := h.settled y hy hyopen x hx hvar hres
        -- what a wheel is tied to was settled, so it is not the one that is settled now
        have hapart : w.var ∉ related y := by
          intro hrel
          have hall := List.all_eq_true.mp hindy w.var hrel
          rw [← hvar₀, h.one.find? hx₀] at hall
          simp [hres₀] at hall
        obtain ⟨hind', hsettle⟩ := settled_apart (o := o) hindy hapart
        exact ⟨hind', hxy.trans hsettle⟩

theorem settling_settleIndependent (h : Unambiguous start) :
    Settling o start (settleIndependent o start) := by
  refine List.foldlRecOn _ _ (settling_start h) fun ws hws w hw => ?_
  obtain ⟨hmem, hopen⟩ := List.mem_filter.mp hw
  split
  · next hind => exact hws.step h hmem (by simpa using hopen) hind
  · exact hws

end

/-! ## Wheels that turn -/

section
variable {o : Option ClassOracle} {ws ws' : List Wheel} {w : Wheel}

/-- What no turn changes: whose wheel it is and what it has to agree with. -/
def Wheel.face (w : Wheel) : VarId × List Constraint := (w.var, w.constraints)

theorem face_advance (ws : List Wheel) : (advance ws).2.map Wheel.face = ws.map Wheel.face := by
  induction ws with
  | nil => rfl
  | cons w ws ih =>
    have hturn : w.turn.2.face = w.face := by
      unfold Wheel.turn
      split <;> rfl
    unfold advance
    split
    · next w' he =>
      rw [he] at hturn
      rw [List.map_cons, List.map_cons, hturn]
    · next w' he =>
      rw [he] at hturn
      simp only [List.map_cons, hturn, ih]

theorem open_advance (h : ∀ w ∈ ws, w.resolved = false) :
    ∀ w ∈ (advance ws).2, w.resolved = false := by
  induction ws with
  | nil => exact h
  | cons w ws ih =>
    obtain ⟨hw, hws⟩ := List.forall_mem_cons.mp h
    have hturn : w.turn.2.resolved = false := by
      unfold Wheel.turn
      split <;> exact hw
    unfold advance
    split
    · next w' he =>
      rw [he] at hturn
      exact List.forall_mem_cons.mpr ⟨hturn, hws⟩
    · next w' he =>
      rw [he] at hturn
      exact List.forall_mem_cons.mpr ⟨hturn, ih hws⟩

/-- How open wheels come out of turning: still open, or in agreement with each other. -/
structure Turned (o : Option ClassOracle) (ws ws' : List Wheel) : Prop where
  face : ws'.map Wheel.face = ws.map Wheel.face
  verdict : (∀ w ∈ ws', w.resolved = false) ∨
    ∀ w ∈ ws', ∀ k ∈ w.constraints, k.holds o (shown ws') = true

theorem turned_spin (left turns : Nat) (h : ∀ w ∈ ws, w.resolved = false) :
    Turned o ws (spin o left turns ws).2 := by
  fun_induction spin o left turns ws with
  | case1 left turns ws hagree =>
    refine ⟨by simp [Wheel.face, Function.comp_def], .inr fun w' hw' k hk => ?_⟩
    obtain ⟨w, hw, rfl⟩ := List.mem_map.mp hw'
    have hshown : shown (ws.map fun w => { w with resolved := true }) = shown ws := by
      funext v
      rw [shown, find?_map_var (f := fun w => { w with resolved := true }) fun _ _ => rfl,
        Option.map_map]
      rfl
    have hall : w.agrees o (shown ws) = true := List.all_eq_true.mp hagree w hw
    rw [Wheel.agrees, h w hw, Bool.false_or, List.all_eq_true] at hall
    rw [hshown]
    exact hall k hk
  | case2 left turns ws _ ws' hadv =>
    have hface := face_advance ws
    have hopen := open_advance h
    rw [hadv] at hface hopen
    exact ⟨hface, .inl hopen⟩
  | case3 turns ws _ ws' hadv =>
    have hface := face_advance ws
    have hopen := open_advance h
    rw [hadv] at hface hopen
    exact ⟨hface, .inl hopen⟩
  | case4 turns ws _ ws' left hadv ih =>
    have hface := face_advance ws
    have hopen := open_advance h
    rw [hadv] at hface hopen
    obtain ⟨hface', hverdict⟩ := ih hopen
    exact ⟨hface'.trans hface, hverdict⟩

theorem turned_searchAll (limit : Nat) (h : ∀ w ∈ ws, w.resolved = false) :
    Turned o ws (searchAll o limit ws).2 := by
  have hreset : ∀ w ∈ ws.map Wheel.reset, w.resolved = false := by
    intro w' hw'
    obtain ⟨w, hw, rfl⟩ := List.mem_map.mp hw'
    exact h w hw
  obtain ⟨hface, hverdict⟩ := turned_spin (o := o) limit 0 hreset
  refine ⟨hface.trans ?_, hverdict⟩
  rw [List.map_map]
  rfl

end

/-! ## Settled and turned wheels together -/

/-- The types of the settled wheels. -/
def settledTypes (ws : List Wheel) : VarId → Option Ty := shown (ws.filter Wheel.resolved)

/-- The open wheels, with the types of the settled ones written into their constraints. -/
def frozen (ws : List Wheel) : List Wheel :=
  (ws.filter (!·.resolved)).map fun w =>
    { w with constraints := w.constraints.map (Constraint.freeze (settledTypes ws)) }

/-- Turned wheels in the places of those with their variables. -/
def replaced (ws turned : List Wheel) : List Wheel :=
  ws.map fun w => (turned.find? (·.var == w.var)).getD w

section
variable {o : Option ClassOracle} {ws turned : List Wheel} {w : Wheel}

theorem turnOpen_wheels (limit : Nat) :
    (turnOpen o limit ws).2 = replaced ws (searchAll o limit (frozen ws)).2 := rfl

theorem open_of_mem_frozen (hw : w ∈ frozen ws) : w.resolved = false := by
  obtain ⟨x, hx, rfl⟩ := List.mem_map.mp hw
  simpa using (List.mem_filter.mp hx).2

/-- A turned wheel comes from an open one. -/
theorem origin_of_turned (hface : turned.map Wheel.face = (frozen ws).map Wheel.face)
    (hw : w ∈ turned) : ∃ x ∈ ws, x.resolved = false ∧ w.var = x.var ∧
      w.constraints = x.constraints.map (Constraint.freeze (settledTypes ws)) := by
  have hmem : w.face ∈ (frozen ws).map Wheel.face := hface ▸ List.mem_map_of_mem hw
  obtain ⟨y, hy, heq⟩ := List.mem_map.mp hmem
  obtain ⟨x, hx, rfl⟩ := List.mem_map.mp hy
  obtain ⟨hxw, hopen⟩ := List.mem_filter.mp hx
  simp only [Wheel.face, Prod.mk.injEq] at heq
  exact ⟨x, hxw, by simpa using hopen, heq.1.symm, heq.2.symm⟩

theorem find?_turned (hface : turned.map Wheel.face = (frozen ws).map Wheel.face) (hw : w ∈ ws)
    (hopen : w.resolved = false) :
    ∃ t ∈ turned, t.var = w.var ∧ turned.find? (·.var == w.var) = some t := by
  have hmem : w.var ∈ turned.map Wheel.var := by
    have hvars : turned.map Wheel.var = (frozen ws).map Wheel.var := by
      simpa [Function.comp_def, Wheel.face] using congrArg (List.map Prod.fst) hface
    rw [hvars, frozen, List.map_map]
    exact List.mem_map_of_mem (f := Wheel.var) (List.mem_filter.mpr ⟨hw, by simp [hopen]⟩)
  obtain ⟨x, hx, hvar⟩ := List.mem_map.mp hmem
  cases hf : turned.find? (·.var == w.var) with
  | none => simpa [hvar] using List.find?_eq_none.mp hf x hx
  | some t => exact ⟨t, List.mem_of_find?_eq_some hf, by simpa using List.find?_some hf, rfl⟩

theorem find?_replaced (v : VarId) :
    (replaced ws turned).find? (·.var == v) =
      (ws.find? (·.var == v)).map fun w => (turned.find? (·.var == w.var)).getD w := by
  refine find?_map_var (fun w _ => ?_) v
  cases hf : turned.find? (·.var == w.var) with
  | none => rfl
  | some t => simpa using List.find?_some hf

/-- A settled wheel keeps its type. -/
theorem shown_replaced_settled (h : Unambiguous ws)
    (hface : turned.map Wheel.face = (frozen ws).map Wheel.face) {v : VarId} {t : Ty}
    (ht : settledTypes ws v = some t) : shown (replaced ws turned) v = some t := by
  obtain ⟨w, hf, rfl⟩ := Option.map_eq_some_iff.mp ht
  obtain ⟨hw, hres⟩ := List.mem_filter.mp (List.mem_of_find?_eq_some hf)
  obtain rfl : w.var = v := by simpa using List.find?_some hf
  have hnone : turned.find? (·.var == w.var) = none := by
    refine List.find?_eq_none.mpr fun x hx hvar => ?_
    obtain ⟨y, hy, hopen, hxy, -⟩ := origin_of_turned hface hx
    have heq : y = w := h y hy w hw (hxy.symm.trans (by simpa using hvar))
    rw [heq, hres] at hopen
    cases hopen
  rw [shown, find?_replaced, h.find? hw, Option.map_some, hnone]
  rfl

/-- A variable without a settled wheel shows what the turned wheels show. -/
theorem shown_replaced_open (hface : turned.map Wheel.face = (frozen ws).map Wheel.face) {v : VarId}
    (hv : settledTypes ws v = none) : shown (replaced ws turned) v = shown turned v := by
  rw [shown, find?_replaced]
  cases hf : ws.find? (·.var == v) with
  | none =>
    have hnone : turned.find? (·.var == v) = none := by
      refine List.find?_eq_none.mpr fun x hx hvar => ?_
      obtain ⟨y, hy, -, hxy, -⟩ := origin_of_turned hface hx
      rw [hxy] at hvar
      exact List.find?_eq_none.mp hf y hy hvar
    rw [shown, hnone]
    rfl
  | some w =>
    obtain rfl : w.var = v := by simpa using List.find?_some hf
    have hw := List.mem_of_find?_eq_some hf
    have hopen : w.resolved = false := by
      cases hres : w.resolved with
      | false => rfl
      | true =>
        have hnone := List.find?_eq_none.mp (Option.map_eq_none_iff.mp hv) w
          (List.mem_filter.mpr ⟨hw, hres⟩)
        simp at hnone
    obtain ⟨t, -, -, ht⟩ := find?_turned hface hw hopen
    rw [shown, Option.map_some, ht]
    rfl

/-- What a turned wheel is checked against means the same for all wheels, and before and after the
    settled types were written down. -/
theorem holds_replaced (h : Unambiguous ws)
    (hface : turned.map Wheel.face = (frozen ws).map Wheel.face) (k : Constraint) :
    (k.freeze (settledTypes ws)).holds o (shown turned) =
      k.holds o (shown (replaced ws turned)) := by
  calc (k.freeze (settledTypes ws)).holds o (shown turned)
      = (k.freeze (settledTypes ws)).holds o (shown (replaced ws turned)) :=
        Constraint.holds_congr fun s hs v hv =>
          (shown_replaced_open hface (Constraint.open_of_freeze hs hv)).symm
    _ = k.holds o (shown (replaced ws turned)) :=
        Constraint.holds_freeze fun v t ht => shown_replaced_settled h hface ht

/-- The check after the turns tells that all constraints of the open wheels hold, also where the turns
    had told so before. -/
theorem holds_of_turnOpen (h : Unambiguous ws) (limit : Nat)
    (hcheck : ∀ t ∈ (turnOpen o limit ws).2, t.var ∈ (ws.filter (!·.resolved)).map Wheel.var →
      t.agrees o (shown (turnOpen o limit ws).2) = true)
    (hw : w ∈ ws) (hopen : w.resolved = false) {k : Constraint} (hk : k ∈ w.constraints) :
    k.holds o (shown (turnOpen o limit ws).2) = true := by
  rw [turnOpen_wheels] at hcheck ⊢
  obtain ⟨hface, hverdict⟩ := turned_searchAll (o := o) limit fun x hx => open_of_mem_frozen hx
  obtain ⟨t, ht, hvar, hfind⟩ := find?_turned hface hw hopen
  obtain ⟨x, hx, -, hxvar, hcon⟩ := origin_of_turned hface ht
  obtain rfl : x = w := h x hx w hw (hxvar.symm.trans hvar)
  have hfrozen : k.freeze (settledTypes ws) ∈ t.constraints := hcon ▸ List.mem_map_of_mem hk
  rcases hverdict with hstill | hagree
  · have hmem : t ∈ replaced ws (searchAll o limit (frozen ws)).2 :=
      List.mem_map.mpr ⟨x, hx, by rw [hfind]; rfl⟩
    have hvars : t.var ∈ (ws.filter (!·.resolved)).map Wheel.var :=
      List.mem_map.mpr ⟨x, List.mem_filter.mpr ⟨hx, by simp [hopen]⟩, hvar.symm⟩
    have hall := hcheck t hmem hvars
    rw [Wheel.agrees, hstill t ht, Bool.false_or, List.all_eq_true] at hall
    rw [← Constraint.holds_freeze fun v t ht => shown_replaced_settled h hface ht]
    exact hall _ hfrozen
  · rw [← holds_replaced h hface]
    exact hagree t ht _ hfrozen

/-- What a wheel was settled on still agrees when the others have turned. -/
theorem holds_of_settled {start : List Wheel} {x : Wheel} (h : Settling o start ws) (hw : w ∈ start)
    (hopen : w.resolved = false) (hx : x ∈ ws) (hvar : x.var = w.var) (hres : x.resolved = true)
    {types : VarId → Option Ty} (htypes : ∀ v t, settledTypes ws v = some t → types v = some t)
    (hfree : ∀ v, ws.find? (·.var == v) = none → types v = none) {k : Constraint}
    (hk : k ∈ w.constraints) : k.holds o types = true := by
  have hsettled : ∀ y ∈ ws, y.resolved = true → types y.var = some y.current := by
    intro y hy hyres
    have hone : Unambiguous (ws.filter Wheel.resolved) := fun a ha b hb =>
      h.one a (List.mem_filter.mp ha).1 b (List.mem_filter.mp hb).1
    exact htypes y.var y.current (hone.shown (List.mem_filter.mpr ⟨hy, hyres⟩))
  obtain ⟨hind, hxw⟩ := h.settled w hw hopen x hx hvar hres
  rw [← holds_of_settle hopen (hxw ▸ hres) hk]
  refine Constraint.holds_congr fun s hs v hv => ?_
  split
  · next hvw =>
    rw [hvw, ← hvar, hsettled x hx hres, hxw]
  · next hvw =>
    have hall := List.all_eq_true.mp hind v (mem_related hk hs hv hvw)
    cases hf : ws.find? (·.var == v) with
    | none => rw [hfree v hf, shown, hf]; rfl
    | some y =>
      rw [hf, Option.all_some] at hall
      obtain rfl : y.var = v := by simpa using List.find?_some hf
      rw [hsettled y (List.mem_of_find?_eq_some hf) hall, shown, hf]
      rfl

end

end Search

/-! ## Collecting wheels -/

/-- From every session with the graph, the step comes to one and the same outcome, and of the session
    it writes the log only. -/
def Looks {α : Type} (c : Context) (g : MethodGraph) (m : Infer α) (Q : α → Prop) : Prop :=
  ∃ r : Except Fault α, (∀ a, r = .ok a → Q a) ∧
    ∀ s, s.graph = g → ∃ log, m.after c s = (r, { s with log })

namespace Looks

section
variable {c : Context} {g : MethodGraph} {α β : Type} {Q : α → Prop} {P : β → Prop}

theorem pure' {a : α} (h : Q a) : Looks c g (pure a) Q := by
  refine ⟨.ok a, fun b hb => ?_, fun s _ => ⟨s.log, rfl⟩⟩
  cases hb
  exact h

theorem throw' (f : Fault) : Looks c g (throw f : Infer α) Q :=
  ⟨.error f, fun _ h => (by cases h), fun s _ => ⟨s.log, rfl⟩⟩

theorem note' (records : List LogRecord) : Looks c g (note records) fun _ => True := by
  refine ⟨.ok (), fun _ _ => trivial, fun s _ => ?_⟩
  obtain ⟨log, h⟩ := after_note_bind records (pure ()) c s
  rw [bind_pure_unit] at h
  exact ⟨log, h⟩

theorem read' {f : Context → Infer α} (h : Looks c g (f c) Q) : Looks c g (read >>= f) Q := h

theorem theGraph' {f : MethodGraph → Infer α} (h : Looks c g (f g) Q) :
    Looks c g (theGraph >>= f) Q := by
  obtain ⟨r, hq, hr⟩ := h
  refine ⟨r, hq, fun s hs => ?_⟩
  subst hs
  exact hr s rfl

theorem bind' {m : Infer α} {f : α → Infer β} (hm : Looks c g m Q)
    (hf : ∀ a, Q a → Looks c g (f a) P) : Looks c g (m >>= f) P := by
  obtain ⟨r, hq, hr⟩ := hm
  cases r with
  | error e =>
    refine ⟨.error e, fun _ h => (by cases h), fun s hs => ?_⟩
    obtain ⟨log, h⟩ := hr s hs
    exact ⟨log, by rw [after_bind, h]⟩
  | ok a =>
    obtain ⟨r', hp, hr'⟩ := hf a (hq a rfl)
    refine ⟨r', hp, fun s hs => ?_⟩
    obtain ⟨log, h⟩ := hr s hs
    obtain ⟨log', h'⟩ := hr' { s with log } hs
    exact ⟨log', by rw [after_bind, h]; exact h'⟩

theorem mono {m : Infer α} {Q' : α → Prop} (hm : Looks c g m Q) (h : ∀ a, Q a → Q' a) :
    Looks c g m Q' := by
  obtain ⟨r, hq, hr⟩ := hm
  exact ⟨r, fun a ha => h a (hq a ha), hr⟩

theorem foldlM' {step : β → α → Infer β} (l : List α) (h : ∀ b a, P b → Looks c g (step b a) P) {b : β}
    (hb : P b) : Looks c g (l.foldlM step b) P := by
  induction l generalizing b with
  | nil => exact pure' hb
  | cons a l ih =>
    rw [List.foldlM_cons]
    exact bind' (h b a hb) fun b' hb' => ih hb'

end

/-- Results that tell which member of the list they belong to are what that member gives, wherever it
    stands in the list. -/
theorem mapM_ok {c : Context} {g : MethodGraph} {α β : Type} {step : α → Infer β} {of : β → α}
    {r : α → Except Fault β} (hof : ∀ a b, r a = .ok b → of b = a)
    (h : ∀ a s, s.graph = g → ∃ log, (step a).after c s = (r a, { s with log })) {l : List α}
    {s s' : Session} {bs : List β} (hs : s.graph = g)
    (hm : (l.mapM step).after c s = (.ok bs, s')) :
    bs.map of = l ∧ (∀ b ∈ bs, r (of b) = .ok b) ∧ s'.graph = g := by
  induction l generalizing s bs with
  | nil =>
    cases hm
    exact ⟨rfl, List.forall_mem_nil _, hs⟩
  | cons a l ih =>
    rw [List.mapM_cons] at hm
    obtain ⟨b, s₁, hb, hm⟩ := ok_of_after_bind hm
    obtain ⟨bs', s₂, hbs, hm⟩ := ok_of_after_bind hm
    cases hm
    obtain ⟨log, ha⟩ := h a s hs
    rw [hb] at ha
    obtain ⟨hr, rfl⟩ := Prod.mk.inj ha
    obtain ⟨hl, hown, hg⟩ := ih (s := { s with log }) hs hbs
    have hba := hof a b hr.symm
    refine ⟨by rw [List.map_cons, hba, hl], List.forall_mem_cons.mpr ⟨?_, hown⟩, hg⟩
    rw [hba, hr]

end Looks

open Search

section
variable {c : Context} {g : MethodGraph}

theorem length_sink (before : Ty → Ty → Bool) (t : Ty) (us : List Ty) :
    (sink before t us).length = us.length + 1 := by
  induction us with
  | nil => rfl
  | cons u us ih =>
    unfold sink
    split <;> simp [ih]

theorem length_arrange (before : Ty → Ty → Bool) (ts : List Ty) :
    (arrange before ts).length = ts.length := by
  have hplaced : ∀ (ts placed : List Ty),
      (ts.foldl (fun placed t => sink before t placed) placed).length = placed.length + ts.length := by
    intro ts
    induction ts with
    | nil => simp
    | cons t ts ih =>
      intro placed
      rw [List.foldl_cons, ih, length_sink, List.length_cons]
      omega
  rw [arrange, List.length_reverse, hplaced, List.length_nil, Nat.zero_add]

/-- What a wheel is good for: it offers known types only; a settled one shows a known type or the pin of
    its variable, and an open one has something to show for a variable that is open. -/
structure Search.Wheel.Vouched (g : MethodGraph) (w : Wheel) : Prop where
  inTable : w.var.index < g.vars.size
  candidates : ∀ t ∈ w.candidates, t.isKnown = true
  settled : w.resolved = true → (g.var w.var).pin = some w.current ∨ w.current.isKnown = true
  unsettled : w.resolved = false → w.candidates ≠ [] ∧ (g.var w.var).ty.isKnown = false

/-- A settled wheel without candidates. -/
theorem vouched_settled {v : VarId} {t : Ty} (hv : g.var v ≠ default)
    (ht : (g.var v).pin = some t ∨ t.isKnown = true) :
    Wheel.Vouched g { var := v, current := t, resolved := true } where
  inTable := Nat.lt_of_not_le fun hle => hv (var_of_size_le hle)
  candidates := List.forall_mem_nil _
  settled _ := ht
  unsettled h := by cases h

theorem looks_consider (bounds : List Bound) (found : List Ty) (t : Ty)
    (hfound : ∀ u ∈ found, u.isKnown = true) :
    Looks c g (consider c g bounds found t) fun ts => ∀ u ∈ ts, u.isKnown = true := by
  unfold consider
  split
  · exact .pure' hfound
  · next hskip =>
    have ht : t.isKnown = true := by
      rw [Bool.not_eq_true, Bool.or_eq_false_iff, Bool.or_eq_false_iff] at hskip
      simpa using hskip.1.2
    refine .bind' (.note' _) fun _ _ => .pure' ?_
    split
    · exact List.forall_mem_append.mpr ⟨hfound, List.forall_mem_singleton.mpr ht⟩
    · exact hfound

/-- Every wheel is vouched for when it is collected. A variable outside the table has none, since
    nothing is considered for it. -/
theorem looks_vouched (v : VarId) : Looks c g (wheelOf v) fun w => w.var = v ∧ w.Vouched g := by
  refine .read' (.theGraph' ?_)
  simp only
  split
  · next t hp =>
    refine .pure' ⟨rfl, vouched_settled (fun hd => ?_) (.inl hp)⟩
    rw [hd] at hp
    cases hp
  · next hk =>
    refine .pure' ⟨rfl, vouched_settled (fun hd => ?_) (.inr hk)⟩
    rw [hd] at hk
    cases hk
  · next hp hk =>
    by_cases hd : g.var v = default
    · have hnone : considered c g v = [] := by
        rw [considered, sideTypes, sideTypes, storedArrays, hd]
        rfl
      rw [hnone]
      exact .throw' _
    · refine .bind' (.foldlM' _ (fun found t => looks_consider _ found t) (List.forall_mem_nil _))
        fun ts hts => ?_
      split
      · exact .throw' _
      · next t => exact .pure' ⟨rfl, vouched_settled hd (.inr (hts t List.mem_cons_self))⟩
      · next hempty _ =>
        refine .pure' ⟨rfl, Nat.lt_of_not_le fun hle => hd (var_of_size_le hle),
          fun t ht => hts t (mem_arrange ht), fun h => (by cases h), fun _ => ⟨fun hnil => hempty ?_, hk⟩⟩
        rw [← List.length_eq_zero_iff, ← length_arrange]
        exact congrArg List.length hnil

theorem looks_wheelOf (v : VarId) : Looks c g (wheelOf v) fun w => w.var = v :=
  (looks_vouched v).mono fun _ h => h.1

/-- The wheels are those of the variables in use, and a variable that comes twice has one wheel. -/
theorem wheels_of_mapM {s s' : Session} {ws : List Wheel}
    (h : (s.graph.live.mapM wheelOf).after c s = (.ok ws, s')) :
    ws.map Wheel.var = s.graph.live ∧ Unambiguous ws := by
  choose r hvar hr using looks_wheelOf (c := c) (g := s.graph)
  obtain ⟨hlive, hown, -⟩ := Looks.mapM_ok hvar hr rfl h
  refine ⟨hlive, fun w hw x hx hwx => ?_⟩
  have heq : (.ok w : Except Fault Wheel) = .ok x := by
    rw [← hown w hw, ← hown x hx, hwx]
  exact Except.ok.inj heq

theorem vouched_of_mapM {s s' : Session} {ws : List Wheel}
    (h : (s.graph.live.mapM wheelOf).after c s = (.ok ws, s')) :
    (∀ w ∈ ws, w.Vouched s.graph) ∧ s'.graph = s.graph := by
  choose r hvouched hr using looks_vouched (c := c) (g := s.graph)
  obtain ⟨-, hown, hg⟩ := Looks.mapM_ok (fun v w hw => (hvouched v w hw).1) hr rfl h
  exact ⟨fun w hw => (hvouched _ w (hown w hw)).2, hg⟩

theorem constrain_var (w : Wheel) : (constrain g w).var = w.var := by
  unfold constrain
  split <;> rfl

theorem Search.Unambiguous.constrain {ws : List Wheel} (h : Unambiguous ws) :
    Unambiguous (ws.map (constrain g)) := by
  intro w' hw' x' hx' hwx
  obtain ⟨w, hw, rfl⟩ := List.mem_map.mp hw'
  obtain ⟨x, hx, rfl⟩ := List.mem_map.mp hx'
  rw [constrain_var, constrain_var] at hwx
  rw [h w hw x hx hwx]

/-- An open wheel carries the constraints of its variable. -/
theorem constraints_of_open {ws : List Wheel} {w : Wheel} (hw : w ∈ ws.map (constrain g))
    (hopen : w.resolved = false) : w.constraints = constraintsOf g w.var := by
  obtain ⟨x, -, rfl⟩ := List.mem_map.mp hw
  unfold constrain at hopen ⊢
  split at hopen
  · next hres =>
    rw [hres] at hopen
    cases hopen
  · next hres => rw [if_neg hres]

end

/-! ## The search -/

section
variable {c : Context} {o : Option ClassOracle} {start ws : List Wheel}

/-- Wheels that go on to be applied satisfy what the wheels carried at first, settled alone or not. -/
theorem holds_of_turnWheels (hstart : Unambiguous start) {s s' : Session}
    (h : (turnWheels o (settleIndependent o start)).after c s = (.ok (some ws), s')) :
    ∀ w ∈ start, w.resolved = false → ∀ k ∈ w.constraints, k.holds o (shown ws) = true := by
  have hset := settling_settleIndependent (o := o) hstart
  generalize settleIndependent o start = mid at h hset
  intro w hw hopen k hk
  obtain ⟨x, hx, hvar, hcon⟩ := hset.covers w hw
  unfold turnWheels at h
  simp only at h
  split at h
  · next hempty =>
    -- all wheels were settled alone
    have hres : ∀ y ∈ mid, y.resolved = true := by simpa using hempty
    have hall : mid.filter Wheel.resolved = mid := List.filter_eq_self.mpr hres
    cases h
    refine holds_of_settled hset hw hopen hx hvar (hres x hx) (fun v t ht => ?_) (fun v hv => ?_) hk
    · rwa [settledTypes, hall] at ht
    · rw [shown, hv]
      rfl
  · rw [after_read] at h
    obtain ⟨log, hnote⟩ := after_note_bind _ _ c s
    rw [hnote] at h
    split at h
    · next hcheck =>
      cases h
      cases hres : x.resolved with
      | true =>
        rw [turnOpen_wheels]
        have hface := (turned_searchAll (o := o) c.limits.searchIterations
          fun y (hy : y ∈ frozen mid) => open_of_mem_frozen hy).face
        refine holds_of_settled hset hw hopen hx hvar hres
          (fun v t ht => shown_replaced_settled hset.one hface ht) (fun v hv => ?_) hk
        rw [shown, find?_replaced, hv]
        rfl
      | false =>
        refine holds_of_turnOpen hset.one _ (fun t ht htv => ?_) hx hres (hcon ▸ hk)
        exact List.all_eq_true.mp hcheck t (List.mem_filter.mpr ⟨ht, by simpa using htv⟩)
    · obtain ⟨log', hnote'⟩ := after_note_bind _ _ c { s with log }
      rw [hnote'] at h
      cases h

/-- The search up to the moment where it applies types: the wheels as they were collected and as they
    stand in the end. -/
def searchWheels : Infer (Option (List Wheel × List Wheel)) := do
  let c ← read
  let g ← theGraph
  let count := g.live.length
  if c.limits.searchVars < count then
    report (.searchSkipped count c.limits.searchVars)
    return none
  let start := (← g.live.mapM wheelOf).map (constrain g)
  let oracle := some c.hierarchy.tabulated
  let found ← turnWheels oracle (settleIndependent oracle start)
  return found.map fun ws => (start, ws)

theorem searchTypes_eq : searchTypes = searchWheels >>= fun found =>
    match found with
    | none => return false
    | some (_, ws) => applyWheels ws := by
  unfold searchTypes searchWheels
  simp only [bind_assoc]
  refine bind_congr fun c => bind_congr fun g => ?_
  split
  · simp only [bind_assoc, pure_bind]
  · simp only [bind_assoc, pure_bind]
    refine bind_congr fun start => bind_congr fun found => ?_
    cases found <;> rfl

/-- The wheels with which the search goes on, and where they come from. -/
theorem wheels_of_searchWheels {s s' : Session}
    (h : searchWheels.after c s = (.ok (some (start, ws)), s')) :
    ∃ ws₀ s₀, (s.graph.live.mapM wheelOf).after c s = (.ok ws₀, s₀) ∧
      start = ws₀.map (constrain s.graph) ∧
      (turnWheels c.oracle (settleIndependent c.oracle start)).after c s₀ = (.ok (some ws), s') := by
  rw [searchWheels, after_read, after_theGraph] at h
  simp only [Hierarchy.tabulated_eq] at h
  split at h
  · cases h
  · obtain ⟨ws₀, s₀, hmap, h⟩ := ok_of_after_bind h
    obtain ⟨found, s₁, hturn, h⟩ := ok_of_after_bind h
    cases found with
    | none => cases h
    | some ws' =>
      cases h
      exact ⟨ws₀, s₀, hmap, rfl, hturn⟩

end

/-- The type of a site as wheels show it: that of the wheel of its variable, or else its own. -/
def shownAt (ws : List Wheel) (g : MethodGraph) (s : SiteId) : Ty :=
  ((g.varOf? s).bind (shown ws)).getD (g.typeAt s)

/-- What the instruction of a site asks of the types around it: the result of a move takes in its
    source, and in a phi all have one type. -/
structure AgreesAt (c : Context) (g : MethodGraph) (types : SiteId → Ty) (u : SiteId) : Prop where
  move : ∀ i r a, (g.site u).owner = some i → (g.insn i).opcode = .move →
    (g.insn i).result = some r → (g.insn i).args.head? = some a → g.isRegister a = true →
    (c.compare (types r) (types a)).isWiderOrEqual = true
  phi : ∀ i r, (g.site u).owner = some i → (g.insn i).opcode = .phi →
    (g.insn i).result = some r → ∀ a ∈ (g.insn i).args, types a = types r

theorem guard_of {p : Prop} [Decidable p] (h : p) : (guard p : Option Unit) = some () := if_pos h

/-- A constraint is the demand of the instruction that it was collected from. -/
theorem agreesAt_of_constraint {c : Context} {g : MethodGraph} {ws : List Wheel} {u : SiteId}
    (hu : g.isPinnedAt u = false)
    (h : ∀ k, constraintAt? g u = some k → k.holds c.oracle (shown ws) = true) :
    AgreesAt c g (shownAt ws g) u := by
  have hfree : (guard (!g.isPinnedAt u) : Option Unit) = some () := guard_of (by rw [hu]; rfl)
  constructor
  · intro i r a howner hop hr ha hreg
    have hk : constraintAt? g u =
        some (.move (slotOf g r) (slotOf g a) ((g.insn i).args.tail.map (slotOf g))) := by
      refine Option.bind_eq_some_iff.mpr ⟨(), hfree, Option.bind_eq_some_iff.mpr ⟨i, howner, ?_⟩⟩
      refine Option.bind_eq_some_iff.mpr ⟨r, hr, ?_⟩
      rw [hop]
      exact Option.bind_eq_some_iff.mpr ⟨a, ha, Option.bind_eq_some_iff.mpr ⟨(), guard_of hreg, rfl⟩⟩
    exact h _ hk
  · intro i r howner hop hr a ha
    have hk : constraintAt? g u =
        some (.phi (slotOf g r) ((g.insn i).args.map (slotOf g))) := by
      refine Option.bind_eq_some_iff.mpr ⟨(), hfree, Option.bind_eq_some_iff.mpr ⟨i, howner, ?_⟩⟩
      refine Option.bind_eq_some_iff.mpr ⟨r, hr, ?_⟩
      rw [hop]
      rfl
    have hall := List.all_eq_true.mp (h _ hk) (slotOf g a) (List.mem_map_of_mem ha)
    exact beq_iff_eq.mp hall

/-- When the search goes on to apply types, all moves and phis at the free sites of variables that were
    open agree with the types that it has found, however the wheel of the variable was settled. -/
theorem search_agrees {c : Context} {s s' : Session} {start ws : List Wheel}
    (h : searchWheels.after c s = (.ok (some (start, ws)), s')) :
    searchTypes.after c s = (applyWheels ws).after c s' ∧
      start.map Wheel.var = s.graph.live ∧
      ∀ w ∈ start, w.resolved = false →
        ∀ u ∈ (s.graph.var w.var).assign.toList ++ (s.graph.var w.var).uses,
          s.graph.isPinnedAt u = false → AgreesAt c s.graph (shownAt ws s.graph) u := by
  obtain ⟨ws₀, s₀, hmap, rfl, hturn⟩ := wheels_of_searchWheels h
  obtain ⟨hvars, hone⟩ := wheels_of_mapM hmap
  refine ⟨by rw [searchTypes_eq, after_bind, h], ?_, fun w hw hopen u hu hpin => ?_⟩
  · rw [List.map_map, ← hvars]
    exact List.map_congr_left fun w _ => constrain_var w
  · refine agreesAt_of_constraint hpin fun k hk => ?_
    refine holds_of_turnWheels hone.constrain hturn w hw hopen k ?_
    rw [constraints_of_open hw hopen]
    exact List.mem_filterMap.mpr ⟨u, hu, hk⟩

/-- Two open numbers meet in a phi, and a move carries on what comes of it. -/
def openNumbersMeet : MethodGraph where
  cls := "a.Main"
  name := "pick"
  blocks := #[{ insns := [⟨0⟩, ⟨1⟩, ⟨2⟩] }]
  insns := #[{ opcode := .const, result := some ⟨0⟩, args := [⟨1⟩], block := some ⟨0⟩ },
    { opcode := .phi, result := some ⟨2⟩, args := [⟨3⟩, ⟨4⟩], block := some ⟨0⟩,
      incoming := [⟨0⟩, ⟨0⟩] },
    { opcode := .move, result := some ⟨6⟩, args := [⟨7⟩], block := some ⟨0⟩ }]
  sites := #[{ operand := .reg ⟨0⟩, declared := Ty.anything, owner := some ⟨0⟩ },
    { operand := .lit 1 (Ty.holeOf [.int, .float]), declared := Ty.anything, owner := some ⟨0⟩ },
    { operand := .reg ⟨1⟩, declared := Ty.holeOf [.boolean, .int, .float], owner := some ⟨1⟩ },
    { operand := .reg ⟨0⟩, declared := Ty.anything, owner := some ⟨1⟩ },
    { operand := .reg ⟨2⟩, declared := Ty.anything, owner := some ⟨1⟩ },
    { operand := .reg ⟨2⟩, declared := Ty.holeOf [.int, .float] },
    { operand := .reg ⟨3⟩, declared := Ty.holeOf [.int, .float], owner := some ⟨2⟩ },
    { operand := .reg ⟨1⟩, declared := Ty.anything, owner := some ⟨2⟩ }]
  vars := #[{ reg := 0, version := 0, assign := some ⟨0⟩, uses := [⟨3⟩], phis := [⟨1⟩] },
    { reg := 1, version := 0, assign := some ⟨2⟩, uses := [⟨7⟩] },
    { reg := 2, version := 0, assign := some ⟨5⟩, uses := [⟨4⟩], phis := [⟨1⟩] },
    { reg := 3, version := 0, assign := some ⟨6⟩ }]
  live := [⟨0⟩, ⟨1⟩, ⟨2⟩, ⟨3⟩]

/-- The first candidates disagree, so the wheels turn; the phi and the move agree in the end. -/
theorem search_agrees_at_phi :
    let c : Context := { hierarchy := Hierarchy.ofClasses [] }
    let s : Session := { graph := initBounds openNumbersMeet }
    ∃ start ws s', searchWheels.after c s = (.ok (some (start, ws)), s') ∧
      (∃ w ∈ start, w.var = ⟨1⟩ ∧ w.resolved = false) ∧
      AgreesAt c s.graph (shownAt ws s.graph) ⟨2⟩ ∧ AgreesAt c s.graph (shownAt ws s.graph) ⟨7⟩ := by
  intro c s
  have hsome : ((searchWheels.after c s).1.toOption.bind id).isSome = true := by decide +kernel
  have hopen : ((searchWheels.after c s).1.toOption.bind id).all
      (fun r => r.1.any fun w => w.var = ⟨1⟩ && !w.resolved) = true := by decide +kernel
  rcases h : searchWheels.after c s with ⟨_ | _ | ⟨start, ws⟩, s'⟩
  · rw [h] at hsome
    cases hsome
  · rw [h] at hsome
    cases hsome
  · rw [h] at hopen
    obtain ⟨w, hw, hwv⟩ : ∃ w ∈ start, w.var = ⟨1⟩ ∧ w.resolved = false := by
      simpa [Except.toOption] using hopen
    obtain ⟨-, -, hagree⟩ := search_agrees h
    have hat := hagree w hw hwv.2
    rw [hwv.1] at hat
    exact ⟨start, ws, s', rfl, ⟨w, hw, hwv⟩, hat ⟨2⟩ (by decide +kernel) (by decide +kernel),
      hat ⟨7⟩ (by decide +kernel) (by decide +kernel)⟩

end TypeRecovery.Inference
