import Mathlib.Data.List.Forall2
import Mathlib.Data.Nat.Find
import TypeRecovery.Proofs.Inference.Agreement

/- The order in which the search goes through the combinations of candidates. A combination is a number
   in mixed radix: its digits are the candidates shown, the first wheel has the fastest digit, and the
   radix of a wheel is how many candidates it has. One step of the odometer adds one to the number, and
   it comes around after the last combination. So the search meets the combinations in the order of
   their numbers, each once, and stops at the first one that agrees, after the last one, or at its
   limit. -/
namespace TypeRecovery.Inference.Search

/-! ## Numbers in mixed radix -/

/-- How many numbers there are with digits of these radices. -/
def volume : List Nat → Nat
  | [] => 1
  | r :: rs => r * volume rs

/-- The digits of a number, the fastest first. -/
def digits : List Nat → Nat → List Nat
  | [], _ => []
  | r :: rs, n => n % r :: digits rs (n / r)

/-- The number that has these digits, the fastest first. -/
def numeral : List Nat → List Nat → Nat
  | r :: rs, d :: ds => d + r * numeral rs ds
  | _, _ => 0

/-- One digit for each radix, and below it. -/
def Below (ds rs : List Nat) : Prop := List.Forall₂ (· < ·) ds rs

section
variable {rs ds : List Nat} {n : Nat}

theorem volume_pos (h : ∀ r ∈ rs, 0 < r) : 0 < volume rs := by
  induction rs with
  | nil => exact Nat.one_pos
  | cons r rs ih =>
    obtain ⟨hr, hrs⟩ := List.forall_mem_cons.mp h
    exact Nat.mul_pos hr (ih hrs)

theorem numeral_lt (h : Below ds rs) : numeral rs ds < volume rs := by
  induction h with
  | nil => exact Nat.one_pos
  | @cons d r ds rs hd _ ih =>
    calc d + r * numeral rs ds < r + r * numeral rs ds := by omega
      _ = r * (numeral rs ds + 1) := by rw [Nat.mul_add, Nat.mul_one, Nat.add_comm]
      _ ≤ r * volume rs := Nat.mul_le_mul_left r ih

theorem digits_numeral (h : Below ds rs) : digits rs (numeral rs ds) = ds := by
  induction h with
  | nil => rfl
  | @cons d r ds rs hd _ ih =>
    have hr : 0 < r := by omega
    have hmod : (d + r * numeral rs ds) % r = d := by
      rw [Nat.add_mul_mod_self_left, Nat.mod_eq_of_lt hd]
    have hdiv : (d + r * numeral rs ds) / r = numeral rs ds := by
      rw [Nat.add_mul_div_left _ _ hr, Nat.div_eq_of_lt hd, Nat.zero_add]
    simp only [numeral, digits, hmod, hdiv, ih]

theorem numeral_digits (hn : n < volume rs) : numeral rs (digits rs n) = n := by
  induction rs generalizing n with
  | nil =>
    simp only [volume] at hn
    simp only [numeral]
    omega
  | cons r rs ih =>
    have hdiv : n / r < volume rs := Nat.div_lt_of_lt_mul hn
    calc n % r + r * numeral rs (digits rs (n / r)) = n % r + r * (n / r) := by rw [ih hdiv]
      _ = n := Nat.mod_add_div n r

theorem below_digits (h : ∀ r ∈ rs, 0 < r) (n : Nat) : Below (digits rs n) rs := by
  induction rs generalizing n with
  | nil => exact .nil
  | cons r rs ih =>
    obtain ⟨hr, hrs⟩ := List.forall_mem_cons.mp h
    exact .cons (Nat.mod_lt n hr) (ih hrs (n / r))

end

/-! ## Combinations -/

/-- How many candidates each wheel has. -/
def radices (ws : List Wheel) : List Nat := ws.map fun w => w.candidates.length

/-- The wheels, showing the candidates with these numbers. -/
def displaying (ws : List Wheel) (ds : List Nat) : List Wheel := List.zipWith Wheel.showing ws ds

/-- The wheels, showing the combination with a number. -/
def combination (ws : List Wheel) (n : Nat) : List Wheel := displaying ws (digits (radices ws) n)

section
variable {o : Option ClassOracle} {w : Wheel} {ws : List Wheel} {n : Nat}

theorem radices_pos (h : ∀ w ∈ ws, w.candidates ≠ []) : ∀ r ∈ radices ws, 0 < r := by
  intro r hr
  obtain ⟨w, hw, rfl⟩ := List.mem_map.mp hr
  exact List.length_pos_iff.mpr (h w hw)

theorem Wheel.showing_showing (a : Nat) {b : Nat} (hb : b < w.candidates.length) :
    (w.showing a).showing b = w.showing b := by
  simp [Wheel.showing, hb]

theorem combination_cons : combination (w :: ws) n =
    w.showing (n % w.candidates.length) :: combination ws (n / w.candidates.length) := rfl

theorem combination_zero : combination ws 0 = ws.map Wheel.reset := by
  induction ws with
  | nil => rfl
  | cons w ws ih => rw [combination_cons, Nat.zero_mod, Nat.zero_div, ih]; rfl

theorem combination_face (n : Nat) : (combination ws n).map Wheel.face = ws.map Wheel.face := by
  induction ws generalizing n with
  | nil => rfl
  | cons w ws ih => rw [combination_cons, List.map_cons, ih]; rfl

theorem open_combination (h : ∀ w ∈ ws, w.resolved = false) (n : Nat) :
    ∀ w ∈ combination ws n, w.resolved = false := by
  induction ws generalizing n with
  | nil => exact h
  | cons w ws ih =>
    obtain ⟨hw, hws⟩ := List.forall_mem_cons.mp h
    rw [combination_cons]
    exact List.forall_mem_cons.mpr ⟨hw, ih hws _⟩

/-! ## One step -/

/-- A step leads from a combination to the one with the next number, and from the last to the first. -/
theorem advance_combination (h : ∀ w ∈ ws, w.candidates ≠ []) (hn : n < volume (radices ws)) :
    advance (combination ws n) =
      if n + 1 < volume (radices ws) then (false, combination ws (n + 1))
      else (true, combination ws 0) := by
  induction ws generalizing n with
  | nil =>
    simp only [radices, List.map_nil, volume] at hn ⊢
    rw [if_neg (by omega)]
    rfl
  | cons w ws ih =>
    obtain ⟨hw, hws⟩ := List.forall_mem_cons.mp h
    have hr : 0 < w.candidates.length := List.length_pos_iff.mpr hw
    have hvolume : volume (radices (w :: ws)) = w.candidates.length * volume (radices ws) := rfl
    simp only [combination_cons, Nat.zero_mod, Nat.zero_div]
    rw [hvolume] at hn ⊢
    generalize hlen : w.candidates.length = r at hn hr ⊢
    generalize volume (radices ws) = v at hn ih ⊢
    have hdiv : n / r < v := Nat.div_lt_of_lt_mul hn
    have hsplit : r * (n / r) + n % r = n := Nat.div_add_mod n r
    have hmod : n % r < r := Nat.mod_lt n hr
    have hcursor : (w.showing (n % r)).cursor = n % r := rfl
    have hlist : (w.showing (n % r)).candidates.length = r := hlen
    unfold advance Wheel.turn
    rw [hcursor, hlist]
    by_cases hturn : n % r + 1 < r
    · -- the first wheel turns on, and no other moves
      have hnext : n + 1 = r * (n / r) + (n % r + 1) := by omega
      have hroom : n + 1 < r * v := by
        calc n + 1 < r * (n / r) + r := by omega
          _ = r * (n / r + 1) := by rw [Nat.mul_add, Nat.mul_one]
          _ ≤ r * v := Nat.mul_le_mul_left r hdiv
      have hmod' : (n + 1) % r = n % r + 1 := by
        rw [hnext, Nat.mul_add_mod, Nat.mod_eq_of_lt hturn]
      have hdiv' : (n + 1) / r = n / r := by
        rw [hnext, Nat.mul_add_div hr, Nat.div_eq_of_lt hturn, Nat.add_zero]
      rw [if_pos hturn, if_pos hroom, hmod', hdiv', Wheel.showing_showing _ (hlen ▸ hturn)]
    · -- the first wheel comes around, and the others take a step
      have hnext : n + 1 = r * (n / r + 1) := by
        rw [Nat.mul_add, Nat.mul_one]
        omega
      have hmod' : (n + 1) % r = 0 := by rw [hnext, Nat.mul_mod_right]
      have hdiv' : (n + 1) / r = n / r + 1 := by rw [hnext, Nat.mul_div_cancel_left _ hr]
      have hroom : n + 1 < r * v ↔ n / r + 1 < v := by rw [hnext, Nat.mul_lt_mul_left hr]
      rw [if_neg hturn, hmod', hdiv', Wheel.showing_showing _ (hlen ▸ hr)]
      simp only [ih hws hdiv, hroom]
      split <;> rfl

/-! ## The run -/

/-- The wheels agree when they show the combination with this number. -/
def Passes (o : Option ClassOracle) (ws : List Wheel) (n : Nat) : Prop :=
  allAgree o (combination ws n) = true

instance : Decidable (Passes o ws n) := inferInstanceAs (Decidable (_ = true))

/-- Marks wheels as settled on what they show. -/
def settleAll (ws : List Wheel) : List Wheel := ws.map fun w => { w with resolved := true }

theorem spin_pass (h : Passes o ws n) (left turns : Nat) :
    spin o left turns (combination ws n) = (.found turns, settleAll (combination ws n)) := by
  unfold spin
  exact if_pos h

/-- A combination that does not pass is turned away from, as far as there is a next one and a turn is
    left. -/
theorem spin_fail (h : ∀ w ∈ ws, w.candidates ≠ []) (hn : n < volume (radices ws))
    (hfail : ¬Passes o ws n) (left turns : Nat) :
    spin o left turns (combination ws n) =
      if n + 1 < volume (radices ws) then
        match left with
        | 0 => (.limited, combination ws (n + 1))
        | left + 1 => spin o left (turns + 1) (combination ws (n + 1))
      else (.exhausted, combination ws 0) := by
  have hagree : ¬allAgree o (combination ws n) = true := hfail
  rw [spin.eq_def]
  simp only
  rw [if_neg hagree, advance_combination h hn]
  by_cases hnext : n + 1 < volume (radices ws)
  · simp only [if_pos hnext]
    cases left <;> rfl
  · simp only [if_neg hnext]

/-- From some combination on, the wheels turn to the first that passes. -/
theorem spin_to_first (h : ∀ w ∈ ws, w.candidates ≠ []) {left m : Nat} (hn : n ≤ m)
    (hleft : m ≤ n + left) (hm : m < volume (radices ws)) (hpass : Passes o ws m)
    (hfirst : ∀ k, n ≤ k → k < m → ¬Passes o ws k) (turns : Nat) :
    spin o left turns (combination ws n) = (.found (turns + (m - n)), settleAll (combination ws m)) := by
  induction left generalizing n turns with
  | zero =>
    obtain rfl : n = m := by omega
    rw [spin_pass hpass, Nat.sub_self, Nat.add_zero]
  | succ left ih =>
    by_cases hnm : n = m
    · subst hnm
      rw [spin_pass hpass, Nat.sub_self, Nat.add_zero]
    · have hlt : n < m := by omega
      have hfail : ¬Passes o ws n := hfirst n (Nat.le_refl n) hlt
      have hturns : turns + 1 + (m - (n + 1)) = turns + (m - n) := by omega
      rw [spin_fail h (by omega) hfail, if_pos (by omega)]
      simp only
      rw [ih hlt (by omega) (fun k hk => hfirst k (by omega)), hturns]

/-- If none passes, they turn until they come around or the limit is reached. -/
theorem spin_past_all (h : ∀ w ∈ ws, w.candidates ≠ []) {left : Nat} (hn : n < volume (radices ws))
    (hnone : ∀ k, n ≤ k → k ≤ n + left → k < volume (radices ws) → ¬Passes o ws k) (turns : Nat) :
    spin o left turns (combination ws n) =
      if n + left + 1 < volume (radices ws) then (.limited, combination ws (n + left + 1))
      else (.exhausted, combination ws 0) := by
  induction left generalizing n turns with
  | zero =>
    have hfail : ¬Passes o ws n := hnone n (Nat.le_refl n) (Nat.le_refl n) hn
    exact spin_fail h hn hfail 0 turns
  | succ left ih =>
    have hfail : ¬Passes o ws n := hnone n (Nat.le_refl n) (by omega) hn
    rw [spin_fail h hn hfail]
    by_cases hnext : n + 1 < volume (radices ws)
    · have hsum : n + 1 + left + 1 = n + (left + 1) + 1 := by omega
      rw [if_pos hnext]
      simp only
      rw [ih hnext fun k hk hl => hnone k (by omega) (by omega), hsum]
    · rw [if_neg hnext, if_neg (by omega)]

theorem searchAll_eq (limit : Nat) : searchAll o limit ws = spin o limit 0 (combination ws 0) := by
  rw [searchAll, combination_zero]

/-! ## The search -/

/-- The last combination that a search may look at. -/
def lastIndex (limit : Nat) (ws : List Wheel) : Nat := min limit (volume (radices ws) - 1)

theorem lt_volume_of_le_lastIndex (h : ∀ w ∈ ws, w.candidates ≠ []) {limit : Nat}
    (hn : n ≤ lastIndex limit ws) : n < volume (radices ws) := by
  have hpos : 0 < volume (radices ws) := volume_pos (radices_pos h)
  unfold lastIndex at hn
  omega

theorem exists_least (h : Passes o ws n) :
    ∃ m ≤ n, Passes o ws m ∧ ∀ k < m, ¬Passes o ws k := by
  classical
  have hex : ∃ m, Passes o ws m := ⟨n, h⟩
  exact ⟨Nat.find hex, Nat.find_min' hex h, Nat.find_spec hex, fun k hk => Nat.find_min hex hk⟩

theorem searchAll_first (h : ∀ w ∈ ws, w.candidates ≠ []) {limit : Nat}
    (hn : n ≤ lastIndex limit ws) (hpass : Passes o ws n) (hleast : ∀ m < n, ¬Passes o ws m) :
    searchAll o limit ws = (.found n, settleAll (combination ws n)) := by
  have hlt : n < volume (radices ws) := lt_volume_of_le_lastIndex h hn
  have hlimit : n ≤ 0 + limit := by
    unfold lastIndex at hn
    omega
  rw [searchAll_eq, spin_to_first h (Nat.zero_le n) hlimit hlt hpass fun k _ => hleast k]
  simp only [Nat.zero_add, Nat.sub_zero]

theorem searchAll_none (h : ∀ w ∈ ws, w.candidates ≠ []) {limit : Nat}
    (hnone : ∀ n ≤ lastIndex limit ws, ¬Passes o ws n) :
    searchAll o limit ws =
      if limit + 1 < volume (radices ws) then (.limited, combination ws (limit + 1))
      else (.exhausted, combination ws 0) := by
  have hpos : 0 < volume (radices ws) := volume_pos (radices_pos h)
  have hfail : ∀ k, 0 ≤ k → k ≤ 0 + limit → k < volume (radices ws) → ¬Passes o ws k := by
    intro k _ hk hvolume
    refine hnone k ?_
    unfold lastIndex
    omega
  rw [searchAll_eq, spin_past_all h hpos hfail, Nat.zero_add]

/-- Open wheels agree when all their constraints hold. -/
theorem allAgree_open (h : ∀ w ∈ ws, w.resolved = false) :
    allAgree o ws = true ↔ ∀ f ∈ ws.map Wheel.face, ∀ k ∈ f.2, k.holds o (shown ws) = true := by
  have hwheel : ∀ w ∈ ws, w.agrees o (shown ws) = true ↔
      ∀ k ∈ w.face.2, k.holds o (shown ws) = true := by
    intro w hw
    simp [Wheel.agrees, Wheel.face, h w hw]
  rw [allAgree, List.all_eq_true, List.forall_mem_map]
  exact forall₂_congr hwheel

/-- In a search over all wheels, a combination of the open ones passes exactly if the constraints of
    the open wheels hold with the types that these and the settled ones show. -/
theorem passes_frozen {all : List Wheel} (h : Unambiguous all) (n : Nat) :
    Passes o (frozen all) n ↔ ∀ w ∈ all, w.resolved = false → ∀ k ∈ w.constraints,
      k.holds o (shown (replaced all (combination (frozen all) n))) = true := by
  have hopen : ∀ w ∈ combination (frozen all) n, w.resolved = false :=
    open_combination (fun w hw => open_of_mem_frozen hw) n
  have hface : (combination (frozen all) n).map Wheel.face = (frozen all).map Wheel.face :=
    combination_face n
  rw [Passes, allAgree_open hopen, hface]
  simp only [← holds_replaced h hface]
  generalize shown (combination (frozen all) n) = types
  simp only [frozen, List.forall_mem_map, Wheel.face]
  simp

end

/-- The search over open wheels. The combinations are numbered: each choice of candidates has one
    number, its digits being the choice. The search succeeds exactly if one of those within its limit
    passes; then it has turned to the first that does and has settled all wheels there. Otherwise no
    wheel is settled. What passing means is said with the constraints of all wheels of the search, the
    settled ones among them. -/
theorem searchAll_takes_first_passing {o : Option ClassOracle} (limit : Nat) {ws : List Wheel}
    (hopen : ∀ w ∈ ws, w.resolved = false) (hcandidates : ∀ w ∈ ws, w.candidates ≠ []) :
    (∀ n, Below (digits (radices ws) n) (radices ws)) ∧
    (∀ ds, Below ds (radices ws) → ∃! n, n < volume (radices ws) ∧ digits (radices ws) n = ds) ∧
    ((∃ turns, (searchAll o limit ws).1 = .found turns) ↔
      ∃ n ≤ min limit (volume (radices ws) - 1), Passes o ws n) ∧
    (∀ n ≤ min limit (volume (radices ws) - 1), Passes o ws n → (∀ m < n, ¬Passes o ws m) →
      searchAll o limit ws = (.found n, settleAll (combination ws n))) ∧
    ((∀ turns, (searchAll o limit ws).1 ≠ .found turns) →
      ∀ w ∈ (searchAll o limit ws).2, w.resolved = false) ∧
    ∀ all, Unambiguous all → ws = frozen all → ∀ n, Passes o ws n ↔
      ∀ w ∈ all, w.resolved = false → ∀ k ∈ w.constraints,
        k.holds o (shown (replaced all (combination ws n))) = true := by
  have hpos : ∀ r ∈ radices ws, 0 < r := radices_pos hcandidates
  have hfails : ¬(∃ n ≤ lastIndex limit ws, Passes o ws n) →
      (∀ turns, (searchAll o limit ws).1 ≠ .found turns) ∧
        ∀ w ∈ (searchAll o limit ws).2, w.resolved = false := by
    intro hnone
    rw [searchAll_none hcandidates fun n hn hp => hnone ⟨n, hn, hp⟩]
    split
    · exact ⟨fun turns => by simp, open_combination hopen _⟩
    · exact ⟨fun turns => by simp, open_combination hopen _⟩
  have hfinds : ∀ n ≤ lastIndex limit ws, Passes o ws n →
      ∃ turns, (searchAll o limit ws).1 = .found turns := by
    intro n hn hp
    obtain ⟨m, hm, hpass, hleast⟩ := exists_least hp
    rw [searchAll_first hcandidates (Nat.le_trans hm hn) hpass hleast]
    exact ⟨m, rfl⟩
  refine ⟨below_digits hpos, ?_, ⟨?_, ?_⟩, ?_, ?_, ?_⟩
  · intro ds hds
    refine ⟨numeral (radices ws) ds, ⟨numeral_lt hds, digits_numeral hds⟩, ?_⟩
    rintro n ⟨hn, rfl⟩
    exact (numeral_digits hn).symm
  · intro hfound
    by_contra hnone
    obtain ⟨turns, ht⟩ := hfound
    exact (hfails hnone).1 turns ht
  · rintro ⟨n, hn, hp⟩
    exact hfinds n hn hp
  · intro n hn hp hleast
    exact searchAll_first hcandidates hn hp hleast
  · intro hnot
    refine (hfails ?_).2
    rintro ⟨n, hn, hp⟩
    obtain ⟨turns, ht⟩ := hfinds n hn hp
    exact hnot turns ht
  · rintro all hall rfl
    exact passes_frozen hall

/-- Three open wheels and a settled one that must all show the same type. Two of the open ones offer it
    last. -/
def fourMeet : List Wheel :=
  let slot (v : Nat) : Slot := ⟨some ⟨v⟩, Ty.anything⟩
  [{ var := ⟨0⟩, candidates := [.prim .int, .prim .float], current := Ty.anything,
     constraints := [.phi (slot 0) [slot 1]] },
   { var := ⟨1⟩, candidates := [.prim .boolean, .prim .float, .prim .int], current := Ty.anything,
     constraints := [.phi (slot 0) [slot 1], .phi (slot 2) [slot 1, slot 3]] },
   { var := ⟨2⟩, candidates := [.prim .short, .prim .int], current := Ty.anything,
     constraints := [.phi (slot 2) [slot 1, slot 3]] },
   { var := ⟨3⟩, current := .prim .int, resolved := true }]

/-- Combination 10 of 12 is the first that passes: a limit of 10 is enough to find it,
    and one of 9 is not. -/
theorem fourMeet_found_at_limit :
    let ws := frozen fourMeet
    (∀ w ∈ ws, w.resolved = false) ∧ (∀ w ∈ ws, w.candidates ≠ []) ∧
    searchAll none 10 ws = (.found 10, settleAll (combination ws 10)) ∧
    ¬(∃ turns, (searchAll none 9 ws).1 = .found turns) := by
  intro ws
  have hopen : ∀ w ∈ ws, w.resolved = false := fun w hw => open_of_mem_frozen hw
  have hcandidates : ∀ w ∈ ws, w.candidates ≠ [] := by decide +kernel
  obtain ⟨-, -, -, hfirst, -⟩ :=
    searchAll_takes_first_passing (o := none) 10 hopen hcandidates
  obtain ⟨-, -, hfinds, -⟩ :=
    searchAll_takes_first_passing (o := none) 9 hopen hcandidates
  refine ⟨hopen, hcandidates, hfirst 10 (by decide) (by decide +kernel) (by decide +kernel), ?_⟩
  rw [hfinds]
  decide +kernel

end TypeRecovery.Inference.Search
