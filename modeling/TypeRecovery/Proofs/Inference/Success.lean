import TypeRecovery.Proofs.Inference.Odometer

/- What a search has settled when it reports success. The wheels that it settles show known types, and
   these are written, so their variables are known; and trying the types once more keeps them known, as
   long as no called method declares a placeholder. But success does not mean that all wheels are
   settled. The turns end one combination before the limit is passed, with the wheels turned on to the
   next combination, which nobody has looked at; then the constraints are checked again, whatever ended
   the turns. If this last combination happens to agree, the search counts as successful although no
   open wheel has been settled, nothing is written for them, and no warning is given. -/
namespace TypeRecovery.Inference

open MethodGraph

/-! ## Known types stay known -/

/-- No call declares an open type: with a receiver of a known type, what the called method declares for
    the result and the arguments is known too. -/
def SettledCalls (c : Context) (g : MethodGraph) : Prop :=
  ∀ i t u r, (g.insn i).opcode = .invoke ∨ (g.insn i).opcode = .constructor → t.isKnown = true →
    Trial.Declares ⟨c, g, {}⟩ i t u r → r.isKnown = true

/-- The type is known, whatever the site. -/
def KnownAt (_ : SiteId) (t : Ty) : Prop := t.isKnown = true

namespace Trial

open Follows

section
variable {x : Trial} (hcalls : SettledCalls x.context x.graph)
include hcalls

theorem known_of_conveys {s u : SiteId} {t r : Ty} (ht : t.isKnown = true) (h : x.Conveys s t u r) :
    r.isKnown = true := by
  cases h.passes with
  | same => exact ht
  | wrap => exact ht
  | unwrap _ _ _ he =>
    cases t with
    | array e =>
      cases he
      exact ht
    | _ => cases he
  | declared hs _ hcode _ => exact hcalls _ t u r hcode ht (h.declares _ hs hcode)

omit hcalls in
theorem offerSite_known {request : Request}
    (hr : ∀ s t, t.isKnown = true → Follows (Keeping KnownAt) (request s t)) (s : SiteId) {t : Ty}
    (ht : t.isKnown = true) : Follows (Keeping KnownAt) (x.offerSite request s t) := by
  refine follows_offerSite keeping_log (fun v _ _ => ?_) fun _ _ => hr (some s) t ht
  exact follows_offerVar keeping_log (fun _ w _ => hr w t ht) (takeBack_keeps _)

theorem request_known (depth : Nat) (s : Option SiteId) (t : Ty) (ht : t.isKnown = true) :
    Follows (Keeping KnownAt) (x.request depth s t) := by
  induction depth using Nat.strongRecOn generalizing s t with
  | _ depth ih =>
    cases s with
    | none => exact follows_request_none depth t
    | some s =>
      refine follows_request_conveyed keeping_log (fun a ha => ha.request ht) (takeBack_keeps _) ?_
      intro d hd u r hconv
      exact offerSite_known (ih d hd) u (known_of_conveys hcalls ht hconv)

/-- A whole attempt with a known type proposes known types only. -/
theorem run_known (s : SiteId) {t : Ty} (ht : t.isKnown = true) :
    (x.run s t).2.proposal.Only KnownAt :=
  offerSite_known (request_known hcalls _) s ht {} fun _ _ h => by cases h

end

end Trial

/-- Types and bounds are all that was written, and no known type was lost. -/
structure StaysKnown (g g' : MethodGraph) : Prop where
  framed : Framed g g'
  known : ∀ v, (g.var v).ty.isKnown = true → (g'.var v).ty.isKnown = true

instance : IsPreorder MethodGraph StaysKnown where
  refl g := ⟨refl_of Framed g, fun _ => id⟩
  trans _ _ _ h h' := ⟨trans_of Framed h.framed h'.framed, fun v => h'.known v ∘ h.known v⟩

section
variable {c : Context} {g g' : MethodGraph}

theorem SettledCalls.framed (h : SettledCalls c g) (hf : Framed g g') : SettledCalls c g' := by
  have hinsn : ∀ i, g'.insn i = g.insn i := fun i => by rw [insn, insn, hf.insns]
  have hvars : g'.typeVars = g.typeVars := congrArg (·.2.2.1) hf.header
  intro i t u r hcode ht hdecl
  rw [hinsn] at hcode
  refine h i t u r hcode ht ?_
  obtain ⟨callee, hcallee, hresolved, d, hd, hr⟩ := hdecl
  refine ⟨callee, (hinsn i) ▸ hcallee, hresolved, d, ?_, ?_⟩
  · simpa only [Trial.declaredSlots, hinsn, paramOffset, instanceArg?] using hd
  · simpa only [Trial.usable?, outOfScope, hvars] using hr

theorem staysKnown_setVarType (v : VarId) {t : Ty} (ht : t.isKnown = true) :
    StaysKnown g (g.setVarType v (some t)) := by
  refine ⟨framed_setVarType v _, fun w hw => ?_⟩
  rw [setVarType, var_updateVar]
  split
  · exact ht
  · exact hw

theorem staysKnown_commit {p : Proposal} (hp : p.Only KnownAt) : StaysKnown g (p.commit g) := by
  refine ⟨p.framed_commit g, fun v hv => ?_⟩
  rcases p.var_commit g v with heq | ⟨s, t, hmem, -, heq⟩
  · rw [heq]
    exact hv
  · rw [heq]
    exact hp s t hmem

theorem steps_apply_known (hcalls : SettledCalls c g) (v : VarId) (t : Ty) (flags : Flags) :
    Steps StaysKnown c g (apply v t flags) anyResult := by
  refine .theGraph' fun g₁ h₁ => ?_
  split
  · exact .done' _
  · next s _ =>
    refine .ite' (fun _ => .done' _) fun ht => .read' ?_
    have hrun := Trial.run_known (x := ⟨c, g₁, flags⟩) (hcalls.framed h₁.framed) s (by simpa using ht)
    simp only
    generalize Trial.run ⟨c, g₁, flags⟩ s t = outcome at hrun ⊢
    obtain ⟨r, attempt⟩ := outcome
    refine .bind' (.note' _) fun _ _ _ _ => ?_
    simp only
    split
    · exact .throw' _
    · exact .bind' (.note' _) fun _ _ _ _ => .done' _
    · refine .ite' (fun _ => .done' _) fun _ => .bind' (.note' _) fun _ _ _ _ => ?_
      exact .bind' (.change' fun g' _ => staysKnown_commit hrun) fun _ _ _ _ => .done' _

end

/-! ## Writing what was found -/

section
variable {c : Context} {g : MethodGraph} {α : Type} {K : MethodGraph → MethodGraph → Prop}
  [IsPreorder MethodGraph K]

/-- What each step over a list brings about, and later ones leave as it is, holds of all in the end. -/
theorem Steps.filterM_each {P : α → MethodGraph → Prop} {step : α → Infer Bool}
    (hP : ∀ a x y, K x y → P a x → P a y) (l : List α)
    (h : ∀ a ∈ l, ∀ g', K g g' → Steps K c g' (step a) fun _ => P a) :
    Steps K c g (l.filterM step) fun _ g' => ∀ a ∈ l, P a g' := by
  have haux : ∀ kept, Steps K c g (l.filterAuxM step kept) fun _ g' => ∀ a ∈ l, P a g' := by
    induction l generalizing g with
    | nil => exact fun kept => .pure' fun _ _ => List.forall_mem_nil _
    | cons a l ih =>
      intro kept
      rw [List.filterAuxM]
      refine .bind' (h a List.mem_cons_self g (refl_of K g)) fun keep g₁ h₁ ha => ?_
      have hrest : ∀ kept, Steps K c g₁ (l.filterAuxM step kept) fun _ g' => ∀ b ∈ l, P b g' :=
        ih fun b hb g₂ h₂ => h b (List.mem_cons_of_mem a hb) g₂ (trans_of K h₁ h₂)
      intro s hs
      obtain ⟨hk, hq⟩ := hrest _ s hs
      refine ⟨hk, fun r hr => List.forall_mem_cons.mpr ⟨?_, hq r hr⟩⟩
      exact hP a _ _ (trans_of K hs hk.graph) ha
  exact .bind' (haux []) fun _ g₁ h₁ hl => .pure' fun g' hg' a ha => hP a _ _ hg' (hl a ha)

end

open Search

section
variable {c : Context} {g : MethodGraph} {w : Wheel} {ws : List Wheel}

/-- The variable of the wheel is known if the wheel is settled on a known type. -/
def WheelWritten (w : Wheel) (g : MethodGraph) : Prop :=
  w.resolved = true → w.current.isKnown = true → w.var.index < g.vars.size →
    (g.var w.var).ty.isKnown = true

theorem steps_writeWheel_known (w : Wheel) :
    Steps StaysKnown c g (writeWheel w) fun _ => WheelWritten w := by
  refine .edit' fun g' _ => ?_
  split
  · next hnew =>
    have hk : w.current.isKnown = true := by
      simp only [Bool.and_eq_true] at hnew
      exact hnew.1.2
    refine ⟨staysKnown_setVarType w.var hk, fun _ _ hin => ?_⟩
    have hin' : w.var.index < g'.vars.size := by
      rwa [(framed_setVarType (g := g') w.var (some w.current)).vars] at hin
    show ((g'.updateVar w.var _).var w.var).ty.isKnown = true
    rw [var_updateVar, if_pos ⟨rfl, hin'⟩]
    exact hk
  · next hold =>
    refine ⟨refl_of StaysKnown g', fun hres hk _ => ?_⟩
    have heq : w.current = (g'.var w.var).ty := by simpa [hres, hk] using hold
    show (g'.var w.var).ty.isKnown = true
    rw [← heq]
    exact hk

theorem steps_applyWheels_known (hcalls : SettledCalls c g) (ws : List Wheel) :
    Steps StaysKnown c g (applyWheels ws) fun _ g' => ∀ w ∈ ws, WheelWritten w g' := by
  have hstable : ∀ w x y, StaysKnown x y → WheelWritten w x → WheelWritten w y := by
    intro w x y hxy hx hres hk hin
    rw [hxy.framed.vars] at hin
    exact hxy.known _ (hx hres hk hin)
  have hwrites : Steps StaysKnown c g (ws.filterM writeWheel) fun _ g' => ∀ w ∈ ws, WheelWritten w g' :=
    .filterM_each hstable ws fun w _ _ _ => steps_writeWheel_known w
  refine .bind' hwrites fun fresh g₁ h₁ hall => ?_
  have hconfirm : ∀ w g', StaysKnown g₁ g' → Steps StaysKnown c g' (confirmWheel w) anyResult := by
    intro w g' hg'
    have hcalls' := (hcalls.framed h₁.framed).framed hg'.framed
    refine .bind' (steps_apply_known hcalls' _ _ _) fun r _ _ _ => .ite' (fun _ => ?_) fun _ => .done' _
    exact .theGraph' fun _ _ => .bind' (.report' _) fun _ _ _ _ => .done' _
  refine .bind' (.anyOf' fresh fun w _ g' hg' => ?_) fun failed g₂ h₂ _ => .pure' fun g₃ h₃ w hw => ?_
  · exact .bind' (hconfirm w g' hg') fun _ _ _ _ => .done' _
  · exact hstable w _ _ (trans_of StaysKnown h₂ h₃) (hall w hw)

end

/-! ## Wheels that are vouched for -/

namespace Search

section
variable {g : MethodGraph} {o : Option ClassOracle} {w x : Wheel} {ws turned : List Wheel} {n : Nat}

theorem Wheel.Vouched.showing (h : w.Vouched g) (hopen : w.resolved = false) (n : Nat) :
    (w.showing n).Vouched g where
  inTable := h.inTable
  candidates := h.candidates
  settled hres := absurd (hopen.symm.trans hres) Bool.false_ne_true
  unsettled := h.unsettled

/-- An open wheel may be settled on any of its candidates. -/
theorem Wheel.Vouched.settledOn (h : w.Vouched g) (hn : n < w.candidates.length) :
    Wheel.Vouched g { w.showing n with resolved := true } where
  inTable := h.inTable
  candidates := h.candidates
  settled _ := by
    right
    rw [Wheel.showing, List.getElem?_eq_getElem hn]
    exact h.candidates _ (List.getElem_mem hn)
  unsettled hres := by cases hres

theorem Wheel.Vouched.settle (h : w.Vouched g) (hopen : w.resolved = false) :
    (settle o ws w).Vouched g := by
  unfold Search.settle
  simp only
  split
  · next n hn =>
    obtain ⟨hlt, -, -⟩ := List.findIdx?_eq_some_iff_getElem.mp hn
    exact h.settledOn hlt
  · exact h.showing hopen 0

theorem vouched_settleIndependent (h : ∀ w ∈ ws, w.Vouched g) :
    ∀ w ∈ settleIndependent o ws, w.Vouched g := by
  refine List.foldlRecOn (motive := fun ws : List Wheel => ∀ w ∈ ws, w.Vouched g) _ _ h
    fun ws' hws' w hw => ?_
  obtain ⟨hmem, hopen⟩ := List.mem_filter.mp hw
  split
  · intro x hx
    obtain ⟨y, hy, rfl⟩ := List.mem_map.mp hx
    split
    · exact (h w hmem).settle (by simpa using hopen)
    · exact hws' y hy
  · exact hws'

theorem vouched_frozen (h : ∀ w ∈ ws, w.Vouched g) : ∀ w ∈ frozen ws, w.Vouched g := by
  intro x hx
  obtain ⟨w, hw, rfl⟩ := List.mem_map.mp hx
  obtain ⟨hin, hcand, hset, hunset⟩ := h w (List.mem_filter.mp hw).1
  exact ⟨hin, hcand, hset, hunset⟩

/-- In a combination every wheel shows one of its candidates. -/
theorem mem_combination (h : ∀ w ∈ ws, w.candidates ≠ []) (hx : x ∈ combination ws n) :
    ∃ w ∈ ws, ∃ m < w.candidates.length, x = w.showing m := by
  induction ws generalizing n with
  | nil => cases hx
  | cons w ws ih =>
    obtain ⟨hw, hws⟩ := List.forall_mem_cons.mp h
    rw [combination_cons] at hx
    rcases List.mem_cons.mp hx with rfl | hx
    · exact ⟨w, List.mem_cons_self, _, Nat.mod_lt n (List.length_pos_iff.mpr hw), rfl⟩
    · obtain ⟨y, hy, m, hm, rfl⟩ := ih hws hx
      exact ⟨y, List.mem_cons_of_mem w hy, m, hm, rfl⟩

/-- Among the wheels in the end, a wheel is one that was settled before or one that was turned. -/
theorem mem_replaced (hface : turned.map Wheel.face = (frozen ws).map Wheel.face)
    (hx : x ∈ replaced ws turned) : (x ∈ ws ∧ x.resolved = true) ∨ x ∈ turned := by
  obtain ⟨w, hw, rfl⟩ := List.mem_map.mp hx
  cases hf : turned.find? (·.var == w.var) with
  | some t => exact .inr (List.mem_of_find?_eq_some hf)
  | none =>
    refine .inl ⟨hw, ?_⟩
    show w.resolved = true
    rw [← Bool.not_eq_false]
    intro hopen
    obtain ⟨t, -, -, hsome⟩ := find?_turned hface hw hopen
    rw [hf] at hsome
    cases hsome

/-- In the place of an open wheel there is a turned one in the end. -/
theorem turned_of_open (hone : Unambiguous ws)
    (hface : turned.map Wheel.face = (frozen ws).map Wheel.face) (hw : w ∈ ws)
    (hopen : w.resolved = false) : ∃ t ∈ turned, (turned.find? (·.var == w.var)).getD w = t ∧
      t.var = w.var ∧ t.constraints = w.constraints.map (Constraint.freeze (settledTypes ws)) := by
  obtain ⟨t, ht, hvar, hfind⟩ := find?_turned hface hw hopen
  obtain ⟨y, hy, -, hyvar, hcon⟩ := origin_of_turned hface ht
  obtain rfl : y = w := hone y hy w hw (hyvar.symm.trans hvar)
  exact ⟨t, ht, by rw [hfind]; rfl, hvar, hcon⟩

theorem var_replacement (turned : List Wheel) (w : Wheel) :
    ((turned.find? (·.var == w.var)).getD w).var = w.var := by
  cases hf : turned.find? (·.var == w.var) with
  | none => rfl
  | some t => simpa using List.find?_some hf

theorem map_var_replaced (ws turned : List Wheel) :
    (replaced ws turned).map Wheel.var = ws.map Wheel.var := by
  rw [replaced, List.map_map]
  exact List.map_congr_left fun w _ => var_replacement turned w

/-- The check after the turns, where the wheels stand at a combination and have not been settled: it
    tells whether the combination passes. -/
theorem check_iff_passes (hone : Unambiguous ws) (n : Nat) :
    (∀ x ∈ replaced ws (combination (frozen ws) n),
        x.var ∈ (ws.filter (!·.resolved)).map Wheel.var →
        x.agrees o (shown (replaced ws (combination (frozen ws) n))) = true) ↔
      Passes o (frozen ws) n := by
  have hface : (combination (frozen ws) n).map Wheel.face = (frozen ws).map Wheel.face :=
    combination_face n
  have hopen : ∀ t ∈ combination (frozen ws) n, t.resolved = false :=
    open_combination (fun w hw => open_of_mem_frozen hw) n
  have hfreeze : ∀ k : Constraint, (k.freeze (settledTypes ws)).holds o
      (shown (replaced ws (combination (frozen ws) n))) =
        k.holds o (shown (replaced ws (combination (frozen ws) n))) := fun k =>
    Constraint.holds_freeze fun v t ht => shown_replaced_settled hone hface ht
  rw [passes_frozen hone]
  generalize combination (frozen ws) n = turned at hface hopen hfreeze ⊢
  constructor
  · intro hcheck w hw hwopen k hk
    obtain ⟨t, ht, hplace, hvar, hcon⟩ := turned_of_open hone hface hw hwopen
    have hmem : t ∈ replaced ws turned := hplace ▸ List.mem_map_of_mem hw
    have hvars : t.var ∈ (ws.filter (!·.resolved)).map Wheel.var :=
      List.mem_map.mpr ⟨w, List.mem_filter.mpr ⟨hw, by simp [hwopen]⟩, hvar.symm⟩
    have hagrees := hcheck t hmem hvars
    rw [Wheel.agrees, hopen t ht, Bool.false_or, List.all_eq_true, hcon] at hagrees
    rw [← hfreeze]
    exact hagrees _ (List.mem_map_of_mem hk)
  · intro hall x hx hxvar
    obtain ⟨w, hw, rfl⟩ := List.mem_map.mp hx
    obtain ⟨w', hw', hvar'⟩ := List.mem_map.mp hxvar
    obtain ⟨hmem', hopen'⟩ := List.mem_filter.mp hw'
    obtain rfl : w' = w := hone w' hmem' w hw (hvar'.trans (var_replacement turned w))
    obtain ⟨t, ht, hplace, -, hcon⟩ := turned_of_open hone hface hw (by simpa using hopen')
    rw [hplace, Wheel.agrees, hopen t ht, Bool.false_or, List.all_eq_true, hcon]
    intro k hk
    obtain ⟨k', hk', rfl⟩ := List.mem_map.mp hk
    rw [hfreeze]
    exact hall w' hw (by simpa using hopen') k' hk'

theorem map_var_settleIndependent (ws : List Wheel) :
    (settleIndependent o ws).map Wheel.var = ws.map Wheel.var := by
  refine List.foldlRecOn (motive := fun ws' : List Wheel => ws'.map Wheel.var = ws.map Wheel.var)
    _ _ rfl fun ws' hws' w _ => ?_
  split
  · rw [← hws', List.map_map]
    refine List.map_congr_left fun x _ => ?_
    show (if x.var = w.var then settle o ws' w else x).var = x.var
    split
    · next hvar => rw [settle_var, hvar]
    · rfl
  · exact hws'

/-- How the open wheels may stand when the search goes on: settled on the first combination within the
    limit that passes, or left open at the one behind the limit, if that one passes. -/
inductive Stands (o : Option ClassOracle) (limit : Nat) (mid : List Wheel) : List Wheel → Prop
  | settled {n : Nat} (hn : n ≤ lastIndex limit (frozen mid)) (hpass : Passes o (frozen mid) n)
    (hleast : ∀ m < n, ¬Passes o (frozen mid) m) :
    Stands o limit mid (replaced mid (settleAll (combination (frozen mid) n)))
  | passedOver (hnone : ∀ n ≤ limit, ¬Passes o (frozen mid) n)
    (hroom : limit + 1 < volume (radices (frozen mid))) (hpass : Passes o (frozen mid) (limit + 1)) :
    Stands o limit mid (replaced mid (combination (frozen mid) (limit + 1)))

theorem stands_of_check {limit : Nat} {mid : List Wheel} (hone : Unambiguous mid)
    (hcand : ∀ w ∈ frozen mid, w.candidates ≠ [])
    (hcheck : ∀ x ∈ (turnOpen o limit mid).2, x.var ∈ (mid.filter (!·.resolved)).map Wheel.var →
      x.agrees o (shown (turnOpen o limit mid).2) = true) :
    Stands o limit mid (turnOpen o limit mid).2 := by
  rw [turnOpen_wheels] at hcheck ⊢
  by_cases hex : ∃ n ≤ lastIndex limit (frozen mid), Passes o (frozen mid) n
  · obtain ⟨n, hn, hp⟩ := hex
    obtain ⟨m, hm, hpass, hleast⟩ := exists_least hp
    have hlast : m ≤ lastIndex limit (frozen mid) := Nat.le_trans hm hn
    rw [searchAll_first hcand hlast hpass hleast]
    exact .settled hlast hpass hleast
  · have hnone : ∀ n ≤ lastIndex limit (frozen mid), ¬Passes o (frozen mid) n :=
      fun n hn hp => hex ⟨n, hn, hp⟩
    rw [searchAll_none hcand hnone] at hcheck ⊢
    by_cases hroom : limit + 1 < volume (radices (frozen mid))
    · rw [if_pos hroom] at hcheck ⊢
      refine .passedOver (fun n hn => hnone n ?_) hroom ((check_iff_passes hone _).mp hcheck)
      unfold lastIndex
      omega
    · -- the wheels have come around to the first combination, which failed before
      rw [if_neg hroom] at hcheck
      exact absurd ((check_iff_passes hone 0).mp hcheck) (hnone 0 (Nat.zero_le _))

section
variable {limit : Nat} {mid : List Wheel}

theorem face_settleAll (ws : List Wheel) : (settleAll ws).map Wheel.face = ws.map Wheel.face := by
  simp [settleAll, Wheel.face, Function.comp_def]

theorem vouched_of_stands (hv : ∀ w ∈ mid, w.Vouched g) (h : Stands o limit mid ws) :
    ∀ w ∈ ws, w.Vouched g := by
  have hfrozen := vouched_frozen hv
  have hcand : ∀ w ∈ frozen mid, w.candidates ≠ [] := fun w hw =>
    ((hfrozen w hw).unsettled (open_of_mem_frozen hw)).1
  intro x hx
  cases h with
  | settled =>
    rcases mem_replaced ((face_settleAll _).trans (combination_face _)) hx with ⟨hx, -⟩ | hx
    · exact hv x hx
    · obtain ⟨y, hy, rfl⟩ := List.mem_map.mp hx
      obtain ⟨w, hw, m, hm, rfl⟩ := mem_combination hcand hy
      exact (hfrozen w hw).settledOn hm
  | passedOver =>
    rcases mem_replaced (combination_face _) hx with ⟨hx, -⟩ | hx
    · exact hv x hx
    · obtain ⟨w, hw, m, -, rfl⟩ := mem_combination hcand hx
      exact (hfrozen w hw).showing (open_of_mem_frozen hw) m

theorem map_var_of_stands (h : Stands o limit mid ws) : ws.map Wheel.var = mid.map Wheel.var := by
  cases h with
  | settled => exact map_var_replaced _ _
  | passedOver => exact map_var_replaced _ _

/-- A wheel is left open exactly if the first combination that passes is the one behind the limit. -/
theorem exists_open_iff (hone : Unambiguous mid) (h : Stands o limit mid ws) :
    (∃ w ∈ ws, w.resolved = false) ↔ (∀ n ≤ limit, ¬Passes o (frozen mid) n) ∧
      limit + 1 < volume (radices (frozen mid)) ∧ Passes o (frozen mid) (limit + 1) := by
  cases h with
  | @settled n hn hpass hleast =>
    have hlimit : n ≤ limit := Nat.le_trans hn (Nat.min_le_left _ _)
    refine iff_of_false ?_ fun hover => hover.1 n hlimit hpass
    rintro ⟨x, hx, hopen⟩
    rcases mem_replaced ((face_settleAll _).trans (combination_face _)) hx with ⟨-, hres⟩ | hx
    · exact Bool.false_ne_true (hopen.symm.trans hres)
    · obtain ⟨y, -, rfl⟩ := List.mem_map.mp hx
      cases hopen
  | passedOver hnone hroom hpass =>
    refine iff_of_true ?_ ⟨hnone, hroom, hpass⟩
    have hne : frozen mid ≠ [] := by
      intro hnil
      rw [hnil] at hroom
      simp [radices, volume] at hroom
    obtain ⟨f, hf⟩ := List.exists_mem_of_ne_nil _ hne
    obtain ⟨w, hw, -⟩ := List.mem_map.mp hf
    obtain ⟨hmem, hopen⟩ := List.mem_filter.mp hw
    obtain ⟨t, ht, hplace, -, -⟩ :=
      turned_of_open hone (combination_face (limit + 1)) hmem (by simpa using hopen)
    refine ⟨t, hplace ▸ List.mem_map_of_mem hmem, ?_⟩
    exact open_combination (fun x hx => open_of_mem_frozen hx) _ t ht

end

end

end Search

section
variable {c : Context} {o : Option ClassOracle} {mid ws : List Wheel} {s s' : Session}

theorem stands_of_turnWheels (hone : Unambiguous mid)
    (hcand : ∀ w ∈ frozen mid, w.candidates ≠ [])
    (h : (turnWheels o mid).after c s = (.ok (some ws), s')) :
    Stands o c.limits.searchIterations mid ws ∧ s'.graph = s.graph := by
  unfold turnWheels at h
  simp only at h
  split at h
  · next hempty =>
    -- without open wheels there is one combination, and it passes
    have hnil : frozen mid = [] := by
      rw [List.isEmpty_iff, List.map_eq_nil_iff] at hempty
      rw [frozen, hempty, List.map_nil]
    cases h
    have hstands : Stands o c.limits.searchIterations mid
        (replaced mid (Search.settleAll (combination (frozen mid) 0))) := by
      refine .settled (Nat.zero_le _) ?_ fun m hm => absurd hm (Nat.not_lt_zero m)
      rw [hnil]
      rfl
    rw [hnil] at hstands
    have hmid : replaced mid (Search.settleAll (combination [] 0)) = mid := List.map_id' mid
    rw [hmid] at hstands
    exact ⟨hstands, rfl⟩
  · rw [after_read] at h
    obtain ⟨log, hnote⟩ := after_note_bind _ _ c s
    rw [hnote] at h
    split at h
    · next hcheck =>
      cases h
      refine ⟨?_, rfl⟩
      have hchecked : ∀ x ∈ (turnOpen o c.limits.searchIterations mid).2,
          x.var ∈ (mid.filter (!·.resolved)).map Wheel.var →
          x.agrees o (shown (turnOpen o c.limits.searchIterations mid).2) = true := fun x hx hvar =>
        List.all_eq_true.mp hcheck x (List.mem_filter.mpr ⟨hx, by simpa using hvar⟩)
      exact stands_of_check hone hcand hchecked
    · obtain ⟨log', hnote'⟩ := after_note_bind _ _ c { s with log }
      rw [hnote'] at h
      cases h

/-! ## The search as a whole -/

theorem after_edit {α : Type} (f : MethodGraph → α × MethodGraph) (c : Context) (s : Session) :
    (edit f).after c s = (.ok (f s.graph).1, { s with
      graph := (f s.graph).2
      changes := fun x y => s.changes x y ∨ (x = s.graph ∧ y = (f s.graph).2) }) := rfl

theorem filterAuxM_idle (kept : List Wheel)
    (h : ∀ w ∈ ws, w.resolved = true → (s.graph.var w.var).ty = w.current) :
    ∃ changes, (ws.filterAuxM writeWheel kept).after c s = (.ok kept, { s with changes }) := by
  induction ws generalizing s with
  | nil => exact ⟨s.changes, rfl⟩
  | cons w ws ih =>
    obtain ⟨hw, hrest⟩ := List.forall_mem_cons.mp h
    have hold : (w.resolved && w.current.isKnown && w.current != (s.graph.var w.var).ty) = false := by
      cases hres : w.resolved with
      | false => rfl
      | true => simp [hw hres]
    rw [List.filterAuxM, after_bind, writeWheel, after_edit]
    simp only [hold, Bool.false_eq_true, if_false]
    exact ih hrest

/-- Where the settled wheels bring nothing new, nothing is written and nothing is tried. -/
theorem applyWheels_idle (h : ∀ w ∈ ws, w.resolved = true → (s.graph.var w.var).ty = w.current) :
    ∃ changes, (applyWheels ws).after c s = (.ok true, { s with changes }) := by
  obtain ⟨changes, hwrites⟩ := filterAuxM_idle (c := c) [] h
  refine ⟨changes, ?_⟩
  rw [applyWheels, after_bind, List.filterM, after_bind, hwrites]
  rfl

theorem wheels_of_success (h : searchTypes.after c s = (.ok true, s')) :
    ∃ start ws s₁, searchWheels.after c s = (.ok (some (start, ws)), s₁) ∧
      (applyWheels ws).after c s₁ = (.ok true, s') := by
  rw [searchTypes_eq] at h
  obtain ⟨found, s₁, hwheels, h⟩ := ok_of_after_bind h
  cases found with
  | none => cases h
  | some r => exact ⟨r.1, r.2, s₁, hwheels, h⟩

theorem vouched_constrain {g : MethodGraph} {w : Wheel} (h : w.Vouched g) :
    (constrain g w).Vouched g := by
  unfold constrain
  split
  · exact h
  · exact ⟨h.inTable, h.candidates, h.settled, h.unsettled⟩

/-- The wheels with which a search goes on are vouched for, one for each variable in use, and it is
    known how they stand. -/
theorem stands_of_searchWheels {start : List Wheel} {s₁ : Session}
    (h : searchWheels.after c s = (.ok (some (start, ws)), s₁)) :
    Stands c.oracle c.limits.searchIterations (settleIndependent c.oracle start) ws ∧
      Unambiguous (settleIndependent c.oracle start) ∧ (∀ w ∈ ws, w.Vouched s.graph) ∧
      ws.map Wheel.var = s.graph.live ∧ s₁.graph = s.graph := by
  obtain ⟨ws₀, s₀, hmap, rfl, hturn⟩ := wheels_of_searchWheels h
  obtain ⟨hvars, hone⟩ := wheels_of_mapM hmap
  obtain ⟨hvouched, hgraph⟩ := vouched_of_mapM hmap
  have hstart : ∀ w ∈ ws₀.map (constrain s.graph), w.Vouched s.graph := by
    intro x hx
    obtain ⟨w, hw, rfl⟩ := List.mem_map.mp hx
    exact vouched_constrain (hvouched w hw)
  have hmid := vouched_settleIndependent (o := c.oracle) hstart
  have hone' : Unambiguous (settleIndependent c.oracle (ws₀.map (constrain s.graph))) :=
    (settling_settleIndependent hone.constrain).one
  have hcand : ∀ w ∈ frozen (settleIndependent c.oracle (ws₀.map (constrain s.graph))),
      w.candidates ≠ [] := fun w hw =>
    ((vouched_frozen hmid w hw).unsettled (open_of_mem_frozen hw)).1
  obtain ⟨hstands, hgraph'⟩ := stands_of_turnWheels hone' hcand hturn
  refine ⟨hstands, hone', vouched_of_stands hmid hstands, ?_, hgraph'.trans hgraph⟩
  calc ws.map Wheel.var
      = (ws₀.map (constrain s.graph)).map Wheel.var :=
        (map_var_of_stands hstands).trans (map_var_settleIndependent _)
    _ = ws₀.map Wheel.var := by
        rw [List.map_map]
        exact List.map_congr_left fun w _ => constrain_var w
    _ = s.graph.live := hvars

end

/-- A search that reports success gives no further warning. Every variable in use is known then, or its
    wheel was left open, unless some called method declares an open type. A wheel is left open exactly
    if no combination within the limit passes and the next one does; and if the settled wheels bring
    nothing new then, the graph is as before and the variables of the open wheels are still open. -/
theorem search_success_settles {c : Context} {s s' : Session}
    (hpins : ∀ v ∈ s.graph.live, ∀ t, (s.graph.var v).pin = some t → t.isKnown = true)
    (h : searchTypes.after c s = (.ok true, s')) :
    search.after c s = (.ok (allKnown s'.graph), s') ∧
    ∃ start ws s₁, searchWheels.after c s = (.ok (some (start, ws)), s₁) ∧
      (SettledCalls c s.graph → ∀ v ∈ s.graph.live,
        (s'.graph.var v).ty.isKnown = true ∨ ∃ w ∈ ws, w.var = v ∧ w.resolved = false) ∧
      (let turning := frozen (settleIndependent c.oracle start)
       let limit := c.limits.searchIterations
       (∃ w ∈ ws, w.resolved = false) ↔ (∀ n ≤ limit, ¬Search.Passes c.oracle turning n) ∧
         limit + 1 < volume (radices turning) ∧ Search.Passes c.oracle turning (limit + 1)) ∧
      ((∀ w ∈ ws, w.resolved = true → (s.graph.var w.var).ty = w.current) →
        s'.graph = s.graph ∧ ∀ w ∈ ws, w.resolved = false → (s'.graph.var w.var).ty.isKnown = false) := by
  obtain ⟨start, ws, s₁, hwheels, happly⟩ := wheels_of_success h
  obtain ⟨hstands, hone, hvouched, hvars, hgraph⟩ := stands_of_searchWheels hwheels
  refine ⟨?_, start, ws, s₁, hwheels, fun hcalls v hv => ?_, exists_open_iff hone hstands, fun hold => ?_⟩
  · rw [search, after_bind, h]
    rfl
  · obtain ⟨w, hw, rfl⟩ := List.mem_map.mp (hvars ▸ hv)
    cases hres : w.resolved with
    | false => exact .inr ⟨w, hw, rfl, hres⟩
    | true =>
      -- the wheel shows a known type, which is written and kept
      have hknown : w.current.isKnown = true :=
        ((hvouched w hw).settled hres).elim (hpins w.var hv w.current) id
      obtain ⟨hkept, hwritten⟩ := steps_applyWheels_known (hgraph ▸ hcalls) ws s₁ (refl_of StaysKnown _)
      rw [happly] at hkept hwritten
      have hin : w.var.index < s'.graph.vars.size := by
        rw [hkept.graph.framed.vars, hgraph]
        exact (hvouched w hw).inTable
      exact .inl (hwritten true rfl w hw hres hknown hin)
  · rw [← hgraph] at hold
    obtain ⟨changes, hidle⟩ := applyWheels_idle (c := c) hold
    rw [happly] at hidle
    obtain ⟨-, rfl⟩ := Prod.mk.inj hidle
    exact ⟨hgraph, fun w hw hopen => hgraph ▸ ((hvouched w hw).unsettled hopen).2⟩

/-- A number is written to a register and handed to a method that declares a placeholder for it. -/
def placeholderParameter : MethodGraph where
  cls := "a.Main"
  name := "call"
  blocks := #[{ insns := [⟨0⟩, ⟨1⟩, ⟨2⟩] }]
  insns := #[{ opcode := .sget, result := some ⟨0⟩, block := some ⟨0⟩ },
    { opcode := .sget, result := some ⟨1⟩, block := some ⟨0⟩ },
    { opcode := .invoke, args := [⟨2⟩, ⟨3⟩], block := some ⟨0⟩,
      callee := some { cls := "a.C", name := "f", params := [some Ty.anything], resolved := true } }]
  sites := #[{ operand := .reg ⟨0⟩, declared := Ty.int, owner := some ⟨0⟩ },
    { operand := .reg ⟨1⟩, declared := Ty.raw "a.C", owner := some ⟨1⟩ },
    { operand := .reg ⟨1⟩, declared := Ty.anything, owner := some ⟨2⟩ },
    { operand := .reg ⟨0⟩, declared := Ty.anything, owner := some ⟨2⟩ }]
  vars := #[{ reg := 0, version := 0, assign := some ⟨0⟩, uses := [⟨3⟩] },
    { reg := 1, version := 0, assign := some ⟨1⟩, uses := [⟨2⟩] }]
  live := [⟨0⟩, ⟨1⟩]

/-- Two searches that report success and leave variables open, both without a warning. With a limit of
    one, the numbers that meet in a phi first agree in the combination behind the limit. And where a
    call declares a placeholder, trying the type of the receiver takes back that of the argument,
    although all wheels are settled. -/
theorem search_success_settles_not_all :
    (let c : Context := { hierarchy := Hierarchy.ofClasses [],
                          config := { limits := { searchIterations := 1 } } }
     let s : Session := { graph := initBounds openNumbersMeet }
     ∃ s' start ws s₁, searchTypes.after c s = (.ok true, s') ∧ search.after c s = (.ok false, s') ∧
       s'.journal = [] ∧ searchWheels.after c s = (.ok (some (start, ws)), s₁) ∧
       (∃ w ∈ ws, w.resolved = false) ∧
       Search.Passes c.oracle (frozen (settleIndependent c.oracle start)) 2) ∧
    (let c : Context := { hierarchy := Hierarchy.ofClasses [] }
     let s : Session := { graph := initBounds placeholderParameter }
     ∃ s' start ws s₁, searchTypes.after c s = (.ok true, s') ∧ search.after c s = (.ok false, s') ∧
       s'.journal = [] ∧ searchWheels.after c s = (.ok (some (start, ws)), s₁) ∧
       (∀ w ∈ ws, w.resolved = true) ∧ ¬SettledCalls c s.graph) := by
  constructor
  · intro c s
    have hpins : ∀ v ∈ s.graph.live, ∀ t, (s.graph.var v).pin = some t → t.isKnown = true := by
      decide +kernel
    have hr : (searchTypes.after c s).1 = .ok true := ok_of_toOption (by decide +kernel)
    have hopen : allKnown (searchTypes.after c s).2.graph = false := by decide +kernel
    have hjournal : (searchTypes.after c s).2.journal = [] := by decide +kernel
    have hwheel : ((searchWheels.after c s).1.toOption.bind id).all
        (fun r => r.2.any fun w => !w.resolved) = true := by decide +kernel
    have hlimit : c.limits.searchIterations = 1 := rfl
    -- what is computed is computed, and the run is not to be unfolded again
    clear_value c s
    have h : searchTypes.after c s = (.ok true, (searchTypes.after c s).2) := Prod.ext hr rfl
    obtain ⟨hsearch, start, ws, s₁, hwheels, -, hpassed, -⟩ := search_success_settles hpins h
    rw [hopen] at hsearch
    rw [hwheels] at hwheel
    have hsome : ∃ w ∈ ws, w.resolved = false := by simpa [Except.toOption] using hwheel
    have hnext := (hpassed.mp hsome).2.2
    rw [hlimit] at hnext
    exact ⟨_, start, ws, s₁, h, hsearch, hjournal, hwheels, hsome, hnext⟩
  · intro c s
    have hpins : ∀ v ∈ s.graph.live, ∀ t, (s.graph.var v).pin = some t → t.isKnown = true := by
      decide +kernel
    have hlive : ⟨0⟩ ∈ s.graph.live := by decide +kernel
    have hr : (searchTypes.after c s).1 = .ok true := ok_of_toOption (by decide +kernel)
    have hopen : allKnown (searchTypes.after c s).2.graph = false := by decide +kernel
    have hvar : ((searchTypes.after c s).2.graph.var ⟨0⟩).ty.isKnown = false := by decide +kernel
    have hjournal : (searchTypes.after c s).2.journal = [] := by decide +kernel
    have hwheel : ((searchWheels.after c s).1.toOption.bind id).all
        (fun r => r.2.all fun w => w.resolved) = true := by decide +kernel
    clear_value c s
    have h : searchTypes.after c s = (.ok true, (searchTypes.after c s).2) := Prod.ext hr rfl
    obtain ⟨hsearch, start, ws, s₁, hwheels, hknown, -, -⟩ := search_success_settles hpins h
    rw [hopen] at hsearch
    rw [hwheels] at hwheel
    have hall : ∀ w ∈ ws, w.resolved = true := by simpa [Except.toOption] using hwheel
    refine ⟨_, start, ws, s₁, h, hsearch, hjournal, hwheels, hall, fun hcalls => ?_⟩
    rcases hknown hcalls ⟨0⟩ hlive with hk | ⟨w, hw, -, hwopen⟩
    · exact Bool.false_ne_true (hvar.symm.trans hk)
    · exact Bool.false_ne_true (hwopen.symm.trans (hall w hw))

end TypeRecovery.Inference
