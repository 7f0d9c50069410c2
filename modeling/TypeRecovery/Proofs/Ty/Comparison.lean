import TypeRecovery.Proofs.Ty.Merging

/- Two things that the order of the rules decides when types are compared. Arrays compare as their
   elements only where the rule for two arrays is reached: a known type is asked about an open one
   before it is asked whether they are arrays, and then an array is an array, whatever its elements. And
   of the rules that call two types equal only the first asks whether they are the same. The others go
   by parts, and come to the same answer where no class is enclosed in another and a name of a type
   variable stands for one list of bounds. -/
namespace TypeRecovery.Ty

section
variable {h : Option ClassOracle} {a b : Ty} {k : Kind}

/-! ## Arrays -/

theorem admits_anyReference (hk : a.kind? = some k) (ha : (a.isReference || a.isArray) = true) :
    anyReference.admits k = true := by
  cases a with
  | prim => cases ha
  | hole => cases hk
  | _ => cases hk; rfl

/-- The universal class is no array, which is all that an array admits. -/
theorem not_object_of_admits (hk : a.kind? = some k) (hadmits : b.admits k = true) :
    (a.isObjectClass && b.isArray) = false := by
  cases b with
  | array y =>
    obtain rfl := admits_array.mp hadmits
    cases a with
    | cls => cases hk
    | _ => rfl
  | _ => exact Bool.and_false _

/-- A known type against an open one. Whether its kind is admitted comes before all else. -/
theorem compareWithOpen_eq (hk : a.kind? = some k) : compareWithOpen a b =
    if b.admits k then .narrow
    else if a.isObjectClass && b.isArray then .wider
    else .conflict := by
  cases hadmits : b.admits k with
  | true => simp [compareWithOpen, not_object_of_admits hk hadmits, hk, hadmits]
  | false =>
    have hany : b ≠ anything := by
      rintro rfl
      simp [admits_anything] at hadmits
    have href : ¬(decide (b = anyReference) && (a.isReference || a.isArray)) = true := by
      intro hboth
      obtain ⟨hb, ha⟩ := Bool.and_eq_true_iff.mp hboth
      rw [of_decide_eq_true hb, admits_anyReference hk ha] at hadmits
      cases hadmits
    rw [compareWithOpen, if_neg hany, if_neg href, hk, Option.any_some, hadmits]
    rfl

/-- One of the two types is known, and the other one admits its kind. -/
def Admitted (a b : Ty) : Prop :=
  a.isKnown = true ∧ a.kind?.any b.admits = true ∨ b.isKnown = true ∧ b.kind?.any a.admits = true

theorem Admitted.symm (hab : Admitted a b) : Admitted b a := Or.symm hab

theorem compare_eq_narrow_iff (ha : a.isKnown = true) (hb : b.isKnown = false) :
    compare h a b = .narrow ↔ Admitted a b := by
  obtain ⟨k, hk⟩ := exists_kind ha
  rw [compare_known_open ha hb, compareWithOpen_eq hk]
  simp only [Admitted, ha, hb, hk, Option.any_some, true_and, Bool.false_eq_true, false_and, or_false]
  cases b.admits k with
  | true => simp
  | false => cases a.isObjectClass && b.isArray <;> simp

/-- A known type that the open one does not admit conflicts with it, but the universal class is wider than
    an open array. -/
theorem compare_known_open_of_not_admitted (ha : a.isKnown = true) (hb : b.isKnown = false)
    (hnot : ¬Admitted a b) :
    compare h a b = if a.isObjectClass && b.isArray then .wider else .conflict := by
  obtain ⟨k, hk⟩ := exists_kind ha
  have hadmits : ¬b.admits k = true := by
    intro hadmits
    apply hnot
    exact .inl ⟨ha, by rw [hk, Option.any_some, hadmits]⟩
  rw [compare_known_open ha hb, compareWithOpen_eq hk, if_neg hadmits]

/-- Between a known and an open type, the other order gives the inverse relation. -/
theorem compare_open_known_invert (ha : a.isKnown = false) (hb : b.isKnown = true) :
    compare h a b = (compare h b a).invert := by
  rw [compare_open_known ha hb, compare_known_open hb ha]

theorem compare_eq_wider_iff (ha : a.isKnown = false) (hb : b.isKnown = true) :
    compare h a b = .wider ↔ Admitted a b := by
  have hinvert : (compare h b a).invert = .wider ↔ compare h b a = .narrow := by
    cases compare h b a <;> simp [Relation.invert]
  rw [compare_open_known_invert ha hb, hinvert, compare_eq_narrow_iff hb ha]
  exact ⟨Admitted.symm, Admitted.symm⟩

theorem isKnown_arrayOf (t : Ty) (n : Nat) : (arrayOf t n).isKnown = t.isKnown := by
  induction n with
  | zero => rfl
  | succ n ih => exact ih

theorem compare_arrayOf (hk : a.isKnown = b.isKnown) (n : Nat) :
    compare h (arrayOf a n) (arrayOf b n) = compare h a b := by
  induction n with
  | zero => rfl
  | succ n ih =>
    have hk' : (arrayOf a n).isKnown = (arrayOf b n).isKnown := by
      rw [isKnown_arrayOf, isKnown_arrayOf, hk]
    exact (compare_arrays hk').trans ih

/-- An array admits every array. -/
theorem admitted_arrayOf (hk : a.isKnown = true ∨ b.isKnown = true) (n : Nat) :
    Admitted (arrayOf a (n + 1)) (arrayOf b (n + 1)) := by
  rw [← isKnown_arrayOf a (n + 1), ← isKnown_arrayOf b (n + 1)] at hk
  exact hk.imp (fun ha => ⟨ha, rfl⟩) fun hb => ⟨hb, rfl⟩

theorem compare_arrayOf_known_open (ha : a.isKnown = true) (hb : b.isKnown = false) (n : Nat) :
    compare h (arrayOf a (n + 1)) (arrayOf b (n + 1)) = .narrow := by
  have hadmitted := admitted_arrayOf (.inl ha) n (b := b)
  rw [← isKnown_arrayOf a (n + 1)] at ha
  rw [← isKnown_arrayOf b (n + 1)] at hb
  exact (compare_eq_narrow_iff ha hb).mpr hadmitted

theorem compare_arrayOf_open_known (ha : a.isKnown = false) (hb : b.isKnown = true) (n : Nat) :
    compare h (arrayOf a (n + 1)) (arrayOf b (n + 1)) = .wider := by
  have hadmitted := admitted_arrayOf (.inr hb) n (a := a)
  rw [← isKnown_arrayOf a (n + 1)] at ha
  rw [← isKnown_arrayOf b (n + 1)] at hb
  exact (compare_eq_wider_iff ha hb).mpr hadmitted

end

/-- Arrays of any depth compare as their elements if both elements are known or neither is. Otherwise
    the array with the known element is the narrower one, which is what comparing the elements says
    exactly if the open element admits the kind of the known one. If it does not, the elements conflict,
    but for the universal class against an open array: there the known element is the wider one. -/
theorem compare_arrays_by_elements (h : Option ClassOracle) (a b : Ty) (n : Nat) :
    compare h (arrayOf a (n + 1)) (arrayOf b (n + 1)) =
      (if a.isKnown = b.isKnown then compare h a b
      else if a.isKnown then .narrow
      else .wider) ∧
    (compare h (arrayOf a (n + 1)) (arrayOf b (n + 1)) = compare h a b ↔
      a.isKnown = b.isKnown ∨ Admitted a b) ∧
    (¬(a.isKnown = b.isKnown ∨ Admitted a b) → compare h a b =
      if a.isKnown then (if a.isObjectClass && b.isArray then .wider else .conflict)
      else if b.isObjectClass && a.isArray then .narrow else .conflict) := by
  cases ha : a.isKnown <;> cases hb : b.isKnown
  case false.false | true.true =>
    have hsame := compare_arrayOf (h := h) (ha.trans hb.symm) (n + 1)
    exact ⟨hsame, ⟨fun _ => .inl rfl, fun _ => hsame⟩, fun hdiffer => absurd (.inl rfl) hdiffer⟩
  case true.false =>
    have hnarrow := compare_arrayOf_known_open (h := h) ha hb n
    rw [hnarrow, eq_comm (b := compare h a b), compare_eq_narrow_iff ha hb]
    refine ⟨rfl, by simp, ?_⟩
    intro hdiffer
    rw [if_pos rfl]
    exact compare_known_open_of_not_admitted ha hb fun hadmitted => hdiffer (.inr hadmitted)
  case false.true =>
    have hwider := compare_arrayOf_open_known (h := h) ha hb n
    rw [hwider, eq_comm (b := compare h a b), compare_eq_wider_iff ha hb]
    refine ⟨rfl, by simp, ?_⟩
    intro hdiffer
    have hback := compare_known_open_of_not_admitted (h := h) hb ha fun hadmitted =>
      hdiffer (.inr hadmitted.symm)
    rw [compare_open_known_invert ha hb, hback, if_neg Bool.false_ne_true]
    cases b.isObjectClass && a.isArray <;> rfl

/-- A whole number against a placeholder of wide numbers: they conflict, and as elements of arrays they
    do not. -/
theorem array_hides_conflict :
    compare none (.array int) (.array (holeOf [.long, .double])) = .narrow ∧
      compare none int (holeOf [.long, .double]) = .conflict := by
  decide +kernel

/-! ## Equal types -/

mutual
/-- No class in the type is enclosed in another. The bounds of a variable are not looked into. -/
def isTopLevel : Ty → Bool
  | .prim _ | .hole _ | .var .. => true
  | .array t => t.isTopLevel
  | .wildcard _ inner => topLevelOption inner
  | .cls _ args outer => outer.isNone && topLevelList args
def topLevelList : List Ty → Bool
  | [] => true
  | t :: ts => t.isTopLevel && topLevelList ts
def topLevelOption : Option Ty → Bool
  | none => true
  | some t => t.isTopLevel
end

theorem topLevelList_iff {ts : List Ty} :
    topLevelList ts = true ↔ ∀ t ∈ ts, t.isTopLevel = true := by
  induction ts with
  | nil => simp [topLevelList]
  | cons t ts ih => simp [topLevelList, ih]

theorem typeVarsList_eq (ts : List Ty) : typeVarsList ts = ts.flatMap typeVars := by
  induction ts with
  | nil => rfl
  | cons t ts ih => rw [typeVarsList, ih, List.flatMap_cons]

/-- Variables of one name that two types mention have the same bounds. -/
def AgreeOnVars (a b : Ty) : Prop :=
  ∀ u ∈ a.typeVars, ∀ v ∈ b.typeVars, u.name = v.name → u.bounds = v.bounds

theorem AgreeOnVars.of_args {n m : String} {as bs : List Ty} {o p : Option Ty}
    (hvars : AgreeOnVars (.cls n as o) (.cls m bs p)) {x y : Ty} (hx : x ∈ as) (hy : y ∈ bs) :
    AgreeOnVars x y := by
  have hmem {n : String} {ts : List Ty} {o : Option Ty} {t : Ty} (ht : t ∈ ts) {u : TypeVar}
      (hu : u ∈ t.typeVars) : u ∈ (cls n ts o).typeVars := by
    rw [typeVars, typeVarsList_eq]
    exact List.mem_append_left _ (List.mem_flatMap.mpr ⟨t, ht, hu⟩)
  exact fun u hu v hv => hvars u (hmem hx hu) v (hmem hy hv)

section
variable {h : Option ClassOracle} {a b : Ty}

/-! Most rules never come to equality. -/

theorem compareWithOpen_ne_equal (a b : Ty) : compareWithOpen a b ≠ .equal := by
  unfold compareWithOpen
  grind

theorem compareArrayWith_ne_equal (t : Ty) : compareArrayWith t ≠ .equal := by
  unfold compareArrayWith
  grind

theorem compareKinds_ne_equal (ks ls : List Kind) : compareKinds ks ls ≠ .equal := by
  unfold compareKinds
  grind

theorem comparePrims_ne_equal (k l : Kind) : comparePrims k l ≠ .equal := by
  unfold comparePrims
  grind

theorem compareClasses_ne_equal (h : Option ClassOracle) (a b : Ty) :
    compareClasses h a b ≠ .equal := by
  unfold compareClasses
  grind

theorem invert_eq_equal {r : Relation} : r.invert = .equal ↔ r = .equal := by
  cases r <;> simp [Relation.invert]

/-- What comparison goes by when it calls two different types equal: their parts. -/
inductive EqualParts (h : Option ClassOracle) : Ty → Ty → Prop where
  | elements {x y : Ty} : compare h x y = .equal → EqualParts h (.array x) (.array y)
  | inner {v : Variance} {x y : Ty} :
      compare h x y = .equal → EqualParts h (.wildcard v (some x)) (.wildcard v (some y))
  | bounds (n : String) (bs cs : List Ty) : EqualParts h (.var n bs) (.var n cs)
  | args {n : String} {as bs : List Ty} {o p : Option Ty} : as.length = bs.length →
      compareArgs h as bs = .equal → EqualParts h (.cls n as o) (.cls n bs p)
  | outer (n : String) (as bs : List Ty) {o p : Option Ty} : o.isSome = true ∨ p.isSome = true →
      EqualParts h (.cls n as o) (.cls n bs p)

theorem equalParts_classes {n m : String} {as bs : List Ty} {o p : Option Ty}
    (hne : cls n as o ≠ cls m bs p) (heq : compare h (.cls n as o) (.cls m bs p) = .equal) :
    EqualParts h (.cls n as o) (.cls m bs p) := by
  rw [compare_classes hne] at heq
  by_cases hn : n = m
  · subst hn
    cases o with
    | some => exact .outer n as bs (.inl rfl)
    | none =>
      cases p with
      | some => exact .outer n as bs (.inr rfl)
      | none =>
        -- here a class is generic if it has arguments itself, so both have some or that decides
        cases as with
        | nil =>
          cases bs with
          | nil => exact absurd rfl hne
          | cons y ys => simp [isGeneric] at heq
        | cons x xs =>
          cases bs with
          | nil => simp [isGeneric] at heq
          | cons y ys =>
            simp only [isGeneric, ne_eq, not_true_eq_false, if_false, Bool.not_true, Bool.and_false,
              Bool.false_and, Bool.false_eq_true, List.isEmpty_cons, Bool.or_self] at heq
            split at heq
            · next hlen => exact .args hlen heq
            · cases heq
  · rw [if_pos hn] at heq
    exact absurd heq (compareClasses_ne_equal h _ _)

/-- The cases are the rules of comparison, in their order. -/
theorem equalParts_of_compare (hne : a ≠ b) (heq : compare h a b = .equal) : EqualParts h a b := by
  have hrule := heq
  rw [compare.eq_def, if_neg hne] at hrule
  split at hrule
  · exact absurd hrule (compareWithOpen_ne_equal a b)
  split at hrule
  · exact absurd (invert_eq_equal.mp hrule) (compareWithOpen_ne_equal b a)
  split at hrule
  · exact .elements hrule
  · exact absurd hrule (compareArrayWith_ne_equal _)
  · exact absurd (invert_eq_equal.mp hrule) (compareArrayWith_ne_equal _)
  · exact absurd hrule (compareKinds_ne_equal _ _)
  · exact absurd hrule (comparePrims_ne_equal _ _)
  · cases hrule
  · cases hrule
  · cases hrule
  · cases hrule
  · -- two variables
    split at hrule
    · cases hrule
    · next hn =>
      rw [Classical.not_not.mp hn]
      exact .bounds _ _ _
  · cases hrule
  · cases hrule
  · split at hrule <;> cases hrule
  · split at hrule <;> cases hrule
  · cases hrule
  · cases hrule
  · -- two bounded wildcards
    split at hrule
    · next hv =>
      rw [hv]
      exact .inner hrule
    · cases hrule
  · cases hrule
  · exact equalParts_classes hne heq
  · exact absurd hrule (compareClasses_ne_equal _ _ _)
  · exact absurd hrule (compareClasses_ne_equal _ _ _)

/-- Arguments that are equal in pairs are equal as lists. -/
theorem eq_of_compareArgs {as bs : List Ty} (hlen : as.length = bs.length)
    (hpair : ∀ x ∈ as, ∀ y ∈ bs, compare h x y = .equal → x = y)
    (heq : compareArgs h as bs = .equal) : as = bs := by
  induction as generalizing bs with
  | nil => exact (List.length_eq_zero_iff.mp hlen.symm).symm
  | cons x xs ih =>
    cases bs with
    | nil => cases hlen
    | cons y ys =>
      rw [compareArgs] at heq
      split at heq
      · next hxy =>
        have hhead : x = y := hpair x List.mem_cons_self y List.mem_cons_self hxy
        have hrest : xs = ys := ih (Nat.succ.inj hlen)
          (fun u hu w hw => hpair u (List.mem_cons_of_mem x hu) w (List.mem_cons_of_mem y hw)) heq
        rw [hhead, hrest]
      · next hnot => exact absurd heq hnot

end

theorem eq_of_compare {h : Option ClassOracle} (a b : Ty) (ha : a.isTopLevel = true)
    (hb : b.isTopLevel = true) (hvars : AgreeOnVars a b) (heq : compare h a b = .equal) : a = b := by
  by_cases hne : a = b
  · exact hne
  cases equalParts_of_compare hne heq with
  | @elements x y hxy => exact congrArg array (eq_of_compare x y ha hb hvars hxy)
  | @inner v x y hxy =>
    have hsame : x = y := eq_of_compare x y ha hb hvars hxy
    rw [hsame]
  | bounds n bs cs =>
    have hsame : bs = cs := hvars ⟨n, bs⟩ (by simp [typeVars]) ⟨n, cs⟩ (by simp [typeVars]) rfl
    rw [hsame]
  | @args n as bs o p hlen hargs =>
    simp only [isTopLevel, Bool.and_eq_true, Option.isNone_iff_eq_none, topLevelList_iff] at ha hb
    have hsame : as = bs := by
      refine eq_of_compareArgs hlen (fun x hx y hy hxy => ?_) hargs
      have hxs := List.sizeOf_lt_of_mem hx
      have hys := List.sizeOf_lt_of_mem hy
      exact eq_of_compare x y (ha.2 x hx) (hb.2 y hy) (hvars.of_args hx hy) hxy
    rw [ha.1, hb.1, hsame]
  | outer n as bs houter =>
    simp only [isTopLevel, Bool.and_eq_true, Option.isNone_iff_eq_none] at ha hb
    rw [ha.1, hb.1] at houter
    simp at houter
termination_by sizeOf a + sizeOf b
decreasing_by
  all_goals subst_vars
  all_goals simp only [array.sizeOf_spec, wildcard.sizeOf_spec, cls.sizeOf_spec,
    Option.some.sizeOf_spec]
  all_goals omega

/-- Comparison calls types equal exactly if they are the same, provided that no class is enclosed in
    another and that variables of one name have the same bounds. Nothing is asked of wildcards. -/
theorem compare_eq_equal_iff {h : Option ClassOracle} {a b : Ty} (ha : a.isTopLevel = true)
    (hb : b.isTopLevel = true) (hvars : AgreeOnVars a b) : compare h a b = .equal ↔ a = b :=
  ⟨eq_of_compare a b ha hb hvars, fun hab => hab ▸ compare_self h a⟩

/-- Without the conditions, an inner class passes for the class of that name, and a variable with a bound
    that says nothing for one without bounds. -/
example : compare none (raw "a.Part") (.cls "a.Part" [] (some (raw "a.Whole"))) = .equal ∧
    compare none (.var "T" [object]) (.var "T" []) = .equal := by decide +kernel

/-- Maps from a type variable to arrays of wildcards, bounded from above and from below. -/
theorem compare_eq_equal_iff_at_map :
    let map (v : Variance) : Ty :=
      .cls "a.Map" [.var "K" [object], .array (.wildcard v (some (.var "K" [object])))] none
    (map .upper).isTopLevel = true ∧ (map .lower).isTopLevel = true ∧
      AgreeOnVars (map .upper) (map .lower) ∧ compare none (map .upper) (map .lower) ≠ .equal ∧
      compare none (map .upper) (map .upper) = .equal := by
  intro map
  have hupper : (map .upper).isTopLevel = true := by decide +kernel
  have hlower : (map .lower).isTopLevel = true := by decide +kernel
  have hvars (v w : Variance) : AgreeOnVars (map v) (map w) := by
    intro x hx y hy _
    have hone (v : Variance) : (map v).typeVars = [⟨"K", [object]⟩, ⟨"K", [object]⟩] := rfl
    rw [hone] at hx hy
    simp only [List.mem_cons, List.not_mem_nil, or_false, or_self] at hx hy
    rw [hx, hy]
  have hne : map .upper ≠ map .lower := by decide +kernel
  refine ⟨hupper, hlower, hvars .upper .lower, fun heq => hne ?_, ?_⟩
  · exact (compare_eq_equal_iff hupper hlower (hvars .upper .lower)).mp heq
  · exact (compare_eq_equal_iff hupper hupper (hvars .upper .upper)).mpr rfl

end TypeRecovery.Ty
