import TypeRecovery.Proofs.Ty.Relation
import TypeRecovery.Ty.Merge

/- What merging keeps of an open type. A placeholder has excluded kinds already, and the merge with
   another type should come out equal to it or narrower. So it does, with two exceptions: a type
   variable is taken over whatever the placeholder excludes, and an array with an open element that
   meets another open type is given up for the placeholder of all arrays, which is wider. The second
   one depends on the order: the fully open placeholder gives way to such an array when it comes first
   and not when it comes second. -/
namespace TypeRecovery.Ty

/-- The kinds of a placeholder are listed by rank, as `holeOf` lists them. -/
def isRanked : Ty → Bool
  | .hole ks => Kind.ranked ks == ks
  | _ => true

/-- The placeholder has excluded references, and the other type is a type variable. -/
def Overruled (t other : Ty) : Prop := other.isVar = true ∧ t.admits .object = false

/-- The open type is an array, and the other one is open too and not the same. -/
def Flattened (t other : Ty) : Prop := t.isArray = true ∧ other.isKnown = false ∧ t ≠ other

instance (t other : Ty) : Decidable (Overruled t other) := inferInstanceAs (Decidable (_ ∧ _))
instance (t other : Ty) : Decidable (Flattened t other) := inferInstanceAs (Decidable (_ ∧ _))

/-- The first type is the second one or more specific. -/
def Within (h : Option ClassOracle) (m t : Ty) : Prop :=
  compare h m t = .equal ∨ compare h m t = .narrow

section
variable {h : Option ClassOracle} {a b m t : Ty} {ks ls : List Kind} {k : Kind}

@[simp] theorem admits_hole : (hole ks).admits k = true ↔ k ∈ ks := List.contains_iff_mem

@[simp] theorem admits_array : (array t).admits k = true ↔ k = .array := by
  simp [admits, possibleKinds, kind?]

theorem admits_anything (k : Kind) : anything.admits k = true := admits_hole.mpr (Kind.mem_all k)

theorem exists_kind (hm : m.isKnown = true) : ∃ k, m.kind? = some k := by
  cases m with
  | hole => cases hm
  | _ => exact ⟨_, rfl⟩

theorem open_cases (ht : t.isKnown = false) :
    (∃ ks, t = .hole ks) ∨ ∃ x, t = .array x ∧ x.isKnown = false := by
  cases t with
  | hole ks => exact .inl ⟨ks, rfl⟩
  | array x => exact .inr ⟨x, rfl, ht⟩
  | _ => cases ht

/-! ## Comparing with an open type -/

theorem within_self (h : Option ClassOracle) (t : Ty) : Within h t t := .inl (compare_self h t)

/-- A known type is within a placeholder that admits its kind. -/
theorem within_of_admits (hm : m.isKnown = true) (ht : t.isKnown = false) (hk : m.kind? = some k)
    (hadmits : t.admits k = true) : Within h m t := by
  have hobject : (m.isObjectClass && t.isArray) = false := by
    cases t with
    | array x =>
      -- an array admits arrays only
      obtain rfl := admits_array.mp hadmits
      cases m <;> simp_all [kind?, isObjectClass]
    | _ => simp [isArray]
  refine .inr ((compare_known_open hm ht).trans ?_)
  simp [compareWithOpen, hobject, hk, hadmits]

/-- A type variable conflicts with an open type that excludes references. -/
theorem compare_overruled (ht : t.isKnown = false) (ho : Overruled t m) :
    compare h m t = .conflict := by
  obtain ⟨hvar, hadmits⟩ := ho
  cases m with
  | var n bs =>
    have hany : t ≠ anything := by
      rintro rfl
      simp [admits_anything] at hadmits
    have href : t ≠ anyReference := by
      rintro rfl
      exact absurd hadmits (by decide)
    rw [compare_known_open rfl ht]
    simp [compareWithOpen, hany, href, isObjectClass, kind?, hadmits]
  | _ => cases hvar

theorem within_var (hm : m.isVar = true) (ht : t.isKnown = false) (ho : ¬Overruled t m) :
    Within h m t := by
  have hobject : t.admits .object = true := by simpa [Overruled, hm] using ho
  cases m with
  | var n bs => exact within_of_admits rfl ht rfl hobject
  | _ => cases hm

theorem not_overruled (ht : m.isKnown = false) : ¬Overruled t m := by
  rcases open_cases ht with ⟨ks, rfl⟩ | ⟨x, rfl, -⟩ <;> simp [Overruled, isVar]

theorem ranked_congr (heq : ∀ k, k ∈ ks ↔ k ∈ ls) : Kind.ranked ks = Kind.ranked ls := by
  refine List.filter_congr fun k _ => ?_
  rw [Bool.eq_iff_iff, List.contains_iff_mem, List.contains_iff_mem]
  exact heq k

theorem ranked_ranked (ks : List Kind) : Kind.ranked (Kind.ranked ks) = Kind.ranked ks :=
  ranked_congr fun _ => Kind.mem_ranked

theorem compareKinds_of_subset (hks : Kind.ranked ks = ks) (hls : Kind.ranked ls = ls) (hne : ks ≠ ls)
    (hsub : ∀ k ∈ ks, k ∈ ls) : compareKinds ks ls = .narrow := by
  have hnot : ¬∀ k ∈ ls, k ∈ ks := by
    intro hsup
    refine hne ?_
    rw [← hks, ← hls]
    exact ranked_congr fun k => ⟨hsub k, hsup k⟩
  have hwithin : ks.all (ls.contains ·) = true := by simpa [List.all_eq_true] using hsub
  have haround : ls.all (ks.contains ·) = false := by
    rw [← Bool.not_eq_true]
    simpa [List.all_eq_true] using hnot
  rw [compareKinds, hwithin, haround]
  rfl

/-- Placeholders with fewer kinds are within those with more. -/
theorem within_of_subset (hls : Kind.ranked ls = ls) (hsub : ∀ k ∈ ks, k ∈ ls) :
    Within h (holeOf ks) (.hole ls) := by
  by_cases heq : Kind.ranked ks = ls
  · rw [holeOf, heq]
    exact within_self h _
  · refine .inr ((compare_holes heq).trans (compareKinds_of_subset (ranked_ranked ks) hls heq ?_))
    simpa using hsub

theorem within_anything (ht : t.isRanked = true) : Within h t anything := by
  cases hk : t.isKnown with
  | true =>
    obtain ⟨k, hkind⟩ := exists_kind hk
    exact within_of_admits hk rfl hkind (admits_anything k)
  | false =>
    rcases open_cases hk with ⟨ks, rfl⟩ | ⟨x, rfl, hx⟩
    · have hks : Kind.ranked ks = ks := beq_iff_eq.mp ht
      have hwithin : Within h (holeOf ks) (.hole Kind.all) :=
        within_of_subset (by decide) fun k _ => k.mem_all
      rwa [holeOf, hks] at hwithin
    · refine .inr ?_
      rw [compare.eq_def]
      simp [anything, isKnown, hx, compareArrayWith, Kind.all]

/-- The placeholder of all arrays is wider than an array with an open element. -/
theorem compare_anyArray (ht : t.isKnown = false) (harray : t.isArray = true) :
    compare h (holeOf [.array]) t = .wider := by
  cases t with
  | array x =>
    rw [compare.eq_def]
    simp [holeOf, isKnown, show x.isKnown = false from ht, compareArrayWith, Kind.ranked, Kind.all,
      Relation.invert]
  | _ => cases harray

/-! ## Intersecting -/

/-- What two open types have in common is one primitive or a placeholder of common kinds. -/
theorem intersect?_cases (hm : intersect? a b = some m) :
    (∃ k, m = .prim k ∧ a.admits k = true ∧ b.admits k = true) ∨
      ∃ ks, m = holeOf ks ∧ ∀ k ∈ ks, a.admits k = true ∧ b.admits k = true := by
  have hcommon : ∀ k ∈ a.possibleKinds.filter b.admits, a.admits k = true ∧ b.admits k = true :=
    fun k hk => ⟨List.contains_iff_mem.mpr (List.mem_filter.mp hk).1, (List.mem_filter.mp hk).2⟩
  unfold intersect? at hm
  generalize a.possibleKinds.filter b.admits = ks at hm hcommon
  split at hm
  · cases hm
  · cases hm
    exact .inr ⟨_, rfl, hcommon⟩
  · cases hm
    exact .inr ⟨_, rfl, hcommon⟩
  · cases hm
    exact .inl ⟨_, rfl, hcommon _ List.mem_cons_self⟩
  · cases hm
    exact .inr ⟨_, rfl, hcommon⟩

theorem within_of_intersect? (hm : intersect? a b = some m) (hls : Kind.ranked ls = ls)
    (ht : a = .hole ls ∨ b = .hole ls) : Within h m (.hole ls) := by
  have hmem : ∀ k, a.admits k = true ∧ b.admits k = true → k ∈ ls := by
    rintro k ⟨ha, hb⟩
    rcases ht with rfl | rfl
    · exact admits_hole.mp ha
    · exact admits_hole.mp hb
  rcases intersect?_cases hm with ⟨k, rfl, hk⟩ | ⟨ks, rfl, hks⟩
  · exact within_of_admits rfl rfl rfl (admits_hole.mpr (hmem k hk))
  · exact within_of_subset hls fun k hk => hmem k (hks k hk)

/-- With an open array, only the kind of arrays is in common. -/
theorem intersect?_array (hm : intersect? a b = some m) (ht : a.isArray = true ∨ b.isArray = true) :
    m = holeOf [.array] := by
  have hmem : ∀ k ∈ a.possibleKinds.filter b.admits, k = .array := by
    intro k hk
    obtain ⟨ha, hb⟩ := List.mem_filter.mp hk
    rcases ht with ht | ht
    · cases a with
      | array x => exact admits_array.mp (List.contains_iff_mem.mpr ha)
      | _ => cases ht
    · cases b with
      | array x => exact admits_array.mp hb
      | _ => cases ht
  unfold intersect? at hm
  generalize a.possibleKinds.filter b.admits = ks at hm hmem
  split at hm
  · cases hm
  · cases hmem _ List.mem_cons_self
  · exact (Option.some.inj hm).symm
  · next k _ hk => exact absurd (hmem k List.mem_cons_self) hk
  · next hnil _ _ _ =>
    cases hm
    obtain ⟨l, hl⟩ := List.exists_mem_of_ne_nil ks hnil
    refine congrArg Ty.hole (ranked_congr fun k => ?_)
    rw [List.mem_singleton]
    exact ⟨hmem k, fun hk => hk ▸ hmem l hl ▸ hl⟩

theorem intersect?_eq_none : intersect? a b = none ↔ ∀ k, a.admits k = true → ¬b.admits k = true := by
  have hnil : intersect? a b = none ↔ a.possibleKinds.filter b.admits = [] := by
    unfold intersect?
    split <;> simp_all
  rw [hnil, List.filter_eq_nil_iff]
  exact forall_congr' fun k => imp_congr_left List.contains_iff_mem.symm

/-! ## Merging in one direction -/

theorem mergeInto?_anything (h : Option ClassOracle) (b : Ty) : mergeInto? h anything b = some b := by
  rw [mergeInto?.eq_def, if_pos rfl]

theorem mergeInto?_open (ha : a.isKnown = false) (hne : a ≠ anything) :
    mergeInto? h a b =
      if b.isKnown then if b.kind?.any a.admits then some b else none else intersect? a b := by
  rw [mergeInto?.eq_def, if_neg hne]
  simp [ha]

/-- A known type merges into an open one that admits its kind, and stays as it is. -/
theorem mergeInto?_open_known (ha : a.isKnown = false) (hb : b.isKnown = true)
    (hm : mergeInto? h a b = some m) : m = b ∧ ∃ k, b.kind? = some k ∧ a.admits k = true := by
  obtain ⟨k, hk⟩ := exists_kind hb
  by_cases hany : a = anything
  · rw [hany, mergeInto?_anything] at hm
    exact ⟨(Option.some.inj hm).symm, k, hk, hany ▸ admits_anything k⟩
  · rw [mergeInto?_open ha hany, if_pos hb, hk] at hm
    split at hm
    · next hadmits => exact ⟨(Option.some.inj hm).symm, k, hk, hadmits⟩
    · cases hm

theorem mergeInto?_var (ha : a.isVar = true) : mergeInto? h a b = some a := by
  cases a with
  | var n bs => simp [mergeInto?.eq_def, anything, isKnown, isVar]
  | _ => cases ha

/-- Into a known type that is no variable, an open one merges only if both are arrays. -/
theorem mergeInto?_known_open (ha : a.isKnown = true) (hvar : a.isVar = false) (hb : b.isKnown = false)
    (hm : mergeInto? h a b = some m) :
    ∃ x y n, a = .array x ∧ b = .array y ∧ merge? h x y = some n ∧ m = .array n := by
  have hne : a ≠ anything := by
    rintro rfl
    cases ha
  rw [mergeInto?.eq_def, if_neg hne] at hm
  rcases open_cases hb with ⟨ls, rfl⟩ | ⟨y, rfl, hy⟩
  · cases a <;> simp_all [isVar, isReference, isObjectClass]
  · cases a with
    | array x =>
      have hprim : y.isPrim = false := by cases y <;> first | rfl | cases hy
      simp [ha, isVar, isReference, hprim] at hm
      obtain ⟨n, hn, rfl⟩ := hm
      exact ⟨x, y, n, rfl, rfl, hn, rfl⟩
    | _ => simp_all [isVar, isReference]

/-! ## Merging -/

theorem merge?_self (h : Option ClassOracle) (a : Ty) : merge? h a a = some a := by
  rw [merge?, if_pos rfl]

theorem merge?_of_ne (hne : a ≠ b) : merge? h a b = (mergeInto? h a b).or (mergeInto? h b a) := by
  rw [merge?, if_neg hne]
  cases mergeInto? h a b <;> rfl

theorem ne_of_isKnown (ha : a.isKnown = true) (hb : b.isKnown = false) : a ≠ b := by
  rintro rfl
  simp [ha] at hb

/-- A known type merges with an open one into a known type: into itself if it is a variable, and else
    into one of a kind that is admitted. -/
theorem merge?_known_open {a b m : Ty} (ha : a.isKnown = true) (hb : b.isKnown = false)
    (hm : merge? h a b = some m) : m.isKnown = true ∧ (a.isVar = true ∧ m = a ∨
      a.isVar = false ∧ ∃ k, m.kind? = some k ∧ b.admits k = true) := by
  rw [merge?_of_ne (ne_of_isKnown ha hb)] at hm
  cases hvar : a.isVar with
  | true =>
    rw [mergeInto?_var hvar] at hm
    obtain rfl : a = m := Option.some.inj hm
    exact ⟨ha, .inl ⟨rfl, rfl⟩⟩
  | false =>
    rcases Option.or_eq_some_iff.mp hm with hm | ⟨-, hm⟩
    · obtain ⟨x, y, n, rfl, rfl, hn, rfl⟩ := mergeInto?_known_open ha hvar hb hm
      have hx : x.isKnown = true := ha
      have hy : y.isKnown = false := hb
      have hknown : n.isKnown = true := (merge?_known_open hx hy hn).1
      exact ⟨hknown, .inr ⟨rfl, .array, rfl, admits_array.mpr rfl⟩⟩
    · obtain ⟨rfl, hk⟩ := mergeInto?_open_known hb ha hm
      exact ⟨ha, .inr ⟨rfl, hk⟩⟩
termination_by sizeOf a
decreasing_by simp_all

/-- An open type merges with a known one into that one, which is of an admitted kind or a variable. -/
theorem merge?_open_known (ha : a.isKnown = false) (hb : b.isKnown = true)
    (hm : merge? h a b = some m) :
    m = b ∧ (b.isVar = true ∨ ∃ k, b.kind? = some k ∧ a.admits k = true) := by
  rw [merge?_of_ne (ne_of_isKnown hb ha).symm] at hm
  rcases Option.or_eq_some_iff.mp hm with hm | ⟨hnone, hm⟩
  · obtain ⟨rfl, hk⟩ := mergeInto?_open_known ha hb hm
    exact ⟨rfl, .inr hk⟩
  · cases hvar : b.isVar with
    | true =>
      rw [mergeInto?_var hvar] at hm
      exact ⟨(Option.some.inj hm).symm, .inl rfl⟩
    | false =>
      -- an array would have merged in the first direction
      obtain ⟨x, y, n, rfl, rfl, -, -⟩ := mergeInto?_known_open hb hvar ha hm
      rw [mergeInto?_open ha (by simp [anything]), if_pos hb] at hnone
      simp [kind?] at hnone

/-- Two open types merge into what they have in common. Only the fully open placeholder gives way to
    the other one, and it must come first or have nothing to intersect with. -/
theorem merge?_open_open (ha : a.isKnown = false) (hb : b.isKnown = false) (hne : a ≠ b)
    (hm : merge? h a b = some m) :
    a = anything ∧ m = b ∨ a ≠ anything ∧ intersect? a b = some m ∨
      b = anything ∧ a = .hole [] ∧ m = a := by
  rw [merge?_of_ne hne] at hm
  by_cases hany : a = anything
  · rw [hany, mergeInto?_anything] at hm
    exact .inl ⟨hany, (Option.some.inj hm).symm⟩
  · rw [mergeInto?_open ha hany, if_neg (by simp [hb])] at hm
    rcases Option.or_eq_some_iff.mp hm with hm | ⟨hnone, hm⟩
    · exact .inr (.inl ⟨hany, hm⟩)
    · rw [intersect?_eq_none] at hnone
      by_cases hbany : b = anything
      · rw [hbany, mergeInto?_anything] at hm
        refine .inr (.inr ⟨hbany, ?_, (Option.some.inj hm).symm⟩)
        have hnever : ∀ k, ¬a.admits k = true := fun k hk => hnone k hk (hbany ▸ admits_anything k)
        rcases open_cases ha with ⟨ks, rfl⟩ | ⟨x, rfl, -⟩
        · exact congrArg _ (List.eq_nil_iff_forall_not_mem.mpr fun k hk => hnever k (admits_hole.mpr hk))
        · exact absurd (admits_array.mpr rfl) (hnever .array)
      · have hnone' : intersect? b a = none := intersect?_eq_none.mpr fun k hb ha => hnone k ha hb
        rw [mergeInto?_open hb hbany, if_neg (by simp [ha]), hnone'] at hm
        cases hm

/-! ## What is kept -/

theorem within_of_merge?_left (ha : a.isKnown = false) (hra : a.isRanked = true)
    (hrb : b.isRanked = true) (hm : merge? h a b = some m) :
    (Overruled a b → m = b ∧ compare h m a = .conflict) ∧
    (Flattened a b → m = holeOf [.array] ∧ compare h m a = .wider) ∧
    (¬Overruled a b → ¬Flattened a b → Within h m a) := by
  cases hb : b.isKnown with
  | true =>
    obtain ⟨rfl, hk⟩ := merge?_open_known ha hb hm
    refine ⟨fun ho => ⟨rfl, compare_overruled ha ho⟩, fun hf => ?_, fun ho _ => ?_⟩
    · simp [Flattened, hb] at hf
    · rcases hk with hvar | ⟨k, hk, hadmits⟩
      · exact within_var hvar ha ho
      · exact within_of_admits hb ha hk hadmits
  | false =>
    refine ⟨fun ho => absurd ho (not_overruled hb), fun hf => ?_, fun _ hf => ?_⟩
    · obtain ⟨harray, -, hne⟩ := hf
      rcases merge?_open_open ha hb hne hm with ⟨rfl, -⟩ | ⟨-, hm⟩ | ⟨-, rfl, -⟩
      · cases harray
      · obtain rfl := intersect?_array hm (.inl harray)
        exact ⟨rfl, compare_anyArray ha harray⟩
      · cases harray
    · by_cases hne : a = b
      · rw [hne, merge?_self] at hm
        rw [hne, ← Option.some.inj hm]
        exact within_self h b
      · rcases merge?_open_open ha hb hne hm with ⟨rfl, rfl⟩ | ⟨-, hm⟩ | ⟨-, -, rfl⟩
        · exact within_anything hrb
        · rcases open_cases ha with ⟨ks, rfl⟩ | ⟨x, rfl, -⟩
          · exact within_of_intersect? hm (beq_iff_eq.mp hra) (.inl rfl)
          · exact absurd ⟨rfl, hb, hne⟩ hf
        · exact within_self h _

theorem within_of_merge?_right (hb : b.isKnown = false) (hra : a.isRanked = true)
    (hrb : b.isRanked = true) (hm : merge? h a b = some m) :
    (Overruled b a → m = a ∧ compare h m b = .conflict) ∧
    (Flattened b a → a ≠ anything → m = holeOf [.array] ∧ compare h m b = .wider) ∧
    (¬Overruled b a → (Flattened b a → a = anything) → Within h m b) := by
  cases ha : a.isKnown with
  | true =>
    obtain ⟨hknown, hcases⟩ := merge?_known_open ha hb hm
    refine ⟨fun ho => ?_, fun hf => ?_, fun ho _ => ?_⟩
    · rcases hcases with ⟨-, rfl⟩ | ⟨hvar, -⟩
      · exact ⟨rfl, compare_overruled hb ho⟩
      · simp [Overruled, hvar] at ho
    · simp [Flattened, ha] at hf
    · rcases hcases with ⟨hvar, rfl⟩ | ⟨-, k, hk, hadmits⟩
      · exact within_var hvar hb ho
      · exact within_of_admits hknown hb hk hadmits
  | false =>
    refine ⟨fun ho => absurd ho (not_overruled ha), fun hf hany => ?_, fun _ hf => ?_⟩
    · obtain ⟨harray, -, hne⟩ := hf
      rcases merge?_open_open ha hb hne.symm hm with ⟨rfl, -⟩ | ⟨-, hm⟩ | ⟨rfl, -, -⟩
      · exact absurd rfl hany
      · obtain rfl := intersect?_array hm (.inr harray)
        exact ⟨rfl, compare_anyArray hb harray⟩
      · cases harray
    · by_cases hne : a = b
      · rw [hne, merge?_self] at hm
        rw [← Option.some.inj hm]
        exact within_self h b
      · rcases merge?_open_open ha hb hne hm with ⟨-, rfl⟩ | ⟨hany, hm⟩ | ⟨rfl, -, rfl⟩
        · exact within_self h _
        · rcases open_cases hb with ⟨ks, rfl⟩ | ⟨x, rfl, -⟩
          · exact within_of_intersect? hm (beq_iff_eq.mp hrb) (.inr rfl)
          · exact absurd (hf ⟨rfl, ha, Ne.symm hne⟩) hany
        · exact within_anything hra

end

/-- What a merge makes of an open type, whichever side it stands on. A type variable takes the place of
    an open type that excludes references, and conflicts with it. An array with an open element becomes
    the wider placeholder of all arrays if it meets another open type, unless that is the fully open
    placeholder and comes first. In all other cases the merge is the open type or narrower. -/
theorem merge_keeps_open_types {h : Option ClassOracle} {a b m : Ty} (hra : a.isRanked = true)
    (hrb : b.isRanked = true) (hm : merge? h a b = some m) :
    (a.isKnown = false →
      (Overruled a b → m = b ∧ compare h m a = .conflict) ∧
      (Flattened a b → m = holeOf [.array] ∧ compare h m a = .wider) ∧
      (¬Overruled a b → ¬Flattened a b → compare h m a = .equal ∨ compare h m a = .narrow)) ∧
    (b.isKnown = false →
      (Overruled b a → m = a ∧ compare h m b = .conflict) ∧
      (Flattened b a → a ≠ anything → m = holeOf [.array] ∧ compare h m b = .wider) ∧
      (¬Overruled b a → (Flattened b a → a = anything) →
        compare h m b = .equal ∨ compare h m b = .narrow)) :=
  ⟨fun ha => within_of_merge?_left ha hra hrb hm, fun hb => within_of_merge?_right hb hra hrb hm⟩

/-- The placeholder of `int` and `float` meets a type variable, and an array of anything meets the fully
    open placeholder, in both orders. -/
theorem merge_keeps_open_types_at_exceptions :
    let number := hole [.int, .float]
    let param := var "T" []
    let arrays := array anything
    (merge? none number param = some param ∧ compare none param number = .conflict) ∧
      (merge? none arrays anything = some (holeOf [.array]) ∧
        compare none (holeOf [.array]) arrays = .wider) ∧
      merge? none anything arrays = some arrays := by
  intro number param arrays
  have hparam : merge? none number param = some param := by
    rw [merge?_of_ne (by decide), mergeInto?_open rfl (by decide), mergeInto?_var rfl]
    rfl
  have harrays : merge? none arrays anything = some (holeOf [.array]) := by
    rw [merge?_of_ne (by decide), mergeInto?_open rfl (by decide)]
    rfl
  have hanything : merge? none anything arrays = some arrays := by
    rw [merge?_of_ne (by decide), mergeInto?_anything]
    rfl
  have hover := ((merge_keeps_open_types rfl rfl hparam).1 rfl).1 (by decide)
  have hflat := ((merge_keeps_open_types rfl rfl harrays).1 rfl).2.1 (by decide)
  exact ⟨⟨hparam, hover.2⟩, ⟨harrays, hflat.2⟩, hanything⟩

end TypeRecovery.Ty
