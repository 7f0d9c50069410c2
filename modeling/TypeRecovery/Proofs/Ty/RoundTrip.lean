import TypeRecovery.Proofs.Text.Split
import TypeRecovery.Ty.Reader

/- Reading what was printed. The printer knows nothing of its surroundings, the reader does: a bare
   `?` is a placeholder at top level and a wildcard inside type arguments, a name is looked up before
   it is taken for a class, and brackets after a bound belong to the bound. `Readable` says which types
   survive this; the proof follows the type and keeps track of what may stand behind it. -/
namespace TypeRecovery.Ty

open TypeRecovery.Text

/-! ## The types in question -/

/-- A non-empty word of name characters. -/
def IsWord (name : String) : Prop := name.toList ≠ [] ∧ ∀ c ∈ name.toList, isNameChar c = true

instance (name : String) : Decidable (IsWord name) :=
  decidable_of_iff (name.toList ≠ [] ∧ name.toList.all isNameChar = true)
    (and_congr_right fun _ => List.all_eq_true)

/-- A word without a meaning of its own: no alias of a placeholder and no name of a primitive. -/
structure IsFree (name : String) : Prop where
  word : IsWord name
  notAlias : alias? name = none
  kind : ∀ k : Kind, k ≠ .object → k ≠ .array → name ≠ k.name

/-- A wildcard with a bound. -/
def isBounded : Ty → Bool
  | .wildcard _ (some _) => true
  | _ => false

/-- The types whose text says what they are, at top level or `nested` in type arguments and wildcard
    bounds. A variable is the one that its name means in the scope, where a later declaration hides
    an earlier one. -/
inductive Readable (scope : List TypeVar) : Bool → Ty → Prop where
  | prim {nested k} (hobject : k ≠ .object) (harray : k ≠ .array) : Readable scope nested (.prim k)
  | cls {nested name args} (hname : IsFree name) (hscope : ∀ v ∈ scope, v.name ≠ name)
      (hargs : ∀ t ∈ args, Readable scope true t) : Readable scope nested (.cls name args none)
  | var {nested name before after} (hname : IsFree name) (hscope : scope = before ++ ⟨name, []⟩ :: after)
      (hlast : ∀ v ∈ after, v.name ≠ name) : Readable scope nested (.var name [])
  | free : Readable scope true (.wildcard .free none)
  | upper {nested t} (ht : Readable scope true t) : Readable scope nested (.wildcard .upper (some t))
  | lower {nested t} (ht : Readable scope true t) : Readable scope nested (.wildcard .lower (some t))
  | array {nested t} (ht : Readable scope nested t) (hbound : t.isBounded = false) :
      Readable scope nested (.array t)
  | hole {nested ks} (hne : ks ≠ []) (hrank : ks.Pairwise fun k l => k.rank < l.rank)
      (hopen : nested = true → ks ≠ Kind.all) : Readable scope nested (.hole ks)

/-! ## Tokens -/

theorem after?_eq_some {c : Char} {tok s r : List Char} (h : skipBlanks s = c :: tok ++ r) :
    after? c tok s = some r := by
  have hp : (c :: tok).isPrefixOf (skipBlanks s) = true := by
    rw [List.isPrefixOf_iff_prefix, h]
    exact List.prefix_append _ _
  rw [after?, if_pos hp, h]
  simp

theorem after?_eq_none {c : Char} {tok s : List Char} (h : ∀ r, skipBlanks s ≠ c :: tok ++ r) :
    after? c tok s = none := by
  refine if_neg fun hp => ?_
  obtain ⟨r, hr⟩ := List.isPrefixOf_iff_prefix.mp hp
  exact h r hr.symm

theorem skipBlanks_cons {c : Char} (s : List Char) (h : c ≠ ' ') : skipBlanks (c :: s) = c :: s := by
  simp [skipBlanks, h]

/-- What can stand behind a type: the end of the text, or what closes an argument. -/
def Closes (rest : List Char) : Prop := rest = [] ∨ ∃ c r, rest = c :: r ∧ (c = ',' ∨ c = '>')

/-- What can stand behind a type that further brackets can turn into an array. -/
def Follows (t : Ty) (rest : List Char) : Prop :=
  Closes rest ∨ t.isBounded = false ∧ ∃ r, rest = '[' :: ']' :: r

theorem word_eq {name rest s : List Char} (hs : skipBlanks s = name ++ rest)
    (hname : ∀ c ∈ name, isNameChar c = true) (hrest : ∀ c r, rest = c :: r → isNameChar c = false) :
    word s = (name, rest) := by
  have hstop : rest.takeWhile isNameChar = [] ∧ rest.dropWhile isNameChar = rest := by
    cases rest with
    | nil => exact ⟨rfl, rfl⟩
    | cons c r => simp [hrest c r rfl]
  rw [word, hs, List.takeWhile_append_of_pos hname, List.dropWhile_append_of_pos hname, hstop.1,
    hstop.2, List.append_nil]

theorem after?_question_eq_none {name rest s : List Char} (hs : skipBlanks s = name ++ rest)
    (hne : name ≠ []) (hname : ∀ c ∈ name, isNameChar c = true) : after? '?' [] s = none := by
  refine after?_eq_none fun r hr => ?_
  obtain ⟨c, cs, rfl⟩ := List.exists_cons_of_ne_nil hne
  obtain ⟨rfl, -⟩ := List.cons.inj (hs.symm.trans hr)
  exact absurd (hname '?' List.mem_cons_self) (by decide)

/-! ## One step of the reader -/

/-- The reader gets through with this result and this rest. -/
def Gives {α : Type} {s : List Char} (x : Except Stop (α × Shorter s)) (a : α) (rest : List Char) :
    Prop :=
  ∃ h, x = .ok (a, ⟨rest, h⟩)

/-- `readArrays` without its bound on the rest. -/
def arrays (t : Ty) (s : List Char) : Ty × List Char := ((readArrays t s).1, (readArrays t s).2.1)

theorem arrays_brackets (t : Ty) (r : List Char) : arrays t ('[' :: ']' :: r) = arrays (.array t) r := by
  have h : after? '[' [']'] ('[' :: ']' :: r) = some r := after?_eq_some (skipBlanks_cons _ (by decide))
  unfold arrays
  rw [readArrays]
  split
  · next hnone => simp [h] at hnone
  · next r' hsome =>
    obtain rfl : r = r' := Option.some.inj (h.symm.trans hsome)
    rfl

theorem arrays_of_closes (t : Ty) {rest : List Char} (hrest : Closes rest) :
    arrays t rest = (t, rest) := by
  have h : after? '[' [']'] rest = none := by
    refine after?_eq_none fun r hr => ?_
    rcases hrest with rfl | ⟨c, r', rfl, rfl | rfl⟩
    · simp [skipBlanks] at hr
    · simp [skipBlanks] at hr
    · simp [skipBlanks] at hr
  unfold arrays
  rw [readArrays]
  split
  · rfl
  · next r' hsome => simp [h] at hsome

section Steps
variable {scope : List TypeVar} {nested : Bool} {s r rest : List Char} {t : Ty}

theorem gives_readTy {b : Ty} (hb : Gives (readBase scope nested s) b r) (ha : arrays b r = (t, rest)) :
    Gives (readTy scope nested s) t rest := by
  obtain ⟨hr, hb⟩ := hb
  obtain ⟨rfl, rfl⟩ := Prod.mk.inj ha
  refine ⟨Nat.lt_of_le_of_lt (readArrays b r).2.2 hr, ?_⟩
  rw [readTy, hb]
  rfl

theorem gives_upper (hs : skipBlanks s = '?' :: r) {r₁ : List Char}
    (he : after? 'e' "xtends".toList r = some r₁) (ht : Gives (readTy scope true r₁) t rest) :
    Gives (readBase scope nested s) (.wildcard .upper (some t)) rest := by
  obtain ⟨hlt, ht⟩ := ht
  have hq : after? '?' [] s = some r := after?_eq_some hs
  refine ⟨Nat.lt_trans hlt (Nat.lt_trans (length_after? he) (length_after? hq)), ?_⟩
  rw [readBase]
  split
  · next r' hq' =>
    obtain rfl : r = r' := Option.some.inj (hq.symm.trans hq')
    split
    · next r₂ he' =>
      obtain rfl : r₁ = r₂ := Option.some.inj (he.symm.trans he')
      rw [ht]
      rfl
    · next he' => exact absurd (he.symm.trans he') (by simp)
  · next hq' => exact absurd (hq.symm.trans hq') (by simp)

theorem gives_lower (hs : skipBlanks s = '?' :: r) {r₁ : List Char}
    (he : after? 'e' "xtends".toList r = none) (hl : after? 's' "uper".toList r = some r₁)
    (ht : Gives (readTy scope true r₁) t rest) :
    Gives (readBase scope nested s) (.wildcard .lower (some t)) rest := by
  obtain ⟨hlt, ht⟩ := ht
  have hq : after? '?' [] s = some r := after?_eq_some hs
  refine ⟨Nat.lt_trans hlt (Nat.lt_trans (length_after? hl) (length_after? hq)), ?_⟩
  rw [readBase]
  split
  · next r' hq' =>
    obtain rfl : r = r' := Option.some.inj (hq.symm.trans hq')
    split
    · next he' => exact absurd (he.symm.trans he') (by simp)
    · split
      · next r₂ hl' =>
        obtain rfl : r₁ = r₂ := Option.some.inj (hl.symm.trans hl')
        rw [ht]
        rfl
      · next hl' => exact absurd (hl.symm.trans hl') (by simp)
  · next hq' => exact absurd (hq.symm.trans hq') (by simp)

/-- Kinds in brackets behind a question mark. -/
theorem gives_hole (hs : skipBlanks s = '?' :: '[' :: r) {ks : List Kind}
    (hr : ∀ r', r ≠ ']' :: r') (hk : Gives (readKinds r) ks rest) :
    Gives (readBase scope nested s) (holeOf ks) rest := by
  obtain ⟨hlt, hk⟩ := hk
  have hskip : skipBlanks ('[' :: r) = '[' :: r := skipBlanks_cons r (by decide)
  have hq : after? '?' [] s = some ('[' :: r) := after?_eq_some hs
  have hb : after? '[' [] ('[' :: r) = some r := after?_eq_some hskip
  refine ⟨Nat.lt_trans hlt (Nat.lt_trans (length_after? hb) (length_after? hq)), ?_⟩
  rw [readBase]
  split
  · next r' hq' =>
    obtain rfl : '[' :: r = r' := Option.some.inj (hq.symm.trans hq')
    have he : after? 'e' "xtends".toList ('[' :: r) = none := after?_eq_none (by simp [hskip])
    have hl : after? 's' "uper".toList ('[' :: r) = none := after?_eq_none (by simp [hskip])
    have hbb : after? '[' [']'] ('[' :: r) = none := after?_eq_none (by simpa [hskip] using hr)
    split
    · next he' => exact absurd (he.symm.trans he') (by simp)
    · split
      · next hl' => exact absurd (hl.symm.trans hl') (by simp)
      · split
        · next r₂ hb' _ =>
          obtain rfl : r = r₂ := Option.some.inj (hb.symm.trans hb')
          rw [hk]
          rfl
        · next hno => exact absurd hbb (hno r hb)
  · next hq' => exact absurd (hq.symm.trans hq') (by simp)

/-- A question mark with nothing of its own behind it. -/
theorem gives_open (hs : skipBlanks s = '?' :: rest)
    (hrest : Closes rest ∨ ∃ r, rest = '[' :: ']' :: r) :
    Gives (readBase scope nested s) (if nested then .wildcard .free none else anything) rest := by
  have hq : after? '?' [] s = some rest := after?_eq_some hs
  have he : after? 'e' "xtends".toList rest = none := after?_eq_none fun r hr => by
    rcases hrest with (rfl | ⟨c, r', rfl, rfl | rfl⟩) | ⟨r', rfl⟩ <;> simp [skipBlanks] at hr
  have hl : after? 's' "uper".toList rest = none := after?_eq_none fun r hr => by
    rcases hrest with (rfl | ⟨c, r', rfl, rfl | rfl⟩) | ⟨r', rfl⟩ <;> simp [skipBlanks] at hr
  have hb : after? '[' [] rest = none ∨ ∃ r, after? '[' [']'] rest = some r := by
    rcases hrest with (rfl | ⟨c, r', rfl, rfl | rfl⟩) | ⟨r', rfl⟩
    · exact .inl rfl
    · exact .inl (after?_eq_none (by simp [skipBlanks]))
    · exact .inl (after?_eq_none (by simp [skipBlanks]))
    · exact .inr ⟨r', after?_eq_some (skipBlanks_cons _ (by decide))⟩
  refine ⟨length_after? hq, ?_⟩
  rw [readBase]
  split
  · next r' hq' =>
    obtain rfl : rest = r' := Option.some.inj (hq.symm.trans hq')
    split
    · next he' => exact absurd (he.symm.trans he') (by simp)
    · split
      · next hl' => exact absurd (hl.symm.trans hl') (by simp)
      · split
        · next hb₁ hb₂ =>
          rcases hb with hb | ⟨r, hb⟩
          · exact absurd (hb.symm.trans hb₁) (by simp)
          · exact absurd (hb.symm.trans hb₂) (by simp)
        · rfl
  · next hq' => exact absurd (hq.symm.trans hq') (by simp)

/-- A name that is known. -/
theorem gives_named {name : List Char} (hs : skipBlanks s = name ++ rest) (hne : name ≠ [])
    (hname : ∀ c ∈ name, isNameChar c = true) (hrest : ∀ c r, rest = c :: r → isNameChar c = false)
    (ht : named? scope (String.ofList name) = some t) : Gives (readBase scope nested s) t rest := by
  have hw : word s = (name, rest) := word_eq hs hname hrest
  have hq : after? '?' [] s = none := after?_question_eq_none hs hne hname
  refine ⟨by simpa [hw] using length_word (s := s) (by simpa [hw] using hne), ?_⟩
  rw [readBase]
  split
  · next hq' => exact absurd (hq.symm.trans hq') (by simp)
  · simp only [hw, hne, dite_false, ht]

/-- A name that is not known, without arguments. -/
theorem gives_plain {name : List Char} (hs : skipBlanks s = name ++ rest) (hne : name ≠ [])
    (hname : ∀ c ∈ name, isNameChar c = true) (hrest : ∀ c r, rest = c :: r → isNameChar c = false)
    (hn : named? scope (String.ofList name) = none) (ha : after? '<' [] rest = none) :
    Gives (readBase scope nested s) (.cls (String.ofList name) [] none) rest := by
  have hw : word s = (name, rest) := word_eq hs hname hrest
  have hq : after? '?' [] s = none := after?_question_eq_none hs hne hname
  refine ⟨by simpa [hw] using length_word (s := s) (by simpa [hw] using hne), ?_⟩
  rw [readBase]
  split
  · next hq' => exact absurd (hq.symm.trans hq') (by simp)
  · simp only [hw, hne, dite_false, hn]
    split
    · rfl
    · next ha' =>
      simp only [hw, ha] at ha'
      exact absurd ha' (by simp)

/-- A name that is not known, with arguments. -/
theorem gives_args {name : List Char} {args : List Ty} (hs : skipBlanks s = name ++ '<' :: r)
    (hne : name ≠ []) (hname : ∀ c ∈ name, isNameChar c = true)
    (hn : named? scope (String.ofList name) = none) (hargs : Gives (readArgs scope r) args rest) :
    Gives (readBase scope nested s) (.cls (String.ofList name) args none) rest := by
  obtain ⟨hlt, hargs⟩ := hargs
  have hw : word s = (name, '<' :: r) := word_eq hs hname (by rintro c _ ⟨⟩; decide)
  have hq : after? '?' [] s = none := after?_question_eq_none hs hne hname
  have ha : after? '<' [] ('<' :: r) = some r := after?_eq_some (skipBlanks_cons _ (by decide))
  have hlen : ('<' :: r).length < s.length := by
    simpa [hw] using length_word (s := s) (by simpa [hw] using hne)
  refine ⟨Nat.lt_trans hlt (Nat.lt_trans (length_after? ha) hlen), ?_⟩
  rw [readBase]
  split
  · next hq' => exact absurd (hq.symm.trans hq') (by simp)
  · simp only [hw, hne, dite_false, hn]
    split
    · next ha' =>
      simp only [hw, ha] at ha'
      exact absurd ha' (by simp)
    · next r' ha' =>
      simp only [hw, ha] at ha'
      obtain rfl : r = r' := Option.some.inj ha'
      rw [hargs]
      rfl

end Steps

/-! ## Names -/

theorem isNameChar_of_mem_kind {k : Kind} {c : Char} (h : c ∈ k.name.toList) : isNameChar c = true := by
  have hall : k.name.toList.all isNameChar = true := by cases k <;> decide
  exact List.all_eq_true.mp hall c h

theorem kind_name_ne_nil (k : Kind) : k.name.toList ≠ [] := by cases k <;> decide

theorem primitive?_eq_none {name : String} (h : ∀ k : Kind, k ≠ .object → k ≠ .array → name ≠ k.name) :
    primitive? name = none := by
  unfold primitive?
  cases hk : Kind.ofName? name with
  | none => rfl
  | some k =>
    have hname : k.name = name := by simpa using List.find?_some hk
    cases k with
    | object => rfl
    | array => rfl
    | _ => exact absurd hname.symm (h _ (by decide) (by decide))

theorem named?_kind (scope : List TypeVar) {k : Kind} (hobject : k ≠ .object) (harray : k ≠ .array) :
    named? scope k.name = some (.prim k) := by
  have halias : alias? k.name = none := by cases k <;> rfl
  have hprim : primitive? k.name = some (.prim k) := by
    rw [primitive?, Kind.ofName?_name]
    cases k <;> first | rfl | contradiction
  rw [named?, halias, hprim]
  rfl

theorem named?_eq_none {scope : List TypeVar} {name : String} (h : IsFree name)
    (hscope : ∀ v ∈ scope, v.name ≠ name) : named? scope name = none := by
  have hv : inScope? scope name = none := by
    simpa [inScope?] using hscope
  rw [named?, h.notAlias, primitive?_eq_none h.kind, hv]
  rfl

theorem named?_var {before after : List TypeVar} {name : String} (h : IsFree name)
    (hlast : ∀ v ∈ after, v.name ≠ name) :
    named? (before ++ ⟨name, []⟩ :: after) name = some (.var name []) := by
  have hv : inScope? (before ++ ⟨name, []⟩ :: after) name = some ⟨name, []⟩ := by
    have hnone : after.reverse.find? (·.name == name) = none := by simpa using hlast
    simp [inScope?, hnone]
  rw [named?, h.notAlias, primitive?_eq_none h.kind, hv]
  rfl

/-! ## Lists in brackets -/

/-- The text starts with something else than white space or a closing bracket. -/
def Starts (s : List Char) : Prop := ∃ c r, s = c :: r ∧ isBlank c = false ∧ c ≠ ']'

theorem Starts.append {s : List Char} (h : Starts s) (rest : List Char) : Starts (s ++ rest) := by
  obtain ⟨c, r, rfl, hc⟩ := h
  exact ⟨c, r ++ rest, rfl, hc⟩

theorem Starts.skip {s : List Char} (h : Starts s) : skipBlanks s = s := by
  obtain ⟨c, r, rfl, hc, -⟩ := h
  exact skipBlanks_cons r (by rintro rfl; exact absurd hc (by decide))

theorem Starts.skip_blank {s : List Char} (h : Starts s) : skipBlanks (' ' :: s) = s := by
  calc skipBlanks (' ' :: s) = skipBlanks s := by simp [skipBlanks]
    _ = s := h.skip

theorem isBlank_of_isNameChar {c : Char} (h : isNameChar c = true) : isBlank c = false := by
  have hcode : c.toNat = 46 ∨ c.toNat = 36 ∨ c.toNat = 95 ∨ (65 ≤ c.toNat ∧ c.toNat ≤ 90) ∨
      (97 ≤ c.toNat ∧ c.toNat ≤ 122) ∨ (48 ≤ c.toNat ∧ c.toNat ≤ 57) := by
    simp only [isNameChar, Bool.or_eq_true, beq_iff_eq] at h
    rcases h with ((rfl | rfl) | rfl) | h
    · exact .inl rfl
    · exact .inr (.inl rfl)
    · exact .inr (.inr (.inl rfl))
    · have hword : ((decide (65 ≤ c.val ∧ c.val ≤ 90) ||
          decide (97 ≤ c.val) && decide (c.val ≤ 122)) ||
          decide (48 ≤ c.val) && decide (c.val ≤ 57)) = true := h
      simp only [Bool.or_eq_true, Bool.and_eq_true, decide_eq_true_eq] at hword
      rcases hword with (h | h) | h
      · exact .inr (.inr (.inr (.inl h)))
      · exact .inr (.inr (.inr (.inr (.inl h))))
      · exact .inr (.inr (.inr (.inr (.inr h))))
  simp only [isBlank, Bool.or_eq_false_iff, Bool.and_eq_false_iff, decide_eq_false_iff_not,
    beq_eq_false_iff_ne]
  omega

theorem starts_of_word {name : List Char} (hne : name ≠ []) (hname : ∀ c ∈ name, isNameChar c = true) :
    Starts name := by
  obtain ⟨c, r, rfl⟩ := List.exists_cons_of_ne_nil hne
  have hc := hname c List.mem_cons_self
  exact ⟨c, r, rfl, isBlank_of_isNameChar hc, by rintro rfl; exact absurd hc (by decide)⟩

theorem separated_cons_cons (sep t u : List Char) (ts : List (List Char)) :
    separated sep (t :: u :: ts) = t ++ sep ++ separated sep (u :: ts) := rfl

theorem starts_separated {sep : List Char} {ts : List (List Char)} (hne : ts ≠ [])
    (h : ∀ t ∈ ts, Starts t) : Starts (separated sep ts) := by
  match ts, hne with
  | [t], _ => exact h t List.mem_cons_self
  | t :: u :: ts, _ =>
    rw [separated_cons_cons, List.append_assoc]
    exact (h t List.mem_cons_self).append _

/-- A kind in front, and the rest behind it is shorter. -/
theorem word_kind {k : Kind} {s r : List Char} {c : Char} (hs : skipBlanks s = k.name.toList ++ c :: r)
    (hc : isNameChar c = false) : word s = (k.name.toList, c :: r) ∧ (c :: r).length < s.length := by
  have hw : word s = (k.name.toList, c :: r) :=
    word_eq hs (fun _ => isNameChar_of_mem_kind) (by rintro _ _ ⟨⟩; exact hc)
  refine ⟨hw, ?_⟩
  simpa [hw] using length_word (s := s) (by simpa [hw] using kind_name_ne_nil k)

theorem gives_lastKind {k : Kind} {s rest : List Char}
    (hs : skipBlanks s = k.name.toList ++ ']' :: rest) : Gives (readKinds s) [k] rest := by
  obtain ⟨hw, hlen⟩ := word_kind hs (by decide)
  have hend : after? ']' [] (']' :: rest) = some rest :=
    after?_eq_some (skipBlanks_cons _ (by decide))
  refine ⟨Nat.lt_trans (length_after? hend) hlen, ?_⟩
  rw [readKinds]
  split
  · next hk => simp [hw, Kind.ofName?_name] at hk
  · next k' hk =>
    obtain rfl : k = k' := by simpa [hw, Kind.ofName?_name] using hk
    simp only [hw]
    split
    · next r' hend' =>
      simp only [hw, hend] at hend'
      obtain rfl : rest = r' := Option.some.inj hend'
      rfl
    · next hend' => simp only [hw, hend] at hend'; exact absurd hend' (by simp)

theorem gives_moreKinds {k : Kind} {ks : List Kind} {s r rest : List Char}
    (hs : skipBlanks s = k.name.toList ++ ',' :: r) (hks : Gives (readKinds r) ks rest) :
    Gives (readKinds s) (k :: ks) rest := by
  obtain ⟨hlt, hks⟩ := hks
  obtain ⟨hw, hlen⟩ := word_kind hs (by decide)
  have hskip : skipBlanks (',' :: r) = ',' :: r := skipBlanks_cons r (by decide)
  have hend : after? ']' [] (',' :: r) = none := after?_eq_none (by simp [hskip])
  have hcomma : after? ',' [] (',' :: r) = some r := after?_eq_some hskip
  refine ⟨Nat.lt_trans hlt (Nat.lt_trans (length_after? hcomma) hlen), ?_⟩
  rw [readKinds]
  split
  · next hk => simp [hw, Kind.ofName?_name] at hk
  · next k' hk =>
    obtain rfl : k = k' := by simpa [hw, Kind.ofName?_name] using hk
    simp only [hw]
    split
    · next r' hend' => simp only [hw, hend] at hend'; exact absurd hend' (by simp)
    · split
      · next hcomma' => simp only [hw, hcomma] at hcomma'; exact absurd hcomma' (by simp)
      · next r' hcomma' =>
        simp only [hw, hcomma] at hcomma'
        obtain rfl : r = r' := Option.some.inj hcomma'
        rw [hks]
        rfl

theorem gives_lastArg {scope : List TypeVar} {t : Ty} {s rest : List Char}
    (ht : Gives (readTy scope true s) t ('>' :: rest)) : Gives (readArgs scope s) [t] rest := by
  obtain ⟨hlt, ht⟩ := ht
  have hend : after? '>' [] ('>' :: rest) = some rest :=
    after?_eq_some (skipBlanks_cons _ (by decide))
  refine ⟨Nat.lt_trans (length_after? hend) hlt, ?_⟩
  rw [readArgs, ht]
  simp only [bind, Except.bind]
  split
  · next r' hend' =>
    obtain rfl : rest = r' := Option.some.inj (hend.symm.trans hend')
    rfl
  · next hend' => exact absurd (hend.symm.trans hend') (by simp)

theorem gives_moreArgs {scope : List TypeVar} {t : Ty} {ts : List Ty} {s r rest : List Char}
    (ht : Gives (readTy scope true s) t (',' :: r)) (hts : Gives (readArgs scope r) ts rest) :
    Gives (readArgs scope s) (t :: ts) rest := by
  obtain ⟨hlt, ht⟩ := ht
  obtain ⟨hlt', hts⟩ := hts
  have hskip : skipBlanks (',' :: r) = ',' :: r := skipBlanks_cons r (by decide)
  have hend : after? '>' [] (',' :: r) = none := after?_eq_none (by simp [hskip])
  have hcomma : after? ',' [] (',' :: r) = some r := after?_eq_some hskip
  refine ⟨Nat.lt_trans hlt' (Nat.lt_trans (length_after? hcomma) hlt), ?_⟩
  rw [readArgs, ht]
  simp only [bind, Except.bind]
  split
  · next hend' => exact absurd (hend.symm.trans hend') (by simp)
  · split
    · next hcomma' => exact absurd (hcomma.symm.trans hcomma') (by simp)
    · next r' hcomma' =>
      obtain rfl : r = r' := Option.some.inj (hcomma.symm.trans hcomma')
      rw [hts]
      rfl

theorem gives_readKinds {ks : List Kind} (hne : ks ≠ []) {s rest : List Char}
    (hs : skipBlanks s = separated ", ".toList (ks.map (·.name.toList)) ++ ']' :: rest) :
    Gives (readKinds s) ks rest := by
  induction ks generalizing s with
  | nil => contradiction
  | cons k ks ih =>
    cases ks with
    | nil => exact gives_lastKind hs
    | cons l ks =>
      have hstart : Starts (separated ", ".toList ((l :: ks).map (·.name.toList))) := by
        refine starts_separated (by simp) fun t ht => ?_
        obtain ⟨k, -, rfl⟩ := List.mem_map.mp ht
        exact starts_of_word (kind_name_ne_nil k) fun _ => isNameChar_of_mem_kind
      refine gives_moreKinds (r := ' ' :: (_ ++ ']' :: rest)) ?_
        (ih (by simp) (hstart.append _).skip_blank)
      simpa [separated_cons_cons] using hs

theorem gives_readArgs {scope : List TypeVar} {args : List Ty} (hne : args ≠ [])
    (hstart : ∀ t ∈ args, Starts t.chars)
    (hread : ∀ t ∈ args, ∀ s rest, skipBlanks s = t.chars ++ rest → Closes rest →
      Gives (readTy scope true s) t rest)
    {s rest : List Char} (hs : skipBlanks s = separated ", ".toList (args.map chars) ++ '>' :: rest) :
    Gives (readArgs scope s) args rest := by
  induction args generalizing s with
  | nil => contradiction
  | cons t ts ih =>
    have hread' := hread t List.mem_cons_self s
    cases ts with
    | nil => exact gives_lastArg (hread' _ hs (.inr ⟨'>', rest, rfl, .inr rfl⟩))
    | cons u us =>
      have hstart' : Starts (separated ", ".toList ((u :: us).map chars)) := by
        refine starts_separated (by simp) fun x hx => ?_
        obtain ⟨v, hv, rfl⟩ := List.mem_map.mp hx
        exact hstart v (List.mem_cons_of_mem _ hv)
      refine gives_moreArgs (r := ' ' :: (_ ++ '>' :: rest))
        (hread' _ (by simpa [separated_cons_cons] using hs) (.inr ⟨',', _, rfl, .inl rfl⟩))
        (ih (by simp) (fun v hv => hstart v (List.mem_cons_of_mem _ hv))
          (fun v hv => hread v (List.mem_cons_of_mem _ hv)) (hstart'.append _).skip_blank)

/-! ## The round trip -/

theorem starts_question (r : List Char) : Starts ('?' :: r) := ⟨'?', r, rfl, by decide, by decide⟩

theorem starts_kindsText (ks : List Kind) : Starts (kindsText ks) := by
  unfold kindsText
  split <;> exact starts_question _

theorem starts_chars {scope : List TypeVar} {nested : Bool} {t : Ty} (ht : Readable scope nested t) :
    Starts t.chars := by
  induction ht with
  | @prim _ k _ _ => exact starts_of_word (kind_name_ne_nil k) fun _ => isNameChar_of_mem_kind
  | cls hname _ _ _ => exact (starts_of_word hname.word.1 hname.word.2).append _
  | var hname _ _ => exact starts_of_word hname.word.1 hname.word.2
  | free => exact starts_question _
  | upper _ _ => exact starts_question _
  | lower _ _ => exact starts_question _
  | array _ _ ih => exact ih.append _
  | @hole _ ks _ _ _ => exact starts_kindsText ks

theorem Follows.not_name {t : Ty} {rest : List Char} (h : Follows t rest) :
    ∀ c r, rest = c :: r → isNameChar c = false := by
  rintro c r rfl
  rcases h with (h | ⟨_, _, ⟨⟩, rfl | rfl⟩) | ⟨-, _, ⟨⟩⟩
  · exact absurd h (List.cons_ne_nil c r)
  · rfl
  · rfl
  · rfl

theorem Follows.not_args {t : Ty} {rest : List Char} (h : Follows t rest) :
    after? '<' [] rest = none := by
  refine after?_eq_none fun r hr => ?_
  rcases h with (rfl | ⟨_, _, rfl, rfl | rfl⟩) | ⟨-, _, rfl⟩ <;> simp [skipBlanks] at hr

theorem ranked_eq_self {ks : List Kind} (h : ks.Pairwise fun k l => k.rank < l.rank) :
    Kind.ranked ks = ks := by
  have nodup : ∀ {ls : List Kind}, ls.Pairwise (fun k l => k.rank < l.rank) → ls.Nodup := by
    intro ls hls
    refine hls.imp ?_
    rintro k _ hlt rfl
    exact Nat.lt_irrefl _ hlt
  have hall : Kind.all.Pairwise fun k l => k.rank < l.rank := by decide
  have hranked : (Kind.ranked ks).Pairwise fun k l => k.rank < l.rank := hall.filter _
  refine List.Perm.eq_of_pairwise (fun _ _ _ _ hab hba => absurd hba (Nat.lt_asymm hab)) hranked h
    ((List.perm_ext_iff_of_nodup (nodup hranked) (nodup h)).mpr fun k => Kind.mem_ranked)

theorem eq_all_of_length {ks : List Kind} (h : ks.Pairwise fun k l => k.rank < l.rank)
    (hlen : ks.length = Kind.all.length) : ks = Kind.all := by
  rw [← ranked_eq_self h] at hlen ⊢
  exact List.filter_sublist.eq_of_length hlen

theorem gives_of_base {scope : List TypeVar} {nested : Bool} {t : Ty} {s rest : List Char}
    (h : ∃ b r, Gives (readBase scope nested s) b r ∧ arrays b r = arrays t rest) (hrest : Closes rest) :
    Gives (readTy scope nested s) t rest := by
  obtain ⟨b, r, hb, ha⟩ := h
  exact gives_readTy hb (ha.trans (arrays_of_closes t hrest))

/-- Reading the text of a type, up to the brackets that may still follow, comes to the type. -/
theorem gives_chars {scope : List TypeVar} {nested : Bool} {t : Ty} (ht : Readable scope nested t)
    {s rest : List Char} (hs : skipBlanks s = t.chars ++ rest) (hrest : Follows t rest) :
    ∃ b r, Gives (readBase scope nested s) b r ∧ arrays b r = arrays t rest := by
  induction ht generalizing s rest with
  | @prim _ k hobject harray =>
    have hn : named? scope (String.ofList k.name.toList) = some (.prim k) := by
      rw [String.ofList_toList]
      exact named?_kind scope hobject harray
    rw [chars_prim] at hs
    exact ⟨_, _, gives_named hs (kind_name_ne_nil k) (fun _ => isNameChar_of_mem_kind)
      hrest.not_name hn, rfl⟩
  | @cls nested name args hname hscope hargs ih =>
    have hn : named? scope (String.ofList name.toList) = none := by
      rw [String.ofList_toList]
      exact named?_eq_none hname hscope
    rw [chars_cls, charsList_eq_map] at hs
    cases args with
    | nil =>
      have hb : Gives (readBase scope nested s) (.cls (String.ofList name.toList) [] none) rest :=
        gives_plain (by simpa [argsText] using hs) hname.word.1 hname.word.2 hrest.not_name hn
          hrest.not_args
      rw [String.ofList_toList] at hb
      exact ⟨_, _, hb, rfl⟩
    | cons a as =>
      have hstart : ∀ t ∈ a :: as, Starts t.chars := fun t ht => starts_chars (hargs t ht)
      have hread : Gives (readArgs scope (separated ", ".toList ((a :: as).map chars) ++ '>' :: rest))
          (a :: as) rest :=
        gives_readArgs (List.cons_ne_nil a as) hstart
          (fun t ht s rest hs hc => gives_of_base (ih t ht hs (.inl hc)) hc)
          ((starts_separated (by simp) (by simpa using hstart)).append ('>' :: rest)).skip
      have hb : Gives (readBase scope nested s) (.cls (String.ofList name.toList) (a :: as) none) rest :=
        gives_args (by simpa [argsText] using hs) hname.word.1 hname.word.2 hn hread
      rw [String.ofList_toList] at hb
      exact ⟨_, _, hb, rfl⟩
  | @var _ name before after hname hscope hlast =>
    have hn : named? scope (String.ofList name.toList) = some (.var name []) := by
      rw [String.ofList_toList, hscope]
      exact named?_var hname hlast
    rw [chars_var] at hs
    exact ⟨_, _, gives_named hs hname.word.1 hname.word.2 hrest.not_name hn, rfl⟩
  | free => exact ⟨_, _, gives_open hs (hrest.imp_right fun h => h.2), rfl⟩
  | @upper _ t ht ih =>
    have hclose : Closes rest := hrest.resolve_right fun h => absurd h.1 (by simp [isBounded])
    have he : after? 'e' "xtends".toList (" extends ".toList ++ (t.chars ++ rest)) =
        some (' ' :: (t.chars ++ rest)) := after?_eq_some (by simp [skipBlanks])
    exact ⟨_, _, gives_upper (by simpa using hs) he (gives_of_base
      (ih ((starts_chars ht).append rest).skip_blank (.inl hclose)) hclose), rfl⟩
  | @lower _ t ht ih =>
    have hclose : Closes rest := hrest.resolve_right fun h => absurd h.1 (by simp [isBounded])
    have he : after? 'e' "xtends".toList (" super ".toList ++ (t.chars ++ rest)) = none :=
      after?_eq_none (by simp [skipBlanks])
    have hl : after? 's' "uper".toList (" super ".toList ++ (t.chars ++ rest)) =
        some (' ' :: (t.chars ++ rest)) := after?_eq_some (by simp [skipBlanks])
    exact ⟨_, _, gives_lower (by simpa using hs) he hl (gives_of_base
      (ih ((starts_chars ht).append rest).skip_blank (.inl hclose)) hclose), rfl⟩
  | @array _ t ht hbound ih =>
    have hs : skipBlanks s = t.chars ++ '[' :: ']' :: rest := by simpa using hs
    obtain ⟨b, r, hb, ha⟩ := ih hs (.inr ⟨hbound, rest, rfl⟩)
    exact ⟨b, r, hb, ha.trans (arrays_brackets t rest)⟩
  | @hole nested ks hne hrank hopen =>
    rw [chars_hole, kindsText] at hs
    by_cases hlen : ks.length = Kind.all.length
    · obtain rfl := eq_all_of_length hrank hlen
      cases nested with
      | true => exact absurd rfl (hopen rfl)
      | false => exact ⟨_, _, gives_open hs (hrest.imp_right fun h => h.2), rfl⟩
    · rw [if_neg hlen] at hs
      have hstart : Starts (separated ", ".toList (ks.map (·.name.toList))) := by
        refine starts_separated (by simpa using hne) fun t ht => ?_
        obtain ⟨k, -, rfl⟩ := List.mem_map.mp ht
        exact starts_of_word (kind_name_ne_nil k) fun _ => isNameChar_of_mem_kind
      have hclosed : ∀ r, separated ", ".toList (ks.map (·.name.toList)) ++ ']' :: rest ≠ ']' :: r := by
        obtain ⟨c, r, hcr, -, hc⟩ := hstart
        rw [hcr]
        rintro _ ⟨⟩
        exact hc rfl
      have hb : Gives (readBase scope nested s) (holeOf ks) rest :=
        gives_hole (by simpa using hs) hclosed (gives_readKinds hne (hstart.append _).skip)
      rw [holeOf, ranked_eq_self hrank] at hb
      exact ⟨_, _, hb, rfl⟩

theorem read_chars {scope : List TypeVar} {t : Ty} (ht : Readable scope false t) :
    read scope t.chars = .ok t := by
  have hs : skipBlanks t.chars = t.chars ++ [] := by rw [(starts_chars ht).skip, List.append_nil]
  obtain ⟨h, hread⟩ := gives_of_base (gives_chars ht hs (.inl (.inl rfl))) (.inl rfl)
  rw [read, hread]
  rfl

/-! ## Declarations -/

/-- The text ends with something else than white space. -/
def Ends (s : List Char) : Prop := ∃ r c, s = r ++ [c] ∧ isBlank c = false

theorem Ends.append {s : List Char} (h : Ends s) (front : List Char) : Ends (front ++ s) := by
  obtain ⟨r, c, rfl, hc⟩ := h
  exact ⟨front ++ r, c, (List.append_assoc _ _ _).symm, hc⟩

theorem ends_of_word {name : List Char} (hne : name ≠ []) (hname : ∀ c ∈ name, isNameChar c = true) :
    Ends name :=
  ⟨name.dropLast, name.getLast hne, (List.dropLast_concat_getLast hne).symm,
    isBlank_of_isNameChar (hname _ (List.getLast_mem hne))⟩

theorem ends_chars {scope : List TypeVar} {nested : Bool} {t : Ty} (ht : Readable scope nested t) :
    Ends t.chars := by
  induction ht with
  | @prim _ k _ _ => exact ends_of_word (kind_name_ne_nil k) fun _ => isNameChar_of_mem_kind
  | @cls _ name args hname _ _ _ =>
    rw [chars_cls]
    cases args with
    | nil => simpa [charsList, argsText] using ends_of_word hname.word.1 hname.word.2
    | cons a as =>
      exact ⟨name.toList ++ '<' :: separated ", ".toList (charsList (a :: as)), '>',
        by simp [charsList, argsText], by decide⟩
  | var hname _ _ => exact ends_of_word hname.word.1 hname.word.2
  | free => exact ⟨[], '?', rfl, by decide⟩
  | upper _ ih => exact ih.append _
  | lower _ ih => exact ih.append _
  | @array _ t _ _ _ => exact ⟨t.chars ++ ['['], ']', by simp, by decide⟩
  | @hole _ ks _ _ _ =>
    rw [chars_hole, kindsText]
    split
    · exact ⟨[], '?', rfl, by decide⟩
    · exact ⟨_, ']', rfl, by decide⟩

theorem ends_separated {sep : List Char} {ts : List (List Char)} (hne : ts ≠ [])
    (h : ∀ t ∈ ts, Ends t) : Ends (separated sep ts) := by
  induction ts with
  | nil => contradiction
  | cons t ts ih =>
    cases ts with
    | nil => exact h t List.mem_cons_self
    | cons u us => exact (ih (by simp) fun v hv => h v (List.mem_cons_of_mem _ hv)).append _

theorem not_mem_separated {c : Char} {sep : List Char} {ts : List (List Char)} (hsep : c ∉ sep)
    (h : ∀ t ∈ ts, c ∉ t) : c ∉ separated sep ts := by
  induction ts with
  | nil => simp [separated]
  | cons t ts ih =>
    cases ts with
    | nil => exact h t List.mem_cons_self
    | cons u us =>
      have ht := h t List.mem_cons_self
      have ih := ih fun v hv => h v (List.mem_cons_of_mem _ hv)
      simp [separated_cons_cons, hsep, ht, ih]

theorem amp_not_mem_word {name : List Char} (hname : ∀ c ∈ name, isNameChar c = true) : '&' ∉ name :=
  fun h => absurd (hname '&' h) (by decide)

theorem amp_not_mem_chars {scope : List TypeVar} {nested : Bool} {t : Ty}
    (ht : Readable scope nested t) : '&' ∉ t.chars := by
  induction ht with
  | prim _ _ => exact amp_not_mem_word fun _ => isNameChar_of_mem_kind
  | @cls _ name args hname _ _ ih =>
    rw [chars_cls, charsList_eq_map]
    have hargs : '&' ∉ separated ", ".toList (args.map chars) :=
      not_mem_separated (by decide) fun x hx => by
        obtain ⟨t, ht, rfl⟩ := List.mem_map.mp hx
        exact ih t ht
    cases args with
    | nil => simpa [argsText] using amp_not_mem_word hname.word.2
    | cons a as => simpa [argsText, amp_not_mem_word hname.word.2] using hargs
  | var hname _ _ => exact amp_not_mem_word hname.word.2
  | free => decide
  | upper _ ih => simpa using ih
  | lower _ ih => simpa using ih
  | array _ _ ih => simpa using ih
  | @hole _ ks _ _ _ =>
    have hks : '&' ∉ separated ", ".toList (ks.map (·.name.toList)) :=
      not_mem_separated (by decide) fun x hx => by
        obtain ⟨k, -, rfl⟩ := List.mem_map.mp hx
        exact amp_not_mem_word fun _ => isNameChar_of_mem_kind
    rw [chars_hole, kindsText]
    split
    · decide
    · simpa using hks

theorem trim_eq_self {s : List Char} (hs : Starts s) (he : Ends s) : trim s = s := by
  obtain ⟨c, r, hcr, hc, -⟩ := hs
  obtain ⟨r', c', hcr', hc'⟩ := he
  have hfront : s.dropWhile isBlank = s := by simp [hcr, hc]
  have hback : s.reverse.dropWhile isBlank = s.reverse := by simp [hcr', hc']
  rw [trim, hfront, hback, List.reverse_reverse]

theorem trim_blank (s : List Char) : trim (' ' :: s) = trim s := by
  simp [trim, show isBlank ' ' = true by decide]

theorem trim_append_blank {s : List Char} (hs : Starts s) : trim (s ++ [' ']) = trim s := by
  obtain ⟨c, r, rfl, hc, -⟩ := hs
  simp [trim, hc, show isBlank ' ' = true by decide]

/-- A blank in front of the text goes away with the trimming. -/
theorem splitAt_blank (s : List Char) :
    (splitAt '&' (' ' :: s)).map trim = (splitAt '&' s).map trim := by
  obtain ⟨part, parts, hs⟩ := List.exists_cons_of_ne_nil (splitAt_ne_nil '&' s)
  simp [splitAt, hs, trim_blank]

theorem splitAt_separated {ts : List (List Char)} (hne : ts ≠ [])
    (h : ∀ t ∈ ts, Starts t ∧ Ends t ∧ '&' ∉ t) :
    (splitAt '&' (separated " & ".toList ts)).map trim = ts := by
  induction ts with
  | nil => contradiction
  | cons t ts ih =>
    obtain ⟨hs, he, ht⟩ := h t List.mem_cons_self
    cases ts with
    | nil => simp [separated, splitAt_of_not_mem ht, trim_eq_self hs he]
    | cons u us =>
      have hcut : separated " & ".toList (t :: u :: us) =
          (t ++ [' ']) ++ '&' :: ' ' :: separated " & ".toList (u :: us) := by
        simp [separated_cons_cons]
      have ih := ih (by simp) fun v hv => h v (List.mem_cons_of_mem _ hv)
      rw [hcut, splitAt_append (by simp [ht]), List.map_cons, splitAt_blank, ih,
        trim_append_blank hs, trim_eq_self hs he]

theorem mapM_read {scope : List TypeVar} {ts : List Ty} (h : ∀ t ∈ ts, Readable scope false t) :
    (ts.map chars).mapM (read scope) = .ok ts := by
  induction ts with
  | nil => rfl
  | cons t ts ih =>
    rw [List.map_cons, List.mapM_cons, read_chars (h t List.mem_cons_self),
      ih fun u hu => h u (List.mem_cons_of_mem _ hu)]
    rfl

theorem ofText_declaration {scope : List TypeVar} {v : TypeVar} (hname : IsWord v.name)
    (hbounds : ∀ t ∈ v.bounds, Readable scope false t) : TypeVar.ofText scope v.text = .ok v := by
  obtain ⟨name, bounds⟩ := v
  have hstart : Starts name.toList := starts_of_word hname.1 hname.2
  have hend : Ends name.toList := ends_of_word hname.1 hname.2
  have hblank : ' ' ∉ name.toList := fun h => absurd (hname.2 ' ' h) (by decide)
  have htext : (TypeVar.text ⟨name, bounds⟩).toList = boundsText name.toList (bounds.map chars) := by
    rw [TypeVar.text, TypeVar.ty, text, String.toList_ofList, chars_var, charsList_eq_map]
  cases bounds with
  | nil =>
    have hdecl : trim (TypeVar.text ⟨name, []⟩).toList = name.toList := by
      rw [htext]
      exact trim_eq_self hstart hend
    have hcut : cut? " extends ".toList name.toList = none := cut?_eq_none hblank
    simp only [TypeVar.ofText, hdecl, hcut, trim_eq_self hstart hend, if_neg hname.1]
    rw [String.ofList_toList]
    rfl
  | cons b bs =>
    have hparts : ∀ x ∈ (b :: bs).map chars, Starts x ∧ Ends x ∧ '&' ∉ x := fun x hx => by
      obtain ⟨t, ht, rfl⟩ := List.mem_map.mp hx
      exact ⟨starts_chars (hbounds t ht), ends_chars (hbounds t ht), amp_not_mem_chars (hbounds t ht)⟩
    have hdecl : trim (TypeVar.text ⟨name, b :: bs⟩).toList =
        name.toList ++ (" extends ".toList ++ separated " & ".toList ((b :: bs).map chars)) := by
      rw [htext, List.map_cons, boundsText, List.append_assoc]
      case x_1 => exact List.cons_ne_nil _ _
      exact trim_eq_self (hstart.append _)
        (((ends_separated (by simp) fun x hx => (hparts x hx).2.1).append _).append _)
    have hcut : cut? " extends ".toList
        (name.toList ++ (" extends ".toList ++ separated " & ".toList ((b :: bs).map chars))) =
          some (name.toList, separated " & ".toList ((b :: bs).map chars)) := cut?_append hblank _
    have hsplit : (splitAt '&' (separated " & ".toList ((b :: bs).map chars))).map trim =
        (b :: bs).map chars := splitAt_separated (List.cons_ne_nil _ _) hparts
    simp only [TypeVar.ofText, hdecl, hcut, trim_eq_self hstart hend, if_neg hname.1, hsplit,
      mapM_read hbounds]
    rw [String.ofList_toList]

/-- Reading the text of a type or of a declaration gives it back. -/
theorem reading_undoes_printing (scope : List TypeVar) :
    (∀ t, Readable scope false t → ofText scope t.text = .ok t) ∧
    ∀ v : TypeVar, IsWord v.name → (∀ t ∈ v.bounds, Readable scope false t) →
      TypeVar.ofText scope v.text = .ok v := by
  refine ⟨fun t ht => ?_, fun v hname hbounds => ofText_declaration hname hbounds⟩
  rw [ofText, text, String.toList_ofList]
  exact read_chars ht

/-- With `T` in scope: `a.Map<?[], ? super T[]>[]`, and `K` bounded by it and by an open number. -/
theorem reading_undoes_printing_at_map :
    let scope : List TypeVar := [⟨"T", []⟩]
    let t : Ty := .array (.cls "a.Map"
      [.array (.wildcard .free none), .wildcard .lower (some (.array (.var "T" [])))] none)
    let v : TypeVar := ⟨"K", [t, .hole [.int, .float]]⟩
    (Readable scope false t ∧ ofText scope t.text = .ok t) ∧
      (IsWord v.name ∧ (∀ b ∈ v.bounds, Readable scope false b)) ∧
      TypeVar.ofText scope v.text = .ok v := by
  intro scope t v
  have hT : IsFree "T" := ⟨by decide, by decide, fun k => by cases k <;> decide⟩
  have hMap : IsFree "a.Map" := ⟨by decide, by decide, fun k => by cases k <;> decide⟩
  have ht : Readable scope false t := by
    refine .array (.cls hMap (by decide) fun a ha => ?_) rfl
    rcases (by simpa using ha : a = _ ∨ a = _) with rfl | rfl
    · exact .array .free rfl
    · exact .lower (.array (.var hT (List.nil_append _).symm (by simp)) rfl)
  have hbounds : ∀ b ∈ v.bounds, Readable scope false b := fun b hb => by
    rcases (by simpa [v] using hb : b = t ∨ b = .hole [.int, .float]) with rfl | rfl
    · exact ht
    · exact .hole (by decide) (by decide) (by decide)
  have hv : IsWord v.name := by decide
  exact ⟨⟨ht, (reading_undoes_printing scope).1 t ht⟩, ⟨hv, hbounds⟩,
    (reading_undoes_printing scope).2 v hv hbounds⟩

end TypeRecovery.Ty
