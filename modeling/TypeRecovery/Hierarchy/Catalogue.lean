import TypeRecovery.Hierarchy.Basic

/- A hierarchy in use. The supertypes of a name are worked out when they are first asked for and are
   remembered until the next declaration. -/
namespace TypeRecovery

structure Catalogue where
  classes : Hierarchy
  /-- Names with their supertypes, as far as they have been asked for. -/
  remembered : List (String × List String) := []
deriving Repr, Inhabited

namespace Catalogue

/-! ## Declaring -/

def fresh : Catalogue := { classes := Hierarchy.base }

/-- A declaration can change the supertypes of any class, so nothing stays remembered. -/
def addClass (k : Catalogue) (c : ClassDecl) : Catalogue := { classes := k.classes.addClass c }

/-- Adds plain classes; one that is declared already is left alone. -/
def addPlain (k : Catalogue) (names : List String) : Catalogue :=
  names.foldl (fun k name => if k.classes.isDeclared name then k else k.addClass { name }) k

/-! ## Asking -/

abbrev Consult := StateM Catalogue

def ancestors (name : String) : Consult (List String) := do
  let k ← get
  match List.lookup name k.remembered with
  | some names => return names
  | none =>
    let names := k.classes.ancestors name
    set { k with remembered := (name, names) :: k.remembered }
    return names

def isInstanceOf (name of : String) : Consult Bool := do
  if name == of || of == Ty.objectClass then return true
  return (← ancestors name).contains of

/-- Asks on the way up, superclass by superclass, whether `b` is an instance of it. -/
def sharedFrom (h : Hierarchy) (b : String) (seen : List String) :
    Option ClassDecl → Consult String
  | none => return Ty.objectClass
  | some c =>
    if _hstop : c.superName = "" ∨ seen.contains c.superName then return Ty.objectClass
    else do
      if ← isInstanceOf b c.superName then return c.superName
      else sharedFrom h b (c.superName :: seen) (h.lookup? c.superName)
termination_by start => start.elim 0 fun _ => h.unseen seen + 1
decreasing_by
  cases hd : h.lookup? c.superName with
  | none => exact Nat.zero_lt_succ _
  | some d => exact Nat.succ_lt_succ (Hierarchy.unseen_cons_lt hd (by simp_all))

def commonAncestor? (a b : String) : Consult (Option String) := do
  if ← isInstanceOf a b then return some b
  if ← isInstanceOf b a then return some a
  let h := (← get).classes
  if h.isDeclared a && h.isDeclared b then return some (← sharedFrom h b [] (h.lookup? a))
  return none

/-! ## What is remembered -/

/-- The catalogue holds these classes, and remembers what would be worked out from them. -/
structure Shows (k : Catalogue) (h : Hierarchy) : Prop where
  classes : k.classes = h
  remembered : ∀ name names, (name, names) ∈ k.remembered → names = h.ancestors name

/-- However much is remembered, the classes `h` alone settle the answer, and asking keeps them. -/
def Answers {α : Type} (h : Hierarchy) (m : Consult α) (answer : α) : Prop :=
  ∀ k : Catalogue, k.Shows h → ∃ k' : Catalogue, m.run k = (answer, k') ∧ k'.Shows h

theorem shows_start (h : Hierarchy) : Shows { classes := h } h := ⟨rfl, fun _ _ hm => by cases hm⟩

theorem Shows.answer {α : Type} {k : Catalogue} {h : Hierarchy} {m : Consult α} {a : α}
    (hk : k.Shows h) (hm : Answers h m a) : (m.run k).1 = a := by
  obtain ⟨k', hrun, -⟩ := hm k hk
  rw [hrun]

theorem Shows.after {α : Type} {k : Catalogue} {h : Hierarchy} {m : Consult α} {a : α}
    (hk : k.Shows h) (hm : Answers h m a) : (m.run k).2.Shows h := by
  obtain ⟨k', hrun, hk'⟩ := hm k hk
  rw [hrun]
  exact hk'

section Answers
variable {α β : Type} {h : Hierarchy}

theorem answers_pure (a : α) : Answers h (pure a) a := fun k hk => ⟨k, rfl, hk⟩

theorem answers_bind {m : Consult α} {f : α → Consult β} {a : α} {b : β} (hm : Answers h m a)
    (hf : Answers h (f a) b) : Answers h (m >>= f) b := by
  intro k hk
  obtain ⟨k₁, hrun, hk₁⟩ := hm k hk
  obtain ⟨k₂, hrun', hk₂⟩ := hf k₁ hk₁
  refine ⟨k₂, ?_, hk₂⟩
  rw [StateT.run_bind, hrun]
  exact hrun'

/-- Reading the catalogue brings back one with the same classes. -/
theorem answers_get {f : Catalogue → Consult β} {b : β} (hf : ∀ k, k.Shows h → Answers h (f k) b) :
    Answers h (get >>= f) b := fun k hk => hf k hk k hk

theorem answers_ancestors (name : String) : Answers h (ancestors name) (h.ancestors name) := by
  rintro k ⟨rfl, hk⟩
  cases hl : List.lookup name k.remembered with
  | some names =>
    obtain ⟨l₁, l₂, hsplit, -⟩ := List.lookup_eq_some_iff.mp hl
    have hnames : names = k.classes.ancestors name := hk name names (by simp [hsplit])
    refine ⟨k, ?_, rfl, hk⟩
    rw [← hnames]
    simp [ancestors, hl]
    rfl
  | none =>
    refine ⟨{ k with remembered := (name, k.classes.ancestors name) :: k.remembered }, ?_, rfl,
      fun n ns hm => ?_⟩
    · simp [ancestors, hl]
      rfl
    · rcases List.mem_cons.mp hm with heq | hm
      · cases heq
        rfl
      · exact hk n ns hm

theorem answers_isInstanceOf (name of : String) :
    Answers h (isInstanceOf name of) (h.isInstanceOf name of) := by
  unfold isInstanceOf
  by_cases hs : (name == of || of == Ty.objectClass) = true
  · rw [if_pos hs, Hierarchy.isInstanceOf, hs]
    exact answers_pure true
  · rw [if_neg hs, Hierarchy.isInstanceOf, (Bool.not_eq_true _).mp hs]
    exact answers_bind (answers_ancestors name) (answers_pure _)

theorem answers_sharedFrom (b : String) (seen : List String) (start : Option ClassDecl) :
    Answers h (sharedFrom h b seen start) (h.sharedFrom b seen start) := by
  induction seen, start using Hierarchy.sharedFrom.induct h b with
  | case1 seen =>
    rw [sharedFrom, Hierarchy.sharedFrom]
    exact answers_pure _
  | case2 seen c hstop =>
    rw [sharedFrom, Hierarchy.sharedFrom, dif_pos hstop, dif_pos hstop]
    exact answers_pure _
  | case3 seen c hstop hb =>
    rw [sharedFrom, Hierarchy.sharedFrom, dif_neg hstop, dif_neg hstop, if_pos hb]
    refine answers_bind (answers_isInstanceOf b c.superName) ?_
    rw [if_pos hb]
    exact answers_pure _
  | case4 seen c hstop hb ih =>
    rw [sharedFrom, Hierarchy.sharedFrom, dif_neg hstop, dif_neg hstop, if_neg hb]
    refine answers_bind (answers_isInstanceOf b c.superName) ?_
    rw [if_neg hb]
    exact ih

theorem answers_commonAncestor? (a b : String) :
    Answers h (commonAncestor? a b) (h.commonAncestor? a b) := by
  unfold commonAncestor? Hierarchy.commonAncestor?
  refine answers_bind (answers_isInstanceOf a b) ?_
  cases h.isInstanceOf a b with
  | true => exact answers_pure (some b)
  | false =>
    refine answers_bind (answers_isInstanceOf b a) ?_
    cases h.isInstanceOf b a with
    | true => exact answers_pure (some a)
    | false =>
      refine answers_get fun k hk => ?_
      simp only [hk.classes]
      cases h.isDeclared a && h.isDeclared b with
      | true =>
        exact answers_bind (answers_sharedFrom b [] (h.lookup? a)) (answers_pure _)
      | false => exact answers_pure none

end Answers

end Catalogue

namespace Hierarchy

/-- Asks for the supertypes of all classes beforehand. -/
def consulted (h : Hierarchy) : Catalogue :=
  h.names.foldl (fun k name => ((Catalogue.ancestors name).run k).2) { classes := h }

/-- The oracle for many questions: it looks up what was asked beforehand. -/
def tabulated (h : Hierarchy) : ClassOracle :=
  let k := h.consulted
  { h.oracle with instanceOf := fun name of => ((Catalogue.isInstanceOf name of).run k).1 }

theorem shows_consulted (h : Hierarchy) : h.consulted.Shows h := by
  have asked : ∀ names (k : Catalogue), k.Shows h →
      (List.foldl (fun k name => ((Catalogue.ancestors name).run k).2) k names).Shows h := by
    intro names
    induction names with
    | nil => exact fun _ hk => hk
    | cons name names ih => exact fun k hk => ih _ (hk.after (Catalogue.answers_ancestors name))
  exact asked h.names _ (Catalogue.shows_start h)

theorem tabulated_eq (h : Hierarchy) : h.tabulated = h.oracle := by
  have key : ∀ name of,
      ((Catalogue.isInstanceOf name of).run h.consulted).1 = h.isInstanceOf name of :=
    fun name of => h.shows_consulted.answer (Catalogue.answers_isInstanceOf name of)
  unfold tabulated oracle
  simp only [key]

end Hierarchy

end TypeRecovery
