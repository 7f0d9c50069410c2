import TypeRecovery.Hierarchy.Catalogue
import TypeRecovery.Proofs.Hierarchy.Walk

/- A catalogue has no memory. Classes come and are declared anew, and questions are asked between the
   declarations; every answer is the one that a fresh catalogue gives which was told the final
   declaration of each name once, in any order. Three things carry this. The table stays sorted, so it
   is determined by what is declared. The links below a name are kept with their multiplicity, so a
   new declaration takes back exactly those of the old one. And what is remembered is right, because a
   declaration forgets all of it. -/
namespace TypeRecovery

namespace Hierarchy

/-! ## Declaring one class -/

theorem find?_insertDecl (c : ClassDecl) (ds : List ClassDecl) (name : String) :
    (insertDecl c ds).find? (·.name == name) =
      if name = c.name then some c else ds.find? (·.name == name) := by
  induction ds with
  | nil =>
    by_cases h : name = c.name
    · simp [insertDecl, h]
    · simp [insertDecl, h, Ne.symm h]
  | cons d ds ih =>
    unfold insertDecl
    by_cases hc : name = c.name
    · subst hc
      by_cases hlt : c.name < d.name
      · simp [hlt]
      · by_cases heq : c.name = d.name
        · simp [heq]
        · simp [hlt, heq, Ne.symm heq, ih]
    · by_cases hlt : c.name < d.name
      · simp [hlt, hc, Ne.symm hc]
      · by_cases heq : c.name = d.name
        · have hd : d.name ≠ name := fun hd => hc (hd.symm.trans heq.symm)
          simp [heq, hd, Ne.symm hd]
        · simp [hlt, heq, List.find?_cons, ih, hc]

theorem lookup?_addClass (h : Hierarchy) (c : ClassDecl) (name : String) :
    (h.addClass c).lookup? name = if name = c.name then some c else h.lookup? name :=
  find?_insertDecl c h.table name

theorem mem_insertDecl {c d : ClassDecl} {ds : List ClassDecl} (h : d ∈ insertDecl c ds) :
    d = c ∨ d ∈ ds := by
  induction ds with
  | nil => simpa [insertDecl] using h
  | cons e ds ih =>
    unfold insertDecl at h
    split at h
    · simpa using h
    · split at h
      · rcases List.mem_cons.mp h with h | h
        · exact .inl h
        · exact .inr (List.mem_cons_of_mem _ h)
      · rcases List.mem_cons.mp h with h | h
        · exact .inr (h ▸ List.mem_cons_self)
        · exact (ih h).imp_right (List.mem_cons_of_mem _)

/-- The names of a table ascend. -/
def Ascending (ds : List ClassDecl) : Prop := ds.Pairwise fun c d => c.name < d.name

theorem ascending_insertDecl (c : ClassDecl) {ds : List ClassDecl} (h : Ascending ds) :
    Ascending (insertDecl c ds) := by
  induction ds with
  | nil => simp [insertDecl, Ascending]
  | cons d ds ih =>
    obtain ⟨hd, hds⟩ := List.pairwise_cons.mp h
    unfold insertDecl
    split
    case isTrue hlt =>
      refine List.pairwise_cons.mpr ⟨fun e he => ?_, h⟩
      rcases List.mem_cons.mp he with rfl | he
      · exact hlt
      · exact String.lt_trans hlt (hd e he)
    case isFalse hlt =>
      split
      case isTrue heq => exact List.pairwise_cons.mpr ⟨fun e he => heq ▸ hd e he, hds⟩
      case isFalse heq =>
        have hgt : d.name < c.name :=
          String.not_le.mp fun hle => heq (String.le_antisymm hle (String.not_lt.mp hlt))
        refine List.pairwise_cons.mpr ⟨fun e he => ?_, ih hds⟩
        rcases mem_insertDecl he with rfl | he
        · exact hgt
        · exact hd e he

theorem mem_iff_find? {ds : List ClassDecl} (h : Ascending ds) (d : ClassDecl) :
    d ∈ ds ↔ ds.find? (·.name == d.name) = some d := by
  induction ds with
  | nil => simp
  | cons e ds ih =>
    obtain ⟨he, hds⟩ := List.pairwise_cons.mp h
    by_cases hname : e.name = d.name
    · have hd : d ∉ ds := fun hd => String.lt_irrefl _ (hname ▸ he d hd)
      simp [hname, hd, eq_comm]
    · have hne : d ≠ e := fun hde => hname (hde ▸ rfl)
      simp [hname, hne, ih hds]

/-- A sorted table is determined by what it says of each name. -/
theorem table_eq_of_lookup? {h h' : Hierarchy} (hs : Ascending h.table) (hs' : Ascending h'.table)
    (heq : ∀ name, h.lookup? name = h'.lookup? name) : h.table = h'.table := by
  have nodup : ∀ {ds : List ClassDecl}, Ascending ds → ds.Nodup := by
    intro ds hds
    refine List.Pairwise.imp ?_ hds
    rintro c _ hlt rfl
    exact String.lt_irrefl _ hlt
  refine List.Perm.eq_of_pairwise (fun _ _ _ _ hab hba => absurd hba (String.lt_asymm hab)) hs hs'
    ((List.perm_ext_iff_of_nodup (nodup hs) (nodup hs')).mpr fun d => ?_)
  rw [mem_iff_find? hs, mem_iff_find? hs']
  exact iff_of_eq (congrArg (· = some d) (heq d.name))

/-! ## Links -/

/-- How often a declaration names `p`; a missing one never does. -/
def mentions (o : Option ClassDecl) (p : String) : Nat := (o.map fun d => d.parents.count p).getD 0

theorem count_link (c : ClassDecl) (links : List (String × String)) (p n : String) :
    (link c links).count (p, n) = links.count (p, n) + if n = c.name then c.parents.count p else 0 := by
  unfold link
  rw [List.count_append, Nat.add_left_cancel_iff]
  induction c.parents with
  | nil => simp
  | cons q qs ih =>
    by_cases hn : n = c.name
    · simp only [hn, if_true] at ih ⊢
      simp [List.count_cons, ih]
    · simp only [hn, if_false] at ih ⊢
      simp [ih, Ne.symm hn]

theorem count_foldl_erase (name : String) (ps : List String) (links : List (String × String))
    (p n : String) : (ps.foldl (fun links q => links.erase (q, name)) links).count (p, n) =
      links.count (p, n) - if n = name then ps.count p else 0 := by
  induction ps generalizing links with
  | nil => simp
  | cons q qs ih =>
    rw [List.foldl_cons, ih, List.count_erase]
    by_cases hn : n = name
    · by_cases hq : q = p <;> simp [hn, hq]
      omega
    · simp [hn, Ne.symm hn]

/-- A name that was below `p` as often as its declaration says is no longer below it. -/
theorem count_unlink (old : ClassDecl) {links : List (String × String)}
    (h : ∀ p, links.count (p, old.name) = old.parents.count p) (p n : String) :
    (unlink old links).count (p, n) = if n = old.name then 0 else links.count (p, n) := by
  unfold unlink
  rw [count_foldl_erase]
  by_cases hn : n = old.name
  · have hle : old.parents.count p ≤ (old.superName :: old.interfaces).count p := by
      unfold ClassDecl.parents
      split
      · exact List.count_le_count_cons
      · exact Nat.le_refl _
    subst hn
    rw [h, if_pos rfl, if_pos rfl]
    omega
  · simp [hn]

/-- The table is sorted, and the links are those that the declarations name. -/
structure Orderly (h : Hierarchy) : Prop where
  ascending : Ascending h.table
  links : ∀ p n, h.links.count (p, n) = mentions (h.lookup? n) p

theorem orderly_base : base.Orderly where
  ascending := List.pairwise_singleton _ _
  links p n := by
    by_cases hn : n = Ty.objectClass
    · subst hn
      simp [base, mentions, lookup?, ClassDecl.parents, ClassDecl.superName]
    · simp [base, mentions, lookup?, Ne.symm hn]

theorem name_of_lookup? {h : Hierarchy} {name : String} {d : ClassDecl}
    (hd : h.lookup? name = some d) : d.name = name := by
  simpa using List.find?_some hd

theorem orderly_addClass {h : Hierarchy} (hh : h.Orderly) (c : ClassDecl) : (h.addClass c).Orderly where
  ascending := ascending_insertDecl c hh.ascending
  links p n := by
    rw [lookup?_addClass]
    simp only [addClass, count_link]
    cases hold : h.lookup? c.name with
    | none =>
      by_cases hn : n = c.name
      · subst hn
        simp [hh.links, hold, mentions]
      · simp [hn, hh.links]
    | some old =>
      have hname : old.name = c.name := name_of_lookup? hold
      have hcount : ∀ p, h.links.count (p, old.name) = old.parents.count p := fun p => by
        rw [hh.links, hname, hold]
        rfl
      by_cases hn : n = c.name
      · simp [count_unlink old hcount, hname, hn, mentions]
      · simp [count_unlink old hcount, hname, hn, hh.links]

theorem mem_children {h : Hierarchy} (hh : h.Orderly) (p n : String) :
    n ∈ h.children p ↔ 0 < mentions (h.lookup? n) p := by
  rw [← hh.links, List.count_pos_iff]
  simp [children]

/-! ## What the declarations settle -/

theorem superChainFrom_congr {h h' : Hierarchy} (ht : h.table = h'.table) (seen : List String)
    (c : ClassDecl) : h.superChainFrom seen c = h'.superChainFrom seen c := by
  have hlookup : ∀ name, h.lookup? name = h'.lookup? name := fun name => by rw [lookup?, ht, lookup?]
  induction seen, c using superChainFrom.induct h with
  | case1 seen c hstop => rw [superChainFrom, superChainFrom, dif_pos hstop, dif_pos hstop]
  | case2 seen c hstop hd =>
    rw [superChainFrom, superChainFrom, dif_neg hstop, dif_neg hstop]
    have hd' := (hlookup _).symm.trans hd
    split <;> split <;> simp_all
  | case3 seen c hstop d hd ih =>
    rw [superChainFrom, superChainFrom, dif_neg hstop, dif_neg hstop]
    have hd' := (hlookup _).symm.trans hd
    split <;> split <;> simp_all

theorem superChain_congr {h h' : Hierarchy} (ht : h.table = h'.table) (name : String) :
    h.superChain name = h'.superChain name := by
  unfold superChain lookup?
  rw [ht]
  split
  · rfl
  · exact superChainFrom_congr ht _ _

theorem isDeclared_congr {h h' : Hierarchy} (ht : h.table = h'.table) (name : String) :
    h.isDeclared name = h'.isDeclared name := by
  rw [isDeclared, isDeclared, lookup?, lookup?, ht]

theorem ancestors_congr {h h' : Hierarchy} (ht : h.table = h'.table) (name : String) :
    h.ancestors name = h'.ancestors name := by
  have hi : h.interfaces = h'.interfaces := by
    funext n
    rw [interfaces, interfaces, lookup?, lookup?, ht]
  simp only [ancestors, isDeclared_congr ht, names, ht, superChain_congr ht, hi]

theorem isInstanceOf_congr {h h' : Hierarchy} (ht : h.table = h'.table) (name of : String) :
    h.isInstanceOf name of = h'.isInstanceOf name of := by
  rw [isInstanceOf, isInstanceOf, ancestors_congr ht]

theorem sharedFrom_congr {h h' : Hierarchy} (ht : h.table = h'.table) (b : String) (seen : List String)
    (start : Option ClassDecl) : h.sharedFrom b seen start = h'.sharedFrom b seen start := by
  induction seen, start using sharedFrom.induct h b with
  | case1 seen => rw [sharedFrom, sharedFrom]
  | case2 seen c hstop => rw [sharedFrom, sharedFrom, dif_pos hstop, dif_pos hstop]
  | case3 seen c hstop hshared =>
    have hshared' := (isInstanceOf_congr ht b c.superName).symm.trans hshared
    rw [sharedFrom, sharedFrom, dif_neg hstop, dif_neg hstop, if_pos hshared, if_pos hshared']
  | case4 seen c hstop hshared ih =>
    have hshared' : ¬h'.isInstanceOf b c.superName = true := isInstanceOf_congr ht b c.superName ▸ hshared
    rw [sharedFrom, sharedFrom, dif_neg hstop, dif_neg hstop, if_neg hshared, if_neg hshared', ih]
    rw [lookup?, lookup?, ht]

theorem commonAncestor?_congr {h h' : Hierarchy} (ht : h.table = h'.table) (a b : String) :
    h.commonAncestor? a b = h'.commonAncestor? a b := by
  have hlookup : h.lookup? a = h'.lookup? a := by rw [lookup?, lookup?, ht]
  unfold commonAncestor?
  rw [isInstanceOf_congr ht a b, isInstanceOf_congr ht b a, isDeclared_congr ht a, isDeclared_congr ht b,
    hlookup, sharedFrom_congr ht]

theorem implementations_congr {h h' : Hierarchy} (hh : h.Orderly) (hh' : h'.Orderly)
    (ht : h.table = h'.table) (name : String) :
    h.implementations name = h'.implementations name := by
  have hchildren : ∀ p n, n ∈ h.children p ↔ n ∈ h'.children p := fun p n => by
    rw [mem_children hh, mem_children hh', lookup?, lookup?, ht]
  unfold implementations names
  rw [ht]
  exact sortNames_eq_of_perm (Walk.breadthFirst_perm hchildren (hchildren name))

end Hierarchy

/-! ## Histories -/

/-- What a catalogue can be asked. -/
inductive Question where
  | lookup (name : String)
  | classes
  | size
  | ancestors (name : String)
  | implementations (name : String)
  | isInstanceOf (name of : String)
  | commonAncestor (a b : String)

inductive Reply where
  | decl (d : Option ClassDecl)
  | decls (ds : List ClassDecl)
  | count (n : Nat)
  | names (ns : List String)
  | truth (b : Bool)
  | name (n : Option String)
deriving DecidableEq

inductive Action where
  | add (names : List String)
  | addClass (c : ClassDecl)
  | ask (q : Question)

namespace Hierarchy

def reply (h : Hierarchy) : Question → Reply
  | .lookup name => .decl (h.lookup? name)
  | .classes => .decls h.table
  | .size => .count h.size
  | .ancestors name => .names (h.ancestors name)
  | .implementations name => .names (h.implementations name)
  | .isInstanceOf name of => .truth (h.isInstanceOf name of)
  | .commonAncestor a b => .name (h.commonAncestor? a b)

theorem reply_congr {h h' : Hierarchy} (hh : h.Orderly) (hh' : h'.Orderly)
    (heq : ∀ name, h.lookup? name = h'.lookup? name) (q : Question) : h.reply q = h'.reply q := by
  have ht := table_eq_of_lookup? hh.ascending hh'.ascending heq
  cases q with
  | lookup name => exact congrArg Reply.decl (heq name)
  | classes => exact congrArg Reply.decls ht
  | size => exact congrArg (Reply.count ·.length) ht
  | ancestors name => exact congrArg Reply.names (ancestors_congr ht name)
  | implementations name => exact congrArg Reply.names (implementations_congr hh hh' ht name)
  | isInstanceOf name of => exact congrArg Reply.truth (isInstanceOf_congr ht name of)
  | commonAncestor a b => exact congrArg Reply.name (commonAncestor?_congr ht a b)

end Hierarchy

namespace Catalogue

def ask : Question → Consult Reply
  | .ancestors name => return .names (← ancestors name)
  | .isInstanceOf name of => return .truth (← isInstanceOf name of)
  | .commonAncestor a b => return .name (← commonAncestor? a b)
  | q => return (← get).classes.reply q

theorem answers_ask (h : Hierarchy) (q : Question) : Answers h (ask q) (h.reply q) := by
  have direct : Answers h (do return (← get).classes.reply q) (h.reply q) :=
    answers_get fun k hk => hk.classes ▸ answers_pure _
  cases q with
  | ancestors name => exact answers_bind (answers_ancestors name) (answers_pure _)
  | isInstanceOf name of => exact answers_bind (answers_isInstanceOf name of) (answers_pure _)
  | commonAncestor a b => exact answers_bind (answers_commonAncestor? a b) (answers_pure _)
  | lookup name => exact direct
  | classes => exact direct
  | size => exact direct
  | implementations name => exact direct

def act (k : Catalogue) : Action → Catalogue
  | .add names => k.addPlain names
  | .addClass c => k.addClass c
  | .ask q => ((ask q).run k).2

/-- The catalogue after a history, told and asked in this order. -/
def after (history : List Action) : Catalogue := history.foldl act fresh

end Catalogue

namespace Action

/-- The declaration that the action makes, whatever was declared before. -/
def declares? : Action → Option ClassDecl
  | addClass c => some c
  | _ => none

/-- The names that the action makes known without saying anything about them. -/
def mentions : Action → List String
  | add names => names
  | _ => []

end Action

/-- The final declaration of a name: the last one made for it, or else, where the name has come up,
    a plain one. The universal class is there from the start. -/
def finalDecl? (history : List Action) (name : String) : Option ClassDecl :=
  ((history.filterMap Action.declares?).reverse.find? (·.name == name)).or
    (if name ∈ Ty.objectClass :: history.flatMap Action.mentions then some { name } else none)

/-- A list of the final declarations, each once and in any order. The universal class may be left out
    where it has only ever been plain. -/
structure Finals (history : List Action) (ds : List ClassDecl) : Prop where
  once : (ds.map ClassDecl.name).Nodup
  final : ∀ d ∈ ds, finalDecl? history d.name = some d
  all : ∀ name d, finalDecl? history name = some d → d ∈ ds ∨ d = { name := Ty.objectClass }

namespace Catalogue

/-- The catalogue is right about its classes, and they are in order. -/
structure Orderly (k : Catalogue) : Prop where
  classes : k.classes.Orderly
  shows : k.Shows k.classes

theorem orderly_fresh : fresh.Orderly := ⟨Hierarchy.orderly_base, shows_start _⟩

theorem orderly_addClass {k : Catalogue} (hk : k.Orderly) (c : ClassDecl) : (k.addClass c).Orderly :=
  ⟨Hierarchy.orderly_addClass hk.classes c, shows_start _⟩

theorem orderly_addPlain {k : Catalogue} (hk : k.Orderly) (names : List String) :
    (k.addPlain names).Orderly := by
  induction names generalizing k with
  | nil => exact hk
  | cons name names ih =>
    rw [addPlain, List.foldl_cons]
    split
    · exact ih hk
    · exact ih (orderly_addClass hk _)

theorem classes_ask (k : Catalogue) (hk : k.Orderly) (q : Question) :
    ((ask q).run k).2.classes = k.classes :=
  (hk.shows.after (answers_ask k.classes q)).classes

theorem orderly_act {k : Catalogue} (hk : k.Orderly) (a : Action) : (k.act a).Orderly := by
  cases a with
  | add names => exact orderly_addPlain hk names
  | addClass c => exact orderly_addClass hk c
  | ask q =>
    have hs := hk.shows.after (answers_ask k.classes q)
    have hc : ((ask q).run k).2.classes = k.classes := hs.classes
    exact ⟨hc ▸ hk.classes, hc ▸ hs⟩

theorem lookup?_addPlain (k : Catalogue) (names : List String) (name : String) :
    (k.addPlain names).classes.lookup? name =
      (k.classes.lookup? name).or (if name ∈ names then some { name } else none) := by
  induction names generalizing k with
  | nil => simp [addPlain]
  | cons n ns ih =>
    rw [addPlain, List.foldl_cons]
    cases hn : k.classes.lookup? n with
    | some d =>
      rw [if_pos (by simp [Hierarchy.isDeclared, hn])]
      refine (ih k).trans ?_
      by_cases h : name = n
      · simp [h, hn]
      · simp [h]
    | none =>
      rw [if_neg (by simp [Hierarchy.isDeclared, hn])]
      refine (ih _).trans ?_
      rw [addClass, Hierarchy.lookup?_addClass]
      by_cases h : name = n
      · simp [h, hn]
      · simp [h]

theorem orderly_after (history : List Action) : (after history).Orderly := by
  have run : ∀ k : Catalogue, k.Orderly → (history.foldl act k).Orderly := by
    induction history with
    | nil => exact fun _ hk => hk
    | cons a history ih => exact fun k hk => ih _ (orderly_act hk a)
  exact run fresh orderly_fresh

theorem lookup?_fresh (name : String) :
    fresh.classes.lookup? name = if name = Ty.objectClass then some { name } else none := by
  by_cases hn : name = Ty.objectClass
  · simp [fresh, Hierarchy.base, Hierarchy.lookup?, hn]
  · simp [fresh, Hierarchy.base, Hierarchy.lookup?, hn, Ne.symm hn]

theorem lookup?_foldl_act {k : Catalogue} (hk : k.Orderly) (history : List Action) (name : String) :
    (history.foldl act k).classes.lookup? name =
      ((history.filterMap Action.declares?).reverse.find? (·.name == name)).or
        ((k.classes.lookup? name).or
          (if name ∈ history.flatMap Action.mentions then some { name } else none)) := by
  induction history generalizing k with
  | nil => simp
  | cons a history ih =>
    rw [List.foldl_cons, ih (orderly_act hk a)]
    cases a with
    | add names =>
      rw [act, lookup?_addPlain]
      by_cases hn : name ∈ names
      · cases k.classes.lookup? name <;>
          simp [List.filterMap_cons, Action.declares?, Action.mentions, hn]
      · simp [List.filterMap_cons, Action.declares?, Action.mentions, hn]
    | addClass c =>
      rw [act, addClass, Hierarchy.lookup?_addClass]
      by_cases hn : name = c.name
      · simp [Action.declares?, Action.mentions, hn]
      · simp [Action.declares?, Action.mentions, hn, Ne.symm hn]
    | ask q => simp [act, classes_ask k hk, List.filterMap_cons, Action.declares?, Action.mentions]

/-- After any history the final declarations are in force. -/
theorem lookup?_after (history : List Action) (name : String) :
    (after history).classes.lookup? name = finalDecl? history name := by
  rw [after, lookup?_foldl_act orderly_fresh, finalDecl?]
  congr 1
  rw [lookup?_fresh]
  by_cases hn : name = Ty.objectClass <;> simp [hn]

/-- A fresh catalogue that was only told some declarations, of different names. -/
theorem lookup?_foldl_addClass {ds : List ClassDecl} (hds : (ds.map ClassDecl.name).Nodup)
    (k : Catalogue) (name : String) :
    (ds.foldl addClass k).classes.lookup? name =
      (ds.find? (·.name == name)).or (k.classes.lookup? name) := by
  induction ds generalizing k with
  | nil => rfl
  | cons d ds ih =>
    obtain ⟨hd, hds⟩ := List.nodup_cons.mp hds
    rw [List.foldl_cons, ih hds, addClass, Hierarchy.lookup?_addClass]
    by_cases hn : name = d.name
    · have hfind : ds.find? (·.name == name) = none :=
        List.find?_eq_none.mpr fun e he heq =>
          hd (List.mem_map.mpr ⟨e, he, (beq_iff_eq.mp heq).trans hn⟩)
      simp [hn, hn ▸ hfind]
    · simp [hn, Ne.symm hn]

theorem orderly_foldl_addClass (ds : List ClassDecl) {k : Catalogue} (hk : k.Orderly) :
    (ds.foldl addClass k).Orderly := by
  induction ds generalizing k with
  | nil => exact hk
  | cons d ds ih => exact ih (orderly_addClass hk d)

theorem find?_finals {history : List Action} {ds : List ClassDecl} (hds : Finals history ds)
    (name : String) :
    (ds.find? (·.name == name)).or (fresh.classes.lookup? name) = finalDecl? history name := by
  cases hfind : ds.find? (·.name == name) with
  | some d =>
    have hname : d.name = name := by simpa using List.find?_some hfind
    simpa [hname] using (hds.final d (List.mem_of_find?_eq_some hfind)).symm
  | none =>
    rw [Option.none_or, lookup?_fresh]
    cases hfinal : finalDecl? history name with
    | some d =>
      have hname : d.name = name := by
        rw [← lookup?_after] at hfinal
        exact Hierarchy.name_of_lookup? hfinal
      rcases hds.all name d hfinal with hd | rfl
      · exact absurd (beq_iff_eq.mpr hname) (List.find?_eq_none.mp hfind d hd)
      · simp [← hname]
    | none =>
      have hne : name ≠ Ty.objectClass := by
        rintro rfl
        simp [finalDecl?] at hfinal
      exact if_neg hne

/-- Every question, asked after any history, has the answer of a fresh catalogue that was told the
    final declarations, once each and in any order. -/
theorem answer_independent_of_history {history : List Action} {ds : List ClassDecl}
    (hds : Finals history ds) (q : Question) :
    ((ask q).run (after history)).1 = ((ask q).run (ds.foldl addClass fresh)).1 := by
  have hk := orderly_after history
  have hk' := orderly_foldl_addClass ds orderly_fresh
  rw [hk.shows.answer (answers_ask _ q), hk'.shows.answer (answers_ask _ q)]
  refine Hierarchy.reply_congr hk.classes hk'.classes (fun name => ?_) q
  rw [lookup?_after, lookup?_foldl_addClass hds.once, find?_finals hds]

/-- `A` first stands twice below `B`, which is only mentioned, and is asked about; then it moves below
    `C`. -/
theorem answer_independent_of_history_at_move :
    let history : List Action := [.addClass { name := "A", super := "B", interfaces := ["B", "I"] },
      .ask (.ancestors "A"), .add ["B", "A"], .ask (.implementations "B"),
      .addClass { name := "A", super := "C" }]
    let ds : List ClassDecl := [{ name := "A", super := "C" }, { name := "B" }]
    Finals history ds ∧ ((ask (.implementations "B")).run (after history)).1 =
      ((ask (.implementations "B")).run (ds.foldl addClass fresh)).1 := by
  intro history ds
  have hds : Finals history ds := by
    refine ⟨by decide, by decide, fun name d hd => ?_⟩
    by_cases hA : name = "A"
    · subst hA
      cases hd
      simp [ds]
    · simp [finalDecl?, history, List.filterMap_cons, Action.declares?, Action.mentions, Ne.symm hA,
        hA] at hd
      obtain ⟨rfl | rfl, rfl⟩ := hd <;> simp [ds]
  exact ⟨hds, answer_independent_of_history hds _⟩

end Catalogue

end TypeRecovery
