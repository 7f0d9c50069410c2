import Mathlib.Data.List.Forall2
import TypeRecovery.Proofs.Inference.Endless
import TypeRecovery.Run.Report

/- What the report of a run says of its files. Nothing is lost on the way from a file to the totals: every
   file has its entry, every method of its document is a result or an error there, and every result is
   counted under one status. So a run that does not fail has read every document, built every method,
   settled all of its types and met every expectation as the document words it. There is one way to lose
   everything: a method whose inference finds no end leaves the run without a report. -/
namespace TypeRecovery

/-! ## Expectations -/

namespace Listing

/-- An expectation of a built method says what the document says: the same name, which is known, and
    the type that the text stands for. An empty text stands for no type. -/
structure Worded (named : List (String × VarId)) (typeVars : List TypeVar)
    (declared : String × String) (expected : String × Option Ty) : Prop where
  name : expected.1 = declared.1
  known : ∃ v, List.lookup declared.1 named = some v
  type : ∀ t, expected.2 = some t ↔ declared.2 ≠ "" ∧ Ty.ofText typeVars declared.2 = .ok t

section
variable {d : Draft}

theorem yields_readType? (text : String) : Yields d (readType? [] text) fun t d' =>
    d' = d ∧ ∀ u, t = some u ↔ text ≠ "" ∧ Ty.ofText d.graph.typeVars text = .ok u := by
  unfold readType?
  refine .ite' (fun hempty => ?_) fun hne => .get' ?_
  · exact .pure' ⟨rfl, fun u => by simp [hempty]⟩
  · rw [List.nil_append]
    cases h : Ty.ofText d.graph.typeVars text with
    | error e => exact .throw' e
    | ok t => exact .pure' ⟨rfl, fun u => by simp [hne]⟩

theorem yields_readExpected (name text : String) : Yields d (readExpected name text) fun e d' =>
    d' = d ∧ Worded d.named d.graph.typeVars (name, text) e := by
  refine .get' (.guard' fun hknown => ?_)
  refine .bind' (yields_readType? text).within ?_
  rintro t d' ⟨rfl, ht⟩
  obtain ⟨v, hv⟩ : ∃ v, List.lookup name d'.named = some v := by
    refine Option.ne_none_iff_exists'.mp fun hnone => hknown ?_
    rw [hnone, Option.isNone_none]
  exact .pure' ⟨rfl, rfl, ⟨v, hv⟩, ht⟩

theorem yields_expectations (es : List (String × String)) :
    Yields d (es.mapM fun (name, text) => readExpected name text) fun expect d' =>
      d' = d ∧ List.Forall₂ (Worded d.named d.graph.typeVars) es expect := by
  induction es with
  | nil => exact .pure' ⟨rfl, .nil⟩
  | cons e es ih =>
    rw [List.mapM_cons]
    refine .bind' (yields_readExpected e.1 e.2) ?_
    rintro x d₁ ⟨rfl, hx⟩
    refine .bind' ih ?_
    rintro xs d₂ ⟨rfl, hxs⟩
    exact .pure' ⟨rfl, .cons hx hxs⟩

theorem worded_of_build {m : MethodDecl} {b : Built} (h : m.build = .ok b) :
    List.Forall₂ (Worded b.named b.graph.typeVars) m.expect b.expect := by
  have hyields (d : Draft) : Yields d (buildMethod m) fun expect d' =>
      List.Forall₂ (Worded d'.named d'.graph.typeVars) m.expect expect := by
    have hany {α : Type} (d : Draft) (x : Build Problem α) : Yields d x fun _ _ => True :=
      ⟨fun _ _ _ => trivial⟩
    refine .bind' (hany _ _) fun _ d₁ _ => .bind' (hany _ _) fun _ d₂ _ => ?_
    refine .bind' (hany _ _) fun _ d₃ _ => .bind' (hany _ _) fun _ d₄ _ => ?_
    refine .bind' (hany _ _) fun _ d₅ _ => ⟨fun expect d₆ hx => ?_⟩
    obtain ⟨rfl, hworded⟩ := (yields_expectations m.expect).outcome expect d₆ hx
    exact hworded
  unfold MethodDecl.build at h
  simp only at h
  split at h
  · next expect d hd =>
    cases h
    exact (hyields _).outcome expect d hd
  · cases h

end
end Listing

namespace Run

open Inference (Context infer LosesWay infer_endless_iff)
open Listing (MethodDecl Built)

/-! ## One method -/

/-- Inference of a built method comes to its end, settles every type, and gives the variables that the
    document names the types that it expects. -/
structure Succeeds (c : Context) (m : MethodDecl) (b : Built) : Prop where
  noFault : (infer c b.graph).fault = none
  resolved : (infer c b.graph).resolved = true
  expected : ∀ name text, (name, text) ∈ m.expect → ∃ v, List.lookup name b.named = some v ∧
    text ≠ "" ∧ Ty.ofText b.graph.typeVars text = .ok ((infer c b.graph).graph.var v).ty

section
variable {c : Context} {m : MethodDecl} {b : Built} {g : MethodGraph}

theorem mismatches_eq_nil : mismatches b g = [] ↔ ∀ e ∈ b.expect,
    e.2 = some (((List.lookup e.1 b.named).map fun v => (g.var v).ty).getD Ty.anything) := by
  rw [mismatches, ← List.length_eq_zero_iff, List.length_mergeSort, List.length_eq_zero_iff,
    List.filterMap_eq_nil_iff]
  refine forall₂_congr fun e _ => ?_
  simp

/-- No mismatch is left exactly if the variables have the types that the document expects. -/
theorem mismatches_eq_nil_iff (h : m.build = .ok b) : mismatches b g = [] ↔
    ∀ name text, (name, text) ∈ m.expect → ∃ v, List.lookup name b.named = some v ∧
      text ≠ "" ∧ Ty.ofText b.graph.typeVars text = .ok (g.var v).ty := by
  have hworded := Listing.worded_of_build h
  rw [mismatches_eq_nil]
  generalize m.expect = ds at hworded
  generalize b.expect = es at hworded
  induction hworded with
  | nil => simp
  | @cons d e ds es he _ ih =>
    obtain ⟨v, hv⟩ := he.known
    have hone : e.2 = some (((List.lookup e.1 b.named).map fun v => (g.var v).ty).getD Ty.anything) ↔
        ∃ v, List.lookup d.1 b.named = some v ∧
          d.2 ≠ "" ∧ Ty.ofText b.graph.typeVars d.2 = .ok (g.var v).ty := by
      rw [he.name, hv, Option.map_some, Option.getD_some, he.type]
      simp
    rw [List.forall_mem_cons]
    refine (and_congr hone ih).trans ?_
    constructor
    · rintro ⟨hd, hds⟩ name text hmem
      rcases List.mem_cons.mp hmem with rfl | hmem
      · exact hd
      · exact hds name text hmem
    · intro hall
      exact ⟨hall d.1 d.2 List.mem_cons_self, fun name text hmem =>
        hall name text (List.mem_cons_of_mem d hmem)⟩

theorem status_eq_ok (r : MethodResult) :
    r.status = .ok ↔ r.outcome.fault = none ∧ r.mismatches = [] ∧ r.outcome.resolved = true := by
  unfold MethodResult.status
  cases r.outcome.fault <;> cases r.mismatches <;> cases r.outcome.resolved <;> simp

/-- A method has no result just if its inference loses its way. -/
theorem of_eq_none_iff : MethodResult.of c b = none ↔ LosesWay c b.graph := by
  rw [← infer_endless_iff, MethodResult.of]
  simp

theorem eq_of_of_eq_some {r : MethodResult} (hr : MethodResult.of c b = some r) :
    r = ⟨b, infer c b.graph, mismatches b (infer c b.graph).graph⟩ := by
  unfold MethodResult.of at hr
  simp only at hr
  split at hr
  · cases hr
  · exact (Option.some.inj hr).symm

theorem status_of (h : m.build = .ok b) {r : MethodResult} (hr : MethodResult.of c b = some r) :
    r.status = .ok ↔ Succeeds c m b := by
  rw [status_eq_ok, eq_of_of_eq_some hr]
  constructor
  · rintro ⟨hfault, hmismatches, hresolved⟩
    exact ⟨hfault, hresolved, (mismatches_eq_nil_iff h).mp hmismatches⟩
  · intro hs
    exact ⟨hs.noFault, (mismatches_eq_nil_iff h).mpr hs.expected, hs.resolved⟩

end

/-! ## One document -/

/-- The methods of a listing, parted into results and errors, each in the order of the listing. -/
inductive Accounted (c : Context) (path : String) :
    List MethodDecl → List MethodResult → List String → Prop where
  | none : Accounted c path [] [] []
  | result {m : MethodDecl} {ms : List MethodDecl} {b : Built} {r : MethodResult}
      {rs : List MethodResult} {es : List String} (h : m.build = .ok b)
      (hr : MethodResult.of c b = some r) (rest : Accounted c path ms rs es) :
      Accounted c path (m :: ms) (r :: rs) es
  | error {m : MethodDecl} {ms : List MethodDecl} {e : Listing.BuildError} {rs : List MethodResult}
      {es : List String} (h : m.build = .error e) (rest : Accounted c path ms rs es) :
      Accounted c path (m :: ms) rs (s!"{path}: {e.message}" :: es)

/-- What the methods of a listing are inferred under. -/
def Setup.context (s : Setup) (l : Listing) : Context :=
  { hierarchy := FileReport.hierarchy s l, config := s.config, traced := s.traced }

/-- The entry of a file: one error if no document is read, or one that gives no listing, and else the methods
    of the listing. -/
inductive Entry (s : Setup) (path : String) : Except FileError Document → FileReport → Prop where
  | unread {e : FileError} : Entry s path (.error e) { path, errors := [e.message path], methods := [] }
  | refused {d : Document} {e : DocumentError} (h : Listing.ofDocument path d = .error e) :
      Entry s path (.ok d) { path, errors := [e.message path], methods := [] }
  | listed {d : Document} {l : Listing} {errors : List String} {methods : List MethodResult}
      (h : Listing.ofDocument path d = .ok l)
      (accounted : Accounted (s.context l) path l.methods methods errors) :
      Entry s path (.ok d) { path, errors, methods }

/-- Nothing in an entry needs attention. -/
def FileReport.Clean (f : FileReport) : Prop := f.errors = [] ∧ ∀ r ∈ f.methods, r.status = .ok

/-- A document is read and gives a listing, and its methods are built and inferred with success. -/
def Passing (s : Setup) (path : String) (read : Except FileError Document) : Prop :=
  ∃ d l, read = .ok d ∧ Listing.ofDocument path d = .ok l ∧
    ∀ m ∈ l.methods, ∃ b, m.build = .ok b ∧ Succeeds (s.context l) m b

/-- A document is read and gives a listing with a method that is built and whose inference loses its
    way. -/
def Stuck (s : Setup) (path : String) (read : Except FileError Document) : Prop :=
  ∃ d l, read = .ok d ∧ Listing.ofDocument path d = .ok l ∧
    ∃ m ∈ l.methods, ∃ b, m.build = .ok b ∧ LosesWay (s.context l) b.graph

section
variable {α β : Type} {f : α → Option β} {l : List α}

theorem mapM_eq_none_iff : l.mapM f = none ↔ ∃ a ∈ l, f a = none := by
  induction l with
  | nil => simp
  | cons a l ih => cases ha : f a <;> cases hl : l.mapM f <;> simp_all

theorem mapM_eq_some_iff {bs : List β} : l.mapM f = some bs ↔ List.Forall₂ (f · = some ·) l bs := by
  induction l generalizing bs with
  | nil => cases bs <;> simp
  | cons a l ih =>
    rw [List.mapM_cons]
    cases bs with
    | nil => cases f a <;> cases l.mapM f <;> simp
    | cons b bs =>
      rw [List.forall₂_cons, ← ih]
      cases f a <;> cases l.mapM f <;> simp

end

section
variable {c : Context} {s : Setup} {path : String} {read : Except FileError Document} {f : FileReport}

theorem accounted_build {ms : List MethodDecl} {rs : List MethodResult}
    (hrs : ((ms.map MethodDecl.build).filterMap Except.toOption).mapM (MethodResult.of c) = some rs) :
    Accounted c path ms rs ((ms.map MethodDecl.build).filterMap fun
      | .error e => some s!"{path}: {e.message}"
      | .ok _ => none) := by
  induction ms generalizing rs with
  | nil =>
    cases hrs
    exact .none
  | cons m ms ih =>
    simp only [mapM_eq_some_iff] at hrs ih
    cases h : m.build with
    | error e =>
      simp only [List.map_cons, h, List.filterMap_cons, Except.toOption] at hrs ⊢
      exact .error h (ih hrs)
    | ok b =>
      simp only [List.map_cons, h, List.filterMap_cons, Except.toOption] at hrs ⊢
      cases hrs with
      | cons hr hrest => exact .result h hr (ih hrest)

/-- Only a listing can leave a file without an entry. -/
theorem ofRead_eq_none_iff (hlive : s.cancelled = false) :
    FileReport.ofRead s path read = none ↔ Stuck s path read := by
  unfold FileReport.ofRead Stuck
  cases read with
  | error e => simp
  | ok d =>
    cases hl : Listing.ofDocument path d with
    | error e => simp [hl]
    | ok l =>
      simp only [hl, FileReport.ofListing, hlive, Bool.false_and, Bool.false_eq_true, if_false,
        Option.map_eq_none_iff, mapM_eq_none_iff, of_eq_none_iff]
      constructor
      · intro h
        obtain ⟨b, hb, hlost⟩ := h
        obtain ⟨x, hx, hxb⟩ := List.mem_filterMap.mp hb
        obtain ⟨m, hm, rfl⟩ := List.mem_map.mp hx
        exact ⟨d, l, rfl, hl, m, hm, b, Inference.ok_of_toOption hxb, hlost⟩
      · intro h
        obtain ⟨_, _, hd, hl', m, hm, b, hb, hlost⟩ := h
        cases hd
        cases hl.symm.trans hl'
        refine ⟨b, List.mem_filterMap.mpr ⟨m.build, List.mem_map_of_mem hm, ?_⟩, hlost⟩
        rw [hb]
        rfl

theorem entry_ofRead (hlive : s.cancelled = false) (h : FileReport.ofRead s path read = some f) :
    Entry s path read f := by
  unfold FileReport.ofRead at h
  cases read with
  | error e =>
    cases h
    exact .unread
  | ok d =>
    simp only at h
    split at h
    · next e he =>
      cases h
      exact .refused he
    · next l hl =>
      rw [FileReport.ofListing, hlive, Bool.false_and, if_neg Bool.false_ne_true] at h
      obtain ⟨rs, hrs, rfl⟩ := Option.map_eq_some_iff.mp h
      exact .listed hl (accounted_build hrs)

theorem clean_accounted {ms : List MethodDecl} {rs : List MethodResult} {es : List String}
    (h : Accounted c path ms rs es) : (es = [] ∧ ∀ r ∈ rs, r.status = .ok) ↔
      ∀ m ∈ ms, ∃ b, m.build = .ok b ∧ Succeeds c m b := by
  induction h with
  | none => simp
  | @result m ms b r rs es hb hr _ ih =>
    have hone : (∃ b, m.build = .ok b ∧ Succeeds c m b) ↔ Succeeds c m b := by
      simp [hb]
    rw [List.forall_mem_cons, List.forall_mem_cons, ← ih, hone, status_of hb hr, and_left_comm]
  | error he _ ih => simp [he]

/-- Nothing in an entry needs attention exactly if the file passes. -/
theorem clean_entry (h : Entry s path read f) : f.Clean ↔ Passing s path read := by
  cases h with
  | unread => simp [FileReport.Clean, Passing]
  | refused he => simp [FileReport.Clean, Passing, he]
  | @listed d l _ _ hl haccounted =>
    rw [FileReport.Clean, clean_accounted haccounted]
    simp [Passing, hl]

theorem clean_entries {found : String → Except FileError Document} {paths : List String}
    {fs : List FileReport} (h : List.Forall₂ (fun path f => Entry s path (found path) f) paths fs) :
    (∀ f ∈ fs, f.Clean) ↔ ∀ path ∈ paths, Passing s path (found path) := by
  induction h with
  | nil => simp
  | cons he _ ih => rw [List.forall_mem_cons, List.forall_mem_cons, clean_entry he, ih]

end

/-! ## The whole run -/

/-- The report on what is found under paths. -/
def reportOn (s : Setup) (found : String → Except FileError Document) (paths : List String) :
    Option Report :=
  (paths.mapM fun path => FileReport.ofRead s path (found path)).map Report.mk

section
variable {r : Report}

theorem run_bind_of_look {σ α β : Type} {x : OptionT (StateM σ) α} {f : α → OptionT (StateM σ) β} {t : σ}
    {found : Option α} (hx : (x.run).run t = (found, t)) :
    ((x >>= f).run).run t = found.elim (none, t) fun a => ((f a).run).run t := by
  rw [OptionT.run_bind, Option.elimM, StateT.run_bind, hx]
  cases found <;> rfl

/-- If reading a file is just a look at the state, then a run reports on what it finds there and leaves
    the state alone. -/
theorem overFiles_run {σ : Type} {files : FileAccess (StateM σ)}
    {look : σ → String → Except FileError Document}
    (hread : ∀ path t, (files.read path).run t = (look t path, t)) (s : Setup) (t : σ)
    (paths : List String) :
    ((overFiles files s paths).run).run t = (reportOn s (look t) paths, t) := by
  let entry (path : String) : OptionT (StateM σ) FileReport :=
    OptionT.mk (return FileReport.ofRead s path (← files.read path))
  have hentry (path : String) : ((entry path).run).run t = (FileReport.ofRead s path (look t path), t) := by
    change ((return FileReport.ofRead s path (← files.read path) : StateM σ _)).run t = _
    rw [StateT.run_bind, hread]
    rfl
  have hentries : ((paths.mapM entry).run).run t =
      (paths.mapM fun path => FileReport.ofRead s path (look t path), t) := by
    induction paths with
    | nil => rfl
    | cons path paths ih =>
      rw [List.mapM_cons, List.mapM_cons, run_bind_of_look (hentry path)]
      cases FileReport.ofRead s path (look t path) with
      | none => rfl
      | some f =>
        rw [Option.elim_some, run_bind_of_look ih]
        cases paths.mapM fun path => FileReport.ofRead s path (look t path) <;> rfl
  rw [overFiles, run_bind_of_look hentries, reportOn]
  cases paths.mapM fun path => FileReport.ofRead s path (look t path) <;> rfl

/-- Each method has one of the four statuses, so the counts make up the number of methods. -/
theorem summary_adds_up (r : Report) : r.summary.resolved + r.summary.unresolved + r.summary.aborted +
    r.summary.mismatched = r.summary.methods := by
  simp only [Report.summary]
  induction r.methods with
  | nil => rfl
  | cons x xs ih =>
    simp only [List.countP_cons, List.length_cons]
    cases x.status <;> simp <;> omega

theorem failed_eq_false : r.failed = false ↔ ∀ f ∈ r.files, f.Clean := by
  have hstatus : (∀ x ∈ r.methods, x.status = .ok) ↔ r.summary.unresolved = 0 ∧
      r.summary.aborted = 0 ∧ r.summary.mismatched = 0 := by
    simp only [Report.summary, List.countP_eq_zero, beq_iff_eq]
    constructor
    · intro hok
      refine ⟨fun x hx => ?_, fun x hx => ?_, fun x hx => ?_⟩ <;> simp [hok x hx]
    · rintro ⟨hu, ha, hm⟩ x hx
      have hu := hu x hx
      have ha := ha x hx
      have hm := hm x hx
      cases h : x.status <;> simp_all
  have herrors : r.summary.fileErrors = 0 ↔ ∀ f ∈ r.files, f.errors = [] := by
    simp only [Report.summary, List.length_eq_zero_iff, List.flatMap_eq_nil_iff]
  calc r.failed = false
      ↔ r.summary.fileErrors = 0 ∧ r.summary.unresolved = 0 ∧ r.summary.aborted = 0 ∧
          r.summary.mismatched = 0 := by simp [Report.failed, and_assoc]
    _ ↔ (∀ f ∈ r.files, f.errors = []) ∧ ∀ x ∈ r.methods, x.status = .ok := by rw [herrors, hstatus]
    _ ↔ ∀ f ∈ r.files, f.Clean := by
      simp only [Report.methods, List.mem_flatMap, FileReport.Clean]
      grind

end

/-- A run that is not called off, over files that it can look into. There is no report just if one of the
    files lists a method whose inference loses its way. Else each file has its entry, in order; the counts
    add up; and the run does not fail exactly if every file passes. Where all variables of a method have a
    definition, its inference loses its way just if it comes to inserting moves in a graph in which the
    moves of some phi lead around in a circle. -/
theorem run_accounts_for_all {σ : Type} (files : FileAccess (StateM σ))
    (look : σ → String → Except FileError Document)
    (hread : ∀ path t, (files.read path).run t = (look t path, t)) {s : Setup}
    (hlive : s.cancelled = false) (t : σ) (paths : List String) :
    let answer := (((overFiles files s paths).run).run t).1
    (answer = none ↔ ∃ path ∈ paths, Stuck s path (look t path)) ∧
    (∀ r, answer = some r →
      List.Forall₂ (fun path f => Entry s path (look t path) f) paths r.files ∧
      r.summary.resolved + r.summary.unresolved + r.summary.aborted + r.summary.mismatched =
        r.summary.methods ∧
      (r.failed = false ↔ ∀ path ∈ paths, Passing s path (look t path))) ∧
    ∀ (c : Context) (m : MethodDecl) (b : Built), m.build = .ok b → Inference.Defined b.graph →
      (LosesWay c b.graph ↔ b.graph.noCode = false ∧
        ∃ u, Inference.ComesTo c b.graph .insertMoves u ∧
          ∃ d ∈ u.graph.blockIds, ∃ phi ∈ u.graph.leadingPhis d, Inference.Snared u.graph phi) := by
  intro answer
  have hanswer : answer = reportOn s (look t) paths := by
    rw [show answer = (reportOn s (look t) paths, t).1 from
      congrArg Prod.fst (overFiles_run hread s t paths)]
  rw [hanswer, reportOn]
  refine ⟨?_, ?_, fun c m b hb hdef => Inference.losesWay_iff hb hdef⟩
  · rw [Option.map_eq_none_iff, mapM_eq_none_iff]
    exact exists_congr fun path => and_congr_right fun _ => ofRead_eq_none_iff hlive
  · intro r hr
    obtain ⟨fs, hfs, rfl⟩ := Option.map_eq_some_iff.mp hr
    have hentries : List.Forall₂ (fun path f => Entry s path (look t path) f) paths fs :=
      (mapM_eq_some_iff.mp hfs).imp fun _ _ h => entry_ofRead hlive h
    refine ⟨hentries, summary_adds_up _, ?_⟩
    rw [failed_eq_false]
    exact clean_entries hentries

/-- A document with one method, in which a number is read and an expectation is stated. -/
def numberDocument (expected : String) : Document :=
  .mapping [("methods", .list [.mapping [
    ("class", .text "a.Main"), ("name", .text "run"),
    ("blocks", .list [.mapping [("insns", .list [
      .mapping [("op", .text "const"), ("result", .text "n:int"), ("args", .list [.text "#7"])],
      .mapping [("op", .text "return"), ("args", .list [.text "n:int"])]])]]),
    ("expect", .mapping [("n", .text expected)])]])]

/-- A document with one method: a number and a text meet in a block that jumps to itself. -/
def circleDocument : Document :=
  .mapping [("methods", .list [.mapping [
    ("class", .text "a.Main"), ("name", .text "run"),
    ("params", .list [.mapping [("var", .text "p"), ("type", .text "int")],
      .mapping [("var", .text "q"), ("type", .text "java.lang.String")]]),
    ("blocks", .list [.mapping [
      ("insns", .list [
        .mapping [("op", .text "phi"), ("result", .text "v"), ("args", .list [.text "p", .text "q"]),
          ("from", .list [.int 0, .int 0])],
        .mapping [("op", .text "goto")]]),
      ("succs", .list [.int 0])]])]])]

/-- Of four files one passes, one expects another type and one holds no document, so the run over these
    fails. The last one leaves the run without a report. -/
theorem run_tells_documents_apart :
    let s : Setup := {}
    let files := FileTree.access fun name => { file := some name }
    let t : FileTree := { files := [("a.yaml", .document (numberDocument "int")),
      ("b.yaml", .document (numberDocument "java.lang.String")), ("c.db", .store {}),
      ("d.yaml", .document circleDocument)] }
    s.cancelled = false ∧ (∀ path t, (files.read path).run t = (FileTree.read t path, t)) ∧
      Passing s "a.yaml" (t.read "a.yaml") ∧ ¬Passing s "b.yaml" (t.read "b.yaml") ∧
      ¬Passing s "c.db" (t.read "c.db") ∧ Stuck s "d.yaml" (t.read "d.yaml") := by
  intro s files t
  have hread : ∀ path t, (files.read path).run t = (FileTree.read t path, t) := fun _ _ => rfl
  have hlive : s.cancelled = false := rfl
  let failed (path : String) : Option Bool := ((((overFiles files s [path]).run).run t).1).map Report.failed
  have hanswers : failed "a.yaml" = some false ∧ failed "b.yaml" = some true ∧
      failed "c.db" = some true ∧ failed "d.yaml" = none := by decide +kernel
  have hpasses (path : String) (answer : Bool) (h : failed path = some answer) :
      answer = false ↔ Passing s path (t.read path) := by
    obtain ⟨r, hr, rfl⟩ := Option.map_eq_some_iff.mp h
    obtain ⟨-, hreport, -⟩ := run_accounts_for_all files FileTree.read hread hlive t [path]
    obtain ⟨-, -, hpass⟩ := hreport r hr
    exact hpass.trans List.forall_mem_singleton
  obtain ⟨ha, hb, hc, hd⟩ := hanswers
  obtain ⟨hnone, -⟩ := run_accounts_for_all files FileTree.read hread hlive t ["d.yaml"]
  obtain ⟨path, hpath, hstuck⟩ := hnone.mp (Option.map_eq_none_iff.mp hd)
  obtain rfl := List.mem_singleton.mp hpath
  refine ⟨hlive, hread, (hpasses _ _ ha).mp rfl, ?_, ?_, hstuck⟩
  · intro hpass
    cases (hpasses _ _ hb).mpr hpass
  · intro hpass
    cases (hpasses _ _ hc).mpr hpass

end Run
end TypeRecovery
