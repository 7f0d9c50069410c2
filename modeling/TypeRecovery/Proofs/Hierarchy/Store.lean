import Mathlib.Data.List.Dedup
import TypeRecovery.Hierarchy.Store
import TypeRecovery.Proofs.Hierarchy.History
import TypeRecovery.Proofs.Text.Split

/- What a store gives back. A saved class is spread over a row, some rows for its interfaces and one
   column for its type parameters. Still the store always holds a table of declarations (`Holds`), and
   saving a graph lays its table over that one. So what is loaded are the declarations of the graphs
   saved last, as long as the separator of the column does not come up inside it. -/
namespace TypeRecovery

open Hierarchy (Ascending insertDecl)

namespace Hierarchy

/-! ## Tables laid over one another -/

/-- A table with some declarations laid over it. -/
def overlay (ds cs : List ClassDecl) : List ClassDecl := cs.foldl (fun ds c => insertDecl c ds) ds

theorem ascending_overlay {ds : List ClassDecl} (h : Ascending ds) (cs : List ClassDecl) :
    Ascending (overlay ds cs) := by
  induction cs generalizing ds with
  | nil => exact h
  | cons c cs ih => exact ih (ascending_insertDecl c h)

theorem nodup_names {ds : List ClassDecl} (h : Ascending ds) : (ds.map ClassDecl.name).Nodup := by
  refine List.pairwise_map.mpr (List.Pairwise.imp ?_ h)
  intro c d hlt heq
  exact String.lt_irrefl _ (heq ▸ hlt)

theorem find?_overlay (ds : List ClassDecl) {cs : List ClassDecl} (hcs : Ascending cs) (name : String) :
    (overlay ds cs).find? (·.name == name) =
      (cs.find? (·.name == name)).or (ds.find? (·.name == name)) := by
  induction cs generalizing ds with
  | nil => rfl
  | cons c cs ih =>
    obtain ⟨hc, hcs⟩ := List.pairwise_cons.mp hcs
    rw [overlay, List.foldl_cons]
    refine (ih _ hcs).trans ?_
    rw [find?_insertDecl]
    by_cases hn : name = c.name
    · have hfind : cs.find? (·.name == name) = none :=
        List.find?_eq_none.mpr fun d hd heq =>
          String.lt_irrefl _ ((beq_iff_eq.mp heq).trans hn ▸ hc d hd)
      simp [hn, hn ▸ hfind]
    · simp [hn, Ne.symm hn]

/-- The declaration of a name in the last of some graphs that has one. -/
def lastDecl? (graphs : List Hierarchy) (name : String) : Option ClassDecl :=
  graphs.reverse.findSome? (·.lookup? name)

/-- The tables of some graphs, each over those before it. -/
def layers (graphs : List Hierarchy) : List ClassDecl :=
  graphs.foldl (fun ds h => overlay ds h.table) []

theorem ascending_layers (graphs : List Hierarchy) : Ascending (layers graphs) := by
  have run : ∀ ds, Ascending ds →
      Ascending (graphs.foldl (fun ds h => overlay ds h.table) ds) := by
    induction graphs with
    | nil => exact fun _ h => h
    | cons h graphs ih => exact fun ds hds => ih _ (ascending_overlay hds h.table)
  exact run [] .nil

theorem find?_layers {graphs : List Hierarchy} (hasc : ∀ h ∈ graphs, Ascending h.table)
    (name : String) : (layers graphs).find? (·.name == name) = lastDecl? graphs name := by
  have run : ∀ ds, (graphs.foldl (fun ds h => overlay ds h.table) ds).find? (·.name == name) =
      (lastDecl? graphs name).or (ds.find? (·.name == name)) := by
    induction graphs with
    | nil => exact fun _ => rfl
    | cons h graphs ih =>
      intro ds
      rw [List.foldl_cons, ih (fun k hk => hasc k (List.mem_cons_of_mem _ hk)),
        find?_overlay ds (hasc h List.mem_cons_self), lastDecl?, lastDecl?, List.reverse_cons,
        List.findSome?_append, ← Option.or_assoc]
      simp [lookup?]
  exact (run []).trans (Option.or_none)

theorem lastDecl?_isSome {graphs : List Hierarchy} {name : String} :
    (lastDecl? graphs name).isSome ↔ name ∈ graphs.flatMap names := by
  rw [lastDecl?, List.findSome?_isSome_iff, List.mem_flatMap]
  simp [names, lookup?]

/-! ## Graphs built from declarations -/

theorem classes_foldl_addClass (ds : List ClassDecl) (k : Catalogue) :
    (ds.foldl Catalogue.addClass k).classes = ds.foldl addClass k.classes := by
  induction ds generalizing k with
  | nil => rfl
  | cons d ds ih => exact ih _

theorem ofClasses_eq (ds : List ClassDecl) :
    ofClasses ds = (ds.foldl Catalogue.addClass Catalogue.fresh).classes :=
  (classes_foldl_addClass ds Catalogue.fresh).symm

theorem orderly_ofClasses (ds : List ClassDecl) : (ofClasses ds).Orderly := by
  rw [ofClasses_eq]
  exact (Catalogue.orderly_foldl_addClass ds Catalogue.orderly_fresh).classes

theorem lookup?_ofClasses {ds : List ClassDecl} (hds : (ds.map ClassDecl.name).Nodup) (name : String) :
    (ofClasses ds).lookup? name = (ds.find? (·.name == name)).or
      (if name = Ty.objectClass then some { name } else none) := by
  rw [ofClasses_eq, Catalogue.lookup?_foldl_addClass hds, Catalogue.lookup?_fresh]

/-- A graph that declaring and asking lead to. -/
def Built (h : Hierarchy) : Prop := ∃ history, h = (Catalogue.after history).classes

theorem Built.ascending {h : Hierarchy} (hb : h.Built) : Ascending h.table := by
  obtain ⟨history, rfl⟩ := hb
  exact (Catalogue.orderly_after history).classes.ascending

theorem Built.lookup?_object {h : Hierarchy} (hb : h.Built) : (h.lookup? Ty.objectClass).isSome := by
  obtain ⟨history, rfl⟩ := hb
  rw [Catalogue.lookup?_after, finalDecl?, Option.isSome_or]
  simp

/-- The declarations that the last of some graphs have, once each and in any order. -/
structure LastDecls (graphs : List Hierarchy) (ds : List ClassDecl) : Prop where
  once : (ds.map ClassDecl.name).Nodup
  last : ∀ d, d ∈ ds ↔ lastDecl? graphs d.name = some d

theorem LastDecls.find? {graphs : List Hierarchy} {ds : List ClassDecl} (h : LastDecls graphs ds)
    (name : String) : ds.find? (·.name == name) = lastDecl? graphs name := by
  cases hfind : ds.find? (·.name == name) with
  | some d =>
    have hname : d.name = name := by simpa using List.find?_some hfind
    exact ((h.last d).mp (List.mem_of_find?_eq_some hfind) ▸ hname ▸ rfl)
  | none =>
    cases hlast : lastDecl? graphs name with
    | none => rfl
    | some d =>
      obtain ⟨k, -, hk⟩ := List.exists_of_findSome?_eq_some hlast
      obtain rfl := name_of_lookup? hk
      exact absurd (beq_self_eq_true d.name) (List.find?_eq_none.mp hfind d ((h.last d).mpr hlast))

/-- A graph built from them holds no more than them, as the universal class is one of them. -/
theorem LastDecls.lookup?_ofClasses {graphs : List Hierarchy} {ds : List ClassDecl}
    (h : LastDecls graphs ds) (hobj : (lastDecl? graphs Ty.objectClass).isSome) (name : String) :
    (ofClasses ds).lookup? name = lastDecl? graphs name := by
  rw [Hierarchy.lookup?_ofClasses h.once, h.find?]
  by_cases hn : name = Ty.objectClass
  · obtain ⟨d, hd⟩ := Option.isSome_iff_exists.mp hobj
    rw [hn, hd, Option.some_or]
  · rw [if_neg hn, Option.or_none]

theorem lastDecls_layers {graphs : List Hierarchy} (hasc : ∀ h ∈ graphs, Ascending h.table) :
    LastDecls graphs (layers graphs) where
  once := nodup_names (ascending_layers graphs)
  last d := by rw [mem_iff_find? (ascending_layers graphs), find?_layers hasc]

end Hierarchy

namespace ClassStore

open Hierarchy (Built LastDecls lastDecl? layers overlay)

/-! ## The column of type parameters -/

/-- Parameters that share a column without loss: none holds the separator, and they are not a single
    empty one, whose column would look like that of none. -/
def Storable (params : List String) : Prop := (∀ p ∈ params, ',' ∉ p.toList) ∧ params ≠ [""]

instance (params : List String) : Decidable (Storable params) := inferInstanceAs (Decidable (_ ∧ _))

theorem toList_joinParams (p q : String) (params : List String) :
    (joinParams (p :: q :: params)).toList = p.toList ++ ',' :: (joinParams (q :: params)).toList := by
  simp [joinParams, String.intercalate_cons_cons]

theorem splitAt_joinParams {params : List String} (hne : params ≠ []) (h : ∀ p ∈ params, ',' ∉ p.toList) :
    (Text.splitAt ',' (joinParams params).toList).map String.ofList = params := by
  induction params with
  | nil => contradiction
  | cons p params ih =>
    have hp := h p List.mem_cons_self
    cases params with
    | nil => simp [joinParams, Text.splitAt_of_not_mem hp]
    | cons q params =>
      rw [toList_joinParams, Text.splitAt_append hp, List.map_cons,
        ih (by simp) fun r hr => h r (List.mem_cons_of_mem _ hr), String.ofList_toList]

theorem splitParams_joinParams {params : List String} (h : Storable params) :
    splitParams (joinParams params) = params := by
  unfold splitParams
  cases params with
  | nil => rfl
  | cons p params =>
    have hcol : joinParams (p :: params) ≠ "" := by
      cases params with
      | nil => simpa [joinParams] using h.2
      | cons q params =>
        intro hempty
        have htext := congrArg String.toList hempty
        rw [toList_joinParams] at htext
        simp at htext
    rw [if_neg hcol, splitAt_joinParams (by simp) h.1]

/-! ## Saving -/

/-- The store holds these declarations. -/
structure Holds (s : ClassStore) (ds : List ClassDecl) : Prop where
  classes : s.classes = ds.map rowOf
  interfaces : ∀ d ∈ ds, s.interfacesOf d.name = d.interfaces

theorem upsertRow_rowOf (c : ClassDecl) (ds : List ClassDecl) :
    upsertRow (rowOf c) (ds.map rowOf) = (insertDecl c ds).map rowOf := by
  induction ds with
  | nil => rfl
  | cons d ds ih =>
    rw [List.map_cons, upsertRow, insertDecl, ih]
    by_cases hlt : c.name < d.name
    · rw [if_pos hlt]
      exact if_pos hlt
    · rw [if_neg hlt]
      refine (if_neg hlt).trans ?_
      by_cases heq : c.name = d.name
      · rw [if_pos heq]
        exact if_pos heq
      · rw [if_neg heq]
        exact if_neg heq

theorem interfacesOf_put (s : ClassStore) (c : ClassDecl) (name : String) :
    (s.put c).interfacesOf name = if name = c.name then c.interfaces else s.interfacesOf name := by
  have hrows : ∀ r ∈ interfaceRows c, r.cls = c.name := by
    simp only [interfaceRows, List.mem_map]
    rintro _ ⟨_, -, rfl⟩
    rfl
  have hnames : (interfaceRows c).map InterfaceRow.interface = c.interfaces := by
    simp [interfaceRows, Function.comp_def]
  unfold interfacesOf put
  rw [List.filter_append, List.filter_filter]
  by_cases hn : name = c.name
  · have hold : s.interfaces.filter (fun r => r.cls == name && r.cls != c.name) = [] :=
      List.filter_eq_nil_iff.mpr fun r _ => by simp [hn]
    have hnew : (interfaceRows c).filter (·.cls == name) = interfaceRows c :=
      List.filter_eq_self.mpr fun r hr => by simp [hrows r hr, hn]
    rw [hold, hnew, List.nil_append, if_pos hn, hnames]
  · have hold : s.interfaces.filter (fun r => r.cls == name && r.cls != c.name) =
        s.interfaces.filter (·.cls == name) :=
      List.filter_congr fun r _ => by by_cases hr : r.cls = name <;> simp [hr, hn]
    have hnew : (interfaceRows c).filter (·.cls == name) = [] :=
      List.filter_eq_nil_iff.mpr fun r hr => by simp [hrows r hr, Ne.symm hn]
    rw [hold, hnew, List.append_nil, if_neg hn]

/-- Storing a class lays it over what the store holds. -/
theorem holds_put {s : ClassStore} {ds : List ClassDecl} (hasc : Ascending ds) (h : s.Holds ds)
    (c : ClassDecl) : (s.put c).Holds (insertDecl c ds) where
  classes := by rw [put, h.classes, upsertRow_rowOf]
  interfaces d hd := by
    rw [Hierarchy.mem_iff_find? (Hierarchy.ascending_insertDecl c hasc), Hierarchy.find?_insertDecl] at hd
    rw [interfacesOf_put]
    split at hd
    · next hn => rw [if_pos hn, Option.some.inj hd]
    · next hn => rw [if_neg hn, h.interfaces d ((Hierarchy.mem_iff_find? hasc d).mpr hd)]

theorem holds_save {s : ClassStore} {ds : List ClassDecl} (hasc : Ascending ds) (h : s.Holds ds)
    (g : Hierarchy) : (s.save g).Holds (overlay ds g.table) := by
  unfold save overlay
  induction g.table generalizing s ds with
  | nil => exact h
  | cons c cs ih => exact ih (Hierarchy.ascending_insertDecl c hasc) (holds_put hasc h c)

/-- A sequence of graphs saved into an empty store leaves their tables, each over those before it. -/
theorem holds_saved (graphs : List Hierarchy) : (graphs.foldl save {}).Holds (layers graphs) := by
  have run : ∀ (s : ClassStore) (ds : List ClassDecl), Ascending ds → s.Holds ds →
      (graphs.foldl save s).Holds (graphs.foldl (fun ds h => overlay ds h.table) ds) := by
    induction graphs with
    | nil => exact fun _ _ _ h => h
    | cons g graphs ih =>
      exact fun s ds hasc h => ih _ _ (Hierarchy.ascending_overlay hasc g.table) (holds_save hasc h g)
  exact run {} [] .nil ⟨rfl, fun d hd => absurd hd List.not_mem_nil⟩

/-! ## Loading -/

theorem load_of_holds {s : ClassStore} {ds : List ClassDecl} (h : s.Holds ds)
    (hparams : ∀ d ∈ ds, Storable d.typeParams) : s.load = Hierarchy.ofClasses ds := by
  have hdecls : s.classes.map s.declOf = ds := by
    rw [h.classes, List.map_map]
    refine (List.map_congr_left fun d hd => ?_).trans (List.map_id ds)
    simp only [Function.comp, declOf, rowOf, h.interfaces d hd, splitParams_joinParams (hparams d hd), id]
  rw [load, hdecls]

theorem count_of_holds {s : ClassStore} {ds : List ClassDecl} (h : s.Holds ds) : s.count = ds.length := by
  rw [count, h.classes, List.length_map]

theorem length_layers {graphs : List Hierarchy} (hasc : ∀ h ∈ graphs, Ascending h.table) :
    (layers graphs).length = (graphs.flatMap Hierarchy.names).dedup.length := by
  rw [← List.length_map ClassDecl.name]
  refine List.Perm.length_eq ((List.perm_ext_iff_of_nodup
    (Hierarchy.nodup_names (Hierarchy.ascending_layers graphs)) (List.nodup_dedup _)).mpr fun name => ?_)
  rw [List.mem_dedup, ← Hierarchy.lastDecl?_isSome, ← Hierarchy.find?_layers hasc]
  simp

/-- Saving some graphs into an empty store and loading gives a graph whose declarations are those of the
    last saved graph that has them, and no others; the store counts their names; and the loaded graph
    answers as one that is built from these declarations directly. -/
theorem load_saved {graphs : List Hierarchy} (hne : graphs ≠ []) (hbuilt : ∀ h ∈ graphs, h.Built)
    (hparams : ∀ h ∈ graphs, ∀ d ∈ h.table, Storable d.typeParams) :
    let s := graphs.foldl save {}
    (∀ name, s.load.lookup? name = lastDecl? graphs name) ∧
    s.count = (graphs.flatMap Hierarchy.names).dedup.length ∧
    ∀ ds, LastDecls graphs ds → ∀ name,
      s.load.ancestors name = (Hierarchy.ofClasses ds).ancestors name ∧
      s.load.implementations name = (Hierarchy.ofClasses ds).implementations name := by
  intro s
  have hasc : ∀ h ∈ graphs, Ascending h.table := fun h hh => (hbuilt h hh).ascending
  have hholds : s.Holds (layers graphs) := holds_saved graphs
  have hlast := Hierarchy.lastDecls_layers hasc
  -- every graph declares the universal class
  have hobj : (lastDecl? graphs Ty.objectClass).isSome := by
    obtain ⟨h, rest, rfl⟩ := List.exists_cons_of_ne_nil hne
    rw [lastDecl?, List.findSome?_isSome_iff]
    exact ⟨h, by simp, (hbuilt h List.mem_cons_self).lookup?_object⟩
  have hstorable : ∀ d ∈ layers graphs, Storable d.typeParams := fun d hd => by
    obtain ⟨h, hh, hd⟩ := List.exists_of_findSome?_eq_some ((hlast.last d).mp hd)
    exact hparams h (List.mem_reverse.mp hh) d (List.mem_of_find?_eq_some hd)
  have hload : s.load = Hierarchy.ofClasses (layers graphs) := load_of_holds hholds hstorable
  refine ⟨fun name => ?_, ?_, fun ds hds name => ?_⟩
  · rw [hload, hlast.lookup?_ofClasses hobj]
  · rw [count_of_holds hholds, length_layers hasc]
  · have horder := Hierarchy.orderly_ofClasses (layers graphs)
    have horder' := Hierarchy.orderly_ofClasses ds
    have htable := Hierarchy.table_eq_of_lookup? horder.ascending horder'.ascending fun name => by
      rw [hlast.lookup?_ofClasses hobj, hds.lookup?_ofClasses hobj]
    rw [hload]
    exact ⟨Hierarchy.ancestors_congr htable name, Hierarchy.implementations_congr horder horder' htable name⟩

/-- `A` is saved again with a shorter list of interfaces; `B` stands in the first graph only. -/
theorem load_saved_at_shorter_list :
    let graphs := [(Catalogue.after [.addClass { name := "A", interfaces := ["I", "J"] },
        .addClass { name := "B", super := "A", typeParams := ["K", "", "V"] }]).classes,
      (Catalogue.after [.addClass { name := "A", interfaces := ["J"], isInterface := true }]).classes]
    let ds : List ClassDecl := [{ name := "B", super := "A", typeParams := ["K", "", "V"] },
      { name := Ty.objectClass }, { name := "A", interfaces := ["J"], isInterface := true }]
    let s := graphs.foldl save {}
    s.load.lookup? "A" = some { name := "A", interfaces := ["J"], isInterface := true } ∧
      s.load.lookup? "B" = some { name := "B", super := "A", typeParams := ["K", "", "V"] } ∧
      s.load.lookup? "I" = none ∧ s.count = 3 ∧
      s.load.implementations "J" = (Hierarchy.ofClasses ds).implementations "J" := by
  intro graphs ds s
  have hbuilt : ∀ h ∈ graphs, h.Built := by
    intro h hh
    simp only [graphs, List.mem_cons, List.not_mem_nil, or_false] at hh
    rcases hh with rfl | rfl
    · exact ⟨_, rfl⟩
    · exact ⟨_, rfl⟩
  have hds : LastDecls graphs ds := by
    have hlast := Hierarchy.lastDecls_layers fun h hh => (hbuilt h hh).ascending
    have hlayers : layers graphs = [ds[2], ds[0], ds[1]] := by decide +kernel
    refine ⟨by decide, fun d => ?_⟩
    rw [← hlast.last, hlayers]
    exact (show ds.Perm [ds[2], ds[0], ds[1]] by decide +kernel).mem_iff
  obtain ⟨hlookup, hcount, hanswers⟩ := load_saved (by simp [graphs]) hbuilt (by decide +kernel)
  refine ⟨(hlookup "A").trans (by decide +kernel), (hlookup "B").trans (by decide +kernel),
    (hlookup "I").trans (by decide +kernel), hcount.trans (by decide +kernel),
    (hanswers ds hds "J").2⟩

end ClassStore

end TypeRecovery
