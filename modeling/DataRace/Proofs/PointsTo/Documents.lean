import DataRace.PointsTo.Json
import DataRace.Proofs.Json.RoundTrip
import DataRace.Proofs.Json.Views
import DataRace.Proofs.Rows

/-!
# Points-to facts in documents

A document lists names of objects and entries of values and routine pointers (`PointsTo.Document`).
Entries of one value may stand anywhere and overlap; the table that is read from the document
answers all that they list, in the order of the document, and of equal items only the first
(`PointsTo.Document.gathered`).

The tables that calls of the building functions lead to (`PointsTo.Reached`) are neat: their rows
ascend and repeat nothing, and a routine pointer has a row only if it has a target.  Such a table is
written row by row and read back as it was (`PointsTo.Neat.parse?_render`).
-/

namespace DataRace

namespace PointsTo

/-! ### Documents -/

/-- Names of objects and the entries of values and of routine pointers, in order. -/
structure Document where
  names : List String
  values : List (ValueId × List ObjectId)
  routines : List (ValueId × List String)

namespace Document

/-- The object of a number. -/
def object? (v : Json) : Option ObjectId := v.nat64?.map ObjectId.mk

/-- A text is that of a document: it is a record of three lists, of texts, of records of a value and
numbers of objects, and of records of a value and texts. -/
def IsReadFrom (d : Document) (text : String) : Prop :=
  ∃ doc names values routines, Json.read? text = some doc ∧
    doc.fields? ["objects", "values", "functions"] = some [names, values, routines] ∧
    list? Json.str? names = some d.names ∧
    list? (row? "objects" object?) values = some d.values ∧
    list? (row? "targets" Json.str?) routines = some d.routines

/-- What the entries of a value list, one after the other, without later repetitions. -/
def gathered {α : Type} [DecidableEq α] (entries : List (ValueId × List α)) (v : ValueId) :
    List α :=
  ((entries.filter fun e => e.1 = v).flatMap Prod.snd).eraseDups

end Document

/-- A table is read from the text of a document, and holds what the document lists. -/
theorem parse?_eq_some {text : String} {t : PointsTo} :
    parse? text = some t ↔
      ∃ d : Document, d.IsReadFrom text ∧ t = ofRows d.names d.values d.routines := by
  constructor
  · intro h
    obtain ⟨doc, hdoc, h⟩ := Option.bind_eq_some_iff.1 h
    obtain ⟨fields, hfields, h⟩ := Option.bind_eq_some_iff.1 h
    split at h
    · next names values routines =>
      obtain ⟨names', hnames, h⟩ := Option.bind_eq_some_iff.1 h
      obtain ⟨values', hvalues, h⟩ := Option.bind_eq_some_iff.1 h
      obtain ⟨routines', hroutines, h⟩ := Option.bind_eq_some_iff.1 h
      exact ⟨⟨names', values', routines'⟩,
        ⟨doc, names, values, routines, hdoc, hfields, hnames, hvalues, hroutines⟩,
        (Option.some.inj h).symm⟩
    · cases h
  · rintro ⟨d, ⟨doc, names, values, routines, hdoc, hfields, hnames, hvalues, hroutines⟩, rfl⟩
    refine Option.bind_eq_some_iff.2 ⟨doc, hdoc, Option.bind_eq_some_iff.2 ⟨_, hfields, ?_⟩⟩
    refine Option.bind_eq_some_iff.2 ⟨_, hnames, Option.bind_eq_some_iff.2 ⟨_, hvalues, ?_⟩⟩
    exact Option.bind_eq_some_iff.2 ⟨_, hroutines, rfl⟩

/-! ### What is read -/

variable {α : Type} {t : PointsTo}

/-- Entries by the numbers of their values. -/
def numbered (entries : List (ValueId × List α)) : List (Nat × List α) :=
  entries.map fun e => (e.1.val, e.2)

/-- Binding entries changes the rows of values only. -/
theorem foldl_bind (entries : List (ValueId × List ObjectId)) (t : PointsTo) :
    entries.foldl (fun t (v, objects) => t.bind v objects) t =
      { t with values := (numbered entries).foldl Rows.extend t.values } := by
  induction entries generalizing t with
  | nil => rfl
  | cons e entries ih => exact ih _

/-- Binding targets changes the rows of routine pointers only. -/
theorem foldl_bindRoutine (entries : List (ValueId × List String)) (t : PointsTo) :
    entries.foldl (fun t (v, targets) => targets.foldl (fun t name => t.bindRoutine v name) t) t =
      { t with routines := (numbered entries).foldl Rows.extendEach t.routines } := by
  have hone : ∀ (v : ValueId) (targets : List String) (t : PointsTo),
      targets.foldl (fun t name => t.bindRoutine v name) t =
        { t with routines := t.routines.extendEach (v.val, targets) } := by
    intro v targets
    induction targets with
    | nil => exact fun t => rfl
    | cons name targets ih => exact fun t => ih _
  induction entries generalizing t with
  | nil => rfl
  | cons e entries ih =>
    rw [List.foldl_cons]
    dsimp only
    rw [hone, ih]
    rfl

/-- The rows of a table that is filled from a document. -/
theorem ofRows_eq (names : List String) (values : List (ValueId × List ObjectId))
    (routines : List (ValueId × List String)) :
    ofRows names values routines =
      ⟨names.toArray, (numbered values).foldl Rows.extend [],
        (numbered routines).foldl Rows.extendEach []⟩ := by
  unfold ofRows
  dsimp only
  rw [foldl_bind, foldl_bindRoutine]
  rfl

/-- The items of the entries of a number are those of the entries of its value. -/
theorem flatMap_numbered (entries : List (ValueId × List α)) (v : ValueId) :
    ((numbered entries).filter fun e => e.1 = v.val).flatMap Prod.snd =
      (entries.filter fun e => e.1 = v).flatMap Prod.snd := by
  have hval : ∀ u : ValueId, (u.val = v.val) = (u = v) := fun u =>
    propext ⟨fun h => by cases u; cases v; exact congrArg ValueId.mk h, congrArg ValueId.val⟩
  rw [numbered, List.filter_map, List.flatMap_map]
  simp only [Function.comp_def, hval]

/-- Rows that are filled from entries hold what the entries of each value list. -/
theorem row_of_addsTo [DecidableEq α] {step : Rows α → Nat × List α → Rows α}
    (hstep : Rows.AddsTo step) (entries : List (ValueId × List α)) (v : ValueId) :
    ((numbered entries).foldl step []).row v.val = Document.gathered entries v := by
  rw [hstep.row_foldl .nil, flatMap_numbered]
  exact Rows.foldl_addNew _

/-- The objects of a value are those that its entries list. -/
theorem objects_ofRows (names : List String) (values : List (ValueId × List ObjectId))
    (routines : List (ValueId × List String)) (v : ValueId) :
    (ofRows names values routines).objects v = Document.gathered values v := by
  rw [ofRows_eq, objects]
  exact row_of_addsTo Rows.addsTo_extend values v

/-- The targets of a routine pointer are those that its entries list. -/
theorem targets_ofRows (names : List String) (values : List (ValueId × List ObjectId))
    (routines : List (ValueId × List String)) (v : ValueId) :
    (ofRows names values routines).targets v = Document.gathered routines v := by
  rw [ofRows_eq, targets]
  exact row_of_addsTo Rows.addsTo_extendEach routines v

/-! ### Built tables -/

/-- The tables that calls of the building functions lead to, with values of 32 bits and objects
of 64. -/
inductive Reached : PointsTo → Prop
  | empty : Reached empty
  | nameObject {t : PointsTo} (h : Reached t) (name : String) : Reached (t.nameObject name).2
  | bind {t : PointsTo} (h : Reached t) {v : ValueId} {objects : List ObjectId}
      (hv : v.val < 2 ^ 32) (hobjects : ∀ o ∈ objects, o.val < 2 ^ 64) : Reached (t.bind v objects)
  | bindRoutine {t : PointsTo} (h : Reached t) {v : ValueId} (hv : v.val < 2 ^ 32)
      (name : String) : Reached (t.bindRoutine v name)

/-- Rows ascend and repeat nothing, numbers have their width, and a routine pointer with a row has a
target. -/
structure Neat (t : PointsTo) : Prop where
  values : t.values.Ascending
  routines : t.routines.Ascending
  objects : ∀ k row, (k, row) ∈ t.values → k < 2 ^ 32 ∧ row.Nodup ∧ ∀ o ∈ row, o.val < 2 ^ 64
  targets : ∀ k row, (k, row) ∈ t.routines → k < 2 ^ 32 ∧ row.Nodup ∧ row ≠ []

namespace Neat

/-- A table without facts is neat. -/
theorem empty : Neat empty where
  values := .nil
  routines := .nil
  objects k row h := by cases h
  targets k row h := by cases h

/-- Binding a value keeps a table neat. -/
theorem bind (h : t.Neat) {v : ValueId} {objects : List ObjectId} (hv : v.val < 2 ^ 32)
    (hobjects : ∀ o ∈ objects, o.val < 2 ^ 64) : (t.bind v objects).Neat where
  values := h.values.modify _ _
  routines := h.routines
  objects k row hrow := by
    have hadd : ∀ old : List ObjectId, old.Nodup → (∀ o ∈ old, o.val < 2 ^ 64) →
        (objects.foldl Rows.addNew old).Nodup ∧
          ∀ o ∈ objects.foldl Rows.addNew old, o.val < 2 ^ 64 := by
      intro old hold hbound
      refine ⟨?_, fun o ho => ?_⟩
      · exact List.foldlRecOn objects _ hold fun row hrow o _ => Rows.nodup_addNew hrow o
      · rcases Rows.mem_foldl_addNew.1 ho with ho | ho
        · exact hbound o ho
        · exact hobjects o ho
    rcases Rows.mem_modify hrow with hrow | ⟨rfl, rfl | ⟨old, hold, rfl⟩⟩
    · exact h.objects k row hrow
    · exact ⟨hv, hadd [] List.nodup_nil fun o ho => absurd ho List.not_mem_nil⟩
    · obtain ⟨-, hnodup, hbound⟩ := h.objects _ old hold
      exact ⟨hv, hadd old hnodup hbound⟩
  targets := h.targets

/-- Binding a routine keeps a table neat. -/
theorem bindRoutine (h : t.Neat) {v : ValueId} (hv : v.val < 2 ^ 32) (name : String) :
    (t.bindRoutine v name).Neat where
  values := h.values
  routines := h.routines.modify _ _
  objects := h.objects
  targets k row hrow := by
    have hmem : ∀ old : List String, name ∈ [name].foldl Rows.addNew old := fun old =>
      Rows.mem_foldl_addNew.2 (Or.inr List.mem_cons_self)
    rcases Rows.mem_modify hrow with hrow | ⟨rfl, rfl | ⟨old, hold, rfl⟩⟩
    · exact h.targets k row hrow
    · exact ⟨hv, Rows.nodup_addNew List.nodup_nil name, List.ne_nil_of_mem (hmem [])⟩
    · exact ⟨hv, Rows.nodup_addNew (h.targets _ old hold).2.1 name, List.ne_nil_of_mem (hmem old)⟩

end Neat

/-- Built tables are neat. -/
theorem Reached.neat (h : t.Reached) : t.Neat := by
  induction h with
  | empty => exact .empty
  | nameObject _ _ ih => exact ⟨ih.values, ih.routines, ih.objects, ih.targets⟩
  | bind _ hv hobjects ih => exact ih.bind hv hobjects
  | bindRoutine _ hv name ih => exact ih.bindRoutine hv name

/-! ### Tables read back -/

/-- The document that a table is written as. -/
def document (t : PointsTo) : Document where
  names := t.names.toList
  values := t.values.map fun r => (⟨r.1⟩, r.2)
  routines := t.routines.map fun r => (⟨r.1⟩, r.2)

/-- An entry that is written as a record is read back. -/
theorem row?_record {field : String} (hfield : field ≠ "value") {item? : Json → Option α}
    {item : α → Json} {e : ValueId × List α} (he : e.1.val < 2 ^ 32)
    (hitem : ∀ a ∈ e.2, item? (item a) = some a) :
    row? field item? (.obj [("value", .ofNat e.1.val), (field, .arr (e.2.map item))]) = some e := by
  simp [row?, Json.fields?, Json.atMostOnce?, Json.occurrences, hfield, hfield.symm, Json.arr?,
    Json.nat32?_ofNat he, Json.mapM_map_some hitem]

/-- The entries of rows have the numbers of the rows. -/
theorem numbered_map (rows : Rows α) : numbered (rows.map fun r => (⟨r.1⟩, r.2)) = rows := by
  rw [numbered, List.map_map]
  exact List.map_id _

/-- Rows that are written as records are read back. -/
theorem list?_records {field : String} (hfield : field ≠ "value") {item? : Json → Option α}
    {item : α → Json} {rows : Rows α} (hrows : ∀ k row, (k, row) ∈ rows → k < 2 ^ 32 ∧
      ∀ a ∈ row, item? (item a) = some a) :
    list? (row? field item?) (some (.arr (rows.map fun (k, row) =>
      .obj [("value", .ofNat k), (field, .arr (row.map item))]))) =
        some (rows.map fun r => (⟨r.1⟩, r.2)) := by
  have hread := Json.mapM_map_some (f := row? field item?)
    (l := rows.map fun r => ((⟨r.1⟩ : ValueId), r.2))
    (g := fun e => .obj [("value", .ofNat e.1.val), (field, .arr (e.2.map item))])
    fun e he => by
      obtain ⟨⟨k, row⟩, hmem, rfl⟩ := List.mem_map.1 he
      obtain ⟨hk, hitem⟩ := hrows k row hmem
      exact row?_record hfield hk hitem
  rw [List.map_map] at hread
  exact hread

namespace Neat

/-- A neat table is read from what is written of it. -/
theorem isReadFrom_render (h : t.Neat) : t.document.IsReadFrom t.render := by
  refine ⟨_, _, _, _, Json.read?_pretty t.toJson, rfl, ?_, ?_, ?_⟩
  · exact Json.mapM_map_some fun name _ => rfl
  · refine list?_records (by decide) fun k row hrow => ?_
    obtain ⟨hk, -, hobjects⟩ := h.objects k row hrow
    refine ⟨hk, fun o ho => ?_⟩
    rw [Document.object?, Json.nat64?_ofNat (hobjects o ho)]
    rfl
  · exact list?_records (by decide) fun k row hrow =>
      ⟨(h.targets k row hrow).1, fun name _ => rfl⟩

/-- Filling in the rows of a neat table makes the table again. -/
theorem ofRows_document (h : t.Neat) :
    ofRows t.document.names t.document.values t.document.routines = t := by
  have hvalues : t.values.foldl Rows.extend [] = t.values :=
    Rows.foldl_extend_eq h.values fun r hr => (h.objects r.1 r.2 hr).2.1
  have hroutines : t.routines.foldl Rows.extendEach [] = t.routines := by
    refine (List.foldl_ext _ _ _ fun rows r hr => ?_).trans
      (Rows.foldl_extend_eq h.routines fun r hr => (h.targets r.1 r.2 hr).2.1)
    exact Rows.extendEach_eq_extend (h.targets r.1 r.2 hr).2.2 rows
  rw [ofRows_eq]
  unfold document
  dsimp only
  rw [numbered_map, numbered_map, hvalues, hroutines, Array.toArray_toList]

/-- A neat table that is written is read back as it was. -/
theorem parse?_render (h : t.Neat) : parse? t.render = some t :=
  parse?_eq_some.2 ⟨t.document, h.isReadFrom_render, h.ofRows_document.symm⟩

end Neat

/-! ### Answers -/

/-- A table that is read from a text answers what the entries of its document list, and a table that
was built and is written and read again answers as before. -/
theorem parse?_answers :
    (∀ text t, parse? text = some t → ∃ d : Document, d.IsReadFrom text ∧
      (∀ v, t.objects v = Document.gathered d.values v) ∧
      (∀ v, t.targets v = Document.gathered d.routines v) ∧
      ∀ o, t.describe o = d.names[o.val]?) ∧
    ∀ t : PointsTo, t.Reached → ∃ u, parse? t.render = some u ∧
      (∀ v, u.objects v = t.objects v) ∧ (∀ v, u.targets v = t.targets v) ∧
      ∀ o, u.describe o = t.describe o := by
  refine ⟨fun text t h => ?_, fun t h => ?_⟩
  · obtain ⟨d, hd, rfl⟩ := parse?_eq_some.1 h
    refine ⟨d, hd, objects_ofRows _ _ _, targets_ofRows _ _ _, fun o => ?_⟩
    rw [ofRows_eq, describe, List.getElem?_toArray]
  · exact ⟨t, h.neat.parse?_render, fun _ => rfl, fun _ => rfl, fun _ => rfl⟩

/-- A document whose entries of value 1 overlap, with an entry of another value in between. -/
def overlapping : Json :=
  .obj
    [("objects", .arr [.str "a", .str "b"]),
      ("values", .arr
        [.obj [("value", .ofNat 1), ("objects", .arr [.ofNat 1, .ofNat 1])],
          .arr [.ofNat 2, .arr []],
          .obj [("value", .ofNat 1), ("objects", .arr [.ofNat 0, .ofNat 1])]])]

/-- A table with a value without objects and a routine that is bound twice. -/
def sparse : PointsTo :=
  (((empty.nameObject "a").2.bind ⟨7⟩ []).bindRoutine ⟨3⟩ "f").bindRoutine ⟨3⟩ "f"

/-- Of overlapping entries each object is kept once, and a value without objects is kept. -/
theorem answers_overlapping :
    (∃ t d, parse? overlapping.compact = some t ∧ Document.IsReadFrom d overlapping.compact ∧
      t.objects ⟨1⟩ = Document.gathered d.values ⟨1⟩ ∧ t.objects ⟨1⟩ = [⟨1⟩, ⟨0⟩]) ∧
    sparse.Reached ∧ ∃ u, parse? sparse.render = some u ∧ u.objects ⟨7⟩ = [] ∧
      u.targets ⟨3⟩ = ["f"] ∧ u.describe ⟨0⟩ = some "a" := by
  have hparse : parse? overlapping.compact =
      some ⟨#["a", "b"], [(1, [⟨1⟩, ⟨0⟩]), (2, [])], []⟩ := by
    rw [parse?, Json.read?_compact]
    rfl
  have hsparse : sparse.Reached := by
    have hvalue := (Reached.empty.nameObject "a").bind (v := ⟨7⟩) (by decide)
      fun o ho => absurd ho List.not_mem_nil
    exact (hvalue.bindRoutine (by decide) "f").bindRoutine (by decide) "f"
  obtain ⟨hread, hbuilt⟩ := parse?_answers
  obtain ⟨d, hd, hobjects, -⟩ := hread _ _ hparse
  obtain ⟨u, hu, hvalues, htargets, hnames⟩ := hbuilt sparse hsparse
  exact ⟨⟨_, d, hparse, hd, hobjects ⟨1⟩, rfl⟩, hsparse, u, hu, hvalues ⟨7⟩, htargets ⟨3⟩,
    hnames ⟨0⟩⟩

end PointsTo

end DataRace
