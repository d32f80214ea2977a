import DataRace.Proofs.Race.Sharing

/-!
# What is recorded of a list of accesses

Objects are numbered in the order in which a list of accesses first names them, and the table of an
object is what its own accesses make of an empty one (`SharedMemory.objects_ofAccesses`).  In such a
table the rows of a type hold the events of that type only, gathered by their threads
(`AccessTable.rows_ofObject`).  So each row is the part of the list that belongs to its object, type
and thread, in the order of the list (`SharedMemory.ofAccesses_records`).
-/

namespace DataRace

namespace AccessTable

/-- The table that the accesses of an object make. -/
def ofObject (l : List Access) (o : ObjectId) : AccessTable :=
  (l.filter fun a => a.object = o).foldl (fun table a => table.add a.type a.event) empty

/-- One more access changes the table of its object only. -/
theorem ofObject_concat (l : List Access) (a : Access) (o : ObjectId) :
    ofObject (l ++ [a]) o =
      if a.object = o then (ofObject l o).add a.type a.event else ofObject l o := by
  unfold ofObject
  rw [List.filter_append]
  by_cases h : a.object = o <;> simp [h]

/-- An object without accesses has an empty table. -/
theorem ofObject_eq_empty {l : List Access} {o : ObjectId} (h : o ∉ l.map Access.object) :
    ofObject l o = empty := by
  have hnone : (l.filter fun a => a.object = o) = [] := by
    rw [List.filter_eq_nil_iff]
    intro a ha hobject
    exact h (List.mem_map.2 ⟨a, ha, of_decide_eq_true hobject⟩)
  rw [ofObject, hnone, List.foldl_nil]

/-- Adding accesses gathers the events of a type in the rows of the type. -/
theorem rows_foldl_add (table : AccessTable) (l : List Access) (type : AccessType) :
    (l.foldl (fun table a => table.add a.type a.event) table).rows type =
      Rows.gather EventRef.thread (table.rows type)
        ((l.filter fun a => a.type = type).map Access.event) := by
  induction l generalizing table with
  | nil => rfl
  | cons a l ih =>
    rw [List.foldl_cons, ih, rows_add, List.filter_cons]
    by_cases h : type = a.type
    · subst h
      simp [Rows.gather]
    · simp [h, Ne.symm h]

/-- The rows of a type in the table of an object. -/
theorem rows_ofObject (l : List Access) (o : ObjectId) (type : AccessType) :
    (ofObject l o).rows type = Rows.gather EventRef.thread []
      ((l.filter fun a => a.object = o ∧ a.type = type).map Access.event) := by
  have hempty : empty.rows type = [] := by cases type <;> rfl
  have hfilter : (l.filter fun a => a.object = o).filter (fun a => a.type = type) =
      l.filter fun a => a.object = o ∧ a.type = type := by
    rw [List.filter_filter]
    simp [and_comm]
  rw [ofObject, rows_foldl_add, hempty, hfilter]

/-- The row of a thread in the table of an object. -/
theorem row_ofObject (l : List Access) (o : ObjectId) (type : AccessType) (thread : ThreadId) :
    ((ofObject l o).rows type).row thread = (l.filter fun a =>
      a.object = o ∧ a.type = type ∧ a.event.thread = thread).map Access.event := by
  have hnil : Rows.row ([] : Rows EventRef) thread = [] := rfl
  rw [rows_ofObject, Rows.row_gather .nil, hnil, List.nil_append, List.filter_map,
    List.filter_filter]
  refine congrArg (List.map Access.event) (List.filter_congr fun a _ => ?_)
  simp [Bool.and_comm, Bool.and_assoc]

/-- The threads with a row of a type in the table of an object. -/
theorem mem_keys_ofObject {l : List Access} {o : ObjectId} {type : AccessType} {k : ThreadId} :
    k ∈ ((ofObject l o).rows type).keys ↔
      ∃ a ∈ l, a.object = o ∧ a.type = type ∧ a.event.thread = k := by
  rw [rows_ofObject, Rows.mem_keys_gather]
  simp [Rows.keys, and_assoc]

end AccessTable

namespace SharedMemory

/-- What comes last is dropped if it came before. -/
theorem eraseDups_concat {α : Type} [DecidableEq α] (l : List α) (a : α) :
    (l ++ [a]).eraseDups = Rows.addNew l.eraseDups a := by
  rw [← Rows.foldl_addNew, ← Rows.foldl_addNew, List.foldl_append]
  rfl

/-- The objects of a list of accesses, in the order in which they come first, with their tables. -/
theorem objects_ofAccesses (l : List Access) : (ofAccesses l).objects.toList =
    (l.map Access.object).eraseDups.map fun o => (o, AccessTable.ofObject l o) := by
  induction l using List.reverseRecOn with
  | nil => rfl
  | append_singleton l a ih =>
    have hindexes := indexes_ofAccesses l
    have hobject : ∀ id, (ofAccesses l).object? id = (l.map Access.object).eraseDups[id]? := by
      intro id
      rw [object?, ← Array.getElem?_toList, ih, List.getElem?_map, Option.map_map]
      exact Option.map_id'
    rw [List.map_append, List.map_singleton, eraseDups_concat, Rows.addNew, ofAccesses,
      List.foldl_append, List.foldl_cons, List.foldl_nil, ← ofAccesses, add]
    split
    -- The object has a number, and only its table changes.
    · next id hid =>
      have hfound := (hindexes.ids a.object id).1 hid
      rw [hobject] at hfound
      rw [if_pos (List.mem_of_getElem? hfound), Array.toList_modify, ih]
      refine List.ext_getElem? fun j => ?_
      rw [List.getElem?_modify, List.getElem?_map, List.getElem?_map]
      by_cases hj : id = j
      · subst hj
        simp [hfound, AccessTable.ofObject_concat]
      · simp only [if_neg hj, Option.map_eq_map, Option.map_map]
        refine Option.map_congr fun o ho => ?_
        have hne : a.object ≠ o := by
          rintro rfl
          have hid' := (hindexes.ids a.object j).2 ((hobject j).trans ho)
          exact hj (Option.some.inj (hid.symm.trans hid'))
        rw [AccessTable.ofObject_concat, if_neg hne, Function.comp_apply]
    -- The object is new, and the other tables stay.
    · next hid =>
      have hnew : a.object ∉ l.map Access.object := by
        intro hmem
        obtain ⟨b, hb, hbobject⟩ := List.mem_map.1 hmem
        obtain ⟨id, hid'⟩ := hindexes.complete b hb
        rw [hbobject, hid] at hid'
        cases hid'
      rw [if_neg (fun hmem => hnew (List.mem_eraseDups.1 hmem)), Array.toList_push, ih,
        List.map_append, List.map_singleton, AccessTable.ofObject_concat, if_pos rfl,
        AccessTable.ofObject_eq_empty hnew]
      refine congrArg (· ++ _) (List.map_congr_left fun o ho => ?_)
      have hne : a.object ≠ o := fun heq => hnew (heq ▸ List.mem_eraseDups.1 ho)
      rw [AccessTable.ofObject_concat, if_neg hne]

/-- The entry of a number. -/
theorem getElem?_ofAccesses (l : List Access) (id : AccessedId) : (ofAccesses l).objects[id]? =
    (l.map Access.object).eraseDups[id]?.map fun o => (o, AccessTable.ofObject l o) := by
  rw [← Array.getElem?_toList, objects_ofAccesses, List.getElem?_map]

/-- The object of a number. -/
theorem object?_ofAccesses (l : List Access) (id : AccessedId) :
    (ofAccesses l).object? id = (l.map Access.object).eraseDups[id]? := by
  rw [object?, getElem?_ofAccesses, Option.map_map]
  exact Option.map_id'

/-- The table of the number of an object. -/
theorem table_ofAccesses {l : List Access} {id : AccessedId} {o : ObjectId}
    (h : (ofAccesses l).object? id = some o) :
    (ofAccesses l).table id = AccessTable.ofObject l o := by
  rw [object?_ofAccesses] at h
  rw [table, getElem?_ofAccesses, h]
  rfl

/-- Objects are numbered without gaps in the order in which they come first, and a number and its
object find each other.  The rows of an object, of a type and of a thread are the part of the list
that belongs to them, in its order; the threads with a row are those that make such an access,
ascending.  A number without an object has no rows and is not shared. -/
theorem ofAccesses_records (l : List Access) :
    (ofAccesses l).objectCount = (l.map Access.object).eraseDups.length ∧
      (∀ id, (ofAccesses l).object? id = (l.map Access.object).eraseDups[id]?) ∧
      (∀ o id, (ofAccesses l).id? o = some id ↔ (ofAccesses l).object? id = some o) ∧
      (∀ id o, (ofAccesses l).object? id = some o → ∀ type,
        (∀ thread, (((ofAccesses l).table id).rows type).row thread = (l.filter fun a =>
          a.object = o ∧ a.type = type ∧ a.event.thread = thread).map Access.event) ∧
        (((ofAccesses l).table id).rows type).keys.Pairwise (· < ·) ∧
        ∀ thread, thread ∈ (((ofAccesses l).table id).rows type).keys ↔
          ∃ a ∈ l, a.object = o ∧ a.type = type ∧ a.event.thread = thread) ∧
      ∀ id, (ofAccesses l).object? id = none →
        (∀ type, ((ofAccesses l).table id).rows type = []) ∧
          (ofAccesses l).isShared id = false := by
  refine ⟨?_, object?_ofAccesses l, (indexes_ofAccesses l).ids, fun id o h type => ?_,
    fun id h => ?_⟩
  · rw [objectCount, ← Array.length_toList, objects_ofAccesses, List.length_map]
  · rw [table_ofAccesses h]
    refine ⟨AccessTable.row_ofObject l o type, ?_, fun _ => AccessTable.mem_keys_ofObject⟩
    rw [AccessTable.rows_ofObject]
    exact Rows.Ascending.gather .nil
  · have htable : (ofAccesses l).table id = .empty := by
      rw [object?, Option.map_eq_none_iff] at h
      rw [table, h]
      rfl
    refine ⟨fun type => ?_, ?_⟩
    · rw [htable]
      cases type <;> rfl
    · rw [isShared, htable]
      rfl

/-- Accesses of two objects by two threads, in turns. -/
def inTurns : List Access :=
  [⟨⟨9⟩, .write, ⟨1, 0⟩⟩, ⟨⟨3⟩, .write, ⟨0, 0⟩⟩, ⟨⟨9⟩, .read, ⟨0, 1⟩⟩, ⟨⟨9⟩, .write, ⟨0, 2⟩⟩,
    ⟨⟨9⟩, .write, ⟨1, 1⟩⟩]

/-- Of accesses in turns, each row has its own, in order, and there is no third object. -/
theorem records_inTurns :
    (ofAccesses inTurns).id? ⟨3⟩ = some 1 ∧
      (((ofAccesses inTurns).table 0).rows .write).row 1 = [⟨1, 0⟩, ⟨1, 1⟩] ∧
      0 ∈ (((ofAccesses inTurns).table 0).rows .write).keys ∧
      (ofAccesses inTurns).isShared 2 = false := by
  obtain ⟨-, hobject, hids, hrows, hnone⟩ := ofAccesses_records inTurns
  have hfirst : (ofAccesses inTurns).object? 0 = some ⟨9⟩ := (hobject 0).trans (by decide)
  obtain ⟨hrow, -, hkeys⟩ := hrows 0 ⟨9⟩ hfirst .write
  refine ⟨(hids ⟨3⟩ 1).2 ((hobject 1).trans (by decide)), (hrow 1).trans (by decide), ?_, ?_⟩
  · exact (hkeys 0).2 ⟨⟨⟨9⟩, .write, ⟨0, 2⟩⟩, by decide, rfl, rfl, rfl⟩
  · exact (hnone 2 ((hobject 2).trans (by decide))).2

end SharedMemory

end DataRace
