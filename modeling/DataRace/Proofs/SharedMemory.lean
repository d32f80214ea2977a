import DataRace.Proofs.Rows
import DataRace.Proofs.Trace.Events
import DataRace.SharedMemory
import Mathlib.Data.List.Induction

/-!
# What the memory index knows

`AccessTable.Holds` says that the rows of a table hold exactly some accesses, each in the row of its
thread; `SharedMemory.Indexes` says that an index holds exactly the accesses of a list.  The index
of every well-formed trace is made, and holds what its events access
(`SharedMemory.exists_indexes`).

Accesses of different threads that conflict make an object shared (`AccessTable.isShared_of_holds`),
so looking at shared objects only loses nothing.
-/

namespace DataRace

namespace Rows

/-- Rows hold exactly the events of a set, each in the row of its thread, and no row is empty. -/
structure Holds (rows : Rows EventRef) (s : EventRef → Prop) : Prop where
  sound : ∀ k row, (k, row) ∈ rows → row ≠ [] ∧ ∀ e ∈ row, e.thread = k ∧ s e
  complete : ∀ e, s e → ∃ row, (e.thread, row) ∈ rows ∧ e ∈ row

namespace Holds

variable {rows : Rows EventRef} {s : EventRef → Prop}

/-- Rows hold a set however it is described. -/
theorem congr {s' : EventRef → Prop} (h : Holds rows s) (hs : ∀ e, s e ↔ s' e) : Holds rows s' where
  sound k row hrow :=
    ⟨(h.sound k row hrow).1, fun e he =>
      ⟨((h.sound k row hrow).2 e he).1, (hs e).1 ((h.sound k row hrow).2 e he).2⟩⟩
  complete e he := h.complete e ((hs e).2 he)

/-- Empty rows hold nothing. -/
theorem nil : Holds [] fun _ => False where
  sound _ _ h := by cases h
  complete _ h := h.elim

/-- One more event in the row of its thread. -/
theorem add (h : Holds rows s) (e : EventRef) :
    Holds (rows.modify e.thread (· ++ [e])) fun d => s d ∨ d = e where
  sound := by
    have hnew : ∀ old : List EventRef, (∀ d ∈ old, d.thread = e.thread ∧ s d) →
        old ++ [e] ≠ [] ∧ ∀ d ∈ old ++ [e], d.thread = e.thread ∧ (s d ∨ d = e) := by
      intro old hold
      refine ⟨List.append_ne_nil_of_right_ne_nil _ (List.cons_ne_nil _ _), ?_⟩
      intro d hd
      rcases List.mem_append.1 hd with hd | hd
      · exact ⟨(hold d hd).1, Or.inl (hold d hd).2⟩
      · obtain rfl := List.mem_singleton.1 hd
        exact ⟨rfl, Or.inr rfl⟩
    intro k row hrow
    rcases mem_modify hrow with hrow | ⟨rfl, rfl | ⟨old, hold, rfl⟩⟩
    · exact ⟨(h.sound k row hrow).1, fun d hd =>
        ⟨((h.sound k row hrow).2 d hd).1, Or.inl ((h.sound k row hrow).2 d hd).2⟩⟩
    · exact hnew [] fun d hd => by cases hd
    · exact hnew old (h.sound _ old hold).2
  complete := by
    rintro d (hd | rfl)
    · obtain ⟨row, hrow, hmem⟩ := h.complete d hd
      rcases mem_modify_of_mem (f := (· ++ [e])) (k := e.thread) hrow with hrow | ⟨hk, hrow⟩
      · exact ⟨row, hrow, hmem⟩
      · exact ⟨row ++ [e], hk ▸ hrow, List.mem_append_left _ hmem⟩
    · obtain ⟨old, hold⟩ := exists_mem_modify d.thread (· ++ [d]) rows
      exact ⟨old ++ [d], hold, List.mem_append_right _ List.mem_cons_self⟩

/-- Rows that hold an event are not empty. -/
theorem length_pos (h : Holds rows s) {e : EventRef} (he : s e) : 0 < rows.length := by
  obtain ⟨row, hrow, -⟩ := h.complete e he
  exact List.length_pos_of_mem hrow

/-- Events of two threads have two rows. -/
theorem two_le_length (h : Holds rows s) {a b : EventRef} (ha : s a) (hb : s b)
    (hne : a.thread ≠ b.thread) : 2 ≤ rows.length := by
  obtain ⟨rowa, ha', -⟩ := h.complete a ha
  obtain ⟨rowb, hb', -⟩ := h.complete b hb
  match rows with
  | [] => cases ha'
  | [r] =>
    have heq := (List.mem_singleton.1 ha').trans (List.mem_singleton.1 hb').symm
    exact absurd (congrArg Prod.fst heq) hne
  | r :: r' :: rest => exact Nat.le_add_left 2 rest.length

/-- A single row is that of the thread of each of its events. -/
theorem head_eq (h : Holds rows s) {e : EventRef} (he : s e) (hone : rows.length = 1) :
    rows.keys.head? = some e.thread := by
  obtain ⟨row, hrow, -⟩ := h.complete e he
  obtain ⟨r, rfl⟩ := List.length_eq_one_iff.1 hone
  obtain rfl := List.mem_singleton.1 hrow
  rfl

end Holds

end Rows

namespace AccessTable

/-- A table holds exactly the accesses of a set. -/
def Holds (table : AccessTable) (s : AccessType → EventRef → Prop) : Prop :=
  ∀ type, (table.rows type).Holds (s type)

variable {table : AccessTable} {s : AccessType → EventRef → Prop}

/-- Adding an access changes the rows of its type only. -/
theorem rows_add (table : AccessTable) (type type' : AccessType) (e : EventRef) :
    (table.add type e).rows type' =
      if type' = type then (table.rows type).modify e.thread (· ++ [e]) else table.rows type' := by
  cases type <;> cases type' <;> rfl

/-- An empty table holds nothing. -/
theorem holds_empty : empty.Holds fun _ _ => False := by
  intro type
  cases type <;> exact .nil

/-- One more access. -/
theorem Holds.add (h : table.Holds s) (type : AccessType) (e : EventRef) :
    (table.add type e).Holds fun type' d => s type' d ∨ type' = type ∧ d = e := by
  intro type'
  rw [rows_add]
  split
  · next heq =>
    subst heq
    refine ((h type').add e).congr fun d => or_congr_right ?_
    exact ⟨fun hd => ⟨rfl, hd⟩, And.right⟩
  · next hne =>
    refine (h type').congr fun d => ⟨Or.inl, ?_⟩
    rintro (hd | ⟨heq, -⟩)
    · exact hd
    · exact absurd heq hne

/-- When a table is shared, by the numbers of its rows. -/
theorem isShared_iff (table : AccessTable) :
    table.isShared = true ↔
      2 ≤ table.writes.length ∨ 2 ≤ table.frees.length ∨
        (table.writes.length = 1 ∨ table.frees.length = 1) ∧ 2 ≤ table.reads.length ∨
        table.writes.length = 1 ∧ table.reads.length = 1 ∧ apart table.writes table.reads = true ∨
        table.frees.length = 1 ∧ table.reads.length = 1 ∧ apart table.frees table.reads = true ∨
        table.frees.length = 1 ∧ table.writes.length = 1 ∧
          apart table.frees table.writes = true := by
  unfold isShared
  dsimp only
  split
  · next h =>
    simp only [Bool.or_eq_true, decide_eq_true_eq] at h
    simp only [true_iff]
    rcases h with h | h
    · exact Or.inl h
    · exact Or.inr (Or.inl h)
  · next h =>
    simp only [Bool.or_eq_true, decide_eq_true_eq, not_or] at h
    simp only [h.1, h.2, false_or]
    split
    · next h' =>
      simp only [Bool.and_eq_true, Bool.or_eq_true, beq_iff_eq, decide_eq_true_eq] at h'
      simp only [true_iff]
      exact Or.inl h'
    · next h' =>
      simp only [Bool.and_eq_true, Bool.or_eq_true, beq_iff_eq, decide_eq_true_eq] at h'
      simp only [h', false_or, Bool.or_eq_true, Bool.and_eq_true, beq_iff_eq, and_assoc, or_assoc]

/-- Conflicting accesses of different threads make a table shared. -/
theorem isShared_of_holds (h : table.Holds s) {a b : EventRef} {ta tb : AccessType}
    (ha : s ta a) (hb : s tb b) (hne : a.thread ≠ b.thread) (hconflict : ta.conflicts tb = true) :
    table.isShared = true := by
  rw [isShared_iff]
  -- Two accesses of one type make two rows.
  have htwo : ∀ {t : AccessType} {e₁ e₂ : EventRef}, s t e₁ → s t e₂ → e₁.thread ≠ e₂.thread →
      2 ≤ (table.rows t).length := fun h₁ h₂ hne => (h _).two_le_length h₁ h₂ hne
  -- Two accesses of two types make two rows of one type, or one of each, of different threads.
  have hmixed : ∀ {t₁ t₂ : AccessType} {e₁ e₂ : EventRef}, s t₁ e₁ → s t₂ e₂ →
      e₁.thread ≠ e₂.thread → 2 ≤ (table.rows t₁).length ∨
        (table.rows t₁).length = 1 ∧ 2 ≤ (table.rows t₂).length ∨
        (table.rows t₁).length = 1 ∧ (table.rows t₂).length = 1 ∧
          apart (table.rows t₁) (table.rows t₂) = true := by
    intro t₁ t₂ e₁ e₂ h₁ h₂ hne
    have hpos₁ := (h t₁).length_pos h₁
    have hpos₂ := (h t₂).length_pos h₂
    have hapart : (table.rows t₁).length = 1 → (table.rows t₂).length = 1 →
        apart (table.rows t₁) (table.rows t₂) = true := by
      intro hone₁ hone₂
      unfold apart
      rw [(h t₁).head_eq h₁ hone₁, (h t₂).head_eq h₂ hone₂, bne_iff_ne]
      exact fun heq => hne (Option.some.inj heq)
    rcases Nat.lt_or_ge 1 (table.rows t₁).length with hlt | hle
    · exact Or.inl hlt
    · have hone₁ : (table.rows t₁).length = 1 := Nat.le_antisymm hle hpos₁
      rcases Nat.lt_or_ge 1 (table.rows t₂).length with hlt | hle'
      · exact Or.inr (Or.inl ⟨hone₁, hlt⟩)
      · have hone₂ : (table.rows t₂).length = 1 := Nat.le_antisymm hle' hpos₂
        exact Or.inr (Or.inr ⟨hone₁, hone₂, hapart hone₁ hone₂⟩)
  cases ta with
  | read =>
    cases tb with
    | read => cases hconflict
    | write =>
      rcases hmixed hb ha hne.symm with h | ⟨h, h'⟩ | h
      · exact Or.inl h
      · exact Or.inr (Or.inr (Or.inl ⟨Or.inl h, h'⟩))
      · exact Or.inr (Or.inr (Or.inr (Or.inl h)))
    | free =>
      rcases hmixed hb ha hne.symm with h | ⟨h, h'⟩ | h
      · exact Or.inr (Or.inl h)
      · exact Or.inr (Or.inr (Or.inl ⟨Or.inr h, h'⟩))
      · exact Or.inr (Or.inr (Or.inr (Or.inr (Or.inl h))))
  | write =>
    cases tb with
    | read =>
      rcases hmixed ha hb hne with h | ⟨h, h'⟩ | h
      · exact Or.inl h
      · exact Or.inr (Or.inr (Or.inl ⟨Or.inl h, h'⟩))
      · exact Or.inr (Or.inr (Or.inr (Or.inl h)))
    | write => exact Or.inl (htwo ha hb hne)
    | free =>
      rcases hmixed hb ha hne.symm with h | ⟨-, h⟩ | h
      · exact Or.inr (Or.inl h)
      · exact Or.inl h
      · exact Or.inr (Or.inr (Or.inr (Or.inr (Or.inr h))))
  | free =>
    cases tb with
    | read =>
      rcases hmixed ha hb hne with h | ⟨h, h'⟩ | h
      · exact Or.inr (Or.inl h)
      · exact Or.inr (Or.inr (Or.inl ⟨Or.inr h, h'⟩))
      · exact Or.inr (Or.inr (Or.inr (Or.inr (Or.inl h))))
    | write =>
      rcases hmixed ha hb hne with h | ⟨-, h⟩ | h
      · exact Or.inr (Or.inl h)
      · exact Or.inl h
      · exact Or.inr (Or.inr (Or.inr (Or.inr (Or.inr h))))
    | free => exact Or.inr (Or.inl (htwo ha hb hne))

end AccessTable

namespace SharedMemory

/-- An index holds exactly the accesses of a list: every accessed object has a number, and the table
of a number holds the accesses of its object. -/
structure Indexes (m : SharedMemory) (l : List Access) : Prop where
  ids : ∀ o id, m.ids[o]? = some id ↔ m.object? id = some o
  holds : ∀ (id : AccessedId) o table, m.objects[id]? = some (o, table) →
    table.Holds fun type e => ⟨o, type, e⟩ ∈ l
  complete : ∀ a ∈ l, ∃ id, m.ids[a.object]? = some id

namespace Indexes

variable {m : SharedMemory} {l : List Access}

/-- An empty index holds nothing. -/
theorem nil : empty.Indexes [] where
  ids o id := by simp [empty, object?]
  holds id o table h := by cases h
  complete a ha := by cases ha

/-- The table of the object of an access that is added. -/
theorem holds_add {o : ObjectId} {table : AccessTable} {type : AccessType} {event : EventRef}
    (h : table.Holds fun t e => ⟨o, t, e⟩ ∈ l) :
    (table.add type event).Holds fun t e => ⟨o, t, e⟩ ∈ l ++ [⟨o, type, event⟩] := by
  intro t
  refine (h.add type event t).congr fun e => ?_
  dsimp only
  rw [List.mem_append, List.mem_singleton, Access.mk.injEq]
  exact or_congr_right ⟨fun ⟨ht, he⟩ => ⟨rfl, ht, he⟩, And.right⟩

/-- The table of another object than that of an access that is added. -/
theorem holds_other {o : ObjectId} {table : AccessTable} {a : Access} (hne : a.object ≠ o)
    (h : table.Holds fun t e => ⟨o, t, e⟩ ∈ l) :
    table.Holds fun t e => ⟨o, t, e⟩ ∈ l ++ [a] := by
  intro t
  refine (h t).congr fun e => ?_
  dsimp only
  rw [List.mem_append, List.mem_singleton]
  refine ⟨Or.inl, fun hmem => hmem.resolve_right ?_⟩
  rintro rfl
  exact hne rfl

/-- One more access. -/
theorem concat (h : m.Indexes l) (a : Access) : (m.add a).Indexes (l ++ [a]) := by
  obtain ⟨object, type, event⟩ := a
  unfold add
  dsimp only
  split
  -- The object has a number already.
  · next id hid =>
    have hfst : ∀ (φ : ObjectId × AccessTable → ObjectId × AccessTable), (∀ p, (φ p).1 = p.1) →
        ∀ j : Nat, (m.objects.modify id φ)[j]?.map Prod.fst = m.objects[j]?.map Prod.fst := by
      intro φ hφ j
      rw [Array.getElem?_modify]
      split
      · rw [Option.map_map, show Prod.fst ∘ φ = Prod.fst from funext hφ]
      · rfl
    refine ⟨fun o j => ?_, fun j o table hj => ?_, fun a ha => ?_⟩
    · unfold object?
      rw [hfst]
      · exact h.ids o j
      · exact fun _ => rfl
    · rw [Array.getElem?_modify] at hj
      split at hj
      · next heq =>
        subst heq
        obtain ⟨⟨o', table'⟩, hold, hnew⟩ := Option.map_eq_some_iff.1 hj
        cases hnew
        obtain rfl : o' = object := by
          have hobject := (h.ids object id).1 hid
          unfold object? at hobject
          rw [hold] at hobject
          exact Option.some.inj hobject
        exact holds_add (h.holds id _ table' hold)
      · next hne =>
        refine holds_other (fun heq => hne ?_) (h.holds j o table hj)
        have hj' : m.ids[o]? = some j := (h.ids _ _).2 (by unfold object?; rw [hj]; rfl)
        rw [← heq, hid] at hj'
        exact Option.some.inj hj'
    · rcases List.mem_append.1 ha with ha | ha
      · exact h.complete a ha
      · obtain rfl := List.mem_singleton.1 ha
        exact ⟨id, hid⟩
  -- The object gets the next number.
  · next hid =>
    have hnew : ∀ j, m.object? j ≠ some object := by
      intro j hj
      rw [(h.ids object j).2 hj] at hid
      cases hid
    refine ⟨fun o j => ?_, fun j o table hj => ?_, fun a ha => ?_⟩
    · unfold object?
      rw [Std.HashMap.getElem?_insert, Array.getElem?_push]
      by_cases hj : j = m.objects.size
      · rw [if_pos hj, hj]
        by_cases ho : object = o
        · simp [ho]
        · have hnone : m.ids[o]? ≠ some m.objects.size := by
            intro hsome
            have hobject := (h.ids o _).1 hsome
            unfold object? at hobject
            rw [Array.getElem?_eq_none (Nat.le_refl _)] at hobject
            cases hobject
          simp [ho, hnone]
      · rw [if_neg hj]
        by_cases ho : object = o
        · subst ho
          have hsize : m.objects.size ≠ j := fun heq => hj heq.symm
          simpa [hsize, object?] using hnew j
        · simpa [ho, object?] using h.ids o j
    · rw [Array.getElem?_push] at hj
      split at hj
      · cases hj
        refine holds_add fun t => (AccessTable.holds_empty t).congr fun e => ?_
        refine ⟨False.elim, fun hmem => ?_⟩
        obtain ⟨id, hid'⟩ := h.complete _ hmem
        rw [hid] at hid'
        cases hid'
      · refine holds_other ?_ (h.holds j o table hj)
        rintro rfl
        exact hnew j (by unfold object?; rw [hj]; rfl)
    · dsimp only
      rw [Std.HashMap.getElem?_insert]
      rcases List.mem_append.1 ha with ha | ha
      · obtain ⟨id, hid'⟩ := h.complete a ha
        split
        · exact ⟨_, rfl⟩
        · exact ⟨id, hid'⟩
      · obtain rfl := List.mem_singleton.1 ha
        exact ⟨m.objects.size, by simp⟩

end Indexes

/-- The index of a list of accesses. -/
theorem indexes_ofAccesses (l : List Access) : (ofAccesses l).Indexes l := by
  unfold ofAccesses
  induction l using List.reverseRecOn with
  | nil => exact .nil
  | append_singleton l a ih =>
    rw [List.foldl_append]
    exact ih.concat a

end SharedMemory

/-! ### Types of accesses -/

namespace AccessType

/-- An access that changes an object: a write or a free. -/
def Changes (type : AccessType) : Prop := type = .write ∨ type = .free

/-- All accesses but reads change an object. -/
theorem changes_iff {type : AccessType} : type.Changes ↔ type ≠ .read := by
  cases type <;> simp [Changes]

/-- Accesses conflict exactly if one of them changes the object. -/
theorem conflicts_iff {a b : AccessType} : a.conflicts b = true ↔ a.Changes ∨ b.Changes := by
  cases a <;> cases b <;> simp [conflicts, isWrite, Changes]

end AccessType

/-- The events that make accesses of a type. -/
theorem EventKind.access?_eq_some_iff {k : EventKind} {type : AccessType} :
    k.access? = some type ↔ k = match type with
      | .read => .read
      | .write => .write
      | .free => .free := by
  cases k <;> cases type <;> simp [access?]

/-! ### Accesses of nodes -/

namespace SharedMemory

variable {p : PointsTo} {n : Node} {o : ObjectId}

/-- A node reads and writes the objects that its pointer may point to. -/
theorem mem_objectsOf_read {type : AccessType} (h : type = .read ∨ type = .write) :
    o ∈ objectsOf p n type ↔ ∃ v, n.accessed? = some v ∧ o ∈ p.objects v := by
  have heq : objectsOf p n type = (n.accessed?.map p.objects).getD [] := by
    rcases h with rfl | rfl <;> rfl
  rw [heq]
  cases n.accessed? <;> simp

/-- A node frees the objects that are released with its pointer. -/
theorem mem_objectsOf_free :
    o ∈ objectsOf p n .free ↔ ∃ v, n.freed? = some v ∧ o ∈ p.freedObjects v := by
  unfold objectsOf
  cases n.freed? <;> simp

end SharedMemory

namespace Node

/-- A node that accesses memory through a pointer. -/
def Accesses (n : Node) (p : ValueId) : AccessType → Prop
  | .read => ∃ api v, n.effect = .read api p v
  | .write => ∃ api v, n.effect = .write api p v
  | .free => ∃ api, n.effect = .free api p

/-- The objects that a node accesses through a pointer are those that the pointer points to. -/
theorem Accesses.objectsOf_eq {n : Node} {p : ValueId} {type : AccessType}
    (h : n.Accesses p type) (pointsTo : PointsTo) :
    SharedMemory.objectsOf pointsTo n type = pointsTo.objects p := by
  cases type with
  | read =>
    obtain ⟨api, v, heffect⟩ := h
    simp [SharedMemory.objectsOf, Node.accessed?, heffect]
  | write =>
    obtain ⟨api, v, heffect⟩ := h
    simp [SharedMemory.objectsOf, Node.accessed?, heffect]
  | free =>
    obtain ⟨api, heffect⟩ := h
    simp [SharedMemory.objectsOf, Node.freed?, heffect, PointsTo.freedObjects]

/-- A node of the category of an access makes the access through a pointer. -/
theorem exists_accesses {n : Node} {k : EventKind} {type : AccessType}
    (hcategory : n.category = k.category) (hkind : k.access? = some type) :
    ∃ p, n.Accesses p type := by
  obtain ⟨site, effect⟩ := n
  cases k with
  | read =>
    cases hkind
    cases effect with
    | read api p v => exact ⟨p, api, v, rfl⟩
    | write | free | fork | join | lock | unlock | barrier | call => cases hcategory
  | write =>
    cases hkind
    cases effect with
    | write api p v => exact ⟨p, api, v, rfl⟩
    | read | free | fork | join | lock | unlock | barrier | call => cases hcategory
  | free =>
    cases hkind
    cases effect with
    | free api p => exact ⟨p, api, rfl⟩
    | read | write | fork | join | lock | unlock | barrier | call => cases hcategory
  | fork | join | lock | unlock | barrier | call | «return» => cases hkind

end Node

namespace Trace

/-- An event touches an object: it reads or writes through a pointer that may point to the object,
or frees a pointer by which the object is released. -/
inductive Touches (t : Trace) (r : EventRef) (o : ObjectId) : AccessType → Prop
  | read {e : Event} {n : Node} {v : ValueId} (he : t.event? r = some e) (hkind : e.kind = .read)
      (hn : t.arena.get? e.node = some n) (hv : n.accessed? = some v)
      (ho : o ∈ t.pointsTo.objects v) : Touches t r o .read
  | write {e : Event} {n : Node} {v : ValueId} (he : t.event? r = some e) (hkind : e.kind = .write)
      (hn : t.arena.get? e.node = some n) (hv : n.accessed? = some v)
      (ho : o ∈ t.pointsTo.objects v) : Touches t r o .write
  | free {e : Event} {n : Node} {v : ValueId} (he : t.event? r = some e) (hkind : e.kind = .free)
      (hn : t.arena.get? e.node = some n) (hv : n.freed? = some v)
      (ho : o ∈ t.pointsTo.freedObjects v) : Touches t r o .free

/-- The objects that the index holds for an event are those that the event touches. -/
theorem touches_iff {t : Trace} {r : EventRef} {o : ObjectId} {type : AccessType} :
    t.Touches r o type ↔ ∃ e n, t.event? r = some e ∧ t.arena.get? e.node = some n ∧
      e.kind.access? = some type ∧ o ∈ SharedMemory.objectsOf t.pointsTo n type := by
  constructor
  · intro h
    cases h with
    | read he hkind hn hv ho =>
      exact ⟨_, _, he, hn, by rw [hkind]; rfl,
        (SharedMemory.mem_objectsOf_read (Or.inl rfl)).2 ⟨_, hv, ho⟩⟩
    | write he hkind hn hv ho =>
      exact ⟨_, _, he, hn, by rw [hkind]; rfl,
        (SharedMemory.mem_objectsOf_read (Or.inr rfl)).2 ⟨_, hv, ho⟩⟩
    | free he hkind hn hv ho =>
      exact ⟨_, _, he, hn, by rw [hkind]; rfl, SharedMemory.mem_objectsOf_free.2 ⟨_, hv, ho⟩⟩
  · rintro ⟨e, n, he, hn, hkind, ho⟩
    rw [EventKind.access?_eq_some_iff] at hkind
    cases type with
    | read =>
      obtain ⟨v, hv, ho⟩ := (SharedMemory.mem_objectsOf_read (Or.inl rfl)).1 ho
      exact .read he hkind hn hv ho
    | write =>
      obtain ⟨v, hv, ho⟩ := (SharedMemory.mem_objectsOf_read (Or.inr rfl)).1 ho
      exact .write he hkind hn hv ho
    | free =>
      obtain ⟨v, hv, ho⟩ := SharedMemory.mem_objectsOf_free.1 ho
      exact .free he hkind hn hv ho

/-- What touches an object is an event that makes an access. -/
theorem Touches.exists_event {t : Trace} {r : EventRef} {o : ObjectId} {type : AccessType}
    (h : t.Touches r o type) : ∃ e n, t.event? r = some e ∧ t.arena.get? e.node = some n ∧
      e.kind.access? = some type := by
  obtain ⟨e, n, he, hn, hkind, -⟩ := touches_iff.1 h
  exact ⟨e, n, he, hn, hkind⟩

/-- What touches an object is an access through a pointer that may point to it. -/
theorem Touches.exists_accesses {t : Trace} (ht : t.WellFormed) {r : EventRef} {o : ObjectId}
    {type : AccessType} (h : t.Touches r o type) : ∃ e n p, t.event? r = some e ∧
      t.arena.get? e.node = some n ∧ n.Accesses p type ∧ o ∈ t.pointsTo.objects p := by
  obtain ⟨e, n, he, hn, hkind, ho⟩ := touches_iff.1 h
  obtain ⟨m, hm, hcategory⟩ := (ht.fits_event? he).node
  cases hn.symm.trans hm
  obtain ⟨p, hp⟩ := Node.exists_accesses hcategory hkind
  exact ⟨e, n, p, he, hn, hp, hp.objectsOf_eq t.pointsTo ▸ ho⟩

/-- The accesses of a well-formed trace are found, and are those that its events make. -/
theorem exists_accesses {t : Trace} (ht : t.WellFormed) :
    ∃ accesses, t.events.mapM (SharedMemory.accessesOf t) = .ok accesses ∧
      ∀ o type r, ⟨o, type, r⟩ ∈ accesses.flatten ↔ t.Touches r o type := by
  have hfound : ∀ e ∈ t.events, ∃ l, SharedMemory.accessesOf t e = .ok l := by
    intro e he
    obtain ⟨n, hn⟩ := ht.exists_node he
    refine Except.exists_bind (Arena.get_eq_ok.2 hn) ?_
    split
    · exact ⟨_, rfl⟩
    · exact ⟨_, rfl⟩
  obtain ⟨accesses, haccesses⟩ := Except.exists_mapM_eq_ok hfound
  refine ⟨accesses, haccesses, fun o type r => ?_⟩
  rw [List.mem_flatten]
  constructor
  · rintro ⟨l, hl, ha⟩
    obtain ⟨e, he, hel⟩ := (Except.mem_mapM haccesses).1 hl
    obtain ⟨n, hn, hel⟩ := Except.bind_eq_ok.1 hel
    split at hel
    · next type' hkind =>
      cases hel
      obtain ⟨o', ho', heq⟩ := List.mem_map.1 ha
      cases heq
      exact touches_iff.2 ⟨e, n, ht.mem_events.1 he, Arena.get_eq_ok.1 hn, hkind, ho'⟩
    · cases hel
      cases ha
  · intro htouches
    obtain ⟨e, n, he, hn, hkind, ho⟩ := touches_iff.1 htouches
    have href := ht.ref_eq he
    refine ⟨(SharedMemory.objectsOf t.pointsTo n type).map fun o => ⟨o, type, r⟩,
      (Except.mem_mapM haccesses).2 ⟨e, ht.mem_events.2 (href.symm ▸ he), ?_⟩, ?_⟩
    · refine Except.bind_eq_ok.2 ⟨n, Arena.get_eq_ok.2 hn, ?_⟩
      rw [hkind, href]
    · exact List.mem_map.2 ⟨o, ho, rfl⟩

end Trace

namespace SharedMemory

/-- The index of a well-formed trace is made, and holds the accesses that its events make. -/
theorem exists_indexes {t : Trace} (ht : t.WellFormed) :
    ∃ m l, ofTrace t = .ok m ∧ m.Indexes l ∧ ∀ o type r, ⟨o, type, r⟩ ∈ l ↔ t.Touches r o type := by
  obtain ⟨accesses, haccesses, hmem⟩ := Trace.exists_accesses ht
  refine ⟨_, accesses.flatten, ?_, indexes_ofAccesses _, hmem⟩
  exact Except.bind_eq_ok.2 ⟨accesses, haccesses, rfl⟩

end SharedMemory

end DataRace
