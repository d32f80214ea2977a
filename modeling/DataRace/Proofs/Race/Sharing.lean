import DataRace.Proofs.Race.Detect

/-!
# When objects are shared

The test for shared objects counts rows and compares first threads.  Rows stand in the order of
their threads and none is empty, so two rows have accesses of two threads
(`Rows.Holds.exists_other`).  A table is therefore shared exactly if two of its accesses come from
different threads and one of them writes or frees (`AccessTable.isShared_iff_exists`).

For the index of a list of accesses this says that the order and the number of times in which they
are given do not matter, and that an object which is not shared has no races
(`SharedMemory.shared_iff_conflict`).
-/

namespace DataRace

/-! ### Rows in order -/

namespace Rows

namespace Holds

variable {rows rows' : Rows EventRef} {s s' : EventRef → Prop}

/-- Every row has an event, of the thread of the row. -/
theorem exists_event (h : Holds rows s) {r : Nat × List EventRef} (hr : r ∈ rows) :
    ∃ e, s e ∧ e.thread = r.1 := by
  obtain ⟨hne, hrow⟩ := h.sound r.1 r.2 hr
  obtain ⟨e, he⟩ := List.exists_mem_of_ne_nil _ hne
  exact ⟨e, (hrow e he).2, (hrow e he).1⟩

/-- Two rows in order have an event of another thread than a given one. -/
theorem exists_other (h : Holds rows s) (hrows : Ascending rows) (hlength : 2 ≤ rows.length)
    (thread : ThreadId) : ∃ e, s e ∧ e.thread ≠ thread := by
  obtain ⟨r, hr, r', hr', hne⟩ := hrows.exists_two hlength
  obtain ⟨e, he, hthread⟩ := h.exists_event hr
  obtain ⟨e', he', hthread'⟩ := h.exists_event hr'
  by_cases heq : e.thread = thread
  · refine ⟨e', he', fun heq' => hne ?_⟩
    rw [← hthread, ← hthread', heq, heq']
  · exact ⟨e, he, heq⟩

/-- Rows that begin with different threads have events of different threads. -/
theorem exists_apart (h : Holds rows s) (h' : Holds rows' s') (hlength : rows.length = 1)
    (hlength' : rows'.length = 1) (hapart : AccessTable.apart rows rows' = true) :
    ∃ e e', s e ∧ s' e' ∧ e.thread ≠ e'.thread := by
  obtain ⟨r, rfl⟩ := List.length_eq_one_iff.1 hlength
  obtain ⟨r', rfl⟩ := List.length_eq_one_iff.1 hlength'
  obtain ⟨e, he, hthread⟩ := h.exists_event List.mem_cons_self
  obtain ⟨e', he', hthread'⟩ := h'.exists_event List.mem_cons_self
  refine ⟨e, e', he, he', fun heq => ?_⟩
  simp [AccessTable.apart, keys, ← hthread, ← hthread', heq] at hapart

end Holds

end Rows

/-! ### Tables -/

namespace AccessTable

variable {table : AccessTable} {s : AccessType → EventRef → Prop}

/-- All rows of a table are in order. -/
def Ascending (table : AccessTable) : Prop := ∀ type, (table.rows type).Ascending

/-- Adding an access keeps a table in order. -/
theorem Ascending.add (h : table.Ascending) (type : AccessType) (e : EventRef) :
    (table.add type e).Ascending := by
  intro type'
  rw [rows_add]
  split
  · exact (h type).modify _ _
  · exact h type'

/-- A table in order is shared exactly if two of its accesses come from different threads and one
of them writes or frees. -/
theorem isShared_iff_exists (h : table.Holds s) (hasc : table.Ascending) :
    table.isShared = true ↔ ∃ a b ta tb,
      s ta a ∧ s tb b ∧ a.thread ≠ b.thread ∧ ta.conflicts tb = true := by
  constructor
  · rw [isShared_iff]
    -- Two rows of one type that is no read conflict with each other.
    have htwo : ∀ type : AccessType, type.isWrite = true → 2 ≤ (table.rows type).length →
        ∃ a b ta tb, s ta a ∧ s tb b ∧ a.thread ≠ b.thread ∧ ta.conflicts tb = true := by
      intro type hwrite hlength
      obtain ⟨b, hb, -⟩ := (h type).exists_other (hasc type) hlength 0
      obtain ⟨a, ha, hne⟩ := (h type).exists_other (hasc type) hlength b.thread
      exact ⟨a, b, type, type, ha, hb, hne, by simp [AccessType.conflicts, hwrite]⟩
    -- One row that is no read conflicts with two rows of reads.
    have hreads : ∀ type : AccessType, type.isWrite = true → (table.rows type).length = 1 →
        2 ≤ (table.rows .read).length →
        ∃ a b ta tb, s ta a ∧ s tb b ∧ a.thread ≠ b.thread ∧ ta.conflicts tb = true := by
      intro type hwrite hone hlength
      obtain ⟨r, hr⟩ := List.exists_mem_of_length_pos (hone ▸ Nat.zero_lt_one)
      obtain ⟨b, hb, -⟩ := (h type).exists_event hr
      obtain ⟨a, ha, hne⟩ := (h .read).exists_other (hasc .read) hlength b.thread
      exact ⟨a, b, .read, type, ha, hb, hne, by simp [AccessType.conflicts, hwrite]⟩
    have hapart : ∀ type type' : AccessType, type.isWrite = true →
        (table.rows type).length = 1 → (table.rows type').length = 1 →
        apart (table.rows type) (table.rows type') = true →
        ∃ a b ta tb, s ta a ∧ s tb b ∧ a.thread ≠ b.thread ∧ ta.conflicts tb = true := by
      intro type type' hwrite hone hone' hapart
      obtain ⟨a, b, ha, hb, hne⟩ := (h type).exists_apart (h type') hone hone' hapart
      exact ⟨a, b, type, type', ha, hb, hne, by simp [AccessType.conflicts, hwrite]⟩
    rintro (hw | hf | ⟨hw | hf, hr⟩ | ⟨hw, hr, hne⟩ | ⟨hf, hr, hne⟩ | ⟨hf, hw, hne⟩)
    · exact htwo .write rfl hw
    · exact htwo .free rfl hf
    · exact hreads .write rfl hw hr
    · exact hreads .free rfl hf hr
    · exact hapart .write .read rfl hw hr hne
    · exact hapart .free .read rfl hf hr hne
    · exact hapart .free .write rfl hf hw hne
  · rintro ⟨a, b, ta, tb, ha, hb, hne, hconflict⟩
    exact isShared_of_holds h ha hb hne hconflict

end AccessTable

/-! ### Indexes -/

namespace SharedMemory

/-- All tables of an index are in order. -/
def Ascending (m : SharedMemory) : Prop :=
  ∀ (id : AccessedId) (o : ObjectId) (table : AccessTable),
    m.objects[id]? = some (o, table) → table.Ascending

/-- Adding an access keeps the tables in order. -/
theorem Ascending.add {m : SharedMemory} (h : m.Ascending) (a : Access) : (m.add a).Ascending := by
  intro id o table hentry
  unfold SharedMemory.add at hentry
  split at hentry
  · rw [Array.getElem?_modify] at hentry
    split at hentry
    · obtain ⟨⟨o', old⟩, hold, hnew⟩ := Option.map_eq_some_iff.1 hentry
      cases hnew
      exact (h _ _ old hold).add _ _
    · exact h id o table hentry
  · rw [Array.getElem?_push] at hentry
    split at hentry
    · cases hentry
      have hempty : AccessTable.empty.Ascending := by
        intro type
        cases type <;> exact List.Pairwise.nil
      exact hempty.add _ _
    · exact h id o table hentry

/-- The tables of the index of a list are in order. -/
theorem ascending_ofAccesses (l : List Access) : (ofAccesses l).Ascending := by
  unfold ofAccesses
  refine List.foldlRecOn l _ (fun id o table hentry => ?_) fun m hm a _ => hm.add a
  cases hentry

/-- Two accesses of an object in a list come from different threads, and one of them writes or
frees. -/
def Clash (l : List Access) (o : ObjectId) : Prop :=
  ∃ a ∈ l, ∃ b ∈ l, a.object = o ∧ b.object = o ∧ a.event.thread ≠ b.event.thread ∧
    a.type.conflicts b.type = true

/-- An object with a number is shared exactly if two of its accesses clash. -/
theorem isShared_iff_clash (l : List Access) {id : AccessedId} {o : ObjectId}
    (ho : (ofAccesses l).object? id = some o) :
    (ofAccesses l).isShared id = true ↔ Clash l o := by
  unfold object? at ho
  obtain ⟨⟨o', table⟩, hentry, rfl⟩ := Option.map_eq_some_iff.1 ho
  have hholds := (indexes_ofAccesses l).holds id _ table hentry
  unfold isShared SharedMemory.table
  rw [hentry, Option.map_some, Option.getD_some,
    AccessTable.isShared_iff_exists hholds (ascending_ofAccesses l id _ table hentry)]
  constructor
  · rintro ⟨a, b, ta, tb, ha, hb, hne, hconflict⟩
    exact ⟨_, ha, _, hb, rfl, rfl, hne, hconflict⟩
  · rintro ⟨⟨oa, ta, a⟩, ha, ⟨ob, tb, b⟩, hb, hoa, hob, hne, hconflict⟩
    dsimp only at hoa hob hne hconflict
    subst hoa hob
    exact ⟨a, b, ta, tb, ha, hb, hne, hconflict⟩

end SharedMemory

/-! ### Races on objects that are not shared -/

namespace Detector

variable {d : Detector}

/-- Accesses that do not race have no races. -/
theorem racesWith_eq_nil (id : AccessedId) (o : ObjectId) {a : EventRef × AccessType}
    {l : List (EventRef × AccessType)} (h : ∀ b ∈ l, d.isRacing a b = false) :
    d.racesWith id o a l = .ok [] := by
  induction l with
  | nil => rfl
  | cons b l ih =>
    unfold racesWith
    rw [if_neg (by simp [h b List.mem_cons_self]),
      ih fun b' hb' => h b' (List.mem_cons_of_mem _ hb')]

/-- Among accesses that do not race there are no races. -/
theorem racesAmong_eq_nil (id : AccessedId) (o : ObjectId) {l : List (EventRef × AccessType)}
    (h : ∀ a ∈ l, ∀ b ∈ l, d.isRacing a b = false) : d.racesAmong id o l = .ok [] := by
  induction l with
  | nil => rfl
  | cons a l ih =>
    have hfirst :=
      racesWith_eq_nil id o fun b hb => h a List.mem_cons_self b (List.mem_cons_of_mem _ hb)
    have hrest := ih fun a' ha' b' hb' =>
      h a' (List.mem_cons_of_mem _ ha') b' (List.mem_cons_of_mem _ hb')
    unfold racesAmong
    rw [hfirst, hrest]
    rfl

/-- An object that is not shared has no races, and neither has a number without an object. -/
theorem racesOn_eq_nil {l : List Access} (hmemory : d.memory = .ofAccesses l) {id : AccessedId}
    (h : d.memory.isShared id = false) : d.racesOn id = .ok [] := by
  unfold racesOn
  split
  · rfl
  · next o ho =>
    refine racesAmong_eq_nil id o fun a ha b hb => Bool.eq_false_iff.2 fun hracing => ?_
    obtain ⟨hne, hconflict, -⟩ := isRacing_eq_true_iff.1 hracing
    have hindexes : d.memory.Indexes l := hmemory ▸ SharedMemory.indexes_ofAccesses l
    obtain ⟨oa, hoa, hla⟩ := (mem_accesses_of_indexes hindexes).1 ha
    obtain ⟨ob, hob, hlb⟩ := (mem_accesses_of_indexes hindexes).1 hb
    rw [hoa] at ho hob
    cases ho
    cases hob
    rw [hmemory] at h hoa
    rw [(SharedMemory.isShared_iff_clash l hoa).2 ⟨_, hla, _, hlb, rfl, rfl, hne,
      AccessType.conflicts_iff.2 hconflict⟩] at h
    cases h

end Detector

namespace SharedMemory

/-- Every object of a list of accesses has a number, and is shared exactly if two of its accesses
come from different threads and one of them writes or frees.  So a list with the same accesses,
whatever their order and how often each is given, has the same shared objects; and what is not
shared has no races, whatever else is known of a trace. -/
theorem shared_iff_conflict (l : List Access) :
    (∀ a ∈ l, ∃ id, (ofAccesses l).id? a.object = some id) ∧
      (∀ o id, (ofAccesses l).id? o = some id → ((ofAccesses l).isShared id = true ↔
        ∃ a ∈ l, ∃ b ∈ l, a.object = o ∧ b.object = o ∧ a.event.thread ≠ b.event.thread ∧
          a.type.conflicts b.type = true)) ∧
      (∀ l' : List Access, (∀ a, a ∈ l' ↔ a ∈ l) → ∀ o id id', (ofAccesses l).id? o = some id →
        (ofAccesses l').id? o = some id' →
          (ofAccesses l').isShared id' = (ofAccesses l).isShared id) ∧
      ∀ d : Detector, d.memory = ofAccesses l → ∀ id, (ofAccesses l).isShared id = false →
        d.racesOn id = .ok [] := by
  have hobject : ∀ (l : List Access) o id, (ofAccesses l).id? o = some id →
      (ofAccesses l).object? id = some o :=
    fun l o id hid => ((indexes_ofAccesses l).ids o id).1 hid
  refine ⟨(indexes_ofAccesses l).complete,
    fun o id hid => isShared_iff_clash l (hobject l o id hid),
    fun l' hl o id id' hid hid' => ?_, fun d hd id hshared => ?_⟩
  · rw [Bool.eq_iff_iff, isShared_iff_clash l (hobject l o id hid),
      isShared_iff_clash l' (hobject l' o id' hid')]
    unfold Clash
    simp only [hl]
  · exact Detector.racesOn_eq_nil hd (hd ▸ hshared)

/-- A write and a read of one object by two threads, and a read of another object. -/
def writeRead : List Access :=
  [⟨⟨4⟩, .write, ⟨0, 1⟩⟩, ⟨⟨4⟩, .read, ⟨1, 0⟩⟩, ⟨⟨5⟩, .read, ⟨1, 1⟩⟩]

/-- The same accesses in another order, one of them twice. -/
def readWrite : List Access :=
  [⟨⟨5⟩, .read, ⟨1, 1⟩⟩, ⟨⟨4⟩, .read, ⟨1, 0⟩⟩, ⟨⟨4⟩, .write, ⟨0, 1⟩⟩, ⟨⟨4⟩, .read, ⟨1, 0⟩⟩]

/-- A write and a read of two threads make an object shared, in whatever order they are given; an
object with a read only is not shared and has no races. -/
theorem shared_writeRead :
    (ofAccesses writeRead).isShared 0 = true ∧ (ofAccesses readWrite).isShared 1 = true ∧
      (⟨ForkJoin.trace, ofAccesses writeRead, ⟨⟨[], []⟩, [], [], [], ∅⟩, ⟨#[]⟩⟩ :
        Detector).racesOn 1
        = .ok [] := by
  obtain ⟨-, hshared, hsame, hnone⟩ := shared_iff_conflict writeRead
  have hid : (ofAccesses writeRead).id? ⟨4⟩ = some 0 := by
    simp [ofAccesses, writeRead, add, id?, empty, Std.HashMap.getElem_insert]
  have hid' : (ofAccesses readWrite).id? ⟨4⟩ = some 1 := by
    simp [ofAccesses, readWrite, add, id?, empty]
  have hfirst : (ofAccesses writeRead).isShared 0 = true := by
    refine (hshared ⟨4⟩ 0 hid).2
      ⟨_, List.mem_cons_self, _, List.mem_cons_of_mem _ List.mem_cons_self, ?_⟩
    exact ⟨rfl, rfl, by decide, rfl⟩
  have hsecond : (ofAccesses writeRead).isShared 1 = false := by
    simp [ofAccesses, writeRead, add, empty, isShared, SharedMemory.table, AccessTable.isShared,
      AccessTable.add, AccessTable.empty, Rows.modify]
  refine ⟨hfirst, (hsame readWrite (fun a => ?_) ⟨4⟩ 0 1 hid hid').trans hfirst, ?_⟩
  · simp only [writeRead, readWrite, List.mem_cons, List.not_mem_nil, or_false]
    tauto
  · exact hnone _ rfl 1 hsecond

end SharedMemory

end DataRace
