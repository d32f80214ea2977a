import DataRace.Program.Basic
import Mathlib.Data.List.Flatten
import Mathlib.Data.List.Nodup
import Mathlib.Data.List.Pairwise

/-!
# Lookups in accepted programs

A list of routines is accepted exactly if its names are different and its instruction ids are
(`Program.checkFrom_eq_ok`), and the program is then the index of its name and routines.  Each
routine is found by its own name (`Program.routine?_of_mem`) and each instruction by its id
(`Program.instruction?_of_has`), and an id names one instruction of the whole program
(`Program.identifies_of_ofRoutines`).
-/

namespace DataRace

namespace Program

variable {name : String} {routines : List Routine} {p : Program}

/-- The instruction ids of several routines, in order. -/
def idsOf (routines : List Routine) : List InstId :=
  routines.flatMap fun r => r.body.map Instruction.id

/-- The ids of one more routine come first. -/
theorem idsOf_cons (r : Routine) (routines : List Routine) :
    idsOf (r :: routines) = r.body.map Instruction.id ++ idsOf routines := List.flatMap_cons

/-! ### What is accepted -/

/-- A program that is accepted was checked and indexed. -/
theorem ofRoutines_eq_ok :
    ofRoutines name routines = .ok p ↔
      checkFrom ∅ ∅ routines = .ok () ∧ p = index name routines := by
  unfold ofRoutines
  split
  · next hcheck => simp [hcheck]
  · next hcheck => simp [hcheck, eq_comm]

/-- Ids that can be added are different and none of them was met before, and from then on all of
them were. -/
theorem addIds_spec {ids ids' : Std.HashSet InstId} {body : List Instruction}
    (h : addIds ids body = .ok ids') :
    ((body.map Instruction.id).Nodup ∧ ∀ i ∈ body.map Instruction.id, i ∉ ids) ∧
      ∀ i, i ∈ ids' ↔ i ∈ ids ∨ i ∈ body.map Instruction.id := by
  induction body generalizing ids with
  | nil =>
    cases h
    simp
  | cons i body ih =>
    unfold addIds at h
    split at h
    · cases h
    · next hnew =>
      obtain ⟨⟨hnodup, hfresh⟩, hmem⟩ := ih h
      simp only [Std.HashSet.mem_insert, beq_iff_eq, not_or] at hfresh hmem
      rw [List.map_cons, List.nodup_cons]
      refine ⟨⟨⟨fun hi => (hfresh _ hi).1 rfl, hnodup⟩, fun j hj => ?_⟩, fun j => ?_⟩
      · rcases List.mem_cons.1 hj with rfl | hj
        · exact hnew
        · exact (hfresh j hj).2
      · rw [hmem, List.mem_cons]
        tauto

/-- Different ids that were not met before are added. -/
theorem exists_addIds {ids : Std.HashSet InstId} {body : List Instruction}
    (hnodup : (body.map Instruction.id).Nodup) (hfresh : ∀ i ∈ body.map Instruction.id, i ∉ ids) :
    ∃ ids', addIds ids body = .ok ids' := by
  induction body generalizing ids with
  | nil => exact ⟨ids, rfl⟩
  | cons i body ih =>
    rw [List.map_cons, List.nodup_cons] at hnodup
    have hrest : ∀ j ∈ body.map Instruction.id, j ∉ ids.insert i.id := by
      intro j hj
      rw [Std.HashSet.mem_insert, beq_iff_eq, not_or]
      exact ⟨fun heq => hnodup.1 (heq ▸ hj), hfresh j (List.mem_cons_of_mem _ hj)⟩
    obtain ⟨ids', hids'⟩ := ih hnodup.2 hrest
    refine ⟨ids', ?_⟩
    unfold addIds
    rw [if_neg (hfresh i.id List.mem_cons_self), hids']

/-- Routines pass the check exactly if their names and their ids are different, and none of these
was met before. -/
theorem checkFrom_eq_ok {names : Std.HashSet String} {ids : Std.HashSet InstId} :
    checkFrom names ids routines = .ok () ↔
      ((routines.map Routine.name).Nodup ∧ ∀ f ∈ routines.map Routine.name, f ∉ names) ∧
        (idsOf routines).Nodup ∧ ∀ i ∈ idsOf routines, i ∉ ids := by
  induction routines generalizing names ids with
  | nil => simp [checkFrom, idsOf]
  | cons r routines ih =>
    unfold checkFrom
    rw [idsOf_cons, List.map_cons, List.nodup_cons, List.nodup_append']
    by_cases hname : r.name ∈ names
    · rw [if_pos hname]
      refine ⟨fun h => (nomatch h), fun ⟨⟨_, hfresh⟩, _⟩ => ?_⟩
      exact absurd hname (hfresh _ List.mem_cons_self)
    · rw [if_neg hname]
      cases hids : addIds ids r.body with
      | error d =>
        refine ⟨fun h => (nomatch h), fun ⟨_, ⟨hnodup, _⟩, hfresh⟩ => ?_⟩
        obtain ⟨ids', hids'⟩ :=
          exists_addIds hnodup fun i hi => hfresh i (List.mem_append_left _ hi)
        cases hids.symm.trans hids'
      | ok ids' =>
        obtain ⟨⟨hnodup, hfresh⟩, hmem⟩ := addIds_spec hids
        dsimp only
        rw [ih]
        simp only [Std.HashSet.mem_insert, beq_iff_eq, hmem, List.mem_cons, List.mem_append,
          List.disjoint_left]
        constructor
        · rintro ⟨⟨hnames, hnew⟩, hrest, hother⟩
          refine ⟨⟨⟨fun hr => hnew _ hr (Or.inl rfl), hnames⟩, ?_⟩,
            ⟨hnodup, hrest, fun i hi hi' => hother i hi' (Or.inr hi)⟩, ?_⟩
          · rintro f (rfl | hf)
            · exact hname
            · exact fun hf' => hnew f hf (Or.inr hf')
          · rintro i (hi | hi)
            · exact hfresh i hi
            · exact fun hi' => hother i hi (Or.inl hi')
        · rintro ⟨⟨⟨hr, hnames⟩, hnew⟩, ⟨-, hrest, hapart⟩, hother⟩
          refine ⟨⟨hnames, ?_⟩, hrest, ?_⟩
          · rintro f hf (rfl | hf')
            · exact hr hf
            · exact hnew f (Or.inr hf) hf'
          · rintro i hi (hi' | hi')
            · exact hother i (Or.inr hi) hi'
            · exact hapart hi' hi

/-- A list of routines is accepted exactly if no two of them have one name and no two of their
instructions have one id. -/
theorem ofRoutines_eq_ok_iff_nodup :
    ofRoutines name routines = .ok p ↔
      (routines.map Routine.name).Nodup ∧ (idsOf routines).Nodup ∧ p = index name routines := by
  rw [ofRoutines_eq_ok, checkFrom_eq_ok]
  simp [and_assoc]

/-- No two routines of an accepted program have one name. -/
theorem nodup_names (h : ofRoutines name routines = .ok p) : (routines.map Routine.name).Nodup :=
  (ofRoutines_eq_ok_iff_nodup.1 h).1

/-! ### Indexes -/

section Fill

variable {κ α : Type} [BEq κ] [LawfulBEq κ] [Hashable κ] {key : α → κ} {l : List α}

/-- Filling an index leaves a key alone that no entry has. -/
theorem getElem?_fill_of_forall_ne {k : κ} (h : ∀ a ∈ l, key a ≠ k) (m : Std.HashMap κ α) :
    (l.foldl (fun m a => m.insert (key a) a) m)[k]? = m[k]? := by
  induction l generalizing m with
  | nil => rfl
  | cons b l ih =>
    rw [List.foldl_cons, ih fun a ha => h a (List.mem_cons_of_mem _ ha),
      Std.HashMap.getElem?_insert, if_neg (by simpa using h b List.mem_cons_self)]

/-- Filling an index with entries of different keys, each is found. -/
theorem getElem?_fill_of_mem (hnodup : (l.map key).Nodup) {a : α} (ha : a ∈ l)
    (m : Std.HashMap κ α) : (l.foldl (fun m a => m.insert (key a) a) m)[key a]? = some a := by
  induction l generalizing m with
  | nil => cases ha
  | cons b l ih =>
    rw [List.map_cons, List.nodup_cons] at hnodup
    rw [List.foldl_cons]
    rcases List.mem_cons.1 ha with rfl | ha
    · have hother : ∀ a' ∈ l, key a' ≠ key a := fun a' ha' heq =>
        hnodup.1 (List.mem_map.2 ⟨a', ha', heq⟩)
      rw [getElem?_fill_of_forall_ne hother, Std.HashMap.getElem?_insert_self]
    · exact ih hnodup.2 ha _

end Fill

/-! ### Routines -/

/-- A routine of an accepted program is found by its name. -/
theorem routine?_of_mem (h : ofRoutines name routines = .ok p) {r : Routine} (hr : r ∈ routines) :
    p.routine? r.name = some r := by
  obtain ⟨-, rfl⟩ := ofRoutines_eq_ok.1 h
  exact getElem?_fill_of_mem (nodup_names h) hr ∅

/-- A routine of an accepted program has a definition if it has a body. -/
theorem definition?_of_mem (h : ofRoutines name routines = .ok p) {r : Routine}
    (hr : r ∈ routines) : p.definition? r.name = if r.body = [] then none else some r := by
  rw [definition?, routine?_of_mem h hr]
  cases hbody : r.body <;> simp [Routine.isDeclaration, hbody]

/-- The routines of an index are those of the list, under their names. -/
theorem named_of_definition? {f : String} {r : Routine}
    (h : (index name routines).definition? f = some r) : r ∈ routines ∧ r.name = f := by
  have hfold : ∀ (l : List Routine) (m : Std.HashMap String Routine),
      (l.foldl (fun m r => m.insert r.name r) m)[f]? = some r →
        r ∈ l ∧ r.name = f ∨ m[f]? = some r := by
    intro l
    induction l with
    | nil => exact fun m hm => Or.inr hm
    | cons q l ih =>
      intro m hm
      rcases ih _ hm with ⟨hl, hname⟩ | hm
      · exact Or.inl ⟨List.mem_cons_of_mem _ hl, hname⟩
      · rw [Std.HashMap.getElem?_insert] at hm
        split at hm
        · next hname =>
          cases hm
          exact Or.inl ⟨List.mem_cons_self, beq_iff_eq.1 hname⟩
        · exact Or.inr hm
  rcases hfold routines ∅ (Option.filter_eq_some_iff.1 h).1 with hr | hempty
  · exact hr
  · rw [Std.HashMap.getElem?_empty] at hempty
    cases hempty

/-- The routines of an index are those of the list. -/
theorem mem_of_definition? {f : String} {r : Routine}
    (h : (index name routines).definition? f = some r) : r ∈ routines :=
  (named_of_definition? h).1

/-! ### Instructions -/

/-- An instruction of a routine that is defined in a program. -/
def Has (p : Program) (i : Instruction) : Prop := ∃ f r, p.definition? f = some r ∧ i ∈ r.body

/-- An instruction id names one instruction, whichever routines of the program it is looked for
in. -/
def Identifies (p : Program) : Prop := ∀ i j, p.Has i → p.Has j → i.id = j.id → i = j

/-- Among routines whose ids are different, an id names one instruction. -/
theorem eq_of_nodup_idsOf (h : (idsOf routines).Nodup) {r s : Routine} (hr : r ∈ routines)
    (hs : s ∈ routines) {i j : Instruction} (hi : i ∈ r.body) (hj : j ∈ s.body)
    (heq : i.id = j.id) : i = j := by
  have hmap : (routines.flatMap Routine.body).map Instruction.id = idsOf routines :=
    List.map_flatMap
  refine List.inj_on_of_nodup_map (hmap ▸ h) ?_ ?_ heq
  · exact List.mem_flatMap.2 ⟨r, hr, hi⟩
  · exact List.mem_flatMap.2 ⟨s, hs, hj⟩

/-- An instruction of an accepted program is found by its id. -/
theorem instruction?_of_has (h : ofRoutines name routines = .ok p) {i : Instruction}
    (hi : p.Has i) : p.instruction? i.id = some i := by
  obtain ⟨-, hids, rfl⟩ := ofRoutines_eq_ok_iff_nodup.1 h
  obtain ⟨f, r, hr, hi⟩ := hi
  have hmap : (routines.flatMap Routine.body).map Instruction.id = idsOf routines :=
    List.map_flatMap
  have hfill := getElem?_fill_of_mem (hmap ▸ hids)
    (List.mem_flatMap.2 ⟨r, mem_of_definition? hr, hi⟩) ∅
  rw [List.foldl_flatMap] at hfill
  exact hfill

/-- In a program that was accepted an id names one instruction. -/
theorem identifies_of_ofRoutines (h : ofRoutines name routines = .ok p) : p.Identifies := by
  obtain ⟨-, hids, rfl⟩ := ofRoutines_eq_ok_iff_nodup.1 h
  rintro i j ⟨f, r, hr, hi⟩ ⟨g, s, hs, hj⟩ heq
  exact eq_of_nodup_idsOf hids (mem_of_definition? hr) (mem_of_definition? hs) hi hj heq

/-- In a program that was accepted an instruction is in one routine. -/
theorem routine_unique_of_ofRoutines (h : ofRoutines name routines = .ok p) {f g : String}
    {r s : Routine} {i : Instruction} (hr : p.definition? f = some r) (hi : i ∈ r.body)
    (hs : p.definition? g = some s) (hi' : i ∈ s.body) : f = g := by
  obtain ⟨-, hids, rfl⟩ := ofRoutines_eq_ok_iff_nodup.1 h
  obtain ⟨hmem, rfl⟩ := named_of_definition? hr
  obtain ⟨hmem', rfl⟩ := named_of_definition? hs
  have : Std.Symm (Function.onFun List.Disjoint fun r : Routine => r.body.map Instruction.id) :=
    ⟨fun _ _ hdisjoint _ hid hid' => hdisjoint hid' hid⟩
  by_contra hne
  have hdisjoint := (List.nodup_flatMap.1 hids).2.forall hmem hmem' fun heq => hne (congrArg _ heq)
  exact hdisjoint (List.mem_map_of_mem hi) (List.mem_map_of_mem hi')

end Program

end DataRace
