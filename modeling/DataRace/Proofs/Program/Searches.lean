import DataRace.Proofs.Program.Built
import Mathlib.Algebra.GroupWithZero.Nat

/-!
# Programs against searches

Routines are read name by name and id by id, each name before its body (`Program.marks`).  A list of
routines that is not accepted is refused for the first name or id that was read before
(`Program.checkFrom_eq_error`).

The indexes of a program whose names and ids are different answer what a search through its routines
would answer (`Program.Searches`, `Program.searches_index`).  That holds of accepted programs and,
as builders repeat nothing, of built ones (`Program.ofRoutines_searches`).
-/

namespace DataRace

namespace Program

/-! ### The first repetition -/

section Repeats

variable {α : Type}

/-- The first entry of a list that was met before, in the list or earlier. -/
def RepeatsFirst (met : α → Prop) (l : List α) (d : α) : Prop :=
  ∃ before after, l = before ++ d :: after ∧ before.Nodup ∧ (∀ e ∈ before, ¬ met e) ∧
    (met d ∨ d ∈ before)

variable {met : α → Prop}

/-- An empty list repeats nothing. -/
theorem not_repeatsFirst_nil {d : α} : ¬ RepeatsFirst met [] d := by
  rintro ⟨before, after, h, -⟩
  exact List.append_ne_nil_of_right_ne_nil before (List.cons_ne_nil d after) h.symm

/-- Either the head of a list was met before, or it is met from then on. -/
theorem repeatsFirst_cons {a d : α} {l : List α} :
    RepeatsFirst met (a :: l) d ↔
      met a ∧ d = a ∨ ¬ met a ∧ RepeatsFirst (fun e => e = a ∨ met e) l d := by
  constructor
  · rintro ⟨before, after, hl, hnodup, hnew, hd⟩
    cases before with
    | nil =>
      cases hl
      exact Or.inl ⟨hd.resolve_right List.not_mem_nil, rfl⟩
    | cons b before =>
      cases hl
      obtain ⟨hb, hnodup⟩ := List.nodup_cons.1 hnodup
      refine Or.inr ⟨hnew a List.mem_cons_self, before, after, rfl, hnodup, fun e he => ?_, ?_⟩
      · rintro (rfl | hmet)
        · exact hb he
        · exact hnew e (List.mem_cons_of_mem _ he) hmet
      · rcases hd with hd | hd
        · exact Or.inl (Or.inr hd)
        · exact (List.mem_cons.1 hd).imp_left Or.inl
  · rintro (⟨ha, rfl⟩ | ⟨ha, before, after, rfl, hnodup, hnew, hd⟩)
    · exact ⟨[], l, rfl, List.nodup_nil, fun e he => absurd he List.not_mem_nil, Or.inl ha⟩
    · have hnodup' : (a :: before).Nodup :=
        List.nodup_cons.2 ⟨fun hmem => hnew a hmem (Or.inl rfl), hnodup⟩
      refine ⟨a :: before, after, rfl, hnodup', fun e he => ?_, ?_⟩
      · rcases List.mem_cons.1 he with rfl | he
        · exact ha
        · exact fun hmet => hnew e he (Or.inr hmet)
      · rcases hd with (rfl | hd) | hd
        · exact Or.inr List.mem_cons_self
        · exact Or.inl hd
        · exact Or.inr (List.mem_cons_of_mem _ hd)

end Repeats

/-- The names and ids of routines as they are read, each name before its body. -/
def marks (routines : List Routine) : List Duplicate :=
  routines.flatMap fun r => .routine r.name :: r.body.map fun i => .instruction i.id

/-- A name or an id is among those met before. -/
def Met (names : Std.HashSet String) (ids : Std.HashSet InstId) : Duplicate → Prop
  | .routine f => f ∈ names
  | .instruction i => i ∈ ids

variable {names : Std.HashSet String} {ids : Std.HashSet InstId}

/-- One more name was met. -/
theorem met_insert_name (f : String) :
    Met (names.insert f) ids = fun d => d = .routine f ∨ Met names ids d := by
  funext d
  cases d with
  | routine g => simp [Met, eq_comm (a := f)]
  | instruction i => simp [Met]

/-- One more id was met. -/
theorem met_insert_id (i : InstId) :
    Met names (ids.insert i) = fun d => d = .instruction i ∨ Met names ids d := by
  funext d
  cases d with
  | routine f => simp [Met]
  | instruction j => simp [Met, eq_comm (a := i)]

/-- Among the ids of a body and what is read after it, the first repetition is that of the body, if
its ids cannot be added. -/
theorem repeatsFirst_body {body : List Instruction} {rest : List Duplicate} {d : Duplicate} :
    RepeatsFirst (Met names ids) (body.map (fun i => .instruction i.id) ++ rest) d ↔
      match addIds ids body with
      | .error e => d = e
      | .ok ids' => RepeatsFirst (Met names ids') rest d := by
  induction body generalizing ids with
  | nil => rfl
  | cons i body ih =>
    unfold addIds
    rw [List.map_cons, List.cons_append, repeatsFirst_cons, ← met_insert_id, ih]
    by_cases hi : i.id ∈ ids <;> simp [Met, hi]

/-- What is refused is the first name or id that was met before. -/
theorem checkFrom_eq_error {routines : List Routine} {d : Duplicate} :
    checkFrom names ids routines = .error d ↔ RepeatsFirst (Met names ids) (marks routines) d := by
  induction routines generalizing names ids with
  | nil => exact ⟨fun h => (nomatch h), fun h => absurd h not_repeatsFirst_nil⟩
  | cons r routines ih =>
    have hmarks : marks (r :: routines) =
        .routine r.name :: (r.body.map (fun i => .instruction i.id) ++ marks routines) := rfl
    unfold checkFrom
    rw [hmarks, repeatsFirst_cons, ← met_insert_name, repeatsFirst_body]
    by_cases hname : r.name ∈ names
    · simp [Met, hname, eq_comm]
    · rw [if_neg hname]
      cases addIds ids r.body with
      | error e => simp [Met, hname, eq_comm]
      | ok ids' => simp [Met, hname, ih]

/-- A list of routines is refused for the first name or id that was read before. -/
theorem ofRoutines_eq_error {name : String} {routines : List Routine} {d : Duplicate} :
    ofRoutines name routines = .error d ↔
      ∃ before after, marks routines = before ++ d :: after ∧ before.Nodup ∧ d ∈ before := by
  have hcheck : ofRoutines name routines = .error d ↔ checkFrom ∅ ∅ routines = .error d := by
    unfold ofRoutines
    split
    · next h => simp [h]
    · next h => simp [h]
  have hnone : ∀ e, ¬ Met ∅ ∅ e := by
    rintro (f | i)
    · exact Std.HashSet.not_mem_empty
    · exact Std.HashSet.not_mem_empty
  rw [hcheck, checkFrom_eq_error, RepeatsFirst]
  simp [hnone]

/-! ### Lookups -/

section Fill

variable {κ α : Type} [DecidableEq κ] [Hashable κ] {key : α → κ} {l : List α}

/-- What an index answers that is filled with entries of different keys. -/
theorem getElem?_fill (hnodup : (l.map key).Nodup) (k : κ) (m : Std.HashMap κ α) :
    (l.foldl (fun m a => m.insert (key a) a) m)[k]? = (l.find? fun a => key a = k).or m[k]? := by
  cases hfind : l.find? fun a => key a = k with
  | none =>
    refine getElem?_fill_of_forall_ne (fun a ha hkey => ?_) m
    exact List.find?_eq_none.1 hfind a ha (decide_eq_true hkey)
  | some a =>
    obtain rfl : key a = k := by simpa using List.find?_some hfind
    exact getElem?_fill_of_mem hnodup (List.mem_of_find?_eq_some hfind) m

/-- How many entries an index has that is filled with entries of different new keys. -/
theorem size_fill (hnodup : (l.map key).Nodup) {m : Std.HashMap κ α} (hnew : ∀ a ∈ l, key a ∉ m) :
    (l.foldl (fun m a => m.insert (key a) a) m).size = m.size + l.length := by
  induction l generalizing m with
  | nil => rfl
  | cons a l ih =>
    obtain ⟨ha, hnodup⟩ := List.nodup_cons.1 hnodup
    have hnew' : ∀ b ∈ l, key b ∉ m.insert (key a) a := by
      intro b hb
      rw [Std.HashMap.mem_insert, beq_iff_eq, not_or]
      exact ⟨fun heq => ha (heq ▸ List.mem_map_of_mem hb), hnew b (List.mem_cons_of_mem _ hb)⟩
    rw [List.foldl_cons, ih hnodup hnew', Std.HashMap.size_insert,
      if_neg (hnew a List.mem_cons_self), List.length_cons, Nat.add_assoc, Nat.add_comm 1]

end Fill

/-- A program answers what a search through routines answers, in their order. -/
structure Searches (p : Program) (routines : List Routine) : Prop where
  routine : ∀ f, p.routine? f = routines.find? fun r => r.name = f
  definition : ∀ f, p.definition? f = routines.find? fun r => r.name = f ∧ r.body ≠ []
  instruction : ∀ i, p.instruction? i = (routines.flatMap Routine.body).find? fun j => j.id = i
  count : p.instructionCount = (routines.map fun r => r.body.length).sum

/-- Of routines with different names, the first of a name is the only one to look at. -/
theorem find?_filter {routines : List Routine} (hnodup : (routines.map Routine.name).Nodup)
    (q : Routine → Bool) (f : String) :
    (routines.find? fun r => r.name = f).filter q =
      routines.find? fun r => decide (r.name = f) && q r := by
  induction routines with
  | nil => rfl
  | cons r routines ih =>
    obtain ⟨hr, hnodup⟩ := List.nodup_cons.1 hnodup
    rw [List.find?_cons, List.find?_cons, ← ih hnodup]
    by_cases hname : r.name = f
    · have hnone : routines.find? (fun s => s.name = f) = none := by
        rw [List.find?_eq_none]
        intro s hs hname'
        exact hr (hname.trans (of_decide_eq_true hname').symm ▸ List.mem_map_of_mem hs)
      rw [hnone]
      cases hq : q r <;> simp [hname, hq, Option.filter]
    · simp [hname]

/-- The index of routines answers searches, if their names and ids are different. -/
theorem searches_index {routines : List Routine} (hnames : (routines.map Routine.name).Nodup)
    (hids : (idsOf routines).Nodup) (name : String) : (index name routines).Searches routines := by
  have hroutine : ∀ f, (index name routines).routine? f = routines.find? fun r => r.name = f := by
    intro f
    refine (getElem?_fill hnames f ∅).trans ?_
    rw [Std.HashMap.getElem?_empty, Option.or_none]
  -- Filling the index body by body is filling it with all instructions.
  have hids' : ((routines.flatMap Routine.body).map Instruction.id).Nodup := by
    rw [List.map_flatMap]
    exact hids
  have hbyId : (index name routines).byId =
      (routines.flatMap Routine.body).foldl (fun m i => m.insert i.id i) ∅ :=
    List.foldl_flatMap.symm
  refine ⟨hroutine, fun f => ?_, fun i => ?_, ?_⟩
  · rw [definition?, hroutine, find?_filter hnames]
    refine congrArg (List.find? · routines) (funext fun r => ?_)
    cases hbody : r.body <;> simp [Routine.isDeclaration, hbody]
  · rw [instruction?, hbyId, getElem?_fill hids', Std.HashMap.getElem?_empty, Option.or_none]
  · rw [instructionCount, hbyId, size_fill hids' fun _ _ => Std.HashMap.not_mem_empty,
      Std.HashMap.size_empty, Nat.zero_add, List.length_flatMap]

/-! ### Accepted and built programs -/

/-- A list of routines is accepted exactly if no two of them have one name and no two instructions
one id, and is refused for the first name or id, in the order of reading, that was read before.  An
accepted program answers what a search answers, and so does a built one, whose names and ids are
different although nothing checks them. -/
theorem ofRoutines_searches :
    (∀ name routines, (∃ p, ofRoutines name routines = .ok p) ↔
      (routines.map Routine.name).Nodup ∧ (idsOf routines).Nodup) ∧
    (∀ name routines d, ofRoutines name routines = .error d ↔
      ∃ before after, marks routines = before ++ d :: after ∧ before.Nodup ∧ d ∈ before) ∧
    (∀ name routines p, ofRoutines name routines = .ok p →
      p.name = name ∧ p.routines = routines ∧ p.Searches routines) ∧
    ∀ b : Builder, b.Reached → (b.routines.map Routine.name).Nodup ∧ (idsOf b.routines).Nodup ∧
      b.build.name = b.name ∧ b.build.routines = b.routines ∧ b.build.Searches b.routines := by
  refine ⟨fun name routines => ⟨?_, ?_⟩, fun _ _ _ => ofRoutines_eq_error,
    fun name routines p h => ?_, fun b h => ?_⟩
  · rintro ⟨p, hp⟩
    obtain ⟨hnames, hids, -⟩ := ofRoutines_eq_ok_iff_nodup.1 hp
    exact ⟨hnames, hids⟩
  · rintro ⟨hnames, hids⟩
    exact ⟨_, ofRoutines_eq_ok_iff_nodup.2 ⟨hnames, hids, rfl⟩⟩
  · obtain ⟨hnames, hids, rfl⟩ := ofRoutines_eq_ok_iff_nodup.1 h
    exact ⟨rfl, rfl, searches_index hnames hids name⟩
  · exact ⟨h.fresh.names, h.fresh.ids, rfl, rfl, searches_index h.fresh.names h.fresh.ids b.name⟩

/-- A routine and another one that repeats first an id of its own and then one of the other. -/
def repeating : List Routine :=
  [⟨"main", [⟨⟨0⟩, .other, none⟩]⟩,
    ⟨"worker", [⟨⟨7⟩, .other, none⟩, ⟨⟨7⟩, .other, none⟩, ⟨⟨0⟩, .other, none⟩]⟩]

/-- A builder that defines a routine twice, with a declaration in between. -/
def redefined : Builder :=
  let b := Builder.new "m"
  let b := b.define "main" (b.openBody.push .other).2
  let b := b.declare "worker"
  b.define "main" ((b.openBody.setPlace 3 5).push .other).2

/-- Of two repetitions the first is reported, and of two definitions of a routine only the second is
found. -/
theorem searches_redefined :
    ofRoutines "m" repeating = .error (.instruction ⟨7⟩) ∧ redefined.Reached ∧
      redefined.build.instruction? ⟨0⟩ = none ∧
      redefined.build.instruction? ⟨1⟩ = some ⟨⟨1⟩, .other, some ⟨"m", 3, 5⟩⟩ ∧
      redefined.build.definition? "worker" = none ∧ redefined.build.instructionCount = 1 := by
  obtain ⟨-, herror, -, hbuilt⟩ := ofRoutines_searches
  have hreached : redefined.Reached := by
    have hmain := (Builder.Reached.new "m").define "main" (.push .refl .other)
    exact (hmain.declare "worker").define "main" (.push (.setPlace .refl 3 5) .other)
  obtain ⟨-, -, -, -, hsearches⟩ := hbuilt redefined hreached
  refine ⟨?_, hreached, ?_, ?_, ?_, ?_⟩
  · exact (herror "m" repeating _).2
      ⟨[.routine "main", .instruction ⟨0⟩, .routine "worker", .instruction ⟨7⟩],
        [.instruction ⟨0⟩], rfl, by decide, by decide⟩
  · exact (hsearches.instruction ⟨0⟩).trans rfl
  · exact (hsearches.instruction ⟨1⟩).trans rfl
  · exact (hsearches.definition "worker").trans rfl
  · exact hsearches.count

end Program

end DataRace
