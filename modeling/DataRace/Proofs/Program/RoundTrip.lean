import DataRace.Program.Json
import DataRace.Proofs.Json.RoundTrip
import DataRace.Proofs.Json.Views
import DataRace.Proofs.Program.Lookups

/-!
# Programs read back

A program written as JSON and read again is the same program, whatever its names, bodies and
operands are.  The numbers of a record have a width, ids and places 32 bits and constants 64 with a
sign; `Fits` says of each record that its numbers keep it.  Record by record, what is written is
read back, and is readable as a whole where a reader asks for that.
-/

namespace DataRace

/-! ### Widths -/

/-- The numbers of a place have 32 bits. -/
def SourceLocation.Fits (l : SourceLocation) : Prop := l.line < 2 ^ 32 ∧ l.column < 2 ^ 32

/-- An id has 32 bits, a constant 64 with a sign. -/
def Operand.Fits : Operand → Prop
  | .value v => v.val < 2 ^ 32
  | .result i => i.val < 2 ^ 32
  | .const c => -2 ^ 63 ≤ c ∧ c < 2 ^ 63
  | .routine _ | .null => True

/-- The pointer of an indirect callee has 32 bits. -/
def Callee.Fits : Callee → Prop
  | .direct _ => True
  | .indirect v => v.val < 2 ^ 32

/-- The numbers of an action have their width. -/
def Action.Fits : Action → Prop
  | .load ptr _ | .store ptr _ => ptr.val < 2 ^ 32
  | .call callee args => callee.Fits ∧ ∀ a ∈ args, a.Fits
  | .other => True

/-- The numbers of an instruction have their width. -/
structure Instruction.Fits (i : Instruction) : Prop where
  id : i.id.val < 2 ^ 32
  action : i.action.Fits
  location : ∀ l ∈ i.location, l.Fits

/-- The numbers of a routine have their width. -/
def Routine.Fits (r : Routine) : Prop := ∀ i ∈ r.body, i.Fits

instance (l : SourceLocation) : Decidable l.Fits :=
  inferInstanceAs (Decidable (_ ∧ _))

instance : (a : Operand) → Decidable a.Fits
  | .value v => inferInstanceAs (Decidable (v.val < 2 ^ 32))
  | .result i => inferInstanceAs (Decidable (i.val < 2 ^ 32))
  | .const c => inferInstanceAs (Decidable (-2 ^ 63 ≤ c ∧ c < 2 ^ 63))
  | .routine _ => .isTrue trivial
  | .null => .isTrue trivial

instance : (c : Callee) → Decidable c.Fits
  | .direct _ => .isTrue trivial
  | .indirect v => inferInstanceAs (Decidable (v.val < 2 ^ 32))

instance : (a : Action) → Decidable a.Fits
  | .load ptr _ => inferInstanceAs (Decidable (ptr.val < 2 ^ 32))
  | .store ptr _ => inferInstanceAs (Decidable (ptr.val < 2 ^ 32))
  | .call callee args => inferInstanceAs (Decidable (callee.Fits ∧ ∀ a ∈ args, a.Fits))
  | .other => .isTrue trivial

instance (i : Instruction) : Decidable i.Fits :=
  decidable_of_iff (i.id.val < 2 ^ 32 ∧ i.action.Fits ∧ ∀ l ∈ i.location, l.Fits)
    ⟨fun h => ⟨h.1, h.2.1, h.2.2⟩, fun h => ⟨h.id, h.action, h.location⟩⟩

instance (r : Routine) : Decidable r.Fits :=
  inferInstanceAs (Decidable (∀ i ∈ r.body, i.Fits))

/-! ### Records -/

/-- A place is read back. -/
theorem SourceLocation.ofJson?_toJson {l : SourceLocation} (h : l.Fits) :
    ofJson? l.toJson = some l := by
  simp [ofJson?, toJson, Json.fields?, Json.atMostOnce?, Json.occurrences, Json.str?,
    Json.nat32?_ofNat h.1, Json.nat32?_ofNat h.2]

/-- An operand is read back. -/
theorem Operand.ofJson?_toJson {a : Operand} (h : a.Fits) : ofJson? a.toJson = some a := by
  cases a with
  | value v => simp [ofJson?, toJson, Json.nat32?_ofNat h]
  | routine name => simp [ofJson?, toJson, Json.str?]
  | result i => simp [ofJson?, toJson, Json.nat32?_ofNat h]
  | const c => simp [ofJson?, toJson, Json.int64?_int h]
  | null => simp [ofJson?, toJson]

/-- A callee is read back. -/
theorem Callee.ofJson?_toJson {c : Callee} (h : c.Fits) : ofJson? c.toJson = some c := by
  cases c with
  | direct name => simp [ofJson?, toJson, Json.str?]
  | indirect v => simp [ofJson?, toJson, Json.nat32?_ofNat h]

/-- An action is read back from its members. -/
theorem Action.ofMembers?_toMembers {a : Action} (h : a.Fits) :
    ofMembers? a.toMembers = some a := by
  cases a with
  | load ptr v =>
    simp [ofMembers?, toMembers, Json.atMostOnce?, Json.occurrences, operation?, operations,
      access?, Json.nat32?_ofNat h, Json.bool?]
  | store ptr v =>
    simp [ofMembers?, toMembers, Json.atMostOnce?, Json.occurrences, operation?, operations,
      access?, Json.nat32?_ofNat h, Json.bool?]
  | call callee args =>
    have hargs : (args.map Operand.toJson).mapM Operand.ofJson? = some args :=
      Json.mapM_map_some fun a ha => Operand.ofJson?_toJson (h.2 a ha)
    simp [ofMembers?, toMembers, Json.atMostOnce?, Json.occurrences, operation?, operations,
      Callee.ofJson?_toJson h.1, Json.arr?, hargs]
  | other =>
    simp [ofMembers?, toMembers, Json.atMostOnce?, Json.occurrences, operation?, operations]

/-! ### Instructions -/

/-- An operand is written without numbers that are too great. -/
theorem Operand.isSound_toJson {a : Operand} (h : a.Fits) : a.toJson.isSound = true := by
  cases a with
  | value v => simp [toJson, Json.isSound, Json.isSound.soundMembers, Json.isSound_ofNat h]
  | routine name => rfl
  | result i => simp [toJson, Json.isSound, Json.isSound.soundMembers, Json.isSound_ofNat h]
  | const c =>
    obtain ⟨hlow, hhigh⟩ := h
    have hsound := Json.isSound_int (i := c) (by omega)
    rw [toJson, Json.isSound, Json.isSound.soundMembers, hsound]
    rfl
  | null => rfl

/-- An operand is written with at most one level. -/
theorem Operand.depth_toJson_le (a : Operand) : a.toJson.depth ≤ 1 := by
  cases a <;> simp [toJson, Json.depth, Json.depth.depthMembers, Json.ofNat]

/-- A callee is written without numbers that are too great. -/
theorem Callee.isSound_toJson {c : Callee} (h : c.Fits) : c.toJson.isSound = true := by
  cases c with
  | direct name => rfl
  | indirect v => simp [toJson, Json.isSound, Json.isSound.soundMembers, Json.isSound_ofNat h]

/-- A callee is written with one level. -/
theorem Callee.depth_toJson (c : Callee) : c.toJson.depth = 1 := by
  cases c <;> simp [toJson, Json.depth, Json.depth.depthMembers, Json.ofNat]

namespace Instruction

/-- The members of an instruction stand high above the limit of nesting. -/
theorem isReadable_of_depth_le {v : Json} (hs : v.isSound = true) (hd : v.depth ≤ 2) :
    v.isReadable level = true := by
  have hlimit : level + v.depth ≤ Json.nestingLimit := by
    rw [level, Json.nestingLimit]
    omega
  simp [Json.isReadable, hs, hlimit]

/-- The members of an action are readable as a whole. -/
theorem isReadable_of_mem {a : Action} (h : a.Fits) {m : String × Json}
    (hm : m ∈ a.toMembers) : m.2.isReadable level = true := by
  cases a with
  | load ptr v | store ptr v =>
    have hptr := isReadable_of_depth_le (Json.isSound_ofNat h) (Nat.zero_le 2)
    rcases (by simpa [Action.toMembers] using hm) with rfl | rfl | rfl
    · rfl
    · exact hptr
    · rfl
  | call callee args =>
    have hcallee := isReadable_of_depth_le (Callee.isSound_toJson h.1)
      (by rw [Callee.depth_toJson]; decide)
    have hargs : (Json.arr (args.map Operand.toJson)).isReadable level = true :=
      isReadable_of_depth_le (Json.soundItems_map fun a ha => Operand.isSound_toJson (h.2 a ha))
        (Nat.succ_le_succ (Json.depthItems_map_le fun a _ => Operand.depth_toJson_le a))
    rcases (by simpa [Action.toMembers] using hm) with rfl | rfl | rfl
    · rfl
    · exact hcallee
    · exact hargs
  | other =>
    obtain rfl : m = ("op", .str "other") := by simpa [Action.toMembers] using hm
    rfl

/-- No member of an action is taken for the id or the place of an instruction. -/
theorem name_ne_of_mem {a : Action} {m : String × Json} (hm : m ∈ a.toMembers) :
    m.1 ≠ "id" ∧ m.1 ≠ "location" := by
  cases a with
  | load ptr v | store ptr v | call callee args =>
    rcases (by simpa [Action.toMembers] using hm) with rfl | rfl | rfl <;> simp
  | other =>
    obtain rfl : m = ("op", .str "other") := by simpa [Action.toMembers] using hm
    simp

/-- The member for a place, which is left out where there is none. -/
def placeMembers (place : Option SourceLocation) : List (String × Json) :=
  match place with
  | none => []
  | some l => [("location", l.toJson)]

/-- The members of an instruction. -/
def members (i : Instruction) : List (String × Json) :=
  ("id", .ofNat i.id.val) :: i.action.toMembers ++ placeMembers i.location

/-- An instruction is written as its members. -/
theorem toJson_eq (i : Instruction) : i.toJson = .obj i.members :=
  rfl

/-- The id stands once. -/
theorem atMostOnce?_id (i : Instruction) :
    Json.atMostOnce? "id" i.members = some (some (.ofNat i.id.val)) := by
  have haction : Json.occurrences "id" i.action.toMembers = [] :=
    Json.occurrences_eq_nil fun m hm => (name_ne_of_mem hm).1
  have hplace : Json.occurrences "id" (placeMembers i.location) = [] := by
    cases i.location <;> rfl
  have hall : Json.occurrences "id" i.members = [.ofNat i.id.val] := by
    rw [members, List.cons_append, ← List.singleton_append, Json.occurrences_append,
      Json.occurrences_append, haction, hplace]
    rfl
  rw [Json.atMostOnce?, hall]

/-- The place stands once, if there is one. -/
theorem atMostOnce?_location (i : Instruction) :
    Json.atMostOnce? "location" i.members = some (i.location.map SourceLocation.toJson) := by
  have haction : Json.occurrences "location" i.action.toMembers = [] :=
    Json.occurrences_eq_nil fun m hm => (name_ne_of_mem hm).2
  have hall : Json.occurrences "location" i.members =
      Json.occurrences "location" (placeMembers i.location) := by
    rw [members, List.cons_append, ← List.singleton_append, Json.occurrences_append,
      Json.occurrences_append, haction]
    rfl
  rw [Json.atMostOnce?, hall]
  cases i.location <;> rfl

/-- What is left without the id and the place are the members of the action. -/
theorem filter_members (i : Instruction) :
    i.members.filter (fun m => m.1 ≠ "id" && m.1 ≠ "location") = i.action.toMembers := by
  have haction : i.action.toMembers.filter (fun m => m.1 ≠ "id" && m.1 ≠ "location") =
      i.action.toMembers := by
    rw [List.filter_eq_self]
    intro m hm
    simp [name_ne_of_mem hm]
  have hplace :
      (placeMembers i.location).filter (fun m => m.1 ≠ "id" && m.1 ≠ "location") = [] := by
    cases i.location <;> rfl
  rw [members, List.filter_append, List.filter_cons_of_neg (by simp), haction, hplace,
    List.append_nil]

/-- An instruction is read back. -/
theorem ofJson?_toJson {i : Instruction} (h : i.Fits) : ofJson? i.toJson = some i := by
  have hall : i.action.toMembers.all (fun m => m.2.isReadable level) = true :=
    List.all_eq_true.mpr fun m hm => isReadable_of_mem h.action hm
  have haction := Action.ofMembers?_toMembers h.action
  have hid := Json.nat32?_ofNat h.id
  rw [toJson_eq, ofJson?, atMostOnce?_id, atMostOnce?_location, filter_members]
  obtain ⟨id, action, place⟩ := i
  cases place with
  | none => simp [hid, hall, haction]
  | some l =>
    have hplace := SourceLocation.ofJson?_toJson (h.location l rfl)
    rw [SourceLocation.toJson] at hplace
    simp [hid, hall, haction, SourceLocation.toJson, hplace]

end Instruction

/-- A routine is read back. -/
theorem Routine.ofJson?_toJson {r : Routine} (h : r.Fits) : ofJson? r.toJson = some r := by
  have hbody : (r.body.map Instruction.toJson).mapM Instruction.ofJson? = some r.body :=
    Json.mapM_map_some fun i hi => Instruction.ofJson?_toJson (h i hi)
  simp [ofJson?, toJson, Json.fields?, Json.atMostOnce?, Json.occurrences, Json.str?, Json.arr?,
    hbody]

namespace Program

/-- The name and the routines of a program are read back. -/
theorem parts?_toJson {p : Program} (h : ∀ r ∈ p.routines, r.Fits) :
    parts? p.toJson = some (p.name, p.routines) := by
  have hroutines : (p.routines.map Routine.toJson).mapM Routine.ofJson? = some p.routines :=
    Json.mapM_map_some fun r hr => Routine.ofJson?_toJson (h r hr)
  simp [parts?, toJson, Json.fields?, Json.atMostOnce?, Json.occurrences, Json.str?, Json.arr?,
    hroutines]

/-- A program that was accepted is accepted again. -/
theorem ofJson_toJson {name : String} {routines : List Routine} {p : Program}
    (h : ofRoutines name routines = .ok p) (hfits : ∀ r ∈ routines, r.Fits) :
    ofJson p.toJson = .ok p := by
  obtain ⟨-, hindex⟩ := ofRoutines_eq_ok.1 h
  have hparts : parts? p.toJson = some (name, routines) := by
    subst hindex
    exact parts?_toJson hfits
  simp [ofJson, hparts, h]

/-- A text of one value and nothing behind it is parsed as that value. -/
theorem parse_of_readFirst? {text : String} {p : Program}
    (hread : Json.readFirst? text.toList = some (p.toJson, [])) (h : ofJson p.toJson = .ok p) :
    parse text = .ok p := by
  simp [parse, hread, h, Json.isFinished]

/-- A program that was accepted, written as JSON and loaded from the text, blank free or indented,
is the program again: it has the name and the routines it was accepted with, and every lookup
answers as before, since it is the same value. -/
theorem parse_toJson {name : String} {routines : List Routine} {p : Program}
    (h : ofRoutines name routines = .ok p) (hfits : ∀ r ∈ routines, r.Fits) :
    parse p.toJson.compact = .ok p ∧ parse p.toJson.pretty = .ok p ∧
      p.name = name ∧ p.routines = routines := by
  have hjson := ofJson_toJson h hfits
  obtain ⟨-, hindex⟩ := ofRoutines_eq_ok.1 h
  exact ⟨parse_of_readFirst? (Json.readFirst?_compact _) hjson,
    parse_of_readFirst? (Json.readFirst?_pretty _) hjson, by rw [hindex]; rfl, by rw [hindex]; rfl⟩

namespace Mixed

/-- A routine with every kind of instruction and operand, with and without places, and text that has
to be escaped. -/
def body : List Instruction :=
  [⟨⟨0⟩, .load ⟨2⟩ true, some ⟨"a \"b\"\n.c", 3, 2 ^ 32 - 1⟩⟩,
    ⟨⟨7⟩, .call (.direct "größe\x01😀")
      [.null, .const (-2 ^ 63), .const (2 ^ 63 - 1), .value ⟨2⟩, .routine "w", .result ⟨0⟩], none⟩,
    ⟨⟨5⟩, .call (.indirect ⟨1⟩) [], none⟩,
    ⟨⟨2 ^ 32 - 1⟩, .other, none⟩,
    ⟨⟨6⟩, .store ⟨0⟩ false, some ⟨"", 0, 0⟩⟩]

/-- The routine above and a declaration with a name outside ASCII. -/
def routines : List Routine := [⟨"main", body⟩, ⟨"größe\x01😀", []⟩]

/-- The two routines as a program. -/
def program : Program := index "m\\ü" routines

/-- The program is accepted. -/
theorem ofRoutines_eq : ofRoutines "m\\ü" routines = .ok program := by
  simp [ofRoutines, checkFrom, addIds, routines, body, program]

/-- All its numbers keep their widths. -/
theorem fits : ∀ r ∈ routines, r.Fits := by
  decide

end Mixed

/-- A program with every kind of instruction and operand is read back from both texts. -/
theorem parse_mixed :
    (ofRoutines "m\\ü" Mixed.routines = .ok Mixed.program ∧ ∀ r ∈ Mixed.routines, r.Fits) ∧
      parse Mixed.program.toJson.compact = .ok Mixed.program ∧
        parse Mixed.program.toJson.pretty = .ok Mixed.program ∧
          Mixed.program.name = "m\\ü" ∧ Mixed.program.routines = Mixed.routines :=
  ⟨⟨Mixed.ofRoutines_eq, Mixed.fits⟩, parse_toJson Mixed.ofRoutines_eq Mixed.fits⟩

end Program

end DataRace
