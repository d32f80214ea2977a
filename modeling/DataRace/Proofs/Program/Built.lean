import DataRace.Program.Builder
import DataRace.Proofs.Program.Lookups

/-!
# Built programs are accepted

`Program.Builder.Reached` are the builders that calls of the building functions lead to.  Ids come
from one counter and a routine replaces an earlier one of its name, so what such a builder has
collected repeats neither, and the program that it builds is one that would be accepted
(`Program.Builder.Reached.ofRoutines_eq`).
-/

namespace DataRace

namespace Program

namespace BodyBuilder

/-- What a body becomes when places are set and instructions are appended. -/
inductive Grows (b : BodyBuilder) : BodyBuilder → Prop
  | refl : Grows b b
  | setPlace {b' : BodyBuilder} (h : Grows b b') (line column : Nat) :
      Grows b (b'.setPlace line column)
  | push {b' : BodyBuilder} (h : Grows b b') (action : Action) : Grows b (b'.push action).2

/-- The instructions that are appended have the ids from the counter on. -/
theorem Grows.ids_eq {b b' : BodyBuilder} (h : Grows b b') :
    ∃ k, b'.nextInst = b.nextInst + k ∧ b'.body.map Instruction.id =
      b.body.map Instruction.id ++ (List.range' b.nextInst k).map InstId.mk := by
  induction h with
  | refl => exact ⟨0, rfl, (List.append_nil _).symm⟩
  | setPlace _ _ _ ih => exact ih
  | @push b' _ action ih =>
    obtain ⟨k, hnext, hids⟩ := ih
    refine ⟨k + 1, congrArg (· + 1) hnext, ?_⟩
    show (b'.body ++ [_]).map Instruction.id = _
    rw [List.map_append, hids, List.range'_1_concat, List.map_append, List.append_assoc, ← hnext]
    rfl

end BodyBuilder

namespace Builder

/-- The builders that calls of the building functions lead to. -/
inductive Reached : Builder → Prop
  | new (name : String) : Reached (new name)
  | freshValue {b : Builder} (h : Reached b) : Reached b.freshValue.2
  | define {b : Builder} (h : Reached b) (name : String) {body : BodyBuilder}
      (hbody : b.openBody.Grows body) : Reached (b.define name body)

/-- Declaring a routine is defining it without instructions. -/
theorem Reached.declare {b : Builder} (h : Reached b) (name : String) : Reached (b.declare name) :=
  h.define name .refl

/-- Neither a name nor an id is repeated, and the counter is above all ids. -/
structure Fresh (b : Builder) : Prop where
  names : (b.routines.map Routine.name).Nodup
  ids : (idsOf b.routines).Nodup
  below : ∀ i ∈ idsOf b.routines, i.val < b.nextInst

namespace Fresh

variable {b : Builder}

/-- Defining a routine keeps names and ids apart. -/
theorem define (h : b.Fresh) (name : String) {body : BodyBuilder} (hbody : b.openBody.Grows body) :
    (b.define name body).Fresh := by
  obtain ⟨k, hnext, hids⟩ := hbody.ids_eq
  have hnext' : (b.define name body).nextInst = b.nextInst + k := hnext
  have hsub : (b.routines.filter fun r => r.name ≠ name).Sublist b.routines := List.filter_sublist
  have hkept : (idsOf (b.routines.filter fun r => r.name ≠ name)).Sublist (idsOf b.routines) :=
    hsub.flatMap _
  have hall : idsOf (b.define name body).routines =
      idsOf (b.routines.filter fun r => r.name ≠ name) ++
        (List.range' b.nextInst k).map InstId.mk := by
    have hbody : body.body.map Instruction.id = (List.range' b.nextInst k).map InstId.mk := hids
    show idsOf (_ ++ [⟨name, body.body⟩]) = _
    rw [idsOf, List.flatMap_append, List.flatMap_singleton, ← hbody]
    rfl
  refine ⟨?_, ?_, ?_⟩
  · show (List.map _ (_ ++ [_])).Nodup
    rw [List.map_append, List.nodup_append']
    refine ⟨h.names.sublist (hsub.map _), List.nodup_singleton _, ?_⟩
    intro f hf hf'
    obtain ⟨r, hr, rfl⟩ := List.mem_map.1 hf
    exact of_decide_eq_true (List.mem_filter.1 hr).2 (List.mem_singleton.1 hf')
  · rw [hall, List.nodup_append']
    refine ⟨h.ids.sublist hkept, ?_, ?_⟩
    · exact (List.nodup_range' _).map fun i j hij => congrArg InstId.val hij
    -- The ids that are kept are below the counter, and the new ones are not.
    · intro i hi hi'
      obtain ⟨j, hj, rfl⟩ := List.mem_map.1 hi'
      exact absurd (h.below _ (hkept.subset hi)) (Nat.not_lt.2 (List.mem_range'_1.1 hj).1)
  · intro i hi
    rw [hall, List.mem_append] at hi
    rw [hnext']
    rcases hi with hi | hi
    · exact Nat.lt_add_right k (h.below i (hkept.subset hi))
    · obtain ⟨j, hj, rfl⟩ := List.mem_map.1 hi
      exact (List.mem_range'_1.1 hj).2

end Fresh

/-- No builder repeats a name or an id. -/
theorem Reached.fresh {b : Builder} (h : b.Reached) : b.Fresh := by
  induction h with
  | new name => exact ⟨List.nodup_nil, List.nodup_nil, fun i hi => nomatch hi⟩
  | freshValue _ ih => exact ⟨ih.names, ih.ids, ih.below⟩
  | define _ name hbody ih => exact ih.define name hbody

/-- What a builder builds would be accepted as a list of routines. -/
theorem Reached.ofRoutines_eq {b : Builder} (h : b.Reached) :
    ofRoutines b.name b.routines = .ok b.build :=
  ofRoutines_eq_ok_iff_nodup.2 ⟨h.fresh.names, h.fresh.ids, rfl⟩

end Builder

end Program

end DataRace
