import DataRace.Program.Basic

/-!
# Building programs

A `Builder` hands out values and instruction ids from two counters and collects routines; defining
a name again replaces the earlier routine and moves it to the end.  A `BodyBuilder` collects the
instructions of one body.  Ids come from one counter and names are replaced, so that a built
program never repeats either.
-/

namespace DataRace

namespace Program

/-- A program under construction. -/
structure Builder where
  name : String
  routines : List Routine
  nextInst : Nat
  nextValue : Nat

/-- A body under construction: the file of its places, the next instruction id, the instructions so
far and the place of the next one. -/
structure BodyBuilder where
  file : String
  nextInst : Nat
  body : List Instruction
  place : Option SourceLocation

namespace BodyBuilder

/-- Sets the place of the next instruction. -/
def setPlace (b : BodyBuilder) (line column : Nat) : BodyBuilder :=
  { b with place := some ⟨b.file, line, column⟩ }

/-- Appends an instruction, which takes the place that was set. -/
def push (b : BodyBuilder) (action : Action) : InstId × BodyBuilder :=
  let id : InstId := ⟨b.nextInst⟩
  (id, { b with
    nextInst := b.nextInst + 1
    body := b.body ++ [⟨id, action, b.place⟩]
    place := none })

end BodyBuilder

namespace Builder

/-- A builder without routines.  The name of the program is also the file of its places. -/
def new (name : String) : Builder := ⟨name, [], 0, 0⟩

/-- A fresh value. -/
def freshValue (b : Builder) : ValueId × Builder :=
  (⟨b.nextValue⟩, { b with nextValue := b.nextValue + 1 })

/-- An empty body for the next routine. -/
def openBody (b : Builder) : BodyBuilder := ⟨b.name, b.nextInst, [], none⟩

/-- Defines a routine by a body that was opened on this builder, in place of an earlier routine of
the name. -/
def define (b : Builder) (name : String) (body : BodyBuilder) : Builder :=
  { b with
    nextInst := body.nextInst
    routines := b.routines.filter (fun r => r.name ≠ name) ++ [⟨name, body.body⟩] }

/-- Declares a routine without a body. -/
def declare (b : Builder) (name : String) : Builder := b.define name b.openBody

/-- The program built so far. -/
def build (b : Builder) : Program := index b.name b.routines

end Builder

end Program

end DataRace
