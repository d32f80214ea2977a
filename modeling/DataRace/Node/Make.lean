import DataRace.Node.Fault

/-!
# Making nodes

One function per category makes a node of an instruction and the operand offsets that an interface
prescribes.  It fails if the instruction has another shape; the first thing found wrong decides,
and operands are looked at in the order in which the arguments name them.
-/

namespace DataRace

namespace Node

/-- Fails unless the instruction is a call. -/
def requireCall (role : Role) (i : Instruction) : Except Fault Unit :=
  if i.isCall then .ok () else .error (.notACall role i.id)

/-- An operand of a call. -/
def operand (role : Role) (i : Instruction) (offset : Nat) : Except Fault Operand := do
  requireCall role i
  match i.args[offset]? with
  | some op => .ok op
  | none => .error (.missingOperand role i.id i.calleeName? offset)

/-- An operand of a call that has to be a pointer. -/
def pointer (role : Role) (i : Instruction) (offset : Nat) : Except Fault ValueId := do
  match ← operand role i offset with
  | .value v => .ok v
  | op => .error (.notAPointer role i.id offset op)

/-- A read by a load. -/
def load (i : Instruction) : Except Fault Node :=
  match i.action with
  | .load ptr v => .ok ⟨i.site, .read .load ptr v⟩
  | a => .error (.wrongShape .load i.id a)

/-- A write by a store. -/
def store (i : Instruction) : Except Fault Node :=
  match i.action with
  | .store ptr v => .ok ⟨i.site, .write .store ptr v⟩
  | a => .error (.wrongShape .store i.id a)

/-- A read through an argument. -/
def apiRead (i : Instruction) (offset : Nat) : Except Fault Node := do
  let v ← pointer .apiRead i offset
  .ok ⟨i.site, .read (.apiRead offset) v false⟩

/-- A write through an argument. -/
def apiWrite (i : Instruction) (offset : Nat) : Except Fault Node := do
  let v ← pointer .apiWrite i offset
  .ok ⟨i.site, .write (.apiWrite offset) v false⟩

/-- A release of what an argument points to. -/
def free (i : Instruction) (api : FreeApi) (offset : Nat) : Except Fault Node := do
  let v ← pointer .free i offset
  .ok ⟨i.site, .free api v⟩

/-- A fork whose handle and entry are known. -/
def forkWithEntry (i : Instruction) (api : ForkApi) (handle : Operand) (entry : ThreadEntry) :
    Except Fault Node := do
  requireCall .fork i
  .ok ⟨i.site, .fork api handle entry⟩

/-- A fork whose handle and entry are arguments. -/
def fork (i : Instruction) (api : ForkApi) (handle entry : Nat) : Except Fault Node := do
  let handle ← operand .forkHandle i handle
  let op ← operand .forkEntry i entry
  match ThreadEntry.ofOperand? op with
  | some entry => forkWithEntry i api handle entry
  | none => .error (.notARoutine i.id op)

/-- A join of the thread that an argument denotes. -/
def join (i : Instruction) (api : JoinApi) (offset : Nat) : Except Fault Node := do
  let handle ← operand .joinHandle i offset
  .ok ⟨i.site, .join api handle none⟩

/-- An acquisition of the lock that an argument denotes. -/
def lock (i : Instruction) (api : LockApi) (offset : Nat) : Except Fault Node := do
  let l ← operand .lock i offset
  .ok ⟨i.site, .lock api l⟩

/-- A release of the lock that an argument denotes. -/
def unlock (i : Instruction) (api : LockApi) (offset : Nat) : Except Fault Node := do
  let l ← operand .unlock i offset
  .ok ⟨i.site, .unlock api l⟩

/-- A barrier. -/
def barrier (i : Instruction) (api : BarrierApi) : Except Fault Node := do
  requireCall .barrier i
  .ok ⟨i.site, .barrier api⟩

/-- A call. -/
def call (i : Instruction) (api : CallApi) : Except Fault Node :=
  match i.action with
  | .call callee args => .ok ⟨i.site, .call api callee args⟩
  | a => .error (.wrongShape .call i.id a)

end Node

end DataRace
