import DataRace.Proofs.Classify.Outline
import DataRace.Proofs.Program.Lookups
import DataRace.Proofs.SharedMemory
import DataRace.Proofs.Trace.Growth

/-!
# Which instructions access memory

Every node of a trace comes of an instruction of the program (`Subject.Stocked`), also the companion
joins that runtimes make, which take the place of their forks.  It has the place of the instruction,
and its accesses are those of loads, stores and of calls that the C library knows by name
(`Instruction.Accesses`), whichever interfaces are asked.

A call that means a release is the source of that release and of no other access, and no other
instruction is the source of a release (`Subject.Yields`).  So where an id names one instruction, it
tells whether memory is released there (`Subject.Stocked.free_iff`).
-/

namespace DataRace

/-- Whether nodes of a category access memory. -/
def Category.isAccess : Category → Bool
  | .read | .write | .free => true
  | _ => false

/-- Nodes that access memory are of such a category. -/
theorem Node.Accesses.isAccess {n : Node} {v : ValueId} {type : AccessType}
    (h : n.Accesses v type) : n.category.isAccess = true := by
  unfold category
  cases type with
  | read | write =>
    obtain ⟨api, isVolatile, heffect⟩ := h
    rw [heffect]
    rfl
  | free =>
    obtain ⟨api, heffect⟩ := h
    rw [heffect]
    rfl

/-- Routines that release what their first argument points to. -/
def releases : List String := ["free", "_ZdlPv", "_ZdaPv"]

/-- An instruction that accesses memory through a pointer: a load, a store, or a call that copies,
fills or releases what its arguments point to. -/
inductive Instruction.Accesses (i : Instruction) : ValueId → AccessType → Prop
  | load {v : ValueId} {isVolatile : Bool} (haction : i.action = .load v isVolatile) :
      Accesses i v .read
  | store {v : ValueId} {isVolatile : Bool} (haction : i.action = .store v isVolatile) :
      Accesses i v .write
  /-- The target of a copy. -/
  | target {f : String} {args : List Operand} {v : ValueId}
      (haction : i.action = .call (.direct f) args) (hf : Meaning.isCopy f = true)
      (hv : args[0]? = some (.value v)) : Accesses i v .write
  /-- The source of a copy. -/
  | source {f : String} {args : List Operand} {v : ValueId}
      (haction : i.action = .call (.direct f) args) (hf : Meaning.isCopy f = true)
      (hv : args[1]? = some (.value v)) : Accesses i v .read
  | fill {f : String} {args : List Operand} {v : ValueId}
      (haction : i.action = .call (.direct f) args) (hf : Meaning.isFill f = true)
      (hv : args[0]? = some (.value v)) : Accesses i v .write
  | release {f : String} {args : List Operand} {v : ValueId}
      (haction : i.action = .call (.direct f) args) (hf : f ∈ releases)
      (hv : args[0]? = some (.value v)) : Accesses i v .free

/-! ### Calls -/

/-- Whether calls with a meaning access memory. -/
def Meaning.isAccess : Meaning → Bool
  | .copy | .fill | .free _ => true
  | _ => false

/-- Calls that access memory are known to the C library only. -/
theorem Interface.eq_libc_of_isAccess {api : Interface} {f : String} {m : Meaning}
    (h : api.meaning? f = some m) (hm : m.isAccess = true) : api = .libc := by
  cases api with
  | libc => rfl
  | intrinsic =>
    replace h : Meaning.intrinsic? f = some m := h
    unfold Meaning.intrinsic? at h
    split at h
    all_goals cases h <;> cases hm
  | pthread =>
    replace h : Meaning.pthread? f = some m := h
    unfold Meaning.pthread? at h
    split at h
    all_goals cases h <;> cases hm
  | openMp =>
    replace h : Meaning.openMp? f = some m := h
    unfold Meaning.openMp? at h
    split at h
    all_goals try split at h
    all_goals cases h <;> cases hm
  | cuda =>
    replace h : Meaning.cuda? f = some m := h
    unfold Meaning.cuda? at h
    split at h
    · cases h
      cases hm
    · split at h
      all_goals try split at h
      all_goals cases h <;> cases hm

/-- A call that means an access to a chain is a call of a known routine of the C library. -/
theorem Chain.libc?_of_isAccess {chain : Chain} {callee : Callee} {m : Meaning}
    (h : (callee.name? >>= chain.meaning?) = some m) (hm : m.isAccess = true) :
    ∃ f, callee = .direct f ∧ Meaning.libc? f = some m := by
  cases callee with
  | indirect v => cases h
  | direct f =>
    obtain ⟨api, -, hapi⟩ := List.exists_of_findSome?_eq_some h
    obtain rfl := Interface.eq_libc_of_isAccess hapi hm
    exact ⟨f, rfl, hapi⟩

namespace Meaning

variable {f : String}

/-- What the C library knows, by name. -/
theorem libc?_cases {m : Meaning} (h : libc? f = some m) :
    (∃ api, m = .free api ∧ f ∈ releases) ∨ m = .copy ∧ isCopy f = true ∨
      m = .fill ∧ isFill f = true := by
  unfold libc? at h
  split at h
  · cases h
    exact Or.inl ⟨.free, rfl, .head _⟩
  · cases h
    exact Or.inl ⟨.cxxDelete, rfl, .tail _ (.head _)⟩
  · cases h
    exact Or.inl ⟨.cxxDelete, rfl, .tail _ (.tail _ (.head _))⟩
  · split at h
    · next hcopy =>
      cases h
      exact Or.inr (Or.inl ⟨rfl, hcopy⟩)
    · split at h
      · next hfill =>
        cases h
        exact Or.inr (Or.inr ⟨rfl, hfill⟩)
      · cases h

end Meaning

/-- A pointer operand is an argument. -/
theorem Node.args_of_pointer {role : Role} {i : Instruction} {offset : ℕ} {v : ValueId}
    (h : pointer role i offset = .ok v) : i.args[offset]? = some (.value v) := by
  obtain ⟨op, hop, h⟩ := Except.bind_eq_ok.1 h
  obtain ⟨-, -, hop⟩ := Except.bind_eq_ok.1 hop
  split at h
  · cases h
    split at hop
    · next hargs =>
      cases hop
      exact hargs
    · cases hop
  · cases h

/-! ### Nodes of instructions -/

namespace Subject

variable {c : Subject} {i : Instruction} {n : Node}

/-- An instruction that means a release of memory. -/
def Frees (c : Subject) (i : Instruction) : Prop :=
  ∃ callee args api, i.action = .call callee args ∧
    (callee.name? >>= c.chain.meaning?) = some (.free api)

/-- A node that comes of an instruction: it has the place of the instruction and makes an access
that the instruction makes, which is a release exactly if the instruction means one. -/
structure Yields (c : Subject) (i : Instruction) (n : Node) : Prop where
  site : n.site = i.site
  accesses : ∀ v type, n.Accesses v type → i.Accesses v type
  free_iff : n.category.isAccess = true → (n.category = .free ↔ c.Frees i)

/-- All nodes of an arena come of instructions of the program. -/
def Stocked (c : Subject) (a : Arena) : Prop :=
  ∀ id n, a.get? id = some n → ∃ i, c.program.Has i ∧ c.Yields i n

/-- A call with another meaning is no release. -/
theorem not_frees_of_meaning {callee : Callee} {args : List Operand} {m : Meaning}
    (haction : i.action = .call callee args) (hm : (callee.name? >>= c.chain.meaning?) = some m)
    (hother : ∀ api, m ≠ .free api) : ¬ c.Frees i := by
  rintro ⟨callee', args', api, haction', hfree⟩
  cases haction.symm.trans haction'
  exact hother api (Option.some.inj (hm.symm.trans hfree))

namespace Yields

/-- A node is of the instruction that it comes of. -/
theorem inst (h : c.Yields i n) : n.inst = i.id := congrArg Site.inst h.site

/-- A node that is no access. -/
theorem of_other (hsite : n.site = i.site) (hother : n.category.isAccess = false) :
    c.Yields i n := by
  refine ⟨hsite, fun v type h => ?_, fun h => ?_⟩
  · exact absurd (hother.symm.trans h.isAccess) Bool.false_ne_true
  · exact absurd (hother.symm.trans h) Bool.false_ne_true

/-- A fork. -/
theorem of_fork (h : n.site = i.site ∧ Draft.IsFork n) : c.Yields i n := by
  obtain ⟨hsite, api, handle, entry, heffect⟩ := h
  refine of_other hsite ?_
  unfold Node.category
  rw [heffect]
  rfl

variable {api : AccessApi} {v : ValueId} {isVolatile : Bool}

/-- A read of an instruction that means no release. -/
theorem of_read (h : i.Accesses v .read) (hfrees : ¬ c.Frees i) :
    c.Yields i ⟨i.site, .read api v isVolatile⟩ := by
  refine ⟨rfl, fun w type hw => ?_, fun _ => iff_of_false nofun hfrees⟩
  cases type with
  | read =>
    obtain ⟨_, _, heffect⟩ := hw
    cases heffect
    exact h
  | write =>
    obtain ⟨_, _, heffect⟩ := hw
    cases heffect
  | free =>
    obtain ⟨_, heffect⟩ := hw
    cases heffect

/-- A write of an instruction that means no release. -/
theorem of_write (h : i.Accesses v .write) (hfrees : ¬ c.Frees i) :
    c.Yields i ⟨i.site, .write api v isVolatile⟩ := by
  refine ⟨rfl, fun w type hw => ?_, fun _ => iff_of_false nofun hfrees⟩
  cases type with
  | read =>
    obtain ⟨_, _, heffect⟩ := hw
    cases heffect
  | write =>
    obtain ⟨_, _, heffect⟩ := hw
    cases heffect
    exact h
  | free =>
    obtain ⟨_, heffect⟩ := hw
    cases heffect

/-- A release of an instruction that means one. -/
theorem of_release {api : FreeApi} (h : i.Accesses v .free) (hfrees : c.Frees i) :
    c.Yields i ⟨i.site, .free api v⟩ := by
  refine ⟨rfl, fun w type hw => ?_, fun _ => iff_of_true rfl hfrees⟩
  cases type with
  | read | write =>
    obtain ⟨_, _, heffect⟩ := hw
    cases heffect
  | free =>
    obtain ⟨_, heffect⟩ := hw
    cases heffect
    exact h

end Yields

/-! ### Classifying -/

namespace Stocked

variable {a b : Arena} {d e : Draft}

/-- An arena without nodes. -/
theorem empty (c : Subject) : c.Stocked .empty := fun _ _ hn => nomatch hn

/-- One more node that comes of an instruction. -/
theorem push (h : c.Stocked a) (hi : c.program.Has i) (hn : c.Yields i n) :
    c.Stocked (a.push n).2 := by
  intro id m hm
  rw [Arena.push, Arena.get?, Array.getElem?_push] at hm
  split at hm
  · cases hm
    exact ⟨i, hi, hn⟩
  · exact h id m hm

/-- A companion join comes of the instruction of its fork. -/
theorem companionJoin (h : c.Stocked a) {fork id : NodeId}
    (hjoin : a.companionJoin fork = .ok (id, b)) : c.Stocked b := by
  unfold Arena.companionJoin at hjoin
  split at hjoin
  · cases hjoin
    exact h
  · obtain ⟨n, hn, hjoin⟩ := Except.bind_eq_ok.1 hjoin
    split at hjoin
    · cases hjoin
      obtain ⟨i, hi, hyields⟩ := h fork n (Arena.get_eq_ok.1 hn)
      exact h.push hi (.of_other hyields.site rfl)
    · cases hjoin

/-- One more node, if it can be made. -/
theorem emit_map (h : c.Stocked d.arena) (hi : c.program.Has i) {x : Except Fault Node}
    (he : d.emit <$> x = .ok e) (hx : ∀ n, x = .ok n → c.Yields i n) : c.Stocked e.arena := by
  obtain ⟨n, hn, rfl⟩ := Except.map_eq_ok.1 he
  exact h.push hi (hx n hn)

/-- More nodes of an instruction. -/
theorem emitAll (h : c.Stocked d.arena) (hi : c.program.Has i) {ns : List Node}
    (hns : ∀ n ∈ ns, c.Yields i n) : c.Stocked (d.emitAll ns).arena := by
  induction ns generalizing d with
  | nil => exact h
  | cons n ns ih =>
    exact ih (d := d.emit n) (h.push hi (hns n List.mem_cons_self)) fun m hm =>
      hns m (List.mem_cons_of_mem _ hm)

/-- A team. -/
theorem emitTeam (h : c.Stocked d.arena) (hi : c.program.Has i) {forks : List Node}
    (hforks : ∀ n ∈ forks, c.Yields i n) (he : d.emitTeam forks = .ok e) : c.Stocked e.arena := by
  have hcompanions : ∀ (ks : List ℕ) (d : Draft), c.Stocked d.arena → ∀ {base : ℕ} {e : Draft},
      ks.foldlM (fun e k => e.emitCompanion (base + k)) d = .ok e → c.Stocked e.arena := by
    intro ks
    induction ks with
    | nil =>
      intro d hd base e he
      cases he
      exact hd
    | cons k ks ih =>
      intro d hd base e he
      rw [List.foldlM_cons] at he
      obtain ⟨d', hd', he⟩ := Except.bind_eq_ok.1 he
      obtain ⟨⟨id, arena⟩, hjoin, hd'⟩ := Except.bind_eq_ok.1 hd'
      cases hd'
      exact ih _ (hd.companionJoin hjoin) he
  exact hcompanions _ _ (h.emitAll hi hforks) he

/-- The nodes of a known call. -/
theorem meaning (h : c.Stocked d.arena) (hi : c.program.Has i) {callee : Callee}
    {args : List Operand} {m : Meaning} (haction : i.action = .call callee args)
    (hm : (callee.name? >>= c.chain.meaning?) = some m)
    (he : m.emit c.program c.settings i d = .ok e) : c.Stocked e.arena := by
  have hargs : i.args = args := by rw [Instruction.args, haction]
  -- Nodes made of one operand of the instruction.
  have hbind : ∀ {α : Type} {x : Except Fault α} {φ : α → Effect},
      (∀ v, x = .ok v → c.Yields i ⟨i.site, φ v⟩) →
        d.emit <$> (x >>= fun v => Except.ok ⟨i.site, φ v⟩) = .ok e → c.Stocked e.arena := by
    intro α x φ hφ he
    refine h.emit_map hi he fun n hn => ?_
    obtain ⟨v, hv, hn⟩ := Except.bind_eq_ok.1 hn
    cases hn
    exact hφ v hv
  have hother := not_frees_of_meaning haction hm
  cases m with
  | nothing =>
    cases he
    exact h
  | free api =>
    obtain ⟨f, rfl, hf⟩ := Chain.libc?_of_isAccess hm rfl
    refine hbind (fun v hv => .of_release ?_ ⟨_, args, api, haction, hm⟩) he
    rcases Meaning.libc?_cases hf with ⟨-, -, hname⟩ | ⟨hne, -⟩ | ⟨hne, -⟩
    · exact .release haction hname (hargs ▸ Node.args_of_pointer hv)
    · cases hne
    · cases hne
  | fill =>
    obtain ⟨f, rfl, hf⟩ := Chain.libc?_of_isAccess hm rfl
    refine hbind (fun v hv => .of_write ?_ (hother (by simp))) he
    rcases Meaning.libc?_cases hf with ⟨_, hne, -⟩ | ⟨hne, -⟩ | ⟨-, hname⟩
    · cases hne
    · cases hne
    · exact .fill haction hname (hargs ▸ Node.args_of_pointer hv)
  | join | lock | unlock | barrier => exact hbind (fun _ _ => .of_other rfl rfl) he
  | copy =>
    obtain ⟨f, rfl, hf⟩ := Chain.libc?_of_isAccess hm rfl
    have hname : Meaning.isCopy f = true := by
      rcases Meaning.libc?_cases hf with ⟨_, hne, -⟩ | ⟨-, hname⟩ | ⟨hne, -⟩
      · cases hne
      · exact hname
      · cases hne
    obtain ⟨target, htarget, he⟩ := Except.bind_eq_ok.1 he
    obtain ⟨source, hsource, he⟩ := Except.bind_eq_ok.1 he
    obtain ⟨v, hv, htarget⟩ := Except.bind_eq_ok.1 htarget
    obtain ⟨v', hv', hsource⟩ := Except.bind_eq_ok.1 hsource
    cases htarget
    cases hsource
    cases he
    refine h.emitAll hi fun n hn => ?_
    rcases List.mem_cons.1 hn with rfl | hn
    · exact .of_write (.target haction hname (hargs ▸ Node.args_of_pointer hv)) (hother (by simp))
    · rw [List.mem_singleton.1 hn]
      exact .of_read (.source haction hname (hargs ▸ Node.args_of_pointer hv')) (hother (by simp))
  | construct api =>
    refine h.emit_map hi he fun n hn => ?_
    unfold Node.call at hn
    split at hn
    · cases hn
      exact .of_other rfl rfl
    · cases hn
  | fork api => exact h.emit_map hi he fun n hn => .of_fork (Node.fork_spec hn)
  | team api =>
    obtain ⟨forks, hforks, he⟩ := Except.bind_eq_ok.1 he
    exact h.emitTeam hi (fun n hn => .of_fork (mem_forks hforks hn)) he
  | task =>
    obtain ⟨entry, -, he⟩ := Except.bind_eq_ok.1 he
    refine h.emit_map hi he fun n hn => ?_
    rw [Node.forkWithEntry_spec hn]
    exact .of_other rfl rfl
  | launch =>
    obtain ⟨forks, hforks, he⟩ := Except.bind_eq_ok.1 he
    cases he
    exact h.emitAll hi fun n hn => .of_fork (mem_forks hforks hn)

/-- The nodes of an instruction. -/
theorem classify (h : c.Stocked d.arena) (hi : c.program.Has i)
    (he : Draft.classify c.program c.settings c.chain d i = .ok e) : c.Stocked e.arena := by
  unfold Draft.classify at he
  split at he
  · next ptr v haction =>
    refine h.emit_map hi he fun n hn => ?_
    unfold Node.load at hn
    split at hn
    · next hload =>
      cases hn
      refine .of_read (.load hload) ?_
      rintro ⟨callee, args, api, haction', -⟩
      cases haction.symm.trans haction'
    · cases hn
  · next ptr v haction =>
    refine h.emit_map hi he fun n hn => ?_
    unfold Node.store at hn
    split at hn
    · next hstore =>
      cases hn
      refine .of_write (.store hstore) ?_
      rintro ⟨callee, args, api, haction', -⟩
      cases haction.symm.trans haction'
    · cases hn
  · next callee args haction =>
    split at he
    · next m hm => exact h.meaning hi haction hm he
    · refine h.emit_map hi he fun n hn => ?_
      unfold Node.call at hn
      split at hn <;> cases hn
      exact .of_other rfl rfl
  · cases he
    exact h

/-- The nodes of a body. -/
theorem classifyAll {body : List Instruction} (h : c.Stocked d.arena)
    (hbody : ∀ i ∈ body, c.program.Has i)
    (he : Draft.classifyAll c.program c.settings c.chain d body = .ok e) : c.Stocked e.arena := by
  induction body generalizing d with
  | nil =>
    cases he
    exact h
  | cons i body ih =>
    obtain ⟨d', hd', he⟩ := Except.bind_eq_ok.1 he
    exact ih (h.classify (hbody i List.mem_cons_self) hd')
      (fun j hj => hbody j (List.mem_cons_of_mem _ hj)) he

end Stocked

end Subject

/-! ### Building -/

variable {c : Subject}

namespace Session

/-- Looking something up only makes nodes of instructions. -/
theorem Learns.stocked {s s' : Session} (h : s.Learns c s') (hs : c.Stocked s.arena) :
    c.Stocked s'.arena := by
  induction h with
  | refl | answer => exact hs
  | trans _ _ ih₁ ih₂ => exact ih₂ (ih₁ hs)
  | @summary s s' f nodes h =>
    obtain ⟨-, -, -, rfl⟩ | ⟨-, ⟨-, -, rfl⟩ | ⟨r, d, hdef, hd, -, rfl⟩⟩ := summary_cases h
    · exact hs
    · exact hs
    · exact Subject.Stocked.classifyAll (d := ⟨s.arena, []⟩) hs (fun i hi => ⟨f, r, hdef, hi⟩) hd

end Session

namespace Walk

/-- So does growth. -/
theorem Grows.stocked {r : Runtime} {w w' : Walk} (h : Grows c r w w')
    (hw : c.Stocked w.session.arena) : c.Stocked w'.session.arena := by
  induction h with
  | refl | skip | meet | note | record => exact hw
  | trans _ _ ih₁ ih₂ => exact ih₂ (ih₁ hw)
  | consult h => exact h.stocked hw
  | joinCompanion _ _ h =>
    exact joinCompanion_induction (P := fun v => c.Stocked v.session.arena) h hw
      fun _ _ _ _ hv => hv
  | joinHandle =>
    rw [Walk.joinHandle]
    split <;> exact hw
  | joinPending h =>
    refine joinPending_induction (P := fun v => c.Stocked v.session.arena) h hw ?_
    intro v v' node child hv hj
    obtain ⟨⟨join, arena⟩, hjoin, hj⟩ := Except.bind_eq_ok.1 hj
    cases hj
    exact hv.companionJoin hjoin
  | fork _ _ _ _ hbegin _ _ _ ihinner ihlast =>
    obtain ⟨-, harena, -, -⟩ := beginFork_spec hbegin
    exact ihlast (ihinner (harena ▸ hw))

end Walk

/-- All nodes of a trace come of instructions of its program. -/
theorem Trace.build_stocked {t : Trace} (h : Trace.build c = .ok t) : c.Stocked t.arena := by
  obtain ⟨_, _, -, hmain, rfl⟩ := build_ok h
  obtain ⟨nodes, s, inner, last, hsummary, hwalk, hlast, rfl⟩ := walkMain_ok hmain
  have hs : c.Stocked s.arena := (Session.Learns.summary hsummary).stocked (.empty c)
  exact ((Walk.walk_grows hwalk).trans (Walk.finish_grows hlast)).stocked hs

/-- Where an id names one instruction, accesses with one instruction are all releases or none. -/
theorem Subject.Stocked.free_iff {a : Arena} (h : c.Stocked a) (hc : c.program.Identifies)
    {j k : NodeId} {n m : Node} (hn : a.get? j = some n) (hm : a.get? k = some m)
    (hinst : n.inst = m.inst) (hna : n.category.isAccess = true)
    (hma : m.category.isAccess = true) : n.category = .free ↔ m.category = .free := by
  obtain ⟨i, hi, hyn⟩ := h j n hn
  obtain ⟨i', hi', hym⟩ := h k m hm
  obtain rfl := hc i i' hi hi' (hyn.inst.symm.trans (hinst.trans hym.inst))
  exact (hyn.free_iff hna).trans (hym.free_iff hma).symm

end DataRace
