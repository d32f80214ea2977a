import DataRace.Proofs.Dedup.Memo
import DataRace.Proofs.Trace.Regions

/-!
# Walks keep the memo

With calls deduplicated, what is known of the memo is kept by every walk (`Walk.all_keep`): the
answers of the session are right, the memo is known, and whatever routine was open and is in the
memo afterwards saw a calm stretch in which each of its nodes was handled.
-/

namespace DataRace

open Relation Session

namespace Walk

variable {c : Subject} {r : Runtime} {ancestry opened : List String} {u v w w' : Walk}
  {f g : String} {k : Nat}

/-! ### Steps that expand nothing -/

/-- A runtime's join of a child. -/
theorem joinChild_ticks {node : NodeId} {child : ThreadId} (h : w.joinChild node child = .ok w') :
    Ticks c w w' := by
  obtain ⟨⟨join, arena⟩, -, h⟩ := Except.bind_eq_ok.1 h
  cases h
  exact ⟨fun hw => hw, .of_push rfl (fun hquiet => nomatch hquiet.1) rfl⟩

/-- A runtime's joins. -/
theorem joinPending_ticks {directOnly : Bool} (h : w.joinPending directOnly = .ok w') :
    Ticks c w w' :=
  joinPending_induction (P := Ticks c w) h (.of_eq rfl rfl rfl)
    fun _ _ _ _ hv hj => hv.trans (joinChild_ticks hj)

/-- The joins of a companion. -/
theorem joinCompanion_ticks {id fork : NodeId} {n : Node} (h : w.joinCompanion id n fork = .ok w') :
    Ticks c w w' :=
  joinCompanion_induction (P := Ticks c w) h (.of_eq rfl rfl rfl)
    fun v _ _ _ hv => hv.trans (.record c v id _)

/-- The join of a handle. -/
theorem joinHandle_ticks (id : NodeId) (handle : Operand) :
    Ticks c w (w.joinHandle c id handle) := by
  unfold joinHandle
  split
  · exact ⟨fun hw => hw, .of_push rfl (fun hquiet => nomatch hquiet.1) rfl⟩
  · exact .record c w id _

/-- Beginning to skip a region. -/
theorem skipRegion_ticks {opening closing : CallApi} {node : Node} {routine : Option String}
    {rest : List NodeId} (h : w.skipRegion opening closing node routine rest = .ok w') :
    Ticks c w w' := by
  unfold skipRegion at h
  split at h
  · split at h
    · cases h
      exact .of_eq rfl rfl rfl
    · cases h
  · cases h
    exact .refl c w

/-- What a runtime does at a node. -/
theorem visit_ticks {node : Node} {routine : Option String} {rest : List NodeId} {opens : Bool}
    (h : r.visit w node routine rest = .ok (opens, w')) : Ticks c w w' := by
  obtain ⟨_, -, hvisit⟩ | ⟨-, ⟨_, _, hvisit⟩ | ⟨_, -, hvisit⟩⟩ := visit_cases r node
  · rw [hvisit] at h
    cases h
    exact .refl c w
  · rw [hvisit] at h
    obtain ⟨v, hv, h⟩ := Except.bind_eq_ok.1 h
    cases h
    exact joinPending_ticks hv
  · rw [hvisit] at h
    obtain ⟨v, hv, h⟩ := Except.bind_eq_ok.1 h
    cases h
    exact skipRegion_ticks hv

/-- A runtime leaves nodes alone that do not concern threads. -/
theorem visit_of_harmless {node : Node} {routine : Option String} {rest : List NodeId}
    {opens : Bool} (h : r.visit w node routine rest = .ok (opens, w'))
    (hnode : concernsThreads node = false) : opens = true ∧ w' = w := by
  obtain ⟨_, hopens, hvisit⟩ | ⟨hthreads, -⟩ := visit_cases r node
  · rw [hvisit] at h
    cases h
    exact ⟨hopens hnode, rfl⟩
  · rw [hnode] at hthreads
    cases hthreads

/-- Starting a child and going on after it has ended. -/
theorem endFork_rolls {id : NodeId} {target : String} {child : ThreadId}
    (h : w.beginFork id target = .ok (child, v)) (r : Runtime) (api : ForkApi) (handle : Operand)
    (last : Walk) : Rolls w (v.endFork r id api handle last) := by
  obtain ⟨-, hevents, -⟩ := endFork_spec h r api handle last
  obtain ⟨-, -, -, hself⟩ := beginFork_spec h
  refine .of_push hevents (fun hquiet => nomatch hquiet.1) ?_
  show v.self.expanded = []
  rw [hself]
  rfl

/-- What a runtime does at the end of a thread. -/
theorem finish_ticks (h : r.finish w = .ok w') : Ticks c w w' := by
  rcases finish_cases r w.self.spawnedBy with hjoin | hnothing
  · rw [hjoin w rfl] at h
    exact joinPending_ticks h
  · rw [hnothing w rfl] at h
    cases h
    exact .refl c w

/-- Starting a child answers nothing. -/
theorem beginFork_answers {id : NodeId} {child : ThreadId} (h : w.beginFork id g = .ok (child, v))
    (hw : Answers c w.session) : Answers c v.session := by
  obtain ⟨⟨child', session⟩, hreserve, h⟩ := Except.bind_eq_ok.1 h
  cases h
  simp only [Session.reserve] at hreserve
  split at hreserve
  · cases hreserve
    exact hw
  · cases hreserve

/-- With deduplication, a call is expanded without a note if it concerns threads, passed over if it
is noted already, and noted otherwise. -/
theorem isRepeated_cases (hdedup : c.settings.dedupCalls = true) {args : List Operand}
    {repeated : Bool} (h : w.isRepeated c g args = .ok (repeated, w')) :
    ∃ effects session, w.session.hasThreadEffects c g = .ok (effects, session) ∧
      (effects = true ∧ repeated = false ∧ w' = { w with session } ∨
        effects = false ∧ repeated = true ∧ (g, args) ∈ w.self.expanded ∧ w' = { w with session } ∨
          effects = false ∧ repeated = false ∧
            w' =
              { session, self := { w.self with expanded := (g, args) :: w.self.expanded } }) := by
  unfold isRepeated at h
  rw [if_pos hdedup] at h
  obtain ⟨⟨effects, session⟩, heffects, h⟩ := Except.bind_eq_ok.1 h
  refine ⟨effects, session, heffects, ?_⟩
  cases effects with
  | true =>
    cases h
    exact Or.inl ⟨rfl, rfl, rfl⟩
  | false =>
    dsimp only at h
    rw [if_neg Bool.false_ne_true] at h
    split at h
    · next hmem =>
      cases h
      exact Or.inr (Or.inl ⟨rfl, rfl, hmem, rfl⟩)
    · cases h
      exact Or.inr (Or.inr ⟨rfl, rfl, rfl⟩)

/-! ### What is known on the way -/

/-- What is known when a routine is walked, which all open routines lead to. -/
structure Ready (c : Subject) (opened : List String) (f : String) (w : Walk) : Prop where
  placed : Placed c w.session
  answers : Answers c w.session
  memo : Memo c opened w
  head : f ∈ opened
  reach : ∀ g ∈ opened, ReflTransGen c.Calls g f

/-- What is known when a stretch of a routine was walked.  `P` tells that it was handled. -/
structure Outcome (c : Subject) (opened : List String) (f : String) (w w' : Walk) (P : Prop) :
    Prop where
  later : Later c w.session w'.session
  answers : Answers c w'.session
  memo : Memo c opened w'
  passes : Passes opened w w'
  skipTo : w'.self.skipTo = none
  handled : f ∈ w'.memo → P

/-- The stretch that follows is ready to be walked. -/
theorem Outcome.ready {P : Prop} (h : Outcome c opened f w w' P) (hw : Ready c opened f w) :
    Ready c opened f w' :=
  ⟨h.later.placed hw.placed, h.answers, h.memo, hw.head, hw.reach⟩

/-- One stretch of a routine after the other. -/
theorem Outcome.trans {P Q R : Prop} (h : Outcome c opened f w v P)
    (h' : Outcome c opened f v w' Q) (hhead : f ∈ opened)
    (hR : Calm opened v w' → P → Q → R) : Outcome c opened f w w' R := by
  refine ⟨h.later.trans h'.later, h'.answers, h'.memo, h.passes.trans h'.passes, h'.skipTo,
    fun hmem => ?_⟩
  obtain ⟨hcalm, hmemv⟩ := h'.passes.calm hhead hmem
  exact hR hcalm (h.handled hmemv) (h'.handled hmem)

namespace Ready

/-- What all open routines lead to. -/
theorem leads (h : Ready c opened f w) {q : Node → Bool} (hf : c.Leads q f) :
    ∀ g ∈ opened, c.Leads q g := fun g hg => hf.of_reaches (h.reach g hg)

/-- A thread that begins is ready to walk its entry. -/
theorem start {s : Session} (hplaced : Placed c s) (hanswers : Answers c s) (thread : ThreadId)
    (spawnedBy : Option ForkApi) (f : String) :
    Ready c [f] f ⟨s, Walker.start thread spawnedBy⟩ where
  placed := hplaced
  answers := hanswers
  memo := .of_nil rfl fun g hg => Or.inr (Or.inr (by rw [List.mem_singleton.1 hg]; rfl))
  head := List.mem_singleton_self f
  reach g hg := by
    rw [List.mem_singleton.1 hg]

/-- After a step that expands nothing, at a node that may clear the memo. -/
theorem step (h : Ready c opened f w) (hticks : Ticks c w w') (hplaced : Placed c w'.session)
    (hleads : c.Leads concernsThreads f) : Ready c opened f w' where
  placed := hplaced
  answers := hticks.answers h.answers
  memo := hticks.memo h.memo fun g hg => Or.inl (h.leads hleads g hg)
  head := h.head
  reach := h.reach

/-- After a quiet step that expands nothing. -/
theorem hush (h : Ready c opened f w) (hplaced : Placed c w'.session)
    (hanswers : Answers c w'.session) (hmemo : w'.memo = w.memo) (hhush : w.Hushed w') :
    Ready c opened f w' :=
  ⟨hplaced, hanswers, h.memo.hush hmemo hhush, h.head, h.reach⟩

/-- After a routine was looked up. -/
theorem consult (h : Ready c opened f w) (hc : c.program.Distinct)
    {nodes : Option (List NodeId)} {session : Session}
    (hs : w.session.summary c g = .ok (nodes, session)) : Ready c opened f { w with session } := by
  have hlater := (Learns.summary hs).later hc
  exact h.hush (hlater.placed h.placed) (h.answers.summary hs) rfl (.of_eq hlater.remembers rfl)

/-- A routine leads to the nodes that stand at its positions. -/
theorem leads_of_node (h : Ready c opened f w) {id : NodeId} {node : Node}
    (hid : w.session.At f k id) (hnode : w.session.arena.get? id = some node)
    (hthreads : concernsThreads node = true) : c.Leads concernsThreads f := by
  obtain ⟨n, base, hn, rfl⟩ := h.placed.exists_shift hid hnode
  rw [concernsThreads_shift] at hthreads
  exact Subject.Has.leads ⟨n, List.mem_of_getElem? hn, hthreads⟩

/-- A node that concerns threads, at which steps were made that expand nothing. -/
theorem outcome_of_ticks (h : Ready c opened f w) (hticks : Ticks c w w')
    (hlater : Later c w.session w'.session) (hskip : w'.self.skipTo = none)
    (hleads : c.Leads concernsThreads f) (P : Prop) : Outcome c opened f w w' P := by
  have hready := h.step hticks (hlater.placed h.placed) hleads
  exact ⟨hlater, hready.answers, hready.memo, hticks.passes opened, hskip,
    fun hmem => absurd hleads (hready.memo.harmless f hmem)⟩

end Ready

/-- A node is handled if it is the node at the position. -/
theorem Handled.of_node {n : Node} (hn : (c.nodesOf f)[k]? = some n)
    (hunlocked : n.changesLocks = false)
    (hrecent : ∀ kind, n.accessKind? = some kind → w.Recent f k kind)
    (hcalled : ∀ callee args, n.effect = .call .plain callee args →
      ∀ g ∈ c.callTargets callee, (∃ r, c.program.definition? g = some r) →
        g ∈ w.memo ∨ g ∈ opened) : Handled c opened w f k where
  unlocked m hm := by
    rw [hn] at hm
    cases hm
    exact hunlocked
  recent m kind hm hkind := by
    rw [hn] at hm
    cases hm
    exact hrecent kind hkind
  called m callee args hm heffect := by
    rw [hn] at hm
    cases hm
    exact hcalled callee args heffect

namespace Ready

/-- An access is handled by its event. -/
theorem outcome_of_access (h : Ready c opened f w) {id : NodeId} {n : Node} {kind : EventKind}
    (hid : w.session.At f k id) (hn : (c.nodesOf f)[k]? = some n)
    (haccess : n.accessKind? = some kind) (hquiet : kind.Quiet) (hskip : w.self.skipTo = none) :
    Outcome c opened f w (w.record id kind) (Handled c opened (w.record id kind) f k) := by
  have hhush : w.Hushed (w.record id kind) := .record w id hquiet
  have hmemo : (w.record id kind).memo = w.memo := memo_record_of_quiet w id hquiet
  refine ⟨.refl c _, h.answers, h.memo.hush hmemo hhush, Or.inl ⟨hhush, ?_, ?_⟩, hskip,
    fun _ => .of_node hn ?_ ?_ ?_⟩
  · rw [hmemo]
    exact List.Subset.refl _
  · rw [hmemo]
    exact fun g hg => Or.inl hg
  · unfold Node.accessKind? at haccess
    unfold Node.changesLocks
    split at haccess <;> simp_all
  · intro kind' hkind'
    rw [haccess] at hkind'
    cases hkind'
    exact .record hid kind
  · intro callee args heffect
    unfold Node.accessKind? at haccess
    rw [heffect] at haccess
    cases haccess

/-- A node that changes locks clears the memo. -/
theorem outcome_of_lock (h : Ready c opened f w) {id : NodeId} {n : Node} {kind : EventKind}
    (hn : (c.nodesOf f)[k]? = some n) (hlock : n.changesLocks = true)
    (hkind : kind.isLocking = true) (hskip : w.self.skipTo = none) (P : Prop) :
    Outcome c opened f w (w.record id kind) P := by
  have hleads : c.Leads Node.changesLocks f :=
    Subject.Has.leads ⟨n, List.mem_of_getElem? hn, hlock⟩
  have hticks : Ticks c w (w.record id kind) := .record c w id kind
  have hnil : (w.record id kind).memo = [] := by
    rw [memo_record, hkind, Bool.or_true]
    rfl
  refine ⟨.refl c _, h.answers, hticks.memo h.memo fun g hg => Or.inr (h.leads hleads g hg),
    hticks.passes opened, hskip, fun hmem => ?_⟩
  rw [hnil] at hmem
  cases hmem

/-- What a runtime does at a node.  It leaves a routine that is in the memo alone. -/
theorem visit (h : Ready c opened f w) (hc : c.program.Distinct) {n : Node} {base : Nat}
    (hn : (c.nodesOf f)[k]? = some n) {routine : Option String} {rest : List NodeId}
    {opens : Bool} (hvisit : r.visit w.reach (n.shift base) routine rest = .ok (opens, v)) :
    Ready c opened f v ∧ Passes opened w v ∧ Later c w.session v.session ∧
      (f ∈ v.memo → opens = true ∧ v = w.reach) := by
  have hreach : Ticks c w w.reach := .of_eq rfl rfl rfl
  have hticks : Ticks c w v := hreach.trans (visit_ticks hvisit)
  have hlater : Later c w.session v.session := (visit_grows (c := c) hvisit).later hc
  cases hharm : concernsThreads n with
  | true =>
    have hleads : c.Leads concernsThreads f :=
      Subject.Has.leads ⟨n, List.mem_of_getElem? hn, hharm⟩
    have hready := h.step hticks (hlater.placed h.placed) hleads
    exact ⟨hready, hticks.passes opened, hlater,
      fun hmem => absurd hleads (hready.memo.harmless f hmem)⟩
  | false =>
    obtain ⟨rfl, rfl⟩ := visit_of_harmless hvisit (by rw [concernsThreads_shift, hharm])
    exact ⟨h.hush h.placed h.answers rfl (.of_eq (.refl _) rfl), hticks.passes opened, hlater,
      fun _ => ⟨rfl, rfl⟩⟩

/-- Asking whether a call is repeated: if it is, the routine is in the memo, otherwise the routine
is ready to be walked. -/
theorem isRepeated (h : Ready c opened f w) (hc : c.program.Distinct) (hfrank : c.Frank)
    (hdedup : c.settings.dedupCalls = true) (hopen : g ∉ opened) (hcalls : c.Calls f g)
    {args : List Operand} {repeated : Bool}
    (hrep : w.isRepeated c g args = .ok (repeated, u)) :
    Later c w.session u.session ∧ Calm opened w u ∧ u.self.skipTo = w.self.skipTo ∧
      (g ∈ u.memo ∨ c.Leads concernsThreads g) ∧
        (repeated = true → Ready c opened f u ∧ g ∈ u.memo) ∧
          (repeated = false → Ready c (g :: opened) g u) := by
  have hne : opened ≠ [] := List.ne_nil_of_mem h.head
  have hinner : ∀ k ∈ g :: opened, ReflTransGen c.Calls k g := by
    intro k hk
    rcases List.mem_cons.1 hk with rfl | hk
    · exact .refl
    · exact (h.reach k hk).tail hcalls
  obtain ⟨effects, session, heffects, hcases⟩ := isRepeated_cases hdedup hrep
  have hlater : Later c w.session session := (hasThreadEffects_learns heffects).later hc
  have hplaced := hlater.placed h.placed
  obtain ⟨hanswers, hright⟩ :=
    hasThreadEffects_answers hc hfrank.threads heffects h.placed h.answers
  have hhush : w.Hushed { w with session } := .of_eq hlater.remembers rfl
  have hready : Ready c opened f { w with session } := h.hush hplaced hanswers rfl hhush
  have hcalm : Calm opened w { w with session } :=
    ⟨hhush, List.Subset.refl _, fun k hk => Or.inl hk⟩
  obtain ⟨rfl, rfl, rfl⟩ | ⟨rfl, rfl, hmem, rfl⟩ | ⟨rfl, rfl, rfl⟩ := hcases
  · have hleads := hright.1 rfl
    exact ⟨hlater, hcalm, rfl, Or.inr hleads, fun hrep => (nomatch hrep), fun _ =>
      ⟨hplaced, hanswers, hready.memo.enter hne hleads, List.mem_cons_self, hinner⟩⟩
  · have hmemo : g ∈ w.memo := List.mem_map.2 ⟨_, hmem, rfl⟩
    exact ⟨hlater, hcalm, rfl, Or.inl hmemo, fun _ => ⟨hready, hmemo⟩, fun hrep => nomatch hrep⟩
  · have hnot : ¬ c.Leads concernsThreads g := fun hleads => nomatch hright.2 hleads
    refine ⟨hlater, ⟨.of_eq hlater.remembers rfl, fun k hk => List.mem_cons_of_mem _ hk, ?_⟩, rfl,
      Or.inl List.mem_cons_self, fun hrep => (nomatch hrep), fun _ =>
        ⟨hplaced, hanswers, hready.memo.note hne args hnot, List.mem_cons_self, hinner⟩⟩
    intro k hk
    rcases List.mem_cons.1 hk with rfl | hk
    · exact Or.inr hopen
    · exact Or.inl hk

/-- The event of a call. -/
theorem call (h : Ready c opened f w) (id : NodeId) : Ready c opened f (w.record id .call) :=
  h.hush h.placed h.answers (memo_record_of_quiet w id ⟨rfl, rfl⟩) (.record w id ⟨rfl, rfl⟩)

/-- The routine that is walked goes on after a call. -/
theorem resume (h : Ready c opened f w) (hfrank : c.Frank) (hcalls : c.Calls f g)
    (hplaced : Placed c v.session)
    (hout : Outcome c (g :: opened) g u v (∀ l, Handled c (g :: opened) v g l)) (id : NodeId) :
    Ready c opened f (v.record id .return) := by
  have hclosed : Memo c opened v := hout.memo.close hfrank (List.ne_nil_of_mem h.head)
    (fun k hk => (h.reach k hk).tail hcalls) hout.handled
  have hready : Ready c opened f v := ⟨hplaced, hout.answers, hclosed, h.head, h.reach⟩
  exact hready.hush hplaced hout.answers (memo_record_of_quiet v id ⟨rfl, rfl⟩)
    (.record v id ⟨rfl, rfl⟩)

end Ready

/-! ### Walks -/

/-- No position is left behind the end of a routine. -/
theorem handled_of_rest_nil (hplaced : Placed c w.session) (hrest : w.session.Rest f k []) {l : Nat}
    (hl : k ≤ l) : Handled c opened w' f l := by
  have hlen := hplaced.length_of_rest hrest
  have hnone : (c.nodesOf f)[l]? = none := by
    rw [List.getElem?_eq_none_iff]
    exact (Nat.sub_eq_zero_iff_le.1 hlen.symm).trans hl
  refine ⟨fun n hn => ?_, fun n kind hn => ?_, fun n callee args hn => ?_⟩
  all_goals
    rw [hnone] at hn
    cases hn

/-- Each of some routines that has a body is in the memo or open. -/
def Covers (c : Subject) (opened targets : List String) (w : Walk) : Prop :=
  ∀ g ∈ targets, (∃ q, c.program.definition? g = some q) → g ∈ w.memo ∨ g ∈ opened

/-- Walking nodes keeps what is known of the memo. -/
def NodesKeep (c : Subject) (r : Runtime) (ancestry opened : List String) (nodes : List NodeId)
    (w : Walk) : Prop :=
  ∀ w' f k, walk c r ancestry opened nodes w = .ok w' → Ready c opened f w →
    w.session.Rest f k nodes → w.Closes nodes →
      Outcome c opened f w w' (w.self.skipTo = none → ∀ l, k ≤ l → Handled c opened w' f l)

/-- Handling a node keeps what is known of the memo. -/
def NodeKeeps (c : Subject) (r : Runtime) (ancestry opened : List String) (id : NodeId) (n : Node)
    (w : Walk) : Prop :=
  ∀ w' f k, handle c r ancestry opened id n w = .ok w' → Ready c opened f w →
    w.session.At f k id → w.session.arena.get? id = some n → w.self.skipTo = none →
      Outcome c opened f w w' (Handled c opened w' f k)

/-- A call keeps what is known of the memo. -/
def CallsKeep (c : Subject) (r : Runtime) (ancestry opened : List String) (id : NodeId)
    (args : List Operand) (targets : List String) (w : Walk) : Prop :=
  ∀ w' f, callAll c r ancestry opened id args targets w = .ok w' → Ready c opened f w →
    (∀ g ∈ targets, c.Calls f g) → w.self.skipTo = none →
      Outcome c opened f w w' (Covers c opened targets w')

/-- A fork is a step that expands nothing. -/
def ForksKeep (c : Subject) (r : Runtime) (ancestry opened : List String) (id : NodeId)
    (api : ForkApi) (operand : Operand) (entries : List String) (w : Walk) : Prop :=
  ∀ w', forkAll c r ancestry opened id api operand entries w = .ok w' → Placed c w.session →
    Answers c w.session →
      Later c w.session w'.session ∧ Ticks c w w' ∧ w'.self.skipTo = w.self.skipTo

section Cases

/-! ### The cases of the induction

Each takes what holds of the parts as hypotheses. -/

variable {id : NodeId} {n : Node} {api : ForkApi} {operand : Operand} {args : List Operand}
  {entry : String} {rest targets entries : List String}

/-- No node is left. -/
theorem NodesKeep.nil : NodesKeep c r ancestry opened [] w := by
  intro w' f k h hready hrest hcloses
  rw [walk] at h
  cases h
  have hskip : w.self.skipTo = none := by
    cases hskip : w.self.skipTo with
    | none => rfl
    | some inst =>
      obtain ⟨id, hid, -⟩ := hcloses inst hskip
      cases hid
  exact ⟨.refl c _, hready.answers, hready.memo, Or.inl (.refl opened w), hskip,
    fun _ _ l hl => handled_of_rest_nil hready.placed hrest hl⟩

/-- A node and those behind it. -/
theorem NodesKeep.cons (hc : c.program.Distinct) {nodes : List NodeId}
    (ihskip : NodesKeep c r ancestry opened nodes w)
    (ihnodes : ∀ w, NodesKeep c r ancestry opened nodes w)
    (ihnode : ∀ n w, NodeKeeps c r ancestry opened id n w) :
    NodesKeep c r ancestry opened (id :: nodes) w := by
  intro w' f k h hready hrest hcloses
  obtain ⟨hid, hrest⟩ := hrest.cons
  obtain ⟨node, hnode, ⟨hskipped, h⟩ | ⟨-, opens, v, u, hvisit, hu, h⟩⟩ := walk_cons_ok h
  · have hpassed : w.Closes nodes := hcloses.tail hnode hskipped
    obtain ⟨hlater, hanswers, hmemo, hpasses, hskip, -⟩ :=
      ihskip w' f (k + 1) h hready hrest hpassed
    refine ⟨hlater, hanswers, hmemo, hpasses, hskip, fun _ hnone => ?_⟩
    rw [isSkipped_of_none hnone] at hskipped
    cases hskipped
  · obtain ⟨n, base, hn, rfl⟩ := hready.placed.exists_shift hid hnode
    obtain ⟨hv, hpasses, hlater, halone⟩ := hready.visit hc hn hvisit
    obtain ⟨hclosev, hnone⟩ := visit_closes hvisit rfl
    have hstep : Ready c opened f u ∧ Passes opened v u ∧ Later c v.session u.session ∧
        u.Closes nodes ∧ (f ∈ u.memo → u.self.skipTo = none ∧ Handled c opened u f k) := by
      cases opens with
      | true =>
        have hout := ihnode _ v u f k hu hv (hid.mono hlater.remembers)
          (hlater.arena _ _ hnode) (hnone rfl)
        exact ⟨hout.ready hv, hout.passes, hout.later, .of_none hout.skipTo nodes,
          fun hmem => ⟨hout.skipTo, hout.handled hmem⟩⟩
      | false =>
        cases hu
        exact ⟨hv, Or.inl (.refl opened v), .refl c _, hclosev,
          fun hmem => absurd (halone hmem).1 Bool.false_ne_true⟩
    obtain ⟨hu', hpasses', hlater', hclosesu, hhandled⟩ := hstep
    have hrest' : u.session.Rest f (k + 1) nodes := hrest.mono (hlater.trans hlater').remembers
    have hout := ihnodes u w' f (k + 1) h hu' hrest' hclosesu
    refine ⟨(hlater.trans hlater').trans hout.later, hout.answers, hout.memo,
      (hpasses.trans hpasses').trans hout.passes, hout.skipTo, fun hmem _ l hl => ?_⟩
    obtain ⟨hcalm, hmemu⟩ := hout.passes.calm hu'.head hmem
    obtain ⟨hskipu, hone⟩ := hhandled hmemu
    rcases Nat.eq_or_lt_of_le hl with rfl | hl
    · exact hone.mono hcalm.kept hcalm.hushed
    · exact hout.handled hmem hskipu l hl

/-- An access is no companion join. -/
theorem companionOf?_of_accessKind? {kind : EventKind} (h : n.accessKind? = some kind) :
    n.companionOf? = none := by
  unfold Node.accessKind? at h
  unfold Node.companionOf?
  split at h <;> simp_all

/-- A node that changes locks is no companion join. -/
theorem companionOf?_of_changesLocks (h : n.changesLocks = true) : n.companionOf? = none := by
  unfold Node.changesLocks at h
  unfold Node.companionOf?
  split at h <;> simp_all

/-- An access. -/
theorem NodeKeeps.access {kind : EventKind} (hkind : n.accessKind? = some kind)
    (hquiet : kind.Quiet) (hhandle : handle c r ancestry opened id n w = .ok (w.record id kind)) :
    NodeKeeps c r ancestry opened id n w := by
  intro w' f k h hready hid hn hskip
  have hat := hready.placed.getElem?_nodesOf hid hn (companionOf?_of_accessKind? hkind)
  rw [hhandle] at h
  cases h
  exact hready.outcome_of_access hid hat hkind hquiet hskip

/-- A node that changes locks. -/
theorem NodeKeeps.lock {kind : EventKind} (hlock : n.changesLocks = true)
    (hkind : kind.isLocking = true)
    (hhandle : handle c r ancestry opened id n w = .ok (w.record id kind)) :
    NodeKeeps c r ancestry opened id n w := by
  intro w' f k h hready hid hn hskip
  have hat := hready.placed.getElem?_nodesOf hid hn (companionOf?_of_changesLocks hlock)
  rw [hhandle] at h
  cases h
  exact hready.outcome_of_lock hat hlock hkind hskip _

/-- A node that concerns threads and expands nothing. -/
theorem NodeKeeps.ticks (hc : c.program.Distinct) (hthreads : concernsThreads n = true)
    (hticks : ∀ w', handle c r ancestry opened id n w = .ok w' →
      Ticks c w w' ∧ w'.self.skipTo = w.self.skipTo) :
    NodeKeeps c r ancestry opened id n w := by
  intro w' f k h hready hid hn hskip
  obtain ⟨hticks, hskip'⟩ := hticks w' h
  exact hready.outcome_of_ticks hticks (((all_grow c r).2.1 _ _ _ _ _ _ hn h).later hc)
    (hskip'.trans hskip) (hready.leads_of_node hid hn hthreads) _

/-- A fork. -/
theorem NodeKeeps.fork {entry : ThreadEntry} (heffect : n.effect = .fork api operand entry)
    (ih : ForksKeep c r ancestry opened id api operand (c.entryTargets entry) (w.meetFork id)) :
    NodeKeeps c r ancestry opened id n w := by
  intro w' f k h hready hid hn hskip
  have hleads := hready.leads_of_node hid hn (by simp [concernsThreads, heffect])
  rw [handle, heffect] at h
  obtain ⟨hlater, hticks, hskip'⟩ := ih w' h hready.placed hready.answers
  have hmeet : Ticks c w (w.meetFork id) := .of_eq rfl rfl rfl
  exact hready.outcome_of_ticks (hmeet.trans hticks) hlater (hskip'.trans hskip) hleads _

/-- A plain call. -/
theorem NodeKeeps.call {api : CallApi} {callee : Callee}
    (heffect : n.effect = .call api callee args) (hruntime : ¬ api.isRuntime = true)
    (ih : CallsKeep c r ancestry opened id args (c.callTargets callee) w) :
    NodeKeeps c r ancestry opened id n w := by
  intro w' f k h hready hid hnode hskip
  have hn := hready.placed.getElem?_nodesOf hid hnode (by simp [Node.companionOf?, heffect])
  have hplain : api = .plain := by cases api <;> first | rfl | exact absurd rfl hruntime
  subst hplain
  rw [handle, heffect] at h
  dsimp only at h
  rw [if_neg hruntime] at h
  obtain ⟨hlater, hanswers, hmemo, hpasses, hskip', hhandled⟩ := ih w' f h hready
    (fun g hg => Subject.calls_of_mem (List.mem_of_getElem? hn) heffect hg) hskip
  refine ⟨hlater, hanswers, hmemo, hpasses, hskip', fun hmem => .of_node hn ?_ ?_ ?_⟩
  · unfold Node.changesLocks
    rw [heffect]
  · intro kind hkind
    unfold Node.accessKind? at hkind
    rw [heffect] at hkind
    cases hkind
  · intro callee' args' heffect'
    rw [heffect] at heffect'
    cases heffect'
    exact hhandled hmem

/-- No routine is left. -/
theorem CallsKeep.nil : CallsKeep c r ancestry opened id args [] w := by
  intro w' f h hready _ hskip
  rw [callAll] at h
  cases h
  exact ⟨.refl c _, hready.answers, hready.memo, Or.inl (.refl opened w), hskip,
    fun _ g hg => absurd hg List.not_mem_nil⟩

namespace Ready

/-- A routine is looked up. -/
theorem outcome_of_summary (h : Ready c opened f w) (hc : c.program.Distinct)
    (hskip : w.self.skipTo = none) {nodes : Option (List NodeId)} {session : Session}
    (hsummary : w.session.summary c g = .ok (nodes, session)) {P : Prop} (hP : P) :
    Outcome c opened f w { w with session } P := by
  have hlater : Later c w.session session := (Learns.summary hsummary).later hc
  have hready := h.consult hc hsummary
  exact ⟨hlater, hready.answers, hready.memo, Or.inl ⟨.of_eq hlater.remembers rfl,
    List.Subset.refl _, fun g hg => Or.inl hg⟩, hskip, fun _ => hP⟩

variable (h : Ready c opened f w) (hc : c.program.Distinct) (hfrank : c.Frank)
  (hdedup : c.settings.dedupCalls = true) (hskip : w.self.skipTo = none) (hopen : g ∉ opened)
  (hcall : c.Calls f g)

include h hc hfrank hdedup hskip hopen hcall

/-- A repeated call is passed over. -/
theorem outcome_of_repeated (hrepeated : w.isRepeated c g args = .ok (true, u)) :
    Outcome c opened f w u (Covers c opened [g] u) := by
  obtain ⟨hlater, hcalm, hskipu, -, hagain, -⟩ :=
    h.isRepeated hc hfrank hdedup hopen hcall hrepeated
  obtain ⟨hu, hmem⟩ := hagain rfl
  refine ⟨hlater, hu.answers, hu.memo, Or.inl hcalm, hskipu.trans hskip, fun _ k hk _ => ?_⟩
  rw [List.mem_singleton.1 hk]
  exact Or.inl hmem

/-- A call is expanded. -/
theorem outcome_of_expanded (hrepeated : w.isRepeated c g args = .ok (false, u))
    {nodes : List NodeId} (hrest : w.session.Rest g 0 nodes)
    (hv : walk c r ancestry (g :: opened) nodes (u.record id .call) = .ok v)
    (ih : NodesKeep c r ancestry (g :: opened) nodes (u.record id .call)) :
    Outcome c opened f w (v.record id .return) (Covers c opened [g] (v.record id .return)) := by
  obtain ⟨hlater, hcalm, hskipu, hnoted, -, hfirst⟩ :=
    h.isRepeated hc hfrank hdedup hopen hcall hrepeated
  have hskipu' : u.self.skipTo = none := hskipu.trans hskip
  have hinner : Ready c (g :: opened) g (u.record id .call) := (hfirst rfl).call id
  have hout := ih v g 0 hv hinner (hrest.mono hlater.remembers) (.of_none hskipu' _)
  have hback : Ready c opened f (v.record id .return) :=
    h.resume hfrank hcall (hout.later.placed hinner.placed)
      ⟨hout.later, hout.answers, hout.memo, hout.passes, hout.skipTo,
        fun hmem l => hout.handled hmem hskipu' l (Nat.zero_le l)⟩ id
  have hone : Calm (g :: opened) u (u.record id .call) := by
    refine ⟨.record u id ⟨rfl, rfl⟩, ?_, fun k hk => Or.inl ?_⟩
    · rw [memo_record_of_quiet u id ⟨rfl, rfl⟩]
      exact List.Subset.refl _
    · rw [memo_record_of_quiet u id ⟨rfl, rfl⟩] at hk
      exact hk
  have hcalled : Passes (g :: opened) u v := Passes.trans (Or.inl hone) hout.passes
  have hreturned : Passes opened v (v.record id .return) :=
    Ticks.passes (.record c v id .return) opened
  refine ⟨hlater.trans hout.later, hback.answers, hback.memo,
    (Passes.trans (Or.inl hcalm) hcalled.of_cons).trans hreturned, hout.skipTo,
    fun hmem k hk _ => ?_⟩
  rw [memo_record_of_quiet v id ⟨rfl, rfl⟩] at hmem ⊢
  rw [List.mem_singleton.1 hk]
  -- The routine that calls is in the memo, so what it calls was noted before it was expanded.
  obtain ⟨hcalmv, hmemu⟩ := hcalled.calm (List.mem_cons_of_mem _ h.head) hmem
  rcases hnoted with hnoted | hleads
  · exact Or.inl (hcalmv.kept hnoted)
  · exact absurd (hleads.of_calls hcall) ((hfirst rfl).memo.harmless f hmemu)

end Ready

/-- A routine that a call may reach, and those behind it. -/
theorem CallsKeep.cons (hc : c.program.Distinct) (hfrank : c.Frank)
    (hdedup : c.settings.dedupCalls = true)
    (ihcalls : ∀ w, CallsKeep c r ancestry opened id args targets w)
    (ihnodes : ∀ (nodes : Option (List NodeId)) (routine : Routine),
      c.program.definition? g = some routine → g ∉ opened → ∀ w : Walk,
        NodesKeep c r ancestry (g :: opened) (nodes.getD []) (w.record id .call)) :
    CallsKeep c r ancestry opened id args (g :: targets) w := by
  intro w' f h hready hcalls hskip
  have hcall := hcalls g List.mem_cons_self
  -- What the first routine came to is known, and so are the others.
  have hfinish : ∀ {v : Walk}, Outcome c opened f w v (Covers c opened [g] v) →
      callAll c r ancestry opened id args targets v = .ok w' →
        Outcome c opened f w w' (Covers c opened (g :: targets) w') := by
    intro v hfirst h
    refine hfirst.trans (ihcalls v w' f h (hfirst.ready hready)
      (fun e he => hcalls e (List.mem_cons_of_mem _ he)) hfirst.skipTo) hready.head
      fun hcalm hone hothers k hk hdef => ?_
    rcases List.mem_cons.1 hk with rfl | hk
    · exact (hone k (List.mem_singleton_self k) hdef).imp_left fun hmem => hcalm.kept hmem
    · exact hothers k hk hdef
  obtain ⟨nodes, session, hsummary, h⟩ := callAll_cons_ok h
  obtain ⟨hpass, h⟩ | ⟨routine, hdef, hopen, repeated, u, hrepeated, h⟩ := h
  · refine hfinish (hready.outcome_of_summary hc hskip hsummary fun k hk hdef => ?_) h
    rw [List.mem_singleton.1 hk] at hdef ⊢
    rcases hpass with hnone | hopen
    · obtain ⟨q, hq⟩ := hdef
      rw [hnone] at hq
      cases hq
    · exact Or.inr hopen
  · have hready' := hready.consult hc hsummary
    have hlooked : Outcome c opened f w { w with session } True :=
      hready.outcome_of_summary hc hskip hsummary trivial
    obtain ⟨rfl, h⟩ | ⟨rfl, v, hv, h⟩ := h
    · exact hfinish (hlooked.trans
        (hready'.outcome_of_repeated hc hfrank hdedup hskip hopen hcall hrepeated) hready.head
        fun _ _ hcovers => hcovers) h
    · exact hfinish (hlooked.trans
        (hready'.outcome_of_expanded hc hfrank hdedup hskip hopen hcall hrepeated
          (.of_summary hsummary hdef) hv (ihnodes nodes routine hdef hopen u)) hready.head
        fun _ _ hcovers => hcovers) h

/-- No child is left. -/
theorem ForksKeep.nil : ForksKeep c r ancestry opened id api operand [] w := by
  intro w' h _ _
  rw [forkAll] at h
  cases h
  exact ⟨.refl c _, .refl c w, rfl⟩

/-- A child that is not started. -/
theorem ForksKeep.pass (hpass : entry ∈ ancestry ∨ c.settings.maxThreads ≤ w.session.threads.size)
    (ih : ForksKeep c r ancestry opened id api operand entries w) :
    ForksKeep c r ancestry opened id api operand (entry :: entries) w := by
  intro w' h hplaced hanswers
  obtain ⟨-, h⟩ | ⟨ha, hlimit, -⟩ := forkAll_cons_ok h
  · exact ih w' h hplaced hanswers
  · exact absurd hpass (not_or.2 ⟨ha, Nat.not_le.2 hlimit⟩)

/-- What a child comes to. -/
theorem WalksChild.answers (hc : c.program.Distinct) {child : ThreadId} {inner : Walk}
    (h : WalksChild c r ancestry entry (v.enterChild child api) inner)
    (hplaced : Placed c v.session) (hanswers : Answers c v.session)
    (ih : ∀ routine, c.program.definition? entry = some routine →
      ∀ (nodes : Option (List NodeId)) (session : Session),
        NodesKeep c r (entry :: ancestry) [entry] (nodes.getD [])
          { v.enterChild child api with session }) :
    Later c v.session inner.session ∧ Answers c inner.session := by
  rcases h with ⟨-, rfl⟩ | ⟨routine, nodes, session, hdef, hsummary, hwalk⟩
  · exact ⟨.refl c _, hanswers⟩
  · have hlater := (Learns.summary hsummary).later hc
    have hout := ih routine hdef nodes session inner entry 0 hwalk
      (.start (hlater.placed hplaced) (hanswers.summary hsummary) child (some api) entry)
      (.of_summary hsummary hdef) (.of_none rfl _)
    exact ⟨hlater.trans hout.later, hout.answers⟩

/-- A child that is started, and those behind it. -/
theorem ForksKeep.start (hc : c.program.Distinct) (ha : entry ∉ ancestry)
    (hlimit : ¬ w.session.threads.size ≥ c.settings.maxThreads)
    (ihforks : ∀ w inner,
      ForksKeep c r ancestry opened id api operand entries (endFork r w id api operand inner))
    (ihnodes : ∀ (child : ThreadId) (w : Walk) (routine : Routine),
      c.program.definition? entry = some routine →
        ∀ (nodes : Option (List NodeId)) (session : Session),
          NodesKeep c r (entry :: ancestry) [entry] (nodes.getD [])
            { w.enterChild child api with session }) :
    ForksKeep c r ancestry opened id api operand (entry :: entries) w := by
  intro w' h hplaced hanswers
  obtain ⟨hpass, -⟩ | ⟨-, -, child, v, inner, last, hbegin, hinner, hlast, h⟩ := forkAll_cons_ok h
  · exact absurd hpass (not_or.2 ⟨ha, hlimit⟩)
  · have hbegun : Later c w.session v.session := beginFork_later hbegin
    obtain ⟨hwalked, hanswersi⟩ := hinner.answers hc (hbegun.placed hplaced)
      (beginFork_answers hbegin hanswers) (ihnodes child v)
    have hended : Later c inner.session last.session := (finish_grows hlast).later hc
    have hclosed : Later c last.session last.close.session := .of_eq rfl rfl
    have hforked : Later c w.session last.close.session :=
      ((hbegun.trans hwalked).trans hended).trans hclosed
    have hanswers' : Answers c last.close.session := (finish_ticks hlast).answers hanswersi
    obtain ⟨hlater, hticks, hskip⟩ := ihforks v last.close w' h (hforked.placed hplaced) hanswers'
    obtain ⟨-, -, -, hself⟩ := beginFork_spec hbegin
    have hone : Ticks c w (v.endFork r id api operand last.close) :=
      ⟨fun _ => hanswers', endFork_rolls hbegin r api operand last.close⟩
    refine ⟨hforked.trans hlater, hone.trans hticks, hskip.trans ?_⟩
    show v.self.skipTo = w.self.skipTo
    rw [hself]
    rfl

end Cases

/-- What is walked with deduplicated calls, whether it is a list of nodes, a node, the routines of a
call or the children of a fork, keeps what is known of the memo. -/
theorem all_keep (hc : c.program.Distinct) (hfrank : c.Frank)
    (hdedup : c.settings.dedupCalls = true) (r : Runtime) :
    (∀ ancestry opened nodes w, NodesKeep c r ancestry opened nodes w) ∧
      (∀ ancestry opened id n w, NodeKeeps c r ancestry opened id n w) ∧
      (∀ ancestry opened id args targets w, CallsKeep c r ancestry opened id args targets w) ∧
      ∀ ancestry opened id api operand entries w,
        ForksKeep c r ancestry opened id api operand entries w := by
  apply walk.mutual_induct c r (NodesKeep c r) (NodeKeeps c r) (CallsKeep c r) (ForksKeep c r)
  case case1 => exact fun _ _ _ => .nil
  case case2 => exact fun _ _ _ _ _ ihskip ihnodes ihnode => .cons hc ihskip ihnodes ihnode
  case case3 | case4 | case5 =>
    intros
    rename_i heffect
    exact .access (by rw [Node.accessKind?, heffect]) ⟨rfl, rfl⟩ (by rw [handle, heffect])
  case case6 | case7 =>
    intros
    rename_i heffect
    exact .lock (by rw [Node.changesLocks, heffect]) rfl (by rw [handle, heffect])
  case case8 =>
    intro _ _ id n w _ heffect
    refine .ticks hc (by simp [concernsThreads, heffect]) fun w' h => ?_
    rw [handle, heffect] at h
    cases h
    exact ⟨.record c w id .barrier, rfl⟩
  case case9 =>
    intro _ _ id n w _ _ fork heffect
    refine .ticks hc (by simp [concernsThreads, heffect]) fun w' h => ?_
    rw [handle, heffect] at h
    exact ⟨joinCompanion_ticks h, joinCompanion_skipTo h⟩
  case case10 =>
    intro _ _ id n w _ operand heffect
    refine .ticks hc (by simp [concernsThreads, heffect]) fun w' h => ?_
    rw [handle, heffect] at h
    cases h
    exact ⟨joinHandle_ticks id operand, joinHandle_skipTo c w id operand⟩
  case case11 => exact fun _ _ _ _ _ _ _ _ heffect ih => .fork heffect ih
  case case12 =>
    intro _ _ id n w _ _ _ heffect hruntime
    refine .ticks hc (by simp [concernsThreads, heffect, hruntime]) fun w' h => ?_
    rw [handle, heffect] at h
    dsimp only at h
    rw [if_pos hruntime] at h
    cases h
    exact ⟨.refl c w, rfl⟩
  case case13 => exact fun _ _ _ _ _ _ _ _ heffect hruntime ih => .call heffect hruntime ih
  case case14 => exact fun _ _ _ _ _ => .nil
  case case15 =>
    exact fun _ _ _ _ _ _ _ _ ihcalls ihnodes _ => .cons hc hfrank hdedup ihcalls ihnodes
  case case16 => exact fun _ _ _ _ _ _ => .nil
  case case17 => exact fun _ _ _ _ _ _ _ _ ha ih => .pass (Or.inl ha) ih
  case case18 => exact fun _ _ _ _ _ _ _ _ _ hlimit ih => .pass (Or.inr hlimit) ih
  case case19 =>
    exact fun _ _ _ _ _ _ _ _ ha hlimit ihforks ihnodes => .start hc ha hlimit ihforks ihnodes

end Walk

end DataRace
