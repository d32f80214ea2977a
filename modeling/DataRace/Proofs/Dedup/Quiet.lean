import DataRace.Proofs.Dedup.Paired

/-!
# Settled routines add nothing

A routine that is settled in the walk that deduplicates calls may be walked by the other one again:
all that is reached is settled too, so the second walk makes only calls, returns, and accesses that
are recent in the first (`Walk.Paired.walk_settled`).
-/

namespace DataRace

open Session

namespace Walk

variable {c : Subject} {r : Runtime} {opened : List String} {mask : List Bool} {u v w w' : Walk}

/-- Without deduplication no call is repeated. -/
theorem isRepeated_full {target : String} {args : List Operand} {repeated : Bool}
    (h : w.isRepeated c.full target args = .ok (repeated, w')) : repeated = false ∧ w' = w := by
  unfold isRepeated at h
  rw [if_neg (show ¬ c.full.settings.dedupCalls = true from Bool.false_ne_true)] at h
  cases h
  exact ⟨rfl, rfl⟩

/-- A routine is in the memo and not open. -/
def Settled (opened : List String) (u : Walk) (f : String) : Prop := f ∈ u.memo ∧ f ∉ opened

/-- A call or return of the second walk alone. -/
theorem Paired.drop_call (h : Paired c mask u v) (id : NodeId) {kind : EventKind}
    (hkind : kind = .call ∨ kind = .return) :
    Paired c (mask ++ [false]) u (v.record id kind) := by
  rcases hkind with rfl | rfl
  · exact h.drop ⟨rfl, rfl⟩ fun haccess => nomatch haccess
  · exact h.drop ⟨rfl, rfl⟩ fun haccess => nomatch haccess

/-- No node of a settled routine concerns threads. -/
theorem Paired.harmless (h : Paired c mask u v) (hu : Memo c opened u) {f : String} {k : Nat}
    (hf : Settled opened u f) {id : NodeId} {node : Node} (hid : v.session.At f k id)
    (hnode : v.session.arena.get? id = some node) : concernsThreads node = false := by
  obtain ⟨n, base, hn, rfl⟩ := h.session.right.exists_shift hid hnode
  rw [concernsThreads_shift, Bool.eq_false_iff]
  exact fun hthreads => hu.harmless f hf.1
    (Subject.Has.leads ⟨n, List.mem_of_getElem? hn, hthreads⟩)

/-- A walk that skips nothing is paired with one that stands still. -/
def Beside (c : Subject) (u v : Walk) : Prop := v.self.skipTo = none ∧ ∃ mask, Paired c mask u v

/-- Walking nodes of a settled routine keeps the walk beside one that stands still. -/
def NodesStay (c : Subject) (r : Runtime) (opened : List String) (u : Walk)
    (ancestry inner : List String) (nodes : List NodeId) (v : Walk) : Prop :=
  ∀ v' f k, walk c.full r ancestry inner nodes v = .ok v' → Beside c u v → Settled opened u f →
    opened ⊆ inner → v.session.Rest f k nodes → Beside c u v'

/-- Handling a node of a settled routine does. -/
def NodeStays (c : Subject) (r : Runtime) (opened : List String) (u : Walk)
    (ancestry inner : List String) (id : NodeId) (n : Node) (v : Walk) : Prop :=
  ∀ v' f k, handle c.full r ancestry inner id n v = .ok v' → Beside c u v → Settled opened u f →
    opened ⊆ inner → v.session.At f k id → v.session.arena.get? id = some n → Beside c u v'

/-- A call of routines in the memo does. -/
def CallsStay (c : Subject) (r : Runtime) (opened : List String) (u : Walk)
    (ancestry inner : List String) (id : NodeId) (args : List Operand) (targets : List String)
    (v : Walk) : Prop :=
  ∀ v', callAll c.full r ancestry inner id args targets v = .ok v' → Beside c u v →
    opened ⊆ inner → Covers c opened targets u → Beside c u v'

section Cases

/-! ### The cases of the induction

Each takes what holds of the parts as hypotheses. -/

variable {ancestry inner : List String} {id : NodeId} {n : Node} {args : List Operand}
  {target : String} {targets : List String}

/-- No node is left. -/
theorem NodesStay.nil : NodesStay c r opened u ancestry inner [] v := by
  intro v' f k h hbeside _ _ _
  rw [walk] at h
  cases h
  exact hbeside

/-- A node and those behind it. -/
theorem NodesStay.cons (hc : c.program.Distinct) (hu : Memo c opened u) {nodes : List NodeId}
    (ihnodes : ∀ v, NodesStay c r opened u ancestry inner nodes v)
    (ihnode : ∀ n v, NodeStays c r opened u ancestry inner id n v) :
    NodesStay c r opened u ancestry inner (id :: nodes) v := by
  intro v' f k h ⟨hskip, mask, hpaired⟩ hf hinner hrest
  obtain ⟨hid, hrest⟩ := hrest.cons
  obtain ⟨node, hnode, ⟨hskipped, -⟩ | ⟨-, opens, x, y, hvisit, hy, hgo⟩⟩ := walk_cons_ok h
  · rw [isSkipped_of_none hskip] at hskipped
    cases hskipped
  · rw [reach_of_none hskip] at hvisit
    obtain ⟨rfl, rfl⟩ := visit_of_harmless hvisit (hpaired.harmless hu hf hid hnode)
    have hbeside := ihnode _ x y f k hy ⟨hskip, mask, hpaired⟩ hf hinner hid hnode
    have hlater := ((all_grow c.full r).2.1 _ _ _ _ _ _ hnode hy).later
      (show c.full.program.Distinct from hc)
    exact ihnodes y v' f (k + 1) hgo hbeside hf hinner (hrest.mono hlater.remembers)

/-- An access. -/
theorem NodeStays.access (hc : c.program.Distinct) (hu : Memo c opened u) {kind : EventKind}
    (hkind : n.accessKind? = some kind) (hquiet : kind.Quiet)
    (hhandle : handle c.full r ancestry inner id n v = .ok (v.record id kind)) :
    NodeStays c r opened u ancestry inner id n v := by
  intro v' f k h ⟨hskip, mask, hpaired⟩ hf hinner hid hnode
  have hnone : n.companionOf? = none := companionOf?_of_accessKind? hkind
  have hn := hpaired.session.right.getElem?_nodesOf hid hnode hnone
  rw [hhandle] at h
  cases h
  refine ⟨hskip, mask ++ [false], hpaired.drop hquiet fun _ => ?_⟩
  obtain ⟨i, hi, l, e, he, rfl, hkind, hbehind⟩ :=
    ((hu.settled f hf.1 hf.2).2 k).recent _ _ hn hkind
  have hsame : SameNode u.session _ e.node _ := ⟨f, k, hi, hid⟩
  exact ⟨l, e, he, hkind, hsame.agree_right hc hpaired.session.left hpaired.session.right hnode
    hnone, hbehind⟩

/-- A settled routine has no node that changes locks. -/
theorem NodeStays.lock (hu : Memo c opened u) (hlock : n.changesLocks = true) :
    NodeStays c r opened u ancestry inner id n v := by
  intro v' f k h ⟨hskip, mask, hpaired⟩ hf hinner hid hnode
  have hn := hpaired.session.right.getElem?_nodesOf hid hnode (companionOf?_of_changesLocks hlock)
  have hunlocked := ((hu.settled f hf.1 hf.2).2 k).unlocked _ hn
  rw [hlock] at hunlocked
  cases hunlocked

/-- A settled routine has no node that concerns threads. -/
theorem NodeStays.threads (hu : Memo c opened u) (hthreads : concernsThreads n = true) :
    NodeStays c r opened u ancestry inner id n v := by
  intro v' f k h ⟨hskip, mask, hpaired⟩ hf hinner hid hnode
  have hharmless := hpaired.harmless hu hf hid hnode
  rw [hthreads] at hharmless
  cases hharmless

/-- A plain call. -/
theorem NodeStays.call (hu : Memo c opened u) {api : CallApi} {callee : Callee}
    (heffect : n.effect = .call api callee args) (hruntime : ¬ api.isRuntime = true)
    (ih : CallsStay c r opened u ancestry inner id args (c.callTargets callee) v) :
    NodeStays c r opened u ancestry inner id n v := by
  intro v' f k h ⟨hskip, mask, hpaired⟩ hf hinner hid hnode
  have hn := hpaired.session.right.getElem?_nodesOf hid hnode
    (by simp [Node.companionOf?, heffect])
  have hplain : api = .plain := by cases api <;> first | rfl | exact absurd rfl hruntime
  subst hplain
  rw [handle, heffect] at h
  dsimp only at h
  rw [if_neg hruntime] at h
  exact ih v' h ⟨hskip, mask, hpaired⟩ hinner
    (((hu.settled f hf.1 hf.2).2 k).called n callee args hn heffect)

/-- No routine is left. -/
theorem CallsStay.nil : CallsStay c r opened u ancestry inner id args [] v := by
  intro v' h hbeside _ _
  rw [callAll] at h
  cases h
  exact hbeside

/-- A routine that a call may reach, and those behind it. -/
theorem CallsStay.cons (hc : c.program.Distinct)
    (ihcalls : ∀ v, CallsStay c r opened u ancestry inner id args targets v)
    (ihnodes : ∀ (nodes : Option (List NodeId)) (routine : Routine),
      c.program.definition? target = some routine → target ∉ inner → ∀ v : Walk,
        NodesStay c r opened u ancestry (target :: inner) (nodes.getD []) (v.record id .call)) :
    CallsStay c r opened u ancestry inner id args (target :: targets) v := by
  intro v' h ⟨hskip, mask, hpaired⟩ hinner hcovers
  have hcovers' : Covers c opened targets u :=
    fun g hg => hcovers g (List.mem_cons_of_mem target hg)
  obtain ⟨nodes, session, hsummary, h⟩ := callAll_cons_ok h
  have hlearns : Learns c.full v.session session := .summary hsummary
  have hlater : Later c v.session session :=
    (hlearns.later (show c.full.program.Distinct from hc)).of_full
  have hpaired' : Paired c mask u { v with session } :=
    hpaired.consult (.refl c _) hlater rfl hlearns.extends.threads
  obtain ⟨-, h⟩ | ⟨routine, hdef, hopen, repeated, x, hrepeated, h⟩ := h
  · exact ihcalls _ v' h ⟨hskip, mask, hpaired'⟩ hinner hcovers'
  · obtain ⟨rfl, rfl⟩ := isRepeated_full hrepeated
    obtain ⟨hrep, -⟩ | ⟨-, y, hy, h⟩ := h
    · cases hrep
    · have hsettled : Settled opened u target := by
        rcases hcovers target List.mem_cons_self ⟨routine, hdef⟩ with hmem | hmem
        · exact ⟨hmem, fun hmem' => hopen (hinner hmem')⟩
        · exact absurd (hinner hmem) hopen
      obtain ⟨hskip', mask', hy'⟩ := ihnodes nodes routine hdef hopen _ y target 0 hy
        ⟨hskip, mask ++ [false], hpaired'.drop_call id (Or.inl rfl)⟩ hsettled
        (fun f hf => List.mem_cons_of_mem _ (hinner hf)) (.of_summary hsummary hdef)
      exact ihcalls _ v' h ⟨hskip', _, hy'.drop_call id (Or.inr rfl)⟩ hinner hcovers'

end Cases

/-- What is walked of settled routines with all calls expanded, whether it is a list of nodes, a
node or the routines of a call, keeps the walk beside one that stands still. -/
theorem all_stay (hc : c.program.Distinct) (hu : Memo c opened u) (r : Runtime) :
    (∀ ancestry inner nodes v, NodesStay c r opened u ancestry inner nodes v) ∧
      (∀ ancestry inner id n v, NodeStays c r opened u ancestry inner id n v) ∧
      (∀ ancestry inner id args targets v,
        CallsStay c r opened u ancestry inner id args targets v) ∧
      ∀ _ancestry _inner : List String, ∀ (_id : NodeId) (_api : ForkApi) (_operand : Operand)
        (_entries : List String) (_v : Walk), True := by
  apply walk.mutual_induct c.full r (NodesStay c r opened u) (NodeStays c r opened u)
    (CallsStay c r opened u) (fun _ _ _ _ _ _ _ => True)
  case case1 => exact fun _ _ _ => .nil
  case case2 => exact fun _ _ _ _ _ _ ihnodes ihnode => .cons hc hu ihnodes ihnode
  case case3 | case4 | case5 =>
    intros
    rename_i heffect
    exact .access hc hu (by rw [Node.accessKind?, heffect]) ⟨rfl, rfl⟩ (by rw [handle, heffect])
  case case6 | case7 =>
    intros
    rename_i heffect
    exact .lock hu (by rw [Node.changesLocks, heffect])
  case case8 | case9 | case10 =>
    intros
    rename_i heffect
    exact .threads hu (by rw [concernsThreads, heffect])
  case case11 =>
    intro _ _ _ _ _ _ _ _ heffect _
    exact .threads hu (by rw [concernsThreads, heffect])
  case case12 =>
    intro _ _ _ _ _ _ _ _ heffect hruntime
    exact .threads hu (by simp [concernsThreads, heffect, hruntime])
  case case13 => exact fun _ _ _ _ _ _ _ _ heffect hruntime ih => .call hu heffect hruntime ih
  case case14 => exact fun _ _ _ _ _ => .nil
  case case15 => exact fun _ _ _ _ _ _ _ _ ihcalls ihnodes _ => .cons hc ihcalls ihnodes
  all_goals
    intros
    trivial

/-- Walking a settled routine with all calls expanded keeps the walk paired with one that stands
still. -/
theorem Paired.walk_settled (h : Paired c mask u v) (hc : c.program.Distinct)
    (hu : Memo c opened u) {f : String} (hf : Settled opened u f) {ancestry : List String}
    {nodes : List NodeId} {v' : Walk} (hrest : v.session.Rest f 0 nodes)
    (hskip : v.self.skipTo = none)
    (hv : walk c.full r ancestry (f :: opened) nodes v = .ok v') :
    v'.self.skipTo = none ∧ ∃ mask', Paired c mask' u v' :=
  (all_stay hc hu r).1 ancestry (f :: opened) nodes v v' f 0 hv ⟨hskip, mask, h⟩ hf
    (List.subset_cons_self f opened) hrest

end Walk

end DataRace
