import DataRace.Proofs.Classify.Outline
import DataRace.Proofs.Program.Lookups
import DataRace.Proofs.Trace.Growth

/-!
# Where nodes are placed

`Subject.nodesOf` are the nodes of a routine as they are made in an empty arena.  A session places
them in its arena one after the other, wherever it was when it was first asked for the routine
(`Session.Placed`), so a node is known by its routine and its position there (`Session.At`).

Two sessions of one subject may have asked for routines in different orders.  `SameNode` relates
their positions of one node; what stands at them is the same, except that companion joins name forks
by position (`SameNode.twin`).
-/

namespace DataRace

/-- No routine of a program uses an instruction id twice. -/
def Program.Distinct (p : Program) : Prop :=
  ∀ f r, p.definition? f = some r → (r.body.map Instruction.id).Nodup

/-- A program that was checked uses no id twice in a routine. -/
theorem Program.distinct_of_ofRoutines {name : String} {routines : List Routine} {p : Program}
    (h : ofRoutines name routines = .ok p) : p.Distinct := by
  obtain ⟨-, hids, rfl⟩ := ofRoutines_eq_ok_iff_nodup.1 h
  exact fun f r hr => (List.nodup_flatMap.1 hids).1 r (mem_of_definition? hr)

/-- The nodes of a routine as they are made in an empty arena. -/
def Subject.nodesOf (c : Subject) (f : String) : List Node :=
  match c.program.definition? f with
  | none => []
  | some r =>
    match Draft.classifyAll c.program c.settings c.chain ⟨.empty, []⟩ r.body with
    | .error _ => []
    | .ok d => d.arena.nodes.toList

variable {c : Subject}

namespace Subject

/-- No companion joins are in an empty arena. -/
theorem tidy_empty : Arena.empty.Tidy := by
  intro id n fork hn
  cases hn

/-- What an empty draft is extended by are its nodes. -/
theorem toList_extend_empty (ns : List Node) :
    (Draft.extend ⟨.empty, []⟩ ns).arena.nodes.toList = ns := by
  show (#[] ++ (ns.map (Node.shift 0)).toArray).toList = ns
  rw [Array.empty_append]
  exact (List.map_congr_left fun n _ => Node.shift_zero n).trans (List.map_id ns)

/-- Wherever a routine is classified, it adds its nodes. -/
theorem classifyAll_eq (hc : c.program.Distinct) {f : String} {r : Routine}
    (hdef : c.program.definition? f = some r) {a : Arena} (ha : a.Tidy) {d : Draft}
    (h : Draft.classifyAll c.program c.settings c.chain ⟨a, []⟩ r.body = .ok d) :
    d = Draft.extend ⟨a, []⟩ (c.nodesOf f) ∧ Outline r.body (c.nodesOf f) := by
  obtain ⟨x, hx, houtline⟩ :=
    Draft.exists_outline c.program c.settings c.chain (hc f r hdef)
  rw [hx ⟨a, []⟩ ha] at h
  obtain ⟨ns, rfl, rfl⟩ := Except.map_eq_ok.1 h
  have hnodes : c.nodesOf f = ns := by
    unfold nodesOf
    rw [hdef]
    dsimp only
    rw [hx ⟨.empty, []⟩ tidy_empty]
    exact toList_extend_empty ns
  rw [hnodes]
  exact ⟨rfl, houtline ns rfl⟩

/-- The nodes of a routine with a body are those of its draft, or there are none. -/
theorem nodesOf_cases {f : String} {r : Routine} (hdef : c.program.definition? f = some r) :
    c.nodesOf f = [] ∨ ∃ d, c.nodesOf f = d.arena.nodes.toList ∧
      Draft.classifyAll c.program c.settings c.chain ⟨.empty, []⟩ r.body = .ok d := by
  unfold nodesOf
  rw [hdef]
  dsimp only
  cases Draft.classifyAll c.program c.settings c.chain ⟨.empty, []⟩ r.body with
  | error => exact Or.inl rfl
  | ok d => exact Or.inr ⟨d, rfl, rfl⟩

/-- A node of a routine is one of its instructions. -/
theorem exists_instruction (hc : c.program.Distinct) {f : String} {n : Node}
    (hn : n ∈ c.nodesOf f) :
    ∃ r i, c.program.definition? f = some r ∧ i ∈ r.body ∧ n.inst = i.id := by
  cases hdef : c.program.definition? f with
  | none =>
    unfold nodesOf at hn
    rw [hdef] at hn
    cases hn
  | some r =>
    obtain hnil | ⟨d, -, hd⟩ := nodesOf_cases hdef
    · rw [hnil] at hn
      cases hn
    · obtain ⟨i, hi, hinst⟩ := (classifyAll_eq hc hdef tidy_empty hd).2.inst n hn
      exact ⟨r, i, rfl, hi, hinst⟩

/-- The nodes of a routine are an outline. -/
theorem exists_outline (hc : c.program.Distinct) (f : String) :
    ∃ body, Outline body (c.nodesOf f) := by
  have hnil : Outline [] [] := by
    refine ⟨fun k n fork hn => ?_, fun n hn => ?_, fun j k m n api _ hm => ?_,
      fun j k l m n o _ _ hm => ?_⟩
    · cases hn
    · cases hn
    · cases hm
    · cases hm
  cases hdef : c.program.definition? f with
  | none =>
    refine ⟨[], ?_⟩
    unfold nodesOf
    rw [hdef]
    exact hnil
  | some r =>
    obtain heq | ⟨d, -, hd⟩ := nodesOf_cases hdef
    · exact ⟨[], heq ▸ hnil⟩
    · exact ⟨r.body, (classifyAll_eq hc hdef tidy_empty hd).2⟩

end Subject

namespace Session

/-- A session has the nodes of each routine that it was asked for in one stretch of its arena. -/
structure Placed (c : Subject) (s : Session) : Prop where
  tidy : s.arena.Tidy
  stretch : ∀ (f : String) (ids : List NodeId), s.summaries[f]? = some ids → ∃ base,
    ids = List.range' base (c.nodesOf f).length ∧
      ∀ (k : Nat) (n : Node), (c.nodesOf f)[k]? = some n →
        s.arena.get? (base + k) = some (n.shift base)
  apart : ∀ (f g : String) (ids ids' : List NodeId) (id : NodeId), s.summaries[f]? = some ids →
    s.summaries[g]? = some ids' → id ∈ ids → id ∈ ids' → f = g

/-- The node of a routine at a position. -/
def At (s : Session) (f : String) (k : Nat) (id : NodeId) : Prop :=
  ∃ ids, s.summaries[f]? = some ids ∧ ids[k]? = some id

/-- The nodes of a routine from a position on. -/
def Rest (s : Session) (f : String) (k : Nat) (nodes : List NodeId) : Prop :=
  ∃ ids, s.summaries[f]? = some ids ∧ nodes = ids.drop k

/-- A session that forgets no nodes of a routine. -/
def Remembers (s s' : Session) : Prop :=
  ∀ (f : String) (ids : List NodeId), s.summaries[f]? = some ids → s'.summaries[f]? = some ids

/-- A session that knows at least as many nodes, placed if those before were. -/
structure Later (c : Subject) (s s' : Session) : Prop where
  arena : s.arena.Extends s'.arena
  remembers : s.Remembers s'
  placed : Placed c s → Placed c s'

variable {s s' : Session}

namespace Placed

/-- A session that was asked nothing. -/
theorem empty (c : Subject) (threads : Array Thread) :
    Placed c { Session.empty with threads } where
  tidy := Subject.tidy_empty
  stretch f ids h := by
    rw [show ({ Session.empty with threads } : Session).summaries[f]? = none from
      Std.HashMap.getElem?_empty] at h
    cases h
  apart f g ids ids' id h := by
    rw [show ({ Session.empty with threads } : Session).summaries[f]? = none from
      Std.HashMap.getElem?_empty] at h
    cases h

/-- More nodes that belong to no routine. -/
theorem of_extends (h : Placed c s) (harena : s.arena.Extends s'.arena) (htidy : s'.arena.Tidy)
    (hsummaries : s'.summaries = s.summaries) : Placed c s' where
  tidy := htidy
  stretch f ids hids := by
    rw [hsummaries] at hids
    obtain ⟨base, heq, hnodes⟩ := h.stretch f ids hids
    exact ⟨base, heq, fun k n hn => harena _ _ (hnodes k n hn)⟩
  apart := by
    rw [hsummaries]
    exact h.apart

/-- The nodes of one more routine. -/
theorem insert (h : Placed c s) (hc : c.program.Distinct) {f : String} {r : Routine} {d : Draft}
    (hdef : c.program.definition? f = some r)
    (hd : Draft.classifyAll c.program c.settings c.chain ⟨s.arena, []⟩ r.body = .ok d) :
    Placed c { s with arena := d.arena, summaries := s.summaries.insert f d.nodes } := by
  obtain ⟨rfl, houtline⟩ := Subject.classifyAll_eq hc hdef h.tidy hd
  have hnew : (Draft.extend ⟨s.arena, []⟩ (c.nodesOf f)).nodes =
      List.range' s.arena.size (c.nodesOf f).length := List.nil_append _
  have hextends : s.arena.Extends (Draft.extend ⟨s.arena, []⟩ (c.nodesOf f)).arena :=
    Draft.foldlM_extends (fun _ _ _ => Draft.classify_extends) hd
  have hbelow : ∀ (g : String) (ids : List NodeId) (id : NodeId), s.summaries[g]? = some ids →
      id ∈ ids → id < s.arena.size := by
    intro g ids id hids hid
    obtain ⟨base, rfl, hnodes⟩ := h.stretch g ids hids
    obtain ⟨k, hk, rfl⟩ := List.mem_range'.1 hid
    have hn := hnodes k _ (List.getElem?_eq_getElem hk)
    rw [Nat.one_mul]
    exact (Array.getElem?_eq_some_iff.1 hn).1
  have hcases : ∀ (g : String) (ids : List NodeId),
      (s.summaries.insert f (Draft.extend ⟨s.arena, []⟩ (c.nodesOf f)).nodes)[g]? = some ids →
        g = f ∧ ids = List.range' s.arena.size (c.nodesOf f).length ∨
          s.summaries[g]? = some ids := by
    intro g ids hids
    rw [Std.HashMap.getElem?_insert] at hids
    split at hids
    · next heq =>
      cases hids
      exact Or.inl ⟨(beq_iff_eq.1 heq).symm, hnew⟩
    · exact Or.inr hids
  refine ⟨Draft.tidy_extend h.tidy houtline.tidy, fun g ids hids => ?_,
    fun g g' ids ids' id hids hids' hid hid' => ?_⟩
  · rcases hcases g ids hids with ⟨rfl, rfl⟩ | hold
    · exact ⟨s.arena.size, rfl, fun k n hn => Draft.get?_extend_add hn ⟨s.arena, []⟩⟩
    · obtain ⟨base, heq, hnodes⟩ := h.stretch g ids hold
      exact ⟨base, heq, fun k n hn => hextends _ _ (hnodes k n hn)⟩
  · have hfresh : ∀ {id}, id ∈ List.range' s.arena.size (c.nodesOf f).length →
        s.arena.size ≤ id := fun hid => (List.mem_range'_1.1 hid).1
    rcases hcases g ids hids with ⟨rfl, rfl⟩ | hold
    · rcases hcases g' ids' hids' with ⟨rfl, rfl⟩ | hold'
      · rfl
      · exact absurd (hbelow g' ids' id hold' hid') (Nat.not_lt.2 (hfresh hid))
    · rcases hcases g' ids' hids' with ⟨rfl, rfl⟩ | hold'
      · exact absurd (hbelow g ids id hold hid) (Nat.not_lt.2 (hfresh hid'))
      · exact h.apart g g' ids ids' id hold hold' hid hid'

end Placed

/-! ### Learning -/

namespace Remembers

/-- A session remembers what it has. -/
protected theorem refl (s : Session) : s.Remembers s := fun _ _ h => h

/-- Remembering composes. -/
protected theorem trans {s s' s'' : Session} (h : s.Remembers s') (h' : s'.Remembers s'') :
    s.Remembers s'' := fun f ids hids => h' f ids (h f ids hids)

end Remembers

namespace Later

/-- A session knows what it knows. -/
protected theorem refl (c : Subject) (s : Session) : Later c s s := ⟨.refl _, .refl _, id⟩

/-- Knowledge composes. -/
protected theorem trans {s s' s'' : Session} (h : Later c s s') (h' : Later c s' s'') :
    Later c s s'' :=
  ⟨h.arena.trans h'.arena, h.remembers.trans h'.remembers, fun hs => h'.placed (h.placed hs)⟩

/-- A session with other threads or answers. -/
theorem of_eq (harena : s'.arena = s.arena) (hsummaries : s'.summaries = s.summaries) :
    Later c s s' := by
  have hextends : s.arena.Extends s'.arena := harena ▸ .refl _
  refine ⟨hextends, fun f ids hids => ?_, fun hs => ?_⟩
  · rw [hsummaries, hids]
  · exact hs.of_extends hextends (harena ▸ hs.tidy) hsummaries

end Later

/-- What was learnt is placed. -/
theorem Learns.later (h : Learns c s s') (hc : c.program.Distinct) : Later c s s' := by
  induction h with
  | refl s => exact .refl c s
  | trans _ _ ih ih' => exact ih.trans ih'
  | @summary s s' f nodes h =>
    have hextends := (Learns.summary h).extends.arena
    obtain ⟨-, -, -, rfl⟩ | ⟨hnone, ⟨-, -, rfl⟩ | ⟨r, d, hdef, hd, -, rfl⟩⟩ := summary_cases h
    · exact .refl c _
    · exact .refl c _
    · refine ⟨hextends, fun g ids hids => ?_, fun hs => hs.insert hc hdef hd⟩
      show (s.summaries.insert f d.nodes)[g]? = some ids
      rw [Std.HashMap.getElem?_insert, if_neg, hids]
      intro heq
      rw [← beq_iff_eq.1 heq, hnone] at hids
      cases hids
  | answer => exact .of_eq rfl rfl

/-- A session that was asked for a routine with a body knows its nodes. -/
theorem summary_known {f : String} {nodes : Option (List NodeId)}
    (h : s.summary c f = .ok (nodes, s')) :
    s'.summaries[f]? = nodes ∧ (nodes = none → c.program.definition? f = none) := by
  obtain ⟨ids, hids, rfl, rfl⟩ | ⟨hnone, ⟨hdef, rfl, rfl⟩ | ⟨r, d, hdef, hd, rfl, rfl⟩⟩ :=
    summary_cases h
  · exact ⟨hids, fun h => nomatch h⟩
  · exact ⟨hnone, fun _ => hdef⟩
  · exact ⟨Std.HashMap.getElem?_insert_self, fun h => nomatch h⟩

/-! ### Positions -/

/-- A session that remembers has the same node at the same place. -/
theorem At.mono {f : String} {k : Nat} {id : NodeId} (h : s.At f k id) (hs : s.Remembers s') :
    s'.At f k id := by
  obtain ⟨ids, hids, hid⟩ := h
  exact ⟨ids, hs f ids hids, hid⟩

/-- A session that remembers has the same nodes to come. -/
theorem Rest.mono {f : String} {k : Nat} {nodes : List NodeId} (h : s.Rest f k nodes)
    (hs : s.Remembers s') : s'.Rest f k nodes := by
  obtain ⟨ids, hids, hnodes⟩ := h
  exact ⟨ids, hs f ids hids, hnodes⟩

/-- All nodes of a routine are to come at its beginning. -/
theorem Rest.all {f : String} {nodes : List NodeId} (h : s.summaries[f]? = some nodes) :
    s.Rest f 0 nodes := ⟨nodes, h, rfl⟩

/-- All nodes of a routine with a body are to come when they were looked up. -/
theorem Rest.of_summary {f : String} {nodes : Option (List NodeId)} {r : Routine}
    (h : s.summary c f = .ok (nodes, s')) (hdef : c.program.definition? f = some r) :
    s'.Rest f 0 (nodes.getD []) := by
  obtain ⟨hids, hnone⟩ := summary_known h
  cases nodes with
  | none =>
    rw [hnone rfl] at hdef
    cases hdef
  | some ids => exact .all hids

/-- The first of the nodes to come, and those behind it. -/
theorem Rest.cons {f : String} {k : Nat} {id : NodeId} {rest : List NodeId}
    (h : s.Rest f k (id :: rest)) : s.At f k id ∧ s.Rest f (k + 1) rest := by
  obtain ⟨ids, hids, hnodes⟩ := h
  have hid : ids[k]? = some id := by
    rw [← List.head?_drop, ← hnodes]
    rfl
  refine ⟨⟨ids, hids, hid⟩, ids, hids, ?_⟩
  rw [← List.tail_drop, ← hnodes]
  rfl

/-- The nodes to come stand one behind the other. -/
theorem Rest.at {f : String} {k j : Nat} {nodes : List NodeId} {id : NodeId} (h : s.Rest f k nodes)
    (hid : nodes[j]? = some id) : s.At f (k + j) id := by
  obtain ⟨ids, hids, rfl⟩ := h
  exact ⟨ids, hids, by rw [← List.getElem?_drop, hid]⟩

namespace Placed

variable (h : Placed c s)

include h

/-- A node of a routine is in one place. -/
theorem at_unique {f g : String} {k l : Nat} {id : NodeId} (hf : s.At f k id)
    (hg : s.At g l id) : f = g ∧ k = l := by
  obtain ⟨ids, hids, hid⟩ := hf
  obtain ⟨ids', hids', hid'⟩ := hg
  obtain rfl := h.apart f g ids ids' id hids hids' (List.mem_of_getElem? hid)
    (List.mem_of_getElem? hid')
  rw [hids] at hids'
  cases hids'
  obtain ⟨base, rfl, -⟩ := h.stretch f ids hids
  obtain ⟨hk, hkid⟩ := List.getElem?_eq_some_iff.1 hid
  obtain ⟨hl, hlid⟩ := List.getElem?_eq_some_iff.1 hid'
  rw [List.getElem_range', Nat.one_mul] at hkid hlid
  exact ⟨rfl, Nat.add_left_cancel (hkid.trans hlid.symm)⟩

/-- What stands at the place of a node, and where the other nodes of its routine are. -/
theorem get?_of_at {f : String} {k : Nat} {id : NodeId} (hid : s.At f k id) :
    ∃ n base, (c.nodesOf f)[k]? = some n ∧ id = base + k ∧
      s.arena.get? id = some (n.shift base) ∧
        ∀ l < (c.nodesOf f).length, s.At f l (base + l) := by
  obtain ⟨ids, hids, hid⟩ := hid
  obtain ⟨base, rfl, hnodes⟩ := h.stretch f ids hids
  obtain ⟨hk, rfl⟩ := List.getElem?_eq_some_iff.1 hid
  rw [List.length_range'] at hk
  have hn := List.getElem?_eq_getElem hk
  rw [List.getElem_range', Nat.one_mul]
  refine ⟨_, base, hn, rfl, hnodes k _ hn, fun l hl => ⟨_, hids, ?_⟩⟩
  rw [List.getElem?_range' hl, Nat.one_mul]

/-- What stands at a position of a routine is its node, moved. -/
theorem exists_shift {f : String} {k : Nat} {id : NodeId} {node : Node} (hid : s.At f k id)
    (hnode : s.arena.get? id = some node) :
    ∃ n base, (c.nodesOf f)[k]? = some n ∧ node = n.shift base := by
  obtain ⟨n, base, hn, -, hget, -⟩ := h.get?_of_at hid
  rw [hget] at hnode
  exact ⟨n, base, hn, (Option.some.inj hnode).symm⟩

/-- A node that is no companion join stands at its position as it is. -/
theorem getElem?_nodesOf {f : String} {k : Nat} {id : NodeId} {node : Node} (hid : s.At f k id)
    (hnode : s.arena.get? id = some node) (hnone : node.companionOf? = none) :
    (c.nodesOf f)[k]? = some node := by
  obtain ⟨n, base, hn, rfl⟩ := h.exists_shift hid hnode
  rw [Node.companionOf?_shift, Option.map_eq_none_iff] at hnone
  rw [Node.shift_of_none hnone, hn]

/-- A call is the only node of its instruction in a routine. -/
theorem inst_ne (hc : c.program.Distinct) {f : String} {j k : Nat} {id id' : NodeId} {m n : Node}
    {api : CallApi} (hid : s.At f j id) (hid' : s.At f k id') (hjk : j ≠ k)
    (hm : s.arena.get? id = some m) (hn : s.arena.get? id' = some n)
    (hcall : n.callApi? = some api) : m.inst ≠ n.inst := by
  obtain ⟨m, base, hm', rfl⟩ := h.exists_shift hid hm
  obtain ⟨n, base', hn', rfl⟩ := h.exists_shift hid' hn
  obtain ⟨body, houtline⟩ := Subject.exists_outline hc f
  rw [Node.callApi?_shift] at hcall
  rw [Node.inst_shift, Node.inst_shift]
  exact houtline.alone j k m n api hjk hm' hn' hcall

/-- As many nodes are to come as the routine has behind the position. -/
theorem length_of_rest {f : String} {k : Nat} {nodes : List NodeId} (hrest : s.Rest f k nodes) :
    nodes.length = (c.nodesOf f).length - k := by
  obtain ⟨ids, hids, rfl⟩ := hrest
  obtain ⟨base, rfl, -⟩ := h.stretch f ids hids
  rw [List.length_drop, List.length_range']

end Placed

end Session

/-! ### Walks -/

/-- A companion join comes behind its fork. -/
theorem Arena.tidy_companionJoin {a b : Arena} {fork id : NodeId} (ha : a.Tidy)
    (h : a.companionJoin fork = .ok (id, b)) : b.Tidy := by
  unfold companionJoin at h
  split at h
  · cases h
    exact ha
  · obtain ⟨n, hn, h⟩ := Except.bind_eq_ok.1 h
    split at h
    · cases h
      intro k m fork' hm hfork
      unfold get? at hm
      rw [Array.getElem?_push] at hm
      split at hm
      · next hk =>
        cases hm
        cases hfork
        rw [hk]
        exact (Array.getElem?_eq_some_iff.1 (Arena.get_eq_ok.1 hn)).1
      · exact ha k m fork' hm hfork
    · cases h

namespace Walk

open Session

/-- A runtime's join of a child makes at most a companion join. -/
theorem joinChild_later {w w' : Walk} {node : NodeId} {child : ThreadId}
    (h : w.joinChild node child = .ok w') : Later c w.session w'.session := by
  obtain ⟨⟨join, arena⟩, hjoin, h⟩ := Except.bind_eq_ok.1 h
  cases h
  have hextends := (Arena.companionJoin_spec hjoin).1
  exact ⟨hextends, .refl _, fun hs =>
    hs.of_extends hextends (Arena.tidy_companionJoin hs.tidy hjoin) rfl⟩

/-- Starting a child makes no nodes. -/
theorem beginFork_later {w v : Walk} {id : NodeId} {target : String} {child : ThreadId}
    (h : w.beginFork id target = .ok (child, v)) : Later c w.session v.session := by
  obtain ⟨⟨child', session⟩, hreserve, h⟩ := Except.bind_eq_ok.1 h
  cases h
  simp only [Session.reserve] at hreserve
  split at hreserve
  · cases hreserve
    exact .of_eq rfl rfl
  · cases hreserve

/-- What a walk grows to knows what it knew. -/
theorem Grows.later {r : Runtime} {w w' : Walk} (h : Grows c r w w') (hc : c.program.Distinct) :
    Later c w.session w'.session := by
  induction h with
  | refl | skip | meet | note | record => exact .refl c _
  | trans _ _ ih₁ ih₂ => exact ih₁.trans ih₂
  | consult h => exact h.later hc
  | @joinCompanion w _ _ _ _ _ _ h =>
    exact joinCompanion_induction (P := fun v => Later c w.session v.session) h (.refl c _)
      fun _ _ _ _ hv => hv
  | joinHandle =>
    rw [Walk.joinHandle]
    split <;> exact .refl c _
  | @joinPending w _ _ h =>
    exact joinPending_induction (P := fun v => Later c w.session v.session) h (.refl c _)
      fun _ _ _ _ hv hj => hv.trans (joinChild_later hj)
  | @fork w v inner last id n api handle entry target child _ _ _ _ hbegin _ _ _ ihinner ihlast =>
    have hclose : Later c last.session last.close.session := .of_eq rfl rfl
    exact ((beginFork_later hbegin).trans (ihinner.trans ihlast)).trans hclose

end Walk

/-! ### One node in two sessions -/

/-- Two positions in two sessions are those of one node of one routine. -/
def SameNode (s s' : Session) (i j : NodeId) : Prop := ∃ f k, s.At f k i ∧ s'.At f k j

/-- Two nodes are the same but for the forks that they are the companions of. -/
inductive Node.Twin (R : NodeId → NodeId → Prop) : Node → Node → Prop
  | same {n : Node} (h : n.companionOf? = none) : Twin R n n
  | join {site : Site} {api : JoinApi} {handle : Operand} {i j : NodeId} (h : R i j) :
      Twin R ⟨site, .join api handle (some i)⟩ ⟨site, .join api handle (some j)⟩

namespace SameNode

open Session

variable {s s' t t' : Session} {i i' j j' : NodeId}

/-- Sessions that remember have the same nodes at the same places. -/
theorem mono (h : SameNode s s' i j) (hs : s.Remembers t) (hs' : s'.Remembers t') :
    SameNode t t' i j := by
  obtain ⟨f, k, hi, hj⟩ := h
  exact ⟨f, k, hi.mono hs, hj.mono hs'⟩

/-- A place determines the other. -/
theorem eq_iff (hs : Placed c s) (hs' : Placed c s') (h : SameNode s s' i j)
    (h' : SameNode s s' i' j') : i = i' ↔ j = j' := by
  obtain ⟨f, k, hi, hj⟩ := h
  obtain ⟨f', k', hi', hj'⟩ := h'
  constructor
  · rintro rfl
    obtain ⟨rfl, rfl⟩ := hs.at_unique hi hi'
    obtain ⟨ids, hids, hid⟩ := hj
    obtain ⟨ids', hids', hid'⟩ := hj'
    rw [hids] at hids'
    cases hids'
    rw [hid] at hid'
    exact Option.some.inj hid'
  · rintro rfl
    obtain ⟨rfl, rfl⟩ := hs'.at_unique hj hj'
    obtain ⟨ids, hids, hid⟩ := hi
    obtain ⟨ids', hids', hid'⟩ := hi'
    rw [hids] at hids'
    cases hids'
    rw [hid] at hid'
    exact Option.some.inj hid'

/-- What stands at both places is the same but for the fork that it is the companion of. -/
theorem twin (hc : c.program.Distinct) (hs : Placed c s) (hs' : Placed c s')
    (h : SameNode s s' i j) :
    ∃ n n', s.arena.get? i = some n ∧ s'.arena.get? j = some n' ∧
      Node.Twin (SameNode s s') n n' := by
  obtain ⟨f, k, hi, hj⟩ := h
  obtain ⟨n, base, hn, -, hget, hat⟩ := hs.get?_of_at hi
  obtain ⟨n', base', hn', -, hget', hat'⟩ := hs'.get?_of_at hj
  rw [hn] at hn'
  cases hn'
  refine ⟨_, _, hget, hget', ?_⟩
  obtain ⟨site, effect⟩ := n
  cases hfork : Node.companionOf? ⟨site, effect⟩ with
  | none =>
    rw [Node.shift_of_none hfork, Node.shift_of_none hfork]
    exact .same hfork
  | some fork =>
    obtain ⟨body, houtline⟩ := Subject.exists_outline hc f
    have hlt : fork < (c.nodesOf f).length :=
      Nat.lt_trans (houtline.tidy k _ fork hn hfork) (List.getElem?_eq_some_iff.1 hn).1
    unfold Node.companionOf? at hfork
    split at hfork
    · next heffect =>
      dsimp only at heffect
      subst heffect hfork
      refine .join ⟨f, fork, ?_, ?_⟩
      · rw [Nat.add_comm]
        exact hat fork hlt
      · rw [Nat.add_comm]
        exact hat' fork hlt
    · cases hfork

end SameNode

end DataRace
