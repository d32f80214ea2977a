import DataRace.Proofs.Trace.Growth
import Mathlib.Data.Nat.Basic

/-!
# Regions

A worker of a team passes a `master` or `single` region over.  The region ends at the first call
that ends such a region and has between the two as many calls that end one as calls that begin one
(`Region.Ends`), and this is the call that a walk looks for (`Walk.regionEnd?_eq_some`).

While a thread passes nodes over, the node at which it goes on is among those to come
(`Walk.Closes`).  Only a runtime's visit begins to skip (`Runtime.visit_closes`), and only that of a
worker (`Walk.visit_skipTo_of_crew`).
-/

namespace DataRace

namespace Arena

/-- The interface of a call node. -/
def callApi? (a : Arena) (id : NodeId) : Option CallApi := a.get? id >>= Node.callApi?

/-- How many of the nodes are calls of an interface. -/
def countCalls (a : Arena) (api : CallApi) (ids : List NodeId) : ℕ :=
  ids.countP fun id => a.callApi? id = some api

variable {a : Arena} {id : NodeId} {n : Node}

/-- The interface of a call node that is there. -/
theorem callApi?_eq (h : a.get? id = some n) : a.callApi? id = n.callApi? := by
  rw [callApi?, h]
  rfl

/-- A call node is there. -/
theorem exists_of_callApi? {api : CallApi} (h : a.callApi? id = some api) :
    ∃ n, a.get? id = some n ∧ n.callApi? = some api := by
  obtain ⟨n, hn, hcall⟩ := Option.bind_eq_some_iff.1 h
  exact ⟨n, hn, hcall⟩

end Arena

namespace Region

/-- A region with `depth` others around it ends at `e`: that is the first call that ends such a
region with as many more ends than beginnings before it. -/
structure Ends (g : Region) (a : Arena) (depth : ℕ) (rest between : List NodeId) (e : NodeId)
    (after : List NodeId) : Prop where
  split : rest = between ++ e :: after
  closing : a.callApi? e = some g.closing
  balanced : a.countCalls g.closing between = a.countCalls g.opening between + depth
  first : ∀ pre id post, between = pre ++ id :: post → a.callApi? id = some g.closing →
    a.countCalls g.closing pre ≠ a.countCalls g.opening pre + depth

variable {g : Region} {a : Arena} {d d' : ℕ} {rest between after : List NodeId} {id e : NodeId}

/-- A call does not both begin and end a region. -/
theorem opening_ne_closing (g : Region) : g.opening ≠ g.closing := by
  cases g <;> exact fun h => nomatch h

/-- Nothing is between the beginning of a region and its end if that comes first. -/
theorem ends_nil : g.Ends a d (id :: rest) [] e after ↔
    id = e ∧ rest = after ∧ a.callApi? e = some g.closing ∧ d = 0 := by
  constructor
  · intro h
    obtain ⟨rfl, rfl⟩ := List.cons.inj h.split
    exact ⟨rfl, rfl, h.closing, by simpa [Arena.countCalls] using h.balanced.symm⟩
  · rintro ⟨rfl, rfl, hclosing, rfl⟩
    refine ⟨rfl, hclosing, rfl, fun pre x post h => ?_⟩
    cases pre <;> cases h

/-- The end of a region behind a node, which may begin or end another one. -/
theorem ends_cons (hd : d' + a.countCalls g.closing [id] = d + a.countCalls g.opening [id]) :
    g.Ends a d (id :: rest) (id :: between) e after ↔
      (a.callApi? id = some g.closing → d ≠ 0) ∧ g.Ends a d' rest between e after := by
  -- With the first node, both numbers grow by what they are for that node alone.
  have hbalance : ∀ ids, a.countCalls g.closing (id :: ids) =
      a.countCalls g.opening (id :: ids) + d ↔
        a.countCalls g.closing ids = a.countCalls g.opening ids + d' := by
    intro ids
    have hcount : ∀ api, a.countCalls api ([id] ++ ids) = a.countCalls api [id] +
        a.countCalls api ids := fun api => List.countP_append
    rw [← List.singleton_append]
    rw [hcount, hcount]
    omega
  constructor
  · intro h
    refine ⟨fun hid hzero => ?_, (List.cons.inj h.split).2, h.closing,
      (hbalance between).1 h.balanced, fun pre x post heq hx => ?_⟩
    · exact h.first [] id between rfl hid (by rw [hzero]; rfl)
    · exact mt (hbalance pre).2 (h.first (id :: pre) x post (by rw [heq]; rfl) hx)
  · rintro ⟨hid, h⟩
    refine ⟨by rw [h.split]; rfl, h.closing, (hbalance between).2 h.balanced,
      fun pre x post heq hx => ?_⟩
    cases pre with
    | nil =>
      obtain ⟨rfl, -⟩ := List.cons.inj heq
      exact fun hzero => hid hx (by simpa [Arena.countCalls] using hzero.symm)
    | cons y pre =>
      obtain ⟨rfl, htail⟩ := List.cons.inj heq
      exact mt (hbalance pre).1 (h.first pre x post htail hx)

end Region

namespace Walk

variable {g : Region} {a : Arena} {d : ℕ} {rest between after : List NodeId} {e : NodeId}
  {inst : InstId} {n : Node}

/-- One step of the search for the end of a region: it is found, or the search goes on with more or
fewer regions around. -/
theorem regionEnd?_cons (g : Region) (a : Arena) (d : ℕ) (id : NodeId) (rest : List NodeId) :
    (a.callApi? id = some g.closing ∧ d = 0) ∧
        regionEnd? a g.opening g.closing d (id :: rest) = (a.get? id).map Node.inst ∨
      (a.callApi? id = some g.closing → d ≠ 0) ∧
        ∃ d', d' + a.countCalls g.closing [id] = d + a.countCalls g.opening [id] ∧
          regionEnd? a g.opening g.closing d (id :: rest) =
            regionEnd? a g.opening g.closing d' rest := by
  have hne := g.opening_ne_closing
  rw [regionEnd?]
  cases hid : a.get? id with
  | none => exact Or.inr (by simp [Arena.countCalls, Arena.callApi?, hid])
  | some n =>
    have hcall := Arena.callApi?_eq hid
    dsimp only
    split
    · next hopening =>
      exact Or.inr (by simp [Arena.countCalls, hcall, hopening, hne])
    · next hopening =>
      split
      · next hclosing =>
        cases d with
        | zero => exact Or.inl (by simp [hcall, hclosing])
        | succ d => exact Or.inr (by simp [Arena.countCalls, hcall, hclosing, hne.symm])
      · next hclosing => exact Or.inr (by simp [Arena.countCalls, hcall, hopening, hclosing])

/-- The instruction that a walk finds is that of the end of the region. -/
theorem regionEnd?_eq_some : regionEnd? a g.opening g.closing d rest = some inst ↔
    ∃ between e after n, g.Ends a d rest between e after ∧ a.get? e = some n ∧ n.inst = inst := by
  induction rest generalizing d with
  | nil =>
    constructor
    · intro h
      cases h
    · rintro ⟨between, e, after, n, hends, -⟩
      exact absurd hends.split (by simp)
  | cons id rest ih =>
    obtain ⟨hend, heq⟩ | ⟨hopen, d', hd, heq⟩ := regionEnd?_cons g a d id rest
    · rw [heq, Option.map_eq_some_iff]
      constructor
      · rintro ⟨n, hn, hinst⟩
        exact ⟨[], id, rest, n, Region.ends_nil.2 ⟨rfl, rfl, hend⟩, hn, hinst⟩
      · rintro ⟨between, e, after, n, hends, hn, hinst⟩
        cases between with
        | nil =>
          obtain ⟨rfl, -⟩ := Region.ends_nil.1 hends
          exact ⟨n, hn, hinst⟩
        | cons x between =>
          obtain ⟨rfl, -⟩ := List.cons.inj hends.split
          exact absurd (by rw [hend.2]; rfl) (hends.first [] id between rfl hend.1)
    · rw [heq, ih]
      constructor
      · rintro ⟨between, e, after, n, hends, hn⟩
        exact ⟨id :: between, e, after, n, (Region.ends_cons hd).2 ⟨hopen, hends⟩, hn⟩
      · rintro ⟨between, e, after, n, hends, hn⟩
        cases between with
        | nil =>
          obtain ⟨rfl, -, hclosing, hzero⟩ := Region.ends_nil.1 hends
          exact absurd hzero (hopen hclosing)
        | cons x between =>
          obtain ⟨rfl, -⟩ := List.cons.inj hends.split
          exact ⟨between, e, after, n, ((Region.ends_cons hd).1 hends).2, hn⟩

/-- No instruction is found if the region has no end. -/
theorem regionEnd?_eq_none : regionEnd? a g.opening g.closing d rest = none ↔
    ¬ ∃ between e after, g.Ends a d rest between e after := by
  rw [Option.eq_none_iff_forall_ne_some]
  constructor
  · rintro h ⟨between, e, after, hends⟩
    obtain ⟨n, hn, -⟩ := Arena.exists_of_callApi? hends.closing
    exact h n.inst (regionEnd?_eq_some.2 ⟨between, e, after, n, hends, hn, rfl⟩)
  · intro h inst hinst
    obtain ⟨between, e, after, n, hends, -⟩ := regionEnd?_eq_some.1 hinst
    exact h ⟨between, e, after, hends⟩

/-! ### Skipping -/

variable {c : Subject} {r : Runtime} {w w' : Walk}

/-- A region that is being skipped ends among the nodes to come. -/
def Closes (w : Walk) (nodes : List NodeId) : Prop :=
  ∀ inst, w.self.skipTo = some inst →
    ∃ id ∈ nodes, ∃ n, w.session.arena.get? id = some n ∧ n.inst = inst

/-- Nothing is being skipped. -/
theorem Closes.of_none (h : w.self.skipTo = none) (nodes : List NodeId) : w.Closes nodes := by
  intro inst hinst
  rw [h] at hinst
  cases hinst

/-- A region that is being skipped does not end at a node that is passed over. -/
theorem Closes.tail {id : NodeId} {rest : List NodeId} {node : Node} (h : w.Closes (id :: rest))
    (hnode : w.session.arena.get? id = some node) (hskipped : w.isSkipped node = true) :
    w.Closes rest := by
  intro inst hinst
  obtain ⟨id', hid', n, hn, hend⟩ := h inst hinst
  rcases List.mem_cons.1 hid' with rfl | hid'
  · rw [hnode] at hn
    cases hn
    unfold isSkipped at hskipped
    rw [hinst] at hskipped
    dsimp only at hskipped
    rw [bne_iff_ne] at hskipped
    exact absurd hend hskipped
  · exact ⟨id', hid', n, hn, hend⟩

/-- Nothing is skipped when there is nothing to come. -/
theorem Closes.skipTo_eq_none (h : w.Closes []) : w.self.skipTo = none := by
  by_contra hskip
  obtain ⟨inst, hinst⟩ := Option.ne_none_iff_exists'.1 hskip
  obtain ⟨id, hid, -⟩ := h inst hinst
  exact List.not_mem_nil hid

/-- Skipping a region goes on at its end. -/
theorem skipRegion_ok {node : Node} {routine : Option String}
    (h : w.skipRegion g.opening g.closing node routine rest = .ok w') :
    w.self.isWorker = false ∧ w' = w ∨
      w.self.isWorker = true ∧ ∃ between e after n, g.Ends w.session.arena 0 rest between e after ∧
        w.session.arena.get? e = some n ∧
          w' = { w with self := { w.self with skipTo := some n.inst } } := by
  unfold skipRegion at h
  split at h
  · next hworker =>
    split at h
    · next inst hinst =>
      cases h
      obtain ⟨between, e, after, n, hends, hn, rfl⟩ := regionEnd?_eq_some.1 hinst
      exact Or.inr ⟨hworker, between, e, after, n, hends, hn, rfl⟩
    · cases h
  · next hworker =>
    cases h
    exact Or.inl ⟨Bool.eq_false_iff.2 hworker, rfl⟩

/-- A runtime's joins skip nothing. -/
theorem joinPending_skipTo {directOnly : Bool} (h : w.joinPending directOnly = .ok w') :
    w'.self.skipTo = w.self.skipTo := by
  refine joinPending_induction (P := fun v => v.self.skipTo = w.self.skipTo) h rfl ?_
  intro v v' p _ hv hjoin
  obtain ⟨-, join, n, -, -, hself⟩ := joinChild_spec hjoin
  rw [hself]
  exact hv

/-- What a runtime does at a node begins to skip only in a worker, only at a node that is not to be
handled, and only a region that ends among the nodes to come. -/
theorem visit_skipTo {node : Node} {routine : Option String} {opens : Bool}
    (h : r.visit w node routine rest = .ok (opens, w')) :
    w'.self.skipTo = w.self.skipTo ∨
      w.self.isWorker = true ∧ opens = false ∧ ∃ e ∈ rest, ∃ n, w.session.arena.get? e = some n ∧
        w' = { w with self := { w.self with skipTo := some n.inst } } := by
  obtain ⟨_, -, hvisit⟩ | ⟨-, ⟨_, _, hvisit⟩ | ⟨g, -, hvisit⟩⟩ := visit_cases r node
  · rw [hvisit] at h
    cases h
    exact Or.inl rfl
  · rw [hvisit] at h
    obtain ⟨v, hv, h⟩ := Except.bind_eq_ok.1 h
    cases h
    exact Or.inl (joinPending_skipTo hv)
  · rw [hvisit] at h
    obtain ⟨v, hv, h⟩ := Except.bind_eq_ok.1 h
    cases h
    obtain ⟨-, rfl⟩ | ⟨hworker, between, e, after, n, hends, hn, rfl⟩ := skipRegion_ok hv
    · exact Or.inl rfl
    · exact Or.inr ⟨hworker, rfl, e, by simp [hends.split], n, hn, rfl⟩

/-- A runtime skips a region only at a node that is not to be handled, and a region that ends among
the nodes to come. -/
theorem visit_closes {node : Node} {routine : Option String} {opens : Bool}
    (h : r.visit w node routine rest = .ok (opens, w')) (hskip : w.self.skipTo = none) :
    w'.Closes rest ∧ (opens = true → w'.self.skipTo = none) := by
  obtain heq | ⟨-, rfl, e, he, n, hn, rfl⟩ := visit_skipTo h
  · have hnone := heq.trans hskip
    exact ⟨.of_none hnone rest, fun _ => hnone⟩
  · refine ⟨fun inst hinst => ?_, fun hopens => nomatch hopens⟩
    cases hinst
    exact ⟨e, he, n, hn, rfl⟩

/-- The joins of a companion skip nothing. -/
theorem joinCompanion_skipTo {id fork : NodeId} {n : Node}
    (h : w.joinCompanion id n fork = .ok w') : w'.self.skipTo = w.self.skipTo :=
  (joinCompanion_spec h).2.2.1

/-- The join of a handle skips nothing. -/
theorem joinHandle_skipTo (c : Subject) (w : Walk) (id : NodeId) (handle : Operand) :
    (w.joinHandle c id handle).self.skipTo = w.self.skipTo := by
  unfold joinHandle
  split <;> rfl

/-- Asking whether a call is repeated skips nothing. -/
theorem isRepeated_skipTo {target : String} {args : List Operand} {repeated : Bool}
    (h : w.isRepeated c target args = .ok (repeated, w')) : w'.self.skipTo = w.self.skipTo := by
  obtain ⟨session, -, rfl | rfl⟩ := isRepeated_eq h <;> rfl

end Walk

end DataRace
