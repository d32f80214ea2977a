import DataRace.Proofs.Classify.TeamCalls
import DataRace.Proofs.Trace.Skips

/-!
# The nodes of calls that start teams

A thread executes an instruction when its walk comes to all nodes of the instruction and passes none
of them over (`Trace.Executes`).  If the instruction starts a team, these nodes are the forks of its
members and then as many joins, which name the forks in their order (`Trace.Executes.exists_team`).
-/

namespace DataRace

variable {c : Subject} {r : Runtime}

/-- Forks of members, each once, and joins that name them in their order. -/
structure Arena.Team (a : Arena) (forks joins : List NodeId) : Prop where
  nodup : forks.Nodup
  teamFork : ∀ fork ∈ forks, a.TeamFork fork
  paired : List.Forall₂ (fun fork join => ∃ n, a.get? join = some n ∧ n.companionOf? = some fork)
    forks joins

namespace Subject

/-- The nodes of a routine with a call that starts a team. -/
theorem nodesOf_team (hc : c.program.Distinct) {f : String} {routine : Routine}
    (hdef : c.program.definition? f = some routine) {i : Instruction} (hi : i ∈ routine.body)
    (hteam : c.chain.StartsTeam i) :
    ∃ before forks behind, (∀ n ∈ forks, n.site = i.site ∧ Draft.IsFork n ∧ n.ForksMember) ∧
      (∀ n ∈ before ++ behind, n.inst ≠ i.id) ∧
      c.nodesOf f = before ++ (forks ++ Draft.companions forks).map (Node.shift before.length) ++
        behind := by
  obtain hnil | ⟨d, heq, hd⟩ := nodesOf_cases hdef
  · exact ⟨[], [], [], List.forall_mem_nil _, List.forall_mem_nil _, hnil⟩
  · obtain ⟨pre, post, hbody⟩ := List.append_of_mem hi
    have hids := hc f routine hdef
    rw [hbody] at hids hd
    obtain ⟨before, forks, behind, hforks, hothers, rfl⟩ :=
      Draft.exists_split hids hteam tidy_empty hd
    exact ⟨before, forks, behind, hforks, hothers, by rw [heq, toList_extend_empty]⟩

end Subject

/-- What passes a test among what does not. -/
theorem filter_between {α : Type*} {p : α → Bool} {before mid rest : List α}
    (hmid : ∀ a ∈ mid, p a = true) (hothers : ∀ a ∈ before ++ rest, p a = false) :
    (before ++ (mid ++ rest)).filter p = mid := by
  have hnone : ∀ l : List α, l ⊆ before ++ rest → l.filter p = [] := by
    intro l hl
    rw [List.filter_eq_nil_iff]
    exact fun a ha => Bool.eq_false_iff.1 (hothers a (hl ha))
  rw [List.filter_append, List.filter_append, hnone before (List.subset_append_left _ _),
    hnone rest (List.subset_append_right _ _), List.filter_eq_self.2 hmid, List.nil_append,
    List.append_nil]

namespace Arena

/-- Nodes stand one behind the other from a position on. -/
def Stands (a : Arena) (base : Nat) (ns : List Node) : Prop :=
  ∀ (k : Nat) (n : Node), ns[k]? = some n → a.get? (base + k) = some n

variable {a : Arena} {base : Nat} {ns ms : List Node}

/-- Two lists one behind the other. -/
theorem Stands.append (h : a.Stands base (ns ++ ms)) :
    a.Stands base ns ∧ a.Stands (base + ns.length) ms := by
  refine ⟨fun k n hn => h k n ?_, fun k n hn => ?_⟩
  · rw [List.getElem?_append_left (List.getElem?_eq_some_iff.1 hn).1, hn]
  · rw [Nat.add_assoc]
    refine h _ n ?_
    rw [List.getElem?_append_right (Nat.le_add_right _ _), Nat.add_sub_cancel_left, hn]

/-- What stands at a position of the list. -/
theorem Stands.exists_get? (h : a.Stands base ns) {id : NodeId}
    (hid : id ∈ List.range' base ns.length) : ∃ n ∈ ns, a.get? id = some n := by
  obtain ⟨k, hk, rfl⟩ := List.mem_range'.1 hid
  rw [Nat.one_mul]
  exact ⟨ns[k], List.getElem_mem hk, h k _ (List.getElem?_eq_getElem hk)⟩

/-- Whether a node is one of an instruction. -/
def isOf (a : Arena) (inst : InstId) (id : NodeId) : Bool :=
  (a.get? id).any fun n => n.inst == inst

/-- The nodes of an instruction stand where they are in the list. -/
theorem Stands.filter_isOf {pre mid post : List Node} (h : a.Stands base (pre ++ (mid ++ post)))
    {inst : InstId} (hmid : ∀ n ∈ mid, n.inst = inst) (hothers : ∀ n ∈ pre ++ post, n.inst ≠ inst) :
    (List.range' base (pre ++ (mid ++ post)).length).filter (a.isOf inst) =
      List.range' (base + pre.length) mid.length := by
  obtain ⟨hpre, h⟩ := h.append
  obtain ⟨hmiddle, hpost⟩ := h.append
  rw [List.length_append, List.length_append, ← List.range'_append_1, ← List.range'_append_1]
  refine filter_between (fun id hid => ?_) fun id hid => ?_
  · obtain ⟨n, hn, hget⟩ := hmiddle.exists_get? hid
    rw [isOf, hget, Option.any_some, beq_iff_eq]
    exact hmid n hn
  · obtain ⟨n, hn, hget⟩ : ∃ n ∈ pre ++ post, a.get? id = some n := by
      rcases List.mem_append.1 hid with hid | hid
      · obtain ⟨n, hn, hget⟩ := hpre.exists_get? hid
        exact ⟨n, List.mem_append_left _ hn, hget⟩
      · obtain ⟨n, hn, hget⟩ := hpost.exists_get? hid
        exact ⟨n, List.mem_append_right _ hn, hget⟩
    rw [isOf, hget, Option.any_some, beq_eq_false_iff_ne]
    exact hothers n hn

end Arena

/-- Forks and their companions stand as a team does. -/
theorem Arena.Stands.team {a : Arena} {base : Nat} {forks : List Node}
    (hforks : ∀ n ∈ forks, Draft.IsFork n ∧ n.ForksMember)
    (h : a.Stands base ((forks ++ Draft.companions forks).map (Node.shift base))) :
    a.Team (List.range' base forks.length) (List.range' (base + forks.length) forks.length) := by
  rw [List.map_append] at h
  obtain ⟨hfirst, hlast⟩ := h.append
  rw [List.length_map] at hlast
  have hfirst' : ∀ n ∈ forks, n.shift base = n :=
    fun n hn => Node.shift_of_none (Draft.companionOf?_of_isFork (hforks n hn).1) base
  rw [List.map_congr_left hfirst', List.map_id'] at hfirst
  refine ⟨List.nodup_range', fun fork hfork => ?_, List.forall₂_iff_get.2 ⟨by simp, ?_⟩⟩
  · obtain ⟨n, hn, hget⟩ := hfirst.exists_get? hfork
    exact ⟨n, hget, (hforks n hn).2⟩
  · intro k hk hk'
    rw [List.length_range'] at hk
    have hjoin : ((Draft.companions forks).map (Node.shift base))[k]? = some (Node.shift base
        ⟨forks[k].site, .join .companion (forks[k].handle?.getD .null) (some k)⟩) := by
      rw [List.getElem?_map, Draft.getElem?_companions (List.getElem?_eq_getElem hk),
        Option.map_some]
    simp only [List.get_eq_getElem, List.getElem_range', Nat.one_mul]
    refine ⟨_, hlast k _ hjoin, ?_⟩
    rw [Node.companionOf?_shift]
    exact congrArg some (Nat.add_comm _ _)

/-- The nodes of a routine stand where they were placed. -/
theorem Session.Placed.exists_stands {s : Session} (h : Placed c s) {f : String}
    {all : List NodeId} (hall : s.summaries[f]? = some all) :
    ∃ base, all = List.range' base (c.nodesOf f).length ∧
      s.arena.Stands base ((c.nodesOf f).map (Node.shift base)) := by
  obtain ⟨base, heq, hget⟩ := h.stretch f all hall
  refine ⟨base, heq, fun k n hn => ?_⟩
  rw [List.getElem?_map] at hn
  obtain ⟨m, hm, rfl⟩ := Option.map_eq_some_iff.1 hn
  exact hget k m hm

namespace Trace

/-- A thread comes to all nodes of an instruction of a routine, and passes none of them over. -/
structure Executes (c : Subject) (r : Runtime) (f : String) (i : Instruction)
    (ancestry opened : List String) (ids rest : List NodeId) (w : Walk) : Prop where
  reaches : Reaches c r (.nodes ancestry (f :: opened) (ids ++ rest) w)
  body : ∃ routine, c.program.definition? f = some routine ∧ i ∈ routine.body
  own : ∀ id ∈ ids, ∃ n, w.session.arena.get? id = some n ∧ n.inst = i.id ∧ w.isSkipped n = false
  others : ∃ before, w.session.summaries[f]? = some (before ++ (ids ++ rest)) ∧
    ∀ id ∈ before ++ rest, ∀ n, w.session.arena.get? id = some n → n.inst ≠ i.id

variable {f : String} {i : Instruction} {ancestry opened : List String} {ids rest : List NodeId}
  {w : Walk}

/-- These are all of its nodes. -/
theorem Executes.filter_isOf (h : Executes c r f i ancestry opened ids rest w) :
    ∃ all, w.session.summaries[f]? = some all ∧ all.filter (w.session.arena.isOf i.id) = ids := by
  obtain ⟨before, hids, hothers⟩ := h.others
  refine ⟨_, hids, filter_between (fun id hid => ?_) fun id hid => ?_⟩
  · obtain ⟨n, hn, hinst, -⟩ := h.own id hid
    rw [Arena.isOf, hn, Option.any_some, beq_iff_eq, hinst]
  · rw [Arena.isOf, Option.any_eq_false]
    intro n hn
    exact beq_eq_false_iff_ne.2 (hothers id hid n hn)

/-- The nodes of a call that starts a team are the forks of the members and their joins. -/
theorem Executes.exists_team (h : Executes c r f i ancestry opened ids rest w)
    (hc : c.program.Distinct) (hteam : c.chain.StartsTeam i) :
    ∃ forks joins, ids = forks ++ joins ∧ w.session.arena.Team forks joins := by
  obtain ⟨routine, hdef, hi⟩ := h.body
  obtain ⟨pre, forks, post, hforks, hothers, hnodes⟩ := Subject.nodesOf_team hc hdef hi hteam
  obtain ⟨all, hall, hids⟩ := h.filter_isOf
  have hplaced : w.session.Placed c := (h.reaches.seated hc).placed
  obtain ⟨base, rfl, hstands⟩ := hplaced.exists_stands hall
  have hshift : Node.shift base ∘ Node.shift pre.length = Node.shift (base + pre.length) := by
    funext n
    rw [Function.comp_apply, Node.shift_shift, Nat.add_comm]
  rw [hnodes, List.append_assoc, List.map_append, List.map_append, List.map_map, hshift] at hstands
  have hinst : ∀ n ∈ forks ++ Draft.companions forks, n.inst = i.id :=
    fun n hn => congrArg Site.inst (Draft.site_of_mem_team (fun n hn => (hforks n hn).1) hn)
  have hmiddle := hstands.append.2.append.1
  rw [List.length_map] at hmiddle
  refine ⟨_, _, ?_, hmiddle.team fun n hn => (hforks n hn).2⟩
  have hfilter := hstands.filter_isOf
    (List.forall_mem_map.2 fun n hn => (Node.inst_shift _ n).trans (hinst n hn))
    (by
      rw [← List.map_append]
      exact List.forall_mem_map.2 fun n hn => (Node.inst_shift _ n).trans_ne (hothers n hn))
  simp only [List.length_append, List.length_map, Draft.length_companions] at hfilter
  rw [← hids, hnodes, List.length_append, List.length_append, List.length_map, List.length_append,
    Draft.length_companions, Nat.add_assoc, hfilter, List.range'_append_1]

end Trace

end DataRace
