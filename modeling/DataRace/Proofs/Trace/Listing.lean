import DataRace.Proofs.Trace.TeamNodes

/-!
# The nodes of a body, instruction by instruction

What an instruction means does not depend on what was classified before it (`Subject.meant`), so the
nodes of a body are the nodes of its instructions, one after the other (`Draft.exists_own`).  In a
program where ids are different within a routine this says which nodes of the routine are whose:
those of each instruction stand together, in the order of the body (`Arena.Lists`).  A call of the
runtime for a team has the forks of the members and then, in the same order, the companion joins
that the arena has for these forks (`Arena.HoldsTeam`).

Sessions keep the nodes of routines in this way (`Session.Listed`).
-/

namespace DataRace

/-! ### Calls for teams -/

/-- A call of the runtime for a team, with the interface by which the members are started. -/
inductive Instruction.CallsTeam (i : Instruction) : (Bool → ForkApi) → Prop
  /-- A parallel region. -/
  | region (h : i.calleeName? = some "__kmpc_fork_call") : CallsTeam i .ompFork
  /-- A league of teams. -/
  | league (h : i.calleeName? = some "__kmpc_fork_teams") : CallsTeam i .ompTeams

namespace Instruction.CallsTeam

variable {i : Instruction} {api : Bool → ForkApi}

/-- Only OpenMP knows the callee, and takes the call for the start of a team. -/
theorem exists_callee (h : i.CallsTeam api) : ∃ f args, i.action = .call (.direct f) args ∧
    Interface.openMp.meaning? f = some (.team api) := by
  have hdirect : ∀ f, i.calleeName? = some f → ∃ args, i.action = .call (.direct f) args := by
    intro f hf
    unfold Instruction.calleeName? at hf
    split at hf
    · next callee args haction =>
      cases callee with
      | direct name =>
        cases hf
        exact ⟨args, haction⟩
      | indirect v => cases hf
    · cases hf
  cases h with
  | region h =>
    obtain ⟨args, haction⟩ := hdirect _ h
    exact ⟨_, args, haction, rfl⟩
  | league h =>
    obtain ⟨args, haction⟩ := hdirect _ h
    exact ⟨_, args, haction, rfl⟩

end Instruction.CallsTeam

/-- A chain knows a callee of OpenMP exactly if it has OpenMP. -/
theorem Chain.meaning?_of_openMp {f : String} {m : Meaning}
    (h : Interface.openMp.meaning? f = some m) (chain : Chain) :
    chain.meaning? f = if Interface.openMp ∈ chain then some m else none := by
  split
  · next hknown => exact meaning?_eq_some.2 ⟨_, hknown, h⟩
  · next hunknown =>
    cases hfound : chain.meaning? f with
    | none => rfl
    | some m' =>
      obtain ⟨api, hapi, hm'⟩ := meaning?_eq_some.1 hfound
      have hknows : api.meaning? f ≠ none := by simp [hm']
      have heq : api = .openMp := Interface.eq_of_knows hknows (by simp [h])
      exact absurd (heq ▸ hapi) hunknown

/-! ### Single instructions -/

namespace Node

variable {i : Instruction}

/-- An operand of a call is one of its arguments. -/
theorem args_of_operand {role : Role} {offset : Nat} {op : Operand}
    (h : operand role i offset = .ok op) : i.args[offset]? = some op := by
  obtain ⟨-, -, h⟩ := Except.bind_eq_ok.1 h
  split at h
  · next hargs =>
    cases h
    exact hargs
  · cases h

/-- A fork has its handle and its entry from the arguments of its instruction. -/
theorem exists_of_fork {api : ForkApi} {handle entry : Nat} {n : Node}
    (h : fork i api handle entry = .ok n) : ∃ op target, i.args[handle]? = some op ∧
      i.args[entry]? >>= ThreadEntry.ofOperand? = some target ∧
        n = ⟨i.site, .fork api op target⟩ := by
  obtain ⟨op, hop, h⟩ := Except.bind_eq_ok.1 h
  obtain ⟨routine, hroutine, h⟩ := Except.bind_eq_ok.1 h
  split at h
  · next target htarget =>
    refine ⟨op, target, args_of_operand hop, ?_, forkWithEntry_spec h⟩
    rw [args_of_operand hroutine]
    exact htarget
  · cases h

end Node

namespace Subject

variable {c : Subject} {i : Instruction} {api : Bool → ForkApi} {ns : List Node}

/-- The nodes of an instruction, made on their own. -/
def meant (c : Subject) (i : Instruction) : Except Fault (List Node) :=
  (fun d => d.arena.nodes.toList) <$>
    Draft.classify c.program c.settings c.chain ⟨.empty, []⟩ i

/-- Wherever an instruction is classified, it adds its nodes. -/
theorem classify_eq_meant {d : Draft} (hd : d.arena.Tidy) :
    Draft.classify c.program c.settings c.chain d i = d.extend <$> c.meant i := by
  obtain ⟨r, hr, -⟩ := Draft.emits_classify c.program c.settings c.chain i
  have hown : Draft.classify c.program c.settings c.chain ⟨.empty, []⟩ i =
      Draft.extend ⟨.empty, []⟩ <$> r := hr _ tidy_empty
  have hmeant : c.meant i = r := by
    unfold meant
    rw [hown]
    cases r with
    | error e => rfl
    | ok ns => exact congrArg Except.ok (toList_extend_empty ns)
  rw [hmeant]
  exact hr d hd

/-- The nodes of an instruction are a group. -/
theorem group_of_meant (h : c.meant i = .ok ns) : Group i ns := by
  obtain ⟨r, hr, hgroup⟩ := Draft.emits_classify c.program c.settings c.chain i
  have hown : Draft.classify c.program c.settings c.chain ⟨.empty, []⟩ i =
      Draft.extend ⟨.empty, []⟩ <$> r := hr _ tidy_empty
  unfold meant at h
  rw [hown] at h
  obtain ⟨d, hd, rfl⟩ := Except.map_eq_ok.1 h
  obtain ⟨ns, hns, rfl⟩ := Except.map_eq_ok.1 hd
  rw [toList_extend_empty]
  exact hgroup ns hns

/-- A call for a team means the forks of the members and then their companion joins. -/
theorem meant_team (hteam : i.CallsTeam api) (hknown : Interface.openMp ∈ c.chain)
    (h : c.meant i = .ok ns) : ∃ forks,
      List.Forall₂ (fun member n => Node.fork i member 0 2 = .ok n)
        (Meaning.members c.settings api) forks ∧ ns = forks ++ Draft.companions forks := by
  obtain ⟨f, args, haction, hmeaning⟩ := hteam.exists_callee
  obtain ⟨d, hd, rfl⟩ := Except.map_eq_ok.1 h
  rw [Draft.classify, haction] at hd
  dsimp only at hd
  rw [show Callee.name? (.direct f) >>= c.chain.meaning? = some (.team api) from
    (Chain.meaning?_of_openMp hmeaning c.chain).trans (if_pos hknown)] at hd
  obtain ⟨forks, hforks, hd⟩ := Except.bind_eq_ok.1 hd
  refine ⟨forks, Except.mapM_eq_ok.1 hforks, ?_⟩
  rw [Draft.emitTeam_eq_extend (fun n hn => (mem_forks hforks hn).2) tidy_empty] at hd
  cases hd
  exact toList_extend_empty _

/-- To a chain without OpenMP a call for a team is a plain call. -/
theorem meant_plain (hteam : i.CallsTeam api) (hunknown : Interface.openMp ∉ c.chain) :
    ∃ callee args, i.action = .call callee args ∧
      c.meant i = .ok [⟨i.site, .call .plain callee args⟩] := by
  obtain ⟨f, args, haction, hmeaning⟩ := hteam.exists_callee
  refine ⟨_, args, haction, ?_⟩
  have hnone : Callee.name? (.direct f) >>= c.chain.meaning? = none :=
    (Chain.meaning?_of_openMp hmeaning c.chain).trans (if_neg hunknown)
  unfold meant Draft.classify
  rw [haction]
  dsimp only
  rw [hnone]
  unfold Node.call
  rw [haction]
  rfl

end Subject

/-! ### Positions -/

namespace Arena

variable {c : Subject} {a b : Arena} {i : Instruction} {ids : List NodeId}

/-- Positions hold the nodes of an instruction, one behind the other. -/
def Holds (c : Subject) (a : Arena) (i : Instruction) (ids : List NodeId) : Prop :=
  ∃ base ns, c.meant i = .ok ns ∧ ids = List.range' base ns.length ∧
    a.Stands base (ns.map (Node.shift base))

/-- Positions hold the forks of a team and then, in the same order, the companion joins that the
arena has for these forks. -/
def HoldsTeam (c : Subject) (a : Arena) (i : Instruction) (api : Bool → ForkApi)
    (ids : List NodeId) : Prop :=
  ∃ base, ids = List.range' base c.settings.teamSize ++
      List.range' (base + c.settings.teamSize) c.settings.teamSize ∧
    ∀ k < c.settings.teamSize, ∃ handle entry, i.args[0]? = some handle ∧
      i.args[2]? >>= ThreadEntry.ofOperand? = some entry ∧
      a.get? (base + k) = some ⟨i.site, .fork (api (k = 0)) handle entry⟩ ∧
      a.get? (base + c.settings.teamSize + k) =
        some ⟨i.site, .join .companion handle (some (base + k))⟩ ∧
      a.companionJoin (base + k) = .ok (base + c.settings.teamSize + k, a)

/-- A later arena holds the nodes, too. -/
protected theorem Holds.mono (h : a.Holds c i ids) (hab : a.Extends b) : b.Holds c i ids := by
  obtain ⟨base, ns, hns, hids, hstands⟩ := h
  exact ⟨base, ns, hns, hids, fun k n hn => hab _ _ (hstands k n hn)⟩

/-- The nodes are of the instruction and of no other. -/
theorem Holds.isOf_eq (h : a.Holds c i ids) :
    ∀ id ∈ ids, ∀ inst, a.isOf inst id = (i.id == inst) := by
  obtain ⟨base, ns, hns, rfl, hstands⟩ := h
  intro id hid inst
  rw [← List.length_map (Node.shift base)] at hid
  obtain ⟨n, hn, hget⟩ := hstands.exists_get? hid
  obtain ⟨m, hm, rfl⟩ := List.mem_map.1 hn
  rw [isOf, hget, Option.any_some, Node.inst_shift, (Subject.group_of_meant hns).inst_eq m hm]

/-- A companion join among nodes that are laid out is the one that the arena has for its fork. -/
theorem Laid.companion?_eq (h : a.Laid ids) {id : NodeId} (hid : id ∈ ids) {n : Node}
    (hn : a.get? id = some n) {fork : NodeId} (hfork : n.companionOf? = some fork) :
    a.companion? fork = some id := by
  induction h with
  | nil => cases hid
  | cons hn' _ hjoin _ ih =>
    rcases List.mem_cons.1 hid with rfl | hid
    · cases hn.symm.trans hn'
      exact (hjoin fork hfork).2
    · exact ih hid

/-- A call for a team has the nodes of a team. -/
theorem Holds.team (h : a.Holds c i ids) {api : Bool → ForkApi} (hteam : i.CallsTeam api)
    (hknown : Interface.openMp ∈ c.chain) {all : List NodeId} (hall : a.Laid all)
    (hids : ids ⊆ all) : a.HoldsTeam c i api ids := by
  obtain ⟨base, ns, hns, rfl, hstands⟩ := h
  obtain ⟨forks, hforks, rfl⟩ := Subject.meant_team hteam hknown hns
  have hlength : c.settings.teamSize = forks.length := by
    rw [← hforks.length_eq, Meaning.members, List.length_map, List.length_range]
  rw [List.length_append, Draft.length_companions] at hids ⊢
  refine ⟨base, by rw [hlength, List.range'_append_1], fun k hk => ?_⟩
  rw [hlength] at hk ⊢
  have hfork : Node.fork i (api (k = 0)) 0 2 = .ok forks[k] := by
    have hmember := hforks.get (hforks.length_eq ▸ hk) hk
    simpa [Meaning.members] using hmember
  obtain ⟨handle, entry, hhandle, hentry, heq⟩ := Node.exists_of_fork hfork
  have hat : forks[k]? = some ⟨i.site, .fork (api (k = 0)) handle entry⟩ :=
    (List.getElem?_eq_getElem hk).trans (congrArg some heq)
  rw [List.map_append] at hstands
  obtain ⟨hfirst, hlast⟩ := hstands.append
  rw [List.length_map] at hlast
  have hjoin : a.get? (base + forks.length + k) =
      some ⟨i.site, .join .companion handle (some (base + k))⟩ := by
    refine hlast k _ ?_
    rw [List.getElem?_map, Draft.getElem?_companions hat, Nat.add_comm base k]
    rfl
  refine ⟨handle, entry, hhandle, hentry, hfirst k _ ?_, hjoin, ?_⟩
  · rw [List.getElem?_map, hat]
    rfl
  · rw [companionJoin, hall.companion?_eq (hids ?_) hjoin rfl]
    exact List.mem_range'_1.2 ⟨by omega, by omega⟩

/-- To a chain without OpenMP a call for a team has the node of a plain call. -/
theorem Holds.plain (h : a.Holds c i ids) {api : Bool → ForkApi} (hteam : i.CallsTeam api)
    (hunknown : Interface.openMp ∉ c.chain) : ∃ id callee args, i.action = .call callee args ∧
      ids = [id] ∧ a.get? id = some ⟨i.site, .call .plain callee args⟩ := by
  obtain ⟨base, ns, hns, rfl, hstands⟩ := h
  obtain ⟨callee, args, haction, hplain⟩ := Subject.meant_plain hteam hunknown
  cases hns.symm.trans hplain
  exact ⟨base, callee, args, haction, rfl, hstands 0 _ rfl⟩

end Arena

/-! ### Bodies -/

namespace Draft

variable {c : Subject}

/-- Classifying a body adds the nodes of its instructions, one instruction after the other. -/
theorem exists_own {body : List Instruction} {d e : Draft} (hd : d.arena.Tidy)
    (h : classifyAll c.program c.settings c.chain d body = .ok e) :
    ∃ own, e.nodes = d.nodes ++ own.flatten ∧ List.Forall₂ (e.arena.Holds c) body own := by
  induction body generalizing d with
  | nil =>
    cases h
    exact ⟨[], (List.append_nil _).symm, .nil⟩
  | cons i body ih =>
    obtain ⟨d', hd', h⟩ := Except.bind_eq_ok.1 h
    obtain ⟨ns, hns, rfl⟩ := Except.map_eq_ok.1 ((Subject.classify_eq_meant hd).symm.trans hd')
    obtain ⟨own, hnodes, hown⟩ := ih (tidy_extend hd (Subject.group_of_meant hns).tidy) h
    have hextends : (d.extend ns).arena.Extends e.arena :=
      foldlM_extends (fun _ _ _ => classify_extends) h
    refine ⟨List.range' d.arena.size ns.length :: own, ?_,
      .cons ⟨d.arena.size, ns, hns, rfl, fun k n hn => ?_⟩ hown⟩
    · rw [hnodes, extend, List.flatten_cons, List.append_assoc]
    · rw [List.getElem?_map] at hn
      obtain ⟨m, hm, rfl⟩ := Option.map_eq_some_iff.1 hn
      exact hextends _ _ (get?_extend_add hm d)

end Draft

namespace Arena

variable {c : Subject} {a b : Arena} {body : List Instruction} {ids : List NodeId}

/-- Positions list the nodes of a body: those of each instruction stand together, in the order of
the body, and a call for a team has the forks of the members and then their companion joins. -/
structure Lists (c : Subject) (a : Arena) (body : List Instruction) (ids : List NodeId) : Prop where
  inOrder : ids = body.flatMap fun i => ids.filter (a.isOf i.id)
  own : ∀ i ∈ body, a.Holds c i (ids.filter (a.isOf i.id))
  team : ∀ i ∈ body, ∀ api, i.CallsTeam api → Interface.openMp ∈ c.chain →
    a.HoldsTeam c i api (ids.filter (a.isOf i.id))
  plain : ∀ i ∈ body, ∀ api, i.CallsTeam api → Interface.openMp ∉ c.chain →
    ∃ id callee args, i.action = .call callee args ∧ ids.filter (a.isOf i.id) = [id] ∧
      a.get? id = some ⟨i.site, .call .plain callee args⟩

/-- What one of several instructions holds is of that instruction. -/
theorem exists_isOf_eq {own : List (List NodeId)} (h : List.Forall₂ (a.Holds c) body own)
    {id : NodeId} (hid : id ∈ own.flatten) :
    ∃ i ∈ body, ∀ inst, a.isOf inst id = (i.id == inst) := by
  induction h with
  | nil => cases hid
  | @cons i g body own hg _ ih =>
    rw [List.flatten_cons] at hid
    rcases List.mem_append.1 hid with hid | hid
    · exact ⟨i, List.mem_cons_self, hg.isOf_eq id hid⟩
    · obtain ⟨j, hj, hisOf⟩ := ih hid
      exact ⟨j, List.mem_cons_of_mem _ hj, hisOf⟩

/-- Where ids are different, each instruction holds what is of it. -/
theorem eq_map_filter {own : List (List NodeId)} (h : List.Forall₂ (a.Holds c) body own)
    (hids : (body.map Instruction.id).Nodup) :
    own = body.map fun i => own.flatten.filter (a.isOf i.id) := by
  induction h with
  | nil => rfl
  | @cons i g body own hg hrest ih =>
    rw [List.map_cons, List.nodup_cons] at hids
    have hne : ∀ j ∈ body, j.id ≠ i.id := fun j hj heq =>
      hids.1 (heq ▸ List.mem_map_of_mem hj)
    have hown : g.filter (a.isOf i.id) = g := by
      rw [List.filter_eq_self]
      intro id hid
      rw [hg.isOf_eq id hid, beq_self_eq_true]
    have hothers : own.flatten.filter (a.isOf i.id) = [] := by
      rw [List.filter_eq_nil_iff]
      intro id hid
      obtain ⟨j, hj, hisOf⟩ := exists_isOf_eq hrest hid
      rw [hisOf, beq_iff_eq]
      exact hne j hj
    have hnone : ∀ j ∈ body, g.filter (a.isOf j.id) = [] := by
      intro j hj
      rw [List.filter_eq_nil_iff]
      intro id hid
      rw [hg.isOf_eq id hid, beq_iff_eq]
      exact (hne j hj).symm
    rw [List.map_cons, List.flatten_cons, List.filter_append, hown, hothers, List.append_nil]
    refine congrArg (g :: ·) ((ih hids.2).trans (List.map_congr_left fun j hj => ?_))
    rw [List.filter_append, hnone j hj, List.nil_append]

/-- The nodes of the instructions of a body, one after the other and laid out, list the nodes of the
body. -/
theorem lists_of_holds {own : List (List NodeId)} (h : List.Forall₂ (a.Holds c) body own)
    (hids : (body.map Instruction.id).Nodup) (hlaid : a.Laid own.flatten) :
    a.Lists c body own.flatten := by
  have hmap := eq_map_filter h hids
  have hown : ∀ i ∈ body, a.Holds c i (own.flatten.filter (a.isOf i.id)) := by
    rw [hmap, List.forall₂_map_right_iff, List.forall₂_same] at h
    exact h
  refine ⟨?_, hown, fun i hi api hteam hknown => ?_, fun i hi api hteam hunknown => ?_⟩
  · exact (congrArg List.flatten hmap).trans List.flatMap_def.symm
  · exact (hown i hi).team hteam hknown hlaid List.filter_sublist.subset
  · exact (hown i hi).plain hteam hunknown

end Arena

/-! ### Sessions -/

namespace Session

variable {c : Subject} {s s' : Session}

/-- The nodes of each routine that was looked at are those of its instructions, one instruction
after the other. -/
def Listed (c : Subject) (s : Session) : Prop :=
  ∀ (f : String) ids, s.summaries[f]? = some ids → ∃ r own, c.program.definition? f = some r ∧
    ids = own.flatten ∧ List.Forall₂ (s.arena.Holds c) r.body own

/-- More nodes and the same routines. -/
theorem Listed.mono (hs : s.Listed c) (harena : s.arena.Extends s'.arena)
    (hsummaries : s'.summaries = s.summaries) : s'.Listed c := by
  intro f ids hids
  rw [hsummaries] at hids
  obtain ⟨r, own, hdef, heq, hown⟩ := hs f ids hids
  exact ⟨r, own, hdef, heq, hown.imp fun _ _ h => h.mono harena⟩

/-- Nothing was looked at. -/
theorem Listed.empty (c : Subject) : Session.empty.Listed c := by
  intro f ids hids
  rw [show Session.empty.summaries[f]? = none from Std.HashMap.getElem?_empty] at hids
  cases hids

/-- Sessions stay listed when they look more up. -/
theorem Learns.listed (h : s.Learns c s') (hc : c.program.Distinct) (hplaced : s.Placed c)
    (hs : s.Listed c) : s'.Listed c := by
  induction h with
  | refl => exact hs
  | trans h _ ih₁ ih₂ => exact ih₂ ((h.later hc).placed hplaced) (ih₁ hplaced hs)
  | @summary s s' f nodes h =>
    have hextends := (Learns.summary h).extends.arena
    obtain ⟨-, -, -, rfl⟩ | ⟨-, ⟨-, -, rfl⟩ | ⟨r, d, hdef, hd, -, rfl⟩⟩ := summary_cases h
    · exact hs
    · exact hs
    · intro g ids hids
      rw [Std.HashMap.getElem?_insert] at hids
      split at hids
      · next heq =>
        cases hids
        obtain ⟨own, hnodes, hown⟩ := Draft.exists_own (d := ⟨s.arena, []⟩) hplaced.tidy hd
        rw [← beq_iff_eq.1 heq]
        exact ⟨r, own, hdef, hnodes.trans (List.nil_append _), hown⟩
      · obtain ⟨r', own, hdef', heq, hown⟩ := hs g ids hids
        exact ⟨r', own, hdef', heq, hown.imp fun _ _ h => h.mono hextends⟩
  | answer => exact hs.mono (.refl _) rfl

/-- The nodes of a routine list the nodes of its body. -/
theorem Listed.lists (hs : s.Listed c) (hc : c.program.Distinct) (horderly : s.Orderly)
    {f : String} {ids : List NodeId} (hids : s.summaries[f]? = some ids) :
    ∃ r, c.program.definition? f = some r ∧ s.arena.Lists c r.body ids := by
  obtain ⟨r, own, hdef, rfl, hown⟩ := hs f ids hids
  exact ⟨r, hdef, Arena.lists_of_holds hown (hc f r hdef) (horderly f _ hids)⟩

end Session

end DataRace
