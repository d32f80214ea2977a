import DataRace.Proofs.Classify.Stems
import DataRace.Proofs.Classify.Teams

/-!
# Calls that start teams

A chain that knows OpenMP takes a call of `__kmpc_fork_call` or `__kmpc_fork_teams` for the start of
a team (`Chain.StartsTeam`), whatever else it knows.  Such a call means the forks of the members and
then their companion joins (`Draft.classify_team`), and no other instruction of its body has nodes
among these (`Draft.exists_split`).
-/

namespace DataRace

/-- A call that a chain takes for the start of a team. -/
structure Chain.StartsTeam (chain : Chain) (i : Instruction) : Prop where
  known : Interface.openMp ∈ chain
  called : i.calleeName? = some "__kmpc_fork_call" ∨ i.calleeName? = some "__kmpc_fork_teams"

namespace Chain

variable {chain : Chain} {i : Instruction}

/-- The call means a team. -/
theorem StartsTeam.exists_team (h : chain.StartsTeam i) : ∃ callee args api,
    i.action = .call callee args ∧ callee.name? >>= chain.meaning? = some (.team api) ∧
      ∀ master, (api master).isTeamMember = true := by
  obtain ⟨callee, hname, hcallee⟩ : ∃ callee, i.calleeName? = some callee ∧
      (callee = "__kmpc_fork_call" ∨ callee = "__kmpc_fork_teams") := by
    rcases h.called with hname | hname
    · exact ⟨_, hname, Or.inl rfl⟩
    · exact ⟨_, hname, Or.inr rfl⟩
  obtain ⟨api, hopenMp, hmember⟩ : ∃ api, Interface.openMp.meaning? callee = some (.team api) ∧
      ∀ master, (api master).isTeamMember = true := by
    rcases hcallee with rfl | rfl
    · exact ⟨.ompFork, rfl, fun _ => rfl⟩
    · exact ⟨.ompTeams, rfl, fun _ => rfl⟩
  have hmeaning : chain.meaning? callee = some (.team api) :=
    meaning?_eq_some.2 ⟨_, h.known, hopenMp⟩
  unfold Instruction.calleeName? at hname
  split at hname
  · next target args haction =>
    refine ⟨target, args, api, haction, ?_, hmember⟩
    rw [hname]
    exact hmeaning
  · cases hname

end Chain

namespace Draft

variable {p : Program} {s : Settings} {chain : Chain} {i : Instruction} {d e : Draft}

/-- A call that starts a team adds the forks of the members and then their companion joins. -/
theorem classify_team (hteam : chain.StartsTeam i) (hd : d.arena.Tidy)
    (h : d.classify p s chain i = .ok e) : ∃ forks,
      (∀ n ∈ forks, n.site = i.site ∧ IsFork n ∧ n.ForksMember) ∧
        e = d.extend (forks ++ companions forks) := by
  obtain ⟨callee, args, api, haction, hmeaning, hmember⟩ := hteam.exists_team
  rw [classify, haction] at h
  dsimp only at h
  rw [hmeaning] at h
  obtain ⟨forks, hforks, h⟩ := Except.bind_eq_ok.1 h
  have hall : ∀ n ∈ forks, n.site = i.site ∧ IsFork n ∧ n.ForksMember := by
    intro n hn
    obtain ⟨member, hmem, hfork⟩ := (Except.mem_mapM hforks).1 hn
    obtain ⟨k, -, rfl⟩ := List.mem_map.1 hmem
    obtain ⟨hsite, hisFork⟩ := Node.fork_spec hfork
    exact ⟨hsite, hisFork, _, Node.forkApi?_fork hfork, hmember _⟩
  refine ⟨forks, hall, ?_⟩
  rw [emitTeam_eq_extend (fun n hn => (hall n hn).2.1) hd] at h
  exact (Except.ok.inj h).symm

/-- The nodes of a body with a call that starts a team: those of the call stand between those of the
instructions before and of the instructions behind. -/
theorem exists_split {pre post : List Instruction}
    (hbody : ((pre ++ i :: post).map Instruction.id).Nodup) (hteam : chain.StartsTeam i)
    (hd : d.arena.Tidy) (h : classifyAll p s chain d (pre ++ i :: post) = .ok e) :
    ∃ before forks behind, (∀ n ∈ forks, n.site = i.site ∧ IsFork n ∧ n.ForksMember) ∧
      (∀ n ∈ before ++ behind, n.inst ≠ i.id) ∧
      e = d.extend (before ++ (forks ++ companions forks).map (Node.shift before.length) ++
        behind) := by
  obtain ⟨before, own, behind, hbefore, hclassify, -, rfl, hothers⟩ := exists_between hbody hd h
  obtain ⟨forks, hforks, hown⟩ := classify_team hteam (tidy_extend hd hbefore) hclassify
  rw [hown]
  refine ⟨before, forks, _, hforks, ?_, by rw [extend_extend d, extend_extend d]⟩
  intro n hn
  rcases List.mem_append.1 hn with hn | hn
  · exact hothers n (List.mem_append_left _ hn)
  · obtain ⟨m, hm, rfl⟩ := List.mem_map.1 hn
    rw [Node.inst_shift]
    exact hothers m (List.mem_append_right _ hm)

end Draft

end DataRace
