import DataRace.Proofs.Classify.Outline

/-!
# Teams among the nodes of a routine

A call that starts a team means the forks of all members and then their companion joins, with
nothing in between.  So in the nodes of a routine (`Arena.Laid`) every fork of a member is followed
by its companion join, with at most other forks and companions of teams before it (`Arena.Due`), and
there are no other companion joins; those of tasks are made by the runtime.

Sessions whose nodes are laid out in this way (`Session.Orderly`) stay so when they look more up.
-/

namespace DataRace

namespace Node

/-- A fork of a member of an OpenMP team. -/
def ForksMember (n : Node) : Prop := ∃ api, n.forkApi? = some api ∧ api.isTeamMember = true

/-- A node that a team call means: the fork of a member, or a companion join. -/
def InTeam (n : Node) : Prop := n.ForksMember ∨ ∃ fork, n.companionOf? = some fork

/-- A companion join is no fork. -/
theorem not_forksMember_of_companion {n : Node} {fork : NodeId} (h : n.companionOf? = some fork) :
    ¬ n.ForksMember := by
  rintro ⟨api, hapi, -⟩
  obtain ⟨site, effect⟩ := n
  cases effect <;> simp [companionOf?, forkApi?] at h hapi

/-- A node that neither forks a member nor names a fork. -/
theorem not_inTeam {n : Node} (hfork : ∀ api, n.forkApi? = some api → api.isTeamMember = false)
    (hjoin : n.companionOf? = none) : ¬ n.InTeam := by
  rintro (⟨api, hapi, hmember⟩ | ⟨fork, hcompanion⟩)
  · rw [hfork api hapi] at hmember
    cases hmember
  · rw [hjoin] at hcompanion
    cases hcompanion

/-- A node that neither forks nor names a fork. -/
theorem not_inTeam_of_none {n : Node} (hfork : n.forkApi? = none) (hjoin : n.companionOf? = none) :
    ¬ n.InTeam :=
  not_inTeam (fun _ hapi => nomatch hfork.symm.trans hapi) hjoin

/-- The nodes of a team are forks and joins. -/
theorem InTeam.category {n : Node} (h : n.InTeam) : n.category = .fork ∨ n.category = .join := by
  obtain ⟨site, effect⟩ := n
  cases effect with
  | fork => exact Or.inl rfl
  | join => exact Or.inr rfl
  | _ => rcases h with ⟨api, hapi, -⟩ | ⟨fork, hfork⟩ <;> contradiction

/-- A fork that an instruction means has the interface that was asked for. -/
theorem forkApi?_fork {i : Instruction} {api : ForkApi} {handle entry : Nat} {n : Node}
    (h : fork i api handle entry = .ok n) : n.forkApi? = some api := by
  obtain ⟨h', -, h⟩ := Except.bind_eq_ok.1 h
  obtain ⟨op, -, h⟩ := Except.bind_eq_ok.1 h
  split at h
  · rw [forkWithEntry_spec h]
    rfl
  · cases h

/-- A single fork of no member. -/
theorem not_inTeam_fork {i : Instruction} {api : ForkApi} {handle entry : Nat} {n : Node}
    (h : fork i api handle entry = .ok n) (hapi : api.isTeamMember = false) : ¬ n.InTeam := by
  refine not_inTeam (fun api' hapi' => ?_) (Draft.companionOf?_of_isFork (fork_spec h).2)
  rw [forkApi?_fork h] at hapi'
  cases hapi'
  exact hapi

end Node

namespace Arena

/-- The fork of a member of a team. -/
def TeamFork (a : Arena) (id : NodeId) : Prop := ∃ n, a.get? id = some n ∧ n.ForksMember

/-- A node that forks no member of a team. -/
def OtherNode (a : Arena) (id : NodeId) : Prop := ∃ n, a.get? id = some n ∧ ¬ n.ForksMember

/-- The companion join of a fork comes next, with only nodes of teams before it. -/
inductive Due (a : Arena) (fork : NodeId) : List NodeId → Prop
  | here {id : NodeId} {rest : List NodeId} (h : a.companion? fork = some id) :
      Due a fork (id :: rest)
  | later {id : NodeId} {n : Node} {rest : List NodeId} (hn : a.get? id = some n)
      (hteam : n.InTeam) (h : Due a fork rest) : Due a fork (id :: rest)

/-- Forks of members are followed by their companion joins, and there are no others. -/
inductive Laid (a : Arena) : List NodeId → Prop
  | nil : Laid a []
  | cons {id : NodeId} {n : Node} {rest : List NodeId} (hn : a.get? id = some n)
      (hfork : n.ForksMember → Due a id rest)
      (hjoin : ∀ fork, n.companionOf? = some fork → a.TeamFork fork ∧ a.companion? fork = some id)
      (hrest : Laid a rest) : Laid a (id :: rest)

variable {a b : Arena} {fork id : NodeId} {ids ids' : List NodeId}

/-- A fork of a member stays one. -/
theorem TeamFork.mono (h : a.TeamFork id) (hab : a.Extends b) : b.TeamFork id := by
  obtain ⟨n, hn, hmember⟩ := h
  exact ⟨n, hab id n hn, hmember⟩

/-- Another node stays one. -/
theorem OtherNode.mono (h : a.OtherNode id) (hab : a.Extends b) : b.OtherNode id := by
  obtain ⟨n, hn, hother⟩ := h
  exact ⟨n, hab id n hn, hother⟩

/-- A node is not both. -/
theorem OtherNode.not_teamFork (h : a.OtherNode id) : ¬ a.TeamFork id := by
  rintro ⟨n, hn, hmember⟩
  obtain ⟨n', hn', hother⟩ := h
  cases hn.symm.trans hn'
  exact hother hmember

namespace Due

/-- A node that no team call means does not come before a companion join. -/
theorem inTeam {n : Node} (h : a.Due fork (id :: ids)) (hn : a.get? id = some n) : n.InTeam := by
  cases h with
  | here h =>
    obtain ⟨n', hn', hcompanion⟩ := companion?_spec h
    cases hn.symm.trans hn'
    exact Or.inr ⟨fork, hcompanion⟩
  | later hn' hteam =>
    cases hn.symm.trans hn'
    exact hteam

/-- What is not the companion join itself comes before it. -/
theorem tail {n : Node} (h : a.Due fork (id :: ids)) (hn : a.get? id = some n)
    (hne : n.companionOf? ≠ some fork) : a.Due fork ids := by
  cases h with
  | here h =>
    obtain ⟨n', hn', hcompanion⟩ := companion?_spec h
    cases hn.symm.trans hn'
    exact absurd hcompanion hne
  | later _ _ h => exact h

/-- A companion join that comes next does so in a later arena. -/
protected theorem mono (h : a.Due fork ids) (hab : a.Extends b) : b.Due fork ids := by
  induction h with
  | here h => exact .here (hab.companion? h)
  | later hn hteam _ ih => exact .later (hab _ _ hn) hteam ih

/-- What comes behind does not matter. -/
protected theorem append (h : a.Due fork ids) (ids' : List NodeId) :
    a.Due fork (ids ++ ids') := by
  induction h with
  | here h => exact .here h
  | later hn hteam _ ih => exact .later hn hteam ih

/-- Forks of members may come before. -/
theorem of_forks (hids : ∀ id ∈ ids, a.TeamFork id) (h : a.Due fork ids') :
    a.Due fork (ids ++ ids') := by
  induction ids with
  | nil => exact h
  | cons id ids ih =>
    obtain ⟨n, hn, hmember⟩ := hids id List.mem_cons_self
    exact .later hn (Or.inl hmember) (ih fun id hid => hids id (List.mem_cons_of_mem _ hid))

/-- Other companion joins may come before. -/
theorem of_companions {forks : List NodeId}
    (h : List.Forall₂ (fun fork id => a.companion? fork = some id) forks ids)
    (hfork : fork ∈ forks) : a.Due fork ids := by
  induction h with
  | nil => cases hfork
  | @cons fork' id _ _ hid _ ih =>
    rcases List.mem_cons.1 hfork with rfl | hfork
    · exact .here hid
    · obtain ⟨n, hn, hcompanion⟩ := companion?_spec hid
      exact .later hn (Or.inr ⟨fork', hcompanion⟩) (ih hfork)

end Due

namespace Laid

/-- Nodes are laid out in a later arena, too. -/
protected theorem mono (h : a.Laid ids) (hab : a.Extends b) : b.Laid ids := by
  induction h with
  | nil => exact .nil
  | cons hn hfork hjoin _ ih =>
    refine .cons (hab _ _ hn) (fun hmember => (hfork hmember).mono hab)
      (fun fork hcompanion => ?_) ih
    obtain ⟨hteam, hid⟩ := hjoin fork hcompanion
    exact ⟨hteam.mono hab, hab.companion? hid⟩

/-- Two lists one after the other. -/
protected theorem append (h : a.Laid ids) (h' : a.Laid ids') : a.Laid (ids ++ ids') := by
  induction h with
  | nil => exact h'
  | cons hn hfork hjoin _ ih =>
    exact .cons hn (fun hmember => (hfork hmember).append ids') hjoin ih

/-- A node that no team call means. -/
theorem single {n : Node} (hn : a.get? id = some n) (hother : ¬ n.InTeam) : a.Laid [id] :=
  .cons hn (fun hmember => absurd (Or.inl hmember) hother)
    (fun fork hfork => absurd (Or.inr ⟨fork, hfork⟩) hother) .nil

/-- The companion joins of forks of members. -/
theorem companions {forks : List NodeId}
    (h : List.Forall₂ (fun fork id => a.companion? fork = some id) forks ids)
    (hforks : ∀ fork ∈ forks, a.TeamFork fork) : a.Laid ids := by
  induction h with
  | nil => exact .nil
  | @cons fork id _ _ hid _ ih =>
    obtain ⟨n, hn, hcompanion⟩ := companion?_spec hid
    refine .cons hn (fun hmember => ?_) (fun fork' hfork' => ?_)
      (ih fun f hf => hforks f (List.mem_cons_of_mem _ hf))
    · exact absurd hmember (Node.not_forksMember_of_companion hcompanion)
    · obtain rfl : fork = fork' := Option.some.inj (hcompanion.symm.trans hfork')
      exact ⟨hforks fork List.mem_cons_self, hid⟩

/-- The forks of members and then their companion joins. -/
theorem team {forks : List NodeId}
    (h : List.Forall₂ (fun fork id => a.companion? fork = some id) forks ids)
    (hforks : ∀ fork ∈ forks, a.TeamFork fork) : a.Laid (forks ++ ids) := by
  have hsuffix : ∀ l, l ⊆ forks → a.Laid (l ++ ids) := by
    intro l
    induction l with
    | nil => exact fun _ => companions h hforks
    | cons fork l ih =>
      intro hl
      obtain ⟨hfork, hl⟩ := List.cons_subset.1 hl
      obtain ⟨n, hn, hmember⟩ := hforks fork hfork
      refine .cons hn (fun _ => ?_) (fun fork' hfork' => ?_) (ih hl)
      · exact .of_forks (fun f hf => hforks f (hl hf)) (.of_companions h hfork)
      · exact absurd hmember (Node.not_forksMember_of_companion hfork')
  exact hsuffix forks (List.Subset.refl _)

end Laid

end Arena

/-! ### Classifying -/

namespace Draft

variable {d e : Draft}

/-- The nodes of a draft are laid out in its arena. -/
def Laid (d : Draft) : Prop := d.arena.Laid d.nodes

/-- Adding a node that no team call means. -/
theorem Laid.emit (hd : d.Laid) {n : Node} (h : ¬ n.InTeam) : (d.emit n).Laid :=
  (hd.mono (d.emit_extends n)).append (.single (d.arena.get?_push n) h)

/-- Adding one node, if it can be made, that no team call means. -/
theorem Laid.emit_map (hd : d.Laid) {x : Except Fault Node} (h : d.emit <$> x = .ok e)
    (hother : ∀ n, x = .ok n → ¬ n.InTeam) : e.Laid := by
  obtain ⟨n, hn, rfl⟩ := Except.map_eq_ok.1 h
  exact hd.emit (hother n hn)

/-- Adding nodes that no team call means. -/
theorem Laid.emitAll (hd : d.Laid) {ns : List Node} (h : ∀ n ∈ ns, ¬ n.InTeam) :
    (d.emitAll ns).Laid := by
  induction ns generalizing d with
  | nil => exact hd
  | cons n ns ih =>
    exact ih (hd.emit (h n List.mem_cons_self)) fun m hm => h m (List.mem_cons_of_mem _ hm)

/-- Adding companion joins of several forks. -/
theorem emitCompanions_spec {forks : List NodeId} (h : forks.foldlM emitCompanion d = .ok e) :
    d.arena.Extends e.arena ∧ ∃ ids, e.nodes = d.nodes ++ ids ∧
      List.Forall₂ (fun fork id => e.arena.companion? fork = some id) forks ids := by
  induction forks generalizing d with
  | nil =>
    cases h
    exact ⟨.refl _, [], (List.append_nil _).symm, .nil⟩
  | cons fork forks ih =>
    rw [List.foldlM_cons] at h
    obtain ⟨d', hd, h⟩ := Except.bind_eq_ok.1 h
    obtain ⟨⟨id, arena⟩, hjoin, hd⟩ := Except.bind_eq_ok.1 hd
    cases hd
    obtain ⟨hextends, ids, hids, hall⟩ := ih h
    refine ⟨(Arena.companionJoin_spec hjoin).1.trans hextends, id :: ids, ?_, .cons ?_ hall⟩
    · rw [hids, List.append_assoc]
      rfl
    · exact hextends.companion? (Arena.companion?_companionJoin hjoin)

/-- Adding a team. -/
theorem Laid.emitTeam (hd : d.Laid) {forks : List Node} (hforks : ∀ n ∈ forks, n.ForksMember)
    (h : d.emitTeam forks = .ok e) : e.Laid := by
  have hnone : ∀ n ∈ forks, n.companionOf? = none := fun n hn =>
    Option.eq_none_iff_forall_ne_some.2 fun fork hfork =>
      Node.not_forksMember_of_companion hfork (hforks n hn)
  have hpositions : (List.range' d.arena.size forks.length).foldlM emitCompanion
      (d.extend forks) = .ok e := by
    rw [List.range'_eq_map_range, List.foldlM_map, ← emitAll_eq_extend hnone]
    exact h
  obtain ⟨hextends, ids, hids, hall⟩ := emitCompanions_spec hpositions
  have hteam : ∀ id ∈ List.range' d.arena.size forks.length, e.arena.TeamFork id := by
    intro id hid
    obtain ⟨k, hk, rfl⟩ := List.mem_range'.1 hid
    have hn := List.getElem?_eq_getElem hk
    have hmem := List.getElem_mem hk
    have hget := get?_extend_add hn d
    rw [Node.shift_of_none (hnone _ hmem)] at hget
    exact ⟨_, by simpa using hextends _ _ hget, hforks _ hmem⟩
  show e.arena.Laid e.nodes
  rw [hids, extend, List.append_assoc]
  have hextends' : d.arena.Extends e.arena := by
    refine Arena.Extends.trans ?_ hextends
    rw [← emitAll_eq_extend hnone]
    exact d.emitAll_extends forks
  exact (hd.mono hextends').append (.team hall hteam)

end Draft

namespace Meaning

/-- Whether a meaning of a call takes members of teams for what they are: a team has only members,
and a single fork is none. -/
def Proper : Meaning → Prop
  | .team api => ∀ master, (api master).isTeamMember = true
  | .fork api => api.isTeamMember = false
  | _ => True

/-- What the interfaces know is proper. -/
theorem proper_of_interface {api : Interface} {callee : String} {m : Meaning}
    (h : api.meaning? callee = some m) : m.Proper := by
  cases api with
  | intrinsic =>
    change intrinsic? callee = some m at h
    unfold intrinsic? at h
    split at h <;> cases h
    trivial
  | libc =>
    change libc? callee = some m at h
    unfold libc? at h
    repeat' split at h
    all_goals cases h
    all_goals trivial
  | pthread =>
    change pthread? callee = some m at h
    unfold pthread? at h
    split at h <;> cases h <;> trivial
  | openMp =>
    change openMp? callee = some m at h
    unfold openMp? at h
    repeat' split at h
    all_goals cases h
    all_goals first
      | trivial
      | exact fun _ => rfl
  | cuda =>
    change cuda? callee = some m at h
    unfold cuda? at h
    repeat' split at h
    all_goals cases h
    all_goals trivial

/-- What a chain knows is proper. -/
theorem proper_of_chain {chain : Chain} {callee : String} {m : Meaning}
    (h : chain.meaning? callee = some m) : m.Proper := by
  obtain ⟨api, -, hapi⟩ := List.exists_of_findSome?_eq_some h
  exact proper_of_interface hapi

/-- The nodes of a known call are laid out. -/
theorem emit_laid {p : Program} {s : Settings} {i : Instruction} {m : Meaning} (hm : m.Proper)
    {d e : Draft} (hd : d.Laid) (h : m.emit p s i d = .ok e) : e.Laid := by
  -- Nodes made of one operand of the instruction.
  have hbind : ∀ {α : Type} {x : Except Fault α} {φ : α → Effect},
      (∀ v, ¬ Node.InTeam ⟨i.site, φ v⟩) →
        d.emit <$> (x >>= fun v => Except.ok ⟨i.site, φ v⟩) = .ok e → e.Laid := by
    intro α x φ hφ h
    refine hd.emit_map h fun n hn => ?_
    obtain ⟨v, -, hn⟩ := Except.bind_eq_ok.1 hn
    cases hn
    exact hφ v
  cases m with
  | nothing =>
    cases h
    exact hd
  | free | fill | join | lock | unlock | barrier =>
    exact hbind (fun _ => Node.not_inTeam_of_none rfl rfl) h
  | copy =>
    obtain ⟨target, htarget, h⟩ := Except.bind_eq_ok.1 h
    obtain ⟨source, hsource, h⟩ := Except.bind_eq_ok.1 h
    obtain ⟨v, -, htarget⟩ := Except.bind_eq_ok.1 htarget
    obtain ⟨v', -, hsource⟩ := Except.bind_eq_ok.1 hsource
    cases htarget
    cases hsource
    cases h
    refine hd.emitAll fun n hn => ?_
    rcases List.mem_cons.1 hn with rfl | hn
    · exact Node.not_inTeam_of_none rfl rfl
    · rw [List.mem_singleton.1 hn]
      exact Node.not_inTeam_of_none rfl rfl
  | construct api =>
    refine hd.emit_map h fun n hn => ?_
    unfold Node.call at hn
    split at hn
    · cases hn
      exact Node.not_inTeam_of_none rfl rfl
    · cases hn
  | fork api => exact hd.emit_map h fun n hn => Node.not_inTeam_fork hn hm
  | team api =>
    obtain ⟨forks, hforks, h⟩ := Except.bind_eq_ok.1 h
    refine hd.emitTeam (fun n hn => ?_) h
    obtain ⟨member, hmember, hfork⟩ := (Except.mem_mapM hforks).1 hn
    obtain ⟨k, -, rfl⟩ := List.mem_map.1 hmember
    exact ⟨_, Node.forkApi?_fork hfork, hm _⟩
  | task =>
    obtain ⟨entry, -, h⟩ := Except.bind_eq_ok.1 h
    refine hd.emit_map h fun n hn => ?_
    rw [Node.forkWithEntry_spec hn]
    refine Node.not_inTeam (fun api hapi => ?_) rfl
    cases hapi
    rfl
  | launch =>
    obtain ⟨forks, hforks, h⟩ := Except.bind_eq_ok.1 h
    cases h
    refine hd.emitAll fun n hn => ?_
    obtain ⟨thread, hthread, hfork⟩ := (Except.mem_mapM hforks).1 hn
    obtain ⟨block, -, hthread⟩ := List.mem_flatMap.1 hthread
    obtain ⟨k, -, rfl⟩ := List.mem_map.1 hthread
    exact Node.not_inTeam_fork hfork rfl

end Meaning

namespace Draft

/-- The nodes of an instruction are laid out. -/
theorem Laid.classify {p : Program} {s : Settings} {chain : Chain} {i : Instruction}
    {d e : Draft} (hd : d.Laid) (h : Draft.classify p s chain d i = .ok e) : e.Laid := by
  have hone : ∀ {x : Except Fault Node}, d.emit <$> x = .ok e →
      (∀ n, x = .ok n → n.forkApi? = none ∧ n.companionOf? = none) → e.Laid := by
    intro x hx hother
    refine hd.emit_map hx fun n hn => ?_
    obtain ⟨hfork, hjoin⟩ := hother n hn
    exact Node.not_inTeam_of_none hfork hjoin
  unfold Draft.classify at h
  split at h
  · refine hone h fun n hn => ?_
    unfold Node.load at hn
    split at hn <;> cases hn
    exact ⟨rfl, rfl⟩
  · refine hone h fun n hn => ?_
    unfold Node.store at hn
    split at hn <;> cases hn
    exact ⟨rfl, rfl⟩
  · split at h
    · next m hm =>
      obtain ⟨callee, -, hm⟩ := Option.bind_eq_some_iff.1 hm
      exact Meaning.emit_laid (Meaning.proper_of_chain hm) hd h
    · refine hone h fun n hn => ?_
      unfold Node.call at hn
      split at hn <;> cases hn
      exact ⟨rfl, rfl⟩
  · cases h
    exact hd

/-- The nodes of a body are laid out. -/
theorem Laid.classifyAll {p : Program} {s : Settings} {chain : Chain} {body : List Instruction}
    {d e : Draft} (hd : d.Laid) (h : Draft.classifyAll p s chain d body = .ok e) : e.Laid := by
  induction body generalizing d with
  | nil =>
    cases h
    exact hd
  | cons i body ih =>
    obtain ⟨d', hd', h⟩ := Except.bind_eq_ok.1 h
    exact ih (hd.classify hd') h

end Draft

/-! ### Sessions -/

namespace Session

variable {c : Subject} {s s' : Session}

/-- The nodes of all routines that were looked at are laid out. -/
def Orderly (s : Session) : Prop :=
  ∀ (f : String) ids, s.summaries[f]? = some ids → s.arena.Laid ids

/-- More nodes and the same routines. -/
theorem Orderly.mono (hs : s.Orderly) (harena : s.arena.Extends s'.arena)
    (hsummaries : s'.summaries = s.summaries) : s'.Orderly := by
  intro f ids hids
  rw [hsummaries] at hids
  exact (hs f ids hids).mono harena

/-- Nothing was looked at. -/
theorem Orderly.empty (threads : Array Thread) : Orderly { Session.empty with threads } := by
  intro f ids hids
  have hnone : (∅ : Std.HashMap String (List NodeId))[f]? = none := Std.HashMap.getElem?_empty
  exact nomatch hnone.symm.trans hids

/-- Sessions stay orderly when they look more up. -/
theorem Learns.orderly (h : s.Learns c s') (hs : s.Orderly) : s'.Orderly := by
  induction h with
  | refl => exact hs
  | trans _ _ ih₁ ih₂ => exact ih₂ (ih₁ hs)
  | @summary s s' f nodes h =>
    obtain ⟨-, -, -, rfl⟩ | ⟨-, ⟨-, -, rfl⟩ | ⟨r, d, -, hd, -, rfl⟩⟩ := summary_cases h
    · exact hs
    · exact hs
    · have hextends : s.arena.Extends d.arena :=
        Draft.foldlM_extends (fun _ _ _ => Draft.classify_extends) hd
      have hlaid : d.Laid := Draft.Laid.classifyAll (d := ⟨s.arena, []⟩) .nil hd
      intro g ids hids
      rw [Std.HashMap.getElem?_insert] at hids
      split at hids
      · cases hids
        exact hlaid
      · exact (hs g ids hids).mono hextends
  | answer => exact hs.mono (.refl _) rfl

/-- The nodes that a routine is answered with are laid out. -/
theorem Orderly.summary {f : String} {nodes : Option (List NodeId)} (hs : s.Orderly)
    (h : s.summary c f = .ok (nodes, s')) : s'.arena.Laid (nodes.getD []) := by
  obtain ⟨ids, hids, rfl, rfl⟩ | ⟨-, ⟨-, rfl, rfl⟩ | ⟨r, d, -, hd, rfl, rfl⟩⟩ := summary_cases h
  · exact hs f ids hids
  · exact .nil
  · exact Draft.Laid.classifyAll (d := ⟨s.arena, []⟩) .nil hd

end Session

end DataRace
