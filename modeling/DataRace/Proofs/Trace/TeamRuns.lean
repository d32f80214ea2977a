import DataRace.Proofs.Trace.TeamNodes
import DataRace.Proofs.Trace.Timely

/-!
# Teams start and end in one run

Wherever a build comes to, a thread has no children of forks that it still has to come to, for all
teams that it started before were joined (`Trace.Reaches.prompt`).  So when it executes a call that
starts a team, the forks make one fork event for each child, and then the joins, which find just
these children, make one join event for each of them in the same order
(`Trace.Executes.exists_run`).
-/

namespace DataRace

open Relation

variable {c : Subject} {r : Runtime}

/-! ### Children of forks to come -/

namespace Walk

variable {ancestry opened : List String} {id : NodeId} {n : Node} {rest : List NodeId}
  {w w' u v : Walk}

/-- No child that nobody joined is a member of a team whose fork is to come. -/
def Fresh (w : Walk) (ids : List NodeId) : Prop :=
  ∀ f ∈ w.self.unjoined, w.session.arena.OtherNode f.node ∨ f.node ∉ ids

/-- A clean thread has no members of teams. -/
theorem Clean.fresh (hw : w.Clean) (ids : List NodeId) : w.Fresh ids :=
  fun f hf => Or.inl (hw f hf)

/-- The children that a node adds are those of the node itself. -/
theorem Fresh.tail (hw : w.Fresh (id :: rest)) (hnew : id ∉ rest)
    (harena : w.session.arena.Extends w'.session.arena)
    (hunjoined : ∀ f ∈ w'.self.unjoined, f ∈ w.self.unjoined ∨ f.node = id) : w'.Fresh rest := by
  intro f hf
  rcases hunjoined f hf with hold | heq
  · exact (hw f hold).imp (fun hother => hother.mono harena)
      fun hnot hmem => hnot (List.mem_cons_of_mem _ hmem)
  · exact Or.inr (heq ▸ hnew)

/-- A node of a team leaves at most its own children in addition. -/
theorem unjoined_of_inTeam (hteam : n.InTeam) (hn : w.session.arena.get? id = some n)
    (hw : w.session.Orderly) (h : w.handle c r ancestry opened id n = .ok w') :
    ∀ f ∈ w'.self.unjoined, f ∈ w.self.unjoined ∨ f.node = id := by
  obtain ⟨site, effect⟩ := n
  rw [handle] at h
  cases effect with
  | fork api handle entry =>
    exact ((all_timely c r).2.2.2 ancestry opened id api handle (c.entryTargets entry)
      (w.meetFork id) w' ⟨_, entry, hn, rfl, fun _ ht => ht⟩ h hw).2.2
  | join api handle fork =>
    rcases hteam with ⟨api, hapi, -⟩ | ⟨fork, hfork⟩
    · cases hapi
    · cases hfork
      intro f hf
      rw [(joinCompanion_spec h).2.2.2.1] at hf
      exact Or.inl (List.mem_filter.1 hf).1
  | _ => rcases hteam with ⟨api, hapi, -⟩ | ⟨fork, hfork⟩ <;> contradiction

/-- Behind a node a thread is prepared for the nodes to come, and they are fresh to it. -/
theorem Prepared.next {opens : Bool} (hw : w.Prepared (id :: rest)) (hfresh : w.Fresh (id :: rest))
    (hnew : id ∉ rest) (hn : w.session.arena.get? id = some n)
    (hvisit : r.visit w.reach n opened.head? rest = .ok (opens, v))
    (hu : (if opens then v.handle c r ancestry opened id n else .ok v) = .ok u) :
    u.Prepared rest ∧ u.Fresh rest := by
  obtain ⟨hv, hready, hskip, hclean⟩ := hw.visit (c := c) hn hvisit
  have hn' := hv.grows.arena_extends id n hn
  by_cases hteam : n.InTeam
  -- At the nodes of a team the runtime does nothing.
  · rw [visit_of_inTeam hteam] at hvisit
    cases hvisit
    obtain ⟨hgrows, hawaits⟩ := (all_timely c r).2.1 _ _ _ _ _ rest u hn' hu hready hskip
    exact ⟨hready.tail hgrows.grows hawaits, hfresh.tail hnew hgrows.grows.arena_extends
      (unjoined_of_inTeam (w := w.reach) hteam hn' hready.orderly hu)⟩
  -- Anything else is met by a clean thread, as if nothing came behind it.
  · have hclean' : v.Clean := hready.awaits.clean_of_other hn' hteam
    have hu' : Timely c r v u ∧ u.Clean := by
      cases opens with
      | true =>
        obtain ⟨hgrows, hawaits⟩ := (all_timely c r).2.1 _ _ _ _ _ [] u hn' hu
          ⟨hready.orderly, .single hn' hteam, hclean'.awaits _⟩ hskip
        exact ⟨hgrows, hawaits.clean_of_nil⟩
      | false =>
        cases hu
        exact ⟨.refl _, hclean'⟩
    exact ⟨hready.tail hu'.1.grows (hu'.2.awaits rest), hu'.2.fresh rest⟩

end Walk

namespace Frame

variable {F G : Frame}

/-- A thread is prepared for its part of the walk, and has no children of forks to come. -/
def Prompt : Frame → Prop
  | nodes _ _ ids w => w.Prepared ids ∧ w.Fresh ids
  | node _ _ _ n w => ¬ n.InTeam → w.Clean
  | calls _ _ _ _ _ w => w.Clean
  | forks .. => True

/-- The sessions of the parts that a part asks for are orderly, too. -/
theorem Leads.orderly (h : Leads c r F G) (hF : F.Stands c) (hw : F.walk.session.Orderly) :
    G.walk.session.Orderly := by
  obtain hgrows | ⟨id, n, api, handle, source, entry, child, v, -, -, hbegin, hgrows⟩ := h.grows hF
  · exact hgrows.orderly hw
  · have hv : v.session.Orderly := Walk.beginFork_orderly hbegin hw
    exact hgrows.orderly hv

/-- The nodes to come are different. -/
theorem Seated.nodup (hF : F.Seated c) : F.ids.Nodup := by
  obtain ⟨hplaced, hnil | ⟨f, k, -, ids, hids, hrest⟩⟩ := hF
  · rw [hnil]
    exact List.nodup_nil
  · obtain ⟨base, rfl, -⟩ := hplaced.stretch f ids hids
    rw [hrest]
    exact List.Nodup.sublist (List.drop_sublist _ _) List.nodup_range'

/-- The parts that a part asks for are prompt, too. -/
theorem Leads.prompt (h : Leads c r F G) (horderly : F.walk.session.Orderly)
    (hnodup : F.ids.Nodup) (hF : F.Prompt) : G.Prompt := by
  cases h with
  | @pass _ _ id rest n w hn hskip =>
    obtain ⟨i, hi⟩ := Walk.exists_skipTo hskip
    exact ⟨hF.1.skip hi, hF.2.tail (List.nodup_cons.1 hnodup).1 (.refl _) fun f hf => Or.inl hf⟩
  | visit hn hskip hvisit =>
    obtain ⟨hv, hready, -⟩ := hF.1.visit (c := c) hn hvisit
    exact fun hteam => hready.awaits.clean_of_other (hv.grows.arena_extends _ _ hn) hteam
  | next hn hskip hvisit hu =>
    exact hF.1.next hF.2 (List.nodup_cons.1 hnodup).1 hn hvisit hu
  | fork => trivial
  | call heffect =>
    exact hF (Node.not_inTeam_of_none (by simp [Node.forkApi?, heffect])
      (by simp [Node.companionOf?, heffect]))
  | uncalled hsummary =>
    exact Walk.Clean.of_subset hF (Session.Learns.summary hsummary).extends.arena
      (List.Subset.refl _)
  | repeated hsummary _ hrepeated =>
    exact hF.asked hsummary hrepeated
  | @enter ancestry opened id args target targets w u nodes session hsummary _ hrepeated =>
    exact ⟨hF.prepared_called horderly hsummary hrepeated, (hF.asked hsummary hrepeated).fresh _⟩
  | @leave ancestry opened id args target targets w u v nodes session hsummary _ hrepeated hv =>
    exact (Walk.walk_timely hv (hF.prepared_called horderly hsummary hrepeated)).2
  | unstarted => trivial
  | start _ _ hbegin hsummary =>
    have hv := Walk.beginFork_orderly hbegin horderly
    exact ⟨Walk.prepared_start hv hsummary _ _, List.forall_mem_nil _⟩
  | ended => trivial

end Frame

/-- In all parts that a build comes to, threads have no children of forks to come. -/
theorem Trace.Reaches.prompt {F : Frame} (h : Reaches c r F) (hc : c.program.Distinct) :
    F.walk.session.Orderly ∧ F.Prompt := by
  induction h with
  | begins h =>
    obtain ⟨nodes, session, hsummary, rfl⟩ := h
    have hempty := Session.Orderly.empty #[Thread.new 0 c.settings.entry none none]
    have hprepared := Walk.prepared_start hempty hsummary 0 none
    exact ⟨hprepared.orderly, hprepared, List.forall_mem_nil _⟩
  | leads hF hFG _ ih =>
    exact ⟨hFG.orderly hF.stands ih.1, hFG.prompt ih.1 (hF.seated hc).nodup ih.2⟩

/-! ### Forks and joins of one team -/

/-- Threads in the order of their start, between two numbers of threads. -/
structure Ascends (low high : Nat) (children : List ThreadId) : Prop where
  sorted : children.Pairwise (· < ·)
  bounds : ∀ child ∈ children, low ≤ child ∧ child < high

/-- Later threads. -/
theorem Ascends.append {low mid high : Nat} {xs ys : List ThreadId} (hx : Ascends low mid xs)
    (hy : Ascends mid high ys) (hlow : low ≤ mid) (hhigh : mid ≤ high) :
    Ascends low high (xs ++ ys) where
  sorted := List.pairwise_append.2 ⟨hx.sorted, hy.sorted, fun x hmem y hmem' =>
    (hx.bounds x hmem).2.trans_le (hy.bounds y hmem').1⟩
  bounds child hmem := by
    rcases List.mem_append.1 hmem with hmem | hmem
    · exact ⟨(hx.bounds child hmem).1, (hx.bounds child hmem).2.trans_le hhigh⟩
    · exact ⟨hlow.trans (hy.bounds child hmem).1, (hy.bounds child hmem).2⟩

namespace Walk

variable {ancestry opened : List String} {id : NodeId} {n : Node} {rest : List NodeId}
  {w w' u v : Walk}

/-- What happened in the events of a thread. -/
def kinds (w : Walk) : List EventKind := w.self.events.toList.map Event.kind

/-- One more event. -/
theorem kinds_push {e : Event} (h : w'.self.events = w.self.events.push e) :
    w'.kinds = w.kinds ++ [e.kind] := by
  rw [kinds, h, Array.toList_push, List.map_append]
  rfl

/-- Children are started that nobody joined yet, one after the other. -/
structure Spawns (new : List Forked) (w w' : Walk) : Prop where
  kinds : w'.kinds = w.kinds ++ new.map fun f => .fork f.child
  unjoined : w'.self.unjoined = w.self.unjoined ++ new
  skipTo : w'.self.skipTo = w.self.skipTo ∨ w'.self.skipTo = none
  size_le : w.session.threads.size ≤ w'.session.threads.size
  ascends : Ascends w.session.threads.size w'.session.threads.size (new.map Forked.child)

namespace Spawns

/-- Nothing is started. -/
protected theorem refl (w : Walk) : Spawns [] w w where
  kinds := (List.append_nil _).symm
  unjoined := (List.append_nil _).symm
  skipTo := Or.inl rfl
  size_le := Nat.le_refl _
  ascends := ⟨.nil, List.forall_mem_nil _⟩

/-- Some children and then others. -/
protected theorem trans {new more : List Forked} (h : Spawns new w v) (h' : Spawns more v w') :
    Spawns (new ++ more) w w' where
  kinds := by rw [h'.kinds, h.kinds, List.append_assoc, List.map_append]
  unjoined := by rw [h'.unjoined, h.unjoined, List.append_assoc]
  skipTo := h'.skipTo.elim (fun heq => h.skipTo.imp heq.trans heq.trans) Or.inr
  size_le := h.size_le.trans h'.size_le
  ascends := by
    rw [List.map_append]
    exact h.ascends.append h'.ascends h.size_le h'.size_le

/-- One child, when it has ended. -/
theorem endFork {inner last : Walk} {target : String} {child : ThreadId} {api : ForkApi}
    (hbegin : w.beginFork id target = .ok (child, v))
    (hinner : WalksChild c r ancestry target (v.enterChild child api) inner)
    (hlast : r.finish inner = .ok last) (handle : Operand) :
    Spawns [⟨id, child, handle⟩] w (v.endFork r id api handle last.close) := by
  have hframe := (hinner.grows.trans (finish_grows hlast)).framed
  have hthread : last.close.self.thread = child := hframe.thread_eq
  have hchild := (beginFork_spec hbegin).1
  have hsize : w.session.threads.size < last.session.threads.size :=
    (Nat.lt_succ_self _).trans_le ((beginFork_size hbegin).ge.trans hframe.size_le)
  obtain ⟨-, hevents, hskip, hunjoined⟩ := endFork_spec hbegin r api handle last.close
  have hsession : (v.endFork r id api handle last.close).session.threads.size =
      last.session.threads.size := size_close last
  rw [hthread] at hunjoined
  refine ⟨kinds_push hevents, hunjoined, Or.inl hskip, ?_, ?_⟩
  · exact hsession ▸ hsize.le
  · refine ⟨List.pairwise_singleton _ _, fun k hk => ?_⟩
    rw [List.mem_singleton.1 hk, hsession, hchild]
    exact ⟨Nat.le_refl _, hsize⟩

end Spawns

/-- A fork starts children one after the other. -/
theorem exists_spawns {api : ForkApi} {operand : Operand} {entries : List String}
    (h : forkAll c r ancestry opened id api operand entries w = .ok w') :
    ∃ new, Spawns new w w' ∧ ∀ f ∈ new, f.node = id := by
  induction entries generalizing w with
  | nil =>
    rw [forkAll] at h
    cases h
    exact ⟨[], .refl _, List.forall_mem_nil _⟩
  | cons entry entries ih =>
    obtain ⟨-, h⟩ | ⟨-, -, child, v, inner, last, hbegin, hinner, hlast, h⟩ := forkAll_cons_ok h
    · exact ih h
    · obtain ⟨new, hnew, hnode⟩ := ih h
      exact ⟨_, (Spawns.endFork hbegin hinner hlast operand).trans hnew,
        List.forall_mem_cons.2 ⟨rfl, hnode⟩⟩

/-- A node of a team that is not passed over is handled at once, and then the others come. -/
theorem walk_cons_inTeam (hn : w.session.arena.get? id = some n) (hteam : n.InTeam)
    (hpass : w.isSkipped n = false)
    (h : w.walk c r ancestry opened (id :: rest) = .ok w') :
    ∃ u, w.reach.handle c r ancestry opened id n = .ok u ∧
      Frame.Goes c r (.nodes ancestry opened (id :: rest) w) (.nodes ancestry opened rest u) ∧
      Grows c r w u ∧ u.walk c r ancestry opened rest = .ok w' := by
  obtain ⟨n', hn', h⟩ := walk_cons_ok h
  cases hn.symm.trans hn'
  obtain ⟨hskip, -⟩ | ⟨-, opens, v, u, hvisit, hu, h⟩ := h
  · cases hpass.symm.trans hskip
  · have hgoes : Frame.Goes c r (.nodes ancestry opened (id :: rest) w)
        (.nodes ancestry opened rest u) :=
      ⟨⟨.next hn hpass hvisit hu, trivial⟩, _, _, _, _, _, _, rfl, rfl⟩
    have hgrows := Frame.grows_next hn hvisit hu
    rw [visit_of_inTeam hteam] at hvisit
    cases hvisit
    exact ⟨u, hu, hgoes, hgrows, h⟩

/-- A fork of a member of a team that is reached. -/
theorem exists_spawns_of_forksMember (hmember : n.ForksMember)
    (h : w.reach.handle c r ancestry opened id n = .ok w') :
    ∃ new, Spawns new w w' ∧ ∀ f ∈ new, f.node = id := by
  obtain ⟨api, hapi, -⟩ := hmember
  obtain ⟨site, effect⟩ := n
  rw [handle] at h
  cases effect with
  | fork api handle entry =>
    obtain ⟨new, hnew, hnode⟩ := exists_spawns h
    have hskip : w'.self.skipTo = none := hnew.skipTo.elim (fun h => h) fun h => h
    exact ⟨new, ⟨hnew.kinds, hnew.unjoined, Or.inr hskip, hnew.size_le, hnew.ascends⟩, hnode⟩
  | _ => cases hapi

/-- Children in groups, by the forks that started them. -/
def Grouped : List NodeId → List (List Forked) → Prop :=
  List.Forall₂ fun id new => ∀ f ∈ new, f.node = id

/-- None of the nodes is passed over. -/
def Halts (w : Walk) (ids : List NodeId) : Prop :=
  ∀ id ∈ ids, ∃ n, w.session.arena.get? id = some n ∧ w.isSkipped n = false

namespace Halts

variable {ids : List NodeId}

/-- A node that is there is not passed over. -/
theorem isSkipped_eq_false (h : w.Halts ids) (hid : id ∈ ids)
    (hn : w.session.arena.get? id = some n) : w.isSkipped n = false := by
  obtain ⟨n', hn', hpass⟩ := h id hid
  cases hn.symm.trans hn'
  exact hpass

/-- No more nodes are passed over when less is skipped. -/
theorem of_skipTo (h : w.Halts ids) (harena : w.session.arena.Extends w'.session.arena)
    (hskip : w'.self.skipTo = w.self.skipTo ∨ w'.self.skipTo = none) : w'.Halts ids := by
  intro id hid
  obtain ⟨n, hn, hpass⟩ := h id hid
  refine ⟨n, harena id n hn, ?_⟩
  rcases hskip with heq | hnone
  · unfold isSkipped at hpass ⊢
    rwa [heq]
  · exact isSkipped_of_none hnone n

/-- Some of the nodes. -/
theorem mono {ids' : List NodeId} (h : w.Halts ids) (hsubset : ids' ⊆ ids) : w.Halts ids' :=
  fun id hid => h id (hsubset hid)

end Halts

/-- A walk of the forks of members starts their children one after the other. -/
theorem exists_forked {forks : List NodeId}
    (hforks : ∀ fork ∈ forks, w.session.arena.TeamFork fork) (hhalts : w.Halts forks)
    (h : w.walk c r ancestry opened (forks ++ rest) = .ok w') :
    ∃ v groups, ReflTransGen (Frame.Goes c r) (.nodes ancestry opened (forks ++ rest) w)
        (.nodes ancestry opened rest v) ∧ Grows c r w v ∧
      v.walk c r ancestry opened rest = .ok w' ∧ Grouped forks groups ∧
      Spawns groups.flatten w v := by
  induction forks generalizing w with
  | nil => exact ⟨w, [], .refl, .refl w, h, .nil, .refl w⟩
  | cons id forks ih =>
    obtain ⟨n, hn, hmember⟩ := hforks id List.mem_cons_self
    obtain ⟨u, hu, hgoes, hgrows, h⟩ := walk_cons_inTeam hn (Or.inl hmember)
      (hhalts.isSkipped_eq_false List.mem_cons_self hn) h
    obtain ⟨new, hnew, hnode⟩ := exists_spawns_of_forksMember hmember hu
    have harena := hgrows.arena_extends
    obtain ⟨v, groups, hpath, hmore, h, hgroups, hspawns⟩ :=
      ih (fun fork hfork => (hforks fork (List.mem_cons_of_mem _ hfork)).mono harena)
        ((hhalts.mono (List.subset_cons_self id forks)).of_skipTo harena hnew.skipTo) h
    exact ⟨v, new :: groups, hpath.head hgoes, hgrows.trans hmore, h, .cons hnode hgroups,
      hnew.trans hspawns⟩

/-- A join that names a fork joins the children of the fork. -/
theorem handle_of_companion {fork : NodeId} (hfork : n.companionOf? = some fork)
    (h : w.handle c r ancestry opened id n = .ok w') : w.joinCompanion id n fork = .ok w' := by
  obtain ⟨site, effect⟩ := n
  cases effect with
  | join api operand fork' =>
    cases hfork
    rwa [handle] at h
  | _ => cases hfork

/-- What a companion join joins, in the order of its start. -/
theorem joinCompanion_kinds {fork : NodeId} (h : w.joinCompanion id n fork = .ok w') :
    w'.kinds = w.kinds ++
      (w.self.unjoined.filter fun f => f.node == fork).map fun f => .join (some f.child) := by
  have hfold : ∀ (due : List Forked) (v : Walk),
      (due.foldl (fun w f => w.record id (.join (some f.child))) v).kinds =
        v.kinds ++ due.map fun f => .join (some f.child) := by
    intro due
    induction due with
    | nil => exact fun v => (List.append_nil _).symm
    | cons f due ih =>
      intro v
      rw [List.foldl_cons, ih, kinds_push (w := v) rfl, List.append_assoc]
      rfl
  rw [joinCompanion] at h
  split at h
  · cases h
    exact hfold _ _
  · cases h

/-- A companion join joins the children of its fork and leaves the others. -/
theorem joinCompanion_between {fork : NodeId} {old new later : List Forked}
    (h : w.joinCompanion id n fork = .ok w') (hunjoined : w.self.unjoined = old ++ (new ++ later))
    (hnew : ∀ f ∈ new, f.node = fork) (hothers : ∀ f ∈ old ++ later, f.node ≠ fork) :
    w'.kinds = w.kinds ++ (new.map fun f => .join (some f.child)) ∧
      w'.self.unjoined = old ++ later := by
  obtain ⟨-, -, -, hkept, -⟩ := joinCompanion_spec h
  have hkinds := joinCompanion_kinds h
  rw [hunjoined] at hkinds hkept
  rw [filter_between (fun f hf => beq_iff_eq.2 (hnew f hf))
    (fun f hf => beq_eq_false_iff_ne.2 (hothers f hf))] at hkinds
  have hnone : new.filter (fun f => f.node != fork) = [] :=
    List.filter_eq_nil_iff.2 fun f hf => by simp [hnew f hf]
  have hall : (old ++ later).filter (fun f => f.node != fork) = old ++ later :=
    List.filter_eq_self.2 fun f hf => bne_iff_ne.2 (hothers f hf)
  rw [List.filter_append] at hall
  rw [List.filter_append, List.filter_append, hnone, List.nil_append, hall] at hkept
  exact ⟨hkinds, hkept⟩

/-- The forks that started the children of groups. -/
theorem Grouped.node_mem {forks : List NodeId} {groups : List (List Forked)}
    (h : Grouped forks groups) {f : Forked} (hf : f ∈ groups.flatten) : f.node ∈ forks := by
  induction h with
  | nil => cases hf
  | @cons id new forks groups hnode _ ih =>
    rw [List.flatten_cons, List.mem_append] at hf
    rcases hf with hf | hf
    · rw [hnode f hf]
      exact List.mem_cons_self
    · exact List.mem_cons_of_mem _ (ih hf)

/-- A walk of joins that name forks joins the children of the forks, group by group. -/
theorem exists_joined {forks joins : List NodeId} {groups : List (List Forked)} {old : List Forked}
    (hpaired : List.Forall₂ (fun fork join => ∃ n, w.session.arena.get? join = some n ∧
      n.companionOf? = some fork) forks joins)
    (hhalts : w.Halts joins) (hforks : forks.Nodup) (hgroups : Grouped forks groups)
    (hold : ∀ f ∈ old, f.node ∉ forks) (hunjoined : w.self.unjoined = old ++ groups.flatten)
    (h : w.walk c r ancestry opened (joins ++ rest) = .ok w') :
    ∃ u, ReflTransGen (Frame.Goes c r) (.nodes ancestry opened (joins ++ rest) w)
        (.nodes ancestry opened rest u) ∧ Grows c r w u ∧
      u.walk c r ancestry opened rest = .ok w' ∧ u.session = w.session ∧
      u.kinds = w.kinds ++ groups.flatten.map fun f => .join (some f.child) := by
  induction forks generalizing w joins groups with
  | nil =>
    cases hpaired
    cases hgroups
    exact ⟨w, .refl, .refl w, h, rfl, (List.append_nil _).symm⟩
  | cons fork forks ih =>
    cases hpaired with
    | @cons _ join _ joins hjoin hpaired =>
    cases hgroups with
    | @cons _ new _ groups hnode hgroups =>
    -- The first join finds just the first group; the other groups stay for the joins behind it.
    obtain ⟨hfork, hforks⟩ := List.nodup_cons.1 hforks
    obtain ⟨n, hn, hcompanion⟩ := hjoin
    obtain ⟨v, hv, hgoes, hgrows, h⟩ := walk_cons_inTeam hn (Or.inr ⟨fork, hcompanion⟩)
      (hhalts.isSkipped_eq_false List.mem_cons_self hn) h
    have hv' : w.reach.joinCompanion join n fork = .ok v := handle_of_companion hcompanion hv
    have hothers : ∀ f ∈ old ++ groups.flatten, f.node ≠ fork := by
      intro f hf heq
      rcases List.mem_append.1 hf with hf | hf
      · exact hold f hf (heq ▸ List.mem_cons_self)
      · exact hfork (heq ▸ Grouped.node_mem hgroups hf)
    obtain ⟨hsession, -, hskip, -⟩ := joinCompanion_spec hv'
    obtain ⟨hkinds, hleft⟩ := joinCompanion_between hv' hunjoined hnode hothers
    have hsame : v.session = w.session := hsession
    obtain ⟨u, hpath, hmore, h, hsession', hmorekinds⟩ := ih (hsame ▸ hpaired)
      ((hhalts.mono (List.subset_cons_self join joins)).of_skipTo hgrows.arena_extends
        (Or.inr hskip)) hforks hgroups
      (fun f hf hmem => hold f hf (List.mem_cons_of_mem _ hmem)) hleft h
    refine ⟨u, hpath.head hgoes, hgrows.trans hmore, h, hsession'.trans hsame, ?_⟩
    rw [hmorekinds, hkinds, List.flatten_cons, List.map_append, ← List.append_assoc]
    rfl

end Walk

/-- A thread that executes a call that starts a team makes a fork event for each child of the team,
and then a join event for each of them in the same order. -/
theorem Trace.Executes.exists_run {f : String} {i : Instruction} {ancestry opened : List String}
    {ids rest : List NodeId} {w w' : Walk} (h : Executes c r f i ancestry opened ids rest w)
    (hc : c.program.Distinct) (hteam : c.chain.StartsTeam i)
    (hrun : w.walk c r ancestry (f :: opened) (ids ++ rest) = .ok w') :
    ∃ u children, ReflTransGen (Frame.Goes c r) (.nodes ancestry (f :: opened) (ids ++ rest) w)
        (.nodes ancestry (f :: opened) rest u) ∧ Walk.Grows c r w u ∧
      u.walk c r ancestry (f :: opened) rest = .ok w' ∧
      Ascends w.session.threads.size u.session.threads.size children ∧
      u.kinds = w.kinds ++ (children.map .fork ++ children.map fun k => .join (some k)) := by
  obtain ⟨forks, joins, rfl, hteam⟩ := h.exists_team hc hteam
  have hhalts : w.Halts (forks ++ joins) := by
    intro id hid
    obtain ⟨n, hn, -, hpass⟩ := h.own id hid
    exact ⟨n, hn, hpass⟩
  have hold : ∀ f ∈ w.self.unjoined, f.node ∉ forks := by
    intro f hf hmem
    obtain hother | hnot := (h.reaches.prompt hc).2.2 f hf
    · exact hother.not_teamFork (hteam.teamFork _ hmem)
    · exact hnot (List.mem_append_left _ (List.mem_append_left _ hmem))
  rw [List.append_assoc] at hrun ⊢
  obtain ⟨v, groups, hpath, hgrows, hrun, hgroups, hspawns⟩ := Walk.exists_forked hteam.teamFork
    (hhalts.mono (List.subset_append_left _ _)) hrun
  have hpaired := hteam.paired.imp fun fork join hjoin => by
    obtain ⟨n, hn, hcompanion⟩ := hjoin
    exact (⟨n, hgrows.arena_extends join n hn, hcompanion⟩ : ∃ n,
      v.session.arena.get? join = some n ∧ n.companionOf? = some fork)
  obtain ⟨u, hpath', hgrows', hrun, hsession, hkinds⟩ := Walk.exists_joined hpaired
    ((hhalts.mono (List.subset_append_right _ _)).of_skipTo hgrows.arena_extends hspawns.skipTo)
    hteam.nodup hgroups hold hspawns.unjoined hrun
  refine ⟨u, groups.flatten.map Forked.child, hpath.trans hpath', hgrows.trans hgrows', hrun, ?_,
    ?_⟩
  · rw [hsession]
    exact hspawns.ascends
  · rw [hkinds, hspawns.kinds, List.map_map, List.map_map, List.append_assoc]
    rfl

end DataRace
