import DataRace.Proofs.Order.Closure
import DataRace.Proofs.Order.Members
import DataRace.Proofs.Trace.Origins
import DataRace.Proofs.Trace.Tree

/-!
# Barrier groups and launches

Two threads are launched together if one thread starts both by forks of one instruction and with one
team, and all its events in between are forks of that instruction (`Trace.LaunchedTogether`).  The
members of a trace have one key just if they are launched together
(`Trace.StartsMember.key_eq_iff`), so the barrier groups of a trace are the classes of this relation
with at least two threads.

Every thread of a group was started when its parent executed the instruction
(`Trace.LaunchedIn`).  A parent that executes it anew makes an event that is no fork in between, so
threads that were launched together were started in one execution (`Trace.LaunchedIn.frame_eq`).
-/

namespace DataRace

namespace Trace

variable {c : Subject} {t : Trace}

/-! ### Threads that are launched together -/

/-- A thread was started by an event of its parent, by a fork of an instruction and with a team. -/
def LaunchedAt (t : Trace) (i parent : ThreadId) (k : Nat) (inst : InstId) (team : Nat) : Prop :=
  ∃ th id n, t.threads[i]? = some th ∧ th.site = some ⟨parent, k⟩ ∧ th.fork = some id ∧
    t.arena.get? id = some n ∧ n.inst = inst ∧ n.forkApi? >>= ForkApi.team? = some team

/-- Two threads were started by one parent, by forks of one instruction and with one team, and all
events in between are forks of that instruction. -/
def LaunchedTogether (t : Trace) (i j : ThreadId) : Prop :=
  ∃ parent k l inst team, t.LaunchedAt i parent k inst team ∧ t.LaunchedAt j parent l inst team ∧
    ∀ x, min k l < x → x < max k l → t.ForksAt parent inst x

/-- A fork event is in a run. -/
theorem ForksAt.exists_runsFrom {i : ThreadId} {inst : InstId} {k : Nat} (h : t.ForksAt i inst k) :
    ∃ first, t.RunsFrom i inst first k := by
  induction k with
  | zero =>
    refine ⟨0, le_rfl, fun l _ hl => ?_, fun l hl => absurd hl (Nat.succ_ne_zero l)⟩
    rwa [Nat.le_zero.1 hl]
  | succ k ih =>
    have hself : ∀ l, k < l → l ≤ k + 1 → t.ForksAt i inst l :=
      fun l hlt hle => le_antisymm hle hlt ▸ h
    by_cases hbefore : t.ForksAt i inst k
    · obtain ⟨first, hrun⟩ := ih hbefore
      exact ⟨first, hrun.extend k.le_succ hself⟩
    · refine ⟨k + 1, le_rfl, hself, fun l hl => ?_⟩
      rwa [Nat.succ.inj hl]

/-- An event of the parent started a thread that was launched. -/
theorem launchedAt_iff (ht : t.WellFormed) {i parent : ThreadId} {k : Nat} {inst : InstId}
    {team : Nat} : t.LaunchedAt i parent k inst team ↔
      (∃ e n, t.event? ⟨parent, k⟩ = some e ∧ e.kind = .fork i ∧ t.arena.get? e.node = some n ∧
        n.inst = inst) ∧ t.spawnApi? i >>= ForkApi.team? = some team := by
  constructor
  · rintro ⟨th, id, n, hth, hsite, hfork, hn, hinst, hteam⟩
    have hpos : 0 < i := by
      refine Nat.pos_of_ne_zero fun hzero => ?_
      rw [ht.root th (hzero ▸ hth)] at hsite
      cases hsite
    obtain ⟨s, hs, -, e, he, hkind⟩ := ht.sited i th hth hpos
    cases hsite.symm.trans hs
    obtain ⟨-, th', hth', -, hnode⟩ := (ht.fits_event? he).fork i hkind
    cases hth.symm.trans hth'
    cases hfork.symm.trans hnode
    refine ⟨⟨e, n, he, hkind, hn, hinst⟩, ?_⟩
    rw [← hteam, spawnApi?, hth]
    simp only [Option.bind_eq_bind, Option.bind_some, hfork, hn]
  · rintro ⟨⟨e, n, he, hkind, hn, hinst⟩, hteam⟩
    obtain ⟨-, th, hth, hsite, hfork⟩ := (ht.fits_event? he).fork i hkind
    refine ⟨th, e.node, n, hth, hsite, hfork, hn, hinst, ?_⟩
    rw [← hteam, spawnApi?, hth]
    simp only [Option.bind_eq_bind, Option.bind_some, hfork, hn]

/-- A member is a thread that was launched, with its run. -/
theorem startsMember_iff (ht : t.WellFormed) {m : Member} {k : Nat} :
    t.StartsMember m k ↔ ∃ inst, t.LaunchedAt m.thread m.parent k inst m.team ∧
      t.RunsFrom m.parent inst m.first k := by
  simp only [launchedAt_iff ht]
  constructor
  · rintro ⟨⟨e, n, he, hkind, hn, hrun⟩, hteam⟩
    exact ⟨n.inst, ⟨⟨e, n, he, hkind, hn, rfl⟩, hteam⟩, hrun⟩
  · rintro ⟨inst, ⟨⟨e, n, he, hkind, hn, rfl⟩, hteam⟩, hrun⟩
    exact ⟨⟨e, n, he, hkind, hn, hrun⟩, hteam⟩

/-- A thread that was launched is that of a member. -/
theorem LaunchedAt.exists_member (ht : t.WellFormed) {i parent : ThreadId} {k : Nat}
    {inst : InstId} {team : Nat} (h : t.LaunchedAt i parent k inst team) :
    ∃ first, t.RunsFrom parent inst first k ∧ t.StartsMember ⟨parent, first, team, i⟩ k := by
  obtain ⟨⟨e, n, he, hkind, hn, hinst⟩, -⟩ := (launchedAt_iff ht).1 h
  obtain ⟨first, hrun⟩ := ForksAt.exists_runsFrom ⟨e, n, he, ⟨i, hkind⟩, hn, hinst⟩
  exact ⟨first, hrun, (startsMember_iff ht).2 ⟨inst, h, hrun⟩⟩

/-- A thread was launched once. -/
theorem LaunchedAt.unique {i parent parent' : ThreadId} {k k' : Nat} {inst inst' : InstId}
    {team team' : Nat} (h : t.LaunchedAt i parent k inst team)
    (h' : t.LaunchedAt i parent' k' inst' team') :
    parent = parent' ∧ k = k' ∧ inst = inst' ∧ team = team' := by
  obtain ⟨th, id, n, hth, hsite, hfork, hn, rfl, hteam⟩ := h
  obtain ⟨th', id', n', hth', hsite', hfork', hn', rfl, hteam'⟩ := h'
  cases hth.symm.trans hth'
  cases hsite.symm.trans hsite'
  cases hfork.symm.trans hfork'
  cases hn.symm.trans hn'
  exact ⟨rfl, rfl, rfl, Option.some.inj (hteam.symm.trans hteam')⟩

namespace StartsMember

variable {m m' : Member} {k k' : Nat}

/-- A thread is that of one member. -/
theorem unique (ht : t.WellFormed) (h : t.StartsMember m k) (h' : t.StartsMember m' k')
    (hthread : m.thread = m'.thread) : m = m' ∧ k = k' := by
  obtain ⟨parent, first, team, thread⟩ := m
  obtain ⟨parent', first', team', thread'⟩ := m'
  obtain rfl : thread = thread' := hthread
  obtain ⟨inst, hlaunched, hrun⟩ := (startsMember_iff ht).1 h
  obtain ⟨inst', hlaunched', hrun'⟩ := (startsMember_iff ht).1 h'
  obtain ⟨rfl, rfl, rfl, rfl⟩ : parent = parent' ∧ k = k' ∧ inst = inst' ∧ team = team' :=
    hlaunched.unique hlaunched'
  obtain rfl : first = first' := hrun.unique hrun'
  exact ⟨rfl, rfl⟩

/-- Members with one key are those whose threads were launched together. -/
theorem key_eq_iff (ht : t.WellFormed) (h : t.StartsMember m k) (h' : t.StartsMember m' k') :
    m.key = m'.key ↔ t.LaunchedTogether m.thread m'.thread := by
  obtain ⟨inst, hlaunched, hrun⟩ := (startsMember_iff ht).1 h
  obtain ⟨inst', hlaunched', hrun'⟩ := (startsMember_iff ht).1 h'
  obtain ⟨parent, first, team, thread⟩ := m
  obtain ⟨parent', first', team', thread'⟩ := m'
  dsimp only at hlaunched hlaunched' hrun hrun' ⊢
  constructor
  · intro hkey
    obtain ⟨rfl, hkey⟩ := Prod.mk.inj hkey
    obtain ⟨rfl, rfl⟩ : first = first' ∧ team = team' := Prod.mk.inj hkey
    -- Both runs begin with one event, so they are of one instruction.
    obtain ⟨e, n, he, -, hn, rfl⟩ := hrun.forks first le_rfl hrun.le
    obtain rfl : n.inst = inst' := ((hrun'.forks first le_rfl hrun'.le).inst_eq he hn).2
    refine ⟨parent, k, k', n.inst, team, hlaunched, hlaunched', fun x hlt hgt => ?_⟩
    have hfirst : first ≤ x := (le_min hrun.le hrun'.le).trans hlt.le
    rcases lt_max_iff.1 hgt with hk | hk
    · exact hrun.forks x hfirst hk.le
    · exact hrun'.forks x hfirst hk.le
  · rintro ⟨parent₀, l, l', inst₀, team₀, hat, hat', hbetween⟩
    obtain ⟨rfl, rfl, rfl, rfl⟩ := hlaunched.unique hat
    obtain ⟨rfl, rfl, rfl, rfl⟩ := hlaunched'.unique hat'
    -- The run of the earlier event goes on to the later one.
    have hextend : ∀ {first first' k k' : Nat}, t.RunsFrom parent' inst' first k →
        t.RunsFrom parent' inst' first' k' → k ≤ k' →
        (∀ x, k < x → x < k' → t.ForksAt parent' inst' x) → first = first' := by
      intro first first' k k' hrun hrun' hle hforks
      refine (hrun.extend hle fun x hlt hx => ?_).unique hrun'
      rcases Nat.eq_or_lt_of_le hx with rfl | hx
      · exact hrun'.forks x hrun'.le le_rfl
      · exact hforks x hlt hx
    have hfirst : first = first' := by
      rcases le_total k k' with hle | hle
      · rw [min_eq_left hle, max_eq_right hle] at hbetween
        exact hextend hrun hrun' hle hbetween
      · rw [min_eq_right hle, max_eq_left hle] at hbetween
        exact (hextend hrun' hrun hle hbetween).symm
    rw [Member.key, Member.key, hfirst]

end StartsMember

/-! ### All members -/

/-- The members of a trace, in an order that suits their threads. -/
structure Enlists (t : Trace) (members : List Member) : Prop where
  mem : ∀ m, m ∈ members ↔ ∃ k, t.StartsMember m k
  nodup : (members.map Member.thread).Nodup
  ascending : members.Pairwise fun m m' => m.parent = m'.parent → m.thread < m'.thread

/-- The members that all threads start. -/
theorem enlists (hbuild : build c = .ok t) {lists : List (List Member)}
    (h : List.Forall₂ (fun (th : Thread) l => t.membersFrom none th.events.toList = .ok l)
      t.threads.toList lists) : t.Enlists lists.flatten := by
  have ht := build_wellFormed hbuild
  obtain ⟨hmem, hsorted⟩ := members_spec ht h
  refine ⟨hmem, ?_, hsorted.imp fun {m m'} hstarts hparent => ?_⟩
  · refine List.pairwise_map.2 (hsorted.imp_of_mem fun {m m'} hm hm' hstarts hthread => ?_)
    obtain ⟨k, hstart⟩ := (hmem m).1 hm
    obtain ⟨k', hstart'⟩ := (hmem m').1 hm'
    obtain ⟨rfl, -⟩ := hstart.unique ht hstart' hthread
    obtain ⟨l, l', hlt, hl, hl'⟩ := hstarts rfl
    exact absurd (hl.unique ht hl' rfl).2 hlt.ne
  · obtain ⟨l, l', hlt, hl, hl'⟩ := hstarts hparent
    obtain ⟨e, -, he, hkind, -⟩ := hl.event
    obtain ⟨e', -, he', hkind', -⟩ := hl'.event
    obtain ⟨th, hth, hget⟩ := event?_eq_some_iff.1 he
    obtain ⟨th', hth', hget'⟩ := event?_eq_some_iff.1 he'
    cases (hparent ▸ hth).symm.trans hth'
    exact (build_begets hbuild hth).lt hlt hget hkind hget' hkind'

end Trace

namespace Grouping

variable {members : List Member} {gs : List (List Member)}

/-- Members stand in one group just if they have one key. -/
theorem exists_mem_iff (h : Grouping members gs) {m m' : Member} (hm : m ∈ members)
    (hm' : m' ∈ members) : (∃ g ∈ gs, m ∈ g ∧ m' ∈ g) ↔ m.key = m'.key := by
  constructor
  · rintro ⟨g, hg, hin, hin'⟩
    exact h.key_eq g hg m hin m' hin'
  · intro hkey
    obtain ⟨g, hg, hin⟩ := List.mem_flatten.1 (h.perm.mem_iff.2 hm)
    obtain ⟨g', hg', hin'⟩ := List.mem_flatten.1 (h.perm.mem_iff.2 hm')
    have : Std.Symm fun g g' : List Member => ∀ m ∈ g, ∀ m' ∈ g', m.key ≠ m'.key :=
      ⟨fun _ _ hne m hm m' hm' => (hne m' hm' m hm).symm⟩
    have heq : g = g' := by
      by_contra hne
      exact h.key_ne.forall hg hg' hne m hin m' hin' hkey
    exact ⟨g, hg, hin, heq ▸ hin'⟩

/-- The threads of the groups are different. -/
theorem pairwise_disjoint (h : Grouping members gs) (hnodup : (members.map Member.thread).Nodup) :
    (gs.map (List.map Member.thread)).Pairwise List.Disjoint := by
  have hflat : (gs.map (List.map Member.thread)).flatten.Nodup := by
    rw [← List.map_flatten]
    exact (h.perm.map Member.thread).nodup_iff.2 hnodup
  exact (List.nodup_flatten.1 hflat).2

/-- The threads of a group ascend. -/
theorem pairwise_lt (h : Grouping members gs)
    (hascending : members.Pairwise fun m m' => m.parent = m'.parent → m.thread < m'.thread)
    {g : List Member} (hg : g ∈ gs) : (g.map Member.thread).Pairwise (· < ·) := by
  refine List.pairwise_map.2 ((hascending.sublist (h.sublist g hg)).imp_of_mem ?_)
  exact fun hm hm' hlt => hlt (congrArg Prod.fst (h.key_eq g hg _ hm _ hm'))

end Grouping

namespace Trace

variable {c : Subject} {t : Trace} {groups : List (List ThreadId)}

/-- Barrier groups are the groups of members with at least two threads, ordered by their first
ones. -/
theorem exists_grouping (hbuild : build c = .ok t) (h : t.barrierGroups = .ok groups) :
    ∃ members gs, t.Enlists members ∧ Grouping members gs ∧
      groups.Perm ((gs.map (List.map Member.thread)).filter fun g => decide (1 < g.length)) ∧
      groups.Pairwise fun g g' => g.headD 0 ≤ g'.headD 0 := by
  obtain ⟨lists, hlists, rfl⟩ := barrierGroups_ok h
  refine ⟨_, _, enlists hbuild hlists, .foldl _, List.mergeSort_perm _ _, ?_⟩
  refine (List.pairwise_mergeSort (fun a b d hab hbd => ?_) (fun a b => ?_) _).imp of_decide_eq_true
  · exact decide_eq_true ((of_decide_eq_true hab).trans (of_decide_eq_true hbd))
  · rw [Bool.or_eq_true, decide_eq_true_eq, decide_eq_true_eq]
    exact le_total _ _

/-- Barrier groups have no thread in common. -/
theorem disjoint_barrierGroups (hbuild : build c = .ok t) (h : t.barrierGroups = .ok groups) :
    groups.Pairwise List.Disjoint := by
  obtain ⟨members, gs, hmembers, hgs, hperm, -⟩ := exists_grouping hbuild h
  refine (List.Perm.pairwise_iff (fun hdisjoint => hdisjoint.symm) hperm).2 ?_
  exact (hgs.pairwise_disjoint hmembers.nodup).filter _

/-- Barrier groups have at least two threads, in ascending order. -/
theorem pairwise_lt_of_mem_barrierGroups (hbuild : build c = .ok t)
    (h : t.barrierGroups = .ok groups) {g : List ThreadId} (hg : g ∈ groups) :
    1 < g.length ∧ g.Pairwise (· < ·) := by
  obtain ⟨members, gs, hmembers, hgs, hperm, -⟩ := exists_grouping hbuild h
  obtain ⟨hmem, hlength⟩ := List.mem_filter.1 (hperm.subset hg)
  obtain ⟨g, hin, rfl⟩ := List.mem_map.1 hmem
  exact ⟨of_decide_eq_true hlength, hgs.pairwise_lt hmembers.ascending hin⟩

/-- Barrier groups ascend by their first threads. -/
theorem headD_lt_barrierGroups (hbuild : build c = .ok t) (h : t.barrierGroups = .ok groups) :
    groups.Pairwise fun g g' => g.headD 0 < g'.headD 0 := by
  obtain ⟨-, -, -, -, -, hsorted⟩ := exists_grouping hbuild h
  refine (hsorted.and (disjoint_barrierGroups hbuild h)).imp_of_mem ?_
  rintro g g' hg hg' ⟨hle, hdisjoint⟩
  have hhead : ∀ {g : List ThreadId}, g ∈ groups → g.headD 0 ∈ g := by
    intro g hg
    have hlength := (pairwise_lt_of_mem_barrierGroups hbuild h hg).1
    match g with
    | [] => exact absurd hlength (Nat.not_lt_zero 1)
    | i :: _ => exact List.mem_cons_self
  refine Nat.lt_of_le_of_ne hle fun heq => ?_
  exact hdisjoint (hhead hg) (heq ▸ hhead hg')

/-- A list of two different threads has at least two entries. -/
theorem one_lt_length {i j : ThreadId} {is : List ThreadId} (hi : i ∈ is) (hj : j ∈ is)
    (hne : i ≠ j) : 1 < is.length := by
  obtain ⟨k, hk, rfl⟩ := List.mem_iff_getElem.1 hi
  obtain ⟨l, hl, rfl⟩ := List.mem_iff_getElem.1 hj
  have : k ≠ l := fun heq => hne (by subst heq; rfl)
  omega

/-- Threads of one barrier group were launched together. -/
theorem launchedTogether_of_mem (hbuild : build c = .ok t) (h : t.barrierGroups = .ok groups)
    {g : List ThreadId} (hg : g ∈ groups) {i j : ThreadId} (hi : i ∈ g) (hj : j ∈ g) :
    t.LaunchedTogether i j := by
  obtain ⟨members, gs, hmembers, hgs, hperm, -⟩ := exists_grouping hbuild h
  obtain ⟨g, hmem, rfl⟩ := List.mem_map.1 (List.mem_filter.1 (hperm.subset hg)).1
  obtain ⟨m, hm, rfl⟩ := List.mem_map.1 hi
  obtain ⟨m', hm', rfl⟩ := List.mem_map.1 hj
  obtain ⟨k, hstart⟩ := (hmembers.mem m).1 ((hgs.sublist g hmem).subset hm)
  obtain ⟨k', hstart'⟩ := (hmembers.mem m').1 ((hgs.sublist g hmem).subset hm')
  exact (hstart.key_eq_iff (build_wellFormed hbuild) hstart').1 (hgs.key_eq g hmem m hm m' hm')

/-- Different threads are in one barrier group just if they were launched together. -/
theorem exists_barrierGroup_iff (hbuild : build c = .ok t) (h : t.barrierGroups = .ok groups)
    {i j : ThreadId} (hne : i ≠ j) :
    (∃ g ∈ groups, i ∈ g ∧ j ∈ g) ↔ t.LaunchedTogether i j := by
  have ht := build_wellFormed hbuild
  refine ⟨fun ⟨g, hg, hi, hj⟩ => launchedTogether_of_mem hbuild h hg hi hj, fun htogether => ?_⟩
  obtain ⟨members, gs, hmembers, hgs, hperm, -⟩ := exists_grouping hbuild h
  obtain ⟨parent, k, l, inst, team, hi, hj, -⟩ := id htogether
  obtain ⟨first, -, hstart⟩ := hi.exists_member ht
  obtain ⟨first', -, hstart'⟩ := hj.exists_member ht
  obtain ⟨g, hg, hm, hm'⟩ := (hgs.exists_mem_iff ((hmembers.mem _).2 ⟨k, hstart⟩)
    ((hmembers.mem _).2 ⟨l, hstart'⟩)).2 ((hstart.key_eq_iff ht hstart').2 htogether)
  have hi' : i ∈ g.map Member.thread := List.mem_map.2 ⟨_, hm, rfl⟩
  have hj' : j ∈ g.map Member.thread := List.mem_map.2 ⟨_, hm', rfl⟩
  have hlength := decide_eq_true (one_lt_length hi' hj' hne)
  exact ⟨_, hperm.mem_iff.2 (List.mem_filter.2 ⟨List.mem_map.2 ⟨g, hg, rfl⟩, hlength⟩), hi', hj'⟩

/-! ### Executions -/

/-- A thread was started when another executed an instruction of a routine, beginning with a part of
its walk. -/
def LaunchedIn (c : Subject) (t : Trace) (f : String) (i : Instruction) (F : Frame)
    (child : ThreadId) : Prop :=
  ∃ ancestry opened ids rest w k, F = .nodes ancestry (f :: opened) (ids ++ rest) w ∧
    Executes c (Runtime.ofProgram c.program c.settings.runtime) f i ancestry opened ids rest w ∧
    Launches c (Runtime.ofProgram c.program c.settings.runtime) t ancestry (f :: opened) ids rest w
      k child

/-- A thread that was launched was started in an execution. -/
theorem LaunchedAt.exists_launchedIn (hbuild : build c = .ok t) (hc : c.program.Distinct)
    {child parent : ThreadId} {k : Nat} {inst : InstId} {team : Nat}
    (h : t.LaunchedAt child parent k inst team) : ∃ f i F, LaunchedIn c t f i F child := by
  obtain ⟨⟨e, n, he, hkind, -⟩, -⟩ := (launchedAt_iff (build_wellFormed hbuild)).1 h
  obtain ⟨f, i, ancestry, opened, ids, rest, w, hexecutes, -, hlaunches⟩ :=
    exists_launches hbuild hc he hkind
  exact ⟨f, i, _, ancestry, opened, ids, rest, w, k, rfl, hexecutes, hlaunches⟩

namespace LaunchedIn

variable {f : String} {i : Instruction} {F F' : Frame} {child child' : ThreadId}

/-- The instruction that was executed is that of the fork, and an instruction of the routine. -/
theorem executed (h : LaunchedIn c t f i F child) (hbuild : build c = .ok t) {parent : ThreadId}
    {k : Nat} {inst : InstId} {team : Nat} (hat : t.LaunchedAt child parent k inst team) :
    i.id = inst ∧ ∃ routine, c.program.definition? f = some routine ∧ i ∈ routine.body := by
  have ht := build_wellFormed hbuild
  obtain ⟨ancestry, opened, ids, rest, w, l, -, hexecutes, hlaunches⟩ := h
  obtain ⟨e, he, hkind, hmem⟩ := hlaunches.event
  obtain ⟨⟨e', n', he', hkind', hn', rfl⟩, -⟩ := (launchedAt_iff ht).1 hat
  cases ht.fork_unique he he' hkind hkind'
  cases he.symm.trans he'
  obtain ⟨u, hu, hlasts⟩ := hexecutes.reaches.runs hbuild
  have hw : w.Lasts t := (Walk.walk_grows hu).within.lasts hlasts
  obtain ⟨n, hn, hinst, -⟩ := hexecutes.own e.node hmem
  cases hn'.symm.trans (hw.under.arena _ _ hn)
  exact ⟨hinst.symm, hexecutes.body⟩

/-- Threads that were launched together were started in one execution of their instruction. -/
theorem frame_eq (h : LaunchedIn c t f i F child) (h' : LaunchedIn c t f i F' child')
    (hbuild : build c = .ok t) (hc : c.program.Distinct)
    (htogether : t.LaunchedTogether child child') : F = F' := by
  have ht := build_wellFormed hbuild
  obtain ⟨ancestry, opened, ids, rest, w, k, rfl, hexecutes, hlaunches⟩ := h
  obtain ⟨ancestry', opened', ids', rest', w', k', rfl, hexecutes', hlaunches'⟩ := h'
  obtain ⟨parent, l, l', inst, team, hat, hat', hbetween⟩ := htogether
  obtain ⟨e, he, hkind, -⟩ := hlaunches.event
  obtain ⟨e', he', hkind', -⟩ := hlaunches'.event
  obtain ⟨⟨d, -, hd, hdkind, -⟩, -⟩ := (launchedAt_iff ht).1 hat
  obtain ⟨⟨d', -, hd', hdkind', -⟩, -⟩ := (launchedAt_iff ht).1 hat'
  obtain ⟨rfl, rfl⟩ : w.self.thread = parent ∧ k = l :=
    EventRef.mk.inj (ht.fork_unique he hd hkind hdkind)
  obtain ⟨hthread, rfl⟩ : w'.self.thread = w.self.thread ∧ k' = l' :=
    EventRef.mk.inj (ht.fork_unique he' hd' hkind' hdkind')
  -- Between events of different executions stands one that is no fork.
  by_contra hne
  rcases le_total k k' with hle | hle
  · obtain ⟨x, ex, hlt, hgt, hx, hother⟩ :=
      hexecutes.exists_between hbuild hc hexecutes' hne hlaunches hlaunches' hthread hle
    rw [min_eq_left hle, max_eq_right hle] at hbetween
    obtain ⟨ex', -, hx', hfork, -⟩ := hbetween x hlt hgt
    cases hx.symm.trans hx'
    exact hother hfork
  · obtain ⟨x, ex, hlt, hgt, hx, hother⟩ := hexecutes'.exists_between hbuild hc hexecutes
      (Ne.symm hne) hlaunches' hlaunches hthread.symm hle
    rw [min_eq_right hle, max_eq_left hle] at hbetween
    obtain ⟨ex', -, hx', hfork, -⟩ := hbetween x hlt hgt
    rw [hthread] at hx
    cases hx.symm.trans hx'
    exact hother hfork

end LaunchedIn

/-- The threads of a barrier group were started in one execution of one instruction. -/
theorem exists_launchedIn_of_mem {name : String} {routines : List Routine}
    (hprogram : Program.ofRoutines name routines = .ok c.program) (hbuild : build c = .ok t)
    (h : t.barrierGroups = .ok groups) {g : List ThreadId} (hg : g ∈ groups) :
    ∃ f i F, ∀ child ∈ g, LaunchedIn c t f i F child := by
  have hc := Program.distinct_of_ofRoutines hprogram
  obtain ⟨hlength, -⟩ := pairwise_lt_of_mem_barrierGroups hbuild h hg
  obtain ⟨first, hfirst⟩ := List.exists_mem_of_length_pos (Nat.zero_lt_of_lt hlength)
  obtain ⟨parent₀, k₀, l₀, inst₀, team₀, hat, -⟩ :=
    launchedTogether_of_mem hbuild h hg hfirst hfirst
  obtain ⟨f, i, F, hF⟩ := hat.exists_launchedIn hbuild hc
  refine ⟨f, i, F, fun child hchild => ?_⟩
  have htogether := launchedTogether_of_mem hbuild h hg hfirst hchild
  obtain ⟨parent, k, l, inst, team, hfirst', hchild', -⟩ := id htogether
  obtain ⟨f', i', F', hF'⟩ := hchild'.exists_launchedIn hbuild hc
  -- Both executions are of one instruction, which is in one routine.
  obtain ⟨hinst, routine, hdef, hi⟩ := hF.executed hbuild hfirst'
  obtain ⟨hinst', routine', hdef', hi'⟩ := hF'.executed hbuild hchild'
  obtain rfl : i = i' := Program.identifies_of_ofRoutines hprogram i i' ⟨f, routine, hdef, hi⟩
    ⟨f', routine', hdef', hi'⟩ (hinst.trans hinst'.symm)
  obtain rfl : f = f' := Program.routine_unique_of_ofRoutines hprogram hdef hi hdef' hi'
  exact hF.frame_eq hF' hbuild hc htogether ▸ hF'

end Trace

namespace HappensBefore

variable {c : Subject} {t : Trace}

open Trace

/-- The barrier groups of every trace that is built are disjoint, have at least two threads in
ascending order, and ascend by their first threads.  Two threads are in one group just if they were
launched together.  Each group was started in one execution of one instruction, and threads that
different executions start are never in one group. -/
theorem groups_launched (hbuild : Trace.build c = .ok t) :
    ∃ o, ofTrace t = .ok o ∧ t.barrierGroups = .ok o.groups ∧
      o.groups.Pairwise List.Disjoint ∧
      (∀ g ∈ o.groups, 1 < g.length ∧ g.Pairwise (· < ·)) ∧
      (o.groups.Pairwise fun g g' => g.headD 0 < g'.headD 0) ∧
      (∀ i j, i ≠ j → ((∃ g ∈ o.groups, i ∈ g ∧ j ∈ g) ↔ t.LaunchedTogether i j)) ∧
      ∀ name routines, Program.ofRoutines name routines = .ok c.program →
        (∀ g ∈ o.groups, ∃ f i F, ∀ child ∈ g, LaunchedIn c t f i F child) ∧
        ∀ f i F F' child child', LaunchedIn c t f i F child → LaunchedIn c t f i F' child' →
          F ≠ F' → ∀ g ∈ o.groups, child ∈ g → child' ∉ g := by
  obtain ⟨o, ho, hordered⟩ := exists_ordered (Trace.build_wellFormed hbuild)
  have hgroups := hordered.groups
  refine ⟨o, ho, hgroups, disjoint_barrierGroups hbuild hgroups,
    fun g hg => pairwise_lt_of_mem_barrierGroups hbuild hgroups hg,
    headD_lt_barrierGroups hbuild hgroups, fun i j => exists_barrierGroup_iff hbuild hgroups, ?_⟩
  intro name routines hprogram
  refine ⟨fun g hg => exists_launchedIn_of_mem hprogram hbuild hgroups hg, ?_⟩
  intro f i F F' child child' hF hF' hne g hg hchild hchild'
  exact hne (hF.frame_eq hF' hbuild (Program.distinct_of_ofRoutines hprogram)
    (launchedTogether_of_mem hbuild hgroups hg hchild hchild'))

/-- The main thread launches both members of its team together, in one execution. -/
theorem groups_teamTask : Trace.build TeamTask.subject = .ok TeamTask.trace ∧
    ∃ o, ofTrace TeamTask.trace = .ok o ∧ ∃ g ∈ o.groups, 1 ∈ g ∧ 3 ∈ g ∧
      ∃ f i F, LaunchedIn TeamTask.subject TeamTask.trace f i F 1 ∧
        LaunchedIn TeamTask.subject TeamTask.trace f i F 3 := by
  obtain ⟨o, ho, -, -, -, -, hiff, hexecuted⟩ := groups_launched TeamTask.build_eq
  have htogether : TeamTask.trace.LaunchedTogether 1 3 := by
    refine ⟨0, 0, 1, ⟨0⟩, 0, ⟨_, 0, _, rfl, rfl, rfl, rfl, rfl, rfl⟩,
      ⟨_, 1, _, rfl, rfl, rfl, rfl, rfl, rfl⟩, fun x hlt hgt => ?_⟩
    exact absurd hgt (Nat.not_lt.2 hlt)
  have hprogram : Program.ofRoutines "teamtask" [TeamTask.main, TeamTask.body, TeamTask.task] =
      .ok TeamTask.subject.program :=
    Program.ofRoutines_eq_ok_iff_nodup.2 ⟨by decide, by decide, rfl⟩
  obtain ⟨g, hg, hone, hthree⟩ := (hiff 1 3 (by decide)).2 htogether
  obtain ⟨f, i, F, hall⟩ := (hexecuted _ _ hprogram).1 g hg
  exact ⟨TeamTask.build_eq, o, ho, g, hg, hone, hthree, f, i, F, hall 1 hone, hall 3 hthree⟩

end HappensBefore

end DataRace
