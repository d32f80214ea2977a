import DataRace.Proofs.Order.Groups

/-!
# Members of barrier groups

The members that a thread starts come from its runs of fork events.  A run consists of forks of one
instruction, and no such fork stands before it (`Trace.RunsFrom`).  The scan of the events keeps the
run that ends just before the next event (`Trace.Scanned`), so it finds exactly the children that
were started with a team, each with the first event of its run (`Trace.membersFrom_spec`).

Members are put together by parent, run and team (`Grouping`).  So the threads of one barrier group
were started by one thread within one run of forks (`Trace.barrierGroups_spec`).
-/

namespace DataRace

/-! ### Members that belong together -/

/-- What the members of a group have in common: their parent, their run and their team. -/
def Member.key (m : Member) : ThreadId × Nat × Nat := (m.parent, m.first, m.team)

/-- Members with one key belong together. -/
theorem Member.sameGroup_iff {m m' : Member} : m.sameGroup m' = true ↔ m.key = m'.key := by
  simp [sameGroup, key, and_assoc]

/-- Members stand in groups by their keys, in the order in which they came. -/
structure Grouping (members : List Member) (gs : List (List Member)) : Prop where
  perm : gs.flatten.Perm members
  sublist : ∀ g ∈ gs, g.Sublist members
  key_eq : ∀ g ∈ gs, ∀ m ∈ g, ∀ m' ∈ g, m.key = m'.key
  key_ne : gs.Pairwise fun g g' => ∀ m ∈ g, ∀ m' ∈ g', m.key ≠ m'.key

namespace Trace

variable {gs : List (List Member)} {m m' : Member} {g : List Member}

/-- The members of the groups with one more member. -/
theorem flatten_addMember (gs : List (List Member)) (m : Member) :
    (addMember gs m).flatten.Perm (gs.flatten ++ [m]) := by
  induction gs with
  | nil => rfl
  | cons g gs ih =>
    rw [addMember]
    split
    · rw [List.flatten_cons, List.flatten_cons, List.append_assoc, List.append_assoc]
      exact List.perm_append_comm.append_left g
    · rw [List.flatten_cons, List.flatten_cons, List.append_assoc]
      exact ih.append_left g

/-- A member of the groups with one more member is that or one of the others. -/
theorem mem_addMember (hg : g ∈ addMember gs m) (hm' : m' ∈ g) : m' = m ∨ ∃ g' ∈ gs, m' ∈ g' := by
  have hmem := (flatten_addMember gs m).mem_iff.1 (List.mem_flatten_of_mem hg hm')
  rcases List.mem_append.1 hmem with hold | hnew
  · exact Or.inr (List.mem_flatten.1 hold)
  · exact Or.inl (List.mem_singleton.1 hnew)

/-- A group with one more member is one of the others, or the member stands in it behind members of
its key. -/
theorem eq_of_mem_addMember (hg : g ∈ addMember gs m) :
    g ∈ gs ∨ ∃ old, (old = [] ∨ old ∈ gs ∧ ∃ m₀ ∈ old, m.key = m₀.key) ∧ g = old ++ [m] := by
  induction gs with
  | nil => exact Or.inr ⟨[], Or.inl rfl, List.mem_singleton.1 hg⟩
  | cons g₀ gs ih =>
    rw [addMember] at hg
    split at hg
    · next hany =>
      rcases List.mem_cons.1 hg with rfl | hg
      · obtain ⟨m₀, hm₀, hsame⟩ := List.any_eq_true.1 hany
        exact Or.inr ⟨g₀, Or.inr ⟨List.mem_cons_self, m₀, hm₀, Member.sameGroup_iff.1 hsame⟩, rfl⟩
      · exact Or.inl (List.mem_cons_of_mem _ hg)
    · rcases List.mem_cons.1 hg with rfl | hg
      · exact Or.inl List.mem_cons_self
      · rcases ih hg with hold | ⟨old, hold | ⟨hold, hkey⟩, rfl⟩
        · exact Or.inl (List.mem_cons_of_mem _ hold)
        · exact Or.inr ⟨old, Or.inl hold, rfl⟩
        · exact Or.inr ⟨old, Or.inr ⟨List.mem_cons_of_mem _ hold, hkey⟩, rfl⟩

/-- Groups of different keys stay such groups when a member is added. -/
theorem key_ne_addMember (h : gs.Pairwise fun g g' => ∀ m ∈ g, ∀ m' ∈ g', m.key ≠ m'.key)
    (m : Member) : (addMember gs m).Pairwise fun g g' => ∀ m ∈ g, ∀ m' ∈ g', m.key ≠ m'.key := by
  induction gs with
  | nil => exact List.pairwise_singleton _ _
  | cons g gs ih =>
    obtain ⟨hg, hrest⟩ := List.pairwise_cons.1 h
    rw [addMember]
    split
    · next hany =>
      obtain ⟨m₀, hm₀, hsame⟩ := List.any_eq_true.1 hany
      refine List.pairwise_cons.2 ⟨fun g' hg' a ha b hb => ?_, hrest⟩
      rcases List.mem_append.1 ha with ha | ha
      · exact hg g' hg' a ha b hb
      · rw [List.mem_singleton.1 ha, Member.sameGroup_iff.1 hsame]
        exact hg g' hg' m₀ hm₀ b hb
    · next hnone =>
      refine List.pairwise_cons.2 ⟨fun g' hg' a ha b hb hkey => ?_, ih hrest⟩
      rcases mem_addMember hg' hb with rfl | ⟨old, hold, hb⟩
      · exact hnone (List.any_eq_true.2 ⟨a, ha, Member.sameGroup_iff.2 hkey.symm⟩)
      · exact hg old hold a ha b hb hkey

end Trace

namespace Grouping

variable {members : List Member} {gs : List (List Member)}

/-- Members in groups with one more member. -/
theorem add (h : Grouping members gs) (m : Member) :
    Grouping (members ++ [m]) (Trace.addMember gs m) where
  perm := (Trace.flatten_addMember gs m).trans (h.perm.append_right [m])
  sublist g hg := by
    rcases Trace.eq_of_mem_addMember hg with hg | ⟨old, rfl | ⟨hold, -⟩, rfl⟩
    · exact (h.sublist g hg).trans (List.sublist_append_left members [m])
    · exact List.sublist_append_right members [m]
    · exact (h.sublist old hold).append_right [m]
  key_eq g hg := by
    rcases Trace.eq_of_mem_addMember hg with hg | ⟨old, rfl | ⟨hold, m₀, hm₀, hkey⟩, rfl⟩
    · exact h.key_eq g hg
    · intro a ha b hb
      rw [List.mem_singleton.1 ha, List.mem_singleton.1 hb]
    · have hall : ∀ a ∈ old ++ [m], a.key = m₀.key := by
        intro a ha
        rcases List.mem_append.1 ha with ha | ha
        · exact h.key_eq old hold a ha m₀ hm₀
        · rw [List.mem_singleton.1 ha, hkey]
      exact fun a ha b hb => (hall a ha).trans (hall b hb).symm
  key_ne := Trace.key_ne_addMember h.key_ne m

/-- All members are put into groups by their keys. -/
theorem foldl (members : List Member) : Grouping members (members.foldl Trace.addMember []) := by
  induction members using List.reverseRecOn with
  | nil => exact ⟨.refl _, List.forall_mem_nil _, List.forall_mem_nil _, .nil⟩
  | append_singleton members m ih =>
    rw [List.foldl_append, List.foldl_cons, List.foldl_nil]
    exact ih.add m

end Grouping

/-! ### Runs of forks -/

/-- The number of the first event of the run of a fork event. -/
def firstOf (run : Option (InstId × Nat)) (n : Node) (index : Nat) : Nat :=
  match run with
  | some (inst, first) => if inst = n.inst then first else index
  | none => index

namespace Trace

/-- The member that a fork event starts, if its thread is one of a team. -/
def startedBy (t : Trace) (e : Event) (child : ThreadId) (first : Nat) : List Member :=
  match t.spawnApi? child >>= ForkApi.team? with
  | some team => [⟨e.thread, first, team, child⟩]
  | none => []

/-- It is the one with the team of the thread. -/
theorem mem_startedBy {t : Trace} {e : Event} {child : ThreadId} {first : Nat} {m : Member} :
    m ∈ t.startedBy e child first ↔ m.parent = e.thread ∧ m.first = first ∧ m.thread = child ∧
      t.spawnApi? child >>= ForkApi.team? = some m.team := by
  obtain ⟨parent, first', team, thread⟩ := m
  unfold startedBy
  cases t.spawnApi? child >>= ForkApi.team? with
  | none => simp
  | some team' => simp [eq_comm, and_comm, and_left_comm]

/-- The members from a fork event on. -/
theorem membersFrom_fork {t : Trace} {e : Event} {child : ThreadId} {n : Node}
    (hkind : e.kind = .fork child) (hn : t.arena.get? e.node = some n)
    (run : Option (InstId × Nat)) (es : List Event) :
    t.membersFrom run (e :: es) = (t.startedBy e child (firstOf run n e.index) ++ ·) <$>
      t.membersFrom (some (n.inst, firstOf run n e.index)) es := by
  rw [membersFrom]
  simp only [hkind, Arena.get_eq_ok.2 hn]
  unfold startedBy firstOf
  cases t.spawnApi? child >>= ForkApi.team? with
  | some team => rfl
  | none => rfl

/-- The members from another event on. -/
theorem membersFrom_other {t : Trace} {e : Event} (hkind : ¬ e.kind.Forks)
    (run : Option (InstId × Nat)) (es : List Event) :
    t.membersFrom run (e :: es) = t.membersFrom none es := by
  rw [membersFrom]
  split
  · next child hfork => exact absurd ⟨child, hfork⟩ hkind
  · rfl

variable {t : Trace}

/-- An event of a thread is a fork of an instruction. -/
def ForksAt (t : Trace) (i : ThreadId) (inst : InstId) (k : Nat) : Prop :=
  ∃ e n, t.event? ⟨i, k⟩ = some e ∧ e.kind.Forks ∧ t.arena.get? e.node = some n ∧ n.inst = inst

/-- An event is a fork of one instruction. -/
theorem ForksAt.inst_eq {i : ThreadId} {inst : InstId} {k : Nat} (h : t.ForksAt i inst k)
    {e : Event} {n : Node} (he : t.event? ⟨i, k⟩ = some e) (hn : t.arena.get? e.node = some n) :
    e.kind.Forks ∧ n.inst = inst := by
  obtain ⟨e', n', he', hfork, hn', hinst⟩ := h
  cases he.symm.trans he'
  cases hn.symm.trans hn'
  exact ⟨hfork, hinst⟩

/-- From one event of a thread up to another all are forks of an instruction, and the event before
is none. -/
structure RunsFrom (t : Trace) (i : ThreadId) (inst : InstId) (first last : Nat) : Prop where
  le : first ≤ last
  forks : ∀ k, first ≤ k → k ≤ last → t.ForksAt i inst k
  maximal : ∀ k, k + 1 = first → ¬ t.ForksAt i inst k

namespace RunsFrom

variable {i : ThreadId} {inst : InstId} {first first' last last' : Nat}

/-- A run that ends no earlier than another begins no earlier. -/
theorem first_le (h : t.RunsFrom i inst first last) (h' : t.RunsFrom i inst first' last')
    (hle : last ≤ last') : first ≤ first' := by
  by_contra hlt
  exact h.maximal (first - 1) (by omega) (h'.forks (first - 1) (by omega) (by have := h.le; omega))

/-- There is one run up to an event. -/
theorem unique (h : t.RunsFrom i inst first last) (h' : t.RunsFrom i inst first' last) :
    first = first' :=
  le_antisymm (h.first_le h' le_rfl) (h'.first_le h le_rfl)

/-- A run goes on while there are forks of its instruction. -/
theorem extend (h : t.RunsFrom i inst first last) (hle : last ≤ last')
    (hforks : ∀ k, last < k → k ≤ last' → t.ForksAt i inst k) : t.RunsFrom i inst first last' where
  le := h.le.trans hle
  forks k hfirst hlast := by
    rcases Nat.lt_or_ge last k with hlt | hge
    · exact hforks k hlt hlast
    · exact h.forks k hfirst hge
  maximal := h.maximal

end RunsFrom

/-- What is known of the run before an event: it consists of the forks just before, or there are
none. -/
def Scanned (t : Trace) (i : ThreadId) (k : Nat) : Option (InstId × Nat) → Prop
  | some (inst, first) => ∃ j, j + 1 = k ∧ t.RunsFrom i inst first j
  | none => ∀ j, j + 1 = k → ∀ inst, ¬ t.ForksAt i inst j

/-- Before the first event there is no run. -/
theorem Scanned.zero (t : Trace) (i : ThreadId) : t.Scanned i 0 none :=
  fun _ hj => absurd hj (Nat.succ_ne_zero _)

/-- The run of a fork event begins where the scan says. -/
theorem Scanned.runsFrom {i : ThreadId} {k : Nat} {run : Option (InstId × Nat)}
    (h : t.Scanned i k run) {e : Event} {n : Node} (he : t.event? ⟨i, k⟩ = some e)
    (hfork : e.kind.Forks) (hn : t.arena.get? e.node = some n) :
    t.RunsFrom i n.inst (firstOf run n k) k := by
  have hself : t.ForksAt i n.inst k := ⟨e, n, he, hfork, hn, rfl⟩
  have hone : ∀ j, k ≤ j → j ≤ k → t.ForksAt i n.inst j :=
    fun j hle hge => le_antisymm hle hge ▸ hself
  match run with
  | none => exact ⟨le_rfl, hone, fun j hj => h j hj n.inst⟩
  | some (inst, first) =>
    obtain ⟨j, hj, hrun⟩ := h
    unfold firstOf
    dsimp only
    split
    · next hinst =>
      exact (hinst ▸ hrun).extend (by omega) fun l hl hl' => hone l (by omega) hl'
    · next hinst =>
      refine ⟨le_rfl, hone, fun l hl hforks => hinst ?_⟩
      obtain rfl : l = j := by omega
      obtain ⟨e', n', he', -, hn', hinst'⟩ := hrun.forks l hrun.le le_rfl
      exact hinst'.symm.trans (hforks.inst_eq he' hn').2

/-- An event of the parent of a member started its thread, with its team and in its run. -/
structure StartsMember (t : Trace) (m : Member) (k : Nat) : Prop where
  event : ∃ e n, t.event? ⟨m.parent, k⟩ = some e ∧ e.kind = .fork m.thread ∧
    t.arena.get? e.node = some n ∧ t.RunsFrom m.parent n.inst m.first k
  team : t.spawnApi? m.thread >>= ForkApi.team? = some m.team

/-- The members found in the events of a thread from a number on are those that the events start, in
their order. -/
theorem membersFrom_spec (ht : t.WellFormed) {i : ThreadId} {es : List Event} {k : Nat}
    (hes : ∀ j, es[j]? = t.event? ⟨i, k + j⟩) {run : Option (InstId × Nat)}
    (hrun : t.Scanned i k run) {members : List Member}
    (h : t.membersFrom run es = .ok members) :
    (∀ m, m ∈ members ↔ m.parent = i ∧ ∃ l, k ≤ l ∧ t.StartsMember m l) ∧
      members.Pairwise fun m m' => ∃ l l', l < l' ∧ t.StartsMember m l ∧ t.StartsMember m' l' := by
  induction es generalizing k run members with
  | nil =>
    rw [membersFrom] at h
    cases h
    refine ⟨fun m => ⟨fun hm => absurd hm List.not_mem_nil, ?_⟩, .nil⟩
    rintro ⟨rfl, l, hl, ⟨e, -, he, -⟩, -⟩
    have hnone := hes (l - k)
    rw [Nat.add_sub_cancel' hl, he] at hnone
    cases hnone
  | cons e es ih =>
    have he : t.event? ⟨i, k⟩ = some e := (hes 0).symm
    have hes' : ∀ j, es[j]? = t.event? ⟨i, k + 1 + j⟩ := by
      intro j
      rw [show k + 1 + j = k + (j + 1) by omega, ← hes]
      rfl
    by_cases hfork : e.kind.Forks
    · obtain ⟨child, hkind⟩ := hfork
      obtain ⟨n, hn, -⟩ := (ht.fits_event? he).node
      have href : e.ref = ⟨i, k⟩ := ht.ref_eq he
      have hthread : e.thread = i := congrArg EventRef.thread href
      have hindex : e.index = k := congrArg EventRef.index href
      have hfirst := hrun.runsFrom he ⟨child, hkind⟩ hn
      rw [membersFrom_fork hkind hn, hindex] at h
      obtain ⟨rest, hrest, rfl⟩ := Except.map_eq_ok.1 h
      have hscanned : t.Scanned i (k + 1) (some (n.inst, firstOf run n k)) := ⟨k, rfl, hfirst⟩
      obtain ⟨hmem, hsorted⟩ := ih hes' hscanned hrest
      have hown : ∀ m, m ∈ t.startedBy e child (firstOf run n k) ↔
          m.parent = i ∧ t.StartsMember m k := by
        intro m
        rw [mem_startedBy, hthread]
        constructor
        · rintro ⟨rfl, heq, rfl, hteam⟩
          exact ⟨rfl, ⟨e, n, he, hkind, hn, heq ▸ hfirst⟩, hteam⟩
        · rintro ⟨rfl, ⟨e', n', he', hkind', hn', hfirst'⟩, hteam⟩
          cases he.symm.trans he'
          cases hkind.symm.trans hkind'
          cases hn.symm.trans hn'
          exact ⟨rfl, hfirst'.unique hfirst, rfl, hteam⟩
      refine ⟨fun m => ?_, ?_⟩
      · rw [List.mem_append, hown, hmem, ← and_or_left]
        refine and_congr_right fun _ => ⟨?_, ?_⟩
        · rintro (hstart | ⟨l, hl, hstart⟩)
          · exact ⟨k, le_rfl, hstart⟩
          · exact ⟨l, by omega, hstart⟩
        · rintro ⟨l, hl, hstart⟩
          rcases Nat.eq_or_lt_of_le hl with rfl | hlt
          · exact Or.inl hstart
          · exact Or.inr ⟨l, hlt, hstart⟩
      · refine List.pairwise_append.2 ⟨?_, hsorted, fun m hm m' hm' => ?_⟩
        · unfold startedBy
          split
          · exact List.pairwise_singleton _ _
          · exact .nil
        · obtain ⟨-, l, hl, hstart⟩ := (hmem m').1 hm'
          exact ⟨k, l, hl, ((hown m).1 hm).2, hstart⟩
    · rw [membersFrom_other hfork] at h
      have hnone : ∀ inst, ¬ t.ForksAt i inst k := by
        rintro inst ⟨e', n', he', hfork', -⟩
        cases he.symm.trans he'
        exact hfork hfork'
      have hscanned : t.Scanned i (k + 1) none :=
        fun j hj inst hforks => hnone inst (Nat.succ.inj hj ▸ hforks)
      obtain ⟨hmem, hsorted⟩ := ih hes' hscanned h
      refine ⟨fun m => (hmem m).trans (and_congr_right ?_), hsorted⟩
      rintro rfl
      refine exists_congr fun l => and_congr_left fun hstart => ⟨Nat.le_of_succ_le, fun hl => ?_⟩
      refine Nat.lt_of_le_of_ne hl ?_
      rintro rfl
      obtain ⟨e', -, he', hkind', -⟩ := hstart.event
      cases he.symm.trans he'
      exact hfork ⟨_, hkind'⟩

/-! ### Groups -/

/-- Barrier groups come from the members that all threads start, put together by their keys. -/
theorem barrierGroups_ok {groups : List (List ThreadId)} (h : t.barrierGroups = .ok groups) :
    ∃ lists, List.Forall₂ (fun (th : Thread) l => t.membersFrom none th.events.toList = .ok l)
        t.threads.toList lists ∧
      groups = (((lists.flatten.foldl addMember []).map (List.map Member.thread)).filter
        fun g => decide (1 < g.length)).mergeSort fun a b => decide (a.headD 0 ≤ b.headD 0) := by
  obtain ⟨lists, hlists, hgroups⟩ := Except.bind_eq_ok.1 h
  cases hgroups
  exact ⟨lists, Except.mapM_eq_ok.1 hlists, rfl⟩

/-- The members that a thread starts. -/
theorem membersFrom_thread (ht : t.WellFormed) {i : ThreadId} {th : Thread}
    (hth : t.threads[i]? = some th) {members : List Member}
    (h : t.membersFrom none th.events.toList = .ok members) :
    (∀ m, m ∈ members ↔ m.parent = i ∧ ∃ l, t.StartsMember m l) ∧
      members.Pairwise fun m m' => ∃ l l', l < l' ∧ t.StartsMember m l ∧ t.StartsMember m' l' := by
  have hes : ∀ k, th.events.toList[k]? = t.event? ⟨i, 0 + k⟩ := by
    intro k
    rw [Nat.zero_add, event?, HappensBefore.eventsOf_eq hth, Array.getElem?_toList]
  obtain ⟨hmem, hsorted⟩ := membersFrom_spec ht hes (.zero t i) h
  refine ⟨fun m => (hmem m).trans (and_congr_right fun _ => ?_), hsorted⟩
  exact exists_congr fun l => and_iff_right (Nat.zero_le l)

/-- The members that all threads start are those that events start.  Members with one parent stand
in the order of these events. -/
theorem members_spec (ht : t.WellFormed) {lists : List (List Member)}
    (h : List.Forall₂ (fun (th : Thread) l => t.membersFrom none th.events.toList = .ok l)
      t.threads.toList lists) :
    (∀ m, m ∈ lists.flatten ↔ ∃ l, t.StartsMember m l) ∧
      lists.flatten.Pairwise fun m m' => m.parent = m'.parent →
        ∃ l l', l < l' ∧ t.StartsMember m l ∧ t.StartsMember m' l' := by
  obtain ⟨hsize, hall⟩ := List.forall₂_iff_get.1 h
  have hone : ∀ (k : ℕ) (hk : k < lists.length),
      (∀ m, m ∈ lists[k] ↔ m.parent = k ∧ ∃ l, t.StartsMember m l) ∧
        lists[k].Pairwise fun m m' =>
          ∃ l l', l < l' ∧ t.StartsMember m l ∧ t.StartsMember m' l' := by
    intro k hk
    refine membersFrom_thread ht ?_ (hall k (hsize ▸ hk) hk)
    rw [← Array.getElem?_toList]
    exact List.getElem?_eq_getElem _
  refine ⟨fun m => ?_, List.pairwise_flatten.2 ⟨fun l hl => ?_, ?_⟩⟩
  · rw [List.mem_flatten]
    constructor
    · rintro ⟨l, hl, hm⟩
      obtain ⟨k, hk, rfl⟩ := List.mem_iff_getElem.1 hl
      exact (((hone k hk).1 m).1 hm).2
    · rintro ⟨l, hstart⟩
      obtain ⟨e, -, he, -⟩ := hstart.event
      have hk : m.parent < lists.length := hsize ▸ thread_lt he
      exact ⟨_, List.getElem_mem hk, ((hone _ hk).1 m).2 ⟨rfl, l, hstart⟩⟩
  · obtain ⟨k, hk, rfl⟩ := List.mem_iff_getElem.1 hl
    exact (hone k hk).2.imp fun {m m'} hstarts (_ : m.parent = m'.parent) => hstarts
  · rw [List.pairwise_iff_getElem]
    intro j k hj hk hlt m hm m' hm' hparent
    rw [(((hone j hj).1 m).1 hm).1, (((hone k hk).1 m').1 hm').1] at hparent
    exact absurd hparent hlt.ne

/-- From one number up to another all events of a thread are forks. -/
def AllForks (t : Trace) (i : ThreadId) (first last : Nat) : Prop :=
  ∀ j, first ≤ j → j < last → ∃ e, t.event? ⟨i, j⟩ = some e ∧ e.kind.Forks

/-- A thread was started within the run of fork events that begins at an event. -/
def StartedInRun (t : Trace) (parent : ThreadId) (first : Nat) (child : ThreadId) : Prop :=
  ∃ j e, t.event? ⟨parent, j⟩ = some e ∧ e.kind = .fork child ∧ first ≤ j ∧
    t.AllForks parent first j

/-- The thread of a member was started within the run that it names. -/
theorem StartsMember.startedInRun {m : Member} {k : Nat} (h : t.StartsMember m k) :
    t.StartedInRun m.parent m.first m.thread := by
  obtain ⟨e, n, he, hkind, -, hrun⟩ := h.event
  refine ⟨k, e, he, hkind, hrun.le, fun j hj hlt => ?_⟩
  obtain ⟨e', n', he', hfork, -⟩ := hrun.forks j hj hlt.le
  exact ⟨e', he', hfork⟩

/-- The threads of a barrier group were started by one thread within one run of forks. -/
theorem barrierGroups_spec (ht : t.WellFormed) {groups : List (List ThreadId)}
    (h : t.barrierGroups = .ok groups) {members : List ThreadId} (hmembers : members ∈ groups) :
    ∃ parent first, ∀ i ∈ members, t.StartedInRun parent first i := by
  obtain ⟨lists, hlists, rfl⟩ := barrierGroups_ok h
  rw [List.mem_mergeSort, List.mem_filter, List.mem_map] at hmembers
  obtain ⟨⟨g, hg, rfl⟩, hlength⟩ := hmembers
  have hgrouping := Grouping.foldl lists.flatten
  obtain ⟨m₀, hm₀⟩ : ∃ m₀, m₀ ∈ g := by
    refine List.exists_mem_of_length_pos ?_
    have hlong := of_decide_eq_true hlength
    rw [List.length_map] at hlong
    exact Nat.zero_lt_of_lt hlong
  refine ⟨m₀.parent, m₀.first, fun i hi => ?_⟩
  obtain ⟨m, hm, rfl⟩ := List.mem_map.1 hi
  have hkey := hgrouping.key_eq g hg m hm m₀ hm₀
  obtain ⟨j, hstart⟩ := ((members_spec ht hlists).1 m).1 ((hgrouping.sublist g hg).subset hm)
  have hstarted := hstart.startedInRun
  rwa [show m.parent = m₀.parent from congrArg (·.1) hkey,
    show m.first = m₀.first from congrArg (·.2.1) hkey] at hstarted

end Trace

end DataRace
