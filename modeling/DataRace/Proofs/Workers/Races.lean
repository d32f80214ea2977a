import DataRace.Proofs.Race.Sharing
import DataRace.Proofs.Thin.Races
import DataRace.Proofs.Workers.Threads

/-!
# The races of workers

Nothing orders the events of two workers: what comes behind an event of a worker stays in its
thread, or is behind the forks of the main thread, from where no thread is started any more
(`Trace.Staffed.behind_of_link`).  No worker holds a lock.  So two accesses of different workers
race as soon as one of them writes or frees (`Trace.Staffed.clash_iff`), and the analysis of the
program reports exactly these pairs of instructions (`analyze_workers`).
-/

namespace DataRace

/-- Accesses conflict exactly if one of them is no read. -/
theorem AccessType.conflicts_iff_ne_read {a b : AccessType} :
    a.conflicts b = true ↔ a ≠ .read ∨ b ≠ .read :=
  conflicts_iff.trans (or_congr changes_iff changes_iff)

/-- An instruction of a worker that accesses memory, by the event that makes the access. -/
def Worker.At (workers : List Routine) (p : ValueId) (r : EventRef) (i : Instruction)
    (type : AccessType) : Prop :=
  ∃ k f, r.thread = k + 1 ∧ workers[k]? = some f ∧ f.body[r.index]? = some i ∧
    i.accessOf? p = some type

/-- The event of a worker is in no main thread. -/
theorem Worker.At.thread_ne {workers : List Routine} {p : ValueId} {r : EventRef} {i : Instruction}
    {type : AccessType} (h : Worker.At workers p r i type) : r.thread ≠ 0 := by
  obtain ⟨k, -, hthread, -⟩ := h
  exact hthread ▸ Nat.succ_ne_zero k

/-- Where the events of a kind stand: forks in the main thread before some number, joins in the main
thread from this number on, accesses in the threads of workers, and nothing else anywhere. -/
def Worker.Site (first : Nat) (r : EventRef) : EventKind → Prop
  | .fork _ => r.thread = 0 ∧ r.index < first
  | .join _ => r.thread = 0 ∧ first ≤ r.index
  | .read | .write | .free => r.thread ≠ 0
  | _ => False

/-- The site of an access is in no main thread. -/
theorem Worker.Site.thread_ne {first : Nat} {r : EventRef} {k : EventKind} {type : AccessType}
    (h : Worker.Site first r k) (hk : k.access? = some type) : r.thread ≠ 0 := by
  cases k with
  | read | write | free => exact h
  | fork | join | lock | unlock | barrier | call | «return» => cases hk

/-- The instructions of two accesses of different workers, one of which writes or frees. -/
def Worker.Contend (workers : List Routine) (p : ValueId) (pair : Sym2 InstId) : Prop :=
  ∃ a b i j ti tj, Worker.At workers p a i ti ∧ Worker.At workers p b j tj ∧
    a.thread ≠ b.thread ∧ ti.conflicts tj = true ∧ s(i.id, j.id) = pair

namespace Trace.Staffed

open Relation HappensBefore

variable {t : Trace} {p : ValueId} {workers : List Routine} (h : t.Staffed p workers)

include h

/-! ### Events -/

/-- An event of a worker makes the access of an instruction. -/
theorem exists_at {r : EventRef} {e : Event} (he : t.event? r = some e) (hr : r.thread ≠ 0) :
    ∃ i type, Worker.At workers p r i type ∧ e.kind.access? = some type := by
  obtain ⟨th, hth, he⟩ := event?_eq_some_iff.1 he
  obtain ⟨k, hthread⟩ := Nat.exists_eq_succ_of_ne_zero hr
  have hlt : k < workers.length := by
    have hsize := (Array.getElem?_eq_some_iff.1 hth).1
    rw [h.size, hthread] at hsize
    exact Nat.lt_of_succ_lt_succ hsize
  obtain ⟨th', hth', hperform⟩ := h.perform k _ (List.getElem?_eq_getElem hlt)
  rw [hthread, hth'] at hth
  cases hth
  obtain ⟨hlength, hperform⟩ := List.forall₂_iff_get.1 hperform
  obtain ⟨hindex, rfl⟩ := Array.getElem?_eq_some_iff.1 he
  obtain ⟨-, type, -, -, htype, -, hkind⟩ := hperform r.index (hlength ▸ hindex) hindex
  exact ⟨_, type, ⟨k, _, hthread, List.getElem?_eq_getElem hlt, List.getElem?_eq_getElem _, htype⟩,
    hkind⟩

/-- All events stand at their sites. -/
theorem exists_sites :
    ∃ first, ∀ (r : EventRef) e, t.event? r = some e → Worker.Site first r e.kind := by
  obtain ⟨main, forks, joins, hmain, hevents, hforks, hjoins⟩ := h.main
  refine ⟨forks.length, fun r e he => ?_⟩
  by_cases hr : r.thread = 0
  · obtain ⟨th, hth, he⟩ := event?_eq_some_iff.1 he
    rw [hr, hmain] at hth
    cases hth
    rw [← Array.getElem?_toList, hevents, List.getElem?_append] at he
    split at he
    · next hlt =>
      obtain ⟨child, hfork⟩ := hforks e (List.mem_of_getElem? he)
      rw [hfork]
      exact ⟨hr, hlt⟩
    · next hge =>
      obtain ⟨child, hjoin⟩ := hjoins e (List.mem_of_getElem? he)
      rw [hjoin]
      exact ⟨hr, Nat.le_of_not_lt hge⟩
  · obtain ⟨-, type, -, hkind⟩ := h.exists_at he hr
    cases hk : e.kind with
    | read | write | free => exact hr
    | fork | join | lock | unlock | barrier | call | «return» =>
      rw [hk] at hkind
      cases hkind

/-- Every access that an instruction of a worker makes is an event. -/
theorem exists_event {r : EventRef} {i : Instruction} {type : AccessType}
    (hat : Worker.At workers p r i type) : ∃ e, t.event? r = some e ∧
      e.kind.access? = some type ∧
      ∃ n, t.arena.get? e.node = some n ∧ n.inst = i.id ∧ n.Accesses p type := by
  obtain ⟨k, f, hthread, hf, hi, htype⟩ := hat
  obtain ⟨th, hth, hperform⟩ := h.perform k f hf
  obtain ⟨hlength, hperform⟩ := List.forall₂_iff_get.1 hperform
  obtain ⟨hindex, rfl⟩ := List.getElem?_eq_some_iff.1 hi
  obtain ⟨n, type', hn, hinst, htype', haccesses, hkind⟩ :=
    hperform r.index hindex (hlength ▸ hindex)
  obtain rfl : type' = type := Option.some.inj (htype'.symm.trans htype)
  refine ⟨_, event?_eq_some_iff.2 ⟨th, hthread ▸ hth, ?_⟩, hkind, n, hn, hinst, haccesses⟩
  exact Array.getElem?_toList.symm.trans (List.getElem?_eq_getElem _)

/-- The instruction of an access. -/
theorem instOf?_eq {r : EventRef} {i : Instruction} {type : AccessType}
    (hat : Worker.At workers p r i type) : Detector.instOf? t r = some i.id := by
  obtain ⟨e, he, -, n, hn, hinst, -⟩ := h.exists_event hat
  unfold Detector.instOf? node?
  rw [he, Option.bind_eq_bind, Option.bind_some, hn, Option.map_some, hinst]

/-- The events that touch an object are the accesses of the workers, if their pointer points to this
object only. -/
theorem touches_iff {o : ObjectId} (ho : t.pointsTo.objects p = [o]) {r : EventRef} {o' : ObjectId}
    {type : AccessType} :
    t.Touches r o' type ↔ o' = o ∧ ∃ i, Worker.At workers p r i type := by
  constructor
  · intro htouches
    obtain ⟨e, n, he, hn, hkind, hmem⟩ := Trace.touches_iff.1 htouches
    obtain ⟨first, hsites⟩ := h.exists_sites
    obtain ⟨i, type', hat, hkind'⟩ := h.exists_at he ((hsites r e he).thread_ne hkind)
    obtain rfl : type' = type := Option.some.inj (hkind'.symm.trans hkind)
    obtain ⟨e', he', -, n', hn', -, haccesses⟩ := h.exists_event hat
    rw [he] at he'
    cases he'
    rw [hn] at hn'
    cases hn'
    rw [haccesses.objectsOf_eq, ho] at hmem
    exact ⟨List.mem_singleton.1 hmem, i, hat⟩
  · rintro ⟨rfl, i, hat⟩
    obtain ⟨e, he, hkind, n, hn, -, haccesses⟩ := h.exists_event hat
    refine Trace.touches_iff.2 ⟨e, n, he, hn, hkind, ?_⟩
    rw [haccesses.objectsOf_eq, ho]
    exact List.mem_cons_self

/-- No lock is held anywhere. -/
theorem not_mem_heldAt (ht : t.WellFormed) (r : EventRef) (id : NodeId) :
    id ∉ (LockSets.ofTrace t).heldAt r := by
  intro hmem
  obtain ⟨e, he, hlock, -⟩ := LockSets.exists_lock_of_mem_heldAt hmem
  obtain ⟨first, hsites⟩ := h.exists_sites
  have hsite := hsites _ e (ht.mem_events.1 he)
  rw [hlock] at hsite
  exact hsite

/-! ### Order -/

omit h in
/-- The points of a worker and those of the main thread from some event on, the starts left out. -/
def Behind (first : Nat) (i : ThreadId) : Point → Prop
  | .event r => r.thread = i ∨ r.thread = 0 ∧ first ≤ r.index
  | .finish j => j = i ∨ j = 0
  | _ => False

omit h in
/-- Going on in a thread stays behind. -/
theorem behind_pointAfter {first : Nat} {i : ThreadId} {r : EventRef}
    (hr : Behind first i (.event r)) : Behind first i (pointAfter t r) := by
  unfold pointAfter
  split
  · exact hr.imp_right fun hmain => ⟨hmain.1, Nat.le_succ_of_le hmain.2⟩
  · exact hr.imp_right And.left

/-- Links lead from behind an event of a worker to nothing but its own thread and the joins: the
worker starts no thread, and the main thread has started all of them. -/
theorem behind_of_link (ht : t.WellFormed) : ∃ first, ∀ (i : ThreadId), i ≠ 0 →
    ∀ (o : HappensBefore) (a b : Point), Link t o a b → Behind first i a → Behind first i b := by
  obtain ⟨first, hsites⟩ := h.exists_sites
  refine ⟨first, fun i hi o a b hlink ha => ?_⟩
  cases hlink with
  | basic hbasic =>
    cases hbasic with
    | first => exact ha.elim
    | next => exact behind_pointAfter ha
    | fork he hfork =>
      have hsite := hsites _ _ he
      rw [hfork] at hsite
      obtain ⟨hthread, hlt⟩ := hsite
      rcases ha with hsame | ⟨-, hle⟩
      · exact absurd (hsame.symm.trans hthread) hi
      · exact absurd hle (Nat.not_le.2 hlt)
  | join he hjoin =>
    have hsite := hsites _ _ he
    rw [hjoin] at hsite
    exact Or.inr hsite
  | barrier hgroup hkept hm hr =>
    obtain ⟨-, e, he, hbarrier⟩ := event?_of_barrier ht hr
    have hsite := hsites _ _ he
    rw [hbarrier] at hsite
    exact hsite.elim

/-- No event of a worker happens before one of another worker. -/
theorem not_before (ht : t.WellFormed) {o : HappensBefore} (ho : Ordered t o) {a b : EventRef}
    {ea eb : Event} (ha : t.event? a = some ea) (hb : t.event? b = some eb) (ha' : a.thread ≠ 0)
    (hb' : b.thread ≠ 0) (hne : a.thread ≠ b.thread) : ¬ o.before a b = true := by
  intro hbefore
  obtain ⟨first, hlink⟩ := h.behind_of_link ht
  have hbehind : Behind first a.thread (.event b) :=
    ho.mem_of_before ht ha hb (fun p q => hlink a.thread ha' o p q) (Or.inl rfl) hbefore
  rcases hbehind with hsame | ⟨hmain, -⟩
  · exact hne hsame.symm
  · exact hb' hmain

/-! ### Races -/

/-- Two events race exactly if they are accesses of different workers and one of them writes or
frees. -/
theorem clash_iff {o : ObjectId} (ho : t.pointsTo.objects p = [o]) {d : Detector} {l : List Access}
    (hd : d.Knows l) (hdt : d.trace = t) {a b : EventRef} :
    d.Clash a b ↔ a.thread < b.thread ∧ ∃ i j ti tj, Worker.At workers p a i ti ∧
      Worker.At workers p b j tj ∧ ti.conflicts tj = true := by
  constructor
  · intro hclash
    obtain ⟨o', ta, tb, hta, htb, hconflict⟩ := hclash.touches
    rw [hdt] at hta htb
    obtain ⟨-, i, hi⟩ := (h.touches_iff ho).1 hta
    obtain ⟨-, j, hj⟩ := (h.touches_iff ho).1 htb
    exact ⟨hclash.threads, i, j, ta, tb, hi, hj, hconflict⟩
  · rintro ⟨hlt, i, j, ti, tj, hi, hj, hconflict⟩
    subst hdt
    obtain ⟨ea, hea, -⟩ := h.exists_event hi
    obtain ⟨eb, heb, -⟩ := h.exists_event hj
    refine ⟨hlt, ⟨o, ti, tj, (h.touches_iff ho).2 ⟨rfl, i, hi⟩, (h.touches_iff ho).2 ⟨rfl, j, hj⟩,
      hconflict⟩, ⟨?_, ?_⟩, ?_⟩
    · exact h.not_before hd.trace hd.order hea heb hi.thread_ne hj.thread_ne hlt.ne
    · exact h.not_before hd.trace hd.order heb hea hj.thread_ne hi.thread_ne hlt.ne'
    · simp only [List.forall_mem_map]
      intro x hx
      rw [hd.locks] at hx
      exact absurd hx (h.not_mem_heldAt hd.trace a x)

/-- The instructions of a race between accesses of workers. -/
theorem instructions?_eq {x : Conflict} {i j : Instruction} {ti tj : AccessType}
    (hi : Worker.At workers p x.first i ti) (hj : Worker.At workers p x.second j tj) :
    Detector.instructions? t x = some s(i.id, j.id) := by
  unfold Detector.instructions?
  rw [h.instOf?_eq hi, h.instOf?_eq hj]
  rfl

/-- The races that are found are one for each pair of instructions that contend. -/
theorem exists_races {o : ObjectId} (ho : t.pointsTo.objects p = [o]) (ht : t.WellFormed) :
    ∃ races, t.races = .ok races ∧ (races.map Race.instructions).Nodup ∧
      ∀ pair, (∃ r ∈ races, r.instructions = pair) ↔ Worker.Contend workers p pair := by
  obtain ⟨d, l, races, hknows, hdt, hraces, hnodup, hpairs⟩ := Trace.exists_races ht
  refine ⟨races, hraces, hnodup, fun pair => (hpairs pair).trans ⟨?_, ?_⟩⟩
  · rintro ⟨x, hx, hpair⟩
    obtain ⟨hlt, i, j, ti, tj, hi, hj, hconflict⟩ := (h.clash_iff ho hknows hdt).1 (hknows.clash hx)
    rw [h.instructions?_eq hi hj] at hpair
    exact ⟨_, _, i, j, ti, tj, hi, hj, hlt.ne, hconflict, Option.some.inj hpair⟩
  -- A race has the event of the earlier thread first.
  · have hordered : ∀ a b i j ti tj, Worker.At workers p a i ti → Worker.At workers p b j tj →
        a.thread < b.thread → ti.conflicts tj = true →
        ∃ x, d.Racing x ∧ Detector.instructions? t x = some s(i.id, j.id) := by
      intro a b i j ti tj hi hj hlt hconflict
      obtain ⟨id, hracing⟩ := hknows.exists_racing
        ((h.clash_iff ho hknows hdt).2 ⟨hlt, i, j, ti, tj, hi, hj, hconflict⟩)
      exact ⟨_, hracing, h.instructions?_eq hi hj⟩
    rintro ⟨a, b, i, j, ti, tj, hi, hj, hne, hconflict, rfl⟩
    rcases Nat.lt_or_gt_of_ne hne with hlt | hgt
    · exact hordered a b i j ti tj hi hj hlt hconflict
    · rw [Sym2.eq_swap]
      exact hordered b a j i tj ti hj hi hgt ((Bool.or_comm _ _).trans hconflict)

/-- The object of the workers is shared exactly if some pair of instructions contends. -/
theorem exists_isShared_iff {o : ObjectId} (ho : t.pointsTo.objects p = [o]) (ht : t.WellFormed) :
    ∃ memory, SharedMemory.ofTrace t = .ok memory ∧
      ((∃ id, memory.object? id = some o ∧ memory.isShared id = true) ↔
        ∃ pair, Worker.Contend workers p pair) := by
  obtain ⟨lists, hlists, hmem⟩ := Trace.exists_accesses ht
  refine ⟨_, Except.bind_eq_ok.2 ⟨lists, hlists, rfl⟩, ?_⟩
  constructor
  · rintro ⟨id, hid, hshared⟩
    obtain ⟨⟨_, ta, a⟩, ha, ⟨_, tb, b⟩, hb, -, -, hne, hconflict⟩ :=
      (SharedMemory.isShared_iff_clash _ hid).1 hshared
    obtain ⟨-, i, hi⟩ := (h.touches_iff ho).1 ((hmem _ _ _).1 ha)
    obtain ⟨-, j, hj⟩ := (h.touches_iff ho).1 ((hmem _ _ _).1 hb)
    exact ⟨_, a, b, i, j, ta, tb, hi, hj, hne, hconflict, rfl⟩
  · rintro ⟨-, a, b, i, j, ti, tj, hi, hj, hne, hconflict, rfl⟩
    have ha := (hmem o ti a).2 ((h.touches_iff ho).2 ⟨rfl, i, hi⟩)
    have hb := (hmem o tj b).2 ((h.touches_iff ho).2 ⟨rfl, j, hj⟩)
    obtain ⟨id, hid⟩ := (SharedMemory.indexes_ofAccesses lists.flatten).complete _ ha
    have hobject := ((SharedMemory.indexes_ofAccesses lists.flatten).ids _ id).1 hid
    exact ⟨id, hobject, (SharedMemory.isShared_iff_clash _ hobject).2
      ⟨_, ha, _, hb, rfl, rfl, hne, hconflict⟩⟩

end Trace.Staffed

/-! ### Programs -/

namespace Program.Employs

variable {program : Program} {p : ValueId} {workers : List Worker} {joins : List Instruction}
  (h : program.Employs p workers joins)

include h

/-- No worker is in the list twice. -/
theorem nodup_workers : workers.Nodup :=
  List.Nodup.of_map _ (List.nodup_cons.1 h.nodup_names).2

/-- The pairs that contend, by the workers that the instructions belong to. -/
theorem contend_iff {pair : Sym2 InstId} :
    Worker.Contend (workers.map Worker.routine) p pair ↔
      ∃ v ∈ workers, ∃ w ∈ workers, v ≠ w ∧ ∃ i ∈ v.routine.body, ∃ j ∈ w.routine.body,
        ∃ ti tj, i.accessOf? p = some ti ∧ j.accessOf? p = some tj ∧ (ti ≠ .read ∨ tj ≠ .read) ∧
          s(i.id, j.id) = pair := by
  constructor
  · rintro ⟨a, b, i, j, ti, tj, ⟨k, _, ha, hv, hi, hti⟩, ⟨k', _, hb, hw, hj, htj⟩, hne, hconflict,
      rfl⟩
    rw [List.getElem?_map, Option.map_eq_some_iff] at hv hw
    obtain ⟨v, hv, rfl⟩ := hv
    obtain ⟨w, hw, rfl⟩ := hw
    refine ⟨v, List.mem_of_getElem? hv, w, List.mem_of_getElem? hw, ?_, i, List.mem_of_getElem? hi,
      j, List.mem_of_getElem? hj, ti, tj, hti, htj,
      AccessType.conflicts_iff_ne_read.1 hconflict, rfl⟩
    rintro rfl
    have hlt := (List.getElem?_eq_some_iff.1 hv).1
    obtain rfl := (List.getElem?_inj hlt h.nodup_workers).1 (hv.trans hw.symm)
    exact hne (ha.trans hb.symm)
  · rintro ⟨v, hv, w, hw, hne, i, hi, j, hj, ti, tj, hti, htj, hconflict, rfl⟩
    obtain ⟨k, hk⟩ := List.mem_iff_getElem?.1 hv
    obtain ⟨k', hk'⟩ := List.mem_iff_getElem?.1 hw
    obtain ⟨m, hm⟩ := List.mem_iff_getElem?.1 hi
    obtain ⟨m', hm'⟩ := List.mem_iff_getElem?.1 hj
    refine ⟨⟨k + 1, m⟩, ⟨k' + 1, m'⟩, i, j, ti, tj, ⟨k, v.routine, rfl, ?_, hm, hti⟩,
      ⟨k', w.routine, rfl, ?_, hm', htj⟩, fun heq => hne ?_,
      AccessType.conflicts_iff_ne_read.2 hconflict, rfl⟩
    · rw [List.getElem?_map, hk, Option.map_some]
    · rw [List.getElem?_map, hk', Option.map_some]
    · obtain rfl : k = k' := Nat.succ.inj heq
      exact Option.some.inj (hk.symm.trans hk')

/-- Without workers the main routine has no body, and there is no analysis. -/
theorem analyze_of_nil (hnil : workers = []) (pointsTo : PointsTo) {s : Settings}
    (hvalid : s.validate = .ok ()) (hentry : s.entry = "main") :
    analyze program pointsTo s = .error (.build (.entryWithoutBody "main")) := by
  subst hnil
  have hbody : (Worker.main [] joins).isDeclaration = true := by
    rw [List.perm_nil.1 h.joins]
    rfl
  simp [analyze, hvalid, Trace.build, hentry, h.routine?_main, hbody]

/-- The analysis of workers reports the pairs of instructions that contend. -/
theorem exists_analyze (hne : workers ≠ []) {pointsTo : PointsTo} {o : ObjectId}
    (ho : pointsTo.objects p = [o]) {s : Settings} (hvalid : s.validate = .ok ())
    (hentry : s.entry = "main") (hruntime : s.runtime = .auto)
    (hlimit : workers.length < s.maxThreads) :
    ∃ t memory races, Trace.build ⟨program, pointsTo, s, Interface.standard⟩ = .ok t ∧
      SharedMemory.ofTrace t = .ok memory ∧ analyze program pointsTo s = .ok races ∧
      (races.map Race.instructions).Nodup ∧
      (∀ pair, (∃ r ∈ races, r.instructions = pair) ↔
        Worker.Contend (workers.map Worker.routine) p pair) ∧
      (races ≠ [] ↔ ∃ id, memory.object? id = some o ∧ memory.isShared id = true) := by
  obtain ⟨t, hbuild, hstaffed, hpointsTo⟩ :=
    Trace.exists_staffed h hne pointsTo hentry hruntime hlimit
  have ht := Trace.build_wellFormed hbuild
  have ho' : t.pointsTo.objects p = [o] := hpointsTo ▸ ho
  obtain ⟨races, hraces, hnodup, hpairs⟩ := hstaffed.exists_races ho' ht
  obtain ⟨memory, hmemory, hshared⟩ := hstaffed.exists_isShared_iff ho' ht
  refine ⟨t, memory, races, hbuild, hmemory, ?_, hnodup, hpairs, ?_⟩
  · simp [analyze, hvalid, hbuild, hraces]
  · rw [hshared]
    constructor
    · intro hraces
      obtain ⟨r, hr⟩ := List.exists_mem_of_ne_nil _ hraces
      exact ⟨_, (hpairs _).1 ⟨r, hr, rfl⟩⟩
    · rintro ⟨pair, hpair⟩
      obtain ⟨r, hr, -⟩ := (hpairs pair).2 hpair
      exact List.ne_nil_of_mem hr

end Program.Employs

/-- Any number of workers that access one object through one pointer, started and joined by the main
routine of an accepted program, race on the pairs of access instructions of different workers of
which one is a store or a free, and on no other.  Each pair is reported once, and there is a race
exactly if the object is shared.  Only a program without any worker is refused, since its main
routine has no body. -/
theorem analyze_workers {program : Program} {p : ValueId} {workers : List Worker}
    {joins : List Instruction} (h : program.Employs p workers joins) {pointsTo : PointsTo}
    {o : ObjectId} (ho : pointsTo.objects p = [o]) {limit : Nat} (hlimit : workers.length < limit)
    (hvalid : limit ≤ 100000) :
    (workers = [] → analyze program pointsTo { Settings.default with maxThreads := limit } =
      .error (.build (.entryWithoutBody "main"))) ∧
    (workers ≠ [] → ∃ t memory races,
      Trace.build ⟨program, pointsTo, { Settings.default with maxThreads := limit },
        Interface.standard⟩ = .ok t ∧
      SharedMemory.ofTrace t = .ok memory ∧
      analyze program pointsTo { Settings.default with maxThreads := limit } = .ok races ∧
      (races.map Race.instructions).Nodup ∧
      (∀ pair, (∃ r ∈ races, r.instructions = pair) ↔
        ∃ v ∈ workers, ∃ w ∈ workers, v ≠ w ∧ ∃ i ∈ v.routine.body, ∃ j ∈ w.routine.body,
          ∃ ti tj, i.accessOf? p = some ti ∧ j.accessOf? p = some tj ∧ (ti ≠ .read ∨ tj ≠ .read) ∧
            s(i.id, j.id) = pair) ∧
      (races ≠ [] ↔ ∃ id, memory.object? id = some o ∧ memory.isShared id = true)) := by
  have hsettings : Settings.validate { Settings.default with maxThreads := limit } = .ok () := by
    have hrange : 1 ≤ limit ∧ limit ≤ 100000 := ⟨Nat.zero_lt_of_lt hlimit, hvalid⟩
    simp [Settings.validate, Settings.inRange, hrange, Settings.default, Settings.preset, bind,
      Except.bind]
  refine ⟨fun hnil => h.analyze_of_nil hnil pointsTo hsettings rfl, fun hne => ?_⟩
  simp only [← h.contend_iff]
  exact h.exists_analyze hne ho hsettings rfl rfl hlimit

namespace Worker

/-- A worker with a handle, started and joined by instructions that are numbered after the
handle. -/
def numbered (k : Nat) (f : Routine) : Worker where
  routine := f
  handle := ⟨k⟩
  create := ⟨⟨2 * k⟩, .call (.direct "pthread_create") [.value ⟨k⟩, .null, .routine f.name], none⟩
  join := ⟨⟨2 * k + 1⟩, .call (.direct "pthread_join") [.value ⟨k⟩, .null], none⟩

/-- A worker that reads, one that reads and releases, and one without a body. -/
def trio : List Worker :=
  [numbered 1 ⟨"reader", [⟨⟨10⟩, .load ⟨0⟩ false, none⟩]⟩,
    numbered 2 ⟨"cleaner", [⟨⟨11⟩, .load ⟨0⟩ false, none⟩,
      ⟨⟨12⟩, .call (.direct "free") [.value ⟨0⟩], none⟩]⟩,
    numbered 3 ⟨"idle", []⟩]

/-- The program of some workers. -/
def program (workers : List Worker) : Program :=
  .index "m" (main workers (workers.map join) :: workers.map routine)

/-- One pointer that points to one object. -/
def pointsTo : PointsTo := (PointsTo.empty.nameObject "x").2.bind ⟨0⟩ [⟨0⟩]

/-- A numbered worker is started and joined by its handle. -/
theorem uses_numbered {p : ValueId} (k : Nat) {f : Routine}
    (hbody : ∀ i ∈ f.body, (i.accessOf? p).isSome) : (numbered k f).Uses p where
  body i hi := Option.isSome_iff_exists.1 (hbody i hi)
  create := ⟨.null, [], rfl⟩
  join := ⟨[.null], rfl⟩

/-- The three workers make up a program. -/
theorem employs_trio : (program trio).Employs ⟨0⟩ trio (trio.map join) where
  accepted := by
    refine ⟨"m", _, Program.ofRoutines_eq_ok.2 ⟨?_, rfl⟩, .refl _⟩
    simp [Program.checkFrom, Program.addIds, main, trio, numbered]
  uses w hw := by
    simp only [trio, List.mem_cons, List.not_mem_nil, or_false] at hw
    rcases hw with rfl | rfl | rfl <;> exact uses_numbered _ (by decide)
  joins := .refl _

end Worker

/-- Of three workers, the read of one and the release of another race, and nothing else does. -/
theorem analyze_trio :
    ((Worker.program Worker.trio).Employs ⟨0⟩ Worker.trio (Worker.trio.map Worker.join) ∧
      Worker.pointsTo.objects ⟨0⟩ = [⟨0⟩] ∧ Worker.trio.length < 4 ∧ 4 ≤ 100000) ∧
      ∃ races, analyze (Worker.program Worker.trio) Worker.pointsTo
          { Settings.default with maxThreads := 4 } = .ok races ∧
        (∀ pair, (∃ r ∈ races, r.instructions = pair) ↔ s(⟨10⟩, ⟨12⟩) = pair) := by
  have hpointsTo : Worker.pointsTo.objects ⟨0⟩ = [⟨0⟩] := rfl
  have hlimit : Worker.trio.length < 4 := by decide
  obtain ⟨-, hsome⟩ := analyze_workers Worker.employs_trio hpointsTo hlimit (by decide)
  obtain ⟨-, -, races, -, -, hraces, -, hpairs, -⟩ := hsome (by decide)
  refine ⟨⟨Worker.employs_trio, hpointsTo, hlimit, by decide⟩, races, hraces, fun pair => ?_⟩
  have hswap : s((⟨12⟩ : InstId), ⟨10⟩) = s(⟨10⟩, ⟨12⟩) := Sym2.eq_swap
  rw [hpairs]
  simp [Worker.trio, Worker.numbered, Instruction.accessOf?, releases, hswap]

/-- A main routine without a body makes up a program without workers. -/
theorem Worker.employs_nil : (Worker.program []).Employs ⟨0⟩ [] [] where
  accepted := by
    refine ⟨"m", _, Program.ofRoutines_eq_ok.2 ⟨?_, rfl⟩, .refl _⟩
    simp [Program.checkFrom, Program.addIds, main]
  uses := nofun
  joins := .nil

/-- Without workers the analysis is refused, though there is nothing that could race. -/
theorem analyze_noWorkers :
    (Worker.program []).Employs ⟨0⟩ [] [] ∧ Worker.pointsTo.objects ⟨0⟩ = [⟨0⟩] ∧
      analyze (Worker.program []) Worker.pointsTo Settings.default =
        .error (.build (.entryWithoutBody "main")) ∧
      ¬ ∃ races, analyze (Worker.program []) Worker.pointsTo Settings.default = .ok races := by
  have hvalid : Settings.default.validate = .ok () := rfl
  have herror := Worker.employs_nil.analyze_of_nil rfl Worker.pointsTo hvalid rfl
  refine ⟨Worker.employs_nil, rfl, herror, ?_⟩
  rintro ⟨races, hraces⟩
  rw [herror] at hraces
  cases hraces

end DataRace
