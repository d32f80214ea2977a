import DataRace.Proofs.Trace.Events

/-!
# The tree of threads

Threads are numbered depth first: a thread and all threads that it leads to have numbers one after
the other.  `Trace.ForkTree` says this together with what ties fork events to threads, and
`Trace.build_forkTree` proves it of every trace that is built.

While a trace is built, the lists of children of the threads that are still being walked are
ahead of their events in the table.  So `Walk.Branched` compares the children of the walking thread
with its own events, says nothing of the threads before it, and takes those behind it from the
table.  That numbers come one after the other is kept in the form that the parent of a thread leads
to the thread before it.
-/

namespace DataRace

open Relation

namespace Event

/-- The thread that an event starts. -/
def forked? (e : Event) : Option ThreadId :=
  match e.kind with
  | .fork child => some child
  | _ => none

/-- Only forks start threads. -/
theorem forked?_eq_some {e : Event} {child : ThreadId} :
    e.forked? = some child ↔ e.kind = .fork child := by
  unfold forked?
  split
  · next h => simp [h]
  · next h => simpa using h child

end Event

/-- The threads that events start, in order. -/
def forkedBy (events : Array Event) : List ThreadId := events.toList.filterMap Event.forked?

/-- One more event that starts a thread. -/
theorem forkedBy_push_fork {events : Array Event} {e : Event} {child : ThreadId}
    (h : e.kind = .fork child) : forkedBy (events.push e) = forkedBy events ++ [child] := by
  simp [forkedBy, Event.forked?_eq_some.2 h]

/-- One more event that starts none. -/
theorem forkedBy_push_other {events : Array Event} {e : Event} (h : ¬ e.kind.Forks) :
    forkedBy (events.push e) = forkedBy events := by
  have hnone : e.forked? = none :=
    Option.eq_none_iff_forall_ne_some.2 fun child hchild =>
      h ⟨child, Event.forked?_eq_some.1 hchild⟩
  simp [forkedBy, hnone]

/-- A thread was started by one of the events. -/
theorem mem_forkedBy {events : Array Event} {child : ThreadId} :
    child ∈ forkedBy events ↔
      ∃ (j : Nat) (e : Event), events[j]? = some e ∧ e.kind = .fork child := by
  simp only [forkedBy, List.mem_filterMap, Array.mem_toList_iff, Array.mem_iff_getElem?,
    Event.forked?_eq_some]
  constructor
  · rintro ⟨e, ⟨j, he⟩, hkind⟩
    exact ⟨j, e, he, hkind⟩
  · rintro ⟨j, e, he, hkind⟩
    exact ⟨e, ⟨j, he⟩, hkind⟩

/-- Children are those that events start, in the order of the events and of their numbers. -/
structure Begets (events : Array Event) (children : Array ThreadId) : Prop where
  eq_forked : children.toList = forkedBy events
  ascending : children.toList.Pairwise (· < ·)

namespace Begets

/-- Without events there are no children. -/
theorem nil : Begets #[] #[] := ⟨rfl, .nil⟩

/-- One more child, behind all others. -/
theorem push {events : Array Event} {children : Array ThreadId} (h : Begets events children)
    {e : Event} {child : ThreadId} (hkind : e.kind = .fork child)
    (hlast : ∀ i ∈ forkedBy events, i < child) : Begets (events.push e) (children.push child) where
  eq_forked := by rw [Array.toList_push, forkedBy_push_fork hkind, h.eq_forked]
  ascending := by
    rw [Array.toList_push, List.pairwise_append]
    refine ⟨h.ascending, List.pairwise_singleton _ _, fun i hi j hj => ?_⟩
    rw [List.mem_singleton.1 hj]
    exact hlast i (h.eq_forked ▸ hi)

/-- Later events start later children. -/
theorem lt {events : Array Event} {children : Array ThreadId} (h : Begets events children)
    {j k : Nat} (hjk : j < k) {e f : Event} {a b : ThreadId} (he : events[j]? = some e)
    (ha : e.kind = .fork a) (hf : events[k]? = some f) (hb : f.kind = .fork b) : a < b := by
  have hsorted := h.ascending
  rw [h.eq_forked, forkedBy, List.pairwise_filterMap, List.pairwise_iff_getElem] at hsorted
  obtain ⟨hj, rfl⟩ := Array.getElem?_eq_some_iff.1 he
  obtain ⟨hk, rfl⟩ := Array.getElem?_eq_some_iff.1 hf
  exact hsorted j k hj hk hjk a (Event.forked?_eq_some.2 ha) b (Event.forked?_eq_some.2 hb)

end Begets

namespace Walk

/-- A step that leaves the table of threads alone and starts no thread. -/
structure Barren (w w' : Walk) : Prop where
  thread_eq : w'.self.thread = w.self.thread
  threads_eq : w'.session.threads = w.session.threads
  forked_eq : forkedBy w'.self.events = forkedBy w.self.events

namespace Barren

variable {c : Subject} {u v w w' : Walk}

/-- A step that changes notes only. -/
theorem of_eq (hthread : w'.self.thread = w.self.thread)
    (hthreads : w'.session.threads = w.session.threads)
    (hevents : w'.self.events = w.self.events) : Barren w w' :=
  ⟨hthread, hthreads, congrArg forkedBy hevents⟩

/-- Two steps. -/
protected theorem trans (huv : Barren u v) (hvw : Barren v w) : Barren u w :=
  ⟨hvw.thread_eq.trans huv.thread_eq, hvw.threads_eq.trans huv.threads_eq,
    hvw.forked_eq.trans huv.forked_eq⟩

/-- An event that starts no thread. -/
theorem record (w : Walk) (id : NodeId) {kind : EventKind} (h : ¬ kind.Forks) :
    Barren w (w.record id kind) :=
  ⟨rfl, rfl, forkedBy_push_other h⟩

/-- A join starts no thread. -/
theorem recordJoin (w : Walk) (id : NodeId) (child : Option ThreadId) :
    Barren w (w.record id (.join child)) := by
  refine record w id ?_
  rintro ⟨i, hi⟩
  cases hi

/-- Joining what a handle denotes. -/
theorem joinHandle (w : Walk) (id : NodeId) (handle : Operand) :
    Barren w (w.joinHandle c id handle) := by
  rw [Walk.joinHandle]
  split
  · next f _ =>
    have hsettled : Barren w { w with self := w.self.settle f.node f.child } := of_eq rfl rfl rfl
    exact hsettled.trans (recordJoin _ id _)
  · exact recordJoin w id _

/-- Joining a child through its companion join. -/
theorem joinChild {node : NodeId} {child : ThreadId} (h : w.joinChild node child = .ok w') :
    Barren w w' := by
  obtain ⟨hextends, join, -, -, -, hself⟩ := joinChild_spec h
  have hsettled : Barren w { w' with self := w.self.settle node child } :=
    of_eq rfl hextends.threads rfl
  have hjoined := hsettled.trans (recordJoin _ join (some child))
  exact ⟨hself ▸ hjoined.thread_eq, hjoined.threads_eq, hself ▸ hjoined.forked_eq⟩

end Barren

/-- What a walk keeps of the tree of threads: the walking thread has the children that its own
events start, every thread behind it those of its events in the table, and the parent of a thread
behind it leads to the thread before that one. -/
structure Branched (w : Walk) : Prop where
  own : ∀ th, w.session.threads[w.self.thread]? = some th → Begets w.self.events th.children
  behind : ∀ (i : ThreadId) th, w.self.thread < i → w.session.threads[i]? = some th →
    Begets th.events th.children
  nested : ∀ i, w.self.thread ≤ i → i + 1 < w.session.threads.size →
    ∃ p, Thread.Starts w.session.threads p (i + 1) ∧
      ReflTransGen (Thread.Starts w.session.threads) p i

variable {c : Subject} {r : Runtime} {w v w' last : Walk}

/-- A walk leads to every thread behind it. -/
theorem Sound.leads_self (hw : Sound w) {i : ThreadId} (hle : w.self.thread ≤ i)
    (hi : i < w.session.threads.size) :
    ReflTransGen (Thread.Starts w.session.threads) w.self.thread i := by
  induction i using Nat.strongRecOn with
  | _ i ih =>
    rcases Nat.eq_or_lt_of_le hle with heq | hlt
    · exact heq ▸ .refl
    · have hth := Array.getElem?_eq_getElem hi
      obtain ⟨s, hsite, hles, hlts, -⟩ := hw.sited i _ hth hlt
      have hstart : Thread.Starts w.session.threads s.thread i :=
        ⟨_, hth, by rw [Thread.parent?, hsite]; rfl⟩
      exact (ih s.thread hlts hles (hlts.trans hi)).tail hstart

namespace Branched

/-- A step that starts no thread keeps the tree. -/
theorem barren (hb : Branched w) (h : Barren w w') : Branched w' := by
  obtain ⟨hthread, hthreads, hforked⟩ := h
  constructor
  · intro th hth
    rw [hthreads, hthread] at hth
    obtain ⟨heq, hascending⟩ := hb.own th hth
    exact ⟨heq.trans hforked.symm, hascending⟩
  · intro i th hi hth
    rw [hthreads] at hth
    exact hb.behind i th (hthread ▸ hi) hth
  · rw [hthreads, hthread]
    exact hb.nested

/-- The main thread on its own. -/
theorem start {s : Session} {entry : String} (h : s.threads = #[Thread.new 0 entry none none]) :
    Branched ⟨s, Walker.start 0 none⟩ := by
  constructor
  · intro th hth
    rw [h] at hth
    cases hth
    exact .nil
  · intro i th hi hth
    rw [h, Array.getElem?_eq_some_iff] at hth
    obtain ⟨hlt, -⟩ := hth
    exact absurd hi (Nat.not_lt.2 (Nat.le_of_lt_succ hlt))
  · intro i _ hi
    rw [h] at hi
    exact absurd hi (Nat.not_lt.2 (Nat.le_add_left 1 i))

/-- A child that was just started. -/
theorem enterChild {id : NodeId} {target : String} {child : ThreadId} (hw : Sound w)
    (h : w.beginFork id target = .ok (child, v)) (api : ForkApi) :
    Branched (v.enterChild child api) := by
  obtain ⟨hchild, -⟩ := beginFork_spec h
  have hsize : v.session.threads.size = child + 1 := hchild ▸ beginFork_size h
  constructor
  · intro th hth
    have hth' : v.session.threads[child]? = some th := hth
    rw [beginFork_getElem? h, if_neg (hchild ▸ hw.inTable.ne'), if_pos hchild] at hth'
    cases hth'
    exact .nil
  · intro i th hi hth
    have hlt : i < v.session.threads.size := (Array.getElem?_eq_some_iff.1 hth).1
    rw [hsize] at hlt
    exact absurd hi (Nat.not_lt.2 (Nat.le_of_lt_succ hlt))
  · intro i hle hi
    have hlt : i + 1 < v.session.threads.size := hi
    rw [hsize] at hlt
    exact absurd (Nat.lt_of_succ_lt_succ hlt) (Nat.not_lt.2 hle)

/-- A parent goes on with one more child after the child has ended. -/
theorem endFork (hb : Branched w) (hw : Sound w) {id : NodeId} {target : String}
    {child : ThreadId} (h : w.beginFork id target = .ok (child, v)) {api : ForkApi}
    (hframe : Framed (v.enterChild child api) last) (hlast : Branched last) (handle : Operand) :
    Branched (v.endFork r id api handle last.close) := by
  obtain ⟨hchild, -, -, hself⟩ := beginFork_spec h
  have hsize : v.session.threads.size = child + 1 := hchild ▸ beginFork_size h
  have hafter : w.self.thread < child := hchild ▸ hw.inTable
  have hthread : last.self.thread = child := hframe.thread_eq
  have hpreserved : Thread.Preserved v.session.threads last.close.session.threads :=
    hframe.preserved.trans (preserved_close last)
  have hcloses := preserved_close last
  -- Threads before the child are as the parent left them.
  have hold : ∀ i, i < child → last.close.session.threads[i]? = v.session.threads[i]? := by
    intro i hi
    rw [close_getElem?, if_neg fun heq => hi.ne (heq.trans hthread)]
    exact hframe.others i (hsize ▸ Nat.lt_succ_of_lt hi) hi.ne
  constructor
  · intro th hth
    have hth' : last.close.session.threads[w.self.thread]? = some th := by
      rw [show w.self.thread = v.self.thread by rw [hself]; rfl]
      exact hth
    rw [hold _ hafter, beginFork_getElem? h, if_pos rfl, Array.getElem?_push,
      if_neg hw.inTable.ne, Option.map_eq_some_iff] at hth'
    obtain ⟨old, hget, rfl⟩ := hth'
    show Begets v.self.events _
    rw [hself]
    refine (hb.own old hget).push rfl fun i hi => ?_
    obtain ⟨j, e, he, hkind⟩ := mem_forkedBy.1 hi
    obtain ⟨-, th, hth, -⟩ := (hw.own j e he).fork i hkind
    exact hchild ▸ (Array.getElem?_eq_some_iff.1 hth).1
  · intro i th hi hth
    have hth' : last.close.session.threads[i]? = some th := hth
    have hi' : w.self.thread < i := by
      rw [show w.self.thread = v.self.thread by rw [hself]; rfl]
      exact hi
    rcases Nat.lt_trichotomy i child with hlt | rfl | hgt
    · rw [hold i hlt, beginFork_getElem? h, if_neg hi'.ne', if_neg (hchild ▸ hlt.ne)] at hth'
      exact hb.behind i th hi' hth'
    · rw [close_getElem?, if_pos hthread.symm, Option.map_eq_some_iff] at hth'
      obtain ⟨old, hget, rfl⟩ := hth'
      exact hlast.own old (hthread.symm ▸ hget)
    · rw [close_getElem?, if_neg fun heq => hgt.ne' (heq.trans hthread)] at hth'
      exact hlast.behind i th (hthread ▸ hgt) hth'
  · intro i hle hi
    have hle' : w.self.thread ≤ i := by
      rw [show w.self.thread = v.self.thread by rw [hself]; rfl]
      exact hle
    have hall : Thread.Preserved w.session.threads last.close.session.threads :=
      (preserved_beginFork h).trans hpreserved
    rcases Nat.lt_trichotomy (i + 1) child with hlt | heq | hgt
    · obtain ⟨p, hstart, hpath⟩ := hb.nested i hle' (hchild ▸ hlt)
      exact ⟨p, hall.starts hstart, ReflTransGen.mono (fun _ _ => hall.starts) _ _ hpath⟩
    -- The parent of the new child leads to all threads that were there.
    · have hsited : Thread.Starts v.session.threads w.self.thread child := by
        refine ⟨_, by rw [beginFork_getElem? h, if_neg hafter.ne', if_pos hchild], rfl⟩
      refine ⟨w.self.thread, heq ▸ hpreserved.starts hsited, ?_⟩
      exact ReflTransGen.mono (fun _ _ => hall.starts) _ _
        (hw.leads_self hle' (hchild ▸ heq ▸ Nat.lt_succ_self i))
    · have hi' : i + 1 < last.close.session.threads.size := hi
      rw [size_close] at hi'
      obtain ⟨p, hstart, hpath⟩ := hlast.nested i (hthread ▸ Nat.le_of_lt_succ hgt) hi'
      exact ⟨p, hcloses.starts hstart, ReflTransGen.mono (fun _ _ => hcloses.starts) _ _ hpath⟩

end Branched

/-- Growth keeps the tree of threads. -/
theorem Grows.branched (h : Grows c r w w') (hw : Sound w) (hb : Branched w) : Branched w' := by
  induction h with
  | refl w => exact hb
  | trans huv _ ih₁ ih₂ => exact ih₂ (huv.sound hw) (ih₁ hw hb)
  | consult h => exact hb.barren (.of_eq rfl h.extends.threads rfl)
  | skip | meet | note => exact hb.barren (.of_eq rfl rfl rfl)
  | @record w id n kind hn hlocal hkind =>
    refine hb.barren (.record w id ?_)
    rintro ⟨child, rfl⟩
    cases hlocal
  | @joinCompanion w _ id _ _ _ _ h =>
    exact hb.barren (joinCompanion_induction (P := Barren w) h (.of_eq rfl rfl rfl)
      fun v f _ _ hv => hv.trans (.recordJoin v id _))
  | @joinHandle w id _ handle => exact hb.barren (.joinHandle w id handle)
  | @joinPending w _ _ h =>
    exact hb.barren (joinPending_induction (P := Barren w) h (.of_eq rfl rfl rfl)
      fun _ _ _ _ hv hj => hv.trans (.joinChild hj))
  | @fork w v inner last id n api handle entry target child hn heffect _ _ hbegin hinner hlast _
      ihinner ihlast =>
    obtain ⟨-, hentered⟩ := hw.startChild hn heffect hbegin
    have hended := ihlast (hinner.sound hentered) (ihinner hentered (.enterChild hw hbegin api))
    exact hb.endFork hw hbegin (hinner.trans hlast).framed hended handle

end Walk

/-! ### Numbers one after the other -/

namespace Thread

variable {ths : Array Thread}

/-- A thread that was started stands in the table. -/
theorem Starts.lt_size {a b : ThreadId} (h : Starts ths a b) : b < ths.size := by
  obtain ⟨th, hth, -⟩ := h
  exact (Array.getElem?_eq_some_iff.1 hth).1

/-- A thread is started by one thread only. -/
theorem Starts.unique {a b d : ThreadId} (h : Starts ths a d) (h' : Starts ths b d) : a = b := by
  obtain ⟨th, hth, hparent⟩ := h
  obtain ⟨th', hth', hparent'⟩ := h'
  rw [hth] at hth'
  cases hth'
  rw [hparent] at hparent'
  exact Option.some.inj hparent'

/-- Where parents lead to the threads before their children, a thread that leads to another leads to
all threads in between. -/
theorem leads_between
    (h : ∀ i, i + 1 < ths.size → ∃ p, Starts ths p (i + 1) ∧ ReflTransGen (Starts ths) p i)
    {a b d : Nat} (hab : a ≤ b) (hbd : b ≤ d) (had : ReflTransGen (Starts ths) a d) :
    ReflTransGen (Starts ths) a b := by
  induction d, hbd using Nat.le_induction with
  | base => exact had
  | succ d hbd ih =>
    rcases ReflTransGen.cases_tail had with heq | ⟨q, haq, hq⟩
    · have hsame : d + 1 = a := heq
      omega
    · obtain ⟨p, hp, hpd⟩ := h d hq.lt_size
      obtain rfl := hq.unique hp
      exact ih (haq.trans hpd)

end Thread

namespace Trace

/-- The threads of a trace form a tree that its fork events describe, numbered depth first. -/
structure ForkTree (t : Trace) : Prop where
  /-- Threads stand at their numbers. -/
  id_eq : ∀ (i : ThreadId) th, t.threads[i]? = some th → th.id = i
  /-- Events stand at their names. -/
  ref_eq : ∀ r e, t.event? r = some e → e.ref = r
  /-- Every event has a node of its category. -/
  node : ∀ r e, t.event? r = some e →
    ∃ n, t.arena.get? e.node = some n ∧ n.category = e.kind.category
  /-- Nobody started the main thread. -/
  root : ∀ th, t.threads[0]? = some th → th.parent? = none
  /-- Every other thread was started by a fork event of an earlier thread, which it names together
  with the node of the event. -/
  sited : ∀ (i : ThreadId) th, t.threads[i]? = some th → 0 < i →
    ∃ s e, th.parent? = some s.thread ∧ s.thread < i ∧ th.site = some s ∧ t.event? s = some e ∧
      e.kind = .fork i ∧ th.fork = some e.node
  /-- Every fork event started one of these threads, the one that names it. -/
  forked : ∀ r e child, t.event? r = some e → e.kind = .fork child →
    0 < child ∧ ∃ th, t.threads[child]? = some th ∧ th.site = some r
  /-- The children of a thread are those that its events start, in order. -/
  children : ∀ (i : ThreadId) th, t.threads[i]? = some th → Begets th.events th.children
  /-- A thread and all threads that it leads to have numbers one after the other. -/
  interval : ∀ i < t.threadCount, ∃ n, i < n ∧ n ≤ t.threadCount ∧
    ∀ j, ReflTransGen (Thread.Starts t.threads) i j ↔ i ≤ j ∧ j < n

/-- What a thread leads to ends before the first later thread that it does not lead to. -/
theorem WellFormed.exists_end {t : Trace} (ht : t.WellFormed)
    (h : ∀ i, i + 1 < t.threads.size → ∃ p, Thread.Starts t.threads p (i + 1) ∧
      ReflTransGen (Thread.Starts t.threads) p i) {i : Nat} (hi : i < t.threadCount) :
    ∃ n, i < n ∧ n ≤ t.threadCount ∧
      ∀ j : Nat, ReflTransGen (Thread.Starts t.threads) i j ↔ i ≤ j ∧ j < n := by
  classical
  have hin : ∀ j : Nat, ReflTransGen (Thread.Starts t.threads) i j → j < t.threadCount := by
    intro j hj
    rcases ReflTransGen.cases_tail hj with rfl | ⟨q, -, hq⟩
    · exact hi
    · exact hq.lt_size
  have hout : ∃ n : Nat, i ≤ n ∧ ¬ ReflTransGen (Thread.Starts t.threads) i n :=
    ⟨t.threadCount, hi.le, fun hlast => lt_irrefl _ (hin _ hlast)⟩
  obtain ⟨hle, hnot⟩ := Nat.find_spec hout
  have hbefore : ∀ j : Nat, i ≤ j → j < Nat.find hout →
      ReflTransGen (Thread.Starts t.threads) i j :=
    fun j hij hj => not_not.1 fun hnone => Nat.find_min hout hj ⟨hij, hnone⟩
  refine ⟨Nat.find hout, ?_, ?_, fun j => ⟨fun hj => ?_, fun hj => hbefore j hj.1 hj.2⟩⟩
  · refine Nat.lt_of_le_of_ne hle fun heq => hnot ?_
    rw [← heq]
  · exact Nat.find_min' hout ⟨hi.le, fun hlast => lt_irrefl _ (hin _ hlast)⟩
  · refine ⟨ht.descends_le hj, Nat.lt_of_not_le fun hend => hnot ?_⟩
    exact Thread.leads_between h hle hend hj

/-- The children of every thread of a trace that is built are those that its events start, in
order. -/
theorem build_begets {c : Subject} {t : Trace} (h : Trace.build c = .ok t) {i : ThreadId}
    {th : Thread} (hth : t.threads[i]? = some th) : Begets th.events th.children := by
  obtain ⟨s, w, hthreads, hgrows, rfl⟩ := build_grows h
  have hb : w.Branched := hgrows.branched (.start hthreads) (.start hthreads)
  have hmain : w.self.thread = 0 := hgrows.framed.thread_eq
  have hth' : w.close.session.threads[i]? = some th := hth
  rw [Walk.close_getElem?] at hth'
  split at hth'
  · next hi =>
    obtain ⟨old, hold, rfl⟩ := Option.map_eq_some_iff.1 hth'
    exact hb.own old (hi ▸ hold)
  · next hi =>
    exact hb.behind i th (Nat.lt_of_le_of_ne (hmain ▸ Nat.zero_le i) (Ne.symm hi)) hth'

/-- The threads of every trace that is built form such a tree. -/
theorem build_forkTree {c : Subject} {t : Trace} (h : Trace.build c = .ok t) : t.ForkTree := by
  have ht := build_wellFormed h
  have hbegets : ∀ {i : ThreadId} {th}, t.threads[i]? = some th → Begets th.events th.children :=
    fun hth => build_begets h hth
  obtain ⟨s, w, hthreads, hgrows, rfl⟩ := build_grows h
  have hsound : w.Sound := hgrows.sound (.start hthreads)
  have hb : w.Branched := hgrows.branched (.start hthreads) (.start hthreads)
  have hmain : w.self.thread = 0 := hgrows.framed.thread_eq
  have hcloses := Walk.preserved_close w
  constructor
  · exact ht.id_eq
  · exact fun r e he => ht.ref_eq he
  · exact fun r e he => (ht.fits_event? he).node
  · intro th hth
    rw [Thread.parent?, ht.root th hth]
    rfl
  · intro i th hth hi
    obtain ⟨s, hsite, hlt, e, he, hkind⟩ := ht.sited i th hth hi
    obtain ⟨-, th', hth', -, hfork⟩ := (ht.fits_event? he).fork i hkind
    rw [hth] at hth'
    cases hth'
    exact ⟨s, e, by rw [Thread.parent?, hsite]; rfl, hlt, hsite, he, hkind, hfork⟩
  · intro r e child he hkind
    obtain ⟨hlt, th, hth, hsite, -⟩ := (ht.fits_event? he).fork child hkind
    exact ⟨Nat.zero_lt_of_lt hlt, th, hth, hsite⟩
  · exact fun i th hth => hbegets hth
  · intro i hi
    refine ht.exists_end (fun j hj => ?_) hi
    obtain ⟨p, hstart, hpath⟩ :=
      hb.nested j (hmain ▸ Nat.zero_le j) ((Walk.size_close w).symm ▸ hj)
    exact ⟨p, hcloses.starts hstart, ReflTransGen.mono (fun _ _ => hcloses.starts) _ _ hpath⟩

/-- A task stands between the two members of the team. -/
theorem forkTree_teamTask :
    Trace.build TeamTask.subject = .ok TeamTask.trace ∧ TeamTask.trace.ForkTree :=
  ⟨TeamTask.build_eq, build_forkTree TeamTask.build_eq⟩

end Trace

end DataRace
