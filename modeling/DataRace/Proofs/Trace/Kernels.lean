import DataRace.Proofs.Trace.Tours

/-!
# Kernels

With the CUDA runtime a thread that visits a node which synchronises with the device or with a
stream joins the kernels that are due: those that it has launched since it last did so
(`Trace.due`).  Each of them gets one join, in the order of the launches, and nothing else is
recorded (`Trace.JoinsKernels`).

What is due is read off the tour of the main thread, while the runtime keeps a list of what is
pending.  `Walk.Outstanding` says that the two agree.  Between two such visits of a thread only a
fork changes what is pending, and the child that it walks first makes no visit of its parent
(`Walk.Outstanding.endFork`, `Frame.Tours.between`); such a visit takes the whole list
(`Walk.Outstanding.sync`).  By induction on tours the list is right throughout
(`Frame.Tours.dutiful`), so all such visits of a build join what is due
(`Trace.Toured.joinsKernels`).
-/

namespace DataRace

/-- A node synchronises with the device or with a stream. -/
def Node.syncsDevice (n : Node) : Bool :=
  n.callApi? == some .cudaDeviceSync || n.callApi? == some .cudaStreamSync

/-- How many events a thread had when it had last synchronised, none if it never did. -/
def lastSync (log : List Visit) (i : ThreadId) : Nat :=
  ((log.filter fun v => v.thread == i && v.node.syncsDevice).getLast?.map
    fun v => v.after.self.events.size).getD 0

section

variable {log earlier : List Visit} {v : Visit} {i : ThreadId}

/-- Visits of other threads and of other nodes do not count. -/
theorem lastSync_append (h : ∀ v ∈ log, v.thread = i → v.node.syncsDevice = false) :
    lastSync (earlier ++ log) i = lastSync earlier i := by
  have hnone : (log.filter fun v => v.thread == i && v.node.syncsDevice) = [] := by
    refine List.filter_eq_nil_iff.2 fun v hv => ?_
    rw [Bool.and_eq_true, beq_iff_eq]
    rintro ⟨hi, hsync⟩
    exact Bool.false_ne_true ((h v hv hi).symm.trans hsync)
  rw [lastSync, List.filter_append, hnone, List.append_nil, lastSync]

/-- A thread that has not been seen yet never synchronised. -/
theorem lastSync_of_ne (h : ∀ v ∈ earlier, v.thread ≠ i) : lastSync earlier i = 0 :=
  (congrArg (lastSync · i) (List.nil_append earlier)).symm.trans
    (lastSync_append fun v hv hi => absurd hi (h v hv))

/-- A thread has just synchronised. -/
theorem lastSync_concat (hsync : v.node.syncsDevice = true) :
    lastSync (earlier ++ [v]) v.thread = v.after.self.events.size := by
  have hlast : ([v].filter fun x => x.thread == v.thread && x.node.syncsDevice) = [v] :=
    List.filter_eq_self.2 fun x hx => by
      rw [List.mem_singleton.1 hx, hsync, beq_self_eq_true, Bool.and_self]
  rw [lastSync, List.filter_append, hlast, List.getLast?_concat]
  rfl

end

namespace Trace

variable {t : Trace}

/-- A thread runs a kernel. -/
def isKernel (t : Trace) (i : ThreadId) : Bool :=
  match t.spawnApi? i with
  | some (.cudaKernel _ _) => true
  | _ => false

/-- The kernels that events launch, in order. -/
def launches (t : Trace) (events : List Event) : List ThreadId :=
  (events.filterMap Event.forked?).filter t.isKernel

/-- The kernels that the thread of a visit launched since it last synchronised. -/
def due (t : Trace) (earlier : List Visit) (v : Visit) : List ThreadId :=
  t.launches (v.before.self.events.toList.drop (lastSync earlier v.thread))

/-- A visit joins the kernels that are due, each once, and records nothing else. -/
structure JoinsKernels (t : Trace) (earlier : List Visit) (v : Visit) : Prop where
  ascending : (t.due earlier v).Pairwise (· < ·)
  joins : ∃ joins : List Event, v.after.self.events = v.before.self.events ++ joins.toArray ∧
    List.Forall₂ (fun child e => t.Completes e child) (t.due earlier v) joins

/-- All visits of nodes that synchronise join the kernels that are due. -/
def AllJoin (t : Trace) : List Visit → List Visit → Prop
  | _, [] => True
  | earlier, v :: log =>
    (v.node.syncsDevice = true → t.JoinsKernels earlier v) ∧ t.AllJoin (earlier ++ [v]) log

/-- What all visits do in two parts of a log. -/
theorem allJoin_append {earlier log more : List Visit} :
    t.AllJoin earlier (log ++ more) ↔ t.AllJoin earlier log ∧ t.AllJoin (earlier ++ log) more := by
  induction log generalizing earlier with
  | nil => simp [AllJoin]
  | cons v log ih => simp [AllJoin, ih, and_assoc]

/-- Kernels that are launched in two parts of a list. -/
theorem launches_append (events more : List Event) :
    t.launches (events ++ more) = t.launches events ++ t.launches more := by
  rw [launches, List.filterMap_append, List.filter_append]
  rfl

/-- Events that start no thread launch no kernel. -/
theorem launches_of_not_forks {events : List Event} (h : ∀ e ∈ events, ¬ e.kind.Forks) :
    t.launches events = [] := by
  have hnone : events.filterMap Event.forked? = [] :=
    List.filterMap_eq_nil_iff.2 fun e he => Option.eq_none_iff_forall_ne_some.2 fun child hchild =>
      h e he ⟨child, Event.forked?_eq_some.1 hchild⟩
  rw [launches, hnone]
  rfl

/-- A thread that events launch is a kernel, and one of them forks it. -/
theorem mem_launches {events : List Event} {child : ThreadId} :
    child ∈ t.launches events ↔ (∃ e ∈ events, e.kind = .fork child) ∧ t.isKernel child = true := by
  simp only [launches, List.mem_filter, List.mem_filterMap, Event.forked?_eq_some]

/-- Kernels are the threads that the runtime joins. -/
theorem isKernel_eq {i : ThreadId} {api : ForkApi} (h : t.spawnApi? i = some api) :
    t.isKernel i = Runtime.cuda.joins api := by
  rw [isKernel, h]
  cases api <;> rfl

end Trace

namespace Walk

variable {c : Subject} {t : Trace} {earlier log : List Visit} {v w w' last : Walk}

/-- At a node that synchronises the CUDA runtime joins all that is pending, at other nodes it does
nothing. -/
theorem visit_cuda {n : Node} {routine : Option String} {rest : List NodeId} {opens : Bool}
    (h : Runtime.cuda.visit w n routine rest = .ok (opens, v)) :
    n.syncsDevice = true ∧ opens = false ∧ w.joinPending false = .ok v ∨
      n.syncsDevice = false ∧ opens = true ∧ v = w := by
  obtain ⟨site, effect⟩ := n
  rw [Runtime.visit, Runtime.visitCuda] at h
  split at h
  case h_1 heffect =>
    obtain ⟨v', hv, h⟩ := Except.bind_eq_ok.1 h
    cases h
    cases heffect
    exact Or.inl ⟨rfl, rfl, hv⟩
  case h_2 heffect =>
    obtain ⟨v', hv, h⟩ := Except.bind_eq_ok.1 h
    cases h
    cases heffect
    exact Or.inl ⟨rfl, rfl, hv⟩
  case h_3 hdevice hstream =>
    cases h
    refine Or.inr ⟨?_, rfl, rfl⟩
    cases effect with
    | call api callee args =>
      cases api with
      | cudaDeviceSync => exact absurd rfl (hdevice callee args)
      | cudaStreamSync => exact absurd rfl (hstream callee args)
      | _ => rfl
    | _ => rfl

/-- The runtime joins children through the companions of their forks, one after the other. -/
theorem joinAll_spec {ps : List Pending}
    (h : ps.foldlM (fun w p => w.joinChild p.node p.child) w = .ok w')
    (hextends : w'.session.arena.Extends t.arena)
    (hfork : ∀ p ∈ ps, ∃ th, t.threads[p.child]? = some th ∧ th.fork = some p.node) :
    w.session.arena.Extends w'.session.arena ∧ ∃ joins : List Event,
      Appends w w' joins.toArray ∧
        List.Forall₂ (fun child e => t.Completes e child) (ps.map Pending.child) joins := by
  induction ps generalizing w with
  | nil =>
    cases h
    exact ⟨.refl _, [], .of_eq rfl rfl rfl, .nil⟩
  | cons p ps ih =>
    rw [List.foldlM_cons] at h
    obtain ⟨v, hv, h⟩ := Except.bind_eq_ok.1 h
    obtain ⟨join, hid, hstep⟩ := Appends.joinChild hv
    obtain ⟨hgrows, joins, hrest, hall⟩ := ih h fun q hq => hfork q (List.mem_cons_of_mem _ hq)
    obtain ⟨th, hth, hnode⟩ := hfork p List.mem_cons_self
    refine ⟨(joinChild_spec hv).1.arena.trans hgrows,
      ⟨w.self.thread, w.self.events.size, join, .join (some p.child)⟩ :: joins, ?_,
      .cons ⟨rfl, th, p.node, hth, hnode, (hgrows.trans hextends).companion? hid⟩ hall⟩
    have happends := hstep.trans hrest
    rwa [List.append_toArray] at happends

/-- What a thread has pending are the kernels that it launched since it last synchronised. -/
structure Outstanding (t : Trace) (earlier : List Visit) (w : Walk) : Prop where
  le_size : lastSync earlier w.self.thread ≤ w.self.events.size
  children_eq : w.self.pending.map Pending.child =
    t.launches (w.self.events.toList.drop (lastSync earlier w.self.thread))
  ascending : (w.self.pending.map Pending.child).Pairwise (· < ·)
  direct : ∀ p ∈ w.self.pending, p.isDirect = true
  fork_eq : ∀ p ∈ w.self.pending, ∃ th, t.threads[p.child]? = some th ∧ th.fork = some p.node

namespace Outstanding

/-- A thread that has not been seen yet and that has done nothing. -/
theorem start (hself : w.self.events = #[] ∧ w.self.pending = [])
    (hnew : ∀ v ∈ earlier, v.thread ≠ w.self.thread) : Outstanding t earlier w := by
  obtain ⟨hevents, hpending⟩ := hself
  constructor
  · rw [lastSync_of_ne hnew]
    exact Nat.zero_le _
  · rw [hpending, hevents]
    simp [Trace.launches]
  · rw [hpending]
    exact .nil
  · rw [hpending]
    exact nofun
  · rw [hpending]
    exact nofun

/-- Steps that leave alone what is pending and start no thread. -/
theorem solo (h : Outstanding t earlier w) (hsolo : Solo w w')
    (hpending : w'.self.pending = w.self.pending) : Outstanding t earlier w' := by
  obtain ⟨new, ⟨hthread, -, hevents⟩, hnew⟩ := hsolo
  have hle := h.le_size
  constructor
  · rw [hthread, hevents, Array.size_append]
    exact hle.trans (Nat.le_add_right _ _)
  · rw [hthread, hevents, hpending, h.children_eq, Array.toList_append,
      List.drop_append_of_le_length hle, Trace.launches_append,
      Trace.launches_of_not_forks fun e he => hnew e (Array.mem_toList_iff.1 he), List.append_nil]
  · rw [hpending]
    exact h.ascending
  · rw [hpending]
    exact h.direct
  · rw [hpending]
    exact h.fork_eq

/-- Steps that add at most an event that names no other thread. -/
theorem tacit (h : Outstanding t earlier w) (htacit : Tacit w w') : Outstanding t earlier w' :=
  h.solo (.of_tacit htacit) htacit.pending_eq

/-- Looking something up. -/
theorem consult (h : Outstanding t earlier w) {session : Session}
    (hthreads : session.threads = w.session.threads) :
    Outstanding t earlier { w with session } :=
  h.tacit (.of_eq rfl hthreads rfl rfl rfl)

/-- Visits of other threads, and of nodes that do not synchronise. -/
theorem visits (h : Outstanding t earlier w)
    (hlog : ∀ v ∈ log, v.thread = w.self.thread → v.node.syncsDevice = false) :
    Outstanding t (earlier ++ log) w where
  le_size := by
    rw [lastSync_append hlog]
    exact h.le_size
  children_eq := by
    rw [lastSync_append hlog]
    exact h.children_eq
  ascending := h.ascending
  direct := h.direct
  fork_eq := h.fork_eq

/-- At a node that synchronises the runtime joins what is pending, and then nothing is. -/
theorem sync (h : Outstanding t earlier w) (id : NodeId) {n : Node}
    (hjoin : w.reach.joinPending false = .ok v) (hv : v.Under t)
    (hsync : n.syncsDevice = true) :
    Outstanding t (earlier ++ [⟨id, n, w, v⟩]) v ∧ t.JoinsKernels earlier ⟨id, n, w, v⟩ := by
  have hpending : v.self.pending = [] := by
    rw [joinPending_pending hjoin, List.filter_eq_nil_iff]
    simp
  have hall : (w.reach.self.pending.filter fun p => p.isDirect || !false) = w.reach.self.pending :=
    List.filter_eq_self.2 fun p _ => Bool.or_true _
  have hdirect : w.reach.self.pending.filter (·.isDirect) = w.reach.self.pending :=
    List.filter_eq_self.2 h.direct
  have hindirect : (w.reach.self.pending.filter fun p => !p.isDirect) = [] :=
    List.filter_eq_nil_iff.2 fun p hp => by simp [h.direct p hp]
  rw [joinPending, hall, hdirect, hindirect, List.append_nil] at hjoin
  obtain ⟨-, joins, ⟨hthread, -, hevents⟩, hjoins⟩ := joinAll_spec hjoin hv.arena h.fork_eq
  have hdue : t.due earlier ⟨id, n, w, v⟩ = w.self.pending.map Pending.child := h.children_eq.symm
  have hlast : lastSync (earlier ++ [⟨id, n, w, v⟩]) v.self.thread = v.self.events.size := by
    rw [hthread]
    exact lastSync_concat (v := ⟨id, n, w, v⟩) hsync
  refine ⟨⟨hlast.le, ?_, ?_, ?_, ?_⟩, hdue ▸ h.ascending, joins, hevents, hdue ▸ hjoins⟩
  · rw [hlast, hpending, ← Array.length_toList, List.drop_length]
    rfl
  · rw [hpending]
    exact .nil
  · rw [hpending]
    exact nofun
  · rw [hpending]
    exact nofun

/-- A thread goes on after a child has ended: if the child is a kernel, it is pending. -/
theorem endFork (h : Outstanding t earlier w) (hw : Sound w) {id : NodeId} {n : Node}
    {api : ForkApi} {target : String} {child : ThreadId} (handle : Operand)
    (hn : w.session.arena.get? id = some n) (hapi : n.forkApi? = some api)
    (hbegin : w.beginFork id target = .ok (child, v))
    (hgrows : Grows c .cuda (v.enterChild child api) last) (hlast : last.Under t) :
    Outstanding t earlier (v.endFork .cuda id api handle last.close) := by
  obtain ⟨hthread, hevents, -⟩ := endFork_spec hbegin .cuda api handle last.close
  obtain ⟨-, hspawned, hth⟩ := child_of_under hw hn hapi hbegin hgrows hlast
  have hchild : last.self.thread = child := hgrows.framed.thread_eq
  have hnew : child = w.session.threads.size := (beginFork_spec hbegin).1
  have hold : v.self.pending = w.self.pending := by
    rw [(beginFork_spec hbegin).2.2.2]
    rfl
  have horphans : Runtime.cuda.orphans last.close.self = [] := rfl
  have hpending : (v.endFork .cuda id api handle last.close).self.pending =
      w.self.pending ++ if Runtime.cuda.joins api then [⟨id, child, true⟩] else [] := by
    rw [Walk.endFork, horphans, hold, List.append_nil]
    dsimp only
    split
    · rw [show last.close.self.thread = child from hchild]
    · rw [List.append_nil]
  have hlaunch : t.launches [⟨w.self.thread, w.self.events.size, id, .fork child⟩] =
      (if Runtime.cuda.joins api then [(⟨id, child, true⟩ : Pending)] else []).map
        Pending.child := by
    rw [Trace.launches, ← Trace.isKernel_eq hspawned]
    cases hkernel : t.isKernel child <;> simp [Event.forked?, hkernel]
  have hle := h.le_size
  -- A new child comes behind all that are pending, and is direct.
  constructor
  · rw [hthread, hevents, Array.size_push]
    exact Nat.le_succ_of_le hle
  · rw [hthread, hevents, hpending, List.map_append, Array.toList_push,
      List.drop_append_of_le_length hle, Trace.launches_append, hlaunch, h.children_eq]
  · rw [hpending, List.map_append, List.pairwise_append]
    refine ⟨h.ascending, ?_, fun i hi j hj => ?_⟩
    · split <;> simp
    · obtain ⟨p, hp, rfl⟩ := List.mem_map.1 hi
      have hbehind := (hw.pending p hp).2
      split at hj
      · rw [List.mem_singleton.1 hj]
        exact hnew ▸ hbehind
      · cases hj
  · rw [hpending]
    intro p hp
    rcases List.mem_append.1 hp with hp | hp
    · exact h.direct p hp
    · split at hp
      · rw [List.mem_singleton.1 hp]
      · cases hp
  · rw [hpending]
    intro p hp
    rcases List.mem_append.1 hp with hp | hp
    · exact h.fork_eq p hp
    · split at hp
      · rw [List.mem_singleton.1 hp]
        exact hth
      · cases hp

end Outstanding

end Walk

/-- The threads of some visits are there. -/
def Walk.Knows (w : Walk) (log : List Visit) : Prop :=
  ∀ x ∈ log, x.thread < w.session.threads.size

namespace Walk.Knows

variable {earlier log : List Visit} {w w' : Walk}

/-- Threads stay there. -/
theorem mono (h : w.Knows log) (hle : w.session.threads.size ≤ w'.session.threads.size) :
    w'.Knows log :=
  fun x hx => (h x hx).trans_le hle

/-- The walking thread is there. -/
theorem concat (h : w.Knows earlier) (hw : w.Sound) {x : Visit}
    (hx : x.thread = w.self.thread) (hthreads : w'.session.threads = w.session.threads) :
    w'.Knows (earlier ++ [x]) := by
  intro y hy
  rw [hthreads]
  rcases List.mem_append.1 hy with hy | hy
  · exact h y hy
  · rw [List.mem_singleton.1 hy, hx]
    exact hw.inTable

end Walk.Knows

namespace Frame

variable {c : Subject} {t : Trace} {F : Frame} {log : List Visit} {w' : Walk}

/-- After a tour the threads of its visits are there, too. -/
theorem Tours.knows {r : Runtime} (h : F.Tours c r log w') (hF : F.Ready c) {earlier : List Visit}
    (hknows : F.walk.Knows earlier) : w'.Knows (earlier ++ log) := by
  intro x hx
  rcases List.mem_append.1 hx with hx | hx
  · exact (hknows x hx).trans_le (h.grows hF).framed.size_le
  · exact (h.between hF x hx).lt_size

/-- A part keeps right what is pending, and the visits on its way join what is due. -/
def Dutiful (t : Trace) (F : Frame) (log : List Visit) (w' : Walk) : Prop :=
  w'.Under t → ∀ earlier, F.walk.Knows earlier → F.walk.Outstanding t earlier →
    w'.Outstanding t (earlier ++ log) ∧ t.AllJoin earlier log

section Cases

/-! ### The cases of the induction

Each takes what holds of the parts as hypotheses. -/

variable {ancestry opened : List String} {id : NodeId} {rest : List NodeId} {n : Node}
  {w v u inner last : Walk} {more : List Visit} {nodes : Option (List NodeId)} {session : Session}

/-- A node is left to the runtime, which joins what is pending. -/
theorem Dutiful.taken (hF : Ready c (.nodes ancestry opened (id :: rest) w))
    (hn : w.session.arena.get? id = some n) (hskip : w.isSkipped n = false)
    (hvisit : Runtime.cuda.visit w.reach n opened.head? rest = .ok (false, v))
    (hrest : Tours c .cuda (.nodes ancestry opened rest v) log w')
    (h : Dutiful t (.nodes ancestry opened rest v) log w') :
    Dutiful t (.nodes ancestry opened (id :: rest) w) (⟨id, n, w, v⟩ :: log) w' := by
  intro hu earlier hknows hpending
  have hready := Leads.ready (r := .cuda) (.next hn hskip hvisit rfl) hF
  obtain ⟨new, happends, -⟩ := Walk.Flat.visit hvisit
  obtain ⟨hsync, -, hjoin⟩ | ⟨-, hopens, -⟩ := Walk.visit_cuda hvisit
  · obtain ⟨hv, hjoins⟩ :=
      Walk.Outstanding.sync hpending id hjoin ((hrest.grows hready).under hu) hsync
    obtain ⟨hw', hall⟩ := h hu _ (hknows.concat hF.sound rfl happends.threads_eq) hv
    exact ⟨List.append_cons .. ▸ hw', fun _ => hjoins, hall⟩
  · cases hopens

/-- A node is handled that does not synchronise. -/
theorem Dutiful.visit (hF : Ready c (.nodes ancestry opened (id :: rest) w))
    (hn : w.session.arena.get? id = some n) (hskip : w.isSkipped n = false)
    (hvisit : Runtime.cuda.visit w.reach n opened.head? rest = .ok (true, v))
    (hnode : Tours c .cuda (.node ancestry opened id n v) log u)
    (hrest : Tours c .cuda (.nodes ancestry opened rest u) more w')
    (h : Dutiful t (.node ancestry opened id n v) log u)
    (h' : Dutiful t (.nodes ancestry opened rest u) more w') :
    Dutiful t (.nodes ancestry opened (id :: rest) w) (⟨id, n, w, v⟩ :: (log ++ more)) w' := by
  intro hu earlier hknows hpending
  have hready := Leads.ready (r := .cuda) (.visit hn hskip hvisit) hF
  have hready' := Leads.ready (r := .cuda)
    (.next hn hskip hvisit (if_pos rfl |>.trans hnode.run)) hF
  obtain ⟨-, hopens, -⟩ | ⟨hsync, -, rfl⟩ := Walk.visit_cuda hvisit
  · cases hopens
  have hreached : w.reach.Outstanding t (earlier ++ [⟨id, n, w, w.reach⟩]) :=
    Walk.Outstanding.visits (Walk.Outstanding.tacit hpending (.of_eq rfl rfl rfl rfl rfl))
      fun x hx _ => by rwa [List.mem_singleton.1 hx]
  have hseen : w.reach.Knows (earlier ++ [⟨id, n, w, w.reach⟩]) :=
    hknows.concat hF.sound rfl rfl
  obtain ⟨hu', hall⟩ := h ((hrest.grows hready').under hu) _ hseen hreached
  obtain ⟨hw', hall'⟩ := h' hu _ (hnode.knows hready hseen) hu'
  refine ⟨?_, fun hsync' => ?_, Trace.allJoin_append.2 ⟨hall, hall'⟩⟩
  · simpa only [List.append_assoc, List.cons_append, List.nil_append] using hw'
  · exact absurd (hsync.symm.trans hsync') Bool.false_ne_true

/-- A routine is walked between a call and a return event. -/
theorem Dutiful.expanded {args : List Operand} {target : String} {targets : List String}
    (hF : Ready c (.calls ancestry opened id args (target :: targets) w))
    (hsummary : w.session.summary c target = .ok (nodes, session)) (hopen : target ∉ opened)
    (hrepeated : Walk.isRepeated c { w with session } target args = .ok (false, u))
    (hwalk : Tours c .cuda
      (.nodes ancestry (target :: opened) (nodes.getD []) (u.record id .call)) log v)
    (hrest : Tours c .cuda (.calls ancestry opened id args targets (v.record id .return)) more w')
    (h : Dutiful t (.nodes ancestry (target :: opened) (nodes.getD []) (u.record id .call)) log v)
    (h' : Dutiful t (.calls ancestry opened id args targets (v.record id .return)) more w') :
    Dutiful t (.calls ancestry opened id args (target :: targets) w) (log ++ more) w' := by
  intro hu earlier hknows hpending
  have hready := Leads.ready (r := .cuda) (.enter hsummary hopen hrepeated) hF
  have hready' := Leads.ready (r := .cuda) (.leave hsummary hopen hrepeated hwalk.run) hF
  have hthreads := (Session.Learns.summary hsummary).extends.threads
  have htacit := Walk.Tacit.isRepeated hrepeated
  have hentered : (u.record id .call).Outstanding t earlier :=
    ((Walk.Outstanding.consult hpending hthreads).tacit htacit).tacit (.record u id rfl)
  have hseen : (u.record id .call).Knows earlier :=
    hknows.mono (congrArg Array.size (htacit.threads_eq.trans hthreads)).ge
  have hreturn : (v.record id .return).Under t := (hrest.grows hready').under hu
  obtain ⟨hwalked, hall⟩ := h ⟨hreturn.arena, hreturn.threads⟩ _ hseen hentered
  obtain ⟨hw', hall'⟩ :=
    h' hu _ (hwalk.knows hready hseen) (hwalked.tacit (.record v id rfl))
  exact ⟨List.append_assoc .. ▸ hw', Trace.allJoin_append.2 ⟨hall, hall'⟩⟩

/-- A child with a body is walked to its end. -/
theorem Dutiful.started {api : ForkApi} {handle : Operand} {entry : String} {entries : List String}
    {child : ThreadId} {routine : Routine}
    (hF : Ready c (.forks ancestry opened id api handle (entry :: entries) w))
    (hnew : entry ∉ ancestry) (hlimit : w.session.threads.size < c.settings.maxThreads)
    (hbegin : w.beginFork id entry = .ok (child, v))
    (hdef : c.program.definition? entry = some routine)
    (hsummary : (v.enterChild child api).session.summary c entry = .ok (nodes, session))
    (hwalk : Tours c .cuda (.nodes (entry :: ancestry) [entry] (nodes.getD [])
      { v.enterChild child api with session }) log inner)
    (hlast : Runtime.cuda.finish inner = .ok last)
    (hrest : Tours c .cuda (.forks ancestry opened id api handle entries
      (v.endFork .cuda id api handle last.close)) more w')
    (h : Dutiful t (.nodes (entry :: ancestry) [entry] (nodes.getD [])
      { v.enterChild child api with session }) log inner)
    (h' : Dutiful t (.forks ancestry opened id api handle entries
      (v.endFork .cuda id api handle last.close)) more w') :
    Dutiful t (.forks ancestry opened id api handle (entry :: entries) w) (log ++ more) w' := by
  intro hu earlier hknows hpending
  obtain ⟨n, source, hn, heffect, -⟩ := hF.stands
  have hinner : Walk.WalksChild c .cuda ancestry entry (v.enterChild child api) inner :=
    Or.inr ⟨routine, nodes, session, hdef, hsummary, hwalk.run⟩
  have hready := Leads.ready (r := .cuda) (.start hnew hlimit hbegin hsummary) hF
  have hready' := Leads.ready (r := .cuda) (.ended hnew hlimit hbegin hinner hlast) hF
  have hended := (hrest.grows hready').under hu
  have hulast : last.Under t := ⟨hended.arena, (Walk.preserved_close last).trans hended.threads⟩
  have hfinish := Walk.finish_grows (c := c) hlast
  have hlearned := Session.Learns.summary hsummary
  obtain ⟨hchild, -⟩ := Walk.beginFork_spec hbegin
  have hsize : w.session.threads.size ≤ session.threads.size := by
    rw [hlearned.extends.threads]
    exact (Nat.le_succ _).trans (Walk.beginFork_size hbegin).ge
  have hseen : Walk.Knows { v.enterChild child api with session } earlier := hknows.mono hsize
  obtain ⟨-, hall⟩ := h (hfinish.under hulast) _ hseen
    (.start ⟨rfl, rfl⟩ fun x hx => (hchild ▸ hknows x hx : x.thread < child).ne)
  -- The child makes no visit of its parent.
  have hforeign : ∀ x ∈ log, x.thread = (v.endFork .cuda id api handle last.close).self.thread →
      x.node.syncsDevice = false := by
    intro x hx hthread
    refine absurd hthread (Nat.ne_of_gt ?_)
    rw [(Walk.endFork_spec hbegin .cuda api handle last.close).1]
    refine hF.sound.inTable.trans_le ?_
    rcases (hwalk.between hready x hx).thread with heq | hle
    · exact heq ▸ hchild.ge
    · exact hsize.trans hle
  have hparent := (Walk.Outstanding.endFork hpending hF.sound handle hn
    (by simp [Node.forkApi?, heffect]) hbegin (hinner.grows.trans hfinish) hulast).visits hforeign
  have hafter := (hwalk.knows hready hseen).mono
    (hfinish.framed.size_le.trans (Walk.size_close last).ge)
  obtain ⟨hw', hall'⟩ := h' hu _ hafter hparent
  exact ⟨List.append_assoc .. ▸ hw', Trace.allJoin_append.2 ⟨hall, hall'⟩⟩

end Cases

/-- A tour keeps right what is pending, and its visits join what is due. -/
theorem Tours.dutiful (h : F.Tours c .cuda log w') (hF : F.Ready c) : Dutiful t F log w' := by
  induction h with
  | done | called | forked =>
    exact fun _ earlier _ hpending => ⟨(List.append_nil earlier).symm ▸ hpending, trivial⟩
  | pass hn hskip _ ih => exact ih (Leads.ready (r := .cuda) (.pass hn hskip) hF)
  | taken hn hskip hvisit hrest ih =>
    exact .taken hF hn hskip hvisit hrest
      (ih (Leads.ready (r := .cuda) (.next hn hskip hvisit rfl) hF))
  | visit hn hskip hvisit hnode hrest ihnode ihrest =>
    have hready := Leads.ready (r := .cuda) (.visit hn hskip hvisit) hF
    have hready' := Leads.ready (r := .cuda)
      (.next hn hskip hvisit (if_pos rfl |>.trans hnode.run)) hF
    exact .visit hF hn hskip hvisit hnode hrest (ihnode hready) (ihrest hready')
  | leaf hleaf h =>
    intro _ earlier _ hpending
    obtain ⟨hflat, hsame⟩ := Walk.handle_leaf hleaf h
    exact ⟨(List.append_nil earlier).symm ▸ Walk.Outstanding.solo hpending hflat.solo hsame,
      trivial⟩
  | fork heffect _ ih =>
    exact fun hu earlier hknows hpending => ih (Leads.ready (r := .cuda) (.fork heffect) hF) hu
      earlier hknows (Walk.Outstanding.tacit hpending (.of_eq rfl rfl rfl rfl rfl))
  | call heffect hplain _ ih => exact ih (Leads.ready (r := .cuda) (.call heffect hplain) hF)
  | uncalled hsummary hpass _ ih =>
    intro hu earlier hknows hpending
    have hthreads := (Session.Learns.summary hsummary).extends.threads
    exact ih (Leads.ready (r := .cuda) (.uncalled hsummary hpass) hF) hu earlier
      (hknows.mono (congrArg Array.size hthreads).ge)
      (Walk.Outstanding.consult hpending hthreads)
  | repeated hsummary _ hopen hrepeated _ ih =>
    intro hu earlier hknows hpending
    have hthreads := (Session.Learns.summary hsummary).extends.threads
    have htacit := Walk.Tacit.isRepeated hrepeated
    exact ih (Leads.ready (r := .cuda) (.repeated hsummary hopen hrepeated) hF) hu earlier
      (hknows.mono (congrArg Array.size (htacit.threads_eq.trans hthreads)).ge)
      ((Walk.Outstanding.consult hpending hthreads).tacit htacit)
  | expanded hsummary _ hopen hrepeated hwalk hrest ihwalk ihrest =>
    have hready := Leads.ready (r := .cuda) (.enter hsummary hopen hrepeated) hF
    have hready' := Leads.ready (r := .cuda) (.leave hsummary hopen hrepeated hwalk.run) hF
    exact .expanded hF hsummary hopen hrepeated hwalk hrest (ihwalk hready) (ihrest hready')
  | unstarted hpass _ ih => exact ih (Leads.ready (r := .cuda) (.unstarted hpass) hF)
  | @bodiless ancestry opened id api handle entry entries w v last w' child log hnew hlimit hbegin
      hdef hlast hrest ih =>
    intro hu earlier hknows hpending
    obtain ⟨n, source, hn, heffect, -⟩ := hF.stands
    have hinner : Walk.WalksChild c .cuda ancestry entry (v.enterChild child api)
        (v.enterChild child api) := Or.inl ⟨hdef, rfl⟩
    have hready := Leads.ready (r := .cuda) (.ended hnew hlimit hbegin hinner hlast) hF
    have hended := (hrest.grows hready).under hu
    refine ih hready hu earlier
      (hknows.mono (hF.stands.grows_fork hlimit hbegin hinner hlast).framed.size_le) ?_
    exact Walk.Outstanding.endFork hpending hF.sound handle hn (by simp [Node.forkApi?, heffect])
      hbegin (Walk.finish_grows (c := c) hlast)
      ⟨hended.arena, (Walk.preserved_close last).trans hended.threads⟩
  | started hnew hlimit hbegin hdef hsummary hwalk hlast hrest ihwalk ihrest =>
    have hready := Leads.ready (r := .cuda) (.start hnew hlimit hbegin hsummary) hF
    have hready' := Leads.ready (r := .cuda)
      (.ended hnew hlimit hbegin (Or.inr ⟨_, _, _, hdef, hsummary, hwalk.run⟩) hlast) hF
    exact .started hF hnew hlimit hbegin hdef hsummary hwalk hlast hrest (ihwalk hready)
      (ihrest hready')

end Frame

/-- With the CUDA runtime all visits of a build join the kernels that are due. -/
theorem Trace.Toured.allJoin {c : Subject} {t : Trace} {log : List Visit} (h : Toured c log)
    (hbuild : Trace.build c = .ok t)
    (hruntime : Runtime.ofProgram c.program c.settings.runtime = .cuda) : t.AllJoin [] log := by
  obtain ⟨F, w, last, hF, htour, hlast, rfl⟩ := h.ends hbuild
  have hunder := (hF.under htour hlast c.program c.pointsTo).1
  have hready := hF.ready
  rw [hruntime] at htour
  obtain ⟨nodes, session, -, rfl⟩ := hF
  exact (htour.dutiful hready hunder [] (fun x hx => absurd hx List.not_mem_nil)
    (.start ⟨rfl, rfl⟩ fun x hx => absurd hx List.not_mem_nil)).2

/-- With the CUDA runtime every visit of a node that synchronises joins the kernels that are due. -/
theorem Trace.Toured.joinsKernels {c : Subject} {t : Trace} {earlier later : List Visit} {v : Visit}
    (h : Toured c (earlier ++ v :: later)) (hbuild : Trace.build c = .ok t)
    (hruntime : Runtime.ofProgram c.program c.settings.runtime = .cuda)
    (hsync : v.node.syncsDevice = true) : t.JoinsKernels earlier v :=
  (allJoin_append.1 (h.allJoin hbuild hruntime)).2.1 hsync

/-! ### A program that launches a kernel -/

namespace Launch

/-- Launches a kernel, waits for it, and stores. -/
def main : Routine where
  name := "main"
  body :=
    [⟨⟨0⟩, .call (.direct "cudaLaunch") [.routine "kernel"], none⟩,
      ⟨⟨1⟩, .call (.direct "cudaDeviceSynchronize") [], none⟩,
      ⟨⟨2⟩, .store ⟨1⟩ false, none⟩]

/-- Stores to the same object. -/
def kernel : Routine := ⟨"kernel", [⟨⟨3⟩, .store ⟨1⟩ false, none⟩]⟩

/-- The program of both routines, with grids of one device thread. -/
def subject : Subject where
  program := .index "launch" [main, kernel]
  pointsTo := ⟨#["x"], [(1, [⟨0⟩])], []⟩
  settings := { Settings.default with runtime := .cuda, blocks := 1, threadsPerBlock := 1 }
  chain := [.cuda]

/-- The node of the launch. -/
def forkNode : Node := ⟨⟨⟨0⟩, none⟩, .fork (.cudaKernel 0 0) (.routine "kernel") (.direct "kernel")⟩

/-- The node that waits for the device. -/
def syncNode : Node :=
  ⟨⟨⟨1⟩, none⟩, .call .cudaDeviceSync (.direct "cudaDeviceSynchronize") []⟩

/-- The node of a store. -/
def storeNode (inst : InstId) : Node := ⟨⟨inst, none⟩, .write .store ⟨1⟩ false⟩

/-- The nodes of the main routine. -/
def mainNodes : Array Node := #[forkNode, syncNode, storeNode ⟨2⟩]

/-- The nodes of both routines. -/
def kernelNodes : Array Node := mainNodes.push (storeNode ⟨3⟩)

/-- All nodes, with the companion join of the launch. -/
def nodes : Array Node :=
  kernelNodes.push ⟨⟨⟨0⟩, none⟩, .join .companion (.routine "kernel") (some 0)⟩

/-- The main thread and the kernel, with their events. -/
def threads (mainEvents kernelEvents : Array Event) : Array Thread :=
  #[⟨0, "main", none, none, mainEvents, #[1]⟩,
    ⟨1, "kernel", some ⟨0, 0⟩, some 0, kernelEvents, #[]⟩]

/-- What was looked up before the launch. -/
def early : Std.HashMap String (List NodeId) := Std.HashMap.insert ∅ "main" [0, 1, 2]

/-- What was looked up in the end. -/
def late : Std.HashMap String (List NodeId) := early.insert "kernel" [3]

/-- The main thread before the launch. -/
def start : Walk :=
  ⟨⟨⟨mainNodes⟩, early, ∅, #[Thread.new 0 "main" none none]⟩, Walker.start 0 none⟩

/-- The main thread at the launch. -/
def forking : Walk :=
  ⟨⟨⟨mainNodes⟩, early, ∅, threads #[] #[]⟩,
    ⟨0, none, #[⟨0, 0, 0, .fork 1⟩], none, [], [0], [], []⟩⟩

/-- The kernel before it stores. -/
def entered : Walk :=
  ⟨⟨⟨kernelNodes⟩, late, ∅, threads #[] #[]⟩, Walker.start 1 (some (.cudaKernel 0 0))⟩

/-- The main thread after the launch. -/
def launched : Walk :=
  ⟨⟨⟨kernelNodes⟩, late, ∅, threads #[] #[⟨1, 0, 3, .write⟩]⟩,
    ⟨0, none, #[⟨0, 0, 0, .fork 1⟩], none, [⟨0, 1, .routine "kernel"⟩], [0], [], [⟨0, 1, true⟩]⟩⟩

/-- The main thread after it waited for the device. -/
def synced : Walk :=
  ⟨⟨⟨nodes⟩, late, ∅, threads #[] #[⟨1, 0, 3, .write⟩]⟩,
    ⟨0, none, #[⟨0, 0, 0, .fork 1⟩, ⟨0, 1, 4, .join (some 1)⟩], none, [], [0], [], []⟩⟩

/-- The visits before the main thread waits for the device. -/
def earlier : List Visit := [⟨0, forkNode, start, start⟩, ⟨3, storeNode ⟨3⟩, entered, entered⟩]

/-- The visit that waits for the device. -/
def sync : Visit := ⟨1, syncNode, launched, synced⟩

/-- The visit that follows. -/
def later : List Visit := [⟨2, storeNode ⟨2⟩, synced, synced⟩]

/-- The trace of the program. -/
def trace : Trace where
  threads :=
    threads #[⟨0, 0, 0, .fork 1⟩, ⟨0, 1, 4, .join (some 1)⟩, ⟨0, 2, 2, .write⟩]
      #[⟨1, 0, 3, .write⟩]
  arena := ⟨nodes⟩
  program := subject.program
  pointsTo := subject.pointsTo

/-- Both routines are found. -/
theorem definition?_eq :
    subject.program.definition? "main" = some main ∧
      subject.program.definition? "kernel" = some kernel := by
  simp [subject, Program.definition?, Program.routine?, Program.index, Std.HashMap.getElem_insert,
    main, kernel, Option.filter, Routine.isDeclaration]

/-- The nodes of the main routine are made at the first question. -/
theorem summary_main :
    Session.summary subject { Session.empty with threads := #[Thread.new 0 "main" none none] }
      "main" = .ok (some [0, 1, 2], start.session) := by
  rw [Session.summary, Session.empty, Std.HashMap.getElem?_empty, definition?_eq.1]
  rfl

/-- The nodes of the kernel are made behind them. -/
theorem summary_kernel :
    forking.session.summary subject "kernel" = .ok (some [3], entered.session) := by
  have hnew : early["kernel"]? = none := by simp [early]
  rw [Session.summary, forking, hnew, definition?_eq.2]
  rfl

/-- A store neither starts threads nor calls routines. -/
theorem isLeaf_storeNode (inst : InstId) : (storeNode inst).IsLeaf := by
  simp [Node.IsLeaf, storeNode]

/-- The main thread joins the kernel. -/
theorem joinPending_kernel : launched.joinPending false = .ok synced := by
  have hcompanion : Arena.companionJoin ⟨kernelNodes⟩ 0 = .ok (4, ⟨nodes⟩) := by
    rw [Arena.companionJoin, Arena.companion?_eq]
    rfl
  exact Except.bind_eq_ok.2 ⟨_, Except.bind_eq_ok.2 ⟨_, hcompanion, rfl⟩, rfl⟩

/-- The main thread launches the kernel, waits for it, and stores. -/
theorem tours_main :
    Frame.Tours subject .cuda (.nodes ["main"] ["main"] [0, 1, 2] start) (earlier ++ sync :: later)
      (synced.record 2 .write) := by
  have hkernel : Frame.Tours subject .cuda (.nodes ["kernel", "main"] ["kernel"] [3] entered)
      [⟨3, storeNode ⟨3⟩, entered, entered⟩] (entered.record 3 .write) :=
    .visit rfl rfl rfl (.leaf (isLeaf_storeNode _) (by rw [Walk.handle]; rfl)) .done
  have hfork : Frame.Tours subject .cuda (.node ["main"] ["main"] 0 forkNode start)
      [⟨3, storeNode ⟨3⟩, entered, entered⟩] launched :=
    .fork rfl (.started (v := forking) (by decide) (by decide) rfl definition?_eq.2 summary_kernel
      hkernel rfl .forked)
  have hvisit : Runtime.cuda.visit launched.reach syncNode (some "main") [2] =
      .ok (false, synced) := Except.bind_eq_ok.2 ⟨_, joinPending_kernel, rfl⟩
  exact .visit rfl rfl rfl hfork (.taken rfl rfl hvisit
    (.visit rfl rfl rfl (.leaf (isLeaf_storeNode _) (by rw [Walk.handle]; rfl)) .done))

/-- These are the visits of the program. -/
theorem toured : Trace.Toured subject (earlier ++ sync :: later) :=
  ⟨_, _, ⟨_, _, summary_main, rfl⟩, tours_main⟩

/-- The program has its trace. -/
theorem build_eq : Trace.build subject = .ok trace := by
  have hmain : subject.program.routine? "main" = some main := by
    have hdef := definition?_eq.1
    rw [Program.definition?, Option.filter_eq_some_iff] at hdef
    exact hdef.1
  have hentry : subject.settings.entry = "main" := rfl
  have hruntime : Runtime.ofProgram subject.program subject.settings.runtime = .cuda := rfl
  have hwalk : Trace.walkMain subject .cuda "main" = .ok ⟨⟨nodes⟩, late, ∅, trace.threads⟩ :=
    Except.bind_eq_ok.2 ⟨_, rfl, Except.bind_eq_ok.2 ⟨_, summary_main,
      Except.bind_eq_ok.2 ⟨_, tours_main.run, rfl⟩⟩⟩
  rw [Trace.build, hentry, hruntime, hmain, hwalk]
  rfl

end Launch

end DataRace
