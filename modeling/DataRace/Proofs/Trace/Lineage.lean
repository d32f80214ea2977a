import DataRace.Proofs.Trace.Depth
import DataRace.Proofs.Trace.Tours
import Mathlib.Data.List.Chain
import Mathlib.Data.List.Nodup

/-!
# Builds end with few threads

Whatever a build is about, it ends: its recursion goes no deeper than a bound that depends on the
number of names only, although calls, threads and questions about effects on threads may all lead
back to where they began.  A trace that is built has no more threads than its settings allow, and
no routine is the entry of two threads of which one leads to the other (`Trace.build_ends`).

The entries of a thread and of those that lead to it are its `Thread.Descent`.  They are what a walk
knows as its ancestry, and stay distinct along every tour (`Frame.Tours.distinct`).
-/

namespace DataRace

open Relation

namespace Thread

/-- The entries of a thread and of the threads that lead to it, beginning with its own. -/
inductive Descent (ths : Array Thread) : ThreadId → List String → Prop
  /-- A thread that nobody started. -/
  | root {i : ThreadId} {th : Thread} (hth : ths[i]? = some th) (hroot : th.parent? = none) :
      Descent ths i [th.entry]
  /-- A thread that another started. -/
  | child {i parent : ThreadId} {th : Thread} {entries : List String} (hth : ths[i]? = some th)
      (hparent : th.parent? = some parent) (h : Descent ths parent entries) :
      Descent ths i (th.entry :: entries)

/-- The threads of a table keep their numbers, their entries and where they were started. -/
def Kept (ths ths' : Array Thread) : Prop :=
  ∀ (i : ThreadId) th, ths[i]? = some th →
    ∃ th', ths'[i]? = some th' ∧ th'.entry = th.entry ∧ th'.parent? = th.parent?

/-- No routine is twice in the descent of a thread. -/
def Distinct (ths : Array Thread) : Prop :=
  ∀ (i : ThreadId) th, ths[i]? = some th → ∃ entries, Descent ths i entries ∧ entries.Nodup

variable {ths ths' : Array Thread}

/-- Threads that are kept keep their descent. -/
theorem Descent.mono {i : ThreadId} {entries : List String} (h : Descent ths i entries)
    (hkept : Kept ths ths') : Descent ths' i entries := by
  induction h with
  | root hth hroot =>
    obtain ⟨th', hth', hentry, hparent⟩ := hkept _ _ hth
    rw [← hentry]
    exact .root hth' (hparent.trans hroot)
  | child hth hparent _ ih =>
    obtain ⟨th', hth', hentry, hparent'⟩ := hkept _ _ hth
    rw [← hentry]
    exact .child hth' (hparent'.trans hparent) ih

/-- Descents stay distinct in a table with the same threads. -/
theorem Distinct.of_kept (h : Distinct ths) (hkept : Kept ths ths')
    (hsize : ths'.size = ths.size) : Distinct ths' := by
  intro i th hth
  have hi : i < ths.size := hsize ▸ (Array.getElem?_eq_some_iff.1 hth).1
  obtain ⟨entries, hdescent, hnodup⟩ := h i _ (Array.getElem?_eq_getElem hi)
  exact ⟨entries, hdescent.mono hkept, hnodup⟩

/-- What leads to a thread is the beginning of its descent, looked at from its end. -/
theorem Descent.prefix_of_chain {i : ThreadId} {entries : List String} (h : Descent ths i entries)
    {path : List ThreadId} (hpath : (i :: path).IsChain fun b a => Starts ths a b) :
    ((i :: path).map fun j => ths[j]?.map Thread.entry) <+: entries.map some := by
  induction h generalizing path with
  | @root i th hth hroot =>
    cases path with
    | nil => simp [hth]
    | cons parent path =>
      obtain ⟨th', hth', hparent⟩ := (List.isChain_cons_cons.1 hpath).1
      cases hth.symm.trans hth'
      cases hroot.symm.trans hparent
  | @child i parent th entries hth hparent _ ih =>
    cases path with
    | nil => simp [hth]
    | cons parent' path =>
      obtain ⟨⟨th', hth', hparent'⟩, hrest⟩ := List.isChain_cons_cons.1 hpath
      cases hth.symm.trans hth'
      cases hparent.symm.trans hparent'
      rw [List.map_cons, List.map_cons, hth]
      exact List.prefix_cons_inj _ |>.2 (ih hrest)

end Thread

namespace Walk

variable {c : Subject} {r : Runtime} {w v w' : Walk}

/-- Growth keeps threads. -/
theorem Framed.kept (h : Framed w w') :
    Thread.Kept w.session.threads w'.session.threads := by
  intro i th hth
  by_cases hi : i = w.self.thread
  · subst hi
    obtain ⟨th', hth', hsame⟩ := h.own th hth
    exact ⟨th', hth', hsame.entry_eq, by rw [Thread.parent?, hsame.site_eq, ← Thread.parent?]⟩
  · exact ⟨th, by rw [h.others i (Array.getElem?_eq_some_iff.1 hth).1 hi, hth], rfl, rfl⟩

/-- The end of a thread keeps threads. -/
theorem kept_close (w : Walk) : Thread.Kept w.session.threads w.close.session.threads := by
  intro i th hth
  rw [close_getElem?, hth]
  split
  · exact ⟨_, rfl, rfl, rfl⟩
  · exact ⟨_, rfl, rfl, rfl⟩

/-- The start of a child keeps threads. -/
theorem kept_beginFork {id : NodeId} {target : String} {child : ThreadId}
    (h : w.beginFork id target = .ok (child, v)) :
    Thread.Kept w.session.threads v.session.threads := by
  intro i th hth
  have hi : i < w.session.threads.size := (Array.getElem?_eq_some_iff.1 hth).1
  rw [beginFork_getElem? h, Array.getElem?_push, if_neg (Nat.ne_of_lt hi), hth]
  split
  · exact ⟨_, rfl, rfl, rfl⟩
  · exact ⟨_, rfl, rfl, rfl⟩

/-! ### How many threads there are -/

/-- Growth stops at the limit of threads. -/
theorem Grows.size_le (h : Grows c r w w') :
    w'.session.threads.size ≤ max w.session.threads.size c.settings.maxThreads := by
  induction h with
  | refl | skip | meet | note | record => exact Nat.le_max_left _ _
  | trans _ _ ih₁ ih₂ => omega
  | consult h => exact h.extends.threads ▸ Nat.le_max_left _ _
  | joinCompanion _ _ h =>
    rw [(joinCompanion_spec h).1]
    exact Nat.le_max_left _ _
  | @joinHandle w id n handle =>
    obtain ⟨child, happends⟩ := Appends.joinHandle c w id handle
    rw [happends.threads_eq]
    exact Nat.le_max_left _ _
  | joinPending h =>
    obtain ⟨new, happends, -⟩ := Appends.joinPending h
    rw [happends.threads_eq]
    exact Nat.le_max_left _ _
  | @fork w v inner last id n api handle _ _ child _ _ _ hlimit hbegin _ _ _ ihinner ihlast =>
    have hbegun := beginFork_size hbegin
    have hentered : (v.enterChild child api).session.threads.size = v.session.threads.size := rfl
    have hended : (v.endFork r id api handle last.close).session.threads.size =
        last.session.threads.size := size_close last
    omega

end Walk

namespace Frame

variable {c : Subject} {r : Runtime} {F : Frame} {log : List Visit} {w' : Walk}

/-- The routines that the thread of a part runs and those that lead to it. -/
def ancestry : Frame → List String
  | nodes ancestry _ _ _ | node ancestry _ _ _ _ | calls ancestry _ _ _ _ _
  | forks ancestry _ _ _ _ _ _ => ancestry

/-- The ancestry of a part is the descent of its thread, and no descent has a routine twice. -/
structure Distinct (F : Frame) : Prop where
  own : Thread.Descent F.walk.session.threads F.walk.self.thread F.ancestry
  nodup : F.ancestry.Nodup
  all : Thread.Distinct F.walk.session.threads

namespace Distinct

/-- A part of the same thread is distinct if all descents are. -/
theorem of_framed {G : Frame} (h : F.Distinct) (hframe : Walk.Framed F.walk G.walk)
    (hancestry : G.ancestry = F.ancestry) (hall : Thread.Distinct G.walk.session.threads) :
    G.Distinct where
  own := by
    rw [hancestry, hframe.thread_eq]
    exact h.own.mono hframe.kept
  nodup := hancestry ▸ h.nodup
  all := hall

/-- A part of the same thread is distinct if there are the same threads. -/
theorem of_eq {G : Frame} (h : F.Distinct) (hthread : G.walk.self.thread = F.walk.self.thread)
    (hthreads : G.walk.session.threads = F.walk.session.threads)
    (hancestry : G.ancestry = F.ancestry) : G.Distinct := by
  obtain ⟨hown, hnodup, hall⟩ := h
  refine ⟨?_, hancestry ▸ hnodup, hthreads ▸ hall⟩
  rw [hthreads, hthread, hancestry]
  exact hown

/-- A child that is started has an entry that does not lead to its parent. -/
theorem start {opened : List String} {id : NodeId} {api : ForkApi} {handle : Operand}
    {ancestry entries : List String} {entry : String} {w v : Walk} {child : ThreadId}
    (h : Distinct (.forks ancestry opened id api handle entries w))
    (hinTable : w.self.thread < w.session.threads.size) (hnew : entry ∉ ancestry)
    (hbegin : w.beginFork id entry = .ok (child, v)) :
    Thread.Descent v.session.threads child (entry :: ancestry) ∧
      Thread.Distinct v.session.threads := by
  obtain ⟨hchild, -⟩ := Walk.beginFork_spec hbegin
  have hkept := Walk.kept_beginFork hbegin
  have hget : v.session.threads[child]? = some (Thread.new child entry
      (some ⟨w.self.thread, w.self.events.size⟩) (some id)) := by
    rw [Walk.beginFork_getElem? hbegin, if_neg (hchild ▸ hinTable.ne'), if_pos hchild]
  have hdescent : Thread.Descent v.session.threads child (entry :: ancestry) :=
    .child hget rfl (h.own.mono hkept)
  refine ⟨hdescent, fun i th hth => ?_⟩
  have hi : i < v.session.threads.size := (Array.getElem?_eq_some_iff.1 hth).1
  rw [Walk.beginFork_size hbegin] at hi
  rcases Nat.lt_succ_iff_lt_or_eq.1 hi with hold | rfl
  · obtain ⟨entries, hentries, hnodup⟩ := h.all i _ (Array.getElem?_eq_getElem hold)
    exact ⟨entries, hentries.mono hkept, hnodup⟩
  · exact ⟨_, hchild ▸ hdescent, List.nodup_cons.2 ⟨hnew, h.nodup⟩⟩

/-- When a child has ended, no descent has a routine twice if none has in the walk of the child. -/
theorem ended {opened : List String} {id : NodeId} {api : ForkApi} {handle : Operand}
    {ancestry entries more : List String} {w v last : Walk}
    (h : Distinct (.forks ancestry opened id api handle entries w))
    (hgrows : Walk.Grows c r w (v.endFork r id api handle last.close))
    (hall : Thread.Distinct last.session.threads) :
    Distinct (.forks ancestry opened id api handle more (v.endFork r id api handle last.close)) :=
  h.of_framed (G := .forks ancestry opened id api handle more _) hgrows.framed rfl
    (hall.of_kept (Walk.kept_close last) (Walk.size_close last))

end Distinct

/-- Along a tour no thread is started whose entry leads to it. -/
theorem Tours.distinct (h : Tours c r F log w') (hF : F.Ready c) (hdistinct : F.Distinct) :
    Thread.Distinct w'.session.threads := by
  induction h with
  | done | called | forked => exact hdistinct.all
  | pass hn hskip _ ih =>
    exact ih (Leads.ready (r := r) (.pass hn hskip) hF) (hdistinct.of_eq rfl rfl rfl)
  | taken hn hskip hvisit _ ih =>
    obtain ⟨new, happends, -⟩ := Walk.Flat.visit hvisit
    exact ih (Leads.ready (r := r) (.next hn hskip hvisit rfl) hF)
      (hdistinct.of_eq happends.thread_eq happends.threads_eq rfl)
  | visit hn hskip hvisit hnode _ ihnode ihrest =>
    obtain ⟨new, happends, -⟩ := Walk.Flat.visit hvisit
    have hready := Leads.ready (r := r) (.visit hn hskip hvisit) hF
    have hall := ihnode hready (hdistinct.of_eq happends.thread_eq happends.threads_eq rfl)
    have hgrows := ((Walk.Grows.skip _ none).trans (Walk.visit_grows hvisit)).trans
      (hnode.grows hready)
    exact ihrest (Leads.ready (r := r) (.next hn hskip hvisit (if_pos rfl |>.trans hnode.run)) hF)
      (hdistinct.of_framed hgrows.framed rfl hall)
  | leaf hleaf h =>
    obtain ⟨new, happends, -⟩ := (Walk.handle_leaf hleaf h).1
    exact happends.threads_eq ▸ hdistinct.all
  | fork heffect _ ih =>
    exact ih (Leads.ready (r := r) (.fork heffect) hF) (hdistinct.of_eq rfl rfl rfl)
  | call heffect hplain _ ih =>
    exact ih (Leads.ready (r := r) (.call heffect hplain) hF) (hdistinct.of_eq rfl rfl rfl)
  | uncalled hsummary hpass _ ih =>
    exact ih (Leads.ready (r := r) (.uncalled hsummary hpass) hF)
      (hdistinct.of_eq rfl (Session.Learns.summary hsummary).extends.threads rfl)
  | repeated hsummary _ hopen hrepeated _ ih =>
    have htacit := Walk.Tacit.isRepeated hrepeated
    exact ih (Leads.ready (r := r) (.repeated hsummary hopen hrepeated) hF)
      (hdistinct.of_eq htacit.thread_eq
        (htacit.threads_eq.trans (Session.Learns.summary hsummary).extends.threads) rfl)
  | @expanded ancestry opened id args target targets w u v w' log more nodes session routine
      hsummary _ hopen hrepeated hwalk _ ihwalk ihrest =>
    have htacit := Walk.Tacit.isRepeated hrepeated
    have hready := Leads.ready (r := r) (.enter hsummary hopen hrepeated) hF
    have hentered : Distinct (.nodes ancestry (target :: opened) (nodes.getD [])
        (u.record id .call)) :=
      hdistinct.of_eq htacit.thread_eq
        (htacit.threads_eq.trans (Session.Learns.summary hsummary).extends.threads) rfl
    have hall := ihwalk hready hentered
    have hframe := (hwalk.grows hready).framed.trans (.record v id .return)
    exact ihrest (Leads.ready (r := r) (.leave hsummary hopen hrepeated hwalk.run) hF)
      (hentered.of_framed hframe rfl hall)
  | unstarted hpass _ ih =>
    exact ih (Leads.ready (r := r) (.unstarted hpass) hF) (hdistinct.of_eq rfl rfl rfl)
  | @bodiless ancestry opened id api handle entry entries w v last w' child log hnew hlimit hbegin
      hdef hlast _ ih =>
    have hinner : Walk.WalksChild c r ancestry entry (v.enterChild child api)
        (v.enterChild child api) := Or.inl ⟨hdef, rfl⟩
    obtain ⟨-, hall⟩ := hdistinct.start hF.sound.inTable hnew hbegin
    obtain ⟨new, happends, -⟩ := Walk.Flat.finish hlast
    exact ih (Leads.ready (r := r) (.ended hnew hlimit hbegin hinner hlast) hF)
      (hdistinct.ended (hF.stands.grows_fork hlimit hbegin hinner hlast)
        (happends.threads_eq.symm ▸ hall))
  | @started ancestry opened id api handle entry entries w v inner last w' child log more nodes
      session routine hnew hlimit hbegin hdef hsummary hwalk hlast _ ihwalk ihrest =>
    have hinner : Walk.WalksChild c r ancestry entry (v.enterChild child api) inner :=
      Or.inr ⟨routine, nodes, session, hdef, hsummary, hwalk.run⟩
    obtain ⟨hdescent, hall⟩ := hdistinct.start hF.sound.inTable hnew hbegin
    have hthreads : session.threads = v.session.threads :=
      (Session.Learns.summary hsummary).extends.threads
    have hbegun : Distinct (.nodes (entry :: ancestry) [entry] (nodes.getD [])
        { v.enterChild child api with session }) :=
      ⟨hthreads.symm ▸ hdescent, List.nodup_cons.2 ⟨hnew, hdistinct.nodup⟩, hthreads.symm ▸ hall⟩
    have hended := ihwalk (Leads.ready (r := r) (.start hnew hlimit hbegin hsummary) hF) hbegun
    obtain ⟨new, happends, -⟩ := Walk.Flat.finish hlast
    exact ihrest (Leads.ready (r := r) (.ended hnew hlimit hbegin hinner hlast) hF)
      (hdistinct.ended (hF.stands.grows_fork hlimit hbegin hinner hlast)
        (happends.threads_eq.symm ▸ hended))

end Frame

namespace Trace

variable {c : Subject} {t : Trace}

/-- In a trace that is built no descent has a routine twice. -/
theorem distinct_of_build (h : build c = .ok t) : Thread.Distinct t.threads := by
  obtain ⟨log, hlog⟩ := exists_toured h
  obtain ⟨F, w, last, hbegins, htour, hlast, rfl⟩ := hlog.ends h
  have hready := hbegins.ready
  have hfirst : F.Distinct := by
    obtain ⟨nodes, session, hsummary, rfl⟩ := hbegins
    have hthreads : session.threads = #[Thread.new 0 c.settings.entry none none] :=
      (Session.Learns.summary hsummary).extends.threads
    have hroot : session.threads[0]? = some (Thread.new 0 c.settings.entry none none) := by
      rw [hthreads]
      rfl
    refine ⟨.root hroot rfl, List.nodup_singleton _, fun i th hth => ?_⟩
    have hth' : #[Thread.new 0 c.settings.entry none none][i]? = some th := hthreads ▸ hth
    obtain ⟨hi, -⟩ := Array.getElem?_eq_some_iff.1 hth'
    obtain rfl : i = 0 := Nat.lt_one_iff.1 hi
    exact ⟨_, .root hroot rfl, List.nodup_singleton _⟩
  obtain ⟨new, happends, -⟩ := Walk.Flat.finish hlast
  exact (happends.threads_eq.symm ▸ htour.distinct hready hfirst : Thread.Distinct _).of_kept
    (Walk.kept_close last) (Walk.size_close last)

/-- Every build ends, within a depth that depends on the number of names of the program only, and
with the same answer at every greater depth.  A trace that is built has the main thread or no more
threads than the settings allow, and along every path of threads, each of which started the next,
the entries are distinct. -/
theorem build_ends (c : Subject) :
    (∀ depth, (c.unseen [] + 1) * (c.unseen [] + 2) ≤ depth →
        buildTo c depth = some (build c)) ∧
      ∀ t, build c = .ok t →
        t.threadCount ≤ max 1 c.settings.maxThreads ∧
          ∀ path : List ThreadId, path.IsChain (Thread.Starts t.threads) →
            (path.map fun i => t.threads[i]?.map Thread.entry).Nodup := by
  refine ⟨fun depth hdepth => buildTo_eq hdepth, fun t hbuild => ⟨?_, fun path hpath => ?_⟩⟩
  · obtain ⟨s, w, hthreads, hgrows, rfl⟩ := build_grows hbuild
    have hsize := hgrows.size_le
    rw [hthreads] at hsize
    rw [threadCount, Walk.size_close]
    exact hsize
  · have hdistinct := distinct_of_build hbuild
    -- The path is looked at from its end, where the descent begins.
    rw [← List.nodup_reverse, ← List.map_reverse]
    rw [← List.isChain_reverse] at hpath
    cases hreverse : path.reverse with
    | nil => exact List.nodup_nil
    | cons i rest =>
      rw [hreverse] at hpath
      cases hth : t.threads[i]? with
      | none =>
        cases rest with
        | nil => exact List.nodup_singleton _
        | cons parent rest =>
          obtain ⟨th, hth', -⟩ := (List.isChain_cons_cons.1 hpath).1
          cases hth.symm.trans hth'
      | some th =>
        obtain ⟨entries, hdescent, hnodup⟩ := hdistinct i th hth
        exact (hdescent.prefix_of_chain hpath).sublist.nodup
          (hnodup.map fun a b hab => Option.some.inj hab)

/-- The team and its task have distinct entries. -/
theorem ends_teamTask :
    build TeamTask.subject = .ok TeamTask.trace ∧
      TeamTask.trace.threadCount ≤ max 1 TeamTask.subject.settings.maxThreads ∧
      ([0, 1, 2].map fun i => TeamTask.trace.threads[i]?.map Thread.entry).Nodup := by
  obtain ⟨-, hends⟩ := build_ends TeamTask.subject
  obtain ⟨hcount, hpaths⟩ := hends TeamTask.trace TeamTask.build_eq
  refine ⟨TeamTask.build_eq, hcount, hpaths [0, 1, 2] ?_⟩
  exact .cons_cons ⟨_, rfl, rfl⟩ (.cons_cons ⟨_, rfl, rfl⟩ (.singleton _))

end Trace

end DataRace
