import DataRace.Proofs.Trace.Frame
import Mathlib.Logic.Relation

/-!
# Threads form a forest

Threads are numbered in the order in which they start, so a thread starts later threads only, and
every thread but the main one is started by one fork event of an earlier thread.  A thread joins
only threads that exist, and a later thread only after a fork that leads to it.

`Event.Fits` says this of one event, `Walk.Sound` of a walk, and `Trace.WellFormed` of a trace.
Growth keeps walks sound (`Walk.Grows.sound`), so every trace that is built is well formed
(`Trace.build_wellFormed`).
-/

namespace DataRace

open Relation

namespace Thread

/-- One thread of a table was started by another. -/
def Starts (ths : Array Thread) (a b : ThreadId) : Prop :=
  ∃ th, ths[b]? = some th ∧ th.parent? = some a

/-- The threads of a table keep their numbers and where they were started. -/
def Preserved (ths ths' : Array Thread) : Prop :=
  ∀ (i : ThreadId) th, ths[i]? = some th →
    ∃ th', ths'[i]? = some th' ∧ th'.id = th.id ∧ th'.site = th.site ∧ th'.fork = th.fork

namespace Preserved

variable {ths ths' ths'' : Array Thread}

/-- A table preserves itself. -/
protected theorem refl (ths : Array Thread) : Preserved ths ths :=
  fun _ th hth => ⟨th, hth, rfl, rfl, rfl⟩

/-- Preservation is transitive. -/
protected theorem trans (h : Preserved ths ths') (h' : Preserved ths' ths'') :
    Preserved ths ths'' := by
  intro i th hth
  obtain ⟨th', hth', hid, hsite, hfork⟩ := h i th hth
  obtain ⟨th'', hth'', hid', hsite', hfork'⟩ := h' i th' hth'
  exact ⟨th'', hth'', hid'.trans hid, hsite'.trans hsite, hfork'.trans hfork⟩

/-- A table that preserves another is at least as long. -/
theorem size_le (h : Preserved ths ths') : ths.size ≤ ths'.size := by
  by_contra hlt
  have hi : ths'.size < ths.size := Nat.lt_of_not_le hlt
  obtain ⟨th', hth', -⟩ := h ths'.size _ (Array.getElem?_eq_getElem hi)
  exact absurd (Array.getElem?_eq_some_iff.1 hth').1 (Nat.lt_irrefl _)

/-- What was started stays started. -/
theorem starts (h : Preserved ths ths') {a b : ThreadId} (hab : Starts ths a b) :
    Starts ths' a b := by
  obtain ⟨th, hth, hparent⟩ := hab
  obtain ⟨th', hth', -, hsite, -⟩ := h b th hth
  exact ⟨th', hth', by rw [parent?, hsite, ← parent?, hparent]⟩

end Preserved

end Thread

namespace Event

/-- An event suits its place: it has the names of the place, its node is of the right category, a
fork starts a later thread which knows the fork, and a join of a later thread comes after a fork
that leads to that thread. -/
structure Fits (a : Arena) (ths : Array Thread) (thread : ThreadId) (events : Array Event) (i : Nat)
    (e : Event) : Prop where
  thread_eq : e.thread = thread
  index_eq : e.index = i
  node : ∃ n, a.get? e.node = some n ∧ n.category = e.kind.category
  fork : ∀ child, e.kind = .fork child → thread < child ∧
    ∃ th, ths[child]? = some th ∧ th.site = some ⟨thread, i⟩ ∧ th.fork = some e.node
  join : ∀ child, e.kind = .join (some child) → child < ths.size ∧
    (thread < child → ∃ j < i, ∃ e', events[j]? = some e' ∧ ∃ d, e'.kind = .fork d ∧
      ReflTransGen (Thread.Starts ths) d child)

/-- All events of a list suit their places. -/
def AllFit (a : Arena) (ths : Array Thread) (thread : ThreadId) (events : Array Event) : Prop :=
  ∀ (i : Nat) e, events[i]? = some e → e.Fits a ths thread events i

variable {a a' : Arena} {ths ths' : Array Thread} {thread : ThreadId} {events : Array Event}

/-- An event suits its place in a later arena, a later table and a longer list. -/
theorem Fits.mono {events' : Array Event} {i : Nat} {e : Event} (h : e.Fits a ths thread events i)
    (ha : a.Extends a') (hths : Thread.Preserved ths ths')
    (hevents : ∀ j e', j < i → events[j]? = some e' → events'[j]? = some e') :
    e.Fits a' ths' thread events' i where
  thread_eq := h.thread_eq
  index_eq := h.index_eq
  node := by
    obtain ⟨n, hn, hcat⟩ := h.node
    exact ⟨n, ha _ _ hn, hcat⟩
  fork child hkind := by
    obtain ⟨hlt, th, hth, hsite, hfork⟩ := h.fork child hkind
    obtain ⟨th', hth', -, hsite', hfork'⟩ := hths child th hth
    exact ⟨hlt, th', hth', hsite'.trans hsite, hfork'.trans hfork⟩
  join child hkind := by
    obtain ⟨hlt, hleads⟩ := h.join child hkind
    refine ⟨hlt.trans_le hths.size_le, fun hlater => ?_⟩
    obtain ⟨j, hj, e', he', d, hd, hpath⟩ := hleads hlater
    exact ⟨j, hj, e', hevents j e' hj he', d, hd,
      ReflTransGen.mono (fun _ _ hab => hths.starts hab) _ _ hpath⟩

/-- Events suit their places in a later arena and a later table. -/
theorem AllFit.mono (h : AllFit a ths thread events) (ha : a.Extends a')
    (hths : Thread.Preserved ths ths') : AllFit a' ths' thread events :=
  fun i e he => (h i e he).mono ha hths fun _ _ _ he' => he'

/-- An event that suits its place may be added. -/
theorem AllFit.push (h : AllFit a ths thread events) {e : Event}
    (he : e.Fits a ths thread events events.size) : AllFit a ths thread (events.push e) := by
  have hkeep : ∀ (j : Nat) (e' : Event), events[j]? = some e' → (events.push e)[j]? = some e' := by
    intro j e' he'
    obtain ⟨hj, -⟩ := Array.getElem?_eq_some_iff.1 he'
    rw [Array.getElem?_push, if_neg (Nat.ne_of_lt hj), he']
  intro i e' he'
  rw [Array.getElem?_push] at he'
  split at he'
  · next hi =>
    cases he'
    rw [hi]
    exact he.mono (.refl _) (.refl _) fun j e' _ => hkeep j e'
  · exact (h i e' he').mono (.refl _) (.refl _) fun j e' _ => hkeep j e'

end Event

namespace Walk

/-- The events of a thread as a walk knows them: its own, or those in the table. -/
def eventsOf (w : Walk) (thread : ThreadId) : Array Event :=
  if thread = w.self.thread then w.self.events
  else (w.session.threads[thread]?.map Thread.events).getD #[]

/-- A thread behind that of a walk is one of those that the walk led to. -/
def Behind (w : Walk) (thread : ThreadId) : Prop :=
  w.self.thread < thread ∧ thread < w.session.threads.size

/-- What a thread under construction and its session keep: all events suit their places, the
children to be joined are behind the thread, and every thread behind it was started by a fork event
of an earlier one that is not before it. -/
structure Sound (w : Walk) : Prop where
  inTable : w.self.thread < w.session.threads.size
  id_eq : ∀ (i : ThreadId) th, w.session.threads[i]? = some th → th.id = i
  own : Event.AllFit w.session.arena w.session.threads w.self.thread w.self.events
  table : ∀ (i : ThreadId) th, w.session.threads[i]? = some th →
    Event.AllFit w.session.arena w.session.threads i th.events
  unjoined : ∀ f ∈ w.self.unjoined, w.Behind f.child
  pending : ∀ p ∈ w.self.pending, w.Behind p.child
  sited : ∀ (i : ThreadId) th, w.session.threads[i]? = some th → w.self.thread < i →
    ∃ s, th.site = some s ∧ w.self.thread ≤ s.thread ∧ s.thread < i ∧
      ∃ e, (w.eventsOf s.thread)[s.index]? = some e ∧ e.kind = .fork i

variable {c : Subject} {r : Runtime} {w v w' : Walk}

namespace Sound

/-- Every thread behind a walk is led to by a fork event of its own. -/
theorem leads (hw : Sound w) {i : ThreadId} (hi : w.Behind i) :
    ∃ j < w.self.events.size, ∃ e, w.self.events[j]? = some e ∧ ∃ d, e.kind = .fork d ∧
      ReflTransGen (Thread.Starts w.session.threads) d i := by
  induction i using Nat.strongRecOn with
  | _ i ih =>
    have hth := Array.getElem?_eq_getElem hi.2
    obtain ⟨s, hsite, hle, hlt, e, he, hkind⟩ := hw.sited i _ hth hi.1
    have hstart : Thread.Starts w.session.threads s.thread i :=
      ⟨_, hth, by rw [Thread.parent?, hsite]; rfl⟩
    rcases Nat.eq_or_lt_of_le hle with hself | hafter
    · rw [eventsOf, if_pos hself.symm] at he
      exact ⟨s.index, (Array.getElem?_eq_some_iff.1 he).1, e, he, i, hkind, .refl⟩
    · obtain ⟨j, hj, e', he', d, hd, hpath⟩ := ih s.thread hlt ⟨hafter, hlt.trans hi.2⟩
      exact ⟨j, hj, e', he', d, hd, hpath.tail hstart⟩

/-- A walk stays sound when it looks something up or has fewer children to join. -/
theorem change (hw : Sound w) (hthread : w'.self.thread = w.self.thread)
    (hevents : w'.self.events = w.self.events) (hsession : w.session.Extends w'.session)
    (hunjoined : w'.self.unjoined ⊆ w.self.unjoined) (hpending : w'.self.pending ⊆ w.self.pending) :
    Sound w' := by
  obtain ⟨⟨arena', summaries', effects', threads'⟩, self'⟩ := w'
  obtain ⟨ha, hths⟩ := hsession
  dsimp only at *
  subst hths
  have hbehind : ∀ i, w.Behind i → Walk.Behind ⟨⟨arena', summaries', effects', w.session.threads⟩,
      self'⟩ i := fun i hi => ⟨hthread.symm ▸ hi.1, hi.2⟩
  constructor
  · exact hthread.symm ▸ hw.inTable
  · exact hw.id_eq
  · dsimp only
    rw [hthread, hevents]
    exact hw.own.mono ha (.refl _)
  · exact fun i th hth => (hw.table i th hth).mono ha (.refl _)
  · exact fun f hf => hbehind _ (hw.unjoined f (hunjoined hf))
  · exact fun p hp => hbehind _ (hw.pending p (hpending hp))
  · simp only [eventsOf, hthread, hevents]
    exact hw.sited

/-- An event that suits its place may be added to a sound walk. -/
theorem record (hw : Sound w) {id : NodeId} {kind : EventKind}
    (he : Event.Fits w.session.arena w.session.threads w.self.thread w.self.events
      w.self.events.size ⟨w.self.thread, w.self.events.size, id, kind⟩) :
    Sound (w.record id kind) where
  inTable := hw.inTable
  id_eq := hw.id_eq
  own := hw.own.push he
  table := hw.table
  unjoined := hw.unjoined
  pending := hw.pending
  sited i th hth hi := by
    obtain ⟨s, hsite, hle, hlt, e, he, hkind⟩ := hw.sited i th hth hi
    refine ⟨s, hsite, hle, hlt, e, ?_, hkind⟩
    rw [eventsOf] at he ⊢
    split at he
    · next hself =>
      obtain ⟨hj, -⟩ := Array.getElem?_eq_some_iff.1 he
      rw [if_pos (show s.thread = (w.record id kind).self.thread from hself)]
      exact (Array.getElem?_push_lt hj).trans (Array.getElem?_eq_getElem hj ▸ he)
    · next hself =>
      rw [if_neg (show ¬ s.thread = (w.record id kind).self.thread from hself)]
      exact he

/-- An event that names no other thread may be added to a sound walk. -/
theorem recordLocal (hw : Sound w) {id : NodeId} {n : Node} {kind : EventKind}
    (hn : w.session.arena.get? id = some n) (hlocal : kind.isLocal = true)
    (hkind : n.category = kind.category) : Sound (w.record id kind) := by
  refine hw.record ⟨rfl, rfl, ⟨n, hn, hkind⟩, ?_, ?_⟩
  · rintro child rfl
    cases hlocal
  · rintro child rfl
    cases hlocal

/-- A join of nobody or of a thread of the table may be added to a sound walk. -/
theorem recordJoin (hw : Sound w) {id : NodeId} {n : Node} (child : Option ThreadId)
    (hn : w.session.arena.get? id = some n) (hjoin : n.category = .join)
    (hchild : ∀ i ∈ child, i < w.session.threads.size) : Sound (w.record id (.join child)) := by
  refine hw.record ⟨rfl, rfl, ⟨n, hn, hjoin⟩, ?_, ?_⟩
  · intro i h
    cases h
  · intro i h
    cases h
    exact ⟨hchild i rfl, fun hlater => hw.leads ⟨hlater, hchild i rfl⟩⟩

/-- A join by a handle keeps a walk sound. -/
theorem joinHandle (hw : Sound w) {id : NodeId} {n : Node} (handle : Operand)
    (hn : w.session.arena.get? id = some n) (hjoin : n.category = .join) :
    Sound (w.joinHandle c id handle) := by
  rw [Walk.joinHandle]
  split
  · next f hf =>
    have hmem : f ∈ w.self.unjoined := List.mem_reverse.1 (List.mem_of_find?_eq_some hf)
    have hsettled : Sound { w with self := w.self.settle f.node f.child } :=
      hw.change rfl rfl (.refl _) (fun _ hf => (List.mem_filter.1 hf).1)
        (List.Subset.refl _)
    refine hsettled.recordJoin _ hn hjoin ?_
    rintro i ⟨⟩
    exact (hw.unjoined f hmem).2
  · refine hw.recordJoin _ hn hjoin ?_
    intro i hi
    rw [foreignThread?, Option.mem_def, Option.map_eq_some_iff] at hi
    obtain ⟨th, hth, rfl⟩ := hi
    obtain ⟨k, hk⟩ := Array.mem_iff_getElem?.1 (Array.mem_of_find?_eq_some hth)
    rw [hw.id_eq k th hk]
    exact (Array.getElem?_eq_some_iff.1 hk).1

/-- A join of a child by the runtime keeps a walk sound. -/
theorem joinChild (hw : Sound w) {node : NodeId} {child : ThreadId} (hchild : w.Behind child)
    (h : w.joinChild node child = .ok w') : Sound w' := by
  obtain ⟨hextends, join, n, hn, hfork, hself⟩ := joinChild_spec h
  have hsettled : Sound { w' with self := w.self.settle node child } :=
    hw.change rfl rfl hextends (fun _ hf => (List.mem_filter.1 hf).1)
        (List.Subset.refl _)
  have hcat : n.category = .join := Node.category_eq_join hfork
  have hjoined := hsettled.recordJoin (some child) hn hcat
    (by rintro i ⟨⟩; exact hextends.threads.symm ▸ hchild.2)
  have heq : ({ w' with self := w.self.settle node child } : Walk).record join (.join (some child))
      = w' := by
    rw [Walk.record, ← hself]
  rwa [heq] at hjoined

end Sound

/-! ### Children -/

/-- The start of a child preserves the threads that are there. -/
theorem preserved_beginFork {id : NodeId} {target : String} {child : ThreadId}
    (h : w.beginFork id target = .ok (child, v)) :
    Thread.Preserved w.session.threads v.session.threads := by
  intro i th hth
  have hi : i < w.session.threads.size := (Array.getElem?_eq_some_iff.1 hth).1
  rw [beginFork_getElem? h, Array.getElem?_push, if_neg (Nat.ne_of_lt hi), hth]
  split
  · exact ⟨_, rfl, rfl, rfl, rfl⟩
  · exact ⟨_, rfl, rfl, rfl, rfl⟩

/-- The end of a thread preserves all threads. -/
theorem preserved_close (w : Walk) :
    Thread.Preserved w.session.threads w.close.session.threads := by
  intro i th hth
  rw [close_getElem?, hth]
  split
  · exact ⟨_, rfl, rfl, rfl, rfl⟩
  · exact ⟨_, rfl, rfl, rfl, rfl⟩

/-- What a walk does preserves the threads that are there. -/
theorem Framed.preserved (h : Framed w w') :
    Thread.Preserved w.session.threads w'.session.threads := by
  intro i th hth
  by_cases hi : i = w.self.thread
  · subst hi
    obtain ⟨th', hth', hsame⟩ := h.own th hth
    exact ⟨th', hth', hsame.id_eq, hsame.site_eq, hsame.fork_eq⟩
  · exact ⟨th, by rw [h.others i (Array.getElem?_eq_some_iff.1 hth).1 hi, hth], rfl, rfl, rfl⟩

namespace Sound

/-- The threads after a child was started: those that were there, as sound as before, and the
child, which has no events yet. -/
theorem getElem?_beginFork (hw : Sound w) {id : NodeId} {target : String} {child : ThreadId}
    (h : w.beginFork id target = .ok (child, v)) {i : ThreadId} {th : Thread}
    (hth : v.session.threads[i]? = some th) :
    (i = child ∧ th.id = i ∧ th.events = #[] ∧
        th.site = some ⟨w.self.thread, w.self.events.size⟩ ∧ th.fork = some id) ∨
      i < w.session.threads.size ∧ ∃ old, w.session.threads[i]? = some old ∧ th.id = old.id ∧
        th.site = old.site ∧ th.events = old.events := by
  obtain ⟨rfl, -⟩ := beginFork_spec h
  rw [beginFork_getElem? h] at hth
  have hself := hw.inTable
  split at hth
  · next hi =>
    have hlt : i < w.session.threads.size := hi ▸ hself
    rw [Array.getElem?_push, if_neg (Nat.ne_of_lt hlt), Option.map_eq_some_iff] at hth
    obtain ⟨old, hold, rfl⟩ := hth
    exact Or.inr ⟨hlt, old, hold, rfl, rfl, rfl⟩
  · split at hth
    · next hi =>
      cases hth
      exact Or.inl ⟨hi, hi.symm, rfl, rfl, rfl⟩
    · exact Or.inr ⟨(Array.getElem?_eq_some_iff.1 hth).1, th, hth, rfl, rfl, rfl⟩

/-- The start of a child keeps a walk sound. -/
theorem beginFork (hw : Sound w) {id : NodeId} {n : Node} {target : String} {child : ThreadId}
    (hn : w.session.arena.get? id = some n) (hfork : n.category = .fork)
    (h : w.beginFork id target = .ok (child, v)) : Sound v := by
  have hpreserved := preserved_beginFork h
  have hsize := beginFork_size h
  have hget : ∀ {i : ThreadId} {th : Thread}, v.session.threads[i]? = some th → _ :=
    fun hth => hw.getElem?_beginFork h hth
  obtain ⟨hchild, harena, -, hself⟩ := beginFork_spec h
  have hstarted : ∃ th, v.session.threads[child]? = some th ∧
      th.site = some ⟨w.self.thread, w.self.events.size⟩ ∧ th.fork = some id := by
    have hlt : child < v.session.threads.size := by
      rw [hsize, hchild]
      exact Nat.lt_succ_self _
    refine ⟨_, Array.getElem?_eq_getElem hlt, ?_⟩
    rcases hget (Array.getElem?_eq_getElem hlt) with ⟨-, -, -, hsite, hnode⟩ | ⟨hold, -⟩
    · exact ⟨hsite, hnode⟩
    · exact absurd hold (by rw [hchild]; exact Nat.lt_irrefl _)
  have hthread : v.self.thread = w.self.thread := by
    rw [hself]
    rfl
  have hself_lt : w.self.thread < child := hchild ▸ hw.inTable
  have harena' : w.session.arena.Extends v.session.arena := harena ▸ .refl _
  have hbehind : ∀ i, w.Behind i → v.Behind i := by
    intro i hi
    refine ⟨by rw [hself]; exact hi.1, ?_⟩
    rw [hsize]
    exact Nat.lt_succ_of_lt hi.2
  constructor
  · rw [hself, hsize]
    exact Nat.lt_succ_of_lt hw.inTable
  · intro i th hth
    rcases hget hth with ⟨-, hid, -⟩ | ⟨-, old, hold, hid, -⟩
    · exact hid
    · exact hid.trans (hw.id_eq i old hold)
  · rw [hself]
    refine (hw.own.mono harena' hpreserved).push ⟨rfl, rfl, ?_, ?_, ?_⟩
    · exact ⟨n, harena' id n hn, hfork⟩
    · rintro i ⟨⟩
      exact ⟨hself_lt, hstarted⟩
    · intro i hi
      cases hi
  · intro i th hth
    rcases hget hth with ⟨-, -, hevents, -⟩ | ⟨-, old, hold, -, -, hevents⟩
    · intro j e he
      rw [hevents] at he
      cases he
    · rw [hevents]
      exact (hw.table i old hold).mono harena' hpreserved
  · intro f hf
    rw [hself] at hf
    exact hbehind _ (hw.unjoined f hf)
  · intro p hp
    rw [hself] at hp
    exact hbehind _ (hw.pending p hp)
  · intro i th hth hi
    have hown : v.eventsOf w.self.thread =
        w.self.events.push ⟨w.self.thread, w.self.events.size, id, .fork child⟩ := by
      rw [eventsOf, hself]
      exact if_pos rfl
    rw [hthread] at hi ⊢
    rcases hget hth with ⟨hic, -, -, hsite, -⟩ | ⟨-, old, hold, -, hsite, -⟩
    · subst hic
      refine ⟨_, hsite, Nat.le_refl _, hself_lt,
        ⟨w.self.thread, w.self.events.size, id, .fork i⟩, ?_, rfl⟩
      rw [hown]
      exact Array.getElem?_push_size
    · obtain ⟨s, hs, hle, hlt, e, he, hkind⟩ := hw.sited i old hold hi
      refine ⟨s, hsite.trans hs, hle, hlt, e, ?_, hkind⟩
      rw [eventsOf] at he
      split at he
      · next hst =>
        obtain ⟨hj, -⟩ := Array.getElem?_eq_some_iff.1 he
        rw [hst, hown, Array.getElem?_push, if_neg (Nat.ne_of_lt hj)]
        exact he
      · next hst =>
        have hslt : s.thread < w.session.threads.size :=
          hlt.trans (Array.getElem?_eq_some_iff.1 hold).1
        rw [eventsOf, hthread, if_neg hst, beginFork_getElem? h, if_neg hst,
          if_neg (Nat.ne_of_lt hslt)]
        exact he

/-- A child that was just started is sound. -/
theorem enterChild (hv : Sound v) {child : ThreadId} (api : ForkApi)
    (hlast : child + 1 = v.session.threads.size) : Sound (v.enterChild child api) where
  inTable := hlast ▸ Nat.lt_succ_self child
  id_eq := hv.id_eq
  own i e he := by cases he
  table := hv.table
  unjoined f hf := by cases hf
  pending p hp := by cases hp
  sited i th hth hi := by
    have hlt : i < v.session.threads.size := (Array.getElem?_eq_some_iff.1 hth).1
    rw [← hlast] at hlt
    exact absurd (Nat.le_of_lt_succ hlt) (Nat.not_le.2 hi)

/-- A child that a fork node starts is the last thread, and sound before it does anything. -/
theorem startChild (hw : Sound w) {id : NodeId} {n : Node} {api : ForkApi} {handle : Operand}
    {entry : ThreadEntry} {target : String} {child : ThreadId}
    (hn : w.session.arena.get? id = some n) (heffect : n.effect = .fork api handle entry)
    (h : w.beginFork id target = .ok (child, v)) :
    child + 1 = v.session.threads.size ∧ Sound (v.enterChild child api) := by
  have hv : Sound v := hw.beginFork hn (by simp [Node.category, heffect]) h
  have hsize : child + 1 = v.session.threads.size := (beginFork_spec h).1 ▸ (beginFork_size h).symm
  exact ⟨hsize, hv.enterChild api hsize⟩

/-- A thread of a sound walk has the same events in the table when it is closed. -/
theorem eventsOf_close (hw : Sound w) (i : ThreadId) :
    (w.close.session.threads[i]?.map Thread.events).getD #[] = w.eventsOf i := by
  rw [close_getElem?, eventsOf]
  split
  · next hi => rw [hi, Array.getElem?_eq_getElem hw.inTable]; rfl
  · rfl

/-- In the table of a sound walk that is closed, all events suit their places. -/
theorem table_close (hw : Sound w) {i : ThreadId} {th : Thread}
    (hth : w.close.session.threads[i]? = some th) :
    th.id = i ∧ Event.AllFit w.session.arena w.close.session.threads i th.events := by
  have hpreserved := preserved_close w
  rw [close_getElem?] at hth
  split at hth
  · next hi =>
    obtain ⟨old, hold, rfl⟩ := Option.map_eq_some_iff.1 hth
    exact ⟨hw.id_eq i old hold, hi ▸ hw.own.mono (.refl _) hpreserved⟩
  · exact ⟨hw.id_eq i th hth, (hw.table i th hth).mono (.refl _) hpreserved⟩

/-- In the table of a sound walk that is closed, every thread behind its own was started by a fork
event that stands in the table. -/
theorem sited_close (hw : Sound w) {i : ThreadId} {th : Thread}
    (hth : w.close.session.threads[i]? = some th) (hi : w.self.thread < i) :
    ∃ s, th.site = some s ∧ w.self.thread ≤ s.thread ∧ s.thread < i ∧ ∃ e,
      ((w.close.session.threads[s.thread]?.map Thread.events).getD #[])[s.index]? = some e ∧
        e.kind = .fork i := by
  rw [close_getElem?, if_neg (Nat.ne_of_gt hi)] at hth
  obtain ⟨s, hsite, hle, hlt, e, he, hkind⟩ := hw.sited i th hth hi
  exact ⟨s, hsite, hle, hlt, e, by rw [hw.eventsOf_close]; exact he, hkind⟩

/-- A parent goes on soundly after its last child has ended. -/
theorem endFork (hv : Sound v) {last : Walk} {child : ThreadId} {api : ForkApi}
    (hafter : v.self.thread < child) (hsize : child + 1 = v.session.threads.size)
    (hframe : Framed (v.enterChild child api) last)
    (harena : v.session.arena.Extends last.session.arena) (hlast : Sound last) (id : NodeId)
    (handle : Operand) : Sound (v.endFork r id api handle last.close) := by
  have hchild : last.self.thread = child := hframe.thread_eq
  have hpreserved : Thread.Preserved v.session.threads last.close.session.threads :=
    hframe.preserved.trans (preserved_close last)
  have hbehind : ∀ i, v.Behind i → (v.endFork r id api handle last.close).Behind i :=
    fun i hi => ⟨hi.1, hi.2.trans_le hpreserved.size_le⟩
  have hinner : ∀ i, child ≤ i → i < last.session.threads.size →
      (v.endFork r id api handle last.close).Behind i :=
    fun i hle hlt => ⟨hafter.trans_le hle, (size_close last).symm ▸ hlt⟩
  have hself : (v.endFork r id api handle last.close).Behind last.close.self.thread :=
    hinner _ (Nat.le_of_eq hchild.symm) hlast.inTable
  constructor
  · exact (hbehind child ⟨hafter, hsize ▸ Nat.lt_succ_self child⟩).1.trans
      (hbehind child ⟨hafter, hsize ▸ Nat.lt_succ_self child⟩).2
  · exact fun i th hth => (hlast.table_close hth).1
  · exact hv.own.mono harena hpreserved
  · exact fun i th hth => (hlast.table_close hth).2
  · intro f hf
    rcases List.mem_append.1 hf with hf | hf
    · exact hbehind _ (hv.unjoined f hf)
    · obtain rfl := List.mem_singleton.1 hf
      exact hself
  · have horphans : ∀ p ∈ v.self.pending ++ r.orphans last.close.self,
        (v.endFork r id api handle last.close).Behind p.child := by
      intro p hp
      rcases List.mem_append.1 hp with hp | hp
      · exact hbehind _ (hv.pending p hp)
      · unfold Runtime.orphans at hp
        split at hp
        · obtain ⟨q, hq, rfl⟩ := List.mem_map.1 hp
          obtain ⟨hlt, hin⟩ := hlast.pending q hq
          exact hinner _ (hchild ▸ hlt.le) hin
        · cases hp
    intro p hp
    rw [Walk.endFork] at hp
    dsimp only at hp
    split at hp
    · rcases List.mem_append.1 hp with hp | hp
      · exact horphans p hp
      · obtain rfl := List.mem_singleton.1 hp
        exact hself
    · exact horphans p hp
  · intro i th hth hi
    rcases Nat.lt_or_ge child i with hlater | hle
    -- Threads behind the child were started by the child or behind it.
    · obtain ⟨s, hsite, hles, hlt, e, he, hkind⟩ := hlast.sited_close hth (hchild ▸ hlater)
      have hs : v.self.thread < s.thread := hafter.trans_le (hchild ▸ hles)
      refine ⟨s, hsite, hs.le, hlt, e, ?_, hkind⟩
      rw [eventsOf]
      exact (if_neg (Nat.ne_of_gt hs)).symm ▸ he
    -- The others were there before the child was walked.
    · have hi' : i < v.session.threads.size := hsize ▸ Nat.lt_succ_of_le hle
      obtain ⟨th', hth', -, hsite', -⟩ := hpreserved i _ (Array.getElem?_eq_getElem hi')
      rw [show last.close.session.threads[i]? = some th from hth] at hth'
      cases hth'
      obtain ⟨s, hsite, hles, hlt, e, he, hkind⟩ :=
        hv.sited i _ (Array.getElem?_eq_getElem hi') hi
      refine ⟨s, hsite'.trans hsite, hles, hlt, e, ?_, hkind⟩
      have hs : s.thread ≠ child := Nat.ne_of_lt (hlt.trans_le hle)
      have hsame : last.close.session.threads[s.thread]? = v.session.threads[s.thread]? := by
        rw [close_getElem?, if_neg (by rwa [hchild])]
        exact hframe.others s.thread (hlt.trans hi') hs
      rw [eventsOf] at he ⊢
      show (if s.thread = v.self.thread then v.self.events
        else (last.close.session.threads[s.thread]?.map Thread.events).getD #[])[s.index]? = some e
      rw [hsame]
      exact he

end Sound

/-- The main thread on its own is sound. -/
theorem Sound.start {s : Session} {entry : String}
    (h : s.threads = #[Thread.new 0 entry none none]) : Sound ⟨s, Walker.start 0 none⟩ := by
  have hone : ∀ (i : ThreadId) th, s.threads[i]? = some th →
      i = 0 ∧ th = Thread.new 0 entry none none := by
    intro i th hth
    rw [h, Array.getElem?_eq_some_iff] at hth
    obtain ⟨hi, rfl⟩ := hth
    obtain rfl : i = 0 := Nat.lt_one_iff.1 hi
    exact ⟨rfl, rfl⟩
  constructor
  · rw [h]
    exact Nat.zero_lt_one
  · intro i th hth
    obtain ⟨rfl, rfl⟩ := hone i th hth
    rfl
  · intro i e he
    cases he
  · intro i th hth j e he
    obtain ⟨rfl, rfl⟩ := hone i th hth
    cases he
  · intro f hf
    cases hf
  · intro p hp
    cases hp
  · intro i th hth hi
    obtain ⟨rfl, -⟩ := hone i th hth
    exact absurd hi (Nat.lt_irrefl _)

/-- Growth keeps walks sound. -/
theorem Grows.sound (h : Grows c r w w') (hw : Sound w) : Sound w' := by
  induction h with
  | refl w => exact hw
  | trans _ _ ih₁ ih₂ => exact ih₂ (ih₁ hw)
  | consult h => exact hw.change rfl rfl h.extends (List.Subset.refl _) (List.Subset.refl _)
  | skip | meet | note =>
    exact hw.change rfl rfl (.refl _) (List.Subset.refl _) (List.Subset.refl _)
  | record hn hlocal hkind => exact hw.recordLocal hn hlocal hkind
  | @joinCompanion w _ id fork n hn hfork h =>
    refine (joinCompanion_induction
      (P := fun v => Sound v ∧ v.session = w.session ∧ v.self.thread = w.self.thread) h
      ⟨hw.change rfl rfl (.refl _) (fun _ hf => (List.mem_filter.1 hf).1) (List.Subset.refl _),
        rfl, rfl⟩ ?_).1
    rintro v f hf - ⟨hv, hsession, hthread⟩
    refine ⟨hv.recordJoin _ (hsession.symm ▸ hn) (Node.category_eq_join hfork) ?_, hsession,
      hthread⟩
    rintro i ⟨⟩
    exact hsession.symm ▸ (hw.unjoined f hf).2
  | joinHandle handle hn hjoin => exact hw.joinHandle handle hn hjoin
  | @joinPending w _ _ h =>
    refine (joinPending_induction (P := fun v => Sound v ∧ Framed w v) h
      ⟨hw.change rfl rfl (.refl _) (List.Subset.refl _) (fun _ hp => (List.mem_filter.1 hp).1),
        .of_eq rfl rfl rfl rfl⟩ ?_).1
    rintro v v' p hp ⟨hv, hframe⟩ hjoin
    obtain ⟨hlt, hin⟩ := hw.pending p hp
    have hbehind : v.Behind p.child := ⟨hframe.thread_eq.symm ▸ hlt, hin.trans_le hframe.size_le⟩
    exact ⟨hv.joinChild hbehind hjoin, hframe.trans (.joinChild hjoin)⟩
  | @fork w v inner last id n api handle entry target child hn heffect _ _ hbegin hinner hlast
      hfinish ihinner ihlast =>
    obtain ⟨hchild, -, -, hself⟩ := beginFork_spec hbegin
    have hv : Sound v := hw.beginFork hn (by simp [Node.category, heffect]) hbegin
    have hsize : child + 1 = v.session.threads.size := hchild ▸ (beginFork_size hbegin).symm
    have hafter : v.self.thread < child := by
      rw [hself, hchild]
      exact hw.inTable
    have hgrows : Grows c r (v.enterChild child api) last := hinner.trans hlast
    exact hv.endFork hafter hsize hgrows.framed hgrows.arena_extends
      (ihlast (ihinner (hv.enterChild api hsize))) id handle

end Walk

namespace Trace

/-- Threads stand at their numbers, all events suit their places, nobody started the main thread,
and every other thread was started by a fork event of an earlier one. -/
structure WellFormed (t : Trace) : Prop where
  id_eq : ∀ (i : ThreadId) th, t.threads[i]? = some th → th.id = i
  root : ∀ th, t.threads[0]? = some th → th.site = none
  fits : ∀ (i : ThreadId) th, t.threads[i]? = some th →
    Event.AllFit t.arena t.threads i th.events
  sited : ∀ (i : ThreadId) th, t.threads[i]? = some th → 0 < i →
    ∃ s, th.site = some s ∧ s.thread < i ∧ ∃ e, t.event? s = some e ∧ e.kind = .fork i

/-- Every trace that is built is well formed. -/
theorem build_wellFormed {c : Subject} {t : Trace} (h : Trace.build c = .ok t) : t.WellFormed := by
  obtain ⟨s, w, hthreads, hgrows, rfl⟩ := build_grows h
  have hw : w.Sound := hgrows.sound (.start hthreads)
  have hmain : w.self.thread = 0 := hgrows.framed.thread_eq
  constructor
  · exact fun i th hth => (hw.table_close hth).1
  · intro th hth
    have hfirst : s.threads[0]? = some (Thread.new 0 c.settings.entry none none) := by
      rw [hthreads]
      rfl
    obtain ⟨th', hth', -, hsite, -⟩ :=
      (hgrows.framed.preserved.trans (Walk.preserved_close w)) 0 _ hfirst
    obtain rfl : th = th' := Option.some.inj (hth.symm.trans hth')
    exact hsite
  · exact fun i th hth => (hw.table_close hth).2
  · intro i th hth hi
    obtain ⟨s, hsite, -, hlt, e, he, hkind⟩ := hw.sited_close hth (hmain.symm ▸ hi)
    refine ⟨s, hsite, hlt, e, ?_, hkind⟩
    rw [event?, eventsOf]
    cases hs : w.close.session.threads[s.thread]? with
    | none => rw [hs] at he; cases he
    | some th' => rw [hs] at he; exact he

end Trace

end DataRace
