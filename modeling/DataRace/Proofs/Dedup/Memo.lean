import DataRace.Proofs.Dedup.Effects
import DataRace.Proofs.Thin.Mask

/-!
# What is known of expanded calls

`Walk.memo` are the routines that a thread expanded since its last event that synchronises or
changes locks.  A routine of the memo that is not open any more is settled: it neither concerns
threads nor changes locks, its accesses have events with only quiet events behind them, and what it
calls is in the memo or open (`Walk.Memo`).

Two kinds of steps keep this.  `Walk.Ticks` are those that expand nothing.  They leave the memo as
it is or clear it (`Walk.Rolls`), and they clear it only where all open routines lead to such a node
(`Walk.Ticks.memo`).  The other kind is the end of a call (`Walk.Memo.close`): what the routine did
while it was open is settled, provided that recursion hides nothing.
-/

namespace DataRace

open Relation Session

/-- Whether a node changes the locks that are held. -/
def Node.changesLocks (n : Node) : Bool :=
  match n.effect with
  | .lock .. | .unlock .. => true
  | _ => false

/-- The kind of event that a node makes if it is an access. -/
def Node.accessKind? (n : Node) : Option EventKind :=
  match n.effect with
  | .read .. => some .read
  | .write .. => some .write
  | .free .. => some .free
  | _ => none

/-- Recursion hides neither nodes that concern threads nor, where there are none, nodes that change
locks. -/
structure Subject.Frank (c : Subject) : Prop where
  threads : c.Straight concernsThreads
  locks : ∀ f, ¬ c.Leads concernsThreads f → c.Leads Node.changesLocks f →
    c.Owns c.Calls Node.changesLocks f

namespace Walk

variable {c : Subject} {opened : List String} {u v w : Walk} {f g : String} {k : Nat}

/-- The routines that were expanded since the last event that synchronises or changes locks. -/
def memo (w : Walk) : List String := w.self.expanded.map Prod.fst

/-- An event that synchronises or changes locks clears the memo. -/
theorem memo_record (w : Walk) (id : NodeId) (kind : EventKind) :
    (w.record id kind).memo = if kind.isSync || kind.isLocking then [] else w.memo := by
  unfold memo record Walker.record
  dsimp only
  split <;> rfl

/-- A quiet event leaves the memo as it is. -/
theorem memo_record_of_quiet (w : Walk) (id : NodeId) {kind : EventKind} (h : kind.Quiet) :
    (w.record id kind).memo = w.memo := by
  rw [memo_record, h.1, h.2]
  rfl

/-! ### Quiet stretches -/

/-- Only quiet events were made since a walk. -/
def Since (w w' : Walk) : Prop :=
  ∃ new, w'.self.events = w.self.events ++ new ∧ ∀ e ∈ new, e.kind.Quiet

/-- An event that synchronises or changes locks was made since a walk. -/
def Stirred (w w' : Walk) : Prop :=
  ∃ new, w'.self.events = w.self.events ++ new ∧ ∃ e ∈ new, ¬ e.kind.Quiet

namespace Since

/-- No event was made. -/
theorem of_eq (hevents : u.self.events = w.self.events) : w.Since u :=
  ⟨#[], by rw [hevents, Array.append_empty], fun e he => absurd he (Array.not_mem_empty e)⟩

/-- Nothing was done. -/
protected theorem refl (w : Walk) : w.Since w := .of_eq rfl

/-- One stretch after the other. -/
protected theorem trans (huv : u.Since v) (hvw : v.Since w) : u.Since w := by
  obtain ⟨new, hnew, hquiet⟩ := huv
  obtain ⟨more, hmore, hquiet'⟩ := hvw
  refine ⟨new ++ more, ?_, fun e he => ?_⟩
  · rw [hmore, hnew, Array.append_assoc]
  · rcases Array.mem_append.1 he with he | he
    · exact hquiet e he
    · exact hquiet' e he

/-- One quiet event was made. -/
theorem record (w : Walk) (id : NodeId) {kind : EventKind} (h : kind.Quiet) :
    w.Since (w.record id kind) := by
  refine ⟨#[⟨w.self.thread, w.self.events.size, id, kind⟩], Array.push_eq_append, fun e he => ?_⟩
  rw [Array.mem_singleton.1 he]
  exact h

end Since

namespace Stirred

/-- One event was made, and it was not quiet. -/
theorem of_push {e : Event} (hevents : v.self.events = u.self.events.push e)
    (hloud : ¬ e.kind.Quiet) : u.Stirred v :=
  ⟨#[e], hevents.trans Array.push_eq_append, e, Array.mem_singleton_self e, hloud⟩

/-- There is such an event among more events. -/
theorem append (huv : u.Stirred v) (hvw : ∃ more, w.self.events = v.self.events ++ more) :
    u.Stirred w := by
  obtain ⟨new, hnew, e, he, hloud⟩ := huv
  obtain ⟨more, hmore⟩ := hvw
  refine ⟨new ++ more, ?_, e, Array.mem_append_left _ he, hloud⟩
  rw [hmore, hnew, Array.append_assoc]

/-- There is such an event behind other events. -/
theorem behind (huv : ∃ new, v.self.events = u.self.events ++ new) (hvw : v.Stirred w) :
    u.Stirred w := by
  obtain ⟨new, hnew⟩ := huv
  obtain ⟨more, hmore, e, he, hloud⟩ := hvw
  refine ⟨new ++ more, ?_, e, Array.mem_append_right _ he, hloud⟩
  rw [hmore, hnew, Array.append_assoc]

end Stirred

/-- What was done since a walk forgot no nodes and made only quiet events. -/
structure Hushed (w w' : Walk) : Prop where
  remembers : w.session.Remembers w'.session
  since : w.Since w'

namespace Hushed

/-- Nothing was done. -/
protected theorem refl (w : Walk) : w.Hushed w := ⟨.refl _, .refl w⟩

/-- One stretch after the other. -/
protected theorem trans (huv : u.Hushed v) (hvw : v.Hushed w) : u.Hushed w :=
  ⟨huv.remembers.trans hvw.remembers, huv.since.trans hvw.since⟩

/-- No event was made. -/
theorem of_eq (hremembers : w.session.Remembers u.session)
    (hevents : u.self.events = w.self.events) : w.Hushed u :=
  ⟨hremembers, .of_eq hevents⟩

/-- One quiet event was made. -/
theorem record (w : Walk) (id : NodeId) {kind : EventKind} (h : kind.Quiet) :
    w.Hushed (w.record id kind) := ⟨.refl _, .record w id h⟩

end Hushed

/-- An access has an event with only quiet events behind it. -/
def Recent (w : Walk) (f : String) (k : Nat) (kind : EventKind) : Prop :=
  ∃ id, w.session.At f k id ∧ ∃ (i : Nat) (e : Event), w.self.events[i]? = some e ∧ e.node = id ∧
    e.kind = kind ∧ ∀ (l : Nat) (d : Event), i < l → w.self.events[l]? = some d → d.kind.Quiet

/-- A recent access stays recent in a quiet stretch. -/
theorem Recent.mono {kind : EventKind} (h : u.Recent f k kind) (huv : u.Hushed v) :
    v.Recent f k kind := by
  obtain ⟨id, hid, i, e, he, hnode, hkind, hbehind⟩ := h
  obtain ⟨new, hnew, hquiet⟩ := huv.since
  refine ⟨id, hid.mono huv.remembers, i, e, ?_, hnode, hkind, fun l d hil hd => ?_⟩
  · rw [hnew, Array.getElem?_append_left (Array.getElem?_eq_some_iff.1 he).1, he]
  · rw [hnew, Array.getElem?_append] at hd
    split at hd
    · exact hbehind l d hil hd
    · exact hquiet d (Array.mem_of_getElem? hd)

/-- An access that was just made is recent. -/
theorem Recent.record {id : NodeId} (hid : w.session.At f k id) (kind : EventKind) :
    (w.record id kind).Recent f k kind := by
  refine ⟨id, hid, w.self.events.size, _, Array.getElem?_push_size, rfl, rfl,
    fun l d hl hd => ?_⟩
  have hlt := (Array.getElem?_eq_some_iff.1 hd).1
  rw [show (w.record id kind).self.events.size = w.self.events.size + 1 from Array.size_push _]
    at hlt
  omega

/-! ### Settled routines -/

/-- The node at a position of a routine adds nothing when it is reached again: it changes no locks,
an access is recent, and what a plain call reaches is in the memo or open. -/
structure Handled (c : Subject) (opened : List String) (w : Walk) (f : String) (k : Nat) :
    Prop where
  unlocked : ∀ n, (c.nodesOf f)[k]? = some n → n.changesLocks = false
  recent : ∀ n kind, (c.nodesOf f)[k]? = some n → n.accessKind? = some kind → w.Recent f k kind
  called : ∀ n callee args, (c.nodesOf f)[k]? = some n → n.effect = .call .plain callee args →
    ∀ g ∈ c.callTargets callee, (∃ r, c.program.definition? g = some r) →
      g ∈ w.memo ∨ g ∈ opened

/-- A handled node stays handled while the memo grows quietly. -/
theorem Handled.mono (h : Handled c opened u f k) (hmemo : u.memo ⊆ v.memo)
    (huv : u.Hushed v) : Handled c opened v f k where
  unlocked := h.unlocked
  recent n kind hn hkind := (h.recent n kind hn hkind).mono huv
  called n callee args hn heffect g hg hdef :=
    (h.called n callee args hn heffect g hg hdef).imp_left fun hmem => hmemo hmem

/-- What is known of the memo, while some routines are open, innermost first. -/
structure Memo (c : Subject) (opened : List String) (w : Walk) : Prop where
  harmless : ∀ f ∈ w.memo, ¬ c.Leads concernsThreads f
  settled : ∀ f ∈ w.memo, f ∉ opened →
    ¬ c.Leads Node.changesLocks f ∧ ∀ k, Handled c opened w f k
  opened : ∀ f ∈ opened, f ∈ w.memo ∨ c.Leads concernsThreads f ∨
    c.Leads Node.changesLocks f ∨ opened.getLast? = some f

namespace Memo

/-- Nothing is known when nothing was expanded. -/
theorem of_nil (hmemo : w.memo = []) (hopened : ∀ f ∈ opened, c.Leads concernsThreads f ∨
    c.Leads Node.changesLocks f ∨ opened.getLast? = some f) : Memo c opened w where
  harmless f hf := by
    rw [hmemo] at hf
    cases hf
  settled f hf := by
    rw [hmemo] at hf
    cases hf
  opened f hf := Or.inr (hopened f hf)

/-- A quiet stretch that expands nothing keeps what is known. -/
theorem hush (h : Memo c opened u) (hmemo : v.memo = u.memo) (huv : u.Hushed v) :
    Memo c opened v where
  harmless f hf := h.harmless f (hmemo ▸ hf)
  settled f hf hopen := by
    obtain ⟨hlocks, hhandled⟩ := h.settled f (hmemo ▸ hf) hopen
    exact ⟨hlocks, fun k => (hhandled k).mono (hmemo ▸ List.Subset.refl _) huv⟩
  opened f hf := hmemo ▸ h.opened f hf

/-- A call that is noted is known to be harmless. -/
theorem note (h : Memo c opened w) (hne : opened ≠ []) (args : List Operand)
    (hharmless : ¬ c.Leads concernsThreads g) :
    Memo c (g :: opened)
      { w with self := { w.self with expanded := (g, args) :: w.self.expanded } } where
  harmless f hf := by
    rcases List.mem_cons.1 hf with rfl | hf
    · exact hharmless
    · exact h.harmless f hf
  settled f hf hopen := by
    rw [List.mem_cons, not_or] at hopen
    have hold : f ∈ w.memo := (List.mem_cons.1 hf).resolve_left hopen.1
    obtain ⟨hlocks, hhandled⟩ := h.settled f hold hopen.2
    refine ⟨hlocks, fun k => ⟨(hhandled k).unlocked, (hhandled k).recent, ?_⟩⟩
    intro n callee args hn heffect k hk hdef
    rcases (hhandled _).called n callee args hn heffect k hk hdef with hmem | hmem
    · exact Or.inl (List.mem_cons_of_mem _ hmem)
    · exact Or.inr (List.mem_cons_of_mem _ hmem)
  opened f hf := by
    obtain ⟨outer, rest, rfl⟩ := List.exists_cons_of_ne_nil hne
    rw [List.getLast?_cons_cons]
    rcases List.mem_cons.1 hf with rfl | hf
    · exact Or.inl List.mem_cons_self
    · exact (h.opened f hf).imp_left fun hmem => List.mem_cons_of_mem _ hmem

/-- A call of a routine that concerns threads is not noted. -/
theorem enter (h : Memo c opened w) (hne : opened ≠ []) (hleads : c.Leads concernsThreads g) :
    Memo c (g :: opened) w where
  harmless := h.harmless
  settled f hf hopen := by
    rw [List.mem_cons, not_or] at hopen
    obtain ⟨hlocks, hhandled⟩ := h.settled f hf hopen.2
    refine ⟨hlocks, fun k => ⟨(hhandled k).unlocked, (hhandled k).recent, ?_⟩⟩
    intro n callee args hn heffect k hk hdef
    exact ((hhandled _).called n callee args hn heffect k hk hdef).imp_right
      fun hmem => List.mem_cons_of_mem _ hmem
  opened f hf := by
    obtain ⟨outer, rest, rfl⟩ := List.exists_cons_of_ne_nil hne
    rw [List.getLast?_cons_cons]
    rcases List.mem_cons.1 hf with rfl | hf
    · exact Or.inr (Or.inl hleads)
    · exact h.opened f hf

/-- A routine of the memo whose nodes are all handled is settled when it ends. -/
theorem close (hfrank : c.Frank) (h : Memo c (g :: opened) w) (hne : opened ≠ [])
    (hreach : ∀ f ∈ opened, ReflTransGen c.Calls f g)
    (hhandled : g ∈ w.memo → ∀ k, Handled c (g :: opened) w g k) : Memo c opened w := by
  have hlast : (g :: opened).getLast? = opened.getLast? := by
    obtain ⟨outer, rest, rfl⟩ := List.exists_cons_of_ne_nil hne
    exact List.getLast?_cons_cons
  -- Otherwise `g` leads to a lock through a routine that does not call it back; that routine was
  -- handled, so it is settled itself.
  have hlocks : g ∈ w.memo → ¬ c.Leads Node.changesLocks g := by
    intro hg hleads
    rcases hfrank.locks g (h.harmless g hg) hleads with ⟨n, hn, hlock⟩ | ⟨k, hgk, hback, hk⟩
    · obtain ⟨i, hi⟩ := List.mem_iff_getElem?.1 hn
      rw [(hhandled hg i).unlocked n hi] at hlock
      cases hlock
    · obtain ⟨n, callee, args, hn, heffect, htarget⟩ := hgk.exists_node
      obtain ⟨i, hi⟩ := List.mem_iff_getElem?.1 hn
      have hopen : k ∉ g :: opened := by
        intro hmem
        rcases List.mem_cons.1 hmem with rfl | hmem
        · exact hback .refl
        · exact hback (hreach k hmem)
      rcases (hhandled hg i).called n callee args hi heffect k htarget hk.exists_definition
        with hmem | hmem
      · exact (h.settled k hmem hopen).1 hk
      · exact hopen hmem
  refine ⟨h.harmless, fun f hf hopen => ?_, fun f hf => ?_⟩
  · have hsettled : ¬ c.Leads Node.changesLocks f ∧ ∀ k, Handled c (g :: opened) w f k := by
      by_cases hfg : f = g
      · subst hfg
        exact ⟨hlocks hf, hhandled hf⟩
      · exact h.settled f hf fun hmem => (List.mem_cons.1 hmem).elim hfg hopen
    refine ⟨hsettled.1, fun k => ⟨(hsettled.2 k).unlocked, (hsettled.2 k).recent, ?_⟩⟩
    intro n callee args hn heffect x hx hdef
    rcases (hsettled.2 k).called n callee args hn heffect x hx hdef with hmem | hmem
    · exact Or.inl hmem
    · rcases List.mem_cons.1 hmem with rfl | hmem
      · have hcalls : c.Calls f x := Subject.calls_of_mem (List.mem_of_getElem? hn) heffect hx
        rcases h.opened x List.mem_cons_self with hmemo | hthreads | hlock | hend
        · exact Or.inl hmemo
        · exact absurd (hthreads.of_calls hcalls) (h.harmless f hf)
        · exact absurd (hlock.of_calls hcalls) hsettled.1
        · rw [hlast] at hend
          exact Or.inr (List.mem_of_getLast? hend)
      · exact Or.inr hmem
  · rw [← hlast]
    exact h.opened f (List.mem_cons_of_mem _ hf)

end Memo

/-! ### What walking does to the memo -/

/-- The memo grew quietly, by routines that are not open. -/
structure Calm (opened : List String) (w w' : Walk) : Prop where
  hushed : w.Hushed w'
  kept : w.memo ⊆ w'.memo
  fresh : ∀ f ∈ w'.memo, f ∈ w.memo ∨ f ∉ opened

/-- No open routine is in the memo. -/
def Loud (opened : List String) (w : Walk) : Prop := ∀ f ∈ opened, f ∉ w.memo

/-- A stretch was calm, or what was open is not in the memo any more. -/
def Passes (opened : List String) (w w' : Walk) : Prop := Calm opened w w' ∨ Loud opened w'

/-- Nothing happened. -/
theorem Calm.refl (opened : List String) (w : Walk) : Calm opened w w :=
  ⟨.refl w, List.Subset.refl _, fun _ hf => Or.inl hf⟩

/-- One calm stretch after the other. -/
theorem Calm.trans (huv : Calm opened u v) (hvw : Calm opened v w) : Calm opened u w where
  hushed := huv.hushed.trans hvw.hushed
  kept := List.Subset.trans huv.kept hvw.kept
  fresh f hf := by
    rcases hvw.fresh f hf with hf | hf
    · exact huv.fresh f hf
    · exact Or.inr hf

/-- What is open is not expanded again. -/
theorem Calm.loud (huv : Calm opened u v) (hu : Loud opened u) : Loud opened v := by
  intro f hf hmem
  rcases huv.fresh f hmem with hmem | hopen
  · exact hu f hf hmem
  · exact hopen hf

namespace Passes

/-- One stretch after the other. -/
protected theorem trans (huv : Passes opened u v) (hvw : Passes opened v w) :
    Passes opened u w := by
  rcases hvw with hvw | hw
  · rcases huv with huv | hv
    · exact Or.inl (huv.trans hvw)
    · exact Or.inr (hvw.loud hv)
  · exact Or.inr hw

/-- If an open routine is in the memo, everything was calm since it came there. -/
theorem calm (h : Passes opened u v) (hf : f ∈ opened) (hmem : f ∈ v.memo) :
    Calm opened u v ∧ f ∈ u.memo := by
  rcases h with hcalm | hloud
  · exact ⟨hcalm, (hcalm.fresh f hmem).resolve_right fun hopen => hopen hf⟩
  · exact absurd hmem (hloud f hf)

/-- A stretch with one more open routine. -/
theorem of_cons (h : Passes (g :: opened) u v) : Passes opened u v := by
  rcases h with ⟨hhushed, hkept, hfresh⟩ | hloud
  · exact Or.inl ⟨hhushed, hkept, fun f hf => (hfresh f hf).imp_right
      fun hopen hmem => hopen (List.mem_cons_of_mem _ hmem)⟩
  · exact Or.inr fun f hf => hloud f (List.mem_cons_of_mem _ hf)

end Passes

/-- What expands nothing: expanded calls are kept as long as only quiet events are made, and
forgotten at any other event. -/
def Rolls (w w' : Walk) : Prop :=
  w'.self.expanded = w.self.expanded ∧ w.Hushed w' ∨ w'.self.expanded = [] ∧ w.Stirred w'

namespace Rolls

/-- Nothing happened. -/
protected theorem refl (w : Walk) : Rolls w w := Or.inl ⟨rfl, .refl w⟩

/-- One thing after the other. -/
protected theorem trans (huv : Rolls u v) (hvw : Rolls v w) : Rolls u w := by
  have hfirst : ∃ new, v.self.events = u.self.events ++ new := by
    rcases huv with ⟨-, -, new, hnew, -⟩ | ⟨-, new, hnew, -⟩ <;> exact ⟨new, hnew⟩
  rcases hvw with ⟨hexpanded, hhush⟩ | ⟨hnil, hstirred⟩
  · rcases huv with ⟨hexpanded', hhush'⟩ | ⟨hnil', hstirred'⟩
    · exact Or.inl ⟨hexpanded.trans hexpanded', hhush'.trans hhush⟩
    · obtain ⟨more, hmore, -⟩ := hhush.since
      exact Or.inr ⟨hexpanded.trans hnil', hstirred'.append ⟨more, hmore⟩⟩
  · exact Or.inr ⟨hnil, hstirred.behind hfirst⟩

/-- An event that is not quiet was made. -/
theorem of_push {e : Event} (hevents : v.self.events = u.self.events.push e)
    (hloud : ¬ e.kind.Quiet) (hnil : v.self.expanded = []) : Rolls u v :=
  Or.inr ⟨hnil, .of_push hevents hloud⟩

/-- An event was made. -/
theorem record (w : Walk) (id : NodeId) (kind : EventKind) : Rolls w (w.record id kind) := by
  by_cases hloud : (kind.isSync || kind.isLocking) = true
  · refine .of_push (e := ⟨w.self.thread, w.self.events.size, id, kind⟩) rfl ?_ (if_pos hloud)
    rintro ⟨hsync, hlocking⟩
    rw [hsync, hlocking] at hloud
    cases hloud
  · have hquiet : kind.Quiet := by
      rw [Bool.not_eq_true, Bool.or_eq_false_iff] at hloud
      exact hloud
    exact Or.inl ⟨if_neg hloud, .record w id hquiet⟩

end Rolls

/-- What expands nothing also leaves the answers right. -/
structure Ticks (c : Subject) (w w' : Walk) : Prop where
  answers : Answers c w.session → Answers c w'.session
  rolls : Rolls w w'

namespace Ticks

/-- Nothing happened. -/
protected theorem refl (c : Subject) (w : Walk) : Ticks c w w := ⟨id, .refl w⟩

/-- One thing after the other. -/
protected theorem trans (huv : Ticks c u v) (hvw : Ticks c v w) : Ticks c u w :=
  ⟨fun hu => hvw.answers (huv.answers hu), huv.rolls.trans hvw.rolls⟩

/-- Nothing but notes changed that have to do with neither calls nor events. -/
theorem of_eq (hsession : v.session = u.session) (hexpanded : v.self.expanded = u.self.expanded)
    (hevents : v.self.events = u.self.events) : Ticks c u v :=
  ⟨fun hu => hsession ▸ hu, Or.inl ⟨hexpanded, .of_eq (hsession ▸ .refl _) hevents⟩⟩

/-- An event was made. -/
theorem record (c : Subject) (w : Walk) (id : NodeId) (kind : EventKind) :
    Ticks c w (w.record id kind) := ⟨fun h => h, .record w id kind⟩

/-- The memo is cleared, or stays as it is while only quiet events are made. -/
theorem outcome (h : Ticks c w w') : w'.memo = [] ∨ w'.memo = w.memo ∧ w.Hushed w' := by
  unfold memo
  rcases h.rolls with ⟨hexpanded, hhush⟩ | ⟨hnil, -⟩
  · exact Or.inr ⟨by rw [hexpanded], hhush⟩
  · exact Or.inl (by rw [hnil]; rfl)

/-- What is known of the memo stays known, as long as all open routines lead to a node that may
clear it. -/
theorem memo (h : Ticks c u v) (hu : Memo c opened u) (hopened : ∀ f ∈ opened,
    c.Leads concernsThreads f ∨ c.Leads Node.changesLocks f) : Memo c opened v := by
  rcases h.outcome with hnil | ⟨hmemo, hhush⟩
  · exact .of_nil hnil fun f hf => (hopened f hf).imp_right Or.inl
  · exact hu.hush hmemo hhush

/-- A step that expands nothing is calm or clears the memo. -/
theorem passes (h : Ticks c u v) (opened : List String) : Passes opened u v := by
  rcases h.outcome with hnil | ⟨hmemo, hhush⟩
  · refine Or.inr fun f _ hmem => ?_
    rw [hnil] at hmem
    cases hmem
  · exact Or.inl ⟨hhush, hmemo ▸ List.Subset.refl _, fun f hf => Or.inl (hmemo ▸ hf)⟩

end Ticks

end Walk

end DataRace
