import DataRace.Proofs.Trace.Listing

/-!
# Questions to a session

A session can be asked for the nodes of a routine, for its effects, for the routines that a call may
reach, for the companion join of a fork and for a new thread (`Session.ask`), in any order
(`Session.askAll`).

The logged questions note each routine that is classified while they are answered, also those that
a search for effects comes to, and give the same answers (`Session.askAllLogged_fst`).  No routine
is classified twice, a question for nodes is always answered alike, and what is answered lists the
nodes of the routine in an arena that only grows (`Session.answers_listed`).
-/

namespace DataRace

namespace Session

variable {c : Subject} {s s' : Session}

/-! ### Questions -/

/-- What a session can be asked for. -/
inductive Query where
  /-- The nodes of a routine. -/
  | nodes (f : String)
  /-- Whether a call of a routine may concern other threads. -/
  | effects (f : String)
  /-- The routines that a call may reach. -/
  | targets (callee : Callee)
  /-- The companion join of a fork. -/
  | companion (fork : NodeId)
  /-- A new thread. -/
  | thread (entry : String) (site : Option EventRef) (fork : Option NodeId)

/-- What a session answers. -/
inductive Reply where
  | nodes (ids : Option (List NodeId))
  | effects (answer : Bool)
  | targets (names : List String)
  | companion (join : NodeId)
  | thread (id : ThreadId)

/-- Answers a question. -/
def ask (c : Subject) (s : Session) : Query → Except Fault (Reply × Session)
  | .nodes f => do
    let (ids, s) ← s.summary c f
    .ok (.nodes ids, s)
  | .effects f => do
    let (answer, s) ← s.hasThreadEffects c f
    .ok (.effects answer, s)
  | .targets callee => .ok (.targets (c.callTargets callee), s)
  | .companion fork => do
    let (join, arena) ← s.arena.companionJoin fork
    .ok (.companion join, { s with arena })
  | .thread entry site fork => do
    let (id, s) ← s.reserve entry site fork
    .ok (.thread id, s)

/-- Answers one question after the other. -/
def askAll (c : Subject) : List Query → Session → Except Fault (List Reply × Session)
  | [], s => .ok ([], s)
  | q :: qs, s => do
    let (reply, s) ← s.ask c q
    let (replies, s) ← askAll c qs s
    .ok (reply :: replies, s)

/-! ### What is classified -/

/-- Answers the nodes of a routine and notes the routine if it is classified. -/
def summaryLogged (c : Subject) (s : Session) (f : String) :
    Except Fault ((Option (List NodeId) × Session) × List String) :=
  match s.summaries[f]? with
  | some nodes => .ok ((some nodes, s), [])
  | none =>
    match c.program.definition? f with
    | none => .ok ((none, s), [])
    | some r => do
      let d ← Draft.classifyAll c.program c.settings c.chain ⟨s.arena, []⟩ r.body
      .ok ((some d.nodes, { s with arena := d.arena, summaries := s.summaries.insert f d.nodes }),
        [f])

mutual

/-- Explores a routine and notes the routines that are classified on the way. -/
def exploreLogged (c : Subject) (path : List String) (f : String) (s : Session) :
    Except Fault ((Bool × Session) × List String) :=
  match s.effects[f]? with
  | some known => .ok ((known, s), [])
  | none =>
    if hp : f ∈ path then .ok ((false, s), [])
    else
      match hd : c.program.definition? f with
      | none => .ok ((false, { s with effects := s.effects.insert f false }), [])
      | some _ =>
        have := c.unseen_cons_lt hd hp
        do
        let ((ids, s), own) ← s.summaryLogged c f
        let nodes := s.nodesAt (ids.getD [])
        let ((answer, s), others) ←
          if nodes.any concernsThreads then .ok ((true, s), [])
          else exploreAnyLogged c (f :: path) (calledBy c nodes) s
        .ok ((answer, { s with effects := s.effects.insert f answer }), own ++ others)
termination_by (c.unseen path, 0)

/-- Explores several routines and notes the routines that are classified on the way. -/
def exploreAnyLogged (c : Subject) (path : List String) : List String → Session →
    Except Fault ((Bool × Session) × List String)
  | [], s => .ok ((false, s), [])
  | f :: fs, s => do
    let ((answer, s), first) ← exploreLogged c path f s
    if answer then .ok ((true, s), first)
    else do
      let (result, others) ← exploreAnyLogged c path fs s
      .ok (result, first ++ others)
termination_by fs => (c.unseen path, fs.length + 1)

end

/-- Answers a question and notes the routines that are classified for it. -/
def askLogged (c : Subject) (s : Session) : Query → Except Fault ((Reply × Session) × List String)
  | .nodes f => do
    let ((ids, s), log) ← s.summaryLogged c f
    .ok ((.nodes ids, s), log)
  | .effects f => do
    let ((answer, s), log) ← exploreLogged c [] f s
    .ok ((.effects answer, s), log)
  | .targets callee => .ok ((.targets (c.callTargets callee), s), [])
  | .companion fork => do
    let (join, arena) ← s.arena.companionJoin fork
    .ok ((.companion join, { s with arena }), [])
  | .thread entry site fork => do
    let (id, s) ← s.reserve entry site fork
    .ok ((.thread id, s), [])

/-- Answers one question after the other and notes the routines that are classified, in order. -/
def askAllLogged (c : Subject) :
    List Query → Session → Except Fault ((List Reply × Session) × List String)
  | [], s => .ok (([], s), [])
  | q :: qs, s => do
    let ((reply, s), first) ← s.askLogged c q
    let ((replies, s), others) ← askAllLogged c qs s
    .ok ((reply :: replies, s), first ++ others)

/-! ### Notes change no answer -/

/-- A chain of two noting steps answers what the steps without notes answer. -/
theorem fst_bind {α β : Type} {x : Except Fault (α × List String)} {y : Except Fault α}
    {f : α × List String → Except Fault (β × List String)} {g : α → Except Fault β}
    (hx : Prod.fst <$> x = y) (hf : ∀ a log, Prod.fst <$> f (a, log) = g a) :
    Prod.fst <$> (x >>= f) = y >>= g := by
  subst hx
  cases x with
  | error e => rfl
  | ok result => exact hf result.1 result.2

/-- So does a chain whose first step notes nothing. -/
theorem fst_bind_quiet {α β : Type} {x : Except Fault α}
    {f : α → Except Fault (β × List String)} {g : α → Except Fault β}
    (hf : ∀ a, Prod.fst <$> f a = g a) : Prod.fst <$> (x >>= f) = x >>= g := by
  cases x with
  | error e => rfl
  | ok a => exact hf a

/-- The nodes are the same without notes. -/
theorem summaryLogged_fst (c : Subject) (s : Session) (f : String) :
    Prod.fst <$> s.summaryLogged c f = s.summary c f := by
  unfold summaryLogged summary
  cases s.summaries[f]? with
  | some nodes => rfl
  | none =>
    cases c.program.definition? f with
    | none => rfl
    | some r =>
      dsimp only
      cases Draft.classifyAll c.program c.settings c.chain ⟨s.arena, []⟩ r.body <;> rfl

/-- What exploring finds is the same without notes. -/
theorem exploreLogged_fst (c : Subject) :
    (∀ path f s, Prod.fst <$> exploreLogged c path f s = explore c path f s) ∧
      ∀ path fs s, Prod.fst <$> exploreAnyLogged c path fs s = exploreAny c path fs s := by
  apply explore.mutual_induct c
    (fun path f s => Prod.fst <$> exploreLogged c path f s = explore c path f s)
    (fun path fs s => Prod.fst <$> exploreAnyLogged c path fs s = exploreAny c path fs s)
  case case1 =>
    intro path f s known hknown
    rw [explore_of_known hknown, exploreLogged, hknown]
    rfl
  case case2 =>
    intro path f s hknown hpath
    rw [explore_of_mem hknown hpath, exploreLogged, hknown]
    dsimp only
    rw [dif_pos hpath]
    rfl
  case case3 =>
    intro path f s hknown hpath hdef
    rw [explore_of_bodiless hknown hpath hdef, exploreLogged, hknown]
    dsimp only
    rw [dif_neg hpath]
    split
    · rfl
    · next hdef' => rw [hdef] at hdef'; cases hdef'
  case case4 =>
    intro path f s hknown hpath routine hdef _ ih
    rw [explore_of_body hknown hpath hdef, exploreLogged, hknown]
    dsimp only
    rw [dif_neg hpath]
    split
    · next hdef' => rw [hdef] at hdef'; cases hdef'
    refine fst_bind (summaryLogged_fst c s f) ?_
    rintro ⟨ids, s₁⟩ own
    dsimp only
    split
    · rfl
    · exact fst_bind (ih ids s₁) fun _ _ => rfl
  case case5 =>
    intro path s
    rw [exploreAnyLogged, exploreAny]
    rfl
  case case6 =>
    intro path f fs s ih ihs
    rw [exploreAnyLogged, exploreAny]
    refine fst_bind ih ?_
    rintro ⟨answer, s₁⟩ first
    cases answer with
    | true => rfl
    | false =>
      refine Eq.trans ?_ (ihs s₁)
      dsimp only
      cases exploreAnyLogged c path fs s₁ <;> rfl

/-- A question is answered alike without notes. -/
theorem askLogged_fst (c : Subject) (s : Session) (q : Query) :
    Prod.fst <$> s.askLogged c q = s.ask c q := by
  cases q with
  | nodes f => exact fst_bind (summaryLogged_fst c s f) fun _ _ => rfl
  | effects f => exact fst_bind ((exploreLogged_fst c).1 [] f s) fun _ _ => rfl
  | targets callee => rfl
  | companion fork => exact fst_bind_quiet fun _ => rfl
  | thread entry site fork => exact fst_bind_quiet fun _ => rfl

/-- Questions are answered alike without notes. -/
theorem askAllLogged_fst (c : Subject) (qs : List Query) (s : Session) :
    Prod.fst <$> askAllLogged c qs s = askAll c qs s := by
  induction qs generalizing s with
  | nil => rfl
  | cons q qs ih =>
    refine fst_bind (askLogged_fst c s q) ?_
    rintro ⟨reply, s₁⟩ first
    exact fst_bind (ih s₁) fun _ _ => rfl

/-! ### Nothing is classified twice -/

/-- The routines of a list were classified, each once, and no others. -/
structure Classifies (s : Session) (log : List String) (s' : Session) : Prop where
  nodup : log.Nodup
  fresh : ∀ f ∈ log, f ∉ s.summaries
  known : ∀ f, f ∈ s'.summaries ↔ f ∈ s.summaries ∨ f ∈ log

namespace Classifies

/-- Nothing was classified. -/
theorem of_eq (h : s'.summaries = s.summaries) : s.Classifies [] s' where
  nodup := .nil
  fresh f hf := absurd hf List.not_mem_nil
  known f := by simp [h]

/-- One step after the other. -/
protected theorem append {s₁ : Session} {log log' : List String} (h : s.Classifies log s₁)
    (h' : s₁.Classifies log' s') : s.Classifies (log ++ log') s' where
  nodup := h.nodup.append h'.nodup fun f hf hf' => h'.fresh f hf' ((h.known f).2 (Or.inr hf))
  fresh f hf := by
    rcases List.mem_append.1 hf with hf | hf
    · exact h.fresh f hf
    · exact fun hold => h'.fresh f hf ((h.known f).2 (Or.inl hold))
  known f := by rw [h'.known, h.known, List.mem_append, or_assoc]

end Classifies

/-- The nodes of a routine are made once. -/
theorem summaryLogged_classifies {f : String} {ids : Option (List NodeId)} {log : List String}
    (h : s.summaryLogged c f = .ok ((ids, s'), log)) : s.Classifies log s' := by
  unfold summaryLogged at h
  split at h
  · cases h
    exact .of_eq rfl
  · next hnone =>
    split at h
    · cases h
      exact .of_eq rfl
    · obtain ⟨d, -, h⟩ := Except.bind_eq_ok.1 h
      cases h
      refine ⟨List.nodup_singleton f, fun g hg => ?_, fun g => ?_⟩
      · rw [List.mem_singleton.1 hg, Std.HashMap.mem_iff_isSome_getElem?, hnone]
        exact Bool.false_ne_true
      · rw [Std.HashMap.mem_insert, beq_iff_eq, List.mem_singleton, or_comm, eq_comm]

/-- Exploring makes the nodes of no routine twice. -/
theorem exploreLogged_classifies (c : Subject) :
    (∀ path f s answer s' log, exploreLogged c path f s = .ok ((answer, s'), log) →
        s.Classifies log s') ∧
      ∀ path fs s answer s' log, exploreAnyLogged c path fs s = .ok ((answer, s'), log) →
        s.Classifies log s' := by
  apply exploreLogged.mutual_induct c
    (fun path f s => ∀ answer s' log, exploreLogged c path f s = .ok ((answer, s'), log) →
      s.Classifies log s')
    (fun path fs s => ∀ answer s' log, exploreAnyLogged c path fs s = .ok ((answer, s'), log) →
      s.Classifies log s')
  case case1 =>
    intro path f s known hknown answer s' log h
    rw [exploreLogged, hknown] at h
    cases h
    exact .of_eq rfl
  case case2 =>
    intro path f s hknown hpath answer s' log h
    rw [exploreLogged, hknown] at h
    dsimp only at h
    rw [dif_pos hpath] at h
    cases h
    exact .of_eq rfl
  case case3 =>
    intro path f s hknown hpath hdef answer s' log h
    rw [exploreLogged, hknown] at h
    dsimp only at h
    rw [dif_neg hpath] at h
    split at h
    · cases h
      exact .of_eq rfl
    · next hdef' => rw [hdef] at hdef'; cases hdef'
  case case4 =>
    intro path f s hknown hpath routine hdef _ ih answer s' log h
    rw [exploreLogged, hknown] at h
    dsimp only at h
    rw [dif_neg hpath] at h
    split at h
    · next hdef' => rw [hdef] at hdef'; cases hdef'
    obtain ⟨⟨⟨ids, s₁⟩, own⟩, hsummary, h⟩ := Except.bind_eq_ok.1 h
    have hown := summaryLogged_classifies hsummary
    split at h
    · cases h
      exact hown.append (.of_eq rfl)
    · obtain ⟨⟨⟨found, s₂⟩, others⟩, hothers, h⟩ := Except.bind_eq_ok.1 h
      cases h
      have hrest := ih ids s₁ found s₂ others hothers
      exact hown.append ⟨hrest.nodup, hrest.fresh, hrest.known⟩
  case case5 =>
    intro path s answer s' log h
    rw [exploreAnyLogged] at h
    cases h
    exact .of_eq rfl
  case case6 =>
    intro path f fs s ih ihs answer s' log h
    rw [exploreAnyLogged] at h
    obtain ⟨⟨⟨found, s₁⟩, first⟩, hf, h⟩ := Except.bind_eq_ok.1 h
    have hfirst := ih found s₁ first hf
    cases found with
    | true =>
      cases h
      exact hfirst
    | false =>
      obtain ⟨⟨⟨result, s₂⟩, others⟩, hothers, h⟩ := Except.bind_eq_ok.1 h
      cases h
      exact hfirst.append (ihs s₁ _ _ _ hothers)

/-- A new thread changes nothing else. -/
theorem reserve_unchanged {entry : String} {site : Option EventRef} {fork : Option NodeId}
    {id : ThreadId} (h : s.reserve entry site fork = .ok (id, s')) :
    s'.arena = s.arena ∧ s'.summaries = s.summaries := by
  simp only [reserve] at h
  split at h
  · cases h
    exact ⟨rfl, rfl⟩
  · split at h
    · cases h
      exact ⟨rfl, rfl⟩
    · cases h

/-- A question makes the nodes of no routine twice. -/
theorem askLogged_classifies {q : Query} {reply : Reply} {log : List String}
    (h : s.askLogged c q = .ok ((reply, s'), log)) : s.Classifies log s' := by
  cases q with
  | nodes f =>
    obtain ⟨⟨⟨ids, s₁⟩, log⟩, hsummary, h⟩ := Except.bind_eq_ok.1 h
    cases h
    exact summaryLogged_classifies hsummary
  | effects f =>
    obtain ⟨⟨⟨answer, s₁⟩, log⟩, hexplore, h⟩ := Except.bind_eq_ok.1 h
    cases h
    exact (exploreLogged_classifies c).1 [] f s _ _ _ hexplore
  | targets callee =>
    cases h
    exact .of_eq rfl
  | companion fork =>
    obtain ⟨⟨join, arena⟩, -, h⟩ := Except.bind_eq_ok.1 h
    cases h
    exact .of_eq rfl
  | thread entry site fork =>
    obtain ⟨⟨id, s₁⟩, hreserve, h⟩ := Except.bind_eq_ok.1 h
    cases h
    exact .of_eq (reserve_unchanged hreserve).2

/-- Several questions make the nodes of no routine twice. -/
theorem askAllLogged_classifies {qs : List Query} {replies : List Reply} {log : List String}
    (h : askAllLogged c qs s = .ok ((replies, s'), log)) : s.Classifies log s' := by
  induction qs generalizing s replies log with
  | nil =>
    cases h
    exact .of_eq rfl
  | cons q qs ih =>
    obtain ⟨⟨⟨reply, s₁⟩, first⟩, hfirst, h⟩ := Except.bind_eq_ok.1 h
    obtain ⟨⟨⟨rest, s₂⟩, others⟩, hothers, h⟩ := Except.bind_eq_ok.1 h
    cases h
    exact (askLogged_classifies hfirst).append (ih hothers)

/-! ### What is answered -/

/-- A session in which the nodes of every routine that was looked at have their places, instruction
by instruction and with teams laid out. -/
structure Catalogued (c : Subject) (s : Session) : Prop where
  placed : Placed c s
  listed : Listed c s
  orderly : Orderly s

namespace Catalogued

/-- Nothing was looked at. -/
theorem empty (c : Subject) : Catalogued c .empty where
  placed := .empty c #[]
  listed := .empty c
  orderly := .empty #[]

/-- A session without more routines. -/
theorem of_extends (hs : Catalogued c s) (harena : s.arena.Extends s'.arena)
    (htidy : s'.arena.Tidy) (hsummaries : s'.summaries = s.summaries) :
    Catalogued c s' where
  placed := hs.placed.of_extends harena htidy hsummaries
  listed := hs.listed.mono harena hsummaries
  orderly := hs.orderly.mono harena hsummaries

/-- A session that learnt something. -/
theorem learns (hs : Catalogued c s) (hc : c.program.Distinct) (h : s.Learns c s') :
    Later c s s' ∧ Catalogued c s' :=
  ⟨h.later hc, (h.later hc).placed hs.placed, h.listed hc hs.placed hs.listed, h.orderly hs.orderly⟩

/-- A question adds to what is known. -/
theorem ask (hs : Catalogued c s) (hc : c.program.Distinct) {q : Query} {reply : Reply}
    (h : s.ask c q = .ok (reply, s')) : Later c s s' ∧ Catalogued c s' := by
  cases q with
  | nodes f =>
    obtain ⟨⟨ids, s₁⟩, hsummary, h⟩ := Except.bind_eq_ok.1 h
    cases h
    exact hs.learns hc (.summary hsummary)
  | effects f =>
    obtain ⟨⟨answer, s₁⟩, heffects, h⟩ := Except.bind_eq_ok.1 h
    cases h
    exact hs.learns hc (hasThreadEffects_learns heffects)
  | targets callee =>
    cases h
    exact ⟨.refl c s, hs⟩
  | companion fork =>
    obtain ⟨⟨join, arena⟩, hjoin, h⟩ := Except.bind_eq_ok.1 h
    cases h
    have hextends := (Arena.companionJoin_spec hjoin).1
    have hs' : Catalogued c { s with arena } :=
      hs.of_extends hextends (Arena.tidy_companionJoin hs.placed.tidy hjoin) rfl
    exact ⟨⟨hextends, .refl s, fun _ => hs'.placed⟩, hs'⟩
  | thread entry site fork =>
    obtain ⟨⟨id, s₁⟩, hreserve, h⟩ := Except.bind_eq_ok.1 h
    cases h
    obtain ⟨harena, hsummaries⟩ := reserve_unchanged hreserve
    exact ⟨.of_eq harena hsummaries, hs.of_extends (harena ▸ .refl _)
      (harena ▸ hs.placed.tidy) hsummaries⟩

/-- Only routines with a body have nodes. -/
theorem summaries_eq_none (hs : Catalogued c s) {f : String}
    (hdef : c.program.definition? f = none) : s.summaries[f]? = none := by
  cases hids : s.summaries[f]? with
  | none => rfl
  | some ids =>
    obtain ⟨r, own, hdef', -, -⟩ := hs.listed f ids hids
    cases hdef.symm.trans hdef'

end Catalogued

/-- A question for the nodes of a routine was answered with some positions. -/
def Told (qs : List Query) (replies : List Reply) (f : String) (ids : Option (List NodeId)) :
    Prop :=
  (Query.nodes f, Reply.nodes ids) ∈ qs.zip replies

/-- Questions add to what is known, and the nodes that were answered are those that are known in the
end. -/
theorem Catalogued.askAll (hs : Catalogued c s) (hc : c.program.Distinct) {qs : List Query}
    {replies : List Reply} (h : askAll c qs s = .ok (replies, s')) :
    Later c s s' ∧ Catalogued c s' ∧ ∀ f ids, Told qs replies f ids →
      s'.summaries[f]? = ids ∧ (ids = none ↔ c.program.definition? f = none) := by
  induction qs generalizing s replies with
  | nil =>
    cases h
    exact ⟨.refl c _, hs, fun f ids htold => nomatch htold⟩
  | cons q qs ih =>
    obtain ⟨⟨reply, s₁⟩, hask, h⟩ := Except.bind_eq_ok.1 h
    obtain ⟨⟨rest, s₂⟩, hrest, h⟩ := Except.bind_eq_ok.1 h
    cases h
    obtain ⟨hfirst, hs₁⟩ := hs.ask hc hask
    obtain ⟨hlater, hs', htold⟩ := ih hs₁ hrest
    refine ⟨hfirst.trans hlater, hs', fun f ids h => ?_⟩
    rcases List.mem_cons.1 h with heq | h
    · obtain ⟨rfl, rfl⟩ := Prod.mk.inj heq
      obtain ⟨⟨ids', s₃⟩, hsummary, hask⟩ := Except.bind_eq_ok.1 hask
      cases hask
      obtain ⟨hids, hnone⟩ := summary_known hsummary
      have hiff : ids = none ↔ c.program.definition? f = none :=
        ⟨hnone, fun hdef => hids.symm.trans (hs₁.summaries_eq_none hdef)⟩
      refine ⟨?_, hiff⟩
      cases ids with
      | none => exact hs'.summaries_eq_none (hnone rfl)
      | some ids => exact hlater.remembers f ids hids
    · exact htold f ids h

/-- Questions can be asked in two parts. -/
theorem askAll_append {qs qs' : List Query} {replies replies' : List Reply} {s₁ : Session}
    (h : askAll c qs s = .ok (replies, s₁)) (h' : askAll c qs' s₁ = .ok (replies', s')) :
    askAll c (qs ++ qs') s = .ok (replies ++ replies', s') := by
  induction qs generalizing s replies with
  | nil =>
    cases h
    exact h'
  | cons q qs ih =>
    obtain ⟨⟨reply, s₂⟩, hask, h⟩ := Except.bind_eq_ok.1 h
    obtain ⟨⟨rest, s₃⟩, hrest, h⟩ := Except.bind_eq_ok.1 h
    cases h
    exact Except.bind_eq_ok.2 ⟨_, hask, Except.bind_eq_ok.2 ⟨_, ih hrest, rfl⟩⟩

/-- Whatever a session is asked in whatever order, its arena only grows, and a position that is
given to a node stays with it.  No routine is classified twice, also not in a search for effects,
and a question for the nodes of a routine is always answered alike.  Different routines have no node
in common.  The nodes of a routine are those of its instructions in the order of its body, with the
nodes of each instruction together; a call for a team has the forks of the members and then, in the
same order, the companion joins that the arena has for them. -/
theorem answers_listed {name : String} {routines : List Routine}
    (hprogram : Program.ofRoutines name routines = .ok c.program) {before after : List Query}
    {replies replies' : List Reply} (hbefore : askAll c before .empty = .ok (replies, s))
    (hafter : askAll c after s = .ok (replies', s')) :
    s.arena.Extends s'.arena ∧
      (∃ log, askAllLogged c (before ++ after) .empty = .ok ((replies ++ replies', s'), log) ∧
        log.Nodup ∧ ∀ f ids, Told (before ++ after) (replies ++ replies') f (some ids) → f ∈ log) ∧
      (∀ f ids ids', Told (before ++ after) (replies ++ replies') f ids →
        Told (before ++ after) (replies ++ replies') f ids' → ids = ids') ∧
      (∀ f g ids ids', f ≠ g → Told (before ++ after) (replies ++ replies') f (some ids) →
        Told (before ++ after) (replies ++ replies') g (some ids') → ids.Disjoint ids') ∧
      ∀ f ids, Told (before ++ after) (replies ++ replies') f ids →
        (ids = none ↔ c.program.definition? f = none) ∧
          ∀ positions, ids = some positions → ∃ r, c.program.definition? f = some r ∧
            s'.arena.Lists c r.body positions := by
  have hc := Program.distinct_of_ofRoutines hprogram
  obtain ⟨-, hs, -⟩ := (Catalogued.empty c).askAll hc hbefore
  obtain ⟨hlater, hs', -⟩ := hs.askAll hc hafter
  have hall := askAll_append hbefore hafter
  obtain ⟨-, -, htold⟩ := (Catalogued.empty c).askAll hc hall
  refine ⟨hlater.arena, ?_, fun f ids ids' h h' => ?_, fun f g ids ids' hne h h' id hid hid' => ?_,
    fun f ids h => ⟨(htold f ids h).2, ?_⟩⟩
  · rw [← askAllLogged_fst] at hall
    obtain ⟨⟨-, log⟩, hlog, rfl⟩ := Except.map_eq_ok.1 hall
    have hclassifies := askAllLogged_classifies hlog
    refine ⟨log, hlog, hclassifies.nodup, fun f ids h => ?_⟩
    have hmem : f ∈ s'.summaries := by
      rw [Std.HashMap.mem_iff_isSome_getElem?, (htold f _ h).1]
      rfl
    exact ((hclassifies.known f).1 hmem).resolve_left Std.HashMap.not_mem_empty
  · exact (htold f ids h).1.symm.trans (htold f ids' h').1
  · exact hne (hs'.placed.apart f g ids ids' id (htold f _ h).1 (htold g _ h').1 hid hid')
  · rintro positions rfl
    exact hs'.listed.lists hc hs'.orderly (htold f _ h).1

end Session

namespace TeamTask

/-- The companion join of the first fork was made with the main routine. -/
theorem companionJoin_first : Arena.companionJoin ⟨mainNodes⟩ 0 = .ok (2, ⟨mainNodes⟩) := by
  rw [Arena.companionJoin, Arena.companion?_eq]
  rfl

/-- The body starts a task, for which it is classified. -/
theorem hasThreadEffects_body (ths : Array Thread) :
    Session.hasThreadEffects subject ⟨⟨mainNodes⟩, early, ∅, ths⟩ "body" =
      .ok (true, ⟨⟨bodyNodes⟩, middle, Std.HashMap.insert ∅ "body" true, ths⟩) := by
  rw [Session.hasThreadEffects, Session.explore_of_body Std.HashMap.getElem?_empty
    List.not_mem_nil definition?_eq.2.1]
  exact Except.bind_eq_ok.2 ⟨_, summary_body ths, Except.bind_eq_ok.2 ⟨_, rfl, rfl⟩⟩

/-- Both routines are known then. -/
theorem summary_known (effects : Std.HashMap String Bool) (ths : Array Thread) :
    Session.summary subject ⟨⟨bodyNodes⟩, middle, effects, ths⟩ "main" =
        .ok (some [0, 1, 2, 3], ⟨⟨bodyNodes⟩, middle, effects, ths⟩) ∧
      Session.summary subject ⟨⟨bodyNodes⟩, middle, effects, ths⟩ "body" =
        .ok (some [4, 5, 6, 7], ⟨⟨bodyNodes⟩, middle, effects, ths⟩) := by
  have hmain : middle["main"]? = some [0, 1, 2, 3] := by
    simp [middle, early, Std.HashMap.getElem_insert]
  have hbody : middle["body"]? = some [4, 5, 6, 7] := by simp [middle]
  exact ⟨by rw [Session.summary, hmain], by rw [Session.summary, hbody]⟩

end TeamTask

/-- A session is asked for the routine that starts a team, then for a companion join of the team and
the effects of its body, which classifies the body, and then for the nodes of both routines. -/
theorem Session.answers_teamTask :
    Program.ofRoutines "teamtask" [TeamTask.main, TeamTask.body, TeamTask.task] =
        .ok TeamTask.subject.program ∧
      ∃ s s', ∃ log : List String,
        askAll TeamTask.subject [.thread "main" none none, .nodes "main"] .empty =
          .ok ([.thread 0, .nodes (some [0, 1, 2, 3])], s) ∧
        askAll TeamTask.subject [.companion 0, .effects "body", .nodes "main", .nodes "body"] s =
          .ok ([.companion 2, .effects true, .nodes (some [0, 1, 2, 3]),
            .nodes (some [4, 5, 6, 7])], s') ∧
        s.arena.Extends s'.arena ∧ log.Nodup ∧ "main" ∈ log ∧ "body" ∈ log ∧
        List.Disjoint [0, 1, 2, 3] [4, 5, 6, 7] ∧ TeamTask.forkCall.CallsTeam .ompFork ∧
        Interface.openMp ∈ TeamTask.subject.chain ∧
        s'.arena.HoldsTeam TeamTask.subject TeamTask.forkCall .ompFork [0, 1, 2, 3] := by
  have hprogram : Program.ofRoutines "teamtask" [TeamTask.main, TeamTask.body, TeamTask.task] =
      .ok TeamTask.subject.program :=
    Program.ofRoutines_eq_ok_iff_nodup.2 ⟨by decide, by decide, rfl⟩
  have hbefore : askAll TeamTask.subject [.thread "main" none none, .nodes "main"] .empty =
      .ok ([.thread 0, .nodes (some [0, 1, 2, 3])],
        ⟨⟨TeamTask.mainNodes⟩, TeamTask.early, ∅, #[Thread.new 0 "main" none none]⟩) :=
    Except.bind_eq_ok.2 ⟨_, rfl, Except.bind_eq_ok.2 ⟨_, Except.bind_eq_ok.2
      ⟨_, Except.bind_eq_ok.2 ⟨_, TeamTask.summary_main, rfl⟩, rfl⟩, rfl⟩⟩
  have hafter : askAll TeamTask.subject
      [.companion 0, .effects "body", .nodes "main", .nodes "body"]
      ⟨⟨TeamTask.mainNodes⟩, TeamTask.early, ∅, #[Thread.new 0 "main" none none]⟩ =
        .ok ([.companion 2, .effects true, .nodes (some [0, 1, 2, 3]), .nodes (some [4, 5, 6, 7])],
          ⟨⟨TeamTask.bodyNodes⟩, TeamTask.middle, Std.HashMap.insert ∅ "body" true,
            #[Thread.new 0 "main" none none]⟩) := by
    obtain ⟨hmain, hbody⟩ := TeamTask.summary_known (Std.HashMap.insert ∅ "body" true)
      #[Thread.new 0 "main" none none]
    simp only [askAll, ask, TeamTask.companionJoin_first, TeamTask.hasThreadEffects_body, hmain,
      hbody, bind, Except.bind]
  obtain ⟨hextends, ⟨log, -, hnodup, hlog⟩, -, hdisjoint, hlists⟩ :=
    answers_listed hprogram hbefore hafter
  have hteam : TeamTask.forkCall.CallsTeam .ompFork := .region rfl
  have hknown : Interface.openMp ∈ TeamTask.subject.chain := List.mem_singleton.2 rfl
  obtain ⟨r, hdef, hr⟩ := (hlists "main" (some [0, 1, 2, 3]) (by simp [Told])).2 _ rfl
  cases TeamTask.definition?_eq.1.symm.trans hdef
  exact ⟨hprogram, _, _, log, hbefore, hafter, hextends, hnodup,
    hlog "main" [0, 1, 2, 3] (by simp [Told]), hlog "body" [4, 5, 6, 7] (by simp [Told]),
    hdisjoint "main" "body" _ _ (by decide) (by simp [Told]) (by simp [Told]), hteam, hknown,
    hr.team _ (List.mem_singleton.2 rfl) _ hteam hknown⟩

end DataRace
