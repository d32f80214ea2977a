import DataRace.Proofs.Except
import DataRace.Trace.Session

/-!
# Sessions only learn

`Session.Learns` says what a session does when it is asked something (`hasThreadEffects_learns`): it
makes the nodes of routines and notes which routines have effects.  The nodes that it has stay where
they are and its threads stay as they are (`Learns.extends`).  `Arena.companionJoin_spec` says what
a companion join is.
-/

namespace DataRace

/-! ### Arenas -/

namespace Arena

/-- Every node of an arena has the same position in another. -/
def Extends (a b : Arena) : Prop := ∀ id n, a.get? id = some n → b.get? id = some n

namespace Extends

/-- An arena extends itself. -/
protected theorem refl (a : Arena) : a.Extends a := fun _ _ h => h

/-- Extensions compose. -/
protected theorem trans {a b d : Arena} (h : a.Extends b) (h' : b.Extends d) : a.Extends d :=
  fun id n hn => h' id n (h id n hn)

end Extends

/-- A node that is added comes behind the nodes that are there. -/
theorem push_extends (a : Arena) (n : Node) : a.Extends (a.push n).2 := by
  intro id m h
  obtain ⟨hlt, rfl⟩ := Array.getElem?_eq_some_iff.1 h
  rw [push, get?, Array.getElem?_push_lt hlt]

/-- A node that is added has the position that is answered. -/
theorem get?_push (a : Arena) (n : Node) : (a.push n).2.get? (a.push n).1 = some n := by
  rw [push, get?, Array.getElem?_push_size]

/-- A position that has to exist answers its node. -/
theorem get_eq_ok {a : Arena} {id : NodeId} {n : Node} :
    a.get id = .ok n ↔ a.get? id = some n := by
  rw [get]
  cases a.get? id <;> simp

end Arena

/-- A node that names the fork it is the companion of is a join. -/
theorem Node.category_eq_join {n : Node} {fork : NodeId} (h : n.companionOf? = some fork) :
    n.category = .join := by
  rw [companionOf?] at h
  split at h
  · next heffect => rw [category, heffect]
  · cases h

namespace Arena

/-- Companion joins are searched from the first node on. -/
theorem companion?_eq (a : Arena) (fork : NodeId) :
    a.companion? fork = a.nodes.toList.findIdx? fun n => n.companionOf? = some fork := by
  obtain ⟨⟨l⟩⟩ := a
  simp [companion?]

/-- A companion join that was found is the first node that names the fork. -/
theorem companion?_eq_some_iff {a : Arena} {fork id : NodeId} :
    a.companion? fork = some id ↔ (∃ n, a.get? id = some n ∧ n.companionOf? = some fork) ∧
      ∀ j < id, ∀ n, a.get? j = some n → n.companionOf? ≠ some fork := by
  rw [companion?, Array.findIdx?_eq_some_iff_getElem]
  constructor
  · rintro ⟨hlt, hfork, hfirst⟩
    refine ⟨⟨a.nodes[id], Array.getElem?_eq_getElem hlt, by simpa using hfork⟩, fun j hj n hn => ?_⟩
    obtain ⟨-, rfl⟩ := Array.getElem?_eq_some_iff.1 hn
    simpa using hfirst j hj
  · rintro ⟨⟨n, hn, hfork⟩, hfirst⟩
    obtain ⟨hlt, rfl⟩ := Array.getElem?_eq_some_iff.1 hn
    refine ⟨hlt, by simpa using hfork, fun j hj => ?_⟩
    simpa using hfirst j hj _ (Array.getElem?_eq_getElem (Nat.lt_trans hj hlt))

/-- A companion join that was found is a join that names the fork. -/
theorem companion?_spec {a : Arena} {fork id : NodeId} (h : a.companion? fork = some id) :
    ∃ n, a.get? id = some n ∧ n.companionOf? = some fork :=
  (companion?_eq_some_iff.1 h).1

/-- A companion join is a join that names its fork, in an arena that extends the one before. -/
theorem companionJoin_spec {a b : Arena} {fork id : NodeId}
    (h : a.companionJoin fork = .ok (id, b)) :
    a.Extends b ∧ ∃ n, b.get? id = some n ∧ n.companionOf? = some fork := by
  rw [companionJoin] at h
  split at h
  · next found hfound =>
    cases h
    exact ⟨.refl a, companion?_spec hfound⟩
  · obtain ⟨n, -, h⟩ := Except.bind_eq_ok.1 h
    split at h
    · next api handle entry heffect =>
      have h' := Except.ok.inj h
      have hid : id = (a.push ⟨n.site, .join .companion handle (some fork)⟩).1 := by rw [h']
      have hb : b = (a.push ⟨n.site, .join .companion handle (some fork)⟩).2 := by rw [h']
      rw [hid, hb]
      exact ⟨push_extends a _, _, get?_push a _, rfl⟩
    · cases h

/-- A companion join stays the companion join of its fork. -/
theorem Extends.companion? {a b : Arena} {fork id : NodeId} (hab : a.Extends b)
    (h : a.companion? fork = some id) : b.companion? fork = some id := by
  obtain ⟨⟨n, hn, hfork⟩, hfirst⟩ := companion?_eq_some_iff.1 h
  refine companion?_eq_some_iff.2 ⟨⟨n, hab id n hn, hfork⟩, fun j hj m hm => ?_⟩
  have hlt : j < a.nodes.size := Nat.lt_trans hj (Array.getElem?_eq_some_iff.1 hn).1
  have hold : a.get? j = some a.nodes[j] := Array.getElem?_eq_getElem hlt
  obtain rfl : a.nodes[j] = m := Option.some.inj ((hab j _ hold).symm.trans hm)
  exact hfirst j hj _ hold

/-- A companion join that is asked for is the one that is found from then on. -/
theorem companion?_companionJoin {a b : Arena} {fork id : NodeId}
    (h : a.companionJoin fork = .ok (id, b)) : b.companion? fork = some id := by
  have hspec := (companionJoin_spec h).2
  rw [companionJoin] at h
  split at h
  · next hfound =>
    cases h
    exact hfound
  · next hnone =>
    obtain ⟨n, -, h⟩ := Except.bind_eq_ok.1 h
    split at h
    · next api handle entry _ =>
      have hpush := Except.ok.inj h
      refine companion?_eq_some_iff.2 ⟨hspec, fun j hj m hm hfork => ?_⟩
      -- Every node before the new one was searched in vain.
      have hid : a.nodes.size = id := congrArg Prod.fst hpush
      have hlt : j < a.nodes.size := hid.symm ▸ hj
      have hold : a.get? j = some a.nodes[j] := Array.getElem?_eq_getElem hlt
      have hsame := push_extends a ⟨n.site, .join .companion handle (some fork)⟩ j _ hold
      rw [hpush, hm] at hsame
      cases hsame
      rw [companion?, Array.findIdx?_eq_none_iff] at hnone
      exact of_decide_eq_false (hnone _ (Array.getElem_mem hlt)) hfork
    · cases h

end Arena

/-! ### Drafts -/

namespace Draft

/-- Adding a node extends the arena. -/
theorem emit_extends (d : Draft) (n : Node) : d.arena.Extends (d.emit n).arena :=
  d.arena.push_extends n

/-- Adding nodes extends the arena. -/
theorem emitAll_extends (d : Draft) (ns : List Node) : d.arena.Extends (d.emitAll ns).arena := by
  induction ns generalizing d with
  | nil => exact .refl _
  | cons n ns ih => exact (emit_extends d n).trans (ih (d.emit n))

/-- Adding a companion join extends the arena. -/
theorem emitCompanion_extends {d e : Draft} {fork : NodeId} (h : d.emitCompanion fork = .ok e) :
    d.arena.Extends e.arena := by
  obtain ⟨⟨id, arena⟩, hjoin, h⟩ := Except.bind_eq_ok.1 h
  cases h
  exact (Arena.companionJoin_spec hjoin).1

/-- Steps that each extend the arena extend it together. -/
theorem foldlM_extends {α : Type} {f : Draft → α → Except Fault Draft}
    (hf : ∀ d a e, f d a = .ok e → d.arena.Extends e.arena) {l : List α} {d e : Draft}
    (h : l.foldlM f d = .ok e) : d.arena.Extends e.arena := by
  induction l generalizing d with
  | nil =>
    cases h
    exact .refl _
  | cons a l ih =>
    rw [List.foldlM_cons] at h
    obtain ⟨d', hd, h⟩ := Except.bind_eq_ok.1 h
    exact (hf d a d' hd).trans (ih h)

/-- Adding a team extends the arena. -/
theorem emitTeam_extends {d e : Draft} {forks : List Node} (h : d.emitTeam forks = .ok e) :
    d.arena.Extends e.arena :=
  (emitAll_extends d forks).trans (foldlM_extends (fun _ _ _ => emitCompanion_extends) h)

end Draft

/-- The nodes of a known call are added to the arena. -/
theorem Meaning.emit_extends {p : Program} {s : Settings} {i : Instruction} {d e : Draft}
    {m : Meaning} (h : m.emit p s i d = .ok e) : d.arena.Extends e.arena := by
  -- Most meanings add one node if it can be made.
  have hone : ∀ {x : Except Fault Node}, d.emit <$> x = .ok e → d.arena.Extends e.arena := by
    intro x hx
    obtain ⟨n, -, rfl⟩ := Except.map_eq_ok.1 hx
    exact d.emit_extends n
  cases m with
  | nothing =>
    cases h
    exact .refl _
  | copy =>
    obtain ⟨target, -, h⟩ := Except.bind_eq_ok.1 h
    obtain ⟨source, -, h⟩ := Except.bind_eq_ok.1 h
    cases h
    exact d.emitAll_extends _
  | team api =>
    obtain ⟨forks, -, h⟩ := Except.bind_eq_ok.1 h
    exact Draft.emitTeam_extends h
  | task =>
    obtain ⟨entry, -, h⟩ := Except.bind_eq_ok.1 h
    exact hone h
  | launch =>
    obtain ⟨forks, -, h⟩ := Except.bind_eq_ok.1 h
    cases h
    exact d.emitAll_extends _
  | free | fill | fork | join | lock | unlock | barrier | construct => exact hone h

namespace Draft

/-- The nodes of an instruction are added to the arena. -/
theorem classify_extends {p : Program} {s : Settings} {chain : Chain} {d e : Draft}
    {i : Instruction} (h : classify p s chain d i = .ok e) : d.arena.Extends e.arena := by
  have hone : ∀ {x : Except Fault Node}, d.emit <$> x = .ok e → d.arena.Extends e.arena := by
    intro x hx
    obtain ⟨n, -, rfl⟩ := Except.map_eq_ok.1 hx
    exact d.emit_extends n
  rw [classify] at h
  split at h
  · exact hone h
  · exact hone h
  · split at h
    · exact Meaning.emit_extends h
    · exact hone h
  · cases h
    exact .refl _

end Draft

/-! ### Sessions -/

namespace Session

/-- A session that may have looked more up: the nodes that were there and the threads are the
same. -/
structure Extends (s s' : Session) : Prop where
  arena : s.arena.Extends s'.arena
  threads : s'.threads = s.threads

namespace Extends

/-- A session extends itself. -/
protected theorem refl (s : Session) : s.Extends s := ⟨.refl _, rfl⟩

/-- Extensions compose. -/
protected theorem trans {s s' s'' : Session} (h : s.Extends s') (h' : s'.Extends s'') :
    s.Extends s'' := ⟨h.arena.trans h'.arena, h'.threads.trans h.threads⟩

end Extends

/-- What a session can learn: the nodes of a routine, and whether a routine has effects. -/
inductive Learns (c : Subject) : Session → Session → Prop
  /-- Nothing. -/
  | refl (s : Session) : Learns c s s
  /-- One thing after the other. -/
  | trans {s s' s'' : Session} (h : Learns c s s') (h' : Learns c s' s'') : Learns c s s''
  /-- The nodes of a routine. -/
  | summary {s s' : Session} {f : String} {nodes : Option (List NodeId)}
      (h : s.summary c f = .ok (nodes, s')) : Learns c s s'
  /-- Whether a routine has effects. -/
  | answer (s : Session) (f : String) (known : Bool) :
      Learns c s { s with effects := s.effects.insert f known }

/-- Asking for the nodes of a routine answers those that are known, nothing for a routine without a
body, or makes them. -/
theorem summary_cases {c : Subject} {s s' : Session} {f : String} {nodes : Option (List NodeId)}
    (h : s.summary c f = .ok (nodes, s')) :
    (∃ ids, s.summaries[f]? = some ids ∧ nodes = some ids ∧ s' = s) ∨
      s.summaries[f]? = none ∧
        (c.program.definition? f = none ∧ nodes = none ∧ s' = s ∨
          ∃ r d, c.program.definition? f = some r ∧
            Draft.classifyAll c.program c.settings c.chain ⟨s.arena, []⟩ r.body = .ok d ∧
            nodes = some d.nodes ∧
            s' = { s with arena := d.arena, summaries := s.summaries.insert f d.nodes }) := by
  rw [summary] at h
  split at h
  · next ids hids =>
    cases h
    exact Or.inl ⟨ids, hids, rfl, rfl⟩
  · next hnone =>
    refine Or.inr ⟨hnone, ?_⟩
    split at h
    · next hdef =>
      cases h
      exact Or.inl ⟨hdef, rfl, rfl⟩
    · next r hdef =>
      obtain ⟨d, hd, h⟩ := Except.bind_eq_ok.1 h
      cases h
      exact Or.inr ⟨r, d, hdef, hd, rfl, rfl⟩

/-- Learning extends the session. -/
theorem Learns.extends {c : Subject} {s s' : Session} (h : Learns c s s') : s.Extends s' := by
  induction h with
  | refl s => exact .refl s
  | trans _ _ ih ih' => exact ih.trans ih'
  | summary h =>
    obtain ⟨-, -, -, rfl⟩ | ⟨-, ⟨-, -, rfl⟩ | ⟨r, d, -, hd, -, rfl⟩⟩ := summary_cases h
    · exact .refl _
    · exact .refl _
    · exact ⟨Draft.foldlM_extends (fun _ _ _ => Draft.classify_extends) hd, rfl⟩
  | answer => exact ⟨.refl _, rfl⟩

section Exploring

/-! The search for effects, case by case. -/

variable {c : Subject} {s : Session} {path : List String} {f : String}

/-- An answer that is known is given again. -/
theorem explore_of_known {known : Bool} (hknown : s.effects[f]? = some known) :
    explore c path f s = .ok (known, s) := by
  rw [explore, hknown]

/-- A routine that is being explored counts as harmless. -/
theorem explore_of_mem (hknown : s.effects[f]? = none) (hpath : f ∈ path) :
    explore c path f s = .ok (false, s) := by
  rw [explore, hknown]
  dsimp only
  rw [dif_pos hpath]

/-- A routine without a body has no effects. -/
theorem explore_of_bodiless (hknown : s.effects[f]? = none) (hpath : f ∉ path)
    (hdef : c.program.definition? f = none) :
    explore c path f s = .ok (false, { s with effects := s.effects.insert f false }) := by
  rw [explore, hknown]
  dsimp only
  rw [dif_neg hpath]
  split
  · rfl
  · next hdef' => rw [hdef] at hdef'; cases hdef'

/-- A routine with a body has its own effects or those of the routines it calls. -/
theorem explore_of_body {r : Routine} (hknown : s.effects[f]? = none) (hpath : f ∉ path)
    (hdef : c.program.definition? f = some r) :
    explore c path f s = (do
      let (ids, s) ← s.summary c f
      let nodes := s.nodesAt (ids.getD [])
      let (answer, s) ←
        if nodes.any concernsThreads then .ok (true, s)
        else exploreAny c (f :: path) (calledBy c nodes) s
      .ok (answer, { s with effects := s.effects.insert f answer })) := by
  rw [explore, hknown]
  dsimp only
  rw [dif_neg hpath]
  split
  · next hdef' => rw [hdef] at hdef'; cases hdef'
  · rfl

end Exploring

/-- Exploring routines is learning. -/
theorem explore_learns (c : Subject) :
    (∀ path f s answer s', explore c path f s = .ok (answer, s') → s.Learns c s') ∧
      ∀ path fs s answer s', exploreAny c path fs s = .ok (answer, s') → s.Learns c s' := by
  apply explore.mutual_induct c
    (fun path f s => ∀ answer s', explore c path f s = .ok (answer, s') → s.Learns c s')
    (fun path fs s => ∀ answer s', exploreAny c path fs s = .ok (answer, s') → s.Learns c s')
  case case1 =>
    intro path f s known hknown answer s' h
    rw [explore_of_known hknown] at h
    cases h
    exact .refl s
  case case2 =>
    intro path f s hknown hpath answer s' h
    rw [explore_of_mem hknown hpath] at h
    cases h
    exact .refl s
  case case3 =>
    intro path f s hknown hpath hdef answer s' h
    rw [explore_of_bodiless hknown hpath hdef] at h
    cases h
    exact .answer s f false
  case case4 =>
    intro path f s hknown hpath routine hdef _ ih answer s' h
    rw [explore_of_body hknown hpath hdef] at h
    obtain ⟨⟨ids, s₁⟩, hsummary, h⟩ := Except.bind_eq_ok.1 h
    dsimp only at h
    have h₁ : s.Learns c s₁ := .summary hsummary
    split at h
    · cases h
      exact h₁.trans (.answer s₁ f true)
    · obtain ⟨⟨found, s₂⟩, hany, h⟩ := Except.bind_eq_ok.1 h
      cases h
      exact (h₁.trans (ih ids s₁ found s₂ hany)).trans (.answer s₂ f found)
  case case5 =>
    intro path s answer s' h
    rw [exploreAny] at h
    cases h
    exact .refl s
  case case6 =>
    intro path f fs s ih ihs answer s' h
    rw [exploreAny] at h
    obtain ⟨⟨found, s₁⟩, hf, h⟩ := Except.bind_eq_ok.1 h
    have h₁ : s.Learns c s₁ := ih found s₁ hf
    cases found with
    | true =>
      cases h
      exact h₁
    | false => exact h₁.trans (ihs s₁ answer s' h)

/-- Asking for the effects of a routine is learning. -/
theorem hasThreadEffects_learns {c : Subject} {s s' : Session} {f : String} {answer : Bool}
    (h : s.hasThreadEffects c f = .ok (answer, s')) : s.Learns c s' :=
  (explore_learns c).1 [] f s answer s' h

end Session

end DataRace
