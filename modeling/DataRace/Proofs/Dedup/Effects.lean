import DataRace.Proofs.Trace.Placed
import Mathlib.Logic.Relation

/-!
# What routines lead to

`Subject.Calls` are the plain calls of a program.  A routine leads to the nodes of the routines that
it reaches by such calls (`Subject.Leads`).

Exploring cuts a routine that is being explored already and keeps the answers that it finds on the
way.  Such an answer is right if recursion hides nothing: every routine that leads to a node has one
itself or calls a routine that leads to one and is not explored on the way back (`Subject.Owns`).
Then all answers of a session are right (`Session.hasThreadEffects_answers`).
-/

namespace DataRace

open Relation

variable {c : Subject}

namespace Subject

/-- A routine has a plain call that may reach another. -/
def Calls (c : Subject) (f g : String) : Prop := g ∈ Session.calledBy c (c.nodesOf f)

/-- A routine has a node that passes a test. -/
def Has (c : Subject) (q : Node → Bool) (f : String) : Prop := ∃ n ∈ c.nodesOf f, q n = true

/-- A routine reaches one with a node that passes a test. -/
def Leads (c : Subject) (q : Node → Bool) (f : String) : Prop :=
  ∃ g, ReflTransGen c.Calls f g ∧ c.Has q g

/-- Exploring a routine goes on to another that it calls, for want of a node that passes a test. -/
def Seeks (c : Subject) (q : Node → Bool) (f g : String) : Prop := c.Calls f g ∧ ¬ c.Has q f

/-- A routine has a node that passes a test, or calls a routine that leads to one and from which
some steps do not lead back. -/
def Owns (c : Subject) (steps : String → String → Prop) (q : Node → Bool) (f : String) : Prop :=
  c.Has q f ∨ ∃ g, c.Calls f g ∧ ¬ ReflTransGen steps g f ∧ c.Leads q g

/-- No routine leads to a node that passes a test only through routines that are being explored
when it is. -/
def Straight (c : Subject) (q : Node → Bool) : Prop := ∀ f, c.Leads q f → c.Owns (c.Seeks q) q f

variable {q : Node → Bool} {f g : String}

/-- A routine leads to its own nodes. -/
theorem Has.leads (h : c.Has q f) : c.Leads q f := ⟨f, .refl, h⟩

/-- A routine leads to what those that it reaches lead to. -/
theorem Leads.of_reaches (h : c.Leads q g) (hfg : ReflTransGen c.Calls f g) : c.Leads q f := by
  obtain ⟨k, hk, hq⟩ := h
  exact ⟨k, hfg.trans hk, hq⟩

/-- A routine leads to what those that it calls lead to. -/
theorem Leads.of_calls (h : c.Leads q g) (hfg : c.Calls f g) : c.Leads q f :=
  h.of_reaches (.single hfg)

/-- Without recursion no calls lead back. -/
theorem Leads.owns_of_acyclic (h : c.Leads q f) (hacyclic : ∀ f, ¬ TransGen c.Calls f f) :
    c.Owns c.Calls q f := by
  obtain ⟨g, hfg, hg⟩ := h
  rcases hfg.cases_head with rfl | ⟨k, hfk, hkg⟩
  · exact Or.inl hg
  · exact Or.inr ⟨k, hfk, fun hback => hacyclic f (.head' hfk hback), g, hkg, hg⟩

/-- What calls do not lead back to, exploring does not either. -/
theorem Owns.seeks (h : c.Owns c.Calls q f) : c.Owns (c.Seeks q) q f := by
  rcases h with hhas | ⟨g, hfg, hback, hg⟩
  · exact Or.inl hhas
  · exact Or.inr ⟨g, hfg, fun hseeks => hback (.mono (fun _ _ hstep => hstep.1) _ _ hseeks), hg⟩

/-- A routine without a body has no nodes. -/
theorem nodesOf_eq_nil (h : c.program.definition? f = none) : c.nodesOf f = [] := by
  unfold nodesOf
  rw [h]

/-- A routine without a body leads nowhere. -/
theorem not_leads (h : c.program.definition? f = none) : ¬ c.Leads q f := by
  rintro ⟨g, hfg, n, hn, -⟩
  rcases hfg.cases_head with rfl | ⟨k, hfk, -⟩
  · rw [nodesOf_eq_nil h] at hn
    cases hn
  · unfold Calls at hfk
    rw [nodesOf_eq_nil h] at hfk
    cases hfk

/-- A routine that leads somewhere has a body. -/
theorem Leads.exists_definition (h : c.Leads q f) : ∃ r, c.program.definition? f = some r := by
  cases hdef : c.program.definition? f with
  | none => exact absurd h (not_leads hdef)
  | some r => exact ⟨r, rfl⟩

/-- What a plain call among the nodes of a routine may reach. -/
theorem calls_of_mem {n : Node} {callee : Callee} {args : List Operand} (hn : n ∈ c.nodesOf f)
    (heffect : n.effect = .call .plain callee args) (hg : g ∈ c.callTargets callee) :
    c.Calls f g := by
  unfold Calls Session.calledBy
  rw [List.mem_flatMap]
  refine ⟨n, hn, ?_⟩
  rw [heffect]
  exact hg

/-- A call of a routine is a plain call among its nodes. -/
theorem Calls.exists_node (h : c.Calls f g) :
    ∃ n callee args, n ∈ c.nodesOf f ∧ n.effect = .call .plain callee args ∧
      g ∈ c.callTargets callee := by
  unfold Calls Session.calledBy at h
  obtain ⟨n, hn, hg⟩ := List.mem_flatMap.1 h
  split at hg
  · next heffect => exact ⟨n, _, _, hn, heffect, hg⟩
  · cases hg

end Subject

namespace Session

open Subject

/-- Nodes that were moved concern threads as before. -/
theorem concernsThreads_shift (k : Nat) (n : Node) :
    concernsThreads (n.shift k) = concernsThreads n := by
  unfold Node.shift
  split
  · next heffect =>
    unfold concernsThreads
    rw [heffect]
  · rfl

/-- Nodes that were moved call the same routines. -/
theorem calledBy_shift (c : Subject) (k : Nat) (ns : List Node) :
    calledBy c (ns.map (Node.shift k)) = calledBy c ns := by
  unfold calledBy
  rw [List.flatMap_map]
  congr 1
  funext n
  obtain ⟨site, effect⟩ := n
  cases effect with
  | join api handle fork => cases fork <;> rfl
  | _ => rfl

variable {s s' : Session} {f : String}

/-- The nodes of a routine in a session. -/
theorem Placed.exists_nodesAt (h : Placed c s) {ids : List NodeId}
    (hids : s.summaries[f]? = some ids) :
    ∃ base, s.nodesAt ids = (c.nodesOf f).map (Node.shift base) := by
  obtain ⟨base, rfl, hnodes⟩ := h.stretch f ids hids
  refine ⟨base, ?_⟩
  unfold nodesAt
  have hall : ∀ (ns : List Node) (start : Nat),
      (∀ (k : Nat) (n : Node), ns[k]? = some n → s.arena.get? (start + k) = some (n.shift base)) →
      (List.range' start ns.length).filterMap s.arena.get? = ns.map (Node.shift base) := by
    intro ns
    induction ns with
    | nil => exact fun _ _ => rfl
    | cons n ns ih =>
      intro start hget
      have hn : s.arena.get? start = some (n.shift base) := hget 0 n rfl
      rw [List.length_cons, List.range'_succ, List.filterMap_cons, hn]
      refine congrArg _ (ih (start + 1) fun k m hm => ?_)
      rw [Nat.add_assoc, Nat.add_comm 1 k]
      exact hget (k + 1) m hm
  exact hall _ _ hnodes

/-- The nodes of a routine that was looked up tell what it has and what it calls. -/
theorem Placed.has_and_calls (h : Placed c s') {nodes : Option (List NodeId)}
    (hs : s.summary c f = .ok (nodes, s')) {r : Routine}
    (hdef : c.program.definition? f = some r) :
    ((s'.nodesAt (nodes.getD [])).any concernsThreads = true ↔ c.Has concernsThreads f) ∧
      ∀ g, g ∈ calledBy c (s'.nodesAt (nodes.getD [])) ↔ c.Calls f g := by
  obtain ⟨hids, hnone⟩ := summary_known hs
  cases nodes with
  | none =>
    rw [hnone rfl] at hdef
    cases hdef
  | some ids =>
    obtain ⟨base, hnodes⟩ := h.exists_nodesAt hids
    rw [Option.getD_some, hnodes]
    refine ⟨?_, fun g => ?_⟩
    · rw [List.any_map, List.any_eq_true]
      refine exists_congr fun n => and_congr_right fun _ => ?_
      rw [Function.comp_apply, concernsThreads_shift]
    · rw [calledBy_shift]
      rfl

/-- Every answer of a session is right. -/
def Answers (c : Subject) (s : Session) : Prop :=
  ∀ (f : String) (b : Bool), s.effects[f]? = some b → (b = true ↔ c.Leads concernsThreads f)

/-- One more answer that is right. -/
theorem Answers.insert (h : Answers c s) {b : Bool}
    (hb : b = true ↔ c.Leads concernsThreads f) :
    Answers c { s with effects := s.effects.insert f b } := by
  intro g b' hg
  rw [show ({ s with effects := s.effects.insert f b } : Session).effects =
    s.effects.insert f b from rfl, Std.HashMap.getElem?_insert] at hg
  split at hg
  · next heq =>
    cases hg
    rw [← beq_iff_eq.1 heq]
    exact hb
  · exact h g b' hg

/-- No session keeps answers before the first question. -/
theorem Answers.nothing (c : Subject) (threads : Array Thread) :
    Answers c { Session.empty with threads } := by
  intro f b hb
  rw [show ({ Session.empty with threads } : Session).effects[f]? = none from
    Std.HashMap.getElem?_empty] at hb
  cases hb

/-- Asking for nodes answers nothing else. -/
theorem summary_effects {nodes : Option (List NodeId)} (h : s.summary c f = .ok (nodes, s')) :
    s'.effects = s.effects := by
  obtain ⟨-, -, -, rfl⟩ | ⟨-, ⟨-, -, rfl⟩ | ⟨r, d, -, -, -, rfl⟩⟩ := summary_cases h <;> rfl

/-- Answers are still right when more nodes are known. -/
theorem Answers.summary (h : Answers c s) {nodes : Option (List NodeId)}
    (hs : s.summary c f = .ok (nodes, s')) : Answers c s' := by
  intro g b hg
  rw [summary_effects hs] at hg
  exact h g b hg

/-- Exploring finds what a routine leads to, unless it is being explored already. -/
def Finds (c : Subject) (path : List String) (f : String) (s : Session) : Prop :=
  ∀ answer s', explore c path f s = .ok (answer, s') → Placed c s → Answers c s →
    (∀ g ∈ path, ReflTransGen (c.Seeks concernsThreads) g f) →
      Answers c s' ∧ (answer = true → c.Leads concernsThreads f) ∧
        (answer = false → f ∈ path ∨ ¬ c.Leads concernsThreads f)

/-- So does exploring one routine after the other. -/
def FindsAny (c : Subject) (path fs : List String) (s : Session) : Prop :=
  ∀ answer s', exploreAny c path fs s = .ok (answer, s') → Placed c s → Answers c s →
    (∀ g ∈ path, ∀ f ∈ fs, ReflTransGen (c.Seeks concernsThreads) g f) →
      Answers c s' ∧ (answer = true → ∃ f ∈ fs, c.Leads concernsThreads f) ∧
        (answer = false → ∀ f ∈ fs, f ∈ path ∨ ¬ c.Leads concernsThreads f)

section Cases

/-! The cases of the induction.  Each takes what holds of the parts as hypotheses. -/

variable {path fs : List String}

/-- A routine with a body: either one of its nodes concerns threads, or what it calls is
explored. -/
theorem Finds.of_body (hc : c.program.Distinct) (hstraight : c.Straight concernsThreads)
    {routine : Routine} (hknown : s.effects[f]? = none) (hpath : f ∉ path)
    (hdef : c.program.definition? f = some routine)
    (ih : ∀ (nodes : Option (List NodeId)) s',
      FindsAny c (f :: path) (calledBy c (s'.nodesAt (nodes.getD []))) s') :
    Finds c path f s := by
  intro answer s' h hplaced hanswers hreach
  rw [explore_of_body hknown hpath hdef] at h
  obtain ⟨⟨ids, s₁⟩, hsummary, h⟩ := Except.bind_eq_ok.1 h
  dsimp only at h
  have hplaced₁ : Placed c s₁ := ((Learns.summary hsummary).later hc).placed hplaced
  have hanswers₁ := hanswers.summary hsummary
  obtain ⟨hown, hcalled⟩ := hplaced₁.has_and_calls hsummary hdef
  split at h
  · next hany =>
    cases h
    have hleads := (hown.1 hany).leads
    exact ⟨hanswers₁.insert ⟨fun _ => hleads, fun _ => rfl⟩, fun _ => hleads,
      fun hfalse => absurd hfalse.symm Bool.false_ne_true⟩
  · next hany =>
    obtain ⟨⟨found, s₂⟩, hexplore, h⟩ := Except.bind_eq_ok.1 h
    cases h
    obtain ⟨hanswers₂, htrue, hfalse⟩ := ih ids s₁ found s₂ hexplore hplaced₁ hanswers₁ (by
      intro g hg k hk
      have hfk : ReflTransGen (c.Seeks concernsThreads) f k  :=
        .single ⟨(hcalled k).1 hk, fun hhas => hany (hown.2 hhas)⟩
      rcases List.mem_cons.1 hg with rfl | hg
      · exact hfk
      · exact (hreach g hg).trans hfk)
    have hyes : found = true → c.Leads concernsThreads f := by
      intro hfound
      obtain ⟨k, hk, hleads⟩ := htrue hfound
      exact hleads.of_calls ((hcalled k).1 hk)
    -- The routines of the path are explored on the way to `f`.
    have hno : found = false → ¬ c.Leads concernsThreads f := by
      intro hfound hleads
      rcases hstraight f hleads with hhas | ⟨k, hfk, hback, hk⟩
      · exact hany (hown.2 hhas)
      · rcases hfalse hfound k ((hcalled k).2 hfk) with hopen | hnot
        · rcases List.mem_cons.1 hopen with rfl | hopen
          · exact hback .refl
          · exact hback (hreach k hopen)
        · exact hnot hk
    refine ⟨hanswers₂.insert ⟨hyes, fun hleads => ?_⟩, hyes, fun hfound => Or.inr (hno hfound)⟩
    by_contra hfound
    exact hno (Bool.eq_false_iff.2 hfound) hleads

/-- A routine, and the others if it has no effects. -/
theorem FindsAny.cons (hc : c.program.Distinct) (ih : Finds c path f s)
    (ihs : ∀ s', FindsAny c path fs s') : FindsAny c path (f :: fs) s := by
  intro answer s' h hplaced hanswers hreach
  rw [exploreAny] at h
  obtain ⟨⟨found, s₁⟩, hf, h⟩ := Except.bind_eq_ok.1 h
  obtain ⟨hanswers₁, htrue, hfalse⟩ :=
    ih found s₁ hf hplaced hanswers fun g hg => hreach g hg f List.mem_cons_self
  cases found with
  | true =>
    cases h
    exact ⟨hanswers₁, fun _ => ⟨f, List.mem_cons_self, htrue rfl⟩,
      fun hfalse => absurd hfalse.symm Bool.false_ne_true⟩
  | false =>
    have hplaced₁ : Placed c s₁ :=
      (((explore_learns c).1 path f s false s₁ hf).later hc).placed hplaced
    obtain ⟨hanswers', hyes, hno⟩ := ihs s₁ answer s' h hplaced₁ hanswers₁
      fun g hg k hk => hreach g hg k (List.mem_cons_of_mem _ hk)
    refine ⟨hanswers', fun hanswer => ?_, fun hanswer k hk => ?_⟩
    · obtain ⟨k, hk, hleads⟩ := hyes hanswer
      exact ⟨k, List.mem_cons_of_mem _ hk, hleads⟩
    · rcases List.mem_cons.1 hk with rfl | hk
      · exact hfalse rfl
      · exact hno hanswer k hk

end Cases

/-- All that is explored is found, unless it is being explored already. -/
theorem all_find (hc : c.program.Distinct) (hstraight : c.Straight concernsThreads) :
    (∀ path f s, Finds c path f s) ∧ ∀ path fs s, FindsAny c path fs s := by
  apply explore.mutual_induct c (Finds c) (FindsAny c)
  case case1 =>
    intro path f s known hknown answer s' h _ hanswers _
    rw [explore_of_known hknown] at h
    cases h
    have hright := hanswers f known hknown
    refine ⟨hanswers, hright.1, fun hfalse => Or.inr fun hleads => ?_⟩
    rw [hright.2 hleads] at hfalse
    cases hfalse
  case case2 =>
    intro path f s hknown hpath answer s' h _ hanswers _
    rw [explore_of_mem hknown hpath] at h
    cases h
    exact ⟨hanswers, fun htrue => absurd htrue Bool.false_ne_true, fun _ => Or.inl hpath⟩
  case case3 =>
    intro path f s hknown hpath hdef answer s' h _ hanswers _
    rw [explore_of_bodiless hknown hpath hdef] at h
    cases h
    have hnot : ¬ c.Leads concernsThreads f := not_leads hdef
    have hfalse : false = true → c.Leads concernsThreads f :=
      fun htrue => absurd htrue Bool.false_ne_true
    exact ⟨hanswers.insert ⟨hfalse, fun hleads => absurd hleads hnot⟩, hfalse,
      fun _ => Or.inr hnot⟩
  case case4 =>
    exact fun _ _ _ hknown hpath _ hdef _ ih => .of_body hc hstraight hknown hpath hdef ih
  case case5 =>
    intro path s answer s' h _ hanswers _
    rw [exploreAny] at h
    cases h
    exact ⟨hanswers, fun htrue => absurd htrue Bool.false_ne_true,
      fun _ f hf => absurd hf List.not_mem_nil⟩
  case case6 => exact fun _ _ _ _ ih ihs => .cons hc ih ihs

/-- If recursion hides no effects, the answer about a routine is right, and so are all that are
kept. -/
theorem hasThreadEffects_answers (hc : c.program.Distinct)
    (hstraight : c.Straight concernsThreads) {answer : Bool}
    (h : s.hasThreadEffects c f = .ok (answer, s')) (hplaced : Placed c s)
    (hanswers : Answers c s) :
    Answers c s' ∧ (answer = true ↔ c.Leads concernsThreads f) := by
  obtain ⟨hanswers', htrue, hfalse⟩ := (all_find hc hstraight).1 [] f s answer s' h hplaced hanswers
    fun g hg => nomatch hg
  refine ⟨hanswers', htrue, fun hleads => ?_⟩
  by_contra hne
  rcases hfalse (Bool.eq_false_iff.2 hne) with hpath | hnot
  · cases hpath
  · exact hnot hleads

end Session

end DataRace
