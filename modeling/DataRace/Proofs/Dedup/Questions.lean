import DataRace.Proofs.Dedup.Effects

/-!
# Questions about effects

A session is asked for the nodes of routines and for their effects, in any order.  `Session.Asked`
keeps the answers about effects.  An answer "yes" is always right, and all answers are right as long
as none of the earlier ones was "yes" or recursion hides nothing (`Session.answers_of_asked`).

A search without success ends with a set of routines that is closed under calls
(`Session.Closes`), so none of them leads anywhere.  A search that succeeds stops at once, and what
it denied on the way it denied because the routines of its path were not known yet.  Such an answer
is kept (`Recursion.hidden`).
-/

namespace DataRace

open Relation

variable {c : Subject}

namespace Session

open Subject

variable {s s' : Session} {f : String} {path : List String}

/-- A session keeps the answer that a routine has no effects. -/
def Denies (s : Session) (f : String) : Prop := s.effects[f]? = some false

/-- Every answer that tells of effects is right. -/
def Sound (c : Subject) (s : Session) : Prop :=
  ∀ f, s.effects[f]? = some true → c.Leads concernsThreads f

/-- A session denied what another denies, and more routines, each of which has no effects by itself
and calls only routines that are denied or on a path. -/
structure Closes (c : Subject) (path : List String) (s s' : Session) : Prop where
  keeps : ∀ f, s.Denies f → s'.Denies f
  closed : ∀ f, s'.Denies f → s.Denies f ∨
    ¬ c.Has concernsThreads f ∧ ∀ g, c.Calls f g → g ∈ path ∨ s'.Denies g

/-- Nothing more is denied where the answers are the same. -/
theorem Closes.of_effects_eq (h : s'.effects = s.effects) (c : Subject) (path : List String) :
    Closes c path s s' := by
  have hiff : ∀ f, s'.Denies f ↔ s.Denies f := by
    intro f
    unfold Denies
    rw [h]
  exact ⟨fun f => (hiff f).2, fun f hf => Or.inl ((hiff f).1 hf)⟩

/-- One search after the other. -/
theorem Closes.trans {s₁ : Session} (h : Closes c path s s₁) (h' : Closes c path s₁ s') :
    Closes c path s s' where
  keeps f hf := h'.keeps f (h.keeps f hf)
  closed f hf := by
    rcases h'.closed f hf with hf | hclosed
    · exact (h.closed f hf).imp_right fun ⟨hown, hcalls⟩ =>
        ⟨hown, fun g hg => (hcalls g hg).imp_right (h'.keeps g)⟩
    · exact Or.inr hclosed

/-- A routine without effects of its own whose calls were all searched is denied. -/
theorem Closes.insert (h : Closes c (f :: path) s s') (hown : ¬ c.Has concernsThreads f)
    (hcalls : ∀ g, c.Calls f g → g ∈ f :: path ∨ s'.Denies g) :
    Closes c path s { s' with effects := s'.effects.insert f false } := by
  have hdenies : ∀ g, Denies { s' with effects := s'.effects.insert f false } g ↔
      f = g ∨ s'.Denies g := by
    intro g
    unfold Denies
    dsimp only
    rw [Std.HashMap.getElem?_insert]
    by_cases hfg : f = g <;> simp [hfg]
  -- On the path the routine stood itself.
  have hpath : ∀ g, g ∈ f :: path ∨ s'.Denies g →
      g ∈ path ∨ Denies { s' with effects := s'.effects.insert f false } g := by
    rintro g (hg | hg)
    · exact (List.mem_cons.1 hg).symm.imp_right fun hgf => (hdenies g).2 (Or.inl hgf.symm)
    · exact Or.inr ((hdenies g).2 (Or.inr hg))
  refine ⟨fun g hg => (hdenies g).2 (Or.inr (h.keeps g hg)), fun g hg => ?_⟩
  rcases (hdenies g).1 hg with rfl | hg
  · exact Or.inr ⟨hown, fun k hk => hpath k (hcalls k hk)⟩
  · exact (h.closed g hg).imp_right fun ⟨hown', hcalls'⟩ =>
      ⟨hown', fun k hk => hpath k (hcalls' k hk)⟩

/-- A search that ends off every path denies only what leads nowhere. -/
theorem Closes.not_leads (h : Closes c [] s s')
    (hdenied : ∀ g, s.Denies g → ¬ c.Leads concernsThreads g) (hf : s'.Denies f) :
    ¬ c.Leads concernsThreads f := by
  rintro ⟨g, hfg, hg⟩
  induction hfg using ReflTransGen.head_induction_on with
  | refl =>
    rcases h.closed g hf with hold | ⟨hown, -⟩
    · exact hdenied g hold hg.leads
    · exact hown hg
  | head hcall hrest ih =>
    rcases h.closed _ hf with hold | ⟨-, hcalls⟩
    · exact hdenied _ hold (hg.leads.of_reaches (.head hcall hrest))
    · exact ih ((hcalls _ hcall).resolve_left List.not_mem_nil)

/-- One more answer, right if it tells of effects. -/
theorem Sound.insert (h : Sound c s) {b : Bool} (hb : b = true → c.Leads concernsThreads f) :
    Sound c { s with effects := s.effects.insert f b } := by
  intro g hg
  dsimp only at hg
  rw [Std.HashMap.getElem?_insert] at hg
  split at hg
  · next heq =>
    rw [← beq_iff_eq.1 heq]
    exact hb (Option.some.inj hg)
  · exact h g hg

/-- Answers are all right if those that tell of effects are, and those that deny them. -/
theorem answers_iff : Answers c s ↔
    Sound c s ∧ ∀ f, s.Denies f → ¬ c.Leads concernsThreads f := by
  constructor
  · exact fun h => ⟨fun f hf => (h f true hf).1 rfl,
      fun f hf hleads => Bool.false_ne_true ((h f false hf).2 hleads)⟩
  · rintro ⟨hsound, hdenied⟩ f b hb
    cases b with
    | true => exact ⟨fun _ => hsound f hb, fun _ => rfl⟩
    | false => exact ⟨fun hfalse => absurd hfalse Bool.false_ne_true,
        fun hleads => absurd hleads (hdenied f hb)⟩

/-- Exploring finds effects only where there are some.  If it finds none, it has closed what it
denies. -/
def Searches (c : Subject) (path : List String) (f : String) (s : Session) : Prop :=
  ∀ answer s', explore c path f s = .ok (answer, s') → Placed c s → Sound c s →
    Sound c s' ∧ (answer = true → c.Leads concernsThreads f) ∧
      (answer = false → Closes c path s s' ∧ (f ∈ path ∨ s'.Denies f))

/-- So does exploring one routine after the other. -/
def SearchesAny (c : Subject) (path fs : List String) (s : Session) : Prop :=
  ∀ answer s', exploreAny c path fs s = .ok (answer, s') → Placed c s → Sound c s →
    Sound c s' ∧ (answer = true → ∃ f ∈ fs, c.Leads concernsThreads f) ∧
      (answer = false → Closes c path s s' ∧ ∀ f ∈ fs, f ∈ path ∨ s'.Denies f)

/-- A routine with a body: either one of its nodes concerns threads, or what it calls is
explored. -/
theorem Searches.of_body (hc : c.program.Distinct) {routine : Routine}
    (hknown : s.effects[f]? = none) (hpath : f ∉ path)
    (hdef : c.program.definition? f = some routine)
    (ih : ∀ (nodes : Option (List NodeId)) s',
      SearchesAny c (f :: path) (calledBy c (s'.nodesAt (nodes.getD []))) s') :
    Searches c path f s := by
  intro answer s' h hplaced hsound
  rw [explore_of_body hknown hpath hdef] at h
  obtain ⟨⟨ids, s₁⟩, hsummary, h⟩ := Except.bind_eq_ok.1 h
  dsimp only at h
  have hplaced₁ : Placed c s₁ := ((Learns.summary hsummary).later hc).placed hplaced
  have heffects := summary_effects hsummary
  have hsound₁ : Sound c s₁ := fun g hg => hsound g (heffects ▸ hg)
  obtain ⟨hown, hcalled⟩ := hplaced₁.has_and_calls hsummary hdef
  split at h
  · next hany =>
    cases h
    have hleads := (hown.1 hany).leads
    exact ⟨hsound₁.insert fun _ => hleads, fun _ => hleads,
      fun hfalse => absurd hfalse.symm Bool.false_ne_true⟩
  · next hany =>
    obtain ⟨⟨found, s₂⟩, hexplore, h⟩ := Except.bind_eq_ok.1 h
    cases h
    obtain ⟨hsound₂, htrue, hfalse⟩ := ih ids s₁ found s₂ hexplore hplaced₁ hsound₁
    have hyes : found = true → c.Leads concernsThreads f := by
      intro hfound
      obtain ⟨k, hk, hleads⟩ := htrue hfound
      exact hleads.of_calls ((hcalled k).1 hk)
    refine ⟨hsound₂.insert hyes, hyes, ?_⟩
    rintro rfl
    obtain ⟨hcloses, hall⟩ := hfalse rfl
    refine ⟨?_, Or.inr Std.HashMap.getElem?_insert_self⟩
    exact ((Closes.of_effects_eq heffects c _).trans hcloses).insert
      (fun hhas => hany (hown.2 hhas)) fun g hg => hall g ((hcalled g).2 hg)

/-- A routine, and the others if it has no effects. -/
theorem SearchesAny.cons (hc : c.program.Distinct) {fs : List String} (ih : Searches c path f s)
    (ihs : ∀ s', SearchesAny c path fs s') : SearchesAny c path (f :: fs) s := by
  intro answer s' h hplaced hsound
  rw [exploreAny] at h
  obtain ⟨⟨found, s₁⟩, hf, h⟩ := Except.bind_eq_ok.1 h
  obtain ⟨hsound₁, htrue, hfalse⟩ := ih found s₁ hf hplaced hsound
  cases found with
  | true =>
    cases h
    exact ⟨hsound₁, fun _ => ⟨f, List.mem_cons_self, htrue rfl⟩,
      fun hfalse => absurd hfalse.symm Bool.false_ne_true⟩
  | false =>
    have hplaced₁ : Placed c s₁ :=
      (((explore_learns c).1 path f s false s₁ hf).later hc).placed hplaced
    obtain ⟨hcloses, hdenied⟩ := hfalse rfl
    obtain ⟨hsound', hyes, hno⟩ := ihs s₁ answer s' h hplaced₁ hsound₁
    refine ⟨hsound', fun hanswer => ?_, fun hanswer => ?_⟩
    · obtain ⟨k, hk, hleads⟩ := hyes hanswer
      exact ⟨k, List.mem_cons_of_mem _ hk, hleads⟩
    · obtain ⟨hcloses', hall⟩ := hno hanswer
      refine ⟨hcloses.trans hcloses', fun k hk => ?_⟩
      rcases List.mem_cons.1 hk with rfl | hk
      · exact hdenied.imp_right (hcloses'.keeps k)
      · exact hall k hk

/-- All that is explored is searched. -/
theorem all_search (hc : c.program.Distinct) :
    (∀ path f s, Searches c path f s) ∧ ∀ path fs s, SearchesAny c path fs s := by
  apply explore.mutual_induct c (Searches c) (SearchesAny c)
  case case1 =>
    intro path f s known hknown answer s' h _ hsound
    rw [explore_of_known hknown] at h
    cases h
    refine ⟨hsound, ?_, ?_⟩
    · rintro rfl
      exact hsound f hknown
    · rintro rfl
      exact ⟨.of_effects_eq rfl c path, Or.inr hknown⟩
  case case2 =>
    intro path f s hknown hpath answer s' h _ hsound
    rw [explore_of_mem hknown hpath] at h
    cases h
    exact ⟨hsound, fun htrue => absurd htrue Bool.false_ne_true,
      fun _ => ⟨.of_effects_eq rfl c path, Or.inl hpath⟩⟩
  case case3 =>
    intro path f s hknown hpath hdef answer s' h _ hsound
    rw [explore_of_bodiless hknown hpath hdef] at h
    cases h
    refine ⟨hsound.insert fun htrue => absurd htrue Bool.false_ne_true,
      fun htrue => absurd htrue Bool.false_ne_true, fun _ => ⟨?_, ?_⟩⟩
    · refine (Closes.of_effects_eq rfl c _).insert (fun hown => not_leads hdef hown.leads) ?_
      intro g hg
      unfold Calls at hg
      rw [nodesOf_eq_nil hdef] at hg
      cases hg
    · exact Or.inr Std.HashMap.getElem?_insert_self
  case case4 => exact fun _ _ _ hknown hpath _ hdef _ ih => .of_body hc hknown hpath hdef ih
  case case5 =>
    intro path s answer s' h _ hsound
    rw [exploreAny] at h
    cases h
    exact ⟨hsound, fun htrue => absurd htrue Bool.false_ne_true,
      fun _ => ⟨.of_effects_eq rfl c path, fun f hf => absurd hf List.not_mem_nil⟩⟩
  case case6 => exact fun _ _ _ _ ih ihs => .cons hc ih ihs

/-! ### One question after the other -/

/-- A session that was asked for nodes and effects, with the answers about effects. -/
inductive Asked (c : Subject) : List (String × Bool) → Session → Prop
  /-- Nothing was asked. -/
  | nothing (threads : Array Thread) : Asked c [] { Session.empty with threads }
  /-- For the nodes of a routine. -/
  | summary {log : List (String × Bool)} {s s' : Session} {f : String}
      {nodes : Option (List NodeId)} (h : Asked c log s) (hs : s.summary c f = .ok (nodes, s')) :
      Asked c log s'
  /-- For the effects of a routine. -/
  | effects {log : List (String × Bool)} {s s' : Session} {f : String} {answer : Bool}
      (h : Asked c log s) (hs : s.hasThreadEffects c f = .ok (answer, s')) :
      Asked c (log ++ [(f, answer)]) s'

variable {log : List (String × Bool)}

/-- The nodes that a session was asked for have their places. -/
theorem Asked.placed (h : Asked c log s) (hc : c.program.Distinct) : Placed c s := by
  induction h with
  | nothing threads => exact .empty c threads
  | summary _ hs ih => exact ((Learns.summary hs).later hc).placed ih
  | effects _ hs ih => exact ((hasThreadEffects_learns hs).later hc).placed ih

/-- Where all answers are right, so is the next; they stay right if it denies effects. -/
theorem Answers.deny (h : Answers c s) (hc : c.program.Distinct) (hplaced : Placed c s)
    (hs : s.hasThreadEffects c f = .ok (false, s')) :
    Answers c s' ∧ ¬ c.Leads concernsThreads f := by
  obtain ⟨hsound, hdenied⟩ := answers_iff.1 h
  obtain ⟨hsound', -, hfalse⟩ := (all_search hc).1 [] f s false s' hs hplaced hsound
  obtain ⟨hcloses, hf⟩ := hfalse rfl
  have hdenied' := fun g => hcloses.not_leads (f := g) hdenied
  exact ⟨answers_iff.2 ⟨hsound', hdenied'⟩, hdenied' f (hf.resolve_left List.not_mem_nil)⟩

/-- The answers that tell of effects are right, whatever was asked. -/
theorem Asked.sound (h : Asked c log s) (hc : c.program.Distinct) : Sound c s := by
  induction h with
  | nothing threads => exact (answers_iff.1 (.nothing c threads)).1
  | summary _ hs ih => exact fun f hf => ih f (summary_effects hs ▸ hf)
  | effects h hs ih => exact ((all_search hc).1 _ _ _ _ _ hs (h.placed hc) ih).1

/-- All answers are right if none told of effects, or if recursion hides nothing. -/
theorem Asked.answers (h : Asked c log s) (hc : c.program.Distinct)
    (hlog : (∀ f, (f, true) ∉ log) ∨ c.Straight concernsThreads) : Answers c s := by
  induction h with
  | nothing threads => exact .nothing c threads
  | summary _ hs ih => exact (ih hlog).summary hs
  | @effects log s s' f answer h hs ih =>
    rcases hlog with hlog | hstraight
    · have hbefore := ih (Or.inl fun g hg => hlog g (List.mem_append_left _ hg))
      cases answer with
      | true => exact absurd (List.mem_append_right _ List.mem_cons_self) (hlog f)
      | false => exact (hbefore.deny hc (h.placed hc) hs).1
    · exact (hasThreadEffects_answers hc hstraight hs (h.placed hc) (ih (Or.inr hstraight))).1

/-- Whatever a session was asked before, it tells of effects only where a routine leads to a node
that concerns threads.  It tells of all of them as long as it told of none before, or if recursion
hides nothing. -/
theorem answers_of_asked (hc : c.program.Distinct) (h : Asked c log s) {answer : Bool}
    (hs : s.hasThreadEffects c f = .ok (answer, s')) :
    (answer = true → c.Leads concernsThreads f) ∧
      ((∀ g, (g, true) ∉ log) ∨ c.Straight concernsThreads →
        (answer = true ↔ c.Leads concernsThreads f)) := by
  obtain ⟨-, htrue, -⟩ := (all_search hc).1 [] f s answer s' hs (h.placed hc) (h.sound hc)
  refine ⟨htrue, fun hlog => ⟨htrue, fun hleads => ?_⟩⟩
  by_contra hanswer
  obtain rfl := Bool.eq_false_iff.2 hanswer
  exact ((h.answers hc hlog).deny hc (h.placed hc) hs).2 hleads

end Session

/-! ### A program with recursion

The first routine calls the second, which calls back, and then one that joins. -/

namespace Recursion

open Session

/-- Calls a recursive routine, then one that joins. -/
def first : Routine where
  name := "a"
  body := [⟨⟨0⟩, .call (.direct "b") [], none⟩, ⟨⟨1⟩, .call (.direct "c") [], none⟩]

/-- Calls back. -/
def second : Routine := ⟨"b", [⟨⟨2⟩, .call (.direct "a") [], none⟩]⟩

/-- Joins. -/
def third : Routine := ⟨"c", [⟨⟨3⟩, .call (.direct "pthread_join") [.null], none⟩]⟩

/-- The three routines. -/
def subject : Subject where
  program := .index "recursion" [first, second, third]
  pointsTo := ⟨#[], [], []⟩
  settings := Settings.default
  chain := [.pthread]

/-- The node of a plain call. -/
def call (id : Nat) (f : String) : Node := ⟨⟨⟨id⟩, none⟩, .call .plain (.direct f) []⟩

/-- The node of the join. -/
def join : Node := ⟨⟨⟨3⟩, none⟩, .join .pthreadJoin .null none⟩

/-- The routines are found, and no others. -/
theorem definition?_eq (f : String) : subject.program.definition? f =
    if f = "a" then some first else if f = "b" then some second
      else if f = "c" then some third else none := by
  simp only [subject, Program.definition?, Program.routine?, Program.index, List.foldl_cons,
    List.foldl_nil, Std.HashMap.getElem?_insert]
  by_cases ha : f = "a"
  · subst ha
    rfl
  · by_cases hb : f = "b"
    · subst hb
      rfl
    · by_cases hc : f = "c"
      · subst hc
        rfl
      · simp [first, second, third, ha, hb, hc, Ne.symm ha, Ne.symm hb, Ne.symm hc]

/-- What is known before anything is asked. -/
def start : Session := ⟨.empty, ∅, ∅, #[]⟩

/-- The nodes of the first routine are made at the first question. -/
def one : Session := ⟨⟨#[call 0 "b", call 1 "c"]⟩, Std.HashMap.insert ∅ "a" [0, 1], ∅, #[]⟩

/-- Those of the second are made behind them. -/
def two : Session :=
  ⟨⟨#[call 0 "b", call 1 "c", call 2 "a"]⟩, one.summaries.insert "b" [2], ∅, #[]⟩

/-- The second is denied. -/
def three : Session := { two with effects := Std.HashMap.insert ∅ "b" false }

/-- The nodes of the third are made last. -/
def four : Session :=
  ⟨⟨#[call 0 "b", call 1 "c", call 2 "a", join]⟩, two.summaries.insert "c" [3], three.effects, #[]⟩

/-- The third has effects, and so has the first. -/
def five : Session := { four with effects := (four.effects.insert "c" true).insert "a" true }

/-- The nodes of the first routine are its calls. -/
theorem summary_first : start.summary subject "a" = .ok (some [0, 1], one) := by
  rw [Session.summary, show start.summaries["a"]? = none from Std.HashMap.getElem?_empty,
    definition?_eq]
  rfl

/-- The nodes of the second are made while the first is explored. -/
theorem summary_second : one.summary subject "b" = .ok (some [2], two) := by
  rw [Session.summary, show one.summaries["b"]? = none by simp [one], definition?_eq]
  rfl

/-- The nodes of the third are made when the second was denied. -/
theorem summary_third : three.summary subject "c" = .ok (some [3], four) := by
  rw [Session.summary, show three.summaries["c"]? = none by simp [three, two, one],
    definition?_eq]
  rfl

/-- The first is on the path of the second, which is denied for good. -/
theorem explore_second : explore subject ["a"] "b" one = .ok (false, three) := by
  rw [explore_of_body (r := second) Std.HashMap.getElem?_empty (by decide) (definition?_eq "b")]
  refine Except.bind_eq_ok.2 ⟨_, summary_second, ?_⟩
  dsimp only
  rw [Option.getD_some, show two.nodesAt [2] = [call 2 "a"] from rfl, if_neg (by decide)]
  refine Except.bind_eq_ok.2 ⟨(false, two), ?_, rfl⟩
  rw [show calledBy subject [call 2 "a"] = ["a"] from rfl, exploreAny,
    explore_of_mem Std.HashMap.getElem?_empty (by decide)]
  refine Except.bind_eq_ok.2 ⟨(false, two), rfl, ?_⟩
  dsimp only
  rw [if_neg Bool.false_ne_true, exploreAny]

/-- The third joins by itself. -/
theorem explore_third : explore subject ["a"] "c" three =
    .ok (true, { four with effects := four.effects.insert "c" true }) := by
  rw [explore_of_body (r := third) (by simp [three, two, one]) (by decide) (definition?_eq "c")]
  refine Except.bind_eq_ok.2 ⟨_, summary_third, ?_⟩
  dsimp only
  rw [Option.getD_some, show four.nodesAt [3] = [join] from rfl, if_pos (by decide)]
  rfl

/-- The first leads to the join. -/
theorem first_effects : start.hasThreadEffects subject "a" = .ok (true, five) := by
  rw [hasThreadEffects, explore_of_body (r := first) Std.HashMap.getElem?_empty List.not_mem_nil
    (definition?_eq "a")]
  refine Except.bind_eq_ok.2 ⟨_, summary_first, ?_⟩
  dsimp only
  rw [Option.getD_some, show one.nodesAt [0, 1] = [call 0 "b", call 1 "c"] from rfl,
    if_neg (by decide), show calledBy subject [call 0 "b", call 1 "c"] = ["b", "c"] from rfl]
  refine Except.bind_eq_ok.2
    ⟨(true, { four with effects := four.effects.insert "c" true }), ?_, rfl⟩
  rw [exploreAny]
  refine Except.bind_eq_ok.2 ⟨_, explore_second, ?_⟩
  dsimp only
  rw [if_neg (by decide), exploreAny]
  exact Except.bind_eq_ok.2 ⟨_, explore_third, rfl⟩

/-- Asked before anything else, the answer about the first is right. -/
theorem first_answered : subject.program.Distinct ∧ Asked subject [] start ∧
    start.hasThreadEffects subject "a" = .ok (true, five) ∧
    (true = true ↔ subject.Leads concernsThreads "a") := by
  have hdistinct : subject.program.Distinct :=
    Program.distinct_of_ofRoutines
      (Program.ofRoutines_eq_ok_iff_nodup.2 ⟨by decide, by decide, rfl⟩)
  have hstart : Asked subject [] start := .nothing #[]
  exact ⟨hdistinct, hstart, first_effects,
    (answers_of_asked hdistinct hstart first_effects).2 (Or.inl fun _ => List.not_mem_nil)⟩

/-- The answer about the second is kept. -/
theorem second_denied : five.hasThreadEffects subject "b" = .ok (false, five) := by
  have hknown : five.effects["b"]? = some false := by
    simp only [five, four, three, Std.HashMap.getElem?_insert]
    decide
  exact explore_of_known hknown

/-- The nodes of the routines, made apart. -/
theorem nodesOf_eq (f : String) : subject.nodesOf f =
    if f = "a" then [call 0 "b", call 1 "c"] else if f = "b" then [call 2 "a"]
      else if f = "c" then [join] else [] := by
  unfold Subject.nodesOf
  rw [definition?_eq]
  split_ifs
  · rfl
  · rfl
  · rfl
  · rfl

/-- After the first routine was found to have effects, the second is denied, though it leads to the
same join. -/
theorem hidden : ∃ s s', Asked subject [("a", true)] s ∧
    s.hasThreadEffects subject "b" = .ok (false, s') ∧ subject.Leads concernsThreads "b" := by
  refine ⟨five, five, .effects (.nothing #[]) first_effects, second_denied, "c", ?_, ?_⟩
  · have hba : subject.Calls "b" "a" := by
      unfold Subject.Calls
      rw [nodesOf_eq]
      decide
    have hac : subject.Calls "a" "c" := by
      unfold Subject.Calls
      rw [nodesOf_eq]
      decide
    exact .head hba (.single hac)
  · unfold Subject.Has
    rw [nodesOf_eq]
    decide

end Recursion

end DataRace
