import DataRace.Proofs.Dedup.Simulation
import DataRace.Proofs.Thin.Races

/-!
# Deduplication loses no race

If recursion hides nothing (`Subject.Frank`), a program that is traced with deduplicated calls has
the trace that it has with all calls expanded, thinned (`Trace.build_thinned`).  So both ways the
same pairs of instructions race (`analyze_dedup`).  Every program without recursion is of this kind
(`Subject.frank_of_acyclic`), for one the program of `Twice`, whose second call is passed over.
-/

namespace DataRace

open Session Relation

variable {c : Subject}

/-- Without recursion nothing is hidden. -/
theorem Subject.frank_of_acyclic (h : ∀ f, ¬ TransGen c.Calls f f) : c.Frank :=
  ⟨fun _ hleads => (hleads.owns_of_acyclic h).seeks, fun _ _ hleads => hleads.owns_of_acyclic h⟩

/-- Sessions that agree make a trace and a thinned one. -/
theorem Session.Paired.exists_thinned {s t : Session} (h : Session.Paired c s t)
    (hc : c.program.Distinct) :
    ∃ ms, Trace.Thinned ⟨s.threads, s.arena, c.program, c.pointsTo⟩
      ⟨t.threads, t.arena, c.program, c.pointsTo⟩ ms := by
  have hcases : ∀ i : ThreadId, s.threads[i]? = none ∧ t.threads[i]? = none ∨
      ∃ a b, s.threads[i]? = some a ∧ t.threads[i]? = some b ∧ Thread.Paired s t a b := by
    intro i
    rcases Nat.lt_or_ge i s.threads.size with hlt | hge
    · have ha := Array.getElem?_eq_getElem hlt
      have hb := Array.getElem?_eq_getElem (h.size_eq ▸ hlt)
      exact Or.inr ⟨_, _, ha, hb, h.threads i _ _ ha hb⟩
    · exact Or.inl ⟨Array.getElem?_eq_none hge, Array.getElem?_eq_none (h.size_eq ▸ hge)⟩
  have hmask : ∀ i : ThreadId, ∃ mask, Thins s.arena t.arena mask
      (Trace.eventsOf ⟨s.threads, s.arena, c.program, c.pointsTo⟩ i).toList
      (Trace.eventsOf ⟨t.threads, t.arena, c.program, c.pointsTo⟩ i).toList := by
    intro i
    unfold Trace.eventsOf
    dsimp only
    rcases hcases i with ⟨ha, hb⟩ | ⟨a, b, ha, hb, hab⟩
    · rw [ha, hb]
      exact ⟨[], .nil _ _⟩
    · rw [ha, hb]
      exact hab.thins
  choose ms hms using hmask
  refine ⟨ms, h.size_eq, rfl, fun i => ?_, hms⟩
  unfold Trace.spawnApi?
  dsimp only
  rcases hcases i with ⟨ha, hb⟩ | ⟨a, b, ha, hb, hab⟩
  · rw [ha, hb]
    rfl
  · rw [ha, hb]
    have hfork := hab.fork
    show (a.fork >>= fun id => s.arena.get? id >>= Node.forkApi?) =
      (b.fork >>= fun id => t.arena.get? id >>= Node.forkApi?)
    generalize a.fork = o, b.fork = o' at hfork ⊢
    cases hfork with
    | none => rfl
    | some hij =>
      obtain ⟨n, n', hn, hn', htwin⟩ := hij.twin hc h.left h.right
      show (s.arena.get? _ >>= Node.forkApi?) = (t.arena.get? _ >>= Node.forkApi?)
      rw [hn, hn']
      exact htwin.forkApi?_eq

namespace Trace

variable (hc : c.program.Distinct) (hfrank : c.Frank) (hdedup : c.settings.dedupCalls = true)

include hc hfrank hdedup

/-- Both main walks end in sessions that agree. -/
theorem walkMain_paired {r : Runtime} {entry : String} {q : Routine}
    (hdef : c.program.definition? entry = some q) {s t : Session}
    (hs : walkMain c r entry = .ok s) (ht : walkMain c.full r entry = .ok t) :
    Session.Paired c s t := by
  obtain ⟨nodes, s₁, u, u', hsummary, hu, hlast, rfl⟩ := walkMain_ok hs
  obtain ⟨nodes', t₁, v, v', hsummary', hv, hlast', rfl⟩ := walkMain_ok ht
  have hplaced := Placed.empty c #[Thread.new 0 entry none none]
  have hempty : Session.Paired c { Session.empty with threads := #[Thread.new 0 entry none none] }
      { Session.empty with threads := #[Thread.new 0 entry none none] } := by
    refine ⟨hplaced, hplaced, rfl, fun i a b ha hb => ?_⟩
    rw [ha] at hb
    cases hb
    obtain ⟨hi, rfl⟩ := Array.getElem?_eq_some_iff.1 ha
    obtain rfl : i = 0 := Nat.lt_one_iff.1 hi
    exact ⟨rfl, .none, [], .nil _ _⟩
  have hlearns := Learns.summary hsummary
  have hlearns' := Learns.summary hsummary'
  have hlater := hlearns.later hc
  have hlater' := (hlearns'.later (show c.full.program.Distinct from hc)).of_full
  have hpaired : Walk.Paired c [] ⟨s₁, Walker.start 0 none⟩ ⟨t₁, Walker.start 0 none⟩ :=
    ⟨hempty.later hlater hlater' hlearns.extends.threads hlearns'.extends.threads,
      rfl, rfl, rfl, .nil, .nil, .nil _ _⟩
  obtain ⟨mask, huv⟩ := (Walk.all_paired hc hfrank hdedup r).1 _ _ _ _ u entry 0 [] _ _ v hu hv
    ⟨.start (hlater.placed hplaced) ((Answers.nothing c _).summary hsummary) 0 none entry, hpaired,
      .of_summary hsummary hdef, .of_summary hsummary' hdef, .of_none rfl _,
      .of_empty rfl c entry 0 0 []⟩
  obtain ⟨mask', hended⟩ := huv.finish hlast hlast'
  exact hended.close.session

/-- If recursion hides nothing, a program traced with deduplicated calls has its trace with all
calls expanded, thinned. -/
theorem build_thinned {t u : Trace} (ht : Trace.build c = .ok t)
    (hu : Trace.build c.full = .ok u) : ∃ ms, t.Thinned u ms := by
  obtain ⟨q, s, hdef, hs, rfl⟩ := build_ok ht
  obtain ⟨_, s', -, hs', rfl⟩ := build_ok hu
  exact (walkMain_paired hc hfrank hdedup hdef hs hs').exists_thinned hc

end Trace

/-! ### A program without recursion -/

namespace Twice

/-- The nodes of the routines. -/
theorem nodesOf_eq (dedup : Bool) (f : String) : (subject dedup).nodesOf f =
    if f = "main" then [call 0, call 1] else if f = "fill" then [store] else [] := by
  unfold Subject.nodesOf
  rw [show (subject dedup).program = program from rfl, definition?_eq]
  by_cases hmain : f = "main"
  · rw [if_pos hmain, if_pos hmain]
    dsimp only
    rw [show (subject dedup).chain = Interface.standard from rfl, classifyAll_main]
  · rw [if_neg hmain, if_neg hmain]
    by_cases hfill : f = "fill"
    · rw [if_pos hfill, if_pos hfill]
      rfl
    · rw [if_neg hfill, if_neg hfill]

/-- Only the main routine calls, and only the other is called. -/
theorem eq_of_calls {dedup : Bool} {f g : String} (h : (subject dedup).Calls f g) :
    f = "main" ∧ g = "fill" := by
  unfold Subject.Calls at h
  rw [nodesOf_eq] at h
  split_ifs at h with hmain hfill
  · simpa [Session.calledBy, call, Subject.callTargets, hmain] using h
  · cases h
  · cases h

/-- There is no recursion. -/
theorem frank (dedup : Bool) : (subject dedup).Frank := by
  refine Subject.frank_of_acyclic fun f hcycle => ?_
  obtain ⟨g, hfg, -⟩ := TransGen.head'_iff.1 hcycle
  obtain ⟨h, -, hhf⟩ := TransGen.tail'_iff.1 hcycle
  have hmain := (eq_of_calls hfg).1
  rw [(eq_of_calls hhf).2] at hmain
  revert hmain
  decide

/-- With all calls expanded, the main thread stores two times. -/
theorem exists_walk_full :
    ∃ w, Walk.walk (subject false) .pthread ["main"] ["main"] [0, 1]
      ⟨early, Walker.start 0 none⟩ = .ok w := by
  rw [Walk.walk_cons_of_handle rfl rfl (handle_call (summary_early false) rfl rfl rfl),
    Walk.walk_cons_of_handle rfl rfl (handle_call (summary_late false ∅) rfl rfl rfl), Walk.walk]
  exact ⟨_, rfl⟩

/-- Both ways there is a trace. -/
theorem exists_build (dedup : Bool) : ∃ t, Trace.build (subject dedup) = .ok t := by
  cases dedup with
  | false =>
    obtain ⟨w, hw⟩ := exists_walk_full
    exact ⟨_, build_of_walk hw⟩
  | true => exact ⟨_, build_of_walk walk_dedup⟩

end Twice

/-- Deduplication loses no race where recursion hides nothing: whenever a program is analysed both
with deduplicated calls and with all calls expanded, and no routine leads to nodes that concern
threads, or without such nodes to nodes that change locks, through recursion alone, the same pairs
of instructions race. -/
theorem analyze_dedup {name : String} {routines : List Routine} {p : Program} {pointsTo : PointsTo}
    {s : Settings} (hp : Program.ofRoutines name routines = .ok p)
    (hfrank : Subject.Frank ⟨p, pointsTo, s, Interface.standard⟩) {rs rs' : List Race}
    (hon : analyze p pointsTo { s with dedupCalls := true } = .ok rs)
    (hoff : analyze p pointsTo { s with dedupCalls := false } = .ok rs') (pair : Sym2 InstId) :
    (∃ r ∈ rs, r.instructions = pair) ↔ ∃ r ∈ rs', r.instructions = pair := by
  obtain ⟨-, t, ht, hraces⟩ := analyze_eq_ok.1 hon
  obtain ⟨-, u, hu, hraces'⟩ := analyze_eq_ok.1 hoff
  have hfrank' : Subject.Frank ⟨p, pointsTo, { s with dedupCalls := true }, Interface.standard⟩ :=
    ⟨hfrank.threads, hfrank.locks⟩
  obtain ⟨ms, hthinned⟩ :=
    Trace.build_thinned (Program.distinct_of_ofRoutines hp) hfrank' rfl ht hu
  obtain ⟨ts, us, hts, hus, hagree⟩ :=
    hthinned.races_agree (Trace.build_wellFormed ht) (Trace.build_wellFormed hu)
  rw [hraces] at hts
  rw [hraces'] at hus
  cases hts
  cases hus
  exact hagree pair

/-- A program that calls a routine two times is analysed both ways with the same races. -/
theorem analyze_twice :
    ∃ rs rs',
      analyze Twice.program Twice.pointsTo { Twice.settings with dedupCalls := true } = .ok rs ∧
      analyze Twice.program Twice.pointsTo { Twice.settings with dedupCalls := false } = .ok rs' ∧
      ∀ pair, (∃ r ∈ rs, r.instructions = pair) ↔ ∃ r ∈ rs', r.instructions = pair := by
  have hsucceeds : ∀ dedup, ∃ rs, analyze Twice.program Twice.pointsTo
      { Twice.settings with dedupCalls := dedup } = .ok rs := by
    intro dedup
    obtain ⟨t, ht⟩ := Twice.exists_build dedup
    have hwell := Trace.build_wellFormed ht
    obtain ⟨-, -, rs, -, -, hrs, -⟩ := Trace.exists_races hwell
    exact ⟨rs, analyze_eq_ok.2 ⟨rfl, t, ht, hrs⟩⟩
  obtain ⟨rs, hon⟩ := hsucceeds true
  obtain ⟨rs', hoff⟩ := hsucceeds false
  exact ⟨rs, rs', hon, hoff, analyze_dedup Twice.ofRoutines_eq (Twice.frank true) hon hoff⟩

end DataRace
