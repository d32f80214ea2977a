import DataRace.Proofs.Order.Linked
import DataRace.Proofs.Order.Members
import Mathlib.Data.List.Lex

/-!
# Traces in which only descendants are joined

If every resolved join is one of a later thread, no barrier group is left out while groups are added
(`HappensBefore.foldl_addGroup_snd`).  The proof ranks points so that every link leads to a higher
rank (`HappensBefore.Linked.rankOf_lt`), which excludes circles whatever groups take part.

A thread stands somewhere among its own barriers and events, and so do all the threads that lead to
it, each at the fork that leads on.  The rank of a point lists these positions from the main thread
on, and ranks are compared from the front.  A position is a round, the number of barriers before it,
and a place.  An event has an even place, and a fork leads on at an odd place behind the whole run
of forks that it belongs to.  So all members of a barrier group have the same positions above them,
while a join still lies behind the forks before it.
-/

namespace DataRace

namespace HappensBefore

open Relation OrderGraph

/-! ### Positions in a thread -/

/-- The number of barriers of a thread before an event. -/
def roundOf (t : Trace) (r : EventRef) : Nat :=
  (barriersOf t r.thread).countP fun q => q.index < r.index

/-- The number of the first event from an event on that is no fork. -/
def runEnd (t : Trace) (r : EventRef) : Nat :=
  r.index +
    (((t.eventsOf r.thread).toList.drop r.index).takeWhile fun e =>
      e.kind.category = .fork).length

/-- The position of an event in its thread. -/
def position (t : Trace) (r : EventRef) : ℕ ×ₗ ℕ := toLex (roundOf t r, 2 * r.index + 2)

/-- The position at which a fork leads on to its child. -/
def turnoff (t : Trace) (r : EventRef) : ℕ ×ₗ ℕ := toLex (roundOf t r, 2 * runEnd t r + 1)

variable {t : Trace}

/-- Later events have at least as many barriers before them. -/
theorem roundOf_mono {i : ThreadId} {j k : Nat} (h : j ≤ k) :
    roundOf t ⟨i, j⟩ ≤ roundOf t ⟨i, k⟩ := by
  refine List.countP_mono_left fun q _ hq => ?_
  simp only [decide_eq_true_eq] at hq ⊢
  omega

/-- Later events have later positions. -/
theorem position_lt {i : ThreadId} {j k : Nat} (h : j < k) :
    position t ⟨i, j⟩ < position t ⟨i, k⟩ := by
  refine Prod.Lex.toLex_lt_toLex'.2 ⟨roundOf_mono h.le, fun _ => ?_⟩
  dsimp only
  omega

/-- In a list with ascending keys, as many keys are below that of a member as members come before
it. -/
theorem countP_lt_of_ascending {α : Type} {key : α → Nat} {l : List α}
    (hl : l.Pairwise fun a b => key a < key b) {k : Nat} {a : α} (h : l[k]? = some a) :
    l.countP (fun b => key b < key a) = k ∧ l.countP (fun b => key b < key a + 1) = k + 1 := by
  induction l generalizing k with
  | nil => simp at h
  | cons b l ih =>
    obtain ⟨hb, hl⟩ := List.pairwise_cons.1 hl
    cases k with
    | zero =>
      obtain rfl : b = a := by simpa using h
      have hbelow : l.countP (fun d => key d < key b) = 0 := by
        simp only [List.countP_eq_zero, decide_eq_true_eq]
        exact fun d hd => (hb d hd).not_gt
      have hupto : l.countP (fun d => key d < key b + 1) = 0 := by
        simp only [List.countP_eq_zero, decide_eq_true_eq]
        intro d hd
        have := hb d hd
        omega
      rw [List.countP_cons_of_neg (by simp), List.countP_cons_of_pos (by simp), hbelow, hupto]
      exact ⟨rfl, rfl⟩
    | succ k =>
      have ha : l[k]? = some a := by simpa using h
      obtain ⟨hbelow, hupto⟩ := ih hl ha
      have hlt := hb a (List.mem_of_getElem? ha)
      rw [List.countP_cons_of_pos (by simpa using hlt), List.countP_cons_of_pos, hbelow, hupto]
      · exact ⟨rfl, rfl⟩
      · simp only [decide_eq_true_eq]
        omega

/-- The barriers of a thread are in ascending order. -/
theorem ascending_barriersOf (ht : t.WellFormed) (i : ThreadId) :
    (barriersOf t i).Pairwise fun a b => a.index < b.index := by
  refine List.pairwise_filterMap.2 (List.pairwise_iff_getElem.2 ?_)
  intro j k hj hk hjk a ha b hb
  have hevent : ∀ (n : Nat) (hn : n < (t.eventsOf i).toList.length) (r : EventRef),
      (if (t.eventsOf i).toList[n].kind = .barrier then some (t.eventsOf i).toList[n].ref
        else none) = some r → r.index = n := by
    intro n hn r hr
    have hget : t.event? ⟨i, n⟩ = some (t.eventsOf i).toList[n] := by
      rw [Trace.event?, ← Array.getElem?_toList]
      exact List.getElem?_eq_getElem hn
    split at hr
    · cases hr
      rw [ht.ref_eq hget]
    · cases hr
  rw [hevent j hj a ha, hevent k hk b hb]
  exact hjk

/-- A barrier is in the round of its number, and what follows it in the next. -/
theorem roundOf_barrier (ht : t.WellFormed) {i : ThreadId} {k : Nat} {r : EventRef}
    (h : (barriersOf t i)[k]? = some r) :
    roundOf t r = k ∧ roundOf t ⟨r.thread, r.index + 1⟩ = k + 1 := by
  obtain ⟨rfl, -⟩ := event?_of_barrier ht h
  exact countP_lt_of_ascending (ascending_barriersOf ht r.thread) h

/-! ### Runs of forks -/

/-- A fork is in the same round as what follows it. -/
theorem roundOf_fork (ht : t.WellFormed) {r : EventRef} {e : Event} (he : t.event? r = some e)
    (hfork : e.kind.Forks) : roundOf t ⟨r.thread, r.index + 1⟩ = roundOf t r := by
  refine List.countP_congr fun q hq => ?_
  simp only [decide_eq_true_eq]
  have hne : q.index ≠ r.index := by
    intro hindex
    obtain ⟨k, hk⟩ := List.mem_iff_getElem?.1 hq
    obtain ⟨hthread, e', he', hkind⟩ := event?_of_barrier ht hk
    have hsame : q = r := by
      cases q
      cases r
      exact congrArg₂ EventRef.mk hthread hindex
    rw [hsame, he] at he'
    obtain ⟨child, hchild⟩ := hfork
    cases he'
    rw [hkind] at hchild
    cases hchild
  omega

/-- A fork is in the same run of forks as what follows it. -/
theorem runEnd_fork {r : EventRef} {e : Event} (he : t.event? r = some e)
    (hfork : e.kind.Forks) : runEnd t ⟨r.thread, r.index + 1⟩ = runEnd t r := by
  have hget : (t.eventsOf r.thread).toList[r.index]? = some e := by
    rw [Array.getElem?_toList]
    exact he
  obtain ⟨hlt, heq⟩ := List.getElem?_eq_some_iff.1 hget
  have hpos : decide (e.kind.category = .fork) = true :=
    decide_eq_true (EventKind.category_eq_fork.2 hfork)
  unfold runEnd
  rw [List.drop_eq_getElem_cons hlt, heq]
  simp only [List.takeWhile_cons, hpos, if_true, List.length_cons]
  omega

/-- A fork leads on where the event that follows it would. -/
theorem turnoff_fork (ht : t.WellFormed) {r : EventRef} {e : Event} (he : t.event? r = some e)
    (hfork : e.kind.Forks) : turnoff t ⟨r.thread, r.index + 1⟩ = turnoff t r := by
  rw [turnoff, turnoff, roundOf_fork ht he hfork, runEnd_fork he hfork]

/-- All forks of a run lead on at one position. -/
theorem turnoff_of_allForks (ht : t.WellFormed) {i : ThreadId} {first last : Nat}
    (hle : first ≤ last) (h : t.AllForks i first last) :
    turnoff t ⟨i, last⟩ = turnoff t ⟨i, first⟩ := by
  induction last, hle using Nat.le_induction with
  | base => rfl
  | succ last hle ih =>
    obtain ⟨e, he, hfork⟩ := h last hle (Nat.lt_succ_self last)
    have hshorter : t.AllForks i first last := fun j hj hlt => h j hj (Nat.lt_succ_of_lt hlt)
    exact (turnoff_fork ht he hfork).trans (ih hshorter)

/-- A fork leads on behind its own position. -/
theorem position_lt_turnoff {r : EventRef} {e : Event} (he : t.event? r = some e)
    (hfork : e.kind.Forks) : position t r < turnoff t r := by
  have hend : r.index + 1 ≤ runEnd t r := by
    rw [← runEnd_fork he hfork]
    exact Nat.le_add_right _ _
  refine Prod.Lex.toLex_lt_toLex'.2 ⟨le_refl _, fun _ => ?_⟩
  dsimp only
  omega

/-- What passes a test at the beginning of a list ends where the test fails. -/
theorem length_takeWhile_le {α : Type} {p : α → Bool} {l : List α} {k : Nat} {a : α}
    (h : l[k]? = some a) (ha : p a = false) : (l.takeWhile p).length ≤ k := by
  induction l generalizing k with
  | nil => simp at h
  | cons b l ih =>
    by_cases hb : p b = true
    · cases k with
      | zero =>
        obtain rfl : b = a := by simpa using h
        simp [ha] at hb
      | succ k =>
        rw [List.takeWhile_cons_of_pos hb, List.length_cons]
        exact Nat.succ_le_succ (ih (by simpa using h))
    · rw [List.takeWhile_cons_of_neg hb]
      exact Nat.zero_le k

/-- A fork leads on before every later event that is no fork. -/
theorem turnoff_lt_position {i : ThreadId} {j k : Nat} (hjk : j ≤ k) {e : Event}
    (he : t.event? ⟨i, k⟩ = some e) (hkind : ¬ e.kind.Forks) :
    turnoff t ⟨i, j⟩ < position t ⟨i, k⟩ := by
  have hend : runEnd t ⟨i, j⟩ ≤ k := by
    have hget : ((t.eventsOf i).toList.drop j)[k - j]? = some e := by
      rw [List.getElem?_drop, Nat.add_sub_cancel' hjk, Array.getElem?_toList]
      exact he
    have hfail : decide (e.kind.category = .fork) = false :=
      decide_eq_false (mt EventKind.category_eq_fork.1 hkind)
    have hlength := length_takeWhile_le (p := fun e => decide (e.kind.category = .fork)) hget hfail
    unfold runEnd
    dsimp only
    omega
  refine Prod.Lex.toLex_lt_toLex'.2 ⟨roundOf_mono hjk, fun _ => ?_⟩
  dsimp only
  omega

/-! ### Ranks -/

/-- The positions at which the threads that lead to a thread lead on, from the main thread on. -/
def turnoffs (t : Trace) (i : ThreadId) : List (ℕ ×ₗ ℕ) :=
  match t.threads[i]? >>= Thread.site with
  | none => []
  | some r => if r.thread < i then turnoffs t r.thread ++ [turnoff t r] else []
termination_by i

/-- A child has the positions of its parent and the one at which its fork leads on to it. -/
theorem turnoffs_of_site {i : ThreadId} {th : Thread} (hth : t.threads[i]? = some th)
    {r : EventRef} (hsite : th.site = some r) (hlt : r.thread < i) :
    turnoffs t i = turnoffs t r.thread ++ [turnoff t r] := by
  have hbind : t.threads[i]? >>= Thread.site = some r := by rw [hth]; exact hsite
  rw [turnoffs, hbind]
  exact if_pos hlt

/-- The same, seen from the fork. -/
theorem turnoffs_of_fork (ht : t.WellFormed) {r : EventRef} {e : Event} {child : ThreadId}
    (he : t.event? r = some e) (hfork : e.kind = .fork child) :
    turnoffs t child = turnoffs t r.thread ++ [turnoff t r] := by
  obtain ⟨hlt, th, hth, hsite, -⟩ := (ht.fits_event? he).fork child hfork
  exact turnoffs_of_site hth hsite hlt

/-- What a thread leads to has the positions of the thread, and more. -/
theorem turnoffs_prefix (ht : t.WellFormed) {a b : ThreadId}
    (h : ReflTransGen (Thread.Starts t.threads) a b) : turnoffs t a <+: turnoffs t b := by
  induction h with
  | refl => exact List.prefix_refl _
  | @tail b d _ hstart ih =>
    have hlt := ht.starts_lt hstart
    obtain ⟨th, hth, hparent⟩ := hstart
    obtain ⟨r, hsite, rfl⟩ := Option.map_eq_some_iff.1 hparent
    rw [turnoffs_of_site hth hsite hlt]
    exact ih.trans (List.prefix_append _ _)

/-- The rank of a point of a thread. -/
def rankOf (t : Trace) : Point → List (ℕ ×ₗ ℕ)
  | .start i => turnoffs t i ++ [toLex (0, 0)]
  | .event r => turnoffs t r.thread ++ [position t r]
  | .finish i => turnoffs t i ++ [position t ⟨i, (t.eventsOf i).size⟩]
  | .meet _ _ => []

/-- The rank of the point of a thread at an event number. -/
theorem rankOf_pointAt {i : ThreadId} {k : Nat} (hk : k ≤ (t.eventsOf i).size) :
    rankOf t (pointAt t i k) = turnoffs t i ++ [position t ⟨i, k⟩] := by
  unfold pointAt
  split
  · rfl
  · obtain rfl : k = (t.eventsOf i).size := by omega
    rfl

/-- Lists that agree up to a position are ordered by it. -/
theorem append_cons_lt {l l₁ l₂ : List (ℕ ×ₗ ℕ)} {a b : ℕ ×ₗ ℕ} (h : a < b) :
    l ++ a :: l₁ < l ++ b :: l₂ :=
  List.Lex.append_left _ (List.Lex.rel h) l

/-- The threads of a group have the same positions above them. -/
theorem turnoffs_of_startedInRun (ht : t.WellFormed) {parent : ThreadId} {first : Nat}
    {i : ThreadId} (h : t.StartedInRun parent first i) :
    turnoffs t i = turnoffs t parent ++ [turnoff t ⟨parent, first⟩] := by
  obtain ⟨j, e, he, hfork, hle, hforks⟩ := h
  rw [turnoffs_of_fork ht he hfork, turnoff_of_allForks ht hle hforks]

section

variable (ht : t.WellFormed)
  (hup : ∀ r e child, t.event? r = some e → e.kind = .join (some child) → r.thread < child)

include ht hup

/-- If only later threads are joined, links lead to higher ranks. -/
theorem Linked.rankOf_lt {s : Choice}
    (hgroups : ∀ members ∈ s.groups, ∃ parent first, ∀ i ∈ members,
      t.StartedInRun parent first i) {a b : Point} (h : Linked t s a b) :
    rankOf t a < rankOf t b := by
  cases h with
  | basic h =>
    cases h with
    | @first i hi =>
      rw [rankOf_pointAt (Nat.zero_le _)]
      refine append_cons_lt (Prod.Lex.toLex_lt_toLex'.2 ⟨Nat.zero_le _, fun _ => ?_⟩)
      dsimp only
      omega
    | @next r e he =>
      rw [pointAfter_eq, rankOf_pointAt (Trace.event?_isSome_iff.1 ⟨e, he⟩)]
      exact append_cons_lt (position_lt (Nat.lt_succ_self r.index))
    | @fork r e child he hfork =>
      rw [rankOf, rankOf, turnoffs_of_fork ht he hfork, List.append_assoc]
      exact append_cons_lt (position_lt_turnoff he ⟨child, hfork⟩)
  -- The joined thread is below a turnoff that an earlier fork of the joining thread takes.
  | @join r e child he hjoin _ =>
    obtain ⟨j, hj, f, hf, d, hfork, hpath⟩ :=
      ((ht.fits_event? he).join child hjoin).2 (hup r e child he hjoin)
    have hforked := turnoffs_of_fork (r := ⟨r.thread, j⟩) ht hf hfork
    obtain ⟨below, hbelow⟩ := turnoffs_prefix ht hpath
    have hkind : ¬ e.kind.Forks := by
      rintro ⟨d', hd'⟩
      rw [hjoin] at hd'
      cases hd'
    rw [rankOf, rankOf, ← hbelow, hforked]
    simp only [List.append_assoc, List.cons_append, List.nil_append]
    exact append_cons_lt (turnoff_lt_position hj.le he hkind)
  -- Both members have the same positions above them, and the round goes up.
  | @barrier group k members m m' r r' hgroup _ hm hr hm' hr' =>
    obtain ⟨parent, first, hrun⟩ := hgroups members (List.mem_of_getElem? hgroup)
    have hsame : turnoffs t m = turnoffs t m' := by
      rw [turnoffs_of_startedInRun ht (hrun m hm), turnoffs_of_startedInRun ht (hrun m' hm')]
    obtain ⟨rfl, -⟩ := event?_of_barrier ht hr
    obtain ⟨rfl, e', he', -⟩ := event?_of_barrier ht hr'
    rw [pointAfter_eq, rankOf_pointAt (Trace.event?_isSome_iff.1 ⟨e', he'⟩), rankOf, hsame]
    refine append_cons_lt (Prod.Lex.toLex_lt_toLex.2 (Or.inl ?_))
    dsimp only
    rw [(roundOf_barrier ht hr).1, (roundOf_barrier ht hr').2]
    exact Nat.lt_succ_self k

/-- If only later threads are joined, links have no circles. -/
theorem not_transGen_linked {s : Choice}
    (hgroups : ∀ members ∈ s.groups, ∃ parent first, ∀ i ∈ members,
      t.StartedInRun parent first i) (p : Point) : ¬ TransGen (Linked t s) p p := by
  have hrank : ∀ a b, TransGen (Linked t s) a b → rankOf t a < rankOf t b := by
    intro a b hab
    induction hab with
    | single hab => exact hab.rankOf_lt ht hup hgroups
    | tail _ hbc ih => exact ih.trans (hbc.rankOf_lt ht hup hgroups)
  exact fun hp => lt_irrefl _ (hrank p p hp)

/-- If only later threads are joined, no group is left out when groups are added one by one. -/
theorem foldl_addGroup_snd {groups : List (List ThreadId)}
    (hgroups : ∀ members ∈ groups, ∃ parent first, ∀ i ∈ members,
      t.StartedInRun parent first i) :
    (groups.zipIdx.foldl (addGroup t) ((afterJoins t t.events).1, [])).2 = [] := by
  induction groups using List.reverseRecOn with
  | nil => rfl
  | append_singleton groups members ih =>
    have hgrouped := grouped_afterJoins ht groups
    have hclosed := closed_withGroup ht hgrouped.closed hgrouped.points groups.length members
    have hacyclic := (isAcyclic_iff hclosed).2 ((hgrouped.shows_withGroup ht members).acyclic_iff.2
      (not_transGen_linked ht hup hgroups))
    rw [List.zipIdx_append, List.foldl_append, List.zipIdx_singleton, List.foldl_cons,
      List.foldl_nil, addGroup_snd, if_pos (by simpa using hacyclic)]
    exact ih fun ms hms => hgroups ms (List.mem_append_left _ hms)

end

end HappensBefore

end DataRace
