import DataRace.Proofs.Order.Members
import DataRace.Proofs.Thin.Links

/-!
# Barrier groups of thinned traces

Runs of fork events are the same in a thinned trace as in the full one: an event that is left out
ends a run of the full trace, but then the next fork is one of another instruction.  So the members
of teams are the same up to the number of the first event of their run, and the barrier groups are
the same (`Trace.Thinned.barrierGroups_eq`).
-/

namespace DataRace

open HappensBefore

/-- A member with the number that the first event of its run has in the thinner trace. -/
def Member.thin (ms : Masks) (m : Member) : Member :=
  { m with first := rank (ms m.parent) m.first }

/-- Whether a member belongs to a run that begins with a kept event. -/
def Member.Marked (ms : Masks) (m : Member) : Prop := (ms m.parent)[m.first]? = some true

/-- Runs that end before an event, in the thinner and in the full list.  The run of the full list
is cut off by what was left out. -/
inductive RunsTo (b : Arena) (mask : List Bool) (fs : List Event) (k : Nat) :
    Option (InstId × Nat) → Option (InstId × Nat) → Prop
  | idle : RunsTo b mask fs k none none
  | going {j first : Nat} {f : Event} {n : Node} {run : Option (InstId × Nat)} (hj : j < k)
      (hmask : mask[j]? = some true) (hf : fs[j]? = some f) (hfork : f.kind.Forks)
      (hn : b.get? f.node = some n) (hrank : rank mask k = rank mask j + 1)
      (hfirst : mask[first]? = some true)
      (hrun : run = some (n.inst, first) ∨ run = none ∧ j + 1 < k) :
      RunsTo b mask fs k (some (n.inst, rank mask first)) run

/-- The first event of the run of a kept fork is kept, and it is the same in both lists. -/
theorem RunsTo.first {a b : Arena} {mask : List Bool} {es fs : List Event} {k : Nat}
    {run run' : Option (InstId × Nat)} (h : RunsTo b mask fs k run run')
    (hthins : Thins a b mask es fs) {f : Event} (hf : fs[k]? = some f)
    (hk : mask[k]? = some true) (hfork : f.kind.Forks) {n : Node} (hn : b.get? f.node = some n) :
    mask[firstOf run' n k]? = some true ∧
      firstOf run n (rank mask k) = rank mask (firstOf run' n k) := by
  cases h with
  | idle => exact ⟨hk, rfl⟩
  | @going j first g m run' hj hmask hg hfork' hm hrank hfirst hrun =>
    rcases hrun with rfl | ⟨rfl, hgap⟩
    · unfold firstOf
      dsimp only
      split
      · exact ⟨hfirst, rfl⟩
      · exact ⟨hk, rfl⟩
    -- Behind a gap the fork is one of another instruction.
    · obtain ⟨m', n', hm', hn', hne⟩ := hthins.runs j k g f hmask hk hg hf hfork' hfork hrank hgap
      rw [hm] at hm'
      rw [hn] at hn'
      cases hm'
      cases hn'
      unfold firstOf
      dsimp only
      rw [if_neg hne]
      exact ⟨hk, rfl⟩

namespace Member

variable {ms : Masks}

/-- Members belong together in both traces alike. -/
theorem sameGroup_thin {m m' : Member} (hm : m.Marked ms) (hm' : m'.Marked ms) :
    (m.thin ms).sameGroup (m'.thin ms) = m.sameGroup m' := by
  rw [Bool.eq_iff_iff]
  unfold sameGroup thin
  simp only [Bool.and_eq_true, beq_iff_eq]
  refine and_congr_left fun _ => and_congr_right fun hparent => ?_
  unfold Marked at hm hm'
  rw [← hparent] at hm' ⊢
  exact ⟨rank_inj hm hm', fun heq => heq ▸ rfl⟩

end Member

namespace Trace

variable {ms : Masks}

/-- A member is added to the same group in both traces. -/
theorem addMember_thin {gs : List (List Member)} {m : Member}
    (hgs : ∀ g ∈ gs, ∀ m' ∈ g, m'.Marked ms) (hm : m.Marked ms) :
    addMember (gs.map (List.map (Member.thin ms))) (m.thin ms) =
      (addMember gs m).map (List.map (Member.thin ms)) := by
  induction gs with
  | nil => rfl
  | cons g gs ih =>
    have hany : (g.map (Member.thin ms)).any (m.thin ms).sameGroup = g.any m.sameGroup := by
      rw [List.any_map, Bool.eq_iff_iff, List.any_eq_true, List.any_eq_true]
      refine exists_congr fun m' => and_congr_right fun hm' => ?_
      rw [Function.comp_apply, Member.sameGroup_thin hm (hgs g List.mem_cons_self m' hm')]
    rw [List.map_cons, addMember, addMember, hany]
    split
    · rw [List.map_cons, List.map_append]
      rfl
    · rw [ih fun g' hg' => hgs g' (List.mem_cons_of_mem _ hg'), List.map_cons]

/-- Members are put into the same groups in both traces. -/
theorem foldl_addMember_thin {members : List Member} {gs : List (List Member)}
    (hgs : ∀ g ∈ gs, ∀ m ∈ g, m.Marked ms) (hmembers : ∀ m ∈ members, m.Marked ms) :
    (members.map (Member.thin ms)).foldl addMember (gs.map (List.map (Member.thin ms))) =
      (members.foldl addMember gs).map (List.map (Member.thin ms)) := by
  induction members generalizing gs with
  | nil => rfl
  | cons m members ih =>
    have hm := hmembers m List.mem_cons_self
    rw [List.map_cons, List.foldl_cons, List.foldl_cons, addMember_thin hgs hm]
    refine ih (fun g hg m' hm' => ?_) fun m' hm' => hmembers m' (List.mem_cons_of_mem _ hm')
    rcases mem_addMember hg hm' with rfl | ⟨g', hg', hmem⟩
    · exact hm
    · exact hgs g' hg' m' hmem

variable {t u : Trace} (h : t.Thinned u ms)

include h

/-- The events of a thread start the same members in both traces. -/
theorem Thinned.membersFrom_eq (ht : t.WellFormed) (hu : u.WellFormed) (i : ThreadId) {n k : Nat}
    (hk : (u.eventsOf i).toList.length - k = n) {run run' : Option (InstId × Nat)}
    (hrun : RunsTo u.arena (ms i) (u.eventsOf i).toList k run run') {members : List Member}
    (hmembers : u.membersFrom run' ((u.eventsOf i).toList.drop k) = .ok members) :
    t.membersFrom run ((t.eventsOf i).toList.drop (rank (ms i) k)) =
        .ok (members.map (Member.thin ms)) ∧
      ∀ m ∈ members, m.Marked ms := by
  have hthins := h.thins i
  induction n generalizing k run run' members with
  | zero =>
    have hle := Nat.le_of_sub_eq_zero hk
    rw [List.drop_of_length_le hle, membersFrom] at hmembers
    cases hmembers
    rw [rank_of_le (hthins.length_eq.trans_le hle), hthins.count_eq,
      List.drop_of_length_le (Nat.le_refl _), membersFrom]
    exact ⟨rfl, fun m hm => absurd hm List.not_mem_nil⟩
  | succ n ih =>
    have hlt : k < (u.eventsOf i).toList.length := by omega
    have hnext : (u.eventsOf i).toList.length - (k + 1) = n := by omega
    have hf := List.getElem?_eq_getElem hlt
    obtain ⟨f, hfeq⟩ : ∃ f, (u.eventsOf i).toList[k] = f := ⟨_, rfl⟩
    rw [List.drop_eq_getElem_cons hlt, hfeq] at hmembers
    rw [hfeq] at hf
    obtain ⟨m, hm⟩ := hthins.exists_mask hf
    cases m with
    | false =>
      -- What is left out is no fork, so it ends the run of the full list.
      have hquiet := (hthins.spare k f hm hf).quiet.1
      rw [membersFrom_other] at hmembers
      · rw [← rank_succ_of_false hm]
        refine ih hnext ?_ hmembers
        cases hrun with
        | idle => exact .idle
        | going hj hmask hfj hfork hn hrank hfirst hcut =>
          exact .going (Nat.lt_succ_of_lt hj) hmask hfj hfork hn
            ((rank_succ_of_false hm).trans hrank) hfirst (Or.inr ⟨rfl, Nat.succ_lt_succ hj⟩)
      · rintro ⟨child, hfork⟩
        rw [hfork] at hquiet
        cases hquiet
    | true =>
      have hf' : u.event? ⟨i, k⟩ = some f := Array.getElem?_toList.symm.trans hf
      obtain ⟨e, he, halike⟩ := h.event?_thin hf' hm
      have hdrop : (t.eventsOf i).toList.drop (rank (ms i) k) =
          e :: (t.eventsOf i).toList.drop (rank (ms i) (k + 1)) := by
        have he' : (t.eventsOf i).toList[rank (ms i) k]? = some e := Array.getElem?_toList.trans he
        obtain ⟨hlt', heq⟩ := List.getElem?_eq_some_iff.1 he'
        rw [List.drop_eq_getElem_cons hlt', heq, rank_succ_of_true hm]
      rw [hdrop]
      by_cases hfork : f.kind.Forks
      · obtain ⟨child, hkind⟩ := hfork
        obtain ⟨n, hn, hn'⟩ := halike.node fun c hc => by cases hkind.symm.trans hc
        have hindex : f.index = k := congrArg EventRef.index (hu.ref_eq hf')
        have hindex' : e.index = rank (ms i) k := congrArg EventRef.index (ht.ref_eq he)
        rw [membersFrom_fork hkind hn', hindex] at hmembers
        rw [membersFrom_fork (halike.kind_eq.trans hkind) hn, hindex']
        obtain ⟨hmark, hfirst⟩ := hrun.first hthins hf hm ⟨child, hkind⟩ hn'
        obtain ⟨rest, hrest, rfl⟩ := Except.map_eq_ok.1 hmembers
        obtain ⟨hrest', hmarked⟩ := ih hnext (.going (Nat.lt_succ_self k) hm hf ⟨child, hkind⟩ hn'
          (rank_succ_of_true hm) hmark (Or.inl rfl)) hrest
        have hthread : f.thread = i := congrArg EventRef.thread (hu.ref_eq hf')
        have hthread' : e.thread = i := congrArg EventRef.thread (ht.ref_eq he)
        rw [hfirst, hrest']
        unfold startedBy
        rw [h.spawnApi?, hthread, hthread']
        cases u.spawnApi? child >>= ForkApi.team? with
        | some team =>
          refine ⟨rfl, fun m hm' => ?_⟩
          rcases List.mem_cons.1 hm' with rfl | hm'
          · exact hmark
          · exact hmarked m hm'
        | none => exact ⟨rfl, hmarked⟩
      · rw [membersFrom_other hfork] at hmembers
        rw [membersFrom_other (halike.kind_eq ▸ hfork)]
        exact ih hnext .idle hmembers

/-- The barrier groups are the same in both traces. -/
theorem Thinned.barrierGroups_eq (ht : t.WellFormed) (hu : u.WellFormed)
    {groups : List (List ThreadId)} (hgroups : u.barrierGroups = .ok groups) :
    t.barrierGroups = .ok groups := by
  obtain ⟨lists, hlists, hgroups⟩ := Except.bind_eq_ok.1 hgroups
  have hall := List.forall₂_iff_get.1 (Except.mapM_eq_ok.1 hlists)
  have hevents : ∀ (v : Trace) (i : Nat) (hi : i < v.threads.toList.length),
      (v.threads.toList.get ⟨i, hi⟩).events = v.eventsOf i := by
    intro v i hi
    refine (eventsOf_eq ?_).symm
    rw [← Array.getElem?_toList]
    exact List.getElem?_eq_getElem hi
  have hone : ∀ (i : Nat) (hi : i < u.threads.toList.length) (hi' : i < lists.length),
      t.membersFrom none (t.eventsOf i).toList = .ok ((lists.get ⟨i, hi'⟩).map (Member.thin ms)) ∧
        ∀ m ∈ lists.get ⟨i, hi'⟩, m.Marked ms := by
    intro i hi hi'
    have hok := hall.2 i hi hi'
    rw [hevents u i hi] at hok
    have hzero : (u.eventsOf i).toList.drop 0 = (u.eventsOf i).toList := rfl
    rw [← hzero] at hok
    exact h.membersFrom_eq ht hu i rfl .idle hok
  have hlength : t.threads.toList.length = u.threads.toList.length := h.threadCount
  have hlists' : t.threads.toList.mapM (fun th => t.membersFrom none th.events.toList) =
      .ok (lists.map (List.map (Member.thin ms))) := by
    refine Except.mapM_eq_ok.2 (List.forall₂_iff_get.2 ⟨?_, fun i hi hi' => ?_⟩)
    · rw [hlength, hall.1, List.length_map]
    · rw [hevents t i hi, List.get_eq_getElem, List.getElem_map]
      exact (hone i (hlength ▸ hi) _).1
  have hmarked : ∀ m ∈ lists.flatten, m.Marked ms := by
    intro m hm
    obtain ⟨l, hl, hm⟩ := List.mem_flatten.1 hm
    obtain ⟨⟨i, hi⟩, rfl⟩ := List.mem_iff_get.1 hl
    exact (hone i (hall.1.symm ▸ hi) hi).2 m hm
  refine Except.bind_eq_ok.2 ⟨_, hlists', ?_⟩
  have hnil : ∀ g ∈ ([] : List (List Member)), ∀ m ∈ g, m.Marked ms := fun g hg => nomatch hg
  have hfold := foldl_addMember_thin hnil hmarked
  rw [List.map_nil] at hfold
  rw [← List.map_flatten, hfold, List.map_map, ← hgroups]
  have hthread : (List.map Member.thread ∘ List.map (Member.thin ms)) = List.map Member.thread := by
    funext g
    rw [Function.comp_apply, List.map_map]
    rfl
  rw [hthread]

end Trace

end DataRace
