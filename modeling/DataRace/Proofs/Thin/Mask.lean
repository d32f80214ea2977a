import DataRace.Proofs.Trace.Growth
import Mathlib.Data.List.Basic
import Mathlib.Order.Lattice

/-!
# Thinned lists of events

A mask marks which events of a full list are kept in a thinner one; `rank` is the position that a
kept event has there.  `Thins` says what may be left out: events that neither synchronise nor change
locks, and accesses only where they repeat a kept one with no such event in between.  Forks of one
instruction that come one after the other in the thinner list do so in the full one.

`Thins.keep` and `Thins.drop` add one event to the end of both lists or of the full one alone.
-/

namespace DataRace

/-! ### Ranks -/

/-- How many of the first entries of a mask are marked. -/
def rank (mask : List Bool) (k : Nat) : Nat := (mask.take k).count true

/-- The rank behind one more entry. -/
theorem rank_succ (mask : List Bool) (k : Nat) :
    rank mask (k + 1) = rank mask k + mask[k]?.toList.count true := by
  unfold rank
  rw [List.take_add_one, List.count_append]

/-- A marked entry counts. -/
theorem rank_succ_of_true {mask : List Bool} {k : Nat} (h : mask[k]? = some true) :
    rank mask (k + 1) = rank mask k + 1 := by
  rw [rank_succ, h]
  rfl

/-- Another entry does not count. -/
theorem rank_succ_of_false {mask : List Bool} {k : Nat} (h : mask[k]? = some false) :
    rank mask (k + 1) = rank mask k := by
  rw [rank_succ, h]
  rfl

/-- Ranks ascend. -/
theorem rank_mono (mask : List Bool) {j k : Nat} (hjk : j ≤ k) : rank mask j ≤ rank mask k := by
  induction k, hjk using Nat.le_induction with
  | base => exact Nat.le_refl _
  | succ k _ ih =>
    rw [rank_succ]
    exact Nat.le_add_right_of_le ih

/-- The rank of a marked entry is below those that follow. -/
theorem rank_lt {mask : List Bool} {j k : Nat} (h : mask[j]? = some true) (hjk : j < k) :
    rank mask j < rank mask k := by
  have hle := rank_mono mask (Nat.succ_le_of_lt hjk)
  rw [Nat.succ_eq_add_one, rank_succ_of_true h] at hle
  exact hle

/-- Marked entries are ordered like their ranks. -/
theorem rank_lt_iff {mask : List Bool} {j k : Nat} (hj : mask[j]? = some true) :
    rank mask j < rank mask k ↔ j < k := by
  constructor
  · intro hlt
    by_contra hle
    exact absurd (rank_mono mask (Nat.le_of_not_lt hle)) (Nat.not_le.2 hlt)
  · exact rank_lt hj

/-- Marked entries of one rank are the same. -/
theorem rank_inj {mask : List Bool} {j k : Nat} (hj : mask[j]? = some true)
    (hk : mask[k]? = some true) (h : rank mask j = rank mask k) : j = k := by
  rcases Nat.lt_trichotomy j k with hlt | heq | hlt
  · exact absurd (rank_lt hj hlt) (Nat.not_lt.2 h.ge)
  · exact heq
  · exact absurd (rank_lt hk hlt) (Nat.not_lt.2 h.le)

/-- The rank behind all entries. -/
theorem rank_of_le {mask : List Bool} {k : Nat} (h : mask.length ≤ k) :
    rank mask k = mask.count true := by
  unfold rank
  rw [List.take_of_length_le h]

/-- Every position below the number of marks is a rank. -/
theorem exists_rank_eq {mask : List Bool} {i : Nat} (h : i < mask.count true) :
    ∃ k, mask[k]? = some true ∧ rank mask k = i := by
  induction mask generalizing i with
  | nil => cases h
  | cons b mask ih =>
    have hstep : ∀ k, rank (b :: mask) (k + 1) = rank mask k + [b].count true := by
      intro k
      unfold rank
      rw [List.take_succ_cons, List.count_cons, List.count_cons, List.count_nil, Nat.zero_add]
    rw [← List.singleton_append, List.count_append] at h
    cases b with
    | false =>
      have hlt : i < mask.count true := (Nat.zero_add (mask.count true)) ▸ h
      obtain ⟨k, hk, hrank⟩ := ih hlt
      exact ⟨k + 1, hk, (hstep k).trans hrank⟩
    | true =>
      cases i with
      | zero => exact ⟨0, rfl, rfl⟩
      | succ i =>
        have hlt : i < mask.count true := by
          rw [show [true].count true = 1 from rfl] at h
          omega
        obtain ⟨k, hk, hrank⟩ := ih hlt
        exact ⟨k + 1, hk, (hstep k).trans (congrArg (· + 1) hrank)⟩

/-- A longer mask has the same ranks at the beginning. -/
theorem rank_append {mask : List Bool} (rest : List Bool) {k : Nat} (h : k ≤ mask.length) :
    rank (mask ++ rest) k = rank mask k := by
  unfold rank
  rw [List.take_append_of_le_length h]

/-! ### Thinned lists -/

/-- Neither synchronising nor changing locks. -/
def EventKind.Quiet (k : EventKind) : Prop := k.isSync = false ∧ k.isLocking = false

/-- Two nodes of two arenas are the same node. -/
def Arena.Agree (a b : Arena) (i j : NodeId) : Prop :=
  ∃ n, a.get? i = some n ∧ b.get? j = some n

/-- Two events do the same, with the same node unless they are joins. -/
structure Event.Alike (a b : Arena) (e f : Event) : Prop where
  kind_eq : e.kind = f.kind
  node : (∀ child, f.kind ≠ .join child) → a.Agree b e.node f.node

/-- Two events have nodes of different instructions. -/
def Event.Apart (b : Arena) (f g : Event) : Prop :=
  ∃ m n, b.get? f.node = some m ∧ b.get? g.node = some n ∧ m.inst ≠ n.inst

/-- An event of a full list that may be left out. -/
structure Event.Spare (b : Arena) (mask : List Bool) (fs : List Event) (k : Nat) (f : Event) :
    Prop where
  quiet : f.kind.Quiet
  covered : f.kind.access?.isSome → ∃ j g, j < k ∧ mask[j]? = some true ∧ fs[j]? = some g ∧
    g.kind = f.kind ∧ b.Agree b g.node f.node ∧
      ∀ l d, j < l → l < k → fs[l]? = some d → d.kind.Quiet

/-- An event that may be left out of a list may be left out of a longer one. -/
theorem Event.Spare.append {b : Arena} {mask : List Bool} {fs : List Event} {k : Nat} {f : Event}
    (h : f.Spare b mask fs k) (mask' : List Bool) (fs' : List Event) (hk : k ≤ fs.length) :
    f.Spare b (mask ++ mask') (fs ++ fs') k where
  quiet := h.quiet
  covered haccess := by
    obtain ⟨j, g, hlt, hj, hg, hkind, hnode, hbetween⟩ := h.covered haccess
    refine ⟨j, g, hlt, ?_, ?_, hkind, hnode, fun l d hjl hlk hd => ?_⟩
    · rw [List.getElem?_append_left (List.getElem?_eq_some_iff.1 hj).1, hj]
    · rw [List.getElem?_append_left (List.getElem?_eq_some_iff.1 hg).1, hg]
    · rw [List.getElem?_append_left (hlk.trans_le hk)] at hd
      exact hbetween l d hjl hlk hd

/-- An entry of a longer list is an entry of the list or the last one. -/
theorem getElem?_concat {α : Type} {l : List α} {x y : α} {k : Nat}
    (h : (l ++ [x])[k]? = some y) : k < l.length ∧ l[k]? = some y ∨ k = l.length ∧ y = x := by
  rcases Nat.lt_or_ge k l.length with hlt | hge
  · rw [List.getElem?_append_left hlt] at h
    exact Or.inl ⟨hlt, h⟩
  · rw [List.getElem?_append_right hge, List.getElem?_singleton] at h
    split at h
    · next hzero =>
      cases h
      exact Or.inr ⟨Nat.le_antisymm (Nat.le_of_sub_eq_zero hzero) hge, rfl⟩
    · cases h

/-- One list of events is a full list without some events that may be left out. -/
structure Thins (a b : Arena) (mask : List Bool) (es fs : List Event) : Prop where
  length_eq : mask.length = fs.length
  count_eq : mask.count true = es.length
  kept : ∀ k (f : Event), mask[k]? = some true → fs[k]? = some f →
    ∃ e, es[rank mask k]? = some e ∧ e.Alike a b f
  spare : ∀ k (f : Event), mask[k]? = some false → fs[k]? = some f → f.Spare b mask fs k
  runs : ∀ j k (f g : Event), mask[j]? = some true → mask[k]? = some true → fs[j]? = some f →
    fs[k]? = some g → f.kind.Forks → g.kind.Forks → rank mask k = rank mask j + 1 → j + 1 < k →
      f.Apart b g

namespace Thins

variable {a b : Arena} {mask : List Bool} {es fs : List Event}

/-- Nothing is left out of nothing. -/
theorem nil (a b : Arena) : Thins a b [] [] [] where
  length_eq := rfl
  count_eq := rfl
  kept k f h := by cases h
  spare k f h := by cases h
  runs j k f g h := by cases h

/-- Later arenas have the same nodes. -/
theorem mono {a' b' : Arena} (h : Thins a b mask es fs)
    (ha : ∀ i n, a.get? i = some n → a'.get? i = some n)
    (hb : ∀ i n, b.get? i = some n → b'.get? i = some n) : Thins a' b' mask es fs where
  length_eq := h.length_eq
  count_eq := h.count_eq
  kept k f hk hf := by
    obtain ⟨e, he, hkind, hnode⟩ := h.kept k f hk hf
    refine ⟨e, he, hkind, fun hjoin => ?_⟩
    obtain ⟨n, hn, hn'⟩ := hnode hjoin
    exact ⟨n, ha _ _ hn, hb _ _ hn'⟩
  spare k f hk hf := by
    obtain ⟨hquiet, hcovered⟩ := h.spare k f hk hf
    refine ⟨hquiet, fun haccess => ?_⟩
    obtain ⟨j, g, hlt, hj, hg, hkind, ⟨n, hn, hn'⟩, hbetween⟩ := hcovered haccess
    exact ⟨j, g, hlt, hj, hg, hkind, ⟨n, hb _ _ hn, hb _ _ hn'⟩, hbetween⟩
  runs j k f g hj hk hf hg hfork hfork' hrank hgap := by
    obtain ⟨m, n, hm, hn, hne⟩ := h.runs j k f g hj hk hf hg hfork hfork' hrank hgap
    exact ⟨m, n, hb _ _ hm, hb _ _ hn, hne⟩

/-- An entry of a mask marks an event. -/
theorem exists_event (h : Thins a b mask es fs) {k : Nat} {m : Bool} (hk : mask[k]? = some m) :
    ∃ f, fs[k]? = some f := by
  have hlt := (List.getElem?_eq_some_iff.1 hk).1
  rw [h.length_eq] at hlt
  exact ⟨_, List.getElem?_eq_getElem hlt⟩

/-- An event has an entry in the mask. -/
theorem exists_mask (h : Thins a b mask es fs) {k : Nat} {f : Event} (hf : fs[k]? = some f) :
    ∃ m, mask[k]? = some m := by
  have hlt := (List.getElem?_eq_some_iff.1 hf).1
  rw [← h.length_eq] at hlt
  exact ⟨_, List.getElem?_eq_getElem hlt⟩

/-- Every event of the thinner list is kept from the full one. -/
theorem exists_kept (h : Thins a b mask es fs) {i : Nat} {e : Event} (he : es[i]? = some e) :
    ∃ k f, mask[k]? = some true ∧ rank mask k = i ∧ fs[k]? = some f ∧ e.Alike a b f := by
  have hlt := (List.getElem?_eq_some_iff.1 he).1
  rw [← h.count_eq] at hlt
  obtain ⟨k, hk, hrank⟩ := exists_rank_eq hlt
  obtain ⟨f, hf⟩ := h.exists_event hk
  obtain ⟨e', he', halike⟩ := h.kept k f hk hf
  rw [hrank, he] at he'
  cases he'
  exact ⟨k, f, hk, hrank, hf, halike⟩

/-- An event that is not quiet is kept. -/
theorem marked (h : Thins a b mask es fs) {k : Nat} {f : Event} (hf : fs[k]? = some f)
    (hloud : ¬ f.kind.Quiet) : mask[k]? = some true := by
  obtain ⟨m, hm⟩ := h.exists_mask hf
  cases m with
  | true => exact hm
  | false => exact absurd (h.spare k f hm hf).quiet hloud

/-- What is read off kept events alone is the same for both lists. -/
theorem filterMap_eq {β : Type} {φ ψ : Event → Option β} (h : Thins a b mask es fs)
    (hkept : ∀ k (f e : Event), mask[k]? = some true → fs[k]? = some f →
      es[rank mask k]? = some e → φ e = ψ f)
    (hspare : ∀ (k : Nat) (f : Event), mask[k]? = some false → fs[k]? = some f → ψ f = none) :
    es.filterMap φ = fs.filterMap ψ := by
  have hprefix : ∀ k ≤ fs.length,
      (es.take (rank mask k)).filterMap φ = (fs.take k).filterMap ψ := by
    intro k
    induction k with
    | zero => exact fun _ => rfl
    | succ k ih =>
      intro hk
      have hf := List.getElem?_eq_getElem hk
      obtain ⟨m, hm⟩ := h.exists_mask hf
      rw [List.take_add_one, List.filterMap_append, ← ih (Nat.le_of_succ_le hk), hf]
      cases m with
      | true =>
        obtain ⟨e, he, -⟩ := h.kept k _ hm hf
        rw [rank_succ_of_true hm, List.take_add_one, List.filterMap_append, he]
        have hone := hkept k _ e hm hf he
        simp [List.filterMap_cons, hone]
      | false =>
        rw [rank_succ_of_false hm]
        simp [hspare k _ hm hf]
  have hall := hprefix fs.length (Nat.le_refl _)
  rw [rank_of_le h.length_eq.le, h.count_eq, List.take_length, List.take_length] at hall
  exact hall

/-- One more event at the end of the full list. -/
theorem concat (h : Thins a b mask es fs) {m : Bool} {es' : List Event} {f : Event}
    (hes : es <+: es') (hcount : es'.length = es.length + [m].count true)
    (hkept : m = true → ∃ e, es'[es.length]? = some e ∧ e.Alike a b f)
    (hspare : m = false → f.Spare b mask fs fs.length)
    (hruns : m = true → ∀ j g, mask[j]? = some true → fs[j]? = some g → g.kind.Forks →
      f.kind.Forks → rank mask j + 1 = es.length → j + 1 < fs.length → g.Apart b f) :
    Thins a b (mask ++ [m]) es' (fs ++ [f]) := by
  have hlen := h.length_eq
  have hlast : rank (mask ++ [m]) fs.length = es.length := by
    rw [← hlen, rank_append _ (Nat.le_refl _), rank_of_le (Nat.le_refl _), h.count_eq]
  have hrank : ∀ {k}, k < fs.length → rank (mask ++ [m]) k = rank mask k :=
    fun hk => rank_append _ (hlen ▸ hk.le)
  have hmask : ∀ {k m'}, k < fs.length → (mask ++ [m])[k]? = some m' → mask[k]? = some m' := by
    intro k m' hk hm'
    rw [List.getElem?_append_left (hlen ▸ hk)] at hm'
    exact hm'
  have hend : ∀ {m'}, (mask ++ [m])[fs.length]? = some m' → m = m' := by
    intro m' hm'
    rw [← hlen, List.getElem?_concat_length] at hm'
    exact Option.some.inj hm'
  refine ⟨?_, ?_, ?_, ?_, ?_⟩
  · rw [List.length_append, List.length_append, hlen]
    rfl
  · rw [List.count_append, h.count_eq, hcount]
  · intro k g hk hg
    rcases getElem?_concat hg with ⟨hlt, hg⟩ | ⟨rfl, rfl⟩
    · obtain ⟨d, hd, halike⟩ := h.kept k g (hmask hlt hk) hg
      rw [hrank hlt]
      obtain ⟨rest, rfl⟩ := hes
      exact ⟨d, by rw [List.getElem?_append_left (List.getElem?_eq_some_iff.1 hd).1, hd], halike⟩
    · rw [hlast]
      exact hkept (hend hk)
  · intro k g hk hg
    rcases getElem?_concat hg with ⟨hlt, hg⟩ | ⟨rfl, rfl⟩
    · exact (h.spare k g (hmask hlt hk) hg).append [m] [f] hlt.le
    · exact (hspare (hend hk)).append [m] [g] (Nat.le_refl _)
  · intro j k g g' hj hk hg hg' hfork hfork' heq hgap
    rcases getElem?_concat hg with ⟨hjlt, hgj⟩ | ⟨rfl, rfl⟩
    · rw [hrank hjlt] at heq
      rcases getElem?_concat hg' with ⟨hlt, hgk⟩ | ⟨rfl, rfl⟩
      · rw [hrank hlt] at heq
        exact h.runs j k g g' (hmask hjlt hj) (hmask hlt hk) hgj hgk hfork hfork' heq hgap
      · rw [hlast] at heq
        exact hruns (hend hk) j g (hmask hjlt hj) hgj hfork hfork' heq.symm hgap
    · have hlt := (List.getElem?_eq_some_iff.1 hg').1
      rw [List.length_append, List.length_singleton] at hlt
      omega

/-- One more event that is kept. -/
theorem keep (h : Thins a b mask es fs) {e f : Event} (halike : e.Alike a b f)
    (hruns : ∀ j g, mask[j]? = some true → fs[j]? = some g → g.kind.Forks → f.kind.Forks →
      rank mask j + 1 = es.length → j + 1 < fs.length → g.Apart b f) :
    Thins a b (mask ++ [true]) (es ++ [e]) (fs ++ [f]) :=
  h.concat (List.prefix_append _ _) List.length_append
    (fun _ => ⟨e, List.getElem?_concat_length, halike⟩) (fun hm => nomatch hm) (fun _ => hruns)

/-- One more event that is left out.  An access repeats a kept event with nothing loud behind it. -/
theorem drop (h : Thins a b mask es fs) {f : Event} (hquiet : f.kind.Quiet)
    (hcovered : f.kind.access?.isSome → ∃ (i : Nat) (e : Event), es[i]? = some e ∧ e.kind = f.kind ∧
      a.Agree b e.node f.node ∧ ∀ l (d : Event), i < l → es[l]? = some d → d.kind.Quiet) :
    Thins a b (mask ++ [false]) es (fs ++ [f]) := by
  refine h.concat (List.prefix_refl _) rfl (fun hm => nomatch hm) (fun _ => ⟨hquiet, ?_⟩)
    (fun hm => nomatch hm)
  intro haccess
  obtain ⟨i, e, he, hkind, ⟨n, hn, hn'⟩, hbehind⟩ := hcovered haccess
  obtain ⟨j, g, hj, rfl, hg, halike⟩ := h.exists_kept he
  have hjoin : ∀ child, g.kind ≠ .join child := by
    intro child hjoin
    rw [← hkind, halike.kind_eq, hjoin] at haccess
    cases haccess
  obtain ⟨n', hn₁, hn₂⟩ := halike.node hjoin
  rw [hn] at hn₁
  cases hn₁
  refine ⟨j, g, (List.getElem?_eq_some_iff.1 hg).1, hj, hg, halike.kind_eq.symm.trans hkind,
    ⟨n, hn₂, hn'⟩, fun l d hjl _ hd => ?_⟩
  obtain ⟨m, hm⟩ := h.exists_mask hd
  cases m with
  | true =>
    obtain ⟨c, hc, hcd⟩ := h.kept l d hm hd
    rw [← hcd.kind_eq]
    exact hbehind _ c (rank_lt hj hjl) hc
  | false => exact (h.spare l d hm hd).quiet

end Thins

end DataRace
