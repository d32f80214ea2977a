import DataRace.Rows
import Mathlib.Data.List.Induction
import Mathlib.Data.List.Nodup
import Mathlib.Tactic.Tauto

/-!
# Changing rows

`Rows.modify` changes one row and leaves the others as they are.  Rows stay in the order of their
numbers (`Rows.Ascending.modify`), and then a lookup answers the changed row for its number and the
old one for every other (`Rows.row_modify`).  What is filled in row by row is what it was filled
with (`Rows.foldl_modify_eq`), and items that are appended one by one stand in the rows of their
numbers as they were given (`Rows.row_gather`).

Adding items that a row does not hold yet keeps the first of equal items
(`Rows.foldl_addNew`).
-/

namespace DataRace

namespace Rows

variable {α : Type} {rows : Rows α}

/-- A changed table has the rows that it had, and the changed row. -/
theorem mem_modify {k j : Nat} {f : List α → List α} {row : List α}
    (h : (j, row) ∈ modify k f rows) :
    (j, row) ∈ rows ∨ j = k ∧ (row = f [] ∨ ∃ old, (k, old) ∈ rows ∧ row = f old) := by
  induction rows with
  | nil =>
    cases List.mem_singleton.1 h
    exact Or.inr ⟨rfl, Or.inl rfl⟩
  | cons r rest ih =>
    obtain ⟨i, old⟩ := r
    unfold modify at h
    split at h
    · rcases List.mem_cons.1 h with h | h
      · cases h
        exact Or.inr ⟨rfl, Or.inl rfl⟩
      · exact Or.inl h
    · split at h
      · next hk =>
        subst hk
        rcases List.mem_cons.1 h with h | h
        · cases h
          exact Or.inr ⟨rfl, Or.inr ⟨old, List.mem_cons_self, rfl⟩⟩
        · exact Or.inl (List.mem_cons_of_mem _ h)
      · rcases List.mem_cons.1 h with h | h
        · cases h
          exact Or.inl List.mem_cons_self
        · rcases ih h with h | ⟨hj, hrow | ⟨old', hold, hrow⟩⟩
          · exact Or.inl (List.mem_cons_of_mem _ h)
          · exact Or.inr ⟨hj, Or.inl hrow⟩
          · exact Or.inr ⟨hj, Or.inr ⟨old', List.mem_cons_of_mem _ hold, hrow⟩⟩

/-- Every row is still there, changed or not. -/
theorem mem_modify_of_mem {k j : Nat} {f : List α → List α} {row : List α}
    (h : (j, row) ∈ rows) : (j, row) ∈ modify k f rows ∨ j = k ∧ (k, f row) ∈ modify k f rows := by
  induction rows with
  | nil => cases h
  | cons r rest ih =>
    obtain ⟨i, old⟩ := r
    unfold modify
    split
    · exact Or.inl (List.mem_cons_of_mem _ h)
    · split
      · next hk =>
        subst hk
        rcases List.mem_cons.1 h with h | h
        · cases h
          exact Or.inr ⟨rfl, List.mem_cons_self⟩
        · exact Or.inl (List.mem_cons_of_mem _ h)
      · rcases List.mem_cons.1 h with h | h
        · cases h
          exact Or.inl List.mem_cons_self
        · rcases ih h with h | ⟨hj, h⟩
          · exact Or.inl (List.mem_cons_of_mem _ h)
          · exact Or.inr ⟨hj, List.mem_cons_of_mem _ h⟩

/-- The changed row is there. -/
theorem exists_mem_modify (k : Nat) (f : List α → List α) (rows : Rows α) :
    ∃ old, (k, f old) ∈ modify k f rows := by
  induction rows with
  | nil => exact ⟨[], List.mem_cons_self⟩
  | cons r rest ih =>
    obtain ⟨i, old⟩ := r
    unfold modify
    split
    · exact ⟨[], List.mem_cons_self⟩
    · split
      · next hk => exact ⟨old, hk ▸ List.mem_cons_self⟩
      · obtain ⟨old', h⟩ := ih
        exact ⟨old', List.mem_cons_of_mem _ h⟩

/-- Rows stand in the order of their numbers, with one row for each. -/
def Ascending (rows : Rows α) : Prop := rows.keys.Pairwise (· < ·)

/-- No rows are in order. -/
theorem Ascending.nil : Ascending ([] : Rows α) := List.Pairwise.nil

/-- A changed table has the numbers that it had and that of the changed row. -/
theorem mem_keys_modify {k j : Nat} {f : List α → List α} :
    j ∈ (modify k f rows).keys ↔ j = k ∨ j ∈ rows.keys := by
  induction rows with
  | nil => simp [modify, keys]
  | cons r rest ih =>
    obtain ⟨i, row⟩ := r
    unfold keys at ih ⊢
    unfold modify
    split
    · simp
    · split
      · next hk => simp [hk]
      · simp only [List.map_cons, List.mem_cons, ih]
        tauto

/-- Changing a row keeps rows in order. -/
theorem Ascending.modify (h : Ascending rows) (k : Nat) (f : List α → List α) :
    Ascending (modify k f rows) := by
  induction rows with
  | nil => simp [Ascending, Rows.modify, keys]
  | cons r rest ih =>
    obtain ⟨i, row⟩ := r
    obtain ⟨hi, hrest⟩ := List.pairwise_cons.1 h
    unfold Rows.modify
    split
    · next hk =>
      refine List.pairwise_cons.2 ⟨fun j hj => ?_, h⟩
      rcases List.mem_cons.1 hj with rfl | hj
      · exact hk
      · exact Nat.lt_trans hk (hi j hj)
    · next hk =>
      split
      · exact List.pairwise_cons.2 ⟨hi, hrest⟩
      · next hne =>
        refine List.pairwise_cons.2 ⟨fun j hj => ?_, ih hrest⟩
        rcases mem_keys_modify.1 hj with rfl | hj
        · omega
        · exact hi j hj

/-- Two rows in order have different numbers. -/
theorem Ascending.exists_two (h : Ascending rows) (hlength : 2 ≤ rows.length) :
    ∃ r ∈ rows, ∃ r' ∈ rows, r.1 ≠ r'.1 := by
  match rows, hlength with
  | r :: r' :: rest, _ =>
    have hlt : r.1 < r'.1 := (List.pairwise_cons.1 h).1 r'.1 List.mem_cons_self
    exact ⟨r, List.mem_cons_self, r', List.mem_cons_of_mem _ List.mem_cons_self, Nat.ne_of_lt hlt⟩

/-! ### Lookups -/

/-- A number without a row has an empty one. -/
theorem row_of_not_mem {k : Nat} (h : k ∉ rows.keys) : rows.row k = [] := by
  have hnone : rows.lookup k = none := by
    rw [List.lookup_eq_none_iff]
    intro r hr
    rw [bne_iff_ne]
    exact fun heq => h (heq ▸ List.mem_map_of_mem hr)
  rw [row, hnone]
  rfl

/-- The row of the first number. -/
theorem row_cons_self (k : Nat) (l : List α) (rows : Rows α) : row ((k, l) :: rows) k = l := by
  rw [row, List.lookup_cons_self]
  rfl

/-- The row of another number than the first. -/
theorem row_cons_of_ne {k j : Nat} (h : j ≠ k) (l : List α) (rows : Rows α) :
    row ((k, l) :: rows) j = row rows j := by
  rw [row, List.lookup_cons, beq_false_of_ne h]
  rfl

/-- What is found after a change. -/
theorem row_modify (h : Ascending rows) (k j : Nat) (f : List α → List α) :
    (modify k f rows).row j = if j = k then f (rows.row k) else rows.row j := by
  induction rows with
  | nil =>
    split
    · next heq =>
      subst heq
      exact row_cons_self j (f []) []
    · next hne => exact row_cons_of_ne hne (f []) []
  | cons r rest ih =>
    obtain ⟨i, l⟩ := r
    obtain ⟨hi, hrest⟩ := List.pairwise_cons.1 h
    unfold modify
    split
    · next hk =>
      have hnone : k ∉ keys ((i, l) :: rest) := by
        intro hmem
        rcases List.mem_cons.1 hmem with rfl | hmem
        · exact Nat.lt_irrefl _ hk
        · exact Nat.lt_asymm hk (hi k hmem)
      rw [row_of_not_mem hnone]
      split
      · next heq =>
        subst heq
        exact row_cons_self j (f []) _
      · next hne => exact row_cons_of_ne hne (f []) _
    · split
      · next hk =>
        subst hk
        rw [row_cons_self]
        split
        · next heq =>
          subst heq
          exact row_cons_self j (f l) rest
        · next hne => rw [row_cons_of_ne hne, row_cons_of_ne hne]
      · next hk =>
        rw [row_cons_of_ne hk]
        by_cases hji : j = i
        · subst hji
          rw [row_cons_self, row_cons_self, if_neg fun heq => hk heq.symm]
        · rw [row_cons_of_ne hji, row_cons_of_ne hji]
          exact ih hrest

/-! ### Filling -/

/-- Changing a row twice. -/
theorem modify_modify (k : Nat) (f g : List α → List α) (rows : Rows α) :
    modify k g (modify k f rows) = modify k (fun l => g (f l)) rows := by
  induction rows with
  | nil => simp [modify]
  | cons r rest ih =>
    obtain ⟨i, l⟩ := r
    by_cases hlt : k < i
    · simp [modify, hlt]
    · by_cases heq : k = i
      · simp [modify, heq]
      · simp [modify, hlt, heq, ih]

/-- A row behind all others is made at the end. -/
theorem modify_of_forall_lt {k : Nat} (h : ∀ j ∈ rows.keys, j < k) (f : List α → List α) :
    modify k f rows = rows ++ [(k, f [])] := by
  induction rows with
  | nil => rfl
  | cons r rest ih =>
    obtain ⟨i, l⟩ := r
    have hi : i < k := h i List.mem_cons_self
    rw [modify, if_neg (Nat.lt_asymm hi), if_neg (Nat.ne_of_gt hi),
      ih fun j hj => h j (List.mem_cons_of_mem _ hj)]
    rfl

/-- Rows in order that are filled in one by one, each with what it holds, come out as they were. -/
theorem foldl_modify_eq (h : Ascending rows) {f : Nat × List α → List α → List α}
    (hf : ∀ r ∈ rows, f r [] = r.2) : rows.foldl (fun t r => modify r.1 (f r) t) [] = rows := by
  induction rows using List.reverseRecOn with
  | nil => rfl
  | append_singleton rows r ih =>
    rw [Ascending, keys, List.map_append, List.pairwise_append] at h
    obtain ⟨hrows, -, hlast⟩ := h
    have hlt : ∀ j ∈ keys rows, j < r.1 := fun j hj => hlast j hj r.1 List.mem_cons_self
    rw [List.foldl_append, ih hrows fun q hq => hf q (List.mem_append_left _ hq), List.foldl_cons,
      List.foldl_nil, modify_of_forall_lt hlt, hf r (List.mem_append_right _ List.mem_cons_self)]

/-! ### Gathering -/

/-- Appends items one by one, each to the row of its number. -/
def gather (key : α → Nat) (rows : Rows α) (l : List α) : Rows α :=
  l.foldl (fun rows a => modify (key a) (· ++ [a]) rows) rows

variable {key : α → Nat} {l : List α}

/-- Gathering items keeps rows in order. -/
theorem Ascending.gather (h : Ascending rows) : Ascending (gather key rows l) :=
  List.foldlRecOn l _ h fun _ h a _ => h.modify (key a) _

/-- The row of a number gets the items of the number, in their order. -/
theorem row_gather (h : Ascending rows) (k : Nat) :
    (gather key rows l).row k = rows.row k ++ l.filter fun a => key a = k := by
  induction l generalizing rows with
  | nil => exact (List.append_nil _).symm
  | cons a l ih =>
    refine (ih (h.modify (key a) (· ++ [a]))).trans ?_
    rw [row_modify h, List.filter_cons]
    by_cases hkey : key a = k
    · simp [hkey]
    · simp [hkey, Ne.symm hkey]

/-- There are rows for the numbers of the items. -/
theorem mem_keys_gather {k : Nat} :
    k ∈ (gather key rows l).keys ↔ k ∈ rows.keys ∨ ∃ a ∈ l, key a = k := by
  induction l generalizing rows with
  | nil => simp [gather]
  | cons a l ih =>
    refine ih.trans ?_
    rw [mem_keys_modify, List.exists_mem_cons_iff, eq_comm (a := k)]
    tauto

/-! ### Items without repetitions -/

variable [DecidableEq α]

/-- Adding items in order keeps the first of equal ones. -/
theorem foldl_addNew (l : List α) : l.foldl addNew [] = l.eraseDups := by
  induction l using List.reverseRecOn with
  | nil => rfl
  | append_singleton l a ih =>
    rw [List.foldl_append, ih, List.eraseDups_append, List.foldl_cons, List.foldl_nil, addNew]
    split
    · next hmem =>
      rw [List.mem_eraseDups] at hmem
      simp [List.removeAll, hmem]
    · next hmem =>
      rw [List.mem_eraseDups] at hmem
      simp [List.removeAll, hmem, List.eraseDups_cons]

/-- Different items are all kept. -/
theorem foldl_addNew_of_nodup {l : List α} (h : l.Nodup) : l.foldl addNew [] = l := by
  induction l using List.reverseRecOn with
  | nil => rfl
  | append_singleton l a ih =>
    obtain ⟨hl, -, hdisjoint⟩ := List.nodup_append.1 h
    rw [List.foldl_append, ih hl, List.foldl_cons, List.foldl_nil, addNew, if_neg]
    exact fun hmem => hdisjoint a hmem a List.mem_cons_self rfl

/-- Adding an item leaves no repetition. -/
theorem nodup_addNew {l : List α} (h : l.Nodup) (a : α) : (addNew l a).Nodup := by
  unfold addNew
  split
  · exact h
  · next hmem =>
    rw [List.nodup_append]
    refine ⟨h, List.nodup_singleton a, fun b hb c hc heq => hmem ?_⟩
    rw [← List.mem_singleton.1 hc, ← heq]
    exact hb

/-- What is held when items were added. -/
theorem mem_foldl_addNew {l items : List α} {a : α} :
    a ∈ items.foldl addNew l ↔ a ∈ l ∨ a ∈ items := by
  induction items generalizing l with
  | nil => simp
  | cons b items ih =>
    have hstep : a ∈ addNew l b ↔ a ∈ l ∨ a = b := by
      unfold addNew
      split
      · next hmem =>
        refine ⟨Or.inl, ?_⟩
        rintro (h | rfl)
        · exact h
        · exact hmem
      · rw [List.mem_append, List.mem_singleton]
    rw [List.foldl_cons, ih, hstep, List.mem_cons, or_assoc]

/-- A step that adds the items of an entry to the row of its number. -/
def AddsTo (step : Rows α → Nat × List α → Rows α) : Prop :=
  ∀ rows e, Ascending rows → Ascending (step rows e) ∧
    ∀ j, (step rows e).row j = if j = e.1 then e.2.foldl addNew (rows.row j) else rows.row j

/-- Adding entry by entry, the row of a number is added the items of all its entries in order. -/
theorem AddsTo.row_foldl {step : Rows α → Nat × List α → Rows α} (hstep : AddsTo step)
    (hrows : Ascending rows) (entries : List (Nat × List α)) (j : Nat) :
    (entries.foldl step rows).row j =
      ((entries.filter fun e => e.1 = j).flatMap Prod.snd).foldl addNew (rows.row j) := by
  induction entries generalizing rows with
  | nil => rfl
  | cons e entries ih =>
    obtain ⟨hasc, hrow⟩ := hstep rows e hrows
    rw [List.foldl_cons, ih hasc, hrow]
    by_cases heq : e.1 = j
    · have hfilter : (e :: entries).filter (fun e => e.1 = j) =
          e :: entries.filter fun e => e.1 = j := List.filter_cons_of_pos (decide_eq_true heq)
      rw [if_pos heq.symm, hfilter, List.flatMap_cons, List.foldl_append]
    · have hfilter : (e :: entries).filter (fun e => e.1 = j) = entries.filter fun e => e.1 = j :=
        List.filter_cons_of_neg (by simpa using heq)
      rw [if_neg (Ne.symm heq), hfilter]

/-- Changes the row of an entry once, by all its items. -/
def extend (rows : Rows α) (e : Nat × List α) : Rows α :=
  modify e.1 (fun l => e.2.foldl addNew l) rows

/-- Changes the row of an entry item by item. -/
def extendEach (rows : Rows α) (e : Nat × List α) : Rows α :=
  e.2.foldl (fun rows a => modify e.1 (fun l => addNew l a) rows) rows

/-- Changing the row once adds the items of an entry. -/
theorem addsTo_extend : AddsTo (@extend α _) := by
  intro rows e hrows
  refine ⟨hrows.modify _ _, fun j => ?_⟩
  rw [extend, row_modify hrows]
  split
  · next heq => rw [heq]
  · rfl

/-- So does changing it item by item. -/
theorem addsTo_extendEach : AddsTo (@extendEach α _) := by
  rintro rows ⟨k, items⟩ hrows
  induction items generalizing rows with
  | nil => exact ⟨hrows, fun j => (ite_self _).symm⟩
  | cons a items ih =>
    obtain ⟨hasc, hrow⟩ := ih _ (hrows.modify k fun l => addNew l a)
    refine ⟨hasc, fun j => (hrow j).trans ?_⟩
    dsimp only
    rw [row_modify hrows]
    split
    · next heq => rw [heq, List.foldl_cons]
    · rfl

/-- Changing a row item by item is changing it once, unless there is no item. -/
theorem extendEach_eq_extend {e : Nat × List α} (h : e.2 ≠ []) (rows : Rows α) :
    extendEach rows e = extend rows e := by
  obtain ⟨k, items⟩ := e
  induction items using List.reverseRecOn with
  | nil => exact absurd rfl h
  | append_singleton items a ih =>
    unfold extendEach extend at ih ⊢
    dsimp only at ih ⊢
    rw [List.foldl_append]
    rcases items.eq_nil_or_concat with rfl | ⟨_, _, rfl⟩
    · rfl
    · rw [ih (by simp), List.foldl_cons, List.foldl_nil, modify_modify]
      simp only [List.foldl_append]
      rfl

/-- Rows in order without repetitions come out as they were when they are filled in. -/
theorem foldl_extend_eq (h : Ascending rows) (hnodup : ∀ r ∈ rows, r.2.Nodup) :
    rows.foldl extend [] = rows :=
  foldl_modify_eq h fun r hr => foldl_addNew_of_nodup (hnodup r hr)

end Rows

end DataRace
