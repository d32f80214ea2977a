import Mathlib.Data.List.Forall2

/-!
# Steps that may fail

When chains of steps that may fail succeed: `Except.bind_eq_ok` for two steps, `Except.mapM_eq_ok`
for one step on each member of a list.  And with which errors they may fail: `Except.Only` says that
all errors of a step are of some kind, and chains of such steps are such steps.
-/

namespace DataRace

/-- A chain of two steps succeeds exactly if the first succeeds and the second does on its
answer. -/
theorem Except.bind_eq_ok {ε α β : Type} {x : Except ε α} {f : α → Except ε β} {b : β} :
    x >>= f = .ok b ↔ ∃ a, x = .ok a ∧ f a = .ok b := by
  cases x with
  | error e =>
    constructor
    · intro h
      cases h
    · rintro ⟨a, h, -⟩
      cases h
  | ok a =>
    constructor
    · intro h
      exact ⟨a, rfl, h⟩
    · rintro ⟨a', h, hf⟩
      cases h
      exact hf

/-- A mapped step succeeds exactly if the step does. -/
theorem Except.map_eq_ok {ε α β : Type} {x : Except ε α} {f : α → β} {b : β} :
    f <$> x = .ok b ↔ ∃ a, x = .ok a ∧ f a = b := by
  cases x with
  | error e =>
    constructor
    · intro h
      cases h
    · rintro ⟨a, h, -⟩
      cases h
  | ok a =>
    constructor
    · intro h
      cases h
      exact ⟨a, rfl, rfl⟩
    · rintro ⟨a', h, rfl⟩
      cases h
      rfl

/-- What goes on with an answer succeeds if it does so with the answer that is there. -/
theorem Except.exists_bind {ε α β : Type} {x : Except ε α} {a : α} {f : α → Except ε β}
    (hx : x = .ok a) (h : ∃ b, f a = .ok b) : ∃ b, (x >>= f) = .ok b := by
  obtain ⟨b, hb⟩ := h
  exact ⟨b, Except.bind_eq_ok.2 ⟨a, hx, hb⟩⟩

/-- Running a check on each member of a list succeeds exactly if it answers for each member. -/
theorem Except.mapM_eq_ok {ε α β : Type} {f : α → Except ε β} {l : List α} {bs : List β} :
    l.mapM f = .ok bs ↔ List.Forall₂ (fun a b => f a = .ok b) l bs := by
  induction l generalizing bs with
  | nil =>
    rw [List.mapM_nil, List.forall₂_nil_left_iff]
    constructor
    · rintro ⟨⟩
      rfl
    · rintro rfl
      rfl
  | cons a l ih =>
    rw [List.mapM_cons, Except.bind_eq_ok]
    constructor
    · rintro ⟨b, hb, h⟩
      obtain ⟨bs', hbs', h⟩ := Except.bind_eq_ok.1 h
      cases h
      exact .cons hb (ih.1 hbs')
    · rintro (_ | ⟨hb, hbs⟩)
      exact ⟨_, hb, Except.bind_eq_ok.2 ⟨_, ih.2 hbs, rfl⟩⟩

/-- A check that succeeds on each member of a list succeeds on the list. -/
theorem Except.exists_mapM_eq_ok {ε α β : Type} {f : α → Except ε β} {l : List α}
    (h : ∀ a ∈ l, ∃ b, f a = .ok b) : ∃ bs, l.mapM f = .ok bs := by
  induction l with
  | nil => exact ⟨[], rfl⟩
  | cons a l ih =>
    obtain ⟨b, hb⟩ := h a List.mem_cons_self
    obtain ⟨bs, hbs⟩ := ih fun a' ha' => h a' (List.mem_cons_of_mem _ ha')
    exact ⟨b :: bs, Except.mapM_eq_ok.2 (.cons hb (Except.mapM_eq_ok.1 hbs))⟩

/-- The answers of a check on the members of a list are its answers for single members. -/
theorem Except.mem_mapM {ε α β : Type} {f : α → Except ε β} {l : List α} {bs : List β}
    (h : l.mapM f = .ok bs) {b : β} : b ∈ bs ↔ ∃ a ∈ l, f a = .ok b := by
  have hall := Except.mapM_eq_ok.1 h
  clear h
  induction hall with
  | nil => simp
  | @cons a b' l bs' hb hrest ih =>
    refine List.mem_cons.trans ((or_congr_right ih).trans ?_)
    constructor
    · rintro (rfl | ⟨a', ha', hb'⟩)
      · exact ⟨a, List.mem_cons_self, hb⟩
      · exact ⟨a', List.mem_cons_of_mem _ ha', hb'⟩
    · rintro ⟨a', ha', hb'⟩
      rcases List.mem_cons.1 ha' with rfl | ha'
      · rw [hb] at hb'
        cases hb'
        exact Or.inl rfl
      · exact Or.inr ⟨a', ha', hb'⟩

/-! ### Kinds of errors -/

/-- A chain of two steps fails exactly if the first does, or the second on its answer. -/
theorem Except.bind_eq_error {ε α β : Type} {x : Except ε α} {f : α → Except ε β} {e : ε} :
    x >>= f = .error e ↔ x = .error e ∨ ∃ a, x = .ok a ∧ f a = .error e := by
  cases x with
  | error e' =>
    constructor
    · intro h
      cases h
      exact Or.inl rfl
    · rintro (h | ⟨a, h, -⟩)
      · cases h
        rfl
      · cases h
  | ok a =>
    constructor
    · exact fun h => Or.inr ⟨a, rfl, h⟩
    · rintro (h | ⟨a', h, hf⟩)
      · cases h
      · cases h
        exact hf

/-- A step that fails only with errors of a kind. -/
def Except.Only {ε α : Type} (P : ε → Prop) (x : Except ε α) : Prop := ∀ e, x = .error e → P e

namespace Except.Only

variable {ε α β : Type} {P : ε → Prop}

/-- A step that succeeds. -/
theorem ok (a : α) : Except.Only P (.ok a) := nofun

/-- A step that fails with an error of the kind. -/
theorem error {e : ε} (h : P e) : Except.Only P (.error e : Except ε α) := by
  rintro e ⟨⟩
  exact h

/-- A chain of two steps. -/
theorem bind {x : Except ε α} {f : α → Except ε β} (hx : Except.Only P x)
    (hf : ∀ a, Except.Only P (f a)) : Except.Only P (x >>= f) := by
  intro e h
  rcases Except.bind_eq_error.1 h with h | ⟨a, -, h⟩
  · exact hx e h
  · exact hf a e h

/-- A mapped step. -/
theorem map {x : Except ε α} (hx : Except.Only P x) (f : α → β) : Except.Only P (f <$> x) := by
  cases x with
  | error e => exact .error (hx e rfl)
  | ok a => exact .ok (f a)

/-- A step on each member of a list. -/
theorem mapM {f : α → Except ε β} (hf : ∀ a, Except.Only P (f a)) (l : List α) :
    Except.Only P (l.mapM f) := by
  induction l with
  | nil => exact .ok []
  | cons a l ih =>
    rw [List.mapM_cons]
    exact (hf a).bind fun b => ih.bind fun bs => .ok (b :: bs)

/-- A step for each member of a list, each on the answer of the one before. -/
theorem foldlM {f : β → α → Except ε β} (hf : ∀ b a, Except.Only P (f b a)) (l : List α) (b : β) :
    Except.Only P (l.foldlM f b) := by
  induction l generalizing b with
  | nil => exact .ok b
  | cons a l ih =>
    rw [List.foldlM_cons]
    exact (hf b a).bind ih

end Except.Only

end DataRace
