import DataRace.Proofs.Locks.Held

/-!
# Classes of locks

Must-aliasing is an equivalence among the operands that are not null, and a null pointer aliases
nothing, not even itself.  So a lock operand names a class of locks (`PointsTo.LockClass`) or is
null.  `PointsTo.SurelySame` spells must-aliasing out.

A release drops the latest held lock of its class and leaves all others alone.  The held locks of a
class are those that its own operations push and drop, as if there were no other classes
(`LockSets.filter_ofClass_heldAfter`), and null locks stay (`LockSets.filter_isNull_heldAfter`).
Two events share a lock if they hold locks of a common class.

`LockSets.Holds` says which locks an event holds without any lists of held locks: a counter of the
operations on the lock is positive there.
-/

namespace DataRace

/-! ### Operands that must alias -/

namespace PointsTo

variable {t : PointsTo} {a b c : Operand}

/-- Values must alias if they are equal or point to one object, which is the same. -/
theorem mustAlias_iff {v w : ValueId} :
    t.mustAlias v w = true ↔ v = w ∨ ∃ o, t.objects v = [o] ∧ t.objects w = [o] := by
  unfold mustAlias
  rw [Bool.or_eq_true, beq_iff_eq]
  refine or_congr_right ?_
  constructor
  · intro h
    split at h
    · next x y hx hy => exact ⟨x, hx, by rw [hy, ← beq_iff_eq.1 h]⟩
    · cases h
  · rintro ⟨o, hv, hw⟩
    rw [hv, hw]
    exact beq_self_eq_true o

/-- Operands that certainly denote one and the same: one value, two values that point to a single
object, which is the same, one routine, one result, or one constant. -/
inductive SurelySame (t : PointsTo) : Operand → Operand → Prop
  | value (v : ValueId) : SurelySame t (.value v) (.value v)
  | object {v w : ValueId} {o : ObjectId} (hv : t.objects v = [o]) (hw : t.objects w = [o]) :
      SurelySame t (.value v) (.value w)
  | routine (name : String) : SurelySame t (.routine name) (.routine name)
  | result (i : InstId) : SurelySame t (.result i) (.result i)
  | const (k : Int) : SurelySame t (.const k) (.const k)

/-- Operands must alias exactly if they certainly denote one and the same. -/
theorem operandsMustAlias_iff_surelySame : t.operandsMustAlias a b = true ↔ t.SurelySame a b := by
  constructor
  · intro h
    unfold operandsMustAlias at h
    split at h
    · rcases mustAlias_iff.1 h with rfl | ⟨o, hv, hw⟩
      · exact .value _
      · exact .object hv hw
    · exact beq_iff_eq.1 h ▸ .routine _
    · exact beq_iff_eq.1 h ▸ .result _
    · exact beq_iff_eq.1 h ▸ .const _
    · cases h
  · intro h
    cases h with
    | value v => exact mustAlias_iff.2 (Or.inl rfl)
    | object hv hw => exact mustAlias_iff.2 (Or.inr ⟨_, hv, hw⟩)
    | routine | result | const => exact beq_self_eq_true _

instance (t : PointsTo) (a b : Operand) : Decidable (t.SurelySame a b) :=
  decidable_of_iff _ operandsMustAlias_iff_surelySame

/-- Values that must alias do so both ways. -/
theorem mustAlias_symm {v w : ValueId} (h : t.mustAlias v w = true) : t.mustAlias w v = true :=
  mustAlias_iff.2 ((mustAlias_iff.1 h).imp Eq.symm fun ⟨o, hv, hw⟩ => ⟨o, hw, hv⟩)

/-- What must alias a third must alias. -/
theorem mustAlias_trans {u v w : ValueId} (h : t.mustAlias u v = true)
    (h' : t.mustAlias v w = true) : t.mustAlias u w = true := by
  rcases mustAlias_iff.1 h with rfl | ⟨o, hu, hv⟩
  · exact h'
  · rcases mustAlias_iff.1 h' with rfl | ⟨o', hv', hw⟩
    · exact h
    · rw [hv] at hv'
      cases hv'
      exact mustAlias_iff.2 (Or.inr ⟨o, hu, hw⟩)

/-- An operand must alias itself unless it is null. -/
theorem operandsMustAlias_self_iff : t.operandsMustAlias a a = true ↔ a ≠ .null := by
  cases a <;> simp [operandsMustAlias, mustAlias]

/-- Operands that must alias do so both ways. -/
theorem operandsMustAlias_symm (h : t.operandsMustAlias a b = true) :
    t.operandsMustAlias b a = true := by
  unfold operandsMustAlias at h ⊢
  split at h
  · exact mustAlias_symm h
  · exact beq_iff_eq.2 (beq_iff_eq.1 h).symm
  · exact beq_iff_eq.2 (beq_iff_eq.1 h).symm
  · exact beq_iff_eq.2 (beq_iff_eq.1 h).symm
  · cases h

/-- Operands that must alias a third must alias. -/
theorem operandsMustAlias_trans (h : t.operandsMustAlias a b = true)
    (h' : t.operandsMustAlias b c = true) : t.operandsMustAlias a c = true := by
  cases b with
  | value v =>
    cases a <;> cases c <;> first | exact mustAlias_trans h h' | cases h | cases h'
  | routine f =>
    cases a <;> cases c <;> first
      | exact beq_iff_eq.2 ((beq_iff_eq.1 h).trans (beq_iff_eq.1 h')) | cases h | cases h'
  | result i =>
    cases a <;> cases c <;> first
      | exact beq_iff_eq.2 ((beq_iff_eq.1 h).trans (beq_iff_eq.1 h')) | cases h | cases h'
  | const n =>
    cases a <;> cases c <;> first
      | exact beq_iff_eq.2 ((beq_iff_eq.1 h).trans (beq_iff_eq.1 h')) | cases h | cases h'
  | null => cases h'

/-- Operands that name a lock are those that must alias themselves. -/
abbrev LockOperand := { x : Operand // x ≠ .null }

/-- Operands name one lock if they must alias. -/
def lockSetoid (t : PointsTo) : Setoid LockOperand where
  r x y := t.operandsMustAlias x.1 y.1 = true
  iseqv := ⟨fun x => operandsMustAlias_self_iff.2 x.2, operandsMustAlias_symm,
    operandsMustAlias_trans⟩

/-- A class of operands that name one lock. -/
def LockClass (t : PointsTo) : Type := Quotient t.lockSetoid

instance (t : PointsTo) : DecidableEq t.LockClass :=
  have (x y : LockOperand) : Decidable (t.lockSetoid.r x y) :=
    inferInstanceAs (Decidable (t.operandsMustAlias x.1 y.1 = true))
  inferInstanceAs (DecidableEq (Quotient t.lockSetoid))

/-- The class of an operand, unless it is null. -/
def classOf? (t : PointsTo) (x : Operand) : Option t.LockClass :=
  if h : x = .null then none else some (Quotient.mk t.lockSetoid ⟨x, h⟩)

/-- Operands must alias if they are of one class. -/
theorem operandsMustAlias_iff :
    t.operandsMustAlias a b = true ↔ ∃ C, t.classOf? a = some C ∧ t.classOf? b = some C := by
  unfold classOf?
  constructor
  · intro h
    have ha : a ≠ .null := operandsMustAlias_self_iff.1
      (operandsMustAlias_trans h (operandsMustAlias_symm h))
    have hb : b ≠ .null := operandsMustAlias_self_iff.1
      (operandsMustAlias_trans (operandsMustAlias_symm h) h)
    refine ⟨_, dif_neg ha, ?_⟩
    rw [dif_neg hb]
    exact congrArg some (Quotient.sound (s := t.lockSetoid) (operandsMustAlias_symm h))
  · rintro ⟨C, ha, hb⟩
    split at ha
    · cases ha
    · split at hb
      · cases hb
      · exact Quotient.exact (Option.some.inj (ha.trans hb.symm))

end PointsTo

/-- An event that acquires or releases a lock is of a lock or unlock node. -/
theorem EventKind.category_of_isLocking {k : EventKind} (h : k.isLocking = true) :
    k.category = .lock ∨ k.category = .unlock := by
  cases k with
  | lock => exact Or.inl rfl
  | unlock => exact Or.inr rfl
  | read | write | free | fork | join | barrier | call | «return» => cases h

/-- Lock and unlock nodes have a lock. -/
theorem Node.exists_lock {n : Node} (h : n.category = .lock ∨ n.category = .unlock) :
    ∃ x, n.lock? = some x := by
  obtain ⟨site, effect⟩ := n
  cases effect with
  | lock | unlock => exact ⟨_, rfl⟩
  | read | write | free | fork | join | barrier | call => rcases h with h | h <;> cases h

namespace LockSets

variable {t : Trace} {C : t.pointsTo.LockClass} {a b : NodeId} {es : List Event}

/-! ### Nodes of a class -/

/-- The class of the lock that a node acquires or releases. -/
def classOf? (t : Trace) (id : NodeId) : Option t.pointsTo.LockClass :=
  lockOf t id >>= t.pointsTo.classOf?

/-- Whether a node acquires or releases a lock of a class. -/
def ofClass (t : Trace) (C : t.pointsTo.LockClass) (id : NodeId) : Bool := classOf? t id = some C

/-- Whether a node acquires or releases a null lock. -/
def isNull (t : Trace) (id : NodeId) : Bool := lockOf t id = some .null

/-- Nodes are compared by their classes. -/
theorem sameLock_iff : sameLock t (lockOf t a) (lockOf t b) = true ↔
    ∃ C, ofClass t C a = true ∧ ofClass t C b = true := by
  unfold ofClass classOf? sameLock
  simp only [decide_eq_true_eq]
  cases lockOf t a with
  | none => simp
  | some x =>
    cases lockOf t b with
    | none => simp
    | some y => exact PointsTo.operandsMustAlias_iff

/-- A node has one class. -/
theorem ofClass_unique {D : t.pointsTo.LockClass} (hC : ofClass t C a = true)
    (hD : ofClass t D a = true) : C = D :=
  Option.some.inj ((of_decide_eq_true hC).symm.trans (of_decide_eq_true hD))

/-- A null lock has no class. -/
theorem ofClass_eq_false_of_isNull (h : isNull t a = true) : ofClass t C a = false := by
  unfold ofClass classOf?
  rw [of_decide_eq_true h]
  rfl

/-- What is compared with a node of a class is looked for in that class. -/
theorem sameLock_eq_ofClass (h : ofClass t C b = true) :
    sameLock t (lockOf t a) (lockOf t b) = ofClass t C a := by
  rw [Bool.eq_iff_iff, sameLock_iff]
  constructor
  · rintro ⟨D, ha, hb⟩
    rw [ofClass_unique h hb]
    exact ha
  · exact fun ha => ⟨C, ha, h⟩

/-! ### Releasing -/

/-- Of those that pass the test the last one is gone. -/
theorem filter_eraseLast_self {α : Type} (p : α → Bool) (l : List α) :
    (eraseLast p l).filter p = (l.filter p).dropLast := by
  have herase : ∀ k : List α, (k.eraseP p).filter p = (k.filter p).tail := by
    intro k
    induction k with
    | nil => rfl
    | cons x k ih => by_cases hx : p x = true <;> simp [hx, ih]
  unfold eraseLast
  rw [List.filter_reverse, herase, List.filter_reverse, List.tail_reverse, List.reverse_reverse]

/-- Of those that fail the test all stay. -/
theorem filter_eraseLast_of_disjoint {α : Type} {p q : α → Bool}
    (h : ∀ x, q x = true → p x = false) (l : List α) : (eraseLast p l).filter q = l.filter q := by
  have herase : ∀ k : List α, (k.eraseP p).filter q = k.filter q := by
    intro k
    induction k with
    | nil => rfl
    | cons x k ih =>
      by_cases hx : p x = true
      · have hq : ¬ q x = true := fun hq => by rw [h x hq] at hx; cases hx
        simp [hx, hq]
      · by_cases hq : q x = true <;> simp [hx, hq, ih]
  unfold eraseLast
  rw [List.filter_reverse, herase, List.filter_reverse, List.reverse_reverse]

/-! ### The operations on a class -/

/-- Whether an event acquires or releases a lock of a class. -/
def operates (t : Trace) (C : t.pointsTo.LockClass) (e : Event) : Bool :=
  e.kind.isLocking && ofClass t C e.node

/-- What is held if every release drops the latest lock. -/
def stack (es : List Event) : List NodeId :=
  es.foldl (fun held e =>
    match e.kind with
    | .lock => held ++ [e.node]
    | .unlock => held.dropLast
    | _ => held) []

/-- A counter that goes up at each acquisition and down at each release, but not below zero. -/
def tally (es : List Event) : Nat :=
  es.foldl (fun n e =>
    match e.kind with
    | .lock => n + 1
    | .unlock => n - 1
    | _ => n) 0

/-- The counter counts what is held. -/
theorem length_stack (es : List Event) : (stack es).length = tally es := by
  induction es using List.reverseRecOn with
  | nil => rfl
  | append_singleton es e ih =>
    unfold stack tally at ih ⊢
    rw [List.foldl_append, List.foldl_append, List.foldl_cons, List.foldl_cons, ← ih]
    dsimp only [List.foldl_nil]
    split
    · rw [List.length_append, List.length_singleton]
    · rw [List.length_dropLast]
    · rfl

/-- The held locks of a class depend on the operations on that class only. -/
theorem filter_ofClass_heldAfter (t : Trace) (C : t.pointsTo.LockClass) (es : List Event) :
    (heldAfter t es).filter (ofClass t C) = stack (es.filter (operates t C)) := by
  induction es using List.reverseRecOn with
  | nil => rfl
  | append_singleton es e ih =>
    rw [heldAfter_concat, List.filter_append]
    unfold stack at ih ⊢
    rw [List.foldl_append, ← ih]
    generalize heldAfter t es = held
    unfold step
    by_cases hclass : ofClass t C e.node = true
    · cases hkind : e.kind with
      | lock => simp [operates, EventKind.isLocking, hkind, hclass]
      | unlock =>
        have hsame : (fun id => sameLock t (lockOf t id) (lockOf t e.node)) = ofClass t C :=
          funext fun id => sameLock_eq_ofClass hclass
        simp [operates, EventKind.isLocking, hkind, hclass, hsame, filter_eraseLast_self]
      | read | write | free | fork | join | barrier | call | «return» =>
        simp [operates, EventKind.isLocking, hkind]
    · have hother : ∀ id, ofClass t C id = true →
          sameLock t (lockOf t id) (lockOf t e.node) = false := by
        intro id hid
        rw [← Bool.not_eq_true, sameLock_iff]
        rintro ⟨D, hD, he⟩
        exact hclass (ofClass_unique hid hD ▸ he)
      have hskip : [e].filter (operates t C) = [] := by simp [operates, hclass]
      rw [hskip, List.foldl_nil]
      split
      · rw [List.filter_append, List.filter_cons_of_neg hclass, List.filter_nil, List.append_nil]
      · exact filter_eraseLast_of_disjoint hother held
      · rfl

/-- Null locks stay held. -/
theorem filter_isNull_heldAfter (t : Trace) (es : List Event) :
    (heldAfter t es).filter (isNull t) = (acquired es).filter (isNull t) := by
  induction es using List.reverseRecOn with
  | nil => rfl
  | append_singleton es e ih =>
    have hnull : ∀ id, isNull t id = true →
        sameLock t (lockOf t id) (lockOf t e.node) = false := by
      intro id hid
      rw [← Bool.not_eq_true, sameLock_iff]
      rintro ⟨D, hD, -⟩
      rw [ofClass_eq_false_of_isNull hid] at hD
      cases hD
    rw [heldAfter_concat]
    unfold step
    split
    · next hkind =>
      rw [acquired_concat_of_lock es hkind, List.filter_append, List.filter_append, ih]
    · next hkind =>
      rw [acquired_concat_of_ne es (by simp [hkind]), filter_eraseLast_of_disjoint hnull, ih]
    · next hlock _ => rw [acquired_concat_of_ne es hlock, ih]

/-- A node of a lock or unlock event has a lock, which is null or of some class. -/
theorem isNull_or_ofClass (ht : t.WellFormed) {r : EventRef} {e : Event}
    (he : t.event? r = some e) (hlocking : e.kind.isLocking = true) :
    isNull t e.node = true ∨ ∃ C, ofClass t C e.node = true := by
  obtain ⟨n, hn, hcategory⟩ := (ht.fits_event? he).node
  obtain ⟨x, hx⟩ := Node.exists_lock (hcategory ▸ EventKind.category_of_isLocking hlocking)
  have hlock : lockOf t e.node = some x := by
    unfold lockOf
    rw [hn]
    exact hx
  unfold isNull ofClass classOf?
  rw [hlock]
  by_cases hnull : x = .null
  · exact Or.inl (decide_eq_true (congrArg some hnull))
  · exact Or.inr ⟨_, decide_eq_true (dif_neg hnull)⟩

/-- Two events share a lock if they hold locks of a common class. -/
theorem sharesLock_iff {r q : EventRef} : sharesLock t (ofTrace t) r q = true ↔
    ∃ C, (∃ x ∈ (ofTrace t).heldAt r, ofClass t C x = true) ∧
      ∃ y ∈ (ofTrace t).heldAt q, ofClass t C y = true := by
  unfold sharesLock
  simp only [List.any_eq_true, sameLock_iff]
  constructor
  · rintro ⟨x, hx, y, hy, C, hxC, hyC⟩
    exact ⟨C, ⟨x, hx, hxC⟩, y, hy, hyC⟩
  · rintro ⟨C, ⟨x, hx, hxC⟩, y, hy, hyC⟩
    exact ⟨x, hx, y, hy, C, hxC, hyC⟩

/-- Whether an event acquires or releases a lock. -/
def handles (t : Trace) (x : Operand) (e : Event) : Bool :=
  e.kind.isLocking &&
    ((t.arena.get? e.node).bind Node.lock?).any fun y => decide (t.pointsTo.SurelySame x y)

/-- The events that acquire or release a lock are the operations on its class. -/
theorem handles_eq_operates {x : Operand} (hx : t.pointsTo.classOf? x = some C) :
    handles t x = operates t C := by
  funext e
  have hlock : (t.arena.get? e.node).bind Node.lock? = lockOf t e.node := rfl
  unfold handles operates ofClass classOf?
  rw [hlock]
  cases lockOf t e.node with
  | none => rfl
  | some y =>
    have hsame : t.pointsTo.SurelySame x y ↔ t.pointsTo.classOf? y = some C := by
      rw [← PointsTo.operandsMustAlias_iff_surelySame, PointsTo.operandsMustAlias_iff, hx]
      simp only [Option.some.injEq, exists_eq_left']
    rw [Option.any_some, Option.bind_eq_bind, Option.bind_some, decide_eq_decide.2 hsame]

/-- No event acquires or releases a lock without a class. -/
theorem handles_eq_false {x : Operand} (hx : t.pointsTo.classOf? x = none) (e : Event) :
    handles t x e = false := by
  unfold handles
  rw [Bool.and_eq_false_iff]
  refine Or.inr (Bool.eq_false_iff.2 fun hany => ?_)
  obtain ⟨y, -, hy⟩ := (Option.any_eq_true _ _).1 hany
  obtain ⟨C, hC, -⟩ := PointsTo.operandsMustAlias_iff.1
    (PointsTo.operandsMustAlias_iff_surelySame.2 (of_decide_eq_true hy))
  rw [hx] at hC
  cases hC

/-- An event holds a lock if its thread acquired that lock more often than it released it, where
only a lock that is held can be released. -/
def Holds (t : Trace) (r : EventRef) (x : Operand) : Prop :=
  0 < tally (((t.eventsOf r.thread).toList.take (r.index + 1)).filter (handles t x))

/-- The locks that an event holds are those of which a node of their class is held there. -/
theorem holds_iff {r : EventRef} {e : Event} (he : t.event? r = some e) {x : Operand} :
    Holds t r x ↔ ∃ C, t.pointsTo.classOf? x = some C ∧
      ∃ id ∈ (ofTrace t).heldAt r, ofClass t C id = true := by
  unfold Holds
  cases hx : t.pointsTo.classOf? x with
  | none =>
    have hnone : handles t x = fun _ => false := funext (handles_eq_false hx)
    simp [hnone, tally]
  | some C =>
    rw [handles_eq_operates hx, ← length_stack, ← filter_ofClass_heldAfter, ← heldAt_eq he,
      List.length_pos_iff_exists_mem]
    simp only [List.mem_filter, Option.some.injEq, exists_eq_left']

/-- Two events share a lock if they hold locks that are certainly one and the same. -/
theorem sharesLock_iff_holds {r q : EventRef} {e f : Event} (he : t.event? r = some e)
    (hf : t.event? q = some f) : sharesLock t (ofTrace t) r q = true ↔
      ∃ x y, Holds t r x ∧ Holds t q y ∧ t.pointsTo.SurelySame x y := by
  rw [sharesLock_iff]
  simp only [holds_iff he, holds_iff hf, ← PointsTo.operandsMustAlias_iff_surelySame,
    PointsTo.operandsMustAlias_iff]
  constructor
  · rintro ⟨C, ⟨i, hi, hiC⟩, hj⟩
    obtain ⟨x, -, hx⟩ := Option.bind_eq_some_iff.1 (of_decide_eq_true hiC)
    exact ⟨x, x, ⟨C, hx, i, hi, hiC⟩, ⟨C, hx, hj⟩, C, hx, hx⟩
  · rintro ⟨x, y, ⟨C, hx, hi⟩, ⟨D, hy, hj⟩, E, hx', hy'⟩
    rw [hx] at hx'
    rw [hy] at hy'
    cases hx'
    cases hy'
    exact ⟨_, hi, hj⟩

/-- In a trace that is built, lock operands that are not null fall into classes.  An event holds as
many locks of a class as a counter of the operations on that class tells, of the acquired nodes in
their order, and among them all null locks that were acquired.  Two events share a lock if they
hold locks of a common class. -/
theorem held_by_class {c : Subject} (hbuild : Trace.build c = .ok t) :
    (∀ x y, t.pointsTo.operandsMustAlias x y = t.pointsTo.operandsMustAlias y x) ∧
    (∀ x y z, t.pointsTo.operandsMustAlias x y = true → t.pointsTo.operandsMustAlias y z = true →
      t.pointsTo.operandsMustAlias x z = true) ∧
    (∀ x, t.pointsTo.operandsMustAlias x x = true ↔ x ≠ .null) ∧
    (∀ r e, t.event? r = some e → e.kind.isLocking = true →
      isNull t e.node = true ∨ ∃ C, ofClass t C e.node = true) ∧
    (∀ r e, t.event? r = some e →
      ((ofTrace t).heldAt r).Sublist
        (acquired ((t.eventsOf r.thread).toList.take (r.index + 1))) ∧
      ((ofTrace t).heldAt r).filter (isNull t) =
        (acquired ((t.eventsOf r.thread).toList.take (r.index + 1))).filter (isNull t) ∧
      ∀ C, ((ofTrace t).heldAt r).countP (ofClass t C) =
        tally (((t.eventsOf r.thread).toList.take (r.index + 1)).filter (operates t C))) ∧
    ∀ r q, sharesLock t (ofTrace t) r q = true ↔
      ∃ C, (∃ x ∈ (ofTrace t).heldAt r, ofClass t C x = true) ∧
        ∃ y ∈ (ofTrace t).heldAt q, ofClass t C y = true := by
  refine ⟨fun x y => ?_, fun x y z => PointsTo.operandsMustAlias_trans,
    fun x => PointsTo.operandsMustAlias_self_iff,
    fun r e => isNull_or_ofClass (Trace.build_wellFormed hbuild), fun r e he => ?_,
    fun r q => sharesLock_iff⟩
  · exact Bool.eq_iff_iff.2
      ⟨PointsTo.operandsMustAlias_symm, PointsTo.operandsMustAlias_symm⟩
  · rw [heldAt_eq he]
    refine ⟨heldAfter_sublist t _, filter_isNull_heldAfter t _, fun C => ?_⟩
    rw [List.countP_eq_length_filter, filter_ofClass_heldAfter, length_stack]

/-- The class of the lock that is released. -/
def guardedLock : Guarded.trace.pointsTo.LockClass :=
  Quotient.mk _ ⟨.value ⟨2⟩, Operand.noConfusion⟩

/-- A release through another pointer leaves no lock of its class, so the child shares that lock
before the release and none behind it. -/
theorem held_guarded :
    Trace.build Guarded.subject = .ok Guarded.trace ∧
      ((ofTrace Guarded.trace).heldAt ⟨0, 3⟩).countP (ofClass _ guardedLock) = 1 ∧
      ((ofTrace Guarded.trace).heldAt ⟨0, 4⟩).countP (ofClass _ guardedLock) = 0 ∧
      sharesLock Guarded.trace (ofTrace Guarded.trace) ⟨0, 3⟩ ⟨1, 1⟩ = true ∧
      sharesLock Guarded.trace (ofTrace Guarded.trace) ⟨0, 4⟩ ⟨1, 1⟩ = false := by
  obtain ⟨-, -, -, -, hheld, hshares⟩ := held_by_class Guarded.build_eq
  obtain ⟨-, -, hbefore⟩ := hheld ⟨0, 3⟩ _ rfl
  obtain ⟨-, -, hbehind⟩ := hheld ⟨0, 4⟩ _ rfl
  have hshared : sharesLock Guarded.trace (ofTrace Guarded.trace) ⟨0, 3⟩ ⟨1, 1⟩ = true :=
    (hshares _ _).2 ⟨guardedLock, by decide +kernel, by decide +kernel⟩
  exact ⟨Guarded.build_eq, (hbefore _).trans (by decide +kernel),
    (hbehind _).trans (by decide +kernel), hshared, by decide +kernel⟩

end LockSets

end DataRace
