import DataRace.Proofs.Dedup.Expansion
import DataRace.Proofs.Thin.Mask
import Mathlib.Data.List.Forall2

/-!
# Walks that do the same

A walk that deduplicates calls and one that expands all of them (`Subject.full`) number nodes
differently, and the first leaves events out.  `Walk.Paired` says that they agree otherwise: all
threads and lists are the same up to the numbers of nodes (`SameNode`), and the events of the first
are those of the second thinned by a mask.

Each step that both walks make keeps this, and so does a quiet event of the second alone
(`Walk.Paired.drop`).
-/

namespace DataRace

open Session

/-- The subject with all calls expanded. -/
def Subject.full (c : Subject) : Subject :=
  { c with settings := { c.settings with dedupCalls := false } }

variable {c : Subject} {s s' t t' : Session} {i j : NodeId} {f : String} {k : Nat}

/-- What is placed for the one is placed for the other. -/
theorem Session.Placed.of_full (h : Placed c.full s) : Placed c s := ⟨h.tidy, h.stretch, h.apart⟩

/-- What is later for the one is later for the other. -/
theorem Session.Later.of_full (h : Later c.full s s') : Later c s s' :=
  ⟨h.arena, h.remembers, fun hs => (h.placed ⟨hs.tidy, hs.stretch, hs.apart⟩).of_full⟩

/-! ### Twins -/

namespace Node.Twin

variable {R : NodeId → NodeId → Prop} {n n' : Node}

/-- Twins are of one instruction. -/
theorem inst_eq (h : Twin R n n') : n.inst = n'.inst := by cases h <;> rfl

/-- Twins have the same handle. -/
theorem handle?_eq (h : Twin R n n') : n.handle? = n'.handle? := by cases h <;> rfl

/-- Twins are the same kind of call. -/
theorem callApi?_eq (h : Twin R n n') : n.callApi? = n'.callApi? := by cases h <;> rfl

/-- Twins fork by the same interface. -/
theorem forkApi?_eq (h : Twin R n n') : n.forkApi? = n'.forkApi? := by cases h <;> rfl

/-- A twin of a node that is no companion join is the node itself. -/
theorem eq_of_none (h : Twin R n n') (hnone : n.companionOf? = none) : n' = n := by
  cases h with
  | same => rfl
  | join => cases hnone

end Node.Twin

/-- What stands at the other place of a node. -/
theorem SameNode.exists_twin (h : SameNode s t i j) (hc : c.program.Distinct) (hs : Placed c s)
    (ht : Placed c t) {n : Node} (hn : s.arena.get? i = some n) :
    ∃ n', t.arena.get? j = some n' ∧ Node.Twin (SameNode s t) n n' := by
  obtain ⟨m, n', hm, hn', htwin⟩ := h.twin hc hs ht
  rw [hn] at hm
  cases hm
  exact ⟨n', hn', htwin⟩

/-- A node that is no companion join stands at both places. -/
theorem SameNode.agree (h : SameNode s t i j) (hc : c.program.Distinct) (hs : Placed c s)
    (ht : Placed c t) {n : Node} (hn : s.arena.get? i = some n) (hnone : n.companionOf? = none) :
    s.arena.Agree t.arena i j := by
  obtain ⟨n', hn', htwin⟩ := h.exists_twin hc hs ht hn
  exact ⟨n, hn, by rw [hn', htwin.eq_of_none hnone]⟩

/-- A node that is no companion join in the second session stands at both places. -/
theorem SameNode.agree_right (h : SameNode s t i j) (hc : c.program.Distinct) (hs : Placed c s)
    (ht : Placed c t) {n : Node} (hn : t.arena.get? j = some n) (hnone : n.companionOf? = none) :
    s.arena.Agree t.arena i j := by
  obtain ⟨m, n', hm, hn', htwin⟩ := h.twin hc hs ht
  rw [hn] at hn'
  cases hn'
  cases htwin with
  | same => exact ⟨n, hm, hn⟩
  | join => cases hnone

/-! ### Pairs -/

/-- Two threads of two tables that agree up to numbers of nodes and events that are left out. -/
structure Thread.Paired (s t : Session) (a b : Thread) : Prop where
  id_eq : a.id = b.id
  fork : Option.Rel (SameNode s t) a.fork b.fork
  thins : ∃ mask, Thins s.arena t.arena mask a.events.toList b.events.toList

/-- Two sessions whose threads agree. -/
structure Session.Paired (c : Subject) (s t : Session) : Prop where
  left : Placed c s
  right : Placed c t
  size_eq : s.threads.size = t.threads.size
  threads : ∀ (i : ThreadId) (a b : Thread), s.threads[i]? = some a → t.threads[i]? = some b →
    Thread.Paired s t a b

/-- Two children that nobody joined yet. -/
structure Forked.Paired (s t : Session) (a b : Forked) : Prop where
  node : SameNode s t a.node b.node
  child_eq : a.child = b.child
  handle_eq : a.handle = b.handle

/-- Two children that the runtime will join. -/
structure Pending.Paired (s t : Session) (a b : Pending) : Prop where
  node : SameNode s t a.node b.node
  child_eq : a.child = b.child
  isDirect_eq : a.isDirect = b.isDirect

/-- Two threads under construction that agree up to numbers of nodes and events that are left
out. -/
structure Walker.Paired (s t : Session) (mask : List Bool) (u v : Walker) : Prop where
  thread_eq : u.thread = v.thread
  spawnedBy_eq : u.spawnedBy = v.spawnedBy
  skipTo_eq : u.skipTo = v.skipTo
  unjoined : List.Forall₂ (Forked.Paired s t) u.unjoined v.unjoined
  pending : List.Forall₂ (Pending.Paired s t) u.pending v.pending
  thins : Thins s.arena t.arena mask u.events.toList v.events.toList

/-- Two walks that agree, the second with all calls expanded. -/
structure Walk.Paired (c : Subject) (mask : List Bool) (u v : Walk) : Prop where
  session : Session.Paired c u.session v.session
  self : Walker.Paired u.session v.session mask u.self v.self

/-! ### Later sessions -/

section Later

variable (hs : Later c s s') (ht : Later c t t')

include hs ht

/-- Threads agree in later sessions. -/
theorem Thread.Paired.later {a b : Thread} (h : Thread.Paired s t a b) :
    Thread.Paired s' t' a b := by
  obtain ⟨mask, hthins⟩ := h.thins
  refine ⟨h.id_eq, ?_, mask, hthins.mono hs.arena ht.arena⟩
  have hfork := h.fork
  generalize a.fork = x, b.fork = y at hfork ⊢
  cases hfork with
  | some hfork => exact .some (hfork.mono hs.remembers ht.remembers)
  | none => exact .none

/-- Children agree in later sessions. -/
theorem Forked.Paired.later {a b : Forked} (h : Forked.Paired s t a b) : Forked.Paired s' t' a b :=
  ⟨h.node.mono hs.remembers ht.remembers, h.child_eq, h.handle_eq⟩

/-- Children agree in later sessions. -/
theorem Pending.Paired.later {a b : Pending} (h : Pending.Paired s t a b) :
    Pending.Paired s' t' a b :=
  ⟨h.node.mono hs.remembers ht.remembers, h.child_eq, h.isDirect_eq⟩

/-- Sessions that learnt something still agree. -/
theorem Session.Paired.later (h : Session.Paired c s t) (hs' : s'.threads = s.threads)
    (ht' : t'.threads = t.threads) : Session.Paired c s' t' := by
  refine ⟨hs.placed h.left, ht.placed h.right, by rw [hs', ht', h.size_eq], fun i a b ha hb => ?_⟩
  rw [hs'] at ha
  rw [ht'] at hb
  exact (h.threads i a b ha hb).later hs ht

/-- Threads under construction agree in later sessions. -/
theorem Walker.Paired.later {mask : List Bool} {u v : Walker} (h : Walker.Paired s t mask u v) :
    Walker.Paired s' t' mask u v where
  thread_eq := h.thread_eq
  spawnedBy_eq := h.spawnedBy_eq
  skipTo_eq := h.skipTo_eq
  unjoined := h.unjoined.imp fun _ _ hab => hab.later hs ht
  pending := h.pending.imp fun _ _ hab => hab.later hs ht
  thins := h.thins.mono hs.arena ht.arena

end Later

namespace Walk

variable {mask : List Bool} {u v u' v' : Walk} {a b : Nat}

/-! ### Gaps -/

/-- The last event of a thread that deduplicates calls, if it is a fork, is one of the routine that
is being walked, before position `a`.  If events were left out since, there is a plain call behind
that fork, before position `b`. -/
def Gap (c : Subject) (f : String) (a b : Nat) (mask : List Bool) (u : Walk) : Prop :=
  ∀ e, u.self.events.back? = some e → e.kind.Forks → ∃ p < a, u.session.At f p e.node ∧
    (mask.getLast? = some false → ∃ l n, p < l ∧ l < b ∧ (c.nodesOf f)[l]? = some n ∧
      n.callApi? = some .plain)

/-- A step that keeps what is known of the last fork, wherever it is. -/
def Keeps (c : Subject) (mask : List Bool) (u : Walk) (mask' : List Bool) (u' : Walk) : Prop :=
  ∀ f a b, Gap c f a b mask u → Gap c f a b mask' u'

/-- More positions are before later ones. -/
theorem Gap.mono (h : Gap c f a b mask u) {a' b' : Nat} (ha : a ≤ a') (hb : b ≤ b') :
    Gap c f a' b' mask u := by
  intro e he hfork
  obtain ⟨p, hp, hat, hgap⟩ := h e he hfork
  refine ⟨p, hp.trans_le ha, hat, fun hlast => ?_⟩
  obtain ⟨l, n, hpl, hlb, hn, hplain⟩ := hgap hlast
  exact ⟨l, n, hpl, hlb.trans_le hb, hn, hplain⟩

/-- The last event is no fork. -/
theorem Gap.of_not_forks {e : Event} (he : u.self.events.back? = some e) (h : ¬ e.kind.Forks)
    (c : Subject) (f : String) (a b : Nat) (mask : List Bool) : Gap c f a b mask u := by
  intro e' he' hfork
  rw [he] at he'
  cases he'
  exact absurd hfork h

/-- There are no events. -/
theorem Gap.of_empty (h : u.self.events = #[]) (c : Subject) (f : String) (a b : Nat)
    (mask : List Bool) : Gap c f a b mask u := by
  intro e he
  rw [h] at he
  cases he

/-- The same events in a session that remembers. -/
theorem Gap.of_eq (h : Gap c f a b mask u) (hevents : u'.self.events = u.self.events)
    (hremembers : u.session.Remembers u'.session) : Gap c f a b mask u' := by
  intro e he hfork
  rw [hevents] at he
  obtain ⟨p, hp, hat, hgap⟩ := h e he hfork
  exact ⟨p, hp, hat.mono hremembers, hgap⟩

/-- An event was made that is no fork. -/
theorem Keeps.record (c : Subject) (mask : List Bool) (u : Walk) (mask' : List Bool) (i : NodeId)
    {kind : EventKind} (h : ¬ kind.Forks) : Keeps c mask u mask' (u.record i kind) :=
  fun f a b _ => .of_not_forks Array.back?_push h c f a b mask'

/-- The fork of a node is an event of its position. -/
theorem Gap.fork (hid : u.session.At f k i) (child : ThreadId) (b : Nat) :
    Gap c f (k + 1) b (mask ++ [true]) (u.record i (.fork child)) := by
  intro e he _
  rw [show (u.record i (.fork child)).self.events.back? = _ from Array.back?_push] at he
  cases he
  refine ⟨k, Nat.lt_succ_self k, hid, fun hlast => ?_⟩
  rw [List.getLast?_concat] at hlast
  cases hlast

/-- Where events were left out behind the last fork, a fork of the node at position `k` is of
another instruction. -/
theorem Paired.apart (h : Paired c mask u v) (hc : c.program.Distinct)
    (hgap : Gap c f a k mask u) (hat : v.session.At f k j) {x : Nat} {g d : Event}
    (hx : mask[x]? = some true) (hg : v.self.events.toList[x]? = some g) (hfork : g.kind.Forks)
    (hlast : rank mask x + 1 = u.self.events.toList.length)
    (hmore : x + 1 < v.self.events.toList.length) (hd : d.node = j) :
    g.Apart v.session.arena d := by
  have hthins := h.self.thins
  obtain ⟨e, he, halike⟩ := hthins.kept x g hx hg
  have hback : u.self.events.back? = some e := by
    rw [Array.back?_eq_getElem?, ← Array.length_toList, ← hlast, Nat.add_sub_cancel,
      ← Array.getElem?_toList, he]
  have hend : mask.getLast? = some false := by
    rw [← hthins.length_eq] at hmore
    obtain ⟨m, hm⟩ : ∃ m, mask.getLast? = some m :=
      ⟨_, List.getLast?_eq_some_getLast (List.ne_nil_of_length_pos (Nat.zero_lt_of_lt hmore))⟩
    cases m with
    | false => exact hm
    | true =>
      rw [List.getLast?_eq_getElem?] at hm
      have hrank : rank mask (mask.length - 1 + 1) = rank mask (mask.length - 1) + 1 :=
        rank_succ_of_true hm
      have hle : rank mask (x + 1) ≤ rank mask (mask.length - 1) := rank_mono mask (by omega)
      rw [rank_succ_of_true hx] at hle
      rw [Nat.sub_add_cancel (Nat.zero_lt_of_lt hmore), rank_of_le (Nat.le_refl _),
        hthins.count_eq] at hrank
      omega
  obtain ⟨p, -, hp, hcall⟩ := hgap e hback (halike.kind_eq ▸ hfork)
  obtain ⟨l, n, hpl, hlk, hn, hplain⟩ := hcall hend
  obtain ⟨m, hm, hm'⟩ := halike.node fun child hjoin => by
    obtain ⟨child', hfork⟩ := hfork
    rw [hfork] at hjoin
    cases hjoin
  obtain ⟨n₁, base₁, hn₁, rfl⟩ := h.session.left.exists_shift hp hm
  obtain ⟨n₂, base₂, hn₂, -, hget, -⟩ := h.session.right.get?_of_at hat
  obtain ⟨body, houtline⟩ := Subject.exists_outline hc f
  refine ⟨_, _, hm', by rw [hd, hget], ?_⟩
  have hne := houtline.apart p l k n₁ n n₂ hpl hlk hn₁ hn hn₂ hplain
  unfold Node.inst at hne ⊢
  rw [Node.site_shift, Node.site_shift]
  exact hne

/-! ### Single steps -/

namespace Paired

/-- Both look something up. -/
theorem consult (h : Paired c mask u v) (hs : Later c u.session s) (ht : Later c v.session t)
    (hs' : s.threads = u.session.threads) (ht' : t.threads = v.session.threads) :
    Paired c mask { u with session := s } { v with session := t } :=
  ⟨h.session.later hs ht hs' ht', h.self.later hs ht⟩

/-- Both make an event. -/
theorem keep (h : Paired c mask u v) {kind : EventKind}
    (hnode : (∀ child, kind ≠ .join child) → u.session.arena.Agree v.session.arena i j)
    (hruns : kind.Forks → ∀ x g, mask[x]? = some true → v.self.events.toList[x]? = some g →
      g.kind.Forks → rank mask x + 1 = u.self.events.toList.length →
      x + 1 < v.self.events.toList.length → ∀ d : Event, d.node = j →
        g.Apart v.session.arena d) :
    Paired c (mask ++ [true]) (u.record i kind) (v.record j kind) := by
  refine ⟨h.session, { h.self with thins := ?_ }⟩
  show Thins u.session.arena v.session.arena (mask ++ [true])
    (u.self.events.push _).toList (v.self.events.push _).toList
  rw [Array.toList_push, Array.toList_push]
  exact h.self.thins.keep ⟨rfl, hnode⟩ fun x g hx hg hfork hkind hlast hmore =>
    hruns hkind x g hx hg hfork hlast hmore _ rfl

/-- Both make an event that is no fork. -/
theorem keep_of_not_forks (h : Paired c mask u v) {kind : EventKind} (hkind : ¬ kind.Forks)
    (hnode : (∀ child, kind ≠ .join child) → u.session.arena.Agree v.session.arena i j) :
    Paired c (mask ++ [true]) (u.record i kind) (v.record j kind) :=
  h.keep hnode fun hfork => absurd hfork hkind

/-- Only the second makes an event, a quiet one.  An access repeats one with nothing loud behind
it. -/
theorem drop (h : Paired c mask u v) {kind : EventKind} (hquiet : kind.Quiet)
    (hcovered : kind.access?.isSome → ∃ (l : Nat) (e : Event), u.self.events[l]? = some e ∧
      e.kind = kind ∧ u.session.arena.Agree v.session.arena e.node j ∧
      ∀ (m : Nat) (d : Event), l < m → u.self.events[m]? = some d → d.kind.Quiet) :
    Paired c (mask ++ [false]) u (v.record j kind) := by
  refine ⟨h.session, { h.self with thins := ?_ }⟩
  show Thins u.session.arena v.session.arena (mask ++ [false]) u.self.events.toList
    (v.self.events.push _).toList
  rw [Array.toList_push]
  refine h.self.thins.drop hquiet fun haccess => ?_
  obtain ⟨l, e, he, hkind, hagree, hbehind⟩ := hcovered haccess
  refine ⟨l, e, by rw [Array.getElem?_toList, he], hkind, hagree, fun m d hlm hd => ?_⟩
  rw [Array.getElem?_toList] at hd
  exact hbehind m d hlm hd

/-- Both take a child off the list of those that nobody joined. -/
theorem settle (h : Paired c mask u v) (hij : SameNode u.session v.session i j)
    (child : ThreadId) :
    Paired c mask { u with self := u.self.settle i child }
      { v with self := v.self.settle j child } := by
  refine ⟨h.session, { h.self with unjoined := ?_ }⟩
  refine List.rel_filter (fun x y hxy => ?_) h.self.unjoined
  have hnode : x.node = i ↔ y.node = j :=
    hxy.node.eq_iff h.session.left h.session.right hij
  show (!(x.node == i && x.child == child)) = true ↔ (!(y.node == j && y.child == child)) = true
  rw [hxy.child_eq]
  simp only [Bool.not_eq_true', Bool.and_eq_false_iff, beq_eq_false_iff_ne, ne_eq, hnode]

end Paired

end Walk

end DataRace
