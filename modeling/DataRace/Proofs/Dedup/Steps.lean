import DataRace.Proofs.Dedup.Paired
import DataRace.Proofs.Trace.Frame

/-!
# Steps that both walks make

Joins, skipped regions, the start of a child and its end keep walks paired.  Each lemma says so for
one operation that succeeded in both walks.
-/

namespace DataRace

open Session

variable {c : Subject} {r : Runtime} {mask : List Bool} {u v u' v' : Walk} {i j : NodeId}
  {f : String} {a b k : Nat} {s t : Session}

/-- Searches that decide alike find members that belong together. -/
theorem rel_find? {α β : Type} {R : α → β → Prop} {p : α → Bool} {q : β → Bool} {l : List α}
    {l' : List β} (h : List.Forall₂ R l l') (hpq : ∀ a b, R a b → p a = q b) :
    Option.Rel R (l.find? p) (l'.find? q) := by
  induction h with
  | nil => exact .none
  | cons hab _ ih =>
    rw [List.find?_cons, List.find?_cons, hpq _ _ hab]
    split
    · exact .some hab
    · exact ih

/-- The nodes to come are the same in both sessions. -/
theorem sameNode_of_rest {nodes nodes' : List NodeId} (hs : Placed c s) (ht : Placed c t)
    (h : s.Rest f k nodes) (h' : t.Rest f k nodes') :
    List.Forall₂ (SameNode s t) nodes nodes' := by
  induction nodes generalizing k nodes' with
  | nil =>
    have hlen := (ht.length_of_rest h').trans (hs.length_of_rest h).symm
    rw [List.length_eq_zero_iff.1 hlen]
    exact .nil
  | cons i nodes ih =>
    cases nodes' with
    | nil =>
      have hlen := (hs.length_of_rest h).trans (ht.length_of_rest h').symm
      cases hlen
    | cons j nodes' =>
      obtain ⟨hi, hrest⟩ := h.cons
      obtain ⟨hj, hrest'⟩ := h'.cons
      exact .cons ⟨f, k, hi, hj⟩ (ih hrest hrest')

namespace Walk

/-! ### Joins -/

/-- A join is no fork. -/
theorem not_forks_join (child : Option ThreadId) : ¬ (EventKind.join child).Forks := by
  rintro ⟨_, ⟨⟩⟩

namespace Paired

/-- Both join a child through a companion. -/
theorem joinChild (h : Paired c mask u v) (hij : SameNode u.session v.session i j)
    {child : ThreadId} (hu : u.joinChild i child = .ok u') (hv : v.joinChild j child = .ok v') :
    Paired c (mask ++ [true]) u' v' ∧ Keeps c mask u (mask ++ [true]) u' := by
  have hlater : Later c u.session u'.session := joinChild_later hu
  have hlater' : Later c v.session v'.session := joinChild_later hv
  obtain ⟨hextends, join, -, -, -, hself⟩ := joinChild_spec hu
  obtain ⟨hextends', join', -, -, -, hself'⟩ := joinChild_spec hv
  have hsettled := (h.consult hlater hlater' hextends.threads hextends'.threads).settle
    (hij.mono hlater.remembers hlater'.remembers) child
  have hkept := hsettled.keep_of_not_forks (i := join) (j := join')
    (not_forks_join (some child)) fun hjoin => absurd rfl (hjoin _)
  have hsame : Walk.record ⟨u'.session, u.self.settle i child⟩ join (.join (some child)) = u' := by
    rw [record, ← hself]
  have hsame' :
      Walk.record ⟨v'.session, v.self.settle j child⟩ join' (.join (some child)) = v' := by
    rw [record, ← hself']
  refine ⟨?_, fun f a b _ => ?_⟩
  · rw [← hsame, ← hsame']
    exact hkept
  · rw [← hsame]
    exact .of_not_forks Array.back?_push (not_forks_join _) c f a b _

/-- Both join several children. -/
theorem joinAll {l l' : List Pending} (h : Paired c mask u v)
    (hl : List.Forall₂ (Pending.Paired u.session v.session) l l')
    (hu : l.foldlM (fun w p => w.joinChild p.node p.child) u = .ok u')
    (hv : l'.foldlM (fun w p => w.joinChild p.node p.child) v = .ok v') :
    ∃ mask', Paired c mask' u' v' ∧ Keeps c mask u mask' u' := by
  induction l generalizing l' mask u v with
  | nil =>
    cases hl
    cases hu
    cases hv
    exact ⟨mask, h, fun _ _ _ hgap => hgap⟩
  | cons p l ih =>
    cases hl with
    | cons hp hl =>
      rw [List.foldlM_cons] at hu hv
      obtain ⟨x, hx, hu⟩ := Except.bind_eq_ok.1 hu
      obtain ⟨y, hy, hv⟩ := Except.bind_eq_ok.1 hv
      rw [← hp.child_eq] at hy
      obtain ⟨hxy, hkeeps⟩ := h.joinChild hp.node hx hy
      have hlater : Later c u.session x.session := joinChild_later hx
      have hlater' : Later c v.session y.session := joinChild_later hy
      obtain ⟨mask', h', hkeeps'⟩ :=
        ih hxy (hl.imp fun _ _ hab => hab.later hlater hlater') hu hv
      exact ⟨mask', h', fun f a b hgap => hkeeps' f a b (hkeeps f a b hgap)⟩

/-- Both runtimes join. -/
theorem joinPending (h : Paired c mask u v) {directOnly : Bool}
    (hu : u.joinPending directOnly = .ok u') (hv : v.joinPending directOnly = .ok v') :
    ∃ mask', Paired c mask' u' v' ∧ Keeps c mask u mask' u' := by
  have hfilter : ∀ {p : Pending → Bool} {l l' : List Pending},
      (∀ a b, Pending.Paired u.session v.session a b → p a = p b) →
      List.Forall₂ (Pending.Paired u.session v.session) l l' →
        List.Forall₂ (Pending.Paired u.session v.session) (l.filter p) (l'.filter p) := by
    intro p l l' hp hl
    refine List.rel_filter (fun a b hab => ?_) hl
    show p a = true ↔ p b = true
    rw [hp a b hab]
  have hkept := hfilter (p := fun p => !(p.isDirect || !directOnly))
    (fun a b hab => by rw [hab.isDirect_eq]) h.self.pending
  have hdue := hfilter (p := fun p => p.isDirect || !directOnly)
    (fun a b hab => by rw [hab.isDirect_eq]) h.self.pending
  have hordered := List.rel_append
    (hfilter (p := (·.isDirect)) (fun a b hab => hab.isDirect_eq) hdue)
    (hfilter (p := fun p => !p.isDirect) (fun a b hab => by rw [hab.isDirect_eq]) hdue)
  have hpaired : Paired c mask
      { u with self := { u.self with
        pending := u.self.pending.filter fun p => !(p.isDirect || !directOnly) } }
      { v with self := { v.self with
        pending := v.self.pending.filter fun p => !(p.isDirect || !directOnly) } } :=
    ⟨h.session, { h.self with pending := hkept }⟩
  exact hpaired.joinAll hordered hu hv

/-- Both join the children of a list. -/
theorem joinEach {l l' : List Forked} (h : Paired c mask u v)
    (hl : List.Forall₂ (Forked.Paired u.session v.session) l l') :
    ∃ mask', Paired c mask' (l.foldl (fun w f => w.record i (.join (some f.child))) u)
        (l'.foldl (fun w f => w.record j (.join (some f.child))) v) ∧
      Keeps c mask u mask' (l.foldl (fun w f => w.record i (.join (some f.child))) u) := by
  induction l generalizing l' mask u v with
  | nil =>
    cases hl
    exact ⟨mask, h, fun _ _ _ hgap => hgap⟩
  | cons p l ih =>
    cases hl with
    | @cons _ q _ l' hp hl =>
      have hone := h.keep_of_not_forks (i := i) (j := j) (not_forks_join (some p.child))
        fun hjoin => absurd rfl (hjoin _)
      obtain ⟨mask', h', hkeeps⟩ := ih hone hl
      rw [List.foldl_cons, List.foldl_cons, ← hp.child_eq]
      exact ⟨mask', h', fun f a b _ => hkeeps f a b (Keeps.record c mask u _ i (not_forks_join _)
        f a b ‹_›)⟩

/-- Both join the children of a fork through a companion. -/
theorem joinCompanion (h : Paired c mask u v) {n n' : Node} {fork fork' : NodeId}
    (hfork : SameNode u.session v.session fork fork') (hu : u.joinCompanion i n fork = .ok u')
    (hv : v.joinCompanion j n' fork' = .ok v') :
    ∃ mask', Paired c mask' u' v' ∧ Keeps c mask u mask' u' := by
  have hnode : ∀ x y, Forked.Paired u.session v.session x y → (x.node = fork ↔ y.node = fork') :=
    fun x y hxy => hxy.node.eq_iff h.session.left h.session.right hfork
  have hdue : List.Forall₂ (Forked.Paired u.session v.session)
      (u.self.unjoined.filter fun f => f.node == fork)
      (v.self.unjoined.filter fun f => f.node == fork') := by
    refine List.rel_filter (fun x y hxy => ?_) h.self.unjoined
    show (x.node == fork) = true ↔ (y.node == fork') = true
    rw [beq_iff_eq, beq_iff_eq, hnode x y hxy]
  have hkept : List.Forall₂ (Forked.Paired u.session v.session)
      (u.self.unjoined.filter fun f => f.node != fork)
      (v.self.unjoined.filter fun f => f.node != fork') := by
    refine List.rel_filter (fun x y hxy => ?_) h.self.unjoined
    show (x.node != fork) = true ↔ (y.node != fork') = true
    rw [bne_iff_ne, bne_iff_ne, ne_eq, ne_eq, hnode x y hxy]
  unfold Walk.joinCompanion at hu hv
  split at hu
  · split at hv
    · cases hu
      cases hv
      have hpaired : Paired c mask
          { u with self := { u.self with
            unjoined := u.self.unjoined.filter fun f => f.node != fork } }
          { v with self := { v.self with
            unjoined := v.self.unjoined.filter fun f => f.node != fork' } } :=
        ⟨h.session, { h.self with unjoined := hkept }⟩
      exact hpaired.joinEach hdue
    · cases hv
  · cases hu

/-- The first thread that was started with a handle has the same number in both. -/
theorem foreignThread?_eq (h : Paired c mask u v) (hc : c.program.Distinct) (handle : Operand) :
    foreignThread? c u handle = foreignThread? c.full v handle := by
  have hthreads : List.Forall₂ (Thread.Paired u.session v.session) u.session.threads.toList
      v.session.threads.toList := by
    rw [List.forall₂_iff_get]
    refine ⟨h.session.size_eq, fun k hk hk' => ?_⟩
    rw [List.get_eq_getElem, List.get_eq_getElem, Array.getElem_toList, Array.getElem_toList]
    exact h.session.threads k _ _ (Array.getElem?_eq_getElem hk) (Array.getElem?_eq_getElem hk')
  have hhandle : ∀ x y, Thread.Paired u.session v.session x y →
      (x.fork >>= u.session.arena.get? >>= Node.handle?) =
        (y.fork >>= v.session.arena.get? >>= Node.handle?) := by
    intro x y hxy
    have hfork := hxy.fork
    generalize x.fork = o, y.fork = o' at hfork ⊢
    cases hfork with
    | none => rfl
    | some hfork =>
      obtain ⟨n, n', hn, hn', htwin⟩ := hfork.twin hc h.session.left h.session.right
      show (u.session.arena.get? _ >>= Node.handle?) = (v.session.arena.get? _ >>= Node.handle?)
      rw [hn, hn']
      exact htwin.handle?_eq
  have hids : ∀ {o o' : Option Thread}, Option.Rel (Thread.Paired u.session v.session) o o' →
      o.map Thread.id = o'.map Thread.id := by
    intro o o' ho
    cases ho with
    | none => rfl
    | some hxy => exact congrArg some hxy.id_eq
  unfold foreignThread?
  dsimp only
  rw [← Array.find?_toList, ← Array.find?_toList]
  refine hids (rel_find? hthreads fun x y hxy => ?_)
  rw [hhandle x y hxy, hxy.id_eq, h.self.thread_eq]
  rfl

/-- Both join a handle. -/
theorem joinHandle (h : Paired c mask u v) (hc : c.program.Distinct) (handle : Operand) :
    ∃ mask', Paired c mask' (u.joinHandle c i handle) (v.joinHandle c.full j handle) ∧
      Keeps c mask u mask' (u.joinHandle c i handle) := by
  have hfound := rel_find? (List.rel_reverse h.self.unjoined)
    (p := fun f => c.pointsTo.operandsMayAlias f.handle handle)
    (q := fun f => c.full.pointsTo.operandsMayAlias f.handle handle)
    fun x y hxy => by rw [hxy.handle_eq]; rfl
  unfold Walk.joinHandle
  rw [← h.foreignThread?_eq hc handle]
  revert hfound
  generalize List.find? _ u.self.unjoined.reverse = o, List.find? _ v.self.unjoined.reverse = o'
  intro hfound
  cases hfound with
  | none =>
    exact ⟨mask ++ [true], h.keep_of_not_forks (not_forks_join _) fun hjoin => absurd rfl (hjoin _),
      Keeps.record c mask u _ i (not_forks_join _)⟩
  | @some x y hxy =>
    dsimp only
    rw [← hxy.child_eq]
    refine ⟨mask ++ [true], (h.settle hxy.node x.child).keep_of_not_forks (not_forks_join _)
      fun hjoin => absurd rfl (hjoin _), fun f a b _ => ?_⟩
    exact .of_not_forks Array.back?_push (not_forks_join _) c f a b _

end Paired

/-! ### Runtimes -/

/-- A region ends at the same instruction in both. -/
theorem regionEnd?_eq (hc : c.program.Distinct) (hs : Placed c s) (ht : Placed c t)
    {opening closing : CallApi} {depth : Nat} {nodes nodes' : List NodeId}
    (h : List.Forall₂ (SameNode s t) nodes nodes') :
    regionEnd? s.arena opening closing depth nodes =
      regionEnd? t.arena opening closing depth nodes' := by
  induction h generalizing depth with
  | nil => rfl
  | cons hij _ ih =>
    obtain ⟨n, n', hn, hn', htwin⟩ := hij.twin hc hs ht
    unfold regionEnd?
    rw [hn, hn']
    dsimp only
    rw [htwin.callApi?_eq, htwin.inst_eq]
    split
    · exact ih
    · split
      · split
        · rfl
        · exact ih
      · exact ih

namespace Paired

/-- Both skip a region, or neither. -/
theorem skipRegion (h : Paired c mask u v) (hc : c.program.Distinct) {opening closing : CallApi}
    {n n' : Node} {routine routine' : Option String} {rest rest' : List NodeId}
    (hrest : List.Forall₂ (SameNode u.session v.session) rest rest')
    (hu : u.skipRegion opening closing n routine rest = .ok u')
    (hv : v.skipRegion opening closing n' routine' rest' = .ok v') :
    Paired c mask u' v' ∧ Keeps c mask u mask u' := by
  have hworker : u.self.isWorker = v.self.isWorker := by
    unfold Walker.isWorker
    rw [h.self.spawnedBy_eq]
  unfold Walk.skipRegion at hu hv
  rw [← hworker, ← regionEnd?_eq hc h.session.left h.session.right hrest] at hv
  split at hu
  · next hyes =>
    rw [if_pos hyes] at hv
    split at hu
    · next inst hinst =>
      rw [hinst] at hv
      cases hu
      cases hv
      exact ⟨⟨h.session, { h.self with skipTo_eq := rfl }⟩, fun _ _ _ hgap => hgap⟩
    · cases hu
  · next hno =>
    rw [if_neg hno] at hv
    cases hu
    cases hv
    exact ⟨h, fun _ _ _ hgap => hgap⟩

/-- Both runtimes do the same at a node. -/
theorem visit (h : Paired c mask u v) (hc : c.program.Distinct) {n n' : Node}
    (htwin : Node.Twin (SameNode u.session v.session) n n') {routine routine' : Option String}
    {rest rest' : List NodeId} (hrest : List.Forall₂ (SameNode u.session v.session) rest rest')
    {opens opens' : Bool} (hu : r.visit u n routine rest = .ok (opens, u'))
    (hv : r.visit v n' routine' rest' = .ok (opens', v')) :
    opens' = opens ∧ ∃ mask', Paired c mask' u' v' ∧ Keeps c mask u mask' u' := by
  cases htwin with
  | join =>
    have hnothing : ∀ (w : Walk) (site : Site) (api : JoinApi) (handle : Operand)
        (fork : Option NodeId) (routine : Option String) (rest : List NodeId),
        r.visit w ⟨site, .join api handle fork⟩ routine rest = .ok (true, w) := by
      intros
      cases r <;> rfl
    rw [hnothing] at hu hv
    cases hu
    cases hv
    exact ⟨rfl, mask, h, fun _ _ _ hgap => hgap⟩
  | same =>
    obtain ⟨_, -, hvisit⟩ | ⟨-, ⟨_, _, hvisit⟩ | ⟨_, -, hvisit⟩⟩ := visit_cases r n
    · rw [hvisit] at hu hv
      cases hu
      cases hv
      exact ⟨rfl, mask, h, fun _ _ _ hgap => hgap⟩
    · rw [hvisit] at hu hv
      obtain ⟨x, hx, hu⟩ := Except.bind_eq_ok.1 hu
      obtain ⟨y, hy, hv⟩ := Except.bind_eq_ok.1 hv
      cases hu
      cases hv
      exact ⟨rfl, h.joinPending hx hy⟩
    · rw [hvisit] at hu hv
      obtain ⟨x, hx, hu⟩ := Except.bind_eq_ok.1 hu
      obtain ⟨y, hy, hv⟩ := Except.bind_eq_ok.1 hv
      cases hu
      cases hv
      exact ⟨rfl, mask, h.skipRegion hc hrest hx hy⟩

/-- Both threads end what they are skipping. -/
theorem reach (h : Paired c mask u v) : Paired c mask u.reach v.reach :=
  ⟨h.session, { h.self with skipTo_eq := rfl }⟩

/-- Both runtimes act at the end of a thread. -/
theorem finish (h : Paired c mask u v) (hu : r.finish u = .ok u') (hv : r.finish v = .ok v') :
    ∃ mask', Paired c mask' u' v' := by
  rcases finish_cases r u.self.spawnedBy with hjoin | hnothing
  · rw [hjoin u rfl] at hu
    rw [hjoin v h.self.spawnedBy_eq.symm] at hv
    obtain ⟨mask', h', -⟩ := h.joinPending hu hv
    exact ⟨mask', h'⟩
  · rw [hnothing u rfl] at hu
    rw [hnothing v h.self.spawnedBy_eq.symm] at hv
    cases hu
    cases hv
    exact ⟨mask, h⟩

/-! ### Children -/

/-- Both put the events of a thread into the table. -/
theorem close (h : Paired c mask u v) : Paired c mask u.close v.close := by
  have hs : Later c u.session u.close.session := .of_eq rfl rfl
  have ht : Later c v.session v.close.session := .of_eq rfl rfl
  refine ⟨⟨hs.placed h.session.left, ht.placed h.session.right, ?_, fun k x y hx hy => ?_⟩,
    h.self.later hs ht⟩
  · rw [size_close, size_close]
    exact h.session.size_eq
  · rw [close_getElem?] at hx hy
    rw [← h.self.thread_eq] at hy
    split at hx
    · next hk =>
      rw [if_pos hk] at hy
      obtain ⟨x', hx', rfl⟩ := Option.map_eq_some_iff.1 hx
      obtain ⟨y', hy', rfl⟩ := Option.map_eq_some_iff.1 hy
      have hxy := (h.session.threads k x' y' hx' hy').later hs ht
      exact ⟨hxy.id_eq, hxy.fork, mask, h.self.thins.mono hs.arena ht.arena⟩
    · next hk =>
      rw [if_neg hk] at hy
      exact (h.session.threads k x y hx hy).later hs ht

/-- Both start a child from the node at position `k`. -/
theorem beginFork (h : Paired c mask u v) (hc : c.program.Distinct) (hgap : Gap c f a k mask u)
    (hi : u.session.At f k i) (hj : v.session.At f k j) {n : Node}
    (hn : u.session.arena.get? i = some n) (hnone : n.companionOf? = none) {entry : String}
    {child child' : ThreadId} (hu : u.beginFork i entry = .ok (child, u'))
    (hv : v.beginFork j entry = .ok (child', v')) :
    child' = child ∧ Paired c (mask ++ [true]) u' v' ∧ Gap c f (k + 1) k (mask ++ [true]) u' := by
  have hs : Later c u.session u'.session := beginFork_later hu
  have ht : Later c v.session v'.session := beginFork_later hv
  have hij : SameNode u.session v.session i j := ⟨f, k, hi, hj⟩
  obtain ⟨hchild, -, -, hself⟩ := beginFork_spec hu
  obtain ⟨hchild', -, -, hself'⟩ := beginFork_spec hv
  have hsame : child' = child := by rw [hchild, hchild', h.session.size_eq]
  subst hsame
  have hkept : Paired c (mask ++ [true]) (u.record i (.fork child')) (v.record j (.fork child')) :=
    h.keep (fun _ => hij.agree hc h.session.left h.session.right hn hnone)
      fun _ x g hx hg hfork hlast hmore d hd => h.apart hc hgap hj hx hg hfork hlast hmore hd
  refine ⟨rfl,
    ⟨⟨hs.placed h.session.left, ht.placed h.session.right, ?_, fun l x y hx hy => ?_⟩, ?_⟩,
    ?_⟩
  · rw [beginFork_size hu, beginFork_size hv, h.session.size_eq]
  · have hnew : ∀ site site' : Option EventRef, Thread.Paired u'.session v'.session
        (Thread.new child' entry site (some i)) (Thread.new child' entry site' (some j)) :=
      fun _ _ => ⟨rfl, .some (hij.mono hs.remembers ht.remembers), [], .nil _ _⟩
    have hpush : ∀ (site site' : Option EventRef) x y,
        (u.session.threads.push (Thread.new child' entry site (some i)))[l]? = some x →
        (v.session.threads.push (Thread.new child' entry site' (some j)))[l]? = some y →
        Thread.Paired u'.session v'.session x y := by
      intro site site' x y hx hy
      rw [Array.getElem?_push] at hx hy
      rw [← h.session.size_eq] at hy
      split at hx
      · next hl =>
        rw [if_pos hl] at hy
        cases hx
        cases hy
        exact hnew site site'
      · next hl =>
        rw [if_neg hl] at hy
        exact (h.session.threads l x y hx hy).later hs ht
    rw [beginFork_getElem? hu] at hx
    rw [beginFork_getElem? hv, ← h.self.thread_eq, ← h.session.size_eq] at hy
    split at hx
    · next hl =>
      rw [if_pos hl] at hy
      obtain ⟨x', hx', rfl⟩ := Option.map_eq_some_iff.1 hx
      obtain ⟨y', hy', rfl⟩ := Option.map_eq_some_iff.1 hy
      obtain ⟨hid, hfork, hthins⟩ := hpush _ _ x' y' hx' hy'
      exact ⟨hid, hfork, hthins⟩
    · next hl =>
      rw [if_neg hl] at hy
      split at hx
      · next hsize =>
        rw [if_pos hsize] at hy
        cases hx
        cases hy
        exact hnew _ _
      · next hsize =>
        rw [if_neg hsize] at hy
        exact (h.session.threads l x y hx hy).later hs ht
  · rw [hself, hself']
    exact hkept.self.later hs ht
  · refine (Gap.fork hi child' k).of_eq ?_ hs.remembers
    rw [hself]
    rfl

/-- Both turn to a child that was just started. -/
theorem enterChild (h : Paired c mask u v) (child : ThreadId) (api : ForkApi) :
    Paired c [] (u.enterChild child api) (v.enterChild child api) :=
  ⟨h.session, rfl, rfl, rfl, .nil, .nil, .nil _ _⟩

/-- What ended children leave to their parents. -/
theorem orphans {x y : Walk} {mask' : List Bool} (h : Paired c mask' x y) :
    List.Forall₂ (Pending.Paired x.session y.session) (r.orphans x.self) (r.orphans y.self) := by
  unfold Runtime.orphans
  rw [← h.self.spawnedBy_eq]
  split
  · refine List.rel_map (fun p q hpq => ?_) h.self.pending
    exact ⟨hpq.node, hpq.child_eq, rfl⟩
  · exact .nil

/-- Both go on after a child has ended. -/
theorem endFork (h : Paired c mask u v) (hij : SameNode u.session v.session i j) {x y : Walk}
    {mask' : List Bool} (hxy : Paired c mask' x y) (hs : Later c u.session x.session)
    (ht : Later c v.session y.session) (r : Runtime) (api : ForkApi) (handle : Operand) :
    Paired c mask (u.endFork r i api handle x) (v.endFork r j api handle y) := by
  have hself := h.self.later hs ht
  have hnode := hij.mono hs.remembers ht.remembers
  have hpending := List.rel_append hself.pending (hxy.orphans (r := r))
  refine ⟨hxy.session, { hself with unjoined := ?_, pending := ?_ }⟩
  · exact List.rel_append hself.unjoined (.cons ⟨hnode, hxy.self.thread_eq, rfl⟩ .nil)
  · show List.Forall₂ _
      (if r.joins api then u.self.pending ++ r.orphans x.self ++ [⟨i, x.self.thread, true⟩]
        else u.self.pending ++ r.orphans x.self)
      (if r.joins api then v.self.pending ++ r.orphans y.self ++ [⟨j, y.self.thread, true⟩]
        else v.self.pending ++ r.orphans y.self)
    split
    · exact List.rel_append hpending (.cons ⟨hnode, hxy.self.thread_eq, rfl⟩ .nil)
    · exact hpending

end Paired

end Walk

end DataRace
