import DataRace.Proofs.Dedup.Quiet
import DataRace.Proofs.Dedup.Steps

/-!
# Both walks agree

If recursion hides nothing, a walk that deduplicates calls and one that expands all of them stay
paired as long as both succeed (`Walk.Paired.walk`).  Where the first passes a repeated call over,
the second walks a settled routine and the first stands still.
-/

namespace DataRace

open Session

/-- A node stands at a position of a routine. -/
structure Session.Holds (s : Session) (f : String) (k : Nat) (id : NodeId) (n : Node) : Prop where
  at_ : s.At f k id
  node : s.arena.get? id = some n

/-- A node still stands there in a later session. -/
theorem Session.Holds.later {c : Subject} {s s' : Session} {f : String} {k : Nat} {id : NodeId}
    {n : Node} (h : s.Holds f k id n) (hs : Later c s s') : s'.Holds f k id n :=
  ⟨h.at_.mono hs.remembers, hs.arena _ _ h.node⟩

namespace Walk

variable {c : Subject} {r : Runtime} {ancestry opened : List String} {mask : List Bool}
  {u v u' v' w inner : Walk} {f g : String} {a b k : Nat}

/-- A child knows more in the end than in the beginning. -/
theorem WalksChild.later (h : WalksChild c r ancestry g w inner) (hc : c.program.Distinct) :
    Later c w.session inner.session := by
  rcases h with ⟨-, rfl⟩ | ⟨routine, nodes, session, -, hsummary, hwalk⟩
  · exact .refl c _
  · exact ((Learns.summary hsummary).later hc).trans ((walk_grows hwalk).later hc)

/-- Where a call is passed over, nothing is known to be missing but what stands before the call. -/
theorem Gap.spare (h : Gap c f k b mask u) {n : Node} (hn : (c.nodesOf f)[k]? = some n)
    (hplain : n.callApi? = some .plain) (mask' : List Bool) : Gap c f k (k + 1) mask' u := by
  intro e he hfork
  obtain ⟨p, hp, hat, -⟩ := h e he hfork
  exact ⟨p, hp, hat, fun _ => ⟨k, n, hp, Nat.lt_succ_self k, hn, hplain⟩⟩

/-- Asking whether a call is repeated makes no event. -/
theorem Paired.isRepeated (h : Paired c mask u v) (hc : c.program.Distinct) {args : List Operand}
    {repeated : Bool} (hrep : u.isRepeated c g args = .ok (repeated, u')) :
    Paired c mask u' v ∧ u'.self.events = u.self.events ∧ Later c u.session u'.session := by
  have hlater : Later c u.session u'.session := (isRepeated_grows (r := .pthread) hrep).later hc
  have hsession : ∀ {session : Session} {expanded : List (String × List Operand)},
      u.session.Learns c session →
        Paired c mask { session, self := { u.self with expanded } } v := by
    intro session expanded hlearns
    have hpaired := h.consult (hlearns.later hc) (.refl c _) hlearns.extends.threads rfl
    exact ⟨hpaired.session, { hpaired.self with }⟩
  unfold Walk.isRepeated at hrep
  split at hrep
  · obtain ⟨⟨effects, session⟩, heffects, hrep⟩ := Except.bind_eq_ok.1 hrep
    have hlearns := hasThreadEffects_learns heffects
    dsimp only at hrep
    split at hrep
    · cases hrep
      exact ⟨hsession hlearns, rfl, hlater⟩
    · split at hrep
      · cases hrep
        exact ⟨hsession hlearns, rfl, hlater⟩
      · cases hrep
        exact ⟨hsession hlearns, rfl, hlater⟩
  · cases hrep
    exact ⟨h, rfl, hlater⟩

/-- Both meet a fork. -/
theorem Paired.meetFork (h : Paired c mask u v) (i j : NodeId) :
    Paired c mask (u.meetFork i) (v.meetFork j) := ⟨h.session, { h.self with }⟩

/-- A node that is no companion join is the same in both. -/
theorem Paired.same_node (h : Paired c mask u v) (hc : c.program.Distinct) {i j : NodeId}
    {n n' : Node} (hi : u.session.Holds f k i n) (hj : v.session.Holds f k j n')
    (hnone : n.companionOf? = none) : n' = n ∧ u.session.arena.Agree v.session.arena i j := by
  have hij : SameNode u.session v.session i j := ⟨f, k, hi.at_, hj.at_⟩
  obtain ⟨m, hm, htwin⟩ := hij.exists_twin hc h.session.left h.session.right hi.node
  rw [hj.node] at hm
  cases hm
  exact ⟨htwin.eq_of_none hnone, hij.agree hc h.session.left h.session.right hi.node hnone⟩

/-- Both make an event of a node that is neither a fork nor a companion join. -/
theorem Paired.record (h : Paired c mask u v) {i j : NodeId}
    (hij : u.session.arena.Agree v.session.arena i j) {kind : EventKind} (hkind : ¬ kind.Forks)
    (f : String) (a b : Nat) :
    ∃ mask', Paired c mask' (u.record i kind) (v.record j kind) ∧
      Gap c f a b mask' (u.record i kind) :=
  ⟨mask ++ [true], h.keep_of_not_forks hkind fun _ => hij,
    .of_not_forks Array.back?_push hkind c f a b _⟩

/-! ### Where both walks stand -/

/-- Both walks are in front of what is left of a routine. -/
structure BeforeNodes (c : Subject) (opened : List String) (f : String) (k : Nat)
    (mask : List Bool) (nodes nodes' : List NodeId) (u v : Walk) : Prop where
  ready : Ready c opened f u
  paired : Paired c mask u v
  left : u.session.Rest f k nodes
  right : v.session.Rest f k nodes'
  closes : u.Closes nodes
  gap : Gap c f k k mask u

/-- Both walks are in front of a node of a routine. -/
structure BeforeNode (c : Subject) (opened : List String) (f : String) (k : Nat)
    (mask : List Bool) (id id' : NodeId) (n n' : Node) (u v : Walk) : Prop where
  ready : Ready c opened f u
  paired : Paired c mask u v
  left : u.session.Holds f k id n
  right : v.session.Holds f k id' n'
  skipTo : u.self.skipTo = none
  gap : Gap c f k k mask u

/-- Both walks are in front of a routine that the call at a node may reach. -/
structure BeforeCall (c : Subject) (opened : List String) (f : String) (k : Nat)
    (mask : List Bool) (id id' : NodeId) (n : Node) (u v : Walk) : Prop where
  ready : Ready c opened f u
  paired : Paired c mask u v
  left : u.session.Holds f k id n
  right : v.session.Holds f k id' n
  plain : n.callApi? = some .plain
  skipTo : u.self.skipTo = none
  gap : Gap c f k (k + 1) mask u

/-- Both walks are in front of a child that the fork at a node may start. -/
structure BeforeFork (c : Subject) (f : String) (k : Nat) (mask : List Bool) (id id' : NodeId)
    (n : Node) (u v : Walk) : Prop where
  answers : Answers c u.session
  paired : Paired c mask u v
  left : u.session.Holds f k id n
  right : v.session.Holds f k id' n
  single : n.companionOf? = none
  gap : Gap c f (k + 1) k mask u

/-- Walks in front of the same nodes stay paired. -/
def NodesPair (c : Subject) (r : Runtime) (ancestry opened : List String) (nodes : List NodeId)
    (u : Walk) : Prop :=
  ∀ u' f k mask nodes' v v', walk c r ancestry opened nodes u = .ok u' →
    walk c.full r ancestry opened nodes' v = .ok v' →
    BeforeNodes c opened f k mask nodes nodes' u v → ∃ mask', Paired c mask' u' v'

/-- Walks in front of the same node stay paired. -/
def NodePairs (c : Subject) (r : Runtime) (ancestry opened : List String) (id : NodeId) (n : Node)
    (u : Walk) : Prop :=
  ∀ u' f k mask id' n' v v', handle c r ancestry opened id n u = .ok u' →
    handle c.full r ancestry opened id' n' v = .ok v' →
    BeforeNode c opened f k mask id id' n n' u v →
      ∃ mask', Paired c mask' u' v' ∧ Gap c f (k + 1) (k + 1) mask' u'

/-- Walks in front of the same call stay paired. -/
def CallsPair (c : Subject) (r : Runtime) (ancestry opened : List String) (id : NodeId)
    (args : List Operand) (targets : List String) (u : Walk) : Prop :=
  ∀ u' f k mask id' n v v', callAll c r ancestry opened id args targets u = .ok u' →
    callAll c.full r ancestry opened id' args targets v = .ok v' →
    BeforeCall c opened f k mask id id' n u v → (∀ g ∈ targets, c.Calls f g) →
      ∃ mask', Paired c mask' u' v' ∧ Gap c f k (k + 1) mask' u'

/-- Walks in front of the same fork stay paired. -/
def ForksPair (c : Subject) (r : Runtime) (ancestry opened : List String) (id : NodeId)
    (api : ForkApi) (operand : Operand) (entries : List String) (u : Walk) : Prop :=
  ∀ u' f k mask id' n v v', forkAll c r ancestry opened id api operand entries u = .ok u' →
    forkAll c.full r ancestry opened id' api operand entries v = .ok v' →
    BeforeFork c f k mask id id' n u v → ∃ mask', Paired c mask' u' v' ∧ Gap c f (k + 1) k mask' u'

section Cases

/-! ### The cases of the induction

Each takes what holds of the parts as hypotheses. -/

variable {id id' : NodeId} {n n' : Node} {api : ForkApi} {operand : Operand} {args : List Operand}
  {entry : String} {rest targets entries : List String}

/-- No node is left. -/
theorem NodesPair.nil : NodesPair c r ancestry opened [] u := by
  intro u' f k mask nodes' v v' hu hv h
  have hsame := sameNode_of_rest h.paired.session.left h.paired.session.right h.left h.right
  cases hsame
  rw [walk] at hu hv
  cases hu
  cases hv
  exact ⟨mask, h.paired⟩

/-- Both walks are behind a node that they were in front of. -/
theorem NodePairs.step (hc : c.program.Distinct) (hfrank : c.Frank)
    (hdedup : c.settings.dedupCalls = true) (hnode : NodePairs c r ancestry opened id n u)
    (h : BeforeNode c opened f k mask id id' n n' u v)
    (hu : handle c r ancestry opened id n u = .ok u')
    (hv : handle c.full r ancestry opened id' n' v = .ok v') (nodes : List NodeId) :
    Ready c opened f u' ∧ Later c u.session u'.session ∧ Later c v.session v'.session ∧
      u'.Closes nodes ∧ ∃ mask', Paired c mask' u' v' ∧ Gap c f (k + 1) (k + 1) mask' u' := by
  have hout := (all_keep hc hfrank hdedup r).2.1 ancestry opened id n u u' f k hu h.ready
    h.left.at_ h.left.node h.skipTo
  have hlater : Later c v.session v'.session :=
    (((all_grow c.full r).2.1 _ _ _ _ _ _ h.right.node hv).later
      (show c.full.program.Distinct from hc)).of_full
  exact ⟨hout.ready h.ready, hout.later, hlater, .of_none hout.skipTo nodes,
    hnode u' f k mask id' n' v v' hu hv h⟩

/-- A node and those behind it. -/
theorem NodesPair.cons (hc : c.program.Distinct) (hfrank : c.Frank)
    (hdedup : c.settings.dedupCalls = true) {nodes : List NodeId}
    (ihnodes : ∀ w, NodesPair c r ancestry opened nodes w)
    (ihnode : ∀ n w, NodePairs c r ancestry opened id n w) :
    NodesPair c r ancestry opened (id :: nodes) u := by
  intro u' f k mask nodes' v v' hu hv h
  have hsame := sameNode_of_rest h.paired.session.left h.paired.session.right h.left h.right
  cases hsame with
  | @cons _ id' _ nodes' hid hsame =>
    obtain ⟨hat, hrest⟩ := h.left.cons
    obtain ⟨hat', hrest'⟩ := h.right.cons
    obtain ⟨n, hn, hu⟩ := walk_cons_ok hu
    obtain ⟨n', hn', hv⟩ := walk_cons_ok hv
    obtain ⟨m, hm, htwin⟩ :=
      hid.exists_twin hc h.paired.session.left h.paired.session.right hn
    rw [hn'] at hm
    cases hm
    have hskipped : v.isSkipped n' = u.isSkipped n := by
      unfold isSkipped
      rw [h.paired.self.skipTo_eq, htwin.inst_eq]
    have hgap : Gap c f (k + 1) (k + 1) mask u := h.gap.mono (Nat.le_succ k) (Nat.le_succ k)
    rw [hskipped] at hv
    obtain ⟨hskip, hu⟩ | ⟨hreached, opens, x, p, hvisit, hp, hu⟩ := hu
    · obtain ⟨-, hv⟩ | ⟨hno, -⟩ := hv
      · exact ihnodes u u' f (k + 1) mask nodes' v v' hu hv
          ⟨h.ready, h.paired, hrest, hrest', h.closes.tail hn hskip, hgap⟩
      · rw [hskip] at hno
        cases hno
    · obtain ⟨hyes, -⟩ | ⟨-, opens', y, q, hvisit', hq, hv⟩ := hv
      · rw [hreached] at hyes
        cases hyes
      · obtain ⟨m, base, hm, rfl⟩ := h.ready.placed.exists_shift hat hn
        obtain ⟨hx, -, hlater, -⟩ := h.ready.visit hc hm hvisit
        have hlater' : Later c v.session y.session := (visit_grows (c := c) hvisit').later hc
        obtain ⟨hclosex, hnone⟩ := visit_closes hvisit rfl
        obtain ⟨rfl, mask₁, hxy, hkeeps⟩ := h.paired.reach.visit hc htwin hsame hvisit hvisit'
        have hgapx : Gap c f k k mask₁ x := hkeeps f k k h.gap
        have hstep : Ready c opened f p ∧ Later c x.session p.session ∧
            Later c y.session q.session ∧ p.Closes nodes ∧
            ∃ mask₂, Paired c mask₂ p q ∧ Gap c f (k + 1) (k + 1) mask₂ p := by
          cases opens' with
          | true =>
            exact (ihnode _ x).step hc hfrank hdedup ⟨hx, hxy, Holds.later ⟨hat, hn⟩ hlater,
              Holds.later ⟨hat', hn'⟩ hlater', hnone rfl, hgapx⟩ hp hq nodes
          | false =>
            cases hp
            cases hq
            exact ⟨hx, .refl c _, .refl c _, hclosex, mask₁, hxy,
              hgapx.mono (Nat.le_succ k) (Nat.le_succ k)⟩
        obtain ⟨hreadyp, hlaterp, hlaterq, hclosep, mask₂, hpq, hgapp⟩ := hstep
        exact ihnodes p u' f (k + 1) mask₂ nodes' q v' hu hv
          ⟨hreadyp, hpq, hrest.mono (hlater.trans hlaterp).remembers,
            hrest'.mono (hlater'.trans hlaterq).remembers, hclosep, hgapp⟩

/-- A node that makes an event of its own. -/
theorem NodePairs.of_record (hc : c.program.Distinct) {kind : EventKind} (hkind : ¬ kind.Forks)
    (hnone : n.companionOf? = none) (hhandle : ∀ c w id,
      handle c r ancestry opened id n w = .ok (w.record id kind)) :
    NodePairs c r ancestry opened id n u := by
  intro u' f k mask id' n' v v' hu hv h
  obtain ⟨rfl, hagree⟩ := h.paired.same_node hc h.left h.right hnone
  rw [hhandle] at hu hv
  cases hu
  cases hv
  exact h.paired.record hagree hkind f (k + 1) (k + 1)

/-- A companion join. -/
theorem NodePairs.companion (hc : c.program.Distinct) {api : JoinApi} {fork : NodeId}
    (heffect : n.effect = .join api operand (some fork)) :
    NodePairs c r ancestry opened id n u := by
  intro u' f k mask id' n' v v' hu hv h
  obtain ⟨m, hm, htwin⟩ := SameNode.exists_twin ⟨f, k, h.left.at_, h.right.at_⟩ hc
    h.paired.session.left h.paired.session.right h.left.node
  rw [h.right.node] at hm
  cases hm
  cases htwin with
  | same hnone => simp [Node.companionOf?, heffect] at hnone
  | @join site api' operand' i j hij =>
    dsimp only at heffect
    cases heffect
    rw [handle] at hu hv
    obtain ⟨mask', h', hkeeps⟩ := h.paired.joinCompanion hij hu hv
    exact ⟨mask', h', (hkeeps f k k h.gap).mono (Nat.le_succ k) (Nat.le_succ k)⟩

/-- A join of a handle. -/
theorem NodePairs.join (hc : c.program.Distinct) {api : JoinApi}
    (heffect : n.effect = .join api operand none) : NodePairs c r ancestry opened id n u := by
  intro u' f k mask id' n' v v' hu hv h
  obtain ⟨rfl, -⟩ := h.paired.same_node hc h.left h.right (by simp [Node.companionOf?, heffect])
  rw [handle, heffect] at hu hv
  cases hu
  cases hv
  obtain ⟨mask', h', hkeeps⟩ := h.paired.joinHandle hc operand
  exact ⟨mask', h', (hkeeps f k k h.gap).mono (Nat.le_succ k) (Nat.le_succ k)⟩

/-- A fork. -/
theorem NodePairs.fork (hc : c.program.Distinct) {entry : ThreadEntry}
    (heffect : n.effect = .fork api operand entry)
    (ih : ForksPair c r ancestry opened id api operand (c.entryTargets entry) (u.meetFork id)) :
    NodePairs c r ancestry opened id n u := by
  intro u' f k mask id' n' v v' hu hv h
  have hnone : n.companionOf? = none := by simp [Node.companionOf?, heffect]
  obtain ⟨rfl, -⟩ := h.paired.same_node hc h.left h.right hnone
  rw [handle, heffect] at hu hv
  obtain ⟨mask', h', hgap⟩ := ih u' f k mask id' n' (v.meetFork id') v' hu hv
    ⟨h.ready.answers, h.paired.meetFork id id', h.left, h.right, hnone,
      h.gap.mono (Nat.le_succ k) (Nat.le_refl k)⟩
  exact ⟨mask', h', hgap.mono (Nat.le_refl _) (Nat.le_succ k)⟩

/-- A call that is a construct of a runtime. -/
theorem NodePairs.construct (hc : c.program.Distinct) {api : CallApi} {callee : Callee}
    (heffect : n.effect = .call api callee args) (hruntime : api.isRuntime = true) :
    NodePairs c r ancestry opened id n u := by
  intro u' f k mask id' n' v v' hu hv h
  obtain ⟨rfl, -⟩ := h.paired.same_node hc h.left h.right (by simp [Node.companionOf?, heffect])
  rw [handle, heffect] at hu hv
  dsimp only at hu hv
  rw [if_pos hruntime] at hu hv
  cases hu
  cases hv
  exact ⟨mask, h.paired, h.gap.mono (Nat.le_succ k) (Nat.le_succ k)⟩

/-- A call of routines. -/
theorem NodePairs.call (hc : c.program.Distinct) {api : CallApi} {callee : Callee}
    (heffect : n.effect = .call api callee args) (hruntime : ¬ api.isRuntime = true)
    (ih : CallsPair c r ancestry opened id args (c.callTargets callee) u) :
    NodePairs c r ancestry opened id n u := by
  intro u' f k mask id' n' v v' hu hv h
  have hnone : n.companionOf? = none := by simp [Node.companionOf?, heffect]
  obtain ⟨rfl, -⟩ := h.paired.same_node hc h.left h.right hnone
  have hn := h.ready.placed.getElem?_nodesOf h.left.at_ h.left.node hnone
  obtain rfl : api = .plain := by cases api <;> first | rfl | exact absurd rfl hruntime
  rw [handle, heffect] at hu hv
  dsimp only at hu hv
  rw [if_neg hruntime] at hu hv
  obtain ⟨mask', h', hgap⟩ := ih u' f k mask id' n' v v' hu hv
    ⟨h.ready, h.paired, h.left, h.right, by simp [Node.callApi?, heffect], h.skipTo,
      h.gap.mono (Nat.le_refl k) (Nat.le_succ k)⟩
    (fun g hg => Subject.calls_of_mem (List.mem_of_getElem? hn) heffect hg)
  exact ⟨mask', h', hgap.mono (Nat.le_succ k) (Nat.le_refl _)⟩

/-- No routine is left. -/
theorem CallsPair.nil : CallsPair c r ancestry opened id args [] u := by
  intro u' f k mask id' n v v' hu hv h _
  rw [callAll] at hu hv
  cases hu
  cases hv
  exact ⟨mask, h.paired, h.gap⟩

namespace BeforeCall

/-- A node with a call is no companion join. -/
theorem single (h : BeforeCall c opened f k mask id id' n u v) : n.companionOf? = none := by
  have hplain := h.plain
  unfold Node.callApi? at hplain
  split at hplain
  · next heffect => simp [Node.companionOf?, heffect]
  · cases hplain

/-- Both look a routine up. -/
theorem consult (h : BeforeCall c opened f k mask id id' n u v) (hc : c.program.Distinct)
    {nodes nodes' : Option (List NodeId)} {session session' : Session}
    (hsummary : u.session.summary c g = .ok (nodes, session))
    (hsummary' : v.session.summary c.full g = .ok (nodes', session')) :
    BeforeCall c opened f k mask id id' n { u with session } { v with session := session' } := by
  have hlearns : Learns c u.session session := .summary hsummary
  have hlearns' : Learns c.full v.session session' := .summary hsummary'
  have hlater : Later c u.session session := hlearns.later hc
  have hlater' : Later c v.session session' :=
    (hlearns'.later (show c.full.program.Distinct from hc)).of_full
  exact ⟨h.ready.consult hc hsummary,
    h.paired.consult hlater hlater' hlearns.extends.threads hlearns'.extends.threads,
    h.left.later hlater, h.right.later hlater', h.plain, h.skipTo,
    h.gap.of_eq rfl hlater.remembers⟩

variable (hc : c.program.Distinct) (hfrank : c.Frank) (hdedup : c.settings.dedupCalls = true)
  (h : BeforeCall c opened f k mask id id' n u v) (hopen : g ∉ opened) (hcall : c.Calls f g)
  {nodes nodes' : List NodeId} {x p y : Walk}

include hc hfrank hdedup h hopen hcall

/-- The first walk passes a call over, and the other one makes only events that may be left out. -/
theorem repeated (hrepeated : u.isRepeated c g args = .ok (true, x))
    (hrest : v.session.Rest g 0 nodes')
    (hy : walk c.full r ancestry (g :: opened) nodes' (v.record id' .call) = .ok y) :
    ∃ mask', BeforeCall c opened f k mask' id id' n x (y.record id' .return) := by
  obtain ⟨hlater, -, hskip, -, hagain, -⟩ :=
    h.ready.isRepeated hc hfrank hdedup hopen hcall hrepeated
  obtain ⟨hready, hmem⟩ := hagain rfl
  obtain ⟨hx, hevents, -⟩ := h.paired.isRepeated hc hrepeated
  have hcalled := hx.drop_call id' (Or.inl rfl)
  obtain ⟨-, mask₂, hxy⟩ := hcalled.walk_settled hc hready.memo ⟨hmem, hopen⟩ hrest
    (h.paired.self.skipTo_eq.symm.trans h.skipTo) hy
  have hlatery : Later c v.session y.session :=
    ((walk_grows hy).later (show c.full.program.Distinct from hc)).of_full
  have hn := h.ready.placed.getElem?_nodesOf h.left.at_ h.left.node h.single
  exact ⟨mask₂ ++ [false], hready, hxy.drop_call id' (Or.inr rfl), h.left.later hlater,
    h.right.later hlatery, h.plain, hskip.trans h.skipTo,
    (h.gap.of_eq hevents hlater.remembers).spare hn h.plain _⟩

/-- Both walks expand a call. -/
theorem expanded (hrepeated : u.isRepeated c g args = .ok (false, x))
    (hleft : u.session.Rest g 0 nodes) (hright : v.session.Rest g 0 nodes')
    (hp : walk c r ancestry (g :: opened) nodes (x.record id .call) = .ok p)
    (hy : walk c.full r ancestry (g :: opened) nodes' (v.record id' .call) = .ok y)
    (ih : NodesPair c r ancestry (g :: opened) nodes (x.record id .call)) :
    ∃ mask', BeforeCall c opened f k mask' id id' n (p.record id .return)
      (y.record id' .return) := by
  obtain ⟨hlater, -, hskip, -, -, hfirst⟩ :=
    h.ready.isRepeated hc hfrank hdedup hopen hcall hrepeated
  obtain ⟨hx, -⟩ := h.paired.isRepeated hc hrepeated
  have hforks : ¬ EventKind.call.Forks := by rintro ⟨_, ⟨⟩⟩
  have hreturns : ¬ EventKind.return.Forks := by rintro ⟨_, ⟨⟩⟩
  have hskipx : x.self.skipTo = none := hskip.trans h.skipTo
  have hid := h.left.later hlater
  have hcalled :=
    hx.keep_of_not_forks hforks fun _ => (hx.same_node hc hid h.right h.single).2
  have hrest : (x.record id .call).session.Rest g 0 nodes := hleft.mono hlater.remembers
  have hinner := (hfirst rfl).call id
  have hout := (all_keep hc hfrank hdedup r).1 ancestry (g :: opened) _ _ p g 0 hp hinner hrest
    (.of_none hskipx _)
  obtain ⟨mask₂, hpy⟩ := ih p g 0 _ _ _ y hp hy
    ⟨hinner, hcalled, hrest, hright, .of_none hskipx _,
      .of_not_forks Array.back?_push hforks c g 0 0 _⟩
  have hlatery : Later c v.session y.session :=
    ((walk_grows hy).later (show c.full.program.Distinct from hc)).of_full
  have hidp : p.session.Holds f k id n := hid.later hout.later
  have hidy : y.session.Holds f k id' n := h.right.later hlatery
  obtain ⟨mask₃, hreturned, hgap⟩ :=
    hpy.record (hpy.same_node hc hidp hidy h.single).2 hreturns f k (k + 1)
  have hback : Ready c opened f (p.record id .return) :=
    h.ready.resume hfrank hcall (hout.later.placed hinner.placed)
      ⟨hout.later, hout.answers, hout.memo, hout.passes, hout.skipTo,
        fun hmem l => hout.handled hmem hskipx l (Nat.zero_le l)⟩ id
  exact ⟨mask₃, hback, hreturned, hidp, hidy, h.plain, hout.skipTo, hgap⟩

end BeforeCall

/-- A routine that a call may reach, and those behind it. -/
theorem CallsPair.cons (hc : c.program.Distinct) (hfrank : c.Frank)
    (hdedup : c.settings.dedupCalls = true)
    (ihcalls : ∀ w, CallsPair c r ancestry opened id args targets w)
    (ihnodes : ∀ (nodes : Option (List NodeId)) (routine : Routine),
      c.program.definition? g = some routine → g ∉ opened → ∀ w : Walk,
        NodesPair c r ancestry (g :: opened) (nodes.getD []) (w.record id .call)) :
    CallsPair c r ancestry opened id args (g :: targets) u := by
  intro u' f k mask id' n v v' hu hv h hcalls
  have hcall := hcalls g List.mem_cons_self
  have hcalls' : ∀ e ∈ targets, c.Calls f e := fun e he => hcalls e (List.mem_cons_of_mem _ he)
  obtain ⟨nodes, session, hsummary, hu⟩ := callAll_cons_ok hu
  obtain ⟨nodes', session', hsummary', hv⟩ := callAll_cons_ok hv
  have h₁ := h.consult hc hsummary hsummary'
  obtain ⟨hpass, hu⟩ | ⟨routine, hdef, hopen, repeated, x, hrepeated, hu⟩ := hu
  · obtain ⟨-, hv⟩ | ⟨routine, hdef, hopen, -⟩ := hv
    · exact ihcalls _ u' f k mask id' n _ v' hu hv h₁ hcalls'
    · rcases hpass with hnone | hmem
      · rw [show c.program.definition? g = some routine from hdef] at hnone
        cases hnone
      · exact absurd hmem hopen
  · obtain ⟨hpass, -⟩ | ⟨routine', hdef', -, repeated', y, hrepeated', hv⟩ := hv
    · rcases hpass with hnone | hmem
      · rw [show c.program.definition? g = none from hnone] at hdef
        cases hdef
      · exact absurd hmem hopen
    · obtain ⟨rfl, rfl⟩ := isRepeated_full hrepeated'
      obtain ⟨hrep, -⟩ | ⟨-, y, hy, hv⟩ := hv
      · cases hrep
      obtain ⟨rfl, hu⟩ | ⟨rfl, p, hp, hu⟩ := hu
      · obtain ⟨mask', h'⟩ := h₁.repeated hc hfrank hdedup hopen hcall hrepeated
          (.of_summary hsummary' hdef') hy
        exact ihcalls x u' f k mask' id' n _ v' hu hv h' hcalls'
      · obtain ⟨mask', h'⟩ := h₁.expanded hc hfrank hdedup hopen hcall hrepeated
          (.of_summary hsummary hdef) (.of_summary hsummary' hdef') hp hy
          (ihnodes nodes routine hdef hopen x)
        exact ihcalls _ u' f k mask' id' n _ v' hu hv h' hcalls'

/-- No child is left. -/
theorem ForksPair.nil : ForksPair c r ancestry opened id api operand [] u := by
  intro u' f k mask id' n v v' hu hv h
  rw [forkAll] at hu hv
  cases hu
  cases hv
  exact ⟨mask, h.paired, h.gap⟩

/-- A child that is not started. -/
theorem ForksPair.pass (hpass : entry ∈ ancestry ∨ c.settings.maxThreads ≤ u.session.threads.size)
    (ih : ForksPair c r ancestry opened id api operand entries u) :
    ForksPair c r ancestry opened id api operand (entry :: entries) u := by
  intro u' f k mask id' n v v' hu hv h
  obtain ⟨-, hu⟩ | ⟨ha, hlimit, -⟩ := forkAll_cons_ok hu
  · obtain ⟨-, hv⟩ | ⟨ha, hlimit, -⟩ := forkAll_cons_ok hv
    · exact ih u' f k mask id' n v v' hu hv h
    · rw [← h.paired.session.size_eq] at hlimit
      exact absurd hpass (not_or.2 ⟨ha, Nat.not_le.2 hlimit⟩)
  · exact absurd hpass (not_or.2 ⟨ha, Nat.not_le.2 hlimit⟩)

/-- Both walks go along a child, which has a body or not. -/
theorem Paired.walksChild (hc : c.program.Distinct) (hfrank : c.Frank)
    (hdedup : c.settings.dedupCalls = true) {x y inner inner' : Walk} {child : ThreadId}
    (h : Paired c [] (x.enterChild child api) (y.enterChild child api))
    (hanswers : Answers c x.session)
    (hinner : WalksChild c r ancestry entry (x.enterChild child api) inner)
    (hinner' : WalksChild c.full r ancestry entry (y.enterChild child api) inner')
    (ih : ∀ routine, c.program.definition? entry = some routine →
      ∀ (nodes : Option (List NodeId)) (session : Session),
        NodesPair c r (entry :: ancestry) [entry] (nodes.getD [])
          { x.enterChild child api with session }) :
    Answers c inner.session ∧ ∃ mask, Paired c mask inner inner' := by
  rcases hinner with ⟨hnone, rfl⟩ | ⟨routine, nodes, session, hdef, hsummary, hwalk⟩
  · rcases hinner' with ⟨-, rfl⟩ | ⟨routine, -, -, hdef, -⟩
    · exact ⟨hanswers, [], h⟩
    · rw [show c.program.definition? entry = some routine from hdef] at hnone
      cases hnone
  · rcases hinner' with ⟨hnone, -⟩ | ⟨routine', nodes', session', hdef', hsummary', hwalk'⟩
    · rw [show c.program.definition? entry = none from hnone] at hdef
      cases hdef
    · have hlearns : Learns c (x.enterChild child api).session session := .summary hsummary
      have hlearns' : Learns c.full (y.enterChild child api).session session' := .summary hsummary'
      have hlater : Later c (x.enterChild child api).session session := hlearns.later hc
      have hlater' : Later c (y.enterChild child api).session session' :=
        (hlearns'.later (show c.full.program.Distinct from hc)).of_full
      have hready := Ready.start (hlater.placed h.session.left)
        (Answers.summary (s := (x.enterChild child api).session) hanswers hsummary) child
        (some api) entry
      have hout := (all_keep hc hfrank hdedup r).1 _ _ _ _ inner entry 0 hwalk hready
        (.of_summary hsummary hdef) (.of_none rfl _)
      exact ⟨hout.answers, ih routine hdef nodes session inner entry 0 [] _ _ inner' hwalk hwalk'
        ⟨hready, h.consult hlater hlater' hlearns.extends.threads hlearns'.extends.threads,
          .of_summary hsummary hdef, .of_summary hsummary' hdef', .of_none rfl _,
          .of_empty rfl c entry 0 0 []⟩⟩

/-- A child that is started, and those behind it. -/
theorem ForksPair.start (hc : c.program.Distinct) (hfrank : c.Frank)
    (hdedup : c.settings.dedupCalls = true) (ha : entry ∉ ancestry)
    (hlimit : ¬ u.session.threads.size ≥ c.settings.maxThreads)
    (ihforks : ∀ w inner,
      ForksPair c r ancestry opened id api operand entries (endFork r w id api operand inner))
    (ihnodes : ∀ (child : ThreadId) (w : Walk) (routine : Routine),
      c.program.definition? entry = some routine →
        ∀ (nodes : Option (List NodeId)) (session : Session),
          NodesPair c r (entry :: ancestry) [entry] (nodes.getD [])
            { w.enterChild child api with session }) :
    ForksPair c r ancestry opened id api operand (entry :: entries) u := by
  intro u' f k mask id' n v v' hu hv h
  obtain ⟨hpass, -⟩ | ⟨-, -, child, x, inner, last, hbegin, hinner, hlast, hu⟩ :=
    forkAll_cons_ok hu
  · exact absurd hpass (not_or.2 ⟨ha, hlimit⟩)
  obtain ⟨hpass, -⟩ | ⟨-, -, child', y, inner', last', hbegin', hinner', hlast', hv⟩ :=
    forkAll_cons_ok hv
  · rw [← h.paired.session.size_eq] at hpass
    exact absurd hpass (not_or.2 ⟨ha, hlimit⟩)
  obtain ⟨rfl, hxy, hgap⟩ := h.paired.beginFork hc h.gap h.left.at_ h.right.at_ h.left.node h.single
    hbegin hbegin'
  have hlaterx : Later c u.session x.session := beginFork_later hbegin
  have hlatery : Later c v.session y.session := beginFork_later hbegin'
  obtain ⟨hanswers, mask₂, hinners⟩ := (hxy.enterChild child' api).walksChild hc hfrank hdedup
    (beginFork_answers hbegin h.answers) hinner hinner' (ihnodes child' x)
  obtain ⟨mask₃, hlasts⟩ := hinners.finish hlast hlast'
  have hlaterl : Later c x.session last.close.session :=
    ((hinner.later hc).trans ((finish_grows (c := c) hlast).later hc)).trans (.of_eq rfl rfl)
  have hlaterl' : Later c y.session last'.close.session :=
    ((hinner'.later (show c.full.program.Distinct from hc)).of_full.trans
      ((finish_grows (c := c) hlast').later hc)).trans (.of_eq rfl rfl)
  have hleft := h.left.later hlaterx
  have hright := h.right.later hlatery
  have hended := hxy.endFork ⟨f, k, hleft.at_, hright.at_⟩ hlasts.close hlaterl hlaterl' r api
    operand
  exact ihforks x last.close u' f k _ id' n _ v' hu hv
    ⟨(finish_ticks hlast).answers hanswers, hended, hleft.later hlaterl, hright.later hlaterl',
      h.single, hgap.of_eq rfl hlaterl.remembers⟩

end Cases

/-- What is walked both ways, whether it is a list of nodes, a node, the routines of a call or the
children of a fork, keeps walks paired. -/
theorem all_paired (hc : c.program.Distinct) (hfrank : c.Frank)
    (hdedup : c.settings.dedupCalls = true) (r : Runtime) :
    (∀ ancestry opened nodes u, NodesPair c r ancestry opened nodes u) ∧
      (∀ ancestry opened id n u, NodePairs c r ancestry opened id n u) ∧
      (∀ ancestry opened id args targets u, CallsPair c r ancestry opened id args targets u) ∧
      ∀ ancestry opened id api operand entries u,
        ForksPair c r ancestry opened id api operand entries u := by
  apply walk.mutual_induct c r (NodesPair c r) (NodePairs c r) (CallsPair c r) (ForksPair c r)
  case case1 => exact fun _ _ _ => .nil
  case case2 => exact fun _ _ _ _ _ _ ihnodes ihnode => .cons hc hfrank hdedup ihnodes ihnode
  case case3 | case4 | case5 | case6 | case7 | case8 =>
    intros
    rename_i heffect
    refine .of_record hc ?_ (by rw [Node.companionOf?, heffect]) fun c w id => by
      rw [handle, heffect]
    rintro ⟨_, ⟨⟩⟩
  case case9 => exact fun _ _ _ _ _ _ _ _ heffect => .companion hc heffect
  case case10 => exact fun _ _ _ _ _ _ _ heffect => .join hc heffect
  case case11 => exact fun _ _ _ _ _ _ _ _ heffect ih => .fork hc heffect ih
  case case12 => exact fun _ _ _ _ _ _ _ _ heffect hruntime => .construct hc heffect hruntime
  case case13 => exact fun _ _ _ _ _ _ _ _ heffect hruntime ih => .call hc heffect hruntime ih
  case case14 => exact fun _ _ _ _ _ => .nil
  case case15 =>
    exact fun _ _ _ _ _ _ _ _ ihcalls ihnodes _ => .cons hc hfrank hdedup ihcalls ihnodes
  case case16 => exact fun _ _ _ _ _ _ => .nil
  case case17 => exact fun _ _ _ _ _ _ _ _ ha ih => .pass (Or.inl ha) ih
  case case18 => exact fun _ _ _ _ _ _ _ _ _ hlimit ih => .pass (Or.inr hlimit) ih
  case case19 =>
    exact fun _ _ _ _ _ _ _ _ ha hlimit ihforks ihnodes =>
      .start hc hfrank hdedup ha hlimit ihforks ihnodes

end Walk

end DataRace
