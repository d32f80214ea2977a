import DataRace.Proofs.Classify.Teams
import DataRace.Proofs.Trace.Placed
import Mathlib.Data.List.TakeWhile

/-!
# Companion joins are announced

Among the nodes of a routine a companion join stands behind its fork, and all nodes from the fork up
to it were made of one instruction (`Arena.Announced`).  What was announced stays so when the nodes
in front are taken off, as long as the forks among them are remembered (`Announced.tail`), and also
when everything up to the next node of some instruction is passed over, for that leaves all nodes of
an instruction or none (`Announced.dropWhile`).  Teams are made by one instruction, so it does not
matter whether other instructions share its id.

Sessions keep the nodes of their routines announced when they look more up, and so does everything
that a walk does (`Walk.Grows.announcing`).
-/

namespace DataRace

namespace Arena

/-- All of some nodes were made of instructions with one id. -/
def OfInst (a : Arena) (i : InstId) (ids : List NodeId) : Prop :=
  ∀ id ∈ ids, ∃ n, a.get? id = some n ∧ n.inst = i

/-- Every companion join among nodes belongs to a fork that is known, or that stands in front of it
with nothing but nodes of its instruction in between. -/
def Announced (a : Arena) (known : NodeId → Prop) (ids : List NodeId) : Prop :=
  ∀ front id behind, ids = front ++ id :: behind → ∃ n, a.get? id = some n ∧
    ∀ fork, n.companionOf? = some fork → known fork ∨ ∃ before between,
      front = before ++ fork :: between ∧ a.TeamFork fork ∧ a.OfInst n.inst (fork :: between)

variable {a b : Arena} {known known' : NodeId → Prop} {ids ids' : List NodeId} {id : NodeId}

/-- Nodes keep their instructions. -/
theorem OfInst.mono {i : InstId} (h : a.OfInst i ids) (hab : a.Extends b) : b.OfInst i ids :=
  fun id hid => (h id hid).imp fun n hn => ⟨hab id n hn.1, hn.2⟩

namespace Announced

/-- Nothing is announced. -/
theorem nil : a.Announced known [] := by
  intro front id behind h
  cases front <;> cases h

/-- Joins stay announced in a later arena, and when more forks are known. -/
protected theorem mono (h : a.Announced known ids) (hab : a.Extends b)
    (hknown : ∀ fork, known fork → known' fork) : b.Announced known' ids := by
  intro front id behind hsplit
  obtain ⟨n, hn, hjoin⟩ := h front id behind hsplit
  refine ⟨n, hab id n hn, fun fork hfork => (hjoin fork hfork).imp (hknown fork) ?_⟩
  rintro ⟨before, between, hfront, hteam, hinst⟩
  exact ⟨before, between, hfront, hteam.mono hab, hinst.mono hab⟩

/-- The first of the nodes is there, and if it is a companion join, its fork is known. -/
theorem head (h : a.Announced known (id :: ids)) : ∃ n, a.get? id = some n ∧
    ∀ fork, n.companionOf? = some fork → known fork := by
  obtain ⟨n, hn, hjoin⟩ := h [] id ids rfl
  refine ⟨n, hn, fun fork hfork => (hjoin fork hfork).resolve_right ?_⟩
  rintro ⟨before, between, hfront, -⟩
  cases before <;> cases hfront

/-- Behind the first node joins are announced if the node is known, should it fork a member. -/
theorem tail (h : a.Announced known (id :: ids)) (hid : a.TeamFork id → known id) :
    a.Announced known ids := by
  intro front k behind hsplit
  obtain ⟨n, hn, hjoin⟩ := h (id :: front) k behind (congrArg (List.cons id) hsplit)
  refine ⟨n, hn, fun fork hfork => ?_⟩
  obtain hknown | ⟨before, between, hfront, hteam, hinst⟩ := hjoin fork hfork
  · exact Or.inl hknown
  · cases before with
    | nil =>
      cases hfront
      exact Or.inl (hid hteam)
    | cons _ before =>
      cases hfront
      exact Or.inr ⟨before, between, rfl, hteam, hinst⟩

/-- Two lists one after the other. -/
protected theorem append (h : a.Announced known ids) (h' : a.Announced known ids') :
    a.Announced known (ids ++ ids') := by
  intro front id behind hsplit
  obtain ⟨rest, rfl, hrest⟩ | ⟨rest, hids, hrest⟩ := List.append_eq_append_iff.1 hsplit
  · obtain ⟨n, hn, hjoin⟩ := h' rest id behind hrest
    refine ⟨n, hn, fun fork hfork => (hjoin fork hfork).imp_right ?_⟩
    rintro ⟨before, between, rfl, hteam, hinst⟩
    exact ⟨ids ++ before, between, (List.append_assoc _ _ _).symm, hteam, hinst⟩
  · cases rest with
    | nil =>
      obtain ⟨n, hn, hjoin⟩ := h' [] id behind (by simpa using hrest.symm)
      refine ⟨n, hn, fun fork hfork => (hjoin fork hfork).imp_right ?_⟩
      rintro ⟨before, between, hfront, -⟩
      cases before <;> cases hfront
    | cons k rest =>
      cases hrest
      exact h front id rest hids

/-- Behind nodes none of which shares its instruction with the next node, joins are announced. -/
theorem of_append (h : a.Announced known (ids ++ ids'))
    (hapart : ∀ id ∈ ids, ∀ next ∈ ids'.head?, ∀ i, ¬ a.OfInst i [id, next]) :
    a.Announced known ids' := by
  intro front id behind hsplit
  obtain ⟨n, hn, hjoin⟩ := h (ids ++ front) id behind (by rw [hsplit, List.append_assoc])
  refine ⟨n, hn, fun fork hfork => (hjoin fork hfork).imp_right ?_⟩
  rintro ⟨before, between, hfront, hteam, hinst⟩
  obtain ⟨rest, -, hrest⟩ | ⟨rest, hids, hrest⟩ := List.append_eq_append_iff.1 hfront
  · exact ⟨rest, between, hrest, hteam, hinst⟩
  · cases rest with
    | nil => exact ⟨[], between, hrest.symm, hteam, hinst⟩
    -- The fork was taken off, and all nodes behind it up to the join have its instruction.
    | cons k rest =>
      cases hrest
      exfalso
      have hmem : fork ∈ ids := hids ▸ List.mem_append_right _ List.mem_cons_self
      have hnext : ∃ next ∈ ids'.head?, a.OfInst n.inst [next] := by
        rw [hsplit]
        cases front with
        | nil =>
          refine ⟨id, rfl, fun k hk => ?_⟩
          rw [List.mem_singleton.1 hk]
          exact ⟨n, hn, rfl⟩
        | cons k front =>
          refine ⟨k, rfl, fun k' hk => ?_⟩
          rw [List.mem_singleton.1 hk]
          exact hinst k (List.mem_cons_of_mem _ (List.mem_append_right _ List.mem_cons_self))
      obtain ⟨next, hhead, hnext⟩ := hnext
      refine hapart fork hmem next hhead n.inst fun k hk => ?_
      rcases List.mem_cons.1 hk with rfl | hk
      · exact hinst k List.mem_cons_self
      · exact hnext k hk

/-- When nodes are passed over up to the next one of an instruction, the joins behind them stay
announced: of the nodes of one instruction all are passed over or none is. -/
theorem dropWhile (h : a.Announced known ids) {p : NodeId → Bool} {i : InstId}
    (hp : ∀ id n, a.get? id = some n → (p id = true ↔ n.inst ≠ i)) :
    a.Announced known (ids.dropWhile p) := by
  rw [← List.takeWhile_append_dropWhile (p := p) (l := ids)] at h
  refine h.of_append fun id hid next hnext j hsame => ?_
  obtain ⟨n, hn, rfl⟩ := hsame id List.mem_cons_self
  obtain ⟨m, hm, hinst⟩ := hsame next (List.mem_cons_of_mem _ List.mem_cons_self)
  have hskipped : n.inst ≠ i := (hp id n hn).1 (List.mem_takeWhile_imp hid)
  have hstop := List.head?_dropWhile_not p ids
  rw [Option.mem_def.1 hnext] at hstop
  exact absurd ((hp next m hm).2 (hinst.trans_ne hskipped)) (Bool.eq_false_iff.1 hstop)

end Announced

end Arena

/-! ### Classifying -/

namespace Arena.Laid

variable {a : Arena} {ids : List NodeId}

/-- A companion join among nodes that are laid out belongs to a fork of a member. -/
theorem teamFork (h : a.Laid ids) {id : NodeId} (hid : id ∈ ids) {n : Node}
    (hn : a.get? id = some n) {fork : NodeId} (hfork : n.companionOf? = some fork) :
    a.TeamFork fork := by
  induction h with
  | nil => cases hid
  | cons hn' _ hjoin _ ih =>
    rcases List.mem_cons.1 hid with rfl | hid
    · cases hn.symm.trans hn'
      exact (hjoin fork hfork).1
    · exact ih hid

end Arena.Laid

namespace Draft

variable {d e : Draft} {known : NodeId → Prop}

/-- The nodes of one instruction are announced where they are added. -/
theorem announced_group {i : Instruction} {ns : List Node} (hns : Group i ns)
    (hlaid : (d.extend ns).Laid) :
    (d.extend ns).arena.Announced known (List.range' d.arena.size ns.length) := by
  have hnode : ∀ k < ns.length, ∃ n, ns[k]? = some n ∧
      (d.extend ns).arena.get? (d.arena.size + k) = some (n.shift d.arena.size) ∧
      (n.shift d.arena.size).inst = i.id := by
    intro k hk
    have hn := List.getElem?_eq_getElem hk
    refine ⟨_, hn, get?_extend_add hn d, ?_⟩
    exact (congrArg Site.inst (Node.site_shift _ _)).trans (hns.inst_eq _ (List.getElem_mem hk))
  intro front id behind hsplit
  obtain ⟨k, hk, rfl, hrest⟩ := List.range'_eq_append_iff.1 hsplit
  rw [Nat.mul_one] at hrest
  obtain ⟨rfl, hpos, -⟩ := List.range'_eq_cons_iff.1 hrest.symm
  obtain ⟨n, hn, hget, hinst⟩ := hnode k (Nat.lt_of_sub_pos hpos)
  refine ⟨_, hget, fun fork hfork => Or.inr ?_⟩
  have hteam := Arena.Laid.teamFork hlaid
    (List.mem_append_right _ (List.mem_range'_1.2 ⟨Nat.le_add_right _ _, by omega⟩)) hget hfork
  rw [Node.companionOf?_shift] at hfork
  obtain ⟨j, hj, rfl⟩ := Option.map_eq_some_iff.1 hfork
  have hjk := hns.tidy k n j hn hj
  have hbetween : List.range' (j + d.arena.size) (k - j) =
      (j + d.arena.size) :: List.range' (j + d.arena.size + 1) (k - j - 1) :=
    List.range'_eq_cons_iff.2 ⟨rfl, Nat.sub_pos_of_lt hjk, rfl⟩
  refine ⟨List.range' d.arena.size j, List.range' (j + d.arena.size + 1) (k - j - 1), ?_, hteam, ?_⟩
  · rw [← hbetween, List.range'_eq_append_iff]
    exact ⟨j, hjk.le, rfl, by rw [Nat.mul_one, Nat.add_comm]⟩
  · rw [← hbetween]
    intro id hid
    obtain ⟨hge, hlt⟩ := List.mem_range'_1.1 hid
    obtain ⟨m, -, hm, hminst⟩ := hnode (id - d.arena.size) (by omega)
    rw [Nat.add_sub_cancel' (by omega)] at hm
    exact ⟨_, hm, hminst.trans hinst.symm⟩

/-- A draft in which companion joins come behind their forks, teams are laid out and all joins are
announced. -/
structure Announcing (d : Draft) : Prop where
  tidy : d.arena.Tidy
  laid : d.Laid
  announced : d.arena.Announced (fun _ => False) d.nodes

/-- The nodes of an instruction are announced. -/
theorem Announcing.classify {p : Program} {s : Settings} {chain : Chain} {i : Instruction}
    (hd : d.Announcing) (h : Draft.classify p s chain d i = .ok e) : e.Announcing := by
  obtain ⟨r, hr, hgroup⟩ := emits_classify p s chain i
  have hlaid := hd.laid.classify h
  have hextends := classify_extends h
  obtain ⟨ns, rfl, rfl⟩ := Except.map_eq_ok.1 ((hr d hd.tidy).symm.trans h)
  have hns := hgroup ns rfl
  refine ⟨tidy_extend hd.tidy hns.tidy, hlaid, ?_⟩
  exact (hd.announced.mono hextends fun _ => id).append (announced_group hns hlaid)

/-- The nodes of a body are announced. -/
theorem Announcing.classifyAll {p : Program} {s : Settings} {chain : Chain}
    {body : List Instruction} (hd : d.Announcing)
    (h : Draft.classifyAll p s chain d body = .ok e) : e.Announcing := by
  induction body generalizing d with
  | nil =>
    cases h
    exact hd
  | cons i body ih =>
    obtain ⟨d', hd', h⟩ := Except.bind_eq_ok.1 h
    exact ih (hd.classify hd') h

end Draft

/-! ### Sessions -/

namespace Session

variable {c : Subject} {s s' : Session}

/-- The nodes of all routines that were looked at are announced, and teams are laid out in them. -/
structure Announcing (s : Session) : Prop where
  tidy : s.arena.Tidy
  orderly : s.Orderly
  announced : ∀ (f : String) ids, s.summaries[f]? = some ids →
    s.arena.Announced (fun _ => False) ids

namespace Announcing

/-- Nothing was looked at. -/
theorem empty (threads : Array Thread) : Announcing { Session.empty with threads } where
  tidy := Subject.tidy_empty
  orderly := .empty threads
  announced f ids hids := by
    have hnone : (∅ : Std.HashMap String (List NodeId))[f]? = none := Std.HashMap.getElem?_empty
    exact nomatch hnone.symm.trans hids

/-- More nodes and the same routines. -/
theorem of_extends (hs : s.Announcing) (harena : s.arena.Extends s'.arena)
    (htidy : s'.arena.Tidy) (hsummaries : s'.summaries = s.summaries) : s'.Announcing where
  tidy := htidy
  orderly := hs.orderly.mono harena hsummaries
  announced f ids hids := by
    rw [hsummaries] at hids
    exact (hs.announced f ids hids).mono harena fun _ => id

/-- Other threads or answers. -/
theorem of_eq (hs : s.Announcing) (harena : s'.arena = s.arena)
    (hsummaries : s'.summaries = s.summaries) : s'.Announcing :=
  hs.of_extends (harena ▸ .refl _) (harena ▸ hs.tidy) hsummaries

/-- Classifying a routine in a session makes announced nodes. -/
theorem classifyAll (hs : s.Announcing) {body : List Instruction} {d : Draft}
    (h : Draft.classifyAll c.program c.settings c.chain ⟨s.arena, []⟩ body = .ok d) :
    d.Announcing :=
  Draft.Announcing.classifyAll (d := ⟨s.arena, []⟩) ⟨hs.tidy, .nil, .nil⟩ h

/-- The nodes that a routine is answered with are announced. -/
theorem summary (hs : s.Announcing) {f : String} {nodes : Option (List NodeId)}
    (h : s.summary c f = .ok (nodes, s')) (known : NodeId → Prop) :
    s'.arena.Announced known (nodes.getD []) := by
  obtain ⟨ids, hids, rfl, rfl⟩ | ⟨-, ⟨-, rfl, rfl⟩ | ⟨r, d, -, hd, rfl, rfl⟩⟩ := summary_cases h
  · exact (hs.announced f ids hids).mono (.refl _) fun _ => False.elim
  · exact .nil
  · exact (hs.classifyAll hd).announced.mono (.refl _) fun _ => False.elim

end Announcing

/-- Sessions keep their nodes announced when they look more up. -/
theorem Learns.announcing (h : s.Learns c s') (hs : s.Announcing) : s'.Announcing := by
  induction h with
  | refl => exact hs
  | trans _ _ ih₁ ih₂ => exact ih₂ (ih₁ hs)
  | @summary s s' f nodes h =>
    have horderly := (Learns.summary h).orderly hs.orderly
    obtain ⟨-, -, -, rfl⟩ | ⟨-, ⟨-, -, rfl⟩ | ⟨r, d, -, hd, -, rfl⟩⟩ := summary_cases h
    · exact hs
    · exact hs
    · have hd' := hs.classifyAll hd
      have hextends : s.arena.Extends d.arena :=
        Draft.foldlM_extends (fun _ _ _ => Draft.classify_extends) hd
      refine ⟨hd'.tidy, horderly, fun g ids hids => ?_⟩
      rw [Std.HashMap.getElem?_insert] at hids
      split at hids
      · cases hids
        exact hd'.announced
      · exact (hs.announced g ids hids).mono hextends fun _ => id
  | answer => exact hs.of_eq rfl rfl

end Session

/-! ### Walks -/

namespace Walk

variable {c : Subject} {r : Runtime} {w v w' : Walk}

/-- A runtime's join of a child keeps nodes announced. -/
theorem joinChild_announcing {node : NodeId} {child : ThreadId}
    (h : w.joinChild node child = .ok w') (hw : w.session.Announcing) :
    w'.session.Announcing := by
  obtain ⟨⟨join, arena⟩, hjoin, h⟩ := Except.bind_eq_ok.1 h
  cases h
  exact hw.of_extends (Arena.companionJoin_spec hjoin).1 (Arena.tidy_companionJoin hw.tidy hjoin)
    rfl

/-- The start of a child keeps nodes announced. -/
theorem beginFork_announcing {id : NodeId} {target : String} {child : ThreadId}
    (h : w.beginFork id target = .ok (child, v)) (hw : w.session.Announcing) :
    v.session.Announcing := by
  obtain ⟨⟨child', session⟩, hreserve, h⟩ := Except.bind_eq_ok.1 h
  cases h
  simp only [Session.reserve] at hreserve
  split at hreserve
  · cases hreserve
    exact hw.of_eq rfl rfl
  · cases hreserve

/-- Growth keeps nodes announced. -/
theorem Grows.announcing (h : Grows c r w w') (hw : w.session.Announcing) :
    w'.session.Announcing := by
  induction h with
  | refl | skip | meet | note | record => exact hw
  | trans _ _ ih₁ ih₂ => exact ih₂ (ih₁ hw)
  | consult h => exact h.announcing hw
  | joinCompanion _ _ h =>
    exact joinCompanion_induction (P := fun v => v.session.Announcing) h hw fun _ _ _ _ hv => hv
  | joinHandle =>
    rw [Walk.joinHandle]
    split <;> exact hw
  | joinPending h =>
    exact joinPending_induction (P := fun v => v.session.Announcing) h hw
      fun _ _ _ _ hv hj => joinChild_announcing hj hv
  | fork _ _ _ _ hbegin _ _ _ ihinner ihlast =>
    have hv := beginFork_announcing hbegin hw
    exact (ihlast (ihinner hv)).of_eq rfl rfl

end Walk

end DataRace
