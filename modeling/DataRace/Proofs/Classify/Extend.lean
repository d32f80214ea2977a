import DataRace.Proofs.Trace.Session

/-!
# Drafts that are extended

What is added to a draft does not depend on what its arena held before, except that companion joins
name forks by position.  `Draft.extend` adds a list of nodes whose companions count from the first
of them.  Adding nodes, or a team with its companion joins, is extending (`Draft.emitAll_eq_extend`,
`Draft.emitTeam_eq_extend`), as long as the companions of the arena come behind their forks.
-/

namespace DataRace

/-! ### Moving nodes -/

namespace Node

/-- A node whose fork, if it is a companion join, is further on. -/
def shift (k : Nat) (n : Node) : Node :=
  match n.effect with
  | .join api handle (some fork) => { n with effect := .join api handle (some (fork + k)) }
  | _ => n

/-- Only companion joins are changed. -/
theorem shift_of_none {n : Node} (h : n.companionOf? = none) (k : Nat) : n.shift k = n := by
  unfold companionOf? at h
  unfold shift
  split
  · next heffect =>
    rw [heffect] at h
    cases h
  · rfl

/-- What a companion join that was moved names. -/
theorem companionOf?_shift (k : Nat) (n : Node) :
    (n.shift k).companionOf? = n.companionOf?.map (· + k) := by
  cases hfork : n.companionOf? with
  | none =>
    rw [shift_of_none hfork, hfork]
    rfl
  | some fork =>
    unfold companionOf? at hfork
    split at hfork
    · next heffect =>
      subst hfork
      unfold shift companionOf?
      rw [heffect]
      rfl
    · cases hfork

/-- Moving twice. -/
theorem shift_shift (j k : Nat) (n : Node) : (n.shift j).shift k = n.shift (j + k) := by
  cases hfork : n.companionOf? with
  | none => rw [shift_of_none hfork, shift_of_none hfork, shift_of_none hfork]
  | some fork =>
    obtain ⟨site, effect⟩ := n
    unfold companionOf? at hfork
    split at hfork
    · next heffect =>
      dsimp only at heffect
      subst heffect hfork
      unfold shift
      dsimp only
      rw [Nat.add_assoc]
    · cases hfork

/-- Moving by nothing. -/
theorem shift_zero (n : Node) : n.shift 0 = n := by
  unfold shift
  split
  · next heffect =>
    obtain ⟨site, effect⟩ := n
    dsimp only at heffect
    rw [heffect]
    rfl
  · rfl

/-- A node that was moved is at the same site. -/
theorem site_shift (k : Nat) (n : Node) : (n.shift k).site = n.site := by
  unfold shift
  split <;> rfl

/-- A node that was moved is of the same instruction. -/
theorem inst_shift (k : Nat) (n : Node) : (n.shift k).inst = n.inst :=
  congrArg Site.inst (n.site_shift k)

/-- A node that was moved is the same kind of call. -/
theorem callApi?_shift (k : Nat) (n : Node) : (n.shift k).callApi? = n.callApi? := by
  unfold shift
  split
  · next heffect =>
    unfold callApi?
    rw [heffect]
  · rfl

end Node

/-! ### Tidy arenas -/

/-- Companion joins come behind their forks. -/
def Arena.Tidy (a : Arena) : Prop :=
  ∀ (id : NodeId) (n : Node) (fork : NodeId),
    a.get? id = some n → n.companionOf? = some fork → fork < id

/-- Companion joins come behind their forks, counted from the first node of a list. -/
def Tidy (ns : List Node) : Prop :=
  ∀ (k : Nat) (n : Node) (fork : NodeId),
    ns[k]? = some n → n.companionOf? = some fork → fork < k

/-- A fork that no node names has no companion join. -/
theorem Arena.companion?_eq_none {a : Arena} {fork : NodeId}
    (h : ∀ n ∈ a.nodes, n.companionOf? ≠ some fork) : a.companion? fork = none := by
  unfold companion?
  rw [Array.findIdx?_eq_none_iff]
  intro n hn
  exact decide_eq_false (h n hn)

namespace Draft

/-- Adds nodes whose companions count from the first of them. -/
def extend (d : Draft) (ns : List Node) : Draft where
  arena := ⟨d.arena.nodes ++ (ns.map (Node.shift d.arena.size)).toArray⟩
  nodes := d.nodes ++ List.range' d.arena.size ns.length

variable {d : Draft} {ns ms : List Node}

/-- The nodes of an extended draft. -/
theorem size_extend (d : Draft) (ns : List Node) :
    (d.extend ns).arena.size = d.arena.size + ns.length := by
  unfold extend Arena.size
  simp

/-- Extending by nothing. -/
theorem extend_nil (d : Draft) : d.extend [] = d := by
  obtain ⟨⟨nodes⟩, ids⟩ := d
  unfold extend
  simp

/-- Extending twice. -/
theorem extend_extend (d : Draft) (ns ms : List Node) :
    (d.extend ns).extend ms = d.extend (ns ++ ms.map (Node.shift ns.length)) := by
  have hsize := size_extend d ns
  unfold extend at hsize ⊢
  dsimp only at hsize ⊢
  rw [hsize, Draft.mk.injEq, Arena.mk.injEq]
  constructor
  · have hmap : ms.map (Node.shift (d.arena.size + ns.length)) =
        (ms.map (Node.shift ns.length)).map (Node.shift d.arena.size) := by
      rw [List.map_map]
      refine List.map_congr_left fun n _ => ?_
      rw [Function.comp_apply, Node.shift_shift, Nat.add_comm]
    rw [hmap]
    exact Array.ext' (by simp)
  · rw [List.append_assoc, List.length_append, List.length_map, List.range'_append_1]

/-- Adding a node that is no companion join. -/
theorem emit_eq_extend {n : Node} (h : n.companionOf? = none) (d : Draft) :
    d.emit n = d.extend [n] := by
  unfold emit extend Arena.push
  simp [Node.shift_of_none h, Arena.size]

/-- Adding nodes that are no companion joins. -/
theorem emitAll_eq_extend (h : ∀ n ∈ ns, n.companionOf? = none) (d : Draft) :
    d.emitAll ns = d.extend ns := by
  induction ns generalizing d with
  | nil => exact (extend_nil d).symm
  | cons n ns ih =>
    have hns := fun m hm => h m (List.mem_cons_of_mem _ hm)
    have hshift : ns.map (Node.shift [n].length) = ns := by
      refine (List.map_congr_left fun m hm => ?_).trans (List.map_id ns)
      exact Node.shift_of_none (hns m hm) _
    rw [emitAll, List.foldl_cons, ← emitAll, ih hns, emit_eq_extend (h n List.mem_cons_self),
      extend_extend, hshift]
    rfl

/-- Adding one more node. -/
theorem emit_extend (d : Draft) (ns : List Node) (n : Node) :
    (d.extend ns).emit (n.shift d.arena.size) = d.extend (ns ++ [n]) := by
  have hsize := size_extend d ns
  unfold emit extend Arena.push Arena.size at *
  dsimp only at hsize ⊢
  rw [hsize, Draft.mk.injEq, Arena.mk.injEq]
  constructor
  · exact Array.ext' (by simp)
  · rw [List.append_assoc, List.length_append, List.length_singleton, ← List.range'_append_1]
    rfl

/-- An extended draft has a node of the draft or an added one. -/
theorem get?_extend {id : NodeId} {n : Node} (h : (d.extend ns).arena.get? id = some n) :
    d.arena.get? id = some n ∨
      ∃ k m, id = d.arena.size + k ∧ ns[k]? = some m ∧ n = m.shift d.arena.size := by
  unfold extend Arena.get? at h
  rw [Array.getElem?_append] at h
  split at h
  · exact Or.inl h
  · next hge =>
    rw [List.getElem?_toArray, List.getElem?_map] at h
    obtain ⟨m, hm, rfl⟩ := Option.map_eq_some_iff.1 h
    exact Or.inr ⟨_, m, (Nat.add_sub_cancel' (Nat.le_of_not_lt hge)).symm, hm, rfl⟩

/-- The nodes that were added. -/
theorem get?_extend_add {k : Nat} {n : Node} (h : ns[k]? = some n) (d : Draft) :
    (d.extend ns).arena.get? (d.arena.size + k) = some (n.shift d.arena.size) := by
  unfold extend Arena.get? Arena.size
  rw [Array.getElem?_append_right (Nat.le_add_right _ _), Nat.add_sub_cancel_left,
    List.getElem?_toArray, List.getElem?_map, h]
  rfl

/-- Extending by a tidy list. -/
theorem tidy_extend (hd : d.arena.Tidy) (hns : Tidy ns) : (d.extend ns).arena.Tidy := by
  intro id n fork hn hfork
  rcases get?_extend hn with hn | ⟨k, m, rfl, hm, rfl⟩
  · exact hd id n fork hn hfork
  · rw [Node.companionOf?_shift] at hfork
    obtain ⟨fork', hfork', rfl⟩ := Option.map_eq_some_iff.1 hfork
    rw [Nat.add_comm]
    exact Nat.add_lt_add_left (hns k m fork' hm hfork') _

/-! ### Teams -/

/-- The companion joins of forks, counted from the first fork. -/
def companions (forks : List Node) : List Node :=
  forks.zipIdx.map fun (n, k) => ⟨n.site, .join .companion (n.handle?.getD .null) (some k)⟩

/-- There are as many companion joins as forks. -/
theorem length_companions (forks : List Node) : (companions forks).length = forks.length := by
  rw [companions, List.length_map, List.length_zipIdx]

/-- All nodes of a team are at the site of its forks. -/
theorem site_of_mem_team {forks : List Node} {site : Site} (h : ∀ n ∈ forks, n.site = site)
    {n : Node} (hn : n ∈ forks ++ companions forks) : n.site = site := by
  rcases List.mem_append.1 hn with hn | hn
  · exact h n hn
  · obtain ⟨⟨m, k⟩, hm, rfl⟩ := List.mem_map.1 hn
    exact h m (List.fst_mem_of_mem_zipIdx hm)

/-- A fork node. -/
def IsFork (n : Node) : Prop := ∃ api handle entry, n.effect = .fork api handle entry

/-- A fork is no companion join. -/
theorem companionOf?_of_isFork {n : Node} (h : IsFork n) : n.companionOf? = none := by
  obtain ⟨api, handle, entry, heffect⟩ := h
  unfold Node.companionOf?
  rw [heffect]

/-- Forks with their companion joins are tidy. -/
theorem tidy_team {forks : List Node} (h : ∀ n ∈ forks, IsFork n) :
    Tidy (forks ++ companions forks) := by
  intro k n fork hn hfork
  rw [List.getElem?_append] at hn
  split at hn
  · rw [companionOf?_of_isFork (h n (List.mem_of_getElem? hn))] at hfork
    cases hfork
  · next hge =>
    unfold companions at hn
    rw [List.getElem?_map] at hn
    obtain ⟨⟨m, j⟩, hm, rfl⟩ := Option.map_eq_some_iff.1 hn
    rw [List.getElem?_zipIdx] at hm
    obtain ⟨m', hm', heq⟩ := Option.map_eq_some_iff.1 hm
    cases heq
    cases hfork
    have hlt := (List.getElem?_eq_some_iff.1 hm').1
    have hlt' : k - forks.length < k := by omega
    exact Nat.lt_of_le_of_lt (Nat.le_of_eq (Nat.zero_add _)) hlt'

/-- The companion join of a fork. -/
theorem getElem?_companions {forks : List Node} {k : Nat} {n : Node} (h : forks[k]? = some n) :
    (companions forks)[k]? = some ⟨n.site, .join .companion (n.handle?.getD .null) (some k)⟩ := by
  unfold companions
  rw [List.getElem?_map, List.getElem?_zipIdx, h]
  simp

/-- Adding the companion join of one more fork. -/
theorem emitCompanion_eq_extend {forks : List Node} (hforks : ∀ n ∈ forks, IsFork n)
    (hd : d.arena.Tidy) {j : Nat} {n : Node} (hn : forks[j]? = some n) :
    (d.extend (forks ++ (companions forks).take j)).emitCompanion (d.arena.size + j) =
      .ok (d.extend (forks ++ (companions forks).take (j + 1))) := by
  have hnone : (d.extend (forks ++ (companions forks).take j)).arena.companion?
      (d.arena.size + j) = none := by
    refine Arena.companion?_eq_none fun m hm hfork => ?_
    obtain ⟨id, hid⟩ := Array.mem_iff_getElem?.1 hm
    rcases get?_extend hid with hold | ⟨k, m', rfl, hm', rfl⟩
    · have hlt := hd id m _ hold hfork
      have hid' : id < d.arena.size := (Array.getElem?_eq_some_iff.1 hold).1
      exact absurd (Nat.lt_trans hlt hid') (Nat.not_lt.2 (Nat.le_add_right _ _))
    · rw [Node.companionOf?_shift] at hfork
      obtain ⟨fork, hfork', heq⟩ := Option.map_eq_some_iff.1 hfork
      obtain rfl : fork = j := Nat.add_right_cancel (heq.trans (Nat.add_comm _ _))
      rcases List.mem_append.1 (List.mem_of_getElem? hm') with hmem | hmem
      · rw [companionOf?_of_isFork (hforks m' hmem)] at hfork'
        cases hfork'
      · obtain ⟨k', hk'⟩ := List.mem_iff_getElem?.1 hmem
        rw [List.getElem?_take] at hk'
        split at hk'
        · next hlt =>
          unfold companions at hk'
          rw [List.getElem?_map, List.getElem?_zipIdx, Option.map_map] at hk'
          obtain ⟨f, -, rfl⟩ := Option.map_eq_some_iff.1 hk'
          have heq' : 0 + k' = fork := Option.some.inj hfork'
          omega
        · cases hk'
  have hget : (d.extend (forks ++ (companions forks).take j)).arena.get (d.arena.size + j) =
      .ok n := by
    have hisFork := hforks n (List.mem_of_getElem? hn)
    have hn' : (forks ++ (companions forks).take j)[j]? = some n := by
      rw [List.getElem?_append_left (List.getElem?_eq_some_iff.1 hn).1, hn]
    rw [Arena.get_eq_ok, get?_extend_add hn' d, Node.shift_of_none (companionOf?_of_isFork hisFork)]
  obtain ⟨api, handle, entry, heffect⟩ := hforks n (List.mem_of_getElem? hn)
  have hcompanion := getElem?_companions hn
  have hhandle : n.handle? = some handle := by
    unfold Node.handle?
    rw [heffect]
  rw [List.take_add_one, hcompanion, ← List.append_assoc, Option.toList_some, ← emit_extend]
  have hshift : Node.shift d.arena.size ⟨n.site, .join .companion handle (some j)⟩ =
      ⟨n.site, .join .companion handle (some (d.arena.size + j))⟩ := by
    unfold Node.shift
    dsimp only
    rw [Nat.add_comm]
  rw [hhandle, Option.getD_some, hshift]
  unfold emitCompanion Arena.companionJoin emit
  rw [hnone]
  dsimp only
  rw [hget]
  refine Except.bind_eq_ok.2 ⟨_, Except.bind_eq_ok.2 ⟨n, rfl, ?_⟩, rfl⟩
  rw [heffect]

/-- Adding a team. -/
theorem emitTeam_eq_extend {forks : List Node} (hforks : ∀ n ∈ forks, IsFork n)
    (hd : d.arena.Tidy) : d.emitTeam forks = .ok (d.extend (forks ++ companions forks)) := by
  have hnone : ∀ n ∈ forks, n.companionOf? = none :=
    fun n hn => companionOf?_of_isFork (hforks n hn)
  have hprefix : ∀ j ≤ forks.length,
      (List.range j).foldlM (fun e k => e.emitCompanion (d.arena.size + k)) (d.emitAll forks) =
        .ok (d.extend (forks ++ (companions forks).take j)) := by
    intro j hj
    induction j with
    | zero =>
      rw [List.take_zero, List.append_nil, emitAll_eq_extend hnone]
      rfl
    | succ j ih =>
      rw [List.range_succ, List.foldlM_append, ih (Nat.le_of_succ_le hj)]
      refine Except.bind_eq_ok.2 ⟨_, rfl, Except.bind_eq_ok.2 ⟨_, ?_, rfl⟩⟩
      exact emitCompanion_eq_extend hforks hd (List.getElem?_eq_getElem hj)
  have hall := hprefix forks.length (Nat.le_refl _)
  rw [← length_companions, List.take_length, length_companions] at hall
  exact hall

end Draft

end DataRace
