import DataRace.Proofs.Classify.Extend

/-!
# Outlines

Classifying a body extends every draft by one and the same list of nodes, the outline of the body
(`Draft.exists_outline`).  In an outline companions come behind their forks, a call is the only node
of its instruction, and nodes with a plain call between them are of different instructions
(`Outline`).
-/

namespace DataRace

/-- The nodes of one instruction: companions come behind their forks, and a call is alone. -/
structure Group (i : Instruction) (ns : List Node) : Prop where
  inst_eq : ∀ n ∈ ns, n.inst = i.id
  tidy : Tidy ns
  alone : ∀ n ∈ ns, ∀ api, n.callApi? = some api → ns.length = 1

/-- A step of a draft extends it by the nodes of an instruction, or fails, whatever the draft is. -/
def Emits (i : Instruction) (f : Draft → Except Fault Draft) : Prop :=
  ∃ r : Except Fault (List Node), (∀ d, d.arena.Tidy → f d = d.extend <$> r) ∧
    ∀ ns, r = .ok ns → Group i ns

/-- Nodes without companions are tidy. -/
theorem tidy_of_none {ns : List Node} (h : ∀ n ∈ ns, n.companionOf? = none) : Tidy ns := by
  intro k n fork hn hfork
  rw [h n (List.mem_of_getElem? hn)] at hfork
  cases hfork

namespace Emits

variable {i : Instruction}

/-- Adding one node. -/
theorem one {x : Except Fault Node}
    (h : ∀ n, x = .ok n → n.site = i.site ∧ n.companionOf? = none) :
    Emits i fun d => d.emit <$> x := by
  refine ⟨(fun n => [n]) <$> x, fun d _ => ?_, fun ns hns => ?_⟩
  · cases hx : x with
    | error e => rfl
    | ok n => exact congrArg _ (Draft.emit_eq_extend (h n hx).2 d)
  · obtain ⟨n, hn, rfl⟩ := Except.map_eq_ok.1 hns
    obtain ⟨hsite, hnone⟩ := h n hn
    refine ⟨fun m hm => ?_, tidy_of_none fun m hm => ?_, fun _ _ _ _ => rfl⟩
    · rw [List.mem_singleton.1 hm]
      exact congrArg Site.inst hsite
    · rw [List.mem_singleton.1 hm]
      exact hnone

/-- Adding nothing. -/
theorem nothing : Emits i .ok := by
  refine ⟨.ok [], fun d _ => congrArg _ (Draft.extend_nil d).symm, ?_⟩
  rintro ns ⟨⟩
  refine ⟨fun n hn => ?_, fun k n fork hn => ?_, fun n hn => ?_⟩
  · cases hn
  · cases hn
  · cases hn

/-- Adding several nodes that are neither companions nor calls. -/
theorem all {x : Except Fault (List Node)} (h : ∀ ns, x = .ok ns → ∀ n ∈ ns,
      n.site = i.site ∧ n.companionOf? = none ∧ n.callApi? = none) :
    Emits i fun d => d.emitAll <$> x := by
  refine ⟨x, fun d _ => ?_, fun ns hns => ⟨fun n hn => ?_, tidy_of_none fun n hn => ?_,
    fun n hn api hcall => ?_⟩⟩
  · cases hx : x with
    | error e => rfl
    | ok ns => exact congrArg _ (Draft.emitAll_eq_extend (fun n hn => (h ns hx n hn).2.1) d)
  · exact congrArg Site.inst (h ns hns n hn).1
  · exact (h ns hns n hn).2.1
  · rw [(h ns hns n hn).2.2] at hcall
    cases hcall

/-- Adding a team. -/
theorem team {x : Except Fault (List Node)}
    (h : ∀ ns, x = .ok ns → ∀ n ∈ ns, n.site = i.site ∧ Draft.IsFork n) :
    Emits i fun d => x >>= d.emitTeam := by
  refine ⟨(fun forks => forks ++ Draft.companions forks) <$> x, fun d hd => ?_, fun ns hns => ?_⟩
  · cases hx : x with
    | error e => rfl
    | ok forks => exact Draft.emitTeam_eq_extend (fun n hn => (h forks hx n hn).2) hd
  · obtain ⟨forks, hforks, rfl⟩ := Except.map_eq_ok.1 hns
    have hcompanion : ∀ n ∈ Draft.companions forks, (∃ m ∈ forks, n.site = m.site) ∧
        n.callApi? = none := by
      intro n hn
      obtain ⟨⟨m, k⟩, hm, rfl⟩ := List.mem_map.1 hn
      exact ⟨⟨m, (List.mem_zipIdx hm).2.2 ▸ List.getElem_mem _, rfl⟩, rfl⟩
    refine ⟨fun n hn => ?_, Draft.tidy_team fun n hn => (h forks hforks n hn).2,
      fun n hn _ hcall => ?_⟩
    · rcases List.mem_append.1 hn with hn | hn
      · exact congrArg Site.inst (h forks hforks n hn).1
      · obtain ⟨⟨m, hm, hsite⟩, -⟩ := hcompanion n hn
        exact congrArg Site.inst (hsite.trans (h forks hforks m hm).1)
    · rcases List.mem_append.1 hn with hn | hn
      · obtain ⟨-, api, handle, entry, heffect⟩ := h forks hforks n hn
        unfold Node.callApi? at hcall
        rw [heffect] at hcall
        cases hcall
      · rw [(hcompanion n hn).2] at hcall
        cases hcall

end Emits

/-! ### Made nodes -/

namespace Node

variable {i : Instruction} {n : Node}

/-- A fork made of an instruction. -/
theorem forkWithEntry_spec {api : ForkApi} {handle : Operand} {entry : ThreadEntry}
    (h : forkWithEntry i api handle entry = .ok n) : n = ⟨i.site, .fork api handle entry⟩ := by
  obtain ⟨-, -, h⟩ := Except.bind_eq_ok.1 h
  exact (Except.ok.inj h).symm

/-- A fork made of the arguments of an instruction. -/
theorem fork_spec {api : ForkApi} {handle entry : Nat} (h : fork i api handle entry = .ok n) :
    n.site = i.site ∧ Draft.IsFork n := by
  obtain ⟨h', -, h⟩ := Except.bind_eq_ok.1 h
  obtain ⟨op, -, h⟩ := Except.bind_eq_ok.1 h
  split at h
  · rw [forkWithEntry_spec h]
    exact ⟨rfl, _, _, _, rfl⟩
  · cases h

/-- A call made of an instruction. -/
theorem call_spec {api : CallApi} (h : call i api = .ok n) :
    n.site = i.site ∧ n.companionOf? = none := by
  unfold call at h
  split at h
  · cases h
    exact ⟨rfl, rfl⟩
  · cases h

/-- A read or a write made of an instruction. -/
theorem access_spec (h : load i = .ok n ∨ store i = .ok n) :
    n.site = i.site ∧ n.companionOf? = none := by
  unfold load store at h
  rcases h with h | h
  · split at h
    · cases h
      exact ⟨rfl, rfl⟩
    · cases h
  · split at h
    · cases h
      exact ⟨rfl, rfl⟩
    · cases h

/-- What is made of one operand of an instruction. -/
theorem spec_of_bind {α : Type} {x : Except Fault α} {φ : α → Effect}
    (hφ : ∀ a, Node.companionOf? ⟨i.site, φ a⟩ = none)
    (h : (x >>= fun a => Except.ok ⟨i.site, φ a⟩) = .ok n) :
    n.site = i.site ∧ n.companionOf? = none := by
  obtain ⟨a, -, h⟩ := Except.bind_eq_ok.1 h
  cases h
  exact ⟨rfl, hφ a⟩

end Node

/-- The forks made of the arguments of an instruction. -/
theorem mem_forks {i : Instruction} {apis : List ForkApi} {handle entry : Nat} {forks : List Node}
    (h : apis.mapM (fun api => Node.fork i api handle entry) = .ok forks) {n : Node}
    (hn : n ∈ forks) : n.site = i.site ∧ Draft.IsFork n := by
  obtain ⟨api, -, hfork⟩ := (Except.mem_mapM h).1 hn
  exact Node.fork_spec hfork

/-- The nodes of a known call. -/
theorem Meaning.emits (p : Program) (s : Settings) (i : Instruction) (m : Meaning) :
    Emits i fun d => m.emit p s i d := by
  have hfork : ∀ {api handle entry}, Emits i fun d => d.emit <$> Node.fork i api handle entry := by
    intro api handle entry
    refine .one fun n hn => ?_
    obtain ⟨hsite, hfork⟩ := Node.fork_spec hn
    exact ⟨hsite, Draft.companionOf?_of_isFork hfork⟩
  cases m with
  | nothing => exact .nothing
  | free api => exact .one fun n hn => Node.spec_of_bind (fun _ => rfl) hn
  | copy =>
    have heq : (fun d => Meaning.emit p s i d .copy) = fun d => d.emitAll <$>
        (Node.apiWrite i 0 >>= fun target => Node.apiRead i 1 >>= fun source =>
          .ok [target, source]) := by
      funext d
      unfold Meaning.emit
      cases Node.apiWrite i 0 with
      | error e => rfl
      | ok target => cases Node.apiRead i 1 <;> rfl
    rw [heq]
    refine .all fun ns hns n hn => ?_
    obtain ⟨target, htarget, hns⟩ := Except.bind_eq_ok.1 hns
    obtain ⟨source, hsource, hns⟩ := Except.bind_eq_ok.1 hns
    cases hns
    obtain ⟨v, -, htarget⟩ := Except.bind_eq_ok.1 htarget
    obtain ⟨v', -, hsource⟩ := Except.bind_eq_ok.1 hsource
    cases htarget
    cases hsource
    rcases List.mem_cons.1 hn with rfl | hn
    · exact ⟨rfl, rfl, rfl⟩
    · rw [List.mem_singleton.1 hn]
      exact ⟨rfl, rfl, rfl⟩
  | fill => exact .one fun n hn => Node.spec_of_bind (fun _ => rfl) hn
  | fork api => exact hfork
  | join => exact .one fun n hn => Node.spec_of_bind (fun _ => rfl) hn
  | lock api operand => exact .one fun n hn => Node.spec_of_bind (fun _ => rfl) hn
  | unlock api operand => exact .one fun n hn => Node.spec_of_bind (fun _ => rfl) hn
  | barrier api => exact .one fun n hn => Node.spec_of_bind (fun _ => rfl) hn
  | construct api => exact .one fun n hn => Node.call_spec hn
  | team api => exact .team fun ns hns n hn => mem_forks hns hn
  | task =>
    have heq : (fun d => Meaning.emit p s i d .task) = fun d => d.emit <$>
        (taskEntry p i >>= fun entry => Node.forkWithEntry i .ompTask entry.toOperand entry) := by
      funext d
      unfold Meaning.emit
      cases taskEntry p i <;> rfl
    rw [heq]
    refine .one fun n hn => ?_
    obtain ⟨entry, -, hn⟩ := Except.bind_eq_ok.1 hn
    rw [Node.forkWithEntry_spec hn]
    exact ⟨rfl, rfl⟩
  | launch =>
    have heq : (fun d => Meaning.emit p s i d .launch) = fun d => d.emitAll <$>
        (grid s).mapM fun thread => Node.fork i thread 0 0 := by
      funext d
      unfold Meaning.emit
      cases (grid s).mapM fun thread => Node.fork i thread 0 0 <;> rfl
    rw [heq]
    refine .all fun ns hns n hn => ?_
    obtain ⟨hsite, hfork⟩ := mem_forks hns hn
    refine ⟨hsite, Draft.companionOf?_of_isFork hfork, ?_⟩
    obtain ⟨api, handle, entry, heffect⟩ := hfork
    unfold Node.callApi?
    rw [heffect]

namespace Draft

/-- The nodes of an instruction. -/
theorem emits_classify (p : Program) (s : Settings) (chain : Chain) (i : Instruction) :
    Emits i fun d => classify p s chain d i := by
  unfold classify
  cases i.action with
  | load ptr v => exact .one fun n hn => Node.access_spec (Or.inl hn)
  | store ptr v => exact .one fun n hn => Node.access_spec (Or.inr hn)
  | call callee args =>
    dsimp only
    cases callee.name? >>= chain.meaning? with
    | some m => exact m.emits p s i
    | none => exact .one fun n hn => Node.call_spec hn
  | other => exact .nothing

end Draft

/-! ### Bodies -/

/-- The nodes of a body: companions come behind their forks, a call is the only node of its
instruction, and nodes with a plain call between them are of different instructions. -/
structure Outline (body : List Instruction) (ns : List Node) : Prop where
  tidy : Tidy ns
  inst : ∀ n ∈ ns, ∃ i ∈ body, n.inst = i.id
  alone : ∀ (j k : Nat) (m n : Node) (api : CallApi), j ≠ k → ns[j]? = some m → ns[k]? = some n →
    n.callApi? = some api → m.inst ≠ n.inst
  apart : ∀ (j k l : Nat) (m n o : Node), j < k → k < l → ns[j]? = some m → ns[k]? = some n →
    ns[l]? = some o → n.callApi? = some .plain → m.inst ≠ o.inst

/-- Lists of nodes one after the other are tidy. -/
theorem Tidy.append {ns ms : List Node} (hns : Tidy ns) (hms : Tidy ms) :
    Tidy (ns ++ ms.map (Node.shift ns.length)) := by
  intro k n fork hn hfork
  rw [List.getElem?_append] at hn
  split at hn
  · exact hns k n fork hn hfork
  · next hge =>
    rw [List.getElem?_map] at hn
    obtain ⟨m, hm, rfl⟩ := Option.map_eq_some_iff.1 hn
    rw [Node.companionOf?_shift] at hfork
    obtain ⟨fork', hfork', rfl⟩ := Option.map_eq_some_iff.1 hfork
    have hlt : fork' + ns.length < (k - ns.length) + ns.length :=
      Nat.add_lt_add_right (hms _ m fork' hm hfork') _
    rw [Nat.sub_add_cancel (Nat.le_of_not_lt hge)] at hlt
    exact hlt

/-- A node behind others is among them or stands behind them, moved. -/
theorem getElem?_append_shift {ns ms : List Node} {k : Nat} {n : Node}
    (h : (ns ++ ms.map (Node.shift ns.length))[k]? = some n) :
    k < ns.length ∧ ns[k]? = some n ∨
      ns.length ≤ k ∧ ∃ m, ms[k - ns.length]? = some m ∧ n = m.shift ns.length := by
  rcases Nat.lt_or_ge k ns.length with hk | hk
  · rw [List.getElem?_append_left hk] at h
    exact Or.inl ⟨hk, h⟩
  · rw [List.getElem?_append_right hk, List.getElem?_map] at h
    obtain ⟨m, hm, rfl⟩ := Option.map_eq_some_iff.1 h
    exact Or.inr ⟨hk, m, hm, rfl⟩

/-- The outline of a longer body. -/
theorem Outline.cons {i : Instruction} {body : List Instruction} {ns ms : List Node}
    (hns : Group i ns) (hms : Outline body ms) (hfresh : i.id ∉ body.map Instruction.id) :
    Outline (i :: body) (ns ++ ms.map (Node.shift ns.length)) := by
  have hinst : ∀ q : Node, (q.shift ns.length).inst = q.inst :=
    fun q => congrArg Site.inst (Node.site_shift _ q)
  -- Nodes of the first instruction are of no later one.
  have hne : ∀ {j k : Nat} {m n : Node}, ns[j]? = some m → ms[k]? = some n → m.inst ≠ n.inst := by
    intro j k m n hm hn heq
    obtain ⟨i', hi', hinst'⟩ := hms.inst n (List.mem_of_getElem? hn)
    rw [hns.inst_eq m (List.mem_of_getElem? hm), hinst'] at heq
    exact hfresh (List.mem_map.2 ⟨i', hi', heq.symm⟩)
  refine ⟨hns.tidy.append hms.tidy, fun n hn => ?_, fun j k m n api hjk hm hn hcall => ?_,
    fun j k l m n o hjk hkl hm hn ho hplain => ?_⟩
  · rcases List.mem_append.1 hn with hn | hn
    · exact ⟨i, List.mem_cons_self, hns.inst_eq n hn⟩
    · obtain ⟨m, hm, rfl⟩ := List.mem_map.1 hn
      obtain ⟨i', hi', hinst'⟩ := hms.inst m hm
      exact ⟨i', List.mem_cons_of_mem _ hi', (hinst m).trans hinst'⟩
  · obtain ⟨hj, hm⟩ | ⟨hj, m', hm', rfl⟩ := getElem?_append_shift hm
    · obtain ⟨hk, hn⟩ | ⟨-, n', hn', rfl⟩ := getElem?_append_shift hn
      · have hone := hns.alone n (List.mem_of_getElem? hn) api hcall
        omega
      · rw [hinst]
        exact hne hm hn'
    · obtain ⟨-, hn⟩ | ⟨hk, n', hn', rfl⟩ := getElem?_append_shift hn
      · rw [hinst]
        exact (hne hn hm').symm
      · rw [Node.callApi?_shift] at hcall
        rw [hinst, hinst]
        exact hms.alone _ _ m' n' api (by omega) hm' hn' hcall
  · obtain ⟨hk, hn⟩ | ⟨hk, n', hn', rfl⟩ := getElem?_append_shift hn
    -- A plain call is the only node of its instruction, so nothing of it stands before the call.
    · have hone := hns.alone n (List.mem_of_getElem? hn) _ hplain
      omega
    · obtain ⟨hl, -⟩ | ⟨hl, o', ho', rfl⟩ := getElem?_append_shift ho
      · omega
      rw [Node.callApi?_shift] at hplain
      rw [hinst]
      obtain ⟨-, hm⟩ | ⟨hj, m', hm', rfl⟩ := getElem?_append_shift hm
      · exact hne hm ho'
      · rw [hinst]
        exact hms.apart _ _ _ m' n' o' (by omega) (by omega) hm' hn' ho' hplain

namespace Draft

/-- Classifying a body extends every draft by its outline, or fails. -/
theorem exists_outline (p : Program) (s : Settings) (chain : Chain) {body : List Instruction}
    (hbody : (body.map Instruction.id).Nodup) :
    ∃ r : Except Fault (List Node),
      (∀ d : Draft, d.arena.Tidy → classifyAll p s chain d body = d.extend <$> r) ∧
        ∀ ns, r = .ok ns → Outline body ns := by
  induction body with
  | nil =>
    refine ⟨.ok [], fun d _ => congrArg _ (extend_nil d).symm, ?_⟩
    rintro ns ⟨⟩
    refine ⟨fun k n fork hn => ?_, fun n hn => ?_, fun j k m n api _ hm => ?_,
      fun j k l m n o _ _ hm => ?_⟩
    · cases hn
    · cases hn
    · cases hm
    · cases hm
  | cons i body ih =>
    rw [List.map_cons, List.nodup_cons] at hbody
    obtain ⟨r, hr, hgroup⟩ := emits_classify p s chain i
    obtain ⟨r', hr', houtline⟩ := ih hbody.2
    refine ⟨r >>= fun ns => (fun ms => ns ++ ms.map (Node.shift ns.length)) <$> r', ?_, ?_⟩
    · intro d hd
      unfold classifyAll at hr' ⊢
      rw [List.foldlM_cons, show classify p s chain d i = d.extend <$> r from hr d hd]
      cases hns : r with
      | error e => rfl
      | ok ns =>
        refine (hr' (d.extend ns) (tidy_extend hd (hgroup ns hns).tidy)).trans ?_
        cases r' with
        | error e => rfl
        | ok ms => exact congrArg _ (extend_extend d ns ms)
    · intro ms hms
      obtain ⟨ns, hns, hms⟩ := Except.bind_eq_ok.1 hms
      obtain ⟨ms', hms', rfl⟩ := Except.map_eq_ok.1 hms
      exact .cons (hgroup ns hns) (houtline ms' hms') hbody.1

/-- The instructions of a body before and behind one of them have nodes of other instructions. -/
theorem exists_between {p : Program} {s : Settings} {chain : Chain} {i : Instruction} {d e : Draft}
    {pre post : List Instruction} (hbody : ((pre ++ i :: post).map Instruction.id).Nodup)
    (hd : d.arena.Tidy) (h : classifyAll p s chain d (pre ++ i :: post) = .ok e) :
    ∃ before own behind, Tidy before ∧
      classify p s chain (d.extend before) i = .ok ((d.extend before).extend own) ∧ Group i own ∧
      e = ((d.extend before).extend own).extend behind ∧ ∀ n ∈ before ++ behind, n.inst ≠ i.id := by
  rw [List.map_append, List.map_cons, List.nodup_append] at hbody
  obtain ⟨hpre, hpost, hdisjoint⟩ := hbody
  rw [List.nodup_cons] at hpost
  obtain ⟨x, hx, hxoutline⟩ := exists_outline p s chain hpre
  obtain ⟨y, hy, hygroup⟩ := emits_classify p s chain i
  obtain ⟨z, hz, hzoutline⟩ := exists_outline p s chain hpost.2
  unfold classifyAll at h
  rw [List.foldlM_append] at h
  obtain ⟨d', hd', h⟩ := Except.bind_eq_ok.1 h
  obtain ⟨before, hbefore, rfl⟩ := Except.map_eq_ok.1 ((hx d hd).symm.trans hd')
  have hout := hxoutline before hbefore
  rw [List.foldlM_cons] at h
  obtain ⟨d'', hd'', h⟩ := Except.bind_eq_ok.1 h
  have htidy := tidy_extend hd hout.tidy
  obtain ⟨own, hown, rfl⟩ := Except.map_eq_ok.1 ((hy _ htidy).symm.trans hd'')
  have hgroup := hygroup own hown
  obtain ⟨behind, hbehind, rfl⟩ :=
    Except.map_eq_ok.1 ((hz _ (tidy_extend htidy hgroup.tidy)).symm.trans h)
  refine ⟨before, own, behind, hout.tidy, hd'', hgroup, rfl, fun n hn heq => ?_⟩
  rcases List.mem_append.1 hn with hn | hn
  · obtain ⟨i', hi', hinst⟩ := hout.inst n hn
    exact hdisjoint i'.id (List.mem_map_of_mem hi') i.id List.mem_cons_self (hinst.symm.trans heq)
  · obtain ⟨i', hi', hinst⟩ := (hzoutline behind hbehind).inst n hn
    exact hpost.1 (List.mem_map.2 ⟨i', hi', hinst.symm.trans heq⟩)

end Draft

end DataRace
