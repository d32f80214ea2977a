import DataRace.Proofs.Yaml.Overlay
import DataRace.Yaml.Reader

/-!
# Keys in YAML texts

A mapping that a text holds repeats no key, and neither does any mapping in it (`Yaml.Neat`,
`Yaml.neat_of_readMapping?`): no scalar is a mapping, and the keys of a mapping are compared before
it is made (`Yaml.gives_collection`).

What a given text holds is found by evaluation: `Yaml.isEqual` tells equal values, the order of
entries included, and `Yaml.readMapping?_eq` turns its answer into an equation.
-/

namespace DataRace

namespace Yaml

/-- A value without values in it. -/
def IsScalar : Yaml → Prop
  | .seq _ | .map _ | .tagged _ _ => False
  | _ => True

/-- Neither a value nor any value in it is a mapping that repeats a key. -/
inductive Neat : Yaml → Prop
  | scalar {v : Yaml} (h : v.IsScalar) : Neat v
  | seq {items : List Yaml} (h : ∀ v ∈ items, Neat v) : Neat (.seq items)
  | map {entries : List (Yaml × Yaml)} (distinct : KeysDistinct entries)
      (keys : ∀ e ∈ entries, Neat e.1) (values : ∀ e ∈ entries, Neat e.2) : Neat (.map entries)
  | tagged {tag : String} {v : Yaml} (h : Neat v) : Neat (.tagged tag v)

/-- A neat mapping repeats no key. -/
theorem Neat.keysDistinct {entries : List (Yaml × Yaml)} (h : Neat (.map entries)) :
    KeysDistinct entries := by
  cases h with
  | scalar h => exact h.elim
  | map distinct _ _ => exact distinct

/-- The values of a neat mapping are neat. -/
theorem Neat.of_lookup {entries : List (Yaml × Yaml)} (h : Neat (.map entries)) {name : String}
    {v : Yaml} (hv : lookup name entries = some v) : Neat v := by
  cases h with
  | scalar h => exact h.elim
  | map _ _ values => exact values _ (mem_of_lookup hv)

/-! ### Scalars -/

/-- What a float literal stands for. -/
theorem isScalar_of_float? {s : List Char} {v : Yaml} (h : float? s = some v) : v.IsScalar := by
  unfold float? at h
  dsimp only at h
  split at h
  · cases h
  · split at h
    · cases h
      trivial
    · split at h
      · cases h
        trivial
      · split at h
        · cases h
          trivial
        · obtain ⟨d, -, rfl⟩ := Option.map_eq_some_iff.1 h
          trivial

/-- What a tagged integer literal stands for. -/
theorem isScalar_of_taggedInt? {s : List Char} {v : Yaml} (h : taggedInt? s = some v) :
    v.IsScalar := by
  unfold taggedInt? at h
  repeat' split at h
  all_goals cases h
  all_goals trivial

/-- What a scalar without quotes stands for. -/
theorem isScalar_of_plain {s : List Char} {v : Yaml} (h : plain s = .value v) : v.IsScalar := by
  unfold plain at h
  dsimp only at h
  repeat' split at h
  all_goals cases h
  all_goals first
    | trivial
    | exact isScalar_of_float? (by assumption)

/-- What a scalar stands for whose tag does not count. -/
theorem isScalar_of_untaggedScalar? {text : String} {isPlain : Bool} {v : Yaml}
    (h : untaggedScalar? text isPlain = some v) : v.IsScalar := by
  unfold untaggedScalar? at h
  split at h
  · unfold Plain.value? at h
    split at h
    · next hplain =>
      cases h
      exact isScalar_of_plain hplain
    · cases h
    · cases h
      trivial
  · cases h
    trivial

/-- What a scalar stands for. -/
theorem isScalar_of_scalar? {tag : Option String} {text : String} {isPlain : Bool} {v : Yaml}
    (h : scalar? tag text isPlain = some v) : v.IsScalar := by
  unfold scalar? at h
  split at h
  · exact isScalar_of_untaggedScalar? h
  · split at h
    · next core _ =>
      cases core with
      | null =>
        replace h : (if _ then some Yaml.null else none) = some v := h
        split at h
        · cases h
          trivial
        · cases h
      | bool =>
        obtain ⟨b, -, rfl⟩ := Option.map_eq_some_iff.1 h
        trivial
      | int => exact isScalar_of_taggedInt? h
      | float => exact isScalar_of_float? h
    · cases h
      trivial

/-! ### Steps -/

/-- All answers of a step have a property. -/
def Gives {α : Type} (P : α → Prop) (x : ValueM α) : Prop :=
  ∀ left a left', x left = some (a, left') → P a

namespace Gives

variable {α β : Type} {P : α → Prop} {Q : β → Prop}

/-- An answer. -/
theorem pure {a : α} (h : P a) : Gives P (pure a) := by
  rintro left a left' ⟨⟩
  exact h

/-- No answer. -/
theorem failure : Gives P (failure : ValueM α) := by
  rintro left a left' ⟨⟩

/-- An answer that may be missing. -/
theorem lift {x : Option α} (h : ∀ a, x = some a → P a) :
    Gives P (StateT.lift x : ValueM α) := by
  intro left a left' hx
  obtain ⟨b, hb, heq⟩ := Option.bind_eq_some_iff.1 hx
  cases heq
  exact h a hb

/-- A chain of two steps. -/
theorem bind {x : ValueM α} {f : α → ValueM β} (hx : Gives P x)
    (hf : ∀ a, P a → Gives Q (f a)) : Gives Q (x >>= f) := by
  intro left b left' h
  obtain ⟨⟨a, between⟩, ha, hb⟩ := Option.bind_eq_some_iff.1 h
  exact hf a (hx left a between ha) between b left' hb

/-- A step on each member of a list. -/
theorem mapM {f : α → ValueM β} (hf : ∀ a, Gives Q (f a)) (l : List α) :
    Gives (fun bs => ∀ b ∈ bs, Q b) (l.mapM f) := by
  induction l with
  | nil => exact .pure fun b hb => absurd hb List.not_mem_nil
  | cons a l ih =>
    rw [List.mapM_cons]
    exact (hf a).bind fun b hb => ih.bind fun bs hbs =>
      .pure (List.forall_mem_cons.2 ⟨hb, hbs⟩)

end Gives

/-! ### Nodes -/

/-- Entries that are accepted have different keys. -/
theorem distinct?_eq_some {entries entries' : List (Yaml × Yaml)}
    (h : distinct? entries = some entries') : entries' = entries ∧ KeysDistinct entries := by
  induction entries generalizing entries' with
  | nil =>
    cases h
    exact ⟨rfl, List.Pairwise.nil⟩
  | cons e entries ih =>
    unfold distinct? at h
    split at h
    · cases h
    · next hnew =>
      obtain ⟨rest, hrest, rfl⟩ := Option.map_eq_some_iff.1 h
      obtain ⟨rfl, hdistinct⟩ := ih hrest
      refine ⟨rfl, List.pairwise_cons.2 ⟨fun e' he' => ?_, hdistinct⟩⟩
      exact Bool.eq_false_iff.2 fun hsame => hnew (List.any_eq_true.2 ⟨e', he', hsame⟩)

/-- Collections are neat if the values of their nodes are. -/
theorem gives_collection {inner : Tree → ValueM Yaml} (h : ∀ t, Gives Neat (inner t)) (t : Tree) :
    Gives Neat (collection inner t) := by
  unfold collection
  split
  · exact (Gives.mapM h _).bind fun items hitems => .pure (.seq hitems)
  · have hentry : ∀ entry : Tree × Tree, Gives (fun e => Neat e.1 ∧ Neat e.2)
        (do return (← inner entry.1, ← inner entry.2) : ValueM (Yaml × Yaml)) := fun entry =>
      (h entry.1).bind fun key hkey => (h entry.2).bind fun value hvalue => .pure ⟨hkey, hvalue⟩
    refine (Gives.mapM hentry _).bind fun entries hentries => ?_
    refine (Gives.lift fun _ => distinct?_eq_some).bind fun entries' ⟨heq, hdistinct⟩ => ?_
    subst heq
    exact .pure (.map hdistinct (fun e he => (hentries e he).1) fun e he => (hentries e he).2)
  · exact .failure

/-- Nodes are neat if the nodes in them are. -/
theorem gives_nodeValue {a : Anchored} {inner : Option (Tree → ValueM Yaml)}
    (h : ∀ f, inner = some f → ∀ t, Gives Neat (f t)) (t : Tree) :
    Gives Neat (nodeValue a inner t) := by
  have hscalar : ∀ {text isPlain tag}, Gives Neat
      (do return .tagged tag (← StateT.lift (untaggedScalar? text isPlain)) : ValueM Yaml) :=
    (Gives.lift fun _ hv => .scalar (isScalar_of_untaggedScalar? hv)).bind fun v hv =>
      .pure (.tagged hv)
  have hfollow : Gives (fun _ => True) (follow a t) := fun _ _ _ _ => trivial
  unfold nodeValue
  refine hfollow.bind fun t _ => ?_
  dsimp only
  split
  · exact .failure
  · split
    · exact .failure
    · exact hscalar
    · exact .lift fun _ hv => .scalar (isScalar_of_scalar? hv)
  -- Both kinds of collections are read alike, with or without a tag.
  all_goals
    split
    · exact .failure
    · refine Gives.bind ?_ fun v hv => .pure (.tagged hv)
      split
      · exact gives_collection (h _ rfl) _
      · exact .failure
    · split
      · exact gives_collection (h _ rfl) _
      · exact .failure

/-- Nodes within a depth are neat. -/
theorem gives_valueWithin (a : Anchored) (depth : Nat) (t : Tree) :
    Gives Neat (valueWithin a depth t) := by
  induction depth generalizing t with
  | zero =>
    have hnone : ∀ f, (none : Option (Tree → ValueM Yaml)) = some f → ∀ t, Gives Neat (f t) :=
      nofun
    exact gives_nodeValue hnone t
  | succ depth ih =>
    refine gives_nodeValue (fun f hf => ?_) t
    obtain rfl := Option.some.inj hf
    exact ih

/-- The mapping of a text is neat. -/
theorem neat_of_readMapping? {text : String} {entries : List (Yaml × Yaml)}
    (h : readMapping? text = some entries) : Neat (.map entries) := by
  obtain ⟨t, -, h⟩ := Option.bind_eq_some_iff.1 h
  unfold mappingOf? at h
  split at h
  · next properties nodes =>
    obtain ⟨v, hv, h⟩ := Option.bind_eq_some_iff.1 h
    split at h
    · next entries' =>
      cases h
      obtain ⟨⟨v, left⟩, hv, rfl⟩ := Option.map_eq_some_iff.1 hv
      exact gives_collection (gives_valueWithin _ _) _ _ _ _ hv
    · cases h
  · cases h
    exact .map List.Pairwise.nil (by simp) (by simp)
  · cases h

/-! ### Equal values -/

/-- Whether two values are equal.  The order of the entries of a mapping counts. -/
def isEqual : Yaml → Yaml → Bool
  | .null, .null | .nan, .nan => true
  | .bool a, .bool b => a == b
  | .int a, .int b => a == b
  | .float a, .float b => a == b
  | .infinity a, .infinity b => a == b
  | .str a, .str b => a == b
  | .seq xs, .seq ys => equalItems xs ys
  | .map xs, .map ys => equalEntries xs ys
  | .tagged t a, .tagged u b => t == u && isEqual a b
  | _, _ => false
where
  /-- Whether two lists hold equal values. -/
  equalItems : List Yaml → List Yaml → Bool
    | [], [] => true
    | x :: xs, y :: ys => isEqual x y && equalItems xs ys
    | _, _ => false
  /-- Whether two lists hold equal entries. -/
  equalEntries : List (Yaml × Yaml) → List (Yaml × Yaml) → Bool
    | [], [] => true
    | (k, v) :: xs, (l, w) :: ys => isEqual k l && isEqual v w && equalEntries xs ys
    | _, _ => false

mutual

/-- Values that are told equal are equal. -/
theorem eq_of_isEqual (v w : Yaml) (h : v.isEqual w = true) : v = w := by
  match v, w with
  | .seq xs, .seq ys => rw [eq_of_equalItems xs ys h]
  | .map xs, .map ys => rw [eq_of_equalEntries xs ys h]
  | .tagged t a, .tagged u b =>
    obtain ⟨htag, hvalue⟩ := Bool.and_eq_true_iff.1 h
    rw [beq_iff_eq.1 htag, eq_of_isEqual a b hvalue]
  | .null, .null | .nan, .nan => rfl
  | .bool a, .bool b | .int a, .int b | .float a, .float b | .infinity a, .infinity b
  | .str a, .str b => rw [beq_iff_eq.1 h]

/-- So are lists of values. -/
theorem eq_of_equalItems (xs ys : List Yaml) (h : isEqual.equalItems xs ys = true) : xs = ys := by
  match xs, ys with
  | [], [] => rfl
  | x :: xs, y :: ys =>
    obtain ⟨hfirst, hrest⟩ := Bool.and_eq_true_iff.1 h
    rw [eq_of_isEqual x y hfirst, eq_of_equalItems xs ys hrest]

/-- So are lists of entries. -/
theorem eq_of_equalEntries (xs ys : List (Yaml × Yaml))
    (h : isEqual.equalEntries xs ys = true) : xs = ys := by
  match xs, ys with
  | [], [] => rfl
  | (k, v) :: xs, (l, w) :: ys =>
    obtain ⟨hentry, hrest⟩ := Bool.and_eq_true_iff.1 h
    obtain ⟨hkey, hvalue⟩ := Bool.and_eq_true_iff.1 hentry
    rw [eq_of_isEqual k l hkey, eq_of_isEqual v w hvalue, eq_of_equalEntries xs ys hrest]

end

/-- A text holds the entries that are told equal to what is read of it. -/
theorem readMapping?_eq {text : String} {entries : List (Yaml × Yaml)}
    (h : (readMapping? text).any (isEqual.equalEntries · entries) = true) :
    readMapping? text = some entries := by
  obtain ⟨found, hfound, hequal⟩ := Option.any_eq_true _ _ |>.1 h
  rw [hfound, eq_of_equalEntries found entries hequal]

end Yaml

end DataRace
