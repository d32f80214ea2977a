import DataRace.Proofs.Json.Scalars

/-!
# JSON texts read back

A value is written as the sequence of its tokens (`Json.tokens`) with blanks between them.  The
machine of the reader, fed the tokens of a value, does the same as completing that value in one
step (`feed?_tokens`); a text that spells tokens (`Json.Spells`) drives the machine through them.
Both printers are layouts of one shape (`Json.layout`), so each text they write is read as the value
it was written from.
-/

namespace DataRace

namespace Json

/-! ### The machine on the tokens of a value -/

/-- The tokens of a value. -/
def tokens : Json → List Token
  | .arr [] => [.openArray, .closeArray]
  | .arr (v :: vs) => .openArray :: tokens v ++ moreItems vs ++ [.closeArray]
  | .obj [] => [.openObject, .closeObject]
  | .obj ((k, v) :: ms) =>
    .openObject :: .text (some k) :: .colon :: tokens v ++ moreMembers ms ++ [.closeObject]
  | v => [scalarToken v]
where
  /-- The tokens of the elements after the first. -/
  moreItems : List Json → List Token
    | [] => []
    | v :: vs => .comma :: tokens v ++ moreItems vs
  /-- The tokens of the members after the first. -/
  moreMembers : List (String × Json) → List Token
    | [] => []
    | (k, v) :: ms => .comma :: .text (some k) :: .colon :: tokens v ++ moreMembers ms

/-- The state of the machine after a list of tokens, none of which may follow the end. -/
def feed? : State → List Token → Option State
  | s, [] => some s
  | .done _, _ :: _ => none
  | .inside opened expect, t :: ts => (advance? opened expect t).bind fun s => feed? s ts

/-- Where a value may stand. -/
def Awaited (e : Expect) : Prop := e = .value ∨ e = .valueOrEnd

/-- The token of a value without inner values completes it. -/
theorem feed?_scalarToken {v : Json} (hv : v.depth = 0) {e : Expect} (he : Awaited e)
    (opened : List Container) (ts : List Token) :
    feed? (.inside opened e) (scalarToken v :: ts) =
      (complete v opened).bind fun s => feed? s ts := by
  cases v <;> first | (simp [depth] at hv; done) | (rcases he with rfl | rfl <;> rfl)

section Punctuation

variable {e : Expect} {opened : List Container} {items : List Json}
  {members : List (Option String × Json)} {key : Option String} {ts : List Token}

/-- An opening bracket opens an array. -/
theorem feed?_openArray (he : Awaited e) :
    feed? (.inside opened e) (.openArray :: ts) =
      feed? (.inside (.array [] :: opened) .valueOrEnd) ts := by
  rcases he with rfl | rfl <;> rfl

/-- An opening brace opens an object. -/
theorem feed?_openObject (he : Awaited e) :
    feed? (.inside opened e) (.openObject :: ts) =
      feed? (.inside (.object [] :: opened) .keyOrEnd) ts := by
  rcases he with rfl | rfl <;> rfl

/-- Behind a comma an array awaits another element. -/
theorem feed?_commaItem :
    feed? (.inside (.array items :: opened) .commaOrEnd) (.comma :: ts) =
      feed? (.inside (.array items :: opened) .value) ts :=
  rfl

/-- Behind a comma an object awaits another key. -/
theorem feed?_commaMember :
    feed? (.inside (.object members :: opened) .commaOrEnd) (.comma :: ts) =
      feed? (.inside (.object members :: opened) .key) ts :=
  rfl

/-- Behind a key and a colon an object awaits a value. -/
theorem feed?_key (he : e = .key ∨ e = .keyOrEnd) :
    feed? (.inside (.object members :: opened) e) (.text key :: .colon :: ts) =
      feed? (.inside (.member members key :: opened) .value) ts := by
  rcases he with rfl | rfl <;> rfl

/-- A closing bracket completes the array. -/
theorem feed?_closeArray :
    feed? (.inside (.array items :: opened) .commaOrEnd) (.closeArray :: ts) =
      (complete (.arr items.reverse) opened).bind fun s => feed? s ts :=
  rfl

/-- A closing brace completes the object. -/
theorem feed?_closeObject :
    feed? (.inside (.object members :: opened) .commaOrEnd) (.closeObject :: ts) =
      (complete (object members.reverse) opened).bind fun s => feed? s ts :=
  rfl

end Punctuation

/-- An object whose keys are all texts has them as its keys. -/
theorem object_map_some (ms : List (String × Json)) :
    object (ms.map fun m => (some m.1, m.2)) = .obj ms := by
  have h : (ms.map fun m => (some m.1, m.2)).mapM
      (fun m : Option String × Json => m.1.map (·, m.2)) = some ms := by
    induction ms with
    | nil => rfl
    | cons m ms ih => simp [ih]
  rw [object, h]

mutual

/-- The tokens of a value bring the machine where the value brings it. -/
theorem feed?_tokens (v : Json) {e : Expect} (he : Awaited e) (opened : List Container)
    (ts : List Token) :
    feed? (.inside opened e) (tokens v ++ ts) = (complete v opened).bind fun s => feed? s ts := by
  match v with
  | .arr [] => rcases he with rfl | rfl <;> rfl
  | .arr (v :: vs) =>
    simp only [tokens, List.cons_append, List.append_assoc, List.nil_append, feed?_openArray he,
      feed?_tokens v (.inr rfl), complete, Option.bind_some, feed?_moreItems vs, feed?_closeArray,
      List.reverse_append, List.reverse_reverse, List.reverse_singleton]
  | .obj [] => rcases he with rfl | rfl <;> rfl
  | .obj ((k, v) :: ms) =>
    have hclose : object (((ms.map fun m => (some m.1, m.2)).reverse ++ [(some k, v)]).reverse) =
        .obj ((k, v) :: ms) := by
      rw [List.reverse_append, List.reverse_reverse]
      exact object_map_some ((k, v) :: ms)
    simp only [tokens, List.cons_append, List.append_assoc, List.nil_append, feed?_openObject he,
      feed?_key (.inr rfl), feed?_tokens v (.inl rfl), complete, Option.bind_some,
      feed?_moreMembers ms, feed?_closeObject, hclose]
  | .null | .bool _ | .int _ | .real _ | .str _ | .lone => exact feed?_scalarToken rfl he opened ts

/-- The tokens of more elements add them to the array. -/
theorem feed?_moreItems (vs : List Json) (items : List Json) (opened : List Container)
    (ts : List Token) :
    feed? (.inside (.array items :: opened) .commaOrEnd) (tokens.moreItems vs ++ ts) =
      feed? (.inside (.array (vs.reverse ++ items) :: opened) .commaOrEnd) ts := by
  match vs with
  | [] => rfl
  | v :: vs =>
    simp only [tokens.moreItems, List.cons_append, List.append_assoc, List.nil_append,
      feed?_commaItem, feed?_tokens v (.inl rfl), complete, Option.bind_some, feed?_moreItems vs,
      List.reverse_cons]

/-- The tokens of more members add them to the object. -/
theorem feed?_moreMembers (ms : List (String × Json)) (members : List (Option String × Json))
    (opened : List Container) (ts : List Token) :
    feed? (.inside (.object members :: opened) .commaOrEnd) (tokens.moreMembers ms ++ ts) =
      feed? (.inside (.object ((ms.map fun m => (some m.1, m.2)).reverse ++ members) :: opened)
        .commaOrEnd) ts := by
  match ms with
  | [] => rfl
  | (k, v) :: ms =>
    simp only [tokens.moreMembers, List.cons_append, List.append_assoc, List.nil_append,
      feed?_commaMember, feed?_key (.inl rfl), feed?_tokens v (.inl rfl), complete,
      Option.bind_some, feed?_moreMembers ms, List.map_cons, List.reverse_cons]

end

/-! ### Texts that spell tokens -/

/-- Text of blanks only. -/
def Blank (cs : List Char) : Prop := ∀ c ∈ cs, isBlank c = true

/-- A text holds tokens, with blanks in front of each, and some more text behind them. -/
def Spells : List Token → List Char → List Char → Prop
  | [], cs, rest => cs = rest
  | t :: ts, cs, rest =>
    ∃ mid, token? (cs.dropWhile isBlank) = some (t, mid) ∧ mid.length < cs.length ∧
      Spells ts mid rest

/-- A run needs no more steps than there are characters to follow the tokens of a text to their
end. -/
theorem Spells.run? {ts : List Token} {cs rest : List Char} (h : Spells ts cs rest)
    {opened : List Container} {expect : Expect} {v : Json}
    (hfeed : feed? (.inside opened expect) ts = some (.done v)) {n : Nat} (hn : cs.length < n) :
    run? n opened expect cs = some (v, rest) := by
  induction ts generalizing cs opened expect n with
  | nil => cases hfeed
  | cons t ts ih =>
    obtain ⟨mid, htoken, hlt, hmid⟩ := h
    obtain ⟨n, rfl⟩ : ∃ m, n = m + 1 := ⟨n - 1, by omega⟩
    obtain ⟨s, hs, hrest⟩ : ∃ s, advance? opened expect t = some s ∧ feed? s ts = some (.done v) :=
      Option.bind_eq_some_iff.mp hfeed
    simp only [Json.run?, htoken, hs, Option.bind_eq_bind, Option.bind_some]
    cases s with
    | done w =>
      -- the end takes no further token
      cases ts with
      | nil =>
        obtain rfl : w = v := by simpa [feed?] using hrest
        simp [show mid = rest from hmid]
      | cons t ts => cases hrest
    | inside opened expect => exact ih hmid hrest (by omega)

/-- One text of tokens behind another. -/
theorem Spells.append {ts us : List Token} {cs mid rest : List Char} (h : Spells ts cs mid)
    (h' : Spells us mid rest) : Spells (ts ++ us) cs rest := by
  induction ts generalizing cs with
  | nil => exact (show cs = mid from h) ▸ h'
  | cons t ts ih =>
    obtain ⟨next, htoken, hlt, hnext⟩ := h
    exact ⟨next, htoken, hlt, ih hnext⟩

/-- Blanks in front of the first token do not matter. -/
theorem Spells.blanks {ts : List Token} (hts : ts ≠ []) {bs cs rest : List Char} (hbs : Blank bs)
    (h : Spells ts cs rest) : Spells ts (bs ++ cs) rest := by
  cases ts with
  | nil => exact absurd rfl hts
  | cons t ts =>
    obtain ⟨mid, htoken, hlt, hmid⟩ := h
    refine ⟨mid, ?_, ?_, hmid⟩
    · rwa [List.dropWhile_append_of_pos hbs]
    · rw [List.length_append]
      omega

/-- No token starts with a blank. -/
theorem token?_blank {c : Char} (hc : isBlank c = true) (cs : List Char) :
    token? (c :: cs) = none := by
  have hcases : c = ' ' ∨ c = '\t' ∨ c = '\n' ∨ c = '\r' := by
    simpa [isBlank, or_assoc] using hc
  rcases hcases with rfl | rfl | rfl | rfl <;>
    rw [token?, number?_eq_none (by decide) (by decide)] <;> simp

/-- The characters of a token in front of a text that spells tokens. -/
theorem Spells.token {w mid : List Char} {t : Token} (ht : token? (w ++ mid) = some (t, mid))
    (hw : w ≠ []) {ts : List Token} {rest : List Char} (h : Spells ts mid rest) :
    Spells (t :: ts) (w ++ mid) rest := by
  refine ⟨mid, ?_, ?_, h⟩
  · cases hcs : w ++ mid with
    | nil => simp [hw] at hcs
    | cons c cs =>
      have hc : isBlank c ≠ true := fun hc => by
        rw [hcs, token?_blank hc] at ht
        cases ht
      rwa [List.dropWhile_cons_of_neg hc, ← hcs]
  · have hpos := List.length_pos_of_ne_nil hw
    rw [List.length_append]
    omega

/-- A token of one character. -/
theorem Spells.mark {c : Char} {t : Token} (ht : ∀ cs, token? (c :: cs) = some (t, cs))
    {ts : List Token} {cs rest : List Char} (h : Spells ts cs rest) :
    Spells (t :: ts) (c :: cs) rest :=
  Spells.token (w := [c]) (ht cs) (by simp) h

/-! ### Layouts -/

/-- Every value has a token. -/
theorem tokens_ne_nil (v : Json) : tokens v ≠ [] := by
  match v with
  | .arr [] | .arr (_ :: _) | .obj [] | .obj (_ :: _) => simp [tokens]
  | .null | .bool _ | .int _ | .real _ | .str _ | .lone => simp [tokens]

section Layout

variable (gap : Nat → List Char) (space : List Char)

/-- A value with a gap around each element and member, which may depend on the level, and a space
behind each colon. -/
def layout (level : Nat) : Json → List Char
  | .arr [] => ['[', ']']
  | .arr (v :: vs) =>
    '[' :: gap (level + 1) ++ layout (level + 1) v ++ moreItems (level + 1) vs ++ gap level ++ [']']
  | .obj [] => ['\x7b', '\x7d']
  | .obj ((k, v) :: ms) =>
    '\x7b' :: gap (level + 1) ++ quote k ++ ':' :: space ++ layout (level + 1) v
      ++ moreMembers (level + 1) ms ++ gap level ++ ['\x7d']
  | v => writeScalar v
where
  /-- The elements after the first, each behind a comma and a gap. -/
  moreItems (level : Nat) : List Json → List Char
    | [] => []
    | v :: vs => ',' :: gap level ++ layout level v ++ moreItems level vs
  /-- The members after the first, each behind a comma and a gap. -/
  moreMembers (level : Nat) : List (String × Json) → List Char
    | [] => []
    | (k, v) :: ms =>
      ',' :: gap level ++ quote k ++ ':' :: space ++ layout level v ++ moreMembers level ms

end Layout

mutual

/-- Writing without blanks is the layout without gaps. -/
theorem writeCompact_eq_layout (level : Nat) (v : Json) :
    writeCompact v = layout (fun _ => []) [] level v := by
  match v with
  | .arr [] | .obj [] => rfl
  | .arr (v :: vs) =>
    simp [writeCompact, layout, writeCompact_eq_layout (level + 1) v,
      moreItems_compact (level + 1) vs]
  | .obj ((k, v) :: ms) =>
    simp [writeCompact, layout, writeCompact_eq_layout (level + 1) v,
      moreMembers_compact (level + 1) ms]
  | .null | .bool _ | .int _ | .real _ | .str _ | .lone => rfl

/-- So it is with the elements after the first. -/
theorem moreItems_compact (level : Nat) (vs : List Json) :
    writeCompact.moreItems vs = layout.moreItems (fun _ => []) [] level vs := by
  match vs with
  | [] => rfl
  | v :: vs =>
    simp [writeCompact.moreItems, layout.moreItems, writeCompact_eq_layout level v,
      moreItems_compact level vs]

/-- So it is with the members after the first. -/
theorem moreMembers_compact (level : Nat) (ms : List (String × Json)) :
    writeCompact.moreMembers ms = layout.moreMembers (fun _ => []) [] level ms := by
  match ms with
  | [] => rfl
  | (k, v) :: ms =>
    simp [writeCompact.moreMembers, layout.moreMembers, writeCompact_eq_layout level v,
      moreMembers_compact level ms]

end

mutual

/-- Writing one member a line is the layout with new lines for gaps. -/
theorem writePretty_eq_layout (level : Nat) (v : Json) :
    writePretty level v = layout newLine [' '] level v := by
  match v with
  | .arr [] | .obj [] => rfl
  | .arr (v :: vs) =>
    simp [writePretty, layout, writePretty_eq_layout (level + 1) v, moreItems_pretty (level + 1) vs]
  | .obj ((k, v) :: ms) =>
    simp [writePretty, layout, writePretty_eq_layout (level + 1) v,
      moreMembers_pretty (level + 1) ms]
  | .null | .bool _ | .int _ | .real _ | .str _ | .lone => rfl

/-- So it is with the elements after the first. -/
theorem moreItems_pretty (level : Nat) (vs : List Json) :
    writePretty.moreItems level vs = layout.moreItems newLine [' '] level vs := by
  match vs with
  | [] => rfl
  | v :: vs =>
    simp [writePretty.moreItems, layout.moreItems, writePretty_eq_layout level v,
      moreItems_pretty level vs]

/-- So it is with the members after the first. -/
theorem moreMembers_pretty (level : Nat) (ms : List (String × Json)) :
    writePretty.moreMembers level ms = layout.moreMembers newLine [' '] level ms := by
  match ms with
  | [] => rfl
  | (k, v) :: ms =>
    simp [writePretty.moreMembers, layout.moreMembers, writePretty_eq_layout level v,
      moreMembers_pretty level ms]

end

/-- A new line with its indentation is blank. -/
theorem blank_newLine (level : Nat) : Blank (newLine level) := by
  intro c hc
  rcases List.mem_cons.mp hc with rfl | hc
  · rfl
  · rw [List.eq_of_mem_replicate hc]
    rfl

/-- No blank prolongs a number. -/
theorem Delimits.blank {bs rest : List Char} (hbs : Blank bs) (h : Delimits rest) :
    Delimits (bs ++ rest) := by
  cases bs with
  | nil => exact h
  | cons c cs =>
    have hcases : c = ' ' ∨ c = '\t' ∨ c = '\n' ∨ c = '\r' := by
      simpa [isBlank, or_assoc] using hbs c (by simp)
    rcases hcases with rfl | rfl | rfl | rfl <;> exact Delimits.cons (by decide) (by decide) _

/-- Something is written for every value. -/
theorem writeScalar_ne_nil (v : Json) : writeScalar v ≠ [] := by
  cases v with
  | bool b => cases b <;> decide
  | int i =>
    change writeInt i ≠ []
    simp [writeInt_eq, Numeral.decimal_ne_nil]
  | real d =>
    change writeDecimal d ≠ []
    simp [writeDecimal]
  | str s => exact List.cons_ne_nil _ _
  | null | lone => decide
  | arr _ | obj _ => exact List.cons_ne_nil _ _

section Layout

variable (gap : Nat → List Char) (space : List Char)

/-- More elements begin with a comma, which prolongs no number. -/
theorem delimits_moreItems (level : Nat) (vs : List Json) {rest : List Char} (h : Delimits rest) :
    Delimits (layout.moreItems gap space level vs ++ rest) := by
  cases vs with
  | nil => exact h
  | cons v vs => exact Delimits.cons (by decide) (by decide) _

/-- More members begin with a comma, too. -/
theorem delimits_moreMembers (level : Nat) (ms : List (String × Json)) {rest : List Char}
    (h : Delimits rest) : Delimits (layout.moreMembers gap space level ms ++ rest) := by
  cases ms with
  | nil => exact h
  | cons m ms => exact Delimits.cons (by decide) (by decide) _

end Layout

/-- Gaps and space of a layout hold blanks only. -/
structure IsBlank (gap : Nat → List Char) (space : List Char) : Prop where
  gap : ∀ level, Blank (gap level)
  space : Blank space

section Layout

variable {gap : Nat → List Char} {space : List Char}

variable (hb : IsBlank gap space)
include hb

/-- A member is its key, a colon and its value. -/
theorem spells_member (level : Nat) (k : String) {ts : List Token} (hts : ts ≠ [])
    {cs rest : List Char} (h : Spells ts cs rest) :
    Spells (.text (some k) :: .colon :: ts) (gap level ++ (quote k ++ ':' :: (space ++ cs))) rest :=
  Spells.blanks (by simp) (hb.gap level)
    (Spells.token (token?_quote k _) (by simp [quote])
      (Spells.mark (fun _ => rfl) (Spells.blanks hts hb.space h)))

mutual

/-- A layout spells the tokens of its value. -/
theorem spells_layout (level : Nat) (v : Json) {rest : List Char} (h : Delimits rest) :
    Spells (tokens v) (layout gap space level v ++ rest) rest := by
  match v with
  | .arr [] => exact Spells.mark (fun _ => rfl) (Spells.mark (fun _ => rfl) rfl)
  | .arr (v :: vs) =>
    have hclose : Spells [.closeArray] (gap level ++ ']' :: rest) rest :=
      Spells.blanks (by simp) (hb.gap level) (Spells.mark (fun _ => rfl) rfl)
    have hend : Delimits (gap level ++ ']' :: rest) :=
      Delimits.blank (hb.gap level) (Delimits.cons (by decide) (by decide) rest)
    have hmore := spells_moreItems (level + 1) vs hend
    have hfirst := spells_layout (level + 1) v (delimits_moreItems gap space (level + 1) vs hend)
    have hbody := Spells.blanks (tokens_ne_nil v) (hb.gap (level + 1)) hfirst
    simpa [tokens, layout] using
      Spells.mark (t := .openArray) (fun _ => rfl) (hbody.append (hmore.append hclose))
  | .obj [] => exact Spells.mark (fun _ => rfl) (Spells.mark (fun _ => rfl) rfl)
  | .obj ((k, v) :: ms) =>
    have hclose : Spells [.closeObject] (gap level ++ '\x7d' :: rest) rest :=
      Spells.blanks (by simp) (hb.gap level) (Spells.mark (fun _ => rfl) rfl)
    have hend : Delimits (gap level ++ '\x7d' :: rest) :=
      Delimits.blank (hb.gap level) (Delimits.cons (by decide) (by decide) rest)
    have hmore := spells_moreMembers (level + 1) ms hend
    have hfirst := spells_layout (level + 1) v (delimits_moreMembers gap space (level + 1) ms hend)
    have hmember := spells_member hb (level + 1) k (tokens_ne_nil v) hfirst
    simpa [tokens, layout] using
      Spells.mark (t := .openObject) (fun _ => rfl) (hmember.append (hmore.append hclose))
  | .null | .bool _ | .int _ | .real _ | .str _ | .lone =>
    exact Spells.token (token?_writeScalar rfl h) (writeScalar_ne_nil _) rfl

/-- The layout of more elements spells their tokens. -/
theorem spells_moreItems (level : Nat) (vs : List Json) {rest : List Char} (h : Delimits rest) :
    Spells (tokens.moreItems vs) (layout.moreItems gap space level vs ++ rest) rest := by
  match vs with
  | [] => rfl
  | v :: vs =>
    have hfirst := spells_layout level v (delimits_moreItems gap space level vs h)
    have hbody := Spells.blanks (tokens_ne_nil v) (hb.gap level) hfirst
    simpa [tokens.moreItems, layout.moreItems] using
      Spells.mark (t := .comma) (fun _ => rfl) (hbody.append (spells_moreItems level vs h))

/-- The layout of more members spells their tokens. -/
theorem spells_moreMembers (level : Nat) (ms : List (String × Json)) {rest : List Char}
    (h : Delimits rest) :
    Spells (tokens.moreMembers ms) (layout.moreMembers gap space level ms ++ rest) rest := by
  match ms with
  | [] => rfl
  | (k, v) :: ms =>
    have hfirst := spells_layout level v (delimits_moreMembers gap space level ms h)
    have hmember := spells_member hb level k (tokens_ne_nil v) hfirst
    simpa [tokens.moreMembers, layout.moreMembers] using
      Spells.mark (t := .comma) (fun _ => rfl) (hmember.append (spells_moreMembers level ms h))

end

end Layout

/-- A layout is read as its value, to its end. -/
theorem readFirst?_layout {gap : Nat → List Char} {space : List Char} (hb : IsBlank gap space)
    (v : Json) : readFirst? (layout gap space 0 v) = some (v, []) := by
  have hspells := spells_layout hb 0 v Delimits.nil
  have hfeed : feed? (.inside [] .value) (tokens v) = some (.done v) := by
    simpa [complete, feed?] using feed?_tokens v (.inl rfl) [] []
  rw [List.append_nil] at hspells
  exact hspells.run? hfeed (Nat.lt_succ_self _)

/-- What is written without blanks is read as the value. -/
theorem readFirst?_compact (v : Json) : readFirst? (compact v).toList = some (v, []) := by
  rw [compact, String.toList_ofList, writeCompact_eq_layout 0]
  exact readFirst?_layout ⟨fun _ => by simp [Blank], by simp [Blank]⟩ v

/-- What is written one member a line is read as the value. -/
theorem readFirst?_pretty (v : Json) : readFirst? (pretty v).toList = some (v, []) := by
  rw [pretty, String.toList_ofList, writePretty_eq_layout]
  exact readFirst?_layout ⟨blank_newLine, by simp [Blank, isBlank]⟩ v

/-- A text of one value and nothing else is that value. -/
theorem read?_of_readFirst? {text : String} {v : Json}
    (h : readFirst? text.toList = some (v, [])) : read? text = some v := by
  unfold read?
  rw [h]
  rfl

/-- A value written without blanks is read back. -/
theorem read?_compact (v : Json) : read? (compact v) = some v :=
  read?_of_readFirst? (readFirst?_compact v)

/-- A value written one member a line is read back. -/
theorem read?_pretty (v : Json) : read? (pretty v) = some v :=
  read?_of_readFirst? (readFirst?_pretty v)

end Json

end DataRace
