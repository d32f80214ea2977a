import DataRace.Classify.Draft
import Mathlib.Data.List.Infix

/-!
# Chains in any order

The names that an interface knows all begin with one of a few stems (`Interface.stems`), and no stem
of one interface begins another interface's stem.  Two beginnings of one name are beginnings of each
other, so no callee is known to two interfaces (`Interface.eq_of_knows`).

What a chain takes a call for is therefore what any of its interfaces takes it for
(`Chain.meaning?_eq_some`), and neither the order of a chain nor a repetition in it matters
(`Draft.classify_of_mem_iff`).
-/

namespace DataRace

namespace Interface

/-- How the names begin that an interface knows. -/
def stems : Interface → List String
  | .intrinsic => ["printf", "llvm.dbg."]
  | .libc => ["free", "_Zd", "mem", "llvm.memcpy", "llvm.memmove", "llvm.memset"]
  | .pthread => ["pthread_"]
  | .openMp => ["__kmpc_", "omp_"]
  | .cuda => ["cuda", "llvm.nvvm.barrier0", "llvm.nvvm.atomic.", "_ZL"]

/-- A stem of one interface does not begin a stem of another one. -/
theorem eq_of_stem_startsWith {api api' : Interface} {stem stem' : String} (h : stem ∈ api.stems)
    (h' : stem' ∈ api'.stems) (hstarts : stem'.startsWith stem = true) : api = api' := by
  have hall : ∀ api ∈ standard, ∀ api' ∈ standard, ∀ stem ∈ api.stems, ∀ stem' ∈ api'.stems,
      stem'.startsWith stem = true → api = api' := by decide +kernel
  have hmem : ∀ api : Interface, api ∈ standard := by
    intro api
    cases api <;> decide
  exact hall api (hmem api) api' (hmem api') stem h stem' h' hstarts

/-- Interfaces with stems that begin one name are the same. -/
theorem eq_of_startsWith {api api' : Interface} {stem stem' callee : String} (h : stem ∈ api.stems)
    (h' : stem' ∈ api'.stems) (hcallee : callee.startsWith stem = true)
    (hcallee' : callee.startsWith stem' = true) : api = api' := by
  rw [String.startsWith_string_iff] at hcallee hcallee'
  rcases List.prefix_or_prefix_of_prefix hcallee hcallee' with hstarts | hstarts
  · exact eq_of_stem_startsWith h h' (String.startsWith_string_iff.2 hstarts)
  · exact (eq_of_stem_startsWith h' h (String.startsWith_string_iff.2 hstarts)).symm

/-- Whether a name begins with a stem of an interface. -/
def hasStem (api : Interface) (callee : String) : Bool :=
  api.stems.any fun stem => callee.startsWith stem

/-- The names of copies begin with stems of the C library. -/
theorem hasStem_of_isCopy {callee : String} (h : Meaning.isCopy callee = true) :
    hasStem .libc callee = true := by
  simp only [Meaning.isCopy, Bool.or_eq_true, beq_iff_eq] at h
  rcases h with ((rfl | rfl) | hcopy) | hmove
  · decide +kernel
  · decide +kernel
  · simp [hasStem, stems, hcopy]
  · simp [hasStem, stems, hmove]

/-- The names of fills begin with stems of the C library. -/
theorem hasStem_of_isFill {callee : String} (h : Meaning.isFill callee = true) :
    hasStem .libc callee = true := by
  simp only [Meaning.isFill, Bool.or_eq_true, beq_iff_eq] at h
  rcases h with rfl | hfill
  · decide +kernel
  · simp [hasStem, stems, hfill]

/-- The names of atomic operations begin with stems of CUDA. -/
theorem hasStem_of_atomic {callee : String}
    (h : callee ∈ Meaning.atomics ∨ callee.startsWith "llvm.nvvm.atomic." = true) :
    hasStem .cuda callee = true := by
  have hall : ∀ f ∈ Meaning.atomics, hasStem .cuda f = true := by decide +kernel
  rcases h with hmem | hstarts
  · exact hall callee hmem
  · simp [hasStem, stems, hstarts]

/-- A name that an interface knows begins with one of its stems. -/
theorem hasStem_of_knows {api : Interface} {callee : String} (h : api.meaning? callee ≠ none) :
    api.hasStem callee = true := by
  cases api with
  | intrinsic =>
    replace h : Meaning.intrinsic? callee ≠ none := h
    unfold Meaning.intrinsic? at h
    split at h
    · next hmem =>
      simp only [List.mem_cons, List.not_mem_nil, or_false] at hmem
      rcases hmem with rfl | rfl | rfl <;> decide +kernel
    · exact absurd rfl h
  | libc =>
    replace h : Meaning.libc? callee ≠ none := h
    unfold Meaning.libc? at h
    split at h
    · decide +kernel
    · decide +kernel
    · decide +kernel
    · split at h
      · next hcopy => exact hasStem_of_isCopy hcopy
      · split at h
        · next hfill => exact hasStem_of_isFill hfill
        · exact absurd rfl h
  | pthread =>
    replace h : Meaning.pthread? callee ≠ none := h
    unfold Meaning.pthread? at h
    split at h
    case h_7 => exact absurd rfl h
    all_goals decide +kernel
  | openMp =>
    replace h : Meaning.openMp? callee ≠ none := h
    unfold Meaning.openMp? at h
    split at h
    case h_20 =>
      split at h
      · next hstarts => simpa [hasStem, stems] using hstarts
      · exact absurd rfl h
    all_goals decide +kernel
  | cuda =>
    replace h : Meaning.cuda? callee ≠ none := h
    unfold Meaning.cuda? at h
    split at h
    · next hlaunch =>
      simp only [Meaning.isLaunch, Bool.or_eq_true, beq_iff_eq] at hlaunch
      rcases hlaunch with rfl | rfl <;> decide +kernel
    · split at h
      case h_4 =>
        split at h
        · next hatomic => exact hasStem_of_atomic (by simpa using hatomic)
        · exact absurd rfl h
      all_goals decide +kernel

/-- No callee is known to two interfaces. -/
theorem eq_of_knows {api api' : Interface} {callee : String} (h : api.meaning? callee ≠ none)
    (h' : api'.meaning? callee ≠ none) : api = api' := by
  obtain ⟨stem, hstem, hstarts⟩ := List.any_eq_true.1 (hasStem_of_knows h)
  obtain ⟨stem', hstem', hstarts'⟩ := List.any_eq_true.1 (hasStem_of_knows h')
  exact eq_of_startsWith hstem hstem' hstarts hstarts'

end Interface

namespace Chain

variable {chain chain' : Chain} {callee : String}

/-- What a chain takes a call for is what one of its interfaces takes it for. -/
theorem meaning?_eq_some {m : Meaning} :
    chain.meaning? callee = some m ↔ ∃ api ∈ chain, api.meaning? callee = some m := by
  constructor
  · exact List.exists_of_findSome?_eq_some
  · rintro ⟨api, hapi, hm⟩
    cases hfound : chain.meaning? callee with
    | none => exact absurd (List.findSome?_eq_none_iff.1 hfound api hapi) (by simp [hm])
    | some m' =>
      obtain ⟨api', -, hm'⟩ := List.exists_of_findSome?_eq_some hfound
      have hknows : api.meaning? callee ≠ none := Option.ne_none_iff_exists'.2 ⟨m, hm⟩
      have hknows' : api'.meaning? callee ≠ none := Option.ne_none_iff_exists'.2 ⟨m', hm'⟩
      rw [← hm', Interface.eq_of_knows hknows' hknows, hm]

/-- Chains of the same interfaces take a call for the same. -/
theorem meaning?_of_mem_iff (h : ∀ api, api ∈ chain ↔ api ∈ chain') (callee : String) :
    chain.meaning? callee = chain'.meaning? callee := by
  ext m
  rw [meaning?_eq_some, meaning?_eq_some]
  simp only [h]

/-- An interface that does not know a callee can be left out. -/
theorem meaning?_of_not_knows {before after : Chain} {api : Interface}
    (h : api.meaning? callee = none) :
    Chain.meaning? (before ++ api :: after) callee = Chain.meaning? (before ++ after) callee := by
  simp [meaning?, List.findSome?_append, h]

end Chain

namespace Draft

/-- What an instruction adds depends on what a chain takes its callee for. -/
theorem classify_congr {p : Program} {s : Settings} {chain chain' : Chain} {d : Draft}
    {i : Instruction}
    (h : ∀ callee, i.calleeName? = some callee → chain.meaning? callee = chain'.meaning? callee) :
    d.classify p s chain i = d.classify p s chain' i := by
  obtain ⟨id, action, location⟩ := i
  unfold classify
  cases action with
  | load | store | other => rfl
  | call callee args =>
    cases callee with
    | indirect v => rfl
    | direct f =>
      dsimp only [Callee.name?, Option.bind_eq_bind, Option.bind_some]
      rw [h f rfl]

/-- No callee is known to two interfaces, and one that does not know a callee adds nothing to a call
of it, wherever in a chain it is asked.  So chains of the same interfaces, in any order and however
often each is listed, add the same nodes at the same places for every instruction, or fail alike. -/
theorem classify_of_mem_iff :
    (∀ (callee : String) (api api' : Interface), api.meaning? callee ≠ none →
      api'.meaning? callee ≠ none → api = api') ∧
    (∀ (p : Program) (s : Settings) (d : Draft) (i : Instruction) (callee : String)
      (before : Chain) (api : Interface) (after : Chain), i.calleeName? = some callee →
      api.meaning? callee = none →
        d.classify p s (before ++ api :: after) i = d.classify p s (before ++ after) i) ∧
    ∀ (p : Program) (s : Settings) (d : Draft) (i : Instruction) (chain chain' : Chain),
      (∀ api, api ∈ chain ↔ api ∈ chain') → d.classify p s chain i = d.classify p s chain' i := by
  refine ⟨fun callee api api' => Interface.eq_of_knows, ?_, ?_⟩
  · intro p s d i callee before api after hi hnone
    refine classify_congr fun f hf => ?_
    obtain rfl : callee = f := Option.some.inj (hi.symm.trans hf)
    exact Chain.meaning?_of_not_knows hnone
  · intro p s d i chain chain' hmem
    exact classify_congr fun callee _ => Chain.meaning?_of_mem_iff hmem callee

/-- A copy of memory by a name that is known by its beginning. -/
def copying : Instruction :=
  ⟨⟨3⟩, .call (.direct "llvm.memcpy.p0") [.value ⟨1⟩, .value ⟨2⟩], none⟩

/-- A copy of memory adds a write and a read, whether the C library is asked first and again or
last, as the other interfaces do not know it. -/
theorem classify_copying :
    (∀ api, api ∈ [Interface.libc, .cuda, .libc] ↔ api ∈ [Interface.cuda, .libc]) ∧
      Interface.cuda.meaning? "llvm.memcpy.p0" = none ∧
      ∀ chain ∈ [[Interface.libc, .cuda, .libc], [.cuda, .libc], [.libc]],
        classify (.index "m" []) .default chain ⟨.empty, []⟩ copying =
          .ok ⟨⟨#[⟨copying.site, .write (.apiWrite 0) ⟨1⟩ false⟩,
            ⟨copying.site, .read (.apiRead 1) ⟨2⟩ false⟩]⟩, [0, 1]⟩ := by
  obtain ⟨hknown, hleft, hsame⟩ := classify_of_mem_iff
  have hmem : ∀ api, api ∈ [Interface.libc, .cuda, .libc] ↔ api ∈ [Interface.cuda, .libc] := by
    intro api
    cases api <;> decide
  have hcopy : Meaning.isCopy "llvm.memcpy.p0" = true := by decide +kernel
  have hlibc : Interface.libc.meaning? "llvm.memcpy.p0" = some .copy := by
    simp [Interface.meaning?, Meaning.libc?, hcopy]
  have hcuda : Interface.cuda.meaning? "llvm.memcpy.p0" = none := by
    by_contra h
    cases hknown _ _ _ h (by rw [hlibc]; exact Option.some_ne_none _)
  have hone : classify (.index "m" []) .default [.libc] ⟨.empty, []⟩ copying =
      .ok ⟨⟨#[⟨copying.site, .write (.apiWrite 0) ⟨1⟩ false⟩,
        ⟨copying.site, .read (.apiRead 1) ⟨2⟩ false⟩]⟩, [0, 1]⟩ := by
    simp [classify, copying, Callee.name?, Chain.meaning?, hlibc]
    rfl
  have htwo := (hleft _ _ _ copying _ [] .cuda [.libc] rfl hcuda).trans hone
  refine ⟨hmem, hcuda, fun chain hchain => ?_⟩
  simp only [List.mem_cons, List.not_mem_nil, or_false] at hchain
  rcases hchain with rfl | rfl | rfl
  · exact (hsame _ _ _ _ _ _ hmem).trans htwo
  · exact htwo
  · exact hone

end Draft

end DataRace
