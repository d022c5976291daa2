import EsLogs.Tokenizer

/-!
The words that rule out a block for a list of values (`in_values.rs`). What all values have in common is
looked up first, and only the rest is looked up for each value on its own.
-/

namespace EsLogs.InValues

open Tokenizer List

/-- The loop of `get_common_tokens` over the sets after the first. -/
def retainCommon : List Bytes → List (List Bytes) → List Bytes
  | commonTokens, [] => commonTokens
  | commonTokens, tokens :: tokenSets =>
    if commonTokens = [] then []
    else retainCommon (commonTokens.filter fun token => tokens.contains token) tokenSets

def getCommonTokens : List (List Bytes) → List Bytes
  | [] => []
  | tokens :: tokenSets => retainCommon tokens tokenSets

def getCommonTokensAndTokenSets (rc : RuneClasses) (values : List Bytes) : List Bytes × List (List Bytes) :=
  let tokenSets := values.map fun v => tokenizeBytes rc [v]
  let commonTokens := getCommonTokens tokenSets
  if commonTokens = [] then (commonTokens, tokenSets)
  else (commonTokens,
    tokenSets.map fun tokens => tokens.filter fun token => !commonTokens.contains token)

/-- The test that `match_bloom_filter_any_token_set` makes with the two results. The source keeps a block
without looking at the sets once there are more than `MAX_TOKEN_SETS_TO_INIT` of them or more than ten for
each row of the block; this is the test below that number, where it can rule a block out. -/
def mayContainAny (contains : Bytes → Bool) (t : List Bytes × List (List Bytes)) : Bool :=
  t.1.all contains && t.2.any fun tokens => tokens.all contains

theorem mem_retainCommon {commonTokens : List Bytes} {tokenSets : List (List Bytes)} {token : Bytes} :
    token ∈ retainCommon commonTokens tokenSets ↔
      token ∈ commonTokens ∧ ∀ tokens ∈ tokenSets, token ∈ tokens := by
  induction tokenSets generalizing commonTokens with
  | nil => simp [retainCommon]
  | cons tokens tokenSets ih =>
    rw [retainCommon]
    split
    case isTrue hnil =>
      rw [hnil]
      simp
    case isFalse =>
      rw [ih, mem_filter, contains_iff_mem, forall_mem_cons, and_assoc]

/-- The common tokens are those of all the sets. -/
theorem mem_getCommonTokens {tokenSets : List (List Bytes)} (hne : tokenSets ≠ []) {token : Bytes} :
    token ∈ getCommonTokens tokenSets ↔ ∀ tokens ∈ tokenSets, token ∈ tokens := by
  cases tokenSets with
  | nil => exact absurd rfl hne
  | cons tokens tokenSets => rw [getCommonTokens, mem_retainCommon, forall_mem_cons]

/-- A set that has all the common tokens is within another one exactly when the common tokens and its own
rest are. -/
theorem all_iff_common_and_rest {contains : Bytes → Bool} {commonTokens tokens : List Bytes}
    (hsub : ∀ token ∈ commonTokens, token ∈ tokens) :
    (∀ token ∈ tokens, contains token = true) ↔
      (∀ token ∈ commonTokens, contains token = true) ∧
        ∀ token ∈ tokens.filter (fun token => !commonTokens.contains token), contains token = true := by
  constructor
  · intro h
    exact ⟨fun token ht => h token (hsub token ht), fun token ht => h token (mem_filter.1 ht).1⟩
  · rintro ⟨hcommon, hrest⟩ token ht
    by_cases hmem : token ∈ commonTokens
    · exact hcommon token hmem
    · apply hrest token
      rw [mem_filter]
      refine ⟨ht, ?_⟩
      rw [Bool.not_eq_true', ← Bool.not_eq_true, contains_iff_mem]
      exact hmem

/-- Nothing is lost by looking the common tokens up once. -/
theorem mayContainAny_iff (rc : RuneClasses) (values : List Bytes) (contains : Bytes → Bool) :
    mayContainAny contains (getCommonTokensAndTokenSets rc values) = true ↔
      ∃ v ∈ values, ∀ token ∈ tokenizeBytes rc [v], contains token = true := by
  have hcommon : ∀ v ∈ values, ∀ token ∈ getCommonTokens (values.map fun v => tokenizeBytes rc [v]),
      token ∈ tokenizeBytes rc [v] := by
    intro v hv token ht
    have hne : (values.map fun v => tokenizeBytes rc [v]) ≠ [] :=
      ne_nil_of_mem (mem_map_of_mem hv)
    exact (mem_getCommonTokens hne).1 ht _ (mem_map_of_mem hv)
  rw [mayContainAny, Bool.and_eq_true, all_eq_true, any_eq_true, getCommonTokensAndTokenSets]
  split
  case isTrue hnil =>
    -- no common tokens: the sets are looked up as they are
    rw [hnil]
    simp
  case isFalse =>
    constructor
    · rintro ⟨hall, tokens, htokens, hset⟩
      rw [map_map, mem_map] at htokens
      obtain ⟨v, hv, rfl⟩ := htokens
      refine ⟨v, hv, ?_⟩
      rw [all_iff_common_and_rest (hcommon v hv)]
      exact ⟨hall, all_eq_true.1 hset⟩
    · rintro ⟨v, hv, hset⟩
      rw [all_iff_common_and_rest (hcommon v hv)] at hset
      refine ⟨hset.1, _, mem_map_of_mem (mem_map_of_mem hv), ?_⟩
      exact all_eq_true.2 hset.2

end EsLogs.InValues
