import EsLogs.PipeOptimizer

/-!
Merging adjacent `sort`, `offset` and `limit` pipes keeps the rows, as long as no sum overflows, no sort pipe
with `partition by` has an offset or a limit behind it, and a sort pipe that takes over its first limit orders
the rows with both processors alike. For a sort pipe with partitions the merged limit holds for each
partition, where the limit pipe held for all rows.
-/

namespace EsLogs.Pipes

open List

variable {ρ : Type}

/-! ### The conditions -/

/-- All offsets together, and each limit with the offsets in front of it, fit into 64 bits. -/
def FitsFrom : Nat → List (Pipe ρ) → Prop
  | offsets, [] => offsets < 2 ^ 64
  | offsets, .sort ps :: rest => FitsFrom (offsets + ps.offset) rest
  | offsets, .offset n :: rest => FitsFrom (offsets + n) rest
  | offsets, .limit n :: rest => n + offsets < 2 ^ 64 ∧ FitsFrom offsets rest
  | offsets, .other _ :: rest => FitsFrom offsets rest

/-- Neighbours that may be merged: behind a sort pipe with partitions there is no offset, and no limit
but zero. -/
def Apart : Pipe ρ → Pipe ρ → Prop
  | .sort ps, .offset _ => ps.partitionByFields = []
  | .sort ps, .limit n => ps.partitionByFields = [] ∨ n = 0
  | _, _ => True

/-- The chains for which the optimizer is right. -/
structure Mergeable (pipes : List (Pipe ρ)) : Prop where
  fits : FitsFrom 0 pipes
  apart : pipes.IsChain Apart

/-- The limit that the offset and limit pipes at the beginning of a chain come to, behind a limit `cur`. -/
def limitBehind : Option Nat → List (Pipe ρ) → Option Nat
  | cur, .limit n :: rest => limitBehind (some (cur.elim n (min n))) rest
  | cur, .offset n :: rest => limitBehind (cur.map (· - n)) rest
  | cur, _ => cur

/-- There is such a limit, and it leaves rows. -/
def TakesLimit (cur : Option Nat) (pipes : List (Pipe ρ)) : Prop := ∃ n, limitBehind cur pipes = some (n + 1)

/-- The two processors of a sort pipe without a limit order the rows alike, if the pipe is to take over a limit. -/
def OrdersAlike {α : Type} (ops : RowOps ρ α) : List (Pipe ρ) → Prop
  | [] => True
  | .sort ps :: rest => (ps.limit = 0 → TakesLimit none rest →
      ops.sortBlockLe ps.byFields ps.isDesc = ops.topkLe ps.byFields ps.isDesc) ∧ OrdersAlike ops rest
  | _ :: rest => OrdersAlike ops rest

/-- The rows that a pipe leaves out at the start. -/
def Pipe.skipped : Pipe ρ → Nat
  | .sort ps => ps.offset
  | .offset n => n
  | .limit _ | .other _ => 0

variable {rule : Pipe ρ → Pipe ρ → Outcome (Rewrite ρ)} {α : Type} {p q : Pipe ρ} {chain : List (Pipe ρ)} {m n : Nat}

theorem fitsFrom_cons :
    FitsFrom n (p :: chain) ↔ (∀ l, p = .limit l → l + n < 2 ^ 64) ∧ FitsFrom (n + p.skipped) chain := by
  cases p <;> simp [FitsFrom, Pipe.skipped]

theorem FitsFrom.mono (h : FitsFrom n chain) (hmn : m ≤ n) : FitsFrom m chain := by
  induction chain generalizing m n with
  | nil => exact Nat.lt_of_le_of_lt hmn h
  | cons p rest ih =>
    rw [fitsFrom_cons] at h ⊢
    exact ⟨fun l hl => Nat.lt_of_le_of_lt (Nat.add_le_add_left hmn l) (h.1 l hl), ih h.2 (by omega)⟩

theorem FitsFrom.lt (h : FitsFrom n chain) : n < 2 ^ 64 := by
  induction chain generalizing n with
  | nil => exact h
  | cons p rest ih => exact Nat.lt_of_le_of_lt (Nat.le_add_right _ _) (ih (fitsFrom_cons.1 h).2)

theorem FitsFrom.tail (h : FitsFrom n (p :: chain)) : FitsFrom n chain :=
  (fitsFrom_cons.1 h).2.mono (Nat.le_add_right _ _)

/-- What stands at the end of a chain may be replaced by what fits at every place where it fits. -/
theorem FitsFrom.replace {pre old new : List (Pipe ρ)} (h : FitsFrom n (pre ++ old))
    (hreplace : ∀ m, FitsFrom m old → FitsFrom m new) : FitsFrom n (pre ++ new) := by
  induction pre generalizing n with
  | nil => exact hreplace n h
  | cons p pre ih =>
    obtain ⟨hlimit, hrest⟩ := fitsFrom_cons.1 h
    exact fitsFrom_cons.2 ⟨hlimit, ih hrest⟩

theorem addU64_of_lt {a b : Nat} (h : a + b < 2 ^ 64) : addU64 a b = .ok (a + b) := if_pos h

/-! ### Rules -/

theorem OrdersAlike.tail {ops : RowOps ρ α} (h : OrdersAlike ops (p :: chain)) : OrdersAlike ops chain := by
  cases p with
  | sort ps => exact h.2
  | limit n | offset n | other q => exact h

theorem limitBehind_zero (pipes : List (Pipe ρ)) : limitBehind (some 0) pipes = some 0 := by
  induction pipes with
  | nil => rfl
  | cons p pipes ih => cases p <;> simp [limitBehind, ih]

/-- What may stand in the place of a chain: it does the same to all rows that are ordered alike, and asks for no
more if other pipes stand in front. -/
structure Same (old new : List (Pipe ρ)) : Prop where
  rows : ∀ {α : Type} {ops : RowOps ρ α}, OrdersAlike ops old → ∀ rows, runPipes ops old rows = runPipes ops new rows
  takes : ∀ cur, TakesLimit cur new → TakesLimit cur old
  alike : ∀ {α : Type} {ops : RowOps ρ α}, OrdersAlike ops old → OrdersAlike ops new

theorem Same.refl (pipes : List (Pipe ρ)) : Same pipes pipes := ⟨fun _ _ => rfl, fun _ => id, id⟩

theorem runPipes_append (ops : RowOps ρ α) (ps qs : List (Pipe ρ)) (rows : List α) :
    runPipes ops (ps ++ qs) rows = runPipes ops qs (runPipes ops ps rows) := foldl_append

theorem Same.cons {old new : List (Pipe ρ)} (h : Same old new) (p : Pipe ρ) : Same (p :: old) (p :: new) where
  rows {_ ops} halike rows := h.rows halike.tail (p.run ops rows)
  takes cur htakes := by
    cases p with
    | limit n | offset n => exact h.takes _ htakes
    | sort ps | other q => exact htakes
  alike halike := by
    cases p with
    | sort ps => exact ⟨fun hlimit htakes => halike.1 hlimit (h.takes none htakes), h.alike halike.2⟩
    | limit n | offset n | other q => exact h.alike halike

theorem Same.behind {old new : List (Pipe ρ)} (h : Same old new) (pre : List (Pipe ρ)) :
    Same (pre ++ old) (pre ++ new) := by
  induction pre with
  | nil => exact h
  | cons p pre ih => exact ih.cons p

theorem Same.trans {a b c : List (Pipe ρ)} (h : Same a b) (h' : Same b c) : Same a c :=
  ⟨fun halike rows => (h.rows halike rows).trans (h'.rows (h.alike halike) rows),
    fun cur htakes => h.takes cur (h'.takes cur htakes), fun halike => h'.alike (h.alike halike)⟩

/-- Pipes at the beginning of a chain that do the same to all rows, and leave the same limit. -/
theorem same_of_run (old new : List (Pipe ρ)) {rest : List (Pipe ρ)}
    (hrun : ∀ {α : Type} (ops : RowOps ρ α) rows, runPipes ops old rows = runPipes ops new rows)
    (hlimit : ∀ cur, limitBehind cur (new ++ rest) = limitBehind cur (old ++ rest))
    (halike : ∀ {α : Type} {ops : RowOps ρ α}, OrdersAlike ops (old ++ rest) → OrdersAlike ops (new ++ rest)) :
    Same (old ++ rest) (new ++ rest) := by
  refine ⟨fun _ rows => ?_, fun cur htakes => ?_, halike⟩
  · rw [runPipes_append, runPipes_append, hrun]
  · rwa [TakesLimit, ← hlimit]

/-- What a rule may put in the place of two neighbours. -/
structure Replaces (p q : Pipe ρ) (new : List (Pipe ρ)) : Prop where
  same : ∀ rest, Same (p :: q :: rest) (new ++ rest)
  fits : ∀ n rest, FitsFrom n (p :: q :: rest) → FitsFrom n (new ++ rest)
  inside : new.IsChain Apart
  left : ∀ x, Apart x p → ∀ y ∈ new.head?, Apart x y
  right : ∀ y, Apart q y → ∀ x ∈ new.getLast?, Apart x y
  ne_nil : new ≠ []

/-- The pipes that a rewrite puts in place, if it puts any. -/
def Rewrite.pipes : Rewrite ρ → Option (List (Pipe ρ))
  | .keep => none
  | .merge p => some [p]
  | .swap p q => some [p, q]

/-- The rule succeeds on two neighbours, and what it puts in place may be there. -/
def RightFor (rule : Pipe ρ → Pipe ρ → Outcome (Rewrite ρ)) (p q : Pipe ρ) : Prop :=
  ∃ r, rule p q = .ok r ∧ ∀ new, r.pipes = some new → Replaces p q new

def RightRule (rule : Pipe ρ → Pipe ρ → Outcome (Rewrite ρ)) : Prop :=
  ∀ p q n rest, FitsFrom n (p :: q :: rest) → Apart p q → RightFor rule p q

theorem Mergeable.replace {pre rest new : List (Pipe ρ)} {p q : Pipe ρ}
    (h : Mergeable (pre ++ p :: q :: rest)) (hreplace : Replaces p q new) :
    Mergeable (pre ++ (new ++ rest)) := by
  refine ⟨h.fits.replace fun m hm => hreplace.fits m rest hm, ?_⟩
  have hchain := h.apart
  rw [isChain_append] at hchain
  obtain ⟨hpre, htail, hjoin⟩ := hchain
  rw [isChain_cons_cons, isChain_cons] at htail
  obtain ⟨-, hright, hrest⟩ := htail
  rw [isChain_append, isChain_append]
  refine ⟨hpre, ⟨hreplace.inside, hrest, ?_⟩, ?_⟩
  · intro x hx y hy
    exact hreplace.right y (hright y hy) x hx
  · intro x hx y hy
    rw [List.head?_append_of_ne_nil _ hreplace.ne_nil] at hy
    exact hreplace.left x (hjoin x hx p rfl) y hy

theorem FitsFrom.window {pre rest : List (Pipe ρ)} (h : FitsFrom n (pre ++ rest)) : FitsFrom n rest := by
  induction pre with
  | nil => exact h
  | cons p pre ih => exact ih h.tail

/-- One pass with a right rule, behind pipes that are already done. -/
theorem pass_spec (hrule : RightRule rule)
    (pre : List (Pipe ρ)) (p : Pipe ρ) (rest : List (Pipe ρ)) (h : Mergeable (pre ++ p :: rest)) :
    ∃ out, pass rule p rest = .ok out ∧ Mergeable (pre ++ out) ∧ Same (pre ++ p :: rest) (pre ++ out) ∧
      out.length ≤ rest.length + 1 := by
  induction rest generalizing pre p with
  | nil => exact ⟨[p], rfl, h, .refl _, le_rfl⟩
  | cons q rest ih =>
    have hapart : Apart p q := by
      have htail := (isChain_append.1 h.apart).2.1
      exact (isChain_cons_cons.1 htail).1
    obtain ⟨r, hr, hreplaces⟩ := hrule p q 0 rest h.fits.window hapart
    rw [pass, hr, except_ok_bind]
    cases r with
    | keep =>
      obtain ⟨out, hout, hmergeable, hsame, hlen⟩ := ih (pre ++ [p]) q (by simpa using h)
      refine ⟨p :: out, ?_, by simpa using hmergeable, by simpa using hsame, Nat.succ_le_succ hlen⟩
      simp only [hout, except_ok_bind]
      rfl
    | merge p' =>
      have hreplace := hreplaces [p'] rfl
      obtain ⟨out, hout, hmergeable, hsame, hlen⟩ := ih pre p' (h.replace hreplace)
      refine ⟨out, hout, hmergeable, ?_, Nat.le_succ_of_le hlen⟩
      exact ((hreplace.same rest).behind pre).trans hsame
    | swap p' q' =>
      have hreplace := hreplaces [p', q'] rfl
      obtain ⟨out, hout, hmergeable, hsame, hlen⟩ :=
        ih (pre ++ [p']) q' (by simpa using h.replace hreplace)
      refine ⟨p' :: out, ?_, by simpa using hmergeable, ?_, Nat.succ_le_succ hlen⟩
      · simp only [hout, except_ok_bind]
        rfl
      · have hwindow := (hreplace.same rest).behind pre
        exact hwindow.trans (by simpa using hsame)

/-- A step of the optimizer that keeps what chains do, and does not make them longer. -/
def RightPass (f : List (Pipe ρ) → Outcome (List (Pipe ρ))) : Prop :=
  ∀ pipes, Mergeable pipes → ∃ out, f pipes = .ok out ∧ Mergeable out ∧ Same pipes out ∧
    out.length ≤ pipes.length

theorem RightRule.passAll (hrule : RightRule rule) :
    RightPass (passAll rule) := by
  intro pipes h
  cases pipes with
  | nil => exact ⟨[], rfl, h, .refl _, le_rfl⟩
  | cons p rest => exact pass_spec hrule [] p rest h

theorem RightPass.bind {f g : List (Pipe ρ) → Outcome (List (Pipe ρ))} (hf : RightPass f)
    (hg : RightPass g) : RightPass fun pipes => f pipes >>= g := by
  intro pipes h
  obtain ⟨mid, hmid, hmergeable, hsame, hlen⟩ := hf pipes h
  obtain ⟨out, hout, hmergeable', hsame', hlen'⟩ := hg mid hmergeable
  refine ⟨out, ?_, hmergeable', hsame.trans hsame', hlen'.trans hlen⟩
  show f pipes >>= g = .ok out
  rw [hmid, except_ok_bind, hout]

/-! ### The single rules -/

/-- A sort pipe without partitions, or another pipe, may have any pipe behind it. -/
theorem apart_of_apart_offset {x : Pipe ρ} (h : Apart x (.offset n)) (y : Pipe ρ) :
    Apart x y := by
  cases x with
  | sort ps =>
    cases y with
    | offset k => exact h
    | limit k => exact .inl h
    | sort qs | other q => trivial
  | offset k | limit k | other q => trivial

theorem apart_limit_zero (x : Pipe ρ) : Apart x (.limit 0) := by
  cases x with
  | sort ps => exact .inr rfl
  | offset k | limit k | other q => trivial

theorem rightFor_keep (h : rule p q = .ok .keep) : RightFor rule p q :=
  ⟨.keep, h, fun _ hnew => nomatch hnew⟩

/-- A pipe that may be in the place of two neighbours. -/
theorem rightFor_merge {r : Pipe ρ} (h : rule p q = .ok (.merge r))
    (hsame : ∀ rest, Same (p :: q :: rest) (r :: rest))
    (hfits : ∀ n rest, FitsFrom n (p :: q :: rest) → FitsFrom n (r :: rest))
    (hleft : ∀ x, Apart x p → Apart x r) (hright : ∀ y, Apart r y) : RightFor rule p q := by
  refine ⟨.merge r, h, fun new hnew => ?_⟩
  cases hnew
  refine ⟨hsame, hfits, isChain_singleton r, ?_, ?_, cons_ne_nil _ _⟩
  · rintro x hx y hy
    cases hy
    exact hleft x hx
  · rintro y hy x hx
    cases hx
    exact hright y

theorem rightFor_limit_zero (h : rule p q = .ok (.merge (.limit 0)))
    (hrun : ∀ {α : Type} (ops : RowOps ρ α) rows, runPipes ops [p, q] rows = []) : RightFor rule p q := by
  apply rightFor_merge h
  · intro rest
    refine ⟨fun {_ ops} _ rows => ?_, fun cur htakes => ?_, fun halike => halike.tail.tail⟩
    · show runPipes ops rest (runPipes ops [p, q] rows) = runPipes ops rest (rows.take 0)
      rw [hrun, take_zero]
    · have hzero : limitBehind cur (.limit 0 :: rest) = some 0 := by
        cases cur <;> simp [limitBehind, limitBehind_zero]
      obtain ⟨n, hn⟩ := htakes
      cases hzero.symm.trans hn
  · intro m rest hfits
    have hlt := hfits.lt
    exact ⟨by omega, hfits.tail.tail⟩
  · intro x _
    exact apart_limit_zero x
  · intro y
    trivial

/-- A sort pipe that takes over the window of its neighbour. -/
theorem rightFor_sort {ps : PipeSort} (h : rule p q = .ok (.merge (.sort ps)))
    (hpartition : ps.partitionByFields = []) (hskipped : ps.offset = p.skipped + q.skipped)
    (hsame : ∀ rest, Same (p :: q :: rest) (.sort ps :: rest)) : RightFor rule p q := by
  apply rightFor_merge h hsame
  · intro m rest hfits
    show FitsFrom (m + ps.offset) rest
    rw [hskipped, ← Nat.add_assoc]
    exact (fitsFrom_cons.1 (fitsFrom_cons.1 hfits).2).2
  · intro x _
    cases x <;> trivial
  · exact apart_of_apart_offset (x := .sort ps) (n := 0) hpartition

theorem rightRule_offsetLimit : RightRule (offsetLimitRule (ρ := ρ)) := by
  intro p q n rest hfits hapart
  cases p <;> cases q <;> try exact rightFor_keep rfl
  case offset.limit o l =>
    have hsum : l + (n + o) < 2 ^ 64 := hfits.1
    refine ⟨.swap (.limit (l + o)) (.offset o), ?_, ?_⟩
    · rw [offsetLimitRule, addU64_of_lt (by omega)]
      rfl
    · intro new hnew
      cases hnew
      refine ⟨?_, ?_, isChain_pair.2 trivial, ?_, ?_, cons_ne_nil _ _⟩
      · intro rest
        refine same_of_run [.offset o, .limit l] [.limit (l + o), .offset o] ?_ ?_ id
        · intro α ops rows
          show (rows.drop o).take l = (rows.take (l + o)).drop o
          rw [drop_take, Nat.add_sub_cancel]
        · intro cur
          cases cur with
          | none => simp [limitBehind]
          | some c =>
            have hmin : min (l + o) c - o = min l (c - o) := by omega
            simp [limitBehind, hmin]
      · intro m rest h
        refine ⟨?_, h.2⟩
        have hsum : l + (m + o) < 2 ^ 64 := h.1
        omega
      · rintro x hx y -
        exact apart_of_apart_offset hx y
      · rintro y hy x hx
        cases hx
        trivial

theorem rightRule_offsetOffset : RightRule (offsetOffsetRule (ρ := ρ)) := by
  intro p q n rest hfits hapart
  cases p <;> cases q <;> try exact rightFor_keep rfl
  case offset.offset o1 o2 =>
    have hrest : FitsFrom (n + o1 + o2) rest := hfits
    have hsum := hrest.lt
    apply rightFor_merge (r := .offset (o1 + o2))
    · rw [offsetOffsetRule, addU64_of_lt (by omega)]
      rfl
    · intro rest
      refine same_of_run [.offset o1, .offset o2] [.offset (o1 + o2)] ?_ ?_ id
      · intro α ops rows
        show (rows.drop o1).drop o2 = rows.drop (o1 + o2)
        rw [drop_drop]
      · intro cur
        cases cur <;> simp [limitBehind, Nat.sub_sub]
    · intro m rest h
      show FitsFrom (m + (o1 + o2)) rest
      rw [← Nat.add_assoc]
      exact h
    · intro x hx
      exact apart_of_apart_offset hx _
    · intro y
      trivial

theorem rightRule_limitLimit : RightRule (limitLimitRule (ρ := ρ)) := by
  intro p q n rest hfits hapart
  cases p <;> cases q <;> try exact rightFor_keep rfl
  case limit.limit l1 l2 =>
    apply rightFor_merge (r := .limit (min l1 l2)) rfl
    · intro rest
      refine same_of_run [.limit l1, .limit l2] [.limit (min l1 l2)] ?_ ?_ id
      · intro α ops rows
        show (rows.take l1).take l2 = rows.take (min l1 l2)
        rw [take_take, Nat.min_comm]
      · intro cur
        cases cur with
        | none => simp [limitBehind, Nat.min_comm]
        | some c => simp [limitBehind, Nat.min_left_comm, Nat.min_assoc]
    · rintro m rest ⟨hl1, -, hrest⟩
      refine ⟨?_, hrest⟩
      have hle := Nat.min_le_left l1 l2
      omega
    · intro x hx
      cases x with
      | sort ps =>
        refine hx.imp_right ?_
        rintro rfl
        exact Nat.zero_min l2
      | offset k | limit k | other q => trivial
    · intro y
      trivial

theorem rightRule_limitOffset : RightRule (limitOffsetRule (ρ := ρ)) := by
  intro p q n rest hfits hapart
  cases p <;> cases q <;> try exact rightFor_keep rfl
  case limit.offset l o =>
    by_cases hlt : o < l
    · exact rightFor_keep (by rw [limitOffsetRule, if_pos hlt])
    · apply rightFor_limit_zero (by rw [limitOffsetRule, if_neg hlt])
      intro α ops rows
      show (rows.take l).drop o = []
      rw [drop_take, Nat.sub_eq_zero_of_le (Nat.le_of_not_lt hlt), take_zero]

/-! ### Sort pipes -/

/-- Without partitions, the offset and the limit hold for all rows. -/
theorem run_of_not_partitioned (ops : RowOps ρ α) (ps : PipeSort)
    (hpartition : ps.partitionByFields = []) (hlimit : ps.limit > 0) (rows : List α) :
    ps.run ops rows = ((ps.ranked ops rows).drop ps.offset).take ps.limit := by
  have hkey : ∀ row, ps.partitionKey ops row = [] := by
    intro row
    rw [PipeSort.partitionKey, hpartition]
    rfl
  have hranked : ps.ranked ops ([] : List α) = [] := by
    unfold PipeSort.ranked
    split <;> rfl
  rw [PipeSort.run, if_pos hlimit]
  cases rows with
  | nil => rw [hranked, drop_nil, take_nil]; rfl
  | cons row rows =>
    have hkeys : ((row :: rows).map (ps.partitionKey ops)).dedup = [[]] := by
      have hmap : (row :: rows).map (ps.partitionKey ops) = List.replicate (rows.length + 1) [] :=
        eq_replicate_iff.2 ⟨by simp, by simp [hkey]⟩
      rw [hmap, replicate_dedup (Nat.succ_ne_zero _)]
    have hall : (row :: rows).filter (fun r => decide (ps.partitionKey ops r = [])) = row :: rows :=
      filter_eq_self.2 fun r _ => decide_eq_true (hkey r)
    have hpartitions : ps.partitions ops (row :: rows) = [row :: rows] := by
      unfold PipeSort.partitions
      simp only [hkeys]
      show [(row :: rows).filter fun r => decide (ps.partitionKey ops r = [])] = [row :: rows]
      rw [hall]
    rw [hpartitions, flatMap_cons, flatMap_nil, append_nil]

theorem run_of_no_limit (ops : RowOps ρ α) (ps : PipeSort) (hlimit : ps.limit = 0)
    (rows : List α) : ps.run ops rows = (ps.ranked ops rows).drop ps.offset := by
  rw [PipeSort.run, if_neg (by omega)]

theorem ranked_congr (ops : RowOps ρ α) {ps ps' : PipeSort} (hle : ps.le ops = ps'.le ops)
    (hrank : ps.rankFieldName = ps'.rankFieldName) (rows : List α) : ps.ranked ops rows = ps'.ranked ops rows := by
  rw [PipeSort.ranked, PipeSort.ranked, hle, hrank]

/-- The offset behind a sort pipe moves its window. -/
theorem run_drop (ops : RowOps ρ α) {ps : PipeSort} {o : Nat} (hpartition : ps.partitionByFields = [])
    (h : ps.limit = 0 ∨ o < ps.limit) (rows : List α) :
    (ps.run ops rows).drop o = { ps with offset := ps.offset + o, limit := ps.limit - o }.run ops rows := by
  set ps' : PipeSort := { ps with offset := ps.offset + o, limit := ps.limit - o } with hps'
  rcases h with hzero | hlt
  · have hzero' : ps'.limit = 0 := by
      show ps.limit - o = 0
      omega
    have hle : ps.le ops = ps'.le ops := by
      rw [PipeSort.le, PipeSort.le, hzero, hzero']
    rw [run_of_no_limit ops ps hzero, run_of_no_limit ops ps' hzero', drop_drop, ranked_congr ops hle rfl]
  · have hpos : ps.limit > 0 := by omega
    have hpos' : ps'.limit > 0 := Nat.sub_pos_of_lt hlt
    have hle : ps.le ops = ps'.le ops := by
      rw [PipeSort.le, PipeSort.le, if_pos hpos, if_pos hpos']
    rw [run_of_not_partitioned ops ps hpartition hpos, run_of_not_partitioned ops ps' hpartition hpos', drop_take,
      drop_drop, ranked_congr ops hle rfl]

theorem sortMergeOffset_spec {ps : PipeSort} {o n : Nat} (hsum : n + ps.offset + o < 2 ^ 64) :
    ps.sortMergeOffset o = .ok none ∧ ps.limit > 0 ∧ o ≥ ps.limit ∨
      ps.sortMergeOffset o = .ok (some { ps with offset := ps.offset + o, limit := ps.limit - o }) ∧
        (ps.limit = 0 ∨ o < ps.limit) := by
  unfold PipeSort.sortMergeOffset
  by_cases hall : ps.limit > 0 ∧ o ≥ ps.limit
  · exact .inl ⟨if_pos hall, hall⟩
  · have hlimit : (if ps.limit > 0 then ps.limit - o else ps.limit) = ps.limit - o := by
      split <;> omega
    rw [if_neg hall, addU64_of_lt (by omega), except_ok_bind, hlimit]
    exact .inr ⟨rfl, by omega⟩

/-- The limit behind a sort pipe cuts its window. -/
theorem run_sortMergeLimit (ops : RowOps ρ α) {ps : PipeSort} {l : Nat}
    (hpartition : ps.partitionByFields = []) (hl : l ≠ 0)
    (halike : ps.limit = 0 → ops.sortBlockLe ps.byFields ps.isDesc = ops.topkLe ps.byFields ps.isDesc)
    (rows : List α) : (ps.run ops rows).take l = (ps.sortMergeLimit l).run ops rows := by
  have hpos : l > 0 := Nat.pos_of_ne_zero hl
  unfold PipeSort.sortMergeLimit
  by_cases hcut : ps.limit = 0 ∨ l < ps.limit
  · have hle : ps.le ops = { ps with limit := l }.le ops := by
      rw [PipeSort.le, PipeSort.le, if_pos hpos]
      split
      · rfl
      · exact halike (by omega)
    rw [if_pos hcut, run_of_not_partitioned ops { ps with limit := l } hpartition hpos, ← ranked_congr ops hle rfl]
    show _ = ((ps.ranked ops rows).drop ps.offset).take l
    by_cases hzero : ps.limit = 0
    · rw [run_of_no_limit ops ps hzero]
    · have hlt : l < ps.limit := hcut.resolve_left hzero
      rw [run_of_not_partitioned ops ps hpartition (Nat.pos_of_ne_zero hzero), take_take,
        Nat.min_eq_left (Nat.le_of_lt hlt)]
  · rw [not_or] at hcut
    rw [if_neg (not_or.2 hcut), run_of_not_partitioned ops ps hpartition (Nat.pos_of_ne_zero hcut.1),
      take_take, Nat.min_eq_right (Nat.le_of_not_lt hcut.2)]

theorem exists_limitBehind (c : Nat) (pipes : List (Pipe ρ)) : ∃ n, limitBehind (some c) pipes = some n := by
  induction pipes generalizing c with
  | nil => exact ⟨c, rfl⟩
  | cons p pipes ih =>
    cases p with
    | limit n => exact ih (min n c)
    | offset n => exact ih (c - n)
    | sort ps | other q => exact ⟨c, rfl⟩

/-- Rows that all fall to the offset and limit pipes to come play no part. -/
theorem run_of_limit_zero (ops : RowOps ρ α) {pipes : List (Pipe ρ)} {c : Nat}
    (h : limitBehind (some c) pipes = some 0) {rows : List α} (hrows : rows.length ≤ c) :
    runPipes ops pipes rows = runPipes ops pipes [] := by
  induction pipes generalizing c rows with
  | nil =>
    cases h
    rw [eq_nil_of_length_eq_zero (Nat.le_zero.1 hrows)]
  | cons p pipes ih =>
    cases p with
    | limit n =>
      have hlen : (rows.take n).length ≤ min n c := length_take ▸ min_le_min_left n hrows
      exact (ih h hlen).trans (congrArg _ take_nil.symm)
    | offset n =>
      have hlen : (rows.drop n).length ≤ c - n := length_drop ▸ Nat.sub_le_sub_right hrows n
      exact (ih h hlen).trans (congrArg _ drop_nil.symm)
    | sort ps | other q =>
      cases h
      rw [eq_nil_of_length_eq_zero (Nat.le_zero.1 hrows)]

theorem rightRule_sortOffset : RightRule (sortOffsetRule (ρ := ρ)) := by
  intro p q n rest hfits hapart
  cases p <;> cases q <;> try exact rightFor_keep rfl
  case sort.offset ps o =>
    have hpartition : ps.partitionByFields = [] := hapart
    have hrest : FitsFrom (n + ps.offset + o) rest := hfits
    rcases sortMergeOffset_spec hrest.lt with ⟨hmerge, hpos, hge⟩ | ⟨hmerge, hlimit⟩
    · apply rightFor_limit_zero
      · rw [sortOffsetRule, hmerge]
        rfl
      · intro α ops rows
        show (ps.run ops rows).drop o = []
        rw [run_of_not_partitioned ops ps hpartition hpos, drop_take, Nat.sub_eq_zero_of_le hge, take_zero]
    · set ps' : PipeSort := { ps with offset := ps.offset + o, limit := ps.limit - o } with hps'
      have hrule : sortOffsetRule (ρ := ρ) (.sort ps) (.offset o) = .ok (.merge (.sort ps')) := by
        rw [sortOffsetRule, hmerge]
        rfl
      refine rightFor_sort hrule hpartition rfl fun rest => ?_
      refine same_of_run [.sort ps, .offset o] [.sort ps'] (fun ops rows => run_drop ops hpartition hlimit rows)
        (fun cur => rfl) fun halike => ⟨fun hzero htakes => halike.1 ?_ htakes, halike.2⟩
      have hzero' : ps.limit - o = 0 := hzero
      omega

theorem rightRule_sortLimit : RightRule (sortLimitRule (ρ := ρ)) := by
  intro p q n rest hfits hapart
  cases p <;> cases q <;> try exact rightFor_keep rfl
  case sort.limit ps l =>
    by_cases hl : l = 0
    · apply rightFor_limit_zero (by rw [sortLimitRule, if_pos hl])
      intro α ops rows
      show (ps.run ops rows).take l = []
      rw [hl, take_zero]
    · have hpartition : ps.partitionByFields = [] := hapart.resolve_right hl
      obtain ⟨hkept, hoffset, hpos, hle⟩ : (ps.sortMergeLimit l).partitionByFields = [] ∧
          (ps.sortMergeLimit l).offset = ps.offset ∧ (ps.sortMergeLimit l).limit > 0 ∧
          (ps.sortMergeLimit l).limit ≤ l := by
        unfold PipeSort.sortMergeLimit
        split
        · exact ⟨hpartition, rfl, Nat.pos_of_ne_zero hl, le_rfl⟩
        · exact ⟨hpartition, rfl, by omega, by omega⟩
      refine rightFor_sort (by rw [sortLimitRule, if_neg hl]) hkept hoffset fun rest =>
        ⟨fun {α ops} halike rows => ?_, fun cur => id, fun halike => ⟨fun hzero => absurd hzero hpos.ne', halike.2⟩⟩
      show runPipes ops rest ((ps.run ops rows).take l) = runPipes ops rest ((ps.sortMergeLimit l).run ops rows)
      obtain ⟨m, hm⟩ := exists_limitBehind l rest
      cases m with
      | zero =>
        rw [run_of_limit_zero ops hm (length_take_le _ _), run_of_not_partitioned ops _ hkept hpos,
          run_of_limit_zero ops hm ((length_take_le _ _).trans hle)]
      | succ m => rw [run_sortMergeLimit ops hpartition hl fun hzero => halike.1 hzero ⟨m, hm⟩]

/-! ### The optimizer -/

/-- An offset of zero may be left out. -/
theorem Mergeable.remove_offset_zero {pre rest : List (Pipe ρ)}
    (h : Mergeable (pre ++ .offset 0 :: rest)) : Mergeable (pre ++ rest) := by
  refine ⟨h.fits.replace fun m hm => hm, ?_⟩
  have hchain := isChain_append.1 h.apart
  rw [isChain_append]
  refine ⟨hchain.1, (isChain_cons.1 hchain.2.1).2, ?_⟩
  intro x hx y _
  exact apart_of_apart_offset (hchain.2.2 x hx (.offset 0) rfl) y

theorem filter_offsetZero_spec (pre pipes : List (Pipe ρ)) (h : Mergeable (pre ++ pipes)) :
    Mergeable (pre ++ pipes.filter fun p => !isOffsetZero p) ∧
      Same pipes (pipes.filter fun p => !isOffsetZero p) := by
  induction pipes generalizing pre with
  | nil => exact ⟨h, .refl _⟩
  | cons p pipes ih =>
    by_cases hp : isOffsetZero p = true
    · have hzero : p = .offset 0 := by
        cases p with
        | offset n => rw [isOffsetZero, beq_iff_eq] at hp; rw [hp]
        | sort ps | limit n | other q => exact absurd hp Bool.false_ne_true
      rw [filter_cons_of_neg (by simp [hp])]
      subst hzero
      obtain ⟨hmergeable, hsame⟩ := ih pre h.remove_offset_zero
      refine ⟨hmergeable, .trans (same_of_run [.offset 0] [] (fun ops rows => rfl) (fun cur => ?_) id) hsame⟩
      cases cur <;> rfl
    · rw [filter_cons_of_pos (by simp [hp])]
      obtain ⟨hmergeable, hsame⟩ := ih (pre ++ [p]) (by simpa using h)
      exact ⟨by simpa using hmergeable, hsame.cons p⟩

theorem rightPass_filter :
    RightPass fun pipes : List (Pipe ρ) => .ok (pipes.filter fun p => !isOffsetZero p) := by
  intro pipes h
  obtain ⟨hmergeable, hsame⟩ := filter_offsetZero_spec [] pipes h
  exact ⟨_, rfl, hmergeable, hsame, length_filter_le _ _⟩

theorem rightPass_internal : RightPass (optimizeOffsetLimitPipesInternal (ρ := ρ)) :=
  rightRule_offsetLimit.passAll.bind <| rightRule_offsetOffset.passAll.bind <|
    rightRule_limitLimit.passAll.bind <| rightRule_limitOffset.passAll.bind <|
      rightPass_filter.bind <| rightRule_sortOffset.passAll.bind rightRule_sortLimit.passAll

/-- The loop ends, because every round but the last one makes the chain shorter. -/
theorem optimizeLoop_spec (fuel : Nat) (pipes : List (Pipe ρ)) (h : Mergeable pipes)
    (hfuel : pipes.length < fuel) :
    ∃ out, optimizeLoop fuel pipes = .ok out ∧ Same pipes out := by
  induction fuel generalizing pipes with
  | zero => exact absurd hfuel (Nat.not_lt_zero _)
  | succ fuel ih =>
    obtain ⟨mid, hmid, hmergeable, hsame, hlen⟩ := rightPass_internal pipes h
    rw [optimizeLoop]
    simp only [hmid, except_ok_bind]
    by_cases hstop : mid.length = pipes.length
    · exact ⟨mid, if_pos hstop, hsame⟩
    · rw [if_neg hstop]
      obtain ⟨out, hout, hsame'⟩ := ih mid hmergeable (by omega)
      exact ⟨out, hout, hsame.trans hsame'⟩

def sampleSort (partitionByFields : List Bytes) : PipeSort where
  byFields := []
  isDesc := false
  offset := 0
  limit := 0
  rankFieldName := []
  partitionByFields := partitionByFields

/-- `sort by (n) | offset 1 | limit 2 | offset 1`. -/
def sampleChain : List (Pipe Empty) :=
  [.sort (sampleSort []), .offset 1, .limit 2, .offset 1]

/-- Rows with one byte, which is also the value of every field. -/
def sampleRowOps : RowOps Empty UInt8 where
  sortBlockLe _ _ a b := decide (a ≤ b)
  topkLe _ _ a b := decide (a ≤ b)
  value row _ := [row]
  setRank _ _ row := row
  run p _ := nomatch p

end EsLogs.Pipes
