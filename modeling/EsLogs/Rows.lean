import EsLogs.Bytes

/-!
Log entries (`rows.rs`): a row is a timestamp with its fields. `Rows` keeps two vectors of one length,
which are one list of rows here. The merge of two sorted lists of rows alternates between them, each
time taking the run that does not exceed the first row of the other.
-/

namespace EsLogs

open List

structure Field where
  name : Bytes
  value : Bytes
  deriving DecidableEq, Repr

/-- A log entry: an item of `Rows::timestamps` with the item of `Rows::rows` at the same index. -/
structure Row where
  timestamp : Int
  fields : List Field
  deriving DecidableEq, Repr

def getCanonicalColumnName (fieldName : Bytes) : Bytes :=
  if fieldName = [] then ascii "_msg" else fieldName

def estimatedJsonFieldLen (name value : Bytes) : Nat :=
  (ascii ",\"\":\"\"").length + name.length + value.length

/-- The part of the estimate that every row has: the braces, the newline and the `_time` field. -/
def estimatedJsonRowBase : Nat :=
  (ascii "\x7b\x7d\n").length + (ascii "\"_time\":\"\"").length +
    (ascii "2006-01-02T15:04:05.999999999Z07:00").length

/-- What a field adds to the estimate; a field with an empty value counts as absent. -/
def Field.estimatedLen (f : Field) : Nat :=
  if f.value = [] then 0 else estimatedJsonFieldLen (getCanonicalColumnName f.name) f.value

def estimatedJsonRowLen (fields : List Field) : Nat :=
  estimatedJsonRowBase + (fields.map Field.estimatedLen).sum

def uncompressedRowsSizeBytes (rows : List Row) : Nat :=
  (rows.map fun r => estimatedJsonRowLen r.fields).sum

def hasNonEmptyRows (rows : List Row) : Bool := rows.any fun r => !r.fields.isEmpty

/-- The loop of `Rows::merge_rows`: after the run of `a` up to the first row of `b`, the two lists
change places. -/
def mergeRowsLoop : Nat → List Row → List Row → List Row
  | 0, _, _ => []
  | fuel + 1, a, b =>
    match b with
    | [] => a
    | b0 :: _ =>
      if a.isEmpty then b
      else
        a.takeWhile (fun r => r.timestamp ≤ b0.timestamp) ++
          mergeRowsLoop fuel b (a.dropWhile fun r => r.timestamp ≤ b0.timestamp)

/-- `Rows::merge_rows`, into an empty destination. -/
def mergeRows (a b : List Row) : List Row := mergeRowsLoop (a.length + b.length + 1) a b

/-- The rows are in the order of their timestamps. -/
def SortedRows (rows : List Row) : Prop := rows.Pairwise fun r s => r.timestamp ≤ s.timestamp

/-! ### The merge of two lists of rows -/

/-- One round more than the rows suffices, and as many when the first round takes a row. -/
def RoundsLeft (fuel : Nat) (a b : List Row) : Prop :=
  a.length + b.length + 1 ≤ fuel ∨
    (a.length + b.length ≤ fuel ∧ 0 < fuel ∧
      ∀ r ∈ a.head?, ∀ s ∈ b.head?, r.timestamp ≤ s.timestamp)

theorem RoundsLeft.next {fuel : Nat} {r s : Row} {a b : List Row}
    (h : RoundsLeft (fuel + 1) (r :: a) (s :: b)) :
    RoundsLeft fuel (s :: b) ((r :: a).dropWhile fun x => x.timestamp ≤ s.timestamp) := by
  have hhead : ∀ x ∈ ((r :: a).dropWhile fun x => x.timestamp ≤ s.timestamp).head?,
      s.timestamp ≤ x.timestamp := by
    intro x hx
    have := List.head?_dropWhile_not (fun x : Row => decide (x.timestamp ≤ s.timestamp)) (r :: a)
    rw [hx] at this
    have hlt : ¬x.timestamp ≤ s.timestamp := by simpa using this
    omega
  refine .inr ⟨?_, ?_, fun x hx y hy => ?_⟩
  · cases h with
    | inl h =>
      have := (dropWhile_suffix (fun x : Row => decide (x.timestamp ≤ s.timestamp))
        (l := r :: a)).length_le
      simp only [length_cons] at h this ⊢
      omega
    | inr h =>
      have hrs := h.2.2 r rfl s rfl
      have := (dropWhile_suffix (fun x : Row => decide (x.timestamp ≤ s.timestamp))
        (l := a)).length_le
      rw [dropWhile_cons_of_pos (by simpa using hrs)]
      simp only [length_cons] at h this ⊢
      omega
  · cases h with
    | inl h => simp only [length_cons] at h; omega
    | inr h => have := h.1; simp only [length_cons] at this; omega
  · obtain rfl : s = x := by simpa using hx
    exact hhead y hy

/-- The rows of both lists, those of each list in their order. -/
inductive Interleaves : List Row → List Row → List Row → Prop
  | nil : Interleaves [] [] []
  | left {r a b c} (h : Interleaves a b c) : Interleaves (r :: a) b (r :: c)
  | right {r a b c} (h : Interleaves a b c) : Interleaves a (r :: b) (r :: c)

namespace Interleaves

variable {a b c : List Row}

theorem perm (h : Interleaves a b c) : c.Perm (a ++ b) := by
  induction h with
  | nil => exact List.Perm.refl _
  | left _ ih => exact ih.cons _
  | right _ ih => exact (ih.cons _).trans perm_middle.symm

theorem symm (h : Interleaves a b c) : Interleaves b a c := by
  induction h with
  | nil => exact nil
  | left _ ih => exact ih.right
  | right _ ih => exact ih.left

theorem append_left (h : Interleaves a b c) (run : List Row) : Interleaves (run ++ a) b (run ++ c) := by
  induction run with
  | nil => exact h
  | cons r run ih => exact ih.left

theorem self_nil (a : List Row) : Interleaves a [] a := by
  simpa using nil.append_left a

end Interleaves

theorem mergeRowsLoop_interleaves (fuel : Nat) (a b : List Row) (h : RoundsLeft fuel a b) :
    Interleaves a b (mergeRowsLoop fuel a b) := by
  induction fuel generalizing a b with
  | zero =>
    cases h with
    | inl h => omega
    | inr h => exact absurd h.2.1 (lt_irrefl 0)
  | succ fuel ih =>
    cases b with
    | nil => exact .self_nil a
    | cons s b =>
      cases a with
      | nil => exact (Interleaves.self_nil _).symm
      | cons r a =>
        have hrun := (ih _ _ h.next).symm.append_left
          ((r :: a).takeWhile fun x => x.timestamp ≤ s.timestamp)
        rwa [takeWhile_append_dropWhile] at hrun

theorem mergeRowsLoop_sorted (fuel : Nat) (a b : List Row) (h : RoundsLeft fuel a b)
    (ha : SortedRows a) (hb : SortedRows b) : SortedRows (mergeRowsLoop fuel a b) := by
  induction fuel generalizing a b with
  | zero => exact List.Pairwise.nil
  | succ fuel ih =>
    cases b with
    | nil => exact ha
    | cons s b =>
      cases a with
      | nil => simpa [mergeRowsLoop] using hb
      | cons r a =>
        rw [mergeRowsLoop]
        simp only [isEmpty_cons, Bool.false_eq_true, if_false]
        have hdrop : SortedRows
            ((r :: a).dropWhile fun x => decide (x.timestamp ≤ s.timestamp)) :=
          List.Pairwise.sublist (dropWhile_suffix _).sublist ha
        refine pairwise_append.2 ⟨List.Pairwise.sublist
          (List.takeWhile_prefix _).sublist ha, ih _ _ h.next hb hdrop, fun x hx y hy => ?_⟩
        have hxs : x.timestamp ≤ s.timestamp := by
          simpa using mem_takeWhile_imp hx
        rw [(mergeRowsLoop_interleaves _ _ _ h.next).perm.mem_iff, mem_append] at hy
        cases hy with
        | inl hy =>
          cases mem_cons.1 hy with
          | inl hys => exact hys ▸ hxs
          | inr hyb => exact hxs.trans ((pairwise_cons.1 hb).1 y hyb)
        | inr hy =>
          have hsplit : SortedRows
              ((r :: a).takeWhile (fun x => decide (x.timestamp ≤ s.timestamp)) ++
                (r :: a).dropWhile fun x => decide (x.timestamp ≤ s.timestamp)) := by
            rw [takeWhile_append_dropWhile]
            exact ha
          exact (pairwise_append.1 hsplit).2.2 x hx y hy

theorem mergeRows_interleaves (a b : List Row) : Interleaves a b (mergeRows a b) :=
  mergeRowsLoop_interleaves _ a b (.inl le_rfl)

theorem mergeRows_sorted {a b : List Row} (ha : SortedRows a) (hb : SortedRows b) :
    SortedRows (mergeRows a b) := mergeRowsLoop_sorted _ a b (.inl le_rfl) ha hb

end EsLogs
