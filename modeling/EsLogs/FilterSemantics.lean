import EsLogs.BlockColumns
import EsLogs.FilterTree

/-!
What a tree of filters selects. If every leaf clears exactly the bits of the rows that do not match it,
then so does the tree for the propositional formula over its leaves, whatever the tree and the bitmap: the
copies, the early returns and the expansion of wildcards do not matter.
-/

namespace EsLogs

open List

variable {κ L F S : Type}

variable {fieldHolds : F → Bytes → Nat → Prop} {n : Nat} {bm : Bitmap}

/-! ### Formulas -/

/-- A filter on a field holds at a row if it does so for the field, or for one of the columns that the
wildcard stands for. -/
def FilterGeneric.Holds (fieldHolds : F → Bytes → Nat → Prop) (columns : List Bytes) (row : Nat)
    (g : FilterGeneric F) : Prop :=
  if g.isWildcard then ∃ name ∈ columns, g.wildcard <+: name ∧ fieldHolds g.f name row
  else fieldHolds g.f g.fieldName row

namespace Filter

mutual

/-- The propositional formula of a tree at a row, over the predicates of its leaves and the columns of
the block. -/
def Holds (leafHolds : L → Nat → Prop) (fieldHolds : F → Bytes → Nat → Prop) (columns : List Bytes)
    (row : Nat) : Filter L F → Prop
  | .leaf l => leafHolds l row
  | .generic g => g.Holds fieldHolds columns row
  | .and filters => HoldsAll leafHolds fieldHolds columns row filters
  | .or filters => HoldsAny leafHolds fieldHolds columns row filters
  | .not f => ¬Holds leafHolds fieldHolds columns row f

def HoldsAll (leafHolds : L → Nat → Prop) (fieldHolds : F → Bytes → Nat → Prop) (columns : List Bytes)
    (row : Nat) : List (Filter L F) → Prop
  | [] => True
  | f :: filters => Holds leafHolds fieldHolds columns row f ∧
      HoldsAll leafHolds fieldHolds columns row filters

def HoldsAny (leafHolds : L → Nat → Prop) (fieldHolds : F → Bytes → Nat → Prop) (columns : List Bytes)
    (row : Nat) : List (Filter L F) → Prop
  | [] => False
  | f :: filters => Holds leafHolds fieldHolds columns row f ∨
      HoldsAny leafHolds fieldHolds columns row filters

end

theorem holdsAll_iff {leafHolds : L → Nat → Prop} {columns : List Bytes} {row : Nat} {filters : List (Filter L F)} :
    HoldsAll leafHolds fieldHolds columns row filters ↔ ∀ f ∈ filters, Holds leafHolds fieldHolds columns row f := by
  induction filters with
  | nil => simp [HoldsAll]
  | cons f filters ih => rw [HoldsAll, ih, forall_mem_cons]

theorem holdsAny_iff {leafHolds : L → Nat → Prop} {columns : List Bytes} {row : Nat} {filters : List (Filter L F)} :
    HoldsAny leafHolds fieldHolds columns row filters ↔ ∃ f ∈ filters, Holds leafHolds fieldHolds columns row f := by
  induction filters with
  | nil => simp [HoldsAny]
  | cons f filters ih => rw [HoldsAny, ih, exists_mem_cons_iff]

end Filter

/-! ### Disjunctions -/

/-- What the loop of a disjunction leaves of a bitmap: the rows without the property, and `none` only if
there are none of them. -/
def Leftover (n : Nat) (bm : Bitmap) (p : Nat → Prop) : Option Bitmap → Prop
  | none => ∀ i, bm.isSetBit i = true → p i
  | some bm' => bm'.bitsLen = n ∧ ∀ i, bm'.isSetBit i = true ↔ bm.isSetBit i = true ∧ ¬p i

variable {r : Option Bitmap} {p q : Nat → Prop}

/-- A loop that goes on with the rows that an earlier part left. -/
theorem Leftover.trans {bm bm' : Bitmap} (h : Leftover n bm p (some bm')) (h' : Leftover n bm' q r) :
    Leftover n bm (fun i => p i ∨ q i) r := by
  cases r with
  | none =>
    intro i hi
    by_cases hp : p i
    · exact .inl hp
    · exact .inr (h' i ((h.2 i).2 ⟨hi, hp⟩))
  | some bm'' =>
    refine ⟨h'.1, ?_⟩
    intro i
    rw [h'.2 i, h.2 i, not_or, and_assoc]

theorem Leftover.congr (h : Leftover n bm p r) (hpq : ∀ i, p i ↔ q i) : Leftover n bm q r := by
  cases r with
  | none =>
    intro i hi
    exact (hpq i).1 (h i hi)
  | some bm' =>
    refine ⟨h.1, ?_⟩
    intro i
    rw [h.2 i, hpq i]

theorem Leftover.of_isZero {bm bm' : Bitmap} (h : Leftover n bm p (some bm')) (hzero : bm'.isZero = true) :
    Leftover n bm (fun i => p i ∨ q i) none := by
  intro i hi
  by_contra hnot
  have hset := (h.2 i).2 ⟨hi, fun hp => hnot (.inl hp)⟩
  rw [Bitmap.isZero_iff.1 hzero i] at hset
  cases hset

/-- A bitmap that nothing was taken from. -/
theorem Leftover.start (hbm : bm.bitsLen = n) : Leftover n bm (fun _ => False) (some bm) := by
  refine ⟨hbm, ?_⟩
  intro i
  rw [not_false_eq_true, and_true]

theorem orFinish_spec {p : Nat → Prop} (s : S) (hbm : bm.bitsLen = n) (h : Leftover n bm p r) :
    ∃ bm', orFinish bm (s, r) = .ok (s, bm') ∧ bm'.bitsLen = n ∧
      ∀ i, bm'.isSetBit i = true ↔ bm.isSetBit i = true ∧ p i := by
  cases r with
  | none =>
    refine ⟨bm, rfl, hbm, ?_⟩
    intro i
    exact (and_iff_left_of_imp (h i)).symm
  | some bmResult =>
    obtain ⟨bm', handNot, hlen, hbits⟩ := Bitmap.andNot_spec (hbm.trans h.1.symm)
    refine ⟨bm', ?_, hlen.trans hbm, ?_⟩
    · rw [orFinish, handNot]
      rfl
    · intro i
      have hleft := h.2 i
      rw [hbits i, Bool.and_eq_true, Bool.not_eq_true', ← Bool.not_eq_true, hleft]
      tauto

section Loops

variable {n : Nat} {valid : S → Prop} {s : S} {bm : Bitmap}

theorem orRound_spec {p : Nat → Prop} {apply : BitmapStep S} (h : Selects n valid p apply)
    (hs : valid s) (hbm : bm.bitsLen = n) :
    ∃ s' bm', orRound apply s bm = .ok (s', bm') ∧ valid s' ∧ Leftover n bm p (some bm') := by
  obtain ⟨s', bmTmp, happly, hs', hlen, hbits⟩ := h s bm hs hbm
  obtain ⟨bm', handNot, hlen', hbits'⟩ := Bitmap.andNot_spec (hbm.trans hlen.symm)
  refine ⟨s', bm', ?_, hs', hlen'.trans hbm, ?_⟩
  · rw [orRound, Bitmap.copyFrom, happly, except_ok_bind]
    simp only [handNot, except_ok_bind]
    rfl
  · intro i
    rw [hbits' i, Bool.and_eq_true, Bool.not_eq_true', ← Bool.not_eq_true, hbits i]
    tauto

/-- A round of a loop that stops when no row is left. -/
theorem orStep_spec {apply : BitmapStep S} {rest : S → Bitmap → Outcome (S × Option Bitmap)}
    (h : Selects n valid p apply) (hrest : ∀ {s bm}, valid s → bm.bitsLen = n →
      ∃ s' r, rest s bm = .ok (s', r) ∧ valid s' ∧ Leftover n bm q r) (hs : valid s) (hbm : bm.bitsLen = n) :
    ∃ s' r, (do
        let (s, bmResult) ← orRound apply s bm
        if bmResult.isZero then return (s, none) else rest s bmResult) = .ok (s', r) ∧
      valid s' ∧ Leftover n bm (fun i => p i ∨ q i) r := by
  obtain ⟨s₁, bm₁, hround, hs₁, hleft⟩ := orRound_spec h hs hbm
  rw [hround, except_ok_bind]
  dsimp only
  split_ifs with hzero
  · exact ⟨s₁, none, rfl, hs₁, hleft.of_isZero hzero⟩
  · obtain ⟨s', r, hloop, hs', hleft'⟩ := hrest hs₁ hleft.1
    exact ⟨s', r, hloop, hs', hleft.trans hleft'⟩

theorem orLoop_spec {p : Bytes → Nat → Prop} {apply : Bytes → BitmapStep S} (names : List Bytes)
    (h : ∀ name ∈ names, Selects n valid (p name) (apply name)) (hs : valid s) (hbm : bm.bitsLen = n) :
    ∃ s' r, orLoop apply names s bm = .ok (s', r) ∧ valid s' ∧
      Leftover n bm (fun i => ∃ name ∈ names, p name i) r := by
  induction names generalizing s bm with
  | nil =>
    refine ⟨s, some bm, rfl, hs, (Leftover.start hbm).congr ?_⟩
    intro i
    simp
  | cons name names ih =>
    obtain ⟨hname, hnames⟩ := forall_mem_cons.1 h
    obtain ⟨s', r, hloop, hs', hleft⟩ := orStep_spec hname (ih hnames) hs hbm
    refine ⟨s', r, hloop, hs', hleft.congr ?_⟩
    intro i
    rw [exists_mem_cons_iff]

end Loops

/-! ### Trees -/

namespace Filter

section Trees

variable {n : Nat} {valid : S → Prop} {leaves : Leaves L F S} {leafHolds : L → Nat → Prop}
  {fieldHolds : F → Bytes → Nat → Prop} {columns : List Bytes}

theorem applyAnd_selects {filters : List (Filter L F)}
    (h : ∀ f ∈ filters, Selects n valid (fun i => Holds leafHolds fieldHolds columns i f) (applyWith leaves f)) :
    Selects n valid (fun i => HoldsAll leafHolds fieldHolds columns i filters) (applyAnd leaves filters) := by
  intro s bm hs hbm
  induction filters generalizing s bm with
  | nil =>
    refine ⟨s, bm, rfl, hs, hbm, ?_⟩
    intro i
    simp only [HoldsAll, and_true]
  | cons f filters ih =>
    obtain ⟨hf, hfilters⟩ := forall_mem_cons.1 h
    obtain ⟨s₁, bm₁, happly, hs₁, hlen₁, hbits₁⟩ := hf s bm hs hbm
    rw [applyAnd, happly, except_ok_bind]
    simp only [HoldsAll]
    by_cases hzero : bm₁.isZero = true
    · -- no row is left, and none satisfies the first filter
      rw [if_pos hzero]
      refine ⟨s₁, bm₁, rfl, hs₁, hlen₁, ?_⟩
      intro i
      have hnone := Bitmap.isZero_iff.1 hzero i
      have hfirst := hbits₁ i
      rw [hnone] at hfirst ⊢
      tauto
    · rw [if_neg hzero]
      obtain ⟨s', bm', happly', hs', hlen', hbits'⟩ := ih hfilters s₁ bm₁ hs₁ hlen₁
      refine ⟨s', bm', happly', hs', hlen', ?_⟩
      intro i
      rw [hbits' i, hbits₁ i, and_assoc]

theorem applyOr_leftover {filters : List (Filter L F)} {s : S} {bm : Bitmap}
    (h : ∀ f ∈ filters, Selects n valid (fun i => Holds leafHolds fieldHolds columns i f) (applyWith leaves f))
    (hs : valid s) (hbm : bm.bitsLen = n) :
    ∃ s' r, applyOr leaves filters s bm = .ok (s', r) ∧ valid s' ∧
      Leftover n bm (fun i => HoldsAny leafHolds fieldHolds columns i filters) r := by
  induction filters generalizing s bm with
  | nil =>
    refine ⟨s, some bm, rfl, hs, ?_⟩
    simp only [HoldsAny]
    exact Leftover.start hbm
  | cons f filters ih =>
    obtain ⟨hf, hfilters⟩ := forall_mem_cons.1 h
    rw [applyOr]
    simp only [HoldsAny]
    exact orStep_spec hf (ih hfilters) hs hbm

/-- A tree selects its formula: one case for each kind of filter. -/
theorem applyWith_selects (hleaf : ∀ l, Selects n valid (leafHolds l) (leaves.leaf l))
    (hgeneric : ∀ g, Selects n valid (fun i => g.Holds fieldHolds columns i) (leaves.generic g)) (f : Filter L F) :
    Selects n valid (fun i => Holds leafHolds fieldHolds columns i f) (applyWith leaves f) := by
  intro s bm hs hbm
  induction f using Filter.induction generalizing s bm with
  | leaf l =>
    rw [applyWith]
    simp only [Holds]
    exact hleaf l s bm hs hbm
  | generic g =>
    rw [applyWith]
    simp only [Holds]
    exact hgeneric g s bm hs hbm
  | and filters ih =>
    rw [applyWith]
    simp only [Holds]
    exact applyAnd_selects ih s bm hs hbm
  | or filters ih =>
    obtain ⟨s', r, hloop, hs', hleft⟩ := applyOr_leftover ih hs hbm
    obtain ⟨bm', hfinish, hlen, hbits⟩ := orFinish_spec s' hbm hleft
    refine ⟨s', bm', ?_, hs', hlen, ?_⟩
    · rw [applyWith, Bitmap.copyFrom, hloop, except_ok_bind]
      exact hfinish
    · simp only [Holds]
      exact hbits
  | not f ih =>
    rw [applyWith]
    simp only [Holds]
    exact orRound_spec ih hs hbm

end Trees

end Filter

/-! ### Blocks that are searched -/

/-- A block as searches see it: its rows, the names that are hidden, its columns header, and what the
caches of the leaves may hold. -/
structure SearchedBlock (κ : Type) where
  rows : Nat
  hiddenFieldsFilter : NameFilter
  columnsHeader : ColumnsHeader
  caches : κ → Prop

/-- The columns of a block: the special ones, which every block has, and the others of its header, as
far as they are not hidden. -/
def SearchedBlock.columns (b : SearchedBlock κ) : List Bytes :=
  let names := b.columnsHeader.constColumns.map (·.name) ++ b.columnsHeader.columnHeaders.map (·.name)
  (specialColumns ++ names.filter fun name => !isSpecialColumn name).filter fun name =>
    !b.hiddenFieldsFilter.matchString name

/-- A search of the block, at any moment. -/
structure BlockSearch.Searches (b : SearchedBlock κ) (bs : BlockSearch κ) : Prop where
  hidden : bs.hiddenFieldsFilter = b.hiddenFieldsFilter
  header : bs.columnsHeader = .ok b.columnsHeader
  cache : ∀ csh, bs.cshCache = some csh → csh = b.columnsHeader
  caches : b.caches bs.caches

theorem BlockSearch.Searches.getColumnsHeader {b : SearchedBlock κ} {bs : BlockSearch κ}
    (h : bs.Searches b) :
    ∃ bs', bs.getColumnsHeader = .ok (bs', b.columnsHeader) ∧ bs'.Searches b := by
  unfold BlockSearch.getColumnsHeader
  cases hcache : bs.cshCache with
  | some csh =>
    obtain rfl := h.cache csh hcache
    exact ⟨bs, rfl, h⟩
  | none =>
    refine ⟨{ bs with cshCache := some b.columnsHeader }, ?_, h.hidden, h.header, ?_, h.caches⟩
    · rw [h.header]
      rfl
    · intro csh hcsh
      exact (Option.some.inj hcsh).symm

theorem FilterGeneric.applyToBlockSearch_selects [FieldFilter F κ] {b : SearchedBlock κ} {g : FilterGeneric F}
    (hfield : ∀ name, Selects b.rows (BlockSearch.Searches b) (fieldHolds g.f name)
      (FieldFilter.applyToBlockSearchByField g.f name)) :
    Selects b.rows (BlockSearch.Searches b) (fun i => g.Holds fieldHolds b.columns i) g.applyToBlockSearch := by
  intro bs bm hbs hbm
  unfold FilterGeneric.applyToBlockSearch FilterGeneric.Holds
  cases g.isWildcard with
  | false => exact hfield g.fieldName bs bm hbs hbm
  | true =>
    rw [Bool.not_true, if_neg (by decide), Bitmap.copyFrom]
    obtain ⟨special, hspecial⟩ : ∃ l, l = specialColumns.filter fun name =>
        g.wildcard.isPrefixOf name && !bs.isHiddenField name := ⟨_, rfl⟩
    obtain ⟨others, hothers⟩ : ∃ l, l = (b.columnsHeader.constColumns.map (·.name) ++
        b.columnsHeader.columnHeaders.map (·.name)).filter fun name =>
          !isSpecialColumn name && g.wildcard.isPrefixOf name && !bs.isHiddenField name := ⟨_, rfl⟩
    have hmem : ∀ name, name ∈ b.columns ∧ g.wildcard <+: name ↔ name ∈ special ∨ name ∈ others := by
      intro name
      simp only [hspecial, hothers, SearchedBlock.columns, BlockSearch.isHiddenField, hbs.hidden, mem_filter,
        mem_append, Bool.and_eq_true, Bool.not_eq_true', isPrefixOf_iff_prefix]
      tauto
    have hcongr : ∀ i, (∃ name ∈ b.columns, g.wildcard <+: name ∧ fieldHolds g.f name i) ↔
        (∃ name ∈ special, fieldHolds g.f name i) ∨ ∃ name ∈ others, fieldHolds g.f name i := by
      intro i
      simp only [← and_assoc, hmem, or_and_right, exists_or]
    obtain ⟨bs₁, r₁, hloop₁, hbs₁, hleft₁⟩ := orLoop_spec special (fun name _ => hfield name) hbs hbm
    simp only [if_true, ← hspecial, hloop₁, except_ok_bind]
    cases r₁ with
    | none =>
      refine ⟨bs₁, bm, rfl, hbs₁, hbm, ?_⟩
      intro i
      exact (and_iff_left_of_imp fun hi => (hcongr i).2 (.inl (hleft₁ i hi))).symm
    | some bm₁ =>
      -- the other columns of the header
      obtain ⟨bs₂, hheader, hbs₂⟩ := hbs₁.getColumnsHeader
      have hhidden : ∀ name, bs₂.isHiddenField name = bs.isHiddenField name := by
        intro name
        rw [BlockSearch.isHiddenField, BlockSearch.isHiddenField, hbs₂.hidden, hbs.hidden]
      obtain ⟨bs₃, r₃, hloop₃, hbs₃, hleft₃⟩ :=
        orLoop_spec others (fun name _ => hfield name) hbs₂ hleft₁.1
      obtain ⟨bm', hfinish, hlen, hbits⟩ :=
        orFinish_spec bs₃ hbm ((hleft₁.trans hleft₃).congr fun i => (hcongr i).symm)
      refine ⟨bs₃, bm', ?_, hbs₃, hlen, hbits⟩
      simp only [FilterGeneric.searchColumns, hheader, except_ok_bind, hhidden, ← hothers, hloop₃]
      exact hfinish

/-! ### Blocks of results -/

def BlockResult.columnNames (br : BlockResult) : Outcome (List Bytes) := do
  let (br, cols) := br.getColumns
  let columns ← cols.mapM br.col
  return columns.map (·.name)

/-- A block of results with the rows of another one: lookups have listed its columns or have added
columns without values. -/
structure BlockResult.SameRows (br₀ br : BlockResult) : Prop where
  rowsLen : br.rowsLen = br₀.rowsLen
  timestampsBuf : br.timestampsBuf = br₀.timestampsBuf
  csBuf : br.csBuf = br₀.csBuf
  cs : br.ensureCs.cs = br₀.ensureCs.cs
  csEmpty : ∀ c ∈ br.csEmpty, c.content = .const []

namespace BlockResult

theorem SameRows.ensureCs {br₀ br : BlockResult} (h : br₀.SameRows br) :
    br₀.SameRows br.ensureCs := by
  refine ⟨?_, ?_, ?_, ?_, ?_⟩
  · rw [rowsLen_ensureCs, h.rowsLen]
  · rw [timestampsBuf_ensureCs, h.timestampsBuf]
  · rw [csBuf_ensureCs, h.csBuf]
  · rw [ensureCs_of_initialized csInitialized_ensureCs, h.cs]
  · rw [csEmpty_ensureCs]
    exact h.csEmpty

theorem SameRows.columns {br₀ br : BlockResult} (h : br₀.SameRows br) :
    (br.ensureCs.cs.map ColRef.buf).mapM br.ensureCs.col =
      (br₀.ensureCs.cs.map ColRef.buf).mapM br₀.ensureCs.col := by
  rw [h.cs, mapM_map, mapM_map]
  congr 1
  funext i
  show col _ (.buf i) = col _ (.buf i)
  unfold col
  simp only
  rw [csBuf_ensureCs, csBuf_ensureCs, h.csBuf]

end BlockResult

theorem FilterGeneric.applyToBlockResult_selects [FieldFilter F κ] {br₀ : BlockResult}
    {columns : List Bytes} (hcolumns : br₀.columnNames = .ok columns) {g : FilterGeneric F}
    (hfield : ∀ name, Selects br₀.rowsLen br₀.SameRows (fieldHolds g.f name)
      (FieldFilter.applyToBlockResultByField g.f name)) :
    Selects br₀.rowsLen br₀.SameRows (fun i => g.Holds fieldHolds columns i) g.applyToBlockResult := by
  intro br bm hbr hbm
  unfold FilterGeneric.applyToBlockResult FilterGeneric.Holds
  cases g.isWildcard with
  | false => exact hfield g.fieldName br bm hbr hbm
  | true =>
    rw [Bool.not_true, if_neg (by decide), Bitmap.copyFrom]
    obtain ⟨cols, hcols, hnames⟩ := except_bind_eq_ok_iff.1 hcolumns
    cases hnames
    obtain ⟨br', r, hloop, hbr', hleft⟩ := orLoop_spec
      ((cols.map (·.name)).filter fun name => g.wildcard.isPrefixOf name)
      (fun name _ => hfield name) hbr.ensureCs hbm
    have hcongr : ∀ i, (∃ name ∈ (cols.map (·.name)).filter (fun name => g.wildcard.isPrefixOf name),
        fieldHolds g.f name i) ↔
          ∃ name ∈ cols.map (·.name), g.wildcard <+: name ∧ fieldHolds g.f name i := by
      intro i
      simp only [mem_filter, isPrefixOf_iff_prefix, and_assoc]
    obtain ⟨bm', hfinish, hlen, hbits⟩ := orFinish_spec br' hbm (hleft.congr hcongr)
    refine ⟨br', bm', ?_, hbr', hlen, hbits⟩
    have hsame : (br.ensureCs.cs.map ColRef.buf).mapM br.ensureCs.col = .ok cols :=
      hbr.columns.trans hcols
    simp only [BlockResult.getColumns, hsame, except_ok_bind, hloop]
    exact hfinish

/-! ### The main result -/

namespace Filter

/-- If every leaf clears exactly the bits of the rows that do not match it, then every tree leaves exactly
those of the rows that were set which satisfy its formula, both over blocks that are searched and over
blocks of results. -/
theorem selects_formula [LeafFilter L κ] [FieldFilter F κ] (f : Filter L F)
    (leafHolds : L → Nat → Prop) (fieldHolds : F → Bytes → Nat → Prop) :
    (∀ b : SearchedBlock κ,
      (∀ l, Selects b.rows (BlockSearch.Searches b) (leafHolds l) (LeafFilter.applyToBlockSearch l)) →
      (∀ g name, Selects b.rows (BlockSearch.Searches b) (fieldHolds g name)
        (FieldFilter.applyToBlockSearchByField g name)) →
      Selects b.rows (BlockSearch.Searches b)
        (fun i => f.Holds leafHolds fieldHolds b.columns i) f.applyToBlockSearch) ∧
    ∀ (br : BlockResult) (columns : List Bytes), br.columnNames = .ok columns →
      (∀ l, Selects br.rowsLen br.SameRows (leafHolds l) (LeafFilter.applyToBlockResult l)) →
      (∀ g name, Selects br.rowsLen br.SameRows (fieldHolds g name)
        (FieldFilter.applyToBlockResultByField g name)) →
      Selects br.rowsLen br.SameRows
        (fun i => f.Holds leafHolds fieldHolds columns i) f.applyToBlockResult := by
  constructor
  · intro b hleaf hfield
    exact applyWith_selects hleaf (fun g => FilterGeneric.applyToBlockSearch_selects (hfield g.f)) f
  · intro br columns hcolumns hleaf hfield
    exact applyWith_selects hleaf (fun g => FilterGeneric.applyToBlockResult_selects hcolumns (hfield g.f)) f

/-- A filter that knows the rows that match, by field name: as a leaf it is about the field without a
name. -/
structure KnownRows where
  rows : List (Bytes × Nat)

def KnownRows.apply {S : Type} (f : KnownRows) (name : Bytes) : BitmapStep S := fun s bm =>
  .ok (s, bm.forEachSetBit fun i => decide ((name, i) ∈ f.rows))

instance : FieldFilter KnownRows Unit where
  matchRowByField _ _ _ := false
  applyToBlockSearchByField f name := f.apply name
  applyToBlockResultByField f name := f.apply name

instance : LeafFilter KnownRows Unit where
  applyToBlockSearch f := f.apply []
  applyToBlockResult f := f.apply []

theorem KnownRows.apply_selects {valid : S → Prop} (f : KnownRows) (name : Bytes) :
    Selects n valid (fun i => (name, i) ∈ f.rows) (f.apply name) := by
  intro s bm hs hbm
  refine ⟨s, _, rfl, hs, hbm, ?_⟩
  intro i
  rw [Bitmap.isSetBit_forEachSetBit, Bool.and_eq_true, decide_eq_true_iff]

/-- A block of four rows with a column `foo` and without other data. -/
def sampleBlock : SearchedBlock Unit :=
  ⟨4, ⟨⟨[], []⟩, ⟨[], []⟩⟩, ⟨[], [⟨ascii "foo", ascii "1"⟩]⟩, fun _ => True⟩

/-- `f*` or the second row, but not the first row. -/
def sampleFilter : Filter KnownRows KnownRows :=
  .and [.or [.generic (.new (ascii "f*") ⟨[(ascii "foo", 0), (ascii "foo", 2)]⟩), .leaf ⟨[([], 1)]⟩],
    .not (.leaf ⟨[([], 0)]⟩)]

theorem selects_formula_sampleFilter :
    ∃ bs bm, sampleFilter.applyToBlockSearch
        ⟨sampleBlock.hiddenFieldsFilter, .ok sampleBlock.columnsHeader, none, ()⟩
        (Bitmap.init 4).setBits = .ok (bs, bm) ∧
      ∀ i, bm.isSetBit i = true ↔ i = 1 ∨ i = 2 := by
  obtain ⟨bs, bm, happly, -, -, hbits⟩ := (selects_formula sampleFilter (fun l i => ([], i) ∈ l.rows)
    (fun g name i => (name, i) ∈ g.rows)).1 sampleBlock
    (fun l => l.apply_selects []) (fun g name => g.apply_selects name)
    ⟨sampleBlock.hiddenFieldsFilter, .ok sampleBlock.columnsHeader, none, ()⟩ (Bitmap.init 4).setBits
    ⟨rfl, rfl, fun _ hcsh => (nomatch hcsh), trivial⟩ rfl
  refine ⟨bs, bm, happly, ?_⟩
  intro i
  have hcolumns : sampleBlock.columns =
      [ascii "_msg", ascii "_time", ascii "_stream", ascii "_stream_id", ascii "foo"] := by decide
  have hwildcard : (FilterGeneric.new (ascii "f*")
      (⟨[(ascii "foo", 0), (ascii "foo", 2)]⟩ : KnownRows)).isWildcard = true := by decide
  rw [hbits i, Bitmap.isSetBit_setBits, decide_eq_true_iff, hcolumns]
  simp only [sampleFilter, Holds, HoldsAll, HoldsAny, FilterGeneric.Holds, hwildcard, if_true]
  by_cases hi : i < 4
  · interval_cases i <;> decide
  · have hout : ¬i < (Bitmap.init 4).bitsLen := hi
    exact iff_of_false (fun h => hout h.1) (by omega)

end Filter

end EsLogs
