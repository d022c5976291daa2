import EsLogs.Bytes

/-!
Blocks of bytes laid out in a row of chunks. A block is stored behind its length, in eight bytes, and
never across two chunks: before a block, a position that leaves too little room for the longest block
moves to the start of the next chunk. Writers and readers that follow this rule meet at the same places.
-/

namespace EsLogs.ChunkLayout

open List

variable {p : Pos}

/-- The size of a chunk and of the longest block, which a chunk has room for. -/
structure Geometry where
  chunk : Nat
  maxBlock : Nat
  maxBlock_pos : 0 < maxBlock
  fits : maxBlock + 8 ≤ chunk

/-- A place in the row of chunks: where its chunk starts, and how far into the chunk it is. The end of a
chunk and the start of the next one are two places with one offset. -/
@[ext]
structure Pos where
  base : Nat
  off : Nat
  deriving DecidableEq

def origin : Pos := ⟨0, 0⟩

def Pos.offset (p : Pos) : Nat := p.base + p.off

def frame (b : Bytes) : Bytes := beBytes 8 b.length ++ b

@[simp]
theorem length_frame (b : Bytes) : (frame b).length = 8 + b.length := by
  rw [frame, length_append, length_beBytes]

namespace Geometry

variable (g : Geometry)

def advance (p : Pos) : Pos :=
  if p.off + g.maxBlock + 8 > g.chunk then ⟨p.base + g.chunk, 0⟩ else p

def after (p : Pos) (b : Bytes) : Pos := ⟨(g.advance p).base, (g.advance p).off + 8 + b.length⟩

/-- The place behind the blocks, when they are stored one after the other from the start. -/
def place (bs : List Bytes) : Pos := bs.foldl g.after origin

structure IsBlock (b : Bytes) : Prop where
  pos : 0 < b.length
  le : b.length ≤ g.maxBlock

/-- A place within a chunk or at its end. -/
structure InChunk (p : Pos) : Prop where
  aligned : g.chunk ∣ p.base
  le : p.off ≤ g.chunk

theorem chunk_pos : 0 < g.chunk := by
  have h := g.fits
  omega

variable {g}

theorem advance_of_room (h : p.off + g.maxBlock + 8 ≤ g.chunk) : g.advance p = p :=
  if_neg (by omega)

theorem advance_of_full (h : g.chunk < p.off + g.maxBlock + 8) : g.advance p = ⟨p.base + g.chunk, 0⟩ := if_pos h

/-- There is room for every block at the place of the next block. -/
theorem advance_room (p : Pos) : (g.advance p).off + g.maxBlock + 8 ≤ g.chunk := by
  have hfits := g.fits
  rcases Nat.lt_or_ge g.chunk (p.off + g.maxBlock + 8) with h | h
  · rw [advance_of_full h]
    show 0 + g.maxBlock + 8 ≤ g.chunk
    omega
  · rwa [advance_of_room h]

theorem advance_advance (p : Pos) : g.advance (g.advance p) = g.advance p :=
  advance_of_room (advance_room p)

theorem base_le_advance (p : Pos) : p.base ≤ (g.advance p).base := by
  unfold advance
  split
  · exact Nat.le_add_right _ _
  · exact le_rfl

theorem advance_base_le (p : Pos) : (g.advance p).base ≤ p.base + g.chunk := by
  unfold advance
  split
  · exact le_rfl
  · exact Nat.le_add_right _ _

theorem InChunk.advance (h : g.InChunk p) : g.InChunk (g.advance p) := by
  refine ⟨?_, ?_⟩
  · unfold Geometry.advance
    split
    · exact Nat.dvd_add h.aligned (Nat.dvd_refl _)
    · exact h.aligned
  · have hroom := advance_room (g := g) p
    omega

theorem InChunk.offset_le_advance (h : g.InChunk p) : p.offset ≤ (g.advance p).offset := by
  have hle := h.le
  unfold Geometry.advance Pos.offset
  split
  · simp only
    omega
  · exact le_rfl

theorem InChunk.after (h : g.InChunk p) {b : Bytes} (hb : g.IsBlock b) : g.InChunk (g.after p b) := by
  refine ⟨h.advance.aligned, ?_⟩
  have hroom := advance_room (g := g) p
  have hle := hb.le
  simp only [Geometry.after]
  omega

theorem InChunk.offset_lt_after (h : g.InChunk p) (b : Bytes) : p.offset < (g.after p b).offset := by
  have hle := h.offset_le_advance
  simp only [Geometry.after, Pos.offset] at hle ⊢
  omega

/-- Chunks are as far apart as they are long. -/
theorem add_chunk_le_of_lt {j k : Nat} (hj : g.chunk ∣ j) (hk : g.chunk ∣ k) (h : j < k) :
    j + g.chunk ≤ k := by
  obtain ⟨a, rfl⟩ := hj
  obtain ⟨b, rfl⟩ := hk
  have hab : a < b := Nat.lt_of_mul_lt_mul_left h
  calc g.chunk * a + g.chunk = g.chunk * (a + 1) := by ring
    _ ≤ g.chunk * b := Nat.mul_le_mul_left _ hab

theorem place_append (bs : List Bytes) (b : Bytes) : g.place (bs ++ [b]) = g.after (g.place bs) b := by
  rw [place, foldl_append]
  rfl

/-- The place moves on with every block. -/
theorem place_base_mono (bs bs' : List Bytes) : (g.place bs).base ≤ (g.place (bs ++ bs')).base := by
  induction bs' using List.reverseRecOn with
  | nil => rw [append_nil]
  | append_singleton bs' b ih =>
    rw [← append_assoc, place_append]
    exact Nat.le_trans ih (base_le_advance _)

/-- A place before the end of its chunk. -/
structure InsideChunk (g : Geometry) (p : Pos) : Prop where
  aligned : g.chunk ∣ p.base
  lt : p.off < g.chunk

/-- The chunk that an offset falls into. -/
theorem InsideChunk.mem_iff (h : g.InsideChunk p) {k : Nat} (hk : g.chunk ∣ k) :
    k ≤ p.offset ∧ p.offset < k + g.chunk ↔ k = p.base := by
  have hlt := h.lt
  unfold Pos.offset
  constructor
  · rintro ⟨hle, hup⟩
    rcases Nat.lt_trichotomy k p.base with hkp | hkp | hkp
    · have := add_chunk_le_of_lt hk h.aligned hkp
      omega
    · exact hkp
    · have := add_chunk_le_of_lt h.aligned hk hkp
      omega
  · rintro rfl
    omega

theorem InsideChunk.offset_mod (h : g.InsideChunk p) : p.offset % g.chunk = p.off := by
  obtain ⟨a, ha⟩ := h.aligned
  rw [Pos.offset, ha, Nat.mul_add_mod, Nat.mod_eq_of_lt h.lt]

theorem InsideChunk.past_iff (h : g.InsideChunk p) {k : Nat} (hk : g.chunk ∣ k) :
    k + g.chunk ≤ p.offset ↔ k < p.base := by
  have hlt := h.lt
  unfold Pos.offset
  constructor
  · intro hle
    omega
  · intro hkp
    have := add_chunk_le_of_lt hk h.aligned hkp
    omega

theorem InsideChunk.base_le_of_offset_le {p p' : Pos} (h : g.InsideChunk p) (h' : g.InsideChunk p')
    (hle : p.offset ≤ p'.offset) : p.base ≤ p'.base := by
  by_contra hlt
  have hpast := (h.past_iff h'.aligned).2 (Nat.lt_of_not_le hlt)
  have hlt' := h'.lt
  unfold Pos.offset at hle hpast
  omega

variable (g) in
/-- The same offset as a place before the end of its chunk. -/
def normal (p : Pos) : Pos := if p.off = g.chunk then ⟨p.base + g.chunk, 0⟩ else p

theorem normal_offset (p : Pos) : (g.normal p).offset = p.offset := by
  unfold normal Pos.offset
  split
  · simp only
    omega
  · rfl

theorem InChunk.normal (h : g.InChunk p) : g.InsideChunk (g.normal p) := by
  have hpos := g.chunk_pos
  have hle := h.le
  unfold Geometry.normal
  split
  · exact ⟨Nat.dvd_add h.aligned (Nat.dvd_refl _), hpos⟩
  · exact ⟨h.aligned, by omega⟩

theorem InsideChunk.inChunk (h : g.InsideChunk p) : g.InChunk p :=
  ⟨h.aligned, Nat.le_of_lt h.lt⟩

theorem base_le_normal (p : Pos) : p.base ≤ (g.normal p).base := by
  unfold normal
  split
  · exact Nat.le_add_right _ _
  · exact le_rfl

theorem normal_of_ne (h : p.off ≠ g.chunk) : g.normal p = p := if_neg h

theorem normal_of_eq (h : p.off = g.chunk) : g.normal p = ⟨p.base + g.chunk, 0⟩ := if_pos h

theorem advance_normal (p : Pos) : g.advance (g.normal p) = g.advance p := by
  by_cases h : p.off = g.chunk
  · have hfull : g.chunk < p.off + g.maxBlock + 8 := by
      have := g.maxBlock_pos
      omega
    rw [normal_of_eq h, advance_of_full hfull]
    exact advance_of_room (by have := g.fits; simp only; omega)
  · rw [normal_of_ne h]

end Geometry

/-- The blocks are stored one after the other from the place `r` to the place `w`, in chunks with the
given bytes. -/
def Laid (g : Geometry) (content : Nat → Bytes) : Pos → List Bytes → Pos → Prop
  | r, [], w => r = w
  | r, b :: bs, w =>
    frame b <+: (content (g.advance r).base).drop (g.advance r).off ∧
      Laid g content (g.after r b) bs w

section Laid

variable {g : Geometry} {content content' : Nat → Bytes} {r w : Pos} {bs : List Bytes}

section

variable (h : Laid g content r bs w)
include h

/-- Every block takes up its own bytes and those of its length. -/
theorem Laid.size_le (hr : g.InChunk r) (hbs : ∀ b ∈ bs, g.IsBlock b) :
    r.offset + (bs.map fun b => 8 + b.length).sum ≤ w.offset := by
  induction bs generalizing r with
  | nil => exact Nat.le_of_eq (congrArg Pos.offset h)
  | cons b bs ih =>
    have hrest := ih h.2 (hr.after (hbs b mem_cons_self))
      fun c hc => hbs c (mem_cons_of_mem _ hc)
    have hle := hr.offset_le_advance
    rw [map_cons, sum_cons]
    simp only [Geometry.after, Pos.offset] at hle hrest ⊢
    omega

theorem Laid.offset_le (hr : g.InChunk r) (hbs : ∀ b ∈ bs, g.IsBlock b) :
    r.offset ≤ w.offset := Nat.le_of_add_right_le (h.size_le hr hbs)

theorem Laid.length_le (hr : g.InChunk r) (hbs : ∀ b ∈ bs, g.IsBlock b) :
    r.offset + bs.length ≤ w.offset := by
  have hsize := h.size_le hr hbs
  have hlen := length_le_sum_of_one_le (bs.map fun b => 8 + b.length) (by simp; omega)
  rw [length_map] at hlen
  omega

/-- The reader has caught up with the writer exactly when there are no blocks. -/
theorem Laid.offset_eq_iff (hr : g.InChunk r)
    (hbs : ∀ b ∈ bs, g.IsBlock b) : r.offset = w.offset ↔ bs = [] := by
  cases bs with
  | nil => exact ⟨fun _ => rfl, fun _ => congrArg Pos.offset h⟩
  | cons b bs =>
    have hafter := hr.after (hbs b mem_cons_self)
    have hrest := h.2.offset_le hafter fun c hc => hbs c (mem_cons_of_mem _ hc)
    have hlt := hr.offset_lt_after b
    exact ⟨fun heq => by omega, fun hnil => by cases hnil⟩

theorem Laid.base_le : r.base ≤ w.base := by
  induction bs generalizing r with
  | nil => exact h ▸ le_rfl
  | cons b bs ih =>
    have hrest : (g.after r b).base ≤ w.base := ih h.2
    exact Nat.le_trans (Geometry.base_le_advance r) hrest

/-- The blocks do not depend on chunks before the one of the next block, nor on what is added to a
chunk. -/
theorem Laid.mono
    (hc : ∀ k, (g.advance r).base ≤ k → k ≤ w.base → content k <+: content' k) :
    Laid g content' r bs w := by
  induction bs generalizing r with
  | nil => exact h
  | cons b bs ih =>
    have hbase : (g.advance r).base ≤ w.base := h.2.base_le
    refine ⟨?_, ih h.2 fun k hk hkw => hc k ?_ hkw⟩
    · obtain ⟨more, hmore⟩ := hc _ le_rfl hbase
      refine h.1.trans ?_
      rw [← hmore]
      by_cases hoff : (g.advance r).off ≤ (content (g.advance r).base).length
      · rw [drop_append_of_le_length hoff]
        exact prefix_append _ _
      · rw [drop_eq_nil_of_le (by omega)]
        exact nil_prefix
    · exact Nat.le_trans (Geometry.base_le_advance (g.after r b)) hk

/-- The next block may be looked for from its own place. -/
theorem Laid.of_advance (hne : bs ≠ []) {r' : Pos}
    (hr' : g.advance r' = g.advance r) : Laid g content r' bs w := by
  cases bs with
  | nil => exact absurd rfl hne
  | cons b bs =>
    have hafter : g.after r' b = g.after r b := by rw [Geometry.after, Geometry.after, hr']
    exact ⟨by rw [hr']; exact h.1, by rw [hafter]; exact h.2⟩

/-- A block that is stored at the place of the next block follows the others. -/
theorem Laid.append
    (hc : ∀ k, (g.advance r).base ≤ k → k ≤ w.base → content k <+: content' k) {b : Bytes}
    (hb : frame b <+: (content' (g.advance w).base).drop (g.advance w).off) :
    Laid g content' r (bs ++ [b]) (g.after w b) := by
  induction bs generalizing r with
  | nil =>
    obtain rfl : r = w := h
    exact ⟨hb, rfl⟩
  | cons a bs ih =>
    have hone : Laid g content' r [a] (g.after r a) := by
      have hold : Laid g content r [a] (g.after r a) := ⟨h.1, rfl⟩
      refine hold.mono ?_
      intro k hk hkw
      exact hc k hk (Nat.le_trans hkw h.2.base_le)
    refine ⟨hone.1, ih h.2 fun k hk hkw => hc k ?_ hkw⟩
    exact Nat.le_trans (Geometry.base_le_advance (g.after r a)) hk

end

end Laid

end EsLogs.ChunkLayout
