import EsLogs.Encoding
import EsLogs.Unmarshal

/-!
Tenant and stream identifiers (`tenant_id.rs`, `u128.rs`, `stream_id.rs`). Their comparison functions
order a stream id as the 192-bit number its parts make up, and their binary form is read back.
-/

namespace EsLogs

structure TenantID where
  accountId : UInt32
  projectId : UInt32
  deriving DecidableEq, Repr, Inhabited

structure U128 where
  hi : UInt64
  lo : UInt64
  deriving DecidableEq, Repr, Inhabited

/-- `StreamID`; the default one has all its parts zero. -/
structure StreamID where
  tenantId : TenantID
  id : U128
  deriving DecidableEq, Repr, Inhabited

def TenantID.less (a b : TenantID) : Bool :=
  if a.accountId ≠ b.accountId then a.accountId < b.accountId else a.projectId < b.projectId

def U128.less (a b : U128) : Bool := if a.hi ≠ b.hi then a.hi < b.hi else a.lo < b.lo

def StreamID.less (a b : StreamID) : Bool :=
  if a.tenantId ≠ b.tenantId then a.tenantId.less b.tenantId else a.id.less b.id

def hexByteMap : Bytes := ascii "0123456789abcdef"

def marshalByteHex (x : UInt8) : Bytes :=
  [hexByteMap.getD (x.toNat / 16) 0, hexByteMap.getD (x.toNat % 16) 0]

def marshalUint64Hex (n : Nat) : Bytes := (beBytes 8 n).flatMap marshalByteHex

def TenantID.marshalString (t : TenantID) : Bytes :=
  marshalUint64Hex (t.accountId.toNat * 2 ^ 32 + t.projectId.toNat)

def U128.marshalString (u : U128) : Bytes :=
  marshalUint64Hex u.hi.toNat ++ marshalUint64Hex u.lo.toNat

def StreamID.marshalString (sid : StreamID) : Bytes :=
  sid.tenantId.marshalString ++ sid.id.marshalString

/-- `Display` of the identifiers, as the messages of the panics show them. -/
def TenantID.display (t : TenantID) : String :=
  "\x7baccountID=" ++ toString t.accountId ++ ",projectID=" ++ toString t.projectId ++ "\x7d"

@[inherit_doc TenantID.display]
def U128.display (u : U128) : String :=
  "\x7bhi=" ++ toString u.hi ++ ",lo=" ++ toString u.lo ++ "\x7d"

@[inherit_doc TenantID.display]
def StreamID.display (sid : StreamID) : String :=
  "(tenant_id=" ++ sid.tenantId.display ++ ", id=" ++ sid.id.display ++ ")"

set_option maxRecDepth 2000 in
theorem hexByteMap_ascii : ∀ c ∈ hexByteMap, c < 0x80 := by decide

theorem marshalByteHex_ascii (x : UInt8) : ∀ b ∈ marshalByteHex x, b < 0x80 := by
  have hget : ∀ i, hexByteMap.getD i 0 < 0x80 := fun i => by
    rw [List.getD_eq_getElem?_getD]
    cases hc : hexByteMap[i]? with
    | none => decide
    | some c => exact hexByteMap_ascii c (List.mem_of_getElem? hc)
  intro b hb
  simp only [marshalByteHex, List.mem_cons, List.not_mem_nil, or_false] at hb
  cases hb with
  | inl he | inr he => exact he ▸ hget _

/-- The text of a stream id has ASCII characters only. -/
theorem StreamID.marshalString_ascii (sid : StreamID) : ∀ b ∈ sid.marshalString, b < 0x80 := by
  have hhex : ∀ n, ∀ b ∈ marshalUint64Hex n, b < 0x80 := fun n b hb => by
    obtain ⟨x, _, hx⟩ := List.mem_flatMap.1 hb
    exact marshalByteHex_ascii x b hx
  intro b hb
  simp only [StreamID.marshalString, TenantID.marshalString, U128.marshalString,
    List.mem_append] at hb
  rcases hb with hb | hb | hb <;> exact hhex _ b hb

/-! ### The order of stream ids -/

/-- The number whose big-endian digits are the parts of the id. -/
def StreamID.toNat (sid : StreamID) : Nat :=
  ((sid.tenantId.accountId.toNat * 2 ^ 32 + sid.tenantId.projectId.toNat) * 2 ^ 64 +
    sid.id.hi.toNat) * 2 ^ 64 + sid.id.lo.toNat

theorem StreamID.toNat_injective : Function.Injective StreamID.toNat := by
  intro ⟨⟨a, p⟩, ⟨h, l⟩⟩ ⟨⟨a', p'⟩, ⟨h', l'⟩⟩ heq
  simp only [StreamID.toNat] at heq
  have := p.toNat_lt
  have := p'.toNat_lt
  have := h.toNat_lt
  have := h'.toNat_lt
  have := l.toNat_lt
  have := l'.toNat_lt
  simp only [StreamID.mk.injEq, TenantID.mk.injEq, U128.mk.injEq, ← UInt32.toNat_inj,
    ← UInt64.toNat_inj]
  omega

instance : LinearOrder StreamID := LinearOrder.lift' StreamID.toNat StreamID.toNat_injective

theorem StreamID.lt_iff_toNat {a b : StreamID} : a < b ↔ a.toNat < b.toNat := Iff.rfl

theorem StreamID.less_eq_decide (a b : StreamID) : a.less b = decide (a < b) := by
  obtain ⟨⟨a, p⟩, ⟨h, l⟩⟩ := a
  obtain ⟨⟨a', p'⟩, ⟨h', l'⟩⟩ := b
  rw [Bool.eq_iff_iff, decide_eq_true_eq, StreamID.lt_iff_toNat]
  simp only [StreamID.less, TenantID.less, U128.less, StreamID.toNat, ne_eq, TenantID.mk.injEq,
    ← UInt32.toNat_inj, ← UInt64.toNat_inj, UInt32.lt_iff_toNat_lt, UInt64.lt_iff_toNat_lt,
    ite_not]
  have := p.toNat_lt
  have := p'.toNat_lt
  have := h.toNat_lt
  have := h'.toNat_lt
  have := l.toNat_lt
  have := l'.toNat_lt
  split_ifs <;> simp only [decide_eq_true_eq] <;> omega

def TenantID.toNat (t : TenantID) : Nat := t.accountId.toNat * 2 ^ 32 + t.projectId.toNat

theorem TenantID.toNat_injective : Function.Injective TenantID.toNat := by
  intro ⟨a, p⟩ ⟨a', p'⟩ heq
  simp only [TenantID.toNat] at heq
  have := p.toNat_lt
  have := p'.toNat_lt
  simp only [TenantID.mk.injEq, ← UInt32.toNat_inj]
  omega

instance : LinearOrder TenantID := LinearOrder.lift' TenantID.toNat TenantID.toNat_injective

theorem le_of_mul_add_le {c t t' x x' : Nat} (hx : x' < c) (h : t * c + x ≤ t' * c + x') :
    t ≤ t' := by
  by_contra hlt
  have hmul : (t' + 1) * c ≤ t * c := Nat.mul_le_mul_right c (by omega)
  rw [Nat.succ_mul] at hmul
  omega

/-- Stream ids are ordered by their tenants first. -/
theorem StreamID.tenantId_le {a b : StreamID} (h : a ≤ b) : a.tenantId ≤ b.tenantId :=
  le_of_mul_add_le b.id.hi.toNat_lt (le_of_mul_add_le b.id.lo.toNat_lt h)

/-! ### The binary form -/

open Encoding Unmarshal List

def TenantID.marshal (t : TenantID) : Bytes :=
  marshalUint32 t.accountId.toNat ++ marshalUint32 t.projectId.toNat

def TenantID.unmarshal : Unmarshal TenantID := do
  let src ← Unmarshal.take 8 fun n =>
    "cannot unmarshal tenantID from " ++ toString n ++ " bytes; need at least 8 bytes"
  return ⟨.ofNat (unmarshalUint32 src), .ofNat (unmarshalUint32 (src.drop 4))⟩

def U128.marshal (u : U128) : Bytes := marshalUint64 u.hi.toNat ++ marshalUint64 u.lo.toNat

def U128.unmarshal : Unmarshal U128 := do
  let src ← Unmarshal.take 16 fun n =>
    "cannot unmarshal u128 from " ++ toString n ++ " bytes; need at least 16 bytes"
  return ⟨.ofNat (unmarshalUint64 src), .ofNat (unmarshalUint64 (src.drop 8))⟩

def StreamID.marshal (sid : StreamID) : Bytes := sid.tenantId.marshal ++ sid.id.marshal

def StreamID.unmarshal : Unmarshal StreamID := do
  let tenantId ← TenantID.unmarshal
  let id ← U128.unmarshal
  return ⟨tenantId, id⟩

@[simp]
theorem TenantID.length_marshal (t : TenantID) : t.marshal.length = 8 := by
  simp [TenantID.marshal]

@[simp]
theorem U128.length_marshal (u : U128) : u.marshal.length = 16 := by
  simp [U128.marshal]

@[simp]
theorem StreamID.length_marshal (sid : StreamID) : sid.marshal.length = 24 := by
  simp [StreamID.marshal]

theorem TenantID.reads_marshal (t : TenantID) : Reads TenantID.unmarshal t t.marshal := by
  have hfirst := unmarshalUint32_marshal t.accountId.toNat_lt (marshalUint32 t.projectId.toNat)
  have hsecond := unmarshalUint32_self t.projectId.toNat_lt
  have hread := (reads_take t.length_marshal fun n =>
    "cannot unmarshal tenantID from " ++ toString n ++ " bytes; need at least 8 bytes").return
      (f := fun src : Bytes => TenantID.mk (.ofNat (unmarshalUint32 src))
        (.ofNat (unmarshalUint32 (src.drop 4))))
  have hvalue : TenantID.mk (.ofNat (unmarshalUint32 t.marshal))
      (.ofNat (unmarshalUint32 (t.marshal.drop 4))) = t := by
    rw [TenantID.marshal, hfirst, drop_left' (length_marshalUint32 _), hsecond]
    simp
  rwa [hvalue] at hread

theorem U128.reads_marshal (u : U128) : Reads U128.unmarshal u u.marshal := by
  have hfirst := unmarshalUint64_marshal u.hi.toNat_lt (marshalUint64 u.lo.toNat)
  have hsecond := unmarshalUint64_self u.lo.toNat_lt
  have hread := (reads_take u.length_marshal fun n =>
    "cannot unmarshal u128 from " ++ toString n ++ " bytes; need at least 16 bytes").return
      (f := fun src : Bytes => U128.mk (.ofNat (unmarshalUint64 src))
        (.ofNat (unmarshalUint64 (src.drop 8))))
  have hvalue : U128.mk (.ofNat (unmarshalUint64 u.marshal))
      (.ofNat (unmarshalUint64 (u.marshal.drop 8))) = u := by
    rw [U128.marshal, hfirst, drop_left' (length_marshalUint64 _), hsecond]
    simp
  rwa [hvalue] at hread

theorem StreamID.reads_marshal (sid : StreamID) : Reads StreamID.unmarshal sid sid.marshal :=
  sid.tenantId.reads_marshal.bind sid.id.reads_marshal.return

end EsLogs
