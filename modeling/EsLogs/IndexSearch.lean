import EsLogs.TagRowsMerge

/-!
Searching in the index (`IndexSearch` of `indexdb/mod.rs`). The table is its sorted items: a seek leads
to the first item that is not below the key. A scan for a tag meets no row of another tag, since escaped
values are told apart whatever follows them, and the search for tenants jumps from each tenant to the next
possible one, which is in the order of the keys.
-/

namespace EsLogs

open Encoding Unmarshal List StreamTags

namespace ByteOrder

/-- The order of byte strings of one length is that of the numbers that they stand for, whatever follows
the bigger one. -/
theorem le_append_iff_beNat {a b : Bytes} (h : a.length = b.length) (t : Bytes) :
    a ≤ b ++ t ↔ beNat a ≤ beNat b := by
  induction a generalizing b with
  | nil =>
    rw [length_nil] at h
    simp [eq_nil_of_length_eq_zero h.symm, beNat, nil_le]
  | cons x a ih =>
    cases b with
    | nil => cases h
    | cons y b =>
      have hlen : a.length = b.length := Nat.succ.inj h
      have ha := beNat_lt a
      have hb := beNat_lt b
      rw [hlen] at ha
      rw [cons_append, cons_le_cons_iff, ih hlen, beNat, beNat, hlen, UInt8.lt_iff_toNat_lt,
        ← UInt8.toNat_inj]
      constructor
      · rintro (hlt | ⟨heq, hle⟩)
        · have hmul := Nat.mul_le_mul_right (256 ^ b.length) hlt
          rw [Nat.succ_mul] at hmul
          omega
        · rw [heq]
          omega
      · intro hle
        rcases (le_of_mul_add_le hb hle).lt_or_eq with hlt | heq
        · exact .inl hlt
        · rw [heq] at hle
          exact .inr ⟨heq, by omega⟩

end ByteOrder

open ByteOrder

namespace Indexdb

/-! ### The table -/

/-- `TableSearch::seek`: the items that are met from the key on. -/
def seek (items : List Bytes) (k : Bytes) : List Bytes := items.dropWhile (· < k)

theorem mem_seek {items : List Bytes} (h : items.Pairwise (· ≤ ·)) {k b : Bytes} :
    b ∈ seek items k ↔ b ∈ items ∧ k ≤ b := by
  induction items with
  | nil => simp [seek]
  | cons a items ih =>
    have ih := ih h.of_cons
    rw [seek] at ih ⊢
    by_cases ha : a < k
    · rw [dropWhile_cons_of_pos (by simpa using ha), ih, mem_cons]
      have hne : k ≤ b → b ≠ a := fun hk hb => absurd (hb ▸ hk) (not_le.2 ha)
      tauto
    · rw [dropWhile_cons_of_neg (by simpa using ha)]
      refine ⟨fun hb => ⟨hb, ?_⟩, And.left⟩
      exact forall_mem_cons.2
        ⟨not_lt.1 ha, fun _ hb => (not_lt.1 ha).trans (rel_of_pairwise_cons h hb)⟩ b hb

/-- A seek for a later key goes on from the earlier one. -/
theorem seek_seek (items : List Bytes) {k k' : Bytes} (hk : k ≤ k') : seek (seek items k) k' = seek items k' := by
  induction items with
  | nil => rfl
  | cons a items ih =>
    simp only [seek] at ih ⊢
    by_cases ha : a < k
    · rw [dropWhile_cons_of_pos (by simpa using ha), ih, dropWhile_cons_of_pos (by simpa using ha.trans_le hk)]
    · rw [dropWhile_cons_of_neg (by simpa using ha)]

/-! ### Scans for a tag -/

/-- The items that a scan visits: it stops at the first one that does not start with the key. -/
def scan (items : List Bytes) (kb : Bytes) : List Bytes := (seek items kb).takeWhile kb.isPrefixOf

/-- The key of `get_stream_ids_for_tag_name`. -/
def tagNameKey (tenantId : TenantID) (tagName : Bytes) : Bytes :=
  marshalCommonPrefix nsPrefixTagToStreamIDs tenantId ++ marshalTagValue tagName

/-- The key of `get_stream_ids_for_non_empty_tag_value`. -/
def tagValueKey (tenantId : TenantID) (tagName tagValue : Bytes) : Bytes :=
  tagNameKey tenantId tagName ++ marshalTagValue tagValue

theorem prefix_of_mem_scan {items : List Bytes} {kb b : Bytes} (h : b ∈ scan items kb) : kb <+: b :=
  isPrefixOf_iff_prefix.1 (mem_takeWhile_imp h)

theorem tagNameKey_prefix {tenantId : TenantID} {tagName rest : Bytes} {row : TagRow}
    (h : tagNameKey tenantId tagName ++ rest = row.marshal) :
    row.tenantId = tenantId ∧ row.tag.name = tagName ∧
      rest = marshalTagValue row.tag.value ++ row.streamIds.flatMap U128.marshal := by
  simp only [tagNameKey, TagRow.marshal, Field.indexdbMarshal, append_assoc] at h
  obtain ⟨htenant, h⟩ := (reads_commonPrefix _ _).eq_of_append_eq (reads_commonPrefix _ _) h
  obtain ⟨hname, h⟩ := (reads_tagValue _).eq_of_append_eq (reads_tagValue _) h
  exact ⟨(Prod.mk.inj htenant).2.symm, hname.symm, h⟩

/-- Escaped tag values are read back whatever follows them, none of them starts another one, and the
scans for a tag and for a tag name visit only its rows. -/
theorem tag_keys_prefix_free :
    (∀ a tail, unmarshalTagValue (marshalTagValue a ++ tail) = .ok (a, tail)) ∧
    (∀ a b tail, marshalTagValue a <+: marshalTagValue b ++ tail → a = b) ∧
    ∀ items tenantId (row : TagRow),
      (∀ tagName tagValue, row.marshal ∈ scan items (tagValueKey tenantId tagName tagValue) →
        row.tenantId = tenantId ∧ row.tag = ⟨tagName, tagValue⟩) ∧
      ∀ tagName, row.marshal ∈ scan items (tagNameKey tenantId tagName) →
        row.tenantId = tenantId ∧ row.tag.name = tagName := by
  refine ⟨reads_tagValue, ?_, fun items tenantId row => ⟨fun tagName tagValue hmem => ?_,
    fun tagName hmem => ?_⟩⟩
  · rintro a b tail ⟨rest, h⟩
    exact ((reads_tagValue a).eq_of_append_eq (reads_tagValue b) h).1
  · obtain ⟨rest, h⟩ := prefix_of_mem_scan hmem
    rw [tagValueKey, append_assoc] at h
    obtain ⟨htenant, hname, h⟩ := tagNameKey_prefix h
    obtain ⟨hvalue, -⟩ := (reads_tagValue tagValue).eq_of_append_eq (reads_tagValue _) h
    rw [← hname, hvalue]
    exact ⟨htenant, rfl⟩
  · obtain ⟨rest, h⟩ := prefix_of_mem_scan hmem
    obtain ⟨htenant, hname, -⟩ := tagNameKey_prefix h
    exact ⟨htenant, hname⟩

/-! ### Tenants -/

def nsPrefixStreamID : UInt8 := 0

/-- The key at which the rows of a tenant's streams start. -/
def tenantKey (t : TenantID) : Bytes := marshalCommonPrefix nsPrefixStreamID t

/-- The next tenant, unless the space of the account and project ids ends here; the numbers wrap around. -/
def nextTenantID (t : TenantID) : Option TenantID :=
  if t.projectId + 1 = 0 then
    if t.accountId + 1 = 0 then none else some ⟨t.accountId + 1, 0⟩
  else some ⟨t.accountId, t.projectId + 1⟩

/-- The loop of `get_tenant_ids` from a seek for `t` on; without fuel it does not return. -/
def tenantIdsFrom (items : List Bytes) : Nat → TenantID → Option (Outcome (List TenantID))
  | 0, _ => none
  | fuel + 1, t =>
    match seek items (tenantKey t) with
    | [] => some (.ok [])
    | item :: _ =>
      match unmarshalCommonPrefix item with
      | .error err => some (.error (.panic ("FATAL: cannot unmarshal tenantID: " ++ err)))
      | .ok ((ns, tenantId), _) =>
        if ns ≠ nsPrefixStreamID then some (.ok [])
        else
          match nextTenantID tenantId with
          | none => some (.ok [tenantId])
          | some t => (tenantIdsFrom items fuel t).map fun r => r.map (tenantId :: ·)

/-- `get_tenant_ids`; each turn of the loop passes at least one item. -/
def getTenantIds (items : List Bytes) : Option (Outcome (List TenantID)) :=
  tenantIdsFrom items (items.length + 1) default

/-- The items of an index: they start with a namespace and a tenant, and the namespace of the streams of
a tenant has their ids. An item may be there more than once. -/
structure IndexItems where
  items : List Bytes
  sorted : items.Pairwise (· ≤ ·)
  rows : ∀ item ∈ items, ∃ ns t tail, item = marshalCommonPrefix ns t ++ tail ∧
    (ns = nsPrefixStreamID → ∃ id : U128, tail = id.marshal)

/-- The tenant has a registered stream. -/
def IndexItems.HasStream (x : IndexItems) (t : TenantID) : Prop :=
  ∃ id : U128, tenantKey t ++ id.marshal ∈ x.items

theorem beNat_append (a b : Bytes) : beNat (a ++ b) = beNat a * 256 ^ b.length + beNat b := by
  induction a with
  | nil => simp [beNat]
  | cons x a ih =>
    rw [cons_append, beNat, ih, beNat, length_append, pow_add]
    ring

theorem beNat_commonPrefix (ns : UInt8) (t : TenantID) :
    beNat (marshalCommonPrefix ns t) = ns.toNat * 2 ^ 64 + t.toNat := by
  have haccount := beNat_beBytes (w := 4) t.accountId.toNat_lt
  have hproject := beNat_beBytes (w := 4) t.projectId.toNat_lt
  rw [marshalCommonPrefix, beNat, TenantID.length_marshal, TenantID.marshal, beNat_append,
    marshalUint32, marshalUint32, haccount, hproject, length_beBytes, TenantID.toNat]
  norm_num

/-- Items are in the order of their namespaces, then of their tenants. -/
theorem commonPrefix_le_iff {ns ns' : UInt8} {t t' : TenantID} {tail : Bytes} :
    marshalCommonPrefix ns t ≤ marshalCommonPrefix ns' t' ++ tail ↔
      ns.toNat * 2 ^ 64 + t.toNat ≤ ns'.toNat * 2 ^ 64 + t'.toNat := by
  rw [le_append_iff_beNat (by simp [marshalCommonPrefix]), beNat_commonPrefix, beNat_commonPrefix]

theorem tenantKey_le_iff {t t' : TenantID} {tail : Bytes} :
    tenantKey t ≤ tenantKey t' ++ tail ↔ t ≤ t' := by
  rw [tenantKey, tenantKey, commonPrefix_le_iff, Nat.add_le_add_iff_left]
  rfl

theorem TenantID.toNat_lt (t : TenantID) : t.toNat < 2 ^ 64 := by
  have := t.accountId.toNat_lt
  have := t.projectId.toNat_lt
  rw [TenantID.toNat]
  omega

/-- The next tenant has the next number; the last one has none. -/
theorem toNat_nextTenantID (t : TenantID) :
    (nextTenantID t).elim (2 ^ 64) TenantID.toNat = t.toNat + 1 := by
  have ha := t.accountId.toNat_lt
  have hp := t.projectId.toNat_lt
  have hsucc : ∀ u : UInt32, u + 1 = 0 ↔ u.toNat + 1 = 2 ^ 32 := by
    intro u
    have := u.toNat_lt
    rw [← UInt32.toNat_inj, UInt32.toNat_add]
    simp
    omega
  rw [nextTenantID]
  split_ifs with hproject haccount
  · rw [hsucc] at hproject haccount
    simp only [Option.elim_none, TenantID.toNat]
    omega
  · rw [hsucc] at hproject haccount
    simp only [Option.elim_some, TenantID.toNat, UInt32.toNat_add, UInt32.reduceToNat]
    omega
  · rw [hsucc] at hproject
    simp only [Option.elim_some, TenantID.toNat, UInt32.toNat_add, UInt32.reduceToNat]
    omega

/-- A later seek leaves fewer items. -/
theorem length_seek_le {items : List Bytes} {k k' item : Bytes} {rest : List Bytes}
    (hseek : seek items k = item :: rest) (hk : k ≤ k') (hitem : item < k') :
    (seek items k').length ≤ rest.length := by
  rw [← seek_seek items hk, hseek, seek, dropWhile_cons_of_pos (by simpa using hitem)]
  exact (dropWhile_sublist _).length_le

/-- The loop returns the tenants from `t` on. -/
theorem tenantIdsFrom_spec (x : IndexItems) {fuel : Nat} {t : TenantID}
    (hfuel : (seek x.items (tenantKey t)).length < fuel) :
    ∃ ts, tenantIdsFrom x.items fuel t = some (.ok ts) ∧ ts.Pairwise (· < ·) ∧
      ∀ t', t' ∈ ts ↔ t ≤ t' ∧ x.HasStream t' := by
  induction fuel generalizing t with
  | zero => exact absurd hfuel (Nat.not_lt_zero _)
  | succ fuel ih =>
    have hmet : ∀ {t' : TenantID} {id : U128}, t ≤ t' → tenantKey t' ++ id.marshal ∈ x.items →
        tenantKey t' ++ id.marshal ∈ seek x.items (tenantKey t) := fun hle hmem =>
      (mem_seek x.sorted).2 ⟨hmem, tenantKey_le_iff.2 hle⟩
    have hsorted : (seek x.items (tenantKey t)).Pairwise (· ≤ ·) :=
      x.sorted.sublist (dropWhile_sublist _)
    rw [tenantIdsFrom]
    cases hseek : seek x.items (tenantKey t) with
    | nil =>
      refine ⟨[], rfl, .nil, fun t' => ⟨fun h => absurd h not_mem_nil, ?_⟩⟩
      rintro ⟨hle, id, hmem⟩
      have hmem := hmet hle hmem
      rw [hseek] at hmem
      exact absurd hmem not_mem_nil
    | cons item rest =>
      have hitem : item ∈ seek x.items (tenantKey t) := hseek ▸ mem_cons_self
      obtain ⟨hitem, hkey⟩ := (mem_seek x.sorted).1 hitem
      obtain ⟨ns, t₁, tail, rfl, hid⟩ := x.rows item hitem
      -- the streams that are still to come are not before this item
      have hfirst : ∀ {t'}, t ≤ t' → x.HasStream t' →
          ns.toNat * 2 ^ 64 + t₁.toNat ≤ nsPrefixStreamID.toNat * 2 ^ 64 + t'.toNat := by
        rintro t' hle ⟨id, hmem⟩
        have hmem := hmet hle hmem
        rw [hseek] at hmem hsorted
        have hitem_le : marshalCommonPrefix ns t₁ ++ tail ≤ tenantKey t' ++ id.marshal := by
          rcases mem_cons.1 hmem with heq | hmem
          · exact heq.ge
          · exact rel_of_pairwise_cons hsorted hmem
        exact commonPrefix_le_iff.1 ((commonPrefix_le_iff.2 le_rfl).trans hitem_le)
      simp only [reads_commonPrefix ns t₁ tail]
      by_cases hns : ns = nsPrefixStreamID
      · subst hns
        rw [if_neg (not_not.2 rfl)]
        obtain ⟨id, rfl⟩ := hid rfl
        have hle : t ≤ t₁ := tenantKey_le_iff.1 hkey
        have hfirst : ∀ {t'}, t ≤ t' → x.HasStream t' → t₁ ≤ t' := fun hle h =>
          Nat.le_of_add_le_add_left (hfirst hle h)
        have hnext := toNat_nextTenantID t₁
        cases hn : nextTenantID t₁ with
        | none =>
          rw [hn] at hnext
          refine ⟨[t₁], rfl, pairwise_singleton _ _, fun t' => ?_⟩
          rw [mem_singleton]
          constructor
          · rintro rfl
            exact ⟨hle, id, hitem⟩
          · rintro ⟨hle, h⟩
            have hmax : t'.toNat ≤ t₁.toNat := by
              have := TenantID.toNat_lt t'
              simp only [Option.elim_none] at hnext
              omega
            exact le_antisymm hmax (hfirst hle h)
        | some n =>
          rw [hn, Option.elim_some] at hnext
          have hlater : ∀ t', n ≤ t' ↔ t₁ < t' := fun t' =>
            (show n.toNat ≤ t'.toNat ↔ t₁.toNat < t'.toNat by rw [hnext]; rfl)
          have hn : ¬tenantKey n ≤ tenantKey t₁ ++ id.marshal := fun h =>
            lt_irrefl t₁ ((hlater t₁).1 (tenantKey_le_iff.1 h))
          have hfewer := length_seek_le hseek (hkey.trans (not_le.1 hn).le) (not_le.1 hn)
          rw [hseek, length_cons] at hfuel
          obtain ⟨ts, hts, hasc, hmem⟩ := ih (t := n) (by omega)
          dsimp only
          rw [hts]
          refine ⟨t₁ :: ts, rfl, pairwise_cons.2 ⟨fun t' h => ?_, hasc⟩, fun t' => ?_⟩
          · exact (hlater t').1 ((hmem t').1 h).1
          · rw [mem_cons, hmem, hlater]
            constructor
            · rintro (rfl | ⟨hlt, h⟩)
              · exact ⟨hle, id, hitem⟩
              · exact ⟨hle.trans hlt.le, h⟩
            · rintro ⟨hle, h⟩
              exact (hfirst hle h).eq_or_lt.imp Eq.symm fun hlt => ⟨hlt, h⟩
      · rw [if_pos hns]
        refine ⟨[], rfl, .nil, fun t' => ⟨fun h => absurd h not_mem_nil, ?_⟩⟩
        rintro ⟨hle, h⟩
        have hle := hfirst hle h
        have hpos : 0 < ns.toNat := Nat.pos_of_ne_zero fun hz => hns (UInt8.toNat_inj.1 hz)
        have := TenantID.toNat_lt t'
        simp only [nsPrefixStreamID, UInt8.toNat_zero, Nat.zero_mul] at hle
        omega

/-- The search for tenants returns, and it returns the tenants with a registered stream, each once and in
ascending order. -/
theorem tenants_all_found (x : IndexItems) :
    ∃ ts, getTenantIds x.items = some (.ok ts) ∧ ts.Pairwise (· < ·) ∧
      ∀ t, t ∈ ts ↔ x.HasStream t := by
  have hlen : (seek x.items (tenantKey default)).length < x.items.length + 1 :=
    Nat.lt_succ_of_le (dropWhile_sublist _).length_le
  obtain ⟨ts, hts, hasc, hmem⟩ := tenantIdsFrom_spec x hlen
  refine ⟨ts, hts, hasc, fun t => (hmem t).trans (and_iff_right ?_)⟩
  exact Nat.zero_le t.toNat

/-- The last project of account 0 with a stream that is registered twice, the last tenant, and an item of another
namespace. -/
def limitItems : List Bytes :=
  [tenantKey ⟨0, 2 ^ 32 - 1⟩ ++ U128.marshal ⟨0, 7⟩, tenantKey ⟨0, 2 ^ 32 - 1⟩ ++ U128.marshal ⟨0, 7⟩,
    tenantKey ⟨2 ^ 32 - 1, 2 ^ 32 - 1⟩ ++ U128.marshal ⟨1, 0⟩, marshalCommonPrefix nsPrefixTagToStreamIDs ⟨0, 0⟩]

theorem limitItems_rows : ∀ item ∈ limitItems, ∃ ns t tail, item = marshalCommonPrefix ns t ++ tail ∧
    (ns = nsPrefixStreamID → ∃ id : U128, tail = id.marshal) := by
  have hstream : ∀ (t : TenantID) (id : U128), ∃ ns t' tail, tenantKey t ++ id.marshal =
      marshalCommonPrefix ns t' ++ tail ∧ (ns = nsPrefixStreamID → ∃ id : U128, tail = id.marshal) :=
    fun t id => ⟨nsPrefixStreamID, t, id.marshal, rfl, fun _ => ⟨id, rfl⟩⟩
  refine forall_mem_cons.2 ⟨hstream _ _, forall_mem_cons.2 ⟨hstream _ _, forall_mem_cons.2 ⟨hstream _ _, ?_⟩⟩⟩
  refine forall_mem_singleton.2 ⟨nsPrefixTagToStreamIDs, ⟨0, 0⟩, [], (append_nil _).symm, fun h => ?_⟩
  exact absurd h (by decide)

theorem tenants_all_found_limitItems : ∃ ts, getTenantIds limitItems = some (.ok ts) ∧ ts.Pairwise (· < ·) ∧
    ⟨0, 2 ^ 32 - 1⟩ ∈ ts ∧ ⟨2 ^ 32 - 1, 2 ^ 32 - 1⟩ ∈ ts := by
  obtain ⟨ts, hrun, hasc, hmem⟩ := tenants_all_found ⟨limitItems, by decide +kernel, limitItems_rows⟩
  refine ⟨ts, hrun, hasc, (hmem _).2 ⟨⟨0, 7⟩, ?_⟩, (hmem _).2 ⟨⟨1, 0⟩, ?_⟩⟩
  · exact mem_cons_self
  · exact mem_cons_of_mem _ (mem_cons_of_mem _ mem_cons_self)

end Indexdb

end EsLogs
