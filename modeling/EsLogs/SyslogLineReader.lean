import EsLogs.Decimal

/-!
Syslog messages of a byte stream (`SyslogLineReader` of `syslog_listeners.rs`). The reader reads up to a space before
it decides between the two kinds of frames; a message that ends in a newline and has no space is then read together
with what follows it.
-/

namespace EsLogs.Syslog

open List

/-! ### The buffered reader below -/

/-- The bytes to come, and the error that ends the stream, if it does not just end. -/
structure Stream where
  rest : Bytes
  ending : Option String

def Stream.readUntil (s : Stream) (delimiter : UInt8) : Except String Bytes × Stream :=
  match s.rest.idxOf? delimiter, s.ending with
  | some n, _ => (.ok (s.rest.take (n + 1)), { s with rest := s.rest.drop (n + 1) })
  | none, some e => (.error e, { s with rest := [] })
  | none, none => (.ok s.rest, { s with rest := [] })

def Stream.readExact (s : Stream) (n : Nat) : Except String Bytes × Stream :=
  if n ≤ s.rest.length then (.ok (s.rest.take n), { s with rest := s.rest.drop n })
  else (.error (s.ending.getD "failed to fill whole buffer"), { s with rest := [] })

/-- The error of `SyslogLineReaderError`; the other errors are given by what their texts show. -/
inductive SyslogLineReaderError where
  | eof
  | framePrefix (err : String)
  | messageLength (msgLenStr : Bytes) (err : String)
  | longerThan (maxMsgLen msgLen : Nat)
  | message (msgLen : Nat) (err : String)
  | octetStuffing (err : String)
  deriving DecidableEq, Repr

/-- `str::parse` for `u64`, after the first digits; bytes that are not part of a text count as no digits. -/
def parseDigits : Nat → Bytes → Except String Nat
  | n, [] => .ok n
  | n, c :: s =>
    if isDigit c = false then .error "invalid digit found in string"
    else if n * 10 + digitVal c ≥ 2 ^ 64 then .error "number too large to fit in target type"
    else parseDigits (n * 10 + digitVal c) s

def parseU64 (s : Bytes) : Except String Nat :=
  if s = [] then .error "cannot parse integer from empty string" else parseDigits 0 s

/-! ### The reader of lines -/

structure SyslogLineReader where
  line : Bytes
  br : Stream
  err : Option SyslogLineReaderError

namespace SyslogLineReader

def new (br : Stream) : SyslogLineReader := ⟨[], br, none⟩

/-- `SyslogLineReader::error`: a clean end is none. -/
def error (slr : SyslogLineReader) : Except SyslogLineReaderError Unit :=
  match slr.err with
  | none | some .eof => .ok ()
  | some err => .error err

theorem readUntil_lt {s s' : Stream} {d c : UInt8} {p : Bytes} (h : s.readUntil d = (.ok (c :: p), s')) :
    s'.rest.length < s.rest.length := by
  unfold Stream.readUntil at h
  split at h
  · next n _ hn =>
    obtain ⟨a, t, hat, rfl, -⟩ := idxOf?_eq_some_iff_append.1 hn
    obtain ⟨-, rfl⟩ := Prod.mk.inj h
    simp [hat, Nat.lt_add_left]
  · cases h
  · obtain ⟨hrest, rfl⟩ := Prod.mk.inj h
    simp [Except.ok.inj hrest]

/-- The loop of `next_line` over prefixes of newlines. -/
def readPrefix (br : Stream) : Except SyslogLineReaderError Bytes × Stream :=
  match _h : br.readUntil (byte ' ') with
  | (.error err, br) => (.error (.framePrefix err), br)
  | (.ok [], br) => (.error .eof, br)
  | (.ok (c :: p), br) =>
    match (c :: p).dropWhile (· == byte '\n') with
    | [] => readPrefix br
    | c :: p => (.ok (c :: p), br)
termination_by br.rest.length
decreasing_by exact readUntil_lt _h

def nextLine (maxMsgLen : Nat) (slr : SyslogLineReader) : Bool × SyslogLineReader :=
  if slr.err.isSome then (false, slr)
  else
    match readPrefix slr.br with
    | (.error err, br) => (false, { slr with br := br, err := some err })
    | (.ok start, br) =>
      if start.head?.any isDigit then
        match parseU64 start.dropLast with
        | .error err => (false, { slr with br := br, err := some (.messageLength start.dropLast err) })
        | .ok msgLen =>
          if msgLen > maxMsgLen then (false, { slr with br := br, err := some (.longerThan maxMsgLen msgLen) })
          else
            match br.readExact msgLen with
            | (.error err, br) => (false, ⟨replicate msgLen 0, br, some (.message msgLen err)⟩)
            | (.ok line, br) => (true, { slr with line := line, br := br })
      else
        match br.readUntil (byte '\n') with
        | (.error err, br) => (false, ⟨start, br, some (.octetStuffing err)⟩)
        | (.ok tail, br) =>
          let line := start ++ tail
          -- without a tail, a newline that the prefix ends with stays
          let line := if tail.length > 0 ∧ line.getLast? = some (byte '\n') then line.dropLast else line
          (true, { slr with line := line, br := br })

/-- The lines of the calls of `next_line` until it returns false, and the reader after them. -/
inductive Yields (maxMsgLen : Nat) : SyslogLineReader → List Bytes → SyslogLineReader → Prop
  | stop {slr slr' : SyslogLineReader} : nextLine maxMsgLen slr = (false, slr') → Yields maxMsgLen slr [] slr'
  | line {slr slr₁ slr' : SyslogLineReader} {ls : List Bytes} : nextLine maxMsgLen slr = (true, slr₁) →
    Yields maxMsgLen slr₁ ls slr' → Yields maxMsgLen slr (slr₁.line :: ls) slr'

theorem Yields.cons_inv {maxMsgLen : Nat} {slr slr' : SyslogLineReader} {l : Bytes} {ls : List Bytes}
    (h : Yields maxMsgLen slr (l :: ls) slr') :
    ∃ slr₁, nextLine maxMsgLen slr = (true, slr₁) ∧ slr₁.line = l ∧ Yields maxMsgLen slr₁ ls slr' := by
  generalize hl : l :: ls = ls' at h
  cases h with
  | stop => cases hl
  | line hnext hrest =>
    cases hl
    exact ⟨_, hnext, rfl, hrest⟩

end SyslogLineReader

open SyslogLineReader

/-! ### Frames -/

inductive Frame where
  | counted (msg : Bytes)
  | terminated (msg : Bytes)
  deriving DecidableEq, Repr

namespace Frame

def msg : Frame → Bytes
  | counted msg | terminated msg => msg

def encode : Frame → Bytes
  | counted msg => decimal msg.length ++ byte ' ' :: msg
  | terminated msg => msg ++ [byte '\n']

def Valid (maxMsgLen : Nat) : Frame → Prop
  | counted msg => msg.length ≤ maxMsgLen
  | terminated msg => msg ≠ [] ∧ byte '\n' ∉ msg ∧ msg.head?.any isDigit = false

/-- The reader finds the end of the message. -/
def HasSpace : Frame → Prop
  | counted _ => True
  | terminated msg => byte ' ' ∈ msg

instance (maxMsgLen : Nat) : (f : Frame) → Decidable (f.Valid maxMsgLen)
  | counted msg => inferInstanceAs (Decidable (msg.length ≤ maxMsgLen))
  | terminated msg => inferInstanceAs (Decidable (msg ≠ [] ∧ byte '\n' ∉ msg ∧ msg.head?.any isDigit = false))

instance : (f : Frame) → Decidable f.HasSpace
  | counted _ => .isTrue trivial
  | terminated msg => inferInstanceAs (Decidable (byte ' ' ∈ msg))

end Frame

/-- The reader yields the messages and then ends without an error. -/
def Recovers (maxMsgLen : Nat) (frames : List Frame) : Prop :=
  ∃ slr, Yields maxMsgLen (new ⟨frames.flatMap Frame.encode, none⟩) (frames.map Frame.msg) slr ∧ slr.error = .ok ()

variable {maxMsgLen : Nat} {a t msg l : Bytes} {d : UInt8} {e : Option String} {br : Stream}

theorem readUntil_append_cons (ha : d ∉ a) : Stream.readUntil ⟨a ++ d :: t, e⟩ d = (.ok (a ++ [d]), ⟨t, e⟩) := by
  have hn : (a ++ d :: t).idxOf? d = some a.length := idxOf?_eq_some_iff_append.2 ⟨a, t, rfl, rfl, ha⟩
  unfold Stream.readUntil
  simp [hn, take_append, drop_append]

theorem readPrefix_eq {p : Bytes} {br' : Stream} (h : br.readUntil (byte ' ') = (.ok p, br')) (hne : p ≠ [])
    (hfirst : p.head? ≠ some (byte '\n')) : readPrefix br = (.ok p, br') := by
  obtain ⟨c, p, rfl⟩ := exists_cons_of_ne_nil hne
  have hc : ¬(c == byte '\n') = true := fun heq => hfirst (congrArg some (beq_iff_eq.1 heq))
  unfold readPrefix
  split
  · next heq => cases h.symm.trans heq
  · next heq => cases h.symm.trans heq
  · next heq =>
    cases h.symm.trans heq
    rw [dropWhile_cons_of_neg (p := (· == byte '\n')) hc]

theorem parseDigits_eq {n : Nat} {s : Bytes} (hs : AllDigits s) (hlt : digitsFrom n s < 2 ^ 64) :
    parseDigits n s = .ok (digitsFrom n s) := by
  induction s generalizing n with
  | nil => rfl
  | cons c s ih =>
    obtain ⟨hc, hs⟩ := forall_mem_cons.1 hs
    rw [digitsFrom_cons] at hlt ⊢
    have hle := le_digitsFrom (n := n * 10 + digitVal c) s
    rw [parseDigits, hc, if_neg (by decide), if_neg (by omega), ih hs hlt]

/-- A frame with a space is read up to its end. -/
theorem nextLine_encode {f : Frame} (hf : f.Valid maxMsgLen) (hmax : maxMsgLen < 2 ^ 64) (hspace : f.HasSpace) :
    nextLine maxMsgLen ⟨l, ⟨f.encode ++ t, e⟩, none⟩ = (true, ⟨f.msg, ⟨t, e⟩, none⟩) := by
  cases f with
  | counted msg =>
    have hlen : msg.length ≤ maxMsgLen := hf
    have hdigits : AllDigits (decimal msg.length) := allDigits_decimal _
    have hne : decimal msg.length ≠ [] := decimal_ne_nil _
    have hhead : (decimal msg.length ++ [byte ' ']).head?.any isDigit = true := by
      obtain ⟨c, s, hcs⟩ := exists_cons_of_ne_nil hne
      rw [hcs]
      exact hdigits c (hcs ▸ mem_cons_self)
    have hprefix : readPrefix ⟨decimal msg.length ++ byte ' ' :: (msg ++ t), e⟩ =
        (.ok (decimal msg.length ++ [byte ' ']), ⟨msg ++ t, e⟩) := by
      refine readPrefix_eq (readUntil_append_cons fun hmem => ?_) (by simp) fun heq => ?_
      · exact absurd (hdigits _ hmem) (by decide)
      · rw [heq] at hhead
        exact absurd hhead (by decide)
    have hparse : parseU64 (decimal msg.length) = .ok msg.length := by
      have hvalue : digitsFrom 0 (decimal msg.length) = msg.length := digitsValue_decimal _
      rw [parseU64, if_neg hne, parseDigits_eq hdigits (by omega), hvalue]
    simp only [nextLine, Option.isSome_none, Bool.false_eq_true, if_false, Frame.encode, append_assoc, cons_append,
      hprefix]
    rw [if_pos hhead, dropLast_concat, hparse]
    simp [Stream.readExact, Frame.msg, hlen]
  | terminated msg =>
    obtain ⟨hne, hnewline, hdigit⟩ := hf
    obtain ⟨n, hn⟩ := Option.isSome_iff_exists.1 (isSome_idxOf?.2 hspace)
    obtain ⟨a, b, rfl, -, ha⟩ := idxOf?_eq_some_iff_append.1 hn
    have hb : byte '\n' ∉ b := fun hmem => hnewline (mem_append_right _ (mem_cons_of_mem _ hmem))
    have hhead : (a ++ [byte ' ']).head? = (a ++ byte ' ' :: b).head? := by cases a <;> rfl
    have hprefix : readPrefix ⟨a ++ byte ' ' :: (b ++ byte '\n' :: t), e⟩ =
        (.ok (a ++ [byte ' ']), ⟨b ++ byte '\n' :: t, e⟩) := by
      refine readPrefix_eq (readUntil_append_cons ha) (by simp) fun heq => hnewline ?_
      exact mem_of_mem_head? (hhead.symm.trans heq)
    simp only [nextLine, Option.isSome_none, Bool.false_eq_true, if_false, Frame.encode, append_assoc, cons_append,
      nil_append, hprefix]
    rw [hhead, hdigit, if_neg Bool.false_ne_true, readUntil_append_cons hb]
    have hline : a ++ byte ' ' :: (b ++ [byte '\n']) = (a ++ byte ' ' :: b) ++ [byte '\n'] := by simp
    dsimp only
    rw [hline, if_pos ⟨by simp, getLast?_concat⟩, dropLast_concat]
    rfl

/-- Without a space, a newline ends up in the line. -/
theorem nextLine_terminated (hf : (Frame.terminated msg).Valid maxMsgLen) (hspace : byte ' ' ∉ msg) :
    ∃ slr, nextLine maxMsgLen ⟨l, ⟨(Frame.terminated msg).encode ++ t, none⟩, none⟩ = (true, slr) ∧
      byte '\n' ∈ slr.line := by
  obtain ⟨hne, hnewline, hdigit⟩ := hf
  obtain ⟨p, rest, hread⟩ : ∃ p rest, Stream.readUntil ⟨msg ++ byte '\n' :: t, none⟩ (byte ' ') =
      (.ok (msg ++ byte '\n' :: p), ⟨rest, none⟩) := by
    cases hn : t.idxOf? (byte ' ') with
    | none =>
      have hnone : (msg ++ byte '\n' :: t).idxOf? (byte ' ') = none := by
        rw [idxOf?_eq_none_iff] at hn ⊢
        simpa [hspace, hn] using (by decide : byte ' ' ≠ byte '\n')
      exact ⟨t, [], by simp [Stream.readUntil, hnone]⟩
    | some n =>
      obtain ⟨a, u, rfl, -, ha⟩ := idxOf?_eq_some_iff_append.1 hn
      have hnot : byte ' ' ∉ msg ++ byte '\n' :: a := by
        simpa [hspace, ha] using (by decide : byte ' ' ≠ byte '\n')
      refine ⟨a ++ [byte ' '], u, ?_⟩
      have := readUntil_append_cons (t := u) (e := none) hnot
      simpa using this
  have hhead : (msg ++ byte '\n' :: p).head? = msg.head? := head?_append_of_ne_nil _ hne
  have hprefix := readPrefix_eq hread (by simp) fun heq => hnewline (mem_of_mem_head? (hhead.symm.trans heq))
  simp only [nextLine, Option.isSome_none, Bool.false_eq_true, if_false, Frame.encode, append_assoc, cons_append,
    nil_append, hprefix]
  rw [hhead, hdigit, if_neg Bool.false_ne_true]
  obtain ⟨tail, br, htail⟩ : ∃ tail br, Stream.readUntil ⟨rest, none⟩ (byte '\n') = (.ok tail, br) := by
    unfold Stream.readUntil
    dsimp only
    cases rest.idxOf? (byte '\n') <;> exact ⟨_, _, rfl⟩
  rw [htail]
  refine ⟨_, rfl, ?_⟩
  dsimp only
  split_ifs with h
  · rw [← cons_append, ← append_assoc, dropLast_append_of_ne_nil (length_pos_iff.1 h.1)]
    simp
  · simp

theorem yields_msgs_iff (hmax : maxMsgLen < 2 ^ 64) (frames : List Frame) (hvalid : ∀ f ∈ frames, f.Valid maxMsgLen) :
    (∃ slr, Yields maxMsgLen ⟨l, ⟨frames.flatMap Frame.encode, none⟩, none⟩ (frames.map Frame.msg) slr ∧
      slr.error = .ok ()) ↔ ∀ f ∈ frames, f.HasSpace := by
  induction frames generalizing l with
  | nil =>
    refine iff_of_true ⟨⟨l, ⟨[], none⟩, some .eof⟩, .stop ?_, rfl⟩ (forall_mem_nil _)
    have hread : readPrefix ⟨[], none⟩ = (.error .eof, ⟨[], none⟩) := by
      unfold readPrefix
      rfl
    rw [flatMap_nil, nextLine, hread]
    rfl
  | cons f frames ih =>
    obtain ⟨hf, hvalid⟩ := forall_mem_cons.1 hvalid
    rw [forall_mem_cons, flatMap_cons, map_cons]
    by_cases hspace : f.HasSpace
    · rw [and_iff_right hspace, ← ih hvalid (l := f.msg)]
      have hnext := nextLine_encode (l := l) (t := frames.flatMap Frame.encode) (e := none) hf hmax hspace
      constructor
      · rintro ⟨slr, hyields, herror⟩
        obtain ⟨slr₁, hnext₁, -, hyields⟩ := hyields.cons_inv
        cases hnext.symm.trans hnext₁
        exact ⟨slr, hyields, herror⟩
      · rintro ⟨slr, hyields, herror⟩
        exact ⟨slr, .line hnext hyields, herror⟩
    · refine iff_of_false ?_ fun h => hspace h.1
      cases f with
      | counted msg => exact absurd trivial hspace
      | terminated msg =>
        obtain ⟨slr, hnext, hmem⟩ := nextLine_terminated (l := l) (t := frames.flatMap Frame.encode) hf hspace
        rintro ⟨slr', hyields, -⟩
        obtain ⟨slr₁, hnext₁, hline, -⟩ := hyields.cons_inv
        cases hnext.symm.trans hnext₁
        rw [hline] at hmem
        exact hf.2.1 hmem

/-- The messages are recovered exactly if every message that ends in a newline has a space. -/
theorem recovers_iff (maxMsgLen : UInt64) (frames : List Frame) (hvalid : ∀ f ∈ frames, f.Valid maxMsgLen.toNat) :
    Recovers maxMsgLen.toNat frames ↔ ∀ f ∈ frames, f.HasSpace :=
  yields_msgs_iff maxMsgLen.toNat_lt frames hvalid

theorem recovers_two : Recovers (256 : UInt64).toNat [.terminated (ascii "a b"), .counted (ascii "c\nd")] :=
  (recovers_iff 256 _ (by decide)).2 (by decide)

/-- The line of a message without a space keeps its newline. -/
theorem not_recovers_word : (∀ f ∈ [Frame.terminated (ascii "abc")], f.Valid 256) ∧
    ¬Recovers 256 [.terminated (ascii "abc")] := by
  have hvalid : ∀ f ∈ [Frame.terminated (ascii "abc")], f.Valid 256 := by decide
  refine ⟨hvalid, fun h => ?_⟩
  have hspace := (yields_msgs_iff (by decide) _ hvalid).1 h
  exact absurd hspace (by decide)

end EsLogs.Syslog
