import HftProj.Protocol.Encode

/-!
# Parsing inverts building

A frame is accepted exactly when it is the encoding of a packet, and the parsed value
encodes back to it; any other frame is reported under the first rule of the violation
catalogue that it breaks. The iterator over an accepted packet walks the same bytes
again, and its accesses and sums are listed beside it.
-/

namespace HftProj.Protocol.Moldudp64

open HftProj.Lib Packet

inductive Kind where
  | data
  | heartbeat
  | endOfSession
  deriving DecidableEq

/-- Classification by the count field. -/
def Header.kind (h : Header) : Kind :=
  if h.count = HEARTBEAT_COUNT then .heartbeat
  else if h.count = EOS_COUNT then .endOfSession
  else .data

theorem Header.kind_eq_data {h : Header} :
    h.kind = .data ↔ h.count ≠ HEARTBEAT_COUNT ∧ h.count ≠ EOS_COUNT := by
  rw [Header.kind]
  split
  · next hc => simp [hc]
  · next hc =>
      split
      · next he => simp [he]
      · next he => simp [hc, he]

theorem Header.count_of_heartbeat {h : Header} (hk : h.kind = .heartbeat) :
    h.count = HEARTBEAT_COUNT := by
  by_contra hc
  rw [Header.kind, if_neg hc] at hk
  split at hk <;> cases hk

theorem Header.count_of_endOfSession {h : Header} (hk : h.kind = .endOfSession) :
    h.count = EOS_COUNT := by
  by_contra he
  rw [Header.kind, if_neg he] at hk
  split at hk <;> cases hk

/-! ## The block area -/

theorem toBeBytes_fromBeBytes (bytes : List UInt8) :
    toBeBytes bytes.length (fromBeBytes bytes) = bytes := by
  induction bytes using List.reverseRecOn with
  | nil => rfl
  | append_singleton bytes b ih =>
      have hb := b.toNat_lt
      have hvalue : fromBeBytes (bytes ++ [b]) = fromBeBytes bytes * 256 + b.toNat := by
        simp [fromBeBytes]
      have hdiv : (fromBeBytes bytes * 256 + b.toNat) / 256 = fromBeBytes bytes := by omega
      have hmod : (fromBeBytes bytes * 256 + b.toNat) % 256 = b.toNat := by omega
      rw [List.length_append, List.length_singleton, toBeBytes, hvalue, hdiv, hmod, ih,
        UInt8.ofNat_toNat]

theorem blockBytes_cons (m : List UInt8) (msgs : List (List UInt8)) :
    blockBytes (m :: msgs) = toBeBytes 2 m.length ++ (m ++ blockBytes msgs) := by
  simp [blockBytes]

/-- One step of the bounds walk takes one block off the area. -/
theorem skipBlocks_succ {n : ℕ} {rest left : List UInt8} :
    skipBlocks (n + 1) rest = .ok left ↔ ∃ m rest', m.length < 2 ^ 16 ∧
      rest = toBeBytes 2 m.length ++ (m ++ rest') ∧ skipBlocks n rest' = .ok left := by
  constructor
  · intro h
    rw [skipBlocks] at h
    split at h
    · cases h
    next h₁ =>
    simp only at h
    split at h
    · cases h
    next h₂ =>
    have htake : (rest.take 2).length = 2 := by
      rw [List.length_take]
      omega
    have hm : (slice rest 2 (2 + fromBeBytes (rest.take 2))).length =
        fromBeBytes (rest.take 2) := by
      rw [slice_length (by omega), Nat.add_sub_cancel_left]
    refine ⟨slice rest 2 (2 + fromBeBytes (rest.take 2)), _, ?_, ?_, h⟩
    · have hlt := fromBeBytes_lt (rest.take 2)
      rw [htake] at hlt
      rw [hm]
      exact hlt
    · have hprefix := toBeBytes_fromBeBytes (rest.take 2)
      rw [htake] at hprefix
      rw [hm, hprefix, slice, Nat.add_sub_cancel_left, ← List.drop_drop, List.take_append_drop,
        List.take_append_drop]
  · rintro ⟨m, rest', hm, rfl, h⟩
    have htake : (toBeBytes 2 m.length ++ (m ++ rest')).take 2 = toBeBytes 2 m.length := by
      rw [List.take_append_of_le_length (by simp), List.take_of_length_le (by simp)]
    have hdrop : (toBeBytes 2 m.length ++ (m ++ rest')).drop (2 + m.length) = rest' := by
      rw [← List.append_assoc]
      exact List.drop_left' (by simp)
    have hvalue : fromBeBytes (toBeBytes 2 m.length) = m.length := fromBeBytes_toBeBytes hm
    have hlen : (toBeBytes 2 m.length ++ (m ++ rest')).length = 2 + (m.length + rest'.length) := by
      rw [List.length_append, List.length_append, toBeBytes_length]
    rw [skipBlocks, htake, hvalue, hlen, if_neg (by omega)]
    simp only
    rw [if_neg (by omega), hdrop]
    exact h

/-- The bounds walk succeeds exactly on the encodings of `n` messages, and returns what
follows them. -/
theorem skipBlocks_eq_ok {n : ℕ} {rest left : List UInt8} :
    skipBlocks n rest = .ok left ↔ ∃ msgs, msgs.length = n ∧
      (∀ m ∈ msgs, m.length < 2 ^ 16) ∧ rest = blockBytes msgs ++ left := by
  induction n generalizing rest with
  | zero => simp [skipBlocks, blockBytes]
  | succ n ih =>
      rw [skipBlocks_succ]
      constructor
      · rintro ⟨m, rest', hm, rfl, h⟩
        obtain ⟨msgs, hlen, hall, rfl⟩ := ih.mp h
        refine ⟨m :: msgs, by simp [hlen], ?_, ?_⟩
        · exact List.forall_mem_cons.mpr ⟨hm, hall⟩
        · rw [blockBytes_cons, List.append_assoc, List.append_assoc]
      · rintro ⟨_ | ⟨m, msgs⟩, hlen, hall, rfl⟩
        · cases hlen
        · obtain ⟨hm, hall⟩ := List.forall_mem_cons.mp hall
          refine ⟨m, blockBytes msgs ++ left, hm, ?_, ?_⟩
          · rw [blockBytes_cons, List.append_assoc, List.append_assoc]
          · exact ih.mpr ⟨msgs, Nat.succ.inj hlen, hall, rfl⟩

theorem skipBlocks_eq_error {n : ℕ} {rest : List UInt8} {e : FrameError}
    (h : skipBlocks n rest = .error e) : e = .blockOverrun := by
  induction n generalizing rest with
  | zero => cases h
  | succ n ih =>
      rw [skipBlocks] at h
      split at h
      · cases h
        rfl
      · simp only at h
        split at h
        · cases h
          rfl
        · exact ih h

/-! ## The iterator -/

/-- An exhausted iterator yields nothing more. -/
theorem MessageBlocks.collect_exhausted {it : MessageBlocks} (h : it.remaining = 0) (n : ℕ) :
    it.collect n = [] := by
  cases n with
  | zero => rfl
  | succ n => simp [MessageBlocks.collect, MessageBlocks.next, h]

/-- Over an area that splits without error the iterator yields the numbered payloads. -/
theorem MessageBlocks.collect_numbered {n k pos seq : ℕ} {area : List UInt8}
    (h : (splitBlocks n (area.drop pos)).2 = none) (hk : n ≤ k) :
    (MessageBlocks.collect k ⟨area, pos, seq, n⟩) =
      (numberWrapping seq (splitBlocks n (area.drop pos)).1).map fun b => ⟨b.1, b.2⟩ := by
  induction n generalizing k pos seq with
  | zero => exact MessageBlocks.collect_exhausted rfl k
  | succ n ih =>
      obtain ⟨k, rfl⟩ : ∃ m, k = m + 1 := ⟨k - 1, by omega⟩
      obtain ⟨-, hsplit⟩ := splitBlocks_succ h
      rw [hsplit] at h ⊢
      simp only [MessageBlocks.collect, MessageBlocks.next, if_neg (Nat.succ_ne_zero n),
        Nat.add_sub_cancel, ih h (Nat.le_of_succ_le_succ hk), numberWrapping, List.map_cons]

/-! ## The violation catalogue -/

/-- The rules of the catalogue that the parser enforces. -/
inductive Rule where
  | headerShort
  | spanOverflow
  | controlLength
  | blocksEndEarly
  | bytesLeft
  deriving DecidableEq

/-- First match wins in this order. -/
def Rule.documentedOrder : List Rule :=
  [.headerShort, .spanOverflow, .controlLength, .blocksEndEarly, .bytesLeft]

/-- The area starts with the encodings of `count` messages, and `rest` follows them. -/
def Announced (count : ℕ) (area rest : List UInt8) : Prop :=
  ∃ msgs : List (List UInt8), msgs.length = count ∧ (∀ m ∈ msgs, m.length ≤ 65535) ∧
    area = blockBytes msgs ++ rest

/-- The frame breaks the rule, which reports the error. -/
def Rule.Broken (buf : List UInt8) : Rule → FrameError → Prop
  | .headerShort, e => buf.length < HEADER_LEN ∧ e = .truncated HEADER_LEN buf.length
  | .spanOverflow, e => ∃ hdr, parseHeader buf = .ok hdr ∧ hdr.kind = .data ∧
      2 ^ 64 ≤ hdr.seq + hdr.count - 1 ∧ e = .seqOverflow
  | .controlLength, e => ∃ hdr, parseHeader buf = .ok hdr ∧ hdr.kind ≠ .data ∧
      buf.length ≠ HEADER_LEN ∧ e = .trailingBytes (buf.length - HEADER_LEN)
  | .blocksEndEarly, e => ∃ hdr, parseHeader buf = .ok hdr ∧ hdr.kind = .data ∧
      (∀ rest, ¬Announced hdr.count (buf.drop HEADER_LEN) rest) ∧ e = .blockOverrun
  | .bytesLeft, e => ∃ hdr rest, parseHeader buf = .ok hdr ∧ hdr.kind = .data ∧
      Announced hdr.count (buf.drop HEADER_LEN) rest ∧ rest ≠ [] ∧ e = .trailingBytes rest.length

/-- The error is that of the first rule in the list that the frame breaks. -/
@[grind =]
def FirstViolated (buf : List UInt8) : List Rule → FrameError → Prop
  | [], _ => False
  | r :: rules, e => r.Broken buf e ∨ (∀ e', ¬r.Broken buf e') ∧ FirstViolated buf rules e

/-! ## What the parser answers -/

section Parse

variable {buf : List UInt8} {hdr : Header}

theorem checkedAdd_eq_none {a b : ℕ} : checkedAdd a b = none ↔ 2 ^ 64 ≤ a + b := by
  rw [checkedAdd]
  split <;> simp <;> omega

theorem announced_iff {count : ℕ} {area rest : List UInt8} :
    Announced count area rest ↔ skipBlocks count area = .ok rest := by
  rw [skipBlocks_eq_ok]
  constructor
  · rintro ⟨msgs, hlen, hall, harea⟩
    exact ⟨msgs, hlen, fun m hm => Nat.lt_succ_of_le (hall m hm), harea⟩
  · rintro ⟨msgs, hlen, hall, harea⟩
    exact ⟨msgs, hlen, fun m hm => Nat.le_of_lt_succ (hall m hm), harea⟩

theorem parse_of_control (hhdr : parseHeader buf = .ok hdr) (hkind : hdr.kind ≠ .data) :
    parse buf =
      if buf.length ≠ HEADER_LEN then .error (.trailingBytes (buf.length - HEADER_LEN))
      else .ok (if hdr.kind = .heartbeat then .heartbeat hdr else .endOfSession hdr) := by
  have hne : EOS_COUNT ≠ HEARTBEAT_COUNT := by decide
  rw [parse, hhdr]
  simp only [Header.kind] at hkind ⊢
  split at hkind
  · next hc =>
      simp only [hc, ne_eq, not_true_eq_false, false_and, if_false, if_true]
  · next hc =>
      split at hkind
      · next he =>
          simp only [he, hne, ne_eq, not_true_eq_false, false_and, and_false, not_false_eq_true,
            if_false, if_true, reduceCtorEq]
      · exact absurd rfl hkind

theorem parse_of_data (hhdr : parseHeader buf = .ok hdr) (hkind : hdr.kind = .data) :
    parse buf =
      if 2 ^ 64 ≤ hdr.seq + (hdr.count - 1) then .error .seqOverflow
      else match skipBlocks hdr.count (buf.drop HEADER_LEN) with
        | .error e => .error e
        | .ok rest =>
            if rest ≠ [] then .error (.trailingBytes rest.length)
            else .ok (.data hdr ⟨buf.drop HEADER_LEN, 0, hdr.seq, hdr.count⟩) := by
  obtain ⟨hc, he⟩ := Header.kind_eq_data.mp hkind
  rw [parse, hhdr]
  simp only [hc, he, checkedAdd_eq_none, ne_eq, not_false_eq_true, true_and, if_false] <;> rfl

/-- The frames that are accepted, and what they are parsed to. -/
theorem parse_ok_cases {parsed : Parsed} (h : parse buf = .ok parsed) :
    ∃ hdr, parseHeader buf = .ok hdr ∧
      ((hdr.kind = .data ∧ hdr.seq + (hdr.count - 1) < 2 ^ 64 ∧
          skipBlocks hdr.count (buf.drop HEADER_LEN) = .ok [] ∧
          parsed = .data hdr ⟨buf.drop HEADER_LEN, 0, hdr.seq, hdr.count⟩) ∨
        (hdr.count = HEARTBEAT_COUNT ∧ buf.length = HEADER_LEN ∧ parsed = .heartbeat hdr) ∨
        (hdr.count = EOS_COUNT ∧ buf.length = HEADER_LEN ∧ parsed = .endOfSession hdr)) := by
  cases hhdr : parseHeader buf with
  | error e =>
      rw [parse, hhdr] at h
      cases h
  | ok hdr =>
      refine ⟨hdr, rfl, ?_⟩
      cases hkind : hdr.kind with
      | data =>
          rw [parse_of_data hhdr hkind] at h
          split at h
          · cases h
          next hspan =>
          cases hskip : skipBlocks hdr.count (buf.drop HEADER_LEN) with
          | error e =>
              rw [hskip] at h
              cases h
          | ok rest =>
              simp only [hskip] at h
              split at h
              · cases h
              next hrest =>
              obtain rfl := not_not.mp hrest
              cases h
              exact Or.inl ⟨rfl, Nat.lt_of_not_le hspan, rfl, rfl⟩
      | heartbeat =>
          rw [parse_of_control hhdr (by rw [hkind]; exact Kind.noConfusion)] at h
          split at h
          · cases h
          next hlen =>
          cases h
          exact Or.inr (Or.inl ⟨Header.count_of_heartbeat hkind, not_not.mp hlen, rfl⟩)
      | endOfSession =>
          rw [parse_of_control hhdr (by rw [hkind]; exact Kind.noConfusion)] at h
          split at h
          · cases h
          next hlen =>
          rw [if_neg (by rw [hkind]; exact Kind.noConfusion)] at h
          cases h
          exact Or.inr (Or.inr ⟨Header.count_of_endOfSession hkind, not_not.mp hlen, rfl⟩)

/-- The parser reports the first rule in the documented order that the frame breaks. -/
theorem parse_eq_error (e : FrameError) :
    parse buf = .error e ↔ FirstViolated buf Rule.documentedOrder e := by
  cases hhdr : parseHeader buf with
  | error e' =>
      have hshort : buf.length < HEADER_LEN ∧ e' = .truncated HEADER_LEN buf.length := by
        rw [parseHeader] at hhdr
        split at hhdr
        · next hlt => exact ⟨hlt, by cases hhdr; rfl⟩
        · cases hhdr
      obtain ⟨hlt, rfl⟩ := hshort
      simp [parse, hhdr, FirstViolated, Rule.documentedOrder, Rule.Broken, hlt, eq_comm]
  | ok hdr =>
      have hlong : ¬buf.length < HEADER_LEN := Nat.not_lt.mpr (parseHeader_ok hhdr).1
      simp only [FirstViolated, Rule.documentedOrder, Rule.Broken, hhdr, hlong,
        Except.ok.injEq, exists_and_left, exists_eq_left', false_and, false_or, not_false_eq_true,
        implies_true, true_and, announced_iff]
      by_cases hkind : hdr.kind = .data
      · have hcount : 0 < hdr.count := Nat.pos_of_ne_zero (Header.kind_eq_data.mp hkind).1
        rw [parse_of_data hhdr hkind]
        by_cases hover : 2 ^ 64 ≤ hdr.seq + (hdr.count - 1)
        · have hover' : 2 ^ 64 ≤ hdr.seq + hdr.count - 1 := by omega
          rw [if_pos hover]
          simp only [hkind, hover', ne_eq, not_true_eq_false, true_and, false_and, and_false,
            forall_eq, or_false, Except.error.injEq]
          exact eq_comm
        · have hover' : ¬2 ^ 64 ≤ hdr.seq + hdr.count - 1 := by omega
          rw [if_neg hover]
          simp only [hkind, hover', ne_eq, not_true_eq_false, not_false_eq_true, true_and,
            false_and, false_or, implies_true]
          cases hskip : skipBlocks hdr.count (buf.drop HEADER_LEN) with
          | error e' => simp [skipBlocks_eq_error hskip, eq_comm]
          | ok rest => by_cases hrest : rest = [] <;> simp [hrest, eq_comm]
      · rw [parse_of_control hhdr hkind]
        by_cases hlen : buf.length = HEADER_LEN
        · simp [hkind, hlen]
        · simp [hkind, hlen, eq_comm]

end Parse

/-! ## Round trips -/

/-- What a packet can carry. -/
def Encodable (seq : ℕ) (msgs : List (List UInt8)) : Prop :=
  1 ≤ msgs.length ∧ msgs.length ≤ 65534 ∧ (∀ m ∈ msgs, m.length ≤ 65535) ∧
    seq + msgs.length - 1 < 2 ^ 64

instance (seq : ℕ) (msgs : List (List UInt8)) : Decidable (Encodable seq msgs) :=
  inferInstanceAs (Decidable (_ ∧ _))

/-- Each message with its own sequence number. -/
def numberedBlocks (seq : ℕ) (msgs : List (List UInt8)) : List MessageBlock :=
  (number seq msgs).map fun b => ⟨b.1, b.2⟩

/-- The frame that a parsed value stands for. -/
def Parsed.encode : Parsed → List UInt8
  | .data hdr blocks =>
      buildPacket hdr.session hdr.seq ((blocks.collect blocks.remaining).map MessageBlock.data)
  | .heartbeat hdr => makeHbFrame hdr.session hdr.seq
  | .endOfSession hdr => makeEosFrame hdr.session hdr.seq

/-- The frame is in the grammar, and the parsed value is what it encodes. -/
def Parsed.Grammatical (buf : List UInt8) : Parsed → Prop
  | .data hdr _ => ∃ msgs, Encodable hdr.seq msgs ∧ hdr.count = msgs.length ∧
      buf = buildPacket hdr.session hdr.seq msgs
  | .heartbeat hdr => hdr.count = HEARTBEAT_COUNT ∧ buf.length = HEADER_LEN
  | .endOfSession hdr => hdr.count = EOS_COUNT ∧ buf.length = HEADER_LEN

theorem Encodable.count {seq : ℕ} {msgs : List (List UInt8)} (h : Encodable seq msgs) :
    msgs.length ≠ HEARTBEAT_COUNT ∧ msgs.length ≠ EOS_COUNT := by
  obtain ⟨hpos, hle, -, -⟩ := h
  constructor
  · exact Nat.ne_of_gt hpos
  · exact Nat.ne_of_lt (Nat.lt_succ_of_le hle)

theorem headerBytes_length (session : SessionId) (seq count : ℕ) :
    (headerBytes session seq count).length = HEADER_LEN := by
  simp [headerBytes, session.2, HEADER_LEN]

/-- A header is the first twenty bytes of its frame. -/
theorem headerBytes_of_parseHeader {buf : List UInt8} {hdr : Header}
    (h : parseHeader buf = .ok hdr) :
    headerBytes hdr.session hdr.seq hdr.count = buf.take HEADER_LEN := by
  obtain ⟨hlen, hsession, hseq, hcount⟩ := parseHeader_ok h
  have hlen' : 20 ≤ buf.length := hlen
  have h₁ := toBeBytes_fromBeBytes (slice buf 10 18)
  have h₂ := toBeBytes_fromBeBytes (slice buf 18 20)
  rw [slice_length (by omega), ← hseq] at h₁
  rw [slice_length (by omega), ← hcount] at h₂
  rw [headerBytes, hsession, h₁, h₂]
  have hsplit : slice buf 10 18 ++ slice buf 18 20 = slice buf 10 20 := by
    have h₃ := List.take_append_drop 8 (slice buf 10 20)
    simpa [slice, List.take_take, List.drop_take, List.drop_drop] using h₃
  have hall := List.take_append_drop 10 (buf.take 20)
  rw [hsplit]
  simpa [slice, List.take_take, List.drop_take, HEADER_LEN] using hall

/-- Parsing an encoding gives back the header, and the iterator gives back the messages. -/
theorem parse_encoding (session : SessionId) {seq : ℕ} {msgs : List (List UInt8)}
    (h : Encodable seq msgs) :
    ∃ blocks, parse (buildPacket session seq msgs) = .ok (.data ⟨session, seq, msgs.length⟩ blocks) ∧
      ∀ n, msgs.length ≤ n → blocks.collect n = numberedBlocks seq msgs := by
  obtain ⟨hpos, hle, hall, hlast⟩ := h
  have hall' : ∀ m ∈ msgs, m.length < 2 ^ 16 := fun m hm => Nat.lt_succ_of_le (hall m hm)
  have hhdr : parseHeader (buildPacket session seq msgs) = .ok ⟨session, seq, msgs.length⟩ :=
    parseHeader_headerBytes session (by omega) (by omega) _
  have hkind : (⟨session, seq, msgs.length⟩ : Header).kind = .data :=
    Header.kind_eq_data.mpr (Encodable.count ⟨hpos, hle, hall, hlast⟩)
  have hbody : (buildPacket session seq msgs).drop HEADER_LEN = blockBytes msgs := by
    rw [buildPacket, ← headerBytes_length session seq msgs.length, List.drop_left]
  have hskip : skipBlocks msgs.length (blockBytes msgs) = .ok [] :=
    skipBlocks_eq_ok.mpr ⟨msgs, rfl, hall', (List.append_nil _).symm⟩
  refine ⟨⟨blockBytes msgs, 0, seq, msgs.length⟩, ?_, ?_⟩
  · rw [parse_of_data hhdr hkind, if_neg (by simp only; omega)]
    simp only [hbody, hskip, ne_eq, not_true_eq_false, if_false]
  · intro n hn
    have hsplit := splitBlocks_blockBytes hall'
    have hnum : numberWrapping seq msgs = number seq msgs := numberWrapping_eq (by omega)
    rw [MessageBlocks.collect_numbered (by rw [List.drop_zero, hsplit]) hn, List.drop_zero, hsplit,
      hnum]
    rfl

theorem numberedBlocks_data (seq : ℕ) (msgs : List (List UInt8)) :
    (numberedBlocks seq msgs).map MessageBlock.data = msgs := by
  induction msgs generalizing seq with
  | nil => rfl
  | cons m msgs ih =>
      simp only [numberedBlocks, number, List.map_cons] at ih ⊢
      rw [ih]

/-- A data packet that holds `n` messages is the encoding of the messages it yields. -/
theorem encode_data {buf : List UInt8} {hdr : Header} (hhdr : parseHeader buf = .ok hdr)
    (hskip : skipBlocks hdr.count (buf.drop HEADER_LEN) = .ok []) :
    ∃ msgs, msgs.length = hdr.count ∧ (∀ m ∈ msgs, m.length < 2 ^ 16) ∧
      buf = buildPacket hdr.session hdr.seq msgs ∧
      splitBlocks hdr.count (buf.drop HEADER_LEN) = (msgs, none) := by
  obtain ⟨msgs, hlen, hall, harea⟩ := skipBlocks_eq_ok.mp hskip
  rw [List.append_nil] at harea
  refine ⟨msgs, hlen, hall, ?_, ?_⟩
  · rw [buildPacket, hlen, headerBytes_of_parseHeader hhdr, ← harea, List.take_append_drop]
  · rw [harea, ← hlen]
    exact splitBlocks_blockBytes hall

/-- An accepted frame is the encoding of what it was parsed to. -/
theorem grammatical_of_parse {buf : List UInt8} {parsed : Parsed} (h : parse buf = .ok parsed) :
    parsed.Grammatical buf ∧ parsed.encode = buf := by
  obtain ⟨hdr, hhdr, hcases⟩ := parse_ok_cases h
  have hhead := headerBytes_of_parseHeader hhdr
  have hbound := (parseHeader_bounds hhdr).2
  rcases hcases with ⟨hkind, hspan, hskip, rfl⟩ | ⟨hc, hlen, rfl⟩ | ⟨hc, hlen, rfl⟩
  · obtain ⟨hc, he⟩ := Header.kind_eq_data.mp hkind
    obtain ⟨msgs, hlen, hall, hbuf, hsplit⟩ := encode_data hhdr hskip
    have henc : Encodable hdr.seq msgs := by
      simp only [HEARTBEAT_COUNT, EOS_COUNT] at hc he
      exact ⟨by omega, by omega, fun m hm => Nat.le_of_lt_succ (hall m hm), by omega⟩
    have hyield : (MessageBlocks.collect hdr.count
        ⟨buf.drop HEADER_LEN, 0, hdr.seq, hdr.count⟩).map MessageBlock.data = msgs := by
      rw [collect_eq (by rw [List.drop_zero, hsplit]), List.drop_zero, hsplit]
    refine ⟨⟨msgs, henc, hlen.symm, hbuf⟩, ?_⟩
    rw [Parsed.encode, hyield]
    exact hbuf.symm
  · refine ⟨⟨hc, hlen⟩, ?_⟩
    rw [Parsed.encode, makeHbFrame, ← hc, hhead, ← hlen, List.take_length]
  · refine ⟨⟨hc, hlen⟩, ?_⟩
    rw [Parsed.encode, makeEosFrame, ← hc, hhead, ← hlen, List.take_length]

/-- Parsing is the inverse of encoding and accepts exactly the grammar; any other frame is
reported under the first rule that it breaks. -/
theorem parse_inverse_of_encoding :
    (∀ (session : SessionId) (seq : ℕ) (msgs : List (List UInt8)), Encodable seq msgs →
      ∃ blocks, parse (buildPacket session seq msgs) =
          .ok (.data ⟨session, seq, msgs.length⟩ blocks) ∧
        ∀ n, msgs.length ≤ n → blocks.collect n = numberedBlocks seq msgs) ∧
    (∀ (buf : List UInt8) (parsed : Parsed), parse buf = .ok parsed →
      parsed.Grammatical buf ∧ parsed.encode = buf) ∧
    (∀ (buf : List UInt8) (e : FrameError),
      parse buf = .error e ↔ FirstViolated buf Rule.documentedOrder e) := by
  refine ⟨fun session seq msgs h => parse_encoding session h, ?_, fun buf => parse_eq_error⟩
  exact fun buf parsed h => grammatical_of_parse h

/-- A packet at the top of the range with an empty message, and an overrun behind one. -/
theorem parse_inverse_of_encoding_top :
    let session : SessionId := ⟨List.replicate 10 65, rfl⟩
    (∃ blocks, parse (buildPacket session (2 ^ 64 - 2) [[], [83]]) =
        .ok (.data ⟨session, 2 ^ 64 - 2, 2⟩ blocks) ∧
      blocks.collect 2 = [⟨2 ^ 64 - 2, []⟩, ⟨2 ^ 64 - 1, [83]⟩]) ∧
    (Parsed.heartbeat ⟨session, 7, 0⟩).encode = makeHbFrame session 7 ∧
    FirstViolated (headerBytes session 7 2 ++ blockBytes [[]]) Rule.documentedOrder
      .blockOverrun := by
  intro session
  obtain ⟨hencode, hdecode, herror⟩ := parse_inverse_of_encoding
  refine ⟨?_, ?_, ?_⟩
  · obtain ⟨blocks, hparse, hyield⟩ := hencode session (2 ^ 64 - 2) [[], [83]] (by decide)
    exact ⟨blocks, hparse, (hyield 2 le_rfl).trans (by decide)⟩
  · exact (hdecode _ _ (by decide)).2
  · exact (herror _ _).mp (by decide)

/-! ## Safety of the iterator -/

namespace MessageBlocks

/-- The accesses and sums of one call to `next`: two length bytes and the payload are read
inside the buffer, and `pos`, `start`, `end` and the next sequence number fit 64 bits. -/
def NextSafe (it : MessageBlocks) : Prop :=
  it.remaining ≠ 0 →
    let start := it.pos + 2
    let stop := start + fromBeBytes (slice it.buf it.pos (it.pos + 2))
    it.pos + 1 < it.buf.length ∧ stop ≤ it.buf.length ∧ start < 2 ^ 64 ∧ stop < 2 ^ 64 ∧
      it.nextSeq + 1 < 2 ^ 64

instance : DecidablePred NextSafe := fun _ => inferInstanceAs (Decidable (_ → _))

/-- The iterator before each of `n` calls. -/
@[grind =]
def states : ℕ → MessageBlocks → List MessageBlocks
  | 0, _ => []
  | n + 1, it =>
      it :: match it.next with
        | none => []
        | some (_, it') => states n it'

/-- Run to exhaustion, the iterator yields the announced number of blocks, numbered from the
header's sequence number, and they tile the bytes behind the header. -/
def Complete (buf : List UInt8) (hdr : Header) (it : MessageBlocks) : Prop :=
  ∀ n, hdr.count ≤ n → (it.collect n).length = hdr.count ∧
    (it.collect n).map MessageBlock.seq = List.range' hdr.seq hdr.count ∧
    blockBytes ((it.collect n).map MessageBlock.data) = buf.drop HEADER_LEN

/-- On an area that splits, calls are safe as long as the numbers are. -/
theorem states_safe {n k pos seq : ℕ} {area : List UInt8} (harea : area.length < 2 ^ 64)
    (h : (splitBlocks n (area.drop pos)).2 = none) (hseq : seq + n < 2 ^ 64) :
    ∀ it ∈ states k ⟨area, pos, seq, n⟩, it.NextSafe := by
  induction k generalizing n pos seq with
  | zero => nofun
  | succ k ih =>
      cases n with
      | zero =>
          intro it hit
          simp only [states, next, if_true, List.mem_singleton] at hit
          rw [hit]
          exact fun hne => absurd rfl hne
      | succ n =>
          obtain ⟨hstop, hsplit⟩ := splitBlocks_succ h
          rw [hsplit] at h
          have hadd : wrappingAdd seq 1 = seq + 1 := wrappingAdd_of_lt (by omega)
          simp only [states, next, if_neg (Nat.succ_ne_zero n), Nat.add_sub_cancel,
            List.forall_mem_cons]
          refine ⟨fun _ => ⟨?_, hstop, ?_, ?_, ?_⟩, ?_⟩
          · show pos + 1 < area.length
            omega
          · show pos + 2 < 2 ^ 64
            omega
          · exact Nat.lt_of_le_of_lt hstop harea
          · show seq + 1 < 2 ^ 64
            omega
          · rw [hadd]
            exact ih h (by omega)

/-- The call that yields the last block counts past its number. -/
theorem lt_of_states_safe {n pos seq : ℕ} {area : List UInt8}
    (h : ∀ it ∈ states (n + 1) ⟨area, pos, seq, n + 1⟩, it.NextSafe) :
    seq + (n + 1) < 2 ^ 64 := by
  induction n generalizing pos seq with
  | zero =>
      obtain ⟨hsafe, -⟩ := List.forall_mem_cons.mp h
      exact (hsafe (Nat.succ_ne_zero 0)).2.2.2.2
  | succ n ih =>
      rw [states] at h
      obtain ⟨hsafe, hrest⟩ := List.forall_mem_cons.mp h
      have hone : seq + 1 < 2 ^ 64 := (hsafe (Nat.succ_ne_zero _)).2.2.2.2
      simp only [next, if_neg (Nat.succ_ne_zero _), Nat.add_sub_cancel,
        wrappingAdd_of_lt hone] at hrest
      have := ih hrest
      omega

/-- The iterator that `parse` hands out, on an area that is known to split. -/
theorem of_parse {buf : List UInt8} {hdr : Header} {it : MessageBlocks}
    (h : parse buf = .ok (.data hdr it)) :
    parseHeader buf = .ok hdr ∧ hdr.kind = .data ∧ hdr.seq + (hdr.count - 1) < 2 ^ 64 ∧
      skipBlocks hdr.count (buf.drop HEADER_LEN) = .ok [] ∧
      it = ⟨buf.drop HEADER_LEN, 0, hdr.seq, hdr.count⟩ := by
  obtain ⟨hdr', hhdr, ⟨hkind, hspan, hskip, heq⟩ | ⟨-, -, heq⟩ | ⟨-, -, heq⟩⟩ := parse_ok_cases h
  · cases heq
    exact ⟨hhdr, hkind, hspan, hskip, rfl⟩
  · cases heq
  · cases heq

theorem complete_of_parse {buf : List UInt8} {hdr : Header} {it : MessageBlocks}
    (h : parse buf = .ok (.data hdr it)) : it.Complete buf hdr := by
  obtain ⟨hhdr, hkind, hspan, hskip, rfl⟩ := of_parse h
  obtain ⟨msgs, hlen, -, hbuf, hsplit⟩ := encode_data hhdr hskip
  have hpos : 0 < hdr.count := Nat.pos_of_ne_zero (Header.kind_eq_data.mp hkind).1
  have hnum : numberWrapping hdr.seq msgs = number hdr.seq msgs := numberWrapping_eq (by omega)
  intro n hn
  have hcol : MessageBlocks.collect n ⟨buf.drop HEADER_LEN, 0, hdr.seq, hdr.count⟩ =
      numberedBlocks hdr.seq msgs := by
    rw [collect_numbered (by rw [List.drop_zero, hsplit]) hn, List.drop_zero, hsplit, hnum]
    rfl
  rw [hcol]
  refine ⟨?_, ?_, ?_⟩
  · rw [numberedBlocks, List.length_map, number_length, hlen]
  · have hfst := number_fst hdr.seq msgs
    rw [hlen] at hfst
    rw [numberedBlocks, List.map_map]
    exact hfst
  · rw [numberedBlocks_data]
    conv_rhs => rw [hbuf]
    rw [buildPacket, ← headerBytes_length hdr.session hdr.seq msgs.length, List.drop_left]

/-- Iterating an accepted packet is complete, and its accesses and sums are safe exactly
when the number behind the last message is a 64-bit value. -/
theorem iteration_safe_iff (buf : List UInt8) (hlen : buf.length < 2 ^ 64) (hdr : Header)
    (it : MessageBlocks) (h : parse buf = .ok (.data hdr it)) :
    (it.Complete buf hdr ∧ ∀ n, ∀ it' ∈ it.states n, it'.NextSafe) ↔
      hdr.seq + hdr.count < 2 ^ 64 := by
  have hcomplete := complete_of_parse h
  obtain ⟨hhdr, hkind, -, hskip, rfl⟩ := of_parse h
  obtain ⟨msgs, -, -, -, hsplit⟩ := encode_data hhdr hskip
  have harea : (buf.drop HEADER_LEN).length < 2 ^ 64 := by
    rw [List.length_drop]
    omega
  constructor
  · rintro ⟨-, hsafe⟩
    obtain ⟨n, hn⟩ := Nat.exists_eq_succ_of_ne_zero (Header.kind_eq_data.mp hkind).1
    rw [hn] at hsafe ⊢
    exact lt_of_states_safe (hsafe (n + 1))
  · intro hseq
    refine ⟨hcomplete, fun n => states_safe harea ?_ hseq⟩
    rw [List.drop_zero, hsplit]

/-- The packet of one empty message with the last sequence number of all. -/
def lastPacket : List UInt8 := headerBytes (SessionId.repeated 65) (2 ^ 64 - 1) 1 ++ [0, 0]

theorem iteration_safe_iff_first :
    ∃ buf hdr it, parse buf = .ok (.data hdr it) ∧ hdr.seq = 7 ∧
      ∀ n, ∀ it' ∈ it.states n, it'.NextSafe := by
  let session : SessionId := ⟨List.replicate 10 65, rfl⟩
  refine ⟨headerBytes session 7 1 ++ [0, 0], ⟨session, 7, 1⟩, ⟨[0, 0], 0, 7, 1⟩,
    by decide, rfl, ?_⟩
  exact ((iteration_safe_iff (headerBytes session 7 1 ++ [0, 0]) (by decide) ⟨session, 7, 1⟩
    ⟨[0, 0], 0, 7, 1⟩ (by decide)).mpr (by decide)).2

/-- The last number is in the span of the packet, and counting past it overflows. -/
theorem last_number_overflows :
    ¬∀ (buf : List UInt8) (hdr : Header) (it : MessageBlocks), buf.length < 2 ^ 64 →
      parse buf = .ok (.data hdr it) →
      it.Complete buf hdr ∧ ∀ n, ∀ it' ∈ it.states n, it'.NextSafe := by
  intro h
  let hdr : Header := ⟨⟨List.replicate 10 65, rfl⟩, 2 ^ 64 - 1, 1⟩
  have hsafe := (h lastPacket hdr ⟨[0, 0], 0, 2 ^ 64 - 1, 1⟩ (by decide) (by decide)).2
    1 ⟨[0, 0], 0, 2 ^ 64 - 1, 1⟩ List.mem_cons_self
  exact absurd hsafe (by decide)

end MessageBlocks

end HftProj.Protocol.Moldudp64
