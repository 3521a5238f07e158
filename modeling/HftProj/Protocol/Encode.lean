import HftProj.Protocol.Packet

/-!
# Building frames

The frame builders of the test suites. Parsing a built packet gives back its
header and its payloads, so the builders reach every shape the parser accepts.
-/

namespace HftProj.Protocol.Moldudp64

open HftProj.Lib Packet

/-- The `n` bytes of a value, most significant byte first. -/
@[grind =]
def toBeBytes : ℕ → ℕ → List UInt8
  | 0, _ => []
  | n + 1, x => toBeBytes n (x / 256) ++ [UInt8.ofNat (x % 256)]

/-- Header bytes for an arbitrary count. -/
def headerBytes (session : SessionId) (seq count : ℕ) : List UInt8 :=
  session.1 ++ (toBeBytes 8 seq ++ toBeBytes 2 count)

/-- The block area of a list of messages. -/
def blockBytes (msgs : List (List UInt8)) : List UInt8 :=
  msgs.flatMap fun msg => toBeBytes 2 msg.length ++ msg

def buildPacket (session : SessionId) (seq : ℕ) (msgs : List (List UInt8)) : List UInt8 :=
  headerBytes session seq msgs.length ++ blockBytes msgs

def makeHbFrame (session : SessionId) (nextSeq : ℕ) : List UInt8 :=
  headerBytes session nextSeq HEARTBEAT_COUNT

def makeEosFrame (session : SessionId) (nextSeq : ℕ) : List UInt8 :=
  headerBytes session nextSeq EOS_COUNT

/-- A 12-byte System Event message with a number embedded in it. -/
def makeMsgS (seq : ℕ) : List UInt8 :=
  'S'.toUInt8 :: (toBeBytes 8 seq ++ [0, 0, 'O'.toUInt8])

def makeFrame (session : SessionId) (firstSeq count : ℕ) : List UInt8 :=
  buildPacket session firstSeq ((List.range count).map fun k => makeMsgS (firstSeq + k))

def REQUEST_LEN : ℕ := 20

/-- A retransmission request for `count` messages. -/
def encodeRequest (session : SessionId) (fromSeq count : ℕ) : List UInt8 :=
  session.1 ++ (toBeBytes 8 fromSeq ++ toBeBytes 2 count)

structure Request where
  session : SessionId
  fromSeq : ℕ
  count : ℕ
  deriving DecidableEq

theorem take_session {buf : List UInt8} (h : ¬ buf.length < REQUEST_LEN) :
    (buf.take 10).length = 10 := by
  unfold REQUEST_LEN at h
  rw [List.length_take]
  omega

/-- What a retransmission server reads out of a datagram. -/
def decodeRequest (buf : List UInt8) : Option Request :=
  if h : buf.length < REQUEST_LEN then none
  else some
    { session := ⟨buf.take 10, take_session h⟩
      fromSeq := fromBeBytes (slice buf 10 18)
      count := fromBeBytes (slice buf 18 20) }

@[simp] theorem toBeBytes_length (n x : ℕ) : (toBeBytes n x).length = n := by
  induction n generalizing x with
  | zero => rfl
  | succ n ih => simp [toBeBytes, ih]

theorem fromBeBytes_toBeBytes {n x : ℕ} (h : x < 256 ^ n) :
    fromBeBytes (toBeBytes n x) = x := by
  induction n generalizing x with
  | zero => simp [toBeBytes, fromBeBytes] at h ⊢; omega
  | succ n ih =>
      have hdiv : x / 256 < 256 ^ n := by
        rw [pow_succ] at h
        exact Nat.div_lt_of_lt_mul (by omega)
      have hmod : (UInt8.ofNat (x % 256)).toNat = x % 256 := by
        simp
      have hrest := ih hdiv
      simp only [fromBeBytes] at hrest
      simp only [toBeBytes, fromBeBytes, List.foldl_append, List.foldl_cons, List.foldl_nil,
        hrest, hmod]
      omega

theorem parseHeader_headerBytes (session : SessionId) {seq count : ℕ} (hseq : seq < 2 ^ 64)
    (hcount : count < 2 ^ 16) (body : List UInt8) :
    parseHeader (headerBytes session seq count ++ body) = .ok ⟨session, seq, count⟩ := by
  have hsession := session.2
  have hlen : ¬(headerBytes session seq count ++ body).length < HEADER_LEN := by
    simp [headerBytes, hsession, HEADER_LEN]
    omega
  have h₁ : (headerBytes session seq count ++ body).take 10 = session.1 := by
    simp [headerBytes, ← hsession]
  have hdrop : (headerBytes session seq count ++ body).drop 10 =
      toBeBytes 8 seq ++ (toBeBytes 2 count ++ body) := by
    simp [headerBytes, ← hsession]
  have h₂ : slice (headerBytes session seq count ++ body) 10 18 = toBeBytes 8 seq := by
    rw [slice, hdrop, List.take_append_of_le_length (by simp), List.take_of_length_le (by simp)]
  have h₃ : slice (headerBytes session seq count ++ body) 18 20 = toBeBytes 2 count := by
    rw [slice, show (18 : ℕ) = 10 + 8 from rfl, ← List.drop_drop, hdrop,
      List.drop_append_of_le_length (by simp), List.drop_of_length_le (by simp),
      List.nil_append, List.take_append_of_le_length (by simp), List.take_of_length_le (by simp)]
  unfold parseHeader
  rw [dif_neg hlen]
  simp only [h₁, h₂, h₃, fromBeBytes_toBeBytes (n := 8) hseq, fromBeBytes_toBeBytes (n := 2) hcount]

/-- A request is laid out like a header. -/
theorem decodeRequest_eq (buf : List UInt8) :
    decodeRequest buf = (parseHeader buf).toOption.map fun h => ⟨h.session, h.seq, h.count⟩ := by
  unfold decodeRequest parseHeader
  change (if h : buf.length < HEADER_LEN then _ else _) = _
  split <;> rfl

/-- A server decodes what was asked for. -/
theorem decodeRequest_encodeRequest (session : SessionId) {fromSeq count : ℕ}
    (hseq : fromSeq < 2 ^ 64) (hcount : count < 2 ^ 16) :
    decodeRequest (encodeRequest session fromSeq count) = some ⟨session, fromSeq, count⟩ := by
  have hparse := parseHeader_headerBytes session hseq hcount []
  rw [List.append_nil] at hparse
  rw [decodeRequest_eq, show encodeRequest session fromSeq count =
    headerBytes session fromSeq count from rfl, hparse]
  rfl

/-- The grammar recovers the messages of a block area. -/
theorem splitBlocks_blockBytes {msgs : List (List UInt8)} (h : ∀ m ∈ msgs, m.length < 2 ^ 16) :
    splitBlocks msgs.length (blockBytes msgs) = (msgs, none) := by
  induction msgs with
  | nil => rfl
  | cons m msgs ih =>
      have hm : m.length < 256 ^ 2 := h m (by simp)
      have hrest := ih fun x hx => h x (List.mem_cons_of_mem _ hx)
      have hbytes : blockBytes (m :: msgs) = toBeBytes 2 m.length ++ (m ++ blockBytes msgs) := by
        simp [blockBytes]
      have htake : (toBeBytes 2 m.length ++ (m ++ blockBytes msgs)).take 2 =
          toBeBytes 2 m.length := by
        rw [List.take_append_of_le_length (by simp), List.take_of_length_le (by simp)]
      have hdrop : (toBeBytes 2 m.length ++ (m ++ blockBytes msgs)).drop 2 =
          m ++ blockBytes msgs := by
        rw [List.drop_append_of_le_length (by simp), List.drop_of_length_le (by simp),
          List.nil_append]
      have hlen : (toBeBytes 2 m.length ++ (m ++ blockBytes msgs)).length =
          2 + (m.length + (blockBytes msgs).length) := by
        rw [List.length_append, List.length_append, toBeBytes_length]
      rw [hbytes, List.length_cons, splitBlocks, htake, fromBeBytes_toBeBytes hm, hlen,
        if_neg (by omega), if_neg (by omega), ← List.drop_drop, slice, hdrop,
        Nat.add_sub_cancel_left]
      simp [hrest]

/-- Building and parsing a packet gives back its header and its numbered messages. -/
theorem parse_buildPacket (session : SessionId) {seq : ℕ} {msgs : List (List UInt8)}
    (hseq : seq < 2 ^ 64) (hlast : seq + msgs.length ≤ 2 ^ 64) (hcount : msgs.length < 2 ^ 16)
    (h : ∀ m ∈ msgs, m.length < 2 ^ 16) :
    parseHeader (buildPacket session seq msgs) = .ok ⟨session, seq, msgs.length⟩ ∧
      headerBlocks (buildPacket session seq msgs) ⟨session, seq, msgs.length⟩ =
        number seq msgs := by
  have hsession := session.2
  have hbody : (buildPacket session seq msgs).drop HEADER_LEN = blockBytes msgs := by
    have hlen : (headerBytes session seq msgs.length).length = HEADER_LEN := by
      simp [headerBytes, hsession, HEADER_LEN]
    rw [buildPacket, ← hlen, List.drop_left]
  refine ⟨parseHeader_headerBytes session hseq hcount _, ?_⟩
  rw [headerBlocks_eq hlast, hbody, splitBlocks_blockBytes h]

end HftProj.Protocol.Moldudp64
