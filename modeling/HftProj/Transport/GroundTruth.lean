import HftProj.Protocol.RoundTrip
import HftProj.Transport.Schedule

/-!
# The messages of the ground truth

The block area of a list of messages, read where a message of it starts. Every byte slice starts
with the block area of its complete messages.
-/

namespace HftProj.Transport

open HftProj.Lib HftProj.Protocol.Moldudp64

section GroundTruth

variable {pre rest : List (List UInt8)}

theorem blockBytes_append (xs ys : List (List UInt8)) :
    blockBytes (xs ++ ys) = blockBytes xs ++ blockBytes ys := List.flatMap_append

theorem blockBytes_cons_length (m : List UInt8) (ms : List (List UInt8)) :
    (blockBytes (m :: ms)).length = 2 + m.length + (blockBytes ms).length := by
  rw [blockBytes_cons, List.length_append, List.length_append, toBeBytes_length, Nat.add_assoc]

theorem length_le_blockBytes (ms : List (List UInt8)) : ms.length ≤ (blockBytes ms).length := by
  induction ms with
  | nil => exact Nat.le_refl 0
  | cons m ms ih =>
      rw [List.length_cons, blockBytes_cons_length]
      omega

variable (pre rest) in
/-- A message of the ground truth, where it stands. -/
theorem block_at {m : List UInt8} (hm : m.length < 2 ^ 16) :
    prefixedLen (blockBytes (pre ++ m :: rest)) (blockBytes pre).length = 2 + m.length ∧
      slice (blockBytes (pre ++ m :: rest)) (blockBytes pre).length
        ((blockBytes pre).length + (2 + m.length)) = blockBytes [m] := by
  have hblock : (blockBytes [m]).length = 2 + m.length := blockBytes_cons_length m []
  have hprefix : blockBytes (pre ++ m :: rest) =
      (blockBytes pre ++ toBeBytes 2 m.length) ++ (m ++ blockBytes rest) := by
    rw [blockBytes_append, blockBytes_cons, List.append_assoc]
  constructor
  · have hfield := slice_append_right (blockBytes pre) (toBeBytes 2 m.length)
    rw [toBeBytes_length] at hfield
    rw [prefixedLen, hprefix, slice_append_left (by rw [List.length_append, toBeBytes_length]),
      hfield, fromBeBytes_toBeBytes hm]
  · have hwhole : blockBytes (pre ++ m :: rest) =
        (blockBytes pre ++ blockBytes [m]) ++ blockBytes rest := by
      rw [← blockBytes_append, ← blockBytes_append, List.append_assoc, List.singleton_append]
    rw [hwhole, ← hblock, slice_append_left (by rw [List.length_append]), slice_append_right]

end GroundTruth

/-! ## Complete messages -/

/-- The complete messages, from a position on. -/
@[grind =]
def messagesFrom (gt : List UInt8) : ℕ → ℕ → List (List UInt8)
  | 0, _ => []
  | fuel + 1, pos =>
      if gt.length < pos + 2 then []
      else if gt.length < pos + prefixedLen gt pos then []
      else slice gt (pos + 2) (pos + prefixedLen gt pos) ::
        messagesFrom gt fuel (pos + prefixedLen gt pos)

/-- The message behind its length prefix. -/
theorem drop_message {gt : List UInt8} {pos : ℕ} (h : pos + prefixedLen gt pos ≤ gt.length) :
    let m := slice gt (pos + 2) (pos + prefixedLen gt pos)
    m.length < 2 ^ 16 ∧ m.length + 2 = prefixedLen gt pos ∧
      gt.drop pos = toBeBytes 2 m.length ++ m ++ gt.drop (pos + prefixedLen gt pos) := by
  intro m
  have htwo := prefixedLen_pos gt pos
  have hfield : (slice gt pos (pos + 2)).length = 2 := by
    rw [slice_length (by omega), Nat.add_sub_cancel_left]
  have hlt := fromBeBytes_lt (slice gt pos (pos + 2))
  rw [hfield] at hlt
  have hlen : m.length = fromBeBytes (slice gt pos (pos + 2)) := by
    rw [slice_length h, prefixedLen]
    omega
  have hbytes := toBeBytes_fromBeBytes (slice gt pos (pos + 2))
  rw [hfield, ← hlen] at hbytes
  refine ⟨hlen ▸ hlt, ?_, ?_⟩
  · rw [hlen, Nat.add_comm]
    rfl
  · rw [hbytes, slice_split _ (by omega) (by omega), slice, ← List.drop_drop,
      Nat.add_sub_cancel_left, List.take_append_drop]

/-- The complete messages stand at the front of the rest. -/
theorem messagesFrom_spec (gt : List UInt8) (fuel pos : ℕ) :
    (∀ m ∈ messagesFrom gt fuel pos, m.length < 2 ^ 16) ∧
      ∃ tail, gt.drop pos = blockBytes (messagesFrom gt fuel pos) ++ tail := by
  induction fuel generalizing pos with
  | zero => exact ⟨nofun, gt.drop pos, rfl⟩
  | succ fuel ih =>
      rw [messagesFrom]
      split
      · exact ⟨nofun, gt.drop pos, rfl⟩
      · split
        · exact ⟨nofun, gt.drop pos, rfl⟩
        · rename_i hbody
          obtain ⟨hlens, tail, htail⟩ := ih (pos + prefixedLen gt pos)
          obtain ⟨hlt, -, hdrop⟩ := drop_message (Nat.not_lt.mp hbody)
          refine ⟨List.forall_mem_cons.mpr ⟨hlt, hlens⟩, tail, ?_⟩
          rw [hdrop, htail, blockBytes_cons, List.append_assoc, List.append_assoc,
            List.append_assoc]

section Payload

variable {pre chunk rest : List (List UInt8)} {tail : List UInt8}

/-- Skipping messages leads behind their block area. -/
theorem skipMsgs_blocks (hlen : ∀ m ∈ chunk, m.length < 2 ^ 16) :
    skipMsgs (blockBytes (pre ++ chunk ++ rest) ++ tail) chunk.length (blockBytes pre).length =
      some (blockBytes (pre ++ chunk)).length := by
  induction chunk generalizing pre with
  | nil => rw [List.append_nil]; rfl
  | cons m chunk ih =>
      have hm : m.length < 2 ^ 16 := hlen m (List.mem_cons_self ..)
      have hblock := (block_at pre (chunk ++ rest) hm).1
      have hroom : (blockBytes pre).length + 2 ≤
          (blockBytes (pre ++ m :: (chunk ++ rest))).length := by
        rw [blockBytes_append, List.length_append, blockBytes_cons_length]
        omega
      have hlong : ¬ (blockBytes (pre ++ m :: (chunk ++ rest)) ++ tail).length <
          (blockBytes pre).length + 2 := by
        rw [List.length_append]
        omega
      have hnext : (blockBytes (pre ++ [m])).length = (blockBytes pre).length + (2 + m.length) := by
        rw [blockBytes_append, List.length_append, blockBytes_cons_length]
        rfl
      have hrun := @ih (pre ++ [m]) fun l hl => hlen l (List.mem_cons_of_mem _ hl)
      rw [hnext, List.append_assoc, List.append_assoc, List.append_assoc, List.singleton_append,
        List.singleton_append] at hrun
      rw [List.length_cons, skipMsgs, List.append_assoc, List.cons_append, if_neg hlong,
        prefixedLen, slice_append_left hroom, ← prefixedLen, hblock]
      exact hrun

/-- The payload of a packet is the block area of its messages. -/
theorem payload_blocks {msgs : List (List UInt8)} (hlen : ∀ m ∈ msgs, m.length < 2 ^ 16)
    (tail : List UInt8) {first count : ℕ} (hle : first + count ≤ msgs.length) :
    payload (blockBytes msgs ++ tail) first count =
      some (blockBytes ((msgs.drop first).take count)) := by
  let pre := msgs.take first
  let chunk := (msgs.drop first).take count
  have hpre : pre.length = first := List.length_take_of_le (by omega)
  have hchunk : chunk.length = count := by
    rw [List.length_take_of_le]
    rw [List.length_drop]
    omega
  have hsplit : pre ++ chunk ++ (msgs.drop first).drop count = msgs := by
    rw [List.append_assoc, List.take_append_drop, List.take_append_drop]
  have hstart : msgOffset (blockBytes msgs ++ tail) first = some (blockBytes pre).length := by
    have hskip := @skipMsgs_blocks [] pre (chunk ++ (msgs.drop first).drop count) tail
      fun m hm => hlen m (List.mem_of_mem_take hm)
    rw [List.nil_append, ← List.append_assoc, hsplit, hpre] at hskip
    exact hskip
  have hstop : skipMsgs (blockBytes msgs ++ tail) count (blockBytes pre).length =
      some (blockBytes (pre ++ chunk)).length := by
    have hskip := @skipMsgs_blocks pre chunk ((msgs.drop first).drop count) tail
      fun m hm => hlen m (List.mem_of_mem_drop (List.mem_of_mem_take hm))
    rw [hsplit, hchunk] at hskip
    exact hskip
  have hwhole : blockBytes msgs ++ tail = (blockBytes pre ++ blockBytes chunk) ++
      (blockBytes ((msgs.drop first).drop count) ++ tail) := by
    rw [← blockBytes_append, ← List.append_assoc, ← blockBytes_append, hsplit]
  have hbytes : (blockBytes (pre ++ chunk)).length =
      (blockBytes pre).length + (blockBytes chunk).length := by
    rw [blockBytes_append, List.length_append]
  have hlength : (blockBytes msgs ++ tail).length = (blockBytes pre).length +
      (blockBytes chunk).length + (blockBytes ((msgs.drop first).drop count) ++ tail).length := by
    rw [hwhole, List.length_append, List.length_append]
  rw [payload, hstart]
  simp only [Option.bind_eq_bind, Option.bind_some, hstop]
  rw [if_pos ⟨by omega, by omega⟩, hbytes, hwhole,
    slice_append_left (by rw [List.length_append]), slice_append_right]

end Payload

end HftProj.Transport
