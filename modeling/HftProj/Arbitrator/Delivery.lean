import HftProj.Arbitrator.Offers
import HftProj.Protocol.Encode

/-!
# Exactly-once, in-order delivery

Over accepted frames of non-zero sessions, a visit delivers the consecutive numbers
from its anchor up to the watermark, each with a payload carried for that number by a
frame of the visit. The anchor is the first number of the first data frame, unless the
visit ended or the sequencer was sealed before it.
-/

namespace HftProj.Arbitrator

open HftProj.Lib HftProj.Protocol HftProj.Protocol.Moldudp64 HftProj.Protocol.Packet

/-- How a visit opens: still without a data frame, ended or sealed before any, or
anchored at the first number of its first data frame. -/
inductive Opening where
  | waiting
  | closed
  | anchored (first : ℕ)
  deriving DecidableEq

def Opening.next : Opening → Input → Opening
  | .waiting, .frame bytes _ _ =>
      match parseHeader bytes with
      | .ok hdr =>
          if hdr.count = HEARTBEAT_COUNT then .waiting
          else if hdr.count = EOS_COUNT then .closed
          else .anchored hdr.seq
      | .error _ => .waiting
  | .waiting, .sealDead _ => .closed
  | opening, _ => opening

def opening (visit : List Input) : Opening := visit.foldl Opening.next .waiting

theorem opening_snoc (visit : List Input) (i : Input) :
    opening (visit ++ [i]) = (opening visit).next i := by
  simp [opening, List.foldl_append]

/-- A frame that `validateFrame` accepts, of a non-zero session, clear of the top of the
range; and every other call. -/
def Input.Admissible : Input → Prop
  | .frame bytes _ _ => Accepted bytes ∧ ∀ hdr, parseHeader bytes = .ok hdr →
      hdr.seq < 2 ^ 64 - 2 ^ 17 ∧ hdr.session ≠ zeroSession
  | _ => True

instance : DecidablePred Input.Admissible
  | .frame bytes _ _ =>
      inferInstanceAs (Decidable (Accepted bytes ∧ ∀ hdr, parseHeader bytes = .ok hdr →
        hdr.seq < 2 ^ 64 - 2 ^ 17 ∧ hdr.session ≠ zeroSession))
  | .recoveryIntent _ => isTrue trivial
  | .sealDead _ => isTrue trivial

theorem Input.Admissible.inRange {i : Input} (h : i.Admissible) : i.InRange := by
  cases i with
  | frame bytes feed nowNs => exact fun hdr hhdr => (h.2 hdr hhdr).1
  | recoveryIntent nowNs => trivial
  | sealDead reason => trivial

namespace Sequencer

/-- No block of the visit was dropped: none fell outside the window, and neither an end of
session nor a seal shut the frames out. -/
structure Lossless (s : Sequencer) : Prop where
  dropped : s.dropped = 0
  notEnded : s.state ≠ .ended
  notDead : s.state ≠ .dead

/-- An anchored visit: what was delivered is the exact stream from the anchor to the
watermark, everything delivered or staged was carried in the visit, and whatever was carried
was delivered or is staged, unless it was dropped. -/
structure Stream (visit : List Input) (s : Sequencer) (anchor : ℕ)
    (msgs : List (ℕ × List UInt8)) : Prop where
  started : s.state ≠ .init
  adopted : s.session ≠ zeroSession
  exact : ∃ b, s.Shows b ∧ b.Exact anchor msgs ∧
    b.Sourced (fun q d => (q, d) ∈ carried visit s.session) ∧
    (∀ m ∈ msgs, m ∈ carried visit s.session) ∧
    (s.Lossless → b.Complete (carried visit s.session))

/-- What a visit has delivered so far, by how it opened. -/
structure Delivered (visit : List Input) (s : Sequencer) (calls : List SinkCall) : Prop where
  coherent : s.Coherent
  waiting : opening visit = .waiting →
    s.state = .init ∧ messages calls = [] ∧ ∀ session, carried visit session = []
  closed : opening visit = .closed →
    (s.state = .ended ∨ s.state = .dead) ∧ messages calls = []
  anchored : ∀ a, opening visit = .anchored a → Stream visit s a (messages calls)

/-- What `ingest` does with a frame that has a header. -/
theorem ingest_frame (s : Sequencer) {frame : List UInt8} {hdr : Header}
    (hhdr : parseHeader frame = .ok hdr) (feed : FeedId) (nowNs : ℕ) :
    (s.state = .dead ∧ (s.ingest frame feed nowNs).1.core = s.core ∧
        (s.ingest frame feed nowNs).2 = [] ∧
        (s.ingest frame feed nowNs).1.dropped = s.dropped) ∨
      (s.state ≠ .dead ∧ ∃ t calls, Dispatched hdr.session s calls t ∧ t.dropped = s.dropped ∧
        s.ingest frame feed nowNs = ((t.ingestKind frame hdr feed nowNs).1,
          calls ++ (t.ingestKind frame hdr feed nowNs).2)) := by
  have hcount := s.countPacket_core frame feed
  have hlen : ¬frame.length < HEADER_LEN := Nat.not_lt.mpr (parseHeader_ok hhdr).1
  unfold ingest
  simp only [if_neg hlen, hhdr]
  rw [← state_of_core hcount]
  by_cases hdead : (s.countPacket frame feed).state = .dead
  · rw [if_pos hdead]
    exact Or.inl ⟨hdead, hcount, rfl, dropped_of_tally (s.countPacket_tally frame feed)⟩
  · rw [if_neg hdead]
    exact Or.inr ⟨hdead, _, _, (dispatchSession_dispatched _ hdr.session).congr hcount,
      dropped_of_tally ((dispatchSession_tally _ _).trans (s.countPacket_tally frame feed)), rfl⟩

section Visit

variable {visit : List Input} {s t : Sequencer} {calls : List SinkCall} {anchor : ℕ}
  {msgs : List (ℕ × List UInt8)}

theorem carried_snoc (visit : List Input) (i : Input) (session : SessionId) :
    carried (visit ++ [i]) session = carried visit session ++ Input.blocks session i := by
  rw [carried_append]
  simp [carried]

theorem Stream.of_shows (h : Stream visit s anchor msgs) (i : Input)
    (hshows : ∀ b, s.Shows b → t.Shows b) (hsess : t.session = s.session)
    (hst : t.state ≠ .init)
    (hlost : t.Lossless → s.Lossless ∧ ∀ m ∈ Input.blocks s.session i, m.1 < s.w) :
    Stream (visit ++ [i]) t anchor msgs := by
  obtain ⟨b, hb, hex, hsrc, hmsgs, hcomp⟩ := h.exact
  refine ⟨hst, by rw [hsess]; exact h.adopted, b, hshows b hb, hex, ?_, ?_, ?_⟩
  · intro q d hq
    rw [hsess, carried_snoc]
    exact List.mem_append_left _ (hsrc q d hq)
  · intro m hm
    rw [hsess, carried_snoc]
    exact List.mem_append_left _ (hmsgs m hm)
  · intro ht q d hq hle
    obtain ⟨hs, hold⟩ := hlost ht
    rw [hsess, carried_snoc] at hq
    rcases List.mem_append.mp hq with hq | hq
    · exact hcomp hs q d hq hle
    · have := hold _ hq
      rw [hb.w] at this
      exact absurd hle (Nat.not_le.mpr this)

/-- A quiet call: nothing delivered, the window and the session untouched. -/
theorem Delivered.quiet (h : Delivered visit s calls) {i : Input} {more : List SinkCall}
    (hshows : ∀ b, s.Shows b → t.Shows b) (hsess : t.session = s.session)
    (hmore : messages more = [])
    (hlost : t.Lossless → s.Lossless ∧ ∀ m ∈ Input.blocks s.session i, m.1 < s.w)
    (hwait : opening visit = .waiting →
      opening (visit ++ [i]) = .waiting ∧ t.state = .init ∧
          (∀ session, Input.blocks session i = []) ∨
        opening (visit ++ [i]) = .closed ∧ (t.state = .ended ∨ t.state = .dead))
    (hclosed : s.state = .ended ∨ s.state = .dead → t.state = .ended ∨ t.state = .dead)
    (hstarted : s.state ≠ .init → t.state ≠ .init) :
    Delivered (visit ++ [i]) t (calls ++ more) := by
  have hcoh := (hshows _ h.coherent.shows).coherent
  have hmsgs : messages (calls ++ more) = messages calls := by
    rw [messages_append, hmore, List.append_nil]
  cases ho : opening visit with
  | waiting =>
      obtain ⟨-, hnone, hcar⟩ := h.waiting ho
      rcases hwait ho with ⟨hn, hst, hblocks⟩ | ⟨hn, hst⟩
      · refine ⟨hcoh, fun _ => ⟨hst, hmsgs.trans hnone, fun session => ?_⟩,
          fun hc => by simp [hn] at hc, fun a ha => by simp [hn] at ha⟩
        rw [carried_snoc, hcar, hblocks]
        rfl
      · exact ⟨hcoh, fun hc => by simp [hn] at hc, fun _ => ⟨hst, hmsgs.trans hnone⟩,
          fun a ha => by simp [hn] at ha⟩
  | closed =>
      obtain ⟨hst, hnone⟩ := h.closed ho
      have hn : opening (visit ++ [i]) = .closed := by rw [opening_snoc, ho]; rfl
      exact ⟨hcoh, fun hc => by simp [hn] at hc, fun _ => ⟨hclosed hst, hmsgs.trans hnone⟩,
        fun a ha => by simp [hn] at ha⟩
  | anchored a =>
      have hstream := h.anchored a ho
      have hn : opening (visit ++ [i]) = .anchored a := by rw [opening_snoc, ho]; rfl
      refine ⟨hcoh, fun hc => by simp [hn] at hc, fun hc => by simp [hn] at hc, ?_⟩
      intro a' ha'
      obtain rfl : a = a' := by simpa [hn] using ha'
      rw [hmsgs]
      exact hstream.of_shows i hshows hsess (hstarted hstream.started) hlost

/-- A call that only takes notes, made when the visit is no longer waiting or by an input
that does not open it. -/
theorem Delivered.note (h : Delivered visit s calls) {i : Input} (ht : t.core = s.core)
    (hlost : t.Lossless → s.Lossless ∧ ∀ m ∈ Input.blocks s.session i, m.1 < s.w)
    (hwait : opening visit = .waiting → opening (visit ++ [i]) = .waiting ∧
      ∀ session, Input.blocks session i = []) :
    Delivered (visit ++ [i]) t (calls ++ []) := by
  have hst := state_of_core ht
  apply h.quiet (fun b hb => hb.of_core ht) (session_of_core ht) rfl hlost
  · exact fun ho => Or.inl ⟨(hwait ho).1, hst.trans (h.waiting ho).1, (hwait ho).2⟩
  · exact fun hs => by rwa [hst]
  · exact fun hs => by rwa [hst]

/-- The opening of a visit that is neither at its start nor closed. -/
theorem Delivered.opening_anchored (h : Delivered visit s calls) (h₁ : s.state ≠ .init)
    (h₂ : s.state ≠ .ended) (h₃ : s.state ≠ .dead) : ∃ a, opening visit = .anchored a := by
  cases ho : opening visit with
  | waiting => exact absurd (h.waiting ho).1 h₁
  | closed =>
      rcases (h.closed ho).1 with hs | hs
      · exact absurd hs h₂
      · exact absurd hs h₃
  | anchored a => exact ⟨a, rfl⟩

theorem Delivered.opening_waiting (h : Delivered visit s calls) (hinit : s.state = .init) :
    opening visit = .waiting := by
  cases ho : opening visit with
  | waiting => rfl
  | closed => exact absurd (h.closed ho).1 (by simp [hinit])
  | anchored a => exact absurd hinit (h.anchored a ho).started

/-- Offering an accepted data packet continues the stream. -/
theorem Stream.offer {b : ReorderBuffer (List UInt8) WINDOW_SLOTS} {first : ℕ}
    {items : List (List UInt8)} (i : Input)
    (hex : b.Exact anchor msgs) (hsrc : b.Sourced fun q d => (q, d) ∈ carried visit s.session)
    (hmsgs : ∀ m ∈ msgs, m ∈ carried visit s.session)
    (hcomp : t.Lossless → b.Complete (carried visit s.session) ∧
      (b.next < first → ∀ m ∈ number first items, m.1 < b.next + WINDOW_SLOTS))
    (hitems : Input.blocks s.session i = number first items)
    (hshows : t.Shows (b.offer first items).1) (hsess : t.session = s.session)
    (hst : t.state ≠ .init) (hz : s.session ≠ zeroSession) :
    Stream (visit ++ [i]) t anchor (msgs ++ (b.offer first items).2) := by
  have hcar : carried (visit ++ [i]) t.session =
      carried visit s.session ++ number first items := by
    rw [hsess, carried_snoc, hitems]
  have hsrc' : b.Sourced fun q d => (q, d) ∈ carried (visit ++ [i]) t.session := by
    intro q d hq
    rw [hcar]
    exact List.mem_append_left _ (hsrc q d hq)
  have hnew : ∀ m ∈ number first items, (m.1, m.2) ∈ carried (visit ++ [i]) t.session := by
    intro m hm
    rw [hcar]
    exact List.mem_append_right _ hm
  obtain ⟨h₁, h₂⟩ := hsrc'.offer hnew
  refine ⟨hst, by rw [hsess]; exact hz, _, hshows, hex.offer, h₁, ?_, ?_⟩
  · intro m hm
    rcases List.mem_append.mp hm with hm | hm
    · rw [hcar]
      exact List.mem_append_left _ (hmsgs m hm)
    · exact h₂ m hm
  · intro ht
    rw [hcar]
    exact (hcomp ht).1.offer (hcomp ht).2

section Frame

variable {bytes : List UInt8} {hdr : Header} {feed : FeedId} {nowNs : ℕ}

theorem opening_frame (hhdr : parseHeader bytes = .ok hdr) (ho : opening visit = .waiting) :
    opening (visit ++ [.frame bytes feed nowNs]) =
      if hdr.count = HEARTBEAT_COUNT then .waiting
      else if hdr.count = EOS_COUNT then .closed
      else .anchored hdr.seq := by
  rw [opening_snoc, ho, Opening.next, hhdr]

/-- Nothing follows the header of an accepted control packet. -/
theorem blocks_control (hhdr : parseHeader bytes = .ok hdr) (hsound : Sound bytes hdr)
    (hc : hdr.count = HEARTBEAT_COUNT ∨ hdr.count = EOS_COUNT) (session : SessionId) :
    Input.blocks session (.frame bytes feed nowNs) = [] := by
  unfold Sound at hsound
  rw [if_pos hc] at hsound
  have harea : bytes.drop HEADER_LEN = [] := List.drop_eq_nil_of_le (by omega)
  have hnone : headerBlocks bytes hdr = [] := by
    rw [headerBlocks, harea]
    rcases hc with hc | hc <;> rw [hc] <;> rfl
  simp [Input.blocks, hhdr, hnone]

theorem Lossless.congr (ht : t.Lossless) (hdrop : t.dropped = s.dropped)
    (hst : s.state = .ended ∨ s.state = .dead → t.state = .ended ∨ t.state = .dead) :
    s.Lossless where
  dropped := hdrop ▸ ht.dropped
  notEnded := fun hs => (hst (Or.inl hs)).elim ht.notEnded ht.notDead
  notDead := fun hs => (hst (Or.inr hs)).elim ht.notEnded ht.notDead

theorem Delivered.heartbeat (h : Delivered visit s calls) (hhdr : parseHeader bytes = .ok hdr)
    (hsound : Sound bytes hdr) (hc : hdr.count = HEARTBEAT_COUNT) :
    Delivered (visit ++ [.frame bytes feed nowNs]) (s.handleHeartbeat hdr.seq nowNs).1
      (calls ++ (s.handleHeartbeat hdr.seq nowNs).2) := by
  obtain ⟨-, hsess, hmore⟩ := handleHeartbeat_shows h.coherent.shows hdr.seq nowNs
  have hclosed : s.state = .ended ∨ s.state = .dead →
      (s.handleHeartbeat hdr.seq nowNs).1.state = .ended ∨
        (s.handleHeartbeat hdr.seq nowNs).1.state = .dead := by
    intro hst
    rcases s.handleHeartbeat_state hdr.seq nowNs with hs | ⟨-, h₁, h₂, -⟩
    · rwa [hs]
    · exact absurd hst (not_or.mpr ⟨h₁, h₂⟩)
  apply h.quiet (fun b hb => (handleHeartbeat_shows hb hdr.seq nowNs).1) hsess hmore
  · intro ht
    refine ⟨ht.congr (dropped_of_tally (s.handleHeartbeat_tally hdr.seq nowNs)) hclosed, ?_⟩
    simp [blocks_control hhdr hsound (Or.inl hc)]
  · intro ho
    have hst := (h.waiting ho).1
    left
    rw [opening_frame hhdr ho, if_pos hc]
    rcases s.handleHeartbeat_state hdr.seq nowNs with hs | hs
    · exact ⟨rfl, hs.trans hst, blocks_control hhdr hsound (Or.inl hc)⟩
    · exact absurd hst hs.1
  · exact hclosed
  · intro hst
    rcases s.handleHeartbeat_state hdr.seq nowNs with hs | ⟨-, -, -, hs⟩
    · rwa [hs]
    · simp [hs]

theorem Delivered.eos (h : Delivered visit s calls) (hhdr : parseHeader bytes = .ok hdr)
    (hsound : Sound bytes hdr) (hc : hdr.count = EOS_COUNT) :
    Delivered (visit ++ [.frame bytes feed nowNs]) (s.handleEos hdr).1
      (calls ++ (s.handleEos hdr).2) := by
  obtain ⟨-, hsess, hmore⟩ := handleEos_shows h.coherent.shows hdr
  have hclosed : s.state = .ended ∨ s.state = .dead →
      (s.handleEos hdr).1.state = .ended ∨ (s.handleEos hdr).1.state = .dead := by
    intro hst
    rcases s.handleEos_state hdr with ⟨-, hs⟩ | ⟨-, hs⟩ | ⟨-, h₁, h₂, -⟩
    · exact Or.inl hs
    · rwa [hs]
    · exact absurd hst (not_or.mpr ⟨h₁, h₂⟩)
  apply h.quiet (fun b hb => (handleEos_shows hb hdr).1) hsess hmore
  · intro ht
    refine ⟨ht.congr (dropped_of_tally (s.handleEos_tally hdr)) hclosed, ?_⟩
    simp [blocks_control hhdr hsound (Or.inr hc)]
  · intro ho
    have hst := (h.waiting ho).1
    right
    rw [opening_frame hhdr ho, if_neg (by rw [hc]; decide), if_pos hc]
    rcases s.handleEos_state hdr with ⟨-, hs⟩ | ⟨hs, -⟩ | ⟨hs, -⟩
    · exact ⟨rfl, Or.inl hs⟩
    · exact absurd hst hs
    · exact absurd hst hs
  · exact hclosed
  · intro hst
    rcases s.handleEos_state hdr with ⟨hs, -⟩ | ⟨-, hs⟩ | ⟨-, -, -, hs | hs⟩
    · exact absurd hs hst
    · rwa [hs]
    · simp [hs]
    · simp [hs]

/-- The apply stage keeps the session and never goes back to `init`. -/
theorem applyFrame_kept (h : s.Coherent) {first last : ℕ} (hf : DataFrame bytes hdr first last)
    (hlast : s.w ≤ last) (nowNs : ℕ) (hst : s.state ≠ .init) :
    (s.applyFrame bytes hdr first last nowNs).1.session = s.session ∧
      (s.applyFrame bytes hdr first last nowNs).1.state ≠ .init := by
  refine ⟨((applyFrame_acts h hf hlast nowNs).sourced h).1, ?_⟩
  rcases s.applyFrame_state bytes hdr first last nowNs with hs | hs | hs
  · rwa [hs]
  · simp [hs]
  · simp [hs]

/-- An accepted data packet of the session: it anchors a visit that waits for one, and
continues the stream of an anchored one. -/
theorem Delivered.data (h : Delivered visit s calls) (hhdr : parseHeader bytes = .ok hdr)
    (hsound : Sound bytes hdr) (hseq : hdr.seq < 2 ^ 64 - 2 ^ 17)
    (hc : ¬(hdr.count = HEARTBEAT_COUNT ∨ hdr.count = EOS_COUNT)) (hlive : s.state ≠ .dead)
    (hsess : s.session = hdr.session) (hz : s.session ≠ zeroSession) :
    Delivered (visit ++ [.frame bytes feed nowNs]) (s.ingestData bytes hdr feed nowNs).1
      (calls ++ (s.ingestData bytes hdr feed nowNs).2) := by
  have hcoh := (ingestData_acts h.coherent hhdr hseq feed nowNs).coherent h.coherent
  unfold ingestData at hcoh ⊢
  by_cases hended : s.state = .ended
  · rw [if_pos hended]
    exact h.note rfl (fun ht => absurd hended ht.notEnded)
      fun ho => absurd (h.waiting ho).1 (by simp [hended])
  rw [if_neg hended] at hcoh ⊢
  cases hspan : hdr.span with
  | none =>
      unfold Sound at hsound
      rw [if_neg hc] at hsound
      exact absurd hspan hsound.1
  | some span =>
      obtain ⟨first, last⟩ := span
      simp only [hspan] at hcoh ⊢
      have hf : DataFrame bytes hdr first last := ⟨hhdr, hspan, hseq⟩
      obtain ⟨hfirst, -, hle, hlim⟩ := hf.bounds
      have hok := hsound.walkError hc
      have hblocks : Input.blocks s.session (.frame bytes feed nowNs) =
          number first (payloads bytes hdr) := by
        rw [hsess, blocks_frame hhdr, hf.blocks]
      by_cases hinit : s.state = .init
      · rw [if_pos hinit] at hcoh ⊢
        have ho := h.opening_waiting hinit
        have hn : opening (visit ++ [.frame bytes feed nowNs]) = .anchored first := by
          rw [opening_frame hhdr ho, if_neg (not_or.mp hc).1, if_neg (not_or.mp hc).2, hfirst]
        have hact : Act (Carries bytes hdr) s [] (s.anchorAt first nowNs) :=
          .anchor first hinit (by omega) rfl
        have hfresh : (s.anchorAt first nowNs).Shows (ReorderBuffer.empty first) := by
          refine ⟨hact.coherent h.coherent, rfl, ?_⟩
          funext q
          exact h.coherent.sound.held_eq_none
            (h.coherent.stagedCount_eq_zero (h.coherent.calm (Or.inl hinit))) first q
        obtain ⟨hshows, hmsgs⟩ := applyFrame_offer hfresh hf hok hle nowNs
        obtain ⟨hsess', hst'⟩ := applyFrame_kept (hact.coherent h.coherent) hf hle nowNs nofun
        refine ⟨hcoh, fun hw => by simp [hn] at hw, fun hw => by simp [hn] at hw, ?_⟩
        intro a ha
        obtain rfl : first = a := by simpa [hn] using ha
        obtain ⟨-, hnone, hcar⟩ := h.waiting ho
        rw [messages_append, hnone, hmsgs]
        refine Stream.offer _ ReorderBuffer.exact_empty (fun q d hq => nomatch hq)
          (fun m hm => nomatch hm) (fun _ => ?_) hblocks hshows hsess' hst' hz
        rw [hcar]
        exact ⟨ReorderBuffer.complete_nil, fun hlt => absurd hlt (Nat.lt_irrefl first)⟩
      · rw [if_neg hinit] at hcoh ⊢
        by_cases hdup : last < s.w
        · rw [if_pos hdup]
          refine h.note ?_ (fun ht => ⟨⟨?_, ht.notEnded, ht.notDead⟩, ?_⟩)
            fun ho => absurd (h.waiting ho).1 hinit
          · unfold Counters.recordDuplicate Counters.feedMut
            dsimp only [count]
            split <;> rfl
          · have hd := ht.dropped
            unfold Counters.recordDuplicate Counters.feedMut dropped at hd
            dsimp only [count] at hd
            split at hd <;> exact hd
          · intro m hm
            rw [hblocks] at hm
            have hb := mem_number_bounds hm
            have hlen := hf.length_le
            omega
        · rw [if_neg hdup] at hcoh ⊢
          have hlast := Nat.le_of_not_lt hdup
          obtain ⟨a, ho⟩ := h.opening_anchored hinit hended hlive
          have hn : opening (visit ++ [.frame bytes feed nowNs]) = .anchored a := by
            rw [opening_snoc, ho]
            rfl
          obtain ⟨b, hb, hex, hsrc, hin, hcomp⟩ := (h.anchored a ho).exact
          obtain ⟨hshows, hmsgs⟩ := applyFrame_offer hb hf hok hlast nowNs
          obtain ⟨hsess', hst'⟩ := applyFrame_kept h.coherent hf hlast nowNs hinit
          refine ⟨hcoh, fun hw => by simp [hn] at hw, fun hw => by simp [hn] at hw, ?_⟩
          intro a' ha'
          obtain rfl : a = a' := by simpa [hn] using ha'
          rw [messages_append, hmsgs]
          refine Stream.offer _ hex hsrc hin (fun ht => ?_) hblocks hshows hsess' hst' hz
          have hdrop := applyFrame_dropped h.coherent hf hok nowNs
          rw [ht.dropped] at hdrop
          refine ⟨hcomp ⟨by omega, hended, hlive⟩, fun hlt => ?_⟩
          rw [← hb.w] at hlt ⊢
          rw [if_neg (Nat.not_le.mpr hlt)] at hdrop
          exact beyond_eq_zero (by omega)

theorem Delivered.kind (h : Delivered visit s calls) (hhdr : parseHeader bytes = .ok hdr)
    (hsound : Sound bytes hdr) (hseq : hdr.seq < 2 ^ 64 - 2 ^ 17) (hlive : s.state ≠ .dead)
    (hsess : s.session = hdr.session) (hz : hdr.session ≠ zeroSession) :
    Delivered (visit ++ [.frame bytes feed nowNs]) (s.ingestKind bytes hdr feed nowNs).1
      (calls ++ (s.ingestKind bytes hdr feed nowNs).2) := by
  unfold ingestKind
  split
  · rename_i hc
    exact h.heartbeat hhdr hsound hc
  · rename_i hc
    split
    · rename_i hc'
      rw [if_neg (by rw [h.coherent.mutation]; exact nofun)]
      exact h.eos hhdr hsound hc'
    · rename_i hc'
      exact h.data hhdr hsound hseq (not_or.mpr ⟨hc, hc'⟩) hlive hsess (hsess ▸ hz)

end Frame

/-! ## Whole runs -/

theorem Delivered.of_core (h : Delivered visit s calls) (ht : t.core = s.core)
    (hdrop : t.dropped = s.dropped) : Delivered visit t calls := by
  have hst := state_of_core ht
  refine ⟨h.coherent.of_core ht, fun ho => ?_, fun ho => ?_, fun a ho => ?_⟩
  · rw [hst]
    exact h.waiting ho
  · rw [hst]
    exact h.closed ho
  · obtain ⟨hst', hz, b, hb, hex, hsrc, hin, hcomp⟩ := h.anchored a ho
    have hsess := session_of_core ht
    refine ⟨by rwa [hst], by rwa [hsess], b, hb.of_core ht, hex, ?_, ?_, ?_⟩
    · rwa [hsess]
    · rwa [hsess]
    · intro hl
      rw [hsess]
      exact hcomp (hl.congr hdrop fun hs => by rwa [hst])

/-- The session is adopted before the visit anchors. -/
theorem Delivered.adopt (h : Delivered visit s calls) {next : SessionId}
    (h0 : s.session = zeroSession) (ht : t.core = core { s with session := next }) :
    Delivered visit t calls where
  coherent := (Dispatched.adopt h0 ht).coherent h.coherent
  waiting ho := ⟨(state_of_core ht :).trans (h.waiting ho).1, (h.waiting ho).2⟩
  closed ho := by
    have hst : t.state = s.state := (state_of_core ht :)
    rw [hst]
    exact h.closed ho
  anchored a ho := absurd h0 (h.anchored a ho).adopted

/-- A state that has just crossed a boundary has a visit without inputs behind it. -/
theorem delivered_crossTo (hs : s.Coherent) {next : SessionId}
    (ht : t.core = (s.crossTo next).core) : Delivered [] t [] where
  coherent := (crossTo_coherent hs next).1.of_core ht
  waiting _ := ⟨(state_of_core ht :), rfl, fun _ => rfl⟩
  closed ho := nomatch ho
  anchored _ ho := nomatch ho

theorem delivered_new : Delivered [] new [] where
  coherent := new_coherent
  waiting _ := ⟨rfl, rfl, fun _ => rfl⟩
  closed ho := nomatch ho
  anchored _ ho := nomatch ho

/-- A call within the visit. -/
theorem Delivered.step (h : Delivered visit s calls) {i : Input} (hi : i.Admissible)
    (hany : (sinkCalls (s.step i).2).any SinkCall.isBoundary = false) :
    Delivered (visit ++ [i]) (s.step i).1 (calls ++ sinkCalls (s.step i).2) := by
  cases i with
  | recoveryIntent nowNs =>
      have hcore := s.checkRecoveryIntent_core nowNs
      refine h.note hcore (fun ht => ⟨?_, fun m hm => nomatch hm⟩)
        fun ho => ⟨by rw [opening_snoc, ho]; rfl, fun _ => rfl⟩
      refine ht.congr (dropped_of_tally (s.checkRecoveryIntent_tally nowNs)) fun hs => ?_
      exact hs.imp (state_of_core hcore :).trans (state_of_core hcore :).trans
  | sealDead reason =>
      obtain ⟨-, hsess, hst, hmore⟩ := sealDead_shows h.coherent.shows reason
      simp only [Sequencer.step, sinkCalls_sink]
      apply h.quiet (fun b hb => (sealDead_shows hb reason).1) hsess hmore
        fun ht => absurd hst ht.notDead
      · exact fun ho => Or.inr ⟨by rw [opening_snoc, ho]; rfl, Or.inr hst⟩
      · exact fun _ => Or.inr hst
      · exact fun _ => by simp [hst]
  | frame bytes feed nowNs =>
      obtain ⟨hacc, hsafe⟩ := hi
      obtain ⟨hdr, hhdr, hsound⟩ := accepted_iff.mp hacc
      obtain ⟨hseq, hz⟩ := hsafe hdr hhdr
      simp only [Sequencer.step, sinkCalls_sink] at hany ⊢
      rcases ingest_frame s hhdr feed nowNs with ⟨hdead, hcore, hout, -⟩ | ⟨hlive, t, more, hd, hdrop, hrun⟩
      · rw [hout]
        exact h.note hcore (fun ht => absurd ((state_of_core hcore).trans hdead) ht.notDead)
          fun ho => absurd (h.waiting ho).1 (by simp [hdead])
      · rw [hrun] at hany ⊢
        have hst : t.state = s.state := by
          cases hd with
          | same _ ht => exact state_of_core ht
          | adopt _ ht => exact (state_of_core ht :)
          | boundary => simp [SinkCall.isBoundary] at hany
        have ht : Delivered visit t calls ∧ t.session = hdr.session ∧ more = [] := by
          cases hd with
          | same hs ht => exact ⟨h.of_core ht hdrop, (session_of_core ht).trans hs, rfl⟩
          | adopt h0 ht => exact ⟨h.adopt h0 ht, (session_of_core ht :), rfl⟩
          | boundary => simp [SinkCall.isBoundary] at hany
        obtain ⟨ht, hsess, rfl⟩ := ht
        exact ht.kind hhdr hsound hseq (by rwa [hst]) hsess hz

/-- A call that crosses a boundary starts a visit with its own frame. -/
theorem delivered_cross (hs : s.Coherent) {i : Input} (hi : i.Admissible)
    (hany : (sinkCalls (s.step i).2).any SinkCall.isBoundary = true) :
    ∃ o more, (s.step i).2 = o :: more ∧ o.isBoundary = true ∧
      (∀ x ∈ more, x.isBoundary = false) ∧ Delivered [i] (s.step i).1 (sinkCalls more) := by
  obtain ⟨bytes, feed, nowNs, hdr, -, -, rfl, hhdr, h0, hn, -, -, -⟩ :=
    step_cross hs hi.inRange hany
  obtain ⟨hacc, hsafe⟩ := hi
  obtain ⟨hseq, hz⟩ := hsafe hdr hhdr
  simp only [Sequencer.step, sinkCalls_sink] at hany ⊢
  rcases ingest_frame s hhdr feed nowNs with ⟨-, -, hout, -⟩ | ⟨-, t, more, hd, -, hrun⟩
  · simp [hout] at hany
  · have hacts := ingestKind_acts (hd.coherent hs) hhdr hseq feed nowNs
    rw [hrun]
    cases hd with
    | same hsess => exact absurd hsess hn
    | adopt hzero => exact absurd hzero h0
    | boundary _ _ ht =>
        refine ⟨_, _, rfl, rfl, ?_, ?_⟩
        · intro x hx
          obtain ⟨c, hc, rfl⟩ := List.mem_map.mp hx
          exact hacts.not_boundary c hc
        · have hvisit := delivered_crossTo hs ht
          have hst : t.state = .init := (state_of_core ht :)
          have hfirst : Delivered ([] ++ [.frame bytes feed nowNs]) _ ([] ++ _) :=
            hvisit.kind hhdr (hacc.sound hhdr) hseq (by simp [hst]) (session_of_core ht :) hz
          simpa using hfirst

end Visit

theorem run_delivered {inputs : List Input} (hadm : ∀ i ∈ inputs, i.Admissible) :
    Delivered (visitInputs inputs) (run inputs).1 (visitCalls inputs) := by
  refine Machine.visit_induction (P := fun vis s outs => Delivered vis s (sinkCalls outs))
    delivered_new ?_ ?_ inputs (Machine.along_of_forall (fun _ _ h => h) _ _ hadm)
  · intro vis s outs i h hi hany
    rw [step_any_boundary] at hany
    exact delivered_cross h.coherent hi hany
  · intro vis s outs i h hi hany
    rw [step_any_boundary] at hany
    rw [sinkCalls_append]
    exact h.step hi hany

/-- Exactly-once, in-order delivery: in the last visit of an admissible run, and so in every
visit, the numbers delivered are the anchor and its successors up to the watermark, and every
payload is a block that a frame of the visit carries for its number. A visit that is not
anchored by a data frame delivers nothing. -/
theorem exactly_once_in_order (inputs : List Input) (hadm : ∀ i ∈ inputs, i.Admissible) :
    (∀ anchor, opening (visitInputs inputs) = .anchored anchor →
      anchor ≤ (run inputs).1.w ∧
      (messages (visitCalls inputs)).map Prod.fst =
        List.range' anchor ((run inputs).1.w - anchor) ∧
      ∀ m ∈ messages (visitCalls inputs),
        m ∈ carried (visitInputs inputs) (run inputs).1.session) ∧
    ((∀ anchor, opening (visitInputs inputs) ≠ .anchored anchor) →
      messages (visitCalls inputs) = []) := by
  have h := run_delivered hadm
  constructor
  · intro anchor ho
    obtain ⟨-, -, b, hb, ⟨hle, hfst⟩, -, hin, -⟩ := h.anchored anchor ho
    rw [hb.w]
    exact ⟨hle, hfst, hin⟩
  · intro hnot
    cases ho : opening (visitInputs inputs) with
    | waiting => exact (h.waiting ho).2.1
    | closed => exact (h.closed ho).2
    | anchored a => exact absurd ho (hnot a)

/-- A gap that is filled, with an overlap, a drain and a heartbeat. -/
def filledRun : List Input :=
  [.frame (makeFrame (SessionId.repeated 65) 7 2) 0 10,
    .frame (makeFrame (SessionId.repeated 65) 11 1) 0 20,
    .frame (makeHbFrame (SessionId.repeated 65) 12) 1 30,
    .frame (makeFrame (SessionId.repeated 65) 8 3) 1 40]

theorem exactly_once_in_order_filled :
    (messages (visitCalls filledRun)).map Prod.fst = List.range' 7 5 := by
  have h := (exactly_once_in_order filledRun (by decide +kernel)).1 7 (by decide +kernel)
  have hw : (run filledRun).1.w = 12 := by decide +kernel
  rw [h.2.1, hw]

/-- The first number of the first data frame of a visit, whatever came before it. -/
def firstData (visit : List Input) : Option ℕ :=
  visit.findSome? fun
    | .frame bytes _ _ =>
        match parseHeader bytes with
        | .ok hdr =>
            if hdr.count = HEARTBEAT_COUNT ∨ hdr.count = EOS_COUNT then none else some hdr.seq
        | .error _ => none
    | _ => none

/-- A session whose end is announced before its first data frame. -/
def endedFirst : List Input :=
  [.frame (makeFrame (SessionId.repeated 65) 5 1) 0 10,
    .frame (makeEosFrame (SessionId.repeated 66) 1) 0 20,
    .frame (makeFrame (SessionId.repeated 66) 1 1) 0 30]

/-- The second visit has a data frame but delivers nothing, with the watermark of the first
visit still in place. -/
theorem ended_first_not_delivered :
    (∀ i ∈ endedFirst, i.Admissible) ∧ firstData (visitInputs endedFirst) = some 1 ∧
      (messages (visitCalls endedFirst)).map Prod.fst ≠
        List.range' 1 ((run endedFirst).1.w - 1) := by
  decide +kernel

end Sequencer

end HftProj.Arbitrator
