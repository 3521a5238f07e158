import HftProj.Lib.Arena
import HftProj.Protocol.RoundTrip
import HftProj.Testkit.BakeFabric

/-!
# The bake from the ledger

The ledger's rows are the frames of both feeds in arrival order. The bake walks them with a
watermark of its own: it takes each frame that does not start below it, and holds none back. It
sees each message once exactly where the frames that continue one another come first.
-/

namespace HftProj.Testkit.LedgerDedup

open HftProj.Lib
open HftProj.Protocol
open HftProj.Protocol.Moldudp64
open SpanField (Cpu)

/-! ## The walk -/

/-- `AffineLedgerEntry`, without its checksums. The pointer is the body's place in the blob. -/
structure AffineLedgerEntry where
  bodyPtr : ℕ
  bodyLen : ℕ

namespace AffineLedgerEntry

variable (blob : List UInt8) (r : AffineLedgerEntry)

/-- Where the row's frame starts. -/
def base : ℕ := r.bodyPtr - 22

def firstSeq : ℕ := fromBeBytes (slice blob (r.base + 10) (r.base + 18))

def count : ℕ := fromBeBytes (slice blob (r.base + 18) (r.base + 20))

/-- The message chain with its first length prefix. -/
def body : List UInt8 := slice blob (r.base + 20) (r.base + 20 + (r.bodyLen + 2))

end AffineLedgerEntry

/-- The rows whose bodies are taken, from a watermark on; the first frame anchors it. -/
@[grind =]
def selected (blob : List UInt8) : ℕ → List AffineLedgerEntry → List AffineLedgerEntry
  | _, [] => []
  | w, r :: rows =>
      let w := if w = 0 then r.firstSeq blob else w
      if r.firstSeq blob < w then selected blob w rows
      else r :: selected blob ((w + r.count blob) % 2 ^ 64) rows

/-- `bake_from_ledger`. -/
def bakeFromLedger (cpu : Cpu) (hftOrderScan : Option String) (blob : List UInt8)
    (rows : List AffineLedgerEntry) : Except Fault SigFabric.Fabric :=
  SigFabric.bakeSigFabric cpu hftOrderScan ((selected blob 0 rows).map (·.body blob))

/-! ## Rows of one session -/

/-- The frame that a row describes. -/
def AffineLedgerEntry.frame (blob : List UInt8) (r : AffineLedgerEntry) : List UInt8 :=
  slice blob r.base (r.base + 20 + (r.bodyLen + 2))

/-- The row describes a data frame of the session, with the session's messages at their sequence
numbers. -/
def DataRow (blob : List UInt8) (session : SessionId) (msgAt : ℕ → List UInt8)
    (r : AffineLedgerEntry) : Prop :=
  ∃ hdr blocks, parse (r.frame blob) = .ok (.data hdr blocks) ∧ hdr.session = session ∧
    ∀ b ∈ blocks.collect hdr.count, b.data = msgAt b.seq

/-- The messages of the bodies taken from a watermark on, with their sequence numbers. -/
def seen (blob : List UInt8) (w : ℕ) (rows : List AffineLedgerEntry) : List (ℕ × List UInt8) :=
  (selected blob w rows).flatMap fun r => number (r.firstSeq blob) (units (r.body blob))

/-- The bodies taken contain every message of the range once and in order. -/
def OnceInOrder (blob : List UInt8) (msgAt : ℕ → List UInt8) (rows : List AffineLedgerEntry)
    (a n : ℕ) : Prop :=
  seen blob 0 rows = (List.range' a n).map fun s => (s, msgAt s)

/-- From `e` to `b` the rows come as frames that continue one another, with only late copies,
which start below the end so far, between them. At the top of the range nothing follows. -/
inductive Chained (blob : List UInt8) : ℕ → ℕ → List AffineLedgerEntry → Prop
  | done {e : ℕ} {late : List AffineLedgerEntry} (hlate : ∀ l ∈ late, l.firstSeq blob < e)
      (htop : late = [] ∨ e < 2 ^ 64) : Chained blob e e late
  | next {e b : ℕ} {late rows : List AffineLedgerEntry} {r : AffineLedgerEntry}
      (hlate : ∀ l ∈ late, l.firstSeq blob < e) (hr : r.firstSeq blob = e)
      (hrest : Chained blob (e + r.count blob) b rows) : Chained blob e b (late ++ r :: rows)

section Rows

variable {blob : List UInt8} {session : SessionId} {msgAt : ℕ → List UInt8}
variable {r : AffineLedgerEntry} {rows : List AffineLedgerEntry} {w n b : ℕ}

/-- The units of a block area are its messages. -/
theorem units_blockBytes {msgs : List (List UInt8)} (h : ∀ m ∈ msgs, m.length < 2 ^ 16) :
    units (blockBytes msgs) = msgs := by
  induction msgs with
  | nil =>
      rw [blockBytes, List.flatMap_nil, units]
      intro hi lo rest h
      cases h
  | cons m msgs ih =>
      have hlen : fromBeBytes (toBeBytes 2 m.length) = m.length :=
        fromBeBytes_toBeBytes (h m List.mem_cons_self)
      obtain ⟨hi, lo, hbytes⟩ : ∃ hi lo, toBeBytes 2 m.length = [hi, lo] := ⟨_, _, rfl⟩
      rw [hbytes] at hlen
      rw [blockBytes_cons, hbytes]
      show units (hi :: lo :: (m ++ blockBytes msgs)) = _
      rw [units, hlen, if_neg (by rw [List.length_append]; omega), List.take_left, List.drop_left,
        ih fun x hx => h x (List.mem_cons_of_mem _ hx)]

theorem number_map (a : ℕ) (msgs : List (List UInt8))
    (h : ∀ p ∈ number a msgs, p.2 = msgAt p.1) :
    number a msgs = (List.range' a msgs.length).map fun s => (s, msgAt s) := by
  induction msgs generalizing a with
  | nil => rfl
  | cons m msgs ih =>
      rw [number, List.length_cons, List.range'_succ, List.map_cons,
        ← ih (a + 1) fun p hp => h p (List.mem_cons_of_mem _ hp)]
      have hhead : m = msgAt a := h (a, m) List.mem_cons_self
      rw [← hhead]

/-- What the walk reads in a row. -/
structure Spans (blob : List UInt8) (msgAt : ℕ → List UInt8) (r : AffineLedgerEntry) : Prop where
  pos : 0 < r.count blob
  top : r.firstSeq blob + r.count blob ≤ 2 ^ 64
  messages : number (r.firstSeq blob) (units (r.body blob)) =
    (List.range' (r.firstSeq blob) (r.count blob)).map fun s => (s, msgAt s)

theorem DataRow.spans (h : DataRow blob session msgAt r) : Spans blob msgAt r := by
  obtain ⟨hdr, blocks, hparse, -, hmsgs⟩ := h
  obtain ⟨msgs, hencode, hcount, hframe⟩ := (grammatical_of_parse hparse).1
  obtain ⟨blocks', hparse', hcollect⟩ := parse_encoding hdr.session hencode
  rw [← hframe, hparse] at hparse'
  have hblocks : blocks = blocks' := (Parsed.data.inj (Except.ok.inj hparse')).2
  obtain ⟨hpos, hmany, hall, hlast⟩ := hencode
  have hsmall : ∀ m ∈ msgs, m.length < 2 ^ 16 := fun m hm => Nat.lt_succ_of_le (hall m hm)
  have hhdr : parseHeader (r.frame blob) = .ok ⟨hdr.session, hdr.seq, msgs.length⟩ := by
    rw [hframe]
    exact parseHeader_headerBytes hdr.session (by omega) (by omega) _
  obtain ⟨-, -, hseq, hcnt⟩ := parseHeader_ok hhdr
  have hfirst : r.firstSeq blob = hdr.seq := by
    rw [AffineLedgerEntry.frame, slice_slice (by omega)] at hseq
    exact hseq.symm
  have hsize : r.count blob = msgs.length := by
    rw [AffineLedgerEntry.frame, slice_slice (by omega)] at hcnt
    exact hcnt.symm
  have hbody : r.body blob = blockBytes msgs := by
    have hdrop : (r.frame blob).drop HEADER_LEN = blockBytes msgs := by
      rw [hframe, buildPacket, ← headerBytes_length hdr.session hdr.seq msgs.length,
        List.drop_left]
    rw [AffineLedgerEntry.frame, drop_slice] at hdrop
    exact hdrop
  have hnumbers : ∀ p ∈ number hdr.seq msgs, p.2 = msgAt p.1 := by
    intro p hp
    apply hmsgs ⟨p.1, p.2⟩
    rw [hblocks, hcollect _ hcount.ge]
    exact List.mem_map_of_mem hp
  constructor
  · omega
  · omega
  · rw [hfirst, hsize, hbody, units_blockBytes hsmall]
    exact number_map hdr.seq msgs hnumbers

end Rows

/-! ## Chains -/

section Chains

variable {blob : List UInt8} {msgAt : ℕ → List UInt8} {r : AffineLedgerEntry}
variable {rows : List AffineLedgerEntry} {e b w n : ℕ}

theorem chained_iff : Chained blob e b rows ↔
    (e = b ∧ (∀ l ∈ rows, l.firstSeq blob < e) ∧ (rows = [] ∨ e < 2 ^ 64)) ∨
    ∃ late r rest, rows = late ++ r :: rest ∧ (∀ l ∈ late, l.firstSeq blob < e) ∧
      r.firstSeq blob = e ∧ Chained blob (e + r.count blob) b rest := by
  constructor
  · intro h
    cases h with
    | done hlate htop => exact Or.inl ⟨rfl, hlate, htop⟩
    | next hlate hr hrest => exact Or.inr ⟨_, _, _, rfl, hlate, hr, hrest⟩
  · rintro (⟨rfl, hlate, htop⟩ | ⟨late, r, rest, rfl, hlate, hr, hrest⟩)
    · exact .done hlate htop
    · exact .next hlate hr hrest

theorem Chained.le (h : Chained blob e b rows) : e ≤ b := by
  induction h with
  | done => exact Nat.le_refl _
  | next _ _ _ ih => omega

/-- A late copy changes nothing below the top of the range. -/
theorem chained_late (hr : r.firstSeq blob < e) (he : e < 2 ^ 64) :
    Chained blob e b (r :: rows) ↔ Chained blob e b rows := by
  rw [chained_iff, @chained_iff blob rows]
  constructor
  · rintro (⟨heq, hlate, -⟩ | ⟨late, r', rest, hrows, hlate, hr', hrest⟩)
    · exact Or.inl ⟨heq, fun l hl => hlate l (List.mem_cons_of_mem _ hl), Or.inr he⟩
    · cases late with
      | nil =>
          obtain ⟨rfl, -⟩ := List.cons.inj hrows
          omega
      | cons l late =>
          obtain ⟨-, hrows⟩ := List.cons.inj hrows
          exact Or.inr ⟨late, r', rest, hrows,
            fun x hx => hlate x (List.mem_cons_of_mem _ hx), hr', hrest⟩
  · rintro (⟨heq, hlate, -⟩ | ⟨late, r', rest, hrows, hlate, hr', hrest⟩)
    · exact Or.inl ⟨heq, List.forall_mem_cons.mpr ⟨hr, hlate⟩, Or.inr he⟩
    · exact Or.inr ⟨r :: late, r', rest, congrArg (r :: ·) hrows,
        List.forall_mem_cons.mpr ⟨hr, hlate⟩, hr', hrest⟩

/-- A row that does not start below the end is the next of the chain, or there is none. -/
theorem chained_next (hr : e ≤ r.firstSeq blob) :
    Chained blob e b (r :: rows) ↔
      r.firstSeq blob = e ∧ Chained blob (e + r.count blob) b rows := by
  rw [chained_iff]
  constructor
  · rintro (⟨-, hlate, -⟩ | ⟨late, r', rest, hrows, hlate, hr', hrest⟩)
    · have hbelow := hlate r List.mem_cons_self
      omega
    · cases late with
      | nil =>
          obtain ⟨rfl, rfl⟩ := List.cons.inj hrows
          exact ⟨hr', hrest⟩
      | cons l late =>
          obtain ⟨rfl, -⟩ := List.cons.inj hrows
          have hbelow := hlate r List.mem_cons_self
          omega
  · rintro ⟨hfirst, hrest⟩
    exact Or.inr ⟨[], r, rows, rfl, fun _ hl => absurd hl List.not_mem_nil, hfirst, hrest⟩

theorem chained_nil : Chained blob e b [] ↔ e = b := by
  constructor
  · intro h
    rcases chained_iff.mp h with ⟨heq, -⟩ | ⟨late, r, rest, hrows, -⟩
    · exact heq
    · cases late <;> cases hrows
  · rintro rfl
    exact .done (fun _ hl => absurd hl List.not_mem_nil) (Or.inl rfl)

/-- At the top of the range a chain has ended. -/
theorem chained_top (hrows : ∀ r ∈ rows, Spans blob msgAt r) :
    Chained blob (2 ^ 64) b rows ↔ rows = [] ∧ b = 2 ^ 64 := by
  cases rows with
  | nil => rw [chained_nil, eq_self, true_and, eq_comm]
  | cons r rows =>
      constructor
      · intro h
        rcases chained_iff.mp h with ⟨-, -, hnil | hlt⟩ | ⟨late, r', rest, heq, -, hr', -⟩
        · cases hnil
        · exact absurd hlt (Nat.lt_irrefl _)
        · have hspan := hrows r' (by rw [heq]; simp)
          have hpos := hspan.pos
          have htop := hspan.top
          omega
      · rintro ⟨hnil, -⟩
        cases hnil

/-! ## The walk over a chain -/

theorem selected_late (hw : w ≠ 0) (hr : r.firstSeq blob < w) :
    selected blob w (r :: rows) = selected blob w rows := by
  rw [selected, if_neg hw, if_pos hr]

theorem selected_take (hr : w ≤ r.firstSeq blob) :
    selected blob w (r :: rows) =
      r :: selected blob (((if w = 0 then r.firstSeq blob else w) + r.count blob) % 2 ^ 64) rows := by
  rw [selected]
  apply if_neg
  split <;> omega

/-- The messages of a range, and those behind its first part. -/
theorem range_split_iff {c : ℕ} {X : List (ℕ × List UInt8)} :
    ((List.range' w c).map fun s => (s, msgAt s)) ++ X =
        (List.range' w n).map (fun s => (s, msgAt s)) ↔
      c ≤ n ∧ X = (List.range' (w + c) (n - c)).map fun s => (s, msgAt s) := by
  constructor
  · intro h
    have hlen := congrArg List.length h
    rw [List.length_append, List.length_map, List.length_map, List.length_range',
      List.length_range'] at hlen
    have hn : n = c + (n - c) := by omega
    refine ⟨by omega, ?_⟩
    rw [hn, ← List.range'_append_1, List.map_append] at h
    exact List.append_cancel_left h
  · rintro ⟨hle, rfl⟩
    have hn : n = c + (n - c) := by omega
    rw [← List.map_append, List.range'_append_1, ← hn]

/-- A nonempty range at the front of another starts where that does. -/
theorem range_head {first c : ℕ} {X : List (ℕ × List UInt8)} (hc : 0 < c)
    (h : ((List.range' first c).map fun s => (s, msgAt s)) ++ X =
      (List.range' w n).map fun s => (s, msgAt s)) : first = w := by
  cases c with
  | zero => exact absurd hc (Nat.lt_irrefl 0)
  | succ c =>
      cases n with
      | zero => cases h
      | succ n =>
          rw [List.range'_succ, List.range'_succ, List.map_cons, List.map_cons,
            List.cons_append] at h
          exact congrArg Prod.fst (List.cons.inj h).1

theorem selected_sublist (blob : List UInt8) (w : ℕ) (rows : List AffineLedgerEntry) :
    (selected blob w rows).Sublist rows := by
  induction rows generalizing w with
  | nil => exact List.Sublist.refl []
  | cons r rows ih =>
      rcases Nat.lt_or_ge (r.firstSeq blob) w with hlate | hnext
      · rw [selected_late (by omega) hlate]
        exact (ih w).cons r
      · rw [selected_take hnext]
        exact (ih _).cons_cons r

theorem seen_eq (hrows : ∀ r ∈ rows, Spans blob msgAt r) :
    seen blob w rows = (selected blob w rows).flatMap fun r =>
      (List.range' (r.firstSeq blob) (r.count blob)).map fun s => (s, msgAt s) := by
  rw [seen, List.flatMap_def, List.flatMap_def]
  congr 1
  apply List.map_congr_left
  intro r hr
  exact (hrows r ((selected_sublist blob w rows).subset hr)).messages

theorem seen_take (hspan : Spans blob msgAt r) (hr : w ≤ r.firstSeq blob) :
    seen blob w (r :: rows) =
      ((List.range' (r.firstSeq blob) (r.count blob)).map fun s => (s, msgAt s)) ++
        seen blob (((if w = 0 then r.firstSeq blob else w) + r.count blob) % 2 ^ 64) rows := by
  rw [seen, selected_take hr, List.flatMap_cons, hspan.messages]
  rfl

/-- Behind the last sequence number nothing more is seen only where no row comes. -/
theorem seen_top (hrows : ∀ r ∈ rows, Spans blob msgAt r) :
    seen blob 0 rows = (List.range' (2 ^ 64) n).map (fun s => (s, msgAt s)) ↔
      rows = [] ∧ n = 0 := by
  cases rows with
  | nil =>
      rw [seen, selected, List.flatMap_nil, eq_self, true_and, eq_comm, List.map_eq_nil_iff,
        List.range'_eq_nil_iff]
  | cons r rows =>
      have hspan := hrows r List.mem_cons_self
      constructor
      · intro h
        rw [seen_take hspan (Nat.zero_le _)] at h
        have hfirst := range_head hspan.pos h
        have htop := hspan.top
        have hpos := hspan.pos
        omega
      · rintro ⟨hnil, -⟩
        cases hnil

/-- The rows behind one that starts at the watermark. -/
theorem seen_next (hrows : ∀ r ∈ rows, Spans blob msgAt r) {c : ℕ} (hc : 0 < c)
    (htop : w + c ≤ 2 ^ 64)
    (ih : ∀ {w n : ℕ}, 0 < w → w < 2 ^ 64 →
      (seen blob w rows = (List.range' w n).map (fun s => (s, msgAt s)) ↔
        Chained blob w (w + n) rows)) :
    (c ≤ n ∧ seen blob ((w + c) % 2 ^ 64) rows =
        (List.range' (w + c) (n - c)).map fun s => (s, msgAt s)) ↔
      Chained blob (w + c) (w + n) rows := by
  rcases Nat.lt_or_ge (w + c) (2 ^ 64) with hlow | hhigh
  · rw [Nat.mod_eq_of_lt hlow, ih (by omega) hlow]
    constructor
    · rintro ⟨hle, hrest⟩
      have hend : w + c + (n - c) = w + n := by omega
      rwa [hend] at hrest
    · intro hrest
      have hle := hrest.le
      have hend : w + c + (n - c) = w + n := by omega
      exact ⟨by omega, hend ▸ hrest⟩
  · have heq : w + c = 2 ^ 64 := by omega
    rw [heq, Nat.mod_self, seen_top hrows, chained_top hrows]
    constructor
    · rintro ⟨hle, hnil, hn⟩
      exact ⟨hnil, by omega⟩
    · rintro ⟨hnil, hn⟩
      exact ⟨by omega, hnil, by omega⟩

/-- The walk sees a range once and in order exactly where the rows are chained. -/
theorem seen_iff (hrows : ∀ r ∈ rows, Spans blob msgAt r) (hw : 0 < w) (hlt : w < 2 ^ 64) :
    seen blob w rows = (List.range' w n).map (fun s => (s, msgAt s)) ↔
      Chained blob w (w + n) rows := by
  induction rows generalizing w n with
  | nil =>
      rw [chained_nil, seen, selected, List.flatMap_nil, eq_comm, List.map_eq_nil_iff,
        List.range'_eq_nil_iff]
      omega
  | cons r rows ih =>
      obtain ⟨hspan, hrest⟩ := List.forall_mem_cons.mp hrows
      rcases Nat.lt_or_ge (r.firstSeq blob) w with hlate | hnext
      · rw [chained_late hlate hlt, ← ih hrest hw hlt, seen, selected_late (by omega) hlate]
        rfl
      · rw [seen_take hspan hnext, if_neg (by omega), chained_next hnext]
        constructor
        · intro h
          have hfirst := range_head hspan.pos h
          have htop := hspan.top
          rw [hfirst] at h htop
          exact ⟨hfirst, (seen_next hrest hspan.pos htop (ih hrest)).mp (range_split_iff.mp h)⟩
        · rintro ⟨hfirst, hchain⟩
          have htop := hspan.top
          rw [hfirst] at htop ⊢
          exact range_split_iff.mpr ((seen_next hrest hspan.pos htop (ih hrest)).mpr hchain)

end Chains

/-- The bake sees each message of the range once and in order exactly where, from the first row
on, the frames that continue one another come with only late copies between them. -/
theorem bake_sees_each_message_once_iff {blob : List UInt8} {session : SessionId}
    {msgAt : ℕ → List UInt8} {r : AffineLedgerEntry} {rows : List AffineLedgerEntry}
    (hrows : ∀ l ∈ r :: rows, DataRow blob session msgAt l) (n : ℕ) :
    OnceInOrder blob msgAt (r :: rows) (r.firstSeq blob) n ↔
      Chained blob (r.firstSeq blob) (r.firstSeq blob + n) (r :: rows) := by
  obtain ⟨hspan, hrest⟩ := List.forall_mem_cons.mp fun l hl => (hrows l hl).spans
  have hanchor : (if 0 = 0 then r.firstSeq blob else 0) = r.firstSeq blob := if_pos rfl
  rw [OnceInOrder, seen_take hspan (Nat.zero_le _), hanchor, chained_next (Nat.le_refl _),
    eq_self, true_and, range_split_iff]
  exact seen_next hrest hspan.pos hspan.top fun hw hlt => seen_iff hrest hw hlt

/-- What the bake then reads is the range's messages. -/
theorem OnceInOrder.stream {blob : List UInt8} {msgAt : ℕ → List UInt8}
    {rows : List AffineLedgerEntry} {a n : ℕ} (h : OnceInOrder blob msgAt rows a n) :
    (stream ((selected blob 0 rows).map (·.body blob))).map Prod.snd =
      (List.range' a n).map msgAt := by
  have hsnd := congrArg (List.map Prod.snd) h
  rw [seen, List.map_flatMap, List.map_map] at hsnd
  have hnumber : ∀ (q : ℕ) (ms : List (List UInt8)), (number q ms).map Prod.snd = ms := by
    intro q ms
    induction ms generalizing q with
    | nil => rfl
    | cons m ms ih => exact congrArg (m :: ·) (ih (q + 1))
  simp only [hnumber] at hsnd
  rw [Testkit.stream, List.map_map, List.flatMap_map]
  exact (List.zipIdx_map_fst 1 _).trans hsnd

/-! ## A delayed feed -/

def session : SessionId := SessionId.repeated 65

/-- Frames of one system event each, side by side. -/
def events (seqs : List ℕ) : List UInt8 := seqs.flatMap fun s => makeFrame session s 1

/-- Their rows. -/
def eventRows (n : ℕ) : List AffineLedgerEntry :=
  (List.range n).map fun k => { bodyPtr := 34 * k + 22, bodyLen := 12 }

theorem dataRow_event {blob : List UInt8} {r : AffineLedgerEntry} {s : ℕ}
    (h : r.frame blob = makeFrame session s 1) (hs : s + 1 < 2 ^ 64) :
    DataRow blob session makeMsgS r := by
  have hmsgs : (List.range 1).map (fun k => makeMsgS (s + k)) = [makeMsgS s] := rfl
  have hencode : Encodable s [makeMsgS s] := by
    have hlen : [makeMsgS s].length = 1 := rfl
    refine ⟨hlen.ge, by omega, fun m hm => ?_, by omega⟩
    rw [List.mem_singleton.mp hm]
    exact Nat.le_of_lt (show 12 < 65535 by decide)
  obtain ⟨blocks, hparse, hcollect⟩ := parse_encoding session hencode
  refine ⟨⟨session, s, 1⟩, blocks, ?_, rfl, fun b hb => ?_⟩
  · rw [h, makeFrame, hmsgs]
    exact hparse
  · have hone : blocks.collect 1 = numberedBlocks s [makeMsgS s] := hcollect 1 (Nat.le_refl 1)
    rw [hone] at hb
    rw [List.mem_singleton.mp hb]

theorem dataRows_events {blob : List UInt8} {rows : List AffineLedgerEntry}
    (h : ∀ l ∈ rows, ∃ s ∈ [1, 2, 3], l.frame blob = makeFrame session s 1) :
    ∀ l ∈ rows, DataRow blob session makeMsgS l := by
  intro l hl
  obtain ⟨s, hs, hframe⟩ := h l hl
  apply dataRow_event hframe
  simp only [List.mem_cons, List.not_mem_nil, or_false] at hs
  omega

/-- Two feeds in step. -/
theorem bake_sees_each_message_once_iff_inStep :
    OnceInOrder (events [1, 1, 2, 2]) makeMsgS (eventRows 4) 1 2 := by
  have hrows : ∀ l ∈ [⟨22, 12⟩, ⟨56, 12⟩, ⟨90, 12⟩, ⟨124, 12⟩],
      DataRow (events [1, 1, 2, 2]) session makeMsgS l := dataRows_events (by decide)
  have hiff := bake_sees_each_message_once_iff hrows 2
  have hfirst : AffineLedgerEntry.firstSeq (events [1, 1, 2, 2]) ⟨22, 12⟩ = 1 := by decide
  rw [hfirst] at hiff
  apply hiff.mpr
  have hcount : AffineLedgerEntry.count (events [1, 1, 2, 2]) ⟨22, 12⟩ = 1 := by decide
  have hcount' : AffineLedgerEntry.count (events [1, 1, 2, 2]) ⟨90, 12⟩ = 1 := by decide
  rw [chained_next (by decide), hcount, chained_late (by decide) (by decide),
    chained_next (by decide), hcount', chained_late (by decide) (by decide), chained_nil]
  exact ⟨hfirst, by decide, rfl⟩

/-- The first feed has lost its second frame. The other feed brings it later, and the bake skips
it and takes the third frame twice. -/
theorem late_frame_is_skipped :
    (∀ l ∈ eventRows 5, DataRow (events [1, 3, 1, 2, 3]) session makeMsgS l ∧
      Packet.Accepted (l.frame (events [1, 3, 1, 2, 3]))) ∧
    (eventRows 5).map (fun l =>
        (l.firstSeq (events [1, 3, 1, 2, 3]), l.count (events [1, 3, 1, 2, 3]))) =
      [(1, 1), (3, 1), (1, 1), (2, 1), (3, 1)] ∧
    seen (events [1, 3, 1, 2, 3]) 0 (eventRows 5) =
      [(1, makeMsgS 1), (3, makeMsgS 3), (3, makeMsgS 3)] ∧
    ¬OnceInOrder (events [1, 3, 1, 2, 3]) makeMsgS (eventRows 5) 1 3 := by
  have hrows := @dataRows_events (events [1, 3, 1, 2, 3]) (eventRows 5) (by decide)
  have hseen : seen (events [1, 3, 1, 2, 3]) 0 (eventRows 5) =
      [(1, makeMsgS 1), (3, makeMsgS 3), (3, makeMsgS 3)] := by
    rw [seen_eq fun l hl => (hrows l hl).spans]
    decide
  refine ⟨fun l hl => ⟨hrows l hl, ?_⟩, by decide, hseen, fun honce => ?_⟩
  · have haccepted : ∀ l ∈ eventRows 5, Packet.Accepted (l.frame (events [1, 3, 1, 2, 3])) := by
      decide
    exact haccepted l hl
  · rw [OnceInOrder, hseen] at honce
    exact absurd honce (by decide)

end HftProj.Testkit.LedgerDedup
