import HftProj.Lib.Word

/-!
# Byte arenas patched in place

An arena is one string of bytes in which regions are overwritten without moving
anything. What a region reads after a write is either what was written or what
it read before; a whole list of writes of the same data keeps that form.
-/

namespace HftProj.Lib

variable {α : Type*}

/-- Overwrite the bytes from `off` on. -/
def writeAt (mem : List α) (off : ℕ) (data : List α) : List α :=
  mem.take off ++ (data ++ mem.drop (off + data.length))

/-- Write the same data at every site, in order. -/
def writeAll (data : List α) (sites : List ℕ) (mem : List α) : List α :=
  sites.foldl (fun mem off => writeAt mem off data) mem

/-! ## Slices -/

theorem slice_getElem? (mem : List α) (start stop i : ℕ) :
    (slice mem start stop)[i]? = if i < stop - start then mem[start + i]? else none := by
  rw [slice, List.getElem?_take, List.getElem?_drop]

theorem slice_append_left {a b : List α} {start stop : ℕ} (h : stop ≤ a.length) :
    slice (a ++ b) start stop = slice a start stop := by
  apply List.ext_getElem?
  intro i
  rw [slice_getElem?, slice_getElem?]
  split
  · rw [List.getElem?_append_left (by omega)]
  · rfl

theorem slice_append_right (a b : List α) :
    slice (a ++ b) a.length (a.length + b.length) = b := by
  rw [slice, List.drop_left, Nat.add_sub_cancel_left, List.take_length]

theorem slice_split {mem : List α} {start stop : ℕ} (mid : ℕ) (h₁ : start ≤ mid)
    (h₂ : mid ≤ stop) :
    slice mem start mid ++ slice mem mid stop = slice mem start stop := by
  have hsum : stop - start = (mid - start) + (stop - mid) := by omega
  have hmid : mid = start + (mid - start) := by omega
  rw [slice, slice, slice, hsum, List.take_add, List.drop_drop, ← hmid]

theorem drop_slice (mem : List α) (start stop n : ℕ) :
    (slice mem start stop).drop n = slice mem (start + n) stop := by
  rw [slice, slice, List.drop_take, List.drop_drop, Nat.sub_sub]

theorem take_slice {mem : List α} {start stop n : ℕ} (h : start + n ≤ stop) :
    (slice mem start stop).take n = slice mem start (start + n) := by
  rw [slice, slice, List.take_take, Nat.add_sub_cancel_left, Nat.min_eq_left (by omega)]

theorem slice_zero (mem : List α) (n : ℕ) : slice mem 0 n = mem.take n := by
  rw [slice, List.drop_zero, Nat.sub_zero]

theorem slice_slice {mem : List α} {start stop a b : ℕ} (h : start + b ≤ stop) :
    slice (slice mem start stop) a b = slice mem (start + a) (start + b) := by
  apply List.ext_getElem?
  intro i
  rw [slice_getElem?, slice_getElem?, slice_getElem?]
  by_cases hi : i < b - a
  · rw [if_pos hi, if_pos (by omega), if_pos (by omega), Nat.add_assoc]
  · rw [if_neg hi, if_neg (by omega)]

/-! ## One write -/

theorem writeAt_length {mem data : List α} {off : ℕ} (h : off + data.length ≤ mem.length) :
    (writeAt mem off data).length = mem.length := by
  rw [writeAt, List.length_append, List.length_append, List.length_take, List.length_drop]
  omega

theorem writeAt_getElem? {mem data : List α} {off : ℕ} (h : off + data.length ≤ mem.length)
    (i : ℕ) :
    (writeAt mem off data)[i]? =
      if off ≤ i ∧ i < off + data.length then data[i - off]? else mem[i]? := by
  have htake : (mem.take off).length = off := by
    rw [List.length_take]
    omega
  by_cases hlo : i < off
  · rw [if_neg (by omega), writeAt, List.getElem?_append_left (by omega),
      List.getElem?_take_of_lt hlo]
  · rw [writeAt, List.getElem?_append_right (by omega), htake]
    by_cases hhi : i < off + data.length
    · rw [if_pos (by omega), List.getElem?_append_left (by omega)]
    · rw [if_neg (by omega), List.getElem?_append_right (by omega), List.getElem?_drop]
      congr 1
      omega

/-- A region that does not meet the written one reads what it read before. -/
theorem slice_writeAt_disjoint {mem data : List α} {off start stop : ℕ}
    (h : off + data.length ≤ mem.length) (hd : stop ≤ off ∨ off + data.length ≤ start) :
    slice (writeAt mem off data) start stop = slice mem start stop := by
  apply List.ext_getElem?
  intro i
  rw [slice_getElem?, slice_getElem?]
  split
  · rw [writeAt_getElem? h, if_neg (by omega)]
  · rfl

/-- A region that starts with the written one reads the data and its own rest. -/
theorem slice_writeAt_head {mem data : List α} {off stop : ℕ}
    (h : off + data.length ≤ mem.length) (hs : off + data.length ≤ stop) :
    slice (writeAt mem off data) off stop = data ++ slice mem (off + data.length) stop := by
  have htake : (mem.take off).length = off := by
    rw [List.length_take]
    omega
  rw [slice, writeAt, List.drop_append_of_le_length (by omega),
    List.drop_of_length_le (by omega), List.nil_append, List.take_append,
    List.take_of_length_le (by omega), slice]
  congr 2
  omega

theorem take_writeAt_append {mem : List α} (data : List α) {off : ℕ} (h : off ≤ mem.length) :
    (writeAt mem off data).take (off + data.length) = mem.take off ++ data := by
  have htake : (mem.take off).length = off := by
    rw [List.length_take]
    omega
  rw [writeAt, ← List.append_assoc, List.take_append_of_le_length (by simp [htake]),
    List.take_of_length_le (by simp [htake])]

/-! ## Many writes of the same data -/

variable {data : List α}

@[simp] theorem writeAll_nil (mem : List α) : writeAll data [] mem = mem := rfl

theorem writeAll_cons (off : ℕ) (sites : List ℕ) (mem : List α) :
    writeAll data (off :: sites) mem = writeAll data sites (writeAt mem off data) := rfl

theorem writeAll_append (sites more : List ℕ) (mem : List α) :
    writeAll data (sites ++ more) mem = writeAll data more (writeAll data sites mem) :=
  List.foldl_append

theorem writeAll_length {sites : List ℕ} {mem : List α}
    (h : ∀ off ∈ sites, off + data.length ≤ mem.length) :
    (writeAll data sites mem).length = mem.length := by
  induction sites generalizing mem with
  | nil => rfl
  | cons off sites ih =>
      have hlen := writeAt_length (h off List.mem_cons_self)
      rw [writeAll_cons, ih fun o ho => hlen ▸ h o (List.mem_cons_of_mem _ ho), hlen]

theorem slice_writeAll_disjoint {sites : List ℕ} {mem : List α} {start stop : ℕ}
    (h : ∀ off ∈ sites, off + data.length ≤ mem.length)
    (hd : ∀ off ∈ sites, stop ≤ off ∨ off + data.length ≤ start) :
    slice (writeAll data sites mem) start stop = slice mem start stop := by
  induction sites generalizing mem with
  | nil => rfl
  | cons off sites ih =>
      have hhead := h off List.mem_cons_self
      have hlen := writeAt_length hhead
      rw [writeAll_cons, ih (fun o ho => hlen ▸ h o (List.mem_cons_of_mem _ ho))
        fun o ho => hd o (List.mem_cons_of_mem _ ho),
        slice_writeAt_disjoint hhead (hd off List.mem_cons_self)]

/-- A region whose head is among the sites reads the data there and its own rest, when every
other site stays clear of it. -/
theorem slice_writeAll_head {sites : List ℕ} {mem : List α} {start stop : ℕ}
    (h : ∀ off ∈ sites, off + data.length ≤ mem.length) (hs : start + data.length ≤ stop)
    (hd : ∀ off ∈ sites, off = start ∨ stop ≤ off ∨ off + data.length ≤ start)
    (hmem : start ∈ sites) :
    slice (writeAll data sites mem) start stop = data ++ slice mem (start + data.length) stop := by
  induction sites generalizing mem with
  | nil => cases hmem
  | cons off sites ih =>
      have hhead := h off List.mem_cons_self
      have hlen := writeAt_length hhead
      have htail : ∀ o ∈ sites, o + data.length ≤ (writeAt mem off data).length :=
        fun o ho => hlen ▸ h o (List.mem_cons_of_mem _ ho)
      have hdtail := fun o ho => hd o (List.mem_cons_of_mem _ ho)
      rw [writeAll_cons]
      by_cases hin : start ∈ sites
      · rw [ih htail hdtail hin]
        congr 1
        apply slice_writeAt_disjoint hhead
        rcases hd off List.mem_cons_self with rfl | hd | hd
        · right; omega
        · left; omega
        · right; omega
      · have hoff : off = start := by
          rcases List.mem_cons.mp hmem with rfl | hin'
          · rfl
          · exact absurd hin' hin
        rw [slice_writeAll_disjoint htail, hoff, slice_writeAt_head (hoff ▸ hhead) hs]
        intro o ho
        rcases hdtail o ho with rfl | hd
        · exact absurd ho hin
        · exact hd

/-- A position that some site covers reads the value written there, when all data are one
value. -/
theorem writeAll_covered {c : α} {n p : ℕ} {sites : List ℕ} {mem : List α}
    (h : ∀ off ∈ sites, off + n ≤ mem.length) (hcov : ∃ off ∈ sites, off ≤ p ∧ p < off + n) :
    (writeAll (List.replicate n c) sites mem)[p]? = some c := by
  have hlen : (List.replicate n c).length = n := List.length_replicate
  have hone : ∀ {mem : List α} {off : ℕ}, off + n ≤ mem.length → off ≤ p → p < off + n →
      (writeAt mem off (List.replicate n c))[p]? = some c := by
    intro mem off hin hlo hhi
    rw [writeAt_getElem? (by omega), hlen, if_pos ⟨hlo, hhi⟩, List.getElem?_replicate,
      if_pos (by omega)]
  suffices hall : ∀ mem : List α, (∀ off ∈ sites, off + n ≤ mem.length) →
      ((∃ off ∈ sites, off ≤ p ∧ p < off + n) ∨ mem[p]? = some c) →
      (writeAll (List.replicate n c) sites mem)[p]? = some c from hall mem h (.inl hcov)
  clear h hcov
  induction sites with
  | nil =>
      rintro mem - (⟨off, hoff, -⟩ | hp)
      · cases hoff
      · exact hp
  | cons off sites ih =>
      intro mem hin hp
      have hhead := hin off List.mem_cons_self
      have hkeep : (writeAt mem off (List.replicate n c)).length = mem.length :=
        writeAt_length (by omega)
      rw [writeAll_cons]
      apply ih
      · intro o ho
        rw [hkeep]
        exact hin o (List.mem_cons_of_mem _ ho)
      · by_cases hcov : off ≤ p ∧ p < off + n
        · exact .inr (hone hhead hcov.1 hcov.2)
        · rcases hp with ⟨o, ho, hop⟩ | hp
          · rcases List.mem_cons.mp ho with rfl | ho
            · exact absurd hop hcov
            · exact .inl ⟨o, ho, hop⟩
          · right
            rw [writeAt_getElem? (by omega), hlen, if_neg hcov, hp]

end HftProj.Lib
