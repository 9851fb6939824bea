import Mathlib.Data.UInt
import RxSolutions.Durable.Checks
import RxSolutions.Durable.Checksum

/-!
# Validation of a copied write-ahead log

Before SQLite may open a copied journal, the bytes of its write-ahead log are checked: SQLite
itself would ignore what it does not trust. A log is a header and whole frames, each with a
checksum that continues the one before. The page of a frame is read in pieces of 4096 bytes.
-/

namespace RxSolutions.Executor.Wal

open Durable

/-- The content of a file. -/
abbrev Bytes := List UInt8

/-- The two words of a running checksum. -/
abbrev Sums := UInt32 × UInt32

/-- Why a log is refused. -/
inductive Error
  | integrity (detail : String)
  | invalid (detail : String)
  deriving DecidableEq, Repr

/-- The log is not well formed. -/
def invalid (message : String) : Error := .integrity ("RECOVERY_WAL_INVALID: " ++ message)

/-- The log ends in what cannot be proven. -/
def tail (message : String) : Error := .integrity ("RECOVERY_WAL_TAIL_UNPROVEN: " ++ message)

/-- The file is shorter than what is read. -/
def readError : Error := .integrity "RECOVERY_WAL_UNREADABLE: failed to fill whole buffer"

/-- The file is too long. -/
def limitExceeded : Error := .invalid "RECOVERY_INSPECT_LIMIT_EXCEEDED: WAL/DB exceeds 64 MiB"

/-- The most that is read of a file. -/
def maxBytes : ℕ := 64 * 1024 * 1024

/-- The highest page number. -/
def maxPage : ℕ := 0xfffffffe

/-- The magic of a log with little-endian sums. -/
def magicLe : UInt32 := 0x377f0682

/-- The magic of a log with big-endian sums. -/
def magicBe : UInt32 := 0x377f0683

/-- The only version there is. -/
def walVersion : UInt32 := 3007000

/-! ## The source -/

/-- `from_be_bytes`. -/
def be (bytes : Bytes) : UInt32 :=
  UInt32.ofNat (bytes.foldl (fun n b => n * 256 + b.toNat) 0)

/-- The bytes from `i` to `j`. -/
def slice (bytes : Bytes) (i j : ℕ) : Bytes := (bytes.drop i).take (j - i)

/-- A word of four bytes, in the byte order of the magic. -/
def word (bigEndian : Bool) (a b c d : UInt8) : UInt32 :=
  if bigEndian then be [a, b, c, d] else be [d, c, b, a]

/-- `checksum`. -/
def checksum (bigEndian : Bool) : Bytes → Sums → Sums
  | a :: b :: c :: d :: e :: f :: g :: h :: rest, state =>
    let first := state.1 + word bigEndian a b c d + state.2
    checksum bigEndian rest (first, state.2 + word bigEndian e f g h + first)
  | _, state => state

/-- `page_size`. -/
def PageSize (value : ℕ) : Prop := 512 ≤ value ∧ value ≤ 65536 ∧ value = 2 ^ value.log2

instance (value : ℕ) : Decidable (PageSize value) := inferInstanceAs (Decidable (_ ∧ _ ∧ _))

/-- `b"SQLite format 3\0"`. -/
def databaseMagic : Bytes :=
  [0x53, 0x51, 0x4c, 0x69, 0x74, 0x65, 0x20, 0x66, 0x6f, 0x72, 0x6d, 0x61, 0x74, 0x20, 0x33, 0x00]

/-- The page size in the header of a database. -/
def databasePage (db : Bytes) : Except Error ℕ := do
  if maxBytes < db.length then throw limitExceeded
  if db.length < 100 then throw readError
  if db.take 16 ≠ databaseMagic then throw (invalid "database header magic differs")
  let raw := (be (slice db 16 18)).toNat
  let page := if raw = 1 then 65536 else raw
  if ¬ PageSize page ∨ db.length < page ∨ db.length % page ≠ 0 then
    throw (invalid "database page size or complete page coverage differs")
  return page

/-- `read_exact`: the next bytes, and what follows them. -/
def readExact (n : ℕ) (input : Bytes) : Except Error (Bytes × Bytes) :=
  if n ≤ input.length then .ok (input.take n, input.drop n) else .error readError

/-- The byte order that a magic stands for. -/
def byteOrder (magic : UInt32) : Except Error Bool :=
  if magic = magicLe then .ok false
  else if magic = magicBe then .ok true
  else .error (invalid "WAL header magic differs")

/-- The two words of a stored checksum. -/
def storedSums (bytes : Bytes) : Sums := (be (bytes.take 4), be (bytes.drop 4))

/-- The check on the header: the byte order, the page size and the checksum to continue from. -/
def checkHeader (dbPage : ℕ) (header : Bytes) : Except Error (Bool × ℕ × Sums) := do
  let bigEndian ← byteOrder (be (header.take 4))
  if be (slice header 4 8) ≠ walVersion then throw (invalid "unsupported WAL format version")
  let page := (be (slice header 8 12)).toNat
  if ¬ PageSize page ∨ page ≠ dbPage then throw (invalid "WAL/database page sizes differ")
  let state := checksum bigEndian (header.take 24) (0, 0)
  if state ≠ storedSums (slice header 24 32) then throw (invalid "WAL header checksum differs")
  return (bigEndian, page, state)

/-- The page of a frame, in pieces of 4096 bytes. -/
def sumPieces (bigEndian : Bool) (remaining : ℕ) (state : Sums) (input : Bytes) :
    Except Error (Sums × Bytes) :=
  if remaining = 0 then .ok (state, input)
  else do
    let piece ← readExact (min remaining 4096) input
    sumPieces bigEndian (remaining - min remaining 4096) (checksum bigEndian piece.1 state) piece.2
termination_by remaining

/-- One frame: the checksum after it, whether it commits, and what follows it. -/
def readFrame (header : Bytes) (bigEndian : Bool) (page : ℕ) (state : Sums) (input : Bytes) :
    Except Error (Sums × Bool × Bytes) := do
  let frame ← readExact 24 input
  if slice frame.1 8 16 ≠ slice header 16 24 then
    throw (tail "frame salt differs; reuse leftovers or damage are not distinguished")
  let pageNumber := (be (frame.1.take 4)).toNat
  let commitPages := (be (slice frame.1 4 8)).toNat
  if pageNumber = 0 ∨ maxPage < pageNumber ∨ maxPage < commitPages then
    throw (invalid "frame page number or commit database size is outside SQLite range")
  let sums ← sumPieces bigEndian page (checksum bigEndian (frame.1.take 8) state) frame.2
  if sums.1 ≠ storedSums (slice frame.1 16 24) then
    throw (tail ("frame checksum differs; a committed prefix is not enough to accept an " ++
      "uncertain tail"))
  return (sums.1, commitPages ≠ 0, sums.2)

/-- The frames, and whether the last one commits. -/
def readFrames (header : Bytes) (bigEndian : Bool) (page : ℕ) :
    ℕ → Sums → Bool → Bytes → Except Error (Bool × Bytes)
  | 0, _, lastCommit, input => .ok (lastCommit, input)
  | n + 1, state, _, input => do
    let frame ← readFrame header bigEndian page state input
    readFrames header bigEndian page n frame.1 frame.2.1 frame.2.2

/-- The frames of a log behind its header. -/
def validateFrames (log : Bytes) (bigEndian : Bool) (page : ℕ) (state : Sums) :
    Except Error Unit := do
  if (log.length - 32) % (page + 24) ≠ 0 then
    throw (tail "partial frame or residual trailing bytes")
  let result ← readFrames (log.take 32) bigEndian page ((log.length - 32) / (page + 24)) state false
    (log.drop 32)
  if result.1 = false then throw (tail "complete but uncommitted final frames")
  if result.2 ≠ [] then throw (tail "copied WAL changed during validation")
  return ()

/-- `validate_copy` of a log that is there. -/
def validateLog (dbPage : ℕ) (log : Bytes) : Except Error Unit := do
  if maxBytes < log.length then throw limitExceeded
  if log.length = 0 then return ()
  else
    if log.length < 32 then throw (tail "incomplete WAL header")
    let checked ← checkHeader dbPage (log.take 32)
    if log.length = 32 then return ()
    else validateFrames log checked.1 checked.2.1 checked.2.2

/-- `validate_copy` of a database and the log beside it, if there is one. -/
def validateCopy (db : Bytes) (wal : Option Bytes) : Except Error Unit := do
  let page ← databasePage db
  match wal with
  | none => return ()
  | some log => validateLog page log

/-! ## What a log should be -/

/-- The running checksum over the words of some bytes. -/
def running (bigEndian : Bool) (bytes : Bytes) (s : Sums) : Sums :=
  Checksum.run (Checksum.words (word bigEndian) bytes) s

/-- A valid header for databases with pages of size `page`. -/
structure HeaderOk (page : ℕ) (bigEndian : Bool) (header : Bytes) : Prop where
  length : header.length = 32
  magic : be (header.take 4) = if bigEndian then magicBe else magicLe
  version : be (slice header 4 8) = walVersion
  page : (be (slice header 8 12)).toNat = page
  sums : storedSums (slice header 24 32) = running bigEndian (header.take 24) (0, 0)

/-- A whole frame with the salts of the header, whose checksum continues from `s`. -/
structure FrameOk (page : ℕ) (bigEndian : Bool) (salts : Bytes) (s : Sums)
    (frame : Bytes) : Prop where
  length : frame.length = page + 24
  salts : slice frame 8 16 = salts
  number : 1 ≤ (be (frame.take 4)).toNat ∧ (be (frame.take 4)).toNat ≤ maxPage
  commit : (be (slice frame 4 8)).toNat ≤ maxPage
  sums : storedSums (slice frame 16 24) = running bigEndian (frame.take 8 ++ frame.drop 24) s

/-- The frame commits. -/
def Commits (frame : Bytes) : Prop := (be (slice frame 4 8)).toNat ≠ 0

instance (frame : Bytes) : Decidable (Commits frame) := inferInstanceAs (Decidable (_ ≠ _))

/-- Frames with one running checksum that continues from `s`. -/
inductive Chained (page : ℕ) (bigEndian : Bool) (salts : Bytes) : Sums → List Bytes → Prop
  | nil {s : Sums} : Chained page bigEndian salts s []
  | cons {s : Sums} {frame : Bytes} {frames : List Bytes}
      (ok : FrameOk page bigEndian salts s frame)
      (next : Chained page bigEndian salts (storedSums (slice frame 16 24)) frames) :
      Chained page bigEndian salts s (frame :: frames)

/-- A log that supplies no frames, or only whole, chained ones with a commit at the end. -/
def WellFormed (page : ℕ) (log : Bytes) : Prop :=
  log = [] ∨ ∃ bigEndian header frames, log = header ++ frames.flatten ∧
    HeaderOk page bigEndian header ∧
    Chained page bigEndian (slice header 16 24) (storedSums (slice header 24 32)) frames ∧
    ∀ last ∈ frames.getLast?, Commits last

/-! ## The checksum -/

theorem checksum_eq {bigEndian : Bool} {bytes : Bytes} (s : Sums) :
    checksum bigEndian bytes s = running bigEndian bytes s := by
  induction bytes, s using checksum.induct bigEndian with
  | case1 a b c d e f g h rest s first ih =>
    rw [checksum]
    exact ih
  | case2 bytes s hbytes =>
    -- fewer than eight bytes are at most one word, which is not read
    match bytes, hbytes with
    | [], _ | [_], _ | [_, _], _ | [_, _, _], _ => rfl
    | [_, _, _, _], _ | [_, _, _, _, _], _ | [_, _, _, _, _, _], _ => rfl
    | [_, _, _, _, _, _, _], _ => rfl
    | a :: b :: c :: d :: e :: f :: g :: h :: rest, hbytes =>
      exact (hbytes a b c d e f g h rest rfl).elim

theorem running_append {bigEndian : Bool} {bytes : Bytes} (h : 8 ∣ bytes.length) (more : Bytes)
    (s : Sums) :
    running bigEndian (bytes ++ more) s = running bigEndian more (running bigEndian bytes s) := by
  unfold running
  rw [Checksum.words_append _ (Nat.dvd_trans (by decide) h), Checksum.run_append]
  exact Checksum.even_words _ h

theorem be_injective {l l' : Bytes} (hl : l.length = 4) (hl' : l'.length = 4) (h : be l = be l') :
    l = l' := by
  match l, l', hl, hl' with
  | [a, b, c, d], [a', b', c', d'], _, _ =>
    have ha := a.toNat_lt
    have hb := b.toNat_lt
    have hc := c.toNat_lt
    have hd := d.toNat_lt
    have ha' := a'.toNat_lt
    have hb' := b'.toNat_lt
    have hc' := c'.toNat_lt
    have hd' := d'.toNat_lt
    have hnat := congrArg UInt32.toNat h
    simp only [be, List.foldl_cons, List.foldl_nil, UInt32.toNat_ofNat'] at hnat
    rw [Nat.mod_eq_of_lt (by omega), Nat.mod_eq_of_lt (by omega)] at hnat
    have h₁ : a = a' := UInt8.toNat_inj.mp (by omega)
    have h₂ : b = b' := UInt8.toNat_inj.mp (by omega)
    have h₃ : c = c' := UInt8.toNat_inj.mp (by omega)
    have h₄ : d = d' := UInt8.toNat_inj.mp (by omega)
    rw [h₁, h₂, h₃, h₄]

theorem word_injective (bigEndian : Bool) (a b c d a' b' c' d' : UInt8)
    (h : word bigEndian a b c d = word bigEndian a' b' c' d') :
    [a, b, c, d] = [a', b', c', d'] := by
  cases bigEndian with
  | true => exact be_injective rfl rfl h
  | false =>
    have heq : [d, c, b, a] = [d', c', b', a'] := be_injective rfl rfl h
    simp only [List.cons.injEq, and_true] at heq ⊢
    exact ⟨heq.2.2.2, heq.2.2.1, heq.2.1, heq.1⟩

/-- The running checksum finds a word that differs. -/
theorem running_ne (bigEndian : Bool) {bytes bytes' : Bytes} (h : Checksum.Replaced bytes bytes')
    (hlength : 8 ∣ bytes.length) (s : Sums) :
    running bigEndian bytes s ≠ running bigEndian bytes' s :=
  Checksum.run_words_ne (word_injective bigEndian) h hlength s

theorem storedSums_injective {l l' : Bytes} (hl : l.length = 8) (hl' : l'.length = 8)
    (h : storedSums l = storedSums l') : l = l' := by
  obtain ⟨hfirst, hsecond⟩ := Prod.mk.inj h
  rw [← List.take_append_drop 4 l, ← List.take_append_drop 4 l',
    be_injective (by simp [hl]) (by simp [hl']) hfirst,
    be_injective (by simp [hl]) (by simp [hl']) hsecond]

/-! ## Slices -/

section Slice

variable {l l' : Bytes} {i j n : ℕ}

theorem length_slice (hi : i ≤ j) (hj : j ≤ l.length) : (slice l i j).length = j - i := by
  rw [slice, List.length_take, List.length_drop]
  omega

theorem slice_take (hi : i ≤ j) (hj : j ≤ n) : slice (l.take n) i j = slice l i j := by
  rw [slice, slice, List.drop_take, List.take_take, Nat.min_eq_left (by omega)]

end Slice

/-! ## Frames -/

theorem PageSize.dvd {page : ℕ} (h : PageSize page) : 8 ∣ page := by
  obtain ⟨hge, -, hpow⟩ := h
  have hlog : 3 ≤ page.log2 := by
    by_contra hlt
    have hle : 2 ^ page.log2 ≤ 2 ^ 2 := Nat.pow_le_pow_right (by decide) (by omega)
    omega
  rw [hpow]
  exact Nat.pow_dvd_pow 2 hlog

theorem readExact_eq_ok {n : ℕ} {input : Bytes} {r : Bytes × Bytes} :
    readExact n input = .ok r ↔ n ≤ input.length ∧ r = (input.take n, input.drop n) := by
  unfold readExact
  split_ifs with h
  · simp [h, eq_comm]
  · simp [h]

/-- The pieces do not matter. -/
theorem sumPieces_eq_ok {bigEndian : Bool} {remaining : ℕ} (h : 8 ∣ remaining) {s : Sums}
    {input : Bytes} {r : Sums × Bytes} :
    sumPieces bigEndian remaining s input = .ok r ↔ remaining ≤ input.length ∧
      r = (running bigEndian (input.take remaining) s, input.drop remaining) := by
  induction remaining, s, input using sumPieces.induct bigEndian with
  | case1 s input =>
    rw [sumPieces, if_pos rfl]
    simp [running, eq_comm]
  | case2 remaining s input hne ih =>
    let count := min remaining 4096
    have hcount : 8 ∣ count := by
      rcases Nat.le_total remaining 4096 with hle | hle
      · rw [show count = remaining from Nat.min_eq_left hle]
        exact h
      · rw [show count = 4096 from Nat.min_eq_right hle]
        decide
    have hle : count ≤ remaining := Nat.min_le_left _ _
    -- the first piece and the rest are one text
    have hsum : count ≤ input.length →
        running bigEndian ((input.drop count).take (remaining - count))
          (checksum bigEndian (input.take count) s) =
            running bigEndian (input.take remaining) s := by
      intro hlength
      have htake : 8 ∣ (input.take count).length := by
        rw [List.length_take_of_le hlength]
        exact hcount
      rw [checksum_eq, ← running_append htake, ← List.take_add, Nat.add_sub_cancel' hle]
    have hdrop : (input.drop count).drop (remaining - count) = input.drop remaining := by
      rw [List.drop_drop, Nat.add_sub_cancel' hle]
    rw [sumPieces, if_neg hne, Checks.bind_eq_ok]
    constructor
    · rintro ⟨piece, hpiece, hrest⟩
      obtain ⟨hlength, rfl⟩ := readExact_eq_ok.mp hpiece
      obtain ⟨hremaining, rfl⟩ := (ih _ (Nat.dvd_sub h hcount)).mp hrest
      rw [List.length_drop] at hremaining
      exact ⟨by omega, Prod.ext (hsum hlength) hdrop⟩
    · rintro ⟨hremaining, rfl⟩
      have hlength : count ≤ input.length := Nat.le_trans hle hremaining
      refine ⟨_, readExact_eq_ok.mpr ⟨hlength, rfl⟩, (ih _ (Nat.dvd_sub h hcount)).mpr ⟨?_, ?_⟩⟩
      · rw [List.length_drop]
        omega
      · exact (Prod.ext (hsum hlength) hdrop).symm

section Frames

variable {header input : Bytes} {bigEndian : Bool} {page : ℕ} {s : Sums}

/-- A frame is read when there is a whole one that continues the checksum. -/
theorem readFrame_eq_ok (hpage : 8 ∣ page) {r : Sums × Bool × Bytes} :
    readFrame header bigEndian page s input = .ok r ↔ page + 24 ≤ input.length ∧
      FrameOk page bigEndian (slice header 16 24) s (input.take (page + 24)) ∧
      r = (storedSums (slice (input.take (page + 24)) 16 24),
        decide (Commits (input.take (page + 24))), input.drop (page + 24)) := by
  -- everything that is read is a part of the frame
  have hslice : ∀ i j, i ≤ j → j ≤ 24 →
      slice (input.take 24) i j = slice (input.take (page + 24)) i j := fun i j hi hj => by
    rw [slice_take hi hj, slice_take hi (by omega)]
  have htake : ∀ n, n ≤ 24 → (input.take 24).take n = (input.take (page + 24)).take n :=
    fun n hn => by
      rw [List.take_take, List.take_take, Nat.min_eq_left hn, Nat.min_eq_left (by omega)]
  have hdata : (input.drop 24).take page = (input.take (page + 24)).drop 24 := by
    rw [List.drop_take, Nat.add_sub_cancel]
  have hrest : (input.drop 24).drop page = input.drop (page + 24) := by
    rw [List.drop_drop, Nat.add_comm]
  simp only [readFrame, Checks.bind_eq_ok, Checks.guard_eq_ok, Checks.pure_eq_ok, readExact_eq_ok,
    sumPieces_eq_ok hpage]
  generalize hframe : input.take (page + 24) = frame at hslice htake hdata ⊢
  have hsum : page + 24 ≤ input.length →
      running bigEndian (frame.take 8 ++ frame.drop 24) s =
        running bigEndian (frame.drop 24) (checksum bigEndian (frame.take 8) s) := by
    intro hlength
    rw [checksum_eq, running_append]
    rw [← hframe, List.take_take, List.length_take]
    omega
  constructor
  · rintro ⟨_, ⟨h24, rfl⟩, hsalts, hbounds, _, ⟨hlength, rfl⟩, hsums, rfl⟩
    rw [List.length_drop] at hlength
    have hlength : page + 24 ≤ input.length := by omega
    simp only [hslice _ _ (by decide : 8 ≤ 16) (by decide),
      hslice _ _ (by decide : 4 ≤ 8) (by decide),
      hslice _ _ (by decide : 16 ≤ 24) (by decide), htake 4 (by decide), htake 8 (by decide), hdata,
      hrest, ← hsum hlength, not_not, not_or] at hsalts hbounds hsums ⊢
    refine ⟨hlength, ⟨?_, hsalts, ⟨by omega, by omega⟩, by omega, hsums.symm⟩, ?_⟩
    · rw [← hframe, List.length_take_of_le hlength]
    · rw [hsums]
      rfl
  · rintro ⟨hlength, hok, rfl⟩
    refine ⟨_, ⟨by omega, rfl⟩, ?_⟩
    simp only [hslice _ _ (by decide : 8 ≤ 16) (by decide),
      hslice _ _ (by decide : 4 ≤ 8) (by decide),
      hslice _ _ (by decide : 16 ≤ 24) (by decide), htake 4 (by decide), htake 8 (by decide), hdata,
      hrest, ← hsum hlength, not_not, not_or]
    have hnumber := hok.number
    have hcommit := hok.commit
    refine ⟨hok.salts, ⟨by omega, by omega, by omega⟩, _, ⟨?_, rfl⟩, hok.sums.symm, ?_⟩
    · rw [List.length_drop]
      omega
    · rw [hok.sums]
      rfl

theorem Chained.length_flatten {salts : Bytes} {frames : List Bytes}
    (h : Chained page bigEndian salts s frames) :
    frames.flatten.length = frames.length * (page + 24) := by
  induction h with
  | nil => simp
  | cons ok next ih =>
    rw [List.flatten_cons, List.length_append, ok.length, ih, List.length_cons, Nat.succ_mul,
      Nat.add_comm]

/-- Whether the last frame commits, or `before` if there is none. -/
def lastCommits (before : Bool) (frames : List Bytes) : Bool :=
  (frames.getLast?.map fun f => decide (Commits f)).getD before

theorem lastCommits_cons (before : Bool) (frame : Bytes) (frames : List Bytes) :
    lastCommits before (frame :: frames) = lastCommits (decide (Commits frame)) frames := by
  cases frames with
  | nil => rfl
  | cons f frames => simp only [lastCommits, List.getLast?_cons, Option.map_some,
      Option.getD_some]

/-- Frames are read when there are as many whole ones, one chained to the other. -/
theorem readFrames_eq_ok (hpage : 8 ∣ page) {n : ℕ} {before : Bool} {r : Bool × Bytes} :
    readFrames header bigEndian page n s before input = .ok r ↔ ∃ frames, frames.length = n ∧
      input = frames.flatten ++ r.2 ∧ Chained page bigEndian (slice header 16 24) s frames ∧
      r.1 = lastCommits before frames := by
  induction n generalizing s before input with
  | zero =>
    simp only [readFrames, Except.ok.injEq, List.length_eq_zero_iff, exists_eq_left]
    constructor
    · rintro rfl
      exact ⟨rfl, .nil, rfl⟩
    · rintro ⟨rfl, -, hlast⟩
      exact Prod.ext hlast.symm rfl
  | succ n ih =>
    simp only [readFrames, Checks.bind_eq_ok, readFrame_eq_ok hpage, ih]
    constructor
    · rintro ⟨_, ⟨hlength, hok, rfl⟩, frames, rfl, hinput, hchained, hlast⟩
      refine ⟨input.take (page + 24) :: frames, rfl, ?_, .cons hok hchained, ?_⟩
      · rw [List.flatten_cons, List.append_assoc, ← hinput, List.take_append_drop]
      · rw [hlast, lastCommits_cons]
    · rintro ⟨frames, hframes, hinput, hchained, hlast⟩
      cases hchained with
      | nil => cases hframes
      | @cons _ frame frames ok next =>
        rw [List.flatten_cons, List.append_assoc] at hinput
        have htake : input.take (page + 24) = frame := by rw [hinput, ← ok.length, List.take_left]
        have hdrop : input.drop (page + 24) = frames.flatten ++ r.2 := by
          rw [hinput, ← ok.length, List.drop_left]
        have hlength : page + 24 ≤ input.length := by
          rw [hinput, List.length_append, ok.length]
          omega
        refine ⟨_, ⟨hlength, by rw [htake]; exact ok, rfl⟩, frames, Nat.succ.inj hframes, hdrop, ?_,
          ?_⟩
        · rw [htake]
          exact next
        · rw [hlast, htake, lastCommits_cons]

end Frames

/-! ## The whole log -/

section Log

variable {page : ℕ} {log : Bytes}

theorem checkHeader_eq_ok {header : Bytes} (hlength : header.length = 32) (hpage : PageSize page)
    {r : Bool × ℕ × Sums} :
    checkHeader page header = .ok r ↔ HeaderOk page r.1 header ∧ r.2.1 = page ∧
      r.2.2 = storedSums (slice header 24 32) := by
  simp only [checkHeader, Checks.bind_eq_ok, Checks.guard_eq_ok, Checks.pure_eq_ok, checksum_eq,
    not_not, not_or]
  constructor
  · rintro ⟨bigEndian, horder, hversion, ⟨-, rfl⟩, hsums, rfl⟩
    refine ⟨⟨hlength, ?_, hversion, rfl, hsums.symm⟩, rfl, hsums⟩
    unfold byteOrder at horder
    split_ifs at horder with hle hbe
    · cases horder
      exact hle
    · cases horder
      exact hbe
  · rintro ⟨hok, hpage', hsums⟩
    refine ⟨r.1, ?_, hok.version, ⟨?_, hok.page⟩, hok.sums.symm, ?_⟩
    · unfold byteOrder
      rw [hok.magic]
      cases r.1 <;> rfl
    · rw [hok.page]
      exact hpage
    · rw [hok.page, ← hok.sums, ← hpage', ← hsums]

theorem validateFrames_eq_ok {bigEndian : Bool} {s : Sums} (hpage : 8 ∣ page) :
    validateFrames log bigEndian page s = .ok () ↔ ∃ frames, log.drop 32 = frames.flatten ∧
      Chained page bigEndian (slice (log.take 32) 16 24) s frames ∧
      lastCommits false frames = true := by
  simp only [validateFrames, Checks.bind_eq_ok, Checks.guard_eq_ok, Checks.pure_eq_ok,
    readFrames_eq_ok hpage, not_not, and_true, Bool.not_eq_false]
  constructor
  · rintro ⟨-, ⟨last, rest⟩, ⟨frames, -, hlog, hchained, rfl⟩, hlast, rfl⟩
    exact ⟨frames, by rw [hlog, List.append_nil], hchained, hlast⟩
  · rintro ⟨frames, hlog, hchained, hlast⟩
    have hrest : log.length - 32 = frames.length * (page + 24) := by
      rw [← hchained.length_flatten, ← hlog, List.length_drop]
    refine ⟨by rw [hrest, Nat.mul_mod_left], (true, []), ⟨frames, ?_, ?_, hchained, hlast.symm⟩,
      rfl, rfl⟩
    · rw [hrest, Nat.mul_div_cancel _ (by omega)]
    · rw [hlog, List.append_nil]

/-- A log passes exactly if it is well formed. -/
theorem validateLog_eq_ok (hpage : PageSize page) (hsize : log.length ≤ maxBytes) :
    validateLog page log = .ok () ↔ WellFormed page log := by
  rw [validateLog, Checks.guard_eq_ok]
  simp only [Nat.not_lt.mpr hsize, not_false_eq_true, true_and]
  by_cases hempty : log = []
  · simp only [hempty, List.length_nil, if_true, WellFormed, true_or, iff_true]
    rfl
  have hne : log.length ≠ 0 := fun h => hempty (List.length_eq_zero_iff.mp h)
  rw [if_neg hne, Checks.guard_eq_ok, Checks.bind_eq_ok]
  constructor
  · rintro ⟨hlength, r, hheader, hframes⟩
    have h32 : 32 ≤ log.length := Nat.not_lt.mp hlength
    obtain ⟨hok, hpage', hsums⟩ := (checkHeader_eq_ok (List.length_take_of_le h32) hpage).mp hheader
    by_cases hlast : log.length = 32
    · refine .inr ⟨r.1, log, [], by simp, ?_, .nil, by simp⟩
      rwa [← hlast, List.take_length] at hok
    · rw [if_neg hlast, hpage', hsums] at hframes
      obtain ⟨frames, hlog, hchained, hcommits⟩ := (validateFrames_eq_ok hpage.dvd).mp hframes
      refine .inr ⟨r.1, log.take 32, frames, ?_, hok, hchained, fun f hf => ?_⟩
      · rw [← hlog, List.take_append_drop]
      · simpa [lastCommits, Option.mem_def.mp hf] using hcommits
  · rintro (h | ⟨bigEndian, header, frames, rfl, hok, hchained, hlast⟩)
    · exact absurd h hempty
    · have htake : (header ++ frames.flatten).take 32 = header := by
        rw [← hok.length, List.take_left]
      have hdrop : (header ++ frames.flatten).drop 32 = frames.flatten := by
        rw [← hok.length, List.drop_left]
      have h32 : 32 ≤ (header ++ frames.flatten).length := by
        rw [List.length_append, hok.length]
        omega
      refine ⟨Nat.not_lt.mpr h32, (bigEndian, page, storedSums (slice header 24 32)), ?_, ?_⟩
      · rw [htake, checkHeader_eq_ok hok.length hpage]
        exact ⟨hok, rfl, rfl⟩
      · cases frames with
        | nil =>
          rw [if_pos (by simp [hok.length])]
          rfl
        | cons f frames =>
          have hlength := hchained.length_flatten
          rw [List.length_cons, Nat.succ_mul] at hlength
          rw [if_neg (by rw [List.length_append, hok.length, hlength]; omega),
            validateFrames_eq_ok hpage.dvd, htake]
          refine ⟨f :: frames, hdrop, hchained, ?_⟩
          rw [lastCommits_cons]
          cases hl : frames.getLast? with
          | none => simpa [lastCommits, hl, List.getLast?_cons] using hlast
          | some g => simpa [lastCommits, hl, List.getLast?_cons] using hlast

end Log

/-! ## One word that differs -/

section Replaced

open Checksum

variable {page : ℕ} {bigEndian : Bool} {salts : Bytes} {s : Sums}

theorem drop_eq_slice_append (l : Bytes) {i j : ℕ} (h : i ≤ j) :
    l.drop i = slice l i j ++ l.drop j := by
  calc l.drop i = (l.drop i).take (j - i) ++ (l.drop i).drop (j - i) :=
        (List.take_append_drop _ _).symm
    _ = slice l i j ++ l.drop j := by
        rw [List.drop_drop, Nat.add_sub_cancel' h]
        rfl

/-- The parts of a frame: what is summed in front, the salts, the checksum and the page. -/
theorem frame_parts (frame : Bytes) :
    frame = frame.take 8 ++ (slice frame 8 16 ++ (slice frame 16 24 ++ frame.drop 24)) := by
  rw [← drop_eq_slice_append frame (by decide), ← drop_eq_slice_append frame (by decide),
    List.take_append_drop]

/-- Two frames that continue one checksum do not differ in one word only. -/
theorem FrameOk.not_replaced (hpage : 8 ∣ page) {frame frame' : Bytes}
    (h : FrameOk page bigEndian salts s frame) (h' : FrameOk page bigEndian salts s frame') :
    ¬ Replaced frame frame' := by
  intro hreplaced
  have hlength := h.length
  have hlength' := h'.length
  have hfront : ∀ {f : Bytes}, f.length = page + 24 → (f.take 8).length = 8 := fun hf =>
    List.length_take_of_le (by omega)
  have hslice : ∀ {f : Bytes} {i j : ℕ}, f.length = page + 24 → i ≤ j → j ≤ 24 →
      (slice f i j).length = j - i := fun hf hi hj => length_slice hi (by omega)
  have hsummed : ∀ {f : Bytes}, f.length = page + 24 → 8 ∣ (f.take 8 ++ f.drop 24).length := by
    intro f hf
    rw [List.length_append, hfront hf, List.length_drop]
    omega
  rw [frame_parts frame, frame_parts frame'] at hreplaced
  rcases hreplaced.append (by rw [hfront hlength, hfront hlength']) (by rw [hfront hlength]; decide)
    with ⟨hfirst, hrest⟩ | ⟨hfirst, hrest⟩
  · -- the page number or the commit size: the checksum differs, what is stored does not
    obtain ⟨-, hrest⟩ := List.append_inj hrest
      (by rw [hslice hlength (by decide) (by decide), hslice hlength' (by decide) (by decide)])
    obtain ⟨hstored, hdata⟩ := List.append_inj hrest
      (by rw [hslice hlength (by decide) (by decide), hslice hlength' (by decide) (by decide)])
    refine running_ne bigEndian (hfirst.append_right (frame.drop 24)) (hsummed hlength) s ?_
    rw [← h.sums, hdata, ← h'.sums, hstored]
  · rcases hrest.append
      (by rw [hslice hlength (by decide) (by decide), hslice hlength' (by decide) (by decide)])
      (by rw [hslice hlength (by decide) (by decide)]; decide)
      with ⟨hsalts, -⟩ | ⟨-, hrest⟩
    · exact hsalts.ne (h.salts.trans h'.salts.symm)
    · rcases hrest.append
        (by rw [hslice hlength (by decide) (by decide), hslice hlength' (by decide) (by decide)])
        (by rw [hslice hlength (by decide) (by decide)]; decide)
        with ⟨hstored, hdata⟩ | ⟨hstored, hdata⟩
      · refine hstored.ne (storedSums_injective (hslice hlength (by decide) (by decide))
          (hslice hlength' (by decide) (by decide)) ?_)
        rw [h.sums, h'.sums, hfirst, hdata]
      · refine running_ne bigEndian
          (hdata.append_left (x := frame.take 8) (by rw [hfront hlength]; decide))
          (hsummed hlength) s ?_
        rw [← h.sums, hfirst, ← h'.sums, hstored]

theorem Chained.not_replaced (hpage : 8 ∣ page) {frames frames' : List Bytes}
    (h : Chained page bigEndian salts s frames) (h' : Chained page bigEndian salts s frames') :
    ¬ Replaced frames.flatten frames'.flatten := by
  induction h generalizing frames' with
  | nil =>
    intro hreplaced
    cases h' with
    | nil => exact hreplaced.ne rfl
    | cons ok next =>
      have hlength := hreplaced.length
      rw [List.flatten_cons, List.length_append, ok.length, List.flatten_nil,
        List.length_nil] at hlength
      omega
  | cons ok next ih =>
    intro hreplaced
    cases h' with
    | nil =>
      have hlength := hreplaced.length
      rw [List.flatten_cons, List.length_append, ok.length, List.flatten_nil,
        List.length_nil] at hlength
      omega
    | cons ok' next' =>
      rw [List.flatten_cons, List.flatten_cons] at hreplaced
      rcases hreplaced.append (by rw [ok.length, ok'.length]) (by rw [ok.length]; omega)
        with ⟨hframe, -⟩ | ⟨hframe, hrest⟩
      · exact ok.not_replaced hpage ok' hframe
      · subst hframe
        exact ih next' hrest

theorem HeaderOk.not_replaced {header header' : Bytes} (h : HeaderOk page bigEndian header)
    (h' : HeaderOk page bigEndian header') : ¬ Replaced header header' := by
  intro hreplaced
  have hparts : ∀ {l : Bytes}, l.length = 32 → l = l.take 24 ++ slice l 24 32 := by
    intro l hl
    have hrest : slice l 24 32 = l.drop 24 :=
      List.take_of_length_le (by rw [List.length_drop]; omega)
    rw [hrest, List.take_append_drop]
  have hfirst : ∀ {l : Bytes}, l.length = 32 → (l.take 24).length = 24 := fun hl =>
    List.length_take_of_le (by omega)
  have hsecond : ∀ {l : Bytes}, l.length = 32 → (slice l 24 32).length = 8 := fun hl =>
    length_slice (by decide) (by omega)
  rw [hparts h.length, hparts h'.length] at hreplaced
  rcases hreplaced.append (by rw [hfirst h.length, hfirst h'.length])
    (by rw [hfirst h.length]; decide) with ⟨hsummed, hstored⟩ | ⟨hsummed, hstored⟩
  · refine running_ne bigEndian hsummed (by rw [hfirst h.length]; decide) (0, 0) ?_
    rw [← h.sums, ← h'.sums, hstored]
  · refine hstored.ne (storedSums_injective (hsecond h.length) (hsecond h'.length) ?_)
    rw [h.sums, h'.sums, hsummed]

theorem HeaderOk.byteOrder {order : Bool} {header header' : Bytes}
    (h : HeaderOk page bigEndian header) (h' : HeaderOk page order header')
    (hmagic : header.take 4 = header'.take 4) : order = bigEndian := by
  have heq := h.magic.symm.trans (hmagic ▸ h'.magic)
  cases bigEndian <;> cases order <;> first | rfl | exact absurd heq (by decide)

/-- No word of a well-formed log can be replaced, other than its magic. -/
theorem not_wellFormed_of_replaced (hpage : PageSize page) {log log' : Bytes}
    (h : WellFormed page log) (hreplaced : Replaced log log') (hmagic : log.take 4 = log'.take 4) :
    ¬ WellFormed page log' := by
  rintro (rfl | ⟨order, header', frames', rfl, hok', hchained', -⟩)
  · -- an empty log has no words
    obtain ⟨a, w, w', b, -, hnil, -, hw', -⟩ := hreplaced
    have hlength := congrArg List.length hnil
    simp only [List.length_append, List.length_nil, hw'] at hlength
    omega
  · rcases h with rfl | ⟨bigEndian, header, frames, rfl, hok, hchained, -⟩
    · have hlength := hreplaced.length
      rw [List.length_append, hok'.length, List.length_nil] at hlength
      omega
    · rw [List.take_append_of_le_length (by rw [hok.length]; decide),
        List.take_append_of_le_length (by rw [hok'.length]; decide)] at hmagic
      obtain rfl := hok.byteOrder hok' hmagic
      rcases hreplaced.append (by rw [hok.length, hok'.length]) (by rw [hok.length]; decide)
        with ⟨hheader, -⟩ | ⟨hheader, hframes⟩
      · exact hok.not_replaced hok' hheader
      · subst hheader
        exact hchained.not_replaced hpage.dvd hchained' hframes

end Replaced

/-! ## The check -/

/-- A database whose header is valid. -/
structure Database where
  bytes : Bytes
  page : ℕ
  valid : databasePage bytes = .ok page

-- the header of a database of one page of 512 bytes
example : databasePage (databaseMagic ++ [2, 0] ++ List.replicate 494 0) = .ok 512 := by
  decide +kernel

theorem Database.pageSize (db : Database) : PageSize db.page := by
  have h := db.valid
  simp only [databasePage, Checks.guard_eq_ok, Checks.pure_eq_ok] at h
  obtain ⟨-, -, -, hpage, heq⟩ := h
  rw [← heq]
  exact (not_or.mp hpage).1 |> not_not.mp

theorem validateCopy_eq (db : Database) (wal : Option Bytes) :
    validateCopy db.bytes wal = match wal with
      | none => .ok ()
      | some log => validateLog db.page log := by
  rw [validateCopy, db.valid]
  cases wal <;> rfl

/-- For every valid database and every log of at most 64 MiB: an absent log is accepted, a log that
is there exactly if it is well formed; and no log is accepted that differs from an accepted one in
one aligned word other than the magic. -/
theorem wal_check_exact (db : Database) :
    validateCopy db.bytes none = .ok () ∧
    (∀ log, log.length ≤ maxBytes →
      (validateCopy db.bytes (some log) = .ok () ↔ WellFormed db.page log)) ∧
    ∀ log log', log.length ≤ maxBytes → log ≠ [] → validateCopy db.bytes (some log) = .ok () →
      Checksum.Replaced log log' → log.take 4 = log'.take 4 →
      validateCopy db.bytes (some log') ≠ .ok () := by
  simp only [validateCopy_eq]
  refine ⟨trivial, fun log hsize => validateLog_eq_ok db.pageSize hsize, ?_⟩
  intro log log' hsize _ hok hreplaced hmagic
  rw [validateLog_eq_ok db.pageSize hsize] at hok
  rw [Ne, validateLog_eq_ok db.pageSize (hreplaced.length ▸ hsize)]
  exact not_wellFormed_of_replaced db.pageSize hok hreplaced hmagic

/-! ## Cut logs -/

section Cut

variable {page : ℕ} {bigEndian order : Bool} {salts salts' : Bytes} {s s' : Sums}
  {frames frames' : List Bytes}

theorem Chained.take (h : Chained page bigEndian salts s frames) (n : ℕ) :
    Chained page bigEndian salts s (frames.take n) := by
  induction h generalizing n with
  | nil => simpa using .nil
  | cons ok _ ih =>
    cases n with
    | zero => exact .nil
    | succ n => exact .cons ok (ih n)

theorem Chained.length_of_mem (h : Chained page bigEndian salts s frames) :
    ∀ f ∈ frames, f.length = page + 24 := by
  induction h with
  | nil => simp
  | cons ok _ ih => exact List.forall_mem_cons.mpr ⟨ok.length, ih⟩

/-- All frames have one length, so the bytes tell where each of them ends. -/
theorem Chained.prefix_of_flatten (h : Chained page bigEndian salts s frames)
    (h' : Chained page order salts' s' frames') (hflat : frames.flatten <+: frames'.flatten) :
    frames <+: frames' := by
  induction h generalizing s' frames' with
  | nil => exact List.nil_prefix
  | cons ok _ ih =>
    cases h' with
    | nil =>
      have hlength := hflat.length_le
      rw [List.flatten_cons, List.length_append, ok.length, List.flatten_nil] at hlength
      simp at hlength
    | cons ok' next =>
      obtain ⟨rest, hrest⟩ := hflat
      rw [List.flatten_cons, List.flatten_cons, List.append_assoc] at hrest
      obtain ⟨rfl, htail⟩ := List.append_inj hrest (ok.length.trans ok'.length.symm)
      exact (List.prefix_cons_inj _).mpr (ih next ⟨rest, htail⟩)

end Cut

/-- A log that is accepted beside the database. -/
structure Database.Log (db : Database) where
  bytes : Bytes
  small : bytes.length ≤ maxBytes
  accepted : validateCopy db.bytes (some bytes) = .ok ()

/-- An accepted log that was cut off, wherever that was, is accepted exactly if nothing is left
of it, or its header with whole frames of which the last commits. -/
theorem cut_log_accepted_iff (db : Database) (log : db.Log) :
    log.bytes = [] ∨ ∃ (header : Bytes) (frames : List Bytes), header.length = 32 ∧
      (∀ f ∈ frames, f.length = db.page + 24) ∧ log.bytes = header ++ frames.flatten ∧
      ∀ k, validateCopy db.bytes (some (log.bytes.take k)) = .ok () ↔
        log.bytes.take k = [] ∨ ∃ n, log.bytes.take k = header ++ (frames.take n).flatten ∧
          ∀ last ∈ (frames.take n).getLast?, Commits last := by
  have hcut k : (log.bytes.take k).length ≤ maxBytes :=
    (List.length_take_le' k log.bytes).trans log.small
  have haccepted := log.accepted
  rw [validateCopy_eq, validateLog_eq_ok db.pageSize log.small] at haccepted
  simp only [validateCopy_eq, validateLog_eq_ok db.pageSize (hcut _)]
  refine haccepted.imp_right ?_
  rintro ⟨bigEndian, header, frames, hlog, hok, hchained, -⟩
  refine ⟨header, frames, hok.length, hchained.length_of_mem, hlog, fun k =>
    or_congr_right ⟨?_, ?_⟩⟩
  · rintro ⟨order, header', frames', heq, hok', hchained', hlast⟩
    -- what is left begins with the same header and then the same frames
    obtain ⟨rest, hrest⟩ := List.take_prefix k log.bytes
    rw [heq, hlog, List.append_assoc] at hrest
    obtain ⟨rfl, hframes⟩ := List.append_inj hrest (hok'.length.trans hok.length.symm)
    have htake := List.prefix_iff_eq_take.mp (hchained'.prefix_of_flatten hchained ⟨rest, hframes⟩)
    exact ⟨frames'.length, htake ▸ heq, htake ▸ hlast⟩
  · rintro ⟨n, heq, hlast⟩
    exact ⟨bigEndian, header, frames.take n, heq, hok, hchained.take n, hlast⟩

end RxSolutions.Executor.Wal
