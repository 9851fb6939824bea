import RxSolutions.Durable.Checks
import RxSolutions.Durable.LittleEndian
import RxSolutions.Durable.Replacement

/-!
# The receive loop of the device model

A packet for the device begins with a header, its id and the length of the rest; a header within
its body is marked by one more byte. The device collects what it reads until a packet is
complete, checks it, takes the marks out again and processes the instruction. However the packets
are cut into reads, it processes exactly the instructions that were sent, in their order.
-/

namespace RxSolutions.Dhi

open Durable Durable.Replacement

/-- What is received, or a part of it. -/
abbrev Bytes := List UInt8

/-! ## Packets -/

/-- One bit of the checksum. -/
def crcBit (value : ℕ) : ℕ :=
  (if value &&& 0x8000 ≠ 0 then (value <<< 1) ^^^ 0x8005 else value <<< 1) &&& 65535

/-- `crc`. -/
def crc (data : Bytes) : ℕ :=
  data.foldl (fun value byte => crcBit^[8] (value ^^^ (byte.toNat <<< 8))) 0

/-- What is marked in a body. -/
def pattern : Bytes := [0xff, 0xff, 0xfd]

/-- The first bytes of every packet. -/
def header : Bytes := [0xff, 0xff, 0xfd, 0x00]

/-- What a packet is made of, before its checksum. -/
def content (ident : UInt8) (body : Bytes) : Bytes :=
  header ++ [ident] ++ LittleEndian.bytes 2 (body.length + 2) ++ body

/-- `packet`. The length of the rest has to fit into two bytes. -/
def packet (ident : UInt8) (body : Bytes) (stuff : Bool) : Except String Bytes :=
  let body := if stuff then replace pattern (pattern ++ [0xfd]) body else body
  if 65536 ≤ body.length + 2 then .error "int too big to convert"
  else .ok (content ident body ++ LittleEndian.bytes 2 (crc (content ident body)))

/-! ## Receiving -/

/-- The checks of `respond`, and what it takes from a packet: the id and the body. -/
def decode (raw : Bytes) : Except String (UInt8 × Bytes) :=
  if crc (raw.take (raw.length - 2)) ≠ LittleEndian.value (raw.drop (raw.length - 2)) then
    .error "DHI_MODEL_CRC_INVALID"
  else
    match raw[4]? with
    | none => .error "index out of range"
    | some ident =>
      .ok (ident, replace (pattern ++ [0xfd]) pattern ((raw.take (raw.length - 2)).drop 7))

section Loop

variable {σ : Type} (process : σ → UInt8 → UInt8 → Bytes → Except String σ)

/-- A body is its instruction and the parameters; an empty one has no instruction. -/
def deliver (s : σ) : UInt8 × Bytes → Except String σ
  | (_, []) => .error "index out of range"
  | (ident, instruction :: params) => process s ident instruction params

/-- `respond`, over whatever it does with an instruction. -/
def respond (s : σ) (raw : Bytes) : Except String σ := do
  let received ← decode raw
  deliver process s received

/-- The inner loop, for at most so many packets. -/
def drain : ℕ → σ → Bytes → Except String (σ × Bytes)
  | 0, s, pending => .ok (s, pending)
  | fuel + 1, s, pending =>
    if pending.length < 7 then .ok (s, pending)
    else if ¬ header <+: pending then .error "DHI_MODEL_FRAME_INVALID"
    else
      let size := 7 + LittleEndian.value ((pending.drop 5).take 2)
      if 8192 < size then .error "DHI_MODEL_FRAME_TOO_LARGE"
      else if pending.length < size then .ok (s, pending)
      else do
        let s ← respond process s (pending.take size)
        drain fuel s (pending.drop size)

/-- One read. A packet has at least seven bytes, so there are fewer of them than bytes. -/
def receive (state : σ × Bytes) (data : Bytes) : Except String (σ × Bytes) :=
  drain process (state.2 ++ data).length state.1 (state.2 ++ data)

/-- `loop`: the reads in turn, up to the first error. -/
def loop (s : σ) (reads : List Bytes) : Except String (σ × Bytes) :=
  reads.foldlM (receive process) (s, [])

end Loop

/-! ## One packet -/

theorem crcBit_lt (value : ℕ) : crcBit value < 65536 :=
  Nat.lt_succ_of_le Nat.and_le_right

theorem crc_lt (data : Bytes) : crc data < 65536 := by
  induction data using List.reverseRecOn with
  | nil => decide
  | append_singleton data byte _ =>
    rw [crc, List.foldl_append]
    exact crcBit_lt _

/-- A packet as it is sent, and the body in it. -/
structure Framed (ident : UInt8) (body stuffed raw : Bytes) : Prop where
  marked : stuffed = replace pattern (pattern ++ [0xfd]) body
  short : stuffed.length + 2 < 65536
  bytes : raw = content ident stuffed ++ LittleEndian.bytes 2 (crc (content ident stuffed))

theorem framed_of_packet {ident : UInt8} {body raw : Bytes} (h : packet ident body true = .ok raw) :
    ∃ stuffed, Framed ident body stuffed raw := by
  unfold packet at h
  simp only [if_true] at h
  split at h
  · cases h
  · rename_i hshort
    cases h
    exact ⟨_, rfl, Nat.lt_of_not_le hshort, rfl⟩

namespace Framed

variable {ident : UInt8} {body stuffed raw : Bytes}

theorem length (h : Framed ident body stuffed raw) : raw.length = 7 + (stuffed.length + 2) := by
  rw [h.bytes]
  simp only [content, header, List.length_append, List.length_cons, List.length_nil,
    LittleEndian.length_bytes]
  omega

/-- What is read off the first seven bytes of a packet: the length field counts what follows it. -/
theorem head (h : Framed ident body stuffed raw) {pending rest others : Bytes}
    (hcut : pending ++ rest = raw ++ others) (hlong : 7 ≤ pending.length) :
    header <+: pending ∧ 7 + LittleEndian.value ((pending.drop 5).take 2) = raw.length := by
  have hseven : pending.take 7 =
      header ++ [ident] ++ LittleEndian.bytes 2 (stuffed.length + 2) := by
    have hbytes : raw = header ++ [ident] ++ LittleEndian.bytes 2 (stuffed.length + 2) ++
        (stuffed ++ LittleEndian.bytes 2 (crc (content ident stuffed))) := by
      rw [h.bytes]
      simp only [content, List.append_assoc]
    rw [← List.take_append_of_le_length hlong, hcut, hbytes, List.append_assoc]
    exact List.take_left' rfl
  constructor
  · refine List.IsPrefix.trans ?_ (List.take_prefix 7 pending)
    rw [hseven, List.append_assoc]
    exact List.prefix_append _ _
  · have hfield : (pending.drop 5).take 2 = (pending.take 7).drop 5 := by rw [List.drop_take]
    have hlast : (header ++ [ident] ++ LittleEndian.bytes 2 (stuffed.length + 2)).drop 5 =
        LittleEndian.bytes 2 (stuffed.length + 2) := List.drop_left' rfl
    rw [hfield, hseven, hlast, LittleEndian.value_bytes h.short, h.length]

/-- The checksum is accepted, and the marks are taken out again. -/
theorem decode_eq (h : Framed ident body stuffed raw) : decode raw = .ok (ident, body) := by
  have hlength : raw.length - 2 = (content ident stuffed).length := by
    rw [h.bytes, List.length_append, LittleEndian.length_bytes, Nat.add_sub_cancel]
  have hdata : raw.take (raw.length - 2) = content ident stuffed := by
    rw [hlength, h.bytes, List.take_left]
  have hcheck : raw.drop (raw.length - 2) = LittleEndian.bytes 2 (crc (content ident stuffed)) := by
    rw [hlength, h.bytes, List.drop_left]
  have hident : raw[4]? = some ident := by
    rw [h.bytes]
    rfl
  have hbody : (content ident stuffed).drop 7 = stuffed := by
    rw [content]
    exact List.drop_left' (by simp [header])
  have hback : replace (pattern ++ [0xfd]) pattern stuffed = body := by
    rw [h.marked]
    exact replace_replace (by decide) [0xfd] body
  rw [decode, hdata, hcheck, LittleEndian.value_bytes (crc_lt _), if_neg (not_not.mpr rfl), hident,
    hbody, hback]

end Framed

/-! ## The loop -/

section Loop

variable {σ : Type} {process : σ → UInt8 → UInt8 → Bytes → Except String σ}

/-- What is sent: each packet is that of a body, and not too long. -/
def Sent (pairs : List (UInt8 × Bytes)) (raws : List Bytes) : Prop :=
  List.Forall₂ (fun p raw => packet p.1 p.2 true = .ok raw ∧ raw.length ≤ 8192) pairs raws

variable {fuel : ℕ}

/-- Less than a packet stays pending. -/
theorem drain_short {s : σ} {ident : UInt8} {body stuffed raw pending rest others : Bytes}
    (h : Framed ident body stuffed raw) (hsize : raw.length ≤ 8192)
    (hcut : pending ++ rest = raw ++ others) (hshort : pending.length < raw.length) :
    drain process fuel s pending = .ok (s, pending) := by
  cases fuel with
  | zero => rfl
  | succ fuel =>
    rw [drain]
    by_cases hfew : pending.length < 7
    · rw [if_pos hfew]
    · obtain ⟨hheader, hlength⟩ := h.head hcut (Nat.le_of_not_lt hfew)
      rw [if_neg hfew, if_neg (not_not.mpr hheader)]
      simp only [hlength, not_lt.mpr hsize, if_false, hshort, if_true]

/-- A packet that is complete is processed. -/
theorem drain_packet {s s' : σ} {ident : UInt8} {body stuffed raw pending : Bytes}
    (h : Framed ident body stuffed raw) (hsize : raw.length ≤ 8192)
    (hprocess : deliver process s (ident, body) = .ok s') :
    drain process (fuel + 1) s (raw ++ pending) = drain process fuel s' pending := by
  have hlong : 7 ≤ (raw ++ pending).length := by
    rw [List.length_append, h.length]
    omega
  obtain ⟨hheader, hlength⟩ := h.head (List.append_nil (raw ++ pending)) hlong
  have hcomplete : ¬ (raw ++ pending).length < raw.length := by
    rw [List.length_append]
    omega
  have hrespond : respond process s raw = .ok s' := by
    rw [respond, h.decode_eq]
    exact hprocess
  rw [drain, if_neg (not_lt.mpr hlong), if_neg (not_not.mpr hheader)]
  simp only [hlength, not_lt.mpr hsize, if_false, hcomplete, List.take_left, List.drop_left,
    hrespond]
  rfl

/-- As far as the packets have been read, they have been processed, and when there is no more to
read, all of them have. -/
theorem drain_eq {s t : σ} {pairs : List (UInt8 × Bytes)} {raws : List Bytes}
    {pending rest : Bytes} (hsent : Sent pairs raws) (hcut : pending ++ rest = raws.flatten)
    (hfuel : pending.length ≤ fuel) (hprocess : pairs.foldlM (deliver process) s = .ok t) :
    ∃ s' pairs' raws' pending', drain process fuel s pending = .ok (s', pending') ∧
      Sent pairs' raws' ∧ pending' ++ rest = raws'.flatten ∧
      pairs'.foldlM (deliver process) s' = .ok t ∧ (rest = [] → raws' = []) := by
  induction hsent generalizing fuel s pending with
  | nil =>
    obtain ⟨rfl, rfl⟩ := List.append_eq_nil_iff.mp hcut
    have hdrain : drain process fuel s [] = .ok (s, []) := by cases fuel <;> rfl
    exact ⟨s, [], [], [], hdrain, .nil, rfl, hprocess, fun _ => rfl⟩
  | @cons p raw pairs raws hp hsent ih =>
    obtain ⟨stuffed, hframed⟩ := framed_of_packet hp.1
    rw [List.flatten_cons] at hcut
    by_cases hshort : pending.length < raw.length
    · refine ⟨s, p :: pairs, raw :: raws, pending, drain_short hframed hp.2 hcut hshort,
        .cons hp hsent, hcut, hprocess, ?_⟩
      intro hrest
      have hlength := congrArg List.length hcut
      rw [hrest, List.append_nil, List.length_append] at hlength
      omega
    · -- the packet is complete: what is behind it is pending next
      obtain ⟨more, rfl⟩ : raw <+: pending :=
        List.prefix_of_prefix_length_le ⟨raws.flatten, hcut.symm⟩ ⟨rest, rfl⟩
          (Nat.le_of_not_lt hshort)
      rw [List.append_assoc, List.append_cancel_left_eq] at hcut
      rw [List.foldlM_cons, Checks.bind_eq_ok] at hprocess
      obtain ⟨s', hdeliver, hprocess⟩ := hprocess
      have hlength := hframed.length
      rw [List.length_append] at hfuel
      obtain ⟨fuel, rfl⟩ : ∃ n, fuel = n + 1 := ⟨fuel - 1, by omega⟩
      rw [drain_packet hframed hp.2 hdeliver]
      exact ih hcut (by omega) hprocess

/-- The reads in turn: what is pending and what is still to be read are the packets that are still
to be processed. -/
theorem receive_eq {reads : List Bytes} {s t : σ} {pending : Bytes}
    {pairs : List (UInt8 × Bytes)} {raws : List Bytes} (hsent : Sent pairs raws)
    (hcut : pending ++ reads.flatten = raws.flatten) (hdone : reads = [] → raws = [])
    (hprocess : pairs.foldlM (deliver process) s = .ok t) :
    reads.foldlM (receive process) (s, pending) = .ok (t, []) := by
  induction reads generalizing s pending pairs raws with
  | nil =>
    rw [hdone rfl] at hsent hcut
    cases hsent
    cases hprocess
    rw [List.flatten_nil, List.append_nil] at hcut
    rw [hcut]
    rfl
  | cons data reads ih =>
    rw [List.flatten_cons, ← List.append_assoc] at hcut
    obtain ⟨s', pairs', raws', pending', hdrain, hsent', hcut', hprocess', hrest⟩ :=
      drain_eq hsent hcut (le_refl _) hprocess
    have hreceive : receive process (s, pending) data = .ok (s', pending') := hdrain
    rw [List.foldlM_cons, hreceive]
    apply ih hsent' hcut' _ hprocess'
    intro hnone
    exact hrest (by rw [hnone]; rfl)

/-- However the packets are cut into reads, each is decoded to what was sent in it, and the loop
processes exactly that, in order, with nothing left over. -/
theorem packets_survive_chunking {s t : σ} {pairs : List (UInt8 × Bytes)} {raws reads : List Bytes}
    (hsent : Sent pairs raws) (hreads : reads.flatten = raws.flatten)
    (hprocess : pairs.foldlM (deliver process) s = .ok t) :
    List.Forall₂ (fun p raw => decode raw = .ok p) pairs raws ∧
      loop process s reads = .ok (t, []) := by
  constructor
  · refine hsent.imp fun p raw hp => ?_
    obtain ⟨stuffed, hframed⟩ := framed_of_packet hp.1
    exact hframed.decode_eq
  · apply receive_eq hsent hreads _ hprocess
    -- no packet is empty, so without a read there was none
    intro hnone
    rw [hnone] at hreads
    cases hsent with
    | nil => rfl
    | @cons _ raw _ _ hp _ =>
      obtain ⟨stuffed, hframed⟩ := framed_of_packet hp.1
      have hlength := congrArg List.length hreads
      rw [List.flatten_cons, List.length_append, hframed.length] at hlength
      simp only [List.flatten_nil, List.length_nil] at hlength
      omega

/-- A body with a header in it and one that ends in half of one, cut within both. -/
theorem packets_survive_chunking_marked :
    let process : List (UInt8 × Bytes) → UInt8 → UInt8 → Bytes →
        Except String (List (UInt8 × Bytes)) :=
      fun log ident instruction params => .ok (log ++ [(ident, instruction :: params)])
    let pairs : List (UInt8 × Bytes) :=
      [(1, [3, 0xff, 0xff, 0xfd, 0xfd]), (254, [2, 0xff, 0xff])]
    let raws : List Bytes :=
      [[0xff, 0xff, 0xfd, 0, 1, 8, 0, 3, 0xff, 0xff, 0xfd, 0xfd, 0xfd, 0xc9, 0x0c],
        [0xff, 0xff, 0xfd, 0, 254, 5, 0, 2, 0xff, 0xff, 0x81, 0x0d]]
    let reads : List Bytes :=
      [raws.flatten.take 9, [], (raws.flatten.drop 9).take 9, raws.flatten.drop 18]
    List.Forall₂ (fun p raw => decode raw = .ok p) pairs raws ∧
      loop process [] reads = .ok (pairs, []) := by
  intro process pairs raws reads
  have hsent : Sent pairs raws :=
    .cons ⟨by decide +kernel, by decide⟩ (.cons ⟨by decide +kernel, by decide⟩ .nil)
  exact packets_survive_chunking hsent (by decide) rfl

end Loop

end RxSolutions.Dhi
