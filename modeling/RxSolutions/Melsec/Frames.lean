import RxSolutions.Melsec.Codec

/-!
# MC protocol frames are unambiguous

Read back by the binary 3E layout, the bytes of a permitted request are the request: the bounds
of the access profile keep a device number from losing its high bits. In the other direction, a
read is answered with given values by exactly one text of bytes, so that what the client returns
is what the controller said. A write is acknowledged by one text of bytes as well, and a bit that
is not permitted is refused before anything is sent.
-/

namespace RxSolutions.Melsec

open Durable

/-! ## The layout of a request -/

/-- What the fields of a request in the binary 3E layout stand for. -/
structure Frame3E where
  route : Route
  length : ℕ
  timer : ℕ
  command : ℕ
  subcommand : ℕ
  head : ℕ
  device : UInt8
  points : ℕ
  data : Bytes
  deriving DecidableEq

/-- Read a frame by the binary 3E layout. -/
def decode3E : Bytes → Option Frame3E
  | 0x50 :: 0 :: network :: pc :: io₀ :: io₁ :: station :: l₀ :: l₁ :: t₀ :: t₁ :: c₀ :: c₁ :: s₀ ::
      s₁ :: h₀ :: h₁ :: h₂ :: device :: p₀ :: p₁ :: data =>
    some {
      route := ⟨network, pc, UInt16.ofNat (LittleEndian.value [io₀, io₁]), station⟩
      length := LittleEndian.value [l₀, l₁]
      timer := LittleEndian.value [t₀, t₁]
      command := LittleEndian.value [c₀, c₁]
      subcommand := LittleEndian.value [s₀, s₁]
      head := LittleEndian.value [h₀, h₁, h₂]
      device := device
      points := LittleEndian.value [p₀, p₁]
      data := data }
  | _ => none

/-- What a request says. -/
def Request.frame (r : Request) (route : Route) (timer : UInt16) : Frame3E where
  route := route
  length := r.length
  timer := timer.toNat
  command := r.command
  subcommand := r.subcommand
  head := r.first.toNat
  device := r.code
  points := r.count.toNat
  data := r.data

/-- The access profile permits the request. -/
def Permitted (p : AccessProfile) : Request → Prop
  | .readM first count => AccessProfile.permits p.readM first count 64 = true
  | .readD first count => AccessProfile.permits p.readD first count 32 = true
  | .writeM address _ => address ∈ p.writeM

section Layout

variable {r : Request} {route : Route} {timer : UInt16}

theorem value_two {n : ℕ} (h : n < 65536) :
    LittleEndian.value [UInt8.ofNat n, UInt8.ofNat (n / 256)] = n :=
  LittleEndian.value_bytes (w := 2) h

/-- The lowest three bytes of a head number that has no more. -/
theorem value_three {n : ℕ} (h : n < 2 ^ 24) : LittleEndian.value
    [UInt8.ofNat n, UInt8.ofNat (n / 256), UInt8.ofNat (n / 256 / 256)] = n :=
  LittleEndian.value_bytes (w := 3) h

theorem decode3E_encode (hfirst : r.first.toNat < 2 ^ 24) :
    decode3E (r.encode route timer) = some (r.frame route timer) := by
  have hio : UInt16.ofNat (LittleEndian.value [UInt8.ofNat route.moduleIo.toNat,
      UInt8.ofNat (route.moduleIo.toNat / 256)]) = route.moduleIo := by
    rw [value_two route.moduleIo.toNat_lt, UInt16.ofNat_toNat]
  have hlength : r.length < 65536 := by cases r <;> simp [Request.length]
  have hcommand : r.command < 65536 := by cases r <;> simp [Request.command]
  have hsubcommand : r.subcommand < 65536 := by cases r <;> simp [Request.subcommand]
  simp only [Request.encode, Route.bytes, LittleEndian.bytes, List.take, List.cons_append,
    List.nil_append, decode3E, hio, value_two hlength, value_two timer.toNat_lt,
    value_two hcommand, value_two hsubcommand, value_three hfirst, value_two r.count.toNat_lt]
  rfl

theorem length_encode : (r.encode route timer).length = 9 + r.length := by
  cases r <;> rfl

end Layout

/-! ## Permitted requests -/

section Permitted

variable {p : AccessProfile} {limit : UInt32}

theorem last_le_of_validateRanges {ranges : List AddressRange} {previous : Option UInt32}
    (h : AccessProfile.validateRanges limit previous ranges = .ok ()) :
    ∀ r ∈ ranges, r.first ≤ r.last ∧ r.last ≤ limit := by
  induction ranges generalizing previous with
  | nil => simp
  | cons range rest ih =>
    simp only [AccessProfile.validateRanges, Checks.bind_eq_ok, Checks.guard_eq_ok] at h
    obtain ⟨_, hrange, -, hrest⟩ := h
    refine List.forall_mem_cons.mpr ⟨?_, ih hrest⟩
    unfold AddressRange.validate at hrange
    split_ifs at hrange with hbad
    simpa only [not_or, UInt32.not_lt] using hbad

/-- A range of a valid list of ranges ends below the limit. -/
theorem last_le_of_validateReads {ranges : List AddressRange}
    (h : AccessProfile.validateReads ranges limit = .ok ()) : ∀ r ∈ ranges, r.last ≤ limit := by
  rw [AccessProfile.validateReads, Checks.guard_eq_ok] at h
  exact fun r hr => (last_le_of_validateRanges h.2 r hr).2

theorem first_le_of_permits {ranges : List AddressRange} {first : UInt32} {count max : UInt16}
    (h : AccessProfile.permits ranges first count max = true) :
    ∃ r ∈ ranges, first.toNat ≤ r.last.toNat := by
  unfold AccessProfile.permits at h
  split_ifs at h with hcount hsum
  obtain ⟨r, hr, hrange⟩ := List.any_eq_true.mp h
  rw [decide_eq_true_eq] at hrange
  exact ⟨r, hr, by omega⟩

/-- No permitted head number is longer than 24 bits. -/
theorem first_lt (hp : p.validate = .ok ()) {r : Request} (h : Permitted p r) :
    r.first.toNat < 2 ^ 24 := by
  simp only [AccessProfile.validate, Checks.bind_eq_ok, Checks.guard_eq_ok, not_or,
    UInt32.not_lt, not_exists, not_and] at hp
  obtain ⟨⟨hm, hd⟩, _, hreadM, _, hreadD, ⟨-, hwrite⟩, -⟩ := hp
  have hm : p.mLast.toNat ≤ 0xffffff := UInt32.le_iff_toNat_le.mp hm
  have hd : p.dLast.toNat ≤ 0xffffff := UInt32.le_iff_toNat_le.mp hd
  cases r with
  | readM first count =>
    obtain ⟨range, hrange, hle⟩ := first_le_of_permits h
    have hlast := UInt32.le_iff_toNat_le.mp (last_le_of_validateReads hreadM range hrange)
    change first.toNat < 2 ^ 24
    omega
  | readD first count =>
    obtain ⟨range, hrange, hle⟩ := first_le_of_permits h
    have hlast := UInt32.le_iff_toNat_le.mp (last_le_of_validateReads hreadD range hrange)
    change first.toNat < 2 ^ 24
    omega
  | writeM address value =>
    have hle := UInt32.le_iff_toNat_le.mp (hwrite address h)
    change address.toNat < 2 ^ 24
    omega

theorem access_of_validate {c : Configuration} (h : c.validate = .ok ()) :
    c.access.validate = .ok () := by
  simp only [Configuration.validate, Checks.guard_eq_ok] at h
  exact h.2.2.2

/-- Requests that say the same are the same. -/
theorem frame_injective {r r' : Request} {route : Route} {timer : UInt16}
    (h : r.frame route timer = r'.frame route timer) : r = r' := by
  have hfirst : r.first = r'.first := UInt32.toNat_inj.mp (congrArg Frame3E.head h)
  have hcount : r.count = r'.count := UInt16.toNat_inj.mp (congrArg Frame3E.points h)
  have hcommand : r.command = r'.command := congrArg Frame3E.command h
  have hcode : r.code = r'.code := congrArg Frame3E.device h
  have hdata : r.data = r'.data := congrArg Frame3E.data h
  -- the command and the device tell the kinds apart
  cases r with
  | readM first count => cases r' with
    | readM first' count' => exact congrArg₂ Request.readM hfirst hcount
    | readD => exact absurd hcode (by simp [Request.code])
    | writeM => exact absurd hcommand (by simp [Request.command])
  | readD first count => cases r' with
    | readM => exact absurd hcode (by simp [Request.code])
    | readD first' count' => exact congrArg₂ Request.readD hfirst hcount
    | writeM => exact absurd hcommand (by simp [Request.command])
  | writeM address value => cases r' with
    | readM => exact absurd hcommand (by simp [Request.command])
    | readD => exact absurd hcommand (by simp [Request.command])
    | writeM address' value' =>
      have hvalue : value = value' := by
        cases value <;> cases value' <;> simp [Request.data] at hdata ⊢
      exact congrArg₂ Request.writeM hfirst hvalue

/-- Two permitted requests never have the same bytes. -/
theorem encode_injective (hp : p.validate = .ok ()) {r r' : Request} (hr : Permitted p r)
    (hr' : Permitted p r') {route : Route} {timer : UInt16}
    (h : r.encode route timer = r'.encode route timer) : r = r' := by
  have hdecode := congrArg decode3E h
  rw [decode3E_encode (first_lt hp hr), decode3E_encode (first_lt hp hr')] at hdecode
  exact frame_injective (Option.some.inj hdecode)

end Permitted

/-! ## Responses -/

/-- The successful response with the given data. -/
def response (route : Route) (data : Bytes) : Bytes :=
  [0xd0, 0] ++ route.bytes ++ LittleEndian.bytes 2 (data.length + 2) ++ [0, 0] ++ data

theorem readUntil_eq_ok {n : ℕ} {stream : Bytes} {r : Bytes × Bytes} :
    readUntil n stream = .ok r ↔ r.1.length = n ∧ stream = r.1 ++ r.2 := by
  unfold readUntil
  constructor
  · intro h
    split_ifs at h with hle
    obtain rfl := Except.ok.inj h
    exact ⟨List.length_take_of_le hle, (List.take_append_drop n stream).symm⟩
  · rintro ⟨rfl, rfl⟩
    rw [if_pos (by simp), List.take_left, List.drop_left]

/-- A header is accepted when it names the route and a length in bounds. -/
theorem responseLength_eq_ok {header : Bytes} (hlength : header.length = 9) {route : Route}
    {len : ℕ} :
    responseLength header route = .ok len ↔
      header = [0xd0, 0] ++ route.bytes ++ LittleEndian.bytes 2 len ∧ 2 ≤ len ∧ len ≤ 258 := by
  simp only [responseLength, Checks.guard_eq_ok, Checks.pure_eq_ok, not_or, not_not]
  have hparts : header = header.take 2 ++ (header.drop 2).take 5 ++ header.drop 7 := by
    rw [List.append_assoc, show header.drop 7 = (header.drop 2).drop 5 by rw [List.drop_drop],
      List.take_append_drop, List.take_append_drop]
  constructor
  · rintro ⟨⟨hsub, hroute⟩, hbounds, rfl⟩
    refine ⟨?_, hbounds⟩
    have hlast : (header.drop 7).length = 2 := by rw [List.length_drop, hlength]
    rw [← hlast, LittleEndian.bytes_value, ← hsub, ← hroute, ← hparts]
  · rintro ⟨heq, hbounds⟩
    have htake : header.take 2 = [0xd0, 0] := by rw [heq]; rfl
    have hroute : (header.drop 2).take 5 = route.bytes := by rw [heq]; rfl
    have hvalue : LittleEndian.value (header.drop 7) = len := by
      have hdrop : header.drop 7 = LittleEndian.bytes 2 len := by rw [heq]; rfl
      rw [hdrop, LittleEndian.value_bytes (by omega)]
    rw [hvalue]
    exact ⟨⟨htake, hroute⟩, hbounds, rfl⟩

theorem payload_eq_ok {body data : Bytes} {expected : ℕ} :
    payload body expected = .ok data ↔ data.length = expected ∧ body = [0, 0] ++ data := by
  simp only [payload, Checks.guard_eq_ok, Checks.pure_eq_ok, not_not, Nat.not_lt]
  constructor
  · rintro ⟨hlength, hcode, hsize, rfl⟩
    have hzero : body.take 2 = [0, 0] :=
      (LittleEndian.eq_bytes_iff (w := 2) (n := 0) (by decide)).mpr
        ⟨List.length_take_of_le hlength, hcode⟩
    refine ⟨by rw [List.length_drop]; omega, ?_⟩
    rw [← hzero, List.take_append_drop]
  · rintro ⟨rfl, rfl⟩
    exact ⟨by simp, rfl, by simp, rfl⟩

/-- The client takes exactly one text for the response with the given data. -/
theorem receive_eq_ok {request : Request} {route : Route} (hlen : request.responseLen ≤ 256)
    {stream data rest : Bytes} :
    receive request route stream = .ok (data, rest) ↔
      data.length = request.responseLen ∧ stream = response route data ++ rest := by
  simp only [receive, Checks.bind_eq_ok, Checks.pure_eq_ok, readUntil_eq_ok]
  constructor
  · rintro ⟨header, ⟨hheader, rfl⟩, len, hresponse, body, ⟨hbody, hstream⟩, data', hpayload, heq⟩
    obtain ⟨rfl, rfl⟩ := Prod.mk.inj heq
    obtain ⟨hheader', -⟩ := (responseLength_eq_ok hheader).mp hresponse
    obtain ⟨hdata, hbody'⟩ := payload_eq_ok.mp hpayload
    have hlength : len = data'.length + 2 := by
      rw [← hbody, hbody']
      simp
    refine ⟨hdata, ?_⟩
    rw [hstream, hheader', hbody', hlength, response]
    simp only [List.append_assoc]
  · rintro ⟨hdata, rfl⟩
    let header := [0xd0, 0] ++ route.bytes ++ LittleEndian.bytes 2 (data.length + 2)
    have hheader : header.length = 9 := rfl
    refine ⟨(header, [0, 0] ++ data ++ rest), ⟨hheader, ?_⟩, data.length + 2,
      (responseLength_eq_ok hheader).mpr ⟨rfl, by omega, by omega⟩, ([0, 0] ++ data, rest),
      ⟨by simp, rfl⟩, data, payload_eq_ok.mpr ⟨hdata, rfl⟩, rfl⟩
    simp only [response, header, List.append_assoc]

/-! ## Bits -/

/-- A bit as half a byte. -/
def nibble (value : Bool) : UInt8 := if value then 1 else 0

/-- Bits in bytes, the first in the high half. -/
def packBits : List Bool → Bytes
  | first :: second :: rest => (nibble first <<< 4 ||| nibble second) :: packBits rest
  | [first] => [nibble first <<< 4]
  | [] => []

@[simp] theorem nibbles_nil : nibbles [] = [] := rfl

@[simp] theorem nibbles_cons (byte : UInt8) (data : Bytes) :
    nibbles (byte :: data) = byte >>> 4 :: (byte &&& 0xf) :: nibbles data := rfl

theorem length_nibbles (data : Bytes) : (nibbles data).length = 2 * data.length := by
  induction data with
  | nil => rfl
  | cons byte data ih =>
    rw [nibbles_cons, List.length_cons, List.length_cons, ih, List.length_cons]
    omega

/-- A byte is determined by its halves. -/
theorem byte_eq {a b : UInt8} (hhigh : a >>> 4 = b >>> 4) (hlow : a &&& 0xf = b &&& 0xf) :
    a = b := by
  have hhigh' := congrArg UInt8.toNat hhigh
  have hlow' := congrArg UInt8.toNat hlow
  simp only [UInt8.toNat_shiftRight, UInt8.toNat_and, Nat.shiftRight_eq_div_pow] at hhigh' hlow'
  have hmask : ∀ n : ℕ, n &&& 15 = n % 16 := fun n => Nat.and_two_pow_sub_one_eq_mod n 4
  have hfour : (4 : UInt8).toNat % 8 = 4 := rfl
  have hfifteen : (0xf : UInt8).toNat = 15 := rfl
  rw [hfour] at hhigh'
  rw [hfifteen, hmask, hmask] at hlow'
  apply UInt8.toNat_inj.mp
  omega

theorem nibbles_injective : Function.Injective nibbles := by
  intro a b h
  induction a generalizing b with
  | nil =>
    have hlength := congrArg List.length h
    rw [length_nibbles, length_nibbles, List.length_nil] at hlength
    exact (List.length_eq_zero_iff.mp (by omega)).symm
  | cons x a ih =>
    cases b with
    | nil => cases h
    | cons y b =>
      simp only [nibbles_cons, List.cons.injEq] at h
      rw [byte_eq h.1 h.2.1, ih h.2.2]

theorem nibbles_packBits (values : List Bool) :
    nibbles (packBits values) = values.map nibble ++ List.replicate (values.length % 2) 0 := by
  induction values using packBits.induct with
  | case1 first second rest ih =>
    have hhigh : (nibble first <<< 4 ||| nibble second) >>> 4 = nibble first := by
      cases first <;> cases second <;> rfl
    have hlow : (nibble first <<< 4 ||| nibble second) &&& 0xf = nibble second := by
      cases first <;> cases second <;> rfl
    have hlength : (rest.length + 1 + 1) % 2 = rest.length % 2 := by omega
    rw [packBits, nibbles_cons, hhigh, hlow, ih, List.map_cons, List.map_cons, List.length_cons,
      List.length_cons, hlength, List.cons_append, List.cons_append]
  | case2 first => cases first <;> rfl
  | case3 => rfl

theorem length_packBits (values : List Bool) :
    (packBits values).length = (values.length + 1) / 2 := by
  induction values using packBits.induct with
  | case1 first second rest ih =>
    rw [packBits, List.length_cons, ih, List.length_cons, List.length_cons]
    omega
  | case2 first => simp [packBits]
  | case3 => simp [packBits]

/-- The values after `values`, one from each half byte until there are enough; the half bytes left
over are zero. -/
def Continues (count : ℕ) (halves : Bytes) (values r : List Bool) : Prop :=
  ∃ more pad, halves = more.map nibble ++ pad ∧ (∀ x ∈ pad, x = 0) ∧ r = values ++ more ∧
    r.length ≤ count ∧ (pad = [] ∨ r.length = count)

section Continues

variable {count : ℕ} {bit : UInt8} {halves : Bytes} {values r : List Bool}

theorem continues_nil (h : values.length ≤ count) : Continues count [] values r ↔ r = values := by
  constructor
  · rintro ⟨more, pad, hnil, -, rfl, -⟩
    have hmore : more = [] := List.map_eq_nil_iff.mp (List.append_eq_nil_iff.mp hnil.symm).1
    rw [hmore, List.append_nil]
  · rintro rfl
    exact ⟨[], [], rfl, by simp, by simp, h, .inl rfl⟩

theorem continues_full (h : values.length = count) :
    Continues count (bit :: halves) values r ↔ bit = 0 ∧ Continues count halves values r := by
  -- no more values are read
  have hmore : ∀ {more : List Bool}, r = values ++ more → r.length ≤ count → more = [] := by
    rintro more rfl hlength
    rw [List.length_append] at hlength
    exact List.length_eq_zero_iff.mp (by omega)
  constructor
  · rintro ⟨more, pad, heq, hpad, hr, hlength, -⟩
    obtain rfl := hmore hr hlength
    obtain rfl : bit :: halves = pad := heq
    obtain ⟨hbit, hrest⟩ := List.forall_mem_cons.mp hpad
    rw [List.append_nil] at hr
    exact ⟨hbit, [], halves, rfl, hrest, by rw [hr, List.append_nil], hlength, .inr (hr ▸ h)⟩
  · rintro ⟨hbit, more, pad, rfl, hpad, hr, hlength, -⟩
    obtain rfl := hmore hr hlength
    refine ⟨[], bit :: pad, rfl, List.forall_mem_cons.mpr ⟨hbit, hpad⟩, hr, hlength, .inr ?_⟩
    rw [hr, List.append_nil, h]

theorem continues_cons (h : values.length < count) :
    Continues count (bit :: halves) values r ↔
      ∃ value, bit = nibble value ∧ Continues count halves (values ++ [value]) r := by
  constructor
  · rintro ⟨more, pad, heq, hpad, rfl, hlength, hfull⟩
    cases more with
    | nil =>
      -- there are not enough values yet
      obtain rfl : bit :: halves = pad := heq
      rcases hfull with hnil | hfull
      · cases hnil
      · rw [List.append_nil] at hfull
        omega
    | cons value more =>
      obtain ⟨hbit, hrest⟩ := List.cons.inj heq
      have hassoc : values ++ value :: more = values ++ [value] ++ more := by simp
      exact ⟨value, hbit, more, pad, hrest, hpad, hassoc, hlength, hfull⟩
  · rintro ⟨value, rfl, more, pad, rfl, hpad, hr, hlength, hfull⟩
    exact ⟨value :: more, pad, rfl, hpad, by simpa using hr, hlength, hfull⟩

theorem bitsFrom_eq_ok (hvalues : values.length ≤ count) :
    bitsFrom count halves values = .ok r ↔ Continues count halves values r := by
  induction halves generalizing values with
  | nil => rw [continues_nil hvalues, bitsFrom, Except.ok.injEq, eq_comm]
  | cons bit halves ih =>
    rw [bitsFrom]
    by_cases hfull : values.length = count
    · rw [if_pos hfull, continues_full hfull, ← ih hvalues]
      by_cases hbit : bit = 0 <;> simp [hbit]
    · have hlt : values.length < count := by omega
      have hnext : ∀ value, (values ++ [value]).length ≤ count := by
        intro value
        simp only [List.length_append, List.length_singleton]
        omega
      rw [if_neg hfull, continues_cons hlt]
      simp only [Bool.exists_bool, ← ih (hnext _), nibble]
      by_cases hzero : bit = 0
      · simp [hzero]
      · by_cases hone : bit = 1 <;> simp [hzero, hone]

end Continues

/-- Bits are accepted from exactly one payload. -/
theorem bits_eq_ok {data : Bytes} {count : UInt16} {values : List Bool} :
    bits data count = .ok values ↔ values.length = count.toNat ∧ data = packBits values := by
  unfold bits
  constructor
  · intro h
    split_ifs at h with hlength
    rw [ne_eq, not_not] at hlength
    obtain ⟨_, pad, heq, hpad, rfl, hle, hfull⟩ := (bitsFrom_eq_ok (Nat.zero_le _)).mp h
    have hhalves := congrArg List.length heq
    rw [length_nibbles, List.length_append, List.length_map, hlength] at hhalves
    have hcount : values.length = count.toNat := by
      rcases hfull with rfl | hfull
      · rw [List.length_nil] at hhalves
        omega
      · exact hfull
    refine ⟨hcount, nibbles_injective ?_⟩
    have hpadded : pad = List.replicate (values.length % 2) 0 :=
      List.eq_replicate_iff.mpr ⟨by omega, hpad⟩
    rw [heq, nibbles_packBits, hpadded]
  · rintro ⟨hcount, rfl⟩
    rw [if_neg (by rw [length_packBits, hcount]; exact not_not.mpr rfl),
      bitsFrom_eq_ok (Nat.zero_le _), nibbles_packBits]
    refine ⟨values, _, rfl, fun x hx => List.eq_of_mem_replicate hx, rfl, by omega, .inr hcount⟩

/-! ## Words -/

/-- Words in bytes, the low byte first. -/
def packWords (values : List UInt16) : Bytes :=
  values.flatMap fun value => LittleEndian.bytes 2 value.toNat

theorem length_packWords (values : List UInt16) :
    (packWords values).length = values.length * 2 := by
  induction values with
  | nil => rfl
  | cons value values ih =>
    rw [packWords, List.flatMap_cons, List.length_append, LittleEndian.length_bytes, ← packWords,
      ih, List.length_cons]
    omega

theorem words_packWords (values : List UInt16) : words (packWords values) = values := by
  induction values with
  | nil => rfl
  | cons value values ih =>
    have hvalue : UInt16.ofNat (LittleEndian.value (LittleEndian.bytes 2 value.toNat)) = value := by
      rw [LittleEndian.value_bytes value.toNat_lt, UInt16.ofNat_toNat]
    calc words (packWords (value :: values))
        = UInt16.ofNat (LittleEndian.value (LittleEndian.bytes 2 value.toNat)) ::
            words (packWords values) := rfl
      _ = value :: values := by rw [hvalue, ih]

theorem packWords_words {data : Bytes} (h : 2 ∣ data.length) : packWords (words data) = data := by
  induction data using words.induct with
  | case1 low high rest ih =>
    have hrest : 2 ∣ rest.length := by
      simp only [List.length_cons] at h
      omega
    have hvalue : LittleEndian.value [low, high] < UInt16.size :=
      lt_of_lt_of_eq (LittleEndian.value_lt [low, high]) (by simp [UInt16.size])
    have hword :
        (UInt16.ofNat (LittleEndian.value [low, high])).toNat = LittleEndian.value [low, high] :=
      UInt16.toNat_ofNat_of_lt' hvalue
    have hbytes : LittleEndian.bytes 2 (LittleEndian.value [low, high]) = [low, high] :=
      LittleEndian.bytes_value [low, high]
    rw [words, packWords, List.flatMap_cons, hword, hbytes, ← packWords, ih hrest]
    rfl
  | case2 data hdata =>
    match data, hdata, h with
    | [], _, _ => rfl
    | [_], _, h => simp at h
    | low :: high :: rest, hdata, _ => exact (hdata low high rest rfl).elim

/-- Words are read from exactly one payload. -/
theorem words_eq_iff {data : Bytes} {values : List UInt16} {count : ℕ}
    (hlength : data.length = count * 2) :
    words data = values ↔ values.length = count ∧ data = packWords values := by
  constructor
  · rintro rfl
    have heven : 2 ∣ data.length := ⟨count, by omega⟩
    have hdata := packWords_words heven
    have hwords := length_packWords (words data)
    rw [hdata] at hwords
    exact ⟨by omega, hdata.symm⟩
  · rintro ⟨-, rfl⟩
    exact words_packWords values

/-! ## Reads -/

section Reads

variable {c : Client} {first : UInt32} {count : UInt16}

theorem count_le_of_permits {ranges : List AddressRange} {max : UInt16}
    (h : AccessProfile.permits ranges first count max = true) : count.toNat ≤ max.toNat := by
  unfold AccessProfile.permits at h
  split_ifs at h with hcount hsum
  rw [not_or, UInt16.not_lt] at hcount
  exact UInt16.le_iff_toNat_le.mp hcount.2

/-- What the client sends and where it stands after an exchange that succeeds. -/
theorem exchange_eq_ok (hc : c.faulted = false) {request : Request}
    (hlen : request.responseLen ≤ 256)
    {data : Bytes} {c' : Client} :
    c.exchange request = (.ok data, c') ↔ ∃ rest, data.length = request.responseLen ∧
      c.stream = response c.config.route data ++ rest ∧
      c' = { c with
        sent := c.sent ++ request.encode c.config.route c.config.monitoringTimer
        stream := rest } := by
  have hnot : ¬ c.faulted = true := by rw [hc]; exact Bool.false_ne_true
  unfold Client.exchange
  rw [if_neg hnot]
  cases hreceive : receive request c.config.route c.stream with
  | error cause =>
    simp only [hreceive, Prod.mk.injEq, reduceCtorEq, false_and, false_iff, not_exists, not_and]
    intro rest hlength hstream
    have := (receive_eq_ok hlen).mpr ⟨hlength, hstream⟩
    rw [hreceive] at this
    cases this
  | ok answer =>
    obtain ⟨data', rest'⟩ := answer
    have hanswer := (receive_eq_ok hlen).mp hreceive
    simp only [hreceive, Prod.mk.injEq, Except.ok.injEq]
    constructor
    · rintro ⟨rfl, rfl⟩
      exact ⟨rest', hanswer.1, hanswer.2, rfl⟩
    · rintro ⟨rest, hlength, hstream, rfl⟩
      have heq := (receive_eq_ok hlen).mpr ⟨hlength, hstream⟩
      rw [hreceive, Except.ok.injEq, Prod.mk.injEq] at heq
      rw [heq.1, heq.2]
      exact ⟨rfl, rfl⟩

/-- An exchange that fails leaves the client faulted, with the request sent. -/
theorem exchange_error (hc : c.faulted = false) {request : Request} {e : Failure} {c' : Client}
    (h : c.exchange request = (.error e, c')) : c'.faulted = true ∧
      c'.sent = c.sent ++ request.encode c.config.route c.config.monitoringTimer ∧
      e.stage = .exchangeEntered ∧ e.writeOutcomeUnknown = request.isWrite := by
  have hnot : ¬ c.faulted = true := by rw [hc]; exact Bool.false_ne_true
  unfold Client.exchange at h
  rw [if_neg hnot] at h
  cases hreceive : receive request c.config.route c.stream with
  | error cause =>
    simp only [hreceive, Prod.mk.injEq, Except.error.injEq] at h
    obtain ⟨rfl, rfl⟩ := h
    exact ⟨rfl, rfl, rfl, rfl⟩
  | ok answer => simp [hreceive] at h

theorem readM_eq_ok (hp : Permitted c.config.access (.readM first count)) {values : List Bool}
    {c' : Client} : c.readM first count = (.ok values, c') ↔
      ∃ data, c.exchange (.readM first count) = (.ok data, c') ∧ bits data count = .ok values := by
  unfold Client.readM
  rw [Permitted] at hp
  rw [if_pos hp]
  rcases c.exchange (.readM first count) with ⟨_ | data, k⟩
  · simp
  · cases hbits : bits data count <;> simp [hbits, and_comm]

theorem readD_eq_ok (hp : Permitted c.config.access (.readD first count)) {values : List UInt16}
    {c' : Client} : c.readD first count = (.ok values, c') ↔
      ∃ data, c.exchange (.readD first count) = (.ok data, c') ∧ words data = values := by
  unfold Client.readD
  rw [Permitted] at hp
  rw [if_pos hp]
  rcases c.exchange (.readD first count) with ⟨_ | data, k⟩
  · simp
  · simp [and_comm]

theorem readM_error (hc : c.faulted = false) (hp : Permitted c.config.access (.readM first count))
    {e : Failure} {c' : Client} (h : c.readM first count = (.error e, c')) : c'.faulted = true := by
  unfold Client.readM at h
  rw [Permitted] at hp
  rw [if_pos hp] at h
  cases hex : c.exchange (.readM first count) with
  | mk result k =>
    cases result with
    | error e' =>
      simp only [hex, Prod.mk.injEq] at h
      exact h.2 ▸ (exchange_error hc hex).1
    | ok data =>
      -- the payload is not a text of bits: the client fails after the exchange
      cases hbits : bits data count with
      | error cause =>
        simp only [hex, hbits, Prod.mk.injEq] at h
        rw [← h.2]
        rfl
      | ok values => simp [hex, hbits] at h

theorem readD_error (hc : c.faulted = false) (hp : Permitted c.config.access (.readD first count))
    {e : Failure} {c' : Client} (h : c.readD first count = (.error e, c')) : c'.faulted = true := by
  unfold Client.readD at h
  rw [Permitted] at hp
  rw [if_pos hp] at h
  cases hex : c.exchange (.readD first count) with
  | mk result k =>
    cases result with
    | error e' =>
      simp only [hex, Prod.mk.injEq] at h
      exact h.2 ▸ (exchange_error hc hex).1
    | ok data => simp [hex] at h

end Reads

/-- A read on a connection that has not failed returns given values on exactly the streams that
begin with the one response that says them, and is left behind that response. Every other stream
is refused, and the client is faulted. -/
structure ReadExactly {α : Type} (c : Client) (request : Request) (pack : List α → Bytes)
    (read : Client → Except Failure (List α) × Client) : Prop where
  accepted : ∀ stream values c', read { c with stream := stream } = (.ok values, c') ↔
    ∃ rest, values.length = request.count.toNat ∧
      stream = response c.config.route (pack values) ++ rest ∧
      c' = { c with
        sent := c.sent ++ request.encode c.config.route c.config.monitoringTimer
        stream := rest }
  refused : ∀ stream e c', read { c with stream := stream } = (.error e, c') → c'.faulted = true

/-- For values of the requested length, one response is taken as a whole to say them. -/
theorem ReadExactly.unique {α : Type} {c : Client} {request : Request} {pack : List α → Bytes}
    {read : Client → Except Failure (List α) × Client} (h : ReadExactly c request pack read)
    {values : List α} (hlength : values.length = request.count.toNat) :
    ∃! stream, ∃ c', read { c with stream := stream } = (.ok values, c') ∧ c'.stream = [] := by
  refine ⟨response c.config.route (pack values), ?_, ?_⟩
  · exact ⟨_, (h.accepted _ _ _).mpr ⟨[], hlength, (List.append_nil _).symm, rfl⟩, rfl⟩
  · rintro stream ⟨c', hread, hend⟩
    obtain ⟨rest, -, rfl, rfl⟩ := (h.accepted _ _ _).mp hread
    have hrest : rest = [] := hend
    rw [hrest, List.append_nil]

section Client

variable {c : Client} {first : UInt32} {count : UInt16}

theorem readM_exactly (hc : c.faulted = false)
    (hp : Permitted c.config.access (.readM first count)) :
    ReadExactly c (.readM first count) packBits (·.readM first count) := by
  have hcount : count.toNat ≤ 64 := count_le_of_permits hp
  have hlen : (Request.readM first count).responseLen ≤ 256 := by
    rw [Request.responseLen]
    omega
  constructor
  · intro stream values c'
    have hexchange := @exchange_eq_ok { c with stream := stream } hc _ hlen
    refine (readM_eq_ok (c := { c with stream := stream }) hp).trans ?_
    constructor
    · rintro ⟨data, hdata, hbits⟩
      obtain ⟨rest, -, hstream, rfl⟩ := hexchange.mp hdata
      obtain ⟨hvalues, rfl⟩ := bits_eq_ok.mp hbits
      exact ⟨rest, hvalues, hstream, rfl⟩
    · rintro ⟨rest, hvalues, hstream, rfl⟩
      have hlength : (packBits values).length = (Request.readM first count).responseLen := by
        rw [length_packBits, hvalues]
        rfl
      exact ⟨_, hexchange.mpr ⟨rest, hlength, hstream, rfl⟩, bits_eq_ok.mpr ⟨hvalues, rfl⟩⟩
  · intro stream e c' h
    exact readM_error (c := { c with stream := stream }) hc hp h

theorem readD_exactly (hc : c.faulted = false)
    (hp : Permitted c.config.access (.readD first count)) :
    ReadExactly c (.readD first count) packWords (·.readD first count) := by
  have hcount : count.toNat ≤ 32 := count_le_of_permits hp
  have hlen : (Request.readD first count).responseLen ≤ 256 := by
    rw [Request.responseLen]
    omega
  constructor
  · intro stream values c'
    have hexchange := @exchange_eq_ok { c with stream := stream } hc _ hlen
    refine (readD_eq_ok (c := { c with stream := stream }) hp).trans ?_
    constructor
    · rintro ⟨data, hdata, hwords⟩
      obtain ⟨rest, hlength, hstream, rfl⟩ := hexchange.mp hdata
      obtain ⟨hvalues, rfl⟩ := (words_eq_iff hlength).mp hwords
      exact ⟨rest, hvalues, hstream, rfl⟩
    · rintro ⟨rest, hvalues, hstream, rfl⟩
      have hlength : (packWords values).length = (Request.readD first count).responseLen := by
        rw [length_packWords, hvalues]
        rfl
      exact ⟨_, hexchange.mpr ⟨rest, hlength, hstream, rfl⟩, words_packWords values⟩
  · intro stream e c' h
    exact readD_error (c := { c with stream := stream }) hc hp h

end Client

/-! ## Writes -/

/-- A write on a connection that has not failed sends one frame and is acknowledged on exactly the
streams that begin with the empty response, behind which it is left. On every other stream it
fails with its outcome unknown, the frame sent and the client faulted. -/
structure WriteExactly (c : Client) (address : UInt32) (value : Bool) (frame : Bytes) : Prop where
  acknowledged : ∀ stream answer c',
    { c with stream := stream }.writeM address value = (.ok answer, c') ↔
      ∃ rest, answer = (address, value) ∧ stream = response c.config.route [] ++ rest ∧
        c' = { c with sent := c.sent ++ frame, stream := rest }
  failed : ∀ stream e c', { c with stream := stream }.writeM address value = (.error e, c') →
    e.stage = .exchangeEntered ∧ e.writeOutcomeUnknown = true ∧
      c'.sent = c.sent ++ frame ∧ c'.faulted = true

section Writes

variable {config : Configuration} {c : Client} {address : UInt32} {value : Bool}

/-- The frame of a permitted write is its encoding. -/
theorem writeMFrame_eq_ok (hvalid : config.validate = .ok ())
    (hp : address ∈ config.access.writeM) :
    config.writeMFrame address value =
      .ok ((Request.writeM address value).encode config.route config.monitoringTimer) := by
  rw [Configuration.writeMFrame, hvalid]
  simp only [hp, not_true_eq_false, if_false]
  rfl

/-- There is no frame for a bit that may not be written. -/
theorem writeMFrame_eq_error (hvalid : config.validate = .ok ())
    (hp : address ∉ config.access.writeM) :
    config.writeMFrame address value = .error .accessDenied := by
  rw [Configuration.writeMFrame, hvalid]
  simp only [hp, not_false_eq_true, if_true]
  rfl

/-- A write that is not permitted is refused before anything is sent. -/
theorem writeM_denied (hp : address ∉ c.config.access.writeM) :
    c.writeM address value = (.error (.before .accessDenied), c) := by
  rw [Client.writeM, if_neg hp]

theorem writeM_eq_ok (hp : address ∈ c.config.access.writeM) {answer : UInt32 × Bool}
    {c' : Client} : c.writeM address value = (.ok answer, c') ↔
      ∃ data, c.exchange (.writeM address value) = (.ok data, c') ∧ answer = (address, value) := by
  rw [Client.writeM, if_pos hp]
  rcases c.exchange (.writeM address value) with ⟨_ | data, k⟩
  · simp
  · simp [and_comm, eq_comm]

theorem writeM_error (hp : address ∈ c.config.access.writeM) {e : Failure} {c' : Client} :
    c.writeM address value = (.error e, c') ↔
      c.exchange (.writeM address value) = (.error e, c') := by
  rw [Client.writeM, if_pos hp]
  rcases c.exchange (.writeM address value) with ⟨_ | data, k⟩ <;> simp

theorem writeM_exactly (hc : c.faulted = false) (hp : address ∈ c.config.access.writeM) :
    WriteExactly c address value
      ((Request.writeM address value).encode c.config.route c.config.monitoringTimer) := by
  have hlen : (Request.writeM address value).responseLen ≤ 256 := Nat.zero_le _
  constructor
  · intro stream answer c'
    have hexchange := @exchange_eq_ok { c with stream := stream } hc _ hlen
    refine (writeM_eq_ok (c := { c with stream := stream }) hp).trans ?_
    constructor
    · rintro ⟨data, hdata, hanswer⟩
      obtain ⟨rest, hempty, hstream, rfl⟩ := hexchange.mp hdata
      rw [List.length_eq_zero_iff.mp hempty] at hstream
      exact ⟨rest, hanswer, hstream, rfl⟩
    · rintro ⟨rest, hanswer, hstream, rfl⟩
      exact ⟨[], hexchange.mpr ⟨rest, rfl, hstream, rfl⟩, hanswer⟩
  · intro stream e c' h
    obtain ⟨hfaulted, hsent, hstage, hunknown⟩ := exchange_error (c := { c with stream := stream })
      hc ((writeM_error (c := { c with stream := stream }) hp).mp h)
    exact ⟨hstage, hunknown, hsent, hfaulted⟩

end Writes

/-- A request that the profile of a valid configuration permits is read back from its bytes, so
that different ones have different bytes, and its length field counts the bytes after it. Every
permitted read has, for all values of the requested length, one response that is accepted with
them, and every other response is refused. The frame of a permitted write is what the client sends
for it, and no other write has a frame or is sent. -/
theorem frames_exact (config : Configuration) (hvalid : config.validate = .ok ()) :
    (∀ r, Permitted config.access r →
      decode3E (r.encode config.route config.monitoringTimer) =
        some (r.frame config.route config.monitoringTimer) ∧
      (r.encode config.route config.monitoringTimer).length =
        9 + (r.frame config.route config.monitoringTimer).length) ∧
    (∀ r r', Permitted config.access r → Permitted config.access r' →
      r.encode config.route config.monitoringTimer = r'.encode config.route config.monitoringTimer →
      r = r') ∧
    (∀ c : Client, c.config = config → c.faulted = false → ∀ first count,
      (Permitted config.access (.readM first count) →
        ReadExactly c (.readM first count) packBits (·.readM first count) ∧
        ∀ values : List Bool, values.length = count.toNat → ∃! stream, ∃ c',
          { c with stream := stream }.readM first count = (.ok values, c') ∧ c'.stream = []) ∧
      (Permitted config.access (.readD first count) →
        ReadExactly c (.readD first count) packWords (·.readD first count) ∧
        ∀ values : List UInt16, values.length = count.toNat → ∃! stream, ∃ c',
          { c with stream := stream }.readD first count = (.ok values, c') ∧ c'.stream = [])) ∧
    (∀ address value,
      (address ∈ config.access.writeM →
        config.writeMFrame address value =
          .ok ((Request.writeM address value).encode config.route config.monitoringTimer) ∧
        ∀ c : Client, c.config = config → c.faulted = false →
          WriteExactly c address value
            ((Request.writeM address value).encode config.route config.monitoringTimer)) ∧
      (address ∉ config.access.writeM →
        config.writeMFrame address value = .error .accessDenied ∧
        ∀ c : Client, c.config = config →
          c.writeM address value = (.error (.before .accessDenied), c))) := by
  have haccess := access_of_validate hvalid
  refine ⟨fun r hr => ⟨decode3E_encode (first_lt haccess hr), length_encode⟩, ?_, ?_, ?_⟩
  · intro r r' hr hr' h
    exact encode_injective haccess hr hr' h
  · rintro c rfl hc first count
    constructor
    · intro hp
      have hread := readM_exactly hc hp
      exact ⟨hread, fun _ hvalues => hread.unique hvalues⟩
    · intro hp
      have hread := readD_exactly hc hp
      exact ⟨hread, fun _ hvalues => hread.unique hvalues⟩
  · intro address value
    constructor
    · intro hp
      refine ⟨writeMFrame_eq_ok hvalid hp, ?_⟩
      rintro c rfl hc
      exact writeM_exactly hc hp
    · intro hp
      refine ⟨writeMFrame_eq_error hvalid hp, ?_⟩
      rintro c rfl
      exact writeM_denied hp

/-- A simulated controller whose first hundred bits may be read and one of them written. -/
def loopback : Configuration where
  environment := .simulation
  endpoint := ⟨127, 0, 0, 1, 5007⟩
  route := ⟨0, 0xff, 0x3ff, 0⟩
  monitoringTimer := 4
  connectTimeoutMs := 1000
  exchangeTimeoutMs := 1000
  access := {
    mLast := 8191
    dLast := 0
    readM := [⟨0, 99⟩]
    readD := []
    writeM := [20]
    distinct := List.nodup_singleton 20 }

theorem frames_exact_loopback : loopback.validate = .ok () ∧
    Permitted loopback.access (.readM 10 3) ∧
    decode3E ((Request.readM 10 3).encode loopback.route loopback.monitoringTimer) =
      some ((Request.readM 10 3).frame loopback.route loopback.monitoringTimer) ∧
    20 ∈ loopback.access.writeM ∧
    loopback.writeMFrame 20 true =
      .ok ((Request.writeM 20 true).encode loopback.route loopback.monitoringTimer) ∧
    WriteExactly ⟨loopback, false, [], []⟩ 20 true
      ((Request.writeM 20 true).encode loopback.route loopback.monitoringTimer) := by
  have hvalid : loopback.validate = .ok () := by decide
  have hp : Permitted loopback.access (.readM 10 3) := by
    rw [Permitted]
    decide
  have hwrite : 20 ∈ loopback.access.writeM := List.mem_singleton_self 20
  obtain ⟨hread, -, -, hwrites⟩ := frames_exact loopback hvalid
  obtain ⟨hframe, hclient⟩ := (hwrites 20 true).1 hwrite
  exact ⟨hvalid, hp, (hread _ hp).1, hwrite, hframe, hclient _ rfl rfl⟩

end RxSolutions.Melsec
