import RxSolutions.Durable.Checks
import RxSolutions.Durable.LittleEndian

/-!
# MC protocol frames

A client of a MELSEC controller sends requests in the binary 3E layout over one connection and
reads exactly one response to each. An access profile says which device numbers may be read and
which bits may be written. The bytes the controller has sent and the client has not read yet are
part of the connection.
-/

namespace RxSolutions.Melsec

open Durable

/-- A frame or a part of one. -/
abbrev Bytes := List UInt8

/-! ## Profiles -/

/-- Why a request fails. -/
inductive Error
  | configuration (detail : String)
  | accessDenied
  | faulted
  | io (detail : String)
  | protocol (detail : String)
  | plc (code : ℕ) (diagnostic : Bytes)
  deriving DecidableEq

/-- The route to a controller. -/
structure Route where
  network : UInt8
  pc : UInt8
  moduleIo : UInt16
  station : UInt8
  deriving DecidableEq

/-- `Route::bytes`. -/
def Route.bytes (r : Route) : Bytes :=
  [r.network, r.pc] ++ LittleEndian.bytes 2 r.moduleIo.toNat ++ [r.station]

/-- Where a client runs. -/
inductive Environment
  | simulation
  | physical
  deriving DecidableEq

/-- An inclusive range of device numbers. -/
structure AddressRange where
  first : UInt32
  last : UInt32
  deriving DecidableEq

/-- `AddressRange::validate`. -/
def AddressRange.validate (r : AddressRange) (limit : UInt32) : Except Error Unit :=
  if r.last < r.first ∨ limit < r.last then
    .error (.configuration "address range exceeds configured device limit")
  else .ok ()

/-- The devices there are and the ranges that are open. -/
structure AccessProfile where
  mLast : UInt32
  dLast : UInt32
  readM : List AddressRange
  readD : List AddressRange
  writeM : List UInt32
  distinct : writeM.Nodup

namespace AccessProfile

/-- The ranges of one kind of device: sorted, disjoint and below the limit. -/
def validateRanges (limit : UInt32) : Option UInt32 → List AddressRange → Except Error Unit
  | _, [] => .ok ()
  | previous, range :: rest => do
    range.validate limit
    if ∃ last ∈ previous, range.first ≤ last then
      throw (.configuration "read ranges must be sorted and disjoint")
    validateRanges limit (some range.last) rest

/-- The check on one list of ranges. -/
def validateReads (ranges : List AddressRange) (limit : UInt32) : Except Error Unit := do
  if 64 < ranges.length then throw (.configuration "too many read ranges")
  validateRanges limit none ranges

/-- `AccessProfile::validate`. -/
def validate (p : AccessProfile) : Except Error Unit := do
  if 0xffffff < p.mLast ∨ 0xffffff < p.dLast then
    throw (.configuration "device limit exceeds 24-bit addressing")
  validateReads p.readM p.mLast
  validateReads p.readD p.dLast
  if 64 < p.writeM.length ∨ ∃ n ∈ p.writeM, p.mLast < n then
    throw (.configuration "write addresses exceed profile bounds")
  return ()

/-- `AccessProfile::permits`. -/
def permits (ranges : List AddressRange) (first : UInt32) (count max : UInt16) : Bool :=
  if count = 0 ∨ max < count then false
  else if 2 ^ 32 ≤ first.toNat + (count.toNat - 1) then false
  else ranges.any fun r => r.first ≤ first ∧ first.toNat + (count.toNat - 1) ≤ r.last.toNat

end AccessProfile

/-- An IPv4 address and a port. -/
structure Endpoint where
  a : UInt8
  b : UInt8
  c : UInt8
  d : UInt8
  port : UInt16
  deriving DecidableEq

/-- A controller and what may be done with it. -/
structure Configuration where
  environment : Environment
  endpoint : Endpoint
  route : Route
  monitoringTimer : UInt16
  connectTimeoutMs : UInt32
  exchangeTimeoutMs : UInt32
  access : AccessProfile

/-- The endpoint is one explicit host. -/
def Endpoint.Unicast (e : Endpoint) : Prop :=
  ¬ (e.a = 0 ∧ e.b = 0 ∧ e.c = 0 ∧ e.d = 0) ∧ ¬ (224 ≤ e.a ∧ e.a ≤ 239) ∧
    ¬ (e.a = 255 ∧ e.b = 255 ∧ e.c = 255 ∧ e.d = 255) ∧ e.port ≠ 0

instance (e : Endpoint) : Decidable e.Unicast := inferInstanceAs (Decidable (_ ∧ _ ∧ _ ∧ _))

/-- `Configuration::validate`. -/
def Configuration.validate (c : Configuration) : Except Error Unit := do
  if ¬ c.endpoint.Unicast then throw (.configuration "explicit unicast IPv4 endpoint required")
  if c.environment = .simulation ∧ c.endpoint.a ≠ 127 then
    throw (.configuration "simulation endpoint must be loopback")
  if ¬ (1 ≤ c.connectTimeoutMs ∧ c.connectTimeoutMs ≤ 5000) ∨
      ¬ (1 ≤ c.exchangeTimeoutMs ∧ c.exchangeTimeoutMs ≤ 5000) ∨
      ¬ (1 ≤ c.monitoringTimer ∧ c.monitoringTimer ≤ 20) then
    throw (.configuration "finite timeout required (maximum 5 seconds)")
  c.access.validate

/-! ## Requests and responses -/

/-- A request for bits, for words, or to set one bit. -/
inductive Request
  | readM (first : UInt32) (count : UInt16)
  | readD (first : UInt32) (count : UInt16)
  | writeM (address : UInt32) (value : Bool)
  deriving DecidableEq

namespace Request

/-- The command of the request's frame. -/
def command : Request → ℕ
  | readM _ _ | readD _ _ => 0x0401
  | writeM _ _ => 0x1401

/-- Bits have subcommand 1, words 0. -/
def subcommand : Request → ℕ
  | readM _ _ => 1
  | readD _ _ => 0
  | writeM _ _ => 1

/-- The head device number. -/
def first : Request → UInt32
  | readM first _ | readD first _ => first
  | writeM address _ => address

/-- The device code: `M` or `D`. -/
def code : Request → UInt8
  | readM _ _ => 0x90
  | readD _ _ => 0xa8
  | writeM _ _ => 0x90

/-- The number of points. -/
def count : Request → UInt16
  | readM _ count | readD _ count => count
  | writeM _ _ => 1

/-- What follows the points of a write. -/
def data : Request → Bytes
  | readM _ _ | readD _ _ => []
  | writeM _ value => [if value then 0x10 else 0]

/-- The bytes that the header announces. -/
def length : Request → ℕ
  | readM _ _ | readD _ _ => 12
  | writeM _ _ => 13

/-- `Request::encode`. -/
def encode (r : Request) (route : Route) (timer : UInt16) : Bytes :=
  [0x50, 0] ++ route.bytes ++ LittleEndian.bytes 2 r.length ++ LittleEndian.bytes 2 timer.toNat ++
    LittleEndian.bytes 2 r.command ++ LittleEndian.bytes 2 r.subcommand ++
    (LittleEndian.bytes 4 r.first.toNat).take 3 ++ [r.code] ++
    LittleEndian.bytes 2 r.count.toNat ++ r.data

/-- `Request::response_len`. -/
def responseLen : Request → ℕ
  | readM _ count => (count.toNat + 1) / 2
  | readD _ count => count.toNat * 2
  | writeM _ _ => 0

/-- Only a write changes the controller. -/
def isWrite : Request → Bool
  | writeM _ _ => true
  | _ => false

end Request

/-- `Configuration::write_m_frame`. -/
def Configuration.writeMFrame (c : Configuration) (address : UInt32) (value : Bool) :
    Except Error Bytes := do
  c.validate
  if address ∉ c.access.writeM then throw .accessDenied
  return (Request.writeM address value).encode c.route c.monitoringTimer

/-- `response_length`. -/
def responseLength (header : Bytes) (route : Route) : Except Error ℕ := do
  if header.take 2 ≠ [0xd0, 0] ∨ (header.drop 2).take 5 ≠ route.bytes then
    throw (.protocol "subheader or routing mismatch")
  let len := LittleEndian.value (header.drop 7)
  if ¬ (2 ≤ len ∧ len ≤ 258) then throw (.protocol "response length outside bound")
  return len

/-- `payload`. -/
def payload (body : Bytes) (expected : ℕ) : Except Error Bytes := do
  if body.length < 2 then throw (.protocol "missing end code")
  let code := LittleEndian.value (body.take 2)
  if code ≠ 0 then throw (.plc code (body.drop 2))
  if body.length ≠ expected + 2 then throw (.protocol "unexpected success payload size")
  return body.drop 2

/-- The two halves of each byte, the high one first. -/
def nibbles (data : Bytes) : Bytes := data.flatMap fun byte : UInt8 => [byte >>> 4, byte &&& 0xf]

/-- The loop of `bits` over the half bytes. -/
def bitsFrom (count : ℕ) : Bytes → List Bool → Except Error (List Bool)
  | [], values => .ok values
  | bit :: rest, values =>
    if values.length = count then
      if bit ≠ 0 then .error (.protocol "nonzero bit padding") else bitsFrom count rest values
    else if bit = 0 then bitsFrom count rest (values ++ [false])
    else if bit = 1 then bitsFrom count rest (values ++ [true])
    else .error (.protocol "bit value is neither zero nor one")

/-- `bits`. -/
def bits (data : Bytes) (count : UInt16) : Except Error (List Bool) :=
  if data.length ≠ (count.toNat + 1) / 2 then .error (.protocol "bit payload length")
  else bitsFrom count.toNat (nibbles data) []

/-- The words of a payload. -/
def words : Bytes → List UInt16
  | low :: high :: rest => UInt16.ofNat (LittleEndian.value [low, high]) :: words rest
  | _ => []

/-! ## The client -/

/-- Whether an exchange had been entered. -/
inductive FailureStage
  | beforeSend
  | exchangeEntered
  deriving DecidableEq

/-- A failed request and what it leaves open. -/
structure Failure where
  stage : FailureStage
  writeOutcomeUnknown : Bool
  cause : Error
  deriving DecidableEq

/-- `Failure::before`. -/
def Failure.before (cause : Error) : Failure := ⟨.beforeSend, false, cause⟩

/-- A connection: what the client has sent, and what the controller has sent that was not read. -/
structure Client where
  config : Configuration
  faulted : Bool
  sent : Bytes
  stream : Bytes

/-- `read_until`: the next bytes, unless the stream ends or the deadline passes before. -/
def readUntil (n : ℕ) (stream : Bytes) : Except Error (Bytes × Bytes) :=
  if n ≤ stream.length then .ok (stream.take n, stream.drop n)
  else .error (.io "truncated MC response")

/-- The response to a request: its payload, and what follows it in the stream. -/
def receive (request : Request) (route : Route) (stream : Bytes) :
    Except Error (Bytes × Bytes) := do
  let header ← readUntil 9 stream
  let len ← responseLength header.1 route
  let body ← readUntil len header.2
  let data ← payload body.1 request.responseLen
  return (data, body.2)

namespace Client

/-- `fail`: the connection is shut down and faulted for good. -/
def fail (c : Client) (cause : Error) (isWrite : Bool) : Failure × Client :=
  (⟨.exchangeEntered, isWrite, cause⟩, { c with faulted := true, stream := [] })

/-- `exchange`. -/
def exchange (c : Client) (request : Request) : Except Failure Bytes × Client :=
  if c.faulted then (.error (.before .faulted), c)
  else
    let c := { c with sent := c.sent ++ request.encode c.config.route c.config.monitoringTimer }
    match receive request c.config.route c.stream with
    | .ok (data, rest) => (.ok data, { c with stream := rest })
    | .error cause => (.error (c.fail cause request.isWrite).1, (c.fail cause request.isWrite).2)

/-- `read_m`. -/
def readM (c : Client) (first : UInt32) (count : UInt16) : Except Failure (List Bool) × Client :=
  if AccessProfile.permits c.config.access.readM first count 64 then
    match c.exchange (.readM first count) with
    | (.ok data, c) =>
      match bits data count with
      | .ok values => (.ok values, c)
      | .error cause => (.error (c.fail cause false).1, (c.fail cause false).2)
    | (.error e, c) => (.error e, c)
  else (.error (.before .accessDenied), c)

/-- `read_d`. -/
def readD (c : Client) (first : UInt32) (count : UInt16) : Except Failure (List UInt16) × Client :=
  if AccessProfile.permits c.config.access.readD first count 32 then
    match c.exchange (.readD first count) with
    | (.ok data, c) => (.ok (words data), c)
    | (.error e, c) => (.error e, c)
  else (.error (.before .accessDenied), c)

/-- `write_m`. -/
def writeM (c : Client) (address : UInt32) (value : Bool) :
    Except Failure (UInt32 × Bool) × Client :=
  if address ∈ c.config.access.writeM then
    match c.exchange (.writeM address value) with
    | (.ok _, c) => (.ok (address, value), c)
    | (.error e, c) => (.error e, c)
  else (.error (.before .accessDenied), c)

end Client

end RxSolutions.Melsec
