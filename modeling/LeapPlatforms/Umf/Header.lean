import LeapPlatforms.Foundation.BitFields
import Mathlib.Data.BitVec
import Mathlib.Algebra.Order.Ring.Nat
import Mathlib.Tactic.Ring

/-!
# UMF headers

A header is one chunk. The host puts it together with shifts and takes it apart with shifts and
masks; the FPGA packs and unpacks a structure. Both are compared here, for any widths of the fields
that leave room for a filler, or none.

## Main definitions

* `Params` — the widths, and what a build needs of them
* `HeaderInfo`, `HeaderInfo.encodeHeaderWithPhyChannelPvt`, `decodeHeader` — the host
* `PacketHeader`, `PacketHeader.pack`, `unpack` — the FPGA
* `HeaderInfo.InRange` — fields that fit

## Main results

* `toNat_encode`, `toNat_pack` — either encoding as a number
* `decode_encode`
* `decode_fields` — what the host decodes, in the fields that the FPGA unpacks
* `header_codec`, `filler_decoded`
-/

namespace LeapPlatforms

namespace Umf

open BitFields

/-- What a build is configured with. -/
structure Params where
  /-- `UMF_CHUNK_BYTES`. -/
  chunkBytes : ℕ
  /-- There is a type for chunks. -/
  chunkBytes_cases : chunkBytes = 4 ∨ chunkBytes = 8 ∨ chunkBytes = 16
  /-- `UMF_MAX_MSG_BYTES`. -/
  maxMsgBytes : ℕ
  /-- A length is an `int`. -/
  maxMsgBytes_lt : maxMsgBytes < 2 ^ 31
  /-- `UMF_PHY_CHANNEL_RESERVED_BITS`. -/
  phyChannelReservedBits : ℕ
  /-- `UMF_CHANNEL_ID_BITS`. -/
  channelIDBits : ℕ
  /-- `UMF_SERVICE_ID_BITS`. -/
  serviceIDBits : ℕ
  /-- `UMF_METHOD_ID_BITS`. -/
  methodIDBits : ℕ
  /-- `UMF_MSG_LENGTH_BITS`. -/
  msgLengthBits : ℕ
  /-- The fields fit in a chunk. -/
  bits_le : phyChannelReservedBits + (channelIDBits + (serviceIDBits + (methodIDBits +
    msgLengthBits))) ≤ 8 * chunkBytes
  /-- An `int` can be shifted by a width that there is a mask of. -/
  bits_lt : channelIDBits < 32 ∧ serviceIDBits < 32 ∧ methodIDBits < 32 ∧ msgLengthBits < 32

variable (P : Params)

/-- `UMF_CHUNK_BITS`. -/
abbrev chunkBits : ℕ := 8 * P.chunkBytes

/-- `UMF_CHUNK`. -/
abbrev Chunk : Type := BitVec (chunkBits P)

/-- `UMF_PACKET_HEADER_FILLER_BITS`. -/
def fillerBits : ℕ :=
  chunkBits P - (P.phyChannelReservedBits + (P.channelIDBits + (P.serviceIDBits +
    (P.methodIDBits + P.msgLengthBits))))

theorem fillerBits_add : fillerBits P + (P.phyChannelReservedBits + (P.channelIDBits +
    (P.serviceIDBits + (P.methodIDBits + P.msgLengthBits)))) = chunkBits P :=
  Nat.sub_add_cancel P.bits_le

theorem chunkBits_ge : 32 ≤ chunkBits P := by
  have hcases := P.chunkBytes_cases
  show 32 ≤ 8 * P.chunkBytes
  omega

variable {P}

/-! ### The host -/

/-- `UMF_BIT_MASK`, an `int`. -/
def umfBitMask (x : ℕ) : BitVec 32 := 1#32 <<< x - 1

variable (P) in
/-- The header information of a `UMF_MESSAGE_CLASS`. -/
structure HeaderInfo where
  /-- `channelID`. -/
  channelID : BitVec 32
  /-- `serviceID`. -/
  serviceID : BitVec 32
  /-- `methodID`. -/
  methodID : BitVec 32
  /-- `length`. -/
  length : BitVec 32
  /-- `phyPvt`. -/
  phyPvt : Chunk P
  /-- `header`. -/
  header : Chunk P
  deriving DecidableEq

/-- The number of chunks of some bytes. -/
def numChunks (chunkBytes : ℕ) (length : BitVec 32) : BitVec 32 :=
  if length % BitVec.ofNat 32 chunkBytes = 0 then length / BitVec.ofNat 32 chunkBytes
  else length / BitVec.ofNat 32 chunkBytes + 1

/-- `EncodeHeaderWithPhyChannelPvt`. -/
def HeaderInfo.encodeHeaderWithPhyChannelPvt (m : HeaderInfo P) (pvt : BitVec 32) : Chunk P :=
  let chunk : Chunk P := pvt.setWidth _
  let chunk := chunk <<< P.channelIDBits ||| m.channelID.setWidth _
  let chunk := chunk <<< P.serviceIDBits ||| m.serviceID.setWidth _
  let chunk := chunk <<< P.methodIDBits ||| m.methodID.setWidth _
  chunk <<< P.msgLengthBits ||| (numChunks P.chunkBytes m.length).setWidth _

/-- `EncodeHeader`. -/
def HeaderInfo.encodeHeader (m : HeaderInfo P) : Chunk P := m.encodeHeaderWithPhyChannelPvt 0

/-- `DecodeHeader`. The program exits when the message is too long. -/
def decodeHeader (header : Chunk P) : Option (HeaderInfo P) :=
  let chunk := header
  let length := (BitVec.ofNat _ P.chunkBytes *
    (chunk &&& (umfBitMask P.msgLengthBits).signExtend _)).setWidth 32
  let chunk := chunk >>> P.msgLengthBits
  let methodID := (chunk &&& (umfBitMask P.methodIDBits).signExtend _).setWidth 32
  let chunk := chunk >>> P.methodIDBits
  let serviceID := (chunk &&& (umfBitMask P.serviceIDBits).signExtend _).setWidth 32
  let chunk := chunk >>> P.serviceIDBits
  let channelID := (chunk &&& (umfBitMask P.channelIDBits).signExtend _).setWidth 32
  let phyPvt := chunk >>> P.channelIDBits
  if length.toNat > P.maxMsgBytes then none
  else some ⟨channelID, serviceID, methodID, length, phyPvt, header⟩

/-! ### The FPGA -/

variable (P) in
/-- `UMF_PACKET_HEADER`. -/
structure PacketHeader where
  /-- `filler`. -/
  filler : BitVec (fillerBits P)
  /-- `phyChannelPvt`. -/
  phyChannelPvt : BitVec P.phyChannelReservedBits
  /-- `channelID`. -/
  channelID : BitVec P.channelIDBits
  /-- `serviceID`. -/
  serviceID : BitVec P.serviceIDBits
  /-- `methodID`. -/
  methodID : BitVec P.methodIDBits
  /-- `numChunks`. -/
  numChunks : BitVec P.msgLengthBits

/-- `pack`: the fields one after another, the first one highest. -/
def PacketHeader.pack (h : PacketHeader P) : Chunk P :=
  (h.filler ++ (h.phyChannelPvt ++ (h.channelID ++ (h.serviceID ++ (h.methodID ++
    h.numChunks))))).cast (fillerBits_add P)

/-- `unpack`. -/
def unpack (chunk : Chunk P) : PacketHeader P where
  numChunks := chunk.extractLsb' 0 _
  methodID := chunk.extractLsb' P.msgLengthBits _
  serviceID := chunk.extractLsb' (P.methodIDBits + P.msgLengthBits) _
  channelID := chunk.extractLsb' (P.serviceIDBits + (P.methodIDBits + P.msgLengthBits)) _
  phyChannelPvt :=
    chunk.extractLsb' (P.channelIDBits + (P.serviceIDBits + (P.methodIDBits + P.msgLengthBits))) _
  filler :=
    chunk.extractLsb' (P.phyChannelReservedBits + (P.channelIDBits + (P.serviceIDBits +
      (P.methodIDBits + P.msgLengthBits)))) _

/-! ### Headers as numbers -/

variable (P) in
/-- The fields as the digits of a number, `pvt` the highest. -/
def digits (pvt channelID serviceID methodID numChunks : ℕ) : ℕ :=
  (((pvt * 2 ^ P.channelIDBits + channelID) * 2 ^ P.serviceIDBits + serviceID) *
    2 ^ P.methodIDBits + methodID) * 2 ^ P.msgLengthBits + numChunks

theorem toNat_umfBitMask {x : ℕ} (h : x < 32) : (umfBitMask x).toNat = 2 ^ x - 1 := by
  have hlt : 2 ^ x < 2 ^ 32 := Nat.pow_lt_pow_right (by decide) h
  have hpos : 0 < 2 ^ x := Nat.two_pow_pos x
  rw [umfBitMask, BitVec.toNat_sub, BitVec.toNat_shiftLeft, Nat.shiftLeft_eq]
  show (2 ^ 32 - 1 + 1 * 2 ^ x % 2 ^ 32) % 2 ^ 32 = 2 ^ x - 1
  rw [Nat.one_mul, Nat.mod_eq_of_lt hlt]
  omega

/-- As an operand of a chunk a mask is extended, and it is positive. -/
theorem toNat_signExtend_umfBitMask {x : ℕ} (h : x < 32) :
    ((umfBitMask x).signExtend (chunkBits P)).toNat = 2 ^ x - 1 := by
  have hge := chunkBits_ge P
  have hmask := toNat_umfBitMask h
  have hle : 2 ^ x ≤ 2 ^ 31 := Nat.pow_le_pow_right (by decide) (by omega)
  have hmsb : (umfBitMask x).msb = false := by
    rw [BitVec.msb_eq_false_iff_two_mul_lt, hmask]
    have hpos : 0 < 2 ^ x := Nat.two_pow_pos x
    omega
  rw [BitVec.signExtend_eq_setWidth_of_msb_false hmsb, BitVec.toNat_setWidth_of_le hge, hmask]

/-- `num_chunks` is the length in chunks, rounded up. -/
theorem toNat_numChunks (length : BitVec 32) : (numChunks P.chunkBytes length).toNat =
    (length.toNat + (P.chunkBytes - 1)) / P.chunkBytes := by
  have hcases := P.chunkBytes_cases
  have hlt := length.isLt
  have hchunk : (BitVec.ofNat 32 P.chunkBytes).toNat = P.chunkBytes := by
    rw [BitVec.toNat_ofNat, Nat.mod_eq_of_lt (by omega)]
  have hzero : length % BitVec.ofNat 32 P.chunkBytes = 0 ↔ length.toNat % P.chunkBytes = 0 := by
    rw [← BitVec.toNat_inj, BitVec.toNat_umod, hchunk]
    rfl
  rw [numChunks]
  split
  · next hmod =>
    have hmod' := hzero.mp hmod
    rw [BitVec.toNat_udiv, hchunk]
    rcases hcases with hc | hc | hc <;> rw [hc] at hmod' ⊢ <;> omega
  · next hmod =>
    have hmod' : length.toNat % P.chunkBytes ≠ 0 := fun h => hmod (hzero.mpr h)
    rw [BitVec.toNat_add, BitVec.toNat_udiv, hchunk]
    show (length.toNat / P.chunkBytes + 1) % 2 ^ 32 = _
    rcases hcases with hc | hc | hc <;> rw [hc] at hmod' ⊢ <;> omega

namespace HeaderInfo

/-- Fields that fit in a header, and a length that the decoder accepts. -/
structure InRange (m : HeaderInfo P) (pvt : BitVec 32) : Prop where
  /-- `pvt`. -/
  pvt_lt : pvt.toNat < 2 ^ P.phyChannelReservedBits
  /-- `channelID`. -/
  channelID_lt : m.channelID.toNat < 2 ^ P.channelIDBits
  /-- `serviceID`. -/
  serviceID_lt : m.serviceID.toNat < 2 ^ P.serviceIDBits
  /-- `methodID`. -/
  methodID_lt : m.methodID.toNat < 2 ^ P.methodIDBits
  /-- The length in chunks. -/
  numChunks_lt : (numChunks P.chunkBytes m.length).toNat < 2 ^ P.msgLengthBits
  /-- The length, rounded up. -/
  length_le : P.chunkBytes * (numChunks P.chunkBytes m.length).toNat ≤ P.maxMsgBytes

/-- One more field, where the fields above it have `hi` bits. -/
theorem toNat_field {w k hi : ℕ} {a b : BitVec w} (ha : a.toNat < 2 ^ hi) (hfit : hi + k ≤ w)
    (hb : b.toNat < 2 ^ k) :
    (a <<< k ||| b).toNat = a.toNat * 2 ^ k + b.toNat ∧
      a.toNat * 2 ^ k + b.toNat < 2 ^ (hi + k) := by
  have hlt : a.toNat * 2 ^ k + b.toNat < 2 ^ (hi + k) := by
    rw [Nat.pow_add]
    exact field_lt ha hb
  refine ⟨toNat_shiftLeft_or ?_ hb, hlt⟩
  calc
    a.toNat * 2 ^ k ≤ a.toNat * 2 ^ k + b.toNat := Nat.le_add_right _ _
    _ < 2 ^ (hi + k) := hlt
    _ ≤ 2 ^ w := Nat.pow_le_pow_right (by decide) hfit

theorem toNat_extend (x : BitVec 32) : (x.setWidth (chunkBits P)).toNat = x.toNat :=
  BitVec.toNat_setWidth_of_le (chunkBits_ge P)

/-- The host's encoding as a number. -/
theorem toNat_encode {m : HeaderInfo P} {pvt : BitVec 32} (h : m.InRange pvt) :
    (m.encodeHeaderWithPhyChannelPvt pvt).toNat =
      digits P pvt.toNat m.channelID.toNat m.serviceID.toNat m.methodID.toNat
        (numChunks P.chunkBytes m.length).toNat := by
  have hbits : P.phyChannelReservedBits + (P.channelIDBits + (P.serviceIDBits + (P.methodIDBits +
    P.msgLengthBits))) ≤ chunkBits P := P.bits_le
  have hpvt : (pvt.setWidth (chunkBits P)).toNat < 2 ^ P.phyChannelReservedBits := by
    rw [toNat_extend]
    exact h.pvt_lt
  obtain ⟨hchannel, hchannelLt⟩ := toNat_field (k := P.channelIDBits)
    (b := m.channelID.setWidth (chunkBits P)) hpvt (by omega)
    (by rw [toNat_extend]; exact h.channelID_lt)
  rw [← hchannel] at hchannelLt
  obtain ⟨hservice, hserviceLt⟩ := toNat_field (k := P.serviceIDBits)
    (b := m.serviceID.setWidth (chunkBits P)) hchannelLt (by omega)
    (by rw [toNat_extend]; exact h.serviceID_lt)
  rw [← hservice] at hserviceLt
  obtain ⟨hmethod, hmethodLt⟩ := toNat_field (k := P.methodIDBits)
    (b := m.methodID.setWidth (chunkBits P)) hserviceLt (by omega)
    (by rw [toNat_extend]; exact h.methodID_lt)
  rw [← hmethod] at hmethodLt
  obtain ⟨hlength, _⟩ := toNat_field (k := P.msgLengthBits)
    (b := (numChunks P.chunkBytes m.length).setWidth (chunkBits P)) hmethodLt (by omega)
    (by rw [toNat_extend]; exact h.numChunks_lt)
  rw [encodeHeaderWithPhyChannelPvt, hlength, hmethod, hservice, hchannel,
    toNat_extend, toNat_extend, toNat_extend, toNat_extend,
    toNat_extend, digits]

end HeaderInfo

/-- The FPGA's encoding as a number. -/
theorem PacketHeader.toNat_pack (h : PacketHeader P) :
    h.pack.toNat = digits P (h.filler.toNat * 2 ^ P.phyChannelReservedBits + h.phyChannelPvt.toNat)
      h.channelID.toNat h.serviceID.toNat h.methodID.toNat h.numChunks.toNat := by
  rw [pack, BitVec.toNat_cast, toNat_append, toNat_append, toNat_append, toNat_append, toNat_append,
    digits]
  simp only [Nat.pow_add]
  ring

/-! ### Taking a header apart -/

/-- The digits of a header. -/
structure IsDigits (P : Params) (n pvt channelID serviceID methodID numChunks : ℕ) : Prop where
  numChunks : n % 2 ^ P.msgLengthBits = numChunks
  methodID : n / 2 ^ P.msgLengthBits % 2 ^ P.methodIDBits = methodID
  serviceID : n / 2 ^ P.msgLengthBits / 2 ^ P.methodIDBits % 2 ^ P.serviceIDBits = serviceID
  channelID : n / 2 ^ P.msgLengthBits / 2 ^ P.methodIDBits / 2 ^ P.serviceIDBits %
    2 ^ P.channelIDBits = channelID
  pvt : n / 2 ^ P.msgLengthBits / 2 ^ P.methodIDBits / 2 ^ P.serviceIDBits /
    2 ^ P.channelIDBits = pvt

theorem isDigits_digits (pvt : ℕ) {channelID serviceID methodID numChunks : ℕ}
    (hchannel : channelID < 2 ^ P.channelIDBits) (hservice : serviceID < 2 ^ P.serviceIDBits)
    (hmethod : methodID < 2 ^ P.methodIDBits) (hnum : numChunks < 2 ^ P.msgLengthBits) :
    IsDigits P (digits P pvt channelID serviceID methodID numChunks) pvt channelID serviceID methodID
      numChunks := by
  rw [digits]
  refine ⟨low_field hnum, ?_, ?_, ?_, ?_⟩
  · rw [high_field hnum, low_field hmethod]
  · rw [high_field hnum, high_field hmethod, low_field hservice]
  · rw [high_field hnum, high_field hmethod, high_field hservice, low_field hchannel]
  · rw [high_field hnum, high_field hmethod, high_field hservice, high_field hchannel]

/-- The length that a mask of so many bits takes out of a header. -/
theorem toNat_length {k : ℕ} (hk : k < 32) (chunk : Chunk P) :
    ((BitVec.ofNat (chunkBits P) P.chunkBytes *
      (chunk &&& (umfBitMask k).signExtend (chunkBits P))).setWidth 32).toNat =
        P.chunkBytes * (chunk.toNat % 2 ^ k) % 2 ^ 32 := by
  have hdvd : 2 ^ 32 ∣ 2 ^ chunkBits P := pow_dvd_pow 2 (chunkBits_ge P)
  rw [BitVec.toNat_setWidth, BitVec.toNat_mul, toNat_and_ones (toNat_signExtend_umfBitMask hk),
    BitVec.toNat_ofNat, Nat.mod_mul_mod, Nat.mod_mod_of_dvd _ hdvd]

/-- The length that the host takes out of a header. -/
theorem length_digits {chunk : Chunk P} {pvt channelID serviceID methodID numChunks : ℕ}
    (hd : IsDigits P chunk.toNat pvt channelID serviceID methodID numChunks) :
    (BitVec.ofNat (chunkBits P) P.chunkBytes *
      (chunk &&& (umfBitMask P.msgLengthBits).signExtend (chunkBits P))).setWidth 32 =
        BitVec.ofNat 32 (P.chunkBytes * numChunks) := by
  apply BitVec.eq_of_toNat_eq
  rw [toNat_length P.bits_lt.2.2.2, hd.numChunks, BitVec.toNat_ofNat]

theorem toNat_length_digits {n : ℕ} (hle : P.chunkBytes * n ≤ P.maxMsgBytes) :
    (BitVec.ofNat 32 (P.chunkBytes * n)).toNat = P.chunkBytes * n := by
  have hlt := P.maxMsgBytes_lt
  rw [BitVec.toNat_ofNat, Nat.mod_eq_of_lt (by omega)]

/-- A header is decoded, if the message is not too long. -/
theorem exists_decodeHeader {chunk : Chunk P} {pvt channelID serviceID methodID numChunks : ℕ}
    (hd : IsDigits P chunk.toNat pvt channelID serviceID methodID numChunks)
    (hle : P.chunkBytes * numChunks ≤ P.maxMsgBytes) : ∃ m, decodeHeader chunk = some m := by
  rw [decodeHeader, length_digits hd, if_neg]
  · exact ⟨_, rfl⟩
  · rw [toNat_length_digits hle]
    omega

/-- The host takes the digits out of a header. -/
theorem decodeHeader_digits {chunk : Chunk P} {m : HeaderInfo P} (h : decodeHeader chunk = some m)
    {pvt channelID serviceID methodID numChunks : ℕ}
    (hd : IsDigits P chunk.toNat pvt channelID serviceID methodID numChunks) :
    m.header = chunk ∧ m.phyPvt.toNat = pvt ∧ m.channelID.toNat = channelID ∧
      m.serviceID.toNat = serviceID ∧ m.methodID.toNat = methodID ∧
      m.length = BitVec.ofNat 32 (P.chunkBytes * numChunks) := by
  have hmasked : ∀ (c : Chunk P) {x : ℕ}, x < 32 →
      ((c &&& (umfBitMask x).signExtend (chunkBits P)).setWidth 32).toNat = c.toNat % 2 ^ x := by
    intro c x hx
    have hlt : c.toNat % 2 ^ x < 2 ^ 32 :=
      Nat.lt_of_lt_of_le (Nat.mod_lt _ (Nat.two_pow_pos x)) (Nat.pow_le_pow_right (by decide) hx.le)
    rw [BitVec.toNat_setWidth, toNat_and_ones (toNat_signExtend_umfBitMask hx), Nat.mod_eq_of_lt hlt]
  obtain ⟨hchannel, hservice, hmethod, hlength⟩ := P.bits_lt
  rw [decodeHeader] at h
  split at h
  · cases h
  · obtain rfl := Option.some.inj h
    refine ⟨rfl, ?_, ?_, ?_, ?_, ?_⟩
    · show (chunk >>> P.msgLengthBits >>> P.methodIDBits >>> P.serviceIDBits >>>
        P.channelIDBits).toNat = pvt
      rw [toNat_shiftRight, toNat_shiftRight, toNat_shiftRight, toNat_shiftRight, hd.pvt]
    · show ((chunk >>> P.msgLengthBits >>> P.methodIDBits >>> P.serviceIDBits &&& _).setWidth
        32).toNat = channelID
      rw [hmasked _ hchannel, toNat_shiftRight, toNat_shiftRight, toNat_shiftRight, hd.channelID]
    · show ((chunk >>> P.msgLengthBits >>> P.methodIDBits &&& _).setWidth 32).toNat = serviceID
      rw [hmasked _ hservice, toNat_shiftRight, toNat_shiftRight, hd.serviceID]
    · show ((chunk >>> P.msgLengthBits &&& _).setWidth 32).toNat = methodID
      rw [hmasked _ hmethod, toNat_shiftRight, hd.methodID]
    · exact length_digits hd

theorem div_two_pow_div (n a b : ℕ) : n / 2 ^ a / 2 ^ b = n / 2 ^ (b + a) := by
  rw [Nat.div_div_eq_div_mul, ← Nat.pow_add, Nat.add_comm]

theorem toNat_extract {w : ℕ} (x : BitVec w) (lo n : ℕ) :
    (x.extractLsb' lo n).toNat = x.toNat / 2 ^ lo % 2 ^ n := by
  rw [BitVec.extractLsb'_toNat, Nat.shiftRight_eq_div_pow]

/-- So does the FPGA. -/
theorem isDigits_unpack (chunk : Chunk P) :
    IsDigits P chunk.toNat
      ((unpack chunk).filler.toNat * 2 ^ P.phyChannelReservedBits +
        (unpack chunk).phyChannelPvt.toNat)
      (unpack chunk).channelID.toNat (unpack chunk).serviceID.toNat (unpack chunk).methodID.toNat
      (unpack chunk).numChunks.toNat := by
  constructor
  case numChunks => rw [unpack, toNat_extract, Nat.pow_zero, Nat.div_one]
  case methodID => rw [unpack, toNat_extract]
  case serviceID => rw [unpack, toNat_extract, div_two_pow_div]
  case channelID =>
    rw [unpack, toNat_extract, div_two_pow_div, div_two_pow_div, Nat.add_assoc]
  case pvt =>
    -- the filler is all that is left
    have hfiller : chunk.toNat / 2 ^ (P.phyChannelReservedBits + (P.channelIDBits +
        (P.serviceIDBits + (P.methodIDBits + P.msgLengthBits)))) < 2 ^ fillerBits P := by
      refine Nat.div_lt_of_lt_mul (Nat.lt_of_lt_of_eq chunk.isLt ?_)
      rw [← Nat.pow_add, Nat.add_comm, fillerBits_add]
    rw [unpack, toNat_extract, toNat_extract, Nat.mod_eq_of_lt hfiller, div_two_pow_div,
      div_two_pow_div, div_two_pow_div, ← div_two_pow_div _ _ P.phyChannelReservedBits,
      Nat.div_add_mod', Nat.add_assoc, Nat.add_assoc]

/-- What is packed is unpacked. -/
theorem unpack_pack (h : PacketHeader P) : unpack h.pack = h := by
  have hd := isDigits_unpack h.pack
  rw [h.toNat_pack] at hd
  have hd' := isDigits_digits
    (h.filler.toNat * 2 ^ P.phyChannelReservedBits + h.phyChannelPvt.toNat) h.channelID.isLt
    h.serviceID.isLt h.methodID.isLt h.numChunks.isLt
  have hpvt := hd.pvt.symm.trans hd'.pvt
  have hlow := congrArg (fun n => n % 2 ^ P.phyChannelReservedBits) hpvt
  have hhigh := congrArg (fun n => n / 2 ^ P.phyChannelReservedBits) hpvt
  simp only [low_field (BitVec.isLt _), high_field (BitVec.isLt _)] at hlow hhigh
  have hchannel := BitVec.eq_of_toNat_eq (hd.channelID.symm.trans hd'.channelID)
  have hservice := BitVec.eq_of_toNat_eq (hd.serviceID.symm.trans hd'.serviceID)
  have hmethod := BitVec.eq_of_toNat_eq (hd.methodID.symm.trans hd'.methodID)
  have hnum := BitVec.eq_of_toNat_eq (hd.numChunks.symm.trans hd'.numChunks)
  calc
    unpack h.pack = ⟨(unpack h.pack).filler, (unpack h.pack).phyChannelPvt,
      (unpack h.pack).channelID, (unpack h.pack).serviceID, (unpack h.pack).methodID,
      (unpack h.pack).numChunks⟩ := rfl
    _ = h := by
      rw [BitVec.eq_of_toNat_eq hhigh, BitVec.eq_of_toNat_eq hlow, hchannel, hservice, hmethod, hnum]

/-! ### The codec -/

/-- The header that the FPGA unpacks from what the host encoded. -/
def HeaderInfo.packetHeader (m : HeaderInfo P) (pvt : BitVec 32) : PacketHeader P where
  filler := 0#_
  phyChannelPvt := pvt.setWidth _
  channelID := m.channelID.setWidth _
  serviceID := m.serviceID.setWidth _
  methodID := m.methodID.setWidth _
  numChunks := (numChunks P.chunkBytes m.length).setWidth _

/-- The two encodings are one: every field is in the same place. -/
theorem HeaderInfo.encode_eq_pack {m : HeaderInfo P} {pvt : BitVec 32} (h : m.InRange pvt) :
    m.encodeHeaderWithPhyChannelPvt pvt = (m.packetHeader pvt).pack := by
  apply BitVec.eq_of_toNat_eq
  rw [HeaderInfo.toNat_encode h, PacketHeader.toNat_pack, packetHeader]
  simp only [BitVec.toNat_setWidth, Nat.mod_eq_of_lt h.pvt_lt, Nat.mod_eq_of_lt h.channelID_lt,
    Nat.mod_eq_of_lt h.serviceID_lt, Nat.mod_eq_of_lt h.methodID_lt,
    Nat.mod_eq_of_lt h.numChunks_lt, BitVec.toNat_zero, Nat.zero_mul, Nat.zero_add]

/-- What the host decodes is what the FPGA unpacks, whoever made the header; only that the private
field of the physical channel comes with the filler above it. -/
theorem decode_fields {chunk : Chunk P} {d : HeaderInfo P} (h : decodeHeader chunk = some d) :
    d.header = chunk ∧
    d.phyPvt.toNat = (unpack chunk).filler.toNat * 2 ^ P.phyChannelReservedBits +
      (unpack chunk).phyChannelPvt.toNat ∧
    d.channelID.toNat = (unpack chunk).channelID.toNat ∧
    d.serviceID.toNat = (unpack chunk).serviceID.toNat ∧
    d.methodID.toNat = (unpack chunk).methodID.toNat ∧
    d.length = BitVec.ofNat 32 (P.chunkBytes * (unpack chunk).numChunks.toNat) :=
  decodeHeader_digits h (isDigits_unpack chunk)

/-- What the host encoded is decoded again. -/
theorem decode_encode {m : HeaderInfo P} {pvt : BitVec 32} (h : m.InRange pvt) :
    ∃ d, decodeHeader (m.encodeHeaderWithPhyChannelPvt pvt) = some d ∧
      d.channelID = m.channelID ∧ d.serviceID = m.serviceID ∧ d.methodID = m.methodID ∧
      d.phyPvt.toNat = pvt.toNat ∧
      d.length.toNat = P.chunkBytes * ((m.length.toNat + (P.chunkBytes - 1)) / P.chunkBytes) := by
  have hd := isDigits_digits pvt.toNat h.channelID_lt h.serviceID_lt h.methodID_lt h.numChunks_lt
  rw [← HeaderInfo.toNat_encode h] at hd
  obtain ⟨d, hdecode⟩ := exists_decodeHeader hd h.length_le
  obtain ⟨_, hpvt, hchannel, hservice, hmethod, hlength⟩ := decodeHeader_digits hdecode hd
  refine ⟨d, hdecode, BitVec.eq_of_toNat_eq hchannel, BitVec.eq_of_toNat_eq hservice,
    BitVec.eq_of_toNat_eq hmethod, hpvt, ?_⟩
  rw [hlength, toNat_length_digits h.length_le, toNat_numChunks]

/-- What the FPGA packed is decoded by the host. -/
theorem decode_pack {h : PacketHeader P} (hfiller : h.filler = 0)
    (hle : P.chunkBytes * h.numChunks.toNat ≤ P.maxMsgBytes) :
    ∃ d, decodeHeader h.pack = some d ∧ d.channelID.toNat = h.channelID.toNat ∧
      d.serviceID.toNat = h.serviceID.toNat ∧ d.methodID.toNat = h.methodID.toNat ∧
      d.phyPvt.toNat = h.phyChannelPvt.toNat ∧
      d.length.toNat = P.chunkBytes * h.numChunks.toNat := by
  have hd := isDigits_unpack h.pack
  rw [unpack_pack] at hd
  obtain ⟨d, hdecode⟩ := exists_decodeHeader hd hle
  obtain ⟨_, hpvt, hchannel, hservice, hmethod, hlength⟩ := decodeHeader_digits hdecode hd
  refine ⟨d, hdecode, hchannel, hservice, hmethod, ?_, ?_⟩
  · have hzero : h.filler.toNat = 0 := by
      rw [hfiller]
      exact BitVec.toNat_zero
    rw [hpvt, hzero, Nat.zero_mul, Nat.zero_add]
  · rw [hlength, toNat_length_digits hle]

/-- **Header codec.** The host decodes what it encoded, with the length rounded up to chunks; either
side decodes what the other encoded; and every field is in the same place on both. -/
theorem header_codec {m : HeaderInfo P} {pvt : BitVec 32} (h : m.InRange pvt) :
    (∃ d, decodeHeader (m.encodeHeaderWithPhyChannelPvt pvt) = some d ∧
      d.channelID = m.channelID ∧ d.serviceID = m.serviceID ∧ d.methodID = m.methodID ∧
      d.phyPvt.toNat = pvt.toNat ∧
      d.length.toNat = P.chunkBytes * ((m.length.toNat + (P.chunkBytes - 1)) / P.chunkBytes)) ∧
    m.encodeHeaderWithPhyChannelPvt pvt = (m.packetHeader pvt).pack ∧
    unpack (m.encodeHeaderWithPhyChannelPvt pvt) = m.packetHeader pvt ∧
    (∀ chunk (d : HeaderInfo P), decodeHeader chunk = some d →
      d.channelID.toNat = (unpack chunk).channelID.toNat ∧
      d.serviceID.toNat = (unpack chunk).serviceID.toNat ∧
      d.methodID.toNat = (unpack chunk).methodID.toNat ∧
      d.phyPvt.toNat = (unpack chunk).filler.toNat * 2 ^ P.phyChannelReservedBits +
        (unpack chunk).phyChannelPvt.toNat) ∧
    ∀ g : PacketHeader P, g.filler = 0 → P.chunkBytes * g.numChunks.toNat ≤ P.maxMsgBytes →
      ∃ d, decodeHeader g.pack = some d ∧ d.channelID.toNat = g.channelID.toNat ∧
        d.serviceID.toNat = g.serviceID.toNat ∧ d.methodID.toNat = g.methodID.toNat ∧
        d.phyPvt.toNat = g.phyChannelPvt.toNat ∧
        d.length.toNat = P.chunkBytes * g.numChunks.toNat := by
  refine ⟨decode_encode h, m.encode_eq_pack h, ?_, fun chunk d hd => ?_,
    fun g hfiller hle => decode_pack hfiller hle⟩
  · rw [m.encode_eq_pack h, unpack_pack]
  · obtain ⟨_, hpvt, hchannel, hservice, hmethod, _⟩ := decode_fields hd
    exact ⟨hchannel, hservice, hmethod, hpvt⟩

/-- The default size of a message is one. -/
theorem maxMsgBytes_lt : 1024 < 2 ^ 31 := by decide

/-- There are masks for the default widths. -/
theorem widths_lt : 4 < 32 ∧ 8 < 32 ∧ 4 < 32 ∧ 10 < 32 := by decide

/-- The default widths, which fill a chunk of four bytes, in one of eight. -/
def eightBytes : Params where
  chunkBytes := 8
  chunkBytes_cases := Or.inr (Or.inl rfl)
  maxMsgBytes := 1024
  maxMsgBytes_lt := maxMsgBytes_lt
  phyChannelReservedBits := 6
  channelIDBits := 4
  serviceIDBits := 8
  methodIDBits := 4
  msgLengthBits := 10
  bits_le := by decide
  bits_lt := widths_lt

/-- A message of 13 bytes. -/
def sampleMessage : HeaderInfo eightBytes := ⟨3, 200, 15, 13, 0, 0⟩

theorem header_codec_sampleMessage :
    ∃ d, decodeHeader (sampleMessage.encodeHeaderWithPhyChannelPvt 33) = some d ∧
      d.channelID = 3 ∧ d.serviceID = 200 ∧ d.methodID = 15 ∧ d.phyPvt.toNat = 33 ∧
      d.length.toNat = 16 := by
  have hrange : sampleMessage.InRange 33 :=
    ⟨by decide, by decide, by decide, by decide, by decide, by decide⟩
  exact (header_codec hrange).1

/-- A filler that is not zero is decoded into the private field. -/
theorem filler_decoded : ∃ (h : PacketHeader eightBytes) (d : HeaderInfo eightBytes),
    decodeHeader h.pack = some d ∧ h.phyChannelPvt.toNat = 0 ∧ d.phyPvt.toNat = 64 :=
  ⟨⟨1, 0, 0, 0, 0, 0⟩, ⟨0, 0, 0, 0, 64, 1#_ <<< 32⟩, by decide, rfl, rfl⟩

end Umf

end LeapPlatforms
