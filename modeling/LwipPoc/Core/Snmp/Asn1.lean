import LwipPoc.Core.Pbuf
import Mathlib.Tactic.IntervalCases

/-!
# ASN.1 scalars

The codecs for lengths, integers and octet strings of `core/snmp/asn1_enc.c` and `core/snmp/asn1_dec.c`. Each
walks to an offset in a pbuf chain and goes on from there octet by octet, to the next pbuf where one ends.
`MsgPtr` is the place it has got to, with the offset and the end of the pbuf, which are `u16_t`s.

A result of `none` is an access outside of the payload of a pbuf. What a function has written, or set through
a pointer, before it returns `ERR_ARG` is part of its result.
-/

namespace Lwip.Core.Snmp

/-! ### The counts -/

/-- `snmp_asn1_enc_length_cnt`. -/
def snmpAsn1EncLengthCnt (length : BitVec 16) : ℕ :=
  if length < 0x80 then 1 else if length < 0x100 then 2 else 3

/-- `snmp_asn1_enc_u32t_cnt`. -/
def snmpAsn1EncU32tCnt (value : BitVec 32) : ℕ :=
  if value < 0x80 then 1
  else if value < 0x8000 then 2
  else if value < 0x800000 then 3
  else if value < 0x80000000 then 4
  else 5

/-- `snmp_asn1_enc_s32t_cnt`. -/
def snmpAsn1EncS32tCnt (value : BitVec 32) : ℕ :=
  let value := if value.toInt < 0 then ~~~value else value
  if value.toInt < 0x80 then 1
  else if value.toInt < 0x8000 then 2
  else if value.toInt < 0x800000 then 3
  else 4

/-! ### The place in the chain -/

/-- The pbuf, the place in its payload, the offset in the chain, and the offset behind the pbuf. -/
structure MsgPtr where
  p : ℕ
  i : ℕ
  ofs : ℕ
  plen : ℕ
  deriving DecidableEq, Repr

/-- The loop that looks for the offset. -/
def seek (ofs : ℕ) : List Pbuf → ℕ → ℕ → Option MsgPtr
  | [], _, _ => none
  | p :: ps, k, base =>
    let plen := (base + p.len) % 2 ^ 16
    if ofs < plen then some ⟨k, ofs - base, ofs, plen⟩ else seek ofs ps (k + 1) plen

namespace MsgPtr

/-- The next octet, in the same pbuf or in the next one. -/
def next (ps : List Pbuf) (m : MsgPtr) : Option MsgPtr :=
  let ofs := (m.ofs + 1) % 2 ^ 16
  if m.plen ≤ ofs then (ps[m.p + 1]?).map fun p ↦ ⟨m.p + 1, 0, ofs, (m.plen + p.len) % 2 ^ 16⟩
  else some ⟨m.p, m.i + 1, ofs, m.plen⟩

/-- `*msg_ptr`. -/
def read (ps : List Pbuf) (m : MsgPtr) : Option (BitVec 8) := (ps[m.p]?).bind fun p ↦ p.payload[m.i]?

/-- `*msg_ptr = c`. -/
def write (ps : List Pbuf) (m : MsgPtr) (c : BitVec 8) : Option (List Pbuf) :=
  (m.read ps).map fun _ ↦ ps.modify m.p (Pbuf.write · m.i c)

end MsgPtr

/-! ### Encoders -/

/-- The loop of `snmp_asn1_enc_length` for two octets. -/
def encLengthLoop (length : BitVec 16) : ℕ → MsgPtr → List Pbuf → Option (ErrT × List Pbuf)
  | 0, _, ps => some (.ok, ps)
  | i + 1, m, ps =>
    match m.next ps with
    | none => some (.arg, ps)
    | some m =>
      (m.write ps (if i = 0 then length.setWidth 8 else (length >>> 8).setWidth 8)).bind (encLengthLoop length i m)

/-- `snmp_asn1_enc_length`. -/
def snmpAsn1EncLength (ps : List Pbuf) (ofs : ℕ) (length : BitVec 16) : Option (ErrT × List Pbuf) :=
  match seek ofs ps 0 0 with
  | none => some (.arg, ps)
  | some m =>
    if length < 0x80 then (m.write ps (length.setWidth 8)).map fun ps ↦ (.ok, ps)
    else if length < 0x100 then
      (m.write ps 0x81).bind fun ps ↦
        match m.next ps with
        | none => some (.arg, ps)
        | some m => (m.write ps (length.setWidth 8)).map fun ps ↦ (.ok, ps)
    else (m.write ps 0x82).bind (encLengthLoop length 2 m)

/-- The loop of the integer encoders; `octet j` is the value shifted by `j` octets. -/
def encOctets (octet : ℕ → BitVec 8) : ℕ → MsgPtr → List Pbuf → Option (ErrT × List Pbuf)
  | n + 2, m, ps =>
    (m.write ps (octet (n + 1))).bind fun ps ↦
      match m.next ps with
      | none => some (.arg, ps)
      | some m => encOctets octet (n + 1) m ps
  | _, m, ps => (m.write ps (octet 0)).map fun ps ↦ (.ok, ps)

/-- `snmp_asn1_enc_u32t`. -/
def snmpAsn1EncU32t (ps : List Pbuf) (ofs octetsNeeded : ℕ) (value : BitVec 32) : Option (ErrT × List Pbuf) :=
  match seek ofs ps 0 0 with
  | none => some (.arg, ps)
  | some m =>
    if octetsNeeded = 5 then
      -- not enough bits in the value
      (m.write ps 0x00).bind fun ps ↦
        match m.next ps with
        | none => some (.arg, ps)
        | some m => encOctets (fun j ↦ (value >>> (8 * j)).setWidth 8) 4 m ps
    else encOctets (fun j ↦ (value >>> (8 * j)).setWidth 8) octetsNeeded m ps

/-- `snmp_asn1_enc_s32t`. -/
def snmpAsn1EncS32t (ps : List Pbuf) (ofs octetsNeeded : ℕ) (value : BitVec 32) : Option (ErrT × List Pbuf) :=
  match seek ofs ps 0 0 with
  | none => some (.arg, ps)
  | some m => encOctets (fun j ↦ (value.sshiftRight (8 * j)).setWidth 8) octetsNeeded m ps

/-- The loop of `snmp_asn1_enc_raw`. -/
def encRaw : List (BitVec 8) → MsgPtr → List Pbuf → Option (ErrT × List Pbuf)
  | [], _, ps => some (.ok, ps)
  | [c], m, ps => (m.write ps c).map fun ps ↦ (.ok, ps)
  | c :: cs, m, ps =>
    (m.write ps c).bind fun ps ↦
      match m.next ps with
      | none => some (.arg, ps)
      | some m => encRaw cs m ps

/-- `snmp_asn1_enc_raw`. -/
def snmpAsn1EncRaw (ps : List Pbuf) (ofs : ℕ) (raw : List (BitVec 8)) : Option (ErrT × List Pbuf) :=
  match seek ofs ps 0 0 with
  | none => some (.arg, ps)
  | some m => encRaw raw m ps

/-! ### Decoders -/

/-- The loop of `snmp_asn1_dec_length` that looks for two zero octets; it counts the octets. -/
def decZeros (ps : List Pbuf) : ℕ → ℕ → BitVec 16 → MsgPtr → Option (ErrT × BitVec 16)
  | 0, _, _, _ => none
  | fuel + 1, zeros, length, m =>
    match m.next ps with
    | none => some (.arg, length + 1)
    | some m =>
      (m.read ps).bind fun c ↦
        let zeros := if c = 0 then zeros + 1 else 0
        if zeros = 2 then some (.ok, length + 1) else decZeros ps fuel zeros (length + 1) m

/-- The loop of `snmp_asn1_dec_length` for two octets. -/
def decLengthLoop (ps : List Pbuf) : ℕ → BitVec 16 → MsgPtr → Option (ErrT × BitVec 16)
  | 0, length, _ => some (.ok, length)
  | i + 1, length, m =>
    match m.next ps with
    | none => some (.arg, length)
    | some m =>
      (m.read ps).bind fun c ↦
        decLengthLoop ps i (if i = 0 then length ||| c.setWidth 16 else c.setWidth 16 <<< 8) m

/-- `snmp_asn1_dec_length`, with what is in `*octets_used` and `*length`. -/
def snmpAsn1DecLength (ps : List Pbuf) (ofs octetsUsed : ℕ) (length : BitVec 16) : Option (ErrT × ℕ × BitVec 16) :=
  match seek ofs ps 0 0 with
  | none => some (.arg, octetsUsed, length)
  | some m =>
    (m.read ps).bind fun c ↦
      if c < 0x80 then some (.ok, 1, c.setWidth 16)
      else if c = 0x80 then
        (decZeros ps ((pbufBytes ps).length + 1) 0 0 m).map fun r ↦ (r.1, if r.1 = .ok then 1 else octetsUsed, r.2)
      else if c = 0x81 then
        match m.next ps with
        | none => some (.arg, octetsUsed, length)
        | some m => (m.read ps).map fun c ↦ (.ok, 2, c.setWidth 16)
      else if c = 0x82 then
        (decLengthLoop ps 2 length m).map fun r ↦ (r.1, if r.1 = .ok then 3 else octetsUsed, r.2)
      else some (.arg, 1 + (c &&& 0x7f).toNat, length)

/-- The loop of the integer decoders: an octet goes into the value by `put`, which makes room by `shift`. -/
def decOctets (put : BitVec 32 → BitVec 8 → BitVec 32) (shift : BitVec 32 → BitVec 32) (ps : List Pbuf) :
    ℕ → BitVec 32 → MsgPtr → Option (ErrT × BitVec 32)
  | n + 2, value, m =>
    (m.read ps).bind fun c ↦
      match m.next ps with
      | none => some (.arg, shift (put value c))
      | some m => decOctets put shift ps (n + 1) (shift (put value c)) m
  | _, value, m => (m.read ps).map fun c ↦ (.ok, put value c)

/-- An octet is added to a value with zeros in its place. -/
def orOctet (value : BitVec 32) (c : BitVec 8) : BitVec 32 := value ||| c.setWidth 32

/-- An octet is added to a value with ones in its place. -/
def andOctet (value : BitVec 32) (c : BitVec 8) : BitVec 32 := value &&& (0xffffff00 ||| c.setWidth 32)

/-- `snmp_asn1_dec_u32t`. -/
def snmpAsn1DecU32t (ps : List Pbuf) (ofs len : ℕ) (value : BitVec 32) : Option (ErrT × BitVec 32) :=
  match seek ofs ps 0 0 with
  | none => some (.arg, value)
  | some m =>
    if 0 < len ∧ len < 6 then
      (m.read ps).bind fun c ↦
        if c &&& 0x80 ≠ 0 then some (.arg, 0)
        else if 1 < len ∧ c = 0 then
          -- skip the sign octet
          match m.next ps with
          | none => some (.arg, 0)
          | some m => decOctets orOctet (· <<< 8) ps (len - 1) 0 m
        else decOctets orOctet (· <<< 8) ps len 0 m
    else some (.arg, value)

/-- `snmp_asn1_dec_s32t`, on a little-endian machine. -/
def snmpAsn1DecS32t (ps : List Pbuf) (ofs len : ℕ) (value : BitVec 32) : Option (ErrT × BitVec 32) :=
  match seek ofs ps 0 0 with
  | none => some (.arg, value)
  | some m =>
    if 0 < len ∧ len < 5 then
      (m.read ps).bind fun c ↦
        if c &&& 0x80 ≠ 0 then decOctets andOctet (fun v ↦ v <<< 8 ||| 255) ps len (-1) m
        else decOctets orOctet (· <<< 8) ps len 0 m
    else some (.arg, value)

/-- The loop of `snmp_asn1_dec_raw`: the octets that it copies. -/
def decRaw (ps : List Pbuf) : ℕ → MsgPtr → Option (ErrT × List (BitVec 8))
  | n + 2, m =>
    (m.read ps).bind fun c ↦
      match m.next ps with
      | none => some (.arg, [c])
      | some m => (decRaw ps (n + 1) m).map fun r ↦ (r.1, c :: r.2)
  | _, m => (m.read ps).map fun c ↦ (.ok, [c])

/-- `snmp_asn1_dec_raw`, with what is in `raw`. -/
def snmpAsn1DecRaw (ps : List Pbuf) (ofs len : ℕ) (raw : List (BitVec 8)) : Option (ErrT × List (BitVec 8)) :=
  if 0 < len then
    match seek ofs ps 0 0 with
    | none => some (.arg, raw)
    | some m =>
      if len ≤ raw.length then (decRaw ps len m).map fun r ↦ (r.1, r.2 ++ raw.drop r.2.length)
      else some (.arg, raw)
  else some (.ok, raw)

end Lwip.Core.Snmp
