import LwipPoc.Core.PbufBytes

/-!
# Parsing a DHCP reply

`dhcp_parse_reply` of `core/dhcp.c`. One loop goes through the options of three areas of the message: the options field up
to the end of the packet, and the file and the sname field where an overload option asks for them. `options` is the payload
pointer of the pbuf `q`, and `offset` and `offset_max` are relative to it, in variables of 16 bits.

The octets of options and lengths are read through payload pointers, and nothing but the code itself keeps the reads inside
the pbuf: `behind` is what the memory holds behind the bytes of a pbuf, and with the result goes a list of the reads. The
option values are copied by `pbuf_copy_partial`.

A failed `LWIP_ERROR` is its handler, `return ERR_VAL`. The loops have `fuel`, which every jump back uses up.
-/

namespace Lwip.Core.Dhcp

/-! ### Constants -/

/-- `DNS_MAX_SERVERS`. -/
def dnsMaxServers : ℕ := 2

/-- `DHCP_SNAME_OFS` and `DHCP_SNAME_LEN`. -/
def dhcpSnameOfs : ℕ := 44
def dhcpSnameLen : ℕ := 64

/-- `DHCP_FILE_OFS` and `DHCP_FILE_LEN`. -/
def dhcpFileOfs : ℕ := 108
def dhcpFileLen : ℕ := 128

/-- `DHCP_OPTIONS_OFS`. -/
def dhcpOptionsOfs : ℕ := 240

/-- The options that are looked at, by their codes. -/
def dhcpOptionPad : BitVec 8 := 0
def dhcpOptionSubnetMask : BitVec 8 := 1
def dhcpOptionRouter : BitVec 8 := 3
def dhcpOptionDnsServer : BitVec 8 := 6
def dhcpOptionLeaseTime : BitVec 8 := 51
def dhcpOptionOverload : BitVec 8 := 52
def dhcpOptionMessageType : BitVec 8 := 53
def dhcpOptionServerId : BitVec 8 := 54
def dhcpOptionT1 : BitVec 8 := 58
def dhcpOptionT2 : BitVec 8 := 59
def dhcpOptionEnd : BitVec 8 := 255

/-- `DHCP_OVERLOAD_FILE`, `DHCP_OVERLOAD_SNAME` and `DHCP_OVERLOAD_SNAME_FILE`. -/
def dhcpOverloadFile : BitVec 32 := 1
def dhcpOverloadSname : BitVec 32 := 2
def dhcpOverloadSnameFile : BitVec 32 := 3

/-- The places of the decoded values. -/
def dhcpOptionIdxOverload : ℕ := 0
def dhcpOptionIdxMsgType : ℕ := 1
def dhcpOptionIdxServerId : ℕ := 2
def dhcpOptionIdxLeaseTime : ℕ := 3
def dhcpOptionIdxT1 : ℕ := 4
def dhcpOptionIdxT2 : ℕ := 5
def dhcpOptionIdxSubnetMask : ℕ := 6
def dhcpOptionIdxRouter : ℕ := 7
def dhcpOptionIdxDnsServer : ℕ := 8
def dhcpOptionIdxMax : ℕ := dhcpOptionIdxDnsServer + dnsMaxServers

/-! ### The decoded values -/

/-- `dhcp_rx_options_given` and `dhcp_rx_options_val`. -/
@[ext] structure RxOptions where
  given : ℕ → Bool
  val : ℕ → BitVec 32

namespace RxOptions

/-- `dhcp_clear_all_options`. -/
def clearAll (rx : RxOptions) : RxOptions := { rx with given := fun _ ↦ false }

/-- `dhcp_clear_option`. -/
def clear (rx : RxOptions) (idx : ℕ) : RxOptions := { rx with given := Function.update rx.given idx false }

/-- `dhcp_got_option` and `dhcp_set_option_value`. -/
def got (rx : RxOptions) (idx : ℕ) (value : BitVec 32) : RxOptions :=
  ⟨Function.update rx.given idx true, Function.update rx.val idx value⟩

variable (rx : RxOptions) (idx : ℕ) (value : BitVec 32)

@[simp] theorem clearAll_given : rx.clearAll.given idx = false := rfl

@[simp] theorem clear_given : (rx.clear idx).given = Function.update rx.given idx false := rfl

@[simp] theorem got_given : (rx.got idx value).given = Function.update rx.given idx true := rfl

@[simp] theorem got_val : (rx.got idx value).val = Function.update rx.val idx value := rfl

end RxOptions

/-- What ends the function from inside the loop: `LWIP_ERROR`, with the values decoded up to then, or `LWIP_ASSERT`. -/
inductive Fault where
  | errVal (rx : RxOptions)
  | assertion

/-- `ntohl` of what is in a `u32_t`. -/
def ntohl (value : List (BitVec 8)) : BitVec 32 := value.foldl (fun v b ↦ v <<< 8 ||| b.setWidth 32) 0

/-- From `decode_next` on; `decode_idx` is -1 if it is `none`. -/
def decodeNext (q : List Pbuf) (decodeLen : ℕ) (decodeIdx : Option ℕ) (valOffset : ℕ) (value : List (BitVec 8))
    (rx : RxOptions) : Except Fault RxOptions :=
  match decodeIdx with
  | none => .error .assertion
  | some idx =>
    if dhcpOptionIdxMax ≤ idx then .error .assertion
    else if rx.given idx then .ok rx
    else
      let copied := (pbufCopyPartial q value (min decodeLen 4) valOffset).1
      match decodeLen with
      | n + 5 =>
        if (n + 5) % 4 ≠ 0 then .error (.errVal rx)
        else decodeNext q (n + 1) (some (idx + 1)) ((valOffset + 4) % 2 ^ 16) copied (rx.got idx (ntohl copied))
      | 4 => .ok (rx.got idx (ntohl copied))
      | 1 => .ok (rx.got idx ((copied.headD 0).setWidth 32))
      | _ => .error (.errVal rx)
termination_by structural decodeLen

/-! ### The loop -/

/-- `q`, the pbufs behind it, `offset` and `offset_max`. -/
structure Spot where
  q : Pbuf
  next : List Pbuf
  offset : ℕ
  offsetMax : ℕ
  deriving DecidableEq, Repr

/-- An octet read through the payload pointer of the first pbuf of a chain. -/
structure Read where
  chain : List Pbuf
  ofs : ℕ
  deriving DecidableEq, Repr

/-- The octet is one of the pbuf. -/
def Read.Inside (r : Read) : Prop := ∃ q ∈ r.chain.head?, r.ofs < q.len

/-- `((u8_t*)p->payload)[ofs]`. -/
def octet (behind : List Pbuf → ℕ → BitVec 8) (r : Read) : BitVec 8 :=
  ((r.chain.head?.map Pbuf.payload).getD []).getD r.ofs (behind r.chain r.ofs)

/-- `len`, `offset`, `decode_len` and `decode_idx` behind the `switch`. -/
structure Switched where
  len : ℕ
  offset : ℕ
  decodeLen : ℕ
  decodeIdx : Option ℕ
  deriving DecidableEq, Repr

/-- An option whose length is given. -/
def lenIs (n len offset idx : ℕ) : Option Switched := if len = n then some ⟨len, offset, len, some idx⟩ else none

/-- The `switch`, or nothing if an `LWIP_ERROR` fails. -/
def optionSwitch (op : BitVec 8) (len offset : ℕ) : Option Switched :=
  if op = dhcpOptionPad then some ⟨0, (offset + 2 ^ 16 - 1) % 2 ^ 16, 0, none⟩
  else if op = dhcpOptionSubnetMask then lenIs 4 len offset dhcpOptionIdxSubnetMask
  else if op = dhcpOptionRouter then if 4 ≤ len then some ⟨len, offset, 4, some dhcpOptionIdxRouter⟩ else none
  else if op = dhcpOptionDnsServer then
    if len % 4 = 0 ∧ min len (4 * dnsMaxServers) ≤ len then
      some ⟨len, offset, min len (4 * dnsMaxServers), some dhcpOptionIdxDnsServer⟩
    else none
  else if op = dhcpOptionLeaseTime then lenIs 4 len offset dhcpOptionIdxLeaseTime
  else if op = dhcpOptionOverload then lenIs 1 len offset dhcpOptionIdxOverload
  else if op = dhcpOptionMessageType then lenIs 1 len offset dhcpOptionIdxMsgType
  else if op = dhcpOptionServerId then lenIs 4 len offset dhcpOptionIdxServerId
  else if op = dhcpOptionT1 then lenIs 4 len offset dhcpOptionIdxT1
  else if op = dhcpOptionT2 then lenIs 4 len offset dhcpOptionIdxT2
  else some ⟨len, offset, 0, none⟩

namespace Spot

variable (behind : List Pbuf → ℕ → BitVec 8) (c : Spot)

/-- The read of `options[offset]`. -/
def opRead : Read := ⟨c.q :: c.next, c.offset⟩

/-- `op`. -/
def op : BitVec 8 := octet behind c.opRead

/-- The condition of the loop. -/
def Live : Prop := c.op behind ≠ dhcpOptionEnd ∧ c.offset < c.offsetMax

instance : Decidable (c.Live behind) := inferInstanceAs (Decidable (_ ∧ _))

/-- The read of the length octet, which might be in the next pbuf. -/
def lenRead : Option Read :=
  if c.offset + 1 < c.q.len then some ⟨c.q :: c.next, c.offset + 1⟩
  else if c.next ≠ [] then some ⟨c.next, 0⟩ else none

/-- `len`. -/
def len : ℕ := ((c.lenRead.map (octet behind)).getD 0).toNat

/-- What is read in a round. -/
def reads : List Read := c.opRead :: if c.Live behind then c.lenRead.toList else []

/-- The end of a round: the place where the loop goes on, or nothing if it is left. -/
def move (offset : ℕ) : Except Fault (Option Spot) :=
  if c.q.len ≤ offset then
    if offset - c.q.len < (c.offsetMax + 2 ^ 16 - c.q.len) % 2 ^ 16 ∧ (c.offsetMax + 2 ^ 16 - c.q.len) % 2 ^ 16 ≠ 0 then
      match c.next with
      | [] => .error .assertion
      | q :: next => .ok (some ⟨q, next, offset - c.q.len, (c.offsetMax + 2 ^ 16 - c.q.len) % 2 ^ 16⟩)
    else .ok none
  else .ok (some { c with offset })

/-- What is done about the value of an option. -/
def decode (s : Switched) (rx : RxOptions) : Except Fault RxOptions :=
  if 0 < s.decodeLen then
    decodeNext (c.q :: c.next) s.decodeLen s.decodeIdx ((c.offset + 2) % 2 ^ 16) [0, 0, 0, 0] rx
  else .ok rx

/-- A round of the loop. -/
def turn (rx : RxOptions) : Except Fault (Option Spot × RxOptions) :=
  if c.Live behind then
    match optionSwitch (c.op behind) (c.len behind) c.offset with
    | none => .error (.errVal rx)
    | some s => (c.decode s rx).bind fun rx ↦ (c.move ((s.offset + (s.len + 2)) % 2 ^ 16)).map fun c ↦ (c, rx)
  else .ok (none, rx)

end Spot

/-- The loop, and what was read in it. -/
def optionLoop (behind : List Pbuf → ℕ → BitVec 8) :
    ℕ → Spot → RxOptions → List Read → Option (Except Fault RxOptions × List Read)
  | 0, _, _, _ => none
  | fuel + 1, c, rx, reads =>
    match c.turn behind rx with
    | .error e => some (.error e, reads ++ c.reads behind)
    | .ok (none, rx) => some (.ok rx, reads ++ c.reads behind)
    | .ok (some c', rx) => optionLoop behind fuel c' rx (reads ++ c.reads behind)

/-! ### The areas -/

/-- The loop behind `again`, to the pbuf in which an area begins. -/
def seekOptions : List Pbuf → ℕ → ℕ → Option Spot
  | [], _, _ => none
  | q :: next, optionsIdx, optionsIdxMax =>
    if q.len ≤ optionsIdx then seekOptions next (optionsIdx - q.len) ((optionsIdxMax + 2 ^ 16 - q.len) % 2 ^ 16)
    else some ⟨q, next, optionsIdx, optionsIdxMax⟩

/-- `parse_file_as_options` and `parse_sname_as_options` behind the question whether this is an overloaded message, and the
values. -/
def overloaded (rx : RxOptions) (file sname : Bool) : Bool × Bool × RxOptions :=
  if rx.given dhcpOptionIdxOverload then
    let overload := rx.val dhcpOptionIdxOverload
    let rx := rx.clear dhcpOptionIdxOverload
    if overload = dhcpOverloadFile then (true, sname, rx)
    else if overload = dhcpOverloadSname then (file, true, rx)
    else if overload = dhcpOverloadSnameFile then (true, true, rx)
    else (file, sname, rx)
  else (file, sname, rx)

/-- What becomes of a call. -/
inductive Outcome where
  | returns (err : ErrT) (rx : RxOptions)
  | assertFails

/-- From `again` on. -/
def again (behind : List Pbuf → ℕ → BitVec 8) (p : List Pbuf) :
    ℕ → ℕ → ℕ → Bool → Bool → RxOptions → List Read → Option (Outcome × List Read)
  | 0, _, _, _, _, _, _ => none
  | fuel + 1, optionsIdx, optionsIdxMax, file, sname, rx, reads =>
    match seekOptions p optionsIdx optionsIdxMax with
    | none => some (.returns .buf rx, reads)
    | some c =>
      (optionLoop behind fuel c rx reads).bind fun r ↦
        match r with
        | (.error (.errVal rx), reads) => some (.returns .val rx, reads)
        | (.error .assertion, reads) => some (.assertFails, reads)
        | (.ok rx, reads) =>
          match overloaded rx file sname with
          | (true, sname, rx) => again behind p fuel dhcpFileOfs (dhcpFileOfs + dhcpFileLen) false sname rx reads
          | (false, true, rx) => again behind p fuel dhcpSnameOfs (dhcpSnameOfs + dhcpSnameLen) false false rx reads
          | (false, false, rx) => some (.returns .ok rx, reads)

/-- `dhcp_parse_reply`. -/
def dhcpParseReply (behind : List Pbuf → ℕ → BitVec 8) (fuel : ℕ) (p : List Pbuf) (rx : RxOptions) :
    Option (Outcome × List Read) :=
  if (p.head?.map Pbuf.len).getD 0 < dhcpSnameOfs then some (.returns .buf rx.clearAll, [])
  else again behind p fuel dhcpOptionsOfs (pbufTotLen p) false false rx.clearAll []

end Lwip.Core.Dhcp
