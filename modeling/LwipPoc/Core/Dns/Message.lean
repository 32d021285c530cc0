import LwipPoc.Arch
import LwipPoc.Ipv4.IpAddr

/-!
# DNS messages

What `core/dns.c` reads from a response, and the query that it sends. A pointer into the memory is the list of the
bytes from there on; reading where this list has ended is `none`. What lies behind the static buffer, and behind
the name of an entry, is memory as any other.
-/

namespace Lwip.Dns

open Lwip.Ipv4

/-- `DNS_MAX_TTL`. -/
def dnsMaxTtl : U32 := 604800

/-- `SIZEOF_DNS_HDR`. -/
def sizeofDnsHdr : ℕ := 12

/-- `SIZEOF_DNS_QUERY`. -/
def sizeofDnsQuery : ℕ := 4

/-- `SIZEOF_DNS_ANSWER`. -/
def sizeofDnsAnswer : ℕ := 10

/-- The first byte of a pointer to a name. -/
def compressed (n : BitVec 8) : Bool := n &&& 0xc0 = 0xc0

/-! ### Names -/

/-- The inner loop of `dns_compare_name`: the label has `n` more characters. The result is `none` inside where the
names differ. -/
def compareLabel : ℕ → List (BitVec 8) → List (BitVec 8) → Option (Option (List (BitVec 8) × List (BitVec 8)))
  | 0, query, response => some (some (query, response))
  | n + 1, q :: query, r :: response => if q ≠ r then some none else compareLabel n query response
  | _ + 1, _, _ => none

/-- The loop of `dns_compare_name`, for at most so many labels. It returns 0 where the names are equal. -/
def compareLabels : ℕ → List (BitVec 8) → List (BitVec 8) → Option ℕ
  | 0, _, _ => none
  | _ + 1, _, [] => none
  | labels + 1, query, n :: response =>
    if compressed n then some 0
    else
      (compareLabel n.toNat query response).bind fun
        | none => some 1
        | some (query, response) =>
          (response.head?).bind fun c ↦ if c ≠ 0 then compareLabels labels query.tail response else some 0

/-- `dns_compare_name`. A label has at least its first byte. -/
def dnsCompareName (query response : List (BitVec 8)) : Option ℕ := compareLabels response.length query response

/-- The loop of `dns_parse_name`, for at most so many labels. -/
def parseLabels : ℕ → List (BitVec 8) → Option (List (BitVec 8))
  | 0, _ => none
  | _ + 1, [] => none
  | labels + 1, n :: query =>
    if compressed n then some query.tail
    else
      let query := query.drop n.toNat
      (query.head?).bind fun c ↦ if c ≠ 0 then parseLabels labels query else some query.tail

/-- `dns_parse_name`. -/
def dnsParseName (query : List (BitVec 8)) : Option (List (BitVec 8)) := parseLabels query.length query

/-! ### Responses -/

/-- The sixteen-bit field at an offset, by `htons`. -/
def u16At (p : List (BitVec 8)) (i : ℕ) : Option ℕ :=
  (p[i]?).bind fun a ↦ (p[i + 1]?).map fun b ↦ a.toNat * 2 ^ 8 + b.toNat

/-- The four bytes at an offset, as they lie in memory. -/
def u32At (p : List (BitVec 8)) (i : ℕ) : Option U32 :=
  (p[i]?).bind fun a ↦ (p[i + 1]?).bind fun b ↦ (p[i + 2]?).bind fun c ↦ (p[i + 3]?).map fun d ↦
    d ++ c ++ b ++ a

/-- `struct dns_answer`, in host order. -/
structure DnsAnswer where
  type : ℕ
  cls : ℕ
  ttl : U32
  len : ℕ
  deriving DecidableEq, Repr

/-- `SMEMCPY(&ans, pHostname, SIZEOF_DNS_ANSWER)`. -/
def DnsAnswer.read (p : List (BitVec 8)) : Option DnsAnswer :=
  (u16At p 0).bind fun type ↦ (u16At p 2).bind fun cls ↦ (u32At p 4).bind fun ttl ↦ (u16At p 8).map fun len ↦
    ⟨type, cls, htonl ttl, len⟩

/-- The loop over the answers: the time to live and the address of the first one with an Internet address. -/
def dnsAnswers : ℕ → List (BitVec 8) → Option (Option (U32 × U32))
  | 0, _ => some none
  | nanswers + 1, p =>
    (dnsParseName p).bind fun p ↦
      (DnsAnswer.read p).bind fun ans ↦
        if ans.type = 1 ∧ ans.cls = 1 ∧ ans.len = 4 then
          (u32At p sizeofDnsAnswer).map fun ipaddr ↦ some (if dnsMaxTtl < ans.ttl then dnsMaxTtl else ans.ttl, ipaddr)
        else dnsAnswers nanswers (p.drop (sizeofDnsAnswer + ans.len))

/-- What `dns_recv` makes of a message for an entry that is being asked for: its error code, and the time to live and
the address, or `none` for `responseerr`. -/
def dnsResponse (name payload : List (BitVec 8)) : Option (BitVec 8 × Option (U32 × U32)) :=
  (payload[2]?).bind fun flags1 ↦ (payload[3]?).bind fun flags2 ↦
    (u16At payload 4).bind fun nquestions ↦ (u16At payload 6).bind fun nanswers ↦
      let err := flags2 &&& 0x0f
      if flags1 &&& 0x80 = 0 ∨ err ≠ 0 ∨ nquestions ≠ 1 then some (err, none)
      else
        (dnsCompareName name (payload.drop sizeofDnsHdr)).bind fun differs ↦
          if differs ≠ 0 then some (err, none)
          else
            (dnsParseName (payload.drop sizeofDnsHdr)).bind fun p ↦
              (dnsAnswers nanswers (p.drop sizeofDnsQuery)).map fun r ↦ (err, r)

/-! ### Queries -/

/-- The hostname as labels, each behind its length in a `u8_t`, with a zero behind the last one. -/
def dnsLabels (name : List (BitVec 8)) : List (BitVec 8) :=
  (name.splitOn 0x2e).flatMap (fun label ↦ BitVec.ofNat 8 label.length :: label) ++ [0]

/-- The message of `dns_send`. -/
def dnsQuery (name : List (BitVec 8)) (id : BitVec 8) : List (BitVec 8) :=
  [0, id, 0x01, 0, 0, 1, 0, 0, 0, 0, 0, 0] ++ dnsLabels name ++ [0, 1, 0, 1]

end Lwip.Dns
