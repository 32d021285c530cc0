import LwipPoc.Core.Pbuf

/-!
# The IP header

`struct ip_hdr` with its fields in host order, except for the checksum and the addresses, which the
code keeps as they lie in memory. `inet_chksum` sums the header as sixteen-bit words in memory order,
on a little-endian machine, so the fields in host order are swapped for it.
-/

namespace Lwip.Ipv4

open Lwip.Core

/-- `IP_HLEN`. -/
def ipHlen : ℕ := 20

/-- `struct ip_hdr`. -/
structure IpHdr where
  /-- `_v_hl`: the version, and the header length in words. -/
  vhl : ℕ
  tos : ℕ
  len : ℕ
  id : ℕ
  /-- The offset in units of eight bytes, and the flags. -/
  offset : ℕ
  ttl : ℕ
  proto : ℕ
  chksum : ℕ
  src : ℕ
  dest : ℕ
  deriving DecidableEq, Repr

/-- A packet: its header, and the pbufs, of which the first holds the header. -/
structure IpPacket where
  hdr : IpHdr
  pbufs : List Pbuf
  deriving DecidableEq, Repr

namespace IpHdr

/-- `IPH_HL`. -/
def hl (h : IpHdr) : ℕ := h.vhl % 16

/-- `(ntohs(IPH_OFFSET(hdr)) & IP_OFFMASK) * 8`: the offset of the payload in the datagram. -/
def start (h : IpHdr) : ℕ := h.offset % 2 ^ 13 * 8

/-- `IP_MF`: there are more fragments. -/
def mf (h : IpHdr) : Bool := h.offset / 2 ^ 13 % 2 = 1

/-- `ntohs(IPH_LEN(hdr)) - IPH_HL(hdr) * 4`, in a `u16_t`. -/
def payloadLen (h : IpHdr) : ℕ := (h.len + 2 ^ 16 - h.hl * 4) % 2 ^ 16

/-- `htons`. -/
def swap16 (n : ℕ) : ℕ := n % 2 ^ 8 * 2 ^ 8 + n / 2 ^ 8 % 2 ^ 8

/-- The header as sixteen-bit words in memory, without the checksum. -/
def words (h : IpHdr) : List ℕ :=
  [h.vhl % 2 ^ 8 + h.tos % 2 ^ 8 * 2 ^ 8, swap16 h.len, swap16 h.id, swap16 h.offset,
    h.ttl % 2 ^ 8 + h.proto % 2 ^ 8 * 2 ^ 8, h.src % 2 ^ 16, h.src / 2 ^ 16 % 2 ^ 16,
    h.dest % 2 ^ 16, h.dest / 2 ^ 16 % 2 ^ 16]

/-- `FOLD_U32T`. -/
def foldU32 (u : ℕ) : ℕ := u / 2 ^ 16 + u % 2 ^ 16

/-- `inet_chksum(hdr, IP_HLEN)`. -/
def inetChksum (h : IpHdr) : ℕ :=
  2 ^ 16 - 1 - foldU32 (foldU32 (h.words.sum + h.chksum % 2 ^ 16)) % 2 ^ 16

end IpHdr

/-- The bytes from `payload` on. -/
def bytesAt (payload : List (BitVec 8)) (behind : ℕ → BitVec 8) (i : ℕ) : BitVec 8 :=
  (payload[i]?).getD (behind i)

/-- The first `n` bytes of the memory. -/
def memBytes (f : ℕ → BitVec 8) (n : ℕ) : List (BitVec 8) := (List.range n).map f

/-- `ntohs` of a field. -/
def readU16 (f : ℕ → BitVec 8) (i : ℕ) : ℕ := (f i).toNat * 2 ^ 8 + (f (i + 1)).toNat

/-- The bytes behind the header. -/
def IpPacket.payload (p : IpPacket) : List (BitVec 8) := (pbufBytes p.pbufs).drop ipHlen

end Lwip.Ipv4
