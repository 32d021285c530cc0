import LwipPoc.Core.PbufBytes
import LwipPoc.Ipv4.HeaderMem
import LwipPoc.Ipv4.Output
import LwipPoc.Ipv4.ReassIsolation

/-!
# Echo replies

The part of `icmp_input` that answers an echo request: in the pbufs of the request if there is room for link
headers in front of it, and in a copy otherwise. The addresses change places, the type becomes zero, the
checksum of the message is adjusted for it, and the checksum of the header is computed again.

The header of the message is accessed through the `payload` of the first pbuf, which may hold less of it. What
lies behind is memory: it is read as it is, and what is written there does not get into the packet.

* The adjustment is that of `ip_forward`. But nothing keeps the sum of a message from being zero: **if all but
  the type and the checksum is zero**, the reply is all zeros, and does not verify (`echo_verifies_iff`). The
  same is true if the first pbuf ends within the bytes that are written.
* The header checksum is that of twenty bytes, whatever the length of the header is: **with options** it is
  right only if they add up to zero (`echo_header_verifies_iff`).
-/

namespace Lwip.Ipv4

open Lwip.Core IpHdr

variable {ι : Type*}

/-! ### The model -/

/-- `ICMP_ECHO`. -/
def icmpEcho : ℕ := 8

/-- `ICMP_TTL`. -/
def icmpTtl : BitVec 8 := 255

/-- The adjustment of the checksum: `PP_HTONS(ICMP_ECHO << 8)` is added, with the carry. -/
def echoChksum (c : ℕ) : ℕ :=
  if swap16 (0xffff - icmpEcho <<< 8) ≤ c then (c + (swap16 (icmpEcho <<< 8) + 1)) % 2 ^ 16
  else (c + swap16 (icmpEcho <<< 8)) % 2 ^ 16

/-- The request is turned into the reply, in the memory from the IP header on, which is `hlen` bytes long, except
for the checksum of the header. The packet came from `src` and was sent to `dest`. -/
def echoFields (f : ℕ → BitVec 8) (hlen : ℕ) (src dest : Arp.IpAddr) : ℕ → BitVec 8 :=
  let f := writeAt f 12 (ByteOrder.little.bytes32 dest)
  let f := writeAt f 16 (ByteOrder.little.bytes32 src)
  -- `ICMP_ER`
  let f := writeAt f hlen [0]
  let f := writeAt f (hlen + 2) (storeU16 (echoChksum (loadU16 (f (hlen + 2)) (f (hlen + 3)))))
  writeAt f 8 [icmpTtl]

/-- The checksum of the header is computed, and stored. -/
def echoMem (f : ℕ → BitVec 8) (hlen : ℕ) (src dest : Arp.IpAddr) : ℕ → BitVec 8 :=
  chksumMem (echoFields f hlen src dest)

/-- What of it gets into the packet. -/
def echoAnswer (behind : ℕ → BitVec 8) (hlen : ℕ) (src dest : Arp.IpAddr) : List Pbuf → List Pbuf
  | [] => []
  | p :: ps =>
    { p with payload := memBytes (echoMem (bytesAt p.payload behind) hlen src dest) p.len } :: ps

/-- The length of the IP header of a packet. -/
def packetHlen (env : IpEnv ι) (ps : List Pbuf) : ℕ :=
  (readHdr (bytesAt (firstBytes ps) env.behindTrim)).hl * 4

/-- **`icmp_input`**, for a packet that came in from `src` and was sent to `dest`: the packet that is passed to
`ip_output_if`, if any. A copy is made in a pbuf with these bytes. -/
def icmpInputEcho (env : IpEnv ι) (fresh : ℕ → BitVec 8) (inp : IpNetif) (src dest : Arp.IpAddr)
    (ps : List Pbuf) : Option (Option (List Pbuf)) :=
  let hlen := packetHlen env ps
  (pbufHide hlen ps).bind fun q ↦
    if pbufTotLen q < 4 then some none
    else if (bytesAt (firstBytes ps) env.behindTrim hlen).toNat ≠ icmpEcho then some none
    else if Arp.ipAddrIsMulticast dest || Arp.ipAddrIsBroadcast dest inp.toNetif then some none
    else if pbufTotLen q < 8 then some none
    else if inetChksumPbuf .two (q.map fun b ↦ ⟨0, b.payload⟩) ≠ 0 then some none
    else if env.room = true then some (some (echoAnswer env.behindTrim hlen src dest ps))
    else if env.movable = false then none
    else
      match env.echoCopy with
      | none => some none
      | some _ =>
        if pbufTotLen ps < hlen + 8 then none
        else (pbufCopy [⟨memBytes fresh (pbufTotLen ps), pbufTotLen ps⟩] ps).map fun r ↦
          some (echoAnswer env.behindTrim hlen src dest r)

variable {env : IpEnv ι} {fresh behind f : ℕ → BitVec 8} {inp : IpNetif} {src dest : Arp.IpAddr}
  {ps base r : List Pbuf} {o : Option (List Pbuf)} {bs : List (BitVec 8)} {p : Pbuf} {i j c hlen : ℕ}

/-! ### What is written -/

/-- **What the reply differs in**, if the IP header is not shorter than a header. -/
structure Answered (f g : ℕ → BitVec 8) (hlen : ℕ) : Prop where
  /-- The header and its options. -/
  hdr : ∀ j < hlen, (j < 8 ∨ j = 9 ∨ 20 ≤ j) → g j = f j
  verifies : memSum (memBytes g 20) % (2 ^ 16 - 1) = 0 ∧ memSum (memBytes g 20) ≠ 0
  type : g hlen = 0
  code : g (hlen + 1) = f (hlen + 1)
  chksum : [g (hlen + 2), g (hlen + 3)] = storeU16 (echoChksum (loadU16 (f (hlen + 2)) (f (hlen + 3))))
  data : ∀ j, hlen + 4 ≤ j → g j = f j

/-- The fields, one by one. -/
theorem echoFields_of_notMem (f : ℕ → BitVec 8) (src dest : Arp.IpAddr)
    (h : j < 8 ∨ j = 9 ∨ 20 ≤ j ∧ j < hlen ∨ 20 ≤ j ∧ j = hlen + 1 ∨ 20 ≤ j ∧ hlen + 4 ≤ j) (hhlen : 20 ≤ hlen) :
    echoFields f hlen src dest j = f j := by
  rw [echoFields, writeAt_of_notMem (by simp; omega), writeAt_of_notMem (by simp; omega),
    writeAt_of_notMem (by simp; omega), writeAt_of_notMem (by simp; omega), writeAt_of_notMem (by simp; omega)]

theorem echoFields_ttl (f : ℕ → BitVec 8) (src dest : Arp.IpAddr) : echoFields f hlen src dest 8 = icmpTtl :=
  writeAt_add (k := 0) (by simp)

theorem echoFields_type (f : ℕ → BitVec 8) (src dest : Arp.IpAddr) (hhlen : 20 ≤ hlen) :
    echoFields f hlen src dest hlen = 0 := by
  rw [echoFields, writeAt_of_notMem (by simp; omega), writeAt_of_notMem (by simp)]
  exact writeAt_add (k := 0) (by simp)

theorem echoFields_chksum (f : ℕ → BitVec 8) (src dest : Arp.IpAddr) (hhlen : 20 ≤ hlen) :
    [echoFields f hlen src dest (hlen + 2), echoFields f hlen src dest (hlen + 3)] =
      storeU16 (echoChksum (loadU16 (f (hlen + 2)) (f (hlen + 3)))) := by
  have hread : ∀ j, hlen < j →
      writeAt (writeAt (writeAt f 12 (ByteOrder.little.bytes32 dest)) 16 (ByteOrder.little.bytes32 src)) hlen [0] j =
        f j := fun j hj ↦ by
    rw [writeAt_of_notMem (by simp; omega), writeAt_of_notMem (by simp; omega), writeAt_of_notMem (by simp; omega)]
  have hcell : ∀ k < 2, echoFields f hlen src dest (hlen + 2 + k) =
      (storeU16 (echoChksum (loadU16 (f (hlen + 2)) (f (hlen + 3))))).getD k 0 := fun k hk ↦ by
    rw [echoFields, hread (hlen + 2) (by omega), hread (hlen + 3) (by omega), writeAt_of_notMem (by simp; omega)]
    exact writeAt_add hk
  exact congrArg₂ (fun x y ↦ [x, y]) (hcell 0 (by decide)) (hcell 1 (by decide))

/-- What is written into the memory of the request. -/
theorem answered_echoMem (f : ℕ → BitVec 8) (src dest : Arp.IpAddr) (hhlen : 20 ≤ hlen) :
    Answered f (echoMem f hlen src dest) hlen := by
  have hsame : ∀ j, j < 10 ∨ 12 ≤ j → echoMem f hlen src dest j = echoFields f hlen src dest j := fun j hj ↦
    chksumMem_of_notMem hj
  refine ⟨fun j hj h ↦ ?_, ?_, ?_, ?_, ?_, fun j hj ↦ ?_⟩
  · rw [hsame j (by omega), echoFields_of_notMem f src dest (by omega) hhlen]
  · -- the time to live is not zero
    have httl : echoFields f hlen src dest 8 ≠ 0 := by
      rw [echoFields_ttl]
      decide
    exact memSum_chksumMem (by decide) httl
  · rw [hsame hlen (by omega), echoFields_type f src dest hhlen]
  · rw [hsame _ (by omega), echoFields_of_notMem f src dest (by omega) hhlen]
  · rw [hsame _ (by omega), hsame _ (by omega), echoFields_chksum f src dest hhlen]
  · rw [hsame j (by omega), echoFields_of_notMem f src dest (by omega) hhlen]

/-! ### The message -/

/-- The adjustment, on numbers. -/
theorem echoChksum_eq (hc : c < 2 ^ 16) :
    echoChksum c = if 0xfff7 ≤ c then c + 9 - 2 ^ 16 else c + 8 := by
  have hbound : swap16 (0xffff - icmpEcho <<< 8) = 0xfff7 := by decide
  have hadd : swap16 (icmpEcho <<< 8) = 8 := by decide
  rw [echoChksum, hbound, hadd]
  split_ifs <;> omega

/-- **The message of the reply verifies** where the one of the request did, of which `n` bytes are in the first
pbuf: the whole checksum must be there, or nothing, and another byte than the type and the checksum must not be
zero. If there is half of the checksum, it has to do without the other half. -/
theorem verifies_message_iff {g : ℕ → BitVec 8} {n : ℕ} {rest : List (BitVec 8)} (h : Answered f g hlen)
    (htype : 0 < n → f hlen = 8)
    (hm : memSum (bytesFrom f hlen n ++ rest) % (2 ^ 16 - 1) = 0 ∧ memSum (bytesFrom f hlen n ++ rest) ≠ 0) :
    memSum (bytesFrom g hlen n ++ rest) % (2 ^ 16 - 1) = 0 ∧ memSum (bytesFrom g hlen n ++ rest) ≠ 0 ↔
      n = 0 ∨ n = 3 ∧ ((f (hlen + 2)).toNat < 0xf7 ∨ (f (hlen + 2)).toNat = 0xf7 ∧ f (hlen + 3) ≠ 0xff) ∨
        4 ≤ n ∧ (f (hlen + 1) ≠ 0 ∨ ∃ b ∈ bytesFrom f (hlen + 4) (n - 4) ++ rest, b ≠ 0) := by
  obtain ⟨-, -, htype', hcode, hchksum, hdata⟩ := h
  obtain ⟨h2, h3⟩ := List.cons.inj hchksum
  obtain ⟨h3, -⟩ := List.cons.inj h3
  have hc : loadU16 (f (hlen + 2)) (f (hlen + 3)) = (f (hlen + 2)).toNat + (f (hlen + 3)).toNat * 2 ^ 8 := rfl
  have hc0 := (f (hlen + 2)).isLt
  have hc1 := (f (hlen + 3)).isLt
  have hadjust := echoChksum_eq (c := loadU16 (f (hlen + 2)) (f (hlen + 3))) (by omega)
  have hodd : ∀ (v w : ℕ) (b : BitVec 8) (bs : List (BitVec 8)), altSum v w (b :: bs) = v * b.toNat + altSum w v bs :=
    fun _ _ _ _ ↦ rfl
  have hzero : ∀ i, bytesFrom f i 0 = [] ∧ bytesFrom g i 0 = [] := fun _ ↦ ⟨rfl, rfl⟩
  have htype8 : 0 < n → (f hlen).toNat = 8 := fun h ↦ by rw [htype h]; rfl
  have htype0 : (g hlen).toNat = 0 := by rw [htype']; rfl
  have hlow : (g (hlen + 2)).toNat = echoChksum (loadU16 (f (hlen + 2)) (f (hlen + 3))) % 2 ^ 8 := by
    rw [h2, BitVec.toNat_ofNat]
  have hhigh : (g (hlen + 3)).toNat = echoChksum (loadU16 (f (hlen + 2)) (f (hlen + 3))) / 2 ^ 8 % 2 ^ 8 := by
    rw [h3, BitVec.toNat_ofNat]
  rw [hadjust] at hlow hhigh
  rcases n with _ | _ | _ | _ | n
  · exact iff_of_true hm (.inl rfl)
  · -- only the type is written
    have h8 := htype8 (by omega)
    simp only [bytesFrom_succ, hzero, List.cons_append, List.nil_append, memSum, hodd] at hm ⊢
    omega
  · have h8 := htype8 (by omega)
    simp only [bytesFrom_succ, hzero, List.cons_append, List.nil_append, memSum, hodd, hcode] at hm ⊢
    omega
  · have hff : f (hlen + 3) ≠ 0xff ↔ (f (hlen + 3)).toNat ≠ 0xff := by
      rw [ne_eq, ← BitVec.toNat_inj]
      rfl
    have h8 := htype8 (by omega)
    -- the carry into the other half is lost, and so is the one from it
    have hhalf : ((f (hlen + 2)).toNat < 0xf7 ∨ (f (hlen + 2)).toNat = 0xf7 ∧ (f (hlen + 3)).toNat ≠ 0xff) ∧
        (g (hlen + 2)).toNat = (f (hlen + 2)).toNat + 8 ∨
        ¬((f (hlen + 2)).toNat < 0xf7 ∨ (f (hlen + 2)).toNat = 0xf7 ∧ (f (hlen + 3)).toNat ≠ 0xff) ∧
          ((g (hlen + 2)).toNat + 248 = (f (hlen + 2)).toNat ∨ (g (hlen + 2)).toNat + 247 = (f (hlen + 2)).toNat) := by
      split_ifs at hlow hhigh <;> omega
    clear hlow hhigh
    rw [hff]
    have hthree : ∀ {X Y : Prop}, (0 + 1 + 1 + 1 = 0 ∨ 0 + 1 + 1 + 1 = 3 ∧ X ∨ 4 ≤ 0 + 1 + 1 + 1 ∧ Y) ↔ X := by simp
    rw [hthree]
    simp only [bytesFrom_succ, hzero, List.cons_append, List.nil_append, memSum, hodd, hcode, Nat.add_assoc,
      Nat.reduceAdd] at hm ⊢
    rcases hhalf with ⟨hgood, hhalf⟩ | ⟨hbad, hhalf⟩
    · refine iff_of_true ?_ hgood
      omega
    · refine iff_of_false ?_ hbad
      omega
  · have h8 := htype8 (by omega)
    have hfour : ∀ {X Y : Prop}, (n + 1 + 1 + 1 + 1 = 0 ∨ n + 1 + 1 + 1 + 1 = 3 ∧ X ∨ 4 ≤ n + 1 + 1 + 1 + 1 ∧ Y) ↔ Y := by
      simp
    rw [hfour, Nat.add_assoc n, Nat.add_assoc n, Nat.add_assoc n, Nat.add_sub_cancel]
    simp only [bytesFrom_succ, List.cons_append, hcode, Nat.add_assoc, Nat.reduceAdd] at hm ⊢
    rw [bytesFrom_congr hdata]
    generalize bytesFrom f (hlen + 4) n ++ rest = tail at hm ⊢
    have htail : (∃ b ∈ tail, b ≠ 0) ↔ altSum 1 (2 ^ 8) tail ≠ 0 := by
      rw [ne_eq, altSum_eq_zero_iff (by decide) (by decide)]
      push Not
      rfl
    have hcode0 : f (hlen + 1) ≠ 0 ↔ (f (hlen + 1)).toNat ≠ 0 := by
      rw [ne_eq, ← BitVec.toNat_inj]
      rfl
    have hword : (g (hlen + 2)).toNat + 2 ^ 8 * (g (hlen + 3)).toNat + 2 ^ 16 =
          (f (hlen + 2)).toNat + 2 ^ 8 * (f (hlen + 3)).toNat + 9 ∨
        (g (hlen + 2)).toNat + 2 ^ 8 * (g (hlen + 3)).toNat =
          (f (hlen + 2)).toNat + 2 ^ 8 * (f (hlen + 3)).toNat + 8 ∧
            (g (hlen + 2)).toNat + 2 ^ 8 * (g (hlen + 3)).toNat < 2 ^ 16 - 1 := by
      split_ifs at hlow hhigh <;> omega
    clear hlow hhigh
    rw [htail, hcode0]
    simp only [memSum, hodd] at hm ⊢
    omega

/-! ### The reply -/

/-- The bytes of the pbuf in which the request is answered: its own first one, or the copy. -/
def echoBytes (env : IpEnv ι) (ps : List Pbuf) : List (BitVec 8) :=
  if env.room = true then firstBytes ps else pbufBytes ps

/-- A request that is answered: what was checked, and the packet in which it is answered. -/
theorem icmpInputEcho_some (h : icmpInputEcho env fresh inp src dest ps = some (some r)) :
    ∃ q base, pbufHide (packetHlen env ps) ps = some q ∧
      bytesAt (firstBytes ps) env.behindTrim (packetHlen env ps) = 8 ∧
      inetChksumPbuf .two (q.map fun b ↦ ⟨0, b.payload⟩) = 0 ∧
      (env.room = true ∧ base = ps ∨
        env.room = false ∧ pbufCopy [⟨memBytes fresh (pbufTotLen ps), pbufTotLen ps⟩] ps = some base) ∧
      r = echoAnswer env.behindTrim (packetHlen env ps) src dest base := by
  have hpass : ∀ {c : Prop} [Decidable c] {x : Option (Option (List Pbuf))},
      (if c then some none else x) = some (some r) → ¬c ∧ x = some (some r) := fun hx ↦ by
    split_ifs at hx with hc
    · cases hx
    · exact ⟨hc, hx⟩
  rw [icmpInputEcho] at h
  obtain ⟨q, hq, h⟩ := Option.bind_eq_some_iff.1 h
  obtain ⟨-, h⟩ := hpass h
  obtain ⟨htype, h⟩ := hpass h
  obtain ⟨-, h⟩ := hpass h
  obtain ⟨-, h⟩ := hpass h
  obtain ⟨hchksum, h⟩ := hpass h
  have hecho : bytesAt (firstBytes ps) env.behindTrim (packetHlen env ps) = 8 :=
    BitVec.eq_of_toNat_eq (not_not.1 htype)
  rcases Bool.eq_false_or_eq_true env.room with hroom | hroom
  · rw [if_pos hroom] at h
    exact ⟨q, ps, hq, hecho, not_not.1 hchksum, .inl ⟨hroom, rfl⟩, (Option.some.inj (Option.some.inj h)).symm⟩
  rw [hroom, if_neg Bool.false_ne_true] at h
  rcases hcopy : env.echoCopy with _ | c
  · simp only [hcopy] at h
    split_ifs at h
    cases h
  simp only [hcopy] at h
  split_ifs at h
  obtain ⟨base, hbase, h⟩ := Option.map_eq_some_iff.1 h
  exact ⟨q, base, hq, hecho, not_not.1 hchksum, .inr ⟨hroom, hbase⟩,
    (Option.some.inj h).symm⟩

/-- **The reply**: the first pbuf holds what was written, and the others are as they were. -/
theorem icmpInputEcho_answered (ht : Totals ps) (hhlen : 20 ≤ packetHlen env ps)
    (h : icmpInputEcho env fresh inp src dest ps = some (some r)) :
    ∃ g rest, pbufBytes ps = echoBytes env ps ++ rest ∧
      pbufBytes r = memBytes g (echoBytes env ps).length ++ rest ∧ packetHlen env ps ≤ (echoBytes env ps).length ∧
      Answered (bytesAt (echoBytes env ps) env.behindTrim) g (packetHlen env ps) := by
  obtain ⟨q, base, hq, -, -, hbase, rfl⟩ := icmpInputEcho_some h
  rcases ps with _ | ⟨p, ps⟩
  · cases hq
  have hle : packetHlen env (p :: ps) ≤ p.payload.length := by
    rw [pbufHide] at hq
    split_ifs at hq with hle
    exact hle
  rcases hbase with ⟨hroom, rfl⟩ | ⟨hroom, hcopy⟩
  · rw [echoBytes, if_pos hroom]
    exact ⟨_, pbufBytes ps, rfl, rfl, hle, answered_echoMem _ src dest hhlen⟩
  · have htot := ht.totLen_eq
    have hroom_len : (pbufBytes (p :: ps)).length ≤
        (⟨memBytes fresh (pbufTotLen (p :: ps)), pbufTotLen (p :: ps)⟩ : Pbuf).len := by
      rw [Pbuf.len, length_memBytes, htot]
    have hbase := pbufCopy_single hroom_len hcopy
    rw [htot, List.drop_eq_nil_of_le (length_memBytes _ _).le, List.append_nil] at hbase
    rw [hbase, echoBytes, if_neg (by rw [hroom]; exact Bool.false_ne_true)]
    refine ⟨_, [], (List.append_nil _).symm, rfl, ?_, answered_echoMem _ src dest hhlen⟩
    rw [pbufBytes_cons, List.length_append]
    omega

/-- **When the message of the reply verifies**, for a request in a packet with an IP header: the pbuf in which it is
answered has the whole checksum or nothing of the message, and another byte than the type and the checksum is not
zero. Half of a checksum may be adjusted, too, where there is no carry. -/
def EchoVerifies (env : IpEnv ι) (ps : List Pbuf) : Prop :=
  let hlen := packetHlen env ps
  let f := bytesAt (echoBytes env ps) env.behindTrim
  let n := (echoBytes env ps).length - hlen
  n = 0 ∨ n = 3 ∧ ((f (hlen + 2)).toNat < 0xf7 ∨ (f (hlen + 2)).toNat = 0xf7 ∧ f (hlen + 3) ≠ 0xff) ∨
    4 ≤ n ∧ (f (hlen + 1) ≠ 0 ∨ ∃ b ∈ (pbufBytes ps).drop (hlen + 4), b ≠ 0)

/-- **The echo reply**: its message verifies for an echo request that is answered if and only if this holds. -/
theorem echo_verifies_iff (ht : Totals ps) (hlen : (pbufBytes ps).length < 2 ^ 16)
    (hhlen : 20 ≤ packetHlen env ps) (hecho : (pbufBytes ps)[packetHlen env ps]? = some 8)
    (h : icmpInputEcho env fresh inp src dest ps = some (some r)) :
    (∀ alg p, chainBytes p = (pbufBytes r).drop (packetHlen env ps) → inetChksumPbuf alg p = 0) ↔
      EchoVerifies env ps := by
  obtain ⟨q, -, hq, htype, hchksum, -, -⟩ := icmpInputEcho_some h
  obtain ⟨g, rest, hbytes, hreply, hle, hanswered⟩ := icmpInputEcho_answered ht hhlen h
  set hl := packetHlen env ps with hhl
  set f := bytesAt (echoBytes env ps) env.behindTrim with hf
  obtain ⟨n, hn⟩ := Nat.exists_eq_add_of_le hle
  -- the messages
  have hmsg : (pbufBytes ps).drop hl = bytesFrom f hl n ++ rest := by
    have hmem : memBytes f (hl + n) = echoBytes env ps := by
      rw [← hn]
      exact memBytes_bytesAt _ _
    rw [hbytes, List.drop_append_of_le_length hle, ← hmem, drop_memBytes]
  have hmsg' : (pbufBytes r).drop hl = bytesFrom g hl n ++ rest := by
    rw [hreply, hn, List.drop_append_of_le_length (by rw [length_memBytes]; omega), drop_memBytes]
  have hsmall : (bytesFrom f hl n ++ rest).length < 2 ^ 16 := by
    rw [← hmsg, List.length_drop]
    omega
  have hsmall' : (bytesFrom g hl n ++ rest).length < 2 ^ 16 := by
    rw [List.length_append, length_bytesFrom] at hsmall ⊢
    exact hsmall
  have hverified : memSum (bytesFrom f hl n ++ rest) % (2 ^ 16 - 1) = 0 ∧ memSum (bytesFrom f hl n ++ rest) ≠ 0 := by
    have hchain : chainBytes (q.map fun b ↦ ⟨0, b.payload⟩) = bytesFrom f hl n ++ rest := by
      rw [← hmsg, ← pbufBytes_of_hide hq, chainBytes, List.flatMap_map]
      rfl
    rw [← hchain] at hsmall ⊢
    exact (inetChksumPbuf_eq_zero_iff .two hsmall).1 hchksum
  -- the type is in the packet that is answered
  have hfirst : 0 < n → f hl = 8 := fun hpos ↦ by
    rw [hf, bytesAt, List.getElem?_eq_getElem (by omega)]
    rw [hbytes, List.getElem?_append_left (by omega), List.getElem?_eq_getElem (by omega)] at hecho
    exact Option.some.inj hecho
  have htail : 4 ≤ n → (pbufBytes ps).drop (hl + 4) = bytesFrom f (hl + 4) (n - 4) ++ rest := fun h4 ↦ by
    obtain ⟨k, rfl⟩ := Nat.exists_eq_add_of_le h4
    rw [← List.drop_drop, hmsg, bytesFrom_add, List.append_assoc, List.drop_left' (length_bytesFrom f hl 4),
      Nat.add_sub_cancel_left]
  have hcond : EchoVerifies env ps ↔ n = 0 ∨
      n = 3 ∧ ((f (hl + 2)).toNat < 0xf7 ∨ (f (hl + 2)).toNat = 0xf7 ∧ f (hl + 3) ≠ 0xff) ∨
        4 ≤ n ∧ (f (hl + 1) ≠ 0 ∨ ∃ b ∈ bytesFrom f (hl + 4) (n - 4) ++ rest, b ≠ 0) := by
    have hsub : (echoBytes env ps).length - hl = n := by omega
    simp only [EchoVerifies, ← hhl, ← hf, hsub]
    exact or_congr Iff.rfl (or_congr Iff.rfl (and_congr_right fun h4 ↦ by rw [htail h4]))
  rw [hcond, ← verifies_message_iff hanswered hfirst hverified]
  constructor
  · intro hall
    have hsingle : chainBytes [⟨0, (pbufBytes r).drop hl⟩] = (pbufBytes r).drop hl := List.append_nil _
    have hzero := hall .two _ hsingle
    rw [inetChksumPbuf_eq_zero_iff _ (by rw [hsingle, hmsg']; exact hsmall'), hsingle, hmsg'] at hzero
    exact hzero
  · intro hsum alg p hp
    rw [inetChksumPbuf_eq_zero_iff _ (by rw [hp, hmsg']; exact hsmall'), hp, hmsg']
    exact hsum

/-- A packet with this message, from 10.0.0.1 to 10.0.0.2. -/
def echoRequest (msg : List (BitVec 8)) : Pbuf :=
  ⟨[0x45, 0, 0, 28, 0, 0, 0, 0, 64, 1, 0x66, 0xdf, 10, 0, 0, 1, 10, 0, 0, 2] ++ msg, 20 + msg.length⟩

/-- The packet with this message that is sent back. -/
def echoReply (msg : List (BitVec 8)) : Pbuf :=
  ⟨[0x45, 0, 0, 28, 0, 0, 0, 0, 255, 1, 0xa7, 0xde, 10, 0, 0, 2, 10, 0, 0, 1] ++ msg, 20 + msg.length⟩

/-- There is room in front of it. -/
def roomyEnv : IpEnv ℕ := ⟨fun _ ↦ 0, fun _ ↦ 0, true, true, none, none⟩

/-- The interface 10.0.0.2/8. -/
def echoNetif : IpNetif := ⟨⟨0, 0x0200000a, 0x000000ff, 0, true⟩, true⟩

-- the sums are over lists of bytes
set_option maxRecDepth 1000

/-- A request with an identifier and a sequence number is answered. -/
theorem icmpInputEcho_numbered : icmpInputEcho roomyEnv (fun _ ↦ 0) echoNetif 0x0100000a 0x0200000a
    [echoRequest [8, 0, 0xf7, 0xfd, 0, 1, 0, 1]] = some (some [echoReply [0, 0, 0xff, 0xfd, 0, 1, 0, 1]]) := by
  decide

theorem echo_verifies_iff_numbered :
    inetChksumPbuf .two [⟨0, (pbufBytes [echoReply [0, 0, 0xff, 0xfd, 0, 1, 0, 1]]).drop 20⟩] = 0 := by
  have hiff := echo_verifies_iff (by decide) (by decide) (by decide) (by decide) icmpInputEcho_numbered
  have hcond : EchoVerifies roomyEnv [echoRequest [8, 0, 0xf7, 0xfd, 0, 1, 0, 1]] :=
    .inr (.inr ⟨by decide, .inr ⟨1, by decide, by decide⟩⟩)
  exact hiff.2 hcond .two _ (List.append_nil _)

/-- **A request of zeros**: so is the reply, which does not verify. The packet passes the checks of `ip_input`. -/
theorem not_echo_verifies :
    headerChecks (readHdr (bytesAt (echoRequest [8, 0, 0xf7, 0xff, 0, 0, 0, 0]).payload fun _ ↦ 0))
      (echoRequest [8, 0, 0xf7, 0xff, 0, 0, 0, 0]) = true ∧
    icmpInputEcho roomyEnv (fun _ ↦ 0) echoNetif 0x0100000a 0x0200000a
      [echoRequest [8, 0, 0xf7, 0xff, 0, 0, 0, 0]] = some (some [echoReply [0, 0, 0, 0, 0, 0, 0, 0]]) ∧
    inetChksumPbuf .two [⟨0, (pbufBytes [echoReply [0, 0, 0, 0, 0, 0, 0, 0]]).drop 20⟩] = 0xffff := by
  decide

/-! ### The header of the reply -/

/-- **The header of the echo reply**: whatever the length of the header is, everything behind the checksum of the
message is as it was; and the header verifies, wherever it lies, if and only if the options add up to zero. -/
theorem echo_header_verifies_iff (ht : Totals ps) (hhlen : 20 ≤ packetHlen env ps)
    (h : icmpInputEcho env fresh inp src dest ps = some (some r)) :
    ((∀ alg addr, inetChksum alg ⟨addr, (pbufBytes r).take (packetHlen env ps)⟩ = 0) ∧
      (pbufBytes r).drop (packetHlen env ps + 4) = (pbufBytes ps).drop (packetHlen env ps + 4)) ↔
    memSum (((pbufBytes ps).take (packetHlen env ps)).drop 20) % (2 ^ 16 - 1) = 0 := by
  obtain ⟨g, rest, hbytes, hreply, hle, hanswered⟩ := icmpInputEcho_answered ht hhlen h
  have hsmall : packetHlen env ps < 2 ^ 16 := by
    have : (readHdr (bytesAt (firstBytes ps) env.behindTrim)).hl < 16 := Nat.mod_lt _ (by decide)
    rw [packetHlen]
    omega
  set hl := packetHlen env ps with hhl
  set f := bytesAt (echoBytes env ps) env.behindTrim with hf
  obtain ⟨n, hn⟩ := Nat.exists_eq_add_of_le hle
  obtain ⟨k, hk⟩ := Nat.exists_eq_add_of_le hhlen
  have hmem : memBytes f (hl + n) = echoBytes env ps := by
    rw [← hn]
    exact memBytes_bytesAt _ _
  rw [← hmem] at hbytes
  rw [hn] at hreply
  have hdata : (pbufBytes r).drop (hl + 4) = (pbufBytes ps).drop (hl + 4) := by
    have hrest : (bytesFrom g hl n).drop 4 = (bytesFrom f hl n).drop 4 := by
      rcases Nat.le_total n 4 with h4 | h4
      · rw [List.drop_eq_nil_of_le (by rwa [length_bytesFrom]), List.drop_eq_nil_of_le (by rwa [length_bytesFrom])]
      · obtain ⟨m, rfl⟩ := Nat.exists_eq_add_of_le h4
        rw [bytesFrom_add, bytesFrom_add, List.drop_left' (length_bytesFrom g hl 4),
          List.drop_left' (length_bytesFrom f hl 4), bytesFrom_congr hanswered.data]
    rw [hreply, hbytes, ← List.drop_drop, ← List.drop_drop, memBytes_add, memBytes_add, List.append_assoc,
      List.append_assoc, List.drop_left' (length_memBytes g hl), List.drop_left' (length_memBytes f hl),
      List.drop_append, List.drop_append, hrest, length_bytesFrom, length_bytesFrom]
  have hopts : ((pbufBytes ps).take hl).drop 20 = bytesFrom f 20 k := by
    rw [hbytes, memBytes_add, List.append_assoc, List.take_left' (length_memBytes f hl), hk, drop_memBytes]
  have hhdr : (pbufBytes r).take hl = memBytes g 20 ++ bytesFrom f 20 k := by
    have hkept : bytesFrom g 20 k = bytesFrom f 20 k := List.map_congr_left fun j hj ↦ by
      obtain ⟨h20, hj⟩ := List.mem_range'_1.1 hj
      exact hanswered.hdr j (by omega) (.inr (.inr h20))
    rw [hreply, memBytes_add, List.append_assoc, List.take_left' (length_memBytes g hl), hk, memBytes_add, hkept]
  obtain ⟨hmod, hpos⟩ := hanswered.verifies
  have hsum : memSum (memBytes g 20 ++ bytesFrom f 20 k) = memSum (memBytes g 20) + memSum (bytesFrom f 20 k) :=
    memSum_append_of_even (by rw [length_memBytes])
  have hlen : (memBytes g 20 ++ bytesFrom f 20 k).length < 2 ^ 16 := by
    rw [List.length_append, length_memBytes, length_bytesFrom]
    omega
  rw [and_iff_left hdata, hhdr, hopts]
  constructor
  · intro hall
    have hzero := (inetChksum_eq_zero_iff .two hlen).1 (hall .two 0)
    dsimp only at hzero
    omega
  · intro hzero alg addr
    rw [inetChksum_eq_zero_iff alg hlen]
    dsimp only
    omega

/-- The packet with these options and this message. -/
def optionsRequest : Pbuf :=
  ⟨[0x46, 0, 0, 32, 0, 0, 0, 0, 64, 1, 0x63, 0xda, 10, 0, 0, 1, 10, 0, 0, 2, 1, 1, 1, 0, 8, 0, 0xf7, 0xfd, 0, 1, 0, 1],
    32⟩

/-- What is sent back. -/
def optionsReply : Pbuf :=
  ⟨[0x46, 0, 0, 32, 0, 0, 0, 0, 255, 1, 0xa6, 0xda, 10, 0, 0, 2, 10, 0, 0, 1, 1, 1, 1, 0, 0, 0, 0xff, 0xfd, 0, 1, 0, 1],
    32⟩

/-- A request without options. -/
theorem echo_header_verifies_iff_plain :
    inetChksum .two ⟨0, (pbufBytes [echoReply [0, 0, 0xff, 0xfd, 0, 1, 0, 1]]).take 20⟩ = 0 := by
  exact ((echo_header_verifies_iff (by decide) (by decide) icmpInputEcho_numbered).2 (by decide)).1 .two 0

/-- **Three options of one byte**: the header of the reply does not verify. The request passes the checks of
`ip_input`. -/
theorem not_echo_header_verifies :
    headerChecks (readHdr (bytesAt optionsRequest.payload fun _ ↦ 0)) optionsRequest = true ∧
    icmpInputEcho roomyEnv (fun _ ↦ 0) echoNetif 0x0100000a 0x0200000a [optionsRequest] =
      some (some [optionsReply]) ∧
    inetChksum .two ⟨0, (pbufBytes [optionsReply]).take 24⟩ ≠ 0 ∧
    headerChecks (readHdr (bytesAt optionsReply.payload fun _ ↦ 0)) optionsReply = false := by
  decide

end Lwip.Ipv4
