import LwipPoc.Foundation.Cutting
import LwipPoc.Ipv4.Frag
import LwipPoc.Ipv4.InputChecks

/-!
# What fragments carry

A round of `ip_frag`'s loop sends a fragment that carries a slice of what is left (`fill_sends`), whatever way it is
filled in, and leaves the loop at the end of the slice. So the loop sends parts that carry the payload together
(`fragLoop_ok`), in the sense of `Cuts`, and the rest is about single parts.

With the static buffer, a fragment in front of the last one has all of the buffer, up to the MTU, whatever its header
says: `pbuf_realloc` is for the last one only. `ipFrag_ok_iff` says when that is right.
-/

namespace Lwip.Ipv4

open Lwip.Core IpHdr

/-- The header of a fragment. -/
def Fragment.hdr (f : Fragment) : IpHdr := readHdr (bytesAt (pbufBytes f.pbufs) fun _ ↦ 0)

/-- Its payload. -/
def Fragment.payload (f : Fragment) : List (BitVec 8) := (pbufBytes f.pbufs).drop ipHlen

namespace Frag

variable {v : FragVariant} {env : FragEnv} {f g f₀ : ℕ → BitVec 8} {last omf : Bool}
  {tmp cop i j fuel : ℕ} {s s' : FragState} {R rest bs : List (BitVec 8)} {ps : List FragPbuf} {o : ErrT}

/-! ### Sizes -/

theorem nfb_eq (hmtu : ipHlen ≤ env.mtu) (hmtu' : env.mtu < 2 ^ 16) : env.nfb = (env.mtu - ipHlen) / 8 := by
  have hsub : (env.mtu : ℤ) - ipHlen = ((env.mtu - ipHlen : ℕ) : ℤ) := (Nat.cast_sub hmtu).symm
  rw [FragEnv.nfb, hsub, Int.tdiv_eq_ediv_of_nonneg (Int.natCast_nonneg _)]
  omega

/-- A full fragment has some payload, and fits. -/
theorem nfb_spec (hmtu : 28 ≤ env.mtu) (hmtu' : env.mtu < 2 ^ 16) :
    0 < env.nfb * 8 ∧ env.nfb * 8 ≤ env.mtu - ipHlen ∧ env.nfb * 8 % 2 ^ 16 = env.nfb * 8 ∧
      ((env.mtu - ipHlen) % 8 = 0 ↔ env.mtu - ipHlen - env.nfb * 8 = 0) := by
  have hle : ipHlen ≤ env.mtu := (by decide : ipHlen ≤ 28).trans hmtu
  rw [nfb_eq hle hmtu']
  simp only [ipHlen] at hle ⊢
  omega

/-! ### The header -/

/-- What is not corrected in the header. -/
theorem fragHdr_of_notMem (h : j < 2 ∨ 4 ≤ j ∧ j < 6 ∨ 8 ≤ j ∧ j < 10 ∨ 12 ≤ j) : fragHdr f tmp cop j = f j := by
  rw [fragHdr, chksumMem_of_notMem (by omega), writeAt_of_notMem (by simp [netU16]; omega),
    writeAt_of_notMem (by simp [netU16]; omega)]

theorem readU16_writeAt (f : ℕ → BitVec 8) (i : ℕ) {n : ℕ} (hn : n < 2 ^ 16) :
    readU16 (writeAt f i (netU16 n)) i = n := by
  have h0 : writeAt f i (netU16 n) i = BitVec.ofNat 8 (n / 2 ^ 8) := writeAt_add (k := 0) (by simp [netU16])
  have h1 : writeAt f i (netU16 n) (i + 1) = BitVec.ofNat 8 n := writeAt_add (by simp [netU16])
  rw [readU16, h0, h1, BitVec.toNat_ofNat, BitVec.toNat_ofNat]
  omega

theorem readU16_congr (h0 : f i = g i) (h1 : f (i + 1) = g (i + 1)) : readU16 f i = readU16 g i := by
  rw [readU16, readU16, h0, h1]

theorem fragHdr_len (h : cop + ipHlen < 2 ^ 16) : readU16 (fragHdr f tmp cop) 2 = cop + ipHlen := by
  rw [fragHdr, readU16_congr (chksumMem_of_notMem (by omega)) (chksumMem_of_notMem (by omega)),
    readU16_writeAt _ 2 h]

theorem fragHdr_offset (h : tmp < 2 ^ 16) : readU16 (fragHdr f tmp cop) 6 = tmp := by
  rw [fragHdr, readU16_congr (chksumMem_of_notMem (by omega)) (chksumMem_of_notMem (by omega)),
    readU16_congr (writeAt_of_notMem (by simp [netU16])) (writeAt_of_notMem (by simp [netU16])),
    readU16_writeAt _ 6 h]

/-- **The header verifies.** -/
theorem fragHdr_verifies (f : ℕ → BitVec 8) (tmp : ℕ) (h : cop + ipHlen < 2 ^ 16) (alg : ChksumAlgorithm) (addr : ℕ) :
    inetChksum alg ⟨addr, memBytes (fragHdr f tmp cop) ipHlen⟩ = 0 := by
  have hlen : (memBytes (fragHdr f tmp cop) ipHlen).length < 2 ^ 16 := by
    rw [length_memBytes]
    decide
  rw [inetChksum_eq_zero_iff alg hlen]
  have hread := readU16_writeAt (writeAt f 6 (netU16 tmp)) 2 h
  -- the length is not zero
  by_cases h2 : writeAt (writeAt f 6 (netU16 tmp)) 2 (netU16 (cop + ipHlen)) 2 = 0
  · have h3 : writeAt (writeAt f 6 (netU16 tmp)) 2 (netU16 (cop + ipHlen)) 3 ≠ 0 := fun h3 ↦ by
      rw [readU16, h2, h3] at hread
      exact absurd hread.symm (Nat.succ_ne_zero _)
    exact memSum_chksumMem (by decide) h3
  · exact memSum_chksumMem (by decide) h2

/-- The header in front of other bytes. -/
theorem readHdr_memBytes (g : ℕ → BitVec 8) (rest : List (BitVec 8)) (behind : ℕ → BitVec 8) :
    readHdr (bytesAt (memBytes g ipHlen ++ rest) behind) = readHdr g := by
  refine readHdr_congr fun j hj ↦ ?_
  have hj' : j < (memBytes g ipHlen).length := by rwa [length_memBytes]
  rw [bytesAt, List.getElem?_append_left hj', List.getElem?_eq_getElem hj', Option.getD_some]
  simp [memBytes]

/-! ### A fragment -/

/-- What the static buffer adds to a fragment in front of the last one. -/
def padding (v : FragVariant) (env : FragEnv) (last : Bool) (cop : ℕ) : ℕ :=
  if v = .staticBuf ∧ last = false then env.mtu - ipHlen - cop else 0

/-- **A fragment that carries a slice of the payload**, as the one with the number `i`. -/
structure Carries (v : FragVariant) (env : FragEnv) (hdr : ℕ → BitVec 8) (omf : Bool) (ofo i : ℕ) (last : Bool)
    (slice : List (BitVec 8)) (f : Fragment) : Prop where
  fits : slice.length + ipHlen ≤ env.mtu
  full : last = false → slice.length = env.nfb * 8
  totals : Totals f.pbufs
  length : (pbufBytes f.pbufs).length = f.payload.length + ipHlen
  len : f.hdr.len = slice.length + ipHlen
  payload : ∃ pad, f.payload = slice ++ pad ∧ pad.length = padding v env last slice.length
  start : f.hdr.start = (ofo + i * env.nfb) % 2 ^ 13 * 8
  mf : f.hdr.mf = (omf || !last)
  chksum : ∀ alg addr, inetChksum alg ⟨addr, (pbufBytes f.pbufs).take ipHlen⟩ = 0
  /-- The header is that of the packet, and in one piece, except for the one in the static buffer. -/
  kept : v ≠ .staticBuf → f.hdr =
    { readHdr hdr with len := f.hdr.len, offset := f.hdr.offset, chksum := f.hdr.chksum }
  head : v ≠ .staticBuf → ∀ b ∈ f.pbufs.head?, ipHlen ≤ b.len

/-- The bytes of a fragment, as they are put together. -/
structure Made (v : FragVariant) (env : FragEnv) (hdr : ℕ → BitVec 8) (last : Bool) (tmp : ℕ)
    (slice : List (BitVec 8)) (f : Fragment) : Prop where
  totals : Totals f.pbufs
  bytes : ∃ g pad, pbufBytes f.pbufs = memBytes (fragHdr g tmp slice.length) ipHlen ++ (slice ++ pad) ∧
    pad.length = padding v env last slice.length ∧ (v ≠ .staticBuf → g = hdr)
  head : v ≠ .staticBuf → ∀ b ∈ f.pbufs.head?, ipHlen ≤ b.len

/-- What is kept of the header. -/
theorem readHdr_fragHdr (hdr : ℕ → BitVec 8) (tmp cop : ℕ) : readHdr (fragHdr hdr tmp cop) =
    { readHdr hdr with
      len := (readHdr (fragHdr hdr tmp cop)).len
      offset := (readHdr (fragHdr hdr tmp cop)).offset
      chksum := (readHdr (fragHdr hdr tmp cop)).chksum } := by
  have hkept : ∀ j, j < 2 ∨ 4 ≤ j ∧ j < 6 ∨ 8 ≤ j ∧ j < 10 ∨ 12 ≤ j → fragHdr hdr tmp cop j = hdr j :=
    fun j hj ↦ fragHdr_of_notMem hj
  simp only [readHdr, readU16, hkept 0 (by decide), hkept 1 (by decide),
    hkept 4 (by decide), hkept (4 + 1) (by decide), hkept 8 (by decide), hkept 9 (by decide),
    hkept 12 (by decide), hkept 13 (by decide), hkept 14 (by decide), hkept 15 (by decide),
    hkept 16 (by decide), hkept 17 (by decide), hkept 18 (by decide), hkept 19 (by decide)]

theorem Made.carries {hdr : ℕ → BitVec 8} {ofo : ℕ} {slice : List (BitVec 8)} {f : Fragment}
    (h : Made v env hdr last ((if omf || !last then 2 ^ 13 else 0) + (ofo + i * env.nfb) % 2 ^ 13) slice f)
    (hfits : slice.length + ipHlen ≤ env.mtu) (hfull : last = false → slice.length = env.nfb * 8)
    (hmtu : env.mtu < 2 ^ 16) : Carries v env hdr omf ofo i last slice f := by
  obtain ⟨g, pad, hbytes, hpad, hg⟩ := h.bytes
  have hlt : slice.length + ipHlen < 2 ^ 16 := hfits.trans_lt hmtu
  have hpayload : f.payload = slice ++ pad := by
    rw [Fragment.payload, hbytes, List.drop_left' (length_memBytes _ _)]
  have hhdr := readHdr_memBytes (fragHdr g ((if omf || !last then 2 ^ 13 else 0) + (ofo + i * env.nfb) % 2 ^ 13)
    slice.length) (slice ++ pad) fun _ ↦ 0
  rw [← hbytes] at hhdr
  have hoff : f.hdr.offset = (if omf || !last then 2 ^ 13 else 0) + (ofo + i * env.nfb) % 2 ^ 13 := by
    rw [Fragment.hdr, hhdr]
    refine fragHdr_offset ?_
    split_ifs <;> omega
  refine ⟨hfits, hfull, h.totals, ?_, ?_, ⟨pad, hpayload, hpad⟩, ?_, ?_, fun alg addr ↦ ?_, fun hv ↦ ?_, h.head⟩
  · rw [hbytes, hpayload, List.length_append, length_memBytes, Nat.add_comm]
  · rw [Fragment.hdr, hhdr]
    exact fragHdr_len hlt
  · rw [IpHdr.start, hoff]
    split_ifs <;> omega
  · rw [IpHdr.mf, hoff]
    rcases hmf : (omf || !last) with _ | _
    · rw [if_neg (by decide), decide_eq_false (by omega)]
    · rw [if_pos rfl, decide_eq_true (by omega)]
  · rw [hbytes, List.take_left' (length_memBytes _ _)]
    exact fragHdr_verifies g _ hlt alg addr
  · rw [Fragment.hdr, hhdr, hg hv]
    exact readHdr_fragHdr hdr _ _

/-! ### One round -/

/-- Where the loop is in the packet: `R` is what is still to be sent. -/
structure At (v : FragVariant) (s : FragState) (R : List (BitVec 8)) : Prop where
  rest : (pbufBytes (s.todo.map FragPbuf.pbuf)).drop s.poff = R
  lt : (pbufBytes (s.todo.map FragPbuf.pbuf)).length < 2 ^ 16
  head : v = .customRef → ∀ p ∈ s.todo.head?, ipHlen ≤ p.pbuf.len → s.poff ≤ p.pbuf.len

/-- A round has sent a fragment. -/
structure Sends (v : FragVariant) (env : FragEnv) (hdr : ℕ → BitVec 8) (last : Bool) (tmp cop : ℕ) (s : FragState)
    (R : List (BitVec 8)) (s' : FragState) : Prop where
  sent : ∃ f, s'.sent = s.sent ++ [f] ∧ Made v env hdr last tmp (R.take cop) f
  left : s'.left = s.left
  ofo : s'.ofo = s.ofo
  at_drop : At v s' (R.drop cop)

/-- What is copied out of the packet. -/
theorem At.copied (h : At v s R) (hcop : 0 < cop) (hle : cop ≤ R.length) {data : List (BitVec 8)}
    (hdata : data.length = cop) :
    pbufCopyPartial (s.todo.map FragPbuf.pbuf) data cop s.poff = (R.take cop, cop) ∧
      (s.poff + cop) % 2 ^ 16 = s.poff + cop := by
  have hlen : (R.take cop).length = cop := by rw [List.length_take, Nat.min_eq_left hle]
  have hlt := h.lt
  have hrest := congrArg List.length h.rest
  rw [List.length_drop] at hrest
  constructor
  · rw [pbufCopyPartial_eq (by rw [h.rest, hlen, hdata]), h.rest, hlen, List.drop_of_length_le (by omega),
      List.append_nil]
  · exact Nat.mod_eq_of_lt (by omega)

/-- The walk does not move, and the position does. -/
theorem At.advance (h : At v s R) (hv : v ≠ .customRef) (htodo : s'.todo = s.todo) (hpoff : s'.poff = s.poff + cop) :
    At v s' (R.drop cop) := by
  refine ⟨?_, ?_, fun h ↦ absurd h hv⟩
  · rw [htodo, hpoff, ← List.drop_drop, h.rest]
  · rw [htodo]
    exact h.lt

/-- What is in the static buffer. -/
theorem memBytes_static (buf : ℕ → BitVec 8) (hlen : bs.length = cop) (tmp : ℕ) {n : ℕ} (hn : cop + ipHlen ≤ n) :
    memBytes (fragHdr (writeAt buf ipHlen bs) tmp cop) n = memBytes (fragHdr (writeAt buf ipHlen bs) tmp cop) ipHlen ++
      (bs ++ bytesFrom (fragHdr (writeAt buf ipHlen bs) tmp cop) (ipHlen + cop) (n - ipHlen - cop)) := by
  have hn' : n = ipHlen + (cop + (n - ipHlen - cop)) := by omega
  have hslice : bytesFrom (fragHdr (writeAt buf ipHlen bs) tmp cop) ipHlen cop = bs := by
    rw [bytesFrom_congr fun j hj ↦ fragHdr_of_notMem (.inr (.inr (.inr ((by decide : 12 ≤ ipHlen).trans hj))))]
    have hwritten := bytesFrom_writeAt buf ipHlen bs
    rwa [hlen] at hwritten
  conv_lhs => rw [hn']
  rw [memBytes_add, bytesFrom_add, hslice]

/-- The pbuf of the buffer, as it is sent. -/
theorem rambuf_ok (hlen : bs.length = cop) (hfits : cop + ipHlen ≤ env.mtu) (hmtu : env.mtu < 2 ^ 16)
    (hmem : memBytes f env.mtu = memBytes f ipHlen ++ (bs ++ rest)) {left : ℕ} (hlast : last = true → left = cop)
    {rambuf : List Pbuf}
    (hr : (if last = true then pbufRealloc (left + ipHlen) [⟨memBytes f env.mtu, env.mtu⟩]
      else some [⟨memBytes f env.mtu, env.mtu⟩]) = some rambuf) :
    Totals rambuf ∧ ∃ pad, pbufBytes rambuf = memBytes f ipHlen ++ (bs ++ pad) ∧
      pad.length = padding .staticBuf env last cop := by
  have hbytes : pbufBytes [⟨memBytes f env.mtu, env.mtu⟩] = memBytes f env.mtu := pbufBytes_single
  have htot : Totals [⟨memBytes f env.mtu, env.mtu⟩] :=
    ⟨by rw [hbytes, length_memBytes], trivial⟩
  rcases hl : last with _ | _
  · rw [hl, if_neg (by decide)] at hr
    rw [← Option.some.inj hr]
    have hrest := congrArg List.length hmem
    rw [length_memBytes, List.length_append, List.length_append, length_memBytes, hlen] at hrest
    refine ⟨htot, rest, by rw [hbytes, hmem], ?_⟩
    rw [padding, if_pos ⟨rfl, rfl⟩]
    omega
  · rw [hl, if_pos rfl, hlast hl] at hr
    obtain ⟨ps', hps', htot', -, -, hbytes'⟩ := htot.realloc (List.cons_ne_nil _ _)
      (by rwa [hbytes, length_memBytes]) (cop + ipHlen)
    rw [← Option.some.inj (hps'.symm.trans hr)]
    refine ⟨htot', [], ?_, by rw [padding, if_neg (by simp), List.length_nil]⟩
    rw [hbytes', hbytes, hmem, ← List.append_assoc, List.append_nil]
    refine List.take_left' ?_
    rw [List.length_append, length_memBytes, hlen, Nat.add_comm]

theorem fillStatic_sends {hdr : ℕ → BitVec 8} (h : At .staticBuf s R) (hcop : 0 < cop) (hle : cop ≤ R.length)
    (hfits : cop + ipHlen ≤ env.mtu) (hmtu : env.mtu < 2 ^ 16) (hlast : last = true → s.left = cop)
    (hr : fillStatic env last tmp cop s = some (.ok, s')) : Sends .staticBuf env hdr last tmp cop s R s' := by
  have hlen : (R.take cop).length = cop := by rw [List.length_take, Nat.min_eq_left hle]
  obtain ⟨hcopied, hpoff⟩ := h.copied hcop hle (length_bytesFrom s.buf ipHlen cop)
  simp only [fillStatic, hcopied, hpoff] at hr
  have hroom : ¬ env.bufLen < ipHlen + cop := fun hroom ↦ by
    rw [if_pos hroom] at hr
    cases hr
  rw [if_neg hroom] at hr
  obtain ⟨rambuf, hrambuf, hr⟩ := Option.bind_eq_some_iff.1 hr
  obtain ⟨htot, pad, hbytes, hpad⟩ := rambuf_ok hlen hfits hmtu (memBytes_static s.buf hlen tmp hfits) hlast hrambuf
  split_ifs at hr with halloc
  · obtain ⟨f, hf, hs'⟩ := Option.map_eq_some_iff.1 hr
    obtain ⟨-, rfl⟩ := Prod.mk.inj hs'
    -- behind the pbuf for the link header
    obtain ⟨c, hc, htotc, -, hbytesc⟩ := Totals.cat (h := [⟨[], 0⟩]) ⟨rfl, trivial⟩ htot (List.cons_ne_nil _ _) (by
      simp only [hbytes, List.length_append, length_memBytes, hlen, hpad, pbufBytes_single, List.length_nil, padding]
      split_ifs <;> omega)
    rw [← Option.some.inj (hc.symm.trans hf)]
    exact ⟨⟨_, rfl, htotc, ⟨writeAt s.buf ipHlen (R.take cop), pad, by rw [hlen]; exact hbytesc.trans hbytes,
      by rw [hlen]; exact hpad, fun hv ↦ absurd rfl hv⟩, fun hv ↦ absurd rfl hv⟩, rfl, rfl,
      h.advance (by decide) rfl rfl⟩
  · cases (Prod.mk.inj (Option.some.inj hr)).1

theorem fillSingle_sends {hdr : ℕ → BitVec 8} (h : At .singlePbuf s R) (hcop : 0 < cop) (hle : cop ≤ R.length)
    (hfits : cop + ipHlen < 2 ^ 16) (hr : fillSingle env hdr tmp cop s = some (.ok, s')) :
    Sends .singlePbuf env hdr last tmp cop s R s' := by
  have hlen : (R.take cop).length = cop := by rw [List.length_take, Nat.min_eq_left hle]
  obtain ⟨hcopied, hpoff⟩ := h.copied hcop hle (length_memBytes env.fresh cop)
  rw [fillSingle] at hr
  split_ifs at hr with halloc
  · simp only [hcopied, hpoff] at hr
    obtain ⟨-, rfl⟩ := Prod.mk.inj (Option.some.inj hr)
    refine ⟨⟨_, rfl, ⟨?_, trivial⟩, ⟨hdr, [], ?_, by rw [padding, if_neg (by simp), List.length_nil], fun _ ↦ rfl⟩,
      fun _ b hb ↦ ?_⟩, rfl, rfl, h.advance (by decide) rfl rfl⟩
    · rw [pbufBytes_single, List.length_append, length_memBytes, hlen, Nat.mod_eq_of_lt hfits, Nat.add_comm]
    · rw [pbufBytes_single, hlen, List.append_nil]
    · rw [← Option.some.inj hb, Pbuf.len, List.length_append, length_memBytes]
      exact Nat.le_add_right _ _
  · cases (Prod.mk.inj (Option.some.inj hr)).1

/-- **The mirrors** have what is to be copied, and the walk ends behind it. -/
theorem mirrorLoop_ok {left : ℕ} {rambuf c : List Pbuf} {originals is : List ℕ} (hleft : 0 < left)
    (htot : Totals rambuf) (hne : rambuf ≠ []) (hlt : (pbufBytes rambuf).length + left < 2 ^ 16)
    (hr : mirrorLoop env s left rambuf originals ps = some (.ok, c, is, s')) :
    Totals c ∧ pbufBytes c = pbufBytes rambuf ++ (pbufBytes (ps.map FragPbuf.pbuf)).take left ∧
      (pbufBytes (s'.todo.map FragPbuf.pbuf)).drop s'.newpbuflen = (pbufBytes (ps.map FragPbuf.pbuf)).drop left ∧
      (pbufBytes (s'.todo.map FragPbuf.pbuf)).length ≤ (pbufBytes (ps.map FragPbuf.pbuf)).length ∧
      (∀ p ∈ s'.todo.head?, s'.newpbuflen ≤ p.pbuf.len) ∧
      c.head?.map Pbuf.payload = rambuf.head?.map Pbuf.payload ∧
      s'.left = s.left ∧ s'.ofo = s.ofo ∧ s'.sent = s.sent := by
  induction ps generalizing s left rambuf originals with
  | nil =>
    rw [mirrorLoop, if_neg hleft.ne'] at hr
    cases hr
  | cons p ps ih =>
    rw [mirrorLoop, if_neg hleft.ne'] at hr
    obtain ⟨n, hn⟩ : ∃ n, n = if left < p.pbuf.len then left else p.pbuf.len := ⟨_, rfl⟩
    have hbytes : pbufBytes ((p :: ps).map FragPbuf.pbuf) =
        p.pbuf.payload ++ pbufBytes (ps.map FragPbuf.pbuf) := pbufBytes_cons
    simp only [← hn] at hr
    rcases Nat.eq_zero_or_pos n with hzero | hpos
    · -- an empty pbuf
      rw [if_pos hzero] at hr
      have hempty : p.pbuf.payload = [] := List.length_eq_zero_iff.1 (by
        rw [hzero, Pbuf.len] at hn
        split_ifs at hn <;> omega)
      have hrest := ih hleft htot hne hlt hr
      rw [hbytes, hempty, List.nil_append]
      exact hrest
    · rw [if_neg hpos.ne'] at hr
      rcases halloc : env.alloc s.allocs with _ | _
      · rw [halloc, if_pos rfl] at hr
        cases (Prod.mk.inj (Option.some.inj hr)).1
      · rw [halloc, if_neg (by decide)] at hr
        have hle : n ≤ p.pbuf.payload.length ∧ n ≤ left := by
          rw [hn, Pbuf.len]
          split_ifs <;> omega
        have htake : (p.pbuf.payload.take n).length = n := by rw [List.length_take, Nat.min_eq_left hle.1]
        have hsingle : pbufBytes [⟨p.pbuf.payload.take n, n⟩] = p.pbuf.payload.take n := pbufBytes_single
        obtain ⟨d, hd, htotd, hlend, hbytesd⟩ := htot.cat (t := [⟨p.pbuf.payload.take n, n⟩])
          ⟨by rw [hsingle, htake], trivial⟩ hne (by rw [hsingle, htake]; omega)
        rw [hsingle] at hbytesd
        have hheadd : d.head?.map Pbuf.payload = rambuf.head?.map Pbuf.payload := by
          rcases rambuf with _ | ⟨b, bs⟩
          · exact absurd rfl hne
          · obtain ⟨q, hq, hpay⟩ := head?_cat hd
            rw [hq, Option.map_some, hpay]
            rfl
        rw [hd, Option.bind_some] at hr
        rcases Nat.eq_zero_or_pos (left - n) with hlast | hmore
        · -- the last mirror
          rw [if_pos hlast] at hr
          obtain ⟨-, rfl, -, rfl⟩ : ErrT.ok = .ok ∧ d = c ∧ _ ∧ _ = s' := by simpa using hr
          have hleft' : left = n := by omega
          refine ⟨htotd, ?_, ?_, le_refl _, fun q hq ↦ ?_, hheadd, rfl, rfl, rfl⟩
          · rw [hbytesd, hbytes, hleft', List.take_append_of_le_length hle.1]
          · rw [hleft']
            rfl
          · rw [← Option.some.inj hq]
            exact hle.1
        · -- all of the pbuf
          rw [if_neg hmore.ne'] at hr
          have hall : n = p.pbuf.payload.length := by
            rw [hn, Pbuf.len]
            rw [Pbuf.len] at hn
            split_ifs at hn ⊢ <;> omega
          obtain ⟨htotc, hbytesc, hdrop, hlen, hhead, hheadc, hframe⟩ := ih hmore htotd (List.ne_nil_of_length_pos (by
            rw [hlend, List.length_singleton]
            exact Nat.succ_pos _)) (by rw [hbytesd, List.length_append, htake]; omega) hr
          refine ⟨htotc, ?_, ?_, hlen.trans ?_, hhead, hheadc.trans hheadd, hframe⟩
          · rw [hbytesc, hbytesd, hbytes, List.append_assoc, List.take_append (i := left),
              List.take_of_length_le (i := left) (by omega), hall, List.take_length]
          · rw [hdrop, hbytes, List.drop_append (i := left), List.drop_of_length_le (i := left) (by omega),
              List.nil_append, hall]
          · rw [hbytes, List.length_append]
            exact Nat.le_add_left _ _

theorem fillCustom_sends {hdr : ℕ → BitVec 8} (h : At .customRef s R) (hcop : 0 < cop) (hle : cop ≤ R.length)
    (hfits : cop + ipHlen < 2 ^ 16) (hr : fillCustom env hdr tmp cop s = some (.ok, s')) :
    Sends .customRef env hdr last tmp cop s R s' := by
  have hlen : (R.take cop).length = cop := by rw [List.length_take, Nat.min_eq_left hle]
  rw [fillCustom] at hr
  rcases halloc : env.alloc s.allocs with _ | _
  · rw [halloc, if_neg (by decide)] at hr
    cases (Prod.mk.inj (Option.some.inj hr)).1
  · rw [halloc, if_pos rfl] at hr
    rcases htodo : s.todo with _ | ⟨p, ps⟩
    · rw [htodo] at hr
      cases hr
    · simp only [htodo] at hr
      have hpiece : ¬ p.pbuf.len < ipHlen := fun hpiece ↦ by
        rw [if_pos hpiece] at hr
        cases hr
      rw [if_neg hpiece] at hr
      obtain ⟨⟨o, c, is, s₁⟩, hloop, hs'⟩ := Option.map_eq_some_iff.1 hr
      dsimp only at hs'
      have ho : o = .ok := by
        by_contra ho
        rw [if_neg ho] at hs'
        exact ho (congrArg Prod.fst hs')
      subst ho
      rw [if_pos rfl] at hs'
      obtain ⟨-, rfl⟩ := Prod.mk.inj hs'
      -- the rest of the packet from the first pbuf on
      have hhead := h.head rfl p (by rw [htodo]; rfl) (Nat.le_of_not_lt hpiece)
      have hlt := h.lt
      have hrest := h.rest
      rw [htodo, List.map_cons, pbufBytes_cons] at hlt hrest
      rw [List.drop_append_of_le_length hhead] at hrest
      have hhdr : pbufBytes [⟨memBytes (fragHdr hdr tmp cop) ipHlen, ipHlen⟩] =
          memBytes (fragHdr hdr tmp cop) ipHlen := pbufBytes_single
      have hhdrtot : Totals [⟨memBytes (fragHdr hdr tmp cop) ipHlen, ipHlen⟩] :=
        ⟨by rw [hhdr, length_memBytes], trivial⟩
      have hR : ∀ q : FragPbuf, q.pbuf.payload = p.pbuf.payload.drop s.poff →
          pbufBytes ((q :: ps).map FragPbuf.pbuf) = R := fun q hq ↦ by
        rw [List.map_cons, pbufBytes_cons, hq, hrest]
      obtain ⟨htot, hbytes, hdrop, hle', hhead', hfirst, hleft, hofo, hsent⟩ := mirrorLoop_ok hcop hhdrtot
        (List.cons_ne_nil _ _) (by rw [hhdr, length_memBytes, Nat.add_comm]; exact hfits) hloop
      rw [hR _ rfl] at hbytes hdrop hle'
      refine ⟨⟨⟨c, is⟩, by rw [← hsent], htot, ⟨hdr, [], ?_, by rw [padding, if_neg (by simp), List.length_nil],
        fun _ ↦ rfl⟩, fun _ b hb ↦ ?_⟩, hleft, hofo, ⟨hdrop, hle'.trans_lt ?_, fun _ q hq _ ↦ hhead' q hq⟩⟩
      · rw [hbytes, hhdr, hlen, List.append_nil]
      · -- the new pbuf with the header is still in front
        have hb' : some b.payload = some (memBytes (fragHdr hdr tmp cop) ipHlen) := by
          refine Eq.trans ?_ hfirst
          rw [hb]
          rfl
        rw [Pbuf.len, Option.some.inj hb', length_memBytes]
      · rw [← hrest, List.length_append, List.length_drop]
        rw [List.length_append] at hlt
        omega

/-- **One round**, in each of the three ways. -/
theorem fill_sends {hdr : ℕ → BitVec 8} (h : At v s R) (hcop : 0 < cop) (hle : cop ≤ R.length)
    (hfits : cop + ipHlen ≤ env.mtu) (hmtu : env.mtu < 2 ^ 16) (hlast : last = true → s.left = cop)
    (hr : fill v env hdr last tmp cop s = some (.ok, s')) : Sends v env hdr last tmp cop s R s' := by
  rcases v with _ | _ | _
  · exact fillStatic_sends h hcop hle hfits hmtu hlast hr
  · exact fillSingle_sends h hcop hle (hfits.trans_lt hmtu) hr
  · exact fillCustom_sends h hcop hle (hfits.trans_lt hmtu) hr

/-! ### The loop -/

theorem At.next (h : At v s R) (left ofo : ℕ) : At v { s with left := left, ofo := ofo } R := ⟨h.rest, h.lt, h.head⟩

/-- **What the loop has sent** carries what there was to be sent. -/
theorem fragLoop_ok {hdr : ℕ → BitVec 8} {ofo : ℕ} (hmtu : 28 ≤ env.mtu) (hmtu' : env.mtu < 2 ^ 16) (h : At v s R)
    (hleft : s.left = R.length) (hofo : s.ofo % 2 ^ 13 = (ofo + i * env.nfb) % 2 ^ 13)
    (hr : fragLoop v env hdr omf fuel s = some (.ok, s')) :
    ∃ fs, s'.sent = s.sent ++ fs ∧ Cuts (env.mtu - ipHlen) (env.nfb * 8) (Carries v env hdr omf ofo) i R fs := by
  induction fuel generalizing s R i with
  | zero => cases hr
  | succ fuel ih =>
    obtain ⟨hnfb, hle, hmod, -⟩ := nfb_spec hmtu hmtu'
    have hRlt : R.length < 2 ^ 16 := by
      rw [← h.rest, List.length_drop]
      exact (Nat.sub_le _ _).trans_lt h.lt
    rw [fragLoop] at hr
    rcases Nat.eq_zero_or_pos s.left with hzero | hpos
    · rw [if_pos hzero] at hr
      rw [(Prod.mk.inj (Option.some.inj hr)).2, List.length_eq_zero_iff.1 (hleft.symm.trans hzero)]
      exact ⟨[], (List.append_nil _).symm, .nil i⟩
    · rw [if_neg hpos.ne'] at hr
      obtain ⟨⟨o, s₁⟩, hfill, hr⟩ := Option.bind_eq_some_iff.1 hr
      have ho : o = .ok := by
        by_contra ho
        rw [if_neg ho] at hr
        exact ho (congrArg Prod.fst (Option.some.inj hr))
      subst ho
      rw [if_pos rfl] at hr
      rw [hofo] at hfill
      rcases Nat.lt_or_ge (env.mtu - ipHlen) s.left with hmore | hlast
      · have hnot : ¬ s.left + ipHlen ≤ env.mtu := by omega
        simp only [decide_eq_false hnot, Bool.false_eq_true, if_false, hmod] at hfill hr
        obtain ⟨⟨f, hsent, hmade⟩, hleft₁, hofo₁, hat⟩ := fill_sends h hnfb (by omega) (by omega) hmtu'
          (by simp) hfill
        have hslice : (R.take (env.nfb * 8)).length = env.nfb * 8 := by rw [List.length_take]; omega
        obtain ⟨fs, hfs, hcuts⟩ := ih (i := i + 1) (hat.next _ _)
          (by dsimp only; rw [hleft₁, List.length_drop]; omega)
          (by dsimp only; rw [hofo₁, Nat.add_mul, Nat.one_mul]; omega) hr
        refine ⟨f :: fs, by rw [hfs, hsent, List.append_assoc, List.singleton_append], .more (hleft ▸ hmore) ?_ hcuts⟩
        exact hmade.carries (by omega) (fun _ ↦ hslice) hmtu'
      · have hfits : s.left + ipHlen ≤ env.mtu := by omega
        simp only [decide_eq_true hfits, if_true] at hfill hr
        obtain ⟨⟨f, hsent, hmade⟩, hleft₁, hofo₁, hat⟩ := fill_sends h hpos hleft.le hfits hmtu' (fun _ ↦ rfl) hfill
        rw [hleft, List.take_length] at hmade
        obtain ⟨fs, hfs, hcuts⟩ := ih (i := i + 1) (hat.next _ _)
          (by dsimp only; rw [hleft₁, List.length_drop]; omega)
          (by dsimp only; rw [hofo₁, Nat.add_mul, Nat.one_mul]; omega) hr
        -- nothing is left
        rw [hleft, List.drop_length] at hcuts
        rw [hcuts.eq_nil, hsent, List.append_nil] at hfs
        exact ⟨[f], hfs, .last (List.ne_nil_of_length_pos (hleft ▸ hpos)) (hleft ▸ hlast)
          (hmade.carries (by omega) (by simp) hmtu')⟩

/-! ### The rounds end -/

theorem mirrorLoop_left {n : ℕ} {rambuf c : List Pbuf} {originals is : List ℕ}
    (hr : mirrorLoop env s n rambuf originals ps = some (o, c, is, s')) : s'.left = s.left := by
  induction ps generalizing s n rambuf originals with
  | nil =>
    rw [mirrorLoop] at hr
    split_ifs at hr
    cases hr
    rfl
  | cons p ps ih =>
    rw [mirrorLoop] at hr
    rcases Nat.eq_zero_or_pos n with hzero | hpos
    · rw [if_pos hzero] at hr
      cases hr
      rfl
    · rw [if_neg hpos.ne'] at hr
      obtain ⟨m, hm⟩ : ∃ m, m = if n < p.pbuf.len then n else p.pbuf.len := ⟨_, rfl⟩
      simp only [← hm] at hr
      rcases Nat.eq_zero_or_pos m with hzero | hpos
      · rw [if_pos hzero] at hr
        have hleft := ih hr
        exact hleft
      · rw [if_neg hpos.ne'] at hr
        rcases halloc : env.alloc s.allocs with _ | _
        · rw [halloc, if_pos rfl] at hr
          cases hr
          rfl
        · rw [halloc, if_neg (by decide)] at hr
          obtain ⟨d, -, hr⟩ := Option.bind_eq_some_iff.1 hr
          rcases Nat.eq_zero_or_pos (n - m) with hzero | hpos
          · rw [if_pos hzero] at hr
            cases hr
            rfl
          · rw [if_neg hpos.ne'] at hr
            have hleft := ih hr
            exact hleft

/-- A round does not change what is left; the loop does. -/
theorem fill_left {hdr : ℕ → BitVec 8} (hr : fill v env hdr last tmp cop s = some (o, s')) : s'.left = s.left := by
  rcases v with _ | _ | _
  · simp only [fill, fillStatic] at hr
    rcases Nat.lt_or_ge env.bufLen (ipHlen + _) with hroom | hroom
    · rw [if_pos hroom] at hr
      cases hr
    · rw [if_neg (Nat.not_lt_of_le hroom)] at hr
      obtain ⟨rambuf, -, hr⟩ := Option.bind_eq_some_iff.1 hr
      rcases halloc : env.alloc s.allocs with _ | _
      · rw [halloc, if_neg (by decide)] at hr
        cases hr
        rfl
      · rw [halloc, if_pos rfl] at hr
        obtain ⟨f, -, hs'⟩ := Option.map_eq_some_iff.1 hr
        cases hs'
        rfl
  · rw [fill, fillSingle] at hr
    split_ifs at hr <;> cases hr <;> rfl
  · rw [fill, fillCustom] at hr
    rcases halloc : env.alloc s.allocs with _ | _
    · rw [halloc, if_neg (by decide)] at hr
      cases hr
      rfl
    · rw [halloc, if_pos rfl] at hr
      rcases htodo : s.todo with _ | ⟨p, ps⟩
      · rw [htodo] at hr
        cases hr
      · simp only [htodo] at hr
        rcases Nat.lt_or_ge p.pbuf.len ipHlen with hpiece | hpiece
        · rw [if_pos hpiece] at hr
          cases hr
        · rw [if_neg (Nat.not_lt_of_le hpiece)] at hr
          obtain ⟨⟨o, c, is, s₁⟩, hloop, hs'⟩ := Option.map_eq_some_iff.1 hr
          have hleft := mirrorLoop_left hloop
          dsimp only at hs'
          split_ifs at hs' <;> cases hs' <;> exact hleft

/-- **The fuel is enough**: more of it makes no difference. -/
theorem fragLoop_fuel {hdr : ℕ → BitVec 8} (hmtu : 28 ≤ env.mtu) (hmtu' : env.mtu < 2 ^ 16) {fuel' : ℕ} (h : s.left < fuel)
    (h' : s.left < fuel') : fragLoop v env hdr omf fuel s = fragLoop v env hdr omf fuel' s := by
  induction fuel generalizing s fuel' with
  | zero => exact absurd h (Nat.not_lt_zero _)
  | succ fuel ih =>
    obtain ⟨fuel', rfl⟩ := Nat.exists_eq_succ_of_ne_zero (Nat.ne_zero_of_lt h')
    obtain ⟨hnfb, hle, hmod, -⟩ := nfb_spec hmtu hmtu'
    rw [fragLoop, fragLoop, hmod]
    rcases Nat.eq_zero_or_pos s.left with hzero | hpos
    · rw [if_pos hzero, if_pos hzero]
    · rw [if_neg hpos.ne', if_neg hpos.ne']
      refine Option.bind_congr fun r hr ↦ ?_
      have hleft := fill_left hr
      rcases Decidable.em (r.1 = .ok) with hok | hok
      · rw [if_pos hok, if_pos hok]
        have hcop : ∀ n, n = (if decide (s.left + ipHlen ≤ env.mtu) = true then s.left else env.nfb * 8) →
            0 < n ∧ n ≤ s.left := fun n hn ↦ by
          rcases Nat.lt_or_ge env.mtu (s.left + ipHlen) with hmore | hlast
          · rw [decide_eq_false (Nat.not_le_of_lt hmore), if_neg Bool.false_ne_true] at hn
            omega
          · rw [decide_eq_true hlast, if_pos rfl] at hn
            omega
        obtain ⟨hpos, hle⟩ := hcop _ rfl
        exact ih (by dsimp only; omega) (by dsimp only; omega)
      · rw [if_neg hok, if_neg hok]

/-! ### The packet -/

/-- The header of the packet. -/
def packetHdr (ps : List FragPbuf) : IpHdr := readHdr (bytesAt (pbufBytes (ps.map FragPbuf.pbuf)) fun _ ↦ 0)

/-- Its payload. -/
def packetPayload (ps : List FragPbuf) : List (BitVec 8) := (pbufBytes (ps.map FragPbuf.pbuf)).drop ipHlen

/-- **The fragments are those of a packet** with this header and this payload. -/
structure FragmentsOk (mtu : ℕ) (h : IpHdr) (payload : List (BitVec 8)) (fs : List Fragment) : Prop where
  payload : fs.flatMap Fragment.payload = payload
  len : ∀ f ∈ fs, f.hdr.len = pbufTotLen f.pbufs ∧ pbufTotLen f.pbufs ≤ mtu
  whole : ∀ pre f post, fs = pre ++ f :: post → post ≠ [] → f.payload.length % 8 = 0
  start : ∀ pre f post, fs = pre ++ f :: post → f.hdr.start = h.start + (pre.flatMap Fragment.payload).length
  mf : ∀ pre f post, fs = pre ++ f :: post → f.hdr.mf = (h.mf || !post.isEmpty)
  chksum : ∀ f ∈ fs, ∀ alg addr, inetChksum alg ⟨addr, (pbufBytes f.pbufs).take ipHlen⟩ = 0

/-- **What it takes**: the offset and the flag are in the memory of the first pbuf, no offset is too large, and, with
the static buffer, a full fragment fills the MTU. -/
structure Cuttable (v : FragVariant) (env : FragEnv) (ps : List FragPbuf) : Prop where
  offset : (readHdr (iphdr env ps)).offset % 2 ^ 13 = (packetHdr ps).offset % 2 ^ 13
  mf : (readHdr (iphdr env ps)).mf = (packetHdr ps).mf
  bound : (packetHdr ps).offset % 2 ^ 13 +
    env.nfb * fullParts (env.mtu - ipHlen) (env.nfb * 8) (packetPayload ps).length < 2 ^ 13
  fills : v = .staticBuf →
    fullParts (env.mtu - ipHlen) (env.nfb * 8) (packetPayload ps).length = 0 ∨ (env.mtu - ipHlen) % 8 = 0

theorem start_left (ht : Totals (ps.map FragPbuf.pbuf)) (hlen : ipHlen ≤ (pbufBytes (ps.map FragPbuf.pbuf)).length)
    (hlt : (pbufBytes (ps.map FragPbuf.pbuf)).length < 2 ^ 16) :
    (start v env ps).left = (packetPayload ps).length := by
  have hstart : (start v env ps).left = (pbufTotLen (ps.map FragPbuf.pbuf) + 2 ^ 16 - ipHlen) % 2 ^ 16 := rfl
  rw [hstart, packetPayload, List.length_drop, ht.totLen_eq]
  omega

/-- What is sent, in the call. -/
theorem ipFrag_cuts (hmtu : 28 ≤ env.mtu) (hmtu' : env.mtu < 2 ^ 16) (ht : Totals (ps.map FragPbuf.pbuf))
    (hlen : ipHlen ≤ (pbufBytes (ps.map FragPbuf.pbuf)).length)
    (hlt : (pbufBytes (ps.map FragPbuf.pbuf)).length < 2 ^ 16) (hr : ipFrag v env ps fuel = some (.ok, s)) :
    Cuts (env.mtu - ipHlen) (env.nfb * 8)
      (Carries v env (iphdr env ps) (readHdr (iphdr env ps)).mf ((readHdr (iphdr env ps)).offset % 2 ^ 13)) 0
      (packetPayload ps) s.sent := by
  rw [ipFrag] at hr
  split_ifs at hr with hnil halloc
  · cases (Prod.mk.inj (Option.some.inj hr)).1
  · have hat : At v (start v env ps) (packetPayload ps) := ⟨rfl, hlt, fun _ _ _ hhead ↦ hhead⟩
    have hofo : (start v env ps).ofo % 2 ^ 13 =
        ((readHdr (iphdr env ps)).offset % 2 ^ 13 + 0 * env.nfb) % 2 ^ 13 := by
      rw [Nat.zero_mul]
      rfl
    obtain ⟨fs, hfs, hcuts⟩ := fragLoop_ok hmtu hmtu' hat (start_left ht hlen hlt) hofo hr
    rw [hfs]
    exact hcuts

/-- A fragment holds what it carries, if its length is right. -/
theorem Carries.totLen {hdr : ℕ → BitVec 8} {ofo : ℕ} {slice : List (BitVec 8)} {x : Fragment}
    (h : Carries v env hdr omf ofo i last slice x) : pbufTotLen x.pbufs = x.payload.length + ipHlen := by
  rw [h.totals.totLen_eq, h.length]

theorem Carries.payload_eq {hdr : ℕ → BitVec 8} {ofo : ℕ} {slice : List (BitVec 8)} {x : Fragment}
    (h : Carries v env hdr omf ofo i last slice x) (hlen : x.hdr.len = pbufTotLen x.pbufs) : x.payload = slice := by
  obtain ⟨pad, hpad, -⟩ := h.payload
  have hpadlen : pad.length = 0 := by
    have hx := congrArg List.length hpad
    rw [h.len, h.totLen] at hlen
    rw [List.length_append] at hx
    omega
  rw [hpad, List.length_eq_zero_iff.1 hpadlen, List.append_nil]

/-- A fragment without padding. -/
def Exact (v : FragVariant) (env : FragEnv) (hdr : ℕ → BitVec 8) (omf : Bool) (ofo i : ℕ) (last : Bool)
    (slice : List (BitVec 8)) (f : Fragment) : Prop :=
  Carries v env hdr omf ofo i last slice f ∧ f.payload = slice

theorem Carries.exact {hdr : ℕ → BitVec 8} {ofo : ℕ} {slice : List (BitVec 8)} {x : Fragment}
    (h : Carries v env hdr omf ofo i last slice x) (hpad : padding v env last slice.length = 0) :
    Exact v env hdr omf ofo i last slice x := by
  obtain ⟨pad, hpayload, hlen⟩ := h.payload
  rw [hpad] at hlen
  exact ⟨h, by rw [hpayload, List.length_eq_zero_iff.1 hlen, List.append_nil]⟩

variable {hdr : ℕ → BitVec 8} {pl : List (BitVec 8)} {fs : List Fragment} {ofo : ℕ}

/-- **No fragment is padded**, or some length is wrong. -/
theorem exact_iff (hmtu : 28 ≤ env.mtu) (hmtu' : env.mtu < 2 ^ 16) (hpl : pl ≠ [])
    (h : Cuts (env.mtu - ipHlen) (env.nfb * 8) (Carries v env hdr omf ofo) 0 pl fs) :
    Cuts (env.mtu - ipHlen) (env.nfb * 8) (Exact v env hdr omf ofo) 0 pl fs ↔
      (v = .staticBuf → fullParts (env.mtu - ipHlen) (env.nfb * 8) pl.length = 0 ∨ (env.mtu - ipHlen) % 8 = 0) := by
  obtain ⟨hpos, hle, -, hmod⟩ := nfb_spec hmtu hmtu'
  constructor
  · intro hexact hv
    subst hv
    rcases hexact with _ | ⟨hne, hlast, hb⟩ | ⟨hlt, ⟨hb, hpayload⟩, hbs⟩
    · exact absurd rfl hpl
    · exact .inl (Cuts.fullParts_of_le hpos hlast)
    · -- the first fragment is a full one
      obtain ⟨pad, hpad, hlen⟩ := hb.payload
      have hzero : pad = [] := List.append_right_eq_self.1 (hpad.symm.trans hpayload)
      rw [hzero, padding, if_pos ⟨rfl, rfl⟩, hb.full rfl, List.length_nil] at hlen
      exact .inr (hmod.2 hlen.symm)
  · intro hfills
    rcases Nat.lt_or_ge (env.mtu - ipHlen) pl.length with hlt | hlast
    · refine h.imp fun x _ i last slice hx ↦ hx.exact ?_
      rw [padding]
      split_ifs with hpad
      · -- a full fragment fills the MTU
        rcases hfills hpad.1 with hzero | hfull
        · rw [Cuts.fullParts_of_lt hpos hlt] at hzero
          exact absurd hzero (Nat.succ_ne_zero _)
        · rw [hx.full hpad.2, hmod.1 hfull]
      · rfl
    · rcases h with _ | ⟨hne, -, hb⟩ | ⟨hlt, -, -⟩
      · exact absurd rfl hpl
      · exact .last hne hlast (hb.exact (by rw [padding, if_neg (by simp)]))
      · exact absurd hlast (Nat.not_le_of_lt hlt)

/-- **The headers of the fragments** are right if the last one is. -/
theorem fragmentsOk_iff (hmtu : 28 ≤ env.mtu) (hmtu' : env.mtu < 2 ^ 16) {h : IpHdr} (hofo : ofo < 2 ^ 13) (hpl : pl ≠ [])
    (hcuts : Cuts (env.mtu - ipHlen) (env.nfb * 8) (Exact v env hdr omf ofo) 0 pl fs) :
    FragmentsOk env.mtu h pl fs ↔ ofo = h.offset % 2 ^ 13 ∧ omf = h.mf ∧
      h.offset % 2 ^ 13 + env.nfb * fullParts (env.mtu - ipHlen) (env.nfb * 8) pl.length < 2 ^ 13 := by
  obtain ⟨hpos, hle, -⟩ := nfb_spec hmtu hmtu'
  have hcount := hcuts.length_eq hpos hle hpl
  have hbefore : ∀ pre x post, fs = pre ++ x :: post →
      (pre.flatMap Fragment.payload).length = env.nfb * 8 * pre.length := fun pre x post hfs ↦ by
    rw [hfs] at hcuts
    rw [hcuts.flatMap_pre_eq fun _ _ _ _ hx ↦ hx.2, List.length_take, Nat.min_eq_left hcuts.mul_length_lt.le]
  have hexact : ∀ pre x post, fs = pre ++ x :: post →
      ∃ slice, Exact v env hdr omf ofo pre.length post.isEmpty slice x := fun pre x post hfs ↦ by
    rw [hfs] at hcuts
    obtain ⟨slice, -, hx⟩ := hcuts.split_exists hpos hle
    rw [Nat.zero_add] at hx
    exact ⟨slice, hx⟩
  constructor
  · intro hok
    obtain ⟨pre, x, hfs⟩ : ∃ pre x, fs = pre ++ [x] :=
      ⟨_, _, (List.dropLast_append_getLast (hcuts.ne_nil hpl)).symm⟩
    obtain ⟨slice, hx, -⟩ := hexact pre x [] hfs
    have hpre : pre.length = fullParts (env.mtu - ipHlen) (env.nfb * 8) pl.length := by
      rw [hfs, List.length_append, List.length_singleton] at hcount
      exact Nat.succ.inj hcount
    have hstart := hok.start pre x [] hfs
    have hmf := hok.mf pre x [] hfs
    rw [hx.start, hbefore pre x [] hfs, IpHdr.start, Nat.mul_right_comm, Nat.mul_comm pre.length] at hstart
    rw [hx.mf] at hmf
    rw [← hpre]
    generalize env.nfb * pre.length = k at hstart ⊢
    refine ⟨by omega, by simpa using hmf, by omega⟩
  · rintro ⟨rfl, rfl, hbound⟩
    have hmem : ∀ x ∈ fs, ∃ i last slice, Exact v env hdr h.mf (h.offset % 2 ^ 13) i last slice x := fun x hx ↦ by
      obtain ⟨pre, post, hfs⟩ := List.append_of_mem hx
      obtain ⟨slice, hx⟩ := hexact pre x post hfs
      exact ⟨_, _, slice, hx⟩
    refine ⟨hcuts.flatMap_eq fun _ _ _ _ hx ↦ hx.2, fun x hx ↦ ?_, fun pre x post hfs hpost ↦ ?_,
      fun pre x post hfs ↦ ?_, fun pre x post hfs ↦ ?_, fun x hx ↦ ?_⟩
    · obtain ⟨i, last, slice, hcarries, hpayload⟩ := hmem x hx
      rw [hcarries.totLen, hpayload]
      exact ⟨hcarries.len, hcarries.fits⟩
    · obtain ⟨slice, hcarries, hpayload⟩ := hexact pre x post hfs
      rw [hpayload, hcarries.full (by simpa using hpost), Nat.mul_mod_left]
    · obtain ⟨slice, hcarries, -⟩ := hexact pre x post hfs
      -- no more fragments than there are
      have hpre : env.nfb * pre.length ≤ env.nfb * fullParts (env.mtu - ipHlen) (env.nfb * 8) pl.length := by
        rw [hfs, List.length_append, List.length_cons] at hcount
        exact Nat.mul_le_mul_left _ (by omega)
      rw [hcarries.start, hbefore pre x post hfs, IpHdr.start, Nat.mul_right_comm, Nat.mul_comm pre.length]
      omega
    · obtain ⟨slice, hcarries, -⟩ := hexact pre x post hfs
      exact hcarries.mf
    · obtain ⟨i, last, slice, hcarries, -⟩ := hmem x hx
      exact hcarries.chksum

/-- **`ip_frag`**: a call that returns `ERR_OK` has sent the fragments of the packet, if and only if there is nothing
to be sent, or it can be cut. -/
theorem ipFrag_ok_iff (hmtu : 28 ≤ env.mtu) (hmtu' : env.mtu < 2 ^ 16) (ht : Totals (ps.map FragPbuf.pbuf))
    (hlen : ipHlen ≤ (pbufBytes (ps.map FragPbuf.pbuf)).length)
    (hlt : (pbufBytes (ps.map FragPbuf.pbuf)).length < 2 ^ 16) (hr : ipFrag v env ps fuel = some (.ok, s)) :
    FragmentsOk env.mtu (packetHdr ps) (packetPayload ps) s.sent ↔ packetPayload ps = [] ∨ Cuttable v env ps := by
  have hcuts := ipFrag_cuts hmtu hmtu' ht hlen hlt hr
  rcases List.eq_nil_or_concat (packetPayload ps) with hnil | ⟨_, _, hcons⟩
  · -- nothing is sent
    rw [hnil] at hcuts ⊢
    rw [hcuts.eq_nil]
    exact iff_of_true ⟨rfl, by simp, by simp, by simp, by simp, by simp⟩ (.inl rfl)
  · have hne : packetPayload ps ≠ [] := by simp [hcons]
    have hexact := exact_iff hmtu hmtu' hne hcuts
    constructor
    · intro hok
      have hcuts' := hcuts.imp (Q := Exact v env (iphdr env ps) (readHdr (iphdr env ps)).mf
        ((readHdr (iphdr env ps)).offset % 2 ^ 13)) fun x hx i last slice hcarries ↦
          ⟨hcarries, hcarries.payload_eq (hok.len x hx).1⟩
      obtain ⟨hoff, hmf, hbound⟩ := (fragmentsOk_iff hmtu hmtu' (Nat.mod_lt _ (by decide)) hne hcuts').1 hok
      exact .inr ⟨hoff, hmf, hbound, hexact.1 hcuts'⟩
    · rintro (hnil | ⟨hoff, hmf, hbound, hfills⟩)
      · exact absurd hnil hne
      · exact (fragmentsOk_iff hmtu hmtu' (Nat.mod_lt _ (by decide)) hne (hexact.2 hfills)).2 ⟨hoff, hmf, hbound⟩

/-- A packet of 44 bytes in two pbufs, the second of which has most of the payload. -/
def exampleCut : List FragPbuf :=
  [⟨⟨[0x45, 0, 0, 44, 0, 1, 0, 0, 64, 17, 0, 0, 10, 0, 0, 1, 10, 0, 0, 2, 1, 2, 3, 4], 44⟩, 0, 1⟩,
    ⟨⟨[5, 6, 7, 8, 9, 10, 11, 12, 13, 14, 15, 16, 17, 18, 19, 20, 21, 22, 23, 24], 20⟩, 0, 1⟩]

/-- An interface whose MTU has room for twenty bytes of payload. -/
def exampleCutEnv : FragEnv where
  mtu := 40
  behind _ := 0
  buf _ := 0
  bufLen := 40
  fresh _ := 0
  alloc _ := true

theorem ipFrag_ok_iff_two : ∃ s, ipFrag .customRef exampleCutEnv exampleCut 25 = some (.ok, s) ∧ s.sent.length = 2 ∧
    FragmentsOk 40 (packetHdr exampleCut) (packetPayload exampleCut) s.sent := by
  have hrun : (ipFrag .customRef exampleCutEnv exampleCut 25).map (fun r ↦ (r.1, r.2.sent.length)) = some (.ok, 2) := by
    decide
  obtain ⟨⟨o, s⟩, hs, hobs⟩ := Option.map_eq_some_iff.1 hrun
  obtain ⟨rfl, hsent⟩ := Prod.mk.inj hobs
  refine ⟨s, hs, hsent, (ipFrag_ok_iff (by decide : 28 ≤ exampleCutEnv.mtu) (by decide) (by decide) (by decide)
    (by decide) hs).2 (.inr ⟨?_, ?_, ?_, by simp⟩)⟩
  · decide
  · decide
  · decide

/-- **With the static buffer, a fragment is too long**: only the last one is cut to its length. -/
theorem not_fragmentsOk : ¬ ∀ (v : FragVariant) (env : FragEnv) (ps : List FragPbuf) (fuel : ℕ) (s : FragState),
    28 ≤ env.mtu → env.mtu < 2 ^ 16 → Totals (ps.map FragPbuf.pbuf) →
    ipHlen ≤ (pbufBytes (ps.map FragPbuf.pbuf)).length → (pbufBytes (ps.map FragPbuf.pbuf)).length < 2 ^ 16 →
    ipFrag v env ps fuel = some (.ok, s) → FragmentsOk env.mtu (packetHdr ps) (packetPayload ps) s.sent := by
  intro h
  have hrun : (ipFrag .staticBuf exampleCutEnv exampleCut 25).map
      (fun r ↦ (r.1, r.2.sent.map fun f ↦ (f.hdr.len, pbufTotLen f.pbufs))) = some (.ok, [(36, 40), (28, 28)]) := by
    decide
  obtain ⟨⟨o, s⟩, hs, hobs⟩ := Option.map_eq_some_iff.1 hrun
  obtain ⟨rfl, hsent⟩ := Prod.mk.inj hobs
  have hok := h .staticBuf exampleCutEnv exampleCut 25 s (by decide) (by decide) (by decide) (by decide) (by decide) hs
  have hlens : ∀ x ∈ s.sent.map fun f ↦ (f.hdr.len, pbufTotLen f.pbufs), x.1 = x.2 := fun x hx ↦ by
    obtain ⟨f, hf, rfl⟩ := List.mem_map.1 hx
    exact (hok.len f hf).1
  rw [hsent] at hlens
  exact absurd (hlens _ List.mem_cons_self) (by decide)

end Frag

end Lwip.Ipv4
