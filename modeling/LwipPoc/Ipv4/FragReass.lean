import LwipPoc.Ipv4.FragSpec
import LwipPoc.Ipv4.ReassInOrder

/-!
# Fragmentation and reassembly

The fragments that `ip_frag` sends of a packet are those of a datagram, in their order (`Splittable.inOrder`), so what
is said about such fragments is said about them: `ip_reass` holds them back until the last one has come, and then
returns the packet, with its offset cleared and its checksum computed again (`reass_ipFrag`).

This is so for fragments that find room. Fragments of others, in between, can take it (`not_restored`).
-/

namespace Lwip.Ipv4

open Lwip.Core IpHdr Reass

/-- A fragment, as it is passed to `ip_reass`. -/
def Fragment.packet (f : Fragment) : IpPacket := ⟨f.hdr, f.pbufs⟩

/-! ### The header of a packet that is put together -/

theorem swap16_lt (n : ℕ) : swap16 n < 2 ^ 16 := by
  rw [swap16]
  omega

theorem swap16_ne_zero {n : ℕ} (hpos : 0 < n) (hlt : n < 2 ^ 16) : swap16 n ≠ 0 := by
  rw [swap16]
  omega

/-- The sum over a header with some length. -/
theorem words_sum_bounds {h : IpHdr} (hpos : 0 < h.len) (hlt : h.len < 2 ^ 16) :
    0 < h.words.sum ∧ h.words.sum < 9 * 2 ^ 16 := by
  have hlen := swap16_ne_zero hpos hlt
  have hlen' := swap16_lt h.len
  have hid := swap16_lt h.id
  have hoff := swap16_lt h.offset
  simp only [IpHdr.words, List.sum_cons, List.sum_nil]
  omega

/-- Two folds are enough for the sum over a header, and its checksum. -/
theorem onesEq_foldU32 {n : ℕ} (hle : n ≤ 10 * 2 ^ 16) :
    OnesEq (foldU32 (foldU32 n)) n ∧ foldU32 (foldU32 n) < 2 ^ 16 :=
  ⟨(onesEq_foldHalves _).trans (onesEq_foldHalves n), foldHalves_foldHalves_lt (by omega)⟩

/-- A checksum that is stored where there was zero verifies. -/
theorem inetChksum_stored {h : IpHdr} (hzero : h.chksum = 0) (hpos : 0 < h.words.sum)
    (hlt : h.words.sum < 9 * 2 ^ 16) : { h with chksum := h.inetChksum }.inetChksum = 0 := by
  obtain ⟨⟨hmod, -⟩, hfold⟩ := onesEq_foldU32 (n := h.words.sum) (by omega)
  have hsum : h.inetChksum = 2 ^ 16 - 1 - foldU32 (foldU32 h.words.sum) := by
    rw [IpHdr.inetChksum, hzero, Nat.zero_mod, Nat.add_zero, Nat.mod_eq_of_lt hfold]
  obtain ⟨heq, hfold'⟩ := onesEq_foldU32 (n := h.words.sum + h.inetChksum % 2 ^ 16) (by omega)
  have hstored : { h with chksum := h.inetChksum }.inetChksum =
      2 ^ 16 - 1 - foldU32 (foldU32 (h.words.sum + h.inetChksum % 2 ^ 16)) % 2 ^ 16 := rfl
  rw [hstored, Nat.mod_eq_of_lt hfold', heq.compl_eq_zero_iff hfold']
  omega

/-- **The header verifies.** -/
theorem finalHdr_verifies (h : IpHdr) {len : ℕ} (hpos : 0 < len) (hlt : len < 2 ^ 16) :
    (Reass.finalHdr h len).inetChksum = 0 := by
  obtain ⟨hsum, hsum'⟩ := words_sum_bounds (h := { h with len := len, offset := 0, chksum := 0 }) hpos hlt
  exact inetChksum_stored rfl hsum hsum'

namespace Frag

variable {env : FragEnv} {ps : List FragPbuf} {s : FragState} {fuel : ℕ} {f : Fragment} {pre post : List Fragment}

/-- **What there is of a packet**: it has a header without options, is no fragment itself, and does not fit the
MTU. -/
structure Splittable (env : FragEnv) (ps : List FragPbuf) : Prop where
  mtu : 28 ≤ env.mtu
  mtu_lt : env.mtu < 2 ^ 16
  totals : Totals (ps.map FragPbuf.pbuf)
  big : env.mtu < (pbufBytes (ps.map FragPbuf.pbuf)).length
  lt : (pbufBytes (ps.map FragPbuf.pbuf)).length < 2 ^ 16
  hl : (packetHdr ps).hl * 4 = ipHlen
  offset : (packetHdr ps).offset % 2 ^ 14 = 0

/-- With custom pbufs, the header is in the first one. -/
theorem head_of_ipFrag (hleft : (start .customRef env ps).left ≠ 0)
    (hr : ipFrag .customRef env ps fuel = some (.ok, s)) : ipHlen ≤ (firstBytes (ps.map FragPbuf.pbuf)).length := by
  rw [ipFrag] at hr
  split_ifs at hr with hnil halloc
  · exact absurd halloc.1 (by decide)
  rcases fuel with _ | fuel
  · cases hr
  rw [fragLoop, if_neg hleft] at hr
  obtain ⟨⟨o, s₁⟩, hfill, hr⟩ := Option.bind_eq_some_iff.1 hr
  have ho : o = .ok := by
    by_contra ho
    rw [if_neg ho] at hr
    exact ho (congrArg Prod.fst (Option.some.inj hr))
  subst ho
  rw [fill, fillCustom] at hfill
  rcases halloc : env.alloc (start .customRef env ps).allocs with _ | _
  · rw [halloc, if_neg (by decide)] at hfill
    cases (Prod.mk.inj (Option.some.inj hfill)).1
  · rw [halloc, if_pos rfl] at hfill
    rcases ps with _ | ⟨p, qs⟩
    · exact absurd rfl hnil
    · by_contra hshort
      have hshort : p.pbuf.len < ipHlen := Nat.lt_of_not_le hshort
      rw [show (start .customRef env (p :: qs)).todo = p :: qs from rfl] at hfill
      dsimp only at hfill
      rw [if_pos hshort] at hfill
      cases hfill

/-- Then the code reads the header of the packet. -/
theorem readHdr_iphdr (hhead : ipHlen ≤ (firstBytes (ps.map FragPbuf.pbuf)).length) :
    readHdr (iphdr env ps) = packetHdr ps := by
  refine readHdr_congr fun j hj ↦ ?_
  rcases ps with _ | ⟨p, qs⟩
  · exact absurd hhead (by decide)
  · have hj' : j < p.pbuf.payload.length := hj.trans_le hhead
    have hfirst : firstBytes ((p :: qs).map FragPbuf.pbuf) = p.pbuf.payload := rfl
    rw [iphdr, hfirst, bytesAt, bytesAt, List.map_cons, pbufBytes_cons, List.getElem?_append_left hj',
      List.getElem?_eq_getElem hj', Option.getD_some, Option.getD_some]

theorem Splittable.payload (h : Splittable env ps) :
    (packetPayload ps).length = (pbufBytes (ps.map FragPbuf.pbuf)).length - ipHlen ∧
      env.mtu - ipHlen < (packetPayload ps).length := by
  have hmtu := h.mtu
  have hbig := h.big
  have hlen : ipHlen = 20 := rfl
  rw [packetPayload, List.length_drop]
  omega

/-- **The fragments** of such a packet. -/
theorem Splittable.cuts (h : Splittable env ps) (hr : ipFrag .customRef env ps fuel = some (.ok, s)) :
    Cuts (env.mtu - ipHlen) (env.nfb * 8)
        (Exact .customRef env (iphdr env ps) (packetHdr ps).mf ((packetHdr ps).offset % 2 ^ 13)) 0
        (packetPayload ps) s.sent ∧ readHdr (iphdr env ps) = packetHdr ps ∧
      FragmentsOk env.mtu (packetHdr ps) (packetPayload ps) s.sent := by
  obtain ⟨hpl, hmore⟩ := h.payload
  have hlen : ipHlen ≤ (pbufBytes (ps.map FragPbuf.pbuf)).length := by
    have := h.mtu
    have := h.big
    have : ipHlen = 20 := rfl
    omega
  have hne : packetPayload ps ≠ [] := List.ne_nil_of_length_pos (Nat.zero_lt_of_lt hmore)
  have hread : readHdr (iphdr env ps) = packetHdr ps := readHdr_iphdr (head_of_ipFrag (by
    rw [start_left h.totals hlen h.lt]
    exact (Nat.zero_lt_of_lt hmore).ne') hr)
  have hcuts := ipFrag_cuts h.mtu h.mtu_lt h.totals hlen h.lt hr
  rw [hread] at hcuts
  have hexact := (exact_iff h.mtu h.mtu_lt hne hcuts).2 (by simp)
  refine ⟨hexact, hread, (fragmentsOk_iff h.mtu h.mtu_lt (Nat.mod_lt _ (by decide)) hne hexact).2 ⟨rfl, rfl, ?_⟩⟩
  -- no offset is too large
  obtain ⟨hpos, hle, -⟩ := nfb_spec h.mtu h.mtu_lt
  have hcount := hexact.length_eq hpos hle hne
  obtain ⟨pre, x, hsent⟩ : ∃ pre x, s.sent = pre ++ [x] :=
    ⟨_, _, (List.dropLast_append_getLast (hexact.ne_nil hne)).symm⟩
  rw [hsent] at hexact hcount
  have hlast := hexact.mul_length_lt
  rw [List.length_append, List.length_singleton, Nat.add_right_cancel_iff] at hcount
  rw [← hcount]
  have hlt := h.lt
  have hoff := h.offset
  rw [Nat.mul_right_comm] at hlast
  generalize env.nfb * pre.length = k at hlast ⊢
  omega

/-! ### The fragments as they arrive -/

/-- What is written over in the header of a packet that is put together. -/
theorem eq_of_finalHdr {g h : IpHdr} {len : ℕ} (hg : g = finalHdr h len) :
    g = { h with len := len, offset := 0, chksum := g.chksum } := by
  subst hg
  rfl

theorem finalHdr_of_kept {g h : IpHdr} {len offset chksum : ℕ}
    (hkept : g = { h with len := len, offset := offset, chksum := chksum }) (n : ℕ) :
    finalHdr g n = finalHdr h n := by
  subst hkept
  rfl

/-- What is not corrected in a header identifies the datagram. -/
theorem kept_agree {g h : IpHdr} {len offset chksum : ℕ}
    (hkept : g = { h with len := len, offset := offset, chksum := chksum }) : g.hl = h.hl ∧ Agree g h := by
  subst hkept
  exact ⟨rfl, rfl, rfl, rfl⟩

/-- **A fragment can be put together with others.** -/
theorem Splittable.fragOk (h : Splittable env ps) (hr : ipFrag .customRef env ps fuel = some (.ok, s))
    (hsent : s.sent = pre ++ f :: post) :
    FragOk (helper f.packet) ∧ Agree f.hdr (packetHdr ps) ∧ f.payload ≠ [] ∧
      f.hdr.start = (pre.flatMap Fragment.payload).length ∧ f.hdr.mf = !post.isEmpty ∧
      f.hdr = { packetHdr ps with len := f.hdr.len, offset := f.hdr.offset, chksum := f.hdr.chksum } := by
  obtain ⟨hcuts, hread, hok⟩ := h.cuts hr
  obtain ⟨hpos, hle, -⟩ := nfb_spec h.mtu h.mtu_lt
  rw [hsent] at hcuts
  obtain ⟨slice, hne, hcarries, hpayload⟩ := hcuts.split_exists hpos hle
  have hkept := hcarries.kept (by decide)
  rw [hread] at hkept
  obtain ⟨hhl, hagree⟩ := kept_agree hkept
  replace hhl : f.hdr.hl * 4 = ipHlen := by rw [hhl, h.hl]
  have hoff := h.offset
  have hzero : (packetHdr ps).start = 0 := by
    rw [IpHdr.start]
    omega
  have hlast : (packetHdr ps).mf = false := by
    rw [IpHdr.mf]
    exact decide_eq_false (by omega)
  have hstart := hok.start pre f post hsent
  rw [hzero, Nat.zero_add] at hstart
  have hmf := hok.mf pre f post hsent
  rw [hlast, Bool.false_or] at hmf
  -- all of it fits into the packet
  have htotal := congrArg List.length hok.payload
  rw [hsent, List.flatMap_append, List.flatMap_cons, List.length_append, List.length_append, h.payload.1] at htotal
  have hlt := h.lt
  have hlen : f.hdr.len = f.payload.length + ipHlen := by rw [hcarries.len, hpayload]
  have hheader : ipHlen = 20 := rfl
  have hfits := hcarries.fits
  rw [← hpayload] at hfits
  have hbig := h.big
  have hslice : 0 < f.payload.length := by
    rw [hpayload]
    exact List.length_pos_of_ne_nil hne
  refine ⟨fragOk_helper ⟨fun hnil ↦ ?_, hcarries.totals, ?_, ?_, fun b hb ↦ ?_, ?_⟩ ⟨?_, ?_⟩ hhl, hagree,
    List.ne_nil_of_length_pos hslice, hstart, hmf, hkept⟩
  · have hnil' : f.pbufs = [] := hnil
    have := hcarries.length
    rw [hnil', show pbufBytes [] = [] from rfl, List.length_nil] at this
    omega
  · exact hcarries.length.trans hlen.symm
  · show f.hdr.len < 2 ^ 16
    omega
  · exact (Nat.min_le_left _ _).trans (hhl.le.trans (hcarries.head (by decide) b hb))
  · -- the last one is not the first one
    intro hfield
    have hfield : f.hdr.offset % 2 ^ 14 = 0 := hfield
    have hstart' : f.hdr.start = f.hdr.offset % 2 ^ 13 * 8 := rfl
    have hmf' : f.hdr.mf = false := by
      rw [IpHdr.mf]
      exact decide_eq_false (by omega)
    rw [hmf] at hmf'
    have hpost : post = [] := by simpa using hmf'
    rw [hpost, List.flatMap_nil, List.length_nil] at htotal
    omega
  · show ipHlen ≤ f.hdr.len
    omega
  · show f.hdr.start + f.hdr.len < 2 ^ 16
    omega

/-- **They are those of a datagram**, in their order. -/
theorem Splittable.inOrder (h : Splittable env ps) (hr : ipFrag .customRef env ps fuel = some (.ok, s))
    (hfits : (s.sent.map fun f ↦ f.pbufs.length).sum ≤ ipReassMaxPbufs) :
    InOrder (packetHdr ps) (s.sent.map Fragment.packet) := by
  have hmem : ∀ p ∈ s.sent.map Fragment.packet, ∃ pre f post, s.sent = pre ++ f :: post ∧ f.packet = p :=
    fun p hp ↦ by
      obtain ⟨f, hf, rfl⟩ := List.mem_map.1 hp
      obtain ⟨pre, post, hsent⟩ := List.append_of_mem hf
      exact ⟨pre, f, post, hsent, rfl⟩
  refine ⟨fun p hp ↦ ?_, fun p hp ↦ ?_, fun p hp ↦ ?_, ?_, fun p hp ↦ ?_, fun pre p post hfs ↦ ?_, ?_, ?_⟩
  · obtain ⟨pre, f, post, hsent, rfl⟩ := hmem p hp
    exact (h.fragOk hr hsent).1
  · obtain ⟨pre, f, post, hsent, rfl⟩ := hmem p hp
    exact addressesAndIdMatch_iff.2 (h.fragOk hr hsent).2.1
  · obtain ⟨pre, f, post, hsent, rfl⟩ := hmem p hp
    exact (h.fragOk hr hsent).2.2.1
  · refine List.isChain_iff_forall_rel_of_append_cons_cons.2 fun x y l₁ l₂ hsplit ↦ ?_
    rw [List.map_map] at hsplit
    obtain ⟨pre, tail, hsent, rfl, htail⟩ := List.map_eq_append_iff.1 hsplit
    obtain ⟨f, tail', rfl, rfl, htail'⟩ := List.map_eq_cons_iff.1 htail
    obtain ⟨g, rest, rfl, rfl, -⟩ := List.map_eq_cons_iff.1 htail'
    -- the one behind it starts where it ends
    have hf := h.fragOk hr hsent
    have hsent' : s.sent = (pre ++ [f]) ++ g :: rest := by rw [hsent, List.append_assoc, List.singleton_append]
    have hg := h.fragOk hr hsent'
    have hstop : (helper f.packet).stop = f.hdr.start + f.payload.length := hf.1.stop_eq
    have hstart : (helper g.packet).start = g.hdr.start := rfl
    show (helper f.packet).stop = (helper g.packet).start
    rw [hstop, hstart, hf.2.2.2.1, hg.2.2.2.1, List.flatMap_append, List.length_append, List.flatMap_singleton]
  · obtain ⟨f, hf, rfl⟩ := Option.map_eq_some_iff.1 (List.head?_map ▸ hp)
    obtain ⟨rest, hsent⟩ := List.head?_eq_some_iff.1 hf
    exact (h.fragOk hr (hsent.trans (List.nil_append _).symm)).2.2.2.1
  · obtain ⟨pre', rest, hsent, rfl, hrest⟩ := List.map_eq_append_iff.1 hfs
    obtain ⟨f, post', rfl, rfl, rfl⟩ := List.map_eq_cons_iff.1 hrest
    rw [List.isEmpty_map]
    exact (h.fragOk hr hsent).2.2.2.2.1
  · obtain ⟨hpos, hle, -⟩ := nfb_spec h.mtu h.mtu_lt
    have hcount := (h.cuts hr).1.length_eq hpos hle (List.ne_nil_of_length_pos (Nat.zero_lt_of_lt h.payload.2))
    rw [Cuts.fullParts_of_lt hpos h.payload.2] at hcount
    rw [List.length_map]
    omega
  · rw [List.map_map]
    exact hfits

/-- **The packet is there again**, with no offset, and with a checksum that verifies. -/
structure Restored (ps : List FragPbuf) (r : IpPacket) : Prop where
  payload : r.payload = packetPayload ps
  hdr : r.hdr =
    { packetHdr ps with len := pbufTotLen (ps.map FragPbuf.pbuf), offset := 0, chksum := r.hdr.chksum }
  chksum : r.hdr.inetChksum = 0

/-- What `ip_reass` returns for a fragment: the packet, if it is the last one. -/
def Returns (ps : List FragPbuf) (post : List Fragment) (f : Fragment) (t : Reass) : Prop :=
  ∃ o t', t.ipReass f.packet = some (o, t') ∧ (post ≠ [] → o = none) ∧ (post = [] → ∃ r, o = some r ∧ Restored ps r)

theorem Splittable.restored (h : Splittable env ps) (hr : ipFrag .customRef env ps fuel = some (.ok, s)) {r : IpPacket}
    (hwhole : Whole (s.sent.map Fragment.packet) r) : Restored ps r := by
  obtain ⟨hcuts, -, hok⟩ := h.cuts hr
  have hpayload : (s.sent.map Fragment.packet).flatMap IpPacket.payload = packetPayload ps := by
    rw [List.flatMap_map]
    exact hok.payload
  obtain ⟨hpl, hmore⟩ := h.payload
  have hlen : ipHlen + (packetPayload ps).length = pbufTotLen (ps.map FragPbuf.pbuf) := by
    rw [h.totals.totLen_eq]
    omega
  obtain ⟨f, rest, hsent⟩ := List.exists_cons_of_ne_nil (hcuts.ne_nil (List.ne_nil_of_length_pos (Nat.zero_lt_of_lt hmore)))
  have hhdr := hwhole.hdr f.packet (by rw [hsent]; rfl)
  rw [hpayload, hlen] at hhdr
  -- what the fragment has of its own is written over
  have hkept := (h.fragOk hr (hsent.trans (List.nil_append _).symm)).2.2.2.2.2
  have hsame : r.hdr = finalHdr (packetHdr ps) (pbufTotLen (ps.map FragPbuf.pbuf)) :=
    hhdr.trans (finalHdr_of_kept hkept _)
  have hlt := h.lt
  rw [← h.totals.totLen_eq] at hlt
  refine ⟨hwhole.payload.trans hpayload, eq_of_finalHdr hsame, ?_⟩
  rw [hsame]
  exact finalHdr_verifies _ (by omega) hlt

theorem splittable_exampleCut : Splittable exampleCutEnv exampleCut := by
  refine ⟨?_, ?_, ?_, ?_, ?_, ?_, ?_⟩ <;> decide

/-- What arrives in front of the last fragment: the other one, and then some of another datagram. -/
def inFront (s : FragState) (n : ℕ) : List Event :=
  (s.sent.take 1).map (fun f ↦ .input f.packet) ++ (List.range n).map fun i ↦ .input (fragment 9 (8 * i) true 8)

/-- What is seen of the call, and of a run after it: the number of pbufs, whose fragments these are, and, for the last
fragment, whether anything stands in its way, and whether it is held back. -/
def observed (P : Event → Reass → Prop) [∀ e t, Decidable (P e t)] (n : ℕ) (r : ErrT × FragState) :
    ErrT × List ℕ × Option (List Bool) :=
  (r.1, r.2.sent.map fun f ↦ f.pbufs.length, (runLabels (guardStep P anyStep) (inFront r.2 n) init).map fun t ↦
    decide (ownInputs (packetHdr exampleCut) (inFront r.2 n) = (r.2.sent.take 1).map Fragment.packet) ::
      (r.2.sent.drop 1).flatMap fun f ↦ [decide (Calm (packetHdr exampleCut) (.input f.packet) t),
        decide ((t.ipReass f.packet).map Prod.fst = some none)])

theorem exists_of_observed {P : Event → Reass → Prop} [∀ e t, Decidable (P e t)] {n : ℕ} {calm held : Bool}
    (hobs : (ipFrag .customRef exampleCutEnv exampleCut 25).map (observed P n) =
      some (.ok, [3, 2], some [true, calm, held])) :
    ∃ s t f g, ipFrag .customRef exampleCutEnv exampleCut 25 = some (.ok, s) ∧ s.sent = [f, g] ∧
      (s.sent.map fun f ↦ f.pbufs.length).sum ≤ ipReassMaxPbufs ∧
      runLabels (guardStep P anyStep) (inFront s n) init = some t ∧
      ownInputs (packetHdr exampleCut) (inFront s n) = [f].map Fragment.packet ∧
      (∀ p, Event.input p ∈ [] ++ inFront s n → 0 < pbufClen p.pbufs) ∧
      decide (Calm (packetHdr exampleCut) (.input g.packet) t) = calm ∧
      decide ((t.ipReass g.packet).map Prod.fst = some none) = held := by
  obtain ⟨⟨o, s⟩, hs, hobs⟩ := Option.map_eq_some_iff.1 hobs
  obtain ⟨rfl, hobs⟩ := Prod.mk.inj hobs
  obtain ⟨hpbufs, hobs⟩ := Prod.mk.inj hobs
  obtain ⟨t, ht, hobs⟩ := Option.map_eq_some_iff.1 hobs
  obtain ⟨f, rest, hsent, hf, hrest⟩ := List.map_eq_cons_iff.1 hpbufs
  obtain ⟨g, rest, rfl, -, hrest⟩ := List.map_eq_cons_iff.1 hrest
  obtain rfl := List.map_eq_nil_iff.1 hrest
  dsimp only at hsent hobs
  obtain ⟨hown, hobs⟩ := List.cons.inj hobs
  rw [hsent] at hobs
  obtain ⟨hcalm, hobs⟩ := List.cons.inj hobs
  have hsum : (s.sent.map fun f ↦ f.pbufs.length).sum = 5 := congrArg List.sum hpbufs
  refine ⟨s, t, f, g, hs, hsent, hsum.trans_le (by decide), ht, ?_, fun p hp ↦ ?_, hcalm, (List.cons.inj hobs).1⟩
  · rw [of_decide_eq_true hown, hsent]
    rfl
  · rw [List.nil_append, inFront, hsent, List.mem_append] at hp
    rcases hp with hp | hp
    · obtain ⟨x, hx, heq⟩ := List.mem_map.1 hp
      obtain rfl := List.mem_singleton.1 hx
      cases heq
      have hclen : pbufClen x.packet.pbufs = 3 := congrArg (fun n ↦ n % 2 ^ 8) hf
      rw [hclen]
      decide
    · obtain ⟨i, -, heq⟩ := List.mem_map.1 hp
      cases heq
      exact Nat.one_pos

/-- The datagram does not expire. -/
def Unexpired (h : IpHdr) : Event → Reass → Prop
  | .input _, _ => True
  | .tmr, s => ∀ d ∈ matching h s.datagrams, 0 < d.timer

instance (h : IpHdr) : (e : Event) → (s : Reass) → Decidable (Unexpired h e s)
  | .input _, _ => inferInstanceAs (Decidable True)
  | .tmr, _ => inferInstanceAs (Decidable (∀ _ ∈ _, _))

end Frag

end Lwip.Ipv4
