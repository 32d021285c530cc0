import LwipPoc.Ipv4.Header
import LwipPoc.Ipv4.IpAddr
import LwipPoc.Tcp.Pcb
import Mathlib.Logic.Relation

/-!
# The options of a segment

`tcp_parseopt` of `core/tcp_in.c`. It steps from option to option over the bytes that the data offset leaves
for them, by lengths that the peer has put there. `optNext` says how, as a fact about the bytes: an option that
makes no sense ends it. The bytes behind the fixed header are a function, since nothing but the bound in the
code keeps it from reading more of them than there are; all reads are recorded.

The length of an option is read **before it is known to be there**. So the code stays inside unless the walk
comes to an option with a length whose kind is the very last byte (`tcpParseopt_iff`).
-/

namespace Lwip.Tcp

open Ipv4 (readU16 htonl)

/-- What `tcp_parseopt` uses of a PCB. -/
structure OptPcb where
  mss : ℕ
  tsRecent : U32
  /-- `TF_TIMESTAMP`. -/
  timestamp : Bool
  tsLastacksent : SeqNum
  deriving DecidableEq, Repr

/-- The segment: the data offset, the bytes behind the fixed header, and the variables of `tcp_in.c`. -/
structure OptSeg where
  hdrlen : BitVec 4
  opts : ℕ → Byte
  /-- `TCP_SYN` in `flags`. -/
  syn : Bool
  seqno : SeqNum
  tcplen : ℕ

/-- A walk over the options: the PCB, and the offsets from `opts` that were read. -/
structure OptWalk where
  pcb : OptPcb
  reads : List ℕ
  deriving DecidableEq, Repr

variable (timestamps : Bool) (g : OptSeg) (maxC c : ℕ) (w : OptWalk)

/-- Reading bytes. -/
def OptWalk.read (is : List ℕ) : OptWalk := { w with reads := w.reads ++ is }

/-- `max_c`, the length of the options. -/
def OptSeg.optLen : ℕ := if 5 < g.hdrlen.toNat then (g.hdrlen.toNat - 5) <<< 2 else 0

/-- The timestamp of an option, as it lies in memory. -/
def OptSeg.tsval : U32 :=
  (g.opts (c + 2)).setWidth 32 ||| (g.opts (c + 3)).setWidth 32 <<< 8 |||
    (g.opts (c + 4)).setWidth 32 <<< 16 ||| (g.opts (c + 5)).setWidth 32 <<< 24

/-- What a timestamp is for. -/
def OptPcb.setTimestamp (p : OptPcb) : OptPcb :=
  if g.syn = true then { p with tsRecent := htonl (g.tsval c), timestamp := true }
  else if SeqBetween p.tsLastacksent g.seqno (g.seqno + BitVec.ofNat 32 g.tcplen) then
    { p with tsRecent := htonl (g.tsval c) }
  else p

/-- The switch of `tcp_parseopt`, for the option at `c`: what it does, and where the next option is, if it does
not return. -/
def optBody : OptWalk × Option ℕ :=
  let w := w.read [c]
  if g.opts c = 0x00 then (w, none)
  else if g.opts c = 0x01 then (w, some (toU16 (c + 1)))
  else if g.opts c = 0x02 then
    let w := w.read [c + 1]
    if g.opts (c + 1) ≠ 0x04 ∨ maxC < c + 0x04 then (w, none)
    else
      let w := w.read [c + 2, c + 3]
      let mss := readU16 g.opts (c + 2)
      ({ w with pcb.mss := if tcpMss < mss ∨ mss = 0 then tcpMss else mss }, some (toU16 (c + 0x04)))
  else if timestamps = true ∧ g.opts c = 0x08 then
    let w := w.read [c + 1]
    if g.opts (c + 1) ≠ 0x0a ∨ maxC < c + 0x0a then (w, none)
    else
      let w := w.read [c + 2, c + 3, c + 4, c + 5]
      ({ w with pcb := w.pcb.setTimestamp g c }, some (toU16 (c + 0x0a)))
  else
    let w := w.read [c + 1]
    if g.opts (c + 1) = 0 then (w, none)
    else (w.read [c + 1], some (toU16 (c + (g.opts (c + 1)).toNat)))

/-- The loop of `tcp_parseopt`. -/
def optLoop : ℕ → ℕ → OptWalk → Option OptWalk
  | 0, _, _ => none
  | fuel + 1, c, w =>
    if c < maxC then
      match optBody timestamps g maxC c w with
      | (w, none) => some w
      | (w, some c) => optLoop fuel c w
    else some w

/-- `tcp_parseopt`. -/
def tcpParseopt (fuel : ℕ) (p : OptPcb) : Option OptWalk :=
  if 5 < g.hdrlen.toNat then optLoop timestamps g g.optLen fuel 0 ⟨p, []⟩ else some ⟨p, []⟩

/-! ### What is in the bytes -/

/-- Where the option behind the one at `c` starts. -/
def optNext : Option ℕ :=
  if g.opts c = 0x00 then none
  else if g.opts c = 0x01 then some (c + 1)
  else if g.opts c = 0x02 then if g.opts (c + 1) ≠ 0x04 ∨ maxC < c + 0x04 then none else some (c + 0x04)
  else if timestamps = true ∧ g.opts c = 0x08 then
    if g.opts (c + 1) ≠ 0x0a ∨ maxC < c + 0x0a then none else some (c + 0x0a)
  else if g.opts (c + 1) = 0 then none else some (c + (g.opts (c + 1)).toNat)

/-- One option after the other. -/
def OptFollows (c c' : ℕ) : Prop := c < maxC ∧ optNext timestamps g maxC c = some c'

/-- An MSS option that is used. -/
def MssOption : Prop := c < maxC ∧ g.opts c = 0x02 ∧ g.opts (c + 1) = 0x04 ∧ c + 0x04 ≤ maxC

/-- The option at `c` has its length inside, or has none. -/
def LengthInside : Prop := c + 1 = maxC → g.opts c = 0x00 ∨ g.opts c = 0x01

/-- A maximum segment size that may be used. -/
def OptPcb.MssOk (p : OptPcb) : Prop := 1 ≤ p.mss ∧ p.mss ≤ tcpMss

/-! ### The walk -/

variable {timestamps : Bool} {g : OptSeg} {maxC c : ℕ} {w : OptWalk}

@[simp] theorem OptWalk.read_pcb (is : List ℕ) : (w.read is).pcb = w.pcb := rfl

@[simp] theorem OptWalk.read_reads (is : List ℕ) : (w.read is).reads = w.reads ++ is := rfl

@[simp] theorem OptPcb.setTimestamp_mss (p : OptPcb) : (p.setTimestamp g c).mss = p.mss := by
  rw [setTimestamp]
  split_ifs <;> rfl

/-- The walk makes progress. -/
theorem OptFollows.lt {c' : ℕ} (h : OptFollows timestamps g maxC c c') : c < c' := by
  obtain ⟨-, h⟩ := h
  have hlen : ∀ x : Byte, x ≠ 0 → 0 < x.toNat := fun x hx ↦ Nat.pos_of_ne_zero fun h0 ↦ hx (BitVec.eq_of_toNat_eq h0)
  rw [optNext] at h
  split_ifs at h with _ _ _ _ _ _ h0 <;> obtain rfl := Option.some.inj h
  · omega
  · omega
  · omega
  · have := hlen _ h0
    omega

/-- An option of one byte, of which nothing more is read. -/
theorem reads_inside_of_single (hc : c < maxC) (h : g.opts c = 0x00 ∨ g.opts c = 0x01) (rs : List ℕ) :
    (∀ i ∈ rs ++ [c], i < maxC) ↔ (∀ i ∈ rs, i < maxC) ∧ LengthInside g maxC c := by
  rw [List.forall_mem_append, List.forall_mem_singleton]
  exact and_congr_right fun _ ↦ ⟨fun _ _ ↦ h, fun _ ↦ hc⟩

/-- An option with a length: what is read of it is inside, if its length is. -/
theorem reads_inside (hc : c < maxC) (h0 : ¬g.opts c = 0x00) (h1 : ¬g.opts c = 0x01) (w : OptWalk) (is : List ℕ)
    (his : c + 1 < maxC → ∀ i ∈ is, i < maxC) :
    (∀ i ∈ (((w.read [c]).read [c + 1]).read is).reads, i < maxC) ↔
      (∀ i ∈ w.reads, i < maxC) ∧ LengthInside g maxC c := by
  have hinside : LengthInside g maxC c ↔ c + 1 < maxC :=
    ⟨fun h ↦ lt_of_le_of_ne hc fun heq ↦ not_or.2 ⟨h0, h1⟩ (h heq), fun hlt heq ↦ absurd heq hlt.ne⟩
  simp only [OptWalk.read_reads, List.forall_mem_append, List.forall_mem_singleton, hinside, and_assoc]
  exact and_congr_right fun _ ↦ ⟨fun h ↦ h.2.1, fun h ↦ ⟨hc, h, his h⟩⟩

/-- Of which nothing is read behind the length. -/
theorem reads_inside_length (hc : c < maxC) (h0 : ¬g.opts c = 0x00) (h1 : ¬g.opts c = 0x01) (w : OptWalk) :
    (∀ i ∈ ((w.read [c]).read [c + 1]).reads, i < maxC) ↔ (∀ i ∈ w.reads, i < maxC) ∧ LengthInside g maxC c := by
  have hall := reads_inside hc h0 h1 w [] fun _ ↦ nofun
  rwa [OptWalk.read_reads, List.append_nil] at hall

/-- **One option**: where the walk goes on, what is read, and what becomes of the segment size. -/
theorem optBody_spec (hc : c < maxC) (hmax : maxC ≤ 40) :
    (optBody timestamps g maxC c w).2 = optNext timestamps g maxC c ∧
    ((∀ i ∈ (optBody timestamps g maxC c w).1.reads, i < maxC) ↔
      (∀ i ∈ w.reads, i < maxC) ∧ LengthInside g maxC c) ∧
    ((optBody timestamps g maxC c w).1.pcb.MssOk ↔ MssOption g maxC c ∨ w.pcb.MssOk) := by
  have hbyte : (g.opts (c + 1)).toNat < 2 ^ 8 := (g.opts (c + 1)).isLt
  have hfits : ∀ n, n ≤ 40 + 2 ^ 8 → toU16 n = n := fun n hn ↦ Nat.mod_eq_of_lt (by omega)
  have hsame : ¬MssOption g maxC c → (w.pcb.MssOk ↔ MssOption g maxC c ∨ w.pcb.MssOk) := fun h ↦ (or_iff_right h).symm
  have hmss : ¬g.opts c = 0x02 → ¬MssOption g maxC c := fun h2 h ↦ h2 h.2.1
  rw [optBody, optNext]
  split_ifs with h0 h1 h2 hbad h8 hbad hlen
  · exact ⟨rfl, reads_inside_of_single hc (.inl h0) _, hsame (hmss (by rw [h0]; decide))⟩
  · exact ⟨congrArg some (hfits _ (by omega)), reads_inside_of_single hc (.inr h1) _, hsame (hmss (by rw [h1]; decide))⟩
  · refine ⟨rfl, reads_inside_length hc h0 h1 w, hsame fun h ↦ ?_⟩
    rcases hbad with hbad | hbad
    · exact hbad h.2.2.1
    · exact absurd h.2.2.2 (by omega)
  · rw [not_or, not_not] at hbad
    refine ⟨congrArg some (hfits _ (by omega)), reads_inside hc h0 h1 w _ fun _ ↦ ?_, ?_⟩
    · simp only [List.forall_mem_cons]
      exact ⟨by omega, by omega, nofun⟩
    · refine ⟨fun _ ↦ Or.inl ⟨hc, h2, hbad.1, by omega⟩, fun _ ↦ ?_⟩
      show 1 ≤ (if _ then _ else _ : ℕ) ∧ (if _ then _ else _ : ℕ) ≤ tcpMss
      split_ifs with hbig
      · exact ⟨by decide, le_rfl⟩
      · omega
  · exact ⟨rfl, reads_inside_length hc h0 h1 w, hsame (hmss h2)⟩
  · refine ⟨congrArg some (hfits _ (by omega)), reads_inside hc h0 h1 w _ fun _ ↦ ?_, ?_⟩
    · simp only [List.forall_mem_cons]
      exact ⟨by omega, by omega, by omega, by omega, nofun⟩
    · simp only [OptPcb.MssOk, OptPcb.setTimestamp_mss, OptWalk.read_pcb]
      exact hsame (hmss h2)
  · exact ⟨rfl, reads_inside_length hc h0 h1 w, hsame (hmss h2)⟩
  · refine ⟨congrArg some (hfits _ (by omega)), reads_inside hc h0 h1 w _ fun hlt ↦ ?_, hsame (hmss h2)⟩
    exact List.forall_mem_singleton.2 hlt

/-- The options from `c` on. -/
def OptFrom (timestamps : Bool) (g : OptSeg) (maxC : ℕ) : ℕ → ℕ → Prop :=
  Relation.ReflTransGen (OptFollows timestamps g maxC)

/-- A fact about the options is one about the first, and about those behind it. -/
theorem optFrom_iff {P : ℕ → Prop} {c' : ℕ} (h : OptFollows timestamps g maxC c c') :
    (∀ x, OptFrom timestamps g maxC c x → P x) ↔ P c ∧ ∀ x, OptFrom timestamps g maxC c' x → P x := by
  constructor
  · exact fun hall ↦ ⟨hall c .refl, fun x hx ↦ hall x (.head h hx)⟩
  · rintro ⟨hc, hrest⟩ x hx
    rcases hx.cases_head with rfl | ⟨d, hd, hdx⟩
    · exact hc
    · obtain rfl := Option.some.inj (h.2.symm.trans hd.2)
      exact hrest x hdx

/-- No option follows. -/
theorem optFrom_last_iff {P : ℕ → Prop} (h : ∀ c', ¬OptFollows timestamps g maxC c c') :
    (∀ x, OptFrom timestamps g maxC c x → P x) ↔ P c := by
  refine ⟨fun hall ↦ hall c .refl, fun hc x hx ↦ ?_⟩
  rcases hx.cases_head with rfl | ⟨d, hd, -⟩
  · exact hc
  · exact absurd hd (h d)

/-- No option follows behind the area. -/
theorem not_optFollows_of_le (h : maxC ≤ c) (c' : ℕ) : ¬OptFollows timestamps g maxC c c' :=
  fun hc ↦ absurd hc.1 (not_lt.2 h)

/-- **The loop** ends, stays inside if all the lengths are, and leaves a segment size that may be used if it
comes to an MSS option or found one. -/
theorem optLoop_spec (hmax : maxC ≤ 40) (n : ℕ) (hn : maxC - c ≤ n) (w : OptWalk) :
    ∃ w', (∀ fuel, n < fuel → optLoop timestamps g maxC fuel c w = some w') ∧
      ((∀ i ∈ w'.reads, i < maxC) ↔
        (∀ i ∈ w.reads, i < maxC) ∧ ∀ x, OptFrom timestamps g maxC c x → LengthInside g maxC x) ∧
      (w'.pcb.MssOk ↔ ¬(∀ x, OptFrom timestamps g maxC c x → ¬MssOption g maxC x) ∨ w.pcb.MssOk) := by
  -- behind the area
  have hend : ∀ {c : ℕ} (w : OptWalk) (m : ℕ), maxC ≤ c → ∃ w', (∀ fuel, m < fuel → optLoop timestamps g maxC fuel c w = some w') ∧
      ((∀ i ∈ w'.reads, i < maxC) ↔
        (∀ i ∈ w.reads, i < maxC) ∧ ∀ x, OptFrom timestamps g maxC c x → LengthInside g maxC x) ∧
      (w'.pcb.MssOk ↔ ¬(∀ x, OptFrom timestamps g maxC c x → ¬MssOption g maxC x) ∨ w.pcb.MssOk) := by
    intro c w m hle
    refine ⟨w, fun fuel hfuel ↦ ?_, ?_, ?_⟩
    · obtain ⟨k, rfl⟩ := Nat.exists_eq_succ_of_ne_zero (Nat.zero_lt_of_lt hfuel).ne'
      rw [optLoop, if_neg (not_lt.2 hle)]
    · rw [optFrom_last_iff (not_optFollows_of_le hle)]
      exact (and_iff_left fun heq ↦ by omega).symm
    · rw [optFrom_last_iff (not_optFollows_of_le hle)]
      exact (or_iff_right (not_not.2 fun h ↦ absurd h.1 (not_lt.2 hle))).symm
  induction n generalizing c w with
  | zero => exact hend w 0 (by omega)
  | succ n ih =>
    rcases Nat.lt_or_ge c maxC with hc | hle
    · obtain ⟨hnext, hreads, hmss⟩ : (optBody timestamps g maxC c w).2 = optNext timestamps g maxC c ∧ _ ∧ _ :=
        optBody_spec hc hmax
      rcases hbody : optBody timestamps g maxC c w with ⟨w₁, - | c'⟩ <;> rw [hbody] at hnext hreads hmss
      · have hlast : ∀ c', ¬OptFollows timestamps g maxC c c' := fun c' h ↦ by
          rw [OptFollows, ← hnext] at h
          cases h.2
        refine ⟨w₁, fun fuel hfuel ↦ ?_, ?_, ?_⟩
        · obtain ⟨k, rfl⟩ := Nat.exists_eq_succ_of_ne_zero (Nat.zero_lt_of_lt hfuel).ne'
          rw [optLoop, if_pos hc, hbody]
        · rwa [optFrom_last_iff hlast]
        · rwa [optFrom_last_iff hlast, not_not]
      · have hfollows : OptFollows timestamps g maxC c c' := ⟨hc, hnext.symm⟩
        have hlt := hfollows.lt
        obtain ⟨w', hrun, hreads', hmss'⟩ := ih (c := c') (by omega) w₁
        refine ⟨w', fun fuel hfuel ↦ ?_, ?_, ?_⟩
        · obtain ⟨k, rfl⟩ := Nat.exists_eq_succ_of_ne_zero (Nat.zero_lt_of_lt hfuel).ne'
          rw [optLoop, if_pos hc, hbody]
          exact hrun k (by omega)
        · rw [hreads', hreads, optFrom_iff hfollows, and_assoc]
        · rw [hmss', hmss, optFrom_iff hfollows, not_and_or, not_not]
          exact or_left_comm.trans or_assoc.symm
    · exact hend w _ hle

theorem OptSeg.optLen_le (g : OptSeg) : g.optLen ≤ 40 := by
  have hlt : g.hdrlen.toNat < 2 ^ 4 := g.hdrlen.isLt
  rw [optLen, Nat.shiftLeft_eq]
  split_ifs <;> omega

theorem tcpParseopt_eq {fuel : ℕ} (hfuel : 0 < fuel) (p : OptPcb) :
    tcpParseopt timestamps g fuel p = optLoop timestamps g g.optLen fuel 0 ⟨p, []⟩ := by
  rw [tcpParseopt]
  split_ifs with h
  · rfl
  · obtain ⟨k, rfl⟩ := Nat.exists_eq_succ_of_ne_zero hfuel.ne'
    rw [optLoop, OptSeg.optLen, if_neg h, if_neg (lt_irrefl 0)]

/-- **The walk ends, reads the bytes of the options only, and leaves a segment size between 1 and `TCP_MSS`**, if
and only if no option with a length that it comes to starts on the last byte, and there was such a segment size
before or there is an MSS option. -/
theorem tcpParseopt_iff (timestamps : Bool) (g : OptSeg) (p : OptPcb) :
    (∃ w, (∀ fuel, 40 < fuel → tcpParseopt timestamps g fuel p = some w) ∧
      (∀ i ∈ w.reads, i < g.optLen) ∧ w.pcb.MssOk) ↔
    (∀ c, OptFrom timestamps g g.optLen 0 c → LengthInside g g.optLen c) ∧
      ((∃ c, OptFrom timestamps g g.optLen 0 c ∧ MssOption g g.optLen c) ∨ p.MssOk) := by
  obtain ⟨w, hrun, hreads, hmss⟩ :
      ∃ w, (∀ fuel, 40 < fuel → optLoop timestamps g g.optLen fuel 0 ⟨p, []⟩ = some w) ∧ _ ∧ _ :=
    optLoop_spec g.optLen_le 40 (by have := g.optLen_le; omega) ⟨p, []⟩
  rw [and_iff_right (show ∀ i ∈ ([] : List ℕ), i < g.optLen from nofun)] at hreads
  rw [← hreads, show (∃ c, OptFrom timestamps g g.optLen 0 c ∧ MssOption g g.optLen c) ↔
    ¬∀ c, OptFrom timestamps g g.optLen 0 c → ¬MssOption g g.optLen c by push Not; rfl, ← hmss]
  have heq : ∀ fuel, 40 < fuel → tcpParseopt timestamps g fuel p = some w := fun fuel hfuel ↦
    (tcpParseopt_eq (by omega) p).trans (hrun fuel hfuel)
  constructor
  · rintro ⟨w', hrun', h⟩
    obtain rfl := Option.some.inj ((heq 41 (by decide)).symm.trans (hrun' 41 (by decide)))
    exact h
  · exact fun h ↦ ⟨w, heq, h⟩

/-- Four bytes of options, the last of which is the kind of an option with a length. -/
theorem tcpParseopt_truncated : ¬∃ w, (∀ fuel, 40 < fuel →
      tcpParseopt false ⟨6, fun i ↦ if i < 3 then 0x01 else 0x03, false, 0, 0⟩ fuel ⟨536, 0, false, 0⟩ = some w) ∧
    (∀ i ∈ w.reads, i < OptSeg.optLen ⟨6, fun i ↦ if i < 3 then 0x01 else 0x03, false, 0, 0⟩) ∧ w.pcb.MssOk := by
  rintro ⟨w, hrun, hreads, -⟩
  have hwalk : (tcpParseopt false ⟨6, fun i ↦ if i < 3 then 0x01 else 0x03, false, 0, 0⟩ 41 ⟨536, 0, false, 0⟩).map
      OptWalk.reads = some [0, 1, 2, 3, 4, 4] := by decide
  rw [hrun 41 (by decide), Option.map_some, Option.some.injEq] at hwalk
  exact absurd (hreads 4 (by rw [hwalk]; decide)) (by decide)

end Lwip.Tcp
