import LwipPoc.Tcp.TxRun
import LwipPoc.Tcp.TxSpace

/-!
# Where a segment in memory starts

The stream is what has been given to the connection, one unit for each sequence number: the bytes that `tcp_write` has
taken, and the flags that are segments of their own. **The first unit of every segment is the one that its header
says** (`TxPcb.Traced`), whatever `tcp_write` has put behind it since then. Nothing is put behind a flag without data:
`tcp_write` chains nothing to an empty segment, and there is no room behind the last pbuf of one.
-/

namespace Lwip.Tcp.Tx

open Lwip.Core (PbufLayer PbufType)

/-- What has a sequence number. -/
inductive TxUnit
  | byte (b : Byte)
  | syn
  | fin
  deriving DecidableEq, Repr

/-- A flag without data. -/
def flagUnit (flags : BitVec 6) : TxUnit := if flags &&& tcpFin ≠ 0 then .fin else .syn

/-- The first unit of a segment with `data`. -/
def TxSeg.firstUnit (seg : TxSeg) (data : List Byte) : TxUnit :=
  (data.head?.map TxUnit.byte).getD (flagUnit seg.tcphdr.flags)

/-- The number of bytes behind the header and the options. -/
def TxSeg.dataLen (seg : TxSeg) : ℕ := (txBytes seg.p).length - (frontLen seg.hdrAt seg.p + (tcpHlen + seg.optLen))

variable {cfg : TxConf} {mem : ℕ → Option ℕ} {s s' : TxPcb} {c : WriteCall} {m m' : Pools} {seg seg' x : TxSeg}
  {data more front hdr : List Byte} {first : SeqNum} {stream v : List TxUnit} {q : List TxSeg} {flag : BitVec 6}

theorem TxSeg.Laid.dataLen_eq (h : seg.Laid front hdr data) : seg.dataLen = data.length := by
  rw [TxSeg.dataLen, h.headed.frontLen_eq, h.bytes, List.length_append, List.length_append, h.length_hdr]
  omega

/-- **A segment that starts where its header says.** -/
structure TxSeg.Placed (cfg : TxConf) (first : SeqNum) (stream : List TxUnit) (seg : TxSeg) (data : List Byte) :
    Prop where
  good : seg.Good cfg False data
  flags : data = [] → seg.tcphdr.flags &&& (tcpSyn ||| tcpFin) ≠ 0
  place : ∃ i, seg.tcphdr.seqno = seqAt first i ∧ stream[i]? = some (seg.firstUnit data)

/-- **The invariant.** The stream starts at `first`. -/
structure TxPcb.Traced (cfg : TxConf) (first : SeqNum) (stream : List TxUnit) (s : TxPcb) : Prop where
  segs : ∀ seg ∈ s.unsent ++ s.unacked, ∃ data, seg.Placed cfg first stream data
  sndLbb : s.sndLbb = seqAt first stream.length
  room : s.unsentOversize ≠ 0 → ∃ last, s.unsent.getLast? = some last ∧ last.dataLen ≠ 0
  sndWndMax : s.sndWndMax < 2 ^ 16
  sndBuf : s.sndBuf < 2 ^ 15

/-- The stream has grown. -/
theorem TxSeg.Placed.grow (h : seg.Placed cfg first stream data) (v : List TxUnit) :
    seg.Placed cfg first (stream ++ v) data := by
  obtain ⟨i, hseqno, hunit⟩ := h.place
  have hlt := (List.getElem?_eq_some_iff.1 hunit).1
  exact ⟨h.good, h.flags, i, hseqno, by rw [List.getElem?_append_left hlt, hunit]⟩

theorem TxPcb.Traced.grow (h : s.Traced cfg first stream) (v : List TxUnit)
    (hsegs : ∀ seg ∈ s'.unsent ++ s'.unacked, seg ∈ s.unsent ++ s.unacked ∨
      ∃ data, seg.Placed cfg first (stream ++ v) data)
    (hlbb : s'.sndLbb = s.sndLbb + BitVec.ofNat 32 v.length)
    (hroom : s'.unsentOversize ≠ 0 → ∃ last, s'.unsent.getLast? = some last ∧ last.dataLen ≠ 0)
    (hwnd : s'.sndWndMax = s.sndWndMax) (hbuf : s'.sndBuf ≤ s.sndBuf) : s'.Traced cfg first (stream ++ v) := by
  refine ⟨fun seg hseg ↦ ?_, ?_, hroom, hwnd ▸ h.sndWndMax, hbuf.trans_lt h.sndBuf⟩
  · rcases hsegs seg hseg with hold | hnew
    · obtain ⟨data, hdata⟩ := h.segs seg hold
      exact ⟨data, hdata.grow v⟩
    · exact hnew
  · rw [hlbb, h.sndLbb, List.length_append, seqAt_add]

/-- Nothing is given to the connection. -/
theorem TxPcb.Traced.keep (h : s.Traced cfg first stream)
    (hsegs : ∀ seg ∈ s'.unsent ++ s'.unacked, seg ∈ s.unsent ++ s.unacked ∨ ∃ data, seg.Placed cfg first stream data)
    (hlbb : s'.sndLbb = s.sndLbb)
    (hroom : s'.unsentOversize ≠ 0 → ∃ last, s'.unsent.getLast? = some last ∧ last.dataLen ≠ 0)
    (hwnd : s'.sndWndMax = s.sndWndMax) (hbuf : s'.sndBuf ≤ s.sndBuf) : s'.Traced cfg first stream := by
  have hgrown : s'.Traced cfg first (stream ++ []) :=
    h.grow [] (by rwa [List.append_nil]) (by rw [hlbb]; exact (BitVec.add_zero _).symm) hroom hwnd hbuf
  rwa [List.append_nil] at hgrown

/-- The last segment is the one that it was, or there is no room behind it. -/
theorem TxPcb.Traced.room_of (h : s.Traced cfg first stream)
    (hlast : s'.unsentOversize = 0 ∨ s'.unsentOversize = s.unsentOversize ∧ s'.unsent.getLast? = s.unsent.getLast?)
    (hne : s'.unsentOversize ≠ 0) : ∃ last, s'.unsent.getLast? = some last ∧ last.dataLen ≠ 0 := by
  rcases hlast with hzero | ⟨hsame, hlast⟩
  · exact absurd hzero hne
  · rw [hlast]
    exact h.room (hsame ▸ hne)

/-! ### Segments that are changed -/

theorem or_and_or (flags flag other : BitVec 6) : (flags ||| flag) &&& other = flags &&& other ||| flag &&& other :=
  BitVec.eq_of_getLsbD_eq fun i _ ↦ by simp [Bool.and_or_distrib_right]

/-- A flag, which is not a `FIN` where there is no data. -/
theorem TxSeg.Placed.setFlag (h : seg.Placed cfg first stream data) (hflag : data = [] → flag &&& tcpFin = 0) :
    (seg.setFlag flag).Placed cfg first stream data := by
  obtain ⟨i, hseqno, hunit⟩ := h.place
  refine ⟨h.good.setFlag flag, fun hnil ↦ ?_, i, hseqno, ?_⟩
  · show (seg.tcphdr.flags ||| flag) &&& (tcpSyn ||| tcpFin) ≠ 0
    rw [or_and_or]
    exact fun hzero ↦ h.flags hnil (BitVec.or_eq_zero_iff.1 hzero).1
  · rw [hunit, TxSeg.firstUnit, TxSeg.firstUnit]
    rcases hdata : data with - | ⟨b, bs⟩
    · rw [List.head?_nil, Option.map_none, Option.getD_none, Option.getD_none, flagUnit, flagUnit]
      show _ = some (if (seg.tcphdr.flags ||| flag) &&& tcpFin ≠ 0 then TxUnit.fin else .syn)
      simp only [or_and_or, hflag hdata, BitVec.ofNat_eq_ofNat, BitVec.or_zero]
    · rfl

/-- A segment with the same header, and more data behind the data. -/
theorem TxSeg.Placed.extend (h : seg.Placed cfg first stream data) (hgood : seg'.Good cfg False (data ++ more))
    (hheader : SameHeader seg seg') (hmore : data = [] → more = []) : seg'.Placed cfg first stream (data ++ more) := by
  obtain ⟨i, hseqno, hunit⟩ := h.place
  refine ⟨hgood, fun hnil ↦ ?_, i, by rw [hheader.tcphdr, hseqno], ?_⟩
  · rw [hheader.tcphdr]
    exact h.flags (List.append_eq_nil_iff.1 hnil).1
  · rw [hunit, TxSeg.firstUnit, TxSeg.firstUnit, hheader.tcphdr]
    rcases hdata : data with - | ⟨b, bs⟩
    · rw [hmore hdata, List.append_nil]
    · rfl

/-- A segment that is sent. -/
theorem Sent.placed {o : OutCall} {k : Option TxPacket} (h : Sent cfg o seg data seg' k)
    (hp : seg.Placed cfg first stream data) : seg'.Placed cfg first stream data := by
  obtain ⟨-, -, -, hseqno, hflags⟩ := h.fixed
  obtain ⟨i, hi, hunit⟩ := hp.place
  exact ⟨h.good hp.good, by rw [hflags]; exact hp.flags, i, by rw [hseqno, hi], by
    rw [hunit, TxSeg.firstUnit, TxSeg.firstUnit, hflags]⟩

/-! ### Flags -/

/-- **A flag** is a unit of its own. -/
theorem tcpEnqueueFlags_traced {flags : BitVec 6} {r : Err} (h : tcpEnqueueFlags cfg mem s flags m = some (r, s', m'))
    (ht : s.Traced cfg first stream) :
    s'.Traced cfg first stream ∧ s'.sndLbb = s.sndLbb ∨
      s'.Traced cfg first (stream ++ [flagUnit flags]) ∧ s'.sndLbb = s.sndLbb + 1 := by
  have hsame : TxPcb.Traced cfg first stream { s with nagleMemErr := true } :=
    ht.keep (fun x hx ↦ .inl hx) rfl ht.room rfl le_rfl
  simp only [tcpEnqueueFlags] at h
  split at h
  · cases h
  next hflags =>
  split at h
  · cases h
    exact .inl ⟨hsame, rfl⟩
  split at h
  · cases h
    exact .inl ⟨ht, rfl⟩
  split at h
  · cases h
    exact .inl ⟨hsame, rfl⟩
  next p m₁ hp =>
  obtain ⟨⟨r', m₂⟩, hseg, h⟩ := Option.bind_eq_some_iff.1 h
  rcases r' with - | seg <;> dsimp only at h
  · cases h
    exact .inl ⟨hsame, rfl⟩
  split at h
  · cases h
    have hgood : seg.Good cfg False [] := tcpCreateSegment_good hp hseg
    obtain ⟨a, p', -, rfl⟩ := tcpCreateSegment_some hseg
    refine .inr ⟨ht.grow _ (fun x hx ↦ ?_) rfl (fun hne ↦ absurd rfl hne) rfl (Nat.sub_le _ _), rfl⟩
    rcases List.mem_append.1 hx with hx | hx
    · rcases List.mem_append.1 hx with hx | hx
      · exact .inl (List.mem_append_left _ hx)
      · obtain rfl := List.mem_singleton.1 hx
        exact .inr ⟨[], hgood, fun _ ↦ hflags, stream.length, ht.sndLbb, List.getElem?_concat_length⟩
    · exact .inl (List.mem_append_right _ hx)
  · cases h

theorem getLast?_mapLast (f : TxSeg → TxSeg) (q : List TxSeg) : (mapLast f q).getLast? = q.getLast?.map f := by
  rw [mapLast]
  split
  next hnone =>
    rw [hnone]
    rfl
  next last hlast => rw [hlast, List.getLast?_concat, Option.map_some]

/-- **`tcp_send_fin`**: the `FIN` goes with data, or is a unit of its own. -/
theorem tcpSendFin_traced {r : Err} (h : tcpSendFin cfg mem s m = some (r, s', m')) (ht : s.Traced cfg first stream) :
    s'.Traced cfg first stream ∧ s'.sndLbb = s.sndLbb ∨
      s'.Traced cfg first (stream ++ [.fin]) ∧ s'.sndLbb = s.sndLbb + 1 := by
  rw [tcpSendFin] at h
  split at h
  next last hlast =>
    split at h
    next hplain =>
      cases h
      refine .inl ⟨ht.keep (fun x hx ↦ ?_) rfl (fun hne ↦ ?_) rfl le_rfl, rfl⟩
      · rcases List.mem_append.1 hx with hx | hx
        · rw [mapLast, hlast] at hx
          rcases List.mem_append.1 hx with hx | hx
          · exact .inl (List.mem_append_left _ (List.dropLast_subset _ hx))
          · obtain rfl := List.mem_singleton.1 hx
            obtain ⟨data, hdata⟩ := ht.segs last (List.mem_append_left _ (List.mem_of_getLast? hlast))
            -- a segment without data has a flag
            refine .inr ⟨data, hdata.setFlag fun hnil ↦ absurd ?_ (hdata.flags hnil)⟩
            have hflags : ∀ x : BitVec 6, x &&& (tcpSyn ||| tcpFin ||| 0x04) = 0 → x &&& (tcpSyn ||| tcpFin) = 0 := by
              decide
            exact hflags _ hplain
        · exact .inl (List.mem_append_right _ hx)
      · obtain ⟨last', hlast', hdata⟩ := ht.room hne
        exact ⟨last'.setFlag tcpFin, by rw [getLast?_mapLast, hlast']; rfl, hdata⟩
    next => exact tcpEnqueueFlags_traced h ht
  next => exact tcpEnqueueFlags_traced h ht

/-! ### `tcp_write` -/

/-- A call without data leaves the room as it is. -/
theorem extendTail_empty {s₁ : TxPcb} {v : WriteVars} (h : extendTail cfg mem s c m = some (some (s₁, v), m'))
    (hempty : c.arg.length = 0) : v.oversize = s.unsentOversize := by
  rw [extendTail] at h
  split at h
  · split_ifs at h with hover
    cases h
    exact hover.symm
  · have hused : s.oversizeUsed c.arg.length = 0 := by
      rw [TxPcb.oversizeUsed, hempty, if_neg (Nat.not_lt_zero _)]
    dsimp only at h
    rw [hused, hempty] at h
    split_ifs at h with hcheck hchain
    · exact absurd hchain.1 (Nat.lt_irrefl 0)
    · cases h
      rfl

/-- **Nothing is put behind a segment without data.** -/
theorem TailPlan.pos_eq_zero {s₁ : TxPcb} {v : WriteVars} {last : TxSeg} (h : TailPlan cfg s c s₁ v last)
    (hlaid : last.Laid front hdr []) (hover : s.unsentOversize = 0) : v.pos = 0 := by
  have hused : s.oversizeUsed c.arg.length = 0 := by
    rw [TxPcb.oversizeUsed, hover]
    split_ifs <;> omega
  have hlen : last.len = 0 := hlaid.len
  obtain ⟨-, hpos⟩ := h.plain fun hchain ↦ absurd hchain.2.2 (by rw [hlen]; exact Nat.lt_irrefl 0)
  rw [hpos, h.used, hused]

/-- A new segment has data, and room is behind its data. -/
theorem NewSeg.placed {i : ℕ} (h : NewSeg cfg s c i (piece cfg s c i) seg) (hi : i < c.arg.length)
    (hmax : 0 < s.maxLen cfg) (hlbb : s.sndLbb = seqAt first stream.length) :
    seg.Placed cfg first (stream ++ c.arg.map .byte) (piece cfg s c i) ∧ seg.dataLen ≠ 0 := by
  have hlen : (piece cfg s c i).length = min (s.maxLen cfg) (c.arg.length - i) := length_piece
  have hlt := c.length_lt
  have hne : piece cfg s c i ≠ [] := List.ne_nil_of_length_pos (by omega)
  have hhead : (piece cfg s c i).head? = some c.arg[i] := by
    rw [piece, List.head?_take, if_neg, List.head?_drop, List.getElem?_eq_getElem hi]
    intro hzero
    rw [piece, hzero, List.take_zero, List.length_nil] at hlen
    omega
  refine ⟨⟨h.good (by omega) False.elim, fun hnil ↦ absurd hnil hne, stream.length + i, ?_, ?_⟩, ?_⟩
  · rw [h.tcphdr, hlbb, seqAt_add]
  · rw [List.getElem?_append_right (Nat.le_add_right _ _), Nat.add_sub_cancel_left, List.getElem?_map,
      List.getElem?_eq_getElem hi, TxSeg.firstUnit, hhead]
    rfl
  · rw [h.laid.dataLen_eq]
    omega

theorem Pushed.getLast? {q' : List TxSeg} (h : Pushed q q') {last : TxSeg} (hlast : q.getLast? = some last) :
    ∃ last', q'.getLast? = some last' ∧ last'.dataLen = last.dataLen := by
  rcases h with rfl | rfl
  · exact ⟨last, hlast, rfl⟩
  · exact ⟨last.setFlag tcpPsh, by rw [getLast?_mapLast, hlast]; rfl, rfl⟩

/-- **What was the last segment** starts as before. -/
theorem TailPlan.placed {s₁ : TxPcb} {v : WriteVars} {last last' mid : TxSeg} {y : BitVec 16}
    (h : TailPlan cfg s c s₁ v last) (ht : s.Traced cfg first stream)
    (hmid : commitFill cfg (c.arg.take v.oversizeUsed) { last with oversizeLeft := y } = some mid)
    (hlast' : (v.concat.map fun k ↦ commitConcat cfg k mid).getD (some mid) = some last') :
    (∃ data, last'.Placed cfg first stream data) ∧
      (last.dataLen ≠ 0 ∨ v.pos ≠ 0 → last'.dataLen ≠ 0) := by
  obtain ⟨data, hdata⟩ := ht.segs last (List.mem_append_left _ (List.mem_of_getLast? h.getLast))
  have hgood := h.good False.elim hmid hlast' hdata.good False.elim
  obtain ⟨front, hdr, hlaid⟩ := hdata.good.laid
  obtain ⟨front', hdr', hlaid'⟩ := hgood.laid
  refine ⟨⟨_, hdata.extend hgood (h.done hmid hlast').header fun hnil ↦ ?_⟩, fun hne ↦ ?_⟩
  · have hzero : last.dataLen = 0 := by rw [hlaid.dataLen_eq, hnil]; rfl
    have hover : s.unsentOversize = 0 := by
      by_contra hover
      obtain ⟨x, hx, hxne⟩ := ht.room hover
      exact hxne (Option.some.inj (hx.symm.trans h.getLast) ▸ hzero)
    rw [h.pos_eq_zero (hnil ▸ hlaid) hover, List.take_zero]
  · rw [hlaid'.dataLen_eq, List.length_append, List.length_take_of_le h.le.2]
    rw [hlaid.dataLen_eq] at hne
    omega

/-- **The room behind the last segment**: the last segment has data. -/
theorem Writes.room {v : WriteVars} {new : List TxSeg} (h : Writes cfg mem s c m s' v q new)
    (ht : s.Traced cfg first stream) (hnew : NewSegs cfg s c v.pos new) (hne : s'.unsentOversize ≠ 0) :
    ∃ last, s'.unsent.getLast? = some last ∧ last.dataLen ≠ 0 := by
  suffices hlast : ∃ last, (q ++ new).getLast? = some last ∧ last.dataLen ≠ 0 by
    obtain ⟨last, hlast, hdata⟩ := hlast
    obtain ⟨last', hlast', heq⟩ := h.unsent.getLast? hlast
    exact ⟨last', hlast', heq ▸ hdata⟩
  rcases Nat.lt_or_ge v.pos c.arg.length with hlt | hge
  · obtain ⟨hnonempty, hmax⟩ := h.new_ne_nil hlt
    obtain ⟨x, hx⟩ := List.getLast?_isSome.2 hnonempty |> Option.isSome_iff_exists.1
    obtain ⟨i, hi, hseg⟩ := hnew.of_mem (List.mem_of_getLast? hx)
    exact ⟨x, by rw [List.getLast?_append_of_ne_nil _ hnonempty, hx], (hseg.placed hi hmax ht.sndLbb).2⟩
  · rw [h.new_eq_nil hge, List.append_nil]
    obtain ⟨s₁, m₁, r, m₂, htail, hloop, -, -, hover, -⟩ := h.phases
    rw [newTxSegs, if_pos hge] at hloop
    cases hloop
    rw [hover] at hne
    -- without anything to write the room is what it was
    have hroom : c.arg.length = 0 → ∃ last, s.unsent.getLast? = some last ∧ last.dataLen ≠ 0 := fun hempty ↦
      ht.room (extendTail_empty htail hempty ▸ hne)
    rcases h.tail with ⟨hnil, -, -, hpos⟩ | ⟨s₁, last, y, mid, last', hplan, hmid, hlast', rfl⟩
    · obtain ⟨last, hlast, -⟩ := hroom (by omega)
      rw [hnil] at hlast
      cases hlast
    · refine ⟨last', List.getLast?_concat, (hplan.placed ht hmid hlast').2 ?_⟩
      rcases Nat.eq_zero_or_pos c.arg.length with hempty | hpos
      · obtain ⟨x, hx, hdata⟩ := hroom hempty
        exact .inl (Option.some.inj (hx.symm.trans hplan.getLast) ▸ hdata)
      · exact .inr (by omega)

/-- **`tcp_write`** gives its bytes to the connection. -/
theorem tcpWrite_traced {r : Err} (h : tcpWrite cfg mem s c m = some (r, s', m')) (ht : s.Traced cfg first stream) :
    s'.Traced cfg first stream ∧ s'.sndLbb = s.sndLbb ∨
      s'.Traced cfg first (stream ++ c.arg.map .byte) ∧ s'.sndLbb = s.sndLbb + BitVec.ofNat 32 c.arg.length := by
  rcases tcpWrite_cases h with rfl | ⟨-, rfl, -⟩ | ⟨-, rfl, -⟩
  · obtain ⟨v, q, new, hw⟩ := tcpWrite_ok h
    have hle := hw.length_le
    have hbuf := ht.sndBuf
    have hopt := TxPcb.optlen_le cfg s
    have hpiece : ∀ pos, (piece cfg s c pos).length ≤ c.arg.length := fun pos ↦ by
      rw [piece, List.length_take, List.length_drop]
      omega
    have hnew : NewSegs cfg s c v.pos new := hw.newSegs ht.sndWndMax fun pos ↦ by
      have := hpiece pos
      omega
    have hall : ∀ x ∈ q ++ new, ∃ data, x.Placed cfg first (stream ++ c.arg.map .byte) data := by
      intro x hx
      rcases List.mem_append.1 hx with hx | hx
      · rcases hw.tail with ⟨-, -, rfl, -⟩ | ⟨s₁, last, y, mid, last', hplan, hmid, hlast', rfl⟩
        · cases hx
        rcases List.mem_append.1 hx with hx | hx
        · obtain ⟨data, hdata⟩ := ht.segs x (List.mem_append_left _ (List.dropLast_subset _ hx))
          exact ⟨data, hdata.grow _⟩
        · obtain rfl := List.mem_singleton.1 hx
          obtain ⟨data, hdata⟩ := (hplan.placed ht hmid hlast').1
          exact ⟨data, hdata.grow _⟩
      · obtain ⟨i, hi, hseg⟩ := hnew.of_mem hx
        have hmax : 0 < s.maxLen cfg := by
          refine (hw.new_ne_nil ?_).2
          by_contra hge
          rw [hw.new_eq_nil (not_lt.1 hge)] at hx
          cases hx
        exact ⟨_, (hseg.placed hi hmax ht.sndLbb).1⟩
    obtain ⟨-, -, -, -, -, -, -, hwnd⟩ := hw.fixed
    refine .inr ⟨ht.grow _ (fun x hx ↦ ?_) ?_ (hw.room ht hnew) hwnd (by rw [hw.sndBuf]; omega), hw.sndLbb⟩
    · rcases List.mem_append.1 hx with hx | hx
      · obtain ⟨seg, hseg, hflag⟩ := hw.unsent.of_mem hx
        obtain ⟨data, hdata⟩ := hall seg hseg
        rcases hflag with rfl | rfl
        · exact .inr ⟨data, hdata⟩
        · exact .inr ⟨data, hdata.setFlag fun _ ↦ rfl⟩
      · exact .inl (List.mem_append_right _ (hw.unacked ▸ hx))
    · rw [hw.sndLbb, List.length_map]
  · exact .inl ⟨ht.keep (fun x hx ↦ .inl hx) rfl ht.room rfl le_rfl, rfl⟩
  · exact .inl ⟨ht, rfl⟩

/-! ### Moving and freeing -/

theorem tcpRexmitRto_traced (ht : s.Traced cfg first stream) : (tcpRexmitRto s).Traced cfg first stream := by
  refine ht.keep (fun x hx ↦ .inl ?_) rfl (fun hne ↦ ?_) rfl le_rfl
  · rw [tcpRexmitRto, List.append_nil] at hx
    exact List.mem_append.2 (List.mem_append.1 hx).symm
  · obtain ⟨last, hlast, hdata⟩ := ht.room hne
    exact ⟨last, by rw [tcpRexmitRto, List.getLast?_append, hlast]; rfl, hdata⟩

theorem getLast?_insertSorted (hne : q.dropWhile (fun x ↦ SeqLt x.tcphdr.seqno seg.tcphdr.seqno) ≠ []) :
    (insertSorted seg q).getLast? = q.getLast? := by
  conv_rhs => rw [← List.takeWhile_append_dropWhile (p := fun x : TxSeg ↦ SeqLt x.tcphdr.seqno seg.tcphdr.seqno) (l := q)]
  rw [insertSorted, List.getLast?_append_of_ne_nil _ (List.cons_ne_nil _ _), List.getLast?_append_of_ne_nil _ hne,
    List.getLast?_cons_of_ne_nil hne]

theorem tcpRexmit_traced (ht : s.Traced cfg first stream) : (tcpRexmit s).Traced cfg first stream := by
  rw [tcpRexmit]
  split
  · exact ht
  next seg rest hunacked =>
  have hall : ∀ x ∈ seg :: rest, x ∈ s.unsent ++ s.unacked := fun x hx ↦ List.mem_append_right _ (hunacked ▸ hx)
  refine ht.keep (fun x hx ↦ .inl ?_) rfl (ht.room_of ?_) rfl le_rfl
  · rcases List.mem_append.1 hx with hx | hx
    · rcases mem_insertSorted hx with rfl | hx
      · exact hall x List.mem_cons_self
      · exact List.mem_append_left _ hx
    · exact hall x (List.mem_cons_of_mem _ hx)
  · dsimp only
    split_ifs with hdrop
    · exact .inl rfl
    · exact .inr ⟨rfl, getLast?_insertSorted hdrop⟩

theorem ackUnacked_traced (h : ackUnacked s m = some (s', m')) (ht : s.Traced cfg first stream) :
    s'.Traced cfg first stream := by
  rw [ackUnacked] at h
  split at h
  · cases h
  next seg rest hunacked =>
  split at h
  · obtain ⟨m₁, -, heq⟩ := Option.map_eq_some_iff.1 h
    cases heq
    refine ht.keep (fun x hx ↦ .inl ?_) rfl ht.room rfl le_rfl
    rw [hunacked]
    exact (List.mem_append.1 hx).elim (List.mem_append_left _) fun hx ↦
      List.mem_append_right _ (List.mem_cons_of_mem _ hx)
  · cases h

/-- Behind the first segment. -/
theorem getLast?_tail {rest : List TxSeg} (hunsent : s.unsent = seg :: rest) (hne : rest ≠ []) :
    rest.getLast? = s.unsent.getLast? := by
  rw [hunsent, List.getLast?_cons_of_ne_nil hne]

theorem ackUnsent_traced (h : ackUnsent s m = some (s', m')) (ht : s.Traced cfg first stream) :
    s'.Traced cfg first stream := by
  rw [ackUnsent] at h
  split at h
  · cases h
  next seg rest hunsent =>
  split at h
  · obtain ⟨m₁, -, heq⟩ := Option.map_eq_some_iff.1 h
    cases heq
    refine ht.keep (fun x hx ↦ .inl ?_) rfl (ht.room_of ?_) rfl le_rfl
    · rw [hunsent]
      exact List.mem_cons_of_mem _ hx
    · dsimp only
      split_ifs with hempty
      · exact .inl rfl
      · exact .inr ⟨rfl, getLast?_tail hunsent hempty⟩
  · cases h

theorem tcpPcbPurge_traced (h : tcpPcbPurge s m = some (s', m')) (ht : s.Traced cfg first stream) :
    s'.Traced cfg first stream := by
  obtain ⟨m₁, -, h⟩ := Option.bind_eq_some_iff.1 h
  obtain ⟨m₂, -, heq⟩ := Option.map_eq_some_iff.1 h
  cases heq
  exact ht.keep (fun x hx ↦ by cases hx) rfl (fun hne ↦ absurd rfl hne) rfl le_rfl

end Lwip.Tcp.Tx
