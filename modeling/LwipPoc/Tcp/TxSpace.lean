import LwipPoc.Tcp.ParseOpt
import LwipPoc.Tcp.TxLayout

/-!
# The space that `tcp_write` computes

How much goes behind the last segment and how much into a new one is computed with `u16_t`s, from the MSS and the
largest window of now (`mss_local`). The last segment was made with those of then, and the peer may have sent a smaller
MSS since. **The code does not compare before it subtracts**, so the sizes are right exactly as long as what is there
fits (`tcpWrite_sizes_iff`); a segment that was too large already is made still larger.
-/

namespace Lwip.Tcp.Tx

variable {cfg : TxConf} {mem : ℕ → Option ℕ} {s s' : TxPcb} {c : WriteCall} {m m' : Pools} {pos : ℕ}
  {acc acc' : TxNew} {q q' : List TxSeg}

/-- A segment with `n` bytes of data. -/
def TxSeg.Holds (seg : TxSeg) (n : ℕ) : Prop := ∃ front hdr data, seg.Laid front hdr data ∧ data.length = n

/-- **The sizes of a call** that leads from `s` to `s'`: no subtraction wraps, a segment that is made has data, and a
segment that is made or extended is no larger than `mss_local`. -/
structure SizesRight (cfg : TxConf) (s : TxPcb) (c : WriteCall) (s' : TxPcb) : Prop where
  tailSpace : ∀ last, s.unsent.getLast? = some last → (s.tailSpace last : ℤ) = s.mssLocal - (last.len + last.optLen)
  spaceLeft : ∀ last, s.unsent.getLast? = some last →
    (s.spaceLeft last c.arg.length : ℤ) = s.tailSpace last - s.oversizeUsed c.arg.length
  maxLen : s.unsent.length < s'.unsent.length → (s.maxLen cfg : ℤ) = s.mssLocal - s.optlen cfg
  created : ∀ i seg, s.unsent.length ≤ i → s'.unsent[i]? = some seg →
    seg.Holds seg.len ∧ 1 ≤ seg.len ∧ seg.len + seg.optLen ≤ s.mssLocal
  extended : ∀ last last', s.unsent.getLast? = some last → s'.unsent[s.unsent.length - 1]? = some last' →
    last'.p ≠ last.p → (last.Holds last.len → last'.Holds last'.len) ∧ last'.len + last'.optLen ≤ s.mssLocal

/-- What phases 1 and 2 find room for behind the last segment. -/
def TxPcb.tailRoom (s : TxPcb) (len : ℕ) : ℕ :=
  match s.unsent.getLast? with
  | none => 0
  | some last => if last.len = 0 then s.oversizeUsed len else s.mssLocal - (last.len + last.optLen)

/-- **What is there fits**: the last segment with what is written into the room behind it, and, as far as new segments
are needed, the options. -/
structure RoomFor (cfg : TxConf) (s : TxPcb) (c : WriteCall) : Prop where
  tail : ∀ last, s.unsent.getLast? = some last →
    last.len + last.optLen + s.oversizeUsed c.arg.length ≤ s.mssLocal
  options : s.tailRoom c.arg.length < c.arg.length → s.optlen cfg ≤ s.mssLocal

/-! ### New segments -/

theorem TxSeg.Holds.setFlag {seg : TxSeg} {n : ℕ} (h : seg.Holds n) (flag : BitVec 6) : (seg.setFlag flag).Holds n := by
  obtain ⟨front, hdr, data, hlaid, hlen⟩ := h
  exact ⟨front, hdr, data, hlaid.setFlag flag, hlen⟩

/-- A round that succeeds makes a segment. -/
theorem newTxSeg_queue (h : newTxSeg cfg mem s c pos acc m = some (some acc', m')) :
    ∃ seg, acc'.queue = acc.queue ++ [seg] := by
  simp only [newTxSeg] at h
  rcases hr : segPbufs cfg mem s c (c.argAddr + pos) _ acc.oversize acc.queue.isEmpty m with - | ⟨- | b, m₁⟩ <;>
    rw [hr] at h <;> dsimp only at h
  · cases h
  · cases h
  split_ifs at h with hlimit
  · obtain ⟨m₂, -, heq⟩ := Option.map_eq_some_iff.1 h
    cases heq
  · obtain ⟨⟨r, m₂⟩, -, heq⟩ := Option.map_eq_some_iff.1 h
    obtain ⟨seg, -, rfl⟩ := Option.map_eq_some_iff.1 (congrArg Prod.fst heq)
    exact ⟨_, rfl⟩

theorem newTxSegs_queue {fuel : ℕ} {r : TxNew} (h : newTxSegs cfg mem s c fuel pos acc m = some (true, r, m')) :
    ∃ segs, r.queue = acc.queue ++ segs ∧ (segs = [] → c.arg.length ≤ pos) := by
  induction fuel generalizing pos acc m with
  | zero =>
    rw [newTxSegs] at h
    split_ifs at h with hend
    cases h
    exact ⟨[], (List.append_nil _).symm, fun _ ↦ hend⟩
  | succ fuel ih =>
    rw [newTxSegs] at h
    split_ifs at h with hend
    · cases h
      exact ⟨[], (List.append_nil _).symm, fun _ ↦ hend⟩
    rcases hr : newTxSeg cfg mem s c pos acc m with - | ⟨- | acc', m₁⟩ <;> rw [hr] at h <;> dsimp only at h
    · cases h
    · cases h
    obtain ⟨seg, hqueue⟩ := newTxSeg_queue hr
    obtain ⟨segs, hsegs, -⟩ := ih h
    exact ⟨seg :: segs, by rw [hsegs, hqueue, List.append_assoc]; rfl, fun hnil ↦ absurd hnil (List.cons_ne_nil _ _)⟩

/-- **Segments without data do not bring phase 3 to its end.** -/
theorem newTxSegs_zero {fuel : ℕ} {r : TxNew} (h : newTxSegs cfg mem s c fuel pos acc m = some (true, r, m'))
    (hpos : pos < c.arg.length) : 0 < s.maxLen cfg := by
  by_contra hzero
  have hseglen : s.seglen cfg (c.arg.length - pos) = 0 := by
    rw [TxPcb.seglen, Nat.le_zero.1 (not_lt.1 hzero)]
    split_ifs <;> omega
  induction fuel generalizing acc m with
  | zero =>
    rw [newTxSegs, if_neg (not_le.2 hpos)] at h
    cases h
  | succ fuel ih =>
    rw [newTxSegs, if_neg (not_le.2 hpos)] at h
    rcases hr : newTxSeg cfg mem s c pos acc m with - | ⟨- | acc', m₁⟩ <;> rw [hr] at h <;> dsimp only at h
    · cases h
    · cases h
    · rw [hseglen] at h
      exact ih h

theorem length_piece : (piece cfg s c pos).length = min (s.maxLen cfg) (c.arg.length - pos) := by
  rw [piece, List.length_take, List.length_drop, TxPcb.seglen]
  split_ifs <;> omega

/-! ### The subtractions -/

theorem TxPcb.mssLocal_lt (hwnd : s.sndWndMax < 2 ^ 16) : s.mssLocal < 2 ^ 15 := by
  rw [TxPcb.mssLocal]
  omega

theorem TxPcb.oversizeUsed_le (len : ℕ) : s.oversizeUsed len ≤ len := by
  rw [TxPcb.oversizeUsed]
  split_ifs <;> omega

theorem TxPcb.tailSpace_eq_iff (hwnd : s.sndWndMax < 2 ^ 16) (last : TxSeg) :
    (s.tailSpace last : ℤ) = s.mssLocal - (last.len + last.optLen) ↔ last.len + last.optLen ≤ s.mssLocal := by
  have hlocal := TxPcb.mssLocal_lt hwnd
  rw [TxPcb.tailSpace, toU16]
  omega

theorem TxPcb.spaceLeft_eq_iff (last : TxSeg) :
    (s.spaceLeft last c.arg.length : ℤ) = s.tailSpace last - s.oversizeUsed c.arg.length ↔
      s.oversizeUsed c.arg.length ≤ s.tailSpace last := by
  have hlt : s.tailSpace last < 2 ^ 16 := Nat.mod_lt _ (by decide)
  rw [TxPcb.spaceLeft, toU16]
  omega

theorem TxPcb.maxLen_eq_iff (hwnd : s.sndWndMax < 2 ^ 16) :
    (s.maxLen cfg : ℤ) = s.mssLocal - s.optlen cfg ↔ s.optlen cfg ≤ s.mssLocal := by
  have hlocal := TxPcb.mssLocal_lt hwnd
  rw [TxPcb.maxLen, toU16]
  omega

/-- Both subtractions for the last segment. -/
theorem tail_space_iff (hwnd : s.sndWndMax < 2 ^ 16) (last : TxSeg) :
    ((s.tailSpace last : ℤ) = s.mssLocal - (last.len + last.optLen) ∧
      (s.spaceLeft last c.arg.length : ℤ) = s.tailSpace last - s.oversizeUsed c.arg.length) ↔
      last.len + last.optLen + s.oversizeUsed c.arg.length ≤ s.mssLocal := by
  rw [TxPcb.spaceLeft_eq_iff]
  constructor
  · rintro ⟨htail, hused⟩
    have hle := (TxPcb.tailSpace_eq_iff hwnd last).1 htail
    omega
  · intro hle
    have htail := (TxPcb.tailSpace_eq_iff hwnd last).2 (by omega)
    exact ⟨htail, by omega⟩

/-! ### The sizes -/

variable {v : WriteVars} {new : List TxSeg} {last : TxSeg}

/-- How far phases 1 and 2 come. -/
theorem TailPlan.pos_eq {s₁ : TxPcb} (h : TailPlan cfg s c s₁ v last) (hwnd : s.sndWndMax < 2 ^ 16)
    (hfits : last.len + last.optLen + s.oversizeUsed c.arg.length ≤ s.mssLocal) :
    v.pos = min (s.tailRoom c.arg.length) c.arg.length := by
  obtain ⟨htail, hspace⟩ := (tail_space_iff (c := c) hwnd last).2 hfits
  have hused := TxPcb.oversizeUsed_le (s := s) c.arg.length
  rw [TxPcb.tailRoom, h.getLast]
  by_cases hchain : s.Chains last c.arg.length
  · obtain ⟨hpos, -⟩ := h.chained hchain
    obtain ⟨-, -, hlen⟩ := hchain
    rw [hpos, h.used, TxPcb.concatLen]
    dsimp only
    rw [if_neg hlen.ne']
    split_ifs <;> omega
  · obtain ⟨-, hpos⟩ := h.plain hchain
    rw [TxPcb.Chains] at hchain
    rw [hpos, h.used]
    dsimp only
    split_ifs <;> omega

namespace Writes

/-- New segments, if phases 1 and 2 do not come to the end. -/
theorem new_ne_nil (h : Writes cfg mem s c m s' v q new) (hpos : v.pos < c.arg.length) :
    new ≠ [] ∧ 0 < s.maxLen cfg := by
  obtain ⟨s₁, m₁, r, m₂, htail, hloop, rfl, -⟩ := h.phases
  obtain ⟨q', rfl⟩ := extendTail_frame htail
  obtain ⟨segs, hsegs, hend⟩ := newTxSegs_queue hloop
  have hmax : 0 < TxPcb.maxLen cfg { s with unsent := q' } := newTxSegs_zero hloop hpos
  refine ⟨fun hnil ↦ ?_, hmax⟩
  rw [hsegs, List.nil_append] at hnil
  exact absurd (hend hnil) (not_le.2 hpos)

theorem new_eq_nil (h : Writes cfg mem s c m s' v q new) (hpos : c.arg.length ≤ v.pos) : new = [] := by
  obtain ⟨s₁, m₁, r, m₂, -, hloop, rfl, -⟩ := h.phases
  rw [newTxSegs, if_pos hpos] at hloop
  cases hloop
  rfl

theorem length_unsent (h : Writes cfg mem s c m s' v q new) : s'.unsent.length = s.unsent.length + new.length := by
  rw [h.unsent.length_eq, List.length_append, h.length_eq]

/-- How far phases 1 and 2 come, in all cases. -/
theorem pos_eq (h : Writes cfg mem s c m s' v q new) (hwnd : s.sndWndMax < 2 ^ 16) (hroom : RoomFor cfg s c) :
    v.pos = min (s.tailRoom c.arg.length) c.arg.length := by
  rcases h.tail with ⟨hnil, -, -, hpos⟩ | ⟨s₁, last, x, mid, last', hplan, -, -, -⟩
  · rw [TxPcb.tailRoom, hnil, hpos]
    exact (Nat.zero_min _).symm
  · exact hplan.pos_eq hwnd (hroom.tail last hplan.getLast)

/-- What is made, where there is room. -/
theorem created (h : Writes cfg mem s c m s' v q new) (hwnd : s.sndWndMax < 2 ^ 16) (hroom : RoomFor cfg s c)
    {seg : TxSeg} (hseg : seg ∈ new) : seg.Holds seg.len ∧ 1 ≤ seg.len ∧ seg.len + seg.optLen ≤ s.mssLocal := by
  have hlocal := TxPcb.mssLocal_lt hwnd
  have hpos : v.pos < c.arg.length := by
    by_contra hend
    rw [h.new_eq_nil (not_lt.1 hend)] at hseg
    cases hseg
  have hopt : s.optlen cfg ≤ s.mssLocal := hroom.options (by rw [h.pos_eq hwnd hroom] at hpos; omega)
  obtain ⟨-, hmax⟩ := h.new_ne_nil hpos
  have hmaxLen : (s.maxLen cfg : ℤ) = s.mssLocal - s.optlen cfg := (TxPcb.maxLen_eq_iff hwnd).2 hopt
  obtain ⟨i, hi, hnew⟩ := (h.newSegs hwnd fun i ↦ by rw [length_piece]; omega).of_mem hseg
  have hlen : seg.len = min (s.maxLen cfg) (c.arg.length - i) := hnew.len.trans length_piece
  have hoptLen : seg.optLen = s.optlen cfg := by
    rw [TxSeg.optLen, hnew.optsMss, hnew.optsTs]
    rfl
  exact ⟨⟨_, _, _, hnew.laid, hnew.len.symm⟩, by omega, by omega⟩

end Writes

/-- What the last segment becomes, where there is room. -/
theorem TailDone.extended {last' : TxSeg} (h : TailDone cfg c v last last') (hwnd : s.sndWndMax < 2 ^ 16)
    (hle : v.pos ≤ c.arg.length) (hfits : last.len + last.optLen + v.pos ≤ s.mssLocal) (hp : last'.p ≠ last.p) :
    (last.Holds last.len → last'.Holds last'.len) ∧ last'.len + last'.optLen ≤ s.mssLocal := by
  have hlocal := TxPcb.mssLocal_lt hwnd
  have hlen : last'.len = last.len + v.pos := by
    rw [h.len fun hzero ↦ hp (h.same hzero).1, toU16, Nat.mod_eq_of_lt (by omega)]
  rw [hlen, h.header.optLen]
  refine ⟨?_, by omega⟩
  rintro ⟨front, hdr, data, hlaid, hdata⟩
  refine ⟨front, hdr, _, h.laid _ _ _ hlaid, ?_⟩
  rw [List.length_append, hdata, List.length_take_of_le hle]

/-- **The sizes are right exactly where there is room**: for every control block, all data and flags, and every way in
which the attempts to allocate end, as long as the call succeeds. -/
theorem tcpWrite_sizes_iff (hwnd : s.sndWndMax < 2 ^ 16) (h : tcpWrite cfg mem s c m = some (.ok, s', m')) :
    SizesRight cfg s c s' ↔ RoomFor cfg s c := by
  obtain ⟨v, q, new, hw⟩ := tcpWrite_ok h
  constructor
  · intro hright
    have htail : ∀ last, s.unsent.getLast? = some last →
        last.len + last.optLen + s.oversizeUsed c.arg.length ≤ s.mssLocal := fun last hlast ↦
      (tail_space_iff hwnd last).1 ⟨hright.tailSpace last hlast, hright.spaceLeft last hlast⟩
    refine ⟨htail, fun hless ↦ (TxPcb.maxLen_eq_iff hwnd).1 (hright.maxLen ?_)⟩
    have hpos : v.pos < c.arg.length := by
      rcases hw.tail with ⟨hnil, -, -, hpos⟩ | ⟨s₁, last, x, mid, last', hplan, -, -, -⟩
      · rw [hpos]
        exact (Nat.zero_le _).trans_lt hless
      · rw [hplan.pos_eq hwnd (htail last hplan.getLast)]
        omega
    rw [hw.length_unsent]
    exact Nat.lt_add_of_pos_right (List.length_pos_iff.2 (hw.new_ne_nil hpos).1)
  · intro hroom
    refine ⟨fun last hlast ↦ ?_, fun last hlast ↦ ?_, fun hgrown ↦ ?_, fun i seg hi hseg ↦ ?_,
      fun last last' hlast hlast' hp ↦ ?_⟩
    · exact ((tail_space_iff (c := c) hwnd last).2 (hroom.tail last hlast)).1
    · exact ((tail_space_iff hwnd last).2 (hroom.tail last hlast)).2
    · refine (TxPcb.maxLen_eq_iff hwnd).2 (hroom.options ?_)
      by_contra hless
      rw [hw.length_unsent, hw.new_eq_nil (by rw [hw.pos_eq hwnd hroom]; omega)] at hgrown
      exact absurd hgrown (lt_irrefl _)
    · obtain ⟨seg₀, hseg₀, hflag⟩ := hw.unsent.getElem? hseg
      rw [List.getElem?_append_right (hw.length_eq ▸ hi)] at hseg₀
      obtain ⟨hholds, hsizes⟩ := hw.created hwnd hroom (List.mem_of_getElem? hseg₀)
      rcases hflag with rfl | rfl
      · exact ⟨hholds, hsizes⟩
      · exact ⟨hholds.setFlag _, hsizes⟩
    · rcases hw.tail with ⟨hnil, -⟩ | ⟨s₁, last₁, x, mid, last₁', hplan, hmid, hcommit, rfl⟩
      · rw [hnil] at hlast
        cases hlast
      obtain rfl : last₁ = last := Option.some.inj (hplan.getLast.symm.trans hlast)
      have hdone := hplan.done hmid hcommit
      have hpos := hplan.pos_eq hwnd (hroom.tail last₁ hlast)
      have hfits : last₁.len + last₁.optLen + v.pos ≤ s.mssLocal := by
        have htail := hroom.tail last₁ hlast
        rw [hpos, TxPcb.tailRoom, hlast]
        dsimp only
        split_ifs <;> omega
      obtain ⟨seg₀, hseg₀, hflag⟩ := hw.unsent.getElem? hlast'
      rw [List.append_assoc, ← List.length_dropLast, List.getElem?_append_right (le_refl _), Nat.sub_self] at hseg₀
      obtain rfl := Option.some.inj hseg₀
      rcases hflag with rfl | rfl
      · exact hdone.extended hwnd hplan.le.2 hfits hp
      · obtain ⟨hholds, hle⟩ := hdone.extended hwnd hplan.le.2 hfits hp
        exact ⟨fun hlast ↦ (hholds hlast).setFlag _, hle⟩

/-- A control block with nothing to send, and an MSS of eight. -/
def emptyPcb : TxPcb := { eightPcb with sndLbb := 1000, sndQueuelen := 0, unsentOversize := 0, unsent := [] }

/-- Six bytes. -/
def sixBytes : WriteCall := ⟨List.replicate 6 7, by decide, 3000, true, false⟩

/-- Six bytes fit into a segment. -/
theorem tcpWrite_sizes_six : ∃ s' m',
    tcpWrite ⟨false, false, false, false, .two⟩ (fun i ↦ some (1000 * (i + 1))) emptyPcb sixBytes ⟨0, 0⟩ =
      some (.ok, s', m') ∧
    emptyPcb.sndWndMax < 2 ^ 16 ∧
    (SizesRight ⟨false, false, false, false, .two⟩ emptyPcb sixBytes s' ↔
      RoomFor ⟨false, false, false, false, .two⟩ emptyPcb sixBytes) := by
  have hok : (tcpWrite ⟨false, false, false, false, .two⟩ (fun i ↦ some (1000 * (i + 1))) emptyPcb sixBytes
      ⟨0, 0⟩).map Prod.fst = some .ok := by decide
  obtain ⟨⟨err, s', m'⟩, hcall, rfl⟩ := Option.map_eq_some_iff.1 hok
  exact ⟨s', m', hcall, by decide, tcpWrite_sizes_iff (by decide) hcall⟩

/-- The options of a segment that has an MSS of four. -/
def mssFour : OptSeg := ⟨6, fun i ↦ if i = 0 then 0x02 else if i = 2 then 0 else 0x04, false, 0, 0⟩

/-- Six bytes are written, the peer sends an MSS of four, and six bytes are written again: they go behind the first ones,
into a segment of twelve bytes. -/
theorem tcpWrite_shrunk : ∃ s₁ m₁ w s₂ m₂,
    tcpWrite ⟨false, false, false, false, .two⟩ (fun i ↦ some (1000 * (i + 1))) emptyPcb sixBytes ⟨0, 0⟩ =
      some (.ok, s₁, m₁) ∧
    tcpParseopt false mssFour 41 ⟨s₁.mss, 0, false, 0⟩ = some w ∧
    tcpWrite ⟨false, false, false, false, .two⟩ (fun i ↦ some (1000 * (i + 1))) { s₁ with mss := w.pcb.mss } sixBytes
      m₁ = some (.ok, s₂, m₂) ∧
    w.pcb.mss = 4 ∧ s₂.unsent.map TxSeg.len = [12] ∧
    ¬SizesRight ⟨false, false, false, false, .two⟩ { s₁ with mss := w.pcb.mss } sixBytes s₂ := by
  have hrun : ((tcpWrite ⟨false, false, false, false, .two⟩ (fun i ↦ some (1000 * (i + 1))) emptyPcb sixBytes
      ⟨0, 0⟩).bind fun r ↦ (tcpParseopt false mssFour 41 ⟨r.2.1.mss, 0, false, 0⟩).bind fun w ↦
      (tcpWrite ⟨false, false, false, false, .two⟩ (fun i ↦ some (1000 * (i + 1)))
        { r.2.1 with mss := w.pcb.mss } sixBytes r.2.2).map fun r' ↦
      (r.1, r'.1, w.pcb.mss, r'.2.1.unsent.map TxSeg.len, r.2.1.sndWndMax, r.2.1.unsent.map TxSeg.len)) =
      some (.ok, .ok, 4, [12], 100, [6]) := by decide +kernel
  obtain ⟨⟨err, s₁, m₁⟩, hfirst, hrun⟩ := Option.bind_eq_some_iff.1 hrun
  obtain ⟨w, hopt, hrun⟩ := Option.bind_eq_some_iff.1 hrun
  obtain ⟨⟨err', s₂, m₂⟩, hsecond, heq⟩ := Option.map_eq_some_iff.1 hrun
  simp only [Prod.mk.injEq] at heq hsecond hopt hfirst
  obtain ⟨rfl, rfl, hmss, hlens, hwnd, hlen⟩ := heq
  refine ⟨s₁, m₁, w, s₂, m₂, hfirst, hopt, hsecond, hmss, hlens, fun hright ↦ ?_⟩
  obtain ⟨last, hlast, hsix⟩ := List.map_eq_singleton_iff.1 hlen
  have hfits := (TxPcb.tailSpace_eq_iff (by dsimp only; omega) last).1 (hright.tailSpace last (by rw [hlast]; rfl))
  have hlocal := hfits.trans (min_le_left w.pcb.mss _)
  omega

end Lwip.Tcp.Tx
