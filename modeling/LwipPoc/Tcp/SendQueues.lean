import LwipPoc.Foundation.Pieces
import LwipPoc.Tcp.Connection

/-!
# The send queues

What the queues `unacked` and `unsent` hold, as long as every extension of a segment was one of the last
segment of the stream. A segment with its position in the stream is a **tile**: `SYN` stands at
position `0`, the bytes of the application from position `1` on, and `FIN` behind them.

The tiles of a connection are in three places (`Layout`). Those on `unacked` were sent. On `unsent`
there are first the ones to be sent **again**, then the **fresh** ones, which no sequence number that was
sent covers in full. The invariant (`Queues`) does not order the tiles to be sent again: a timeout while
one of them waits puts later ones in front of it. It says instead that no two tiles overlap, that the
fresh ones are consecutive up to the end of the stream, and that all are near `snd_nxt`, so that
comparisons of sequence numbers are comparisons of positions. When all tiles are in order (`InOrder`),
they are together a permutation of consecutive ones.

Every operation that moves segments is one lemma here, about the part of the control block that it works
on (`SendSide`).
-/

namespace Lwip.Tcp

/-! ### Tiles -/

/-- A segment with its position in the stream. -/
structure Tile where
  pos : ℕ
  seg : TcpSeg

/-- The position behind a tile. -/
def Tile.stop (t : Tile) : ℕ := t.pos + t.seg.tcpLen

/-- What the stream has at a position, when the application has written `w`. -/
def byteAt (w : List Byte) : ℕ → Option Byte
  | 0 => none
  | q + 1 => w[q]?

theorem byteAt_append {w v : List Byte} {q : ℕ} {b : Byte} (h : byteAt w q = some b) :
    byteAt (w ++ v) q = some b := by
  cases q with
  | zero => cases h
  | succ q =>
    have hlt : q < w.length := (List.getElem?_eq_some_iff.1 h).1
    exact (List.getElem?_append_left hlt).trans h

theorem byteAt_append_right {w v : List Byte} {i : ℕ} :
    byteAt (w ++ v) (w.length + 1 + i) = v[i]? := by
  rw [show w.length + 1 + i = w.length + i + 1 by omega]
  show (w ++ v)[w.length + i]? = v[i]?
  rw [List.getElem?_append_right (by omega), Nat.add_sub_cancel_left]

/-- The segment of a tile has the sequence number and the bytes of its position. -/
structure Tile.Ok (isn : SeqNum) (w : List Byte) (t : Tile) : Prop where
  seqno : t.seg.seqno = seqAt isn t.pos
  bytes : ∀ i b, t.seg.data[i]? = some b → byteAt w (t.pos + i) = some b
  tcpLen_pos : 0 < t.seg.tcpLen
  length_lt : t.seg.data.length < 2 ^ 16
  syn : t.seg.syn = true → t.seg.data = [] ∧ t.pos = 0

namespace Tile.Ok

variable {isn : SeqNum} {w v : List Byte} {t : Tile}

theorem lt_stop (h : t.Ok isn w) : t.pos < t.stop := Nat.lt_add_of_pos_right h.tcpLen_pos

theorem len (h : t.Ok isn w) : t.seg.len = t.seg.data.length := Nat.mod_eq_of_lt h.length_lt

theorem stop_le (h : t.Ok isn w) : t.stop ≤ t.pos + 2 ^ 16 := by
  have h1 := h.length_lt
  rw [Tile.stop, TcpSeg.tcpLen, h.len]
  split_ifs <;> omega

theorem length_le (h : t.Ok isn w) : t.pos + t.seg.data.length ≤ t.stop := by
  rw [Tile.stop, TcpSeg.tcpLen, h.len]
  omega

theorem endSeq (h : t.Ok isn w) : t.seg.endSeq = seqAt isn t.stop := by
  rw [TcpSeg.endSeq, h.seqno, Tile.stop, seqAt_add]

/-- What is written later does not change a tile. -/
theorem append (h : t.Ok isn w) : t.Ok isn (w ++ v) :=
  { h with bytes := fun i b hb ↦ byteAt_append (h.bytes i b hb) }

end Tile.Ok

/-! ### The sending side of a control block -/

/-- What the operations on the send queues work on. -/
structure SendSide where
  unacked : List TcpSeg
  unsent : List TcpSeg
  lastack : SeqNum
  sndNxt : SeqNum
  sndLbb : SeqNum
  sndBuf : ℕ
  sndWnd : ℕ
  unsentOversize : ℕ
  written : List Byte
  /-- The application has closed its side, and the `FIN` is on a queue or was sent. -/
  finQueued : Bool

/-- The states behind the own `FIN`. -/
def TcpState.finQueued : TcpState → Bool
  | .finWait1 | .finWait2 | .closing | .lastAck => true
  | _ => false

/-- The sending side. -/
def Pcb.sendSide (s : Pcb) : SendSide :=
  ⟨s.unacked, s.unsent, s.lastack, s.sndNxt, s.sndLbb, s.sndBuf, s.sndWnd, s.unsentOversize, s.written,
    s.state.finQueued⟩

namespace SendSide

/-- The positions that the `FIN` takes. -/
def fins (s : SendSide) : ℕ := if s.finQueued then 1 else 0

/-- The end of the stream. -/
def stop (s : SendSide) : ℕ := s.written.length + 1 + s.fins

theorem fins_le (s : SendSide) : s.fins ≤ 1 := by
  rw [fins]
  split_ifs <;> omega

end SendSide

/-- The tiles of a connection, and the positions of its counters. -/
structure Layout where
  unacked : List Tile
  /-- On `unsent`, and sent before. -/
  again : List Tile
  /-- On `unsent`, behind them. -/
  fresh : List Tile
  /-- The position of `lastack`. -/
  acked : ℕ
  /-- The position of `snd_nxt`. -/
  nxt : ℕ
  /-- Where the fresh tiles start. -/
  front : ℕ

/-- How far a tile that was sent may be behind `snd_nxt`. -/
def reach : ℕ := 2 ^ 17

/-- The queues hold tiles of the stream. -/
structure Queues (isn : SeqNum) (s : SendSide) (L : Layout) : Prop where
  unacked : s.unacked = L.unacked.map Tile.seg
  unsent : s.unsent = (L.again ++ L.fresh).map Tile.seg
  ok : ∀ t ∈ L.unacked ++ L.again ++ L.fresh, t.Ok isn s.written
  fin : ∀ t ∈ L.unacked ++ L.again ++ L.fresh,
    t.seg.fin = true ↔ s.finQueued = true ∧ t.stop = s.stop
  lastack : s.lastack = seqAt isn L.acked
  sndNxt : s.sndNxt = seqAt isn L.nxt
  sndLbb : s.finQueued = false → s.sndLbb = seqAt isn s.stop
  acked_le : L.acked ≤ L.nxt
  nxt_le : L.nxt ≤ s.stop
  room : s.sndBuf + (s.stop - L.acked) ≤ tcpSndBuf + s.fins
  separate : (L.unacked ++ L.again).Pairwise (Separate Tile.pos Tile.stop)
  sorted : L.unacked.Pairwise (NotAfter Tile.pos)
  sent : ∀ t ∈ L.unacked ++ L.again, t.stop ≤ L.nxt ∧ t.stop ≤ L.front ∧ L.nxt ≤ t.pos + reach
  current : ∀ t ∈ L.unacked, L.acked ≤ t.stop
  pieces : Pieces Tile.pos Tile.stop L.front L.fresh s.stop
  unfinished : ∀ t ∈ L.fresh, L.nxt < t.stop
  oversize : s.written = [] → s.unsentOversize = 0
  sndWnd : s.sndWnd < 2 ^ 16

/-- All tiles are in order, from the one with `lastack` to the one that ends at `snd_lbb`. -/
structure InOrder (isn : SeqNum) (s : SendSide) (L : Layout) : Prop where
  old : ∃ p zs, zs.Perm (L.unacked ++ L.again) ∧ p ≤ L.acked ∧
    Pieces Tile.pos Tile.stop p zs L.front
  sorted : L.again.Pairwise (NotAfter Tile.pos)
  front_le : L.front ≤ L.nxt
  unacked : ∀ t ∈ L.unacked, L.acked < t.stop
  again : ∀ t ∈ L.again, L.acked < t.stop
  sndLbb : s.sndLbb = seqAt isn s.stop

section InsertTile

variable {L : Layout} {t x : Tile}

/-- The queue after a segment was sorted in. -/
def insertTile (x : Tile) (q : List Tile) : List Tile := q.orderedInsert (NotAfter Tile.pos) x

theorem insertTile_perm (x : Tile) (q : List Tile) : (insertTile x q).Perm (x :: q) :=
  List.perm_orderedInsert _ x q

theorem insertTile_append_perm {R : List Tile} (hR : L.again = x :: R) :
    (insertTile x L.unacked ++ R).Perm (L.unacked ++ L.again) := by
  rw [hR]
  exact ((insertTile_perm x L.unacked).append_right R).trans List.perm_middle.symm

theorem mem_insertTile {q : List Tile} : t ∈ insertTile x q ↔ t = x ∨ t ∈ q :=
  List.mem_orderedInsert _

theorem insertTile_sorted {q : List Tile} (h : q.Pairwise (NotAfter Tile.pos)) :
    (insertTile x q).Pairwise (NotAfter Tile.pos) :=
  h.orderedInsert x q

end InsertTile

/-- A step from `s` to `s'` at the end of the stream, as far as it is not about `unsent`. -/
structure Grows (isn : SeqNum) (s s' : SendSide) : Prop where
  unacked : s'.unacked = s.unacked
  lastack : s'.lastack = s.lastack
  sndNxt : s'.sndNxt = s.sndNxt
  sndWnd : s'.sndWnd = s.sndWnd
  written : ∃ v, s'.written = s.written ++ v
  opened : s.finQueued = false
  stop_le : s.stop ≤ s'.stop
  room : s'.sndBuf + (s'.stop - s.stop) ≤ s.sndBuf + s'.fins
  sndLbb : s'.finQueued = false → s'.sndLbb = seqAt isn s'.stop
  oversize : s'.written = [] → s'.unsentOversize = 0

namespace Queues

variable {isn : SeqNum} {s s' : SendSide} {L : Layout} {t u x : Tile}

/-! ### Positions -/

theorem ok_unacked (h : Queues isn s L) (ht : t ∈ L.unacked) : t.Ok isn s.written :=
  h.ok t (by simp [ht])

theorem ok_again (h : Queues isn s L) (ht : t ∈ L.again) : t.Ok isn s.written :=
  h.ok t (by simp [ht])

theorem ok_fresh (h : Queues isn s L) (ht : t ∈ L.fresh) : t.Ok isn s.written :=
  h.ok t (by simp [ht])

theorem ok_old (h : Queues isn s L) (ht : t ∈ L.unacked ++ L.again) : t.Ok isn s.written :=
  h.ok t (List.mem_append_left _ ht)

/-- The end of the stream is near. -/
theorem stop_le (h : Queues isn s L) : s.stop ≤ L.acked + tcpSndBuf + 1 := by
  have h1 := h.room
  have h2 := s.fins_le
  omega

theorem fresh_bounds (h : Queues isn s L) (ht : t ∈ L.fresh) :
    L.front ≤ t.pos ∧ L.nxt < t.stop ∧ t.stop ≤ s.stop := by
  obtain ⟨h1, h2⟩ := h.pieces.mem (fun u hu ↦ (h.ok_fresh hu).lt_stop.le) ht
  exact ⟨h1, h.unfinished t ht, h2⟩

/-- Every tile is near `snd_nxt`. -/
theorem near (h : Queues isn s L) (ht : t ∈ L.unacked ++ L.again ++ L.fresh) :
    L.nxt ≤ t.pos + reach ∧ t.stop ≤ L.nxt + 6433 := by
  have h1 : tcpSndBuf = 6432 := rfl
  have h2 : reach = 2 ^ 17 := rfl
  have h3 := h.stop_le
  have h4 := h.acked_le
  rcases List.mem_append.1 ht with ht | ht
  · obtain ⟨hn, -, hr⟩ := h.sent t ht
    exact ⟨hr, by omega⟩
  · obtain ⟨-, hn, he⟩ := h.fresh_bounds ht
    have hs := (h.ok_fresh ht).stop_le
    exact ⟨by omega, by omega⟩

/-- Sequence numbers of tiles compare like their positions. -/
theorem seqLt_seqno (h : Queues isn s L) (ht : t ∈ L.unacked ++ L.again ++ L.fresh)
    (hu : u ∈ L.unacked ++ L.again ++ L.fresh) :
    SeqLt t.seg.seqno u.seg.seqno ↔ t.pos < u.pos := by
  have h2 : reach = 2 ^ 17 := rfl
  have ht1 := h.near ht
  have hu1 := h.near hu
  have ht2 := (h.ok t ht).lt_stop
  have hu2 := (h.ok u hu).lt_stop
  rw [(h.ok t ht).seqno, (h.ok u hu).seqno, seqLt_seqAt (by omega) (by omega)]

theorem seqLt_endSeq (h : Queues isn s L) (ht : t ∈ L.unacked ++ L.again ++ L.fresh) :
    SeqLt s.sndNxt t.seg.endSeq ↔ L.nxt < t.stop := by
  have h2 : reach = 2 ^ 17 := rfl
  have ht1 := h.near ht
  have ht2 := (h.ok t ht).lt_stop
  rw [h.sndNxt, (h.ok t ht).endSeq, seqLt_seqAt (by omega) (by omega)]

/-! ### Sorting in -/

theorem insertSorted_map {q : List Tile}
    (h : ∀ t ∈ q, SeqLt t.seg.seqno x.seg.seqno ↔ t.pos < x.pos) :
    Pcb.insertSorted x.seg (q.map Tile.seg) = (insertTile x q).map Tile.seg := by
  have hcut := @takeWhile_dropWhile_congr _ q (fun t ↦ decide (SeqLt t.seg.seqno x.seg.seqno))
    (fun t ↦ decide ¬NotAfter Tile.pos x t) fun t ht ↦ by
      have hnot : ¬NotAfter Tile.pos x t ↔ t.pos < x.pos := Nat.not_le
      simp only [h t ht, hnot]
  rw [insertTile, List.orderedInsert_eq_take_drop, Pcb.insertSorted, List.takeWhile_map,
    List.dropWhile_map, List.map_append, List.map_cons, ← hcut.1, ← hcut.2]
  rfl

/-- A segment behind the last one goes to the end in both cases. -/
theorem insertUnacked_map {q : List Tile} (hq : q.Pairwise (NotAfter Tile.pos))
    (hne : ∀ t ∈ q, t.pos ≠ x.pos)
    (h : ∀ t ∈ q, SeqLt t.seg.seqno x.seg.seqno ↔ t.pos < x.pos)
    (h' : ∀ t ∈ q, SeqLt x.seg.seqno t.seg.seqno ↔ x.pos < t.pos) :
    Pcb.insertUnacked x.seg (q.map Tile.seg) = (insertTile x q).map Tile.seg := by
  rcases List.eq_nil_or_concat' q with rfl | ⟨ys, y, rfl⟩
  · rfl
  · have hlast : ((ys ++ [y]).map Tile.seg).getLast? = some y.seg := by simp
    rw [Pcb.insertUnacked, hlast]
    show (if SeqLt x.seg.seqno y.seg.seqno then _ else _) = _
    split_ifs with hlt
    · exact insertSorted_map h
    · -- all tiles come before the new one
      rw [h' y (by simp)] at hlt
      have hall : ∀ t ∈ ys ++ [y], ¬NotAfter Tile.pos x t := by
        intro t ht hle
        have hty : t.pos ≤ y.pos := by
          rcases List.mem_append.1 ht with ht | ht
          · exact (List.pairwise_append.1 hq).2.2 t ht y (by simp)
          · rw [List.mem_singleton.1 ht]
        have hxt : x.pos ≤ t.pos := hle
        have := hne t (by simpa using ht)
        omega
      rw [insertTile, orderedInsert_eq_concat hall]
      simp

/-! ### Between the queues -/

/-- Tiles that were sent are moved between `unacked` and `unsent`. -/
theorem rearrange {U R : List Tile} {oversize : ℕ} (h : Queues isn s L)
    (hperm : (U ++ R).Perm (L.unacked ++ L.again)) (hsorted : U.Pairwise (NotAfter Tile.pos))
    (hcurrent : ∀ t ∈ U, L.acked ≤ t.stop)
    (hoversize : oversize = 0 ∨ oversize = s.unsentOversize) :
    Queues isn
      { s with
        unacked := U.map Tile.seg
        unsent := (R ++ L.fresh).map Tile.seg
        unsentOversize := oversize }
      { L with unacked := U, again := R } := by
  have hmem : ∀ t, t ∈ U ++ R ++ L.fresh ↔ t ∈ L.unacked ++ L.again ++ L.fresh :=
    fun t ↦ (hperm.append_right L.fresh).mem_iff
  exact { h with
    unacked := rfl
    unsent := rfl
    ok := fun t ht ↦ h.ok t ((hmem t).1 ht)
    fin := fun t ht ↦ h.fin t ((hmem t).1 ht)
    separate := (pairwise_separate_perm hperm).2 h.separate
    sorted := hsorted
    sent := fun t ht ↦ h.sent t (hperm.mem_iff.1 ht)
    current := hcurrent
    oversize := fun hw ↦ hoversize.elim id fun heq ↦ heq.trans (h.oversize hw) }

/-! ### Sending -/

/-- The positions of a tile on `unacked` and of one that is put there differ. -/
theorem pos_ne {q : List Tile} (hsep : (q ++ [x]).Pairwise (Separate Tile.pos Tile.stop))
    (hlt : ∀ t ∈ q ++ [x], t.pos < t.stop) : ∀ t ∈ q, t.pos ≠ x.pos := by
  intro t ht heq
  have h1 := hlt t (by simp [ht])
  have h2 := hlt x (by simp)
  rcases (List.pairwise_append.1 hsep).2.2 t ht x (by simp) with h3 | h3 <;> omega

/-- A tile that was sent before is sent again. -/
theorem sendAgain {R : List Tile} (h : Queues isn s L) (hR : L.again = x :: R)
    (hx : L.acked ≤ x.stop) :
    Queues isn
      { s with
        unacked := Pcb.insertUnacked x.seg s.unacked
        unsent := (R ++ L.fresh).map Tile.seg }
      { L with unacked := insertTile x L.unacked, again := R } := by
  have hold : ∀ t ∈ L.unacked ++ [x], t ∈ L.unacked ++ L.again := by
    intro t ht
    rw [hR]
    rcases List.mem_append.1 ht with ht | ht <;> simp_all
  have hsub : (L.unacked ++ [x]).Sublist (L.unacked ++ L.again) := by
    rw [hR]
    exact (List.cons_sublist_cons.2 (List.nil_sublist R)).append_left _
  have hne := pos_ne (h.separate.sublist hsub) fun t ht ↦ (h.ok_old (hold t ht)).lt_stop
  have hmem : ∀ t ∈ L.unacked ++ [x], t ∈ L.unacked ++ L.again ++ L.fresh :=
    fun t ht ↦ List.mem_append_left _ (hold t ht)
  have hinsert : Pcb.insertUnacked x.seg s.unacked = (insertTile x L.unacked).map Tile.seg := by
    rw [h.unacked]
    refine insertUnacked_map h.sorted hne (fun t ht ↦ ?_) fun t ht ↦ ?_
    · exact h.seqLt_seqno (hmem t (by simp [ht])) (hmem x (by simp))
    · exact h.seqLt_seqno (hmem x (by simp)) (hmem t (by simp [ht]))
  rw [hinsert]
  refine h.rearrange (insertTile_append_perm hR) (insertTile_sorted h.sorted) (fun t ht ↦ ?_) (Or.inr rfl)
  rcases mem_insertTile.1 ht with rfl | ht
  · exact hx
  · exact h.current t ht

/-- The first fresh tile is sent, when nothing is to be sent again. -/
theorem sendFresh {N : List Tile} (h : Queues isn s L) (hR : L.again = []) (hN : L.fresh = x :: N) :
    Queues isn
      { s with
        unacked := Pcb.insertUnacked x.seg s.unacked
        unsent := N.map Tile.seg
        sndNxt := x.seg.endSeq }
      { L with
        unacked := L.unacked ++ [x], fresh := N, nxt := x.stop, front := x.stop } := by
  have h1 : tcpSndBuf = 6432 := rfl
  have h2 : reach = 2 ^ 17 := rfl
  have hxf : x ∈ L.fresh := by simp [hN]
  have hxo := h.ok_fresh hxf
  have hxb := h.fresh_bounds hxf
  have hxp : x.pos = L.front := by
    have hp := h.pieces
    rw [hN] at hp
    exact hp.1
  have hNp : Pieces Tile.pos Tile.stop x.stop N s.stop := by
    have hp := h.pieces
    rw [hN] at hp
    exact hp.2
  have hstop := h.stop_le
  have hacked := h.acked_le
  have hxlt := hxo.lt_stop
  have hbefore : ∀ t ∈ L.unacked, t.stop ≤ x.pos ∧ t.pos < x.pos := by
    intro t ht
    have h3 := (h.sent t (by simp [ht])).2.1
    have h4 := (h.ok_unacked ht).lt_stop
    omega
  have hmem : ∀ t, t ∈ L.unacked ++ [x] ++ L.again ++ N ↔
      t ∈ L.unacked ++ L.again ++ L.fresh := by
    intro t
    simp [hR, hN]
  have hinsert : Pcb.insertUnacked x.seg s.unacked = (L.unacked ++ [x]).map Tile.seg := by
    have hend : insertTile x L.unacked = L.unacked ++ [x] :=
      orderedInsert_eq_concat fun t ht ↦ Nat.not_le.2 (hbefore t ht).2
    rw [h.unacked, ← hend]
    refine insertUnacked_map h.sorted (fun t ht ↦ (hbefore t ht).2.ne) (fun t ht ↦ ?_) fun t ht ↦ ?_
    · exact h.seqLt_seqno (by simp [ht]) (by simp [hxf])
    · exact h.seqLt_seqno (by simp [hxf]) (by simp [ht])
  exact { h with
    unacked := hinsert
    unsent := by rw [hR]; rfl
    ok := fun t ht ↦ h.ok t ((hmem t).1 ht)
    fin := fun t ht ↦ h.fin t ((hmem t).1 ht)
    sndNxt := hxo.endSeq
    acked_le := by show L.acked ≤ x.stop; omega
    nxt_le := hxb.2.2
    separate := by
      have hsep := h.separate
      rw [hR, List.append_nil] at hsep ⊢
      refine List.pairwise_append.2 ⟨hsep, List.pairwise_singleton _ x, fun t ht y hy ↦ ?_⟩
      rw [List.mem_singleton.1 hy]
      exact Or.inl (hbefore t ht).1
    sorted := by
      refine List.pairwise_append.2 ⟨h.sorted, List.pairwise_singleton _ x, fun t ht y hy ↦ ?_⟩
      rw [List.mem_singleton.1 hy]
      exact (hbefore t ht).2.le
    sent := by
      intro t ht
      show t.stop ≤ x.stop ∧ t.stop ≤ x.stop ∧ x.stop ≤ t.pos + reach
      rw [hR, List.append_nil] at ht
      rcases List.mem_append.1 ht with ht | ht
      · -- the tile is not acknowledged, so that it is not far behind
        have h3 := hbefore t ht
        have h4 := (h.ok_unacked ht).stop_le
        have h5 := h.current t ht
        omega
      · rw [List.mem_singleton.1 ht]
        have h4 := hxo.stop_le
        omega
    current := by
      intro t ht
      rcases List.mem_append.1 ht with ht | ht
      · exact h.current t ht
      · rw [List.mem_singleton.1 ht]
        show L.acked ≤ x.stop
        omega
    pieces := hNp
    unfinished := by
      intro t ht
      have h3 := hNp.mem (fun y hy ↦ (h.ok_fresh (by simp [hN, hy])).lt_stop.le) ht
      have h4 := (h.ok_fresh (t := t) (by simp [hN, ht])).lt_stop
      show x.stop < t.stop
      omega }

/-! ### Acknowledgements -/

/-- What is left of `unacked` after an acknowledgement. -/
theorem dropWhile_unacked {a : ℕ} (h : Queues isn s L) (ha : L.acked ≤ a) (han : a ≤ L.nxt) :
    (s.unacked.dropWhile fun seg ↦ SeqLeq seg.endSeq (seqAt isn a)) =
      (L.unacked.filter fun t ↦ a < t.stop).map Tile.seg := by
  have h1 : tcpSndBuf = 6432 := rfl
  have h2 : reach = 2 ^ 17 := rfl
  have hpair : L.unacked.Pairwise fun t u ↦ t.stop ≤ u.pos :=
    pairwise_stop_le h.sorted (h.separate.sublist (List.sublist_append_left _ _))
      fun t ht ↦ (h.ok_unacked ht).lt_stop
  rw [h.unacked, List.dropWhile_map,
    ← dropWhile_eq_filter hpair fun t ht ↦ (h.ok_unacked ht).lt_stop]
  refine congrArg _ (takeWhile_dropWhile_congr fun t ht ↦ ?_).2
  have hn := h.near (t := t) (by simp [ht])
  have hlt := (h.ok_unacked ht).lt_stop
  have hstop := h.stop_le
  have hnxt := h.nxt_le
  show decide (SeqLeq t.seg.endSeq (seqAt isn a)) = decide (t.stop ≤ a)
  rw [(h.ok_unacked ht).endSeq, decide_eq_decide, seqLeq_seqAt (by omega) (by omega)]

/-- An acknowledgement of new data. -/
theorem acknowledge {a : ℕ} (h : Queues isn s L) (ha : L.acked ≤ a) (han : a ≤ L.nxt) :
    Queues isn
      { s with
        unacked := s.unacked.dropWhile fun seg ↦ SeqLeq seg.endSeq (seqAt isn a)
        lastack := seqAt isn a
        sndBuf := s.sndBuf + (a - L.acked) }
      { L with unacked := L.unacked.filter fun t ↦ a < t.stop, acked := a } := by
  have hsub : (L.unacked.filter fun t ↦ a < t.stop).Sublist L.unacked := List.filter_sublist
  have hsub' := hsub.append_right L.again
  have hmem : ∀ t ∈ (L.unacked.filter fun t ↦ a < t.stop) ++ L.again ++ L.fresh,
      t ∈ L.unacked ++ L.again ++ L.fresh := (hsub'.append_right L.fresh).subset
  have hroom := h.room
  have hstop := h.nxt_le
  exact { h with
    unacked := h.dropWhile_unacked ha han
    ok := fun t ht ↦ h.ok t (hmem t ht)
    fin := fun t ht ↦ h.fin t (hmem t ht)
    lastack := rfl
    acked_le := han
    room := by
      show s.sndBuf + (a - L.acked) + (s.stop - a) ≤ tcpSndBuf + s.fins
      omega
    separate := h.separate.sublist hsub'
    sorted := h.sorted.sublist hsub
    sent := fun t ht ↦ h.sent t (hsub'.subset ht)
    current := by
      intro t ht
      have hlt := (List.mem_filter.1 ht).2
      exact (of_decide_eq_true hlt).le }

/-- Segments are taken off the front of `unsent`. -/
theorem dropUnsent {R N : List Tile} {front oversize : ℕ} (h : Queues isn s L)
    (hR : R <:+ L.again) (hN : N <:+ L.fresh)
    (hpieces : Pieces Tile.pos Tile.stop front N s.stop) (hfront : L.front ≤ front)
    (hoversize : oversize = 0 ∨ oversize = s.unsentOversize) :
    Queues isn
      { s with unsent := (R ++ N).map Tile.seg, unsentOversize := oversize }
      { L with again := R, fresh := N, front := front } := by
  have hsub : (L.unacked ++ R).Sublist (L.unacked ++ L.again) := hR.sublist.append_left _
  have hmem : ∀ t ∈ L.unacked ++ R ++ N, t ∈ L.unacked ++ L.again ++ L.fresh :=
    (hsub.append hN.sublist).subset
  exact { h with
    unsent := rfl
    ok := fun t ht ↦ h.ok t (hmem t ht)
    fin := fun t ht ↦ h.fin t (hmem t ht)
    separate := h.separate.sublist hsub
    sent := by
      intro t ht
      obtain ⟨h1, h2, h3⟩ := h.sent t (hsub.subset ht)
      exact ⟨h1, h2.trans hfront, h3⟩
    pieces := hpieces
    unfinished := fun t ht ↦ h.unfinished t (hN.subset ht)
    oversize := fun hw ↦ hoversize.elim id fun heq ↦ heq.trans (h.oversize hw) }

/-! ### The end of the stream -/

/-- The end of every tile is not behind the end of the stream. -/
theorem le_stop (h : Queues isn s L) (ht : t ∈ L.unacked ++ L.again ++ L.fresh) :
    t.stop ≤ s.stop := by
  rcases List.mem_append.1 ht with ht | ht
  · exact (h.sent t ht).1.trans h.nxt_le
  · exact (h.fresh_bounds ht).2.2

/-- A `FIN` is behind all tiles that were there before. -/
theorem fin_iff_of_grows (h : Queues isn s L) (hg : Grows isn s s')
    (ht : t ∈ L.unacked ++ L.again ++ L.fresh) :
    t.seg.fin = true ↔ s'.finQueued = true ∧ t.stop = s'.stop := by
  have hle := h.le_stop ht
  rw [h.fin t ht, hg.opened]
  constructor
  · rintro ⟨hq, -⟩
    cases hq
  · rintro ⟨hq, hstop⟩
    obtain ⟨v, hv⟩ := hg.written
    have hlt : s.stop < s'.stop := by
      rw [SendSide.stop, SendSide.stop, SendSide.fins, SendSide.fins, hg.opened, hq, hv,
        List.length_append, if_neg Bool.false_ne_true, if_pos rfl]
      omega
    omega

/-- The stream grows: from `front` on there are other fresh tiles. -/
theorem setEnd {R F : List Tile} {front : ℕ} (h : Queues isn s L) (hg : Grows isn s s')
    (hunsent : s'.unsent = (R ++ F).map Tile.seg) (hR : R.Sublist L.again)
    (hok : ∀ t ∈ F, t.Ok isn s'.written)
    (hfin : ∀ t ∈ F, t.seg.fin = true ↔ s'.finQueued = true ∧ t.stop = s'.stop)
    (hfront : ∀ t ∈ L.unacked ++ R, t.stop ≤ front)
    (hpieces : Pieces Tile.pos Tile.stop front F s'.stop) (hunfinished : ∀ t ∈ F, L.nxt < t.stop) :
    Queues isn s' { L with again := R, fresh := F, front := front } := by
  have hnofin : s.fins = 0 := by rw [SendSide.fins, hg.opened]; rfl
  have hroom := h.room
  have hgroom := hg.room
  have hstop := hg.stop_le
  have hnxt := h.nxt_le
  have hacked := h.acked_le
  have hsub : (L.unacked ++ R).Sublist (L.unacked ++ L.again) := hR.append_left _
  exact {
    unacked := hg.unacked.trans h.unacked
    unsent := hunsent
    ok := by
      intro t ht
      rcases List.mem_append.1 ht with ht | ht
      · obtain ⟨v, hv⟩ := hg.written
        rw [hv]
        exact (h.ok_old (hsub.subset ht)).append
      · exact hok t ht
    fin := by
      intro t ht
      rcases List.mem_append.1 ht with ht | ht
      · exact h.fin_iff_of_grows hg (List.mem_append_left _ (hsub.subset ht))
      · exact hfin t ht
    lastack := hg.lastack.trans h.lastack
    sndNxt := hg.sndNxt.trans h.sndNxt
    sndLbb := hg.sndLbb
    acked_le := h.acked_le
    nxt_le := hnxt.trans hstop
    room := by
      show s'.sndBuf + (s'.stop - L.acked) ≤ tcpSndBuf + s'.fins
      omega
    separate := h.separate.sublist hsub
    sorted := h.sorted
    sent := by
      intro t ht
      obtain ⟨h1, -, h3⟩ := h.sent t (hsub.subset ht)
      exact ⟨h1, hfront t ht, h3⟩
    current := h.current
    pieces := hpieces
    unfinished := hunfinished
    oversize := hg.oversize
    sndWnd := hg.sndWnd ▸ h.sndWnd }

/-- A tile that ends with the stream is the last one, on `fresh` or, if that is empty, among those to be
sent again. -/
theorem last_tile {qs : List TcpSeg} {seg : TcpSeg} (h : Queues isn s L)
    (hlast : s.unsent = qs ++ [seg]) :
    ∃ x, x.seg = seg ∧
      ((∃ F, L.fresh = F ++ [x] ∧ qs = (L.again ++ F).map Tile.seg) ∨
        (L.fresh = [] ∧ ∃ R, L.again = R ++ [x] ∧ qs = R.map Tile.seg)) := by
  have hunsent := h.unsent
  rw [hlast] at hunsent
  rcases List.eq_nil_or_concat' L.fresh with hF | ⟨F, x, hF⟩
  · rcases List.eq_nil_or_concat' L.again with hR | ⟨R, x, hR⟩
    · rw [hF, hR] at hunsent
      simp at hunsent
    · rw [hF, hR, List.append_nil, List.map_append] at hunsent
      obtain ⟨hqs, hseg⟩ := List.append_inj' hunsent rfl
      exact ⟨x, (List.singleton_inj.1 hseg).symm, Or.inr ⟨hF, R, hR, hqs⟩⟩
  · rw [hF, ← List.append_assoc, List.map_append] at hunsent
    obtain ⟨hqs, hseg⟩ := List.append_inj' hunsent rfl
    exact ⟨x, (List.singleton_inj.1 hseg).symm, Or.inl ⟨F, hF, hqs⟩⟩

/-- A segment whose end is `snd_lbb` ends with the stream. -/
theorem stop_of_endSeq (h : Queues isn s L) (ht : t ∈ L.unacked ++ L.again ++ L.fresh)
    (hopen : s.finQueued = false) (hend : t.seg.endSeq = s.sndLbb) : t.stop = s.stop := by
  have h1 : tcpSndBuf = 6432 := rfl
  have h2 : reach = 2 ^ 17 := rfl
  have hn := h.near ht
  have hlt := (h.ok t ht).lt_stop
  have hstop := h.stop_le
  have hacked := h.acked_le
  have hnxt := h.nxt_le
  rw [(h.ok t ht).endSeq, h.sndLbb hopen, seqAt_inj (by omega) (by omega)] at hend
  exact hend

/-- New tiles behind the last one. -/
theorem append {ts : List Tile} (h : Queues isn s L) (hg : Grows isn s s')
    (hunsent : s'.unsent = s.unsent ++ ts.map Tile.seg) (hok : ∀ t ∈ ts, t.Ok isn s'.written)
    (hfin : ∀ t ∈ ts, t.seg.fin = true ↔ s'.finQueued = true ∧ t.stop = s'.stop)
    (hpieces : Pieces Tile.pos Tile.stop s.stop ts s'.stop) :
    Queues isn s' { L with fresh := L.fresh ++ ts } := by
  refine h.setEnd hg (by rw [hunsent, h.unsent]; simp) (List.Sublist.refl _) (fun t ht ↦ ?_)
    (fun t ht ↦ ?_) (fun t ht ↦ (h.sent t ht).2.1) ?_ fun t ht ↦ ?_
  · rcases List.mem_append.1 ht with ht | ht
    · obtain ⟨v, hv⟩ := hg.written
      rw [hv]
      exact (h.ok_fresh ht).append
    · exact hok t ht
  · rcases List.mem_append.1 ht with ht | ht
    · exact h.fin_iff_of_grows hg (by simp [ht])
    · exact hfin t ht
  · exact pieces_append.2 ⟨s.stop, h.pieces, hpieces⟩
  · rcases List.mem_append.1 ht with ht | ht
    · exact h.unfinished t ht
    · have h1 := hpieces.mem (fun y hy ↦ (hok y hy).lt_stop.le) ht
      have h2 := (hok t ht).lt_stop
      have h3 := h.nxt_le
      omega

/-- The tile that ends with the stream gets longer. -/
theorem extendTile {F : List Tile} {seg : TcpSeg} (h : Queues isn s L) (hg : Grows isn s s')
    (hF : L.fresh = F ++ [x]) (hunsent : s'.unsent = (L.again ++ F).map Tile.seg ++ [seg])
    (hok : Tile.Ok isn s'.written ⟨x.pos, seg⟩) (hstop : Tile.stop ⟨x.pos, seg⟩ = s'.stop)
    (hfin : seg.fin = s'.finQueued) :
    Queues isn s' { L with fresh := F ++ [⟨x.pos, seg⟩] } := by
  have hx : x ∈ L.fresh := by simp [hF]
  have hbounds := h.fresh_bounds hx
  have hpieces := h.pieces
  rw [hF] at hpieces
  obtain ⟨m, hFp, hxm, -⟩ := pieces_append.1 hpieces
  refine h.setEnd hg (by rw [hunsent]; simp) (List.Sublist.refl _) (fun t ht ↦ ?_)
    (fun t ht ↦ ?_) (fun t ht ↦ (h.sent t ht).2.1)
    (pieces_append.2 ⟨m, hFp, hxm, hstop⟩) fun t ht ↦ ?_
  · rcases List.mem_append.1 ht with ht | ht
    · obtain ⟨v, hv⟩ := hg.written
      rw [hv]
      exact (h.ok_fresh (by simp [hF, ht])).append
    · rw [List.mem_singleton.1 ht]
      exact hok
  · rcases List.mem_append.1 ht with ht | ht
    · exact h.fin_iff_of_grows hg (by simp [hF, ht])
    · rw [List.mem_singleton.1 ht, hstop, ← hfin, and_iff_left rfl]
  · rcases List.mem_append.1 ht with ht | ht
    · exact h.unfinished t (by simp [hF, ht])
    · rw [List.mem_singleton.1 ht, hstop]
      have := hg.stop_le
      omega

/-- A tile that was to be sent again ends with the stream and gets longer. It is a fresh one then. -/
theorem extendAgain {R : List Tile} {seg : TcpSeg} (h : Queues isn s L) (hg : Grows isn s s')
    (hR : L.again = R ++ [x]) (hx : x.stop = s.stop)
    (hunsent : s'.unsent = R.map Tile.seg ++ [seg])
    (hok : Tile.Ok isn s'.written ⟨x.pos, seg⟩) (hstop : Tile.stop ⟨x.pos, seg⟩ = s'.stop)
    (hlt : s.stop < s'.stop) (hfin : seg.fin = s'.finQueued) :
    Queues isn s' { L with again := R, fresh := [⟨x.pos, seg⟩], front := x.pos } := by
  have hxa : x ∈ L.again := by simp [hR]
  have hnxt := h.nxt_le
  refine h.setEnd hg (by rw [hunsent]; simp) (by rw [hR]; exact List.sublist_append_left R [x])
    (fun t ht ↦ ?_) (fun t ht ↦ ?_) (fun t ht ↦ ?_) ⟨rfl, hstop⟩ fun t ht ↦ ?_
  · rw [List.mem_singleton.1 ht]
    exact hok
  · rw [List.mem_singleton.1 ht, hstop, ← hfin, and_iff_left rfl]
  · -- nothing that was sent is behind the tile
    have hsep := h.separate
    rw [hR, ← List.append_assoc] at hsep
    have hmem : t ∈ L.unacked ++ L.again := by
      rw [hR, ← List.append_assoc]
      exact List.mem_append_left _ ht
    have h1 := (h.sent t hmem).1
    have h2 := (h.ok_old hmem).lt_stop
    rcases (List.pairwise_append.1 hsep).2.2 t ht x (by simp) with h3 | h3
    · exact h3
    · omega
  · rw [List.mem_singleton.1 ht, hstop]
    omega

end Queues

/-! ### Tiles in order -/

namespace InOrder

variable {isn : SeqNum} {s s' : SendSide} {L : Layout} {x : Tile}

theorem rearrange {U R : List Tile} (ho : InOrder isn s L)
    (hperm : (U ++ R).Perm (L.unacked ++ L.again)) (hR : R.Pairwise (NotAfter Tile.pos))
    (hlbb : s'.sndLbb = s.sndLbb) (hstop : s'.stop = s.stop) :
    InOrder isn s' { L with unacked := U, again := R } := by
  obtain ⟨p, zs, hzs, hp, hpieces⟩ := ho.old
  have hall : ∀ t ∈ U ++ R, L.acked < t.stop := by
    intro t ht
    rcases List.mem_append.1 (hperm.mem_iff.1 ht) with ht | ht
    · exact ho.unacked t ht
    · exact ho.again t ht
  exact {
    old := ⟨p, zs, hzs.trans hperm.symm, hp, hpieces⟩
    sorted := hR
    front_le := ho.front_le
    unacked := fun t ht ↦ hall t (List.mem_append_left R ht)
    again := fun t ht ↦ hall t (List.mem_append_right U ht)
    sndLbb := by rw [hlbb, hstop, ho.sndLbb] }

theorem sendFresh {N : List Tile} (ho : InOrder isn s L) (h : Queues isn s L) (hR : L.again = [])
    (hN : L.fresh = x :: N) (hlbb : s'.sndLbb = s.sndLbb) (hstop : s'.stop = s.stop) :
    InOrder isn s'
      { L with unacked := L.unacked ++ [x], fresh := N, nxt := x.stop, front := x.stop } := by
  obtain ⟨p, zs, hzs, hp, hpieces⟩ := ho.old
  have hx := h.unfinished x (by simp [hN])
  have hxp : x.pos = L.front := by
    have hfresh := h.pieces
    rw [hN] at hfresh
    exact hfresh.1
  have hacked := h.acked_le
  rw [hR, List.append_nil] at hzs
  exact {
    old := by
      refine ⟨p, zs ++ [x], ?_, hp, pieces_append.2 ⟨L.front, hpieces, hxp, rfl⟩⟩
      rw [hR, List.append_nil]
      exact hzs.append_right [x]
    sorted := ho.sorted
    front_le := le_rfl
    unacked := by
      intro t ht
      rcases List.mem_append.1 ht with ht | ht
      · exact ho.unacked t ht
      · rw [List.mem_singleton.1 ht]
        exact hacked.trans_lt hx
    again := ho.again
    sndLbb := by rw [hlbb, hstop, ho.sndLbb] }

/-- What is on `unsent` is in order. -/
theorem unsent_pairwise (ho : InOrder isn s L) (h : Queues isn s L) :
    (L.again ++ L.fresh).Pairwise fun t u ↦ t.stop ≤ u.pos := by
  have hagain := pairwise_stop_le ho.sorted (h.separate.sublist (List.sublist_append_right _ _))
    fun t ht ↦ (h.ok_again ht).lt_stop
  have hfresh := h.pieces.pairwise fun t ht ↦ (h.ok_fresh ht).lt_stop.le
  refine List.pairwise_append.2 ⟨hagain, hfresh, fun t ht u hu ↦ ?_⟩
  exact (h.sent t (by simp [ht])).2.1.trans (h.fresh_bounds hu).1

/-- What an acknowledgement of new data leaves on `unsent`. -/
theorem dropWhile_unsent {a : ℕ} (ho : InOrder isn s L) (h : Queues isn s L) (ha : L.acked ≤ a)
    (han : a ≤ L.nxt) :
    (s.unsent.dropWhile fun seg ↦ SeqBetween (seqAt isn a) seg.endSeq s.sndNxt) =
      ((L.again ++ L.fresh).filter fun t ↦ a < t.stop).map Tile.seg := by
  have h1 : tcpSndBuf = 6432 := rfl
  have h2 : reach = 2 ^ 17 := rfl
  have hmem : ∀ t ∈ L.again ++ L.fresh, t ∈ L.unacked ++ L.again ++ L.fresh := by
    intro t ht
    rw [List.append_assoc]
    exact List.mem_append_right _ ht
  rw [h.unsent, List.dropWhile_map, ← dropWhile_eq_filter (ho.unsent_pairwise h)
    fun t ht ↦ (h.ok t (hmem t ht)).lt_stop]
  refine congrArg _ (takeWhile_dropWhile_congr fun t ht ↦ ?_).2
  have hn := h.near (hmem t ht)
  have hlt := (h.ok t (hmem t ht)).lt_stop
  have hstop := h.stop_le
  have hnxt := h.nxt_le
  show decide (SeqBetween (seqAt isn a) t.seg.endSeq s.sndNxt) = decide (t.stop ≤ a)
  rw [(h.ok t (hmem t ht)).endSeq, h.sndNxt, decide_eq_decide, SeqBetween,
    seqGeq_seqAt (by omega) (by omega), seqLeq_seqAt (by omega) (by omega), and_iff_left han]

theorem acknowledge {a : ℕ} (ho : InOrder isn s L) (h : Queues isn s L) (ha : L.acked ≤ a)
    (hlbb : s'.sndLbb = s.sndLbb) (hstop : s'.stop = s.stop) :
    InOrder isn s'
      { L with
        unacked := L.unacked.filter fun t ↦ a < t.stop
        again := L.again.filter fun t ↦ a < t.stop
        acked := a } := by
  obtain ⟨p, zs, hzs, hp, hpieces⟩ := ho.old
  have hle : ∀ t ∈ zs, t.pos ≤ t.stop := fun t ht ↦ (h.ok_old (hzs.mem_iff.1 ht)).lt_stop.le
  obtain ⟨q, -, hqa, hfilter⟩ := hpieces.filter hle (hp.trans ha)
  exact {
    old := by
      refine ⟨q, _, ?_, hqa, hfilter⟩
      rw [← List.filter_append]
      exact hzs.filter _
    sorted := ho.sorted.sublist List.filter_sublist
    front_le := ho.front_le
    unacked := fun t ht ↦ of_decide_eq_true (List.mem_filter.1 ht).2
    again := fun t ht ↦ of_decide_eq_true (List.mem_filter.1 ht).2
    sndLbb := by rw [hlbb, hstop, ho.sndLbb] }

/-- Other fresh tiles. -/
theorem setFresh {F : List Tile} (ho : InOrder isn s L) (hlbb : s'.sndLbb = seqAt isn s'.stop) :
    InOrder isn s' { L with fresh := F } :=
  { ho with sndLbb := hlbb }

theorem extendAgain {R F : List Tile} (ho : InOrder isn s L) (h : Queues isn s L)
    (hF : L.fresh = []) (hR : L.again = R ++ [x]) (hx : x.stop = s.stop)
    (hlbb : s'.sndLbb = seqAt isn s'.stop) :
    InOrder isn s' { L with again := R, fresh := F, front := x.pos } := by
  obtain ⟨p, zs, hzs, hp, hpieces⟩ := ho.old
  have hxa : x ∈ L.unacked ++ L.again := by simp [hR]
  have hfront : L.front = s.stop := by
    have hfresh := h.pieces
    rwa [hF] at hfresh
  have hlt : ∀ t ∈ zs, t.pos < t.stop := fun t ht ↦ (h.ok_old (hzs.mem_iff.1 ht)).lt_stop
  obtain ⟨ys, rfl, hys⟩ := hpieces.eq_concat hlt (hzs.mem_iff.2 hxa) (hx.trans hfront.symm)
  have hsub : R.Sublist L.again := by
    rw [hR]
    exact List.sublist_append_left R [x]
  rw [hR, ← List.append_assoc] at hzs
  have hxs := h.sent x hxa
  have hxlt := (h.ok_old hxa).lt_stop
  exact {
    old := ⟨p, ys, (List.perm_append_right_iff [x]).1 hzs, hp, hys⟩
    sorted := ho.sorted.sublist hsub
    front_le := by
      show x.pos ≤ L.nxt
      omega
    unacked := ho.unacked
    again := fun t ht ↦ ho.again t (hsub.subset ht)
    sndLbb := hlbb }

/-- An acknowledgement of new data takes the acknowledged tiles off both queues. -/
theorem acknowledge_queues {a oversize : ℕ} (ho : InOrder isn s L) (h : Queues isn s L)
    (ha : L.acked ≤ a) (han : a ≤ L.nxt) (hos : oversize = 0 ∨ oversize = s.unsentOversize) :
    Queues isn
      { s with
        unacked := s.unacked.dropWhile fun seg ↦ SeqLeq seg.endSeq (seqAt isn a)
        lastack := seqAt isn a
        sndBuf := s.sndBuf + (a - L.acked)
        unsent := s.unsent.dropWhile fun seg ↦ SeqBetween (seqAt isn a) seg.endSeq s.sndNxt
        unsentOversize := oversize }
      { L with
        unacked := L.unacked.filter fun t ↦ a < t.stop
        again := L.again.filter fun t ↦ a < t.stop
        acked := a } := by
  have hfresh : (L.fresh.filter fun t ↦ a < t.stop) = L.fresh :=
    List.filter_eq_self.2 fun t ht ↦ decide_eq_true (han.trans_lt (h.unfinished t ht))
  have hpair := (List.pairwise_append.1 (ho.unsent_pairwise h)).1
  have hsuffix : (L.again.filter fun t ↦ a < t.stop) <:+ L.again := by
    rw [← dropWhile_eq_filter hpair fun t ht ↦ (h.ok_again ht).lt_stop]
    exact List.dropWhile_suffix _
  rw [ho.dropWhile_unsent h ha han, List.filter_append, hfresh]
  exact (h.acknowledge ha han).dropUnsent hsuffix (List.suffix_refl _) h.pieces le_rfl hos

end InOrder

/-! ### The last segment gets longer -/

namespace Queues

variable {isn : SeqNum} {s s' : SendSide} {L : Layout}

/-- The last segment on `unsent` ends with the stream and gets longer. -/
theorem growLast {qs : List TcpSeg} {last seg : TcpSeg} (h : Queues isn s L) (hg : Grows isn s s')
    (hunsent : s.unsent = qs ++ [last]) (hend : last.endSeq = s.sndLbb)
    (hunsent' : s'.unsent = qs ++ [seg]) (hfin : seg.fin = s'.finQueued) (hlt : s.stop < s'.stop)
    (hok : ∀ x : Tile, x.seg = last → x.Ok isn s.written → x.stop = s.stop →
      Tile.Ok isn s'.written ⟨x.pos, seg⟩ ∧ Tile.stop ⟨x.pos, seg⟩ = s'.stop) :
    ∃ L', Queues isn s' L' ∧ L'.nxt = L.nxt ∧ L'.front ≤ s.stop ∧ (∃ t ∈ L'.fresh, t.seg = seg) ∧
      (s'.sndLbb = seqAt isn s'.stop → InOrder isn s L → InOrder isn s' L') := by
  obtain ⟨x, rfl, ⟨F, hF, hqs⟩ | ⟨hF, R, hR, hqs⟩⟩ := h.last_tile hunsent
  · have hx : x ∈ L.fresh := by simp [hF]
    have hxs := h.stop_of_endSeq (t := x) (by simp [hx]) hg.opened hend
    obtain ⟨hxok, hstop⟩ := hok x rfl (h.ok_fresh hx) hxs
    refine ⟨_, h.extendTile hg hF (by rw [hunsent', hqs]) hxok hstop hfin, rfl, ?_, ?_,
      fun hlbb ho ↦ ho.setFresh hlbb⟩
    · exact h.pieces.le fun t ht ↦ (h.ok_fresh ht).lt_stop.le
    · exact ⟨_, List.mem_append_right _ List.mem_cons_self, rfl⟩
  · have hx : x ∈ L.again := by simp [hR]
    have hxs := h.stop_of_endSeq (t := x) (by simp [hx]) hg.opened hend
    obtain ⟨hxok, hstop⟩ := hok x rfl (h.ok_again hx) hxs
    refine ⟨_, h.extendAgain hg hR hxs (by rw [hunsent', hqs]) hxok hstop hlt hfin, rfl, ?_, ?_,
      fun hlbb ho ↦ ho.extendAgain h hF hR hxs hlbb⟩
    · have := (h.ok_again hx).lt_stop
      show x.pos ≤ s.stop
      omega
    · exact ⟨_, List.mem_cons_self, rfl⟩

/-- The bytes of a segment that is extended by what the application writes. -/
theorem ok_extend {x : Tile} {v : List Byte} {clen : ℕ} (hx : x.Ok isn s.written)
    (hstop : x.stop = s.stop) (hopen : s.finQueued = false) (hsyn : x.seg.syn = false)
    (hfin : x.seg.fin = false) (hlen : x.seg.data.length + v.length < 2 ^ 16) :
    Tile.Ok isn (s.written ++ v)
        ⟨x.pos, { x.seg with data := x.seg.data ++ v, clen := clen }⟩ ∧
      Tile.stop ⟨x.pos, { x.seg with data := x.seg.data ++ v, clen := clen }⟩ = s.stop + v.length := by
  have hend : x.pos + x.seg.data.length = s.written.length + 1 := by
    have h1 := hstop
    rw [Tile.stop, TcpSeg.tcpLen, hx.len, hsyn, hfin, SendSide.stop, SendSide.fins, hopen] at h1
    simpa using h1
  have hlen' : toU16 (x.seg.data ++ v).length = x.seg.data.length + v.length := by
    rw [List.length_append]
    exact Nat.mod_eq_of_lt hlen
  have htcp : TcpSeg.tcpLen { x.seg with data := x.seg.data ++ v, clen := clen } =
      x.seg.tcpLen + v.length := by
    rw [TcpSeg.tcpLen, TcpSeg.tcpLen, hx.len]
    show toU16 (x.seg.data ++ v).length + _ = _
    rw [hlen', hsyn, hfin]
    simp
  refine ⟨⟨hx.seqno, fun i b hb ↦ ?_, ?_, ?_, fun hs ↦ ?_⟩, ?_⟩
  · rcases lt_or_ge i x.seg.data.length with hi | hi
    · rw [List.getElem?_append_left hi] at hb
      exact byteAt_append (hx.bytes i b hb)
    · rw [List.getElem?_append_right hi] at hb
      have hpos : x.pos + i = s.written.length + 1 + (i - x.seg.data.length) := by omega
      show byteAt _ (x.pos + i) = _
      rw [hpos, byteAt_append_right, hb]
  · rw [htcp]
    have := hx.tcpLen_pos
    omega
  · show (x.seg.data ++ v).length < 2 ^ 16
    rwa [List.length_append]
  · exact absurd hs (by rw [hsyn]; exact Bool.false_ne_true)
  · rw [Tile.stop, htcp, ← hstop, Tile.stop, Nat.add_assoc]

end Queues

/-! ### What is taken off `unsent` -/

/-- An acknowledgement does not take a segment off `unsent` that was not sent. -/
def SendSide.HeadKept (s : SendSide) (ackno : SeqNum) : Prop :=
  ∀ seg, s.unsent.head? = some seg → SeqLt s.sndNxt seg.endSeq →
    ¬SeqBetween ackno seg.endSeq s.sndNxt

/-- An acknowledgement does not take the `FIN` off `unsent` before it was sent. -/
def SendSide.FinStays (s : SendSide) (ackno : SeqNum) : Prop :=
  ∀ seg ∈ s.unsent.takeWhile fun seg ↦ SeqBetween ackno seg.endSeq s.sndNxt,
    seg.fin = true → ¬SeqLt s.sndNxt seg.endSeq

namespace Queues

variable {isn ackno : SeqNum} {s : SendSide} {L : Layout} {t u : Tile}

/-- An acknowledgement that takes a tile off that was sent is one of what was sent. -/
theorem exists_acked (h : Queues isn s L) (ht : t ∈ L.unacked ++ L.again)
    (hack : SeqBetween ackno t.seg.endSeq s.sndNxt) :
    ∃ k, t.stop ≤ k ∧ k ≤ L.nxt ∧ ackno = seqAt isn k := by
  have h2 : reach = 2 ^ 17 := rfl
  have hlt := (h.ok_old ht).lt_stop
  obtain ⟨hle, -, hr⟩ := h.sent t ht
  obtain ⟨k, hk, hk', rfl⟩ := exists_seqAt isn ackno t.stop
  obtain ⟨hge, hleq⟩ := hack
  rw [(h.ok_old ht).endSeq, seqGeq_iff, seqAt_sub hk hk'] at hge
  rw [h.sndNxt, seqLeq_seqAt (by omega) (by omega)] at hleq
  exact ⟨k, hk, hleq, rfl⟩

/-- An acknowledgement of what was sent takes no fresh tile off. -/
theorem fresh_kept {k : ℕ} (h : Queues isn s L) (ht : t ∈ L.fresh) (hk : k ≤ L.nxt)
    (hr : L.nxt ≤ k + reach) : ¬SeqBetween (seqAt isn k) t.seg.endSeq s.sndNxt := by
  have h2 : reach = 2 ^ 17 := rfl
  have hn := h.near (t := t) (by simp [ht])
  have hlt := h.unfinished t ht
  rintro ⟨hge, -⟩
  rw [(h.ok_fresh ht).endSeq, seqGeq_seqAt (by omega) (by omega)] at hge
  omega

/-- The test that takes segments off `unsent`. -/
def takenOff (s : SendSide) (ackno : SeqNum) (t : Tile) : Bool :=
  decide (SeqBetween ackno t.seg.endSeq s.sndNxt)

/-- The fresh tiles stay, if the first segment on `unsent` does not leave without having been sent. -/
theorem dropWhile_fresh (h : Queues isn s L) (hhead : s.HeadKept ackno)
    (hagain : L.again.dropWhile (takenOff s ackno) = []) :
    L.fresh.dropWhile (takenOff s ackno) = L.fresh := by
  have h2 : reach = 2 ^ 17 := rfl
  rcases hF : L.fresh with - | ⟨t, F⟩
  · rfl
  have ht : t ∈ L.fresh := by simp [hF]
  refine List.dropWhile_cons_of_neg fun htest ↦ ?_
  have hback : SeqBetween ackno t.seg.endSeq s.sndNxt := of_decide_eq_true htest
  rcases hR : L.again with - | ⟨r, R⟩
  · -- it is the first one on `unsent`
    have hfirst : s.unsent.head? = some t.seg := by rw [h.unsent, hR, hF]; rfl
    have hlt := (h.seqLt_endSeq (t := t) (by simp [ht])).2 (h.unfinished t ht)
    exact hhead t.seg hfirst hlt hback
  · -- the acknowledgement is one of what was sent
    have hr : r ∈ L.unacked ++ L.again := by simp [hR]
    have htaken : takenOff s ackno r = true := List.dropWhile_eq_nil_iff.1 hagain r (by simp [hR])
    obtain ⟨k, hk, hkn, rfl⟩ := h.exists_acked hr (of_decide_eq_true htaken)
    have hsent := (h.sent r hr).2.2
    have hlt := (h.ok_old hr).lt_stop
    exact h.fresh_kept ht hkn (by omega) hback

/-- What an acknowledgement takes off `unsent`, of whatever sequence number it is. -/
theorem dropAcked {oversize : ℕ} (h : Queues isn s L) (ackno : SeqNum)
    (hos : oversize = 0 ∨ oversize = s.unsentOversize) :
    ∃ R F front, Queues isn
        { s with
          unsent := s.unsent.dropWhile fun seg ↦ SeqBetween ackno seg.endSeq s.sndNxt
          unsentOversize := oversize }
        { L with again := R, fresh := F, front := front } ∧
      (s.HeadKept ackno → F = L.fresh ∧ front = L.front ∧
        ((∀ k, L.acked < k → k ≤ L.nxt → ackno ≠ seqAt isn k) →
          (∀ t ∈ L.again, L.acked < t.stop) → R = L.again)) ∧
      (s.FinStays ackno → ∀ t ∈ L.fresh, t.seg.fin = true → t ∈ F) := by
  have hunsent : (s.unsent.dropWhile fun seg ↦ SeqBetween ackno seg.endSeq s.sndNxt) =
      ((L.again ++ L.fresh).dropWhile (takenOff s ackno)).map Tile.seg := by
    rw [h.unsent, List.dropWhile_map]
    rfl
  -- an acknowledgement of nothing new takes nothing off that was sent
  have hkept : (∀ k, L.acked < k → k ≤ L.nxt → ackno ≠ seqAt isn k) →
      (∀ t ∈ L.again, L.acked < t.stop) → L.again.dropWhile (takenOff s ackno) = L.again := by
    intro hnew hagain
    rcases hR : L.again with - | ⟨r, R⟩
    · rfl
    refine List.dropWhile_cons_of_neg fun htest ↦ ?_
    have hr : r ∈ L.again := by simp [hR]
    obtain ⟨k, hk, hkn, hack⟩ :=
      h.exists_acked (List.mem_append_right _ hr) (of_decide_eq_true htest)
    exact hnew k ((hagain r hr).trans_le hk) hkn hack
  rw [hunsent, List.dropWhile_append]
  by_cases hR : L.again.dropWhile (takenOff s ackno) = []
  · -- all tiles to be sent again are taken off
    rw [hR]
    obtain ⟨m, htake, hdrop⟩ := pieces_append.1
      ((List.takeWhile_append_dropWhile (p := takenOff s ackno) (l := L.fresh)).symm ▸ h.pieces)
    have hm : L.front ≤ m := htake.le fun t ht ↦
      (h.ok_fresh ((List.takeWhile_sublist _).subset ht)).lt_stop.le
    refine ⟨[], L.fresh.dropWhile (takenOff s ackno), m, ?_, fun hhead ↦ ?_,
      fun hstays t ht hfin ↦ ?_⟩
    · exact h.dropUnsent List.nil_suffix (List.dropWhile_suffix _) hdrop hm hos
    · have hF := h.dropWhile_fresh hhead hR
      rw [hF] at hdrop
      exact ⟨hF, hdrop.start_unique h.pieces, fun hnew hagain ↦ hR.symm.trans (hkept hnew hagain)⟩
    · have hsplit := List.takeWhile_append_dropWhile (p := takenOff s ackno) (l := L.fresh)
      rw [← hsplit] at ht
      refine (List.mem_append.1 ht).resolve_left fun htaken ↦ ?_
      have hfresh : t ∈ L.fresh := (List.takeWhile_sublist _).subset htaken
      refine hstays t.seg ?_ hfin ((h.seqLt_endSeq (by simp [hfresh])).2 (h.unfinished t hfresh))
      rw [h.unsent, List.takeWhile_map, List.takeWhile_append_of_pos]
      · exact List.mem_map_of_mem (List.mem_append_right _ htaken)
      · exact List.dropWhile_eq_nil_iff.1 hR
  · refine ⟨_, L.fresh, L.front, ?_, fun _ ↦ ⟨rfl, rfl, hkept⟩, fun _ t ht _ ↦ ht⟩
    rw [if_neg (by simpa using hR)]
    exact h.dropUnsent (List.dropWhile_suffix _) (List.suffix_refl _) h.pieces le_rfl hos

end Queues

end Lwip.Tcp
