import LwipPoc.Tcp.RcvWindow

/-!
# The length of the send queues

`snd_queuelen` counts the pbufs of the segments on `unsent` and `unacked`. It goes up where segments are
made or extended, and down where an acknowledgement takes them off; a retransmission moves them from one
queue to the other, and sending moves them back.

**A segment that is sent could be lost from the count.** `tcp_output` frees a segment without sequence
numbers instead of putting it on `unacked`, and `len` is a `u16_t`: it is zero for `2 ^ 16` bytes. Segments
do grow beyond the MSS, when the peer makes it smaller, and they are extended while a part of them is
acknowledged. What saves the count is the window: a segment of which so much is acknowledged starts far
behind `lastack`, so that it needs a window of almost `2 ^ 32` when its length is taken for zero. That it
is not so far behind that this wraps as well is the invariant here (`Placed`).

**Purging does not reset the count**: a connection that is reset by `tcp_close` goes into `TIME_WAIT` with
empty queues, and the count that it had (`exists_queuelen_stale`).
-/

namespace Lwip.Tcp

open Accounts (Edit Edits)

variable {acks : SeqNum → Prop} {data : Prop} {isn : SeqNum} {a b : Accounts} {A S B : ℕ}
  {U R : List Tile} {t : Tile}

/-! ### Where the segments are -/

/-- How far a segment may be behind `lastack` while it waits for an acknowledgement. -/
def ackReach : ℕ := 2 ^ 16 + 1

/-- A segment of a stream that ends at `B`. Its data may be longer than its `len` says. -/
structure Tile.Held (isn : SeqNum) (B : ℕ) (t : Tile) : Prop where
  seqno : t.seg.seqno = seqAt isn t.pos
  le_end : t.pos + t.seg.data.length ≤ B
  nonempty : t.seg.data = [] → t.seg.syn = true ∨ t.seg.fin = true
  clen_pos : 0 < t.seg.clen

/-- **The positions** of the counters and of the segments. -/
structure Placed (isn : SeqNum) (A S B : ℕ) (U R : List Tile) (a : Accounts) : Prop where
  unacked : a.unacked = U.map Tile.seg
  unsent : a.unsent = R.map Tile.seg
  lastack : a.lastack = seqAt isn A
  sndNxt : a.sndNxt = seqAt isn S
  sndLbb : a.sndLbb = seqAt isn B
  /-- The `FIN` that goes with data is credited and not charged: then `A` passes `B`. -/
  room : a.sndBuf + B = A + tcpSndBuf
  acked_le : A ≤ S
  sent_le : S ≤ B + 1
  sndWnd : a.sndWnd < 2 ^ 16
  held : ∀ t ∈ U ++ R, t.Held isn B
  sorted : U.Pairwise (NotAfter Tile.pos)
  sent : ∀ t ∈ U, t.stop ≤ S ∧ A ≤ t.pos + ackReach
  near : ∀ t ∈ R, S ≤ t.pos + reach
  /-- The segments in front of another one are sent before it, and do not leave it far behind. -/
  ahead : R.Pairwise fun x y ↦ x.stop ≤ S ∨ x.stop ≤ y.pos + ackReach

namespace Tile.Held

theorem mono (h : t.Held isn A) (hle : A ≤ B) : t.Held isn B := { h with le_end := h.le_end.trans hle }

theorem stop_le_pos (t : Tile) : t.stop ≤ t.pos + 2 ^ 16 := by
  have hlen : t.seg.len < 2 ^ 16 := Nat.mod_lt _ (by decide)
  rw [Tile.stop, TcpSeg.tcpLen]
  split_ifs <;> omega

theorem stop_le (h : t.Held isn B) : t.stop ≤ B + 1 := by
  have hlen : t.seg.len ≤ t.seg.data.length := Nat.mod_le _ _
  have hend := h.le_end
  rw [Tile.stop, TcpSeg.tcpLen]
  split_ifs <;> omega

theorem endSeq (h : t.Held isn B) : t.seg.endSeq = seqAt isn t.stop := by
  rw [TcpSeg.endSeq, h.seqno, Tile.stop, seqAt_add]

/-- A segment without sequence numbers has `2 ^ 16` bytes. -/
theorem length_of_tcpLen (h : t.Held isn B) (hzero : t.seg.tcpLen = 0) :
    t.seg.len = 0 ∧ 2 ^ 16 ≤ t.seg.data.length := by
  rw [TcpSeg.tcpLen] at hzero
  have hlen : t.seg.len = 0 := by omega
  refine ⟨hlen, ?_⟩
  have hpos : t.seg.data.length ≠ 0 := by
    intro hnil
    have hflag := h.nonempty (List.eq_nil_of_length_eq_zero hnil)
    rw [if_pos (by simpa using hflag)] at hzero
    omega
  rw [TcpSeg.len, toU16] at hlen
  omega

end Tile.Held

namespace Placed

theorem end_le (h : Placed isn A S B U R a) : B ≤ A + 6432 ∧ A ≤ B + 1 ∧ S ≤ A + 6433 := by
  have h1 : tcpSndBuf = 6432 := rfl
  have hroom := h.room
  have hacked := h.acked_le
  have hsent := h.sent_le
  omega

/-- No segment is far behind `snd_nxt`. -/
theorem near_all (h : Placed isn A S B U R a) (ht : t ∈ U ++ R) : S ≤ t.pos + reach ∧ t.pos ≤ S + 6432 := by
  have h1 : ackReach = 2 ^ 16 + 1 := rfl
  have h2 : reach = 2 ^ 17 := rfl
  obtain ⟨hB, -, hS⟩ := h.end_le
  have hacked := h.acked_le
  have hend := (h.held t ht).le_end
  refine ⟨?_, by omega⟩
  rcases List.mem_append.1 ht with ht | ht
  · have := (h.sent t ht).2
    omega
  · exact h.near t ht

theorem seqLt_seqno (h : Placed isn A S B U R a) {u : Tile} (ht : t ∈ U ++ R) (hu : u ∈ U ++ R) :
    SeqLt t.seg.seqno u.seg.seqno ↔ t.pos < u.pos := by
  have h2 : reach = 2 ^ 17 := rfl
  have ht' := h.near_all ht
  have hu' := h.near_all hu
  rw [(h.held t ht).seqno, (h.held u hu).seqno, seqLt_seqAt (by omega) (by omega)]

/-- What is sent next is not far behind `lastack`, and has sequence numbers. -/
theorem fits (h : Placed isn A S B U R a) (ht : t ∈ R)
    (hwnd : (t.seg.seqno - a.lastack + BitVec.ofNat 32 t.seg.len).toNat ≤ a.sndWnd) :
    A ≤ t.pos + t.seg.len ∧ 0 < t.seg.tcpLen := by
  have h2 : reach = 2 ^ 17 := rfl
  have hheld := h.held t (List.mem_append_right _ ht)
  obtain ⟨hB, -, hS⟩ := h.end_le
  have hacked := h.acked_le
  have hsndWnd := h.sndWnd
  have hnear := h.near t ht
  have hend := hheld.le_end
  have hlen : t.seg.len < 2 ^ 16 := Nat.mod_lt _ (by decide)
  have hfit : A ≤ t.pos + t.seg.len := by
    rw [hheld.seqno, h.lastack, seqAt, seqAt] at hwnd
    by_contra hbehind
    have hback : (isn + BitVec.ofNat 32 t.pos - (isn + BitVec.ofNat 32 A) +
        BitVec.ofNat 32 t.seg.len).toNat = 2 ^ 32 - (A - t.pos - t.seg.len) := by
      bv_omega
    omega
  refine ⟨hfit, Nat.pos_of_ne_zero fun hzero ↦ ?_⟩
  obtain ⟨hnone, hlong⟩ := hheld.length_of_tcpLen hzero
  omega

/-! ### Between the queues -/

/-- Sorting in, where the sequence numbers compare like the positions. -/
theorem insertUnacked_map (h : ∀ u ∈ U, SeqLt u.seg.seqno t.seg.seqno ↔ u.pos < t.pos)
    (h' : ∀ u ∈ U, SeqLt t.seg.seqno u.seg.seqno ↔ t.pos < u.pos) (hU : U.Pairwise (NotAfter Tile.pos)) :
    ∃ U' : List Tile, Pcb.insertUnacked t.seg (U.map Tile.seg) = U'.map Tile.seg ∧ U'.Perm (t :: U) ∧
      U'.Pairwise (NotAfter Tile.pos) := by
  rcases List.eq_nil_or_concat' U with rfl | ⟨ys, y, rfl⟩
  · exact ⟨[t], rfl, List.Perm.refl _, List.pairwise_singleton _ _⟩
  · have hlast : ((ys ++ [y]).map Tile.seg).getLast? = some y.seg := by simp
    rw [Pcb.insertUnacked, hlast]
    dsimp only
    split_ifs with hlt
    · exact ⟨_, Queues.insertSorted_map h, insertTile_perm t _, insertTile_sorted hU⟩
    · refine ⟨ys ++ [y] ++ [t], by simp, List.perm_append_singleton _ _, ?_⟩
      rw [h' y (by simp), not_lt] at hlt
      refine List.pairwise_append.2 ⟨hU, List.pairwise_singleton _ _, fun x hx z hz ↦ ?_⟩
      obtain rfl := List.mem_singleton.1 hz
      rcases List.mem_append.1 hx with hx | hx
      · exact ((List.pairwise_append.1 hU).2.2 x hx y (by simp)).trans hlt
      · obtain rfl := List.mem_singleton.1 hx
        exact hlt

theorem sendHead {seg : TcpSeg} {rest : List TcpSeg} (h : Placed isn A S B U R a)
    (hunsent : a.unsent = seg :: rest)
    (hwnd : (seg.seqno - a.lastack + BitVec.ofNat 32 seg.len).toNat ≤ a.sndWnd) :
    0 < seg.tcpLen ∧ ∃ S' U' R', Placed isn A S' B U' R' (a.sendHead seg rest) := by
  have h2 : reach = 2 ^ 17 := rfl
  have h3 : ackReach = 2 ^ 16 + 1 := rfl
  rcases R with - | ⟨t, R⟩
  · rw [h.unsent] at hunsent
    cases hunsent
  obtain ⟨rfl, rfl⟩ := List.cons.inj (h.unsent.symm.trans hunsent)
  have hmem : t ∈ U ++ t :: R := by simp
  have hheld := h.held t hmem
  obtain ⟨hfit, hpos⟩ := h.fits List.mem_cons_self hwnd
  have hlen : t.seg.len < 2 ^ 16 := Nat.mod_lt _ (by decide)
  have hstop := hheld.stop_le
  have hstop' := Tile.Held.stop_le_pos t
  obtain ⟨hB, -, hS⟩ := h.end_le
  have hacked := h.acked_le
  have hnear := h.near t List.mem_cons_self
  have hlt : SeqLt a.sndNxt t.seg.endSeq ↔ S < t.stop := by
    have hle : t.pos ≤ t.stop := Nat.le_add_right ..
    rw [h.sndNxt, hheld.endSeq, seqLt_seqAt (by omega) (by omega)]
  obtain ⟨U', hU', hperm, hsorted⟩ := insertUnacked_map (t := t) (U := U)
    (fun u hu ↦ h.seqLt_seqno (by simp [hu]) hmem) (fun u hu ↦ h.seqLt_seqno hmem (by simp [hu])) h.sorted
  refine ⟨hpos, max S t.stop, U', R, ?_⟩
  exact {
    unacked := by
      rw [← hU', ← h.unacked]
      exact if_pos hpos
    unsent := rfl
    lastack := h.lastack
    sndNxt := by
      show (if SeqLt a.sndNxt t.seg.endSeq then t.seg.endSeq else a.sndNxt) = _
      split_ifs with hnew
      · rw [hheld.endSeq, max_eq_right (hlt.1 hnew).le]
      · rw [h.sndNxt, max_eq_left (not_lt.1 fun hnew' ↦ hnew (hlt.2 hnew'))]
    sndLbb := h.sndLbb
    room := h.room
    acked_le := hacked.trans (le_max_left ..)
    sent_le := max_le h.sent_le hstop
    sndWnd := h.sndWnd
    held := fun u hu ↦ h.held u <| by
      rcases List.mem_append.1 hu with hu | hu
      · rcases List.mem_cons.1 (hperm.mem_iff.1 hu) with rfl | hu <;> simp [*]
      · simp [hu]
    sorted := hsorted
    sent := fun u hu ↦ by
      rcases List.mem_cons.1 (hperm.mem_iff.1 hu) with rfl | hu
      · exact ⟨le_max_right .., by omega⟩
      · obtain ⟨hle, hreach⟩ := h.sent u hu
        exact ⟨hle.trans (le_max_left ..), hreach⟩
    near := fun u hu ↦ by
      have hu' := h.near u (List.mem_cons_of_mem _ hu)
      have hstop : t.stop ≤ S ∨ t.stop ≤ u.pos + ackReach := (List.pairwise_cons.1 h.ahead).1 u hu
      omega
    ahead := (List.pairwise_cons.1 h.ahead).2.imp fun hxy ↦ hxy.imp_left fun hle ↦
      hle.trans (le_max_left ..) }

/-- A timeout. -/
theorem requeue (h : Placed isn A S B U R a) :
    Placed isn A S B [] (U ++ R) { a with unsent := a.unacked ++ a.unsent, unacked := [] } := by
  have h2 : reach = 2 ^ 17 := rfl
  have h3 : ackReach = 2 ^ 16 + 1 := rfl
  obtain ⟨-, -, hS⟩ := h.end_le
  exact {
    unacked := rfl
    unsent := by rw [List.map_append, ← h.unacked, ← h.unsent]
    lastack := h.lastack
    sndNxt := h.sndNxt
    sndLbb := h.sndLbb
    room := h.room
    acked_le := h.acked_le
    sent_le := h.sent_le
    sndWnd := h.sndWnd
    held := h.held
    sorted := List.Pairwise.nil
    sent := fun _ ht ↦ absurd ht List.not_mem_nil
    near := fun t ht ↦ (h.near_all ht).1
    ahead := by
      refine List.pairwise_append.2 ⟨?_, h.ahead, fun t ht _ _ ↦ Or.inl (h.sent t ht).1⟩
      exact h.sorted.imp_of_mem fun ht _ _ ↦ Or.inl (h.sent _ ht).1 }

theorem rexmit {seg : TcpSeg} {rest : List TcpSeg} (h : Placed isn A S B U R a)
    (hunacked : a.unacked = seg :: rest) (oversize : ℕ) :
    ∃ U' R', Placed isn A S B U' R' { a with
      unacked := rest, unsent := Pcb.insertSorted seg a.unsent, unsentOversize := oversize } := by
  have h3 : ackReach = 2 ^ 16 + 1 := rfl
  rcases U with - | ⟨t, U⟩
  · rw [h.unacked] at hunacked
    cases hunacked
  obtain ⟨rfl, rfl⟩ := List.cons.inj (h.unacked.symm.trans hunacked)
  have hmem : t ∈ t :: U ++ R := by simp
  have hperm := insertTile_perm t R
  refine ⟨U, insertTile t R, ?_⟩
  exact {
    unacked := rfl
    unsent := by
      rw [← Queues.insertSorted_map fun u hu ↦ h.seqLt_seqno (by simp [hu]) hmem, ← h.unsent]
    lastack := h.lastack
    sndNxt := h.sndNxt
    sndLbb := h.sndLbb
    room := h.room
    acked_le := h.acked_le
    sent_le := h.sent_le
    sndWnd := h.sndWnd
    held := fun u hu ↦ h.held u <| by
      rcases List.mem_append.1 hu with hu | hu
      · simp [hu]
      · rcases mem_insertTile.1 hu with rfl | hu <;> simp [*]
    sorted := (List.pairwise_cons.1 h.sorted).2
    sent := fun u hu ↦ h.sent u (List.mem_cons_of_mem _ hu)
    near := fun u hu ↦ by
      rcases mem_insertTile.1 hu with rfl | hu
      · exact (h.near_all hmem).1
      · exact h.near u hu
    ahead := by
      -- those in front of it have a smaller number
      rw [insertTile, List.orderedInsert_eq_take_drop]
      have hsplit := List.takeWhile_append_dropWhile (p := fun u ↦ decide ¬NotAfter Tile.pos t u) (l := R)
      have hahead := h.ahead
      rw [← hsplit] at hahead
      obtain ⟨htake, hdrop, hcross⟩ := List.pairwise_append.1 hahead
      refine List.pairwise_append.2 ⟨htake, List.pairwise_cons.2 ⟨fun u _ ↦ ?_, hdrop⟩, fun u hu v hv ↦ ?_⟩
      · exact Or.inl (h.sent t List.mem_cons_self).1
      · rcases List.mem_cons.1 hv with rfl | hv
        · have hbefore : u.pos < v.pos := by
            simpa [NotAfter] using List.mem_takeWhile_imp hu
          have hstop := Tile.Held.stop_le_pos u
          exact Or.inr (by omega)
        · exact hcross u hu v hv }

/-! ### At the end of the stream -/

/-- The last segment may grow, and new ones come behind it. -/
theorem grow {V Q : List Tile} {B' : ℕ} (h : Placed isn A S B U R a) (hle : B ≤ B')
    (hunacked : b.unacked = a.unacked)
    (hunsent : b.unsent = (V ++ Q).map Tile.seg) (hlastack : b.lastack = a.lastack)
    (hsndNxt : b.sndNxt = a.sndNxt) (hsndLbb : b.sndLbb = seqAt isn B')
    (hsndBuf : b.sndBuf + B' = a.sndBuf + B) (hsndWnd : b.sndWnd = a.sndWnd)
    (hold : ∀ t ∈ V, t.Held isn B' ∧ t.pos ≤ B ∧ S ≤ t.pos + reach)
    (hahead : V.Pairwise fun x y ↦ x.stop ≤ S ∨ x.stop ≤ y.pos + ackReach)
    (hnew : ∀ t ∈ Q, t.Held isn B' ∧ B ≤ t.pos) (hsorted : Q.Pairwise (NotAfter Tile.pos)) :
    Placed isn A S B' U (V ++ Q) b := by
  have h2 : reach = 2 ^ 17 := rfl
  have h3 : ackReach = 2 ^ 16 + 1 := rfl
  have hsent := h.sent_le
  exact {
    unacked := hunacked.trans h.unacked
    unsent := hunsent
    lastack := hlastack.trans h.lastack
    sndNxt := hsndNxt.trans h.sndNxt
    sndLbb := hsndLbb
    room := hsndBuf.trans h.room
    acked_le := h.acked_le
    sent_le := by omega
    sndWnd := hsndWnd ▸ h.sndWnd
    held := fun t ht ↦ by
      rcases List.mem_append.1 ht with ht | ht
      · exact (h.held t (List.mem_append_left _ ht)).mono hle
      · rcases List.mem_append.1 ht with ht | ht
        · exact (hold t ht).1
        · exact (hnew t ht).1
    sorted := h.sorted
    sent := h.sent
    near := fun t ht ↦ by
      rcases List.mem_append.1 ht with ht | ht
      · exact (hold t ht).2.2
      · have := (hnew t ht).2
        omega
    ahead := by
      refine List.pairwise_append.2 ⟨hahead, hsorted.imp fun {x y} hxy ↦ ?_, fun x hx y hy ↦ ?_⟩
      · have hpos : x.pos ≤ y.pos := hxy
        have hstop := Tile.Held.stop_le_pos x
        exact Or.inr (by omega)
      · have hpos := (hold x hx).2.1
        have hpos' := (hnew y hy).2
        have hstop := Tile.Held.stop_le_pos x
        exact Or.inr (by omega) }

/-- The segments on `unsent`, for `grow`. -/
theorem old (h : Placed isn A S B U R a) {B' : ℕ} (hle : B ≤ B') (ht : t ∈ R) :
    t.Held isn B' ∧ t.pos ≤ B ∧ S ≤ t.pos + reach := by
  have hheld := h.held t (List.mem_append_right _ ht)
  exact ⟨hheld.mono hle, (Nat.le_add_right ..).trans hheld.le_end, h.near t ht⟩

/-- The same for a last segment that is replaced by one at its position. -/
theorem grown {Rs : List Tile} {t' : Tile} {B' : ℕ} (h : Placed isn A S B U (Rs ++ [t]) a) (hle : B ≤ B')
    (hheld : t'.Held isn B') (hpos : t'.pos = t.pos) :
    (∀ u ∈ Rs ++ [t'], u.Held isn B' ∧ u.pos ≤ B ∧ S ≤ u.pos + reach) ∧
      (Rs ++ [t']).Pairwise fun x y ↦ x.stop ≤ S ∨ x.stop ≤ y.pos + ackReach := by
  refine ⟨fun u hu ↦ ?_, ?_⟩
  · rcases List.mem_append.1 hu with hu | hu
    · exact h.old hle (List.mem_append_left _ hu)
    · obtain rfl := List.mem_singleton.1 hu
      obtain ⟨-, hold⟩ := h.old hle (List.mem_append_right _ (List.mem_singleton.2 rfl))
      exact ⟨hheld, hpos ▸ hold⟩
  · obtain ⟨hRs, -, hcross⟩ := List.pairwise_append.1 h.ahead
    refine List.pairwise_append.2 ⟨hRs, List.pairwise_singleton _ _, fun x hx y hy ↦ ?_⟩
    obtain rfl := List.mem_singleton.1 hy
    rw [hpos]
    exact hcross x hx t (List.mem_singleton.2 rfl)

/-- The segments that phase 3 of `tcp_write` makes. -/
theorem laid {q : List TcpSeg} {p n : ℕ} (h : Laid (seqAt isn p) n q) :
    ∃ Q : List Tile, q = Q.map Tile.seg ∧ (∀ t ∈ Q, t.Held isn (p + n) ∧ p ≤ t.pos) ∧
      Q.Pairwise (NotAfter Tile.pos) := by
  induction q generalizing p n with
  | nil => exact ⟨[], rfl, fun _ ht ↦ absurd ht List.not_mem_nil, List.Pairwise.nil⟩
  | cons seg q ih =>
    obtain ⟨⟨hseq, hsyn, hfin, hclen⟩, hpos, hle, hrest⟩ := h
    rw [← seqAt_add] at hrest
    obtain ⟨Q, rfl, hQ, hsorted⟩ := ih hrest
    rw [show p + seg.data.length + (n - seg.data.length) = p + n by omega] at hQ
    refine ⟨⟨p, seg⟩ :: Q, rfl, fun t ht ↦ ?_, List.pairwise_cons.2 ⟨fun t ht ↦ ?_, hsorted⟩⟩
    · rcases List.mem_cons.1 ht with rfl | ht
      · refine ⟨⟨hseq, Nat.add_le_add_left hle p, fun hnil ↦ ?_, hclen⟩, le_rfl⟩
        replace hnil : seg.data = [] := hnil
        rw [hnil] at hpos
        cases hpos
      · exact ⟨(hQ t ht).1, (Nat.le_add_right ..).trans (hQ t ht).2⟩
    · exact (Nat.le_add_right ..).trans (hQ t ht).2

theorem mark {qs : List TcpSeg} {seg : TcpSeg} (h : Placed isn A S B U R a)
    (hunsent : a.unsent = qs ++ [seg]) :
    ∃ R', Placed isn A S B U R' { a with unsent := qs ++ [{ seg with fin := true }] } := by
  obtain ⟨Rs, T, rfl, hqs, hseg⟩ := List.map_eq_append_iff.1 (h.unsent.symm.trans hunsent)
  obtain ⟨t, rfl, rfl⟩ := List.map_eq_singleton_iff.1 hseg
  have hheld := h.held t (by simp)
  have hheld' : Tile.Held isn B ⟨t.pos, { t.seg with fin := true }⟩ :=
    ⟨hheld.seqno, hheld.le_end, fun _ ↦ Or.inr rfl, hheld.clen_pos⟩
  obtain ⟨hold, hahead⟩ := h.grown le_rfl hheld' rfl
  refine ⟨_, h.grow (Q := []) le_rfl rfl ?_ rfl rfl h.sndLbb rfl rfl hold hahead
    (fun _ ht ↦ absurd ht List.not_mem_nil) List.Pairwise.nil⟩
  simp [hqs]

theorem enqueue (h : Placed isn A S B U R a) (hbuf : 0 < a.sndBuf) (len : ℕ) :
    ∃ R', Placed isn A S (B + 1) U R' { a with
      unsent := a.unsent ++ [⟨a.sndLbb, [], false, true, 1⟩]
      unsentOversize := 0
      sndLbb := a.sndLbb + 1
      sndBuf := a.sndBuf - 1
      sndQueuelen := len } := by
  have hfin : Tile.Held isn (B + 1) ⟨B, ⟨a.sndLbb, [], false, true, 1⟩⟩ :=
    ⟨h.sndLbb, Nat.le_succ B, fun _ ↦ Or.inr rfl, Nat.one_pos⟩
  refine ⟨_, h.grow (Q := [⟨B, ⟨a.sndLbb, [], false, true, 1⟩⟩]) (Nat.le_succ B) rfl ?_ rfl rfl ?_ ?_ rfl
    (fun t ht ↦ h.old (Nat.le_succ B) ht) h.ahead (fun t ht ↦ ?_) (List.pairwise_singleton _ _)⟩
  · rw [List.map_append, ← h.unsent]
    rfl
  · rw [seqAt_succ, ← h.sndLbb]
  · show a.sndBuf - 1 + (B + 1) = a.sndBuf + B
    omega
  · obtain rfl := List.mem_singleton.1 ht
    exact ⟨hfin, le_rfl⟩

theorem write {v : List Byte} {n clen : ℕ} {q : List TcpSeg} (h : Placed isn A S B U R a)
    (hbuf : v.length + n ≤ a.sndBuf) (hlast : a.unsent = [] → v = [] ∧ clen = 0)
    (hlaid : Laid (a.sndLbb + BitVec.ofNat 32 v.length) n q) (oversize len : ℕ) :
    ∃ R', Placed isn A S (B + (v.length + n)) U R' { a with
      unsent := Pcb.extendLast a.unsent v clen ++ q
      unsentOversize := oversize
      sndLbb := a.sndLbb + BitVec.ofNat 32 (v.length + n)
      sndBuf := a.sndBuf - (v.length + n)
      sndQueuelen := len } := by
  rw [h.sndLbb, ← seqAt_add] at hlaid
  obtain ⟨Q, rfl, hQ, hsorted⟩ := laid hlaid
  have hnew : ∀ t ∈ Q, t.Held isn (B + (v.length + n)) ∧ B ≤ t.pos := by
    intro t ht
    obtain ⟨hheld, hpos⟩ := hQ t ht
    exact ⟨hheld.mono (by omega), by omega⟩
  have hsub : a.sndBuf - (v.length + n) + (B + (v.length + n)) = a.sndBuf + B := by omega
  have hlbb : a.sndLbb + BitVec.ofNat 32 (v.length + n) = seqAt isn (B + (v.length + n)) := by
    rw [seqAt_add, ← h.sndLbb]
  have hle : B ≤ B + (v.length + n) := Nat.le_add_right ..
  rcases List.eq_nil_or_concat' R with rfl | ⟨Rs, t, rfl⟩
  · obtain ⟨rfl, rfl⟩ := hlast h.unsent
    refine ⟨_, h.grow (V := []) hle rfl ?_ rfl rfl hlbb hsub rfl (fun _ ht ↦ absurd ht List.not_mem_nil)
      List.Pairwise.nil hnew hsorted⟩
    show Pcb.extendLast a.unsent [] 0 ++ _ = _
    rw [h.unsent]
    rfl
  · have hheld := h.held t (by simp)
    have hheld' : Tile.Held isn (B + (v.length + n))
        ⟨t.pos, { t.seg with data := t.seg.data ++ v, clen := t.seg.clen + clen }⟩ := by
      refine ⟨hheld.seqno, ?_, fun hnil ↦ hheld.nonempty (List.append_eq_nil_iff.1 hnil).1,
        Nat.add_pos_left hheld.clen_pos _⟩
      have hend := hheld.le_end
      dsimp only
      rw [List.length_append]
      omega
    obtain ⟨hold, hahead⟩ := h.grown hle hheld' rfl
    refine ⟨_, h.grow hle rfl ?_ rfl rfl hlbb hsub rfl hold hahead hnew hsorted⟩
    show Pcb.extendLast a.unsent v clen ++ _ = _
    rw [h.unsent, Pcb.extendLast]
    simp

/-! ### Acknowledgements -/

/-- The position of an acknowledgement number. -/
theorem exists_acked (h : Placed isn A S B U R a) {ackno : SeqNum}
    (hold : ¬SeqLeq ackno a.lastack) (hnew : SeqBetween ackno (a.lastack + 1) a.sndNxt) :
    ∃ A', ackno = seqAt isn A' ∧ A < A' ∧ A' ≤ S := by
  obtain ⟨-, -, hS⟩ := h.end_le
  have hacked := h.acked_le
  obtain ⟨A', hle, hlt, rfl⟩ := exists_seqAt isn ackno (A + 1)
  rw [SeqBetween, h.lastack, ← seqAt_succ, h.sndNxt, seqGeq_iff, seqAt_sub hle hlt] at hnew
  have hfar : A' - A ≠ 2 ^ 31 := by
    rintro hfar
    refine hold (seqLeq_iff.2 (Or.inr ?_))
    rw [h.lastack, seqAt_sub (by omega) (by omega), hfar]
  refine ⟨A', rfl, hle, ?_⟩
  exact (seqLeq_seqAt (by omega) (by omega)).1 hnew.2

theorem ack {ackno : SeqNum} {p u : List TcpSeg} (h : Placed isn A S B U R a)
    (hold : ¬SeqLeq ackno a.lastack) (hnew : SeqBetween ackno (a.lastack + 1) a.sndNxt) (hunacked : a.unacked = p ++ u)
    (hu : ∀ seg ∈ u.head?, ¬SeqLeq seg.endSeq ackno) (len : ℕ) :
    ∃ A' U', Placed isn A' S B U' R { a with
      lastack := ackno
      sndBuf := toU16 (a.sndBuf + toU16 (ackno - a.lastack).toNat)
      sndQueuelen := len
      unacked := u } := by
  have h1 : tcpSndBuf = 6432 := rfl
  have h3 : ackReach = 2 ^ 16 + 1 := rfl
  have h2 : reach = 2 ^ 17 := rfl
  obtain ⟨hB, hA, hS⟩ := h.end_le
  have hacked := h.acked_le
  have hsent := h.sent_le
  have hroom := h.room
  obtain ⟨A', rfl, hlt, hle⟩ := h.exists_acked hold hnew
  obtain ⟨V, W, rfl, rfl, rfl⟩ := List.map_eq_append_iff.1 (h.unacked.symm.trans hunacked)
  have hsorted := (List.pairwise_append.1 h.sorted).2.1
  -- the first one that stays is not acknowledged, and the others come after it
  have hreach : ∀ t ∈ W, A' ≤ t.pos + ackReach := by
    rcases W with - | ⟨x, W⟩
    · exact fun t ht ↦ absurd ht List.not_mem_nil
    have hx := hu x.seg (by simp)
    have hxmem : x ∈ (V ++ x :: W) ++ R := by simp
    obtain ⟨hxs, -⟩ := h.near_all hxmem
    have hxstop : x.stop ≤ S := (h.sent x (by simp)).1
    have hxpos : x.pos ≤ x.stop := Nat.le_add_right ..
    rw [(h.held x hxmem).endSeq, seqLeq_seqAt (by omega) (by omega)] at hx
    have hstop := Tile.Held.stop_le_pos x
    intro t ht
    rcases List.mem_cons.1 ht with rfl | ht
    · omega
    · have hxt : x.pos ≤ t.pos := (List.pairwise_cons.1 hsorted).1 t ht
      omega
  have hcredit : (seqAt isn A' - a.lastack).toNat = A' - A := by
    rw [h.lastack, seqAt_sub hlt.le (by omega)]
  exact ⟨A', W, {
    unacked := rfl
    unsent := h.unsent
    lastack := rfl
    sndNxt := h.sndNxt
    sndLbb := h.sndLbb
    room := by
      dsimp only
      rw [hcredit, toU16, toU16]
      omega
    acked_le := hle
    sent_le := hsent
    sndWnd := h.sndWnd
    held := fun t ht ↦ h.held t <| by
      rcases List.mem_append.1 ht with ht | ht <;> simp [ht]
    sorted := hsorted
    sent := fun t ht ↦ ⟨(h.sent t (List.mem_append_right _ ht)).1, hreach t ht⟩
    near := h.near
    ahead := h.ahead }⟩

theorem trim {p u : List TcpSeg} (h : Placed isn A S B U R a) (hunsent : a.unsent = p ++ u)
    (len oversize : ℕ) :
    ∃ R', Placed isn A S B U R' { a with sndQueuelen := len, unsent := u, unsentOversize := oversize } := by
  obtain ⟨V, W, rfl, -, rfl⟩ := List.map_eq_append_iff.1 (h.unsent.symm.trans hunsent)
  refine ⟨W, { h with
    unsent := rfl
    held := fun t ht ↦ h.held t ?_
    near := fun t ht ↦ h.near t (List.mem_append_right _ ht)
    ahead := (List.pairwise_append.1 h.ahead).2.1 }⟩
  rcases List.mem_append.1 ht with ht | ht <;> simp [ht]

/-- Without segments the rest is about the counters. -/
theorem empty (hunacked : b.unacked = []) (hunsent : b.unsent = []) (hlastack : b.lastack = seqAt isn A)
    (hsndNxt : b.sndNxt = seqAt isn S) (hsndLbb : b.sndLbb = seqAt isn B)
    (hroom : b.sndBuf + B = A + tcpSndBuf) (hacked : A ≤ S) (hsent : S ≤ B + 1)
    (hwnd : b.sndWnd < 2 ^ 16) : Placed isn A S B [] [] b where
  unacked := hunacked
  unsent := hunsent
  lastack := hlastack
  sndNxt := hsndNxt
  sndLbb := hsndLbb
  room := hroom
  acked_le := hacked
  sent_le := hsent
  sndWnd := hwnd
  held := fun _ ht ↦ absurd ht List.not_mem_nil
  sorted := List.Pairwise.nil
  sent := fun _ ht ↦ absurd ht List.not_mem_nil
  near := fun _ ht ↦ absurd ht List.not_mem_nil
  ahead := List.Pairwise.nil

end Placed

/-! ### The count -/

theorem clens_eq_zero {q : List TcpSeg} (h : ∀ seg ∈ q, 0 < seg.clen) : clens q = 0 ↔ q = [] := by
  rcases q with - | ⟨seg, q⟩
  · exact iff_of_true rfl rfl
  · have hpos := h seg List.mem_cons_self
    rw [clens_cons]
    refine iff_of_false (by omega) (List.cons_ne_nil _ _)

/-- **The count is right** where a connection has queues. -/
structure Counted (isn : SeqNum) (a : Accounts) : Prop where
  placed : ∃ A S B U R, Placed isn A S B U R a
  purged : a.state.over = true → a.unacked ++ a.unsent = []
  count : a.state.over = false → a.sndQueuelen = clens (a.unacked ++ a.unsent)
  limit : a.sndQueuelen ≤ tcpSndQueuelen
  /-- Up to the `SYN` of the peer the own one is all there is. -/
  syn : a.state = .synSent → a.sndWndMax = 0 ∧ a.unsentOversize = 0 ∧ a.sndLbb = a.lastack + 1 ∧
    a.sndNxt = a.sndLbb ∧ a.sndBuf + 1 = tcpSndBuf ∧
    ∃ seg, a.unacked ++ a.unsent = [seg] ∧ seg.seqno = a.lastack ∧ seg.len = 0 ∧ seg.clen = 1

namespace Counted

theorem clen_pos (h : Counted isn a) {seg : TcpSeg} (hseg : seg ∈ a.unacked ++ a.unsent) : 0 < seg.clen := by
  obtain ⟨A, S, B, U, R, hp⟩ := h.placed
  rw [hp.unacked, hp.unsent, ← List.map_append] at hseg
  obtain ⟨t, ht, rfl⟩ := List.mem_map.1 hseg
  exact (hp.held t ht).clen_pos

/-- The segments are moved between the queues. -/
theorem move (h : Counted isn a) (hplaced : ∃ A S B U R, Placed isn A S B U R b)
    (hstate : b.state = a.state) (hlen : b.sndQueuelen = a.sndQueuelen) (hmax : b.sndWndMax = a.sndWndMax)
    (hover : b.unsentOversize = 0 ∨ b.unsentOversize = a.unsentOversize) (hlbb : b.sndLbb = a.sndLbb)
    (hlast : b.lastack = a.lastack) (hbuf : b.sndBuf = a.sndBuf)
    (hnxt : a.state = .synSent → b.sndNxt = a.sndNxt)
    (hperm : (b.unacked ++ b.unsent).Perm (a.unacked ++ a.unsent)) : Counted isn b where
  placed := hplaced
  purged := fun hb ↦ (h.purged (hstate ▸ hb)) ▸ hperm |>.eq_nil
  count := fun hb ↦ by rw [hlen, clens_perm hperm, h.count (hstate ▸ hb)]
  limit := hlen ▸ h.limit
  syn := fun hb ↦ by
    obtain ⟨hmax', hover', hlbb', hnxt', hbuf', seg, hseg, hrest⟩ := h.syn (hstate ▸ hb)
    rw [hseg] at hperm
    rw [hmax, hlbb, hlast, hbuf, hnxt (hstate ▸ hb)]
    exact ⟨hmax', hover.elim id fun ho ↦ ho.trans hover', hlbb', hnxt', hbuf', seg,
      List.perm_singleton.1 hperm, hrest⟩

/-- The connection is open, and its queues may change. -/
theorem resize (hplaced : ∃ A S B U R, Placed isn A S B U R b) (hover : b.state.over = false)
    (hne : b.state ≠ .synSent) (hlen : b.sndQueuelen = clens (b.unacked ++ b.unsent))
    (hlimit : b.sndQueuelen ≤ tcpSndQueuelen) : Counted isn b :=
  ⟨hplaced, fun hb ↦ absurd (hover.symm.trans hb) Bool.false_ne_true, fun _ ↦ hlen, hlimit,
    fun hb ↦ absurd hb hne⟩

theorem not_over_of_closable (h : a.Closable) : a.state.over = false ∧ a.state ≠ .synSent := by
  rcases h with hs | hs | hs <;> rw [hs] <;> exact ⟨rfl, nofun⟩

/-- The connection is over. -/
theorem ended (hplaced : ∃ A S B U R, Placed isn A S B U R b) (hover : b.state.over = true)
    (hnil : b.unacked ++ b.unsent = []) (hlimit : b.sndQueuelen ≤ tcpSndQueuelen) : Counted isn b where
  placed := hplaced
  purged := fun _ ↦ hnil
  count := fun hb ↦ absurd (hover.symm.trans hb) nofun
  limit := hlimit
  syn := fun hb ↦ by
    rw [hb] at hover
    cases hover

/-- Segments come off a queue. -/
theorem shrink (h : Counted isn a) (hplaced : ∃ A S B U R, Placed isn A S B U R b)
    (hstate : b.state = a.state) (hne : a.state ≠ .synSent) {p : List TcpSeg}
    (hperm : (a.unacked ++ a.unsent).Perm (p ++ (b.unacked ++ b.unsent)))
    (hlen : b.sndQueuelen = a.sndQueuelen - clens p) : Counted isn b where
  placed := hplaced
  purged := fun hb ↦ by
    have hnil := h.purged (hstate ▸ hb)
    rw [hnil] at hperm
    exact (List.append_eq_nil_iff.1 hperm.nil_eq.symm).2
  count := fun hb ↦ by
    have hcount := h.count (hstate ▸ hb)
    rw [clens_perm hperm, clens_append] at hcount
    omega
  limit := by
    have := h.limit
    omega
  syn := fun hb ↦ absurd (hstate ▸ hb) hne

theorem sendHead {seg : TcpSeg} {rest : List TcpSeg} (h : Counted isn a) (hunsent : a.unsent = seg :: rest)
    (hwnd : (seg.seqno - a.lastack + BitVec.ofNat 32 seg.len).toNat ≤ a.sndWnd) :
    Counted isn (a.sendHead seg rest) := by
  obtain ⟨A, S, B, U, R, hp⟩ := h.placed
  obtain ⟨hpos, S', U', R', hp'⟩ := hp.sendHead hunsent hwnd
  have hqueued : (a.sendHead seg rest).unacked = Pcb.insertUnacked seg a.unacked := if_pos hpos
  refine h.move ⟨A, S', B, U', R', hp'⟩ rfl rfl rfl (Or.inr rfl) rfl rfl rfl (fun hs ↦ ?_) ?_
  · -- the `SYN` ends where the stream does
    obtain ⟨-, -, hlbb, hnxt, -, syn, hsyn, hseq, hlen, -⟩ := h.syn hs
    rw [hunsent] at hsyn
    obtain rfl : seg = syn := List.mem_singleton.1 (hsyn ▸ by simp)
    have hend : seg.endSeq = a.sndNxt := by
      rw [TcpSeg.tcpLen] at hpos
      rw [TcpSeg.endSeq, TcpSeg.tcpLen, hnxt, hlbb, hseq]
      split_ifs at hpos ⊢ with hflag
      · rw [hlen]
        rfl
      · omega
    show (if SeqLt a.sndNxt seg.endSeq then seg.endSeq else a.sndNxt) = _
    rw [hend, ite_self]
  · rw [hqueued, hunsent]
    exact ((insertUnacked_perm seg a.unacked).append_right rest).trans List.perm_middle.symm

theorem synAcked {seg : TcpSeg} {rest : List TcpSeg} (h : Counted isn a) (hs : a.state = .synSent)
    (hunacked : a.unacked = seg :: rest) (rcvNxt : SeqNum) {wnd : ℕ} (hwnd : wnd < 2 ^ 16) :
    Counted isn { a with
      state := .established
      rcvNxt := rcvNxt
      rcvAnnRightEdge := rcvNxt
      lastack := seg.seqno + 1
      sndWnd := wnd
      sndWndMax := wnd
      sndBuf := toU16 (a.sndBuf + 1)
      sndQueuelen := a.sndQueuelen - 1
      unacked := rest } := by
  have h1 : tcpSndBuf = 6432 := rfl
  obtain ⟨A, S, B, U, R, hp⟩ := h.placed
  obtain ⟨-, -, hlbb, hnxt, hbuf, syn, hsyn, hseq, -, hclen⟩ := h.syn hs
  rw [hunacked, List.cons_append, List.cons.injEq] at hsyn
  obtain ⟨rfl, hnil⟩ := hsyn
  obtain ⟨rfl, hunsent⟩ := List.append_eq_nil_iff.1 hnil
  have hroom := hp.room
  have hacked := hp.acked_le
  have hsent := hp.sent_le
  obtain rfl : B = A + 1 := by omega
  obtain rfl : S = A + 1 := by
    rw [hp.sndNxt, hp.sndLbb, seqAt_inj (by omega) (by omega)] at hnxt
    exact hnxt
  have hcount := h.count (congrArg TcpState.over hs)
  refine resize ⟨A + 1, A + 1, A + 1, [], [], Placed.empty rfl hunsent ?_ hp.sndNxt hp.sndLbb ?_ le_rfl
    hsent hwnd⟩ rfl nofun ?_ ?_
  · show seg.seqno + 1 = _
    rw [hseq, hp.lastack, seqAt_succ]
  · show toU16 (a.sndBuf + 1) + (A + 1) = A + 1 + tcpSndBuf
    rw [toU16]
    omega
  · show a.sndQueuelen - 1 = clens ([] ++ a.unsent)
    rw [hcount, hunacked, hunsent]
    simp [clens, hclen]
  · show a.sndQueuelen - 1 ≤ _
    have := h.limit
    omega

/-- **An edit keeps the count.** -/
theorem edit (h : Counted isn a) (hedit : Edit acks data a b) : Counted isn b := by
  have h1 : tcpSndQueuelen = 40 := rfl
  have hlimit := h.limit
  obtain ⟨A, S, B, U, R, hp⟩ := h.placed
  cases hedit with
  | announce | accept | recved | fin =>
    exact h.move ⟨A, S, B, U, R, { hp with }⟩ rfl rfl rfl (Or.inr rfl) rfl rfl rfl (fun _ ↦ rfl)
      (List.Perm.refl _)
  | sendHead seg rest hunsent hwnd => exact h.sendHead hunsent hwnd
  | clear =>
    exact h.move ⟨A, S, B, U, R, { hp with }⟩ rfl rfl rfl (Or.inl rfl) rfl rfl rfl (fun _ ↦ rfl)
      (List.Perm.refl _)
  | requeue =>
    exact h.move ⟨A, S, B, [], U ++ R, hp.requeue⟩ rfl rfl rfl (Or.inr rfl) rfl rfl rfl (fun _ ↦ rfl)
      (List.Perm.refl _)
  | rexmit seg rest oversize hunacked hover =>
    obtain ⟨U', R', hp'⟩ := hp.rexmit hunacked oversize
    refine h.move ⟨A, S, B, U', R', hp'⟩ rfl rfl rfl hover rfl rfl rfl (fun _ ↦ rfl) ?_
    rw [hunacked]
    exact ((insertSorted_perm seg a.unsent).append_left rest).trans List.perm_middle
  | mark qs seg hclosable hunsent hsyn =>
    obtain ⟨hover, hne⟩ := not_over_of_closable hclosable
    obtain ⟨R', hp'⟩ := hp.mark hunsent
    refine resize ⟨A, S, B, U, R', hp'⟩ hover hne ?_ hlimit
    rw [h.count hover, hunsent, clens_append, clens_append, clens_append, clens_append]
    rfl
  | enqueue hclosable hlen hbuf =>
    obtain ⟨hover, hne⟩ := not_over_of_closable hclosable
    obtain ⟨R', hp'⟩ := hp.enqueue hbuf (toU16 (a.sndQueuelen + 1))
    have hwrap : toU16 (a.sndQueuelen + 1) = a.sndQueuelen + 1 := Nat.mod_eq_of_lt (by omega)
    refine resize ⟨A, S, B + 1, U, R', hp'⟩ hover hne ?_ ?_
    · rw [hwrap, h.count hover, ← List.append_assoc, clens_append _ [_]]
      rfl
    · rw [hwrap]
      exact hlen
  | recount =>
    have hwrap : toU16 a.sndQueuelen = a.sndQueuelen := Nat.mod_eq_of_lt (by omega)
    exact h.move ⟨A, S, B, U, R, { hp with }⟩ rfl hwrap rfl (Or.inr rfl) rfl rfl rfl (fun _ ↦ rfl)
      (List.Perm.refl _)
  | write v n clen q oversize hover hblank hbuf hlast hlaid hpos hlen =>
    obtain ⟨R', hp'⟩ := hp.write hbuf hlast hlaid oversize (a.sndQueuelen + clen + clens q)
    refine resize ⟨A, S, _, U, R', hp'⟩ hover (fun hs ↦ hblank ?_) ?_ hlen
    · obtain ⟨hmax, hoversize, -, -, -, syn, hsyn, -, hnone, -⟩ := h.syn hs
      refine ⟨hmax, hoversize, fun last hl ↦ ?_⟩
      have hmem : last ∈ a.unacked ++ a.unsent := List.mem_append_right _ (List.mem_of_getLast? hl)
      rw [hsyn, List.mem_singleton] at hmem
      rw [hmem]
      exact hnone
    · rw [h.count hover, ← List.append_assoc, clens_append _ q, clens_append, clens_append]
      rcases List.eq_nil_or_concat' a.unsent with hnil | ⟨qs, last, hqs⟩
      · obtain ⟨-, rfl⟩ := hlast hnil
        rw [hnil]
        rfl
      · rw [hqs, Pcb.extendLast, List.getLast?_append_of_ne_nil _ (List.cons_ne_nil _ _)]
        simp [clens]
        omega
  | turn state hfrom hover hto hstate =>
    exact resize ⟨A, S, B, U, R, { hp with }⟩ hstate hto (h.count hover) hlimit
  | drop state oversize hstate =>
    exact ended ⟨A, S, B, [], [], Placed.empty rfl rfl hp.lastack hp.sndNxt hp.sndLbb hp.room hp.acked_le
      hp.sent_le hp.sndWnd⟩ hstate rfl hlimit
  | remove state hover hstate => exact ended ⟨A, S, B, U, R, { hp with }⟩ hstate (h.purged hover) hlimit
  | window wnd wndMax hstate hwnd =>
    exact h.shrink (p := []) ⟨A, S, B, U, R, { hp with sndWnd := hwnd }⟩ rfl hstate (List.Perm.refl _) rfl
  | ack ackno p u hstate hack hnew hunacked hp' hu hlen hold =>
    obtain ⟨A', U', hp'⟩ := hp.ack hold hnew hunacked hu (a.sndQueuelen - clens p)
    refine h.shrink ⟨A', S, B, U', R, hp'⟩ rfl hstate (p := p) ?_ rfl
    rw [hunacked, List.append_assoc]
  | trim p u oversize hstate hunsent hlen =>
    obtain ⟨R', hp'⟩ := hp.trim hunsent (a.sndQueuelen - clens p) oversize
    refine h.shrink ⟨A, S, B, U, R', hp'⟩ rfl hstate (p := p) ?_ rfl
    rw [hunsent, ← List.append_assoc, ← List.append_assoc]
    exact List.perm_append_comm.append_right u
  | synAcked seg rest rcvNxt wnd hstate hunacked hlen hwnd => exact h.synAcked hstate hunacked rcvNxt hwnd

theorem edits (h : Counted isn a) (hedits : Edits acks data a b) : Counted isn b := by
  induction hedits with
  | refl => exact h
  | tail _ hedit ih => exact ih.edit hedit

end Counted

/-! ### The assertions -/

/-- **The count of a control block**: it is the length of the queues, and zero when they are empty. When
the connection is over, there are none. -/
structure Pcb.QueuelenRight (s : Pcb) : Prop where
  purged : s.state.over = true → s.unacked = [] ∧ s.unsent = []
  count : s.state.over = false → s.sndQueuelen = clens (s.unacked ++ s.unsent)
  zero : s.state.over = false → (s.sndQueuelen = 0 ↔ s.unacked = [] ∧ s.unsent = [])
  limit : s.sndQueuelen ≤ tcpSndQueuelen

theorem Counted.right {s : Pcb} (h : Counted isn s.accounts) : s.QueuelenRight where
  purged := fun hs ↦ List.append_eq_nil_iff.1 (h.purged hs)
  count := h.count
  zero := fun hs ↦ by
    rw [show s.sndQueuelen = _ from h.count hs, clens_eq_zero fun seg hseg ↦ h.clen_pos hseg]
    exact List.append_eq_nil_iff
  limit := h.limit

/-- A segment that was counted comes off. -/
theorem Pcb.freeAcked_some {s : Pcb} {seg : TcpSeg}
    (h : s.sndQueuelen = seg.clen + clens (s.unacked ++ s.unsent)) :
    ∃ v, s.freeAcked seg = some v ∧ v.unacked = s.unacked ∧ v.unsent = s.unsent ∧
      v.sndQueuelen = clens (v.unacked ++ v.unsent) := by
  have hne : s.freeAcked seg ≠ none := by
    rw [freeAcked, if_neg (by omega)]
    dsimp only
    rw [if_neg]
    · exact Option.some_ne_none _
    · rintro ⟨hlen, hunacked, hunsent⟩
      rw [h, hunacked, hunsent] at hlen
      exact hlen (Nat.add_sub_cancel_left ..)
  obtain ⟨v, hv⟩ := Option.ne_none_iff_exists'.1 hne
  obtain ⟨-, hacc⟩ := freeAcked_accounts hv
  have hunacked : v.unacked = s.unacked := congrArg Accounts.unacked hacc
  have hunsent : v.unsent = s.unsent := congrArg Accounts.unsent hacc
  have hlen : v.sndQueuelen = s.sndQueuelen - seg.clen := congrArg Accounts.sndQueuelen hacc
  refine ⟨v, hv, hunacked, hunsent, ?_⟩
  rw [hlen, h, hunacked, hunsent, Nat.add_sub_cancel_left]

theorem Pcb.ackUnacked_ne_none {ackno : SeqNum} {q : List TcpSeg} {s : Pcb} (hs : s.unacked = q)
    (h : q ≠ [] → s.sndQueuelen = clens (s.unacked ++ s.unsent)) : ackUnacked ackno q s ≠ none := by
  induction q generalizing s with
  | nil => exact Option.some_ne_none _
  | cons seg rest ih =>
    rw [ackUnacked]
    split_ifs
    · have hcount : ({ s with unacked := rest } : Pcb).sndQueuelen =
          seg.clen + clens (rest ++ s.unsent) := by
        show s.sndQueuelen = _
        rw [h (List.cons_ne_nil _ _), hs, List.cons_append, clens_cons]
      obtain ⟨v, hv, hunacked, -, hlen⟩ := freeAcked_some hcount
      rw [hv, Option.bind_some]
      exact ih hunacked fun _ ↦ hlen
    · exact Option.some_ne_none _

theorem Pcb.ackUnsent_ne_none {ackno : SeqNum} {q : List TcpSeg} {s : Pcb} (hs : s.unsent = q)
    (h : q ≠ [] → s.sndQueuelen = clens (s.unacked ++ s.unsent)) : ackUnsent ackno q s ≠ none := by
  induction q generalizing s with
  | nil => exact Option.some_ne_none _
  | cons seg rest ih =>
    rw [ackUnsent]
    by_cases hacked : SeqBetween ackno seg.endSeq s.sndNxt
    · have hcount : ({ s with
          unsent := rest
          unsentOversize := if rest = [] then 0 else s.unsentOversize } : Pcb).sndQueuelen =
          seg.clen + clens (s.unacked ++ rest) := by
        show s.sndQueuelen = _
        rw [h (List.cons_ne_nil _ _), hs, clens_perm List.perm_middle, clens_cons]
      obtain ⟨v, hv, -, hunsent, hlen⟩ := freeAcked_some hcount
      rw [if_pos hacked, hv, Option.bind_some]
      exact ih hunsent fun _ ↦ hlen
    · rw [if_neg hacked]
      exact Option.some_ne_none _

theorem Counted.count_of_ne (h : Counted isn a) (hne : a.unacked ++ a.unsent ≠ []) :
    a.sndQueuelen = clens (a.unacked ++ a.unsent) :=
  h.count (eq_false_of_ne_true fun hover ↦ hne (h.purged hover))

theorem Counted.newAck_ne_none {s : Pcb} (h : Counted isn s.accounts) (ackno : SeqNum) :
    s.newAck ackno ≠ none := by
  have hcount := Pcb.countAcked_accounts (s := s) ackno
  have hlen : (s.countAcked ackno).sndQueuelen = s.sndQueuelen := congrArg Accounts.sndQueuelen hcount
  have hunacked : (s.countAcked ackno).unacked = s.unacked := congrArg Accounts.unacked hcount
  have hunsent : (s.countAcked ackno).unsent = s.unsent := congrArg Accounts.unsent hcount
  rw [Pcb.newAck, Ne, Option.map_eq_none_iff]
  refine Pcb.ackUnacked_ne_none rfl fun hne ↦ ?_
  rw [hunacked] at hne
  rw [hlen, hunacked, hunsent]
  exact h.count_of_ne fun hnil ↦ hne (List.append_eq_nil_iff.1 hnil).1

/-- **The assertions of `tcp_receive`** about the count hold. -/
theorem Counted.receiveAck_ne_none {s : Pcb} (h : Counted isn s.accounts) (hstate : s.state ≠ .synSent)
    (g : InSeg) : s.receiveAck g ≠ none := by
  have hupdate := Pcb.updateWindow_receiver (s := s) g
  have hwindow : Edits (fun _ ↦ True) True s.accounts (s.updateWindow g).accounts :=
    Pcb.updateWindow_edits g hstate
  have hcounted := h.edits hwindow
  have hunsent : ∀ {v : Pcb}, Edits (fun _ ↦ True) True (s.updateWindow g).accounts v.accounts →
      Pcb.ackUnsent g.ackno v.unsent v ≠ none := by
    intro v hv
    refine Pcb.ackUnsent_ne_none rfl fun hne ↦ (hcounted.edits hv).count_of_ne fun hnil ↦ ?_
    exact hne (List.append_eq_nil_iff.1 hnil).2
  rw [Pcb.receiveAck]
  split_ifs with hold hnew
  · rw [Option.bind_some, Ne, Option.map_eq_none_iff]
    exact hunsent (Pcb.duplicateAck_edits g _)
  · obtain ⟨v, hv⟩ := Option.ne_none_iff_exists'.1 (hcounted.newAck_ne_none g.ackno)
    rw [hv, Option.bind_some, Ne, Option.map_eq_none_iff]
    exact hunsent (Pcb.newAck_edits hv (by rwa [hupdate.state]) trivial hold hnew)
  · rw [Option.bind_some, Ne, Option.map_eq_none_iff]
    exact hunsent .refl

/-- **The assertions of `tcp_write`** at its start hold. -/
theorem Pcb.QueuelenRight.checks_ne_none {s : Pcb} (h : s.QueuelenRight) (len : ℕ) :
    s.tcpWriteChecks len ≠ none := by
  rw [tcpWriteChecks]
  split_ifs with hstate hlen hbuf hlimit hzero hqueued hempty
  all_goals first | exact Option.some_ne_none _ | skip
  · have hiff := h.zero (not_over_of_open hstate)
    exact absurd (not_or.1 hqueued) (by simpa using fun h1 h2 ↦ hzero (hiff.2 ⟨h1, h2⟩))
  · have hiff := h.zero (not_over_of_open hstate)
    exact absurd (hiff.1 (not_not.1 hzero)) hempty

/-! ### Runs -/

/-- A connection starts with its `SYN`. -/
theorem Placed.syn {seg : TcpSeg} (hunacked : b.unacked = []) (hunsent : b.unsent = [seg])
    (hlastack : b.lastack = seqAt isn 0) (hsndNxt : b.sndNxt = seqAt isn S) (hS : S ≤ 1)
    (hsndLbb : b.sndLbb = seqAt isn 1) (hroom : b.sndBuf + 1 = tcpSndBuf) (hwnd : b.sndWnd < 2 ^ 16)
    (hseq : seg.seqno = seqAt isn 0) (hdata : seg.data = []) (hsyn : seg.syn = true)
    (hclen : 0 < seg.clen) : Placed isn 0 S 1 [] [⟨0, seg⟩] b where
  unacked := hunacked
  unsent := hunsent
  lastack := hlastack
  sndNxt := hsndNxt
  sndLbb := hsndLbb
  room := hroom.trans (Nat.zero_add _).symm
  acked_le := Nat.zero_le S
  sent_le := hS.trans (Nat.le_succ 1)
  sndWnd := hwnd
  held := fun t ht ↦ by
    obtain rfl := List.mem_singleton.1 ht
    exact ⟨hseq, by rw [hdata]; exact Nat.zero_le 1, fun _ ↦ Or.inl hsyn, hclen⟩
  sorted := List.Pairwise.nil
  sent := fun _ ht ↦ absurd ht List.not_mem_nil
  near := fun t ht ↦ by
    have h2 : reach = 2 ^ 17 := rfl
    omega
  ahead := List.pairwise_singleton _ _

/-- The number of the `SYN`. -/
theorem Pcb.Starts.counted_syn {s : Pcb} (h : s.Starts) : ∃ isn, s.sndLbb = isn + 1 ∧ Counted isn s.accounts := by
  have hwnd : tcpWnd < 2 ^ 16 := by decide
  have hlimit : 1 ≤ tcpSndQueuelen := by decide
  cases h with
  | connecting iss ticks mtu =>
    rw [connecting_accounts]
    refine ⟨iss - 1, rfl, ⟨⟨0, 1, 1, [], _, Placed.syn rfl rfl ?_ ?_ le_rfl ?_ rfl hwnd ?_ rfl rfl
      Nat.one_pos⟩, nofun, fun _ ↦ rfl, hlimit, fun _ ↦ ⟨rfl, rfl, rfl, ?_, rfl, _, rfl, rfl, rfl, rfl⟩⟩⟩
    · exact (BitVec.add_zero _).symm
    · exact (BitVec.sub_add_cancel iss 1).symm
    · rfl
    · exact (BitVec.add_zero _).symm
    · exact (BitVec.sub_add_cancel iss 1).symm
  | accepting iss ticks g mtu =>
    have hlbb : (Pcb.accepting iss ticks g mtu).sndLbb = iss + 1 :=
      congrArg Accounts.sndLbb (accepting_accounts iss ticks g mtu)
    rw [accepting_accounts]
    refine ⟨iss, hlbb, ⟨⟨0, 0, 1, [], _, Placed.syn rfl rfl ?_ ?_ (Nat.zero_le 1) rfl rfl g.wnd_lt ?_ rfl rfl
      Nat.one_pos⟩, nofun, fun _ ↦ rfl, hlimit, nofun⟩⟩
    · exact (BitVec.add_zero _).symm
    · exact (BitVec.add_zero _).symm
    · exact (BitVec.add_zero _).symm

theorem Pcb.Starts.counted {s : Pcb} (h : s.Starts) : ∃ isn, Counted isn s.accounts :=
  h.counted_syn.imp fun _ hc ↦ hc.2

theorem Conn.run_counted {s : Pcb} (hs : s.Starts) {ls : List Label} {c : Conn}
    (h : runLabels Conn.step ls (Conn.start s) = some c) : ∃ isn, Counted isn c.pcb.accounts := by
  obtain ⟨isn, hcounted⟩ := hs.counted
  refine ⟨isn, runLabels_invariant (I := fun c : Conn ↦ Counted isn c.pcb.accounts) hcounted
    (fun l c c' hc hl ↦ ?_) h⟩
  obtain ⟨a, hcalls, hdata⟩ := Conn.step_edits hl
  exact (hc.edits hcalls).edits hdata

/-- A byte has arrived that the application has not given back, and it has written one that was not
sent. -/
def unreadLabels : List Label :=
  fedLabels ++ [.input ⟨1, 1001, 1000, false, false, false, true, none, [7],
      Nat.le_of_ble_eq_true rfl, Nat.le_of_ble_eq_true rfl⟩ ⟨true, true, 0, [], .ok⟩,
    .recv true true, .inputDone true, .call (.write [0] true false fun _ ↦ true)]

end Lwip.Tcp
