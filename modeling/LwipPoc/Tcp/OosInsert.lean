import LwipPoc.Tcp.Receive

/-!
# Inserting a segment out of sequence

What `tcp_oos_insert_segment` does to the sequence numbers of the queue behind the new segment. Places are counted from
the first number of that segment (`ahead`). A queue is `Tidy` if its segments follow one another within half of the
sequence space and only the last one may have `FIN`.

The loop removes the segments in front that end within the new one, and what is left begins with a segment that does
not (`oosCover_spec`). So where the new segment is cut, the segment that comes next has the rest of its numbers.
-/

namespace Lwip.Tcp

open Pcb

/-- How far a segment is ahead of a sequence number. -/
def ahead (start : SeqNum) (seg : OoSeg) : ℕ := (seg.seqno - start).toNat

/-- The sequence numbers of the data of a segment. -/
def OoSeg.numbers (seg : OoSeg) : Set SeqNum := {a | (a - seg.seqno).toNat < seg.len}

/-- The sequence numbers that a queue covers. -/
def covered (segs : List OoSeg) : Set SeqNum := {a | ∃ seg ∈ segs, a ∈ seg.numbers}

/-- The places where a queue has `FIN`. -/
def finsOf (segs : List OoSeg) : Set SeqNum := {a | ∃ seg ∈ segs, seg.fin = true ∧ a = seg.seqno + BitVec.ofNat 32 seg.len}

/-- **Sorted and disjoint**, from a sequence number on, with `FIN` at most at the end. -/
structure Tidy (start : SeqNum) (segs : List OoSeg) : Prop where
  near : ∀ seg ∈ segs, ahead start seg + seg.len ≤ 2 ^ 31
  sorted : segs.Pairwise fun a b ↦ ahead start a + a.len ≤ ahead start b
  fin : segs.Pairwise fun a _ ↦ a.fin = false

variable {start : SeqNum} {cseg seg : OoSeg} {next front rest : List OoSeg} {n : ℕ}

theorem covered_cons (seg : OoSeg) (segs : List OoSeg) : covered (seg :: segs) = seg.numbers ∪ covered segs := by
  ext a
  simp [covered]

theorem finsOf_cons_of_false (h : seg.fin = false) (segs : List OoSeg) : finsOf (seg :: segs) = finsOf segs := by
  ext a
  simp [finsOf, h]

theorem finsOf_append_of_false (h : ∀ seg ∈ front, seg.fin = false) (segs : List OoSeg) :
    finsOf (front ++ segs) = finsOf segs := by
  induction front with
  | nil => rfl
  | cons seg front ih =>
    rw [List.cons_append, finsOf_cons_of_false (h seg List.mem_cons_self), ih fun s hs ↦ h s (List.mem_cons_of_mem _ hs)]

/-! ### Comparisons -/

/-- The end of the segment that starts the counting is compared with a place. -/
theorem seqGeq_iff_le (hlen : cseg.len < 2 ^ 16) (h : ahead cseg.seqno seg + seg.len ≤ 2 ^ 31) :
    SeqGeq (cseg.seqno + BitVec.ofNat 32 cseg.len) (seg.seqno + BitVec.ofNat 32 seg.len) ↔
      ahead cseg.seqno seg + seg.len ≤ cseg.len := by
  rw [seqGeq_iff]
  rw [ahead] at h ⊢
  bv_omega

theorem seqGt_iff_lt (hlen : cseg.len < 2 ^ 16) (h : ahead cseg.seqno seg + seg.len ≤ 2 ^ 31) :
    SeqGt (cseg.seqno + BitVec.ofNat 32 cseg.len) seg.seqno ↔ ahead cseg.seqno seg < cseg.len := by
  rw [seqGt_iff]
  rw [ahead] at h ⊢
  bv_omega

/-- A number of a segment, by its place. -/
theorem mem_numbers (h : ahead start seg + seg.len ≤ 2 ^ 31) (a : SeqNum) :
    a ∈ seg.numbers ↔ ahead start seg ≤ (a - start).toNat ∧ (a - start).toNat < ahead start seg + seg.len := by
  rw [OoSeg.numbers, Set.mem_ofPred_eq]
  rw [ahead] at h ⊢
  bv_omega

/-! ### The loop -/

/-- **What the loop removes** ends within the new segment; the first one that it leaves does not. -/
theorem oosCover_spec (hlen : cseg.len < 2 ^ 16) (h : ∀ seg ∈ next, ahead cseg.seqno seg + seg.len ≤ 2 ^ 31) :
    ∃ front rest, next = front ++ rest ∧
      oosCover cseg next = ({ cseg with fin := cseg.fin || front.any OoSeg.fin }, rest) ∧
      (∀ seg ∈ front, ahead cseg.seqno seg + seg.len ≤ cseg.len) ∧
      ∀ seg ∈ rest.head?, cseg.len < ahead cseg.seqno seg + seg.len := by
  induction next generalizing cseg with
  | nil => exact ⟨[], [], rfl, by simp [oosCover], nofun, nofun⟩
  | cons seg next ih =>
    have hgeq := seqGeq_iff_le hlen (h seg List.mem_cons_self)
    by_cases hcovers : ahead cseg.seqno seg + seg.len ≤ cseg.len
    · obtain ⟨front, rest, hnext, hcover, hfront, hrest⟩ := @ih { cseg with fin := cseg.fin || seg.fin } hlen
        fun s hs ↦ h s (List.mem_cons_of_mem _ hs)
      have hcseg : (if seg.fin then { cseg with fin := true } else cseg) = { cseg with fin := cseg.fin || seg.fin } := by
        cases seg.fin <;> simp
      refine ⟨seg :: front, rest, by rw [hnext, List.cons_append], ?_, ?_, hrest⟩
      · rw [oosCover, if_pos (hgeq.2 hcovers), hcseg, hcover, List.any_cons, Bool.or_assoc]
      · exact List.forall_mem_cons.2 ⟨hcovers, hfront⟩
    · refine ⟨[], seg :: next, rfl, ?_, nofun, ?_⟩
      · rw [oosCover, if_neg (mt hgeq.1 hcovers)]
        simp
      · intro s hs
        obtain rfl : seg = s := Option.some.inj hs
        omega

/-- What is removed is covered by the new segment. -/
theorem covered_subset (hfront : ∀ seg ∈ front, ahead cseg.seqno seg + seg.len ≤ cseg.len) (hlen : cseg.len < 2 ^ 16) :
    covered front ⊆ cseg.numbers := by
  rintro a ⟨seg, hseg, ha⟩
  have hle := hfront seg hseg
  rw [@mem_numbers cseg.seqno seg (by omega)] at ha
  rw [OoSeg.numbers, Set.mem_ofPred_eq]
  omega

theorem covered_append (front rest : List OoSeg) : covered (front ++ rest) = covered front ∪ covered rest := by
  ext a
  simp [covered, or_and_right, exists_or]

/-! ### The queue -/

theorem ahead_self (cseg : OoSeg) : ahead cseg.seqno cseg = 0 := by
  rw [ahead, BitVec.sub_self]
  rfl

theorem OoSeg.mem_numbers_self (cseg : OoSeg) (a : SeqNum) : a ∈ cseg.numbers ↔ (a - cseg.seqno).toNat < cseg.len := Iff.rfl

/-- A place that is that far ahead. -/
theorem end_eq (h : ahead cseg.seqno seg + seg.len = cseg.len) (hlen : cseg.len < 2 ^ 16) :
    seg.seqno + BitVec.ofNat 32 seg.len = cseg.seqno + BitVec.ofNat 32 cseg.len := by
  rw [ahead] at h
  bv_omega

/-- Where everything is removed, the new segment takes over the `FIN`. -/
theorem finsOf_front (hlen : cseg.len < 2 ^ 16) (hfront : ∀ seg ∈ front, ahead cseg.seqno seg + seg.len ≤ cseg.len)
    (hend : ∀ seg ∈ front, seg.fin = true → cseg.len ≤ ahead cseg.seqno seg + seg.len) :
    finsOf [{ cseg with fin := front.any OoSeg.fin }] = finsOf front := by
  ext a
  constructor
  · rintro ⟨seg, hseg, hfin, rfl⟩
    obtain rfl := List.mem_singleton.1 hseg
    obtain ⟨f, hf, hffin⟩ := List.any_eq_true.1 hfin
    exact ⟨f, hf, hffin, (end_eq (le_antisymm (hfront f hf) (hend f hf hffin)) hlen).symm⟩
  · rintro ⟨f, hf, hffin, rfl⟩
    exact ⟨_, List.mem_singleton_self _, List.any_eq_true.2 ⟨f, hf, hffin⟩,
      end_eq (le_antisymm (hfront f hf) (hend f hf hffin)) hlen⟩

/-- **The new segment in front of one that it does not cover**, where it is cut. -/
theorem tidy_cut (hlen : cseg.len < 2 ^ 16) (hfin : cseg.fin = false) (h : Tidy cseg.seqno (seg :: rest))
    (hover : cseg.len < ahead cseg.seqno seg + seg.len) (hn : n = min cseg.len (ahead cseg.seqno seg)) (p : List Byte) :
    Tidy cseg.seqno ({ cseg with len := n, p := p } :: seg :: rest) ∧
      covered ({ cseg with len := n, p := p } :: seg :: rest) = cseg.numbers ∪ covered (seg :: rest) := by
  have hle : n ≤ ahead cseg.seqno seg := hn ▸ min_le_right _ _
  have hzero : ahead cseg.seqno { cseg with len := n, p := p } = 0 := ahead_self cseg
  constructor
  · refine ⟨List.forall_mem_cons.2 ⟨?_, h.near⟩, List.pairwise_cons.2 ⟨fun s hs ↦ ?_, h.sorted⟩,
      List.pairwise_cons.2 ⟨fun _ _ ↦ hfin, h.fin⟩⟩
    · rw [hzero]
      dsimp only
      omega
    · rw [hzero, Nat.zero_add]
      rcases List.mem_cons.1 hs with rfl | hs
      · exact hle
      · have hsorted := List.rel_of_pairwise_cons h.sorted hs
        exact hle.trans ((Nat.le_add_right _ _).trans hsorted)
  · rw [covered_cons, covered_cons]
    ext a
    simp only [Set.mem_union, OoSeg.mem_numbers_self, mem_numbers (h.near seg List.mem_cons_self)]
    -- what is cut off is at the front of the next segment
    rcases min_choice cseg.len (ahead cseg.seqno seg) with hmin | hmin
    · rw [hn, hmin]
    · have hcut : ahead cseg.seqno seg ≤ cseg.len := min_eq_right_iff.1 hmin
      rw [hn, hmin, ← or_assoc, ← or_assoc]
      refine or_congr_left ?_
      omega

/-- **`tcp_oos_insert_segment`** puts the segment in front of a queue that is sorted and disjoint again. Together they
cover what the segment and the old queue covered, and `FIN` is where it was. The segment has as much of its data as its
new length says. -/
theorem tcpOosInsertSegment_spec (hfin : cseg.fin = false) (hlen : cseg.len < 2 ^ 16) (h : Tidy cseg.seqno next)
    (hend : ∀ seg ∈ next, seg.fin = true → cseg.len ≤ ahead cseg.seqno seg + seg.len) :
    ∃ seg rest, tcpOosInsertSegment cseg next = seg :: rest ∧ seg.seqno = cseg.seqno ∧ Tidy cseg.seqno (seg :: rest) ∧
      covered (seg :: rest) = cseg.numbers ∪ covered next ∧ finsOf (seg :: rest) = finsOf next ∧
      (cseg.p.length = cseg.len → seg.p = cseg.p.take seg.len) := by
  obtain ⟨front, rest, rfl, hcover, hfront, hrest⟩ := oosCover_spec hlen h.near
  have hsubset := covered_subset hfront hlen
  rw [tcpOosInsertSegment, if_neg (by rw [hfin]; exact Bool.false_ne_true), hcover]
  rw [hfin, Bool.false_or]
  cases rest with
  | nil =>
    rw [List.append_nil] at h hend ⊢
    refine ⟨_, [], rfl, rfl, ⟨fun s hs ↦ ?_, List.pairwise_singleton _ _, List.pairwise_singleton _ _⟩, ?_,
      finsOf_front hlen hfront hend, fun hp ↦ (List.take_of_length_le hp.le).symm⟩
    · obtain rfl := List.mem_singleton.1 hs
      have hzero := ahead_self { cseg with fin := front.any OoSeg.fin }
      dsimp only at hzero ⊢
      omega
    · rw [Set.union_eq_left.2 hsubset, covered_cons]
      ext a
      simp [covered, OoSeg.numbers]
  | cons seg rest =>
    have hover := hrest seg rfl
    -- only the last segment may have `FIN`, and it is not among those that were removed
    have hnone : ∀ s ∈ front, s.fin = false :=
      fun s hs ↦ (List.pairwise_append.1 h.fin).2.2 s hs seg List.mem_cons_self
    have hany : front.any OoSeg.fin = false := List.any_eq_false.2 fun s hs ↦ by rw [hnone s hs]; exact Bool.false_ne_true
    have htidy : Tidy cseg.seqno (seg :: rest) := ⟨fun s hs ↦ h.near s (List.mem_append_right _ hs),
      (List.pairwise_append.1 h.sorted).2.1, (List.pairwise_append.1 h.fin).2.1⟩
    have hgt := seqGt_iff_lt hlen (htidy.near seg List.mem_cons_self)
    have hcseg : ({ cseg with fin := front.any OoSeg.fin } : OoSeg) = cseg := by
      rw [hany, ← hfin]
    have hunion : cseg.numbers ∪ covered (front ++ seg :: rest) = cseg.numbers ∪ covered (seg :: rest) := by
      rw [covered_append, ← Set.union_assoc, Set.union_eq_left.2 hsubset]
    rw [hcseg, hunion, finsOf_append_of_false hnone]
    dsimp only
    by_cases hcut : ahead cseg.seqno seg < cseg.len
    · rw [if_pos (hgt.2 hcut)]
      have hn : toU16 (seg.seqno - cseg.seqno).toNat = min cseg.len (ahead cseg.seqno seg) := by
        rw [min_eq_right hcut.le]
        exact Nat.mod_eq_of_lt (hcut.trans hlen)
      obtain ⟨htidy', hcovered⟩ := tidy_cut hlen hfin htidy hover hn
        (cseg.p.take (toU16 (seg.seqno - cseg.seqno).toNat))
      exact ⟨_, _, rfl, rfl, htidy', hcovered, finsOf_cons_of_false (by exact hfin) _, fun _ ↦ rfl⟩
    · rw [if_neg (mt hgt.1 hcut)]
      obtain ⟨htidy', hcovered⟩ := tidy_cut hlen hfin htidy hover (min_eq_left (Nat.not_lt.1 hcut)).symm cseg.p
      exact ⟨_, _, rfl, rfl, htidy', hcovered, finsOf_cons_of_false hfin _,
        fun hp ↦ (List.take_of_length_le hp.le).symm⟩

/-- Four bytes at the end of the sequence space, in front of one of them and of two more with `FIN`. -/
theorem tcpOosInsertSegment_spec_wraps :
    ∃ seg rest, tcpOosInsertSegment ⟨0xfffffffe, 4, false, false, [1, 2, 3, 4]⟩
        [⟨0xffffffff, 1, false, false, [2]⟩, ⟨1, 2, false, true, [4, 5]⟩] = seg :: rest ∧ seg.seqno = 0xfffffffe ∧
      Tidy 0xfffffffe (seg :: rest) ∧
      covered (seg :: rest) = OoSeg.numbers ⟨0xfffffffe, 4, false, false, [1, 2, 3, 4]⟩ ∪
        covered [⟨0xffffffff, 1, false, false, [2]⟩, ⟨1, 2, false, true, [4, 5]⟩] ∧
      finsOf (seg :: rest) = finsOf [⟨0xffffffff, 1, false, false, [2]⟩, ⟨1, 2, false, true, [4, 5]⟩] ∧
      ([1, 2, 3, 4].length = 4 → seg.p = [(1 : Byte), 2, 3, 4].take seg.len) :=
  tcpOosInsertSegment_spec rfl (by decide) ⟨by decide, by decide, by decide⟩ (by decide)

end Lwip.Tcp
