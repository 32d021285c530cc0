import LwipPoc.Core.Pbuf

/-!
# A chain of pbufs as a string of bytes

The functions of `pbuf.c` that walk along a chain and read or write its bytes: `pbuf_copy_partial`, `pbuf_take`,
`pbuf_get_at` and `pbuf_coalesce`, beside `pbuf_realloc` and `pbuf_copy`. What they do is a matter of the string
that the chain holds, however it is cut into pbufs, with empty ones among them.

There is one exception. A pbuf whose `len` is its `tot_len` ends a packet, and `pbuf_copy` refuses **packet queues**,
in which it has a successor. A chain with an empty pbuf at its end looks like one.
-/

namespace Lwip.Core

variable {p f t : Pbuf} {ps qs fs ts : List Pbuf} {bs data : List (BitVec 8)} {n offset len left : ℕ}

/-! ### The functions -/

/-- `MEMCPY` to a place in a buffer. -/
def memcpyAt (data : List (BitVec 8)) (i : ℕ) (bs : List (BitVec 8)) : List (BitVec 8) :=
  data.take i ++ bs ++ data.drop (i + bs.length)

/-- The loop of `pbuf_copy_partial`: the buffer, and the number of bytes copied. -/
def copyPartialLoop (data : List (BitVec 8)) (left : ℕ) : List Pbuf → ℕ → ℕ → List (BitVec 8) × ℕ
  | [], _, _ => (data, left)
  | p :: ps, len, offset =>
    if len = 0 then (data, left)
    else if offset ≠ 0 ∧ p.len ≤ offset then copyPartialLoop data left ps len (offset - p.len)
    else
      let bufCopyLen := if len < p.len - offset then len else p.len - offset
      copyPartialLoop (memcpyAt data left ((p.payload.drop offset).take bufCopyLen)) (left + bufCopyLen) ps
        (len - bufCopyLen) 0

/-- `pbuf_copy_partial`. -/
def pbufCopyPartial (buf : List Pbuf) (data : List (BitVec 8)) (len offset : ℕ) : List (BitVec 8) × ℕ :=
  copyPartialLoop data 0 buf len offset

/-- The loop of `pbuf_take`, which has `bs` still to copy. -/
def takeLoop : List Pbuf → List (BitVec 8) → Option (List Pbuf)
  | ps, [] => some ps
  | [], _ :: _ => none
  | p :: ps, b :: bs =>
    let bufCopyLen := if p.len < (b :: bs).length then p.len else (b :: bs).length
    (takeLoop ps ((b :: bs).drop bufCopyLen)).map
      ({ p with payload := memcpyAt p.payload 0 ((b :: bs).take bufCopyLen) } :: ·)

/-- `pbuf_take`. -/
def pbufTake (buf : List Pbuf) (data : List (BitVec 8)) : Option (ErrT × List Pbuf) :=
  if pbufTotLen buf < data.length then some (.arg, buf)
  else (takeLoop buf data).map (.ok, ·)

/-- The walk of `pbuf_get_at` and `pbuf_memcmp` to the pbuf that has a position, and the offset in it. -/
def pbufSeek : List Pbuf → ℕ → List Pbuf × ℕ
  | [], n => ([], n)
  | q :: qs, n => if q.len ≤ n then pbufSeek qs (n - q.len) else (q :: qs, n)

/-- `pbuf_get_at`. -/
def pbufGetAt (p : List Pbuf) (offset : ℕ) : BitVec 8 :=
  match pbufSeek p offset with
  | ([], _) => 0
  | (q :: _, copyFrom) => q.payload.getD copyFrom 0

/-- `pbuf_coalesce`: `mem` is what is in the new pbuf's payload, if it can be allocated. -/
def pbufCoalesce (p : List Pbuf) (mem : Option (List (BitVec 8))) : Option (List Pbuf) :=
  match p, mem with
  | [], _ => none
  | [p], _ => some [p]
  | p, none => some p
  | p, some mem => pbufCopy [⟨mem, pbufTotLen p⟩] p

/-! ### Reading -/

theorem take_memcpyAt (hleft : left ≤ data.length) :
    (memcpyAt data left bs).take (left + bs.length) = data.take left ++ bs := by
  refine List.take_left' ?_
  rw [List.length_append, List.length_take, Nat.min_eq_left hleft]

theorem drop_memcpyAt (hleft : left ≤ data.length) :
    (memcpyAt data left bs).drop (left + bs.length + n) = data.drop (left + bs.length + n) := by
  have hfront : (data.take left ++ bs).length = left + bs.length := by
    rw [List.length_append, List.length_take, Nat.min_eq_left hleft]
  rw [memcpyAt, ← List.drop_drop, List.drop_left' hfront, List.drop_drop]

theorem length_memcpyAt (hroom : left + bs.length ≤ data.length) : (memcpyAt data left bs).length = data.length := by
  rw [memcpyAt, List.length_append, List.length_append, List.length_take, List.length_drop]
  omega

theorem memcpyAt_nil (data : List (BitVec 8)) (i : ℕ) : memcpyAt data i [] = data := by
  rw [memcpyAt, List.append_nil, List.length_nil, Nat.add_zero, List.take_append_drop]

/-- What is copied behind a copy. -/
theorem memcpyAt_memcpyAt (hleft : left ≤ data.length) (cs : List (BitVec 8)) :
    memcpyAt (memcpyAt data left bs) (left + bs.length) cs = memcpyAt data left (bs ++ cs) := by
  rw [memcpyAt.eq_1 (memcpyAt data left bs), take_memcpyAt hleft, drop_memcpyAt hleft, memcpyAt, List.length_append,
    List.append_assoc (data.take left), Nat.add_assoc]

/-- **The loop of `pbuf_copy_partial`** writes the slice behind what it has written. -/
theorem copyPartialLoop_eq (hroom : left + (((pbufBytes ps).drop offset).take len).length ≤ data.length) :
    copyPartialLoop data left ps len offset =
      (memcpyAt data left (((pbufBytes ps).drop offset).take len),
        left + (((pbufBytes ps).drop offset).take len).length) := by
  induction ps generalizing data left len offset with
  | nil => simp [copyPartialLoop, memcpyAt_nil]
  | cons p ps ih =>
    rw [copyPartialLoop]
    split_ifs with hlen hskip hshort
    · subst hlen
      simp [memcpyAt_nil]
    · -- nothing from this pbuf
      have hdrop : (pbufBytes (p :: ps)).drop offset = (pbufBytes ps).drop (offset - p.len) := by
        rw [pbufBytes_cons, List.drop_append, List.drop_eq_nil_of_le hskip.2]
        rfl
      rw [hdrop] at hroom ⊢
      exact ih hroom
    · -- the last part of the slice is in this pbuf
      have hle : offset ≤ p.payload.length := by
        rw [Pbuf.len] at hshort
        omega
      have hslice : ((pbufBytes (p :: ps)).drop offset).take len = (p.payload.drop offset).take len := by
        rw [pbufBytes_cons, List.drop_append_of_le_length hle, List.take_append_of_le_length]
        rw [List.length_drop]
        exact Nat.le_of_lt hshort
      have hlength : ((p.payload.drop offset).take len).length = len := by
        rw [List.length_take, List.length_drop]
        exact Nat.min_eq_left (Nat.le_of_lt hshort)
      rw [hslice, hlength] at hroom ⊢
      have hlast : (memcpyAt data left ((p.payload.drop offset).take len)).length = data.length :=
        length_memcpyAt (by omega)
      change copyPartialLoop (memcpyAt data left ((p.payload.drop offset).take len)) (left + len) ps (len - len) 0 = _
      rw [Nat.sub_self, ih (by rw [hlast, List.take_zero, List.length_nil]; omega), List.take_zero, memcpyAt_nil]
      rfl
    · have hle : offset ≤ p.payload.length := by
        rw [Pbuf.len] at hskip
        omega
      have hfirst : (p.payload.drop offset).take (p.len - offset) = p.payload.drop offset := by
        refine List.take_of_length_le ?_
        rw [List.length_drop, Pbuf.len]
      have hlength : (p.payload.drop offset).length = p.len - offset := List.length_drop
      have hslice : ((pbufBytes (p :: ps)).drop offset).take len =
          p.payload.drop offset ++ ((pbufBytes ps).drop 0).take (len - (p.len - offset)) := by
        rw [pbufBytes_cons, List.drop_append_of_le_length hle, List.take_append,
          List.take_of_length_le (l := p.payload.drop offset) (by omega), hlength, List.drop_zero]
      rw [hslice, List.length_append] at hroom
      change copyPartialLoop (memcpyAt data left ((p.payload.drop offset).take (p.len - offset)))
        (left + (p.len - offset)) ps (len - (p.len - offset)) 0 = _
      rw [hfirst, hslice, ih, List.length_append, ← hlength, memcpyAt_memcpyAt (by omega), Nat.add_assoc]
      rw [← hlength] at hroom ⊢
      rw [length_memcpyAt (by omega)]
      omega

/-- **`pbuf_copy_partial`** writes the slice of the chain to the beginning of the buffer, and returns its length. -/
theorem pbufCopyPartial_eq (hroom : (((pbufBytes ps).drop offset).take len).length ≤ data.length) :
    pbufCopyPartial ps data len offset =
      (((pbufBytes ps).drop offset).take len ++ data.drop (((pbufBytes ps).drop offset).take len).length,
        (((pbufBytes ps).drop offset).take len).length) := by
  rw [pbufCopyPartial, copyPartialLoop_eq (by omega), memcpyAt, List.take_zero, List.nil_append, Nat.zero_add]

/-- The walk to a position: what is behind it is the same, and it ends where the chain has no such position. -/
theorem pbufSeek_eq (ps : List Pbuf) (offset : ℕ) :
    (pbufBytes (pbufSeek ps offset).1).drop (pbufSeek ps offset).2 = (pbufBytes ps).drop offset ∧
      ∀ q qs, (pbufSeek ps offset).1 = q :: qs → (pbufSeek ps offset).2 < q.len := by
  induction ps generalizing offset with
  | nil => exact ⟨by simp [pbufSeek], fun _ _ h ↦ nomatch h⟩
  | cons p ps ih =>
    rw [pbufSeek]
    split_ifs with hle
    · have hdrop : (pbufBytes (p :: ps)).drop offset = (pbufBytes ps).drop (offset - p.len) := by
        rw [pbufBytes_cons, List.drop_append, List.drop_eq_nil_of_le hle]
        rfl
      rw [hdrop]
      exact ih _
    · refine ⟨rfl, fun q qs h ↦ ?_⟩
      obtain ⟨rfl, rfl⟩ := List.cons.inj h
      exact Nat.lt_of_not_le hle

theorem pbufSeek_eq_nil_iff : (pbufSeek ps offset).1 = [] ↔ (pbufBytes ps).length ≤ offset := by
  obtain ⟨hdrop, hlt⟩ := pbufSeek_eq ps offset
  rw [← List.drop_eq_nil_iff, ← hdrop]
  cases hq : (pbufSeek ps offset).1 with
  | nil => simp
  | cons q qs =>
    have hlt := hlt q qs hq
    rw [Pbuf.len] at hlt
    simp only [reduceCtorEq, List.drop_eq_nil_iff, pbufBytes_cons, List.length_append, false_iff]
    omega

/-- **`pbuf_get_at`** returns the byte at the position, and zero behind the end. -/
theorem pbufGetAt_eq (ps : List Pbuf) (offset : ℕ) : pbufGetAt ps offset = (pbufBytes ps).getD offset 0 := by
  obtain ⟨hdrop, hlt⟩ := pbufSeek_eq ps offset
  have hget : (pbufBytes ps).getD offset 0 = ((pbufBytes ps).drop offset).getD 0 0 := by
    rw [List.getD_eq_getElem?_getD, List.getD_eq_getElem?_getD, List.getElem?_drop, Nat.add_zero]
  rw [hget, ← hdrop, pbufGetAt]
  rcases hseek : pbufSeek ps offset with ⟨_ | ⟨q, qs⟩, k⟩
  · simp
  · rw [hseek] at hlt
    have hk : k < q.payload.length := hlt q qs rfl
    simp only [pbufBytes_cons]
    rw [List.getD_eq_getElem?_getD, List.getD_eq_getElem?_getD, List.getElem?_drop, Nat.add_zero,
      List.getElem?_append_left hk]

/-! ### Writing -/

/-- **The loop of `pbuf_take`** writes over the first bytes, pbuf by pbuf. -/
theorem takeLoop_eq (hlen : bs.length ≤ (pbufBytes ps).length) :
    ∃ qs, takeLoop ps bs = some qs ∧ pbufBytes qs = bs ++ (pbufBytes ps).drop bs.length ∧
      qs.map Pbuf.len = ps.map Pbuf.len ∧ qs.map Pbuf.totLen = ps.map Pbuf.totLen := by
  induction ps generalizing bs with
  | nil =>
    obtain rfl : bs = [] := List.length_eq_zero_iff.1 (Nat.le_zero.1 hlen)
    exact ⟨[], rfl, rfl, rfl, rfl⟩
  | cons p ps ih =>
    cases bs with
    | nil => exact ⟨p :: ps, rfl, rfl, rfl, rfl⟩
    | cons b bs =>
      rw [takeLoop]
      generalize b :: bs = cs at hlen ⊢
      rw [pbufBytes_cons, List.length_append] at hlen
      have hn : (if p.len < cs.length then p.len else cs.length) = min p.payload.length cs.length := by
        rw [Pbuf.len]
        split_ifs <;> omega
      rw [hn]
      set n := min p.payload.length cs.length with hndef
      have hlength : (cs.take n).length = n := by
        rw [List.length_take]
        omega
      obtain ⟨qs, htake, hbytes, hlens, htots⟩ := @ih (cs.drop n) (by
        rw [List.length_drop]
        omega)
      have hp : (memcpyAt p.payload 0 (cs.take n)).length = p.payload.length := length_memcpyAt (by omega)
      refine ⟨_, by rw [htake, Option.map_some], ?_, ?_, ?_⟩
      · rw [pbufBytes_cons, hbytes, pbufBytes_cons, memcpyAt, hlength, List.take_zero, List.nil_append, Nat.zero_add,
          List.drop_append, List.length_drop]
        rcases Nat.le_total p.payload.length cs.length with hle | hle
        · -- the pbuf is written over whole
          have heq : n = p.payload.length := by omega
          rw [heq, List.drop_length, List.append_nil, ← List.append_assoc, List.take_append_drop,
            List.drop_eq_nil_of_le hle, List.nil_append]
        · have heq : n = cs.length := by omega
          rw [heq, List.take_length, List.drop_length, Nat.sub_self, List.drop_zero, List.nil_append,
            Nat.sub_eq_zero_of_le hle, List.drop_zero, List.append_assoc]
      · rw [List.map_cons, List.map_cons, hlens]
        exact congrArg (· :: _) hp
      · rw [List.map_cons, List.map_cons, htots]

/-- Whether the totals are right is a matter of the lengths. -/
theorem totals_congr (hlens : qs.map Pbuf.len = ps.map Pbuf.len) (htots : qs.map Pbuf.totLen = ps.map Pbuf.totLen) :
    Totals qs ↔ Totals ps := by
  induction ps generalizing qs with
  | nil => rw [List.map_eq_nil_iff.1 hlens]
  | cons p ps ih =>
    obtain ⟨q, qs', rfl, hq, hqs⟩ := List.map_eq_cons_iff.1 hlens
    rw [List.map_cons, List.map_cons, List.cons.injEq] at htots
    have hbytes : ∀ {xs ys : List Pbuf}, xs.map Pbuf.len = ys.map Pbuf.len →
        (pbufBytes xs).length = (pbufBytes ys).length := by
      intro xs ys h
      rw [pbufBytes, pbufBytes, List.length_flatMap, List.length_flatMap]
      exact congrArg List.sum h
    exact and_congr (by rw [htots.1, hbytes hlens]) (ih hqs htots.2)

/-- **`pbuf_take`** writes over the first bytes of the chain, and refuses more than it has. -/
theorem pbufTake_eq (ht : Totals ps) (data : List (BitVec 8)) :
    ((pbufBytes ps).length < data.length → pbufTake ps data = some (.arg, ps)) ∧
      (data.length ≤ (pbufBytes ps).length → ∃ qs, pbufTake ps data = some (.ok, qs) ∧
        pbufBytes qs = data ++ (pbufBytes ps).drop data.length ∧ qs.map Pbuf.len = ps.map Pbuf.len ∧ Totals qs) := by
  rw [pbufTake, ht.totLen_eq]
  refine ⟨fun h ↦ if_pos h, fun h ↦ ?_⟩
  obtain ⟨qs, htake, hbytes, hlens, htots⟩ := takeLoop_eq h
  exact ⟨qs, by rw [if_neg (by omega), htake, Option.map_some], hbytes, hlens, (totals_congr hlens htots).2 ht⟩

/-! ### Copying -/

/-- **A packet** and no queue: a pbuf at which the packet would end has no successor. -/
def Packet : List Pbuf → Prop
  | [] | [_] => True
  | p :: q :: ps => p.len ≠ p.totLen ∧ Packet (q :: ps)

theorem Packet.tail (h : Packet (p :: ps)) : Packet ps := by
  cases ps with
  | nil => trivial
  | cons q ps => exact h.2

theorem Packet.not_queue (h : Packet ps) : packetQueue ps = false := by
  cases ps with
  | nil => rfl
  | cons p ps =>
    cases ps with
    | nil => rfl
    | cons q ps => exact decide_eq_false h.1

/-- Behind a pbuf that is not the last there are bytes. -/
theorem Packet.length_pos (h : Packet (p :: ps)) (ht : Totals (p :: ps)) (hne : ps ≠ []) :
    0 < (pbufBytes ps).length := by
  cases ps with
  | nil => exact absurd rfl hne
  | cons q ps =>
    have htot := ht.1
    have hp := h.1
    rw [pbufBytes_cons, List.length_append] at htot
    rw [Pbuf.len] at hp
    omega

theorem memcpyAt_append_left (hroom : left + bs.length ≤ data.length) (cs : List (BitVec 8)) :
    memcpyAt (data ++ cs) left bs = memcpyAt data left bs ++ cs := by
  rw [memcpyAt, memcpyAt, List.take_append_of_le_length (by omega), List.drop_append_of_le_length hroom,
    List.append_assoc, List.append_assoc, List.append_assoc]

theorem memcpyAt_append_right (data cs bs : List (BitVec 8)) :
    memcpyAt (data ++ cs) data.length bs = data ++ memcpyAt cs 0 bs := by
  rw [memcpyAt, memcpyAt, List.take_left, List.drop_append, List.drop_eq_nil_of_le (by omega), List.nil_append,
    Nat.add_sub_cancel_left, List.take_zero, List.nil_append, Nat.zero_add, List.append_assoc]

/-- The bytes of a round of `pbuf_copy`, and what is left of the source. -/
theorem source_eq (fs : List Pbuf) (hoff : offset ≤ f.len) (hn : n ≤ f.len - offset) :
    (pbufBytes (f :: fs)).drop offset = (f.payload.drop offset).take n ++
      (pbufBytes (if f.len ≤ offset + n then (fs, 0) else (f :: fs, offset + n)).1).drop
        (if f.len ≤ offset + n then (fs, 0) else (f :: fs, offset + n)).2 := by
  rw [Pbuf.len] at *
  split_ifs with hend
  · have htake : (f.payload.drop offset).take n = f.payload.drop offset := by
      refine List.take_of_length_le ?_
      rw [List.length_drop]
      omega
    rw [pbufBytes_cons, List.drop_append_of_le_length hoff, htake, List.drop_zero]
  · have hfront : (f.payload.drop offset).take n = ((pbufBytes (f :: fs)).drop offset).take n := by
      rw [pbufBytes_cons, List.drop_append_of_le_length hoff, List.take_append_of_le_length]
      rw [List.length_drop]
      omega
    rw [hfront, ← List.drop_drop, List.take_append_drop]

/-- **The loop of `pbuf_copy`** writes what is left of the source to where it is in the target. Every round
finishes a pbuf of one of the two chains. -/
theorem copyLoop_eq {fuel offsetTo offsetFrom : ℕ} (htt : Totals (t :: ts)) (hpt : Packet (t :: ts))
    (htf : Totals (f :: fs)) (hpf : Packet (f :: fs)) (hto : offsetTo ≤ t.len) (hfrom : offsetFrom ≤ f.len)
    (hroom : offsetTo + ((pbufBytes (f :: fs)).drop offsetFrom).length ≤ (pbufBytes (t :: ts)).length)
    (hfuel : ts.length + fs.length < fuel) :
    ∃ r, pbufCopyLoop fuel (t :: ts) offsetTo (f :: fs) offsetFrom = some r ∧
      pbufBytes r = memcpyAt (pbufBytes (t :: ts)) offsetTo ((pbufBytes (f :: fs)).drop offsetFrom) ∧
      r.map Pbuf.len = (t :: ts).map Pbuf.len ∧ r.map Pbuf.totLen = (t :: ts).map Pbuf.totLen := by
  induction fuel generalizing t ts f fs offsetTo offsetFrom with
  | zero => exact absurd hfuel (Nat.not_lt_zero _)
  | succ fuel ih =>
    obtain ⟨n, hn⟩ : ∃ n, n = if f.len - offsetFrom ≤ t.len - offsetTo then f.len - offsetFrom
      else t.len - offsetTo := ⟨_, rfl⟩
    have hnf : n ≤ f.len - offsetFrom := by
      split_ifs at hn <;> omega
    have hnt : n ≤ t.len - offsetTo := by
      split_ifs at hn <;> omega
    have hchunk : ((f.payload.drop offsetFrom).take n).length = n := by
      rw [List.length_take, List.length_drop]
      exact Nat.min_eq_left hnf
    have hsource := source_eq fs hfrom hnf
    obtain ⟨src, hsrc⟩ : ∃ src, src = if f.len ≤ offsetFrom + n then (fs, 0) else (f :: fs, offsetFrom + n) :=
      ⟨_, rfl⟩
    rw [← hsrc] at hsource
    obtain ⟨t', ht'⟩ : ∃ t' : Pbuf, t' = ⟨t.payload.take offsetTo ++ (f.payload.drop offsetFrom).take n ++
        t.payload.drop (offsetTo + n), t.totLen⟩ := ⟨_, rfl⟩
    have hpay : t'.payload = memcpyAt t.payload offsetTo ((f.payload.drop offsetFrom).take n) := by
      rw [ht', memcpyAt, hchunk]
    have hroom' : offsetTo + ((f.payload.drop offsetFrom).take n).length ≤ t.payload.length := by
      rw [hchunk]
      rw [Pbuf.len] at hnt hto
      omega
    have hlen' : t'.len = t.len := by
      rw [Pbuf.len, hpay]
      exact length_memcpyAt hroom'
    have htot' : t'.totLen = t.totLen := by rw [ht']
    have hbytes : pbufBytes (t' :: ts) = memcpyAt (pbufBytes (t :: ts)) offsetTo
        ((f.payload.drop offsetFrom).take n) := by
      rw [pbufBytes_cons, hpay, pbufBytes_cons, memcpyAt_append_left hroom']
    have htt' : Totals (t' :: ts) := (totals_congr (by simp [hlen']) (by simp [htot'])).2 htt
    have hpt' : Packet (t' :: ts) := by
      cases ts with
      | nil => trivial
      | cons u us => exact ⟨by rw [hlen', htot']; exact hpt.1, hpt.2⟩
    have hsrc_packet : Packet src.1 := by
      rw [hsrc]
      split_ifs
      · exact hpf.tail
      · exact hpf
    have hloop : pbufCopyLoop (fuel + 1) (t :: ts) offsetTo (f :: fs) offsetFrom =
        if offsetTo + n = t.len then
          if ts = [] ∧ src.1 ≠ [] then none
          else if src.1 = [] then some (t' :: ts)
          else (pbufCopyLoop fuel ts 0 src.1 src.2).map (t' :: ·)
        else if src.1 = [] then some (t' :: ts)
        else pbufCopyLoop fuel (t' :: ts) (offsetTo + n) src.1 src.2 := by
      rw [pbufCopyLoop]
      simp only [← hn, ← hsrc, ← ht', hsrc_packet.not_queue, hpt.tail.not_queue, hpt'.not_queue, Bool.or_self,
        Bool.false_eq_true, if_false]
    have hsrc_totals : Totals src.1 := by
      rw [hsrc]
      split_ifs
      · exact htf.2
      · exact htf
    -- while there is a pbuf of the source, there are bytes of it
    have hrest : src.1 ≠ [] → 0 < ((pbufBytes src.1).drop src.2).length := by
      intro hne
      rw [hsrc] at hne ⊢
      split_ifs at hne ⊢ with hend
      · exact hpf.length_pos htf hne
      · rw [pbufBytes_cons, List.length_drop, List.length_append]
        rw [Pbuf.len] at hend
        omega
    have hsrc_offset : ∀ g gs, src.1 = g :: gs → src.2 ≤ g.len ∧ gs.length ≤ fs.length ∧
        (offsetTo + n ≠ t.len → gs.length < fs.length) := by
      intro g gs hgs
      rw [hsrc] at hgs ⊢
      split_ifs at hgs ⊢ with hend
      · have hfs : fs = g :: gs := hgs
        rw [hfs, List.length_cons]
        exact ⟨Nat.zero_le _, by omega, fun _ ↦ by omega⟩
      · obtain ⟨rfl, rfl⟩ := List.cons.inj hgs
        refine ⟨by omega, le_rfl, fun hne ↦ ?_⟩
        split_ifs at hn <;> omega
    have hlengths := congrArg List.length hsource
    rw [List.length_append, hchunk] at hlengths
    rw [hloop]
    by_cases hdone : src.1 = []
    · -- the source has come to its end
      have hall : (pbufBytes (f :: fs)).drop offsetFrom = (f.payload.drop offsetFrom).take n := by
        rw [hsource, hdone, pbufBytes_nil, List.drop_nil, List.append_nil]
      refine ⟨t' :: ts, ?_, by rw [hbytes, hall], by simp [hlen'], by simp [htot']⟩
      simp only [hdone, ne_eq, not_true_eq_false, and_false, if_false, if_true, ite_self]
    · obtain ⟨g, gs, hgs⟩ := List.exists_cons_of_ne_nil hdone
      have hpos := hrest hdone
      obtain ⟨hoff, hgs_le, hgs_lt⟩ := hsrc_offset g gs hgs
      rw [if_neg hdone, if_neg hdone]
      rw [hgs] at hsource hlengths hpos hsrc_totals hsrc_packet ⊢
      by_cases hfull : offsetTo + n = t.len
      · rw [if_pos hfull]
        have hcap : (pbufBytes (t :: ts)).length = t.len + (pbufBytes ts).length := by
          rw [pbufBytes_cons, List.length_append, Pbuf.len]
        have hts : ts ≠ [] := by
          rintro rfl
          rw [pbufBytes_nil, List.length_nil] at hcap
          omega
        obtain ⟨u, us, rfl⟩ := List.exists_cons_of_ne_nil hts
        rw [if_neg fun h ↦ hts h.1]
        obtain ⟨r, hr, hrbytes, hrlens, hrtots⟩ := ih htt.2 hpt.tail hsrc_totals hsrc_packet (Nat.zero_le _) hoff
          (by omega) (by rw [List.length_cons] at hfuel; omega)
        refine ⟨t' :: r, by rw [hr, Option.map_some], ?_, by simp [hlen', hrlens], by simp [htot', hrtots]⟩
        have hlast : offsetTo + ((f.payload.drop offsetFrom).take n).length = t'.payload.length := by
          rw [hchunk, hfull, ← hlen', Pbuf.len]
        rw [pbufBytes_cons, hrbytes, ← memcpyAt_append_right, ← pbufBytes_cons, hbytes, ← hlast, hsource,
          memcpyAt_memcpyAt]
        rw [Pbuf.len] at hto
        rw [pbufBytes_cons, List.length_append]
        omega
      · rw [if_neg hfull]
        have hcap : (pbufBytes (t' :: ts)).length = (pbufBytes (t :: ts)).length := by
          rw [pbufBytes_cons, pbufBytes_cons, List.length_append, List.length_append]
          exact congrArg (· + _) hlen'
        have hto' : offsetTo + n ≤ t'.len := by omega
        obtain ⟨r, hr, hrbytes, hrlens, hrtots⟩ := ih htt' hpt' hsrc_totals hsrc_packet hto' hoff (by omega)
          (by have := hgs_lt hfull; omega)
        refine ⟨r, hr, ?_, by rw [hrlens]; simp [hlen'], by rw [hrtots]; simp [htot']⟩
        have hleft : offsetTo ≤ (pbufBytes (t :: ts)).length := by
          rw [pbufBytes_cons, List.length_append]
          rw [Pbuf.len] at hto
          omega
        have hwrite := @memcpyAt_memcpyAt ((f.payload.drop offsetFrom).take n) _ _ hleft
          ((pbufBytes (g :: gs)).drop src.2)
        rw [hchunk] at hwrite
        rw [hrbytes, hbytes, hsource, hwrite]

/-- **`pbuf_copy`** of a packet into a packet that is large enough writes its bytes over the first ones. -/
theorem pbufCopy_eq {target source : List Pbuf} (htt : Totals target) (hpt : Packet target) (hne : target ≠ [])
    (hts : Totals source) (hps : Packet source) (hne' : source ≠ [])
    (hroom : (pbufBytes source).length ≤ (pbufBytes target).length) :
    ∃ r, pbufCopy target source = some r ∧
      pbufBytes r = pbufBytes source ++ (pbufBytes target).drop (pbufBytes source).length ∧
      r.map Pbuf.len = target.map Pbuf.len ∧ Totals r := by
  obtain ⟨t, ts, rfl⟩ := List.exists_cons_of_ne_nil hne
  obtain ⟨f, fs, rfl⟩ := List.exists_cons_of_ne_nil hne'
  have hle : pbufTotLen (f :: fs) ≤ pbufTotLen (t :: ts) := by rwa [htt.totLen_eq, hts.totLen_eq]
  have hfuel : ts.length + fs.length < (t :: ts).length + (f :: fs).length := by
    rw [List.length_cons, List.length_cons]
    omega
  obtain ⟨r, hr, hbytes, hlens, htots⟩ := copyLoop_eq htt hpt hts hps (Nat.zero_le _) (Nat.zero_le _)
    (by rw [List.drop_zero, Nat.zero_add]; exact hroom) hfuel
  refine ⟨r, by rw [pbufCopy, if_pos ⟨hne, hne', hle⟩, hr], ?_, hlens, (totals_congr hlens htots).2 htt⟩
  rw [hbytes, memcpyAt, List.drop_zero, List.take_zero, List.nil_append, Nat.zero_add]

/-- The loop of `pbuf_copy` into one pbuf, if it succeeds: every round copies a whole pbuf of the source. -/
theorem copyLoop_single {fuel : ℕ} {r : List Pbuf} (hroom : offset + (pbufBytes fs).length ≤ t.len)
    (h : pbufCopyLoop fuel [t] offset fs 0 = some r) :
    r = [{ t with payload := memcpyAt t.payload offset (pbufBytes fs) }] := by
  induction fuel generalizing t fs offset with
  | zero => cases h
  | succ fuel ih =>
    rcases fs with _ | ⟨f, fs⟩
    · cases h
    rw [pbufBytes_cons, List.length_append, ← Pbuf.len.eq_1 f] at hroom
    rw [pbufCopyLoop] at h
    have hlen : (if f.len - 0 ≤ t.len - offset then f.len - 0 else t.len - offset) = f.len := by
      rw [Nat.sub_zero, if_pos (by omega)]
    have hall : (f.payload.drop 0).take f.len = f.payload := by
      rw [List.drop_zero]
      exact List.take_length
    have hmem : ({ t with payload := t.payload.take offset ++ f.payload ++ t.payload.drop (offset + f.len) } : Pbuf) =
        { t with payload := memcpyAt t.payload offset f.payload } := rfl
    simp only [hlen, hall, hmem, Nat.zero_add, le_refl, if_true] at h
    have hoff : offset + f.payload.length ≤ t.payload.length := by
      change offset + f.len ≤ t.len
      omega
    have hnil : fs = [] → [({ t with payload := memcpyAt t.payload offset f.payload } : Pbuf)] =
        [{ t with payload := memcpyAt t.payload offset (pbufBytes (f :: fs)) }] := fun hfs ↦ by
      rw [hfs, pbufBytes_single]
    split_ifs at h with h1 h2 h3 h4 h5 h6
    · rw [← Option.some.inj h]
      exact hnil h4
    · exact absurd ⟨trivial, h4⟩ h2
    · rw [← Option.some.inj h]
      exact hnil h6
    · have hcopied : (memcpyAt t.payload offset f.payload).length = t.payload.length :=
        length_memcpyAt hoff
      have hroom' : offset + f.len + (pbufBytes fs).length ≤
          (⟨memcpyAt t.payload offset f.payload, t.totLen⟩ : Pbuf).len := by
        rw [Nat.add_assoc]
        exact hroom.trans_eq hcopied.symm
      rw [ih hroom' h, pbufBytes_cons]
      exact congrArg (fun x ↦ [(⟨x, t.totLen⟩ : Pbuf)]) (memcpyAt_memcpyAt (by omega) (pbufBytes fs))

/-- **`pbuf_copy` into one pbuf**, if it succeeds: what is copied is the string of the source. -/
theorem pbufCopy_single {r : List Pbuf} (hroom : (pbufBytes ps).length ≤ t.len) (h : pbufCopy [t] ps = some r) :
    r = [{ t with payload := pbufBytes ps ++ t.payload.drop (pbufBytes ps).length }] := by
  rw [pbufCopy] at h
  split_ifs at h
  rw [copyLoop_single (by omega) h, memcpyAt, List.take_zero, List.nil_append, Nat.zero_add]

/-- **`pbuf_coalesce`** of a packet holds what the packet held. -/
theorem pbufCoalesce_eq {mem : Option (List (BitVec 8))} (ht : Totals ps) (hp : Packet ps) (hne : ps ≠ [])
    (hmem : ∀ m ∈ mem, m.length = (pbufBytes ps).length) :
    ∃ r, pbufCoalesce ps mem = some r ∧ pbufBytes r = pbufBytes ps := by
  match ps, mem, hne with
  | [p], none, _ => exact ⟨[p], rfl, rfl⟩
  | [p], some m, _ => exact ⟨[p], rfl, rfl⟩
  | p :: q :: ps, none, _ => exact ⟨p :: q :: ps, rfl, rfl⟩
  | p :: q :: ps, some m, hne =>
    have hm := hmem m rfl
    have htarget : Totals [⟨m, pbufTotLen (p :: q :: ps)⟩] := by
      refine ⟨?_, trivial⟩
      rw [pbufBytes_single, ht.totLen_eq, hm]
    obtain ⟨r, hr, hbytes, -, -⟩ := pbufCopy_eq htarget trivial (List.cons_ne_nil _ _) ht hp hne
      (by rw [pbufBytes_single, hm])
    refine ⟨r, hr, ?_⟩
    rw [hbytes, pbufBytes_single, ← hm, List.drop_length, List.append_nil]

/-! ### Chains as strings -/

/-- **A chain behaves as the string of bytes that it holds**, however it is cut into pbufs: reading, writing, and
shortening it is reading, writing, and shortening the string; and so is copying it, if neither the chain nor the
target looks like a packet queue. -/
theorem pbuf_chain_bytes (hne : ps ≠ []) (ht : Totals ps) (hlen : (pbufBytes ps).length < 2 ^ 16) :
    (∀ data len offset, (((pbufBytes ps).drop offset).take len).length ≤ data.length →
      pbufCopyPartial ps data len offset =
        (((pbufBytes ps).drop offset).take len ++ data.drop (((pbufBytes ps).drop offset).take len).length,
          (((pbufBytes ps).drop offset).take len).length)) ∧
    (∀ offset, pbufGetAt ps offset = (pbufBytes ps).getD offset 0) ∧
    (∀ data, data.length ≤ (pbufBytes ps).length → ∃ qs, pbufTake ps data = some (.ok, qs) ∧
      pbufBytes qs = data ++ (pbufBytes ps).drop data.length) ∧
    (∀ n, n ≤ (pbufBytes ps).length → ∃ qs, pbufRealloc n ps = some qs ∧ pbufBytes qs = (pbufBytes ps).take n) ∧
    (Packet ps → ∀ target, Totals target → Packet target → target ≠ [] →
      (pbufBytes ps).length ≤ (pbufBytes target).length → ∃ qs, pbufCopy target ps = some qs ∧
        pbufBytes qs = pbufBytes ps ++ (pbufBytes target).drop (pbufBytes ps).length) ∧
    (Packet ps → ∀ mem : Option (List (BitVec 8)), (∀ m ∈ mem, m.length = (pbufBytes ps).length) →
      ∃ qs, pbufCoalesce ps mem = some qs ∧ pbufBytes qs = pbufBytes ps) := by
  refine ⟨fun data len offset h ↦ pbufCopyPartial_eq h, pbufGetAt_eq ps, fun data h ↦ ?_, fun n _ ↦ ?_, ?_, ?_⟩
  · obtain ⟨qs, hqs, hbytes, -, -⟩ := (pbufTake_eq ht data).2 h
    exact ⟨qs, hqs, hbytes⟩
  · obtain ⟨qs, hqs, -, -, -, hbytes⟩ := ht.realloc hne hlen n
    exact ⟨qs, hqs, hbytes⟩
  · intro hp target htt hpt hne' hroom
    obtain ⟨qs, hqs, hbytes, -, -⟩ := pbufCopy_eq htt hpt hne' ht hp hne hroom
    exact ⟨qs, hqs, hbytes⟩
  · exact fun hp mem hmem ↦ pbufCoalesce_eq ht hp hne hmem

/-- Three bytes in three pbufs, the second of them empty. -/
theorem pbuf_chain_bytes_three :
    pbufCopyPartial [⟨[1, 2], 3⟩, ⟨[], 1⟩, ⟨[3], 1⟩] [0, 0, 0] 2 1 = ([2, 3, 0], 2) ∧
      pbufGetAt [⟨[1, 2], 3⟩, ⟨[], 1⟩, ⟨[3], 1⟩] 2 = 3 ∧
      ∃ qs, pbufCopy [⟨[0], 4⟩, ⟨[0, 0, 0], 3⟩] [⟨[1, 2], 3⟩, ⟨[], 1⟩, ⟨[3], 1⟩] = some qs ∧
        pbufBytes qs = [1, 2, 3, 0] := by
  obtain ⟨hread, hget, -, -, hcopy, -⟩ :=
    @pbuf_chain_bytes [⟨[1, 2], 3⟩, ⟨[], 1⟩, ⟨[3], 1⟩] (by decide) (by decide) (by decide)
  exact ⟨hread [0, 0, 0] 2 1 (by decide), hget 2, hcopy ⟨by decide, by decide, trivial⟩
    [⟨[0], 4⟩, ⟨[0, 0, 0], 3⟩] (by decide) ⟨by decide, trivial⟩ (by decide) (by decide)⟩

/-- **An empty pbuf at the end**: the same three bytes are copied from one pbuf, and refused from two. -/
theorem pbuf_copy_depends_on_partition :
    Totals [⟨[1, 2, 3], 3⟩, ⟨[], 0⟩] ∧
      pbufBytes [⟨[1, 2, 3], 3⟩, ⟨[], 0⟩] = pbufBytes [⟨[1, 2, 3], 3⟩] ∧
      pbufCopy [⟨[0, 0, 0], 3⟩] [⟨[1, 2, 3], 3⟩] = some [⟨[1, 2, 3], 3⟩] ∧
      pbufCopy [⟨[0, 0, 0], 3⟩] [⟨[1, 2, 3], 3⟩, ⟨[], 0⟩] = none := by
  decide

end Lwip.Core
