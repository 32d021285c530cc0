import LwipPoc.Core.Dhcp.Terminates
import LwipPoc.Core.Snmp.Asn1RoundTrip

/-!
# A DHCP message as a string of octets

What a message says does not depend on how it is cut into pbufs: `parseMessage` reads the areas from its octets alone, from
one option to the next, up to the end of each area. The loop of `dhcp_parse_reply` does the same as long as every option can
be passed (`Spot.Passable`).

* Behind an option the loop goes on in the next pbuf at most. If the option reaches over all of that pbuf too, while the
  area goes on, the next octet is read behind the pbuf.
* If the option ends the file or the sname field and reaches behind the end of a pbuf that does not end with the field,
  `offset_max` becomes negative, that is, large, and the loop goes on behind the field, or finds that there is no next pbuf.
* In a pbuf of more than 65279 octets `offset` may overflow.

With passable options only, the function reads nothing outside the pbufs, no assertion fails, and the result is that of
`parseMessage` (`dhcpParseReply_right`).
-/

namespace Lwip.Core.Dhcp

open Snmp (Plain)

/-! ### The message -/

/-- `pbuf_copy_partial` from a string. -/
def copyOctets (bs value : List (BitVec 8)) (len ofs : ℕ) : List (BitVec 8) :=
  (bs.drop ofs).take len ++ value.drop ((bs.drop ofs).take len).length

/-- The values of an option, from the octet at `pos` on. -/
def decodeOctets (bs : List (BitVec 8)) (decodeLen idx pos : ℕ) (value : List (BitVec 8)) (rx : RxOptions) : RxOptions :=
  if rx.given idx then rx
  else
    let copied := copyOctets bs value (min decodeLen 4) pos
    match decodeLen with
    | n + 5 => decodeOctets bs (n + 1) (idx + 1) (pos + 4) copied (rx.got idx (ntohl copied))
    | 4 => rx.got idx (ntohl copied)
    | _ => rx.got idx ((copied.headD 0).setWidth 32)
termination_by structural decodeLen

/-- An option that was met: where it begins, how many octets it has, and where its area stops. -/
structure Met where
  pos : ℕ
  size : ℕ
  stop : ℕ
  deriving DecidableEq, Repr

/-- The code of the option at `pos`, and the octet behind it. -/
def opAt (bs : List (BitVec 8)) (pos : ℕ) : BitVec 8 := bs.getD pos 0
def lenAt (bs : List (BitVec 8)) (pos : ℕ) : ℕ := (bs.getD (pos + 1) 0).toNat

/-- How many octets the option at `pos` has. -/
def sizeAt (bs : List (BitVec 8)) (pos : ℕ) : ℕ := if opAt bs pos = dhcpOptionPad then 1 else lenAt bs pos + 2

theorem sizeAt_pos (bs : List (BitVec 8)) (pos : ℕ) : 0 < sizeAt bs pos := by
  rw [sizeAt]
  split_ifs <;> omega

/-- The values behind an option. -/
def decodeAt (bs : List (BitVec 8)) (pos : ℕ) (s : Switched) (rx : RxOptions) : RxOptions :=
  if 0 < s.decodeLen then decodeOctets bs s.decodeLen (s.decodeIdx.getD 0) (pos + 2) [0, 0, 0, 0] rx else rx

/-- **The options of an area**, from `pos` to `stop`: the values, on the left if an option is malformed, and the options
that were met. -/
def parseArea (bs : List (BitVec 8)) (stop pos : ℕ) (rx : RxOptions) : (RxOptions ⊕ RxOptions) × List Met :=
  if opAt bs pos ≠ dhcpOptionEnd ∧ pos < stop then
    match optionSwitch (opAt bs pos) (lenAt bs pos) 0 with
    | none => (.inl rx, [])
    | some s =>
      let rest := parseArea bs stop (pos + sizeAt bs pos) (decodeAt bs pos s rx)
      (rest.1, ⟨pos, sizeAt bs pos, stop⟩ :: rest.2)
  else (.inr rx, [])
termination_by stop - pos
decreasing_by
  have hpos := sizeAt_pos bs pos
  omega

/-- The areas one after the other, with `fuel` for so many of them. -/
def parseAreas (bs : List (BitVec 8)) : ℕ → Stage → RxOptions → Option (ErrT × RxOptions) × List Met
  | 0, _, _ => (none, [])
  | fuel + 1, st, rx =>
    if bs.length ≤ st.idx then (some (.buf, rx), [])
    else
      match parseArea bs (st.idxMax bs.length) st.idx rx with
      | (.inl rx, met) => (some (.val, rx), met)
      | (.inr rx, met) =>
        match st.after rx.overload with
        | none => (some (.ok, rx.clear dhcpOptionIdxOverload), met)
        | some st' =>
          let rest := parseAreas bs fuel st' (rx.clear dhcpOptionIdxOverload)
          (rest.1, met ++ rest.2)

/-- **What a message says**, and the options that were met. -/
def parseMessage (bs : List (BitVec 8)) (fuel : ℕ) (rx : RxOptions) : Option (ErrT × RxOptions) × List Met :=
  parseAreas bs fuel .options rx.clearAll

/-! ### Passing an option -/

/-- **The loop can pass `n` octets**: `offset` does not overflow, and either they end in the pbuf, or the pbuf does not go
on behind the area, and they reach the end of the area or end in the next pbuf. -/
def Spot.Passable (c : Spot) (n : ℕ) : Prop :=
  c.offset + n < 2 ^ 16 ∧ (c.offset + n < c.q.len ∨
    c.q.len ≤ c.offsetMax ∧ (c.offsetMax ≤ c.offset + n ∨ ∃ q ∈ c.next.head?, c.offset + n < c.q.len + q.len))

/-- The option can be passed where it lies in the chain. -/
def Met.Passable (p : List Pbuf) (m : Met) : Prop := ∀ c ∈ seekOptions p m.pos m.stop, c.Passable m.size

variable {behind : List Pbuf → ℕ → BitVec 8} {p : List Pbuf} {c : Spot} {s : Switched} {rx rx' : RxOptions}
  {reads reads' : List Read} {stop pos fuel : ℕ}

/-- **The spot of the octet at `pos`**, in an area up to `stop`. -/
def Located (p : List Pbuf) (stop pos : ℕ) (c : Spot) : Prop :=
  ∃ pre, p = pre ++ c.q :: c.next ∧ pos = (pbufBytes pre).length + c.offset ∧ c.offset < c.q.len ∧
    stop = (pbufBytes pre).length + c.offsetMax

theorem seekOptions_located {optionsIdx optionsIdxMax : ℕ} (h : seekOptions p optionsIdx optionsIdxMax = some c)
    (hle : optionsIdx ≤ optionsIdxMax) (hmax : optionsIdxMax < 2 ^ 16) : Located p optionsIdxMax optionsIdx c := by
  induction p generalizing optionsIdx optionsIdxMax with
  | nil => cases h
  | cons q next ih =>
    rw [seekOptions] at h
    split_ifs at h with hskip
    · have hwrap : (optionsIdxMax + 2 ^ 16 - q.len) % 2 ^ 16 = optionsIdxMax - q.len := by omega
      rw [hwrap] at h
      obtain ⟨pre, rfl, hpos, hlt, hstop⟩ := ih h (by omega) (by omega)
      refine ⟨q :: pre, rfl, ?_, hlt, ?_⟩
      · rw [pbufBytes_cons, List.length_append, ← Pbuf.len]
        omega
      · rw [pbufBytes_cons, List.length_append, ← Pbuf.len]
        omega
    · cases h
      exact ⟨[], rfl, by simp, Nat.lt_of_not_le hskip, by simp⟩

theorem seekOptions_none {optionsIdx optionsIdxMax : ℕ} :
    seekOptions p optionsIdx optionsIdxMax = none ↔ (pbufBytes p).length ≤ optionsIdx := by
  induction p generalizing optionsIdx optionsIdxMax with
  | nil => simp [seekOptions]
  | cons q next ih =>
    rw [seekOptions, pbufBytes_cons, List.length_append, ← Pbuf.len]
    split_ifs with hskip
    · rw [ih]
      omega
    · exact iff_of_false not_false (by omega)

theorem Located.seek (h : Located p stop pos c) (hle : pos ≤ stop) (hstop : stop < 2 ^ 16) :
    seekOptions p pos stop = some c := by
  obtain ⟨pre, rfl, rfl, hlt, rfl⟩ := h
  induction pre with
  | nil =>
    rw [List.nil_append, pbufBytes_nil, List.length_nil, Nat.zero_add, Nat.zero_add, seekOptions, if_neg (by omega)]
  | cons q pre ih =>
    rw [pbufBytes_cons, List.length_append, ← Pbuf.len] at hle hstop ⊢
    rw [List.cons_append, seekOptions, if_pos (by omega)]
    rw [show q.len + (pbufBytes pre).length + c.offset - q.len = (pbufBytes pre).length + c.offset by omega,
      show (q.len + (pbufBytes pre).length + c.offsetMax + 2 ^ 16 - q.len) % 2 ^ 16 =
        (pbufBytes pre).length + c.offsetMax by omega]
    exact ih (by omega) (by omega)

/-! ### Reading at a spot -/

theorem Located.getD (h : Located p stop pos c) {i : ℕ} (hi : c.offset + i < c.q.len) (d d' : BitVec 8) :
    c.q.payload.getD (c.offset + i) d = (pbufBytes p).getD (pos + i) d' := by
  obtain ⟨pre, rfl, rfl, -, -⟩ := h
  have hlen : c.offset + i < c.q.payload.length := hi
  rw [pbufBytes_append, pbufBytes_cons, List.getD_eq_getElem?_getD, List.getD_eq_getElem?_getD,
    List.getElem?_append_right (by omega), Nat.add_assoc, Nat.add_sub_cancel_left, List.getElem?_append_left hlen,
    List.getElem?_eq_getElem hlen]
  rfl

theorem Located.op (h : Located p stop pos c) : c.op behind = opAt (pbufBytes p) pos := by
  obtain ⟨-, -, -, hlt, -⟩ := id h
  exact h.getD (i := 0) hlt _ _

/-- Behind the pbuf the chain goes on. -/
theorem Located.drop (h : Located p stop pos c) {i : ℕ} (hi : c.q.len ≤ c.offset + i) :
    (pbufBytes p).drop (pos + i) = (pbufBytes c.next).drop (c.offset + i - c.q.len) := by
  obtain ⟨pre, rfl, rfl, -, -⟩ := h
  rw [Nat.add_assoc, pbufBytes_append, List.drop_append, List.drop_eq_nil_of_le (by omega), Nat.add_sub_cancel_left,
    pbufBytes_cons, List.nil_append, List.drop_append, List.drop_eq_nil_of_le hi]
  rfl

theorem Located.plain_next (h : Located p stop pos c) (hp : Plain p) {q : Pbuf} (hq : q ∈ c.next) : 0 < q.len := by
  obtain ⟨pre, rfl, -, -, -⟩ := h
  exact hp.pos q (List.mem_append_right _ (List.mem_cons_of_mem _ hq))

theorem Located.len (h : Located p stop pos c) (hp : Plain p) : c.len behind = lenAt (pbufBytes p) pos := by
  obtain ⟨-, -, -, hlt, -⟩ := id h
  rw [Spot.len, Spot.lenRead, lenAt]
  split_ifs with hin hnext
  · exact congrArg BitVec.toNat (h.getD (i := 1) hin _ _)
  · obtain ⟨q, next, hq⟩ := List.exists_cons_of_ne_nil hnext
    have hpos : 0 < q.payload.length := h.plain_next hp (hq ▸ List.mem_cons_self)
    have hdrop := h.drop (i := 1) (by omega)
    rw [show c.offset + 1 - c.q.len = 0 by omega, List.drop_zero, hq, pbufBytes_cons] at hdrop
    rw [List.getD_eq_getElem?_getD, ← Nat.add_zero (pos + 1), ← List.getElem?_drop, hdrop, hq]
    simp [octet, List.getElem?_append_left hpos, List.getElem?_eq_getElem hpos]
  · have hdrop := h.drop (i := 1) (by omega)
    rw [not_not.1 hnext, pbufBytes_nil, List.drop_nil] at hdrop
    rw [List.getD_eq_getElem?_getD, List.getElem?_eq_none (List.drop_eq_nil_iff.1 hdrop)]
    rfl

theorem Located.size (h : Located p stop pos c) (hp : Plain p) : c.size behind = sizeAt (pbufBytes p) pos := by
  rw [Spot.size, sizeAt, h.op, h.len hp]

theorem Located.reads_inside (h : Located p stop pos c) (hp : Plain p) : ∀ r ∈ c.reads behind, r.Inside := by
  obtain ⟨-, -, -, hlt, -⟩ := id h
  rw [Spot.reads, List.forall_mem_cons]
  refine ⟨⟨c.q, rfl, hlt⟩, fun r hr ↦ ?_⟩
  split_ifs at hr with hlive
  · rw [Option.mem_toList, Spot.lenRead] at hr
    split_ifs at hr with hin hnext
    · cases hr
      exact ⟨c.q, rfl, hin⟩
    · cases hr
      obtain ⟨q, next, hq⟩ := List.exists_cons_of_ne_nil hnext
      exact ⟨q, by rw [hq]; rfl, h.plain_next hp (hq ▸ List.mem_cons_self)⟩
  · cases hr

/-! ### Decoding at a spot -/

theorem Located.copy (h : Located p stop pos c) {value : List (BitVec 8)} (hvalue : value.length = 4) {i len : ℕ}
    (hlen : len ≤ 4) : (pbufCopyPartial (c.q :: c.next) value len (c.offset + i)).1 =
      copyOctets (pbufBytes p) value len (pos + i) := by
  obtain ⟨pre, rfl, rfl, -, -⟩ := h
  have hdrop : (pbufBytes (pre ++ c.q :: c.next)).drop ((pbufBytes pre).length + c.offset + i) =
      (pbufBytes (c.q :: c.next)).drop (c.offset + i) := by
    rw [pbufBytes_append, Nat.add_assoc, List.drop_append, List.drop_eq_nil_of_le (by omega), Nat.add_sub_cancel_left,
      List.nil_append]
  rw [copyOctets, hdrop, pbufCopyPartial_eq]
  rw [List.length_take]
  omega

theorem copyOctets_length (bs : List (BitVec 8)) {value : List (BitVec 8)} (hvalue : value.length = 4) {len : ℕ}
    (hlen : len ≤ 4) (ofs : ℕ) : (copyOctets bs value len ofs).length = 4 := by
  rw [copyOctets, List.length_append, List.length_drop, List.length_take]
  omega

/-- **What is decoded** from the chain is what the octets say. -/
theorem Located.decodeNext (h : Located p stop pos c) {decodeLen idx i : ℕ} (hfits : Fits decodeLen idx)
    (hi : c.offset + i + decodeLen < 2 ^ 16) {value : List (BitVec 8)} (hvalue : value.length = 4) (rx : RxOptions) :
    decodeNext (c.q :: c.next) decodeLen (some idx) (c.offset + i) value rx =
      .ok (decodeOctets (pbufBytes p) decodeLen idx (pos + i) value rx) := by
  induction decodeLen using Nat.strong_induction_on generalizing idx i value rx with
  | _ decodeLen ih =>
    obtain ⟨hlen, hpos, hmax⟩ := hfits
    rw [Dhcp.decodeNext, decodeOctets, if_neg (by omega)]
    split_ifs with hgiven
    · rfl
    rw [h.copy hvalue (Nat.min_le_right _ _)]
    rcases decodeLen with _ | _ | _ | _ | _ | n
    · omega
    · rfl
    · omega
    · omega
    · rfl
    · dsimp only
      rw [if_neg (by omega), Nat.mod_eq_of_lt (by omega), Nat.add_assoc c.offset, Nat.add_assoc pos]
      exact ih (n + 1) (by omega) ⟨.inr (by omega), by omega, by omega⟩ (by omega)
        (copyOctets_length _ hvalue (Nat.min_le_right _ _) _) _

/-- What the `switch` says about the value does not depend on the offset. -/
theorem optionSwitch_value (op : BitVec 8) (len offset offset' : ℕ) :
    (optionSwitch op len offset).map (fun s ↦ (s.decodeLen, s.decodeIdx)) =
      (optionSwitch op len offset').map fun s ↦ (s.decodeLen, s.decodeIdx) := by
  simp only [optionSwitch, lenIs, apply_ite (Option.map _), Option.map_some, Option.map_none]

theorem optionSwitch_offset {op : BitVec 8} {len offset : ℕ} (h : optionSwitch op len offset = some s) (offset' : ℕ) :
    ∃ s', optionSwitch op len offset' = some s' ∧ s'.decodeLen = s.decodeLen ∧ s'.decodeIdx = s.decodeIdx := by
  have hvalue := optionSwitch_value op len offset offset'
  rw [h, Option.map_some, eq_comm, Option.map_eq_some_iff] at hvalue
  obtain ⟨s', hs', hsame⟩ := hvalue
  exact ⟨s', hs', (Prod.ext_iff.1 hsame).1, (Prod.ext_iff.1 hsame).2⟩

theorem optionSwitch_none {op : BitVec 8} {len offset : ℕ} (h : optionSwitch op len offset = none) (offset' : ℕ) :
    optionSwitch op len offset' = none := by
  have hvalue := optionSwitch_value op len offset offset'
  rw [h, Option.map_none, eq_comm] at hvalue
  exact Option.map_eq_none_iff.1 hvalue

theorem Located.decode (h : Located p stop pos c) {op : BitVec 8} {len offset : ℕ}
    (hs : optionSwitch op len offset = some s) (hlt : op ≠ dhcpOptionPad → c.offset + (len + 2) < 2 ^ 16) {s' : Switched}
    (hlen : s'.decodeLen = s.decodeLen) (hidx : s'.decodeIdx = s.decodeIdx) (rx : RxOptions) :
    c.decode s rx = .ok (decodeAt (pbufBytes p) pos s' rx) := by
  rw [Spot.decode, decodeAt, hlen, hidx]
  split_ifs with hpos
  · rcases optionSwitch_spec hs with ⟨-, rfl⟩ | ⟨hpad, -, -, hle, hzero | ⟨idx, hidx', hfits, -⟩⟩
    · exact absurd hpos (lt_irrefl 0)
    · omega
    · have hlt := hlt hpad
      rw [hidx', Nat.mod_eq_of_lt (by omega)]
      exact h.decodeNext hfits (by omega) rfl rx
  · rfl

/-! ### Going on -/

/-- Where the loop goes on behind an option that ends at `pos`: with the spot of that octet, or, at the end of the area,
possibly nowhere. -/
def GoesOn (p : List Pbuf) (stop pos : ℕ) : Option Spot → Prop
  | none => stop ≤ pos
  | some c => Located p stop pos c

/-- **Behind a passable option** the loop goes on. -/
theorem Located.move (h : Located p stop pos c) {n : ℕ} (hn : c.Passable n) (hstop : stop ≤ (pbufBytes p).length)
    (hlt : (pbufBytes p).length < 2 ^ 16) :
    ∃ next, c.move ((c.offset + n) % 2 ^ 16) = .ok next ∧ GoesOn p stop (pos + n) next := by
  obtain ⟨pre, hp, rfl, hoffset, rfl⟩ := id h
  obtain ⟨hover, hpass⟩ := hn
  rw [Nat.mod_eq_of_lt hover, Spot.move]
  rcases Nat.lt_or_ge (c.offset + n) c.q.len with hin | hout
  · have hloc : Located p ((pbufBytes pre).length + c.offsetMax) ((pbufBytes pre).length + c.offset + n)
        { c with offset := c.offset + n } := ⟨pre, hp, Nat.add_assoc _ _ _, hin, rfl⟩
    rw [if_neg (by omega)]
    exact ⟨_, rfl, hloc⟩
  · obtain ⟨hmax, hend⟩ := hpass.resolve_left (by omega)
    have hwrap : (c.offsetMax + 2 ^ 16 - c.q.len) % 2 ^ 16 = c.offsetMax - c.q.len := by omega
    rw [if_pos hout, hwrap]
    rcases Nat.lt_or_ge (c.offset + n) c.offsetMax with hgo | hleave
    · obtain ⟨q, hq, hin⟩ := hend.resolve_left (by omega)
      obtain ⟨next, hnext⟩ := List.head?_eq_some_iff.1 hq
      rw [if_pos (by omega), hnext]
      refine ⟨_, rfl, pre ++ [c.q], by rw [hp, hnext, List.append_assoc]; rfl, ?_, ?_, ?_⟩
      · rw [pbufBytes_append, pbufBytes_single, List.length_append, ← Pbuf.len]
        dsimp only
        omega
      · dsimp only
        omega
      · rw [pbufBytes_append, pbufBytes_single, List.length_append, ← Pbuf.len]
        dsimp only
        omega
    · rw [if_neg (by omega)]
      exact ⟨none, rfl, show _ ≤ _ by omega⟩

theorem Located.live_iff (h : Located p stop pos c) :
    c.Live behind ↔ opAt (pbufBytes p) pos ≠ dhcpOptionEnd ∧ pos < stop := by
  obtain ⟨pre, -, rfl, -, rfl⟩ := id h
  rw [Spot.Live, h.op, Nat.add_lt_add_iff_left]

/-- At the end of the area, or at an end marker, the loop is left. -/
theorem Located.optionLoop_leave (h : Located p stop pos c) (hp : Plain p) (hleave : ¬c.Live behind)
    {r : Except Fault RxOptions} (hr : optionLoop behind fuel c rx reads = some (r, reads'))
    (hreads : ∀ x ∈ reads, x.Inside) : (∀ x ∈ reads', x.Inside) ∧ r = .ok rx := by
  cases fuel with
  | zero => cases hr
  | succ fuel =>
    rw [optionLoop, Spot.turn, if_neg hleave] at hr
    cases hr
    exact ⟨List.forall_mem_append.2 ⟨hreads, h.reads_inside hp⟩, rfl⟩

/-- **A round at a passable option.** -/
theorem Located.turn (h : Located p stop pos c) (hp : Plain p) (hstop : stop ≤ (pbufBytes p).length)
    (hgo : opAt (pbufBytes p) pos ≠ dhcpOptionEnd ∧ pos < stop)
    (hs : optionSwitch (opAt (pbufBytes p) pos) (lenAt (pbufBytes p) pos) 0 = some s)
    (hpass : c.Passable (sizeAt (pbufBytes p) pos)) (rx : RxOptions) (behind : List Pbuf → ℕ → BitVec 8) :
    ∃ next, c.turn behind rx = .ok (next, decodeAt (pbufBytes p) pos s rx) ∧ c.onward behind = some next ∧
      GoesOn p stop (pos + sizeAt (pbufBytes p) pos) next := by
  obtain ⟨s', hs', hlen, hidx⟩ := optionSwitch_offset hs c.offset
  obtain ⟨next, hmove, hnext⟩ := h.move hpass hstop hp.lt
  have hover : opAt (pbufBytes p) pos ≠ dhcpOptionPad → c.offset + (lenAt (pbufBytes p) pos + 2) < 2 ^ 16 := by
    intro hpad
    have hover := hpass.1
    rwa [sizeAt, if_neg hpad] at hover
  have hdecode := h.decode hs' hover hlen.symm hidx.symm rx
  have hop' : c.op behind = _ := h.op
  have hlen' : c.len behind = _ := h.len hp
  rw [← hop', ← hlen'] at hs'
  have hend := Spot.switched_end hs'
  refine ⟨next, ?_, ?_, hnext⟩
  · rw [Spot.turn, if_pos (h.live_iff.2 hgo), hs']
    dsimp only
    rw [hdecode, Except.bind, hend, h.size hp, hmove]
    rfl
  · rw [Spot.onward, if_pos (h.live_iff.2 hgo), hs', h.size hp, hmove]
    rfl

/-- The first option of an area, and the others. -/
theorem parseArea_some (bs : List (BitVec 8)) (rx : RxOptions) (hgo : opAt bs pos ≠ dhcpOptionEnd ∧ pos < stop)
    (hs : optionSwitch (opAt bs pos) (lenAt bs pos) 0 = some s) :
    parseArea bs stop pos rx =
      ((parseArea bs stop (pos + sizeAt bs pos) (decodeAt bs pos s rx)).1,
        ⟨pos, sizeAt bs pos, stop⟩ :: (parseArea bs stop (pos + sizeAt bs pos) (decodeAt bs pos s rx)).2) := by
  rw [parseArea, if_pos hgo, hs]

/-- **The loop reads the options of the area**, if they can be passed. -/
theorem Located.optionLoop (h : Located p stop pos c) (hp : Plain p) (hstop : stop ≤ (pbufBytes p).length)
    (hmet : ∀ m ∈ (parseArea (pbufBytes p) stop pos rx).2, m.Passable p) {r : Except Fault RxOptions}
    (hr : optionLoop behind fuel c rx reads = some (r, reads')) (hreads : ∀ x ∈ reads, x.Inside) :
    (∀ x ∈ reads', x.Inside) ∧
      r = (parseArea (pbufBytes p) stop pos rx).1.elim (fun rx ↦ .error (.errVal rx)) .ok := by
  induction fuel generalizing pos c rx reads with
  | zero => cases hr
  | succ fuel ih =>
    by_cases hgo : opAt (pbufBytes p) pos ≠ dhcpOptionEnd ∧ pos < stop
    swap
    · rw [parseArea, if_neg hgo]
      exact h.optionLoop_leave hp (fun hlive ↦ hgo (h.live_iff.1 hlive)) hr hreads
    have hreads' : ∀ x ∈ reads ++ c.reads behind, x.Inside :=
      List.forall_mem_append.2 ⟨hreads, h.reads_inside hp⟩
    cases hs : optionSwitch (opAt (pbufBytes p) pos) (lenAt (pbufBytes p) pos) 0 with
    | none =>
      rw [Dhcp.optionLoop, Spot.turn, if_pos (h.live_iff.2 hgo), h.op, h.len hp, optionSwitch_none hs] at hr
      rw [parseArea, if_pos hgo, hs]
      cases hr
      exact ⟨hreads', rfl⟩
    | some s =>
      rw [parseArea_some _ _ hgo hs] at hmet ⊢
      have hpass := hmet _ List.mem_cons_self c (h.seek hgo.2.le (hstop.trans_lt hp.lt))
      obtain ⟨next, hturn, -, hnext⟩ := h.turn hp hstop hgo hs hpass rx behind
      rw [Dhcp.optionLoop, hturn] at hr
      cases next with
      | none =>
        rw [parseArea, if_neg fun hmore ↦ Nat.not_le_of_lt hmore.2 hnext]
        cases hr
        exact ⟨hreads', rfl⟩
      | some c' => exact ih hnext (fun m hm ↦ hmet m (List.mem_cons_of_mem _ hm)) hr hreads'

/-! ### The areas -/

variable {st st' : Stage} {r : Outcome}

/-- Behind the options field there are the others. -/
def Stage.Within (totLen : ℕ) (st : Stage) : Prop := st = .options ∨ dhcpOptionsOfs < totLen

theorem Stage.Within.idxMax_le {totLen : ℕ} (h : st.Within totLen) : st.idxMax totLen ≤ totLen := by
  rcases h with rfl | h
  · exact le_rfl
  · cases st with
    | options => exact le_rfl
    | file sname => exact (show 236 ≤ 240 by decide).trans h.le
    | sname => exact (show 108 ≤ 240 by decide).trans h.le

theorem Stage.idx_le {totLen : ℕ} (st : Stage) (h : st.idx < totLen) : st.idx ≤ st.idxMax totLen := by
  cases st with
  | options => exact h.le
  | file sname => exact (by decide : 108 ≤ 236)
  | sname => exact (by decide : 44 ≤ 108)

/-- An area begins at its spot, and there is an options field. -/
theorem Stage.start_located (hp : Plain p) (ht : Totals p) (hst : st.Within (pbufBytes p).length)
    (hc : st.start p = some c) :
    Located p (st.idxMax (pbufBytes p).length) st.idx c ∧ dhcpOptionsOfs < (pbufBytes p).length := by
  have hlt : st.idx < (pbufBytes p).length := by
    rw [← Nat.not_le, ← @seekOptions_none p st.idx (st.idxMax (pbufTotLen p))]
    intro hnone
    cases hc.symm.trans hnone
  rw [Stage.start, ht.totLen_eq] at hc
  refine ⟨seekOptions_located hc (st.idx_le hlt) (hst.idxMax_le.trans_lt hp.lt), ?_⟩
  rcases hst with rfl | htotal
  · exact hlt
  · exact htotal

theorem Stage.start_none : st.start p = none ↔ (pbufBytes p).length ≤ st.idx := seekOptions_none

/-- **The areas are read** as the octets say, if all options that are met can be passed. -/
theorem runStage_right (hp : Plain p) (ht : Totals p) (hst : st.Within (pbufBytes p).length)
    (hmet : ∀ m ∈ (parseAreas (pbufBytes p) fuel st rx).2, m.Passable p)
    (hr : runStage behind p fuel st rx reads = some (r, reads')) (hreads : ∀ x ∈ reads, x.Inside) :
    (∀ x ∈ reads', x.Inside) ∧
      ∃ err rx', r = .returns err rx' ∧ (parseAreas (pbufBytes p) fuel st rx).1 = some (err, rx') := by
  induction fuel generalizing st rx reads with
  | zero => cases hr
  | succ fuel ih =>
    rw [parseAreas] at hmet ⊢
    cases hstart : st.start p with
    | none =>
      rw [runStage, again, ← Stage.start, hstart] at hr
      rw [if_pos (Stage.start_none.1 hstart)]
      cases hr
      exact ⟨hreads, _, _, rfl, rfl⟩
    | some c =>
      obtain ⟨hloc, htotal⟩ := Stage.start_located hp ht hst hstart
      have hlen : ¬(pbufBytes p).length ≤ st.idx := by
        rw [← Stage.start_none, hstart]
        exact Option.some_ne_none _
      rw [if_neg hlen] at hmet ⊢
      obtain ⟨⟨e, reads₁⟩, hloop⟩ := Option.isSome_iff_exists.1
        (optionLoop_of_runStage hstart (Option.isSome_iff_exists.2 ⟨_, hr⟩))
      rcases hparse : parseArea (pbufBytes p) (st.idxMax (pbufBytes p).length) st.idx rx with ⟨rx₁ | rx₁, met⟩
      · rw [hparse] at hmet
        obtain ⟨hreads₁, he⟩ := hloc.optionLoop hp hst.idxMax_le (hparse ▸ hmet) hloop hreads
        rw [hparse] at he
        subst he
        rw [runStage, again, ← Stage.start, hstart] at hr
        dsimp only at hr
        rw [hloop] at hr
        cases hr
        exact ⟨hreads₁, _, _, rfl, rfl⟩
      · rw [hparse] at hmet
        dsimp only at hmet ⊢
        have hmet₁ : ∀ m ∈ met, m.Passable p := by
          split at hmet
          · exact hmet
          · exact fun m hm ↦ hmet m (List.mem_append_left _ hm)
        obtain ⟨hreads₁, he⟩ := hloc.optionLoop hp hst.idxMax_le (hparse ▸ hmet₁) hloop hreads
        rw [hparse] at he
        subst he
        rw [runStage_after hstart hloop] at hr
        cases hafter : st.after rx₁.overload with
        | none =>
          rw [hafter] at hr
          cases hr
          exact ⟨hreads₁, _, _, rfl, rfl⟩
        | some st' =>
          rw [hafter] at hr hmet
          exact ih (.inr htotal) (fun m hm ↦ hmet m (List.mem_append_right _ hm)) hr hreads₁

/-- **What a message says**: the return value and the decoded values. -/
def Says (bs : List (BitVec 8)) (rx : RxOptions) (err : ErrT) (rx' : RxOptions) : Prop :=
  ∃ fuel, (parseMessage bs fuel rx).1 = some (err, rx')

theorem parseAreas_mono {bs : List (BitVec 8)} {x : ErrT × RxOptions} (h : (parseAreas bs fuel st rx).1 = some x)
    (n : ℕ) : (parseAreas bs (fuel + n) st rx).1 = some x := by
  induction fuel generalizing st rx with
  | zero => cases h
  | succ fuel ih =>
    rw [Nat.succ_add]
    rw [parseAreas] at h ⊢
    split_ifs at h ⊢ with hlen
    · exact h
    · rcases hparse : parseArea bs (st.idxMax bs.length) st.idx rx with ⟨rx₁ | rx₁, met⟩
      · rw [hparse] at h
        exact h
      · rw [hparse] at h
        dsimp only at h ⊢
        cases hafter : st.after rx₁.overload with
        | none =>
          rw [hafter] at h
          exact h
        | some st' =>
          rw [hafter] at h
          exact ih h

/-- A message says one thing only. -/
theorem Says.unique {bs : List (BitVec 8)} {err err' : ErrT} {rx₁ rx₂ : RxOptions} (h : Says bs rx err rx₁)
    (h' : Says bs rx err' rx₂) : err = err' ∧ rx₁ = rx₂ := by
  obtain ⟨n, hn⟩ := h
  obtain ⟨m, hm⟩ := h'
  have hsame := parseAreas_mono hn m
  rw [Nat.add_comm, parseAreas_mono hm n] at hsame
  cases hsame
  exact ⟨rfl, rfl⟩

/-! ### Options that cannot be passed -/

/-- **A round goes wrong**: `offset` overflows, or `offset_max` does, or the next octet is read behind its pbuf. -/
def Spot.Overruns (behind : List Pbuf → ℕ → BitVec 8) (c : Spot) : Prop :=
  2 ^ 16 ≤ c.offset + c.size behind ∨ c.q.len ≤ c.offset + c.size behind ∧ c.offsetMax < c.q.len ∨
    ∃ c', c.hop behind = some c' ∧ c'.q.len ≤ c'.offset

/-- An option that cannot be passed makes the round go wrong. -/
theorem Located.overruns (h : Located p stop pos c) (hp : Plain p) (hstop : stop ≤ (pbufBytes p).length)
    (hgo : opAt (pbufBytes p) pos ≠ dhcpOptionEnd ∧ pos < stop)
    (hs : optionSwitch (opAt (pbufBytes p) pos) (lenAt (pbufBytes p) pos) 0 = some s)
    (hpass : ¬c.Passable (sizeAt (pbufBytes p) pos)) : c.Overruns behind := by
  obtain ⟨pre, rfl, rfl, hoffset, rfl⟩ := id h
  have hsize : c.size behind = _ := h.size hp
  rw [Spot.Passable, ← hsize] at hpass
  by_cases hover : 2 ^ 16 ≤ c.offset + c.size behind
  · exact .inl hover
  by_cases hmax : c.q.len ≤ c.offset + c.size behind ∧ c.offsetMax < c.q.len
  · exact .inr (.inl hmax)
  refine .inr (.inr ?_)
  have hlt := hp.lt
  rw [pbufBytes_append, List.length_append, pbufBytes_cons, List.length_append, ← Pbuf.len] at hstop hlt
  cases hnext : c.next with
  | nil =>
    rw [hnext, pbufBytes_nil, List.length_nil] at hstop
    omega
  | cons q next =>
    have hout : c.q.len ≤ c.offset + c.size behind := by omega
    have hlong : c.offset + c.size behind < c.offsetMax ∧ c.q.len + q.len ≤ c.offset + c.size behind := by
      refine ⟨by omega, Nat.le_of_not_lt fun hin ↦ hpass ⟨by omega, .inr ⟨by omega, .inr ⟨q, by rw [hnext]; rfl, hin⟩⟩⟩⟩
    obtain ⟨s', hs', -⟩ := optionSwitch_offset hs c.offset
    refine ⟨⟨q, next, c.offset + c.size behind - c.q.len, c.offsetMax - c.q.len⟩, ?_, by dsimp only; omega⟩
    rw [Spot.hop, Spot.onward, if_pos (h.live_iff.2 hgo), h.op, h.len hp, hs', if_pos Option.isSome_some, Spot.move,
      Nat.mod_eq_of_lt (show c.offset + c.size behind < 2 ^ 16 by omega), if_pos hout,
      show (c.offsetMax + 2 ^ 16 - c.q.len) % 2 ^ 16 = c.offsetMax - c.q.len by omega, if_pos (by omega), hnext]
    rfl

/-- The walk through an area whose options can be passed. -/
theorem Located.passes (h : Located p stop pos c) (hp : Plain p) (hstop : stop ≤ (pbufBytes p).length)
    (hmet : ∀ m ∈ (parseArea (pbufBytes p) stop pos rx).2, m.Passable p)
    (hr : (parseArea (pbufBytes p) stop pos rx).1 = .inr rx') :
    ∃ v, Passes behind c v ∧ rx'.overload = rx.overload.or v := by
  induction hn : stop - pos using Nat.strong_induction_on generalizing pos c rx with
  | _ n ih =>
    by_cases hgo : opAt (pbufBytes p) pos ≠ dhcpOptionEnd ∧ pos < stop
    swap
    · have hlive : ¬c.Live behind := fun hlive ↦ hgo (h.live_iff.1 hlive)
      rw [parseArea, if_neg hgo] at hr
      cases hr
      exact ⟨_, .leave (if_neg hlive), by rw [Spot.overloadAt, if_neg fun hl ↦ hlive hl.1, Option.or_none]⟩
    cases hs : optionSwitch (opAt (pbufBytes p) pos) (lenAt (pbufBytes p) pos) 0 with
    | none =>
      rw [parseArea, if_pos hgo, hs] at hr
      cases hr
    | some s =>
      rw [parseArea_some _ _ hgo hs] at hmet hr
      have hpass := hmet _ List.mem_cons_self c (h.seek hgo.2.le (hstop.trans_lt hp.lt))
      obtain ⟨next, hturn, honward, hnext⟩ := h.turn hp hstop hgo hs hpass rx behind
      obtain ⟨rx₁, hrx₁, hoverload⟩ := turn_ok honward rx
      cases hturn.symm.trans hrx₁
      cases next with
      | none =>
        rw [parseArea, if_neg fun hmore ↦ Nat.not_le_of_lt hmore.2 hnext] at hr
        cases hr
        exact ⟨_, .leave honward, hoverload⟩
      | some c' =>
        have hpos := sizeAt_pos (pbufBytes p) pos
        obtain ⟨v, hv, hrx'⟩ := ih _ (by omega) hnext (fun m hm ↦ hmet m (List.mem_cons_of_mem _ hm)) hr rfl
        exact ⟨_, .hop honward hv, by rw [hrx', hoverload, Option.or_assoc]⟩

/-- The walk through an area with an option that cannot be passed comes to such an option. -/
theorem Located.exists_overruns (h : Located p stop pos c) (hp : Plain p) (hstop : stop ≤ (pbufBytes p).length)
    {m : Met} (hm : m ∈ (parseArea (pbufBytes p) stop pos rx).2) (hbad : ¬m.Passable p) :
    ∃ k c', walk (Spot.hop behind) k (some c) = some c' ∧ c'.Live behind ∧ c'.Overruns behind := by
  induction hn : stop - pos using Nat.strong_induction_on generalizing pos c rx with
  | _ n ih =>
    by_cases hgo : opAt (pbufBytes p) pos ≠ dhcpOptionEnd ∧ pos < stop
    swap
    · rw [parseArea, if_neg hgo] at hm
      cases hm
    cases hs : optionSwitch (opAt (pbufBytes p) pos) (lenAt (pbufBytes p) pos) 0 with
    | none =>
      rw [parseArea, if_pos hgo, hs] at hm
      cases hm
    | some s =>
      rw [parseArea_some _ _ hgo hs] at hm
      by_cases hpass : c.Passable (sizeAt (pbufBytes p) pos)
      swap
      · exact ⟨0, c, rfl, h.live_iff.2 hgo, h.overruns hp hstop hgo hs hpass⟩
      obtain ⟨next, -, honward, hnext⟩ := h.turn hp hstop hgo hs hpass rx behind
      have hrest : m ∈ (parseArea (pbufBytes p) stop (pos + sizeAt (pbufBytes p) pos) (decodeAt (pbufBytes p) pos s rx)).2 := by
        rcases List.mem_cons.1 hm with rfl | hm
        · exact absurd (fun d hd ↦ Option.some.inj ((h.seek hgo.2.le (hstop.trans_lt hp.lt)).symm.trans hd) ▸ hpass) hbad
        · exact hm
      cases next with
      | none =>
        rw [parseArea, if_neg fun hmore ↦ Nat.not_le_of_lt hmore.2 hnext] at hrest
        cases hrest
      | some c' =>
        have hpos := sizeAt_pos (pbufBytes p) pos
        obtain ⟨k, d, hwalk, hlive, hover⟩ := ih _ (by omega) hnext hrest rfl
        refine ⟨k + 1, d, ?_, hlive, hover⟩
        rw [walk_succ, Option.bind_some, Spot.hop, honward]
        exact hwalk

/-- The areas with an option that cannot be passed: the function comes to such an option. -/
theorem exists_overruns (hp : Plain p) (ht : Totals p) (hst : st.Within (pbufBytes p).length) (hrx : rx.overload = none)
    {m : Met} (hm : m ∈ (parseAreas (pbufBytes p) fuel st rx).2) (hbad : ¬m.Passable p) :
    ∃ st' k c, Relation.ReflTransGen (Asks behind p) st st' ∧ walk (Spot.hop behind) k (st'.start p) = some c ∧
      c.Live behind ∧ c.Overruns behind := by
  induction fuel generalizing st rx with
  | zero => cases hm
  | succ fuel ih =>
    rw [parseAreas] at hm
    split_ifs at hm with hlen
    · cases hm
    obtain ⟨c, hstart⟩ := Option.ne_none_iff_exists'.1 (mt Stage.start_none.1 hlen)
    obtain ⟨hloc, htotal⟩ := Stage.start_located hp ht hst hstart
    by_cases hmet : ∃ m ∈ (parseArea (pbufBytes p) (st.idxMax (pbufBytes p).length) st.idx rx).2, ¬m.Passable p
    · obtain ⟨m, hm, hbad⟩ := hmet
      obtain ⟨k, d, hwalk, hlive, hover⟩ := hloc.exists_overruns hp hst.idxMax_le hm hbad
      exact ⟨st, k, d, .refl, hstart ▸ hwalk, hlive, hover⟩
    have hpass : ∀ m ∈ (parseArea (pbufBytes p) (st.idxMax (pbufBytes p).length) st.idx rx).2, m.Passable p :=
      fun m hm ↦ not_not.1 fun hbad ↦ hmet ⟨m, hm, hbad⟩
    rcases hparse : parseArea (pbufBytes p) (st.idxMax (pbufBytes p).length) st.idx rx with ⟨rx₁ | rx₁, met⟩
    · rw [hparse] at hm hpass
      exact absurd (hpass m hm) hbad
    · obtain ⟨v, hv, hoverload⟩ := hloc.passes hp hst.idxMax_le hpass (congrArg Prod.fst hparse)
      rw [hrx, Option.none_or] at hoverload
      rw [hparse] at hm hpass
      dsimp only at hm hpass
      cases hafter : st.after rx₁.overload with
      | none =>
        rw [hafter] at hm
        exact absurd (hpass m hm) hbad
      | some st' =>
        rw [hafter] at hm
        have hrest := (List.mem_append.1 hm).resolve_left fun hm ↦ hbad (hpass m hm)
        obtain ⟨st'', k, d, hreach, hover⟩ := ih (.inr htotal) rx₁.clear_overload hrest
        exact ⟨st'', k, d, hreach.head ⟨c, v, hstart, hv, hoverload ▸ hafter⟩, hover⟩

/-- **`dhcp_parse_reply` reads what the message says**, and nothing outside the pbufs, if all options that are met can be
passed. If not, it comes to an option at which the round goes wrong. -/
theorem dhcpParseReply_right (behind : List Pbuf → ℕ → BitVec 8) (rx : RxOptions) (hp : Plain p) (ht : Totals p)
    (hlen : dhcpSnameOfs ≤ (p.head?.map Pbuf.len).getD 0) :
    ((∀ fuel, ∀ m ∈ (parseMessage (pbufBytes p) fuel rx).2, m.Passable p) →
      ∀ fuel r reads, dhcpParseReply behind fuel p rx = some (r, reads) →
        (∀ x ∈ reads, x.Inside) ∧ ∃ err rx', r = .returns err rx' ∧
          ∀ err' rx'', Says (pbufBytes p) rx err' rx'' ↔ err' = err ∧ rx'' = rx') ∧
    ∀ fuel, ∀ m ∈ (parseMessage (pbufBytes p) fuel rx).2, ¬m.Passable p →
      ∃ st k c, Relation.ReflTransGen (Asks behind p) .options st ∧ walk (Spot.hop behind) k (st.start p) = some c ∧
        c.Live behind ∧ c.Overruns behind := by
  have hclear : rx.clearAll.overload = none := by simp [RxOptions.overload]
  constructor
  · intro hmet fuel r reads hr
    rw [dhcpParseReply, if_neg (Nat.not_lt_of_le hlen)] at hr
    obtain ⟨hreads, err, rx', rfl, hparse⟩ :=
      runStage_right hp ht (.inl rfl) (hmet fuel) (show runStage behind p fuel .options _ _ = _ from hr)
        (List.forall_mem_nil _)
    refine ⟨hreads, err, rx', rfl, fun err' rx'' ↦ ⟨fun hsays ↦ hsays.unique ⟨fuel, hparse⟩, ?_⟩⟩
    rintro ⟨rfl, rfl⟩
    exact ⟨fuel, hparse⟩
  · intro fuel m hm hbad
    exact exists_overruns hp ht (.inl rfl) hclear hm hbad

/-- An acknowledgement in three pbufs. -/
def ackReply : List Pbuf := [⟨2 :: List.replicate 119 0, 244⟩, ⟨List.replicate 120 0, 124⟩, ⟨[53, 1, 5, 255], 4⟩]

theorem ackReply_length : (pbufBytes ackReply).length = 244 := by
  simp only [ackReply, pbufBytes_cons, pbufBytes_nil, List.length_append, List.length_cons, List.length_replicate,
    List.length_nil]

/-- The message type, the only option there is, can be passed. -/
theorem ackReply_passable {m : Met} (hm : m ∈ (parseMessage (pbufBytes ackReply) fuel rx).2) : m.Passable ackReply := by
  have hstart : seekOptions ackReply 240 244 = some ⟨⟨[53, 1, 5, 255], 4⟩, [], 0, 4⟩ := by
    simp [seekOptions, ackReply, Pbuf.len]
  have hloc := seekOptions_located hstart (by decide) (by decide)
  have hop : opAt (pbufBytes ackReply) 240 = 53 := (hloc.getD (i := 0) (by decide) 0 0).symm
  have hlen : lenAt (pbufBytes ackReply) 240 = 1 := congrArg BitVec.toNat (hloc.getD (i := 1) (by decide) 0 0).symm
  have hlast : opAt (pbufBytes ackReply) 243 = 255 := (hloc.getD (i := 3) (by decide) 0 0).symm
  have hsize : sizeAt (pbufBytes ackReply) 240 = 3 := by
    rw [sizeAt, hop, hlen]
    rfl
  have harea : parseArea (pbufBytes ackReply) 244 240 rx.clearAll =
      (.inr (rx.clearAll.got dhcpOptionIdxMsgType (((copyOctets (pbufBytes ackReply) [0, 0, 0, 0] 1 242).headD 0).setWidth 32)),
        [⟨240, 3, 244⟩]) := by
    have hs : optionSwitch (opAt (pbufBytes ackReply) 240) (lenAt (pbufBytes ackReply) 240) 0 =
        some ⟨1, 0, 1, some dhcpOptionIdxMsgType⟩ := by
      rw [hop, hlen]
      rfl
    rw [parseArea_some _ _ (by rw [hop]; decide) hs, hsize, parseArea, if_neg (by rw [hlast]; decide)]
    rfl
  cases fuel with
  | zero => cases hm
  | succ fuel =>
    rw [parseMessage, parseAreas, ackReply_length, if_neg (by decide)] at hm
    rw [show Stage.options.idxMax 244 = 244 from rfl, show Stage.options.idx = 240 from rfl, harea] at hm
    have hoverload : ∀ v, (rx.clearAll.got dhcpOptionIdxMsgType v).overload = none := fun v ↦ rfl
    dsimp only at hm
    rw [hoverload] at hm
    obtain rfl := List.mem_singleton.1 hm
    intro c hc
    cases hstart.symm.trans hc
    exact ⟨by decide, .inl (by decide)⟩

/-- An acknowledgement that can be passed. -/
theorem dhcpParseReply_right_ack : Plain ackReply ∧ ∀ behind fuel r reads,
    dhcpParseReply behind fuel ackReply ⟨fun _ ↦ false, fun _ ↦ 0⟩ = some (r, reads) →
      (∀ x ∈ reads, x.Inside) ∧ ∃ err rx', r = .returns err rx' ∧
        ∀ err' rx'', Says (pbufBytes ackReply) ⟨fun _ ↦ false, fun _ ↦ 0⟩ err' rx'' ↔ err' = err ∧ rx'' = rx' := by
  have hplain : Plain ackReply := ⟨by simp [ackReply, Pbuf.len], by rw [ackReply_length]; decide⟩
  have htotals : Totals ackReply := by
    simp only [ackReply, Totals, pbufBytes_cons, pbufBytes_nil, List.length_append, List.length_cons,
      List.length_replicate, List.length_nil, and_self]
  exact ⟨hplain, fun behind ↦ (dhcpParseReply_right behind _ hplain htotals (by decide)).1 fun _ _ hm ↦
    ackReply_passable hm⟩

/-- The message type is cut so that its length octet has a pbuf of its own. -/
def cutOption : List Pbuf :=
  [⟨2 :: List.replicate 119 0, 244⟩, ⟨List.replicate 120 0, 124⟩, ⟨[53], 4⟩, ⟨[1], 3⟩, ⟨[2, 255], 2⟩]

/-- **A read outside the pbufs**: the octet behind the message type is read through the payload pointer of the length
octet. -/
theorem dhcpParseReply_reads_behind : Plain cutOption ∧ Totals cutOption ∧
    dhcpSnameOfs ≤ (cutOption.head?.map Pbuf.len).getD 0 ∧ ∃ fuel r reads,
      dhcpParseReply (fun _ _ ↦ 255) fuel cutOption ⟨fun _ ↦ false, fun _ ↦ 0⟩ = some (r, reads) ∧ ¬∀ x ∈ reads, x.Inside := by
  have hbytes : (pbufBytes cutOption).length = 244 := by
    simp only [cutOption, pbufBytes_cons, pbufBytes_nil, List.length_append, List.length_cons, List.length_replicate,
      List.length_nil]
  have hstart : seekOptions cutOption dhcpOptionsOfs 244 = some ⟨⟨[53], 4⟩, [⟨[1], 3⟩, ⟨[2, 255], 2⟩], 0, 4⟩ := by
    simp [seekOptions, cutOption, Pbuf.len, dhcpOptionsOfs]
  have hrun : ∃ r, again (fun _ _ ↦ 255) cutOption 4 dhcpOptionsOfs 244 false false
      (RxOptions.clearAll ⟨fun _ ↦ false, fun _ ↦ 0⟩) [] = some (r,
        [⟨[⟨[53], 4⟩, ⟨[1], 3⟩, ⟨[2, 255], 2⟩], 0⟩, ⟨[⟨[1], 3⟩, ⟨[2, 255], 2⟩], 0⟩, ⟨[⟨[1], 3⟩, ⟨[2, 255], 2⟩], 2⟩]) := by
    rw [again, hstart]
    exact ⟨_, rfl⟩
  obtain ⟨r, hr⟩ := hrun
  refine ⟨⟨by decide, by omega⟩, ?_, by decide, 4, _, _, (if_neg (by decide)).trans hr, ?_⟩
  · simp only [cutOption, Totals, pbufBytes_cons, pbufBytes_nil, List.length_append, List.length_cons,
      List.length_replicate, List.length_nil, and_self]
  · intro hall
    obtain ⟨q, hq, hlt⟩ := hall ⟨[⟨[1], 3⟩, ⟨[2, 255], 2⟩], 2⟩ (by simp)
    cases hq
    exact absurd hlt (by decide)

end Lwip.Core.Dhcp
