import LwipPoc.Netif.Ppp.SerialRoundTrip

/-!
# What a serial line passes on

`pppInProc` on any sequence of received bytes. The bytes between two flags, without what the transmission added,
are the characters of a frame; they alone say in what state the receiver is (`Reads`), unless it has begun in
the middle of a frame. It does so in two places: before the first flag, and after a pbuf could not be
allocated.

* `SerialLine` is the receiver with what has come since the last flag.
* A pbuf can be allocated as long as the receiver does not hold all the pbufs of the pool; even then, only if the
  environment has one.

What is passed on is right, and no null pointer is used, exactly under a condition on the flags that come with
a good check sequence (`ppp_serial_sound`).
-/

namespace Lwip.Netif.Ppp

open Lwip.Core

/-- `PBUF_POOL_SIZE`. -/
def pbufPoolSize : ℕ := 16

/-! ### Frames -/

/-- What the transmission added is taken out: the characters, and whether an escape came last. -/
def unstuff (accm : ExtAccm) (bs : List (BitVec 8)) : List (BitVec 8) × Bool :=
  bs.foldl (fun r c ↦
    if escapeP accm c then (r.1, r.2 || c == pppEscape)
    else (r.1 ++ [if r.2 then c ^^^ pppTrans else c], false)) ([], false)

/-- A field that may be left out. -/
def dropField (c : BitVec 8) : List (BitVec 8) → List (BitVec 8)
  | [] => []
  | d :: ds => if d = c then ds else d :: ds

/-- The characters behind the address and control field. -/
def dropAc (cs : List (BitVec 8)) : List (BitVec 8) := dropField pppUi (dropField pppAllstations cs)

/-- The protocol, and what is behind it: the data and the check sequence. -/
def frameFields (cs : List (BitVec 8)) : Option (BitVec 16 × List (BitVec 8)) :=
  match dropAc cs with
  | [] => none
  | p :: ps =>
    if p &&& 1 ≠ 0 then some (p.setWidth 16, ps)
    else
      match ps with
      | [] => none
      | q :: qs => some (p ++ q, qs)

/-! ### The line -/

namespace PppControlRx

/-- The pbuf behind the chain. -/
def own (s : PppControlRx) : List Pbuf :=
  match s.inTail with
  | .own t => [t]
  | _ => []

/-- The number of pbufs that the receiver holds. -/
def held (s : PppControlRx) : ℕ := s.inHead.length + s.own.length

/-- The number of bytes in them. -/
def stored (s : PppControlRx) : ℕ := (pbufBytes (s.inHead ++ s.own)).length

/-- What `pbuf_alloc` can give. -/
def pool (s : PppControlRx) (mem : Option (BitVec 16)) : Option (BitVec 16) := if s.held < pbufPoolSize then mem else none

/-- A pbuf is to be allocated for the next character, and there is none. -/
def misses (s : PppControlRx) (mem : Option (BitVec 16)) : Bool :=
  s.inState = .pdData && (s.tailLen = none || s.tailLen = some pbufPoolBufsize) && (s.pool mem).isNone

/-- `pppOverSerialOpen`: the receiver is cleared but for the unit and the map, which `ppp_recv_config` may change. -/
def opened (pd : BitVec 32) (accm : ExtAccm) : PppControlRx := ⟨pd, [], .null, 0, 0, .pdIdle, false, accm⟩

end PppControlRx

/-- The receiver, and what came since the last flag. -/
structure SerialLine where
  rx : PppControlRx
  /-- The bytes since the last flag, if there was one. -/
  since : Option (List (BitVec 8))
  /-- Whether a pbuf could not be allocated for one of them. -/
  failed : Bool

/-- What is passed to `pppInput`, and what came before. -/
structure Delivery where
  inp : List Pbuf
  byte : BitVec 8
  since : Option (List (BitVec 8))
  failed : Bool
  deriving DecidableEq, Repr

namespace SerialLine

def opened (pd : BitVec 32) (accm : ExtAccm) : SerialLine := ⟨.opened pd accm, none, false⟩

/-- The next byte. -/
def step (x : BitVec 8 × Option (BitVec 16)) (l : SerialLine) : Option (SerialLine × Option Delivery) :=
  (pppInProc x.1 (l.rx.pool x.2) l.rx).map fun r ↦
    (if x.1 = pppFlag then ⟨r.1, some [], false⟩
      else ⟨r.1, l.since.map (· ++ [x.1]),
        l.failed || !escapeP l.rx.inACCM x.1 && l.rx.misses x.2⟩,
      r.2.map fun inp ↦ ⟨inp, x.1, l.since, l.failed⟩)

/-- **The condition.** If a flag comes in the data and the check sequence is good, a flag came before, no pbuf was missing
since then, and there are two characters behind the header. -/
def Meets (x : BitVec 8 × Option (BitVec 16)) (l : SerialLine) : Prop :=
  x.1 = pppFlag → l.rx.inState = .pdData → l.rx.inFCS = pppGoodfcs →
    l.since ≠ none ∧ l.failed = false ∧ 8 + 2 ≤ l.rx.stored

end SerialLine

/-- **What is passed on is the protocol and the data of a frame**: of what came between two flags, with a good check
sequence and with a pbuf for each character. -/
def Delivery.Right (pd : BitVec 32) (accm : ExtAccm) (d : Delivery) : Prop :=
  d.byte = pppFlag ∧ d.failed = false ∧ ∃ bs, d.since = some bs ∧ fcsOf (unstuff accm bs).1 = pppGoodfcs ∧
    ∃ proto xs a b, frameFields (unstuff accm bs).1 = some (proto, xs ++ [a, b]) ∧
      ∃ nb, pppInput d.inp = some (⟨pd, proto⟩, nb) ∧ Totals nb ∧ pbufBytes nb = xs

/-- No null pointer is used for the bytes, and what is passed on is right. -/
def SerialSound (pd : BitVec 32) (accm : ExtAccm) (chunks : List (List (BitVec 8 × Option (BitVec 16)))) : Prop :=
  ∃ l ds, feedChunks SerialLine.step chunks (.opened pd accm) = some (l, ds) ∧ ∀ d ∈ ds, d.Right pd accm

variable {pd : BitVec 32} {accm : ExtAccm} {cs ds xs bs : List (BitVec 8)} {s t : PppControlRx} {c : BitVec 8}
  {mem : Option (BitVec 16)} {l l' : SerialLine}

/-! ### One character more -/

theorem unstuff_concat (accm : ExtAccm) (bs : List (BitVec 8)) (c : BitVec 8) :
    unstuff accm (bs ++ [c]) =
      if escapeP accm c then ((unstuff accm bs).1, (unstuff accm bs).2 || c == pppEscape)
      else ((unstuff accm bs).1 ++ [if (unstuff accm bs).2 then c ^^^ pppTrans else c], false) := by
  rw [unstuff, List.foldl_append]
  rfl

theorem dropField_append (hne : ds ≠ []) (c : BitVec 8) (cs : List (BitVec 8)) :
    dropField c (ds ++ cs) = dropField c ds ++ cs := by
  cases ds with
  | nil => exact absurd rfl hne
  | cons d ds =>
    rw [List.cons_append, dropField, dropField]
    split_ifs <;> rfl

/-- What comes behind the address and control field stays behind it. -/
theorem dropAc_append (hne : dropAc ds ≠ []) (cs : List (BitVec 8)) : dropAc (ds ++ cs) = dropAc ds ++ cs := by
  have hcontrol : dropField pppAllstations ds ≠ [] := by
    intro hnil
    rw [dropAc, hnil] at hne
    exact hne rfl
  have haddress : ds ≠ [] := by
    rintro rfl
    exact hcontrol rfl
  rw [dropAc, dropField_append haddress, dropField_append hcontrol]
  rfl

theorem frameFields_append {proto : BitVec 16} (h : frameFields ds = some (proto, xs)) (cs : List (BitVec 8)) :
    frameFields (ds ++ cs) = some (proto, xs ++ cs) := by
  rw [frameFields] at h ⊢
  have hne : dropAc ds ≠ [] := by
    intro hnil
    rw [hnil] at h
    cases h
  rw [dropAc_append hne]
  rcases hdrop : dropAc ds with _ | ⟨p, ps⟩
  · exact absurd hdrop hne
  · rw [hdrop] at h
    dsimp only [List.cons_append] at h ⊢
    split_ifs at h ⊢
    · cases h
      rfl
    · cases ps with
      | nil => cases h
      | cons q qs =>
        cases h
        rfl

/-! ### What the receiver has read -/

/-- No pbuf is held. -/
def Empty (s : PppControlRx) : Prop := s.inHead = [] ∧ s.inTail = .null

/-- The pbufs are from the pool. -/
def Pooled (s : PppControlRx) : Prop :=
  (pbufBytes s.inHead).length ≤ pbufPoolBufsize * s.inHead.length ∧ s.held ≤ pbufPoolSize

/-- The state behind the characters `cs`. -/
def Fields (pd : BitVec 32) (cs : List (BitVec 8)) (s : PppControlRx) : Prop :=
  match s.inState with
  | .pdIdle | .pdStart => False
  | .pdAddress => cs = [] ∧ Empty s
  | .pdControl => cs = [pppAllstations] ∧ Empty s
  | .pdProtocol1 => (cs = [pppUi] ∨ cs = [pppAllstations, pppUi]) ∧ Empty s
  | .pdProtocol2 => (∃ p, dropAc cs = [p] ∧ p &&& 1 = 0 ∧ s.inProtocol = p.setWidth 16 <<< 8) ∧ Empty s
  | .pdData => ∃ xs, frameFields cs = some (s.inProtocol, xs) ∧
      Buffered ⟨pd, s.inProtocol⟩ xs s.inHead s.inTail ∧ Pooled s

/-- **The receiver has read `cs`**. -/
def Reads (pd : BitVec 32) (cs : List (BitVec 8)) (s : PppControlRx) : Prop := s.inFCS = fcsOf cs ∧ Fields pd cs s

theorem fcsOf_concat (cs : List (BitVec 8)) (c : BitVec 8) : fcsOf (cs ++ [c]) = pppFcs (fcsOf cs) c := by
  rw [fcsOf, List.foldl_append]
  rfl

theorem Empty.pooled (h : Empty s) : Pooled s := by
  obtain ⟨hhead, htail⟩ := h
  rw [Pooled, PppControlRx.held, PppControlRx.own, hhead, htail]
  exact ⟨Nat.zero_le _, Nat.zero_le _⟩

/-- What a character does not change. -/
def Kept (s t : PppControlRx) : Prop := t.pd = s.pd ∧ t.inACCM = s.inACCM ∧ t.inEscaped = s.inEscaped ∧ t.inFCS = s.inFCS

theorem kept_protocol1 (s : PppControlRx) (c : BitVec 8) : Kept s (s.protocol1 c) := by
  rw [PppControlRx.protocol1]
  split_ifs <;> exact ⟨rfl, rfl, rfl, rfl⟩

theorem kept_control (s : PppControlRx) (c : BitVec 8) : Kept s (s.control c) := by
  rw [PppControlRx.control]
  split_ifs
  · exact ⟨rfl, rfl, rfl, rfl⟩
  · exact kept_protocol1 s c

theorem kept_address (s : PppControlRx) (c : BitVec 8) : Kept s (s.address c) := by
  rw [PppControlRx.address]
  split_ifs
  · exact ⟨rfl, rfl, rfl, rfl⟩
  · exact kept_control s c

/-- The first character of the protocol. -/
theorem fields_protocol1 (hdrop : dropAc cs = [c]) (h : Empty s) : Fields pd cs (s.protocol1 c) := by
  rw [PppControlRx.protocol1]
  split_ifs with hodd
  · refine ⟨[], ?_, ?_, h.pooled⟩
    · rw [frameFields, hdrop]
      exact if_pos hodd
    · dsimp only
      rw [h.1, h.2]
      exact .empty
  · exact ⟨⟨c, hdrop, not_not.1 hodd, rfl⟩, h⟩

theorem fields_control (hdrop : c ≠ pppUi → dropAc cs = [c])
    (hui : c = pppUi → cs = [pppUi] ∨ cs = [pppAllstations, pppUi]) (h : Empty s) : Fields pd cs (s.control c) := by
  rw [PppControlRx.control]
  split_ifs with hc
  · exact ⟨hui hc, h⟩
  · exact fields_protocol1 (hdrop hc) h

theorem fields_address (c : BitVec 8) (h : Empty s) : Fields pd [c] (s.address c) := by
  rw [PppControlRx.address]
  split_ifs with hc
  · rw [hc]
    exact ⟨rfl, h⟩
  · refine fields_control (fun hui ↦ ?_) (fun hui ↦ ?_) h
    · rw [dropAc, dropField, if_neg hc, dropField, if_neg hui]
    · rw [hui]
      exact .inl rfl

/-! ### The data -/

/-- What is in the pbufs: the header for `pppInput`, if there is a character, and the characters. -/
theorem Buffered.stored {pih : PppInputHeader} (h : Buffered pih xs s.inHead s.inTail) :
    s.stored = if xs = [] then 0 else 8 + xs.length := by
  rw [PppControlRx.stored, PppControlRx.own]
  generalize s.inHead = q at h
  generalize s.inTail = tl at h
  cases h with
  | empty => rfl
  | head pad xs totLen hne hle =>
    rw [if_neg hne, List.append_nil, pbufBytes_single, List.length_append, bytes_length]
  | own pad xs p ps t htotals hfirst hne hle hbytes =>
    have hxs : xs ≠ [] := by
      rintro rfl
      have hlen := congrArg List.length hbytes
      have hpos : 0 < t.payload.length := List.length_pos_iff.2 hne
      rw [pbufBytes_cons, List.length_append, List.length_append, List.append_nil, bytes_length] at hlen
      rw [Pbuf.len] at hfirst
      omega
    rw [if_neg hxs, pbufBytes_append, pbufBytes_single, hbytes, List.length_append, bytes_length]

/-- All of it is in pbufs from the pool. -/
theorem Buffered.stored_le {pih : PppInputHeader} (h : Buffered pih xs s.inHead s.inTail) (hp : Pooled s) :
    s.stored ≤ pbufPoolBufsize * pbufPoolSize := by
  obtain ⟨hbytes, hheld⟩ := hp
  rw [PppControlRx.held] at hheld
  have hown : (pbufBytes s.own).length ≤ pbufPoolBufsize * s.own.length := by
    rw [PppControlRx.own]
    generalize s.inHead = q at h
    generalize s.inTail = tl at h
    cases h with
    | empty | head => exact Nat.zero_le _
    | own pad xs p ps t htotals hfirst hne hle =>
      rw [pbufBytes_single, List.length_singleton, Nat.mul_one]
      exact hle
  calc s.stored = (pbufBytes s.inHead).length + (pbufBytes s.own).length := by
        rw [PppControlRx.stored, pbufBytes_append, List.length_append]
    _ ≤ pbufPoolBufsize * s.inHead.length + pbufPoolBufsize * s.own.length := Nat.add_le_add hbytes hown
    _ = pbufPoolBufsize * (s.inHead.length + s.own.length) := (Nat.mul_add ..).symm
    _ ≤ pbufPoolBufsize * pbufPoolSize := Nat.mul_le_mul_left _ hheld

theorem Buffered.length_lt {pih : PppInputHeader} (h : Buffered pih xs s.inHead s.inTail) (hp : Pooled s) :
    8 + xs.length < 2 ^ 16 := by
  have hle := h.stored_le hp
  have hsize : pbufPoolBufsize * pbufPoolSize = 9472 := rfl
  rw [h.stored] at hle
  split_ifs at hle with hnil
  · rw [hnil]
    decide
  · omega

theorem pool_some {pad : BitVec 16} (h : s.pool mem = some pad) : s.held < pbufPoolSize := by
  rw [PppControlRx.pool] at h
  split_ifs at h with hlt
  exact hlt

/-- A pbuf more is from the pool, too. -/
theorem Buffered.pooled {pih : PppInputHeader} {pad : BitVec 16} (h : Buffered pih xs s.inHead s.inTail) (hp : Pooled s)
    (hroom : s.tailLen = none ∨ s.tailLen = some pbufPoolBufsize → s.held < pbufPoolSize)
    (hs : s.data c (some pad) = some t) : Pooled t := by
  obtain ⟨pd, q, tl, proto, fcs, state, escaped, accm⟩ := s
  dsimp only at h
  cases h with
  | empty =>
    cases hs
    exact ⟨(by decide : 9 ≤ 592), (by decide : 1 ≤ 16)⟩
  | head pad' xs totLen hne hle =>
    have hlength : (pih.bytes pad' ++ xs).length = 8 + xs.length := by rw [List.length_append, bytes_length]
    by_cases hfull : 8 + xs.length = pbufPoolBufsize
    · rw [data_full] at hs
      · cases hs
        refine ⟨?_, (by decide : 2 ≤ 16)⟩
        change (pbufBytes [_]).length ≤ pbufPoolBufsize * 1
        rw [pbufBytes_single, Nat.mul_one]
        exact hlength.le.trans hle
      · exact congrArg some (hlength.trans hfull)
    · rw [data_room (n := 8 + xs.length)] at hs
      · cases hs
        refine ⟨?_, (by decide : 1 ≤ 16)⟩
        change (pbufBytes [_]).length ≤ pbufPoolBufsize * 1
        rw [pbufBytes_single, Nat.mul_one]
        change (pih.bytes pad' ++ xs ++ [c]).length ≤ _
        rw [List.length_append, hlength, List.length_singleton]
        omega
      · exact congrArg some hlength
      · exact hfull
  | own pad' xs p ps t' htotals hfirst hne hle hbytes =>
    by_cases hfull : t'.len = pbufPoolBufsize
    · rw [data_full] at hs
      · change Option.map _ (Option.map _ (pbufCat [{ t' with totLen := t'.len }] (p :: ps))) = some t at hs
        obtain ⟨s', hlink, hload⟩ := Option.map_eq_some_iff.1 hs
        obtain ⟨chain, hcat, rfl⟩ := Option.map_eq_some_iff.1 hlink
        obtain ⟨front, rfl, hfront⟩ := append_of_cat hcat
        have hlen : front.length = (p :: ps).length := by simpa using congrArg List.length hfront
        have hsame : pbufBytes front = pbufBytes (p :: ps) := by
          rw [pbufBytes, pbufBytes, List.flatMap_def, List.flatMap_def, hfront]
        have hlt : (p :: ps).length + 1 < pbufPoolSize := hroom (.inr (congrArg some hfull))
        have hne : front ++ [{ t' with totLen := t'.len }] ≠ [] :=
          List.append_ne_nil_of_right_ne_nil _ (List.cons_ne_nil _ _)
        dsimp only at hload
        rw [if_neg hne] at hload
        subst hload
        refine ⟨?_, ?_⟩
        · change (pbufBytes (front ++ [_])).length ≤ pbufPoolBufsize * (front ++ [_]).length
          have hfit : (pbufBytes (p :: ps)).length ≤ pbufPoolBufsize * (p :: ps).length := hp.1
          rw [pbufBytes_append, pbufBytes_single, List.length_append, List.length_append, hsame, hlen,
            List.length_singleton, Nat.mul_add, Nat.mul_one]
          exact Nat.add_le_add hfit hle
        · change (front ++ [_]).length + 1 ≤ pbufPoolSize
          rw [List.length_append, hlen, List.length_singleton]
          exact hlt
      · exact congrArg some hfull
    · rw [data_room (n := t'.len)] at hs
      · cases hs
        exact hp
      · rfl
      · exact hfull

/-- With no pbuf, what there is is dropped. -/
theorem data_none (hfull : s.tailLen = none ∨ s.tailLen = some pbufPoolBufsize) (c : BitVec 8) (pad : BitVec 16) :
    s.data c none = (s.data c (some pad)).map fun t ↦ { t.pppDrop with inState := .pdStart } := by
  rw [PppControlRx.data, PppControlRx.data, if_pos hfull, if_pos hfull]
  dsimp only
  rw [Option.map_map]
  congr 1
  funext s
  dsimp only [Function.comp_apply]
  split_ifs <;> rfl

/-- With room in the last pbuf, none is needed. -/
theorem data_mem (hroom : ¬(s.tailLen = none ∨ s.tailLen = some pbufPoolBufsize)) (c : BitVec 8)
    (mem mem' : Option (BitVec 16)) : s.data c mem = s.data c mem' := by
  rw [PppControlRx.data, PppControlRx.data, if_neg hroom, if_neg hroom]

/-- The data: a character more, or no pbuf for it. -/
theorem fields_data (h : Fields pd cs s) (hpd : s.pd = pd) (hesc : s.inEscaped = false) (hstate : s.inState = .pdData)
    (c : BitVec 8) (mem : Option (BitVec 16)) :
    ∃ t, s.data c (s.pool mem) = some t ∧ Kept s t ∧ (s.misses mem = true → t.inState = .pdStart ∧ Empty t) ∧
      (s.misses mem = false → Fields pd (cs ++ [c]) t) := by
  rw [Fields, hstate] at h
  obtain ⟨xs, hfields, hbuffered, hpooled⟩ := h
  have hsame : s = ⟨s.pd, s.inHead, s.inTail, s.inProtocol, s.inFCS, .pdData, false, s.inACCM⟩ := by rw [← hstate, ← hesc]
  have hmore : ∀ pad, ∃ t, s.data c (some pad) = some t ∧ Kept s t ∧
      ((s.tailLen = none ∨ s.tailLen = some pbufPoolBufsize → s.held < pbufPoolSize) → Fields pd (cs ++ [c]) t) := by
    intro pad
    obtain ⟨q, tl, hdata, hbuffered'⟩ := (hpd ▸ hbuffered).data s.inACCM s.inFCS (hbuffered.length_lt hpooled) c pad
    rw [← hsame] at hdata
    refine ⟨_, hdata, ⟨rfl, rfl, hesc.symm, rfl⟩, fun hroom ↦ ?_⟩
    exact ⟨xs ++ [c], frameFields_append hfields [c], hpd ▸ hbuffered', hbuffered.pooled hpooled hroom hdata⟩
  by_cases hfull : s.tailLen = none ∨ s.tailLen = some pbufPoolBufsize
  · have hmisses : s.misses mem = (s.pool mem).isNone := by
      rw [PppControlRx.misses, hstate]
      simp [hfull]
    rw [hmisses]
    rcases hpool : s.pool mem with _ | pad
    · obtain ⟨t, hdata, hkept, -⟩ := hmore 0
      rw [data_none hfull c 0, hdata]
      exact ⟨_, rfl, hkept, fun _ ↦ ⟨rfl, rfl, rfl⟩, nofun⟩
    · obtain ⟨t, hdata, hkept, hnext⟩ := hmore pad
      exact ⟨t, hdata, hkept, nofun, fun _ ↦ hnext fun _ ↦ pool_some hpool⟩
  · have hmisses : s.misses mem = false := by
      rw [PppControlRx.misses, hstate]
      simp [hfull]
    obtain ⟨t, hdata, hkept, hnext⟩ := hmore 0
    rw [hmisses, data_mem hfull c _ (some 0)]
    exact ⟨t, hdata, hkept, nofun, fun _ ↦ hnext fun h ↦ absurd h hfull⟩

/-- The header: a character more, with no need of a pbuf. -/
theorem fields_header (h : Fields pd cs s) (hstate : s.inState ≠ .pdData) (c : BitVec 8) (mem : Option (BitVec 16)) :
    ∃ t, s.process c mem = some { t with inFCS := pppFcs s.inFCS c } ∧ Kept s t ∧ Fields pd (cs ++ [c]) t := by
  rw [Fields] at h
  rw [PppControlRx.process]
  cases hs : s.inState with
  | pdIdle | pdStart => simp [hs] at h
  | pdData => exact absurd hs hstate
  | pdAddress =>
    simp only [hs] at h
    obtain ⟨rfl, hempty⟩ := h
    have hkept := kept_address s c
    exact ⟨s.address c, hkept.2.2.2 ▸ rfl, hkept, fields_address c hempty⟩
  | pdControl =>
    simp only [hs] at h
    obtain ⟨rfl, hempty⟩ := h
    have hkept := kept_control s c
    refine ⟨s.control c, hkept.2.2.2 ▸ rfl, hkept, fields_control (fun hui ↦ ?_) (fun hui ↦ ?_) hempty⟩
    · exact if_neg hui
    · rw [hui]
      exact .inr rfl
  | pdProtocol1 =>
    simp only [hs] at h
    obtain ⟨hcs, hempty⟩ := h
    have hkept := kept_protocol1 s c
    refine ⟨s.protocol1 c, hkept.2.2.2 ▸ rfl, hkept, fields_protocol1 ?_ hempty⟩
    rcases hcs with rfl | rfl <;> rfl
  | pdProtocol2 =>
    simp only [hs] at h
    obtain ⟨⟨p, hdrop, heven, hproto⟩, hempty⟩ := h
    have hfields : frameFields (cs ++ [c]) = some (p ++ c, []) := by
      rw [frameFields, dropAc_append (by rw [hdrop]; exact List.cons_ne_nil _ _), hdrop]
      exact if_neg (not_not.2 heven)
    refine ⟨{ s with inProtocol := s.inProtocol ||| c.setWidth 16, inState := .pdData }, rfl, ⟨rfl, rfl, rfl, rfl⟩, [],
      ?_, ?_, hempty.pooled⟩
    · rw [hfields, ← protocol_append, hproto]
    · dsimp only
      rw [hempty.1, hempty.2]
      exact .empty

/-- **A character more**, in any state. -/
theorem Reads.process (h : Reads pd cs s) (hpd : s.pd = pd) (hesc : s.inEscaped = false) (c : BitVec 8)
    (mem : Option (BitVec 16)) :
    ∃ t, s.process c (s.pool mem) = some t ∧ t.pd = pd ∧ t.inACCM = s.inACCM ∧ t.inEscaped = false ∧
      (s.misses mem = true → t.inState = .pdStart ∧ Empty t) ∧ (s.misses mem = false → Reads pd (cs ++ [c]) t) := by
  obtain ⟨hfcs, hfields⟩ := h
  have hfcs' : pppFcs s.inFCS c = fcsOf (cs ++ [c]) := by rw [fcsOf_concat, hfcs]
  by_cases hstate : s.inState = .pdData
  · obtain ⟨t, hdata, ⟨hpd', haccm', hesc', hsame⟩, hmissing, hnext⟩ := fields_data hfields hpd hesc hstate c mem
    refine ⟨{ t with inFCS := pppFcs t.inFCS c }, ?_, hpd'.trans hpd, haccm', hesc'.trans hesc, hmissing,
      fun hroom ↦ ⟨?_, hnext hroom⟩⟩
    · rw [PppControlRx.process, hstate]
      dsimp only
      rw [hdata]
      rfl
    · rw [hsame]
      exact hfcs'
  · obtain ⟨t, hprocess, ⟨hpd', haccm', hesc', -⟩, hnext⟩ := fields_header hfields hstate c (s.pool mem)
    have hmisses : s.misses mem = false := by simp [PppControlRx.misses, hstate]
    refine ⟨_, hprocess, hpd'.trans hpd, haccm', hesc'.trans hesc, ?_, fun _ ↦ ⟨hfcs', hnext⟩⟩
    rw [hmisses]
    exact fun h ↦ absurd h Bool.false_ne_true

open PppControlRx in
/-- A receiver that waits begins with the next character, or drops it. -/
theorem process_wait (hwait : s.inState = .pdIdle ∨ s.inState = .pdStart) (hempty : Empty s) (c : BitVec 8)
    (mem : Option (BitVec 16)) :
    ∃ t, s.process c mem = some t ∧ t.pd = s.pd ∧ t.inACCM = s.inACCM ∧ t.inEscaped = s.inEscaped ∧
      (s.inState = .pdIdle ∧ t.inState = .pdIdle ∧ Empty t ∨ Reads pd [c] t) := by
  obtain ⟨hpd, haccm, hesc, hfcs⟩ := kept_address { s with inFCS := pppInitfcs } c
  have hbegins : Reads pd [c] { address { s with inFCS := pppInitfcs } c with
      inFCS := pppFcs (address { s with inFCS := pppInitfcs } c).inFCS c } := by
    refine ⟨?_, fields_address c hempty⟩
    rw [hfcs]
    rfl
  rw [PppControlRx.process]
  rcases hwait with hidle | hstart
  · rw [hidle]
    by_cases hall : c = pppAllstations
    · refine ⟨_, congrArg (Option.map _) (congrArg some (if_neg (not_not.2 hall))), hpd, haccm, hesc, .inr hbegins⟩
    · exact ⟨_, congrArg (Option.map _) (congrArg some (if_pos hall)), rfl, rfl, rfl, .inl ⟨rfl, hidle, hempty⟩⟩
  · rw [hstart]
    exact ⟨_, rfl, hpd, haccm, hesc, .inr hbegins⟩

/-! ### A flag -/

/-- **A flag** makes the receiver ready for a frame. -/
theorem flag_ready (pd : BitVec 32) {o : Option (List Pbuf)} (hempty : s.inState ≠ .pdData → Empty s) (hs : s.flag = some (t, o)) :
    Reads pd [] t ∧ t.pd = s.pd ∧ t.inACCM = s.inACCM ∧ t.inEscaped = false := by
  rw [PppControlRx.flag] at hs
  cases hstate : s.inState with
  | pdIdle | pdStart | pdAddress =>
    simp only [hstate] at hs
    cases hs
    exact ⟨⟨rfl, rfl, hempty (by simp [hstate])⟩, rfl, rfl, rfl⟩
  | pdControl | pdProtocol1 | pdProtocol2 =>
    simp only [hstate] at hs
    cases hs
    exact ⟨⟨rfl, rfl, rfl, rfl⟩, rfl, rfl, rfl⟩
  | pdData =>
    simp only [hstate] at hs
    split_ifs at hs with hfcs
    · cases hs
      exact ⟨⟨rfl, rfl, rfl, rfl⟩, rfl, rfl, rfl⟩
    · obtain ⟨inp, -, heq⟩ := Option.map_eq_some_iff.1 hs
      cases heq
      exact ⟨⟨rfl, rfl, rfl, rfl⟩, rfl, rfl, rfl⟩

/-- Only data with a good check sequence is passed on. -/
theorem flag_none (h : ¬(s.inState = .pdData ∧ s.inFCS = pppGoodfcs)) : ∃ t, s.flag = some (t, none) := by
  rw [PppControlRx.flag]
  cases hstate : s.inState with
  | pdData => exact ⟨_, if_pos fun hfcs ↦ h ⟨hstate, hfcs⟩⟩
  | pdIdle | pdStart | pdAddress | pdControl | pdProtocol1 | pdProtocol2 => exact ⟨_, rfl⟩

/-- **A frame is passed on** if there are two characters behind the header. -/
theorem flag_some (h : Fields pd cs s) (hpd : s.pd = pd) (hstate : s.inState = .pdData) (hfcs : s.inFCS = pppGoodfcs)
    (hstored : 8 + 2 ≤ s.stored) : ∃ t inp, s.flag = some (t, some inp) ∧
      ∃ proto xs a b, frameFields cs = some (proto, xs ++ [a, b]) ∧
        ∃ nb, pppInput inp = some (⟨pd, proto⟩, nb) ∧ Totals nb ∧ pbufBytes nb = xs := by
  rw [Fields, hstate] at h
  obtain ⟨ys, hfields, hbuffered, hpooled⟩ := h
  have hlen := hbuffered.length_lt hpooled
  rw [hbuffered.stored] at hstored
  obtain ⟨xs, a, b, rfl⟩ : ∃ xs a b, ys = xs ++ [a, b] := by
    rcases ys.eq_nil_or_concat with rfl | ⟨ys, b, rfl⟩
    · simp at hstored
    rcases ys.eq_nil_or_concat with rfl | ⟨xs, a, rfl⟩
    · simp at hstored
    exact ⟨xs, a, b, by simp⟩
  rw [List.length_append] at hlen
  obtain ⟨pad, p, ps, htrim, htotals, hfirst, hbytes⟩ := (hpd ▸ hbuffered).trimFcs s.inACCM s.inFCS hlen
  obtain ⟨nb, hinput, htotals', hnb⟩ := pppInput_bytes htotals hfirst hbytes (by omega)
  refine ⟨{ s with inHead := [], inTail := .null, inFCS := pppInitfcs, inState := .pdAddress, inEscaped := false },
    p :: ps, ?_, s.inProtocol, xs, a, b, hfields, nb, hpd ▸ hinput, htotals', hnb⟩
  have htrim' : s.trimFcs = some (p :: ps) := htrim
  rw [PppControlRx.flag, hstate]
  dsimp only
  rw [if_neg (not_not.2 hfcs), htrim']
  rfl

/-- Two characters behind the header are in the pbufs. -/
theorem Reads.stored {proto : BitVec 16} {a b : BitVec 8} (h : Reads pd cs s) (hstate : s.inState = .pdData)
    (hfields : frameFields cs = some (proto, xs ++ [a, b])) : 8 + 2 ≤ s.stored := by
  obtain ⟨-, h⟩ := h
  rw [Fields, hstate] at h
  obtain ⟨ys, hys, hbuffered, -⟩ := h
  rw [hfields] at hys
  cases hys
  rw [hbuffered.stored, if_neg (List.append_ne_nil_of_right_ne_nil _ (List.cons_ne_nil _ _)), List.length_append]
  exact Nat.add_le_add_left (Nat.le_add_left 2 _) 8

/-- With a good check sequence something is passed on. -/
theorem flag_inp {o : Option (List Pbuf)} (hstate : s.inState = .pdData) (hfcs : s.inFCS = pppGoodfcs)
    (hs : s.flag = some (t, o)) : ∃ inp, o = some inp := by
  rw [PppControlRx.flag, hstate] at hs
  dsimp only at hs
  rw [if_neg (not_not.2 hfcs)] at hs
  obtain ⟨inp, -, heq⟩ := Option.map_eq_some_iff.1 hs
  cases heq
  exact ⟨inp, rfl⟩

/-! ### Bytes -/

/-- A byte that the map takes out. -/
theorem inProc_taken (hc : escapeP s.inACCM c = true) (hflag : c ≠ pppFlag) (mem : Option (BitVec 16)) :
    pppInProc c mem s = some ({ s with inEscaped := s.inEscaped || c == pppEscape }, none) := by
  rw [pppInProc, if_pos hc]
  by_cases hescape : c = pppEscape
  · rw [if_pos hescape, hescape, beq_self_eq_true, Bool.or_true]
  · rw [if_neg hescape, if_neg hflag, beq_false_of_ne hescape, Bool.or_false]

/-- A character. -/
theorem inProc_char (hc : escapeP s.inACCM c = false) (mem : Option (BitVec 16)) :
    pppInProc c mem s = (PppControlRx.process { s with inEscaped := false }
      (if s.inEscaped then c ^^^ pppTrans else c) mem).map (·, none) := by
  rw [pppInProc, if_neg (by simp [hc])]
  rcases hesc : s.inEscaped with _ | _
  · have hsame : { s with inEscaped := false } = s := by rw [← hesc]
    rw [hsame]
    rfl
  · rfl

/-- **The invariant**: the receiver waits, or has read some characters; if a flag came and no pbuf was missing since then,
they are what came since then. -/
structure SerialInv (pd : BitVec 32) (accm : ExtAccm) (l : SerialLine) : Prop where
  unit : l.rx.pd = pd
  map : l.rx.inACCM = accm
  reads : ((l.rx.inState = .pdIdle ∧ l.since = none ∨ l.rx.inState = .pdStart ∧ l.failed = true) ∧ Empty l.rx) ∨
    ∃ cs, Reads pd cs l.rx ∧ ∀ bs, l.since = some bs → l.failed = false → unstuff accm bs = (cs, l.rx.inEscaped)

theorem SerialInv.opened (pd : BitVec 32) (accm : ExtAccm) : SerialInv pd accm (.opened pd accm) :=
  ⟨rfl, rfl, .inl ⟨.inl ⟨rfl, rfl⟩, rfl, rfl⟩⟩

theorem SerialInv.empty (h : SerialInv pd accm l) (hstate : l.rx.inState ≠ .pdData) : Empty l.rx := by
  rcases h.reads with ⟨-, hempty⟩ | ⟨cs, ⟨-, hfields⟩, -⟩
  · exact hempty
  · rw [Fields] at hfields
    cases hs : l.rx.inState <;> simp only [hs] at hfields
    · exact hfields.2
    · exact hfields.2
    · exact hfields.2
    · exact hfields.2
    · exact absurd hs hstate

/-- A byte that the map takes out. -/
theorem SerialInv.taken (h : SerialInv pd accm l) (hc : escapeP accm c = true) :
    SerialInv pd accm
      ⟨{ l.rx with inEscaped := l.rx.inEscaped || c == pppEscape }, l.since.map (· ++ [c]), l.failed⟩ := by
  refine ⟨h.unit, h.map, ?_⟩
  rcases h.reads with ⟨hwait, hempty⟩ | ⟨cs, hreads, hsince⟩
  · refine .inl ⟨?_, hempty⟩
    rcases hwait with ⟨hidle, hnone⟩ | hstart
    · exact .inl ⟨hidle, congrArg (Option.map (· ++ [c])) hnone⟩
    · exact .inr hstart
  · refine .inr ⟨cs, hreads, fun bs hbs hfailed ↦ ?_⟩
    obtain ⟨bs, hsome, rfl⟩ := Option.map_eq_some_iff.1 hbs
    rw [unstuff_concat, if_pos hc, hsince bs hsome hfailed]

/-- A character. -/
theorem SerialInv.char (h : SerialInv pd accm l) (hc : escapeP accm c = false) (mem : Option (BitVec 16)) :
    ∃ t, PppControlRx.process { l.rx with inEscaped := false } (if l.rx.inEscaped then c ^^^ pppTrans else c)
        (l.rx.pool mem) = some t ∧ SerialInv pd accm ⟨t, l.since.map (· ++ [c]), l.failed || l.rx.misses mem⟩ := by
  rcases h.reads with ⟨hwait, hempty⟩ | ⟨cs, hreads, hsince⟩
  · have hstate : l.rx.inState = .pdIdle ∨ l.rx.inState = .pdStart := hwait.imp And.left And.left
    obtain ⟨t, hprocess, hpd, haccm, -, hnext⟩ := process_wait (s := { l.rx with inEscaped := false }) hstate hempty
      (if l.rx.inEscaped then c ^^^ pppTrans else c) (l.rx.pool mem)
    refine ⟨t, hprocess, hpd.trans h.unit, haccm.trans h.map, ?_⟩
    rcases hnext with ⟨hidle, hidle', hempty'⟩ | hreads
    · rcases hwait with ⟨-, hnone⟩ | ⟨hstart, -⟩
      · exact .inl ⟨.inl ⟨hidle', congrArg (Option.map (· ++ [c])) hnone⟩, hempty'⟩
      · cases hidle.symm.trans hstart
    · refine .inr ⟨_, hreads, fun bs hbs hfailed ↦ ?_⟩
      rcases hwait with ⟨-, hnone⟩ | ⟨-, hmissing⟩
      · simp [hnone] at hbs
      · simp [hmissing] at hfailed
  · obtain ⟨t, hprocess, hpd, haccm, hesc, hmissing, hnext⟩ := Reads.process (s := { l.rx with inEscaped := false })
      hreads h.unit rfl (if l.rx.inEscaped then c ^^^ pppTrans else c) mem
    refine ⟨t, hprocess, hpd, haccm.trans h.map, ?_⟩
    rcases hmisses : l.rx.misses mem with _ | _
    · refine .inr ⟨_, hnext hmisses, fun bs hbs hfailed ↦ ?_⟩
      rw [Bool.or_false] at hfailed
      obtain ⟨bs, hsome, rfl⟩ := Option.map_eq_some_iff.1 hbs
      rw [unstuff_concat, if_neg (by simp [hc]), hsince bs hsome hfailed, hesc]
    · obtain ⟨hstart, hempty⟩ := hmissing hmisses
      exact .inl ⟨.inr ⟨hstart, Bool.or_true _⟩, hempty⟩

/-- **A byte that is no flag**: nothing is passed on, and the invariant is kept. -/
theorem SerialInv.step (h : SerialInv pd accm l) (x : BitVec 8 × Option (BitVec 16)) (hx : x.1 ≠ pppFlag) :
    ∃ l', l.step x = some (l', none) ∧ SerialInv pd accm l' := by
  rw [SerialLine.step]
  rcases hc : escapeP accm x.1 with _ | _
  · obtain ⟨t, hprocess, hinv⟩ := h.char hc x.2
    rw [h.map, hc, inProc_char (h.map ▸ hc), hprocess]
    exact ⟨_, congrArg some (Prod.ext (if_neg hx) rfl), hinv⟩
  · rw [h.map, hc, inProc_taken (h.map ▸ hc) hx]
    have hinv := h.taken hc
    rw [← Bool.or_false l.failed] at hinv
    exact ⟨_, congrArg some (Prod.ext (if_neg hx) rfl), hinv⟩

/-- A flag is taken for one. -/
theorem SerialInv.step_flag (h : SerialInv pd accm l) (hflag : escapeP accm pppFlag = true) (mem : Option (BitVec 16)) :
    l.step (pppFlag, mem) = l.rx.flag.map fun r ↦
      (⟨r.1, some [], false⟩, r.2.map fun inp ↦ ⟨inp, pppFlag, l.since, l.failed⟩) := by
  have hproc : pppInProc pppFlag (l.rx.pool mem) l.rx = l.rx.flag := by
    rw [pppInProc, h.map, if_pos hflag]
    rfl
  rw [SerialLine.step, hproc]
  rfl

/-- **One byte keeps the invariant**, whatever is passed on. -/
theorem SerialInv.keep (h : SerialInv pd accm l) (hflag : escapeP accm pppFlag = true) {x : BitVec 8 × Option (BitVec 16)}
    {o : Option Delivery} (hs : l.step x = some (l', o)) : SerialInv pd accm l' := by
  obtain ⟨c, mem⟩ := x
  by_cases hx : c = pppFlag
  · subst hx
    rw [h.step_flag hflag] at hs
    obtain ⟨⟨t, inp⟩, hready, heq⟩ := Option.map_eq_some_iff.1 hs
    cases heq
    obtain ⟨hreads, hpd, haccm, hesc⟩ := flag_ready pd h.empty hready
    refine ⟨hpd.trans h.unit, haccm.trans h.map, .inr ⟨[], hreads, fun bs hbs _ ↦ ?_⟩⟩
    cases hbs
    exact Prod.ext rfl hesc.symm
  · obtain ⟨l'', hs', hinv⟩ := h.step (c, mem) hx
    rw [hs'] at hs
    cases hs
    exact hinv

/-- In the data the receiver does not wait. -/
theorem SerialInv.data (h : SerialInv pd accm l) (hstate : l.rx.inState = .pdData) :
    ∃ cs, Reads pd cs l.rx ∧ ∀ bs, l.since = some bs → l.failed = false → unstuff accm bs = (cs, l.rx.inEscaped) := by
  rcases h.reads with ⟨⟨hidle, -⟩ | ⟨hstart, -⟩, -⟩ | hreads
  · cases hidle.symm.trans hstate
  · cases hstart.symm.trans hstate
  · exact hreads

/-- **One byte**: there is no null pointer, and what is passed on is right, exactly if the byte meets the condition. -/
theorem SerialInv.right_iff (h : SerialInv pd accm l) (hflag : escapeP accm pppFlag = true)
    (x : BitVec 8 × Option (BitVec 16)) :
    (∃ l' o, l.step x = some (l', o) ∧ ∀ d ∈ o, d.Right pd accm) ↔ l.Meets x := by
  obtain ⟨c, mem⟩ := x
  by_cases hx : c = pppFlag
  · subst hx
    rw [h.step_flag hflag]
    by_cases hgood : l.rx.inState = .pdData ∧ l.rx.inFCS = pppGoodfcs
    · obtain ⟨hstate, hfcs⟩ := hgood
      obtain ⟨cs, hreads, hsince⟩ := h.data hstate
      constructor
      · rintro ⟨l', o, hs, hright⟩ - - -
        obtain ⟨⟨t, inp⟩, hready, heq⟩ := Option.map_eq_some_iff.1 hs
        obtain ⟨inp, rfl⟩ := flag_inp hstate hfcs hready
        cases heq
        obtain ⟨-, hfailed, bs, hbs, -, proto, xs, a, b, hfields, -⟩ := hright _ rfl
        rw [hsince bs hbs hfailed] at hfields
        exact ⟨Option.ne_none_iff_exists'.2 ⟨bs, hbs⟩, hfailed, hreads.stored hstate hfields⟩
      · intro hmeets
        obtain ⟨hsome, hfailed, hstored⟩ := hmeets rfl hstate hfcs
        obtain ⟨bs, hbs⟩ := Option.ne_none_iff_exists'.1 hsome
        obtain ⟨t, inp, hready, hframe⟩ := flag_some hreads.2 h.unit hstate hfcs hstored
        rw [hready]
        refine ⟨_, _, rfl, fun d hd ↦ ?_⟩
        cases hd
        refine ⟨rfl, hfailed, bs, hbs, ?_⟩
        rw [hsince bs hbs hfailed]
        exact ⟨hreads.1.symm.trans hfcs, hframe⟩
    · obtain ⟨t, ht⟩ := flag_none hgood
      rw [ht]
      exact iff_of_true ⟨_, none, rfl, nofun⟩ fun _ hstate hfcs ↦ absurd ⟨hstate, hfcs⟩ hgood
  · obtain ⟨l', hs, -⟩ := h.step (c, mem) hx
    rw [hs]
    exact iff_of_true ⟨l', none, rfl, nofun⟩ fun heq ↦ absurd heq hx

/-- **What a serial line passes on.** For every stream, however it is cut, and whichever pbufs can be allocated: no
null pointer is used, and what is passed on is the protocol and the data of a frame, exactly if every byte meets the
condition. -/
theorem ppp_serial_sound (pd : BitVec 32) (accm : ExtAccm) (hflag : escapeP accm pppFlag = true)
    (chunks : List (List (BitVec 8 × Option (BitVec 16)))) :
    SerialSound pd accm chunks ↔
      ∀ pre x post l ds, chunks.flatten = pre ++ x :: post →
        feed SerialLine.step pre (.opened pd accm) = some (l, ds) → l.Meets x := by
  rw [SerialSound, feedChunks_eq]
  exact feed_right_iff (I := SerialInv pd accm) (fun x l l' o h hs ↦ h.keep hflag hs) (fun x l h ↦ h.right_iff hflag x)
    (.opened pd accm)

/-- A frame in two pieces: what is passed on is right, and each of the bytes meets the condition. -/
theorem ppp_serial_sound_frame :
    SerialSound 0 exampleInAccm
        [[(0x7e, some 0), (0x21, some 0), (0x45, some 0)], [(0x05, some 0), (0x20, some 0), (0x7e, some 0)]] ∧
      ∀ pre x post l ds, [(0x7e, some 0), (0x21, some 0), (0x45, some 0), (0x05, some 0), (0x20, some 0), (0x7e, some 0)] =
          pre ++ x :: post →
        feed SerialLine.step pre (.opened 0 exampleInAccm) = some (l, ds) → l.Meets x := by
  have hsound : SerialSound 0 exampleInAccm
      [[(0x7e, some 0), (0x21, some 0), (0x45, some 0)], [(0x05, some 0), (0x20, some 0), (0x7e, some 0)]] := by
    refine ⟨_, _, rfl, fun d hd ↦ ?_⟩
    obtain rfl := List.mem_singleton.1 hd
    exact ⟨rfl, rfl, _, rfl, by decide, 0x21, [0x45], 0x05, 0x20, by decide, _, rfl, by decide, rfl⟩
  exact ⟨hsound, (ppp_serial_sound 0 exampleInAccm (by decide) _).1 hsound⟩

theorem not_serialSound {chunks : List (List (BitVec 8 × Option (BitVec 16)))} {d : Delivery}
    (h : (feedChunks SerialLine.step chunks (.opened pd accm)).map Prod.snd = some [d]) (hd : ¬d.Right pd accm) :
    ¬SerialSound pd accm chunks := by
  rintro ⟨l, ds, hfeed, hright⟩
  rw [hfeed] at h
  cases h
  exact hd (hright d (List.mem_singleton_self d))

/-- **What goes wrong.** A null pointer is used for a frame with a protocol of two bytes and no more, and the header for
`pppInput` is cut for one character more. What comes behind a character with no pbuf is taken for a frame, and so is
what comes before the first flag. -/
theorem ppp_serial_wrong :
    ¬SerialSound 0 exampleInAccm [[(0x7e, some 0), (0x00, some 0), (0x00, some 0), (0x7e, some 0)]] ∧
    ¬SerialSound 0 exampleInAccm [[(0x7e, some 0), (0x03, some 0), (0xe3, some 0), (0xc2, some 0), (0x7e, some 0)]] ∧
    ¬SerialSound 0 exampleInAccm [[(0x7e, some 0), (0x21, some 0), (0x45, none), (0x21, some 0), (0x45, some 0),
      (0x05, some 0), (0x20, some 0), (0x7e, some 0)]] ∧
    ¬SerialSound 0 exampleInAccm [[(0xff, some 0), (0x03, some 0), (0x21, some 0), (0x45, some 0), (0x2a, some 0),
      (0xf9, some 0), (0x7e, some 0)]] := by
  refine ⟨?_, ?_, ?_, ?_⟩
  · rintro ⟨l, ds, hfeed, -⟩
    have hnone : (feedChunks SerialLine.step [[(0x7e, some 0), (0x00, some 0), (0x00, some 0), (0x7e, some 0)]]
      (.opened 0 exampleInAccm)).isNone := by decide
    rw [hfeed] at hnone
    cases hnone
  · refine not_serialSound (d := ⟨[⟨[0x00, 0x00, 0x00, 0x00, 0xe3, 0x00, 0x00], 7⟩], 0x7e,
      some [0x03, 0xe3, 0xc2], false⟩) (by decide) ?_
    rintro ⟨-, -, bs, -, -, proto, xs, a, b, -, nb, hinput, -⟩
    cases hinput
  · refine not_serialSound (d := ⟨[⟨[0x00, 0x00, 0x00, 0x00, 0x21, 0x00, 0x00, 0x00, 0x45], 9⟩], 0x7e,
      some [0x21, 0x45, 0x21, 0x45, 0x05, 0x20], true⟩) (by decide) ?_
    rintro ⟨-, hfailed, -⟩
    cases hfailed
  · refine not_serialSound (d := ⟨[⟨[0x00, 0x00, 0x00, 0x00, 0x21, 0x00, 0x00, 0x00, 0x45], 9⟩], 0x7e, none, false⟩)
      (by decide) ?_
    rintro ⟨-, -, bs, hsince, -⟩
    cases hsince

end Lwip.Netif.Ppp
