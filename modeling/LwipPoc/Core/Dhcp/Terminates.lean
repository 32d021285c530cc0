import LwipPoc.Core.Dhcp.ParseReply
import LwipPoc.Foundation.CycleFinding
import Mathlib.Data.Set.Finite.Lattice
import Mathlib.Data.Finite.Prod
import Mathlib.Data.Fintype.Card
import Mathlib.Data.Fintype.Sum
import Mathlib.Order.Interval.Finset.Nat
import Mathlib.Tactic.DeriveFintype

/-!
# Which DHCP messages are parsed to an end

The way of the option loop does not depend on what has been decoded, apart from the overload option. So it is a walk from
spot to spot (`hop`), and an area asks for other areas by the first overload option on the walk (`Asks`).

Two things can go round. In a pbuf of at least 65280 octets the offset overflows, and an option may lead back to one at
which the loop was before. And the overload option is looked for again after the file and the sname field, so that an area
may ask for itself. The function returns if and only if neither happens (`dhcpParseReply_ends_iff`).
-/

namespace Lwip.Core.Dhcp

variable {behind : List Pbuf → ℕ → BitVec 8} {p : List Pbuf} {c c' : Spot} {op : BitVec 8} {s : Switched}
  {rx rx' : RxOptions} {reads reads' : List Read} {len offset n fuel : ℕ} {v w : Option (BitVec 32)}

/-! ### Decoding -/

/-- The overload option, if there is one. -/
def RxOptions.overload (rx : RxOptions) : Option (BitVec 32) :=
  if rx.given dhcpOptionIdxOverload then some (rx.val dhcpOptionIdxOverload) else none

theorem RxOptions.clear_overload (rx : RxOptions) : (rx.clear dhcpOptionIdxOverload).overload = none := by
  simp [RxOptions.overload]

theorem RxOptions.clear_eq {idx : ℕ} (rx : RxOptions) (h : rx.given idx = false) : rx.clear idx = rx := by
  rw [RxOptions.clear, ← h, Function.update_eq_self]

/-- Values of `decodeLen` octets fit behind a place. -/
def Fits (decodeLen idx : ℕ) : Prop :=
  (decodeLen = 1 ∨ decodeLen % 4 = 0) ∧ 0 < decodeLen ∧ idx + (decodeLen + 3) / 4 ≤ dhcpOptionIdxMax

instance (decodeLen idx : ℕ) : Decidable (Fits decodeLen idx) := inferInstanceAs (Decidable (_ ∧ _))

theorem lenIs_eq_some {idx : ℕ} (h : lenIs n len offset idx = some s) : len = n ∧ s = ⟨n, offset, n, some idx⟩ := by
  rw [lenIs] at h
  split_ifs at h with hlen
  subst hlen
  exact ⟨rfl, (Option.some.inj h).symm⟩

/-- Of an option other than a pad octet there is nothing to decode, or a value that fits. -/
def Sound (op : BitVec 8) (len offset : ℕ) (s : Switched) : Prop :=
  s.len = len ∧ s.offset = offset ∧ s.decodeLen ≤ len ∧
    (s.decodeLen = 0 ∨ ∃ idx, s.decodeIdx = some idx ∧ Fits s.decodeLen idx ∧
      (op = dhcpOptionOverload ∧ s.decodeLen = 1 ∧ idx = dhcpOptionIdxOverload ∨
        op ≠ dhcpOptionOverload ∧ dhcpOptionIdxOverload < idx))

theorem sound_lenIs {idx : ℕ} (h : lenIs n len offset idx = some s) (hfits : Fits n idx)
    (hop : op = dhcpOptionOverload ∧ n = 1 ∧ idx = dhcpOptionIdxOverload ∨
      op ≠ dhcpOptionOverload ∧ dhcpOptionIdxOverload < idx) : Sound op len offset s := by
  obtain ⟨rfl, rfl⟩ := lenIs_eq_some h
  exact ⟨rfl, rfl, le_rfl, .inr ⟨idx, rfl, hfits, hop⟩⟩

/-- **The `switch`**: a pad octet is one octet long. -/
theorem optionSwitch_spec (h : optionSwitch op len offset = some s) :
    (op = dhcpOptionPad ∧ s = ⟨0, (offset + 2 ^ 16 - 1) % 2 ^ 16, 0, none⟩) ∨
      (op ≠ dhcpOptionPad ∧ Sound op len offset s) := by
  unfold optionSwitch at h
  by_cases hpad : op = dhcpOptionPad
  · rw [if_pos hpad] at h
    exact .inl ⟨hpad, (Option.some.inj h).symm⟩
  rw [if_neg hpad] at h
  refine .inr ⟨hpad, ?_⟩
  split_ifs at h with hmask hrouter hfour hdns hservers hlease hoverload htype hserver ht1 ht2
  · exact sound_lenIs h (by decide) (.inr ⟨by rw [hmask]; decide, by decide⟩)
  · cases h
    exact ⟨rfl, rfl, hfour, .inr ⟨_, rfl, (by decide : Fits 4 dhcpOptionIdxRouter), .inr ⟨by rw [hrouter]; decide, by decide⟩⟩⟩
  · cases h
    refine ⟨rfl, rfl, hservers.2, ?_⟩
    rcases Nat.eq_zero_or_pos (min len (4 * dnsMaxServers)) with hzero | hpos
    · exact .inl hzero
    · refine .inr ⟨_, rfl, ⟨.inr ?_, hpos, ?_⟩, .inr ⟨by rw [hdns]; decide, by decide⟩⟩
      · have hlen := hservers.1
        dsimp only
        omega
      · rw [dhcpOptionIdxMax]
        dsimp only
        omega
  · exact sound_lenIs h (by decide) (.inr ⟨by rw [hlease]; decide, by decide⟩)
  · exact sound_lenIs h (by decide) (.inl ⟨hoverload, rfl, rfl⟩)
  · exact sound_lenIs h (by decide) (.inr ⟨by rw [htype]; decide, by decide⟩)
  · exact sound_lenIs h (by decide) (.inr ⟨by rw [hserver]; decide, by decide⟩)
  · exact sound_lenIs h (by decide) (.inr ⟨by rw [ht1]; decide, by decide⟩)
  · exact sound_lenIs h (by decide) (.inr ⟨by rw [ht2]; decide, by decide⟩)
  · cases h
    exact ⟨rfl, rfl, Nat.zero_le _, .inl rfl⟩

attribute [local simp] decodeNext optionLoop

/-- Values that fit are decoded, and nothing in front of them changes. -/
theorem decodeNext_ok {decodeLen idx : ℕ} (h : Fits decodeLen idx) (q : List Pbuf) (valOffset : ℕ)
    (value : List (BitVec 8)) (rx : RxOptions) :
    ∃ rx', decodeNext q decodeLen (some idx) valOffset value rx = .ok rx' ∧
      ∀ j < idx, rx'.given j = rx.given j ∧ rx'.val j = rx.val j := by
  induction decodeLen using Nat.strong_induction_on generalizing idx valOffset value rx with
  | _ decodeLen ih =>
    obtain ⟨hlen, hpos, hmax⟩ := h
    have hgot : ∀ w, ∀ j < idx, (rx.got idx w).given j = rx.given j ∧ (rx.got idx w).val j = rx.val j := by
      intro w j hj
      simp [hj.ne]
    rw [decodeNext, if_neg (by omega)]
    split_ifs with hgiven
    · exact ⟨rx, rfl, fun _ _ ↦ ⟨rfl, rfl⟩⟩
    rcases decodeLen with _ | _ | _ | _ | _ | n
    · omega
    · exact ⟨_, rfl, hgot _⟩
    · omega
    · omega
    · exact ⟨_, rfl, hgot _⟩
    · dsimp only
      rw [if_neg (by omega)]
      obtain ⟨rx', hrx', hsame⟩ := ih (n + 1) (by omega)
        (show Fits (n + 1) (idx + 1) from ⟨.inr (by omega), by omega, by omega⟩)
        ((valOffset + 4) % 2 ^ 16) _ _
      refine ⟨rx', hrx', fun j hj ↦ ?_⟩
      rw [(hsame j (by omega)).1, (hsame j (by omega)).2]
      exact hgot _ j hj

namespace Spot

/-- The value of an overload option. -/
def overloadValue (c : Spot) : BitVec 32 :=
  ((pbufCopyPartial (c.q :: c.next) [0, 0, 0, 0] 1 ((c.offset + 2) % 2 ^ 16)).1.headD 0).setWidth 32

/-- What a round of the loop adds, if there is no overload option yet. -/
def overloadAt (behind : List Pbuf → ℕ → BitVec 8) (c : Spot) : Option (BitVec 32) :=
  if c.Live behind ∧ c.op behind = dhcpOptionOverload then some c.overloadValue else none

/-- How many octets the option has. -/
def size (behind : List Pbuf → ℕ → BitVec 8) (c : Spot) : ℕ :=
  if c.op behind = dhcpOptionPad then 1 else c.len behind + 2

/-- Where the loop goes on, if it does, or nothing at all if the function ends in this round. -/
def onward (behind : List Pbuf → ℕ → BitVec 8) (c : Spot) : Option (Option Spot) :=
  if c.Live behind then
    if (optionSwitch (c.op behind) (c.len behind) c.offset).isSome then
      (c.move ((c.offset + c.size behind) % 2 ^ 16)).toOption
    else none
  else some none

/-- **The walk through the options.** -/
def hop (behind : List Pbuf → ℕ → BitVec 8) (c : Spot) : Option Spot := (c.onward behind).join

end Spot

/-- **Decoding goes well**, and an overload option is the only one that counts as one. -/
theorem decode_ok (h : optionSwitch op len offset = some s) (c : Spot) (rx : RxOptions) :
    ∃ rx', c.decode s rx = .ok rx' ∧
      rx'.overload = rx.overload.or (if op = dhcpOptionOverload then some c.overloadValue else none) := by
  have hnothing : s.decodeLen = 0 → op ≠ dhcpOptionOverload → ∃ rx', c.decode s rx = .ok rx' ∧
      rx'.overload = rx.overload.or (if op = dhcpOptionOverload then some c.overloadValue else none) := by
    intro hzero hop
    exact ⟨rx, by rw [Spot.decode, if_neg (by omega)], by rw [if_neg hop, Option.or_none]⟩
  rcases optionSwitch_spec h with ⟨rfl, rfl⟩ | ⟨-, -, -, -, hdecode⟩
  · exact hnothing rfl (by decide)
  rcases hdecode with hzero | ⟨idx, hidx, hfits, hop⟩
  · refine hnothing hzero fun hop ↦ ?_
    subst hop
    obtain ⟨-, rfl⟩ := lenIs_eq_some (h : lenIs 1 len offset dhcpOptionIdxOverload = some s)
    cases hzero
  rcases hop with ⟨rfl, hone, rfl⟩ | ⟨hop, hlt⟩
  · rw [if_pos rfl, Spot.decode, if_pos hfits.2.1, hidx, hone, decodeNext, if_neg (by decide), RxOptions.overload]
    split_ifs with hgiven
    · exact ⟨rx, rfl, by rw [RxOptions.overload, if_pos hgiven, Option.some_or]⟩
    · refine ⟨rx.got dhcpOptionIdxOverload c.overloadValue, rfl, ?_⟩
      simp [RxOptions.overload]
  · obtain ⟨rx', hrx', hsame⟩ := decodeNext_ok hfits (c.q :: c.next) ((c.offset + 2) % 2 ^ 16) [0, 0, 0, 0] rx
    refine ⟨rx', by rw [Spot.decode, if_pos hfits.2.1, hidx, hrx'], ?_⟩
    rw [if_neg hop, Option.or_none, RxOptions.overload, RxOptions.overload, (hsame _ hlt).1, (hsame _ hlt).2]

/-! ### The walk -/

theorem Spot.switched_end (h : optionSwitch (c.op behind) (c.len behind) c.offset = some s) :
    (s.offset + (s.len + 2)) % 2 ^ 16 = (c.offset + c.size behind) % 2 ^ 16 := by
  rw [Spot.size]
  rcases optionSwitch_spec h with ⟨hpad, rfl⟩ | ⟨hpad, hlen, hoffset, -⟩
  · rw [if_pos hpad]
    dsimp only
    omega
  · rw [if_neg hpad, hlen, hoffset]

/-- A round that does not end the function. -/
theorem turn_ok {next : Option Spot} (h : c.onward behind = some next) (rx : RxOptions) :
    ∃ rx', c.turn behind rx = .ok (next, rx') ∧ rx'.overload = rx.overload.or (c.overloadAt behind) := by
  rw [Spot.onward] at h
  rw [Spot.turn, Spot.overloadAt]
  split_ifs at h with hlive hswitch
  · obtain ⟨s, hs⟩ := Option.isSome_iff_exists.1 hswitch
    obtain ⟨rx', hrx', hoverload⟩ := decode_ok hs c rx
    rw [if_pos hlive, hs]
    dsimp only
    rw [hrx', Except.bind, Spot.switched_end hs]
    cases hmove : c.move ((c.offset + c.size behind) % 2 ^ 16) with
    | error e =>
      rw [hmove] at h
      cases h
    | ok next' =>
      rw [hmove] at h
      cases h
      exact ⟨rx', rfl, by simp only [hoverload, hlive, true_and]⟩
  · cases h
    exact ⟨rx, by rw [if_neg hlive], by rw [if_neg fun h ↦ hlive h.1, Option.or_none]⟩

/-- A round that ends the function. -/
theorem turn_error (h : c.onward behind = none) (rx : RxOptions) : ∃ e, c.turn behind rx = .error e := by
  rw [Spot.onward] at h
  rw [Spot.turn]
  split_ifs at h with hlive hswitch
  · obtain ⟨s, hs⟩ := Option.isSome_iff_exists.1 hswitch
    obtain ⟨rx', hrx', -⟩ := decode_ok hs c rx
    rw [if_pos hlive, hs]
    dsimp only
    rw [hrx', Except.bind, Spot.switched_end hs]
    cases hmove : c.move ((c.offset + c.size behind) % 2 ^ 16) with
    | error e => exact ⟨e, rfl⟩
    | ok next' =>
      rw [hmove] at h
      cases h
  · rw [if_pos hlive, Option.not_isSome_iff_eq_none.1 hswitch]
    exact ⟨_, rfl⟩

/-- **The walk leaves the loop** after the overload option `v`, which is the first one that is met. -/
inductive Passes (behind : List Pbuf → ℕ → BitVec 8) : Spot → Option (BitVec 32) → Prop
  | leave {c : Spot} (h : c.onward behind = some none) : Passes behind c (c.overloadAt behind)
  | hop {c c' : Spot} {v : Option (BitVec 32)} (h : c.onward behind = some (some c')) (h' : Passes behind c' v) :
    Passes behind c ((c.overloadAt behind).or v)

/-- The loop is at an end if the walk is, and if it is left, so is the walk. -/
theorem optionLoop_some {r : Except Fault RxOptions} (h : optionLoop behind fuel c rx reads = some (r, reads')) :
    walk (Spot.hop behind) fuel (some c) = none ∧
      ∀ rx', r = .ok rx' → ∃ v, Passes behind c v ∧ rx'.overload = rx.overload.or v := by
  induction fuel generalizing c rx reads with
  | zero => cases h
  | succ fuel ih =>
    rw [optionLoop] at h
    rw [walk_succ, Option.bind_some, Spot.hop]
    cases honward : c.onward behind with
    | none =>
      obtain ⟨e, he⟩ := turn_error honward rx
      rw [he] at h
      cases h
      exact ⟨walk_none _, nofun⟩
    | some next =>
      obtain ⟨rx₁, hrx₁, hoverload⟩ := turn_ok honward rx
      rw [hrx₁] at h
      cases next with
      | none =>
        cases h
        refine ⟨walk_none _, ?_⟩
        rintro _ ⟨⟩
        exact ⟨_, .leave honward, hoverload⟩
      | some c' =>
        obtain ⟨hwalk, hpasses⟩ := ih h
        refine ⟨hwalk, fun rx' hr ↦ ?_⟩
        obtain ⟨v, hv, hrx'⟩ := hpasses rx' hr
        exact ⟨_, .hop honward hv, by rw [hrx', hoverload, Option.or_assoc]⟩

/-- Fuel for the walk is fuel for the loop. -/
theorem optionLoop_isSome (h : walk (Spot.hop behind) n (some c) = none) (rx : RxOptions) (reads : List Read) :
    (optionLoop behind (n + fuel) c rx reads).isSome := by
  induction n generalizing c rx reads with
  | zero => cases h
  | succ n ih =>
    rw [walk_succ, Option.bind_some, Spot.hop] at h
    rw [Nat.succ_add, optionLoop]
    cases honward : c.onward behind with
    | none =>
      obtain ⟨e, he⟩ := turn_error honward rx
      rw [he]
      rfl
    | some next =>
      obtain ⟨rx₁, hrx₁, -⟩ := turn_ok honward rx
      rw [hrx₁]
      cases next with
      | none => rfl
      | some c' =>
        rw [honward] at h
        exact ih h rx₁ _

theorem Passes.unique (h : Passes behind c v) (h' : Passes behind c w) : v = w := by
  induction h generalizing w with
  | leave h =>
    cases h' with
    | leave => rfl
    | hop h' => cases h.symm.trans h'
  | hop h _ ih =>
    cases h' with
    | leave h' => cases h.symm.trans h'
    | hop h' hw =>
      cases h.symm.trans h'
      rw [ih hw]

/-- A loop whose walk is left is left. -/
theorem Passes.optionLoop_ok (h : Passes behind c v) {r : Except Fault RxOptions}
    (hr : optionLoop behind fuel c rx reads = some (r, reads')) : ∃ rx', r = .ok rx' := by
  induction h generalizing fuel rx reads with
  | leave h =>
    cases fuel with
    | zero => cases hr
    | succ fuel =>
      obtain ⟨rx₁, hrx₁, -⟩ := turn_ok h rx
      rw [optionLoop, hrx₁] at hr
      cases hr
      exact ⟨rx₁, rfl⟩
  | hop h _ ih =>
    cases fuel with
    | zero => cases hr
    | succ fuel =>
      obtain ⟨rx₁, hrx₁, -⟩ := turn_ok h rx
      rw [optionLoop, hrx₁] at hr
      exact ih hr

/-! ### Going round in a pbuf -/

theorem Spot.size_pos (behind : List Pbuf → ℕ → BitVec 8) (c : Spot) : 0 < c.size behind := by
  rw [Spot.size]
  split_ifs <;> omega

theorem Spot.size_le (behind : List Pbuf → ℕ → BitVec 8) (c : Spot) : c.size behind ≤ 257 := by
  have hlen : c.len behind < 256 := BitVec.isLt _
  rw [Spot.size]
  split_ifs <;> omega

/-- **A hop** is to another octet of the pbuf, or to one that is counted from the next pbuf on. -/
theorem hop_cases (h : c.hop behind = some c') :
    c.Live behind ∧
      ((c.offset + c.size behind) % 2 ^ 16 < c.q.len ∧ c' = { c with offset := (c.offset + c.size behind) % 2 ^ 16 } ∨
        c.q.len ≤ (c.offset + c.size behind) % 2 ^ 16 ∧ ∃ q next, c.next = q :: next ∧
          c' = ⟨q, next, (c.offset + c.size behind) % 2 ^ 16 - c.q.len, (c.offsetMax + 2 ^ 16 - c.q.len) % 2 ^ 16⟩) := by
  rw [Spot.hop, Spot.onward, Spot.move] at h
  by_cases hlive : c.Live behind
  · refine ⟨hlive, ?_⟩
    rw [if_pos hlive] at h
    split_ifs at h with hswitch hle hmax
    · cases hnext : c.next with
      | nil =>
        rw [hnext] at h
        cases h
      | cons q next =>
        rw [hnext] at h
        cases h
        exact .inr ⟨hle, q, next, rfl, rfl⟩
    · cases h
    · cases h
      exact .inl ⟨Nat.lt_of_not_le hle, rfl⟩
    · cases h
  · rw [if_neg hlive] at h
    cases h

theorem walk_hop_suffix (h : walk (Spot.hop behind) n (some c) = some c') : c'.q :: c'.next <:+ c.q :: c.next := by
  induction n generalizing c' with
  | zero =>
    cases h
    exact List.suffix_refl _
  | succ n ih =>
    rw [walk_succ', Option.bind_eq_some_iff] at h
    obtain ⟨b, hb, hhop⟩ := h
    have hsuffix := ih hb
    rcases (hop_cases hhop).2 with ⟨-, rfl⟩ | ⟨-, q, next, hnext, rfl⟩
    · exact hsuffix
    · rw [hnext] at hsuffix
      exact (List.suffix_cons b.q (q :: next)).trans hsuffix

/-- The numbers stay below some bound. -/
theorem walk_hop_lt (h : walk (Spot.hop behind) n (some c) = some c') :
    c'.offset < c.offset + 2 ^ 16 ∧ c'.offsetMax < c.offsetMax + 2 ^ 16 := by
  induction n generalizing c' with
  | zero =>
    cases h
    omega
  | succ n ih =>
    rw [walk_succ', Option.bind_eq_some_iff] at h
    obtain ⟨b, hb, hhop⟩ := h
    have hlt := ih hb
    rcases (hop_cases hhop).2 with ⟨-, rfl⟩ | ⟨-, q, next, -, rfl⟩
    · dsimp only
      omega
    · dsimp only
      omega

/-- **The walk ends, or it comes round.** -/
theorem walk_hop_ends (behind : List Pbuf → ℕ → BitVec 8) (start : Option Spot) :
    Ends (Spot.hop behind) start ∨ Cyclic (Spot.hop behind) start := by
  cases start with
  | none => exact .inl ⟨0, rfl⟩
  | some c =>
    -- a spot is a rest of the chain and two numbers
    let place (d : Spot) : List Pbuf × ℕ × ℕ := (d.q :: d.next, d.offset, d.offsetMax)
    have hplace : Function.Injective place := by
      rintro ⟨q, next, o, m⟩ ⟨q', next', o', m'⟩ hsame
      simp only [place, Prod.mk.injEq, List.cons.injEq] at hsame
      obtain ⟨⟨rfl, rfl⟩, rfl, rfl⟩ := hsame
      rfl
    let places : Set (List Pbuf × ℕ × ℕ) :=
      {l | l ∈ (c.q :: c.next).tails} ×ˢ Set.Iio (c.offset + 2 ^ 16) ×ˢ Set.Iio (c.offsetMax + 2 ^ 16)
    have hfinite : places.Finite :=
      (List.finite_toSet _).prod ((Set.finite_Iio _).prod (Set.finite_Iio _))
    refine ends_or_cyclic_of_finite (hfinite.preimage hplace.injOn) fun n d hd ↦ ?_
    obtain ⟨hoffset, hmax⟩ := walk_hop_lt hd
    exact ⟨(List.mem_tails _ _).2 (walk_hop_suffix hd), hoffset, hmax⟩

/-- As long as the walk is in a pbuf that is not too long, it goes forward. -/
theorem walk_hop_forward (h : walk (Spot.hop behind) n (some c) = some c') (hoffset : c.offset < c.q.len)
    (hlen : c.q.len < 65280) : c'.next.length < c.next.length ∨
      (c'.q = c.q ∧ c'.next = c.next ∧ c.offset + n ≤ c'.offset ∧ c'.offset < c.q.len) := by
  induction n generalizing c' with
  | zero =>
    cases h
    exact .inr ⟨rfl, rfl, le_rfl, hoffset⟩
  | succ n ih =>
    rw [walk_succ', Option.bind_eq_some_iff] at h
    obtain ⟨b, hb, hhop⟩ := h
    have hpos := b.size_pos behind
    have hsize := b.size_le behind
    rcases (hop_cases hhop).2 with ⟨hlt, rfl⟩ | ⟨-, q, next, hnext, rfl⟩
    · rcases ih hb with hshort | ⟨hq, hnext, hle, hlt'⟩
      · exact .inl hshort
      · refine .inr ⟨hq, hnext, ?_, hq ▸ hlt⟩
        dsimp only
        rw [Nat.mod_eq_of_lt (by omega)]
        omega
    · refine .inl ?_
      have hlength := congrArg List.length hnext
      rw [List.length_cons] at hlength
      dsimp only
      rcases ih hb with hshort | ⟨-, hnext', -⟩
      · omega
      · rw [← hnext']
        omega

/-- **Only a pbuf of at least 65280 octets has options that go round.** -/
theorem exists_len_of_cyclic (h : Cyclic (Spot.hop behind) (some c)) : ∃ q ∈ c.q :: c.next, 65280 ≤ q.len := by
  obtain ⟨i, a, d, ha, hd, hround⟩ := h
  refine ⟨a.q, (walk_hop_suffix ha).subset List.mem_cons_self, ?_⟩
  by_contra hlen
  obtain ⟨n, rfl⟩ := Nat.exists_eq_add_of_lt hd
  -- the last hop of the round does not leave the pbuf, since the walk does not go back
  have hlast := hround
  rw [Nat.zero_add, walk_succ', Option.bind_eq_some_iff] at hlast
  obtain ⟨b, hb, hhop⟩ := hlast
  have hoffset : a.offset < a.q.len := by
    rcases (hop_cases hhop).2 with ⟨hlt, rfl⟩ | ⟨-, q, next, hnext, rfl⟩
    · exact hlt
    · have hlength := (walk_hop_suffix hb).length_le
      rw [hnext, List.length_cons, List.length_cons] at hlength
      omega
  rcases walk_hop_forward hround hoffset (by omega) with hshort | ⟨-, -, hle, -⟩
  · omega
  · omega

/-! ### The areas -/

/-- The areas, as `again` is reached for them: with the file field goes `parse_sname_as_options`. -/
inductive Stage where
  | options
  | file (sname : Bool)
  | sname
  deriving DecidableEq, Repr, Fintype

namespace Stage

/-- `options_idx`. -/
def idx : Stage → ℕ
  | options => dhcpOptionsOfs
  | file _ => dhcpFileOfs
  | sname => dhcpSnameOfs

/-- `options_idx_max`. -/
def idxMax (totLen : ℕ) : Stage → ℕ
  | options => totLen
  | file _ => dhcpFileOfs + dhcpFileLen
  | sname => dhcpSnameOfs + dhcpSnameLen

/-- `parse_sname_as_options`. -/
def pending : Stage → Bool
  | file pending => pending
  | _ => false

/-- Where the walk through an area begins. -/
def start (p : List Pbuf) (st : Stage) : Option Spot := seekOptions p st.idx (st.idxMax (pbufTotLen p))

/-- The next area, by the overload option that was met in this one. -/
def after (st : Stage) (v : Option (BitVec 32)) : Option Stage :=
  if v = some dhcpOverloadFile then some (.file st.pending)
  else if v = some dhcpOverloadSnameFile then some (.file true)
  else if v = some dhcpOverloadSname ∨ st.pending then some .sname
  else none

end Stage

/-- **An area asks for another one**: the walk through it is left, and the overload option says so. -/
def Asks (behind : List Pbuf → ℕ → BitVec 8) (p : List Pbuf) (st st' : Stage) : Prop :=
  ∃ c v, st.start p = some c ∧ Passes behind c v ∧ st.after v = some st'

/-- `again` for an area. -/
def runStage (behind : List Pbuf → ℕ → BitVec 8) (p : List Pbuf) (fuel : ℕ) (st : Stage) (rx : RxOptions)
    (reads : List Read) : Option (Outcome × List Read) :=
  again behind p fuel st.idx (st.idxMax (pbufTotLen p)) false st.pending rx reads

variable {st st' st₁ st₂ : Stage}

theorem Asks.unique (h : Asks behind p st st₁) (h' : Asks behind p st st₂) : st₁ = st₂ := by
  obtain ⟨c, v, hc, hv, hst⟩ := h
  obtain ⟨c', v', hc', hv', hst'⟩ := h'
  cases hc.symm.trans hc'
  cases hv.unique hv'
  exact Option.some.inj (hst.symm.trans hst')

/-- Behind the loop the overload option is looked at. -/
theorem runStage_loop {rx₁ : RxOptions} (hstart : st.start p = some c)
    (hloop : optionLoop behind fuel c rx reads = some (.ok rx₁, reads')) :
    runStage behind p (fuel + 1) st rx reads =
      match overloaded rx₁ false st.pending with
      | (true, sname, rx) => again behind p fuel dhcpFileOfs (dhcpFileOfs + dhcpFileLen) false sname rx reads'
      | (false, true, rx) => again behind p fuel dhcpSnameOfs (dhcpSnameOfs + dhcpSnameLen) false false rx reads'
      | (false, false, rx) => some (.returns .ok rx, reads') := by
  rw [runStage, again, ← Stage.start, hstart]
  dsimp only
  rw [hloop]
  rfl

/-- Behind the loop the overload option is forgotten, and the next area begins. -/
theorem runStage_after {rx₁ : RxOptions} (hstart : st.start p = some c)
    (hloop : optionLoop behind fuel c rx reads = some (.ok rx₁, reads')) :
    runStage behind p (fuel + 1) st rx reads =
      match st.after rx₁.overload with
      | none => some (.returns .ok (rx₁.clear dhcpOptionIdxOverload), reads')
      | some st' => runStage behind p fuel st' (rx₁.clear dhcpOptionIdxOverload) reads' := by
  rw [runStage_loop hstart hloop, overloaded, RxOptions.overload, Stage.after]
  by_cases hgiven : rx₁.given dhcpOptionIdxOverload
  · rw [if_pos hgiven, if_pos hgiven]
    simp only [Option.some.injEq]
    by_cases hfile : rx₁.val dhcpOptionIdxOverload = dhcpOverloadFile
    · rw [if_pos hfile, if_pos hfile]
      rfl
    rw [if_neg hfile, if_neg hfile]
    by_cases hsname : rx₁.val dhcpOptionIdxOverload = dhcpOverloadSname
    · rw [if_pos hsname, hsname, if_neg (by decide), if_pos (.inl rfl)]
      rfl
    rw [if_neg hsname]
    by_cases hboth : rx₁.val dhcpOptionIdxOverload = dhcpOverloadSnameFile
    · rw [if_pos hboth, if_pos hboth]
      rfl
    rw [if_neg hboth, if_neg hboth]
    cases hpending : st.pending with
    | false => simp [hsname]
    | true =>
      rw [if_pos (.inr rfl)]
      rfl
  · rw [if_neg hgiven, if_neg hgiven, rx₁.clear_eq (Bool.eq_false_iff.2 hgiven), if_neg (Option.some_ne_none _).symm,
      if_neg (Option.some_ne_none _).symm]
    cases hpending : st.pending with
    | false => simp
    | true =>
      rw [if_pos (.inr rfl)]
      rfl

theorem optionLoop_of_runStage (hstart : st.start p = some c)
    (hrun : (runStage behind p (fuel + 1) st rx reads).isSome) : (optionLoop behind fuel c rx reads).isSome := by
  rw [runStage, again, ← Stage.start, hstart] at hrun
  cases hloop : optionLoop behind fuel c rx reads with
  | none =>
    dsimp only at hrun
    rw [hloop] at hrun
    cases hrun
  | some r => rfl

/-- If an area is parsed to an end, so is the one it asks for. -/
theorem Asks.runStage_isSome (h : Asks behind p st st') (hrx : rx.overload = none)
    (hrun : (runStage behind p (fuel + 1) st rx reads).isSome) :
    ∃ rx' reads', rx'.overload = none ∧ (runStage behind p fuel st' rx' reads').isSome := by
  obtain ⟨c, v, hstart, hv, hafter⟩ := h
  obtain ⟨⟨r, reads'⟩, hloop⟩ := Option.isSome_iff_exists.1 (optionLoop_of_runStage hstart hrun)
  obtain ⟨rx₁, rfl⟩ := hv.optionLoop_ok hloop
  obtain ⟨v', hv', hoverload⟩ := (optionLoop_some hloop).2 rx₁ rfl
  rw [hrx, Option.none_or, hv'.unique hv] at hoverload
  rw [runStage_after hstart hloop, hoverload, hafter] at hrun
  exact ⟨_, reads', rx₁.clear_overload, hrun⟩

/-- **What comes round is not parsed to an end.** -/
theorem not_cyclic_of_runStage (hrx : rx.overload = none) (hrun : (runStage behind p fuel st rx reads).isSome)
    (hreach : Relation.ReflTransGen (Asks behind p) st st') :
    ¬Cyclic (Spot.hop behind) (st'.start p) ∧ ¬Relation.TransGen (Asks behind p) st' st' := by
  induction fuel generalizing st rx reads st' with
  | zero => cases hrun
  | succ fuel ih =>
    cases hreach using Relation.ReflTransGen.head_induction_on with
    | refl =>
      constructor
      · intro hcyclic
        refine hcyclic.not_ends ?_
        cases hstart : st.start p with
        | none => exact ⟨0, rfl⟩
        | some c =>
          obtain ⟨⟨r, reads'⟩, hloop⟩ := Option.isSome_iff_exists.1 (optionLoop_of_runStage hstart hrun)
          exact ⟨fuel, (optionLoop_some hloop).1⟩
      · intro hround
        obtain ⟨st₁, hasks, hback⟩ := Relation.TransGen.head'_iff.1 hround
        obtain ⟨rx', reads', hrx', hrun'⟩ := hasks.runStage_isSome hrx hrun
        exact (ih hrx' hrun' hback).2 hround
    | head hasks hreach =>
      obtain ⟨rx', reads', hrx', hrun'⟩ := hasks.runStage_isSome hrx hrun
      exact ih hrx' hrun' hreach

/-- **What does not come round is parsed to an end.** -/
theorem runStage_isSome (hareas : ∀ st, Relation.ReflTransGen (Asks behind p) .options st →
      ¬Cyclic (Spot.hop behind) (st.start p) ∧ ¬Relation.TransGen (Asks behind p) st st)
    (hst : Relation.ReflTransGen (Asks behind p) .options st) :
    ∃ n, ∀ fuel rx reads, rx.overload = none → (runStage behind p (n + fuel) st rx reads).isSome := by
  -- along the areas that ask for each other, of which there are finitely many
  let Before (a b : Stage) : Prop :=
    Relation.ReflTransGen (Asks behind p) .options b ∧ Relation.TransGen (Asks behind p) b a
  have hwf : WellFounded Before := by
    have : IsTrans Stage Before := ⟨fun _ _ _ hab hbc ↦ ⟨hbc.1, hbc.2.trans hab.2⟩⟩
    have : Std.Irrefl Before := ⟨fun a haa ↦ (hareas a haa.1).2 haa.2⟩
    exact Finite.wellFounded_of_trans_of_irrefl _
  induction st using hwf.induction with
  | _ st ih =>
    have hends : Ends (Spot.hop behind) (st.start p) := (walk_hop_ends behind _).resolve_right (hareas st hst).1
    obtain ⟨n, hn⟩ := hends
    obtain ⟨m, hm⟩ : ∃ m, ∀ st', Asks behind p st st' → ∀ fuel rx reads, rx.overload = none →
        (runStage behind p (m + fuel) st' rx reads).isSome := by
      by_cases hasks : ∃ st', Asks behind p st st'
      · obtain ⟨st', hasks⟩ := hasks
        obtain ⟨m, hm⟩ := ih st' ⟨hst, .single hasks⟩ (hst.tail hasks)
        exact ⟨m, fun st'' hasks' ↦ hasks.unique hasks' ▸ hm⟩
      · exact ⟨0, fun st' hasks' ↦ absurd ⟨st', hasks'⟩ hasks⟩
    refine ⟨n + m + 1, fun fuel rx reads hrx ↦ ?_⟩
    rw [show n + m + 1 + fuel = n + (m + fuel) + 1 by omega]
    cases hstart : st.start p with
    | none =>
      rw [runStage, again, ← Stage.start, hstart]
      rfl
    | some c =>
      rw [hstart] at hn
      obtain ⟨⟨r, reads'⟩, hloop⟩ := Option.isSome_iff_exists.1
        (show (optionLoop behind (n + (m + fuel)) c rx reads).isSome from optionLoop_isSome hn rx reads)
      cases r with
      | error e =>
        rw [runStage, again, ← Stage.start, hstart]
        dsimp only
        rw [hloop]
        cases e <;> rfl
      | ok rx₁ =>
        obtain ⟨v, hv, hoverload⟩ := (optionLoop_some hloop).2 rx₁ rfl
        rw [hrx, Option.none_or] at hoverload
        rw [runStage_after hstart hloop]
        cases hafter : st.after rx₁.overload with
        | none => rfl
        | some st' =>
          rw [show n + (m + fuel) = m + (n + fuel) by omega]
          exact hm st' ⟨c, v, hstart, hv, hoverload ▸ hafter⟩ _ _ _ rx₁.clear_overload

theorem seekOptions_suffix {q : List Pbuf} {optionsIdx optionsIdxMax : ℕ}
    (h : seekOptions q optionsIdx optionsIdxMax = some c) : c.q :: c.next <:+ q := by
  induction q generalizing optionsIdx optionsIdxMax with
  | nil => cases h
  | cons p next ih =>
    rw [seekOptions] at h
    split_ifs at h with hle
    · exact (ih h).trans (List.suffix_cons p next)
    · cases h
      exact List.suffix_refl _

/-- **`dhcp_parse_reply` returns** exactly if the first pbuf is too short, or if in no area that is parsed an option leads
back to itself, which takes a pbuf of at least 65280 octets, and no such area asks, by way of others or not, for itself. -/
theorem dhcpParseReply_ends_iff (behind : List Pbuf → ℕ → BitVec 8) (p : List Pbuf) (rx : RxOptions) :
    ((∃ fuel, (dhcpParseReply behind fuel p rx).isSome) ↔
      (p.head?.map Pbuf.len).getD 0 < dhcpSnameOfs ∨
        ∀ st, Relation.ReflTransGen (Asks behind p) .options st →
          ¬Cyclic (Spot.hop behind) (st.start p) ∧ ¬Relation.TransGen (Asks behind p) st st) ∧
      ∀ st : Stage, Cyclic (Spot.hop behind) (st.start p) → ∃ q ∈ p, 65280 ≤ q.len := by
  constructor
  · by_cases hshort : (p.head?.map Pbuf.len).getD 0 < dhcpSnameOfs
    · exact iff_of_true ⟨0, by rw [dhcpParseReply, if_pos hshort]; rfl⟩ (.inl hshort)
    have hclear : rx.clearAll.overload = none := by simp [RxOptions.overload]
    have hrun : ∀ fuel, dhcpParseReply behind fuel p rx = runStage behind p fuel .options rx.clearAll [] :=
      fun fuel ↦ if_neg hshort
    constructor
    · rintro ⟨fuel, hfuel⟩
      exact .inr fun st hst ↦ not_cyclic_of_runStage hclear (hrun fuel ▸ hfuel) hst
    · intro h
      obtain ⟨n, hn⟩ := runStage_isSome (h.resolve_left hshort) .refl
      exact ⟨n, by rw [hrun]; exact hn 0 _ _ hclear⟩
  · intro st hcyclic
    cases hstart : st.start p with
    | none =>
      rw [hstart] at hcyclic
      exact absurd ⟨0, rfl⟩ hcyclic.not_ends
    | some c =>
      rw [hstart] at hcyclic
      obtain ⟨q, hq, hlen⟩ := exists_len_of_cyclic hcyclic
      exact ⟨q, (seekOptions_suffix hstart).subset hq, hlen⟩

/-- A reply whose options overload the file field, in which the same is said again. -/
def overloadedTwice : List Pbuf :=
  [⟨2 :: List.replicate 107 0, 244⟩, ⟨[52, 1, 1, 255] ++ List.replicate 128 0, 136⟩, ⟨[52, 1, 1, 255], 4⟩]

/-- **`dhcp_parse_reply` does not return**: the file field asks for itself. -/
theorem dhcpParseReply_hangs : Totals overloadedTwice ∧
    ∀ behind fuel rx, dhcpParseReply behind fuel overloadedTwice rx = none := by
  constructor
  · simp only [overloadedTwice, Totals, pbufBytes_cons, pbufBytes_nil, List.length_append, List.length_cons,
      List.length_replicate, List.length_nil, and_self]
  intro behind fuel rx
  have hfile : Asks behind overloadedTwice (.file false) (.file false) := ⟨_, _, rfl, .hop rfl (.leave rfl), rfl⟩
  have hoptions : Asks behind overloadedTwice .options (.file false) := ⟨_, _, rfl, .hop rfl (.leave rfl), rfl⟩
  by_contra hrun
  rw [dhcpParseReply, if_neg (by decide)] at hrun
  have hstage : (runStage behind overloadedTwice fuel .options rx.clearAll []).isSome := Option.isSome_iff_ne_none.2 hrun
  exact (not_cyclic_of_runStage (by simp [RxOptions.overload]) hstage (.single hoptions)).2 (.single hfile)

end Lwip.Core.Dhcp
