import LwipPoc.Core.Snmp.ObjectId

/-!
# Object identifiers come back

`snmp_asn1_enc_oid_cnt` and `snmp_asn1_enc_oid` of `core/snmp/asn1_enc.c` take a sub-identifier for a signed number of 32
bits and shift it to the right. For one from `2 ^ 31` on, the first of them counts one octet and the other writes five
(`subOctets_length`). The octets that are written stand for the sub-identifier in any case (`subIds_subOctets`).

The encoder goes on to the next octet behind the first one whether another one follows or not. So an object identifier of two
elements is refused where its one octet is the last of the chain.
-/

namespace Lwip.Core.Snmp

/-! ### The encoder -/

/-- `while (sub_id > 0)` of `snmp_asn1_enc_oid_cnt`: how many turns it takes. -/
def cntLoop : ℕ → BitVec 32 → Option ℕ
  | 0, _ => none
  | fuel + 1, subId => if 0 < subId.toInt then (cntLoop fuel (subId.sshiftRight 7)).map (· + 1) else some 0

/-- `while (ident_len > 0)`. -/
def idsCnt : List (BitVec 32) → Option ℕ
  | [] => some 0
  | subId :: ids => (cntLoop 6 (subId.sshiftRight 7)).bind fun n ↦ (idsCnt ids).map (1 + n + ·)

/-- `snmp_asn1_enc_oid_cnt`; the counter is a `u8_t`. -/
def snmpAsn1EncOidCnt (ident : List (BitVec 32)) : Option ℕ :=
  if 1 < ident.length then (idsCnt (ident.drop 2)).map fun n ↦ (1 + n) % 2 ^ 8 else (idsCnt ident).map (· % 2 ^ 8)

/-- `(u8_t)(sub_id >> shift)`. -/
def code (subId : BitVec 32) (shift : ℕ) : BitVec 8 := (subId.sshiftRight shift).setWidth 8

/-- `while (shift > 0)`: the place, or nothing if the chain ends. -/
def encSubIdLoop (subId : BitVec 32) : List ℕ → Bool → MsgPtr → List Pbuf → Option (Option MsgPtr × List Pbuf)
  | [], _, m, ps => some (some m, ps)
  | shift :: shifts, tail, m, ps =>
    if code subId shift ≠ 0 ∨ tail = true then
      (m.write ps (code subId shift ||| 0x80)).bind fun ps ↦
        match m.next ps with
        | none => some (none, ps)
        | some m => encSubIdLoop subId shifts true m ps
    else encSubIdLoop subId shifts tail m ps

/-- `while (ident_len > 0)` of `snmp_asn1_enc_oid`. -/
def encIds : List (BitVec 32) → MsgPtr → List Pbuf → Option (ErrT × List Pbuf)
  | [], _, ps => some (.ok, ps)
  | subId :: ids, m, ps =>
    (encSubIdLoop subId [28, 21, 14, 7] false m ps).bind fun r ↦
      match r with
      | (none, ps) => some (.arg, ps)
      | (some m, ps) =>
        (m.write ps (subId.setWidth 8 &&& 0x7f)).bind fun ps ↦
          if ids ≠ [] then
            match m.next ps with
            | none => some (.arg, ps)
            | some m => encIds ids m ps
          else encIds ids m ps

/-- The octet for the first two elements. -/
def firstOctet (id₀ id₁ : BitVec 32) : BitVec 8 := if id₀ = 1 ∧ id₁ = 3 then 0x2b else (id₀ * 40 + id₁).setWidth 8

/-- `snmp_asn1_enc_oid`. -/
def snmpAsn1EncOid (ps : List Pbuf) (ofs : ℕ) (ident : List (BitVec 32)) : Option (ErrT × List Pbuf) :=
  match seek ofs ps 0 0 with
  | none => some (.arg, ps)
  | some m =>
    match ident with
    | id₀ :: id₁ :: ids =>
      (m.write ps (firstOctet id₀ id₁)).bind fun ps ↦
        match m.next ps with
        | none => some (.arg, ps)
        | some m => encIds ids m ps
    | _ => some (.arg, ps)

variable {ps ps' : List Pbuf} {m : MsgPtr} {o n : ℕ} {subId : BitVec 32} {ids ident : List (BitVec 32)} {shifts : List ℕ}
  {tail : Bool} {cs cs' : List (BitVec 8)}

/-! ### The octets of a sub-identifier -/

/-- The octets but the last. -/
def leadOctets (subId : BitVec 32) : List ℕ → Bool → List (BitVec 8)
  | [], _ => []
  | shift :: shifts, tail =>
    if code subId shift ≠ 0 ∨ tail = true then (code subId shift ||| 0x80) :: leadOctets subId shifts true
    else leadOctets subId shifts tail

/-- The octets that the encoder writes for a sub-identifier. -/
def subOctets (subId : BitVec 32) : List (BitVec 8) := leadOctets subId [28, 21, 14, 7] false ++ [subId.setWidth 8 &&& 0x7f]

theorem leadOctets_goes {c : BitVec 8} (hc : c ∈ leadOctets subId shifts tail) : Goes c := by
  have hor : ∀ d : BitVec 8, Goes (d ||| 0x80) := by
    intro d hd
    have hbit := congrArg (·.getLsbD 7) hd
    simp at hbit
  induction shifts generalizing tail with
  | nil => cases hc
  | cons shift shifts ih =>
    rw [leadOctets] at hc
    split_ifs at hc
    · rcases List.mem_cons.1 hc with rfl | hc
      · exact hor _
      · exact ih hc
    · exact ih hc

theorem lastOctet_stops (subId : BitVec 32) : ¬Goes (subId.setWidth 8 &&& 0x7f) := by
  have hand : ∀ d : BitVec 8, ¬Goes (d &&& 0x7f) := by decide
  exact hand _

theorem putSeven_toNat (x : BitVec 32) (c : BitVec 8) : (putSeven x c).toNat = (x.toNat * 2 ^ 7 + c.toNat % 2 ^ 7) % 2 ^ 32 := by
  have hlow : (c &&& 0x7f).toNat = c.toNat % 2 ^ 7 := by
    rw [BitVec.toNat_and]
    exact Nat.and_two_pow_sub_one_eq_mod c.toNat 7
  rw [putSeven, BitVec.toNat_add, BitVec.toNat_shiftLeft, BitVec.toNat_setWidth, hlow, Nat.shiftLeft_eq]
  omega

/-- The arithmetic shift, as a number: what it fills in is above the bits that are left. -/
theorem sshiftRight_toNat (x : BitVec 32) (s : ℕ) : (x.sshiftRight s).toNat =
    if x.toInt < 0 then 2 ^ 32 - 1 - (2 ^ 32 - 1 - x.toNat) / 2 ^ s else x.toNat / 2 ^ s := by
  have hmsb : x.msb = true ↔ x.toInt < 0 := by
    rw [BitVec.msb_eq_toInt, decide_eq_true_eq]
  split_ifs with hneg
  · rw [BitVec.sshiftRight_eq_of_msb_true (hmsb.2 hneg), BitVec.toNat_not, BitVec.toNat_ushiftRight, BitVec.toNat_not,
      Nat.shiftRight_eq_div_pow]
  · rw [BitVec.sshiftRight_eq_of_msb_false (Bool.eq_false_iff.2 (mt hmsb.1 hneg)), BitVec.toNat_ushiftRight,
      Nat.shiftRight_eq_div_pow]

/-- The seven bits of an octet that are in the sub-identifier. -/
theorem code_low {s : ℕ} (hs : s ∈ [28, 21, 14, 7]) (subId : BitVec 32) :
    (code subId s).toNat % 2 ^ 7 % 2 ^ (32 - s) = subId.toNat / 2 ^ s % 2 ^ 7 := by
  have hlt := subId.isLt
  rw [code, BitVec.toNat_setWidth, sshiftRight_toNat]
  simp only [List.mem_cons, List.not_mem_nil, or_false] at hs
  rcases hs with rfl | rfl | rfl | rfl <;> split_ifs <;> norm_num <;> omega

/-- One octet is put to the others, or is left out at the front. -/
theorem lead_step {s : ℕ} (hs : s ∈ [28, 21, 14, 7]) {x : BitVec 32}
    (hx : x.toNat % 2 ^ (32 - (s + 7)) = subId.toNat / 2 ^ (s + 7)) (htail : tail = false → x = 0) (shifts : List ℕ) :
    ∃ x' tail', (leadOctets subId (s :: shifts) tail).foldl putSeven x = (leadOctets subId shifts tail').foldl putSeven x' ∧
      x'.toNat % 2 ^ (32 - s) = subId.toNat / 2 ^ s ∧ (tail' = false → x' = 0) := by
  have hlow := code_low hs subId
  have hlt := subId.isLt
  rw [leadOctets]
  split_ifs with hcode
  · refine ⟨_, true, rfl, ?_, nofun⟩
    have hor : (code subId s ||| 0x80).toNat % 2 ^ 7 = (code subId s).toNat % 2 ^ 7 := by
      rw [BitVec.toNat_or, Nat.or_mod_two_pow]
      simp
    rw [putSeven_toNat, hor]
    simp only [List.mem_cons, List.not_mem_nil, or_false] at hs
    rcases hs with rfl | rfl | rfl | rfl <;> norm_num at hx hlow ⊢ <;> omega
  · obtain ⟨hzero, hfalse⟩ := not_or.1 hcode
    obtain rfl := htail (Bool.eq_false_iff.2 hfalse)
    refine ⟨0, tail, rfl, ?_, fun _ ↦ rfl⟩
    have h₈ : (0 : BitVec 8).toNat = 0 := rfl
    have h₃₂ : (0 : BitVec 32).toNat = 0 := rfl
    rw [not_not.1 hzero, h₈] at hlow
    rw [h₃₂] at hx ⊢
    simp only [List.mem_cons, List.not_mem_nil, or_false] at hs
    rcases hs with rfl | rfl | rfl | rfl <;> norm_num at hx hlow ⊢ <;> omega

/-- **The octets stand for the sub-identifier**, whatever its 32 bits are. -/
theorem putSeven_subOctets (subId : BitVec 32) :
    putSeven ((leadOctets subId [28, 21, 14, 7] false).foldl putSeven 0) (subId.setWidth 8 &&& 0x7f) = subId := by
  have hlt := subId.isLt
  obtain ⟨x₁, t₁, h₁, hx₁, ht₁⟩ := @lead_step subId false 28 (by decide) 0
    (by norm_num; omega) (fun _ ↦ rfl) [21, 14, 7]
  obtain ⟨x₂, t₂, h₂, hx₂, ht₂⟩ := lead_step (s := 21) (by decide) hx₁ ht₁ [14, 7]
  obtain ⟨x₃, t₃, h₃, hx₃, ht₃⟩ := lead_step (s := 14) (by decide) hx₂ ht₂ [7]
  obtain ⟨x₄, t₄, h₄, hx₄, -⟩ := lead_step (s := 7) (by decide) hx₃ ht₃ []
  rw [h₁, h₂, h₃, h₄, leadOctets, List.foldl_nil]
  refine BitVec.eq_of_toNat_eq ?_
  have hlow : (subId.setWidth 8 &&& 0x7f).toNat = subId.toNat % 2 ^ 7 := by
    rw [BitVec.toNat_and, BitVec.toNat_setWidth]
    refine (Nat.and_two_pow_sub_one_eq_mod _ 7).trans ?_
    omega
  rw [putSeven_toNat, hlow]
  norm_num at hx₄ ⊢
  omega

/-- A sub-identifier that is encoded comes back, in front of others. -/
theorem subIds_subOctets (subId : BitVec 32) (cs : List (BitVec 8)) : subIds 0 (subOctets subId ++ cs) = subId :: subIds 0 cs := by
  rw [subOctets, List.append_assoc, List.singleton_append,
    subIds_ends (fun c hc ↦ leadOctets_goes hc) (lastOctet_stops subId), putSeven_subOctets]

/-- All octets behind the first one. -/
def idOctets (ids : List (BitVec 32)) : List (BitVec 8) := ids.flatMap subOctets

theorem idOctets_cons (subId : BitVec 32) (ids : List (BitVec 32)) : idOctets (subId :: ids) = subOctets subId ++ idOctets ids :=
  List.flatMap_cons

theorem subIds_idOctets (ids : List (BitVec 32)) : subIds 0 (idOctets ids) = ids := by
  induction ids with
  | nil => rfl
  | cons subId ids ih => rw [idOctets_cons, subIds_subOctets, ih]

theorem complete_idOctets (ids : List (BitVec 32)) : Complete (idOctets ids) := by
  induction ids with
  | nil => exact nofun
  | cons subId ids ih =>
    rw [idOctets_cons, subOctets, List.append_assoc, List.singleton_append, complete_ends (lastOctet_stops subId)]
    exact ih

theorem idOctets_ne_nil (h : ids ≠ []) : idOctets ids ≠ [] := by
  obtain ⟨subId, ids, rfl⟩ := List.exists_cons_of_ne_nil h
  rw [idOctets_cons, subOctets]
  simp

/-! ### The count -/

/-- Whether the loop goes on behind so many bits. -/
theorem sshiftRight_pos (h : 0 ≤ subId.toInt) (s : ℕ) : 0 < (subId.sshiftRight s).toInt ↔ subId.toNat / 2 ^ s ≠ 0 := by
  have hvalue := sshiftRight_toNat subId s
  rw [if_neg (not_lt.2 h)] at hvalue
  have hsmall : subId.toNat < 2 ^ 31 := by
    rw [BitVec.toInt_eq_toNat_cond] at h
    split_ifs at h <;> omega
  have hle := Nat.div_le_self subId.toNat (2 ^ s)
  rw [BitVec.toInt_eq_toNat_cond, hvalue, if_pos (by omega)]
  omega

theorem cntLoop_succ (h : 0 ≤ subId.toInt) (fuel s : ℕ) : cntLoop (fuel + 1) (subId.sshiftRight s) =
    if subId.toNat / 2 ^ s ≠ 0 then (cntLoop fuel (subId.sshiftRight (s + 7))).map (· + 1) else some 0 := by
  rw [cntLoop, BitVec.sshiftRight_add]
  simp only [sshiftRight_pos h]

theorem leadOctets_true_length (subId : BitVec 32) (shifts : List ℕ) : (leadOctets subId shifts true).length = shifts.length := by
  induction shifts with
  | nil => rfl
  | cons s shifts ih => rw [leadOctets, if_pos (.inr rfl), List.length_cons, ih, List.length_cons]

theorem leadOctets_length_le (subId : BitVec 32) (shifts : List ℕ) (tail : Bool) :
    (leadOctets subId shifts tail).length ≤ shifts.length := by
  induction shifts generalizing tail with
  | nil => exact le_rfl
  | cons s shifts ih =>
    rw [leadOctets, List.length_cons]
    split_ifs
    · exact Nat.succ_le_succ (ih true)
    · exact (ih tail).trans (Nat.le_succ _)

/-- Up to the first octet that is not left out. -/
theorem leadOctets_false_length (h : 0 ≤ subId.toInt) {s : ℕ} (hzero : subId.toNat / 2 ^ (s + 7) = 0) :
    (leadOctets subId (s :: shifts) false).length =
      if subId.toNat / 2 ^ s ≠ 0 then shifts.length + 1 else (leadOctets subId shifts false).length := by
  have hcode : code subId s ≠ 0 ↔ subId.toNat / 2 ^ s ≠ 0 := by
    have hlt : subId.toNat / 2 ^ s < 2 ^ 8 := by
      rw [pow_add, ← Nat.div_div_eq_div_mul] at hzero
      omega
    rw [code, ne_eq, ← BitVec.toNat_inj, BitVec.toNat_setWidth, sshiftRight_toNat, if_neg (not_lt.2 h), Nat.mod_eq_of_lt hlt]
    rfl
  rw [leadOctets]
  simp only [hcode, Bool.false_eq_true, or_false]
  split_ifs with hne
  · rw [List.length_cons, leadOctets_true_length]
  · rfl

/-- **One octet is counted** for a sub-identifier that is negative as a signed number, for which there are five. -/
theorem subOctets_length (subId : BitVec 32) : ∃ n, cntLoop 6 (subId.sshiftRight 7) = some n ∧
    (0 ≤ subId.toInt → 1 + n = (subOctets subId).length) ∧ (subId.toInt < 0 → n = 0 ∧ (subOctets subId).length = 5) := by
  have hlt := subId.isLt
  rw [subOctets, List.length_append, List.length_singleton]
  rcases lt_or_ge subId.toInt 0 with hneg | h
  · refine ⟨0, ?_, fun hpos ↦ absurd hneg (not_lt.2 hpos), fun _ ↦ ⟨rfl, ?_⟩⟩
    · have hshift := sshiftRight_toNat subId 7
      rw [if_pos hneg] at hshift
      rw [cntLoop, if_neg]
      rw [BitVec.toInt_eq_toNat_cond] at hneg ⊢
      split_ifs at hneg ⊢ <;> omega
    · have hcode : code subId 28 ≠ 0 := by
        intro hzero
        have hvalue := congrArg BitVec.toNat hzero
        have hnat : (0 : BitVec 8).toNat = 0 := rfl
        rw [code, BitVec.toNat_setWidth, sshiftRight_toNat, if_pos hneg, hnat] at hvalue
        rw [BitVec.toInt_eq_toNat_cond] at hneg
        split_ifs at hneg <;> omega
      rw [leadOctets, if_pos (.inl hcode), List.length_cons, leadOctets_true_length]
      rfl
  · have hlength : (leadOctets subId [28, 21, 14, 7] false).length = if subId.toNat / 2 ^ 28 ≠ 0 then 4 else
        if subId.toNat / 2 ^ 21 ≠ 0 then 3 else if subId.toNat / 2 ^ 14 ≠ 0 then 2 else
        if subId.toNat / 2 ^ 7 ≠ 0 then 1 else 0 := by
      rw [leadOctets_false_length h (by norm_num; omega)]
      split_ifs with h₂₈ h₂₁ h₁₄ h₇
      · rfl
      · rw [leadOctets_false_length h (not_not.1 h₂₈), if_pos h₂₁]
        rfl
      · rw [leadOctets_false_length h (not_not.1 h₂₈), if_neg h₂₁,
          leadOctets_false_length h (not_not.1 h₂₁), if_pos h₁₄]
        rfl
      · rw [leadOctets_false_length h (not_not.1 h₂₈), if_neg h₂₁,
          leadOctets_false_length h (not_not.1 h₂₁), if_neg h₁₄,
          leadOctets_false_length h (not_not.1 h₁₄), if_pos h₇]
        rfl
      · rw [leadOctets_false_length h (not_not.1 h₂₈), if_neg h₂₁,
          leadOctets_false_length h (not_not.1 h₂₁), if_neg h₁₄,
          leadOctets_false_length h (not_not.1 h₁₄), if_neg h₇]
        rfl
    refine ⟨_, ?_, fun _ ↦ Nat.add_comm _ _, fun hneg ↦ absurd hneg (not_lt.2 h)⟩
    have hend : ¬subId.toNat / 2 ^ 35 ≠ 0 := by
      norm_num
      omega
    rw [hlength, cntLoop_succ h, cntLoop_succ h, cntLoop_succ h, cntLoop_succ h, cntLoop_succ h, if_neg hend]
    norm_num
    split_ifs <;> first | rfl | omega

/-- The count is never less than there are sub-identifiers, nor more than there are octets, which it is without negative
ones. -/
theorem idsCnt_spec (ids : List (BitVec 32)) : ∃ n, idsCnt ids = some n ∧ ids.length ≤ n ∧ n ≤ 5 * ids.length ∧
    n ≤ (idOctets ids).length ∧ (n = (idOctets ids).length ↔ ∀ subId ∈ ids, 0 ≤ subId.toInt) := by
  induction ids with
  | nil => exact ⟨0, rfl, le_rfl, le_rfl, le_rfl, by simp [idOctets]⟩
  | cons subId ids ih =>
    obtain ⟨n, hn, hlo, hhi, hle, hiff⟩ := ih
    obtain ⟨k, hk, hpos, hneg⟩ := subOctets_length subId
    refine ⟨1 + k + n, by rw [idsCnt, hk, Option.bind_some, hn]; rfl, ?_⟩
    have hfive : (subOctets subId).length ≤ 5 := by
      rw [subOctets, List.length_append]
      exact Nat.succ_le_succ (leadOctets_length_le subId _ false)
    rw [idOctets_cons, List.length_append, List.length_cons, List.forall_mem_cons, ← hiff]
    rcases lt_or_ge subId.toInt 0 with h | h
    · obtain ⟨rfl, hlength⟩ := hneg h
      omega
    · have hlength := hpos h
      omega

/-! ### What is written -/

/-- An octet is written at the end of the chain, behind which there is no place. -/
theorem At.write_end (h : Plain ps) (hat : At ps o m) (c : BitVec 8) (ho : o + 1 = (pbufBytes ps).length) :
    ∃ ps', m.write ps c = some ps' ∧ m.next ps' = none := by
  obtain ⟨ps', hwrite, hwrote⟩ := hat.write c
  exact ⟨ps', hwrite, (hat.of_shape hwrote.shape).next_none (h.of_shape hwrote.shape)
    (ho.trans (length_of_shape hwrote.shape).symm)⟩

theorem encSubIdLoop_spec (h : Plain ps) (hat : At ps o m) (subId : BitVec 32) (shifts : List ℕ) (tail : Bool) :
    (o + (leadOctets subId shifts tail).length < (pbufBytes ps).length →
      ∃ m' ps', encSubIdLoop subId shifts tail m ps = some (some m', ps') ∧ Wrote ps o (leadOctets subId shifts tail) ps' ∧
        At ps' (o + (leadOctets subId shifts tail).length) m') ∧
    ((pbufBytes ps).length ≤ o + (leadOctets subId shifts tail).length →
      ∃ ps', encSubIdLoop subId shifts tail m ps = some (none, ps')) := by
  induction shifts generalizing ps o m tail with
  | nil => exact ⟨fun _ ↦ ⟨m, ps, rfl, Wrote.refl ps o, hat⟩, fun hge ↦ absurd hat.lt (Nat.not_lt.2 hge)⟩
  | cons s shifts ih =>
    have hlt := hat.lt
    rw [encSubIdLoop, leadOctets]
    split_ifs with hcode
    · rw [List.length_cons]
      rcases Nat.lt_or_ge (o + 1) (pbufBytes ps).length with hmore | hend
      · obtain ⟨ps₁, m₁, hwrite, hwrote, hplain, hnext, hat₁, hlength⟩ := hat.write_next h (code subId s ||| 0x80) hmore
        obtain ⟨hroom, hout⟩ := ih hplain hat₁ true
        rw [hwrite, Option.bind_some, hnext]
        rw [hlength] at hroom hout
        refine ⟨fun ho ↦ ?_, fun ho ↦ hout (by omega)⟩
        obtain ⟨m', ps', hloop, hwrote', hat'⟩ := hroom (by omega)
        exact ⟨m', ps', hloop, hwrote.cons hwrote' hlt, by rwa [Nat.add_right_comm, Nat.add_assoc] at hat'⟩
      · obtain ⟨ps₁, hwrite, hnone⟩ := hat.write_end h (code subId s ||| 0x80) (by omega)
        rw [hwrite, Option.bind_some, hnone]
        exact ⟨fun ho ↦ absurd ho (by omega), fun _ ↦ ⟨ps₁, rfl⟩⟩
    · exact ih h hat tail

theorem encIds_spec (h : Plain ps) (hat : At ps o m) (hne : ids ≠ []) :
    (o + (idOctets ids).length ≤ (pbufBytes ps).length →
      ∃ ps', encIds ids m ps = some (.ok, ps') ∧ Wrote ps o (idOctets ids) ps') ∧
    ((pbufBytes ps).length < o + (idOctets ids).length → ∃ ps', encIds ids m ps = some (.arg, ps')) := by
  induction ids generalizing ps o m with
  | nil => exact absurd rfl hne
  | cons subId ids ih =>
    have hlt := hat.lt
    obtain ⟨hroom, hout⟩ := encSubIdLoop_spec h hat subId [28, 21, 14, 7] false
    have hlength : (idOctets (subId :: ids)).length =
        (leadOctets subId [28, 21, 14, 7] false).length + 1 + (idOctets ids).length := by
      rw [idOctets_cons, subOctets, List.length_append, List.length_append, List.length_singleton]
    rw [hlength, encIds]
    rcases Nat.lt_or_ge (o + (leadOctets subId [28, 21, 14, 7] false).length) (pbufBytes ps).length with hlead | hlead
    swap
    · obtain ⟨ps₁, hloop⟩ := hout hlead
      rw [hloop]
      exact ⟨fun ho ↦ absurd ho (by omega), fun _ ↦ ⟨ps₁, rfl⟩⟩
    obtain ⟨m₁, ps₁, hloop, hwrote₁, hat₁⟩ := hroom hlead
    have hplain₁ := h.of_shape hwrote₁.shape
    have htotal₁ := length_of_shape hwrote₁.shape
    rw [hloop, Option.bind_some]
    dsimp only
    rcases eq_or_ne ids [] with rfl | hids
    · obtain ⟨ps₂, hwrite, hwrote₂⟩ := hat₁.write (subId.setWidth 8 &&& 0x7f)
      rw [hwrite, Option.bind_some, if_neg (not_not.2 rfl), encIds]
      refine ⟨fun _ ↦ ⟨ps₂, rfl, ?_⟩, fun ho ↦ absurd ho ?_⟩
      · have hwrote := hwrote₁.append hwrote₂ hlt.le
        rwa [idOctets_cons, subOctets, idOctets, List.flatMap_nil, List.append_nil]
      · rw [idOctets, List.flatMap_nil, List.length_nil]
        omega
    · rcases Nat.lt_or_ge (o + (leadOctets subId [28, 21, 14, 7] false).length + 1) (pbufBytes ps).length with hmore | hend
      · obtain ⟨ps₂, m₂, hwrite, hwrote₂, hplain₂, hnext, hat₂, htotal₂⟩ :=
          hat₁.write_next hplain₁ (subId.setWidth 8 &&& 0x7f) (by omega)
        obtain ⟨hfits, hnot⟩ := ih hplain₂ hat₂ hids
        rw [hwrite, Option.bind_some, if_pos hids, hnext]
        rw [htotal₂, htotal₁] at hfits hnot
        refine ⟨fun ho ↦ ?_, fun ho ↦ hnot (by omega)⟩
        obtain ⟨ps', henc, hwrote⟩ := hfits (by omega)
        refine ⟨ps', henc, ?_⟩
        have hboth := hwrote₁.append (hwrote₂.cons hwrote (by omega)) hlt.le
        rwa [idOctets_cons, subOctets, List.append_assoc, List.singleton_append]
      · obtain ⟨ps₂, hwrite, hnone⟩ := hat₁.write_end hplain₁ (subId.setWidth 8 &&& 0x7f) (by omega)
        have hpos := List.length_pos_iff.2 (idOctets_ne_nil hids)
        rw [hwrite, Option.bind_some, if_pos hids, hnone]
        exact ⟨fun ho ↦ absurd ho (by omega), fun _ ↦ ⟨ps₂, rfl⟩⟩

/-! ### What is decoded -/

/-- The decoder can produce it. -/
def Decoded (ident : List (BitVec 32)) : Prop :=
  ∃ ps o len old r, Plain ps ∧ snmpAsn1DecOid ps o len old = some r ∧ r.err = .ok ∧ r.oid = ident.map some

theorem oidLoop_length_le {ps : List Pbuf} {room len : ℕ} {oid : ObjId} {reads : List ℕ} {r : OidResult}
    (hr : oidLoop ps room len m oid reads = some r) : r.oid.length ≤ oid.length + room := by
  induction room generalizing len m oid reads with
  | zero =>
    obtain rfl := Option.some.inj hr
    exact le_rfl
  | succ room ih =>
    rw [oidLoop] at hr
    split_ifs at hr with hlen
    · obtain rfl := Option.some.inj hr
      exact Nat.le_add_right _ _
    obtain ⟨⟨x, reads₁⟩, -, hr⟩ := Option.bind_eq_some_iff.1 hr
    have hmore : ∀ {len m elem}, oidLoop ps room len m (oid ++ [elem]) reads₁ = some r →
        r.oid.length ≤ oid.length + (room + 1) := by
      intro len m elem hr
      refine (ih hr).trans_eq ?_
      rw [List.length_append, List.length_singleton, Nat.add_assoc, Nat.add_comm 1]
    rcases x with - | ⟨len', elem, m₁⟩
    · obtain rfl := Option.some.inj hr
      exact Nat.le_add_right _ _
    dsimp only at hr
    split_ifs at hr with hpos
    · rcases hnext : m₁.next ps with - | m₂
      · rw [hnext] at hr
        obtain rfl := Option.some.inj hr
        exact Nat.le_add_right _ _
      · rw [hnext] at hr
        exact hmore hr
    · exact hmore hr

/-- The first two elements are those of an octet, and there is room for the others. -/
theorem Decoded.shape (h : Decoded ident) (hne : ident ≠ []) : ∃ c ids, ident = firstIds c ++ ids ∧ ids.length ≤ 30 := by
  obtain ⟨ps, o, len, old, r, -, hr, hok, hoid⟩ := h
  have hloop : ∀ {room len m reads c}, room = 30 → oidLoop ps room len m ((firstIds c).map some) reads = some r →
      ∃ c ids, ident = firstIds c ++ ids ∧ ids.length ≤ 30 := by
    intro room len m reads c hroom hr
    have hle := oidLoop_length_le hr
    obtain ⟨rest, hrest⟩ := (oidLoop_grows hr).1
    rw [hoid] at hrest hle
    obtain ⟨ids, hids⟩ : ∃ ids : List (BitVec 32), rest = ids.map some := by
      refine ⟨ident.drop (firstIds c).length, ?_⟩
      rw [List.map_drop, ← hrest]
      exact (List.drop_left' (List.length_map _)).symm
    rw [hids, ← List.map_append] at hrest
    have hident := (List.map_injective_iff.2 (Option.some_injective _)) hrest
    refine ⟨c, ids, hident.symm, ?_⟩
    rw [List.length_map, List.length_map, ← hident, List.length_append] at hle
    omega
  rw [snmpAsn1DecOid] at hr
  rcases hseek : seek o ps 0 0 with - | m
  · rw [hseek] at hr
    obtain rfl := Option.some.inj hr
    cases hok
  rw [hseek] at hr
  dsimp only at hr
  split_ifs at hr with hlen hmore
  · obtain rfl := Option.some.inj hr
    exact absurd (List.map_eq_nil_iff.1 hoid.symm) hne
  · obtain ⟨c, -, hr⟩ := Option.bind_eq_some_iff.1 hr
    rcases hnext : m.next ps with - | m'
    · rw [hnext] at hr
      obtain rfl := Option.some.inj hr
      cases hok
    · rw [hnext] at hr
      exact hloop rfl hr
  · obtain ⟨c, -, hr⟩ := Option.bind_eq_some_iff.1 hr
    exact hloop rfl hr

/-- The first octet comes back. -/
theorem firstIds_spec (c : BitVec 8) : ∃ id₀ id₁, firstIds c = [id₀, id₁] ∧ firstOctet id₀ id₁ = c := by
  rw [firstIds]
  split_ifs with h₀ h₁ h₂
  · exact ⟨1, 3, rfl, h₀.symm⟩
  · refine ⟨0, _, rfl, ?_⟩
    rw [firstOctet, if_neg (by rintro ⟨h, -⟩; cases h)]
    simp
  · refine ⟨1, _, rfl, ?_⟩
    rw [firstOctet]
    split_ifs with h₃
    · bv_omega
    · bv_omega
  · refine ⟨2, _, rfl, ?_⟩
    rw [firstOctet, if_neg (by rintro ⟨h, -⟩; cases h)]
    bv_omega

/-- A part of the octets does not give all sub-identifiers. -/
theorem subIds_take_ne (hn : n < (idOctets ids).length) (hcomplete : Complete ((idOctets ids).take n)) :
    subIds 0 ((idOctets ids).take n) ≠ ids := by
  have happend : ∀ {a : List (BitVec 8)}, Complete a → ∀ b subId, subIds subId (a ++ b) = subIds subId a ++ subIds 0 b ∨ a = [] := by
    intro a
    induction a with
    | nil => exact fun _ _ _ ↦ .inr rfl
    | cons c a ih =>
      intro hcomplete b subId
      refine .inl ?_
      rcases eq_or_ne a [] with rfl | ha
      · have hc : ¬Goes c := hcomplete c rfl
        rw [List.singleton_append, subIds, if_neg hc, subIds, if_neg hc, subIds, List.singleton_append]
      · have hrest := (complete_append ha [c]).1 hcomplete
        rw [List.cons_append, subIds, subIds]
        split_ifs
        · exact (ih hrest b _).resolve_right ha
        · rw [(ih hrest b 0).resolve_right ha, List.cons_append]
  intro heq
  have hall := subIds_idOctets ids
  have hne : (idOctets ids).drop n ≠ [] := by
    rw [ne_eq, List.drop_eq_nil_iff]
    omega
  have hpos : subIds 0 ((idOctets ids).drop n) ≠ [] := by
    rcases split_ends ((idOctets ids).drop n) with hgoes | ⟨front, c, rest, hsplit, hfront, hc⟩
    · refine absurd ?_ (not_complete hgoes hne)
      rw [← complete_append hne ((idOctets ids).take n), List.take_append_drop]
      exact complete_idOctets ids
    · rw [hsplit, subIds_ends hfront hc]
      exact List.cons_ne_nil _ _
  rw [← List.take_append_drop n (idOctets ids)] at hall
  rcases happend hcomplete ((idOctets ids).drop n) 0 with hboth | hnil
  · rw [hboth, heq] at hall
    exact hpos (List.append_right_eq_self.1 hall)
  · rw [hnil] at heq
    have hids : ids = [] := heq.symm
    rw [hids] at hn
    exact absurd hn (Nat.not_lt_zero _)

/-- The field of so many of the octets that are there. -/
theorem fieldOctets_begins {c : BitVec 8} (h : c :: cs <+: (pbufBytes ps).drop o) (hn : n ≤ cs.length) :
    fieldOctets ps o (1 + n) = c :: cs.take n := by
  obtain ⟨rest, hrest⟩ := h
  rw [fieldOctets, ← hrest, Nat.add_comm, List.cons_append, List.take_succ_cons, List.take_append_of_le_length hn]

/-- What is decoded is not the whole where the field is too short. -/
theorem decOid_short (h : Plain ps) {c : BitVec 8} (hpos : 0 < n) (hn : n < (idOctets ids).length)
    (hbegins : c :: idOctets ids <+: (pbufBytes ps).drop o) (old : ObjId) {r : OidResult}
    (hr : snmpAsn1DecOid ps o (1 + n) old = some r) (hok : r.err = .ok) : r.oid ≠ (firstIds c ++ ids).map some := by
  have hlength := hbegins.length_le
  rw [List.length_cons, List.length_drop] at hlength
  have hne : (idOctets ids).take n ≠ [] := by
    rw [ne_eq, List.take_eq_nil_iff, not_or]
    exact ⟨hpos.ne', List.ne_nil_of_length_pos (by omega)⟩
  obtain ⟨m', hat', hrest, hdec⟩ := (decOid_field h (by omega) (by omega) (fieldOctets_begins hbegins hn.le) old).2 hne
  rw [hdec] at hr
  by_cases hcomplete : Complete ((idOctets ids).take n)
  · obtain ⟨rs, hloop, -⟩ := oidLoop_complete h hat' hrest hne hcomplete (lwipSnmpObjIdLen - 2) ((firstIds c).map some) [o]
    obtain rfl := Option.some.inj (hloop.symm.trans hr)
    dsimp only at hok ⊢
    split_ifs at hok with hle
    rw [List.take_of_length_le hle, ← List.map_append]
    intro heq
    have hids := List.append_cancel_left (List.map_injective_iff.2 (Option.some_injective _) heq)
    exact subIds_take_ne hn hcomplete hids
  · obtain ⟨hstops, hon⟩ := oidLoop_truncated h hat' hrest hne hcomplete (lwipSnmpObjIdLen - 2) ((firstIds c).map some) [o]
    intro heq
    by_cases hruns : (subIds 0 ((idOctets ids).take n)).length + 1 < lwipSnmpObjIdLen - 2 ∧
        (pbufBytes ps).drop (o + (1 + n)) ≠ []
    · have hnone := (hon hruns.1 hruns.2 r hr).1
      rw [heq] at hnone
      simp at hnone
    · obtain ⟨oid', rs, hloop, -⟩ := hstops (by
        rw [not_and_or, not_lt, not_not] at hruns
        exact hruns)
      obtain rfl := Option.some.inj (hloop.symm.trans hr)
      cases hok

/-- **Object identifiers come back** exactly if no sub-identifier is negative as a signed number, and not for one of two
elements at the last octet of a chain. -/
theorem oid_round_trip_iff (h : Plain ps) (hlen : 2 ≤ ident.length) (hid : Decoded ident) (o : ℕ) (old : ObjId) :
    ∃ n, snmpAsn1EncOidCnt ident = some n ∧ (o + n ≤ (pbufBytes ps).length →
      (RoundTrip ps o n (snmpAsn1EncOid ps o ident)
          (fun ps ↦ (snmpAsn1DecOid ps o n old).map fun r ↦ (r.err, r.oid)) (ident.map some) ↔
        (∀ subId ∈ ident.drop 2, 0 ≤ subId.toInt) ∧ ¬(ident.length = 2 ∧ o + 1 = (pbufBytes ps).length))) := by
  obtain ⟨c, ids, rfl, hids⟩ := hid.shape (List.ne_nil_of_length_pos (by omega))
  obtain ⟨id₀, id₁, hfirst, hoctet⟩ := firstIds_spec c
  obtain ⟨n, hn, hlo, hhi, hle, hiff⟩ := idsCnt_spec ids
  have hdrop : (firstIds c ++ ids).drop 2 = ids := by rw [hfirst]; rfl
  have hlength : (firstIds c ++ ids).length = 2 + ids.length := by rw [hfirst, List.length_append]; rfl
  refine ⟨1 + n, ?_, fun ho ↦ ?_⟩
  · rw [snmpAsn1EncOidCnt, if_pos (by omega), hdrop, hn, Option.map_some, Nat.mod_eq_of_lt (by omega)]
  rw [hdrop, hlength, ← hiff]
  obtain ⟨m, hseek, hat⟩ := seek_at h (o := o) (by omega)
  have henc : snmpAsn1EncOid ps o (firstIds c ++ ids) = (m.write ps c).bind fun ps ↦
      match m.next ps with
      | none => some (.arg, ps)
      | some m => encIds ids m ps := by
    rw [snmpAsn1EncOid, hseek, hfirst, ← hoctet]
    rfl
  rcases Nat.lt_or_ge (o + 1) (pbufBytes ps).length with hmore | hend
  swap
  · -- the octet is the last of the chain
    obtain ⟨ps₁, hwrite, hnone⟩ := hat.write_end h c (by omega)
    have hnil : ids.length = 0 := by omega
    refine iff_of_false ?_ (by rw [hnil]; omega)
    rintro ⟨ps', cs, hok, -⟩
    rw [henc, hwrite, Option.bind_some, hnone] at hok
    cases hok
  obtain ⟨ps₁, m₁, hwrite, hwrote₁, hplain₁, hnext, hat₁, htotal₁⟩ := hat.write_next h c hmore
  rw [hwrite, Option.bind_some, hnext] at henc
  dsimp only at henc
  rw [and_iff_left (show ¬(2 + ids.length = 2 ∧ o + 1 = (pbufBytes ps).length) by omega)]
  rcases eq_or_ne ids [] with rfl | hne
  · have hzero : n = 0 := Nat.le_zero.1 hle
    subst hzero
    refine iff_of_true ⟨ps₁, [c], henc, rfl, hwrote₁, ?_⟩ rfl
    have hfield := fieldOctets_begins (n := 0) (hwrote₁.begins (by omega)) le_rfl
    dsimp only
    rw [(decOid_field hplain₁ (by omega) (by omega) hfield old).1 rfl, List.append_nil]
    rfl
  obtain ⟨hfits, hnot⟩ := encIds_spec hplain₁ hat₁ hne
  have hpos : 0 < n := (List.length_pos_iff.2 hne).trans_le hlo
  rw [htotal₁] at hfits hnot
  constructor
  · rintro ⟨ps', cs, hok, -, -, hdec⟩
    by_contra hshort
    rcases Nat.lt_or_ge (pbufBytes ps).length (o + 1 + (idOctets ids).length) with hout | hroom
    · obtain ⟨ps₂, harg⟩ := hnot hout
      rw [henc, harg] at hok
      cases hok
    obtain ⟨ps₂, hids₂, hwrote₂⟩ := hfits hroom
    have hsame := hids₂.symm.trans (henc.symm.trans hok)
    obtain rfl : ps₂ = ps' := congrArg Prod.snd (Option.some.inj hsame)
    have hwrote := hwrote₁.cons hwrote₂ (by omega)
    obtain ⟨r, hr, hpair⟩ := Option.map_eq_some_iff.1 hdec
    obtain ⟨herr, hoid⟩ := Prod.mk.inj hpair
    exact decOid_short (h.of_shape hwrote.shape) hpos (lt_of_le_of_ne hle hshort) (hwrote.begins (by omega)) old hr herr hoid
  · intro heq
    obtain ⟨ps₂, hids₂, hwrote₂⟩ := hfits (by omega)
    have hwrote := hwrote₁.cons hwrote₂ (by omega)
    have hplain₂ := h.of_shape hwrote.shape
    have htotal₂ := length_of_shape hwrote.shape
    refine ⟨ps₂, c :: idOctets ids, henc.trans hids₂, by rw [List.length_cons]; omega, hwrote, ?_⟩
    have hfield := fieldOctets_begins (hwrote.begins (by omega)) heq.le
    rw [heq, List.take_length, ← heq] at hfield
    obtain ⟨m', hat', hrest, hdec⟩ := (decOid_field hplain₂ (by omega) (by omega) hfield old).2 (idOctets_ne_nil hne)
    obtain ⟨rs, hloop, -⟩ := oidLoop_complete hplain₂ hat' hrest (idOctets_ne_nil hne) (complete_idOctets ids)
      (lwipSnmpObjIdLen - 2) ((firstIds c).map some) [o]
    have hroom : ids.length ≤ lwipSnmpObjIdLen - 2 := hids
    rw [subIds_idOctets, if_pos hroom, List.take_of_length_le hroom, ← List.map_append] at hloop
    dsimp only
    rw [hdec, hloop]
    rfl

/-- The object identifier 1.3.6.300, in a chain of two pbufs. -/
theorem oid_round_trip_split : ∃ n, snmpAsn1EncOidCnt [1, 3, 6, 300] = some n ∧
    (1 + n ≤ (pbufBytes [⟨[0, 0], 5⟩, ⟨[0, 0, 0], 3⟩]).length →
      (RoundTrip [⟨[0, 0], 5⟩, ⟨[0, 0, 0], 3⟩] 1 n (snmpAsn1EncOid [⟨[0, 0], 5⟩, ⟨[0, 0, 0], 3⟩] 1 [1, 3, 6, 300])
          (fun ps ↦ (snmpAsn1DecOid ps 1 n []).map fun r ↦ (r.err, r.oid)) ([1, 3, 6, 300].map some) ↔
        (∀ subId ∈ [(1 : BitVec 32), 3, 6, 300].drop 2, 0 ≤ subId.toInt) ∧
          ¬([(1 : BitVec 32), 3, 6, 300].length = 2 ∧ 1 + 1 = (pbufBytes [⟨[0, 0], 5⟩, ⟨[0, 0, 0], 3⟩]).length))) :=
  oid_round_trip_iff ⟨by decide, by decide⟩ (by decide)
    ⟨[⟨[0x2b, 6, 0x82, 0x2c], 4⟩], 0, 4, [], _, ⟨by decide, by decide⟩, rfl, by decide, by decide⟩ 1 []

/-- **One octet is counted** for the sub-identifier `2 ^ 31`, and five are written; with room for two octets there is none
for six. The object identifier 1.3 is refused at the last octet of a chain. -/
theorem oid_not_back :
    Decoded [1, 3, 0x80000000] ∧ snmpAsn1EncOidCnt [1, 3, 0x80000000] = some 2 ∧
    snmpAsn1EncOid [⟨[0, 0], 2⟩] 0 [1, 3, 0x80000000] = some (.arg, [⟨[0x2b, 0xf8], 2⟩]) ∧
    (¬RoundTrip [⟨[0, 0], 2⟩] 0 2 (snmpAsn1EncOid [⟨[0, 0], 2⟩] 0 [1, 3, 0x80000000])
      (fun ps ↦ (snmpAsn1DecOid ps 0 2 []).map fun r ↦ (r.err, r.oid)) ([1, 3, 0x80000000].map some)) ∧
    snmpAsn1EncOidCnt [1, 3] = some 1 ∧ snmpAsn1EncOid [⟨[0], 1⟩] 0 [1, 3] = some (.arg, [⟨[0x2b], 1⟩]) ∧
    ¬RoundTrip [⟨[0], 1⟩] 0 1 (snmpAsn1EncOid [⟨[0], 1⟩] 0 [1, 3])
      (fun ps ↦ (snmpAsn1DecOid ps 0 1 []).map fun r ↦ (r.err, r.oid)) ([1, 3].map some) := by
  have hlarge : snmpAsn1EncOid [⟨[0, 0], 2⟩] 0 [1, 3, 0x80000000] = some (.arg, [⟨[0x2b, 0xf8], 2⟩]) := by decide
  have hshort : snmpAsn1EncOid [⟨[0], 1⟩] 0 [1, 3] = some (.arg, [⟨[0x2b], 1⟩]) := by decide
  refine ⟨⟨[⟨[0x2b, 0x88, 0x80, 0x80, 0x80, 0], 6⟩], 0, 6, [], _, ⟨by decide, by decide⟩, rfl, by decide, by decide⟩,
    by decide, hlarge, ?_, by decide, hshort, ?_⟩
  · rintro ⟨ps', cs, henc, -⟩
    rw [hlarge] at henc
    cases henc
  · rintro ⟨ps', cs, henc, -⟩
    rw [hshort] at henc
    cases henc

end Lwip.Core.Snmp
