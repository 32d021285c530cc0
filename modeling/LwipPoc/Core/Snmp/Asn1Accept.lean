import LwipPoc.Core.Snmp.ObjectId

/-!
# What the decoders accept

An integer is its octets as a number with a sign (`asn1Int`), and an object identifier is complete if its last octet ends a
sub-identifier. `snmp_asn1_dec_u32t` takes five octets for a number below `2 ^ 32` whatever the first one is, as long as it has
no sign bit, and shifts it out. `snmp_asn1_dec_oid` does not see that the last sub-identifier does not end, and goes on behind
the object identifier. An object identifier of no octets is accepted, but not at the end of the chain.
-/

namespace Lwip.Core.Snmp

variable {ps : List Pbuf} {m : MsgPtr} {o len : ℕ} {c : BitVec 8} {cs behind : List (BitVec 8)} {x : BitVec 32}

/-- One more octet of a number. -/
def putOctet (v : ℤ) (c : BitVec 8) : ℤ := v * 256 + c.toNat

/-- The number that octets encode, by two's complement. -/
def asn1Int (cs : List (BitVec 8)) : ℤ := cs.foldl putOctet (if ∃ c ∈ cs.head?, Goes c then -1 else 0)

/-- **`snmp_asn1_dec_u32t` is right**: it accepts exactly the fields of one to five octets that encode a number from 0 to
`2 ^ 32 - 1`, and gives this number. -/
structure U32Right (ps : List Pbuf) (o len : ℕ) (r : ErrT × BitVec 32) : Prop where
  accepts : r.1 = .ok ↔ 1 ≤ len ∧ len ≤ 5 ∧ o + len ≤ (pbufBytes ps).length ∧ 0 ≤ asn1Int (fieldOctets ps o len) ∧
    asn1Int (fieldOctets ps o len) < 2 ^ 32
  value : r.1 = .ok → (r.2.toNat : ℤ) = asn1Int (fieldOctets ps o len)

/-- **`snmp_asn1_dec_oid` is right**: it accepts exactly the fields whose sub-identifiers all end and are not too many, reads
nothing else, and puts something into every element. -/
structure OidRight (ps : List Pbuf) (o len : ℕ) (r : OidResult) : Prop where
  accepts : r.err = .ok ↔ o + len ≤ (pbufBytes ps).length ∧ Complete (fieldOctets ps o len).tail ∧
    (len ≠ 0 → 2 + (subIds 0 (fieldOctets ps o len).tail).length ≤ lwipSnmpObjIdLen)
  reads : ∀ i ∈ r.reads, i < o + len
  set : r.err = .ok → none ∉ r.oid

/-! ### Numbers -/

theorem orOctet_toNat (x : BitVec 32) (c : BitVec 8) : (orOctet (x <<< 8) c).toNat = (x.toNat * 2 ^ 8 + c.toNat) % 2 ^ 32 := by
  have hor : orOctet (x <<< 8) c = x <<< 8 + c.setWidth 32 := by
    refine (BitVec.add_eq_or_of_and_eq_zero _ _ ?_).symm
    ext i hi
    by_cases h : i < 8
    · simp [h]
    · simp [h, BitVec.getLsbD_of_ge c i (by omega)]
  have hc := c.isLt
  rw [hor, BitVec.toNat_add, BitVec.toNat_shiftLeft, BitVec.toNat_setWidth, Nat.shiftLeft_eq]
  omega

/-- The value of the octets that are there. -/
theorem decOctets_or (h : Plain ps) (hat : At ps o m) (hdrop : (pbufBytes ps).drop o = cs ++ behind) (hne : cs ≠ [])
    (x : BitVec 32) : decOctets orOctet (· <<< 8) ps cs.length (x <<< 8) m =
      some (.ok, cs.foldl (fun x c ↦ orOctet (x <<< 8) c) x) := by
  induction cs generalizing o m x with
  | nil => exact absurd rfl hne
  | cons c cs ih =>
    obtain ⟨hread, hrest⟩ := hat.read_cons hdrop
    rcases cs with - | ⟨d, cs⟩
    · rw [List.length_singleton, decOctets, hread]
      · rfl
      · simp
    · have htotal := drop_length hdrop (List.cons_ne_nil _ _)
      rw [List.length_append, List.length_cons, List.length_cons] at htotal
      obtain ⟨m', hnext, hat'⟩ := hat.next h (by omega)
      rw [List.length_cons, List.length_cons, decOctets, hread, Option.bind_some, hnext]
      exact ih hat' hrest (List.cons_ne_nil d cs) (orOctet (x <<< 8) c)

/-- The chain ends before the octets do. -/
theorem decOctets_chain_ends {put : BitVec 32 → BitVec 8 → BitVec 32} {shift : BitVec 32 → BitVec 32} (h : Plain ps)
    (hat : At ps o m) (hdrop : (pbufBytes ps).drop o = cs) (hne : cs ≠ []) (hlen : cs.length < len) (x : BitVec 32) :
    ∃ y, decOctets put shift ps len x m = some (.arg, y) := by
  induction cs generalizing o m len x with
  | nil => exact absurd rfl hne
  | cons c cs ih =>
    obtain ⟨hread, hrest⟩ := hat.read_cons hdrop
    have htotal := drop_length hdrop (List.cons_ne_nil _ _)
    rw [List.length_cons] at htotal hlen
    obtain ⟨len, rfl⟩ : ∃ k, len = k + 2 := ⟨len - 2, by omega⟩
    rw [decOctets, hread, Option.bind_some]
    rcases cs with - | ⟨d, cs⟩
    · rw [hat.next_none h htotal]
      exact ⟨_, rfl⟩
    · rw [List.length_cons] at htotal hlen
      obtain ⟨m', hnext, hat'⟩ := hat.next h (by omega)
      rw [hnext]
      have hlen' : (d :: cs).length < len + 1 := by
        rw [List.length_cons]
        omega
      exact ih hat' hrest (List.cons_ne_nil d cs) hlen' _

theorem foldl_or_toNat (cs : List (BitVec 8)) (x : BitVec 32) :
    ((cs.foldl (fun x c ↦ orOctet (x <<< 8) c) x).toNat : ℤ) = cs.foldl putOctet x.toNat % 2 ^ 32 := by
  have hmod : ∀ (cs : List (BitVec 8)) (v w : ℤ), v % 2 ^ 32 = w % 2 ^ 32 →
      cs.foldl putOctet v % 2 ^ 32 = cs.foldl putOctet w % 2 ^ 32 := by
    intro cs
    induction cs with
    | nil => exact fun v w h ↦ h
    | cons c cs ih =>
      intro v w h
      refine ih _ _ ?_
      rw [putOctet, putOctet]
      omega
  induction cs generalizing x with
  | nil =>
    have hlt := x.isLt
    rw [List.foldl_nil, List.foldl_nil]
    omega
  | cons c cs ih =>
    rw [List.foldl_cons, ih, List.foldl_cons]
    refine hmod cs _ _ ?_
    rw [orOctet_toNat, putOctet]
    push_cast
    omega

/-- How large a number of so many octets is. -/
theorem foldl_putOctet_bounds (cs : List (BitVec 8)) (v : ℤ) :
    v * 256 ^ cs.length ≤ cs.foldl putOctet v ∧ cs.foldl putOctet v < (v + 1) * 256 ^ cs.length := by
  induction cs generalizing v with
  | nil => simp
  | cons c cs ih =>
    obtain ⟨hlo, hhi⟩ := ih (putOctet v c)
    have hc := c.isLt
    have hpow : (0 : ℤ) < 256 ^ cs.length := by positivity
    rw [List.foldl_cons, List.length_cons, pow_succ']
    constructor
    · refine le_trans ?_ hlo
      rw [← mul_assoc]
      exact mul_le_mul_of_nonneg_right (by rw [putOctet]; omega) hpow.le
    · refine hhi.trans_le ?_
      rw [← mul_assoc]
      exact mul_le_mul_of_nonneg_right (by rw [putOctet]; omega) hpow.le

/-! ### Integers -/

/-- A field that begins with a sign bit is negative, and one that does not is not. -/
theorem asn1Int_neg (c : BitVec 8) (cs : List (BitVec 8)) : asn1Int (c :: cs) < 0 ↔ Goes c := by
  have hbounds := foldl_putOctet_bounds cs
  have hpow : (0 : ℤ) < 256 ^ cs.length := by positivity
  have hc := c.isLt
  rw [asn1Int, List.foldl_cons, List.head?_cons]
  by_cases hgoes : Goes c
  · rw [if_pos ⟨c, rfl, hgoes⟩]
    refine iff_of_true ((hbounds _).2.trans_le ?_) hgoes
    rw [putOctet]
    exact mul_nonpos_of_nonpos_of_nonneg (by omega) hpow.le
  · rw [if_neg (by rintro ⟨d, hd, hgoes'⟩; exact hgoes (Option.some.inj hd ▸ hgoes'))]
    refine iff_of_false (not_lt.2 (le_trans ?_ (hbounds _).1)) hgoes
    rw [putOctet]
    exact mul_nonneg (by omega) hpow.le

theorem asn1Int_of_not_goes (hc : ¬Goes c) (cs : List (BitVec 8)) : asn1Int (c :: cs) = (c :: cs).foldl putOctet 0 := by
  rw [asn1Int, List.head?_cons, if_neg]
  rintro ⟨d, hd, hgoes⟩
  exact hc (Option.some.inj hd ▸ hgoes)

/-- **What `snmp_asn1_dec_u32t` does** with a field in the chain. -/
theorem decU32t_field (h : Plain ps) (hlen : 0 < len ∧ len < 6) (ho : o + len ≤ (pbufBytes ps).length) (old : BitVec 32)
    {c : BitVec 8} {cs : List (BitVec 8)} (hfield : fieldOctets ps o len = c :: cs) :
    (Goes c → snmpAsn1DecU32t ps o len old = some (.arg, 0)) ∧
    (¬Goes c → ∃ v : BitVec 32, snmpAsn1DecU32t ps o len old = some (.ok, v) ∧
      (v.toNat : ℤ) = asn1Int (fieldOctets ps o len) % 2 ^ 32) := by
  have hlength := fieldOctets_length ho
  have hdrop := drop_field ps o len
  rw [hfield] at hlength hdrop ⊢
  rw [List.length_cons] at hlength
  obtain ⟨m, hseek, hat⟩ := seek_at h (o := o) (by omega)
  obtain ⟨hread, hrest⟩ := hat.read_cons hdrop
  rw [snmpAsn1DecU32t, hseek]
  dsimp only
  rw [if_pos hlen, hread, Option.bind_some]
  refine ⟨fun hc ↦ if_pos hc, fun hc ↦ ?_⟩
  rw [if_neg (by exact hc), asn1Int_of_not_goes hc]
  by_cases hskip : 1 < len ∧ c = 0
  · rw [if_pos hskip]
    obtain ⟨m', hnext, hat'⟩ := hat.next h (by omega)
    have hne : cs ≠ [] := List.ne_nil_of_length_pos (by omega)
    have hdec := decOctets_or h hat' hrest hne 0
    rw [show (0 : BitVec 32) <<< 8 = 0 from rfl] at hdec
    rw [hnext, show len - 1 = cs.length by omega]
    refine ⟨_, hdec, ?_⟩
    rw [foldl_or_toNat, hskip.2]
    rfl
  · rw [if_neg hskip]
    have hdec := decOctets_or h hat hdrop (List.cons_ne_nil _ _) 0
    rw [show (0 : BitVec 32) <<< 8 = 0 from rfl, List.length_cons, hlength] at hdec
    exact ⟨_, hdec, foldl_or_toNat _ 0⟩

/-- A field that is not in the chain is refused. -/
theorem decU32t_outside (h : Plain ps) (ho : (pbufBytes ps).length < o + len) (old : BitVec 32) :
    ∃ y, snmpAsn1DecU32t ps o len old = some (.arg, y) := by
  rw [snmpAsn1DecU32t]
  rcases hseek : seek o ps 0 0 with - | m
  · exact ⟨_, rfl⟩
  dsimp only
  by_cases hlen : 0 < len ∧ len < 6
  · have hlt : o < (pbufBytes ps).length := by
      by_contra hge
      rw [seek_behind h (Nat.not_lt.1 hge)] at hseek
      cases hseek
    obtain ⟨m', hseek', hat⟩ := seek_at h hlt
    obtain rfl : m' = m := Option.some.inj (hseek'.symm.trans hseek)
    obtain ⟨c, cs, hdrop⟩ := List.exists_cons_of_ne_nil (l := (pbufBytes ps).drop o) (by simpa using hlt)
    obtain ⟨hread, hrest⟩ := hat.read_cons hdrop
    have htotal := drop_length hdrop (List.cons_ne_nil _ _)
    rw [List.length_cons] at htotal
    rw [if_pos hlen, hread, Option.bind_some]
    split_ifs with hgoes hskip
    · exact ⟨_, rfl⟩
    · rcases cs with - | ⟨d, cs⟩
      · rw [hat.next_none h htotal]
        exact ⟨_, rfl⟩
      · rw [List.length_cons] at htotal
        obtain ⟨m₁, hnext, hat₁⟩ := hat.next h (by omega)
        rw [hnext]
        exact decOctets_chain_ends h hat₁ hrest (List.cons_ne_nil _ _) (by rw [List.length_cons]; omega) 0
    · exact decOctets_chain_ends h hat hdrop (List.cons_ne_nil _ _) (by rw [List.length_cons]; omega) 0
  · rw [if_neg hlen]
    exact ⟨_, rfl⟩

/-- A field of five octets that begins with neither a sign bit nor a zero: a number from `2 ^ 32` on. -/
def TooLarge (ps : List Pbuf) (o len : ℕ) : Prop :=
  len = 5 ∧ o + len ≤ (pbufBytes ps).length ∧ ∃ c ∈ (fieldOctets ps o len).head?, ¬Goes c ∧ c ≠ 0

/-- Whether a number fits, by its first octet. -/
theorem asn1Int_lt_iff (hc : ¬Goes c) (hlen : cs.length < 5) :
    asn1Int (c :: cs) < 2 ^ 32 ↔ ¬(cs.length = 4 ∧ c ≠ 0) := by
  have hbounds := foldl_putOctet_bounds cs (putOctet 0 c)
  rw [asn1Int_of_not_goes hc, List.foldl_cons]
  have hput : putOctet 0 c = c.toNat := by rw [putOctet, zero_mul, zero_add]
  have hclt := c.isLt
  rw [hput] at hbounds ⊢
  by_cases hfour : cs.length = 4
  · rw [hfour] at hbounds
    have hzero : c ≠ 0 ↔ c.toNat ≠ 0 := by
      rw [ne_eq, ne_eq, ← BitVec.toNat_inj]
      rfl
    rw [hzero]
    norm_num at hbounds ⊢
    omega
  · refine iff_of_true (hbounds.2.trans_le ?_) fun h ↦ hfour h.1
    have hpow : (256 : ℤ) ^ cs.length ≤ 256 ^ 3 := pow_le_pow_right₀ (by norm_num) (by omega)
    calc ((c.toNat : ℤ) + 1) * 256 ^ cs.length ≤ 256 * 256 ^ 3 :=
          mul_le_mul (by omega) hpow (by positivity) (by norm_num)
      _ = 2 ^ 32 := by norm_num

theorem decU32t_right_iff (h : Plain ps) (o len : ℕ) (old : BitVec 32) :
    (∃ r, snmpAsn1DecU32t ps o len old = some r ∧ U32Right ps o len r) ↔ ¬TooLarge ps o len := by
  have hrefused : (∃ y, snmpAsn1DecU32t ps o len old = some (.arg, y)) →
      ¬(1 ≤ len ∧ len ≤ 5 ∧ o + len ≤ (pbufBytes ps).length ∧ 0 ≤ asn1Int (fieldOctets ps o len) ∧
        asn1Int (fieldOctets ps o len) < 2 ^ 32) →
      ∃ r, snmpAsn1DecU32t ps o len old = some r ∧ U32Right ps o len r := by
    rintro ⟨y, hy⟩ hnot
    exact ⟨_, hy, iff_of_false nofun hnot, nofun⟩
  by_cases hlen : 0 < len ∧ len < 6
  swap
  · refine iff_of_true (hrefused ?_ (by omega)) (by rintro ⟨hfive, -⟩; omega)
    rw [snmpAsn1DecU32t]
    rcases seek o ps 0 0 with - | m
    · exact ⟨_, rfl⟩
    · exact ⟨_, if_neg hlen⟩
  by_cases ho : o + len ≤ (pbufBytes ps).length
  swap
  · exact iff_of_true (hrefused (decU32t_outside h (Nat.not_le.1 ho) old) fun hall ↦ ho hall.2.2.1) fun hlarge ↦ ho hlarge.2.1
  have hlength := fieldOctets_length ho
  obtain ⟨c, cs, hfield⟩ := List.exists_cons_of_ne_nil (l := fieldOctets ps o len) (List.ne_nil_of_length_pos (by omega))
  obtain ⟨hneg, hpos⟩ := decU32t_field h hlen ho old hfield
  have hsign := asn1Int_neg c cs
  rw [TooLarge, hfield, List.head?_cons]
  rw [hfield, List.length_cons] at hlength
  by_cases hc : Goes c
  · refine iff_of_true (hrefused ⟨_, hneg hc⟩ fun hall ↦ ?_) ?_
    · rw [hfield] at hall
      exact absurd (hsign.2 hc) (not_lt.2 hall.2.2.2.1)
    · rintro ⟨-, -, d, hd, hgoes, -⟩
      exact hgoes (Option.some.inj hd ▸ hc)
  · obtain ⟨v, hdec, hv⟩ := hpos hc
    have hfits := asn1Int_lt_iff hc (show cs.length < 5 by omega)
    have hnonneg : 0 ≤ asn1Int (c :: cs) := not_lt.1 (mt hsign.1 hc)
    have hlarge : (len = 5 ∧ o + len ≤ (pbufBytes ps).length ∧ ∃ d ∈ some c, ¬Goes d ∧ d ≠ 0) ↔
        cs.length = 4 ∧ c ≠ 0 := by
      simp only [Option.mem_some_iff, exists_eq_left', hc, not_false_eq_true, true_and, ho]
      exact and_congr_left fun _ ↦ by omega
    rw [hlarge, ← hfits]
    constructor
    · rintro ⟨r, hr, hright⟩
      have hok : r.1 = .ok := by
        rw [hdec] at hr
        rw [← Option.some.inj hr]
      have hall := hright.accepts.1 hok
      rw [hfield] at hall
      exact hall.2.2.2.2
    · intro hlt
      refine ⟨_, hdec, iff_of_true rfl ⟨hlen.1, by omega, ho, ?_, ?_⟩, fun _ ↦ ?_⟩
      · rwa [hfield]
      · rwa [hfield]
      · rw [hv, hfield]
        exact Int.emod_eq_of_lt hnonneg hlt

/-! ### Object identifiers -/

/-- The last sub-identifier of a field does not end, in the chain there is an octet behind the field, and there is room
for an element more. -/
def RunsOn (ps : List Pbuf) (o len : ℕ) : Prop :=
  o + len < (pbufBytes ps).length ∧ ¬Complete (fieldOctets ps o len).tail ∧
    2 + (subIds 0 (fieldOctets ps o len).tail).length + 1 < lwipSnmpObjIdLen

theorem map_some_set (ids : List (BitVec 32)) : none ∉ ids.map some := by simp

theorem arg_ne_ok : ErrT.arg ≠ ErrT.ok := by decide

theorem decOid_right_iff (h : Plain ps) (o len : ℕ) (oid : ObjId) :
    (∃ r, snmpAsn1DecOid ps o len oid = some r ∧ OidRight ps o len r) ↔
      ¬(len = 0 ∧ o = (pbufBytes ps).length) ∧ ¬RunsOn ps o len := by
  have hroom : lwipSnmpObjIdLen - 2 = 30 := rfl
  have hmax : lwipSnmpObjIdLen = 32 := rfl
  rcases le_or_gt (pbufBytes ps).length o with hbehind | hlt
  · -- the offset is not in the chain
    have hdec : snmpAsn1DecOid ps o len oid = some ⟨.arg, oid, []⟩ := by
      rw [snmpAsn1DecOid, seek_behind h hbehind]
    have hruns : ¬RunsOn ps o len := fun hruns ↦ absurd hruns.1 (by omega)
    rw [hdec, and_iff_left hruns]
    constructor
    · rintro ⟨r, hr, hright⟩ ⟨rfl, rfl⟩
      obtain rfl := Option.some.inj hr
      have hok := hright.accepts.2 ⟨le_rfl, by rw [fieldOctets, List.take_zero]; exact complete_nil, fun hne ↦ absurd rfl hne⟩
      cases hok
    · intro hnot
      refine ⟨_, rfl, iff_of_false arg_ne_ok fun hall ↦ hnot ?_, List.forall_mem_nil _, fun herr ↦ absurd herr arg_ne_ok⟩
      have hle := hall.1
      omega
  obtain ⟨m, hseek, hat⟩ := seek_at h hlt
  rw [snmpAsn1DecOid, hseek]
  dsimp only
  rw [and_iff_right (fun hnot ↦ by omega)]
  rcases Nat.eq_zero_or_pos len with rfl | hpos
  · have hnil : fieldOctets ps o 0 = [] := List.take_zero
    rw [if_pos rfl, RunsOn, hnil]
    refine iff_of_true ⟨_, rfl, iff_of_true rfl ⟨by omega, ?_, fun hne ↦ absurd rfl hne⟩, List.forall_mem_nil _, fun _ ↦ List.not_mem_nil⟩
      fun hruns ↦ hruns.2.1 complete_nil
    rw [hnil]
    exact complete_nil
  rw [if_neg hpos.ne']
  by_cases ho : o + len ≤ (pbufBytes ps).length
  swap
  · -- the octets are not all in the chain
    have hruns : ¬RunsOn ps o len := fun hruns ↦ absurd hruns.1 (by omega)
    obtain ⟨c, cs, hdrop⟩ := List.exists_cons_of_ne_nil (l := (pbufBytes ps).drop o) (by simpa using hlt)
    obtain ⟨hread, hrest⟩ := hat.read_cons hdrop
    have htotal := drop_length hdrop (List.cons_ne_nil _ _)
    rw [List.length_cons] at htotal
    rw [hread, Option.bind_some, if_pos (by omega), iff_true_right hruns]
    rcases eq_or_ne cs [] with rfl | hne
    · rw [hat.next_none h htotal]
      refine ⟨_, rfl, iff_of_false arg_ne_ok fun hall ↦ ho hall.1, fun i hi ↦ ?_, fun herr ↦ absurd herr arg_ne_ok⟩
      rw [List.mem_singleton.1 hi, hat.ofs]
      omega
    · have hlong := List.length_pos_iff.2 hne
      obtain ⟨m', hnext, hat'⟩ := hat.next h (by omega)
      obtain ⟨oid', rs, hloop, hrs⟩ := oidLoop_chain_ends h hat' hrest hne (show cs.length < len - 1 by omega)
        (lwipSnmpObjIdLen - 2) ((firstIds c).map some) [m.ofs]
      rw [hnext]
      refine ⟨_, hloop, iff_of_false arg_ne_ok fun hall ↦ ho hall.1, fun i hi ↦ ?_, fun herr ↦ absurd herr arg_ne_ok⟩
      rcases List.mem_append.1 hi with hi | hi
      · rw [List.mem_singleton.1 hi, hat.ofs]
        omega
      · have hle := hrs i hi
        omega
  have hlength := fieldOctets_length ho
  obtain ⟨c, cs, hfield⟩ := List.exists_cons_of_ne_nil (l := fieldOctets ps o len) (List.ne_nil_of_length_pos (by omega))
  obtain ⟨hone, hmore⟩ := decOid_field h hlt ho hfield oid
  rw [snmpAsn1DecOid, hseek] at hone hmore
  dsimp only at hone hmore
  rw [if_neg hpos.ne'] at hone hmore
  rw [RunsOn, hfield, List.tail_cons]
  rw [hfield, List.length_cons] at hlength
  rcases eq_or_ne cs [] with rfl | hne
  · -- one octet for two elements
    rw [hone rfl]
    refine iff_of_true ⟨_, rfl, iff_of_true rfl ⟨ho, ?_, fun _ ↦ ?_⟩, fun i hi ↦ ?_, fun _ ↦ map_some_set _⟩
      fun hruns ↦ hruns.2.1 complete_nil
    · rw [hfield]
      exact complete_nil
    · rw [hfield]
      simp [subIds, hmax]
    · rw [List.mem_singleton.1 hi]
      omega
  obtain ⟨m', hat', hrest, hloop⟩ := hmore hne
  rw [hloop]
  have hreads : ∀ {rs : List ℕ}, (∀ i ∈ rs, i < o + 1 + cs.length) → ∀ i ∈ [o] ++ rs, i < o + len := by
    intro rs hrs i hi
    rcases List.mem_append.1 hi with hi | hi
    · rw [List.mem_singleton.1 hi]
      omega
    · have hle := hrs i hi
      omega
  by_cases hcomplete : Complete cs
  · obtain ⟨rs, hloop, hrs⟩ := oidLoop_complete h hat' hrest hne hcomplete (lwipSnmpObjIdLen - 2) ((firstIds c).map some) [o]
    refine iff_of_true ⟨_, hloop, ?_, hreads hrs, fun _ ↦ ?_⟩ fun hruns ↦ hruns.2.1 hcomplete
    · rw [hfield, List.tail_cons]
      dsimp only
      split_ifs with hle
      · exact iff_of_true rfl ⟨ho, hcomplete, fun _ ↦ by omega⟩
      · exact iff_of_false not_false fun hall ↦ hle (by have hle' := hall.2.2 hpos.ne'; omega)
    · rw [← List.map_append]
      exact map_some_set _
  · obtain ⟨hstops, hreadson⟩ := oidLoop_truncated h hat' hrest hne hcomplete (lwipSnmpObjIdLen - 2)
      ((firstIds c).map some) [o]
    by_cases hruns : o + len < (pbufBytes ps).length ∧ 2 + (subIds 0 cs).length + 1 < lwipSnmpObjIdLen
    · refine iff_of_false ?_ (not_not.2 ⟨hruns.1, hcomplete, hruns.2⟩)
      rintro ⟨r, hr, hright⟩
      have hmem := (hreadson (by omega) (by simpa using hruns.1) r hr).2
      have hlt' := hright.reads _ hmem
      omega
    · obtain ⟨oid', rs, hloop, hrs⟩ := hstops (by
        rw [List.drop_eq_nil_iff]
        omega)
      refine iff_of_true ⟨_, hloop, iff_of_false arg_ne_ok fun hall ↦ ?_, hreads hrs, fun herr ↦ absurd herr arg_ne_ok⟩
        fun hall ↦ hruns ⟨hall.1, hall.2.2⟩
      rw [hfield] at hall
      exact hcomplete hall.2.1

/-- **The decoders accept what is valid** exactly for these fields: for `snmp_asn1_dec_u32t`, those that are not five octets
with a first one from 1 to 127; for `snmp_asn1_dec_oid`, those that are not empty at the end of the chain, and whose last
sub-identifier ends, unless nothing is behind the field or there is no room for two more elements. -/
theorem asn1_dec_right_iff (ps : List Pbuf) (h : Plain ps) (o len : ℕ) (old : BitVec 32) (oid : ObjId) :
    ((∃ r, snmpAsn1DecU32t ps o len old = some r ∧ U32Right ps o len r) ↔ ¬TooLarge ps o len) ∧
    ((∃ r, snmpAsn1DecOid ps o len oid = some r ∧ OidRight ps o len r) ↔
      ¬(len = 0 ∧ o = (pbufBytes ps).length) ∧ ¬RunsOn ps o len) :=
  ⟨decU32t_right_iff h o len old, decOid_right_iff h o len oid⟩

/-- An integer and an object identifier in a chain of two pbufs. -/
theorem asn1_dec_right_split :
    ((∃ r, snmpAsn1DecU32t [⟨[0x2b, 6], 4⟩, ⟨[0x81, 5], 2⟩] 1 3 0 = some r ∧
        U32Right [⟨[0x2b, 6], 4⟩, ⟨[0x81, 5], 2⟩] 1 3 r) ↔ ¬TooLarge [⟨[0x2b, 6], 4⟩, ⟨[0x81, 5], 2⟩] 1 3) ∧
    ((∃ r, snmpAsn1DecOid [⟨[0x2b, 6], 4⟩, ⟨[0x81, 5], 2⟩] 1 3 [] = some r ∧
        OidRight [⟨[0x2b, 6], 4⟩, ⟨[0x81, 5], 2⟩] 1 3 r) ↔
      ¬(3 = 0 ∧ 1 = (pbufBytes [⟨[0x2b, 6], 4⟩, ⟨[0x81, 5], 2⟩]).length) ∧ ¬RunsOn [⟨[0x2b, 6], 4⟩, ⟨[0x81, 5], 2⟩] 1 3) :=
  asn1_dec_right_iff [⟨[0x2b, 6], 4⟩, ⟨[0x81, 5], 2⟩] ⟨by decide, by decide⟩ 1 3 0 []

/-- **Five octets for `2 ^ 32`** are accepted as zero. Of the object identifier `2b 81` the last octet goes on: with an octet
behind it, that one is read, and it is accepted with an element that was not set. No octets at the end of a chain are
not accepted. -/
theorem asn1_dec_wrong :
    snmpAsn1DecU32t [⟨[1, 0, 0, 0, 0], 5⟩] 0 5 7 = some (.ok, 0) ∧
    (¬∃ r, snmpAsn1DecU32t [⟨[1, 0, 0, 0, 0], 5⟩] 0 5 7 = some r ∧ U32Right [⟨[1, 0, 0, 0, 0], 5⟩] 0 5 r) ∧
    snmpAsn1DecOid [⟨[0x2b, 0x81, 5], 3⟩] 0 2 [] = some ⟨.ok, [some 1, some 3, none, some 5], [0, 1, 1, 1, 2]⟩ ∧
    (¬∃ r, snmpAsn1DecOid [⟨[0x2b, 0x81, 5], 3⟩] 0 2 [] = some r ∧ OidRight [⟨[0x2b, 0x81, 5], 3⟩] 0 2 r) ∧
    ¬∃ r, snmpAsn1DecOid [⟨[0x2b], 1⟩] 1 0 [] = some r ∧ OidRight [⟨[0x2b], 1⟩] 1 0 r := by
  have hint : snmpAsn1DecU32t [⟨[1, 0, 0, 0, 0], 5⟩] 0 5 7 = some (.ok, 0) := by decide
  have hoid : snmpAsn1DecOid [⟨[0x2b, 0x81, 5], 3⟩] 0 2 [] =
      some ⟨.ok, [some 1, some 3, none, some 5], [0, 1, 1, 1, 2]⟩ := by decide
  have hempty : snmpAsn1DecOid [⟨[0x2b], 1⟩] 1 0 [] = some ⟨.arg, [], []⟩ := by decide
  refine ⟨hint, ?_, hoid, ?_, ?_⟩
  · rintro ⟨r, hr, hright⟩
    obtain rfl := Option.some.inj (hint.symm.trans hr)
    exact absurd (hright.accepts.1 rfl) (by decide)
  · rintro ⟨r, hr, hright⟩
    obtain rfl := Option.some.inj (hoid.symm.trans hr)
    exact absurd (hright.reads 2 (by decide)) (by decide)
  · rintro ⟨r, hr, hright⟩
    obtain rfl := Option.some.inj (hempty.symm.trans hr)
    cases hright.accepts.2 (by decide)

end Lwip.Core.Snmp
