import LwipPoc.Core.Snmp.Asn1RoundTrip

/-!
# Decoding object identifiers

`snmp_asn1_dec_oid` of `core/snmp/asn1_dec.c`. The first octet stands for two elements, and each of the other elements is a
sub-identifier: octets of seven bits, of which all but the last have their high bit set.

The decoder goes on until no octet is left, counting in `len`. Within a sub-identifier it stops at the last octet even if
that has its high bit set; then nothing is put into the element and nothing is taken off `len`, but the element is counted
and the place moves on (`oidLoop_truncated`). So the decoder reads what is behind the object identifier.

With what is returned goes a list of the offsets of all octets that were read.
-/

namespace Lwip.Core.Snmp

/-- `LWIP_SNMP_OBJ_ID_LEN`. -/
def lwipSnmpObjIdLen : ℕ := 32

/-- The elements of a `struct snmp_obj_id` that are counted; one that nothing was put into is `none`. -/
abbrev ObjId := List (Option (BitVec 32))

/-- What `snmp_asn1_dec_oid` returns, what is in `*oid`, and the offsets of what it read. -/
structure OidResult where
  err : ErrT
  oid : ObjId
  reads : List ℕ
  deriving DecidableEq, Repr

/-- An octet that is not the last of its sub-identifier. -/
def Goes (c : BitVec 8) : Prop := c &&& 0x80 ≠ 0

instance (c : BitVec 8) : Decidable (Goes c) := inferInstanceAs (Decidable (_ ≠ _))

/-- `(sub_id << 7) + (*msg_ptr & ~0x80)`. -/
def putSeven (subId : BitVec 32) (c : BitVec 8) : BitVec 32 := subId <<< 7 + (c &&& 0x7f).setWidth 32

/-- `while ((*msg_ptr & 0x80) && (len > 1))`: `len`, `sub_id` and the place, or nothing if the chain ends. -/
def subIdLoop (ps : List Pbuf) : ℕ → BitVec 32 → MsgPtr → List ℕ → Option (Option (ℕ × BitVec 32 × MsgPtr) × List ℕ)
  | 0, subId, m, reads => some (some (0, subId, m), reads)
  | len + 1, subId, m, reads =>
    (m.read ps).bind fun c ↦
      if Goes c ∧ 0 < len then
        match m.next ps with
        | none => some (none, reads ++ [m.ofs])
        | some m' => subIdLoop ps len (putSeven subId c) m' (reads ++ [m.ofs])
      else some (some (len + 1, subId, m), reads ++ [m.ofs])

/-- One sub-identifier: `len`, what is put into the element, and the place, or nothing if the chain ends. -/
def subIdentifier (ps : List Pbuf) (len : ℕ) (m : MsgPtr) (reads : List ℕ) :
    Option (Option (ℕ × Option (BitVec 32) × MsgPtr) × List ℕ) :=
  (m.read ps).bind fun c ↦
    if Goes c then
      (subIdLoop ps len 0 m (reads ++ [m.ofs])).bind fun r ↦
        match r with
        | (none, reads) => some (none, reads)
        | (some (len, subId, m), reads) =>
          (m.read ps).map fun c ↦
            if ¬Goes c ∧ 0 < len then (some (len - 1, some (subId <<< 7 + c.setWidth 32), m), reads ++ [m.ofs])
            else (some (len, none, m), reads ++ [m.ofs])
    else some (some (len - 1, some (c.setWidth 32), m), reads ++ [m.ofs])

/-- The loop over the sub-identifiers; there is room for some more elements. -/
def oidLoop (ps : List Pbuf) : ℕ → ℕ → MsgPtr → ObjId → List ℕ → Option OidResult
  | 0, len, _, oid, reads => some ⟨if len = 0 then .ok else .arg, oid, reads⟩
  | room + 1, len, m, oid, reads =>
    if len = 0 then some ⟨.ok, oid, reads⟩
    else
      (subIdentifier ps len m reads).bind fun r ↦
        match r with
        | (none, reads) => some ⟨.arg, oid, reads⟩
        | (some (len, elem, m), reads) =>
          if 0 < len then
            match m.next ps with
            | none => some ⟨.arg, oid, reads⟩
            | some m => oidLoop ps room len m (oid ++ [elem]) reads
          else oidLoop ps room len m (oid ++ [elem]) reads

/-- The two elements of the first octet. -/
def firstIds (c : BitVec 8) : List (BitVec 32) :=
  if c = 0x2b then [1, 3]
  else if c < 40 then [0, c.setWidth 32]
  else if c < 80 then [1, c.setWidth 32 - 40]
  else [2, c.setWidth 32 - 80]

/-- `snmp_asn1_dec_oid`, with what is in `*oid`. -/
def snmpAsn1DecOid (ps : List Pbuf) (ofs len : ℕ) (oid : ObjId) : Option OidResult :=
  match seek ofs ps 0 0 with
  | none => some ⟨.arg, oid, []⟩
  | some m =>
    if len = 0 then some ⟨.ok, [], []⟩
    else
      (m.read ps).bind fun c ↦
        if 0 < len - 1 then
          match m.next ps with
          | none => some ⟨.arg, (firstIds c).map some, [m.ofs]⟩
          | some m' => oidLoop ps (lwipSnmpObjIdLen - 2) (len - 1) m' ((firstIds c).map some) [m.ofs]
        else oidLoop ps (lwipSnmpObjIdLen - 2) (len - 1) m ((firstIds c).map some) [m.ofs]

/-! ### What the octets say -/

/-- The sub-identifiers that end in the octets; the first of them has begun. -/
def subIds : BitVec 32 → List (BitVec 8) → List (BitVec 32)
  | _, [] => []
  | subId, c :: cs => if Goes c then subIds (putSeven subId c) cs else putSeven subId c :: subIds 0 cs

/-- Every sub-identifier ends. -/
def Complete (cs : List (BitVec 8)) : Prop := ∀ c ∈ cs.getLast?, ¬Goes c

theorem complete_nil : Complete [] := by simp [Complete]

instance (cs : List (BitVec 8)) : Decidable (Complete cs) :=
  match h : cs.getLast? with
  | none => isTrue fun c hc ↦ by rw [h] at hc; cases hc
  | some c =>
    decidable_of_iff (¬Goes c) ⟨fun hc d hd ↦ by rw [h, Option.mem_some_iff] at hd; rwa [← hd],
      fun hall ↦ hall c (by rw [h]; rfl)⟩

variable {ps : List Pbuf} {m m' : MsgPtr} {o len room : ℕ} {c : BitVec 8} {cs front behind : List (BitVec 8)}
  {subId : BitVec 32} {reads : List ℕ} {oid : ObjId}

theorem putSeven_of_last (hc : ¬Goes c) (subId : BitVec 32) : putSeven subId c = subId <<< 7 + c.setWidth 32 := by
  have hlow : ∀ c : BitVec 8, ¬Goes c → c &&& 0x7f = c := by decide
  rw [putSeven, hlow c hc]

theorem subIds_front (hfront : ∀ c ∈ front, Goes c) (subId : BitVec 32) (cs : List (BitVec 8)) :
    subIds subId (front ++ cs) = subIds (front.foldl putSeven subId) cs := by
  induction front generalizing subId with
  | nil => rfl
  | cons c front ih =>
    rw [List.cons_append, subIds, if_pos (hfront c List.mem_cons_self), ih fun d hd ↦ hfront d (List.mem_cons_of_mem _ hd)]
    rfl

/-- The octets of one sub-identifier, and the others behind it. -/
theorem subIds_ends (hfront : ∀ c ∈ front, Goes c) (hc : ¬Goes c) (cs : List (BitVec 8)) :
    subIds 0 (front ++ c :: cs) = putSeven (front.foldl putSeven 0) c :: subIds 0 cs := by
  rw [subIds_front hfront, subIds, if_neg hc]

/-- Either a sub-identifier ends, or none does. -/
theorem split_ends (cs : List (BitVec 8)) :
    (∀ c ∈ cs, Goes c) ∨ ∃ front c rest, cs = front ++ c :: rest ∧ (∀ c ∈ front, Goes c) ∧ ¬Goes c := by
  induction cs with
  | nil => exact .inl nofun
  | cons c cs ih =>
    by_cases hc : Goes c
    · rcases ih with hall | ⟨front, d, rest, rfl, hfront, hd⟩
      · exact .inl (List.forall_mem_cons.2 ⟨hc, hall⟩)
      · exact .inr ⟨c :: front, d, rest, rfl, List.forall_mem_cons.2 ⟨hc, hfront⟩, hd⟩
    · exact .inr ⟨[], c, cs, rfl, nofun, hc⟩

/-! ### Steps in the chain -/

/-- Behind the last octet of the chain there is no place. -/
theorem At.next_none (h : Plain ps) (hat : At ps o m) (ho : o + 1 = (pbufBytes ps).length) : m.next ps = none := by
  obtain ⟨pre, p, post, hps, hp, hi, ho', hofs, hplen⟩ := hat
  have hsum : (pbufBytes ps).length = (pbufBytes pre).length + (p.len + (pbufBytes post).length) := by
    rw [hps, bytes_split, List.length_append, List.length_append, Pbuf.len]
  have hlt := h.lt
  have hpost : post = [] := by
    rcases post with - | ⟨q, post⟩
    · rfl
    · have hq : 0 < q.len := h.pos q (by rw [hps]; simp)
      rw [pbufBytes_cons, List.length_append, ← Pbuf.len] at hsum
      omega
  subst hpost
  rw [MsgPtr.next, hofs, hplen, Nat.mod_eq_of_lt (by omega), if_pos (by omega), hps, hp]
  simp

theorem At.ofs (hat : At ps o m) : m.ofs = o := by
  obtain ⟨-, -, -, -, -, -, -, hofs, -⟩ := hat
  exact hofs

/-- The octet at a place, and the others behind it. -/
theorem At.read_cons (hat : At ps o m) (h : (pbufBytes ps).drop o = c :: cs) :
    m.read ps = some c ∧ (pbufBytes ps).drop (o + 1) = cs := by
  have hget : ((pbufBytes ps).drop o)[0]? = some c := by
    rw [h]
    rfl
  rw [List.getElem?_drop] at hget
  refine ⟨hat.read.trans hget, ?_⟩
  rw [← List.drop_drop, h]
  rfl

theorem drop_length (h : (pbufBytes ps).drop o = cs) (hne : cs ≠ []) : o + cs.length = (pbufBytes ps).length := by
  have hlength := congrArg List.length h
  have hpos := List.length_pos_iff.2 hne
  rw [List.length_drop] at hlength
  omega

/-- Behind the end of a sub-identifier. -/
theorem drop_ends (h : (pbufBytes ps).drop o = front ++ c :: cs) : (pbufBytes ps).drop (o + front.length + 1) = cs := by
  rw [Nat.add_assoc, ← List.drop_drop, h, List.append_cons]
  exact List.drop_left' (by simp)

/-- The loop stops at the last octet of the sub-identifier, or where one octet is left. -/
theorem subIdLoop_stops (h : Plain ps) (hat : At ps o m) (hdrop : (pbufBytes ps).drop o = front ++ c :: behind)
    (hfront : ∀ c ∈ front, Goes c) (hlen : front.length < len) (hstop : ¬Goes c ∨ front.length + 1 = len) (subId : BitVec 32)
    (reads : List ℕ) :
    ∃ m' rs, subIdLoop ps len subId m reads =
        some (some (len - front.length, front.foldl putSeven subId, m'), reads ++ rs) ∧
      At ps (o + front.length) m' ∧ ∀ i ∈ rs, i ≤ o + front.length := by
  induction front generalizing o m len subId reads with
  | nil =>
    obtain ⟨len, rfl⟩ := Nat.exists_eq_add_one_of_ne_zero hlen.ne'
    refine ⟨m, [o], ?_, hat, fun i hi ↦ (List.mem_singleton.1 hi).le⟩
    rw [subIdLoop, (hat.read_cons hdrop).1, Option.bind_some, if_neg, hat.ofs]
    · rfl
    · rintro ⟨hgoes, hpos⟩
      rcases hstop with hc | hone
      · exact hc hgoes
      · rw [List.length_nil] at hone
        omega
  | cons d front ih =>
    obtain ⟨hread, hrest⟩ := hat.read_cons hdrop
    have htotal := drop_length hdrop (List.cons_ne_nil _ _)
    obtain ⟨len, rfl⟩ := Nat.exists_eq_add_one_of_ne_zero (Nat.ne_zero_of_lt hlen)
    simp only [List.length_cons, List.length_append, List.cons_append] at hlen hstop htotal
    obtain ⟨m₁, hnext, hat₁⟩ := hat.next h (by omega)
    have hlen' : front.length < len := by omega
    obtain ⟨m', rs, hloop, hat', hrs⟩ := ih hat₁ hrest (fun c hc ↦ hfront c (List.mem_cons_of_mem _ hc)) hlen'
      (hstop.imp_right (by omega)) (putSeven subId d) (reads ++ [m.ofs])
    have hplace : o + 1 + front.length = o + (d :: front).length := by
      rw [List.length_cons]
      omega
    refine ⟨m', m.ofs :: rs, ?_, hplace ▸ hat', ?_⟩
    · rw [subIdLoop, hread, Option.bind_some, if_pos ⟨hfront d List.mem_cons_self, by omega⟩, hnext]
      dsimp only
      rw [hloop, List.append_assoc, List.length_cons, Nat.add_sub_add_right]
      rfl
    · rw [hat.ofs, ← hplace]
      exact List.forall_mem_cons.2 ⟨by omega, hrs⟩

/-- The chain ends within the sub-identifier. -/
theorem subIdLoop_chain_ends (h : Plain ps) (hat : At ps o m) (hdrop : (pbufBytes ps).drop o = front) (hne : front ≠ [])
    (hfront : ∀ c ∈ front, Goes c) (hlen : front.length < len) (subId : BitVec 32) (reads : List ℕ) :
    ∃ rs, subIdLoop ps len subId m reads = some (none, reads ++ rs) ∧ ∀ i ∈ rs, i < (pbufBytes ps).length := by
  induction front generalizing o m len subId reads with
  | nil => exact absurd rfl hne
  | cons d front ih =>
    obtain ⟨hread, hrest⟩ := hat.read_cons hdrop
    have htotal := drop_length hdrop (List.cons_ne_nil _ _)
    obtain ⟨len, rfl⟩ := Nat.exists_eq_add_one_of_ne_zero (Nat.ne_zero_of_lt hlen)
    simp only [List.length_cons] at hlen htotal
    have hgoes : Goes d ∧ 0 < len := ⟨hfront d List.mem_cons_self, by omega⟩
    rw [subIdLoop, hread, Option.bind_some, if_pos hgoes]
    rcases front with - | ⟨e, front⟩
    · rw [hat.next_none h htotal]
      refine ⟨[m.ofs], rfl, ?_⟩
      rw [hat.ofs]
      exact fun i hi ↦ by rw [List.mem_singleton.1 hi]; omega
    · rw [List.length_cons] at htotal hlen
      obtain ⟨m₁, hnext, hat₁⟩ := hat.next h (by omega)
      have hlen' : (e :: front).length < len := by
        rw [List.length_cons]
        omega
      obtain ⟨rs, hloop, hrs⟩ := ih hat₁ hrest (List.cons_ne_nil _ _) (fun c hc ↦ hfront c (List.mem_cons_of_mem _ hc))
        hlen' (putSeven subId d) (reads ++ [m.ofs])
      refine ⟨m.ofs :: rs, ?_, ?_⟩
      · rw [hnext]
        dsimp only
        rw [hloop, List.append_assoc]
        rfl
      · rw [hat.ofs]
        exact List.forall_mem_cons.2 ⟨by omega, hrs⟩

/-- **A sub-identifier that ends** within the octets that are left. -/
theorem subIdentifier_ends (h : Plain ps) (hat : At ps o m) (hdrop : (pbufBytes ps).drop o = front ++ c :: behind)
    (hfront : ∀ c ∈ front, Goes c) (hc : ¬Goes c) (hlen : front.length < len) (reads : List ℕ) :
    ∃ m' rs, subIdentifier ps len m reads =
        some (some (len - (front.length + 1), some (putSeven (front.foldl putSeven 0) c), m'), reads ++ rs) ∧
      At ps (o + front.length) m' ∧ ∀ i ∈ rs, i ≤ o + front.length := by
  rcases front with - | ⟨d, front⟩
  · refine ⟨m, [o], ?_, hat, fun i hi ↦ (List.mem_singleton.1 hi).le⟩
    rw [subIdentifier, (hat.read_cons hdrop).1, Option.bind_some, if_neg hc, hat.ofs, putSeven_of_last hc]
    simp
  · have hread := (hat.read_cons hdrop).1
    obtain ⟨m', rs, hloop, hat', hrs⟩ := subIdLoop_stops h hat hdrop hfront hlen (.inl hc) 0 (reads ++ [m.ofs])
    have hlast : m'.read ps = some c := by
      rw [hat'.read, ← List.getElem?_drop, hdrop, List.getElem?_append_right le_rfl, Nat.sub_self]
      rfl
    refine ⟨m', m.ofs :: (rs ++ [m'.ofs]), ?_, hat', ?_⟩
    · rw [subIdentifier, hread, Option.bind_some, if_pos (hfront d List.mem_cons_self), hloop, Option.bind_some]
      dsimp only
      rw [hlast, Option.map_some, if_pos ⟨hc, by omega⟩, putSeven_of_last hc]
      simp [Nat.sub_sub]
    · rw [hat.ofs, hat'.ofs]
      simp only [List.mem_cons, List.mem_append, List.not_mem_nil, or_false]
      rintro i (rfl | hi | rfl)
      · omega
      · exact hrs i hi
      · exact le_rfl

/-- **One that does not end** within the octets that are left: one of them stays. -/
theorem subIdentifier_truncated (h : Plain ps) (hat : At ps o m) (hdrop : (pbufBytes ps).drop o = front ++ c :: behind)
    (hfront : ∀ c ∈ front, Goes c) (hc : Goes c) (hlen : front.length + 1 = len) (reads : List ℕ) :
    ∃ m' rs, subIdentifier ps len m reads = some (some (1, none, m'), reads ++ rs) ∧
      At ps (o + front.length) m' ∧ ∀ i ∈ rs, i ≤ o + front.length := by
  obtain ⟨d, hread, hd⟩ : ∃ d, m.read ps = some d ∧ Goes d := by
    rcases front with - | ⟨d, front⟩
    · exact ⟨c, (hat.read_cons hdrop).1, hc⟩
    · exact ⟨d, (hat.read_cons hdrop).1, hfront d List.mem_cons_self⟩
  obtain ⟨m', rs, hloop, hat', hrs⟩ := subIdLoop_stops h hat hdrop hfront (by omega) (.inr hlen) 0 (reads ++ [m.ofs])
  have hlast : m'.read ps = some c := by
    rw [hat'.read, ← List.getElem?_drop, hdrop, List.getElem?_append_right le_rfl, Nat.sub_self]
    rfl
  refine ⟨m', m.ofs :: (rs ++ [m'.ofs]), ?_, hat', ?_⟩
  · rw [subIdentifier, hread, Option.bind_some, if_pos hd, hloop, Option.bind_some]
    dsimp only
    rw [hlast, Option.map_some, if_neg fun hn ↦ hn.1 hc]
    simp [← hlen]
  · rw [hat.ofs, hat'.ofs]
    simp only [List.mem_cons, List.mem_append, List.not_mem_nil, or_false]
    rintro i (rfl | hi | rfl)
    · omega
    · exact hrs i hi
    · exact le_rfl

/-- **The chain ends** before the sub-identifier does, and before the octets that are left. -/
theorem subIdentifier_chain_ends (h : Plain ps) (hat : At ps o m) (hdrop : (pbufBytes ps).drop o = front) (hne : front ≠ [])
    (hfront : ∀ c ∈ front, Goes c) (hlen : front.length < len) (reads : List ℕ) :
    ∃ rs, subIdentifier ps len m reads = some (none, reads ++ rs) ∧ ∀ i ∈ rs, i < (pbufBytes ps).length := by
  obtain ⟨rs, hloop, hrs⟩ := subIdLoop_chain_ends h hat hdrop hne hfront hlen 0 (reads ++ [m.ofs])
  obtain ⟨d, front, rfl⟩ := List.exists_cons_of_ne_nil hne
  refine ⟨m.ofs :: rs, ?_, ?_⟩
  · rw [subIdentifier, (hat.read_cons hdrop).1, Option.bind_some, if_pos (hfront d List.mem_cons_self), hloop,
      Option.bind_some, List.append_assoc]
    rfl
  · rw [hat.ofs]
    exact List.forall_mem_cons.2 ⟨hat.lt, hrs⟩

/-! ### The whole loop -/

theorem complete_append (hne : cs ≠ []) (front : List (BitVec 8)) : Complete (front ++ cs) ↔ Complete cs := by
  rw [Complete, Complete, List.getLast?_append_of_ne_nil _ hne]

theorem complete_ends (hc : ¬Goes c) (front cs : List (BitVec 8)) : Complete (front ++ c :: cs) ↔ Complete cs := by
  rcases cs with - | ⟨d, cs⟩
  · rw [complete_append (List.cons_ne_nil _ _)]
    refine iff_of_true (fun d hd ↦ ?_) nofun
    obtain rfl : c = d := Option.some.inj hd
    exact hc
  · rw [List.append_cons, complete_append (List.cons_ne_nil _ _)]

theorem not_complete (hall : ∀ c ∈ cs, Goes c) (hne : cs ≠ []) : ¬Complete cs :=
  fun h ↦ h _ (List.getLast?_eq_getLast_of_ne_nil hne) (hall _ (List.getLast_mem hne))

attribute [local simp] oidLoop

theorem oidLoop_end (ps : List Pbuf) (room : ℕ) (m : MsgPtr) (oid : ObjId) (reads : List ℕ) :
    oidLoop ps room 0 m oid reads = some ⟨.ok, oid, reads⟩ := by
  cases room <;> rfl

/-- One turn of the loop, at the end of a sub-identifier behind which there are other octets. -/
theorem oidLoop_next {room : ℕ} {reads' : List ℕ} {elem : Option (BitVec 32)} {m₁ m₂ : MsgPtr} {n : ℕ} (hlen : len ≠ 0)
    (hid : subIdentifier ps len m reads = some (some (n, elem, m₁), reads')) (hn : 0 < n) (hnext : m₁.next ps = some m₂) :
    oidLoop ps (room + 1) len m oid reads = oidLoop ps room n m₂ (oid ++ [elem]) reads' := by
  rw [oidLoop, if_neg hlen, hid, Option.bind_some]
  dsimp only
  rw [if_pos hn, hnext]

/-- **Where every sub-identifier ends**, the loop returns them, as far as there is room for them. -/
theorem oidLoop_complete (h : Plain ps) (hat : At ps o m) (hdrop : (pbufBytes ps).drop o = cs ++ behind) (hne : cs ≠ [])
    (hcomplete : Complete cs) (room : ℕ) (oid : ObjId) (reads : List ℕ) :
    ∃ rs, oidLoop ps room cs.length m oid reads =
        some ⟨if (subIds 0 cs).length ≤ room then .ok else .arg, oid ++ ((subIds 0 cs).take room).map some, reads ++ rs⟩ ∧
      ∀ i ∈ rs, i < o + cs.length := by
  induction room generalizing o m cs oid reads with
  | zero =>
    have hpos : subIds 0 cs ≠ [] := by
      rcases split_ends cs with hall | ⟨front, c, rest, rfl, hfront, hc⟩
      · exact absurd hcomplete (not_complete hall hne)
      · rw [subIds_ends hfront hc]
        exact List.cons_ne_nil _ _
    refine ⟨[], ?_, nofun⟩
    rw [oidLoop, if_neg (List.length_pos_iff.2 hne).ne', if_neg (Nat.not_le.2 (List.length_pos_iff.2 hpos))]
    simp
  | succ room ih =>
    rcases split_ends cs with hall | ⟨front, c, rest, rfl, hfront, hc⟩
    · exact absurd hcomplete (not_complete hall hne)
    rw [List.append_assoc, List.cons_append] at hdrop
    have htotal := drop_length hdrop (by simp)
    have hlength : (front ++ c :: rest).length = front.length + 1 + rest.length := by
      rw [List.length_append, List.length_cons]
      omega
    obtain ⟨m₁, rs, hid, hat₁, hrs⟩ := subIdentifier_ends h hat hdrop hfront hc
      (show _ < (front ++ c :: rest).length by omega) reads
    rw [hlength, Nat.add_sub_cancel_left, ← hlength] at hid
    rw [subIds_ends hfront hc, List.length_cons, List.take_succ_cons, List.map_cons]
    rw [complete_ends hc] at hcomplete
    rcases eq_or_ne rest [] with rfl | hrest
    · refine ⟨rs, ?_, fun i hi ↦ (Nat.lt_succ_of_le (hrs i hi)).trans_le (by rw [hlength]; omega)⟩
      rw [oidLoop, if_neg (by omega), hid, Option.bind_some]
      dsimp only
      rw [if_neg (by simp), List.length_nil, oidLoop_end]
      simp [subIds]
    · have hpos := List.length_pos_iff.2 hrest
      simp only [List.length_append, List.length_cons] at htotal
      obtain ⟨m₂, hnext, hat₂⟩ := hat₁.next h (by omega)
      obtain ⟨rs', hloop, hrs'⟩ := ih hat₂ (drop_ends hdrop) hrest hcomplete
        (oid ++ [some (putSeven (front.foldl putSeven 0) c)]) (reads ++ rs)
      refine ⟨rs ++ rs', ?_, fun i hi ↦ ?_⟩
      · rw [oidLoop_next (by omega) hid hpos hnext, hloop]
        simp only [List.append_assoc, List.singleton_append, Nat.add_le_add_iff_right]
      · rw [hlength]
        rcases List.mem_append.1 hi with hi | hi
        · have hle := hrs i hi
          omega
        · have hlt := hrs' i hi
          omega

/-- **Where the octets are not all in the chain**, the loop comes to its end. -/
theorem oidLoop_chain_ends (h : Plain ps) (hat : At ps o m) (hdrop : (pbufBytes ps).drop o = cs) (hne : cs ≠ [])
    (hlen : cs.length < len) (room : ℕ) (oid : ObjId) (reads : List ℕ) :
    ∃ oid' rs, oidLoop ps room len m oid reads = some ⟨.arg, oid', reads ++ rs⟩ ∧ ∀ i ∈ rs, i < (pbufBytes ps).length := by
  induction room generalizing o m cs len oid reads with
  | zero =>
    refine ⟨oid, [], ?_, nofun⟩
    rw [oidLoop, if_neg (Nat.ne_zero_of_lt hlen), List.append_nil]
  | succ room ih =>
    have htotal := drop_length hdrop hne
    rcases split_ends cs with hall | ⟨front, c, rest, rfl, hfront, hc⟩
    · obtain ⟨rs, hid, hrs⟩ := subIdentifier_chain_ends h hat hdrop hne hall hlen reads
      refine ⟨oid, rs, ?_, hrs⟩
      rw [oidLoop, if_neg (Nat.ne_zero_of_lt hlen), hid, Option.bind_some]
    rw [List.length_append, List.length_cons] at hlen htotal
    obtain ⟨m₁, rs, hid, hat₁, hrs⟩ := subIdentifier_ends h hat hdrop hfront hc (show _ < len by omega) reads
    have hpos : 0 < len - (front.length + 1) := by omega
    have hrs : ∀ i ∈ rs, i < (pbufBytes ps).length := fun i hi ↦ (Nat.lt_succ_of_le (hrs i hi)).trans_le (by omega)
    rcases eq_or_ne rest [] with rfl | hrest
    · refine ⟨oid, rs, ?_, hrs⟩
      rw [List.length_nil] at htotal
      rw [oidLoop, if_neg (by omega), hid, Option.bind_some]
      dsimp only
      rw [if_pos hpos, hat₁.next_none h (by omega)]
    · have hlong := List.length_pos_iff.2 hrest
      obtain ⟨m₂, hnext, hat₂⟩ := hat₁.next h (by omega)
      have hlen' : rest.length < len - (front.length + 1) := by omega
      obtain ⟨oid', rs', hloop, hrs'⟩ := ih hat₂ (drop_ends hdrop) hrest hlen'
        (oid ++ [some (putSeven (front.foldl putSeven 0) c)]) (reads ++ rs)
      refine ⟨oid', rs ++ rs', ?_, fun i hi ↦ (List.mem_append.1 hi).elim (hrs i) (hrs' i)⟩
      rw [oidLoop_next (by omega) hid hpos hnext, hloop, List.append_assoc]

/-! ### Reading on -/

theorem subIdLoop_grows {r : Option (ℕ × BitVec 32 × MsgPtr)} {reads' : List ℕ}
    (hr : subIdLoop ps len subId m reads = some (r, reads')) : reads <+: reads' := by
  induction len generalizing subId m reads with
  | zero =>
    obtain ⟨-, rfl⟩ := Prod.mk.inj (Option.some.inj hr)
    exact List.prefix_rfl
  | succ len ih =>
    rw [subIdLoop] at hr
    obtain ⟨c, -, hr⟩ := Option.bind_eq_some_iff.1 hr
    split_ifs at hr with hgoes
    · rcases hnext : m.next ps with - | m'
      · rw [hnext] at hr
        obtain ⟨-, rfl⟩ := Prod.mk.inj (Option.some.inj hr)
        exact List.prefix_append _ _
      · rw [hnext] at hr
        exact (List.prefix_append _ _).trans (ih hr)
    · obtain ⟨-, rfl⟩ := Prod.mk.inj (Option.some.inj hr)
      exact List.prefix_append _ _

/-- The first octet is read. -/
theorem subIdentifier_grows {r : Option (ℕ × Option (BitVec 32) × MsgPtr)} {reads' : List ℕ}
    (hr : subIdentifier ps len m reads = some (r, reads')) : reads ++ [m.ofs] <+: reads' := by
  rw [subIdentifier] at hr
  obtain ⟨c, -, hr⟩ := Option.bind_eq_some_iff.1 hr
  split_ifs at hr with hgoes
  · obtain ⟨⟨x, reads₁⟩, hloop, hr⟩ := Option.bind_eq_some_iff.1 hr
    have hgrows := subIdLoop_grows hloop
    rcases x with - | ⟨len', subId', m'⟩
    · obtain ⟨-, rfl⟩ := Prod.mk.inj (Option.some.inj hr)
      exact hgrows
    · obtain ⟨d, -, hr⟩ := Option.map_eq_some_iff.1 hr
      split_ifs at hr
      all_goals
        obtain ⟨-, rfl⟩ := Prod.mk.inj hr
        exact hgrows.trans (List.prefix_append _ _)
  · obtain ⟨-, rfl⟩ := Prod.mk.inj (Option.some.inj hr)
    exact List.prefix_rfl

/-- Nothing is taken back. -/
theorem oidLoop_grows {r : OidResult} (hr : oidLoop ps room len m oid reads = some r) :
    oid <+: r.oid ∧ reads <+: r.reads := by
  induction room generalizing len m oid reads with
  | zero =>
    obtain rfl := Option.some.inj hr
    exact ⟨List.prefix_rfl, List.prefix_rfl⟩
  | succ room ih =>
    rw [oidLoop] at hr
    split_ifs at hr with hlen
    · obtain rfl := Option.some.inj hr
      exact ⟨List.prefix_rfl, List.prefix_rfl⟩
    obtain ⟨⟨x, reads₁⟩, hid, hr⟩ := Option.bind_eq_some_iff.1 hr
    have hgrows := (List.prefix_append _ _).trans (subIdentifier_grows hid)
    have hmore : ∀ {len m elem}, oidLoop ps room len m (oid ++ [elem]) reads₁ = some r →
        oid <+: r.oid ∧ reads <+: r.reads := by
      intro len m elem hr
      obtain ⟨hoid, hreads⟩ := ih hr
      exact ⟨(List.prefix_append _ _).trans hoid, hgrows.trans hreads⟩
    rcases x with - | ⟨len', elem, m₁⟩
    · obtain rfl := Option.some.inj hr
      exact ⟨List.prefix_rfl, hgrows⟩
    dsimp only at hr
    split_ifs at hr with hpos
    · rcases hnext : m₁.next ps with - | m₂
      · rw [hnext] at hr
        obtain rfl := Option.some.inj hr
        exact ⟨List.prefix_rfl, hgrows⟩
      · rw [hnext] at hr
        exact hmore hr
    · exact hmore hr

/-- **Where the last sub-identifier does not end**, the loop comes to an end of its own or reads what is behind. -/
theorem oidLoop_truncated (h : Plain ps) (hat : At ps o m) (hdrop : (pbufBytes ps).drop o = cs ++ behind) (hne : cs ≠ [])
    (hcomplete : ¬Complete cs) (room : ℕ) (oid : ObjId) (reads : List ℕ) :
    (room ≤ (subIds 0 cs).length + 1 ∨ behind = [] →
      ∃ oid' rs, oidLoop ps room cs.length m oid reads = some ⟨.arg, oid', reads ++ rs⟩ ∧ ∀ i ∈ rs, i < o + cs.length) ∧
    ((subIds 0 cs).length + 1 < room → behind ≠ [] →
      ∀ r, oidLoop ps room cs.length m oid reads = some r → none ∈ r.oid ∧ o + cs.length ∈ r.reads) := by
  have hlen := (List.length_pos_iff.2 hne).ne'
  induction room generalizing o m cs oid reads with
  | zero =>
    refine ⟨fun _ ↦ ⟨oid, [], ?_, nofun⟩, fun hroom ↦ absurd hroom (Nat.not_lt_zero _)⟩
    rw [oidLoop, if_neg hlen, List.append_nil]
  | succ room ih =>
    have htotal := drop_length hdrop (by simp [hne])
    rw [List.length_append] at htotal
    rcases split_ends cs with hall | ⟨front, c, rest, rfl, hfront, hc⟩
    · have hnone : subIds 0 cs = [] := by
        have hfront := subIds_front hall 0 []
        rwa [List.append_nil] at hfront
      obtain ⟨front, c, rfl⟩ := (List.eq_nil_or_concat' cs).resolve_left hne
      have hlength : (front ++ [c]).length = front.length + 1 := by rw [List.length_append]; rfl
      rw [List.append_assoc, List.singleton_append] at hdrop
      obtain ⟨m₁, rs, hid, hat₁, hrs⟩ := subIdentifier_truncated h hat hdrop (fun d hd ↦ hall d (List.mem_append_left _ hd))
        (hall c (by simp)) hlength.symm reads
      have hrs : ∀ i ∈ rs, i < o + (front ++ [c]).length := fun i hi ↦ (Nat.lt_succ_of_le (hrs i hi)).trans_le (by omega)
      rw [hnone, List.length_nil, Nat.zero_add]
      rcases eq_or_ne behind [] with rfl | hbehind
      · refine ⟨fun _ ↦ ⟨oid, rs, ?_, hrs⟩, fun _ hcontra ↦ absurd rfl hcontra⟩
        rw [List.length_nil] at htotal
        rw [oidLoop, if_neg hlen, hid, Option.bind_some]
        dsimp only
        rw [if_pos Nat.one_pos, hat₁.next_none h (by omega)]
      · have hpos := List.length_pos_iff.2 hbehind
        obtain ⟨m₂, hnext, hat₂⟩ := hat₁.next h (by omega)
        rw [oidLoop_next hlen hid Nat.one_pos hnext]
        refine ⟨fun hroom ↦ ?_, fun hroom _ r hr ↦ ?_⟩
        · obtain rfl : room = 0 := by
            have hle := hroom.resolve_right hbehind
            omega
          exact ⟨_, rs, rfl, hrs⟩
        · obtain ⟨room, rfl⟩ := Nat.exists_eq_add_one_of_ne_zero (show room ≠ 0 by omega)
          refine ⟨(oidLoop_grows hr).1.subset (by simp), ?_⟩
          rw [oidLoop, if_neg Nat.one_ne_zero] at hr
          obtain ⟨⟨x, reads₁⟩, hid₂, hr⟩ := Option.bind_eq_some_iff.1 hr
          have hmem : o + (front ++ [c]).length ∈ reads₁ := by
            refine (subIdentifier_grows hid₂).subset (List.mem_append_right _ (List.mem_singleton.2 ?_))
            rw [hat₂.ofs, hlength, Nat.add_assoc]
          rcases x with - | ⟨len', elem, m₃⟩
          · obtain rfl := Option.some.inj hr
            exact hmem
          dsimp only at hr
          split_ifs at hr with hmore
          · rcases hnext₃ : m₃.next ps with - | m₄
            · rw [hnext₃] at hr
              obtain rfl := Option.some.inj hr
              exact hmem
            · rw [hnext₃] at hr
              exact (oidLoop_grows hr).2.subset hmem
          · exact (oidLoop_grows hr).2.subset hmem
    · rw [complete_ends hc] at hcomplete
      have hrest : rest ≠ [] := by
        rintro rfl
        exact hcomplete nofun
      rw [List.append_assoc, List.cons_append] at hdrop
      have hlength : (front ++ c :: rest).length = front.length + 1 + rest.length := by
        rw [List.length_append, List.length_cons]
        omega
      obtain ⟨m₁, rs, hid, hat₁, hrs⟩ := subIdentifier_ends h hat hdrop hfront hc (show _ < (front ++ c :: rest).length by omega)
        reads
      rw [hlength, Nat.add_sub_cancel_left, ← hlength] at hid
      have hpos := List.length_pos_iff.2 hrest
      obtain ⟨m₂, hnext, hat₂⟩ := hat₁.next h (by omega)
      obtain ⟨hstops, hreads⟩ := ih hat₂ (drop_ends hdrop) hrest hcomplete
        (oid ++ [some (putSeven (front.foldl putSeven 0) c)]) (reads ++ rs) hpos.ne'
      have hplace : o + front.length + 1 + rest.length = o + (front ++ c :: rest).length := by omega
      rw [subIds_ends hfront hc, List.length_cons, oidLoop_next hlen hid hpos hnext]
      rw [hplace] at hstops hreads
      refine ⟨fun hroom ↦ ?_, fun hroom ↦ hreads (by omega)⟩
      obtain ⟨oid', rs', hloop, hrs'⟩ := hstops (hroom.imp_left (by omega))
      refine ⟨oid', rs ++ rs', by rw [hloop, List.append_assoc], fun i hi ↦ ?_⟩
      rcases List.mem_append.1 hi with hi | hi
      · have hle := hrs i hi
        omega
      · exact hrs' i hi

/-! ### Fields -/

/-- The octets of a field. -/
def fieldOctets (ps : List Pbuf) (o len : ℕ) : List (BitVec 8) := ((pbufBytes ps).drop o).take len

theorem fieldOctets_length (ho : o + len ≤ (pbufBytes ps).length) : (fieldOctets ps o len).length = len := by
  rw [fieldOctets, List.length_take, List.length_drop]
  omega

theorem drop_field (ps : List Pbuf) (o len : ℕ) : (pbufBytes ps).drop o = fieldOctets ps o len ++ (pbufBytes ps).drop (o + len) := by
  rw [fieldOctets, ← List.drop_drop, List.take_append_drop]

/-- Behind the first octet of a field in the chain, the loop has the others. -/
theorem decOid_field (h : Plain ps) (hlt : o < (pbufBytes ps).length) (ho : o + len ≤ (pbufBytes ps).length)
    (hfield : fieldOctets ps o len = c :: cs) (old : ObjId) :
    (cs = [] → snmpAsn1DecOid ps o len old = some ⟨.ok, (firstIds c).map some, [o]⟩) ∧
    (cs ≠ [] → ∃ m', At ps (o + 1) m' ∧ (pbufBytes ps).drop (o + 1) = cs ++ (pbufBytes ps).drop (o + len) ∧
      snmpAsn1DecOid ps o len old = oidLoop ps (lwipSnmpObjIdLen - 2) cs.length m' ((firstIds c).map some) [o]) := by
  have hlength := fieldOctets_length ho
  have hdrop := drop_field ps o len
  rw [hfield] at hlength hdrop
  rw [List.length_cons] at hlength
  obtain ⟨m, hseek, hat⟩ := seek_at h hlt
  obtain ⟨hread, hrest⟩ := hat.read_cons hdrop
  rw [snmpAsn1DecOid, hseek]
  dsimp only
  rw [if_neg (by omega), hread, Option.bind_some, hat.ofs, show len - 1 = cs.length by omega]
  refine ⟨?_, fun hne ↦ ?_⟩
  · rintro rfl
    rw [List.length_nil, if_neg (lt_irrefl 0), oidLoop_end]
  · have hlong := List.length_pos_iff.2 hne
    obtain ⟨m', hnext, hat'⟩ := hat.next h (by omega)
    refine ⟨m', hat', hrest, ?_⟩
    rw [if_pos hlong, hnext]

end Lwip.Core.Snmp
