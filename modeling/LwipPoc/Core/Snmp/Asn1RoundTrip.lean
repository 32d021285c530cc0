import LwipPoc.Core.Snmp.Asn1

/-!
# ASN.1 scalars come back

In a chain without empty pbufs, whose bytes can be counted in a `u16_t`, a place that is reached from an offset
is the one of the octet at that offset (`At`). Writing from there on replaces octets one after another
(`Wrote`), and reading gives what is there. What is left is arithmetic: the octets of an integer are its shifts
by multiples of eight bits, and each of them, put behind the shift before it, gives the next (`decOctets_spec`).
-/

namespace Lwip.Core.Snmp

variable {ps ps' ps'' : List Pbuf} {m : MsgPtr} {o n : ℕ} {c : BitVec 8} {cs : List (BitVec 8)}

/-! ### The place of an octet -/

/-- The chain has no empty pbuf, and its bytes can be counted. -/
structure Plain (ps : List Pbuf) : Prop where
  pos : ∀ p ∈ ps, 0 < p.len
  lt : (pbufBytes ps).length < 2 ^ 16

/-- **The place of the octet at `o`.** -/
def At (ps : List Pbuf) (o : ℕ) (m : MsgPtr) : Prop :=
  ∃ pre p post, ps = pre ++ p :: post ∧ m.p = pre.length ∧ m.i < p.len ∧ o = (pbufBytes pre).length + m.i ∧
    m.ofs = o ∧ m.plen = (pbufBytes pre).length + p.len

attribute [local simp] seek

theorem bytes_split (pre : List Pbuf) (p : Pbuf) (post : List Pbuf) :
    pbufBytes (pre ++ p :: post) = pbufBytes pre ++ (p.payload ++ pbufBytes post) := by
  rw [pbufBytes_append, pbufBytes_cons]

theorem seek_at (h : Plain ps) (ho : o < (pbufBytes ps).length) : ∃ m, seek o ps 0 0 = some m ∧ At ps o m := by
  have hfrom : ∀ post pre, ps = pre ++ post → (pbufBytes pre).length ≤ o →
      ∃ m, seek o post pre.length (pbufBytes pre).length = some m ∧ At ps o m := by
    intro post
    induction post with
    | nil =>
      intro pre hps hle
      rw [List.append_nil] at hps
      rw [hps] at ho
      omega
    | cons p post ih =>
      intro pre hps hle
      have hsum : (pbufBytes ps).length = (pbufBytes pre).length + (p.len + (pbufBytes post).length) := by
        rw [hps, bytes_split, List.length_append, List.length_append, Pbuf.len]
      have hlt := h.lt
      rw [seek, Nat.mod_eq_of_lt (by omega)]
      by_cases hin : o < (pbufBytes pre).length + p.len
      · refine ⟨_, if_pos hin, pre, p, post, hps, rfl, ?_, ?_, rfl, rfl⟩ <;> dsimp only <;> omega
      · rw [if_neg hin]
        have hlength : (pbufBytes (pre ++ [p])).length = (pbufBytes pre).length + p.len := by
          rw [pbufBytes_append, List.length_append, pbufBytes_cons, pbufBytes_nil, List.append_nil, Pbuf.len]
        obtain ⟨m, hm, hat⟩ := ih (pre ++ [p]) (by rw [hps, List.append_assoc]; rfl) (by omega)
        rw [List.length_append, hlength] at hm
        exact ⟨m, hm, hat⟩
  exact hfrom ps [] rfl (Nat.zero_le _)

/-- Behind the last octet there is no place. -/
theorem seek_behind (h : Plain ps) (ho : (pbufBytes ps).length ≤ o) : seek o ps 0 0 = none := by
  have hfrom : ∀ post k base, base + (pbufBytes post).length = (pbufBytes ps).length → seek o post k base = none := by
    intro post
    induction post with
    | nil => exact fun _ _ _ ↦ rfl
    | cons p post ih =>
      intro k base hsum
      rw [pbufBytes_cons, List.length_append, ← Pbuf.len] at hsum
      have hlt := h.lt
      rw [seek, Nat.mod_eq_of_lt (by omega), if_neg (by omega)]
      exact ih _ _ (by omega)
  exact hfrom ps 0 0 (Nat.zero_add _)

/-- The next octet. -/
theorem At.next (h : Plain ps) (hat : At ps o m) (ho : o + 1 < (pbufBytes ps).length) :
    ∃ m', m.next ps = some m' ∧ At ps (o + 1) m' := by
  obtain ⟨pre, p, post, hps, hp, hi, ho', hofs, hplen⟩ := hat
  have hsum : (pbufBytes ps).length = (pbufBytes pre).length + (p.len + (pbufBytes post).length) := by
    rw [hps, bytes_split, List.length_append, List.length_append, Pbuf.len]
  have hlt := h.lt
  rw [MsgPtr.next, hofs, hplen, Nat.mod_eq_of_lt (by omega)]
  by_cases hend : (pbufBytes pre).length + p.len ≤ o + 1
  · rw [if_pos hend]
    cases post with
    | nil =>
      rw [pbufBytes_nil, List.length_nil] at hsum
      omega
    | cons q post =>
      have hq : ps[m.p + 1]? = some q := by
        rw [hps, hp, List.getElem?_append_right (Nat.le_succ _), Nat.succ_sub le_rfl, Nat.sub_self]
        rfl
      have hqpos : 0 < q.len := h.pos q (by rw [hps]; simp)
      have hlength : (pbufBytes (pre ++ [p])).length = (pbufBytes pre).length + p.len := by
        rw [pbufBytes_append, List.length_append, pbufBytes_cons, pbufBytes_nil, List.append_nil, Pbuf.len]
      rw [pbufBytes_cons, List.length_append, ← Pbuf.len] at hsum
      refine ⟨_, congrArg (Option.map _) hq, pre ++ [p], q, post, ?_, ?_, hqpos, ?_, rfl, ?_⟩
      · rw [hps, List.append_assoc]
        rfl
      · rw [List.length_append, hp]
        rfl
      · rw [hlength]
        dsimp only
        omega
      · rw [hlength]
        exact Nat.mod_eq_of_lt (by omega)
  · rw [if_neg hend]
    refine ⟨_, rfl, pre, p, post, hps, hp, ?_, ?_, rfl, rfl⟩ <;> dsimp only <;> omega

/-- The octet is read. -/
theorem At.read (hat : At ps o m) : m.read ps = (pbufBytes ps)[o]? := by
  obtain ⟨pre, p, post, hps, hp, hi, ho, -, -⟩ := hat
  rw [MsgPtr.read, hps, hp, List.getElem?_append_right le_rfl, Nat.sub_self, List.getElem?_cons_zero, Option.bind_some,
    bytes_split, ho, List.getElem?_append_right (Nat.le_add_right ..), Nat.add_sub_cancel_left,
    List.getElem?_append_left hi]

theorem At.lt (hat : At ps o m) : o < (pbufBytes ps).length := by
  obtain ⟨pre, p, post, hps, hp, hi, ho, -, -⟩ := hat
  rw [hps, bytes_split, List.length_append, List.length_append, ← Pbuf.len, ho]
  omega

/-! ### What was written -/

/-- **The octets `cs` were written at `o`**, and nothing else: the pbufs have their lengths and totals, and
all other bytes are as they were. -/
structure Wrote (ps : List Pbuf) (o : ℕ) (cs : List (BitVec 8)) (ps' : List Pbuf) : Prop where
  shape : ps'.map (fun p ↦ (p.len, p.totLen)) = ps.map fun p ↦ (p.len, p.totLen)
  bytes : pbufBytes ps' = (pbufBytes ps).take o ++ cs ++ (pbufBytes ps).drop (o + cs.length)

theorem length_of_shape (h : ps'.map (fun p ↦ (p.len, p.totLen)) = ps.map fun p ↦ (p.len, p.totLen)) :
    (pbufBytes ps').length = (pbufBytes ps).length := by
  have hlen : ∀ qs : List Pbuf, (pbufBytes qs).length = ((qs.map fun p ↦ (p.len, p.totLen)).map Prod.fst).sum := by
    intro qs
    rw [pbufBytes, List.length_flatMap, List.map_map]
    rfl
  rw [hlen, hlen, h]

theorem Plain.of_shape (h : Plain ps)
    (hshape : ps'.map (fun p ↦ (p.len, p.totLen)) = ps.map fun p ↦ (p.len, p.totLen)) : Plain ps' := by
  refine ⟨fun p hp ↦ ?_, (length_of_shape hshape).trans_lt h.lt⟩
  have hmem : (p.len, p.totLen) ∈ ps.map fun p ↦ (p.len, p.totLen) := hshape ▸ List.mem_map_of_mem hp
  obtain ⟨q, hq, heq⟩ := List.mem_map.1 hmem
  exact (h.pos q hq).trans_eq (congrArg Prod.fst heq)

/-- The place of an octet does not depend on what is in the chain. -/
theorem At.of_shape (hat : At ps o m)
    (hshape : ps'.map (fun p ↦ (p.len, p.totLen)) = ps.map fun p ↦ (p.len, p.totLen)) : At ps' o m := by
  obtain ⟨pre, p, post, rfl, hp, hi, ho, hofs, hplen⟩ := hat
  rw [List.map_append, List.map_cons] at hshape
  obtain ⟨pre', rest', rfl, hpre, hrest⟩ := List.map_eq_append_iff.1 hshape
  obtain ⟨p', post', rfl, hp', -⟩ := List.map_eq_cons_iff.1 hrest
  have hlen : p'.len = p.len := congrArg Prod.fst hp'
  have hbytes := length_of_shape hpre
  have hlength : pre'.length = pre.length := by
    rw [← List.length_map fun p : Pbuf ↦ (p.len, p.totLen), hpre, List.length_map]
  exact ⟨pre', p', post', rfl, hp.trans hlength.symm, hi.trans_eq hlen.symm, by rw [hbytes]; exact ho, hofs,
    by rw [hbytes, hlen]; exact hplen⟩

theorem Wrote.refl (ps : List Pbuf) (o : ℕ) : Wrote ps o [] ps := by
  refine ⟨rfl, ?_⟩
  rw [List.append_nil, List.length_nil, Nat.add_zero, List.take_append_drop]

theorem Wrote.append {cs' : List (BitVec 8)} (h : Wrote ps o cs ps') (h' : Wrote ps' (o + cs.length) cs' ps'')
    (ho : o ≤ (pbufBytes ps).length) : Wrote ps o (cs ++ cs') ps'' := by
  refine ⟨h'.shape.trans h.shape, ?_⟩
  have hfront : ((pbufBytes ps).take o ++ cs).length = o + cs.length := by
    rw [List.length_append, List.length_take, min_eq_left ho]
  rw [h'.bytes, h.bytes, List.take_left' hfront, List.drop_append, hfront, List.drop_of_length_le (by omega),
    List.nil_append, List.drop_drop, List.append_assoc (List.take o _), List.length_append]
  congr 2
  omega

theorem Wrote.cons (h : Wrote ps o [c] ps') (h' : Wrote ps' (o + 1) cs ps'') (ho : o < (pbufBytes ps).length) :
    Wrote ps o (c :: cs) ps'' := h.append h' ho.le

/-- One octet is written. -/
theorem At.write (hat : At ps o m) (c : BitVec 8) : ∃ ps', m.write ps c = some ps' ∧ Wrote ps o [c] ps' := by
  obtain ⟨old, hread⟩ : ∃ old, m.read ps = some old := ⟨_, hat.read.trans (List.getElem?_eq_getElem hat.lt)⟩
  obtain ⟨pre, p, post, hps, hp, hi, ho, -, -⟩ := hat
  have hmodify : ps.modify m.p (Pbuf.write · m.i c) = pre ++ p.write m.i c :: post := by
    rw [hps, hp, modify_at]
  refine ⟨_, by rw [MsgPtr.write, hread, Option.map_some, hmodify], ?_, ?_⟩
  · rw [hps, List.map_append, List.map_append, List.map_cons, List.map_cons, Pbuf.write_len]
    rfl
  · have hset : (p.write m.i c).payload = p.payload.take m.i ++ c :: p.payload.drop (m.i + 1) :=
      List.set_eq_take_append_cons_drop.trans (if_pos hi)
    have htake : (p.payload.take m.i).length = m.i := by
      rw [List.length_take]
      exact min_eq_left hi.le
    have hone : [c].length = 1 := rfl
    rw [bytes_split, hps, bytes_split, hset, ho, hone, List.take_length_add_append, Nat.add_assoc,
      List.drop_length_add_append, List.take_append_of_le_length hi.le, List.drop_append_of_le_length hi]
    simp only [List.append_assoc, List.cons_append, List.nil_append]

/-- The octets that were written are there. -/
theorem Wrote.begins (h : Wrote ps o cs ps') (ho : o ≤ (pbufBytes ps).length) : cs <+: (pbufBytes ps').drop o := by
  have hlength : ((pbufBytes ps).take o).length = o := by
    rw [List.length_take]
    exact min_eq_left ho
  rw [h.bytes, List.append_assoc, List.drop_left' hlength]
  exact List.prefix_append _ _

/-- The first of the octets that are there, and the others behind it. -/
theorem At.read_prefix (hat : At ps o m) (h : c :: cs <+: (pbufBytes ps).drop o) :
    m.read ps = some c ∧ cs <+: (pbufBytes ps).drop (o + 1) := by
  obtain ⟨rest, hrest⟩ := h
  refine ⟨?_, rest, ?_⟩
  · have hget : ((pbufBytes ps).drop o)[0]? = some c := by
      rw [← hrest]
      rfl
    rw [List.getElem?_drop] at hget
    rw [hat.read]
    exact hget
  · rw [← List.drop_drop, ← hrest]
    rfl

/-! ### The loops -/

/-- An octet is written, and the place moves on. -/
theorem At.write_next (h : Plain ps) (hat : At ps o m) (c : BitVec 8) (ho : o + 1 < (pbufBytes ps).length) :
    ∃ ps' m', m.write ps c = some ps' ∧ Wrote ps o [c] ps' ∧ Plain ps' ∧ m.next ps' = some m' ∧ At ps' (o + 1) m' ∧
      (pbufBytes ps').length = (pbufBytes ps).length := by
  obtain ⟨ps', hwrite, hwrote⟩ := hat.write c
  have hlength := length_of_shape hwrote.shape
  have hplain := h.of_shape hwrote.shape
  obtain ⟨m', hm', hat'⟩ := (hat.of_shape hwrote.shape).next hplain (by omega)
  exact ⟨ps', m', hwrite, hwrote, hplain, hm', hat', hlength⟩

theorem encRaw_spec (h : Plain ps) (hat : At ps o m) (hne : cs ≠ []) (ho : o + cs.length ≤ (pbufBytes ps).length) :
    ∃ ps', encRaw cs m ps = some (.ok, ps') ∧ Wrote ps o cs ps' := by
  induction cs generalizing ps o m with
  | nil => exact absurd rfl hne
  | cons c cs ih =>
    cases cs with
    | nil =>
      obtain ⟨ps', hwrite, hwrote⟩ := hat.write c
      exact ⟨ps', by rw [encRaw, hwrite]; rfl, hwrote⟩
    | cons d cs =>
      rw [List.length_cons, List.length_cons] at ho
      obtain ⟨ps', m', hwrite, hwrote, hplain, hnext, hat', hlength⟩ := hat.write_next h c (by omega)
      obtain ⟨ps'', henc, hwrote'⟩ := ih hplain hat' (List.cons_ne_nil d cs) (by rw [List.length_cons]; omega)
      refine ⟨ps'', ?_, hwrote.cons hwrote' hat.lt⟩
      rw [encRaw, hwrite, Option.bind_some, hnext]
      · exact henc
      · exact nofun

/-- The octets of `x`, from the last to the first. -/
def octets (octet : ℕ → BitVec 8) (n : ℕ) : List (BitVec 8) := (List.range n).reverse.map octet

theorem octets_succ (octet : ℕ → BitVec 8) (n : ℕ) : octets octet (n + 1) = octet n :: octets octet n := by
  rw [octets, List.range_succ, List.reverse_append]
  rfl

@[simp] theorem octets_length (octet : ℕ → BitVec 8) (n : ℕ) : (octets octet n).length = n := by
  rw [octets, List.length_map, List.length_reverse, List.length_range]

theorem encOctets_spec (h : Plain ps) (hat : At ps o m) (octet : ℕ → BitVec 8) (hn : 0 < n)
    (ho : o + n ≤ (pbufBytes ps).length) :
    ∃ ps', encOctets octet n m ps = some (.ok, ps') ∧ Wrote ps o (octets octet n) ps' := by
  induction n generalizing ps o m with
  | zero => exact absurd hn (lt_irrefl 0)
  | succ n ih =>
    cases n with
    | zero =>
      obtain ⟨ps', hwrite, hwrote⟩ := hat.write (octet 0)
      refine ⟨ps', ?_, hwrote⟩
      rw [encOctets, hwrite, Option.map_some]
      exact nofun
    | succ n =>
      obtain ⟨ps', m', hwrite, hwrote, hplain, hnext, hat', hlength⟩ := hat.write_next h (octet (n + 1)) (by omega)
      obtain ⟨ps'', henc, hwrote'⟩ := ih hplain hat' (Nat.succ_pos n) (by omega)
      refine ⟨ps'', ?_, ?_⟩
      · rw [encOctets, hwrite, Option.bind_some, hnext]
        exact henc
      · rw [octets_succ]
        exact hwrote.cons hwrote' hat.lt

theorem decRaw_spec (h : Plain ps) (hat : At ps o m) (hne : cs ≠ []) (hcs : cs <+: (pbufBytes ps).drop o) :
    decRaw ps cs.length m = some (.ok, cs) := by
  induction cs generalizing o m with
  | nil => exact absurd rfl hne
  | cons c cs ih =>
    obtain ⟨hread, hrest⟩ := hat.read_prefix hcs
    cases cs with
    | nil =>
      rw [List.length_cons, List.length_nil, decRaw, hread]
      · rfl
      · exact nofun
    | cons d cs =>
      have hlength := hrest.length_le
      rw [List.length_cons, List.length_drop] at hlength
      obtain ⟨m', hnext, hat'⟩ := hat.next h (by omega)
      rw [List.length_cons, List.length_cons, decRaw, hread, Option.bind_some, hnext]
      dsimp only
      rw [← List.length_cons (a := d), ih hat' (List.cons_ne_nil d cs) hrest]
      rfl

/-- **The octets of a value**: `x j` is the value shifted by `j` octets, and an octet that is put behind a shift
gives the one before. -/
theorem decOctets_spec {put : BitVec 32 → BitVec 8 → BitVec 32} {shift : BitVec 32 → BitVec 32} {x : ℕ → BitVec 32}
    (hput : ∀ j, put (shift (x (j + 1))) ((x j).setWidth 8) = x j) (h : Plain ps) (hat : At ps o m) (hn : 0 < n)
    (hcs : octets (fun j ↦ (x j).setWidth 8) n <+: (pbufBytes ps).drop o) :
    decOctets put shift ps n (shift (x n)) m = some (.ok, x 0) := by
  induction n generalizing o m with
  | zero => exact absurd hn (lt_irrefl 0)
  | succ n ih =>
    rw [octets_succ] at hcs
    obtain ⟨hread, hrest⟩ := hat.read_prefix hcs
    cases n with
    | zero =>
      rw [decOctets, hread, Option.map_some, hput]
      exact nofun
    | succ n =>
      have hlength := hrest.length_le
      rw [octets_length, List.length_drop] at hlength
      obtain ⟨m', hnext, hat'⟩ := hat.next h (by omega)
      rw [decOctets, hread, Option.bind_some, hnext, hput]
      exact ih hat' (Nat.succ_pos n) hrest

/-! ### Octets -/

theorem orOctet_shift (x : BitVec 32) : orOctet ((x >>> 8) <<< 8) (x.setWidth 8) = x := by
  ext i hi
  simp [orOctet]
  interval_cases i <;> simp

theorem orOctet_sshift (x : BitVec 32) : orOctet ((x.sshiftRight 8) <<< 8) (x.setWidth 8) = x := by
  ext i hi
  simp [orOctet]
  interval_cases i <;> simp [BitVec.getElem_sshiftRight]

theorem andOctet_sshift (x : BitVec 32) : andOctet ((x.sshiftRight 8) <<< 8 ||| 255) (x.setWidth 8) = x := by
  ext i hi
  simp [andOctet]
  interval_cases i <;> simp [BitVec.getElem_sshiftRight]

theorem u32tCnt_lt (value : BitVec 32) : 0 < snmpAsn1EncU32tCnt value ∧ snmpAsn1EncU32tCnt value < 6 ∧
    value.toNat < 2 ^ (8 * snmpAsn1EncU32tCnt value - 1) := by
  have hvalue := value.isLt
  have h1 : (0x80 : BitVec 32).toNat = 0x80 := rfl
  have h2 : (0x8000 : BitVec 32).toNat = 0x8000 := rfl
  have h3 : (0x800000 : BitVec 32).toNat = 0x800000 := rfl
  have h4 : (0x80000000 : BitVec 32).toNat = 0x80000000 := rfl
  rw [snmpAsn1EncU32tCnt]
  simp only [BitVec.lt_def]
  split_ifs <;> refine ⟨by omega, by omega, ?_⟩ <;> norm_num <;> omega

/-- The encoder writes the octets of the value. -/
theorem encU32t_spec (h : Plain ps) (value : BitVec 32) (hn : 0 < n) (hlt : n < 6) (ho : o + n ≤ (pbufBytes ps).length) :
    ∃ ps', snmpAsn1EncU32t ps o n value = some (.ok, ps') ∧
      Wrote ps o (octets (fun j ↦ (value >>> (8 * j)).setWidth 8) n) ps' := by
  obtain ⟨m, hseek, hat⟩ := seek_at h (o := o) (by omega)
  rw [snmpAsn1EncU32t, hseek]
  dsimp only
  by_cases hfive : n = 5
  · subst hfive
    obtain ⟨ps', m', hwrite, hwrote, hplain, hnext, hat', hlength⟩ := hat.write_next h 0x00 (by omega)
    obtain ⟨ps'', henc, hwrote'⟩ := encOctets_spec hplain hat' (fun j ↦ (value >>> (8 * j)).setWidth 8)
      (n := 4) (by omega) (by omega)
    refine ⟨ps'', ?_, ?_⟩
    · rw [if_pos rfl, hwrite, Option.bind_some, hnext]
      exact henc
    · have hzero : (value >>> (8 * 4)).setWidth 8 = (0x00 : BitVec 8) := by
        rw [BitVec.ushiftRight_eq_zero (by omega)]
        rfl
      rw [octets_succ, hzero]
      exact hwrote.cons hwrote' hat.lt
  · rw [if_neg hfive]
    exact encOctets_spec h hat _ hn ho

/-- The decoder puts them together. -/
theorem decU32t_spec (h : Plain ps) (value old : BitVec 32) (hn : 0 < n) (hlt : n < 6)
    (hvalue : value.toNat < 2 ^ (8 * n - 1)) (ho : o < (pbufBytes ps).length)
    (hcs : octets (fun j ↦ (value >>> (8 * j)).setWidth 8) n <+: (pbufBytes ps).drop o) :
    snmpAsn1DecU32t ps o n old = some (.ok, value) := by
  obtain ⟨m, hseek, hat⟩ := seek_at h ho
  obtain ⟨n, rfl⟩ : ∃ k, n = k + 1 := ⟨n - 1, by omega⟩
  have hput : ∀ j, orOctet ((value >>> (8 * (j + 1))) <<< 8) ((value >>> (8 * j)).setWidth 8) = value >>> (8 * j) := by
    intro j
    rw [Nat.mul_succ, BitVec.shiftRight_add]
    exact orOctet_shift _
  -- the first octet has no sign bit
  have hfirst : (value >>> (8 * n)).toNat < 0x80 := by
    rw [BitVec.toNat_ushiftRight, Nat.shiftRight_eq_div_pow, Nat.div_lt_iff_lt_mul (by positivity)]
    refine hvalue.trans_eq ?_
    rw [show 8 * (n + 1) - 1 = 7 + 8 * n by omega, pow_add]
    rfl
  have hhead := hcs
  rw [octets_succ] at hhead
  obtain ⟨hread, hrest⟩ := hat.read_prefix hhead
  have hoctet : ((value >>> (8 * n)).setWidth 8).toNat = (value >>> (8 * n)).toNat := by
    rw [BitVec.toNat_setWidth]
    exact Nat.mod_eq_of_lt (by omega)
  have hsign : (value >>> (8 * n)).setWidth 8 &&& 0x80 = (0 : BitVec 8) := by
    have hbits : ∀ c : BitVec 8, c.toNat < 0x80 → c &&& 0x80 = 0 := by decide
    exact hbits _ (hoctet.trans_lt hfirst)
  rw [snmpAsn1DecU32t, hseek]
  dsimp only
  rw [if_pos ⟨hn, hlt⟩, hread, Option.bind_some, if_neg (not_not.2 hsign)]
  by_cases hskip : 1 < n + 1 ∧ (value >>> (8 * n)).setWidth 8 = (0 : BitVec 8)
  · rw [if_pos hskip]
    have hlength := hrest.length_le
    rw [octets_length, List.length_drop] at hlength
    obtain ⟨m', hnext, hat'⟩ := hat.next h (by omega)
    rw [hnext]
    have hzero : value >>> (8 * n) = 0 := by
      refine BitVec.eq_of_toNat_eq ?_
      rw [← hoctet, hskip.2]
      rfl
    have hdec : decOctets orOctet (· <<< 8) ps n ((value >>> (8 * n)) <<< 8) m' = some (.ok, value >>> (8 * 0)) :=
      decOctets_spec (x := fun j ↦ value >>> (8 * j)) hput h hat' (by omega) hrest
    rw [hzero] at hdec
    exact hdec
  · rw [if_neg hskip]
    have hzero : value >>> (8 * (n + 1)) = 0 := by
      refine BitVec.eq_of_toNat_eq ?_
      rw [Nat.mul_succ, BitVec.shiftRight_add, BitVec.toNat_ushiftRight, Nat.shiftRight_eq_div_pow]
      exact Nat.div_eq_of_lt (by omega)
    have hdec : decOctets orOctet (· <<< 8) ps (n + 1) ((value >>> (8 * (n + 1))) <<< 8) m =
        some (.ok, value >>> (8 * 0)) :=
      decOctets_spec (x := fun j ↦ value >>> (8 * j)) hput h hat hn hcs
    rw [hzero] at hdec
    exact hdec

theorem s32tCnt_lt (value : BitVec 32) : 0 < snmpAsn1EncS32tCnt value ∧ snmpAsn1EncS32tCnt value < 5 ∧
    -2 ^ (8 * snmpAsn1EncS32tCnt value - 1) ≤ value.toInt ∧ value.toInt < 2 ^ (8 * snmpAsn1EncS32tCnt value - 1) := by
  have hlo := value.le_toInt
  have hhi := value.toInt_lt
  have hnot : (~~~value).toInt = -value.toInt - 1 := by
    have hlt := value.isLt
    rw [BitVec.toInt_eq_toNat_cond, BitVec.toInt_eq_toNat_cond, BitVec.toNat_not]
    split_ifs <;> omega
  rw [snmpAsn1EncS32tCnt]
  split_ifs <;> refine ⟨by omega, by omega, ?_, ?_⟩ <;> norm_num at hlo hhi ⊢ <;> omega

/-- A value of one octet: its sign bit says what is left of it when it is shifted out. -/
theorem sshiftRight_octet (x : BitVec 32) (hlo : -128 ≤ x.toInt) (hhi : x.toInt < 128) :
    x.sshiftRight 8 = if x.setWidth 8 &&& (0x80 : BitVec 8) ≠ 0 then -1 else 0 := by
  have hext : x = (x.setWidth 8).signExtend 32 := by
    refine BitVec.eq_of_toInt_eq ?_
    rw [BitVec.toInt_signExtend_of_le (by decide), BitVec.toInt_setWidth, BitVec.toInt_eq_toNat_bmod] at *
    have hlt := x.isLt
    simp only [Int.bmod_def] at *
    omega
  have hoctet : ∀ c : BitVec 8, (c.signExtend 32).sshiftRight 8 = if c &&& (0x80 : BitVec 8) ≠ 0 then -1 else 0 := by
    decide
  rw [← hoctet, ← hext]

theorem encS32t_spec (h : Plain ps) (value : BitVec 32) (hn : 0 < n) (ho : o + n ≤ (pbufBytes ps).length) :
    ∃ ps', snmpAsn1EncS32t ps o n value = some (.ok, ps') ∧
      Wrote ps o (octets (fun j ↦ (value.sshiftRight (8 * j)).setWidth 8) n) ps' := by
  obtain ⟨m, hseek, hat⟩ := seek_at h (o := o) (by omega)
  rw [snmpAsn1EncS32t, hseek]
  exact encOctets_spec h hat _ hn ho

theorem decS32t_spec (h : Plain ps) (value old : BitVec 32) (hn : 0 < n) (hlt : n < 5)
    (hlo : -2 ^ (8 * n - 1) ≤ value.toInt) (hhi : value.toInt < 2 ^ (8 * n - 1)) (ho : o < (pbufBytes ps).length)
    (hcs : octets (fun j ↦ (value.sshiftRight (8 * j)).setWidth 8) n <+: (pbufBytes ps).drop o) :
    snmpAsn1DecS32t ps o n old = some (.ok, value) := by
  obtain ⟨m, hseek, hat⟩ := seek_at h ho
  obtain ⟨n, rfl⟩ : ∃ k, n = k + 1 := ⟨n - 1, by omega⟩
  have hshift : ∀ j, value.sshiftRight (8 * (j + 1)) = (value.sshiftRight (8 * j)).sshiftRight 8 := by
    intro j
    rw [Nat.mul_succ, BitVec.sshiftRight_add]
  have hzero : value.sshiftRight (8 * 0) = value := BitVec.sshiftRight_zero
  -- the first octet has the sign bit
  have hdiv : (value.sshiftRight (8 * n)).toInt = value.toInt / 2 ^ (8 * n) := by
    rw [BitVec.toInt_sshiftRight, Int.shiftRight_eq_div_pow]
    norm_cast
  have hpow : (2 : ℤ) ^ (8 * (n + 1) - 1) = 128 * 2 ^ (8 * n) := by
    rw [show 8 * (n + 1) - 1 = 7 + 8 * n by omega, pow_add]
    norm_num
  have hpos : (0 : ℤ) < 2 ^ (8 * n) := by positivity
  have htop := sshiftRight_octet (value.sshiftRight (8 * n))
    (by rw [hdiv, Int.le_ediv_iff_mul_le hpos]; omega) (by rw [hdiv, Int.ediv_lt_iff_lt_mul hpos]; omega)
  rw [← hshift] at htop
  have hhead := hcs
  rw [octets_succ] at hhead
  obtain ⟨hread, -⟩ := hat.read_prefix hhead
  rw [snmpAsn1DecS32t, hseek]
  dsimp only
  rw [if_pos ⟨hn, hlt⟩, hread, Option.bind_some]
  by_cases hsign : (value.sshiftRight (8 * n)).setWidth 8 &&& (0x80 : BitVec 8) ≠ 0
  · have hdec : decOctets andOctet (fun v ↦ v <<< 8 ||| 255) ps (n + 1)
        ((value.sshiftRight (8 * (n + 1))) <<< 8 ||| 255) m = some (.ok, value.sshiftRight (8 * 0)) :=
      decOctets_spec (x := fun j ↦ value.sshiftRight (8 * j))
        (fun j ↦ by rw [hshift]; exact andOctet_sshift _) h hat hn hcs
    rw [if_pos hsign] at htop ⊢
    rw [htop, hzero] at hdec
    exact hdec
  · have hdec : decOctets orOctet (· <<< 8) ps (n + 1) ((value.sshiftRight (8 * (n + 1))) <<< 8) m =
        some (.ok, value.sshiftRight (8 * 0)) :=
      decOctets_spec (x := fun j ↦ value.sshiftRight (8 * j))
        (fun j ↦ by rw [hshift]; exact orOctet_sshift _) h hat hn hcs
    rw [if_neg hsign] at htop ⊢
    rw [htop, hzero] at hdec
    exact hdec

/-! ### Lengths -/

/-- The octets of a length. -/
def lengthOctets (length : BitVec 16) : List (BitVec 8) :=
  if length < 0x80 then [length.setWidth 8]
  else if length < 0x100 then [0x81, length.setWidth 8]
  else [0x82, (length >>> 8).setWidth 8, length.setWidth 8]

theorem lengthOctets_length (length : BitVec 16) : (lengthOctets length).length = snmpAsn1EncLengthCnt length := by
  rw [lengthOctets, snmpAsn1EncLengthCnt]
  split_ifs <;> rfl

theorem encLength_spec (h : Plain ps) (length : BitVec 16) (ho : o + snmpAsn1EncLengthCnt length ≤ (pbufBytes ps).length) :
    ∃ ps', snmpAsn1EncLength ps o length = some (.ok, ps') ∧ Wrote ps o (lengthOctets length) ps' := by
  have hpos : 0 < snmpAsn1EncLengthCnt length := by
    rw [snmpAsn1EncLengthCnt]
    split_ifs <;> omega
  obtain ⟨m, hseek, hat⟩ := seek_at h (o := o) (by omega)
  rw [snmpAsn1EncLengthCnt] at ho
  rw [snmpAsn1EncLength, hseek, lengthOctets]
  dsimp only
  by_cases hone : length < 0x80
  · obtain ⟨ps', hwrite, hwrote⟩ := hat.write (length.setWidth 8)
    rw [if_pos hone, if_pos hone, hwrite]
    exact ⟨ps', rfl, hwrote⟩
  rw [if_neg hone] at ho ⊢
  rw [if_neg hone]
  by_cases htwo : length < 0x100
  · rw [if_pos htwo] at ho
    obtain ⟨ps₁, m₁, hwrite, hwrote, hplain, hnext, hat₁, hlength⟩ := hat.write_next h 0x81 (by omega)
    obtain ⟨ps₂, hwrite', hwrote'⟩ := hat₁.write (length.setWidth 8)
    refine ⟨ps₂, ?_, ?_⟩
    · rw [if_pos htwo, hwrite, Option.bind_some, hnext]
      dsimp only
      rw [hwrite']
      rfl
    · rw [if_pos htwo]
      exact hwrote.cons hwrote' hat.lt
  · rw [if_neg htwo] at ho
    obtain ⟨ps₁, m₁, hwrite, hwrote, hplain, hnext, hat₁, hlength⟩ := hat.write_next h 0x82 (by omega)
    obtain ⟨ps₂, m₂, hwrite', hwrote', -, hnext', hat₂, -⟩ :=
      hat₁.write_next hplain ((length >>> 8).setWidth 8) (by omega)
    obtain ⟨ps₃, hwrite'', hwrote''⟩ := hat₂.write (length.setWidth 8)
    refine ⟨ps₃, ?_, ?_⟩
    · rw [if_neg htwo, hwrite, Option.bind_some, encLengthLoop, hnext]
      dsimp only
      rw [if_neg Nat.one_ne_zero, hwrite', Option.bind_some, encLengthLoop, hnext']
      dsimp only
      rw [if_pos rfl, hwrite'']
      rfl
    · rw [if_neg htwo]
      exact hwrote.cons (hwrote'.cons hwrote'' hat₁.lt) hat.lt

theorem decLength_spec (h : Plain ps) (length old : BitVec 16) (used : ℕ) (ho : o < (pbufBytes ps).length)
    (hcs : lengthOctets length <+: (pbufBytes ps).drop o) :
    snmpAsn1DecLength ps o used old = some (.ok, snmpAsn1EncLengthCnt length, length) := by
  obtain ⟨m, hseek, hat⟩ := seek_at h ho
  have hlow : length < 0x100 → (length.setWidth 8).setWidth 16 = length := by
    intro hlt
    refine BitVec.eq_of_toNat_eq ?_
    rw [BitVec.toNat_setWidth, BitVec.toNat_setWidth]
    have hlt : length.toNat < 0x100 := hlt
    omega
  rw [snmpAsn1DecLength, hseek, snmpAsn1EncLengthCnt]
  dsimp only
  rw [lengthOctets] at hcs
  by_cases hone : length < 0x80
  · rw [if_pos hone] at hcs ⊢
    have hbyte : length.setWidth 8 < (0x80 : BitVec 8) := by
      have hlt : length.toNat < 0x80 := hone
      rw [BitVec.lt_def, BitVec.toNat_setWidth]
      exact (Nat.mod_le _ _).trans_lt hlt
    have hlt : length < 0x100 := by
      have hlt : length.toNat < 0x80 := hone
      show length.toNat < 0x100
      omega
    rw [(hat.read_prefix hcs).1, Option.bind_some, if_pos hbyte, hlow hlt]
  rw [if_neg hone] at hcs ⊢
  by_cases htwo : length < 0x100
  · rw [if_pos htwo] at hcs ⊢
    obtain ⟨hread, hrest⟩ := hat.read_prefix hcs
    have hlength := hrest.length_le
    rw [List.length_cons, List.length_drop] at hlength
    obtain ⟨m', hnext, hat'⟩ := hat.next h (by omega)
    rw [hread, Option.bind_some, if_neg (by decide), if_neg (by decide), if_pos rfl, hnext]
    dsimp only
    rw [(hat'.read_prefix hrest).1, Option.map_some, hlow htwo]
  · rw [if_neg htwo] at hcs ⊢
    obtain ⟨hread, hrest⟩ := hat.read_prefix hcs
    have hlength := hrest.length_le
    rw [List.length_cons, List.length_cons, List.length_drop] at hlength
    obtain ⟨m₁, hnext, hat₁⟩ := hat.next h (by omega)
    obtain ⟨hread₁, hrest₁⟩ := hat₁.read_prefix hrest
    obtain ⟨m₂, hnext₁, hat₂⟩ := hat₁.next h (by omega)
    have hboth : ((length >>> 8).setWidth 8).setWidth 16 <<< 8 ||| (length.setWidth 8).setWidth 16 = length := by
      ext i hi
      simp
      interval_cases i <;> simp
    rw [hread, Option.bind_some, if_neg (by decide), if_neg (by decide), if_neg (by decide), if_pos rfl, decLengthLoop,
      hnext]
    dsimp only
    rw [hread₁, Option.bind_some, if_neg Nat.one_ne_zero, decLengthLoop, hnext₁]
    dsimp only
    rw [(hat₂.read_prefix hrest₁).1, Option.bind_some, if_pos rfl, hboth]
    rfl

/-! ### The round trips -/

/-- **A code is right** in a chain at an offset: the encoder returns `ERR_OK` and writes `n` octets, and the
decoder at this offset gives the result. -/
def RoundTrip {α : Type} (ps : List Pbuf) (o n : ℕ) (enc : Option (ErrT × List Pbuf))
    (dec : List Pbuf → Option (ErrT × α)) (a : α) : Prop :=
  ∃ ps' cs, enc = some (.ok, ps') ∧ cs.length = n ∧ Wrote ps o cs ps' ∧ dec ps' = some (.ok, a)

/-- **Scalars come back.** In a chain without empty pbufs, at an offset with room for the octets, for every
length and every integer the encoder returns `ERR_OK`, writes as many octets as were counted and nothing else,
and the decoder gives the value back; so it is for an octet string **exactly** if it is not the empty one at
the end of the chain. -/
theorem asn1_round_trip (ps : List Pbuf) (o : ℕ) (h : Plain ps) :
    (∀ length old : BitVec 16, ∀ used, o + snmpAsn1EncLengthCnt length ≤ (pbufBytes ps).length →
      RoundTrip ps o (snmpAsn1EncLengthCnt length) (snmpAsn1EncLength ps o length)
        (snmpAsn1DecLength · o used old) (snmpAsn1EncLengthCnt length, length)) ∧
    (∀ value old : BitVec 32, o + snmpAsn1EncU32tCnt value ≤ (pbufBytes ps).length →
      RoundTrip ps o (snmpAsn1EncU32tCnt value) (snmpAsn1EncU32t ps o (snmpAsn1EncU32tCnt value) value)
        (snmpAsn1DecU32t · o (snmpAsn1EncU32tCnt value) old) value) ∧
    (∀ value old : BitVec 32, o + snmpAsn1EncS32tCnt value ≤ (pbufBytes ps).length →
      RoundTrip ps o (snmpAsn1EncS32tCnt value) (snmpAsn1EncS32t ps o (snmpAsn1EncS32tCnt value) value)
        (snmpAsn1DecS32t · o (snmpAsn1EncS32tCnt value) old) value) ∧
    ∀ raw old : List (BitVec 8), o + raw.length ≤ (pbufBytes ps).length → raw.length ≤ old.length →
      (RoundTrip ps o raw.length (snmpAsn1EncRaw ps o raw) (snmpAsn1DecRaw · o raw.length old)
          (raw ++ old.drop raw.length) ↔
        ¬(raw = [] ∧ o = (pbufBytes ps).length)) := by
  have hroom : ∀ {ps' cs}, Wrote ps o cs ps' → o + cs.length ≤ (pbufBytes ps).length → 0 < cs.length →
      Plain ps' ∧ o < (pbufBytes ps').length ∧ cs <+: (pbufBytes ps').drop o := by
    intro ps' cs hwrote hle hpos
    have hlength := length_of_shape hwrote.shape
    exact ⟨h.of_shape hwrote.shape, by omega, hwrote.begins (by omega)⟩
  refine ⟨fun length old used ho ↦ ?_, fun value old ho ↦ ?_, fun value old ho ↦ ?_, fun raw old ho hold ↦ ?_⟩
  · obtain ⟨ps', henc, hwrote⟩ := encLength_spec h length ho
    have hcount := lengthOctets_length length
    have hpos : 0 < (lengthOctets length).length := by
      rw [lengthOctets]
      split_ifs <;> exact Nat.succ_pos _
    obtain ⟨hplain, hlt, hbegins⟩ := hroom hwrote (by omega) hpos
    exact ⟨ps', _, henc, hcount, hwrote, decLength_spec hplain length old used hlt hbegins⟩
  · obtain ⟨hpos, hlt, hvalue⟩ := u32tCnt_lt value
    obtain ⟨ps', henc, hwrote⟩ := encU32t_spec h value hpos hlt ho
    obtain ⟨hplain, hlt', hbegins⟩ := hroom hwrote (by rw [octets_length]; omega) (by rw [octets_length]; exact hpos)
    exact ⟨ps', _, henc, octets_length .., hwrote, decU32t_spec hplain value old hpos hlt hvalue hlt' hbegins⟩
  · obtain ⟨hpos, hlt, hlo, hhi⟩ := s32tCnt_lt value
    obtain ⟨ps', henc, hwrote⟩ := encS32t_spec h value hpos ho
    obtain ⟨hplain, hlt', hbegins⟩ := hroom hwrote (by rw [octets_length]; omega) (by rw [octets_length]; exact hpos)
    exact ⟨ps', _, henc, octets_length .., hwrote, decS32t_spec hplain value old hpos hlt hlo hhi hlt' hbegins⟩
  · refine ⟨fun ⟨ps', cs, henc, _⟩ ⟨_, hend⟩ ↦ ?_, fun hok ↦ ?_⟩
    · rw [snmpAsn1EncRaw, hend, seek_behind h le_rfl] at henc
      cases henc
    by_cases hnil : raw = []
    · subst hnil
      obtain ⟨m, hseek, hat⟩ := seek_at h (o := o) (by
        rw [List.length_nil] at ho
        have hne : o ≠ (pbufBytes ps).length := fun hend ↦ hok ⟨rfl, hend⟩
        omega)
      refine ⟨ps, [], ?_, rfl, Wrote.refl ps o, rfl⟩
      rw [snmpAsn1EncRaw, hseek]
      rfl
    · have hpos : 0 < raw.length := List.length_pos_iff.2 hnil
      obtain ⟨m, hseek, hat⟩ := seek_at h (o := o) (by omega)
      obtain ⟨ps', henc, hwrote⟩ := encRaw_spec h hat hnil ho
      obtain ⟨hplain, hlt', hbegins⟩ := hroom hwrote ho hpos
      obtain ⟨m', hseek', hat'⟩ := seek_at hplain hlt'
      refine ⟨ps', raw, ?_, rfl, hwrote, ?_⟩
      · rw [snmpAsn1EncRaw, hseek]
        exact henc
      · dsimp only
        rw [snmpAsn1DecRaw, if_pos hpos, hseek']
        dsimp only
        rw [if_pos hold, decRaw_spec hplain hat' hnil hbegins]
        rfl

/-- A length of two octets, an integer of five and a string, across the pbufs of a chain. -/
theorem asn1_round_trip_split :
    RoundTrip [⟨[0, 0], 7⟩, ⟨[0], 5⟩, ⟨[0, 0, 0, 0], 4⟩] 1 3 (snmpAsn1EncLength [⟨[0, 0], 7⟩, ⟨[0], 5⟩, ⟨[0, 0, 0, 0], 4⟩] 1 300)
        (snmpAsn1DecLength · 1 0 0) (3, 300) ∧
      RoundTrip [⟨[0, 0], 7⟩, ⟨[0], 5⟩, ⟨[0, 0, 0, 0], 4⟩] 1 5
        (snmpAsn1EncU32t [⟨[0, 0], 7⟩, ⟨[0], 5⟩, ⟨[0, 0, 0, 0], 4⟩] 1 5 0xfedcba98) (snmpAsn1DecU32t · 1 5 0) 0xfedcba98 ∧
      RoundTrip [⟨[0, 0], 7⟩, ⟨[0], 5⟩, ⟨[0, 0, 0, 0], 4⟩] 1 2
        (snmpAsn1EncS32t [⟨[0, 0], 7⟩, ⟨[0], 5⟩, ⟨[0, 0, 0, 0], 4⟩] 1 2 (-129)) (snmpAsn1DecS32t · 1 2 0) (-129) ∧
      RoundTrip [⟨[0, 0], 7⟩, ⟨[0], 5⟩, ⟨[0, 0, 0, 0], 4⟩] 1 2
        (snmpAsn1EncRaw [⟨[0, 0], 7⟩, ⟨[0], 5⟩, ⟨[0, 0, 0, 0], 4⟩] 1 [1, 2]) (snmpAsn1DecRaw · 1 2 [0, 0]) [1, 2] := by
  obtain ⟨hlength, hu32, hs32, hraw⟩ := asn1_round_trip [⟨[0, 0], 7⟩, ⟨[0], 5⟩, ⟨[0, 0, 0, 0], 4⟩] 1
    ⟨by decide, by decide⟩
  exact ⟨hlength 300 0 0 (by decide), hu32 0xfedcba98 0 (by decide), hs32 (-129) 0 (by decide),
    (hraw [1, 2] [0, 0] (by decide) (by decide)).2 (by decide)⟩

/-- **The empty string at the end of a chain** is refused by the encoder; the decoder would take it. -/
theorem asn1_empty_refused :
    ¬RoundTrip [⟨[0], 1⟩] 1 0 (snmpAsn1EncRaw [⟨[0], 1⟩] 1 []) (snmpAsn1DecRaw · 1 0 []) [] ∧
      snmpAsn1EncRaw [⟨[0], 1⟩] 1 [] = some (.arg, [⟨[0], 1⟩]) ∧
      snmpAsn1DecRaw [⟨[0], 1⟩] 1 0 [] = some (.ok, []) := by
  have hrefused : snmpAsn1EncRaw [⟨[0], 1⟩] 1 [] = some (.arg, [⟨[0], 1⟩]) := by decide
  refine ⟨fun ⟨ps', cs, henc, _⟩ ↦ ?_, hrefused, by decide⟩
  rw [hrefused] at henc
  cases henc

end Lwip.Core.Snmp
