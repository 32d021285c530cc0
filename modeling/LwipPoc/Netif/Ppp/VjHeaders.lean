import LwipPoc.Netif.Ppp.Vj

/-!
# A header and its compressed form

What the receiver makes of the header in its slot and the compressed one is the header of the packet. While it does
so, the header is **updated** (`Updated`): it has the bytes of the packet at some places, and at the others those of
the last packet. The places of a field that is sent are added when it is decoded (`Updated.decodes`,
`Updated.decodel`), those of a field that is not because it has not changed.

The flags are left out of this. `TCPH_UNSET_FLAG` does nothing (`tcphUnsetFlag_eq`), so their byte only gains bits.
-/

namespace Lwip.Netif.Ppp

open Lwip.Core Ipv4 Set

variable {f g h hdr ip mem : Hdr} {i k m n cp th thl hlen csHlen : ℕ} {P : Set ℕ} {bs cs : List (BitVec 8)}
  {changes : BitVec 8}

/-! ### Fields -/

theorem readU16_lt (f : Hdr) (i : ℕ) : readU16 f i < 2 ^ 16 := by
  have h₀ := (f i).isLt
  have h₁ := (f (i + 1)).isLt
  rw [readU16]
  omega

theorem readU32_lt (f : Hdr) (i : ℕ) : readU32 f i < 2 ^ 32 := by
  have h₀ := readU16_lt f i
  have h₁ := readU16_lt f (i + 2)
  rw [readU32]
  omega

theorem readU16_congr (h : EqOn f g (Ico i (i + 2))) : readU16 f i = readU16 g i := by
  rw [readU16, readU16, h ⟨le_refl _, by omega⟩, h ⟨by omega, by omega⟩]

theorem readU32_congr (h : EqOn f g (Ico i (i + 4))) : readU32 f i = readU32 g i := by
  have hlow : EqOn f g (Ico i (i + 2)) := fun k hk ↦ h ⟨hk.1, by have := hk.2; omega⟩
  have hhigh : EqOn f g (Ico (i + 2) (i + 2 + 2)) := fun k hk ↦ h ⟨by have := hk.1; omega, by have := hk.2; omega⟩
  rw [readU32, readU32, readU16_congr hlow, readU16_congr hhigh]

/-- Equal fields have equal bytes. -/
theorem bytes_eq_of_readU16 (h : readU16 f i = readU16 g k) : f i = g k ∧ f (i + 1) = g (k + 1) := by
  have h₀ := (f i).isLt
  have h₁ := (f (i + 1)).isLt
  have h₂ := (g k).isLt
  have h₃ := (g (k + 1)).isLt
  rw [readU16, readU16] at h
  exact ⟨BitVec.eq_of_toNat_eq (by omega), BitVec.eq_of_toNat_eq (by omega)⟩

theorem eqOn_of_readU16 (h : readU16 f i = readU16 g i) : EqOn f g (Ico i (i + 2)) := by
  intro k hk
  obtain ⟨h₀, h₁⟩ := bytes_eq_of_readU16 h
  obtain rfl | rfl : k = i ∨ k = i + 1 := by
    obtain ⟨hle, hlt⟩ := hk
    omega
  · exact h₀
  · exact h₁

theorem readU32_eq_iff : readU32 f i = readU32 g k ↔ readU16 f i = readU16 g k ∧ readU16 f (i + 2) = readU16 g (k + 2) := by
  have h₀ := readU16_lt f (i + 2)
  have h₁ := readU16_lt g (k + 2)
  rw [readU32, readU32]
  omega

theorem eqOn_of_readU32 (h : readU32 f i = readU32 g i) : EqOn f g (Ico i (i + 4)) := by
  obtain ⟨h₀, h₁⟩ := readU32_eq_iff.1 h
  intro k hk
  by_cases hlow : k < i + 2
  · exact eqOn_of_readU16 h₀ ⟨hk.1, hlow⟩
  · exact eqOn_of_readU16 h₁ ⟨Nat.le_of_not_lt hlow, by have := hk.2; omega⟩

theorem writeU16_of_notMem (hk : k ∉ Ico i (i + 2)) : writeU16 f i n k = f k := by
  rw [mem_Ico, not_and, not_lt] at hk
  rw [writeU16, Function.update_of_ne (by omega), Function.update_of_ne (by omega)]

theorem writeU32_of_notMem (hk : k ∉ Ico i (i + 4)) : writeU32 f i n k = f k := by
  rw [mem_Ico, not_and, not_lt] at hk
  rw [writeU32, writeU16_of_notMem, writeU16_of_notMem] <;> rw [mem_Ico, not_and, not_lt] <;> omega

/-- A field that is set to what another header has there. -/
theorem eqOn_writeU16 (hn : n = readU16 g i) : EqOn (writeU16 f i n) g (Ico i (i + 2)) := by
  have hlow : BitVec.ofNat 8 n = g (i + 1) := by
    refine BitVec.eq_of_toNat_eq ?_
    have h₁ := (g (i + 1)).isLt
    rw [BitVec.toNat_ofNat, hn, readU16]
    omega
  have hhigh : BitVec.ofNat 8 (n / 2 ^ 8) = g i := by
    refine BitVec.eq_of_toNat_eq ?_
    have h₀ := (g i).isLt
    have h₁ := (g (i + 1)).isLt
    rw [BitVec.toNat_ofNat, hn, readU16]
    omega
  intro k hk
  obtain rfl | rfl : k = i ∨ k = i + 1 := by
    obtain ⟨hle, hlt⟩ := hk
    omega
  · rw [writeU16, Function.update_of_ne (by omega), Function.update_self, hhigh]
  · rw [writeU16, Function.update_self, hlow]

theorem eqOn_writeU32 (hn : n = readU32 g i) : EqOn (writeU32 f i n) g (Ico i (i + 4)) := by
  have hlow := readU16_lt g (i + 2)
  intro k hk
  by_cases hk2 : k < i + 2
  · rw [writeU32, writeU16_of_notMem (by rw [mem_Ico]; omega)]
    refine eqOn_writeU16 ?_ ⟨hk.1, hk2⟩
    rw [hn, readU32]
    omega
  · rw [writeU32]
    -- only the sixteen bits at the end of the number are written
    have hmod : writeU16 (writeU16 f i (n / 2 ^ 16)) (i + 2) n =
        writeU16 (writeU16 f i (n / 2 ^ 16)) (i + 2) (readU16 g (i + 2)) := by
      have h₀ : BitVec.ofNat 8 n = BitVec.ofNat 8 (readU16 g (i + 2)) := by
        refine BitVec.eq_of_toNat_eq ?_
        rw [BitVec.toNat_ofNat, BitVec.toNat_ofNat, hn, readU32]
        omega
      have h₁ : BitVec.ofNat 8 (n / 2 ^ 8) = BitVec.ofNat 8 (readU16 g (i + 2) / 2 ^ 8) := by
        refine BitVec.eq_of_toNat_eq ?_
        rw [BitVec.toNat_ofNat, BitVec.toNat_ofNat, hn, readU32]
        omega
      rw [writeU16, h₀, h₁, ← writeU16]
    rw [hmod]
    exact eqOn_writeU16 rfl ⟨Nat.le_of_not_lt hk2, by have := hk.2; omega⟩

/-! ### Numbers in the compressed header -/

/-- The bytes at `cp` are those of a list. -/
def At (mem : Hdr) (cp : ℕ) (bs : List (BitVec 8)) : Prop := ∀ i b, bs[i]? = some b → mem (cp + i) = b

theorem At.head {b : BitVec 8} (h : At mem cp (b :: bs)) : mem cp = b := h 0 b rfl

theorem At.tail {b : BitVec 8} (h : At mem cp (b :: bs)) : At mem (cp + 1) bs := by
  intro i c hc
  rw [Nat.add_right_comm, Nat.add_assoc]
  exact h (i + 1) c hc

theorem At.left (h : At mem cp (bs ++ cs)) : At mem cp bs := by
  intro i b hb
  refine h i b ?_
  rw [List.getElem?_append_left (List.getElem?_eq_some_iff.1 hb).1, hb]

theorem At.right (h : At mem cp (bs ++ cs)) : At mem (cp + bs.length) cs := by
  intro i b hb
  rw [Nat.add_assoc]
  refine h _ b ?_
  rw [List.getElem?_append_right (by omega), Nat.add_sub_cancel_left, hb]

theorem decode_long (h : At mem cp [0, BitVec.ofNat 8 (n / 2 ^ 8), BitVec.ofNat 8 n]) (hn : n < 2 ^ 16) :
    decode mem cp = (n, cp + 3) := by
  rw [decode, if_pos h.head, readU16, h.tail.head, h.tail.tail.head, BitVec.toNat_ofNat, BitVec.toNat_ofNat]
  congr 1
  omega

theorem decode_short (h : At mem cp [BitVec.ofNat 8 n]) (h0 : n ≠ 0) (hn : n < 256) :
    decode mem cp = (n, cp + 1) := by
  have htoNat : (BitVec.ofNat 8 n).toNat = n := by rw [BitVec.toNat_ofNat, Nat.mod_eq_of_lt hn]
  have hne : BitVec.ofNat 8 n ≠ 0 := by
    intro hzero
    rw [hzero] at htoNat
    exact h0 htoNat.symm
  rw [decode, h.head, if_neg hne, htoNat]

theorem decode_encode (h : At mem cp (encode n)) (h0 : n ≠ 0) (hn : n < 2 ^ 16) :
    decode mem cp = (n, cp + (encode n).length) := by
  rw [encode] at h ⊢
  split_ifs at h ⊢ with hlong
  · exact decode_long h hn
  · exact decode_short h h0 (by omega)

theorem decode_encodez (h : At mem cp (encodez n)) (hn : n < 2 ^ 16) :
    decode mem cp = (n, cp + (encodez n).length) := by
  rw [encodez] at h ⊢
  split_ifs at h ⊢ with hlong
  · exact decode_long h hn
  · exact decode_short h (by omega) (by omega)

/-! ### Updates -/

/-- At the places `P` a header has the bytes of the packet, and elsewhere those of the last one; the byte of the flags
is left out. -/
structure Updated (x : ℕ) (P : Set ℕ) (hdr ip h : Hdr) : Prop where
  new : ∀ k ∈ P, k ≠ x → h k = ip k
  old : ∀ k ∉ P, k ≠ x → h k = hdr k

namespace Updated

variable {x : ℕ}

theorem readU16_eq (hu : Updated x P hdr ip h) (hP : ∀ k ∈ Ico i (i + 2), k ∉ P) (hx : x ∉ Ico i (i + 2)) :
    readU16 h i = readU16 hdr i :=
  readU16_congr fun k hk ↦ hu.old k (hP k hk) fun heq ↦ hx (heq ▸ hk)

theorem readU32_eq (hu : Updated x P hdr ip h) (hP : ∀ k ∈ Ico i (i + 4), k ∉ P) (hx : x ∉ Ico i (i + 4)) :
    readU32 h i = readU32 hdr i :=
  readU32_congr fun k hk ↦ hu.old k (hP k hk) fun heq ↦ hx (heq ▸ hk)

/-- What is written at some places is what the packet has there. -/
theorem write {Q : Set ℕ} (hu : Updated x P hdr ip h) (hQ : EqOn g ip Q) (hout : ∀ k ∉ Q, g k = h k) :
    Updated x (P ∪ Q) hdr ip g where
  new k hk hkx := by
    by_cases hkQ : k ∈ Q
    · exact hQ hkQ
    · exact (hout k hkQ).trans (hu.new k (hk.resolve_right hkQ) hkx)
  old k hk hkx := by
    rw [mem_union, not_or] at hk
    exact (hout k hk.2).trans (hu.old k hk.1 hkx)

/-- The packet has at some places what the last one had. -/
theorem same {Q : Set ℕ} (hu : Updated x P hdr ip h) (hQ : EqOn hdr ip Q) : Updated x (P ∪ Q) hdr ip h where
  new k hk hkx := by
    by_cases hkP : k ∈ P
    · exact hu.new k hkP hkx
    · exact (hu.old k hkP hkx).trans (hQ (hk.resolve_left hkP))
  old k hk hkx := by
    rw [mem_union, not_or] at hk
    exact hu.old k hk.1 hkx

theorem writeU16 (hu : Updated x P hdr ip h) (hn : n = readU16 ip i) :
    Updated x (P ∪ Ico i (i + 2)) hdr ip (writeU16 h i n) :=
  hu.write (eqOn_writeU16 hn) fun _ hk ↦ writeU16_of_notMem hk

/-- The byte of the flags is written. -/
theorem flags (hu : Updated x P hdr ip h) (b : BitVec 8) : Updated x P hdr ip (Function.update h x b) where
  new k hk hkx := by rw [Function.update_of_ne hkx, hu.new k hk hkx]
  old k hk hkx := by rw [Function.update_of_ne hkx, hu.old k hk hkx]

end Updated

/-! ### Bits of the first byte -/

section

variable (u w a s : Prop) [Decidable u] [Decidable w] [Decidable a] [Decidable s]

/-- The bits of the numbers that have changed. -/
def numberBits : BitVec 8 :=
  (if u then newU else 0) ||| (if w then newW else 0) ||| (if a then newA else 0) ||| (if s then newS else 0)

variable {u w a s}

theorem numberBits_u : numberBits u w a s &&& newU ≠ 0 ↔ u := by
  rw [numberBits]
  split_ifs <;> simp_all <;> decide

theorem numberBits_w : numberBits u w a s &&& newW ≠ 0 ↔ w := by
  rw [numberBits]
  split_ifs <;> simp_all <;> decide

theorem numberBits_a : numberBits u w a s &&& newA ≠ 0 ↔ a := by
  rw [numberBits]
  split_ifs <;> simp_all <;> decide

theorem numberBits_s : numberBits u w a s &&& newS ≠ 0 ↔ s := by
  rw [numberBits]
  split_ifs <;> simp_all <;> decide

theorem numberBits_eq_sa (h : numberBits u w a s = newS ||| newA) : ¬ u ∧ ¬ w := by
  rw [numberBits] at h
  split_ifs at h <;> revert h <;> simp_all <;> decide

theorem numberBits_eq_s (h : numberBits u w a s = newS) : ¬ u ∧ ¬ w ∧ ¬ a := by
  rw [numberBits] at h
  split_ifs at h <;> revert h <;> simp_all <;> decide

end

/-- A bit of a number is read behind the mask. -/
theorem and_specialsMask {bit : BitVec 8} (hbit : specialsMask &&& bit = bit) :
    changes &&& bit = changes &&& specialsMask &&& bit := by
  rw [BitVec.and_assoc, hbit]

/-- The urgent pointer is valid. -/
def Urg (ip : Hdr) (th : ℕ) : Prop := tcphFlags ip th &&& tcpUrg ≠ 0

instance : Decidable (Urg ip th) := inferInstanceAs (Decidable (_ ≠ _))

/-- The encoding of the numbers that have changed. -/
def encodeNumbers (hdr ip : Hdr) (th : ℕ) : List (BitVec 8) :=
  (if Urg ip th then encodez (readU16 ip (th + 18)) else []) ++
    (if delta16 hdr ip (th + 14) ≠ 0 then encode (delta16 hdr ip (th + 14)) else []) ++
    (if delta32 hdr ip (th + 8) ≠ 0 then encode (delta32 hdr ip (th + 8)) else []) ++
    if delta32 hdr ip (th + 4) ≠ 0 then encode (delta32 hdr ip (th + 4)) else []

/-- The numbers that have changed. -/
def changedNumbers (hdr ip : Hdr) (th : ℕ) : BitVec 8 :=
  numberBits (Urg ip th) (delta16 hdr ip (th + 14) ≠ 0) (delta32 hdr ip (th + 8) ≠ 0) (delta32 hdr ip (th + 4) ≠ 0)

/-- **How the numbers are sent**: one after the other, or by one of the special cases, in which they follow from the
length of the last packet. -/
inductive SentAs (hdr ip : Hdr) (th hlen : ℕ) : BitVec 8 → List (BitVec 8) → Prop
  | numbers (hne : changedNumbers hdr ip th ≠ specialI ∧ changedNumbers hdr ip th ≠ specialD) :
    SentAs hdr ip th hlen (changedNumbers hdr ip th) (encodeNumbers hdr ip th)
  | echo (hurg : ¬ Urg ip th) (hwnd : delta16 hdr ip (th + 14) = 0)
    (hack : delta32 hdr ip (th + 8) = delta32 hdr ip (th + 4))
    (hlast : delta32 hdr ip (th + 4) + hlen = readU16 hdr 2) : SentAs hdr ip th hlen specialI []
  | data (hurg : ¬ Urg ip th) (hwnd : delta16 hdr ip (th + 14) = 0) (hack : delta32 hdr ip (th + 8) = 0)
    (hlast : delta32 hdr ip (th + 4) + hlen = readU16 hdr 2) : SentAs hdr ip th hlen specialD []

theorem sentAs_of_special {newSeq : List (BitVec 8)}
    (h : vjSpecial hdr ip th hlen (changedNumbers hdr ip th) (encodeNumbers hdr ip th) = some (changes, newSeq)) :
    SentAs hdr ip th hlen changes newSeq := by
  have hzero : (0 : BitVec 8) ≠ specialI ∧ (0 : BitVec 8) ≠ specialD := by decide
  rw [vjSpecial] at h
  by_cases hc : changedNumbers hdr ip th = 0
  · rw [if_pos hc] at h
    split_ifs at h
    obtain ⟨rfl, rfl⟩ := Prod.ext_iff.1 (Option.some.inj h)
    exact .numbers (by rwa [hc])
  · rw [if_neg hc] at h
    split_ifs at h with hspecial hsa hecho hs hdata
    · obtain ⟨rfl, rfl⟩ := Prod.ext_iff.1 (Option.some.inj h)
      obtain ⟨hu, hw⟩ := numberBits_eq_sa hsa
      exact .echo hu (not_not.1 hw) hecho.1.symm hecho.2
    · obtain ⟨rfl, rfl⟩ := Prod.ext_iff.1 (Option.some.inj h)
      exact .numbers (not_or.1 hspecial)
    · obtain ⟨rfl, rfl⟩ := Prod.ext_iff.1 (Option.some.inj h)
      obtain ⟨hu, hw, ha⟩ := numberBits_eq_s hs
      exact .data hu (not_not.1 hw) (not_not.1 ha) hdata
    · obtain ⟨rfl, rfl⟩ := Prod.ext_iff.1 (Option.some.inj h)
      exact .numbers (not_or.1 hspecial)
    · obtain ⟨rfl, rfl⟩ := Prod.ext_iff.1 (Option.some.inj h)
      exact .numbers (not_or.1 hspecial)

theorem sentAs_of_numbers {newSeq : List (BitVec 8)} (h : vjNumbers hdr ip th hlen = some (changes, newSeq)) :
    (Urg ip th ∨ readU16 ip (th + 18) = readU16 hdr (th + 18)) ∧
      delta32 hdr ip (th + 8) < 2 ^ 16 ∧ delta32 hdr ip (th + 4) < 2 ^ 16 ∧ SentAs hdr ip th hlen changes newSeq := by
  change (if ¬ Urg ip th ∧ readU16 ip (th + 18) ≠ readU16 hdr (th + 18) then none
    else if 0xffff < delta32 hdr ip (th + 8) ∨ 0xffff < delta32 hdr ip (th + 4) then none
    else vjSpecial hdr ip th hlen (changedNumbers hdr ip th) (encodeNumbers hdr ip th)) = _ at h
  by_cases hurg : ¬ Urg ip th ∧ readU16 ip (th + 18) ≠ readU16 hdr (th + 18)
  · rw [if_pos hurg] at h
    cases h
  by_cases hdelta : 0xffff < delta32 hdr ip (th + 8) ∨ 0xffff < delta32 hdr ip (th + 4)
  · rw [if_neg hurg, if_pos hdelta] at h
    cases h
  rw [if_neg hurg, if_neg hdelta] at h
  rw [not_and_or, not_not, not_not] at hurg
  rw [not_or, not_lt, not_lt] at hdelta
  exact ⟨hurg, by omega, by omega, sentAs_of_special h⟩

/-! ### Decoding -/

theorem eqOn_of_delta16 (h : delta16 hdr ip i = 0) : EqOn hdr ip (Ico i (i + 2)) := by
  have hip := readU16_lt ip i
  have hhdr := readU16_lt hdr i
  rw [delta16] at h
  exact eqOn_of_readU16 (by omega)

theorem eqOn_of_delta32 (h : delta32 hdr ip i = 0) : EqOn hdr ip (Ico i (i + 4)) := by
  have hip := readU32_lt ip i
  have hhdr := readU32_lt hdr i
  rw [delta32] at h
  exact eqOn_of_readU32 (by omega)

/-- The header and the place in the compressed one, of which `bs` are still to be read. -/
structure Decoding (mem : Hdr) (x : ℕ) (b : BitVec 8) (P : Set ℕ) (hdr ip : Hdr) (stop : ℕ) (bs : List (BitVec 8))
    (r : Hdr × ℕ) : Prop where
  updated : Updated x P hdr ip r.1
  flags : r.1 x = b
  rest : At mem r.2 bs
  stop : r.2 + bs.length = stop

namespace Decoding

variable {x stop : ℕ} {b : BitVec 8} {r : Hdr × ℕ}

theorem places {Q : Set ℕ} (hd : Decoding mem x b P hdr ip stop bs r) (hPQ : P = Q) :
    Decoding mem x b Q hdr ip stop bs r := hPQ ▸ hd

/-- A field that has not changed. -/
theorem same {Q : Set ℕ} (hd : Decoding mem x b P hdr ip stop bs r) (hQ : EqOn hdr ip Q) :
    Decoding mem x b (P ∪ Q) hdr ip stop bs r := { hd with updated := hd.updated.same hQ }

/-- A field is written, and so much read for it. -/
theorem write {Q : Set ℕ} (hd : Decoding mem x b P hdr ip stop (cs ++ bs) r) (hQ : EqOn g ip Q)
    (hout : ∀ k ∉ Q, g k = r.1 k) (hx : x ∉ Q) (hn : n = r.2 + cs.length) :
    Decoding mem x b (P ∪ Q) hdr ip stop bs (g, n) where
  updated := hd.updated.write hQ hout
  flags := (hout x hx).trans hd.flags
  rest := hn ▸ hd.rest.right
  stop := by rw [← hd.stop, hn, List.length_append, Nat.add_assoc]

/-- A `u16_t`, which is sent as its change if it has changed. -/
theorem number16 {bit : BitVec 8} (hd : Decoding mem x b P hdr ip stop
      ((if delta16 hdr ip i ≠ 0 then encode (delta16 hdr ip i) else []) ++ bs) r)
    (hbit : changes &&& bit ≠ 0 ↔ delta16 hdr ip i ≠ 0) (hP : ∀ k ∈ Ico i (i + 2), k ∉ P) (hx : x ∉ Ico i (i + 2)) :
    Decoding mem x b (P ∪ Ico i (i + 2)) hdr ip stop bs (if changes &&& bit ≠ 0 then decodes mem i r else r) := by
  by_cases hne : delta16 hdr ip i ≠ 0
  · rw [if_pos hne] at hd
    rw [if_pos (hbit.2 hne)]
    have hold := hd.updated.readU16_eq hP hx
    have hip := readU16_lt ip i
    have hhdr := readU16_lt hdr i
    have hdec := decode_encode hd.rest.left hne (Nat.mod_lt _ (Nat.two_pow_pos 16))
    refine hd.write (eqOn_writeU16 ?_) (fun k hk ↦ writeU16_of_notMem hk) hx ?_
    · rw [hdec, hold, delta16]
      omega
    · rw [hdec]
  · rw [if_neg hne] at hd
    rw [if_neg (mt hbit.1 hne)]
    exact hd.same (eqOn_of_delta16 (not_not.1 hne))

/-- A `u32_t`, whose change is a small one. -/
theorem number32 {bit : BitVec 8} (hd : Decoding mem x b P hdr ip stop
      ((if delta32 hdr ip i ≠ 0 then encode (delta32 hdr ip i) else []) ++ bs) r)
    (hlt : delta32 hdr ip i < 2 ^ 16) (hbit : changes &&& bit ≠ 0 ↔ delta32 hdr ip i ≠ 0)
    (hP : ∀ k ∈ Ico i (i + 4), k ∉ P) (hx : x ∉ Ico i (i + 4)) :
    Decoding mem x b (P ∪ Ico i (i + 4)) hdr ip stop bs (if changes &&& bit ≠ 0 then decodel mem i r else r) := by
  by_cases hne : delta32 hdr ip i ≠ 0
  · rw [if_pos hne] at hd
    rw [if_pos (hbit.2 hne)]
    have hold := hd.updated.readU32_eq hP hx
    have hip := readU32_lt ip i
    have hhdr := readU32_lt hdr i
    have hdec := decode_encode hd.rest.left hne hlt
    refine hd.write (eqOn_writeU32 ?_) (fun k hk ↦ writeU32_of_notMem hk) hx ?_
    · rw [hdec, hold, delta32]
      omega
    · rw [hdec]
  · rw [if_neg hne] at hd
    rw [if_neg (mt hbit.1 hne)]
    exact hd.same (eqOn_of_delta32 (not_not.1 hne))

/-- The urgent pointer, which is sent as it is, and the flag for it. -/
theorem urgent (hd : Decoding mem (th + 13) b P hdr ip stop (encodez (readU16 ip (th + 18)) ++ bs) r) :
    Decoding mem (th + 13) (b ||| tcpUrg) (P ∪ Ico (th + 18) (th + 20)) hdr ip stop bs
      (decodeu mem (th + 18) (tcphSetFlag r.1 th tcpUrg, r.2)) := by
  have hdec := decode_encodez hd.rest.left (readU16_lt ip (th + 18))
  have hset : Decoding mem (th + 13) (b ||| tcpUrg) P hdr ip stop (encodez (readU16 ip (th + 18)) ++ bs)
      (tcphSetFlag r.1 th tcpUrg, r.2) :=
    { hd with
      updated := hd.updated.flags _
      flags := (Function.update_self _ _ _).trans (congrArg (· ||| tcpUrg) hd.flags) }
  refine hset.write (eqOn_writeU16 ?_) (fun k hk ↦ writeU16_of_notMem hk) ?_ ?_
  · rw [hdec]
  · rw [mem_Ico]
    omega
  · rw [hdec]

/-- The identification. -/
theorem ident (hd : Decoding mem x b P hdr ip stop
      ((if delta16 hdr ip i ≠ 1 then encodez (delta16 hdr ip i) else []) ++ bs) r)
    (hbit : changes &&& newI ≠ 0 ↔ delta16 hdr ip i ≠ 1) (hP : ∀ k ∈ Ico i (i + 2), k ∉ P) (hx : x ∉ Ico i (i + 2)) :
    Decoding mem x b (P ∪ Ico i (i + 2)) hdr ip stop bs
      (if changes &&& newI ≠ 0 then decodes mem i r else (writeU16 r.1 i ((readU16 r.1 i + 1) % 2 ^ 16), r.2)) := by
  have hold := hd.updated.readU16_eq hP hx
  have hip := readU16_lt ip i
  have hhdr := readU16_lt hdr i
  by_cases hne : delta16 hdr ip i ≠ 1
  · rw [if_pos hne] at hd
    rw [if_pos (hbit.2 hne)]
    have hdec := decode_encodez hd.rest.left (Nat.mod_lt _ (Nat.two_pow_pos 16))
    refine hd.write (eqOn_writeU16 ?_) (fun k hk ↦ writeU16_of_notMem hk) hx ?_
    · rw [hdec, hold, delta16]
      omega
    · rw [hdec]
  · rw [if_neg hne] at hd
    rw [if_neg (mt hbit.1 hne)]
    have hstay : r.2 = r.2 + ([] : List (BitVec 8)).length := rfl
    refine hd.write (eqOn_writeU16 ?_) (fun k hk ↦ writeU16_of_notMem hk) hx hstay
    rw [delta16, not_not] at hne
    rw [hold]
    omega

end Decoding

/-! ### The numbers -/

/-- `TCPH_UNSET_FLAG` sets only bits that are set. -/
theorem tcphUnsetFlag_eq (f : Hdr) (th : ℕ) (flags : BitVec 8) : tcphUnsetFlag f th flags = f := by
  have habsorb : ∀ a c d : BitVec 8, a ||| (a &&& c &&& d) = a := by
    intro a c d
    ext i
    simp only [BitVec.getElem_or, BitVec.getElem_and]
    cases a[i] <;> rfl
  rw [tcphUnsetFlag, tcphFlags, habsorb, Function.update_eq_self]

/-- The places of the numbers in a header whose TCP header is at `th`. -/
def numberPlaces (th : ℕ) : Set ℕ := Ico (th + 4) (th + 12) ∪ Ico (th + 14) (th + 16) ∪ Ico (th + 18) (th + 20)

namespace Decoding

variable {stop : ℕ} {b : BitVec 8} {r : Hdr × ℕ} {newSeq : List (BitVec 8)}

/-- The numbers one after the other. -/
theorem numbers (hd : Decoding mem (th + 13) b (Ico (th + 16) (th + 18)) hdr ip stop (encodeNumbers hdr ip th ++ bs) r)
    (hmask : changes &&& specialsMask = changedNumbers hdr ip th)
    (hurg : Urg ip th ∨ readU16 ip (th + 18) = readU16 hdr (th + 18)) (hack : delta32 hdr ip (th + 8) < 2 ^ 16)
    (hseq : delta32 hdr ip (th + 4) < 2 ^ 16) :
    Decoding mem (th + 13) (if Urg ip th then b ||| tcpUrg else b) (Ico (th + 16) (th + 18) ∪ numberPlaces th) hdr ip
      stop bs (vjDefault mem changes th r) := by
  have hu : changes &&& newU ≠ 0 ↔ Urg ip th := by
    rw [and_specialsMask (by decide), hmask]
    exact numberBits_u
  have hw : changes &&& newW ≠ 0 ↔ delta16 hdr ip (th + 14) ≠ 0 := by
    rw [and_specialsMask (by decide), hmask]
    exact numberBits_w
  have ha : changes &&& newA ≠ 0 ↔ delta32 hdr ip (th + 8) ≠ 0 := by
    rw [and_specialsMask (by decide), hmask]
    exact numberBits_a
  have hs : changes &&& newS ≠ 0 ↔ delta32 hdr ip (th + 4) ≠ 0 := by
    rw [and_specialsMask (by decide), hmask]
    exact numberBits_s
  rw [encodeNumbers, List.append_assoc, List.append_assoc, List.append_assoc] at hd
  -- the urgent pointer, the window, the acknowledgement and the sequence number in this order
  have hdu : Decoding mem (th + 13) (if Urg ip th then b ||| tcpUrg else b)
      (Ico (th + 16) (th + 18) ∪ Ico (th + 18) (th + 20)) hdr ip stop
      ((if delta16 hdr ip (th + 14) ≠ 0 then encode (delta16 hdr ip (th + 14)) else []) ++
        ((if delta32 hdr ip (th + 8) ≠ 0 then encode (delta32 hdr ip (th + 8)) else []) ++
          ((if delta32 hdr ip (th + 4) ≠ 0 then encode (delta32 hdr ip (th + 4)) else []) ++ bs)))
      (if changes &&& newU ≠ 0 then decodeu mem (th + 18) (tcphSetFlag r.1 th tcpUrg, r.2)
        else (tcphUnsetFlag r.1 th tcpUrg, r.2)) := by
    by_cases h : Urg ip th
    · rw [if_pos h] at hd ⊢
      rw [if_pos (hu.2 h)]
      exact hd.urgent
    · rw [if_neg h, List.nil_append] at hd
      rw [if_neg h, if_neg (mt hu.1 h), tcphUnsetFlag_eq]
      exact hd.same (eqOn_of_readU16 (hurg.resolve_left h).symm)
  have hdw := hdu.number16 hw (fun k hk hk' ↦ by
    simp only [mem_union, mem_Ico] at hk hk'
    omega) (by rw [mem_Ico]; omega)
  have hda := hdw.number32 hack ha (fun k hk hk' ↦ by
    simp only [mem_union, mem_Ico] at hk hk'
    omega) (by rw [mem_Ico]; omega)
  have hds := hda.number32 hseq hs (fun k hk hk' ↦ by
    simp only [mem_union, mem_Ico] at hk hk'
    omega) (by rw [mem_Ico]; omega)
  refine hds.places (ext fun k ↦ ?_)
  simp only [numberPlaces, mem_union, mem_Ico]
  omega

end Decoding

end Lwip.Netif.Ppp
