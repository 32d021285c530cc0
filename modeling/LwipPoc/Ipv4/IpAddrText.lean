import LwipPoc.Ipv4.IpAddr
import Mathlib.Tactic.IntervalCases

/-!
# Writing addresses

`ipaddr_ntoa_r` of `core/ipv4/ip_addr.c`. The digits of a byte are produced in reverse in the scratch buffer
`inv`, which has three places, and then copied; whether there is room is tested for each character, also for
the dot behind the last byte, in whose place the terminating zero is written.

The text is specified with `Nat.toDigits`: **the canonical dotted decimal form** `dotted`. It is written if it
fits together with its terminator, for every address and length of the buffer, and read back by `ipaddr_aton`
(`ipaddrNtoaR_spec`). What makes the form canonical matters there: a number with a leading zero would be read
as an octal one.
-/

namespace Lwip.Ipv4

/-- What was written to the buffer: `len`, and the characters in front of `rp`. -/
structure NtoaBuf where
  len : ℕ
  text : List Chr
  deriving DecidableEq, Repr

/-- The loop over the digits of a byte: `inv`, the last digit in front, with so many places left. -/
def invDigits : ℕ → BitVec 8 → List Chr → Option (List Chr)
  | 0, _, _ => none
  | room + 1, ap, inv =>
    let rem := ap % 10
    let ap := ap / 10
    let inv := (0x30 + rem) :: inv
    if ap ≠ 0 then invDigits room ap inv else some inv

/-- Write characters, as long as there is room. -/
def puts (buflen : ℤ) : NtoaBuf → List Chr → Except NtoaBuf NtoaBuf
  | b, [] => .ok b
  | b, c :: cs =>
    if buflen ≤ b.len then .error { b with len := b.len + 1 }
    else puts buflen ⟨b.len + 1, b.text ++ [c]⟩ cs

/-- The loop over the bytes of the address. -/
def ntoaBytes (buflen : ℤ) : List (BitVec 8) → NtoaBuf → Option (Except NtoaBuf NtoaBuf)
  | [], b => some (.ok b)
  | ap :: aps, b => (invDigits 3 ap []).bind fun inv ↦
      match (puts buflen b inv).bind fun b ↦ puts buflen b [0x2e] with
      | .error b => some (.error b)
      | .ok b => ntoaBytes buflen aps b

/-- The bytes of an address. -/
def addrBytes (addr : U32) : List (BitVec 8) :=
  [addr.extractLsb' 0 8, addr.extractLsb' 8 8, addr.extractLsb' 16 8, addr.extractLsb' 24 8]

/-- **`ipaddr_ntoa_r`**: what the buffer holds if it is returned, or what was written to it if `NULL` is
returned. -/
def ipaddrNtoaR (addr : U32) (buflen : ℤ) : Option (Except (List Chr) (List Chr)) :=
  (ntoaBytes buflen (addrBytes addr) ⟨0, []⟩).map fun
    | .error b => .error b.text
    | .ok b => .ok (b.text.dropLast ++ [0])

/-! ### Decimal numbers -/

/-- A number in decimal, without leading zeros. -/
def decimal (n : ℕ) : List Chr := (Nat.toDigits 10 n).map fun c ↦ BitVec.ofNat 8 c.toNat

/-- The canonical text of an address. -/
def dotted (addr : U32) : List Chr :=
  [0x2e].intercalate ((addrBytes addr).map fun b ↦ decimal b.toNat)

/-- A digit. -/
def digitChr (d : ℕ) : Chr := BitVec.ofNat 8 (0x30 + d)

theorem ofNat_digitChar : ∀ d < 10, BitVec.ofNat 8 (Nat.digitChar d).toNat = digitChr d := by decide

theorem decimal_eq (n : ℕ) :
    decimal n = if n < 10 then [digitChr n] else decimal (n / 10) ++ [digitChr (n % 10)] := by
  rw [decimal, Nat.toDigits_eq_if (by decide)]
  split_ifs with h
  · rw [List.map_singleton, ofNat_digitChar n h]
  · rw [List.map_append, List.map_singleton, ofNat_digitChar _ (Nat.mod_lt n (by decide)), decimal]

theorem toNat_digitChr {d : ℕ} (h : d < 10) : (digitChr d).toNat = 0x30 + d := by
  rw [digitChr, BitVec.toNat_ofNat]
  omega

/-- **A number is digits, of which the first one is not zero** unless it is the only one. -/
theorem decimal_eq_cons (n : ℕ) : ∃ d ds, decimal n = digitChr d :: ds ∧ d < 10 ∧ (d = 0 → n = 0 ∧ ds = []) ∧
    ∀ c ∈ ds, ∃ d < 10, c = digitChr d := by
  induction n using Nat.strong_induction_on with
  | _ n ih =>
    rw [decimal_eq]
    split_ifs with h
    · exact ⟨n, [], rfl, h, fun hn ↦ ⟨hn, rfl⟩, by simp⟩
    · obtain ⟨d, ds, hdec, hd, hzero, hds⟩ := ih (n / 10) (by omega)
      rw [hdec]
      refine ⟨d, ds ++ [digitChr (n % 10)], rfl, hd, fun hd0 ↦ ?_, fun c hc ↦ ?_⟩
      · have := (hzero hd0).1
        omega
      · rcases List.mem_append.1 hc with hc | hc
        · exact hds c hc
        · exact ⟨n % 10, Nat.mod_lt n (by decide), List.mem_singleton.1 hc⟩

/-! ### Writing -/

/-- **The digits** of a byte fit into the scratch buffer. -/
theorem invDigits_eq {room : ℕ} {ap : BitVec 8} (hap : ap.toNat < 10 ^ room) (hroom : 0 < room)
    (inv : List Chr) : invDigits room ap inv = some (decimal ap.toNat ++ inv) := by
  induction room generalizing ap inv with
  | zero => omega
  | succ room ih =>
    have hrem : (0x30 + ap % 10 : BitVec 8) = digitChr (ap.toNat % 10) := by
      refine BitVec.eq_of_toNat_eq ?_
      rw [toNat_digitChr (Nat.mod_lt _ (by decide))]
      simp only [BitVec.toNat_add, BitVec.toNat_umod, BitVec.reduceToNat]
      omega
    have hdiv : (ap / 10).toNat = ap.toNat / 10 := BitVec.toNat_udiv
    have hzero : ap / 10 ≠ 0 ↔ 10 ≤ ap.toNat := by
      rw [ne_eq, ← BitVec.toNat_inj, hdiv]
      simp only [BitVec.ofNat_eq_ofNat, BitVec.toNat_ofNat]
      omega
    simp only [invDigits, hrem]
    rw [decimal_eq]
    split_ifs with hmore hlt hlt
    · have := hzero.1 hmore
      omega
    · have hlt' : (ap / 10).toNat < 10 ^ room := by
        rw [hdiv]
        rw [Nat.pow_succ] at hap
        omega
      have hroom' : 0 < room := by
        rcases Nat.eq_zero_or_pos room with rfl | hpos
        · simp only [Nat.pow_zero] at hlt'
          omega
        · exact hpos
      rw [ih hlt' hroom', hdiv, List.append_assoc]
      rfl
    · rw [Nat.mod_eq_of_lt hlt]
      rfl
    · exact absurd (hzero.2 (Nat.le_of_not_lt hlt)) hmore

theorem puts_append (buflen : ℤ) (b : NtoaBuf) (cs ds : List Chr) :
    puts buflen b (cs ++ ds) = (puts buflen b cs).bind fun b ↦ puts buflen b ds := by
  induction cs generalizing b with
  | nil => rfl
  | cons c cs ih =>
    rw [List.cons_append, puts, puts]
    split_ifs
    · rfl
    · exact ih _

/-- **Writing characters**: all of them, or as many as there is room for. -/
theorem puts_spec {buflen : ℤ} {b : NtoaBuf} (hlen : b.len = b.text.length) (cs : List Chr) :
    (b.text.length + cs.length ≤ buflen →
      puts buflen b cs = .ok ⟨b.len + cs.length, b.text ++ cs⟩) ∧
    (buflen < b.text.length + cs.length → cs ≠ [] →
      ∃ b', puts buflen b cs = .error b' ∧ (b'.text.length : ℤ) ≤ max buflen b.text.length) := by
  induction cs generalizing b with
  | nil => exact ⟨fun _ ↦ by simp [puts], fun _ h ↦ absurd rfl h⟩
  | cons c cs ih =>
    have hstep : (NtoaBuf.mk (b.len + 1) (b.text ++ [c])).len =
        (NtoaBuf.mk (b.len + 1) (b.text ++ [c])).text.length := by simp [hlen]
    obtain ⟨hok, herr⟩ := ih hstep
    dsimp only at hok herr
    have hmore : ((b.text ++ [c]).length : ℤ) = b.text.length + 1 := by simp
    rw [hmore] at hok herr
    rw [List.length_cons, Nat.cast_add, Nat.cast_one]
    rw [puts, hlen]
    split_ifs with hfull
    · exact ⟨fun h ↦ by omega, fun _ _ ↦ ⟨_, rfl, le_max_right _ _⟩⟩
    · refine ⟨fun h ↦ ?_, fun h _ ↦ ?_⟩
      · rw [← hlen, hok (by omega), List.append_assoc]
        simp [Nat.add_assoc, Nat.add_comm 1]
      · have hne : cs ≠ [] := by
          rintro rfl
          simp only [List.length_nil, Nat.cast_zero] at h
          omega
        obtain ⟨b', hb', hle⟩ := herr (by omega) hne
        rw [← hlen]
        exact ⟨b', hb', by omega⟩

/-- The loop over the bytes writes their digits, and a dot behind each of them. -/
theorem ntoaBytes_eq (buflen : ℤ) (aps : List (BitVec 8)) (b : NtoaBuf) :
    ntoaBytes buflen aps b =
      some (puts buflen b (aps.flatMap fun ap ↦ decimal ap.toNat ++ [0x2e])) := by
  induction aps generalizing b with
  | nil => rfl
  | cons ap aps ih =>
    have hdigits : invDigits 3 ap [] = some (decimal ap.toNat) := by
      rw [invDigits_eq (by have := ap.isLt; omega) (by decide), List.append_nil]
    rw [ntoaBytes, hdigits, Option.bind_some, List.flatMap_cons, puts_append, puts_append]
    rcases (puts buflen b (decimal ap.toNat)).bind fun b ↦ puts buflen b [0x2e] with b' | b'
    · rfl
    · exact ih b'

/-- The characters that are written are those of the text, and one more dot. -/
theorem flatMap_addrBytes (addr : U32) :
    ((addrBytes addr).flatMap fun ap ↦ decimal ap.toNat ++ [0x2e]) = dotted addr ++ [0x2e] := by
  simp [dotted, addrBytes, List.intercalate]

/-! ### Reading back -/

theorem isDigit_digitChr : ∀ d < 10, isDigit (digitChr d) = true ∧
    (digitChr d - 0x30).setWidth 32 = BitVec.ofNat 32 d ∧ (digitChr d = 0x30 → d = 0) ∧ digitChr d ≠ 0 := by decide

/-- Digits that are read behind a number. -/
theorem atonDigits_decimal (n : ℕ) (rest : List Chr) :
    atonDigits 10 0 (decimal n ++ rest) = atonDigits 10 (BitVec.ofNat 32 n) rest := by
  induction n using Nat.strong_induction_on generalizing rest with
  | _ n ih =>
    have hone : ∀ (v : U32) (d : ℕ) (cs : List Chr), d < 10 →
        atonDigits 10 v (digitChr d :: cs) = atonDigits 10 (v * 10 + BitVec.ofNat 32 d) cs := by
      intro v d cs hd
      obtain ⟨hdigit, hval, -⟩ := isDigit_digitChr d hd
      rw [atonDigits, if_pos hdigit, hval]
    rw [decimal_eq]
    split_ifs with h
    · rw [List.singleton_append, hone 0 n rest h]
      simp
    · rw [List.append_assoc, ih (n / 10) (by omega), List.singleton_append,
        hone _ _ _ (Nat.mod_lt n (by decide))]
      congr 1
      refine BitVec.eq_of_toNat_eq ?_
      simp only [BitVec.toNat_add, BitVec.toNat_mul, BitVec.toNat_ofNat, BitVec.reduceToNat]
      omega

/-- The digits end where there is no further one. -/
theorem atonDigits_end {base val : U32} {rest : List Chr} (hbase : base ≠ 16)
    (hrest : isDigit (deref rest) = false) : atonDigits base val rest = (val, rest) := by
  rcases rest with _ | ⟨c, cs⟩
  · rfl
  · have hc : isDigit c = false := hrest
    rw [atonDigits, if_neg (by simp [hc]), if_neg (fun h ↦ hbase h.1)]

/-- **A number is read back**: a leading zero, which stands for another base, is the only digit. -/
theorem aton_decimal (n : ℕ) {rest : List Chr} (hrest : deref rest = 0x2e ∨ rest = []) :
    isDigit (deref (decimal n ++ rest)) = true ∧
      atonDigits (atonBase (decimal n ++ rest)).1 0 (atonBase (decimal n ++ rest)).2 =
        (BitVec.ofNat 32 n, rest) := by
  have hend : isDigit (deref rest) = false ∧ deref rest ≠ 0x78 ∧ deref rest ≠ 0x58 := by
    rcases hrest with h | rfl
    · rw [h]
      decide
    · decide
  obtain ⟨d, ds, hdec, hd, hzero, -⟩ := decimal_eq_cons n
  obtain ⟨hdigit, -, hchr, -⟩ := isDigit_digitChr d hd
  have hderef : deref (decimal n ++ rest) = digitChr d := by rw [hdec]; rfl
  refine ⟨hderef ▸ hdigit, ?_⟩
  rcases Nat.eq_zero_or_pos d with rfl | hpos
  · obtain ⟨rfl, rfl⟩ := hzero rfl
    have htail : (decimal 0 ++ rest).tail = rest := by rw [hdec]; rfl
    have hbase : atonBase (decimal 0 ++ rest) = (8, rest) := by
      rw [atonBase, hderef, if_pos (by decide)]
      dsimp only
      rw [htail, if_neg (not_or.2 hend.2)]
    rw [hbase]
    exact atonDigits_end (show (8 : U32) ≠ 16 by decide) hend.1
  · have hbase : atonBase (decimal n ++ rest) = (10, decimal n ++ rest) := by
      rw [atonBase, hderef, if_neg (fun h ↦ hpos.ne' (hchr h))]
    rw [hbase, atonDigits_decimal]
    exact atonDigits_end (by decide) hend.1

/-- A part of the address, with a dot behind it. -/
theorem atonParts_dot (room : ℕ) (parts : List U32) (n : ℕ) (cp : List Chr) :
    atonParts (room + 1) parts (decimal n ++ 0x2e :: cp) =
      atonParts room (parts ++ [BitVec.ofNat 32 n]) cp := by
  obtain ⟨hdigit, hval⟩ := @aton_decimal n (0x2e :: cp) (.inl rfl)
  rw [atonParts, if_pos hdigit]
  simp only [hval]
  exact if_pos rfl

/-- The last part. -/
theorem atonParts_end (room : ℕ) (parts : List U32) (n : ℕ) :
    atonParts room parts (decimal n) = some (parts, BitVec.ofNat 32 n, []) := by
  obtain ⟨hdigit, hval⟩ := @aton_decimal n [] (.inr rfl)
  rw [List.append_nil] at hdigit hval
  rw [atonParts, if_pos hdigit]
  simp only [hval]
  rw [if_neg (by decide)]

/-- The bytes of an address, put together in host order. -/
theorem htonl_bytes (addr : U32) : htonl ((addr.extractLsb' 24 8).setWidth 32 |||
    ((addr.extractLsb' 0 8).setWidth 32 <<< 24 ||| (addr.extractLsb' 8 8).setWidth 32 <<< 16 |||
      (addr.extractLsb' 16 8).setWidth 32 <<< 8)) = addr := by
  refine BitVec.eq_of_getLsbD_eq fun i hi ↦ ?_
  simp only [htonl, BitVec.getLsbD_or, BitVec.getLsbD_and, BitVec.getLsbD_shiftLeft,
    BitVec.getLsbD_ushiftRight, BitVec.getLsbD_setWidth, BitVec.getLsbD_extractLsb']
  interval_cases i <;> simp

/-- **The text is read back.** -/
theorem ipaddrAton_dotted (addr : U32) : ipaddrAton (dotted addr) = some addr := by
  have hbytes : ∀ b : BitVec 8, BitVec.ofNat 32 b.toNat = b.setWidth 32 := fun b ↦ BitVec.ofNat_toNat 32 b
  have htext : dotted addr = decimal (addr.extractLsb' 0 8).toNat ++ 0x2e ::
      (decimal (addr.extractLsb' 8 8).toNat ++ 0x2e :: (decimal (addr.extractLsb' 16 8).toNat ++
        0x2e :: decimal (addr.extractLsb' 24 8).toNat)) := by
    simp [dotted, addrBytes, List.intercalate]
  have hsmall : ¬(0xff : U32) < (addr.extractLsb' 24 8).setWidth 32 := by
    have := (addr.extractLsb' 24 8).isLt
    rw [BitVec.lt_def, BitVec.toNat_setWidth]
    simp only [BitVec.reduceToNat]
    omega
  rw [ipaddrAton, htext, atonParts_dot, atonParts_dot, atonParts_dot, atonParts_end, Option.bind_some,
    if_neg (fun h ↦ h.1 rfl)]
  simp only [List.nil_append, List.cons_append, hbytes, atonConcoct]
  rw [if_neg hsmall, Option.map_some, htonl_bytes]

/-- No character of the text is zero. -/
theorem ne_zero_of_mem_dotted {addr : U32} {c : Chr} (hc : c ∈ dotted addr) : c ≠ 0 := by
  have hdec : ∀ n, ∀ c ∈ decimal n, c ≠ 0 := by
    intro n c hc
    obtain ⟨d, ds, hdec, hd, -, hds⟩ := decimal_eq_cons n
    rw [hdec] at hc
    rcases List.mem_cons.1 hc with rfl | hc
    · exact (isDigit_digitChr d hd).2.2.2
    · obtain ⟨e, he, rfl⟩ := hds c hc
      exact (isDigit_digitChr e he).2.2.2
  simp only [dotted, addrBytes, List.map_cons, List.map_nil, List.intercalate, List.intersperse,
    List.flatten_cons, List.flatten_nil, List.mem_append, List.mem_singleton, List.append_nil] at hc
  rcases hc with hc | rfl | hc | rfl | hc | rfl | hc
  all_goals first | exact hdec _ _ hc | decide

/-! ### The function -/

/-- The string that starts at a buffer. -/
def cString (buf : List Chr) : List Chr := buf.takeWhile fun c ↦ c ≠ 0

/-- **`ipaddr_ntoa_r`**, for every address and every length of the buffer: the scratch buffer does not overflow
and no more is written than there is room for; `NULL` is returned if and only if the text and its terminator do
not fit; otherwise the buffer holds the canonical text, which is read back as the same address. -/
theorem ipaddrNtoaR_spec (addr : U32) (buflen : ℤ) : ∃ r, ipaddrNtoaR addr buflen = some r ∧
    (∀ w, r = .error w ∨ r = .ok w → (w.length : ℤ) ≤ max buflen 0) ∧
    ((∃ w, r = .error w) ↔ buflen < (dotted addr).length + 1) ∧
    ∀ w, r = .ok w → w = dotted addr ++ [0] ∧ cString w = dotted addr ∧ ipaddrAton (cString w) = some addr := by
  have hrun : ntoaBytes buflen (addrBytes addr) ⟨0, []⟩ =
      some (puts buflen ⟨0, []⟩ (dotted addr ++ [0x2e])) := by
    rw [ntoaBytes_eq, flatMap_addrBytes]
  obtain ⟨hok, herr⟩ := @puts_spec buflen ⟨0, []⟩ rfl (dotted addr ++ [0x2e])
  have hlen : ((dotted addr ++ [0x2e]).length : ℤ) = (dotted addr).length + 1 := by simp
  rw [hlen, List.length_nil, Nat.cast_zero, Int.zero_add] at hok herr
  have hstring : cString (dotted addr ++ [0]) = dotted addr := by
    rw [cString, List.takeWhile_append_of_pos (fun c hc ↦ by simpa using ne_zero_of_mem_dotted hc)]
    simp
  rw [ipaddrNtoaR, hrun, Option.map_some]
  rcases lt_or_ge buflen ((dotted addr).length + 1) with hshort | hroom
  · obtain ⟨b, hb, hle⟩ := herr hshort (by simp)
    rw [hb]
    refine ⟨_, rfl, fun w hw ↦ ?_, ⟨fun _ ↦ hshort, fun _ ↦ ⟨_, rfl⟩⟩, fun w hw ↦ by cases hw⟩
    rcases hw with hw | hw <;> cases hw
    exact hle
  · rw [hok hroom]
    have htext : ([] ++ (dotted addr ++ [0x2e])).dropLast ++ [0] = dotted addr ++ [(0 : Chr)] := by simp
    refine ⟨_, rfl, fun w hw ↦ ?_, ⟨fun h ↦ (by obtain ⟨w, hw⟩ := h; cases hw), fun h ↦ (by omega)⟩, fun w hw ↦ ?_⟩
    · rcases hw with hw | hw <;> cases hw
      rw [htext]
      simp only [List.length_append, List.length_singleton, Nat.cast_add, Nat.cast_one]
      omega
    · cases hw
      rw [htext]
      exact ⟨rfl, hstring, by rw [hstring, ipaddrAton_dotted]⟩

-- "10.0.0.255"
example : ipaddrNtoaR 0xff00000a 11 =
    some (.ok [0x31, 0x30, 0x2e, 0x30, 0x2e, 0x30, 0x2e, 0x32, 0x35, 0x35, 0]) := by decide

end Lwip.Ipv4
