import LwipPoc.Ipv4.IpAddr

/-!
# The language of `ipaddr_aton`

An address in text is one to four numbers in the notation of C with dots between them (`InetText`). The code
does not look for them: it takes the longest run of digits behind the prefix of a base, whatever their number
and size, and looks at the value of the last run only, in a `u32_t` (`readNumerals`). The two come apart in
**four ways**: an octal number with a digit 8 or 9, a prefix `0x` with no digit behind it, a number from
`2 ^ 32` on, and a part in front of the last one that is more than a byte. A string with one of these is
accepted as long as the last number, modulo `2 ^ 32`, is within its limit; there are no other differences
(`ipaddrAton_iff`).
-/

namespace Lwip.Ipv4

/-! ### The language -/

/-- The number that is written with these digits. -/
def numberOf (base : ℕ) (ds : List ℕ) : ℕ := ds.foldl (fun v d ↦ v * base + d) 0

/-- The value of a decimal digit. -/
def digitVal (c : Chr) : ℕ := (c - 0x30).toNat

/-- The value of a hexadecimal digit. -/
def hexVal (c : Chr) : ℕ := if isDigit c then digitVal c else (c + 10 - if isLower c then 0x61 else 0x41).toNat

/-- A number in the notation of C, and its value. -/
inductive CNumber : List Chr → ℕ → Prop
  | decimal (c : Chr) (cs : List Chr) (hc : c ≠ 0x30) (hdigits : ∀ x ∈ c :: cs, isDigit x = true) :
      CNumber (c :: cs) (numberOf 10 ((c :: cs).map digitVal))
  | octal (cs : List Chr) (hdigits : ∀ x ∈ cs, isDigit x = true ∧ digitVal x < 8) :
      CNumber (0x30 :: cs) (numberOf 8 (cs.map digitVal))
  | hexadecimal (x : Chr) (cs : List Chr) (hx : x = 0x78 ∨ x = 0x58) (hne : cs ≠ [])
      (hdigits : ∀ y ∈ cs, isXDigit y = true) : CNumber (0x30 :: x :: cs) (numberOf 16 (cs.map hexVal))

/-- The string ends here, or a white-space character comes next. -/
def Ends (rest : List Chr) : Prop := deref rest = 0 ∨ isSpace (deref rest) = true

instance (rest : List Chr) : Decidable (Ends rest) := inferInstanceAs (Decidable (_ ∨ _))

/-- **The strings for an address**, and the numbers in them. -/
structure InetText (s : List Chr) (parts : List ℕ) : Prop where
  reads : ∃ texts rest, List.Forall₂ CNumber texts parts ∧ s = [0x2e].intercalate texts ++ rest ∧ Ends rest
  pos : 1 ≤ parts.length
  le_four : parts.length ≤ 4
  inner : ∀ p ∈ parts.dropLast, p ≤ 255
  /-- The last number is for all the bytes that are left. -/
  last : ∀ p ∈ parts.getLast?, p < 256 ^ (5 - parts.length)

/-- The parts of an address put together, the first one as byte `n`. -/
def inetValue : ℕ → List ℕ → ℕ
  | _, [] => 0
  | _, [p] => p
  | n, p :: ps => p * 256 ^ n + inetValue (n - 1) ps

/-- The address with these parts, in network order. -/
def inetAddr (parts : List ℕ) : U32 := htonl (BitVec.ofNat 32 (inetValue 3 parts))

/-! ### What the code takes for numbers -/

/-- A run of digits behind the prefix of a base. -/
structure Numeral where
  base : ℕ
  digits : List ℕ
  deriving DecidableEq, Repr

/-- Its value. -/
def Numeral.value (n : Numeral) : ℕ := numberOf n.base n.digits

/-- It is a number in the notation of C, and fits into a `u32_t`. -/
structure Numeral.Proper (n : Numeral) : Prop where
  octal : n.base = 8 → ∀ d ∈ n.digits, d < 8
  hexadecimal : n.base = 16 → n.digits ≠ []
  value_lt : n.value < 2 ^ 32

instance (n : Numeral) : Decidable n.Proper :=
  decidable_of_iff ((n.base = 8 → ∀ d ∈ n.digits, d < 8) ∧ (n.base = 16 → n.digits ≠ []) ∧ n.value < 2 ^ 32)
    ⟨fun h ↦ ⟨h.1, h.2.1, h.2.2⟩, fun h ↦ ⟨h.octal, h.hexadecimal, h.value_lt⟩⟩

/-- The run of digits at the start of a string, and what is behind it. -/
def readNumeral (cp : List Chr) : Numeral × List Chr :=
  if deref cp = 0x30 then
    if deref cp.tail = 0x78 ∨ deref cp.tail = 0x58 then
      (⟨16, (cp.tail.tail.takeWhile isXDigit).map hexVal⟩, cp.tail.tail.dropWhile isXDigit)
    else (⟨8, (cp.tail.takeWhile isDigit).map digitVal⟩, cp.tail.dropWhile isDigit)
  else (⟨10, (cp.takeWhile isDigit).map digitVal⟩, cp.dropWhile isDigit)

/-- The runs of digits with dots between them, with room for so many after the first one. -/
def readNumerals : ℕ → List Chr → Option (List Numeral × List Chr)
  | room, cp =>
    if isDigit (deref cp) then
      if deref (readNumeral cp).2 = 0x2e then
        match room with
        | 0 => none
        | room + 1 => (readNumerals room (readNumeral cp).2.tail).map fun r ↦ ((readNumeral cp).1 :: r.1, r.2)
      else some ([(readNumeral cp).1], (readNumeral cp).2)
    else none

/-- The last number, in a `u32_t`, is within its limit. -/
def lastFits (ns : List Numeral) : Prop :=
  ∀ n ∈ ns.getLast?, n.value % 2 ^ 32 < 256 ^ (5 - ns.length)

instance (ns : List Numeral) : Decidable (lastFits ns) :=
  inferInstanceAs (Decidable (∀ n ∈ ns.getLast?, _))

/-- **The condition**: where the digits and dots take the string to its end, and the last number is within its
limit, all numbers are proper ones, and those in front are bytes. -/
def Flawless (s : List Chr) : Prop :=
  ∀ r ∈ readNumerals 3 s, Ends r.2 → lastFits r.1 →
    (∀ n ∈ r.1, n.Proper) ∧ ∀ n ∈ r.1.dropLast, n.value ≤ 255

instance (s : List Chr) : Decidable (Flawless s) :=
  inferInstanceAs (Decidable (∀ r ∈ readNumerals 3 s, _ → _ → _ ∧ _))

-- "10.0x1.3", and "08", "0x", "4294967296"
example : Flawless [0x31, 0x30, 0x2e, 0x30, 0x78, 0x31, 0x2e, 0x33] ∧ ¬Flawless [0x30, 0x38] ∧
    ¬Flawless [0x30, 0x78] ∧ ¬Flawless [0x34, 0x32, 0x39, 0x34, 0x39, 0x36, 0x37, 0x32, 0x39, 0x36] := by decide

/-! ### The code reads runs of digits -/

attribute [local simp] readNumerals atonConcoct

theorem numberOf_concat (base : ℕ) (ds : List ℕ) (d : ℕ) : numberOf base (ds ++ [d]) = numberOf base ds * base + d := by
  rw [numberOf, List.foldl_append, List.foldl_cons, List.foldl_nil, numberOf]

theorem isXDigit_of_isDigit {c : Chr} (h : isDigit c = true) : isXDigit c = true := by
  rw [isXDigit, h]
  rfl

/-- One digit more, in a `u32_t`. -/
theorem digit_step (c : Chr) : (c - 0x30).setWidth 32 = BitVec.ofNat 32 (digitVal c) := by
  refine BitVec.eq_of_toNat_eq ?_
  rw [BitVec.toNat_setWidth, BitVec.toNat_ofNat, digitVal]

/-- A letter is a digit of four bits, put in the place of those that were shifted out. -/
theorem letter_step : ∀ c : Chr, isDigit c = false → isXDigit c = true →
    c.setWidth 32 + 10 - (if isLower c then 0x61 else 0x41) = BitVec.ofNat 32 (hexVal c) ∧ hexVal c < 16 := by
  decide

theorem shift_or (k v : ℕ) {d : ℕ} (hd : d < 2 ^ k) :
    BitVec.ofNat 32 v <<< k ||| BitVec.ofNat 32 d = BitVec.ofNat 32 (v * 2 ^ k + d) := by
  have hsplit : BitVec.ofNat 32 v <<< k ||| BitVec.ofNat 32 d = BitVec.ofNat 32 v <<< k + BitVec.ofNat 32 d := by
    refine (BitVec.add_eq_or_of_and_eq_zero _ _ ?_).symm
    refine BitVec.eq_of_getLsbD_eq fun i hi ↦ ?_
    rcases Nat.lt_or_ge i k with hlow | hhigh
    · simp [BitVec.getLsbD_shiftLeft, hlow]
    · have hbit : d.testBit i = false :=
        Nat.testBit_lt_two_pow (hd.trans_le (Nat.pow_le_pow_right (by decide) hhigh))
      simp [BitVec.getLsbD_ofNat, hbit]
  have hpow : BitVec.twoPow 32 k = BitVec.ofNat 32 (2 ^ k) :=
    BitVec.eq_of_toNat_eq (by rw [BitVec.toNat_twoPow, BitVec.toNat_ofNat])
  rw [hsplit, BitVec.shiftLeft_eq_mul_twoPow, hpow, BitVec.ofNat_add, BitVec.ofNat_mul]

/-- **The digits of a decimal or an octal number.** -/
theorem atonDigits_eq {base : ℕ} (hbase : BitVec.ofNat 32 base ≠ 16) (ds : List ℕ) (cp : List Chr) :
    atonDigits (BitVec.ofNat 32 base) (BitVec.ofNat 32 (numberOf base ds)) cp =
      (BitVec.ofNat 32 (numberOf base (ds ++ (cp.takeWhile isDigit).map digitVal)), cp.dropWhile isDigit) := by
  induction cp generalizing ds with
  | nil => simp [atonDigits]
  | cons c cp ih =>
    rw [atonDigits]
    by_cases hdigit : isDigit c = true
    · have hval : BitVec.ofNat 32 (numberOf base ds) * BitVec.ofNat 32 base + (c - 0x30).setWidth 32 =
          BitVec.ofNat 32 (numberOf base (ds ++ [digitVal c])) := by
        rw [digit_step c, numberOf_concat, BitVec.ofNat_add, BitVec.ofNat_mul]
      rw [if_pos hdigit, hval, ih, List.append_assoc, List.takeWhile_cons_of_pos hdigit,
        List.dropWhile_cons_of_pos hdigit]
      rfl
    · rw [if_neg hdigit, if_neg fun h ↦ hbase h.1, List.takeWhile_cons_of_neg hdigit,
        List.dropWhile_cons_of_neg hdigit, List.map_nil, List.append_nil]

/-- **The digits of a hexadecimal number.** -/
theorem atonDigits_hex (ds : List ℕ) (cp : List Chr) :
    atonDigits 16 (BitVec.ofNat 32 (numberOf 16 ds)) cp =
      (BitVec.ofNat 32 (numberOf 16 (ds ++ (cp.takeWhile isXDigit).map hexVal)), cp.dropWhile isXDigit) := by
  induction cp generalizing ds with
  | nil => simp [atonDigits]
  | cons c cp ih =>
    have hmore : ∀ hx : isXDigit c = true,
        atonDigits 16 (BitVec.ofNat 32 (numberOf 16 (ds ++ [hexVal c]))) cp =
          (BitVec.ofNat 32 (numberOf 16 (ds ++ ((c :: cp).takeWhile isXDigit).map hexVal)),
            (c :: cp).dropWhile isXDigit) := by
      intro hx
      rw [ih, List.append_assoc, List.takeWhile_cons_of_pos hx, List.dropWhile_cons_of_pos hx]
      rfl
    rw [atonDigits]
    by_cases hdigit : isDigit c = true
    · have hval : BitVec.ofNat 32 (numberOf 16 ds) * 16 + (c - 0x30).setWidth 32 =
          BitVec.ofNat 32 (numberOf 16 (ds ++ [hexVal c])) := by
        rw [digit_step c, numberOf_concat, BitVec.ofNat_add, BitVec.ofNat_mul, hexVal, if_pos hdigit]
        rfl
      rw [if_pos hdigit, hval, hmore (isXDigit_of_isDigit hdigit)]
    rw [if_neg hdigit]
    by_cases hletter : isXDigit c = true
    · obtain ⟨hval, hlt⟩ := letter_step c (Bool.eq_false_iff.2 hdigit) hletter
      rw [if_pos ⟨rfl, hletter⟩, hval, shift_or 4 _ hlt, show 2 ^ 4 = 16 from rfl, ← numberOf_concat,
        hmore hletter]
    · rw [if_neg fun h ↦ hletter h.2, List.takeWhile_cons_of_neg hletter, List.dropWhile_cons_of_neg hletter,
        List.map_nil, List.append_nil]

/-- **A number of the code** is a run of digits, in a `u32_t`. -/
theorem atonDigits_readNumeral (cp : List Chr) :
    atonDigits (atonBase cp).1 0 (atonBase cp).2 =
      (BitVec.ofNat 32 (readNumeral cp).1.value, (readNumeral cp).2) := by
  rw [atonBase, readNumeral]
  dsimp only
  split_ifs
  · exact atonDigits_hex [] _
  · exact atonDigits_eq (show BitVec.ofNat 32 8 ≠ 16 by decide) [] _
  · exact atonDigits_eq (show BitVec.ofNat 32 10 ≠ 16 by decide) [] _

/-- There is at least one run. -/
theorem readNumerals_ne_nil {room : ℕ} {cp : List Chr} {r : List Numeral × List Chr}
    (h : readNumerals room cp = some r) : r.1 ≠ [] := by
  cases room <;> rw [readNumerals] at h <;> split_ifs at h
  · obtain rfl := Option.some.inj h
    exact List.cons_ne_nil _ _
  · obtain ⟨q, -, rfl⟩ := Option.map_eq_some_iff.1 h
    exact List.cons_ne_nil _ _
  · obtain rfl := Option.some.inj h
    exact List.cons_ne_nil _ _

/-- The numbers in a `u32_t`. -/
def words (ns : List Numeral) : List U32 := ns.map fun n ↦ BitVec.ofNat 32 n.value

/-- **The loop of the code** reads the runs of digits between the dots. -/
theorem atonParts_eq (room : ℕ) (parts : List U32) (cp : List Chr) :
    atonParts room parts cp = (readNumerals room cp).bind fun r ↦
      r.1.getLast?.map fun n ↦ (parts ++ words r.1.dropLast, BitVec.ofNat 32 n.value, r.2) := by
  induction room generalizing parts cp with
  | zero =>
    rw [atonParts, readNumerals]
    simp only [atonDigits_readNumeral]
    split_ifs
    · rfl
    · simp [words]
    · rfl
  | succ room ih =>
    rw [atonParts, readNumerals]
    simp only [atonDigits_readNumeral]
    split_ifs
    · rw [ih]
      rcases hr : readNumerals room (readNumeral cp).2.tail with - | ⟨ns, rest⟩
      · rfl
      · obtain ⟨n, ns, rfl⟩ := List.exists_cons_of_ne_nil (readNumerals_ne_nil hr)
        simp [words]
    · simp [words]
    · rfl

/-! ### Runs of digits and numbers -/

variable {text cp rest : List Chr} {room v : ℕ} {parts : List ℕ} {ns : List Numeral}

/-- A number ends here. -/
def Stops (rest : List Chr) : Prop :=
  isXDigit (deref rest) = false ∧ deref rest ≠ 0x78 ∧ deref rest ≠ 0x58

/-- A number is written as one: what `Proper` says but for the size. -/
def Numeral.Written (n : Numeral) : Prop :=
  (n.base = 8 → ∀ d ∈ n.digits, d < 8) ∧ (n.base = 16 → n.digits ≠ [])

@[simp] theorem deref_cons (c : Chr) (cs : List Chr) : deref (c :: cs) = c := rfl

theorem stops_dot (cp : List Chr) : Stops (0x2e :: cp) := by
  rw [Stops, deref_cons]
  decide

theorem stops_of_ends (h : Ends rest) : Stops rest ∧ deref rest ≠ 0x2e := by
  have hall : ∀ c : Chr, c = 0 ∨ isSpace c = true →
      (isXDigit c = false ∧ c ≠ 0x78 ∧ c ≠ 0x58) ∧ c ≠ 0x2e := by
    intro c hc
    simp only [isSpace, Bool.or_eq_true, decide_eq_true_eq] at hc
    rcases hc with rfl | ((((rfl | rfl) | rfl) | rfl) | rfl) | rfl <;> decide
  exact hall _ h

theorem readNumeral_decimal {c : Chr} (hc : c ≠ 0x30) (cp : List Chr) : readNumeral (c :: cp) =
    (⟨10, ((c :: cp).takeWhile isDigit).map digitVal⟩, (c :: cp).dropWhile isDigit) := by
  rw [readNumeral, deref_cons, if_neg hc]

theorem readNumeral_octal (hx : ¬(deref cp = 0x78 ∨ deref cp = 0x58)) : readNumeral (0x30 :: cp) =
    (⟨8, (cp.takeWhile isDigit).map digitVal⟩, cp.dropWhile isDigit) := by
  rw [readNumeral, deref_cons, if_pos rfl, List.tail_cons, if_neg hx]

theorem readNumeral_hexadecimal {x : Chr} (hx : x = 0x78 ∨ x = 0x58) (cp : List Chr) :
    readNumeral (0x30 :: x :: cp) =
      (⟨16, (cp.takeWhile isXDigit).map hexVal⟩, cp.dropWhile isXDigit) := by
  rw [readNumeral, deref_cons, if_pos rfl, List.tail_cons, deref_cons, if_pos hx, List.tail_cons]

/-- What a run takes when a text of its digits is followed by something else. -/
theorem takeWhile_run {p : Chr → Bool} (htext : ∀ c ∈ text, p c = true) (hrest : p (deref rest) = false) :
    (text ++ rest).takeWhile p = text ∧ (text ++ rest).dropWhile p = rest := by
  rw [List.takeWhile_append_of_pos htext, List.dropWhile_append_of_pos htext]
  rcases rest with - | ⟨c, cs⟩
  · simp
  · have hc : ¬p c = true := by
      rw [show p c = false from hrest]
      exact Bool.false_ne_true
    rw [List.takeWhile_cons_of_neg hc, List.dropWhile_cons_of_neg hc, List.append_nil]
    exact ⟨rfl, rfl⟩

/-- **A number is read** as a run of digits. -/
theorem CNumber.read (h : CNumber text v) (hrest : Stops rest) :
    isDigit (deref (text ++ rest)) = true ∧
      ∃ n : Numeral, readNumeral (text ++ rest) = (n, rest) ∧ n.value = v ∧ n.Written := by
  have hdigit : isDigit (deref rest) = false := by
    refine Bool.eq_false_iff.2 fun hd ↦ ?_
    have hx := hrest.1
    rw [isXDigit_of_isDigit hd] at hx
    cases hx
  cases h with
  | decimal c cs hc hdigits =>
    obtain ⟨htake, hdrop⟩ := takeWhile_run hdigits hdigit
    refine ⟨hdigits c List.mem_cons_self, ⟨10, (c :: cs).map digitVal⟩, ?_, rfl, nofun, nofun⟩
    rw [List.cons_append] at htake hdrop ⊢
    rw [readNumeral_decimal hc, htake, hdrop]
  | octal cs hdigits =>
    have hx : ¬(deref (cs ++ rest) = 0x78 ∨ deref (cs ++ rest) = 0x58) := by
      rcases cs with - | ⟨c, cs⟩
      · exact not_or.2 hrest.2
      · have hc := (hdigits c List.mem_cons_self).1
        rintro (rfl | rfl)
        · exact absurd hc (by decide)
        · exact absurd hc (by decide)
    obtain ⟨htake, hdrop⟩ := takeWhile_run (fun c hc ↦ (hdigits c hc).1) hdigit
    refine ⟨show isDigit 0x30 = true by decide, ⟨8, cs.map digitVal⟩, ?_, rfl, fun _ d hd ↦ ?_, nofun⟩
    · rw [List.cons_append, readNumeral_octal hx, htake, hdrop]
    · obtain ⟨c, hc, rfl⟩ := List.mem_map.1 hd
      exact (hdigits c hc).2
  | hexadecimal x cs hx hne hdigits =>
    obtain ⟨htake, hdrop⟩ := takeWhile_run hdigits hrest.1
    refine ⟨show isDigit 0x30 = true by decide, ⟨16, cs.map hexVal⟩, ?_, rfl, nofun, fun _ ↦ by simpa using hne⟩
    rw [List.cons_append, List.cons_append, readNumeral_hexadecimal hx, htake, hdrop]

/-- **A run of digits is a number**, if it is written as one. -/
theorem cNumber_of_read (hdigit : isDigit (deref cp) = true) (h : (readNumeral cp).1.Written) :
    ∃ text, cp = text ++ (readNumeral cp).2 ∧ CNumber text (readNumeral cp).1.value := by
  have hmem : ∀ {p : Chr → Bool} {cs : List Chr}, ∀ c ∈ cs.takeWhile p, p c = true := fun {p cs} c hc ↦ by
    have hall := List.all_takeWhile (p := p) (l := cs)
    exact List.all_eq_true.1 hall c hc
  rcases cp with - | ⟨c, cp⟩
  · exact absurd hdigit (by decide)
  by_cases hzero : c = 0x30
  · subst hzero
    by_cases hx : deref cp = 0x78 ∨ deref cp = 0x58
    · rcases cp with - | ⟨x, cp⟩
      · exact absurd hx (by decide)
      · rw [deref_cons] at hx
        rw [readNumeral_hexadecimal hx] at h ⊢
        refine ⟨0x30 :: x :: cp.takeWhile isXDigit, ?_, .hexadecimal x _ hx ?_ hmem⟩
        · exact congrArg (0x30 :: x :: ·) List.takeWhile_append_dropWhile.symm
        · exact fun hnil ↦ h.2 rfl (by rw [hnil]; rfl)
    · rw [readNumeral_octal hx] at h ⊢
      refine ⟨0x30 :: cp.takeWhile isDigit, ?_, .octal _ fun x hxm ↦ ⟨hmem x hxm, ?_⟩⟩
      · exact congrArg (0x30 :: ·) List.takeWhile_append_dropWhile.symm
      · exact h.1 rfl _ (List.mem_map_of_mem hxm)
  · rw [readNumeral_decimal hzero]
    have hfirst : (c :: cp).takeWhile isDigit = c :: cp.takeWhile isDigit := List.takeWhile_cons_of_pos hdigit
    refine ⟨(c :: cp).takeWhile isDigit, List.takeWhile_append_dropWhile.symm, ?_⟩
    have hall : ∀ x ∈ c :: cp.takeWhile isDigit, isDigit x = true := hfirst ▸ hmem
    rw [hfirst]
    exact .decimal c _ hzero hall

theorem intercalate_cons_cons (a b : List Chr) (l : List (List Chr)) :
    [0x2e].intercalate (a :: b :: l) = a ++ 0x2e :: [0x2e].intercalate (b :: l) := by
  simp [List.intercalate]

/-- **The numbers of an address are read.** -/
theorem readNumerals_of_texts {texts : List (List Chr)} (h : List.Forall₂ CNumber texts parts) (hne : texts ≠ [])
    (hroom : texts.length ≤ room + 1) (hrest : Ends rest) :
    ∃ ns, readNumerals room ([0x2e].intercalate texts ++ rest) = some (ns, rest) ∧
      ns.map Numeral.value = parts ∧ ∀ n ∈ ns, n.Written := by
  induction h generalizing room with
  | nil => exact absurd rfl hne
  | @cons text v texts parts hnum hmore ih =>
    rcases texts with - | ⟨next, texts⟩
    · cases hmore
      obtain ⟨hdigit, n, hread, hval, hwritten⟩ := hnum.read (stops_of_ends hrest).1
      refine ⟨[n], ?_, by rw [List.map_singleton, hval], List.forall_mem_singleton.2 hwritten⟩
      have htext : [0x2e].intercalate [text] = text := by simp [List.intercalate]
      rw [htext]
      cases room <;> rw [readNumerals, if_pos hdigit, hread, if_neg (stops_of_ends hrest).2]
    · obtain ⟨room, rfl⟩ : ∃ k, room = k + 1 := by
        simp only [List.length_cons] at hroom
        exact ⟨room - 1, by omega⟩
      obtain ⟨ns, hns, hvals, hall⟩ := ih (List.cons_ne_nil _ _) (by simpa using hroom)
      obtain ⟨hdigit, n, hread, hval, hwritten⟩ :=
        hnum.read (stops_dot ([0x2e].intercalate (next :: texts) ++ rest))
      refine ⟨n :: ns, ?_, by rw [List.map_cons, hval, hvals], List.forall_mem_cons.2 ⟨hwritten, hall⟩⟩
      rw [intercalate_cons_cons, List.append_assoc, List.cons_append, readNumerals, if_pos hdigit, hread]
      dsimp only
      rw [deref_cons, if_pos rfl, List.tail_cons, hns]
      rfl

/-- A single run. -/
theorem texts_of_readNumeral (hdigit : isDigit (deref cp) = true) (h : (readNumeral cp).1.Written) :
    ∃ texts, List.Forall₂ CNumber texts ([(readNumeral cp).1].map Numeral.value) ∧
      cp = [0x2e].intercalate texts ++ (readNumeral cp).2 := by
  obtain ⟨text, htext, hnum⟩ := cNumber_of_read hdigit h
  refine ⟨[text], .cons hnum .nil, ?_⟩
  rw [show [0x2e].intercalate [text] = text by simp [List.intercalate]]
  exact htext

/-- **What is read are the numbers of an address**, if the runs are written as numbers. -/
theorem texts_of_readNumerals (h : readNumerals room cp = some (ns, rest)) (hall : ∀ n ∈ ns, n.Written) :
    ∃ texts, List.Forall₂ CNumber texts (ns.map Numeral.value) ∧ cp = [0x2e].intercalate texts ++ rest := by
  induction room generalizing cp ns with
  | zero =>
    rw [readNumerals] at h
    split_ifs at h with hdigit hdot
    obtain ⟨rfl, rfl⟩ := Prod.mk.inj (Option.some.inj h)
    exact texts_of_readNumeral hdigit (hall _ List.mem_cons_self)
  | succ room ih =>
    rw [readNumerals] at h
    split_ifs at h with hdigit hdot
    · obtain ⟨⟨ms, rest'⟩, hms, heq⟩ := Option.map_eq_some_iff.1 h
      obtain ⟨rfl, rfl⟩ := Prod.mk.inj heq
      obtain ⟨hwritten, hmore⟩ := List.forall_mem_cons.1 hall
      obtain ⟨text, htext, hnum⟩ := cNumber_of_read hdigit hwritten
      obtain ⟨texts, hnums, htail⟩ := ih hms hmore
      refine ⟨text :: texts, .cons hnum hnums, ?_⟩
      -- the dot is what stands behind the first run
      have hrest : (readNumeral cp).2 = 0x2e :: (readNumeral cp).2.tail := by
        rcases hr : (readNumeral cp).2 with - | ⟨c, cs⟩
        · rw [hr] at hdot
          exact absurd hdot (by decide)
        · rw [hr] at hdot
          exact congrArg (· :: cs) hdot
      rcases texts with - | ⟨next, texts⟩
      · cases hnums' : ms with
        | nil => exact absurd hnums' (readNumerals_ne_nil hms)
        | cons m ms =>
          rw [hnums'] at hnums
          cases hnums
      · rw [intercalate_cons_cons, List.append_assoc, List.cons_append, ← htail, ← hrest]
        exact htext
    · obtain ⟨rfl, rfl⟩ := Prod.mk.inj (Option.some.inj h)
      exact texts_of_readNumeral hdigit (hall _ List.mem_cons_self)

/-- There are no more numbers than there is room for. -/
theorem readNumerals_length (h : readNumerals room cp = some (ns, rest)) : ns.length ≤ room + 1 := by
  induction room generalizing cp ns with
  | zero =>
    rw [readNumerals] at h
    split_ifs at h
    obtain ⟨rfl, -⟩ := Prod.mk.inj (Option.some.inj h)
    exact le_rfl
  | succ room ih =>
    rw [readNumerals] at h
    split_ifs at h
    · obtain ⟨⟨ms, rest'⟩, hms, heq⟩ := Option.map_eq_some_iff.1 h
      obtain ⟨rfl, rfl⟩ := Prod.mk.inj heq
      exact Nat.succ_le_succ (ih hms)
    · obtain ⟨rfl, -⟩ := Prod.mk.inj (Option.some.inj h)
      exact Nat.succ_le_succ (Nat.zero_le _)

/-! ### The address -/

/-- **The switch** looks at the size of the last number only. -/
theorem atonConcoct_isSome {ps : List U32} (hlen : ps.length ≤ 3) (v : ℕ) :
    (∃ a, atonConcoct ps (BitVec.ofNat 32 v) = some a) ↔ v % 2 ^ 32 < 256 ^ (4 - ps.length) := by
  have hlt : ∀ lim : ℕ, lim < 2 ^ 32 → (BitVec.ofNat 32 lim < BitVec.ofNat 32 v ↔ lim < v % 2 ^ 32) := by
    intro lim hlim
    rw [BitVec.lt_def, BitVec.toNat_ofNat, BitVec.toNat_ofNat, Nat.mod_eq_of_lt hlim]
  rcases ps with - | ⟨a, - | ⟨b, - | ⟨c, - | ⟨d, ps⟩⟩⟩⟩
  · exact ⟨fun _ ↦ Nat.mod_lt _ (by decide), fun _ ↦ ⟨_, rfl⟩⟩
  · have h := hlt 0xffffff (by decide)
    simp only [atonConcoct, List.length_singleton]
    split_ifs with hbig
    · exact ⟨nofun, fun hv ↦ absurd (h.1 hbig) (by omega)⟩
    · exact ⟨fun _ ↦ by have := mt h.2 hbig; omega, fun _ ↦ ⟨_, rfl⟩⟩
  · have h := hlt 0xffff (by decide)
    simp only [atonConcoct, List.length_cons, List.length_nil]
    split_ifs with hbig
    · exact ⟨nofun, fun hv ↦ absurd (h.1 hbig) (by omega)⟩
    · exact ⟨fun _ ↦ by have := mt h.2 hbig; omega, fun _ ↦ ⟨_, rfl⟩⟩
  · have h := hlt 0xff (by decide)
    simp only [atonConcoct, List.length_cons, List.length_nil]
    split_ifs with hbig
    · exact ⟨nofun, fun hv ↦ absurd (h.1 hbig) (by omega)⟩
    · exact ⟨fun _ ↦ by have := mt h.2 hbig; omega, fun _ ↦ ⟨_, rfl⟩⟩
  · simp only [List.length_cons] at hlen
    omega

/-- **What the switch puts together** where the parts in front are bytes. -/
theorem atonConcoct_eq {ps : List ℕ} (hlen : ps.length ≤ 3) (hps : ∀ p ∈ ps, p ≤ 255)
    (hv : v < 256 ^ (4 - ps.length)) :
    atonConcoct (ps.map (BitVec.ofNat 32)) (BitVec.ofNat 32 v) = some (BitVec.ofNat 32 (inetValue 3 (ps ++ [v]))) := by
  obtain ⟨a, ha⟩ := (atonConcoct_isSome (show (ps.map (BitVec.ofNat 32)).length ≤ 3 by rwa [List.length_map]) v).2 (by
    rw [List.length_map]
    exact (Nat.mod_le _ _).trans_lt hv)
  rw [ha]
  rcases ps with - | ⟨p, - | ⟨q, - | ⟨r, - | ⟨t, ps⟩⟩⟩⟩
  · exact ha.symm
  · simp only [List.map_cons, List.map_nil, atonConcoct] at ha
    split_ifs at ha
    rw [← ha, BitVec.or_comm, shift_or 24 p hv]
    rfl
  · have hq := hps q (by simp)
    have hv' : v < 2 ^ 16 := hv
    simp only [List.map_cons, List.map_nil, atonConcoct] at ha
    split_ifs at ha
    rw [← ha, BitVec.or_comm, BitVec.or_assoc, shift_or 16 q hv', shift_or 24 p (by omega)]
    rfl
  · have hq := hps q (by simp)
    have hr := hps r (by simp)
    have hv' : v < 2 ^ 8 := hv
    simp only [List.map_cons, List.map_nil, atonConcoct] at ha
    split_ifs at ha
    rw [← ha, BitVec.or_comm, BitVec.or_assoc, BitVec.or_assoc, shift_or 8 r hv', shift_or 16 q (by omega),
      shift_or 24 p (by omega)]
    rfl
  · simp only [List.length_cons] at hlen
    omega

/-- The whole function, over the runs of digits. -/
theorem ipaddrAton_eq (s : List Chr) : ipaddrAton s = (readNumerals 3 s).bind fun r ↦ r.1.getLast?.bind fun n ↦
    if Ends r.2 then (atonConcoct (words r.1.dropLast) (BitVec.ofNat 32 n.value)).map htonl else none := by
  have hends : ∀ rest : List Chr, (deref rest ≠ 0 ∧ ¬isSpace (deref rest) = true) ↔ ¬Ends rest := fun rest ↦ not_or.symm
  rw [ipaddrAton, atonParts_eq]
  rcases readNumerals 3 s with - | ⟨ns, rest⟩
  · rfl
  simp only [Option.bind_some, List.nil_append]
  rcases ns.getLast? with - | n
  · rfl
  simp only [Option.map_some, Option.bind_some, hends, ite_not]

/-- **Every address is accepted**, and has the value of its parts. -/
theorem ipaddrAton_of_inetText {s : List Chr} (h : InetText s parts) :
    (∃ r, readNumerals 3 s = some r ∧ r.1.map Numeral.value = parts ∧ ∀ n ∈ r.1, n.Written) ∧
      ipaddrAton s = some (inetAddr parts) := by
  obtain ⟨texts, rest, htexts, rfl, hends⟩ := h.reads
  have hlen : texts.length = parts.length := htexts.length_eq
  have hne : texts ≠ [] := List.ne_nil_of_length_pos (hlen ▸ h.pos)
  obtain ⟨ns, hns, hvals, hall⟩ := readNumerals_of_texts htexts hne (hlen ▸ h.le_four) hends
  refine ⟨⟨(ns, rest), hns, hvals, hall⟩, ?_⟩
  obtain ⟨front, n, rfl⟩ := List.eq_nil_or_concat' ns |>.resolve_left (readNumerals_ne_nil hns)
  obtain rfl : front.map Numeral.value ++ [n.value] = parts := by simpa using hvals
  have hfour := h.le_four
  have hlast := h.last n.value (by simp)
  have hinner := h.inner
  simp only [List.length_append, List.length_singleton, List.length_map, List.dropLast_concat] at hfour hlast hinner
  have hconcoct := atonConcoct_eq (v := n.value)
    (show (front.map Numeral.value).length ≤ 3 by rw [List.length_map]; omega) hinner (by rw [List.length_map]; rwa [show 4 - front.length = 5 - (front.length + 1) by omega])
  rw [ipaddrAton_eq, hns]
  simp only [Option.bind_some, List.getLast?_concat, List.dropLast_concat, if_pos hends, words]
  rw [List.map_map] at hconcoct
  exact congrArg (Option.map htonl) hconcoct

/-- **What is accepted**: runs of digits up to the end, the last one within its limit. -/
theorem ipaddrAton_isSome {s : List Chr} : (∃ a, ipaddrAton s = some a) ↔
    ∃ r, readNumerals 3 s = some r ∧ Ends r.2 ∧ lastFits r.1 := by
  rw [ipaddrAton_eq]
  rcases hread : readNumerals 3 s with - | ⟨ns, rest⟩
  · exact ⟨nofun, nofun⟩
  obtain ⟨front, n, rfl⟩ := List.eq_nil_or_concat' ns |>.resolve_left (readNumerals_ne_nil hread)
  have hlen := readNumerals_length hread
  rw [List.length_append, List.length_singleton] at hlen
  have hconcoct := atonConcoct_isSome (show (words front).length ≤ 3 by rw [words, List.length_map]; omega) n.value
  rw [words, List.length_map, ← words, show 4 - front.length = 5 - (front ++ [n]).length by simp] at hconcoct
  simp only [Option.bind_some, List.getLast?_concat, List.dropLast_concat, Option.some.injEq, exists_eq_left',
    lastFits, Option.mem_some_iff, forall_eq']
  rw [← hconcoct]
  by_cases hends : Ends rest
  · rw [if_pos hends, and_iff_right hends]
    simp only [Option.map_eq_some_iff]
    exact ⟨fun ⟨_, a, ha, _⟩ ↦ ⟨a, ha⟩, fun ⟨a, ha⟩ ↦ ⟨_, a, ha, rfl⟩⟩
  · rw [if_neg hends]
    exact ⟨nofun, fun h ↦ absurd h.1 hends⟩

/-- The numbers of an address fit into a `u32_t`. -/
theorem InetText.value_lt {s : List Chr} (h : InetText s parts) : ∀ p ∈ parts, p < 2 ^ 32 := by
  intro p hp
  obtain ⟨front, last, rfl⟩ := List.eq_nil_or_concat' parts |>.resolve_left (List.ne_nil_of_length_pos h.pos)
  have hlast := h.last last (by simp)
  have hinner := h.inner
  rw [List.dropLast_concat] at hinner
  rcases List.mem_append.1 hp with hfront | hend
  · exact (hinner p hfront).trans_lt (by decide)
  · rw [List.mem_singleton.1 hend]
    refine hlast.trans_le ?_
    calc 256 ^ (5 - (front ++ [last]).length) ≤ 256 ^ 4 := Nat.pow_le_pow_right (by decide) (by simp)
      _ = 2 ^ 32 := by decide

/-- **Runs of digits without a flaw are an address.** -/
theorem inetText_of_readNumerals {s : List Chr} (hread : readNumerals 3 s = some (ns, rest)) (hends : Ends rest)
    (hfits : lastFits ns) (hproper : ∀ n ∈ ns, n.Proper) (hinner : ∀ n ∈ ns.dropLast, n.value ≤ 255) :
    InetText s (ns.map Numeral.value) := by
  obtain ⟨texts, hnums, htext⟩ :=
    texts_of_readNumerals hread fun n hn ↦ ⟨(hproper n hn).octal, (hproper n hn).hexadecimal⟩
  have hpos : 1 ≤ ns.length := List.length_pos_of_ne_nil (readNumerals_ne_nil hread)
  refine ⟨⟨texts, rest, hnums, htext, hends⟩, by rwa [List.length_map], ?_, ?_, ?_⟩
  · rw [List.length_map]
    exact readNumerals_length hread
  · rw [← List.map_dropLast]
    exact List.forall_mem_map.2 hinner
  · intro p hp
    rw [List.getLast?_map] at hp
    obtain ⟨n, hn, rfl⟩ := Option.map_eq_some_iff.1 hp
    have hval := (hproper n (List.mem_of_getLast? hn)).value_lt
    have hlt := hfits n hn
    rwa [List.length_map, ← Nat.mod_eq_of_lt hval]

/-- **The code accepts the addresses, and nothing else**, on the strings without a flaw, and on no others. -/
theorem ipaddrAton_iff (s : List Chr) :
    (∀ a, ipaddrAton s = some a ↔ ∃ parts, InetText s parts ∧ a = inetAddr parts) ↔ Flawless s := by
  constructor
  · rintro h ⟨ns, rest⟩ hread hends hfits
    obtain ⟨a, ha⟩ := ipaddrAton_isSome.2 ⟨_, hread, hends, hfits⟩
    obtain ⟨parts, htext, -⟩ := (h a).1 ha
    obtain ⟨⟨r, hr, hvals, hwritten⟩, -⟩ := ipaddrAton_of_inetText htext
    obtain rfl := Option.some.inj (hread.symm.trans hr)
    subst hvals
    refine ⟨fun n hn ↦ ⟨(hwritten n hn).1, (hwritten n hn).2, ?_⟩, fun n hn ↦ ?_⟩
    · exact htext.value_lt _ (List.mem_map_of_mem hn)
    · exact htext.inner _ (List.map_dropLast ▸ List.mem_map_of_mem hn)
  · rintro h a
    constructor
    · intro ha
      obtain ⟨⟨ns, rest⟩, hread, hends, hfits⟩ := ipaddrAton_isSome.1 ⟨a, ha⟩
      obtain ⟨hproper, hinner⟩ := h _ hread hends hfits
      have htext := inetText_of_readNumerals hread hends hfits hproper hinner
      exact ⟨_, htext, Option.some.inj (ha.symm.trans (ipaddrAton_of_inetText htext).2)⟩
    · rintro ⟨parts, htext, rfl⟩
      exact (ipaddrAton_of_inetText htext).2

-- "256.1": the first part is more than a byte, and is lost
theorem ipaddrAton_inner_overflow : ipaddrAton [0x32, 0x35, 0x36, 0x2e, 0x31] = some 0x01000000 ∧
    ¬∃ parts, InetText [0x32, 0x35, 0x36, 0x2e, 0x31] parts := by
  refine ⟨by decide, fun ⟨parts, htext⟩ ↦ ?_⟩
  obtain ⟨⟨r, hr, hvals, -⟩, -⟩ := ipaddrAton_of_inetText htext
  have hread : readNumerals 3 [0x32, 0x35, 0x36, 0x2e, 0x31] = some ([⟨10, [2, 5, 6]⟩, ⟨10, [1]⟩], []) := by decide
  obtain rfl := Option.some.inj (hread.symm.trans hr)
  obtain rfl : [256, 1] = parts := hvals
  exact absurd (htext.inner 256 (by decide)) (by decide)

end Lwip.Ipv4
