import DialdTop.CString

/-!
# Dotted quads

`inet_ntoa` and `inet_pton` on IPv4 addresses.  The texts which `inet_pton`
accepts are those which `inet_ntoa` prints.
-/

namespace DialdTop

def dot : Byte := 46

def isDigit (c : Byte) : Bool :=
  48 ≤ c && c ≤ 57

/-- The dotted quad of an address whose most significant byte is the first
octet. -/
def inetNtoa (addr : BitVec 32) : List Byte :=
  decimal (addr.extractLsb' 24 8).toNat ++ bytes "." ++
    decimal (addr.extractLsb' 16 8).toNat ++ bytes "." ++
    decimal (addr.extractLsb' 8 8).toNat ++ bytes "." ++
    decimal (addr.extractLsb' 0 8).toNat

/-- One octet of a dotted quad: one to three digits without leading zero. -/
def inetOctet (digits : List Byte) : Option (BitVec 8) :=
  let value := digits.foldl (fun n c => 10 * n + (c.toNat - 48)) 0
  if digits.all isDigit ∧ 0 < digits.length ∧ digits.length ≤ 3 ∧
      (digits.head? = some 48 → digits.length = 1) ∧ value ≤ 255 then
    some (BitVec.ofNat 8 value)
  else none

/-- The library function; on failure its output variable is left alone. -/
def inetPton (text : List Byte) : Option (BitVec 32) :=
  match text.splitOn dot with
  | [a, b, c, d] => do
      let a ← inetOctet a
      let b ← inetOctet b
      let c ← inetOctet c
      let d ← inetOctet d
      return a ++ b ++ c ++ d
  | _ => none

/-! ## Digits -/

theorem toNat_toUInt8_of_isDigit {c : Char} (hc : c.isDigit = true) :
    c.toNat.toUInt8.toNat = c.toNat ∧ 48 ≤ c.toNat ∧ c.toNat ≤ 57 := by
  simp only [Char.isDigit, Bool.and_eq_true, decide_eq_true_eq, UInt32.le_iff_toNat_le,
    Char.toNat_val, ge_iff_le] at hc
  have hlow : 48 ≤ c.toNat := hc.1
  have hhigh : c.toNat ≤ 57 := hc.2
  refine ⟨?_, hlow, hhigh⟩
  simp
  omega

theorem isDigit_of_mem_decimal {n : ℕ} {b : Byte} (hb : b ∈ decimal n) : isDigit b = true := by
  rcases List.mem_map.mp hb with ⟨c, hc, rfl⟩
  have hc := Nat.isDigit_of_mem_toDigits (by omega) (Nat.le_refl 10) hc
  have hdigit := toNat_toUInt8_of_isDigit hc
  simp only [isDigit, Bool.and_eq_true, decide_eq_true_eq, UInt8.le_iff_toNat_le, hdigit.1]
  exact hdigit.2

theorem notMem_decimal {b : Byte} (hb : isDigit b = false) (n : ℕ) : b ∉ decimal n := by
  intro hmem
  rw [isDigit_of_mem_decimal hmem] at hb
  cases hb

def digit (i : Fin 10) : Byte := 48 + i.val.toUInt8

theorem exists_digit {c : Byte} (hc : isDigit c = true) : ∃ i, c = digit i := by
  unfold isDigit at hc
  simp only [Bool.and_eq_true, decide_eq_true_eq, UInt8.le_iff_toNat_le,
    UInt8.toNat_ofNat] at hc
  refine ⟨⟨c.toNat - 48, by omega⟩, ?_⟩
  rw [← UInt8.toNat_inj]
  simp [digit]
  omega

theorem digit_toNat (i : Fin 10) : (digit i).toNat - 48 = i.val := by
  decide +revert

theorem digit_eq_zero_iff (i : Fin 10) : digit i = 48 ↔ i.val = 0 := by
  decide +revert

theorem decimal_one (i : Fin 10) : decimal i.val = [digit i] := by
  decide +revert

theorem decimal_append {n : ℕ} (hn : 0 < n) (i : Fin 10) :
    decimal (10 * n + i.val) = decimal n ++ [digit i] := by
  rw [← decimal_one, decimal, decimal, decimal, ← List.map_append,
    Nat.toDigits_append_toDigits (by decide) hn i.isLt]

theorem decimal_two (i j : Fin 10) (hi : i.val ≠ 0) :
    decimal (10 * i.val + j.val) = [digit i, digit j] := by
  rw [decimal_append (Nat.pos_of_ne_zero hi), decimal_one]
  rfl

theorem decimal_three (i j k : Fin 10) (hi : i.val ≠ 0) :
    decimal (10 * (10 * i.val + j.val) + k.val) =
      [digit i, digit j, digit k] := by
  rw [decimal_append (by omega), decimal_two i j hi]
  rfl

/-! ## Octets -/

theorem decimal_ne_nil (n : ℕ) : decimal n ≠ [] := by
  rw [decimal, ne_eq, List.map_eq_nil_iff]
  exact Nat.toDigits_ne_nil

theorem decimal_octet_length (octet : BitVec 8) : (decimal octet.toNat).length ≤ 3 := by
  rw [decimal, List.length_map, Nat.length_toDigits_le_iff (by decide) (by decide)]
  have hlt := octet.isLt
  omega

theorem inetOctet_decimal (octet : BitVec 8) :
    inetOctet (decimal octet.toNat) = some octet := by
  decide +revert +kernel

/-- The digits are the ones `%d` prints. -/
theorem inetOctet_eq_some_iff {digits : List Byte} {octet : BitVec 8} :
    inetOctet digits = some octet ↔ digits = decimal octet.toNat := by
  constructor
  · intro h
    unfold inetOctet at h
    simp only [Option.ite_none_right_eq_some, Option.some.injEq] at h
    obtain ⟨⟨hall, hpos, hlength, hlead, hvalue⟩, rfl⟩ := h
    rw [List.all_eq_true] at hall
    rw [BitVec.toNat_ofNat, Nat.mod_eq_of_lt (by omega)]
    match digits with
    | [c] =>
        obtain ⟨i, rfl⟩ := exists_digit (hall c (by simp))
        simp [digit_toNat, decimal_one]
    | [c, d] =>
        obtain ⟨i, rfl⟩ := exists_digit (hall c (by simp))
        obtain ⟨j, rfl⟩ := exists_digit (hall d (by simp))
        have hi : i.val ≠ 0 := by
          intro hzero
          simp [(digit_eq_zero_iff i).mpr hzero] at hlead
        simp [digit_toNat, decimal_two i j hi]
    | [c, d, e] =>
        obtain ⟨i, rfl⟩ := exists_digit (hall c (by simp))
        obtain ⟨j, rfl⟩ := exists_digit (hall d (by simp))
        obtain ⟨k, rfl⟩ := exists_digit (hall e (by simp))
        have hi : i.val ≠ 0 := by
          intro hzero
          simp [(digit_eq_zero_iff i).mpr hzero] at hlead
        simp [digit_toNat, decimal_three i j k hi]
  · intro h
    rw [h]
    exact inetOctet_decimal octet

/-! ## Addresses -/

theorem quad_extract (addr : BitVec 32) :
    addr.extractLsb' 24 8 ++ addr.extractLsb' 16 8 ++ addr.extractLsb' 8 8 ++
      addr.extractLsb' 0 8 = addr := by
  have hjoin : ∀ start len : ℕ, addr.extractLsb' (start + 8) len ++ addr.extractLsb' start 8 =
      addr.extractLsb' start (len + 8) := fun start len =>
    BitVec.extractLsb'_append_extractLsb'_eq_extractLsb' rfl
  rw [hjoin 16 8, hjoin 8 16, hjoin 0 24]
  exact BitVec.extractLsb'_eq_self

theorem extract_quad (a b c d : BitVec 8) :
    (a ++ b ++ c ++ d : BitVec 32).extractLsb' 24 8 = a ∧
      (a ++ b ++ c ++ d : BitVec 32).extractLsb' 16 8 = b ∧
      (a ++ b ++ c ++ d : BitVec 32).extractLsb' 8 8 = c ∧
      (a ++ b ++ c ++ d : BitVec 32).extractLsb' 0 8 = d := by
  refine ⟨?_, ?_, ?_, ?_⟩
  all_goals
    ext i hi
    simp only [BitVec.getElem_extractLsb', BitVec.getLsbD_append]
    grind

theorem inetNtoa_eq_intercalate (addr : BitVec 32) :
    inetNtoa addr = [dot].intercalate
      [decimal (addr.extractLsb' 24 8).toNat, decimal (addr.extractLsb' 16 8).toNat,
        decimal (addr.extractLsb' 8 8).toNat, decimal (addr.extractLsb' 0 8).toNat] := by
  have hdot : bytes "." = [dot] := by decide
  simp [inetNtoa, List.intercalate, hdot]

theorem inetNtoa_length_le (addr : BitVec 32) : (inetNtoa addr).length ≤ 15 := by
  have ha := decimal_octet_length (addr.extractLsb' 24 8)
  have hb := decimal_octet_length (addr.extractLsb' 16 8)
  have hc := decimal_octet_length (addr.extractLsb' 8 8)
  have hd := decimal_octet_length (addr.extractLsb' 0 8)
  have hdot : (bytes ".").length = 1 := by decide
  simp only [inetNtoa, List.length_append, hdot]
  omega

theorem inetPton_inetNtoa (addr : BitVec 32) :
    inetPton (inetNtoa addr) = some addr := by
  have hsplit : (inetNtoa addr).splitOn dot =
      [decimal (addr.extractLsb' 24 8).toNat, decimal (addr.extractLsb' 16 8).toNat,
        decimal (addr.extractLsb' 8 8).toNat, decimal (addr.extractLsb' 0 8).toNat] := by
    rw [inetNtoa_eq_intercalate]
    apply List.splitOn_intercalate
    · intro octet hoctet
      simp only [List.mem_cons, List.not_mem_nil, or_false] at hoctet
      rcases hoctet with rfl | rfl | rfl | rfl
      all_goals exact notMem_decimal (by decide) _
    · simp
  rw [inetPton, hsplit]
  simp only [inetOctet_decimal]
  exact congrArg some (quad_extract addr)

/-- `inet_pton` is correct on dotted quads and rejects everything else. -/
theorem inetPton_eq_some_iff {text : List Byte} {addr : BitVec 32} :
    inetPton text = some addr ↔ text = inetNtoa addr := by
  constructor
  · intro h
    unfold inetPton at h
    split at h
    next a b c d hsplit =>
      simp only [Option.bind_eq_bind, Option.bind_eq_some_iff, Option.pure_def,
        Option.some.injEq, inetOctet_eq_some_iff] at h
      obtain ⟨a, rfl, b, rfl, c, rfl, d, rfl, rfl⟩ := h
      have hextract := extract_quad a b c d
      rw [inetNtoa_eq_intercalate, hextract.1, hextract.2.1, hextract.2.2.1,
        hextract.2.2.2, ← hsplit]
      exact (List.intercalate_splitOn dot).symm
    next => cases h
  · intro h
    rw [h]
    exact inetPton_inetNtoa addr

example : inetPton (bytes "10.0.0.255") = some 0x0a0000ff := by decide

end DialdTop
