import DialdTop.FormattedFields

/-!
# The line of the interface

`do_interface` spreads the names over the width of the screen.  What is left of
the width is computed in `size_t` and taken as an `int`, so that names which are
too long for the screen make a negative width, which pads like a positive one.
-/

namespace DialdTop

namespace Monitor

/-- The arithmetic of a `size_t` of 64 bits. -/
def wrapSize (value : Int) : Int := value % 18446744073709551616

/-- `spcs`.  The subtraction and the division are those of `size_t`. -/
def interfaceSpaces (cols : ℕ) (interface localIp remoteIp : List Byte) : Int :=
  wrapInt
    (wrapSize ((cols : Int) - 32 - interface.length - remoteIp.length - localIp.length) / 2)

/-- The text which `do_interface` writes into `line`. -/
def interfaceLine (cols : ℕ) (interface localIp remoteIp : List Byte) : List Byte :=
  let spcs := interfaceSpaces cols interface localIp remoteIp
  bytes "Interface: " ++ interface ++ stringField spcs [] ++ bytes "Local IP: " ++ localIp ++
    stringField spcs [] ++ bytes "Remote IP: " ++ remoteIp

/-- The bytes of `line`. -/
def interfaceRoom (cols : ℕ) : ℕ := cols + 2

theorem interfaceLine_length (cols : ℕ) (interface localIp remoteIp : List Byte) :
    (interfaceLine cols interface localIp remoteIp).length =
      32 + interface.length + localIp.length + remoteIp.length +
        2 * (interfaceSpaces cols interface localIp remoteIp).natAbs := by
  have hconstants : (bytes "Interface: ").length = 11 ∧ (bytes "Local IP: ").length = 10 ∧
      (bytes "Remote IP: ").length = 11 := by decide
  simp only [interfaceLine, List.length_append, stringField_length, List.length_nil, hconstants]
  omega

section Spaces

variable {cols : ℕ} {interface localIp remoteIp : List Byte}

theorem interfaceSpaces_of_fits (hcols : (cols : Int) ≤ intMax)
    (hfits : 32 + interface.length + localIp.length + remoteIp.length ≤ cols) :
    interfaceSpaces cols interface localIp remoteIp =
      ((cols - 32 - interface.length - remoteIp.length - localIp.length) / 2 : ℕ) := by
  have hmax : intMax = 2147483647 := rfl
  rw [interfaceSpaces, wrapSize, wrapInt, Int.emod_eq_of_lt (by omega) (by omega), Int.bmod_def]
  split <;> omega

/-- One byte too many is a width of -1. -/
theorem interfaceSpaces_of_overflow
    (hover : 32 + interface.length + localIp.length + remoteIp.length = cols + 1) :
    interfaceSpaces cols interface localIp remoteIp = -1 := by
  have hroom : (cols : Int) - 32 - interface.length - remoteIp.length - localIp.length = -1 := by
    omega
  rw [interfaceSpaces, hroom]
  decide

theorem interfaceLine_length_lt_room (hcols : (cols : Int) ≤ intMax)
    (hfits : 32 + interface.length + localIp.length + remoteIp.length ≤ cols) :
    (interfaceLine cols interface localIp remoteIp).length + 1 ≤ interfaceRoom cols := by
  rw [interfaceLine_length, interfaceRoom, interfaceSpaces_of_fits hcols hfits]
  omega

/-- The line and its NUL fit exactly when the names fit the screen. -/
theorem interfaceLine_fits_iff (hcols : (cols : Int) ≤ intMax) :
    (interfaceLine cols interface localIp remoteIp).length + 1 ≤ interfaceRoom cols ↔
      32 + interface.length + localIp.length + remoteIp.length ≤ cols := by
  constructor
  · intro hline
    rw [interfaceLine_length, interfaceRoom] at hline
    by_contra hlong
    -- The constant texts and the names alone leave room for one byte too many.
    have hover : 32 + interface.length + localIp.length + remoteIp.length = cols + 1 := by omega
    rw [interfaceSpaces_of_overflow hover] at hline
    omega
  · exact interfaceLine_length_lt_room hcols

end Spaces

/-- On a screen of 80 columns usual names fit. -/
theorem interfaceLine_fits_ppp :
    (interfaceLine 80 (bytes "ppp0") (bytes "10.0.0.1") (bytes "10.0.0.2")).length + 1 ≤
      interfaceRoom 80 :=
  (interfaceLine_fits_iff (by decide)).mpr (by decide)

/-- On a screen of 36 columns they do not. -/
theorem interfaceLine_overflow :
    interfaceRoom 36 <
      (interfaceLine 36 (bytes "ppp0") (bytes "10.0.0.1") (bytes "10.0.0.2")).length + 1 := by
  decide

end Monitor

end DialdTop
