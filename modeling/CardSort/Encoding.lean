import CardSort.Bytes
import CardSort.Encoding.CodePage037

/-!
# Encodings of record text

Records carry text in ASCII, read as Latin-1 above `0x7F`, or in EBCDIC code page 037. The
encoding fixes the space byte for padding, the bytes of quoted constants, and the zone nibbles
of zoned decimals.

* `Encoding.encodeChar` and `Encoding.decodeByte` map single characters.
* `Encoding.decode_encode_of_latin1` and `Encoding.encode_decode` make them inverse on Latin-1.
-/

set_option autoImplicit false

namespace CardSort

/-- The encoding of record text. -/
inductive Encoding where
  | ascii
  | ebcdic
deriving DecidableEq, Repr

namespace Encoding

/-- The name of an encoding in configurations. -/
def name : Encoding → String
  | ascii => "ascii"
  | ebcdic => "ebcdic"

/-- An encoding by its name or its code page, in either case. -/
def ofName? (text : String) : Option Encoding :=
  match String.ofList (text.toList.map Char.toLower) with
  | "ascii" => some ascii
  | "ebcdic" => some ebcdic
  | "cp037" => some ebcdic
  | _ => none

/-- The blank byte used for padding. -/
def space : Encoding → UInt8
  | ascii => 0x20
  | ebcdic => 0x40

/-! ## Zones of zoned decimals -/

/-- The zone nibble of an unsigned zoned digit. -/
def digitZone : Encoding → Nat
  | ascii => 0x3
  | ebcdic => 0xF

/-- The zone written into the last byte of a value from zero on. -/
def positiveZone : Encoding → Nat
  | ascii => 0x3
  | ebcdic => 0xC

/-- The zone written into the last byte of a negative value. -/
def negativeZone : Encoding → Nat
  | ascii => 0x7
  | ebcdic => 0xD

/-- Whether a sign zone read from data means negative. -/
def isNegativeZone (enc : Encoding) (zone : Nat) : Bool :=
  zone = 0xD || zone = 0xB || (zone = 0x7 && enc = ascii)

/-! ## Characters -/

/-- The byte of a character; one outside Latin-1 becomes the substitute of the encoding. -/
def encodeChar (enc : Encoding) (c : Char) : UInt8 :=
  match enc with
  | ascii => if c.toNat < 256 then UInt8.ofNat c.toNat else 0x3F
  | ebcdic => if c.toNat < 256 then CodePage037.ofLatin1 (UInt8.ofNat c.toNat) else 0x3F

/-- The character of a byte. -/
def decodeByte (enc : Encoding) (b : UInt8) : Char :=
  match enc with
  | ascii => Char.ofNat b.toNat
  | ebcdic => Char.ofNat (CodePage037.toLatin1 b).toNat

/-- The bytes of a text. -/
def encode (enc : Encoding) (cs : List Char) : Bytes := cs.map enc.encodeChar

/-- The text of a byte string. -/
def decode (enc : Encoding) (bytes : Bytes) : List Char := bytes.map enc.decodeByte

private theorem toNat_ofNat_byte (b : UInt8) : (Char.ofNat b.toNat).toNat = b.toNat := by
  have hb := b.toNat_lt
  have hv : b.toNat.isValidChar := Or.inl (by omega)
  have hchar : Char.ofNat b.toNat = Char.ofNatAux b.toNat hv := dif_pos hv
  rw [hchar]
  rfl

/-- Every byte is a character of Latin-1. -/
theorem toNat_decodeByte_lt (enc : Encoding) (b : UInt8) : (enc.decodeByte b).toNat < 256 := by
  cases enc
  · rw [decodeByte, toNat_ofNat_byte]
    exact b.toNat_lt
  · rw [decodeByte, toNat_ofNat_byte]
    exact (CodePage037.toLatin1 b).toNat_lt

theorem encodeChar_decodeByte (enc : Encoding) (b : UInt8) :
    enc.encodeChar (enc.decodeByte b) = b := by
  cases enc
  · simp only [decodeByte, encodeChar, toNat_ofNat_byte, b.toNat_lt, if_true]
    exact UInt8.ofNat_toNat
  · simp only [decodeByte, encodeChar, toNat_ofNat_byte, (CodePage037.toLatin1 b).toNat_lt,
      if_true, UInt8.ofNat_toNat, CodePage037.ofLatin1_toLatin1]

/-- **Text read from a record encodes back to the same bytes.** -/
theorem encode_decode (enc : Encoding) (bytes : Bytes) : enc.encode (enc.decode bytes) = bytes := by
  simp [encode, decode, Function.comp_def, encodeChar_decodeByte]

theorem decodeByte_encodeChar {enc : Encoding} {c : Char} (h : c.toNat < 256) :
    enc.decodeByte (enc.encodeChar c) = c := by
  have hc : Char.ofNat c.toNat = c := Char.ofNat_toNat c
  cases enc
  · simp [encodeChar, decodeByte, h, Nat.mod_eq_of_lt h, hc]
  · simp [encodeChar, decodeByte, h, CodePage037.toLatin1_ofLatin1, Nat.mod_eq_of_lt h, hc]

/-- Text within Latin-1 reads back from its bytes. -/
theorem decode_encode_of_latin1 {enc : Encoding} {cs : List Char} (h : ∀ c ∈ cs, c.toNat < 256) :
    enc.decode (enc.encode cs) = cs := by
  induction cs with
  | nil => rfl
  | cons c cs ih =>
    simp only [encode, decode, List.map_cons] at ih ⊢
    rw [decodeByte_encodeChar (h c (by simp)), ih fun x hx => h x (by simp [hx])]

end Encoding

end CardSort
