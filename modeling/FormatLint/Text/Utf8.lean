import FormatLint.Text.Basic

/-!
UTF-8. Decoding takes every byte that is not part of a well-formed character for a glyph of its own,
and encoding writes such a glyph as its byte; so bytes that are decoded and encoded again are the
same bytes (`Utf8.encode_decode`).
-/

namespace FormatLint

abbrev Bytes := List UInt8

namespace Utf8

def encodeGlyph : Glyph → Bytes
  | .char c => String.utf8EncodeChar c
  | .raw byte => [byte]

def encode (t : Text) : Bytes := t.flatMap encodeGlyph

/-- The code point that the first bytes would encode if they were well-formed. -/
def candidate : Bytes → Nat
  | [] => 0
  | first :: rest =>
    let lead := first.toNat
    let bits (index : Nat) : Nat := (rest.getD index 0).toNat % 64
    if lead < 0x80 then lead
    else if lead < 0xE0 then lead % 32 * 64 + bits 0
    else if lead < 0xF0 then (lead % 16 * 64 + bits 0) * 64 + bits 1
    else ((lead % 8 * 64 + bits 0) * 64 + bits 1) * 64 + bits 2

/-- The character whose encoding stands at the start of the bytes. -/
def charAt? (bytes : Bytes) : Option Char :=
  let c := Char.ofNat (candidate bytes)
  if (String.utf8EncodeChar c).isPrefixOf bytes then some c else none

def decode : Bytes → Text
  | [] => []
  | first :: rest =>
    match charAt? (first :: rest) with
    | some c => .char c :: decode (rest.drop ((String.utf8EncodeChar c).length - 1))
    | none => .raw first :: decode rest
termination_by bytes => bytes.length
decreasing_by
  · simp only [List.length_drop, List.length_cons]; omega
  · simp

theorem encode_append (before after : Text) :
    encode (before ++ after) = encode before ++ encode after := List.flatMap_append

theorem charAt?_append {bytes : Bytes} {c : Char} (found : charAt? bytes = some c) :
    ∃ rest, bytes = String.utf8EncodeChar c ++ rest := by
  unfold charAt? at found
  dsimp only at found
  split at found
  · rename_i begins
    cases found
    obtain ⟨rest, equal⟩ := List.isPrefixOf_iff_prefix.1 begins
    exact ⟨rest, equal.symm⟩
  · cases found

/-- Decoding loses nothing. -/
theorem encode_decode (bytes : Bytes) : encode (decode bytes) = bytes := by
  fun_induction decode bytes with
  | case1 => rfl
  | case2 first rest c found ih =>
    obtain ⟨tail, equal⟩ := charAt?_append found
    simp only [encode, List.flatMap_cons, encodeGlyph] at ih ⊢
    rw [ih]
    cases encoded : String.utf8EncodeChar c with
    | nil => exact absurd encoded String.utf8EncodeChar_ne_nil
    | cons lead later =>
      rw [encoded, List.cons_append] at equal
      obtain ⟨rfl, rfl⟩ := List.cons.inj equal
      simp
  | case3 first rest _ ih =>
    simp only [encode, List.flatMap_cons, encodeGlyph] at ih ⊢
    rw [ih]
    rfl

end Utf8

end FormatLint
