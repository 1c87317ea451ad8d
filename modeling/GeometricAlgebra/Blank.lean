/-
  GeometricAlgebra.Blank
  ────────────────────────────────
  **BLANK TEXT.**

  The characters with the Unicode property `White_Space`, as ranges of code
  points, and the texts that hold no other character.  The zero-width space,
  the byte order mark and the information separators U+001C to U+001F do not
  have the property.
-/

namespace GeometricAlgebra

/-- The ranges of code points with the property `White_Space`, ends included. -/
def blankRanges : List (Nat × Nat) :=
  [(0x0009, 0x000D), (0x0020, 0x0020), (0x0085, 0x0085), (0x00A0, 0x00A0),
   (0x1680, 0x1680), (0x2000, 0x200A), (0x2028, 0x2029), (0x202F, 0x202F),
   (0x205F, 0x205F), (0x3000, 0x3000)]

/-- True of a white-space character. -/
def isBlankChar (c : Char) : Bool :=
  blankRanges.any (fun range => range.1 ≤ c.toNat && c.toNat ≤ range.2)

/-- True of a text in which nothing can be seen, such as the empty one. -/
def isBlank (text : String) : Bool := text.toList.all isBlankChar

/-! ## The familiar blanks. -/

/-- Every ASCII character that counts as white space in the standard library is
blank. -/
theorem isBlankChar_of_isWhitespace {c : Char} (h : c.isWhitespace = true) :
    isBlankChar c = true := by
  simp only [Char.isWhitespace, Bool.or_eq_true, decide_eq_true_eq] at h
  rcases h with ((h | h) | h) | h <;> subst h <;> decide

/-- The empty text is blank. -/
theorem isBlank_empty : isBlank "" = true := by decide

end GeometricAlgebra
