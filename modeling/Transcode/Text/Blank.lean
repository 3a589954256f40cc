namespace Transcode.Text

/-!
# Blank characters

A character is *blank* when Unicode gives it the property `White_Space`: twenty-five
characters, among them the no-break space and the ideographic space, but not the
zero-width space.  Trimming, here, always means dropping blank characters.
-/

/-- The characters with the Unicode property `White_Space`. -/
def isBlank (c : Char) : Bool :=
  let n := c.toNat
  (0x09 ≤ n && n ≤ 0x0D) || n == 0x20 || n == 0x85 || n == 0xA0 || n == 0x1680
    || (0x2000 ≤ n && n ≤ 0x200A) || n == 0x2028 || n == 0x2029 || n == 0x202F
    || n == 0x205F || n == 0x3000

/-- Whether a text shows anything: some character of it is not blank. -/
def hasInk (s : String) : Bool :=
  s.toList.any (!isBlank ·)

/-- Drop the characters at the end of a list that satisfy `p`. -/
def dropEndWhile (p : Char → Bool) (cs : List Char) : List Char :=
  (cs.reverse.dropWhile p).reverse

/-- Drop the blank characters at the beginning. -/
def trimStart (cs : List Char) : List Char :=
  cs.dropWhile isBlank

/-- Drop the blank characters at the end. -/
def trimEnd (cs : List Char) : List Char :=
  dropEndWhile isBlank cs

/-- A text without characters shows nothing. -/
@[simp] theorem hasInk_empty : hasInk "" = false := by simp [hasInk]

/-- A joined text shows something exactly when one of its parts does. -/
@[simp] theorem hasInk_append (a b : String) : hasInk (a ++ b) = (hasInk a || hasInk b) := by
  simp [hasInk]

-- The zero-width space shows, the ideographic one does not.
example : isBlank '\u200b' = false ∧ isBlank '\u3000' = true := by decide

end Transcode.Text
