namespace Transcode.Text

/-!
# Bytes and slices of a text

Offsets into a text count the bytes of its UTF-8 form.  An offset is a *boundary* of the
text when no character straddles it.  A slice is taken between two offsets and is empty
unless both are boundaries, in order and inside the text, so that it is defined for any two
numbers whatever.
-/

/-- The UTF-8 form of a text. -/
def bytes (s : String) : List UInt8 :=
  s.toList.flatMap String.utf8EncodeChar

/-- How many bytes some characters take. -/
def byteLength : List Char → Nat
  | [] => 0
  | c :: cs => c.utf8Size + byteLength cs

/-- The characters after the first `n` bytes; `none` when `n` is no boundary. -/
def dropBytes? (n : Nat) : List Char → Option (List Char)
  | [] => if n = 0 then some [] else none
  | c :: cs =>
    if n = 0 then some (c :: cs)
    else if c.utf8Size ≤ n then dropBytes? (n - c.utf8Size) cs
    else none

/-- The characters in the first `n` bytes; `none` when `n` is no boundary. -/
def takeBytes? (n : Nat) : List Char → Option (List Char)
  | [] => if n = 0 then some [] else none
  | c :: cs =>
    if n = 0 then some []
    else if c.utf8Size ≤ n then (takeBytes? (n - c.utf8Size) cs).map (c :: ·)
    else none

/-- The part of `s` from offset `start` to offset `stop`, if the two are boundaries in order. -/
def slice? (s : String) (start stop : Nat) : Option String :=
  if start ≤ stop then
    (dropBytes? start s.toList).bind fun rest =>
      (takeBytes? (stop - start) rest).map String.ofList
  else none

/-- The part of `s` from `start` to `stop`, empty when there is no such part. -/
def slice (s : String) (start stop : Nat) : String :=
  (slice? s start stop).getD ""

/-! ### Sizes -/

/-- No characters have no bytes, -/
@[simp] theorem byteLength_nil : byteLength [] = 0 := rfl

/-- each has those of its encoding, -/
@[simp] theorem byteLength_cons (c : Char) (cs : List Char) :
    byteLength (c :: cs) = c.utf8Size + byteLength cs := rfl

/-- and a text has those of its parts. -/
@[simp] theorem byteLength_append (a b : List Char) :
    byteLength (a ++ b) = byteLength a + byteLength b := by
  induction a with
  | nil => simp
  | cons c a ih => simp [ih, Nat.add_assoc]

/-- The size of a text is that of its characters. -/
theorem utf8ByteSize_eq_byteLength (s : String) : s.utf8ByteSize = byteLength s.toList := by
  have h : ∀ cs : List Char, (String.ofList cs).utf8ByteSize = byteLength cs := by
    intro cs
    induction cs with
    | nil => rfl
    | cons c cs ih =>
      rw [show String.ofList (c :: cs) = String.singleton c ++ String.ofList cs by simp,
        String.utf8ByteSize_append, ih]
      simp
  simpa using h s.toList

/-- The size of a text is the number of its bytes. -/
theorem length_bytes (s : String) : (bytes s).length = s.utf8ByteSize := by
  rw [utf8ByteSize_eq_byteLength, bytes]
  induction s.toList with
  | nil => rfl
  | cons c cs ih => simp [String.length_utf8EncodeChar, ih]

/-! ### Slices between boundaries -/

/-- The end of some characters is a boundary, and what follows it is what follows them. -/
theorem dropBytes?_append (a b : List Char) : dropBytes? (byteLength a) (a ++ b) = some b := by
  induction a with
  | nil => cases b <;> rfl
  | cons c a ih =>
    have hc := c.utf8Size_pos
    rw [byteLength_cons, List.cons_append, dropBytes?, if_neg (by omega), if_pos (by omega),
      Nat.add_sub_cancel_left]
    exact ih

/-- What comes before that boundary is the characters themselves. -/
theorem takeBytes?_append (a b : List Char) : takeBytes? (byteLength a) (a ++ b) = some a := by
  induction a with
  | nil => cases b <;> rfl
  | cons c a ih =>
    have hc := c.utf8Size_pos
    rw [byteLength_cons, List.cons_append, takeBytes?, if_neg (by omega), if_pos (by omega),
      Nat.add_sub_cancel_left, ih]
    rfl

/-- The slice between two boundaries is what stands between them. -/
theorem slice_append (a m b : List Char) :
    slice (String.ofList (a ++ m ++ b)) (byteLength a) (byteLength a + byteLength m)
      = String.ofList m := by
  rw [slice, slice?, if_pos (Nat.le_add_right _ _), String.toList_ofList, List.append_assoc,
    dropBytes?_append, Nat.add_sub_cancel_left, Option.bind_some, takeBytes?_append]
  rfl

-- Inside a character there is no boundary.
example : slice "aéb" 1 3 = "é" ∧ slice "aéb" 1 2 = "" ∧ slice "aéb" 3 1 = "" := by decide +kernel

end Transcode.Text
