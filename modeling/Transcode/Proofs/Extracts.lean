import Transcode.Proofs.Returns

namespace Transcode.Text

open Trivia

/-!
# Texts within texts

A text that stands inside a longer one shows there what it shows by itself, as far on as the text
before it is long (`shown_within`).
-/

variable {c : Char} {as bs before after : List Char} {s s' : String} {p q : Nat}

theorem dropBytes?_append_of_le (h : p ≤ byteLength as) :
    dropBytes? p (as ++ bs) = (dropBytes? p as).map (· ++ bs) := by
  induction as generalizing p with
  | nil =>
    obtain rfl := Nat.le_zero.mp h
    exact dropBytes?_zero
  | cons c as ih =>
    obtain rfl | ⟨k, rfl⟩ | ⟨hp, hc⟩ := offset_cases c p
    · rw [dropBytes?_zero, dropBytes?_zero]
      rfl
    · rw [byteLength_cons, byteLength_cons, byteLength_nil, Nat.add_zero] at h
      show dropBytes? (byteLength [c] + k) ([c] ++ (as ++ bs))
        = (dropBytes? (byteLength [c] + k) ([c] ++ as)).map (· ++ bs)
      rw [dropBytes?_add, dropBytes?_add, ih (Nat.le_of_add_le_add_left h)]
    · rw [List.cons_append, dropBytes?, dropBytes?, if_neg (Nat.ne_of_gt hp),
        if_neg (Nat.ne_of_gt hp), if_neg (Nat.not_le.mpr hc), if_neg (Nat.not_le.mpr hc)]
      rfl

theorem takeBytes?_append_of_le (h : p ≤ byteLength as) :
    takeBytes? p (as ++ bs) = takeBytes? p as := by
  induction as generalizing p with
  | nil =>
    obtain rfl := Nat.le_zero.mp h
    exact takeBytes?_zero
  | cons c as ih =>
    obtain rfl | ⟨k, rfl⟩ | ⟨hp, hc⟩ := offset_cases c p
    · rw [takeBytes?_zero, takeBytes?_zero]
    · rw [byteLength_cons, byteLength_cons, byteLength_nil, Nat.add_zero] at h
      show takeBytes? (byteLength [c] + k) ([c] ++ (as ++ bs))
        = takeBytes? (byteLength [c] + k) ([c] ++ as)
      rw [takeBytes?_add, takeBytes?_add, ih (Nat.le_of_add_le_add_left h)]
    · rw [List.cons_append, takeBytes?, takeBytes?, if_neg (Nat.ne_of_gt hp),
        if_neg (Nat.ne_of_gt hp), if_neg (Nat.not_le.mpr hc), if_neg (Nat.not_le.mpr hc)]

section

variable (h : s'.toList = before ++ s.toList ++ after)
include h

theorem bytes_within : bytes s' = encode before ++ (bytes s ++ encode after) := by
  have hencode := congrArg encode h
  rwa [encode_append, encode_append, List.append_assoc] at hencode

/-- What stands between two offsets of the inner text. -/
theorem window_within (hpq : p ≤ q) (hq : q ≤ (bytes s).length) :
    window s' (p + byteLength before) (q + byteLength before) = window s p q := by
  have hlength : q - p ≤ ((bytes s).drop p).length := by
    rw [List.length_drop]
    omega
  have hdrop : (bytes s').drop (p + byteLength before) = (bytes s).drop p ++ encode after := by
    rw [bytes_within h, Nat.add_comm, ← length_encode, List.drop_length_add_append,
      List.drop_append_of_le_length (hpq.trans hq)]
  rw [window, window, hdrop, Nat.add_sub_add_right, List.take_append_of_le_length hlength]

theorem slice_within (p : Nat) (hq : q ≤ (bytes s).length) :
    slice s' (p + byteLength before) (q + byteLength before) = slice s p q := by
  rw [slice, slice, slice?, slice?]
  by_cases hpq : p ≤ q
  · have hle : q ≤ byteLength s.toList := by
      rwa [length_bytes, utf8ByteSize_eq_byteLength] at hq
    rw [if_pos hpq, if_pos (Nat.add_le_add_right hpq _), h, List.append_assoc, Nat.add_comm p,
      dropBytes?_add, dropBytes?_append_of_le (hpq.trans hle), Nat.add_comm, Nat.add_sub_add_left]
    cases hdrop : dropBytes? p s.toList with
    | none => rfl
    | some rest =>
      obtain ⟨front, hsplit, rfl⟩ := dropBytes?_eq_some hdrop
      rw [hsplit, byteLength_append] at hle
      rw [Option.map_some, Option.bind_some, Option.bind_some, takeBytes?_append_of_le (by omega)]
  · rw [if_neg hpq, if_neg (mt Nat.le_of_add_le_add_right hpq)]

/-- A text inside a longer one shows there what it shows by itself. -/
theorem shown_within : Shown (· + byteLength before) s s' (bytes s).length where
  moves := {
    strictMono := fun _ _ hlt => Nat.add_lt_add_right hlt _
    le := Nat.le_refl _
    le' := by
      rw [bytes_within h, List.length_append, List.length_append, length_encode]
      omega
    carries := fun {p q} hpq hq => by
      rw [window_within h hpq hq]
      exact Carries.refl fun k _ => Nat.succ_add _ _ }
  slices p q hq := by
    rw [slice_within h p hq]
    exact .same

end

end Transcode.Text
