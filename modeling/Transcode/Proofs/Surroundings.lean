import Mathlib.Data.Sum.Basic
import Transcode.Proofs.Copies
import Transcode.Proofs.Halting
import Transcode.Proofs.Returns

namespace Transcode

open Text Trivia

/-!
# The surroundings of moved nodes

What layouts ask of the gaps around nodes has the same answer after the nodes were moved to
another source that shows what theirs did (`Shown`): the offsets that come up are moved along, and
the numbers of line breaks stay.  Of a node that is kept in this sense (`Kept`), handlers see the
same in both sources (`copies_of_kept`).
-/

section

variable {κ : Type} {φ : Nat → Nat} {s s' : String} {last p q : Nat} {spans : List Span}
  {span : Span}

/-! ### Gaps -/

theorem firstComment?_map :
    firstComment? (spans.map (Span.relocate φ)) = (firstComment? spans).map (Span.relocate φ) := by
  rw [firstComment?, firstComment?, List.find?_map]
  rfl

/-- A gap ends at its first comment or where it ended. -/
theorem Text.Shown.gapEnd (h : Shown φ s s' last) (hq : q ≤ last) :
    gapEnd s' (φ p) (φ q) = φ (gapEnd s p q) ∧ gapEnd s p q ≤ last := by
  obtain ⟨hscan, hfits⟩ := @Moves.scan _ _ _ _ p _ h.moves hq
  rw [Transcode.gapEnd, Transcode.gapEnd, hscan, firstComment?_map]
  cases hfirst : firstComment? (scan s p (some q)) with
  | none => exact ⟨rfl, hq⟩
  | some span => exact ⟨rfl, (hfits span (List.mem_of_find?_eq_some hfirst)).start_le⟩

/-- As many line breaks lie between an offset and a node. -/
theorem Text.Shown.breaksBefore {n n' : Node κ} (h : Shown φ s s' last) (hn : n.start ≤ last)
    (hstart : n'.start = φ n.start) : breaksBefore s' (φ p) n' = breaksBefore s p n := by
  obtain ⟨hend, hle⟩ := @Text.Shown.gapEnd _ _ _ _ p _ h hn
  rw [Transcode.breaksBefore, Transcode.breaksBefore, hstart, hend,
    (h.slices p hle).countBreaks_eq]

/-- The end of the first line feed moves along. -/
theorem Trivia.Carries.findIdx? {pos : Nat} {bs bs' : List UInt8} (h : Carries φ pos bs bs') :
    (bs'.findIdx? (· == lineFeed)).map (fun i => φ pos + i + 1)
      = (bs.findIdx? (· == lineFeed)).map fun i => φ (pos + i + 1) := by
  induction h with
  | nil => rfl
  | @same pos b bs bs' hpos _ _ ih =>
    rw [List.findIdx?_cons, List.findIdx?_cons]
    by_cases hb : (b == lineFeed) = true
    · rw [if_pos hb, if_pos hb]
      exact congrArg some hpos.symm
    · rw [if_neg hb, if_neg hb, Option.map_map, Option.map_map]
      have hleft : ((fun i => φ pos + i + 1) ∘ fun i => i + 1) = fun i => φ (pos + 1) + i + 1 := by
        funext i
        rw [hpos, Function.comp_apply, Nat.add_right_comm (φ pos) 1 i, Nat.add_assoc (φ pos) i 1]
      have hright : ((fun i => φ (pos + i + 1)) ∘ fun i => i + 1)
          = fun i => φ (pos + 1 + i + 1) := by
        funext i
        rw [Function.comp_apply, Nat.add_right_comm pos 1 i, Nat.add_assoc pos i 1]
      rw [hleft, hright, ih]
  | paired hpos => exact congrArg some hpos.symm

/-- A slice that resembles one that is empty is empty. -/
theorem Text.Resembles.empty_iff {t t' : String} (h : Resembles t t') : t' = "" ↔ t = "" :=
  h.eq_iff (by decide) (by decide)

theorem Text.Shown.findIdx? (h : Shown φ s s' last) (hspan : span.Fits φ last) :
    ((bytes ((span.relocate φ).textIn s')).findIdx? (· == lineFeed)).map
        (fun i => φ span.start + i + 1)
      = ((bytes (span.textIn s)).findIdx? (· == lineFeed)).map fun i => φ (span.start + i + 1) := by
  have hslices := h.textIn hspan
  by_cases hempty : span.textIn s = ""
  · rw [hempty, hslices.empty_iff.mpr hempty]
    rfl
  · have hbytes : bytes (span.textIn s) = window s span.start span.stop := bytes_slice hempty
    have hbytes' : bytes ((span.relocate φ).textIn s') = window s' (φ span.start) (φ span.stop) :=
      bytes_slice (mt hslices.empty_iff.mp hempty)
    have hle : span.start ≤ span.stop := by
      by_contra hlt
      rw [window_of_le s (Nat.le_of_not_le hlt)] at hbytes
      apply hempty
      rw [← String.utf8ByteSize_eq_zero_iff, ← length_bytes, hbytes]
      rfl
    rw [hbytes, hbytes']
    exact (h.moves.carries hle hspan.stop_le).findIdx?

theorem Text.Shown.firstBreakEnd? (h : Shown φ s s' last) (hq : q ≤ last)
    (hspans : ∀ span ∈ spans, span.Fits φ last) :
    firstBreakEnd? s' (φ q) (spans.map (Span.relocate φ))
      = (firstBreakEnd? s q spans).map φ := by
  induction spans with
  | nil => rfl
  | cons span spans ih =>
    obtain ⟨hspan, hspans⟩ := List.forall_mem_cons.mp hspans
    have ih := ih hspans
    have hfind := h.findIdx? hspan
    rw [List.map_cons, Trivia.firstBreakEnd?, Trivia.firstBreakEnd?]
    have hsame : (span.relocate φ).kind = span.kind := rfl
    rw [hsame]
    cases span.kind with
    | text =>
      dsimp only
      cases hi : (bytes (span.textIn s)).findIdx? (· == lineFeed) with
      | none =>
        rw [hi, Option.map_none, Option.map_eq_none_iff] at hfind
        rw [hfind]
        exact ih
      | some i =>
        rw [hi] at hfind
        obtain ⟨i', hi', hpos⟩ := Option.map_eq_some_iff.mp hfind
        rw [hi']
        exact congrArg some hpos
    | lineComment =>
      show (if span.endsLine = true then _ else _) = _
      split
      · exact congrArg some (h.moves.afterBreak hq)
      · exact ih
    | blockComment => exact ih

/-- Where the next line begins. -/
theorem Text.Shown.nextLineStart (h : Shown φ s s' last) (hq : q ≤ last) :
    nextLineStart s' (φ p) (φ q) = φ (nextLineStart s p q) := by
  obtain ⟨hscan, hfits⟩ := @Moves.scan _ _ _ _ p _ h.moves hq
  have hq' : φ q ≤ (bytes s').length := (h.moves.strictMono.monotone hq).trans h.moves.le'
  rw [Trivia.nextLineStart, Trivia.nextLineStart, Nat.min_eq_left (hq.trans h.moves.le),
    Nat.min_eq_left hq', hscan, h.firstBreakEnd? hq hfits, Option.getD_map]

/-- As many blank lines lie between two nodes. -/
theorem Text.Shown.blankLinesBetween {a a' b b' : Node κ} (h : Shown φ s s' last)
    (hb : b.start ≤ last) (hstop : a'.stop = φ a.stop) (hstart : b'.start = φ b.start) :
    blankLinesBetween s' a' b' = blankLinesBetween s a b := by
  rw [Transcode.blankLinesBetween, Transcode.blankLinesBetween, hstop, hstart]
  by_cases hlt : a.stop < b.start
  · rw [if_pos hlt, if_pos (h.moves.strictMono hlt), h.nextLineStart hb]
    obtain ⟨hend, hle⟩ := @Text.Shown.gapEnd _ _ _ _ (Trivia.nextLineStart s a.stop b.start) _ h hb
    dsimp only
    rw [hend, (h.slices _ hle).countNakedBreaks_eq]
  · rw [if_neg hlt, if_neg (mt h.moves.strictMono.lt_iff_lt.mp hlt)]

/-! ### Leading trivia -/

/-- A line comment has the same text. -/
theorem Text.Shown.textIn_lineComment (h : Shown φ s s' last) (hspan : span.Fits φ last)
    (hkind : span.kind = .lineComment) : (span.relocate φ).textIn s' = span.textIn s := by
  have htext := h.textIn hspan
  by_cases hempty : span.textIn s = ""
  · rw [hempty, htext.empty_iff.mpr hempty]
  have hsize : span.start + (span.textIn s).utf8ByteSize = span.stop :=
    add_utf8ByteSize_slice hempty
  have hsize' : φ span.start + ((span.relocate φ).textIn s').utf8ByteSize = φ span.stop :=
    add_utf8ByteSize_slice (mt htext.empty_iff.mp hempty)
  have htight := hspan.tight hkind
  exact htext.eq_of_size (by omega)

/-- A comment comes out the same. -/
theorem Text.Shown.comment (h : Shown φ s s' last) (hspan : span.Fits φ last)
    (hkind : span.isComment = true) :
    Target.comment s' (span.relocate φ) = Target.comment s span := by
  have hstrip : stripMarkers ((span.relocate φ).textIn s') (span.kind == .blockComment)
      = stripMarkers (span.textIn s) (span.kind == .blockComment) := by
    cases hspankind : span.kind with
    | text =>
      rw [Span.isComment, hspankind] at hkind
      cases hkind
    | lineComment => rw [h.textIn_lineComment hspan hspankind]
    | blockComment => exact (h.textIn hspan).stripMarkers_block
  rw [Target.comment, Target.comment, ← hstrip]
  rfl

end

end Transcode

namespace Transcode.Engine

open Output Text Trivia Target

section

variable {φ : Nat → Nat} {ρ : String → String} {s s' : String} {last : Nat}

/-! ### Pieces -/

namespace Piece

/-- A piece at another offset. -/
def relocate (φ : Nat → Nat) : Piece → Piece
  | comment span => comment (span.relocate φ)
  | blank start => blank (φ start)

/-- A piece that `φ` carries along. -/
def Fits (φ : Nat → Nat) (last : Nat) : Piece → Prop
  | comment span => span.Fits φ last ∧ span.isComment = true
  | blank start => start ≤ last

end Piece

/-- Keys of pieces become those of the pieces elsewhere. -/
def Renames (ρ : String → String) (φ : Nat → Nat) (last : Nat) : Prop :=
  ∀ p : Piece, p.Fits φ last → ρ p.key = (p.relocate φ).key

/-- A comment has no keys in it. -/
theorem mapKeys_comment {span : Span} :
    (Target.comment s span).mapKeys ρ = Target.comment s span := by
  rw [Target.comment]
  split
  · exact Tree.mapKeys_ofText
  · rw [Tree.mapKeys_ofFragments, mapKeysAll_eq_map, List.map_map]
    rfl

theorem Piece.Fits.tree {p : Piece} (hp : p.Fits φ last) (h : Shown φ s s' last)
    (hρ : Renames ρ φ last) :
    (p.relocate φ).tree (Target.comment s') = (p.tree (Target.comment s)).mapKeys ρ := by
  have hkey := hρ p hp
  cases p with
  | comment span =>
    show (Target.comment s' (span.relocate φ)).withKey (key (.comment (span.relocate φ)))
      = ((Target.comment s span).withKey (key (.comment span))).mapKeys ρ
    rw [Tree.mapKeys_withKey, mapKeys_comment, hkey, h.comment hp.1 hp.2]
    rfl
  | blank start =>
    show (Tree.ofText "\n").withKey (key (.blank (φ start)))
      = ((Tree.ofText "\n").withKey (key (.blank start))).mapKeys ρ
    rw [Tree.mapKeys_withKey, hkey, Tree.mapKeys_ofText]
    rfl

/-- Pieces of the same spans are the same, elsewhere. -/
theorem piecesOf_relocate (h : Shown φ s s' last) {spans : List Span}
    (hspans : ∀ span ∈ spans, span.Fits φ last) (seen owes : Bool) :
    piecesOf s' seen owes (spans.map (Span.relocate φ))
        = (piecesOf s seen owes spans).map (Piece.relocate φ)
      ∧ ∀ p ∈ piecesOf s seen owes spans, p.Fits φ last := by
  induction spans generalizing seen owes with
  | nil => exact ⟨rfl, nofun⟩
  | cons span spans ih =>
    obtain ⟨hspan, hspans⟩ := List.forall_mem_cons.mp hspans
    by_cases hkind : span.kind = .text
    · have hcount := (h.textIn hspan).countBreaks_eq
      have hkind' : (span.relocate φ).kind = .text := hkind
      rw [List.map_cons, piecesOf, piecesOf, hkind, hkind', hcount]
      cases seen with
      | false => exact ih hspans false owes
      | true =>
        dsimp only
        obtain ⟨hlater, hfits⟩ := ih hspans true (owes && countBreaks (span.textIn s) == 0)
        rw [hlater]
        by_cases hblank : 0 < countBreaks (span.textIn s) - owes.toNat
        · rw [if_pos hblank, if_pos hblank]
          exact ⟨rfl, List.forall_mem_cons.mpr ⟨hspan.start_le, hfits⟩⟩
        · rw [if_neg hblank, if_neg hblank]
          exact ⟨rfl, hfits⟩
    · have hkind' : (span.relocate φ).kind ≠ .text := hkind
      obtain ⟨hlater, hfits⟩ := ih hspans true (span.kind == .blockComment && span.endsLine)
      rw [List.map_cons, piecesOf_of_comment hkind, piecesOf_of_comment hkind', List.map_cons]
      exact ⟨congrArg _ hlater, List.forall_mem_cons.mpr ⟨⟨hspan, bne_iff_ne.mpr hkind⟩, hfits⟩⟩

/-- The key of a comment, or of a run of blank lines. -/
def keyAt : Nat ⊕ Nat → String
  | .inl start => commentKey start
  | .inr start => Piece.key (.blank start)

theorem keyAt_injective : Function.Injective keyAt := by
  have hne : ∀ start start', commentKey start ≠ Piece.key (.blank start') := by
    intro start start' h
    have hblank := Piece.isCommentKey_key_blank start'
    rw [← h, isCommentKey_commentKey] at hblank
    cases hblank
  intro k k' h
  cases k with
  | inl start =>
    cases k' with
    | inl start' => exact congrArg Sum.inl (commentKey_injective h)
    | inr start' => exact absurd h (hne start start')
  | inr start =>
    cases k' with
    | inl start' => exact absurd h.symm (hne start' start)
    | inr start' => exact congrArg Sum.inr (append_toString_injective "ws-" h)

/-- Keys can be renamed as a function that gives no offset twice asks for, and no others become keys
    of pieces. -/
theorem exists_renaming (hφ : Function.Injective φ) (last : Nat) :
    ∃ ρ, Function.Injective ρ ∧ Renames ρ φ last
      ∧ ∀ key k, ρ key = keyAt k → k ∈ Set.range (Sum.map φ φ) := by
  let ρ := Function.extend keyAt (fun k => keyAt (k.map φ φ)) id
  have hat : ∀ k, ρ (keyAt k) = keyAt (k.map φ φ) := keyAt_injective.extend_apply _ _
  have houtside : ∀ key, (¬ ∃ k, keyAt k = key) → ρ key = key := Function.extend_apply' _ _
  have hrange : ∀ key k, ρ key = keyAt k → ∃ k', keyAt k' = key ∧ k'.map φ φ = k := by
    intro key k heq
    by_cases h : ∃ k', keyAt k' = key
    · obtain ⟨k', rfl⟩ := h
      rw [hat] at heq
      exact ⟨k', rfl, keyAt_injective heq⟩
    · rw [houtside key h] at heq
      exact absurd ⟨k, heq.symm⟩ h
  refine ⟨ρ, fun key key' heq => ?_, fun p _ => ?_, fun key k heq => ?_⟩
  · by_cases h : ∃ k, keyAt k = key <;> by_cases h' : ∃ k, keyAt k = key'
    · obtain ⟨⟨k, rfl⟩, ⟨k', rfl⟩⟩ := And.intro h h'
      rw [hat, hat] at heq
      exact congrArg keyAt (Function.Injective.sumMap hφ hφ (keyAt_injective heq))
    · obtain ⟨k, rfl⟩ := h
      rw [hat, houtside key' h'] at heq
      exact absurd ⟨_, heq⟩ h'
    · obtain ⟨k, rfl⟩ := h'
      rw [hat, houtside key h] at heq
      exact absurd ⟨_, heq.symm⟩ h
    · rwa [houtside key h, houtside key' h'] at heq
  · cases p with
    | comment span => exact hat (.inl span.start)
    | blank start => exact hat (.inr start)
  · obtain ⟨k', -, hk'⟩ := hrange key k heq
    exact ⟨k', hk'⟩

theorem exists_renames (hφ : Function.Injective φ) (last : Nat) :
    ∃ ρ, Function.Injective ρ ∧ Renames ρ φ last := by
  obtain ⟨ρ, hinjective, hρ, -⟩ := exists_renaming hφ last
  exact ⟨ρ, hinjective, hρ⟩

end

end Transcode.Engine

namespace Transcode.Target

open Output Engine Script Text Trivia

/-! ### Nodes -/

section

variable {φ : Nat → Nat} {ρ : String → String} {m : Relocation} {s s' : String} {last : Nat}
  {n : Ast}

/-- A node that is kept: it moves as the text does, with what comes before it. -/
structure Kept (φ : Nat → Nat) (m : Relocation) (s s' : String) (last : Nat) (n : Ast) : Prop where
  start_le : n.start ≤ last
  stop_le : n.stop ≤ last
  start : m.start n.start = φ n.start
  stop : m.edge n.stop = φ n.stop
  abuts : Abuts s n
  leading : leadingOf s' (n.relocate m) = (leadingOf s n).map (Piece.relocate φ)
  breakPrecedes : n.kind = .propertyAssignment →
    breakPrecedes s' (n.relocate m) = breakPrecedes s n

/-- The text of a kept node. -/
theorem Kept.textIn (h : Kept φ m s s' last n) (hshown : Shown φ s s' last) :
    Resembles (n.textIn s) ((n.relocate m).textIn s') := by
  rw [Node.textIn, Node.textIn, Node.start_relocate, Node.stop_relocate, h.start, h.stop]
  exact hshown.slices n.start h.stop_le

/-- A node whose leading trivia move as the text does is kept. -/
theorem kept_of_abuts (hshown : Shown φ s s' last) (hstart_le : n.start ≤ last)
    (hstop_le : n.stop ≤ last) (hfullStart : m.edge n.fullStart = φ n.fullStart)
    (hstart : m.start n.start = φ n.start) (hstop : m.edge n.stop = φ n.stop) (habuts : Abuts s n)
    (habuts' : Abuts s' (n.relocate m)) : Kept φ m s s' last n := by
  rw [Abuts, Node.fullStart_relocate, Node.start_relocate, hfullStart, hstart] at habuts'
  obtain ⟨hscan, hfits⟩ := @Moves.scan _ _ _ _ n.fullStart _ hshown.moves hstart_le
  have hspans : scan s' (n.relocate m).fullStart none
      = (scan s n.fullStart none).map (Span.relocate φ) := by
    rw [Node.fullStart_relocate, hfullStart, ← habuts', ← habuts, hscan]
  refine ⟨hstart_le, hstop_le, hstart, hstop, habuts, ?_, fun _ => ?_⟩
  · rw [leadingOf, hspans]
    rw [habuts] at hfits
    exact (piecesOf_relocate hshown hfits false false).1
  · rw [Transcode.breakPrecedes, Transcode.breakPrecedes, hspans, List.any_map,
      Bool.eq_iff_iff, List.any_eq_true, List.any_eq_true]
    rw [habuts] at hfits
    refine exists_congr fun span => and_congr_right fun hspan => Bool.eq_iff_iff.mp ?_
    have hbreak := (hshown.textIn (hfits span hspan)).hasBreak_eq
    obtain ⟨kind, start, stop, endsLine⟩ := span
    cases kind with
    | text => exact hbreak
    | lineComment => rfl
    | blockComment => rfl

theorem fits_of_mem_leadingOf (hshown : Shown φ s s' last) (hstart_le : n.start ≤ last)
    (habuts : Abuts s n) : ∀ p ∈ leadingOf s n, p.Fits φ last := by
  have hfits := (@Moves.scan _ _ _ _ n.fullStart _ hshown.moves hstart_le).fits
  rw [habuts] at hfits
  exact (piecesOf_relocate hshown hfits false false).2

/-- Of nodes that are kept, handlers see the same. -/
theorem copies_of_kept {nodes : Ast → Prop} (hshown : Shown φ s s' last) (hρ : Renames ρ φ last)
    (hchildren : ∀ n, nodes n → ∀ child ∈ n.children, nodes child)
    (hform : ∀ n, nodes n → Form n.kind n.children)
    (hkept : ∀ n, nodes n → Kept φ m s s' last n)
    (htext : ∀ n, nodes n → n.kind.leaf?.isSome = true ∨ n.kind = .whileStatement →
      (n.relocate m).textIn s' = n.textIn s) :
    Copies s s' m ρ nodes where
  children := hchildren
  form := hform
  text := htext
  log n hn := ((hkept n hn).textIn hshown).eq_iff (by decide) (by decide)
  leading n t hn := by
    -- The comments before a kept node lie within what is kept, so their keys are only renamed.
    have hpieces := fits_of_mem_leadingOf hshown (hkept n hn).start_le (hkept n hn).abuts
    rw [withLeading, withLeading, (hkept n hn).leading]
    cases hleading : leadingOf s n with
    | nil => rfl
    | cons p ps =>
      rw [hleading] at hpieces
      have htrees : ((p :: ps).map (Piece.relocate φ)).map
            (fun p => (p.tree (comment s')).toFragment)
          = mapKeysAll ρ ((p :: ps).map fun p => (p.tree (comment s)).toFragment) := by
        rw [mapKeysAll_eq_map, List.map_map, List.map_map]
        refine List.map_congr_left fun p hp => ?_
        rw [Function.comp_apply, (hpieces p hp).tree hshown hρ]
        rfl
      show Tree.ofFragments (((p :: ps).map (Piece.relocate φ)).map _ ++ _) = _
      rw [Tree.mapKeys_ofFragments, mapKeysAll_append, htrees]
      rfl
  breakPrecedes n hn := (hkept n hn).breakPrecedes
  blankLines a b ha hb := by
    refine hshown.blankLinesBetween (hkept b hb).start_le ?_ ?_
    · rw [Node.stop_relocate, (hkept a ha).stop]
    · rw [Node.start_relocate, (hkept b hb).start]
  breaksAfterStart a b ha hb := by
    rw [(hkept a ha).start]
    refine hshown.breaksBefore (hkept b hb).start_le ?_
    rw [Node.start_relocate, (hkept b hb).start]
  breaksAfterStop a b ha hb := by
    rw [(hkept a ha).stop]
    refine hshown.breaksBefore (hkept b hb).start_le ?_
    rw [Node.start_relocate, (hkept b hb).start]

theorem stop_le_of_parse {source : String} {root n : Ast} (h : parse source = .ok root)
    (hn : n ∈ root.preorder) : n.stop ≤ (bytes source).length := by
  obtain ⟨lexemes, ss, -, -, rfl⟩ := parse_eq_ok.mp h
  rw [length_bytes]
  exact (place_of_mem_preorder (nests_of_parse h) hn).2.1

end

end Transcode.Target
