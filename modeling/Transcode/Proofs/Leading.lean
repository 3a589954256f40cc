import Transcode.Proofs.Ensures
import Transcode.Proofs.Firing
import Transcode.Proofs.Scanner

namespace Transcode.Engine

open Output Trivia

/-!
# What leading trivia add before a node

The comments and runs of blank lines before a node come out as *pieces*, each under a key of its
own.  `leadingOf` lists those of a node.  For a backend whose comments come out as some function
says, that is all that attaching leading trivia adds to an output (`ensures_attachLeadingTrivia`).
-/

/-! ### Pieces -/

/-- What leading trivia add before a node. -/
inductive Piece
  | comment (span : Span)
  /-- A blank line for the run of blank lines at an offset. -/
  | blank (start : Nat)
  deriving DecidableEq, Repr

/-- The key of the comment at an offset. -/
def commentKey (start : Nat) : String :=
  "comment-" ++ toString start

/-- Whether a key is that of a comment. -/
def isCommentKey (key : String) : Bool :=
  "comment-".toList.isPrefixOf key.toList

theorem append_toString_injective (lead : String) :
    Function.Injective fun n : Nat => lead ++ toString n := by
  intro a b h
  have hlist := congrArg String.toList h
  simp only [String.toList_append, Nat.toString_eq_ofList_toDigits, String.toList_ofList] at hlist
  have hdigits := congrArg (Nat.ofDigitChars 10 · 0) (List.append_cancel_left hlist)
  simpa only [Nat.ofDigitChars_ten_toDigits] using hdigits

theorem commentKey_injective : Function.Injective commentKey :=
  append_toString_injective "comment-"

@[simp] theorem isCommentKey_commentKey (start : Nat) : isCommentKey (commentKey start) = true := by
  rw [isCommentKey, commentKey, String.toList_append, List.isPrefixOf_iff_prefix]
  exact List.prefix_append _ _

namespace Piece

/-- The key under which a piece is written once. -/
def key : Piece → String
  | comment span => commentKey span.start
  | blank start => "ws-" ++ toString start

/-- What a piece comes out as, given how comments do. -/
def tree (render : Span → Tree) : Piece → Tree
  | comment span => (render span).withKey (commentKey span.start)
  | blank start => (Tree.ofText "\n").withKey ("ws-" ++ toString start)

/-- Where the comment of a piece begins. -/
def position? : Piece → Option Nat
  | comment span => some span.start
  | blank _ => none

theorem isCommentKey_key_blank (start : Nat) : isCommentKey (key (blank start)) = false := by
  rw [isCommentKey, key, String.toList_append]
  rfl

@[simp] theorem renderOnce_tree (render : Span → Tree) (p : Piece) :
    (p.tree render).layout.renderOnce = some p.key := by
  cases p <;> rfl

theorem keyed_tree (render : Span → Tree) (p : Piece) :
    (p.tree render).toFragment.keyed = [p.tree render] := by
  cases p <;> rfl

end Piece

/-- Where the comments among some pieces begin. -/
def positions (pieces : List Piece) : List Nat :=
  pieces.filterMap Piece.position?

theorem positions_append (ps qs : List Piece) :
    positions (ps ++ qs) = positions ps ++ positions qs :=
  List.filterMap_append

theorem mem_positions {ps : List Piece} {k : Nat} :
    k ∈ positions ps ↔ ∃ span, .comment span ∈ ps ∧ span.start = k := by
  rw [positions, List.mem_filterMap]
  constructor
  · rintro ⟨p, hp, hk⟩
    cases p with
    | comment span => exact ⟨span, hp, Option.some.inj hk⟩
    | blank start => cases hk
  · rintro ⟨span, hp, rfl⟩
    exact ⟨_, hp, rfl⟩

/-- What pieces come out as has their keys. -/
theorem keysOf_map_tree (render : Span → Tree) (ps : List Piece) :
    keysOf (ps.map (·.tree render)) = ps.map Piece.key := by
  induction ps with
  | nil => rfl
  | cons p ps ih =>
    have hcons : keysOf (p.tree render :: ps.map (·.tree render))
        = p.key :: keysOf (ps.map (·.tree render)) :=
      List.filterMap_cons_some (p.renderOnce_tree render)
    rw [List.map_cons, hcons, ih, List.map_cons]

/-- The keys of the comments among some pieces. -/
theorem filter_isCommentKey_map_key (ps : List Piece) :
    (ps.map Piece.key).filter isCommentKey = (positions ps).map commentKey := by
  induction ps with
  | nil => rfl
  | cons p ps ih =>
    cases p with
    | comment span =>
      have hkey : isCommentKey (Piece.key (.comment span)) = true := isCommentKey_commentKey _
      rw [List.map_cons, List.filter_cons_of_pos hkey, ih]
      rfl
    | blank start =>
      have hnot : ¬ isCommentKey (Piece.key (.blank start)) = true := by
        rw [Piece.isCommentKey_key_blank]
        exact Bool.false_ne_true
      rw [List.map_cons, List.filter_cons_of_neg hnot, ih]
      rfl

/-! ### Pieces of leading trivia -/

/-- The pieces for some spans.  `seen` tells whether there was a comment already, and `owes`
    whether the line break that ends its line is still to come. -/
def piecesOf (source : String) (seen owes : Bool) : List Span → List Piece
  | [] => []
  | span :: rest =>
    match span.kind with
    | .text =>
      if seen then
        let found := Text.countBreaks (span.textIn source)
        let later := piecesOf source true (owes && found == 0) rest
        if 0 < found - owes.toNat then .blank span.start :: later else later
      else piecesOf source false owes rest
    | _ => .comment span :: piecesOf source true (span.kind == .blockComment && span.endsLine) rest

/-- The pieces for the leading trivia of a node. -/
def leadingOf {κ : Type} (source : String) (n : Node κ) : List Piece :=
  piecesOf source false false (scan source n.fullStart none)

/-- Text before the first comment is left to others. -/
theorem piecesOf_plainText {source : String} {owes : Bool} {start stop : Nat} {spans : List Span} :
    piecesOf source false owes (plainText start stop ++ spans)
      = piecesOf source false owes spans := by
  rw [plainText]
  split <;> rfl

/-- A comment is a piece. -/
theorem piecesOf_of_comment {source : String} {seen owes : Bool} {first : Span} {rest : List Span}
    (h : first.kind ≠ .text) :
    piecesOf source seen owes (first :: rest)
      = .comment first
        :: piecesOf source true (first.kind == .blockComment && first.endsLine) rest := by
  rw [piecesOf]
  split
  · exact absurd ‹_› h
  · rfl

/-- What comes first is a comment. -/
theorem exists_comment_of_piecesOf {source : String} {spans : List Span} {owes : Bool} {p : Piece}
    {ps : List Piece} (h : piecesOf source false owes spans = p :: ps) :
    ∃ span, p = .comment span := by
  induction spans with
  | nil => cases h
  | cons span spans ih =>
    rw [piecesOf] at h
    split at h
    · exact ih h
    · exact ⟨span, (List.cons_eq_cons.mp h).1.symm⟩

/-- The comments among some spans are all there. -/
theorem mem_piecesOf {source : String} {span : Span} {spans : List Span} {seen owes : Bool} :
    .comment span ∈ piecesOf source seen owes spans ↔ span ∈ spans ∧ span.isComment = true := by
  induction spans generalizing seen owes with
  | nil => simp [piecesOf]
  | cons first rest ih =>
    have htext : first.kind = .text → (span = first → span.isComment = false) := by
      rintro h rfl
      simp [Span.isComment, h]
    have hcomment : first.kind ≠ .text → (span = first → span.isComment = true) := by
      rintro h rfl
      simp [Span.isComment, h]
    rw [piecesOf]
    split <;> grind

/-- They come in order. -/
theorem positions_piecesOf {source : String} {spans : List Span} {seen owes : Bool} :
    positions (piecesOf source seen owes spans) = (comments spans).map (·.2.1) := by
  have hcons : ∀ span ps, positions (.comment span :: ps) = span.start :: positions ps :=
    fun _ _ => rfl
  have hblank : ∀ start ps, positions (.blank start :: ps) = positions ps := fun _ _ => rfl
  rw [comments, List.map_map]
  induction spans generalizing seen owes with
  | nil => rfl
  | cons first rest ih =>
    rw [List.filter_cons, Span.isComment]
    by_cases hkind : first.kind = .text
    · rw [piecesOf, hkind]
      simp only [bne_self_eq_false, Bool.false_eq_true, if_false]
      split
      · split
        · rw [hblank, ih]
        · exact ih
      · exact ih
    · have hcomment : (first.kind != .text) = true := bne_iff_ne.mpr hkind
      rw [piecesOf_of_comment hkind, hcons, ih, if_pos hcomment]
      rfl

section

variable {κ C : Type} {merge : C → C → C} {spec : C → Span → Tree → Prop} {c : C}
  {render : Span → Tree} {source : String}

/-- A comment is rendered and given its key. -/
theorem leadingPieces_of_comment {seen owes : Bool} {first : Span} {rest : List Span}
    (h : first.kind ≠ .text) :
    (leadingPieces source seen owes (first :: rest) : Program Span C (List Fragment)) = (do
      let comment ← Program.ask first
      let keyed := comment.withKey ("comment-" ++ toString first.start)
      let later ← leadingPieces source true (first.kind == .blockComment && first.endsLine) rest
      return keyed.toFragment :: later) := by
  rw [leadingPieces]
  split
  · exact absurd ‹_› h
  · rfl

/-- Leading trivia come out as their pieces. -/
theorem ensures_leadingPieces (hspec : ∀ c span t, spec c span t → t = render span)
    {seen owes : Bool} {spans : List Span} {post : List Fragment → Prop}
    (h : post ((piecesOf source seen owes spans).map fun p => (p.tree render).toFragment)) :
    (leadingPieces source seen owes spans).Ensures merge spec c post := by
  induction spans generalizing seen owes post with
  | nil => exact h
  | cons first rest ih =>
    by_cases hkind : first.kind = .text
    · simp only [piecesOf, hkind] at h
      simp only [leadingPieces, hkind]
      cases seen with
      | false => exact ih h
      | true =>
        rw [if_pos rfl, Program.ensures_bind]
        rw [if_pos rfl] at h
        apply ih
        split at h
        · rename_i hkept
          rw [if_pos hkept]
          exact h
        · rename_i hkept
          rw [if_neg hkept]
          exact h
    · rw [piecesOf_of_comment hkind] at h
      rw [leadingPieces_of_comment hkind, Program.ensures_bind, Program.ensures_ask]
      intro t ht
      rw [hspec c first t ht, Program.ensures_bind]
      exact ih h

/-- A tree is an output with the comments before a node in front. -/
structure Led (source : String) (render : Span → Tree) (n : Node κ) (output t : Tree) : Prop where
  unkeyed : t.layout.renderOnce = none
  keyed : t.keyed = (leadingOf source n).map (·.tree render) ++ output.keyed
  isEmpty : t.isEmpty = true → output.isEmpty = true

theorem keyedAll_map_tree (ps : List Piece) :
    keyedAll (ps.map fun p => (p.tree render).toFragment) = ps.map (·.tree render) := by
  induction ps with
  | nil => rfl
  | cons p ps ih => rw [List.map_cons, keyedAll, Piece.keyed_tree, ih]; rfl

theorem isEmpty_piece (hrender : ∀ span, (render span).isEmpty = false) (p : Piece) :
    (p.tree render).toFragment.isEmpty = false := by
  cases p with
  | comment span => exact hrender span
  | blank start =>
    show (Tree.ofText "\n").isEmpty = false
    decide +kernel

/-- An output with the leading trivia of a node in front.  Without any it is left as it is, and not
    wrapped. -/
def withLeading (source : String) (render : Span → Tree) (n : Node κ) (output : Tree) : Tree :=
  match leadingOf source n with
  | [] => output
  | pieces => .ofFragments (pieces.map (fun p => (p.tree render).toFragment) ++ [output.toFragment])

theorem led_withLeading (hrender : ∀ span, (render span).isEmpty = false) {n : Node κ}
    {output : Tree} (houtput : output.layout.renderOnce = none) :
    Led source render n output (withLeading source render n output) := by
  rw [withLeading]
  cases hpieces : leadingOf source n with
  | nil =>
    have hkeyed : output.keyed = (leadingOf source n).map (·.tree render) ++ output.keyed := by
      rw [hpieces]
      rfl
    exact ⟨houtput, hkeyed, id⟩
  | cons p ps =>
    show Led source render n output (.ofFragments
      ((p :: ps).map (fun p => (p.tree render).toFragment) ++ [output.toFragment]))
    rw [← hpieces]
    refine ⟨by rfl, ?_, ?_⟩
    -- The new tree drops empty fragments: no piece is one, and an empty output has no keys.
    · rw [Tree.keyed_of_none rfl]
      show keyedAll (nonempty _) ++ keyedAll [] = _
      rw [keyedAll_nonempty, keyedAll_append, keyedAll_map_tree, keyedAll, keyedAll, keyedAll,
        List.append_nil, List.append_nil, Tree.keyed]
      intro f hf he
      rcases List.mem_append.mp hf with hf | hf
      · obtain ⟨p, -, rfl⟩ := List.mem_map.mp hf
        rw [isEmpty_piece hrender p] at he
        cases he
      · rw [List.mem_singleton.mp hf] at he ⊢
        exact Fragment.keyed_of_isEmpty houtput he
    · intro he
      rw [Tree.isEmpty_ofFragments] at he
      exact he _ (List.mem_append_right _ List.mem_cons_self)

/-- Attaching leading trivia puts their pieces in front of the output, and nothing else. -/
theorem ensures_attach (hspec : ∀ c span t, spec c span t → t = render span) {n : Node κ}
    {output : Tree} {post : Tree → Prop} (h : post (withLeading source render n output)) :
    (attachLeadingTrivia source n output).Ensures merge spec c post := by
  rw [attachLeadingTrivia, Program.ensures_bind]
  apply ensures_leadingPieces hspec
  have hleading : piecesOf source false false (scan source n.fullStart none) = leadingOf source n :=
    rfl
  rw [withLeading] at h
  rw [hleading]
  generalize leadingOf source n = pieces at h ⊢
  cases pieces <;> exact h

/-- Attaching leading trivia puts their pieces in front of the output. -/
theorem ensures_attachLeadingTrivia (hspec : ∀ c span t, spec c span t → t = render span)
    (hrender : ∀ span, (render span).isEmpty = false) {n : Node κ} {output : Tree}
    (houtput : output.layout.renderOnce = none) {post : Tree → Prop}
    (h : ∀ t, Led source render n output t → post t) :
    (attachLeadingTrivia source n output).Ensures merge spec c post :=
  ensures_attach hspec (h _ (led_withLeading hrender houtput))

end

end Transcode.Engine
