import Transcode.Proofs.Embedding
import Transcode.Proofs.GapLines
import Transcode.Proofs.Halting
import Transcode.Proofs.Unhandled

namespace Transcode.Engine

open Output Trivia Text Script

/-!
# Line breaks after comments

Where the comments before a node come out as they stand in the source, each is followed by a line
break of its own or by a space, and one more break stands for the line breaks that come then.  What
this adds up to is told comment by comment (`render_attached`): a comment that ends its line is
followed by as many breaks as in the source, but at most two.

A block comment with blanks before its break does not count as one that ends its line.  It gets
the space, and the line break that follows is the only one: the blank lines after it are lost
(`blank_line_after_blank_lost`).
-/

/-! ### Comments and the line breaks after them -/

section

variable {source text : String} {stop : Nat} {c : Span} {k : Nat}

/-- Some comments, each with the number of line breaks between it and the next one, or between the
    last one and `stop`. -/
def withBreaks (source : String) (stop : Nat) : List Span → List (Span × Nat)
  | [] => []
  | c :: rest =>
    (c, countBreaks (slice source c.stop ((rest.head?.map Span.start).getD stop)))
      :: withBreaks source stop rest

/-- The comments before a node, and the line breaks after each. -/
def leadingComments {κ : Type} (source : String) (n : Node κ) : List (Span × Nat) :=
  withBreaks source n.start ((scan source n.fullStart none).filter Span.isComment)

/-- The comments as they stand in the source, each with what comes after it, and then a text. -/
def spaced (source : String) (after : Span → Nat → String) (items : List (Span × Nat))
    (text : String) : String :=
  items.foldr (fun (c, k) later => c.textIn source ++ after c k ++ later) text

/-- What ends a comment: its line break, or a space. -/
def tailOf (c : Span) : String :=
  if c.kind == .lineComment || c.endsLine then "\n" else " "

/-- What is written after a comment that has `k` line breaks after it: its own break and one for
    those that are left, or a space and one break for all of them. -/
def spacing (c : Span) (k : Nat) : String :=
  tailOf c ++ if 0 < k - (c.kind == .lineComment || c.endsLine).toNat then "\n" else ""

/-- As many line breaks as there are, but at most two, and a space where there are none. -/
def atMostTwo (k : Nat) : String :=
  if k = 0 then " " else breaks (min k 2)

/-- What a piece is written as. -/
def wordOf (source : String) : Piece → String
  | .comment c => c.textIn source ++ tailOf c
  | .blank _ => "\n"

/-- A comment that ends its line directly, or not at all, keeps its line breaks up to two. -/
theorem spacing_eq (h : (c.kind == .lineComment || c.endsLine) = decide (0 < k)) :
    spacing c k = atMostTwo k := by
  rw [spacing, tailOf, h, atMostTwo]
  match k with
  | 0 => rfl
  | 1 => rfl
  | k + 2 =>
    rw [show min (k + 2) 2 = 2 by omega]
    simp
    rfl

theorem spaced_congr {after after' : Span → Nat → String} {items : List (Span × Nat)}
    (h : ∀ item ∈ items, after item.1 item.2 = after' item.1 item.2) :
    spaced source after items text = spaced source after' items text := by
  induction items with
  | nil => rfl
  | cons item items ih =>
    obtain ⟨hitem, hitems⟩ := List.forall_mem_cons.mp h
    show _ ++ after item.1 item.2 ++ spaced source after items text = _
    rw [hitem, ih hitems]
    rfl

end

/-! ### Pieces and their texts -/

section

variable {source text : String} {pos stop : Nat} {spans later : List Span} {all : List UInt8}
  {owes : Bool}

theorem countBreaks_slice_self : countBreaks (slice source pos pos) = 0 := by
  rw [slice_self]
  rfl

/-- Text after a comment comes to one line break, if it has more than were owed. -/
theorem exists_piecesOf_plainText {start : Nat} (source : String) (spans : List Span) (owes : Bool)
    (hle : pos ≤ start) :
    ∃ owes', String.join ((piecesOf source true owes (plainText pos start ++ spans)).map
        (wordOf source))
      = (if 0 < countBreaks (slice source pos start) - owes.toNat then "\n" else "")
        ++ String.join ((piecesOf source true owes' spans).map (wordOf source)) := by
  rw [plainText]
  split
  · refine ⟨owes && countBreaks (slice source pos start) == 0, ?_⟩
    rw [List.singleton_append, piecesOf]
    simp only [if_true]
    show String.join (List.map _
      (if 0 < countBreaks (slice source pos start) - _ then _ else _)) = _
    split
    · rw [List.map_cons, String.join_cons]
      rfl
    · rw [String.empty_append]
      rfl
  · obtain rfl : pos = start := Nat.le_antisymm hle (Nat.le_of_not_lt ‹_›)
    exact ⟨owes, by simp [countBreaks_slice_self]⟩

theorem filter_plainText {start : Nat} :
    (plainText pos start ++ spans).filter Span.isComment = spans.filter Span.isComment := by
  rw [plainText]
  split <;> rfl

theorem withBreaks_cons {c : Span} (h : c.isComment = true) :
    withBreaks source stop ((c :: later).filter Span.isComment)
      = (c, countBreaks (slice source c.stop (firstStart stop later)))
        :: withBreaks source stop (later.filter Span.isComment) := by
  rw [List.filter_cons_of_pos h, withBreaks, List.head?_filter]
  rfl

/-- The line breaks after a comment that are left when its own is written. -/
theorem breaks_left {c : Span} (hall : all = (bytes source).take stop)
    (hreturn : carriageReturn ∉ all) (hlength : all.length = stop) (hholds : c.Holds all)
    (hcomment : c.isComment = true) (hlater : Phased all (c.next all) later)
    (hc : IsBoundary source c.stop) (hfirst : IsBoundary source (firstStart stop later)) :
    countBreaks (slice source c.stop (firstStart stop later))
        - (c.kind == .lineComment || c.endsLine).toNat
      = countBreaks (slice source (c.next all) (firstStart stop later))
        - (c.kind == .blockComment && c.endsLine).toNat := by
  obtain ⟨-, -, hle, hlast⟩ := hlater.exists_append
  rw [hlength] at hle hlast
  cases hkind : c.kind with
  | text => simp [Span.isComment, hkind] at hcomment
  | blockComment =>
    have hnext : c.next all = c.stop := by
      rw [Span.next, if_neg]
      rintro ⟨hline, -⟩
      cases hkind.symm.trans hline
    rw [hnext]
    rfl
  | lineComment =>
    cases hends : c.endsLine with
    | true =>
      -- The break that ends the line is the first one after the comment.
      obtain ⟨hfeed, hnext⟩ := hholds.next_eq hreturn hkind hends
      have hlt : c.stop < stop := hlength ▸ (List.getElem?_eq_some_iff.mp hfeed).1
      rw [hall, List.getElem?_take_of_lt hlt] at hfeed
      rw [hnext] at hle ⊢
      obtain ⟨-, m, -, -, -, -, hslice, hslice'⟩ := exists_of_feed hfeed hc hfirst hle
      rw [hslice, hslice', countBreaks, countBreaks, String.toList_ofList, String.toList_ofList,
        List.count_cons_self]
      rfl
    | false =>
      -- A line comment without a break goes on to the end.
      have hstop : c.stop = stop := by
        refine ((hholds.line hkind).2.2.resolve_left fun hbreak => ?_).trans hlength
        have htrue := hholds.endsLine.mpr ⟨hcomment, hbreak⟩
        rw [hends] at htrue
        cases htrue
      have hnext : c.next all = c.stop := by
        rw [Span.next, if_neg fun h => Bool.noConfusion (hends.symm.trans h.2)]
      have hfirst : firstStart stop later = c.stop := by omega
      rw [hnext, hfirst, countBreaks_slice_self]
      rfl

/-- Spans after a comment come to the comments among them with their spacing and then a text, after
    one line break if there are more than were owed. -/
def Spaces (source text : String) (stop pos : Nat) (spans : List Span) : Prop :=
  ∀ owes, String.join ((piecesOf source true owes spans).map (wordOf source)) ++ text
    = (if 0 < countBreaks (slice source pos (firstStart stop spans)) - owes.toNat then "\n" else "")
      ++ spaced source spacing (withBreaks source stop (spans.filter Span.isComment)) text

/-- A comment comes with its spacing, if what is after it does. -/
theorem Spaces.comment {c : Span} {seen : Bool} (h : Spaces source text stop (c.next all) later)
    (hall : all = (bytes source).take stop) (hreturn : carriageReturn ∉ all)
    (hlength : all.length = stop) (hholds : c.Holds all) (hcomment : c.isComment = true)
    (hlater : Phased all (c.next all) later) (hc : IsBoundary source c.stop)
    (hbounds : ∀ s ∈ later, IsBoundary source s.start ∧ IsBoundary source s.stop)
    (hstop : IsBoundary source stop) :
    String.join ((piecesOf source seen owes (c :: later)).map (wordOf source)) ++ text
      = spaced source spacing (withBreaks source stop ((c :: later).filter Span.isComment))
          text := by
  have hkind : c.kind ≠ .text := bne_iff_ne.mp hcomment
  have hboundary := isBoundary_firstStart (fun s hs => (hbounds s hs).1) hstop
  have hleft := breaks_left hall hreturn hlength hholds hcomment hlater hc hboundary
  rw [withBreaks_cons hcomment, piecesOf_of_comment hkind, List.map_cons, String.join_cons,
    String.append_assoc, h, ← hleft]
  simp only [spaced, List.foldr_cons, spacing, wordOf, String.append_assoc]

/-- After a comment, everything comes with its spacing. -/
theorem spaces_of_phased (hall : all = (bytes source).take stop) (hreturn : carriageReturn ∉ all)
    (hlength : all.length = stop) (h : Phased all pos spans)
    (hbounds : ∀ s ∈ spans, IsBoundary source s.start ∧ IsBoundary source s.stop)
    (hstop : IsBoundary source stop) : Spaces source text stop pos spans := by
  -- A break that is owed counts for the text up to the next comment, so what is owed is general.
  induction h with
  | @text pos hle hsame =>
    intro owes
    have hnone : firstStart stop [] = all.length := hlength.symm
    rw [← List.append_nil (plainText pos all.length)]
    obtain ⟨owes', hjoin⟩ := exists_piecesOf_plainText source [] owes hle
    rw [hjoin, filter_plainText, firstStart_plainText, hnone]
    simp [piecesOf, withBreaks, spaced, String.join]
  | @comment pos c later hle hlt hcomment hholds hsame hlater ih =>
    intro owes
    obtain ⟨-, hrest⟩ := List.forall_mem_append.mp hbounds
    obtain ⟨hc, hrest⟩ := List.forall_mem_cons.mp hrest
    obtain ⟨owes', hjoin⟩ := exists_piecesOf_plainText source (c :: later) owes hle
    rw [hjoin, filter_plainText, firstStart_plainText, firstStart_cons hcomment,
      String.append_assoc,
      (ih hrest).comment hall hreturn hlength hholds hcomment hlater hc.2 hrest hstop]

/-- The pieces before a node and a text come to the comments with their spacing. -/
theorem join_leadingOf {κ : Type} {n : Node κ} (text : String) (hreturn : '\r' ∉ source.toList)
    (hskip : skipTrivia source n.fullStart = n.start) (hle : n.fullStart ≤ n.start)
    (hfirst : IsBoundary source n.fullStart) (hstart : IsBoundary source n.start) :
    String.join ((leadingOf source n).map (wordOf source)) ++ text
      = spaced source spacing (leadingComments source n) text := by
  have hscan : scan source n.fullStart none = scan source n.fullStart (some n.start) := by
    rw [← scan_skipTrivia, hskip]
  have hlength := length_take_bytes hstart.le
  have hbounds := isBoundary_of_mem_scan hle hfirst hstart
  have hreturn' : carriageReturn ∉ (bytes source).take n.start :=
    fun hmem => return_notMem_bytes hreturn (List.mem_of_mem_take hmem)
  have hphased := phased_scan hle hstart.le
  rw [leadingOf, leadingComments, hscan]
  generalize scan source n.fullStart (some n.start) = spans at hbounds hphased
  cases hphased with
  | text hle hsame =>
    rw [← List.append_nil (plainText _ _), piecesOf_plainText, filter_plainText]
    exact String.empty_append
  | @comment _ c later hle hlt hcomment hholds hsame hlater =>
    obtain ⟨-, hrest⟩ := List.forall_mem_append.mp hbounds
    obtain ⟨hc, hrest⟩ := List.forall_mem_cons.mp hrest
    have hspaces : Spaces source text n.start _ later :=
      spaces_of_phased rfl hreturn' hlength hlater hrest hstart
    rw [piecesOf_plainText, filter_plainText]
    exact hspaces.comment rfl hreturn' hlength hholds hcomment hlater hc.2 hrest hstart

end

/-! ### Writing pieces -/

namespace Piece

/-- The offset in the key of a piece. -/
def start : Piece → Nat
  | comment span => span.start
  | blank start => start

theorem start_eq_of_key {p q : Piece} (h : p.key = q.key) : p.start = q.start := by
  cases p with
  | comment span =>
    cases q with
    | comment span' => exact commentKey_injective h
    | blank start =>
      have hcomment := isCommentKey_commentKey span.start
      rw [show commentKey span.start = key (blank start) from h, isCommentKey_key_blank] at hcomment
      cases hcomment
  | blank start =>
    cases q with
    | comment span =>
      have hcomment := isCommentKey_commentKey span.start
      rw [show commentKey span.start = key (blank start) from h.symm, isCommentKey_key_blank]
        at hcomment
      cases hcomment
    | blank start' => exact append_toString_injective "ws-" h

end Piece

section

variable {source : String} {all : List UInt8} {pos : Nat} {spans : List Span} {pieces : List Piece}
  {s : Sink}

/-- There is at most one piece for each span. -/
theorem map_start_sublist (source : String) (seen owes : Bool) (spans : List Span) :
    ((piecesOf source seen owes spans).map Piece.start).Sublist (spans.map Span.start) := by
  induction spans generalizing seen owes with
  | nil => exact List.Sublist.refl []
  | cons span rest ih =>
    rw [piecesOf, List.map_cons]
    split
    · split
      · simp only
        split
        · exact (ih _ _).cons_cons _
        · exact (ih _ _).cons _
      · exact (ih _ _).cons _
    · exact (ih _ _).cons_cons _

/-- The pieces before a node have different keys. -/
theorem nodup_keys {seen owes : Bool} (h : Phased all pos spans) :
    ((piecesOf source seen owes spans).map Piece.key).Nodup := by
  have hstarts := h.pairwise_start.sublist (map_start_sublist source seen owes spans)
  refine List.pairwise_map.mpr ((List.pairwise_map.mp hstarts).imp fun hlt hkey => ?_)
  exact Nat.ne_of_lt hlt (Piece.start_eq_of_key hkey)

/-- Nothing is indented, now or at the next line break. -/
structure AtMargin (s : Sink) : Prop where
  levels : s.levels = []
  pending : s.pending = 0

/-- At the margin a text is written as it is. -/
theorem AtMargin.write (h : AtMargin s) (text : String) :
    AtMargin (s.write text) ∧ (s.write text).buffer = s.buffer ++ text
      ∧ (s.write text).fired = s.fired := by
  have hpending : s.applyPending = s := by rw [Sink.applyPending, if_pos h.pending]
  have hindent : s.indentation = 0 := by rw [Sink.indentation, h.levels]; rfl
  have htext : String.ofList (Sink.indentBreaks 0 text.toList) = text := indented_zero text
  rw [Sink.write, hpending, ite_self]
  refine ⟨⟨h.levels, h.pending⟩, ?_, rfl⟩
  show s.buffer ++ String.ofList (Sink.indentBreaks s.indentation text.toList) = _
  rw [hindent, htext]

theorem AtMargin.writeLead (h : AtMargin s) (texts : List String) :
    AtMargin (s.writeLead (nonempty (texts.map .text)))
      ∧ (s.writeLead (nonempty (texts.map .text))).buffer = s.buffer ++ String.join texts
      ∧ (s.writeLead (nonempty (texts.map .text))).fired = s.fired := by
  induction texts generalizing s with
  | nil => exact ⟨h, String.append_empty.symm, rfl⟩
  | cons text texts ih =>
    rw [List.map_cons, String.join_cons]
    by_cases hempty : (Fragment.text text).isEmpty = true
    · obtain rfl : text = "" := String.isEmpty_iff.mp hempty
      rw [nonempty_cons_of_isEmpty hempty, String.empty_append]
      exact ih h
    · obtain ⟨hmargin, hbuffer, hfired⟩ := h.write text
      obtain ⟨hmargin', hbuffer', hfired'⟩ := ih hmargin
      rw [nonempty_cons (Bool.eq_false_iff.mpr hempty)]
      refine ⟨hmargin', ?_, hfired'.trans hfired⟩
      rw [← String.append_assoc, ← hbuffer]
      exact hbuffer'

/-- A piece that is new is written as its text. -/
theorem AtMargin.writePiece (h : AtMargin s) (source : String) {p : Piece}
    (hkey : p.key ∉ s.fired) :
    let s' := s.writeFragment (p.tree (verbatimComment source)).toFragment
    AtMargin s' ∧ s'.buffer = s.buffer ++ wordOf source p ∧ s'.fired = p.key :: s.fired := by
  obtain ⟨texts, htree, hword⟩ : ∃ texts : List String,
      p.tree (verbatimComment source) = (Tree.ofFragments (texts.map .text)).withKey p.key
        ∧ wordOf source p = String.join texts := by
    cases p with
    | comment c =>
      refine ⟨[c.textIn source, tailOf c], rfl, ?_⟩
      rw [String.join_cons, String.join_cons, String.join_nil, String.append_empty]
      rfl
    | blank start => exact ⟨["\n"], rfl, rfl⟩
  have hmargin : AtMargin { s with fired := p.key :: s.fired } := ⟨h.levels, h.pending⟩
  rw [htree, writeFragment_withKey hkey, hword]
  exact hmargin.writeLead texts

/-- Pieces that are new are written as their texts, one after the other. -/
theorem AtMargin.writePieces (h : AtMargin s) (source : String)
    (hnodup : (pieces.map Piece.key).Nodup) (hkeys : ∀ p ∈ pieces, p.key ∉ s.fired) :
    (s.writeLead (pieces.map fun p => (p.tree (verbatimComment source)).toFragment)).buffer
      = s.buffer ++ String.join (pieces.map (wordOf source)) := by
  induction pieces generalizing s with
  | nil => exact String.append_empty.symm
  | cons p pieces ih =>
    obtain ⟨hkey, hkeys⟩ := List.forall_mem_cons.mp hkeys
    obtain ⟨hnew, hnodup⟩ := List.nodup_cons.mp hnodup
    obtain ⟨hmargin, hbuffer, hfired⟩ := h.writePiece source hkey
    rw [List.map_cons, Sink.writeLead, ih hmargin hnodup, hbuffer, List.map_cons, String.join_cons,
      String.append_assoc]
    intro q hq
    rw [hfired, List.mem_cons, not_or]
    exact ⟨fun heq => hnew (heq ▸ List.mem_map_of_mem hq), hkeys q hq⟩

theorem isEmpty_verbatimComment (source : String) (span : Span) :
    (verbatimComment source span).isEmpty = false := by
  have htail : (!(Fragment.text (tailOf span)).isEmpty) = true := by
    rw [tailOf]
    split <;> rfl
  have hlead : (verbatimComment source span).lead ≠ [] :=
    List.ne_nil_of_mem (List.mem_filter.mpr
      ⟨List.mem_cons_of_mem (Fragment.text (span.textIn source)) List.mem_cons_self, htail⟩)
  rw [Tree.isEmpty, List.isEmpty_eq_false_iff.mpr hlead]
  rfl

end

/-! ### Outputs with their comments -/

section

variable {κ : Type} {source text : String} {n : Node κ} {output : Tree}

/-- What attaching the comments before its node makes of an output, if the comments come out as they
    do by default. -/
def attached (source : String) (n : Node κ) (output : Tree) : Tree :=
  ((attachLeadingTrivia source n output).run
    ((Backend.bare : Backend κ Unit).answerComment { source }) (Backend.bare : Backend κ Unit).merge
    { contexts := { root := () } }).1

theorem attached_eq (source : String) (n : Node κ) (output : Tree) :
    attached source n output = withLeading source (verbatimComment source) n output := by
  have hensures : (attachLeadingTrivia source n output).Ensures
      (Backend.bare : Backend κ Unit).merge
      (fun _ span t => t = verbatimComment source span) ()
      (· = withLeading source (verbatimComment source) n output) :=
    ensures_attach (fun _ _ _ h => h) rfl
  exact Program.run_of_ensures (Backend.bare.extends_answerComment { source })
    (fun _ _ _ => rfl) hensures (fun _ _ => trivial : State.Reports (fun _ => True) _)

variable (hreturn : '\r' ∉ source.toList) (hskip : skipTrivia source n.fullStart = n.start)
  (hle : n.fullStart ≤ n.start) (hfirst : IsBoundary source n.fullStart)
  (hstart : IsBoundary source n.start) (houtput : Shows output.toFragment text)

include hreturn hskip hle hfirst hstart houtput

/-- The comments before a node are written in order before its output.  Each comes as it stands in
    the source, and is followed by its own break or a space, and by one break more if line breaks
    are left then. -/
theorem render_attached :
    render (attached source n output)
      = stripped (spaced source spacing (leadingComments source n) text) := by
  have hnew : AtMargin {} := ⟨rfl, rfl⟩
  -- No piece is left out for its key.
  have hnodup : ((leadingOf source n).map Piece.key).Nodup := by
    rw [leadingOf, ← scan_skipTrivia, hskip]
    exact nodup_keys (phased_scan hle hstart.le)
  have hpieces := hnew.writePieces source hnodup fun p _ => List.not_mem_nil
  have hwhole := join_leadingOf text hreturn hskip hle hfirst hstart
  have hbuffer : (Sink.writeTree {} (withLeading source (verbatimComment source) n output)).buffer
      = spaced source spacing (leadingComments source n) text := by
    rw [← hwhole, withLeading]
    generalize leadingOf source n = pieces at hpieces
    have hkept : nonempty (pieces.map (fun p => (p.tree (verbatimComment source)).toFragment)
        ++ [output.toFragment])
        = pieces.map (fun p => (p.tree (verbatimComment source)).toFragment)
          ++ [output.toFragment] := by
      refine nonempty_eq_self (List.forall_mem_append.mpr ⟨?_, ?_⟩)
      · exact List.forall_mem_map.mpr fun p _ => isEmpty_piece (isEmpty_verbatimComment source) p
      · exact List.forall_mem_singleton.mpr houtput.isEmpty
    cases pieces with
    | nil => exact houtput.buffer {}
    | cons p pieces =>
      show (Sink.writeTree {} (.ofFragments ((p :: pieces).map
        (fun p => (p.tree (verbatimComment source)).toFragment) ++ [output.toFragment]))).buffer = _
      rw [Tree.ofFragments, hkept]
      refine (congrArg Sink.buffer (writeLead_append _ _ _)).trans ?_
      refine (houtput.buffer _).trans ?_
      rw [hpieces]
      exact congrArg (· ++ text) String.empty_append
  rw [attached_eq, render, Sink.finish, hbuffer]
  rfl

/-- Where the line break after a comment comes directly, if there is one, the line breaks of the
    source are kept up to two. -/
theorem render_attached_of_direct
    (hdirect : ∀ item ∈ leadingComments source n,
      (item.1.kind == .lineComment || item.1.endsLine) = decide (0 < item.2)) :
    render (attached source n output)
      = stripped (spaced source (fun _ => atMostTwo) (leadingComments source n) text) := by
  rw [render_attached hreturn hskip hle hfirst hstart houtput]
  exact congrArg stripped (spaced_congr fun item hitem => spacing_eq (hdirect item hitem))

end

/-- The blank line after a comment is lost if a blank comes before the line break. -/
theorem blank_line_after_blank_lost :
    ¬ ∀ (source : String) (n : Node String) (output : Tree) (text : String),
      '\r' ∉ source.toList → skipTrivia source n.fullStart = n.start → n.fullStart ≤ n.start →
      IsBoundary source n.fullStart → IsBoundary source n.start → n.start < source.utf8ByteSize →
      Shows output.toFragment text → '\n' ∉ text.toList → BeginsWithInk text →
      render (attached source n output)
        = stripped (spaced source (fun _ => atMostTwo) (leadingComments source n) text) := by
  intro hclaim
  have hrun := hclaim "/* c */ \n\nword" ⟨"Word", 0, 10, 14, []⟩ (.ofText "word") "word"
    (by decide +kernel) (by decide +kernel) (by decide +kernel) (isBoundary_zero _)
    ⟨"/* c */ \n\n".toList, "word".toList, by decide +kernel, by decide +kernel⟩
    (by decide +kernel) (shows_ofFragment (shows_text (by decide) (by decide)))
    (by decide) ⟨'w', "ord".toList, by decide, by decide⟩
  have hcode : render (attached "/* c */ \n\nword" (⟨"Word", 0, 10, 14, []⟩ : Node String)
      (.ofText "word")) = "/* c */\nword" := by decide +kernel
  rw [hcode] at hrun
  exact absurd hrun (by decide +kernel)

end Transcode.Engine
