import Transcode.Proofs.GapLines
import Transcode.Proofs.Halting
import Transcode.Proofs.Objects

namespace Transcode.Trivia

open Text Script

/-!
# Line breaks between elements

The elements of a list come each after as many line breaks as lie between it and the element before
it.  The comments of an element bring their own, so that only those count that come before its first
comment.

But the first comment is looked for from the element before, and a comment between that one and the
comma is no comment of the next element: it does not come out with it, and yet it ends the count.
What comes after it is lost (`line_break_after_comment_lost`).  Where every comment is after the
comma, each element comes after the line breaks that lie between it and the one before
(`breaksBefore_of_parse`), and so for the whole list (`entryFragments_of_parse`).
-/

/-! ### Line feeds outside of comments -/

/-- A comment covers the offsets in it. -/
def Span.covers (s : Span) (i : Nat) : Bool :=
  s.isComment && decide (s.start ≤ i) && decide (i < s.stop)

/-- How many line feeds lie between two offsets that no comment among some spans covers. -/
def feedsOutside (text : String) (spans : List Span) (start stop : Nat) : Nat :=
  (List.range' start (stop - start)).countP fun i =>
    (bytes text)[i]? == some lineFeed && spans.all (!·.covers i)

section

variable {text : String} {all : List UInt8} {spans : List Span} {pos start stop m : Nat}

/-- The occurrences in a part of a list are at some of its indices. -/
theorem count_take_drop {α : Type} [BEq α] (l : List α) (a : α) (start k : Nat) :
    ((l.drop start).take k).count a = (List.range' start k).countP fun i => l[i]? == some a := by
  induction k generalizing start with
  | zero => rw [List.take_zero, List.count_nil, List.range'_zero, List.countP_nil]
  | succ k ih =>
    rw [List.range'_succ, List.countP_cons, ← ih]
    rcases Nat.lt_or_ge start l.length with hlt | hle
    · rw [List.drop_eq_getElem_cons hlt, List.take_succ_cons, List.count_cons,
        List.getElem?_eq_getElem hlt]
      rfl
    · rw [List.drop_of_length_le hle, List.drop_of_length_le (Nat.le_succ_of_le hle),
        List.getElem?_eq_none hle, List.take_nil, List.take_nil]
      rfl

/-- Line feeds are single bytes, and no parts of other characters. -/
theorem count_bytes (text : String) : (bytes text).count lineFeed = countBreaks text := by
  show (encode text.toList).count lineFeed = text.toList.count '\n'
  induction text.toList with
  | nil => rfl
  | cons c cs ih =>
    rw [encode_cons, List.count_append, ih]
    by_cases hc : c = '\n'
    · subst hc
      rw [List.count_cons_self, Nat.add_comm]
      rfl
    · rw [List.count_eq_zero_of_not_mem (lineFeed_notMem hc), Nat.zero_add,
        List.count_cons_of_ne hc]

/-- The line breaks of a slice. -/
theorem countBreaks_slice (h : IsBoundary text start) (h' : IsBoundary text stop)
    (hle : start ≤ stop) :
    countBreaks (slice text start stop)
      = (List.range' start (stop - start)).countP fun i => (bytes text)[i]? == some lineFeed := by
  rcases Nat.eq_or_lt_of_le hle with rfl | hlt
  · rw [slice_self, Nat.sub_self]
    rfl
  · rw [← count_bytes, bytes_slice_of_isBoundary h h' hlt]
    exact count_take_drop _ _ _ _

/-- More of a text has no fewer line feeds. -/
theorem feedsOutside_le (text : String) (spans : List Span) (start : Nat) {stop stop' : Nat}
    (hle : stop ≤ stop') :
    feedsOutside text spans start stop ≤ feedsOutside text spans start stop' :=
  (List.range'_sublist_right.mpr (Nat.sub_le_sub_right hle start)).countP_le

/-- Comments do not begin before the first one. -/
theorem Phased.firstStart_le (h : Phased all pos spans) (stop : Nat) :
    ∀ s ∈ spans, s.isComment = true → firstStart stop spans ≤ s.start := by
  have hplain : ∀ {start stop : Nat}, ∀ s ∈ plainText start stop, s.isComment = false :=
    fun s hs => by rw [eq_of_mem_plainText hs]; rfl
  intro s hs hcomment
  cases h with
  | text => exact absurd (hplain s hs) (ne_false_of_eq_true hcomment)
  | @comment pos c later _ hlt hc _ _ hlater =>
    have hnext := c.stop_le_next all
    rw [firstStart_plainText, firstStart_cons hc]
    rcases List.mem_append.mp hs with hs | hs
    · exact absurd (hplain s hs) (ne_false_of_eq_true hcomment)
    rcases List.mem_cons.mp hs with rfl | hs
    · exact Nat.le_refl _
    · have hstart := hlater.le_start s hs
      omega

/-- A scan that begins before the first comment finds the same one. -/
theorem Phased.firstStart_rescan (h : Phased all pos spans) (hpos : pos ≤ m)
    (hm : m ≤ firstStart all.length spans) :
    firstStart all.length (rescan all m) = firstStart all.length spans := by
  cases h with
  | text hle hsame =>
    have hnone : ∀ m, firstStart all.length (plainText m all.length) = all.length := fun m =>
      (congrArg _ (List.append_nil _).symm).trans firstStart_plainText
    rw [hnone] at hm ⊢
    rw [hsame m hpos hm, hnone]
  | @comment pos c later hle hlt hc hholds hsame hlater =>
    rw [firstStart_plainText, firstStart_cons hc] at hm ⊢
    rw [hsame m hpos hm, firstStart_plainText, firstStart_cons hc]

/-- Where all comments begin later, so does the first one. -/
theorem le_firstStart (hstop : m ≤ stop) (h : ∀ s ∈ spans, s.isComment = true → m ≤ s.start) :
    m ≤ firstStart stop spans := by
  rw [firstStart]
  cases hfirst : firstComment? spans with
  | none => exact hstop
  | some c => exact h c (List.mem_of_find?_eq_some hfirst) (List.find?_some hfirst)

/-- A scan that begins later does not find an earlier comment first, and finds the same one if no
    comment begins before it. -/
theorem firstStart_scan (hpos : pos ≤ m) (hm : m ≤ stop) (hstop : stop ≤ text.utf8ByteSize) :
    firstStart stop (scan text pos (some stop)) ≤ firstStart stop (scan text m (some stop))
      ∧ ((∀ s ∈ scan text pos (some stop), s.isComment = true → m ≤ s.start) →
        firstStart stop (scan text pos (some stop))
          = firstStart stop (scan text m (some stop))) := by
  obtain ⟨-, -, hle, -⟩ := (phased_scan hm hstop).exists_append
  have hsame := (phased_scan (hpos.trans hm) hstop).firstStart_rescan hpos
  rw [length_take_bytes hstop] at hle hsame
  rw [← scan_eq_rescan hm hstop] at hsame
  refine ⟨?_, fun hcomments => (hsame (le_firstStart hm hcomments)).symm⟩
  -- Where the first comment is before `m`, the later scan does not see it.
  by_cases hbefore : m ≤ firstStart stop (scan text pos (some stop))
  · exact Nat.le_of_eq (hsame hbefore).symm
  · exact (Nat.le_of_not_le hbefore).trans hle

/-- Before the first comment of a scan, all line breaks are outside of comments. -/
theorem countBreaks_firstStart (hle : pos ≤ stop) (hpos : IsBoundary text pos)
    (hstop : IsBoundary text stop) :
    countBreaks (slice text pos (firstStart stop (scan text pos (some stop))))
      = feedsOutside text (scan text pos (some stop)) pos
        (firstStart stop (scan text pos (some stop))) := by
  have hlength := length_take_bytes hstop.le
  have hphased := phased_scan hle hstop.le
  obtain ⟨-, -, hfirst, -⟩ := hphased.exists_append
  rw [hlength] at hfirst
  have hbound := isBoundary_firstStart
    (fun s hs => (isBoundary_of_mem_scan hle hpos hstop s hs).1) hstop
  rw [countBreaks_slice hpos hbound hfirst]
  refine List.countP_congr fun i hi => ?_
  have hlt : i < firstStart stop (scan text pos (some stop)) := by
    have hi := (List.mem_range'_1.mp hi).2
    omega
  have houtside : (scan text pos (some stop)).all (!·.covers i) = true := by
    refine List.all_eq_true.mpr fun s hs => ?_
    rw [Bool.not_eq_true', Span.covers]
    cases hcomment : s.isComment with
    | false => rfl
    | true =>
      have hstart := hphased.firstStart_le stop s hs hcomment
      rw [decide_eq_false (by omega), Bool.and_false, Bool.false_and]
  rw [houtside, Bool.and_true]

end

end Transcode.Trivia

namespace Transcode.Target

open Output Engine Script Trivia Text

/-! ### Two elements -/

/-- Where the first comment of the leading trivia of a node begins, or else its first token. -/
def leadStart (source : String) (n : Ast) : Nat :=
  firstStart n.start (scan source n.fullStart none)

/-- The line feeds outside of comments between two elements, up to the first comment of the second
    one's own leading trivia or to its first token. -/
def gapFeeds (source : String) (p q : Ast) : Nat :=
  feedsOutside source (scan source p.stop (some q.start)) p.stop (leadStart source q)

/-- All comments between two elements are in the leading trivia of the second one. -/
def OwnsGap (source : String) (p q : Ast) : Prop :=
  ∀ s ∈ scan source p.stop (some q.start), s.isComment = true → q.fullStart ≤ s.start

section

variable {source : String} {root n p q : Ast} {i : Nat}

/-- **Line breaks between elements.**  In a source that parses, an element comes after the line
    breaks of the gap before its first comment.  These are no more than there are before the first
    comment of its own or its first token, and as many if all comments of the gap are its own. -/
theorem breaksBefore_of_parse (h : parse source = .ok root) (hn : n ∈ root.preorder)
    (hpn : n.children[i]? = some p) (hqn : n.children[i + 1]? = some q) :
    ∃ k, breaksBefore source p.stop q = breaks k ∧ k ≤ gapFeeds source p q
      ∧ (OwnsGap source p q → k = gapFeeds source p q) := by
  have hp : p ∈ root.preorder :=
    Node.mem_preorder_child hn (List.mem_of_getElem? hpn)
  have hq : q ∈ root.preorder :=
    Node.mem_preorder_child hn (List.mem_of_getElem? hqn)
  obtain ⟨-, -, -, -, -, hstop⟩ := ordered_of_parse h p hp
  obtain ⟨hle, -, -, -, hstart, -⟩ := ordered_of_parse h q hq
  have hapart : p.stop ≤ q.fullStart := by
    obtain ⟨hi, rfl⟩ := List.getElem?_eq_some_iff.mp hpn
    obtain ⟨hi', rfl⟩ := List.getElem?_eq_some_iff.mp hqn
    exact List.pairwise_iff_getElem.mp (nests_of_parse h n hn).apart i (i + 1) hi hi'
      (Nat.lt_succ_self i)
  have hlead : leadStart source q = firstStart q.start (scan source q.fullStart (some q.start)) :=
    congrArg _ (abuts_of_parse h q hq).symm
  obtain ⟨hfirst, hsame⟩ := firstStart_scan hapart hle hstart.le
  refine ⟨_, rfl, ?_⟩
  rw [show gapEnd source p.stop q.start = firstStart q.start (scan source p.stop (some q.start))
    from rfl, countBreaks_firstStart (hapart.trans hle) hstop hstart, gapFeeds, hlead]
  exact ⟨feedsOutside_le source _ _ hfirst, fun howns => by rw [hsame howns]⟩

end

/-- The line break after a comment that is before the comma is lost. -/
theorem line_break_after_comment_lost :
    ¬ ∀ (source : String) (root : Ast), parse source = .ok root → ∀ n ∈ root.preorder,
      (n.kind = .arrayLiteral ∨ n.kind = .objectLiteral ∧ ¬ LastArgument root n) →
      ∀ i p q, n.children[i]? = some p → n.children[i + 1]? = some q →
        breaksBefore source p.stop q = breaks (gapFeeds source p q) := by
  have hrun : ((parse "x = [a /* c */,\n b];").toOption.bind fun root =>
      (root.preorder.find? (·.kind = .arrayLiteral)).bind fun n =>
      n.children[0]?.bind fun p => n.children[1]?.map fun q =>
        (breaksBefore "x = [a /* c */,\n b];" p.stop q, gapFeeds "x = [a /* c */,\n b];" p q))
      = some ("", 1) := by
    decide +kernel
  obtain ⟨root, hroot, hrun⟩ := Option.bind_eq_some_iff.mp hrun
  obtain ⟨n, hn, hrun⟩ := Option.bind_eq_some_iff.mp hrun
  obtain ⟨p, hp, hrun⟩ := Option.bind_eq_some_iff.mp hrun
  obtain ⟨q, hq, hrun⟩ := Option.map_eq_some_iff.mp hrun
  obtain ⟨hbreaks, hfeeds⟩ := Prod.mk.inj hrun
  have hkind := List.find?_some hn
  intro hclaim
  have hlead := hclaim _ root (eq_ok_of_toOption hroot) n (List.mem_of_find?_eq_some hn)
    (.inl (of_decide_eq_true hkind)) 0 p q hp hq
  rw [hbreaks, hfeeds] at hlead
  exact absurd hlead (by decide)

/-! ### Lists of elements -/

/-- An output after some line breaks. -/
def afterBreaks (k : Nat) (t : Tree) : Fragment :=
  (if (breaks k).isEmpty then t else .ofFragments [.text (breaks k), t.toFragment]).toFragment

/-- The line feeds before each of some elements, the first of which comes after `p`. -/
def gapFeedsFrom (source : String) (p : Ast) : List Ast → List Nat
  | [] => []
  | q :: rest => gapFeeds source p q :: gapFeedsFrom source q rest

/-- An array as a list. -/
def bracketed (source : String) (n : Ast) (outputs : List Tree) : Tree :=
  let lead := (n.children.head?.map (breaksBefore source n.start)).getD ""
  Tree.ofText "["
    |>.withBody (entryFragments source n.start n.children outputs)
    |>.withIndent indentWidth
    |>.withSeparator ", "
    |>.withSuffix (if lead.isEmpty then "]" else "\n]")
    |>.withComments

section

variable {source : String} {root n p : Ast} {rest : List Ast} {i : Nat}

/-- An array is made of what its elements become as values. -/
theorem ensures_array_eq {job : Job} {R : Context → Ast → Tree → Prop} {c : Context} :
    (array job n).Ensures backend.merge (backend.Answers job R) c fun o =>
      ∃ outputs, List.Forall₂ (R (c.merge .value)) n.children outputs
        ∧ o = some (bracketed job.source n outputs) := by
  rw [array, Program.ensures_bind, convertDelimited, Program.ensures_bind]
  exact ensures_entries fun ts hts => ⟨ts, hts, rfl⟩

/-- **Line breaks in lists.**  Where every comment between two elements is in the leading trivia of
    the second one, the elements after the first one come each after the line breaks of the source
    that separate it from the one before. -/
theorem entryFragments_of_parse (h : parse source = .ok root) (hn : n ∈ root.preorder)
    (hchildren : n.children.drop i = p :: rest) (howns : (p :: rest).IsChain (OwnsGap source))
    (outputs : List Tree) :
    entryFragments source p.stop rest outputs
      = List.zipWith afterBreaks (gapFeedsFrom source p rest) outputs := by
  induction rest generalizing i p outputs with
  | nil => rfl
  | cons q rest ih =>
    cases outputs with
    | nil => rfl
    | cons t outputs =>
      obtain ⟨hown, howns⟩ := List.isChain_cons_cons.mp howns
      have hp := getElem?_of_drop hchildren
      have hchildren := drop_of_drop hchildren
      obtain ⟨k, hbreaks, -, hk⟩ := breaksBefore_of_parse h hn hp (getElem?_of_drop hchildren)
      have hlater := ih hchildren howns outputs
      rw [entryFragments, gapFeedsFrom, List.zipWith_cons_cons, hlater, hbreaks, hk hown]
      rfl

end

end Transcode.Target
