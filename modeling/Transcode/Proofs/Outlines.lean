import Transcode.Engine.Outline
import Transcode.Proofs.Embedding
import Transcode.Proofs.Heights
import Transcode.Proofs.TrailingBlanks
import Transcode.Proofs.Unhandled

/-!
# Outlines

The outline of a syntax tree without comments needs no backend, no run and no sink: it can be
written down by recursion over the tree (`printed`).  A leaf is in parentheses with its text, whose
later lines hang at the margin of the leaf, and an inner node has each of its children on a line of
its own, further to the right.  Read from the first line to the last, that is the listing of the
nodes in pre-order, with as many parentheses after each as end there (`listed`).

The backend that outlines trees comes to the same text, up to the blanks at the ends of lines
(`outline_prints`).  Without comments, what a conversion makes of a node is all that its handler
makes of it, and that prints as the node should wherever the margin is where its depth puts it
(`Prints`).  For a leaf that is how the sink indents the breaks of a text.  For an inner node the
line break before the first child applies the indentation, and those before the others are
separators: they are written because every node shows something.
-/

/-! ### The outline, written down -/

namespace Transcode.Engine

open Text Output Trivia

section

variable {κ : Type} [Named κ] {n : Node κ} {source : String} {depth : Nat}

/-- A text with so many spaces after each of its line breaks. -/
def hanging (k : Nat) (text : String) : String :=
  String.ofList (('\n' :: List.replicate k ' ').intercalate (pieces text.toList))

/-- A line for a node of some depth is begun. -/
def outlineLine (depth : Nat) : String :=
  "\n" ++ spaces (2 * depth)

/-- What a node of some depth begins with: its kind, and its text if it is a leaf. -/
def outlineHead (source : String) (depth : Nat) (n : Node κ) : String :=
  "(" ++ n.kindName
    ++ if n.children.isEmpty then " " ++ hanging (2 * depth) (n.textIn source) else ""

mutual

/-- The outline of a node of some depth. -/
def printed (source : String) (depth : Nat) : Node κ → String
  | ⟨kind, fullStart, start, stop, children⟩ =>
    outlineHead source depth ⟨kind, fullStart, start, stop, children⟩
      ++ printedAll source (depth + 1) children ++ ")"

/-- The outlines of some nodes of one depth, each on a line of its own. -/
def printedAll (source : String) (depth : Nat) : List (Node κ) → String
  | [] => ""
  | n :: rest => outlineLine depth ++ printed source depth n ++ printedAll source depth rest

end

/-- The depth of the next node of a listing, and none at its end. -/
def nextDepth : List (Nat × Node κ) → Nat
  | [] => 0
  | p :: _ => p.1

/-- So many nodes end. -/
def outlineEnds (k : Nat) : String :=
  String.ofList (List.replicate k ')')

/-- The nodes of a listing, each on a line of its own and with the ends of those nodes that the next
    one is not inside of. -/
def listed (source : String) : List (Nat × Node κ) → String
  | [] => ""
  | p :: rest =>
    outlineLine p.1 ++ outlineHead source p.1 p.2 ++ outlineEnds (p.1 + 1 - nextDepth rest)
      ++ listed source rest

theorem printed_eq (source : String) (depth : Nat) (n : Node κ) :
    printed source depth n
      = outlineHead source depth n ++ printedAll source (depth + 1) n.children ++ ")" := by
  cases n
  rw [printed]

theorem outlineEnds_succ (k : Nat) : outlineEnds (k + 1) = ")" ++ outlineEnds k := by
  rw [outlineEnds, List.replicate_succ, String.ofList_cons]
  rfl

omit [Named κ] in
theorem nextDepth_preorderFrom (depth : Nat) (n : Node κ) (rest : List (Nat × Node κ)) :
    nextDepth (n.preorderFrom depth ++ rest) = depth := by
  rw [Node.preorderFrom_eq]
  rfl

/-- The outline is the listing of the nodes in pre-order. -/
theorem listed_preorderFrom {rest : List (Nat × Node κ)} (h : nextDepth rest ≤ depth) :
    listed source (n.preorderFrom depth ++ rest)
      = outlineLine depth ++ printed source depth n ++ outlineEnds (depth - nextDepth rest)
        ++ listed source rest := by
  induction n using Node.induction generalizing depth rest with
  | h n ih =>
    -- Children end before what comes after them, and the last one takes the end of its parent.
    have hchildren : ∀ children : List (Node κ), (∀ child ∈ children, child ∈ n.children) →
        outlineEnds (depth + 1 - nextDepth (children.flatMap (·.preorderFrom (depth + 1)) ++ rest))
            ++ listed source (children.flatMap (·.preorderFrom (depth + 1)) ++ rest)
          = printedAll source (depth + 1) children ++ outlineEnds (depth + 1 - nextDepth rest)
            ++ listed source rest := by
      intro children hmem
      induction children with
      | nil => simp [printedAll]
      | cons child children ihAll =>
        obtain ⟨hchild, hchildren⟩ := List.forall_mem_cons.mp hmem
        have hlater := ihAll hchildren
        have hnext : nextDepth (children.flatMap (·.preorderFrom (depth + 1)) ++ rest)
            ≤ depth + 1 := by
          cases children with
          | nil => exact Nat.le_succ_of_le h
          | cons next children =>
            rw [List.flatMap_cons, List.append_assoc, nextDepth_preorderFrom]
        generalize hlist : children.flatMap (·.preorderFrom (depth + 1)) ++ rest = later
          at hlater hnext
        rw [List.flatMap_cons, List.append_assoc, hlist, nextDepth_preorderFrom,
          ih child hchild hnext, printedAll]
        simp only [String.append_assoc, hlater]
        simp [outlineEnds]
    rw [Node.preorderFrom_eq, List.cons_append, listed, printed_eq]
    have hends : depth + 1 - nextDepth rest = depth - nextDepth rest + 1 := by omega
    have hall := hchildren n.children fun child => id
    rw [hends, outlineEnds_succ] at hall
    simp only [String.append_assoc] at hall ⊢
    rw [hall]

/-- The outline of a whole tree is the listing of all its nodes. -/
theorem listed_preorder (source : String) (root : Node κ) :
    listed source (root.preorderFrom 0) = "\n" ++ printed source 0 root := by
  have hlisted : listed source (root.preorderFrom 0 ++ []) = _ :=
    listed_preorderFrom (Nat.le_refl (nextDepth []))
  rw [List.append_nil] at hlisted
  rw [hlisted]
  simp [outlineLine, outlineEnds, spaces, listed]

end

end Transcode.Engine

/-! ### Writing it -/

namespace Transcode.Output

open Text Engine

section

variable {s : Sink} {layout : Layout} {levels : List Nat} {fs : List Fragment} {f : Fragment}
  {text head suffix : String} {m : Mark}

/-- The later lines of a text hang where the sink indents them. -/
theorem hanging_eq_indented (k : Nat) (text : String) : hanging k text = indented k text := by
  rw [hanging, indented]
  congr 1
  induction text.toList with
  | nil => rfl
  | cons c cs ih =>
    obtain ⟨first, later, hsplit⟩ := List.exists_cons_of_ne_nil (List.splitOn_ne_nil '\n' cs)
    rw [pieces, hsplit] at ih
    have hcons : Sink.indentBreaks k (c :: cs)
        = (if c = '\n' then '\n' :: List.replicate k ' ' else [c]) ++ Sink.indentBreaks k cs :=
      List.flatMap_cons
    rw [hcons, ← ih, pieces, List.splitOn_cons_eq_if_modifyHead, hsplit]
    by_cases hc : c = '\n'
    · simp [hc, List.intercalate_cons_cons]
    · cases later <;> simp [hc, List.intercalate_cons_cons]

/-- Written to a settled sink without keys, a fragment comes to its text, and whether anything shows
    since then is whether something in that text does. -/
theorem Sink.Settled.writeFragment (hs : s.Settled levels) (hfired : s.fired = [])
    (hkey : f.keyed = []) :
    (s.writeFragment f).Settled levels ∧ (s.writeFragment f).fired = []
      ∧ (s.writeFragment f).buffer = s.buffer ++ textAt levels [f]
      ∧ (s.writeFragment f).wroteSince s.mark = hasInk (textAt levels [f]) := by
  have hkeys : keyedAll [f] = [] := by rw [keyedAll, hkey, keyedAll, List.nil_append]
  have hbuffer : (s.writeFragment f).buffer = s.buffer ++ textAt levels [f] :=
    hs.buffer_eq hfired [f]
  refine ⟨hs.writeLead [f], (fired_writeLead_of_nil hkeys s).trans hfired, hbuffer, ?_⟩
  obtain ⟨text, hadds⟩ := respects_shows.writeFragment s f
  have htext : text = textAt levels [f] :=
    (String.append_right_inj s.buffer).mp (hadds.buffer.symm.trans hbuffer)
  rw [← htext]
  exact hadds.wroteSince_mark hs.ink_le

/-- The fragments of a body that all show something, after one that does: each comes after a line
    break. -/
theorem writeBody_lines (hseparator : layout.separator = some "\n") (hkeys : keyedAll fs = [])
    (hink : ∀ f ∈ fs, hasInk (textAt levels [f]) = true) (hs : s.Settled levels)
    (hfired : s.fired = []) (hwrote : s.wroteSince m = true) :
    (s.writeBody layout m fs).buffer = s.buffer
      ++ String.join (fs.map fun f => "\n" ++ spaces (levels.headD 0) ++ textAt levels [f]) := by
  induction fs generalizing s m with
  | nil => simp [Sink.writeBody]
  | cons f fs ih =>
    obtain ⟨hf, hfs⟩ := List.forall_mem_cons.mp hink
    obtain ⟨hkey, hkeys⟩ := List.append_eq_nil_iff.mp hkeys
    have hseparated : s.writeSeparator layout m = s.writeFragment (.text "\n") := by
      rw [Sink.writeSeparator, hseparator, hwrote]
      rfl
    have hbreak : textAt levels [.text "\n"] = "\n" ++ spaces (levels.headD 0) := by
      simpa using @textAt_break levels "" List.not_mem_nil
    obtain ⟨hbegun, hnone, hbuffer, -⟩ := hs.writeFragment hfired (f := .text "\n") rfl
    rw [Sink.writeBody, hseparated]
    generalize s.writeFragment (.text "\n") = begun at hbegun hnone hbuffer
    obtain ⟨hwritten, hnone, hbuffer', hsince⟩ := hbegun.writeFragment hnone hkey
    show ((begun.writeFragment f).writeBody layout begun.mark fs).buffer = _
    rw [ih hkeys hfs hwritten hnone (hsince.trans hf), hbuffer', hbuffer, hbreak]
    simp only [List.map_cons, String.join_cons, String.append_assoc]

/-- A suffix on one line is added at the end. -/
theorem buffer_closeBody (hsuffix : layout.suffix = some suffix) (hplain : '\n' ∉ suffix.toList)
    (s : Sink) (r : Restore) : (s.closeBody layout r).buffer = s.buffer ++ suffix := by
  rw [Sink.closeBody, Sink.writeSuffix, hsuffix]
  obtain ⟨k, hk⟩ := exists_buffer_write (s.restore r) suffix
  rw [hk, Sink.indentBreaks_eq_self hplain, String.ofList_toList, buffer_restore]

/-- A head, and under it fragments that all show something, on lines of their own which are indented
    further. -/
theorem textAt_lines {level : Nat} (hkey : layout.renderOnce = none)
    (hnewline : layout.newline = true) (hseparator : layout.separator = some "\n")
    (hsuffix : layout.suffix = some suffix) (hindent : layout.indent ≠ 0)
    (hlevel : ((levels.headD 0 : Nat) + layout.indent).toNat = level)
    (hhead : '\n' ∉ head.toList) (hplain : '\n' ∉ suffix.toList) (hkeys : keyedAll fs = [])
    (hne : fs ≠ []) (hink : ∀ f ∈ fs, hasInk (textAt (level :: levels) [f]) = true) :
    textAt levels [.node [.text head] fs layout] = head
      ++ String.join (fs.map fun f => "\n" ++ spaces level ++ textAt (level :: levels) [f])
      ++ suffix := by
  obtain ⟨hbegun, hnone, htext, -⟩ :=
    (settled_new levels).writeFragment (f := .text head) rfl rfl
  have hopened := hbegun.openBody hnewline hindent
  rw [textAt, Sink.writeLead, Sink.writeFragment, hkey]
  simp only [Sink.recordKey, Sink.writeLead, buffer_closeBody hsuffix hplain]
  rw [hlevel, htext, hnone, textAt_text hhead] at hopened
  generalize (Sink.openBody (Sink.writeFragment { levels } (.text head)) layout).1 = opened
    at hopened
  obtain ⟨hsettled, hbuffer, hnone⟩ := hopened
  obtain ⟨f, fs, rfl⟩ := List.exists_cons_of_ne_nil hne
  obtain ⟨hf, hfs⟩ := List.forall_mem_cons.mp hink
  obtain ⟨hkeyf, hkeys⟩ := List.append_eq_nil_iff.mp hkeys
  -- Nothing was written since the mark, so that no separator comes before the first fragment.
  have hseparated : opened.writeSeparator layout opened.mark = opened := by
    have hsince : opened.wroteSince opened.mark = false :=
      decide_eq_false (Nat.not_lt.mpr hsettled.ink_le)
    rw [Sink.writeSeparator, hseparator, hsince]
    rfl
  obtain ⟨hwritten, hnone, hbuffer', hsince⟩ := hsettled.writeFragment hnone hkeyf
  rw [Sink.writeBody, hseparated]
  show ((opened.writeFragment f).writeBody layout opened.mark fs).buffer ++ suffix = _
  rw [writeBody_lines hseparator hkeys hfs hwritten hnone (hsince.trans hf), hbuffer', hbuffer]
  simp only [List.map_cons, String.join_cons, String.append_assoc, List.headD_cons,
    String.empty_append]

/-- A text on any number of lines, and a suffix. -/
theorem textAt_closed (hkey : layout.renderOnce = none) (hnewline : layout.newline = false)
    (hindent : layout.indent = 0) (hsuffix : layout.suffix = some suffix)
    (hplain : '\n' ∉ suffix.toList) :
    textAt levels [.node [.text text] [] layout] = indented (levels.headD 0) text ++ suffix := by
  have hopen : ∀ s : Sink, (s.openBody layout).1 = s := by
    intro s
    rw [Sink.openBody, hnewline, hindent]
    rfl
  rw [textAt, Sink.writeLead, Sink.writeFragment, hkey]
  simp only [Sink.recordKey, Sink.writeLead, Sink.writeBody, buffer_closeBody hsuffix hplain, hopen]
  exact congrArg (· ++ suffix) (textAt_write levels text)

end

end Transcode.Output

/-! ### Nodes that print as they should -/

namespace Transcode.Engine

open Text Output Trivia

section

variable {κ : Type} [Named κ] {n : Node κ} {ns : List (Node κ)} {source : String} {depth : Nat}
  {ts : List Tree}

/-- A tree prints as a node: wherever the margin is that of the node's depth, it comes to the
    outline of the node. -/
structure Prints (source : String) (n : Node κ) (t : Tree) : Prop where
  isEmpty : t.toFragment.isEmpty = false
  keyed : t.toFragment.keyed = []
  text : ∀ (depth : Nat) (levels : List Nat), levels.headD 0 = 2 * depth →
    textAt levels [t.toFragment] = printed source depth n

theorem hasInk_printed (source : String) (depth : Nat) (n : Node κ) :
    hasInk (printed source depth n) = true := by
  have hopen : hasInk "(" = true := by decide
  rw [printed_eq, outlineHead]
  simp only [hasInk_append, hopen, Bool.true_or]

/-- What a leaf becomes. -/
def leafOutline (source : String) (n : Node κ) : Tree :=
  ((Tree.ofText ("(" ++ n.kindName ++ " " ++ n.textIn source)).withSuffix ")").withComments

/-- What an inner node becomes when its children have become some trees. -/
def innerOutline (n : Node κ) (ts : List Tree) : Tree :=
  ((linesUnder ("(" ++ n.kindName) ts).withSuffix ")").withComments

/-- A text that begins with a parenthesis is not dropped. -/
theorem nonempty_parenthesis (text : String) :
    nonempty [.text ("(" ++ text)] = [Fragment.text ("(" ++ text)] := by
  refine nonempty_eq_self (List.forall_mem_singleton.mpr ?_)
  simp [Fragment.isEmpty]

theorem toFragment_leafOutline (source : String) (n : Node κ) :
    (leafOutline source n).toFragment
      = .node [.text ("(" ++ (n.kindName ++ (" " ++ n.textIn source)))] []
        { suffix := some ")", attachComment := true } := by
  rw [leafOutline, String.append_assoc, String.append_assoc, Tree.ofText, Tree.ofFragments,
    nonempty_parenthesis]
  rfl

theorem toFragment_innerOutline (n : Node κ) (hts : nonempty (fragmentsOf ts) = fragmentsOf ts) :
    (innerOutline n ts).toFragment
      = .node [.text ("(" ++ n.kindName)] (fragmentsOf ts)
        { newline := true
          indent := 2
          separator := some "\n"
          suffix := some ")"
          attachComment := true } := by
  rw [innerOutline, linesUnder, Tree.ofText, Tree.ofFragments, nonempty_parenthesis, Tree.withBody,
    hts]
  rfl

/-- A leaf prints. -/
theorem prints_leaf (hname : '\n' ∉ n.kindName.toList) (hleaf : n.children = []) :
    Prints source n (leafOutline source n) := by
  have hfragment := toFragment_leafOutline source n
  refine ⟨by rw [hfragment]; rfl, by rw [hfragment]; rfl, ?_⟩
  intro depth levels hlevels
  have hopen : indented (2 * depth) "(" = "(" := rfl
  have hspace : indented (2 * depth) " " = " " := rfl
  have hkind : indented (2 * depth) n.kindName = n.kindName := by
    rw [indented, Sink.indentBreaks_eq_self hname, String.ofList_toList]
  rw [hfragment, textAt_closed rfl rfl rfl rfl (by decide), hlevels, printed_eq, outlineHead, hleaf]
  simp only [indented_append, hopen, hspace, hkind, hanging_eq_indented, printedAll,
    List.isEmpty_nil, if_true, String.append_assoc, String.empty_append]

/-- Children print on lines of their own. -/
theorem printedAll_of_prints (hts : List.Forall₂ (Prints source) ns ts) (levels : List Nat)
    (hlevels : levels.headD 0 = 2 * depth) :
    String.join ((fragmentsOf ts).map fun f => "\n" ++ spaces (2 * depth) ++ textAt levels [f])
      = printedAll source depth ns := by
  induction hts with
  | nil => rfl
  | cons ht _ ih =>
    rw [fragmentsOf, List.map_cons, List.map_cons, String.join_cons, ht.text depth levels hlevels,
      printedAll]
    exact congrArg _ ih

theorem exists_prints_of_mem (hts : List.Forall₂ (Prints source) ns ts) :
    ∀ t ∈ ts, ∃ n : Node κ, Prints source n t := by
  induction hts with
  | nil => exact List.forall_mem_nil _
  | cons ht _ ih => exact List.forall_mem_cons.mpr ⟨⟨_, ht⟩, ih⟩

/-- An inner node prints if its children do. -/
theorem prints_inner (hname : '\n' ∉ n.kindName.toList) (hinner : n.children ≠ [])
    (hts : List.Forall₂ (Prints source) n.children ts) :
    Prints source n (innerOutline n ts) := by
  have hprints := exists_prints_of_mem hts
  have hbody : nonempty (fragmentsOf ts) = fragmentsOf ts := by
    refine nonempty_eq_self (List.forall_mem_map.mpr fun t ht => ?_)
    obtain ⟨_, hn⟩ := hprints t ht
    exact hn.isEmpty
  have hkeys : keyedAll (fragmentsOf ts) = [] := by
    refine keyedAll_eq_nil (List.forall_mem_map.mpr fun t ht => ?_)
    obtain ⟨_, hn⟩ := hprints t ht
    exact hn.keyed
  have hfragment := toFragment_innerOutline n hbody
  refine ⟨by rw [hfragment]; rfl, by rw [hfragment]; exact hkeys, ?_⟩
  intro depth levels hlevels
  have hlevel : ((levels.headD 0 : Nat) + (2 : Int)).toNat = 2 * (depth + 1) := by omega
  have hhead : '\n' ∉ ("(" ++ n.kindName).toList := by simp [hname]
  have hne : fragmentsOf ts ≠ [] := by
    intro hnil
    rw [List.map_eq_nil_iff.mp hnil] at hts
    exact hinner (List.forall₂_nil_right_iff.mp hts)
  have hink : ∀ f ∈ fragmentsOf ts, hasInk (textAt (2 * (depth + 1) :: levels) [f]) = true := by
    refine List.forall_mem_map.mpr fun t ht => ?_
    obtain ⟨m, hm⟩ := hprints t ht
    rw [hm.text (depth + 1) _ rfl]
    exact hasInk_printed source (depth + 1) m
  have hchildren := printedAll_of_prints hts (2 * (depth + 1) :: levels) rfl
  rw [hfragment, textAt_lines rfl rfl rfl rfl (by decide) hlevel hhead (by decide) hkeys hne hink,
    hchildren, printed_eq, outlineHead, List.isEmpty_eq_false_iff.mpr hinner]
  simp

end

/-! ### Conversions -/

section

variable {κ : Type} [Named κ] {n : Node κ} {ns : List (Node κ)} {source : String}

/-- There is no line break in the name of the node's kind, and no comment before the node. -/
structure IsPlain (source : String) (n : Node κ) : Prop where
  name : '\n' ∉ n.kindName.toList
  trivia : ∀ span ∈ scan source n.fullStart none, span.isComment = false

instance (source : String) (n : Node κ) : Decidable (IsPlain source n) :=
  decidable_of_iff ('\n' ∉ n.kindName.toList
      ∧ ∀ span ∈ scan source n.fullStart none, span.isComment = false)
    ⟨fun ⟨h, h'⟩ => ⟨h, h'⟩, fun ⟨h, h'⟩ => ⟨h, h'⟩⟩

/-- The state after so many more conversions. -/
def State.visits {C : Type} (s : State C) (k : Nat) : State C :=
  { s with visited := s.visited + k }

theorem leadingPieces_of_text {C : Type} {owes : Bool} {spans : List Span}
    (h : ∀ span ∈ spans, span.isComment = false) :
    (leadingPieces source false owes spans : Program Span C (List Fragment)) = .pure [] := by
  induction spans with
  | nil => rfl
  | cons span spans ih =>
    obtain ⟨hspan, hspans⟩ := List.forall_mem_cons.mp h
    have hkind : span.kind = .text := by simpa [Span.isComment] using hspan
    rw [leadingPieces, hkind]
    exact ih hspans

omit [Named κ] in
/-- Without comments before it, the output of a node is left as it is. -/
theorem Backend.finishNode_of_text {C : Type} (backend : Backend κ C) (job : Job)
    (h : ∀ span ∈ scan job.source n.fullStart none, span.isComment = false) (output : Tree)
    (s : State C) : backend.finishNode job n output s = (output, s) := by
  rw [Backend.finishNode, attachLeadingTrivia, leadingPieces_of_text h]
  split <;> rfl

theorem dispatch_outline (job : Job) (n : Node κ) :
    (outline κ).dispatch job n
      = (outlineNode job n "").bind fun t => .pure t.withComments := by
  show ((outlineNode job n "").bind fun t => .pure (some t.withComments)).bind _ = _
  rw [Program.bind_assoc]
  rfl

theorem dispatch_leaf (job : Job) (hleaf : n.children = []) :
    (outline κ).dispatch job n = .pure (leafOutline job.source n) := by
  obtain ⟨kind, fullStart, start, stop, children⟩ := n
  cases hleaf
  rw [dispatch_outline]
  simp only [outlineNode, String.isEmpty_iff, if_true, String.append_empty]
  rfl

theorem dispatch_inner (job : Job) (hinner : n.children ≠ []) :
    (outline κ).dispatch job n
      = (convertAll n.children).bind fun ts => .pure (innerOutline n ts) := by
  obtain ⟨kind, fullStart, start, stop, children⟩ := n
  obtain ⟨child, children, rfl⟩ := List.exists_cons_of_ne_nil hinner
  rw [dispatch_outline]
  simp only [outlineNode, String.isEmpty_iff, if_true, String.append_empty]
  exact Program.bind_assoc _ _ _

/-- Nodes that are converted into trees that print as they should. -/
theorem run_convertAll (answer : Request κ → StateM (State Unit) Tree) (merge : Unit → Unit → Unit)
    (h : ∀ n ∈ ns, ∀ s, ∃ t, Prints source n t
      ∧ answer (.convert n) s = (t, s.visits n.preorder.length)) (s : State Unit) :
    ∃ ts, List.Forall₂ (Prints source) ns ts ∧ (convertAll ns).run answer merge s
      = (ts, s.visits (ns.flatMap Node.preorder).length) := by
  induction ns generalizing s with
  | nil => exact ⟨[], .nil, rfl⟩
  | cons n ns ih =>
    obtain ⟨hn, hns⟩ := List.forall_mem_cons.mp h
    obtain ⟨t, ht, hrun⟩ := hn s
    obtain ⟨ts, hts, hruns⟩ := ih hns (s.visits n.preorder.length)
    refine ⟨t :: ts, .cons ht hts, ?_⟩
    have hrest := Program.run_bind answer merge (convertAll ns)
      (fun ts => .pure (t :: ts)) (s.visits n.preorder.length)
    have hfirst : (convertAll (n :: ns)).run answer merge s
        = ((convertAll ns).bind fun ts => .pure ((answer (.convert n) s).1 :: ts)).run answer merge
          (answer (.convert n) s).2 := rfl
    rw [hfirst, hrun, hrest, hruns, List.flatMap_cons, List.length_append]
    simp only [Program.run, State.visits, Nat.add_assoc]

/-- **Conversions.**  As long as there are levels left for the whole tree, the conversion of a node
    prints as it should, it reports nothing, and it converts every node of the tree once. -/
theorem convert_outline {left : Nat} (hheight : n.height ≤ left)
    (hplain : ∀ m ∈ n.preorder, IsPlain source m) (s : State Unit) :
    ∃ t, Prints source n t
      ∧ (outline κ).convert { source } left n s = (t, s.visits n.preorder.length) := by
  induction left generalizing n s with
  | zero =>
    rw [Node.height_eq] at hheight
    cases hheight
  | succ left ih =>
    have hn := hplain n n.self_mem_preorder
    -- One visit is the node's own; the rest are those of its children, counted by `run_convertAll`.
    have hcount : n.preorder.length = 1 + (n.children.flatMap Node.preorder).length := by
      rw [Node.preorder_eq, List.length_cons, Nat.add_comm]
    obtain ⟨t, ht, hrun⟩ : ∃ t, Prints source n t
        ∧ ((outline κ).dispatch { source } n).run
            ((outline κ).answer { source } ((outline κ).convert { source } left))
            (outline κ).merge s.visit = (t, s.visits n.preorder.length) := by
      rw [hcount]
      by_cases hleaf : n.children = []
      · refine ⟨_, prints_leaf hn.name hleaf, ?_⟩
        rw [dispatch_leaf { source } hleaf, hleaf]
        rfl
      · have hchildren : ∀ child ∈ n.children, ∀ s, ∃ t, Prints source child t
            ∧ (outline κ).convert { source } left child s
              = (t, s.visits child.preorder.length) := by
          intro child hchild
          have hlt := Node.height_lt_of_mem_children hchild
          refine ih (by omega) fun m hm => hplain m ?_
          exact Node.mem_preorder_of_child hchild hm
        obtain ⟨ts, hts, hrun⟩ := run_convertAll
          ((outline κ).answer { source } ((outline κ).convert { source } left))
          (outline κ).merge hchildren s.visit
        refine ⟨_, prints_inner hn.name hleaf hts, ?_⟩
        rw [dispatch_inner { source } hleaf, Program.run_bind, hrun]
        simp only [Program.run, State.visits, State.visit, Nat.add_assoc]
    refine ⟨t, ht, ?_⟩
    have hconvert : (outline κ).convert { source } (left + 1) n s
        = (outline κ).finishNode { source } n t (s.visits n.preorder.length) := by
      rw [Backend.convert]
      simp only [hrun]
    rw [hconvert, (outline κ).finishNode_of_text { source } hn.trivia]

/-- **Outlines.**  For a tree that is no higher than conversions nest, without line breaks in the
    names of kinds and without comments before nodes, the outline is the text that recursion over
    the tree gives, but for the blanks at the ends of lines.  That text has a line for each node in
    pre-order; every node is converted once, and nothing is reported. -/
theorem outline_prints (source : String) (root : Node κ) (hheight : root.height ≤ 256)
    (hplain : ∀ n ∈ root.preorder, IsPlain source n) :
    ∃ outcome text, (outline κ).convertRoot { source } root = .ok outcome
      ∧ outcome.diagnostics = [] ∧ outcome.stats.visited = root.preorder.length
      ∧ outlineText source root = .ok text
      ∧ pieces text.toList = (pieces (printed source 0 root).toList).map
          (dropEndWhile fun c => c == ' ' || c == '\t')
      ∧ "\n" ++ printed source 0 root = listed source (root.preorderFrom 0) := by
  obtain ⟨t, ht, hrun⟩ :=
    convert_outline hheight hplain { contexts := { root := (outline κ).initial } }
  have hroot : (outline κ).convertRoot { source } root
      = .ok ⟨t, [], ⟨0 + root.preorder.length, 0, 0⟩⟩ := by
    have hlimit : ({ source } : Job).settings.depthLimit = 256 := rfl
    rw [Backend.convertRoot, hlimit]
    simp only [hrun]
    exact if_pos rfl
  have htext : render t = stripped (printed source 0 root) := by
    rw [← ht.text 0 [] rfl]
    rfl
  refine ⟨_, render t, hroot, rfl, Nat.zero_add _, ?_, ?_, (listed_preorder source root).symm⟩
  · rw [outlineText, hroot]
    rfl
  · rw [htext, stripped, String.toList_ofList]
    exact pieces_stripLineEnds _

/-- A group in a list, with a leaf that has a line break in it and a blank before that. -/
theorem outline_prints_nested :
    let group : Node String := ⟨"Group", 1, 2, 11, [⟨"Word", 3, 3, 4, []⟩, ⟨"Block", 4, 5, 10, []⟩]⟩
    let root : Node String := ⟨"Root", 0, 0, 11, [⟨"Word", 0, 0, 1, []⟩, group]⟩
    root.height ≤ 256 ∧ (∀ n ∈ root.preorder, IsPlain "a (b \x7b \nc\x7d)" n)
      ∧ ∃ text, outlineText "a (b \x7b \nc\x7d)" root = .ok text
        ∧ pieces text.toList = ["(Root", "  (Word a)", "  (Group", "    (Word b)",
          "    (Block \x7b", "    c\x7d)))"].map String.toList := by
  intro group root
  have hheight : root.height ≤ 256 := by decide
  have hplain : ∀ n ∈ root.preorder, IsPlain "a (b \x7b \nc\x7d)" n := by decide +kernel
  obtain ⟨outcome, text, -, -, -, htext, hpieces, -⟩ :=
    outline_prints "a (b \x7b \nc\x7d)" root hheight hplain
  exact ⟨hheight, hplain, text, htext, hpieces.trans (by decide +kernel)⟩

end

end Transcode.Engine
