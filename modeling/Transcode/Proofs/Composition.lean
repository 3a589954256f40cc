import Transcode.Proofs.Complaints
import Transcode.Proofs.Indentation
import Transcode.Proofs.Seams

namespace Transcode

open Text Output Engine Script

/-!
# Sources come out in parts

The code of a source is that of its statements, laid out in order, and its diagnostics are theirs
(`conversion_of_outputs`).  What a statement comes to is no matter of the ones around it, and on
another line it is the same but for its place (`Copies`, `complaints_relocate`).  When the outputs
are rendered, the first ones leave nothing behind for the others but the keys that fired, and those
of a source on the next line are others (`buffer_mapKeys`).  So two sources, one on the lines after
the other, come out as the one and then the other (`toPython_joined`).
-/

/-- A diagnostic about a node further on. -/
def Diagnostic.later (distance : Nat) (d : Diagnostic) : Diagnostic :=
  { d with start := d.start + distance, stop := d.stop + distance }

/-- A text that is one text and then another, with one or two line breaks in between unless one of
    them is empty. -/
def InTurn (a b text : String) : Prop :=
  (a = "" ∧ text = b) ∨ (b = "" ∧ text = a)
    ∨ a ≠ "" ∧ b ≠ "" ∧ ∃ breaks, (breaks = "\n" ∨ breaks = "\n\n") ∧ text = a ++ breaks ++ b

namespace Target

/-! ### Statements in two parts -/

section

variable {source source' : String} {m : Relocation} {ρ : String → String} {nodes : Ast → Prop}
  {previous : Option Ast} {ps qs : List (Ast × Tree)}

theorem laid_eq_nil_iff : laid source previous ps = [] ↔ ∀ p ∈ ps, p.2.isEmpty = true := by
  induction ps with
  | nil => exact iff_of_true rfl (List.forall_mem_nil _)
  | cons p ps ih =>
    rw [List.forall_mem_cons]
    cases hempty : p.2.isEmpty with
    | true => rw [laid_of_isEmpty hempty, ih, and_iff_right rfl]
    | false =>
      refine iff_of_false ?_ fun h => Bool.false_ne_true h.1
      cases previous with
      | none => rw [laid_none hempty]; exact List.cons_ne_nil _ _
      | some q => rw [laid_some hempty]; exact List.cons_ne_nil _ _

/-- Outputs after others are laid out as they are by themselves, or as they are after a node. -/
theorem exists_laid_append (source : String) (previous : Option Ast) (ps qs : List (Ast × Tree)) :
    (laid source previous ps = [] ∧ laid source previous (ps ++ qs) = laid source previous qs)
      ∨ laid source previous ps ≠ [] ∧ ∃ q, laid source previous (ps ++ qs)
        = laid source previous ps ++ laid source (some q) qs := by
  induction ps generalizing previous with
  | nil => exact .inl ⟨rfl, rfl⟩
  | cons p ps ih =>
    rw [List.cons_append]
    cases hempty : p.2.isEmpty with
    | true =>
      rw [laid_of_isEmpty hempty, laid_of_isEmpty hempty]
      exact ih previous
    | false =>
      -- The rest comes after this node, or after one further on.
      have hrest : ∃ q, laid source (some p.1) (ps ++ qs)
          = laid source (some p.1) ps ++ laid source (some q) qs := by
        rcases ih (some p.1) with ⟨hnil, hall⟩ | ⟨-, hlater⟩
        · exact ⟨p.1, by rw [hall, hnil, List.nil_append]⟩
        · exact hlater
      obtain ⟨q, hq⟩ := hrest
      cases previous with
      | none =>
        rw [laid_none hempty, laid_none hempty, hq]
        exact .inr ⟨List.cons_ne_nil _ _, q, rfl⟩
      | some p' =>
        rw [laid_some hempty, laid_some hempty, hq]
        exact .inr ⟨List.cons_ne_nil _ _, q, rfl⟩

/-- Outputs in two parts are laid out part by part, with a separator in between if neither comes to
    nothing. -/
theorem laid_append (source : String) (ps qs : List (Ast × Tree)) :
    (laid source none ps = [] ∧ laid source none (ps ++ qs) = laid source none qs)
      ∨ (laid source none qs = [] ∧ laid source none (ps ++ qs) = laid source none ps)
      ∨ laid source none ps ≠ [] ∧ laid source none qs ≠ [] ∧ ∃ gap, (gap = "" ∨ gap = "\n")
        ∧ laid source none (ps ++ qs)
          = laid source none ps ++ .text ("\n" ++ gap) :: laid source none qs := by
  rcases exists_laid_append source none ps qs with hnil | ⟨hne, q, hq⟩
  · exact .inl hnil
  · rcases laid_some_cases source q qs with ⟨hnil, hall⟩ | ⟨gap, hgap, ⟨p, hp, hsome⟩, hlaid⟩
    · refine .inr (.inl ⟨laid_eq_nil_iff.mpr hall, ?_⟩)
      rw [hq, hnil, List.append_nil]
    · refine .inr (.inr ⟨hne, fun hnil => ?_, gap, hgap, by rw [hq, hlaid]⟩)
      rw [laid_eq_nil_iff.mp hnil p hp] at hsome
      cases hsome

/-- What is laid out elsewhere. -/
theorem laid_relocate (h : Copies source source' m ρ nodes) (hps : ∀ p ∈ ps, nodes p.1)
    (hprevious : ∀ p ∈ previous, nodes p) :
    laid source' (previous.map (Node.relocate m))
        (ps.map (Prod.map (Node.relocate m) (Tree.mapKeys ρ)))
      = mapKeysAll ρ (laid source previous ps) := by
  induction ps generalizing previous with
  | nil => rfl
  | cons p ps ih =>
    obtain ⟨hp, hps⟩ := List.forall_mem_cons.mp hps
    have hnext : ∀ q ∈ some p.1, nodes q := fun q hq => Option.some.inj hq ▸ hp
    rw [List.map_cons]
    -- Whether an output is empty is no matter of its keys.
    cases hempty : p.2.isEmpty with
    | true =>
      have hempty' : (p.2.mapKeys ρ).isEmpty = true := Tree.isEmpty_mapKeys.trans hempty
      rw [laid_of_isEmpty hempty, laid_of_isEmpty (by exact hempty')]
      exact ih hps hprevious
    | false =>
      have hempty' : (p.2.mapKeys ρ).isEmpty = false := Tree.isEmpty_mapKeys.trans hempty
      have hrest := ih hps hnext
      cases previous with
      | none =>
        rw [Option.map_none, laid_none hempty, laid_none (by exact hempty')]
        exact congrArg _ hrest
      | some q =>
        have hblank := h.blankLines q p.1 (hprevious q rfl) hp
        rw [Option.map_some, laid_some hempty, laid_some (by exact hempty'), Prod.map_fst, hblank]
        exact congrArg _ (congrArg _ hrest)

end

/-! ### Rendering in two parts -/

section

variable {d : Nat} {ρ : String → String} {fs gs : List Fragment}

/-- Fragments whose keys did not fire come to the same after others. -/
theorem textAt_append_mapKeys {levels : List Nat} (hρ : Function.Injective ρ)
    (hfresh : ∀ key, ρ key ∉ (Sink.writeLead { levels } fs).fired) :
    textAt levels (fs ++ mapKeysAll ρ gs) = textAt levels fs ++ textAt levels gs := by
  rw [textAt, writeLead_append]
  exact ((settled_new levels).writeLead fs).buffer_mapKeys hρ hfresh gs

theorem render_ofFragments (fs : List Fragment) :
    render (.ofFragments fs) = codeAt 0 (nonempty fs) := rfl

theorem codeAt_mapKeys (hρ : Function.Injective ρ) : codeAt d (mapKeysAll ρ fs) = codeAt d fs := by
  have hfresh : ∀ key, ρ key ∉ (Sink.writeLead { levels := margins d } []).fired := fun _ =>
    List.not_mem_nil
  have htext : textAt (margins d) ([] ++ mapKeysAll ρ fs) = "" ++ textAt (margins d) fs :=
    textAt_append_mapKeys hρ hfresh
  rw [List.nil_append, String.empty_append] at htext
  rw [codeAt_eq, htext, codeAt_eq]

/-- The code of fragments after a separator. -/
theorem codeAt_append {gap : String} (hρ : Function.Injective ρ)
    (hfresh : ∀ key, ρ key ∉ (Sink.writeLead { levels := margins d } fs).fired)
    (hgap : gap = "" ∨ gap = "\n") (hbegins : BeginsWithInk (textAt (margins d) gs)) :
    codeAt d (fs ++ .text ("\n" ++ gap) :: mapKeysAll ρ gs)
      = codeAt d fs ++ gap ++ lineAt d ++ codeAt d gs := by
  have htext : textAt (margins d) (fs ++ mapKeysAll ρ (.text ("\n" ++ gap) :: gs))
      = textAt (margins d) fs ++ textAt (margins d) (.text ("\n" ++ gap) :: gs) :=
    textAt_append_mapKeys hρ hfresh
  have hseparator : (Fragment.text ("\n" ++ gap)).keyed = [] := rfl
  obtain ⟨blank, hblank, hstrip⟩ := textAt_separator hgap d
  rw [mapKeysAll_cons, mapKeys_text] at htext
  rw [codeAt_eq, htext, textAt_cons hseparator, hblank, ← String.append_assoc,
    ← String.append_assoc, stripped_line hbegins, hstrip]
  rfl

end

/-! ### Statements of a source -/

/-- What becomes of a node that nests too deep: its text. -/
def copied (source : String) (n : Ast) : Option Tree :=
  some (.ofText (n.textIn source))

theorem eq_of_copied {source : String} {n : Ast} {t : Tree} (h : copied source n = some t) :
    t = .ofText (n.textIn source) :=
  (Option.some.inj h).symm

/-- The outputs of some nodes. -/
def Outputs (job : Job) (left : Nat) : List Ast → List Tree → Prop :=
  List.Forall₂ fun n t =>
    backend.output? job (copied job.source) left backend.initial n = some t

section

variable {job : Job} {left : Nat} {ns ns' : List Ast} {ts ts' : List Tree} {root : Ast}

theorem Outputs.unique (h : Outputs job left ns ts) (h' : Outputs job left ns ts') : ts = ts' :=
  Relator.RightUnique.forall₂ (fun _ _ _ ht ht' => Option.some.inj (ht.symm.trans ht')) h h'

theorem Outputs.append (h : Outputs job left ns ts) (h' : Outputs job left ns' ts') :
    Outputs job left (ns ++ ns') (ts ++ ts') :=
  List.rel_append h h'

/-- The outputs of nodes elsewhere. -/
theorem Outputs.relocate {source source' : String} {settings : Settings} {m : Relocation}
    {ρ : String → String} {nodes : Ast → Prop} (h : Outputs { source, settings } left ns ts)
    (hcopies : Copies source source' m ρ nodes)
    (htext : ∀ n, nodes n → (n.relocate m).textIn source' = n.textIn source)
    (hns : ∀ n ∈ ns, nodes n) :
    Outputs { source := source', settings } left (ns.map (Node.relocate m))
      (ts.map (Tree.mapKeys ρ)) := by
  have hcopied : ∀ n, nodes n →
      copied source' (n.relocate m) = (copied source n).map (Tree.mapKeys ρ) := by
    intro n hn
    rw [copied, copied, htext n hn, Option.map_some, Tree.mapKeys_ofText]
  have houtput : ∀ n, nodes n → backend.output? { source := source', settings } (copied source')
      left backend.initial (n.relocate m) = _ := fun n hn =>
    @output?_relocate { source, settings } { source := source', settings } _ _ _ _ _ hcopies rfl
      hcopied _ _ _ hn
  refine List.forall₂_map_left_iff.mpr (List.forall₂_map_right_iff.mpr ?_)
  refine ((List.forall₂_and_left ns ts).mpr ⟨hns, h⟩).imp fun n t ⟨hn, ht⟩ => ?_
  exact (houtput n hn).trans (congrArg (Option.map (Tree.mapKeys ρ)) ht)

/-- All statements of a source have outputs, and its own is those, laid out in order. -/
theorem exists_outputs (hkind : root.kind = .sourceFile) (job : Job) (left : Nat) :
    ∃ ts, Outputs job left root.children ts
      ∧ backend.output? job (copied job.source) (left + 1) backend.initial root
        = some (.ofFragments (laid job.source none (root.children.zip ts))) := by
  -- Nothing is refused without an output, and the handler lays out the ones that it is given.
  have hsome : (backend.output? job (copied job.source) (left + 1) backend.initial root).isSome
      = true := Backend.isSome_output? (fun _ => rfl) _ _ _
  obtain ⟨t, ht⟩ := Option.isSome_iff_exists.mp hsome
  obtain ⟨u, rfl, hpost⟩ := exists_dispatched ht
  have hlaid : ∃ ts, Outputs job left root.children ts
      ∧ u = .ofFragments (laid job.source none (root.children.zip ts)) := by
    refine hpost (fun u => ∃ ts, Outputs job left root.children ts
      ∧ u = .ofFragments (laid job.source none (root.children.zip ts)))
      (ensures_dispatch_of_handle ?_)
    rw [handle, hkind]
    exact Program.ensures_bind.mpr (ensures_laid fun ts hts => ⟨_, rfl, ts, hts, rfl⟩)
  obtain ⟨ts, hts, rfl⟩ := hlaid
  exact ⟨ts, hts, ht⟩

/-- The diagnostics of a source are those of its statements. -/
theorem complaints_sourceFile (hkind : root.kind = .sourceFile) (c : Context) :
    Backend.complaints job (stepsOf job) (left + 1) c root
      = root.children.flatMap (Backend.complaints job (stepsOf job) left c) := by
  have hsteps : stepsOf job c root = root.children.map (.convert c) := by
    simp only [stepsOf, partsOf, handledSteps, hkind]
    exact conversions_partsUnder
  rw [Backend.complaints, hsteps, List.flatMap_map]
  rfl

end

section

variable {source s u : String} {settings : Settings} {root root' both : Ast} {left : Nat}
  {ts : List Tree}

/-- **A source is its statements.**  With a level left for them, the code of a source is the outputs
    of its statements, laid out in order and rendered, and its diagnostics are theirs. -/
theorem conversion_of_outputs (h : parse source = .ok root)
    (hlimit : settings.depthLimit = left + 1)
    (hts : Outputs { source, settings } left root.children ts) :
    ∃ conversion, toPython source settings = .ok conversion
      ∧ conversion.code = codeAt 0 (laid source none (root.children.zip ts))
      ∧ conversion.diagnostics = root.children.flatMap
        (Backend.complaints { source, settings } (stepsOf { source, settings }) left
          backend.initial) := by
  obtain ⟨ts', hts', hroot⟩ := exists_outputs (kind_of_parse h) { source, settings } left
  obtain rfl := hts.unique hts'
  rw [← hlimit] at hroot
  obtain ⟨conversion, hconversion, hcode⟩ := exists_conversion h (by exact fun _ _ => eq_of_copied)
    hroot
  obtain ⟨outcome, houtcome, hdiagnostics⟩ := backend.diagnostics_convertRoot
    { source, settings } (fun c n => follows_dispatch) (fun span => trivial) root
  obtain rfl := Except.ok.inj (hconversion.symm.trans (toPython_of_parse h houtcome))
  refine ⟨_, hconversion, ?_, ?_⟩
  · rw [hcode, render_ofFragments, nonempty_laid]
  · rw [← complaints_sourceFile (kind_of_parse h), ← hlimit]
    exact hdiagnostics

/-- Code of statements begins with something that shows, if there is any. -/
theorem beginsWithInk_of_outputs (h : parse source = .ok root)
    (hts : Outputs { source, settings } left root.children ts)
    (hne : laid source none (root.children.zip ts) ≠ []) (levels : List Nat) :
    BeginsWithInk (textAt levels (laid source none (root.children.zip ts))) := by
  have hopens : ∀ p ∈ root.children.zip ts, p.2.toFragment.Opens ∨ p.2.isEmpty = true := by
    rintro ⟨n, t⟩ hp
    have hn := (List.of_mem_zip hp).1
    have hopening := opening_of_output? h (by exact fun _ _ => eq_of_copied)
      (List.forall₂_zip hts hp)
    exact (hopening rfl (Node.mem_preorder_of_mem_children hn)
      (whole_of_parse h n hn)).imp_right And.right
  rcases opens_laid hopens with ⟨hnil, -⟩ | ⟨-, f, rest, hlaid, hf⟩
  · exact absurd hnil hne
  · rw [hlaid]
    exact textAt_opens hf levels rest

/-- The keys that fire for a source are those of pieces in it. -/
theorem key_of_mem_fired (h : parse source = .ok root)
    (hts : Outputs { source, settings } left root.children ts) {levels : List Nat} {key : String}
    (hkey : key ∈ (Sink.writeLead { levels } (laid source none (root.children.zip ts))).fired) :
    ∃ k : Nat ⊕ Nat, key = keyAt k ∧ k.elim id id ≤ source.utf8ByteSize := by
  obtain ⟨ts', hts', hroot⟩ := exists_outputs (kind_of_parse h) { source, settings } left
  obtain rfl := hts.unique hts'
  -- All keys in the output are those of trivia before some node.
  have hfitting : Fitting source root backend.initial root
      (.ofFragments (laid source none (root.children.zip ts))) := by
    refine Backend.output?_satisfies (fun c n t ht => ?_)
      (fun c n => fitting_step h settings c) hroot
    obtain rfl := eq_of_copied ht
    exact ⟨rfl, fun _ => fits_of_keyed_eq_nil (Holds.text _).ofFragments.keyed_tree⟩
  have hfits := hfitting.2 root.self_mem_preorder
  have hflat := hfits.isFlat
  obtain ⟨pieces, hkeyed, hpieces, -⟩ := hfits
  rw [keyed_ofFragments nonempty_laid] at hkeyed hflat
  -- Those that fire are among them, and no trivia begin after the node that they are before.
  rw [Sink.fired_writeLead _ _ hflat, hkeyed, keysOf_map_tree, List.mem_union_iff, List.mem_reverse,
    or_iff_left List.not_mem_nil] at hkey
  obtain ⟨p, hp, rfl⟩ := List.mem_map.mp hkey
  obtain ⟨m, hm, hp⟩ := hpieces p hp
  have hstart := (nests_of_parse h m hm).start_le.trans (stop_le_of_parse h hm)
  have hfits := fits_of_mem_leadingOf (shown_first source "") hstart (abuts_of_parse h m hm) p hp
  rw [← length_bytes]
  cases p with
  | comment span => exact ⟨.inl span.start, rfl, hfits.1.start_le⟩
  | blank start => exact ⟨.inr start, rfl, hfits⟩

/-! ### Two sources -/

theorem start_nextLine_injective : Function.Injective (nextLine s).start :=
  fun _ _ => Nat.add_right_cancel

theorem diagnosticAt_nextLine {n : Ast} (hpos : 0 < n.stop) (severity : Severity)
    (message : String) :
    diagnosticAt (n.relocate (nextLine s)) severity message
      = (diagnosticAt n severity message).later (s.utf8ByteSize + 1) := by
  rw [diagnosticAt, diagnosticAt, Node.stop_relocate, edge_nextLine hpos, Node.start_relocate]
  exact congrArg (Diagnostic.mk · _ _ _ _) Node.kindName_relocate

/-- What is reported about the statements of a source elsewhere. -/
theorem flatMap_complaints_relocate {source' : String} {m : Relocation} {ρ : String → String}
    {f : Diagnostic → Diagnostic} (h : parse source = .ok root)
    (hcopies : Copies source source' m ρ (Below root))
    (hf : ∀ n, Below root n → ∀ severity message, diagnosticAt (n.relocate m) severity message
      = f (diagnosticAt n severity message)) (settings : Settings) (left : Nat) (c : Context) :
    (root.children.map (Node.relocate m)).flatMap (Backend.complaints { source := source', settings }
        (stepsOf { source := source', settings }) left c)
      = (root.children.flatMap (Backend.complaints { source, settings }
        (stepsOf { source, settings }) left c)).map f := by
  rw [List.flatMap_map, List.map_flatMap]
  refine List.flatMap_congr fun n hn => ?_
  have hbelow : Below root n := ⟨n, hn, n.self_mem_preorder⟩
  have hnests : ∀ n, Below root n → Nests n := fun n hn => nests_of_parse h n hn.mem_preorder
  exact @complaints_relocate m c n { source, settings } { source := source', settings } f
    (Below root) rfl (fun n hn => hn.preorder) hnests hcopies.log hf left hbelow

section

variable (hboth : parse (joined s u) = .ok both)
  (hchildren : both.children = root.children ++ root'.children.map (Node.relocate (nextLine s)))
  (h : parse s = .ok root) (h' : parse u = .ok root')

include hboth hchildren h h'

/-- The diagnostics of two sources. -/
theorem complaints_joined (settings : Settings) (left : Nat) (c : Context) :
    let job : Job := { source := joined s u, settings }
    let first : Job := { source := s, settings }
    let second : Job := { source := u, settings }
    both.children.flatMap (Backend.complaints job (stepsOf job) left c)
      = root.children.flatMap (Backend.complaints first (stepsOf first) left c)
        ++ (root'.children.flatMap (Backend.complaints second (stepsOf second) left c)).map
          (Diagnostic.later (s.utf8ByteSize + 1)) := by
  intro job first second
  obtain ⟨ρ, -, hρ⟩ := exists_renames start_nextLine_injective (bytes u).length
  have hid : ∀ n : Ast, n.relocate ⟨id, id⟩ = n := fun n => Node.relocate_id
  have hfirst := flatMap_complaints_relocate h (copies_first hboth hchildren h) (f := id)
    (fun n _ severity message => by rw [hid]; rfl) settings left c
  have hsecond := flatMap_complaints_relocate h' (copies_second hboth hchildren h' hρ)
    (fun n hn => diagnosticAt_nextLine (hn.bounds h').1) settings left c
  rw [List.map_id'' hid, List.map_id] at hfirst
  rw [hchildren, List.flatMap_append, hfirst, hsecond]

/-- The outputs of two sources. -/
theorem outputs_joined {ρ : String → String} {ts ts' : List Tree}
    (hρ : Renames ρ (nextLine s).start (bytes u).length)
    (hts : Outputs { source := s, settings } left root.children ts)
    (hts' : Outputs { source := u, settings } left root'.children ts') :
    Outputs { source := joined s u, settings } left both.children
      (ts ++ ts'.map (Tree.mapKeys ρ)) := by
  have hbelow : ∀ n ∈ root.children, Below root n := fun n hn => ⟨n, hn, n.self_mem_preorder⟩
  have hbelow' : ∀ n ∈ root'.children, Below root' n := fun n hn => ⟨n, hn, n.self_mem_preorder⟩
  have hid : ∀ n : Ast, n.relocate ⟨id, id⟩ = n := fun n => Node.relocate_id
  have hidt : ∀ t : Tree, t.mapKeys id = t := fun t => Tree.mapKeys_id
  have hfirst := hts.relocate (copies_first hboth hchildren h) (fun n hn => textIn_first u h hn)
    hbelow
  have hsecond := hts'.relocate (copies_second hboth hchildren h' hρ)
    (fun n hn => textIn_second s h' hn) hbelow'
  rw [List.map_id'' hid, List.map_id'' hidt] at hfirst
  rw [hchildren]
  exact hfirst.append hsecond

/-- The statements of two sources, laid out. -/
theorem laid_joined {ρ : String → String} {ts : List Tree}
    (hρ : Renames ρ (nextLine s).start (bytes u).length)
    (hlength : root.children.length = ts.length) (ts' : List Tree) :
    ∃ ps qs, both.children.zip (ts ++ ts'.map (Tree.mapKeys ρ)) = ps ++ qs
      ∧ laid (joined s u) none ps = laid s none (root.children.zip ts)
      ∧ laid (joined s u) none qs = mapKeysAll ρ (laid u none (root'.children.zip ts')) := by
  have hbelow : ∀ p ∈ root.children.zip ts, Below root p.1 := fun p hp =>
    ⟨p.1, (List.of_mem_zip hp).1, p.1.self_mem_preorder⟩
  have hbelow' : ∀ p ∈ root'.children.zip ts', Below root' p.1 := fun p hp =>
    ⟨p.1, (List.of_mem_zip hp).1, p.1.self_mem_preorder⟩
  have hnone : ∀ p ∈ (none : Option Ast), Below root p := nofun
  have hnone' : ∀ p ∈ (none : Option Ast), Below root' p := nofun
  have hid : ∀ p : Ast × Tree, p.map (Node.relocate ⟨id, id⟩) (Tree.mapKeys id) = p := fun p => by
    rw [Prod.map, Node.relocate_id, Tree.mapKeys_id]
  have hfirst := laid_relocate (copies_first hboth hchildren h) hbelow hnone
  have hsecond := laid_relocate (copies_second hboth hchildren h' hρ) hbelow' hnone'
  rw [List.map_id'' hid, mapKeysAll_id] at hfirst
  rw [← List.zip_map] at hsecond
  exact ⟨_, _, by rw [hchildren, List.zip_append hlength], hfirst, hsecond⟩

/-- The code of two sources. -/
theorem codeAt_joined {ρ : String → String} {ts ts' : List Tree}
    (hinjective : Function.Injective ρ) (hρ : Renames ρ (nextLine s).start (bytes u).length)
    (hrange : ∀ key k, ρ key = keyAt k →
      k ∈ Set.range (Sum.map (nextLine s).start (nextLine s).start))
    (hts : Outputs { source := s, settings } left root.children ts)
    (hts' : Outputs { source := u, settings } left root'.children ts') :
    InTurn (codeAt 0 (laid s none (root.children.zip ts)))
      (codeAt 0 (laid u none (root'.children.zip ts')))
      (codeAt 0 (laid (joined s u) none
        (both.children.zip (ts ++ ts'.map (Tree.mapKeys ρ))))) := by
  have hbegins := beginsWithInk_of_outputs h hts
  have hbegins' := beginsWithInk_of_outputs h' hts'
  -- Keys of the second source stand for places after all of the first one.
  have hfresh : ∀ key, ρ key
      ∉ (Sink.writeLead { levels := margins 0 } (laid s none (root.children.zip ts))).fired := by
    intro key hkey
    obtain ⟨k, hk, hle⟩ := key_of_mem_fired h hts hkey
    obtain ⟨k', rfl⟩ := hrange key k hk
    have hlt : s.utf8ByteSize < (k'.map (nextLine s).start (nextLine s).start).elim id id := by
      cases k' <;> exact Nat.lt_of_lt_of_le (Nat.lt_succ_self _) (Nat.le_add_left _ _)
    exact Nat.not_le_of_lt hlt hle
  obtain ⟨ps, qs, hzip, hps, hqs⟩ := laid_joined hboth hchildren h h' hρ hts.length_eq ts'
  have hlaid := laid_append (joined s u) ps qs
  rw [hps, hqs] at hlaid
  rw [hzip]
  generalize laid s none (root.children.zip ts) = fs at hbegins hfresh hlaid ⊢
  generalize laid u none (root'.children.zip ts') = gs at hbegins' hlaid ⊢
  rcases hlaid with ⟨rfl, hall⟩ | ⟨hnil, hall⟩ | ⟨hne, hne', gap, hgap, hall⟩
  · exact .inl ⟨codeAt_nil 0, by rw [hall, codeAt_mapKeys hinjective]⟩
  · rw [mapKeysAll_eq_map, List.map_eq_nil_iff] at hnil
    subst hnil
    exact .inr (.inl ⟨codeAt_nil 0, by rw [hall]⟩)
  · have hbegin := hbegins hne (margins 0)
    have hbegin' := hbegins' (fun hnil => hne' (by rw [hnil, mapKeysAll_nil])) (margins 0)
    refine .inr (.inr ⟨?_, ?_, gap ++ "\n", ?_, ?_⟩)
    · exact (beginsWithInk_stripped hbegin).ne_empty
    · exact (beginsWithInk_stripped hbegin').ne_empty
    · rcases hgap with rfl | rfl
      · exact .inl rfl
      · exact .inr rfl
    · rw [hall, codeAt_append hinjective hfresh hgap hbegin']
      simp [lineAt, spaces, String.append_assoc]

end

/-- **One source after the other.**  If a source ends in a `;`, another one can follow on the next
    line.  The diagnostics of the two together are those of the first one and then those of the
    second one, further on, and their code is that of the first one and then that of the second
    one, with one or two line breaks in between unless one of them is empty. -/
theorem toPython_joined (h : parse s = .ok root) (hends : EndsInSemicolon s)
    (h' : parse u = .ok root') (hlimit : 0 < settings.depthLimit) :
    (∃ both, parse (joined s u) = .ok both)
      ∧ ∃ first second whole, toPython s settings = .ok first ∧ toPython u settings = .ok second
        ∧ toPython (joined s u) settings = .ok whole
        ∧ whole.diagnostics = first.diagnostics
          ++ second.diagnostics.map (Diagnostic.later (s.utf8ByteSize + 1))
        ∧ InTurn first.code second.code whole.code := by
  obtain ⟨both, hboth, -, hchildren⟩ := parse_joined h hends h'
  -- The root takes one level in all three sources, so that as many are left to the statements.
  obtain ⟨left, hleft⟩ := Nat.exists_eq_add_one_of_ne_zero (Nat.ne_of_gt hlimit)
  obtain ⟨ρ, hinjective, hρ, hrange⟩ :=
    exists_renaming (@start_nextLine_injective s) (bytes u).length
  obtain ⟨ts, hts, -⟩ := exists_outputs (kind_of_parse h) { source := s, settings } left
  obtain ⟨ts', hts', -⟩ := exists_outputs (kind_of_parse h') { source := u, settings } left
  obtain ⟨first, hfirst, hcode, hdiagnostics⟩ := conversion_of_outputs h hleft hts
  obtain ⟨second, hsecond, hcode', hdiagnostics'⟩ := conversion_of_outputs h' hleft hts'
  obtain ⟨whole, hwhole, hcodes, hreports⟩ := conversion_of_outputs hboth hleft
    (outputs_joined hboth hchildren h h' hρ hts hts')
  refine ⟨⟨both, hboth⟩, first, second, whole, hfirst, hsecond, hwhole, ?_, ?_⟩
  · rw [hreports, hdiagnostics, hdiagnostics']
    exact complaints_joined hboth hchildren h h' settings left backend.initial
  · rw [hcode, hcode', hcodes]
    exact codeAt_joined hboth hchildren h h' hinjective hρ hrange hts hts'

/-- Comments and a `return` in both sources, and a blank line in the second one. -/
theorem toPython_joined_returns :
    let s := "/*a*/f(x);\nreturn;"
    let u := "//b\ng(y)\n\nreturn 1"
    ∃ root root', parse s = .ok root ∧ EndsInSemicolon s ∧ parse u = .ok root'
      ∧ 0 < ({} : Settings).depthLimit ∧ (∃ both, parse (joined s u) = .ok both)
      ∧ ∃ first second whole, toPython s = .ok first ∧ toPython u = .ok second
        ∧ toPython (joined s u) = .ok whole
        ∧ whole.diagnostics = first.diagnostics
          ++ second.diagnostics.map (Diagnostic.later (s.utf8ByteSize + 1))
        ∧ InTurn first.code second.code whole.code
        ∧ whole.code = "# a\nf(x)\nreturn\n# b\ng(y)\n\nreturn 1"
        ∧ whole.diagnostics.map (fun d => (d.start, d.stop)) = [(11, 18), (29, 37)] := by
  intro s u
  have hends : EndsInSemicolon s := by decide +kernel
  have hroot : (parse s).toOption.isSome = true := by decide +kernel
  have hroot' : (parse u).toOption.isSome = true := by decide +kernel
  obtain ⟨root, hroot⟩ := Option.isSome_iff_exists.mp hroot
  obtain ⟨root', hroot'⟩ := Option.isSome_iff_exists.mp hroot'
  have hlimit : 0 < ({} : Settings).depthLimit := by decide
  obtain ⟨hboth, first, second, whole, hfirst, hsecond, hwhole, hdiagnostics, hcode⟩ :=
    toPython_joined (eq_ok_of_toOption hroot) hends (eq_ok_of_toOption hroot') hlimit
  have hresult : (toPython (joined s u)).toOption.map (fun c =>
      (c.code, c.diagnostics.map fun d => (d.start, d.stop)))
        = some ("# a\nf(x)\nreturn\n# b\ng(y)\n\nreturn 1", [(11, 18), (29, 37)]) := by
    decide +kernel
  rw [hwhole] at hresult
  obtain ⟨hcodes, hplaces⟩ := Prod.mk.inj (Option.some.inj hresult)
  exact ⟨root, root', eq_ok_of_toOption hroot, hends, eq_ok_of_toOption hroot', hlimit, hboth, first,
    second, whole, hfirst, hsecond, hwhole, hdiagnostics, hcode, hcodes, hplaces⟩

end

end Target

end Transcode
