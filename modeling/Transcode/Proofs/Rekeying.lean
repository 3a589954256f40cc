import Mathlib.Data.List.Basic
import Transcode.Output.Render

namespace Transcode.Output

open Text

/-!
# Writing after something else, under other keys

What a tree comes to in a sink depends on what was written before only through the indentation and
the keys that fired.  `s.after past ρ` is the sink `s` with `past` put before it and its keys
renamed by `ρ`.  Writing a tree with renamed keys to it is writing the tree to `s`
(`writeFragment_after`), as long as no two keys become one and none becomes a key of the past.
-/

/-! ### Renaming keys -/

/-- A layout with its key renamed. -/
def Layout.mapKeys (ρ : String → String) (layout : Layout) : Layout :=
  { layout with renderOnce := layout.renderOnce.map ρ }

mutual

/-- A fragment with its keys renamed. -/
def Fragment.mapKeys (ρ : String → String) : Fragment → Fragment
  | .text content => .text content
  | .node lead body layout => .node (mapKeysAll ρ lead) (mapKeysAll ρ body) (layout.mapKeys ρ)

/-- Some fragments with their keys renamed. -/
def mapKeysAll (ρ : String → String) : List Fragment → List Fragment
  | [] => []
  | f :: rest => f.mapKeys ρ :: mapKeysAll ρ rest

end

/-- A tree with its keys renamed. -/
def Tree.mapKeys (ρ : String → String) (t : Tree) : Tree :=
  ⟨mapKeysAll ρ t.lead, mapKeysAll ρ t.body, t.layout.mapKeys ρ⟩

section

variable {ρ : String → String} {fs gs : List Fragment} {t : Tree}

@[simp] theorem mapKeysAll_nil : mapKeysAll ρ [] = [] := rfl

@[simp] theorem mapKeysAll_cons {f : Fragment} :
    mapKeysAll ρ (f :: fs) = f.mapKeys ρ :: mapKeysAll ρ fs := rfl

@[simp] theorem mapKeys_text {content : String} :
    (Fragment.text content).mapKeys ρ = .text content := rfl

@[simp] theorem mapKeys_toFragment : t.toFragment.mapKeys ρ = (t.mapKeys ρ).toFragment := rfl

/-- The keys of fragments are changed one by one. -/
theorem mapKeysAll_eq_map : mapKeysAll ρ fs = fs.map (·.mapKeys ρ) := by
  induction fs with
  | nil => rfl
  | cons f fs ih => rw [mapKeysAll_cons, ih, List.map_cons]

/-- Fragments in a row are changed one after the other. -/
@[simp] theorem mapKeysAll_append :
    mapKeysAll ρ (fs ++ gs) = mapKeysAll ρ fs ++ mapKeysAll ρ gs := by
  simp only [mapKeysAll_eq_map, List.map_append]

/-- No fragment comes or goes, -/
@[simp] theorem isEmpty_mapKeysAll : (mapKeysAll ρ fs).isEmpty = fs.isEmpty := by
  cases fs <;> rfl

/-- Keys are nothing that shows. -/
@[simp] theorem Tree.isEmpty_mapKeys : (t.mapKeys ρ).isEmpty = t.isEmpty := by
  simp only [Tree.isEmpty, Tree.mapKeys, isEmpty_mapKeysAll]
  rfl

/-- none becomes empty, -/
@[simp] theorem Fragment.isEmpty_mapKeys {f : Fragment} : (f.mapKeys ρ).isEmpty = f.isEmpty := by
  cases f with
  | text content => rfl
  | node lead body layout => exact Tree.isEmpty_mapKeys (t := ⟨lead, body, layout⟩)

/-- and the same ones are left out. -/
@[simp] theorem nonempty_mapKeysAll : nonempty (mapKeysAll ρ fs) = mapKeysAll ρ (nonempty fs) := by
  induction fs with
  | nil => rfl
  | cons f fs ih =>
    cases hf : f.isEmpty with
    | true =>
      rw [mapKeysAll_cons, nonempty_cons_of_isEmpty hf,
        nonempty_cons_of_isEmpty (Fragment.isEmpty_mapKeys.trans hf), ih]
    | false =>
      rw [mapKeysAll_cons, nonempty_cons hf, nonempty_cons (Fragment.isEmpty_mapKeys.trans hf), ih,
        mapKeysAll_cons]

@[simp] theorem Tree.mapKeys_empty : Tree.empty.mapKeys ρ = .empty := rfl

/-- To change the keys of a tree when it is built or before comes to the same. -/
@[simp] theorem Tree.mapKeys_ofFragments :
    (Tree.ofFragments fs).mapKeys ρ = .ofFragments (mapKeysAll ρ fs) := by
  rw [Tree.ofFragments, Tree.ofFragments, nonempty_mapKeysAll]
  rfl

@[simp] theorem Tree.mapKeys_ofText {content : String} :
    (Tree.ofText content).mapKeys ρ = .ofText content :=
  Tree.mapKeys_ofFragments

@[simp] theorem Tree.mapKeys_withBody :
    (t.withBody fs).mapKeys ρ = (t.mapKeys ρ).withBody (mapKeysAll ρ fs) := by
  rw [Tree.withBody, Tree.withBody, nonempty_mapKeysAll]
  rfl

@[simp] theorem Tree.mapKeys_withNewline :
    t.withNewline.mapKeys ρ = (t.mapKeys ρ).withNewline := rfl

@[simp] theorem Tree.mapKeys_withIndent {spaces : Int} :
    (t.withIndent spaces).mapKeys ρ = (t.mapKeys ρ).withIndent spaces := rfl

@[simp] theorem Tree.mapKeys_withSeparator {separator : String} :
    (t.withSeparator separator).mapKeys ρ = (t.mapKeys ρ).withSeparator separator := rfl

@[simp] theorem Tree.mapKeys_withSuffix {suffix : String} :
    (t.withSuffix suffix).mapKeys ρ = (t.mapKeys ρ).withSuffix suffix := rfl

@[simp] theorem Tree.mapKeys_withComments :
    t.withComments.mapKeys ρ = (t.mapKeys ρ).withComments := rfl

/-- The key of a tree itself is changed too. -/
@[simp] theorem Tree.mapKeys_withKey {key : String} :
    (t.withKey key).mapKeys ρ = (t.mapKeys ρ).withKey (ρ key) := rfl

/-- Whether a tree asks for comments does not depend on its keys. -/
@[simp] theorem Tree.wantsComments_mapKeys :
    (t.mapKeys ρ).wantsComments = t.wantsComments := rfl

end

mutual

/-- Keys that are renamed to themselves. -/
theorem mapKeys_id (f : Fragment) : f.mapKeys id = f := by
  match f with
  | .text content => rfl
  | .node lead body layout =>
    rw [Fragment.mapKeys, mapKeysAll_id, mapKeysAll_id, Layout.mapKeys, Option.map_id_apply]

/-- Where every key stays, fragments stay as they are, -/
theorem mapKeysAll_id (fs : List Fragment) : mapKeysAll id fs = fs := by
  match fs with
  | [] => rfl
  | f :: rest => rw [mapKeysAll_cons, mapKeys_id, mapKeysAll_id]

end

/-- and so do trees. -/
theorem Tree.mapKeys_id {t : Tree} : t.mapKeys id = t := by
  rw [mapKeys, mapKeysAll_id, mapKeysAll_id, Layout.mapKeys, Option.map_id_apply]

/-! ### What was written before -/

/-- What was written to a sink before: the text, the end of what shows in it, the requests that
    were applied and the keys that fired. -/
structure Past where
  text : String := ""
  ink : Nat := 0
  applied : Nat := 0
  fired : List String := []

/-- What was written before and the renamed keys have nothing to do with each other. -/
structure Past.Apart (past : Past) (ρ : String → String) : Prop where
  injective : Function.Injective ρ
  fresh : ∀ key, ρ key ∉ past.fired
  ink_le : past.ink ≤ past.text.utf8ByteSize

namespace Sink

variable {past : Past} {ρ : String → String} {s : Sink}

/-- The sink with something before it and its keys renamed. -/
def after (s : Sink) (past : Past) (ρ : String → String) : Sink where
  buffer := past.text ++ s.buffer
  levels := s.levels
  pending := s.pending
  applied := past.applied + s.applied
  inkEnd := if s.inkEnd = 0 then past.ink else past.text.utf8ByteSize + s.inkEnd
  fired := s.fired.map ρ ++ past.fired

/-- What was written before leaves the indentation as it is, -/
@[simp] theorem indentation_after : (s.after past ρ).indentation = s.indentation := rfl

/-- and the request too. -/
@[simp] theorem pending_after : (s.after past ρ).pending = s.pending := rfl

/-- So the request is applied in the same way. -/
theorem after_applyPending : (s.after past ρ).applyPending = s.applyPending.after past ρ := by
  by_cases h : s.pending = 0
  · rw [applyPending, pending_after, if_pos h, applyPending, if_pos h]
  · rw [applyPending, pending_after, if_neg h, applyPending, if_neg h]
    rfl

/-- The sink with some characters more, which may show something. -/
def add (s : Sink) (shows : Bool) (added : String) : Sink :=
  { s with
    buffer := s.buffer ++ added
    inkEnd := if shows then (s.buffer ++ added).utf8ByteSize else s.inkEnd }

/-- To write is to apply the request and add the text, with line breaks indented. -/
theorem write_eq_add (s : Sink) (text : String) :
    s.write text =
      let s := if text.toList.contains '\n' then s.applyPending else s
      s.add (hasInk text) (String.ofList (indentBreaks s.indentation text.toList)) := rfl

/-- To add text after other text is to add it and put the other text in front. -/
theorem after_add {shows : Bool} {added : String} (h : shows = true → added ≠ "") :
    (s.after past ρ).add shows added = (s.add shows added).after past ρ := by
  cases shows with
  | false => simp [add, after, String.append_assoc]
  | true =>
    have hsize : s.buffer.utf8ByteSize + added.utf8ByteSize ≠ 0 := fun hzero =>
      h rfl (String.utf8ByteSize_eq_zero_iff.mp (Nat.eq_zero_of_add_eq_zero_left hzero))
    simp only [add, after, if_true, String.append_assoc, String.utf8ByteSize_append, if_neg hsize]

/-- Text that shows is not empty once it is indented. -/
theorem ne_empty_of_hasInk {spaces : Nat} {text : String} (h : hasInk text = true) :
    String.ofList (indentBreaks spaces text.toList) ≠ "" := by
  intro hempty
  rw [String.ofList_eq_empty_iff] at hempty
  cases htext : text.toList with
  | nil => simp [hasInk, htext] at h
  | cons c cs =>
    rw [htext, indentBreaks, List.flatMap_cons] at hempty
    split at hempty <;> simp at hempty

/-- Text is written in the same way after other text, -/
theorem after_write (text : String) :
    (s.after past ρ).write text = (s.write text).after past ρ := by
  rw [write_eq_add, write_eq_add]
  cases text.toList.contains '\n' with
  | true =>
    simp only [if_true, after_applyPending, indentation_after]
    exact after_add ne_empty_of_hasInk
  | false =>
    simp only [Bool.false_eq_true, if_false, indentation_after]
    exact after_add ne_empty_of_hasInk

/-- a mark is further on by that text, -/
theorem mark_after : (s.after past ρ).mark = ⟨past.text.utf8ByteSize + s.mark.offset⟩ := by
  simp [mark, after]

/-- what shows since a mark is the same, -/
theorem wroteSince_after (h : past.Apart ρ) (m : Mark) :
    (s.after past ρ).wroteSince ⟨past.text.utf8ByteSize + m.offset⟩ = s.wroteSince m := by
  have hink := h.ink_le
  rw [wroteSince, wroteSince, decide_eq_decide]
  show past.text.utf8ByteSize + m.offset
    < (if s.inkEnd = 0 then past.ink else past.text.utf8ByteSize + s.inkEnd) ↔ _
  split <;> omega

/-- and so a separator is written in the same cases. -/
theorem after_writeSeparator (h : past.Apart ρ) (layout : Layout) (m : Mark) :
    (s.after past ρ).writeSeparator (layout.mapKeys ρ) ⟨past.text.utf8ByteSize + m.offset⟩
      = (s.writeSeparator layout m).after past ρ := by
  have hsame : (layout.mapKeys ρ).separator = layout.separator := rfl
  rw [writeSeparator, writeSeparator, hsame]
  cases layout.separator with
  | none => rfl
  | some separator =>
    simp only [wroteSince_after h, after_write]
    split <;> rfl

/-- What undoes a request, when something was written before. -/
def Restore.after (r : Restore) (past : Past) : Restore :=
  { r with applied := past.applied + r.applied }

/-- A request is given back in the same way. -/
theorem after_restore (r : Restore) :
    (s.after past ρ).restore (Restore.after r past) = (s.restore r).after past ρ := by
  rw [restore, restore]
  show (if r.active = true then _ else _) = _
  split
  · simp [after, Restore.after]
  · rfl

/-- The body of a tree is opened in the same way, -/
theorem after_openBody (layout : Layout) :
    (s.after past ρ).openBody (layout.mapKeys ρ)
      = ((s.openBody layout).1.after past ρ, Restore.after (s.openBody layout).2 past) := by
  rw [openBody, openBody]
  show ((if layout.newline = true then _ else _), _) = _
  split
  · exact Prod.ext (after_write (s := (s.request layout.indent).1) "\n") rfl
  · rfl

/-- and closed in the same way. -/
theorem after_closeBody (layout : Layout) (r : Restore) :
    (s.after past ρ).closeBody (layout.mapKeys ρ) (Restore.after r past)
      = (s.closeBody layout r).after past ρ := by
  have hsame : (layout.mapKeys ρ).suffix = layout.suffix := rfl
  rw [closeBody, closeBody, after_restore, writeSuffix, writeSuffix, hsame]
  cases layout.suffix with
  | none => rfl
  | some suffix => exact after_write suffix

/-- A key fires in the same cases, as no key before is among the new ones. -/
theorem after_recordKey (h : past.Apart ρ) (key : Option String) :
    (s.after past ρ).recordKey (key.map ρ)
      = ((s.recordKey key).1.after past ρ, (s.recordKey key).2) := by
  cases key with
  | none => rfl
  | some key =>
    have hmem : (s.after past ρ).fired.contains (ρ key) = s.fired.contains key := by
      rw [Bool.eq_iff_iff, List.contains_iff_mem, List.contains_iff_mem]
      show ρ key ∈ s.fired.map ρ ++ past.fired ↔ _
      rw [List.mem_append, or_iff_left (h.fresh key), List.mem_map_of_injective h.injective]
    rw [Option.map_some, recordKey, recordKey, hmem]
    split <;> rfl

end Sink

/-! ### Writing with renamed keys -/

variable {past : Past} {ρ : String → String}

mutual

/-- Writing a fragment after something else, under other keys, is writing it. -/
theorem writeFragment_after (h : past.Apart ρ) (s : Sink) (f : Fragment) :
    (s.after past ρ).writeFragment (f.mapKeys ρ) = (s.writeFragment f).after past ρ := by
  match f with
  | .text content => exact Sink.after_write content
  | .node lead body layout =>
    rw [Fragment.mapKeys, Sink.writeFragment, Sink.writeFragment]
    show (match (s.after past ρ).recordKey (layout.renderOnce.map ρ) with
      | (s, false) => s
      | (s, true) => _) = _
    rw [Sink.after_recordKey h]
    rcases s.recordKey layout.renderOnce with ⟨s, _ | _⟩
    · rfl
    · simp only [writeLead_after h, Sink.after_openBody, Sink.mark_after, writeBody_after h,
        Sink.after_closeBody]

/-- What a tree begins with is written in the same way, -/
theorem writeLead_after (h : past.Apart ρ) (s : Sink) (fs : List Fragment) :
    (s.after past ρ).writeLead (mapKeysAll ρ fs) = (s.writeLead fs).after past ρ := by
  match fs with
  | [] => rfl
  | f :: rest => rw [mapKeysAll_cons, Sink.writeLead, Sink.writeLead, writeFragment_after h,
      writeLead_after h]

/-- and so is its body. -/
theorem writeBody_after (h : past.Apart ρ) (s : Sink) (layout : Layout) (m : Mark)
    (fs : List Fragment) :
    (s.after past ρ).writeBody (layout.mapKeys ρ) ⟨past.text.utf8ByteSize + m.offset⟩
        (mapKeysAll ρ fs)
      = (s.writeBody layout m fs).after past ρ := by
  match fs with
  | [] => rfl
  | f :: rest =>
    simp only [mapKeysAll_cons, Sink.writeBody, Sink.after_writeSeparator h, Sink.mark_after,
      writeFragment_after h, writeBody_after h]

end

/-- Renaming keys makes no difference to what a tree is rendered as. -/
theorem render_mapKeys (hρ : Function.Injective ρ) (t : Tree) :
    render (t.mapKeys ρ) = render t := by
  have hapart : Past.Apart {} ρ := ⟨hρ, fun _ => List.not_mem_nil, Nat.zero_le _⟩
  have hwrite := writeFragment_after hapart {} t.toFragment
  have hbuffer := congrArg Sink.buffer hwrite
  have hempty : (Sink.after {} {} ρ).writeFragment (t.toFragment.mapKeys ρ)
      = Sink.writeTree {} (t.mapKeys ρ) := rfl
  rw [hempty] at hbuffer
  rw [render, render, Sink.finish, Sink.finish, hbuffer]
  exact congrArg (fun text => String.ofList (Sink.stripLineEnds (String.toList text)))
    String.empty_append

end Transcode.Output
