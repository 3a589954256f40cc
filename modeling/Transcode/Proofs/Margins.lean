import Mathlib.Data.List.TakeWhile
import Transcode.Proofs.CommentLines
import Transcode.Proofs.Firing
import Transcode.Proofs.Rekeying

/-!
# Writing at a margin

Once a fragment is written, the request that was pending before it is as it was, or it was applied
and none is left (`Sink.Settles`).  So where nothing was pending before, nothing is afterwards and
the indentation is the old one: a sink that is settled stays so (`Sink.Settled.writeLead`).  What
some fragments add to it depends on nothing but the indentations in force
(`Sink.Settled.buffer_eq`), and if the first of them opens with a character that shows, so does the
text (`textAt_opens`).  Stripping the ends of lines leaves such characters, and what comes before
them on their line, where they are (`stripped_append`).
-/

namespace Transcode.Text

/-- A text begins with a character that shows. -/
def BeginsWithInk (text : String) : Prop :=
  ∃ c cs, text.toList = c :: cs ∧ isBlank c = false

/-- It does so with anything behind it. -/
theorem BeginsWithInk.append {text : String} (h : BeginsWithInk text) (more : String) :
    BeginsWithInk (text ++ more) := by
  obtain ⟨c, cs, htext, hc⟩ := h
  exact ⟨c, cs ++ more.toList, by rw [String.toList_append, htext, List.cons_append], hc⟩

/-- It is not empty then. -/
theorem BeginsWithInk.ne_empty {text : String} (h : BeginsWithInk text) : text ≠ "" := by
  obtain ⟨c, cs, htext, -⟩ := h
  rintro rfl
  cases htext

end Transcode.Text

namespace Transcode.Output

open Text

/-! ### Requests -/

/-- What writing does to the requests of a sink: either none was applied and all is as it was, or
    one was and none is pending any more.  Then the indentation is as it was, or the request that
    was pending before is in force. -/
inductive Sink.Settles (s s' : Sink) : Prop
  | same : s'.applied = s.applied → s'.levels = s.levels → s'.pending = s.pending → Settles s s'
  | cleared : s.applied < s'.applied → s'.levels = s.levels → s'.pending = 0 → Settles s s'
  | raised : s.pending ≠ 0 → s.applied < s'.applied →
      s'.levels = (s.indentation + s.pending).toNat :: s.levels → s'.pending = 0 → Settles s s'

section

variable {s s' s'' : Sink}

/-- What is written in two parts applies a request at most once, too. -/
theorem Sink.Settles.trans (h : s.Settles s') (h' : s'.Settles s'') : s.Settles s'' := by
  have hindent : s'.levels = s.levels → s'.indentation = s.indentation := congrArg (List.headD · 0)
  cases h with
  | same ha hl hp =>
    cases h' with
    | same ha' hl' hp' => exact .same (ha'.trans ha) (hl'.trans hl) (hp'.trans hp)
    | cleared ha' hl' hp' => exact .cleared (by omega) (hl'.trans hl) hp'
    | raised hne ha' hl' hp' =>
      rw [hindent hl, hp, hl] at hl'
      exact .raised (hp ▸ hne) (by omega) hl' hp'
  | cleared ha hl hp =>
    cases h' with
    | same ha' hl' hp' => exact .cleared (by omega) (hl'.trans hl) (hp'.trans hp)
    | cleared ha' hl' hp' => exact .cleared (by omega) (hl'.trans hl) hp'
    | raised hne => exact absurd hp hne
  | raised hne ha hl hp =>
    cases h' with
    | same ha' hl' hp' => exact .raised hne (by omega) (hl'.trans hl) (hp'.trans hp)
    | cleared ha' hl' hp' => exact .raised hne (by omega) (hl'.trans hl) hp'
    | raised hne' => exact absurd hp hne'

/-- To apply what is pending is the least that writing does. -/
theorem settles_applyPending (s : Sink) : s.Settles s.applyPending := by
  rw [Sink.applyPending]
  split
  · exact .same rfl rfl rfl
  · rename_i hne
    exact .raised hne (Nat.lt_succ_self _) rfl rfl

/-- A request for another indentation is undone by putting the old one back. -/
theorem restore_of_ne {delta : Int} (h : delta ≠ 0) :
    s'.restore (s.request delta).2 = { s' with
      levels := s'.levels.drop (s'.levels.length - s.levels.length)
      pending := if s'.applied = s.applied then s.pending else 0 } :=
  if_pos (decide_eq_true h)

/-- Without the indentation that is new, if one is, the old ones are left. -/
theorem Sink.Settles.drop_levels (h : s.Settles s') :
    s'.levels.drop (s'.levels.length - s.levels.length) = s.levels := by
  cases h with
  | same _ hl _ | cleared _ hl _ => rw [hl, Nat.sub_self, List.drop_zero]
  | raised _ _ hl _ =>
    rw [hl, List.length_cons]
    exact congrArg (List.drop · _) (Nat.add_sub_cancel_left ..)

/-- A request that was applied in between leaves nothing behind when it is undone. -/
theorem settles_restore (delta : Int) (h : (s.request delta).1.Settles s') :
    s.Settles (s'.restore (s.request delta).2) := by
  by_cases hdelta : delta = 0
  · subst hdelta
    exact h
  · have hlevels := h.drop_levels
    rw [restore_of_ne hdelta]
    cases h with
    | same ha _ _ => exact .same ha hlevels (if_pos ha)
    | cleared ha _ _ | raised _ ha _ _ => exact .cleared ha hlevels (if_neg (Nat.ne_of_gt ha))

/-- Writing undoes the requests that it makes. -/
theorem respects_settles : Sink.Respects Sink.Settles where
  refl _ := .same rfl rfl rfl
  trans := .trans
  write s text := by
    rw [Sink.write]
    split
    · exact (settles_applyPending s).trans (.same rfl rfl rfl)
    · exact .same rfl rfl rfl
  recordKey s key := by
    cases key with
    | none => exact .same rfl rfl rfl
    | some key =>
      rw [Sink.recordKey]
      split <;> exact .same rfl rfl rfl
  restore := settles_restore

/-! ### Settled sinks -/

/-- Nothing hangs over in a sink: no request is pending, and what shows is part of the text. -/
structure Sink.Settled (levels : List Nat) (s : Sink) : Prop where
  levels : s.levels = levels
  pending : s.pending = 0
  ink_le : s.inkEnd ≤ s.buffer.utf8ByteSize

variable {levels : List Nat} {f : Fragment} {fs gs : List Fragment}

/-- What shows stays part of the text. -/
theorem respects_ink : Sink.Respects fun s s' =>
    s.inkEnd ≤ s.buffer.utf8ByteSize → s'.inkEnd ≤ s'.buffer.utf8ByteSize where
  refl _ := id
  trans h h' := h' ∘ h
  write s text h := by
    obtain ⟨more, hmore⟩ := grows_write (s := s) text
    have hink : (s.write text).inkEnd = (s.write text).buffer.utf8ByteSize
        ∨ (s.write text).inkEnd = s.inkEnd := by
      rw [Sink.write]
      cases hasInk text with
      | true => exact .inl rfl
      | false =>
        refine .inr ?_
        split
        · rw [Sink.applyPending]
          split <;> rfl
        · rfl
    rcases hink with hink | hink
    · exact Nat.le_of_eq hink
    · rw [hink, hmore, String.utf8ByteSize_append]
      omega
  recordKey s key h := by
    cases key with
    | none => exact h
    | some key =>
      rw [Sink.recordKey]
      split <;> exact h
  restore {s s'} delta h hs := by
    have hs' := h hs
    rw [buffer_restore, Sink.restore]
    split <;> exact hs'

/-- A sink without requests is settled. -/
theorem settled_new (levels : List Nat) : Sink.Settled levels { levels } :=
  ⟨rfl, rfl, Nat.le_refl _⟩

/-- It stays so while nothing but text is written. -/
theorem Sink.Settled.of_settles (h : s.Settled levels) (hsettles : s.Settles s')
    (hink : s'.inkEnd ≤ s'.buffer.utf8ByteSize) : s'.Settled levels := by
  cases hsettles with
  | same _ hl hp => exact ⟨hl.trans h.levels, hp.trans h.pending, hink⟩
  | cleared _ hl hp => exact ⟨hl.trans h.levels, hp, hink⟩
  | raised hne => exact absurd h.pending hne

/-- A sink that is settled stays so when something is written. -/
theorem Sink.Settled.writeLead (h : s.Settled levels) (fs : List Fragment) :
    (s.writeLead fs).Settled levels :=
  h.of_settles (respects_settles.writeLead s fs) (respects_ink.writeLead s fs h.ink_le)

/-! ### Texts at a margin -/

/-- What some fragments come to where the given indentations are in force. -/
def textAt (levels : List Nat) (fs : List Fragment) : String :=
  (Sink.writeLead { levels } fs).buffer

/-- What is added to a settled sink depends on the indentations alone, as long as no key is one that
    fired. -/
theorem Sink.Settled.buffer_mapKeys {ρ : String → String} (h : s.Settled levels)
    (hρ : Function.Injective ρ) (hfresh : ∀ key, ρ key ∉ s.fired) (fs : List Fragment) :
    (s.writeLead (mapKeysAll ρ fs)).buffer = s.buffer ++ textAt levels fs := by
  let past : Past := { text := s.buffer, ink := s.inkEnd, applied := s.applied, fired := s.fired }
  have hs : s = Sink.after { levels } past ρ := by
    obtain ⟨hlevels, hpending, -⟩ := h
    cases s
    cases hlevels
    cases hpending
    simp [Sink.after, past]
  have hpast : past.Apart ρ := ⟨hρ, hfresh, h.ink_le⟩
  have hwrite := writeLead_after hpast { levels } fs
  rw [← hs] at hwrite
  rw [hwrite]
  rfl

/-- What a settled sink gets is the text of the fragments, if no key has fired. -/
theorem Sink.Settled.buffer_eq (h : s.Settled levels) (hfired : s.fired = [])
    (fs : List Fragment) : (s.writeLead fs).buffer = s.buffer ++ textAt levels fs := by
  have hfresh : ∀ key, id key ∉ s.fired := fun _ => hfired ▸ List.not_mem_nil
  have hbuffer := h.buffer_mapKeys Function.injective_id hfresh fs
  rwa [mapKeysAll_id] at hbuffer

/-- No key fires where there is none. -/
theorem fired_writeLead_of_nil (h : keyedAll fs = []) (s : Sink) :
    (s.writeLead fs).fired = s.fired := by
  rw [Sink.fired_writeLead s fs (by rw [h]; exact List.forall_mem_nil _), h]
  rfl

/-- Fragments without keys come to the same wherever they stand. -/
theorem textAt_append (h : keyedAll fs = []) :
    textAt levels (fs ++ gs) = textAt levels fs ++ textAt levels gs := by
  rw [textAt, writeLead_append]
  exact ((settled_new levels).writeLead fs).buffer_eq (fired_writeLead_of_nil h _) gs

/-- The text of a fragment without keys stands before that of the others. -/
theorem textAt_cons (h : f.keyed = []) :
    textAt levels (f :: fs) = textAt levels [f] ++ textAt levels fs := by
  have hkeys : keyedAll [f] = [] := by
    rw [keyedAll, h]
    rfl
  exact textAt_append hkeys

/-- Line breaks are followed by the indentation. -/
theorem textAt_write (levels : List Nat) (content : String) :
    textAt levels [.text content]
      = String.ofList (Sink.indentBreaks (levels.headD 0) content.toList) := by
  have happly : ∀ b : Bool, (if b = true then Sink.applyPending { levels } else { levels })
      = { levels } := fun b => ite_self _
  rw [textAt, Sink.writeLead, Sink.writeFragment, Sink.writeLead, Sink.write, happly]
  exact String.empty_append

/-- A text without line breaks is written as it is. -/
theorem textAt_text {content : String} (hbreak : '\n' ∉ content.toList) :
    textAt levels [.text content] = content := by
  rw [textAt_write, Sink.indentBreaks_eq_self hbreak, String.ofList_toList]

/-- A line that is begun. -/
theorem textAt_break {line : String} (hbreak : '\n' ∉ line.toList) :
    textAt levels [.text ("\n" ++ line)] = "\n" ++ spaces (levels.headD 0) ++ line := by
  have hchars : ("\n" ++ line).toList = ['\n'] ++ line.toList := by simp
  rw [textAt_write, hchars, Sink.indentBreaks_append, Sink.indentBreaks_eq_self hbreak]
  simp [Sink.indentBreaks, spaces, String.append_assoc]

/-- Without a separator, a body is written as a lead is. -/
theorem writeBody_eq_writeLead {layout : Layout} (h : layout.separator = none) (m : Mark) :
    s.writeBody layout m fs = s.writeLead fs := by
  induction fs generalizing s m with
  | nil => rfl
  | cons f fs ih =>
    rw [Sink.writeBody, Sink.writeSeparator, h, Sink.writeLead]
    exact ih _

/-- A body on lines of its own begins with a line break, after which it is indented further. -/
theorem Sink.Settled.openBody {layout : Layout} (h : s.Settled levels)
    (hnewline : layout.newline = true) (hindent : layout.indent ≠ 0) :
    (s.openBody layout).1.Settled (((levels.headD 0 : Nat) + layout.indent).toNat :: levels)
      ∧ (s.openBody layout).1.buffer
        = s.buffer ++ "\n" ++ spaces ((levels.headD 0 : Nat) + layout.indent).toNat
      ∧ (s.openBody layout).1.fired = s.fired := by
  obtain ⟨hlevels, -, hink⟩ := h
  generalize hlevel : ((levels.headD 0 : Nat) + layout.indent).toNat = level
  -- The break after the request applies it.
  have hopen : (s.openBody layout).1 = { s with
      buffer := s.buffer ++ "\n" ++ spaces level
      levels := level :: levels
      pending := 0
      applied := s.applied + 1 } := by
    rw [Sink.openBody, hnewline, if_pos rfl]
    simp [Sink.newline, Sink.write, Sink.request, Sink.applyPending, Sink.indentation, hindent,
      Sink.indentBreaks, hasInk, isBlank, hlevels, ← hlevel, spaces, String.append_assoc]
  rw [hopen]
  refine ⟨⟨rfl, rfl, ?_⟩, rfl, rfl⟩
  show s.inkEnd ≤ (s.buffer ++ "\n" ++ spaces level).utf8ByteSize
  rw [String.append_assoc, String.utf8ByteSize_append]
  omega

/-- A body on lines of its own, which are indented further. -/
theorem textAt_body {layout : Layout} (hkey : layout.renderOnce = none)
    (hnewline : layout.newline = true) (hseparator : layout.separator = none)
    (hsuffix : layout.suffix = none) (hindent : layout.indent ≠ 0) (body : List Fragment) :
    textAt levels [.node [] body layout]
      = "\n" ++ spaces ((levels.headD 0 : Nat) + layout.indent).toNat
        ++ textAt (((levels.headD 0 : Nat) + layout.indent).toNat :: levels) body := by
  obtain ⟨hsettled, hbuffer, hfired⟩ := (settled_new levels).openBody hnewline hindent
  have hclose : ∀ (s : Sink) (r : Restore), (s.closeBody layout r).buffer = s.buffer := by
    intro s r
    rw [Sink.closeBody, Sink.writeSuffix, hsuffix]
    exact buffer_restore s r
  rw [textAt, Sink.writeLead, Sink.writeFragment, hkey]
  simp only [Sink.recordKey, Sink.writeLead, hclose, writeBody_eq_writeLead hseparator]
  rw [hsettled.buffer_eq hfired body, hbuffer]
  exact congrArg (· ++ _ ++ _) String.empty_append

/-! ### Beginnings -/

/-- The first thing that a fragment writes shows. -/
inductive Fragment.Opens : Fragment → Prop
  | text {content : String} : BeginsWithInk content → Opens (.text content)
  | lead {f : Fragment} {lead body : List Fragment} {layout : Layout} :
      layout.renderOnce = none ∨ (∃ content, f = .text content) → Opens f →
      Opens (.node (f :: lead) body layout)
  | body {f : Fragment} {body : List Fragment} {layout : Layout} :
      layout.renderOnce = none → layout.newline = false → Opens f →
      Opens (.node [] (f :: body) layout)

/-- What begins a line is not empty. -/
theorem Fragment.Opens.isEmpty (h : f.Opens) : f.isEmpty = false := by
  cases h with
  | text h => exact String.isEmpty_eq_false_iff.mpr h.ne_empty
  | lead | body => rfl

/-- A text is added with some indentation behind each of its line breaks. -/
theorem exists_buffer_write (s : Sink) (content : String) :
    ∃ k, (s.write content).buffer
      = s.buffer ++ String.ofList (Sink.indentBreaks k content.toList) := by
  rw [Sink.write]
  split
  · exact ⟨_, congrArg (· ++ _) (buffer_applyPending s)⟩
  · exact ⟨_, rfl⟩

/-- Indentation behind line breaks does not change how a text begins. -/
theorem beginsWithInk_indentBreaks {content : String} (h : BeginsWithInk content) (k : Nat) :
    BeginsWithInk (String.ofList (Sink.indentBreaks k content.toList)) := by
  obtain ⟨c, cs, hcontent, hc⟩ := h
  have hbreak : c ≠ '\n' := by
    rintro rfl
    cases hc
  refine ⟨c, Sink.indentBreaks k cs, ?_, hc⟩
  rw [String.toList_ofList, hcontent, Sink.indentBreaks, List.flatMap_cons, if_neg hbreak]
  rfl

/-- What opens shows at once, unless keys fired before. -/
theorem Fragment.Opens.exists_text (h : f.Opens) {s : Sink}
    (hink : s.inkEnd ≤ s.buffer.utf8ByteSize)
    (hfired : s.fired = [] ∨ ∃ content, f = .text content) :
    ∃ text, BeginsWithInk text ∧ (s.writeFragment f).buffer = s.buffer ++ text := by
  induction h generalizing s with
  | text h =>
    obtain ⟨k, hk⟩ := exists_buffer_write s _
    exact ⟨_, beginsWithInk_indentBreaks h k, hk⟩
  | @lead f lead body layout hkey hf ih =>
    have hnone : s.fired = [] := hfired.resolve_right nofun
    -- The key is new; below it, no other key comes up before the first text is written.
    obtain ⟨s', hrecord, hbuffer, hink', hfired'⟩ : ∃ s', s.recordKey layout.renderOnce = (s', true)
        ∧ s'.buffer = s.buffer ∧ s'.inkEnd ≤ s'.buffer.utf8ByteSize
        ∧ (s'.fired = [] ∨ ∃ content, f = .text content) := by
      cases hlayout : layout.renderOnce with
      | none => exact ⟨s, rfl, rfl, hink, .inl hnone⟩
      | some key =>
        have hnew : s.fired.contains key = false := by rw [hnone]; rfl
        refine ⟨{ s with fired := key :: s.fired }, ?_, rfl, hink, .inr (hkey.resolve_left ?_)⟩
        · rw [Sink.recordKey, hnew]
          rfl
        · rw [hlayout]
          exact nofun
    obtain ⟨text, htext, hwrite⟩ := ih hink' hfired'
    obtain ⟨more, hmore⟩ := (respects_grows.writeLead (s'.writeFragment f) lead).trans
      (respects_grows.closeBody _ layout (respects_grows.writeBody _ layout _ body))
    refine ⟨text ++ more, htext.append more, ?_⟩
    rw [Sink.writeFragment, hrecord]
    rw [hwrite, hbuffer, String.append_assoc] at hmore
    exact hmore
  | @body f body layout hkey hnewline hf ih =>
    have hnone : s.fired = [] := hfired.resolve_right nofun
    let s' := (s.request layout.indent).1
    have hopen : s.openBody layout = (s', (s.request layout.indent).2) := by
      rw [Sink.openBody, hnewline]
      rfl
    -- Nothing was written since the mark, so that no separator comes before the first fragment.
    have hseparator : s'.writeSeparator layout s'.mark = s' := by
      have hsince : s'.wroteSince s'.mark = false := decide_eq_false (Nat.not_lt.mpr hink)
      rw [Sink.writeSeparator]
      split
      · rw [hsince]
        rfl
      · rfl
    obtain ⟨text, htext, hwrite⟩ := ih (s := s') hink (.inl hnone)
    have hbody := respects_grows.writeBody (s'.writeFragment f) layout s'.mark body
    obtain ⟨more, hmore⟩ := hbody.trans (grows_closeBody layout (s.request layout.indent).2)
    refine ⟨text ++ more, htext.append more, ?_⟩
    rw [Sink.writeFragment, hkey]
    simp only [Sink.recordKey, Sink.writeLead, hopen, Sink.writeBody, hseparator]
    rw [hmore, hwrite, String.append_assoc]
    rfl

/-- What begins a line with a character that shows still does in front of others. -/
theorem textAt_opens (h : f.Opens) (levels : List Nat) (fs : List Fragment) :
    BeginsWithInk (textAt levels (f :: fs)) := by
  obtain ⟨text, htext, hwrite⟩ := h.exists_text (s := { levels }) (Nat.le_refl _) (.inl rfl)
  obtain ⟨more, hmore⟩ := respects_grows.writeLead (Sink.writeFragment { levels } f) fs
  rw [textAt, Sink.writeLead, hmore, hwrite]
  exact (htext.append more : BeginsWithInk ("" ++ text ++ more))

/-! ### Ends of lines -/

/-- A text without the spaces and tabs at the ends of its lines. -/
def stripped (text : String) : String :=
  String.ofList (Sink.stripLineEnds text.toList)

/-- Lists joined in two parts have a separator in between. -/
theorem intercalate_append {α : Type} (separator : List α) {as bs : List (List α)} (ha : as ≠ [])
    (hb : bs ≠ []) : separator.intercalate (as ++ bs)
      = separator.intercalate as ++ separator ++ separator.intercalate bs := by
  induction as with
  | nil => exact absurd rfl ha
  | cons a as ih =>
    cases as with
    | nil =>
      rw [List.singleton_append, List.intercalate_cons_of_ne_nil hb, List.intercalate_singleton]
    | cons a' as =>
      rw [List.cons_append,
        List.intercalate_cons_of_ne_nil (List.append_ne_nil_of_right_ne_nil _ hb),
        ih (List.cons_ne_nil _ _), List.intercalate_cons_cons]
      simp only [List.append_assoc]

/-- Lines are stripped each for itself. -/
theorem stripLineEnds_append_break (cs ds : List Char) :
    Sink.stripLineEnds (cs ++ '\n' :: ds)
      = Sink.stripLineEnds cs ++ '\n' :: Sink.stripLineEnds ds := by
  have hne : ∀ cs : List Char,
      (cs.splitOn '\n').map (dropEndWhile fun c => c == ' ' || c == '\t') ≠ [] := fun cs h =>
    List.splitOn_ne_nil '\n' cs (List.map_eq_nil_iff.mp h)
  rw [Sink.stripLineEnds, List.splitOn_append_cons_self, List.map_append,
    intercalate_append ['\n'] (hne cs) (hne ds), List.append_assoc]
  rfl

/-- Lines are stripped on both sides of a line break. -/
theorem stripped_break (a b : String) :
    stripped (a ++ "\n" ++ b) = stripped a ++ "\n" ++ stripped b := by
  have hchars : (a ++ "\n" ++ b).toList = a.toList ++ '\n' :: b.toList := by simp
  rw [stripped, hchars, stripLineEnds_append_break]
  simp [stripped, String.append_assoc]

/-- Text without line breaks belongs to the first line. -/
theorem splitOn_append {cs ds : List Char} (hbreak : '\n' ∉ cs) :
    (cs ++ ds).splitOn '\n' = (ds.splitOn '\n').modifyHead (cs ++ ·) := by
  obtain ⟨first, rest, hsplit⟩ := List.exists_cons_of_ne_nil (List.splitOn_ne_nil '\n' ds)
  induction cs with
  | nil =>
    rw [List.nil_append, hsplit]
    rfl
  | cons c cs ih =>
    have hne : (c == '\n') = false :=
      beq_eq_false_iff_ne.mpr (List.ne_of_not_mem_cons hbreak).symm
    rw [List.cons_append, List.splitOn_cons_eq_if_modifyHead, hne,
      ih (List.not_mem_of_not_mem_cons hbreak), hsplit]
    rfl

/-- A character that stays keeps what comes before it, -/
theorem dropEndWhile_cons {p : Char → Bool} {c : Char} (hc : p c = false) (cs : List Char) :
    dropEndWhile p (c :: cs) = c :: dropEndWhile p cs := by
  rw [dropEndWhile, dropEndWhile, List.reverse_cons, List.dropWhile_append]
  split
  · rename_i hnone
    rw [List.dropWhile_cons_of_neg (by rw [hc]; exact Bool.false_ne_true),
      List.isEmpty_iff.mp hnone]
    rfl
  · rw [List.reverse_append]
    rfl

/-- however much that is. -/
theorem dropEndWhile_append {p : Char → Bool} {c : Char} (hc : p c = false) (cs ds : List Char) :
    dropEndWhile p (cs ++ c :: ds) = cs ++ dropEndWhile p (c :: ds) := by
  have hne : ((c :: ds).reverse.dropWhile p).isEmpty = false := by
    rw [List.isEmpty_eq_false_iff, Ne, List.dropWhile_eq_nil_iff]
    intro hall
    have hpc := hall c (List.mem_reverse.mpr List.mem_cons_self)
    rw [hc] at hpc
    cases hpc
  rw [dropEndWhile, List.reverse_append, List.dropWhile_append, hne, if_neg Bool.false_ne_true,
    List.reverse_append, List.reverse_reverse, dropEndWhile]

/-- Characters on a line before one that shows are not at its end, and neither is that one. -/
theorem stripLineEnds_append {cs ds : List Char} {c : Char} (hbreak : '\n' ∉ cs)
    (hc : isBlank c = false) :
    Sink.stripLineEnds (cs ++ c :: ds) = cs ++ c :: Sink.stripLineEnds ds := by
  have hkept : (c == ' ' || c == '\t') = false := by
    rw [Bool.or_eq_false_iff, beq_eq_false_iff_ne, beq_eq_false_iff_ne]
    constructor <;> (rintro rfl; cases hc)
  have hne : (c == '\n') = false := by
    rw [beq_eq_false_iff_ne]
    rintro rfl
    cases hc
  obtain ⟨first, rest, hsplit⟩ := List.exists_cons_of_ne_nil (List.splitOn_ne_nil '\n' ds)
  have hline : (cs ++ c :: ds).splitOn '\n' = (cs ++ c :: first) :: rest := by
    rw [splitOn_append hbreak, List.splitOn_cons_eq_if_modifyHead, hne, hsplit]
    rfl
  rw [Sink.stripLineEnds, Sink.stripLineEnds, hline, hsplit, List.map_cons, List.map_cons,
    dropEndWhile_append hkept, dropEndWhile_cons hkept]
  cases rest with
  | nil => rw [List.map_nil, List.intercalate_singleton, List.intercalate_singleton]
  | cons line rest =>
    rw [List.map_cons, List.intercalate_cons_cons, List.intercalate_cons_cons]
    simp only [List.append_assoc, List.cons_append]

/-- A character that shows is stripped nowhere. -/
theorem stripLineEnds_cons {c : Char} (hc : isBlank c = false) (cs : List Char) :
    Sink.stripLineEnds (c :: cs) = c :: Sink.stripLineEnds cs :=
  stripLineEnds_append List.not_mem_nil hc

/-- Text on one line is not stripped before a character that shows. -/
theorem stripped_append {a b : String} (ha : '\n' ∉ a.toList) (hb : BeginsWithInk b) :
    stripped (a ++ b) = a ++ stripped b := by
  obtain ⟨c, cs, hchars, hc⟩ := hb
  rw [stripped, String.toList_append, hchars, stripLineEnds_append ha hc, stripped, hchars,
    stripLineEnds_cons hc, String.ofList_append, String.ofList_toList]

/-- Of spaces alone nothing is left. -/
theorem stripped_spaces (k : Nat) : stripped (spaces k) = "" := by
  have hbreak : '\n' ∉ List.replicate k ' ' := by simp [List.mem_replicate]
  have hdrop : (List.replicate k ' ').dropWhile (fun c => c == ' ' || c == '\t') = [] := by simp
  rw [stripped, spaces, String.toList_ofList, Sink.stripLineEnds, List.splitOn_eq_singleton hbreak,
    List.map_singleton, dropEndWhile, List.reverse_replicate, hdrop]
  rfl

/-- What begins a text stays there if it shows. -/
theorem beginsWithInk_stripped {text : String} (h : BeginsWithInk text) :
    BeginsWithInk (stripped text) := by
  obtain ⟨c, cs, hchars, hc⟩ := h
  refine ⟨c, Sink.stripLineEnds cs, ?_, hc⟩
  rw [stripped, hchars, stripLineEnds_cons hc, String.toList_ofList]

/-- A colon at the end is still there when the lines are stripped. -/
theorem exists_stripLineEnds_append (cs : List Char) :
    ∃ ds, Sink.stripLineEnds (cs ++ [':']) = ds ++ [':'] := by
  by_cases hbreak : '\n' ∈ cs
  · obtain ⟨before, after, rfl⟩ := List.append_of_mem hbreak
    obtain ⟨ds, hds⟩ := exists_stripLineEnds_append after
    refine ⟨Sink.stripLineEnds before ++ '\n' :: ds, ?_⟩
    rw [List.append_assoc, List.cons_append, stripLineEnds_append_break, hds, List.append_assoc,
      List.cons_append]
  · refine ⟨cs, ?_⟩
    rw [stripLineEnds_append hbreak (by decide)]
    rfl
termination_by cs.length
decreasing_by
  rw [‹cs = before ++ '\n' :: after›, List.length_append, List.length_cons]
  omega

/-- A colon at the end of a text stays there. -/
theorem exists_stripped_append (a : String) : ∃ b, stripped (a ++ ":") = b ++ ":" := by
  obtain ⟨ds, hds⟩ := exists_stripLineEnds_append a.toList
  refine ⟨String.ofList ds, ?_⟩
  rw [stripped, String.toList_append]
  exact (congrArg String.ofList hds).trans String.ofList_append

end

end Transcode.Output
