import Transcode.Proofs.Visits

namespace Transcode.Engine

open Output Trivia

/-!
# What programs come to

A program that looks at nothing of a run but the context (`Program.Lexical`) has a meaning without
the run: `p.value? merge answer c` is what it ends with under the context `c`, given what its
requests come to.  They may come to nothing, and then so does the program.

For a backend whose programs are all of this sort, the output of a node is a function of the
context and of the levels that are left (`Backend.output?`), in which one chooses what becomes of a
node that nests too deep: its text, or nothing.  It is the output of the run
(`Backend.convert_of_output?`, `Backend.output?_of_visits`).
-/

variable {κ C Q R α β : Type}

namespace Program

/-- What a program ends with under a context, given what its requests come to. -/
def value? (merge : C → C → C) (answer : C → Q → Option Tree) :
    {α : Type} → Program Q C α → C → Option α
  | _, .pure value, _ => some value
  | _, .call request next, c => (answer c request).bind fun t => (next t).value? merge answer c
  | _, .within update body next, c =>
    (body.value? merge answer (merge c update)).bind fun b => (next b).value? merge answer c
  | _, .observe next, c => (next ⟨c, 0, 0⟩).value? merge answer c
  | _, .report _ next, c => next.value? merge answer c

/-- The program looks at no more of a run than the context. -/
def Lexical : {α : Type} → Program Q C α → Prop
  | _, .pure _ => True
  | _, .call _ next => ∀ t, (next t).Lexical
  | _, .within _ body next => body.Lexical ∧ ∀ b, (next b).Lexical
  | _, .observe next =>
    (∀ v, (next v).Lexical) ∧ ∀ v v' : View C, v.context = v'.context → next v = next v'
  | _, .report _ next => next.Lexical

variable {merge : C → C → C} {answer : C → Q → Option Tree} {c : C}

/-! ### One program after another -/

/-- The value of a program is what the next one goes on with. -/
@[simp] theorem value?_bind {p : Program Q C α} {f : α → Program Q C β} :
    (p >>= f).value? merge answer c
      = (p.value? merge answer c).bind fun a => (f a).value? merge answer c := by
  change (p.bind f).value? merge answer c = _
  induction p generalizing c with
  | pure a => rfl
  | call request next ih => simp only [bind, value?, ih, Option.bind_assoc]
  | within update body next _ ih => simp only [bind, value?, ih, Option.bind_assoc]
  | observe next ih => exact ih _
  | report entry next ih => exact ih

/-- A program that is done has its value. -/
@[simp] theorem value?_pure {a : α} :
    (Pure.pure a : Program Q C α).value? merge answer c = some a := rfl

/-- Programs that look at the context only do so one after the other. -/
theorem lexical_bind {p : Program Q C α} {f : α → Program Q C β} (h : p.Lexical)
    (hf : ∀ a, (f a).Lexical) : (p >>= f).Lexical := by
  change (p.bind f).Lexical
  induction p with
  | pure a => exact hf a
  | call request next ih => exact fun t => ih t (h t) hf
  | within update body next _ ih => exact ⟨h.1, fun b => ih b (h.2 b) hf⟩
  | observe next ih =>
    exact ⟨fun v => ih v (h.1 v) hf, fun v v' hv => congrArg (·.bind f) (h.2 v v' hv)⟩
  | report entry next ih => exact ih h hf

/-- What is done to a value looks at nothing. -/
theorem Lexical.map {p : Program Q C α} {f : α → β} (h : p.Lexical) :
    (p >>= fun a => Pure.pure (f a) : Program Q C β).Lexical :=
  lexical_bind h fun _ => trivial

/-- Requests in other words have the answers of those. -/
@[simp] theorem value?_mapRequests {f : R → Q} {p : Program R C α} :
    (p.mapRequests f).value? merge answer c
      = p.value? merge (fun c request => answer c (f request)) c := by
  induction p generalizing c with
  | pure a => rfl
  | call request next ih => simp only [mapRequests, value?, ih]
  | within update body next ihBody ih => simp only [mapRequests, value?, ihBody, ih]
  | observe next ih => exact ih _
  | report entry next ih => exact ih

/-- In other words requests are still requests. -/
theorem Lexical.mapRequests {f : R → Q} {p : Program R C α} (h : p.Lexical) :
    (p.mapRequests f : Program Q C α).Lexical := by
  induction p with
  | pure a => exact trivial
  | call request next ih => exact fun t => ih t (h t)
  | within update body next ihBody ih => exact ⟨ihBody h.1, fun b => ih b (h.2 b)⟩
  | observe next ih =>
    exact ⟨fun v => ih v (h.1 v), fun v v' hv => congrArg (·.mapRequests f) (h.2 v v' hv)⟩
  | report entry next ih => exact ih h

/-! ### Services -/

/-- A request has the value it is answered with. -/
@[simp] theorem value?_ask {request : Q} :
    (ask request).value? merge answer c = answer c request :=
  Option.bind_fun_some _

/-- Under an update a program has the value it has under both contexts merged. -/
@[simp] theorem value?_under {update : C} {body : Program Q C α} :
    (under update body).value? merge answer c = body.value? merge answer (merge c update) :=
  Option.bind_fun_some _

/-- To look at the context is to have it. -/
@[simp] theorem value?_context : (context : Program Q C C).value? merge answer c = some c := rfl

/-- A report comes to nothing. -/
@[simp] theorem value?_record {entry : Diagnostic} :
    (record entry : Program Q C Unit).value? merge answer c = some () := rfl

/-- Requests for the items of a list have one answer each. -/
@[simp] theorem value?_askAll {ι : Type} {request : ι → Q} {items : List ι} :
    (askAll request items).value? merge answer c = items.mapM fun i => answer c (request i) := by
  induction items with
  | nil => rfl
  | cons i items ih => simp only [askAll, value?_bind, value?_ask, ih, List.mapM_cons]; rfl

/-- A request looks at nothing. -/
theorem lexical_ask {request : Q} : (ask request : Program Q C Tree).Lexical :=
  fun _ => trivial

/-- A program under an update looks at the context that it has there. -/
theorem Lexical.under {update : C} {body : Program Q C α} (h : body.Lexical) :
    (under update body).Lexical :=
  ⟨h, fun _ => trivial⟩

/-- To look at the context is to look at no more, -/
theorem lexical_context : (context : Program Q C C).Lexical :=
  ⟨fun _ => trivial, fun _ _ h => congrArg Program.pure h⟩

/-- and a report looks at nothing. -/
theorem lexical_record {entry : Diagnostic} : (record entry : Program Q C Unit).Lexical :=
  trivial

/-- Neither do requests in order. -/
theorem lexical_askAll {ι : Type} {request : ι → Q} {items : List ι} :
    (askAll request items : Program Q C (List Tree)).Lexical := by
  induction items with
  | nil => exact trivial
  | cons i items ih =>
    exact lexical_bind lexical_ask fun t => ih.map

/-! ### Values and runs -/

/-- If every request comes to something, so does the program. -/
theorem isSome_value? {p : Program Q C α} (h : ∀ c request, (answer c request).isSome = true) :
    (p.value? merge answer c).isSome = true := by
  induction p generalizing c with
  | pure a => rfl
  | call request next ih =>
    obtain ⟨t, ht⟩ := Option.isSome_iff_exists.mp (h c request)
    rw [value?, ht]
    exact ih t
  | within update body next ihBody ih =>
    obtain ⟨b, hb⟩ := Option.isSome_iff_exists.mp (ihBody (c := merge c update))
    rw [value?, hb]
    exact ih b
  | observe next ih => exact ih _
  | report entry next ih => exact ih

/-- What a program ensures holds of its value. -/
theorem Ensures.of_value? {spec : C → Q → Tree → Prop} {p : Program Q C α} {post : α → Prop} {a : α}
    (h : p.Ensures merge spec c post)
    (hspec : ∀ c request t, answer c request = some t → spec c request t)
    (ha : p.value? merge answer c = some a) : post a := by
  induction p generalizing c with
  | pure b => exact Option.some.inj ha ▸ h
  | call request next ih =>
    obtain ⟨t, ht, ha⟩ := Option.bind_eq_some_iff.mp ha
    exact ih t (h t (hspec c request t ht)) ha
  | within update body next ihBody ih =>
    obtain ⟨b, hb, ha⟩ := Option.bind_eq_some_iff.mp ha
    exact ih b (ihBody h hb) ha
  | observe next ih => exact ih _ (h ⟨c, 0, 0⟩ rfl) ha
  | report entry next ih => exact ih h ha

/-- With more requests answered, a program ends with the same value. -/
theorem value?_mono {answer' : C → Q → Option Tree} {p : Program Q C α} {a : α}
    (h : ∀ c request t, answer c request = some t → answer' c request = some t)
    (ha : p.value? merge answer c = some a) : p.value? merge answer' c = some a := by
  induction p generalizing c with
  | pure b => exact ha
  | call request next ih =>
    obtain ⟨t, ht, ha⟩ := Option.bind_eq_some_iff.mp ha
    exact Option.bind_eq_some_iff.mpr ⟨t, h c request t ht, ih t ha⟩
  | within update body next ihBody ih =>
    obtain ⟨b, hb, ha⟩ := Option.bind_eq_some_iff.mp ha
    exact Option.bind_eq_some_iff.mpr ⟨b, ihBody hb, ih b ha⟩
  | observe next ih => exact ih _ ha
  | report entry next ih => exact ih ha

/-- A value is reached in the steps that the program goes through. -/
theorem Follows.of_value? {answer : C → Request κ → Option Tree} {p : Program (Request κ) C α}
    {steps : List (Step κ C)} {post : α → Prop} {a : α} (h : p.Follows merge c steps post)
    (ha : p.value? merge answer c = some a) : post a := by
  induction p generalizing c steps with
  | pure b => exact Option.some.inj ha ▸ h.2
  | call request next ih =>
    obtain ⟨t, -, hvalue⟩ := Option.bind_eq_some_iff.mp ha
    cases request with
    | convert n =>
      obtain ⟨rest, -, hnext⟩ := h
      exact ih t (hnext t) hvalue
    | comment span => exact ih t (h t) hvalue
  | within update body next ihBody ih =>
    obtain ⟨b, hb, ha⟩ := Option.bind_eq_some_iff.mp ha
    obtain ⟨first, rest, -, hbody⟩ := h
    exact ih b (ihBody hbody hb) ha
  | observe next ih => exact ih _ (h ⟨c, 0, 0⟩ rfl) ha
  | report entry next ih =>
    obtain ⟨rest, -, hnext⟩ := h
    exact ih hnext ha

/-- What has a value ends with it when it is run, if the answers are what the requests come to. -/
theorem Lexical.run_eq {respond : Q → StateM (State C) Tree} {p : Program Q C α} {a : α}
    {s : State C} (h : p.Lexical)
    (hextends : ∀ request (s : State C), s.Extends (respond request s).2)
    (hrespond : ∀ request (s : State C) t,
      answer s.contexts.top request = some t → (respond request s).1 = t)
    (ha : p.value? merge answer s.contexts.top = some a) : (p.run respond merge s).1 = a := by
  induction p generalizing s with
  | pure b => exact Option.some.inj ha
  | call request next ih =>
    obtain ⟨t, ht, ha⟩ := Option.bind_eq_some_iff.mp ha
    obtain rfl := hrespond request s t ht
    refine ih _ (h _) ?_
    rwa [(hextends request s).top_eq]
  | within update body next ihBody ih =>
    obtain ⟨b, hb, ha⟩ := Option.bind_eq_some_iff.mp ha
    obtain rfl := ihBody (s := (s.pushContext merge update).1) h.1 hb
    have hback := extends_within hextends merge update body s
    refine ih _ (h.2 _) ?_
    rwa [hback.top_eq]
  | observe next ih =>
    have hview := h.2 ⟨s.contexts.top, 0, 0⟩ s.view rfl
    rw [value?, hview] at ha
    exact ih _ (h.1 _) ha
  | report entry next ih => exact ih (s := s.record entry) h ha

/-- A program has a value, if all requests that it makes when it is run come to something. -/
theorem Lexical.isSome_value? {respond : Q → StateM (State C) Tree} {p : Program Q C α}
    {s : State C} (h : p.Lexical)
    (hextends : ∀ request (s : State C), s.Extends (respond request s).2)
    (hrespond : ∀ request (s : State C) t,
      answer s.contexts.top request = some t → (respond request s).1 = t)
    (hasked : ∀ a ∈ p.asked respond merge s,
      (answer a.state.contexts.top a.request).isSome = true) :
    (p.value? merge answer s.contexts.top).isSome = true := by
  induction p generalizing s with
  | pure a => rfl
  | call request next ih =>
    obtain ⟨hfirst, hrest⟩ := List.forall_mem_cons.mp hasked
    obtain ⟨t, ht⟩ := Option.isSome_iff_exists.mp hfirst
    rw [value?, ht, Option.bind_some, ← hrespond request s t ht, ← (hextends request s).top_eq]
    exact ih _ (h _) hrest
  | within update body next ihBody ih =>
    obtain ⟨hbody, hnext⟩ := List.forall_mem_append.mp hasked
    obtain ⟨b, hb⟩ := Option.isSome_iff_exists.mp
      (ihBody (s := (s.pushContext merge update).1) h.1 hbody)
    have hrun := h.1.run_eq hextends hrespond hb
    have hback := extends_within hextends merge update body s
    have hvalue := ih _ (h.2 _) hnext
    rw [hback.top_eq, hrun] at hvalue
    change body.value? merge answer (merge s.contexts.top update) = some b at hb
    rwa [value?, hb]
  | observe next ih =>
    have hview := h.2 ⟨s.contexts.top, 0, 0⟩ s.view rfl
    rw [value?, hview]
    exact ih _ (h.1 _) hasked
  | report entry next ih => exact ih (s := s.record entry) h hasked

end Program

/-! ### Leading comments -/

/-- Comments are asked for by their place in the source, -/
theorem lexical_leadingPieces {source : String} {seen owes : Bool} {spans : List Span} :
    (leadingPieces source seen owes spans : Program Span C (List Fragment)).Lexical := by
  induction spans generalizing seen owes with
  | nil => exact trivial
  | cons span rest ih =>
    rw [leadingPieces]
    split
    · split
      · refine Program.lexical_bind ih fun later => ?_
        split <;> exact trivial
      · exact ih
    · exact Program.lexical_bind Program.lexical_ask fun t =>
        Program.lexical_bind ih fun _ => trivial

/-- and so are all comments before a node. -/
theorem lexical_attachLeadingTrivia (source : String) (n : Node κ) (output : Tree) :
    (attachLeadingTrivia source n output : Program Span C Tree).Lexical :=
  Program.lexical_bind lexical_leadingPieces fun pieces => by
    split <;> exact trivial

/-! ### Outputs -/

namespace Backend

variable [Named κ] (backend : Backend κ C) (job : Job)

/-- The programs of the backend look at no more of a run than the context. -/
structure Lexical : Prop where
  comment : ∀ span, (backend.comment job span).Lexical
  dispatch : ∀ n, (backend.dispatch job n).Lexical

/-- What a comment comes to. -/
def comment? (c : C) (span : Span) : Option Tree :=
  (backend.comment job span).value? backend.merge (fun _ => nofun) c

/-- What a request comes to, given what nodes do. -/
def answer? (output : C → Node κ → Option Tree) (c : C) : Request κ → Option Tree
  | .convert n => output c n
  | .comment span => backend.comment? job c span

/-- What an output comes to when it is finished. -/
def finish? (c : C) (n : Node κ) (output : Tree) : Option Tree :=
  if output.wantsComments && !output.isEmpty then
    (attachLeadingTrivia job.source n output).value? backend.merge (backend.comment? job) c
  else some output

/-- The output of a node under a context, with so many levels of conversions left.  A node that
    nests too deep comes to what `refused` says. -/
def output? (refused : Node κ → Option Tree) : Nat → C → Node κ → Option Tree
  | 0, _, n => refused n
  | left + 1, c, n =>
    ((backend.dispatch job n).value? backend.merge
      (backend.answer? job (output? refused left)) c).bind (backend.finish? job c n)

variable {backend job} {refused : Node κ → Option Tree}

/-- The output of a node is that of its conversion, if what refused nodes come to is their text. -/
theorem convert_of_output? (hlexical : backend.Lexical job)
    (hrefused : ∀ n t, refused n = some t → t = .ofText (n.textIn job.source))
    {left : Nat} {n : Node κ} {s : State C} {t : Tree}
    (ht : backend.output? job refused left s.contexts.top n = some t) :
    (backend.convert job left n s).1 = t := by
  induction left generalizing n s t with
  | zero => exact (hrefused n t ht).symm
  | succ left ih =>
    have hcomment : ∀ span (s : State C) t, backend.comment? job s.contexts.top span = some t →
        (backend.answerComment job span s).1 = t := fun span s t h =>
      (hlexical.comment span).run_eq nofun nofun h
    obtain ⟨output, houtput, hfinish⟩ := Option.bind_eq_some_iff.mp ht
    have hextends := backend.extends_answer job (backend.extends_convert job left)
    have hdispatch := (hlexical.dispatch n).run_eq (s := s.visit) hextends
      (fun request s t h => match request with
        | .convert m => ih h
        | .comment span => hcomment span s t h) houtput
    have htop :=
      (Program.extends_run hextends backend.merge (backend.dispatch job n) s.visit).top_eq
    rw [convert]
    simp only [finishNode]
    rw [finish?] at hfinish
    rw [hdispatch]
    split
    · rename_i hasks
      rw [if_pos hasks] at hfinish
      refine (lexical_attachLeadingTrivia job.source n output).run_eq
        (backend.extends_answerComment job) hcomment ?_
      rw [htop]
      exact hfinish
    · rename_i hasks
      rw [if_neg hasks] at hfinish
      exact Option.some.inj hfinish

omit [Named κ] in
/-- Comments have values, as there is nothing to answer. -/
theorem isSome_comment? (c : C) (span : Span) : (backend.comment? job c span).isSome = true :=
  Program.isSome_value? fun _ => nofun

omit [Named κ] in
/-- So has an output with the comments before it. -/
theorem isSome_finish? (c : C) (n : Node κ) (output : Tree) :
    (backend.finish? job c n output).isSome = true := by
  rw [finish?]
  split
  · exact Program.isSome_value? isSome_comment?
  · rfl

/-- With nothing refused, every node has an output. -/
theorem isSome_output? (hrefused : ∀ n, (refused n).isSome = true) (left : Nat) (c : C)
    (n : Node κ) : (backend.output? job refused left c n).isSome = true := by
  induction left generalizing c n with
  | zero => exact hrefused n
  | succ left ih =>
    have hanswer : ∀ c request,
        (backend.answer? job (backend.output? job refused left) c request).isSome = true :=
      fun c request =>
        match request with
        | .convert m => ih c m
        | .comment span => isSome_comment? c span
    have hdispatch : ((backend.dispatch job n).value? backend.merge
        (backend.answer? job (backend.output? job refused left)) c).isSome = true :=
      Program.isSome_value? hanswer
    obtain ⟨output, houtput⟩ := Option.isSome_iff_exists.mp hdispatch
    rw [output?, houtput]
    exact isSome_finish? c n output

/-- An output that takes no refused nodes is the same with more levels left. -/
theorem output?_mono {left left' : Nat} {c : C} {n : Node κ} {t : Tree} (hleft : left ≤ left')
    (ht : backend.output? job (fun _ => none) left c n = some t) :
    backend.output? job (fun _ => none) left' c n = some t := by
  induction left generalizing left' c n t with
  | zero => cases ht
  | succ left ih =>
    obtain ⟨more, rfl⟩ : ∃ more, left' = more + 1 := ⟨left' - 1, by omega⟩
    obtain ⟨output, houtput, hfinish⟩ := Option.bind_eq_some_iff.mp ht
    refine Option.bind_eq_some_iff.mpr
      ⟨output, Program.value?_mono (fun c request t h => ?_) houtput, hfinish⟩
    cases request with
    | convert m => exact ih (Nat.le_of_succ_le_succ hleft) h
    | comment span => exact h

/-- If the conversions of a node nest within the limit, it has an output with everything refused
    that does not. -/
theorem output?_of_visits (hlexical : backend.Lexical job) {left : Nat} {n : Node κ} {s : State C}
    (h : ∀ v ∈ backend.visits job left n s, v.left ≠ 0) :
    backend.output? job (fun _ => none) left s.contexts.top n
      = some (backend.convert job left n s).1 := by
  have hrefused : ∀ (n : Node κ) (t : Tree), none = some t → t = .ofText (n.textIn job.source) :=
    fun _ _ => nofun
  -- It is enough that there is an output: what it is follows by `convert_of_output?`.
  have hsome : (backend.output? job (fun _ => none) left s.contexts.top n).isSome = true := by
    induction left generalizing n s with
    | zero => exact absurd rfl (h _ List.mem_cons_self)
    | succ left ih =>
      obtain ⟨-, hbelow⟩ := List.forall_mem_cons.mp h
      have hextends := backend.extends_answer job (backend.extends_convert job left)
      have hrespond : ∀ request (s : State C) t,
          backend.answer? job (backend.output? job (fun _ => none) left) s.contexts.top request
            = some t → (backend.answer job (backend.convert job left) request s).1 = t :=
        fun request s t ht =>
          match request with
          | .convert m => convert_of_output? hlexical hrefused ht
          | .comment span => (hlexical.comment span).run_eq nofun nofun ht
      have hdispatch := (hlexical.dispatch n).isSome_value? (s := s.visit) hextends hrespond
        (fun a ha => by
          cases hrequest : a.request with
          | convert m =>
            refine ih fun v hv => hbelow v (List.mem_flatMap.mpr ⟨a, ha, ?_⟩)
            rwa [Asked.ofNode, hrequest]
          | comment span => exact isSome_comment? _ span)
      obtain ⟨output, houtput⟩ := Option.isSome_iff_exists.mp hdispatch
      rw [output?]
      show ((Program.value? backend.merge _ (backend.dispatch job n) s.visit.contexts.top).bind
        _).isSome = true
      rw [houtput]
      exact isSome_finish? _ n output
  obtain ⟨t, ht⟩ := Option.isSome_iff_exists.mp hsome
  rw [ht, convert_of_output? hlexical hrefused ht]

omit [Named κ] in
/-- The value of a comment is what it may be rendered as. -/
theorem renders_of_comment? {c : C} {span : Span} {t : Tree}
    (h : backend.comment? job c span = some t) : backend.Renders job c span t := fun _ hpost =>
  hpost.of_value? (fun _ => nofun) h

/-- A relation holds between nodes and their outputs, if it does for nodes that nest too deep and is
    preserved by what the backend does with all others. -/
theorem output?_satisfies {R : C → Node κ → Tree → Prop}
    (hrefuse : ∀ c n t, refused n = some t → R c n t)
    (hstep : ∀ c n, (backend.dispatch job n).Ensures backend.merge (backend.Answers job R) c
      (backend.Finishes job n c (R c n)))
    {left : Nat} {c : C} {n : Node κ} {t : Tree}
    (ht : backend.output? job refused left c n = some t) : R c n t := by
  induction left generalizing c n t with
  | zero => exact hrefuse c n t ht
  | succ left ih =>
    have hanswers : ∀ c request t,
        backend.answer? job (backend.output? job refused left) c request = some t →
          backend.Answers job R c request t := fun c request t hrequest =>
      match request with
      | .convert m => ih hrequest
      | .comment span => renders_of_comment? hrequest
    obtain ⟨output, houtput, hfinish⟩ := Option.bind_eq_some_iff.mp ht
    have hfinishes := (hstep c n).of_value? hanswers houtput
    rw [Finishes] at hfinishes
    rw [finish?] at hfinish
    split at hfinish
    · rename_i hasks
      rw [if_pos hasks] at hfinishes
      exact hfinishes.of_value? (fun _ _ _ => renders_of_comment?) hfinish
    · rename_i hasks
      rw [if_neg hasks] at hfinishes
      exact Option.some.inj hfinish ▸ hfinishes

/-- A run ends with the output of its root. -/
theorem convertRoot_of_output? (hlexical : backend.Lexical job)
    (hrefused : ∀ n t, refused n = some t → t = .ofText (n.textIn job.source))
    {root : Node κ} {t : Tree}
    (ht : backend.output? job refused job.settings.depthLimit backend.initial root = some t) :
    ∃ outcome, backend.convertRoot job root = .ok outcome ∧ outcome.tree = t := by
  have hextends := backend.extends_convert job job.settings.depthLimit root
    { contexts := { root := backend.initial } }
  have hdepth := congrArg (1 + List.length ·) hextends.pushed
  exact ⟨_, if_pos hdepth, convert_of_output? hlexical hrefused ht⟩

/-- A run that nests within the limit has an output with everything refused that does not. -/
theorem NestsWithin.exists_output? (hlexical : backend.Lexical job) {root : Node κ}
    (h : backend.NestsWithin job root) :
    ∃ t, backend.output? job (fun _ => none) job.settings.depthLimit backend.initial root
      = some t :=
  ⟨_, output?_of_visits hlexical h⟩

end Backend

end Transcode.Engine
