import MiniLisp.Diagnostic
import MiniLisp.Proofs.Evaluation.OwnSymbols
import MiniLisp.Proofs.Evaluation.Wording
import MiniLisp.Proofs.Excerpts
import MiniLisp.Proofs.Number.Text

/-!
# What is printed

Values whose symbols correspond are printed alike if corresponding symbols have the same name; so
places in them are the same, and so is everything that a diagnostic shows. In particular the text of
a value depends on the names of the symbols that occur in it and of the marks that every table
starts with, and on no other names. If these names have no line feed in them, neither has anything
that is printed: a string is printed with its line feeds escaped, and a diagnostic has a line for
each of its parts.
Main statements: `chars_renamed`, `diagnose_renamed`, `newline_notMem_chars`,
`newline_notMem_diagnose`, `newline_notMem_readDiagnose`.
-/

namespace MiniLisp

section

variable {ρ : Renaming} {names names' : Naming} (h : ∀ s t, ρ.rel s t → names s = names' t)
include h

namespace Value

theorem symbolText_renamed {s t : Symbol} (hs : ρ.rel s t) :
    symbolText names s = symbolText names' t := by
  rw [symbolText, symbolText, Naming.nameOf, Naming.nameOf, h s t hs]

theorem paramsText_renamed {p q : ParamList Symbol} (hp : p.Rel ρ.rel q) :
    paramsText names p = paramsText names' q := by
  have hnames : p.symbols.map (symbolText names) = q.symbols.map (symbolText names') := by
    rw [← List.forall₂_eq_eq_eq, List.forall₂_map_left_iff, List.forall₂_map_right_iff]
    exact hp.symbols.imp fun _ _ => symbolText_renamed h
  rw [paramsText, paramsText, hnames]

omit h

mutual

/-- Corresponding values are printed alike, if corresponding symbols have the same name. -/
theorem chars_renamed (h : ∀ s t, ρ.rel s t → names s = names' t) {v w : Value}
    (hv : v.Renamed ρ w) : v.chars names = w.chars names' := by
  match v, hv with
  | .bool _, .bool _ => simp only [chars]
  | .number _, .number _ => simp only [chars]
  | .string _, .string _ => simp only [chars]
  | .symbol _, .symbol hs =>
    simp only [chars]
    exact symbolText_renamed h hs
  | .list [], .list .nil => simp only [chars]
  | .list (_ :: _), .list (.cons hfirst hrest) =>
    simp only [chars, chars_renamed h hfirst, tailChars_renamed h hrest]
  | .special _, .special _ => simp only [chars]
  | .native _, .native _ => simp only [chars]
  | .procedure kind _ _, .procedure _ hparams hbody =>
    -- the mark in front is no part of the value, but every table has it
    have hhead : ρ.rel kind.head kind.head := ρ.reserved _ (by cases kind <;> decide)
    simp only [chars, symbolText_renamed h hhead, paramsText_renamed h hparams,
      tailChars_renamed h hbody]

theorem tailChars_renamed (h : ∀ s t, ρ.rel s t → names s = names' t) {vs ws : List Value}
    (hvs : List.Forall₂ (Value.Renamed ρ) vs ws) : tailChars names vs = tailChars names' ws := by
  match vs, hvs with
  | [], .nil => simp only [tailChars]
  | _ :: _, .cons hfirst hrest =>
    simp only [tailChars, chars_renamed h hfirst, tailChars_renamed h hrest]

end

theorem split?_renamed {v w : Value} (hv : v.Renamed ρ w) (i : Int) :
    Option.Rel (fun a b => List.Forall₂ (Value.Renamed ρ) a.1 b.1 ∧ a.2.1.Renamed ρ b.2.1 ∧
      List.Forall₂ (Value.Renamed ρ) a.2.2 b.2.2) (v.split? i) (w.split? i) := by
  cases hv with
  | @list vs ws hvs =>
    have hdrop := List.forall₂_drop i.toNat hvs
    unfold split?
    dsimp only
    split
    · exact .none
    · generalize vs.drop i.toNat = after at hdrop
      generalize ws.drop i.toNat = after' at hdrop
      cases hdrop with
      | nil => exact .none
      | cons hfirst hrest => exact .some ⟨List.forall₂_take i.toNat hvs, hfirst, hrest⟩
  | _ => exact .none

end Value

theorem leadingChars_renamed {vs ws : List Value} (hvs : List.Forall₂ (Value.Renamed ρ) vs ws) :
    leadingChars names vs = leadingChars names' ws := by
  induction hvs with
  | nil => rfl
  | cons hv _ ih =>
    simp only [leadingChars, List.flatMap_cons] at ih ⊢
    rw [Value.chars_renamed h hv, ih]

/-- Corresponding parts have the same place. -/
theorem locate_renamed {v w : Value} (hv : v.Renamed ρ w) (path : Path) :
    locate names v path = locate names' w path := by
  induction path generalizing v w with
  | nil => rw [locate, locate, Value.chars_renamed h hv]
  | cons i path ih =>
    have hsplit := Value.split?_renamed hv i
    rw [locate, locate]
    generalize v.split? i = parts at hsplit
    generalize w.split? i = parts' at hsplit
    cases hsplit with
    | none => simp only [Value.chars_renamed h hv]
    | some hparts =>
      obtain ⟨hbefore, hpart, hafter⟩ := hparts
      simp only [ih hpart, leadingChars_renamed h hbefore, Value.tailChars_renamed h hafter]

theorem excerpts_renamed {d e : EvalError}
    (hframes : List.Forall₂ (Frame.Renamed ρ) d.frames e.frames) :
    d.excerpts names = e.excerpts names' := by
  rw [EvalError.excerpts, EvalError.excerpts, EvalError.backtrace, EvalError.backtrace,
    ← List.forall₂_eq_eq_eq, List.forall₂_map_left_iff, List.forall₂_map_right_iff]
  refine (List.rel_reverse hframes).imp fun f g hfg => ?_
  rw [locate_renamed h hfg.form, hfg.path, hfg.label]

omit h in
theorem message_renamed {cause cause' : EvalCause} (hcause : cause.Renamed ρ cause') :
    cause.message = cause'.message ∧ cause.isInternal = cause'.isInternal := by
  cases hcause with
  | notApplicable _ _ => exact ⟨rfl, rfl⟩
  | same _ _ => exact ⟨rfl, rfl⟩

theorem diagnose_renamed {d e : EvalError} (hde : d.Renamed ρ e) (limit : Int) :
    d.diagnose names limit = e.diagnose names' limit := by
  obtain ⟨hmessage, hinternal⟩ := message_renamed hde.cause
  rw [EvalError.diagnose, EvalError.diagnose, hmessage, hinternal, excerpts_renamed h hde.frames]

end

section

variable {names names' : Naming} {P : Symbol → Prop} (h : ∀ s, OrReserved P s → names s = names' s)
include h

theorem names_eq_of_diagonal :
    ∀ s t, (Renaming.diagonal (OrReserved P) fun _ => .inr).rel s t → names s = names' t := by
  rintro s _ ⟨rfl, hs⟩
  exact h s hs

theorem Value.chars_congr {v : Value} (hv : v.MadeOf P) : v.chars names = v.chars names' :=
  chars_renamed (names_eq_of_diagonal h) (over_of_madeOf hv.orReserved)

theorem diagnose_congr {e : EvalError} (he : ∀ f ∈ e.frames, f.form.MadeOf P) (limit : Int) :
    e.diagnose names limit = e.diagnose names' limit := by
  have hframes : List.Forall₂ (Frame.Renamed (.diagonal (OrReserved P) fun _ => .inr)) e.frames
      e.frames := List.forall₂_same.mpr fun f hf =>
    ⟨Value.over_of_madeOf (he f hf).orReserved, rfl, rfl⟩
  rw [EvalError.diagnose, EvalError.diagnose,
    excerpts_renamed (names_eq_of_diagonal h) hframes]

end

-- a string literal unifies with the string of its characters, and `decide` looks at these
theorem newline_notMem_literal {cs : List Char} (h : '\n' ∉ cs) :
    '\n' ∉ (String.ofList cs).toList := by
  rwa [String.toList_ofList]

theorem newline_notMem_append {a b : String} (ha : '\n' ∉ a.toList) (hb : '\n' ∉ b.toList) :
    '\n' ∉ (a ++ b).toList := by
  rw [String.toList_append, List.mem_append]
  exact not_or.mpr ⟨ha, hb⟩

theorem newline_notMem_spaced {css : List (List Char)} (h : ∀ cs ∈ css, '\n' ∉ cs) :
    '\n' ∉ Text.spaced css := by
  induction css with
  | nil => exact List.not_mem_nil
  | cons cs css ih =>
    obtain ⟨hfirst, hrest⟩ := List.forall_mem_cons.mp h
    cases css with
    | nil => exact hfirst
    | cons ds css =>
      rw [Text.spaced_cons_cons, List.mem_append, List.mem_cons]
      rintro (hmem | hmem | hmem)
      · exact hfirst hmem
      · cases hmem
      · exact ih hrest hmem

theorem newline_notMem_stringLiteral (cs : List Char) : '\n' ∉ Text.stringLiteral cs := by
  have hescape : ∀ c, '\n' ∉ Text.escape c := by
    intro c
    unfold Text.escape
    split
    · rename_i m hm
      intro hmem
      simp only [List.mem_cons, List.not_mem_nil, or_false] at hmem
      rcases hmem with hmem | hmem
      · cases hmem
      · -- the mark of an escape stands for what was escaped, and a line feed stands for nothing
        have hback := Text.unescape?_escapeMark? c m hm
        rw [← hmem] at hback
        cases hback
    · rename_i hnone
      rw [List.mem_singleton]
      intro heq
      exact ((Text.escapeMark?_eq_none_iff c).mp hnone).2.2.1 heq.symm
  intro hmem
  rcases List.mem_cons.mp hmem with hmem | hmem
  · cases hmem
  · rcases List.mem_append.mp hmem with hmem | hmem
    · obtain ⟨c, _, hc⟩ := List.mem_flatMap.mp hmem
      exact hescape c hc
    · cases List.mem_singleton.mp hmem

theorem newline_notMem_numberText (x : Float) : '\n' ∉ Number.text x := by
  cases hx : x.isNaN with
  | true =>
    rw [Number.isNaN_iff] at hx
    simp only [Number.text, hx, ite_true]
    decide
  | false =>
    obtain ⟨l, hl, _⟩ := Number.literal?_text x hx
    intro hmem
    exact absurd (Number.numberChars_of_literal? hl _ hmem) (by decide)

theorem newline_notMem_natText (n : Nat) : '\n' ∉ (toString n).toList := by
  have htext : (toString n).toList = Nat.toDigits 10 n := by
    simp only [toString, Nat.toList_repr]
  rw [htext]
  intro hmem
  exact absurd (Number.allDigits_toDigits n _ hmem) (by decide)

theorem newline_notMem_intText (n : Int) : '\n' ∉ (toString n).toList := by
  cases n with
  | ofNat m => exact newline_notMem_natText m
  | negSucc m =>
    exact newline_notMem_append (newline_notMem_literal (by decide))
      (newline_notMem_natText (m + 1))

theorem newline_notMem_specialName (f : SpecialForm) : '\n' ∉ f.name.toList := by
  cases f <;> exact newline_notMem_literal (by decide)

theorem newline_notMem_describe {p : ParamList String}
    (hpositional : ∀ name ∈ p.positional, '\n' ∉ name.toList)
    (hrest : ∀ name ∈ p.rest, '\n' ∉ name.toList) : '\n' ∉ p.describe.toList := by
  obtain ⟨positional, rest⟩ := p
  rw [ParamList.describe, String.toList_ofList]
  simp only [List.cons_append, List.mem_cons, List.mem_append, List.not_mem_nil, or_false,
    Char.reduceEq, false_or]
  refine newline_notMem_spaced fun cs hcs => ?_
  obtain ⟨name, hname, rfl⟩ := List.mem_map.mp hcs
  rcases List.mem_append.mp hname with hname | hname
  · exact hpositional name hname
  · cases rest with
    | none => cases hname
    | some r =>
      rcases List.mem_cons.mp hname with rfl | hname
      · exact newline_notMem_literal (by decide)
      · rw [List.mem_singleton.mp hname]
        exact hrest r rfl

theorem newline_notMem_nativeDescription (n : Native) : '\n' ∉ n.describe.toList := by
  have hname : '\n' ∉ n.name.toList := by
    cases n <;> exact newline_notMem_literal (by decide)
  refine newline_notMem_append (newline_notMem_append hname (newline_notMem_literal (by decide)))
    (newline_notMem_describe ?_ ?_)
  · cases n <;> decide
  · cases n <;> decide

theorem newline_notMem_excerptLines {x : Excerpt} (htext : '\n' ∉ x.text)
    (hlabel : ∀ label ∈ x.label, '\n' ∉ label.toList) : ∀ line ∈ x.lines, '\n' ∉ line := by
  intro line hmem
  rcases List.mem_append.mp hmem with hmem | hmem
  · cases hl : x.label with
    | none =>
      rw [hl] at hmem
      cases hmem
    | some label =>
      rw [hl] at hmem
      simp only at hmem
      split at hmem
      · cases hmem
      · rw [List.mem_singleton.mp hmem, List.mem_cons, not_or]
        exact ⟨by decide, hlabel label hl⟩
  · simp only [List.mem_cons, List.not_mem_nil, or_false] at hmem
    rcases hmem with rfl | rfl
    · simp only [List.mem_cons, Char.reduceEq, false_or]
      exact htext
    · simp only [Excerpt.carets, List.mem_cons, List.mem_append, List.mem_replicate, Char.reduceEq,
        and_false, or_self, not_false_eq_true]

theorem newline_notMem_titled {d : Diagnostic} (h : '\n' ∉ d.message.toList) :
    '\n' ∉ (d.title ++ d.message).toList := by
  refine newline_notMem_append ?_ h
  unfold Diagnostic.title
  split <;> exact newline_notMem_literal (by decide)

/-- What is shown of a source is a part of one of its lines. -/
theorem newline_notMem_readDiagnose (e : ReadError) (source : String) :
    ∀ line ∈ (e.diagnose source).lines, '\n' ∉ line := by
  have hmessage : '\n' ∉ e.cause.message.toList := by
    cases e.cause <;> exact newline_notMem_literal (by decide)
  cases hspan : e.span with
  | none =>
    simp only [ReadError.diagnose, hspan, Option.map_none, Diagnostic.ofSource, Diagnostic.plain,
      Diagnostic.lines, List.flatMap_nil, List.mem_singleton, forall_eq]
    exact newline_notMem_titled hmessage
  | some span =>
    simp only [ReadError.diagnose, hspan, Option.map_some, Diagnostic.ofSource, Diagnostic.lines,
      List.flatMap_cons, List.flatMap_nil, List.append_nil, List.forall_mem_cons]
    refine ⟨newline_notMem_titled hmessage, newline_notMem_excerptLines ?_ fun label hlabel => ?_⟩
    · simp only [Excerpt.ofLine, List.mem_append, List.mem_reverse, not_or]
      exact ⟨newline_notMem_takeWhile _, newline_notMem_takeWhile _⟩
    · cases hlabel

section

variable {names : Naming} {P : Symbol → Prop}
  (hline : ∀ s, OrReserved P s → '\n' ∉ (names.nameOf s).toList)
include hline

theorem newline_notMem_paramsText {p : ParamList Symbol} (hp : p.MadeOf P) :
    '\n' ∉ Value.paramsText names p := by
  have hspaced : '\n' ∉ Text.spaced (p.symbols.map (Value.symbolText names)) := by
    refine newline_notMem_spaced fun cs hcs => ?_
    obtain ⟨s, hs, rfl⟩ := List.mem_map.mp hcs
    exact hline s (hp.symbols s hs)
  simp only [Value.paramsText, List.cons_append, List.mem_cons, List.mem_append, List.not_mem_nil,
    or_false, Char.reduceEq, false_or]
  exact hspaced

omit hline

mutual

theorem newline_notMem_chars (hline : ∀ s, OrReserved P s → '\n' ∉ (names.nameOf s).toList)
    {v : Value} (hv : v.MadeOf P) : '\n' ∉ v.chars names := by
  match v with
  | .bool b => cases b <;> simp only [Value.chars] <;> decide
  | .number x =>
    simp only [Value.chars]
    exact newline_notMem_numberText x
  | .string s =>
    simp only [Value.chars]
    exact newline_notMem_stringLiteral s.toList
  | .symbol s =>
    simp only [Value.chars]
    exact hline s (.inl (Value.madeOf_symbol_iff.mp hv))
  | .list [] =>
    simp only [Value.chars]
    decide
  | .list (v :: vs) =>
    obtain ⟨hfirst, hrest⟩ := List.forall_mem_cons.mp (Value.madeOf_list_iff.mp hv)
    simp only [Value.chars, List.cons_append, List.mem_cons, List.mem_append, List.not_mem_nil,
      or_false, Char.reduceEq, false_or, not_or]
    exact ⟨newline_notMem_chars hline hfirst, newline_notMem_tailChars hline hrest⟩
  | .special f =>
    simp only [Value.chars, Value.specialText]
    exact newline_notMem_append (newline_notMem_append (newline_notMem_literal (by decide))
      (newline_notMem_specialName f)) (newline_notMem_literal (by decide))
  | .native n =>
    simp only [Value.chars, Value.nativeText]
    exact newline_notMem_append (newline_notMem_append (newline_notMem_literal (by decide))
      (newline_notMem_nativeDescription n)) (newline_notMem_literal (by decide))
  | .procedure kind params body =>
    obtain ⟨hparams, hbody⟩ := Value.madeOf_procedure_iff.mp hv
    have hhead : OrReserved P kind.head := .inr (by cases kind <;> decide)
    simp only [Value.chars, List.cons_append, List.mem_cons, List.mem_append, List.not_mem_nil,
      or_false, Char.reduceEq, false_or, not_or]
    exact ⟨⟨hline _ hhead, newline_notMem_paramsText hline hparams⟩,
      newline_notMem_tailChars hline hbody⟩

theorem newline_notMem_tailChars (hline : ∀ s, OrReserved P s → '\n' ∉ (names.nameOf s).toList)
    {vs : List Value} (hvs : ∀ v ∈ vs, v.MadeOf P) : '\n' ∉ Value.tailChars names vs := by
  match vs with
  | [] =>
    simp only [Value.tailChars]
    exact List.not_mem_nil
  | v :: vs =>
    obtain ⟨hfirst, hrest⟩ := List.forall_mem_cons.mp hvs
    simp only [Value.tailChars, List.cons_append, List.mem_cons, List.mem_append, Char.reduceEq,
      false_or, not_or]
    exact ⟨newline_notMem_chars hline hfirst, newline_notMem_tailChars hline hrest⟩

end

include hline

theorem newline_notMem_called {called : Option String} (h : CalledIn names P called) :
    ∀ name ∈ called, '\n' ∉ name.toList := by
  intro name hname
  obtain ⟨s, hs, hnames⟩ := h name hname
  have hown := hline s (.inl hs)
  rwa [Naming.nameOf, hnames] at hown

theorem newline_notMem_describeWith {p : ParamList Symbol} (hp : p.MadeOf P) :
    '\n' ∉ (p.describeWith names).toList := by
  obtain ⟨hpositional, hrest⟩ := ParamList.madeOf_iff.mp hp
  refine newline_notMem_describe (fun name hname => ?_) fun name hname => ?_
  · obtain ⟨s, hs, rfl⟩ := List.mem_map.mp hname
    exact hline s (.inl (hpositional s hs))
  · obtain ⟨r, hr, rfl⟩ := Option.map_eq_some_iff.mp hname
    exact hline r (.inl (hrest r hr))

theorem newline_notMem_description {description : String}
    (h : DescribedIn names P description) : '\n' ∉ description.toList := by
  cases h with
  | special form =>
    exact newline_notMem_append (newline_notMem_literal (by decide))
      (newline_notMem_specialName form)
  | native n => exact newline_notMem_nativeDescription n
  | binding => exact newline_notMem_literal (by decide)
  | definition => exact newline_notMem_literal (by decide)
  | @procedure kind params called hparams hcalled =>
    have hname : '\n' ∉ (called.getD kind.headName).toList := by
      cases called with
      | none => cases kind <;> exact newline_notMem_literal (by decide)
      | some name => exact newline_notMem_called hline hcalled name rfl
    exact newline_notMem_append
      (newline_notMem_append hname (newline_notMem_literal (by decide)))
      (newline_notMem_describeWith hline hparams)

theorem newline_notMem_message {cause : EvalCause} (h : cause.ToldIn names P) :
    '\n' ∉ cause.message.toList := by
  cases cause with
  | unbound name =>
    obtain ⟨s, hs, rfl⟩ := h
    exact newline_notMem_append
      (newline_notMem_append (newline_notMem_literal (by decide)) (hline s (.inl hs)))
      (newline_notMem_literal (by decide))
  | arity description rule expected actual =>
    have hwords : '\n' ∉ rule.words.toList := by
      cases rule <;> exact newline_notMem_literal (by decide)
    have hstart := newline_notMem_append (newline_notMem_append
      (newline_notMem_description hline h)
      (newline_notMem_literal (by decide) : '\n' ∉ " requires ".toList)) hwords
    have hcount := newline_notMem_append (newline_notMem_append hstart
      (newline_notMem_literal (by decide) : '\n' ∉ " ".toList)) (newline_notMem_natText expected)
    exact newline_notMem_append
      (newline_notMem_append hcount (newline_notMem_literal (by decide)))
      (newline_notMem_natText actual)
  | typeFault fault =>
    cases fault with
    | nameNotSymbol form =>
      exact newline_notMem_append (newline_notMem_append (newline_notMem_literal (by decide))
        (newline_notMem_specialName form)) (newline_notMem_literal (by decide))
    | _ => exact newline_notMem_literal (by decide)
  | emptyApplication => exact newline_notMem_literal (by decide)
  | notApplicable value called =>
    refine newline_notMem_append ?_ (newline_notMem_literal (by decide))
    cases called with
    | none => exact newline_notMem_literal (by decide)
    | some name =>
      exact newline_notMem_append (newline_notMem_append (newline_notMem_literal (by decide))
        (newline_notMem_called hline h.2 name rfl)) (newline_notMem_literal (by decide))
  | badDefinition fault => cases fault <;> exact newline_notMem_literal (by decide)
  | tooDeep limit =>
    exact newline_notMem_append (newline_notMem_append (newline_notMem_literal (by decide))
      (newline_notMem_intText limit)) (newline_notMem_literal (by decide))
  | exhausted => exact newline_notMem_literal (by decide)
  | internal fault =>
    cases fault with
    | popGlobal => exact newline_notMem_literal (by decide)
    | operandShape n =>
      refine newline_notMem_append (newline_notMem_literal (by decide)) ?_
      cases n <;> exact newline_notMem_literal (by decide)

theorem newline_notMem_label {f : Frame} (h : f.ToldIn names P) :
    ∀ label ∈ f.label, '\n' ∉ label.toList := by
  intro label hlabel
  rcases h.label with hl | hl | hl
  · rw [hl] at hlabel
    cases hlabel
    exact newline_notMem_literal (by decide)
  · rw [hl] at hlabel
    cases hlabel
    exact newline_notMem_literal (by decide)
  · exact newline_notMem_called hline hl label hlabel

theorem newline_notMem_excerpt {f : Frame} (h : f.ToldIn names P) :
    ∀ line ∈ (Excerpt.ofLocated (locate names f.form f.path) f.label).lines, '\n' ∉ line := by
  have hline' : ∀ s, OrReserved (OrReserved P) s → '\n' ∉ (names.nameOf s).toList :=
    fun s hs => hline s (hs.elim id .inr)
  have htext : '\n' ∉ (locate names f.form f.path).text := by
    rw [text_locate]
    exact newline_notMem_chars hline' h.form
  exact newline_notMem_excerptLines htext (newline_notMem_label hline h)

omit hline in
/-- Each excerpt of a diagnostic shows a frame of the error. -/
theorem exists_frame_of_mem_excerpts {e : EvalError} {limit : Int} {x : Excerpt}
    (hx : x ∈ (e.diagnose names limit).excerpts) :
    ∃ f ∈ e.frames, Excerpt.ofLocated (locate names f.form f.path) f.label = x := by
  have hall : x ∈ e.excerpts names := by
    simp only [EvalError.diagnose, EvalError.limited] at hx
    split at hx
    · exact hx
    · exact List.mem_of_mem_take (List.mem_of_mem_drop hx)
  obtain ⟨f, hf, hshown⟩ := List.mem_map.mp hall
  exact ⟨f, List.mem_reverse.mp hf, hshown⟩

theorem newline_notMem_diagnose {e : EvalError} (h : e.ToldIn names P) (limit : Int) :
    ∀ line ∈ (e.diagnose names limit).lines, '\n' ∉ line := by
  intro line hmem
  rcases List.mem_cons.mp hmem with rfl | hmem
  · exact newline_notMem_titled (newline_notMem_message hline h.cause)
  · obtain ⟨excerpt, hexcerpt, hline'⟩ := List.mem_flatMap.mp hmem
    obtain ⟨f, hf, rfl⟩ := exists_frame_of_mem_excerpts hexcerpt
    exact newline_notMem_excerpt hline (h.frames f hf) line hline'

end

end MiniLisp
