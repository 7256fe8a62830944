import MiniLisp.Proofs.Locate
import MiniLisp.Proofs.Reader.ErrorSpans
import MiniLisp.Proofs.Session.PrintedSymbols

/-!
# Aligned diagnostics

A formatted diagnostic has a line for its message and two or three lines for each excerpt, and its
carets stand under the characters that are marked. This holds of whatever error a session runs into,
because no part of a diagnostic has a line feed in it and no form is printed as nothing, so that
there is something to mark in each frame and on each line of a source.
Main statement: `diagnostics_aligned`.
-/

namespace MiniLisp

section

variable {t : Symbols}

theorem Symbols.nameOf_ne_empty {s : Symbol} (h : t.Spells s) : t.naming.nameOf s ≠ "" := by
  have hrun := (isSymbolName_iff _).mp (Symbols.isSymbolName_nameOf h)
  intro hempty
  exact hrun.1 (by rw [hempty]; rfl)

theorem Value.chars_ne_nil {v : Value} (h : v.MadeOf t.Spells) : v.chars t.naming ≠ [] := by
  cases v with
  | symbol s =>
    have hname := Symbols.nameOf_ne_empty (madeOf_symbol_iff.mp h)
    simpa [chars, symbolText] using hname
  | number x =>
    simp only [chars]
    exact Number.text_ne_nil x
  | list items => simp [chars_list]
  | procedure kind params body => simp [chars]
  | _ => simp [chars, boolText, Text.stringLiteral, specialText, nativeText]

theorem Value.MadeOf.part {P : Symbol → Prop} {v : Value} (h : v.MadeOf P) (path : Path) :
    (v.part path).MadeOf P := by
  induction path generalizing v with
  | nil => exact h
  | cons i path ih =>
    unfold Value.part
    split
    · rename_i before w after hsplit
      rw [split?_eq_some hsplit, madeOf_list_iff] at h
      exact ih (h w (List.mem_append_right before List.mem_cons_self))
    · exact h

theorem highlighted_ofLocated (names : Naming) (v : Value) (path : Path) (label : Option String) :
    (Excerpt.ofLocated (locate names v path) label).highlighted = (v.part path).chars names := by
  have hstop := stop_locate_le names v path
  have hstart := start_locate_le names v path
  rw [← highlighted_locate_part, Located.highlighted]
  exact Text.slice_of_nat _ _ _ (hstart.trans hstop) hstop

/-- The excerpt is the printed form of a frame of the error, and what is marked in it is the printed
part to which the path of the frame leads. -/
def EvalError.ShownIn (t : Symbols) (e : EvalError) (x : Excerpt) : Prop :=
  ∃ f ∈ e.frames, x.text = f.form.chars t.naming ∧ x.label = f.label ∧
    x.highlighted = (f.form.part f.path).chars t.naming

/-- However many frames are shown, the diagnostic is aligned and shows frames of the error. -/
def EvalError.AlignedIn (t : Symbols) (e : EvalError) : Prop :=
  ∀ limit, (e.diagnose t.naming limit).Aligned ∧
    ∀ x ∈ (e.diagnose t.naming limit).excerpts, e.ShownIn t x

theorem Frame.ToldIn.label_ne_empty {f : Frame} (h : f.ToldIn t.naming t.Spells) :
    ∀ label ∈ f.label, label ≠ "" := by
  intro label hlabel
  rcases h.label with hl | hl | hl
  · rw [hl] at hlabel
    cases hlabel
    decide
  · rw [hl] at hlabel
    cases hlabel
    decide
  · obtain ⟨s, hs, hname⟩ := hl label hlabel
    have hne := Symbols.nameOf_ne_empty hs
    rwa [Naming.nameOf, hname] at hne

theorem Frame.ToldIn.proper {f : Frame} (h : f.ToldIn t.naming t.Spells) :
    (Excerpt.ofLocated (locate t.naming f.form f.path) f.label).Proper := by
  have hstop := stop_locate_le t.naming f.form f.path
  have hform := (h.form.mono fun _ => Symbols.spells_of_orReserved).part f.path
  have hshown := Value.chars_ne_nil hform
  rw [← highlighted_locate_part, Located.highlighted, ne_eq, List.drop_eq_nil_iff,
    List.length_take] at hshown
  refine ⟨?_, h.label_ne_empty⟩
  simp only [Excerpt.ofLocated]
  omega

theorem EvalError.PrintsWell.alignedIn {e : EvalError} (h : e.PrintsWell t) : e.AlignedIn t := by
  intro limit
  refine ⟨Diagnostic.aligned_of (h.lines limit) fun x hx => ?_, fun x hx => ?_⟩
  · obtain ⟨f, hf, rfl⟩ := exists_frame_of_mem_excerpts hx
    exact (h.told.frames f hf).proper
  · obtain ⟨f, hf, rfl⟩ := exists_frame_of_mem_excerpts hx
    exact ⟨f, hf, text_locate _ _ _, rfl, highlighted_ofLocated _ _ _ _⟩

end

theorem Reader.finish_error_span {r : Reader} {e : ReadError} (h : r.finish.result = .error e) :
    e.span = none := by
  unfold finish at h
  split at h <;> cases h
  rfl

/-- The error has no place, or it came up when the source was fed to some reader. -/
def ReadError.About (e : ReadError) (source : String) : Prop :=
  e.span = none ∨ ∃ r : Reader, (r.feed source).result = .error e

theorem ReadError.About.aligned {e : ReadError} {source : String} (h : e.About source) :
    (e.diagnose source).Aligned := by
  apply Diagnostic.aligned_of (newline_notMem_readDiagnose e source)
  cases hspan : e.span with
  | none =>
    rw [diagnose, hspan]
    exact List.forall_mem_nil _
  | some span =>
    rcases h with hnone | ⟨r, h⟩
    · rw [hspan] at hnone
      cases hnone
    · rw [diagnose, hspan]
      exact List.forall_mem_singleton.mpr (Reader.shows_of_feed h hspan).proper

def Step.source : Step → String
  | .eval source => source
  | .read chunk | .feed chunk => chunk
  | .resolve _ | .reset | .finish => ""

/-- Every error of which the reply tells has an aligned diagnostic, an error of reading for the
source of the step. -/
def Reply.Aligned (t : Symbols) (source : String) : Reply → Prop
  | .readError e => (e.diagnose source).Aligned
  | .evalError e => e.AlignedIn t
  | .results rs => ∀ r ∈ rs, ∀ e, r = .error (.eval e) → e.AlignedIn t
  | _ => True

theorem Reply.eq_error_of_ofSource {r : Except Failure (List Value)} {e : ReadError}
    (h : Reply.ofSource r = .readError e) : r = .error (.read e) := by
  rcases r with (e' | e' | _) | vs <;> cases h
  rfl

namespace Interpreter

theorem about_of_perform {it : Interpreter} {step : Step} {e : ReadError}
    (h : (it.perform step).1 = .readError e) : e.About step.source := by
  cases step with
  | eval source =>
    rcases hread : it.readSource source with ⟨e' | forms, it'⟩
    · rw [perform, evalSource_of_error hread] at h
      cases h
      rcases Reader.readAll_error_cases (congrArg Prod.fst hread) with hfeed | hfinish
      · exact .inr ⟨_, hfeed⟩
      · exact .inl (Reader.finish_error_span hfinish)
    · rw [perform, evalSource_of_ok hread] at h
      have hfails := Reply.eq_error_of_ofSource h
      obtain ⟨it'', form, _, hform⟩ := exists_of_evalForms_error hfails
      rcases evalTopLevel_error_cases hform with ⟨e', he'⟩ | ⟨hhost, _⟩
      · cases he'
      · cases hhost
  | read chunk =>
    simp only [perform] at h
    split at h <;> cases h
    rename_i heq
    exact .inr ⟨_, congrArg Prod.fst heq⟩
  | feed chunk =>
    simp only [perform] at h
    split at h <;> cases h
    rename_i heq
    exact .inr ⟨_, congrArg Prod.fst heq⟩
  | resolve name => cases h
  | reset => cases h
  | finish =>
    simp only [perform] at h
    split at h <;> cases h
    rename_i heq
    exact .inl (Reader.finish_error_span (congrArg Prod.fst heq))

end Interpreter

theorem Reply.aligned_of {t : Symbols} {source : String} {reply : Reply}
    (hprints : reply.PrintsWell t) (habout : ∀ e, reply = .readError e → e.About source) :
    reply.Aligned t source := by
  cases reply with
  | readError e => exact (habout e rfl).aligned
  | evalError e => exact EvalError.PrintsWell.alignedIn hprints
  | results rs =>
    intro r hr e he
    have hresult := hprints r hr
    rw [he] at hresult
    exact EvalError.PrintsWell.alignedIn hresult
  | _ => trivial

/-- Diagnostics are aligned. Whatever a session has done and does next, an error of which the reply
tells is formatted, with whatever limit to its frames, as a line for the message and for each
excerpt a line with the label, if there is one, and two more: the text, and below it a caret under
each marked character and nothing else. Something is marked in each excerpt; for an error of
evaluation it is the printed part of a printed form to which the path of a frame leads. -/
theorem diagnostics_aligned (maxDepth : Int) (host : Host) (steps : List Step) (step : Step) :
    let it := ((Interpreter.start maxDepth host).performAll steps).2
    (it.perform step).1.Aligned (it.perform step).2.symbols step.source := by
  intro it
  have hnamed : it.NamedIn Interpreter.readable :=
    (Interpreter.namedIn_start Interpreter.readable maxDepth host).performAll steps
  apply Reply.aligned_of (hnamed.printsWell_perform step)
  intro e he
  exact Interpreter.about_of_perform he

end MiniLisp
