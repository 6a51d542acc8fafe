import StyleScript.Proofs.Sealed

/-! Quotes and parentheses that match. The scan for commas passes over a closing parenthesis that nothing opened; a
strict scan stops there. The parts between the commas are closed each by itself, all but the last. -/

namespace StyleScript
namespace Nesting

/-- Where a scan is when it has passed a text. -/
def scan (nesting : Nesting) (text : Text) : Nesting := text.foldl after nesting

/-- A closing parenthesis that nothing opened. -/
def Strays (nesting : Nesting) (c : Char) : Prop := nesting.quote = none ∧ nesting.depth = 0 ∧ c = ')'

instance (nesting : Nesting) (c : Char) : Decidable (nesting.Strays c) :=
  inferInstanceAs (Decidable (_ ∧ _ ∧ _))

/-- The scan as far as no closing parenthesis strays. -/
def strictly (nesting : Nesting) : Text → Option Nesting
  | [] => some nesting
  | c :: rest => if nesting.Strays c then none else (nesting.after c).strictly rest

/-- What comes after the parenthesis that matches one before the text. -/
def fromClosing (nesting : Nesting) : Text → Option Text
  | [] => none
  | c :: rest => if nesting.Strays c then some rest else (nesting.after c).fromClosing rest

end Nesting

open Nesting

/-- All quotes are closed, and outside of them every parenthesis matches another. -/
def Balanced (text : Text) : Prop := outside.strictly text = some outside

instance (text : Text) : Decidable (Balanced text) := inferInstanceAs (Decidable (_ = _))

theorem balanced_nil : Balanced [] := rfl

namespace Nesting

theorem scan_append (nesting : Nesting) (first second : Text) :
    nesting.scan (first ++ second) = (nesting.scan first).scan second :=
  List.foldl_append

theorem strictly_append (nesting : Nesting) (first second : Text) :
    nesting.strictly (first ++ second) = (nesting.strictly first).bind (·.strictly second) := by
  induction first generalizing nesting with
  | nil => rfl
  | cons c first ih =>
    rw [List.cons_append, strictly, strictly]
    split
    · rfl
    · exact ih _

/-- The two scans differ only where one of them stops. -/
theorem scan_of_strictly {nesting last : Nesting} {text : Text} (passes : nesting.strictly text = some last) :
    nesting.scan text = last := by
  induction text generalizing nesting with
  | nil => exact Option.some.inj passes
  | cons c text ih =>
    rw [strictly] at passes
    split at passes
    · cases passes
    · exact ih passes

theorem fromClosing_suffix {nesting : Nesting} {text rest : Text} (found : nesting.fromClosing text = some rest) :
    rest.length < text.length := by
  induction text generalizing nesting with
  | nil => cases found
  | cons c text ih =>
    rw [fromClosing] at found
    split at found
    · cases found
      exact Nat.lt_succ_self _
    · exact Nat.lt_succ_of_lt (ih found)

/-- A parenthesis matches the one before the text exactly if what is between them is balanced. -/
theorem fromClosing_eq_some_iff {nesting : Nesting} {text rest : Text} :
    nesting.fromClosing (text ++ ')' :: rest) = some rest ↔ nesting.strictly text = some outside := by
  induction text generalizing nesting with
  | nil =>
    rw [List.nil_append, fromClosing, strictly]
    split
    next strays =>
      obtain ⟨quote, depth, -⟩ := strays
      exact iff_of_true rfl (congrArg some (by rw [outside, ← quote, ← depth]))
    next inside =>
      refine iff_of_false (fun found => ?_) fun same => inside ?_
      · exact Nat.lt_irrefl _ (fromClosing_suffix found)
      · cases Option.some.inj same
        exact ⟨rfl, rfl, rfl⟩
  | cons c text ih =>
    rw [List.cons_append, fromClosing, strictly]
    split
    · -- The parenthesis was matched before.
      refine iff_of_false (fun same => ?_) (by rintro ⟨⟩)
      have longer := congrArg List.length (Option.some.inj same)
      simp only [List.length_append, List.length_cons] at longer
      omega
    · exact ih

/-- Quotes that are open were opened by a quotation mark. -/
def Proper (nesting : Nesting) : Prop := ∀ quote ∈ nesting.quote, quote ∈ ['"', '\'']

theorem proper_outside : outside.Proper := nofun

theorem Proper.after {nesting : Nesting} (proper : nesting.Proper) (c : Char) : (nesting.after c).Proper := by
  intro quote opened
  change quote ∈ quoteAfter nesting.quote c at opened
  rcases before : nesting.quote with _ | opening
  · rw [before, quoteAfter] at opened
    split at opened
    next mark =>
      cases opened
      simpa using mark
    next => cases opened
  · rw [before, quoteAfter] at opened
    split at opened
    · cases opened
    · cases opened
      exact proper _ before

theorem Proper.scan {nesting : Nesting} (proper : nesting.Proper) (text : Text) : (nesting.scan text).Proper := by
  induction text generalizing nesting with
  | nil => exact proper
  | cons c text ih => exact ih (proper.after c)

theorem quote_after_of_not_mark {nesting : Nesting} (proper : nesting.Proper) {c : Char} (other : c ∉ ['"', '\'']) :
    (nesting.after c).quote = nesting.quote := by
  change quoteAfter nesting.quote c = nesting.quote
  rcases before : nesting.quote with _ | quote
  · simp only [List.mem_cons, List.not_mem_nil, or_false] at other
    rw [quoteAfter, if_neg other]
  · have different : c ≠ quote := by
      rintro rfl
      exact other (proper c before)
    rw [quoteAfter, if_neg different]

/-- The quotes do not depend on the parentheses. -/
theorem quote_scan_congr {nesting nesting' : Nesting} (same : nesting.quote = nesting'.quote) {text : Text} :
    (nesting.scan text).quote = (nesting'.scan text).quote := by
  induction text generalizing nesting nesting' with
  | nil => exact same
  | cons c text ih => exact ih (congrArg (quoteAfter · c) same)

/-- No quotation mark and no parenthesis. -/
def IsPlain (text : Text) : Prop := ∀ c ∈ text, c ∉ ['(', ')', '"', '\'']

instance (text : Text) : Decidable (IsPlain text) := List.decidableBAll _ text

section
variable {nesting : Nesting} (proper : nesting.Proper) {text : Text} (plain : IsPlain text)
include proper plain

theorem strictly_of_plain : nesting.strictly text = some nesting := by
  induction text with
  | nil => rfl
  | cons c text ih =>
    obtain ⟨here, later⟩ := List.forall_mem_cons.1 plain
    have other : c ∉ ['"', '\''] := fun mark => here (List.mem_cons_of_mem _ (List.mem_cons_of_mem _ mark))
    have quoted : quoteAfter nesting.quote c = nesting.quote := quote_after_of_not_mark proper other
    obtain ⟨opening, inner⟩ := List.ne_and_not_mem_of_not_mem_cons here
    obtain ⟨closing, -⟩ := List.ne_and_not_mem_of_not_mem_cons inner
    have kept : nesting.after c = nesting := by
      simp [after, quoted, opening, closing]
    rw [strictly, if_neg fun strays => closing strays.2.2, kept]
    exact ih later

theorem scan_of_plain : nesting.scan text = nesting := scan_of_strictly (strictly_of_plain proper plain)

end

/-- What is plain around a text does not change where the scans end. -/
theorem scans_of_plain {before text after : Text} (plainBefore : IsPlain before) (plainAfter : IsPlain after) :
    outside.scan (before ++ (text ++ after)) = outside.scan text ∧
      outside.strictly (before ++ (text ++ after)) = outside.strictly text := by
  have opening := strictly_of_plain proper_outside plainBefore
  constructor
  · rw [scan_append, scan_append, scan_of_strictly opening]
    exact scan_of_plain (proper_outside.scan text) plainAfter
  · rw [strictly_append, opening, Option.bind_some, strictly_append]
    rcases passes : outside.strictly text with _ | last
    · rfl
    · have proper : last.Proper := scan_of_strictly passes ▸ proper_outside.scan text
      exact strictly_of_plain proper plainAfter

/-- The scan meets no comma of the text outside quotes and parentheses. -/
def Whole (nesting : Nesting) (text : Text) : Prop :=
  ∀ front back, text = front ++ ',' :: back → nesting.scan front ≠ outside

theorem whole_nil (nesting : Nesting) : nesting.Whole [] := fun _ _ impossible => by simp at impossible

theorem whole_cons {nesting : Nesting} {c : Char} {text : Text} :
    nesting.Whole (c :: text) ↔ (nesting = outside → c ≠ ',') ∧ (nesting.after c).Whole text := by
  constructor
  · intro whole
    refine ⟨fun here mark => whole [] text (by rw [mark]; rfl) here, fun front back same => ?_⟩
    exact whole (c :: front) back (congrArg (c :: ·) same)
  · rintro ⟨first, later⟩ front back same
    cases front with
    | nil =>
      cases same
      exact fun here => first here rfl
    | cons d front =>
      rw [List.cons_append] at same
      cases same
      exact later front back rfl

theorem passes_of_whole {nesting : Nesting} {text : Text} (whole : nesting.Whole text) :
    nesting.Passes (nesting.scan text) text := by
  induction text generalizing nesting with
  | nil => exact passes_nil nesting
  | cons c text ih =>
    obtain ⟨kept, later⟩ := whole_cons.1 whole
    exact passes_cons kept (ih later)

/-- A text that is not whole has a first comma that is met outside. -/
theorem whole_or_cut (nesting : Nesting) (text : Text) :
    nesting.Whole text ∨
      ∃ part rest, text = part ++ ',' :: rest ∧ nesting.Whole part ∧ nesting.scan part = outside := by
  induction text generalizing nesting with
  | nil => exact .inl (whole_nil nesting)
  | cons c text ih =>
    by_cases comma : nesting = outside ∧ c = ','
    · obtain ⟨rfl, rfl⟩ := comma
      exact .inr ⟨[], text, rfl, whole_nil outside, rfl⟩
    · have kept : nesting = outside → c ≠ ',' := fun here mark => comma ⟨here, mark⟩
      obtain whole | ⟨part, rest, rfl, whole, closed⟩ := ih (nesting.after c)
      · exact .inl (whole_cons.2 ⟨kept, whole⟩)
      · exact .inr ⟨c :: part, rest, rfl, whole_cons.2 ⟨kept, whole⟩, closed⟩

end Nesting

theorem commaParts_of_whole {text : Text} (whole : outside.Whole text) : commaParts text = [text] :=
  (passes_of_whole whole).parts

theorem commaParts_of_cut {part : Text} (whole : outside.Whole part) (closed : outside.scan part = outside)
    (rest : Text) : commaParts (part ++ ',' :: rest) = part :: commaParts rest := by
  have passes := passes_of_whole whole
  rw [closed] at passes
  exact passes.parts_comma rest

/-- What holds of a text without cuts, and of a text with its first cut if it holds behind that, holds of every text
and its parts. -/
theorem commaParts_induction {holds : Text → List Text → Prop} (last : ∀ text, outside.Whole text → holds text [text])
    (cut : ∀ part rest, outside.Whole part → outside.scan part = outside → holds rest (commaParts rest) →
      holds (part ++ ',' :: rest) (part :: commaParts rest)) (text : Text) : holds text (commaParts text) := by
  induction size : text.length using Nat.strongRecOn generalizing text with
  | ind size ih =>
    subst size
    obtain whole | ⟨part, rest, rfl, whole, closed⟩ := whole_or_cut outside text
    · rw [commaParts_of_whole whole]
      exact last text whole
    · rw [commaParts_of_cut whole closed]
      exact cut part rest whole closed (ih rest.length (by simp; omega) rest rfl)

/-- A text cut into parts at commas, where each part before a comma leaves the scan as it was. -/
inductive CutAtCommas : Text → List Text → Prop where
  | last (text : Text) : CutAtCommas text [text]
  | part {part rest : Text} {parts : List Text} (closed : outside.scan part = outside) (later : CutAtCommas rest parts) :
      CutAtCommas (part ++ ',' :: rest) (part :: parts)

theorem cutAtCommas_commaParts (text : Text) : CutAtCommas text (commaParts text) :=
  commaParts_induction (fun text _ => .last text) (fun _ _ _ closed later => .part closed later) text

namespace CutAtCommas
variable {text : Text} {parts : List Text} (cut : CutAtCommas text parts)
include cut

theorem ne_nil : parts ≠ [] := by
  cases cut <;> exact List.cons_ne_nil _ _

theorem closed : ∀ part ∈ parts.dropLast, outside.scan part = outside := by
  induction cut with
  | last => exact List.forall_mem_nil _
  | part closed later ih =>
    rw [List.dropLast_cons_of_ne_nil later.ne_nil]
    exact List.forall_mem_cons.2 ⟨closed, ih⟩

theorem quote_scan_iff : (outside.scan text).quote = none ↔ ∀ part ∈ parts, (outside.scan part).quote = none := by
  induction cut with
  | last text => rw [List.forall_mem_singleton]
  | part closed later ih =>
    rw [scan_append, closed, List.forall_mem_cons, closed]
    exact ih.trans (and_iff_right rfl).symm

theorem balanced_iff : Balanced text ↔ ∀ part ∈ parts, Balanced part := by
  induction cut with
  | last text => rw [List.forall_mem_singleton]
  | @part part rest parts closed later ih =>
    rw [List.forall_mem_cons, ← ih, Balanced, strictly_append]
    rcases passes : outside.strictly part with _ | last
    · exact iff_of_false nofun fun both => nomatch passes.symm.trans both.1
    · obtain rfl : last = outside := (scan_of_strictly passes).symm.trans closed
      exact (and_iff_right passes).symm

end CutAtCommas

theorem whole_iff {text : Text} : outside.Whole text ↔ commaParts text = [text] := by
  refine ⟨commaParts_of_whole, fun alone => ?_⟩
  obtain whole | ⟨part, rest, rfl, whole, closed⟩ := whole_or_cut outside text
  · exact whole
  · rw [commaParts_of_cut whole closed] at alone
    exact absurd (List.cons.inj alone).2 (cutAtCommas_commaParts rest).ne_nil

theorem intercalate_comma {parts : List Text} (nonempty : parts ≠ []) (part : Text) :
    [','].intercalate (part :: parts) = part ++ ',' :: [','].intercalate parts := by
  obtain ⟨next, others, rfl⟩ := List.exists_cons_of_ne_nil nonempty
  rw [List.intercalate_cons_cons, List.append_assoc]
  rfl

theorem intercalate_commaParts (text : Text) : [','].intercalate (commaParts text) = text := by
  refine @commaParts_induction (fun text parts => [','].intercalate parts = text) ?_ ?_ text
  · exact fun _ _ => List.intercalate_singleton
  · intro part rest _ _ joined
    rw [intercalate_comma (cutAtCommas_commaParts rest).ne_nil, joined]

/-- No part is cut again: the scan of a part is that of the text from the comma before it on. -/
theorem whole_of_mem_commaParts (text : Text) : ∀ part ∈ commaParts text, outside.Whole part :=
  @commaParts_induction (fun _ parts => ∀ part ∈ parts, outside.Whole part)
    (fun _ whole => List.forall_mem_singleton.2 whole)
    (fun _ _ whole _ later => List.forall_mem_cons.2 ⟨whole, later⟩) text

theorem commaParts_of_joined {parts : List Text} (nonempty : parts ≠ []) (whole : ∀ part ∈ parts, outside.Whole part)
    (closed : ∀ part ∈ parts.dropLast, outside.scan part = outside) : commaParts ([','].intercalate parts) = parts := by
  induction parts with
  | nil => exact absurd rfl nonempty
  | cons part parts ih =>
    obtain ⟨here, later⟩ := List.forall_mem_cons.1 whole
    by_cases last : parts = []
    · rw [last, List.intercalate_singleton]
      exact commaParts_of_whole here
    · rw [List.dropLast_cons_of_ne_nil last] at closed
      obtain ⟨ends, closed⟩ := List.forall_mem_cons.1 closed
      rw [intercalate_comma last, commaParts_of_cut here ends, ih last later closed]

/-- The parts of a text are the one list that joins to it with commas, in which no part splits again, and all but the
last end outside quotes and parentheses. This is said of every text, also where quotes stay open or parentheses do not
match. -/
theorem commaParts_eq_iff {text : Text} {parts : List Text} :
    commaParts text = parts ↔
      parts ≠ [] ∧ [','].intercalate parts = text ∧ (∀ part ∈ parts.dropLast, outside.scan part = outside) ∧
        ∀ part ∈ parts, commaParts part = [part] := by
  constructor
  · rintro rfl
    have cut := cutAtCommas_commaParts text
    exact ⟨cut.ne_nil, intercalate_commaParts text, cut.closed,
      fun part member => commaParts_of_whole (whole_of_mem_commaParts text part member)⟩
  · rintro ⟨nonempty, rfl, closed, alone⟩
    exact commaParts_of_joined nonempty (fun part member => whole_iff.2 (alone part member)) closed

/-- One closing parenthesis too many changes nothing; a quote that stays open holds what comes after it together. -/
example : commaParts "1),'a,b".toList = ["1)".toList, "'a,b".toList] := by decide

end StyleScript
