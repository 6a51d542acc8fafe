import StyleScript.Proofs.Skipping

/-! Trivia by its parts. What is skipped is a row of blanks and comments, it is as long as it can be, and every such
row is skipped as a whole before a text that begins with no more of it. -/

namespace StyleScript.Trivia
open Reading StyleScript.Parser Text

/-- A run of blanks, a comment that runs to the end of its line, or a comment that is closed. -/
inductive Part where
  | run (blanks : Text)
  | line (inside : Text)
  | closed (inside : Text)

namespace Part

def text : Part → Text
  | .run blanks => blanks
  | .line inside => '/' :: '/' :: inside
  | .closed inside => '/' :: '*' :: (inside ++ ['*', '/'])

def IsComplete : Part → Prop
  | .run blanks => blanks ≠ [] ∧ ∀ c ∈ blanks, isBlank c = true
  | .line inside => '\n' ∉ inside
  | .closed inside => Unclosed inside

instance : (part : Part) → Decidable part.IsComplete
  | .run blanks => @instDecidableAnd (blanks ≠ []) (∀ c ∈ blanks, isBlank c = true) inferInstance (List.decidableBAll _ _)
  | .line inside => inferInstanceAs (Decidable ('\n' ∉ inside))
  | .closed inside => inferInstanceAs (Decidable (¬ "*/".toList <:+: inside))

end Part

def textOf (parts : List Part) : Text := parts.flatMap Part.text

/-- A newline, or else the end of the text, comes after every comment that runs to the end of its line. -/
def LinesEnd (rest : Text) : List Part → Prop
  | [] => True
  | .line _ :: parts => Stops (· != '\n') (textOf parts ++ rest) ∧ LinesEnd rest parts
  | _ :: parts => LinesEnd rest parts

theorem textOf_cons (part : Part) (parts : List Part) : textOf (part :: parts) = part.text ++ textOf parts :=
  List.flatMap_cons

theorem Skipped.exists_parts {rest gap : Text} (skipped : Skipped rest gap) :
    ∃ parts, textOf parts = gap ∧ (∀ part ∈ parts, part.IsComplete) ∧ LinesEnd rest parts := by
  induction skipped with
  | nil => exact ⟨[], rfl, List.forall_mem_nil _, trivial⟩
  | @blank c _ isBlank _ ih =>
    obtain ⟨parts, rfl, complete, ends⟩ := ih
    have single : (Part.run [c]).IsComplete := ⟨List.cons_ne_nil _ _, List.forall_mem_singleton.2 isBlank⟩
    exact ⟨.run [c] :: parts, rfl, List.forall_mem_cons.2 ⟨single, complete⟩, ends⟩
  | comment isComment _ ih =>
    obtain ⟨parts, rfl, complete, ends⟩ := ih
    cases isComment with
    | @line inside _ outside stops =>
      exact ⟨.line inside :: parts, textOf_cons _ _, List.forall_mem_cons.2 ⟨outside, complete⟩, stops, ends⟩
    | @closed inside _ unclosed =>
      exact ⟨.closed inside :: parts, textOf_cons _ _, List.forall_mem_cons.2 ⟨unclosed, complete⟩, ends⟩

theorem skipped_textOf {rest : Text} {parts : List Part} (complete : ∀ part ∈ parts, part.IsComplete)
    (ends : LinesEnd rest parts) : Skipped rest (textOf parts) := by
  induction parts with
  | nil => exact .nil
  | cons part parts ih =>
    obtain ⟨here, later⟩ := List.forall_mem_cons.1 complete
    rw [textOf_cons]
    cases part with
    | run blanks => exact .blanks here.2 (ih later ends)
    | line inside => exact .comment (.line here ends.1) (ih later ends.2)
    | closed inside => exact .comment (.closed here) (ih later ends)

theorem exists_afterClosing {text : Text} (inside : "*/".toList <:+: text) : ∃ rest, afterClosing text = some rest := by
  induction text with
  | nil => exact absurd inside (by decide)
  | cons c text ih =>
    rw [afterClosing]
    split
    next => exact ⟨_, rfl⟩
    next other =>
      obtain here | later := List.infix_cons_iff.1 inside
      · obtain ⟨tail, same⟩ := here
        cases same
        exact absurd ⟨rfl, rfl⟩ other
      · exact ih later

theorem refuses_lineComment {text : Text} : lineComment.Refuses text ↔ ¬ "//".toList <+: text := by
  rw [lineComment, refuses_bind, refuses_exactly]
  apply or_iff_left
  rintro ⟨_, middle, -, refuses⟩
  have reads : (do let _ ← takeWhile (· != '\n'); return : Parser Unit) middle = .ok ((), middle.dropWhile (· != '\n')) :=
    rfl
  exact not_refuses reads refuses

theorem refuses_closedComment {text : Text} :
    closedComment.Refuses text ↔ ¬ ∃ inside after, text = "/*".toList ++ (inside ++ ("*/".toList ++ after)) := by
  rw [closedComment_eq, refuses_bind, refuses_exactly]
  constructor
  · rintro (unopened | ⟨_, middle, reads, refuses⟩) ⟨inside, after, rfl⟩
    · exact unopened (List.prefix_append _ _)
    · obtain rfl := List.append_cancel_left (exactly_eq_ok.1 reads)
      obtain ⟨rest, found⟩ := exists_afterClosing ⟨inside, after, List.append_assoc _ _ _⟩
      have reads : closing (inside ++ ("*/".toList ++ after)) = .ok ((), rest) := closing_eq_ok.2 found
      exact not_refuses reads refuses
  · intro unclosed
    by_cases opened : "/*".toList <+: text
    · obtain ⟨middle, rfl⟩ := opened
      refine .inr ⟨(), middle, exactly_eq_ok.2 rfl, ?_⟩
      obtain refuses | ⟨value, rest, reads⟩ := refuses_or_reads closing middle
      · exact refuses
      · obtain ⟨inside, -, same⟩ := afterClosing_eq_some.1 (closing_eq_ok.1 reads)
        exact absurd ⟨inside, rest, congrArg _ same⟩ unclosed
    · exact .inl opened

/-- No part of trivia begins here. An opened comment that is never closed is none. -/
structure NoPart (text : Text) : Prop where
  blank : Stops isBlank text
  line : ¬ "//".toList <+: text
  closed : ¬ ∃ inside after, text = "/*".toList ++ (inside ++ ("*/".toList ++ after))

theorem refuses_piece_iff {text : Text} : piece.Refuses text ↔ NoPart text := by
  rw [piece, refuses_orElse, refuses_orElse, refuses_blanks1, refuses_lineComment, refuses_closedComment]
  constructor
  · intro refused
    exact ⟨refused.1, refused.2.1, refused.2.2⟩
  · intro nothing
    exact ⟨nothing.blank, nothing.line, nothing.closed⟩

theorem takes_trivia {taken rest : Text} : (span trivia).Takes taken taken rest ↔ skip (taken ++ rest) = rest := by
  obtain ⟨values, reads⟩ := many_piece_skip (taken ++ rest)
  have whole : trivia (taken ++ rest) = .ok ((), skip (taken ++ rest)) := bind_eq_ok.2 ⟨values, _, reads, rfl⟩
  rw [takes_span]
  change taken = taken ∧ (∃ value, trivia (taken ++ rest) = .ok (value, rest)) ↔ _
  rw [whole]
  simp

/-- Skipping takes a row of parts, behind which no further part begins; and before a text of which it takes nothing, it
takes every row of parts as a whole. -/
theorem trivia_exact :
    (∀ text, ∃ parts rest, text = textOf parts ++ rest ∧ span trivia text = .ok (textOf parts, rest) ∧
      (∀ part ∈ parts, part.IsComplete) ∧ LinesEnd rest parts ∧ NoPart rest ∧ span trivia rest = .ok ([], rest)) ∧
    ∀ parts rest, (∀ part ∈ parts, part.IsComplete) → LinesEnd rest parts → span trivia rest = .ok ([], rest) →
      span trivia (textOf parts ++ rest) = .ok (textOf parts, rest) := by
  constructor
  · intro text
    obtain ⟨gap, same, skipped, refuses⟩ := exists_skipped text
    obtain ⟨parts, rfl, complete, ends⟩ := skipped.exists_parts
    have taken : (span trivia).Takes (textOf parts) (textOf parts) (skip text) := takes_trivia.2 (congrArg skip same.symm)
    rw [Takes, ← same] at taken
    have nothing : (span trivia).Takes [] [] (skip text) := takes_trivia.2 (skip_of_refuses refuses)
    exact ⟨parts, skip text, same, taken, complete, ends, refuses_piece_iff.1 refuses, nothing⟩
  · intro parts rest complete ends nothing
    have stays : skip rest = rest := takes_trivia.1 (show (span trivia).Takes [] [] rest from nothing)
    exact takes_trivia.2 ((skipped_textOf complete ends).skip_append.trans stays)

/-- An opening inside a comment opens nothing, and one that is never closed is not skipped. -/
theorem trivia_exact_overlapping :
    let parts : List Part :=
      [.run "  ".toList, .line " a /* b".toList, .run "\n".toList, .closed " // * /*".toList, .closed []]
    let rest := "/* // ".toList
    (∀ part ∈ parts, part.IsComplete) ∧ LinesEnd rest parts ∧ span trivia rest = .ok ([], rest) ∧
      span trivia (textOf parts ++ rest) = .ok (textOf parts, rest) := by
  intro parts rest
  have complete : ∀ part ∈ parts, part.IsComplete := by decide +kernel
  have ends : LinesEnd rest parts := ⟨stops_cons.2 (by decide), trivial⟩
  have nothing : span trivia rest = .ok ([], rest) := by decide +kernel
  exact ⟨complete, ends, nothing, trivia_exact.2 parts rest complete ends nothing⟩

end StyleScript.Trivia
